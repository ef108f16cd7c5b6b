import Smor.Sched.Quanta
import Mathlib.Data.List.Sort

/-!
# Turns of the threads

When no thread sleeps, the order in which the threads of a CPU run follows from three details
of the scheduler: a tick takes one from the quantum of the current thread, `sched_find` keeps
the first of several best threads, and all quanta are refilled only when the best one is 0.
The threads then take turns in epochs. In each epoch every thread runs once, for as many
ticks as its priority says; this file derives the order from one lemma on a single tick.
-/

namespace Smor.Sched

open Smor.Lib

/-- `n` calls of `sched_tick`. -/
def schedTicks (rounds : ℕ) : ℕ → Cpu × Threads → Option (Cpu × Threads)
  | 0, s => some s
  | n + 1, s => (schedTicks rounds n s).bind fun s => schedTick rounds s.1 s.2

/-- `a` has its turn before `b`: a higher priority, or the same and an earlier place in the ring. -/
def Before (h : Threads) (others : List ThreadRef) (a b : ThreadRef) : Prop :=
  h.pri b < h.pri a ∨ h.pri b = h.pri a ∧ others.idxOf a < others.idxOf b

/-- The current threads of the ticks of one epoch. -/
def turns (h : Threads) (order : List ThreadRef) : List ThreadRef :=
  order.flatMap fun t => List.replicate (h.pri t).toNat t

/-- A CPU on which no thread sleeps, when only ticks have happened since `h₀`. -/
structure Ticking (h₀ : Threads) (c : ℕ) (others : List ThreadRef) (cpu : Cpu) (h : Threads) :
    Prop where
  head : cpu.threads = .idle c
  circular : Ring h₀.next h₀.prev (.idle c) (.idle c :: others)
  running : ∀ t ∈ .idle c :: others, h₀.state t = .running
  pri_pos : ∀ t ∈ others, 0 < h₀.pri t
  next : h.next = h₀.next
  prev : h.prev = h₀.prev
  pri : h.pri = h₀.pri
  state : h.state = h₀.state

/-- `t` is the thread of `others` that `sched_find` picks. -/
def Leads (cnt : ThreadRef → ℤ) (others : List ThreadRef) (t : ThreadRef) : Prop :=
  t ∈ others ∧ ∀ x ∈ others, x ≠ t →
    cnt x < cnt t ∨ cnt x = cnt t ∧ others.idxOf t < others.idxOf x

/-- Only the quanta of the threads themselves matter to who leads. -/
theorem Leads.congr {cnt cnt' : ThreadRef → ℤ} {others : List ThreadRef} {t : ThreadRef}
    (hleads : Leads cnt others t) (heq : ∀ x ∈ others, cnt' x = cnt x) : Leads cnt' others t := by
  refine ⟨hleads.1, fun x hx hne => ?_⟩
  rw [heq x hx, heq t hleads.1]
  exact hleads.2 x hx hne

section Find

variable {h : Threads} {t : ThreadRef} {xs ys : List ThreadRef} {best : ℤ × ThreadRef}

/-- The loop of `sched_find` keeps its choice when nothing better follows. -/
theorem foldl_schedFindBody_of_le (hys : ∀ y ∈ ys, h.cnt y ≤ best.1) :
    ys.foldl (schedFindBody h) best = best := by
  induction ys with
  | nil => rfl
  | cons y ys ih =>
    have hy := hys y List.mem_cons_self
    have hbody : schedFindBody h best y = best := if_neg fun hbetter => by omega
    rw [List.foldl_cons, hbody]
    exact ih fun x hx => hys x (List.mem_cons_of_mem _ hx)

/-- The loop of `sched_find` ends with the first of the best threads. -/
theorem foldl_schedFindBody_first (hrun : h.state t = .running) (hbest : best.1 < h.cnt t)
    (hxs : ∀ x ∈ xs, h.cnt x < h.cnt t) (hys : ∀ y ∈ ys, h.cnt y ≤ h.cnt t) :
    (xs ++ t :: ys).foldl (schedFindBody h) best = (h.cnt t, t) := by
  have hprefix : (xs.foldl (schedFindBody h) best).1 < h.cnt t := by
    obtain ⟨-, -, heq | ⟨hmem, -, hcnt⟩⟩ := foldl_schedFindBody h xs best
    · rw [heq]
      exact hbest
    · rw [← hcnt]
      exact hxs _ hmem
  have hbody : schedFindBody h (xs.foldl (schedFindBody h) best) t = (h.cnt t, t) :=
    if_pos ⟨hrun, hprefix⟩
  rw [List.foldl_append, List.foldl_cons, hbody]
  exact foldl_schedFindBody_of_le hys

end Find

/-- The loop of `sched_check_sleeping` leaves runnable threads alone. -/
theorem foldl_checkSleepingBody_running {h : Threads} {nodes : List ThreadRef}
    (hrun : ∀ t ∈ nodes, h.state t = .running) : nodes.foldl checkSleepingBody h = h := by
  induction nodes with
  | nil => rfl
  | cons t nodes ih =>
    have hbody : checkSleepingBody h t = h := if_neg (by simp [hrun t List.mem_cons_self])
    rw [List.foldl_cons, hbody]
    exact ih fun x hx => hrun x (List.mem_cons_of_mem _ hx)

namespace Ticking

variable {h₀ h : Threads} {c rounds : ℕ} {others : List ThreadRef} {cpu : Cpu} {t : ThreadRef}

/-- Quanta and ticks do not matter to what holds of a CPU between ticks. -/
theorem set (ht : Ticking h₀ c others cpu h) (cpu' : Cpu) (hhead : cpu'.threads = cpu.threads)
    (ticks : ThreadRef → ℕ) (cnt : ThreadRef → ℤ) :
    Ticking h₀ c others cpu' { h with ticks := ticks, cnt := cnt } where
  head := hhead.trans ht.head
  circular := ht.circular
  running := ht.running
  pri_pos := ht.pri_pos
  next := ht.next
  prev := ht.prev
  pri := ht.pri
  state := ht.state

theorem ring (ht : Ticking h₀ c others cpu h) :
    Ring h.next h.prev (.idle c) (.idle c :: others) := by
  rw [ht.next, ht.prev]
  exact ht.circular

theorem idle_notMem (ht : Ticking h₀ c others cpu h) : ThreadRef.idle c ∉ others :=
  (List.nodup_cons.mp ht.circular.nodup).1

theorem ne_idle (ht : Ticking h₀ c others cpu h) (hmem : t ∈ others) : t ≠ .idle c := by
  rintro rfl
  exact ht.idle_notMem hmem

/-- `sched_check_sleeping` has nothing to do. -/
theorem schedCheckSleeping_eq (ht : Ticking h₀ c others cpu h) (hrounds : others.length < rounds) :
    schedCheckSleeping rounds h (h.next cpu.threads) = some h := by
  have hlinks : ∀ h t x, (checkSleepingBody h t).next x = h.next x := by
    intro h t x
    unfold checkSleepingBody
    simp only
    split_ifs <;> rfl
  rw [schedCheckSleeping, ht.head, Ring.doWhile_round Threads.next checkSleepingBody hlinks ht.ring
    hrounds]
  congr 1
  apply foldl_checkSleepingBody_running
  intro x hx
  rw [ht.state]
  apply ht.running
  simp only [List.mem_append, List.mem_cons] at hx ⊢
  tauto

/-- `sched_find` picks the thread that leads. -/
theorem schedFind_eq (ht : Ticking h₀ c others cpu h) (hrounds : others.length < rounds)
    (hleads : Leads h.cnt others t) (hpos : 0 ≤ h.cnt t) (hidle : h.cnt (.idle c) = 0) :
    schedFind rounds h (h.next cpu.threads) = some t := by
  obtain ⟨hmem, hbetter⟩ := hleads
  obtain ⟨xs, ys, rfl, hnew⟩ := List.eq_append_cons_of_mem hmem
  have hnodup := (List.nodup_cons.mp ht.circular.nodup).2
  have hrun : h.state t = .running := by
    rw [ht.state]
    exact ht.running t (List.mem_cons_of_mem _ hmem)
  have hfirst : (xs ++ t :: ys).idxOf t = xs.length := by
    rw [List.idxOf_append_of_notMem hnew, List.idxOf_cons_self, Nat.add_zero]
  have hxs : ∀ x ∈ xs, h.cnt x < h.cnt t := by
    intro x hx
    have hplace : (xs ++ t :: ys).idxOf x < xs.length := by
      rw [List.idxOf_append_of_mem hx]
      exact List.idxOf_lt_length_of_mem hx
    rcases hbetter x (List.mem_append_left _ hx) (fun heq => hnew (heq ▸ hx)) with hlt | ⟨-, hlt⟩
    · exact hlt
    · omega
  have hys : ∀ y ∈ ys ++ [ThreadRef.idle c], h.cnt y ≤ h.cnt t := by
    intro y hy
    rcases List.mem_append.mp hy with hy | hy
    · by_cases heq : y = t
      · rw [heq]
      · rcases hbetter y (by simp [hy]) heq with hlt | ⟨heq, -⟩
        · exact hlt.le
        · exact heq.le
    · rw [List.mem_singleton.mp hy, hidle]
      exact hpos
  rw [schedFind, ht.head, Ring.doWhile_round (fun _ => h.next) (schedFindBody h)
    (fun _ _ _ => rfl) ht.ring hrounds, List.append_assoc, List.cons_append,
    foldl_schedFindBody_first hrun (by simp only; omega) hxs hys]
  rfl

/-- Among threads without quantum the first one leads. -/
theorem exists_leads_zero (hne : others ≠ []) {cnt : ThreadRef → ℤ}
    (hzero : ∀ x ∈ others, cnt x = 0) : ∃ t, Leads cnt others t := by
  cases others with
  | nil => exact absurd rfl hne
  | cons t rest =>
    refine ⟨t, List.mem_cons_self, fun x hx hxt => .inr ⟨?_, ?_⟩⟩
    · rw [hzero x hx, hzero t List.mem_cons_self]
    · rw [List.idxOf_cons_self, List.idxOf_cons_ne _ (Ne.symm hxt)]
      omega

/-- `sched_next` picks the thread that leads, if it has a quantum left. -/
theorem schedPick_eq (ht : Ticking h₀ c others cpu h) (hrounds : others.length < rounds)
    (hleads : Leads h.cnt others t) (hpos : 0 < h.cnt t) (hidle : h.cnt (.idle c) = 0) :
    schedPick rounds cpu h = some (t, h) := by
  rw [schedPick, ht.schedFind_eq hrounds hleads hpos.le hidle, Option.bind_some,
    if_neg (by omega)]

/-- When all quanta are used up, `sched_next` refills them and picks the thread that leads. -/
theorem schedPick_refill (ht : Ticking h₀ c others cpu h) (hrounds : others.length < rounds)
    (hleads : Leads h₀.pri others t) (hzero : ∀ x ∈ .idle c :: others, h.cnt x = 0) :
    schedPick rounds cpu h =
      some (t, { h with cnt := fun x => if x ∈ others then h₀.pri x else h.cnt x }) := by
  have hne : others ≠ [] := List.ne_nil_of_mem hleads.1
  have hidle := hzero _ List.mem_cons_self
  have hzero' : ∀ x ∈ others, h.cnt x = 0 := fun x hx => hzero x (List.mem_cons_of_mem _ hx)
  obtain ⟨first, hfirst⟩ := exists_leads_zero hne hzero'
  have hnodup := (List.nodup_cons.mp ht.circular.nodup).2
  have hrefill : forUntil Threads.next refillBody cpu.threads rounds h (h.next cpu.threads) =
      some { h with cnt := fun x => if x ∈ others then h₀.pri x else h.cnt x } := by
    rw [ht.head, Ring.forUntil_rest Threads.next refillBody (fun _ _ _ => rfl) ht.ring hrounds,
      foldl_refillBody hnodup, ht.pri]
    congr 2
    funext x
    split_ifs with hx
    · rw [hzero' x hx]
      simp
    · rfl
  have ht' := ht.set cpu rfl h.ticks fun x => if x ∈ others then h₀.pri x else h.cnt x
  have hleads' : Leads (fun x => if x ∈ others then h₀.pri x else h.cnt x) others t :=
    hleads.congr fun x hx => if_pos hx
  have hfind := ht'.schedFind_eq hrounds hleads'
    (by simp only [if_pos hleads.1]; exact (ht.pri_pos t hleads.1).le)
    (by simp only [if_neg ht.idle_notMem]; exact hidle)
  rw [schedPick, ht.schedFind_eq hrounds hfirst (hzero' _ hfirst.1).ge hidle, Option.bind_some,
    if_pos (hzero' _ hfirst.1), hrefill, Option.bind_some]
  exact congrArg (Option.map _) hfind

/-- A tick while the current thread has more than one tick left. -/
theorem tick_stay (ht : Ticking h₀ c others cpu h) (hrounds : others.length < rounds)
    (hleft : 1 < h.cnt cpu.curThread) :
    ∃ h', schedTick rounds cpu h = some (cpu, h') ∧ Ticking h₀ c others cpu h' ∧
      h'.cnt = Function.update h.cnt cpu.curThread (h.cnt cpu.curThread - 1) := by
  rw [schedTick, tickBegin, ht.schedCheckSleeping_eq hrounds, Option.map_some, Option.bind_some]
  simp only [Function.update_self]
  rw [if_pos (by omega)]
  exact ⟨_, rfl, ht.set cpu rfl _ _, rfl⟩

/-- A tick that uses up the quantum of the current thread ends in `sched_next`. -/
theorem tick_switch (ht : Ticking h₀ c others cpu h) (hrounds : others.length < rounds)
    (hleft : h.cnt cpu.curThread ≤ 1) (cnt : ThreadRef → ℤ)
    (hpick : ∀ ticks, schedPick rounds cpu
        { h with ticks := ticks, cnt := Function.update h.cnt cpu.curThread 0 } =
      some (t, { h with ticks := ticks, cnt := cnt })) :
    ∃ h', schedTick rounds cpu h = some ({ cpu with curThread := t }, h') ∧
      Ticking h₀ c others { cpu with curThread := t } h' ∧ h'.cnt = cnt := by
  rw [schedTick, tickBegin, ht.schedCheckSleeping_eq hrounds, Option.map_some, Option.bind_some]
  simp only [Function.update_self]
  rw [if_neg (by omega), schedNext, endQuantum]
  simp only [Function.update_idem]
  rw [hpick, Option.map_some]
  obtain ⟨ticks, hswitch⟩ := switchTo_eq cpu t
    { h with ticks := Function.update h.ticks cpu.curThread (u64 (h.ticks cpu.curThread + 1)),
             cnt := cnt }
  rw [hswitch]
  exact ⟨_, rfl, ht.set { cpu with curThread := t } rfl _ _, rfl⟩

end Ticking

/-- A CPU in the middle of an epoch: the threads of `done` have had their turn, the current thread
`t` has `left` ticks to go, and those of `rest` wait with full quanta. -/
structure InEpoch (h₀ : Threads) (c : ℕ) (others : List ThreadRef) (cpu : Cpu) (h : Threads)
    (done : List ThreadRef) (t : ThreadRef) (left : ℕ) (rest : List ThreadRef) : Prop where
  ticking : Ticking h₀ c others cpu h
  perm : (done ++ t :: rest).Perm others
  sorted : (done ++ t :: rest).Pairwise (Before h₀ others)
  cur : cpu.curThread = t
  left_pos : 0 < left
  cnt_cur : h.cnt t = left
  cnt_done : ∀ x ∈ done, h.cnt x = 0
  cnt_rest : ∀ x ∈ rest, h.cnt x = h₀.pri x
  cnt_idle : h.cnt (.idle c) = 0

section Epochs

variable {h₀ h : Threads} {c rounds left : ℕ} {others done rest order : List ThreadRef} {cpu : Cpu}
  {t u : ThreadRef}

/-- The first thread of the order leads when all quanta are full. -/
theorem leads_first (hperm : (t :: rest).Perm others)
    (hsorted : (t :: rest).Pairwise (Before h₀ others)) : Leads h₀.pri others t := by
  refine ⟨hperm.mem_iff.mp List.mem_cons_self, fun x hx hne => ?_⟩
  have hmem := (List.mem_cons.mp (hperm.mem_iff.mpr hx)).resolve_left hne
  exact (List.pairwise_cons.mp hsorted).1 x hmem

/-- The first thread that waits leads when those before it have no quantum left. -/
theorem leads_next {cnt : ThreadRef → ℤ} (hperm : (done ++ u :: rest).Perm others)
    (hsorted : (done ++ u :: rest).Pairwise (Before h₀ others))
    (hpos : ∀ x ∈ others, 0 < h₀.pri x) (hdone : ∀ x ∈ done, cnt x = 0)
    (hrest : ∀ x ∈ u :: rest, cnt x = h₀.pri x) : Leads cnt others u := by
  have hu := hperm.mem_iff.mp (List.mem_append_right _ List.mem_cons_self)
  refine ⟨hu, fun x hx hne => ?_⟩
  rw [hrest u List.mem_cons_self]
  rcases List.mem_append.mp (hperm.mem_iff.mpr hx) with hmem | hmem
  · left
    rw [hdone x hmem]
    exact hpos u hu
  · have hmem' := (List.mem_cons.mp hmem).resolve_left hne
    rw [hrest x hmem]
    exact (List.pairwise_cons.mp (List.pairwise_append.mp hsorted).2.1).1 x hmem'

/-- An epoch begins with the first thread of the order. -/
theorem Ticking.inEpoch (ht : Ticking h₀ c others cpu h)
    (hperm : (t :: rest).Perm others) (hsorted : (t :: rest).Pairwise (Before h₀ others))
    (hcur : cpu.curThread = t) (hcnt : ∀ x ∈ others, h.cnt x = h₀.pri x)
    (hidle : h.cnt (.idle c) = 0) :
    InEpoch h₀ c others cpu h [] t (h₀.pri t).toNat rest := by
  have hmem := hperm.mem_iff.mp List.mem_cons_self
  have hpos := ht.pri_pos t hmem
  refine ⟨ht, hperm, hsorted, hcur, by omega, ?_, by simp, fun x hx => ?_, hidle⟩
  · rw [hcnt t hmem]
    omega
  · exact hcnt x (hperm.mem_iff.mp (List.mem_cons_of_mem _ hx))

/-- **One tick.** The current thread has one tick less to go; or, when that was its last one, the
next thread of the order starts its turn; or, when that was the last thread, a new epoch
begins. -/
theorem InEpoch.tick (he : InEpoch h₀ c others cpu h done t left rest)
    (hrounds : others.length < rounds) :
    ∃ cpu' h', schedTick rounds cpu h = some (cpu', h') ∧
      ((1 < left ∧ InEpoch h₀ c others cpu' h' done t (left - 1) rest) ∨
        (left = 1 ∧ ∃ u rest', rest = u :: rest' ∧
          InEpoch h₀ c others cpu' h' (done ++ [t]) u (h₀.pri u).toNat rest') ∨
        (left = 1 ∧ rest = [] ∧ ∃ u rest', done ++ [t] = u :: rest' ∧
          InEpoch h₀ c others cpu' h' [] u (h₀.pri u).toNat rest')) := by
  have ht := he.ticking
  have hcur := he.cur
  have hcnt := he.cnt_cur
  have hidle : ThreadRef.idle c ≠ t := by
    rintro rfl
    exact ht.idle_notMem (he.perm.mem_iff.mp (by simp))
  have hnodup : (done ++ t :: rest).Nodup :=
    he.perm.nodup_iff.mpr (List.nodup_cons.mp ht.circular.nodup).2
  have hdone : ∀ x ∈ done, x ≠ t := by
    rintro x hx rfl
    exact (List.nodup_append.mp hnodup).2.2 x hx x List.mem_cons_self rfl
  have hrest : ∀ x ∈ rest, x ≠ t := by
    rintro x hx rfl
    exact (List.nodup_cons.mp (List.nodup_append.mp hnodup).2.1).1 hx
  by_cases hlast : 1 < left
  · obtain ⟨h', hstep, ht', hcnt'⟩ := ht.tick_stay hrounds (by rw [hcur, hcnt]; omega)
    rw [hcur] at hcnt'
    refine ⟨cpu, h', hstep, .inl ⟨hlast, ht', he.perm, he.sorted, hcur, by omega, ?_, ?_, ?_, ?_⟩⟩
    · rw [hcnt', Function.update_self, hcnt]
      omega
    · intro x hx
      rw [hcnt', Function.update_of_ne (hdone x hx)]
      exact he.cnt_done x hx
    · intro x hx
      rw [hcnt', Function.update_of_ne (hrest x hx)]
      exact he.cnt_rest x hx
    · rw [hcnt', Function.update_of_ne hidle]
      exact he.cnt_idle
  have hone : left = 1 := by
    have := he.left_pos
    omega
  have hspent : h.cnt cpu.curThread ≤ 1 := by
    rw [hcur, hcnt]
    omega
  -- what the quanta are when `sched_next` is called
  have hdone' : ∀ x ∈ done ++ [t], Function.update h.cnt cpu.curThread 0 x = 0 := by
    intro x hx
    rw [hcur]
    rcases List.mem_append.mp hx with hx | hx
    · rw [Function.update_of_ne (hdone x hx)]
      exact he.cnt_done x hx
    · rw [List.mem_singleton.mp hx, Function.update_self]
  have hrest' : ∀ x ∈ rest, Function.update h.cnt cpu.curThread 0 x = h₀.pri x := by
    intro x hx
    rw [hcur, Function.update_of_ne (hrest x hx)]
    exact he.cnt_rest x hx
  have hidle' : Function.update h.cnt cpu.curThread 0 (.idle c) = 0 := by
    rw [hcur, Function.update_of_ne hidle]
    exact he.cnt_idle
  cases rest with
  | cons u rest' =>
    have hlist : done ++ t :: u :: rest' = done ++ [t] ++ u :: rest' := by simp
    have hperm : (done ++ [t] ++ u :: rest').Perm others := hlist ▸ he.perm
    have hsorted : (done ++ [t] ++ u :: rest').Pairwise (Before h₀ others) := hlist ▸ he.sorted
    have hu := hperm.mem_iff.mp (List.mem_append_right _ List.mem_cons_self)
    have hpos := ht.pri_pos u hu
    have hfull := hrest' u List.mem_cons_self
    have hquantum : 0 < Function.update h.cnt cpu.curThread 0 u := by
      rw [hfull]
      exact hpos
    obtain ⟨h', hstep, ht', hcnt'⟩ := ht.tick_switch (t := u) hrounds hspent _ fun ticks =>
      (ht.set cpu rfl ticks (Function.update h.cnt cpu.curThread 0)).schedPick_eq hrounds
        (leads_next hperm hsorted ht.pri_pos hdone' hrest') hquantum hidle'
    refine ⟨_, h', hstep, .inr (.inl ⟨hone, u, rest', rfl, ht', hperm, hsorted, rfl, by omega, ?_,
      ?_, ?_, ?_⟩)⟩
    · rw [hcnt', hfull]
      omega
    · rw [hcnt']
      exact hdone'
    · rw [hcnt']
      exact fun x hx => hrest' x (List.mem_cons_of_mem _ hx)
    · rw [hcnt', hidle']
  | nil =>
    obtain ⟨u, rest', hlist⟩ : ∃ u rest', done ++ [t] = u :: rest' := by
      cases done with
      | nil => exact ⟨t, [], rfl⟩
      | cons u rest' => exact ⟨u, rest' ++ [t], rfl⟩
    have hperm : (u :: rest').Perm others := hlist ▸ he.perm
    have hsorted : (u :: rest').Pairwise (Before h₀ others) := hlist ▸ he.sorted
    have hzero : ∀ x ∈ .idle c :: others, Function.update h.cnt cpu.curThread 0 x = 0 := by
      intro x hx
      rcases List.mem_cons.mp hx with rfl | hx
      · exact hidle'
      · exact hdone' x (hlist ▸ hperm.mem_iff.mpr hx)
    obtain ⟨h', hstep, ht', hcnt'⟩ := ht.tick_switch (t := u) hrounds hspent
      (fun x => if x ∈ others then h₀.pri x else Function.update h.cnt cpu.curThread 0 x)
      fun ticks => (ht.set cpu rfl ticks (Function.update h.cnt cpu.curThread 0)).schedPick_refill
        hrounds (leads_first hperm hsorted) hzero
    refine ⟨_, h', hstep, .inr (.inr ⟨hone, rfl, u, rest', hlist, ?_⟩)⟩
    apply ht'.inEpoch hperm hsorted rfl
    · intro x hx
      simp only [hcnt', if_pos hx]
    · simp only [hcnt', if_neg ht.idle_notMem]
      exact hidle'

/-- A state in which the turns of the list `left` of the epoch are still to come. -/
def AtTurn (h₀ : Threads) (c : ℕ) (others order : List ThreadRef) (s : Cpu × Threads)
    (left : List ThreadRef) : Prop :=
  ∃ done t n rest, done ++ t :: rest = order ∧ InEpoch h₀ c others s.1 s.2 done t n rest ∧
    left = List.replicate n t ++ turns h₀ rest

/-- The current thread is the first of the turns that are left. -/
theorem AtTurn.head {s : Cpu × Threads} {turn : List ThreadRef}
    (ha : AtTurn h₀ c others order s turn) : turn.head? = some s.1.curThread := by
  obtain ⟨done, t, n, rest, -, he, rfl⟩ := ha
  have hpos := he.left_pos
  rw [he.cur, List.head?_append_of_ne_nil _ (by simp; omega), List.head?_replicate,
    if_neg (by omega)]

/-- A tick takes one turn off the list, which starts again when it is empty. -/
theorem AtTurn.tick {s : Cpu × Threads} {turn : List ThreadRef}
    (ha : AtTurn h₀ c others order s turn) (hrounds : others.length < rounds) :
    ∃ s', schedTick rounds s.1 s.2 = some s' ∧ AtTurn h₀ c others order s'
      (if turn.tail = [] then turns h₀ order else turn.tail) := by
  obtain ⟨done, t, n, rest, hlist, he, rfl⟩ := ha
  have hpos := he.left_pos
  obtain ⟨m, rfl⟩ : ∃ m, n = m + 1 := ⟨n - 1, by omega⟩
  have htail : (List.replicate (m + 1) t ++ turns h₀ rest).tail =
      List.replicate m t ++ turns h₀ rest := rfl
  rw [htail]
  obtain ⟨cpu', h', hstep, hcases⟩ := he.tick hrounds
  refine ⟨(cpu', h'), hstep, ?_⟩
  rcases hcases with ⟨hmore, he'⟩ | ⟨hone, u, rest', rfl, he'⟩ | ⟨hone, rfl, u, rest', hfirst, he'⟩
  · obtain ⟨k, rfl⟩ : ∃ k, m = k + 1 := ⟨m - 1, by omega⟩
    rw [if_neg (by simp [List.replicate_succ])]
    exact ⟨done, t, k + 1, rest, hlist, he', rfl⟩
  · obtain rfl : m = 0 := by omega
    have hfull := he'.left_pos
    have hne : turns h₀ (u :: rest') ≠ [] := by
      rw [turns, List.flatMap_cons, ne_eq, List.append_eq_nil_iff, List.replicate_eq_nil_iff]
      omega
    rw [List.replicate_zero, List.nil_append, if_neg hne]
    exact ⟨done ++ [t], u, _, rest', by rw [← hlist]; simp, he', rfl⟩
  · obtain rfl : m = 0 := by omega
    rw [if_pos (show List.replicate 0 t ++ turns h₀ [] = [] from rfl)]
    refine ⟨[], u, _, rest', by rw [← hlist, hfirst]; rfl, he', ?_⟩
    rw [← hlist, hfirst]
    rfl

/-- The turns of a whole epoch are taken again and again. -/
theorem AtTurn.ticks {s : Cpu × Threads} (ha : AtTurn h₀ c others order s (turns h₀ order))
    (hrounds : others.length < rounds) (k : ℕ) :
    ∃ s', schedTicks rounds k s = some s' ∧
      AtTurn h₀ c others order s' ((turns h₀ order).drop (k % (turns h₀ order).length)) := by
  have hne : turns h₀ order ≠ [] := by
    intro hnil
    have hhead := ha.head
    simp [hnil] at hhead
  have hlen := List.length_pos_of_ne_nil hne
  induction k with
  | zero =>
    rw [Nat.zero_mod, List.drop_zero]
    exact ⟨s, rfl, ha⟩
  | succ k ih =>
    obtain ⟨s', hticks, ha'⟩ := ih
    obtain ⟨s'', htick, ha''⟩ := ha'.tick hrounds
    refine ⟨s'', by rw [schedTicks, hticks, Option.bind_some, htick], ?_⟩
    have hlt := Nat.mod_lt k hlen
    simp only [List.tail_drop, List.drop_eq_nil_iff] at ha''
    have hnext : (k + 1) % (turns h₀ order).length =
        (k % (turns h₀ order).length + 1) % (turns h₀ order).length := (Nat.mod_add_mod _ _ _).symm
    by_cases hend : k % (turns h₀ order).length + 1 = (turns h₀ order).length
    · rw [hnext, hend, Nat.mod_self, List.drop_zero]
      rwa [if_pos (by omega)] at ha''
    · rw [hnext, Nat.mod_eq_of_lt (by omega)]
      rwa [if_neg (by omega)] at ha''

/-- An order of turns: by priority, and in ring order among equals. -/
theorem exists_order (h : Threads) {others : List ThreadRef} (hnodup : others.Nodup) :
    ∃ order : List ThreadRef, order.Perm others ∧ order.Pairwise (Before h others) := by
  let le : ThreadRef → ThreadRef → Bool := fun a b =>
    decide (h.pri b < h.pri a ∨ h.pri b = h.pri a ∧ others.idxOf a ≤ others.idxOf b)
  have hperm := List.mergeSort_perm others le
  have hsorted : (others.mergeSort le).Pairwise fun a b => le a b = true := by
    apply List.pairwise_mergeSort
    · intro a b d hab hbd
      simp only [le, decide_eq_true_eq] at hab hbd ⊢
      omega
    · intro a b
      simp only [le, Bool.or_eq_true, decide_eq_true_eq]
      omega
  refine ⟨others.mergeSort le, hperm, ?_⟩
  have hboth := hsorted.and (hperm.nodup_iff.mpr hnodup)
  refine hboth.imp_of_mem fun {a b} ha _ hab => ?_
  obtain ⟨hle, hne⟩ := hab
  have hplace : others.idxOf a ≠ others.idxOf b := fun heq =>
    hne ((List.idxOf_inj (hperm.mem_iff.mp ha)).mp heq)
  simp only [le, decide_eq_true_eq] at hle
  unfold Before
  omega

/-- Ticks in two parts. -/
theorem schedTicks_add (m k : ℕ) (s : Cpu × Threads) :
    schedTicks rounds (m + k) s = (schedTicks rounds m s).bind (schedTicks rounds k) := by
  induction k with
  | zero =>
    rw [Nat.add_zero]
    exact (Option.bind_fun_some _).symm
  | succ k ih =>
    rw [← Nat.add_assoc, schedTicks, ih, Option.bind_assoc]
    rfl

/-- While the idle thread has ticks left, it stays the current thread. -/
theorem Ticking.idle_ticks (ht : Ticking h₀ c others cpu h) (hrounds : others.length < rounds)
    (hcur : cpu.curThread = .idle c) {k : ℕ} (hk : k < max 1 (h.cnt (.idle c)).toNat) :
    ∃ h', schedTicks rounds k (cpu, h) = some (cpu, h') ∧ Ticking h₀ c others cpu h' ∧
      h'.cnt = Function.update h.cnt (.idle c) (h.cnt (.idle c) - k) := by
  induction k with
  | zero => exact ⟨h, rfl, ht, by simp⟩
  | succ k ih =>
    obtain ⟨h', hticks, ht', hcnt⟩ := ih (by omega)
    have hleft : h'.cnt cpu.curThread = h.cnt (.idle c) - k := by
      rw [hcnt, hcur, Function.update_self]
    obtain ⟨h'', htick, ht'', hcnt''⟩ := ht'.tick_stay hrounds (by omega)
    refine ⟨h'', by rw [schedTicks, hticks, Option.bind_some, htick], ht'', ?_⟩
    rw [hcnt'', hleft, hcur, hcnt, Function.update_idem]
    congr 1
    omega

/-- The tick that spends the quantum of the idle thread starts the first epoch. -/
theorem Ticking.first_epoch (ht : Ticking h₀ c others cpu h) (hrounds : others.length < rounds)
    (hcur : cpu.curThread = .idle c) (hleft : h.cnt (.idle c) ≤ 1)
    (hcnt : ∀ t ∈ others, h.cnt t = h₀.pri t) (hne : others ≠ []) (hperm : order.Perm others)
    (hsorted : order.Pairwise (Before h₀ others)) :
    ∃ s, schedTick rounds cpu h = some s ∧ AtTurn h₀ c others order s (turns h₀ order) := by
  cases order with
  | nil => exact absurd hperm.symm.eq_nil hne
  | cons u rest =>
    have hu := hperm.mem_iff.mp List.mem_cons_self
    have hfull : ∀ x ∈ others, Function.update h.cnt cpu.curThread 0 x = h₀.pri x := by
      intro x hx
      rw [hcur, Function.update_of_ne (ht.ne_idle hx)]
      exact hcnt x hx
    have hquantum : 0 < Function.update h.cnt cpu.curThread 0 u := by
      rw [hfull u hu]
      exact ht.pri_pos u hu
    have hidle : Function.update h.cnt cpu.curThread 0 (.idle c) = 0 := by
      rw [hcur, Function.update_self]
    have hleads : Leads (Function.update h.cnt cpu.curThread 0) others u :=
      (leads_first hperm hsorted).congr hfull
    obtain ⟨h', hstep, ht', hcnt'⟩ := ht.tick_switch (t := u) hrounds (hcur ▸ hleft) _ fun ticks =>
      (ht.set cpu rfl ticks (Function.update h.cnt cpu.curThread 0)).schedPick_eq hrounds hleads
        hquantum hidle
    refine ⟨_, hstep, [], u, _, rest, rfl, ht'.inEpoch hperm hsorted rfl ?_ ?_, rfl⟩
    · rw [hcnt']
      exact hfull
    · rw [hcnt', hidle]

end Epochs

/-- **Fair turns.** When the other threads of a CPU never sleep, the idle thread is current until
its quantum is spent, and from then on the current threads of the ticks are the turns of one
epoch, again and again: every thread once, for as many ticks as its priority, in the order
of the priorities and of the ring. -/
theorem schedTicks_epochs {h : Threads} {c rounds : ℕ} {cpu : Cpu} {others : List ThreadRef}
    (hring : Ring h.next h.prev (.idle c) (.idle c :: others)) (hhead : cpu.threads = .idle c)
    (hcur : cpu.curThread = .idle c) (hne : others ≠ [])
    (hrun : ∀ t ∈ .idle c :: others, h.state t = .running) (hpri : ∀ t ∈ others, 0 < h.pri t)
    (hcnt : ∀ t ∈ others, h.cnt t = h.pri t) (hrounds : others.length < rounds) :
    ∃ order, order.Perm others ∧ order.Pairwise (Before h others) ∧
      ∀ k, ∃ s, schedTicks rounds k (cpu, h) = some s ∧
        (k < max 1 (h.cnt (.idle c)).toNat → s.1.curThread = .idle c) ∧
        (max 1 (h.cnt (.idle c)).toNat ≤ k →
          (turns h order)[(k - max 1 (h.cnt (.idle c)).toNat) % (turns h order).length]? =
            some s.1.curThread) := by
  have ht : Ticking h c others cpu h := ⟨hhead, hring, hrun, hpri, rfl, rfl, rfl, rfl⟩
  obtain ⟨order, hperm, hsorted⟩ := exists_order h (List.nodup_cons.mp hring.nodup).2
  refine ⟨order, hperm, hsorted, fun k => ?_⟩
  by_cases hk : k < max 1 (h.cnt (.idle c)).toNat
  · obtain ⟨h', hticks, -, -⟩ := ht.idle_ticks hrounds hcur hk
    exact ⟨_, hticks, fun _ => hcur, fun hle => absurd hk (by omega)⟩
  · obtain ⟨first, hfirst⟩ : ∃ n, max 1 (h.cnt (.idle c)).toNat = n + 1 :=
      ⟨max 1 (h.cnt (.idle c)).toNat - 1, by omega⟩
    obtain ⟨h₁, hticks, ht₁, hcnt₁⟩ := ht.idle_ticks hrounds hcur (k := first) (by omega)
    have hlast : h₁.cnt (.idle c) ≤ 1 := by
      rw [hcnt₁, Function.update_self]
      omega
    have hfull : ∀ t ∈ others, h₁.cnt t = h.pri t := by
      intro t hmem
      rw [hcnt₁, Function.update_of_ne (ht.ne_idle hmem)]
      exact hcnt t hmem
    obtain ⟨s, hstep, hturn⟩ := ht₁.first_epoch hrounds hcur hlast hfull hne hperm hsorted
    obtain ⟨s', hticks', hturn'⟩ := hturn.ticks hrounds (k - (first + 1))
    refine ⟨s', ?_, fun hlt => absurd hlt hk, fun _ => ?_⟩
    · rw [show k = first + 1 + (k - (first + 1)) by omega, schedTicks_add, schedTicks, hticks,
        Option.bind_some, hstep, Option.bind_some, ← hticks']
    · rw [hfirst, ← List.head?_drop]
      exact hturn'.head

/-- The idle thread of CPU 0 and two other threads, of priorities 1 and 2. -/
def pairThreads : Threads where
  next
    | .idle _ => .alloc 1
    | .alloc 1 => .alloc 2
    | _ => .idle 0
  prev
    | .idle _ => .alloc 2
    | .alloc 2 => .alloc 1
    | _ => .idle 0
  nextWait _ := .null
  ticks _ := 0
  id _ := 0
  cpuId _ := 0
  state _ := .running
  sleepTime _ := 0
  sleepTimer _ := false
  pri
    | .alloc n => n
    | _ => threadDefaultPri
  cnt
    | .alloc n => n
    | _ => threadDefaultPri

/-- Two threads take turns of 2 and of 1 ticks once the idle thread has had its 8 ticks. -/
theorem schedTicks_epochs_pair :
    ∃ order, order.Perm [.alloc 1, .alloc 2] ∧
      order.Pairwise (Before pairThreads [.alloc 1, .alloc 2]) ∧
      ∀ k, ∃ s, schedTicks 3 k (⟨.idle 0, .idle 0, 2⟩, pairThreads) = some s ∧
        (k < 8 → s.1.curThread = .idle 0) ∧
        (8 ≤ k → (turns pairThreads order)[(k - 8) % (turns pairThreads order).length]? =
          some s.1.curThread) := by
  have hring : Ring pairThreads.next pairThreads.prev (.idle 0)
      [.idle 0, .alloc 1, .alloc 2] :=
    ⟨.cons (.cons (.cons (.nil _))), by simp, by decide, by decide⟩
  exact schedTicks_epochs (c := 0) hring rfl rfl (by simp) (by decide) (by decide) (by decide)
    (by decide)

end Smor.Sched
