import Smor.Sched.Startup
import Mathlib.Data.Finset.Filter

/-!
# The wait for the other CPUs

`cpu_smp_init` waits for `num_cpus`, but a CPU counts itself before it has set up its descriptor
and its ring. `SmpOk` is the invariant of the runs in which the boot CPU does not leave its loop
while some CPU is in between. In these runs `thread_create` always finds the idle thread
at the head of a ring.
-/

namespace Smor.Sched

open Smor.Lib

/-- The CPU has counted itself. -/
def ApPc.counted : ApPc → Bool
  | .off | .count => false
  | _ => true

/-- The idle thread is on the ring of the CPU. -/
def ApPc.linked : ApPc → Bool
  | .cur | .intr | .idleLoop => true
  | _ => false

/-- The boot CPU has left its loop. -/
def BootPc.left : BootPc → Bool
  | .running | .create _ _ _ => true
  | _ => false

/-- The descriptor has been set up by `cpu_init_desc`. -/
def Desc.Named (d : Desc) (c : ℕ) : Prop := d.self = some c ∧ d.apicId = c

/-- The ring of a CPU: the idle thread, then the threads created for it. -/
def Smp.ring (s : Smp) (c : ℕ) : List ThreadRef := .idle c :: (s.created c).map .alloc

/-- What holds once the boot CPU has left its loop: every application CPU has set up its
descriptor, the idle threads are the heads of the rings, and between the calls of
`thread_create` each ring is the idle thread and the created threads behind it. -/
structure Handshake (la : LocalApic) (s : Smp) : Prop where
  named : ∀ c ∈ la.others, (s.descs c).Named c
  head : ∀ c ∈ la.cpus, (s.descs c).cpu.threads = .idle c
  circular : s.boot = .running →
    ∀ c ∈ la.cpus, Ring s.mem.next s.mem.prev (.idle c) (s.ring c)

/-- The boot CPU does not leave its loop while some CPU that has counted itself is not yet
through with `queue_push_back` in `sched_init_cpu`. -/
def Settled (la : LocalApic) (s : Smp) : Turn → Prop
  | .boot => s.boot = .loop → s.numCpus = la.cpus.length →
      ∀ c ∈ la.others, (s.ap c).counted = true → (s.ap c).linked = true
  | _ => True

instance (la : LocalApic) (s : Smp) (turn : Turn) : Decidable (Settled la s turn) :=
  match turn with
  | .boot => inferInstanceAs (Decidable (_ → _ → _))
  | .ap _ | .create _ _ => inferInstanceAs (Decidable True)

/-- What an application CPU has done so far. -/
def ApFacts (c : ℕ) (d : Desc) (h : Threads) : ApPc → Prop
  | .off | .count | .tables | .self => d.cpu.threads = .null
  | .apicId => d.self = some c ∧ d.cpu.threads = .null
  | .flags | .idle | .push .test | .push .head => d.Named c ∧ d.cpu.threads = .null
  | .push .selfPrev => d.Named c ∧ d.cpu.threads = .idle c
  | .push .selfNext => d.Named c ∧ d.cpu.threads = .idle c ∧ h.prev (.idle c) = .idle c
  | .push .next | .push .prev | .push .last | .push .headPrev => False
  | .cur | .intr | .idleLoop => d.Named c ∧ d.cpu.threads = .idle c

/-- The links in the middle of a push behind a head that exists. -/
def pushed (base : Threads) (head elem : ThreadRef) : PushPc → Threads
  | .prev => { base with next := Function.update base.next elem head }
  | .last => { base with
      next := Function.update base.next elem head
      prev := Function.update base.prev elem (base.prev head) }
  | .headPrev => { base with
      next := Function.update (Function.update base.next elem head) (base.prev head) elem
      prev := Function.update base.prev elem (base.prev head) }
  | _ => base

/-- The accesses of a push behind a head that exists. -/
def PushPc.behind : PushPc → Bool
  | .test | .next | .prev | .last | .headPrev => true
  | _ => false

/-- The links are those of `base`, or what a call of `thread_create` has made of them so far. -/
def Smp.From (s : Smp) (base : Threads) : Prop :=
  match s.boot with
  | .create (.push pc) c n => pc.behind = true ∧ s.mem = pushed base (.idle c) (.alloc n) pc
  | _ => s.mem = base

/-- The call of `thread_create` in progress is for a CPU that exists, with a new thread. -/
def Smp.CallOk (la : LocalApic) (s : Smp) : Prop :=
  match s.boot with
  | .create .unlock c _ => c ∈ la.cpus
  | .create _ c n => c ∈ la.cpus ∧ ∀ c' ∈ la.cpus, n ∉ s.created c'
  | _ => True

/-- The invariant. -/
structure SmpOk (la : LocalApic) (s : Smp) : Prop where
  outside : ∀ c, c ∉ la.others → s.ap c = .off
  bsp : (s.descs la.bsp).cpu.threads = .idle la.bsp
  facts : ∀ c ∈ la.others, ApFacts c (s.descs c) s.mem (s.ap c)
  unset : s.boot = .setCount → ∀ c, s.ap c = .off
  count : s.boot ≠ .setCount →
    s.numCpus = 1 + (la.others.filter fun c => (s.ap c).counted = true).card
  left : s.boot.left = true → ∀ c ∈ la.others, (s.ap c).linked = true
  waiting : s.boot.left = false → ∀ c, s.created c = []
  apart : ∀ c ∈ la.cpus, ∀ c' ∈ la.cpus, ∀ n, n ∈ s.created c → n ∈ s.created c' → c = c'
  call : s.CallOk la
  rings : ∃ base, s.From base ∧ ∀ c ∈ la.cpus, c = la.bsp ∨ (s.ap c).linked = true →
    Ring base.next base.prev (.idle c) (s.ring c)

section Turns

variable {la : LocalApic} {s : Smp} {c n : ℕ}

theorem LocalApic.mem_others {c : ℕ} : c ∈ la.others ↔ c ≠ la.bsp ∧ c ∈ la.cpus := by
  rw [LocalApic.others, Finset.mem_erase, List.mem_toFinset]

theorem LocalApic.card_others (la : LocalApic) : la.others.card + 1 = la.cpus.length := by
  rw [LocalApic.others, Finset.card_erase_add_one (List.mem_toFinset.mpr la.bsp_mem),
    List.toFinset_card_of_nodup la.nodup]

/-- A push behind a head that exists, access by access. -/
theorem pushStep_pushed (base : Threads) {head : ThreadRef} (elem : ThreadRef) {pc : PushPc}
    (hpc : pc.behind = true) (hhead : head ≠ .null) :
    let r := pushStep head elem (pushed base head elem pc) pc
    r.1 = head ∧
      ((∃ pc', r.2.2 = some pc' ∧ pc'.behind = true ∧ r.2.1 = pushed base head elem pc') ∨
        r.2.2 = none ∧ r.2.1 = (queuePushBack base head elem).2) := by
  cases pc with
  | head | selfPrev | selfNext => simp [PushPc.behind] at hpc
  | test => exact ⟨rfl, Or.inl ⟨.next, by simp [pushStep, hhead], rfl, rfl⟩⟩
  | next => exact ⟨rfl, Or.inl ⟨.prev, rfl, rfl, rfl⟩⟩
  | prev => exact ⟨rfl, Or.inl ⟨.last, rfl, rfl, rfl⟩⟩
  | last =>
    refine ⟨rfl, Or.inl ⟨.headPrev, rfl, rfl, ?_⟩⟩
    simp [pushStep, pushed]
  | headPrev =>
    refine ⟨rfl, Or.inr ⟨rfl, ?_⟩⟩
    simp [pushStep, pushed, queuePushBack, hhead]

/-- A turn that counts no CPU. -/
theorem filter_counted_same {pc : ApPc} (hpc : pc.counted = (s.ap c).counted) :
    (la.others.filter fun x => (Function.update s.ap c pc x).counted = true) =
      la.others.filter fun x => (s.ap x).counted = true := by
  apply Finset.filter_congr
  intro x _
  by_cases hx : x = c
  · rw [hx, Function.update_self, hpc]
  · rw [Function.update_of_ne hx]

/-- The turn in which a CPU counts itself. -/
theorem card_filter_counted (hc : c ∈ la.others) {pc : ApPc} (hpc : pc.counted = true)
    (hold : (s.ap c).counted = false) :
    (la.others.filter fun x => (Function.update s.ap c pc x).counted = true).card =
      (la.others.filter fun x => (s.ap x).counted = true).card + 1 := by
  have hinsert : (la.others.filter fun x => (Function.update s.ap c pc x).counted = true) =
      insert c (la.others.filter fun x => (s.ap x).counted = true) := by
    ext x
    rw [Finset.mem_insert, Finset.mem_filter, Finset.mem_filter]
    by_cases hx : x = c
    · rw [hx, Function.update_self]
      exact iff_of_true ⟨hc, hpc⟩ (Or.inl rfl)
    · rw [Function.update_of_ne hx]
      simp [hx]
  rw [hinsert, Finset.card_insert_of_notMem]
  simp [hold]

/-- A CPU that takes turns is an application CPU, and the boot CPU has set `num_cpus`. -/
theorem SmpOk.started (h : SmpOk la s) (hc : s.ap c ≠ .off) :
    c ∈ la.others ∧ s.boot ≠ .setCount :=
  ⟨by_contra fun hnot => hc (h.outside c hnot), fun hboot => hc (h.unset hboot c)⟩

/-- Outside of a push the links are those of the rings. -/
theorem Smp.From.eq_of_not_left {base : Threads} (h : s.From base) (hleft : s.boot.left = false) :
    s.mem = base := by
  unfold Smp.From at h
  cases hboot : s.boot with
  | create pc c n => simp [hboot, BootPc.left] at hleft
  | setCount | ipiStart | loop | running => rwa [hboot] at h

/-- The facts about another CPU. -/
theorem ApFacts.congr {d : Desc} {h h' : Threads} {pc : ApPc} (hfacts : ApFacts c d h pc)
    (hprev : h'.prev (.idle c) = h.prev (.idle c)) : ApFacts c d h' pc := by
  cases pc with
  | push pc =>
    cases pc with
    | selfNext => exact ⟨hfacts.1, hfacts.2.1, hprev.trans hfacts.2.2⟩
    | test | head | selfPrev | next | prev | last | headPrev => exact hfacts
  | off | count | tables | self | apicId | flags | idle | cur | intr | idleLoop => exact hfacts

/-- A turn of a CPU whose idle thread is not on its ring yet. The boot CPU is still in its
loop then, so that nobody else uses the descriptor or the idle thread. -/
theorem SmpOk.ap_setup (h : SmpOk la s) (hc : c ∈ la.others) (hlinked : (s.ap c).linked = false)
    (d : Desc) (mem : Threads) (pc : ApPc) {num : ℕ} (hfacts : ApFacts c d mem pc)
    (hboot : s.boot ≠ .setCount)
    (hnum : num = 1 + (la.others.filter fun x => (Function.update s.ap c pc x).counted = true).card)
    (hnext : ∀ x ≠ .idle c, mem.next x = s.mem.next x)
    (hprev : ∀ x ≠ .idle c, mem.prev x = s.mem.prev x)
    (hself : pc.linked = true → mem.next (.idle c) = .idle c ∧ mem.prev (.idle c) = .idle c) :
    SmpOk la { s with
      numCpus := num
      descs := Function.update s.descs c d
      mem := mem
      ap := Function.update s.ap c pc } := by
  have hbsp : la.bsp ≠ c := fun heq => (LocalApic.mem_others.mp hc).1 heq.symm
  have hleft : s.boot.left = false := by
    by_contra hleft
    have := h.left (by simpa using hleft) c hc
    rw [hlinked] at this
    simp at this
  constructor
  · intro x hx
    have hne : x ≠ c := fun heq => hx (heq ▸ hc)
    exact (Function.update_of_ne hne _ _).trans (h.outside x hx)
  · dsimp only
    rw [Function.update_of_ne hbsp]
    exact h.bsp
  · intro x hx
    dsimp only
    by_cases hne : x = c
    · rw [hne, Function.update_self, Function.update_self]
      exact hfacts
    · rw [Function.update_of_ne hne, Function.update_of_ne hne]
      exact (h.facts x hx).congr (hprev _ (by simpa using hne))
  · intro hset
    exact absurd hset hboot
  · intro _
    exact hnum
  · intro htrue
    dsimp only at htrue
    rw [hleft] at htrue
    simp at htrue
  · exact h.waiting
  · exact h.apart
  · exact h.call
  · obtain ⟨base, hfrom, hrings⟩ := h.rings
    have hbase := hfrom.eq_of_not_left hleft
    refine ⟨mem, ?_, fun x hx hready => ?_⟩
    · unfold Smp.From
      cases hcase : s.boot with
      | create pc c n => simp [hcase, BootPc.left] at hleft
      | setCount | ipiStart | loop | running => trivial
    · have hring : Smp.ring s x = [.idle x] := by simp [Smp.ring, h.waiting hleft x]
      change Ring mem.next mem.prev (.idle x) (Smp.ring s x)
      by_cases hne : x = c
      · subst hne
        rw [hring]
        rcases hready with heq | hready
        · exact absurd heq.symm hbsp
        · dsimp only at hready
          rw [Function.update_self] at hready
          exact Ring.single (hself hready).1 (hself hready).2
      · have hready' : x = la.bsp ∨ (s.ap x).linked = true := by
          dsimp only at hready
          rwa [Function.update_of_ne hne] at hready
        have hold := hrings x hx hready'
        rw [← hbase] at hold
        have hother : ∀ y ∈ Smp.ring s x, y ≠ .idle c := by
          intro y hy
          rw [hring, List.mem_singleton] at hy
          rw [hy]
          simpa using hne
        exact hold.congr (fun y hy => hnext y (hother y hy)) fun y hy => hprev y (hother y hy)

/-- A turn of a CPU whose idle thread is on its ring. -/
theorem SmpOk.ap_finish (h : SmpOk la s) (hc : c ∈ la.others) (hlinked : (s.ap c).linked = true)
    {d : Desc} (pc : ApPc) (hnamed : d.Named c) (hhead : d.cpu.threads = .idle c)
    (hpc : pc.linked = true) (hboot : s.boot ≠ .setCount) :
    SmpOk la { s with
      descs := Function.update s.descs c d
      ap := Function.update s.ap c pc } := by
  have hbsp : la.bsp ≠ c := fun heq => (LocalApic.mem_others.mp hc).1 heq.symm
  have hcounted : ∀ pc : ApPc, pc.linked = true → pc.counted = true := by
    intro pc hpc
    cases pc <;> simp_all [ApPc.linked, ApPc.counted]
  have hready : ∀ x, (Function.update s.ap c pc x).linked = true ↔ (s.ap x).linked = true := by
    intro x
    by_cases hx : x = c
    · rw [hx, Function.update_self]
      exact iff_of_true hpc hlinked
    · rw [Function.update_of_ne hx]
  constructor
  · intro x hx
    have hne : x ≠ c := fun heq => hx (heq ▸ hc)
    exact (Function.update_of_ne hne _ _).trans (h.outside x hx)
  · dsimp only
    rw [Function.update_of_ne hbsp]
    exact h.bsp
  · intro x hx
    dsimp only
    by_cases hne : x = c
    · rw [hne, Function.update_self, Function.update_self]
      cases pc <;> first | exact ⟨hnamed, hhead⟩ | simp [ApPc.linked] at hpc
    · rw [Function.update_of_ne hne, Function.update_of_ne hne]
      exact h.facts x hx
  · intro hset
    exact absurd hset hboot
  · intro hne
    dsimp only
    rw [filter_counted_same ((hcounted pc hpc).trans (hcounted _ hlinked).symm)]
    exact h.count hne
  · intro hleft x hx
    exact (hready x).mpr (h.left hleft x hx)
  · exact h.waiting
  · exact h.apart
  · exact h.call
  · obtain ⟨base, hfrom, hrings⟩ := h.rings
    exact ⟨base, hfrom, fun x hx hx' => hrings x hx (hx'.imp_right (hready x).mp)⟩

/-- A turn of an application CPU. -/
theorem SmpOk.apStep {s' : Smp} (h : SmpOk la s) (hstep : s.apStep c = some s') :
    SmpOk la s' := by
  by_cases hoff : s.ap c = .off
  · simp [Smp.apStep, hoff] at hstep
  obtain ⟨hc, hboot⟩ := h.started hoff
  have hfacts := h.facts c hc
  -- the number of CPUs that have counted themselves stays the same in most turns
  have hsame : ∀ pc : ApPc, pc.counted = (s.ap c).counted → s.numCpus =
      1 + (la.others.filter fun x => (Function.update s.ap c pc x).counted = true).card := by
    intro pc hpc
    rw [filter_counted_same hpc]
    exact h.count hboot
  unfold Smp.apStep at hstep
  cases hap : s.ap c with
  | off => exact absurd hap hoff
  | idleLoop => simp [hap] at hstep
  | count =>
    simp only [hap, Option.some.injEq] at hstep hfacts
    subst hstep
    have hcard : (la.others.filter fun x => (s.ap x).counted = true).card + 1 ≤ 16 := by
      have := Finset.card_filter_le la.others fun x => (s.ap x).counted = true
      have := la.card_others
      have := la.length_le
      omega
    have hnum : u32 (s.numCpus + 1) = 1 +
        (la.others.filter fun x => (Function.update s.ap c .tables x).counted = true).card := by
      rw [card_filter_counted hc rfl (by rw [hap]; rfl), h.count hboot]
      unfold u32
      omega
    have := h.ap_setup hc (by rw [hap]; rfl) (s.descs c) s.mem .tables hfacts hboot hnum
      (fun _ _ => rfl) (fun _ _ => rfl) (by simp [ApPc.linked])
    rwa [Function.update_eq_self] at this
  | tables =>
    simp only [hap, Option.some.injEq] at hstep hfacts
    subst hstep
    have := h.ap_setup hc (by rw [hap]; rfl) (s.descs c) s.mem .self hfacts hboot
      (hsame _ (by rw [hap]; rfl)) (fun _ _ => rfl) (fun _ _ => rfl)
      (by simp [ApPc.linked])
    rwa [Function.update_eq_self] at this
  | self =>
    simp only [hap, Option.some.injEq] at hstep hfacts
    subst hstep
    exact h.ap_setup hc (by rw [hap]; rfl) _ _ _ ⟨rfl, hfacts⟩ hboot (hsame _ (by rw [hap]; rfl))
      (fun _ _ => rfl) (fun _ _ => rfl) (by simp [ApPc.linked])
  | apicId =>
    simp only [hap, Option.some.injEq] at hstep hfacts
    subst hstep
    exact h.ap_setup hc (by rw [hap]; rfl) _ _ _ ⟨⟨hfacts.1, rfl⟩, hfacts.2⟩ hboot
      (hsame _ (by rw [hap]; rfl)) (fun _ _ => rfl) (fun _ _ => rfl) (by simp [ApPc.linked])
  | flags =>
    simp only [hap, Option.some.injEq] at hstep hfacts
    subst hstep
    exact h.ap_setup hc (by rw [hap]; rfl) _ _ _ hfacts hboot (hsame _ (by rw [hap]; rfl))
      (fun _ _ => rfl) (fun _ _ => rfl) (by simp [ApPc.linked])
  | idle =>
    simp only [hap, Option.some.injEq] at hstep hfacts
    subst hstep
    have := h.ap_setup hc (by rw [hap]; rfl) (s.descs c)
      (initThread s.mem (.idle c) 0 (s.descs c).apicId) (.push .test) hfacts hboot
      (hsame _ (by rw [hap]; rfl)) (fun _ hx => Function.update_of_ne hx _ _)
      (fun _ hx => Function.update_of_ne hx _ _) (by simp [ApPc.linked])
    rwa [Function.update_eq_self] at this
  | push pc =>
    simp only [hap, Option.some.injEq] at hstep hfacts
    subst hstep
    cases pc with
    | next | prev | last | headPrev => exact hfacts.elim
    | test =>
      have hnext : s.pushNext c (.idle c) .test = some .head := by
        simp [Smp.pushNext, pushStep, hfacts.2]
      rw [hnext]
      exact h.ap_setup hc (by rw [hap]; rfl) _ _ (.push .head) hfacts hboot
        (hsame _ (by rw [hap]; rfl)) (fun _ _ => rfl) (fun _ _ => rfl) (by simp [ApPc.linked])
    | head =>
      exact h.ap_setup hc (by rw [hap]; rfl) _ _ (.push .selfPrev) ⟨hfacts.1, rfl⟩ hboot
        (hsame _ (by rw [hap]; rfl)) (fun _ _ => rfl) (fun _ _ => rfl) (by simp [ApPc.linked])
    | selfPrev =>
      obtain ⟨hnamed, hhead⟩ := hfacts
      refine h.ap_setup hc (by rw [hap]; rfl) _ _ (.push .selfNext) ⟨hnamed, hhead, ?_⟩ hboot
        (hsame _ (by rw [hap]; rfl)) (fun _ _ => rfl)
        (fun _ hx => Function.update_of_ne hx _ _) (by simp [ApPc.linked])
      exact (Function.update_self _ _ _).trans hhead
    | selfNext =>
      obtain ⟨hnamed, hhead, hprev⟩ := hfacts
      refine h.ap_setup hc (by rw [hap]; rfl) _ _ .cur ⟨hnamed, hhead⟩ hboot
        (hsame _ (by rw [hap]; rfl)) (fun _ hx => Function.update_of_ne hx _ _)
        (fun _ _ => rfl) fun _ => ⟨?_, hprev⟩
      exact (Function.update_self _ _ _).trans hprev
  | cur =>
    simp only [hap, Option.some.injEq] at hstep hfacts
    subst hstep
    exact h.ap_finish hc (by rw [hap]; rfl) _ hfacts.1 hfacts.2 rfl hboot
  | intr =>
    simp only [hap, Option.some.injEq] at hstep hfacts
    subst hstep
    have := h.ap_finish hc (by rw [hap]; rfl) .idleLoop hfacts.1 hfacts.2 rfl hboot
    rwa [Function.update_eq_self] at this

/-- All CPUs have counted themselves when the boot CPU finds `num_cpus` as it expects. -/
theorem SmpOk.all_counted (h : SmpOk la s) (hboot : s.boot = .loop)
    (hnum : s.numCpus = la.cpus.length) : ∀ c ∈ la.others, (s.ap c).counted = true := by
  have hcount := h.count (by rw [hboot]; simp)
  have hcard := la.card_others
  have hfilter := Finset.card_filter_eq_iff.mp
    (show (la.others.filter fun c => (s.ap c).counted = true).card = la.others.card by omega)
  exact hfilter

/-- A turn of the boot CPU before it has left its loop. -/
theorem SmpOk.boot_waiting (h : SmpOk la s) (hleft : s.boot.left = false) {pc : BootPc}
    (hpc : ∀ q c n, pc ≠ .create q c n) {num : ℕ} {ap : ℕ → ApPc}
    (hap : ∀ c, ap c = s.ap c ∨ c ∈ la.others ∧ s.ap c = .off ∧ ap c = .count)
    (hset : pc ≠ .setCount)
    (hnum : num = 1 + (la.others.filter fun c => (s.ap c).counted = true).card)
    (hready : pc.left = true → ∀ c ∈ la.others, (ap c).linked = true) :
    SmpOk la { s with numCpus := num, ap := ap, boot := pc } := by
  have hcounted : ∀ c, (ap c).counted = (s.ap c).counted := by
    intro c
    rcases hap c with heq | ⟨-, hoff, hcount⟩
    · rw [heq]
    · rw [hoff, hcount]
      rfl
  have hlinked : ∀ c, (ap c).linked = (s.ap c).linked := by
    intro c
    rcases hap c with heq | ⟨-, hoff, hcount⟩
    · rw [heq]
    · rw [hoff, hcount]
      rfl
  constructor
  · intro c hc
    rcases hap c with heq | ⟨hmem, -⟩
    · exact heq.trans (h.outside c hc)
    · exact absurd hmem hc
  · exact h.bsp
  · intro c hc
    have hfacts := h.facts c hc
    dsimp only
    rcases hap c with heq | ⟨-, hoff, hcount⟩
    · rwa [heq]
    · rw [hoff] at hfacts
      rw [hcount]
      exact hfacts
  · intro heq
    exact absurd heq hset
  · intro _
    dsimp only
    simp only [hcounted]
    exact hnum
  · exact hready
  · intro _
    exact h.waiting hleft
  · exact h.apart
  · unfold Smp.CallOk
    cases pc with
    | create q c n => exact absurd rfl (hpc q c n)
    | setCount | ipiStart | loop | running => trivial
  · obtain ⟨base, hfrom, hrings⟩ := h.rings
    refine ⟨base, ?_, fun c hc hlink => hrings c hc ?_⟩
    · have hmem := hfrom.eq_of_not_left hleft
      unfold Smp.From
      cases pc with
      | create q c n => exact absurd rfl (hpc q c n)
      | setCount | ipiStart | loop | running => exact hmem
    · rwa [← hlinked c]

theorem apFacts_linked {d : Desc} {h : Threads} {pc : ApPc} (hpc : pc.linked = true) :
    ApFacts c d h pc ↔ d.Named c ∧ d.cpu.threads = .idle c := by
  cases pc <;> first | rfl | simp [ApPc.linked] at hpc

/-- Once the boot CPU has left its loop, all idle threads are heads of rings. -/
theorem SmpOk.head (h : SmpOk la s) (hleft : s.boot.left = true) (hc : c ∈ la.cpus) :
    (s.descs c).cpu.threads = .idle c := by
  by_cases heq : c = la.bsp
  · rw [heq]
    exact h.bsp
  · have hother := LocalApic.mem_others.mpr ⟨heq, hc⟩
    exact ((apFacts_linked (h.left hleft c hother)).mp (h.facts c hother)).2

theorem SmpOk.ring_of_left (h : SmpOk la s) (hleft : s.boot.left = true) :
    ∃ base, s.From base ∧ ∀ c ∈ la.cpus, Ring base.next base.prev (.idle c) (s.ring c) := by
  obtain ⟨base, hfrom, hrings⟩ := h.rings
  refine ⟨base, hfrom, fun c hc => hrings c hc ?_⟩
  by_cases heq : c = la.bsp
  · exact Or.inl heq
  · exact Or.inr (h.left hleft c (LocalApic.mem_others.mpr ⟨heq, hc⟩))

/-- A turn of the boot CPU in `thread_create`. -/
theorem SmpOk.boot_running (h : SmpOk la s) (hleft : s.boot.left = true) (pc : BootPc)
    (hpc : pc.left = true) (d : Desc) (hself : d.self = (s.descs c).self)
    (hid : d.apicId = (s.descs c).apicId) (hhead : d.cpu.threads = (s.descs c).cpu.threads)
    (mem : Threads) (created : ℕ → List ℕ)
    (hnew : ∀ s' : Smp, s' = { s with
        descs := Function.update s.descs c d
        mem := mem
        boot := pc
        created := created } →
      s'.CallOk la ∧
      (∀ x ∈ la.cpus, ∀ y ∈ la.cpus, ∀ n, n ∈ s'.created x → n ∈ s'.created y → x = y) ∧
      ∃ base, s'.From base ∧ ∀ x ∈ la.cpus, Ring base.next base.prev (.idle x) (s'.ring x)) :
    SmpOk la { s with
      descs := Function.update s.descs c d
      mem := mem
      boot := pc
      created := created } := by
  obtain ⟨hcall, hapart, base, hfrom, hrings⟩ := hnew _ rfl
  have hset : ∀ q : BootPc, q.left = true → q ≠ .setCount := by
    rintro q hq rfl
    simp [BootPc.left] at hq
  have hdesc : ∀ x, (Function.update s.descs c d x).cpu.threads = (s.descs x).cpu.threads ∧
      ((Function.update s.descs c d x).Named x ↔ (s.descs x).Named x) := by
    intro x
    by_cases hx : x = c
    · rw [hx, Function.update_self, Desc.Named, Desc.Named, hself, hid]
      exact ⟨hhead, Iff.rfl⟩
    · rw [Function.update_of_ne hx]
      exact ⟨rfl, Iff.rfl⟩
  refine ⟨h.outside, ?_, ?_, ?_, ?_, ?_, ?_, hapart, hcall, base, hfrom, fun x hx _ => hrings x hx⟩
  · exact (hdesc la.bsp).1.trans h.bsp
  · intro x hx
    have hlinked := h.left hleft x hx
    have hfacts := (apFacts_linked hlinked).mp (h.facts x hx)
    refine (apFacts_linked hlinked).mpr ⟨(hdesc x).2.mpr hfacts.1, ?_⟩
    exact (hdesc x).1.trans hfacts.2
  · intro heq
    exact absurd heq (hset pc hpc)
  · intro _
    exact h.count (hset _ hleft)
  · intro _
    exact h.left hleft
  · intro hfalse
    dsimp only at hfalse
    rw [hpc] at hfalse
    simp at hfalse

/-- The threads of a ring. -/
theorem Smp.mem_ring {t : ThreadRef} :
    t ∈ s.ring c ↔ t = .idle c ∨ ∃ n ∈ s.created c, t = .alloc n := by
  simp [Smp.ring, eq_comm]

/-- A new thread is on no ring. -/
theorem Smp.alloc_notMem_ring (hn : n ∉ s.created c) : ThreadRef.alloc n ∉ s.ring c := by
  rw [Smp.mem_ring]
  rintro (heq | ⟨m, hm, heq⟩)
  · simp at heq
  · rw [ThreadRef.alloc.injEq] at heq
    exact hn (heq ▸ hm)

/-- The rings of two CPUs share no thread. -/
theorem SmpOk.ring_apart (h : SmpOk la s) {x : ℕ} (hc : c ∈ la.cpus) (hx : x ∈ la.cpus)
    (hne : x ≠ c) {t : ThreadRef} (ht : t ∈ s.ring x) : t ∉ s.ring c := by
  rw [Smp.mem_ring] at ht ⊢
  rintro (rfl | ⟨n, hn, rfl⟩)
  · simp [hne.symm] at ht
  · simp only [ThreadRef.alloc.injEq, reduceCtorEq, false_or] at ht
    obtain ⟨m, hm, rfl⟩ := ht
    exact hne (h.apart x hx c hc n hm hn)

/-- The rings after a push behind the idle thread of one CPU. -/
theorem SmpOk.ring_pushBack (h : SmpOk la s) (hc : c ∈ la.cpus)
    (hfresh : ∀ x ∈ la.cpus, n ∉ s.created x) {base : Threads}
    (hrings : ∀ x ∈ la.cpus, Ring base.next base.prev (.idle x) (s.ring x)) :
    ∀ x ∈ la.cpus, Ring (queuePushBack base (.idle c) (.alloc n)).2.next
      (queuePushBack base (.idle c) (.alloc n)).2.prev (.idle x)
      (.idle x :: (Function.update s.created c (s.created c ++ [n]) x).map .alloc) := by
  intro x hx
  simp only [queuePushBack, reduceCtorEq, if_false]
  by_cases hne : x = c
  · subst hne
    have hpush := (hrings x hx).pushBack (Smp.alloc_notMem_ring (hfresh x hx))
    rw [Function.update_self, List.map_append]
    exact hpush
  · rw [Function.update_of_ne hne]
    obtain ⟨init, hlast, -⟩ := (hrings c hc).exists_last
    have hother : ∀ t ∈ s.ring x, t ≠ .alloc n ∧ t ≠ .idle c ∧ t ≠ base.prev (.idle c) := by
      intro t ht
      have hnot := h.ring_apart hc hx hne ht
      refine ⟨?_, ?_, ?_⟩
      · rintro rfl
        exact Smp.alloc_notMem_ring (hfresh x hx) ht
      · rintro rfl
        exact hnot (hrings c hc).head_mem
      · rintro rfl
        exact hnot (by rw [hlast]; simp)
    refine (hrings x hx).congr (fun t ht => ?_) fun t ht => ?_
    · obtain ⟨hnew, -, hend⟩ := hother t ht
      rw [Function.update_of_ne hend, Function.update_of_ne hnew]
    · obtain ⟨hnew, hidle, -⟩ := hother t ht
      rw [Function.update_of_ne hidle, Function.update_of_ne hnew]

/-- A created thread belongs to one CPU. -/
theorem SmpOk.apart_append (h : SmpOk la s) (hfresh : ∀ x ∈ la.cpus, n ∉ s.created x) :
    ∀ x ∈ la.cpus, ∀ y ∈ la.cpus, ∀ m,
      m ∈ Function.update s.created c (s.created c ++ [n]) x →
      m ∈ Function.update s.created c (s.created c ++ [n]) y → x = y := by
  have hcases : ∀ x m, m ∈ Function.update s.created c (s.created c ++ [n]) x →
      m ∈ s.created x ∨ x = c ∧ m = n := by
    intro x m hm
    by_cases hx : x = c
    · subst hx
      rw [Function.update_self, List.mem_append, List.mem_singleton] at hm
      exact hm.imp_right fun heq => ⟨rfl, heq⟩
    · rw [Function.update_of_ne hx] at hm
      exact Or.inl hm
  intro x hx y hy m hmx hmy
  rcases hcases x m hmx with hold | ⟨hxc, hmn⟩
  · rcases hcases y m hmy with hold' | ⟨-, hmn⟩
    · exact h.apart x hx y hy m hold hold'
    · exact absurd hold (hmn ▸ hfresh x hx)
  · rcases hcases y m hmy with hold | ⟨hyc, -⟩
    · exact absurd hold (hmn ▸ hfresh y hy)
    · rw [hxc, hyc]

/-- A turn in `thread_create`. -/
theorem SmpOk.createStep {s' : Smp} {pc : CreatePc} (h : SmpOk la s)
    (hboot : s.boot = .create pc c n) (hstep : s.createStep c n pc = some s') : SmpOk la s' := by
  have hleft : s.boot.left = true := by rw [hboot]; rfl
  obtain ⟨base, hfrom, hrings⟩ := h.ring_of_left hleft
  have hcall := h.call
  unfold Smp.From at hfrom
  unfold Smp.CallOk at hcall
  rw [hboot] at hfrom hcall
  cases pc with
  | init =>
    simp only [Smp.createStep, Option.some.injEq] at hstep
    subst hstep hfrom
    have := h.boot_running (c := c) hleft (.create .lock c n) rfl (s.descs c) rfl rfl rfl
      (initThread s.mem (.alloc n) (s.mem.id (.alloc n)) (s.mem.cpuId (.alloc n))) s.created ?_
    · rwa [Function.update_eq_self] at this
    · rintro _ rfl
      refine ⟨hcall, h.apart, _, rfl, fun x hx => (hrings x hx).congr ?_ ?_⟩
      · rintro t ht
        apply Function.update_of_ne
        rintro rfl
        exact Smp.alloc_notMem_ring (hcall.2 x hx) ht
      · rintro t ht
        apply Function.update_of_ne
        rintro rfl
        exact Smp.alloc_notMem_ring (hcall.2 x hx) ht
  | lock =>
    simp only [Smp.createStep] at hstep
    split_ifs at hstep
    cases hstep
    refine h.boot_running (c := c) hleft _ rfl { s.descs c with lock := true } rfl rfl rfl _ _ ?_
    rintro _ rfl
    exact ⟨hcall, h.apart, base, hfrom, hrings⟩
  | id =>
    simp only [Smp.createStep, Option.some.injEq] at hstep
    subst hstep hfrom
    refine h.boot_running (c := c) hleft _ rfl _ (by rfl) (by rfl) (by rfl) _ _ ?_
    rintro _ rfl
    exact ⟨hcall, h.apart, _, ⟨rfl, rfl⟩, hrings⟩
  | push pc =>
    obtain ⟨hpc, hmem⟩ := hfrom
    have hhead := h.head hleft hcall.1
    obtain ⟨hsame, hnext⟩ := pushStep_pushed base (.alloc n) hpc
      (show ThreadRef.idle c ≠ .null by simp)
    rw [← hmem] at hsame hnext
    have hpush : (s.push c (.alloc n) pc).mem = (pushStep (.idle c) (.alloc n) s.mem pc).2.1 := by
      simp only [Smp.push, hhead]
    simp only [Smp.createStep, Smp.pushNext, hhead] at hstep
    rcases hnext with ⟨pc', hsome, hpc', hmem'⟩ | ⟨hnone, hmem'⟩
    · rw [hsome] at hstep
      cases hstep
      refine h.boot_running (c := c) hleft _ rfl _ (by rfl) (by rfl) ?_ _ _ ?_
      · dsimp only
        rw [hhead, hsame]
      · rintro _ rfl
        exact ⟨hcall, h.apart, base, ⟨hpc', hpush.trans hmem'⟩, hrings⟩
    · rw [hnone] at hstep
      cases hstep
      refine h.boot_running (c := c) hleft _ rfl _ (by rfl) (by rfl) ?_ _ _ ?_
      · dsimp only
        rw [hhead, hsame]
      · rintro _ rfl
        refine ⟨hcall.1, h.apart_append hcall.2, _, hpush.trans hmem', ?_⟩
        exact h.ring_pushBack hcall.1 hcall.2 hrings
  | unlock =>
    simp only [Smp.createStep, Option.some.injEq] at hstep
    subst hstep hfrom
    refine h.boot_running (c := c) hleft _ rfl { s.descs c with lock := false } rfl rfl rfl _ _ ?_
    rintro _ rfl
    exact ⟨trivial, h.apart, _, rfl, hrings⟩

/-- A turn of the boot CPU that does not leave its loop too early. -/
theorem SmpOk.bootStep {s' : Smp} (h : SmpOk la s) (hsettled : Settled la s .boot)
    (hstep : s.bootStep la = some s') : SmpOk la s' := by
  unfold Smp.bootStep at hstep
  cases hboot : s.boot with
  | setCount =>
    simp only [hboot, Option.some.injEq] at hstep
    subst hstep
    have hnone : (la.others.filter fun c => (s.ap c).counted = true) = ∅ := by
      apply Finset.filter_eq_empty_iff.mpr
      intro c _
      rw [h.unset hboot c]
      simp [ApPc.counted]
    exact h.boot_waiting (by rw [hboot]; rfl) (by simp) (fun _ => Or.inl rfl) (by simp)
      (by rw [hnone]; rfl) (by simp [BootPc.left])
  | ipiStart i =>
    have hleft : s.boot.left = false := by rw [hboot]; rfl
    have hcount := h.count (by rw [hboot]; simp)
    simp only [hboot] at hstep
    split at hstep
    · next id hid =>
      cases hstep
      have hmem := List.mem_of_getElem? hid
      unfold Smp.ipiStart
      split_ifs with hoff
      · refine h.boot_waiting hleft (by simp) (fun c => ?_) (by simp) hcount (by simp [BootPc.left])
        by_cases hc : c = id
        · subst hc
          exact Or.inr ⟨LocalApic.mem_others.mpr ⟨hoff.1, hmem⟩, hoff.2,
            Function.update_self _ _ _⟩
        · exact Or.inl (Function.update_of_ne hc _ _)
      · exact h.boot_waiting hleft (by simp) (fun _ => Or.inl rfl) (by simp) hcount
          (by simp [BootPc.left])
    · cases hstep
      exact h.boot_waiting hleft (by simp) (fun _ => Or.inl rfl) (by simp) hcount
        (by simp [BootPc.left])
  | loop =>
    simp only [hboot] at hstep
    split_ifs at hstep with hnum
    · cases hstep
      exact h
    · rw [not_not] at hnum
      cases hstep
      have hcounted := h.all_counted hboot hnum
      exact h.boot_waiting (by rw [hboot]; rfl) (by simp) (fun _ => Or.inl rfl) (by simp)
        (h.count (by rw [hboot]; simp)) fun _ c hc => hsettled hboot hnum c hc (hcounted c hc)
  | running => simp [hboot] at hstep
  | create pc c n =>
    simp only [hboot] at hstep
    exact h.createStep hboot hstep

/-- The call of `thread_create`. -/
theorem SmpOk.create (h : SmpOk la s) (hboot : s.boot = .running) (hc : c ∈ la.cpus)
    (hn : ∀ x ∈ la.cpus, n ∉ s.created x) : SmpOk la (s.bootGoto (.create .init c n)) := by
  have hleft : s.boot.left = true := by rw [hboot]; rfl
  obtain ⟨base, hfrom, hrings⟩ := h.ring_of_left hleft
  unfold Smp.From at hfrom
  rw [hboot] at hfrom
  have := h.boot_running (c := c) hleft (.create .init c n) rfl (s.descs c) rfl rfl rfl s.mem
    s.created ?_
  · rwa [Function.update_eq_self] at this
  · rintro _ rfl
    exact ⟨⟨hc, hn⟩, h.apart, base, hfrom, hrings⟩

/-- Every turn keeps the invariant. -/
theorem SmpOk.step {s' : Smp} {turn : Turn} (h : SmpOk la s) (hallowed : s.Allowed la turn)
    (hsettled : Settled la s turn) (hstep : s.step la turn = some s') : SmpOk la s' := by
  cases turn with
  | boot => exact h.bootStep hsettled hstep
  | ap c => exact h.apStep hstep
  | create c n =>
    simp only [Smp.step] at hstep
    split_ifs at hstep with hboot
    cases hstep
    exact h.create hboot hallowed.1 hallowed.2

/-- The invariant holds when `cpu_smp_init` is called. -/
theorem smpOk_start (la : LocalApic) (mem : Threads) : SmpOk la (Smp.start la mem) := by
  constructor
  · intro c _
    rfl
  · simp [Smp.start, schedInitCpu, queuePushBack, Smp.zeroDesc]
  · intro c hc
    simp only [Smp.start, ApFacts]
    rw [Function.update_of_ne (LocalApic.mem_others.mp hc).1]
    rfl
  · intro _ c
    rfl
  · intro hset
    exact absurd rfl hset
  · intro hleft
    simp [Smp.start, BootPc.left] at hleft
  · intro _ c
    rfl
  · intro c _ c' _ n hn
    simp [Smp.start] at hn
  · trivial
  · refine ⟨_, rfl, fun c _ hready => ?_⟩
    obtain rfl : c = la.bsp := hready.resolve_right (by simp [Smp.start, ApPc.linked])
    apply Ring.single <;> simp [Smp.start, schedInitCpu, queuePushBack, Smp.zeroDesc]

/-- Once the boot CPU has left its loop in the state the invariant describes, all is set up. -/
theorem SmpOk.handshake (h : SmpOk la s) (hleft : s.boot.left = true) : Handshake la s := by
  constructor
  · intro c hc
    exact ((apFacts_linked (h.left hleft c hc)).mp (h.facts c hc)).1
  · intro c hc
    exact h.head hleft hc
  · intro hboot c hc
    obtain ⟨base, hfrom, hrings⟩ := h.ring_of_left hleft
    unfold Smp.From at hfrom
    rw [hboot] at hfrom
    rw [hfrom]
    exact hrings c hc

/-- In every interleaving in which the boot CPU does not leave its loop while a CPU that has
counted itself is still setting up its ring, all descriptors and rings are in order from
then on, and `thread_create` appends behind the idle threads. -/
theorem cpuSmpInit_handshake (la : LocalApic) (mem : Threads) {s : Smp}
    (hrun : Reaches (Smp.step la) (fun s turn => s.Allowed la turn ∧ Settled la s turn)
      (Smp.start la mem) s)
    (hleft : s.boot.left = true) : Handshake la s := by
  refine SmpOk.handshake ?_ hleft
  exact hrun.invariant (smpOk_start la mem) fun s turn s' h hguard hstep =>
    h.step hguard.1 hguard.2 hstep

end Turns

/-- Two CPUs, the first of which is the boot CPU. -/
def twoCpus : LocalApic where
  cpus := [0, 1]
  bsp := 0
  nodup := by decide
  bsp_mem := by decide
  length_le := by decide

/-- Memory that holds zeros. -/
def zeroThreads : Threads where
  next _ := .null
  prev _ := .null
  nextWait _ := .null
  ticks _ := 0
  id _ := 0
  cpuId _ := 0
  state _ := .running
  sleepTime _ := 0
  sleepTimer _ := false
  pri _ := 0
  cnt _ := 0

/-- The boot CPU up to its loop. -/
def bootTurns : List Turn := List.replicate 4 .boot

/-- `thread_create` for the second CPU. -/
def createTurns (accesses : ℕ) : List Turn := .create 1 0 :: List.replicate accesses .boot

/-- The second CPU sets up its ring, the boot CPU leaves its loop, and a thread is created. -/
theorem cpuSmpInit_handshake_twoCpus :
    ∃ s, Reaches (Smp.step twoCpus)
        (fun s turn => s.Allowed twoCpus turn ∧ Settled twoCpus s turn)
        (Smp.start twoCpus zeroThreads) s ∧
      s.boot = .running ∧ s.created 1 = [0] ∧ Handshake twoCpus s := by
  have hrun : (runOps (Smp.step twoCpus)
      (fun s turn => s.Allowed twoCpus turn ∧ Settled twoCpus s turn)
      (Smp.start twoCpus zeroThreads)
      (bootTurns ++ List.replicate 12 (.ap 1) ++ .boot :: createTurns 9)).map
        (fun s => (s.boot, s.created 1)) = some (.running, [0]) := by decide +kernel
  obtain ⟨s, hs, heq⟩ := Option.map_eq_some_iff.mp hrun
  rw [Prod.mk.injEq] at heq
  have hreach := Reaches.of_runOps hs
  exact ⟨s, hreach, heq.1, heq.2,
    cpuSmpInit_handshake twoCpus zeroThreads hreach (by rw [heq.1]; rfl)⟩

/-- The second CPU counts itself and is slow to go on; the boot CPU leaves its loop and
creates a thread for it. That thread stays the head of the ring. -/
theorem cpuSmpInit_leaves_early :
    ¬ ∀ (la : LocalApic) (mem : Threads) (s : Smp),
      Reaches (Smp.step la) (fun s turn => s.Allowed la turn) (Smp.start la mem) s →
      s.boot.left = true → Handshake la s := by
  intro hall
  have hrun : (runOps (Smp.step twoCpus) (fun s turn => s.Allowed twoCpus turn)
      (Smp.start twoCpus zeroThreads)
      (bootTurns ++ .ap 1 :: .boot :: createTurns 8 ++ List.replicate 12 (.ap 1))).map
        (fun s => (s.boot, (s.descs 1).cpu.threads, s.ap 1)) =
      some (.running, .alloc 0, .idleLoop) := by decide +kernel
  obtain ⟨s, hs, heq⟩ := Option.map_eq_some_iff.mp hrun
  simp only [Prod.mk.injEq] at heq
  have hhead := (hall twoCpus zeroThreads s (Reaches.of_runOps hs) (by rw [heq.1]; rfl)).head 1
    (by decide)
  rw [heq.2.1] at hhead
  simp at hhead

end Smor.Sched
