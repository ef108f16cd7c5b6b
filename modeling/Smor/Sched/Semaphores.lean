import Smor.Sched.WaitLists

/-!
# Semaphores

A signal that finds a thread on the wait list hands its permit to that thread without touching
the count. To say that no permit is lost we keep an account of a semaphore beside the world:
the signals, the waits that found a permit, the threads in the order in which they blocked,
and the threads in the order in which signals took them off the list. The account is balanced
in every run that does not push the count past `INT_MAX`.
-/

namespace Smor.Sched

open Smor.Lib

/-- What has happened to a semaphore. -/
structure Account where
  /-- The calls of `sema_signal`. -/
  signals : ℕ
  /-- The calls of `sema_wait` that found a permit. -/
  direct : ℕ
  /-- The threads that blocked in `sema_wait`, the first to block first. -/
  blocked : List ThreadRef
  /-- The threads that a signal took off the list, in this order. -/
  handed : List ThreadRef

namespace Account

/-- The account of a new semaphore. -/
def empty : Account := ⟨0, 0, [], []⟩

/-- The calls of `sema_wait` that were granted a permit. -/
def granted (a : Account) : ℕ := a.direct + a.handed.length

end Account

namespace World

/-- The account of the semaphore `s` after an operation. -/
def record (w : World) (s : ℕ) (a : Account) : Op → Account
  | .semaWait c s' =>
    if s' ≠ s then a
    else if 0 < (w.semas s).count then { a with direct := a.direct + 1 }
    else { a with blocked := a.blocked ++ [w.cur c] }
  | .semaSignal s' =>
    if s' ≠ s then a
    else if (w.semas s).threads.head = .null then { a with signals := a.signals + 1 }
    else
      { a with
        signals := a.signals + 1
        handed := a.handed ++ [(w.semas s).threads.head] }
  | _ => a

/-- One operation, with the account of the semaphore `s`. -/
def auditStep (s : ℕ) (r : World × Account) (op : Op) : Option (World × Account) :=
  (r.1.step op).map fun w' => (w', r.1.record s r.2 op)

/-- An operation that does not push the count of the semaphore `s` past `INT_MAX`. -/
def Counted (s : ℕ) (w : World) (op : Op) : Prop :=
  w.Waiting op ∧ (op = .semaSignal s → (w.semas s).threads.head = .null →
    (w.semas s).count ≠ 2 ^ 31 - 1)

instance (s : ℕ) (w : World) (op : Op) : Decidable (w.Counted s op) :=
  inferInstanceAs (Decidable (_ ∧ (_ → _ → _)))

end World

/-- The account of a semaphore with the initial count `c₀`, its count, and the threads on its
list fit together. -/
structure Balanced (c₀ count : ℤ) (waiting : List ThreadRef) (a : Account) : Prop where
  nonneg : 0 ≤ count
  lt_max : count < 2 ^ 31
  nil_of_pos : 0 < count → waiting = []
  balance : c₀ + a.signals = count + a.granted
  order : a.blocked = a.handed ++ waiting

section Accounts

variable {c₀ : ℤ} {w w' : World} {rings : ℕ → List ThreadRef} {lists : WaitId → List ThreadRef}
  {yielded : Set ThreadRef} {a : Account} {s : ℕ}

/-- A wait that finds a permit takes it. -/
theorem Balanced.take {count : ℤ} {waiting : List ThreadRef} (h : Balanced c₀ count waiting a)
    (hpos : 0 < count) :
    Balanced c₀ (i32 (count + -1)) waiting { a with direct := a.direct + 1 } := by
  obtain ⟨hnonneg, hmax, hnil, hbalance, horder⟩ := h
  rw [i32_of_range (by omega) (by omega)]
  refine ⟨by omega, by omega, fun _ => hnil hpos, ?_, horder⟩
  simp only [Account.granted] at hbalance ⊢
  push_cast at hbalance ⊢
  omega

/-- A wait that finds no permit blocks, last in the list. -/
theorem Balanced.block {count : ℤ} {waiting : List ThreadRef} (h : Balanced c₀ count waiting a)
    (hzero : ¬ 0 < count) (t : ThreadRef) :
    Balanced c₀ count (waiting ++ [t]) { a with blocked := a.blocked ++ [t] } := by
  refine ⟨h.nonneg, h.lt_max, fun hpos => absurd hpos hzero, h.balance, ?_⟩
  rw [h.order, List.append_assoc]

/-- A signal without a waiting thread leaves a permit. -/
theorem Balanced.put {count : ℤ} (h : Balanced c₀ count [] a) (hmax : count ≠ 2 ^ 31 - 1) :
    Balanced c₀ (i32 (count + 1)) [] { a with signals := a.signals + 1 } := by
  obtain ⟨hnonneg, hlt, -, hbalance, horder⟩ := h
  rw [i32_of_range (by omega) (by omega)]
  refine ⟨by omega, by omega, fun _ => rfl, ?_, horder⟩
  simp only [Account.granted] at hbalance ⊢
  push_cast at hbalance ⊢
  omega

/-- A signal hands its permit to the thread that has waited longest. -/
theorem Balanced.hand {count : ℤ} {t : ThreadRef} {waiting : List ThreadRef}
    (h : Balanced c₀ count (t :: waiting) a) :
    Balanced c₀ count waiting
      { a with
        signals := a.signals + 1
        handed := a.handed ++ [t] } := by
  refine ⟨h.nonneg, h.lt_max, fun hpos => ?_, ?_, ?_⟩
  · have hnil := h.nil_of_pos hpos
    simp at hnil
  · have hbalance := h.balance
    simp only [Account.granted, List.length_append, List.length_singleton] at hbalance ⊢
    push_cast at hbalance ⊢
    omega
  · rw [h.order, List.append_assoc, List.singleton_append]

/-- Only the operations on a semaphore change its count. -/
theorem step_semas {op : Op} (hwait : ∀ c, op ≠ .semaWait c s) (hsignal : op ≠ .semaSignal s)
    (hstep : w.step op = some w') : (w'.semas s).count = (w.semas s).count := by
  cases op with
  | semaWait c s' =>
    have hne : s ≠ s' := by
      rintro rfl
      exact hwait c rfl
    simp only [World.step] at hstep
    split_ifs at hstep <;> cases hstep
    · simp [World.addCount, hne]
    · simp [World.blockSema, hne]
  | semaSignal s' =>
    have hne : s ≠ s' := by
      rintro rfl
      exact hsignal rfl
    simp only [World.step] at hstep
    split_ifs at hstep <;> cases hstep
    · simp [World.addCount, hne]
    · simp [World.popSema, hne]
  | condSignal k =>
    simp only [World.step] at hstep
    split_ifs at hstep <;> cases hstep <;> rfl
  | tick c | sleep c ms | yield c | finishWait c =>
    obtain ⟨r, -, rfl⟩ := Option.map_eq_some_iff.mp hstep
    rfl
  | initCpu c | create c n | wakeup t | condWait c k =>
    cases hstep
    rfl

/-- Nor does any other operation change its wait list or its account. -/
theorem nextLists_record (w : World) (lists : WaitId → List ThreadRef) (a : Account) {op : Op}
    (hwait : ∀ c, op ≠ .semaWait c s) (hsignal : op ≠ .semaSignal s) :
    w.nextLists lists op (.sema s) = lists (.sema s) ∧ w.record s a op = a := by
  cases op with
  | semaWait c s' =>
    have hne : s' ≠ s := by
      rintro rfl
      exact hwait c rfl
    simp only [World.nextLists, World.record, if_pos hne]
    split_ifs
    · exact ⟨rfl, trivial⟩
    · simp [Ne.symm hne]
  | semaSignal s' =>
    have hne : s' ≠ s := by
      rintro rfl
      exact hsignal rfl
    simp [World.nextLists, World.record, hne, Ne.symm hne]
  | condWait c k | condSignal k => simp [World.nextLists, World.record]
  | _ => exact ⟨rfl, rfl⟩

/-- Every operation keeps the account balanced. -/
theorem Balanced.step
    (h : Balanced c₀ (w.semas s).count (lists (.sema s)) a) (hlists : WaitOk w lists yielded)
    {op : Op} (hop : w.Counted s op) (hstep : w.step op = some w') :
    Balanced c₀ (w'.semas s).count (w.nextLists lists op (.sema s)) (w.record s a op) := by
  by_cases hwait : ∃ c, op = .semaWait c s
  · obtain ⟨c, rfl⟩ := hwait
    simp only [World.step] at hstep
    simp only [World.nextLists, World.record, ne_eq, not_true_eq_false, if_false]
    split_ifs at hstep ⊢ with hpos <;> cases hstep
    · simp only [World.addCount, Function.update_self]
      exact h.take hpos
    · simp only [World.blockSema, Function.update_self]
      exact h.block hpos _
  by_cases hsignal : op = .semaSignal s
  · subst hsignal
    simp only [World.step] at hstep
    simp only [World.nextLists, World.record, ne_eq, not_true_eq_false, if_false,
      Function.update_self]
    split_ifs at hstep ⊢ with hempty <;> cases hstep
    · rw [hlists.nil_of_head (i := .sema s) hempty] at h ⊢
      simp only [World.addCount, Function.update_self]
      exact h.put (hop.2 rfl hempty)
    · obtain ⟨rest, hcons, -⟩ := hlists.cons_of_head (i := .sema s) hempty
      rw [hcons] at h ⊢
      simp only [World.popSema, Function.update_self, List.tail_cons]
      exact h.hand
  · simp only [not_exists] at hwait
    obtain ⟨hlist, hrecord⟩ := nextLists_record w lists a hwait hsignal
    rw [step_semas hwait hsignal hstep, hlist, hrecord]
    exact h

/-- A semaphore never loses a permit, whatever the threads do. The count is not negative, and
positive only if no thread waits. The initial count and the signals are the permits left and
the waits granted. A thread that runs has been granted every wait in which it blocked, so no
wait returns without a grant. The threads that have blocked are those that were granted
a permit followed by those on the list, so they are granted in the order in which they blocked. -/
theorem sema_account_balanced {w₀ : World} (h₀ : w₀.Boot)
    (hlists : ∀ i, w₀.listAt i = ThreadList.init) (hsema : w₀.semas s = semaInit c₀)
    (hmin : 0 ≤ c₀) (hmax : c₀ < 2 ^ 31)
    (hrun : Reaches (World.auditStep s) (fun r => r.1.Counted s) (w₀, Account.empty) (w, a)) :
    0 ≤ (w.semas s).count ∧
    (0 < (w.semas s).count → (w.semas s).threads.head = .null) ∧
    c₀ + a.signals = (w.semas s).count + a.granted ∧
    (∃ waiting, Chain .null w.mem.nextWait (w.semas s).threads.head waiting ∧
      a.blocked = a.handed ++ waiting) ∧
    ∀ c ∈ w.online, w.locked c = false → a.blocked.count (w.cur c) = a.handed.count (w.cur c) := by
  have hinv : ∃ rings lists yielded, WorldOk w rings ∧ WaitOk w lists yielded ∧
      Balanced c₀ (w.semas s).count (lists (.sema s)) a := by
    apply hrun.invariant (I := fun r => ∃ rings lists yielded, WorldOk r.1 rings ∧
      WaitOk r.1 lists yielded ∧ Balanced c₀ (r.1.semas s).count (lists (.sema s)) r.2)
    · refine ⟨_, _, _, h₀.worldOk, h₀.waitOk hlists, ?_⟩
      simp only [hsema]
      exact ⟨hmin, hmax, fun _ => rfl, rfl, rfl⟩
    · rintro ⟨w, a⟩ op r' ⟨rings, lists, yielded, hok, hwait, hbal⟩ hop hstep
      obtain ⟨w', hstep', rfl⟩ := Option.map_eq_some_iff.mp hstep
      obtain ⟨w'', rings', hw'', hok'⟩ := hok.step hop.1.1
      rw [hstep', Option.some.injEq] at hw''
      exact ⟨rings', _, _, hw'' ▸ hok', hwait.step hok hop.1.1 hop.1.2 hstep',
        hbal.step hwait hop hstep'⟩
  obtain ⟨rings, lists, yielded, hok, hwait, hbal⟩ := hinv
  have hchain := hwait.chain (.sema s)
  refine ⟨hbal.nonneg, fun hpos => ?_, hbal.balance, ⟨_, hchain, hbal.order⟩, fun c hc hfree => ?_⟩
  · rw [hbal.nil_of_pos hpos] at hchain
    exact chain_nil_iff.mp hchain
  · have hnot := hwait.cur_notMem hok hc hfree (.sema s)
    rw [hbal.order, List.count_append, List.count_eq_zero_of_not_mem hnot, Nat.add_zero]

/-- A thread blocks, and a signal hands it the permit. -/
theorem sema_account_balanced_handed :
    ∃ w a, runOps (World.auditStep 0) (fun r => r.1.Counted 0) (World.blank, Account.empty)
        (threadRuns ++ [.semaWait 0 0, .finishWait 0, .semaSignal 0]) = some (w, a) ∧
      a.handed = [.alloc 5] ∧ 0 + a.signals = (w.semas 0).count + a.granted := by
  have hrun : ((runOps (World.auditStep 0) (fun r => r.1.Counted 0) (World.blank, Account.empty)
      (threadRuns ++ [.semaWait 0 0, .finishWait 0, .semaSignal 0])).map fun r => r.2.handed) =
      some [.alloc 5] := by decide +kernel
  obtain ⟨⟨w, a⟩, hw, hhanded⟩ := Option.map_eq_some_iff.mp hrun
  exact ⟨w, a, hw, hhanded, (sema_account_balanced World.blank_boot World.blank_listAt rfl le_rfl
    (by decide) (Reaches.of_runOps hw)).2.2.1⟩

/-- A semaphore that starts at `INT_MAX` wraps around with its first signal. -/
theorem sema_count_wraps :
    ¬ ∀ (s : ℕ) (c₀ : ℤ) (w₀ w : World) (a : Account), w₀.Boot →
      (∀ i, w₀.listAt i = ThreadList.init) → w₀.semas s = semaInit c₀ → 0 ≤ c₀ → c₀ < 2 ^ 31 →
      Reaches (World.auditStep s) (fun r => r.1.Waiting) (w₀, Account.empty) (w, a) →
      0 ≤ (w.semas s).count := by
  intro hclaim
  have hcount := hclaim 0 (2 ^ 31 - 1) { World.blank with semas := fun _ => semaInit (2 ^ 31 - 1) }
    _ _ World.blank_boot (fun i => by cases i <;> rfl) rfl (by decide) (by decide)
    ((Reaches.refl _).tail (o := .semaSignal 0) ⟨Or.inl rfl, fun _ h => nomatch h⟩ rfl)
  revert hcount
  decide +kernel

end Accounts

end Smor.Sched
