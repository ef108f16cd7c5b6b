import Mathlib.Data.Fintype.Card
import Smor.Console.MsgQueue
import Smor.Lib.Held

/-!
# Concurrent calls of `cons_putstr`

A caller puts its message in the queue and then tries to become the one that drains it. A caller
that loses leaves its message to the other, which may have found the queue empty already; the
argument is that it gives `run_lock` back before it gives back the lock of the queue. The calls
are interleaved at every access to a lock, to `run_lock` and to the queue. The interrupt flag of
the CPUs plays no part.
-/

namespace Smor.Console

open Smor.Lib

/-- Where a call of `cons_putstr` is. -/
inductive Phase
  /-- In front of the first `spinlock_lock`. -/
  | start
  /-- It has the lock and puts its message in the queue. -/
  | push
  /-- It has the lock and its message is in the queue. -/
  | pushed
  /-- In front of the compare-and-swap of `run_lock`. -/
  | swap
  /-- It drains and is in front of the `spinlock_lock` in the loop. -/
  | drain
  /-- It drains and has the lock. -/
  | pop
  /-- It drains, has the lock and a message. -/
  | popped
  /-- It drains, has the lock and has found no message. -/
  | release
  /-- It has given `run_lock` back and has the lock. -/
  | leave
  | returned
  deriving DecidableEq

namespace Phase

/-- The call has the lock of the queue. -/
def Locked (p : Phase) : Prop :=
  p = push ∨ p = pushed ∨ p = pop ∨ p = popped ∨ p = release ∨ p = leave

/-- The call drains the queue: it has taken `run_lock` and not given it back. -/
def Drains (p : Phase) : Prop := p = drain ∨ p = pop ∨ p = popped ∨ p = release

/-- The call has put its message in the queue. -/
def Sent (p : Phase) : Prop := p ≠ start ∧ p ≠ push

/-- The call is between its push and its compare-and-swap. -/
def Between (p : Phase) : Prop := p = pushed ∨ p = swap

instance (p : Phase) : Decidable p.Locked :=
  inferInstanceAs (Decidable (_ ∨ _ ∨ _ ∨ _ ∨ _ ∨ _))

instance (p : Phase) : Decidable p.Drains := inferInstanceAs (Decidable (_ ∨ _ ∨ _ ∨ _))

instance (p : Phase) : Decidable p.Sent := inferInstanceAs (Decidable (_ ∧ _))

instance (p : Phase) : Decidable p.Between := inferInstanceAs (Decidable (_ ∨ _))

end Phase

/-- The state of all calls: the buffer and the queue, the counter of the lock of the queue, and
where the calls are. -/
structure Callers (ι : Type) where
  msgs : ConsMsgs
  lock : ℕ
  phase : ι → Phase

namespace Callers

variable {ι : Type} [DecidableEq ι]

/-- One round of `spinlock_lock`. -/
def spin (s : Callers ι) (i : ι) (next : Phase) : Callers ι :=
  let r := compareAndSwap32 s.lock 0 1
  { s with
    lock := r.2
    phase := if r.1 = 0 then Function.update s.phase i next else s.phase }

/-- `spinlock_unlock`. -/
def unlock (s : Callers ι) (i : ι) (next : Phase) : Callers ι :=
  { s with
    lock := (compareAndSwap32 s.lock 1 0).2
    phase := Function.update s.phase i next }

/-- An assignment to `run_lock`. -/
def setRunLock (s : Callers ι) (runLock : ℕ) : Callers ι :=
  { s with msgs := { s.msgs with queue := { s.msgs.queue with runLock := runLock } } }

/-- The next step of a call, by the messages of all calls; `none` if it has returned, or if a check
fails. -/
def step (str : ι → List (BitVec 8)) (s : Callers ι) (i : ι) : Option (Callers ι) :=
  match s.phase i with
  | .start => some (s.spin i .push)
  | .push =>
    (consMsgPutstr s.msgs (str i)).map fun msgs =>
      { s with
        msgs := msgs
        phase := Function.update s.phase i .pushed }
  | .pushed => some (s.unlock i .swap)
  | .swap =>
    let r := compareAndSwap32 s.msgs.queue.runLock 0 1
    some { s.setRunLock r.2 with
      phase := Function.update s.phase i (if r.1 ≠ 0 then .returned else .drain) }
  | .drain => some (s.spin i .pop)
  | .pop =>
    let r := consMsgPop s.msgs.queue
    some { s with
      msgs := { s.msgs with queue := r.2 }
      phase := Function.update s.phase i (if r.1.isSome then .popped else .release) }
  | .popped => some (s.unlock i .drain)
  | .release =>
    some { s.setRunLock (compareAndSwap32 s.msgs.queue.runLock 1 0).2 with
      phase := Function.update s.phase i .leave }
  | .leave => some (s.unlock i .returned)
  | .returned => none

/-- Before the first call. -/
def init (ι : Type) (buf : ℕ → BitVec 8) : Callers ι where
  msgs := ⟨⟨0, buf⟩, ⟨fun _ => ⟨0, 0⟩, 0, 0, 0⟩⟩
  lock := 0
  phase _ := .start

end Callers

section Order

variable {ι : Type} [DecidableEq ι] [Fintype ι] {s : Callers ι} {i : ι}

/-- The calls are in order: both locks have at most one holder, the positions count the messages,
and a message that is in the queue while nobody drains belongs to a call that will try to. -/
structure DrainOk (s : Callers ι) : Prop where
  lock : Held s.lock fun i => (s.phase i).Locked
  run : Held s.msgs.queue.runLock fun i => (s.phase i).Drains
  sent : s.msgs.queue.writePos = (Finset.univ.filter fun i => (s.phase i).Sent).card
  read : s.msgs.queue.readPos ≤ s.msgs.queue.writePos
  between : s.msgs.queue.runLock = 0 → s.msgs.queue.readPos ≠ s.msgs.queue.writePos →
    ∃ i, (s.phase i).Between
  empty : ∀ i, s.phase i = .release → s.msgs.queue.readPos = s.msgs.queue.writePos

/-- A step that is no push leaves the number of messages that have been put. -/
theorem card_sent_update (phase : ι → Phase) {next : Phase}
    (hsent : next.Sent ↔ (phase i).Sent) :
    (Finset.univ.filter fun j => (Function.update phase i next j).Sent).card =
      (Finset.univ.filter fun j => (phase j).Sent).card :=
  congrArg Finset.card (Finset.filter_congr fun j _ => update_phase_iff hsent j)

/-- A step that takes or gives back the lock and changes nothing else. -/
theorem DrainOk.move (h : DrainOk s) {next : Phase} {lock : ℕ}
    (hlock : Held lock fun j => (Function.update s.phase i next j).Locked)
    (hdrains : next.Drains ↔ (s.phase i).Drains) (hsent : next.Sent ↔ (s.phase i).Sent)
    (hbetween : (s.phase i).Between → next.Between) (hempty : next ≠ .release) :
    DrainOk { s with
      lock := lock
      phase := Function.update s.phase i next } := by
  obtain ⟨-, hrun, hcount, hread, hwaiting, hnone⟩ := h
  refine ⟨hlock, hrun.congr (update_phase_iff hdrains),
    hcount.trans (card_sent_update s.phase hsent).symm, hread, fun hfree hne => ?_,
    fun j hj => ?_⟩
  · obtain ⟨j, hj⟩ := hwaiting hfree hne
    refine ⟨j, ?_⟩
    by_cases heq : j = i
    · subst heq
      dsimp only
      rw [Function.update_self]
      exact hbetween hj
    · dsimp only
      rwa [Function.update_of_ne heq]
  · rcases update_phase_cases hj with ⟨-, hcurrent⟩ | ⟨-, hbefore⟩
    · exact absurd hcurrent hempty
    · exact hnone j hbefore

/-- A round of `spinlock_lock` keeps the order. -/
theorem DrainOk.spin (h : DrainOk s) {next : Phase} (hnext : next.Locked)
    (hdrains : next.Drains ↔ (s.phase i).Drains) (hsent : next.Sent ↔ (s.phase i).Sent)
    (hbetween : (s.phase i).Between → next.Between) (hempty : next ≠ .release) :
    DrainOk (s.spin i next) := by
  have hlock := h.lock
  rcases hlock.eq_zero_or_one with hzero | hone
  · rw [hzero] at hlock
    have hspin : s.spin i next =
        { s with
          lock := 1
          phase := Function.update s.phase i next } := by
      simp [Callers.spin, compareAndSwap32, hzero]
    rw [hspin]
    exact h.move (hlock.take (update_phase_enter hnext)) hdrains hsent hbetween hempty
  · have htaken : ¬ s.lock = 0 := by omega
    have hspin : s.spin i next = s := by
      simp only [Callers.spin, compareAndSwap32, if_neg htaken]
    rwa [hspin]

/-- `spinlock_unlock` keeps the order. -/
theorem DrainOk.unlock (h : DrainOk s) {next : Phase} (hheld : (s.phase i).Locked)
    (hnext : ¬ next.Locked) (hdrains : next.Drains ↔ (s.phase i).Drains)
    (hsent : next.Sent ↔ (s.phase i).Sent) (hbetween : (s.phase i).Between → next.Between)
    (hempty : next ≠ .release) : DrainOk (s.unlock i next) := by
  have hone := h.lock.eq_one hheld
  have hunlock : s.unlock i next =
      { s with
        lock := 0
        phase := Function.update s.phase i next } := by
    simp [Callers.unlock, compareAndSwap32, hone]
  rw [hunlock]
  exact h.move (h.lock.release hheld (update_phase_leave hnext)) hdrains hsent hbetween hempty

omit [DecidableEq ι] in
/-- Only the call that has the lock can have found the queue empty. -/
theorem DrainOk.not_release (h : DrainOk s) (hi : (s.phase i).Locked) {j : ι} (hne : j ≠ i) :
    s.phase j ≠ .release := by
  intro hj
  have hlocked : (s.phase j).Locked := by
    rw [hj]
    decide
  exact hne (h.lock.unique hlocked hi)

/-- A call puts its message in the queue. -/
theorem DrainOk.push (h : DrainOk s) (hcard : Fintype.card ι < 2 ^ 32) (hi : s.phase i = .push)
    {str : List (BitVec 8)} {msgs : ConsMsgs} (hput : consMsgPutstr s.msgs str = some msgs) :
    DrainOk { s with
      msgs := msgs
      phase := Function.update s.phase i .pushed } := by
  obtain ⟨hwrite, hread, hrun⟩ := consMsgPutstr_positions hput
  have hlocked : (s.phase i).Locked := by
    rw [hi]
    decide
  have hcount : (Finset.univ.filter fun j => (Function.update s.phase i .pushed j).Sent) =
      insert i (Finset.univ.filter fun j => (s.phase j).Sent) := by
    ext j
    simp only [Finset.mem_filter, Finset.mem_univ, true_and, Finset.mem_insert]
    exact (update_phase_enter (Q := Phase.Sent) (by decide) j).trans or_comm
  have hnew : i ∉ Finset.univ.filter fun j => (s.phase j).Sent := by
    intro hmem
    exact (Finset.mem_filter.mp hmem).2.2 hi
  have hsent : u32 (s.msgs.queue.writePos + 1) =
      (Finset.univ.filter fun j => (Function.update s.phase i .pushed j).Sent).card := by
    have hle := Finset.card_le_univ (Finset.univ.filter fun j =>
      (Function.update s.phase i .pushed j).Sent)
    rw [hcount, Finset.card_insert_of_notMem hnew, ← h.sent] at hle ⊢
    exact u32_of_lt (by omega)
  have hsent' := hsent
  rw [hcount, Finset.card_insert_of_notMem hnew, ← h.sent] at hsent'
  have hmore := h.read
  constructor
  · exact h.lock.congr (update_phase_iff (iff_of_true (by decide) hlocked))
  · dsimp only
    rw [hrun]
    exact h.run.congr (update_phase_iff (by rw [hi]; decide))
  · exact hwrite.trans hsent
  · dsimp only
    omega
  · intro _ _
    refine ⟨i, ?_⟩
    dsimp only
    rw [Function.update_self]
    exact Or.inl rfl
  · intro j hj
    rcases update_phase_cases hj with ⟨-, hcurrent⟩ | ⟨hne, hbefore⟩
    · cases hcurrent
    · exact absurd hbefore (h.not_release hlocked hne)

/-- The compare-and-swap of `run_lock`. The call drains if nobody does. -/
theorem DrainOk.swap (h : DrainOk s) (hi : s.phase i = .swap) {runLock : ℕ} {next : Phase}
    (hnext : (s.msgs.queue.runLock = 0 ∧ next = .drain) ∨
      (s.msgs.queue.runLock = 1 ∧ next = .returned)) (hrun : runLock = 1) :
    DrainOk { s.setRunLock runLock with
      phase := Function.update s.phase i next } := by
  subst hrun
  have hlocked : next.Locked ↔ (s.phase i).Locked := by
    rw [hi]
    rcases hnext with ⟨-, rfl⟩ | ⟨-, rfl⟩ <;> decide
  have hsent : next.Sent ↔ (s.phase i).Sent := by
    rw [hi]
    rcases hnext with ⟨-, rfl⟩ | ⟨-, rfl⟩ <;> decide
  have hempty : next ≠ .release := by
    rcases hnext with ⟨-, rfl⟩ | ⟨-, rfl⟩ <;> decide
  constructor
  · exact h.lock.congr (update_phase_iff hlocked)
  · have hheld := h.run
    rcases hnext with ⟨hfree, rfl⟩ | ⟨htaken, rfl⟩
    · rw [hfree] at hheld
      exact hheld.take (update_phase_enter (by decide))
    · rw [htaken] at hheld
      exact hheld.congr (update_phase_iff (by rw [hi]; decide))
  · exact h.sent.trans (card_sent_update s.phase hsent).symm
  · exact h.read
  · intro hfree
    cases hfree
  · intro j hj
    rcases update_phase_cases hj with ⟨-, hcurrent⟩ | ⟨-, hbefore⟩
    · exact absurd hcurrent hempty
    · exact h.empty j hbefore

/-- The drainer takes a message, or finds that there is none. -/
theorem DrainOk.pop (h : DrainOk s) (hi : s.phase i = .pop) {readPos : ℕ} {next : Phase}
    (hnext : (readPos ≤ s.msgs.queue.writePos ∧ next = .popped) ∨
      (readPos = s.msgs.queue.writePos ∧ next = .release)) :
    DrainOk { s with
      msgs := { s.msgs with queue := { s.msgs.queue with readPos := readPos } }
      phase := Function.update s.phase i next } := by
  have hlocked : (s.phase i).Locked := by
    rw [hi]
    decide
  have hdrains : (s.phase i).Drains := by
    rw [hi]
    decide
  have hlocked' : next.Locked := by
    rcases hnext with ⟨-, rfl⟩ | ⟨-, rfl⟩ <;> decide
  have hdrains' : next.Drains := by
    rcases hnext with ⟨-, rfl⟩ | ⟨-, rfl⟩ <;> decide
  have hsent : next.Sent ↔ (s.phase i).Sent := by
    rw [hi]
    rcases hnext with ⟨-, rfl⟩ | ⟨-, rfl⟩ <;> decide
  constructor
  · exact h.lock.congr (update_phase_iff (iff_of_true hlocked' hlocked))
  · exact h.run.congr (update_phase_iff (iff_of_true hdrains' hdrains))
  · exact h.sent.trans (card_sent_update s.phase hsent).symm
  · exact hnext.elim And.left fun hempty => hempty.1.le
  · intro hfree
    exact absurd (hfree.symm.trans (h.run.eq_one hdrains)) (by decide)
  · intro j hj
    rcases update_phase_cases hj with ⟨-, hcurrent⟩ | ⟨hne, hbefore⟩
    · rcases hnext with ⟨-, rfl⟩ | ⟨hempty, -⟩
      · cases hcurrent
      · exact hempty
    · exact absurd hbefore (h.not_release hlocked hne)

/-- The drainer gives `run_lock` back while it has the lock, so the queue is still empty. -/
theorem DrainOk.release (h : DrainOk s) (hi : s.phase i = .release) :
    DrainOk { s.setRunLock (compareAndSwap32 s.msgs.queue.runLock 1 0).2 with
      phase := Function.update s.phase i .leave } := by
  have hlocked : (s.phase i).Locked := by
    rw [hi]
    decide
  have hdrains : (s.phase i).Drains := by
    rw [hi]
    decide
  have hsent : Phase.leave.Sent ↔ (s.phase i).Sent := by
    rw [hi]
    decide
  have hfree : (compareAndSwap32 s.msgs.queue.runLock 1 0).2 = 0 := by
    rw [h.run.eq_one hdrains]
    rfl
  rw [hfree]
  constructor
  · exact h.lock.congr (update_phase_iff (iff_of_true (by decide) hlocked))
  · exact h.run.release hdrains (update_phase_leave (by decide))
  · exact h.sent.trans (card_sent_update s.phase hsent).symm
  · exact h.read
  · intro _ hne
    exact absurd (h.empty i hi) hne
  · intro j _
    exact h.empty i hi

/-- Every step of a call keeps the order. -/
theorem DrainOk.step (h : DrainOk s) (hcard : Fintype.card ι < 2 ^ 32)
    {str : ι → List (BitVec 8)} {s' : Callers ι} (hstep : s.step str i = some s') :
    DrainOk s' := by
  unfold Callers.step at hstep
  cases hi : s.phase i with
  | start =>
    rw [hi] at hstep
    obtain rfl := Option.some.inj hstep
    exact h.spin (by decide) (by rw [hi]; decide) (by rw [hi]; decide) (by rw [hi]; decide)
      (by decide)
  | push =>
    rw [hi] at hstep
    obtain ⟨msgs, hput, rfl⟩ := Option.map_eq_some_iff.mp hstep
    exact h.push hcard hi hput
  | pushed =>
    rw [hi] at hstep
    obtain rfl := Option.some.inj hstep
    exact h.unlock (by rw [hi]; decide) (by decide) (by rw [hi]; decide) (by rw [hi]; decide)
      (fun _ => by decide) (by decide)
  | swap =>
    rw [hi] at hstep
    obtain rfl := Option.some.inj hstep
    rcases h.run.eq_zero_or_one with hzero | hone
    · exact h.swap hi (Or.inl ⟨hzero, by simp [compareAndSwap32, hzero]⟩)
        (by simp [compareAndSwap32, hzero])
    · exact h.swap hi (Or.inr ⟨hone, by simp [compareAndSwap32, hone]⟩)
        (by simp [compareAndSwap32, hone])
  | drain =>
    rw [hi] at hstep
    obtain rfl := Option.some.inj hstep
    exact h.spin (by decide) (by rw [hi]; decide) (by rw [hi]; decide) (by rw [hi]; decide)
      (by decide)
  | pop =>
    rw [hi] at hstep
    obtain rfl := Option.some.inj hstep
    have hread := h.read
    rcases consMsgPop_cases (q := s.msgs.queue) with ⟨hlt, hpop⟩ | ⟨hge, hpop⟩
    · rw [hpop]
      exact h.pop hi (Or.inl ⟨u32_succ_le hlt, rfl⟩)
    · rw [hpop]
      exact h.pop hi (Or.inr ⟨le_antisymm hread (not_lt.mp hge), rfl⟩)
  | popped =>
    rw [hi] at hstep
    obtain rfl := Option.some.inj hstep
    exact h.unlock (by rw [hi]; decide) (by decide) (by rw [hi]; decide) (by rw [hi]; decide)
      (by rw [hi]; decide) (by decide)
  | release =>
    rw [hi] at hstep
    obtain rfl := Option.some.inj hstep
    exact h.release hi
  | leave =>
    rw [hi] at hstep
    obtain rfl := Option.some.inj hstep
    exact h.unlock (by rw [hi]; decide) (by decide) (by rw [hi]; decide) (by rw [hi]; decide)
      (by rw [hi]; decide) (by decide)
  | returned =>
    rw [hi] at hstep
    cases hstep

omit [DecidableEq ι] in
/-- Before the first call the order holds. -/
theorem drainOk_init (buf : ℕ → BitVec 8) : DrainOk (Callers.init ι buf) := by
  have hnobody : ∀ i : ι, ¬ ((Callers.init ι buf).phase i).Sent := fun i hsent => hsent.1 rfl
  constructor
  · refine Or.inl ⟨rfl, fun i => ?_⟩
    exact of_decide_eq_false rfl
  · refine Or.inl ⟨rfl, fun i => ?_⟩
    exact of_decide_eq_false rfl
  · rw [Finset.filter_false_of_mem fun i _ => hnobody i]
    rfl
  · exact le_rfl
  · intro _ hne
    exact absurd rfl hne
  · intro i hi
    cases hi

omit [DecidableEq ι] in
/-- Nothing is left in the queue when all calls have returned. -/
theorem DrainOk.finished (h : DrainOk s) (hall : ∀ i, s.phase i = .returned) :
    s.msgs.queue.readPos = s.msgs.queue.writePos ∧ s.msgs.queue.writePos = Fintype.card ι := by
  constructor
  · have hfree : s.msgs.queue.runLock = 0 := by
      rcases h.run with ⟨hzero, -⟩ | ⟨-, i, hi, -⟩
      · exact hzero
      · rw [hall i] at hi
        exact absurd hi (by decide)
    by_contra hne
    obtain ⟨i, hi⟩ := h.between hfree hne
    rw [hall i] at hi
    exact absurd hi (by decide)
  · rw [h.sent, Finset.filter_true_of_mem, Finset.card_univ]
    intro i _
    rw [hall i]
    decide

end Order

end Smor.Console
