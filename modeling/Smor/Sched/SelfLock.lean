import Smor.Sched.Handover

/-!
# Handlers and the locks of the interrupted thread

A CPU takes its own lock only with interrupts off, so that the timer interrupt never finds it
taken by the thread that it has interrupted. `cpu_lock_id` leaves interrupts on. The handler of
the keyboard locks the CPU of the thread that it wakes, and this may be the CPU that the interrupted
thread has locked: then the handler waits for a thread that cannot go on before the handler
returns. This happens only if a key arrives between the lock and the release of a CPU.
-/

namespace Smor.Sched

open Smor.Lib

/-- An interrupt handler on the CPU `c` waits for a lock that was taken by the thread which it has
interrupted. -/
def Machine.SelfLocked (m : Machine) (c : ℕ) : Prop :=
  ∃ f ∈ (m.frames (m.world.cur c)).head?, f.entry = .interrupt ∧ f.code.head? = some .lock ∧
    m.lock f.cpu = some (c, m.world.cur c)

instance (m : Machine) (c : ℕ) : Decidable (m.SelfLocked c) :=
  inferInstanceAs (Decidable (∃ f ∈ (_ : Option Frame), _))

instance (m : Machine) (move : Move) : Decidable (m.Undisturbed move) :=
  match move with
  | .keyboard _ _ => inferInstanceAs (Decidable (_ → _))
  | .init _ | .call _ _ | .exec _ | .ret _ | .timer _ | .setIntr _ _ =>
    inferInstanceAs (Decidable True)

/-- The moves of a run in which no key arrives between the lock and the release of a CPU. -/
def Machine.Quiet (m : Machine) (move : Move) : Prop := m.Allowed move ∧ m.Undisturbed move

instance (m : Machine) (move : Move) : Decidable (m.Quiet move) :=
  inferInstanceAs (Decidable (_ ∧ _))

section Waiting

variable {m : Machine} {rings : ℕ → List ThreadRef} {modes : ThreadRef → List Mode} {c : ℕ}

/-- A function that is about to take the lock of a CPU does not find it taken by its own thread. -/
theorem MachineOk.lock_ne (h : MachineOk true m rings modes) (hc : c ∈ m.world.online)
    {f : Frame} {rest : List Frame} (hframes : m.frames (m.world.cur c) = f :: rest)
    (hcode : f.code.head? = some .lock) : m.lock f.cpu ≠ some (c, m.world.cur c) := by
  intro htaken
  obtain ⟨code, hcode⟩ := List.head?_eq_some_iff.mp hcode
  obtain ⟨mode, below, hmodes, hframe, hstack⟩ := h.innermost hc hframes
  have haccepts := hframe.accepts
  rw [hcode] at haccepts
  obtain ⟨mode', hmode, -⟩ := haccepts
  simp only [Instr.mode] at hmode
  split_ifs at hmode with hcond
  obtain ⟨hheld, hsome, -, hown⟩ := hcond
  obtain ⟨d, hd⟩ := Option.isSome_iff_exists.mp hsome
  rw [hframe.cpu d hd] at htaken
  by_cases hdc : d = c
  · -- the own lock would be held by the innermost function
    subst hdc
    obtain ⟨mode₁, hmode₁, hheld₁⟩ := (h.own d hc).mp ⟨_, htaken⟩
    rw [hmodes] at hmode₁
    obtain rfl := Option.some.inj hmode₁
    rw [hheld] at hheld₁
    exact absurd hheld₁ (by simp)
  · -- the lock of another CPU would be held by a function that has been interrupted
    obtain ⟨b, hb, hbd⟩ := (h.remote c hc _ (h.ring.cur c hc) d hdc).mp htaken
    rw [hmodes] at hb
    rcases List.mem_cons.mp hb with rfl | hb
    · rw [hheld] at hbd
      exact absurd hbd (by simp)
    have hcross : mode.own = false := by
      by_contra htrue
      rw [Bool.not_eq_false] at htrue
      exact hdc (Option.some.inj (hd.symm.trans (hown htrue)))
    have hnone := (List.pairwise_cons.mp (hstack.clear rfl)).1 b hb hcross
    rw [hnone] at hbd
    exact absurd hbd (by simp)

/-- A key arrives while the interrupted thread has locked the CPU of the first thread that waits
for the keyboard. -/
def Machine.Collides (k : ℕ) (m : Machine) (c code : ℕ) : Prop :=
  m.Allowed (.keyboard c code) ∧ Kbd.ordinary code = true ∧ m.listLock (.cond k) = false ∧
    (m.world.conds k).head ≠ .null ∧
    m.lock (m.world.mem.cpuId (m.world.conds k).head) = some (c, m.world.cur c)

instance (k : ℕ) (m : Machine) (c code : ℕ) : Decidable (m.Collides k c code) :=
  inferInstanceAs (Decidable (_ ∧ _))

/-- The handler then waits for this lock. -/
theorem Machine.Collides.selfLocked {k code : ℕ} (h : m.Collides k c code) :
    ∃ m', Reaches (Machine.step k) Machine.Allowed m m' ∧ m'.SelfLocked c := by
  obtain ⟨hallowed, hordinary, hfree, hhead, hlock⟩ := h
  have hrun : ∃ m', runOps (Machine.step k) Machine.Allowed m
      (.keyboard c code :: List.replicate 4 (.exec c)) = some m' ∧ m'.SelfLocked c := by
    simp [runOps, Machine.step, hordinary, Machine.interrupt, Code.irqHandler, Machine.setTop,
      Machine.exec, hfree, hhead, List.replicate, Machine.Allowed, hallowed.1, hallowed.2,
      Code.wakeFirst, World.unlist, World.cur, Code.cpuLockId, Machine.SelfLocked, hlock]
  obtain ⟨m', hm', hself⟩ := hrun
  exact ⟨m', Reaches.of_runOps hm', hself⟩

end Waiting

/-- In every run in which no key arrives between the lock and the release of a CPU, no handler
waits for a lock that was taken by the thread which it has interrupted. If a key arrives then, and
the first thread that waits for it is one of the locked CPU, its handler does. -/
theorem handler_not_selfLocked {m₀ m : Machine} {k c : ℕ} (h₀ : m₀.Boot)
    (hrun : Reaches (Machine.step k) Machine.Quiet m₀ m) (hc : c ∈ m.world.online) :
    ¬ m.SelfLocked c ∧ ∀ code, m.Collides k c code →
      ∃ m', Reaches (Machine.step k) Machine.Allowed m m' ∧ m'.SelfLocked c := by
  obtain ⟨rings, modes, h⟩ : ∃ rings modes, MachineOk true m rings modes :=
    machineOk_of_reaches h₀ (fun _ _ hmove => ⟨hmove.1, fun _ => hmove.2⟩) hrun
  refine ⟨?_, fun code hcollides => hcollides.selfLocked⟩
  rintro ⟨f, hf, -, hcode, htaken⟩
  obtain ⟨rest, hframes⟩ := List.head?_eq_some_iff.mp hf
  exact h.lock_ne hc hframes hcode htaken

/-- Two CPUs, and a thread of the second that waits for the keyboard. -/
def waitingReader : List Move :=
  [Move.init 0, .init 1, .setIntr 0 true, .setIntr 1 true] ++ callMoves 1 7 (.create 1 6) ++
    (List.replicate 7 (tickMoves 1)).flatten ++ Move.timer 1 :: List.replicate 6 (Move.exec 1) ++
    Move.call 1 (.condWaits 0 1) :: List.replicate 9 (Move.exec 1)

/-- The idle thread of the first CPU has locked the second to create a thread. -/
def remoteLock : List Move := [.call 0 (.create 1 7), .exec 0, .exec 0]

/-- A key with the code of the letter `a`, and the handler up to its lock. -/
def keyMoves : List Move := .keyboard 0 0x1E :: List.replicate 4 (.exec 0)

/-- No key has arrived, and no handler waits; the next key makes its handler wait. -/
theorem handler_not_selfLocked_remoteLock :
    ∃ m : Machine, Reaches (Machine.step 0) Machine.Quiet Machine.blank m ∧ ¬ m.SelfLocked 0 ∧
      m.Collides 0 0 0x1E ∧
      ∃ m', Reaches (Machine.step 0) Machine.Allowed m m' ∧ m'.SelfLocked 0 := by
  have hrun : ((runOps (Machine.step 0) Machine.Quiet Machine.blank
      (waitingReader ++ remoteLock)).map fun m =>
        (decide (0 ∈ m.world.online), decide (m.Collides 0 0 0x1E))) =
      some (true, true) := by decide +kernel
  obtain ⟨m, hm, hvalue⟩ := Option.map_eq_some_iff.mp hrun
  simp only [Prod.mk.injEq, decide_eq_true_eq] at hvalue
  obtain ⟨honline, hcollides⟩ := hvalue
  have hreach := Reaches.of_runOps hm
  obtain ⟨hnot, hkey⟩ := handler_not_selfLocked Machine.blank_boot hreach honline
  exact ⟨m, hreach, hnot, hcollides, hkey _ hcollides⟩

/-- A key arrives while the first CPU creates a thread for the second, and the handler waits with
interrupts off. -/
theorem key_selfLocks :
    ∃ m : Machine, Reaches (Machine.step 0) Machine.Allowed Machine.blank m ∧
      0 ∈ m.world.online ∧ m.SelfLocked 0 ∧ m.intr 0 = false ∧ m.step 0 (.exec 0) = none := by
  have hrun : ((runOps (Machine.step 0) Machine.Allowed Machine.blank
      (waitingReader ++ remoteLock ++ keyMoves)).map fun m =>
        (decide (0 ∈ m.world.online), decide (m.SelfLocked 0), m.intr 0,
          (m.step 0 (.exec 0)).isNone)) =
      some (true, true, false, true) := by decide +kernel
  obtain ⟨m, hm, hvalue⟩ := Option.map_eq_some_iff.mp hrun
  simp only [Prod.mk.injEq, decide_eq_true_eq, Option.isNone_iff_eq_none] at hvalue
  obtain ⟨honline, hself, hintr, hstep⟩ := hvalue
  exact ⟨m, Reaches.of_runOps hm, honline, hself, hintr, hstep⟩

end Smor.Sched
