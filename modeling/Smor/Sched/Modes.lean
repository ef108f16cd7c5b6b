import Smor.Sched.Contexts

/-!
# The discipline of locks and interrupts

What is known at a point of a kernel function: its variable `cpu`, the CPU lock that it holds, and
whether interrupts are off. `Instr.mode` follows this through the steps of a function and
refuses the steps that break the discipline: a lock is released only by a function that holds
it, the scheduler is entered only with the lock of the own CPU and with interrupts off, the
own lock is taken only with interrupts off, and no function returns with a lock. `Accepts` is the
check of the rest of a function, and all functions pass it. The timer interrupt and the start of a
thread pass it also as functions that take no lock but that of their CPU.
-/

namespace Smor.Sched

/-- What is known at a point of a function. -/
structure Mode where
  /-- The variable `cpu`, if it is known. -/
  cpu : Option ℕ
  /-- The CPU lock that the function holds. -/
  held : Option ℕ
  /-- Interrupts are off. -/
  hi : Bool
  /-- The variable `spl` is zero. -/
  loc : Bool
  /-- The field `spl` of the CPU is zero. -/
  glob : Bool
  /-- The function takes no lock but that of its CPU. -/
  own : Bool

/-- At the entry of a function nothing is known but whether interrupts are off. -/
def Mode.entry (hi own : Bool) : Mode := ⟨none, none, hi, false, false, own⟩

/-- The mode of a function that has been switched away from. -/
def Mode.suspended (c : ℕ) (mode : Mode) : Prop := mode.held = some c ∧ mode.glob = false

/-- What is known after a step on the CPU `c`; `none` if the step breaks the discipline. -/
def Instr.mode (c : ℕ) (m : Mode) : Instr → Option Mode
  | .splhi => some { m with hi := true, loc := m.hi }
  | .getCpu => some { m with cpu := some c }
  | .cpuAt id => some { m with cpu := some id }
  | .lock =>
    if m.held = none ∧ m.cpu.isSome ∧ (m.cpu = some c → m.hi = true) ∧
        (m.own = true → m.cpu = some c) then
      some { m with held := m.cpu }
    else none
  | .unlock => if m.held.isSome ∧ m.held = m.cpu then some { m with held := none } else none
  | .keepSpl =>
    if m.held = some c ∧ m.cpu = some c then some { m with glob := m.loc } else none
  | .restoreSpl =>
    if m.held = none ∧ m.cpu = some c then some { m with hi := m.hi && m.glob, glob := false }
    else none
  | .splx => if m.held = none then some { m with hi := m.hi && m.loc, glob := false } else none
  | .tick | .sleep _ | .yieldLocked =>
    if m.held = some c then some { m with glob := false } else none
  | .create _ | .wake _ => if m.held.isSome ∧ m.held = m.cpu then some m else none
  | .push _ => if m.held = some c then some m else none
  | .listLock _ | .listUnlock _ | .pop _ | .addCount _ _ => some m
  | .semaTest _ | .semaSignalTest _ | .condSignalTest _ =>
    if m.held = none ∧ m.hi = true ∧ m.own = false then some m else none
  | .iret => if m.held = none then some m else none

/-- The steps that choose what is left to do. -/
def Instr.isTest : Instr → Bool
  | .semaTest _ | .semaSignalTest _ | .condSignalTest _ => true
  | _ => false

/-- The steps that call the scheduler. -/
def Instr.switches : Instr → Bool
  | .tick | .sleep _ | .yieldLocked => true
  | _ => false

/-- The steps of a function keep to the discipline. A test and an `iretq` come last, and the
scheduler returns to the release of the lock. -/
def Accepts (c : ℕ) : Mode → List Instr → Prop
  | m, [] => m.held = none
  | m, i :: code => ∃ m', i.mode c m = some m' ∧
      ((i.isTest = true ∨ i = .iret) → code = []) ∧
      (i.switches = true → code.head? = some .unlock) ∧ Accepts c m' code

/-- What holds of the modes that occur: the own lock is held with interrupts off. -/
structure Mode.Wf (c : ℕ) (m : Mode) : Prop where
  glob : m.glob = true → m.hi = true
  held : m.held = some c → m.hi = true

section Accepted

variable {c : ℕ} {m m' : Mode}

/-- A step keeps the modes well-formed. -/
theorem Mode.Wf.step (h : m.Wf c) {i : Instr} (hstep : i.mode c m = some m') : m'.Wf c := by
  obtain ⟨hglob, hheld⟩ := h
  cases i with
  | lock =>
    simp only [Instr.mode] at hstep
    split_ifs at hstep with hcond
    cases hstep
    obtain ⟨-, -, hhi, -⟩ := hcond
    exact ⟨hglob, hhi⟩
  | keepSpl =>
    simp only [Instr.mode] at hstep
    split_ifs at hstep with hcond
    cases hstep
    exact ⟨fun _ => hheld hcond.1, hheld⟩
  | restoreSpl | splx =>
    simp only [Instr.mode] at hstep
    split_ifs at hstep with hcond
    cases hstep
    constructor <;> simp [hcond]
  | splhi =>
    cases hstep
    exact ⟨fun _ => rfl, fun _ => rfl⟩
  | unlock =>
    simp only [Instr.mode] at hstep
    split_ifs at hstep
    cases hstep
    exact ⟨hglob, fun h => nomatch h⟩
  | tick | sleep ms | yieldLocked =>
    simp only [Instr.mode] at hstep
    split_ifs at hstep
    cases hstep
    exact ⟨(fun h => nomatch h), hheld⟩
  | getCpu | cpuAt id | listLock j | listUnlock j | pop j | addCount s d =>
    cases hstep
    exact ⟨hglob, hheld⟩
  | create n | wake t | push j | semaTest s | semaSignalTest s | condSignalTest k | iret =>
    simp only [Instr.mode] at hstep
    split_ifs at hstep
    cases hstep
    exact ⟨hglob, hheld⟩

theorem Mode.entry_wf (hi own : Bool) : (Mode.entry hi own).Wf c :=
  ⟨(fun h => nomatch h), fun h => nomatch h⟩

/-- Only these steps change which lock is held, and none changes what the function may take. -/
theorem Instr.held_mode {i : Instr} (hmode : i.mode c m = some m') :
    (i ≠ .lock → i ≠ .unlock → m'.held = m.held) ∧ m'.own = m.own := by
  cases i with
  | lock | unlock =>
    simp only [Instr.mode] at hmode
    split_ifs at hmode
    cases hmode
    simp
  | splhi | getCpu | cpuAt id | listLock j | listUnlock j | pop j | addCount s d =>
    cases hmode
    exact ⟨fun _ _ => rfl, rfl⟩
  | keepSpl | restoreSpl | splx | tick | sleep ms | yieldLocked | create n | wake t | push j
  | semaTest s | semaSignalTest s | condSignalTest k | iret =>
    simp only [Instr.mode] at hmode
    split_ifs at hmode
    cases hmode
    exact ⟨fun _ _ => rfl, rfl⟩

/-- The sections between `cpu_lock_smp` and `cpu_unlock_smp`. -/
theorem accepts_smp (id : ℕ) (body code : List Instr) (hm : m.held = none) (hown : m.own = false)
    (hbody : body = [] ∨ (∃ n, body = [.create n]) ∨ ∃ t, body = [.wake t])
    (hcode : ∀ m', m'.held = none → m'.own = false → Accepts c m' code) :
    Accepts c m (Code.cpuLockSmp c id ++ body ++ Code.cpuUnlockSmp c id ++ code) := by
  unfold Code.cpuLockSmp Code.cpuUnlockSmp
  by_cases heq : c = id
  · subst heq
    have hrest := hcode { m with
      cpu := some c, held := none, hi := m.hi, loc := m.hi, glob := false } rfl hown
    rcases hbody with rfl | ⟨n, rfl⟩ | ⟨t, rfl⟩ <;>
    simpa [Code.cpuLockSplhi, Code.cpuUnlockSplx, Accepts, Instr.mode, Instr.isTest,
      Instr.switches, hm] using hrest
  · have hrest := hcode { m with cpu := some id, held := none } rfl hown
    rcases hbody with rfl | ⟨n, rfl⟩ | ⟨t, rfl⟩ <;>
    simpa [Code.cpuLockId, Code.cpuUnlock, Accepts, Instr.mode, Instr.isTest, Instr.switches, hm,
      hown, heq, Ne.symm heq] using hrest

/-- `cpu_show_cmd`. -/
theorem accepts_cpuShowCmd {ids : List ℕ} (hm : m.held = none) (hown : m.own = false) :
    Accepts c m (ids.flatMap fun id => Code.cpuLockSmp c id ++ Code.cpuUnlockSmp c id) := by
  induction ids generalizing m with
  | nil => exact hm
  | cons id ids ih =>
    have hsection := accepts_smp id []
      (ids.flatMap fun id => Code.cpuLockSmp c id ++ Code.cpuUnlockSmp c id) hm hown (Or.inl rfl)
      fun m' hm' hown' => ih hm' hown'
    simpa using hsection

/-- `cond_wait`, called at splhi. -/
theorem accepts_condWaits (k rounds : ℕ) (hm : m.held = none) (hhi : m.hi = true) :
    Accepts c m ((List.replicate rounds (Code.condWait k)).flatten ++
      [Instr.listUnlock (.cond k), .splx]) := by
  induction rounds generalizing m with
  | zero => simp [Accepts, Instr.mode, Instr.isTest, Instr.switches, hm]
  | succ rounds ih =>
    have hrest := ih (m := { m with cpu := some c, held := none, glob := false }) rfl hhi
    simpa [List.replicate_succ, Code.condWait, Code.cpuLock, Code.cpuUnlock, Accepts, Instr.mode,
      Instr.isTest, Instr.switches, hm, hhi] using hrest

/-- All calls keep to the discipline. -/
theorem Call.accepts (h : Threads) (call : Call) (hm : m.held = none) (hown : m.own = false) :
    Accepts c m (call.code h c) := by
  cases call with
  | sleep ms | yield | dump =>
    simp [Call.code, Code.schedSleep, Code.schedYield, Code.schedDump, Code.cpuLockSplhi,
      Code.cpuUnlockSplx, Accepts, Instr.mode, Instr.isTest, Instr.switches, hm]
  | create id n =>
    have hsection := accepts_smp (c := c) id [.create n] [] hm hown (Or.inr (Or.inl ⟨n, rfl⟩))
      fun _ hm' _ => hm'
    simpa [Call.code, Code.threadCreate] using hsection
  | wakeup t =>
    have hsection := accepts_smp (c := c) (h.cpuId t) [.wake t] [] hm hown
      (Or.inr (Or.inr ⟨t, rfl⟩)) fun _ hm' _ => hm'
    simpa [Call.code, Code.threadWakeup] using hsection
  | showCpus numCpus => exact accepts_cpuShowCmd hm hown
  | semaWait s | semaSignal s =>
    simp [Call.code, Code.semaWait, Code.semaSignal, Accepts, Instr.mode, Instr.isTest,
      Instr.switches, hm, hown]
  | condWaits k rounds =>
    have hrest : Accepts c { m with hi := true, loc := m.hi } _ :=
      accepts_condWaits k rounds hm rfl
    simpa [Call.code, Code.condWaits, Accepts, Instr.mode, Instr.isTest, Instr.switches] using hrest

/-- What is left to do after a test keeps to the discipline. -/
theorem accepts_branches (hm : m.held = none ∧ m.hi = true ∧ m.own = false) (s k id : ℕ)
    (t : ThreadRef) :
    Accepts c m (Code.semaTake s) ∧ Accepts c m (Code.semaBlock s) ∧
    Accepts c m (Code.semaGive s) ∧
    Accepts c m (Code.wakeFirst (.sema s) t id ++ [Instr.listUnlock (.sema s), .splx]) ∧
    Accepts c m [.listUnlock (.cond k), .iret] ∧
    Accepts c m (Code.wakeFirst (.cond k) t id ++ [Instr.listUnlock (.cond k), .iret]) := by
  obtain ⟨hheld, hhi, hown⟩ := hm
  simp [Code.semaTake, Code.semaBlock, Code.semaGive, Code.wakeFirst, Code.cpuLock, Code.cpuLockId,
    Code.cpuUnlock, Accepts, Instr.mode, Instr.isTest, Instr.switches, hheld, hhi, hown]

/-- The interrupt handlers, and the start of a new thread. Only the handler of the keyboard takes
the lock of another CPU. -/
theorem accepts_handlers (k : ℕ) :
    Accepts c (Mode.entry true true) Code.timerIrqHandler ∧
    Accepts c (Mode.entry true false) (Code.irqHandler k) ∧
    Accepts c (Mode.entry true true) [.iret] ∧
    Accepts c { Mode.entry true true with held := some c } Code.threadStart := by
  simp [Code.timerIrqHandler, Code.irqHandler, Code.threadStart, Code.cpuLock, Code.cpuUnlock,
    Mode.entry, Accepts, Instr.mode, Instr.isTest, Instr.switches]

/-- The next step of a function that takes or releases the lock of a CPU. -/
def nextLockStep (code : List Instr) : Option Instr :=
  code.find? fun i => i = .lock ∨ i = .unlock

/-- A function that holds the lock of a CPU releases it next, and one that holds none does not
release any before it has taken one. -/
theorem Accepts.nextLockStep {code : List Instr} (h : Accepts c m code) :
    nextLockStep code = some .unlock ↔ m.held ≠ none := by
  induction code generalizing m with
  | nil =>
    have hheld : m.held = none := h
    simp [Sched.nextLockStep, hheld]
  | cons i code ih =>
    obtain ⟨m', hmode, -, -, hrest⟩ := h
    by_cases hlock : i = .lock
    · subst hlock
      simp only [Instr.mode] at hmode
      split_ifs at hmode with hcond
      simp [Sched.nextLockStep, hcond.1]
    by_cases hunlock : i = .unlock
    · subst hunlock
      simp only [Instr.mode] at hmode
      split_ifs at hmode with hcond
      have hheld : m.held ≠ none := Option.isSome_iff_ne_none.mp hcond.1
      simp [Sched.nextLockStep, hheld]
    · rw [← (Instr.held_mode hmode).1 hlock hunlock, ← ih hrest]
      simp [Sched.nextLockStep, hlock, hunlock]

end Accepted

end Smor.Sched
