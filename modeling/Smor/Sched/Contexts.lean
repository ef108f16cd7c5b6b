import Smor.Kbd.Keyboard
import Smor.Sched.Rings
import Smor.Sched.WaitLists

/-!
# Contexts: locks, interrupts, and context switches

The operations of `World` are sections of kernel functions that hold the lock of a CPU. Here
the functions are taken apart into steps, so that interrupts and other CPUs come in between. A
thread has a stack of frames: the kernel function that it is in, and the interrupt handlers that
have interrupted it. A context switch makes another thread current, which then continues
with its own frames; a new thread starts with the frame that `thread_create` builds. The output
of `sched_dump` and `cpu_show_cmd` is left out, and of the timer interrupt what is not the
scheduler's.
-/

namespace Smor.Sched

open Smor.Lib

/-- The steps of kernel functions. The variables `cpu` and `spl` are those of the frame. -/
inductive Instr where
  /-- `spl = cpu_splhi()`. -/
  | splhi
  /-- `cpu = get_cpu()`. -/
  | getCpu
  /-- `cpu = &cpus[id]`. -/
  | cpuAt (id : ℕ)
  /-- `spinlock_lock(&cpu->lock)`. -/
  | lock
  /-- `spinlock_unlock(&cpu->lock)`. -/
  | unlock
  /-- `cpu->spl = spl`. -/
  | keepSpl
  /-- `cpu_splx(cpu->spl)`. -/
  | restoreSpl
  /-- `cpu_splx(spl)`. -/
  | splx
  /-- `sched_tick(cpu)`. -/
  | tick
  /-- `sched_sleep` under the lock. -/
  | sleep (ms : ℕ)
  /-- `sched_yield_locked(cpu)`. -/
  | yieldLocked
  /-- `thread_create` under the lock, with the address of the thread. -/
  | create (n : ℕ)
  /-- `t->state = THREAD_STATE_RUNNING`. -/
  | wake (t : ThreadRef)
  /-- `spinlock_lock` of the lock of a wait list. -/
  | listLock (i : WaitId)
  /-- `spinlock_unlock` of the lock of a wait list. -/
  | listUnlock (i : WaitId)
  /-- `thread_list_push(.., cpu->cur_thread)`. -/
  | push (i : WaitId)
  /-- `thread_list_pop`. -/
  | pop (i : WaitId)
  /-- `s->count--` and `s->count++`. -/
  | addCount (s : ℕ) (d : ℤ)
  /-- The test of `sema_wait`. -/
  | semaTest (s : ℕ)
  /-- The test of `sema_signal`. -/
  | semaSignalTest (s : ℕ)
  /-- The test of `cond_signal`, in `irq_handler`. -/
  | condSignalTest (k : ℕ)
  /-- `iretq`. -/
  | iret
  deriving DecidableEq

namespace Code

/-- `cpu_lock`. -/
def cpuLock : List Instr := [.getCpu, .lock]

/-- `cpu_lock_id`. -/
def cpuLockId (id : ℕ) : List Instr := [.cpuAt id, .lock]

/-- `cpu_unlock`. -/
def cpuUnlock : List Instr := [.unlock]

/-- `cpu_lock_splhi`. -/
def cpuLockSplhi : List Instr := [.splhi, .getCpu, .lock, .keepSpl]

/-- `cpu_unlock_splx`. -/
def cpuUnlockSplx : List Instr := [.unlock, .restoreSpl]

/-- `cpu_lock_smp` on the CPU `c`. -/
def cpuLockSmp (c id : ℕ) : List Instr := if c = id then cpuLockSplhi else cpuLockId id

/-- `cpu_unlock_smp` on the CPU `c`. -/
def cpuUnlockSmp (c id : ℕ) : List Instr := if c = id then cpuUnlockSplx else cpuUnlock

/-- `thread_start`, and the return to `_isr_ret`. -/
def threadStart : List Instr := [.getCpu, .unlock, .iret]

/-- `timer_irq_handler`, and the return from the interrupt. -/
def timerIrqHandler : List Instr := cpuLock ++ [Instr.tick] ++ cpuUnlock ++ [Instr.iret]

/-- `sched_yield`. -/
def schedYield : List Instr := cpuLockSplhi ++ [Instr.yieldLocked] ++ cpuUnlockSplx

/-- `sched_sleep`. -/
def schedSleep (ms : ℕ) : List Instr := cpuLockSplhi ++ [Instr.sleep ms] ++ cpuUnlockSplx

/-- `sched_dump`. -/
def schedDump : List Instr := cpuLockSplhi ++ cpuUnlockSplx

/-- `thread_create` on the CPU `c` for the CPU `id`, once it has the memory of the thread. -/
def threadCreate (c id n : ℕ) : List Instr :=
  cpuLockSmp c id ++ [Instr.create n] ++ cpuUnlockSmp c id

/-- `thread_wakeup` on the CPU `c` for a thread of the CPU `id`. -/
def threadWakeup (c id : ℕ) (t : ThreadRef) : List Instr :=
  cpuLockSmp c id ++ [Instr.wake t] ++ cpuUnlockSmp c id

/-- `cpu_show_cmd` on the CPU `c`. -/
def cpuShowCmd (c numCpus : ℕ) : List Instr :=
  (List.range numCpus).flatMap fun id => cpuLockSmp c id ++ cpuUnlockSmp c id

/-- `sema_wait`, up to its test. -/
def semaWait (s : ℕ) : List Instr := [.splhi, .listLock (.sema s), .semaTest s]

/-- `sema_wait` if the count is positive. -/
def semaTake (s : ℕ) : List Instr := [.addCount s (-1), .listUnlock (.sema s), .splx]

/-- `sema_wait` if it has to wait. -/
def semaBlock (s : ℕ) : List Instr :=
  cpuLock ++ [Instr.push (.sema s), .listUnlock (.sema s), .yieldLocked] ++ cpuUnlock ++
    [Instr.splx]

/-- `sema_signal`, up to its test. -/
def semaSignal (s : ℕ) : List Instr := [.splhi, .listLock (.sema s), .semaSignalTest s]

/-- `sema_signal` if no thread waits. -/
def semaGive (s : ℕ) : List Instr := [.addCount s 1, .listUnlock (.sema s), .splx]

/-- A signal to the first thread `t` of a list, which is a thread of the CPU `id`. -/
def wakeFirst (i : WaitId) (t : ThreadRef) (id : ℕ) : List Instr :=
  [Instr.pop i] ++ cpuLockId id ++ [Instr.wake t] ++ cpuUnlock

/-- `cond_wait`. -/
def condWait (k : ℕ) : List Instr :=
  cpuLock ++ [Instr.push (.cond k), .listUnlock (.cond k), .yieldLocked] ++ cpuUnlock ++
    [Instr.listLock (.cond k)]

/-- A function such as `kbd_read` that calls `cond_wait` in a loop, under a lock at splhi. -/
def condWaits (k rounds : ℕ) : List Instr :=
  [Instr.splhi, .listLock (.cond k)] ++ (List.replicate rounds (condWait k)).flatten ++
    [Instr.listUnlock (.cond k), .splx]

/-- `irq_handler` of the keyboard for a code that is stored, up to the test of `cond_signal`. -/
def irqHandler (k : ℕ) : List Instr := [.listLock (.cond k), .condSignalTest k]

end Code

/-- How a frame was entered. -/
inductive Entry where
  | call
  | interrupt
  deriving DecidableEq

/-- A kernel function that has not returned. -/
structure Frame where
  entry : Entry
  /-- The interrupt flag at the entry. Interrupts have it in `struct isr_frame_t`. -/
  flags : Bool
  /-- What is left to do. -/
  code : List Instr
  cpu : ℕ
  spl : Bool
  deriving DecidableEq

/-- The frame that `thread_create` builds for a new thread. -/
def Frame.fresh : Frame := ⟨.interrupt, true, Code.threadStart, 0, false⟩

/-- The calls of threads. -/
inductive Call where
  | sleep (ms : ℕ)
  | yield
  | dump
  | create (id n : ℕ)
  | wakeup (t : ThreadRef)
  | showCpus (numCpus : ℕ)
  | semaWait (s : ℕ)
  | semaSignal (s : ℕ)
  | condWaits (k rounds : ℕ)
  deriving DecidableEq

/-- The code of a call on the CPU `c`. -/
def Call.code (h : Threads) (c : ℕ) : Call → List Instr
  | .sleep ms => Code.schedSleep ms
  | .yield => Code.schedYield
  | .dump => Code.schedDump
  | .create id n => Code.threadCreate c id n
  | .wakeup t => Code.threadWakeup c (h.cpuId t) t
  | .showCpus numCpus => Code.cpuShowCmd c numCpus
  | .semaWait s => Code.semaWait s
  | .semaSignal s => Code.semaSignal s
  | .condWaits k rounds => Code.condWaits k rounds

/-- The push of the current thread of a CPU on a wait list. -/
def World.block (w : World) (c : ℕ) : WaitId → World
  | .sema s => w.blockSema c s
  | .cond k => w.blockCond c k

/-- The pop of the first thread of a wait list. -/
def World.unlist (w : World) : WaitId → World
  | .sema s => { w with
      semas := Function.update w.semas s
        { w.semas s with threads := (w.semas s).threads.pop w.mem } }
  | .cond k => { w with conds := Function.update w.conds k ((w.conds k).pop w.mem) }

/-- The CPUs and threads with all that a context switch and an interrupt see. -/
structure Machine where
  world : World
  /-- The interrupt flag of each CPU. -/
  intr : ℕ → Bool
  /-- The field `spl` of each CPU. -/
  spl : ℕ → Bool
  /-- The field `lock` of each CPU, with the CPU and the thread that have taken it. -/
  lock : ℕ → Option (ℕ × ThreadRef)
  /-- The locks of the wait lists. -/
  listLock : WaitId → Bool
  /-- The functions that each thread is in, the innermost first. -/
  frames : ThreadRef → List Frame

namespace Machine

/-- New frames for the current thread of a CPU. -/
def setTop (m : Machine) (c : ℕ) (frames : List Frame) : Machine :=
  { m with frames := Function.update m.frames (m.world.cur c) frames }

@[simp] theorem setTop_frames (m : Machine) (c : ℕ) (frames : List Frame) :
    (m.setTop c frames).frames = Function.update m.frames (m.world.cur c) frames := rfl

/-- One step of the innermost function of the current thread of the CPU `c`. The frame `f` has
what comes after the step. -/
def exec (m : Machine) (c : ℕ) (f : Frame) (rest : List Frame) : Instr → Option Machine
  | .splhi => some { m.setTop c ({ f with spl := m.intr c } :: rest) with
      intr := Function.update m.intr c false }
  | .getCpu => some (m.setTop c ({ f with cpu := c } :: rest))
  | .cpuAt id => some (m.setTop c ({ f with cpu := id } :: rest))
  | .lock =>
    if m.lock f.cpu = none then
      some { m.setTop c (f :: rest) with
        lock := Function.update m.lock f.cpu (some (c, m.world.cur c)) }
    else none
  | .unlock => some { m.setTop c (f :: rest) with lock := Function.update m.lock f.cpu none }
  | .keepSpl => some { m.setTop c (f :: rest) with spl := Function.update m.spl f.cpu f.spl }
  | .restoreSpl => some { m.setTop c (f :: rest) with
      intr := Function.update m.intr c (m.intr c || m.spl f.cpu) }
  | .splx => some { m.setTop c (f :: rest) with
      intr := Function.update m.intr c (m.intr c || f.spl) }
  | .tick => (m.world.step (.tick c)).map fun w => { m.setTop c (f :: rest) with world := w }
  | .sleep ms =>
    (m.world.step (.sleep c ms)).map fun w => { m.setTop c (f :: rest) with world := w }
  | .yieldLocked =>
    (m.world.step (.finishWait c)).map fun w => { m.setTop c (f :: rest) with world := w }
  | .create n =>
    -- the thread is a new one, for a CPU that is up
    if n ∈ m.world.live ∨ f.cpu ∉ m.world.online then none
    else (m.world.step (.create f.cpu n)).map fun w =>
      { m with
        world := w
        frames := Function.update (m.setTop c (f :: rest)).frames (.alloc n) [Frame.fresh] }
  | .wake t => some { m.setTop c (f :: rest) with
      world := { m.world with mem := Sched.wake m.world.mem t } }
  | .listLock i =>
    if m.listLock i then none
    else some { m.setTop c (f :: rest) with listLock := Function.update m.listLock i true }
  | .listUnlock i => some { m.setTop c (f :: rest) with
      listLock := Function.update m.listLock i false }
  | .push i => some { m.setTop c (f :: rest) with world := m.world.block c i }
  | .pop i => some { m.setTop c (f :: rest) with world := m.world.unlist i }
  | .addCount s d => some { m.setTop c (f :: rest) with world := m.world.addCount s d }
  | .semaTest s =>
    let code := if 0 < (m.world.semas s).count then Code.semaTake s else Code.semaBlock s
    some (m.setTop c ({ f with code := code ++ f.code } :: rest))
  | .semaSignalTest s =>
    let t := (m.world.semas s).threads.head
    let code :=
      if t = .null then Code.semaGive s
      else Code.wakeFirst (.sema s) t (m.world.mem.cpuId t) ++ [Instr.listUnlock (.sema s), .splx]
    some (m.setTop c ({ f with code := code ++ f.code } :: rest))
  | .condSignalTest k =>
    let t := (m.world.conds k).head
    let code := if t = .null then [] else Code.wakeFirst (.cond k) t (m.world.mem.cpuId t)
    some (m.setTop c
      ({ f with code := code ++ [Instr.listUnlock (.cond k), .iret] ++ f.code } :: rest))
  | .iret => some { m.setTop c rest with intr := Function.update m.intr c f.flags }

/-- An interrupt of the CPU `c`, through an interrupt gate. -/
def interrupt (m : Machine) (c : ℕ) (code : List Instr) : Machine :=
  { m.setTop c (⟨.interrupt, m.intr c, code, 0, false⟩ :: m.frames (m.world.cur c)) with
    intr := Function.update m.intr c false }

end Machine

/-- What can happen next on a CPU. -/
inductive Move where
  /-- The CPU is set up by `sched_init_cpu`. -/
  | init (c : ℕ)
  /-- The current thread, outside of the kernel functions, makes a call. -/
  | call (c : ℕ) (call : Call)
  /-- The current thread does the next step of the function that it is in. -/
  | exec (c : ℕ)
  /-- The call of the current thread returns. -/
  | ret (c : ℕ)
  /-- A timer interrupt. -/
  | timer (c : ℕ)
  /-- A keyboard interrupt with a scan code. -/
  | keyboard (c code : ℕ)
  /-- The current thread, outside of the kernel functions, enables or disables interrupts. -/
  | setIntr (c : ℕ) (enabled : Bool)
  deriving DecidableEq

namespace Machine

/-- One move, where `k` is the condition of the keyboard. -/
def step (k : ℕ) (m : Machine) : Move → Option Machine
  | .init c => (m.world.step (.initCpu c)).map fun w =>
      { m with
        world := w
        intr := Function.update m.intr c false
        frames := Function.update m.frames (.idle c) [] }
  | .call c call =>
    some (m.setTop c (⟨.call, m.intr c, call.code m.world.mem c, 0, false⟩ ::
      m.frames (m.world.cur c)))
  | .exec c =>
    match m.frames (m.world.cur c) with
    | [] => none
    | f :: rest =>
      match f.code with
      | [] => none
      | i :: code => m.exec c { f with code := code } rest i
  | .ret c =>
    match m.frames (m.world.cur c) with
    | [] => none
    | f :: rest => if f.entry = .call ∧ f.code = [] then some (m.setTop c rest) else none
  | .timer c => some (m.interrupt c Code.timerIrqHandler)
  | .keyboard c code =>
    some (m.interrupt c (if Kbd.ordinary code then Code.irqHandler k else [.iret]))
  | .setIntr c enabled => some { m with intr := Function.update m.intr c enabled }

theorem step_exec {m : Machine} {k c : ℕ} {f : Frame} {rest : List Frame} {i : Instr}
    {code : List Instr} (hframes : m.frames (m.world.cur c) = f :: rest)
    (hcode : f.code = i :: code) :
    m.step k (.exec c) = m.exec c { f with code := code } rest i := by
  simp only [step, hframes, hcode]

/-- When a move can happen: calls are made outside of the kernel functions, and interrupts come
when they are enabled. -/
def Allowed (m : Machine) : Move → Prop
  | .init c => c ∉ m.world.online
  | .call c _ | .setIntr c _ => c ∈ m.world.online ∧ m.frames (m.world.cur c) = []
  | .exec c | .ret c => c ∈ m.world.online
  | .timer c | .keyboard c _ => c ∈ m.world.online ∧ m.intr c = true

instance (m : Machine) (move : Move) : Decidable (m.Allowed move) :=
  match move with
  | .init _ => inferInstanceAs (Decidable (_ ∉ _))
  | .exec _ | .ret _ => inferInstanceAs (Decidable (_ ∈ _))
  | .call _ _ | .setIntr _ _ | .timer _ | .keyboard _ _ => inferInstanceAs (Decidable (_ ∧ _))

/-- The next step of the current thread of a CPU. -/
def next (m : Machine) (c : ℕ) : Option Instr :=
  (m.frames (m.world.cur c)).head?.bind fun f => f.code.head?

/-- A CPU holds its own lock. -/
def HoldsOwn (m : Machine) (c : ℕ) : Prop := ∃ t, m.lock c = some (c, t)

/-- Memory before any CPU is up. -/
def Boot (m : Machine) : Prop := m.world.Boot ∧ ∀ c, m.lock c = none

end Machine

end Smor.Sched
