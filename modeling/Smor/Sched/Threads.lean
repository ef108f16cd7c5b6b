import Smor.Lib.Ring
import Smor.Types
import Mathlib.Data.Finset.Card
import Mathlib.Data.Int.Notation

/-!
# Threads and the scheduler

Every CPU keeps its threads in a ring whose head is its idle thread. `sched_next` picks the
runnable thread with the largest remaining quantum and refills all quanta when that is 0.
The fields of `struct thread_t` are separate functions on thread addresses. A thread that is
switched to continues where it switched away, so the switch itself is the change of
`cur_thread`. The loops over a ring are limited to the number of threads that exist.
-/

namespace Smor.Sched

open Smor.Lib

/-- The address of a `struct thread_t`: the idle thread of a CPU, or one from the slab
allocator. -/
inductive ThreadRef
  | null
  | idle (cpu : ℕ)
  | alloc (n : ℕ)
  deriving DecidableEq

/-- `THREAD_STATE_RUNNING` and `THREAD_STATE_SLEEPING`. -/
inductive ThreadState
  | running
  | sleeping
  deriving DecidableEq

/-- The fields of all threads. -/
structure Threads where
  next : ThreadRef → ThreadRef
  prev : ThreadRef → ThreadRef
  nextWait : ThreadRef → ThreadRef
  ticks : ThreadRef → ℕ
  id : ThreadRef → ℕ
  cpuId : ThreadRef → ℕ
  state : ThreadRef → ThreadState
  sleepTime : ThreadRef → ℕ
  /-- `THREAD_FLAG_SLEEP_TIMER` in `flags`. -/
  sleepTimer : ThreadRef → Bool
  pri : ThreadRef → ℤ
  cnt : ThreadRef → ℤ

/-- The fields of `struct cpu_desc_t` that the scheduler uses. -/
structure Cpu where
  threads : ThreadRef
  curThread : ThreadRef
  idCnt : ℕ

/-- `THREAD_DEFAULT_PRI`. -/
def threadDefaultPri : ℤ := 8

/-- `queue_push_back`: the head and the links afterwards. -/
def queuePushBack (h : Threads) (head elem : ThreadRef) : ThreadRef × Threads :=
  if head = .null then
    (elem, { h with
      next := Function.update h.next elem elem
      prev := Function.update h.prev elem elem })
  else
    let last := h.prev head
    (head, { h with
      next := Function.update (Function.update h.next elem head) last elem
      prev := Function.update (Function.update h.prev elem last) head elem })

/-- The assignments to a new thread in `setup_idle_thread` and `thread_create`. -/
def initThread (h : Threads) (t : ThreadRef) (id cpuId : ℕ) : Threads where
  next := Function.update h.next t .null
  prev := Function.update h.prev t .null
  nextWait := Function.update h.nextWait t .null
  ticks := Function.update h.ticks t 0
  id := Function.update h.id t id
  cpuId := Function.update h.cpuId t cpuId
  state := Function.update h.state t .running
  sleepTime := Function.update h.sleepTime t 0
  sleepTimer := Function.update h.sleepTimer t false
  pri := Function.update h.pri t threadDefaultPri
  cnt := Function.update h.cnt t threadDefaultPri

/-- The body of the loop of `sched_check_sleeping`. Its count of wakeups has no user. -/
def checkSleepingBody (h : Threads) (t : ThreadRef) : Threads :=
  if h.state t = .sleeping ∧ h.sleepTimer t = true then
    let left := u32Pred (h.sleepTime t)
    if left = 0 then
      { h with
        sleepTime := Function.update h.sleepTime t left
        state := Function.update h.state t .running
        sleepTimer := Function.update h.sleepTimer t false
        cnt := Function.update h.cnt t (h.pri t) }
    else { h with sleepTime := Function.update h.sleepTime t left }
  else h

/-- `sched_check_sleeping`. -/
def schedCheckSleeping (rounds : ℕ) (h : Threads) (first : ThreadRef) : Option Threads :=
  doWhile Threads.next checkSleepingBody first rounds h first

/-- The body of the loop of `sched_find`, on the best quantum so far and its thread. -/
def schedFindBody (h : Threads) (best : ℤ × ThreadRef) (t : ThreadRef) : ℤ × ThreadRef :=
  if h.state t = .running ∧ best.1 < h.cnt t then (h.cnt t, t) else best

/-- `sched_find`. -/
def schedFind (rounds : ℕ) (h : Threads) (first : ThreadRef) : Option ThreadRef :=
  (doWhile (fun _ => h.next) (schedFindBody h) first rounds (-1, first) first).map Prod.snd

/-- The body of the loop of `sched_next` that refills the quanta. -/
def refillBody (h : Threads) (t : ThreadRef) : Threads :=
  { h with cnt := Function.update h.cnt t (h.cnt t >>> (1 : ℕ) + h.pri t) }

/-- The choice of `sched_next`, with the quanta afterwards. -/
def schedPick (rounds : ℕ) (cpu : Cpu) (h : Threads) : Option (ThreadRef × Threads) :=
  (schedFind rounds h (h.next cpu.threads)).bind fun t =>
    if h.cnt t = 0 then
      (forUntil Threads.next refillBody cpu.threads rounds h (h.next cpu.threads)).bind fun h =>
        (schedFind rounds h (h.next cpu.threads)).map fun t => (t, h)
    else some (t, h)

/-- The switch of `sched_next` to the thread it has picked. -/
def switchTo (cpu : Cpu) (t : ThreadRef) (h : Threads) : Cpu × Threads :=
  if t ≠ cpu.curThread then
    ({ cpu with curThread := t },
      { h with ticks := Function.update h.ticks cpu.curThread (u64 (h.ticks cpu.curThread + 1)) })
  else (cpu, h)

/-- `sched_next`. -/
def schedNext (rounds : ℕ) (cpu : Cpu) (h : Threads) : Option (Cpu × Threads) :=
  (schedPick rounds cpu h).map fun (t, h) => switchTo cpu t h

/-- `sched_tick` up to its test of the quantum. -/
def tickBegin (rounds : ℕ) (cpu : Cpu) (h : Threads) : Option Threads :=
  (schedCheckSleeping rounds h (h.next cpu.threads)).map fun h =>
    let cur := cpu.curThread
    { h with
      ticks := Function.update h.ticks cur (u64 (h.ticks cur + 1))
      cnt := Function.update h.cnt cur (h.cnt cur - 1) }

/-- The quantum of the current thread is used up. -/
def endQuantum (cpu : Cpu) (h : Threads) : Threads :=
  { h with cnt := Function.update h.cnt cpu.curThread 0 }

/-- `sched_tick`. -/
def schedTick (rounds : ℕ) (cpu : Cpu) (h : Threads) : Option (Cpu × Threads) :=
  (tickBegin rounds cpu h).bind fun h =>
    if 0 < h.cnt cpu.curThread then some (cpu, h) else schedNext rounds cpu (endQuantum cpu h)

/-- The mark that `sched_yield_locked` sets. -/
def markSleeping (cpu : Cpu) (h : Threads) : Threads :=
  { h with state := Function.update h.state cpu.curThread .sleeping }

/-- `sched_yield_locked`. -/
def schedYieldLocked (rounds : ℕ) (cpu : Cpu) (h : Threads) : Option (Cpu × Threads) :=
  schedNext rounds cpu (markSleeping cpu h)

/-- The assignments of `sched_sleep` to the current thread. -/
def startTimer (cpu : Cpu) (ms : ℕ) (h : Threads) : Threads :=
  let cur := cpu.curThread
  { h with
    state := Function.update h.state cur .sleeping
    sleepTime := Function.update h.sleepTime cur ms
    sleepTimer := Function.update h.sleepTimer cur true }

/-- `sched_sleep`. -/
def schedSleep (rounds : ℕ) (cpu : Cpu) (ms : ℕ) (h : Threads) : Option (Cpu × Threads) :=
  if cpu.curThread ≠ cpu.threads then schedNext rounds cpu (startTimer cpu ms h)
  else some (cpu, h)

/-- `sched_init_cpu`. -/
def schedInitCpu (c : ℕ) (cpu : Cpu) (h : Threads) : Cpu × Threads :=
  let (head, h) := queuePushBack (initThread h (.idle c) 0 c) cpu.threads (.idle c)
  ({ cpu with
    threads := head
    curThread := .idle c }, h)

/-- `thread_create` on the CPU `c`, with the address that `thread_alloc` returns. -/
def threadCreate (c : ℕ) (cpu : Cpu) (t : ThreadRef) (h : Threads) : Cpu × Threads :=
  let id := u32 (cpu.idCnt + 1)
  let (head, h) := queuePushBack (initThread h t id c) cpu.threads t
  ({ cpu with
    threads := head
    idCnt := id }, h)

/-- The wakeup of a thread by `thread_wakeup`, `sema_signal`, and `cond_signal`. -/
def wake (h : Threads) (t : ThreadRef) : Threads :=
  { h with state := Function.update h.state t .running }

/-- `struct thread_list_t`. -/
structure ThreadList where
  head : ThreadRef
  tail : ThreadRef

/-- `thread_list_init`. -/
def ThreadList.init : ThreadList := ⟨.null, .null⟩

/-- `thread_list_push`. -/
def ThreadList.push (tl : ThreadList) (h : Threads) (t : ThreadRef) : ThreadList × Threads :=
  if tl.head = .null then
    (⟨t, t⟩, { h with nextWait := Function.update h.nextWait t .null })
  else
    (⟨tl.head, t⟩,
      { h with nextWait := Function.update (Function.update h.nextWait tl.tail t) t .null })

/-- `thread_list_pop`: the list afterwards; the thread popped is the old head. The tail is
left as it is. -/
def ThreadList.pop (tl : ThreadList) (h : Threads) : ThreadList :=
  if tl.head ≠ .null then { tl with head := h.nextWait tl.head } else tl

end Smor.Sched
