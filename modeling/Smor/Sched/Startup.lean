import Smor.Lib.Runs
import Smor.Sched.Threads
import Mathlib.Data.Finset.Card

/-!
# The start of the other CPUs

`cpu_smp_init` on the boot CPU starts the other CPUs and waits until they have counted
themselves in `num_cpus`. Each of them runs `cpu_init_ap`, which counts first and sets up its
descriptor and its ring later. The CPUs take turns at single accesses to shared memory, in any
order; the timed waits order nothing and the INIT IPIs change nothing here, so they are no turns.
Then the boot CPU calls `thread_create`, whose accesses are turns as well.
-/

namespace Smor.Sched

open Smor.Lib

/-- The CPUs that the MADT lists. `local_apic_add_cpu` checks that there is room for them. -/
structure LocalApic where
  cpus : List ℕ
  /-- The CPU that runs `cpu_smp_init`. -/
  bsp : ℕ
  nodup : cpus.Nodup
  bsp_mem : bsp ∈ cpus
  length_le : cpus.length ≤ 16

/-- The application CPUs. -/
def LocalApic.others (la : LocalApic) : Finset ℕ := la.cpus.toFinset.erase la.bsp

/-- The accesses of `queue_push_back`: the test of the head, then one of the two branches. -/
inductive PushPc
  | test
  | head | selfPrev | selfNext
  | next | prev | last | headPrev
  deriving DecidableEq

/-- One access of `queue_push_back(head, elem, next, prev)`: the head and the links
afterwards, and the next access. -/
def pushStep (head elem : ThreadRef) (h : Threads) :
    PushPc → ThreadRef × Threads × Option PushPc
  | .test => (head, h, some (if head = .null then .head else .next))
  | .head => (elem, h, some .selfPrev)
  | .selfPrev => (head, { h with prev := Function.update h.prev elem head }, some .selfNext)
  | .selfNext => (head, { h with next := Function.update h.next elem (h.prev elem) }, none)
  | .next => (head, { h with next := Function.update h.next elem head }, some .prev)
  | .prev => (head, { h with prev := Function.update h.prev elem (h.prev head) }, some .last)
  | .last => (head, { h with next := Function.update h.next (h.prev elem) elem }, some .headPrev)
  | .headPrev => (head, { h with prev := Function.update h.prev head elem }, none)

/-- Where an application CPU is in `cpu_init_ap`. -/
inductive ApPc
  /-- It has not been started. -/
  | off
  /-- `fetch_and_add_32(&num_cpus, 1)`. -/
  | count
  /-- `gdt_load`, `idt_load`, and `local_apic_init`. -/
  | tables
  /-- `cpu->self = cpu` in `cpu_init_desc`. -/
  | self
  /-- `cpu->apic_id = apic_id` in `cpu_init_desc`. -/
  | apicId
  /-- `cpu->flags = CPU_FLAGS_ACTIVE`. -/
  | flags
  /-- `setup_idle_thread`. -/
  | idle
  /-- `queue_push_back` in `sched_init_cpu`. -/
  | push (pc : PushPc)
  /-- `cpu->cur_thread = t`. -/
  | cur
  /-- `cpu_enable_interrupts`. -/
  | intr
  | idleLoop
  deriving DecidableEq

/-- Where a call of `thread_create` is. -/
inductive CreatePc
  /-- The assignments to the new thread. -/
  | init
  /-- `cpu_lock_splhi` or `cpu_lock_id`. -/
  | lock
  /-- `++cpu->id_cnt`, `thread->id`, and `thread->cpu_id`. -/
  | id
  | push (pc : PushPc)
  /-- `cpu_unlock_splx` or `cpu_unlock`. -/
  | unlock
  deriving DecidableEq

/-- Where the boot CPU is. -/
inductive BootPc
  /-- `num_cpus = 1`. -/
  | setCount
  /-- The second loop over `local_apic.cpus`, which sends the startup IPIs. -/
  | ipiStart (i : ℕ)
  /-- `while (num_cpus != local_apic.num_cpus)`. -/
  | loop
  /-- Behind the loop, and not in `thread_create`. -/
  | running
  /-- In `thread_create` for the CPU `c`, with the new thread `n`. -/
  | create (pc : CreatePc) (c n : ℕ)
  deriving DecidableEq

/-- `struct cpu_desc_t`, with the index that `self` points to. -/
structure Desc where
  self : Option ℕ
  cpu : Cpu
  apicId : ℕ
  flags : ℕ
  lock : Bool

/-- `CPU_FLAGS_ACTIVE`. -/
def cpuFlagsActive : ℕ := 0x01

/-- `CPU_FLAGS_BSP`. -/
def cpuFlagsBsp : ℕ := 0x80

/-- Shared memory and what every CPU does next. -/
structure Smp where
  numCpus : ℕ
  descs : ℕ → Desc
  mem : Threads
  ap : ℕ → ApPc
  boot : BootPc
  /-- The threads that `thread_create` has put on the ring of each CPU, the first one first. -/
  created : ℕ → List ℕ

/-- Whose turn it is, or a call of `thread_create` by the boot CPU. -/
inductive Turn
  | boot
  | ap (c : ℕ)
  | create (c n : ℕ)
  deriving DecidableEq

namespace Smp

/-- An assignment to the fields of one descriptor. -/
def setDesc (s : Smp) (c : ℕ) (d : Desc) : Smp := { s with descs := Function.update s.descs c d }

/-- An application CPU goes on. -/
def apGoto (s : Smp) (c : ℕ) (pc : ApPc) : Smp := { s with ap := Function.update s.ap c pc }

/-- The boot CPU goes on. -/
def bootGoto (s : Smp) (pc : BootPc) : Smp := { s with boot := pc }

/-- One access of `queue_push_back(cpu->threads, elem, next, prev)`. -/
def push (s : Smp) (c : ℕ) (elem : ThreadRef) (pc : PushPc) : Smp :=
  let d := s.descs c
  let r := pushStep d.cpu.threads elem s.mem pc
  { s.setDesc c { d with cpu := { d.cpu with threads := r.1 } } with mem := r.2.1 }

/-- The next access of `queue_push_back`. -/
def pushNext (s : Smp) (c : ℕ) (elem : ThreadRef) (pc : PushPc) : Option PushPc :=
  (pushStep (s.descs c).cpu.threads elem s.mem pc).2.2

/-- A turn of the application CPU `c`. -/
def apStep (s : Smp) (c : ℕ) : Option Smp :=
  let d := s.descs c
  match s.ap c with
  | .off | .idleLoop => none
  | .count => some ({ s with numCpus := u32 (s.numCpus + 1) }.apGoto c .tables)
  | .tables => some (s.apGoto c .self)
  | .self => some ((s.setDesc c { d with self := some c }).apGoto c .apicId)
  | .apicId => some ((s.setDesc c { d with apicId := c }).apGoto c .flags)
  | .flags => some ((s.setDesc c { d with flags := cpuFlagsActive }).apGoto c .idle)
  | .idle =>
    some ({ s with mem := initThread s.mem (.idle c) 0 d.apicId }.apGoto c (.push .test))
  | .push pc =>
    some ((s.push c (.idle c) pc).apGoto c ((s.pushNext c (.idle c) pc).elim .cur .push))
  | .cur =>
    some ((s.setDesc c { d with cpu := { d.cpu with curThread := .idle c } }).apGoto c .intr)
  | .intr => some (s.apGoto c .idleLoop)

/-- A turn of the boot CPU in `thread_create`. -/
def createStep (s : Smp) (c n : ℕ) : CreatePc → Option Smp
  | .init =>
    let t := ThreadRef.alloc n
    some ({ s with mem := initThread s.mem t (s.mem.id t) (s.mem.cpuId t) }.bootGoto
      (.create .lock c n))
  | .lock =>
    if (s.descs c).lock then none
    else some ((s.setDesc c { s.descs c with lock := true }).bootGoto (.create .id c n))
  | .id =>
    let d := s.descs c
    let id := u32 (d.cpu.idCnt + 1)
    some ({ s.setDesc c { d with cpu := { d.cpu with idCnt := id } } with
      mem := { s.mem with
        id := Function.update s.mem.id (.alloc n) id
        cpuId := Function.update s.mem.cpuId (.alloc n) d.apicId } }.bootGoto
      (.create (.push .test) c n))
  | .push pc =>
    match s.pushNext c (.alloc n) pc with
    | some pc' => some ((s.push c (.alloc n) pc).bootGoto (.create (.push pc') c n))
    | none => some ({ s.push c (.alloc n) pc with
        created := Function.update s.created c (s.created c ++ [n]) }.bootGoto
        (.create .unlock c n))
  | .unlock => some ((s.setDesc c { s.descs c with lock := false }).bootGoto .running)

/-- A startup IPI. Only a CPU that waits for it accepts it. -/
def ipiStart (s : Smp) (la : LocalApic) (id : ℕ) : Smp :=
  if id ≠ la.bsp ∧ s.ap id = .off then s.apGoto id .count else s

/-- A turn of the boot CPU. -/
def bootStep (la : LocalApic) (s : Smp) : Option Smp :=
  match s.boot with
  | .setCount => some ({ s with numCpus := 1 }.bootGoto (.ipiStart 0))
  | .ipiStart i =>
    match la.cpus[i]? with
    | some id => some ((s.ipiStart la id).bootGoto (.ipiStart (i + 1)))
    | none => some (s.bootGoto .loop)
  | .loop => if s.numCpus ≠ la.cpus.length then some s else some (s.bootGoto .running)
  | .running => none
  | .create pc c n => s.createStep c n pc

/-- A turn. -/
def step (la : LocalApic) (s : Smp) : Turn → Option Smp
  | .boot => s.bootStep la
  | .ap c => s.apStep c
  | .create c n => if s.boot = .running then some (s.bootGoto (.create .init c n)) else none

/-- `thread_create` is called for a CPU that exists, and `thread_alloc` returns an address
that is not in use. -/
def Allowed (la : LocalApic) (s : Smp) : Turn → Prop
  | .create c n => c ∈ la.cpus ∧ ∀ c' ∈ la.cpus, n ∉ s.created c'
  | _ => True

instance (la : LocalApic) (s : Smp) (turn : Turn) : Decidable (s.Allowed la turn) :=
  match turn with
  | .create _ _ => inferInstanceAs (Decidable (_ ∧ _))
  | .boot | .ap _ => inferInstanceAs (Decidable True)

/-- A descriptor before `cpu_init_desc`. -/
def zeroDesc : Desc := ⟨none, ⟨.null, .null, 0⟩, 0, 0, false⟩

/-- The state in which `cpu_init` calls `cpu_smp_init`, in memory that held `mem` before. -/
def start (la : LocalApic) (mem : Threads) : Smp :=
  let r := schedInitCpu la.bsp zeroDesc.cpu mem
  { numCpus := 0
    descs := Function.update (fun _ => zeroDesc) la.bsp
      ⟨some la.bsp, r.1, la.bsp, cpuFlagsActive ||| cpuFlagsBsp, false⟩
    mem := r.2
    ap := fun _ => .off
    boot := .setCount
    created := fun _ => [] }

end Smp

end Smor.Sched
