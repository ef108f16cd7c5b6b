import Smor.Irq.Idt
import Smor.Irq.IoApic
import Smor.Isr
import Smor.Lib.Latest

/-!
# From an interrupt to its handler

`interrupt.c` keeps a table of handlers for the lines of the I/O APIC and one for local interrupts,
and puts a stub of `isr.S` in the gate of each vector that it uses. An interrupt passes through
the redirection table, the gate in memory, the stub, which pushes its number, and the table. This
file says which handler is called in the end, after any sequence of calls that register handlers.
-/

namespace Smor.Irq

open Smor.Acpi Smor.Isr Smor.Lib Smor.Vm

/-- `struct interrupt_t`. -/
structure Interrupt (η : Type) where
  handler : Option η
  vector : BitVec 8

/-- The table of gates, `irq_handlers`, `lint_handlers`, and the I/O APIC. -/
structure IntrState (η : Type) where
  mem : ℕ → BitVec 8
  irqHandlers : ℕ → Interrupt η
  lintHandlers : ℕ → Interrupt η
  ioApic : IoApic

/-- `IRQ_BASE`. -/
def irqBase : ℕ := 0x40

/-- `IRQ_MAX`. -/
def irqMax : ℕ := 0x16

/-- `LINT_MAX`. -/
def lintMax : ℕ := 8

/-- `irq_stubs`, which is longer than the list of its initial values. -/
def irqStubs : List (Option IsrLabel) :=
  (List.range 16).map (fun n => some (.irq n)) ++ List.replicate 6 none

/-- `lint_stubs`. -/
def lintStubs : List (Option IsrLabel) := (List.range 8).map fun n => some (.lint n)

/-- The address of a stub, or the null pointer. -/
def IsrCode.addr? (code : IsrCode) : Option IsrLabel → ℕ
  | some l => code.addr l
  | none => 0

/-- `cpu_interrupt_set`. -/
def cpuInterruptSet (code : IsrCode) (mem : ℕ → BitVec 8) (vector : BitVec 8)
    (handler : Option IsrLabel) : ℕ → BitVec 8 :=
  idtSet mem vector.toNat idtInterruptGate (code.addr? handler)

/-- `cpu_interrupt_unset`. -/
def cpuInterruptUnset (code : IsrCode) (mem : ℕ → BitVec 8) (vector : BitVec 8) : ℕ → BitVec 8 :=
  idtSet mem vector.toNat idtInterruptGate (code.addr .spurious)

/-- `io_apic_init`, the loop that masks all interrupts. -/
def ioApicMaskAll (a : IoApic) (numRedtbl : ℕ) : IoApic :=
  (List.range numRedtbl).foldl (fun a i => ioApicRedtblSet a i ioredtblInterruptOff) a

/-- The calls. -/
inductive IntrOp (η : Type)
  /-- `intr_register_irq_handler`. -/
  | register (irq : ℕ) (handler : η)
  /-- `intr_register_local_irq_handler`. -/
  | registerLocal (irq : ℕ) (vector : BitVec 8) (handler : η)
  /-- `cpu_interrupt_unset`. -/
  | unset (vector : BitVec 8)
  /-- `intr_irq_enable`. -/
  | enable (irq : ℕ) (cpuMask : BitVec 8)
  /-- `intr_irq_disable`. -/
  | disable (irq : ℕ)

namespace IntrState

variable {η : Type}

/-- `intr_register_irq_handler`; `none` outside of the table. -/
def registerIrqHandler (code : IsrCode) (s : IntrState η) (irq : ℕ) (handler : η) :
    Option (IntrState η) :=
  if irqMax ≤ irq then none
  else
    let i : Interrupt η := ⟨some handler, BitVec.ofNat 8 (irqBase + irq)⟩
    some { s with
      irqHandlers := Function.update s.irqHandlers irq i
      mem := cpuInterruptSet code s.mem i.vector (irqStubs.getD irq none) }

/-- `intr_register_local_irq_handler`. -/
def registerLocalIrqHandler (code : IsrCode) (s : IntrState η) (irq : ℕ) (vector : BitVec 8)
    (handler : η) : Option (IntrState η) :=
  if lintMax ≤ irq then none
  else
    let i : Interrupt η := ⟨some handler, vector⟩
    some { s with
      lintHandlers := Function.update s.lintHandlers irq i
      mem := cpuInterruptSet code s.mem i.vector (lintStubs.getD irq none) }

/-- One call. Calls on several CPUs are in the order in which they take `intr_lock`, or that of the
I/O APIC. -/
def step (code : IsrCode) (iovr : List Iovr) (s : IntrState η) : IntrOp η → Option (IntrState η)
  | .register irq handler => s.registerIrqHandler code irq handler
  | .registerLocal irq vector handler => s.registerLocalIrqHandler code irq vector handler
  | .unset vector => some { s with mem := cpuInterruptUnset code s.mem vector }
  | .enable irq cpuMask =>
    if irqMax ≤ irq then none
    else some { s with
      ioApic := ioApicEnableIrq iovr s.ioApic irq (s.irqHandlers irq).vector cpuMask }
  | .disable irq => some { s with ioApic := ioApicDisableIrq iovr s.ioApic irq }

/-- After `idt_init` and `io_apic_init`. -/
def start (code : IsrCode) (numRedtbl : ℕ) (mem : ℕ → BitVec 8) (ioApic : IoApic) :
    IntrState η where
  mem := idtInit code mem
  irqHandlers _ := ⟨none, 0⟩
  lintHandlers _ := ⟨none, 0⟩
  ioApic := ioApicMaskAll ioApic numRedtbl

/-- The state after a sequence of calls. -/
def run (code : IsrCode) (iovr : List Iovr) (s : IntrState η) (ops : List (IntrOp η)) :
    Option (IntrState η) := ops.foldlM (step code iovr) s

end IntrState

/-- The handler of `isr.S` at an address. -/
def IsrCode.label (code : IsrCode) (a : ℕ) : Option IsrLabel := isrLabels.find? (code.addr · = a)

/-- `LAPIC_EOI`. -/
def lapicEoi : ℕ := 0x00b0

/-- `local_apic_eoi`: the register that is written, and what is written to it. -/
def localApicEoi : ℕ × BitVec 32 := (lapicEoi, 0)

/-- How an interrupt is served. -/
inductive Served (η : Type)
  /-- `_isr_spurious`: nothing but the return. -/
  | spurious
  /-- `cpu_exception`. -/
  | exception (num : ℕ)
  /-- `cpu_interrupt` or `cpu_local_interrupt` with the frame that is on top of the stack: the write
  to the local APIC, and then the handler, if there is one. -/
  | handled (apic : ℕ × BitVec 32) (handler : Option η) (frame : Machine)

namespace IntrState

variable {η : Type}

/-- `irq_num` in `cpu_interrupt` and `cpu_local_interrupt`: the field `trap_num` of the frame behind
the return address, as `uint32_t`. -/
def irqNum (b : Machine) : ℕ := u32 (b.slot 8).toNat

/-- `cpu_interrupt`. -/
def cpuInterrupt (s : IntrState η) (b : Machine) : Option (Served η) :=
  if irqMax ≤ irqNum b then none
  else some (.handled localApicEoi (s.irqHandlers (irqNum b)).handler b)

/-- `cpu_local_interrupt`. -/
def cpuLocalInterrupt (s : IntrState η) (b : Machine) : Option (Served η) :=
  if lintMax ≤ irqNum b then none
  else some (.handled localApicEoi (s.lintHandlers (irqNum b)).handler b)

/-- An interrupt with a vector, which pushes no error code, through the gate in memory. The call in
the stub returns to `returnTo`. -/
def deliver (code : IsrCode) (s : IntrState η) (m : Machine) (returnTo : Word) (vector : ℕ) :
    Option (Served η) :=
  let gate := idtGate s.mem vector
  let through := fun kind (stub : Stub) => ((m.interrupt kind none).run stub.code).call returnTo
  match gate.kind, code.label gate.offset with
  | some _, some .spurious => some .spurious
  | some _, some (.trap num) => some (.exception num)
  | some kind, some (.irq num) => s.cpuInterrupt (through kind (.irq (BitVec.ofNat 64 num)))
  | some kind, some (.lint num) => s.cpuLocalInterrupt (through kind (.lint (BitVec.ofNat 64 num)))
  | _, _ => none

end IntrState

namespace IntrOp

variable {η : Type}

/-- The numbers have a stub, and local interrupts have no vectors of exceptions. -/
def Valid : IntrOp η → Prop
  | register irq _ | enable irq _ | disable irq => irq < 16
  | registerLocal irq vector _ => irq < 8 ∧ 32 ≤ vector.toNat
  | unset vector => 32 ≤ vector.toNat

/-- What the call puts in the gate of a vector. -/
def gate (v : ℕ) : IntrOp η → Option IsrLabel
  | register irq _ => if irqBase + irq = v then some (.irq irq) else none
  | registerLocal irq vector _ => if vector.toNat = v then some (.lint irq) else none
  | unset vector => if vector.toNat = v then some .spurious else none
  | enable _ _ | disable _ => none

/-- The handler that the call registers for a line. -/
def irqHandler (irq : ℕ) : IntrOp η → Option η
  | register irq' handler => if irq' = irq then some handler else none
  | _ => none

/-- The handler that the call registers for a local interrupt. -/
def lintHandler (irq : ℕ) : IntrOp η → Option η
  | registerLocal irq' _ handler => if irq' = irq then some handler else none
  | _ => none

/-- The CPUs that the call sends a line to; `some none` if it masks the line. -/
def line (irq : ℕ) : IntrOp η → Option (Option (BitVec 8))
  | enable irq' cpuMask => if irq' = irq then some (some cpuMask) else none
  | disable irq' => if irq' = irq then some none else none
  | _ => none

end IntrOp

section Gates

variable {η : Type} {code : IsrCode} {iovr : List Iovr} {numRedtbl irq v : ℕ} {s s' : IntrState η}
  {mem : ℕ → BitVec 8} {io : IoApic} {op : IntrOp η} {ops : List (IntrOp η)}

/-- The handler at its address. -/
theorem IsrCode.label_addr {l : IsrLabel} (hl : l ∈ isrLabels) :
    code.label (code.addr l) = some l := by
  obtain ⟨l', hfind⟩ : ∃ l', code.label (code.addr l) = some l' :=
    Option.isSome_iff_exists.mp (List.find?_isSome.mpr ⟨l, hl, by simp⟩)
  have haddr : code.addr l' = code.addr l := by simpa using List.find?_some hfind
  rw [hfind, code.addr_inj l' (List.mem_of_find?_eq_some hfind) l hl haddr]

theorem irqStubs_getD (hirq : irq < 16) : irqStubs.getD irq none = some (.irq irq) := by
  have hall : ∀ n : Fin 16, irqStubs.getD n none = some (.irq n) := by decide
  exact hall ⟨irq, hirq⟩

theorem lintStubs_getD (hirq : irq < 8) : lintStubs.getD irq none = some (.lint irq) := by
  have hall : ∀ n : Fin 8, lintStubs.getD n none = some (.lint n) := by decide
  exact hall ⟨irq, hirq⟩

/-- The vector of a line. -/
theorem irqVector_toNat (hirq : irq < 16) :
    (BitVec.ofNat 8 (irqBase + irq)).toNat = irqBase + irq := by
  rw [BitVec.toNat_ofNat, irqBase]
  omega

/-- The gate of a vector after it has been set. -/
theorem idtGate_set (l : IsrLabel) (i v : ℕ) :
    idtGate (idtSet mem i idtInterruptGate (code.addr l)) v =
      if i = v then ⟨code.addr l, 0x08, idtInterruptGate⟩ else idtGate mem v := by
  rw [idtGate_idtSet (by decide) (code.addr_lt l), Function.update_apply]
  simp only [eq_comm]

/-- What a call does to the gate of a vector. -/
theorem gate_step (hop : op.Valid) (hstep : s.step code iovr op = some s') (v : ℕ) :
    idtGate s'.mem v =
      ((op.gate v).map fun l => ⟨code.addr l, 0x08, idtInterruptGate⟩).getD (idtGate s.mem v) := by
  cases op with
  | register irq handler =>
    have hirq : irq < 16 := hop
    have hmax : ¬ irqMax ≤ irq := by
      unfold irqMax
      omega
    simp only [IntrState.step, IntrState.registerIrqHandler, if_neg hmax, Option.some.injEq] at hstep
    subst hstep
    simp only [cpuInterruptSet, irqStubs_getD hirq, IsrCode.addr?, idtGate_set,
      irqVector_toNat hirq, IntrOp.gate]
    split_ifs <;> rfl
  | registerLocal irq vector handler =>
    obtain ⟨hirq, -⟩ : irq < 8 ∧ 32 ≤ vector.toNat := hop
    have hmax : ¬ lintMax ≤ irq := by
      unfold lintMax
      omega
    simp only [IntrState.step, IntrState.registerLocalIrqHandler, if_neg hmax,
      Option.some.injEq] at hstep
    subst hstep
    simp only [cpuInterruptSet, lintStubs_getD hirq, IsrCode.addr?, idtGate_set, IntrOp.gate]
    split_ifs <;> rfl
  | unset vector =>
    obtain rfl := Option.some.inj hstep
    simp only [cpuInterruptUnset, idtGate_set, IntrOp.gate]
    split_ifs <;> rfl
  | enable irq cpuMask =>
    rw [IntrState.step] at hstep
    split_ifs at hstep
    obtain rfl := Option.some.inj hstep
    rfl
  | disable irq =>
    obtain rfl := Option.some.inj hstep
    rfl

/-- What a call does to the entry of a line in the table of handlers. -/
theorem irqHandlers_step (hstep : s.step code iovr op = some s') (irq : ℕ) :
    s'.irqHandlers irq =
      ((op.irqHandler irq).map fun h => ⟨some h, BitVec.ofNat 8 (irqBase + irq)⟩).getD
        (s.irqHandlers irq) := by
  cases op with
  | register irq' handler =>
    simp only [IntrState.step, IntrState.registerIrqHandler] at hstep
    split_ifs at hstep
    obtain rfl := Option.some.inj hstep
    by_cases heq : irq' = irq
    · simp [IntrOp.irqHandler, heq]
    · simp [IntrOp.irqHandler, heq, Function.update_of_ne (Ne.symm heq)]
  | registerLocal irq' vector handler =>
    simp only [IntrState.step, IntrState.registerLocalIrqHandler] at hstep
    split_ifs at hstep
    obtain rfl := Option.some.inj hstep
    rfl
  | enable irq' cpuMask =>
    rw [IntrState.step] at hstep
    split_ifs at hstep
    obtain rfl := Option.some.inj hstep
    rfl
  | unset _ | disable _ =>
    obtain rfl := Option.some.inj hstep
    rfl

/-- What a call does to the handler of a local interrupt. -/
theorem lintHandler_step (hstep : s.step code iovr op = some s') (irq : ℕ) :
    (s'.lintHandlers irq).handler =
      ((op.lintHandler irq).map some).getD (s.lintHandlers irq).handler := by
  cases op with
  | registerLocal irq' vector handler =>
    simp only [IntrState.step, IntrState.registerLocalIrqHandler] at hstep
    split_ifs at hstep
    obtain rfl := Option.some.inj hstep
    by_cases heq : irq' = irq
    · simp [IntrOp.lintHandler, heq]
    · simp [IntrOp.lintHandler, heq, Function.update_of_ne (Ne.symm heq)]
  | register irq' handler =>
    simp only [IntrState.step, IntrState.registerIrqHandler] at hstep
    split_ifs at hstep
    obtain rfl := Option.some.inj hstep
    rfl
  | enable irq' cpuMask =>
    rw [IntrState.step] at hstep
    split_ifs at hstep
    obtain rfl := Option.some.inj hstep
    rfl
  | unset _ | disable _ =>
    obtain rfl := Option.some.inj hstep
    rfl

/-- The gate of a vector after a sequence of calls. -/
theorem gate_run (hops : ∀ op ∈ ops, op.Valid)
    (hrun : IntrState.run code iovr s ops = some s') (v : ℕ) :
    idtGate s'.mem v =
      ((latest (IntrOp.gate v) ops).map fun l => ⟨code.addr l, 0x08, idtInterruptGate⟩).getD
        (idtGate s.mem v) := by
  rw [← latest_map]
  refine view_of_foldlM (fun s => idtGate s.mem v) ?_ hrun
  intro done op ahead s s' hsplit _ hstep
  exact gate_step (hops op (by simp [hsplit])) hstep v

/-- The entry of a line in the table of handlers after a sequence of calls. -/
theorem irqHandlers_run (hrun : IntrState.run code iovr s ops = some s') (irq : ℕ) :
    s'.irqHandlers irq =
      ((latest (IntrOp.irqHandler irq) ops).map fun h =>
        ⟨some h, BitVec.ofNat 8 (irqBase + irq)⟩).getD (s.irqHandlers irq) := by
  rw [← latest_map]
  refine view_of_foldlM (fun s => s.irqHandlers irq) ?_ hrun
  intro done op ahead s s' _ _ hstep
  exact irqHandlers_step hstep irq

/-- The handler of a local interrupt after a sequence of calls. -/
theorem lintHandler_run (hrun : IntrState.run code iovr s ops = some s') (irq : ℕ) :
    (s'.lintHandlers irq).handler =
      ((latest (IntrOp.lintHandler irq) ops).map some).getD (s.lintHandlers irq).handler := by
  rw [← latest_map]
  refine view_of_foldlM (fun s => (s.lintHandlers irq).handler) ?_ hrun
  intro done op ahead s s' _ _ hstep
  exact lintHandler_step hstep irq

/-- The number that a stub has pushed. -/
theorem irqNum_enter {stub : Stub} (m : Machine) (returnTo : Word) {n : ℕ}
    (hstub : stub.num = BitVec.ofNat 64 n) (hn : n < 16) :
    IntrState.irqNum (enter stub m returnTo) = n := by
  have hslot : (enter stub m returnTo).slot 8 = stub.num :=
    enter_hasTop stub m returnTo 8 (by simp [isrFrame])
  rw [IntrState.irqNum, hslot, hstub, BitVec.toNat_ofNat, Nat.mod_eq_of_lt (by omega),
    u32_of_lt (by omega)]

/-- An interrupt through a gate for a line. -/
theorem deliver_irq {m : Machine} {returnTo : Word}
    (hgate : idtGate s.mem v = ⟨code.addr (.irq irq), 0x08, idtInterruptGate⟩) (hirq : irq < 16) :
    s.deliver code m returnTo v = some (.handled localApicEoi (s.irqHandlers irq).handler
      (enter (.irq (BitVec.ofNat 64 irq)) m returnTo)) := by
  have hlabel : IsrLabel.irq irq ∈ isrLabels := by simp [isrLabels, hirq]
  have hnum : IntrState.irqNum (enter (.irq (BitVec.ofNat 64 irq)) m returnTo) = irq :=
    irqNum_enter m returnTo rfl hirq
  have hmax : ¬ irqMax ≤ irq := by
    unfold irqMax
    omega
  simp only [IntrState.deliver, hgate, IdtGate.kind_interrupt, code.label_addr hlabel]
  change s.cpuInterrupt (enter (.irq (BitVec.ofNat 64 irq)) m returnTo) = _
  rw [IntrState.cpuInterrupt, hnum, if_neg hmax]

/-- An interrupt through a gate for a local interrupt. -/
theorem deliver_lint {m : Machine} {returnTo : Word}
    (hgate : idtGate s.mem v = ⟨code.addr (.lint irq), 0x08, idtInterruptGate⟩) (hirq : irq < 8) :
    s.deliver code m returnTo v = some (.handled localApicEoi (s.lintHandlers irq).handler
      (enter (.lint (BitVec.ofNat 64 irq)) m returnTo)) := by
  have hlabel : IsrLabel.lint irq ∈ isrLabels := by
    simp only [isrLabels, List.mem_cons, List.mem_append, List.mem_map, List.mem_range]
    exact Or.inr (Or.inr ⟨irq, by omega, rfl⟩)
  have hnum : IntrState.irqNum (enter (.lint (BitVec.ofNat 64 irq)) m returnTo) = irq :=
    irqNum_enter m returnTo rfl (by omega)
  have hmax : ¬ lintMax ≤ irq := by
    unfold lintMax
    omega
  simp only [IntrState.deliver, hgate, IdtGate.kind_interrupt, code.label_addr hlabel]
  change s.cpuLocalInterrupt (enter (.lint (BitVec.ofNat 64 irq)) m returnTo) = _
  rw [IntrState.cpuLocalInterrupt, hnum, if_neg hmax]

/-- An interrupt through the gate for spurious interrupts. -/
theorem deliver_spurious {m : Machine} {returnTo : Word}
    (hgate : idtGate s.mem v = ⟨code.addr .spurious, 0x08, idtInterruptGate⟩) :
    s.deliver code m returnTo v = some .spurious := by
  have hlabel : IsrLabel.spurious ∈ isrLabels := List.mem_cons_self
  simp only [IntrState.deliver, hgate, IdtGate.kind_interrupt, code.label_addr hlabel]

/-- The numbers of the stubs in gates. -/
theorem gate_valid (hops : ∀ op ∈ ops, op.Valid) {l : IsrLabel}
    (h : latest (IntrOp.gate v) ops = some l) :
    (∃ n < 16, l = .irq n) ∨ (∃ n < 8, l = .lint n) ∨ l = .spurious := by
  obtain ⟨op, hop, hgate⟩ := exists_of_latest h
  have hvalid := hops op hop
  cases op with
  | register irq handler =>
    simp only [IntrOp.gate, Option.ite_none_right_eq_some, Option.some.injEq] at hgate
    exact Or.inl ⟨irq, hvalid, hgate.2.symm⟩
  | registerLocal irq vector handler =>
    simp only [IntrOp.gate, Option.ite_none_right_eq_some, Option.some.injEq] at hgate
    exact Or.inr (Or.inl ⟨irq, hvalid.1, hgate.2.symm⟩)
  | unset vector =>
    simp only [IntrOp.gate, Option.ite_none_right_eq_some, Option.some.injEq] at hgate
    exact Or.inr (Or.inr hgate.2.symm)
  | enable irq cpuMask | disable irq => cases hgate

/-- Every call is made. -/
theorem run_isSome (code : IsrCode) (iovr : List Iovr) (hops : ∀ op ∈ ops, op.Valid)
    (s : IntrState η) :
    (IntrState.run code iovr s ops).isSome := by
  induction ops generalizing s with
  | nil => rfl
  | cons op ops ih =>
    obtain ⟨hop, hops⟩ := List.forall_mem_cons.mp hops
    obtain ⟨s', hstep⟩ : ∃ s', s.step code iovr op = some s' := by
      cases op with
      | register irq handler =>
        exact ⟨_, if_neg (Nat.not_le.mpr (Nat.lt_trans hop (by decide)))⟩
      | registerLocal irq vector handler =>
        exact ⟨_, if_neg (Nat.not_le.mpr hop.1)⟩
      | enable irq cpuMask =>
        exact ⟨_, if_neg (Nat.not_le.mpr (Nat.lt_trans hop (by decide)))⟩
      | unset vector | disable irq => exact ⟨_, rfl⟩
    rw [IntrState.run, List.foldlM_cons, hstep]
    exact ih hops s'

end Gates

/-- How an interrupt with a vector is to be served after a sequence of calls: after the end of
interrupt by the handler that was registered last for the number of the stub that was put in the
gate last. That handler may have been registered with another vector, as a stub stays in the gate
of the old one. -/
def served {η : Type} (ops : List (IntrOp η)) (m : Machine) (returnTo : Word) (v : ℕ) : Served η :=
  match latest (IntrOp.gate v) ops with
  | some (.irq irq) =>
    .handled localApicEoi (latest (IntrOp.irqHandler irq) ops)
      (enter (.irq (BitVec.ofNat 64 irq)) m returnTo)
  | some (.lint irq) =>
    .handled localApicEoi (latest (IntrOp.lintHandler irq) ops)
      (enter (.lint (BitVec.ofNat 64 irq)) m returnTo)
  | _ => .spurious

/-- After `idt_init`, any sequence of calls, whatever was in memory and in the I/O APIC, and for
every interrupted state: an interrupt with a vector of the 224 that are not for exceptions goes
through the gate in memory and the stub to the end of interrupt and the handler that was registered
last for the number of the stub, with the frame of the interrupted state, and returns at once if the
vector is not in use. -/
theorem deliver_eq_served {η : Type} (code : IsrCode) (iovr : List Iovr) (numRedtbl : ℕ)
    (mem : ℕ → BitVec 8) (io : IoApic) (ops : List (IntrOp η)) (hops : ∀ op ∈ ops, op.Valid) {v : ℕ}
    (hlow : 32 ≤ v) (hhigh : v < 256) :
    ∃ s, IntrState.run code iovr (IntrState.start code numRedtbl mem io) ops = some s ∧
      ∀ m returnTo, s.deliver code m returnTo v = some (served ops m returnTo v) := by
  obtain ⟨s, hrun⟩ := Option.isSome_iff_exists.mp
    (run_isSome code iovr hops (IntrState.start code numRedtbl mem io))
  refine ⟨s, hrun, fun m returnTo => ?_⟩
  have hgate := gate_run hops hrun v
  have hinit : idtGate (idtInit code mem) v = ⟨code.addr .spurious, 0x08, idtInterruptGate⟩ := by
    rw [idtGate_idtInit code mem hhigh, IsrCode.initGate, if_neg (by omega)]
  have hline : ∀ n, (s.irqHandlers n).handler = latest (IntrOp.irqHandler n) ops := by
    intro n
    rw [irqHandlers_run hrun n]
    cases latest (IntrOp.irqHandler n) ops <;> rfl
  have hlocal : ∀ n, (s.lintHandlers n).handler = latest (IntrOp.lintHandler n) ops := by
    intro n
    rw [lintHandler_run hrun n]
    cases latest (IntrOp.lintHandler n) ops <;> rfl
  cases hlatest : latest (IntrOp.gate v) ops with
  | none =>
    simp only [hlatest, Option.map_none, Option.getD_none, IntrState.start, hinit] at hgate
    rw [deliver_spurious hgate, served, hlatest]
  | some l =>
    simp only [hlatest, Option.map_some, Option.getD_some] at hgate
    rcases gate_valid hops hlatest with ⟨n, hn, rfl⟩ | ⟨n, hn, rfl⟩ | rfl
    · rw [deliver_irq hgate hn, served, hlatest, hline n]
    · rw [deliver_lint hgate hn, served, hlatest, hlocal n]
    · rw [deliver_spurious hgate, served, hlatest]

/-- The handlers of `isr.S` one behind the other, 16 bytes each, from 1MB on. -/
def isrCodeAt1M : IsrCode where
  addr l := kernelBase + 0x100000 + 16 * isrLabels.idxOf l
  addr_lt l := by
    have hle : isrLabels.idxOf l ≤ isrLabels.length := List.idxOf_le_length
    have hlen : isrLabels.length = 47 := by decide
    unfold kernelBase
    omega
  addr_inj l hl l' hl' heq := by
    have hidx : isrLabels.idxOf l = isrLabels.idxOf l' := by omega
    exact (List.idxOf_inj hl).mp hidx

/-- The handlers that `cpu_init` registers: the local interrupt with vector 0xf0 goes to its
handler, and vector 0x41 to none. -/
theorem deliver_cpuInit :
    ∃ s, IntrState.run isrCodeAt1M [] (IntrState.start isrCodeAt1M 24 (fun _ => 0) allOnes)
        [.registerLocal 0 0xf0 "lapic", .register 0 "timer", .enable 0 1] = some s ∧
      s.deliver isrCodeAt1M quietMachine 0x3000 0xf0 =
        some (.handled localApicEoi (some "lapic") (enter (.lint 0) quietMachine 0x3000)) := by
  obtain ⟨s, hrun, hdeliver⟩ := deliver_eq_served isrCodeAt1M [] 24 (fun _ => 0) allOnes
    [.registerLocal 0 0xf0 "lapic", .register 0 "timer", .enable 0 1] (by simp [IntrOp.Valid])
    (show 32 ≤ 0xf0 by decide) (by decide)
  exact ⟨s, hrun, hdeliver quietMachine 0x3000⟩

end Smor.Irq
