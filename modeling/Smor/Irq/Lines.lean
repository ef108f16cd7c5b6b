import Smor.Irq.Dispatch
import Mathlib.Tactic.IntervalCases

/-!
# From a line of the I/O APIC to its handler

`intr_irq_enable` takes the vector of a line from the table of handlers and puts it in the
redirection entry of the line. If a handler is registered before its line is enabled, every entry
that is not masked leads to the handler of its line.
-/

namespace Smor.Irq

open Smor.Acpi Smor.Isr Smor.Lib

/-- The vector and the CPUs of an entry that is not masked. -/
def IoApic.line (a : IoApic) (index : ℕ) : Option (BitVec 8 × BitVec 8) :=
  let r := a.redirection index
  if r.masked then none else some (r.vector, r.destination)

/-- A handler is registered before its line is enabled. -/
def RegisteredFirst {η : Type} (ops : List (IntrOp η)) : Prop :=
  ∀ done irq cpuMask ahead, ops = done ++ .enable irq cpuMask :: ahead →
    ∃ handler, .register irq handler ∈ done

/-- A line is enabled or disabled at some time. -/
def Drives {η : Type} (ops : List (IntrOp η)) (irq : ℕ) : Prop :=
  ∃ op ∈ ops, (op.line irq).isSome

/-- The lines in use have entries of their own, whose registers have numbers of 8 bits. -/
def LinesApart {η : Type} (iovr : List Iovr) (numRedtbl : ℕ) (ops : List (IntrOp η)) : Prop :=
  ∀ irq, Drives ops irq →
    ioApicInterruptOverride iovr irq < numRedtbl ∧ ioApicInterruptOverride iovr irq < 120 ∧
      ∀ other, Drives ops other →
        ioApicInterruptOverride iovr other = ioApicInterruptOverride iovr irq → other = irq

/-- The vectors from `IRQ_BASE` on are used for the lines only. -/
def VectorsApart {η : Type} (ops : List (IntrOp η)) : Prop :=
  ∀ irq < 16, ∀ op ∈ ops, ∀ l, op.gate (irqBase + irq) = some l → l = .irq irq

section Lines

variable {η : Type} {code : IsrCode} {iovr : List Iovr} {numRedtbl irq index : ℕ}
  {s s' : IntrState η} {mem : ℕ → BitVec 8} {a : IoApic} {op : IntrOp η} {ops : List (IntrOp η)}

/-- The parts of an entry of `io_apic_enable_irq`. -/
theorem enable_parts (vector cpuMask : BitVec 8) (old : BitVec 64) :
    (((IrqCall.enable irq vector cpuMask).entry old).setWidth 32).setWidth 8 = vector ∧
      ((((IrqCall.enable irq vector cpuMask).entry old) >>> 32).setWidth 32 >>> 24).setWidth 8 =
        cpuMask ∧
      (((IrqCall.enable irq vector cpuMask).entry old).setWidth 32).getLsbD 16 = false := by
  refine ⟨?_, ?_, ?_⟩
  · ext i hi
    interval_cases i <;> simp [IrqCall.entry, ioredtblDestmodLogical]
  · ext i hi
    interval_cases i <;> simp [IrqCall.entry, ioredtblDestmodLogical]
  · simp [IrqCall.entry, ioredtblDestmodLogical]

/-- What an entry of `io_apic_enable_irq` says. -/
theorem line_enable (vector cpuMask : BitVec 8) (hindex : ioApicInterruptOverride iovr irq < 120) :
    (ioApicEnableIrq iovr a irq vector cpuMask).line (ioApicInterruptOverride iovr irq) =
      some (vector, cpuMask) := by
  have hentry : (ioApicEnableIrq iovr a irq vector cpuMask).entry
      (ioApicInterruptOverride iovr irq) = _ :=
    @entry_step iovr a (.enable irq vector cpuMask) hindex
  simp only [IoApic.line, IoApic.redirection, hentry]
  rw [(enable_parts vector cpuMask _).1, (enable_parts vector cpuMask _).2.1,
    (enable_parts vector cpuMask _).2.2]
  rfl

/-- `io_apic_disable_irq` masks the entry. -/
theorem line_disable (hindex : ioApicInterruptOverride iovr irq < 120) :
    (ioApicDisableIrq iovr a irq).line (ioApicInterruptOverride iovr irq) = none := by
  have hentry : (ioApicDisableIrq iovr a irq).entry (ioApicInterruptOverride iovr irq) = _ :=
    @entry_step iovr a (.disable irq) hindex
  have hmasked : ∀ old, (((IrqCall.disable irq).entry old).setWidth 32).getLsbD 16 = true := by
    intro old
    simp [IrqCall.entry, ioredtblInterruptOff]
  simp only [IoApic.line, IoApic.redirection, hentry, hmasked, if_true]

/-- A line depends on its entry. -/
theorem line_congr {b : IoApic} (h : b.entry index = a.entry index) :
    b.line index = a.line index := by
  unfold IoApic.line IoApic.redirection
  rw [h]

/-- After `io_apic_init` all entries are masked. -/
theorem line_maskAll (a : IoApic) (hindex : index < 120) (hlt : index < numRedtbl) :
    (ioApicMaskAll a numRedtbl).line index = none := by
  -- the numbers of the registers may be cut, but a low half is never written over a high one
  have hregs : ∀ n, index < n →
      ((ioApicMaskAll a n).regs (ioredtbl + 2 * index)) = ioredtblInterruptOff.setWidth 32 := by
    intro n
    induction n with
    | zero => intro h; omega
    | succ n ih =>
      intro h
      have hlow : ioredtbl + 2 * index = redtblReg index 0 := by
        rw [redtblReg_of_lt hindex (by decide), Nat.add_zero]
      have hhalf : redtblReg index 0 ≠ redtblReg n 1 := by
        rw [redtblReg_eq, redtblReg_eq]
        omega
      have hset : (ioApicMaskAll a (n + 1)).regs =
          Function.update (Function.update (ioApicMaskAll a n).regs (redtblReg n 0)
            (ioredtblInterruptOff.setWidth 32)) (redtblReg n 1)
            ((ioredtblInterruptOff >>> 32).setWidth 32) := by
        rw [ioApicMaskAll, List.range_succ, List.foldl_append]
        rfl
      rw [hset, hlow, Function.update_of_ne hhalf, Function.update_apply]
      split_ifs with heq
      · rfl
      · have hne : index ≠ n := fun h => heq (by rw [h])
        rw [← hlow]
        exact ih (by omega)
  have hmasked : ((ioApicMaskAll a numRedtbl).entry index).1.getLsbD 16 = true := by
    rw [IoApic.entry, hregs numRedtbl hlt]
    change (ioredtblInterruptOff.setWidth 32).getLsbD 16 = true
    decide
  simp only [IoApic.line, IoApic.redirection, hmasked, if_true]

/-- A call for another entry keeps what an entry says. -/
theorem line_step_of_ne (hstep : s.step code iovr op = some s')
    (hne : ∀ irq, (op.line irq).isSome →
      ioApicInterruptOverride iovr irq < 120 ∧ ioApicInterruptOverride iovr irq ≠ index) :
    s'.ioApic.line index = s.ioApic.line index := by
  cases op with
  | enable irq cpuMask =>
    obtain ⟨hlt, hne⟩ := hne irq (by simp [IntrOp.line])
    rw [IntrState.step] at hstep
    split_ifs at hstep
    obtain rfl := Option.some.inj hstep
    exact line_congr (entry_step_of_ne (.enable irq (s.irqHandlers irq).vector cpuMask) hlt
      (Ne.symm hne))
  | disable irq =>
    obtain ⟨hlt, hne⟩ := hne irq (by simp [IntrOp.line])
    obtain rfl := Option.some.inj hstep
    exact line_congr (entry_step_of_ne (.disable irq) hlt (Ne.symm hne))
  | register irq' handler =>
    simp only [IntrState.step, IntrState.registerIrqHandler] at hstep
    split_ifs at hstep
    obtain rfl := Option.some.inj hstep
    rfl
  | registerLocal irq' vector handler =>
    simp only [IntrState.step, IntrState.registerLocalIrqHandler] at hstep
    split_ifs at hstep
    obtain rfl := Option.some.inj hstep
    rfl
  | unset vector =>
    obtain rfl := Option.some.inj hstep
    rfl

/-- What a call does to the entry of a line, if the table of handlers has the vector of the line
before it is enabled. -/
theorem line_step (hstep : s.step code iovr op = some s')
    (hindex : ioApicInterruptOverride iovr irq < 120)
    (hapart : ∀ irq', (op.line irq').isSome → ioApicInterruptOverride iovr irq' < 120 ∧
      (ioApicInterruptOverride iovr irq' = ioApicInterruptOverride iovr irq → irq' = irq))
    (hvector : ∀ cpuMask, op = .enable irq cpuMask →
      (s.irqHandlers irq).vector = BitVec.ofNat 8 (irqBase + irq)) :
    s'.ioApic.line (ioApicInterruptOverride iovr irq) =
      ((op.line irq).map fun o => o.map fun cpuMask =>
        (BitVec.ofNat 8 (irqBase + irq), cpuMask)).getD
          (s.ioApic.line (ioApicInterruptOverride iovr irq)) := by
  cases hline : op.line irq with
  | none =>
    refine line_step_of_ne hstep fun irq' hirq' => ⟨(hapart irq' hirq').1, fun heq => ?_⟩
    obtain rfl := (hapart irq' hirq').2 heq
    simp [hline] at hirq'
  | some o =>
    cases op with
    | enable irq' cpuMask =>
      simp only [IntrOp.line, Option.ite_none_right_eq_some, Option.some.injEq] at hline
      obtain ⟨rfl, rfl⟩ := hline
      rw [IntrState.step] at hstep
      split_ifs at hstep
      obtain rfl := Option.some.inj hstep
      simp only [line_enable _ _ hindex, hvector cpuMask rfl, Option.map_some, Option.getD_some]
    | disable irq' =>
      simp only [IntrOp.line, Option.ite_none_right_eq_some, Option.some.injEq] at hline
      obtain ⟨rfl, rfl⟩ := hline
      obtain rfl := Option.some.inj hstep
      simp only [line_disable hindex, Option.map_some, Option.map_none, Option.getD_some]
    | register irq' _ | registerLocal irq' _ _ | unset _ => cases hline

/-- The lines after `io_apic_init` and a sequence of calls. -/
theorem line_run {io : IoApic} (hapart : LinesApart iovr numRedtbl ops)
    (hfirst : RegisteredFirst ops)
    (hrun : IntrState.run code iovr (IntrState.start code numRedtbl mem io) ops = some s)
    (hirq : Drives ops irq) :
    s.ioApic.line (ioApicInterruptOverride iovr irq) =
      ((latest (IntrOp.line irq) ops).getD none).map fun cpuMask =>
        (BitVec.ofNat 8 (irqBase + irq), cpuMask) := by
  obtain ⟨hlt, hindex, -⟩ := hapart irq hirq
  have hview := view_of_foldlM (fun s => s.ioApic.line (ioApicInterruptOverride iovr irq))
    (fun done op ahead u v hsplit hdone hstep => by
      refine line_step hstep hindex (fun irq' hirq' => ?_) fun cpuMask heq => ?_
      · obtain ⟨-, hindex', -⟩ := hapart irq' ⟨op, by simp [hsplit], hirq'⟩
        exact ⟨hindex', fun heq => (hapart irq hirq).2.2 irq' ⟨op, by simp [hsplit], hirq'⟩ heq⟩
      · obtain ⟨handler, hmem⟩ := hfirst done irq cpuMask ahead (heq ▸ hsplit)
        have hsome : (latest (IntrOp.irqHandler irq) done).isSome :=
          latest_isSome.mpr ⟨_, hmem, by simp [IntrOp.irqHandler]⟩
        obtain ⟨h, hlatest⟩ := Option.isSome_iff_exists.mp hsome
        rw [irqHandlers_run hdone irq, hlatest]
        rfl) hrun
  simp only [IntrState.start, line_maskAll io hindex hlt] at hview
  rw [hview, latest_map]
  cases latest (IntrOp.line irq) ops <;> rfl

/-- An entry that belongs to no line in use stays masked. -/
theorem line_run_other {io : IoApic} (hapart : LinesApart iovr numRedtbl ops)
    (hrun : IntrState.run code iovr (IntrState.start code numRedtbl mem io) ops = some s)
    (hindex : index < 120) (hlt : index < numRedtbl)
    (hother : ∀ irq, Drives ops irq → ioApicInterruptOverride iovr irq ≠ index) :
    s.ioApic.line index = none := by
  have hview := @view_of_foldlM _ _ _ _ (fun s => s.ioApic.line index) (fun _ => none) _ _ _
    (fun done op ahead u v hsplit _ hstep => line_step_of_ne hstep fun irq hirq =>
      have hdrives : Drives ops irq := ⟨op, by simp [hsplit], hirq⟩
      ⟨(hapart irq hdrives).2.1, hother irq hdrives⟩) hrun
  rw [hview]
  simpa [latest, IntrState.start] using line_maskAll io hindex hlt

end Lines

/-- From a line of the I/O APIC to its handler: after `idt_init`, `io_apic_init`, and any sequence
of calls in which a handler is registered before its line is enabled, a line that was enabled last
is sent to its CPUs with a vector that goes to the handler that was registered last for it, with the
frame of the interrupted state, and all other entries of the I/O APIC are masked. -/
theorem line_to_handler {η : Type} (code : IsrCode) (iovr : List Iovr) (numRedtbl : ℕ)
    (mem : ℕ → BitVec 8) (io : IoApic) (ops : List (IntrOp η))
    (hapart : LinesApart iovr numRedtbl ops) (hops : ∀ op ∈ ops, op.Valid)
    (hfirst : RegisteredFirst ops) (hvectors : VectorsApart ops) :
    ∃ s, IntrState.run code iovr (IntrState.start code numRedtbl mem io) ops = some s ∧
      (∀ irq, Drives ops irq → s.ioApic.line (ioApicInterruptOverride iovr irq) =
        ((latest (IntrOp.line irq) ops).getD none).map fun cpuMask =>
          (BitVec.ofNat 8 (irqBase + irq), cpuMask)) ∧
      (∀ irq, Drives ops irq → ∀ vector cpus,
        s.ioApic.line (ioApicInterruptOverride iovr irq) = some (vector, cpus) →
        ∃ handler, latest (IntrOp.irqHandler irq) ops = some handler ∧
          ∀ m returnTo, s.deliver code m returnTo vector.toNat =
            some (.handled localApicEoi (some handler)
              (enter (.irq (BitVec.ofNat 64 irq)) m returnTo))) ∧
      ∀ index < numRedtbl, index < 120 →
        (∀ irq, Drives ops irq → ioApicInterruptOverride iovr irq ≠ index) →
        s.ioApic.line index = none := by
  obtain ⟨s, hrun⟩ := Option.isSome_iff_exists.mp
    (run_isSome code iovr hops (IntrState.start code numRedtbl mem io))
  refine ⟨s, hrun, fun irq hirq => line_run hapart hfirst hrun hirq,
    fun irq hdrives vector cpus hline => ?_,
    fun index hlt hindex hother => line_run_other hapart hrun hindex hlt hother⟩
  have hirq : irq < 16 := by
    obtain ⟨op, hop, hset⟩ := hdrives
    have hvalid := hops op hop
    cases op with
    | enable irq' cpuMask | disable irq' =>
      simp only [IntrOp.line, Option.isSome_ite] at hset
      exact hset ▸ hvalid
    | register irq' _ | registerLocal irq' _ _ | unset _ => cases hset
  rw [line_run hapart hfirst hrun hdrives] at hline
  obtain ⟨cpuMask, henabled, heq⟩ := Option.map_eq_some_iff.mp hline
  rw [Prod.mk.injEq] at heq
  obtain ⟨rfl, rfl⟩ := heq
  -- the line has been enabled, so a handler has been registered for it
  obtain ⟨handler', hregister⟩ : ∃ handler, IntrOp.register irq handler ∈ ops := by
    have hlatest : latest (IntrOp.line irq) ops = some (some cpuMask) := by
      cases h : latest (IntrOp.line irq) ops with
      | none => simp [h] at henabled
      | some o => simpa [h] using henabled
    obtain ⟨op, hmem, hset⟩ := exists_of_latest hlatest
    cases op with
    | enable irq' cpuMask' =>
      simp only [IntrOp.line, Option.ite_none_right_eq_some, Option.some.injEq] at hset
      obtain ⟨rfl, rfl⟩ := hset
      obtain ⟨done, ahead, hsplit⟩ := List.append_of_mem hmem
      obtain ⟨handler, hdone⟩ := hfirst done irq' cpuMask' ahead hsplit
      exact ⟨handler, by simp [hsplit, hdone]⟩
    | disable irq' => simp [IntrOp.line] at hset
    | register irq' _ | registerLocal irq' _ _ | unset _ => cases hset
  obtain ⟨handler, hhandler⟩ := Option.isSome_iff_exists.mp (latest_isSome.mpr
    ⟨_, hregister, by simp [IntrOp.irqHandler]⟩ : (latest (IntrOp.irqHandler irq) ops).isSome)
  obtain ⟨l, hgate⟩ := Option.isSome_iff_exists.mp (latest_isSome.mpr
    ⟨_, hregister, by simp [IntrOp.gate]⟩ : (latest (IntrOp.gate (irqBase + irq)) ops).isSome)
  obtain rfl : l = .irq irq := by
    obtain ⟨op, hmem, hset⟩ := exists_of_latest hgate
    exact hvectors irq hirq op hmem l hset
  refine ⟨handler, hhandler, fun m returnTo => ?_⟩
  have hentry := gate_run hops hrun (irqBase + irq)
  simp only [hgate, Option.map_some, Option.getD_some] at hentry
  rw [irqVector_toNat hirq, deliver_irq hentry hirq, irqHandlers_run hrun irq, hhandler]
  rfl

/-- The timer of `cpu_init`, on the entry 2 of the I/O APIC. -/
theorem line_to_handler_cpuInit :
    ∃ s, IntrState.run isrCodeAt1M [⟨0, 0, 2⟩]
        (IntrState.start isrCodeAt1M 24 (fun _ => 0) allOnes)
        [.registerLocal 0 0xf0 "lapic", .register 0 "timer", .enable 0 1] = some s ∧
      s.ioApic.line 2 = some (0x40, 1) ∧
      s.deliver isrCodeAt1M quietMachine 0x3000 0x40 =
        some (.handled localApicEoi (some "timer") (enter (.irq 0) quietMachine 0x3000)) := by
  let ops : List (IntrOp String) :=
    [.registerLocal 0 0xf0 "lapic", .register 0 "timer", .enable 0 1]
  have hdrives : ∀ irq, Drives ops irq ↔ irq = 0 := by
    intro irq
    constructor
    · rintro ⟨op, hop, hset⟩
      simp only [ops, List.mem_cons, List.not_mem_nil, or_false] at hop
      rcases hop with rfl | rfl | rfl
      · cases hset
      · cases hset
      · simp only [IntrOp.line, Option.isSome_ite] at hset
        exact hset.symm
    · rintro rfl
      exact ⟨.enable 0 1, by simp [ops], rfl⟩
  have hfirst : RegisteredFirst ops := by
    intro done irq cpuMask ahead hsplit
    rcases done with _ | ⟨a, _ | ⟨b, done⟩⟩
    · simp [ops] at hsplit
    · simp [ops] at hsplit
    · simp only [ops, List.cons_append, List.cons.injEq] at hsplit
      obtain ⟨rfl, rfl, hsplit⟩ := hsplit
      rcases done with _ | ⟨c, done⟩
      · simp only [List.nil_append, List.cons.injEq, IntrOp.enable.injEq] at hsplit
        exact ⟨"timer", by simp [← hsplit.1.1]⟩
      · simp at hsplit
  have hvectors : VectorsApart ops := by
    intro irq hirq op hop l hgate
    simp only [ops, List.mem_cons, List.not_mem_nil, or_false] at hop
    rcases hop with rfl | rfl | rfl
    · simp only [IntrOp.gate, Option.ite_none_right_eq_some] at hgate
      have hvector : (0xf0 : BitVec 8).toNat = irqBase + irq := hgate.1
      simp [irqBase] at hvector
      omega
    · simp only [IntrOp.gate, Option.ite_none_right_eq_some, Option.some.injEq] at hgate
      rw [← hgate.2, Nat.add_left_cancel hgate.1]
    · cases hgate
  obtain ⟨s, hrun, hlines, hhandlers, -⟩ := line_to_handler isrCodeAt1M [⟨0, 0, 2⟩] 24 (fun _ => 0)
    allOnes ops (fun irq hirq => by
      rw [(hdrives irq).mp hirq]
      exact ⟨by decide, by decide, fun other hother _ => (hdrives other).mp hother⟩)
    (by simp [ops, IntrOp.Valid]) hfirst hvectors
  have hline : s.ioApic.line 2 = some (0x40, 1) := hlines 0 ((hdrives 0).mpr rfl)
  obtain ⟨handler, hlatest, hdeliver⟩ := hhandlers 0 ((hdrives 0).mpr rfl) 0x40 1 hline
  obtain rfl : "timer" = handler := Option.some.inj hlatest
  exact ⟨s, hrun, hline, hdeliver quietMachine 0x3000⟩

end Smor.Irq
