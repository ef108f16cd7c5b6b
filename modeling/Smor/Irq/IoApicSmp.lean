import Smor.Irq.Lines
import Smor.Lib.Locked

/-!
# Several CPUs at the I/O APIC

Every access to a register of the I/O APIC takes two stores: the number of the register, and then
the window. `io_apic_enable_irq` and `io_apic_disable_irq` do all of their accesses under
`io_apic.lock`. Here CPUs call them at the same time, and their accesses are interleaved one by
one.
-/

namespace Smor.Irq

open Smor.Acpi Smor.Lib

/-- The halves of the entry that `io_apic_redtbl_get` has read. -/
structure IrqLocals where
  lo : BitVec 32
  hi : BitVec 32

/-- `addr[0] = reg & 0xff`. -/
def storeRegsel (reg : ℕ) : IrqLocals × IoApic → Option (IrqLocals × IoApic) := fun (l, a) =>
  some (l, { a with ioregsel := reg &&& 0xff })

/-- A load of `addr[4]`. -/
def loadWindow (keep : IrqLocals → BitVec 32 → IrqLocals) :
    IrqLocals × IoApic → Option (IrqLocals × IoApic) := fun (l, a) =>
  some (keep l (a.regs a.ioregsel), a)

/-- `addr[4] = data`. -/
def storeWindow (data : IrqLocals → BitVec 32) :
    IrqLocals × IoApic → Option (IrqLocals × IoApic) := fun (l, a) =>
  some (l, { a with regs := Function.update a.regs a.ioregsel (data l) })

/-- The accesses of `io_apic_redtbl_get`. -/
def redtblGetCode (index : ℕ) : Code IrqLocals IoApic :=
  [storeRegsel (u32 (ioredtbl + index * 2 + 0)), loadWindow fun l lo => { l with lo := lo },
    storeRegsel (u32 (ioredtbl + index * 2 + 1)), loadWindow fun l hi => { l with hi := hi }]

/-- The accesses of `io_apic_redtbl_set`. -/
def redtblSetCode (index : ℕ) (data : IrqLocals → BitVec 64) : Code IrqLocals IoApic :=
  [storeRegsel (u32 (ioredtbl + index * 2 + 0)), storeWindow fun l => (data l).setWidth 32,
    storeRegsel (u32 (ioredtbl + index * 2 + 1)),
    storeWindow fun l => (data l >>> 32).setWidth 32]

/-- The accesses of a call, which has the lock. The override is looked up before. -/
def IrqCall.code (iovr : List Iovr) : IrqCall → Code IrqLocals IoApic
  | enable irq vector cpuMask =>
    redtblSetCode (ioApicInterruptOverride iovr irq) fun _ =>
      vector.setWidth 64 &&& 0xff ||| ioredtblDestmodLogical |||
        cpuMask.setWidth 64 <<< 56 &&& 0xff00000000000000
  | disable irq =>
    redtblGetCode (ioApicInterruptOverride iovr irq) ++
      redtblSetCode (ioApicInterruptOverride iovr irq) fun l =>
        l.lo.setWidth 64 + l.hi.setWidth 64 <<< 32 ||| ioredtblInterruptOff

/-- The calls as sections. -/
def irqSections (iovr : List Iovr) : Sections IrqCall IrqLocals IoApic where
  locals _ := ⟨0, 0⟩
  code := IrqCall.code iovr

/-- What a call makes of the line of an interrupt. -/
def IrqCall.line (irq : ℕ) : IrqCall → Option (Option (BitVec 8 × BitVec 8))
  | enable irq' vector cpuMask => if irq' = irq then some (some (vector, cpuMask)) else none
  | disable irq' => if irq' = irq then some none else none

deriving instance DecidableEq for IrqCall

instance (irq : ℕ) : Decidable (IsaIrq irq) := inferInstanceAs (Decidable (irq < 16))

section Sections

variable {iovr : List Iovr} {numRedtbl index irq : ℕ} {a b : IoApic} {l l' : IrqLocals}

/-- A section without anything between its accesses is the function. -/
theorem irqSections_call (a : IoApic) (c : IrqCall) :
    (irqSections iovr).call a c = some (c.step iovr a) := by
  cases c <;> rfl

/-- `IOREGSEL` holds the number of a register of the entry, and all other registers hold what they
held in `base`. -/
def Within (index : ℕ) (base : IoApic) (x : IrqLocals × IoApic) : Prop :=
  (x.2.ioregsel = redtblReg index 0 ∨ x.2.ioregsel = redtblReg index 1) ∧
    ∀ reg, reg ≠ redtblReg index 0 → reg ≠ redtblReg index 1 → x.2.regs reg = base.regs reg

/-- The accesses of a call, from the first on, stay with the entry of its interrupt. -/
theorem code_within (c : IrqCall) {base : IoApic} {front rest : Code IrqLocals IoApic}
    (hcode : c.code iovr = front ++ rest) (hrun : front.run (l, base) = some (l', a)) :
    front = [] ∨ Within (ioApicInterruptOverride iovr c.irq) base (l', a) := by
  let index := ioApicInterruptOverride iovr c.irq
  have hregsel : ∀ half < 2, ∀ x y, (∀ reg, reg ≠ redtblReg index 0 → reg ≠ redtblReg index 1 →
      x.2.regs reg = base.regs reg) → storeRegsel (u32 (ioredtbl + index * 2 + half)) x = some y →
      Within index base y := by
    rintro half hhalf x y hframe heq
    obtain rfl := Option.some.inj heq
    refine ⟨?_, hframe⟩
    interval_cases half
    · exact Or.inl rfl
    · exact Or.inr rfl
  have hload : ∀ keep x y, Within index base x → loadWindow keep x = some y →
      Within index base y := by
    rintro keep x y hx heq
    obtain rfl := Option.some.inj heq
    exact hx
  have hstore : ∀ data x y, Within index base x → storeWindow data x = some y →
      Within index base y := by
    rintro data x y hx heq
    obtain rfl := Option.some.inj heq
    refine ⟨hx.1, fun reg hlo hhi => ?_⟩
    have hne : reg ≠ x.2.ioregsel := by
      rcases hx.1 with h | h <;> rw [h] <;> assumption
    dsimp only
    rw [Function.update_of_ne hne]
    exact hx.2 reg hlo hhi
  have hkeep : ∀ f ∈ c.code iovr, ∀ x y, Within index base x → f x = some y →
      Within index base y := by
    intro f hf x y hx heq
    cases c <;>
      simp only [IrqCall.code, redtblGetCode, redtblSetCode, List.cons_append, List.nil_append,
        List.mem_cons, List.not_mem_nil, or_false] at hf <;>
      rcases hf with rfl | rfl | rfl | rfl | rfl | rfl | rfl | rfl
    all_goals
      first
        | exact hregsel 0 (by decide) x y hx.2 heq
        | exact hregsel 1 (by decide) x y hx.2 heq
        | exact hload _ x y hx heq
        | exact hstore _ x y hx heq
  cases front with
  | nil => exact Or.inl rfl
  | cons f front =>
    right
    -- the first access selects the low half
    have hfirst : f = storeRegsel (u32 (ioredtbl + index * 2 + 0)) := by
      cases c <;> exact (List.cons.inj hcode).1.symm
    rw [Code.run_cons] at hrun
    obtain ⟨x, hf, hrest⟩ := Option.bind_eq_some_iff.mp hrun
    rw [hfirst] at hf
    have hx := hregsel 0 (by decide) _ x (fun _ _ _ => rfl) hf
    refine Code.run_keeps (Q := Within index base) (fun g hg => hkeep g ?_) hx hrest
    rw [hcode]
    exact List.mem_append_left _ (List.mem_cons_of_mem f hg)

/-- What a call makes of a line. -/
theorem line_call (hapart : EntriesApart iovr numRedtbl) {c : IrqCall} (hc : IsaIrq c.irq)
    (hirq : IsaIrq irq) :
    (c.step iovr a).line (ioApicInterruptOverride iovr irq) =
      (c.line irq).getD (a.line (ioApicInterruptOverride iovr irq)) := by
  obtain ⟨-, hindex, happart⟩ := hapart c.irq hc
  by_cases heq : c.irq = irq
  · subst heq
    cases c with
    | enable irq vector cpuMask =>
      simp only [IrqCall.line, IrqCall.irq, if_true, Option.getD_some]
      exact line_enable vector cpuMask hindex
    | disable irq =>
      simp only [IrqCall.line, IrqCall.irq, if_true, Option.getD_some]
      exact line_disable hindex
  · have hline : c.line irq = none := by cases c <;> exact if_neg heq
    rw [hline, Option.getD_none]
    exact line_congr (entry_step_of_ne c hindex fun h => heq (happart irq hirq h).symm)

end Sections

section Runs

variable {ι : Type} [DecidableEq ι] {iovr : List Iovr} {numRedtbl irq : ℕ}

/-- CPUs enable and disable interrupts after `io_apic_init`, and their accesses are interleaved. The
calls take effect one after the other: when no call has the lock, all registers hold what the
finished calls leave there in their order. If the overrides give the interrupts entries of their
own, then at any moment the line of an interrupt that the call with the lock is not about is as the
last finished call for this interrupt has made it. -/
theorem ioApic_smp (a : IoApic) {s : LockedRun ι IrqCall IrqLocals IoApic}
    (hrun : Reaches (LockedRun.step (irqSections iovr))
      (LockedRun.Allowed fun c : IrqCall => IsaIrq c.irq)
      (LockedRun.start ι IrqCall IrqLocals (ioApicMaskAll a numRedtbl)) s) :
    ((∀ i, ¬ (s.phase i).Inside) →
      s.shared = ioApicRun iovr (ioApicMaskAll a numRedtbl) s.done) ∧
    (EntriesApart iovr numRedtbl → ∀ irq, IsaIrq irq →
      (∀ i c l rest, s.phase i = .inside c l rest → c.irq ≠ irq) →
        s.shared.line (ioApicInterruptOverride iovr irq) =
          (latest (IrqCall.line irq) s.done).getD none) := by
  obtain ⟨base, h⟩ := lockedOk_of_reaches hrun
  have hbase : base = ioApicRun iovr (ioApicMaskAll a numRedtbl) s.done := by
    have hdone := h.done
    have hcall : (irqSections iovr).call = fun a c => pure (IrqCall.step iovr a c) := by
      funext a c
      exact irqSections_call a c
    rw [hcall, List.foldlM_pure] at hdone
    exact (Option.some.inj hdone).symm
  refine ⟨fun hnone => hbase ▸ h.shared_eq hnone, fun hapart irq hirq hother => ?_⟩
  obtain ⟨hlt, hindex, -⟩ := hapart irq hirq
  have hlast : base.line (ioApicInterruptOverride iovr irq) =
      (latest (IrqCall.line irq) s.done).getD none := by
    have hview := view_of_foldlM (fun a => a.line (ioApicInterruptOverride iovr irq))
      (fun done c ahead u v hsplit _ hstep => by
        rw [irqSections_call, Option.some.injEq] at hstep
        subst hstep
        have hc : IsaIrq c.irq := h.valid c (Or.inl (by rw [hsplit]; simp))
        exact line_call hapart hc hirq) h.done
    rw [hview, line_maskAll a hindex hlt]
  rw [← hlast]
  by_cases hnone : ∀ i, ¬ (s.phase i).Inside
  · rw [h.shared_eq hnone]
  · rw [not_forall_not] at hnone
    obtain ⟨i, hi⟩ := hnone
    cases hphase : s.phase i with
    | idle => rw [hphase] at hi; exact hi.elim
    | spinning c => rw [hphase] at hi; exact hi.elim
    | inside c l rest =>
      obtain ⟨front, hcode, hfront⟩ := h.inside i c l rest hphase
      have hc : IsaIrq c.irq := h.valid c (Or.inr ⟨i, by rw [hphase]; rfl⟩)
      obtain ⟨-, hcindex, hcapart⟩ := hapart c.irq hc
      have hne : ioApicInterruptOverride iovr irq ≠ ioApicInterruptOverride iovr c.irq :=
        fun heq => hother i c l rest hphase (hcapart irq hirq heq).symm
      obtain rfl | hwithin := code_within c hcode hfront
      · rw [← (Prod.mk.inj (Option.some.inj hfront)).2]
      · apply line_congr
        have hframe := hwithin.2
        simp only [redtblReg_of_lt hcindex (by decide : 0 < 2),
          redtblReg_of_lt hcindex (by decide : 1 < 2), Nat.add_zero] at hframe
        unfold IoApic.entry
        rw [hframe _ (by omega) (by omega), hframe _ (by omega) (by omega)]

/-- One CPU has enabled the interrupt 0 and another is between the stores that disable the interrupt
1. -/
theorem ioApic_smp_twoCpus :
    ∃ s : LockedRun Bool IrqCall IrqLocals IoApic,
      (s.phase true).call = some (.disable 1) ∧ s.done = [.enable 0 0x40 1] ∧
        s.shared.line 0 = some (0x40, 1) := by
  let ops : List (LockedOp Bool IrqCall) :=
    [.call false (.enable 0 0x40 1), .go false, .go false, .call true (.disable 1), .go true] ++
      List.replicate 4 (.go false) ++ List.replicate 6 (.go true)
  have hrun : (runOps (LockedRun.step (irqSections []))
      (LockedRun.Allowed fun c : IrqCall => IsaIrq c.irq)
      (LockedRun.start Bool IrqCall IrqLocals (ioApicMaskAll allOnes 24)) ops).map
        (fun s => ((s.phase false).call, (s.phase true).call, s.done)) =
      some (none, some (.disable 1), [.enable 0 0x40 1]) := by decide +kernel
  obtain ⟨s, hs, hvalue⟩ := Option.map_eq_some_iff.mp hrun
  simp only [Prod.mk.injEq] at hvalue
  obtain ⟨hidle, hcall, hdone⟩ := hvalue
  have hapart : EntriesApart [] 24 := fun irq hirq =>
    ⟨lt_trans hirq (by decide), lt_trans hirq (by decide), fun _ _ heq => heq⟩
  have hother : ∀ i c l rest, s.phase i = .inside c l rest → c.irq ≠ 0 := by
    rintro (_ | _) c l rest hphase
    · rw [hphase] at hidle
      cases hidle
    · rw [hphase] at hcall
      obtain rfl := Option.some.inj hcall
      decide
  have hline := (ioApic_smp allOnes (Reaches.of_runOps hs)).2 hapart 0 (by decide) hother
  rw [hdone] at hline
  exact ⟨s, hcall, hdone, hline⟩

end Runs

end Smor.Irq
