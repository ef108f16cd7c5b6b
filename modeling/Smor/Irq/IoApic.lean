import Smor.Acpi.Tables

/-!
# The redirection table of the I/O APIC

An I/O APIC has a pair of registers for each of its entries, and they are reached through one
window by a register number of 8 bits. `io_apic.c` looks up the entry of an interrupt in the
overrides that the firmware has supplied, and takes the entry with the number of the interrupt if
there is none. It compares the result with nothing: this file says for which overrides the
calls for one interrupt leave everything else alone.
-/

namespace Smor.Irq

open Smor.Acpi

/-- The registers of an I/O APIC, and the number that was last written to `IOREGSEL`. All
registers hold what is written to them. -/
structure IoApic where
  ioregsel : ℕ
  regs : ℕ → BitVec 32

/-- `io_apic_read`. -/
def ioApicRead (a : IoApic) (reg : ℕ) : BitVec 32 × IoApic :=
  let a := { a with ioregsel := reg &&& 0xff }
  (a.regs a.ioregsel, a)

/-- `io_apic_write`. -/
def ioApicWrite (a : IoApic) (reg : ℕ) (data : BitVec 32) : IoApic :=
  let a := { a with ioregsel := reg &&& 0xff }
  { a with regs := Function.update a.regs a.ioregsel data }

/-- `IOREDTBL`. -/
def ioredtbl : ℕ := 0x10

/-- `io_apic_redtbl_get`. -/
def ioApicRedtblGet (a : IoApic) (index : ℕ) : BitVec 64 × IoApic :=
  let lo := ioApicRead a (u32 (ioredtbl + index * 2 + 0))
  let hi := ioApicRead lo.2 (u32 (ioredtbl + index * 2 + 1))
  (lo.1.setWidth 64 + hi.1.setWidth 64 <<< 32, hi.2)

/-- `io_apic_redtbl_set`. -/
def ioApicRedtblSet (a : IoApic) (index : ℕ) (data : BitVec 64) : IoApic :=
  let a := ioApicWrite a (u32 (ioredtbl + index * 2 + 0)) (data.setWidth 32)
  ioApicWrite a (u32 (ioredtbl + index * 2 + 1)) ((data >>> 32).setWidth 32)

/-- `io_apic_interrupt_override`. -/
def ioApicInterruptOverride (iovr : List Iovr) (irq : ℕ) : ℕ :=
  match iovr with
  | [] => irq
  | o :: iovr => if o.irq = irq then o.gsi else ioApicInterruptOverride iovr irq

/-- `IOREDTBL_INTERRUPT_OFF`. -/
def ioredtblInterruptOff : BitVec 64 := 1 <<< 16

/-- `IOREDTBL_DESTMOD_LOGICAL`. The other flags of an entry that is enabled are 0. -/
def ioredtblDestmodLogical : BitVec 64 := 1 <<< 11

/-- `io_apic_enable_irq`. -/
def ioApicEnableIrq (iovr : List Iovr) (a : IoApic) (irq : ℕ) (vector cpuMask : BitVec 8) :
    IoApic :=
  let entry := vector.setWidth 64 &&& 0xff ||| ioredtblDestmodLogical |||
    cpuMask.setWidth 64 <<< 56 &&& 0xff00000000000000
  ioApicRedtblSet a (ioApicInterruptOverride iovr irq) entry

/-- `io_apic_disable_irq`. -/
def ioApicDisableIrq (iovr : List Iovr) (a : IoApic) (irq : ℕ) : IoApic :=
  let index := ioApicInterruptOverride iovr irq
  let entry := ioApicRedtblGet a index
  ioApicRedtblSet entry.2 index (entry.1 ||| ioredtblInterruptOff)

/-- A call of one of the two functions. -/
inductive IrqCall
  | enable (irq : ℕ) (vector cpuMask : BitVec 8)
  | disable (irq : ℕ)

namespace IrqCall

/-- The interrupt of the call. -/
def irq : IrqCall → ℕ
  | enable irq _ _ => irq
  | disable irq => irq

/-- What the call does. Calls on several CPUs are in the order in which they take the lock. -/
def step (iovr : List Iovr) (a : IoApic) : IrqCall → IoApic
  | enable irq vector cpuMask => ioApicEnableIrq iovr a irq vector cpuMask
  | disable irq => ioApicDisableIrq iovr a irq

end IrqCall

/-- The state after a sequence of calls. -/
def ioApicRun (iovr : List Iovr) (a : IoApic) (calls : List IrqCall) : IoApic :=
  calls.foldl (IrqCall.step iovr) a

/-- The ISA interrupts. -/
def IsaIrq (irq : ℕ) : Prop := irq < 16

/-- What a redirection entry says. -/
structure Redirection where
  vector : BitVec 8
  destination : BitVec 8
  masked : Bool

namespace IoApic

/-- The two registers of an entry. -/
def entry (a : IoApic) (index : ℕ) : BitVec 32 × BitVec 32 :=
  (a.regs (ioredtbl + 2 * index), a.regs (ioredtbl + 2 * index + 1))

/-- What an entry says. -/
def redirection (a : IoApic) (index : ℕ) : Redirection where
  vector := (a.entry index).1.setWidth 8
  destination := ((a.entry index).2 >>> 24).setWidth 8
  masked := (a.entry index).1.getLsbD 16

end IoApic

/-- A call changes no entry of another interrupt, and no register outside the entry of its own. -/
structure KeepsOthers (iovr : List Iovr) (a : IoApic) (c : IrqCall) : Prop where
  entries : ∀ irq, IsaIrq irq → irq ≠ c.irq →
    (c.step iovr a).entry (ioApicInterruptOverride iovr irq) =
      a.entry (ioApicInterruptOverride iovr irq)
  registers : ∀ reg, reg ≠ ioredtbl + 2 * ioApicInterruptOverride iovr c.irq →
    reg ≠ ioredtbl + 2 * ioApicInterruptOverride iovr c.irq + 1 →
    (c.step iovr a).regs reg = a.regs reg

/-- All ISA interrupts have an entry, what it says after a sequence of calls is what the calls for
the interrupt alone have made of it, and no call changes anything else. -/
structure Isolated (iovr : List Iovr) (numRedtbl : ℕ) (a : IoApic) (calls : List IrqCall) :
    Prop where
  valid : ∀ irq, IsaIrq irq → ioApicInterruptOverride iovr irq < numRedtbl
  own : ∀ irq, IsaIrq irq →
    (ioApicRun iovr a calls).redirection (ioApicInterruptOverride iovr irq) =
      (ioApicRun iovr a (calls.filter fun c => c.irq = irq)).redirection
        (ioApicInterruptOverride iovr irq)
  others : ∀ done c ahead, done ++ c :: ahead = calls → KeepsOthers iovr (ioApicRun iovr a done) c

/-- The ISA interrupts have entries of their own, whose registers have numbers of 8 bits. -/
def EntriesApart (iovr : List Iovr) (numRedtbl : ℕ) : Prop :=
  ∀ irq, IsaIrq irq →
    ioApicInterruptOverride iovr irq < numRedtbl ∧ ioApicInterruptOverride iovr irq < 120 ∧
      ∀ other, IsaIrq other →
        ioApicInterruptOverride iovr other = ioApicInterruptOverride iovr irq → other = irq

section Entries

variable {iovr : List Iovr} {numRedtbl index reg irq : ℕ} {a b : IoApic} {calls : List IrqCall}

/-- The number of a register as it is written to `IOREGSEL`. -/
def redtblReg (index half : ℕ) : ℕ := u32 (ioredtbl + index * 2 + half) &&& 0xff

theorem redtblReg_eq (half : ℕ) : redtblReg index half = (ioredtbl + 2 * index + half) % 256 := by
  have hmask : ∀ x, x &&& 0xff = x % 2 ^ 8 := fun x => Nat.and_two_pow_sub_one_eq_mod x 8
  rw [redtblReg, hmask]
  unfold u32
  omega

/-- What a call puts in the entry of its interrupt. -/
def IrqCall.entry (c : IrqCall) (old : BitVec 64) : BitVec 64 :=
  match c with
  | enable _ vector cpuMask =>
    vector.setWidth 64 &&& 0xff ||| ioredtblDestmodLogical |||
      cpuMask.setWidth 64 <<< 56 &&& 0xff00000000000000
  | disable _ => old ||| ioredtblInterruptOff

/-- The value of an entry. -/
def joinEntry (lo hi : BitVec 32) : BitVec 64 := lo.setWidth 64 + hi.setWidth 64 <<< 32

/-- A call writes the low and then the high half of an entry. -/
theorem regs_step (c : IrqCall) :
    (c.step iovr a).regs =
      let lo := redtblReg (ioApicInterruptOverride iovr c.irq) 0
      let hi := redtblReg (ioApicInterruptOverride iovr c.irq) 1
      let entry := c.entry (joinEntry (a.regs lo) (a.regs hi))
      Function.update (Function.update a.regs lo (entry.setWidth 32)) hi
        ((entry >>> 32).setWidth 32) := by
  cases c <;> rfl

/-- The registers of an entry whose numbers fit. -/
theorem redtblReg_of_lt (hindex : index < 120) {half : ℕ} (hhalf : half < 2) :
    redtblReg index half = ioredtbl + 2 * index + half := by
  rw [redtblReg_eq, ioredtbl]
  omega

/-- The entry of the interrupt after a call. -/
theorem entry_step (c : IrqCall) (hindex : ioApicInterruptOverride iovr c.irq < 120) :
    (c.step iovr a).entry (ioApicInterruptOverride iovr c.irq) =
      let old := a.entry (ioApicInterruptOverride iovr c.irq)
      let entry := c.entry (joinEntry old.1 old.2)
      (entry.setWidth 32, (entry >>> 32).setWidth 32) := by
  have hne : ioredtbl + 2 * ioApicInterruptOverride iovr c.irq ≠
      ioredtbl + 2 * ioApicInterruptOverride iovr c.irq + 1 := by omega
  simp only [IoApic.entry, regs_step, redtblReg_of_lt hindex (by decide : 0 < 2),
    redtblReg_of_lt hindex (by decide : 1 < 2), Nat.add_zero, Function.update_self,
    Function.update_of_ne hne]

/-- A call writes no register outside the entry of its interrupt. -/
theorem regs_step_of_ne (c : IrqCall) (hindex : ioApicInterruptOverride iovr c.irq < 120)
    (hlo : reg ≠ ioredtbl + 2 * ioApicInterruptOverride iovr c.irq)
    (hhi : reg ≠ ioredtbl + 2 * ioApicInterruptOverride iovr c.irq + 1) :
    (c.step iovr a).regs reg = a.regs reg := by
  simp only [regs_step, redtblReg_of_lt hindex (by decide : 0 < 2),
    redtblReg_of_lt hindex (by decide : 1 < 2), Nat.add_zero]
  rw [Function.update_of_ne hhi, Function.update_of_ne hlo]

/-- A call keeps the other entries. -/
theorem entry_step_of_ne (c : IrqCall) (hindex : ioApicInterruptOverride iovr c.irq < 120)
    (hne : index ≠ ioApicInterruptOverride iovr c.irq) :
    (c.step iovr a).entry index = a.entry index := by
  unfold IoApic.entry
  rw [regs_step_of_ne c hindex (by omega) (by omega),
    regs_step_of_ne c hindex (by omega) (by omega)]

/-- With entries apart, a call keeps what belongs to others. -/
theorem EntriesApart.keepsOthers (h : EntriesApart iovr numRedtbl) {c : IrqCall}
    (hc : IsaIrq c.irq) : KeepsOthers iovr a c := by
  obtain ⟨-, hindex, happart⟩ := h c.irq hc
  constructor
  · intro irq hirq hne
    apply entry_step_of_ne c hindex
    exact fun heq => hne (happart irq hirq heq)
  · intro reg hlo hhi
    exact regs_step_of_ne c hindex hlo hhi

/-- With entries apart, the entry of an interrupt depends on the calls for it. -/
theorem EntriesApart.entry_run (h : EntriesApart iovr numRedtbl)
    (hcalls : ∀ c ∈ calls, IsaIrq c.irq) (hirq : IsaIrq irq)
    (hstart : a.entry (ioApicInterruptOverride iovr irq) =
      b.entry (ioApicInterruptOverride iovr irq)) :
    (ioApicRun iovr a calls).entry (ioApicInterruptOverride iovr irq) =
      (ioApicRun iovr b (calls.filter fun c => c.irq = irq)).entry
        (ioApicInterruptOverride iovr irq) := by
  induction calls generalizing a b with
  | nil => exact hstart
  | cons c calls ih =>
    obtain ⟨hc, hcalls⟩ := List.forall_mem_cons.mp hcalls
    have hindex := (h c.irq hc).2.1
    by_cases heq : c.irq = irq
    · rw [List.filter_cons_of_pos (by simpa using heq)]
      apply ih hcalls
      subst heq
      rw [entry_step c hindex, entry_step c hindex, hstart]
    · rw [List.filter_cons_of_neg (by simpa using heq)]
      apply ih hcalls
      rw [(h.keepsOthers hc).entries irq hirq (Ne.symm heq)]
      exact hstart

/-- With entries apart, every sequence of calls keeps the interrupts apart. -/
theorem EntriesApart.isolated (h : EntriesApart iovr numRedtbl)
    (hcalls : ∀ c ∈ calls, IsaIrq c.irq) : Isolated iovr numRedtbl a calls := by
  constructor
  · exact fun irq hirq => (h irq hirq).1
  · intro irq hirq
    unfold IoApic.redirection
    rw [h.entry_run hcalls hirq rfl]
  · rintro done c ahead rfl
    exact h.keepsOthers (hcalls c (by simp))

/-- An I/O APIC all of whose registers hold 1. -/
def allOnes : IoApic := ⟨0, fun _ => 1⟩

/-- The entry for no CPU with vector 0. -/
theorem entry_enable_zero (old : BitVec 64) : (IrqCall.enable irq 0 0).entry old = 0x800 := by
  change (0 : BitVec 8).setWidth 64 &&& 0xff ||| ioredtblDestmodLogical |||
    (0 : BitVec 8).setWidth 64 <<< 56 &&& 0xff00000000000000 = 0x800
  decide

/-- Enabling an interrupt for no CPU changes both halves of an entry that holds ones. -/
theorem enable_allOnes {half : ℕ} (hhalf : half < 2) :
    ((IrqCall.enable irq 0 0).step iovr allOnes).regs
      (redtblReg (ioApicInterruptOverride iovr irq) half) ≠ 1 := by
  have hne : redtblReg (ioApicInterruptOverride iovr irq) 0 ≠
      redtblReg (ioApicInterruptOverride iovr irq) 1 := by
    rw [redtblReg_eq, redtblReg_eq]
    omega
  rw [regs_step]
  dsimp only [IrqCall.irq]
  rw [entry_enable_zero]
  rcases Nat.lt_succ_iff_lt_or_eq.mp hhalf with hlt | rfl
  · obtain rfl : half = 0 := by omega
    rw [Function.update_of_ne hne, Function.update_self]
    decide
  · rw [Function.update_self]
    decide

/-- If every single call keeps what belongs to others, the entries are apart. -/
theorem entriesApart_of_isolated
    (h : ∀ a calls, (∀ c ∈ calls, IsaIrq c.irq) → Isolated iovr numRedtbl a calls) :
    EntriesApart iovr numRedtbl := by
  intro irq hirq
  have hone : ∀ c ∈ [IrqCall.enable irq 0 0], IsaIrq c.irq := fun c hc => by
    rw [List.mem_singleton.mp hc]
    exact hirq
  have hisolated := h allOnes [.enable irq 0 0] hone
  have hkeeps : KeepsOthers iovr allOnes (.enable irq 0 0) := hisolated.others [] _ [] rfl
  have hchanged := @enable_allOnes iovr irq 0 (by decide)
  have hindex : ioApicInterruptOverride iovr irq < 120 := by
    -- Otherwise the number of the register is cut, and another one is written.
    by_contra hlarge
    have hcut := @redtblReg_eq (ioApicInterruptOverride iovr irq) 0
    refine hchanged (hkeeps.registers _ ?_ ?_) <;>
      rw [hcut, IrqCall.irq, ioredtbl] <;> omega
  refine ⟨hisolated.valid irq hirq, hindex, fun other hother heq => ?_⟩
  by_contra hne
  have hentry := hkeeps.entries other hother hne
  rw [heq, IoApic.entry, IoApic.entry, Prod.mk.injEq] at hentry
  rw [redtblReg_of_lt hindex (by decide), Nat.add_zero] at hchanged
  exact hchanged hentry.1

end Entries

/-- All sequences of calls for ISA interrupts keep them apart, whatever the registers hold at
first, if and only if the overrides give them entries of their own. -/
theorem ioApic_isolated_iff (iovr : List Iovr) (numRedtbl : ℕ) :
    (∀ a calls, (∀ c ∈ calls, IsaIrq c.irq) → Isolated iovr numRedtbl a calls) ↔
      EntriesApart iovr numRedtbl :=
  ⟨entriesApart_of_isolated, fun h _ _ hcalls => h.isolated hcalls⟩

/-- An override for the interrupt 9 of a second I/O APIC, whose interrupts start with 24, leads
behind the 24 entries. -/
theorem ioApic_override_invalid :
    ¬ ∀ a calls, (∀ c ∈ calls, IsaIrq c.irq) → Isolated [⟨0, 9, 25⟩] 24 a calls := by
  intro h
  have hvalid := (h allOnes [] (by simp)).valid 9 (show 9 < 16 by decide)
  exact absurd hvalid (by decide)

end Smor.Irq
