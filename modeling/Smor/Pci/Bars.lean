import Smor.Pci.Config

/-!
# Base address registers

The six base address registers of a function hold ports, 32-bit memory addresses and 64-bit
memory addresses, of which the latter take two registers. What `pci_read_bars` makes of them
is compared with the format, for a `pci_read_32` that returns the addressed register: the
low half of a 64-bit address is overwritten by the high one.
-/

namespace Smor.Pci

/-- What a base address register is. -/
inductive BarKind
  | unused | io | mem32 | mem64 | reserved
  deriving DecidableEq

/-- The kind of a base address register, by its low bits. -/
def barKind (bar : BitVec 32) : BarKind :=
  if bar = 0 then .unused
  else if bar &&& 1 ≠ 0 then .io
  else if bar &&& 6 = 0 then .mem32
  else if bar &&& 6 = 4 then .mem64
  else .reserved

/-- The register is not the second half of a 64-bit address. -/
def startsBar (bar : ℕ → BitVec 32) : ℕ → Bool
  | 0 => true
  | i + 1 => !(startsBar bar i && barKind (bar i) = .mem64)

/-- The addresses in a decoded register. -/
structure Bases where
  pioBase : BitVec 32
  mmioBase32 : BitVec 32
  mmioBase64 : BitVec 64

/-- No address. -/
def Bases.none : Bases := ⟨0, 0, 0⟩

/-- The addresses that are recorded of a register. -/
def PciBar.bases (bar : PciBar) : Bases := ⟨bar.pioBase, bar.mmioBase32, bar.mmioBase64⟩

/-- The addresses in a register, with the 64-bit address of two halves. -/
def decode (join : BitVec 32 → BitVec 32 → BitVec 64) (bar : ℕ → BitVec 32) (i : ℕ) : Bases :=
  if startsBar bar i then
    match barKind (bar i) with
    | .io => { Bases.none with pioBase := bar i &&& pciBarIoMask }
    | .mem32 => { Bases.none with mmioBase32 := bar i &&& pciBarMemMask }
    | .mem64 => { Bases.none with mmioBase64 := join (bar (i + 1)) (bar i &&& pciBarMemMask) }
    | .unused => .none
    | .reserved => .none
  else .none

/-- The 64-bit address as the format has it. -/
def joinHalves (high low : BitVec 32) : BitVec 64 := high.setWidth 64 <<< 32 ||| low.setWidth 64

/-- The 64-bit address as the code has it. -/
def shiftHigh (high _low : BitVec 32) : BitVec 64 := high.setWidth 64 <<< 32

/-- The base address registers of a function. -/
def barRegs (hw : Hardware) (regs : ℕ × ℕ → BitVec 32) (number i : ℕ) : BitVec 32 :=
  hw.register regs (number, 4 + i)

/-- The function in the place of `pci_read_32` returns the addressed register. -/
def Returns (hw : Hardware) (read32 : Read32) : Prop :=
  ∀ bus dev func, ValidFunc bus dev func → ∀ reg < 256, ∀ b : Bus,
    (read32 (pciMakeId bus dev func) reg b).1 =
        hw.register b.regs (funcNumber bus dev func, reg / 4) ∧
      (read32 (pciMakeId bus dev func) reg b).2.regs = b.regs

section Decoding

variable {hw : Hardware} {read32 : Read32} {bus dev func : ℕ}

theorem barReg_div (i : ℕ) : barReg i / 4 = 4 + i := by
  unfold barReg
  omega

/-- Reading a base address register. -/
theorem read_bar (hread : Returns hw read32) (hvalid : ValidFunc bus dev func) {i : ℕ}
    (hi : i ≤ 6) (b : Bus) :
    (read32 (pciMakeId bus dev func) (barReg i) b).1 =
        barRegs hw b.regs (funcNumber bus dev func) i ∧
      (read32 (pciMakeId bus dev func) (barReg i) b).2.regs = b.regs := by
  have h := hread bus dev func hvalid (barReg i) (by unfold barReg; omega) b
  rwa [barReg_div] at h

/-- Writing back what was read restores the register. -/
theorem write_register (k : ℕ × ℕ) (val : BitVec 32) (regs : ℕ × ℕ → BitVec 32) :
    hw.write k (hw.register regs k) (hw.write k val regs) = regs := by
  rw [write_write]
  unfold Hardware.write Hardware.register
  split_ifs
  · rw [merge_eq_iff.mpr rfl, Function.update_eq_self]
  · rfl

/-- `pci_bar_size` leaves the registers as they were, if `pci_read_32` is right. -/
theorem pciBarSize_regs (hread : Returns hw read32) (hvalid : ValidFunc bus dev func) {i : ℕ}
    (hi : i < 6) (b : Bus) :
    (pciBarSize hw read32 (pciMakeId bus dev func) i b).2.regs = b.regs := by
  have hreg : barReg i < 256 := by
    unfold barReg
    omega
  rw [pciBarSize, (pciWrite32_spec hw hvalid hreg _).1,
    (read_bar hread hvalid (Nat.le_of_lt hi) _).2, (pciWrite32_spec hw hvalid hreg _).1,
    (read_bar hread hvalid (Nat.le_of_lt hi) _).2,
    (read_bar hread hvalid (Nat.le_of_lt hi) _).1, barReg_div]
  exact write_register _ _ _

/-- The number of registers that an address of a kind takes. -/
def BarKind.width : BarKind → ℕ
  | .mem64 => 2
  | _ => 1

/-- What the loop does with a register that starts an address. -/
theorem readBar_spec (hread : Returns hw read32) (hvalid : ValidFunc bus dev func) {i : ℕ}
    (hi : i < 6) {bars : ℕ → PciBar} (hempty : bars i = .empty) {b : Bus} {bar : ℕ → BitVec 32}
    (hbar : barRegs hw b.regs (funcNumber bus dev func) = bar) (hstarts : startsBar bar i) :
    ∃ x b', readBar hw read32 (pciMakeId bus dev func) i bars b =
        (i + (barKind (bar i)).width, Function.update bars i x, b') ∧
      x.bases = decode shiftHigh bar i ∧ b'.regs = b.regs := by
  obtain ⟨hvalue, hregs⟩ := read_bar hread hvalid (Nat.le_of_lt hi) b
  obtain ⟨hnext, hnextRegs⟩ := read_bar hread hvalid (Nat.succ_le_of_lt hi)
    (read32 (pciMakeId bus dev func) (barReg i) b).2
  have hsize := fun b => pciBarSize_regs (b := b) hread hvalid hi
  rw [hregs] at hnext hnextRegs
  rw [hbar] at hvalue hnext
  have hdecode : decode shiftHigh bar i = match barKind (bar i) with
    | .io => { Bases.none with pioBase := bar i &&& pciBarIoMask }
    | .mem32 => { Bases.none with mmioBase32 := bar i &&& pciBarMemMask }
    | .mem64 => { Bases.none with mmioBase64 := (bar (i + 1)).setWidth 64 <<< 32 }
    | .unused => .none
    | .reserved => .none := if_pos hstarts
  rw [hdecode]
  unfold readBar barKind
  dsimp only
  rw [hvalue]
  split_ifs with hzero hio h32 h64
  · refine ⟨bars i, _, by rw [Function.update_eq_self]; rfl, ?_, hregs⟩
    rw [hempty]
    rfl
  · refine ⟨_, _, rfl, ?_, hregs⟩
    rw [hempty]
    rfl
  · refine ⟨_, _, rfl, ?_, (hsize _).trans hregs⟩
    rw [hempty]
    rfl
  · refine ⟨_, _, rfl, ?_, (hsize _).trans hnextRegs⟩
    rw [hempty, hnext]
    rfl
  · refine ⟨_, _, rfl, ?_, hregs⟩
    rw [hempty]
    rfl

/-- The next register that is looked at starts an address again. -/
theorem startsBar_next {bar : ℕ → BitVec 32} {i : ℕ} (hstarts : startsBar bar i) :
    startsBar bar (i + (barKind (bar i)).width) ∧
      ∀ j, i < j → j < i + (barKind (bar i)).width → startsBar bar j = false := by
  by_cases h64 : barKind (bar i) = .mem64
  · have hsecond : startsBar bar (i + 1) = false := by simp [startsBar, hstarts, h64]
    rw [h64]
    constructor
    · simp [BarKind.width, startsBar, hstarts, h64]
    · intro j hmin hmax
      have hj : j = i + 1 := by
        simp only [BarKind.width] at hmax
        omega
      rw [hj, hsecond]
  · have hwidth : (barKind (bar i)).width = 1 := by
      cases hkind : barKind (bar i) with
      | mem64 => exact absurd hkind h64
      | _ => rfl
    rw [hwidth]
    constructor
    · simp [startsBar, h64]
    · intro j hmin hmax
      omega

/-- The body of the loop stores in its own element, and goes forwards. -/
theorem readBar_frame (id i : ℕ) (bars : ℕ → PciBar) (b : Bus) :
    i < (readBar hw read32 id i bars b).1 ∧
      ∀ j, j ≠ i → (readBar hw read32 id i bars b).2.1 j = bars j := by
  unfold readBar
  dsimp only
  split_ifs
  all_goals refine ⟨by omega, fun j hj => ?_⟩
  · rfl
  all_goals exact Function.update_of_ne hj _ _

/-- The loop leaves the elements in front of its first one alone. -/
theorem readBars_frame {id n i j : ℕ} (hj : j < i) (bars : ℕ → PciBar) (b : Bus) :
    (readBars hw read32 id n i bars b).1 j = bars j := by
  induction n generalizing i bars b with
  | zero => rfl
  | succ n ih =>
    obtain ⟨hforward, hframe⟩ := @readBar_frame hw read32 id i bars b
    rw [readBars]
    split_ifs
    · rw [ih (by omega), hframe j (by omega)]
    · rfl

/-- What the loop records from a register on that starts an address. -/
theorem readBars_bases (hread : Returns hw read32) (hvalid : ValidFunc bus dev func)
    {bar : ℕ → BitVec 32} {n i : ℕ} (hn : 6 ≤ i + n) {bars : ℕ → PciBar}
    (hempty : ∀ j, i ≤ j → bars j = .empty) {b : Bus}
    (hbar : barRegs hw b.regs (funcNumber bus dev func) = bar) (hstarts : startsBar bar i)
    {j : ℕ} (hmin : i ≤ j) (hmax : j < 6) :
    ((readBars hw read32 (pciMakeId bus dev func) n i bars b).1 j).bases =
      decode shiftHigh bar j := by
  induction n generalizing i bars b with
  | zero => omega
  | succ n ih =>
    obtain ⟨x, b', hstep, hx, hregs⟩ := readBar_spec hread hvalid (by omega)
      (hempty i (Nat.le_refl i)) hbar hstarts
    obtain ⟨hstarts', hskipped⟩ := startsBar_next hstarts
    have hforward := (@readBar_frame hw read32 (pciMakeId bus dev func) i bars b).1
    have hempty' : ∀ k, i < k → Function.update bars i x k = .empty := by
      intro k hk
      rw [Function.update_of_ne (by omega)]
      exact hempty k (by omega)
    rw [hstep] at hforward
    rw [readBars, if_pos (by omega), hstep]
    dsimp only at hforward ⊢
    by_cases hj : i + (barKind (bar i)).width ≤ j
    · refine ih (by omega) (fun k hk => hempty' k (by omega)) ?_ hstarts' hj
      rw [hregs]
      exact hbar
    · rw [readBars_frame (by omega)]
      by_cases hfirst : j = i
      · rw [hfirst, Function.update_self]
        exact hx
      · -- The second half of a 64-bit address is passed over.
        rw [hempty' j (by omega), decode, hskipped j (by omega) (by omega)]
        rfl

/-- The high half alone is the address only if the low half is 0. -/
theorem shiftHigh_eq_iff {high low : BitVec 32} :
    shiftHigh high low = joinHalves high low ↔ low = 0 := by
  unfold shiftHigh joinHalves
  constructor
  · intro h
    apply BitVec.eq_of_getLsbD_eq
    intro i hi
    have hbit := congrArg (fun v : BitVec 64 => v.getLsbD i) h
    simp only [BitVec.getLsbD_or, BitVec.getLsbD_shiftLeft, BitVec.getLsbD_setWidth, hi,
      decide_true, Bool.not_true, Bool.and_false, Bool.false_and, Bool.false_or] at hbit
    rw [decide_eq_true (by omega : i < 64), Bool.true_and] at hbit
    rw [← hbit]
    simp
  · rintro rfl
    have hzero : (0 : BitVec 32).setWidth 64 = 0#64 := BitVec.setWidth_zero 64 32
    rw [hzero, BitVec.or_zero]

end Decoding

/-- `pci_read_bars` decodes the registers of a generic function as the format has it, for every
content of the registers and every `pci_read_32` that returns the addressed register, if and
only if the low half of every 64-bit address is 0. -/
theorem pciReadBars_decodes_iff (hw : Hardware) (read32 : Read32) (hread : Returns hw read32)
    (dev : PciDevice) (hvalid : ValidFunc dev.bus dev.dev dev.func)
    (hgeneric : dev.headerType = 0x00) (hempty : ∀ i, dev.bars i = .empty) (b : Bus)
    (bar : ℕ → BitVec 32)
    (hbar : bar = barRegs hw b.regs (funcNumber dev.bus dev.dev dev.func)) :
    (∀ i < 6, ((pciReadBars hw read32 dev b).1.bars i).bases = decode joinHalves bar i) ↔
      ∀ i < 6, startsBar bar i → barKind (bar i) = .mem64 → bar i &&& pciBarMemMask = 0 := by
  have hbases : ∀ i < 6, ((pciReadBars hw read32 dev b).1.bars i).bases =
      decode shiftHigh bar i := by
    intro i hi
    rw [pciReadBars, if_pos hgeneric]
    exact readBars_bases hread hvalid (by omega) (fun j _ => hempty j) hbar.symm rfl
      (Nat.zero_le i) hi
  have hdecode : ∀ i, decode shiftHigh bar i = decode joinHalves bar i ↔
      (startsBar bar i → barKind (bar i) = .mem64 → bar i &&& pciBarMemMask = 0) := by
    intro i
    unfold decode
    by_cases hstarts : startsBar bar i
    · rw [if_pos hstarts, if_pos hstarts]
      cases hkind : barKind (bar i) with
      | mem64 => simp [hstarts, shiftHigh_eq_iff]
      | _ => simp
    · simp [hstarts]
  constructor
  · intro h i hi
    rw [← hdecode, ← hbases i hi]
    exact h i hi
  · intro h i hi
    rw [hbases i hi, hdecode]
    exact h i hi

/-- One function, the first one, whose registers can all be written. -/
def oneFunction : Hardware where
  present number := number = 0
  writable _ := 0xFFFFFFFF
  answer _ _ := 0

/-- A `pci_read_32` that reads the data window. -/
def readWindow (hw : Hardware) : Read32 := fun id reg b =>
  hw.input 0xCFC 4 (hw.outl 0xCF8 (configAddr id reg) b)

theorem readWindow_returns (hw : Hardware) : Returns hw (readWindow hw) := by
  intro bus dev func hvalid reg hreg b
  rw [readWindow, input_window hw (target_configAddr hw hvalid hreg) (Nat.le_refl _) (by omega)]
  simp [Hardware.outl]

/-- A generic function, before its base address registers are read. -/
def genericDevice : PciDevice := ⟨0, 0, 0, 0, 0, 0, 0, 0, 0, 0, 0, fun _ => .empty⟩

theorem genericDevice_valid :
    ValidFunc genericDevice.bus genericDevice.dev genericDevice.func :=
  ⟨by decide, by decide, by decide⟩

/-- Registers whose first two hold a 64-bit address with the given halves. -/
def busWith64 (low high : BitVec 32) : Bus where
  regs k := if k.2 = 4 then low else if k.2 = 5 then high else 0
  latch := 0
  asked := 0

/-- An address that is a multiple of 4GB is decoded. -/
theorem pciReadBars_high :
    ((pciReadBars oneFunction (readWindow oneFunction) genericDevice
        (busWith64 0x4 0x1)).1.bars 0).bases =
      decode joinHalves (barRegs oneFunction (busWith64 0x4 0x1).regs 0) 0 :=
  (pciReadBars_decodes_iff oneFunction (readWindow oneFunction) (readWindow_returns oneFunction)
    genericDevice genericDevice_valid rfl (fun _ => rfl) (busWith64 0x4 0x1) _ rfl).mpr
    (by decide +kernel) 0 (by decide)

/-- An address below 4GB is lost. -/
theorem pciReadBars_low :
    ¬ ∀ i < 6, ((pciReadBars oneFunction (readWindow oneFunction) genericDevice
        (busWith64 0xFEB00004 0x0)).1.bars i).bases =
      decode joinHalves (barRegs oneFunction (busWith64 0xFEB00004 0x0).regs 0) i := by
  intro h
  exact absurd (congrArg Bases.mmioBase64 (h 0 (by decide))) (by decide +kernel)

end Smor.Pci
