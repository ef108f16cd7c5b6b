import Mathlib.Algebra.Group.Nat.Defs
import Mathlib.Data.Nat.Notation
import Mathlib.Logic.Function.Basic
import Mathlib.Tactic.SplitIfs

/-!
# Configuration space

`pci.c` reaches the registers of a function through configuration mechanism #1: an address is
written to port 0xCF8, and the ports 0xCFC to 0xCFF show the register it selects. All other
ports belong to other devices, which answer what they like.

A function is known by its number, `bus * 256 + dev * 8 + func`, and a register by the number of
its double word. `pci_read_32` is a parameter of what is built on it, where its own defect
is not the matter. Interrupts, which are masked around every access, are left out.
-/

namespace Smor.Pci

/-- What is plugged in, and what the ports of other devices answer. -/
structure Hardware where
  /-- The functions that are there. -/
  present : ℕ → Bool
  /-- The bits of a register that can be written. -/
  writable : ℕ × ℕ → BitVec 32
  /-- The answer to the read with the given number among those of other ports. -/
  answer : ℕ → ℕ → BitVec 32

/-- The state of the registers and of the address latch. -/
structure Bus where
  regs : ℕ × ℕ → BitVec 32
  latch : BitVec 32
  /-- The number of reads of other ports so far. -/
  asked : ℕ

/-- A write changes the bits that can be written. -/
def merge (writable old new : BitVec 32) : BitVec 32 := (new &&& writable) ||| (old &&& ~~~writable)

/-- The register that the latch selects, if its enable bit is set. -/
def Bus.target (b : Bus) : Option (ℕ × ℕ) :=
  if 2 ^ 31 ≤ b.latch.toNat then
    some (b.latch.toNat / 2 ^ 8 % 2 ^ 16, b.latch.toNat / 2 ^ 2 % 2 ^ 6)
  else none

namespace Hardware

variable (hw : Hardware)

/-- What a register reads as. There are only ones where there is no function. -/
def register (regs : ℕ × ℕ → BitVec 32) (k : ℕ × ℕ) : BitVec 32 :=
  if hw.present k.1 then regs k else 0xFFFFFFFF

/-- The registers after a write to one of them. -/
def write (k : ℕ × ℕ) (val : BitVec 32) (regs : ℕ × ℕ → BitVec 32) : ℕ × ℕ → BitVec 32 :=
  if hw.present k.1 then Function.update regs k (merge (hw.writable k) (regs k) val) else regs

/-- A read of some bytes at a port. -/
def input (port size : ℕ) (b : Bus) : BitVec 32 × Bus :=
  match b.target with
  | some k =>
    if 0xCFC ≤ port ∧ port + size ≤ 0xD00 then
      (hw.register b.regs k >>> (8 * (port - 0xCFC)), b)
    else (hw.answer b.asked port, { b with asked := b.asked + 1 })
  | none => (hw.answer b.asked port, { b with asked := b.asked + 1 })

/-- `outl`. -/
def outl (port : ℕ) (val : BitVec 32) (b : Bus) : Bus :=
  if port = 0xCF8 then { b with latch := val }
  else if port = 0xCFC then
    match b.target with
    | some k => { b with regs := hw.write k val b.regs }
    | none => b
  else b

end Hardware

/-- `PCI_MAKE_ID`. -/
def pciMakeId (bus dev func : ℕ) : ℕ := bus <<< 16 ||| dev <<< 11 ||| func <<< 8

/-- The address of a register in mechanism #1. -/
def configAddr (id reg : ℕ) : BitVec 32 := BitVec.ofNat 32 (0x80000000 ||| id ||| (reg &&& 0xfc))

section Accesses

variable (hw : Hardware) (id reg : ℕ) (b : Bus)

/-- `pci_read_8`. -/
def pciRead8 : BitVec 8 × Bus :=
  let r := hw.input (0xCFC + (reg &&& 0x03)) 1 (hw.outl 0xCF8 (configAddr id reg) b)
  (r.1.setWidth 8, r.2)

/-- `pci_read_16`. -/
def pciRead16 : BitVec 16 × Bus :=
  let r := hw.input (0xCFC + (reg &&& 0x02)) 2 (hw.outl 0xCF8 (configAddr id reg) b)
  (r.1.setWidth 16, r.2)

/-- `pci_read_32`. The port is that of the register, not of the window. -/
def pciRead32 : BitVec 32 × Bus :=
  hw.input (0xCFC + reg) 4 (hw.outl 0xCF8 (configAddr id reg) b)

/-- `pci_write_32`. -/
def pciWrite32 (val : BitVec 32) : Bus :=
  hw.outl 0xCFC val (hw.outl 0xCF8 (configAddr id reg) b)

end Accesses

/-- `PCI_BAR_IO_MASK`. -/
def pciBarIoMask : BitVec 32 := 0xfffffffc

/-- `PCI_BAR_MEM_MASK`. -/
def pciBarMemMask : BitVec 32 := 0xfffffff0

/-- `struct pci_bar_t`. -/
structure PciBar where
  bar : BitVec 32
  pioBase : BitVec 32
  mmioSize : BitVec 32
  mmioBase32 : BitVec 32
  mmioBase64 : BitVec 64

/-- A BAR that nothing was stored in. -/
def PciBar.empty : PciBar := ⟨0, 0, 0, 0, 0⟩

/-- `struct pci_device_t`. -/
structure PciDevice where
  bus : ℕ
  dev : ℕ
  func : ℕ
  headerType : BitVec 8
  vendorId : BitVec 16
  deviceId : BitVec 16
  classCode : BitVec 8
  subclass : BitVec 8
  progIntf : BitVec 8
  intLine : BitVec 8
  intPin : BitVec 8
  bars : ℕ → PciBar

/-- The offset of a BAR: `PCI_CONFIG_BAR_0 + bar * PCI_CONFIG_BAR_SIZE`. -/
def barReg (bar : ℕ) : ℕ := 0x10 + bar * 4

/-- A function in the place of `pci_read_32`. -/
abbrev Read32 := ℕ → ℕ → Bus → BitVec 32 × Bus

section Bars

variable (hw : Hardware) (read32 : Read32) (id : ℕ)

/-- `pci_bar_size`. -/
def pciBarSize (bar : ℕ) (b : Bus) : BitVec 32 × Bus :=
  let cur := read32 id (barReg bar) b
  let val := read32 id (barReg bar) (pciWrite32 hw id (barReg bar) cur.2 0xFFFFFFFF)
  (~~~(val.1 &&& pciBarMemMask) + 1, pciWrite32 hw id (barReg bar) val.2 cur.1)

/-- The body of the loop of `pci_read_bars` for the BAR `i`, with the next value of `i`. -/
def readBar (i : ℕ) (bars : ℕ → PciBar) (b : Bus) : ℕ × (ℕ → PciBar) × Bus :=
  let bar := read32 id (barReg i) b
  let known := { bars i with bar := bar.1 }
  if bar.1 = 0 then (i + 1, bars, bar.2)
  -- PCI_BAR_IO
  else if bar.1 &&& 1 ≠ 0 then
    (i + 1, Function.update bars i { known with pioBase := bar.1 &&& pciBarIoMask }, bar.2)
  -- PCI_MEMBAR_TYPE is PCI_MEMBAR_32_BIT
  else if bar.1 &&& 6 = 0 then
    let size := pciBarSize hw read32 id i bar.2
    (i + 1, Function.update bars i { known with
      mmioBase32 := bar.1 &&& pciBarMemMask
      mmioSize := size.1 }, size.2)
  -- PCI_MEMBAR_64_BIT
  else if bar.1 &&& 6 = 4 then
    let next := read32 id (barReg (i + 1)) bar.2
    let size := pciBarSize hw read32 id i next.2
    -- The second assignment to `mmio_base64` replaces the first one.
    let known := { known with mmioBase64 := (bar.1 &&& pciBarMemMask).setWidth 64 }
    let known := { known with mmioBase64 := next.1.setWidth 64 <<< 32 }
    (i + 2, Function.update bars i { known with mmioSize := size.1 }, size.2)
  else (i + 1, Function.update bars i known, bar.2)

/-- The loop of `pci_read_bars`. -/
def readBars : ℕ → ℕ → (ℕ → PciBar) → Bus → (ℕ → PciBar) × Bus
  | 0, _, bars, b => (bars, b)
  | n + 1, i, bars, b =>
    if i < 6 then
      let r := readBar hw read32 id i bars b
      readBars n r.1 r.2.1 r.2.2
    else (bars, b)

/-- `pci_read_bars`. -/
def pciReadBars (dev : PciDevice) (b : Bus) : PciDevice × Bus :=
  -- PCI_TYPE_GENERIC
  if dev.headerType = 0x00 then
    let r := readBars hw read32 (pciMakeId dev.bus dev.dev dev.func) 6 0 dev.bars b
    ({ dev with bars := r.1 }, r.2)
  else (dev, b)

end Bars

/-- `PCI_MAX_DEVICES`. -/
def pciMaxDevices : ℕ := 32

/-- The recorded devices and the bus. -/
abbrev Scan := List PciDevice × Bus

/-- The body of the innermost loop of `pci_init`. The 33rd device would be stored behind the
end of `pci_devices`. -/
def scanFunc (hw : Hardware) (headerType : BitVec 8) (bus dev : ℕ) (s : Scan) (func : ℕ) :
    Option Scan :=
  let id := pciMakeId bus dev func
  let vendorId := pciRead16 hw id 0x00 s.2
  if vendorId.1 = 0xFFFF then some (s.1, vendorId.2)
  else if s.1.length < pciMaxDevices then
    let deviceId := pciRead16 hw id 0x02 vendorId.2
    let classCode := pciRead8 hw id 0x0b deviceId.2
    let subclass := pciRead8 hw id 0x0a classCode.2
    let progIntf := pciRead8 hw id 0x09 subclass.2
    let intLine := pciRead8 hw id 0x3c progIntf.2
    let intPin := pciRead8 hw id 0x3d intLine.2
    let device : PciDevice :=
      { bus := bus
        dev := dev
        func := func
        headerType := headerType &&& 0x7F
        vendorId := vendorId.1
        deviceId := deviceId.1
        classCode := classCode.1
        subclass := subclass.1
        progIntf := progIntf.1
        intLine := intLine.1
        intPin := intPin.1
        bars := fun _ => .empty }
    let r := pciReadBars hw (pciRead32 hw) device intPin.2
    some (s.1 ++ [r.1], r.2)
  else none

/-- The number of functions that are looked for in a device. -/
def numFunc (headerType : BitVec 8) : ℕ := if headerType &&& 0x80 ≠ 0 then 8 else 1

/-- The body of the loop of `pci_init` over the devices of a bus. -/
def scanDev (hw : Hardware) (bus : ℕ) (s : Scan) (dev : ℕ) : Option Scan :=
  let headerType := pciRead8 hw (pciMakeId bus dev 0) 0x0e s.2
  (List.range (numFunc headerType.1)).foldlM (scanFunc hw headerType.1 bus dev)
    (s.1, headerType.2)

/-- The body of the loop of `pci_init` over the buses. -/
def scanBus (hw : Hardware) (s : Scan) (bus : ℕ) : Option Scan :=
  (List.range 32).foldlM (scanDev hw bus) s

/-- `pci_init`. -/
def pciInit (hw : Hardware) (b : Bus) : Option Scan := (List.range 256).foldlM (scanBus hw) ([], b)

/-- The number of a function. -/
def funcNumber (bus dev func : ℕ) : ℕ := bus * 2 ^ 8 + dev * 2 ^ 3 + func

section Addresses

variable {bus dev func reg : ℕ}

/-- The parts of an identification do not overlap. -/
theorem pciMakeId_eq (hdev : dev < 32) (hfunc : func < 8) :
    pciMakeId bus dev func = funcNumber bus dev func * 2 ^ 8 := by
  have h₁ : dev <<< 11 < 2 ^ 16 := by
    rw [Nat.shiftLeft_eq]
    omega
  have h₂ : func <<< 8 < 2 ^ 11 := by
    rw [Nat.shiftLeft_eq]
    omega
  rw [pciMakeId, Nat.or_assoc, ← Nat.shiftLeft_add_eq_or_of_lt h₂,
    ← Nat.shiftLeft_add_eq_or_of_lt (by rw [Nat.shiftLeft_eq, Nat.shiftLeft_eq]; omega)]
  simp only [Nat.shiftLeft_eq, funcNumber]
  omega

/-- The low two bits of an offset are not part of the address. -/
theorem and_fc {reg : ℕ} (hreg : reg < 256) : reg &&& 0xfc = reg / 4 * 4 := by
  revert reg
  decide +kernel

/-- The address names the function and the register. -/
theorem configAddr_toNat (hbus : bus < 256) (hdev : dev < 32) (hfunc : func < 8)
    (hreg : reg < 256) :
    (configAddr (pciMakeId bus dev func) reg).toNat =
      2 ^ 31 + funcNumber bus dev func * 2 ^ 8 + reg / 4 * 4 := by
  have hnumber : funcNumber bus dev func < 2 ^ 16 := by
    unfold funcNumber
    omega
  have henable : (0x80000000 : ℕ) = 1 <<< 31 := rfl
  have hid : 1 <<< 31 + funcNumber bus dev func * 2 ^ 8 =
      (2 ^ 23 + funcNumber bus dev func) <<< 8 := by
    simp only [Nat.shiftLeft_eq]
    omega
  rw [configAddr, BitVec.toNat_ofNat, pciMakeId_eq hdev hfunc, and_fc hreg, henable,
    ← Nat.shiftLeft_add_eq_or_of_lt (by omega), hid,
    ← Nat.shiftLeft_add_eq_or_of_lt (by omega), Nat.shiftLeft_eq]
  omega

/-- The numbers of a function are in their ranges. -/
structure ValidFunc (bus dev func : ℕ) : Prop where
  bus : bus < 256
  dev : dev < 32
  func : func < 8

section Registers

variable (hw : Hardware) {b : Bus}

/-- Writing the address selects the register. -/
theorem target_configAddr (hvalid : ValidFunc bus dev func) (hreg : reg < 256) :
    (hw.outl 0xCF8 (configAddr (pciMakeId bus dev func) reg) b).target =
      some (funcNumber bus dev func, reg / 4) := by
  obtain ⟨hbus, hdev, hfunc⟩ := hvalid
  have haddr := configAddr_toNat hbus hdev hfunc hreg
  have hnumber : funcNumber bus dev func < 2 ^ 16 := by
    unfold funcNumber
    omega
  rw [Hardware.outl, if_pos rfl, Bus.target, haddr, if_pos (by omega), Option.some.injEq,
    Prod.mk.injEq]
  omega

/-- A read in the data window shows the selected register and changes none. -/
theorem input_window {k : ℕ × ℕ} {port size : ℕ} (htarget : b.target = some k)
    (hmin : 0xCFC ≤ port) (hmax : port + size ≤ 0xD00) :
    hw.input port size b = (hw.register b.regs k >>> (8 * (port - 0xCFC)), b) := by
  simp only [Hardware.input, htarget, if_pos (And.intro hmin hmax)]

/-- A read of another port changes no register. -/
theorem input_other {port size : ℕ} (hport : 0xD00 < port + size) :
    hw.input port size b = (hw.answer b.asked port, { b with asked := b.asked + 1 }) := by
  rw [Hardware.input]
  split
  · rw [if_neg (by omega)]
  · rfl

/-- `pci_read_8` returns a byte of the register. -/
theorem pciRead8_spec (hvalid : ValidFunc bus dev func) (hreg : reg < 256) :
    (pciRead8 hw (pciMakeId bus dev func) reg b).1 =
        (hw.register b.regs (funcNumber bus dev func, reg / 4) >>>
          (8 * (reg &&& 0x03))).setWidth 8 ∧
      (pciRead8 hw (pciMakeId bus dev func) reg b).2.regs = b.regs ∧
      (pciRead8 hw (pciMakeId bus dev func) reg b).2.asked = b.asked := by
  have hport : reg &&& 0x03 ≤ 0x03 := Nat.and_le_right
  rw [pciRead8, input_window hw (target_configAddr hw hvalid hreg) (by omega) (by omega),
    Nat.add_sub_cancel_left]
  exact ⟨rfl, rfl, rfl⟩

/-- `pci_read_16` returns a half of the register. -/
theorem pciRead16_spec (hvalid : ValidFunc bus dev func) (hreg : reg < 256) :
    (pciRead16 hw (pciMakeId bus dev func) reg b).1 =
        (hw.register b.regs (funcNumber bus dev func, reg / 4) >>>
          (8 * (reg &&& 0x02))).setWidth 16 ∧
      (pciRead16 hw (pciMakeId bus dev func) reg b).2.regs = b.regs ∧
      (pciRead16 hw (pciMakeId bus dev func) reg b).2.asked = b.asked := by
  have hport : reg &&& 0x02 ≤ 0x02 := Nat.and_le_right
  rw [pciRead16, input_window hw (target_configAddr hw hvalid hreg) (by omega) (by omega),
    Nat.add_sub_cancel_left]
  exact ⟨rfl, rfl, rfl⟩

/-- `pci_read_32` of a register with an offset other than 0 returns what another port
answers. -/
theorem pciRead32_spec (hreg : 0 < reg) (id : ℕ) :
    (pciRead32 hw id reg b).1 = hw.answer b.asked (0xCFC + reg) ∧
      (pciRead32 hw id reg b).2.regs = b.regs ∧
      (pciRead32 hw id reg b).2.asked = b.asked + 1 := by
  rw [pciRead32, input_other hw (by omega)]
  exact ⟨rfl, rfl, rfl⟩

/-- `pci_write_32` writes the register. -/
theorem pciWrite32_spec (hvalid : ValidFunc bus dev func) (hreg : reg < 256) (val : BitVec 32) :
    (pciWrite32 hw (pciMakeId bus dev func) reg b val).regs =
        hw.write (funcNumber bus dev func, reg / 4) val b.regs ∧
      (pciWrite32 hw (pciMakeId bus dev func) reg b val).asked = b.asked := by
  have htarget := @target_configAddr bus dev func reg hw b hvalid hreg
  rw [pciWrite32, Hardware.outl, if_neg (by decide), if_pos rfl, htarget]
  exact ⟨rfl, rfl⟩

end Registers

end Addresses

section Writes

/-- Only the last write counts. -/
theorem merge_merge (writable old first second : BitVec 32) :
    merge writable (merge writable old first) second = merge writable old second := by
  unfold merge
  ext i hi
  simp only [BitVec.getElem_or, BitVec.getElem_and, BitVec.getElem_not]
  cases writable[i] <;> simp

/-- A write changes nothing if it agrees with the register on the bits that can be written. -/
theorem merge_eq_iff {writable old new : BitVec 32} :
    merge writable old new = old ↔ new &&& writable = old &&& writable := by
  constructor
  · intro h
    rw [← h, merge]
    ext i hi
    simp only [BitVec.getElem_or, BitVec.getElem_and, BitVec.getElem_not]
    cases writable[i] <;> simp
  · intro h
    rw [merge, h]
    ext i hi
    simp only [BitVec.getElem_or, BitVec.getElem_and, BitVec.getElem_not]
    cases writable[i] <;> simp

variable {hw : Hardware} {k : ℕ × ℕ} {regs : ℕ × ℕ → BitVec 32}

/-- Of two writes to a register only the last one counts. -/
theorem write_write (first second : BitVec 32) :
    hw.write k second (hw.write k first regs) = hw.write k second regs := by
  unfold Hardware.write
  split_ifs
  · rw [Function.update_self, Function.update_idem, merge_merge]
  · rfl

end Writes

end Smor.Pci
