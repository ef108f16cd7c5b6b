import Mathlib.Data.Set.Card
import Smor.Pci.Restore

/-!
# The devices that `pci_init` records

`pci_init` reads the header type of the first function of a device and uses it for all functions
of the device, and it compares the number of recorded devices with nothing. This file says for
which populations the array holds the functions that are there, each with its own header, and
nothing is stored behind its end.
-/

namespace Smor.Pci

section Present

variable (hw : Hardware) (regs : ℕ × ℕ → BitVec 32) (bus dev func : ℕ)

/-- A byte of the header of a function. -/
def headerByte (reg : ℕ) : BitVec 8 :=
  (hw.register regs (funcNumber bus dev func, reg / 4) >>> (8 * (reg % 4))).setWidth 8

/-- The device declares several functions in the header of the first one. -/
def MultiFunction : Prop := headerByte hw regs bus dev 0 0x0e &&& 0x80 ≠ 0

/-- The function is there: it has a vendor, and it is the first one or one of several. -/
structure Present : Prop where
  valid : ValidFunc bus dev func
  vendor : vendorOf hw regs (funcNumber bus dev func) ≠ 0xFFFF
  declared : func = 0 ∨ MultiFunction hw regs bus dev

end Present

/-- A record holds what the header of its function says, with a given header type. -/
structure Describes (hw : Hardware) (regs : ℕ × ℕ → BitVec 32) (headerType : BitVec 8)
    (d : PciDevice) : Prop where
  headerType : d.headerType = headerType
  vendorId : d.vendorId = vendorOf hw regs (funcNumber d.bus d.dev d.func)
  deviceId : d.deviceId =
    (hw.register regs (funcNumber d.bus d.dev d.func, 0) >>> 16).setWidth 16
  classCode : d.classCode = headerByte hw regs d.bus d.dev d.func 0x0b
  subclass : d.subclass = headerByte hw regs d.bus d.dev d.func 0x0a
  progIntf : d.progIntf = headerByte hw regs d.bus d.dev d.func 0x09

/-- The order of bus, device and function. -/
def PciDevice.Precedes (d d' : PciDevice) : Prop :=
  d.bus < d'.bus ∨ d.bus = d'.bus ∧ (d.dev < d'.dev ∨ d.dev = d'.dev ∧ d.func < d'.func)

/-- The records are those of the functions that are there, in their order. -/
structure RecordsPresent (hw : Hardware) (regs : ℕ × ℕ → BitVec 32) (devices : List PciDevice) :
    Prop where
  sorted : devices.Pairwise PciDevice.Precedes
  present : ∀ d ∈ devices, Present hw regs d.bus d.dev d.func
  complete : ∀ bus dev func, Present hw regs bus dev func →
    ∃ d ∈ devices, (d.bus, d.dev, d.func) = (bus, dev, func)
  own : ∀ d ∈ devices,
    Describes hw regs (headerByte hw regs d.bus d.dev d.func 0x0e &&& 0x7F) d

/-- All functions of a device have the header type of the first one. -/
def SameHeaders (hw : Hardware) (regs : ℕ × ℕ → BitVec 32) : Prop :=
  ∀ bus dev func, Present hw regs bus dev func →
    headerByte hw regs bus dev func 0x0e &&& 0x7F = headerByte hw regs bus dev 0 0x0e &&& 0x7F

/-- The functions that are there. -/
def presentSet (hw : Hardware) (regs : ℕ × ℕ → BitVec 32) : Set (ℕ × ℕ × ℕ) :=
  {l | Present hw regs l.1 l.2.1 l.2.2}

section Records

variable {hw : Hardware} {b₀ : Bus} {regs : ℕ × ℕ → BitVec 32} {bus dev func : ℕ}

/-- The number of the function of a record. -/
def PciDevice.number (d : PciDevice) : ℕ := funcNumber d.bus d.dev d.func

/-- The records are those of the functions that were found, with the header types of the first
functions. -/
structure Held (hw : Hardware) (regs : ℕ × ℕ → BitVec 32) (found : List Found)
    (devices : List PciDevice) : Prop where
  numbers : devices.map PciDevice.number = found.map Prod.fst
  records : ∀ d ∈ devices, ValidFunc d.bus d.dev d.func ∧
    Describes hw regs (headerByte hw regs d.bus d.dev 0 0x0e &&& 0x7F) d

/-- What `pci_init` leaves so far, with the contents of the records. -/
def Recorded (hw : Hardware) (b₀ : Bus) (found : List Found) (s : Option Scan) : Prop :=
  Traced hw b₀ found s ∧ ∀ devices b, s = some (devices, b) → Held hw b₀.regs found devices

/-- `pci_read_bars` stores in the base address registers of the record only. -/
theorem pciReadBars_bars (read32 : Read32) (d : PciDevice) (b : Bus) :
    ∃ bars, (pciReadBars hw read32 d b).1 = { d with bars := bars } := by
  unfold pciReadBars
  split_ifs
  · exact ⟨_, rfl⟩
  · exact ⟨d.bars, rfl⟩

theorem pciReadBars_location (read32 : Read32) (d : PciDevice) (b : Bus) :
    ((pciReadBars hw read32 d b).1.bus, (pciReadBars hw read32 d b).1.dev,
      (pciReadBars hw read32 d b).1.func) = (d.bus, d.dev, d.func) := by
  obtain ⟨bars, hbars⟩ := @pciReadBars_bars hw read32 d b
  rw [hbars]

theorem Describes.pciReadBars {headerType : BitVec 8} {d : PciDevice}
    (h : Describes hw regs headerType d) (read32 : Read32) (b : Bus) :
    Describes hw regs headerType (pciReadBars hw read32 d b).1 := by
  obtain ⟨bars, hbars⟩ := @pciReadBars_bars hw read32 d b
  rw [hbars]
  exact ⟨h.headerType, h.vendorId, h.deviceId, h.classCode, h.subclass, h.progIntf⟩

/-- What `scanFunc` adds to the records. -/
theorem scanFunc_spec (hvalid : ValidFunc bus dev func) {s : Scan} {headerType : BitVec 8}
    (hheader : ∀ k : ℕ × ℕ, k.2 < 4 → hw.register s.2.regs k = hw.register regs k)
    {devices : List PciDevice} {b : Bus}
    (hscan : scanFunc hw headerType bus dev s func = some (devices, b)) :
    (vendorOf hw regs (funcNumber bus dev func) = 0xFFFF ∧ devices = s.1) ∨
      (vendorOf hw regs (funcNumber bus dev func) ≠ 0xFFFF ∧ ∃ d : PciDevice,
        devices = s.1 ++ [d] ∧ (d.bus, d.dev, d.func) = (bus, dev, func) ∧
          Describes hw regs (headerType &&& 0x7F) d) := by
  have h8 : ∀ reg < 16, ∀ b : Bus, b.regs = s.2.regs →
      (pciRead8 hw (pciMakeId bus dev func) reg b).1 = headerByte hw regs bus dev func reg ∧
        (pciRead8 hw (pciMakeId bus dev func) reg b).2.regs = s.2.regs := by
    intro reg hreg b hb
    obtain ⟨hvalue, hregs, -⟩ := pciRead8_spec hw (b := b) hvalid (by omega : reg < 256)
    have hlow : reg &&& 0x03 = reg % 4 := Nat.and_two_pow_sub_one_eq_mod reg 2
    rw [hb, hheader _ (show reg / 4 < 4 by omega), hlow] at hvalue
    exact ⟨hvalue, hregs.trans hb⟩
  have h16 : ∀ reg < 4, ∀ b : Bus, b.regs = s.2.regs →
      (pciRead16 hw (pciMakeId bus dev func) reg b).1 =
          (hw.register regs (funcNumber bus dev func, 0) >>> (8 * (reg &&& 0x02))).setWidth 16 ∧
        (pciRead16 hw (pciMakeId bus dev func) reg b).2.regs = s.2.regs := by
    intro reg hreg b hb
    obtain ⟨hvalue, hregs, -⟩ := pciRead16_spec hw (b := b) hvalid (by omega : reg < 256)
    have hzero : reg / 4 = 0 := by omega
    rw [hb, hheader _ (show reg / 4 < 4 by omega), hzero] at hvalue
    exact ⟨hvalue, hregs.trans hb⟩
  obtain ⟨hvendor, h₁⟩ := h16 0x00 (by decide) s.2 rfl
  obtain ⟨hdevice, h₂⟩ := h16 0x02 (by decide) _ h₁
  obtain ⟨hclass, h₃⟩ := h8 0x0b (by decide) _ h₂
  obtain ⟨hsubclass, h₄⟩ := h8 0x0a (by decide) _ h₃
  obtain ⟨hprogIntf, -⟩ := h8 0x09 (by decide) _ h₄
  have hvendor' : (pciRead16 hw (pciMakeId bus dev func) 0x00 s.2).1 =
      vendorOf hw regs (funcNumber bus dev func) :=
    hvendor.trans (congrArg _ (BitVec.ushiftRight_zero _))
  unfold scanFunc at hscan
  dsimp only at hscan
  rw [hvendor'] at hscan
  split_ifs at hscan with habsent hroom
  · cases hscan
    exact Or.inl ⟨habsent, rfl⟩
  · cases hscan
    refine Or.inr ⟨habsent, _, rfl, pciReadBars_location _ _ _, ?_⟩
    apply Describes.pciReadBars
    exact ⟨rfl, rfl, hdevice, hclass, hsubclass, hprogIntf⟩

/-- A round of the innermost loop records its function, if it is there. -/
theorem recorded_scanFunc (hvalid : ValidFunc bus dev func) {found : List Found} {s : Scan}
    (hs : Recorded hw b₀ found (some s)) :
    Recorded hw b₀ (found ++ foundFunc hw b₀.regs bus dev func)
      (scanFunc hw (headerOf hw b₀.regs bus dev) bus dev s func) := by
  obtain ⟨htraced, hheld⟩ := hs
  obtain ⟨-, -, -, -, hheader⟩ := htraced.elim
  refine ⟨traced_scanFunc hvalid htraced, fun devices b hscan => ?_⟩
  obtain ⟨hnumbers, hrecords⟩ := hheld s.1 s.2 rfl
  rcases scanFunc_spec hvalid hheader hscan with ⟨habsent, rfl⟩ |
    ⟨hvendor, d, rfl, hlocation, hdescribes⟩
  · rw [foundFunc, if_pos habsent, List.append_nil]
    exact ⟨hnumbers, hrecords⟩
  · cases hlocation
    rw [foundFunc, if_neg hvendor]
    constructor
    · rw [List.map_append, List.map_append, hnumbers]
      rfl
    · intro d' hd'
      rcases List.mem_append.mp hd' with hd' | hd'
      · exact hrecords d' hd'
      · rw [List.mem_singleton.mp hd']
        exact ⟨hvalid, hdescribes⟩

/-- What `pci_init` records. -/
theorem recorded_pciInit : Recorded hw b₀ (foundAll hw b₀.regs) (pciInit hw b₀) := by
  apply pciInit_collects
  · exact fun found s hs => hs.1
  · intro found more h
    exact ⟨h.1.of_full more, fun devices b hsome => by cases hsome⟩
  · intro found s b hs hregs hasked
    refine ⟨hs.1.of_read hregs hasked, fun devices b' hsome => ?_⟩
    cases hsome
    exact hs.2 s.1 s.2 rfl
  · exact fun bus dev func hvalid found s hs => recorded_scanFunc hvalid hs
  · refine ⟨?_, fun devices b hsome => ?_⟩
    · have hempty : ([] : List Found).length ≤ pciMaxDevices := Nat.zero_le _
      rw [Traced, if_pos hempty]
      exact ⟨[], b₀, rfl, rfl, rfl, rfl⟩
    · cases hsome
      exact ⟨rfl, fun d hd => absurd hd List.not_mem_nil⟩

/-- The functions that are looked for are the first one, and the others if they are declared. -/
theorem lt_numFunc_iff (hfunc : func < 8) :
    func < numFunc (headerOf hw regs bus dev) ↔ func = 0 ∨ MultiFunction hw regs bus dev := by
  have hheader : headerOf hw regs bus dev = headerByte hw regs bus dev 0 0x0e := rfl
  rw [numFunc, MultiFunction, hheader]
  split_ifs with hmulti
  · exact iff_of_true hfunc (Or.inr hmulti)
  · rw [Nat.lt_one_iff]
    exact (or_iff_left hmulti).symm

/-- The functions that are found are those that are there. -/
theorem mem_foundAll_iff (hvalid : ValidFunc bus dev func) :
    funcNumber bus dev func ∈ (foundAll hw regs).map Prod.fst ↔ Present hw regs bus dev func := by
  obtain ⟨hbus, hdev, hfunc⟩ := hvalid
  constructor
  · intro hmem
    obtain ⟨f, hf, hnumber⟩ := List.mem_map.mp hmem
    obtain ⟨bus', hbus', hf⟩ := List.mem_flatMap.mp hf
    obtain ⟨dev', hdev', hf⟩ := List.mem_flatMap.mp hf
    obtain ⟨func', hfunc', hf⟩ := List.mem_flatMap.mp hf
    have hlt := List.mem_range.mp hfunc'
    have hcount := numFunc_le (headerOf hw regs bus' dev')
    have hdevLt := List.mem_range.mp hdev'
    rw [(mem_foundFunc hf).1, funcNumber, funcNumber] at hnumber
    obtain ⟨rfl, rfl, rfl⟩ : bus' = bus ∧ dev' = dev ∧ func' = func := by omega
    refine ⟨⟨hbus, hdev, hfunc⟩, fun habsent => ?_, (lt_numFunc_iff hfunc).mp hlt⟩
    rw [foundFunc, if_pos habsent] at hf
    exact absurd hf List.not_mem_nil
  · rintro ⟨-, hvendor, hdeclared⟩
    apply List.mem_map.mpr
    refine ⟨(funcNumber bus dev func, decide (headerOf hw regs bus dev &&& 0x7F = 0x00)), ?_, rfl⟩
    refine List.mem_flatMap.mpr ⟨bus, List.mem_range.mpr hbus, ?_⟩
    refine List.mem_flatMap.mpr ⟨dev, List.mem_range.mpr hdev, ?_⟩
    refine List.mem_flatMap.mpr ⟨func, List.mem_range.mpr ((lt_numFunc_iff hfunc).mpr hdeclared), ?_⟩
    rw [foundFunc, if_neg hvendor]
    exact List.mem_singleton_self _

/-- The bus, device and function of a number. -/
def locationOf (number : ℕ) : ℕ × ℕ × ℕ := (number / 2 ^ 8, number / 2 ^ 3 % 2 ^ 5, number % 2 ^ 3)

theorem locationOf_funcNumber (hvalid : ValidFunc bus dev func) :
    locationOf (funcNumber bus dev func) = (bus, dev, func) := by
  obtain ⟨-, hdev, hfunc⟩ := hvalid
  simp only [locationOf, funcNumber, Prod.mk.injEq]
  omega

/-- As many functions are found as there are. -/
theorem encard_presentSet : (presentSet hw regs).encard = (foundAll hw regs).length := by
  have hset : presentSet hw regs =
      (((foundAll hw regs).map Prod.fst).map locationOf).toFinset := by
    ext ⟨bus, dev, func⟩
    rw [List.coe_toFinset]
    constructor
    · intro hpresent
      have hvalid : ValidFunc bus dev func := Present.valid hpresent
      exact List.mem_map.mpr ⟨_, (mem_foundAll_iff hvalid).mpr hpresent,
        locationOf_funcNumber hvalid⟩
    · intro hmem
      obtain ⟨number, hnumber, hlocation⟩ := List.mem_map.mp hmem
      obtain ⟨f, hf, rfl⟩ := List.mem_map.mp hnumber
      obtain ⟨bus', hbus', hf'⟩ := List.mem_flatMap.mp hf
      obtain ⟨⟨dev', hdev', func', hfunc', heq⟩, -⟩ := mem_foundBus hf'
      have hvalid : ValidFunc bus' dev' func' := ⟨List.mem_range.mp hbus', hdev', hfunc'⟩
      rw [heq, locationOf_funcNumber hvalid] at hlocation
      cases hlocation
      exact (mem_foundAll_iff hvalid).mp (heq ▸ hnumber)
  have hinjective : Function.Injective locationOf := by
    intro x y hxy
    simp only [locationOf, Prod.mk.injEq] at hxy
    omega
  rw [hset, Set.encard_coe_eq_coe_finsetCard,
    List.toFinset_card_of_nodup (foundAll_nodup.map hinjective), List.length_map, List.length_map]

/-- The number says where the function is. -/
theorem PciDevice.location_eq {d : PciDevice} (hd : ValidFunc d.bus d.dev d.func)
    (hvalid : ValidFunc bus dev func) (h : d.number = funcNumber bus dev func) :
    (d.bus, d.dev, d.func) = (bus, dev, func) := by
  rw [← locationOf_funcNumber hd, ← locationOf_funcNumber hvalid]
  exact congrArg locationOf h

/-- Ascending numbers are in the order of bus, device and function. -/
theorem PciDevice.precedes_of_lt {d d' : PciDevice} (hd : ValidFunc d.bus d.dev d.func)
    (hd' : ValidFunc d'.bus d'.dev d'.func) (h : d.number < d'.number) : d.Precedes d' := by
  obtain ⟨-, hdev, hfunc⟩ := hd
  obtain ⟨-, hdev', hfunc'⟩ := hd'
  unfold PciDevice.number funcNumber at h
  unfold PciDevice.Precedes
  omega

/-- If all functions of a device have its header type, the records are as they should be. -/
theorem Held.recordsPresent {devices : List PciDevice}
    (h : Held hw regs (foundAll hw regs) devices) (hsame : SameHeaders hw regs) :
    RecordsPresent hw regs devices := by
  obtain ⟨hnumbers, hrecords⟩ := h
  have hpresent : ∀ d ∈ devices, Present hw regs d.bus d.dev d.func := by
    intro d hd
    apply (mem_foundAll_iff (hrecords d hd).1).mp
    rw [← hnumbers]
    exact List.mem_map_of_mem hd
  constructor
  · have hsorted : (devices.map PciDevice.number).Pairwise (· < ·) := by
      rw [hnumbers]
      exact List.pairwise_map.mpr foundAll_sorted
    refine (List.pairwise_map.mp hsorted).imp_of_mem fun {d d'} hd hd' hlt => ?_
    exact PciDevice.precedes_of_lt (hrecords d hd).1 (hrecords d' hd').1 hlt
  · exact hpresent
  · intro bus dev func hfunc
    have hmem := (mem_foundAll_iff hfunc.valid).mpr hfunc
    rw [← hnumbers] at hmem
    obtain ⟨d, hd, hnumber⟩ := List.mem_map.mp hmem
    exact ⟨d, hd, PciDevice.location_eq (hrecords d hd).1 hfunc.valid hnumber⟩
  · intro d hd
    rw [hsame _ _ _ (hpresent d hd)]
    exact (hrecords d hd).2

/-- Records with their own header types say that the types in a device are the same. -/
theorem Held.sameHeaders {found : List Found} {devices : List PciDevice}
    (h : Held hw regs found devices) (hrecords : RecordsPresent hw regs devices) :
    SameHeaders hw regs := by
  intro bus dev func hpresent
  obtain ⟨d, hd, hlocation⟩ := hrecords.complete bus dev func hpresent
  cases hlocation
  exact (hrecords.own d hd).headerType.symm.trans (h.records d hd).2.headerType

end Records

/-- For every population and all answers of other ports: `pci_init` stores inside of its array, and
records each function that is there, in their order and with its own header, if and only if there
are no more functions than elements and the functions of a device have the same header type. -/
theorem pciInit_records_iff (hw : Hardware) (b : Bus) :
    (∃ devices b', pciInit hw b = some (devices, b') ∧ RecordsPresent hw b.regs devices) ↔
      (presentSet hw b.regs).encard ≤ pciMaxDevices ∧ SameHeaders hw b.regs := by
  obtain ⟨htraced, hheld⟩ := @recorded_pciInit hw b
  rw [encard_presentSet, Nat.cast_le]
  constructor
  · rintro ⟨devices, b', hinit, hrecords⟩
    rw [hinit] at htraced
    exact ⟨htraced.elim.1, (hheld devices b' hinit).sameHeaders hrecords⟩
  · rintro ⟨hle, hsame⟩
    rw [Traced, if_pos hle] at htraced
    obtain ⟨devices, b', hinit, -⟩ := htraced
    exact ⟨devices, b', hinit, (hheld devices b' hinit).recordsPresent hsame⟩

/-- A device with a generic function and a bridge. -/
def genericAndBridge : Hardware where
  present number := number < 2
  writable _ := 0
  answer _ _ := 0

/-- The vendor, and the header types 0x80 and 0x01. -/
def genericAndBridgeBus : Bus where
  regs k :=
    if k.2 = 0 then 0x12341234 else if k = (0, 3) then 0x00800000
    else if k = (1, 3) then 0x00010000 else 0
  latch := 0
  asked := 0

/-- The bridge is recorded as a generic function. -/
theorem pciInit_wrongHeader :
    ¬ ∃ devices b', pciInit genericAndBridge genericAndBridgeBus = some (devices, b') ∧
      RecordsPresent genericAndBridge genericAndBridgeBus.regs devices := by
  rintro ⟨devices, b', hinit, hrecords⟩
  have hheld := (@recorded_pciInit genericAndBridge genericAndBridgeBus).2 devices b' hinit
  have hbridge : Present genericAndBridge genericAndBridgeBus.regs 0 0 1 :=
    { valid := ⟨by decide, by decide, by decide⟩
      vendor := by decide +kernel
      declared := Or.inr (show ¬ _ = _ by decide +kernel) }
  exact absurd (hheld.sameHeaders hrecords 0 0 1 hbridge) (by decide +kernel)

end Smor.Pci
