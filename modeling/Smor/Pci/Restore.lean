import Mathlib.Data.List.Nodup
import Smor.Lib.Fill
import Smor.Lib.Sweep
import Smor.Pci.Bars

/-!
# What `pci_init` leaves in configuration space

Sizing a base address register overwrites it, and then writes back what `pci_read_32` returned
before. As `pci_read_32` reads the port 0xCFC plus the offset, this is what another device
answers. `trace` lists which registers are sized with which answers, and all registers keep
their values exactly if each of these answers, where it can be written, is the old value.
-/

namespace Smor.Pci

open Smor.Lib

/-- A register that is sized, and the value that is written back. -/
structure Sizing where
  key : ℕ × ℕ
  value : BitVec 32

section Answers

variable (hw : Hardware)

/-- The answer to `pci_read_32` of the register `i`, as the read with a given number. -/
def barAnswer (asked i : ℕ) : BitVec 32 := hw.answer asked (0xCFC + barReg i)

/-- What one round of the loop sizes, with the next register and the number of the next
answer. -/
def sizeStep (number i asked : ℕ) : List Sizing × ℕ × ℕ :=
  match barKind (barAnswer hw asked i) with
  | .mem32 => ([⟨(number, 4 + i), barAnswer hw (asked + 1) i⟩], i + 1, asked + 3)
  | .mem64 => ([⟨(number, 4 + i), barAnswer hw (asked + 2) i⟩], i + 2, asked + 4)
  | .unused => ([], i + 1, asked + 1)
  | .io => ([], i + 1, asked + 1)
  | .reserved => ([], i + 1, asked + 1)

/-- The registers of a function that are sized, from the register `i` on and for answers from a
given number on, and the number of the next answer. -/
def sizings (number : ℕ) : ℕ → ℕ → ℕ → List Sizing × ℕ
  | 0, _, asked => ([], asked)
  | n + 1, i, asked =>
    if i < 6 then
      let s := sizeStep hw number i asked
      let rest := sizings number n s.2.1 s.2.2
      (s.1 ++ rest.1, rest.2)
    else ([], asked)

/-- A function that is found, by its number, and whether its header is the generic one. -/
abbrev Found := ℕ × Bool

/-- All registers that are sized, by the functions that are found. -/
def trace (found : List Found) (asked : ℕ) : List Sizing × ℕ :=
  found.foldl (fun t f =>
    if f.2 then (t.1 ++ (sizings hw f.1 6 0 t.2).1, (sizings hw f.1 6 0 t.2).2) else t)
    ([], asked)

variable (regs : ℕ × ℕ → BitVec 32)

/-- The vendor of a function. -/
def vendorOf (number : ℕ) : BitVec 16 := (hw.register regs (number, 0)).setWidth 16

/-- The header type of the first function of a device. -/
def headerOf (bus dev : ℕ) : BitVec 8 :=
  (hw.register regs (funcNumber bus dev 0, 3) >>> 16).setWidth 8

/-- The function, if it is there. -/
def foundFunc (bus dev func : ℕ) : List Found :=
  if vendorOf hw regs (funcNumber bus dev func) = 0xFFFF then []
  else [(funcNumber bus dev func, decide (headerOf hw regs bus dev &&& 0x7F = 0x00))]

/-- The functions of a device that are found. -/
def foundDev (bus dev : ℕ) : List Found :=
  (List.range (numFunc (headerOf hw regs bus dev))).flatMap (foundFunc hw regs bus dev)

/-- The functions of a bus that are found. -/
def foundBus (bus : ℕ) : List Found := (List.range 32).flatMap (foundDev hw regs bus)

/-- The functions that `pci_init` finds. -/
def foundAll : List Found := (List.range 256).flatMap (foundBus hw regs)

/-- The registers after some of them were sized. -/
def restore (ss : List Sizing) : ℕ × ℕ → BitVec 32 :=
  ss.foldl (fun regs s => hw.write s.key s.value regs) regs

end Answers

section Sizes

variable {hw : Hardware} {bus dev func : ℕ}

/-- Sizing a register writes the first answer to it. -/
theorem pciBarSize_real (hvalid : ValidFunc bus dev func) {i : ℕ} (hi : i < 6) (b : Bus) :
    (pciBarSize hw (pciRead32 hw) (pciMakeId bus dev func) i b).2.regs =
        hw.write (funcNumber bus dev func, 4 + i) (barAnswer hw b.asked i) b.regs ∧
      (pciBarSize hw (pciRead32 hw) (pciMakeId bus dev func) i b).2.asked = b.asked + 2 := by
  have hpos : 0 < barReg i := by
    unfold barReg
    omega
  have hreg : barReg i < 256 := by
    unfold barReg
    omega
  have hread := fun b => pciRead32_spec hw (b := b) hpos (pciMakeId bus dev func)
  have hwrite := fun b => pciWrite32_spec hw (b := b) hvalid hreg
  dsimp only [pciBarSize]
  rw [(hwrite _ _).1, (hwrite _ _).2, (hread _).2.1, (hread _).2.2, (hwrite _ _).1,
    (hwrite _ _).2, (hread _).2.1, (hread _).2.2, (hread b).1, write_write, barReg_div]
  exact ⟨rfl, rfl⟩

theorem barReg_pos (i : ℕ) : 0 < barReg i := by
  unfold barReg
  omega

/-- What one round of the loop of `pci_read_bars` does to the registers. -/
theorem readBar_real (hvalid : ValidFunc bus dev func) {i : ℕ} (hi : i < 6) (bars : ℕ → PciBar)
    (b : Bus) :
    (readBar hw (pciRead32 hw) (pciMakeId bus dev func) i bars b).1 =
        (sizeStep hw (funcNumber bus dev func) i b.asked).2.1 ∧
      (readBar hw (pciRead32 hw) (pciMakeId bus dev func) i bars b).2.2.regs =
        restore hw b.regs (sizeStep hw (funcNumber bus dev func) i b.asked).1 ∧
      (readBar hw (pciRead32 hw) (pciMakeId bus dev func) i bars b).2.2.asked =
        (sizeStep hw (funcNumber bus dev func) i b.asked).2.2 := by
  obtain ⟨hvalue, hregs, hasked⟩ :=
    pciRead32_spec hw (b := b) (barReg_pos i) (pciMakeId bus dev func)
  have hanswer : (pciRead32 hw (pciMakeId bus dev func) (barReg i) b).1 =
    barAnswer hw b.asked i := hvalue
  obtain ⟨-, hnextRegs, hnextAsked⟩ := pciRead32_spec hw
    (b := (pciRead32 hw (pciMakeId bus dev func) (barReg i) b).2) (barReg_pos (i + 1))
    (pciMakeId bus dev func)
  have hsize := fun b => @pciBarSize_real hw bus dev func hvalid i hi b
  unfold readBar sizeStep barKind
  dsimp only
  rw [hanswer]
  split_ifs with hzero hio h32 h64
  · exact ⟨rfl, hregs, hasked⟩
  · exact ⟨rfl, hregs, hasked⟩
  · refine ⟨rfl, ?_, ?_⟩
    · rw [(hsize _).1, hregs, hasked]
      rfl
    · rw [(hsize _).2, hasked]
  · refine ⟨rfl, ?_, ?_⟩
    · rw [(hsize _).1, hnextRegs, hnextAsked, hregs, hasked]
      rfl
    · rw [(hsize _).2, hnextAsked, hasked]
  · exact ⟨rfl, hregs, hasked⟩

theorem restore_append (regs : ℕ × ℕ → BitVec 32) (ss ss' : List Sizing) :
    restore hw regs (ss ++ ss') = restore hw (restore hw regs ss) ss' := List.foldl_append

/-- What the loop of `pci_read_bars` does to the registers. -/
theorem readBars_real (hvalid : ValidFunc bus dev func) (n i : ℕ) (bars : ℕ → PciBar) (b : Bus) :
    (readBars hw (pciRead32 hw) (pciMakeId bus dev func) n i bars b).2.regs =
        restore hw b.regs (sizings hw (funcNumber bus dev func) n i b.asked).1 ∧
      (readBars hw (pciRead32 hw) (pciMakeId bus dev func) n i bars b).2.asked =
        (sizings hw (funcNumber bus dev func) n i b.asked).2 := by
  induction n generalizing i bars b with
  | zero => exact ⟨rfl, rfl⟩
  | succ n ih =>
    rw [readBars, sizings]
    by_cases hi : i < 6
    · rw [if_pos hi, if_pos hi]
      obtain ⟨hnext, hregs, hasked⟩ := @readBar_real hw bus dev func hvalid i hi bars b
      dsimp only
      rw [(ih _ _ _).1, (ih _ _ _).2, hnext, hregs, hasked, restore_append]
      exact ⟨rfl, rfl⟩
    · rw [if_neg hi, if_neg hi]
      exact ⟨rfl, rfl⟩

end Sizes

section Keys

variable {hw : Hardware}

/-- One round sizes its own register, if any, and goes forwards. -/
theorem sizeStep_spec (hw : Hardware) (number i asked : ℕ) :
    i < (sizeStep hw number i asked).2.1 ∧
      ((sizeStep hw number i asked).1 = [] ∨
        ∃ value, (sizeStep hw number i asked).1 = [⟨(number, 4 + i), value⟩]) := by
  unfold sizeStep
  split
  · exact ⟨Nat.lt_add_of_pos_right (by decide), Or.inr ⟨_, rfl⟩⟩
  · exact ⟨Nat.lt_add_of_pos_right (by decide), Or.inr ⟨_, rfl⟩⟩
  all_goals exact ⟨Nat.lt_add_of_pos_right (by decide), Or.inl rfl⟩

/-- The registers of a function that are sized are different ones of its base address
registers. -/
theorem sizings_keys (hw : Hardware) (number n i asked : ℕ) :
    (∀ s ∈ (sizings hw number n i asked).1, s.key.1 = number ∧ 4 + i ≤ s.key.2 ∧ s.key.2 < 10) ∧
      ((sizings hw number n i asked).1.map Sizing.key).Nodup := by
  induction n generalizing i asked with
  | zero => simp [sizings]
  | succ n ih =>
    rw [sizings]
    split_ifs with hi
    · obtain ⟨hnext, hstep⟩ := sizeStep_spec hw number i asked
      obtain ⟨hrange, hnodup⟩ :=
        ih (sizeStep hw number i asked).2.1 (sizeStep hw number i asked).2.2
      dsimp only
      rcases hstep with hstep | ⟨value, hstep⟩
      · rw [hstep, List.nil_append]
        refine ⟨fun s hs => ?_, hnodup⟩
        obtain ⟨hnumber, hmin, hmax⟩ := hrange s hs
        exact ⟨hnumber, by omega, hmax⟩
      · rw [hstep, List.singleton_append, List.forall_mem_cons, List.map_cons, List.nodup_cons]
        refine ⟨⟨⟨rfl, Nat.le_refl _, by dsimp only; omega⟩, fun s hs => ?_⟩, ?_, hnodup⟩
        · obtain ⟨hnumber, hmin, hmax⟩ := hrange s hs
          exact ⟨hnumber, by omega, hmax⟩
        · intro hmem
          obtain ⟨s, hs, hkey⟩ := List.mem_map.mp hmem
          have hlater := (hrange s hs).2.1
          rw [hkey] at hlater
          dsimp only at hlater
          omega
    · simp

/-- One more function that is found. -/
theorem trace_append (found : List Found) (f : Found) (asked : ℕ) :
    trace hw (found ++ [f]) asked =
      if f.2 then
        ((trace hw found asked).1 ++ (sizings hw f.1 6 0 (trace hw found asked).2).1,
          (sizings hw f.1 6 0 (trace hw found asked).2).2)
      else trace hw found asked := by
  rw [trace, List.foldl_append]
  rfl

/-- The registers that are sized are base address registers of the functions that are found. -/
theorem trace_keys (found : List Found) (asked : ℕ) :
    ∀ s ∈ (trace hw found asked).1,
      s.key.1 ∈ found.map Prod.fst ∧ 4 ≤ s.key.2 ∧ s.key.2 < 10 := by
  induction found using List.reverseRecOn with
  | nil => simp [trace]
  | append_singleton found f ih =>
    intro s hs
    rw [trace_append] at hs
    have hold : s ∈ (trace hw found asked).1 →
        s.key.1 ∈ (found ++ [f]).map Prod.fst ∧ 4 ≤ s.key.2 ∧ s.key.2 < 10 := by
      intro h
      obtain ⟨hnumber, hrange⟩ := ih s h
      refine ⟨?_, hrange⟩
      rw [List.map_append]
      exact List.mem_append_left _ hnumber
    split_ifs at hs with hgeneric
    · rcases List.mem_append.mp hs with hs | hs
      · exact hold hs
      · obtain ⟨hnumber, hmin, hmax⟩ := (sizings_keys hw f.1 6 0 _).1 s hs
        refine ⟨?_, by omega, hmax⟩
        rw [hnumber, List.map_append]
        exact List.mem_append_right _ (List.mem_singleton_self f.1)
    · exact hold hs

/-- Functions that are found later do not change what was sized before. -/
theorem trace_subset (found found' : List Found) (asked : ℕ) :
    ∀ s ∈ (trace hw found asked).1, s ∈ (trace hw (found ++ found') asked).1 := by
  induction found' using List.reverseRecOn with
  | nil => simp
  | append_singleton found' f ih =>
    intro s hs
    rw [← List.append_assoc, trace_append]
    split_ifs
    · exact List.mem_append_left _ (ih s hs)
    · exact ih s hs

/-- No register is sized twice, as no function is found twice. -/
theorem trace_nodup {found : List Found} (hfound : (found.map Prod.fst).Nodup) (asked : ℕ) :
    ((trace hw found asked).1.map Sizing.key).Nodup := by
  induction found using List.reverseRecOn with
  | nil => exact List.nodup_nil
  | append_singleton found f ih =>
    rw [List.map_append, List.nodup_append] at hfound
    obtain ⟨hold, -, hnew⟩ := hfound
    rw [trace_append]
    split_ifs with hgeneric
    · obtain ⟨hkeys, hnodup⟩ := sizings_keys hw f.1 6 0 (trace hw found asked).2
      dsimp only
      rw [List.map_append, List.nodup_append]
      refine ⟨ih hold, hnodup, ?_⟩
      intro k hk k' hk' heq
      obtain ⟨s, hs, rfl⟩ := List.mem_map.mp hk
      obtain ⟨s', hs', rfl⟩ := List.mem_map.mp hk'
      have hnumber := (trace_keys found asked s hs).1
      refine hnew _ hnumber f.1 (List.mem_singleton_self f.1) ?_
      rw [heq, (hkeys s' hs').1]
    · exact ih hold

/-- Writing back is a change of each register that is sized. -/
theorem restore_eq_foldChanges (regs : ℕ × ℕ → BitVec 32) (ss : List Sizing) :
    restore hw regs ss = foldChanges Sizing.key (fun s old =>
      if hw.present s.key.1 then merge (hw.writable s.key) old s.value else old) ss regs := by
  have hwrite : ∀ (regs : ℕ × ℕ → BitVec 32) (s : Sizing), hw.write s.key s.value regs =
      Function.update regs s.key (if hw.present s.key.1 then
        merge (hw.writable s.key) (regs s.key) s.value else regs s.key) := by
    intro regs s
    unfold Hardware.write
    split_ifs
    · rfl
    · rw [Function.update_eq_self]
  unfold restore foldChanges
  simp only [hwrite]

/-- Sizing base address registers leaves the header alone. -/
theorem restore_header {regs : ℕ × ℕ → BitVec 32} {ss : List Sizing}
    (hss : ∀ s ∈ ss, 4 ≤ s.key.2 ∧ s.key.2 < 10) {k : ℕ × ℕ} (hk : k.2 < 4 ∨ 10 ≤ k.2) :
    restore hw regs ss k = regs k := by
  rw [restore_eq_foldChanges]
  refine foldChanges_other (fun s hs heq => ?_) regs
  obtain ⟨hmin, hmax⟩ := hss s hs
  rw [heq] at hmin hmax
  omega

/-- The registers keep their values if every value that is written back agrees with the
register where it can be written. -/
theorem restore_eq_iff {regs : ℕ × ℕ → BitVec 32} {ss : List Sizing}
    (hnodup : (ss.map Sizing.key).Nodup) (hpresent : ∀ s ∈ ss, hw.present s.key.1) :
    restore hw regs ss = regs ↔
      ∀ s ∈ ss, s.value &&& hw.writable s.key = regs s.key &&& hw.writable s.key := by
  rw [restore_eq_foldChanges, foldChanges_eq_iff hnodup]
  refine forall₂_congr fun s hs => ?_
  rw [if_pos (hpresent s hs), merge_eq_iff]

end Keys

section Found

variable {hw : Hardware} {regs : ℕ × ℕ → BitVec 32}

/-- What is found in consecutive ranges of numbers is found in ascending order. -/
theorem pairwise_flatMap_range {n : ℕ} {g : ℕ → List Found} (low : ℕ → ℕ)
    (hlow : ∀ x y, x ≤ y → low x ≤ low y)
    (hrange : ∀ x < n, ∀ f ∈ g x, low x ≤ f.1 ∧ f.1 < low (x + 1))
    (hsorted : ∀ x < n, (g x).Pairwise fun f f' => f.1 < f'.1) :
    ((List.range n).flatMap g).Pairwise fun f f' => f.1 < f'.1 := by
  rw [List.pairwise_flatMap]
  refine ⟨fun x hx => hsorted x (List.mem_range.mp hx), ?_⟩
  refine List.pairwise_lt_range.imp_of_mem fun {x y} hx hy hxy f hf f' hf' => ?_
  have hf := (hrange x (List.mem_range.mp hx) f hf).2
  have hf' := (hrange y (List.mem_range.mp hy) f' hf').1
  have hnext := hlow (x + 1) y hxy
  omega

/-- The function that is found has the number that was looked for, and it is there. -/
theorem mem_foundFunc {bus dev func : ℕ} {f : Found} (hf : f ∈ foundFunc hw regs bus dev func) :
    f.1 = funcNumber bus dev func ∧ hw.present f.1 := by
  unfold foundFunc at hf
  split_ifs at hf with hvendor
  · simp at hf
  · rw [List.mem_singleton] at hf
    subst hf
    refine ⟨rfl, ?_⟩
    by_contra habsent
    refine hvendor ?_
    rw [vendorOf, Hardware.register, if_neg habsent]
    rfl

theorem numFunc_le (headerType : BitVec 8) : numFunc headerType ≤ 8 := by
  unfold numFunc
  split_ifs <;> omega

/-- The functions of a device. -/
theorem mem_foundDev {bus dev : ℕ} {f : Found} (hf : f ∈ foundDev hw regs bus dev) :
    (∃ func < 8, f.1 = funcNumber bus dev func) ∧ hw.present f.1 := by
  obtain ⟨func, hfunc, hf⟩ := List.mem_flatMap.mp hf
  obtain ⟨hnumber, hpresent⟩ := mem_foundFunc hf
  have hcount := numFunc_le (headerOf hw regs bus dev)
  have hlt := List.mem_range.mp hfunc
  exact ⟨⟨func, by omega, hnumber⟩, hpresent⟩

/-- The functions of a bus. -/
theorem mem_foundBus {bus : ℕ} {f : Found} (hf : f ∈ foundBus hw regs bus) :
    (∃ dev < 32, ∃ func < 8, f.1 = funcNumber bus dev func) ∧ hw.present f.1 := by
  obtain ⟨dev, hdev, hf⟩ := List.mem_flatMap.mp hf
  obtain ⟨hnumber, hpresent⟩ := mem_foundDev hf
  exact ⟨⟨dev, List.mem_range.mp hdev, hnumber⟩, hpresent⟩

/-- The functions are found in the order of their numbers. -/
theorem foundAll_sorted : (foundAll hw regs).Pairwise fun f f' => f.1 < f'.1 := by
  refine pairwise_flatMap_range (fun bus => bus * 2 ^ 8) (fun x y h => by omega) ?_ ?_
  · intro bus _ f hf
    obtain ⟨⟨dev, hdev, func, hfunc, hnumber⟩, -⟩ := mem_foundBus hf
    rw [hnumber, funcNumber]
    omega
  · intro bus _
    refine pairwise_flatMap_range (fun dev => bus * 2 ^ 8 + dev * 2 ^ 3)
      (fun x y h => by omega) ?_ ?_
    · intro dev _ f hf
      obtain ⟨⟨func, hfunc, hnumber⟩, -⟩ := mem_foundDev hf
      rw [hnumber, funcNumber]
      omega
    · intro dev _
      refine pairwise_flatMap_range (fun func => bus * 2 ^ 8 + dev * 2 ^ 3 + func)
        (fun x y h => by omega) ?_ ?_
      · intro func _ f hf
        rw [(mem_foundFunc hf).1, funcNumber]
        omega
      · intro func _
        unfold foundFunc
        split_ifs
        · exact List.Pairwise.nil
        · exact List.pairwise_singleton _ _

theorem foundAll_nodup : ((foundAll hw regs).map Prod.fst).Nodup :=
  List.pairwise_map.mpr (foundAll_sorted.imp fun h => Nat.ne_of_lt h)

/-- The functions that are found are there. -/
theorem foundAll_present {number : ℕ} (h : number ∈ (foundAll hw regs).map Prod.fst) :
    hw.present number := by
  obtain ⟨f, hf, rfl⟩ := List.mem_map.mp h
  obtain ⟨bus, -, hf⟩ := List.mem_flatMap.mp hf
  exact (mem_foundBus hf).2

end Found

section Runs

variable {hw : Hardware} {b₀ : Bus}

/-- What a part of the loops of `pci_init` leaves, by the functions that it finds: nothing if
there are more of them than `pci_devices` has elements. -/
def Traced (hw : Hardware) (b₀ : Bus) (found : List Found) (s : Option Scan) : Prop :=
  if found.length ≤ pciMaxDevices then
    ∃ devices b, s = some (devices, b) ∧ devices.length = found.length ∧
      b.regs = restore hw b₀.regs (trace hw found b₀.asked).1 ∧
      b.asked = (trace hw found b₀.asked).2
  else s = none

/-- The array was full before. -/
theorem Traced.of_full {found : List Found} (h : Traced hw b₀ found none) (more : List Found) :
    Traced hw b₀ (found ++ more) none := by
  have hfull : ¬ found.length ≤ pciMaxDevices := by
    intro hle
    rw [Traced, if_pos hle] at h
    obtain ⟨devices, b, hsome, -⟩ := h
    cases hsome
  rw [Traced, if_neg]
  rw [List.length_append]
  omega

/-- What `pci_read_bars` does to the registers of a device. -/
theorem pciReadBars_real {bus dev func : ℕ} (hvalid : ValidFunc bus dev func)
    (device : PciDevice) (hnumbers : (device.bus, device.dev, device.func) = (bus, dev, func))
    (b : Bus) :
    (pciReadBars hw (pciRead32 hw) device b).2.regs =
        (if device.headerType = 0x00 then
          restore hw b.regs (sizings hw (funcNumber bus dev func) 6 0 b.asked).1
        else b.regs) ∧
      (pciReadBars hw (pciRead32 hw) device b).2.asked =
        if device.headerType = 0x00 then
          (sizings hw (funcNumber bus dev func) 6 0 b.asked).2
        else b.asked := by
  cases hnumbers
  unfold pciReadBars
  split_ifs with hgeneric
  · exact readBars_real hvalid 6 0 device.bars b
  · exact ⟨rfl, rfl⟩

/-- The loops have not failed so far, and the header of every function is as it was. -/
theorem Traced.elim {found : List Found} {s : Scan} (hs : Traced hw b₀ found (some s)) :
    found.length ≤ pciMaxDevices ∧ s.1.length = found.length ∧
      s.2.regs = restore hw b₀.regs (trace hw found b₀.asked).1 ∧
      s.2.asked = (trace hw found b₀.asked).2 ∧
      ∀ k : ℕ × ℕ, k.2 < 4 → hw.register s.2.regs k = hw.register b₀.regs k := by
  have hle : found.length ≤ pciMaxDevices := by
    by_contra hgt
    rw [Traced, if_neg hgt] at hs
    cases hs
  rw [Traced, if_pos hle] at hs
  obtain ⟨devices, b, heq, hlength, hregs, hasked⟩ := hs
  cases heq
  refine ⟨hle, hlength, hregs, hasked, fun k hk => ?_⟩
  unfold Hardware.register
  rw [hregs, restore_header (fun s hs => (trace_keys found b₀.asked s hs).2) (Or.inl hk)]

/-- A round of the innermost loop finds its function, if it is there. -/
theorem traced_scanFunc {bus dev func : ℕ} (hvalid : ValidFunc bus dev func)
    {found : List Found} {s : Scan} (hs : Traced hw b₀ found (some s)) :
    Traced hw b₀ (found ++ foundFunc hw b₀.regs bus dev func)
      (scanFunc hw (headerOf hw b₀.regs bus dev) bus dev s func) := by
  obtain ⟨hle, hlength, hregs, hasked, hheader⟩ := hs.elim
  have h8 : ∀ reg < 256, ∀ b, (pciRead8 hw (pciMakeId bus dev func) reg b).2.regs = b.regs ∧
      (pciRead8 hw (pciMakeId bus dev func) reg b).2.asked = b.asked :=
    fun reg hreg b => (pciRead8_spec hw hvalid hreg).2
  have h16 : ∀ reg < 256, ∀ b, (pciRead16 hw (pciMakeId bus dev func) reg b).2.regs = b.regs ∧
      (pciRead16 hw (pciMakeId bus dev func) reg b).2.asked = b.asked :=
    fun reg hreg b => (pciRead16_spec hw hvalid hreg).2
  have hvendor : (pciRead16 hw (pciMakeId bus dev func) 0x00 s.2).1 =
      vendorOf hw b₀.regs (funcNumber bus dev func) := by
    rw [(pciRead16_spec hw hvalid (by decide)).1, hheader _ (show 0 / 4 < 4 by decide)]
    exact congrArg _ (BitVec.ushiftRight_zero _)
  unfold scanFunc foundFunc
  dsimp only
  rw [hvendor]
  by_cases habsent : vendorOf hw b₀.regs (funcNumber bus dev func) = 0xFFFF
  · rw [if_pos habsent, if_pos habsent, List.append_nil, Traced, if_pos hle]
    refine ⟨_, _, rfl, hlength, ?_, ?_⟩
    · rw [(h16 0x00 (by decide) _).1, hregs]
    · rw [(h16 0x00 (by decide) _).2, hasked]
  · rw [if_neg habsent, if_neg habsent, Traced, List.length_append, List.length_singleton]
    by_cases hroom : s.1.length < pciMaxDevices
    · have hframe := And.intro (h16 0x00 (by decide)) (And.intro (h16 0x02 (by decide))
        (And.intro (h8 0x0b (by decide)) (And.intro (h8 0x0a (by decide))
          (And.intro (h8 0x09 (by decide)) (And.intro (h8 0x3c (by decide))
            (h8 0x3d (by decide)))))))
      rw [if_pos hroom, if_pos (by omega), trace_append]
      refine ⟨_, _, rfl, ?_, ?_, ?_⟩
      · rw [List.length_append, List.length_singleton, hlength]
      · rw [(pciReadBars_real hvalid _ ?_ _).1]
        · simp only [hframe, hregs, hasked, decide_eq_true_eq]
          split_ifs
          · exact (restore_append _ _ _).symm
          · rfl
        · rfl
      · rw [(pciReadBars_real hvalid _ ?_ _).2]
        · simp only [hframe, hasked, decide_eq_true_eq]
          split_ifs <;> rfl
        · rfl
    · rw [if_neg hroom, if_neg (by omega)]

section Loops

variable {P : List Found → Option Scan → Prop}

/-- What `pci_init` leaves, for a property of the functions found so far and the state: it is kept
by a round of the innermost loop, and it does not depend on the address latch. -/
theorem pciInit_collects (htraced : ∀ found s, P found s → Traced hw b₀ found s)
    (hfail : ∀ found more, P found none → P (found ++ more) none)
    (hread : ∀ found s b, P found (some s) → b.regs = s.2.regs → b.asked = s.2.asked →
      P found (some (s.1, b)))
    (hfunc : ∀ bus dev func, ValidFunc bus dev func → ∀ found s, P found (some s) →
      P (found ++ foundFunc hw b₀.regs bus dev func)
        (scanFunc hw (headerOf hw b₀.regs bus dev) bus dev s func))
    (hstart : P [] (some ([], b₀))) : P (foundAll hw b₀.regs) (pciInit hw b₀) := by
  rw [← List.nil_append (foundAll hw b₀.regs)]
  refine foldlM_collects hfail (fun bus hbus found s hs => ?_) hstart
  refine foldlM_collects hfail (fun dev hdev found s hs => ?_) hs
  have hvalid : ∀ func < 8, ValidFunc bus dev func :=
    fun func hlt => ⟨List.mem_range.mp hbus, List.mem_range.mp hdev, hlt⟩
  -- The header is read once for all functions of the device.
  obtain ⟨-, -, -, -, hheader⟩ := (htraced found _ hs).elim
  obtain ⟨hvalue, hregs, hasked⟩ :=
    pciRead8_spec hw (b := s.2) (hvalid 0 (by decide)) (by decide : 0x0e < 256)
  rw [hheader _ (show 0x0e / 4 < 4 by decide)] at hvalue
  have hheaderType : (pciRead8 hw (pciMakeId bus dev 0) 0x0e s.2).1 =
    headerOf hw b₀.regs bus dev := hvalue
  unfold scanDev foundDev
  dsimp only
  rw [hheaderType]
  refine foldlM_collects hfail (fun func hfn found s hs => ?_) (hread found s _ hs hregs hasked)
  have hcount := numFunc_le (headerOf hw b₀.regs bus dev)
  have hlt := List.mem_range.mp hfn
  exact hfunc bus dev func (hvalid func (by omega)) found s hs

end Loops

/-- The address latch plays no part in what is left. -/
theorem Traced.of_read {found : List Found} {s : Scan} {b : Bus}
    (hs : Traced hw b₀ found (some s)) (hregs : b.regs = s.2.regs) (hasked : b.asked = s.2.asked) :
    Traced hw b₀ found (some (s.1, b)) := by
  obtain ⟨hle, hlength, hrestored, hanswers, -⟩ := hs.elim
  rw [Traced, if_pos hle]
  exact ⟨s.1, b, rfl, hlength, hregs.trans hrestored, hasked.trans hanswers⟩

/-- What `pci_init` leaves. -/
theorem traced_pciInit : Traced hw b₀ (foundAll hw b₀.regs) (pciInit hw b₀) := by
  apply pciInit_collects
  · exact fun found s hs => hs
  · exact fun found more h => h.of_full more
  · exact fun found s b hs hregs hasked => hs.of_read hregs hasked
  · exact fun bus dev func hvalid found s hs => traced_scanFunc hvalid hs
  · have hempty : ([] : List Found).length ≤ pciMaxDevices := Nat.zero_le _
    rw [Traced, if_pos hempty]
    exact ⟨[], b₀, rfl, rfl, rfl, rfl⟩

end Runs

/-- The values that the sizing of base address registers writes back are the old ones, as far
as the registers can be written. -/
def AnswersAgree (hw : Hardware) (b : Bus) : Prop :=
  ∀ s ∈ (trace hw (foundAll hw b.regs) b.asked).1,
    s.value &&& hw.writable s.key = b.regs s.key &&& hw.writable s.key

/-- If all registers are as before, the answers agree. -/
theorem answersAgree_of_regs {hw : Hardware} {b b' : Bus} {devices : List PciDevice}
    (hinit : pciInit hw b = some (devices, b')) (hregs : b'.regs = b.regs) :
    (foundAll hw b.regs).length ≤ pciMaxDevices ∧ AnswersAgree hw b := by
  have htraced := @traced_pciInit hw b
  rw [hinit] at htraced
  obtain ⟨hle, -, htrace, -, -⟩ := htraced.elim
  refine ⟨hle, (restore_eq_iff (trace_nodup foundAll_nodup b.asked) ?_).mp ?_⟩
  · exact fun s hs => foundAll_present (trace_keys _ b.asked s hs).1
  · exact htrace.symm.trans hregs

/-- `pci_init` leaves all configuration registers with the values they had, for every population
and all answers of other ports, if and only if it finds no more functions than it can record
and the answers that it writes back agree with the registers. -/
theorem pciInit_restores_iff (hw : Hardware) (b : Bus) :
    (∃ devices b', pciInit hw b = some (devices, b') ∧ b'.regs = b.regs) ↔
      (foundAll hw b.regs).length ≤ pciMaxDevices ∧ AnswersAgree hw b := by
  constructor
  · rintro ⟨devices, b', hinit, hregs⟩
    exact answersAgree_of_regs hinit hregs
  · rintro ⟨hle, hagree⟩
    have htraced := @traced_pciInit hw b
    rw [Traced, if_pos hle] at htraced
    obtain ⟨devices, b', hinit, -, htrace, -⟩ := htraced
    refine ⟨devices, b', hinit, htrace.trans ?_⟩
    refine (restore_eq_iff (trace_nodup foundAll_nodup b.asked) fun s hs => ?_).mpr hagree
    exact foundAll_present (trace_keys _ b.asked s hs).1

/-- One function with a 32-bit memory register of 1MB, where all other ports answer 0x1000. -/
def oneMemory : Hardware where
  present number := number = 0
  writable k := if k.2 = 4 then 0xFFF00000 else 0
  answer _ _ := 0x1000

/-- The vendor and the register, which holds the address 0xFEB00000. -/
def oneMemoryBus : Bus where
  regs k := if k.2 = 0 then 0x12341234 else if k.2 = 4 then 0xFEB00000 else 0
  latch := 0
  asked := 0

/-- That function is the first one that is found. -/
theorem foundAll_oneMemory :
    ∃ rest, foundAll oneMemory oneMemoryBus.regs = [(0, true)] ++ rest := by
  have hdev : foundDev oneMemory oneMemoryBus.regs 0 0 = [(0, true)] := by decide +kernel
  have hbuses : List.range 256 = 0 :: (List.range 255).map Nat.succ := List.range_succ_eq_map
  have hdevs : List.range 32 = 0 :: (List.range 31).map Nat.succ := List.range_succ_eq_map
  rw [foundAll, hbuses, List.flatMap_cons, foundBus, hdevs, List.flatMap_cons, hdev,
    List.append_assoc]
  exact ⟨_, rfl⟩

/-- The register is relocated. -/
theorem pciInit_relocates :
    ¬ ∃ devices b', pciInit oneMemory oneMemoryBus = some (devices, b') ∧
      b'.regs = oneMemoryBus.regs := by
  rintro ⟨devices, b', hinit, hregs⟩
  obtain ⟨-, hagree⟩ := answersAgree_of_regs hinit hregs
  obtain ⟨rest, hfound⟩ := foundAll_oneMemory
  rw [AnswersAgree, hfound] at hagree
  have hsized : ⟨(0, 4), 0x1000⟩ ∈ (trace oneMemory [(0, true)] oneMemoryBus.asked).1 :=
    List.mem_cons_self
  exact absurd (hagree _ (trace_subset _ rest _ _ hsized)) (by decide +kernel)

end Smor.Pci
