import Smor.Lib.Runs
import Smor.Vm.BootTables

/-!
# Mapping and unmapping ranges of the boot tables

The page functions change one position of the table tree. The range functions visit
consecutive pages, whose positions are distinct as long as the addresses are canonical. The
last part is about every sequence of calls from the tables of `boot.S`.
-/

namespace Smor.Vm

open Smor.Lib

/-- The 2MB page behind an address. -/
def pageAt (vm : BootVm) (vaddr : ℕ) : Option ℕ :=
  bootLookup vm (pmlIndex vaddr) (pdpIndex vaddr) (page2mIndex vaddr)

/-- Two addresses are translated through one directory entry. -/
def SharesEntry (v w : ℕ) : Prop :=
  SameDir (pmlIndex v) (pdpIndex v) (pmlIndex w) (pdpIndex w) ∧ page2mIndex w = page2mIndex v

/-- Bits 47 to 63 of a canonical address are equal. -/
def Canonical (v : ℕ) : Prop := v < 2 ^ 47 ∨ (0xFFFF800000000000 ≤ v ∧ v < 2 ^ 64)

/-- An address of the first gigabyte and the same offset from `KERNEL_BASE`. -/
def KernelAlias (v w : ℕ) : Prop :=
  (v < 2 ^ 30 ∧ w = kernelBase + v) ∨ (w < 2 ^ 30 ∧ v = kernelBase + w)

section Indices

theorem pmlIndex_eq (v : ℕ) : pmlIndex v = v / 2 ^ 39 % 512 := by
  rw [pmlIndex, Nat.shiftRight_eq_div_pow]
  exact Nat.and_two_pow_sub_one_eq_mod _ 9

theorem pdpIndex_eq (v : ℕ) : pdpIndex v = v / 2 ^ 30 % 512 := by
  rw [pdpIndex, Nat.shiftRight_eq_div_pow]
  exact Nat.and_two_pow_sub_one_eq_mod _ 9

theorem page2mIndex_eq (v : ℕ) : page2mIndex v = v / 2 ^ 21 % 512 := by
  rw [page2mIndex, Nat.shiftRight_eq_div_pow]
  exact Nat.and_two_pow_sub_one_eq_mod _ 9

theorem pmlIndex_lt (v : ℕ) : pmlIndex v < 512 := by
  rw [pmlIndex_eq]
  omega

theorem pdpIndex_lt (v : ℕ) : pdpIndex v < 512 := by
  rw [pdpIndex_eq]
  omega

theorem page2mIndex_lt (v : ℕ) : page2mIndex v < 512 := by
  rw [page2mIndex_eq]
  omega

/-- The page depends only on the address without the offset in the page. -/
theorem pageAt_congr {vm : BootVm} {v w : ℕ} (h : v / 2 ^ 21 = w / 2 ^ 21) :
    pageAt vm v = pageAt vm w := by
  unfold pageAt
  rw [pmlIndex_eq, pmlIndex_eq, pdpIndex_eq, pdpIndex_eq, page2mIndex_eq, page2mIndex_eq,
    show v / 2 ^ 39 = w / 2 ^ 39 by omega, show v / 2 ^ 30 = w / 2 ^ 30 by omega, h]

/-- Canonical addresses share a directory entry only within one page, or through the directory
of the first gigabyte. -/
theorem SharesEntry.page_eq {v w : ℕ} (h : SharesEntry v w) (hv : Canonical v)
    (hw : Canonical w) :
    v / 2 ^ 21 = w / 2 ^ 21 ∨ (v < 2 ^ 30 ∧ w / 2 ^ 21 = (kernelBase + v) / 2 ^ 21) ∨
      (w < 2 ^ 30 ∧ v / 2 ^ 21 = (kernelBase + w) / 2 ^ 21) := by
  obtain ⟨hdir, hpage⟩ := h
  simp only [SameDir, pmlIndex_eq, pdpIndex_eq, page2mIndex_eq] at hdir hpage
  unfold Canonical at hv hw
  unfold kernelBase
  rcases hdir with ⟨hpml, hpdp⟩ | ⟨h₁, h₂, h₃, h₄⟩ | ⟨h₁, h₂, h₃, h₄⟩
  · left
    rcases hv with hv | hv <;> rcases hw with hw | hw <;> omega
  · right
    left
    omega
  · right
    right
    omega

end Indices

section Pages

/-- `vm_boot_map_page` maps the page, leaves pages at other directory entries alone, and keeps
the directories that were there. -/
theorem vmBootMapPage_spec {vm vm' : BootVm} {v p : ℕ} (hok : TablesOk vm)
    (h : vmBootMapPage vm v p = some vm') :
    TablesOk vm' ∧ (p % page2mSize = 0 → pageAt vm' v = some p) ∧
      (∀ w, ¬SharesEntry v w → pageAt vm' w = pageAt vm w) ∧
      ∀ i < 512, ∀ j < 512, ∀ d, bootDir vm i j = some d → bootDir vm' i j = some d := by
  obtain ⟨⟨e₁, vm₁⟩, h₁, hrest⟩ := Option.bind_eq_some_iff.mp h
  obtain ⟨⟨e₂, vm₂⟩, h₂, hfinal⟩ := Option.map_eq_some_iff.mp hrest
  obtain ⟨hok₁, hpdp, hdir₁, hsame₁⟩ := hok.newPdp (pmlIndex_lt v) h₁
  obtain ⟨hok₂, hpd, hkept₂, hsame₂⟩ := hok₁.newPd (pmlIndex_lt v) (pdpIndex_lt v) hpdp h₂
  have hkept : ∀ i < 512, ∀ j < 512, ∀ d, bootDir vm i j = some d → bootDir vm₂ i j = some d := by
    intro i hi j hj d hd
    rw [← hdir₁ i hi j hj] at hd
    exact hkept₂ i hi j hj d hd
  have hsame : ∀ w, pageAt vm₂ w = pageAt vm w := by
    intro w
    unfold pageAt
    rw [hsame₂ _ (pmlIndex_lt w) _ (pdpIndex_lt w) _ (page2mIndex_lt w),
      hsame₁ _ (pmlIndex_lt w) _ (pdpIndex_lt w) _ (page2mIndex_lt w)]
  dsimp only at hfinal
  split_ifs at hfinal with hwrite
  · subst hfinal
    obtain ⟨hok₃, hdir₃, hset, hframe⟩ :=
      hok₂.setPage (pmlIndex_lt v) (pdpIndex_lt v) (page2mIndex_lt v) hpd
        (p ||| pagePresent ||| pageWrite ||| page2mb)
    refine ⟨hok₃, fun hp => ?_, fun w hw => ?_, fun i hi j hj d hd => ?_⟩
    · unfold pageAt
      rw [hset, pageEntry_eq hp]
      simp only [page2mSize, page2mShift] at hp
      rw [if_neg (by omega), Option.some.injEq]
      omega
    · rw [← hsame w]
      exact hframe _ (pmlIndex_lt w) _ (pdpIndex_lt w) _ (page2mIndex_lt w) hw
    · rw [hdir₃ i hi j hj]
      exact hkept i hi j hj d hd
  · subst hfinal
    rw [not_or, not_not] at hwrite
    refine ⟨hok₂, fun _ => ?_, fun w _ => hsame w, hkept⟩
    rw [pageAt, bootLookup, hpd, Option.bind_some, bootNext, if_neg hwrite.1, hwrite.2]

/-- `vm_boot_unmap_page` unmaps the page, and leaves pages at other directory entries and the
directories alone. -/
theorem vmBootUnmapPage_spec {vm : BootVm} (hok : TablesOk vm) (v : ℕ) :
    TablesOk (vmBootUnmapPage vm v) ∧ pageAt (vmBootUnmapPage vm v) v = none ∧
      (∀ w, ¬SharesEntry v w → pageAt (vmBootUnmapPage vm v) w = pageAt vm w) ∧
      ∀ i < 512, ∀ j < 512, bootDir (vmBootUnmapPage vm v) i j = bootDir vm i j := by
  dsimp only [vmBootUnmapPage]
  split_ifs with hpdp hpd
  · have hdir : bootDir vm (pmlIndex v) (pdpIndex v) =
        some (pdirAddr (vm.entry (pdirAddr (vm.entry bootPml4 (pmlIndex v))) (pdpIndex v))) := by
      rw [bootDir, bootNext, if_neg hpdp, Option.bind_some, bootNext, if_neg hpd]
    obtain ⟨hok', hdir', hset, hframe⟩ :=
      hok.setPage (pmlIndex_lt v) (pdpIndex_lt v) (page2mIndex_lt v) hdir 0
    refine ⟨hok', hset, fun w hw => ?_, hdir'⟩
    exact hframe _ (pmlIndex_lt w) _ (pdpIndex_lt w) _ (page2mIndex_lt w) hw
  · rw [not_not] at hpd
    refine ⟨hok, ?_, fun _ _ => rfl, fun _ _ _ _ => rfl⟩
    rw [pageAt, bootLookup, bootDir, bootNext, if_neg hpdp, Option.bind_some, bootNext,
      if_pos hpd, Option.bind_none]
  · rw [not_not] at hpdp
    refine ⟨hok, ?_, fun _ _ => rfl, fun _ _ _ _ => rfl⟩
    rw [pageAt, bootLookup, bootDir, bootNext, if_pos hpdp, Option.bind_none, Option.bind_none]

end Pages

section Ranges

/-- Consecutive pages without wrap-around are visited in order. -/
theorem u64_page_step {v n : ℕ} (h : v + (n + 1) * page2mSize ≤ 2 ^ 64) (hn : 0 < n) :
    u64 (v + page2mSize) = v + page2mSize := by
  simp only [u64, page2mSize, page2mShift] at h ⊢
  omega

/-- The loop of `vm_boot_map_range` keeps the tree, whatever the addresses are. -/
theorem vmBootMapPages_ok {n : ℕ} {vm vm' : BootVm} {v p : ℕ} (hok : TablesOk vm)
    (h : vmBootMapPages n vm v p = some vm') : TablesOk vm' := by
  induction n generalizing vm v p with
  | zero =>
    rw [vmBootMapPages, Option.some.injEq] at h
    exact h ▸ hok
  | succ n ih =>
    rw [vmBootMapPages] at h
    obtain ⟨vm₁, h₁, hrest⟩ := Option.bind_eq_some_iff.mp h
    exact ih (vmBootMapPage_spec hok h₁).1 hrest

theorem vmBootUnmapPages_zero (vm : BootVm) (v : ℕ) : vmBootUnmapPages 0 vm v = vm := rfl

/-- One round of the loop of `vm_boot_unmap_range`. -/
theorem vmBootUnmapPages_succ (n : ℕ) (vm : BootVm) (v : ℕ) :
    vmBootUnmapPages (n + 1) vm v =
      vmBootUnmapPages n (vmBootUnmapPage vm v) (u64 (v + page2mSize)) := by
  rw [vmBootUnmapPages, Function.iterate_succ_apply, unmapStep, vmBootUnmapPages]

/-- The loop of `vm_boot_unmap_range` keeps the tree, whatever the addresses are. -/
theorem vmBootUnmapPages_ok {n : ℕ} {vm : BootVm} {v : ℕ} (hok : TablesOk vm) :
    TablesOk (vmBootUnmapPages n vm v) := by
  induction n generalizing vm v with
  | zero => exact hok
  | succ n ih =>
    rw [vmBootUnmapPages_succ]
    exact ih (vmBootUnmapPage_spec hok v).1

/-- The pages of a range whose positions are distinct: no later page of the range shares the
directory entry of an earlier one. -/
def Separate (v n : ℕ) : Prop :=
  ∀ m < n, ∀ m' < n, m < m' → ¬SharesEntry (v + m' * page2mSize) (v + m * page2mSize)

/-- A later page of a range, seen from the second page on. -/
theorem rangePage_succ (v m : ℕ) :
    v + (m + 1) * page2mSize = v + page2mSize + m * page2mSize := by
  rw [Nat.add_mul, Nat.one_mul]
  omega

theorem Separate.tail {v n : ℕ} (h : Separate v (n + 1)) : Separate (v + page2mSize) n := by
  intro m hm m' hm' hlt
  have hstep := h (m + 1) (by omega) (m' + 1) (by omega) (by omega)
  rwa [rangePage_succ, rangePage_succ] at hstep

/-- No later page of the range shares the directory entry of its first page. -/
theorem Separate.head {v n : ℕ} (h : Separate v (n + 1)) :
    ∀ m < n, ¬SharesEntry (v + page2mSize + m * page2mSize) v := by
  intro m hm
  have hstep := h 0 (by omega) (m + 1) (by omega) (by omega)
  rwa [rangePage_succ, Nat.zero_mul, Nat.add_zero] at hstep

/-- An address at other entries than a range is at another entry than its first page, and at
other entries than the rest. -/
theorem notShares_succ {v w n : ℕ} (h : ∀ m < n + 1, ¬SharesEntry (v + m * page2mSize) w) :
    ¬SharesEntry v w ∧ ∀ m < n, ¬SharesEntry (v + page2mSize + m * page2mSize) w := by
  refine ⟨by simpa using h 0 (by omega), fun m hm => ?_⟩
  have hstep := h (m + 1) (by omega)
  rwa [rangePage_succ] at hstep

/-- The loop of `vm_boot_map_range` maps every page of the range and leaves the pages at
other directory entries alone. -/
theorem vmBootMapPages_spec {n : ℕ} {vm vm' : BootVm} {v p : ℕ} (hok : TablesOk vm)
    (hv : v + n * page2mSize ≤ 2 ^ 64) (hp : p + n * page2mSize ≤ 2 ^ 64)
    (halign : p % page2mSize = 0) (hsep : Separate v n)
    (h : vmBootMapPages n vm v p = some vm') :
    (∀ m < n, pageAt vm' (v + m * page2mSize) = some (p + m * page2mSize)) ∧
      ∀ w, (∀ m < n, ¬SharesEntry (v + m * page2mSize) w) → pageAt vm' w = pageAt vm w := by
  induction n generalizing vm v p with
  | zero =>
    rw [vmBootMapPages, Option.some.injEq] at h
    subst h
    exact ⟨fun m hm => by omega, fun _ _ => rfl⟩
  | succ n ih =>
    rw [vmBootMapPages] at h
    obtain ⟨vm₁, h₁, hrest⟩ := Option.bind_eq_some_iff.mp h
    obtain ⟨hok₁, hmapped, hframe, -⟩ := vmBootMapPage_spec hok h₁
    rcases Nat.eq_zero_or_pos n with rfl | hn
    · rw [vmBootMapPages, Option.some.injEq] at hrest
      subst hrest
      refine ⟨fun m hm => ?_, fun w hw => hframe w (notShares_succ hw).1⟩
      obtain rfl : m = 0 := by omega
      simpa using hmapped halign
    · rw [u64_page_step hv hn, u64_page_step hp hn] at hrest
      rw [rangePage_succ] at hv hp
      obtain ⟨hrange, hrange_frame⟩ := ih hok₁ hv hp (by rwa [Nat.add_mod_right]) hsep.tail hrest
      refine ⟨fun m hm => ?_, fun w hw => ?_⟩
      · cases m with
        | zero =>
          -- the first page survives the rest of the loop
          rw [Nat.zero_mul, Nat.add_zero, Nat.add_zero, hrange_frame v hsep.head, hmapped halign]
        | succ m =>
          rw [rangePage_succ, rangePage_succ]
          exact hrange m (by omega)
      · obtain ⟨hhead, htail⟩ := notShares_succ hw
        rw [hrange_frame w htail, hframe w hhead]

/-- The loop of `vm_boot_unmap_range` unmaps every page of the range and leaves the pages at
other directory entries alone. -/
theorem vmBootUnmapPages_spec {n : ℕ} {vm : BootVm} {v : ℕ} (hok : TablesOk vm)
    (hv : v + n * page2mSize ≤ 2 ^ 64) (hsep : Separate v n) :
    (∀ m < n, pageAt (vmBootUnmapPages n vm v) (v + m * page2mSize) = none) ∧
      ∀ w, (∀ m < n, ¬SharesEntry (v + m * page2mSize) w) →
        pageAt (vmBootUnmapPages n vm v) w = pageAt vm w := by
  induction n generalizing vm v with
  | zero => exact ⟨fun m hm => by omega, fun _ _ => rfl⟩
  | succ n ih =>
    obtain ⟨hok₁, hunmapped, hframe, -⟩ := vmBootUnmapPage_spec hok v
    rw [vmBootUnmapPages_succ]
    rcases Nat.eq_zero_or_pos n with rfl | hn
    · refine ⟨fun m hm => ?_, fun w hw => hframe w (notShares_succ hw).1⟩
      obtain rfl : m = 0 := by omega
      simpa [vmBootUnmapPages_zero] using hunmapped
    · rw [u64_page_step hv hn]
      rw [rangePage_succ] at hv
      obtain ⟨hrange, hrange_frame⟩ := ih hok₁ hv hsep.tail
      refine ⟨fun m hm => ?_, fun w hw => ?_⟩
      · cases m with
        | zero =>
          rw [Nat.zero_mul, Nat.add_zero, hrange_frame v hsep.head, hunmapped]
        | succ m =>
          rw [rangePage_succ]
          exact hrange m (by omega)
      · obtain ⟨hhead, htail⟩ := notShares_succ hw
        rw [hrange_frame w htail, hframe w hhead]

end Ranges

section Calls

/-- A call of one of the two range functions. -/
inductive BootOp where
  | mapRange (vaddr paddr size : ℕ)
  | unmapRange (vaddr size : ℕ)

/-- The effect of a call; `none` if the pool is exhausted. -/
def bootStep (vm : BootVm) : BootOp → Option BootVm
  | .mapRange vaddr paddr size => vmBootMapRange vm vaddr paddr size
  | .unmapRange vaddr size => some (vmBootUnmapRange vm vaddr size)

/-- A range of canonical addresses that does not wrap around. -/
def CanonicalRange (vaddr size : ℕ) : Prop :=
  vaddr + size ≤ 2 ^ 47 ∨ (0xFFFF800000000000 ≤ vaddr ∧ vaddr + size ≤ 2 ^ 64)

/-- The addresses of a range extended to whole 2MB pages. -/
def InRounded (vaddr size u : ℕ) : Prop :=
  vaddr / page2mSize * page2mSize ≤ u ∧
    u < (vaddr + size + (page2mSize - 1)) / page2mSize * page2mSize

/-- The tables keep their shape under any calls. -/
theorem tablesOk_of_reaches {mem : ℕ → ℕ} {kernelEnd : ℕ} {vm : BootVm}
    (hend : kernelEnd ≤ 2 ^ 30)
    (hrun : Reaches bootStep (fun _ _ => True) (bootTables mem kernelEnd) vm) : TablesOk vm := by
  apply hrun.invariant (bootTables_ok mem hend)
  rintro vm op vm' hok - hstep
  cases op with
  | mapRange vaddr paddr size => exact vmBootMapPages_ok hok hstep
  | unmapRange vaddr size =>
    simp only [bootStep, Option.some.injEq] at hstep
    subst hstep
    exact vmBootUnmapPages_ok hok

/-- The number of visited pages, without wrap-around. -/
theorem bootRangePages_eq {vaddr size : ℕ} (h : CanonicalRange vaddr size) :
    bootRangePages vaddr size = (vaddr + size + (2 ^ 21 - 1)) / 2 ^ 21 - vaddr / 2 ^ 21 := by
  unfold CanonicalRange at h
  simp only [bootRangePages, page2mNum, page2mSize, page2mShift, u64, Nat.shiftRight_eq_div_pow]
  omega

/-- The pages of a range and the addresses of the rounded range. -/
theorem inRounded_iff {vaddr size u : ℕ} (h : CanonicalRange vaddr size) :
    InRounded vaddr size u ↔ ∃ m < bootRangePages vaddr size,
      u / 2 ^ 21 = (page2mBase vaddr + m * page2mSize) / 2 ^ 21 := by
  rw [bootRangePages_eq h]
  simp only [InRounded, page2mBase, page2mSize, page2mShift]
  constructor
  · rintro ⟨hlow, hhigh⟩
    exact ⟨u / 2 ^ 21 - vaddr / 2 ^ 21, by omega, by omega⟩
  · rintro ⟨m, hm, heq⟩
    omega

/-- The addresses of a rounded range are canonical. -/
theorem InRounded.canonical {vaddr size u : ℕ} (h : CanonicalRange vaddr size)
    (hu : InRounded vaddr size u) : Canonical u := by
  unfold CanonicalRange at h
  simp only [InRounded, page2mSize, page2mShift] at hu
  unfold Canonical
  omega

/-- The pages of a canonical range are separate. -/
theorem CanonicalRange.separate {vaddr size : ℕ} (h : CanonicalRange vaddr size) :
    Separate (page2mBase vaddr) (bootRangePages vaddr size) := by
  intro m hm m' hm' hlt hshare
  have hin : InRounded vaddr size (page2mBase vaddr + m * page2mSize) :=
    (inRounded_iff h).mpr ⟨m, hm, rfl⟩
  have hin' : InRounded vaddr size (page2mBase vaddr + m' * page2mSize) :=
    (inRounded_iff h).mpr ⟨m', hm', rfl⟩
  have heq := hshare.page_eq (hin'.canonical h) (hin.canonical h)
  unfold CanonicalRange at h
  simp only [InRounded, page2mBase, page2mSize, page2mShift, kernelBase] at hin hin' heq
  omega

/-- An address that shares no page and no alias with a rounded range shares no directory entry
with it. -/
theorem not_sharesEntry_of_outside {vaddr size w : ℕ} (h : CanonicalRange vaddr size)
    (hw : Canonical w) (hout : ¬InRounded vaddr size w)
    (halias : ∀ u, InRounded vaddr size u → ¬KernelAlias u w) (m : ℕ)
    (hm : m < bootRangePages vaddr size) :
    ¬SharesEntry (page2mBase vaddr + m * page2mSize) w := by
  intro hshare
  have hin : InRounded vaddr size (page2mBase vaddr + m * page2mSize) :=
    (inRounded_iff h).mpr ⟨m, hm, rfl⟩
  have halign : (page2mBase vaddr + m * page2mSize) % 2 ^ 21 = 0 := by
    simp only [page2mBase, page2mSize, page2mShift]
    omega
  -- the address of the page at the offset of `w`
  have hin' : InRounded vaddr size (page2mBase vaddr + m * page2mSize + w % page2mSize) := by
    apply (inRounded_iff h).mpr ⟨m, hm, _⟩
    generalize page2mBase vaddr + m * page2mSize = page at *
    simp only [page2mSize, page2mShift]
    omega
  have hne := halias _ hin'
  rcases hshare.page_eq (hin.canonical h) hw with heq | hlow | hhigh
  · exact hout ((inRounded_iff h).mpr ⟨m, hm, heq.symm⟩)
  · apply hne
    left
    generalize page2mBase vaddr + m * page2mSize = page at *
    simp only [kernelBase, page2mSize, page2mShift] at hlow ⊢
    omega
  · apply hne
    right
    generalize page2mBase vaddr + m * page2mSize = page at *
    simp only [kernelBase, page2mSize, page2mShift] at hhigh ⊢
    omega

/-- The walk in terms of pages. -/
theorem translate_eq (vm : BootVm) (v : ℕ) :
    translate vm v = (pageAt vm v).map (· + v % page2mSize) := rfl

/-- The loop bound of a range does not wrap around. -/
theorem CanonicalRange.pages_le {vaddr size : ℕ} (h : CanonicalRange vaddr size) (x : ℕ)
    (hx : x + size ≤ 2 ^ 64) (hmod : vaddr % page2mSize = x % page2mSize) :
    page2mBase x + bootRangePages vaddr size * page2mSize ≤ 2 ^ 64 := by
  rw [bootRangePages_eq h]
  simp only [page2mBase, page2mSize, page2mShift] at hmod ⊢
  omega

/-- On a tree of tables `vm_boot_map_range` translates a canonical range to the physical range.
The other canonical addresses keep their translation, except the other name of an address of
the range. -/
theorem TablesOk.mapRange {vm vm' : BootVm} {vaddr paddr size : ℕ} (hok : TablesOk vm)
    (hrange : CanonicalRange vaddr size) (hpaddr : paddr + size ≤ 2 ^ 64)
    (hmod : vaddr % page2mSize = paddr % page2mSize)
    (hmap : vmBootMapRange vm vaddr paddr size = some vm') :
    (∀ i < size, translate vm' (vaddr + i) = some (paddr + i)) ∧
      ∀ w, Canonical w → ¬InRounded vaddr size w →
        (∀ u, InRounded vaddr size u → ¬KernelAlias u w) → translate vm' w = translate vm w := by
  have hvaddr : vaddr + size ≤ 2 ^ 64 := by
    unfold CanonicalRange at hrange
    omega
  have halign : page2mBase paddr % page2mSize = 0 := by
    simp only [page2mBase, Nat.mul_mod_left]
  obtain ⟨hpages, hframe⟩ := vmBootMapPages_spec hok (hrange.pages_le vaddr hvaddr rfl)
    (hrange.pages_le paddr hpaddr hmod) halign hrange.separate hmap
  refine ⟨fun i hi => ?_, fun w hw hout halias => ?_⟩
  · have hin : InRounded vaddr size (vaddr + i) := by
      simp only [InRounded, page2mSize, page2mShift]
      omega
    obtain ⟨m, hm, hpage⟩ := (inRounded_iff hrange).mp hin
    rw [translate_eq, pageAt_congr hpage, hpages m hm, Option.map_some, Option.some.injEq]
    simp only [page2mBase, page2mSize, page2mShift] at hpage hmod ⊢
    omega
  · rw [translate_eq, translate_eq,
      hframe w (not_sharesEntry_of_outside hrange hw hout halias)]

/-- On a tree of tables `vm_boot_unmap_range` leaves no translation in the pages of a canonical
range, and it leaves the other canonical addresses alone in the same way. -/
theorem TablesOk.unmapRange {vm : BootVm} {vaddr size : ℕ} (hok : TablesOk vm)
    (hrange : CanonicalRange vaddr size) :
    (∀ u, InRounded vaddr size u → translate (vmBootUnmapRange vm vaddr size) u = none) ∧
      ∀ w, Canonical w → ¬InRounded vaddr size w →
        (∀ u, InRounded vaddr size u → ¬KernelAlias u w) →
        translate (vmBootUnmapRange vm vaddr size) w = translate vm w := by
  have hvaddr : vaddr + size ≤ 2 ^ 64 := by
    unfold CanonicalRange at hrange
    omega
  obtain ⟨hpages, hframe⟩ :=
    vmBootUnmapPages_spec hok (hrange.pages_le vaddr hvaddr rfl) hrange.separate
  refine ⟨fun u hin => ?_, fun w hw hout halias => ?_⟩
  · obtain ⟨m, hm, hpage⟩ := (inRounded_iff hrange).mp hin
    rw [translate_eq, pageAt_congr hpage, vmBootUnmapRange, hpages m hm, Option.map_none]
  · rw [translate_eq, translate_eq, vmBootUnmapRange,
      hframe w (not_sharesEntry_of_outside hrange hw hout halias)]

/-- From the tables of `boot.S` for an image in the first gigabyte, after any sequence of
calls: mapping a canonical range translates it to the physical range, unmapping one leaves no
translation in its pages, and both leave every other canonical address alone, except
the other name of an address of the range below `KERNEL_BASE`. -/
theorem vmBoot_ranges_correct (mem : ℕ → ℕ) {kernelEnd : ℕ}
    (hend : 0 < kernelEnd ∧ kernelEnd ≤ 2 ^ 30) {vm : BootVm}
    (hrun : Reaches bootStep (fun _ _ => True) (bootTables mem kernelEnd) vm) :
    (∀ vaddr paddr size vm', CanonicalRange vaddr size → paddr + size ≤ 2 ^ 64 →
      vaddr % page2mSize = paddr % page2mSize → vmBootMapRange vm vaddr paddr size = some vm' →
      (∀ i < size, translate vm' (vaddr + i) = some (paddr + i)) ∧
      ∀ w, Canonical w → ¬InRounded vaddr size w →
        (∀ u, InRounded vaddr size u → ¬KernelAlias u w) → translate vm' w = translate vm w) ∧
    (∀ vaddr size, CanonicalRange vaddr size →
      (∀ u, InRounded vaddr size u → translate (vmBootUnmapRange vm vaddr size) u = none) ∧
      ∀ w, Canonical w → ¬InRounded vaddr size w →
        (∀ u, InRounded vaddr size u → ¬KernelAlias u w) →
        translate (vmBootUnmapRange vm vaddr size) w = translate vm w) := by
  have hok := tablesOk_of_reaches hend.2 hrun
  constructor
  · intro vaddr paddr size vm' hrange hpaddr hmod hmap
    exact hok.mapRange hrange hpaddr hmod hmap
  · intro vaddr size hrange
    exact hok.unmapRange hrange

/-- A 4MB kernel maps a page at 1GB, which takes a new directory from the pool. -/
theorem vmBoot_ranges_correct_4mb :
    ∃ vm, vmBootMapRange (bootTables (fun _ => 0) 0x400000) 0x40000000 0x600000 0x200000 = some vm ∧
      translate vm 0x40000005 = some 0x600005 := by
  have hsome : (vmBootMapRange (bootTables (fun _ => 0) 0x400000) 0x40000000 0x600000
      0x200000).isSome := by decide +kernel
  obtain ⟨vm, hmap⟩ := Option.isSome_iff_exists.mp hsome
  have hcorrect := (vmBoot_ranges_correct (fun _ => 0) (by decide) (Reaches.refl _)).1
    0x40000000 0x600000 0x200000 vm (Or.inl (by decide)) (by decide) (by decide +kernel) hmap
  exact ⟨vm, hmap, hcorrect.1 5 (by decide)⟩

/-- The tables index bits 21 to 47 of an address, so mapping a page at an address that is not
canonical also maps the canonical address with the same bits. -/
theorem vmBoot_noncanonical_mapping_leaks :
    ∃ vm, vmBootMapRange (bootTables (fun _ => 0) 0x400000) (2 ^ 48 + 2 ^ 40) 0 0x200000 = some vm ∧
      (2 ^ 48 + 2 ^ 40) % page2mSize = 0 % page2mSize ∧
      2 ^ 48 + 2 ^ 40 + 0x200000 ≤ 2 ^ 64 ∧
      Canonical (2 ^ 40) ∧ ¬InRounded (2 ^ 48 + 2 ^ 40) 0x200000 (2 ^ 40) ∧
      (∀ u, InRounded (2 ^ 48 + 2 ^ 40) 0x200000 u → ¬KernelAlias u (2 ^ 40)) ∧
      translate vm (2 ^ 40) ≠ translate (bootTables (fun _ => 0) 0x400000) (2 ^ 40) := by
  have hchange : (vmBootMapRange (bootTables (fun _ => 0) 0x400000) (2 ^ 48 + 2 ^ 40) 0
      0x200000).any (fun vm => translate vm (2 ^ 40) ≠
        translate (bootTables (fun _ => 0) 0x400000) (2 ^ 40)) := by decide +kernel
  obtain ⟨vm, hmap, hne⟩ := (Option.any_eq_true _ _).mp hchange
  refine ⟨vm, hmap, by decide +kernel, by decide, Or.inl (by decide), ?_, ?_, of_decide_eq_true hne⟩
  · rintro ⟨hlow, -⟩
    simp only [page2mSize, page2mShift] at hlow
    omega
  · intro u hin halias
    simp only [InRounded, KernelAlias, kernelBase, page2mSize, page2mShift] at hin halias
    omega

end Calls

end Smor.Vm
