import Smor.Printf.Lines
import Smor.Vm.BootIdentity

/-!
# The listing of the boot tables

`vm_boot_dump` walks through all tables and prints every entry that is not zero, while the
processor looks at the present bit. In every reachable state an entry that is not zero is
present, so the lines about pages are those of the translated addresses, in ascending order.
-/

namespace Smor.Vm

open Smor.Lib Smor.Printf

/-- The format of `pml4_dump` for an entry, with the text in front of the index. -/
def entryFmt (name : List Char) : List Char := name ++ "[%03d]: %016lx -> %016lx [%02x]\n".toList

/-- The line of an entry. -/
def entryCall (name : List Char) (index entry vaddr : ℕ) : Call :=
  ⟨entryFmt name, [.int index, .int (pdirAddr entry), .int vaddr, .int (u32 (entry &&& 0x1FF))]⟩

/-- The inner loop of `pml4_dump`, over a directory. -/
def pdDump (vm : BootVm) (pml4Index pdpIndex pd : ℕ) : List Call :=
  (List.range 512).flatMap fun pdIndex =>
    let ptEntry := vm.entry pd pdIndex
    if ptEntry ≠ 0 then
      [entryCall "\t\tpd".toList pdIndex ptEntry
        ((pml4Index <<< pmlShift) + (pdpIndex <<< pdpShift) + (pdIndex <<< page2mShift))]
    else []

/-- The middle loop, over a second-level table. -/
def pdpDump (vm : BootVm) (pml4Index pdp : ℕ) : List Call :=
  (List.range 512).flatMap fun pdpIndex =>
    let pdEntry := vm.entry pdp pdpIndex
    if pdEntry ≠ 0 then
      entryCall "\tpdp".toList pdpIndex pdEntry
          ((pml4Index <<< pmlShift) + (pdpIndex <<< pdpShift)) ::
        pdDump vm pml4Index pdpIndex (pdirAddr pdEntry)
    else []

/-- `pml4_dump`. -/
def pml4Dump (vm : BootVm) (pml4 : ℕ) : List Call :=
  ⟨"pml4 %016lx\n".toList, [.int pml4]⟩ ::
    (List.range 512).flatMap fun pml4Index =>
      let pdpEntry := vm.entry pml4 pml4Index
      if pdpEntry ≠ 0 then
        entryCall "pml".toList pml4Index pdpEntry (pml4Index <<< pmlShift) ::
          pdpDump vm pml4Index (pdirAddr pdpEntry)
      else []

/-- `vm_boot_dump`. -/
def vmBootDump (vm : BootVm) : List Call := pml4Dump vm bootPml4

section Calls

variable {vm vm' : BootVm}

/-- The loop of `vm_boot_map_range` keeps the tables clean. -/
theorem Clean.mapPages {n v p : ℕ} (h : Clean vm) (hok : TablesOk vm) (hp : p % 2 ^ 21 = 0)
    (hmap : vmBootMapPages n vm v p = some vm') : Clean vm' := by
  induction n generalizing vm v p with
  | zero =>
    obtain rfl := Option.some.inj hmap
    exact h
  | succ n ih =>
    obtain ⟨vm₁, hpage, hrest⟩ := Option.bind_eq_some_iff.mp hmap
    have hnext : u64 (p + page2mSize) % 2 ^ 21 = 0 := by
      simp only [u64, page2mSize, page2mShift]
      omega
    exact ih (h.mapPage hok hp hpage) (vmBootMapPage_spec hok hpage).1 hnext hrest

/-- So does the loop of `vm_boot_unmap_range`. -/
theorem Clean.unmapPages {n v : ℕ} (h : Clean vm) (hok : TablesOk vm) :
    Clean (vmBootUnmapPages n vm v) := by
  induction n generalizing vm v with
  | zero => exact h
  | succ n ih =>
    rw [vmBootUnmapPages_succ]
    exact ih (h.unmapPage hok v) (vmBootUnmapPage_spec hok v).1

/-- The tables stay clean under any calls. -/
theorem clean_of_reaches {mem : ℕ → ℕ} {kernelEnd : ℕ} (hend : kernelEnd ≤ 2 ^ 30)
    (hrun : Reaches bootStep (fun _ _ => True) (bootTables mem kernelEnd) vm) : Clean vm := by
  have hinv := hrun.invariant (I := fun vm => TablesOk vm ∧ Clean vm)
    ⟨bootTables_ok mem hend, clean_bootTables mem hend⟩ ?_
  · exact hinv.2
  rintro vm op vm' ⟨hok, hclean⟩ - hstep
  cases op with
  | mapRange vaddr paddr size =>
    have halign : page2mBase paddr % 2 ^ 21 = 0 := by
      simp only [page2mBase, page2mSize, page2mShift]
      omega
    exact ⟨vmBootMapPages_ok hok hstep, hclean.mapPages hok halign hstep⟩
  | unmapRange vaddr size =>
    obtain rfl := Option.some.inj hstep
    exact ⟨vmBootUnmapPages_ok hok, hclean.unmapPages hok⟩

end Calls

section Listing

/-- A range of blocks of the same size. -/
theorem range_mul_flatMap {α : Type*} (f : ℕ → List α) (m n : ℕ) :
    (List.range (m * n)).flatMap f =
      (List.range m).flatMap fun i => (List.range n).flatMap fun j => f (i * n + j) := by
  induction m with
  | zero => simp
  | succ m ih =>
    rw [Nat.succ_mul, List.range_add, List.flatMap_append, ih, List.range_succ, List.flatMap_append,
      List.flatMap_singleton, List.flatMap_map]

/-- The lines of the inner loop. -/
def isPage (call : Call) : Bool := call.fmt = entryFmt "\t\tpd".toList

variable {vm : BootVm}

theorem not_isPage_pml (index entry vaddr : ℕ) :
    ¬isPage (entryCall "pml".toList index entry vaddr) = true := by
  have hfmt : entryFmt "pml".toList ≠ entryFmt "\t\tpd".toList := by decide
  exact fun h => hfmt (of_decide_eq_true h)

theorem not_isPage_pdp (index entry vaddr : ℕ) :
    ¬isPage (entryCall "\tpdp".toList index entry vaddr) = true := by
  have hfmt : entryFmt "\tpdp".toList ≠ entryFmt "\t\tpd".toList := by decide
  exact fun h => hfmt (of_decide_eq_true h)

theorem filter_pdDump (i j pd : ℕ) : (pdDump vm i j pd).filter isPage = pdDump vm i j pd := by
  rw [List.filter_eq_self]
  intro call hcall
  obtain ⟨k, -, hline⟩ := List.mem_flatMap.mp hcall
  dsimp only at hline
  split_ifs at hline
  · rw [List.mem_singleton.mp hline]
    rfl
  · cases hline

theorem filter_pdpDump (i pdp : ℕ) : (pdpDump vm i pdp).filter isPage =
    (List.range 512).flatMap fun j =>
      if vm.entry pdp j ≠ 0 then pdDump vm i j (pdirAddr (vm.entry pdp j)) else [] := by
  rw [pdpDump, List.filter_flatMap]
  congr 1
  funext j
  dsimp only
  split_ifs
  · rw [List.filter_cons_of_neg (not_isPage_pdp _ _ _), filter_pdDump]
  · rfl

theorem filter_vmBootDump : (vmBootDump vm).filter isPage = (List.range 512).flatMap fun i =>
    if vm.entry bootPml4 i ≠ 0 then
      (List.range 512).flatMap fun j =>
        if vm.entry (pdirAddr (vm.entry bootPml4 i)) j ≠ 0 then
          pdDump vm i j (pdirAddr (vm.entry (pdirAddr (vm.entry bootPml4 i)) j))
        else []
    else [] := by
  have hfirst : ¬isPage ⟨"pml4 %016lx\n".toList, [.int bootPml4]⟩ = true := by decide
  rw [vmBootDump, pml4Dump, List.filter_cons_of_neg hfirst, List.filter_flatMap]
  congr 1
  funext i
  dsimp only
  split_ifs
  · rw [List.filter_cons_of_neg (not_isPage_pml _ _ _), filter_pdpDump]
  · rfl

/-- The walk by clean tables, in terms of entries that are not zero. -/
theorem Clean.bootLookup_eq (h : Clean vm) (hok : TablesOk vm) {i j k : ℕ} (hi : i < 512)
    (hj : j < 512) (hk : k < 512) :
    bootLookup vm i j k =
      let pdp := pdirAddr (vm.entry bootPml4 i)
      let pd := pdirAddr (vm.entry pdp j)
      if vm.entry bootPml4 i ≠ 0 ∧ vm.entry pdp j ≠ 0 ∧ vm.entry pd k ≠ 0 then
        some (pdirAddr (vm.entry pd k))
      else none := by
  have hpool := hok.pool
  have hpml : bootNext vm bootPml4 i =
      if vm.entry bootPml4 i ≠ 0 then some (pdirAddr (vm.entry bootPml4 i)) else none := by
    refine h.bootNext_eq rfl le_rfl ?_ hi
    simp only [bootPageNext, bootPml4] at hpool ⊢
    omega
  dsimp only
  rw [bootLookup, bootDir, hpml]
  by_cases hpdp : vm.entry bootPml4 i ≠ 0
  · have hroot : bootNext vm bootPml4 i = some (pdirAddr (vm.entry bootPml4 i)) := by
      rw [hpml, if_pos hpdp]
    obtain ⟨ht, hlow, hhigh⟩ := hok.pdp_addr i hi _ hroot
    have hnext := h.bootNext_eq ht hlow.le hhigh hj
    rw [if_pos hpdp, Option.bind_some, hnext]
    by_cases hpd : vm.entry (pdirAddr (vm.entry bootPml4 i)) j ≠ 0
    · have hdir : bootDir vm i j =
          some (pdirAddr (vm.entry (pdirAddr (vm.entry bootPml4 i)) j)) := by
        rw [bootDir, hroot, Option.bind_some, hnext, if_pos hpd]
      obtain ⟨ht, hlow, hhigh⟩ := hok.pd_addr i hi j hj _ hdir
      rw [if_pos hpd, Option.bind_some, h.bootNext_eq ht hlow.le hhigh hk]
      simp only [hpdp, hpd, true_and, not_false_eq_true, ne_eq]
    · rw [if_neg hpd, Option.bind_none, if_neg fun hall => hpd hall.2.1]
  · rw [if_neg hpdp, Option.bind_none, Option.bind_none, if_neg fun hall => hpdp hall.1]

/-- The line of a page that is translated to `p`. -/
def pageCall (n p flags : ℕ) : Call :=
  ⟨entryFmt "\t\tpd".toList, [.int (n % 512), .int p, .int (n * page2mSize), .int flags]⟩

end Listing

/-- The 2MB pages of the low 48 bits, by their table indices. -/
theorem range_positions {α : Type*} (f : ℕ → List α) :
    (List.range (2 ^ 27)).flatMap f = (List.range 512).flatMap fun i =>
      (List.range 512).flatMap fun j => (List.range 512).flatMap fun k => f (dirPos i j k) := by
  rw [show 2 ^ 27 = 512 * 512 * 512 by decide, range_mul_flatMap, range_mul_flatMap]
  rfl

/-- In every reachable state of the boot tables, the lines of `vm_boot` about pages are one for
each 2MB page that the processor translates, in ascending order, with the physical page and
the low 48 bits of the virtual address. -/
theorem vmBootDump_lists (mem : ℕ → ℕ) {kernelEnd : ℕ} (hend : kernelEnd ≤ 2 ^ 30) {vm : BootVm}
    (hrun : Reaches bootStep (fun _ _ => True) (bootTables mem kernelEnd) vm) :
    ∃ flags : ℕ → ℕ, (vmBootDump vm).filter isPage = (List.range (2 ^ 27)).flatMap fun n =>
      ((translate vm (n * page2mSize)).map fun p => pageCall n p (flags n)).toList := by
  have hok := tablesOk_of_reaches hend hrun
  have hclean := clean_of_reaches hend hrun
  let pdp := fun n => pdirAddr (vm.entry bootPml4 (n / 2 ^ 18))
  let pd := fun n => pdirAddr (vm.entry (pdp n) (n / 512 % 512))
  refine ⟨fun n => u32 (vm.entry (pd n) (n % 512) &&& 0x1FF), ?_⟩
  rw [filter_vmBootDump, range_positions]
  refine List.flatMap_congr fun i hi => ?_
  rw [List.mem_range] at hi
  have hwalk : ∀ j < 512, ∀ k < 512, translate vm (dirPos i j k * page2mSize) =
      bootLookup vm i j k := by
    intro j hj k hk
    have hoffset : dirPos i j k * page2mSize % page2mSize = 0 := Nat.mul_mod_left _ _
    rw [translate_eq, hoffset]
    exact Option.map_id'.trans (pageAt_eq_bootLookup hi hj hk vm)
  have hline := fun j hj k hk => (hwalk j hj k hk).trans (hclean.bootLookup_eq hok hi hj hk)
  by_cases hpdp : vm.entry bootPml4 i ≠ 0
  · rw [if_pos hpdp]
    refine List.flatMap_congr fun j hj => ?_
    rw [List.mem_range] at hj
    by_cases hpd : vm.entry (pdirAddr (vm.entry bootPml4 i)) j ≠ 0
    · rw [if_pos hpd, pdDump]
      refine List.flatMap_congr fun k hk => ?_
      rw [List.mem_range] at hk
      obtain ⟨hi', hj', hk'⟩ : dirPos i j k / 2 ^ 18 = i ∧ dirPos i j k / 512 % 512 = j ∧
          dirPos i j k % 512 = k := by
        unfold dirPos
        omega
      have hvaddr : (i <<< pmlShift) + (j <<< pdpShift) + (k <<< page2mShift) =
          dirPos i j k * page2mSize := by
        simp only [pmlShift, pdpShift, page2mShift, page2mSize, dirPos, Nat.shiftLeft_eq]
        omega
      simp only [hline j hj k hk, hpdp, hpd, true_and, ne_eq, not_false_eq_true, hvaddr, pd, pdp,
        hi', hj', hk']
      split_ifs
      · rfl
      · rw [Option.map_some, Option.toList_some, entryCall, pageCall, hk']
    · rw [if_neg hpd]
      refine (List.flatMap_eq_nil_iff.mpr fun k hk => ?_).symm
      rw [hline j hj k (List.mem_range.mp hk), if_neg fun hall => hpd hall.2.1]
      rfl
  · rw [if_neg hpdp]
    refine (List.flatMap_eq_nil_iff.mpr fun j hj => List.flatMap_eq_nil_iff.mpr fun k hk => ?_).symm
    rw [hline j (List.mem_range.mp hj) k (List.mem_range.mp hk), if_neg fun hall => hpdp hall.1]
    rfl
/-- A page at 1GB is listed behind those of a 4MB kernel. -/
theorem vmBootDump_lists_1gb :
    ∃ vm, Reaches bootStep (fun _ _ => True) (bootTables (fun _ => 0) 0x400000) vm ∧
      (∃ flags : ℕ → ℕ, (vmBootDump vm).filter isPage = (List.range (2 ^ 27)).flatMap fun n =>
        ((translate vm (n * page2mSize)).map fun p => pageCall n p (flags n)).toList) ∧
      translate vm (512 * page2mSize) = some 0x600000 := by
  have hstep : (bootStep (bootTables (fun _ => 0) 0x400000)
      (.mapRange 0x40000000 0x600000 0x200000)).any (fun vm =>
        translate vm (512 * page2mSize) = some 0x600000) := by decide +kernel
  obtain ⟨vm, hvm, htranslate⟩ := (Option.any_eq_true _ _).mp hstep
  have hrun : Reaches bootStep (fun _ _ => True) (bootTables (fun _ => 0) 0x400000) vm :=
    (Reaches.refl _).tail trivial hvm
  exact ⟨vm, hrun, vmBootDump_lists _ (by decide) hrun, of_decide_eq_true htranslate⟩

end Smor.Vm
