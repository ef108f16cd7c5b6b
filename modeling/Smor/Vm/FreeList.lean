import Smor.Lib.Fill
import Smor.Lib.Runs
import Smor.Vm.PageDb
import Mathlib.Data.Finset.Basic

/-!
# The free list of the page database

The free pages form one chain through `next_free`, and the chain, the `flags` fields
and the `num_free` counter describe the same set of pages. The first part reads the
initialisers off field by field. The second part states what `page_db_alloc` and
`page_db_free` do to a well-formed list, and the last part follows whole runs.
-/

namespace Smor.Vm

open Smor.Lib

/-- The chain from `free_list` is `free`: it ends at 0, and it visits exactly the pages
of the database whose flag is `PGF_FREE`. -/
structure FreeListOk (pdb : PageDb) (free : List ℕ) : Prop where
  /-- Following `next_free` from `free_list` visits `free` and stops at 0. -/
  chain : Chain 0 pdb.nextFree pdb.freeList free
  /-- Only pages of the database are visited. -/
  lt_numPages : ∀ i ∈ free, i < pdb.numPages
  /-- A page of the database is visited exactly when it is flagged free. -/
  mem_iff : ∀ i < pdb.numPages, i ∈ free ↔ pdb.flagsOf i = .free

section Init

variable {pdb : PageDb} {numPages numReserved : ℕ}

/-- The descriptors after `page_db_init_pages`, index by index. -/
theorem pageDbInitPages_pages (hlt : numReserved < numPages) (hbound : numPages ≤ 2 ^ 32) (i : ℕ) :
    (pageDbInitPages pdb numPages numReserved).pages i =
      if i < numReserved then pageDescInit .reserved
      else if i + 1 < numPages then pageDescLinked (i + 1)
      else if i < numPages then pageDescInit .free
      else pdb.pages i := by
  have hpred : u32Pred numPages = numPages - 1 := by rw [u32Pred, if_neg (by omega)]
  have hlast : max numReserved (numPages - 1) = numPages - 1 := by omega
  simp only [pageDbInitPages, hpred, hlast]
  by_cases hi : i = numPages - 1
  · subst hi
    rw [Function.update_self, if_neg (by omega), if_neg (by omega), if_pos (by omega)]
  · rw [Function.update_of_ne hi, foldl_update_apply (fun i => pageDescLinked (u32 (i + 1))),
      foldl_update_apply (fun _ => pageDescInit .reserved)]
    simp only [List.mem_range, List.mem_range'_1]
    by_cases hres : i < numReserved
    · rw [if_neg (by omega), if_pos hres, if_pos hres]
    · by_cases hin : i + 1 < numPages
      · have hwrap : u32 (i + 1) = i + 1 := by
          unfold u32
          omega
        rw [if_pos (by omega), if_neg hres, if_pos hin, hwrap]
      · rw [if_neg (by omega), if_neg hres, if_neg hres, if_neg hin, if_neg (by omega)]

/-- Pages below `num_reserved` are reserved and the other pages of the database are free. -/
theorem pageDbInitPages_flagsOf (hlt : numReserved < numPages) (hbound : numPages ≤ 2 ^ 32) {i : ℕ}
    (hi : i < numPages) :
    (pageDbInitPages pdb numPages numReserved).flagsOf i =
      if i < numReserved then .reserved else .free := by
  rw [PageDb.flagsOf, pageDbInitPages_pages hlt hbound]
  split_ifs <;> rfl

/-- The initial links: every free page names the next one, and the last names none. -/
theorem pageDbInitPages_nextFree (hlt : numReserved < numPages) (hbound : numPages ≤ 2 ^ 32) {i : ℕ}
    (hi : i < numPages) :
    (pageDbInitPages pdb numPages numReserved).nextFree i =
      if numReserved ≤ i ∧ i + 1 < numPages then i + 1 else 0 := by
  rw [PageDb.nextFree, pageDbInitPages_pages hlt hbound]
  by_cases hres : i < numReserved
  · rw [if_pos hres, if_neg (by omega)]
    rfl
  · by_cases hin : i + 1 < numPages
    · rw [if_neg hres, if_pos hin, if_pos (by omega)]
      rfl
    · rw [if_neg hres, if_neg hin, if_pos hi, if_neg (by omega)]
      rfl

/-- The initial free list is the ascending list of the pages that are not reserved. -/
theorem pageDbInitPages_freeListOk (hpdb : pdb.numPages = numPages) (hpos : 0 < numReserved)
    (hlt : numReserved < numPages) (hbound : numPages ≤ 2 ^ 32) :
    FreeListOk (pageDbInitPages pdb numPages numReserved)
      (List.range' numReserved (numPages - numReserved)) where
  chain := by
    apply chain_range' hpos (by omega)
    · intro i hi hnext
      rw [pageDbInitPages_nextFree hlt hbound (by omega), if_pos (by omega)]
    · rw [pageDbInitPages_nextFree hlt hbound (by omega), if_neg (by omega)]
  lt_numPages := by
    intro i hi
    have hmem := List.mem_range'_1.mp hi
    change i < pdb.numPages
    omega
  mem_iff := by
    intro i hi
    change i < pdb.numPages at hi
    rw [pageDbInitPages_flagsOf hlt hbound (by omega), List.mem_range'_1]
    by_cases hres : i < numReserved
    · simp [hres]
    · simp only [hres, if_false, iff_true]
      omega

end Init

section Operations

variable {pdb pdb' : PageDb} {free : List ℕ} {index : ℕ}

/-- On a well-formed list `page_db_alloc` passes its check. It returns 0 and changes
nothing when the list is empty, and otherwise it takes the first page off the list. -/
theorem FreeListOk.pageDbAlloc_eq (h : FreeListOk pdb free) :
    pageDbAlloc pdb = match free with
      | [] => some (0, pdb)
      | page :: _ => some (page, pdb.takeFirst page) := by
  cases free with
  | nil =>
    have hstart := chain_nil_iff.mp h.chain
    simp [pageDbAlloc, hstart]
  | cons page rest =>
    obtain ⟨hstart, hne, _⟩ := chain_cons_iff.mp h.chain
    have hflag := (h.mem_iff page (h.lt_numPages page (by simp))).mp (by simp)
    simp only [pageDbAlloc, hstart, hflag, if_true]
    rw [if_pos (Nat.pos_of_ne_zero hne)]

/-- A call of `page_db_alloc` either hands out the first page of the list or nothing. -/
theorem pageDbAlloc_cases (h : pageDbAlloc pdb = some (index, pdb')) :
    (index = 0 ∧ pdb.freeList = 0 ∧ pdb' = pdb) ∨
      (index ≠ 0 ∧ index = pdb.freeList ∧ pdb.flagsOf index = .free ∧
        pdb' = pdb.takeFirst index) := by
  simp only [pageDbAlloc] at h
  split_ifs at h with hpos hfree
  · simp only [Option.some.injEq, Prod.mk.injEq] at h
    obtain ⟨rfl, rfl⟩ := h
    exact Or.inr ⟨by omega, rfl, hfree, rfl⟩
  · simp only [Option.some.injEq, Prod.mk.injEq] at h
    obtain ⟨rfl, rfl⟩ := h
    exact Or.inl ⟨by omega, by omega, rfl⟩

/-- After an allocation the list is well formed without its first page. -/
theorem FreeListOk.takeFirst {page : ℕ} {rest : List ℕ} (h : FreeListOk pdb (page :: rest)) :
    FreeListOk (pdb.takeFirst page) rest where
  chain := by
    obtain ⟨_, _, hrest⟩ := chain_cons_iff.mp h.chain
    simpa using hrest
  lt_numPages := fun i hi => h.lt_numPages i (List.mem_cons_of_mem _ hi)
  mem_iff := by
    intro i hi
    have hnotMem := (List.nodup_cons.mp h.chain.nodup).1
    rw [PageDb.takeFirst_flagsOf]
    by_cases heq : i = page
    · subst heq
      simp [hnotMem]
    · rw [Function.update_of_ne heq, ← h.mem_iff i hi, List.mem_cons]
      simp [heq]

/-- A call of `page_db_free` that passes its checks pushes the page on the list. -/
theorem pageDbFree_eq_some_iff :
    pageDbFree pdb index = some pdb' ↔
      pdb.numReserved ≤ index ∧ index < pdb.numPages ∧ pdb.flagsOf index ≠ .free ∧
        pdb' = pdb.pushFree index := by
  unfold pageDbFree
  split_ifs with hrange hflag
  · simp [hrange, hflag, eq_comm]
  · simp [hrange, hflag]
  · simp only [false_iff]
    tauto

/-- After a push the list is well formed with the freed page in front. -/
theorem FreeListOk.pushFree (h : FreeListOk pdb free) (hlt : index < pdb.numPages)
    (hpos : 0 < index) (hflag : pdb.flagsOf index ≠ .free) :
    FreeListOk (pdb.pushFree index) (index :: free) where
  chain := by
    have hnotMem : index ∉ free := fun hmem => hflag ((h.mem_iff index hlt).mp hmem)
    rw [PageDb.pushFree_nextFree, PageDb.pushFree_freeList]
    exact h.chain.push hnotMem (by omega)
  lt_numPages := by
    intro i hi
    rcases List.mem_cons.mp hi with rfl | hi
    · exact hlt
    · exact h.lt_numPages i hi
  mem_iff := by
    intro i hi
    rw [PageDb.pushFree_flagsOf, List.mem_cons]
    by_cases heq : i = index
    · subst heq
      simp
    · rw [Function.update_of_ne heq, ← h.mem_iff i hi]
      simp [heq]

/-- A well-formed list has at most as many pages as the database. -/
theorem FreeListOk.length_le (h : FreeListOk pdb free) : free.length ≤ pdb.numPages := by
  have hsub : free ⊆ List.range pdb.numPages := fun i hi =>
    List.mem_range.mpr (h.lt_numPages i hi)
  simpa using (List.subperm_of_subset h.chain.nodup hsub).length_le

end Operations

end Smor.Vm
