import Smor.Lib.Fill
import Smor.Vm.Boot

/-!
# The shape of the boot page tables

The tables form a tree of three levels in which every table has one parent, except that the
directory built by `boot.S` hangs in two places. `TablesOk` states this together with where
tables can lie. Creating a table and writing a directory entry keep it, and the lemmas
say what each of them does to the walk from the root.
-/

namespace Smor.Vm

open Smor.Lib

/-- Two positions of one page directory: equal, or the two places of the directory that
`boot.S` uses both for the first gigabyte and for the gigabyte at `KERNEL_BASE`. -/
def SameDir (i j i' j' : ℕ) : Prop :=
  (i = i' ∧ j = j') ∨ (i = 0 ∧ j = 0 ∧ i' = 511 ∧ j' = 510) ∨
    (i = 511 ∧ j = 510 ∧ i' = 0 ∧ j' = 0)

/-- Where a table page can lie: page aligned, behind the PML4, and below the pool position. -/
def TableAddr (vm : BootVm) (table : ℕ) : Prop :=
  table % 0x1000 = 0 ∧ bootPml4 < table ∧ table < vm.bootPage

/-- The pool only grows. -/
theorem TableAddr.mono {vm vm' : BootVm} {table : ℕ} (h : TableAddr vm table)
    (hle : vm.bootPage ≤ vm'.bootPage) : TableAddr vm' table :=
  ⟨h.1, h.2.1, Nat.lt_of_lt_of_le h.2.2 hle⟩

/-- The tables form a tree, up to the one shared directory. -/
structure TablesOk (vm : BootVm) : Prop where
  /-- The pool is page aligned and lies behind the tables of `boot.S`. -/
  pool : vm.bootPage % 0x1000 = 0 ∧ bootPageNext ≤ vm.bootPage ∧ vm.bootPage ≤ bootPagesTop
  /-- Second-level tables lie where tables can lie. -/
  pdp_addr : ∀ i < 512, ∀ t, bootNext vm bootPml4 i = some t → TableAddr vm t
  /-- Every second-level table has one parent entry. -/
  pdp_inj : ∀ i < 512, ∀ i' < 512, ∀ t, bootNext vm bootPml4 i = some t →
    bootNext vm bootPml4 i' = some t → i = i'
  /-- Directories lie where tables can lie. -/
  pd_addr : ∀ i < 512, ∀ j < 512, ∀ d, bootDir vm i j = some d → TableAddr vm d
  /-- No directory is a second-level table. -/
  pd_ne_pdp : ∀ i < 512, ∀ j < 512, ∀ i' < 512, ∀ d, bootDir vm i j = some d →
    bootNext vm bootPml4 i' ≠ some d
  /-- Every directory has one parent entry, except the shared one. -/
  pd_inj : ∀ i < 512, ∀ j < 512, ∀ i' < 512, ∀ j' < 512, ∀ d, bootDir vm i j = some d →
    bootDir vm i' j' = some d → SameDir i j i' j'

section Entries

/-- The presence test reads the lowest bit. -/
theorem bootNext_eq (vm : BootVm) (table index : ℕ) :
    bootNext vm table index =
      if vm.entry table index % 2 = 0 then none
      else some (vm.entry table index / 512 * 512) := by
  simp only [bootNext, pagePresent, Nat.and_one_is_mod, pdirAddr, pdirNumEntries]

/-- An entry that refers to a page-aligned table. -/
theorem tableEntry_eq {page : ℕ} (h : page % 0x1000 = 0) :
    page ||| pagePresent ||| pageWrite = page + 3 := by
  obtain ⟨q, rfl⟩ : ∃ q, page = 2 ^ 12 * q := ⟨page / 0x1000, by omega⟩
  rw [Nat.or_assoc, show pagePresent ||| pageWrite = 3 by decide,
    ← Nat.two_pow_add_eq_or_of_lt (by decide)]

/-- An entry that refers to a 2MB page. -/
theorem pageEntry_eq {page : ℕ} (h : page % page2mSize = 0) :
    page ||| pagePresent ||| pageWrite ||| page2mb = page + 0x83 := by
  obtain ⟨q, rfl⟩ : ∃ q, page = 2 ^ 21 * q := ⟨page / 2 ^ 21, by
    simp only [page2mSize, page2mShift] at h
    omega⟩
  rw [Nat.or_assoc, Nat.or_assoc, show pagePresent ||| (pageWrite ||| page2mb) = 0x83 by decide,
    ← Nat.two_pow_add_eq_or_of_lt (by decide)]

/-- Writing one entry of a table changes no other entry of a table. -/
theorem entry_setEntry {vm : BootVm} {table index value t k : ℕ} (htable : table % 0x1000 = 0)
    (ht : t % 0x1000 = 0) (hindex : index < 512) (hk : k < 512) :
    (vm.setEntry table index value).entry t k =
      if t = table ∧ k = index then value else vm.entry t k := by
  simp only [BootVm.entry, BootVm.setEntry]
  by_cases h : t = table ∧ k = index
  · simp [h]
  · rw [if_neg h, Function.update_of_ne (by omega)]

/-- The pool position is not in memory. -/
theorem setEntry_bootPage (vm : BootVm) (table index value : ℕ) :
    (vm.setEntry table index value).bootPage = vm.bootPage := rfl

/-- A table taken from the pool is empty, and the other tables are as they were. -/
theorem bootPageAlloc_spec {vm vm' : BootVm} {page : ℕ} (hpool : vm.bootPage % 0x1000 = 0)
    (h : bootPageAlloc vm = some (page, vm')) :
    page = vm.bootPage ∧ page < bootPagesTop ∧ vm'.bootPage = page + 0x1000 ∧
      ∀ t k, t % 0x1000 = 0 → k < 512 →
        vm'.entry t k = if t = page then 0 else vm.entry t k := by
  simp only [bootPageAlloc] at h
  split_ifs at h with hlt
  simp only [Option.some.injEq, Prod.mk.injEq] at h
  obtain ⟨rfl, rfl⟩ := h
  refine ⟨rfl, hlt, ?_, fun t k ht hk => ?_⟩
  · simp only [bootPagesTop] at hlt
    simp only [u64, page4kSize, page4kShift]
    omega
  · simp only [BootVm.entry]
    rw [foldl_update_apply (fun _ => 0)]
    simp only [List.mem_map, List.mem_range, pdirNumEntries]
    by_cases heq : t = vm.bootPage
    · rw [if_pos heq, if_pos ⟨k, hk, by rw [heq]⟩]
    · rw [if_neg heq, if_neg]
      rintro ⟨i, hi, haddr⟩
      omega

/-- Access to an upper entry either finds a table or hangs a new, empty one below it. -/
theorem bootTableEntry_spec {vm vm' : BootVm} {table index e : ℕ}
    (hpool : vm.bootPage % 0x1000 = 0) (htable : table % 0x1000 = 0) (hindex : index < 512)
    (h : bootTableEntry vm table index = some (e, vm')) :
    (vm' = vm ∧ bootNext vm table index = some (pdirAddr e)) ∨
    (bootNext vm table index = none ∧ pdirAddr e = vm.bootPage ∧
      vm'.bootPage = vm.bootPage + 0x1000 ∧ vm.bootPage < bootPagesTop ∧
      ∀ t k, t % 0x1000 = 0 → k < 512 → bootNext vm' t k =
        if t = table ∧ k = index then some vm.bootPage
        else if t = vm.bootPage then none else bootNext vm t k) := by
  unfold bootTableEntry at h
  split_ifs at h with habsent
  · right
    obtain ⟨⟨page, vm₁⟩, halloc, hpair⟩ := Option.map_eq_some_iff.mp h
    obtain ⟨rfl, hroom, hnext, hentry⟩ := bootPageAlloc_spec hpool halloc
    simp only [Prod.mk.injEq] at hpair
    obtain ⟨rfl, rfl⟩ := hpair
    have hvalue : pdirAddr (vm.bootPage + 3) = vm.bootPage := by
      simp only [pdirAddr, pdirNumEntries]
      omega
    rw [tableEntry_eq hpool]
    refine ⟨by simp [bootNext, habsent], hvalue, hnext, hroom, fun t k ht hk => ?_⟩
    simp only [bootNext_eq, entry_setEntry htable ht hindex hk, hentry t k ht hk]
    by_cases hnew : t = table ∧ k = index
    · rw [if_pos hnew, if_pos hnew, if_neg (by omega)]
      exact congrArg some hvalue
    · rw [if_neg hnew, if_neg hnew]
      by_cases hpage : t = vm.bootPage <;> simp [hpage]
  · left
    simp only [Option.some.injEq, Prod.mk.injEq] at h
    obtain ⟨rfl, rfl⟩ := h
    exact ⟨rfl, by rw [bootNext, if_neg habsent]⟩

end Entries

section Tree

/-- The tree is determined by the entries of the two upper levels. -/
theorem TablesOk.congr {vm vm' : BootVm} (hok : TablesOk vm) (hpool : vm'.bootPage = vm.bootPage)
    (hpdp : ∀ i < 512, bootNext vm' bootPml4 i = bootNext vm bootPml4 i)
    (hpd : ∀ i < 512, ∀ j < 512, bootDir vm' i j = bootDir vm i j) : TablesOk vm' where
  pool := by
    rw [hpool]
    exact hok.pool
  pdp_addr i hi t ht := by
    rw [hpdp i hi] at ht
    simpa only [TableAddr, hpool] using hok.pdp_addr i hi t ht
  pdp_inj i hi i' hi' t ht ht' := by
    rw [hpdp i hi] at ht
    rw [hpdp i' hi'] at ht'
    exact hok.pdp_inj i hi i' hi' t ht ht'
  pd_addr i hi j hj d hd := by
    rw [hpd i hi j hj] at hd
    simpa only [TableAddr, hpool] using hok.pd_addr i hi j hj d hd
  pd_ne_pdp i hi j hj i' hi' d hd := by
    rw [hpd i hi j hj] at hd
    rw [hpdp i' hi']
    exact hok.pd_ne_pdp i hi j hj i' hi' d hd
  pd_inj i hi j hj i' hi' j' hj' d hd hd' := by
    rw [hpd i hi j hj] at hd
    rw [hpd i' hi' j' hj'] at hd'
    exact hok.pd_inj i hi j hj i' hi' j' hj' d hd hd'

/-- Hanging an empty second-level table below the root keeps the tree, the directories, and
every translation. -/
theorem TablesOk.newPdp {vm vm' : BootVm} {i e : ℕ} (hok : TablesOk vm) (hi : i < 512)
    (h : bootTableEntry vm bootPml4 i = some (e, vm')) :
    TablesOk vm' ∧ bootNext vm' bootPml4 i = some (pdirAddr e) ∧
      (∀ i' < 512, ∀ j' < 512, bootDir vm' i' j' = bootDir vm i' j') ∧
      ∀ i' < 512, ∀ j' < 512, ∀ k' < 512, bootLookup vm' i' j' k' = bootLookup vm i' j' k' := by
  obtain ⟨hpool, hlow, htop⟩ := hok.pool
  simp only [bootPageNext] at hlow
  rcases bootTableEntry_spec hpool (by decide) hi h with
    ⟨rfl, hnext⟩ | ⟨hnone, he, hpage, hroom, hnext⟩
  · exact ⟨hok, hnext, fun _ _ _ _ => rfl, fun _ _ _ _ _ _ => rfl⟩
  have hpml : ∀ i' < 512, bootNext vm' bootPml4 i' =
      if i' = i then some vm.bootPage else bootNext vm bootPml4 i' := by
    intro i' hi'
    rw [hnext bootPml4 i' (by decide) hi']
    by_cases heq : i' = i
    · simp [heq]
    · rw [if_neg (by omega), if_neg (by simp only [bootPml4]; omega), if_neg heq]
  -- an old table is neither the root nor the new page
  have hold : ∀ t, TableAddr vm t → ∀ k < 512, bootNext vm' t k = bootNext vm t k := by
    intro t ht k hk
    rw [hnext t k ht.1 hk, if_neg (by have := ht.2.1; omega), if_neg (by have := ht.2.2; omega)]
  have hdir : ∀ i' < 512, ∀ j' < 512, bootDir vm' i' j' = bootDir vm i' j' := by
    intro i' hi' j' hj'
    unfold bootDir
    rw [hpml i' hi']
    by_cases heq : i' = i
    · rw [if_pos heq, heq, hnone, Option.bind_some, Option.bind_none,
        hnext _ _ hpool hj', if_neg (by simp only [bootPml4]; omega), if_pos rfl]
    · rw [if_neg heq]
      rcases hcase : bootNext vm bootPml4 i' with _ | t
      · rfl
      · exact hold t (hok.pdp_addr i' hi' t hcase) j' hj'
  refine ⟨?_, by rw [hpml i hi, if_pos rfl, he], hdir, fun i' hi' j' hj' k' hk' => ?_⟩
  · have hgrown : vm.bootPage ≤ vm'.bootPage := by omega
    refine ⟨?_, fun i' hi' t ht => ?_, fun i₁ h₁ i₂ h₂ t ht ht' => ?_,
      fun i' hi' j' hj' d hd => ?_, fun i₁ h₁ j₁ hj₁ i₂ h₂ d hd => ?_,
      fun i₁ h₁ j₁ hj₁ i₂ h₂ j₂ hj₂ d hd hd' => ?_⟩
    · simp only [bootPageNext, bootPagesTop] at *
      omega
    · rw [hpml i' hi'] at ht
      split_ifs at ht with heq
      · simp only [Option.some.injEq] at ht
        subst ht
        exact ⟨hpool, by simp only [bootPml4]; omega, by omega⟩
      · exact (hok.pdp_addr i' hi' t ht).mono hgrown
    · rw [hpml i₁ h₁] at ht
      rw [hpml i₂ h₂] at ht'
      split_ifs at ht ht' with he₁ he₂ he₂
      · omega
      · have := (hok.pdp_addr i₂ h₂ t ht').2.2
        simp only [Option.some.injEq] at ht
        omega
      · have := (hok.pdp_addr i₁ h₁ t ht).2.2
        simp only [Option.some.injEq] at ht'
        omega
      · exact hok.pdp_inj i₁ h₁ i₂ h₂ t ht ht'
    · rw [hdir i' hi' j' hj'] at hd
      exact (hok.pd_addr i' hi' j' hj' d hd).mono hgrown
    · rw [hdir i₁ h₁ j₁ hj₁] at hd
      rw [hpml i₂ h₂]
      split_ifs
      · have := (hok.pd_addr i₁ h₁ j₁ hj₁ d hd).2.2
        simp only [ne_eq, Option.some.injEq]
        omega
      · exact hok.pd_ne_pdp i₁ h₁ j₁ hj₁ i₂ h₂ d hd
    · rw [hdir i₁ h₁ j₁ hj₁] at hd
      rw [hdir i₂ h₂ j₂ hj₂] at hd'
      exact hok.pd_inj i₁ h₁ j₁ hj₁ i₂ h₂ j₂ hj₂ d hd hd'
  · unfold bootLookup
    rw [hdir i' hi' j' hj']
    rcases hcase : bootDir vm i' j' with _ | d
    · rfl
    · exact hold d (hok.pd_addr i' hi' j' hj' d hcase) k' hk'

/-- Hanging an empty directory below a second-level table keeps the tree, the directories that
were there, and every translation. -/
theorem TablesOk.newPd {vm vm' : BootVm} {i j pdp e : ℕ} (hok : TablesOk vm) (hi : i < 512)
    (hj : j < 512) (hpdp : bootNext vm bootPml4 i = some pdp)
    (h : bootTableEntry vm pdp j = some (e, vm')) :
    TablesOk vm' ∧ bootDir vm' i j = some (pdirAddr e) ∧
      (∀ i' < 512, ∀ j' < 512, ∀ d, bootDir vm i' j' = some d → bootDir vm' i' j' = some d) ∧
      ∀ i' < 512, ∀ j' < 512, ∀ k' < 512, bootLookup vm' i' j' k' = bootLookup vm i' j' k' := by
  obtain ⟨hpool, hlow, htop⟩ := hok.pool
  have haddr := hok.pdp_addr i hi pdp hpdp
  simp only [TableAddr, bootPml4] at haddr
  simp only [bootPageNext] at hlow
  rcases bootTableEntry_spec hpool haddr.1 hj h with
    ⟨rfl, hnext⟩ | ⟨hnone, he, hpage, hroom, hnext⟩
  · exact ⟨hok, by rw [bootDir, hpdp, Option.bind_some, hnext], fun _ _ _ _ _ hd => hd,
      fun _ _ _ _ _ _ => rfl⟩
  have hpml : ∀ i' < 512, bootNext vm' bootPml4 i' = bootNext vm bootPml4 i' := by
    intro i' hi'
    rw [hnext bootPml4 i' (by decide) hi', if_neg (by simp only [bootPml4]; omega),
      if_neg (by simp only [bootPml4]; omega)]
  -- an old table other than the parent keeps its entries
  have hold : ∀ t, TableAddr vm t → t ≠ pdp → ∀ k < 512, bootNext vm' t k = bootNext vm t k := by
    intro t ht hne k hk
    rw [hnext t k ht.1 hk, if_neg (by omega), if_neg (by have := ht.2.2; omega)]
  have hdir : ∀ i' < 512, ∀ j' < 512, bootDir vm' i' j' =
      if i' = i ∧ j' = j then some vm.bootPage else bootDir vm i' j' := by
    intro i' hi' j' hj'
    unfold bootDir
    rw [hpml i' hi']
    by_cases heq : i' = i
    · subst heq
      rw [hpdp, Option.bind_some, Option.bind_some, hnext pdp j' haddr.1 hj',
        if_neg (show pdp ≠ vm.bootPage by omega)]
      simp only [true_and]
    · rw [if_neg (fun hboth => heq hboth.1)]
      rcases hcase : bootNext vm bootPml4 i' with _ | t
      · rfl
      · apply hold t (hok.pdp_addr i' hi' t hcase) _ j' hj'
        rintro rfl
        exact heq (hok.pdp_inj i' hi' i hi t hcase hpdp)
  have habsent : bootDir vm i j = none := by
    rw [bootDir, hpdp, Option.bind_some, hnone]
  have hkept : ∀ i' < 512, ∀ j' < 512, ∀ d, bootDir vm i' j' = some d →
      bootDir vm' i' j' = some d := by
    intro i' hi' j' hj' d hd
    rw [hdir i' hi' j' hj', if_neg, hd]
    rintro ⟨rfl, rfl⟩
    rw [habsent] at hd
    simp at hd
  refine ⟨?_, by rw [hdir i hi j hj, if_pos ⟨rfl, rfl⟩, he], hkept,
    fun i' hi' j' hj' k' hk' => ?_⟩
  · have hgrown : vm.bootPage ≤ vm'.bootPage := by omega
    refine ⟨?_, fun i' hi' t ht => ?_, fun i₁ h₁ i₂ h₂ t ht ht' => ?_,
      fun i' hi' j' hj' d hd => ?_, fun i₁ h₁ j₁ hj₁ i₂ h₂ d hd => ?_,
      fun i₁ h₁ j₁ hj₁ i₂ h₂ j₂ hj₂ d hd hd' => ?_⟩
    · simp only [bootPageNext, bootPagesTop] at *
      omega
    · rw [hpml i' hi'] at ht
      exact (hok.pdp_addr i' hi' t ht).mono hgrown
    · rw [hpml i₁ h₁] at ht
      rw [hpml i₂ h₂] at ht'
      exact hok.pdp_inj i₁ h₁ i₂ h₂ t ht ht'
    · rw [hdir i' hi' j' hj'] at hd
      split_ifs at hd
      · simp only [Option.some.injEq] at hd
        subst hd
        exact ⟨hpool, by simp only [bootPml4]; omega, by omega⟩
      · exact (hok.pd_addr i' hi' j' hj' d hd).mono hgrown
    · rw [hdir i₁ h₁ j₁ hj₁] at hd
      rw [hpml i₂ h₂]
      split_ifs at hd
      · intro hcon
        have := (hok.pdp_addr i₂ h₂ d hcon).2.2
        simp only [Option.some.injEq] at hd
        omega
      · exact hok.pd_ne_pdp i₁ h₁ j₁ hj₁ i₂ h₂ d hd
    · rw [hdir i₁ h₁ j₁ hj₁] at hd
      rw [hdir i₂ h₂ j₂ hj₂] at hd'
      split_ifs at hd hd' with he₁ he₂ he₂
      · exact Or.inl ⟨he₁.1.trans he₂.1.symm, he₁.2.trans he₂.2.symm⟩
      · have := (hok.pd_addr i₂ h₂ j₂ hj₂ d hd').2.2
        simp only [Option.some.injEq] at hd
        omega
      · have := (hok.pd_addr i₁ h₁ j₁ hj₁ d hd).2.2
        simp only [Option.some.injEq] at hd'
        omega
      · exact hok.pd_inj i₁ h₁ j₁ hj₁ i₂ h₂ j₂ hj₂ d hd hd'
  · unfold bootLookup
    rw [hdir i' hi' j' hj']
    by_cases hnew : i' = i ∧ j' = j
    · rw [if_pos hnew, hnew.1, hnew.2, habsent, Option.bind_some, Option.bind_none,
        hnext _ _ hpool hk', if_neg (by omega), if_pos rfl]
    · rw [if_neg hnew]
      rcases hcase : bootDir vm i' j' with _ | d
      · rfl
      · apply hold d (hok.pd_addr i' hi' j' hj' d hcase) _ k' hk'
        rintro rfl
        exact hok.pd_ne_pdp i' hi' j' hj' i hi d hcase hpdp

/-- Writing an entry of a directory keeps the tree and the directories. It is seen at the
positions of that directory only. -/
theorem TablesOk.setPage {vm : BootVm} {i j k d : ℕ} (hok : TablesOk vm) (hi : i < 512)
    (hj : j < 512) (hk : k < 512) (hd : bootDir vm i j = some d) (value : ℕ) :
    TablesOk (vm.setEntry d k value) ∧
      (∀ i' < 512, ∀ j' < 512, bootDir (vm.setEntry d k value) i' j' = bootDir vm i' j') ∧
      bootLookup (vm.setEntry d k value) i j k =
        (if value % 2 = 0 then none else some (value / 512 * 512)) ∧
      ∀ i' < 512, ∀ j' < 512, ∀ k' < 512, ¬(SameDir i j i' j' ∧ k' = k) →
        bootLookup (vm.setEntry d k value) i' j' k' = bootLookup vm i' j' k' := by
  have haddr := hok.pd_addr i hi j hj d hd
  have hentry : ∀ t k', t % 0x1000 = 0 → k' < 512 → ¬(t = d ∧ k' = k) →
      bootNext (vm.setEntry d k value) t k' = bootNext vm t k' := by
    intro t k' ht hk' hne
    rw [bootNext_eq, bootNext_eq, entry_setEntry haddr.1 ht hk hk', if_neg hne]
  have hpml : ∀ i' < 512,
      bootNext (vm.setEntry d k value) bootPml4 i' = bootNext vm bootPml4 i' := by
    intro i' hi'
    apply hentry _ _ (by decide) hi'
    have := haddr.2.1
    omega
  have hdir : ∀ i' < 512, ∀ j' < 512,
      bootDir (vm.setEntry d k value) i' j' = bootDir vm i' j' := by
    intro i' hi' j' hj'
    unfold bootDir
    rw [hpml i' hi']
    rcases hcase : bootNext vm bootPml4 i' with _ | t
    · rfl
    · apply hentry t j' (hok.pdp_addr i' hi' t hcase).1 hj'
      rintro ⟨rfl, -⟩
      exact hok.pd_ne_pdp i hi j hj i' hi' t hd hcase
  refine ⟨hok.congr rfl hpml hdir, hdir, ?_, fun i' hi' j' hj' k' hk' hne => ?_⟩
  · rw [bootLookup, hdir i hi j hj, hd, Option.bind_some, bootNext_eq]
    simp only [entry_setEntry haddr.1 haddr.1 hk hk, and_self, if_true]
  · unfold bootLookup
    rw [hdir i' hi' j' hj']
    rcases hcase : bootDir vm i' j' with _ | t
    · rfl
    · apply hentry t k' (hok.pd_addr i' hi' j' hj' t hcase).1 hk'
      rintro ⟨rfl, rfl⟩
      exact hne ⟨hok.pd_inj i hi j hj i' hi' j' hj' t hd hcase, rfl⟩

end Tree

section Initial

/-- Filling entries of one table leaves the other tables as they are. -/
theorem entry_foldl_setEntry {table t k : ℕ} (htable : table % 0x1000 = 0) (ht : t % 0x1000 = 0)
    (hk : k < 512) (hne : t ≠ table) (f : ℕ → ℕ) (indices : List ℕ)
    (hindices : ∀ i ∈ indices, i < 512) (vm : BootVm) :
    (indices.foldl (fun vm i => vm.setEntry table i (f i)) vm).entry t k = vm.entry t k := by
  induction indices generalizing vm with
  | nil => rfl
  | cons i indices ih =>
    simp only [List.mem_cons, forall_eq_or_imp] at hindices
    rw [List.foldl_cons, ih hindices.2, entry_setEntry htable ht hindices.1 hk,
      if_neg (fun h => hne h.1)]

/-- Filling a table does not move the pool position. -/
theorem foldl_setEntry_bootPage {table : ℕ} (f : ℕ → ℕ) (indices : List ℕ) (vm : BootVm) :
    (indices.foldl (fun vm i => vm.setEntry table i (f i)) vm).bootPage = vm.bootPage := by
  induction indices generalizing vm with
  | nil => rfl
  | cons i indices ih =>
    rw [List.foldl_cons, ih, setEntry_bootPage]

/-- The entries of a table that is filled from its start. -/
theorem entry_foldl_range_setEntry {table n k : ℕ} (htable : table % 0x1000 = 0) (hn : n ≤ 512)
    (hk : k < 512) (f : ℕ → ℕ) (vm : BootVm) :
    ((List.range n).foldl (fun vm i => vm.setEntry table i (f i)) vm).entry table k =
      if k < n then f k else vm.entry table k := by
  induction n with
  | zero => rfl
  | succ n ih =>
    rw [List.range_succ, List.foldl_append, List.foldl_cons, List.foldl_nil,
      entry_setEntry htable htable (by omega) hk, ih (by omega)]
    by_cases heq : k = n
    · rw [if_pos ⟨rfl, heq⟩, if_pos (by omega), heq]
    · rw [if_neg (fun h => heq h.2)]
      by_cases hlt : k < n
      · rw [if_pos hlt, if_pos (by omega)]
      · rw [if_neg hlt, if_neg (by omega)]

/-- The directory that `boot.S` fills for the 2MB pages of the image. -/
theorem entry_bootTables_pd {mem : ℕ → ℕ} {kernelEnd k : ℕ} (hend : kernelEnd ≤ 2 ^ 30)
    (hk : k < 512) :
    (bootTables mem kernelEnd).entry bootPd k =
      if k < (kernelEnd + (0x200000 - 1)) / 2 ^ 21 then 0x83 + k * 0x200000 else 0 := by
  have hnum : u32 (kernelEnd + (0x200000 - 1)) >>> 21 = (kernelEnd + (0x200000 - 1)) / 2 ^ 21 := by
    rw [Nat.shiftRight_eq_div_pow, u32, Nat.mod_eq_of_lt (by omega)]
  have hcleared : bootPml4 ≤ bootPd + 8 * k ∧ bootPd + 8 * k < bootPml4 + 0x20000 := by
    simp only [bootPml4, bootPd]
    omega
  simp only [bootTables]
  rw [entry_setEntry (by decide) (by decide) (by decide) hk,
    entry_setEntry (by decide) (by decide) (by decide) hk,
    entry_setEntry (by decide) (by decide) (by decide) hk,
    entry_setEntry (by decide) (by decide) (by decide) hk,
    entry_foldl_range_setEntry (by decide) (by rw [hnum]; omega) hk, hnum,
    if_neg (by simp [bootPd, bootPml4]), if_neg (by simp [bootPd, bootPml4]),
    if_neg (by simp [bootPd, bootPdpHi]), if_neg (by simp [bootPd, bootPdpLo])]
  by_cases hlt : k < (kernelEnd + (0x200000 - 1)) / 2 ^ 21
  · rw [if_pos hlt, if_pos hlt, u32, Nat.mod_eq_of_lt (by omega)]
  · rw [if_neg hlt, if_neg hlt]
    simp only [BootVm.entry, if_pos hcleared]

/-- The directory that `boot.S` builds maps the 2MB pages of the image in order. -/
theorem bootNext_bootTables_pd {mem : ℕ → ℕ} {kernelEnd k : ℕ} (hend : kernelEnd ≤ 2 ^ 30)
    (hk : k < 512) :
    bootNext (bootTables mem kernelEnd) bootPd k =
      if k < (kernelEnd + (0x200000 - 1)) / 2 ^ 21 then some (k * 2 ^ 21) else none := by
  rw [bootNext_eq, entry_bootTables_pd hend hk]
  by_cases hlt : k < (kernelEnd + (0x200000 - 1)) / 2 ^ 21
  · rw [if_pos hlt, if_pos hlt, if_neg (by omega), Option.some.injEq]
    omega
  · rw [if_neg hlt, if_neg hlt, if_pos (by decide)]

/-- The entries of the upper tables that `boot.S` writes. -/
theorem entry_bootTables {mem : ℕ → ℕ} {kernelEnd t k : ℕ} (hend : kernelEnd ≤ 2 ^ 30)
    (ht : t % 0x1000 = 0) (hrange : bootPml4 ≤ t ∧ t < bootPageNext) (hne : t ≠ bootPd)
    (hk : k < 512) :
    (bootTables mem kernelEnd).entry t k =
      if t = bootPml4 ∧ k = 511 then bootPdpHi + 0x003
      else if t = bootPml4 ∧ k = 0 then bootPdpLo + 0x003
      else if t = bootPdpHi ∧ k = 510 then bootPd + 0x003
      else if t = bootPdpLo ∧ k = 0 then bootPd + 0x003 else 0 := by
  have hindices : ∀ i ∈ List.range (u32 (kernelEnd + (0x200000 - 1)) >>> 21), i < 512 := by
    intro i hi
    rw [List.mem_range, Nat.shiftRight_eq_div_pow] at hi
    simp only [u32] at hi
    omega
  have hcleared : bootPml4 ≤ t + 8 * k ∧ t + 8 * k < bootPml4 + 0x20000 := by
    simp only [bootPml4, bootPageNext] at hrange ⊢
    omega
  simp only [bootTables]
  rw [entry_setEntry (by decide) ht (by decide) hk, entry_setEntry (by decide) ht (by decide) hk,
    entry_setEntry (by decide) ht (by decide) hk, entry_setEntry (by decide) ht (by decide) hk,
    entry_foldl_setEntry (by decide) ht hk hne _ _ hindices]
  simp only [BootVm.entry, if_pos hcleared]

/-- The upper tables that `boot.S` builds have four entries. -/
theorem bootNext_bootTables {mem : ℕ → ℕ} {kernelEnd t k : ℕ} (hend : kernelEnd ≤ 2 ^ 30)
    (ht : t % 0x1000 = 0) (hrange : bootPml4 ≤ t ∧ t < bootPageNext) (hne : t ≠ bootPd)
    (hk : k < 512) :
    bootNext (bootTables mem kernelEnd) t k =
      if t = bootPml4 ∧ k = 511 then some bootPdpHi
      else if t = bootPml4 ∧ k = 0 then some bootPdpLo
      else if (t = bootPdpHi ∧ k = 510) ∨ (t = bootPdpLo ∧ k = 0) then some bootPd
      else none := by
  rw [bootNext_eq]
  simp only [entry_bootTables hend ht hrange hne hk]
  by_cases h₁ : t = bootPml4 ∧ k = 511
  · simp [h₁, bootPdpHi]
  by_cases h₂ : t = bootPml4 ∧ k = 0
  · simp [h₂, bootPdpLo]
  by_cases h₃ : t = bootPdpHi ∧ k = 510
  · simp [h₃, bootPd, bootPml4, bootPdpHi]
  by_cases h₄ : t = bootPdpLo ∧ k = 0
  · simp [h₄, bootPd, bootPml4, bootPdpLo]
  · simp [h₁, h₂, h₃, h₄]

/-- The first pointer level of the initial tables. -/
theorem bootTables_pdp {mem : ℕ → ℕ} {kernelEnd i t : ℕ} (hend : kernelEnd ≤ 2 ^ 30)
    (hi : i < 512) (h : bootNext (bootTables mem kernelEnd) bootPml4 i = some t) :
    (i = 511 ∧ t = bootPdpHi) ∨ (i = 0 ∧ t = bootPdpLo) := by
  rw [bootNext_bootTables hend (by decide) (by decide) (by decide) hi] at h
  simp only [true_and] at h
  split_ifs at h with h₁ h₂ h₃
  · exact Or.inl ⟨h₁, (Option.some.inj h).symm⟩
  · exact Or.inr ⟨h₂, (Option.some.inj h).symm⟩
  · simp [bootPml4, bootPdpHi, bootPdpLo] at h₃

/-- The one directory of the initial tables is shared by two positions. -/
theorem bootTables_pd {mem : ℕ → ℕ} {kernelEnd i j d : ℕ} (hend : kernelEnd ≤ 2 ^ 30)
    (hi : i < 512) (hj : j < 512) (h : bootDir (bootTables mem kernelEnd) i j = some d) :
    d = bootPd ∧ ((i = 511 ∧ j = 510) ∨ (i = 0 ∧ j = 0)) := by
  obtain ⟨t, ht, hd⟩ := Option.bind_eq_some_iff.mp h
  rcases bootTables_pdp hend hi ht with ⟨rfl, rfl⟩ | ⟨rfl, rfl⟩
  · rw [bootNext_bootTables hend (by decide) (by decide) (by decide) hj] at hd
    simp only [bootPdpHi, bootPml4, bootPdpLo] at hd
    split_ifs at hd with h₁ h₂ h₃ <;> simp_all
  · rw [bootNext_bootTables hend (by decide) (by decide) (by decide) hj] at hd
    simp only [bootPdpHi, bootPml4, bootPdpLo] at hd
    split_ifs at hd with h₁ h₂ h₃ <;> simp_all

/-- The tables of `boot.S` form a tree. -/
theorem bootTables_ok (mem : ℕ → ℕ) {kernelEnd : ℕ} (hend : kernelEnd ≤ 2 ^ 30) :
    TablesOk (bootTables mem kernelEnd) := by
  have hpool : (bootTables mem kernelEnd).bootPage = bootPageNext := by
    simp only [bootTables]
    rw [setEntry_bootPage, setEntry_bootPage, setEntry_bootPage, setEntry_bootPage,
      foldl_setEntry_bootPage]
  refine ⟨?_, fun i hi t ht => ?_, fun i hi i' hi' t ht ht' => ?_,
    fun i hi j hj d hd => ?_, fun i hi j hj i' hi' d hd hd' => ?_,
    fun i hi j hj i' hi' j' hj' d hd hd' => ?_⟩
  · rw [hpool]
    decide
  · unfold TableAddr
    rw [hpool]
    rcases bootTables_pdp hend hi ht with ⟨-, rfl⟩ | ⟨-, rfl⟩ <;> decide
  · have h₁ := bootTables_pdp hend hi ht
    have h₂ := bootTables_pdp hend hi' ht'
    simp only [bootPdpHi, bootPdpLo] at h₁ h₂
    omega
  · unfold TableAddr
    rw [hpool, (bootTables_pd hend hi hj hd).1]
    decide
  · rw [(bootTables_pd hend hi hj hd).1] at hd'
    rcases bootTables_pdp hend hi' hd' with ⟨-, h⟩ | ⟨-, h⟩ <;>
      simp [bootPd, bootPdpHi, bootPdpLo] at h
  · have h₁ := (bootTables_pd hend hi hj hd).2
    have h₂ := (bootTables_pd hend hi' hj' hd').2
    unfold SameDir
    omega

end Initial

end Smor.Vm
