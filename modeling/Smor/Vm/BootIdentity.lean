import Smor.Vm.Slack

/-!
# Identity mappings in the boot tables

Until the page database exists, the boot tables are changed by identity mappings of
low addresses and by the slack memory of the kernel, which lies in the gigabyte that shares its
directory with the first one. Every directory entry then maps the page of its own
position. The entries of all tables are 0 or present, so that the tests for 0
in `vm_boot_sync` are tests for presence.
-/

namespace Smor.Vm

open Smor.Lib

/-- The number of the 2MB page at the table indices `i`, `j`, and `k`. -/
def dirPos (i j k : ℕ) : ℕ := (i * 512 + j) * 512 + k

/-- The address that identity mappings put into the entry at these indices: its own, or that of
the same entry of the shared directory. -/
def IdentityAt (i j k a : ℕ) : Prop :=
  (i < 256 ∧ a = dirPos i j k * 2 ^ 21) ∨ (i = 511 ∧ j = 510 ∧ a = k * 2 ^ 21)

/-- Every entry of the table pages is 0 or present. -/
def Clean (vm : BootVm) : Prop :=
  ∀ t k, t % 0x1000 = 0 → bootPml4 ≤ t → t < vm.bootPage → k < 512 →
    vm.entry t k = 0 ∨ vm.entry t k % 2 = 1

/-- The tables hold identity mappings only. -/
structure IdentityOk (vm : BootVm) : Prop where
  tables : TablesOk vm
  clean : Clean vm
  /-- The directory of `boot.S` is still in both of its places. -/
  shared : bootDir vm 0 0 = some bootPd ∧ bootDir vm 511 510 = some bootPd
  identity : ∀ i < 512, ∀ j < 512, ∀ k < 512, ∀ a, bootLookup vm i j k = some a →
    IdentityAt i j k a

/-- A page of an identity mapping, or of the kernel's memory in the first gigabyte. -/
def IdentityPage (v p : ℕ) : Prop :=
  p % 2 ^ 21 = 0 ∧ ((v = p ∧ p < 2 ^ 47) ∨ (v = kernelBase + p ∧ p < 2 ^ 30))

section CleanEntries

variable {vm vm' : BootVm}

/-- Writing 0 or a present entry keeps the tables clean. -/
theorem Clean.setEntry (h : Clean vm) {table index value : ℕ} (htable : table % 0x1000 = 0)
    (hindex : index < 512) (hvalue : value = 0 ∨ value % 2 = 1) :
    Clean (vm.setEntry table index value) := by
  intro t k ht hlow hhigh hk
  rw [entry_setEntry htable ht hindex hk]
  by_cases heq : t = table ∧ k = index
  · rw [if_pos heq]
    exact hvalue
  · rw [if_neg heq]
    exact h t k ht hlow hhigh hk

/-- A new table is empty. -/
theorem Clean.pageAlloc (h : Clean vm) (hpool : vm.bootPage % 0x1000 = 0) {page : ℕ}
    (halloc : bootPageAlloc vm = some (page, vm')) : Clean vm' := by
  obtain ⟨rfl, -, hnext, hentry⟩ := bootPageAlloc_spec hpool halloc
  intro t k ht hlow hhigh hk
  rw [hentry t k ht hk]
  by_cases heq : t = vm.bootPage
  · rw [if_pos heq]
    exact Or.inl rfl
  · rw [if_neg heq]
    exact h t k ht hlow (by omega) hk

/-- Access to an upper entry keeps the tables clean. -/
theorem Clean.tableEntry (h : Clean vm) (hpool : vm.bootPage % 0x1000 = 0) {table index e : ℕ}
    (htable : table % 0x1000 = 0) (hindex : index < 512)
    (hentry : bootTableEntry vm table index = some (e, vm')) : Clean vm' := by
  unfold bootTableEntry at hentry
  split_ifs at hentry
  · obtain ⟨⟨page, vm₁⟩, halloc, hpair⟩ := Option.map_eq_some_iff.mp hentry
    have hpage := (bootPageAlloc_spec hpool halloc).1
    simp only [Prod.mk.injEq] at hpair
    obtain ⟨-, rfl⟩ := hpair
    apply (h.pageAlloc hpool halloc).setEntry htable hindex
    rw [tableEntry_eq (by rw [hpage]; exact hpool)]
    omega
  · simp only [Option.some.injEq, Prod.mk.injEq] at hentry
    obtain ⟨-, rfl⟩ := hentry
    exact h

/-- Mapping an aligned page keeps the tables clean. -/
theorem Clean.mapPage (h : Clean vm) (hok : TablesOk vm) {v p : ℕ} (hp : p % 2 ^ 21 = 0)
    (hmap : vmBootMapPage vm v p = some vm') : Clean vm' := by
  obtain ⟨⟨e₁, vm₁⟩, h₁, hrest⟩ := Option.bind_eq_some_iff.mp hmap
  obtain ⟨⟨e₂, vm₂⟩, h₂, hfinal⟩ := Option.map_eq_some_iff.mp hrest
  obtain ⟨hok₁, hpdp, -⟩ := hok.newPdp (pmlIndex_lt v) h₁
  obtain ⟨hok₂, hpd, -⟩ := hok₁.newPd (pmlIndex_lt v) (pdpIndex_lt v) hpdp h₂
  have hclean₁ := h.tableEntry hok.pool.1 (by decide) (pmlIndex_lt v) h₁
  have hclean₂ := hclean₁.tableEntry hok₁.pool.1 (hok₁.pdp_addr _ (pmlIndex_lt v) _ hpdp).1
    (pdpIndex_lt v) h₂
  dsimp only at hfinal
  split_ifs at hfinal
  · subst hfinal
    apply hclean₂.setEntry (hok₂.pd_addr _ (pmlIndex_lt v) _ (pdpIndex_lt v) _ hpd).1
      (page2mIndex_lt v)
    rw [pageEntry_eq (by simpa only [page2mSize, page2mShift] using hp)]
    omega
  · subst hfinal
    exact hclean₂

/-- Unmapping a page keeps the tables clean. -/
theorem Clean.unmapPage (h : Clean vm) (hok : TablesOk vm) (v : ℕ) :
    Clean (vmBootUnmapPage vm v) := by
  dsimp only [vmBootUnmapPage]
  split_ifs with hpdp hpd
  · have hdir : bootDir vm (pmlIndex v) (pdpIndex v) =
        some (pdirAddr (vm.entry (pdirAddr (vm.entry bootPml4 (pmlIndex v))) (pdpIndex v))) := by
      rw [bootDir, bootNext, if_neg hpdp, Option.bind_some, bootNext, if_neg hpd]
    exact h.setEntry (hok.pd_addr _ (pmlIndex_lt v) _ (pdpIndex_lt v) _ hdir).1 (page2mIndex_lt v)
      (Or.inl rfl)
  · exact h
  · exact h

/-- In clean tables an entry that is not 0 is present. -/
theorem Clean.bootNext_eq (h : Clean vm) {t k : ℕ} (ht : t % 0x1000 = 0) (hlow : bootPml4 ≤ t)
    (hhigh : t < vm.bootPage) (hk : k < 512) :
    bootNext vm t k = if vm.entry t k ≠ 0 then some (pdirAddr (vm.entry t k)) else none := by
  rw [bootNext, pagePresent, Nat.and_one_is_mod]
  rcases h t k ht hlow hhigh hk with hzero | hodd
  · rw [if_pos (by omega), if_neg (by omega)]
  · rw [if_neg (by omega), if_pos (by omega)]

/-- The tables of `boot.S` are clean. -/
theorem clean_bootTables (mem : ℕ → ℕ) {kernelEnd : ℕ} (hend : kernelEnd ≤ 2 ^ 30) :
    Clean (bootTables mem kernelEnd) := by
  intro t k ht hlow hhigh hk
  have hpool : (bootTables mem kernelEnd).bootPage = bootPageNext := by
    simp only [bootTables]
    rw [setEntry_bootPage, setEntry_bootPage, setEntry_bootPage, setEntry_bootPage,
      foldl_setEntry_bootPage]
  rw [hpool] at hhigh
  by_cases hpd : t = bootPd
  · rw [hpd, entry_bootTables_pd hend hk]
    split_ifs <;> omega
  · rw [entry_bootTables hend ht ⟨hlow, hhigh⟩ hpd hk]
    split_ifs <;> decide

end CleanEntries

section Positions

variable {vm vm' : BootVm}

/-- Every position is that of an address. -/
theorem pageAt_dirPos {i j k : ℕ} (hi : i < 512) (hj : j < 512) (hk : k < 512) :
    pmlIndex (dirPos i j k * 2 ^ 21) = i ∧ pdpIndex (dirPos i j k * 2 ^ 21) = j ∧
      page2mIndex (dirPos i j k * 2 ^ 21) = k := by
  rw [pmlIndex_eq, pdpIndex_eq, page2mIndex_eq]
  unfold dirPos
  omega

theorem pageAt_eq_bootLookup {i j k : ℕ} (hi : i < 512) (hj : j < 512) (hk : k < 512)
    (vm : BootVm) : pageAt vm (dirPos i j k * 2 ^ 21) = bootLookup vm i j k := by
  obtain ⟨hpml, hpdp, hpage⟩ := pageAt_dirPos hi hj hk
  rw [pageAt, hpml, hpdp, hpage]

/-- Two addresses of one directory entry have one page. -/
theorem IdentityOk.pageAt_eq (hshared : bootDir vm 0 0 = some bootPd ∧
    bootDir vm 511 510 = some bootPd) {v w : ℕ} (h : SharesEntry v w) :
    pageAt vm w = pageAt vm v := by
  obtain ⟨hdir, hpage⟩ := h
  unfold pageAt bootLookup
  rw [hpage]
  rcases hdir with ⟨hi, hj⟩ | ⟨hi, hj, hi', hj'⟩ | ⟨hi, hj, hi', hj'⟩
  · rw [hi, hj]
  · rw [hi, hj, hi', hj', hshared.1, hshared.2]
  · rw [hi, hj, hi', hj', hshared.1, hshared.2]

/-- What identity mappings put at the positions of an entry. -/
theorem IdentityPage.identityAt {v p i j k : ℕ} (h : IdentityPage v p) (hi : i < 512)
    (hj : j < 512) (hk : k < 512) (hshares : SharesEntry v (dirPos i j k * 2 ^ 21)) :
    IdentityAt i j k p := by
  obtain ⟨hdir, hpage⟩ := hshares
  obtain ⟨h₁, h₂, h₃⟩ := pageAt_dirPos hi hj hk
  rw [h₁, h₂] at hdir
  rw [h₃] at hpage
  obtain ⟨halign, hcase⟩ := h
  simp only [SameDir, pmlIndex_eq, pdpIndex_eq, page2mIndex_eq] at hdir hpage
  unfold IdentityAt dirPos
  rcases hcase with ⟨rfl, hlt⟩ | ⟨rfl, hlt⟩
  · omega
  · unfold kernelBase at hdir hpage
    omega

/-- Mapping a page of an identity mapping keeps the tables identical. -/
theorem IdentityOk.mapPage (h : IdentityOk vm) {v p : ℕ} (hpage : IdentityPage v p)
    (hmap : vmBootMapPage vm v p = some vm') : IdentityOk vm' := by
  obtain ⟨hok, hnew, hframe, hkept⟩ := vmBootMapPage_spec h.tables hmap
  have hshared : bootDir vm' 0 0 = some bootPd ∧ bootDir vm' 511 510 = some bootPd :=
    ⟨hkept 0 (by decide) 0 (by decide) _ h.shared.1,
      hkept 511 (by decide) 510 (by decide) _ h.shared.2⟩
  have halign : p % page2mSize = 0 := by simpa only [page2mSize, page2mShift] using hpage.1
  refine ⟨hok, h.clean.mapPage h.tables hpage.1 hmap, hshared, fun i hi j hj k hk a ha => ?_⟩
  have hlookup := pageAt_eq_bootLookup hi hj hk
  by_cases hshares : SharesEntry v (dirPos i j k * 2 ^ 21)
  · rw [← hlookup, IdentityOk.pageAt_eq hshared hshares, hnew halign, Option.some.injEq] at ha
    rw [← ha]
    exact hpage.identityAt hi hj hk hshares
  · rw [← hlookup, hframe _ hshares, hlookup] at ha
    exact h.identity i hi j hj k hk a ha

/-- Unmapping a page keeps the tables identical. -/
theorem IdentityOk.unmapPage (h : IdentityOk vm) (v : ℕ) : IdentityOk (vmBootUnmapPage vm v) := by
  obtain ⟨hok, hnew, hframe, hkept⟩ := vmBootUnmapPage_spec h.tables v
  have hshared : bootDir (vmBootUnmapPage vm v) 0 0 = some bootPd ∧
      bootDir (vmBootUnmapPage vm v) 511 510 = some bootPd := by
    rw [hkept 0 (by decide) 0 (by decide), hkept 511 (by decide) 510 (by decide)]
    exact h.shared
  refine ⟨hok, h.clean.unmapPage h.tables v, hshared, fun i hi j hj k hk a ha => ?_⟩
  have hlookup := pageAt_eq_bootLookup hi hj hk
  by_cases hshares : SharesEntry v (dirPos i j k * 2 ^ 21)
  · rw [← hlookup, IdentityOk.pageAt_eq hshared hshares, hnew] at ha
    simp at ha
  · rw [← hlookup, hframe _ hshares, hlookup] at ha
    exact h.identity i hi j hj k hk a ha

/-- The loop of `vm_boot_map_range` over pages of an identity mapping. -/
theorem IdentityOk.mapPages {n v p : ℕ} (h : IdentityOk vm)
    (hv : v + n * page2mSize ≤ 2 ^ 64) (hp : p + n * page2mSize ≤ 2 ^ 64)
    (hpages : ∀ m < n, IdentityPage (v + m * page2mSize) (p + m * page2mSize))
    (hmap : vmBootMapPages n vm v p = some vm') : IdentityOk vm' := by
  induction n generalizing vm v p with
  | zero =>
    rw [vmBootMapPages, Option.some.injEq] at hmap
    exact hmap ▸ h
  | succ n ih =>
    rw [vmBootMapPages] at hmap
    obtain ⟨vm₁, h₁, hrest⟩ := Option.bind_eq_some_iff.mp hmap
    have hfirst := hpages 0 (by omega)
    rw [Nat.zero_mul, Nat.add_zero, Nat.add_zero] at hfirst
    have hok₁ := h.mapPage hfirst h₁
    rcases Nat.eq_zero_or_pos n with rfl | hn
    · rw [vmBootMapPages, Option.some.injEq] at hrest
      exact hrest ▸ hok₁
    · rw [u64_page_step hv hn, u64_page_step hp hn] at hrest
      rw [rangePage_succ] at hv hp
      apply ih hok₁ hv hp _ hrest
      intro m hm
      have := hpages (m + 1) (by omega)
      rwa [rangePage_succ, rangePage_succ] at this

/-- The loop of `vm_boot_unmap_range`. -/
theorem IdentityOk.unmapPages {n v : ℕ} (h : IdentityOk vm) :
    IdentityOk (vmBootUnmapPages n vm v) := by
  induction n generalizing vm v with
  | zero => exact h
  | succ n ih =>
    rw [vmBootUnmapPages_succ]
    exact ih (h.unmapPage v)

/-- The tables of `boot.S` hold identity mappings. -/
theorem identityOk_bootTables (mem : ℕ → ℕ) {kernelEnd : ℕ} (hend : kernelEnd ≤ 2 ^ 30) :
    IdentityOk (bootTables mem kernelEnd) := by
  refine ⟨bootTables_ok mem hend, clean_bootTables mem hend, ⟨?_, ?_⟩,
    fun i hi j hj k hk a ha => ?_⟩
  · rw [bootDir, bootNext_bootTables hend (by decide) (by decide) (by decide) (by decide),
      if_neg (by decide), if_pos (by decide), Option.bind_some,
      bootNext_bootTables hend (by decide) (by decide) (by decide) (by decide),
      if_neg (by decide), if_neg (by decide), if_pos (by decide)]
  · rw [bootDir, bootNext_bootTables hend (by decide) (by decide) (by decide) (by decide),
      if_pos (by decide), Option.bind_some,
      bootNext_bootTables hend (by decide) (by decide) (by decide) (by decide),
      if_neg (by decide), if_neg (by decide), if_pos (by decide)]
  · obtain ⟨d, hd, hnext⟩ := Option.bind_eq_some_iff.mp ha
    obtain ⟨rfl, hcase⟩ := bootTables_pd hend hi hj hd
    rw [bootNext_bootTables_pd hend hk] at hnext
    split_ifs at hnext
    rw [Option.some.injEq] at hnext
    unfold IdentityAt dirPos
    omega

end Positions

section Calls

/-- The calls that change the tables before the page database exists. -/
inductive IdentityOp where
  | mapRange (addr size : ℕ)
  | unmapRange (addr size : ℕ)
  | slackAlloc (size align : ℕ)

/-- The boot information and the boot tables. -/
structure BootState where
  info : BootInfo
  vm : BootVm

/-- The effect of a call; `none` if the pool of boot pages is exhausted. -/
def BootState.step (s : BootState) : IdentityOp → Option BootState
  | .mapRange addr size => (vmBootMapRange s.vm addr addr size).map fun vm => { s with vm := vm }
  | .unmapRange addr size => some { s with vm := vmBootUnmapRange s.vm addr size }
  | .slackAlloc size align =>
    (kernelSlackAlloc s.info s.vm size align).map fun (_, info, vm) => ⟨info, vm⟩

/-- Ranges end below 2^47, and `kernel_top` stays in the first gigabyte. -/
def IdentityCall (s : BootState) : IdentityOp → Prop
  | .mapRange addr size | .unmapRange addr size => addr + size < 2 ^ 47
  | .slackAlloc size align => s.info.kernelTop < slackAllocTop s.info size align →
      s.info.kernelTop + page2mRound (slackAllocTop s.info size align - s.info.kernelTop) ≤ 2 ^ 30

instance (s : BootState) (op : IdentityOp) : Decidable (IdentityCall s op) :=
  match op with
  | .mapRange _ _ | .unmapRange _ _ => inferInstanceAs (Decidable (_ < _))
  | .slackAlloc _ _ => inferInstanceAs (Decidable (_ → _))

/-- The tables hold identity mappings, and `kernel_top` is a page boundary in the first
gigabyte. -/
structure BootStateOk (s : BootState) : Prop where
  identity : IdentityOk s.vm
  top_aligned : s.info.kernelTop % 2 ^ 21 = 0
  top_le : s.info.kernelTop ≤ 2 ^ 30

/-- `PAGE_2M_ROUND` yields a multiple of the page size. -/
theorem page2mRound_mod (x : ℕ) : page2mRound x % 2 ^ 21 = 0 := by
  simp only [page2mRound, page2mSize, page2mShift]
  exact Nat.mul_mod_left _ _

/-- A call keeps the invariant. -/
theorem BootStateOk.step {s t : BootState} (h : BootStateOk s) {op : IdentityOp}
    (hguard : IdentityCall s op) (hstep : s.step op = some t) : BootStateOk t := by
  cases op with
  | mapRange addr size =>
    obtain ⟨vm, hmap, rfl⟩ := Option.map_eq_some_iff.mp hstep
    have haddr : addr + size < 2 ^ 47 := hguard
    have hrange : CanonicalRange addr size := Or.inl (by omega)
    refine ⟨?_, h.top_aligned, h.top_le⟩
    have hle := hrange.pages_le addr (by omega) rfl
    apply h.identity.mapPages hle hle _ hmap
    intro m hm
    have hin : InRounded addr size (page2mBase addr + m * page2mSize) :=
      (inRounded_iff hrange).mpr ⟨m, hm, rfl⟩
    simp only [InRounded, page2mBase, page2mSize, page2mShift] at hin ⊢
    unfold IdentityPage
    omega
  | unmapRange addr size =>
    obtain rfl := Option.some.inj hstep
    exact ⟨h.identity.unmapPages, h.top_aligned, h.top_le⟩
  | slackAlloc size align =>
    obtain ⟨⟨vaddr, info', vm'⟩, halloc, rfl⟩ := Option.map_eq_some_iff.mp hstep
    obtain ⟨rfl, hcase⟩ := kernelSlackAlloc_cases halloc
    have haligned := h.top_aligned
    have htop := h.top_le
    rcases hcase with ⟨hgrow, hmap⟩ | ⟨hfits, rfl⟩
    · have hround := page2mRound_mod (slackAllocTop s.info size align - s.info.kernelTop)
      have hroom : s.info.kernelTop +
          page2mRound (slackAllocTop s.info size align - s.info.kernelTop) ≤ 2 ^ 30 :=
        hguard hgrow
      have hnew : slackKernelTop s.info size align = s.info.kernelTop +
          page2mRound (slackAllocTop s.info size align - s.info.kernelTop) := by
        rw [slackKernelTop, if_pos hgrow, u64, Nat.mod_eq_of_lt (by omega)]
      refine ⟨?_, by dsimp only; omega, by dsimp only; omega⟩
      generalize page2mRound (slackAllocTop s.info size align - s.info.kernelTop) = grown at *
      generalize s.info.kernelTop = top at *
      have hbase : kernelBase = 0xFFFFFFFF80000000 := rfl
      rw [kernelVaddr_eq (by omega)] at hmap
      have hrange : CanonicalRange (kernelBase + top) grown := by
        unfold CanonicalRange
        omega
      have hmod : (kernelBase + top) % page2mSize = top % page2mSize := by
        simp only [page2mSize, page2mShift]
        omega
      apply h.identity.mapPages (hrange.pages_le (kernelBase + top) (by omega) rfl)
        (hrange.pages_le top (by omega) hmod) _ hmap
      intro m hm
      have hin : InRounded (kernelBase + top) grown
          (page2mBase (kernelBase + top) + m * page2mSize) :=
        (inRounded_iff hrange).mpr ⟨m, hm, rfl⟩
      simp only [InRounded, page2mBase, page2mSize, page2mShift] at hin ⊢
      unfold IdentityPage
      omega
    · have hsame : slackKernelTop s.info size align = s.info.kernelTop := by
        rw [slackKernelTop, if_neg (by omega)]
      exact ⟨h.identity, by dsimp only; omega, by dsimp only; omega⟩

/-- Every state that these calls reach from `kernel_init` on the tables of `boot.S`. -/
theorem bootStateOk_of_reaches {info : BootInfo} {mem : ℕ → ℕ} {kernelEnd : ℕ} {s : BootState}
    (hend : kernelEnd ≤ 2 ^ 30)
    (hrun : Reaches BootState.step IdentityCall
      ⟨kernelInit info kernelEnd, bootTables mem kernelEnd⟩ s) : BootStateOk s := by
  apply hrun.invariant
  · have htop : (kernelInit info kernelEnd).kernelTop = page2mRound kernelEnd := rfl
    have hround := page2mRound_eq (show kernelEnd ≤ 2 ^ 31 by omega)
    refine ⟨identityOk_bootTables mem hend, ?_, ?_⟩
    · dsimp only
      omega
    · dsimp only
      omega
  · intro s op t hs hguard hstep
    exact hs.step hguard hstep

end Calls

end Smor.Vm
