import Smor.Kernel
import Smor.Lib.Sweep
import Smor.Vm.Reserve

/-!
# The page database after boot

`vm_page_init` sizes the database by the end of the last available region of the memory map,
and `vm_boot_sync` reserves the pages that the boot tables map. Holes in the map are not
looked at. The result states when the pages handed out afterwards are available memory:
the tables must map every page of the database that the memory map does not cover.
-/

namespace Smor.Vm

open Smor.Lib

/-- `page_db_calc_size`. -/
def pageDbCalcSize (memorySize : ℕ) : ℕ :=
  u32 (page4kRound (sizeofPageDb + sizeofPageDesc * pageDbNumPages memorySize))

/-- `vm_page_init`. The database is built in memory that holds `pdb`. -/
def vmPageInit (info : BootInfo) (vm : BootVm) (pdb : PageDb) :
    Option (BootInfo × BootVm × PageDb) :=
  let memorySize := info.mmapTop
  (kernelSlackAlloc info vm (pageDbCalcSize memorySize) 16).map fun (_, info, vm) =>
    (info, vm, pageDbInit pdb memorySize info.kernelTop)

/-- `vm_boot_sync`: three nested loops over the tables. -/
def vmBootSync (vm : BootVm) (pdb : PageDb) : Option PageDb :=
  (List.range 512).foldlM (fun pdb i =>
    let pdpEntry := vm.entry bootPml4 i
    if pdpEntry ≠ 0 then
      (List.range 512).foldlM (fun pdb j =>
        let pdEntry := vm.entry (pdirAddr pdpEntry) j
        if pdEntry ≠ 0 then
          (List.range 512).foldlM (fun pdb k =>
            let ptEntry := vm.entry (pdirAddr pdEntry) k
            if ptEntry ≠ 0 then
              pageDbReservePage pdb (u32 (pdirAddr ptEntry >>> page2mShift))
            else some pdb) pdb
        else some pdb) pdb
    else some pdb) pdb

/-- The boot tables have an entry for the 2MB page of an index. -/
def Mapped (vm : BootVm) (page : ℕ) : Prop :=
  ∃ i < 512, vm.entry bootPml4 i ≠ 0 ∧
    ∃ j < 512, vm.entry (pdirAddr (vm.entry bootPml4 i)) j ≠ 0 ∧
      ∃ k < 512, vm.entry (pdirAddr (vm.entry (pdirAddr (vm.entry bootPml4 i)) j)) k ≠ 0 ∧
        page = u32 (pdirAddr (vm.entry (pdirAddr (vm.entry (pdirAddr (vm.entry bootPml4 i)) j)) k)
          >>> page2mShift)

/-- All of the 2MB frame of a page lies in available memory. -/
def FrameAvailable (tag : MmapTag) (page : ℕ) : Prop :=
  ∀ addr, page * page2mSize ≤ addr → addr < (page + 1) * page2mSize → tag.Available addr

/-- The pages of the database that are not the kernel's. -/
def poolPages (info : BootInfo) (page : ℕ) : Prop :=
  pageDbNumReserved (slackKernelTop info (pageDbCalcSize info.mmapTop) 16) ≤ page ∧
    page < pageDbNumPages info.mmapTop

/-- The tables leave a page of the pool to the allocator, and every page they leave is
available memory. -/
def HolesMapped (tag : MmapTag) (info : BootInfo) (vm : BootVm) : Prop :=
  (∃ page, poolPages info page ∧ ¬Mapped vm page) ∧
    ∀ page, poolPages info page → ¬Mapped vm page → FrameAvailable tag page

/-- The calls after boot: allocations, and frees of pages that are handed out. -/
def AllocFreeLive (s : PageRun) : PageOp → Prop
  | .alloc => True
  | .free index => index ∈ s.out
  | .reservePage _ | .reserveRegion _ _ => False

section Sweep

variable {vm : BootVm} {numPages first spare : ℕ} {pdb pdb' : PageDb}

/-- The list head has been lost: the 16-bit count of reserved pages has wrapped around. -/
def Lost (pdb : PageDb) : Prop := pdb.freeList = 0 ∧ pdb.numReserved = 0

/-- What holds between the reservations of `vm_boot_sync`, for a database of `numPages` pages
with `first` kernel pages and a page `spare` that is never reserved. A free page
that does not follow the reserved ones is still named by the page before it. -/
structure SyncInv (numPages first spare : ℕ) (pdb : PageDb) : Prop where
  numPages_eq : pdb.numPages = numPages
  first_pos : 0 < first
  spare_lt : spare < numPages
  numReserved_le : pdb.numReserved ≤ spare
  numReserved_lt : pdb.numReserved < 2 ^ 16
  freeList_lt : pdb.freeList < numPages
  nextFree_lt : ∀ i < numPages, pdb.nextFree i < numPages
  kernel : ∀ i < first, pdb.flagsOf i = .reserved
  named : Lost pdb ∨ ∀ p < numPages, pdb.flagsOf p = .free → p ≠ pdb.numReserved →
    pdb.numReserved < p ∧ pdb.nextFree (p - 1) = p

/-- A page is done when it is reserved, or nothing can be handed out at all. -/
def Done (page : ℕ) (pdb : PageDb) : Prop :=
  Lost pdb ∨ (page < pdb.numPages → pdb.flagsOf page = .reserved)

/-- Reserving the page behind the reserved ones keeps the invariant. -/
theorem SyncInv.reserveFirst (h : SyncInv numPages first spare pdb)
    (hfree : pdb.flagsOf pdb.numReserved = .free) (hne : pdb.numReserved ≠ spare) :
    SyncInv numPages first spare (pdb.reserveFirst pdb.numReserved) := by
  have hle := h.numReserved_le
  have hlt := h.numReserved_lt
  have hspare := h.spare_lt
  have hwrap : u16 (pdb.numReserved + 1) = pdb.numReserved + 1 ∨
      u16 (pdb.numReserved + 1) = 0 := by
    unfold u16
    omega
  have hmono : u16 (pdb.numReserved + 1) ≤ pdb.numReserved + 1 := by omega
  refine ⟨h.numPages_eq, h.first_pos, hspare, ?_, ?_, ?_, fun i hi => ?_, fun i hi => ?_, ?_⟩
  · rw [PageDb.reserveFirst_numReserved]
    omega
  · rw [PageDb.reserveFirst_numReserved, u16]
    omega
  · rw [PageDb.reserveFirst_freeList]
    omega
  · rw [PageDb.reserveFirst_nextFree]
    by_cases heq : i = pdb.numReserved
    · subst heq
      rw [Function.update_self]
      omega
    · rw [Function.update_of_ne heq]
      exact h.nextFree_lt i hi
  · rw [PageDb.reserveFirst_flagsOf]
    by_cases heq : i = pdb.numReserved
    · subst heq
      rw [Function.update_self]
    · rw [Function.update_of_ne heq]
      exact h.kernel i hi
  · rcases hwrap with hwrap | hwrap
    · right
      intro p hp hpfree hpne
      rw [PageDb.reserveFirst_numReserved, hwrap] at hpne ⊢
      rw [PageDb.reserveFirst_flagsOf] at hpfree
      have hpr : p ≠ pdb.numReserved := by
        rintro rfl
        simp at hpfree
      rw [Function.update_of_ne hpr] at hpfree
      rcases h.named with hlost | hnamed
      · -- page 0 is a kernel page, so the count cannot have wrapped around before
        have hkernel := h.kernel 0 h.first_pos
        rw [hlost.2, hkernel] at hfree
        simp at hfree
      · obtain ⟨hlow, hnext⟩ := hnamed p hp hpfree hpr
        refine ⟨by omega, ?_⟩
        rw [PageDb.reserveFirst_nextFree, Function.update_of_ne (by omega), hnext]
    · left
      exact ⟨hwrap, hwrap⟩

/-- Unlinking a page from the page that names it keeps the invariant. -/
theorem SyncInv.reserveAfter {page pred : ℕ} (h : SyncInv numPages first spare pdb)
    (hpage : page < numPages) (hpred : pdb.nextFree pred = page) :
    SyncInv numPages first spare (pdb.reserveAfter pred page) := by
  refine ⟨h.numPages_eq, h.first_pos, h.spare_lt, h.numReserved_le, h.numReserved_lt,
    h.freeList_lt, fun i hi => ?_, fun i hi => ?_, ?_⟩
  · rw [PageDb.reserveAfter_nextFree]
    by_cases heq : i = pred
    · rw [heq, Function.update_self]
      exact h.nextFree_lt page hpage
    · rw [Function.update_of_ne heq]
      exact h.nextFree_lt i hi
  · rw [PageDb.reserveAfter_flagsOf]
    by_cases heq : i = page
    · rw [heq, Function.update_self]
    · rw [Function.update_of_ne heq]
      exact h.kernel i hi
  · rcases h.named with hlost | hnamed
    · exact Or.inl hlost
    · right
      intro p hp hpfree hpne
      rw [PageDb.reserveAfter_flagsOf] at hpfree
      have hpp : p ≠ page := by
        rintro rfl
        simp at hpfree
      rw [Function.update_of_ne hpp] at hpfree
      obtain ⟨hlow, hnext⟩ := hnamed p hp hpfree hpne
      refine ⟨hlow, ?_⟩
      -- the redirected page names `page`, hence not `p`
      have hne : p - 1 ≠ pred := by
        intro heq
        rw [heq, hpred] at hnext
        exact hpp hnext.symm
      rw [PageDb.reserveAfter_nextFree, Function.update_of_ne hne, hnext]

/-- The body of `vm_boot_sync` reserves its page. -/
theorem sweeps_reservePage {page : ℕ} (hne : page ≠ spare) :
    Sweeps (SyncInv numPages first spare) Done (fun pdb => pageDbReservePage pdb page)
      fun p => p = page := by
  intro pdb pdb' h hstep
  rcases pageDbReservePage_cases hstep with ⟨hnoop, rfl⟩ | ⟨hlt, hfree, hcase⟩
  · refine ⟨h, fun _ hp => hp, fun p hp => Or.inr fun hlt => ?_⟩
    subst hp
    exact hnoop.resolve_left (by omega)
  rcases hcase with ⟨rfl, rfl⟩ | ⟨hnum, pred, hpred, rfl⟩ | ⟨hnum, hnone, rfl⟩
  · have hinv := h.reserveFirst hfree hne
    refine ⟨hinv, fun p hp => ?_, fun p hp => ?_⟩
    · rcases hp with hlost | hp
      · have hkernel := h.kernel 0 h.first_pos
        rw [hlost.2, hkernel] at hfree
        simp at hfree
      · right
        intro hlt'
        rw [PageDb.reserveFirst_flagsOf]
        by_cases heq : p = pdb.numReserved
        · rw [heq, Function.update_self]
        · rw [Function.update_of_ne heq]
          exact hp hlt'
    · right
      intro _
      rw [hp, PageDb.reserveFirst_flagsOf, Function.update_self]
  · rw [h.numPages_eq] at hlt
    refine ⟨h.reserveAfter hlt hpred.2.2.1, fun p hp => ?_, fun p hp => ?_⟩
    · rcases hp with hlost | hp
      · exact Or.inl hlost
      · right
        intro hlt'
        rw [PageDb.reserveAfter_flagsOf]
        by_cases heq : p = page
        · rw [heq, Function.update_self]
        · rw [Function.update_of_ne heq]
          exact hp hlt'
    · right
      intro _
      rw [hp, PageDb.reserveAfter_flagsOf, Function.update_self]
  · refine ⟨h, fun _ hp => hp, fun p hp => ?_⟩
    rcases h.named with hlost | hnamed
    · exact Or.inl hlost
    · rw [h.numPages_eq] at hlt hnone
      obtain ⟨hlow, hnext⟩ := hnamed page hlt hfree hnum
      exact absurd hnext (hnone (page - 1) (by omega) (by omega))

/-- `vm_boot_sync` reserves every mapped page. -/
theorem sweeps_vmBootSync (hspare : ¬Mapped vm spare) :
    Sweeps (SyncInv numPages first spare) Done (vmBootSync vm) (Mapped vm) := by
  unfold vmBootSync
  refine Sweeps.mono (Sweeps.foldlM fun i hi => Sweeps.ite _ fun hpdp =>
    Sweeps.foldlM fun j hj => Sweeps.ite _ fun hpd =>
      Sweeps.foldlM fun k hk => Sweeps.ite _ fun hpt => sweeps_reservePage ?_) ?_
  · rintro rfl
    exact hspare ⟨i, List.mem_range.mp hi, hpdp, j, List.mem_range.mp hj, hpd, k,
      List.mem_range.mp hk, hpt, rfl⟩
  · rintro p ⟨i, hi, hpdp, j, hj, hpd, k, hk, hpt, hp⟩
    exact ⟨i, List.mem_range.mpr hi, hpdp, j, List.mem_range.mpr hj, hpd, k,
      List.mem_range.mpr hk, hpt, hp⟩

/-- A freshly initialised database meets the invariant. -/
theorem syncInv_pageDbInit {memorySize reservedSize : ℕ}
    (hpos : 0 < pageDbNumReserved reservedSize) (hnarrow : pageDbNumReserved reservedSize < 2 ^ 16)
    (hle : pageDbNumReserved reservedSize ≤ spare) (hspare : spare < pageDbNumPages memorySize) :
    SyncInv (pageDbNumPages memorySize) (pageDbNumReserved reservedSize) spare
      (pageDbInit pdb memorySize reservedSize) := by
  have hlt : pageDbNumReserved reservedSize < pageDbNumPages memorySize := by omega
  have hnum : (pageDbInit pdb memorySize reservedSize).numReserved =
      pageDbNumReserved reservedSize := by
    change u16 (pageDbNumReserved reservedSize) = _
    rw [u16, Nat.mod_eq_of_lt hnarrow]
  refine ⟨rfl, hpos, hspare, by rw [hnum]; exact hle, by rw [hnum]; exact hnarrow, hlt,
    fun i hi => ?_, fun i hi => ?_, Or.inr fun p hp hfree hne => ?_⟩
  · rw [pageDbInit_nextFree hlt hi]
    split_ifs <;> omega
  · rw [pageDbInit_flagsOf hlt (by omega), if_pos hi]
  · rw [hnum] at hne ⊢
    rw [pageDbInit_flagsOf hlt hp] at hfree
    split_ifs at hfree with hres
    rw [pageDbInit_nextFree hlt (by omega), if_pos (by omega)]
    omega

end Sweep

section AfterBoot

variable {good : ℕ → Prop} {s t : PageRun}

/-- What every state after boot satisfies, for a predicate `good` on pages: links stay inside
the database, and the free and the handed out pages are good. -/
structure GoodRun (good : ℕ → Prop) (s : PageRun) : Prop where
  freeList_lt : s.pdb.freeList < s.pdb.numPages
  nextFree_lt : ∀ i < s.pdb.numPages, s.pdb.nextFree i < s.pdb.numPages
  free_good : ∀ i < s.pdb.numPages, s.pdb.flagsOf i = .free → good i
  out_good : ∀ i ∈ s.out, i < s.pdb.numPages ∧ good i

/-- The next page to be handed out is good. -/
theorem GoodRun.alloc_good (h : GoodRun good s) {index : ℕ} {pdb' : PageDb}
    (halloc : pageDbAlloc s.pdb = some (index, pdb')) (hne : index ≠ 0) : good index := by
  rcases pageDbAlloc_cases halloc with ⟨hzero, -⟩ | ⟨-, hindex, hfree, -⟩
  · exact absurd hzero hne
  · exact h.free_good index (hindex ▸ h.freeList_lt) hfree

/-- Allocations and frees of live pages keep the invariant. -/
theorem GoodRun.step (h : GoodRun good s) {op : PageOp} (hguard : AllocFreeLive s op)
    (hstep : s.step op = some t) : GoodRun good t := by
  cases op with
  | alloc =>
    obtain ⟨⟨index, pdb'⟩, halloc, rfl⟩ := Option.map_eq_some_iff.mp hstep
    rcases pageDbAlloc_cases halloc with ⟨rfl, -, rfl⟩ | ⟨hne, hindex, hfree, rfl⟩
    · exact ⟨h.freeList_lt, h.nextFree_lt, h.free_good, by simpa using h.out_good⟩
    · have hlt : index < s.pdb.numPages := hindex ▸ h.freeList_lt
      refine ⟨h.nextFree_lt index hlt, ?_, fun i hi hifree => ?_, fun i hi => ?_⟩
      · simpa using h.nextFree_lt
      · rw [PageDb.takeFirst_flagsOf] at hifree
        have hneq : i ≠ index := by
          rintro rfl
          simp at hifree
        rw [Function.update_of_ne hneq] at hifree
        exact h.free_good i hi hifree
      · dsimp only at hi
        rw [if_neg hne] at hi
        rcases Finset.mem_insert.mp hi with rfl | hi
        · exact ⟨hlt, h.free_good i hlt hfree⟩
        · exact h.out_good i hi
  | free index =>
    obtain ⟨pdb', hfree, rfl⟩ := Option.map_eq_some_iff.mp hstep
    obtain ⟨-, hlt, -, rfl⟩ := pageDbFree_eq_some_iff.mp hfree
    have hgood := (h.out_good index hguard).2
    refine ⟨hlt, fun i hi => ?_, fun i hi hifree => ?_, fun i hi => ?_⟩
    · rw [PageDb.pushFree_nextFree]
      by_cases heq : i = index
      · rw [heq, Function.update_self]
        exact h.freeList_lt
      · rw [Function.update_of_ne heq]
        exact h.nextFree_lt i hi
    · by_cases heq : i = index
      · rw [heq]
        exact hgood
      · rw [PageDb.pushFree_flagsOf, Function.update_of_ne heq] at hifree
        exact h.free_good i hi hifree
    · exact h.out_good i (Finset.mem_of_mem_erase hi)
  | reservePage page => exact absurd hguard id
  | reserveRegion addr size => exact absurd hguard id

/-- With an empty list nothing is ever handed out. -/
theorem emptyRun_step {op : PageOp} (hempty : s.pdb.freeList = 0 ∧ s.out = ∅)
    (hguard : AllocFreeLive s op) (hstep : s.step op = some t) :
    t.pdb.freeList = 0 ∧ t.out = ∅ := by
  cases op with
  | alloc =>
    obtain ⟨⟨index, pdb'⟩, halloc, rfl⟩ := Option.map_eq_some_iff.mp hstep
    rcases pageDbAlloc_cases halloc with ⟨rfl, -, rfl⟩ | ⟨hne, hindex, -⟩
    · simpa using hempty
    · exact absurd (hindex.trans hempty.1) hne
  | free index =>
    simp only [AllocFreeLive, hempty.2, Finset.notMem_empty] at hguard
  | reservePage page => exact absurd hguard id
  | reserveRegion addr size => exact absurd hguard id

/-- After `vm_boot_sync` nothing is handed out, or the pages of the pool that the tables leave are
good. -/
theorem goodRun_vmBootSync {vm : BootVm} {numPages first spare : ℕ} {pdb pdb' : PageDb}
    (h : SyncInv numPages first spare pdb) (hspare : ¬Mapped vm spare)
    (hsync : vmBootSync vm pdb = some pdb')
    (hgood : ∀ i, first ≤ i → i < numPages → ¬Mapped vm i → good i) :
    pdb'.freeList = 0 ∨ GoodRun good (.start pdb') := by
  obtain ⟨hinv, -, hdone⟩ := sweeps_vmBootSync hspare pdb pdb' h hsync
  by_cases hlost : Lost pdb'
  · exact Or.inl hlost.1
  right
  refine ⟨?_, ?_, fun i hi hfree => ?_, fun i hi => by simp [PageRun.start] at hi⟩
  · rw [PageRun.start, hinv.numPages_eq]
    exact hinv.freeList_lt
  · rw [PageRun.start, hinv.numPages_eq]
    exact hinv.nextFree_lt
  · rw [PageRun.start] at hi hfree
    -- a free page is neither a kernel page nor mapped
    have hkernel : first ≤ i := by
      by_contra hlt
      rw [hinv.kernel i (by omega)] at hfree
      simp at hfree
    apply hgood i hkernel (hinv.numPages_eq ▸ hi)
    intro hmapped
    rcases hdone i hmapped with hlost' | hreserved
    · exact hlost hlost'
    · rw [hreserved hi] at hfree
      simp at hfree

/-- A kernel image in the first gigabyte leaves the count of its pages below 16 bits, also
with the database behind it. -/
theorem kernelPages_bounds {tag : MmapTag} {info₀ info : BootInfo} {kernelEnd : ℕ}
    (hend : 0 < kernelEnd ∧ kernelEnd ≤ 2 ^ 30)
    (hmap : multibootMmap tag (kernelInit info₀ kernelEnd) = some info) :
    let top := slackKernelTop info (pageDbCalcSize info.mmapTop) 16
    0 < pageDbNumReserved top ∧ pageDbNumReserved top < 2 ^ 16 := by
  intro top
  obtain ⟨-, htop, hslack⟩ := multibootMmapLoop_kernel hmap
  have hsize : pageDbCalcSize info.mmapTop < 2 ^ 32 := by
    unfold pageDbCalcSize u32
    omega
  have hbounds : 0 < top ∧ top ≤ 2 ^ 33 := by
    simp only [top, slackKernelTop, slackAllocTop, htop, hslack, kernelInit, page2mRound, alignUp,
      page2mSize, page2mShift, u64]
    generalize pageDbCalcSize info.mmapTop = size at hsize
    split_ifs <;> omega
  simp only [pageDbNumReserved, page2mNum, page2mSize, page2mShift, u32, u64,
    Nat.shiftRight_eq_div_pow]
  omega

/-- `vm_page_init` builds the database for the kernel top that its slack allocation leaves. -/
theorem vmPageInit_pdb {info info' : BootInfo} {vm vm' : BootVm} {mem pdb : PageDb}
    (h : vmPageInit info vm mem = some (info', vm', pdb)) :
    pdb = pageDbInit mem info.mmapTop
      (slackKernelTop info (pageDbCalcSize info.mmapTop) 16) := by
  obtain ⟨⟨addr, info₁, vm₁⟩, hslack, hpair⟩ := Option.map_eq_some_iff.mp h
  simp only [Prod.mk.injEq] at hpair
  rw [← hpair.2.2]
  simp only [kernelSlackAlloc] at hslack
  split_ifs at hslack
  · obtain ⟨vm₂, -, hpair₂⟩ := Option.map_eq_some_iff.mp hslack
    simp only [Prod.mk.injEq] at hpair₂
    rw [← hpair₂.2.1]
  · simp only [Option.some.injEq, Prod.mk.injEq] at hslack
    rw [← hslack.2.1]

/-- If the boot tables map every page of the database that the memory map does not cover, and
leave one page to the allocator, then every page that is handed out after boot is
available memory. -/
theorem handedOut_available {tag : MmapTag} {info₀ info info' : BootInfo} {kernelEnd : ℕ}
    {vm₀ vm₁ vm : BootVm} {mem pdb pdb' : PageDb} (hend : 0 < kernelEnd ∧ kernelEnd ≤ 2 ^ 30)
    (hmap : multibootMmap tag (kernelInit info₀ kernelEnd) = some info)
    (hinit : vmPageInit info vm₀ mem = some (info', vm₁, pdb))
    (hholes : HolesMapped tag info vm) (hsync : vmBootSync vm pdb = some pdb') {s : PageRun}
    (hrun : Reaches PageRun.step AllocFreeLive (.start pdb') s) {index : ℕ} {pdb'' : PageDb}
    (halloc : pageDbAlloc s.pdb = some (index, pdb'')) (hne : index ≠ 0) :
    FrameAvailable tag index := by
  obtain ⟨hpos, hnarrow⟩ := kernelPages_bounds hend hmap
  obtain ⟨⟨spare, ⟨hspare, hspare_lt⟩, hunmapped⟩, hcover⟩ := hholes
  have hstart : SyncInv _ _ spare (pageDbInit mem _ _) :=
    syncInv_pageDbInit hpos hnarrow hspare hspare_lt
  rw [← vmPageInit_pdb hinit] at hstart
  rcases goodRun_vmBootSync hstart hunmapped hsync
    fun i hlow hlt hmapped => hcover i ⟨hlow, hlt⟩ hmapped with hzero | hgood
  · have hempty : s.pdb.freeList = 0 ∧ s.out = ∅ :=
      hrun.invariant ⟨hzero, rfl⟩ fun _ _ _ h hguard hstep => emptyRun_step h hguard hstep
    rcases pageDbAlloc_cases halloc with ⟨hzero, -⟩ | ⟨-, hindex, -⟩
    · exact absurd hzero hne
    · exact absurd (hindex.trans hempty.1) hne
  · have hrungood : GoodRun (FrameAvailable tag) s :=
      hrun.invariant hgood fun _ _ _ h hguard hstep => h.step hguard hstep
    exact hrungood.alloc_good halloc hne

/-- A memory map of 8MB with a region of 2MB whose type is given. -/
def smallMap (type : ℕ) : MmapTag where
  size := 16 + 3 * 24
  entrySize := 24
  entryAt offset :=
    if offset = 16 then ⟨0, 0x200000, 1⟩
    else if offset = 40 then ⟨0x200000, 0x200000, type⟩ else ⟨0x400000, 0x400000, 1⟩

/-- The boot information of a 1MB kernel that has read this map. -/
def smallInfo (flags : ℕ) : BootInfo where
  kernelEnd := 0x100000
  kernelTop := 0x200000
  kernelSlack := 0x100000
  mmap := [⟨0, 0x200000, 1⟩, ⟨0x200000, 0x200000, flags⟩, ⟨0x400000, 0x400000, 1⟩]
  mmapTop := 0x800000

/-- The page that the first allocation after boot hands out, with the tables of `boot.S`. -/
def firstPage (info : BootInfo) : Option ℕ :=
  (vmPageInit info (bootTables (fun _ => 0) 0x100000) .blank).bind fun (_, vm, pdb) =>
    (vmBootSync vm pdb).bind fun pdb => (pageDbAlloc pdb).map Prod.fst

/-- A hole behind the kernel is handed out. -/
theorem hole_handedOut :
    multibootMmap (smallMap 2) (kernelInit (smallInfo 0) 0x100000) = some (smallInfo 0) ∧
    firstPage (smallInfo 0) = some 1 ∧ ¬FrameAvailable (smallMap 2) 1 := by
  refine ⟨by decide +kernel, by decide +kernel, fun havailable => ?_⟩
  obtain ⟨e, ⟨n, hn, rfl⟩, htype, hlow, hhigh⟩ :=
    havailable 0x200000 (by decide +kernel) (by decide +kernel)
  simp only [smallMap, mmapEntriesOffset] at hn
  have hcases : n = 0 ∨ n = 1 ∨ n = 2 := by omega
  rcases hcases with rfl | rfl | rfl <;>
    simp [smallMap, mmapEntriesOffset, multibootMemoryAvailable] at htype hlow hhigh

/-- Without the hole the same machine hands out available memory. -/
theorem handedOut_available_8mb : FrameAvailable (smallMap 1) 1 := by
  have hfirst : firstPage (smallInfo 1) = some 1 := by decide +kernel
  obtain ⟨⟨info', vm, pdb⟩, hinit, hrest⟩ := Option.bind_eq_some_iff.mp hfirst
  obtain ⟨pdb', hsync, hpage⟩ := Option.bind_eq_some_iff.mp hrest
  obtain ⟨⟨index, pdb''⟩, halloc, hindex⟩ := Option.map_eq_some_iff.mp hpage
  obtain rfl : index = 1 := hindex
  -- the database fits into the slack, so the tables are still those of `boot.S`
  have hvm : vm = bootTables (fun _ => 0) 0x100000 := by
    simp only [vmPageInit, kernelSlackAlloc] at hinit
    rw [if_neg (by decide +kernel)] at hinit
    simp only [Option.map_some, Option.some.injEq, Prod.mk.injEq] at hinit
    exact hinit.2.1.symm
  have hunmapped : ¬Mapped vm 1 := by
    rw [hvm]
    unfold Mapped
    decide +kernel
  have hpool : poolPages (smallInfo 1) 1 := by
    unfold poolPages
    decide +kernel
  have hcover : ∀ page, poolPages (smallInfo 1) page → FrameAvailable (smallMap 1) page := by
    rintro page ⟨-, hlt⟩ addr - haddr
    rw [show pageDbNumPages (smallInfo 1).mmapTop = 4 by decide +kernel] at hlt
    have hbound : addr < 0x800000 := by
      simp only [page2mSize, page2mShift] at haddr
      omega
    by_cases h₁ : addr < 0x200000
    · exact ⟨⟨0, 0x200000, 1⟩, ⟨0, by decide, rfl⟩, rfl, by simp, by simpa using h₁⟩
    by_cases h₂ : addr < 0x400000
    · exact ⟨⟨0x200000, 0x200000, 1⟩, ⟨1, by decide, rfl⟩, rfl, by simpa using h₁,
        by simpa using h₂⟩
    · exact ⟨⟨0x400000, 0x400000, 1⟩, ⟨2, by decide, rfl⟩, rfl, by simpa using h₂,
        by simpa using hbound⟩
  have hmap : multibootMmap (smallMap 1) (kernelInit (smallInfo 1) 0x100000) =
      some (smallInfo 1) := by decide +kernel
  exact handedOut_available (by decide) hmap hinit
    ⟨⟨1, hpool, hunmapped⟩, fun page hpage _ => hcover page hpage⟩ hsync (Reaches.refl _) halloc
    (by decide)

end AfterBoot

end Smor.Vm
