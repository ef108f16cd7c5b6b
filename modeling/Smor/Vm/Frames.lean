import Smor.Lib.Aligned
import Smor.Vm.PageAddr

/-!
# The frames of the page databases

The frame of a page is the memory from its address on, as large as the pages of the database. The
4K frames of a database lie in its big page, behind the database itself, whose size decides how
many pages are reserved. This file is about databases in any state that calls lead to; what it
needs of them is what `FrameDb` says.
-/

namespace Smor.Vm

open Smor.Lib

/-- `pdb->pages` for a database at the address `db`. -/
def pageDbPages (db : ℕ) : ℕ := u64 (db + sizeofPageDb)

/-- `page_db_desc`. -/
def pageDbDesc (db index : ℕ) : ℕ := u64 (pageDbPages db + sizeofPageDesc * index)

/-- `page_db_index`. The pointers are subtracted in 64 bits. -/
def pageDbIndex (db page : ℕ) : ℕ :=
  u32 (u64 (page + (2 ^ 64 - pageDbPages db)) / sizeofPageDesc)

/-- `page_db_desc2addr`. -/
def pageDbDesc2addr (pdb : PageDb) (db page : ℕ) : ℕ :=
  pageDbIndex2addr pdb (pageDbIndex db page)

/-- The memory of a page. -/
def pageFrame (pdb : PageDb) (index : ℕ) : Set ℕ :=
  Set.Ico (pageDbIndex2addr pdb index) (pageDbIndex2addr pdb index + pdb.pageSize)

/-- The memory of a 2MB page. -/
def bigPage (pageIndex : ℕ) : Set ℕ :=
  Set.Ico (pageIndex * page2mSize) (pageIndex * page2mSize + page2mSize)

/-- The memory of the header and the descriptors of a 4K database, at the start of its big page. -/
def pageDbMemory (pdb : PageDb) : Set ℕ :=
  Set.Ico (pdb.pageIndex * page2mSize)
    (pdb.pageIndex * page2mSize + (sizeofPageDb + sizeofPageDesc * pdb.numPages))

/-- What calls keep of a database: it is one of 2MB pages, or of the 512 pages of a big page, the
first of which hold the database. -/
def FrameDb (pdb : PageDb) : Prop :=
  (pdb.pageIndex = 0 ∧ pdb.numPages < 2 ^ 32) ∨
    (pdb.pageIndex ≠ 0 ∧ pdb.pageIndex < 2 ^ 32 ∧ pdb.numPages = 512 ∧ 9 ≤ pdb.numReserved ∧
      pdb.numReserved ≤ 512)

section Frames

variable {pdb : PageDb} {index index' db : ℕ}

/-- The index of a descriptor, wherever the database is. -/
theorem pageDbIndex_pageDbDesc (hindex : index < 2 ^ 32) :
    pageDbIndex db (pageDbDesc db index) = index := by
  have hpages : pageDbPages db < 2 ^ 64 := by
    unfold pageDbPages u64
    exact Nat.mod_lt _ (Nat.two_pow_pos 64)
  unfold pageDbIndex pageDbDesc
  generalize pageDbPages db = pages at hpages
  unfold u32 u64 sizeofPageDesc
  omega

theorem pageDbIndex2addr_big (hbig : pdb.pageIndex = 0) (hindex : index < 2 ^ 32) :
    pageDbIndex2addr pdb index = index * page2mSize := by
  rw [pageDbIndex2addr, if_neg (not_not_intro hbig), Nat.shiftLeft_eq, page2mSize, page2mShift]
  exact u64_of_lt (by omega)

theorem pageDbIndex2addr_small (hsmall : pdb.pageIndex ≠ 0) (hbound : pdb.pageIndex < 2 ^ 32)
    (hindex : index < 512) :
    pageDbIndex2addr pdb index = pdb.pageIndex * page2mSize + index * page4kSize := by
  rw [pageDbIndex2addr, if_pos hsmall, Nat.shiftLeft_eq, Nat.shiftLeft_eq, page2mSize, page4kSize,
    page2mShift, page4kShift]
  dsimp only
  rw [u64_of_lt (x := pdb.pageIndex * 2 ^ 21) (by omega), u64_of_lt (x := index * 2 ^ 12) (by omega)]
  exact u64_of_lt (by omega)

/-- `page_db_addr2index` undoes `page_db_index2addr`, and no check fails. -/
theorem FrameDb.addr2index (h : FrameDb pdb) (hlow : pdb.numReserved ≤ index)
    (hhigh : index < pdb.numPages) :
    pageDbAddr2index pdb (pageDbIndex2addr pdb index) = some index := by
  rcases h with ⟨hbig, hpages⟩ | ⟨hsmall, hbound, hpages, hreserved, -⟩
  · exact pageDbAddr2index_big hbig (hhigh.trans hpages)
  · exact pageDbAddr2index_small hsmall hbound (by omega) hlow hhigh hpages

/-- `page_db_desc2addr` is `page_db_index2addr` at the index of the descriptor. -/
theorem FrameDb.desc2addr (h : FrameDb pdb) (db : ℕ) (hhigh : index < pdb.numPages) :
    pageDbDesc2addr pdb db (pageDbDesc db index) = pageDbIndex2addr pdb index := by
  have hindex : index < 2 ^ 32 := by
    rcases h with ⟨-, hpages⟩ | ⟨-, -, hpages, -⟩ <;> omega
  rw [pageDbDesc2addr, pageDbIndex_pageDbDesc hindex]

/-- Different pages of a database have different frames. -/
theorem FrameDb.disjoint (h : FrameDb pdb) (hindex : index < pdb.numPages)
    (hindex' : index' < pdb.numPages) (hne : index ≠ index') :
    Disjoint (pageFrame pdb index) (pageFrame pdb index') := by
  refine disjoint_of_aligned pageSize_dvd_pageDbIndex2addr pageSize_dvd_pageDbIndex2addr ?_
  rcases h with ⟨hbig, hpages⟩ | ⟨hsmall, hbound, hpages, -⟩
  · rw [pageDbIndex2addr_big hbig (by omega), pageDbIndex2addr_big hbig (by omega), page2mSize,
      page2mShift]
    omega
  · rw [pageDbIndex2addr_small hsmall hbound (by omega),
      pageDbIndex2addr_small hsmall hbound (by omega), page4kSize, page4kShift]
    omega

/-- A 4K frame lies in the big page of its database. -/
theorem FrameDb.subset_bigPage (h : FrameDb pdb) (hsmall : pdb.pageIndex ≠ 0)
    (hindex : index < pdb.numPages) : pageFrame pdb index ⊆ bigPage pdb.pageIndex := by
  obtain ⟨hbig, -⟩ | ⟨-, hbound, hpages, -⟩ := h
  · exact absurd hbig hsmall
  · rw [pageFrame, PageDb.pageSize, if_pos hsmall,
      pageDbIndex2addr_small hsmall hbound (by omega)]
    apply Set.Ico_subset_Ico
    · exact Nat.le_add_right _ _
    · unfold page2mSize page4kSize page2mShift page4kShift
      omega

/-- The frame of a page that is not reserved lies behind the database. -/
theorem FrameDb.disjoint_memory (h : FrameDb pdb) (hsmall : pdb.pageIndex ≠ 0)
    (hlow : pdb.numReserved ≤ index) (hhigh : index < pdb.numPages) :
    Disjoint (pageFrame pdb index) (pageDbMemory pdb) := by
  obtain ⟨hbig, -⟩ | ⟨-, hbound, hpages, hreserved, -⟩ := h
  · exact absurd hbig hsmall
  · rw [Set.disjoint_left]
    intro addr hframe hmemory
    have hstart := hframe.1
    have hend := hmemory.2
    rw [pageDbIndex2addr_small hsmall hbound (by omega)] at hstart
    rw [hpages] at hend
    unfold sizeofPageDb sizeofPageDesc page2mSize page4kSize page2mShift page4kShift at *
    omega

theorem bigPage_disjoint {page page' : ℕ} (hne : page ≠ page') :
    Disjoint (bigPage page) (bigPage page') := by
  refine disjoint_of_aligned (Nat.dvd_mul_left _ _) (Nat.dvd_mul_left _ _) fun heq => hne ?_
  exact Nat.eq_of_mul_eq_mul_right (Nat.two_pow_pos _) heq

end Frames

section Calls

variable {pdb pdb' : PageDb}

/-- A 2MB database as `page_db_init` leaves it. -/
theorem frameDb_init (mem : PageDb) (memorySize reservedSize : ℕ) :
    FrameDb (pageDbInit mem memorySize reservedSize) := by
  refine Or.inl ⟨rfl, ?_⟩
  change u32 _ < _
  unfold u32
  exact Nat.mod_lt _ (Nat.two_pow_pos 32)

/-- A 4K database as `page_db_init_4k` leaves it: the header and the descriptors take 9 pages. -/
theorem frameDb_init4k (mem : PageDb) {pageIndex : ℕ} (hpos : pageIndex ≠ 0)
    (hbound : pageIndex < 2 ^ 32) : FrameDb (pageDbInit4k mem pageIndex) := by
  have hpages : pageDb4kNumPages = 512 := by decide +kernel
  have hreserved : u16 pageDb4kNumReserved = 9 := by decide +kernel
  exact Or.inr ⟨hpos, hbound, hpages, hreserved.ge, hreserved.le.trans (by decide)⟩

theorem FrameDb.congr (h : FrameDb pdb)
    (header : pdb'.pageIndex = pdb.pageIndex ∧ pdb'.numPages = pdb.numPages)
    (hreserved : pdb'.numReserved = pdb.numReserved) : FrameDb pdb' := by
  unfold FrameDb
  rw [header.1, header.2, hreserved]
  exact h

/-- Reserving a page can only make the reserved part larger. -/
theorem FrameDb.reservePage (h : FrameDb pdb) {page : ℕ}
    (hstep : pageDbReservePage pdb page = some pdb') : FrameDb pdb' := by
  have heq := pageDbReservePage_header hstep
  rcases pageDbReservePage_cases hstep with
    ⟨-, rfl⟩ | ⟨hlt, -, ⟨rfl, rfl⟩ | ⟨-, _, -, rfl⟩ | ⟨-, -, rfl⟩⟩
  · exact h
  · rcases h with hbig | ⟨hsmall, hbound, hpages, hlow, hhigh⟩
    · exact Or.inl hbig
    · have hnext : (pdb.reserveFirst pdb.numReserved).numReserved = pdb.numReserved + 1 :=
        u16_of_lt (by omega)
      refine Or.inr ⟨hsmall, hbound, hpages, ?_, ?_⟩
      · rw [hnext]
        omega
      · rw [hnext]
        omega
  · exact h.congr heq rfl
  · exact h

theorem FrameDb.reserveAll (h : FrameDb pdb) {pages : List ℕ}
    (hstep : pages.foldlM pageDbReservePage pdb = some pdb') : FrameDb pdb' := by
  induction pages generalizing pdb with
  | nil =>
    obtain rfl := Option.some.inj hstep
    exact h
  | cons page pages ih =>
    obtain ⟨mid, hmid, hrest⟩ := Option.bind_eq_some_iff.mp hstep
    exact ih (h.reservePage hmid) hrest

theorem FrameDb.alloc (h : FrameDb pdb) {index : ℕ} (hstep : pageDbAlloc pdb = some (index, pdb')) :
    FrameDb pdb' := by
  rcases pageDbAlloc_cases hstep with ⟨-, -, rfl⟩ | ⟨-, -, -, rfl⟩
  · exact h
  · exact h.congr ⟨rfl, rfl⟩ rfl

theorem FrameDb.free (h : FrameDb pdb) {index : ℕ} (hstep : pageDbFree pdb index = some pdb') :
    FrameDb pdb' := by
  obtain ⟨-, -, -, rfl⟩ := pageDbFree_eq_some_iff.mp hstep
  exact h.congr ⟨rfl, rfl⟩ rfl

/-- Every call keeps what the frames need. -/
theorem FrameDb.step {s t : AddrRun} {op : AddrOp} (h : FrameDb s.pdb)
    (hstep : s.step op = some t) : FrameDb t.pdb := by
  cases op with
  | allocAddr =>
    obtain ⟨⟨addr, pdb⟩, halloc, rfl⟩ := Option.map_eq_some_iff.mp hstep
    obtain ⟨⟨index, pdb'⟩, hpdb, heq⟩ := Option.map_eq_some_iff.mp halloc
    obtain ⟨-, rfl⟩ := Prod.mk.inj heq
    exact h.alloc hpdb
  | freeAddr addr =>
    obtain ⟨pdb, hpdb, rfl⟩ := Option.map_eq_some_iff.mp hstep
    unfold pageDbFreeAddr at hpdb
    simp only at hpdb
    split_ifs at hpdb
    · exact h.free hpdb
    · obtain rfl := Option.some.inj hpdb
      exact h
  | page op =>
    cases op with
    | alloc =>
      obtain ⟨r, hr, rfl⟩ := Option.map_eq_some_iff.mp hstep
      obtain ⟨⟨index, pdb⟩, hpdb, rfl⟩ := Option.map_eq_some_iff.mp hr
      exact h.alloc hpdb
    | free index =>
      obtain ⟨pdb, hpdb, rfl⟩ := Option.map_eq_some_iff.mp hstep
      exact h.free hpdb
    | reservePage page =>
      obtain ⟨r, hr, rfl⟩ := Option.map_eq_some_iff.mp hstep
      obtain ⟨pdb, hpdb, rfl⟩ := Option.map_eq_some_iff.mp hr
      exact h.reservePage hpdb
    | reserveRegion addr size =>
      obtain ⟨r, hr, rfl⟩ := Option.map_eq_some_iff.mp hstep
      obtain ⟨pdb, hpdb, rfl⟩ := Option.map_eq_some_iff.mp hr
      unfold pageDbReserveRegion at hpdb
      split_ifs at hpdb
      exact h.reserveAll hpdb

theorem frameDb_of_reaches {init : PageDb} {s : AddrRun} (h : FrameDb init)
    (hrun : Reaches AddrRun.step AnyCall (.start init) s) :
    FrameDb s.pdb ∧ s.pdb.pageIndex = init.pageIndex :=
  @Reaches.invariant _ _ _ _ (fun s => FrameDb s.pdb ∧ s.pdb.pageIndex = init.pageIndex) _ _ hrun
    ⟨h, rfl⟩ fun _ _ _ hs _ hstep =>
      ⟨FrameDb.step hs.1 hstep, (AddrRun.step_header hstep).1.trans hs.2⟩

/-- **Frames.** One 2MB database and 4K databases for different big pages, each after any calls:
indices, descriptors and addresses name the same pages, and no two pages overlap, nor does a page
that is not reserved overlap a database. -/
theorem pageFrames_ok {ι : Type*} (mem : PageDb) (memorySize reservedSize : ℕ) (big : AddrRun)
    (hbig : Reaches AddrRun.step AnyCall (.start (pageDbInit mem memorySize reservedSize)) big)
    (mem4k : ι → PageDb) (pageIndex : ι → ℕ) (small : ι → AddrRun)
    (hpos : ∀ i, pageIndex i ≠ 0) (hbound : ∀ i, pageIndex i < 2 ^ 32)
    (hdistinct : Function.Injective pageIndex)
    (hsmall : ∀ i, Reaches AddrRun.step AnyCall (.start (pageDbInit4k (mem4k i) (pageIndex i)))
      (small i)) :
    (∀ pdb, (pdb = big.pdb ∨ ∃ i, pdb = (small i).pdb) →
      (∀ index, pdb.numReserved ≤ index → index < pdb.numPages →
        pageDbAddr2index pdb (pageDbIndex2addr pdb index) = some index ∧
        ∀ db, pageDbDesc2addr pdb db (pageDbDesc db index) = pageDbIndex2addr pdb index) ∧
      ∀ index < pdb.numPages, ∀ index' < pdb.numPages, index ≠ index' →
        Disjoint (pageFrame pdb index) (pageFrame pdb index')) ∧
    (∀ i j, i ≠ j → ∀ index < (small i).pdb.numPages, ∀ index' < (small j).pdb.numPages,
      Disjoint (pageFrame (small i).pdb index) (pageFrame (small j).pdb index')) ∧
    ∀ i, ∀ index < (small i).pdb.numPages,
      pageFrame (small i).pdb index ⊆ bigPage (pageIndex i) ∧
      ((small i).pdb.numReserved ≤ index →
        Disjoint (pageFrame (small i).pdb index) (pageDbMemory (small i).pdb)) := by
  have hdb : ∀ i, FrameDb (small i).pdb ∧ (small i).pdb.pageIndex = pageIndex i := fun i =>
    frameDb_of_reaches (frameDb_init4k (mem4k i) (hpos i) (hbound i)) (hsmall i)
  have hinside : ∀ i, ∀ index < (small i).pdb.numPages,
      pageFrame (small i).pdb index ⊆ bigPage (pageIndex i) := by
    intro i index hindex
    rw [← (hdb i).2]
    exact (hdb i).1.subset_bigPage ((hdb i).2 ▸ hpos i) hindex
  refine ⟨fun pdb hpdb => ?_, fun i j hne index hindex index' hindex' => ?_,
    fun i index hindex => ⟨hinside i index hindex, fun hlow => ?_⟩⟩
  · have hok : FrameDb pdb := by
      rcases hpdb with rfl | ⟨i, rfl⟩
      · exact (frameDb_of_reaches (frameDb_init mem memorySize reservedSize) hbig).1
      · exact (hdb i).1
    exact ⟨fun index hlow hhigh => ⟨hok.addr2index hlow hhigh, fun db => hok.desc2addr db hhigh⟩,
      fun index hindex index' hindex' hne => hok.disjoint hindex hindex' hne⟩
  · exact (bigPage_disjoint fun heq => hne (hdistinct heq)).mono (hinside i index hindex)
      (hinside j index' hindex')
  · exact (hdb i).1.disjoint_memory ((hdb i).2 ▸ hpos i) hlow hindex

/-- 16MB of memory, and the databases of the big pages 1 and 2. -/
theorem pageFrames_ok_three :
    pageDbAddr2index (pageDbInit .blank (2 ^ 24) (2 ^ 21))
        (pageDbIndex2addr (pageDbInit .blank (2 ^ 24) (2 ^ 21)) 5) = some 5 ∧
      Disjoint (pageFrame (pageDbInit4k .blank 1) 511) (pageFrame (pageDbInit4k .blank 2) 9) ∧
      Disjoint (pageFrame (pageDbInit4k .blank 2) 9) (pageDbMemory (pageDbInit4k .blank 2)) := by
  have hok := pageFrames_ok .blank (2 ^ 24) (2 ^ 21) (.start _) (Reaches.refl _) (fun _ => .blank)
    (fun b : Bool => if b then 1 else 2) (fun b => .start (pageDbInit4k .blank (if b then 1 else 2)))
    (by decide) (by decide) (by unfold Function.Injective; decide) fun _ => Reaches.refl _
  refine ⟨((hok.1 _ (Or.inl rfl)).1 5 ?_ ?_).1, hok.2.1 true false (by decide) 511 ?_ 9 ?_,
    (hok.2.2 false 9 ?_).2 ?_⟩ <;> decide +kernel

end Calls

end Smor.Vm
