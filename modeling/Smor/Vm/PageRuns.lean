import Smor.Vm.FreeList

/-!
# Runs of the page allocator

A run starts from an initialised database and makes calls of the allocator. Besides the
database it remembers which pages are handed out and for which pages a reservation was
requested; both are what a caller knows, and no code reads them. The first result
follows allocations and frees only, over every database the initialisers build.
-/

namespace Smor.Vm

open Smor.Lib

/-- The calls a run of the page allocator is made of. -/
inductive PageOp
  | alloc
  | free (index : ℕ)
  | reservePage (pageIndex : ℕ)
  | reserveRegion (addr size : ℕ)

/-- A database together with what its callers know about it. -/
structure PageRun where
  /-- The database itself. -/
  pdb : PageDb
  /-- The pages returned by `page_db_alloc` and not freed since. -/
  out : Finset ℕ
  /-- The pages for which a reservation was requested. -/
  asked : Finset ℕ

/-- A run that has made no call yet. -/
def PageRun.start (pdb : PageDb) : PageRun := ⟨pdb, ∅, ∅⟩

/-- One call. -/
def PageRun.step (s : PageRun) : PageOp → Option PageRun
  | .alloc => (pageDbAlloc s.pdb).map fun (index, pdb) =>
      { s with pdb := pdb, out := if index = 0 then s.out else insert index s.out }
  | .free index => (pageDbFree s.pdb index).map fun pdb =>
      { s with pdb := pdb, out := s.out.erase index }
  | .reservePage pageIndex => (pageDbReservePage s.pdb pageIndex).map fun pdb =>
      { s with pdb := pdb, asked := insert pageIndex s.asked }
  | .reserveRegion addr size => (pageDbReserveRegion s.pdb addr size).map fun pdb =>
      { s with pdb := pdb, asked := s.asked ∪ (pageDbRegionPages addr size).toFinset }

/-- The calls of a run that only allocates and frees. -/
def AllocFreeOnly (_ : PageRun) : PageOp → Prop
  | .alloc | .free _ => True
  | .reservePage _ | .reserveRegion _ _ => False

/-- A call of `page_db_alloc` is safe: it passes its check, it never returns a page that is
handed out already, and it returns 0 exactly when no page is free. -/
def AllocSafe (s : PageRun) : Prop :=
  ∃ index pdb, pageDbAlloc s.pdb = some (index, pdb) ∧ index ∉ s.out ∧
    (index = 0 ↔ ∀ i < s.pdb.numPages, s.pdb.flagsOf i ≠ .free)

/-- The free list of a run over a database with `numReserved` reserved pages: an acyclic
chain that ends at 0, visits exactly the free pages, stays above the reserved pages,
and has the counted length. -/
def FreeListCounted (numReserved : ℕ) (s : PageRun) : Prop :=
  ∃ free, FreeListOk s.pdb free ∧ free.Nodup ∧ (∀ i ∈ free, numReserved ≤ i) ∧
    free.length = s.pdb.numFree

/-- A well-formed free list whose pages are not handed out makes the next allocation safe. -/
theorem FreeListOk.allocSafe {s : PageRun} {free : List ℕ} (h : FreeListOk s.pdb free)
    (hout : ∀ i ∈ s.out, 0 < i ∧ i ∉ free) : AllocSafe s := by
  cases free with
  | nil =>
    refine ⟨0, s.pdb, h.pageDbAlloc_eq, fun hmem => absurd (hout 0 hmem).1 (by omega), ?_⟩
    simp only [true_iff]
    intro i hi hfree
    simpa using (h.mem_iff i hi).mpr hfree
  | cons page rest =>
    refine ⟨page, _, h.pageDbAlloc_eq, fun hmem => (hout page hmem).2 (by simp), ?_⟩
    have hne : page ≠ 0 := (chain_cons_iff.mp h.chain).2.1
    have hlt := h.lt_numPages page (by simp)
    simp only [hne, false_iff, not_forall, not_not]
    exact ⟨page, hlt, (h.mem_iff page hlt).mp (by simp)⟩

/-- What every state of a run of allocations and frees satisfies: besides the counted free
list, the pages above the reserved ones are free or handed out, and the narrowed
`num_reserved` field still tells the reserved pages apart. -/
structure AllocFreeInv (numReserved : ℕ) (s : PageRun) (free : List ℕ) : Prop where
  ok : FreeListOk s.pdb free
  numReserved_pos : 0 < numReserved
  numReserved_eq : s.pdb.numReserved = numReserved
  numPages_lt : s.pdb.numPages < 2 ^ 32
  length_eq : free.length = s.pdb.numFree
  reserved_iff : ∀ i < s.pdb.numPages, s.pdb.flagsOf i = .reserved ↔ i < numReserved
  used_iff : ∀ i < s.pdb.numPages, s.pdb.flagsOf i = .used ↔ i ∈ s.out
  out_lt : ∀ i ∈ s.out, i < s.pdb.numPages

namespace AllocFreeInv

variable {numReserved : ℕ} {s t : PageRun} {free : List ℕ}

/-- Every page on the list lies above the reserved pages. -/
theorem le_of_mem (h : AllocFreeInv numReserved s free) {i : ℕ} (hi : i ∈ free) :
    numReserved ≤ i := by
  by_contra hlt
  have hi' := h.ok.lt_numPages i hi
  have hfree := (h.ok.mem_iff i hi').mp hi
  have hres := (h.reserved_iff i hi').mpr (by omega)
  simp [hfree] at hres

/-- Handed out pages are above the reserved pages and not on the list. -/
theorem out_spec (h : AllocFreeInv numReserved s free) {i : ℕ} (hi : i ∈ s.out) :
    0 < i ∧ i ∉ free := by
  have hlt := h.out_lt i hi
  have hused := (h.used_iff i hlt).mpr hi
  constructor
  · by_contra hzero
    have hres := (h.reserved_iff i hlt).mpr (by have := h.numReserved_pos; omega)
    simp [hused] at hres
  · intro hmem
    have hfree := (h.ok.mem_iff i hlt).mp hmem
    simp [hused] at hfree

/-- An allocation keeps the invariant. -/
theorem alloc (h : AllocFreeInv numReserved s free) (hstep : s.step .alloc = some t) :
    ∃ free', AllocFreeInv numReserved t free' := by
  rw [PageRun.step, h.ok.pageDbAlloc_eq] at hstep
  cases free with
  | nil =>
    obtain rfl : s = t := by simpa using hstep
    exact ⟨[], h⟩
  | cons page rest =>
    have hne : page ≠ 0 := (chain_cons_iff.mp h.ok.chain).2.1
    have hlt := h.ok.lt_numPages page (by simp)
    simp only [Option.map_some, hne, if_false, Option.some.injEq] at hstep
    subst hstep
    refine ⟨rest, h.ok.takeFirst, h.numReserved_pos, h.numReserved_eq, h.numPages_lt, ?_, ?_, ?_,
      ?_⟩
    · have hlen := h.length_eq
      have hbound := h.ok.length_le.trans_lt h.numPages_lt
      simp only [List.length_cons] at hlen hbound
      rw [PageDb.takeFirst_numFree, u32Pred, if_neg (by omega)]
      omega
    · intro i hi
      rw [PageDb.takeFirst_flagsOf]
      by_cases heq : i = page
      · subst heq
        have := h.le_of_mem (i := i) (by simp)
        simp only [Function.update_self, reduceCtorEq, false_iff]
        omega
      · rw [Function.update_of_ne heq]
        exact h.reserved_iff i hi
    · intro i hi
      rw [PageDb.takeFirst_flagsOf, Finset.mem_insert]
      by_cases heq : i = page
      · simp [heq]
      · rw [Function.update_of_ne heq, h.used_iff i hi]
        simp [heq]
    · intro i hi
      rcases Finset.mem_insert.mp hi with rfl | hi
      · exact hlt
      · exact h.out_lt i hi

/-- A free that passes its checks keeps the invariant. -/
theorem release {index : ℕ} (h : AllocFreeInv numReserved s free)
    (hstep : s.step (.free index) = some t) : ∃ free', AllocFreeInv numReserved t free' := by
  obtain ⟨pdb, hpdb, rfl⟩ := Option.map_eq_some_iff.mp hstep
  obtain ⟨hle, hlt, hflag, rfl⟩ := pageDbFree_eq_some_iff.mp hpdb
  rw [h.numReserved_eq] at hle
  have hpos := h.numReserved_pos
  have hok := h.ok.pushFree hlt (by omega) hflag
  refine ⟨index :: free, hok, hpos, h.numReserved_eq, h.numPages_lt, ?_, ?_, ?_, ?_⟩
  · have hbound := hok.length_le
    have heq := h.length_eq
    have hpages := h.numPages_lt
    simp only [List.length_cons, PageDb.pushFree_numPages] at hbound
    simp only [List.length_cons, PageDb.pushFree_numFree, u32]
    omega
  · intro i hi
    rw [PageDb.pushFree_flagsOf]
    by_cases heq : i = index
    · subst heq
      simp only [Function.update_self, reduceCtorEq, false_iff]
      omega
    · rw [Function.update_of_ne heq]
      exact h.reserved_iff i hi
  · intro i hi
    rw [PageDb.pushFree_flagsOf, Finset.mem_erase]
    by_cases heq : i = index
    · simp [heq]
    · rw [Function.update_of_ne heq, h.used_iff i hi]
      simp [heq]
  · intro i hi
    exact h.out_lt i (Finset.mem_of_mem_erase hi)

/-- The invariant gives both parts of what a run promises. -/
theorem promises (h : AllocFreeInv numReserved s free) :
    FreeListCounted numReserved s ∧ AllocSafe s :=
  ⟨⟨free, h.ok, h.ok.chain.nodup, fun _ hi => h.le_of_mem hi, h.length_eq⟩,
    h.ok.allocSafe fun _ hi => h.out_spec hi⟩

end AllocFreeInv

/-- An initialised database whose reserved pages fit the 16-bit field satisfies the invariant. -/
theorem pageDbInit_allocFreeInv {pdb : PageDb} {pageIndex numPages numReserved : ℕ}
    (hpos : 0 < numReserved) (hlt : numReserved < numPages) (hbound : numPages < 2 ^ 32)
    (hfits : numReserved < 2 ^ 16) :
    AllocFreeInv numReserved
      (.start (pageDbInitPages (pageDbInitHeader pdb pageIndex numPages numReserved)
        numPages numReserved))
      (List.range' numReserved (numPages - numReserved)) where
  ok := pageDbInitPages_freeListOk rfl hpos hlt hbound.le
  numReserved_pos := hpos
  numReserved_eq := by
    simp only [PageRun.start, pageDbInitPages, pageDbInitHeader, u16]
    omega
  numPages_lt := hbound
  length_eq := by
    simp only [List.length_range', PageRun.start, pageDbInitPages, pageDbInitHeader, u32]
    omega
  reserved_iff := by
    intro i hi
    rw [PageRun.start, pageDbInitPages_flagsOf hlt hbound.le hi]
    split_ifs with h <;> simp [h]
  used_iff := by
    intro i hi
    rw [PageRun.start, pageDbInitPages_flagsOf hlt hbound.le hi]
    split_ifs <;> simp
  out_lt := by simp [PageRun.start]

/-- Every state of a run of allocations and frees keeps the promises, provided the reserved
pages fit the 16-bit field. -/
theorem allocFree_run_ok {pdb : PageDb} {pageIndex numPages numReserved : ℕ} {s : PageRun}
    (hpos : 0 < numReserved) (hlt : numReserved < numPages) (hbound : numPages < 2 ^ 32)
    (hfits : numReserved < 2 ^ 16)
    (hrun : Reaches PageRun.step AllocFreeOnly
      (.start (pageDbInitPages (pageDbInitHeader pdb pageIndex numPages numReserved)
        numPages numReserved)) s) :
    FreeListCounted numReserved s ∧ AllocSafe s := by
  have hinv : ∃ free, AllocFreeInv numReserved s free := by
    refine hrun.invariant (I := fun s => ∃ free, AllocFreeInv numReserved s free)
      ⟨_, pageDbInit_allocFreeInv hpos hlt hbound hfits⟩ ?_
    rintro s (_ | _ | _ | _) t ⟨free, h⟩ hguard hstep
    · exact h.alloc hstep
    · exact h.release hstep
    · exact hguard.elim
    · exact hguard.elim
  obtain ⟨free, h⟩ := hinv
  exact h.promises

/-- When more than `2 ^ 16 - 1` pages are reserved, `page_db_free` accepts a reserved page: the
one whose index is the narrowed count. Afterwards the list is lost or leaves its range. -/
theorem allocFree_run_breaks (pdb : PageDb) (pageIndex : ℕ) {numPages numReserved : ℕ}
    (hlt : numReserved < numPages) (hbound : numPages < 2 ^ 32) (hwide : 2 ^ 16 ≤ numReserved) :
    ∃ s, Reaches PageRun.step AllocFreeOnly
      (.start (pageDbInitPages (pageDbInitHeader pdb pageIndex numPages numReserved)
        numPages numReserved)) s ∧ ¬FreeListCounted numReserved s := by
  have hnarrow : u16 numReserved < numReserved := by
    unfold u16
    omega
  have hflags : ∀ i < numPages, (pageDbInitPages (pageDbInitHeader pdb pageIndex numPages
      numReserved) numPages numReserved).flagsOf i = if i < numReserved then .reserved else .free :=
    fun i hi => pageDbInitPages_flagsOf hlt hbound.le hi
  set init := pageDbInitPages (pageDbInitHeader pdb pageIndex numPages numReserved)
    numPages numReserved with hinit
  have hpages : init.numPages = numPages := rfl
  have hfree : pageDbFree init (u16 numReserved) = some (init.pushFree (u16 numReserved)) := by
    refine pageDbFree_eq_some_iff.mpr ⟨le_rfl, hpages ▸ hnarrow.trans hlt, ?_, rfl⟩
    rw [hflags _ (hnarrow.trans hlt), if_pos hnarrow]
    decide
  refine ⟨_, (Reaches.refl _).tail (o := .free (u16 numReserved)) trivial
    (by rw [PageRun.step, PageRun.start, hfree, Option.map_some]), ?_⟩
  rintro ⟨free, hok, _, hrange, _⟩
  by_cases hzero : u16 numReserved = 0
  · -- the list starts at the end marker, although the first unreserved page is free
    have hempty : free = [] := hok.chain.unique (chain_nil_iff.mpr hzero)
    have hmem := (hok.mem_iff numReserved hlt).mpr (by
      rw [PageDb.pushFree_flagsOf, Function.update_of_ne (by omega), hflags _ hlt,
        if_neg (lt_irrefl _)])
    simp [hempty] at hmem
  · have hmem := hok.chain.mem_start hzero
    have hle := hrange _ hmem
    rw [PageDb.pushFree_freeList] at hle
    omega

/-- A page count of `page_db_init` is a `uint32_t`. -/
theorem pageDbNumPages_lt (memorySize : ℕ) : pageDbNumPages memorySize < 2 ^ 32 := by
  rw [pageDbNumPages, u32]
  exact Nat.mod_lt _ (by decide)

section Init

variable {pdb : PageDb} {memorySize reservedSize i : ℕ}

/-- The flags as `page_db_init` leaves them. -/
theorem pageDbInit_flagsOf
    (hlt : pageDbNumReserved reservedSize < pageDbNumPages memorySize)
    (hi : i < pageDbNumPages memorySize) :
    (pageDbInit pdb memorySize reservedSize).flagsOf i =
      if i < pageDbNumReserved reservedSize then .reserved else .free :=
  pageDbInitPages_flagsOf hlt (pageDbNumPages_lt memorySize).le hi

/-- The links as `page_db_init` leaves them. -/
theorem pageDbInit_nextFree
    (hlt : pageDbNumReserved reservedSize < pageDbNumPages memorySize)
    (hi : i < pageDbNumPages memorySize) :
    (pageDbInit pdb memorySize reservedSize).nextFree i =
      if pageDbNumReserved reservedSize ≤ i ∧ i + 1 < pageDbNumPages memorySize then i + 1
      else 0 :=
  pageDbInitPages_nextFree hlt (pageDbNumPages_lt memorySize).le hi

end Init

/-- **Runs of allocations and frees.** After `page_db_init` with `1 ≤ num_reserved < num_pages`
every run keeps the free list and the allocator's promises exactly when the reserved
pages fit the `uint16_t` field; after `page_db_init_4k` every run keeps them. -/
theorem pageDb_allocFree_ok_iff (pdb : PageDb) (memorySize reservedSize : ℕ)
    (hpos : 1 ≤ pageDbNumReserved reservedSize)
    (hlt : pageDbNumReserved reservedSize < pageDbNumPages memorySize) :
    ((∀ s, Reaches PageRun.step AllocFreeOnly
        (.start (pageDbInit pdb memorySize reservedSize)) s →
        FreeListCounted (pageDbNumReserved reservedSize) s ∧ AllocSafe s) ↔
      pageDbNumReserved reservedSize < 2 ^ 16) ∧
    ∀ pageIndex s, Reaches PageRun.step AllocFreeOnly (.start (pageDbInit4k pdb pageIndex)) s →
      FreeListCounted pageDb4kNumReserved s ∧ AllocSafe s := by
  have hbound := pageDbNumPages_lt memorySize
  refine ⟨⟨fun hall => ?_, fun hfits s hrun => ?_⟩, fun pageIndex s hrun => ?_⟩
  · by_contra hwide
    obtain ⟨s, hrun, hbad⟩ := allocFree_run_breaks pdb 0 hlt hbound
      (by omega)
    exact hbad (hall s hrun).1
  · exact allocFree_run_ok hpos hlt hbound hfits hrun
  · exact allocFree_run_ok (by decide +kernel) (by decide +kernel) (by decide +kernel)
      (by decide +kernel) hrun

/-- Memory that holds only zeros, before a database is built in it. -/
def PageDb.blank : PageDb :=
  { pageIndex := 0, numPages := 0, numFree := 0, freeList := 0, lock := 0, numReserved := 0,
    flags := 0, pages := fun _ => pageDescInit .free }

/-- With 4 of 65540 pages left unreserved, freeing page 0 passes both checks and loses the list. -/
theorem pageDb_wide_reservation_breaks :
    (1 ≤ pageDbNumReserved (2 ^ 37) ∧
      pageDbNumReserved (2 ^ 37) < pageDbNumPages (2 ^ 37 + 2 ^ 23)) ∧
    ¬∀ s, Reaches PageRun.step AllocFreeOnly
      (.start (pageDbInit .blank (2 ^ 37 + 2 ^ 23) (2 ^ 37))) s →
      FreeListCounted (pageDbNumReserved (2 ^ 37)) s ∧ AllocSafe s := by
  have hlt : pageDbNumReserved (2 ^ 37) < pageDbNumPages (2 ^ 37 + 2 ^ 23) := by decide +kernel
  refine ⟨⟨by decide +kernel, hlt⟩, fun hall => ?_⟩
  obtain ⟨s, hrun, hbad⟩ := allocFree_run_breaks .blank 0 hlt
    (pageDbNumPages_lt _) (by decide +kernel)
  exact hbad (hall s hrun).1

/-- A machine with 16MB of memory and a 2MB kernel, of which one page has been allocated: 1 of 8
pages is reserved. -/
theorem pageDb_allocFree_ok_16mb :
    ∃ s, Reaches PageRun.step AllocFreeOnly (.start (pageDbInit .blank (2 ^ 24) (2 ^ 21))) s ∧
      s.out = {1} ∧ FreeListCounted 1 s ∧ AllocSafe s := by
  have hres : pageDbNumReserved (2 ^ 21) = 1 := by decide +kernel
  have hall := (pageDb_allocFree_ok_iff .blank (2 ^ 24) (2 ^ 21) (by decide +kernel)
    (by decide +kernel)).1.mpr (by decide +kernel)
  rw [hres] at hall
  have hstep : ((PageRun.step (.start (pageDbInit .blank (2 ^ 24) (2 ^ 21))) .alloc).map
      PageRun.out) = some {1} := by decide +kernel
  obtain ⟨s, hs, hout⟩ := Option.map_eq_some_iff.mp hstep
  have hop : AllocFreeOnly (.start (pageDbInit .blank (2 ^ 24) (2 ^ 21))) .alloc := trivial
  have hrun := (Reaches.refl _).tail hop hs
  exact ⟨s, hrun, hout, hall s hrun⟩

end Smor.Vm
