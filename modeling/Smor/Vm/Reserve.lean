import Smor.Vm.PageRuns
import Mathlib.Data.Finset.Lattice.Lemmas

/-!
# Reservations

`page_db_reserve_page` takes a page out of the free list in one of two ways. If the page
directly follows the reserved pages, the list head is set to the page after it;
otherwise the first page whose `next_free` names it is redirected, whether or not that page
is itself on the list. `ReserveOk` states when these assignments keep the list. The
results say that runs whose reservations all meet it are safe, and that the first
reservation that does not meet it leaves a broken database.
-/

namespace Smor.Vm

open Smor.Lib

/-- The databases that `page_db_init` and `page_db_init_4k` build, with at least one
reserved page and at least one page left. -/
inductive Initialised : PageDb → Prop
  | init (pdb : PageDb) (memorySize reservedSize : ℕ) :
      1 ≤ pageDbNumReserved reservedSize →
      pageDbNumReserved reservedSize < pageDbNumPages memorySize →
      Initialised (pageDbInit pdb memorySize reservedSize)
  | init4k (pdb : PageDb) (pageIndex : ℕ) : Initialised (pageDbInit4k pdb pageIndex)

/-- Both initialisers run `page_db_init_pages` on a freshly filled header. -/
theorem Initialised.exists_pages {init : PageDb} (h : Initialised init) :
    ∃ pdb pageIndex numPages numReserved, 0 < numReserved ∧ numReserved < numPages ∧
      numPages < 2 ^ 32 ∧
      init = pageDbInitPages (pageDbInitHeader pdb pageIndex numPages numReserved)
        numPages numReserved := by
  cases h with
  | init pdb memorySize reservedSize hpos hlt =>
    exact ⟨pdb, 0, _, _, hpos, hlt, pageDbNumPages_lt _, rfl⟩
  | init4k pdb pageIndex =>
    exact ⟨pdb, pageIndex, pageDb4kNumPages, pageDb4kNumReserved, by decide +kernel,
      by decide +kernel, by decide +kernel, rfl⟩

/-- `pred` is the page that the search of `page_db_reserve_page` finds for `page`. -/
def FirstNaming (pdb : PageDb) (pred page : ℕ) : Prop :=
  pdb.numReserved ≤ pred ∧ pred < pdb.numPages ∧ pdb.nextFree pred = page ∧
    ∀ i, pdb.numReserved ≤ i → i < pred → pdb.nextFree i ≠ page

/-- The states in which `page_db_reserve_page` keeps the free list: the page is outside the
database or reserved already; or it follows the reserved pages, heads the list, and its
successor on the list is the page after it; or the first page that names it is free. -/
def ReserveOk (pdb : PageDb) (page : ℕ) : Prop :=
  pdb.numPages ≤ page ∨ pdb.flagsOf page = .reserved ∨
    (page = pdb.numReserved ∧ pdb.freeList = page ∧
      pdb.nextFree page = u16 (pdb.numReserved + 1)) ∨
    (page ≠ pdb.numReserved ∧ ∃ pred, FirstNaming pdb pred page ∧ pdb.flagsOf pred = .free)

/-- Every page of a list is reserved in a state that meets `ReserveOk`. -/
def ReserveAllOk (pdb : PageDb) : List ℕ → Prop
  | [] => True
  | page :: pages => ReserveOk pdb page ∧
      ∀ pdb', pageDbReservePage pdb page = some pdb' → ReserveAllOk pdb' pages

/-- Everything a call of `page_db_reserve_page` can do. -/
theorem pageDbReservePage_cases {pdb pdb' : PageDb} {page : ℕ}
    (h : pageDbReservePage pdb page = some pdb') :
    ((pdb.numPages ≤ page ∨ pdb.flagsOf page = .reserved) ∧ pdb' = pdb) ∨
    (page < pdb.numPages ∧ pdb.flagsOf page = .free ∧
      ((page = pdb.numReserved ∧ pdb' = pdb.reserveFirst page) ∨
        (page ≠ pdb.numReserved ∧ ∃ pred, FirstNaming pdb pred page ∧
          pdb' = pdb.reserveAfter pred page) ∨
        (page ≠ pdb.numReserved ∧
          (∀ i, pdb.numReserved ≤ i → i < pdb.numPages → pdb.nextFree i ≠ page) ∧
          pdb' = pdb))) := by
  unfold pageDbReservePage at h
  split_ifs at h with hrange hres hfree hnum
  · exact .inl ⟨.inl hrange, (Option.some.inj h).symm⟩
  · exact .inl ⟨.inr hres, (Option.some.inj h).symm⟩
  · exact .inr ⟨by omega, hfree, .inl ⟨hnum, (Option.some.inj h).symm⟩⟩
  · refine .inr ⟨by omega, hfree, .inr ?_⟩
    split at h
    · rename_i pred hfind
      refine .inl ⟨hnum, pred, ?_, (Option.some.inj h).symm⟩
      obtain ⟨hnext, k, hk, hget, hbefore⟩ := List.find?_eq_some_iff_getElem.mp hfind
      simp only [List.length_range'] at hk
      simp only [List.getElem_range', Nat.one_mul] at hget hbefore
      subst hget
      refine ⟨by omega, by omega, by simpa using hnext, fun i hlow hhigh => ?_⟩
      have hi := hbefore (i - pdb.numReserved) (by omega)
      rw [Nat.add_sub_cancel' hlow] at hi
      simpa using hi
    · rename_i hfind
      refine .inr ⟨hnum, fun i hlow hhigh => ?_, (Option.some.inj h).symm⟩
      have hi := List.find?_eq_none.mp hfind i (List.mem_range'_1.mpr ⟨hlow, by omega⟩)
      simpa using hi

/-- The search of `page_db_reserve_page` has one result. -/
theorem FirstNaming.unique {pdb : PageDb} {i j page : ℕ} (hi : FirstNaming pdb i page)
    (hj : FirstNaming pdb j page) : i = j := by
  obtain ⟨hilow, _, hinext, hibefore⟩ := hi
  obtain ⟨hjlow, _, hjnext, hjbefore⟩ := hj
  rcases Nat.lt_trichotomy i j with hlt | heq | hlt
  · exact absurd hinext (hjbefore i hilow hlt)
  · exact heq
  · exact absurd hjnext (hibefore j hjlow hlt)

section OnePage

variable {pdb pdb' : PageDb} {free : List ℕ} {page pred : ℕ}

/-- Moving the list head past its first page keeps the list. -/
theorem FreeListOk.reserveFirst {rest : List ℕ} (h : FreeListOk pdb (page :: rest))
    (hnext : pdb.nextFree page = u16 (pdb.numReserved + 1)) :
    FreeListOk (pdb.reserveFirst page) rest where
  chain := by
    obtain ⟨_, _, hrest⟩ := chain_cons_iff.mp h.chain
    rw [PageDb.reserveFirst_nextFree, PageDb.reserveFirst_freeList, ← hnext]
    exact hrest.update_of_notMem (List.nodup_cons.mp h.chain.nodup).1
  lt_numPages := fun i hi => h.lt_numPages i (List.mem_cons_of_mem _ hi)
  mem_iff := by
    intro i hi
    have hnotMem := (List.nodup_cons.mp h.chain.nodup).1
    rw [PageDb.reserveFirst_flagsOf]
    by_cases heq : i = page
    · subst heq
      simp [hnotMem]
    · rw [Function.update_of_ne heq, ← h.mem_iff i hi, List.mem_cons]
      simp [heq]

/-- Redirecting the predecessor on the list keeps the list, without the reserved page. -/
theorem FreeListOk.reserveAfter {xs ys : List ℕ} (h : FreeListOk pdb (xs ++ pred :: page :: ys)) :
    FreeListOk (pdb.reserveAfter pred page) (xs ++ pred :: ys) where
  chain := by
    rw [PageDb.reserveAfter_nextFree, PageDb.reserveAfter_freeList]
    exact h.chain.unlink
  lt_numPages := by
    intro i hi
    apply h.lt_numPages i
    simp only [List.mem_append, List.mem_cons] at hi ⊢
    tauto
  mem_iff := by
    intro i hi
    have hnodup := h.chain.nodup
    simp only [List.nodup_append, List.nodup_cons, List.mem_cons, not_or] at hnodup
    obtain ⟨_, ⟨⟨hpp, _⟩, hpys, _⟩, hdisj⟩ := hnodup
    have hxs : page ∉ xs := fun hmem => hdisj page hmem page (Or.inr (Or.inl rfl)) rfl
    rw [PageDb.reserveAfter_flagsOf]
    by_cases heq : i = page
    · subst heq
      simp [hxs, hpys, Ne.symm hpp]
    · rw [Function.update_of_ne heq, ← h.mem_iff i hi]
      simp [heq]

/-- A reservation in a state that meets `ReserveOk` keeps the list well formed, reserves
the page if the database has it, changes no other flag, and passes no other page. -/
theorem FreeListOk.reservePage (h : FreeListOk pdb free) (hok : ReserveOk pdb page)
    (hstep : pageDbReservePage pdb page = some pdb') :
    (∃ free', FreeListOk pdb' free') ∧ pdb'.numPages = pdb.numPages ∧
      (page < pdb.numPages → pdb'.flagsOf page = .reserved) ∧
      (∀ i, i ≠ page → pdb'.flagsOf i = pdb.flagsOf i) ∧
      ∀ i, i ≠ page → pdb.numReserved ≤ i → pdb'.numReserved ≤ i := by
  rcases pageDbReservePage_cases hstep with ⟨hnoop, rfl⟩ | ⟨hlt, hfree, hcase⟩
  · exact ⟨⟨free, h⟩, rfl, fun hlt => hnoop.resolve_left (by omega), fun _ _ => rfl,
      fun _ _ hle => hle⟩
  · have hmem := (h.mem_iff page hlt).mpr hfree
    rcases hcase with ⟨hnum, rfl⟩ | ⟨hnum, pred, hpred, rfl⟩ | ⟨hnum, hnone, rfl⟩
    · obtain hbad | hbad | ⟨_, hhead, hnext⟩ | ⟨hbad, _⟩ := hok
      · omega
      · simp [hfree] at hbad
      · cases free with
        | nil => simp at hmem
        | cons first rest =>
          obtain rfl : page = first := hhead ▸ (chain_cons_iff.mp h.chain).1
          refine ⟨⟨rest, h.reserveFirst hnext⟩, rfl, fun _ => by simp, fun i hi => by simp [hi],
            fun i hi hle => ?_⟩
          rw [PageDb.reserveFirst_numReserved, u16]
          omega
      · exact absurd hnum hbad
    · obtain hbad | hbad | ⟨hbad, _⟩ | ⟨_, pred', hpred', hflag⟩ := hok
      · omega
      · simp [hfree] at hbad
      · exact absurd hbad hnum
      · obtain rfl := hpred.unique hpred'
        have hpredMem := (h.mem_iff pred hpred.2.1).mpr hflag
        have hne : page ≠ 0 := fun hzero => h.chain.null_notMem (hzero ▸ hmem)
        obtain ⟨xs, ys, rfl⟩ := h.chain.split_at hpredMem hpred.2.2.1 hne
        exact ⟨⟨_, h.reserveAfter⟩, rfl, fun _ => by simp, fun i hi => by simp [hi],
          fun _ _ hle => hle⟩
    · obtain hbad | hbad | ⟨hbad, _⟩ | ⟨_, pred', hpred', _⟩ := hok
      · omega
      · simp [hfree] at hbad
      · exact absurd hbad hnum
      · exact absurd hpred'.2.2.1 (hnone pred' hpred'.1 hpred'.2.1)

/-- If the list after a reservation is well formed and the links of the pages that stay
free are unchanged, then the reserved page had no predecessor on the old list. -/
private theorem eq_freeList_of_reserved {free' : List ℕ} (h : FreeListOk pdb free)
    (h' : FreeListOk pdb' free') (hpages : pdb'.numPages = pdb.numPages)
    (hmem : page ∈ free) (hflags : pdb'.flagsOf = Function.update pdb.flagsOf page .reserved)
    (hlinks : ∀ i ∈ free, i ≠ page → pdb'.nextFree i = pdb.nextFree i) :
    page = pdb.freeList := by
  by_contra hne
  have hlt := h.lt_numPages page hmem
  obtain ⟨xs, pred, ys, rfl, hpred⟩ := h.chain.exists_pred hmem hne
  have hnodup := h.chain.nodup
  simp only [List.nodup_append, List.nodup_cons, List.mem_cons, not_or] at hnodup
  have hpp : pred ≠ page := hnodup.2.1.1.1
  have hpredMem : pred ∈ xs ++ pred :: page :: ys := by simp
  have hpredLt := h.lt_numPages pred hpredMem
  have hpredMem' : pred ∈ free' := by
    rw [h'.mem_iff pred (hpages ▸ hpredLt), hflags, Function.update_of_ne hpp]
    exact (h.mem_iff pred hpredLt).mp hpredMem
  have hpage : page ≠ 0 := fun hzero => h.chain.null_notMem (hzero ▸ hmem)
  obtain ⟨us, vs, rfl⟩ := h'.chain.split_at hpredMem'
    ((hlinks pred hpredMem hpp).trans hpred) hpage
  have hbad := (h'.mem_iff page (hpages ▸ hlt)).mp (by simp)
  simp [hflags] at hbad

/-- A reservation that leaves a well-formed list and a reserved page met `ReserveOk`. -/
theorem FreeListOk.reserveOk_of_reservePage {free' : List ℕ} (h : FreeListOk pdb free)
    (hstep : pageDbReservePage pdb page = some pdb') (h' : FreeListOk pdb' free')
    (hreserved : page < pdb.numPages → pdb'.flagsOf page = .reserved) : ReserveOk pdb page := by
  rcases pageDbReservePage_cases hstep with ⟨hnoop, rfl⟩ | ⟨hlt, hfree, hcase⟩
  · exact hnoop.elim .inl fun hres => .inr (.inl hres)
  · have hmem := (h.mem_iff page hlt).mpr hfree
    rcases hcase with ⟨hnum, rfl⟩ | ⟨hnum, pred, hpred, rfl⟩ | ⟨_, _, rfl⟩
    · -- the new list is a part of the old one, and no page but `page` is missing from it
      have hhead : page = pdb.freeList := eq_freeList_of_reserved h h' rfl hmem (by simp)
        fun i _ hi => by simp [hi]
      refine .inr (.inr (.inl ⟨hnum, hhead.symm, ?_⟩))
      cases free with
      | nil => simp at hmem
      | cons first rest =>
        obtain rfl : page = first := hhead ▸ (chain_cons_iff.mp h.chain).1
        obtain ⟨_, _, hrest⟩ := chain_cons_iff.mp h.chain
        have hnotMem := (List.nodup_cons.mp h.chain.nodup).1
        have hnew : Chain 0 pdb.nextFree (u16 (pdb.numReserved + 1)) free' := by
          refine h'.chain.congr fun i hi => ?_
          have hflag := (h'.mem_iff i (h'.lt_numPages i hi)).mp hi
          rw [PageDb.reserveFirst_nextFree, Function.update_of_ne]
          rintro rfl
          simp at hflag
        refine (hrest.eq_of_mem_iff hnew fun i => ?_).1
        by_cases hi : i < pdb.numPages
        · rw [h'.mem_iff i hi, PageDb.reserveFirst_flagsOf]
          by_cases heq : i = page
          · simp [heq, hnotMem]
          · rw [Function.update_of_ne heq, ← h.mem_iff i hi]
            simp [heq]
        · exact iff_of_false (fun hmem => hi (h.lt_numPages i (List.mem_cons_of_mem _ hmem)))
            (fun hmem => hi (h'.lt_numPages i hmem))
    · by_cases hflag : pdb.flagsOf pred = .free
      · exact .inr (.inr (.inr ⟨hnum, pred, hpred, hflag⟩))
      · -- a predecessor that is not free leaves the reserved page on the list
        have hhead : page = pdb.freeList := by
          apply eq_freeList_of_reserved h h' rfl hmem (by simp)
          intro i hi _
          rw [PageDb.reserveAfter_nextFree, Function.update_of_ne]
          rintro rfl
          exact hflag ((h.mem_iff i hpred.2.1).mp hi)
        have hne : page ≠ 0 := fun hzero => h.chain.null_notMem (hzero ▸ hmem)
        have hstart : page ∈ free' := by
          have := h'.chain.mem_start (by simpa [← hhead] using hne)
          simpa [← hhead] using this
        have hbad := (h'.mem_iff page hlt).mp hstart
        simp at hbad
    · have hres := hreserved hlt
      simp [hfree] at hres

end OnePage

/-- The calls of an orderly caller: only pages that are handed out are freed. (A reservation
of a page that is handed out fails a check and stops the kernel.) -/
def CallerOk (s : PageRun) : PageOp → Prop
  | .alloc => True
  | .free index => index ∈ s.out
  | .reservePage _ => True
  | .reserveRegion _ _ => True

/-- The calls of a caller whose reservations all meet `ReserveOk`. -/
def ReservationsOk (s : PageRun) : PageOp → Prop
  | .alloc => True
  | .free index => index ∈ s.out
  | .reservePage pageIndex => ReserveOk s.pdb pageIndex
  | .reserveRegion addr size => ReserveAllOk s.pdb (pageDbRegionPages addr size)

/-- What must hold after every call: the free list is an acyclic chain that ends at 0 and
visits exactly the free pages, pages asked to be reserved are reserved, the next
allocation passes its check and returns 0 or a free page of the database that nobody
asked to reserve, and frees of handed out pages pass their checks. -/
structure ReserveSafe (s : PageRun) : Prop where
  list : ∃ free, FreeListOk s.pdb free ∧ free.Nodup
  asked : ∀ page ∈ s.asked, page < s.pdb.numPages → s.pdb.flagsOf page = .reserved
  alloc : ∃ index pdb, pageDbAlloc s.pdb = some (index, pdb) ∧
    (index = 0 ∨ index < s.pdb.numPages ∧ s.pdb.flagsOf index = .free ∧ index ∉ s.asked)
  free : ∀ index ∈ s.out, (pageDbFree s.pdb index).isSome

/-- The invariant of runs whose reservations meet `ReserveOk`. -/
structure ReserveInv (s : PageRun) (free : List ℕ) : Prop where
  ok : FreeListOk s.pdb free
  out_used : ∀ i ∈ s.out, 0 < i ∧ i < s.pdb.numPages ∧ s.pdb.flagsOf i = .used
  reserved_of_lt : ∀ i < s.pdb.numPages, s.pdb.flagsOf i ≠ .reserved → s.pdb.numReserved ≤ i
  asked : ∀ page ∈ s.asked, page < s.pdb.numPages → s.pdb.flagsOf page = .reserved

namespace ReserveInv

variable {s t : PageRun} {free : List ℕ}

/-- The invariant gives everything that must hold after a call. -/
theorem safe (h : ReserveInv s free) : ReserveSafe s where
  list := ⟨free, h.ok, h.ok.chain.nodup⟩
  asked := h.asked
  alloc := by
    cases free with
    | nil => exact ⟨0, s.pdb, h.ok.pageDbAlloc_eq, .inl rfl⟩
    | cons page rest =>
      have hlt := h.ok.lt_numPages page (by simp)
      have hflag := (h.ok.mem_iff page hlt).mp (by simp)
      refine ⟨page, _, h.ok.pageDbAlloc_eq, .inr ⟨hlt, hflag, fun hasked => ?_⟩⟩
      have hres := h.asked page hasked hlt
      simp [hflag] at hres
  free := by
    intro index hmem
    obtain ⟨_, hlt, hused⟩ := h.out_used index hmem
    have hge := h.reserved_of_lt index hlt (by simp [hused])
    rw [pageDbFree_eq_some_iff.mpr ⟨hge, hlt, by simp [hused], rfl⟩]
    rfl

/-- An allocation keeps the invariant. -/
theorem alloc (h : ReserveInv s free) (hstep : s.step .alloc = some t) :
    ∃ free', ReserveInv t free' := by
  rw [PageRun.step, h.ok.pageDbAlloc_eq] at hstep
  cases free with
  | nil =>
    obtain rfl : s = t := by simpa using hstep
    exact ⟨[], h⟩
  | cons page rest =>
    have hne : page ≠ 0 := (chain_cons_iff.mp h.ok.chain).2.1
    have hlt := h.ok.lt_numPages page (by simp)
    have hflag := (h.ok.mem_iff page hlt).mp (by simp)
    simp only [Option.map_some, hne, if_false, Option.some.injEq] at hstep
    subst hstep
    refine ⟨rest, h.ok.takeFirst, ?_, ?_, ?_⟩
    · intro i hi
      rw [PageDb.takeFirst_flagsOf]
      rcases Finset.mem_insert.mp hi with rfl | hi
      · exact ⟨Nat.pos_of_ne_zero hne, hlt, by simp⟩
      · obtain ⟨hpos, hilt, hused⟩ := h.out_used i hi
        refine ⟨hpos, hilt, ?_⟩
        rw [Function.update_of_ne (by rintro rfl; simp [hflag] at hused), hused]
    · intro i hi
      rw [PageDb.takeFirst_flagsOf]
      by_cases heq : i = page
      · exact fun _ => heq ▸ h.reserved_of_lt page hlt (by simp [hflag])
      · rw [Function.update_of_ne heq]
        exact h.reserved_of_lt i hi
    · intro i hi hilt
      have hres := h.asked i hi hilt
      rw [PageDb.takeFirst_flagsOf, Function.update_of_ne (by rintro rfl; simp [hflag] at hres),
        hres]

/-- A free of a handed out page keeps the invariant. -/
theorem release {index : ℕ} (h : ReserveInv s free) (hout : index ∈ s.out)
    (hstep : s.step (.free index) = some t) : ∃ free', ReserveInv t free' := by
  obtain ⟨pdb, hpdb, rfl⟩ := Option.map_eq_some_iff.mp hstep
  obtain ⟨_, hlt, hflag, rfl⟩ := pageDbFree_eq_some_iff.mp hpdb
  obtain ⟨hpos, _, hused⟩ := h.out_used index hout
  refine ⟨index :: free, h.ok.pushFree hlt hpos hflag, ?_, ?_, ?_⟩
  · intro i hi
    obtain ⟨hne, hi⟩ := Finset.mem_erase.mp hi
    rw [PageDb.pushFree_flagsOf, Function.update_of_ne hne]
    exact h.out_used i hi
  · intro i hi
    rw [PageDb.pushFree_flagsOf]
    by_cases heq : i = index
    · exact fun _ => heq ▸ h.reserved_of_lt index hlt (by simp [hused])
    · rw [Function.update_of_ne heq]
      exact h.reserved_of_lt i hi
  · intro i hi hilt
    have hres := h.asked i hi hilt
    rw [PageDb.pushFree_flagsOf, Function.update_of_ne (by rintro rfl; simp [hused] at hres), hres]

/-- One reservation in a state that meets `ReserveOk` keeps the invariant. -/
theorem reservePage {page : ℕ} {pdb : PageDb} (h : ReserveInv s free) (hok : ReserveOk s.pdb page)
    (hstep : pageDbReservePage s.pdb page = some pdb) :
    ∃ free', ReserveInv { s with pdb := pdb, asked := insert page s.asked } free' := by
  obtain ⟨⟨free', h'⟩, hpages, hpage, hother, hlow⟩ := h.ok.reservePage hok hstep
  have hpageUsed : ∀ i < s.pdb.numPages, s.pdb.flagsOf i = .used → i ≠ page := by
    rintro i hi hused rfl
    rcases pageDbReservePage_cases hstep with ⟨hnoop | hres, _⟩ | ⟨_, hfree, _⟩
    · omega
    · simp [hused] at hres
    · simp [hused] at hfree
  refine ⟨free', h', ?_, ?_, ?_⟩
  · intro i hi
    obtain ⟨hpos, hlt, hused⟩ := h.out_used i hi
    exact ⟨hpos, hpages.symm ▸ hlt, (hother i (hpageUsed i hlt hused)).trans hused⟩
  · intro i hi hflag
    change i < pdb.numPages at hi
    rw [hpages] at hi
    have hne : i ≠ page := fun heq => hflag (heq ▸ hpage (heq ▸ hi))
    exact hlow i hne (h.reserved_of_lt i hi (hother i hne ▸ hflag))
  · intro i hi hilt
    change i < pdb.numPages at hilt
    rw [hpages] at hilt
    by_cases heq : i = page
    · exact heq ▸ hpage (heq ▸ hilt)
    · have hmem := (Finset.mem_insert.mp hi).resolve_left heq
      exact (hother i heq).trans (h.asked i hmem hilt)

/-- Reserving page after page keeps the invariant when every one of the calls meets
`ReserveOk`; the induction follows the loop of `page_db_reserve_region`. -/
theorem reserveAll {pages : List ℕ} {pdb : PageDb} (h : ReserveInv s free)
    (hok : ReserveAllOk s.pdb pages) (hstep : pages.foldlM pageDbReservePage s.pdb = some pdb) :
    ∃ free', ReserveInv { s with pdb := pdb, asked := s.asked ∪ pages.toFinset } free' := by
  induction pages generalizing s free with
  | nil =>
    obtain rfl : s.pdb = pdb := by simpa using hstep
    exact ⟨free, by rwa [List.toFinset_nil, Finset.union_empty]⟩
  | cons page pages ih =>
    obtain ⟨hpage, hrest⟩ := hok
    rw [List.foldlM_cons] at hstep
    obtain ⟨pdb', hpdb', hstep⟩ := Option.bind_eq_some_iff.mp hstep
    obtain ⟨free', h'⟩ := h.reservePage hpage hpdb'
    obtain ⟨free'', h''⟩ := ih h' (hrest pdb' hpdb') hstep
    refine ⟨free'', ?_⟩
    rwa [Finset.insert_union, ← Finset.union_insert, ← List.toFinset_cons] at h''

/-- Every allowed call keeps the invariant. -/
theorem step {op : PageOp} (h : ReserveInv s free) (hguard : ReservationsOk s op)
    (hstep : s.step op = some t) : ∃ free', ReserveInv t free' := by
  cases op with
  | alloc => exact h.alloc hstep
  | free index => exact h.release hguard hstep
  | reservePage page =>
    obtain ⟨pdb, hpdb, rfl⟩ := Option.map_eq_some_iff.mp hstep
    exact h.reservePage hguard hpdb
  | reserveRegion addr size =>
    obtain ⟨pdb, hpdb, rfl⟩ := Option.map_eq_some_iff.mp hstep
    unfold pageDbReserveRegion at hpdb
    split_ifs at hpdb
    exact h.reserveAll hguard hpdb

end ReserveInv

/-- An initialised database satisfies the invariant. -/
theorem Initialised.reserveInv {init : PageDb} (h : Initialised init) :
    ∃ free, ReserveInv (.start init) free := by
  obtain ⟨pdb, pageIndex, numPages, numReserved, hpos, hlt, hbound, rfl⟩ := h.exists_pages
  refine ⟨_, pageDbInitPages_freeListOk rfl hpos hlt hbound.le, by simp [PageRun.start], ?_,
    by simp [PageRun.start]⟩
  intro i hi
  rw [PageRun.start, pageDbInitPages_flagsOf hlt hbound.le hi]
  split_ifs with hres
  · simp
  · intro _
    simp only [pageDbInitPages, pageDbInitHeader, u16]
    omega

/-- Every state of a run whose reservations meet `ReserveOk` satisfies the invariant. -/
theorem reserve_run_inv {init : PageDb} {s : PageRun} (hinit : Initialised init)
    (hrun : Reaches PageRun.step ReservationsOk (.start init) s) : ∃ free, ReserveInv s free :=
  hrun.invariant (I := fun s => ∃ free, ReserveInv s free) hinit.reserveInv
    fun _ _ _ ⟨_, h⟩ hguard hstep => h.step hguard hstep

/-- **Runs with reservations.** From any initialised database, a run in which every reservation
is made in a state that meets `ReserveOk` is safe after every call, and from any
state of such a run a reservation that does not meet it leaves an unsafe state. -/
theorem pageDb_reserve_safe {init : PageDb} (hinit : Initialised init) :
    (∀ s, Reaches PageRun.step ReservationsOk (.start init) s → ReserveSafe s) ∧
    ∀ s t page, Reaches PageRun.step ReservationsOk (.start init) s →
      s.step (.reservePage page) = some t → (ReserveSafe t ↔ ReserveOk s.pdb page) := by
  refine ⟨fun s hrun => ?_, fun s t page hrun hstep => ⟨fun hsafe => ?_, fun hok => ?_⟩⟩
  · obtain ⟨free, h⟩ := reserve_run_inv hinit hrun
    exact h.safe
  · obtain ⟨free, h⟩ := reserve_run_inv hinit hrun
    obtain ⟨pdb, hpdb, rfl⟩ := Option.map_eq_some_iff.mp hstep
    obtain ⟨free', h', _⟩ := hsafe.list
    have hpages : pdb.numPages = s.pdb.numPages := by
      rcases pageDbReservePage_cases hpdb with ⟨_, rfl⟩ | ⟨_, _, ⟨_, rfl⟩ | ⟨_, _, _, rfl⟩ |
        ⟨_, _, rfl⟩⟩ <;> rfl
    exact h.ok.reserveOk_of_reservePage hpdb h' fun hlt =>
      hsafe.asked page (by simp) (hpages.symm ▸ hlt)
  · obtain ⟨free, h⟩ := reserve_run_inv hinit (hrun.tail (o := .reservePage page) hok hstep)
    exact h.safe

/-- Of four pages, one reserved, reserve page 2 and then page 1: the list head is now the
reserved page 2, and the next allocation fails its check. -/
theorem pageDb_reserve_descending_breaks :
    Initialised (pageDbInit .blank (2 ^ 23) (2 ^ 21)) ∧
    ¬∀ s, Reaches PageRun.step CallerOk (.start (pageDbInit .blank (2 ^ 23) (2 ^ 21))) s →
      ReserveSafe s := by
  refine ⟨.init _ _ _ (by decide +kernel) (by decide +kernel), fun hall => ?_⟩
  have hrun : (((PageRun.start (pageDbInit .blank (2 ^ 23) (2 ^ 21))).step
      (.reservePage 2)).bind (·.step (.reservePage 1))).map
        (fun s => pageDbAlloc s.pdb |>.isNone) = some true := by decide +kernel
  obtain ⟨t, ht, hnone⟩ := Option.map_eq_some_iff.mp hrun
  obtain ⟨s, hs, ht⟩ := Option.bind_eq_some_iff.mp ht
  have hreach : Reaches PageRun.step CallerOk (.start (pageDbInit .blank (2 ^ 23) (2 ^ 21))) t :=
    ((Reaches.refl _).tail (o := .reservePage 2) trivial hs).tail (o := .reservePage 1) trivial ht
  obtain ⟨index, pdb, halloc, _⟩ := (hall t hreach).alloc
  simp [halloc] at hnone

/-- On a machine with 16MB of memory and a 2MB kernel, page 3 is reserved through its predecessor on
the list, page 1 is handed out and comes back, and page 1 and page 2 are handed out. -/
theorem pageDb_reserve_safe_16mb :
    Initialised (pageDbInit .blank (2 ^ 24) (2 ^ 21)) ∧
    ∃ s, Reaches PageRun.step ReservationsOk (.start (pageDbInit .blank (2 ^ 24) (2 ^ 21))) s ∧
      s.pdb.flagsOf 3 = .reserved ∧ s.out = {1, 2} ∧ ReserveSafe s := by
  have hinit : Initialised (pageDbInit .blank (2 ^ 24) (2 ^ 21)) :=
    .init _ _ _ (by decide +kernel) (by decide +kernel)
  have hok : ReserveOk (pageDbInit .blank (2 ^ 24) (2 ^ 21)) 3 := by
    refine Or.inr (Or.inr (Or.inr ⟨by decide +kernel, 2, ⟨by decide +kernel, by decide +kernel,
      by decide +kernel, fun i hlow hhigh => ?_⟩, by decide +kernel⟩))
    have hone : (pageDbInit .blank (2 ^ 24) (2 ^ 21)).numReserved = 1 := by decide +kernel
    obtain rfl : i = 1 := by omega
    decide +kernel
  let start := PageRun.start (pageDbInit .blank (2 ^ 24) (2 ^ 21))
  have hsteps : ((start.step (.reservePage 3)).bind fun s₁ => (s₁.step .alloc).bind fun s₂ =>
      (s₂.step (.free 1)).bind fun s₃ => (s₃.step .alloc).bind fun s₄ =>
        (s₄.step .alloc).map fun s₅ =>
          (decide (1 ∈ s₂.out), s₅.pdb.flagsOf 3, decide (s₅.out = {1, 2}))) =
      some (true, .reserved, true) := by decide +kernel
  obtain ⟨s₁, h₁, hsteps⟩ := Option.bind_eq_some_iff.mp hsteps
  obtain ⟨s₂, h₂, hsteps⟩ := Option.bind_eq_some_iff.mp hsteps
  obtain ⟨s₃, h₃, hsteps⟩ := Option.bind_eq_some_iff.mp hsteps
  obtain ⟨s₄, h₄, hsteps⟩ := Option.bind_eq_some_iff.mp hsteps
  obtain ⟨s₅, h₅, hvalue⟩ := Option.map_eq_some_iff.mp hsteps
  simp only [Prod.mk.injEq, decide_eq_true_eq] at hvalue
  obtain ⟨hout, hflag, hlast⟩ := hvalue
  have hrun₁ : Reaches PageRun.step ReservationsOk start s₁ :=
    (Reaches.refl start).tail (o := PageOp.reservePage 3) hok h₁
  have hrun₂ := hrun₁.tail (o := PageOp.alloc) trivial h₂
  have hrun₃ := hrun₂.tail (o := PageOp.free 1) hout h₃
  have hrun₄ := hrun₃.tail (o := PageOp.alloc) trivial h₄
  have hreach := hrun₄.tail (o := PageOp.alloc) trivial h₅
  exact ⟨hinit, s₅, hreach, hflag, hlast, (pageDb_reserve_safe hinit).1 s₅ hreach⟩

end Smor.Vm
