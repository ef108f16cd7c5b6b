import Smor.Vm.Reserve
import Mathlib.Data.Finset.Card

/-!
# Reserving a region

`page_db_reserve_region` reserves page after page, and none of its assignments reaches
`num_free`. The counter is therefore right afterwards only if the call has reserved no page
at all. This file says when that is so for a database that has just been initialised.
-/

namespace Smor.Vm

open Smor.Lib

/-- The 2MB frame of `page` meets the bytes from `addr` on. -/
def Touches (addr size page : ℕ) : Prop :=
  page * page2mSize < addr + size ∧ addr < (page + 1) * page2mSize

/-- The pages that were not reserved before and are reserved now. -/
def newlyReserved (pdb pdb' : PageDb) : Finset ℕ :=
  (Finset.range pdb.numPages).filter fun page =>
    pdb.flagsOf page ≠ .reserved ∧ pdb'.flagsOf page = .reserved

/-- The region is reserved: the pages it touches carry the flag, the other pages keep theirs,
and `num_free` is lower by the number of pages that were newly reserved. -/
def ReservesRegion (pdb : PageDb) (addr size : ℕ) : Prop :=
  ∃ pdb', pageDbReserveRegion pdb addr size = some pdb' ∧
    (∀ page < pdb.numPages, Touches addr size page → pdb'.flagsOf page = .reserved) ∧
    (∀ page < pdb.numPages, ¬Touches addr size page → pdb'.flagsOf page = pdb.flagsOf page) ∧
    pdb'.numFree + (newlyReserved pdb pdb').card = pdb.numFree

section Loop

variable {pdb pdb' : PageDb} {page : ℕ} {pages : List ℕ}

/-- A reservation changes nothing, or it reserves a free page and leaves the other flags. -/
theorem pageDbReservePage_flags (h : pageDbReservePage pdb page = some pdb') :
    pdb' = pdb ∨ page < pdb.numPages ∧ pdb.flagsOf page = .free ∧
      pdb'.flagsOf = Function.update pdb.flagsOf page .reserved ∧ pdb'.numPages = pdb.numPages := by
  rcases pageDbReservePage_cases h with ⟨_, rfl⟩ | ⟨hlt, hfree, ⟨_, rfl⟩ | ⟨_, pred, _, rfl⟩ |
    ⟨_, _, rfl⟩⟩
  · exact .inl rfl
  · exact .inr ⟨hlt, hfree, PageDb.reserveFirst_flagsOf _ _, rfl⟩
  · exact .inr ⟨hlt, hfree, PageDb.reserveAfter_flagsOf _ _ _, rfl⟩
  · exact .inl rfl

/-- No reservation counts the page that leaves the free list. -/
theorem pageDbReservePage_numFree (h : pageDbReservePage pdb page = some pdb') :
    pdb'.numFree = pdb.numFree := by
  rcases pageDbReservePage_cases h with ⟨_, rfl⟩ | ⟨_, _, ⟨_, rfl⟩ | ⟨_, _, _, rfl⟩ | ⟨_, _, rfl⟩⟩
  · rfl
  · rfl
  · rfl
  · rfl

/-- The loop of `page_db_reserve_region` keeps `num_free` and every page that is reserved. -/
theorem reserveAll_keeps (h : pages.foldlM pageDbReservePage pdb = some pdb') :
    pdb'.numFree = pdb.numFree ∧
      ∀ page, pdb.flagsOf page = .reserved → pdb'.flagsOf page = .reserved := by
  induction pages generalizing pdb with
  | nil =>
    obtain rfl : pdb = pdb' := by simpa using h
    exact ⟨rfl, fun _ => id⟩
  | cons first rest ih =>
    rw [List.foldlM_cons] at h
    obtain ⟨mid, hmid, hrest⟩ := Option.bind_eq_some_iff.mp h
    obtain ⟨hcount, hkeeps⟩ := ih hrest
    refine ⟨hcount.trans (pageDbReservePage_numFree hmid), fun page hpage => hkeeps page ?_⟩
    rcases pageDbReservePage_flags hmid with rfl | ⟨_, hfree, hflags, _⟩
    · exact hpage
    · rw [hflags, Function.update_apply]
      split_ifs
      · rfl
      · exact hpage

/-- Either every step of the loop leaves the database alone, or a page is newly reserved at
the end. -/
theorem reserveAll_cases (h : pages.foldlM pageDbReservePage pdb = some pdb') :
    (pdb' = pdb ∧ ∀ page ∈ pages, pageDbReservePage pdb page = some pdb) ∨
      ∃ page < pdb.numPages, pdb.flagsOf page = .free ∧ pdb'.flagsOf page = .reserved := by
  induction pages with
  | nil =>
    obtain rfl : pdb = pdb' := by simpa using h
    exact .inl ⟨rfl, by simp⟩
  | cons first rest ih =>
    rw [List.foldlM_cons] at h
    obtain ⟨mid, hmid, hrest⟩ := Option.bind_eq_some_iff.mp h
    rcases pageDbReservePage_flags hmid with rfl | ⟨hlt, hfree, hflags, _⟩
    · refine (ih hrest).imp_left fun ⟨heq, hall⟩ => ⟨heq, ?_⟩
      intro page hpage
      rcases List.mem_cons.mp hpage with rfl | hpage
      · exact hmid
      · exact hall page hpage
    · refine .inr ⟨first, hlt, hfree, (reserveAll_keeps hrest).2 first ?_⟩
      rw [hflags, Function.update_self]

/-- A loop whose steps all leave the database alone changes nothing. -/
theorem reserveAll_eq_self (h : ∀ page ∈ pages, pageDbReservePage pdb page = some pdb) :
    pages.foldlM pageDbReservePage pdb = some pdb := by
  induction pages with
  | nil => rfl
  | cons first rest ih =>
    rw [List.foldlM_cons, h first List.mem_cons_self]
    exact ih fun page hpage => h page (List.mem_cons_of_mem _ hpage)

end Loop

/-- In any database a region is reserved as it should be exactly when the check passes, the pages
it touches are reserved already, and the loop leaves the database alone. -/
theorem reservesRegion_iff {pdb : PageDb} {addr size : ℕ} :
    ReservesRegion pdb addr size ↔
      pdb.numReserved ≤ u32 (addr >>> page2mShift) ∧
      (∀ page < pdb.numPages, Touches addr size page → pdb.flagsOf page = .reserved) ∧
      ∀ page ∈ pageDbRegionPages addr size, pageDbReservePage pdb page = some pdb := by
  unfold ReservesRegion pageDbReserveRegion
  constructor
  · rintro ⟨pdb', hregion, htouched, -, hcount⟩
    split_ifs at hregion with hcheck
    rcases reserveAll_cases hregion with ⟨rfl, hall⟩ | ⟨page, hlt, hfree, hreserved⟩
    · exact ⟨hcheck, htouched, hall⟩
    · -- a newly reserved page is missing from the counter
      have hmem : page ∈ newlyReserved pdb pdb' := by simp [newlyReserved, hlt, hfree, hreserved]
      have hpos := Finset.card_pos.mpr ⟨page, hmem⟩
      have hsame := (reserveAll_keeps hregion).1
      omega
  · rintro ⟨hcheck, htouched, hall⟩
    refine ⟨pdb, ?_, htouched, fun _ _ _ => rfl, ?_⟩
    · rw [if_pos hcheck]
      exact reserveAll_eq_self hall
    · simp [newlyReserved]

section Fresh

variable {pdb : PageDb} {pageIndex numPages numReserved : ℕ}

/-- When everything is reserved, every page of the database carries the flag. -/
theorem pageDbInitPages_flagsOf_of_le {page : ℕ} (hle : numPages ≤ numReserved)
    (hpage : page < numPages) :
    (pageDbInitPages pdb numPages numReserved).flagsOf page = .reserved := by
  have hlast : u32Pred numPages = numPages - 1 := by rw [u32Pred, if_neg (by omega)]
  have hmax : max numReserved (numPages - 1) = numReserved := by omega
  have hnone : numPages - 1 - numReserved = 0 := by omega
  simp only [PageDb.flagsOf, pageDbInitPages, hlast, hmax, hnone, List.range'_zero, List.foldl_nil]
  rw [Function.update_of_ne (by omega), foldl_update_apply (fun _ => pageDescInit .reserved),
    if_pos (List.mem_range.mpr (by omega))]
  rfl

/-- The first reservation in an initialised database leaves it alone for the pages that are
reserved already or outside, and for the first unreserved page if its index does not fit
the 16-bit field: this page has no predecessor on the list. -/
theorem pageDbReservePage_init_iff {page : ℕ} (hbound : numPages < 2 ^ 32) :
    let init := pageDbInitPages (pageDbInitHeader pdb pageIndex numPages numReserved)
      numPages numReserved
    pageDbReservePage init page = some init ↔
      page < numReserved ∨ numPages ≤ page ∨ page = numReserved ∧ 2 ^ 16 ≤ numReserved := by
  intro init
  have hpages : init.numPages = numPages := rfl
  have hfield : init.numReserved = u16 numReserved := rfl
  have hfits : u16 numReserved ≤ numReserved := by
    unfold u16
    omega
  by_cases hout : numPages ≤ page
  · exact iff_of_true (if_pos hout) (.inr (.inl hout))
  by_cases hres : page < numReserved
  · have hflag : init.flagsOf page = .reserved := by
      by_cases hlt : numReserved < numPages
      · exact (pageDbInitPages_flagsOf hlt hbound.le (by omega)).trans (if_pos hres)
      · exact pageDbInitPages_flagsOf_of_le (by omega) (by omega)
    refine iff_of_true ?_ (.inl hres)
    rw [pageDbReservePage, if_neg (by omega), if_pos hflag]
  have hflag : init.flagsOf page = .free :=
    (pageDbInitPages_flagsOf (by omega) hbound.le (by omega)).trans (if_neg hres)
  have hnext : ∀ i < numPages, init.nextFree i =
      if numReserved ≤ i ∧ i + 1 < numPages then i + 1 else 0 :=
    fun i hi => pageDbInitPages_nextFree (by omega) hbound.le hi
  constructor
  · intro h
    rcases pageDbReservePage_cases h with ⟨hbad | hbad, _⟩ | ⟨_, _, ⟨_, heq⟩ | ⟨_, pred, _, heq⟩ |
      ⟨hne, hnone, _⟩⟩
    · omega
    · simp [hflag] at hbad
    · have hbad : (init.reserveFirst page).flagsOf page = .free := heq ▸ hflag
      simp at hbad
    · have hbad : (init.reserveAfter pred page).flagsOf page = .free := heq ▸ hflag
      simp at hbad
    · by_cases hfirst : page = numReserved
      · refine .inr (.inr ⟨hfirst, ?_⟩)
        by_contra hsmall
        rw [hfield, u16_of_lt (by omega)] at hne
        exact hne hfirst
      · have hpred := hnone (page - 1) (by omega) (by omega)
        rw [hnext _ (by omega), if_pos (by omega)] at hpred
        omega
  · rintro (hbad | hbad | ⟨rfl, hwide⟩)
    · exact absurd hbad hres
    · exact absurd hbad hout
    · have hne : page ≠ init.numReserved := by
        rw [hfield]
        unfold u16
        omega
      have hnone : (List.range' init.numReserved (init.numPages - init.numReserved)).find?
          (fun i => init.nextFree i = page) = none := by
        refine List.find?_eq_none.mpr fun i hi => ?_
        rw [List.mem_range'_1] at hi
        rw [hnext i (by omega)]
        split_ifs
        · simp only [decide_eq_true_eq]
          omega
        · simp only [decide_eq_true_eq]
          omega
      rw [pageDbReservePage, if_neg (by omega), if_neg (by simp [hflag]), if_pos hflag, if_neg hne,
        hnone]

end Fresh

/-- The regions that lie beside the unreserved pages: the first page number passes the check,
no unreserved page is touched, and, cut to 32 bits, no number of the loop is that of an
unreserved page, the first one excepted where its index does not fit 16 bits. -/
structure RegionBeside (numPages numReserved addr size : ℕ) : Prop where
  check : u16 numReserved ≤ u32 (addr >>> page2mShift)
  apart : ∀ page, numReserved ≤ page → page < numPages → ¬Touches addr size page
  visited : ∀ page ∈ pageDbRegionPages addr size,
    page < numReserved ∨ numPages ≤ page ∨ page = numReserved ∧ 2 ^ 16 ≤ numReserved

/-- **Reserved regions.** After `page_db_init` a call of `page_db_reserve_region` leaves flags and
counter as it should exactly when the region lies beside the unreserved pages. -/
theorem pageDbReserveRegion_iff (pdb : PageDb) (memorySize reservedSize addr size : ℕ) :
    ReservesRegion (pageDbInit pdb memorySize reservedSize) addr size ↔
      RegionBeside (pageDbNumPages memorySize) (pageDbNumReserved reservedSize) addr size := by
  have hbound := pageDbNumPages_lt memorySize
  have hflags : ∀ page < pageDbNumPages memorySize,
      (pageDbInit pdb memorySize reservedSize).flagsOf page = .reserved ↔
        page < pageDbNumReserved reservedSize := by
    intro page hpage
    by_cases hlt : pageDbNumReserved reservedSize < pageDbNumPages memorySize
    · rw [pageDbInit_flagsOf hlt hpage]
      split_ifs with hres <;> simp [hres]
    · rw [pageDbInit, pageDbInitPages_flagsOf_of_le (by omega) hpage]
      simp only [true_iff]
      omega
  rw [reservesRegion_iff]
  constructor
  · rintro ⟨hcheck, htouched, hall⟩
    refine ⟨hcheck, fun page hle hlt htouch => ?_, fun page hpage => ?_⟩
    · have hres := (hflags page hlt).mp (htouched page hlt htouch)
      omega
    · exact (pageDbReservePage_init_iff hbound).mp (hall page hpage)
  · rintro ⟨hcheck, hapart, hvisited⟩
    refine ⟨hcheck, fun page hlt htouch => (hflags page hlt).mpr ?_, fun page hpage => ?_⟩
    · by_contra hle
      exact hapart page (by omega) hlt htouch
    · exact (pageDbReservePage_init_iff hbound).mpr (hvisited page hpage)

/-- Below `2 ^ 53`, where no page number is cut, the regions beside the unreserved pages are those
behind the last page. -/
theorem regionBeside_iff_of_lt {numPages numReserved addr size : ℕ} (hsize : 0 < size)
    (hstart : numReserved * page2mSize ≤ addr) (hfits : numReserved < 2 ^ 16)
    (hend : addr + size ≤ 2 ^ 53) :
    RegionBeside numPages numReserved addr size ↔ numPages * page2mSize ≤ addr := by
  have hsize2m : page2mSize = 2 ^ 21 := rfl
  have hfirst : u32 (addr >>> page2mShift) = addr / 2 ^ 21 := by
    unfold u32
    rw [Nat.shiftRight_eq_div_pow, page2mShift]
    omega
  have hmem : ∀ page ∈ pageDbRegionPages addr size, addr / 2 ^ 21 ≤ page := by
    intro page hpage
    obtain ⟨i, hi, rfl⟩ := List.mem_map.mp hpage
    rw [List.mem_range, page2mNum, page2mShift, hsize2m, Nat.shiftRight_eq_div_pow] at hi
    rw [hfirst]
    unfold u32 u64 at *
    omega
  rw [hsize2m] at hstart ⊢
  constructor
  · intro h
    by_contra hlt
    refine h.apart (addr / 2 ^ 21) (by omega) (by omega) ⟨?_, ?_⟩
    · rw [hsize2m]
      omega
    · rw [hsize2m]
      omega
  · intro hbehind
    refine ⟨?_, fun page _ hlt htouch => ?_, fun page hpage => ?_⟩
    · rw [hfirst, u16_of_lt hfits]
      omega
    · have hbefore := htouch.2
      rw [hsize2m] at hbefore
      have hnext : (page + 1) * 2 ^ 21 ≤ numPages * 2 ^ 21 := Nat.mul_le_mul_right _ hlt
      omega
    · have hle := hmem page hpage
      omega

/-- With 16MB of memory and a 2MB kernel, the 2MB at 4MB: page 2 is reserved, and the counter
still says that 7 pages are free. -/
theorem pageDbReserveRegion_uncounted :
    ¬∀ addr size, 0 < size → 1 * page2mSize ≤ addr → addr + size < 2 ^ 64 →
      ReservesRegion (pageDbInit .blank (2 ^ 24) (2 ^ 21)) addr size := by
  intro hall
  have hcase := hall (2 ^ 22) (2 ^ 21) (by decide) (by decide) (by decide)
  obtain ⟨hcheck, htouched, hskip⟩ := reservesRegion_iff.mp hcase
  have hflag := htouched 2 (by decide +kernel) ⟨by decide, by decide⟩
  have hfree : (pageDbInit .blank (2 ^ 24) (2 ^ 21)).flagsOf 2 = .free := by decide +kernel
  exact absurd (hflag.symm.trans hfree) (by decide)

end Smor.Vm
