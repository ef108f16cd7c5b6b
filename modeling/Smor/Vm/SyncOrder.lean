import Smor.Vm.BootIdentity
import Smor.Vm.Sync

/-!
# The order in which `vm_boot_sync` reserves pages

With identity mappings the three loops of `vm_boot_sync` visit the mapped pages in ascending
order; the shared directory is visited once more at the end, when its pages are reserved
already. In this order both ways of `page_db_reserve_page` keep the free list ascending, as
long as the 16-bit `num_reserved` still counts the pages in front of the list. The result
says when it does: an unmapped page must stop the count before it wraps around.
-/

namespace Smor.Vm

open Smor.Lib

/-- A page that a present directory entry of the boot tables maps. -/
def Present (vm : BootVm) (page : ℕ) : Prop :=
  ∃ i < 512, ∃ j < 512, ∃ k < 512, ∃ a, bootLookup vm i j k = some a ∧
    page = u32 (a >>> page2mShift)

/-- `vm_boot_sync` does what it is for: it completes, the mapped pages are reserved, the free
list is the ascending list of the other pages from `first` on, and no later allocation
returns a mapped page. -/
def SyncCorrect (vm : BootVm) (pdb : PageDb) (first : ℕ) : Prop :=
  ∃ pdb', vmBootSync vm pdb = some pdb' ∧
    (∀ page < pdb.numPages, Present vm page → pdb'.flagsOf page = .reserved) ∧
    (∃ free, Chain 0 pdb'.nextFree pdb'.freeList free ∧ free.Pairwise (· < ·) ∧
      ∀ i, i ∈ free ↔ first ≤ i ∧ i < pdb.numPages ∧ ¬Present vm i) ∧
    ∀ s index pdb'', Reaches PageRun.step AllocFreeLive (.start pdb') s →
      pageDbAlloc s.pdb = some (index, pdb'') → index ≠ 0 → ¬Present vm index

/-- The pages from `first` on fill the 16-bit count: nothing stops it before it wraps around. -/
def Full (taken : ℕ → Prop) (first : ℕ) : Prop :=
  taken first ∧ ∀ page, first ≤ page → page < 2 ^ 16 → taken page

/-- The database while the pages `taken` have been reserved in ascending order, all of them
below `bound`. -/
structure Ascending (first numPages : ℕ) (taken : ℕ → Prop) (bound : ℕ) (pdb : PageDb) : Prop where
  numPages_eq : pdb.numPages = numPages
  first_pos : 0 < first
  taken_lt : ∀ i, taken i → i < bound
  reserved : ∀ i < numPages, i < first ∨ taken i → pdb.flagsOf i = .reserved
  free : ∀ i < numPages, first ≤ i → ¬taken i → pdb.flagsOf i = .free
  /-- The list starts at the first page that is not taken. -/
  head : first ≤ pdb.freeList ∧ pdb.freeList < numPages ∧ ¬taken pdb.freeList ∧
    ∀ i, first ≤ i → i < pdb.freeList → taken i
  /-- The count is that of the pages in front of the list, if it has changed at all. -/
  count : pdb.numReserved = u16 pdb.freeList ∧ (pdb.freeList = first ∨ pdb.freeList < 2 ^ 16)
  /-- Every page on the list names the next one. -/
  links : ∀ i, first ≤ i → i < numPages → ¬taken i →
    LeastFrom (fun k => ¬taken k) numPages (i + 1) (pdb.nextFree i)
  /-- The kernel's pages name nothing. -/
  kernel : ∀ i < first, pdb.nextFree i = 0
  /-- A reserved page names nothing, or the page after it. -/
  stale : ∀ i, first ≤ i → i < numPages → taken i →
    pdb.nextFree i = 0 ∨ (pdb.nextFree i = i + 1 ∧ i + 1 < numPages)

/-- The database after the count has failed: the list is lost, or its first page can not be
reserved. -/
structure Broken (first numPages : ℕ) (pdb : PageDb) : Prop where
  numPages_eq : pdb.numPages = numPages
  first_pos : 0 < first
  kernel : ∀ i < first, pdb.flagsOf i = .reserved
  known : ∀ i < numPages, pdb.flagsOf i = .reserved ∨ pdb.flagsOf i = .free
  failure : Lost pdb ∨ (pdb.flagsOf first = .free ∧ pdb.numReserved < first ∧
    ∀ i < numPages, pdb.nextFree i ≠ first)

/-- What holds while `vm_boot_sync` goes through the tables. -/
def SyncAt (first numPages : ℕ) (taken : ℕ → Prop) (bound : ℕ) (pdb : PageDb) : Prop :=
  Ascending first numPages taken bound pdb ∨ (Full taken first ∧ Broken first numPages pdb)

section Reserving

variable {first numPages bound page : ℕ} {taken taken' : ℕ → Prop} {pdb pdb' : PageDb}

/-- A reservation fails its check only on a page that is in use. -/
theorem pageDbReservePage_isSome (pdb : PageDb) (page : ℕ)
    (h : page < pdb.numPages → pdb.flagsOf page = .reserved ∨ pdb.flagsOf page = .free) :
    ∃ pdb', pageDbReservePage pdb page = some pdb' := by
  unfold pageDbReservePage
  split_ifs with hrange hres hfree hnum
  · exact ⟨_, rfl⟩
  · exact ⟨_, rfl⟩
  · exact ⟨_, rfl⟩
  · split <;> exact ⟨_, rfl⟩
  · exact absurd (h (by omega)) (by simp [hres, hfree])

/-- A list head that is not taken rules out that the count has nothing to stop it. -/
theorem Ascending.not_full (h : Ascending first numPages taken bound pdb) : ¬Full taken first := by
  rintro ⟨hfirst, hall⟩
  obtain ⟨hle, -, hhead, -⟩ := h.head
  rcases h.count.2 with heq | hlt
  · exact hhead (heq ▸ hfirst)
  · exact hhead (hall _ hle hlt)

/-- A failed database stays failed. -/
theorem Broken.reservePage (h : Broken first numPages pdb)
    (hstep : pageDbReservePage pdb page = some pdb') : Broken first numPages pdb' := by
  have hpages := h.numPages_eq
  rcases pageDbReservePage_cases hstep with ⟨-, rfl⟩ | ⟨hlt, hfree, hcase⟩
  · exact h
  rcases hcase with ⟨hnum, rfl⟩ | ⟨-, pred, hpred, rfl⟩ | ⟨-, -, rfl⟩
  · -- the page behind the reserved ones is one of the kernel's
    have hlow : pdb.numReserved < first := by
      rcases h.failure with hlost | ⟨-, hlow, -⟩
      · rw [hlost.2]
        exact h.first_pos
      · exact hlow
    rw [hnum, h.kernel _ hlow] at hfree
    simp at hfree
  · obtain ⟨-, hpred_lt, hnext, -⟩ := hpred
    refine ⟨hpages, h.first_pos, fun i hi => ?_, fun i hi => ?_, ?_⟩
    · rw [PageDb.reserveAfter_flagsOf]
      by_cases heq : i = page
      · rw [heq, Function.update_self]
      · rw [Function.update_of_ne heq]
        exact h.kernel i hi
    · rw [PageDb.reserveAfter_flagsOf]
      by_cases heq : i = page
      · rw [heq, Function.update_self]
        exact Or.inl rfl
      · rw [Function.update_of_ne heq]
        exact h.known i hi
    · rcases h.failure with hlost | ⟨hfirst, hlow, hnames⟩
      · exact Or.inl hlost
      · right
        have hne : first ≠ page := by
          rintro rfl
          exact hnames pred (hpages ▸ hpred_lt) hnext
        refine ⟨?_, hlow, fun i hi => ?_⟩
        · rw [PageDb.reserveAfter_flagsOf, Function.update_of_ne hne, hfirst]
        · rw [PageDb.reserveAfter_nextFree]
          by_cases heq : i = pred
          · rw [heq, Function.update_self]
            exact hnames page (hpages ▸ hlt)
          · rw [Function.update_of_ne heq]
            exact hnames i hi
  · exact h

/-- Taking a page that does not belong to the list changes nothing. -/
theorem Ascending.take_outside (h : Ascending first numPages taken bound pdb)
    (hle : bound ≤ page) (hout : page < first ∨ numPages ≤ page) :
    Ascending first numPages (fun i => taken i ∨ i = page) (page + 1) pdb := by
  obtain ⟨hfirst, hlt, hhead, hbelow⟩ := h.head
  refine ⟨h.numPages_eq, h.first_pos, fun i hi => ?_, fun i hi hcase => ?_,
    fun i hi hfi hnot => h.free i hi hfi (fun ht => hnot (Or.inl ht)),
    ⟨hfirst, hlt, ?_, fun i hfi hi => Or.inl (hbelow i hfi hi)⟩, h.count,
    fun i hfi hi hnot => ?_, h.kernel, fun i hfi hi ht => ?_⟩
  · rcases hi with hi | rfl
    · have := h.taken_lt i hi
      omega
    · omega
  · apply h.reserved i hi
    rcases hcase with hlow | ht | heq
    · exact Or.inl hlow
    · exact Or.inr ht
    · omega
  · rintro (ht | heq)
    · exact hhead ht
    · omega
  · apply (h.links i hfi hi (fun ht => hnot (Or.inl ht))).congr
    intro k hk hkn
    have hne : k ≠ page := by omega
    simp [hne]
  · rcases ht with ht | heq
    · exact h.stale i hfi hi ht
    · omega

/-- Taking the first page of the list moves its head to the page after it. -/
theorem Ascending.reserveFirst (h : Ascending first numPages taken bound pdb)
    (hle : bound ≤ pdb.freeList) (hnum : pdb.numReserved = pdb.freeList)
    (hwrap : pdb.freeList + 1 < 2 ^ 16) (hroom : pdb.freeList + 1 < numPages) :
    Ascending first numPages (fun i => taken i ∨ i = pdb.freeList) (pdb.freeList + 1)
      (pdb.reserveFirst pdb.freeList) := by
  obtain ⟨hfirst, hlt, hhead, hbelow⟩ := h.head
  have hnew : u16 (pdb.numReserved + 1) = pdb.freeList + 1 := by
    rw [hnum, u16, Nat.mod_eq_of_lt hwrap]
  have htaken : ∀ i, taken i → i < pdb.freeList := by
    intro i hi
    have := h.taken_lt i hi
    omega
  refine ⟨h.numPages_eq, h.first_pos, fun i hi => ?_, fun i hi hcase => ?_,
    fun i hi hfi hnot => ?_, ?_, ?_, fun i hfi hi hnot => ?_, fun i hi => ?_,
    fun i hfi hi ht => ?_⟩
  · rcases hi with hi | rfl
    · have := htaken i hi
      omega
    · omega
  · rw [PageDb.reserveFirst_flagsOf]
    by_cases heq : i = pdb.freeList
    · rw [heq, Function.update_self]
    · rw [Function.update_of_ne heq]
      apply h.reserved i hi
      tauto
  · rw [not_or] at hnot
    rw [PageDb.reserveFirst_flagsOf, Function.update_of_ne hnot.2]
    exact h.free i hi hfi hnot.1
  · rw [PageDb.reserveFirst_freeList, hnew]
    refine ⟨by omega, hroom, ?_, fun i hfi hi => ?_⟩
    · rintro (ht | heq)
      · have := htaken _ ht
        omega
      · omega
    · rcases Nat.lt_or_ge i pdb.freeList with hi' | hi'
      · exact Or.inl (hbelow i hfi hi')
      · exact Or.inr (by omega)
  · rw [PageDb.reserveFirst_freeList, PageDb.reserveFirst_numReserved, hnew]
    refine ⟨?_, Or.inr hwrap⟩
    rw [u16, Nat.mod_eq_of_lt hwrap]
  · rw [not_or] at hnot
    -- the pages in front of the new head are taken
    have hgt : pdb.freeList < i := by
      by_contra hge
      exact hnot.1 (hbelow i hfi (by omega))
    rw [PageDb.reserveFirst_nextFree, Function.update_of_ne hnot.2]
    apply (h.links i hfi hi hnot.1).congr
    intro k hk hkn
    have hne : k ≠ pdb.freeList := by omega
    simp [hne]
  · rw [PageDb.reserveFirst_nextFree]
    by_cases heq : i = pdb.freeList
    · rw [heq, Function.update_self]
    · rw [Function.update_of_ne heq]
      exact h.kernel i hi
  · rw [PageDb.reserveFirst_nextFree]
    by_cases heq : i = pdb.freeList
    · rw [heq, Function.update_self]
      exact Or.inl rfl
    · rw [Function.update_of_ne heq]
      exact h.stale i hfi hi (ht.resolve_right heq)

/-- Every page is reserved or free. -/
theorem Ascending.known (h : Ascending first numPages taken bound pdb) (i : ℕ) (hi : i < numPages) :
    pdb.flagsOf i = .reserved ∨ pdb.flagsOf i = .free := by
  by_cases ht : i < first ∨ taken i
  · exact Or.inl (h.reserved i hi ht)
  · rw [not_or] at ht
    exact Or.inr (h.free i hi (by omega) ht.2)

/-- The count is at most the number of pages in front of the list. -/
theorem Ascending.numReserved_le (h : Ascending first numPages taken bound pdb) :
    pdb.numReserved ≤ pdb.freeList := by
  rw [h.count.1, u16]
  exact Nat.mod_le _ _

/-- The page before a later page of the list is the first one that names it. -/
theorem Ascending.firstNaming (h : Ascending first numPages taken bound pdb)
    (hle : bound ≤ page) (hlt : page < numPages) (hhead : pdb.freeList < page) :
    ∃ pred, FirstNaming pdb pred page ∧ first ≤ pred ∧ pred < page ∧ ¬taken pred ∧
      ∀ k, pred < k → k < page → taken k := by
  obtain ⟨hfirst, -, hnot, -⟩ := h.head
  have hpage : ¬taken page := by
    intro ht
    have := h.taken_lt page ht
    omega
  obtain ⟨pred, hlow, hhigh, hfree, habove⟩ :=
    exists_greatest_below (p := fun k => ¬taken k) hhead hnot
  have habove' : ∀ k, pred < k → k < page → taken k := by
    intro k hk hkp
    by_contra hcon
    exact habove k hk hkp hcon
  have hnum := h.numReserved_le
  refine ⟨pred, ⟨by omega, by rw [h.numPages_eq]; omega, ?_, fun i hi hip => ?_⟩, by omega, hhigh,
    hfree, habove'⟩
  · obtain ⟨hge, hle', hnext⟩ :=
      (h.links pred (by omega) (by omega) hfree).le (show pred + 1 ≤ page by omega) hlt hpage
    by_contra hne
    exact hnext (habove' _ (by omega) (by omega))
  · rcases Nat.lt_or_ge i first with hkernel | hfi
    · rw [h.kernel i hkernel]
      omega
    · by_cases ht : taken i
      · rcases h.stale i hfi (by omega) ht with hzero | hsucc <;> omega
      · have := (h.links i hfi (by omega) ht).le (show i + 1 ≤ pred by omega) (by omega) hfree
        omega

/-- Taking a later page of the list redirects the page before it. -/
theorem Ascending.reserveAfter (h : Ascending first numPages taken bound pdb)
    (hle : bound ≤ page) (hlt : page < numPages) (hhead : pdb.freeList < page) {pred : ℕ}
    (hpred : first ≤ pred ∧ pred < page ∧ ¬taken pred ∧ ∀ k, pred < k → k < page → taken k) :
    Ascending first numPages (fun i => taken i ∨ i = page) (page + 1)
      (pdb.reserveAfter pred page) := by
  obtain ⟨hfirst, -, hnot, hbelow⟩ := h.head
  obtain ⟨hpred_first, hpred_lt, hpred_free, hbetween⟩ := hpred
  have htaken : ∀ i, taken i → i < page := by
    intro i hi
    have := h.taken_lt i hi
    omega
  have hpage : ¬taken page := fun ht => by
    have := htaken page ht
    omega
  refine ⟨h.numPages_eq, h.first_pos, fun i hi => ?_, fun i hi hcase => ?_,
    fun i hi hfi hfree => ?_,
    ⟨hfirst, h.head.2.1, ?_, fun i hfi hi => Or.inl (hbelow i hfi hi)⟩, h.count,
    fun i hfi hi hfree => ?_, fun i hi => ?_, fun i hfi hi ht => ?_⟩
  · rcases hi with hi | rfl
    · have := htaken i hi
      omega
    · omega
  · rw [PageDb.reserveAfter_flagsOf]
    by_cases heq : i = page
    · rw [heq, Function.update_self]
    · rw [Function.update_of_ne heq]
      apply h.reserved i hi
      tauto
  · rw [not_or] at hfree
    rw [PageDb.reserveAfter_flagsOf, Function.update_of_ne hfree.2]
    exact h.free i hi hfi hfree.1
  · rintro (ht | heq)
    · exact hnot ht
    · rw [PageDb.reserveAfter_freeList] at heq
      omega
  · rw [not_or] at hfree
    rw [PageDb.reserveAfter_nextFree]
    by_cases heq : i = pred
    · -- behind the page that is redirected lies the rest of the list
      rw [heq, Function.update_self]
      apply LeastFrom.extend (c := page + 1) _ (by omega)
      · intro k hk hkp hcon
        rw [not_or] at hcon
        exact hcon.1 (hbetween k (by omega) (by omega))
      · apply (h.links page (by omega) hlt hpage).congr
        intro k hk hkn
        have hne : k ≠ page := by omega
        simp [hne]
    · rw [Function.update_of_ne heq]
      have hlink := h.links i hfi hi hfree.1
      rcases Nat.lt_or_ge page i with hgt | hge
      · apply hlink.congr
        intro k hk hkn
        have hne : k ≠ page := by omega
        simp [hne]
      · -- a page before the redirected one does not name the taken page
        have hip : i < pred := by
          by_contra hcon
          exact hfree.1 (hbetween i (by omega) (by omega))
        rcases hlink with ⟨hge', hlt', hnext, hskip⟩ | ⟨-, hnone⟩
        · have hnext_le : pdb.nextFree i ≤ pred := by
            by_contra hcon
            exact hskip pred (by omega) (by omega) hpred_free
          refine Or.inl ⟨hge', hlt', ?_, fun k hk hkn hcon => ?_⟩
          · rintro (ht | heq')
            · exact hnext ht
            · omega
          · exact hskip k hk hkn (fun ht => hcon (Or.inl ht))
        · exact absurd hpred_free (hnone pred (by omega) (by omega))
  · rw [PageDb.reserveAfter_nextFree, Function.update_of_ne (by omega)]
    exact h.kernel i hi
  · rw [PageDb.reserveAfter_nextFree, Function.update_of_ne]
    · by_cases heq : i = page
      · subst heq
        rcases h.links i hfi hi hpage with ⟨hge, hlt', -, hskip⟩ | ⟨hzero, -⟩
        · right
          have heq : pdb.nextFree i = i + 1 := by
            by_contra hne
            apply hskip (i + 1) (by omega) (by omega)
            intro ht'
            have := htaken _ ht'
            omega
          omega
        · exact Or.inl hzero
      · exact h.stale i hfi hi (ht.resolve_right heq)
    · rintro rfl
      rcases ht with ht | heq
      · exact hpred_free ht
      · omega

/-- Taking the last page that 16 bits can count takes the count and the list head to 0. -/
theorem Ascending.wraps (h : Ascending first numPages taken bound pdb)
    (hwrap : pdb.freeList + 1 = 2 ^ 16) :
    Full (fun i => taken i ∨ i = pdb.freeList) first ∧
      Broken first numPages (pdb.reserveFirst pdb.freeList) := by
  obtain ⟨hfirst, hlt, hhead, hbelow⟩ := h.head
  have hcount : pdb.numReserved = pdb.freeList := by
    rw [h.count.1, u16, Nat.mod_eq_of_lt (by omega)]
  have hzero : u16 (pdb.numReserved + 1) = 0 := by
    rw [hcount, hwrap, u16, Nat.mod_self]
  have hall : ∀ i, first ≤ i → i < 2 ^ 16 → taken i ∨ i = pdb.freeList := by
    intro i hfi hi
    rcases Nat.lt_or_ge i pdb.freeList with hi' | hi'
    · exact Or.inl (hbelow i hfi hi')
    · exact Or.inr (by omega)
  refine ⟨⟨hall first (le_refl _) (by omega), hall⟩, h.numPages_eq, h.first_pos, fun i hi => ?_,
    fun i hi => ?_, Or.inl ⟨hzero, hzero⟩⟩
  · rw [PageDb.reserveFirst_flagsOf]
    by_cases heq : i = pdb.freeList
    · rw [heq, Function.update_self]
    · rw [Function.update_of_ne heq]
      exact h.reserved i (by omega) (Or.inl hi)
  · rw [PageDb.reserveFirst_flagsOf]
    by_cases heq : i = pdb.freeList
    · rw [heq, Function.update_self]
      exact Or.inl rfl
    · rw [Function.update_of_ne heq]
      exact h.known i hi

/-- Nothing names the first page of the list. -/
theorem Ascending.nextFree_ne (h : Ascending first numPages taken bound pdb) (i : ℕ)
    (hi : i < numPages) : pdb.nextFree i ≠ first := by
  have hpos := h.first_pos
  rcases Nat.lt_or_ge i first with hkernel | hfi
  · rw [h.kernel i hkernel]
    omega
  · by_cases ht : taken i
    · rcases h.stale i hfi hi ht with hz | hs <;> omega
    · rcases h.links i hfi hi ht with ⟨hge, -⟩ | ⟨hz, -⟩ <;> omega

/-- Behind more pages than 16 bits can count, the first page of the list is not found. -/
theorem Ascending.stuck (h : Ascending first numPages taken bound pdb)
    (hwide : 2 ^ 16 ≤ pdb.freeList)
    (hstep : pageDbReservePage pdb pdb.freeList = some pdb') :
    Full (fun i => taken i ∨ i = pdb.freeList) first ∧ Broken first numPages pdb' := by
  obtain ⟨hfirst, hlt, hhead, hbelow⟩ := h.head
  have heq : pdb.freeList = first := h.count.2.resolve_right (by omega)
  have hcount : pdb.numReserved < 2 ^ 16 := by
    rw [h.count.1, u16]
    exact Nat.mod_lt _ (by decide)
  have hflag := h.free _ hlt hfirst hhead
  rw [heq] at hstep hflag ⊢
  have hpdb' : pdb' = pdb := by
    rcases pageDbReservePage_cases hstep with ⟨-, heq'⟩ | ⟨-, -, hcase⟩
    · exact heq'
    · rcases hcase with ⟨hnum, -⟩ | ⟨-, pred, hpred, -⟩ | ⟨-, -, heq'⟩
      · omega
      · have hpred_lt := hpred.2.1
        rw [h.numPages_eq] at hpred_lt
        exact absurd hpred.2.2.1 (h.nextFree_ne pred hpred_lt)
      · exact heq'
  rw [hpdb']
  exact ⟨⟨Or.inr rfl, fun i hfi hi => by omega⟩, h.numPages_eq, h.first_pos,
    fun i hi => h.reserved i (by omega) (Or.inl hi), h.known,
    Or.inr ⟨hflag, by omega, h.nextFree_ne⟩⟩

/-- Reserving the first page of the list. -/
theorem Ascending.reserve_head (h : Ascending first numPages taken bound pdb)
    (hle : bound ≤ pdb.freeList) (hroom : pdb.freeList + 1 < numPages)
    (hstep : pageDbReservePage pdb pdb.freeList = some pdb') :
    SyncAt first numPages (fun i => taken i ∨ i = pdb.freeList) (pdb.freeList + 1) pdb' := by
  obtain ⟨hfirst, hlt, hhead, -⟩ := h.head
  by_cases hwide : 2 ^ 16 ≤ pdb.freeList
  · exact Or.inr (h.stuck hwide hstep)
  have hcount : pdb.numReserved = pdb.freeList := by
    rw [h.count.1, u16, Nat.mod_eq_of_lt (by omega)]
  have hpdb' : pdb' = pdb.reserveFirst pdb.freeList := by
    have hflag := h.free _ hlt hfirst hhead
    rcases pageDbReservePage_cases hstep with ⟨hnoop | hres, -⟩ | ⟨-, -, hcase⟩
    · rw [h.numPages_eq] at hnoop
      omega
    · rw [hflag] at hres
      simp at hres
    · rcases hcase with ⟨-, heq⟩ | ⟨hne, -⟩ | ⟨hne, -⟩
      · exact heq
      · exact absurd hcount.symm hne
      · exact absurd hcount.symm hne
  rw [hpdb']
  by_cases hwrap : pdb.freeList + 1 < 2 ^ 16
  · exact Or.inl (h.reserveFirst hle hcount hwrap hroom)
  · exact Or.inr (h.wraps (by omega))

/-- Reserving a later page of the list. -/
theorem Ascending.reserve_later (h : Ascending first numPages taken bound pdb)
    (hle : bound ≤ page) (hlt : page < numPages) (hhead : pdb.freeList < page)
    (hstep : pageDbReservePage pdb page = some pdb') :
    SyncAt first numPages (fun i => taken i ∨ i = page) (page + 1) pdb' := by
  obtain ⟨pred, hpred, hfacts⟩ := h.firstNaming hle hlt hhead
  have hnum := h.numReserved_le
  have hpage : ¬taken page := by
    intro ht
    have := h.taken_lt page ht
    omega
  have hfirst := h.head.1
  have hflag := h.free page hlt (by omega) hpage
  have hpdb' : pdb' = pdb.reserveAfter pred page := by
    rcases pageDbReservePage_cases hstep with ⟨hnoop | hres, -⟩ | ⟨-, -, hcase⟩
    · rw [h.numPages_eq] at hnoop
      omega
    · rw [hflag] at hres
      simp at hres
    · rcases hcase with ⟨heq, -⟩ | ⟨-, pred', hpred', heq⟩ | ⟨-, hnone, -⟩
      · omega
      · rw [heq, hpred.unique hpred']
      · exact absurd hpred.2.2.1 (hnone pred hpred.1 hpred.2.1)
  rw [hpdb']
  exact Or.inl (h.reserveAfter hle hlt hhead hfacts)

/-- Reserving the next page in ascending order, if another page of the list is never taken. -/
theorem SyncAt.reserve_next (h : SyncAt first numPages taken bound pdb) (hle : bound ≤ page)
    (hspare : ∃ spare, first ≤ spare ∧ spare < numPages ∧ ¬taken spare ∧ spare ≠ page) :
    ∃ pdb', pageDbReservePage pdb page = some pdb' ∧
      SyncAt first numPages (fun i => taken i ∨ i = page) (page + 1) pdb' := by
  rcases h with h | ⟨hfull, h⟩
  · obtain ⟨pdb', hstep⟩ := pageDbReservePage_isSome pdb page
      (fun hlt => h.known page (h.numPages_eq ▸ hlt))
    refine ⟨pdb', hstep, ?_⟩
    by_cases hout : page < first ∨ numPages ≤ page
    · have hpdb' : pdb' = pdb := by
        rcases pageDbReservePage_cases hstep with ⟨-, heq⟩ | ⟨hlt, hfree, -⟩
        · exact heq
        · rw [h.numPages_eq] at hlt
          rw [h.reserved page hlt (Or.inl (by omega))] at hfree
          simp at hfree
      rw [hpdb']
      exact Or.inl (h.take_outside hle hout)
    rw [not_or] at hout
    obtain ⟨-, -, -, hbelow⟩ := h.head
    rcases Nat.lt_trichotomy page pdb.freeList with hbefore | rfl | hafter
    · have := h.taken_lt page (hbelow page (by omega) hbefore)
      omega
    · obtain ⟨spare, hspare_first, hspare_lt, hspare_free, hspare_ne⟩ := hspare
      have hgt : pdb.freeList < spare := by
        by_contra hcon
        exact hspare_free (hbelow spare hspare_first (by omega))
      exact h.reserve_head hle (by omega) hstep
    · exact h.reserve_later hle (by omega) hafter hstep
  · obtain ⟨pdb', hstep⟩ := pageDbReservePage_isSome pdb page
      (fun hlt => h.known page (h.numPages_eq ▸ hlt))
    refine ⟨pdb', hstep, Or.inr ⟨⟨Or.inl hfull.1, fun i hfi hi => Or.inl (hfull.2 i hfi hi)⟩,
      h.reservePage hstep⟩⟩

/-- Reserving a page again changes nothing. -/
theorem SyncAt.reserve_again (h : SyncAt first numPages taken bound pdb) (ht : taken page) :
    ∃ pdb', pageDbReservePage pdb page = some pdb' ∧
      SyncAt first numPages taken bound pdb' := by
  rcases h with h | ⟨hfull, h⟩
  · refine ⟨pdb, ?_, Or.inl h⟩
    unfold pageDbReservePage
    by_cases hge : pdb.numPages ≤ page
    · rw [if_pos hge]
    · rw [if_neg hge, if_pos]
      apply h.reserved page _ (Or.inr ht)
      rw [← h.numPages_eq]
      omega
  · obtain ⟨pdb', hstep⟩ := pageDbReservePage_isSome pdb page
      (fun hlt => h.known page (h.numPages_eq ▸ hlt))
    exact ⟨pdb', hstep, Or.inr ⟨hfull, h.reservePage hstep⟩⟩

/-- The invariant depends only on which pages are taken, and the bound may grow. -/
theorem SyncAt.congr {bound' : ℕ} (h : SyncAt first numPages taken bound pdb)
    (heq : ∀ i, taken' i ↔ taken i) (hle : bound ≤ bound') :
    SyncAt first numPages taken' bound' pdb := by
  obtain rfl : taken' = taken := funext fun i => propext (heq i)
  rcases h with h | h
  · left
    exact { h with
      taken_lt := fun i hi => lt_of_lt_of_le (h.taken_lt i hi) hle }
  · exact Or.inr h

/-- A freshly initialised database, before any page is taken. -/
theorem syncAt_pageDbInit {memorySize reservedSize : ℕ}
    (hpos : 0 < pageDbNumReserved reservedSize)
    (hlt : pageDbNumReserved reservedSize < pageDbNumPages memorySize)
    (hnone : ∀ i, ¬taken i) :
    SyncAt (pageDbNumReserved reservedSize) (pageDbNumPages memorySize) taken 0
      (pageDbInit pdb memorySize reservedSize) := by
  left
  refine ⟨rfl, hpos, fun i hi => absurd hi (hnone i), fun i hi hcase => ?_, fun i hi hfi _ => ?_,
    ⟨le_refl _, hlt, hnone _, fun i hfi hi => ?_⟩, ⟨rfl, Or.inl rfl⟩, fun i hfi hi _ => ?_,
    fun i hi => ?_, fun i _ _ ht => absurd ht (hnone i)⟩
  · rw [pageDbInit_flagsOf hlt hi, if_pos (hcase.resolve_right (hnone i))]
  · rw [pageDbInit_flagsOf hlt hi, if_neg (by omega)]
  · change i < pageDbNumReserved reservedSize at hi
    omega
  · rw [pageDbInit_nextFree hlt hi]
    by_cases hin : i + 1 < pageDbNumPages memorySize
    · rw [if_pos ⟨hfi, hin⟩]
      exact Or.inl ⟨le_refl _, hin, hnone _, fun k hk hki => by omega⟩
    · rw [if_neg (fun hcon => hin hcon.2)]
      exact Or.inr ⟨rfl, fun k hk hkn => by omega⟩
  · rw [pageDbInit_nextFree hlt (by omega), if_neg (by omega)]

end Reserving

section Visits

variable {vm : BootVm} {first numPages : ℕ} {pdb : PageDb}

/-- A mapped page is the page of its own position. -/
theorem IdentityOk.present_iff (h : IdentityOk vm) {page : ℕ} :
    Present vm page ↔ ∃ i < 256, ∃ j < 512, ∃ k < 512, page = dirPos i j k ∧
      (bootLookup vm i j k).isSome := by
  constructor
  · rintro ⟨i, hi, j, hj, k, hk, a, hlookup, rfl⟩
    rcases h.identity i hi j hj k hk a hlookup with ⟨hlow, rfl⟩ | ⟨rfl, rfl, rfl⟩
    · refine ⟨i, hlow, j, hj, k, hk, ?_, by rw [hlookup]; rfl⟩
      rw [Nat.shiftRight_eq_div_pow, page2mShift, Nat.mul_div_cancel _ (by decide), u32,
        Nat.mod_eq_of_lt]
      unfold dirPos
      omega
    · -- the second place of the shared directory
      refine ⟨0, by decide, 0, by decide, k, hk, ?_, ?_⟩
      · rw [Nat.shiftRight_eq_div_pow, page2mShift, Nat.mul_div_cancel _ (by decide), u32,
          Nat.mod_eq_of_lt (by omega)]
        unfold dirPos
        omega
      · rw [bootLookup, h.shared.2, ← h.shared.1] at hlookup
        rw [bootLookup, hlookup]
        rfl
  · rintro ⟨i, hi, j, hj, k, hk, rfl, hsome⟩
    obtain ⟨a, hlookup⟩ := Option.isSome_iff_exists.mp hsome
    refine ⟨i, by omega, j, hj, k, hk, a, hlookup, ?_⟩
    rcases h.identity i (by omega) j hj k hk a hlookup with ⟨-, rfl⟩ | ⟨rfl, -⟩
    · rw [Nat.shiftRight_eq_div_pow, page2mShift, Nat.mul_div_cancel _ (by decide), u32,
        Nat.mod_eq_of_lt]
      unfold dirPos
      omega
    · omega

/-- A position without a page, or in the upper half, is not that of a mapped page. -/
theorem IdentityOk.not_present (h : IdentityOk vm) {i j k : ℕ} (hj : j < 512) (hk : k < 512)
    (hnone : bootLookup vm i j k = none ∨ 256 ≤ i) : ¬Present vm (dirPos i j k) := by
  rw [h.present_iff]
  rintro ⟨i', hi', j', hj', k', hk', hpos, hsome⟩
  unfold dirPos at hpos
  obtain rfl : i = i' := by omega
  obtain rfl : j = j' := by omega
  obtain rfl : k = k' := by omega
  rcases hnone with hnone | hhigh
  · rw [hnone] at hsome
    simp at hsome
  · omega

/-- The pages that have been visited when the loops arrive at a position. -/
def VisitedBefore (vm : BootVm) (pos page : ℕ) : Prop := Present vm page ∧ page < pos

/-- Positions without a page are passed without a reservation. -/
theorem SyncAt.skip {pos pos' : ℕ}
    (h : SyncAt first numPages (VisitedBefore vm pos) pos pdb) (hle : pos ≤ pos')
    (hnone : ∀ page, pos ≤ page → page < pos' → ¬Present vm page) :
    SyncAt first numPages (VisitedBefore vm pos') pos' pdb := by
  apply h.congr _ hle
  intro page
  constructor
  · rintro ⟨hpresent, hlt⟩
    refine ⟨hpresent, ?_⟩
    by_contra hge
    exact hnone page (by omega) hlt hpresent
  · rintro ⟨hpresent, hlt⟩
    exact ⟨hpresent, by omega⟩

/-- The body of the loops: the page of a position is reserved. In the upper half it has been
reserved before. -/
theorem IdentityOk.visit (h : IdentityOk vm) {i j k a : ℕ} (hi : i < 512) (hj : j < 512)
    (hk : k < 512) (hlookup : bootLookup vm i j k = some a)
    (hspare : ∃ spare, first ≤ spare ∧ spare < numPages ∧ ¬Present vm spare)
    (hat : SyncAt first numPages (VisitedBefore vm (dirPos i j k)) (dirPos i j k) pdb) :
    ∃ pdb', pageDbReservePage pdb (u32 (a >>> page2mShift)) = some pdb' ∧
      SyncAt first numPages (VisitedBefore vm (dirPos i j k + 1)) (dirPos i j k + 1) pdb' := by
  have hpresent : Present vm (u32 (a >>> page2mShift)) := ⟨i, hi, j, hj, k, hk, a, hlookup, rfl⟩
  rcases h.identity i hi j hj k hk a hlookup with ⟨hlow, ha⟩ | ⟨rfl, rfl, ha⟩
  · have hpage : u32 (a >>> page2mShift) = dirPos i j k := by
      rw [ha, Nat.shiftRight_eq_div_pow, page2mShift, Nat.mul_div_cancel _ (by decide), u32,
        Nat.mod_eq_of_lt]
      unfold dirPos
      omega
    rw [hpage] at hpresent ⊢
    obtain ⟨spare, hfirst, hlt, hnot⟩ := hspare
    have hne : spare ≠ dirPos i j k := by
      rintro rfl
      exact hnot hpresent
    obtain ⟨pdb', hstep, hat'⟩ := hat.reserve_next (le_refl _)
      ⟨spare, hfirst, hlt, fun hvisited => hnot hvisited.1, hne⟩
    refine ⟨pdb', hstep, hat'.congr (fun page => ?_) (le_refl _)⟩
    constructor
    · rintro ⟨hp, hlt'⟩
      rcases Nat.lt_or_ge page (dirPos i j k) with hbefore | hge
      · exact Or.inl ⟨hp, hbefore⟩
      · exact Or.inr (by omega)
    · rintro (⟨hp, hlt'⟩ | rfl)
      · exact ⟨hp, by omega⟩
      · exact ⟨hpresent, by omega⟩
  · have hpage : u32 (a >>> page2mShift) = k := by
      rw [ha, Nat.shiftRight_eq_div_pow, page2mShift, Nat.mul_div_cancel _ (by decide), u32,
        Nat.mod_eq_of_lt (by omega)]
    rw [hpage] at hpresent ⊢
    have hbefore : k < dirPos 511 510 k := by
      unfold dirPos
      omega
    obtain ⟨pdb', hstep, hat'⟩ := hat.reserve_again ⟨hpresent, hbefore⟩
    refine ⟨pdb', hstep, hat'.skip (by omega) fun page hle hlt => ?_⟩
    obtain rfl : page = dirPos 511 510 k := by omega
    exact h.not_present hj hk (Or.inr (by decide))

/-- The innermost loop: one directory. -/
theorem IdentityOk.visit_dir (h : IdentityOk vm) {i j d : ℕ} (hi : i < 512) (hj : j < 512)
    (hdir : bootDir vm i j = some d)
    (hspare : ∃ spare, first ≤ spare ∧ spare < numPages ∧ ¬Present vm spare)
    (hat : SyncAt first numPages (VisitedBefore vm (dirPos i j 0)) (dirPos i j 0) pdb) :
    ∃ pdb', (List.range 512).foldlM (fun pdb k =>
        let ptEntry := vm.entry d k
        if ptEntry ≠ 0 then pageDbReservePage pdb (u32 (pdirAddr ptEntry >>> page2mShift))
        else some pdb) pdb = some pdb' ∧
      SyncAt first numPages (VisitedBefore vm (dirPos i (j + 1) 0)) (dirPos i (j + 1) 0) pdb' := by
  obtain ⟨halign, hlow, hhigh⟩ := h.tables.pd_addr i hi j hj d hdir
  rw [show dirPos i (j + 1) 0 = dirPos i j 512 by unfold dirPos; omega]
  apply foldlM_range_of_step
    (J := fun k pdb => SyncAt first numPages (VisitedBefore vm (dirPos i j k))
      (dirPos i j k) pdb) _ hat
  intro k hk pdb hat
  have hlookup : bootLookup vm i j k = bootNext vm d k := by
    rw [bootLookup, hdir, Option.bind_some]
  rw [h.clean.bootNext_eq halign (by omega) hhigh hk] at hlookup
  rw [show dirPos i j (k + 1) = dirPos i j k + 1 by unfold dirPos; omega]
  dsimp only
  by_cases hentry : vm.entry d k ≠ 0
  · rw [if_pos hentry] at hlookup ⊢
    exact h.visit hi hj hk hlookup hspare hat
  · rw [if_neg hentry] at hlookup ⊢
    refine ⟨pdb, rfl, hat.skip (by omega) fun page hle hlt => ?_⟩
    obtain rfl : page = dirPos i j k := by omega
    exact h.not_present hj hk (Or.inl hlookup)

/-- The middle loop: one second-level table. -/
theorem IdentityOk.visit_pdp (h : IdentityOk vm) {i t : ℕ} (hi : i < 512)
    (hpdp : bootNext vm bootPml4 i = some t)
    (hspare : ∃ spare, first ≤ spare ∧ spare < numPages ∧ ¬Present vm spare)
    (hat : SyncAt first numPages (VisitedBefore vm (dirPos i 0 0)) (dirPos i 0 0) pdb) :
    ∃ pdb', (List.range 512).foldlM (fun pdb j =>
        let pdEntry := vm.entry t j
        if pdEntry ≠ 0 then
          (List.range 512).foldlM (fun pdb k =>
            let ptEntry := vm.entry (pdirAddr pdEntry) k
            if ptEntry ≠ 0 then pageDbReservePage pdb (u32 (pdirAddr ptEntry >>> page2mShift))
            else some pdb) pdb
        else some pdb) pdb = some pdb' ∧
      SyncAt first numPages (VisitedBefore vm (dirPos (i + 1) 0 0)) (dirPos (i + 1) 0 0) pdb' := by
  obtain ⟨halign, hlow, hhigh⟩ := h.tables.pdp_addr i hi t hpdp
  rw [show dirPos (i + 1) 0 0 = dirPos i 512 0 by unfold dirPos; omega]
  apply foldlM_range_of_step
    (J := fun j pdb => SyncAt first numPages (VisitedBefore vm (dirPos i j 0))
      (dirPos i j 0) pdb) _ hat
  intro j hj pdb hat
  have hdir : bootDir vm i j = bootNext vm t j := by
    rw [bootDir, hpdp, Option.bind_some]
  rw [h.clean.bootNext_eq halign (by omega) hhigh hj] at hdir
  dsimp only
  by_cases hentry : vm.entry t j ≠ 0
  · rw [if_pos hentry] at hdir ⊢
    exact h.visit_dir hi hj hdir hspare hat
  · rw [if_neg hentry] at hdir ⊢
    refine ⟨pdb, rfl, hat.skip (by unfold dirPos; omega) fun page hle hlt => ?_⟩
    have hpos : page = dirPos i j (page - dirPos i j 0) := by
      unfold dirPos at hle hlt ⊢
      omega
    rw [hpos]
    apply h.not_present hj
    · unfold dirPos at hle hlt ⊢
      omega
    · rw [bootLookup, hdir]
      exact Or.inl rfl

/-- `vm_boot_sync` completes and reserves the mapped pages in ascending order. -/
theorem IdentityOk.vmBootSync_at (h : IdentityOk vm)
    (hspare : ∃ spare, first ≤ spare ∧ spare < numPages ∧ ¬Present vm spare)
    (hat : SyncAt first numPages (VisitedBefore vm 0) 0 pdb) :
    ∃ pdb', vmBootSync vm pdb = some pdb' ∧
      SyncAt first numPages (VisitedBefore vm (2 ^ 27)) (2 ^ 27) pdb' := by
  rw [show 2 ^ 27 = dirPos 512 0 0 by simp [dirPos]]
  apply foldlM_range_of_step
    (J := fun i pdb => SyncAt first numPages (VisitedBefore vm (dirPos i 0 0))
      (dirPos i 0 0) pdb) _ hat
  intro i hi pdb hat
  obtain ⟨hpool, hlow, -⟩ := h.tables.pool
  have hhigh : bootPml4 < vm.bootPage := lt_of_lt_of_le (by decide) hlow
  have hpdp := h.clean.bootNext_eq (t := bootPml4) (by decide) (le_refl _) hhigh hi
  dsimp only
  by_cases hentry : vm.entry bootPml4 i ≠ 0
  · rw [if_pos hentry] at hpdp ⊢
    exact h.visit_pdp hi hpdp hspare hat
  · rw [if_neg hentry] at hpdp ⊢
    refine ⟨pdb, rfl, hat.skip (by unfold dirPos; omega) fun page hle hlt => ?_⟩
    have hpos : page = dirPos i ((page - dirPos i 0 0) / 512) (page % 512) := by
      unfold dirPos at hle hlt ⊢
      omega
    rw [hpos]
    apply h.not_present
    · unfold dirPos at hle hlt ⊢
      omega
    · omega
    · rw [bootLookup, bootDir, hpdp]
      exact Or.inl rfl

end Visits

section Result

variable {vm : BootVm} {first numPages : ℕ} {pdb pdb' : PageDb}

/-- All mapped pages have been visited at the end. -/
theorem IdentityOk.visitedBefore_iff (h : IdentityOk vm) (page : ℕ) :
    Present vm page ↔ VisitedBefore vm (2 ^ 27) page := by
  refine ⟨fun hpresent => ⟨hpresent, ?_⟩, fun hvisited => hvisited.1⟩
  obtain ⟨i, hi, j, hj, k, hk, rfl, -⟩ := h.present_iff.mp hpresent
  unfold dirPos
  omega

/-- After all reservations the pages that are handed out are not taken. -/
theorem Ascending.goodRun {taken : ℕ → Prop} {bound : ℕ}
    (h : Ascending first numPages taken bound pdb) :
    GoodRun (fun page => ¬taken page) (.start pdb) := by
  have hpages := h.numPages_eq
  refine ⟨?_, fun i hi => ?_, fun i hi hfree ht => ?_, fun i hi => by simp [PageRun.start] at hi⟩
  · change pdb.freeList < pdb.numPages
    rw [hpages]
    exact h.head.2.1
  · change i < pdb.numPages at hi
    change pdb.nextFree i < pdb.numPages
    rw [hpages] at hi ⊢
    have hlt := h.head.2.1
    rcases Nat.lt_or_ge i first with hkernel | hfi
    · rw [h.kernel i hkernel]
      omega
    · by_cases ht : taken i
      · rcases h.stale i hfi hi ht with hzero | hsucc <;> omega
      · rcases h.links i hfi hi ht with ⟨-, hlt', -⟩ | ⟨hzero, -⟩ <;> omega
  · change i < pdb.numPages at hi
    change pdb.flagsOf i = .free at hfree
    rw [hpages] at hi
    rw [h.reserved i hi (Or.inr ht)] at hfree
    simp at hfree

/-- In ascending order, everything that is asked of `vm_boot_sync` holds. -/
theorem Ascending.syncCorrect {bound : ℕ}
    (h : Ascending first pdb.numPages (Present vm) bound pdb')
    (hsync : vmBootSync vm pdb = some pdb') : SyncCorrect vm pdb first := by
  obtain ⟨hfirst, hlt, hhead, hbelow⟩ := h.head
  refine ⟨pdb', hsync, fun page hpage hpresent => h.reserved page hpage (Or.inr hpresent), ?_,
    fun s index pdb'' hrun halloc hne => ?_⟩
  · apply exists_ascending_chain h.first_pos h.links
    left
    exact ⟨hfirst, hlt, hhead, fun k hk hklt hnot => hnot (hbelow k hk hklt)⟩
  · have hgood : GoodRun (fun page => ¬Present vm page) s :=
      hrun.invariant h.goodRun fun _ _ _ hs hguard hstep => hs.step hguard hstep
    exact hgood.alloc_good halloc hne

/-- A failed database is not what is asked of `vm_boot_sync`. -/
theorem Broken.not_syncCorrect (h : Broken first pdb.numPages pdb')
    (hsync : vmBootSync vm pdb = some pdb') (hfirst : Present vm first)
    (hspare : ∃ spare, first ≤ spare ∧ spare < pdb.numPages ∧ ¬Present vm spare) :
    ¬SyncCorrect vm pdb first := by
  rintro ⟨pdb₁, hsync₁, hreserved, ⟨free, hchain, -, hmem⟩, -⟩
  obtain rfl : pdb' = pdb₁ := Option.some.inj (hsync.symm.trans hsync₁)
  obtain ⟨spare, hle, hlt, hnot⟩ := hspare
  rcases h.failure with hlost | ⟨hfree, -, -⟩
  · -- the list is empty, but there is a page for it
    have hin := (hmem spare).mpr ⟨hle, hlt, hnot⟩
    cases free with
    | nil => simp at hin
    | cons page rest =>
      obtain ⟨hstart, hne, -⟩ := chain_cons_iff.mp hchain
      exact hne (hstart.symm.trans hlost.1)
  · rw [hreserved first (by omega) hfirst] at hfree
    simp at hfree

/-- With identity mappings and a page for the list, `vm_boot_sync` is correct exactly if the
mapped pages do not fill the count. -/
theorem IdentityOk.syncCorrect_iff (h : IdentityOk vm) (pdb : PageDb) {memorySize reservedSize : ℕ}
    (hpos : 1 ≤ pageDbNumReserved reservedSize)
    (hspare : ∃ spare, pageDbNumReserved reservedSize ≤ spare ∧
      spare < pageDbNumPages memorySize ∧ ¬Present vm spare) :
    SyncCorrect vm (pageDbInit pdb memorySize reservedSize) (pageDbNumReserved reservedSize) ↔
      ¬Full (Present vm) (pageDbNumReserved reservedSize) := by
  have hlt : pageDbNumReserved reservedSize < pageDbNumPages memorySize := by
    obtain ⟨spare, hle, hlt, -⟩ := hspare
    omega
  have hstart : SyncAt (pageDbNumReserved reservedSize) (pageDbNumPages memorySize)
      (VisitedBefore vm 0) 0 (pageDbInit pdb memorySize reservedSize) :=
    syncAt_pageDbInit hpos hlt fun i hi => Nat.not_lt_zero i hi.2
  obtain ⟨pdb', hsync, hat⟩ := h.vmBootSync_at hspare hstart
  rcases hat.congr h.visitedBefore_iff (le_refl _) with hasc | ⟨hfull, hbroken⟩
  · exact iff_of_true (hasc.syncCorrect hsync) hasc.not_full
  · exact iff_of_false (hbroken.not_syncCorrect hsync hfull.1 hspare) (not_not.mpr hfull)

/-- The count is stopped by an unmapped page: the first one, or one that 16 bits can count. -/
theorem not_full_iff {taken : ℕ → Prop} :
    ¬Full taken first ↔ ¬taken first ∨ ∃ page, first ≤ page ∧ page < 2 ^ 16 ∧ ¬taken page := by
  unfold Full
  rw [not_and_or]
  push Not
  rfl

/-- **Order of reservations.** Let the tables of `boot.S` be changed by identity mappings below
2^47 and by slack memory in the first gigabyte, and let the database be freshly
initialised, with a page that is neither reserved nor mapped. Then `vm_boot_sync` is correct if
and only if the page behind the reserved ones is not mapped, or some page between it and
2^16 is not. -/
theorem vmBootSync_correct_iff (info : BootInfo) (mem : ℕ → ℕ) {kernelEnd : ℕ}
    (hend : 0 < kernelEnd ∧ kernelEnd ≤ 2 ^ 30) {s : BootState}
    (hrun : Reaches BootState.step IdentityCall
      ⟨kernelInit info kernelEnd, bootTables mem kernelEnd⟩ s)
    (pdb : PageDb) {memorySize reservedSize : ℕ} (hpos : 1 ≤ pageDbNumReserved reservedSize)
    (hspare : ∃ spare, pageDbNumReserved reservedSize ≤ spare ∧
      spare < pageDbNumPages memorySize ∧ ¬Present s.vm spare) :
    SyncCorrect s.vm (pageDbInit pdb memorySize reservedSize) (pageDbNumReserved reservedSize) ↔
      ¬Present s.vm (pageDbNumReserved reservedSize) ∨
        ∃ page, pageDbNumReserved reservedSize ≤ page ∧ page < 2 ^ 16 ∧ ¬Present s.vm page := by
  rw [(bootStateOk_of_reaches hend.2 hrun).identity.syncCorrect_iff pdb hpos hspare, not_full_iff]

/-- Behind a kernel of 4MB in 16MB of memory, the pages 5 and 6 of the list are mapped. -/
theorem vmBootSync_correct_iff_16mb :
    ∃ s, Reaches BootState.step IdentityCall
        ⟨kernelInit ⟨0, 0, 0, [], 0⟩ 0x400000, bootTables (fun _ => 0) 0x400000⟩ s ∧
      Present s.vm 5 ∧ Present s.vm 6 ∧
      SyncCorrect s.vm (pageDbInit .blank 0x1000000 0x400000) 2 := by
  have hrun : (runOps BootState.step IdentityCall
      ⟨kernelInit ⟨0, 0, 0, [], 0⟩ 0x400000, bootTables (fun _ => 0) 0x400000⟩
      [.mapRange 0xA00000 0x400000]).map (fun s =>
        ((bootLookup s.vm 0 0 5).isSome, (bootLookup s.vm 0 0 6).isSome, bootLookup s.vm 0 0 2)) =
      some (true, true, none) := by decide +kernel
  obtain ⟨s, hs, hvalue⟩ := Option.map_eq_some_iff.mp hrun
  simp only [Prod.mk.injEq] at hvalue
  obtain ⟨hfive, hsix, hunmapped⟩ := hvalue
  have hreach := Reaches.of_runOps hs
  have hok := (bootStateOk_of_reaches (by decide) hreach).identity
  have htwo : ¬Present s.vm 2 :=
    hok.not_present (i := 0) (j := 0) (k := 2) (by decide) (by decide) (Or.inl hunmapped)
  have hpresent : Present s.vm 5 ∧ Present s.vm 6 :=
    ⟨hok.present_iff.mpr ⟨0, by decide, 0, by decide, 5, by decide, by simp [dirPos], hfive⟩,
      hok.present_iff.mpr ⟨0, by decide, 0, by decide, 6, by decide, by simp [dirPos], hsix⟩⟩
  have hreserved : pageDbNumReserved 0x400000 = 2 := by decide +kernel
  have hpages : 2 < pageDbNumPages 0x1000000 := by decide +kernel
  have hiff := vmBootSync_correct_iff ⟨0, 0, 0, [], 0⟩ (fun _ => 0)
    (show 0 < 0x400000 ∧ 0x400000 ≤ 2 ^ 30 by decide) hreach .blank
    (by rw [hreserved]; decide) ⟨2, by rw [hreserved], hpages, htwo⟩
  rw [hreserved] at hiff
  exact ⟨s, hreach, hpresent.1, hpresent.2, hiff.mpr (Or.inl htwo)⟩

/-- With 65535 reserved pages and the next page mapped, the 16-bit count wraps around and the
list is lost, although page 65536 is neither reserved nor mapped. -/
theorem vmBootSync_loses_list :
    ∃ s, Reaches BootState.step IdentityCall
        ⟨kernelInit ⟨0, 0, 0, [], 0⟩ 0x400000, bootTables (fun _ => 0) 0x400000⟩ s ∧
      pageDbNumReserved (65535 * 2 ^ 21) = 65535 ∧
      (∃ spare, 65535 ≤ spare ∧ spare < pageDbNumPages (65537 * 2 ^ 21) ∧ ¬Present s.vm spare) ∧
      ¬SyncCorrect s.vm (pageDbInit .blank (65537 * 2 ^ 21) (65535 * 2 ^ 21)) 65535 := by
  have hrun : (runOps BootState.step IdentityCall
      ⟨kernelInit ⟨0, 0, 0, [], 0⟩ 0x400000, bootTables (fun _ => 0) 0x400000⟩
      [.mapRange (65535 * 2 ^ 21) (2 ^ 21)]).map (fun s =>
        ((bootLookup s.vm 0 127 511).isSome, bootLookup s.vm 0 128 0)) =
      some (true, none) := by decide +kernel
  obtain ⟨s, hs, hvalue⟩ := Option.map_eq_some_iff.mp hrun
  obtain ⟨hmapped, hunmapped⟩ := Prod.mk.inj hvalue
  have hreach := Reaches.of_runOps hs
  have hok := (bootStateOk_of_reaches (by decide) hreach).identity
  have hreserved : pageDbNumReserved (65535 * 2 ^ 21) = 65535 := by decide +kernel
  have hpresent : Present s.vm 65535 :=
    hok.present_iff.mpr ⟨0, by decide, 127, by decide, 511, by decide, by simp [dirPos], hmapped⟩
  have hspare : ∃ spare, 65535 ≤ spare ∧ spare < pageDbNumPages (65537 * 2 ^ 21) ∧
      ¬Present s.vm spare := by
    refine ⟨65536, by decide, by decide +kernel, ?_⟩
    have hnot := hok.not_present (i := 0) (j := 128) (k := 0) (by decide) (by decide)
      (Or.inl hunmapped)
    rwa [show dirPos 0 128 0 = 65536 by simp [dirPos]] at hnot
  refine ⟨s, hreach, hreserved, hspare, ?_⟩
  have hiff := hok.syncCorrect_iff .blank (show 1 ≤ pageDbNumReserved (65535 * 2 ^ 21) by
    rw [hreserved]; decide) (by rw [hreserved]; exact hspare)
  rw [hreserved] at hiff
  rw [hiff, not_not]
  refine ⟨hpresent, fun page hle hlt => ?_⟩
  obtain rfl : page = 65535 := by omega
  exact hpresent

end Result

end Smor.Vm
