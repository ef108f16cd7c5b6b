import Smor.Lib.Cells
import Smor.Lib.Runs
import Smor.Vm.PageDb

/-!
# The lists of pages of the page caches

Every page cache has a list of its pages through `next_cache`. `prev_cache` is the address of the
pointer that refers to a page, so that `page_cache_remove` need not know the cache. This file
embeds `page_cache_insert` and `page_cache_remove` for all caches and pages at once and compares
them with the insertion and removal of a node in `Lib.Cells`.
-/

namespace Smor.Vm

open Smor.Lib

/-- The field `pages` of all page caches and the descriptors of all pages, by address. A cache that
does not exist has no pages. -/
structure CachePages where
  pages : ℕ → ℕ
  desc : ℕ → PageDesc

namespace CachePages

/-- The assignment `page->next_cache = next`. -/
def setNextCache (s : CachePages) (page next : ℕ) : CachePages :=
  { s with desc := Function.update s.desc page { s.desc page with nextCache := next } }

/-- The assignment `page->prev_cache = prev`. -/
def setPrevCache (s : CachePages) (page : ℕ) (prev : Option CacheCell) : CachePages :=
  { s with desc := Function.update s.desc page { s.desc page with prevCache := prev } }

/-- `*cell`. -/
def load (s : CachePages) : CacheCell → ℕ
  | .pages cache => s.pages cache
  | .nextCache page => (s.desc page).nextCache

/-- The assignment `*cell = page`. -/
def store (s : CachePages) (cell : CacheCell) (page : ℕ) : CachePages :=
  match cell with
  | .pages cache => { s with pages := Function.update s.pages cache page }
  | .nextCache prev => s.setNextCache prev page

end CachePages

/-- `page_cache_insert`. -/
def pageCacheInsert (s : CachePages) (cache page : ℕ) : CachePages :=
  let s :=
    if s.pages cache ≠ 0 then s.setPrevCache (s.pages cache) (some (.nextCache page)) else s
  let s := s.setNextCache page (s.pages cache)
  let s := s.setPrevCache page (some (.pages cache))
  { s with pages := Function.update s.pages cache page }

/-- `page_cache_remove`. -/
def pageCacheRemove (s : CachePages) (page : ℕ) : CachePages :=
  let s :=
    if (s.desc page).nextCache ≠ 0 then
      s.setPrevCache (s.desc page).nextCache (s.desc page).prevCache
    else s
  let s :=
    match (s.desc page).prevCache with
    | some cell => s.store cell (s.desc page).nextCache
    | none => s
  let s := s.setNextCache page 0
  s.setPrevCache page none

/-- A call of `page_cache_insert` or of `page_cache_remove`. -/
inductive CacheOp
  | insert (cache page : ℕ)
  | remove (page : ℕ)

/-- A call on the lists. -/
def CachePages.step (s : CachePages) : CacheOp → CachePages
  | .insert cache page => pageCacheInsert s cache page
  | .remove page => pageCacheRemove s page

/-- What a call is for: a page becomes the first one of its cache, or leaves the cache it is in. -/
def CacheOp.apply (contents : ℕ → List ℕ) : CacheOp → ℕ → List ℕ
  | .insert cache page => Function.update contents cache (page :: contents cache)
  | .remove page => fun cache => (contents cache).erase page

/-- A page that is inserted is in no list, and one that is removed is in some list. -/
def CacheOp.Allowed (contents : ℕ → List ℕ) : CacheOp → Prop
  | .insert _ page => page ≠ 0 ∧ ∀ cache, page ∉ contents cache
  | .remove page => ∃ cache, page ∈ contents cache

/-- The caches whose list a call is about. -/
def CacheOp.On (contents : ℕ → List ℕ) (cache : ℕ) : CacheOp → Prop
  | .insert cache' _ => cache = cache'
  | .remove page => page ∈ contents cache

/-- The pointers that may refer to a page of a list. -/
def CacheCell.Live (contents : ℕ → List ℕ) : CacheCell → Prop
  | .pages _ => True
  | .nextCache page => ∃ cache, page ∈ contents cache

/-- The lists hold these pages: every list ends in NULL, no page is in two lists, and the only
pointer that refers to a page is the one whose address the page has. -/
structure CacheListsOk (s : CachePages) (contents : ℕ → List ℕ) : Prop where
  chain : ∀ cache, Chain 0 (fun page => (s.desc page).nextCache) (s.pages cache) (contents cache)
  apart : ∀ cache cache' page, page ∈ contents cache → page ∈ contents cache' → cache = cache'
  prev : ∀ cache, ∀ page ∈ contents cache, ∃ cell, (s.desc page).prevCache = some cell ∧
    cell.Live contents ∧ s.load cell = page ∧
    ∀ cell' : CacheCell, cell'.Live contents → s.load cell' = page → cell' = cell

section Links

variable {s : CachePages} {contents : ℕ → List ℕ}

/-- The address of a pointer, as `Lib.Cells` has it. -/
def CacheCell.toCell : CacheCell → Cell ℕ ℕ
  | .pages cache => .head cache
  | .nextCache page => .next page

theorem CacheCell.toCell_injective : Function.Injective CacheCell.toCell := by
  rintro (c | p) (c' | p') heq <;> cases heq <;> rfl

theorem CacheCell.exists_toCell (c : Cell ℕ ℕ) : ∃ cell : CacheCell, cell.toCell = c := by
  cases c with
  | head cache => exact ⟨.pages cache, rfl⟩
  | next page => exact ⟨.nextCache page, rfl⟩

/-- The pointers of all lists. -/
def CachePages.links (s : CachePages) : Links ℕ ℕ where
  cell
    | .head cache => s.pages cache
    | .next page => (s.desc page).nextCache
  prev page := (s.desc page).prevCache.map CacheCell.toCell

theorem CachePages.load_eq (s : CachePages) (cell : CacheCell) :
    s.load cell = s.links.cell cell.toCell := by
  cases cell <;> rfl

theorem links_setNextCache (s : CachePages) (page next : ℕ) :
    (s.setNextCache page next).links =
      { s.links with cell := Function.update s.links.cell (.next page) next } := by
  refine congrArg₂ Links.mk (funext fun c => ?_) (funext fun x => ?_)
  · cases c with
    | head cache => rfl
    | next x =>
      by_cases h : x = page
      · simp [CachePages.setNextCache, h]
      · simp [CachePages.setNextCache, CachePages.links, h]
  · by_cases h : x = page <;> simp [CachePages.setNextCache, CachePages.links, h]

theorem links_setPrevCache (s : CachePages) (page : ℕ) (prev : Option CacheCell) :
    (s.setPrevCache page prev).links =
      { s.links with prev := Function.update s.links.prev page (prev.map CacheCell.toCell) } := by
  refine congrArg₂ Links.mk (funext fun c => ?_) (funext fun x => ?_)
  · cases c with
    | head cache => rfl
    | next x => by_cases h : x = page <;> simp [CachePages.setPrevCache, CachePages.links, h]
  · by_cases h : x = page
    · simp [CachePages.setPrevCache, h]
    · simp [CachePages.setPrevCache, CachePages.links, h]

theorem links_store (s : CachePages) (cell : CacheCell) (page : ℕ) :
    (s.store cell page).links =
      { s.links with cell := Function.update s.links.cell cell.toCell page } := by
  cases cell with
  | pages cache =>
    refine congrArg₂ Links.mk (funext fun c => ?_) rfl
    cases c with
    | head cache' =>
      by_cases h : cache' = cache <;>
        simp [CachePages.store, CacheCell.toCell, CachePages.links, h]
    | next x => rfl
  | nextCache prev => exact links_setNextCache s prev page

/-- `page_cache_insert` is the insertion of a node. -/
theorem links_pageCacheInsert (s : CachePages) (cache page : ℕ) :
    (pageCacheInsert s cache page).links = s.links.insert 0 cache page := by
  have hhead : s.links.cell (.head cache) = s.pages cache := rfl
  have hstore : ∀ t : CachePages,
      ({ t with pages := Function.update t.pages cache page } : CachePages) =
        t.store (.pages cache) page := fun t => rfl
  by_cases h : s.pages cache ≠ 0
  · simp only [pageCacheInsert, Links.insert, hhead, if_pos h]
    rw [hstore, links_store, links_setPrevCache, links_setNextCache, links_setPrevCache]
    rfl
  · simp only [pageCacheInsert, Links.insert, hhead, if_neg h]
    rw [hstore, links_store, links_setPrevCache, links_setNextCache]
    rfl

/-- `*page->prev_cache = next`, unless `prev_cache` is NULL. -/
theorem links_storePrev (s : CachePages) (page next : ℕ) :
    (match (s.desc page).prevCache with
      | some cell => s.store cell next
      | none => s).links =
      { s.links with
        cell := match s.links.prev page with
          | some c => Function.update s.links.cell c next
          | none => s.links.cell } := by
  have hprev : s.links.prev page = (s.desc page).prevCache.map CacheCell.toCell := rfl
  rw [hprev]
  cases (s.desc page).prevCache with
  | none => rfl
  | some cell => exact links_store s cell next

/-- `page_cache_remove` is the removal of a node. -/
theorem links_pageCacheRemove (s : CachePages) (page : ℕ) :
    (pageCacheRemove s page).links = s.links.remove 0 page := by
  have hnext : s.links.cell (.next page) = (s.desc page).nextCache := rfl
  have hprev : (s.desc page).prevCache.map CacheCell.toCell = s.links.prev page := rfl
  by_cases h : (s.desc page).nextCache ≠ 0
  · have hkeep := congrFun (congrArg Links.cell (links_setPrevCache s (s.desc page).nextCache
      (s.desc page).prevCache)) (.next page)
    change ((s.setPrevCache _ _).desc page).nextCache = (s.desc page).nextCache at hkeep
    simp only [pageCacheRemove, Links.remove, hnext, if_pos h]
    rw [links_setPrevCache, links_setNextCache, links_storePrev, hkeep, links_setPrevCache]
    rw [hprev]
    dsimp only
    cases Function.update s.links.prev (s.desc page).nextCache (s.links.prev page) page <;> rfl
  · simp only [pageCacheRemove, Links.remove, hnext, if_neg h]
    rw [links_setPrevCache, links_setNextCache, links_storePrev]
    dsimp only
    cases s.links.prev page <;> rfl

end Links

section Runs

variable {s : CachePages} {contents : ℕ → List ℕ} {op : CacheOp}

/-- What `Linked` says about the fields. -/
theorem cacheListsOk_of_linked (hl : Linked 0 s.links contents) : CacheListsOk s contents := by
  have hlive : ∀ cell : CacheCell, cell.Live contents → s.load cell ≠ 0 →
      s.links.prev (s.load cell) = some cell.toCell := by
    intro cell hcell hne
    rw [s.load_eq] at hne ⊢
    cases cell with
    | pages cache => exact (hl.threaded cache).prev_cell hne
    | nextCache page =>
      obtain ⟨cache, hpage⟩ := hcell
      obtain ⟨xs, ys, hsplit⟩ := List.append_of_mem hpage
      have hthread := hl.threaded cache
      rw [hsplit] at hthread
      exact hthread.after.prev_cell hne
  refine ⟨fun cache => (hl.threaded cache).chain, hl.unique, fun cache page hpage => ?_⟩
  obtain ⟨xs, ys, hsplit⟩ := List.append_of_mem hpage
  have hthread := hl.threaded cache
  rw [hsplit] at hthread
  obtain ⟨cell, hcell⟩ := CacheCell.exists_toCell (Links.pred (.head cache) xs)
  have hprev := hthread.prev_eq
  rw [← hcell] at hprev
  have hsome : (s.desc page).prevCache = some cell :=
    Option.map_injective CacheCell.toCell_injective hprev
  refine ⟨cell, hsome, ?_, ?_, fun cell' hcell' hload => ?_⟩
  · rcases Links.pred_mem (.head cache) xs with hpred | ⟨x, hx, hpred⟩
    · obtain rfl : cell = .pages cache := CacheCell.toCell_injective (hcell.trans hpred)
      exact trivial
    · obtain rfl : cell = .nextCache x := CacheCell.toCell_injective (hcell.trans hpred)
      exact ⟨cache, by rw [hsplit]; exact List.mem_append_left _ hx⟩
  · rw [s.load_eq, hcell]
    exact hthread.cell_pred
  · have hback := hlive cell' hcell' (hload ▸ hl.ne_null hpage)
    rw [hload, hprev, Option.some.injEq] at hback
    exact CacheCell.toCell_injective hback.symm

/-- A call that may be made does what it is for. -/
theorem linked_step (hl : Linked 0 s.links contents) (hop : op.Allowed contents) :
    Linked 0 (s.step op).links (op.apply contents) := by
  cases op with
  | insert cache page =>
    rw [CachePages.step, links_pageCacheInsert]
    exact hl.insert hop.1 hop.2 cache
  | remove page =>
    obtain ⟨cache, hpage⟩ := hop
    have herase : CacheOp.apply contents (.remove page) =
        Function.update contents cache ((contents cache).erase page) := by
      funext cache'
      by_cases heq : cache' = cache
      · subst heq
        rw [Function.update_self]
        rfl
      · rw [Function.update_of_ne heq]
        exact List.erase_of_not_mem fun hmem => heq (hl.unique cache' cache page hmem hpage)
    rw [CachePages.step, links_pageCacheRemove, herase]
    exact hl.remove hpage

theorem linked_foldl {ops : List CacheOp} (hl : Linked 0 s.links contents)
    (hops : AllSteps (fun contents op => some (CacheOp.apply contents op)) CacheOp.Allowed contents
      ops) :
    Linked 0 (ops.foldl CachePages.step s).links (ops.foldl CacheOp.apply contents) := by
  induction ops generalizing s contents with
  | nil => exact hl
  | cons op ops ih =>
    obtain ⟨hop, hrest⟩ := hops
    exact ih (linked_step hl hop) (hrest _ rfl)

theorem linked_empty (hempty : ∀ cache, s.pages cache = 0) : Linked 0 s.links fun _ => [] :=
  ⟨hempty, fun _ _ _ hmem => by cases hmem⟩

/-- A call leaves the other caches alone. -/
theorem apply_of_not_on {cache : ℕ} (hon : ¬ op.On contents cache) :
    op.apply contents cache = contents cache := by
  cases op with
  | insert cache' page => exact Function.update_of_ne hon _ _
  | remove page => exact List.erase_of_not_mem hon

/-- Whatever calls are made, starting without pages: the lists are as they should be, and a further
call changes no list but the one it is about. -/
theorem pageCaches_ok (s : CachePages) (hempty : ∀ cache, s.pages cache = 0) (ops : List CacheOp)
    (hops : AllSteps (fun contents op => some (CacheOp.apply contents op)) CacheOp.Allowed
      (fun _ => []) ops) :
    CacheListsOk (ops.foldl CachePages.step s) (ops.foldl CacheOp.apply fun _ => []) ∧
      ∀ op, op.Allowed (ops.foldl CacheOp.apply fun _ => []) →
        ∀ cache, ¬ op.On (ops.foldl CacheOp.apply fun _ => []) cache →
          ((ops ++ [op]).foldl CacheOp.apply fun _ => []) cache =
            (ops.foldl CacheOp.apply fun _ => []) cache ∧
          ((ops ++ [op]).foldl CachePages.step s).pages cache =
            (ops.foldl CachePages.step s).pages cache ∧
          ∀ page ∈ (ops.foldl CacheOp.apply fun _ => []) cache,
            (((ops ++ [op]).foldl CachePages.step s).desc page).nextCache =
              ((ops.foldl CachePages.step s).desc page).nextCache := by
  have hl := linked_foldl (linked_empty hempty) hops
  refine ⟨cacheListsOk_of_linked hl, fun op hop cache hon => ?_⟩
  have hsame := apply_of_not_on hon
  rw [List.foldl_append, List.foldl_append]
  have hchain := ((linked_step hl hop).threaded cache).chain
  rw [hsame] at hchain
  exact ⟨hsame, (hl.threaded cache).chain.links_eq hchain⟩

/-- Two caches; the page that is removed is the last of its list. -/
def fourCalls : List CacheOp := [.insert 1 64, .insert 1 128, .insert 2 192, .remove 64]

theorem pageCaches_ok_four :
    CacheListsOk (fourCalls.foldl CachePages.step ⟨fun _ => 0, fun _ => pageDescInit .free⟩)
        (fourCalls.foldl CacheOp.apply fun _ => []) ∧
      fourCalls.foldl CacheOp.apply (fun _ => []) 1 = [128] := by
  refine ⟨(pageCaches_ok _ (fun _ => rfl) fourCalls ?_).1, rfl⟩
  rw [fourCalls, allSteps_cons rfl, allSteps_cons rfl, allSteps_cons rfl, allSteps_cons rfl]
  refine ⟨?_, ?_, ?_, ⟨1, by decide⟩, trivial⟩
  · exact ⟨by decide, fun cache => List.not_mem_nil⟩
  · refine ⟨by decide, fun cache => ?_⟩
    by_cases h : cache = 1 <;> simp [CacheOp.apply, h]
  · refine ⟨by decide, fun cache => ?_⟩
    by_cases h : cache = 1 <;> simp [CacheOp.apply, h]

end Runs

end Smor.Vm
