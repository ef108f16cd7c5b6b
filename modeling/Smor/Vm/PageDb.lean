import Smor.Lib.Chain
import Smor.Types
import Mathlib.Data.List.Range
import Mathlib.Tactic.Common

/-!
# The page database

`vm_page.c` keeps one descriptor for every page of physical memory and threads the
free pages into a list through `next_free`, with page 0 as the end marker. This file
embeds the descriptors, the two initialisers, and `page_db_alloc` and `page_db_free`.
A failed `check` halts the kernel and is the result `none`.
-/

namespace Smor.Vm

open Smor.Lib

/-- The values of `page_desc_t.flags`: `PGF_FREE`, `PGF_USED`, and `PGF_RESERVED`. -/
inductive PageFlag
  | free
  | used
  | reserved
  deriving DecidableEq, Repr

/-- The pointer cells that `page_desc_t.prev_cache` can refer to: the `pages` field
of a page cache, or the `next_cache` field of another descriptor. -/
inductive CacheCell
  | pages (cache : ℕ)
  | nextCache (page : ℕ)
  deriving DecidableEq, Repr

/-- `struct page_desc_t`. Pointers are addresses, with `0` for `NULL`. -/
structure PageDesc where
  nextCache : ℕ
  prevCache : Option CacheCell
  nextHash : ℕ
  cache : ℕ
  cacheOffset : ℕ
  nextFree : ℕ
  flags : PageFlag
  vaddr : ℕ
  reserved : ℕ
  deriving DecidableEq, Repr

/-- `struct page_db_t`. The descriptor array is a function, so that an access beyond
`num_pages` reads whatever memory follows the array. -/
structure PageDb where
  pageIndex : ℕ
  numPages : ℕ
  numFree : ℕ
  freeList : ℕ
  lock : ℕ
  numReserved : ℕ
  flags : ℕ
  pages : ℕ → PageDesc

/-- `page_desc_init`. -/
def pageDescInit (flags : PageFlag) : PageDesc :=
  { nextCache := 0, prevCache := none, nextHash := 0, cache := 0, cacheOffset := 0,
    nextFree := 0, flags := flags, vaddr := 0, reserved := 0 }

/-- A free descriptor as `page_db_init_pages` leaves it: initialised, then linked. -/
def pageDescLinked (next : ℕ) : PageDesc := { pageDescInit .free with nextFree := next }

namespace PageDb

/-- The `flags` field of every descriptor. -/
def flagsOf (pdb : PageDb) (i : ℕ) : PageFlag := (pdb.pages i).flags

/-- The `next_free` field of every descriptor. -/
def nextFree (pdb : PageDb) (i : ℕ) : ℕ := (pdb.pages i).nextFree

/-- The assignment `pdb->pages[i].flags = f`. -/
def setFlags (pdb : PageDb) (i : ℕ) (f : PageFlag) : PageDb :=
  { pdb with pages := Function.update pdb.pages i { pdb.pages i with flags := f } }

/-- The assignment `pdb->pages[i].next_free = n`. -/
def setNextFree (pdb : PageDb) (i n : ℕ) : PageDb :=
  { pdb with pages := Function.update pdb.pages i { pdb.pages i with nextFree := n } }

/-- Writing one `flags` field changes that flag and nothing else. -/
@[simp] theorem flagsOf_setFlags (pdb : PageDb) (i : ℕ) (f : PageFlag) :
    (pdb.setFlags i f).flagsOf = Function.update pdb.flagsOf i f := by
  funext j
  by_cases h : j = i
  · subst h
    simp [setFlags, flagsOf]
  · simp [setFlags, flagsOf, h]

/-- Writing a `flags` field leaves every link alone. -/
@[simp] theorem nextFree_setFlags (pdb : PageDb) (i : ℕ) (f : PageFlag) :
    (pdb.setFlags i f).nextFree = pdb.nextFree := by
  funext j
  by_cases h : j = i
  · subst h
    simp [setFlags, nextFree]
  · simp [setFlags, nextFree, h]

/-- Writing a `next_free` field leaves every flag alone. -/
@[simp] theorem flagsOf_setNextFree (pdb : PageDb) (i n : ℕ) :
    (pdb.setNextFree i n).flagsOf = pdb.flagsOf := by
  funext j
  by_cases h : j = i
  · subst h
    simp [setNextFree, flagsOf]
  · simp [setNextFree, flagsOf, h]

/-- Writing one `next_free` field redirects that link and nothing else. -/
@[simp] theorem nextFree_setNextFree (pdb : PageDb) (i n : ℕ) :
    (pdb.setNextFree i n).nextFree = Function.update pdb.nextFree i n := by
  funext j
  by_cases h : j = i
  · subst h
    simp [setNextFree, nextFree]
  · simp [setNextFree, nextFree, h]

/-- The assignments of `page_db_alloc` when it takes `index` off the list. -/
def takeFirst (pdb : PageDb) (index : ℕ) : PageDb :=
  { pdb.setFlags index .used with
    freeList := pdb.nextFree index
    numFree := u32Pred pdb.numFree }

/-- The assignments of `page_db_free` when it puts `index` on the list. -/
def pushFree (pdb : PageDb) (index : ℕ) : PageDb :=
  { (pdb.setFlags index .free).setNextFree index pdb.freeList with
    freeList := index
    numFree := u32 (pdb.numFree + 1) }

/-- The assignments of `page_db_reserve_page` to the page that follows the reserved ones. -/
def reserveFirst (pdb : PageDb) (index : ℕ) : PageDb :=
  { (pdb.setFlags index .reserved).setNextFree index 0 with
    numReserved := u16 (pdb.numReserved + 1)
    freeList := u16 (pdb.numReserved + 1) }

/-- The assignments of `page_db_reserve_page` to a page that `pred` names. -/
def reserveAfter (pdb : PageDb) (pred index : ℕ) : PageDb :=
  (pdb.setNextFree pred (pdb.nextFree index)).setFlags index .reserved

section Fields

variable (pdb : PageDb) (pred index : ℕ)

@[simp] theorem takeFirst_flagsOf :
    (pdb.takeFirst index).flagsOf = Function.update pdb.flagsOf index .used :=
  pdb.flagsOf_setFlags index .used

@[simp] theorem takeFirst_nextFree : (pdb.takeFirst index).nextFree = pdb.nextFree :=
  pdb.nextFree_setFlags index .used

@[simp] theorem takeFirst_freeList : (pdb.takeFirst index).freeList = pdb.nextFree index := rfl

@[simp] theorem takeFirst_numFree :
    (pdb.takeFirst index).numFree = u32Pred pdb.numFree := rfl

@[simp] theorem takeFirst_numPages : (pdb.takeFirst index).numPages = pdb.numPages := rfl

@[simp] theorem takeFirst_numReserved : (pdb.takeFirst index).numReserved = pdb.numReserved := rfl

@[simp] theorem pushFree_flagsOf :
    (pdb.pushFree index).flagsOf = Function.update pdb.flagsOf index .free :=
  (flagsOf_setNextFree _ _ _).trans (pdb.flagsOf_setFlags index .free)

@[simp] theorem pushFree_nextFree :
    (pdb.pushFree index).nextFree = Function.update pdb.nextFree index pdb.freeList :=
  (nextFree_setNextFree _ _ _).trans (by rw [nextFree_setFlags])

@[simp] theorem pushFree_freeList : (pdb.pushFree index).freeList = index := rfl

@[simp] theorem pushFree_numFree : (pdb.pushFree index).numFree = u32 (pdb.numFree + 1) := rfl

@[simp] theorem pushFree_numPages : (pdb.pushFree index).numPages = pdb.numPages := rfl

@[simp] theorem pushFree_numReserved : (pdb.pushFree index).numReserved = pdb.numReserved := rfl

@[simp] theorem reserveFirst_flagsOf :
    (pdb.reserveFirst index).flagsOf = Function.update pdb.flagsOf index .reserved :=
  (flagsOf_setNextFree _ _ _).trans (pdb.flagsOf_setFlags index .reserved)

@[simp] theorem reserveFirst_nextFree :
    (pdb.reserveFirst index).nextFree = Function.update pdb.nextFree index 0 :=
  (nextFree_setNextFree _ _ _).trans (by rw [nextFree_setFlags])

@[simp] theorem reserveFirst_freeList :
    (pdb.reserveFirst index).freeList = u16 (pdb.numReserved + 1) := rfl

@[simp] theorem reserveFirst_numReserved :
    (pdb.reserveFirst index).numReserved = u16 (pdb.numReserved + 1) := rfl

@[simp] theorem reserveFirst_numPages : (pdb.reserveFirst index).numPages = pdb.numPages := rfl

@[simp] theorem reserveAfter_flagsOf :
    (pdb.reserveAfter pred index).flagsOf = Function.update pdb.flagsOf index .reserved :=
  (flagsOf_setFlags _ _ _).trans (by rw [flagsOf_setNextFree])

@[simp] theorem reserveAfter_nextFree :
    (pdb.reserveAfter pred index).nextFree =
      Function.update pdb.nextFree pred (pdb.nextFree index) :=
  (nextFree_setFlags _ _ _).trans (nextFree_setNextFree _ _ _)

@[simp] theorem reserveAfter_freeList : (pdb.reserveAfter pred index).freeList = pdb.freeList := rfl

@[simp] theorem reserveAfter_numReserved :
    (pdb.reserveAfter pred index).numReserved = pdb.numReserved := rfl

@[simp] theorem reserveAfter_numPages : (pdb.reserveAfter pred index).numPages = pdb.numPages := rfl

end Fields

end PageDb

/-- `page_db_init_pages`: two loops over the descriptors, and the last free page after them. -/
def pageDbInitPages (pdb : PageDb) (numPages numReserved : ℕ) : PageDb :=
  let reservedPages := (List.range numReserved).foldl
    (fun pages i => Function.update pages i (pageDescInit .reserved)) pdb.pages
  -- `num_pages-1` is computed in 32 bits
  let last := u32Pred numPages
  let freePages := (List.range' numReserved (last - numReserved)).foldl
    (fun pages i => Function.update pages i (pageDescLinked (u32 (i + 1)))) reservedPages
  -- the loop variable after the loop
  let i := max numReserved last
  { pdb with
    pages := Function.update freePages i (pageDescInit .free)
    freeList := numReserved }

/-- The number of reserved pages that `page_db_init` computes. -/
def pageDbNumReserved (reservedSize : ℕ) : ℕ := u32 (page2mNum reservedSize)

/-- The number of pages that `page_db_init` computes. -/
def pageDbNumPages (memorySize : ℕ) : ℕ := u32 (memorySize >>> page2mShift)

/-- The part of `page_db_init` and `page_db_init_4k` that fills the header. Only the
`num_reserved` field is narrowed to 16 bits; the descriptors use the full count. -/
def pageDbInitHeader (pdb : PageDb) (pageIndex numPages numReserved : ℕ) : PageDb :=
  { pdb with
    pageIndex := pageIndex
    numPages := numPages
    numFree := u32 (numPages + (2 ^ 32 - numReserved))
    numReserved := u16 numReserved
    flags := 0
    lock := 0 }

/-- `page_db_init`. The first argument is the memory the database is built in. -/
def pageDbInit (pdb : PageDb) (memorySize reservedSize : ℕ) : PageDb :=
  let numReserved := pageDbNumReserved reservedSize
  let numPages := pageDbNumPages memorySize
  pageDbInitPages (pageDbInitHeader pdb 0 numPages numReserved) numPages numReserved

/-- `sizeof(struct page_db_t)`: four `uint32_t`, a spinlock, and two `uint16_t`. -/
def sizeofPageDb : ℕ := 24

/-- `sizeof(struct page_desc_t)`. -/
def sizeofPageDesc : ℕ := 64

/-- The number of pages of a 4K database: those of one 2MB page. -/
def pageDb4kNumPages : ℕ := u32 (page2mSize >>> page4kShift)

/-- The number of 4K pages taken by the header and the descriptors themselves. -/
def pageDb4kNumReserved : ℕ :=
  u32 (page4kRound (sizeofPageDb + sizeofPageDesc * pageDb4kNumPages)) >>> page4kShift

/-- `page_db_init_4k`. -/
def pageDbInit4k (pdb : PageDb) (pageIndex : ℕ) : PageDb :=
  pageDbInitPages (pageDbInitHeader pdb pageIndex pageDb4kNumPages pageDb4kNumReserved)
    pageDb4kNumPages pageDb4kNumReserved

/-- `page_db_alloc`: the page index (0 if there is none) and the database afterwards. -/
def pageDbAlloc (pdb : PageDb) : Option (ℕ × PageDb) :=
  let index := pdb.freeList
  if 0 < index then
    if pdb.flagsOf index = .free then some (index, pdb.takeFirst index) else none
  else some (index, pdb)

/-- `page_db_free`. -/
def pageDbFree (pdb : PageDb) (index : ℕ) : Option PageDb :=
  if pdb.numReserved ≤ index ∧ index < pdb.numPages then
    if pdb.flagsOf index ≠ .free then some (pdb.pushFree index) else none
  else none

/-- `page_db_reserve_page`. The list head is moved when the page directly follows the
reserved pages; otherwise the page is unlinked from the first page that names it. -/
def pageDbReservePage (pdb : PageDb) (pageIndex : ℕ) : Option PageDb :=
  if pdb.numPages ≤ pageIndex then some pdb
  else if pdb.flagsOf pageIndex = .reserved then some pdb
  else if pdb.flagsOf pageIndex = .free then
    if pageIndex = pdb.numReserved then some (pdb.reserveFirst pageIndex)
    else
      match (List.range' pdb.numReserved (pdb.numPages - pdb.numReserved)).find?
          (fun i => pdb.nextFree i = pageIndex) with
      | some i => some (pdb.reserveAfter i pageIndex)
      | none => some pdb
  else none

/-- The page indices that `page_db_reserve_region` visits; the index is a `uint32_t`. -/
def pageDbRegionPages (addr size : ℕ) : List ℕ :=
  let pageIndex := u32 (addr >>> page2mShift)
  let numPages := u32 (page2mNum (u64 (size + addr % page2mSize)))
  (List.range numPages).map (fun i => u32 (pageIndex + i))

/-- `page_db_reserve_region`. -/
def pageDbReserveRegion (pdb : PageDb) (addr size : ℕ) : Option PageDb :=
  if pdb.numReserved ≤ u32 (addr >>> page2mShift) then
    (pageDbRegionPages addr size).foldlM pageDbReservePage pdb
  else none

end Smor.Vm
