import Smor.Vm.PageDb

/-!
# The page hash

`vm_cache.c` finds the page that holds an offset of a page cache through hash tables whose
buckets are chains of descriptors. Caches of 2MB pages share one global table; a cache of
4K pages has a table of its own, unless it was created without one; its bucket array then lies at
address 0, where low memory is still mapped. Loops over a bucket carry a step bound, and running
out of it is the result `none`.
-/

namespace Smor.Vm

/-- `struct page_hash_t`; the bucket array is absent when its pointer is `NULL`. -/
structure PageHash where
  pages : Option (ℕ → ℕ)
  size : ℕ

/-- The fields of `struct page_cache_t` that the hash functions read. -/
structure PageCache where
  hash : PageHash
  flags : ℕ

/-- `PAGE_CACHE_4K_PAGES`. -/
def pageCache4kPages : ℕ := 0x01

/-- The hash tables and what they refer to: the global table, the caches, and the page
descriptors, the latter two by address. `nullPages` are the words of low memory as the entries of a
bucket array at address 0. It is `none` for a word that is not mapped, or that holds something else
than the address of a page or `NULL`; an access to such a word is not followed further. -/
structure VmHash where
  pageHash : PageHash
  caches : ℕ → PageCache
  pages : ℕ → PageDesc
  nullPages : ℕ → Option ℕ

/-- A bucket array: that of the global table, that of a cache, or the one at address 0. -/
inductive HashId
  | global
  | ofCache (cache : ℕ)
  | null
  deriving DecidableEq, Repr

namespace VmHash

/-- The assignment `hash->pages[index] = page`. -/
def setBucket (vm : VmHash) (id : HashId) (index page : ℕ) : VmHash :=
  match id with
  | .global =>
    let table := vm.pageHash.pages.map fun pages => Function.update pages index page
    { vm with pageHash := { vm.pageHash with pages := table } }
  | .ofCache cache =>
    let hash := (vm.caches cache).hash
    let table := hash.pages.map fun pages => Function.update pages index page
    { vm with
      caches := Function.update vm.caches cache
        { vm.caches cache with hash := { hash with pages := table } } }
  | .null =>
    { vm with
      nullPages := Function.update vm.nullPages index ((vm.nullPages index).map fun _ => page) }

/-- The entry `hash->pages[index]`. -/
def bucket (vm : VmHash) : HashId × ℕ → Option ℕ
  | (.global, index) => vm.pageHash.pages.map fun pages => pages index
  | (.ofCache cache, index) => (vm.caches cache).hash.pages.map fun pages => pages index
  | (.null, index) => vm.nullPages index

/-- The assignment `page->next_hash = next`. -/
def setNextHash (vm : VmHash) (page next : ℕ) : VmHash :=
  { vm with pages := Function.update vm.pages page { vm.pages page with nextHash := next } }

end VmHash

/-- `hash_func`. -/
def hashFunc (vm : VmHash) (cache offset : ℕ) : ℕ :=
  u32 (u64 (cache + offset >>> page2mShift) &&& u32Pred vm.pageHash.size)

/-- `hash_func_local`. -/
def hashFuncLocal (vm : VmHash) (cache offset : ℕ) : ℕ :=
  u32 ((offset >>> page4kShift) &&& u32Pred (vm.caches cache).hash.size)

/-- The bucket array that `hash->pages` names, of the table with a given identity. -/
def PageHash.arrayOr (hash : PageHash) (id : HashId) : HashId :=
  if hash.pages.isSome then id else .null

/-- The bucket array and the bucket of a key, as each of the three functions selects them. -/
def hashSlot (vm : VmHash) (cache offset : ℕ) : HashId × ℕ :=
  if (vm.caches cache).flags &&& pageCache4kPages ≠ 0 then
    ((vm.caches cache).hash.arrayOr (.ofCache cache), hashFuncLocal vm cache offset)
  else (vm.pageHash.arrayOr .global, hashFunc vm cache offset)

/-- `page_hash_insert`. -/
def pageHashInsert (vm : VmHash) (cache offset page : ℕ) : Option VmHash :=
  let slot := hashSlot vm cache offset
  (vm.bucket slot).map fun hashPages =>
    let vm := if hashPages ≠ 0 then vm.setNextHash hashPages page else vm
    let vm := (vm.setNextHash page 0).setBucket slot.1 slot.2 page
    { vm with
      pages := Function.update vm.pages page
        { vm.pages page with cache := cache, cacheOffset := offset } }

/-- The loop of `page_hash_find`. -/
def pageHashFindFrom (vm : VmHash) (cache offset : ℕ) : ℕ → ℕ → Option ℕ
  | 0, _ => none
  | fuel + 1, page =>
    if page = 0 then some 0
    else if (vm.pages page).cache = cache ∧ (vm.pages page).cacheOffset = offset then some page
    else pageHashFindFrom vm cache offset fuel (vm.pages page).nextHash

/-- `page_hash_find`: the page, or 0 if there is none. -/
def pageHashFind (fuel : ℕ) (vm : VmHash) (cache offset : ℕ) : Option ℕ :=
  (vm.bucket (hashSlot vm cache offset)).bind fun hashPages =>
    pageHashFindFrom vm cache offset fuel hashPages

/-- The loop of `page_hash_remove`; `prev` is 0 at the first page of the bucket. -/
def pageHashRemoveFrom (vm : VmHash) (slot : HashId × ℕ) (pageDesc : ℕ) :
    ℕ → ℕ → ℕ → Option VmHash
  | 0, _, _ => none
  | fuel + 1, page, prev =>
    if page = 0 then some vm
    else if page = pageDesc then
      if prev ≠ 0 then some (vm.setNextHash prev (vm.pages page).nextHash)
      else some (vm.setBucket slot.1 slot.2 (vm.pages page).nextHash)
    else pageHashRemoveFrom vm slot pageDesc fuel (vm.pages page).nextHash page

/-- `page_hash_remove`. -/
def pageHashRemove (fuel : ℕ) (vm : VmHash) (cache offset pageDesc : ℕ) : Option VmHash :=
  let slot := hashSlot vm cache offset
  (vm.bucket slot).bind fun hashPages => pageHashRemoveFrom vm slot pageDesc fuel hashPages 0

end Smor.Vm
