import Smor.Alloc.Supply
import Smor.Vm.HashMap

/-!
# The life of a page cache

`vm_cache_create` takes an object for the cache, and a chunk of the root for its hash table if
it is to have one. `vm_cache_delete` only returns the object: the code that would take the
pages out of the hash and free the table is switched off. A later cache may get the
same address, and then finds the pages of the old one.
-/

namespace Smor.Vm

open Smor.Lib Smor.Alloc

/-- `PAGE_CACHE_NO_HASH`. -/
def pageCacheNoHash : ℕ := 0x02

/-- The hash tables and caches, the fields `size` and `map_refcnt` of the caches, the slab lists,
and `sl_page_cache`. The remaining fields of a cache are null pointers at first and play no
part in its life. -/
structure VmCaches where
  vm : VmHash
  size : ℕ → ℕ
  mapRefcnt : ℕ → ℤ
  st : Slabs
  slPageCache : ℕ

namespace VmCaches

/-- The assignment to `cache->flags` and `cache->hash`. -/
def setCache (w : VmCaches) (cache : ℕ) (c : PageCache) : VmCaches :=
  { w with vm := { w.vm with caches := Function.update w.vm.caches cache c } }

/-- `page_cache_alloc`. -/
def pageCacheAlloc (w : VmCaches) : Option (ℕ × VmCaches) :=
  (w.st.slabListAlloc 2 w.slPageCache).map fun (cache, st) => (cache, { w with st := st })

/-- `kmalloc_alloc`. -/
def kmallocAlloc (w : VmCaches) : Option (ℕ × VmCaches) :=
  (w.st.slabListAlloc 2 slRoot).map fun (addr, st) => (addr, { w with st := st })

/-- `vm_cache_create`; `none` where it writes through a null pointer. -/
def vmCacheCreate (w : VmCaches) (size flags : ℕ) : Option (ℕ × VmCaches) :=
  w.pageCacheAlloc.bind fun (cache, w) =>
    if cache = 0 then none
    else
      let w := { w with
        size := Function.update w.size cache size
        mapRefcnt := Function.update w.mapRefcnt cache 0 }
      if flags &&& pageCache4kPages ≠ 0 ∧ flags &&& pageCacheNoHash = 0 then
        w.kmallocAlloc.bind fun (table, w) =>
          if table = 0 then none
          else some (cache, w.setCache cache ⟨⟨some fun _ => 0, kmallocChunkSize / 8⟩, flags⟩)
      else some (cache, w.setCache cache ⟨⟨none, 0⟩, flags⟩)

/-- `vm_cache_delete`. -/
def vmCacheDelete (w : VmCaches) (cache : ℕ) : Option VmCaches :=
  (w.st.slabListFree 2 w.slPageCache cache).map fun st => { w with st := st }

/-- `vm_cache_release`. -/
def vmCacheRelease (w : VmCaches) (cache : ℕ) : Option VmCaches :=
  let refcnt := i32 (w.mapRefcnt cache - 1)
  let w := { w with mapRefcnt := Function.update w.mapRefcnt cache refcnt }
  if refcnt ≤ 0 then w.vmCacheDelete cache else some w

end VmCaches

/-- Calls of `page_hash_insert`: the caches, offsets, and pages. -/
def pageHashInsertAll (vm : VmHash) : List (ℕ × ℕ × ℕ) → Option VmHash
  | [] => some vm
  | (cache, offset, page) :: calls =>
    (pageHashInsert vm cache offset page).bind fun vm => pageHashInsertAll vm calls

/-- The page is on the chain that starts with `head`. -/
inductive VmHash.InChain (vm : VmHash) : ℕ → ℕ → Prop
  | here {page : ℕ} (h : page ≠ 0) : InChain vm page page
  | next {head page : ℕ} (h : head ≠ 0) (hnext : InChain vm (vm.pages head).nextHash page) :
    InChain vm head page

namespace VmCaches

/-- The bucket arrays in use: those that all caches share, and those of the caches that are
allocated. -/
def InUse (w : VmCaches) : HashId → Prop
  | .global | .null => True
  | .ofCache cache => w.st.Allocated w.slPageCache cache

/-- The page is in a hash bucket. -/
def InHash (w : VmCaches) (page : ℕ) : Prop :=
  ∃ slot head, w.InUse slot.1 ∧ w.vm.bucket slot = some head ∧ w.vm.InChain head page

/-- The pages in the hash belong to caches that are allocated. -/
def Clean (w : VmCaches) : Prop :=
  ∀ page, w.InHash page → w.st.Allocated w.slPageCache (w.vm.pages page).cache

/-- Nothing is left of a cache: no page in the hash belongs to it, a cache that is created now
finds only pages that are inserted for it, and the allocated chunks are those before. -/
structure Gone (before after : VmCaches) (cache : ℕ) : Prop where
  hash : ∀ page, after.InHash page → (after.vm.pages page).cache ≠ cache
  later : ∀ size flags cache' w calls vm fuel offset page,
    after.vmCacheCreate size flags = some (cache', w) →
    pageHashInsertAll w.vm calls = some vm → pageHashFind fuel vm cache' offset = some page →
    page = 0 ∨ (cache', offset, page) ∈ calls
  slabs : ∀ l x, after.st.Allocated l x ↔ before.st.Allocated l x

end VmCaches

section Chains

variable {vm vm' : VmHash} {cache offset page head q : ℕ}

/-- The loop of `page_hash_find` only returns pages of the chain that carry the key. -/
theorem pageHashFindFrom_cases {fuel : ℕ}
    (h : pageHashFindFrom vm cache offset fuel head = some page) :
    page = 0 ∨ (vm.InChain head page ∧ (vm.pages page).cache = cache ∧
      (vm.pages page).cacheOffset = offset) := by
  induction fuel generalizing head with
  | zero => simp [pageHashFindFrom] at h
  | succ fuel ih =>
    rw [pageHashFindFrom] at h
    split_ifs at h with hnull hkey
    · exact Or.inl (Option.some.inj h).symm
    · obtain rfl := Option.some.inj h
      exact Or.inr ⟨.here hnull, hkey⟩
    · rcases ih h with hzero | ⟨hchain, hkey'⟩
      · exact Or.inl hzero
      · exact Or.inr ⟨.next hnull hchain, hkey'⟩

/-- All that `page_hash_insert` changes of another page is a link, which then leads to the new
page. -/
theorem pageHashInsert_other (h : pageHashInsert vm cache offset page = some vm') {q : ℕ}
    (hne : q ≠ page) :
    ∃ next, vm'.pages q = { vm.pages q with nextHash := next } ∧
      (next = page ∨ next = (vm.pages q).nextHash) := by
  obtain ⟨first, -, rfl⟩ := Option.map_eq_some_iff.mp h
  by_cases hfirst : first = 0
  · exact ⟨_, by simp [hfirst, hne, VmHash.setNextHash], Or.inr rfl⟩
  · by_cases hq : q = first
    · subst hq
      exact ⟨page, by simp [hfirst, hne, VmHash.setNextHash], Or.inl rfl⟩
    · exact ⟨_, by simp [hfirst, hq, hne, VmHash.setNextHash], Or.inr rfl⟩

/-- `page_hash_insert` keeps the keys of the other pages. -/
theorem pageHashInsert_key (h : pageHashInsert vm cache offset page = some vm') {q : ℕ}
    (hne : q ≠ page) :
    (vm'.pages q).cache = (vm.pages q).cache ∧
      (vm'.pages q).cacheOffset = (vm.pages q).cacheOffset := by
  obtain ⟨next, hpage, -⟩ := pageHashInsert_other h hne
  rw [hpage]
  exact ⟨rfl, rfl⟩

/-- The only link of another page that `page_hash_insert` sets leads to the new page. -/
theorem pageHashInsert_next (h : pageHashInsert vm cache offset page = some vm') (hne : q ≠ page) :
    (vm'.pages q).nextHash = page ∨ (vm'.pages q).nextHash = (vm.pages q).nextHash := by
  obtain ⟨next, hpage, hnext⟩ := pageHashInsert_other h hne
  rwa [hpage]

theorem VmHash.InChain.ne_zero (h : vm.InChain head page) : head ≠ 0 := by
  cases h with
  | here h => exact h
  | next h _ => exact h

/-- The new page is the last one of its chain. -/
theorem VmHash.InChain.eq_of_insert (hchain : vm'.InChain page q)
    (h : pageHashInsert vm cache offset page = some vm') : q = page := by
  obtain ⟨-, -, -, -, ⟨-, -, hend⟩, -⟩ := pageHashInsert_cases h
  cases hchain with
  | here _ => rfl
  | next _ hnext =>
    rw [hend] at hnext
    exact absurd rfl hnext.ne_zero

/-- `page_hash_insert` puts no other page on a chain. -/
theorem VmHash.InChain.of_insert (hchain : vm'.InChain head q)
    (h : pageHashInsert vm cache offset page = some vm') : q = page ∨ vm.InChain head q := by
  induction hchain with
  | here hne => exact Or.inr (.here hne)
  | @next head q hne hnext ih =>
    by_cases hhead : head = page
    · subst hhead
      exact Or.inl ((VmHash.InChain.next hne hnext).eq_of_insert h)
    · rcases pageHashInsert_next h hhead with hlink | hlink
      · rw [hlink] at hnext
        exact Or.inl (hnext.eq_of_insert h)
      · rcases ih with hq | hold
        · exact Or.inl hq
        · rw [hlink] at hold
          exact Or.inr (.next hne hold)

/-- What a sequence of insertions leaves in the buckets: the pages that were inserted, under
their keys, and pages that were there before. -/
theorem pageHashInsertAll_cases {calls : List (ℕ × ℕ × ℕ)}
    (h : pageHashInsertAll vm calls = some vm') :
    hashSlot vm' = hashSlot vm ∧
      ∀ slot head q, vm'.bucket slot = some head → vm'.InChain head q →
        ((vm'.pages q).cache, (vm'.pages q).cacheOffset, q) ∈ calls ∨
          ((∃ first, vm.bucket slot = some first ∧ vm.InChain first q) ∧
            (vm'.pages q).cache = (vm.pages q).cache ∧
            (vm'.pages q).cacheOffset = (vm.pages q).cacheOffset) := by
  induction calls generalizing vm with
  | nil =>
    obtain rfl := Option.some.inj h
    exact ⟨rfl, fun slot head q hbucket hchain => Or.inr ⟨⟨head, hbucket, hchain⟩, rfl, rfl⟩⟩
  | cons call calls ih =>
    obtain ⟨cache, offset, page⟩ := call
    obtain ⟨vm₁, hinsert, hrest⟩ := Option.bind_eq_some_iff.mp h
    obtain ⟨hslot, hcases⟩ := ih hrest
    obtain ⟨first, hfirst, hslot₁, hbucket₁, ⟨hcache, hoffset, -⟩, -⟩ :=
      pageHashInsert_cases hinsert
    refine ⟨hslot.trans hslot₁, fun slot head q hbucket hchain => ?_⟩
    rcases hcases slot head q hbucket hchain with hmem | ⟨⟨head₁, hhead₁, hchain₁⟩, hc, ho⟩
    · exact Or.inl (List.mem_cons_of_mem _ hmem)
    · by_cases hq : q = page
      · subst hq
        rw [hc, ho, hcache, hoffset]
        exact Or.inl List.mem_cons_self
      · obtain ⟨hkey, hkey'⟩ := pageHashInsert_key hinsert hq
        refine Or.inr ⟨?_, hc.trans hkey, ho.trans hkey'⟩
        rw [hbucket₁] at hhead₁
        split_ifs at hhead₁ with hs
        · rw [← Option.some.inj hhead₁] at hchain₁
          exact absurd (hchain₁.eq_of_insert hinsert) hq
        · exact ⟨head₁, hhead₁, (hchain₁.of_insert hinsert).resolve_left hq⟩

/-- After some insertions for a cache, the last page is the first one of its bucket. -/
theorem pageHashInsertAll_last {calls : List (ℕ × ℕ × ℕ)}
    (h : pageHashInsertAll vm calls = some vm') (hne : calls ≠ [])
    (hcalls : ∀ c ∈ calls, c.1 = cache ∧ c.2.2 ≠ 0) :
    ∃ offset page, page ≠ 0 ∧ vm'.bucket (hashSlot vm cache offset) = some page ∧
      (vm'.pages page).cache = cache := by
  induction calls generalizing vm with
  | nil => exact absurd rfl hne
  | cons call calls ih =>
    obtain ⟨cache', offset, page⟩ := call
    obtain ⟨hcache', hpage⟩ := hcalls _ List.mem_cons_self
    simp only at hcache' hpage
    subst hcache'
    obtain ⟨vm₁, hinsert, hrest⟩ := Option.bind_eq_some_iff.mp h
    obtain ⟨-, -, hslot, hbucket, ⟨hkey, -, -⟩, -⟩ := pageHashInsert_cases hinsert
    cases calls with
    | nil =>
      obtain rfl := Option.some.inj hrest
      refine ⟨offset, page, hpage, ?_, hkey⟩
      rw [hbucket, if_pos rfl]
    | cons call' calls' =>
      rw [← hslot]
      exact ih hrest (by simp) fun c hc => hcalls c (List.mem_cons_of_mem _ hc)

/-- The bucket array of a key is that of its cache, or one that all caches share. -/
theorem hashSlot_array (vm : VmHash) (cache offset : ℕ) :
    ((hashSlot vm cache offset).1 = .ofCache cache ∧ (vm.caches cache).hash.pages.isSome) ∨
      (hashSlot vm cache offset).1 = .global ∨ (hashSlot vm cache offset).1 = .null := by
  simp only [hashSlot, PageHash.arrayOr]
  split_ifs with hflags hsome hsome
  · exact Or.inl ⟨rfl, hsome⟩
  · exact Or.inr (Or.inr rfl)
  · exact Or.inr (Or.inl rfl)
  · exact Or.inr (Or.inr rfl)

/-- What all caches share is in use. -/
theorem VmCaches.inUse_shared {w : VmCaches} {id : HashId} (h : id = .global ∨ id = .null) :
    w.InUse id := by
  rcases h with rfl | rfl <;> exact trivial

end Chains

section Life

variable {w w₁ w₂ w₃ : VmCaches} {size flags cache : ℕ}

/-- The object of a cache that is created, and its table if it has one. -/
theorem vmCacheCreate_cases (h : w.vmCacheCreate size flags = some (cache, w₁)) :
    cache ≠ 0 ∧ w₁.slPageCache = w.slPageCache ∧ w₁.mapRefcnt cache = 0 ∧
      w₁.vm.pages = w.vm.pages ∧
      (w₁.vm.pageHash = w.vm.pageHash ∧ w₁.vm.nullPages = w.vm.nullPages) ∧
      (w₁.vm.caches cache).flags = flags ∧
      (∀ c ≠ cache, w₁.vm.caches c = w.vm.caches c) ∧
      ∃ st, w.st.slabListAlloc 2 w.slPageCache = some (cache, st) ∧
        ((flags &&& pageCache4kPages ≠ 0 ∧ flags &&& pageCacheNoHash = 0 ∧
            (w₁.vm.caches cache).hash.pages = some (fun _ => 0) ∧
            ∃ table ≠ 0, st.slabListAlloc 2 slRoot = some (table, w₁.st)) ∨
          (¬(flags &&& pageCache4kPages ≠ 0 ∧ flags &&& pageCacheNoHash = 0) ∧
            (w₁.vm.caches cache).hash.pages = none ∧ w₁.st = st)) := by
  obtain ⟨⟨cache', w'⟩, hobject, hrest⟩ := Option.bind_eq_some_iff.mp h
  obtain ⟨⟨cache'', st⟩, halloc, heq⟩ := Option.map_eq_some_iff.mp hobject
  obtain ⟨rfl, rfl⟩ := Prod.mk.inj heq
  simp only at hrest
  split_ifs at hrest with hnull htable
  · obtain ⟨⟨table, w'⟩, hmemory, hrest⟩ := Option.bind_eq_some_iff.mp hrest
    obtain ⟨⟨table', st'⟩, hchunk, heq⟩ := Option.map_eq_some_iff.mp hmemory
    obtain ⟨rfl, rfl⟩ := Prod.mk.inj heq
    simp only at hrest
    split_ifs at hrest with hzero
    obtain ⟨rfl, rfl⟩ := Prod.mk.inj (Option.some.inj hrest)
    refine ⟨hnull, rfl, ?_, rfl, ⟨rfl, rfl⟩, ?_, fun c hc => ?_, st, halloc, Or.inl ?_⟩
    · simp [VmCaches.setCache]
    · simp [VmCaches.setCache]
    · simp [VmCaches.setCache, hc]
    · exact ⟨htable.1, htable.2, by simp [VmCaches.setCache], table', hzero, hchunk⟩
  · obtain ⟨rfl, rfl⟩ := Prod.mk.inj (Option.some.inj hrest)
    refine ⟨hnull, rfl, ?_, rfl, ⟨rfl, rfl⟩, ?_, fun c hc => ?_, st, halloc, Or.inr ?_⟩
    · simp [VmCaches.setCache]
    · simp [VmCaches.setCache]
    · simp [VmCaches.setCache, hc]
    · exact ⟨htable, by simp [VmCaches.setCache], rfl⟩

/-- The buckets that are not empty were there before the cache was created. -/
theorem bucket_of_create (h : w.vmCacheCreate size flags = some (cache, w₁))
    {slot : HashId × ℕ} {head : ℕ} (hbucket : w₁.vm.bucket slot = some head) (hhead : head ≠ 0) :
    slot.1 ≠ .ofCache cache ∧ w.vm.bucket slot = some head := by
  obtain ⟨-, -, -, -, ⟨hglobal, hlow⟩, -, hothers, st, -, htable⟩ := vmCacheCreate_cases h
  obtain ⟨id, index⟩ := slot
  cases id with
  | global =>
    refine ⟨by simp, ?_⟩
    rwa [VmHash.bucket, hglobal] at hbucket
  | null =>
    refine ⟨by simp, ?_⟩
    rwa [VmHash.bucket, hlow] at hbucket
  | ofCache c =>
    by_cases hc : c = cache
    · subst hc
      rw [VmHash.bucket] at hbucket
      rcases htable with ⟨-, -, hpages, -⟩ | ⟨-, hpages, -⟩
      · simp only [hpages, Option.map_some, Option.some.injEq] at hbucket
        exact absurd hbucket.symm hhead
      · simp [hpages] at hbucket
    · refine ⟨by simpa using hc, ?_⟩
      rwa [VmHash.bucket, hothers c hc] at hbucket

/-- The chains depend on the descriptors only. -/
theorem VmHash.InChain.congr {vm vm' : VmHash} {head page : ℕ} (h : vm.InChain head page)
    (hpages : vm'.pages = vm.pages) : vm'.InChain head page := by
  induction h with
  | here hne => exact .here hne
  | next hne _ ih =>
    rw [← hpages] at ih
    exact .next hne ih

/-- `vm_cache_delete` and the `vm_cache_release` of a cache that is not mapped return the object. -/
theorem vmCacheDelete_cases (hrefcnt : w₂.mapRefcnt cache = 0)
    (h : w₂.vmCacheDelete cache = some w₃ ∨ w₂.vmCacheRelease cache = some w₃) :
    w₃.vm = w₂.vm ∧ w₃.slPageCache = w₂.slPageCache ∧
      w₂.st.slabListFree 2 w₂.slPageCache cache = some w₃.st := by
  rcases h with h | h
  · obtain ⟨st, hfree, rfl⟩ := Option.map_eq_some_iff.mp h
    exact ⟨rfl, rfl, hfree⟩
  · have hneg : i32 (w₂.mapRefcnt cache - 1) ≤ 0 := by
      rw [hrefcnt, i32_of_range (by omega) (by omega)]
      decide
    rw [VmCaches.vmCacheRelease] at h
    simp only [if_pos hneg] at h
    obtain ⟨st, hfree, rfl⟩ := Option.map_eq_some_iff.mp h
    exact ⟨rfl, rfl, hfree⟩

/-- A clean hash stays clean for a cache that is created, and for the calls that insert pages: what
the new cache finds was inserted for it. -/
theorem VmCaches.Clean.later (hclean : w.Clean)
    (hfresh : ∀ cache st, w.st.slabListAlloc 2 w.slPageCache = some (cache, st) → cache ≠ 0 →
      ¬w.st.Allocated w.slPageCache cache)
    (hcreate : w.vmCacheCreate size flags = some (cache, w₁)) {calls : List (ℕ × ℕ × ℕ)}
    {vm : VmHash} (hinsert : pageHashInsertAll w₁.vm calls = some vm) {fuel offset page : ℕ}
    (hfind : pageHashFind fuel vm cache offset = some page) :
    page = 0 ∨ (cache, offset, page) ∈ calls := by
  obtain ⟨hnull, -, -, hpages, -, -, -, st, halloc, -⟩ := vmCacheCreate_cases hcreate
  obtain ⟨head, hbucket, hfind⟩ := Option.bind_eq_some_iff.mp hfind
  rcases pageHashFindFrom_cases hfind with hzero | ⟨hchain, hcache, hoffset⟩
  · exact Or.inl hzero
  obtain ⟨hslot, hcases⟩ := pageHashInsertAll_cases hinsert
  rw [hslot] at hbucket
  rcases hcases _ head page hbucket hchain with hmem | ⟨⟨first, hfirst, hchain₁⟩, hkey, -⟩
  · rw [hcache, hoffset] at hmem
    exact Or.inr hmem
  · -- the page was there before the cache was created, and belongs to another cache
    obtain ⟨hne, hold⟩ := bucket_of_create hcreate hfirst hchain₁.ne_zero
    have hshared := (hashSlot_array w₁.vm cache offset).resolve_left fun hand => hne hand.1
    have hin : w.InHash page :=
      ⟨_, first, VmCaches.inUse_shared hshared, hold, hchain₁.congr hpages.symm⟩
    have hallocated := hclean page hin
    rw [← hpages, ← hkey, hcache] at hallocated
    exact absurd hallocated (hfresh cache st halloc hnull)

/-- After the life of a cache with some calls of `page_hash_insert`, nothing is left of it exactly
if it had no hash table of its own and no page was inserted. -/
theorem vmCacheDelete_gone_iff {r : ForestRun} {st : Slabs} {info : BootInfo} {vm : BootVm}
    (hnull : ∀ h, st.links.cell (.head h) = 0) (hslack : info.kernelSlack ≤ 2 ^ 31)
    (hrun : Reaches ForestRun.step (ForestRun.TwoLevel slRoot) (.start st info vm) r)
    (hst : w.st = r.st) (hlist : w.slPageCache ∈ r.lists) (hne : w.slPageCache ≠ slRoot)
    (hclean : w.Clean) (hcreate : w.vmCacheCreate size flags = some (cache, w₁))
    {calls : List (ℕ × ℕ)} (hpages : ∀ c ∈ calls, c.2 ≠ 0) {vm₂ : VmHash}
    (hinsert : pageHashInsertAll w₁.vm (calls.map fun c => (cache, c.1, c.2)) = some vm₂)
    (hw₂ : w₂ = { w₁ with vm := vm₂ })
    (hdelete : w₂.vmCacheDelete cache = some w₃ ∨ w₂.vmCacheRelease cache = some w₃) :
    w.Gone w₃ cache ↔
      ¬(flags &&& pageCache4kPages ≠ 0 ∧ flags &&& pageCacheNoHash = 0) ∧ calls = [] := by
  obtain ⟨geo, top, lay, out, hok⟩ := levelsOk_of_reaches hnull hslack hrun
  rw [← hst] at hok
  have howner : (w.st.list w.slPageCache).owner = some slRoot := by
    rw [hok.owner _ hlist, if_neg hne]
  obtain ⟨hroot, -, -, -⟩ := hok.forest.owner _ hlist _ howner
  obtain ⟨hcache, hsl, hrefcnt, hdescs, -, hflags, -, st₁, halloc, htable⟩ :=
    vmCacheCreate_cases hcreate
  have hrefcnt₂ : w₂.mapRefcnt cache = 0 := by rw [hw₂]; exact hrefcnt
  obtain ⟨hvm₃, hsl₃, hfree⟩ := vmCacheDelete_cases hrefcnt₂ hdelete
  simp only [hw₂, hsl] at hvm₃ hsl₃ hfree
  constructor
  · intro hgone
    rcases htable with ⟨-, -, -, table, hpos, hchunk⟩ | ⟨hflag, hplain, -⟩
    · -- the table is never freed
      obtain ⟨hafter, hbefore⟩ := hok.alloc_leak hlist hne hroot halloc hcache hchunk hpos hfree
      exact absurd ((hgone.slabs _ _).mp hafter) hbefore
    · refine ⟨hflag, ?_⟩
      by_contra hcalls
      have hkeys : ∀ c ∈ calls.map fun c => (cache, c.1, c.2), c.1 = cache ∧ c.2.2 ≠ 0 := by
        intro c hc
        obtain ⟨call, hcall, rfl⟩ := List.mem_map.mp hc
        exact ⟨rfl, hpages call hcall⟩
      -- the last page that was inserted is still in a bucket that all caches share
      obtain ⟨offset, page, hpage, hbucket, hkey⟩ := pageHashInsertAll_last hinsert
        (by simpa using hcalls) hkeys
      have hshared := (hashSlot_array w₁.vm cache offset).resolve_left (by simp [hplain])
      rw [← hvm₃] at hbucket hkey
      exact hgone.hash page
        ⟨_, page, VmCaches.inUse_shared hshared, hbucket, .here hpage⟩ hkey
  · rintro ⟨hflag, hcalls⟩
    -- nothing was inserted, and the object is all that was taken
    have hst₁ : w₁.st = st₁ := by
      rcases htable with ⟨h4k, hzero, -⟩ | ⟨-, -, hst₁⟩
      · exact absurd ⟨h4k, hzero⟩ hflag
      · exact hst₁
    subst hcalls
    obtain rfl : w₁.vm = vm₂ := Option.some.inj hinsert
    obtain ⟨⟨lay₃, out₃, hok₃⟩, hslabs⟩ := hok.alloc_free hlist halloc hcache (hst₁ ▸ hfree)
    have hin : ∀ page, w₃.InHash page → w.InHash page := by
      rintro page ⟨slot, head, huse, hbucket, hchain⟩
      rw [hvm₃] at hbucket hchain
      obtain ⟨hslot, hold⟩ := bucket_of_create hcreate hbucket hchain.ne_zero
      refine ⟨slot, head, ?_, hold, hchain.congr hdescs.symm⟩
      obtain ⟨id, index⟩ := slot
      cases id with
      | global | null => trivial
      | ofCache c =>
        simp only [VmCaches.InUse] at huse ⊢
        rwa [hsl₃, hslabs] at huse
    have hclean₃ : w₃.Clean := by
      intro page hpage
      rw [hsl₃, hslabs, hvm₃, hdescs]
      exact hclean page (hin page hpage)
    refine ⟨?_, ?_, hslabs⟩
    · intro page hpage hkey
      apply hok.not_allocated hlist hne halloc hcache
      rw [hvm₃, hdescs] at hkey
      rw [← hkey]
      exact hclean page (hin page hpage)
    · intro size' flags' cache' w' calls vm fuel offset page hcreate' hinsert' hfind
      refine hclean₃.later ?_ hcreate' hinsert' hfind
      intro x st' halloc' hpos
      rw [hsl₃] at halloc' ⊢
      exact hok₃.not_allocated hlist hne halloc' hpos

/-- Empty hash tables and slab lists set up as by `kmalloc_init` and `vm_cache_init`. -/
def VmCaches.fresh (st : Slabs) : VmCaches := ⟨.fourBuckets, fun _ => 0, fun _ => 0, st, slTable 2⟩

theorem VmCaches.fresh_ne_root (st : Slabs) : (VmCaches.fresh st).slPageCache ≠ slRoot := by
  simp [VmCaches.fresh, slTable, slRoot]

theorem VmCaches.fresh_clean (st : Slabs) : (VmCaches.fresh st).Clean := by
  rintro page ⟨⟨id, index⟩, head, -, hbucket, hchain⟩
  cases id with
  | global | ofCache =>
    exact absurd (VmHash.fourBuckets_empty _ head (by simp) hbucket) hchain.ne_zero
  | null => exact absurd (Option.some.inj hbucket).symm hchain.ne_zero

/-- The operations of `kmalloc_init` and of the `kmalloc_get_slab` in `vm_cache_init`. -/
def kmallocOps : List ForestOp :=
  [.init slRoot none page2mSize kmallocChunkSize, .reserve slRoot,
    .init (slTable 2) (some slRoot) kmallocChunkSize 64]

/-- A cache of 4K pages without a hash is released. -/
theorem vmCacheDelete_gone_noHash :
    ∃ (w w₁ w₃ : VmCaches) (cache : ℕ), w.vmCacheCreate 0x1000 3 = some (cache, w₁) ∧
      w₁.vmCacheRelease cache = some w₃ ∧ w.Gone w₃ cache := by
  have hall : ((runOps ForestRun.step (ForestRun.TwoLevel slRoot) .blank kmallocOps).bind fun r =>
      ((VmCaches.fresh r.st).vmCacheCreate 0x1000 3).bind fun y =>
        (y.2.vmCacheRelease y.1).map fun _ => (r.lists, y.1)) =
      some ([3, 0], 0xFFFFFFFF80204240) := by decide +kernel
  obtain ⟨r, hrun, hrest⟩ := Option.bind_eq_some_iff.mp hall
  obtain ⟨⟨cache, w₁⟩, hcreate, hrest⟩ := Option.bind_eq_some_iff.mp hrest
  obtain ⟨w₃, hrelease, heq⟩ := Option.map_eq_some_iff.mp hrest
  simp only [Prod.mk.injEq] at heq
  obtain ⟨hlists, -⟩ := heq
  have hcalls : ∀ c ∈ ([] : List (ℕ × ℕ)), c.2 ≠ 0 := by simp
  have hgone := vmCacheDelete_gone_iff (fun _ => rfl) (by decide) (Reaches.of_runOps hrun) rfl
    (hlists ▸ List.mem_cons_self) (VmCaches.fresh_ne_root r.st) (VmCaches.fresh_clean r.st)
    hcreate hcalls rfl rfl (Or.inr hrelease)
  have hflags : ¬(3 &&& pageCache4kPages ≠ 0 ∧ 3 &&& pageCacheNoHash = 0) ∧
    ([] : List (ℕ × ℕ)) = [] := by decide
  exact ⟨_, w₁, w₃, cache, hcreate, hrelease, hgone.mpr hflags⟩

/-- A page that is inserted for a cache of 2MB pages is still in the hash when the cache is gone. -/
theorem vmCacheDelete_leaves_page :
    ¬∀ (r : ForestRun) (w w₁ w₂ w₃ : VmCaches) (size flags cache : ℕ) (calls : List (ℕ × ℕ))
      (vm₂ : VmHash), Reaches ForestRun.step (ForestRun.TwoLevel slRoot) .blank r →
      w.st = r.st → w.slPageCache ∈ r.lists → w.slPageCache ≠ slRoot → w.Clean →
      w.vmCacheCreate size flags = some (cache, w₁) → (∀ c ∈ calls, c.2 ≠ 0) →
      pageHashInsertAll w₁.vm (calls.map fun c => (cache, c.1, c.2)) = some vm₂ →
      w₂ = { w₁ with vm := vm₂ } → w₂.vmCacheDelete cache = some w₃ → w.Gone w₃ cache := by
  intro hclaim
  have hall : ((runOps ForestRun.step (ForestRun.TwoLevel slRoot) .blank kmallocOps).bind fun r =>
      ((VmCaches.fresh r.st).vmCacheCreate 0x400000 0).bind fun y =>
        (pageHashInsertAll y.2.vm [(y.1, 0x200000, 0x100)]).bind fun vm₂ =>
          (VmCaches.vmCacheDelete { y.2 with vm := vm₂ } y.1).map fun w₃ =>
            (r.lists, w₃.vm.bucket (.global, 1), decide ((w₃.vm.pages 0x100).cache = y.1))) =
      some ([3, 0], some 0x100, true) := by decide +kernel
  obtain ⟨r, hrun, hrest⟩ := Option.bind_eq_some_iff.mp hall
  obtain ⟨⟨cache, w₁⟩, hcreate, hrest⟩ := Option.bind_eq_some_iff.mp hrest
  obtain ⟨vm₂, hinsert, hrest⟩ := Option.bind_eq_some_iff.mp hrest
  obtain ⟨w₃, hdelete, heq⟩ := Option.map_eq_some_iff.mp hrest
  simp only [Prod.mk.injEq, decide_eq_true_eq] at heq
  obtain ⟨hlists, hbucket, hkey⟩ := heq
  have hgone := hclaim r (VmCaches.fresh r.st) w₁ _ w₃ 0x400000 0 cache [(0x200000, 0x100)] vm₂
    (Reaches.of_runOps hrun) rfl (hlists ▸ List.mem_cons_self) (VmCaches.fresh_ne_root r.st)
    (VmCaches.fresh_clean r.st) hcreate (by simp) hinsert rfl hdelete
  exact hgone.hash 0x100 ⟨(.global, 1), 0x100, trivial, hbucket, .here (by decide)⟩ hkey

end Life

end Smor.Vm
