import Smor.Lib.Runs
import Smor.Vm.Cache

/-!
# The page hash as a finite map

A page hash stands for the map from pairs of a cache and an offset to the page inserted under
them and not removed since. `page_hash_insert` links the new page behind the first
page of the bucket and then makes the new page the first one, so that everything that was
in the bucket can no longer be reached. The refinement therefore holds along a run exactly
as long as every insertion finds its bucket empty.
-/

namespace Smor.Vm

open Smor.Lib

/-- The map that a page hash implements: from a cache and an offset to a page. -/
abbrev PageMap := ℕ × ℕ → Option ℕ

/-- The calls a run of the page hash is made of. -/
inductive HashOp
  | insert (cache offset page : ℕ)
  | remove (cache offset page : ℕ)

/-- The hash tables together with the map their callers expect them to hold. -/
structure HashRun where
  vm : VmHash
  map : PageMap

/-- One call, with a bound on the steps of its loop. -/
def HashRun.step (fuel : ℕ) (s : HashRun) : HashOp → Option HashRun
  | .insert cache offset page => (pageHashInsert s.vm cache offset page).map fun vm =>
      ⟨vm, Function.update s.map (cache, offset) (some page)⟩
  | .remove cache offset page => (pageHashRemove fuel s.vm cache offset page).map fun vm =>
      ⟨vm, Function.update s.map (cache, offset) none⟩

/-- The table of a key exists. -/
def TableExists (vm : VmHash) (cache offset : ℕ) : Prop := (hashSlot vm cache offset).1 ≠ .null

instance (vm : VmHash) (cache offset : ℕ) : Decidable (TableExists vm cache offset) :=
  inferInstanceAs (Decidable (_ ≠ _))

/-- The obligations of a caller: a page is inserted when it is nowhere in the hash and its key
is not present, for a cache whose table exists, and a page is removed under the key that holds
it. -/
def HashCallerOk (s : HashRun) : HashOp → Prop
  | .insert cache offset page => page ≠ 0 ∧ s.map (cache, offset) = none ∧
      (∀ key, s.map key ≠ some page) ∧ TableExists s.vm cache offset
  | .remove cache offset page => s.map (cache, offset) = some page

/-- The bucket of a key is empty. -/
def BucketEmpty (vm : VmHash) (cache offset : ℕ) : Prop :=
  vm.bucket (hashSlot vm cache offset) = some 0

instance (vm : VmHash) (cache offset : ℕ) : Decidable (BucketEmpty vm cache offset) :=
  inferInstanceAs (Decidable (_ = _))

/-- The obligations of a caller who, besides, inserts only into empty buckets. -/
def HashCallerSparse (s : HashRun) : HashOp → Prop
  | .insert cache offset page => HashCallerOk s (.insert cache offset page) ∧
      BucketEmpty s.vm cache offset
  | .remove cache offset page => HashCallerOk s (.remove cache offset page)

/-- `page_hash_find` computes the map, on every cache whose table exists. -/
def HashRefines (s : HashRun) : Prop :=
  ∀ cache offset, TableExists s.vm cache offset →
    ∃ bound, ∀ fuel, bound ≤ fuel →
      pageHashFind fuel s.vm cache offset = some ((s.map (cache, offset)).getD 0)

/-- Every existing table is empty, as `vm_hash_init` and `vm_cache_create` leave it. -/
def HashEmpty (vm : VmHash) : Prop :=
  ∀ slot page, slot.1 ≠ .null → vm.bucket slot = some page → page = 0

section Fields

variable (vm : VmHash) (id : HashId) (index page next : ℕ)

@[simp] theorem VmHash.setBucket_pages : (vm.setBucket id index page).pages = vm.pages := by
  cases id <;> rfl

/-- Writing a bucket changes that bucket and nothing else. -/
theorem VmHash.bucket_setBucket (slot : HashId × ℕ) :
    (vm.setBucket id index page).bucket slot =
      if slot = (id, index) then (vm.bucket slot).map fun _ => page else vm.bucket slot := by
  obtain ⟨id', index'⟩ := slot
  by_cases hid : id' = id
  · subst hid
    by_cases hindex : index' = index
    · subst hindex
      cases id' <;> simp [bucket, setBucket, Function.comp_def]
    · cases id' <;> simp [bucket, setBucket, hindex, Function.comp_def]
  · have hne : (id', index') ≠ (id, index) := fun heq => hid (Prod.mk.inj heq).1
    rw [if_neg hne]
    cases id <;> cases id' <;> simp_all [bucket, setBucket]

/-- Writing a bucket leaves the flags of the caches alone. -/
theorem VmHash.flags_setBucket (cache : ℕ) :
    ((vm.setBucket id index page).caches cache).flags = (vm.caches cache).flags := by
  cases id with
  | global | null => rfl
  | ofCache cache' =>
    by_cases h : cache = cache'
    · subst h
      simp [VmHash.setBucket]
    · simp [VmHash.setBucket, h]

/-- Writing a bucket leaves the sizes of the tables alone, and whether they exist. -/
theorem VmHash.hash_setBucket (cache : ℕ) :
    ((vm.setBucket id index page).pageHash.size = vm.pageHash.size ∧
      (vm.setBucket id index page).pageHash.pages.isSome = vm.pageHash.pages.isSome) ∧
    ((vm.setBucket id index page).caches cache).hash.size = (vm.caches cache).hash.size ∧
      ((vm.setBucket id index page).caches cache).hash.pages.isSome =
        (vm.caches cache).hash.pages.isSome := by
  cases id with
  | global => simp [VmHash.setBucket]
  | null => simp [VmHash.setBucket]
  | ofCache cache' =>
    by_cases h : cache = cache'
    · subst h
      simp [VmHash.setBucket]
    · simp [VmHash.setBucket, h]

/-- Writing a bucket moves no key to another bucket. -/
@[simp] theorem hashSlot_setBucket :
    hashSlot (vm.setBucket id index page) = hashSlot vm := by
  funext cache offset
  obtain ⟨⟨hsize, hsome⟩, hsize', hsome'⟩ := vm.hash_setBucket id index page cache
  simp only [hashSlot, hashFunc, hashFuncLocal, PageHash.arrayOr, VmHash.flags_setBucket, hsize,
    hsome, hsize', hsome']

/-- A table that exists has every bucket. -/
theorem TableExists.bucket {vm : VmHash} {cache offset : ℕ} (h : TableExists vm cache offset) :
    ∃ first, vm.bucket (hashSlot vm cache offset) = some first := by
  unfold TableExists at h
  rw [hashSlot] at h ⊢
  split_ifs at h ⊢ with hflags
  all_goals
    rw [PageHash.arrayOr] at h ⊢
    split_ifs at h ⊢ with hsome
    · obtain ⟨pages, hpages⟩ := Option.isSome_iff_exists.mp hsome
      exact ⟨_, by rw [VmHash.bucket, hpages, Option.map_some]⟩
    · exact absurd rfl h

end Fields

/-- Everything `page_hash_insert` does: it needs the table of its key, the first page of the
bucket is now the inserted one, whose descriptor ends the bucket and names its key, and of
the other descriptors at most the old first one is touched. -/
theorem pageHashInsert_cases {vm vm' : VmHash} {cache offset page : ℕ}
    (h : pageHashInsert vm cache offset page = some vm') :
    ∃ first, vm.bucket (hashSlot vm cache offset) = some first ∧
      hashSlot vm' = hashSlot vm ∧
      (∀ slot, vm'.bucket slot =
        if slot = hashSlot vm cache offset then some page else vm.bucket slot) ∧
      ((vm'.pages page).cache = cache ∧ (vm'.pages page).cacheOffset = offset ∧
        (vm'.pages page).nextHash = 0) ∧
      ∀ other, other ≠ page → (first ≠ 0 → other ≠ first) →
        vm'.pages other = vm.pages other := by
  obtain ⟨first, hfirst, rfl⟩ := Option.map_eq_some_iff.mp h
  refine ⟨first, hfirst, ?_, fun slot => ?_, ?_, fun other hother hold => ?_⟩
  · change hashSlot (VmHash.setBucket _ _ _ _) = _
    rw [hashSlot_setBucket]
    split_ifs <;> rfl
  · change (VmHash.setBucket _ _ _ _).bucket slot = _
    have hkeep : ∀ slot, (VmHash.setNextHash (if first ≠ 0 then vm.setNextHash first page else vm)
        page 0).bucket slot = vm.bucket slot := by
      intro slot
      split_ifs <;> rfl
    rw [VmHash.bucket_setBucket, hkeep]
    by_cases hslot : slot = hashSlot vm cache offset
    · rw [hslot, hfirst]
      simp
    · simp [hslot]
  · simp [VmHash.setNextHash]
  · by_cases hzero : first = 0
    · simp [hzero, hother, VmHash.setNextHash]
    · simp [hzero, hother, hold hzero, VmHash.setNextHash]

/-- The invariant of runs that insert only into empty buckets: a mapped page is alone in the
bucket of its key and carries that key, and every nonempty bucket holds a mapped page. -/
structure SparseInv (s : HashRun) : Prop where
  stored : ∀ cache offset page, s.map (cache, offset) = some page →
    page ≠ 0 ∧ s.vm.bucket (hashSlot s.vm cache offset) = some page ∧
      (s.vm.pages page).cache = cache ∧ (s.vm.pages page).cacheOffset = offset ∧
      (s.vm.pages page).nextHash = 0
  mapped : ∀ slot page, slot.1 ≠ .null → s.vm.bucket slot = some page → page ≠ 0 →
    ∃ cache offset, hashSlot s.vm cache offset = slot ∧ s.map (cache, offset) = some page

namespace SparseInv

variable {s t : HashRun} {fuel cache offset page : ℕ}

/-- Under the invariant two steps of the loop are enough to find a page or to miss it. -/
theorem refines (h : SparseInv s) : HashRefines s := by
  intro cache offset htable
  obtain ⟨first, hfirst⟩ := htable.bucket
  refine ⟨2, fun fuel hfuel => ?_⟩
  obtain ⟨n, rfl⟩ : ∃ n, fuel = n + 2 := ⟨fuel - 2, by omega⟩
  rw [pageHashFind, hfirst, Option.bind_some]
  by_cases hzero : first = 0
  · have hnone : s.map (cache, offset) = none := by
      refine Option.eq_none_iff_forall_ne_some.mpr fun page hpage => ?_
      obtain ⟨hne, hbucket, _⟩ := h.stored cache offset page hpage
      rw [hfirst, hzero, Option.some.injEq] at hbucket
      exact hne hbucket.symm
    simp [pageHashFindFrom, hzero, hnone]
  · obtain ⟨cache', offset', hslot, hmap⟩ := h.mapped _ first htable hfirst hzero
    obtain ⟨_, _, hcache, hoffset, hnext⟩ := h.stored cache' offset' first hmap
    by_cases hkey : cache' = cache ∧ offset' = offset
    · obtain ⟨rfl, rfl⟩ := hkey
      simp [pageHashFindFrom, hzero, hcache, hoffset, hmap]
    · have hnone : s.map (cache, offset) = none := by
        refine Option.eq_none_iff_forall_ne_some.mpr fun page hpage => ?_
        obtain ⟨_, hbucket, hcache', hoffset', _⟩ := h.stored cache offset page hpage
        obtain rfl : first = page := by simpa [hfirst] using hbucket
        exact hkey ⟨hcache.symm.trans hcache', hoffset.symm.trans hoffset'⟩
      simp [pageHashFindFrom, hzero, hcache, hoffset, hnext, hkey, hnone]

/-- An insertion into an empty bucket keeps the invariant. -/
theorem insert (h : SparseInv s) (hok : HashCallerOk s (.insert cache offset page))
    (hempty : BucketEmpty s.vm cache offset)
    (hstep : s.step fuel (.insert cache offset page) = some t) : SparseInv t := by
  obtain ⟨hpage, hkey, hfresh, -⟩ := hok
  obtain ⟨vm, hvm, rfl⟩ := Option.map_eq_some_iff.mp hstep
  obtain ⟨first, hfirst, hslot, hbucket, hnew, hold⟩ := pageHashInsert_cases hvm
  obtain rfl : 0 = first := Option.some.inj (hempty.symm.trans hfirst)
  refine ⟨fun cache' offset' page' hmap => ?_, fun slot page' hid hpage' hne => ?_⟩
  · by_cases hsame : (cache', offset') = (cache, offset)
    · obtain ⟨rfl, rfl⟩ := Prod.mk.inj hsame
      obtain rfl : page = page' := by simpa using hmap
      exact ⟨hpage, by simp [hbucket, hslot], hnew⟩
    · dsimp only at hmap ⊢
      rw [Function.update_of_ne hsame] at hmap
      obtain ⟨hne, hb, hfields⟩ := h.stored cache' offset' page' hmap
      have hother : page' ≠ page := fun heq => hfresh _ (heq ▸ hmap)
      have hslots : hashSlot s.vm cache' offset' ≠ hashSlot s.vm cache offset := by
        intro heq
        rw [heq, hfirst, Option.some.injEq] at hb
        exact hne hb.symm
      refine ⟨hne, ?_, ?_⟩
      · rw [hslot, hbucket, if_neg hslots, hb]
      · rw [hold page' hother (by simp)]
        exact hfields
  · rw [hbucket] at hpage'
    by_cases hs : slot = hashSlot s.vm cache offset
    · rw [if_pos hs, Option.some.injEq] at hpage'
      exact ⟨cache, offset, by rw [hslot, hs], by simp [hpage']⟩
    · rw [if_neg hs] at hpage'
      obtain ⟨cache', offset', hslot', hmap⟩ := h.mapped slot page' hid hpage' hne
      refine ⟨cache', offset', by rw [hslot, hslot'], ?_⟩
      dsimp only
      rw [Function.update_of_ne, hmap]
      rintro heq
      simp [heq, hkey] at hmap

/-- Under the invariant a removal takes one step: it empties the bucket of its key. -/
theorem pageHashRemove_eq (h : SparseInv s) (hmap : s.map (cache, offset) = some page) :
    pageHashRemove (fuel + 1) s.vm cache offset page =
      some (s.vm.setBucket (hashSlot s.vm cache offset).1 (hashSlot s.vm cache offset).2 0) := by
  obtain ⟨hne, hbucket, _, _, hnext⟩ := h.stored cache offset page hmap
  simp [pageHashRemove, hbucket, pageHashRemoveFrom, hne, hnext]

/-- A removal keeps the invariant. -/
theorem remove (h : SparseInv s) (hmap : s.map (cache, offset) = some page)
    (hstep : s.step (fuel + 1) (.remove cache offset page) = some t) : SparseInv t := by
  obtain ⟨vm, hvm, rfl⟩ := Option.map_eq_some_iff.mp hstep
  rw [h.pageHashRemove_eq hmap, Option.some.injEq] at hvm
  subst hvm
  obtain ⟨_, hb, hcache, hoffset, _⟩ := h.stored cache offset page hmap
  have hbucket := s.vm.bucket_setBucket (hashSlot s.vm cache offset).1
    (hashSlot s.vm cache offset).2 0
  refine ⟨fun cache' offset' page' hmap' => ?_, fun slot page' hid hpage' hne => ?_⟩
  · dsimp only at hmap' ⊢
    have hother : (cache', offset') ≠ (cache, offset) := by
      intro heq
      simp [heq] at hmap'
    rw [Function.update_of_ne hother] at hmap'
    obtain ⟨hne, hb', hfields⟩ := h.stored cache' offset' page' hmap'
    refine ⟨hne, ?_, by simpa using hfields⟩
    rw [hashSlot_setBucket, hbucket, if_neg, hb']
    intro heq
    -- two mapped keys of one bucket would be carried by the same page
    rw [heq, hb, Option.some.injEq] at hb'
    subst hb'
    exact hother (by rw [← hcache, ← hoffset, hfields.1, hfields.2.1])
  · rw [hbucket] at hpage'
    split_ifs at hpage' with hs
    · obtain ⟨_, _, rfl⟩ := Option.map_eq_some_iff.mp hpage'
      exact absurd rfl hne
    · obtain ⟨cache', offset', hslot', hmap'⟩ := h.mapped slot page' hid hpage' hne
      refine ⟨cache', offset', by rw [hashSlot_setBucket, hslot'], ?_⟩
      dsimp only
      rw [Function.update_of_ne, hmap']
      rintro heq
      obtain ⟨rfl, rfl⟩ := Prod.mk.inj heq
      exact hs hslot'.symm

/-- An insertion into a bucket that holds a page makes that page unreachable: looking up its
key now finds the inserted page, which carries another key and ends the bucket. -/
theorem insert_hides (h : SparseInv s) (hok : HashCallerOk s (.insert cache offset page))
    (hfull : ¬BucketEmpty s.vm cache offset)
    (hstep : s.step fuel (.insert cache offset page) = some t) : ¬HashRefines t := by
  obtain ⟨hpage, hkey, _, htable⟩ := hok
  obtain ⟨vm, hvm, rfl⟩ := Option.map_eq_some_iff.mp hstep
  obtain ⟨first, hfirst, hslot, hbucket, ⟨hcache, hoffset, hnext⟩, _⟩ := pageHashInsert_cases hvm
  have hne : first ≠ 0 := by
    rintro rfl
    exact hfull hfirst
  obtain ⟨cache', offset', hslot', hmap⟩ := h.mapped _ first htable hfirst hne
  have hother : (cache', offset') ≠ (cache, offset) := by
    intro heq
    simp [heq, hkey] at hmap
  have hb : vm.bucket (hashSlot vm cache' offset') = some page := by
    rw [hslot, hbucket, if_pos hslot']
  intro hrefines
  have htable' : TableExists vm cache' offset' := by
    rw [TableExists, hslot, hslot']
    exact htable
  obtain ⟨bound, hfind⟩ := hrefines cache' offset' htable'
  have hfind := hfind (bound + 2) (by omega)
  have hmiss : ¬(cache = cache' ∧ offset = offset') := fun ⟨hc, ho⟩ => hother (by rw [hc, ho])
  simp [pageHashFind, hb, pageHashFindFrom, hpage, hcache, hoffset, hnext, hmiss,
    Function.update_of_ne hother, hmap, Ne.symm hne] at hfind

/-- Every call of a caller who inserts only into empty buckets completes. -/
theorem step_isSome {op : HashOp} (h : SparseInv s) (hok : HashCallerSparse s op) :
    (s.step (fuel + 1) op).isSome := by
  cases op with
  | insert cache offset page =>
    have hempty : s.vm.bucket (hashSlot s.vm cache offset) = some 0 := hok.2
    simp [HashRun.step, pageHashInsert, hempty]
  | remove cache offset page =>
    simp [HashRun.step, h.pageHashRemove_eq (show s.map (cache, offset) = some page from hok)]

end SparseInv

/-- Empty tables and the empty map satisfy the invariant. -/
theorem HashEmpty.sparseInv {vm : VmHash} (h : HashEmpty vm) : SparseInv ⟨vm, fun _ => none⟩ where
  stored := by simp
  mapped := fun slot page hid hpage hne => absurd (h slot page hid hpage) hne

/-- Every state of a run that inserts only into empty buckets satisfies the invariant. -/
theorem hash_run_inv {vm : VmHash} {fuel : ℕ} {s : HashRun} (hempty : HashEmpty vm)
    (hrun : Reaches (HashRun.step (fuel + 1)) HashCallerSparse ⟨vm, fun _ => none⟩ s) :
    SparseInv s := by
  refine hrun.invariant hempty.sparseInv ?_
  rintro s (⟨cache, offset, page⟩ | ⟨cache, offset, page⟩) t h hok hstep
  · exact h.insert hok.1 hok.2 hstep
  · exact h.remove hok hstep

/-- **The page hash as a map.** Starting from empty tables, along every run whose insertions find
their buckets empty all calls complete and `page_hash_find` computes the map; and from
any state of such a run an insertion keeps that only if its bucket is empty. -/
theorem pageHash_refines_iff {vm : VmHash} (fuel : ℕ) (hempty : HashEmpty vm) :
    (∀ s, Reaches (HashRun.step (fuel + 1)) HashCallerSparse ⟨vm, fun _ => none⟩ s →
      HashRefines s ∧ ∀ op, HashCallerSparse s op → (s.step (fuel + 1) op).isSome) ∧
    ∀ s t cache offset page,
      Reaches (HashRun.step (fuel + 1)) HashCallerSparse ⟨vm, fun _ => none⟩ s →
      HashCallerOk s (.insert cache offset page) →
      s.step (fuel + 1) (.insert cache offset page) = some t →
      (HashRefines t ↔ BucketEmpty s.vm cache offset) := by
  refine ⟨fun s hrun => ?_, fun s t cache offset page hrun hok hstep => ⟨fun hrefines => ?_,
    fun hbucket => ?_⟩⟩
  · have h := hash_run_inv hempty hrun
    exact ⟨h.refines, fun _ hok => h.step_isSome hok⟩
  · by_contra hfull
    exact (hash_run_inv hempty hrun).insert_hides hok hfull hstep hrefines
  · exact ((hash_run_inv hempty hrun).insert hok hbucket hstep).refines

/-- A global table of four empty buckets and caches of 2MB pages without tables of their own. -/
def VmHash.fourBuckets : VmHash :=
  { pageHash := { pages := some fun _ => 0, size := 4 }
    caches := fun _ => { hash := { pages := none, size := 0 }, flags := 0 }
    pages := fun _ => pageDescInit .used
    nullPages := fun _ => some 0 }

/-- The tables of `fourBuckets` are empty. -/
theorem VmHash.fourBuckets_empty : HashEmpty fourBuckets := by
  rintro ⟨_ | cache | _, index⟩ page hid h
  · simpa [bucket, fourBuckets, eq_comm] using h
  · simp [bucket, fourBuckets] at h
  · exact absurd rfl hid

/-- With four buckets, the offsets 0 and 8MB of one cache share a bucket. After inserting the page
at 0x100 under the first and the page at 0x200 under the second, the first is not found. -/
theorem pageHash_collision_loses_page :
    HashEmpty .fourBuckets ∧
    ¬∀ s, Reaches (HashRun.step 4) HashCallerOk ⟨.fourBuckets, fun _ => none⟩ s →
      HashRefines s := by
  refine ⟨VmHash.fourBuckets_empty, fun hall => ?_⟩
  have hslots : hashSlot .fourBuckets 0x1000 0x800000 = hashSlot .fourBuckets 0x1000 0 := by
    decide +kernel
  obtain ⟨vm, hvm⟩ : ∃ vm, pageHashInsert .fourBuckets 0x1000 0 0x100 = some vm := ⟨_, rfl⟩
  have hs : HashRun.step 4 ⟨.fourBuckets, fun _ => none⟩ (.insert 0x1000 0 0x100) =
      some ⟨vm, Function.update (fun _ => none) (0x1000, 0) (some 0x100)⟩ := by
    rw [HashRun.step, hvm, Option.map_some]
  have hsok : HashCallerOk ⟨.fourBuckets, fun _ => none⟩ (.insert 0x1000 0 0x100) :=
    ⟨by decide, rfl, by simp, by decide +kernel⟩
  have hinv := VmHash.fourBuckets_empty.sparseInv.insert hsok (by decide +kernel) hs
  obtain ⟨_, _, hslot, hbucket, _⟩ := pageHashInsert_cases hvm
  have hfirst : vm.bucket (hashSlot vm 0x1000 0x800000) = some 0x100 := by
    rw [hslot, hbucket, if_pos hslots]
  have htok : HashCallerOk ⟨vm, Function.update (fun _ => none) (0x1000, 0) (some 0x100)⟩
      (.insert 0x1000 0x800000 0x200) := by
    refine ⟨by decide, by simp, fun key => ?_, ?_⟩
    · by_cases hkey : key = (0x1000, 0)
      · simp [hkey]
      · simp [hkey]
    · rw [TableExists, hslot, hslots]
      decide +kernel
  obtain ⟨t, ht⟩ : ∃ t, HashRun.step 4
      ⟨vm, Function.update (fun _ => none) (0x1000, 0) (some 0x100)⟩
      (.insert 0x1000 0x800000 0x200) = some t := by
    simp [HashRun.step, pageHashInsert, hfirst]
  refine hinv.insert_hides htok ?_ ht (hall t (((Reaches.refl _).tail hsok hs).tail htok ht))
  simp [BucketEmpty, hfirst]

/-- On the four empty buckets, two pages are inserted, and the first is removed. -/
theorem pageHash_refines_fourBuckets :
    ∃ s, Reaches (HashRun.step 4) HashCallerSparse ⟨.fourBuckets, fun _ => none⟩ s ∧
      s.map (0x1000, 0) = none ∧ s.map (0x1000, 0x200000) = some 0x200 ∧ HashRefines s := by
  have hall := (pageHash_refines_iff 3 VmHash.fourBuckets_empty).1
  obtain ⟨vm, hvm⟩ : ∃ vm, pageHashInsert .fourBuckets 0x1000 0 0x100 = some vm := ⟨_, rfl⟩
  obtain ⟨_, _, hslot, hbucket, _⟩ := pageHashInsert_cases hvm
  have hfirst : HashCallerSparse ⟨.fourBuckets, fun _ => none⟩ (.insert 0x1000 0 0x100) :=
    ⟨⟨by decide, rfl, by simp, by decide +kernel⟩, by decide +kernel⟩
  have hrun₁ : Reaches (HashRun.step 4) HashCallerSparse ⟨.fourBuckets, fun _ => none⟩
      ⟨vm, Function.update (fun _ => none) (0x1000, 0) (some 0x100)⟩ :=
    (Reaches.refl _).tail hfirst (by rw [HashRun.step, hvm, Option.map_some])
  have hsecond : HashCallerSparse ⟨vm, Function.update (fun _ => none) (0x1000, 0) (some 0x100)⟩
      (.insert 0x1000 0x200000 0x200) := by
    refine ⟨⟨by decide, by simp, fun key => ?_, ?_⟩, ?_⟩
    · by_cases hkey : key = (0x1000, 0)
      · simp [hkey]
      · simp [hkey]
    · rw [TableExists, hslot]
      decide +kernel
    · rw [BucketEmpty, hslot, hbucket]
      decide +kernel
  obtain ⟨s₂, hstep₂⟩ := Option.isSome_iff_exists.mp ((hall _ hrun₁).2 _ hsecond)
  have hrun₂ := hrun₁.tail hsecond hstep₂
  obtain ⟨vm₂, -, rfl⟩ := Option.map_eq_some_iff.mp hstep₂
  have hthird : HashCallerSparse ⟨vm₂, Function.update (Function.update (fun _ => none)
      (0x1000, 0) (some 0x100)) (0x1000, 0x200000) (some 0x200)⟩ (.remove 0x1000 0 0x100) := by
    simp [HashCallerSparse, HashCallerOk]
  obtain ⟨s₃, hstep₃⟩ := Option.isSome_iff_exists.mp ((hall _ hrun₂).2 _ hthird)
  have hrun₃ := hrun₂.tail hthird hstep₃
  obtain ⟨vm₃, -, rfl⟩ := Option.map_eq_some_iff.mp hstep₃
  exact ⟨_, hrun₃, by simp, by simp, (hall _ hrun₃).1⟩

end Smor.Vm
