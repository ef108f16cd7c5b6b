import Smor.Alloc.Levels
import Smor.Lib.Runs
import Mathlib.Data.Finset.Insert
import Mathlib.Order.CompletePartialOrder
import Mathlib.Order.Interval.Set.Disjoint

/-!
# Two levels of slab lists

A root list has one slab, reserved on the slack memory behind the kernel. Its chunks go to
callers, or to child lists that make slabs of them. `SlabsOk` is the invariant of the two
levels: every list is in order, and the slabs of the children are chunks of the root that
are out. So what the lists hand out never overlaps.
-/

namespace Smor.Alloc

open Smor.Lib Smor.Vm

/-- The root with its slab at `base` and its children are in order; `out` are the addresses that
each list has handed out, to callers or to a child. -/
structure SlabsOk (st : Slabs) (root base : ℕ) (kids : Finset ℕ) (geo : ℕ → Geometry)
    (lay : Layout) (out : ℕ → List ℕ) : Prop where
  linked : Linked 0 st.links lay.nodes
  lists : ∀ l ∈ insert root kids, ListOk st l (geo l) lay (out l)
  others : ∀ l ∉ insert root kids, lay.slabs l = []
  root_notMem : root ∉ kids
  root_owner : (st.list root).owner = none
  root_slab : ∀ a, a ∈ lay.slabs root ↔ a = base
  root_reserved : (st.slab base).reserved = true
  kid : ∀ l ∈ kids, (st.list l).owner = some root ∧
    (geo l).sizeShift = (geo root).chunkShift
  kid_room : ∀ l ∈ kids, (geo l).numReserved + 2 ≤ (geo l).numChunks
  kid_slab : ∀ l ∈ kids, ∀ a ∈ lay.slabs l, a ∈ out root

section Invariant

variable {st st' : Slabs} {root base l s p x : ℕ} {kids : Finset ℕ} {geo : ℕ → Geometry}
  {lay lay' : Layout} {out : ℕ → List ℕ}

theorem SlabsOk.root_list (hok : SlabsOk st root base kids geo lay out) :
    ListOk st root (geo root) lay (out root) := hok.lists root (Finset.mem_insert_self _ _)

/-- A step on the slabs of one list keeps the two levels in order, if the slabs of the children
stay out. -/
theorem SlabsOk.level (hok : SlabsOk st root base kids geo lay out) (hl : l ∈ insert root kids)
    (hloc : Local l st st' lay lay') {out' : List ℕ} (hlist : ListOk st' l (geo l) lay' out')
    (hkids : l = root → ∀ l' ∈ kids, ∀ a ∈ lay.slabs l', a ∈ out') :
    SlabsOk st' root base kids geo lay' (Function.update out l out') ∧
      ∀ l' a, a ∈ lay'.slabs l' ↔ a ∈ lay.slabs l' := by
  have hslabs := hloc.slabs_all
  refine ⟨⟨hloc.linked, fun l' hl' => ?_, fun l' hl' => ?_, hok.root_notMem, ?_, fun a => ?_, ?_,
    fun l' hl' => ?_, hok.kid_room, fun l' hl' a ha => ?_⟩, hslabs⟩
  · by_cases heq : l' = l
    · subst heq
      rwa [Function.update_self]
    · rw [Function.update_of_ne heq]
      exact hloc.other hok.linked heq (hok.lists l' hl')
  · have hne : l' ≠ l := by
      rintro rfl
      exact hl' hl
    rw [Layout.slabs, (hloc.heads l' hne).1, (hloc.heads l' hne).2]
    exact hok.others l' hl'
  · rw [hloc.list]
    exact hok.root_owner
  · rw [hslabs]
    exact hok.root_slab a
  · rw [hloc.reserved]
    exact hok.root_reserved
  · rw [hloc.list]
    exact hok.kid l' hl'
  · rw [hslabs] at ha
    by_cases heq : root = l
    · rw [← heq, Function.update_self]
      exact hkids heq.symm l' hl' a ha
    · rw [Function.update_of_ne heq]
      exact hok.kid_slab l' hl' a ha

/-- A chunk is taken from a slab on `free_slabs`. -/
theorem SlabsOk.take (hok : SlabsOk st root base kids geo lay out) (hl : l ∈ insert root kids)
    (hs : s ∈ lay.nodes (.free l)) :
    ∃ x slab lay', slabAlloc s (st.slab s) = (x, slab) ∧ x ∉ out l ∧ x ≠ 0 ∧
      (2 ≤ (lay.free s).length → slabIsFull slab = false) ∧
      SlabsOk (if slabIsFull slab then (st.setSlab s slab).move s (.used l)
        else st.setSlab s slab) root base kids geo lay' (Function.update out l (x :: out l)) ∧
      ∀ l' a, a ∈ lay'.slabs l' ↔ a ∈ lay.slabs l' := by
  obtain ⟨x, slab, lay', halloc, hnew, hpos, -, hfull, hloc, hlist⟩ :=
    (hok.lists l hl).take hok.linked hs
  refine ⟨x, slab, lay', halloc, hnew, hpos, hfull, hok.level hl hloc hlist ?_⟩
  rintro rfl l' hl' a ha
  exact List.mem_cons_of_mem _ (hok.kid_slab l' hl' a ha)

/-- `slab_list_alloc` on a list with a free chunk. -/
theorem SlabsOk.alloc_free (hok : SlabsOk st root base kids geo lay out) (depth : ℕ)
    (hl : l ∈ insert root kids) (hhead : st.links.cell (.head (.free l)) ≠ 0) :
    ∃ x st' lay', Slabs.slabListAlloc (depth + 1) st l = some (x, st') ∧ x ≠ 0 ∧ x ∉ out l ∧
      SlabsOk st' root base kids geo lay' (Function.update out l (x :: out l)) ∧
      ∀ l' a, a ∈ lay'.slabs l' ↔ a ∈ lay.slabs l' := by
  obtain ⟨rest, hnodes⟩ := hok.linked.cons_of_head hhead
  obtain ⟨x, slab, lay', halloc, hnew, hpos, -, hok', hslabs⟩ :=
    hok.take hl (s := st.links.cell (.head (.free l))) (by simp [hnodes])
  refine ⟨x, _, lay', ?_, hpos, hnew, hok', hslabs⟩
  simp only [Slabs.slabListAlloc]
  rw [if_pos hhead, halloc]

/-- `slab_list_alloc` on the root. -/
theorem SlabsOk.alloc_root (hok : SlabsOk st root base kids geo lay out) (depth : ℕ) :
    ∃ x st', Slabs.slabListAlloc (depth + 1) st root = some (x, st') ∧
      ((x = 0 ∧ st' = st) ∨ (x ≠ 0 ∧ x ∉ out root ∧ ∃ lay',
        SlabsOk st' root base kids geo lay' (Function.update out root (x :: out root)) ∧
        ∀ l' a, a ∈ lay'.slabs l' ↔ a ∈ lay.slabs l')) := by
  by_cases hhead : st.links.cell (.head (.free root)) ≠ 0
  · obtain ⟨x, st', lay', halloc, hpos, hnew, hok', hslabs⟩ :=
      hok.alloc_free depth (Finset.mem_insert_self _ _) hhead
    exact ⟨x, st', halloc, Or.inr ⟨hpos, hnew, lay', hok', hslabs⟩⟩
  · -- the root has no owner, and `sys_alloc_page` has no pages
    refine ⟨0, st, ?_, Or.inl ⟨rfl, rfl⟩⟩
    simp only [Slabs.slabListAlloc]
    rw [if_neg hhead, hok.root_owner]
    rfl

/-- A chunk of the root is the place for a slab of a child. -/
theorem SlabsOk.root_chunk (hok : SlabsOk st root base kids geo lay out) (hp : p ∈ out root) :
    p ≠ 0 ∧ p ≠ base ∧ 2 ^ (geo root).chunkShift ∣ p ∧ p + 2 ^ (geo root).chunkShift ≤ 2 ^ 64 := by
  obtain ⟨a, ha, i, hmin, hmax, -, rfl⟩ := (hok.root_list.taken p).mp hp
  have haligned := hok.root_list.aligned a ha
  have htop := hok.root_list.top a ha
  obtain rfl := (hok.root_slab a).mp ha
  have hle := (geo root).chunk_le hmax
  have hpos : 0 < i * 2 ^ (geo root).chunkShift :=
    Nat.mul_pos (lt_of_lt_of_le (geo root).reserved_pos hmin) (Nat.two_pow_pos _)
  have hdvd : 2 ^ (geo root).chunkShift ∣ 2 ^ (geo root).sizeShift := by
    rw [← (geo root).size_eq]
    exact Nat.dvd_mul_left _ _
  have hchunk := Nat.dvd_add (Nat.dvd_trans hdvd haligned) (Nat.dvd_mul_left _ i)
  exact ⟨by omega, by omega, hchunk, by omega⟩

/-- A child makes a slab of a chunk of the root. -/
theorem SlabsOk.addSlab (hok : SlabsOk st root base kids geo lay out) (hl : l ∈ kids)
    (hp : p ∈ out root) (hnew : ∀ l' ∈ kids, p ∉ lay.slabs l') :
    ∃ lay', SlabsOk (st.newSlab l p false) root base kids geo lay' out ∧
      p ∈ lay'.nodes (.free l) ∧ 2 ≤ (lay'.free p).length ∧
      ∀ l' a, a ∈ lay'.slabs l' ↔ a ∈ lay.slabs l' ∨ (l' = l ∧ a = p) := by
  obtain ⟨hpos, hbase, hdvd, htop⟩ := hok.root_chunk hp
  have hkid := hok.lists l (Finset.mem_insert_of_mem hl)
  rw [← (hok.kid l hl).2] at hdvd htop
  have hroot : l ≠ root := by
    rintro rfl
    exact hok.root_notMem hl
  have hslabs : ∀ l', p ∉ lay.slabs l' := by
    intro l' hmem
    by_cases hin : l' ∈ insert root kids
    · rcases Finset.mem_insert.mp hin with rfl | hin
      · exact hbase ((hok.root_slab p).mp hmem)
      · exact hnew l' hin hmem
    · rw [hok.others l' hin] at hmem
      simp at hmem
  have hfresh : ∀ h, p ∉ lay.nodes h := by
    intro h hmem
    cases h with
    | free l' => exact hslabs l' (Layout.mem_slabs.mpr (Or.inl hmem))
    | used l' => exact hslabs l' (Layout.mem_slabs.mpr (Or.inr hmem))
  have hroom := hok.kid_room l hl
  have hall := (geo l).length_chunks
  have hmem := lay.mem_add l p (geo l).chunks
  refine ⟨lay.add l p (geo l).chunks, ⟨hok.linked.insert hpos hfresh (.free l), fun l' hl' => ?_,
    fun l' hl' => ?_, hok.root_notMem, hok.root_owner, fun a => ?_, ?_, hok.kid, hok.kid_room,
    fun l' hl' a ha => ?_⟩, ?_, ?_, hmem⟩
  · by_cases heq : l' = l
    · subst heq
      exact hkid.addSlab (hslabs l') hdvd htop false
    · exact (hok.lists l' hl').addSlab_other heq (hslabs l') false
  · have hne : l' ≠ l := by
      rintro rfl
      exact hl' (Finset.mem_insert_of_mem hl)
    have hnil := hok.others l' hl'
    simpa [Layout.slabs, Layout.add, hne] using hnil
  · rw [hmem, hok.root_slab a]
    simp [Ne.symm hroot]
  · simp only [Slabs.newSlab, Function.update_of_ne (Ne.symm hbase)]
    exact hok.root_reserved
  · rcases (hmem l' a).mp ha with ha | ⟨-, rfl⟩
    · exact hok.kid_slab l' hl' a ha
    · exact hp
  · simp [Layout.add]
  · simp only [Layout.add, Function.update_self]
    omega

/-- `slab_list_alloc` on a child. -/
theorem SlabsOk.alloc_kid (hok : SlabsOk st root base kids geo lay out) (hl : l ∈ kids)
    (depth : ℕ) :
    ∃ x st', Slabs.slabListAlloc (depth + 2) st l = some (x, st') ∧
      ((x = 0 ∧ st' = st) ∨ (x ≠ 0 ∧ x ∉ out l ∧ ∃ lay' out',
        SlabsOk st' root base kids geo lay' out' ∧ out' l = x :: out l ∧
        (∀ l' ∈ kids, l' ≠ l → out' l' = out l') ∧ (∀ y ∈ out root, y ∈ out' root) ∧
        ∀ l' ∈ kids, ∀ a ∈ lay'.slabs l', a ∈ lay.slabs l' ∨ a ∉ out root)) := by
  have hlin := Finset.mem_insert_of_mem (b := root) hl
  have hroot : l ≠ root := by
    rintro rfl
    exact hok.root_notMem hl
  by_cases hhead : st.links.cell (.head (.free l)) ≠ 0
  · obtain ⟨x, st', lay', halloc, hpos, hnew, hok', hslabs⟩ := hok.alloc_free (depth + 1) hlin hhead
    refine ⟨x, st', halloc, Or.inr ⟨hpos, hnew, lay', _, hok', Function.update_self _ _ _,
      fun l' _ hne => Function.update_of_ne hne _ _, fun y hy => ?_, fun l' _ a ha => ?_⟩⟩
    · rwa [Function.update_of_ne (Ne.symm hroot)]
    · exact Or.inl ((hslabs l' a).mp ha)
  · obtain ⟨p, st₁, halloc, hcase⟩ := hok.alloc_root depth
    have hstep : Slabs.slabListAlloc (depth + 2) st l = some (Slabs.allocNew l (p, st₁)) := by
      rw [Slabs.slabListAlloc]
      simp only
      rw [if_neg hhead, (hok.kid l hl).1]
      simp only
      rw [halloc, Option.map_some]
    rcases hcase with ⟨rfl, rfl⟩ | ⟨hpos, hnew, lay₁, hok₁, hslabs₁⟩
    · exact ⟨0, st₁, by rw [hstep]; rfl, Or.inl ⟨rfl, rfl⟩⟩
    · -- the new chunk of the root becomes a slab, and its first chunk is taken
      obtain ⟨lay₂, hok₂, hmem, hlen, hslabs₂⟩ := hok₁.addSlab (p := p) hl (by simp) (by
        intro l' hl' ha
        exact hnew (hok.kid_slab l' hl' p ((hslabs₁ l' p).mp ha)))
      obtain ⟨x, slab, lay₃, hslab, hxnew, hxpos, hfull, hok₃, hslabs₃⟩ := hok₂.take hlin hmem
      rw [hfull hlen, if_neg (by simp)] at hok₃
      rw [Function.update_of_ne hroot] at hxnew hok₃
      refine ⟨x, (st₁.newSlab l p false).setSlab p slab, ?_, Or.inr ⟨hxpos, hxnew, lay₃, _, hok₃,
        Function.update_self _ _ _, fun l' hl' hne => ?_, fun y hy => ?_, fun l' _ a ha => ?_⟩⟩
      · rw [hstep, Slabs.allocNew, if_pos hpos]
        simp only [hslab]
      · have hne' : l' ≠ root := by
          rintro rfl
          exact hok.root_notMem hl'
        rw [Function.update_of_ne hne, Function.update_of_ne hne']
      · rw [Function.update_of_ne (Ne.symm hroot), Function.update_self]
        exact List.mem_cons_of_mem _ hy
      · rw [hslabs₃, hslabs₂, hslabs₁] at ha
        rcases ha with ha | ⟨-, rfl⟩
        · exact Or.inl ha
        · exact Or.inr hnew

/-- A chunk is given back to its slab. A chunk that holds a slab of a child is not. -/
theorem SlabsOk.give (hok : SlabsOk st root base kids geo lay out) (hl : l ∈ insert root kids)
    (hx : x ∈ out l) (hkids : l = root → ∀ l' ∈ kids, x ∉ lay.slabs l') :
    ∃ s ∈ lay.slabs l, ∃ lay', x / 2 ^ (st.list l).sizeShift * 2 ^ (st.list l).sizeShift = s ∧
      SlabsOk (if slabIsFull (st.slab s) then
        (st.setSlab s (slabFree s (st.slab s) x)).move s (.free l)
        else st.setSlab s (slabFree s (st.slab s) x)) root base kids geo lay'
        (Function.update out l ((out l).erase x)) ∧
      s ∈ lay'.nodes (.free l) ∧ ∀ l' a, a ∈ lay'.slabs l' ↔ a ∈ lay.slabs l' := by
  have hlist := hok.lists l hl
  obtain ⟨s, hs, lay', hmask, hloc, hlist', hfree⟩ := hlist.give hok.linked hx
  rw [hlist.shifts.1]
  obtain ⟨hok', hslabs⟩ := hok.level hl hloc hlist' (by
    rintro rfl l' hl' a ha
    refine hlist.nodup.mem_erase_iff.mpr ⟨?_, hok.kid_slab l' hl' a ha⟩
    rintro rfl
    exact hkids rfl l' hl' ha)
  exact ⟨s, hs, lay', hmask, hok', hfree, hslabs⟩

/-- `slab_list_free` on the root, whose slab is reserved and stays. -/
theorem SlabsOk.free_root (hok : SlabsOk st root base kids geo lay out) (depth : ℕ)
    (hx : x ∈ out root) (hkids : ∀ l' ∈ kids, x ∉ lay.slabs l') :
    ∃ st' lay', Slabs.slabListFree (depth + 1) st root x = some st' ∧
      SlabsOk st' root base kids geo lay' (Function.update out root ((out root).erase x)) ∧
      ∀ l' a, a ∈ lay'.slabs l' ↔ a ∈ lay.slabs l' := by
  obtain ⟨s, hs, lay', hmask, hok', -, hslabs⟩ :=
    hok.give (Finset.mem_insert_self _ _) hx fun _ => hkids
  have hres : (slabFree s (st.slab s) x).reserved = true := by
    obtain rfl := (hok.root_slab s).mp hs
    exact hok.root_reserved
  refine ⟨_, lay', ?_, hok', hslabs⟩
  simp only [Slabs.slabListFree, hmask]
  by_cases hfull : slabIsFull (st.slab s) = true
  · rw [if_pos hfull, if_pos hfull]
  · rw [if_neg hfull, if_neg hfull, hres]
    simp

/-- A slab of a child without chunks that are out leaves the child. -/
theorem SlabsOk.dropSlab (hok : SlabsOk st root base kids geo lay out) (hl : l ∈ kids)
    (hs : s ∈ lay.nodes (.free l))
    (hlen : (lay.free s).length + (geo l).numReserved = (geo l).numChunks) :
    SlabsOk { st with links := st.links.remove 0 s } root base kids geo (lay.drop l s) out ∧
      ∀ l' a, a ∈ (lay.drop l s).slabs l' ↔ a ∈ lay.slabs l' ∧ a ≠ s := by
  have hmem := Layout.mem_drop hok.linked hs
  have hroot : l ≠ root := by
    rintro rfl
    exact hok.root_notMem hl
  refine ⟨⟨hok.linked.remove hs, fun l' hl' => ?_, fun l' hl' => ?_, hok.root_notMem,
    hok.root_owner, fun a => ?_, hok.root_reserved, hok.kid, hok.kid_room,
    fun l' hl' a ha => ?_⟩, hmem⟩
  · have hlist := hok.lists l' hl'
    by_cases heq : l' = l
    · subst heq
      exact hlist.dropSlab hok.linked hs hlen
    · exact hlist.dropSlab_other heq
  · have hne : l' ≠ l := by
      rintro rfl
      exact hl' (Finset.mem_insert_of_mem hl)
    have hnil := hok.others l' hl'
    simpa [Layout.slabs, Layout.drop, hne] using hnil
  · rw [hmem, hok.root_slab a]
    constructor
    · exact And.left
    · rintro rfl
      refine ⟨rfl, ?_⟩
      -- the slab of the root is on no list of a child
      rintro rfl
      exact hroot (Layout.list_unique hok.linked (Layout.mem_slabs.mpr (Or.inl hs))
        ((hok.root_slab a).mpr rfl))
  · exact hok.kid_slab l' hl' a ((hmem l' a).mp ha).1

/-- `slab_list_free` on a child. -/
theorem SlabsOk.free_kid (hok : SlabsOk st root base kids geo lay out) (hl : l ∈ kids)
    (depth : ℕ) (hx : x ∈ out l) :
    ∃ st' lay' out', Slabs.slabListFree (depth + 2) st l x = some st' ∧
      SlabsOk st' root base kids geo lay' out' ∧ out' l = (out l).erase x ∧
      (∀ l' ∈ kids, l' ≠ l → out' l' = out l') ∧
      (∀ y ∈ out root, y ∈ out' root ∨ ∃ l' ∈ kids, y ∈ lay.slabs l') ∧
      ∀ l' a, a ∈ lay'.slabs l' → a ∈ lay.slabs l' := by
  have hroot : l ≠ root := by
    rintro rfl
    exact hok.root_notMem hl
  have hlin := Finset.mem_insert_of_mem (b := root) hl
  obtain ⟨s, hs, lay₁, hmask, hok₁, hfree, hslabs₁⟩ := hok.give hlin hx fun h => absurd h hroot
  have hkeep : ∀ y ∈ out root, y ∈ Function.update out l ((out l).erase x) root := by
    intro y hy
    rwa [Function.update_of_ne (Ne.symm hroot)]
  by_cases hfull : slabIsFull (st.slab s) = true
  · rw [if_pos hfull] at hok₁
    refine ⟨_, lay₁, _, ?_, hok₁, Function.update_self _ _ _,
      fun l' _ hne => Function.update_of_ne hne _ _, fun y hy => Or.inl (hkeep y hy),
      fun l' a ha => (hslabs₁ l' a).mp ha⟩
    simp only [Slabs.slabListFree, hmask]
    rw [if_pos hfull]
  rw [if_neg hfull] at hok₁
  by_cases hempty : (slabIsEmpty (slabFree s (st.slab s) x) &&
      !(slabFree s (st.slab s) x).reserved) = true
  · -- the slab goes back to the root
    have hslab := (hok₁.lists l hlin).slab s ((hslabs₁ l s).mpr hs)
    simp only [Slabs.setSlab, Function.update_self] at hslab
    have hlen := hslab.isEmpty_iff.mp (Bool.and_eq_true_iff.mp hempty).1
    obtain ⟨hok₂, hslabs₂⟩ := hok₁.dropSlab hl hfree hlen
    have hsroot : s ∈ Function.update out l ((out l).erase x) root :=
      hkeep s (hok.kid_slab l hl s hs)
    obtain ⟨st', lay₃, hstep, hok₃, hslabs₃⟩ := hok₂.free_root depth hsroot (by
      intro l' hl' ha
      exact ((hslabs₂ l' s).mp ha).2 rfl)
    refine ⟨st', lay₃, _, ?_, hok₃, ?_, fun l' hl' hne => ?_, fun y hy => ?_, fun l' a ha => ?_⟩
    · rw [Slabs.slabListFree]
      simp only [hmask]
      rw [if_neg hfull, if_pos hempty]
      simp only [Slabs.setSlab, (hok.kid l hl).1]
      exact hstep
    · rw [Function.update_of_ne hroot, Function.update_self]
    · have hne' : l' ≠ root := by
        rintro rfl
        exact hok.root_notMem hl'
      rw [Function.update_of_ne hne', Function.update_of_ne hne]
    · rw [Function.update_self]
      by_cases heq : y = s
      · exact Or.inr ⟨l, hl, heq ▸ hs⟩
      · exact Or.inl ((List.mem_erase_of_ne heq).mpr (hkeep y hy))
    · rw [hslabs₃, hslabs₂, hslabs₁] at ha
      exact ha.1
  · refine ⟨_, lay₁, _, ?_, hok₁, Function.update_self _ _ _,
      fun l' _ hne => Function.update_of_ne hne _ _, fun y hy => Or.inl (hkeep y hy),
      fun l' a ha => (hslabs₁ l' a).mp ha⟩
    simp only [Slabs.slabListFree, hmask]
    rw [if_neg hfull, if_neg hempty]

end Invariant

end Smor.Alloc
