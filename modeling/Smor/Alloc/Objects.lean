import Smor.Alloc.TwoLevel

/-!
# The objects of two levels of slab lists

`slab_list_init`, `slab_list_alloc`, and `slab_list_free` in any order, beside the record of
the addresses that callers hold. The objects are these addresses and the chunks of the root
that hold slabs of children. They lie behind the headers of their slabs, and no
two of them overlap, except that the objects of a child are inside a chunk of the root.
-/

namespace Smor.Alloc

open Smor.Lib Smor.Vm

/-- The slabs, the child lists that are set up, and the addresses that callers hold. -/
structure SlabRun where
  st : Slabs
  kids : Finset ℕ
  live : ℕ → List ℕ

/-- The operations. -/
inductive SlabOp
  /-- `slab_list_init` for a child. -/
  | init (l size chunkSize : ℕ)
  /-- `slab_list_alloc`. -/
  | alloc (l : ℕ)
  /-- `slab_list_free`. -/
  | free (l addr : ℕ)

namespace SlabRun

/-- One operation. Two levels are two calls of `slab_list_alloc` or `slab_list_free`. -/
def step (root : ℕ) (r : SlabRun) : SlabOp → Option SlabRun
  | .init l size chunkSize =>
    match r.st.slabListInit l (some root) size chunkSize with
    | some st =>
      some { r with
        st := st
        kids := insert l r.kids }
    | none => some r
  | .alloc l =>
    (r.st.slabListAlloc 2 l).map fun (x, st) =>
      { r with
        st := st
        live := if x ≠ 0 then Function.update r.live l (x :: r.live l) else r.live }
  | .free l x =>
    (r.st.slabListFree 2 l x).map fun st =>
      { r with
        st := st
        live := Function.update r.live l ((r.live l).erase x) }

/-- A list is set up once and with sizes that `slab_init` can handle, only lists that are set up
are used, and only addresses that the caller holds are freed. -/
def Allowed (root : ℕ) (r : SlabRun) : SlabOp → Prop
  | .init l size chunkSize =>
    l ≠ root ∧ l ∉ r.kids ∧ (SlabList.mk (some root) (ceilPow2 size) (ceilPow2 chunkSize)).Good
  | .alloc l => l ∈ insert root r.kids
  | .free l x => l ∈ insert root r.kids ∧ x ∈ r.live l

instance (root : ℕ) (r : SlabRun) (op : SlabOp) : Decidable (r.Allowed root op) :=
  match op with
  | .init _ _ _ => inferInstanceAs (Decidable (_ ∧ _ ∧ _))
  | .alloc _ => inferInstanceAs (Decidable (_ ∈ _))
  | .free _ _ => inferInstanceAs (Decidable (_ ∧ _))

end SlabRun

namespace Slabs

/-- The bytes of an object of a list. -/
def range (st : Slabs) (o : ℕ × ℕ) : Set ℕ := Set.Ico o.2 (o.2 + 2 ^ (st.list o.1).chunkShift)

/-- An object is an aligned chunk of one slab of its list, behind the header. -/
def Placed (st : Slabs) (o : ℕ × ℕ) : Prop :=
  2 ^ (st.list o.1).chunkShift ∣ o.2 ∧ o.2 ≠ 0 ∧ ∃ a, st.Has o.1 a ∧
    a + (st.slab a).numReserved * 2 ^ (st.list o.1).chunkShift ≤ o.2 ∧
    o.2 + 2 ^ (st.list o.1).chunkShift ≤ a + 2 ^ (st.list o.1).sizeShift

end Slabs

namespace SlabRun

/-- A chunk of the root that holds a slab of a child. -/
def Holder (r : SlabRun) (x : ℕ) : Prop := ∃ l ∈ r.kids, r.st.Has l x

/-- The objects: the addresses that callers hold, and the chunks of the root that hold slabs. -/
def Object (root : ℕ) (r : SlabRun) (o : ℕ × ℕ) : Prop :=
  o.2 ∈ r.live o.1 ∨ (o.1 = root ∧ r.Holder o.2)

/-- An object of a child is inside the chunk of the root that holds its slab. -/
def Inside (root : ℕ) (r : SlabRun) (o o' : ℕ × ℕ) : Prop :=
  o'.1 = root ∧ o.1 ∈ r.kids ∧ r.st.Has o.1 o'.2 ∧ r.st.range o ⊆ r.st.range o'

end SlabRun

section Runs

variable {r r' : SlabRun} {root base l x : ℕ} {geo : ℕ → Geometry} {lay lay' : Layout}
  {out : ℕ → List ℕ}

/-- The two levels are in order, and callers hold what the lists have handed out. -/
structure RunOk (root base : ℕ) (r : SlabRun) (geo : ℕ → Geometry) (lay : Layout)
    (out : ℕ → List ℕ) : Prop where
  slabs : SlabsOk r.st root base r.kids geo lay out
  kid_live : ∀ l ∈ r.kids, r.live l = out l
  root_live : ∀ x ∈ r.live root, x ∈ out root ∧ ∀ l ∈ r.kids, x ∉ lay.slabs l
  root_nodup : (r.live root).Nodup
  none_live : ∀ l ∉ insert root r.kids, r.live l = []

theorem SlabsOk.has_iff {st : Slabs} {kids : Finset ℕ} (hok : SlabsOk st root base kids geo lay out)
    {a : ℕ} : st.Has l a ↔ a ∈ lay.slabs l := Slabs.has_iff hok.linked

/-- `slab_list_alloc` by a caller. -/
theorem RunOk.alloc (hok : RunOk root base r geo lay out) (hl : l ∈ insert root r.kids) :
    ∃ r' lay' out', r.step root (.alloc l) = some r' ∧ RunOk root base r' geo lay' out' := by
  have hstep : ∀ x st', r.st.slabListAlloc 2 l = some (x, st') → r.step root (.alloc l) = some
      { r with
        st := st'
        live := if x ≠ 0 then Function.update r.live l (x :: r.live l) else r.live } := by
    intro x st' h
    rw [SlabRun.step, h, Option.map_some]
  rcases Finset.mem_insert.mp hl with rfl | hkid
  · obtain ⟨x, st', halloc, hcase⟩ := hok.slabs.alloc_root 1
    rcases hcase with ⟨rfl, rfl⟩ | ⟨hpos, hnew, lay', hok', hslabs⟩
    · exact ⟨_, lay, out, hstep _ _ halloc, hok.slabs, hok.kid_live, hok.root_live, hok.root_nodup,
        hok.none_live⟩
    · refine ⟨_, lay', _, hstep _ _ halloc, hok', fun l' hl' => ?_, fun y hy => ?_, ?_,
        fun l' hl' => ?_⟩
      · have hne : l' ≠ l := by
          rintro rfl
          exact hok.slabs.root_notMem hl'
        simp only [if_pos hpos, Function.update_of_ne hne]
        exact hok.kid_live l' hl'
      · simp only [if_pos hpos, Function.update_self, List.mem_cons] at hy ⊢
        rcases hy with rfl | hy
        · refine ⟨Or.inl rfl, fun l' hl' ha => hnew ?_⟩
          exact hok.slabs.kid_slab l' hl' y ((hslabs l' y).mp ha)
        · refine ⟨Or.inr (hok.root_live y hy).1, fun l' hl' ha => ?_⟩
          exact (hok.root_live y hy).2 l' hl' ((hslabs l' y).mp ha)
      · simp only [if_pos hpos, Function.update_self, List.nodup_cons]
        exact ⟨fun hx => hnew (hok.root_live x hx).1, hok.root_nodup⟩
      · have hne : l' ≠ l := by
          rintro rfl
          exact hl' (Finset.mem_insert_self _ _)
        simp only [if_pos hpos, Function.update_of_ne hne]
        exact hok.none_live l' hl'
  · have hroot : l ≠ root := by
      rintro rfl
      exact hok.slabs.root_notMem hkid
    obtain ⟨x, st', halloc, hcase⟩ := hok.slabs.alloc_kid hkid 0
    rcases hcase with ⟨rfl, rfl⟩ | ⟨hpos, hnew, lay', out', hok', hout, hothers, hkeep, hslabs⟩
    · exact ⟨_, lay, out, hstep _ _ halloc, hok.slabs, hok.kid_live, hok.root_live, hok.root_nodup,
        hok.none_live⟩
    · refine ⟨_, lay', out', hstep _ _ halloc, hok', fun l' hl' => ?_, fun y hy => ?_, ?_,
        fun l' hl' => ?_⟩
      · simp only [if_pos hpos]
        by_cases heq : l' = l
        · rw [heq, Function.update_self, hout, hok.kid_live l hkid]
        · rw [Function.update_of_ne heq, hothers l' hl' heq]
          exact hok.kid_live l' hl'
      · simp only [if_pos hpos, Function.update_of_ne (Ne.symm hroot)] at hy
        obtain ⟨hyout, hyslab⟩ := hok.root_live y hy
        refine ⟨hkeep y hyout, fun l' hl' ha => ?_⟩
        exact (hslabs l' hl' y ha).elim (hyslab l' hl') fun hnot => hnot hyout
      · simp only [if_pos hpos, Function.update_of_ne (Ne.symm hroot)]
        exact hok.root_nodup
      · have hne : l' ≠ l := by
          rintro rfl
          exact hl' hl
        simp only [if_pos hpos, Function.update_of_ne hne]
        exact hok.none_live l' hl'

/-- `slab_list_free` by a caller. -/
theorem RunOk.free (hok : RunOk root base r geo lay out) (hl : l ∈ insert root r.kids)
    (hx : x ∈ r.live l) :
    ∃ r' lay' out', r.step root (.free l x) = some r' ∧ RunOk root base r' geo lay' out' := by
  have hstep : ∀ st', r.st.slabListFree 2 l x = some st' → r.step root (.free l x) = some
      { r with
        st := st'
        live := Function.update r.live l ((r.live l).erase x) } := by
    intro st' h
    rw [SlabRun.step, h, Option.map_some]
  rcases Finset.mem_insert.mp hl with rfl | hkid
  · obtain ⟨hout, hslab⟩ := hok.root_live x hx
    obtain ⟨st', lay', hfree, hok', hslabs⟩ := hok.slabs.free_root 1 hout hslab
    refine ⟨_, lay', _, hstep _ hfree, hok', fun l' hl' => ?_, fun y hy => ?_, ?_, fun l' hl' => ?_⟩
    · have hne : l' ≠ l := by
        rintro rfl
        exact hok.slabs.root_notMem hl'
      simp only [Function.update_of_ne hne]
      exact hok.kid_live l' hl'
    · simp only [Function.update_self] at hy ⊢
      obtain ⟨hne, hy⟩ := hok.root_nodup.mem_erase_iff.mp hy
      refine ⟨(List.mem_erase_of_ne hne).mpr (hok.root_live y hy).1, fun l' hl' ha => ?_⟩
      exact (hok.root_live y hy).2 l' hl' ((hslabs l' y).mp ha)
    · simp only [Function.update_self]
      exact hok.root_nodup.erase _
    · have hne : l' ≠ l := by
        rintro rfl
        exact hl' hl
      simp only [Function.update_of_ne hne]
      exact hok.none_live l' hl'
  · have hroot : l ≠ root := by
      rintro rfl
      exact hok.slabs.root_notMem hkid
    have hout : x ∈ out l := hok.kid_live l hkid ▸ hx
    obtain ⟨st', lay', out', hfree, hok', hl', hothers, hkeep, hslabs⟩ :=
      hok.slabs.free_kid hkid 0 hout
    refine ⟨_, lay', out', hstep _ hfree, hok', fun l' hl' => ?_, fun y hy => ?_, ?_,
      fun l' hl' => ?_⟩
    · by_cases heq : l' = l
      · rw [heq]
        simp only [Function.update_self]
        rw [hok.kid_live l hkid]
        exact Eq.symm ‹out' l = _›
      · simp only [Function.update_of_ne heq]
        rw [hothers l' hl' heq]
        exact hok.kid_live l' hl'
    · simp only [Function.update_of_ne (Ne.symm hroot)] at hy
      obtain ⟨hyout, hyslab⟩ := hok.root_live y hy
      refine ⟨(hkeep y hyout).resolve_right ?_, fun l' hl' ha => ?_⟩
      · rintro ⟨l', hl', ha⟩
        exact hyslab l' hl' ha
      · exact hyslab l' hl' (hslabs l' y ha)
    · simp only [Function.update_of_ne (Ne.symm hroot)]
      exact hok.root_nodup
    · have hne : l' ≠ l := by
        rintro rfl
        exact hl' hl
      simp only [Function.update_of_ne hne]
      exact hok.none_live l' hl'

/-- A child list without slabs. -/
theorem SlabsOk.addList {st : Slabs} {kids : Finset ℕ}
    (hok : SlabsOk st root base kids geo lay out) (hl : l ∉ insert root kids) {sl : SlabList}
    (hgood : sl.Good) (howner : sl.owner = some root)
    (hsize : (st.list root).chunkShift = sl.sizeShift) :
    SlabsOk { st with list := Function.update st.list l sl } root base (insert l kids)
      (Function.update geo l (sl.geometry hgood.usable)) lay (Function.update out l []) := by
  have hroot : root ≠ l := by
    rintro rfl
    exact hl (Finset.mem_insert_self _ _)
  have hnil := hok.others l hl
  have hold : ∀ l' ∈ insert root (insert l kids), l' ≠ l → l' ∈ insert root kids := by
    intro l' hl' hne
    simp only [Finset.mem_insert] at hl' ⊢
    tauto
  have hkids : ∀ l' ∈ kids, l' ≠ l := by
    rintro l' hl' rfl
    exact hl (Finset.mem_insert_of_mem hl')
  refine ⟨hok.linked, fun l' hl' => ?_, fun l' hl' => ?_, ?_, ?_, hok.root_slab, hok.root_reserved,
    fun l' hl' => ?_, fun l' hl' => ?_, fun l' hl' a ha => ?_⟩
  · by_cases heq : l' = l
    · subst heq
      rw [Function.update_self, Function.update_self]
      exact ListOk.of_nil hgood.usable (Function.update_self _ _ _) hnil
    · rw [Function.update_of_ne heq, Function.update_of_ne heq]
      exact (hok.lists l' (hold l' hl' heq)).congr (Function.update_of_ne heq _ _) rfl rfl
        fun _ _ => ⟨rfl, rfl⟩
  · apply hok.others
    intro hmem
    simp only [Finset.mem_insert] at hl' hmem
    tauto
  · simp only [Finset.mem_insert, not_or]
    exact ⟨hroot, hok.root_notMem⟩
  · simp only [Function.update_of_ne hroot]
    exact hok.root_owner
  · rw [Function.update_of_ne hroot]
    rcases Finset.mem_insert.mp hl' with rfl | hl'
    · obtain ⟨hgood', hgeo⟩ := hok.root_list.geometry
      simp only [Function.update_self]
      refine ⟨howner, ?_⟩
      rw [← hgeo]
      exact hsize.symm
    · simp only [Function.update_of_ne (hkids l' hl')]
      exact hok.kid l' hl'
  · rcases Finset.mem_insert.mp hl' with rfl | hl'
    · rw [Function.update_self]
      exact hgood.1
    · rw [Function.update_of_ne (hkids l' hl')]
      exact hok.kid_room l' hl'
  · rw [Function.update_of_ne hroot]
    rcases Finset.mem_insert.mp hl' with rfl | hl'
    · simp [hnil] at ha
    · exact hok.kid_slab l' hl' a ha

/-- `slab_list_init` for a child. -/
theorem RunOk.init (hok : RunOk root base r geo lay out) {size chunkSize : ℕ}
    (hop : r.Allowed root (.init l size chunkSize)) :
    ∃ r' geo' out', r.step root (.init l size chunkSize) = some r' ∧
      RunOk root base r' geo' lay out' := by
  obtain ⟨hroot, hkid, hgood⟩ := hop
  have hl : l ∉ insert root r.kids := by simp [hroot, hkid]
  by_cases hbad : (r.st.list root).chunkShift ≠ ceilPow2 size
  · refine ⟨r, geo, out, ?_, hok⟩
    simp [SlabRun.step, Slabs.slabListInit, hbad]
  · rw [not_not] at hbad
    have hstep : r.step root (.init l size chunkSize) = some
        { r with
          st := { r.st with
            list := Function.update r.st.list l ⟨some root, ceilPow2 size, ceilPow2 chunkSize⟩ }
          kids := insert l r.kids } := by
      have hlinks := Slabs.links_eq hok.slabs.linked (hok.slabs.others l hl)
      simp only [SlabRun.step, Slabs.slabListInit, Option.mem_some_iff, exists_eq_left', hbad,
        ne_eq, not_true_eq_false, if_false, hlinks]
    refine ⟨_, Function.update geo l (SlabList.geometry _ hgood.usable), Function.update out l [],
      hstep,
      ?_, fun l' hl' => ?_, ?_, hok.root_nodup, fun l' hl' => ?_⟩
    · exact hok.slabs.addList hl hgood rfl hbad
    · rcases Finset.mem_insert.mp hl' with rfl | hmem
      · rw [Function.update_self]
        exact hok.none_live l' hl
      · have hne : l' ≠ l := by
          rintro rfl
          exact hkid hmem
        rw [Function.update_of_ne hne]
        exact hok.kid_live l' hmem
    · intro y hy
      obtain ⟨hyout, hyslab⟩ := hok.root_live y hy
      rw [Function.update_of_ne (Ne.symm hroot)]
      refine ⟨hyout, fun l' hl' => ?_⟩
      rcases Finset.mem_insert.mp hl' with rfl | hl'
      · simp [hok.slabs.others l' hl]
      · exact hyslab l' hl'
    · apply hok.none_live l'
      intro hmem
      apply hl'
      rcases Finset.mem_insert.mp hmem with rfl | hmem
      · exact Finset.mem_insert_self _ _
      · exact Finset.mem_insert_of_mem (Finset.mem_insert_of_mem hmem)

/-- The root with its first slab. -/
theorem slabsOk_start {st : Slabs} (hnull : ∀ h, st.links.cell (.head h) = 0)
    (hgood : (st.list root).Good) (howner : (st.list root).owner = none)
    (hdvd : 2 ^ (st.list root).sizeShift ∣ base)
    (htop : base + 2 ^ (st.list root).sizeShift ≤ 2 ^ 64) (hpos : base ≠ 0) :
    SlabsOk (st.newSlab root base true) root base ∅
      (fun _ => (st.list root).geometry hgood.usable)
      (Layout.add ⟨fun _ => [], fun _ => []⟩ root base
        ((st.list root).geometry hgood.usable).chunks) (fun _ => []) := by
  have hlinked : Linked 0 st.links (fun _ => []) := ⟨hnull, by simp⟩
  have hempty : ListOk st root ((st.list root).geometry hgood.usable)
      ⟨fun _ => [], fun _ => []⟩ [] := ListOk.of_nil hgood.usable rfl rfl
  have hmem : ∀ l a, a ∈ (Layout.add ⟨fun _ => [], fun _ => []⟩ root base
      ((st.list root).geometry hgood.usable).chunks).slabs l ↔ l = root ∧ a = base := by
    intro l a
    rw [Layout.mem_add]
    simp [Layout.slabs]
  refine ⟨hlinked.insert hpos (by simp) (.free root), fun l hl => ?_, fun l hl => ?_, by simp,
    howner, fun a => ?_, ?_, by simp, by simp, by simp⟩
  · obtain rfl : l = root := by simpa using hl
    exact hempty.addSlab (by simp [Layout.slabs]) hdvd htop true
  · have hne : l ≠ root := by simpa using hl
    simp [Layout.slabs, Layout.add, hne]
  · rw [hmem]
    simp
  · simp [Slabs.newSlab]

/-- The slab that the root reserves on the slack memory. -/
theorem slabsOk_reserve {st₀ st₁ st₂ : Slabs} {info info' : BootInfo} {vm vm' : BootVm}
    {size chunkSize : ℕ} (hzero : ∀ h, st₀.links.cell (.head h) = 0)
    (hinit : st₀.slabListInit root none size chunkSize = some st₁) (hgood : (st₁.list root).Good)
    (hres : st₁.slabListReserveOnSlack 1 info vm root = some (true, st₂, info', vm')) :
    ∃ base geo lay, SlabsOk st₂ root base ∅ geo lay fun _ => [] := by
  simp only [Slabs.slabListInit, Option.not_mem_none, false_and, exists_false, if_false,
    Option.some.injEq] at hinit
  have howner : (st₁.list root).owner = none := by
    rw [← hinit]
    simp
  have hnull : ∀ h, st₁.links.cell (.head h) = 0 := by
    intro h
    rw [← hinit]
    simp only
    by_cases h₁ : h = .used root
    · simp [h₁]
    · by_cases h₂ : h = .free root
      · simp [h₂]
      · simp [h₁, h₂, hzero]
  obtain ⟨hshift, -⟩ := hgood.usable.shifts
  simp only [Slabs.slabListReserveOnSlack, howner, u32_shift hshift] at hres
  obtain ⟨⟨p, info₁, vm₁⟩, halloc, hfinish⟩ := Option.map_eq_some_iff.mp hres
  have hp := kernelSlackAlloc_addr halloc
  have haligned : 2 ^ (st₁.list root).sizeShift ∣
      alignUp info.kernelSlack (2 ^ (st₁.list root).sizeShift) := Nat.dvd_mul_left _ _
  obtain ⟨hdvd, hlt, hpos⟩ := kernelVaddr_aligned (by omega) haligned (alignUp_lt _ _)
  rw [← hp] at hdvd hlt hpos
  simp only [if_pos hpos, Prod.mk.injEq, true_and] at hfinish
  obtain ⟨rfl, -, -⟩ := hfinish
  have htop := add_two_pow_le_of_dvd (by omega) hdvd hlt
  exact ⟨p, _, _, slabsOk_start hnull hgood howner hdvd htop hpos⟩

/-- Before the first call of a caller. -/
theorem runOk_start {st₀ st₁ st₂ : Slabs} {info info' : BootInfo} {vm vm' : BootVm}
    {size chunkSize : ℕ} (hzero : ∀ h, st₀.links.cell (.head h) = 0)
    (hinit : st₀.slabListInit root none size chunkSize = some st₁) (hgood : (st₁.list root).Good)
    (hres : st₁.slabListReserveOnSlack 1 info vm root = some (true, st₂, info', vm')) :
    ∃ base geo lay out, RunOk root base ⟨st₂, ∅, fun _ => []⟩ geo lay out := by
  obtain ⟨base, geo, lay, hok⟩ := slabsOk_reserve hzero hinit hgood hres
  exact ⟨base, geo, lay, _, hok, by simp, by simp, List.nodup_nil, by simp⟩

/-- The objects are addresses that are out. -/
theorem RunOk.out_of_object (hok : RunOk root base r geo lay out) {o : ℕ × ℕ}
    (ho : r.Object root o) : o.1 ∈ insert root r.kids ∧ o.2 ∈ out o.1 := by
  obtain ⟨l, x⟩ := o
  rcases ho with hlive | ⟨rfl, l', hl', hhas⟩
  · by_cases hl : l ∈ insert root r.kids
    · refine ⟨hl, ?_⟩
      rcases Finset.mem_insert.mp hl with rfl | hl
      · exact (hok.root_live x hlive).1
      · exact hok.kid_live l hl ▸ hlive
    · simp only [hok.none_live l hl, List.not_mem_nil] at hlive
  · refine ⟨Finset.mem_insert_self _ _, hok.slabs.kid_slab l' hl' x ?_⟩
    exact hok.slabs.has_iff.mp hhas

/-- A chunk of a child lies inside a chunk of the root. -/
theorem RunOk.kid_inside (hok : RunOk root base r geo lay out) (hl : l ∈ r.kids)
    (hx : x ∈ out l) :
    ∃ a ∈ lay.slabs l, a ∈ out root ∧ 2 ^ (geo root).chunkShift ∣ a ∧
      r.st.range (l, x) ⊆ r.st.range (root, a) := by
  have hkid := hok.slabs.lists l (Finset.mem_insert_of_mem hl)
  obtain ⟨a, ha, -, hlow, hhigh⟩ := hkid.placed hx
  have hout := hok.slabs.kid_slab l hl a ha
  refine ⟨a, ha, hout, (hok.slabs.root_chunk hout).2.2.1, ?_⟩
  simp only [Slabs.range, hkid.shifts.2, hok.slabs.root_list.shifts.2]
  rw [← (hok.slabs.kid l hl).2]
  exact Set.Ico_subset_Ico (by omega) hhigh

/-- An object of a child and one of the root are apart or one is inside the other. -/
theorem RunOk.kid_root_apart (hok : RunOk root base r geo lay out) (hl : l ∈ r.kids) {y : ℕ}
    (hx : x ∈ out l) (hy : y ∈ out root) :
    Disjoint (r.st.range (l, x)) (r.st.range (root, y)) ∨ r.Inside root (l, x) (root, y) := by
  obtain ⟨a, ha, hout, hdvd, hsub⟩ := hok.kid_inside hl hx
  by_cases heq : y = a
  · exact Or.inr ⟨rfl, hl, hok.slabs.has_iff.mpr (heq ▸ ha), heq ▸ hsub⟩
  · refine Or.inl (Set.disjoint_of_subset_left hsub ?_)
    simp only [Slabs.range, hok.slabs.root_list.shifts.2]
    exact disjoint_of_aligned hdvd (hok.slabs.root_chunk hy).2.2.1 (Ne.symm heq)

/-- Objects that are not the same are apart, or one is inside the other. -/
theorem RunOk.apart (hok : RunOk root base r geo lay out) {o o' : ℕ × ℕ}
    (ho : r.Object root o) (ho' : r.Object root o') (hne : o ≠ o') :
    Disjoint (r.st.range o) (r.st.range o') ∨ r.Inside root o o' ∨ r.Inside root o' o := by
  obtain ⟨hl, hx⟩ := hok.out_of_object ho
  obtain ⟨hl', hx'⟩ := hok.out_of_object ho'
  obtain ⟨l, x⟩ := o
  obtain ⟨l', x'⟩ := o'
  by_cases heq : l = l'
  · subst heq
    have hlist := hok.slabs.lists l hl
    obtain ⟨-, -, hdvd, -⟩ := hlist.placed hx
    obtain ⟨-, -, hdvd', -⟩ := hlist.placed hx'
    simp only [Slabs.range, hlist.shifts.2]
    exact Or.inl (disjoint_of_aligned hdvd hdvd' fun h => hne (by rw [h]))
  rcases Finset.mem_insert.mp hl with rfl | hkid <;>
  rcases Finset.mem_insert.mp hl' with rfl | hkid'
  · exact absurd rfl heq
  · rcases hok.kid_root_apart hkid' hx' hx with hdisj | hin
    · exact Or.inl hdisj.symm
    · exact Or.inr (Or.inr hin)
  · rcases hok.kid_root_apart hkid hx hx' with hdisj | hin
    · exact Or.inl hdisj
    · exact Or.inr (Or.inl hin)
  · -- slabs of different children are different chunks of the root
    obtain ⟨a, ha, -, hdvd, hsub⟩ := hok.kid_inside hkid hx
    obtain ⟨b, hb, -, hdvd', hsub'⟩ := hok.kid_inside hkid' hx'
    have hab : a ≠ b := by
      rintro rfl
      exact heq (Layout.list_unique hok.slabs.linked ha hb)
    refine Or.inl (Set.disjoint_of_subset hsub hsub' ?_)
    simp only [Slabs.range, hok.slabs.root_list.shifts.2]
    exact disjoint_of_aligned hdvd hdvd' hab

/-- Every allowed operation completes and keeps the run in order. -/
theorem RunOk.step (hok : RunOk root base r geo lay out) {op : SlabOp}
    (hop : r.Allowed root op) :
    ∃ r' geo' lay' out', r.step root op = some r' ∧ RunOk root base r' geo' lay' out' := by
  cases op with
  | init l size chunkSize =>
    obtain ⟨r', geo', out', hstep, hok'⟩ := hok.init hop
    exact ⟨r', geo', lay, out', hstep, hok'⟩
  | alloc l =>
    obtain ⟨r', lay', out', hstep, hok'⟩ := hok.alloc hop
    exact ⟨r', geo, lay', out', hstep, hok'⟩
  | free l x =>
    obtain ⟨r', lay', out', hstep, hok'⟩ := hok.free hop.1 hop.2
    exact ⟨r', geo, lay', out', hstep, hok'⟩

/-- However lists of two levels are used: the addresses that callers hold are distinct, none
of them holds a slab of a child, all objects are aligned chunks of a slab of their list behind
its header, and two objects are apart unless one is an object of a child inside the chunk of
the root that holds its slab. Every allowed operation completes. -/
theorem slab_objects_apart {st₀ st₁ st₂ : Slabs} {info info' : BootInfo} {vm vm' : BootVm}
    {size chunkSize : ℕ} (hzero : ∀ h, st₀.links.cell (.head h) = 0)
    (hinit : st₀.slabListInit root none size chunkSize = some st₁) (hgood : (st₁.list root).Good)
    (hres : st₁.slabListReserveOnSlack 1 info vm root = some (true, st₂, info', vm'))
    (hrun : Reaches (SlabRun.step root) (SlabRun.Allowed root) ⟨st₂, ∅, fun _ => []⟩ r) :
    (∀ l, (r.live l).Nodup) ∧ (∀ x ∈ r.live root, ¬ r.Holder x) ∧
      (∀ o, r.Object root o → r.st.Placed o) ∧
      (∀ o o', r.Object root o → r.Object root o' → o ≠ o' →
        Disjoint (r.st.range o) (r.st.range o') ∨ r.Inside root o o' ∨ r.Inside root o' o) ∧
      ∀ op, r.Allowed root op → (r.step root op).isSome := by
  obtain ⟨base, geo₀, lay₀, out₀, hok₀⟩ := runOk_start hzero hinit hgood hres
  obtain ⟨geo, lay, out, hok⟩ : ∃ geo lay out, RunOk root base r geo lay out := by
    apply hrun.invariant ⟨geo₀, lay₀, out₀, hok₀⟩
    rintro r op r' ⟨geo, lay, out, hok⟩ hop hstep
    obtain ⟨r'', geo', lay', out', hstep', hok'⟩ := hok.step hop
    rw [hstep, Option.some.injEq] at hstep'
    exact ⟨geo', lay', out', hstep' ▸ hok'⟩
  refine ⟨fun l => ?_, fun x hx => ?_, fun o ho => ?_, fun o o' => hok.apart, fun op hop => ?_⟩
  · by_cases hl : l ∈ insert root r.kids
    · rcases Finset.mem_insert.mp hl with rfl | hkid
      · exact hok.root_nodup
      · rw [hok.kid_live l hkid]
        exact (hok.slabs.lists l hl).nodup
    · rw [hok.none_live l hl]
      exact List.nodup_nil
  · rintro ⟨l, hl, hhas⟩
    exact (hok.root_live x hx).2 l hl (hok.slabs.has_iff.mp hhas)
  · obtain ⟨hl, hx⟩ := hok.out_of_object ho
    have hlist := hok.slabs.lists o.1 hl
    obtain ⟨a, ha, hdvd, hlow, hhigh⟩ := hlist.placed hx
    rw [Slabs.Placed, hlist.shifts.1, hlist.shifts.2]
    refine ⟨hdvd, ?_, a, hok.slabs.has_iff.mpr ha, ?_, hhigh⟩
    · have hnull : a ≠ 0 := by
        rcases Layout.mem_slabs.mp ha with ha | ha <;> exact hok.slabs.linked.ne_null ha
      omega
    · rw [(hlist.slab a ha).numReserved]
      exact hlow
  · obtain ⟨r', -, -, -, hstep, -⟩ := hok.step hop
    rw [hstep]
    rfl

/-- The lists of `kmalloc_get_slab` have sizes that `slab_init` can handle. -/
theorem kmallocGetSlab_good {st st' : Slabs} {elemSize : ℕ}
    (h : kmallocGetSlab st elemSize = some (l, st')) :
    (SlabList.mk (some slRoot) (ceilPow2 kmallocChunkSize)
      (ceilPow2 (u32 (1 <<< ceilPow2 elemSize)))).Good := by
  have hall : ∀ shift : Fin 10, 4 ≤ shift.val → (SlabList.mk (some slRoot)
      (ceilPow2 kmallocChunkSize) (ceilPow2 (u32 (1 <<< shift.val)))).Good := by decide +kernel
  simp only [kmallocGetSlab] at h
  split_ifs at h with hrange
  all_goals exact hall ⟨ceilPow2 elemSize, by omega⟩ (by simp only; omega)

/-- Static memory before `kmalloc_init`. -/
def Slabs.blank : Slabs where
  links := ⟨fun _ => 0, fun _ => none⟩
  slab := fun _ => ⟨0, 0, 0, 0, false, 0, fun _ => 0⟩
  list := fun _ => ⟨none, 0, 0⟩

/-- The root of `kmalloc` and its list for objects of 512 bytes, with the kernel ending at 1MB and
the slack memory mapped up to 4MB. -/
theorem slab_objects_apart_kmalloc :
    ∃ st₁ st₂ info' vm' r,
      Slabs.blank.slabListInit slRoot none page2mSize kmallocChunkSize = some st₁ ∧
      st₁.slabListReserveOnSlack 1 ⟨0x100000, 0x400000, 0x100000, [], 0⟩ ⟨fun _ => 0, 0⟩ slRoot =
        some (true, st₂, info', vm') ∧
      runOps (SlabRun.step slRoot) (SlabRun.Allowed slRoot) ⟨st₂, ∅, fun _ => []⟩
        [.init 6 kmallocChunkSize 512, .alloc 6, .alloc 0, .alloc 6,
          .free 6 0xFFFFFFFF80204200] = some r ∧
      r.live 6 = [0xFFFFFFFF80204400] ∧ r.live 0 = [0xFFFFFFFF80208000] ∧
      ∀ o, r.Object slRoot o → r.st.Placed o := by
  have hall : ((Slabs.blank.slabListInit slRoot none page2mSize kmallocChunkSize).bind fun st₁ =>
      (st₁.slabListReserveOnSlack 1 ⟨0x100000, 0x400000, 0x100000, [], 0⟩ ⟨fun _ => 0, 0⟩
        slRoot).bind fun x =>
        (runOps (SlabRun.step slRoot) (SlabRun.Allowed slRoot) ⟨x.2.1, ∅, fun _ => []⟩
          [.init 6 kmallocChunkSize 512, .alloc 6, .alloc 0, .alloc 6,
            .free 6 0xFFFFFFFF80204200]).map fun r =>
          (decide (st₁.list slRoot).Good, x.1, r.live 6, r.live 0)) =
      some (true, true, [0xFFFFFFFF80204400], [0xFFFFFFFF80208000]) := by decide +kernel
  obtain ⟨st₁, hinit, hrest⟩ := Option.bind_eq_some_iff.mp hall
  obtain ⟨⟨ok, st₂, info', vm'⟩, hres, hrest⟩ := Option.bind_eq_some_iff.mp hrest
  obtain ⟨r, hrun, heq⟩ := Option.map_eq_some_iff.mp hrest
  simp only [Prod.mk.injEq, decide_eq_true_eq] at heq
  obtain ⟨hgood, rfl, hlive, hlive'⟩ := heq
  have hobjects := slab_objects_apart (fun _ => rfl) hinit hgood hres
    (Reaches.of_runOps hrun)
  exact ⟨st₁, st₂, info', vm', r, hinit, hres, hrun, hlive, hlive', hobjects.2.2.1⟩

end Runs

end Smor.Alloc
