import Smor.Alloc.Chunks
import Smor.Lib.Aligned

/-!
# The slabs of one slab list

`ListOk` says what the slabs of a list are like: those on `free_slabs` have a free chunk, those
on `used_slabs` have none, and the addresses that are out are the chunks that are not free.
Taking a chunk and giving one back keep this and leave other lists alone, and so do a new slab
and the loss of a slab without chunks that are out.
-/

namespace Smor.Alloc

open Smor.Lib Smor.Vm

/-- The slabs on the lists, and the free chunks of every slab. -/
structure Layout where
  nodes : SlabHead → List ℕ
  free : ℕ → List ℕ

/-- The slabs of a list. -/
def Layout.slabs (lay : Layout) (l : ℕ) : List ℕ := lay.nodes (.free l) ++ lay.nodes (.used l)

/-- The layout with a new slab on `free_slabs`. -/
def Layout.add (lay : Layout) (l p : ℕ) (free : List ℕ) : Layout where
  nodes := Function.update lay.nodes (.free l) (p :: lay.nodes (.free l))
  free := Function.update lay.free p free

/-- The layout without a slab on `free_slabs`. -/
def Layout.drop (lay : Layout) (l p : ℕ) : Layout where
  nodes := Function.update lay.nodes (.free l) ((lay.nodes (.free l)).erase p)
  free := lay.free

/-- The address of a chunk behind the header that is not free. -/
def Geometry.Taken (g : Geometry) (free : List ℕ) (a x : ℕ) : Prop :=
  ∃ i, g.numReserved ≤ i ∧ i < g.numChunks ∧ i ∉ free ∧ x = a + i * 2 ^ g.chunkShift

/-- A slab list in order, with the addresses that are out. -/
structure ListOk (st : Slabs) (l : ℕ) (g : Geometry) (lay : Layout) (out : List ℕ) : Prop where
  geometry : ∃ h : (st.list l).Usable, (st.list l).geometry h = g
  aligned : ∀ a ∈ lay.slabs l, 2 ^ g.sizeShift ∣ a
  top : ∀ a ∈ lay.slabs l, a + 2 ^ g.sizeShift ≤ 2 ^ 64
  slab : ∀ a ∈ lay.slabs l, SlabOk g (st.slab a) (lay.free a)
  free_ne : ∀ a ∈ lay.nodes (.free l), lay.free a ≠ []
  used_nil : ∀ a ∈ lay.nodes (.used l), lay.free a = []
  taken : ∀ x, x ∈ out ↔ ∃ a ∈ lay.slabs l, g.Taken (lay.free a) a x
  nodup : out.Nodup

/-- What a step on the slabs of one list leaves as it is. -/
structure Local (l : ℕ) (st st' : Slabs) (lay lay' : Layout) : Prop where
  linked : Linked 0 st'.links lay'.nodes
  list : st'.list = st.list
  heads : ∀ l' ≠ l, lay'.nodes (.free l') = lay.nodes (.free l') ∧
    lay'.nodes (.used l') = lay.nodes (.used l')
  slabs : ∀ a, a ∈ lay'.slabs l ↔ a ∈ lay.slabs l
  outside : ∀ a, a ∉ lay.slabs l → st'.slab a = st.slab a ∧ lay'.free a = lay.free a
  reserved : ∀ a, (st'.slab a).reserved = (st.slab a).reserved

/-- A slab is on `free_slabs` or `used_slabs` of a list. -/
def Slabs.Has (st : Slabs) (l a : ℕ) : Prop :=
  ∃ h nodes, (h = SlabHead.free l ∨ h = SlabHead.used l) ∧
    Chain 0 (fun b => st.links.cell (.next b)) (st.links.cell (.head h)) nodes ∧ a ∈ nodes

section Levels

variable {st st' : Slabs} {l s x i : ℕ} {g : Geometry} {lay lay' : Layout} {out : List ℕ}

theorem Layout.mem_slabs {a : ℕ} :
    a ∈ lay.slabs l ↔ a ∈ lay.nodes (.free l) ∨ a ∈ lay.nodes (.used l) := List.mem_append

/-- Every list keeps its slabs. -/
theorem Local.slabs_all (hloc : Local l st st' lay lay') (l' a : ℕ) :
    a ∈ lay'.slabs l' ↔ a ∈ lay.slabs l' := by
  by_cases heq : l' = l
  · rw [heq]
    exact hloc.slabs a
  · rw [Layout.slabs, Layout.slabs, (hloc.heads l' heq).1, (hloc.heads l' heq).2]

theorem Slabs.has_iff (hlinked : Linked 0 st.links lay.nodes) {a : ℕ} :
    st.Has l a ↔ a ∈ lay.slabs l := by
  rw [Layout.mem_slabs]
  constructor
  · rintro ⟨h, nodes, hh, hchain, ha⟩
    rw [hchain.unique (hlinked.threaded h).chain] at ha
    rcases hh with rfl | rfl
    · exact Or.inl ha
    · exact Or.inr ha
  · rintro (ha | ha)
    · exact ⟨.free l, _, Or.inl rfl, (hlinked.threaded _).chain, ha⟩
    · exact ⟨.used l, _, Or.inr rfl, (hlinked.threaded _).chain, ha⟩

/-- The heads of a list without slabs are null already. -/
theorem Slabs.links_eq (hlinked : Linked 0 st.links lay.nodes) (hnil : lay.slabs l = []) :
    { st.links with
      cell := Function.update (Function.update st.links.cell (.head (.free l)) 0)
        (.head (.used l)) 0 } = st.links := by
  rw [Layout.slabs, List.append_eq_nil_iff] at hnil
  have hfree := hlinked.threaded (.free l)
  have hused := hlinked.threaded (.used l)
  rw [hnil.1] at hfree
  rw [hnil.2] at hused
  have hcell : Function.update (Function.update st.links.cell (.head (.free l)) 0)
      (.head (.used l)) 0 = st.links.cell := by
    conv_rhs => rw [← Function.update_eq_self (.head (.used l)) st.links.cell,
      ← Function.update_eq_self (.head (.free l)) st.links.cell]
    simp only [Links.Threaded] at hfree hused
    simp [hfree, hused]
  rw [hcell]

/-- A slab is on one list only. -/
theorem Layout.list_unique (hlinked : Linked 0 st.links lay.nodes) {a l' : ℕ}
    (ha : a ∈ lay.slabs l) (ha' : a ∈ lay.slabs l') : l = l' := by
  by_contra hne
  rcases Layout.mem_slabs.mp ha with h₁ | h₁ <;> rcases Layout.mem_slabs.mp ha' with h₂ | h₂ <;>
  · have heq := hlinked.unique _ _ a h₁ h₂
    simp [hne] at heq

theorem Layout.mem_add (lay : Layout) (l p : ℕ) (free : List ℕ) (l' a : ℕ) :
    a ∈ (lay.add l p free).slabs l' ↔ a ∈ lay.slabs l' ∨ (l' = l ∧ a = p) := by
  rw [Layout.mem_slabs, Layout.mem_slabs]
  by_cases heq : l' = l
  · subst heq
    simp only [Layout.add, Function.update_self, List.mem_cons, ne_eq, reduceCtorEq,
      not_false_eq_true, Function.update_of_ne, true_and]
    tauto
  · simp [Layout.add, heq]

/-- A slab is recovered from the address of a chunk by clearing the low bits. -/
theorem Geometry.mask_chunk (g : Geometry) {a : ℕ} (ha : 2 ^ g.sizeShift ∣ a)
    (hi : i < g.numChunks) :
    (a + i * 2 ^ g.chunkShift) / 2 ^ g.sizeShift * 2 ^ g.sizeShift = a := by
  have hle := g.chunk_le hi
  have hpow := Nat.two_pow_pos g.chunkShift
  obtain ⟨q, rfl⟩ := ha
  rw [Nat.mul_add_div (Nat.two_pow_pos _), Nat.div_eq_of_lt (by omega), Nat.add_zero, Nat.mul_comm]

/-- Chunks at the same address are the same chunk of the same slab. -/
theorem Geometry.chunk_inj (g : Geometry) {a b j : ℕ} (ha : 2 ^ g.sizeShift ∣ a)
    (hb : 2 ^ g.sizeShift ∣ b) (hi : i < g.numChunks) (hj : j < g.numChunks)
    (heq : a + i * 2 ^ g.chunkShift = b + j * 2 ^ g.chunkShift) : a = b ∧ i = j := by
  have hab : a = b := by rw [← g.mask_chunk ha hi, heq, g.mask_chunk hb hj]
  refine ⟨hab, ?_⟩
  rw [hab] at heq
  exact Nat.eq_of_mul_eq_mul_right (Nat.two_pow_pos _) (Nat.add_left_cancel heq)

/-- A chunk that is not free is one of those that are taken if it is not. -/
theorem Geometry.taken_iff_cons (g : Geometry) {free : List ℕ} {a : ℕ} (hmin : g.numReserved ≤ i)
    (hmax : i < g.numChunks) (hnot : i ∉ free) :
    g.Taken free a x ↔ x = a + i * 2 ^ g.chunkShift ∨ g.Taken (i :: free) a x := by
  constructor
  · rintro ⟨j, hjmin, hjmax, hj, rfl⟩
    by_cases heq : j = i
    · exact Or.inl (by rw [heq])
    · exact Or.inr ⟨j, hjmin, hjmax, by simp [heq, hj], rfl⟩
  · rintro (rfl | ⟨j, hjmin, hjmax, hj, rfl⟩)
    · exact ⟨i, hmin, hmax, hnot, rfl⟩
    · exact ⟨j, hjmin, hjmax, fun hmem => hj (List.mem_cons_of_mem _ hmem), rfl⟩

/-- A list depends on its own slabs only. -/
theorem ListOk.congr (hok : ListOk st l g lay out) (hlist : st'.list l = st.list l)
    (hfree : lay'.nodes (.free l) = lay.nodes (.free l))
    (hused : lay'.nodes (.used l) = lay.nodes (.used l))
    (hslab : ∀ a ∈ lay.slabs l, st'.slab a = st.slab a ∧ lay'.free a = lay.free a) :
    ListOk st' l g lay' out := by
  have hslabs : lay'.slabs l = lay.slabs l := by rw [Layout.slabs, Layout.slabs, hfree, hused]
  refine ⟨?_, ?_, ?_, ?_, ?_, ?_, ?_, hok.nodup⟩
  · rw [hlist]
    exact hok.geometry
  · rw [hslabs]
    exact hok.aligned
  · rw [hslabs]
    exact hok.top
  · rw [hslabs]
    intro a ha
    rw [(hslab a ha).1, (hslab a ha).2]
    exact hok.slab a ha
  · rw [hfree]
    intro a ha
    rw [(hslab a (Layout.mem_slabs.mpr (Or.inl ha))).2]
    exact hok.free_ne a ha
  · rw [hused]
    intro a ha
    rw [(hslab a (Layout.mem_slabs.mpr (Or.inr ha))).2]
    exact hok.used_nil a ha
  · intro x
    rw [hok.taken x, hslabs]
    constructor
    · rintro ⟨a, ha, hx⟩
      exact ⟨a, ha, (hslab a ha).2 ▸ hx⟩
    · rintro ⟨a, ha, hx⟩
      exact ⟨a, ha, (hslab a ha).2 ▸ hx⟩

/-- A step on one list keeps the others in order. -/
theorem Local.other (hloc : Local l st st' lay lay') (hlinked : Linked 0 st.links lay.nodes)
    {l' : ℕ} (hne : l' ≠ l) (hok : ListOk st l' g lay out) : ListOk st' l' g lay' out := by
  refine hok.congr (congrFun hloc.list l') (hloc.heads l' hne).1 (hloc.heads l' hne).2 ?_
  intro a ha
  apply hloc.outside
  intro ha'
  exact hne (Layout.list_unique hlinked ha ha')

/-- A list after a change of one slab's header, when the slab is on the right list. -/
theorem ListOk.setSlab (hok : ListOk st l g lay out) (hs : s ∈ lay.slabs l) {slab : Slab}
    {free : List ℕ} (hslab : SlabOk g slab free) {nodes : SlabHead → List ℕ} {out' : List ℕ}
    (hst : st'.slab = Function.update st.slab s slab) (hlist : st'.list = st.list)
    (hfree : ∀ a ∈ nodes (.free l), (a = s ∧ free ≠ []) ∨ (a ≠ s ∧ a ∈ lay.nodes (.free l)))
    (hused : ∀ a ∈ nodes (.used l), (a = s ∧ free = []) ∨ (a ≠ s ∧ a ∈ lay.nodes (.used l)))
    (hmem : ∀ a ∈ lay.slabs l, a ∈ nodes (.free l) ++ nodes (.used l))
    (htaken : ∀ x, x ∈ out' ↔ ∃ a ∈ lay.slabs l, g.Taken (Function.update lay.free s free a) a x)
    (hnodup : out'.Nodup) :
    ListOk st' l g ⟨nodes, Function.update lay.free s free⟩ out' := by
  have hold : ∀ a ∈ nodes (.free l) ++ nodes (.used l), a ∈ lay.slabs l := by
    intro a ha
    rcases List.mem_append.mp ha with ha | ha
    · rcases hfree a ha with ⟨rfl, -⟩ | ⟨-, ha⟩
      · exact hs
      · exact Layout.mem_slabs.mpr (Or.inl ha)
    · rcases hused a ha with ⟨rfl, -⟩ | ⟨-, ha⟩
      · exact hs
      · exact Layout.mem_slabs.mpr (Or.inr ha)
  refine ⟨?_, fun a ha => hok.aligned a (hold a ha), fun a ha => hok.top a (hold a ha),
    fun a ha => ?_, fun a ha => ?_, fun a ha => ?_, fun x => ?_, hnodup⟩
  · rw [hlist]
    exact hok.geometry
  · rw [hst]
    by_cases heq : a = s
    · subst heq
      simpa using hslab
    · simp only [Function.update_of_ne heq]
      exact hok.slab a (hold a ha)
  · rcases hfree a ha with ⟨rfl, hne⟩ | ⟨hne, ha⟩
    · simpa using hne
    · simp only [Function.update_of_ne hne]
      exact hok.free_ne a ha
  · rcases hused a ha with ⟨rfl, hnil⟩ | ⟨hne, ha⟩
    · simpa using hnil
    · simp only [Function.update_of_ne hne]
      exact hok.used_nil a ha
  · rw [htaken x]
    constructor
    · rintro ⟨a, ha, hx⟩
      exact ⟨a, hmem a ha, hx⟩
    · rintro ⟨a, ha, hx⟩
      exact ⟨a, hold a ha, hx⟩

/-- The address of a free chunk is not out. -/
theorem ListOk.notMem_out (hok : ListOk st l g lay out) (hs : s ∈ lay.slabs l)
    (hi : i ∈ lay.free s) : s + i * 2 ^ g.chunkShift ∉ out := by
  intro hx
  obtain ⟨a, ha, j, -, hj, hnot, heq⟩ := (hok.taken _).mp hx
  have hi' := ((hok.slab s hs).range i hi).2
  obtain ⟨rfl, rfl⟩ := g.chunk_inj (hok.aligned s hs) (hok.aligned a ha) hi' hj heq
  exact hnot hi

/-- The lists after one of their slabs has moved from one list to the other. -/
theorem Layout.mem_move {nodes : SlabHead → List ℕ} (h h' : SlabHead) (hne : h' ≠ h)
    (hnodup : (nodes h).Nodup) :
    (∀ a, a ∈ Function.update (Function.update nodes h ((nodes h).erase s)) h' (s :: nodes h') h ↔
      a ≠ s ∧ a ∈ nodes h) ∧
    (∀ a, a ∈ Function.update (Function.update nodes h ((nodes h).erase s)) h' (s :: nodes h') h' ↔
      a = s ∨ a ∈ nodes h') := by
  constructor
  · intro a
    rw [Function.update_of_ne (Ne.symm hne), Function.update_self]
    exact hnodup.mem_erase_iff
  · intro a
    rw [Function.update_self]
    exact List.mem_cons

/-- A step that changes the header of one slab and perhaps moves it is local. -/
theorem Local.of_setSlab {slab : Slab} {free : List ℕ} {nodes : SlabHead → List ℕ}
    (hs : s ∈ lay.slabs l) (hlinked : Linked 0 st'.links nodes)
    (hst : st'.slab = Function.update st.slab s slab) (hlist : st'.list = st.list)
    (hheads : ∀ h, h ≠ .free l → h ≠ .used l → nodes h = lay.nodes h)
    (hmem : ∀ a, (a ∈ nodes (.free l) ∨ a ∈ nodes (.used l)) ↔ a ∈ lay.slabs l)
    (hres : slab.reserved = (st.slab s).reserved) :
    Local l st st' lay ⟨nodes, Function.update lay.free s free⟩ := by
  refine ⟨hlinked, hlist, fun l' hne => ?_, fun a => ?_, fun a ha => ?_, fun a => ?_⟩
  · exact ⟨hheads _ (by simp [hne]) (by simp), hheads _ (by simp) (by simp [hne])⟩
  · rw [Layout.mem_slabs]
    exact hmem a
  · have hne : a ≠ s := by
      rintro rfl
      exact ha hs
    rw [hst]
    exact ⟨Function.update_of_ne hne _ _, Function.update_of_ne hne _ _⟩
  · rw [hst]
    by_cases heq : a = s
    · rw [heq, Function.update_self, hres]
    · rw [Function.update_of_ne heq]

/-- The chunks that are taken after a change of the free chunks of one slab. -/
theorem taken_update {free : List ℕ} (hs : s ∈ lay.slabs l) :
    (∃ a ∈ lay.slabs l, g.Taken (Function.update lay.free s free a) a x) ↔
      g.Taken free s x ∨ ∃ a ∈ lay.slabs l, a ≠ s ∧ g.Taken (lay.free a) a x := by
  constructor
  · rintro ⟨a, ha, hx⟩
    by_cases heq : a = s
    · rw [heq, Function.update_self] at hx
      exact Or.inl hx
    · rw [Function.update_of_ne heq] at hx
      exact Or.inr ⟨a, ha, heq, hx⟩
  · rintro (hx | ⟨a, ha, hne, hx⟩)
    · exact ⟨s, hs, by rwa [Function.update_self]⟩
    · exact ⟨a, ha, by rwa [Function.update_of_ne hne]⟩

/-- A chunk is taken from a slab on `free_slabs`, which moves to `used_slabs` if it was the last
one. -/
theorem ListOk.take (hlinked : Linked 0 st.links lay.nodes) (hok : ListOk st l g lay out)
    (hs : s ∈ lay.nodes (.free l)) :
    ∃ x slab lay', slabAlloc s (st.slab s) = (x, slab) ∧ x ∉ out ∧ x ≠ 0 ∧
      slabIsEmpty slab = false ∧ (2 ≤ (lay.free s).length → slabIsFull slab = false) ∧
      Local l st (if slabIsFull slab then (st.setSlab s slab).move s (.used l)
        else st.setSlab s slab) lay lay' ∧
      ListOk (if slabIsFull slab then (st.setSlab s slab).move s (.used l)
        else st.setSlab s slab) l g lay' (x :: out) := by
  have hmem : s ∈ lay.slabs l := Layout.mem_slabs.mpr (Or.inl hs)
  have hslab := hok.slab s hmem
  obtain ⟨i, rest, hfree⟩ := List.exists_cons_of_ne_nil (hok.free_ne s hs)
  rw [hfree] at hslab
  obtain ⟨slab, halloc, hslab', hres⟩ := hslab.slabAlloc_spec (hok.top s hmem)
  have hrange := hslab.range i List.mem_cons_self
  have hirest := (List.nodup_cons.mp hslab.chain.nodup).1
  have hnew : s + i * 2 ^ g.chunkShift ∉ out := hok.notMem_out hmem (by simp [hfree])
  -- the chunk that is taken and those that were out before
  have htaken : ∀ x, x ∈ (s + i * 2 ^ g.chunkShift) :: out ↔
      ∃ a ∈ lay.slabs l, g.Taken (Function.update lay.free s rest a) a x := by
    intro x
    rw [List.mem_cons, hok.taken x, taken_update hmem,
      g.taken_iff_cons hrange.1 hrange.2 hirest, ← hfree, or_assoc, ← taken_update hmem,
      Function.update_eq_self]
  have hnodup : ((s + i * 2 ^ g.chunkShift) :: out).Nodup := List.nodup_cons.mpr ⟨hnew, hok.nodup⟩
  have hdisj : ∀ a ∈ lay.nodes (.used l), a ≠ s := by
    rintro a ha rfl
    have heq := hlinked.unique _ _ a ha hs
    simp at heq
  have hpos := hlinked.ne_null hs
  have hempty : slabIsEmpty slab = false := by
    have hlen := hslab.length_le
    rw [Bool.eq_false_iff, ne_eq, hslab'.isEmpty_iff]
    rw [List.length_cons] at hlen
    omega
  by_cases hlast : rest = []
  · have hfull : slabIsFull slab = true := hslab'.isFull_iff.mpr hlast
    obtain ⟨hfrom, hto⟩ := Layout.mem_move (s := s) (.free l) (.used l) (by simp)
      (hlinked.nodup (.free l))
    refine ⟨_, slab, ⟨Function.update (Function.update lay.nodes (.free l)
      ((lay.nodes (.free l)).erase s)) (.used l) (s :: lay.nodes (.used l)),
      Function.update lay.free s rest⟩, halloc, hnew, by omega, hempty,
      by simp [hfree, hlast], ?_⟩
    rw [hfull, if_pos rfl]
    constructor
    · refine Local.of_setSlab hmem (hlinked.move hs (by simp)) rfl rfl (fun h h₁ h₂ => ?_)
        (fun a => ?_) hres
      · rw [Function.update_of_ne h₂, Function.update_of_ne h₁]
      · rw [hfrom, hto, Layout.mem_slabs]
        by_cases heq : a = s
        · simp [heq, hs]
        · simp [heq]
    · refine hok.setSlab hmem hslab' rfl rfl (fun a ha => ?_) (fun a ha => ?_) (fun a ha => ?_)
        htaken hnodup
      · exact Or.inr ((hfrom a).mp ha)
      · rcases (hto a).mp ha with heq | ha
        · exact Or.inl ⟨heq, hlast⟩
        · exact Or.inr ⟨hdisj a ha, ha⟩
      · rw [List.mem_append, hfrom, hto]
        by_cases heq : a = s
        · exact Or.inr (Or.inl heq)
        · rcases Layout.mem_slabs.mp ha with ha | ha
          · exact Or.inl ⟨heq, ha⟩
          · exact Or.inr (Or.inr ha)
  · have hfull : slabIsFull slab = false := by
      rw [Bool.eq_false_iff, ne_eq, hslab'.isFull_iff]
      exact hlast
    refine ⟨_, slab, ⟨lay.nodes, Function.update lay.free s rest⟩, halloc, hnew, by omega, hempty,
      fun _ => hfull, ?_⟩
    rw [hfull, if_neg (by simp)]
    constructor
    · exact Local.of_setSlab hmem hlinked rfl rfl (fun _ _ _ => rfl)
        (fun a => Layout.mem_slabs.symm) hres
    · refine hok.setSlab hmem hslab' rfl rfl (fun a ha => ?_) (fun a ha => ?_) (fun a ha => ha)
        htaken hnodup
      · by_cases heq : a = s
        · exact Or.inl ⟨heq, hlast⟩
        · exact Or.inr ⟨heq, ha⟩
      · exact Or.inr ⟨hdisj a ha, ha⟩

/-- A chunk is given back to its slab, which moves to `free_slabs` if it had none. -/
theorem ListOk.give (hlinked : Linked 0 st.links lay.nodes) (hok : ListOk st l g lay out)
    (hx : x ∈ out) :
    ∃ s ∈ lay.slabs l, ∃ lay', x / 2 ^ g.sizeShift * 2 ^ g.sizeShift = s ∧
      Local l st (if slabIsFull (st.slab s) then
        (st.setSlab s (slabFree s (st.slab s) x)).move s (.free l)
        else st.setSlab s (slabFree s (st.slab s) x)) lay lay' ∧
      ListOk (if slabIsFull (st.slab s) then
        (st.setSlab s (slabFree s (st.slab s) x)).move s (.free l)
        else st.setSlab s (slabFree s (st.slab s) x)) l g lay' (out.erase x) ∧
      s ∈ lay'.nodes (.free l) := by
  obtain ⟨s, hs, i, hmin, hmax, hnot, rfl⟩ := (hok.taken x).mp hx
  have hslab := hok.slab s hs
  have hslab' := hslab.slabFree_spec s hmin hmax hnot
  have hnodup : (out.erase (s + i * 2 ^ g.chunkShift)).Nodup := hok.nodup.erase _
  have htaken : ∀ y, y ∈ out.erase (s + i * 2 ^ g.chunkShift) ↔
      ∃ a ∈ lay.slabs l, g.Taken (Function.update lay.free s (i :: lay.free s) a) a y := by
    intro y
    have hall : y ∈ out ↔ y = s + i * 2 ^ g.chunkShift ∨
        ∃ a ∈ lay.slabs l, g.Taken (Function.update lay.free s (i :: lay.free s) a) a y := by
      rw [hok.taken y, taken_update hs, ← or_assoc, ← g.taken_iff_cons hmin hmax hnot,
        ← taken_update hs, Function.update_eq_self]
    have hfresh : ¬∃ a ∈ lay.slabs l, g.Taken (Function.update lay.free s (i :: lay.free s) a) a
        (s + i * 2 ^ g.chunkShift) := by
      rintro ⟨a, ha, j, -, hj, hjnot, heq⟩
      obtain ⟨rfl, rfl⟩ := g.chunk_inj (hok.aligned s hs) (hok.aligned a ha) hmax hj heq
      simp at hjnot
    rw [hok.nodup.mem_erase_iff, hall]
    constructor
    · rintro ⟨hne, rfl | hy⟩
      · exact absurd rfl hne
      · exact hy
    · intro hy
      refine ⟨?_, Or.inr hy⟩
      rintro rfl
      exact hfresh hy
  have hres : (slabFree s (st.slab s) (s + i * 2 ^ g.chunkShift)).reserved =
      (st.slab s).reserved := rfl
  refine ⟨s, hs, ?_⟩
  by_cases hfull : slabIsFull (st.slab s) = true
  · -- a slab without a free chunk is on `used_slabs`
    have hnil : lay.free s = [] := hslab.isFull_iff.mp hfull
    have hused : s ∈ lay.nodes (.used l) :=
      (Layout.mem_slabs.mp hs).resolve_left fun hmem => hok.free_ne s hmem hnil
    have hdisj : ∀ a ∈ lay.nodes (.free l), a ≠ s := by
      rintro a ha rfl
      exact hok.free_ne a ha hnil
    obtain ⟨hfrom, hto⟩ := Layout.mem_move (s := s) (.used l) (.free l) (by simp)
      (hlinked.nodup (.used l))
    refine ⟨⟨Function.update (Function.update lay.nodes (.used l)
      ((lay.nodes (.used l)).erase s)) (.free l) (s :: lay.nodes (.free l)),
      Function.update lay.free s (i :: lay.free s)⟩, g.mask_chunk (hok.aligned s hs) hmax, ?_⟩
    rw [hfull, if_pos rfl]
    refine ⟨?_, ?_, (hto s).mpr (Or.inl rfl)⟩
    · refine Local.of_setSlab hs (hlinked.move hused (by simp)) rfl rfl (fun h h₁ h₂ => ?_)
        (fun a => ?_) hres
      · rw [Function.update_of_ne h₁, Function.update_of_ne h₂]
      · rw [hfrom, hto, Layout.mem_slabs]
        by_cases heq : a = s
        · simp [heq, hused]
        · simp [heq]
    · refine hok.setSlab hs hslab' rfl rfl (fun a ha => ?_) (fun a ha => ?_) (fun a ha => ?_)
        htaken hnodup
      · rcases (hto a).mp ha with heq | ha
        · exact Or.inl ⟨heq, by simp⟩
        · exact Or.inr ⟨hdisj a ha, ha⟩
      · exact Or.inr ((hfrom a).mp ha)
      · rw [List.mem_append, hfrom, hto]
        by_cases heq : a = s
        · exact Or.inl (Or.inl heq)
        · rcases Layout.mem_slabs.mp ha with ha | ha
          · exact Or.inl (Or.inr ha)
          · exact Or.inr ⟨heq, ha⟩
  · have hne : lay.free s ≠ [] := fun hnil => hfull (hslab.isFull_iff.mpr hnil)
    have hfree : s ∈ lay.nodes (.free l) :=
      (Layout.mem_slabs.mp hs).resolve_right fun hmem => hne (hok.used_nil s hmem)
    refine ⟨⟨lay.nodes, Function.update lay.free s (i :: lay.free s)⟩,
      g.mask_chunk (hok.aligned s hs) hmax, ?_⟩
    rw [if_neg hfull]
    refine ⟨?_, ?_, hfree⟩
    · exact Local.of_setSlab hs hlinked rfl rfl (fun _ _ _ => rfl) (fun a => Layout.mem_slabs.symm)
        hres
    · refine hok.setSlab hs hslab' rfl rfl (fun a ha => ?_) (fun a ha => ?_) (fun a ha => ha)
        htaken hnodup
      · by_cases heq : a = s
        · exact Or.inl ⟨heq, by simp⟩
        · exact Or.inr ⟨heq, ha⟩
      · refine Or.inr ⟨?_, ha⟩
        rintro rfl
        exact hne (hok.used_nil _ ha)

theorem ListOk.shifts (hok : ListOk st l g lay out) :
    (st.list l).sizeShift = g.sizeShift ∧ (st.list l).chunkShift = g.chunkShift := by
  obtain ⟨h, rfl⟩ := hok.geometry
  exact ⟨rfl, rfl⟩

/-- A list without slabs. -/
theorem ListOk.of_nil {sl : SlabList} (h : sl.Usable) (hsl : st.list l = sl)
    (hnil : lay.slabs l = []) : ListOk st l (sl.geometry h) lay [] := by
  subst hsl
  have hnodes := List.append_eq_nil_iff.mp hnil
  constructor
  · exact ⟨h, rfl⟩
  · simp [hnil]
  · simp [hnil]
  · simp [hnil]
  · simp [hnodes.1]
  · simp [hnodes.2]
  · simp [hnil]
  · exact List.nodup_nil

/-- A new slab, with all chunks behind its header free. -/
theorem ListOk.addSlab {p : ℕ} (hok : ListOk st l g lay out) (hnew : p ∉ lay.slabs l)
    (hdvd : 2 ^ g.sizeShift ∣ p) (htop : p + 2 ^ g.sizeShift ≤ 2 ^ 64) (reserved : Bool) :
    ListOk (st.newSlab l p reserved) l g (lay.add l p g.chunks) out := by
  obtain ⟨husable, hgeo⟩ := hok.geometry
  have hslab := slabInit_spec husable (st.slab p)
  rw [hgeo] at hslab
  have hmem := lay.mem_add l p g.chunks l
  have hne : ∀ a ∈ lay.slabs l, a ≠ p := by
    rintro a ha rfl
    exact hnew ha
  refine ⟨⟨husable, hgeo⟩, fun a ha => ?_, fun a ha => ?_, fun a ha => ?_, fun a ha => ?_,
    fun a ha => ?_, fun x => ?_, hok.nodup⟩
  · rcases (hmem a).mp ha with ha | ⟨-, rfl⟩
    · exact hok.aligned a ha
    · exact hdvd
  · rcases (hmem a).mp ha with ha | ⟨-, rfl⟩
    · exact hok.top a ha
    · exact htop
  · rcases (hmem a).mp ha with hold | ⟨-, rfl⟩
    · simp only [Slabs.newSlab, Layout.add, Function.update_of_ne (hne a hold)]
      exact hok.slab a hold
    · simp only [Slabs.newSlab, Layout.add, Function.update_self]
      exact ⟨hslab.chunkShift, hslab.numChunks, hslab.numReserved, hslab.chain, hslab.numFree,
        hslab.range⟩
  · simp only [Layout.add, Function.update_self, List.mem_cons] at ha
    rcases ha with rfl | ha
    · simpa only [Layout.add, Function.update_self] using g.chunks_ne_nil
    · simp only [Layout.add, Function.update_of_ne (hne a (Layout.mem_slabs.mpr (Or.inl ha)))]
      exact hok.free_ne a ha
  · simp only [Layout.add, ne_eq, reduceCtorEq, not_false_eq_true, Function.update_of_ne] at ha
    simp only [Layout.add, Function.update_of_ne (hne a (Layout.mem_slabs.mpr (Or.inr ha)))]
    exact hok.used_nil a ha
  · rw [hok.taken x]
    constructor
    · rintro ⟨a, ha, htaken⟩
      refine ⟨a, (hmem a).mpr (Or.inl ha), ?_⟩
      simpa only [Layout.add, Function.update_of_ne (hne a ha)] using htaken
    · rintro ⟨a, ha, htaken⟩
      rcases (hmem a).mp ha with hold | ⟨-, rfl⟩
      · refine ⟨a, hold, ?_⟩
        simpa only [Layout.add, Function.update_of_ne (hne a hold)] using htaken
      · obtain ⟨i, hmin, hmax, hnot, -⟩ := htaken
        simp only [Layout.add, Function.update_self] at hnot
        exact absurd (g.mem_chunks.mpr ⟨hmin, hmax⟩) hnot

/-- A new slab of another list. -/
theorem ListOk.addSlab_other {p l' : ℕ} {free : List ℕ} (hok : ListOk st l' g lay out)
    (hne : l' ≠ l) (hnew : p ∉ lay.slabs l') (reserved : Bool) :
    ListOk (st.newSlab l p reserved) l' g (lay.add l p free) out := by
  refine hok.congr rfl (by simp [Layout.add, hne]) (by simp [Layout.add]) (fun a ha => ?_)
  have hap : a ≠ p := by
    rintro rfl
    exact hnew ha
  simp [Slabs.newSlab, Layout.add, hap]

theorem Layout.mem_drop (hlinked : Linked 0 st.links lay.nodes) (hs : s ∈ lay.nodes (.free l))
    (l' a : ℕ) : a ∈ (lay.drop l s).slabs l' ↔ a ∈ lay.slabs l' ∧ a ≠ s := by
  have hother : ∀ h, h ≠ .free l → a ∈ lay.nodes h → a ≠ s := by
    rintro h hne ha rfl
    exact hne (hlinked.unique h _ a ha hs)
  rw [Layout.mem_slabs, Layout.mem_slabs]
  by_cases heq : l' = l
  · subst heq
    simp only [Layout.drop, Function.update_self, ne_eq, reduceCtorEq, not_false_eq_true,
      Function.update_of_ne, (hlinked.nodup (.free l')).mem_erase_iff]
    have := hother (.used l') (by simp)
    tauto
  · have h₁ := hother (.free l') (by simpa using heq)
    have h₂ := hother (.used l') (by simp)
    simp only [Layout.drop, ne_eq, SlabHead.free.injEq, heq, not_false_eq_true,
      Function.update_of_ne, reduceCtorEq]
    tauto

/-- A slab without chunks that are out leaves its list. -/
theorem ListOk.dropSlab (hok : ListOk st l g lay out) (hlinked : Linked 0 st.links lay.nodes)
    (hs : s ∈ lay.nodes (.free l)) (hlen : (lay.free s).length + g.numReserved = g.numChunks) :
    ListOk { st with links := st.links.remove 0 s } l g (lay.drop l s) out := by
  have hmem := Layout.mem_drop hlinked hs l
  refine ⟨hok.geometry, fun a ha => ?_, fun a ha => ?_, fun a ha => ?_, fun a ha => ?_,
    fun a ha => ?_, fun x => ?_, hok.nodup⟩
  · exact hok.aligned a ((hmem a).mp ha).1
  · exact hok.top a ((hmem a).mp ha).1
  · exact hok.slab a ((hmem a).mp ha).1
  · simp only [Layout.drop, Function.update_self] at ha
    exact hok.free_ne a (List.mem_of_mem_erase ha)
  · simp only [Layout.drop, ne_eq, reduceCtorEq, not_false_eq_true, Function.update_of_ne] at ha
    exact hok.used_nil a ha
  · rw [hok.taken x]
    constructor
    · rintro ⟨a, ha, i, hmin, hmax, hnot, hx⟩
      -- all chunks of the slab that leaves are free
      have hne : a ≠ s := by
        rintro rfl
        exact hnot ((hok.slab a ha).mem_of_length hlen hmin hmax)
      exact ⟨a, (hmem a).mpr ⟨ha, hne⟩, i, hmin, hmax, hnot, hx⟩
    · rintro ⟨a, ha, hx⟩
      exact ⟨a, ((hmem a).mp ha).1, hx⟩

/-- A slab of another list leaves. -/
theorem ListOk.dropSlab_other {l' : ℕ} (hok : ListOk st l' g lay out) (hne : l' ≠ l) :
    ListOk { st with links := st.links.remove 0 s } l' g (lay.drop l s) out :=
  hok.congr rfl (by simp [Layout.drop, hne]) (by simp [Layout.drop]) fun _ _ => ⟨rfl, rfl⟩

/-- An address that is out is an aligned chunk behind the header of its slab. -/
theorem ListOk.placed (hok : ListOk st l g lay out) (hx : x ∈ out) :
    ∃ a ∈ lay.slabs l, 2 ^ g.chunkShift ∣ x ∧ a + g.numReserved * 2 ^ g.chunkShift ≤ x ∧
      x + 2 ^ g.chunkShift ≤ a + 2 ^ g.sizeShift := by
  obtain ⟨a, ha, i, hmin, hmax, -, rfl⟩ := (hok.taken x).mp hx
  have hle := g.chunk_le hmax
  have hdvd : 2 ^ g.chunkShift ∣ 2 ^ g.sizeShift := by
    rw [← g.size_eq]
    exact Nat.dvd_mul_left _ _
  refine ⟨a, ha, Nat.dvd_add (Nat.dvd_trans hdvd (hok.aligned a ha)) (Nat.dvd_mul_left _ _), ?_,
    by omega⟩
  exact Nat.add_le_add_left (Nat.mul_le_mul_right _ hmin) a

end Levels

end Smor.Alloc
