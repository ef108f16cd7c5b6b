import Smor.Alloc.Levels
import Smor.Vm.Slack

/-!
# Slab lists that own each other

The owner of a slab list is another slab list, which may have an owner itself. `ForestOk` is the
invariant of such lists: every list is in order, and what a list has handed out is held by
callers or is a slab of a list that it owns. A byte may lie in slabs of several lists,
inside each other; one of these lists is the innermost. That there is only one shows that
a chunk that a list hands out is not a slab already.
-/

namespace Smor.Alloc

open Smor.Lib Smor.Vm

/-- A byte of a slab of the list that is in no slab made of the list's chunks. -/
def Innermost (st : Slabs) (geo : ℕ → Geometry) (lay : Layout) (l b : ℕ) : Prop :=
  (∃ a ∈ lay.slabs l, a ≤ b ∧ b < a + 2 ^ (geo l).sizeShift) ∧
    ∀ k, (st.list k).owner = some l →
      ∀ p ∈ lay.slabs k, ¬(p ≤ b ∧ b < p + 2 ^ (geo k).sizeShift)

/-- The address is that of a slab of a list that `l` owns. -/
def Held (st : Slabs) (lay : Layout) (l x : ℕ) : Prop :=
  ∃ k, (st.list k).owner = some l ∧ x ∈ lay.slabs k

/-- Slab lists in order, where every owner has a lower rank, and all slabs lie below `top`. `out`
are the addresses that each list has handed out, and `live` are those of them that callers
hold. -/
structure ForestOk (st : Slabs) (lists : List ℕ) (rank : ℕ → ℕ) (geo : ℕ → Geometry) (top : ℕ)
    (lay : Layout) (out live : ℕ → List ℕ) : Prop where
  linked : Linked 0 st.links lay.nodes
  list : ∀ l ∈ lists, ListOk st l (geo l) lay (out l)
  others : ∀ l ∉ lists, lay.slabs l = []
  owner : ∀ l ∈ lists, ∀ o, (st.list l).owner = some o → o ∈ lists ∧ rank o < rank l ∧
    (geo l).sizeShift = (geo o).chunkShift ∧ (geo l).numReserved + 2 ≤ (geo l).numChunks
  reserved : ∀ l, (st.list l).owner = none → ∀ a ∈ lay.slabs l, (st.slab a).reserved = true
  below : ∀ l, ∀ a ∈ lay.slabs l, a + 2 ^ (geo l).sizeShift ≤ top
  innermost : ∀ b l l', Innermost st geo lay l b → Innermost st geo lay l' b → l = l'
  split : ∀ l ∈ lists, ∀ x, x ∈ out l ↔ x ∈ live l ∨ Held st lay l x
  apart : ∀ l, ∀ x ∈ live l, ¬Held st lay l x
  nodup : ∀ l, (live l).Nodup
  none_live : ∀ l ∉ lists, live l = []

/-- The address is that of a chunk behind the header of a slab of the list, and not on the chain of
free chunks. -/
def Slabs.Allocated (st : Slabs) (l x : ℕ) : Prop :=
  ∃ a i free, st.Has l a ∧ Chain 0 (st.slab a).chunkList (st.slab a).freeList free ∧
    (st.slab a).numReserved ≤ i ∧ i < (st.slab a).numChunks ∧ i ∉ free ∧
    x = a + i * 2 ^ (st.slab a).chunkShift

/-- The address is that of a chunk on the chain of free chunks of a slab of the list. -/
def Slabs.FreeChunk (st : Slabs) (l x : ℕ) : Prop :=
  ∃ a i free, st.Has l a ∧ Chain 0 (st.slab a).chunkList (st.slab a).freeList free ∧ i ∈ free ∧
    x = a + i * 2 ^ (st.slab a).chunkShift

section Forest

variable {st st' : Slabs} {lists : List ℕ} {rank : ℕ → ℕ} {geo : ℕ → Geometry}
  {lay lay' : Layout} {out live : ℕ → List ℕ} {l o s p x b top : ℕ}

theorem ForestOk.mem_lists (hok : ForestOk st lists rank geo top lay out live) {a : ℕ}
    (ha : a ∈ lay.slabs l) : l ∈ lists := by
  by_contra hl
  rw [hok.others l hl] at ha
  simp at ha

/-- The slabs of the lists with an owner are chunks of the owner. -/
theorem ForestOk.held (hok : ForestOk st lists rank geo top lay out live)
    (howner : (st.list l).owner = some o) {a : ℕ} (ha : a ∈ lay.slabs l) :
    a ∈ out o ∧ (geo l).sizeShift = (geo o).chunkShift := by
  obtain ⟨ho, -, hsize, -⟩ := hok.owner l (hok.mem_lists ha) o howner
  exact ⟨(hok.split o ho a).mpr (Or.inr ⟨l, howner, ha⟩), hsize⟩

/-- A chunk that is out lies behind the header of a slab, and inside the slab. -/
theorem ListOk.chunk {g : Geometry} {out : List ℕ} (hok : ListOk st l g lay out) (hx : x ∈ out) :
    ∃ a ∈ lay.slabs l, a + 2 ^ g.chunkShift ≤ x ∧ x + 2 ^ g.chunkShift ≤ a + 2 ^ g.sizeShift ∧
      2 ^ g.chunkShift ∣ x ∧ x / 2 ^ g.sizeShift * 2 ^ g.sizeShift = a := by
  obtain ⟨a, ha, hdvd, hlow, hhigh⟩ := hok.placed hx
  have hheader := Nat.le_mul_of_pos_left (2 ^ g.chunkShift) g.reserved_pos
  have hpos := Nat.two_pow_pos g.chunkShift
  have hmask : x / 2 ^ g.sizeShift * 2 ^ g.sizeShift ≤ x := Nat.div_mul_le_self x _
  have hrest := Nat.lt_div_mul_add (a := x) (Nat.two_pow_pos g.sizeShift)
  exact ⟨a, ha, by omega, hhigh, hdvd, eq_of_aligned (b := x) (Nat.dvd_mul_left _ _)
    (hok.aligned a ha) ⟨hmask, hrest⟩ (by omega)⟩

/-- In an object that a caller holds, the list that handed it out is the innermost. -/
theorem ForestOk.innermost_live (hok : ForestOk st lists rank geo top lay out live) (hl : l ∈ lists)
    (hx : x ∈ live l) (hb : x ≤ b ∧ b < x + 2 ^ (geo l).chunkShift) :
    Innermost st geo lay l b := by
  have hlist := hok.list l hl
  obtain ⟨a, ha, hlow, hhigh, hdvd, -⟩ := hlist.chunk ((hok.split l hl x).mpr (Or.inl hx))
  refine ⟨⟨a, ha, by omega, by omega⟩, ?_⟩
  intro k howner p hp hpb
  obtain ⟨hout, hsize⟩ := hok.held howner hp
  obtain ⟨-, -, -, -, hdvd', -⟩ := hlist.chunk hout
  rw [hsize] at hpb
  obtain rfl := eq_of_aligned hdvd hdvd' hb hpb
  exact hok.apart l x hx ⟨k, howner, hp⟩

/-- In the header of a slab, the list of the slab is the innermost. -/
theorem ForestOk.innermost_slab (hok : ForestOk st lists rank geo top lay out live) {a : ℕ}
    (ha : a ∈ lay.slabs l) : Innermost st geo lay l a := by
  have hpos := Nat.two_pow_pos (geo l).sizeShift
  refine ⟨⟨a, ha, le_refl a, by omega⟩, ?_⟩
  intro k howner p hp hpa
  have hlist := hok.list l (hok.mem_lists ha)
  obtain ⟨hout, hsize⟩ := hok.held howner hp
  obtain ⟨a', ha', hlow, hhigh, -, -⟩ := hlist.chunk hout
  rw [hsize] at hpa
  have hsame := eq_of_aligned (b := a) (hlist.aligned a ha) (hlist.aligned a' ha') (by omega)
    (by omega)
  omega

/-- An object that a caller holds is not a slab. -/
theorem ForestOk.live_not_slab (hok : ForestOk st lists rank geo top lay out live) (ho : o ∈ lists)
    (hp : p ∈ live o) (l : ℕ) : p ∉ lay.slabs l := by
  intro hmem
  have hpos := Nat.two_pow_pos (geo o).chunkShift
  obtain rfl := hok.innermost p l o (hok.innermost_slab hmem)
    (hok.innermost_live ho hp ⟨le_refl p, by omega⟩)
  -- a slab and a chunk of another slab of the same list are not at the same address
  have hlist := hok.list l ho
  obtain ⟨a, ha, hlow, hhigh, -, -⟩ := hlist.chunk ((hok.split l ho p).mpr (Or.inl hp))
  have hsame := eq_of_aligned (b := p) (hlist.aligned p hmem) (hlist.aligned a ha) (by omega)
    (by omega)
  omega

/-- A step that keeps the slabs of every list keeps the innermost lists. -/
theorem innermost_congr (hlist : st'.list = st.list)
    (hslabs : ∀ l a, a ∈ lay'.slabs l ↔ a ∈ lay.slabs l) (geo : ℕ → Geometry) (l b : ℕ) :
    Innermost st' geo lay' l b ↔ Innermost st geo lay l b := by
  simp only [Innermost, hlist, hslabs]

/-- A step that keeps the slabs of every list keeps the chunks that are held. -/
theorem held_congr (hlist : st'.list = st.list)
    (hslabs : ∀ l a, a ∈ lay'.slabs l ↔ a ∈ lay.slabs l) (l x : ℕ) :
    Held st' lay' l x ↔ Held st lay l x := by
  simp only [Held, hlist, hslabs]

/-- A step on the slabs of one list keeps the lists in order, if it keeps what is held. -/
theorem ForestOk.level (hok : ForestOk st lists rank geo top lay out live) (hl : l ∈ lists)
    (hloc : Local l st st' lay lay') {out' live' : List ℕ}
    (hlist : ListOk st' l (geo l) lay' out')
    (hsplit : ∀ x, x ∈ out' ↔ x ∈ live' ∨ Held st lay l x)
    (hapart : ∀ x ∈ live', ¬Held st lay l x) (hnodup : live'.Nodup) :
    ForestOk st' lists rank geo top lay' (Function.update out l out')
      (Function.update live l live') ∧
      ∀ l' a, a ∈ lay'.slabs l' ↔ a ∈ lay.slabs l' := by
  have hslabs := hloc.slabs_all
  have hinner := innermost_congr hloc.list hslabs geo
  have hheld := held_congr hloc.list hslabs
  refine ⟨⟨hloc.linked, ?_, ?_, ?_, ?_, ?_, ?_, ?_, ?_, ?_, ?_⟩, hslabs⟩
  · intro l' hl'
    by_cases heq : l' = l
    · subst heq
      rwa [Function.update_self]
    · rw [Function.update_of_ne heq]
      exact hloc.other hok.linked heq (hok.list l' hl')
  · intro l' hl'
    have hne : l' ≠ l := by
      rintro rfl
      exact hl' hl
    rw [Layout.slabs, (hloc.heads l' hne).1, (hloc.heads l' hne).2]
    exact hok.others l' hl'
  · rw [hloc.list]
    exact hok.owner
  · intro l' hnone a ha
    rw [hloc.list] at hnone
    rw [hloc.reserved]
    exact hok.reserved l' hnone a ((hslabs l' a).mp ha)
  · intro l' a ha
    exact hok.below l' a ((hslabs l' a).mp ha)
  · intro b l₁ l₂ h₁ h₂
    exact hok.innermost b l₁ l₂ ((hinner l₁ b).mp h₁) ((hinner l₂ b).mp h₂)
  · intro l' hl' x
    rw [hheld]
    by_cases heq : l' = l
    · rw [heq, Function.update_self, Function.update_self]
      exact hsplit x
    · rw [Function.update_of_ne heq, Function.update_of_ne heq]
      exact hok.split l' hl' x
  · intro l' x hx
    rw [hheld]
    by_cases heq : l' = l
    · rw [heq, Function.update_self] at hx
      rw [heq]
      exact hapart x hx
    · rw [Function.update_of_ne heq] at hx
      exact hok.apart l' x hx
  · intro l'
    by_cases heq : l' = l
    · rwa [heq, Function.update_self]
    · rw [Function.update_of_ne heq]
      exact hok.nodup l'
  · intro l' hl'
    have hne : l' ≠ l := by
      rintro rfl
      exact hl' hl
    rw [Function.update_of_ne hne]
    exact hok.none_live l' hl'

/-- A chunk is taken from a slab on `free_slabs` for a caller. -/
theorem ForestOk.take (hok : ForestOk st lists rank geo top lay out live) (hl : l ∈ lists)
    (hs : s ∈ lay.nodes (.free l)) :
    ∃ x slab lay', slabAlloc s (st.slab s) = (x, slab) ∧ x ≠ 0 ∧ slabIsEmpty slab = false ∧
      (2 ≤ (lay.free s).length → slabIsFull slab = false) ∧
      ForestOk (if slabIsFull slab then (st.setSlab s slab).move s (.used l)
        else st.setSlab s slab) lists rank geo top lay' (Function.update out l (x :: out l))
        (Function.update live l (x :: live l)) ∧
      ∀ l' a, a ∈ lay'.slabs l' ↔ a ∈ lay.slabs l' := by
  obtain ⟨x, slab, lay', halloc, hnew, hpos, hempty, hfull, hloc, hlist⟩ :=
    (hok.list l hl).take hok.linked hs
  have hfresh : ¬(x ∈ live l ∨ Held st lay l x) := by
    rwa [← hok.split l hl x]
  rw [not_or] at hfresh
  refine ⟨x, slab, lay', halloc, hpos, hempty, hfull, hok.level hl hloc hlist ?_ ?_ ?_⟩
  · intro y
    rw [List.mem_cons, List.mem_cons, hok.split l hl y, or_assoc]
  · intro y hy
    rcases List.mem_cons.mp hy with rfl | hy
    · exact hfresh.2
    · exact hok.apart l y hy
  · exact List.nodup_cons.mpr ⟨hfresh.1, hok.nodup l⟩

/-- A chunk that a caller holds is given back to its slab. -/
theorem ForestOk.give (hok : ForestOk st lists rank geo top lay out live) (hl : l ∈ lists)
    (hx : x ∈ live l) :
    ∃ s ∈ lay.slabs l, ∃ lay', x / 2 ^ (st.list l).sizeShift * 2 ^ (st.list l).sizeShift = s ∧
      ForestOk (if slabIsFull (st.slab s) then
        (st.setSlab s (slabFree s (st.slab s) x)).move s (.free l)
        else st.setSlab s (slabFree s (st.slab s) x)) lists rank geo top lay'
        (Function.update out l ((out l).erase x)) (Function.update live l ((live l).erase x)) ∧
      s ∈ lay'.nodes (.free l) ∧ ∀ l' a, a ∈ lay'.slabs l' ↔ a ∈ lay.slabs l' := by
  have hlist := hok.list l hl
  obtain ⟨s, hs, lay', hmask, hloc, hlist', hfree⟩ :=
    hlist.give hok.linked ((hok.split l hl x).mpr (Or.inl hx))
  rw [hlist.shifts.1]
  have hsplit : ∀ y, y ∈ (out l).erase x ↔ y ∈ (live l).erase x ∨ Held st lay l y := by
    intro y
    rw [hlist.nodup.mem_erase_iff, (hok.nodup l).mem_erase_iff, hok.split l hl y]
    constructor
    · rintro ⟨hne, hy | hy⟩
      · exact Or.inl ⟨hne, hy⟩
      · exact Or.inr hy
    · rintro (⟨hne, hy⟩ | hy)
      · exact ⟨hne, Or.inl hy⟩
      · refine ⟨?_, Or.inr hy⟩
        rintro rfl
        exact hok.apart l y hx hy
  have hapart : ∀ y ∈ (live l).erase x, ¬Held st lay l y := by
    intro y hy
    exact hok.apart l y (List.mem_of_mem_erase hy)
  obtain ⟨hok', hslabs⟩ := hok.level hl hloc hlist' hsplit hapart ((hok.nodup l).erase x)
  exact ⟨s, hs, lay', hmask, hok', hfree, hslabs⟩

/-- A new slab adds its bytes to those where its list may be the innermost. -/
theorem Innermost.of_add {l' : ℕ} {reserved : Bool} {free : List ℕ}
    (h : Innermost (st.newSlab l p reserved) geo (lay.add l p free) l' b) :
    (Innermost st geo lay l' b ∧
        ((st.list l).owner = some l' → ¬(p ≤ b ∧ b < p + 2 ^ (geo l).sizeShift))) ∨
      (l' = l ∧ p ≤ b ∧ b < p + 2 ^ (geo l).sizeShift) := by
  obtain ⟨⟨a, ha, hb⟩, hout⟩ := h
  rcases (lay.mem_add l p free l' a).mp ha with ha | ⟨rfl, rfl⟩
  · refine Or.inl ⟨⟨⟨a, ha, hb⟩, ?_⟩, ?_⟩
    · intro k howner q hq
      exact hout k howner q ((lay.mem_add l p free k q).mpr (Or.inl hq))
    · intro howner
      exact hout l howner p ((lay.mem_add l p free l p).mpr (Or.inr ⟨rfl, rfl⟩))
  · exact Or.inr ⟨rfl, hb⟩

/-- A list gets a new slab, where no list is the innermost but its owner. -/
theorem ForestOk.newSlab (hok : ForestOk st lists rank geo top lay out live) (hl : l ∈ lists)
    (hpos : p ≠ 0) (hnew : ∀ l', p ∉ lay.slabs l') (hdvd : 2 ^ (geo l).sizeShift ∣ p)
    (htop : p + 2 ^ (geo l).sizeShift ≤ 2 ^ 64)
    (hinner : ∀ b l', p ≤ b → b < p + 2 ^ (geo l).sizeShift → Innermost st geo lay l' b →
      (st.list l).owner = some l')
    {reserved : Bool} (hreserved : (st.list l).owner = none → reserved = true)
    {top' : ℕ} (hle : top ≤ top') (hbelow : p + 2 ^ (geo l).sizeShift ≤ top')
    {live' : ℕ → List ℕ}
    (hsplit : ∀ l' ∈ lists, ∀ x, x ∈ out l' ↔
      x ∈ live' l' ∨ Held st lay l' x ∨ ((st.list l).owner = some l' ∧ x = p))
    (hapart : ∀ l', ∀ x ∈ live' l',
      ¬Held st lay l' x ∧ ¬((st.list l).owner = some l' ∧ x = p))
    (hnodup : ∀ l', (live' l').Nodup) (hnone : ∀ l' ∉ lists, live' l' = []) :
    ForestOk (st.newSlab l p reserved) lists rank geo top' (lay.add l p (geo l).chunks) out
      live' := by
  have hmem := lay.mem_add l p (geo l).chunks
  have hfresh : ∀ h, p ∉ lay.nodes h := by
    intro h hmem
    cases h with
    | free l' => exact hnew l' (Layout.mem_slabs.mpr (Or.inl hmem))
    | used l' => exact hnew l' (Layout.mem_slabs.mpr (Or.inr hmem))
  have hheld : ∀ l' x, Held (st.newSlab l p reserved) (lay.add l p (geo l).chunks) l' x ↔
      Held st lay l' x ∨ ((st.list l).owner = some l' ∧ x = p) := by
    intro l' x
    constructor
    · rintro ⟨k, howner, hx⟩
      rcases (hmem k x).mp hx with hx | ⟨rfl, rfl⟩
      · exact Or.inl ⟨k, howner, hx⟩
      · exact Or.inr ⟨howner, rfl⟩
    · rintro (⟨k, howner, hx⟩ | ⟨howner, rfl⟩)
      · exact ⟨k, howner, (hmem k x).mpr (Or.inl hx)⟩
      · exact ⟨l, howner, (hmem l x).mpr (Or.inr ⟨rfl, rfl⟩)⟩
  refine ⟨hok.linked.insert hpos hfresh (.free l), ?_, ?_, hok.owner, ?_, ?_, ?_, ?_, ?_, hnodup,
    hnone⟩
  · intro l' hl'
    by_cases heq : l' = l
    · subst heq
      exact (hok.list l' hl').addSlab (hnew l') hdvd htop reserved
    · exact (hok.list l' hl').addSlab_other heq (hnew l') reserved
  · intro l' hl'
    have hne : l' ≠ l := by
      rintro rfl
      exact hl' hl
    have hnil := hok.others l' hl'
    simpa [Layout.slabs, Layout.add, hne] using hnil
  · intro l' howner a ha
    rcases (hmem l' a).mp ha with hold | ⟨rfl, rfl⟩
    · have hap : a ≠ p := by
        rintro rfl
        exact hnew l' hold
      simp only [Slabs.newSlab, Function.update_of_ne hap]
      exact hok.reserved l' howner a hold
    · simp only [Slabs.newSlab, Function.update_self]
      exact hreserved howner
  · intro l' a ha
    rcases (hmem l' a).mp ha with hold | ⟨rfl, rfl⟩
    · exact (hok.below l' a hold).trans hle
    · exact hbelow
  · -- in the new slab its list takes the place of its owner
    intro b l₁ l₂ h₁ h₂
    rcases h₁.of_add with ⟨hi₁, hout₁⟩ | ⟨rfl, hb₁⟩ <;>
    rcases h₂.of_add with ⟨hi₂, hout₂⟩ | ⟨rfl, hb₂⟩
    · exact hok.innermost b l₁ l₂ hi₁ hi₂
    · exact absurd hb₂ (hout₁ (hinner b l₁ hb₂.1 hb₂.2 hi₁))
    · exact absurd hb₁ (hout₂ (hinner b l₂ hb₁.1 hb₁.2 hi₂))
    · rfl
  · intro l' hl' x
    rw [hheld]
    exact hsplit l' hl' x
  · intro l' x hx
    rw [hheld, not_or]
    exact hapart l' x hx

/-- A list makes a slab of a chunk that its owner has handed out. -/
theorem ForestOk.addSlab (hok : ForestOk st lists rank geo top lay out live) (hl : l ∈ lists)
    (howner : (st.list l).owner = some o) (hp : p ∈ live o) (reserved : Bool) :
    ForestOk (st.newSlab l p reserved) lists rank geo top (lay.add l p (geo l).chunks) out
      (Function.update live o ((live o).erase p)) := by
  obtain ⟨ho, -, hsize, -⟩ := hok.owner l hl o howner
  have hlist := hok.list o ho
  obtain ⟨a, ha, hlow, hhigh, hdvd, -⟩ := hlist.chunk ((hok.split o ho p).mpr (Or.inl hp))
  have htop := hlist.top a ha
  have hbelow := hok.below o a ha
  have hpow := Nat.two_pow_pos (geo o).chunkShift
  refine hok.newSlab hl (by omega) (hok.live_not_slab ho hp) (by rwa [hsize])
    (by rw [hsize]; omega) ?_ (by simp [howner]) (le_refl top) (by rw [hsize]; omega) ?_ ?_ ?_ ?_
  · intro b l' hlow hhigh hin
    rw [hsize] at hhigh
    rw [howner, hok.innermost b o l' (hok.innermost_live ho hp ⟨hlow, hhigh⟩) hin]
  · intro l' hl' x
    rw [hok.split l' hl' x, howner, Option.some.injEq]
    by_cases heq : l' = o
    · subst heq
      rw [Function.update_self, (hok.nodup l').mem_erase_iff]
      constructor
      · rintro (hx | hx)
        · by_cases hxp : x = p
          · exact Or.inr (Or.inr ⟨rfl, hxp⟩)
          · exact Or.inl ⟨hxp, hx⟩
        · exact Or.inr (Or.inl hx)
      · rintro (⟨-, hx⟩ | hx | ⟨-, rfl⟩)
        · exact Or.inl hx
        · exact Or.inr hx
        · exact Or.inl hp
    · rw [Function.update_of_ne heq]
      simp [Ne.symm heq]
  · intro l' x hx
    rw [howner, Option.some.injEq]
    by_cases heq : l' = o
    · rw [heq, Function.update_self] at hx
      obtain ⟨hne, hx⟩ := (hok.nodup o).mem_erase_iff.mp hx
      exact ⟨heq ▸ hok.apart o x hx, fun h => hne h.2⟩
    · rw [Function.update_of_ne heq] at hx
      exact ⟨hok.apart l' x hx, fun h => heq h.1.symm⟩
  · intro l'
    by_cases heq : l' = o
    · rw [heq, Function.update_self]
      exact (hok.nodup o).erase p
    · rw [Function.update_of_ne heq]
      exact hok.nodup l'
  · intro l' hl'
    have hne : l' ≠ o := by
      rintro rfl
      exact hl' ho
    rw [Function.update_of_ne hne]
    exact hok.none_live l' hl'

/-- A list without an owner gets a slab behind all others. -/
theorem ForestOk.addRoot (hok : ForestOk st lists rank geo top lay out live) (hl : l ∈ lists)
    (howner : (st.list l).owner = none) (hpos : p ≠ 0) (hdvd : 2 ^ (geo l).sizeShift ∣ p)
    (htop : p + 2 ^ (geo l).sizeShift ≤ 2 ^ 64)
    (hbelow : top ≤ p) :
    ForestOk (st.newSlab l p true) lists rank geo (p + 2 ^ (geo l).sizeShift)
      (lay.add l p (geo l).chunks) out live := by
  refine hok.newSlab hl hpos ?_ hdvd htop ?_ (fun _ => rfl) (by omega) (le_refl _) ?_ ?_ hok.nodup
    hok.none_live
  · intro l' hmem
    have hsize := Nat.two_pow_pos (geo l').sizeShift
    have := hok.below l' p hmem
    omega
  · rintro b l' hlow - ⟨⟨a, ha, hb⟩, -⟩
    have := hok.below l' a ha
    omega
  · intro l' hl' x
    rw [hok.split l' hl' x, howner]
    simp
  · intro l' x hx
    rw [howner]
    exact ⟨hok.apart l' x hx, by simp⟩

/-- When a slab without chunks that are out leaves its list, the owner becomes the innermost list
there. -/
theorem ForestOk.innermost_drop (hok : ForestOk st lists rank geo top lay out live) {l' : ℕ}
    (howner : (st.list l).owner = some o) (hs : s ∈ lay.nodes (.free l))
    (hlen : (lay.free s).length + (geo l).numReserved = (geo l).numChunks)
    (h : Innermost { st with links := st.links.remove 0 s } geo (lay.drop l s) l' b) :
    (Innermost st geo lay l' b ∧ ¬(l' = l ∧ s ≤ b ∧ b < s + 2 ^ (geo l).sizeShift)) ∨
      (l' = o ∧ Innermost st geo lay l b ∧ s ≤ b ∧ b < s + 2 ^ (geo l).sizeShift) := by
  have hmem := Layout.mem_drop hok.linked hs
  have hslab : s ∈ lay.slabs l := Layout.mem_slabs.mpr (Or.inl hs)
  have hlist := hok.list l (hok.mem_lists hslab)
  obtain ⟨⟨a, ha, hb⟩, hout⟩ := h
  have hleft : ¬(l' = l ∧ s ≤ b ∧ b < s + 2 ^ (geo l).sizeShift) := by
    rintro ⟨rfl, hin⟩
    obtain ⟨ha, hne⟩ := (hmem l' a).mp ha
    exact hne (eq_of_aligned (hlist.aligned a ha) (hlist.aligned s hslab) hb hin)
  by_cases hin : s ≤ b ∧ b < s + 2 ^ (geo l).sizeShift
  · by_cases heq : l' = o
    · -- no chunk of the slab holds a slab, since all of them are free
      refine Or.inr ⟨heq, ⟨⟨s, hslab, hin⟩, ?_⟩, hin⟩
      intro k hk q hq hqb
      obtain ⟨hqout, hsize⟩ := hok.held hk hq
      obtain ⟨a', ha', i, hmin, hmax, hnot, rfl⟩ := (hlist.taken q).mp hqout
      have hle := (geo l).chunk_le hmax
      rw [hsize] at hqb
      obtain rfl := eq_of_aligned (b := b) (hlist.aligned a' ha') (hlist.aligned s hslab)
        (by omega) hin
      exact hnot ((hlist.slab a' hslab).mem_of_length hlen hmin hmax)
    · refine Or.inl ⟨⟨⟨a, ((hmem l' a).mp ha).1, hb⟩, ?_⟩, hleft⟩
      intro k hk q hq
      have hqs : q ≠ s := by
        rintro rfl
        obtain rfl := Layout.list_unique hok.linked hq hslab
        have hsame : some o = some l' := howner.symm.trans hk
        exact heq (Option.some.inj hsame).symm
      exact hout k hk q ((hmem k q).mpr ⟨hq, hqs⟩)
  · refine Or.inl ⟨⟨⟨a, ((hmem l' a).mp ha).1, hb⟩, ?_⟩, hleft⟩
    intro k hk q hq hqb
    have hqs : q ≠ s := by
      rintro rfl
      obtain rfl := Layout.list_unique hok.linked hq hslab
      exact hin hqb
    exact hout k hk q ((hmem k q).mpr ⟨hq, hqs⟩) hqb

/-- A slab without chunks that are out leaves its list, and is an object of the owner. -/
theorem ForestOk.dropSlab (hok : ForestOk st lists rank geo top lay out live)
    (howner : (st.list l).owner = some o) (hs : s ∈ lay.nodes (.free l))
    (hlen : (lay.free s).length + (geo l).numReserved = (geo l).numChunks) :
    ForestOk { st with links := st.links.remove 0 s } lists rank geo top (lay.drop l s) out
      (Function.update live o (s :: live o)) := by
  have hmem := Layout.mem_drop hok.linked hs
  have hslab : s ∈ lay.slabs l := Layout.mem_slabs.mpr (Or.inl hs)
  have hl := hok.mem_lists hslab
  obtain ⟨ho, -, -, -⟩ := hok.owner l hl o howner
  have hheld : ∀ l' x, Held { st with links := st.links.remove 0 s } (lay.drop l s) l' x ↔
      Held st lay l' x ∧ x ≠ s := by
    intro l' x
    constructor
    · rintro ⟨k, hk, hx⟩
      obtain ⟨hx, hne⟩ := (hmem k x).mp hx
      exact ⟨⟨k, hk, hx⟩, hne⟩
    · rintro ⟨⟨k, hk, hx⟩, hne⟩
      exact ⟨k, hk, (hmem k x).mpr ⟨hx, hne⟩⟩
  -- only the owner holds this slab
  have hothers : ∀ l', l' ≠ o → ∀ x, Held st lay l' x → x ≠ s := by
    rintro l' hne x ⟨k, hk, hx⟩ rfl
    obtain rfl := Layout.list_unique hok.linked hx hslab
    exact hne (Option.some.inj (hk.symm.trans howner))
  refine ⟨hok.linked.remove hs, ?_, ?_, hok.owner, ?_, ?_, ?_, ?_, ?_, ?_, ?_⟩
  · intro l' hl'
    by_cases heq : l' = l
    · subst heq
      exact (hok.list l' hl').dropSlab hok.linked hs hlen
    · exact (hok.list l' hl').dropSlab_other heq
  · intro l' hl'
    have hne : l' ≠ l := by
      rintro rfl
      exact hl' hl
    have hnil := hok.others l' hl'
    simpa [Layout.slabs, Layout.drop, hne] using hnil
  · intro l' hnone a ha
    exact hok.reserved l' hnone a ((hmem l' a).mp ha).1
  · intro l' a ha
    exact hok.below l' a ((hmem l' a).mp ha).1
  · intro b l₁ l₂ h₁ h₂
    rcases hok.innermost_drop howner hs hlen h₁ with ⟨hi₁, hout₁⟩ | ⟨rfl, hi₁, hin₁⟩ <;>
    rcases hok.innermost_drop howner hs hlen h₂ with ⟨hi₂, hout₂⟩ | ⟨rfl, hi₂, hin₂⟩
    · exact hok.innermost b l₁ l₂ hi₁ hi₂
    · exact absurd ⟨hok.innermost b l₁ l hi₁ hi₂, hin₂⟩ hout₁
    · exact absurd ⟨hok.innermost b l₂ l hi₂ hi₁, hin₁⟩ hout₂
    · rfl
  · intro l' hl' x
    rw [hok.split l' hl' x, hheld]
    by_cases heq : l' = o
    · subst heq
      rw [Function.update_self, List.mem_cons]
      constructor
      · rintro (hx | hx)
        · exact Or.inl (Or.inr hx)
        · by_cases hxs : x = s
          · exact Or.inl (Or.inl hxs)
          · exact Or.inr ⟨hx, hxs⟩
      · rintro ((rfl | hx) | ⟨hx, -⟩)
        · exact Or.inr ⟨l, howner, hslab⟩
        · exact Or.inl hx
        · exact Or.inr hx
    · rw [Function.update_of_ne heq, and_iff_left_of_imp (hothers l' heq x)]
  · intro l' x hx
    rw [hheld]
    rintro ⟨hx', hne⟩
    by_cases heq : l' = o
    · rw [heq, Function.update_self] at hx
      rcases List.mem_cons.mp hx with rfl | hx
      · exact hne rfl
      · exact hok.apart o x hx (heq ▸ hx')
    · rw [Function.update_of_ne heq] at hx
      exact hok.apart l' x hx hx'
  · intro l'
    by_cases heq : l' = o
    · rw [heq, Function.update_self]
      refine List.nodup_cons.mpr ⟨?_, hok.nodup o⟩
      intro hlive
      exact hok.apart o s hlive ⟨l, howner, hslab⟩
    · rw [Function.update_of_ne heq]
      exact hok.nodup l'
  · intro l' hl'
    have hne : l' ≠ o := by
      rintro rfl
      exact hl' ho
    rw [Function.update_of_ne hne]
    exact hok.none_live l' hl'

/-- No slab lists are set up. -/
theorem forestOk_start (hnull : ∀ h, st.links.cell (.head h) = 0) (rank : ℕ → ℕ)
    (geo : ℕ → Geometry) (top : ℕ) :
    ForestOk st [] rank geo top ⟨fun _ => [], fun _ => []⟩ (fun _ => []) (fun _ => []) := by
  constructor
  · exact ⟨hnull, by simp⟩
  · simp
  · simp [Layout.slabs]
  · simp
  · simp [Layout.slabs]
  · simp [Layout.slabs]
  · simp [Innermost, Layout.slabs]
  · simp
  · simp
  · simp
  · simp

/-- A new list without slabs. -/
theorem ForestOk.addList (hok : ForestOk st lists rank geo top lay out live) (hl : l ∉ lists)
    {sl : SlabList} (husable : sl.Usable)
    (howner : ∀ o, sl.owner = some o →
      o ∈ lists ∧ sl.sizeShift = (st.list o).chunkShift ∧ sl.Good)
    {n : ℕ} (hn : ∀ l ∈ lists, rank l < n) :
    ForestOk { st with list := Function.update st.list l sl } (l :: lists)
      (Function.update rank l n) (Function.update geo l (sl.geometry husable)) top lay
      (Function.update out l []) live := by
  have hnil := hok.others l hl
  have hne : ∀ l' a, a ∈ lay.slabs l' → l' ≠ l := by
    rintro l' a ha rfl
    simp [hnil] at ha
  have hold : ∀ l' ∈ lists, l' ≠ l := by
    rintro l' hl' rfl
    exact hl hl'
  have hheld : ∀ l' x, Held { st with list := Function.update st.list l sl } lay l' x ↔
      Held st lay l' x := by
    intro l' x
    constructor
    · rintro ⟨k, hk, hx⟩
      simp only [Function.update_of_ne (hne k x hx)] at hk
      exact ⟨k, hk, hx⟩
    · rintro ⟨k, hk, hx⟩
      refine ⟨k, ?_, hx⟩
      simpa only [Function.update_of_ne (hne k x hx)] using hk
  have hinner : ∀ l' b, Innermost { st with list := Function.update st.list l sl }
      (Function.update geo l (sl.geometry husable)) lay l' b → Innermost st geo lay l' b := by
    rintro l' b ⟨⟨a, ha, hb⟩, hout⟩
    rw [Function.update_of_ne (hne l' a ha)] at hb
    refine ⟨⟨a, ha, hb⟩, ?_⟩
    intro k hk p hp
    have hkl := hne k p hp
    have hout' := hout k (by simpa only [Function.update_of_ne hkl] using hk) p hp
    rwa [Function.update_of_ne hkl] at hout'
  refine ⟨hok.linked, ?_, ?_, ?_, ?_, ?_, ?_, ?_, ?_, hok.nodup, ?_⟩
  · intro l' hl'
    by_cases heq : l' = l
    · subst heq
      rw [Function.update_self, Function.update_self]
      exact ListOk.of_nil husable (Function.update_self _ _ _) hnil
    · rw [Function.update_of_ne heq, Function.update_of_ne heq]
      have hmem := List.mem_of_ne_of_mem heq hl'
      exact (hok.list l' hmem).congr (Function.update_of_ne heq _ _) rfl rfl fun _ _ => ⟨rfl, rfl⟩
  · intro l' hl'
    exact hok.others l' fun h => hl' (List.mem_cons_of_mem _ h)
  · intro l' hl' o ho
    by_cases heq : l' = l
    · subst heq
      simp only [Function.update_self] at ho ⊢
      obtain ⟨hmem, hshift, hgood⟩ := howner o ho
      have hol := hold o hmem
      obtain ⟨husable', hgeo⟩ := (hok.list o hmem).geometry
      rw [Function.update_of_ne hol, Function.update_of_ne hol]
      refine ⟨List.mem_cons_of_mem _ hmem, hn o hmem, ?_, hgood.1⟩
      rw [← hgeo]
      exact hshift
    · simp only [Function.update_of_ne heq] at ho ⊢
      obtain ⟨hmem, hrank, hshift, hroom⟩ := hok.owner l' (List.mem_of_ne_of_mem heq hl') o ho
      have hol := hold o hmem
      rw [Function.update_of_ne hol, Function.update_of_ne hol]
      exact ⟨List.mem_cons_of_mem _ hmem, hrank, hshift, hroom⟩
  · intro l' hnone a ha
    simp only [Function.update_of_ne (hne l' a ha)] at hnone
    exact hok.reserved l' hnone a ha
  · intro l' a ha
    rw [Function.update_of_ne (hne l' a ha)]
    exact hok.below l' a ha
  · intro b l₁ l₂ h₁ h₂
    exact hok.innermost b l₁ l₂ (hinner l₁ b h₁) (hinner l₂ b h₂)
  · intro l' hl' x
    rw [hheld]
    by_cases heq : l' = l
    · subst heq
      have hempty : ¬Held st lay l' x := by
        rintro ⟨k, hk, hx⟩
        exact hl (hok.owner k (hok.mem_lists hx) l' hk).1
      simp [hok.none_live l' hl, hempty]
    · rw [Function.update_of_ne heq]
      exact hok.split l' (List.mem_of_ne_of_mem heq hl') x
  · intro l' x hx
    rw [hheld]
    exact hok.apart l' x hx
  · intro l' hl'
    exact hok.none_live l' fun h => hl' (List.mem_cons_of_mem _ h)

/-- The slabs of a list with an owner are not empty, but for reserved ones, which only the lists in
`kept` have. -/
def Busy (kept : Set ℕ) (st : Slabs) (lay : Layout) : Prop :=
  ∀ l o, (st.list l).owner = some o → ∀ a ∈ lay.slabs l,
    ((st.slab a).reserved = true → l ∈ kept) ∧
      ((st.slab a).reserved = false → slabIsEmpty (st.slab a) = false)

/-- A change of one slab, which may be a new one or leave its list. -/
theorem Busy.update {kept : Set ℕ} (hbusy : Busy kept st lay) (hlist : st'.list = st.list)
    (hslab : ∀ a, a ≠ s → st'.slab a = st.slab a)
    (hslabs : ∀ l a, a ∈ lay'.slabs l → a ≠ s → a ∈ lay.slabs l)
    (hs : ∀ l o, (st.list l).owner = some o → s ∈ lay'.slabs l →
      ((st'.slab s).reserved = true → l ∈ kept) ∧
        ((st'.slab s).reserved = false → slabIsEmpty (st'.slab s) = false)) :
    Busy kept st' lay' := by
  intro l o howner a ha
  rw [hlist] at howner
  by_cases heq : a = s
  · subst heq
    exact hs l o howner ha
  · rw [hslab a heq]
    exact hbusy l o howner a (hslabs l a ha heq)

theorem slabAlloc_reserved {base : ℕ} {slab slab' : Slab} (h : slabAlloc base slab = (x, slab')) :
    slab'.reserved = slab.reserved := by
  unfold slabAlloc at h
  split_ifs at h
  · rw [← (Prod.mk.inj h).2]
  · rw [← (Prod.mk.inj h).2]

/-- `slab_list_alloc` completes. It returns null only if no slab has a free chunk and the owner
returns null as well, and then it changes nothing. -/
theorem ForestOk.alloc (hok : ForestOk st lists rank geo top lay out live) (hl : l ∈ lists)
    {depth : ℕ} (hdepth : rank l < depth) (kept : Set ℕ) :
    ∃ x st', st.slabListAlloc depth l = some (x, st') ∧
      ((x = 0 ∧ st' = st ∧ lay.nodes (.free l) = [] ∧
        ∀ o, (st.list l).owner = some o → st.slabListAlloc (depth - 1) o = some (0, st)) ∨
      (x ≠ 0 ∧ st'.list = st.list ∧ ∃ lay' out', ForestOk st' lists rank geo top lay' out'
        (Function.update live l (x :: live l)) ∧ (Busy kept st lay → Busy kept st' lay'))) := by
  induction depth generalizing l with
  | zero => omega
  | succ depth ih =>
    by_cases hhead : st.links.cell (.head (.free l)) ≠ 0
    · obtain ⟨rest, hnodes⟩ := hok.linked.cons_of_head hhead
      have hs : st.links.cell (.head (.free l)) ∈ lay.nodes (.free l) := by simp [hnodes]
      obtain ⟨x, slab, lay', halloc, hpos, hempty, -, hok', hslabs⟩ := hok.take hl hs
      refine ⟨x, _, ?_, Or.inr ⟨hpos, ?_, lay', _, hok', fun hbusy => ?_⟩⟩
      · simp only [Slabs.slabListAlloc]
        rw [if_pos hhead, halloc]
      · split_ifs <;> rfl
      · apply hbusy.update (s := st.links.cell (.head (.free l)))
        · split_ifs <;> rfl
        · intro a hne
          split_ifs <;> exact Function.update_of_ne hne _ _
        · rintro l' a ha -
          exact (hslabs l' a).mp ha
        · intro l' o howner hmem
          have hold := (hbusy l' o howner _ ((hslabs l' _).mp hmem)).1
          rw [← slabAlloc_reserved halloc] at hold
          split_ifs <;>
          · simp only [Slabs.move, Slabs.setSlab, Function.update_self]
            exact ⟨hold, fun _ => hempty⟩
    · have hnil := hok.linked.nil_of_head (not_not.mp hhead)
      cases howner : (st.list l).owner with
      | none =>
        refine ⟨0, st, ?_, Or.inl ⟨rfl, rfl, hnil, by simp⟩⟩
        simp only [Slabs.slabListAlloc]
        rw [if_neg hhead, howner]
        rfl
      | some o =>
        obtain ⟨ho, hrank, -, hroom⟩ := hok.owner l hl o howner
        obtain ⟨p, st₁, halloc, hcase⟩ := ih ho (by omega)
        have hstep : st.slabListAlloc (depth + 1) l = some (Slabs.allocNew l (p, st₁)) := by
          simp only [Slabs.slabListAlloc]
          rw [if_neg hhead, howner]
          simp only
          rw [halloc, Option.map_some]
        rcases hcase with ⟨rfl, rfl, -, -⟩ | ⟨hpos, hlists, lay₁, out₁, hok₁, hbusy₁⟩
        · refine ⟨0, st₁, by rw [hstep]; rfl, Or.inl ⟨rfl, rfl, hnil, fun o' ho' => ?_⟩⟩
          rw [Option.some.injEq] at ho'
          rw [← ho']
          exact halloc
        · -- the chunk of the owner becomes a slab, and its first chunk is taken
          have hok₂ := hok₁.addSlab hl (hlists ▸ howner) (p := p) (by simp) false
          rw [Function.update_self, List.erase_cons_head, Function.update_idem,
            Function.update_eq_self] at hok₂
          have hlen : 2 ≤ ((lay₁.add l p (geo l).chunks).free p).length := by
            have hall := (geo l).length_chunks
            simp only [Layout.add, Function.update_self]
            omega
          obtain ⟨x, slab, lay₃, hslab, hxpos, hempty, hfull, hok₃, hslabs₃⟩ :=
            hok₂.take hl (s := p) (by simp [Layout.add])
          rw [hfull hlen, if_neg (by simp)] at hok₃
          refine ⟨x, (st₁.newSlab l p false).setSlab p slab, ?_,
            Or.inr ⟨hxpos, hlists, lay₃, _, hok₃, fun hbusy => ?_⟩⟩
          · rw [hstep, Slabs.allocNew, if_pos hpos]
            simp only [hslab]
          · refine (hbusy₁ hbusy).update (s := p) rfl ?_ ?_ ?_
            · intro a hne
              simp [Slabs.setSlab, Slabs.newSlab, hne]
            · intro l' a ha hne
              rw [hslabs₃, Layout.mem_add] at ha
              exact ha.resolve_right fun h => hne h.2
            · rintro l' o' - -
              have hres := slabAlloc_reserved hslab
              simp only [Slabs.newSlab, Function.update_self] at hres
              simp only [Slabs.setSlab, Function.update_self]
              exact ⟨fun h => absurd (hres.symm.trans h) (by simp), fun _ => hempty⟩

/-- `slab_list_free` completes. -/
theorem ForestOk.free (hok : ForestOk st lists rank geo top lay out live) (hl : l ∈ lists)
    {depth : ℕ} (hdepth : rank l < depth) (hx : x ∈ live l) (kept : Set ℕ) :
    ∃ st' lay' out', st.slabListFree depth l x = some st' ∧
      ForestOk st' lists rank geo top lay' out' (Function.update live l ((live l).erase x)) ∧
      (Busy kept st lay → Busy kept st' lay') := by
  induction depth generalizing st lay out live l x with
  | zero => omega
  | succ depth ih =>
    obtain ⟨s, hs, lay₁, hmask, hok₁, hfree, hslabs₁⟩ := hok.give hl hx
    have hslab := (hok.list l hl).slab s hs
    have hframe : ∀ a, a ≠ s → (st.setSlab s (slabFree s (st.slab s) x)).slab a = st.slab a :=
      fun a hne => Function.update_of_ne hne _ _
    have hself : (st.setSlab s (slabFree s (st.slab s) x)).slab s = slabFree s (st.slab s) x :=
      Function.update_self _ _ _
    have hkeep : ∀ l' a, a ∈ lay₁.slabs l' → a ≠ s → a ∈ lay.slabs l' :=
      fun l' a ha _ => (hslabs₁ l' a).mp ha
    by_cases hfull : slabIsFull (st.slab s) = true
    · rw [if_pos hfull] at hok₁
      refine ⟨_, lay₁, _, ?_, hok₁, fun hbusy => ?_⟩
      · simp only [Slabs.slabListFree, hmask]
        rw [if_pos hfull]
      · refine hbusy.update rfl hframe hkeep ?_
        intro l' o howner hmem
        -- the slab had at least two chunks out
        have hmem' := (hslabs₁ l' s).mp hmem
        obtain rfl := Layout.list_unique hok.linked hmem' hs
        obtain ⟨-, -, -, hroom⟩ := hok.owner l' hl o howner
        have hnum : (st.slab s).numFree = 0 := by simpa [slabIsFull] using hfull
        have hone : u16 (0 + 1) = 1 := u16_of_lt (by decide)
        have hkept := (hbusy l' o howner s hmem').1
        have hmove : ((st.setSlab s (slabFree s (st.slab s) x)).move s (.free l')).slab s =
          slabFree s (st.slab s) x := hself
        rw [hmove]
        refine ⟨hkept, fun _ => ?_⟩
        simp only [slabIsEmpty, slabFree, hnum, hone, hslab.numReserved, hslab.numChunks,
          decide_eq_false_iff_not]
        omega
    rw [if_neg hfull] at hok₁
    by_cases hempty : (slabIsEmpty (slabFree s (st.slab s) x) &&
        !(slabFree s (st.slab s) x).reserved) = true
    · have hlen : (lay₁.free s).length + (geo l).numReserved = (geo l).numChunks := by
        have hslab₁ := (hok₁.list l hl).slab s ((hslabs₁ l s).mpr hs)
        rw [hself] at hslab₁
        exact hslab₁.isEmpty_iff.mp (Bool.and_eq_true_iff.mp hempty).1
      cases howner : (st.list l).owner with
      | none =>
        -- the slabs of a list without an owner are reserved
        have hres : (slabFree s (st.slab s) x).reserved = true := hok.reserved l howner s hs
        simp [hres] at hempty
      | some o =>
        obtain ⟨ho, hrank, -, -⟩ := hok.owner l hl o howner
        have hlo : o ≠ l := by
          rintro rfl
          omega
        have hok₂ := hok₁.dropSlab howner hfree hlen
        obtain ⟨st', lay₃, out₃, hstep, hok₃, hbusy₃⟩ := ih hok₂ ho (by omega) (x := s) (by simp)
        rw [Function.update_self, List.erase_cons_head, Function.update_idem,
          Function.update_eq_self] at hok₃
        refine ⟨st', lay₃, out₃, ?_, hok₃, fun hbusy => hbusy₃ ?_⟩
        · rw [Slabs.slabListFree]
          simp only [hmask]
          rw [if_neg hfull, if_pos hempty]
          simp only [Slabs.setSlab, howner]
          exact hstep
        · have hmem := Layout.mem_drop hok₁.linked hfree
          refine hbusy.update rfl hframe ?_ ?_
          · intro l' a ha hne
            exact hkeep l' a ((hmem l' a).mp ha).1 hne
          · rintro l' o' - ha
            exact absurd rfl ((hmem l' s).mp ha).2
    · refine ⟨_, lay₁, _, ?_, hok₁, fun hbusy => ?_⟩
      · simp only [Slabs.slabListFree, hmask]
        rw [if_neg hfull, if_neg hempty]
      · refine hbusy.update rfl hframe hkeep ?_
        intro l' o howner hmem
        have hkept := (hbusy l' o howner s ((hslabs₁ l' s).mp hmem)).1
        rw [hself]
        refine ⟨hkept, fun hres => ?_⟩
        simpa [hres] using hempty

/-- Any ranks do that are lower for owners. -/
theorem ForestOk.rerank (hok : ForestOk st lists rank geo top lay out live) {rank' : ℕ → ℕ}
    (hrank : ∀ l ∈ lists, ∀ o, (st.list l).owner = some o → rank' o < rank' l) :
    ForestOk st lists rank' geo top lay out live := by
  refine { hok with owner := ?_ }
  intro l hl o ho
  obtain ⟨hmem, -, hsize, hroom⟩ := hok.owner l hl o ho
  exact ⟨hmem, hrank l hl o ho, hsize, hroom⟩

/-- The chunks that are allocated are those that the list has handed out. -/
theorem ListOk.allocated_iff {g : Geometry} {out : List ℕ} (hlist : ListOk st l g lay out)
    (hlinked : Linked 0 st.links lay.nodes) : st.Allocated l x ↔ x ∈ out := by
  rw [hlist.taken x]
  constructor
  · rintro ⟨a, i, free, ha, hchain, hmin, hmax, hnot, rfl⟩
    have hmem := (Slabs.has_iff hlinked).mp ha
    have hslab := hlist.slab a hmem
    rw [hslab.numReserved] at hmin
    rw [hslab.numChunks] at hmax
    rw [hchain.unique hslab.chain] at hnot
    exact ⟨a, hmem, i, hmin, hmax, hnot, by rw [hslab.chunkShift]⟩
  · rintro ⟨a, ha, i, hmin, hmax, hnot, rfl⟩
    have hslab := hlist.slab a ha
    have hhas := (Slabs.has_iff hlinked).mpr ha
    refine ⟨a, i, lay.free a, hhas, hslab.chain, ?_, ?_, hnot, ?_⟩
    · rwa [hslab.numReserved]
    · rwa [hslab.numChunks]
    · rw [hslab.chunkShift]

/-- A free chunk is an aligned chunk of its slab, and not out. -/
theorem ListOk.freeChunk {g : Geometry} {out : List ℕ} (hlist : ListOk st l g lay out)
    (hlinked : Linked 0 st.links lay.nodes) (hfree : st.FreeChunk l x) :
    x ∉ out ∧ ∃ a ∈ lay.slabs l, 2 ^ g.chunkShift ∣ x ∧ a ≤ x ∧
      x + 2 ^ g.chunkShift ≤ a + 2 ^ g.sizeShift := by
  obtain ⟨a, i, free, ha, hchain, hi, rfl⟩ := hfree
  have hmem := (Slabs.has_iff hlinked).mp ha
  have hslab := hlist.slab a hmem
  rw [hchain.unique hslab.chain] at hi
  rw [hslab.chunkShift]
  have hle := g.chunk_le (hslab.range i hi).2
  have hdvd : 2 ^ g.chunkShift ∣ 2 ^ g.sizeShift := by
    rw [← g.size_eq]
    exact Nat.dvd_mul_left _ _
  refine ⟨hlist.notMem_out hmem hi, a, hmem, ?_, by omega, by omega⟩
  exact Nat.dvd_add (Nat.dvd_trans hdvd (hlist.aligned a hmem)) (Nat.dvd_mul_left _ _)

theorem ForestOk.allocated_iff (hok : ForestOk st lists rank geo top lay out live)
    (hl : l ∈ lists) : st.Allocated l x ↔ x ∈ out l := (hok.list l hl).allocated_iff hok.linked

/-- The slabs of a list that can all go back are those that objects of callers lie in. -/
theorem ForestOk.mem_slabs_iff (hok : ForestOk st lists rank geo top lay out live) {kept : Set ℕ}
    (hbusy : Busy kept st lay) (hl : l ∈ lists) (howner : (st.list l).owner = some o)
    (hkept : l ∉ kept) (hheld : ∀ x, ¬Held st lay l x) {a : ℕ} :
    a ∈ lay.slabs l ↔
      ∃ x ∈ live l, x / 2 ^ (geo l).sizeShift * 2 ^ (geo l).sizeShift = a := by
  have hlist := hok.list l hl
  have hlive : ∀ x, x ∈ out l → x ∈ live l :=
    fun x hx => ((hok.split l hl x).mp hx).resolve_right (hheld x)
  constructor
  · intro ha
    obtain ⟨hres, hempty⟩ := hbusy l o howner a ha
    have hnot := hempty (Bool.eq_false_iff.mpr fun h => hkept (hres h))
    -- a slab that is not empty has a chunk that is out
    obtain ⟨i, hi, hfree⟩ : ∃ i ∈ (geo l).chunks, i ∉ lay.free a := by
      by_contra hall
      push Not at hall
      have hnodup : (geo l).chunks.Nodup := List.nodup_range'
      have hle := (List.subperm_of_subset hnodup hall).length_le
      have hmax := (hlist.slab a ha).length_le
      have hlen := (geo l).length_chunks
      rw [Bool.eq_false_iff, ne_eq, (hlist.slab a ha).isEmpty_iff] at hnot
      omega
    obtain ⟨hmin, hmax⟩ := (geo l).mem_chunks.mp hi
    refine ⟨_, hlive _ ((hlist.taken _).mpr ⟨a, ha, i, hmin, hmax, hfree, rfl⟩), ?_⟩
    exact (geo l).mask_chunk (hlist.aligned a ha) hmax
  · rintro ⟨x, hx, rfl⟩
    obtain ⟨a, ha, -, -, -, hmask⟩ := hlist.chunk ((hok.split l hl x).mpr (Or.inl hx))
    rwa [hmask]

end Forest

end Smor.Alloc
