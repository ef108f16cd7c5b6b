import Smor.Alloc.Forest
import Smor.Lib.Runs
import Mathlib.Data.Set.Insert

/-!
# What slab lists get from their owners and give back

Lists are set up, get reserved slabs, and hand out and take back objects, in any order and with
owners of any depth. A list whose slabs have a single chunk behind the header keeps a new slab
on `free_slabs` after the only chunk is gone, so `slab_list_alloc` returns null there
although the owner has memory. Without such lists null means that the memory is exhausted,
and a list gives every slab back whose objects have all been freed.
-/

namespace Smor.Alloc

open Smor.Lib Smor.Vm

/-- The slabs, what the slack allocator works on, the lists that are set up with the latest first,
and the addresses that callers hold. -/
structure ForestRun where
  st : Slabs
  info : BootInfo
  vm : BootVm
  lists : List ℕ
  live : ℕ → List ℕ

/-- The operations. -/
inductive ForestOp
  /-- `slab_list_init`. -/
  | init (l : ℕ) (owner : Option ℕ) (size chunkSize : ℕ)
  /-- `slab_list_reserve_on_slack`. -/
  | reserve (l : ℕ)
  /-- `slab_list_alloc`. -/
  | alloc (l : ℕ)
  /-- `slab_list_free`. -/
  | free (l addr : ℕ)

namespace ForestRun

/-- No list is set up, and nothing is handed out. -/
def start (st : Slabs) (info : BootInfo) (vm : BootVm) : ForestRun :=
  ⟨st, info, vm, [], fun _ => []⟩

/-- A chain of owners is not longer than this. -/
def depth (r : ForestRun) : ℕ := r.lists.length

/-- One operation. -/
def step (r : ForestRun) : ForestOp → Option ForestRun
  | .init l owner size chunkSize =>
    match r.st.slabListInit l owner size chunkSize with
    | some st =>
      some { r with
        st := st
        lists := l :: r.lists }
    | none => some r
  | .reserve l =>
    (r.st.slabListReserveOnSlack r.depth r.info r.vm l).map fun (_, st, info, vm) =>
      { r with
        st := st
        info := info
        vm := vm }
  | .alloc l =>
    (r.st.slabListAlloc r.depth l).map fun (x, st) =>
      { r with
        st := st
        live := if x ≠ 0 then Function.update r.live l (x :: r.live l) else r.live }
  | .free l x =>
    (r.st.slabListFree r.depth l x).map fun st =>
      { r with
        st := st
        live := Function.update r.live l ((r.live l).erase x) }

/-- A list is set up once, behind its owner and with a usable chunk; slabs are reserved below 2GB;
only lists that are set up are used, and only addresses that the caller holds are freed. -/
def Allowed (r : ForestRun) : ForestOp → Prop
  | .init l owner size chunkSize =>
    l ∉ r.lists ∧ (∀ o ∈ owner, o ∈ r.lists) ∧
      (SlabList.mk owner (ceilPow2 size) (ceilPow2 chunkSize)).Usable
  | .reserve l =>
    l ∈ r.lists ∧ ((r.st.list l).owner = none →
      alignUp r.info.kernelSlack (u32 (1 <<< (r.st.list l).sizeShift)) +
        u32 (1 <<< (r.st.list l).sizeShift) ≤ 2 ^ 31)
  | .alloc l => l ∈ r.lists
  | .free l x => l ∈ r.lists ∧ x ∈ r.live l

instance (r : ForestRun) (op : ForestOp) : Decidable (r.Allowed op) :=
  match op with
  | .init _ _ _ _ => inferInstanceAs (Decidable (_ ∧ _ ∧ _))
  | .reserve _ => inferInstanceAs (Decidable (_ ∧ (_ → _)))
  | .alloc _ => inferInstanceAs (Decidable (_ ∈ _))
  | .free _ _ => inferInstanceAs (Decidable (_ ∧ _))

/-- The memory that the list would get for another slab, or 0. -/
def supply (r : ForestRun) (l : ℕ) : Option ℕ :=
  match (r.st.list l).owner with
  | some owner => (r.st.slabListAlloc r.depth owner).map Prod.fst
  | none => some sysAllocPage

/-- `slab_list_alloc` completes, and if it returns null then every slab of the list is full, there
is no memory for another slab, and nothing has changed. -/
def NullIfExhausted (r : ForestRun) (l : ℕ) : Prop :=
  ∃ x st, r.st.slabListAlloc r.depth l = some (x, st) ∧
    (x = 0 → (∀ a, r.st.Has l a → slabIsFull (r.st.slab a) = true) ∧ r.supply l = some 0 ∧
      st = r.st)

end ForestRun

/-- A list with an owner is set up with room for two chunks behind the header of a slab. -/
def ForestOp.Roomy : ForestOp → Prop
  | .init _ (some owner) size chunkSize =>
    (SlabList.mk (some owner) (ceilPow2 size) (ceilPow2 chunkSize)).Good
  | _ => True

instance (op : ForestOp) : Decidable op.Roomy :=
  match op with
  | .init _ (some _) _ _ => inferInstanceAs (Decidable (SlabList.Good _))
  | .init _ none _ _ => inferInstanceAs (Decidable True)
  | .reserve _ => inferInstanceAs (Decidable True)
  | .alloc _ => inferInstanceAs (Decidable True)
  | .free _ _ => inferInstanceAs (Decidable True)

/-- Two levels: the root gets one slab, which is reserved, and owns the other lists, and all lists
have room for two chunks behind the header of a slab. -/
def ForestRun.TwoLevel (root : ℕ) (r : ForestRun) (op : ForestOp) : Prop :=
  r.Allowed op ∧
    match op with
    | .init l owner size chunkSize =>
      (owner = if l = root then none else some root) ∧
        (SlabList.mk owner (ceilPow2 size) (ceilPow2 chunkSize)).Good
    | .reserve l =>
      l = root ∧ r.st.links.cell (.head (.free root)) = 0 ∧
        r.st.links.cell (.head (.used root)) = 0
    | .alloc _ => True
    | .free _ _ => True

instance (root : ℕ) (r : ForestRun) (op : ForestOp) : Decidable (r.TwoLevel root op) :=
  match op with
  | .init _ _ _ _ => inferInstanceAs (Decidable (_ ∧ _ ∧ _))
  | .reserve _ => inferInstanceAs (Decidable (_ ∧ _ ∧ _ ∧ _))
  | .alloc _ => inferInstanceAs (Decidable (_ ∧ True))
  | .free _ _ => inferInstanceAs (Decidable (_ ∧ True))

section Runs

variable {r : ForestRun} {lay : Layout} {l x : ℕ}

/-- The lists of a run are in order, and those with an owner that are not in `kept` have no reserved
slabs. -/
structure SupplyOk (kept : Set ℕ) (r : ForestRun) (rank : ℕ → ℕ) (geo : ℕ → Geometry)
    (lay : Layout) (out : ℕ → List ℕ) : Prop where
  forest : ForestOk r.st r.lists rank geo (kernelBase + r.info.kernelSlack) lay out r.live
  rank_lt : ∀ l ∈ r.lists, rank l < r.depth
  busy : Busy kept r.st lay
  slack : r.info.kernelSlack ≤ 2 ^ 31

variable {kept : Set ℕ} {rank : ℕ → ℕ} {geo : ℕ → Geometry} {out : ℕ → List ℕ}

/-- More depth does not change what `slab_list_alloc` does. -/
theorem slabListAlloc_succ {st : Slabs} {depth : ℕ} {y : ℕ × Slabs}
    (h : st.slabListAlloc depth l = some y) : st.slabListAlloc (depth + 1) l = some y := by
  induction depth generalizing l y with
  | zero => simp [Slabs.slabListAlloc] at h
  | succ depth ih =>
    rw [Slabs.slabListAlloc] at h ⊢
    simp only at h ⊢
    by_cases hhead : st.links.cell (.head (.free l)) ≠ 0
    · rw [if_pos hhead] at h ⊢
      exact h
    · rw [if_neg hhead] at h ⊢
      cases howner : (st.list l).owner with
      | none =>
        rw [howner] at h
        exact h
      | some o =>
        rw [howner] at h
        obtain ⟨z, hz, heq⟩ := Option.map_eq_some_iff.mp h
        simp only
        rw [ih hz, Option.map_some, heq]

/-- In lists in order, null means that the memory is exhausted. -/
theorem SupplyOk.nullIfExhausted (hok : SupplyOk kept r rank geo lay out) (hl : l ∈ r.lists) :
    r.NullIfExhausted l := by
  have hdepth := hok.rank_lt l hl
  obtain ⟨x, st', halloc, hcase⟩ := hok.forest.alloc hl hdepth kept
  refine ⟨x, st', halloc, fun hnull => ?_⟩
  rcases hcase with ⟨-, hst, hnil, hsupply⟩ | ⟨hpos, -⟩
  · refine ⟨fun a ha => ?_, ?_, hst⟩
    · have hmem := (Slabs.has_iff hok.forest.linked).mp ha
      have hlist := hok.forest.list l hl
      have hused : a ∈ lay.nodes (.used l) := by
        rcases Layout.mem_slabs.mp hmem with hfree | hused
        · simp [hnil] at hfree
        · exact hused
      exact (hlist.slab a hmem).isFull_iff.mpr (hlist.used_nil a hused)
    · rw [ForestRun.supply]
      cases howner : (r.st.list l).owner with
      | none => rfl
      | some o =>
        have hsucc := slabListAlloc_succ (hsupply o howner)
        rw [show r.depth - 1 + 1 = r.depth by omega] at hsucc
        simp only
        rw [hsucc, Option.map_some]
  · exact absurd hnull hpos

/-- `slab_list_init`. -/
theorem SupplyOk.init (hok : SupplyOk kept r rank geo lay out) {owner : Option ℕ}
    {size chunkSize : ℕ}
    (hop : r.Allowed (.init l owner size chunkSize))
    (hroomy : (ForestOp.init l owner size chunkSize).Roomy) :
    ∃ r' rank' geo' out', r.step (.init l owner size chunkSize) = some r' ∧
      SupplyOk kept r' rank' geo' lay out' := by
  obtain ⟨hl, howner, husable⟩ := hop
  by_cases hbad : ∃ o ∈ owner, (r.st.list o).chunkShift ≠ ceilPow2 size
  · refine ⟨r, rank, geo, out, ?_, hok⟩
    simp only [ForestRun.step, Slabs.slabListInit, if_pos hbad]
  · have hlinks := Slabs.links_eq hok.forest.linked (hok.forest.others l hl)
    refine ⟨{ r with
        st := { r.st with
          list := Function.update r.st.list l ⟨owner, ceilPow2 size, ceilPow2 chunkSize⟩ }
        lists := l :: r.lists }, Function.update rank l r.depth,
      Function.update geo l (SlabList.geometry _ husable), Function.update out l [], ?_, ?_⟩
    · simp only [ForestRun.step, Slabs.slabListInit, if_neg hbad, hlinks]
    · constructor
      · apply hok.forest.addList hl husable _ hok.rank_lt
        rintro o rfl
        refine ⟨howner o rfl, ?_, hroomy⟩
        by_contra hne
        exact hbad ⟨o, rfl, Ne.symm hne⟩
      · intro l' hl'
        change _ < r.lists.length + 1
        by_cases heq : l' = l
        · rw [heq, Function.update_self, ForestRun.depth]
          omega
        · rw [Function.update_of_ne heq]
          have := hok.rank_lt l' (List.mem_of_ne_of_mem heq hl')
          rw [ForestRun.depth] at this
          omega
      · intro l' o ho a ha
        have hne : l' ≠ l := by
          rintro rfl
          simp [hok.forest.others l' hl] at ha
        simp only [Function.update_of_ne hne] at ho
        exact hok.busy l' o ho a ha
      · exact hok.slack

/-- A reserved slab is added to a list without an owner, or to one that keeps such slabs. -/
theorem Busy.newSlab {st : Slabs} {p : ℕ} {free : List ℕ} (hbusy : Busy kept st lay)
    (hnew : ∀ l', p ∉ lay.slabs l') (hkept : (st.list l).owner = none ∨ l ∈ kept) :
    Busy kept (st.newSlab l p true) (lay.add l p free) := by
  refine hbusy.update (s := p) rfl ?_ ?_ ?_
  · intro a hne
    simp [Slabs.newSlab, hne]
  · intro l' a ha hne
    exact ((lay.mem_add l p free l' a).mp ha).resolve_right fun h => hne h.2
  · intro l' o howner hmem
    have hl' := ((lay.mem_add l p free l' p).mp hmem).resolve_left (hnew l')
    rw [hl'.1] at howner ⊢
    simp only [Slabs.newSlab, Function.update_self]
    exact ⟨fun _ => hkept.resolve_left (by simp [howner]), by simp⟩

/-- `slab_list_reserve_on_slack`. -/
theorem SupplyOk.reserve (hok : SupplyOk kept r rank geo lay out) (hop : r.Allowed (.reserve l))
    (hkept : (r.st.list l).owner = none ∨ l ∈ kept) {r' : ForestRun}
    (hstep : r.step (.reserve l) = some r') :
    ∃ lay' out', SupplyOk kept r' rank geo lay' out' := by
  obtain ⟨hl, hroom⟩ := hop
  obtain ⟨⟨done, st', info', vm'⟩, hreserve, rfl⟩ := Option.map_eq_some_iff.mp hstep
  simp only [Slabs.slabListReserveOnSlack] at hreserve
  cases howner : (r.st.list l).owner with
  | none =>
    obtain ⟨husable, -⟩ := (hok.forest.list l hl).geometry
    have hshift := (hok.forest.list l hl).shifts.1
    have hlt := husable.shifts.1
    have hroom' := hroom howner
    rw [howner] at hreserve
    simp only [u32_shift hlt] at hreserve hroom'
    obtain ⟨⟨p, info₁, vm₁⟩, halloc, hfinish⟩ := Option.map_eq_some_iff.mp hreserve
    obtain ⟨hlow, htop, hdvd, hslack⟩ := kernelSlackAlloc_block halloc hlt hok.slack
      (Nat.two_pow_pos _) hroom'
    have hbase : 0 < kernelBase ∧ kernelBase + 2 ^ 31 ≤ 2 ^ 64 := by decide
    have hpos : p ≠ 0 := by omega
    simp only [if_pos hpos, Prod.mk.injEq] at hfinish
    obtain ⟨-, rfl, rfl, rfl⟩ := hfinish
    rw [hshift] at hdvd htop
    have hforest := hok.forest.addRoot hl howner hpos hdvd (by omega) hlow
    rw [htop] at hforest
    have hnew : ∀ l', p ∉ lay.slabs l' := by
      intro l' hmem
      have hbelow := hok.forest.below l' p hmem
      have hsize := Nat.two_pow_pos (geo l').sizeShift
      omega
    exact ⟨_, _, hforest, hok.rank_lt, hok.busy.newSlab hnew hkept, hslack⟩
  | some o =>
    obtain ⟨ho, -, -, -⟩ := hok.forest.owner l hl o howner
    rw [howner] at hreserve
    obtain ⟨x, st₁, halloc, hcase⟩ := hok.forest.alloc ho (hok.rank_lt o ho) kept
    simp only at hreserve
    rw [halloc, Option.map_some, Option.some.injEq] at hreserve
    rcases hcase with ⟨rfl, rfl, -, -⟩ | ⟨hpos, hlists, lay₁, out₁, hok₁, hbusy₁⟩
    · simp only [ne_eq, not_true_eq_false, if_false, Prod.mk.injEq] at hreserve
      obtain ⟨-, rfl, rfl, rfl⟩ := hreserve
      exact ⟨lay, out, hok.forest, hok.rank_lt, hok.busy, hok.slack⟩
    · simp only [if_pos hpos, Prod.mk.injEq] at hreserve
      obtain ⟨-, rfl, rfl, rfl⟩ := hreserve
      have hok₂ := hok₁.addSlab hl (hlists ▸ howner) (p := x) (by simp) true
      rw [Function.update_self, List.erase_cons_head, Function.update_idem,
        Function.update_eq_self] at hok₂
      have hnew := hok₁.live_not_slab (p := x) ho (by simp)
      exact ⟨_, _, hok₂, hok.rank_lt, (hbusy₁ hok.busy).newSlab hnew (hlists ▸ hkept), hok.slack⟩

/-- `slab_list_alloc` by a caller. -/
theorem SupplyOk.alloc (hok : SupplyOk kept r rank geo lay out) (hl : l ∈ r.lists) :
    ∃ r' lay' out', r.step (.alloc l) = some r' ∧ SupplyOk kept r' rank geo lay' out' := by
  obtain ⟨x, st', halloc, hcase⟩ := hok.forest.alloc hl (hok.rank_lt l hl) kept
  have hstep : r.step (.alloc l) = some
      { r with
        st := st'
        live := if x ≠ 0 then Function.update r.live l (x :: r.live l) else r.live } := by
    rw [ForestRun.step, halloc, Option.map_some]
  rcases hcase with ⟨rfl, rfl, -, -⟩ | ⟨hpos, -, lay', out', hok', hbusy'⟩
  · exact ⟨_, lay, out, hstep, hok.forest, hok.rank_lt, hok.busy, hok.slack⟩
  · rw [if_pos hpos] at hstep
    exact ⟨_, lay', out', hstep, hok', hok.rank_lt, hbusy' hok.busy, hok.slack⟩

/-- `slab_list_free` by a caller. -/
theorem SupplyOk.free (hok : SupplyOk kept r rank geo lay out) (hl : l ∈ r.lists)
    (hx : x ∈ r.live l) :
    ∃ r' lay' out', r.step (.free l x) = some r' ∧ SupplyOk kept r' rank geo lay' out' := by
  obtain ⟨st', lay', out', hfree, hok', hbusy'⟩ := hok.forest.free hl (hok.rank_lt l hl) hx kept
  have hstep : r.step (.free l x) = some
      { r with
        st := st'
        live := Function.update r.live l ((r.live l).erase x) } := by
    rw [ForestRun.step, hfree, Option.map_some]
  exact ⟨_, lay', out', hstep, hok', hok.rank_lt, hbusy' hok.busy, hok.slack⟩

/-- Every operation keeps the lists in order. -/
theorem SupplyOk.step (hok : SupplyOk kept r rank geo lay out) {op : ForestOp} (hop : r.Allowed op)
    (hroomy : op.Roomy) (hkept : ∀ l, op = .reserve l → (r.st.list l).owner = none ∨ l ∈ kept)
    {r' : ForestRun} (hstep : r.step op = some r') :
    ∃ rank' geo' lay' out', SupplyOk kept r' rank' geo' lay' out' := by
  cases op with
  | init l owner size chunkSize =>
    obtain ⟨r'', rank', geo', out', hstep', hok'⟩ := hok.init hop hroomy
    obtain rfl := Option.some.inj (hstep.symm.trans hstep')
    exact ⟨rank', geo', lay, out', hok'⟩
  | reserve l =>
    obtain ⟨lay', out', hok'⟩ := hok.reserve hop (hkept l rfl) hstep
    exact ⟨rank, geo, lay', out', hok'⟩
  | alloc l =>
    obtain ⟨r'', lay', out', hstep', hok'⟩ := hok.alloc hop
    obtain rfl := Option.some.inj (hstep.symm.trans hstep')
    exact ⟨rank, geo, lay', out', hok'⟩
  | free l x =>
    obtain ⟨r'', lay', out', hstep', hok'⟩ := hok.free hop.1 hop.2
    obtain rfl := Option.some.inj (hstep.symm.trans hstep')
    exact ⟨rank, geo, lay', out', hok'⟩

/-- The lists are in order in every state of a run. -/
theorem supplyOk_of_reaches (kept : Set ℕ) {st : Slabs} {info : BootInfo} {vm : BootVm}
    (hnull : ∀ h, st.links.cell (.head h) = 0) (hslack : info.kernelSlack ≤ 2 ^ 31)
    {guard : ForestRun → ForestOp → Prop}
    (hguard : ∀ r op, guard r op → r.Allowed op ∧ op.Roomy ∧
      ∀ l, op = .reserve l → (r.st.list l).owner = none ∨ l ∈ kept)
    (hrun : Reaches ForestRun.step guard (.start st info vm) r) :
    ∃ rank geo lay out, SupplyOk kept r rank geo lay out := by
  apply hrun.invariant
  · -- there is no list yet, so any shape does
    refine ⟨fun _ => 0, fun _ => SlabList.geometry ⟨none, 14, 9⟩ (by decide +kernel), _, _,
      forestOk_start hnull _ _ _, by simp [ForestRun.start], ?_, hslack⟩
    rintro l o - a ha
    simp [Layout.slabs] at ha
  · rintro r op r' ⟨rank, geo, lay, out, hok⟩ hop hstep
    obtain ⟨hallowed, hroomy, hkept⟩ := hguard r op hop
    exact hok.step hallowed hroomy hkept hstep

/-- If lists with an owner have room for two chunks in a slab, then null always means that the
memory is exhausted. -/
theorem slabListAlloc_nullIfExhausted {st : Slabs} {info : BootInfo} {vm : BootVm}
    (hnull : ∀ h, st.links.cell (.head h) = 0) (hslack : info.kernelSlack ≤ 2 ^ 31)
    (hrun : Reaches ForestRun.step (fun r op => r.Allowed op ∧ op.Roomy)
      (.start st info vm) r) : ∀ l ∈ r.lists, r.NullIfExhausted l := by
  intro l hl
  obtain ⟨rank, geo, lay, out, hok⟩ := supplyOk_of_reaches Set.univ hnull hslack
    (fun r op h => ⟨h.1, h.2, fun l _ => Or.inr (Set.mem_univ l)⟩) hrun
  exact hok.nullIfExhausted hl

/-- Static memory before any list is set up. -/
def ForestRun.blank : ForestRun :=
  .start ⟨⟨fun _ => 0, fun _ => none⟩, fun _ => ⟨0, 0, 0, 0, false, 0, fun _ => 0⟩,
    fun _ => ⟨none, 0, 0⟩⟩ ⟨0x100000, 0x400000, 0x100000, [], 0⟩ ⟨fun _ => 0, 0⟩

/-- A root with a single usable chunk in its slab, which a second list takes: then both are
exhausted. -/
theorem slabListAlloc_nullIfExhausted_single :
    ∃ r, Reaches ForestRun.step (fun r op => r.Allowed op ∧ op.Roomy) .blank r ∧
      r.live 1 = [0xFFFFFFFF80102200, 0xFFFFFFFF80102100] ∧ r.supply 1 = some 0 ∧
      r.NullIfExhausted 1 := by
  have hall : (runOps ForestRun.step (fun r op => r.Allowed op ∧ op.Roomy) .blank
      [.init 0 none 0x4000 0x2000, .reserve 0, .init 1 (some 0) 0x2000 0x100, .alloc 1,
        .alloc 1]).map (fun r => (r.lists, r.live 1, r.supply 1)) =
      some ([1, 0], [0xFFFFFFFF80102200, 0xFFFFFFFF80102100], some 0) := by decide +kernel
  obtain ⟨r, hrun, heq⟩ := Option.map_eq_some_iff.mp hall
  simp only [Prod.mk.injEq] at heq
  obtain ⟨hlists, hlive, hsupply⟩ := heq
  have hreach := Reaches.of_runOps hrun
  refine ⟨r, hreach, hlive, hsupply, ?_⟩
  exact slabListAlloc_nullIfExhausted (fun _ => rfl) (by decide) hreach 1 (by simp [hlists])

/-- A list with an owner and a single usable chunk in a slab returns null after its first object,
although the owner has memory. -/
theorem slabListAlloc_null_early :
    ¬∀ r, Reaches ForestRun.step ForestRun.Allowed .blank r →
      ∀ l ∈ r.lists, r.NullIfExhausted l := by
  intro hclaim
  have hall : (runOps ForestRun.step ForestRun.Allowed .blank
      [.init 0 none 0x1000 128, .reserve 0, .init 1 (some 0) 128 64, .alloc 1]).map
        (fun r => (r.lists, (r.st.slabListAlloc r.depth 1).map Prod.fst, r.supply 1)) =
      some ([1, 0], some 0, some 0xFFFFFFFF80100100) := by decide +kernel
  obtain ⟨r, hrun, heq⟩ := Option.map_eq_some_iff.mp hall
  simp only [Prod.mk.injEq] at heq
  obtain ⟨hlists, halloc, hsupply⟩ := heq
  obtain ⟨x, st, halloc', hexhausted⟩ := hclaim r (Reaches.of_runOps hrun) 1 (by simp [hlists])
  rw [halloc', Option.map_some, Option.some.injEq] at halloc
  obtain ⟨-, hnone, -⟩ := hexhausted halloc
  rw [hsupply] at hnone
  simp at hnone

/-- `slab_list_alloc` does not touch the fields of the lists. -/
theorem slabListAlloc_list {depth : ℕ} {st st' : Slabs}
    (h : st.slabListAlloc depth l = some (x, st')) : st'.list = st.list := by
  induction depth generalizing l x st' with
  | zero => simp [Slabs.slabListAlloc] at h
  | succ depth ih =>
    rw [Slabs.slabListAlloc] at h
    simp only at h
    by_cases hhead : st.links.cell (.head (.free l)) ≠ 0
    · rw [if_pos hhead, Option.some.injEq, Prod.mk.injEq] at h
      rw [← h.2]
      split_ifs <;> rfl
    · rw [if_neg hhead] at h
      obtain ⟨⟨p, st₁⟩, hsupply, hnew⟩ := Option.map_eq_some_iff.mp h
      have hlist : st₁.list = st.list := by
        cases howner : (st.list l).owner with
        | none =>
          rw [howner] at hsupply
          rw [← (Prod.mk.inj (Option.some.inj hsupply)).2]
        | some o =>
          rw [howner] at hsupply
          exact ih hsupply
      have hlist' : (Slabs.allocNew l (p, st₁)).2.list = st₁.list := by
        unfold Slabs.allocNew
        split_ifs <;> rfl
      rw [hnew] at hlist'
      exact hlist'.trans hlist

/-- `slab_list_free` does not touch the fields of the lists. -/
theorem slabListFree_list {depth : ℕ} {st st' : Slabs}
    (h : st.slabListFree depth l x = some st') : st'.list = st.list := by
  induction depth generalizing st l x with
  | zero => simp [Slabs.slabListFree] at h
  | succ depth ih =>
    rw [Slabs.slabListFree] at h
    simp only at h
    split_ifs at h
    · rw [← Option.some.inj h]
      rfl
    · cases howner : (st.list l).owner with
      | none =>
        simp only [Slabs.setSlab, howner] at h
        rw [← Option.some.inj h]
      | some o =>
        simp only [Slabs.setSlab, howner] at h
        have hlist := ih h
        exact hlist
    · rw [← Option.some.inj h]
      rfl

/-- `slab_list_reserve_on_slack` does not touch the fields of the lists. -/
theorem slabListReserveOnSlack_list {depth : ℕ} {st st' : Slabs} {info info' : BootInfo}
    {vm vm' : BootVm} {done : Bool}
    (h : st.slabListReserveOnSlack depth info vm l = some (done, st', info', vm')) :
    st'.list = st.list := by
  simp only [Slabs.slabListReserveOnSlack] at h
  cases howner : (st.list l).owner with
  | none =>
    rw [howner] at h
    obtain ⟨y, -, hfinish⟩ := Option.map_eq_some_iff.mp h
    split_ifs at hfinish
    · rw [← (Prod.mk.inj (Prod.mk.inj hfinish).2).1]
      rfl
    · rw [← (Prod.mk.inj (Prod.mk.inj hfinish).2).1]
  | some o =>
    rw [howner] at h
    obtain ⟨⟨p, st₁⟩, halloc, hfinish⟩ := Option.map_eq_some_iff.mp h
    have hlist := slabListAlloc_list halloc
    split_ifs at hfinish
    · rw [← hlist, ← (Prod.mk.inj (Prod.mk.inj hfinish).2).1]
      rfl
    · rw [← hlist, ← (Prod.mk.inj (Prod.mk.inj hfinish).2).1]

/-- The owner of a list is the one it was set up with. -/
theorem ForestRun.step_owner {op : ForestOp} {r' : ForestRun} (hop : r.Allowed op)
    (h : r.step op = some r') (hl : l ∈ r'.lists) :
    (l ∈ r.lists ∧ (r'.st.list l).owner = (r.st.list l).owner) ∨
      ∃ size chunkSize, op = .init l (r'.st.list l).owner size chunkSize := by
  cases op with
  | init l' owner size chunkSize =>
    simp only [ForestRun.step, Slabs.slabListInit] at h
    split_ifs at h with hbad
    · obtain rfl := Option.some.inj h
      exact Or.inl ⟨hl, rfl⟩
    · obtain rfl := Option.some.inj h
      by_cases heq : l = l'
      · subst heq
        exact Or.inr ⟨size, chunkSize, by simp⟩
      · refine Or.inl ⟨List.mem_of_ne_of_mem heq hl, ?_⟩
        simp only [Function.update_of_ne heq]
  | reserve l' =>
    obtain ⟨⟨done, st', info', vm'⟩, hreserve, rfl⟩ := Option.map_eq_some_iff.mp h
    refine Or.inl ⟨hl, ?_⟩
    simp only
    rw [slabListReserveOnSlack_list hreserve]
  | alloc l' =>
    obtain ⟨⟨x, st'⟩, halloc, rfl⟩ := Option.map_eq_some_iff.mp h
    refine Or.inl ⟨hl, ?_⟩
    simp only
    rw [slabListAlloc_list halloc]
  | free l' x =>
    obtain ⟨st', hfree, rfl⟩ := Option.map_eq_some_iff.mp h
    refine Or.inl ⟨hl, ?_⟩
    simp only
    rw [slabListFree_list hfree]

/-- In two levels the root has no owner, and it owns the other lists. -/
theorem owner_of_twoLevel {root : ℕ} {st : Slabs} {info : BootInfo} {vm : BootVm}
    (hrun : Reaches ForestRun.step (ForestRun.TwoLevel root) (.start st info vm) r) :
    ∀ l ∈ r.lists, (r.st.list l).owner = if l = root then none else some root := by
  apply hrun.invariant
  · simp [ForestRun.start]
  · intro r op r' hr hop hstep l hl
    rcases r.step_owner hop.1 hstep hl with ⟨hl, howner⟩ | ⟨size, chunkSize, rfl⟩
    · rw [howner]
      exact hr l hl
    · exact hop.2.1

/-- Two levels in order, with the addresses that callers hold. -/
structure LevelsOk (root : ℕ) (st : Slabs) (lists : List ℕ) (live : ℕ → List ℕ)
    (geo : ℕ → Geometry) (top : ℕ) (lay : Layout) (out : ℕ → List ℕ) : Prop where
  forest : ForestOk st lists (fun l => if l = root then 0 else 1) geo top lay out live
  busy : Busy {root} st lay
  owner : ∀ l ∈ lists, (st.list l).owner = if l = root then none else some root

/-- The two levels are in order in every state of a run. -/
theorem levelsOk_of_reaches {root : ℕ} {st : Slabs} {info : BootInfo} {vm : BootVm}
    (hnull : ∀ h, st.links.cell (.head h) = 0) (hslack : info.kernelSlack ≤ 2 ^ 31)
    (hrun : Reaches ForestRun.step (ForestRun.TwoLevel root) (.start st info vm) r) :
    ∃ geo top lay out, LevelsOk root r.st r.lists r.live geo top lay out := by
  have hguard : ∀ r op, ForestRun.TwoLevel root r op → r.Allowed op ∧ op.Roomy ∧
      ∀ l, op = .reserve l → (r.st.list l).owner = none ∨ l ∈ ({root} : Set ℕ) := by
    rintro r op ⟨hallowed, hop⟩
    refine ⟨hallowed, ?_, ?_⟩
    · cases op with
      | init l owner size chunkSize =>
        cases owner with
        | none => trivial
        | some o => exact hop.2
      | _ => trivial
    · rintro l rfl
      exact Or.inr hop.1
  obtain ⟨rank, geo, lay, out, hok⟩ := supplyOk_of_reaches {root} hnull hslack hguard hrun
  have howners := owner_of_twoLevel hrun
  refine ⟨geo, _, lay, out, hok.forest.rerank ?_, hok.busy, howners⟩
  intro l hl o ho
  rw [howners l hl] at ho
  split_ifs at ho with heq
  rw [← Option.some.inj ho, if_pos rfl, if_neg heq]
  exact Nat.zero_lt_one

section TwoLevels

variable {root top : ℕ} {st : Slabs} {lists : List ℕ} {live : ℕ → List ℕ}

/-- Only the root owns lists. -/
theorem LevelsOk.not_held (hok : LevelsOk root st lists live geo top lay out) (hne : l ≠ root)
    (x : ℕ) : ¬Held st lay l x := by
  rintro ⟨k, hk, hx⟩
  rw [hok.owner k (hok.forest.mem_lists hx)] at hk
  split_ifs at hk
  exact hne (Option.some.inj hk).symm

/-- The slabs of a list below the root are those that objects of callers lie in. -/
theorem LevelsOk.has_iff (hok : LevelsOk root st lists live geo top lay out) (hl : l ∈ lists)
    (hne : l ≠ root) {a : ℕ} :
    st.Has l a ↔ ∃ x ∈ live l, x / 2 ^ (st.list l).sizeShift * 2 ^ (st.list l).sizeShift = a := by
  have howner : (st.list l).owner = some root := by rw [hok.owner l hl, if_neg hne]
  rw [Slabs.has_iff hok.forest.linked, hok.forest.mem_slabs_iff hok.busy hl howner
    (fun h => hne (Set.mem_singleton_iff.mp h)) (hok.not_held hne),
    (hok.forest.list l hl).shifts.1]

/-- The chunks of the root that are allocated: those that callers hold, and the slabs of the
other lists. -/
theorem LevelsOk.allocated_root (hok : LevelsOk root st lists live geo top lay out)
    (hroot : root ∈ lists) :
    st.Allocated root x ↔ x ∈ live root ∨ ∃ k ∈ lists, k ≠ root ∧ st.Has k x := by
  have hhas : ∀ k a, st.Has k a ↔ a ∈ lay.slabs k :=
    fun k a => Slabs.has_iff hok.forest.linked
  rw [hok.forest.allocated_iff hroot, hok.forest.split root hroot x]
  constructor
  · rintro (hx | ⟨k, hk, hx⟩)
    · exact Or.inl hx
    · have hkl := hok.forest.mem_lists hx
      refine Or.inr ⟨k, hkl, ?_, (hhas k x).mpr hx⟩
      rintro rfl
      simp [hok.owner k hkl] at hk
  · rintro (hx | ⟨k, hkl, hkr, hx⟩)
    · exact Or.inl hx
    · exact Or.inr ⟨k, by rw [hok.owner k hkl, if_neg hkr], (hhas k x).mp hx⟩

/-- `slab_list_alloc` with memory left. -/
theorem LevelsOk.alloc (hok : LevelsOk root st lists live geo top lay out) (hl : l ∈ lists)
    {st' : Slabs} (halloc : st.slabListAlloc 2 l = some (x, st')) (hx : x ≠ 0) :
    st'.list = st.list ∧ x ∉ live l ∧ ∃ lay' out',
      LevelsOk root st' lists (Function.update live l (x :: live l)) geo top lay' out' := by
  have hrank : (if l = root then 0 else 1) < 2 := by split_ifs <;> decide
  obtain ⟨x', st'', halloc', hcase⟩ := hok.forest.alloc hl hrank {root}
  rw [halloc, Option.some.injEq, Prod.mk.injEq] at halloc'
  obtain ⟨rfl, rfl⟩ := halloc'
  rcases hcase with ⟨rfl, -⟩ | ⟨-, hlist, lay', out', hok', hbusy'⟩
  · exact absurd rfl hx
  · have hnodup := hok'.nodup l
    rw [Function.update_self] at hnodup
    refine ⟨hlist, (List.nodup_cons.mp hnodup).1, lay', out', hok', hbusy' hok.busy, ?_⟩
    rw [hlist]
    exact hok.owner

/-- `slab_list_free`. -/
theorem LevelsOk.free (hok : LevelsOk root st lists live geo top lay out) (hl : l ∈ lists)
    {st' : Slabs} (hfree : st.slabListFree 2 l x = some st') (hx : x ∈ live l) :
    st'.list = st.list ∧ ∃ lay' out',
      LevelsOk root st' lists (Function.update live l ((live l).erase x)) geo top lay' out' := by
  have hrank : (if l = root then 0 else 1) < 2 := by split_ifs <;> decide
  have hlist := slabListFree_list hfree
  obtain ⟨st'', lay', out', hfree', hok', hbusy'⟩ := hok.forest.free hl hrank hx {root}
  obtain rfl := Option.some.inj (hfree.symm.trans hfree')
  refine ⟨hlist, lay', out', hok', hbusy' hok.busy, ?_⟩
  rw [hlist]
  exact hok.owner

/-- The chunks of a list below the root that are allocated are held by callers. -/
theorem LevelsOk.allocated_iff (hok : LevelsOk root st lists live geo top lay out) (hl : l ∈ lists)
    (hne : l ≠ root) : st.Allocated l x ↔ x ∈ live l := by
  rw [hok.forest.allocated_iff hl, hok.forest.split l hl x, or_iff_left (hok.not_held hne x)]

/-- What is allocated depends on the addresses that callers hold only. -/
theorem LevelsOk.allocated_congr (hok : LevelsOk root st lists live geo top lay out) {st' : Slabs}
    {lay' : Layout} {out' : ℕ → List ℕ}
    (hok' : LevelsOk root st' lists live geo top lay' out') (hlist : st'.list = st.list) :
    st'.Allocated l x ↔ st.Allocated l x := by
  by_cases hl : l ∈ lists
  · by_cases hroot : l = root
    · subst hroot
      rw [hok.allocated_root hl, hok'.allocated_root hl]
      have hhas : ∀ k ∈ lists, k ≠ l → (st'.Has k x ↔ st.Has k x) := by
        intro k hk hne
        rw [hok.has_iff hk hne, hok'.has_iff hk hne, hlist]
      constructor
      · rintro (hx | ⟨k, hk, hne, hx⟩)
        · exact Or.inl hx
        · exact Or.inr ⟨k, hk, hne, (hhas k hk hne).mp hx⟩
      · rintro (hx | ⟨k, hk, hne, hx⟩)
        · exact Or.inl hx
        · exact Or.inr ⟨k, hk, hne, (hhas k hk hne).mpr hx⟩
    · rw [hok.allocated_iff hl hroot, hok'.allocated_iff hl hroot]
  · have hnone : ∀ a, ¬st.Has l a := by
      intro a ha
      exact hl (hok.forest.mem_lists ((Slabs.has_iff hok.forest.linked).mp ha))
    have hnone' : ∀ a, ¬st'.Has l a := by
      intro a ha
      exact hl (hok'.forest.mem_lists ((Slabs.has_iff hok'.forest.linked).mp ha))
    constructor
    · rintro ⟨a, -, -, ha, -⟩
      exact absurd ha (hnone' a)
    · rintro ⟨a, -, -, ha, -⟩
      exact absurd ha (hnone a)

/-- An object that is given back at once leaves nothing behind. -/
theorem LevelsOk.alloc_free (hok : LevelsOk root st lists live geo top lay out) (hl : l ∈ lists)
    {st₁ st₂ : Slabs} (halloc : st.slabListAlloc 2 l = some (x, st₁)) (hx : x ≠ 0)
    (hfree : st₁.slabListFree 2 l x = some st₂) :
    (∃ lay' out', LevelsOk root st₂ lists live geo top lay' out') ∧
      ∀ k y, st₂.Allocated k y ↔ st.Allocated k y := by
  obtain ⟨hlist₁, -, lay₁, out₁, hok₁⟩ := hok.alloc hl halloc hx
  obtain ⟨hlist₂, lay₂, out₂, hok₂⟩ := hok₁.free hl hfree (by simp)
  rw [Function.update_self, List.erase_cons_head, Function.update_idem,
    Function.update_eq_self] at hok₂
  exact ⟨⟨lay₂, out₂, hok₂⟩, fun k y => hok.allocated_congr hok₂ (hlist₂.trans hlist₁)⟩

/-- An object that is handed out was not allocated before. -/
theorem LevelsOk.not_allocated (hok : LevelsOk root st lists live geo top lay out) (hl : l ∈ lists)
    (hne : l ≠ root) {st' : Slabs} (halloc : st.slabListAlloc 2 l = some (x, st')) (hx : x ≠ 0) :
    ¬st.Allocated l x := by
  rw [hok.allocated_iff hl hne]
  exact (hok.alloc hl halloc hx).2.1

/-- A chunk of the root that is taken in between stays. -/
theorem LevelsOk.alloc_leak (hok : LevelsOk root st lists live geo top lay out) (hl : l ∈ lists)
    (hne : l ≠ root) (hroot : root ∈ lists) {st₁ st₂ st₃ : Slabs} {t : ℕ}
    (halloc : st.slabListAlloc 2 l = some (x, st₁)) (hx : x ≠ 0)
    (hchunk : st₁.slabListAlloc 2 root = some (t, st₂)) (ht : t ≠ 0)
    (hfree : st₂.slabListFree 2 l x = some st₃) :
    st₃.Allocated root t ∧ ¬st.Allocated root t := by
  obtain ⟨hlist₁, -, lay₁, out₁, hok₁⟩ := hok.alloc hl halloc hx
  obtain ⟨hlist₂, hfresh, lay₂, out₂, hok₂⟩ := hok₁.alloc hroot hchunk ht
  obtain ⟨-, lay₃, out₃, hok₃⟩ := hok₂.free hl hfree (by simp [hne])
  rw [Function.update_of_ne (Ne.symm hne)] at hfresh
  constructor
  · rw [hok₃.allocated_root hroot]
    simp [Ne.symm hne]
  · rw [hok.allocated_root hroot]
    rintro (hlive | ⟨k, hk, hkr, hhas⟩)
    · exact hfresh hlive
    · -- a slab that was there is still there, and is not a chunk that a caller gets
      have hmem : t ∈ lay₂.slabs k := by
        rw [← Slabs.has_iff hok₂.forest.linked, hok₂.has_iff hk hkr]
        obtain ⟨y, hy, hmask⟩ := (hok.has_iff hk hkr).mp hhas
        refine ⟨y, ?_, by rw [hlist₂, hlist₁, hmask]⟩
        rw [Function.update_of_ne hkr]
        by_cases hkl : k = l
        · subst hkl
          rw [Function.update_self]
          exact List.mem_cons_of_mem _ hy
        · rwa [Function.update_of_ne hkl]
      exact hok₂.forest.live_not_slab hroot (by simp) k hmem

end TwoLevels

/-- In two levels, a list whose objects have all been freed has no slabs, and the chunks of the root
that are allocated are those that callers hold and the slabs of the other lists. -/
theorem slabListFree_noLeak {root : ℕ} {st : Slabs} {info : BootInfo} {vm : BootVm}
    (hnull : ∀ h, st.links.cell (.head h) = 0) (hslack : info.kernelSlack ≤ 2 ^ 31)
    (hrun : Reaches ForestRun.step (ForestRun.TwoLevel root) (.start st info vm) r)
    (hl : l ∈ r.lists) (hne : l ≠ root) (hfreed : r.live l = []) :
    r.st.links.cell (.head (.free l)) = 0 ∧ r.st.links.cell (.head (.used l)) = 0 ∧
      ∀ x, r.st.Allocated root x ↔
        x ∈ r.live root ∨ ∃ k ∈ r.lists, k ≠ root ∧ k ≠ l ∧ r.st.Has k x := by
  obtain ⟨geo, top, lay, out, hok⟩ := levelsOk_of_reaches hnull hslack hrun
  have howner : (r.st.list l).owner = some root := by rw [hok.owner l hl, if_neg hne]
  obtain ⟨hroot, -, -, -⟩ := hok.forest.owner l hl root howner
  have hempty : ∀ a, ¬r.st.Has l a := by
    intro a ha
    obtain ⟨x, hx, -⟩ := (hok.has_iff hl hne).mp ha
    simp [hfreed] at hx
  have hnil : lay.slabs l = [] := by
    rw [List.eq_nil_iff_forall_not_mem]
    intro a ha
    exact hempty a ((Slabs.has_iff hok.forest.linked).mpr ha)
  rw [Layout.slabs, List.append_eq_nil_iff] at hnil
  have hfree := hok.forest.linked.threaded (.free l)
  have hused := hok.forest.linked.threaded (.used l)
  rw [hnil.1] at hfree
  rw [hnil.2] at hused
  refine ⟨hfree, hused, fun x => ?_⟩
  rw [hok.allocated_root hroot]
  constructor
  · rintro (hx | ⟨k, hk, hkr, hx⟩)
    · exact Or.inl hx
    · refine Or.inr ⟨k, hk, hkr, ?_, hx⟩
      rintro rfl
      exact hempty x hx
  · rintro (hx | ⟨k, hk, hkr, -, hx⟩)
    · exact Or.inl hx
    · exact Or.inr ⟨k, hk, hkr, hx⟩

/-- Two lists, one of which has got back the objects of its two slabs in another order than it
handed them out. -/
theorem slabListFree_noLeak_orders :
    ∃ r, Reaches ForestRun.step (ForestRun.TwoLevel 0) .blank r ∧ r.live 0 = [] ∧
      r.live 2 = [0xFFFFFFFF801001C0] ∧
      ∀ x, r.st.Allocated 0 x ↔ x ∈ r.live 0 ∨ ∃ k ∈ r.lists, k ≠ 0 ∧ k ≠ 1 ∧ r.st.Has k x := by
  have hall : (runOps ForestRun.step (ForestRun.TwoLevel 0) .blank
      [.init 0 none 0x1000 128, .reserve 0, .init 1 (some 0) 128 32, .init 2 (some 0) 128 32,
        .alloc 1, .alloc 1, .alloc 1, .alloc 2, .free 1 0xFFFFFFFF801000C0,
        .free 1 0xFFFFFFFF80100140, .free 1 0xFFFFFFFF801000E0]).map
          (fun r => (r.lists, r.live 0, r.live 1, r.live 2)) =
      some ([2, 1, 0], [], [], [0xFFFFFFFF801001C0]) := by decide +kernel
  obtain ⟨r, hrun, heq⟩ := Option.map_eq_some_iff.mp hall
  simp only [Prod.mk.injEq] at heq
  obtain ⟨hlists, hlive, hfreed, hlive'⟩ := heq
  have hreach := Reaches.of_runOps hrun
  have hleak := slabListFree_noLeak (fun _ => rfl) (by decide) hreach (l := 1) (by simp [hlists])
    (by decide) hfreed
  exact ⟨r, hreach, hlive, hlive', hleak.2.2⟩

end Runs

end Smor.Alloc
