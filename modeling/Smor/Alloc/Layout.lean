import Smor.Alloc.Objects
import Smor.Lib.Runs
import Mathlib.Data.Finset.Basic

/-!
# The sizes a slab list accepts

`slab_list_init` rounds its two sizes up to powers of two and accepts all of them.
`slab_init` computes the number of chunks and the chunks of the header in 32 bits and stores
them in 16. This file says for which sizes the slab is usable: there must not be too many
chunks for the fields, and not so few that the header leaves none.
-/

namespace Smor.Alloc

open Smor.Lib

/-- `ceil_pow2` is the exponent of the least power of two that is not smaller. -/
theorem ceilPow2_le_iff {x k : ℕ} (hx : 2 ≤ x) (hmax : x ≤ 2 ^ 31) :
    ceilPow2 x ≤ k ↔ x ≤ 2 ^ k := by
  have hpred : u32Pred x = x - 1 := if_neg (by omega)
  have hlog : Nat.log2 (x - 1) ≤ 31 := by
    have hlt : Nat.log2 (x - 1) < 31 := (Nat.log2_lt (by omega)).mpr (by omega)
    omega
  have hceil : ceilPow2 x = Nat.log2 (x - 1) + 1 := by
    rw [ceilPow2, clz, hpred, if_neg (by omega)]
    omega
  have hlt := Nat.log2_lt (n := x - 1) (k := k) (by omega)
  rw [hceil]
  constructor
  · intro hle
    have := hlt.mp (by omega)
    omega
  · intro hle
    have := hlt.mpr (by omega)
    omega

/-- The two shifts of a slab list are in order and fit a 32-bit size. -/
theorem ceilPow2_bounds {size chunkSize : ℕ} (hchunk : 2 ≤ chunkSize) (hle : chunkSize ≤ size)
    (hmax : size ≤ 2 ^ 31) : ceilPow2 chunkSize ≤ ceilPow2 size ∧ ceilPow2 size ≤ 31 := by
  have hsize := (ceilPow2_le_iff (k := ceilPow2 size) (by omega) hmax).mp le_rfl
  constructor
  · exact (ceilPow2_le_iff hchunk (by omega)).mpr (hle.trans hsize)
  · exact (ceilPow2_le_iff (by omega) hmax).mpr hmax

/-- The calls made on one slab. -/
inductive ChunkOp
  | alloc
  | free (addr : ℕ)

/-- One slab, with the addresses its user holds. -/
structure OneSlab where
  slab : Slab
  /-- The addresses returned by `slab_alloc` and not freed since. -/
  out : Finset ℕ

/-- One call on the slab at `base`. -/
def OneSlab.step (base : ℕ) (r : OneSlab) : ChunkOp → Option OneSlab
  | .alloc =>
    let (addr, slab) := slabAlloc base r.slab
    some ⟨slab, if addr = 0 then r.out else insert addr r.out⟩
  | .free addr => some ⟨slabFree base r.slab addr, r.out.erase addr⟩

/-- Only addresses that are held are freed. -/
def OneSlab.Held (r : OneSlab) : ChunkOp → Prop
  | .alloc => True
  | .free addr => addr ∈ r.out

/-- The slab that `slab_init` builds for a list. -/
def SlabList.newSlab (sl : SlabList) (old : Slab) : Slab :=
  slabInit old (u32 (1 <<< sl.sizeShift)) (u32 (1 <<< sl.chunkShift))

/-- A new slab of the list can be used: the numbers fit their fields, a chunk is left, the header
and `chunk_list` lie in the reserved chunks, the other chunks are linked in order, and an
address that `slab_alloc` ever returns is that of a chunk inside the slab. -/
structure UsableSlab (sl : SlabList) (old : Slab) : Prop where
  numChunks : (sl.newSlab old).numChunks =
    slabNumChunks (u32 (1 <<< sl.sizeShift)) (u32 (1 <<< sl.chunkShift))
  numReserved : (sl.newSlab old).numReserved =
    slabNumReserved (u32 (1 <<< sl.sizeShift)) (u32 (1 <<< sl.chunkShift))
  numFree : (sl.newSlab old).numFree + (sl.newSlab old).numReserved = (sl.newSlab old).numChunks
  room : (sl.newSlab old).numReserved < (sl.newSlab old).numChunks
  header : sizeofSlab + 2 * (sl.newSlab old).numChunks ≤
    (sl.newSlab old).numReserved * 2 ^ sl.chunkShift
  links : Chain 0 (sl.newSlab old).chunkList (sl.newSlab old).freeList
    (List.range' (sl.newSlab old).numReserved
      ((sl.newSlab old).numChunks - (sl.newSlab old).numReserved))
  inside : ∀ base, base + 2 ^ sl.sizeShift ≤ 2 ^ 64 →
    ∀ r, Reaches (OneSlab.step base) OneSlab.Held ⟨sl.newSlab old, ∅⟩ r →
      (slabAlloc base r.slab).1 ≠ 0 →
      base + sizeofSlab + 2 * (sl.newSlab old).numChunks ≤ (slabAlloc base r.slab).1 ∧
        (slabAlloc base r.slab).1 + 2 ^ sl.chunkShift ≤ base + 2 ^ sl.sizeShift

/-- The sizes for which `slab_init` works, by the exponents of the slab and of a chunk: at most
`2 ^ 15` chunks, and one fewer of them holds the header and `chunk_list`. -/
def SizesFit (sizeShift chunkShift : ℕ) : Prop :=
  sizeShift - chunkShift ≤ 15 ∧
    sizeofSlab + 2 * 2 ^ (sizeShift - chunkShift) ≤
      (2 ^ (sizeShift - chunkShift) - 1) * 2 ^ chunkShift

instance (sizeShift chunkShift : ℕ) : Decidable (SizesFit sizeShift chunkShift) :=
  inferInstanceAs (Decidable (_ ∧ _))

section Header

variable {sl : SlabList}

/-- The reserved chunks are those that hold the header and `chunk_list`, rounded up. -/
theorem slabNumReserved_eq (hsize : sl.sizeShift ≤ 31) (hle : sl.chunkShift ≤ sl.sizeShift)
    (hfew : sl.sizeShift - sl.chunkShift ≤ 15) :
    slabNumReserved (u32 (1 <<< sl.sizeShift)) (u32 (1 <<< sl.chunkShift)) =
      (sizeofSlab + 2 * 2 ^ (sl.sizeShift - sl.chunkShift) + (2 ^ sl.chunkShift - 1)) /
        2 ^ sl.chunkShift := by
  have hnum := slabNumChunks_eq hsize hle
  have hpow : 2 ^ (sl.sizeShift - sl.chunkShift) ≤ 2 ^ 15 :=
    Nat.pow_le_pow_right (by decide) hfew
  have hchunk : 2 ^ sl.chunkShift ≤ 2 ^ 31 := Nat.pow_le_pow_right (by decide) (by omega)
  have hcache : u32 (sizeofSlab + 2 ^ (sl.sizeShift - sl.chunkShift) * 2) =
      sizeofSlab + 2 * 2 ^ (sl.sizeShift - sl.chunkShift) := by
    unfold u32 sizeofSlab
    omega
  have hsum : u32 (sizeofSlab + 2 * 2 ^ (sl.sizeShift - sl.chunkShift) +
        (2 ^ sl.chunkShift - 1)) =
      sizeofSlab + 2 * 2 ^ (sl.sizeShift - sl.chunkShift) + (2 ^ sl.chunkShift - 1) := by
    unfold u32 sizeofSlab
    omega
  simp only [slabNumReserved, hnum]
  rw [u32_shift (k := sl.chunkShift) (by omega), ceilPow2_pow (by omega),
    u32_shift (k := sl.chunkShift) (by omega), hcache, hsum, Nat.shiftRight_eq_div_pow,
    Nat.mul_div_cancel _ (Nat.two_pow_pos _)]

/-- The chunks behind the header fit their fields and leave one over exactly when the sizes fit. -/
theorem usable_iff_sizesFit (hsize : sl.sizeShift ≤ 31) (hle : sl.chunkShift ≤ sl.sizeShift) :
    sl.Usable ↔ SizesFit sl.sizeShift sl.chunkShift := by
  have hnum := slabNumChunks_eq hsize hle
  have hfew : 2 ^ (sl.sizeShift - sl.chunkShift) ≤ 65535 ↔ sl.sizeShift - sl.chunkShift ≤ 15 := by
    constructor
    · intro h
      by_contra hlt
      have := Nat.pow_le_pow_right (n := 2) (by decide) (show 16 ≤ sl.sizeShift - sl.chunkShift by
        omega)
      omega
    · intro h
      have := Nat.pow_le_pow_right (n := 2) (by decide) h
      omega
  have hpos := Nat.two_pow_pos sl.chunkShift
  have hone := Nat.two_pow_pos (sl.sizeShift - sl.chunkShift)
  unfold SlabList.Usable SizesFit
  simp only [hnum, hfew]
  rw [and_comm]
  refine and_congr_right fun h => ?_
  rw [slabNumReserved_eq hsize hle h, Nat.div_lt_iff_lt_mul hpos, Nat.sub_mul, Nat.one_mul]
  have hmul := Nat.le_mul_of_pos_left (2 ^ sl.chunkShift) hone
  omega

/-- The header and `chunk_list` lie in the reserved chunks. -/
theorem header_le (husable : sl.Usable) :
    sizeofSlab + 2 * (sl.geometry husable).numChunks ≤
      (sl.geometry husable).numReserved * 2 ^ sl.chunkShift := by
  obtain ⟨hsize, hlt⟩ := husable.shifts
  have hfew := ((usable_iff_sizesFit (by omega) hlt.le).mp husable).1
  have hpos := Nat.two_pow_pos sl.chunkShift
  simp only [SlabList.geometry]
  rw [slabNumChunks_eq (by omega) hlt.le, slabNumReserved_eq (by omega) hlt.le hfew]
  have hround := Nat.div_add_mod (sizeofSlab + 2 * 2 ^ (sl.sizeShift - sl.chunkShift) +
    (2 ^ sl.chunkShift - 1)) (2 ^ sl.chunkShift)
  have hmod := Nat.mod_lt (sizeofSlab + 2 * 2 ^ (sl.sizeShift - sl.chunkShift) +
    (2 ^ sl.chunkShift - 1)) hpos
  rw [Nat.mul_comm] at hround
  omega

end Header

/-- What holds on every run of calls on one slab: the free chunks form a chain, and the addresses
that are held are those of other chunks. -/
structure OneSlabOk (g : Geometry) (base : ℕ) (r : OneSlab) (free : List ℕ) : Prop where
  ok : SlabOk g r.slab free
  held : ∀ addr ∈ r.out, ∃ i, addr = base + i * 2 ^ g.chunkShift ∧ g.numReserved ≤ i ∧
    i < g.numChunks ∧ i ∉ free

section Run

variable {g : Geometry} {base : ℕ} {r t : OneSlab} {free : List ℕ}

/-- What `slab_alloc` returns on a chain of free chunks. -/
theorem SlabOk.slabAlloc_fst {s : Slab} (h : SlabOk g s free)
    (hend : base + 2 ^ g.sizeShift ≤ 2 ^ 64) :
    (slabAlloc base s).1 = match free with
      | [] => 0
      | i :: _ => base + i * 2 ^ g.chunkShift := by
  cases free with
  | nil => simp [slabAlloc, chain_nil_iff.mp h.chain]
  | cons i rest =>
    obtain ⟨s', heq, -⟩ := h.slabAlloc_spec hend
    rw [heq]

/-- Every allowed call keeps the state of the run. -/
theorem OneSlabOk.step {op : ChunkOp} (h : OneSlabOk g base r free)
    (hend : base + 2 ^ g.sizeShift ≤ 2 ^ 64) (hheld : r.Held op)
    (hstep : r.step base op = some t) : ∃ free', OneSlabOk g base t free' := by
  cases op with
  | alloc =>
    cases free with
    | nil =>
      have hnull := chain_nil_iff.mp h.ok.chain
      simp only [OneSlab.step, slabAlloc, if_pos hnull, if_true, Option.some.injEq] at hstep
      exact ⟨[], hstep ▸ h⟩
    | cons i rest =>
      obtain ⟨s', heq, hok, -⟩ := h.ok.slabAlloc_spec hend
      have hnodup := List.nodup_cons.mp h.ok.chain.nodup
      have hi := h.ok.range i List.mem_cons_self
      simp only [OneSlab.step, heq, Option.some.injEq] at hstep
      subst hstep
      refine ⟨rest, hok, fun addr haddr => ?_⟩
      have hcases : addr = base + i * 2 ^ g.chunkShift ∨ addr ∈ r.out := by
        simp only at haddr
        split_ifs at haddr
        · exact .inr haddr
        · exact Finset.mem_insert.mp haddr
      rcases hcases with rfl | haddr
      · exact ⟨i, rfl, hi.1, hi.2, hnodup.1⟩
      · obtain ⟨j, rfl, hmin, hmax, hnew⟩ := h.held addr haddr
        exact ⟨j, rfl, hmin, hmax, fun hmem => hnew (List.mem_cons_of_mem _ hmem)⟩
  | free addr =>
    obtain ⟨i, rfl, hmin, hmax, hnew⟩ := h.held addr hheld
    obtain rfl := Option.some.inj hstep
    refine ⟨i :: free, h.ok.slabFree_spec base hmin hmax hnew, fun addr haddr => ?_⟩
    obtain ⟨hne, haddr⟩ := Finset.mem_erase.mp haddr
    obtain ⟨j, rfl, hmin', hmax', hnew'⟩ := h.held addr haddr
    refine ⟨j, rfl, hmin', hmax', fun hmem => ?_⟩
    rcases List.mem_cons.mp hmem with rfl | hmem
    · exact hne rfl
    · exact hnew' hmem

/-- Addresses returned on a run are those of chunks behind the header. -/
theorem OneSlabOk.addr_mem (h : OneSlabOk g base r free) (hend : base + 2 ^ g.sizeShift ≤ 2 ^ 64)
    (hne : (slabAlloc base r.slab).1 ≠ 0) :
    base + g.numReserved * 2 ^ g.chunkShift ≤ (slabAlloc base r.slab).1 ∧
      (slabAlloc base r.slab).1 + 2 ^ g.chunkShift ≤ base + 2 ^ g.sizeShift := by
  rw [h.ok.slabAlloc_fst hend] at hne ⊢
  cases free with
  | nil => exact absurd rfl hne
  | cons i rest =>
    obtain ⟨hmin, hmax⟩ := h.ok.range i List.mem_cons_self
    have hle := g.chunk_le hmax
    have hmul := Nat.mul_le_mul_right (2 ^ g.chunkShift) hmin
    simp only
    omega

end Run

/-- A list that has room for a chunk builds usable slabs. -/
theorem SlabList.Usable.usableSlab {sl : SlabList} (husable : sl.Usable) (old : Slab) :
    UsableSlab sl old := by
  have hok := slabInit_spec husable old
  have hlength := (sl.geometry husable).length_chunks
  have hheader := header_le husable
  refine ⟨hok.numChunks, hok.numReserved, ?_, ?_, ?_, ?_, fun base hend r hrun hne => ?_⟩
  · rw [newSlab, hok.numFree, hok.numReserved, hok.numChunks, hlength]
  · rw [newSlab, hok.numReserved, hok.numChunks]
    exact (sl.geometry husable).room
  · rw [newSlab, hok.numReserved, hok.numChunks]
    exact hheader
  · rw [newSlab, hok.numReserved, hok.numChunks]
    exact hok.chain
  · have hall : ∃ free, OneSlabOk (sl.geometry husable) base r free :=
      hrun.invariant (I := fun r => ∃ free, OneSlabOk (sl.geometry husable) base r free)
        ⟨_, hok, by simp⟩ fun _ _ _ ⟨_, h⟩ hheld hstep => h.step hend hheld hstep
    obtain ⟨free, h⟩ := hall
    obtain ⟨hmin, hmax⟩ := h.addr_mem hend hne
    rw [newSlab, hok.numChunks]
    refine ⟨le_trans ?_ hmin, hmax⟩
    change base + sizeofSlab + _ ≤ base + _ * 2 ^ sl.chunkShift
    omega

/-- What `slab_list_init` stores in the list. -/
theorem slabListInit_list {st st' : Slabs} {l size chunkSize : ℕ} {owner : Option ℕ}
    (hinit : st.slabListInit l owner size chunkSize = some st') :
    st'.list l = ⟨owner, ceilPow2 size, ceilPow2 chunkSize⟩ := by
  unfold Slabs.slabListInit at hinit
  simp only at hinit
  split_ifs at hinit
  rw [← Option.some.inj hinit]
  exact Function.update_self _ _ _

/-- Without an owner `slab_list_init` accepts all sizes. -/
theorem slabListInit_isSome (st : Slabs) (l size chunkSize : ℕ) :
    ∃ st', st.slabListInit l none size chunkSize = some st' := by
  unfold Slabs.slabListInit
  simp

/-- **Usable slabs.** When `slab_list_init` accepts its sizes, the slabs of the list are usable
exactly if the rounded sizes fit. -/
theorem slabListInit_usable_iff {st st' : Slabs} {l size chunkSize : ℕ} {owner : Option ℕ}
    (hchunk : 2 ≤ chunkSize) (hle : chunkSize ≤ size) (hmax : size ≤ 2 ^ 31)
    (hinit : st.slabListInit l owner size chunkSize = some st') (old : Slab) :
    UsableSlab (st'.list l) old ↔ SizesFit (ceilPow2 size) (ceilPow2 chunkSize) := by
  obtain ⟨hshift, hbound⟩ := ceilPow2_bounds hchunk hle hmax
  have hfits : SlabList.Usable ⟨owner, ceilPow2 size, ceilPow2 chunkSize⟩ ↔
      SizesFit (ceilPow2 size) (ceilPow2 chunkSize) := usable_iff_sizesFit hbound hshift
  rw [slabListInit_list hinit, ← hfits]
  constructor
  · intro h
    have hroom := h.room
    have hfit : (SlabList.newSlab ⟨owner, ceilPow2 size, ceilPow2 chunkSize⟩ old).numChunks <
        2 ^ 16 := by
      simp only [SlabList.newSlab, slabInit]
      unfold u16
      exact Nat.mod_lt _ (by decide)
    rw [h.numChunks] at hroom hfit
    rw [h.numReserved] at hroom
    exact ⟨hroom, Nat.le_of_lt_succ hfit⟩
  · exact fun h => h.usableSlab old

/-- 2MB slabs of 16-byte chunks are accepted, but the number of their chunks is stored as 0. So are
16-byte slabs of one chunk, which the header already overruns. -/
theorem slabListInit_unusable :
    ¬((∀ (st : Slabs) st' old, st.slabListInit 0 none (2 ^ 21) 16 = some st' →
        UsableSlab (st'.list 0) old) ∨
      ∀ (st : Slabs) st' old, st.slabListInit 0 none 16 16 = some st' →
        UsableSlab (st'.list 0) old) := by
  have hfull : ∀ size, (∀ st st' old, Slabs.slabListInit st 0 none size 16 = some st' →
      UsableSlab (st'.list 0) old) → ∀ old, UsableSlab ⟨none, ceilPow2 size, ceilPow2 16⟩ old := by
    intro size hall old
    obtain ⟨st', hinit⟩ := slabListInit_isSome Slabs.blank 0 size 16
    exact slabListInit_list hinit ▸ hall _ _ old hinit
  rintro (hall | hall)
  · have hroom := (hfull _ hall ⟨0, 0, 0, 0, false, 0, fun _ => 0⟩).room
    revert hroom
    decide +kernel
  · have hroom := (hfull _ hall ⟨0, 0, 0, 0, false, 0, fun _ => 0⟩).room
    revert hroom
    decide +kernel

/-- The root list of the kernel's allocator: 2MB slabs of 16KB chunks. -/
theorem slabListInit_usable_root :
    ∃ st', Slabs.blank.slabListInit slRoot none page2mSize kmallocChunkSize = some st' ∧
      ∀ old, UsableSlab (st'.list slRoot) old := by
  obtain ⟨st', hinit⟩ := slabListInit_isSome Slabs.blank slRoot page2mSize kmallocChunkSize
  refine ⟨st', hinit, fun old => ?_⟩
  exact (slabListInit_usable_iff (by decide) (by decide) (by decide) hinit old).mpr
    (by decide +kernel)

end Smor.Alloc
