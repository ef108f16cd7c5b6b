import Smor.Alloc.Slab
import Smor.Lib.Fill
import Mathlib.Algebra.Order.Group.Nat
import Mathlib.Data.Nat.Log

/-!
# The chunks of one slab

The free chunks of a slab are a chain of indices behind the chunks that hold the header.
`slab_alloc` takes the first index off the chain and `slab_free` puts one back, so the
chunks that are handed out are the indices that are not on it.
-/

namespace Smor.Alloc

open Smor.Lib Smor.Vm

/-- The shape of the slabs of a slab list. -/
structure Geometry where
  sizeShift : ℕ
  chunkShift : ℕ
  numChunks : ℕ
  numReserved : ℕ
  size_eq : numChunks * 2 ^ chunkShift = 2 ^ sizeShift
  reserved_pos : 0 < numReserved
  room : numReserved < numChunks
  numChunks_lt : numChunks < 2 ^ 16
  sizeShift_lt : sizeShift < 32

/-- The chunks behind the header. -/
def Geometry.chunks (g : Geometry) : List ℕ :=
  List.range' g.numReserved (g.numChunks - g.numReserved)

/-- `slab_init` gets slabs of this list right: there is room for a chunk behind the header, and the
number of chunks fits into its field. -/
def SlabList.Usable (sl : SlabList) : Prop :=
  let size := u32 (1 <<< sl.sizeShift)
  let chunkSize := u32 (1 <<< sl.chunkShift)
  slabNumReserved size chunkSize < slabNumChunks size chunkSize ∧
    slabNumChunks size chunkSize ≤ 65535

instance (sl : SlabList) : Decidable sl.Usable := inferInstanceAs (Decidable (_ ∧ _))

/-- As `SlabList.Usable`, with room for two chunks behind the header. -/
def SlabList.Good (sl : SlabList) : Prop :=
  let size := u32 (1 <<< sl.sizeShift)
  let chunkSize := u32 (1 <<< sl.chunkShift)
  slabNumReserved size chunkSize + 2 ≤ slabNumChunks size chunkSize ∧
    slabNumChunks size chunkSize ≤ 65535

instance (sl : SlabList) : Decidable sl.Good := inferInstanceAs (Decidable (_ ∧ _))

section Sizes

theorem u32_shift {k : ℕ} (hk : k < 32) : u32 (1 <<< k) = 2 ^ k := by
  rw [Nat.one_shiftLeft]
  unfold u32
  exact Nat.mod_eq_of_lt (Nat.pow_lt_pow_right (by decide) hk)

theorem u32_shift_of_le {k : ℕ} (hk : 32 ≤ k) : u32 (1 <<< k) = 0 := by
  rw [Nat.one_shiftLeft]
  unfold u32
  exact Nat.mod_eq_zero_of_dvd (Nat.pow_dvd_pow 2 hk)

/-- `ceil_pow2` of a power of two is its exponent. -/
theorem ceilPow2_pow {k : ℕ} (hk : k < 32) : ceilPow2 (2 ^ k) = k := by
  have hall : ∀ k : Fin 32, ceilPow2 (2 ^ k.val) = k.val := by decide +kernel
  exact hall ⟨k, hk⟩

theorem SlabList.Good.usable {sl : SlabList} (h : sl.Good) : sl.Usable := by
  obtain ⟨hroom, hmax⟩ := h
  exact ⟨by omega, hmax⟩

/-- The header takes a chunk at least. -/
theorem slabNumReserved_pos {size k : ℕ} (hk : k < 32) (hmax : slabNumChunks size (2 ^ k) ≤ 65535) :
    0 < slabNumReserved size (2 ^ k) := by
  have hpow : 2 ^ k ≤ 2 ^ 31 := Nat.pow_le_pow_right (by decide) (by omega)
  have hcache : ∀ n ≤ 65535, u32 (sizeofSlab + n * 2) = 32 + n * 2 := by
    intro n hn
    unfold u32 sizeofSlab
    omega
  simp only [slabNumReserved, ceilPow2_pow hk, u32_shift hk, Nat.shiftRight_eq_div_pow]
  rw [hcache _ hmax, Nat.mul_div_cancel _ (Nat.two_pow_pos _)]
  apply Nat.div_pos _ (Nat.two_pow_pos _)
  generalize slabNumChunks _ _ = n at hmax ⊢
  unfold u32
  omega

/-- What the condition on a list says about its shifts: nothing in `slab_init` wraps. -/
theorem SlabList.Usable.shifts {sl : SlabList} (h : sl.Usable) :
    sl.sizeShift < 32 ∧ sl.chunkShift < sl.sizeShift := by
  obtain ⟨hroom, hmax⟩ := h
  have hone : 1 ≤ slabNumChunks (u32 (1 <<< sl.sizeShift)) (u32 (1 <<< sl.chunkShift)) := by omega
  unfold slabNumChunks at hone
  have hsize : sl.sizeShift < 32 := by
    by_contra hle
    rw [u32_shift_of_le (by omega)] at hone
    simp at hone
  have hchunk : sl.chunkShift < 32 := by
    by_contra hle
    have hlt : u32 (1 <<< sl.sizeShift) < 2 ^ 32 := by
      unfold u32
      exact Nat.mod_lt _ (by decide)
    rw [u32_shift_of_le (k := sl.chunkShift) (by omega), show ceilPow2 0 = 32 by decide +kernel,
      Nat.shiftRight_eq_div_pow, Nat.div_eq_of_lt hlt] at hone
    omega
  refine ⟨hsize, ?_⟩
  rw [u32_shift hsize, u32_shift hchunk] at hroom hmax
  have hpos := slabNumReserved_pos hchunk hmax
  have htwo : 2 ≤ slabNumChunks (2 ^ sl.sizeShift) (2 ^ sl.chunkShift) := by omega
  rw [slabNumChunks, ceilPow2_pow hchunk, Nat.shiftRight_eq_div_pow] at htwo
  by_contra hle
  have hpow := Nat.pow_le_pow_right (n := 2) (by decide) (not_lt.mp hle)
  have hdiv := Nat.div_le_of_le_mul (m := 2 ^ sl.sizeShift) (k := 2 ^ sl.chunkShift) (n := 1)
    (by omega)
  omega

/-- The number of chunks, for sizes that are in order. -/
theorem slabNumChunks_eq {sl : SlabList} (hsize : sl.sizeShift ≤ 31)
    (hle : sl.chunkShift ≤ sl.sizeShift) :
    slabNumChunks (u32 (1 <<< sl.sizeShift)) (u32 (1 <<< sl.chunkShift)) =
      2 ^ (sl.sizeShift - sl.chunkShift) := by
  unfold slabNumChunks
  rw [u32_shift (by omega), u32_shift (by omega), ceilPow2_pow (by omega),
    Nat.shiftRight_eq_div_pow, Nat.pow_div hle (by decide)]

/-- The number of chunks is the quotient of the sizes. -/
theorem SlabList.Usable.numChunks_eq {sl : SlabList} (h : sl.Usable) :
    slabNumChunks (u32 (1 <<< sl.sizeShift)) (u32 (1 <<< sl.chunkShift)) =
      2 ^ (sl.sizeShift - sl.chunkShift) := by
  obtain ⟨hsize, hlt⟩ := h.shifts
  exact slabNumChunks_eq (Nat.le_of_lt_succ hsize) hlt.le

/-- The shape of the slabs of a list for which `slab_init` works. -/
def SlabList.geometry (sl : SlabList) (h : sl.Usable) : Geometry where
  sizeShift := sl.sizeShift
  chunkShift := sl.chunkShift
  numChunks := slabNumChunks (u32 (1 <<< sl.sizeShift)) (u32 (1 <<< sl.chunkShift))
  numReserved := slabNumReserved (u32 (1 <<< sl.sizeShift)) (u32 (1 <<< sl.chunkShift))
  size_eq := by
    rw [h.numChunks_eq, ← pow_add]
    congr 1
    have := h.shifts.2
    omega
  reserved_pos := by
    have hk : sl.chunkShift < 32 := by
      have := h.shifts
      omega
    have hmax := h.2
    rw [u32_shift hk] at hmax ⊢
    exact slabNumReserved_pos hk hmax
  room := h.1
  numChunks_lt := by
    have := h.2
    omega
  sizeShift_lt := h.shifts.1

end Sizes

/-- The header of a slab of this shape, with the free chunks in the order of the chain. -/
structure SlabOk (g : Geometry) (s : Slab) (free : List ℕ) : Prop where
  chunkShift : s.chunkShift = g.chunkShift
  numChunks : s.numChunks = g.numChunks
  numReserved : s.numReserved = g.numReserved
  chain : Chain 0 s.chunkList s.freeList free
  numFree : s.numFree = free.length
  range : ∀ i ∈ free, g.numReserved ≤ i ∧ i < g.numChunks

section Chunks

variable {g : Geometry} {s : Slab} {free : List ℕ} {base i : ℕ}

theorem Geometry.chunk_le (g : Geometry) (hi : i < g.numChunks) :
    i * 2 ^ g.chunkShift + 2 ^ g.chunkShift ≤ 2 ^ g.sizeShift := by
  calc i * 2 ^ g.chunkShift + 2 ^ g.chunkShift = (i + 1) * 2 ^ g.chunkShift := by
        rw [Nat.succ_mul]
    _ ≤ g.numChunks * 2 ^ g.chunkShift := Nat.mul_le_mul_right _ hi
    _ = 2 ^ g.sizeShift := g.size_eq

theorem Geometry.numReserved_lt (g : Geometry) : g.numReserved < 2 ^ 16 := by
  have := g.room
  have := g.numChunks_lt
  omega

theorem Geometry.mem_chunks (g : Geometry) :
    i ∈ g.chunks ↔ g.numReserved ≤ i ∧ i < g.numChunks := by
  have hroom := g.room
  rw [Geometry.chunks, List.mem_range'_1]
  omega

theorem Geometry.chunks_ne_nil (g : Geometry) : g.chunks ≠ [] := by
  have hroom := g.room
  rw [Geometry.chunks, ne_eq, List.range'_eq_nil_iff]
  omega

theorem Geometry.length_chunks (g : Geometry) :
    g.chunks.length + g.numReserved = g.numChunks := by
  have hroom := g.room
  rw [Geometry.chunks, List.length_range']
  omega

theorem Geometry.size_lt (g : Geometry) : 2 ^ g.sizeShift < 2 ^ 32 :=
  Nat.pow_lt_pow_right (by decide) g.sizeShift_lt

/-- There are not more free chunks than chunks behind the header. -/
theorem SlabOk.length_le (h : SlabOk g s free) : free.length + g.numReserved ≤ g.numChunks := by
  have hsub : free ⊆ g.chunks := by
    intro i hi
    exact g.mem_chunks.mpr (h.range i hi)
  have hle := (List.subperm_of_subset h.chain.nodup hsub).length_le
  have hall := g.length_chunks
  omega

/-- If no chunk is missing, every chunk behind the header is free. -/
theorem SlabOk.mem_of_length (h : SlabOk g s free)
    (hlen : free.length + g.numReserved = g.numChunks) (hmin : g.numReserved ≤ i)
    (hmax : i < g.numChunks) : i ∈ free := by
  have hsub : free ⊆ g.chunks := by
    intro j hj
    exact g.mem_chunks.mpr (h.range j hj)
  have hall := g.length_chunks
  have hperm : free.Perm g.chunks := by
    apply (List.subperm_of_subset h.chain.nodup hsub).perm_of_length_le
    omega
  rw [hperm.mem_iff, g.mem_chunks]
  exact ⟨hmin, hmax⟩

/-- The loops of `slab_init` chain the chunks behind the header. -/
theorem chain_initChunkList (g : Geometry) (chunkList : ℕ → ℕ) :
    Chain 0 (initChunkList chunkList g.numChunks g.numReserved) (u16 g.numReserved) g.chunks := by
  have hroom := g.room
  have hlt := g.numChunks_lt
  have hpred : u32Pred g.numChunks = g.numChunks - 1 := by
    unfold u32Pred
    rw [if_neg (by omega)]
  have hlast : max g.numReserved (u32Pred g.numChunks) = g.numChunks - 1 := by
    rw [hpred]
    omega
  rw [u16_of_lt (by omega)]
  apply chain_range' g.reserved_pos (by omega)
  · intro i hmin hmax
    have hne : i ≠ g.numChunks - 1 := by omega
    simp only [initChunkList]
    rw [hlast, Function.update_of_ne hne, hpred, foldl_update_apply (fun i => u16 (i + 1)),
      if_pos (by rw [List.mem_range'_1]; omega), u16_of_lt (by omega)]
  · simp only [initChunkList]
    rw [hlast, show g.numReserved + (g.numChunks - g.numReserved) - 1 = g.numChunks - 1 by omega,
      Function.update_self]

/-- `slab_init` leaves all chunks behind the header free. -/
theorem slabInit_spec {sl : SlabList} (h : sl.Usable) (old : Slab) :
    SlabOk (sl.geometry h)
      (slabInit old (u32 (1 <<< sl.sizeShift)) (u32 (1 <<< sl.chunkShift)))
      (sl.geometry h).chunks := by
  have hk := h.shifts
  refine ⟨?_, ?_, ?_, ?_, ?_, fun i hi => ?_⟩
  · simp only [slabInit, SlabList.geometry]
    rw [u32_shift (k := sl.chunkShift) (by omega), ceilPow2_pow (by omega)]
    unfold u16
    omega
  · exact u16_of_lt (sl.geometry h).numChunks_lt
  · exact u16_of_lt (sl.geometry h).numReserved_lt
  · exact chain_initChunkList (sl.geometry h) old.chunkList
  · have hroom := (sl.geometry h).room
    have hlt := (sl.geometry h).numChunks_lt
    have hall := (sl.geometry h).length_chunks
    change u16 ((sl.geometry h).numChunks + 2 ^ 32 - (sl.geometry h).numReserved) = _
    unfold u16
    omega
  · exact (sl.geometry h).mem_chunks.mp hi

/-- `slab_alloc` takes the first free chunk. -/
theorem SlabOk.slabAlloc_spec (h : SlabOk g s (i :: free))
    (hbase : base + 2 ^ g.sizeShift ≤ 2 ^ 64) :
    ∃ s', slabAlloc base s = (base + i * 2 ^ g.chunkShift, s') ∧ SlabOk g s' free ∧
      s'.reserved = s.reserved := by
  obtain ⟨hfirst, hne, hrest⟩ := chain_cons_iff.mp h.chain
  have hi := (h.range i List.mem_cons_self).2
  have hle := g.chunk_le hi
  have hsize := g.size_lt
  have hpow := Nat.two_pow_pos g.chunkShift
  have haddr : u64 (base + u32 (i <<< s.chunkShift)) = base + i * 2 ^ g.chunkShift := by
    rw [h.chunkShift, Nat.shiftLeft_eq]
    unfold u64 u32
    omega
  unfold slabAlloc
  rw [hfirst, if_neg hne, haddr]
  refine ⟨_, rfl, ⟨h.chunkShift, h.numChunks, h.numReserved, hrest, ?_, fun j hj => ?_⟩, rfl⟩
  · have hlen := h.length_le
    have hlt := g.numChunks_lt
    have hnum := h.numFree
    rw [List.length_cons] at hlen hnum
    simp only
    rw [hnum]
    unfold u16
    omega
  · exact h.range j (List.mem_cons_of_mem _ hj)

/-- `slab_free` puts a chunk back. -/
theorem SlabOk.slabFree_spec (h : SlabOk g s free) (base : ℕ) (hmin : g.numReserved ≤ i)
    (hmax : i < g.numChunks) (hnew : i ∉ free) :
    SlabOk g (slabFree base s (base + i * 2 ^ g.chunkShift)) (i :: free) := by
  have hle := g.chunk_le hmax
  have hsize := g.size_lt
  have hpow := Nat.two_pow_pos g.chunkShift
  have hlt := g.numChunks_lt
  have hpos := g.reserved_pos
  have hindex : u32 (u64 (base + i * 2 ^ g.chunkShift + 2 ^ 64 - base)) >>> s.chunkShift = i := by
    have hsub : u32 (u64 (base + i * 2 ^ g.chunkShift + 2 ^ 64 - base)) = i * 2 ^ g.chunkShift := by
      unfold u64 u32
      omega
    rw [hsub, h.chunkShift, Nat.shiftRight_eq_div_pow, Nat.mul_div_cancel _ hpow]
  have hfit : u16 i = i := by
    unfold u16
    omega
  simp only [slabFree, hindex, hfit]
  refine ⟨h.chunkShift, h.numChunks, h.numReserved, h.chain.push hnew (by omega), ?_, ?_⟩
  · have hlen := h.length_le
    simp only [h.numFree, List.length_cons]
    unfold u16
    omega
  · intro j hj
    rcases List.mem_cons.mp hj with rfl | hj
    · exact ⟨hmin, hmax⟩
    · exact h.range j hj

theorem SlabOk.isFull_iff (h : SlabOk g s free) : slabIsFull s = true ↔ free = [] := by
  simp [slabIsFull, h.numFree]

theorem SlabOk.isEmpty_iff (h : SlabOk g s free) :
    slabIsEmpty s = true ↔ free.length + g.numReserved = g.numChunks := by
  simp [slabIsEmpty, h.numFree, h.numReserved, h.numChunks]

end Chunks

end Smor.Alloc
