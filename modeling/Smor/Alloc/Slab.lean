import Smor.Kernel
import Smor.Lib.Cells

/-!
# The slab allocator

A slab is a piece of memory that starts with a `struct slab_t` and is cut into chunks; the free
chunks form a chain of indices. A slab list keeps the slabs with a free chunk on `free_slabs`
and the others on `used_slabs`. When it needs a new slab it takes a chunk from its owner,
another slab list. The links between slabs are kept apart from the rest of their headers.
-/

namespace Smor.Alloc

open Smor.Lib Smor.Vm

/-- `struct slab_t` without its links. -/
structure Slab where
  chunkShift : ℕ
  numChunks : ℕ
  numFree : ℕ
  numReserved : ℕ
  /-- `SLAB_RESERVED` in `flags`. -/
  reserved : Bool
  freeList : ℕ
  chunkList : ℕ → ℕ

/-- `sizeof(struct slab_t)`. -/
def sizeofSlab : ℕ := 32

/-- `__builtin_clz`, which leaves the result for 0 open. -/
def clz (x : ℕ) : ℕ := if x = 0 then 32 else 31 - Nat.log2 x

/-- `ceil_pow2`. -/
def ceilPow2 (x : ℕ) : ℕ := 32 - clz (u32Pred x)

/-- `num_chunks` of `slab_init`. -/
def slabNumChunks (size chunkSize : ℕ) : ℕ := size >>> ceilPow2 chunkSize

/-- `num_reserved` of `slab_init`: the chunks that hold the header. -/
def slabNumReserved (size chunkSize : ℕ) : ℕ :=
  let chunkSizePow2 := u32 (1 <<< ceilPow2 chunkSize)
  let cacheSize := u32 (sizeofSlab + slabNumChunks size chunkSize * 2)
  (u32 (cacheSize + (chunkSizePow2 - 1)) / chunkSizePow2 * chunkSizePow2) >>> ceilPow2 chunkSize

/-- `chunk_list` after the loops of `slab_init`. -/
def initChunkList (chunkList : ℕ → ℕ) (numChunks numReserved : ℕ) : ℕ → ℕ :=
  let chunkList := (List.range numReserved).foldl (fun list i => Function.update list i 0) chunkList
  let chunkList := (List.range' numReserved (u32Pred numChunks - numReserved)).foldl
    (fun list i => Function.update list i (u16 (i + 1))) chunkList
  Function.update chunkList (max numReserved (u32Pred numChunks)) 0

/-- `slab_init` on memory that holds `old`. -/
def slabInit (old : Slab) (size chunkSize : ℕ) : Slab :=
  let numChunks := slabNumChunks size chunkSize
  let numReserved := slabNumReserved size chunkSize
  { chunkShift := u16 (ceilPow2 chunkSize)
    numChunks := u16 numChunks
    numFree := u16 (numChunks + 2 ^ 32 - numReserved)
    numReserved := u16 numReserved
    reserved := false
    freeList := u16 numReserved
    chunkList := initChunkList old.chunkList numChunks numReserved }

/-- `slab_alloc` on the slab at `base`: the address, or 0. -/
def slabAlloc (base : ℕ) (s : Slab) : ℕ × Slab :=
  if s.freeList = 0 then (0, s)
  else
    (u64 (base + u32 (s.freeList <<< s.chunkShift)),
      { s with
        freeList := s.chunkList s.freeList
        numFree := u16 (s.numFree + 2 ^ 16 - 1) })

/-- `slab_free` on the slab at `base`. -/
def slabFree (base : ℕ) (s : Slab) (addr : ℕ) : Slab :=
  let index := u32 (u64 (addr + 2 ^ 64 - base)) >>> s.chunkShift
  { s with
    chunkList := Function.update s.chunkList index s.freeList
    freeList := u16 index
    numFree := u16 (s.numFree + 1) }

/-- `slab_is_empty`. -/
def slabIsEmpty (s : Slab) : Bool := s.numFree + s.numReserved = s.numChunks

/-- `slab_is_full`. -/
def slabIsFull (s : Slab) : Bool := s.numFree = 0

/-- The fields of `struct slab_list_t` other than its two lists. Slab lists are numbered. -/
structure SlabList where
  /-- `sl_owner`. -/
  owner : Option ℕ
  sizeShift : ℕ
  chunkShift : ℕ

/-- The addresses of `free_slabs` and `used_slabs` of a slab list. -/
inductive SlabHead
  | free (l : ℕ)
  | used (l : ℕ)
  deriving DecidableEq

/-- All slabs, by their addresses, and all slab lists. -/
structure Slabs where
  links : Links SlabHead ℕ
  slab : ℕ → Slab
  list : ℕ → SlabList

/-- `sys_alloc_page`. -/
def sysAllocPage : ℕ := 0

namespace Slabs

/-- A slab moves to another list: `slab_list_remove` and `slab_list_insert`. -/
def move (st : Slabs) (s : ℕ) (h : SlabHead) : Slabs :=
  { st with links := (st.links.remove 0 s).insert 0 h s }

/-- A change of the header of a slab. -/
def setSlab (st : Slabs) (s : ℕ) (slab : Slab) : Slabs :=
  { st with slab := Function.update st.slab s slab }

/-- A new slab on `free_slabs`. The links that `slab_init` clears are set by the insertion. -/
def newSlab (st : Slabs) (l p : ℕ) (reserved : Bool) : Slabs :=
  let sl := st.list l
  { st with
    slab := Function.update st.slab p
      { slabInit (st.slab p) (u32 (1 <<< sl.sizeShift)) (u32 (1 <<< sl.chunkShift)) with
        reserved := reserved }
    links := st.links.insert 0 (.free l) p }

/-- `slab_list_init`: `none` if the owner's chunks have another size. -/
def slabListInit (st : Slabs) (l : ℕ) (owner : Option ℕ) (size chunkSize : ℕ) : Option Slabs :=
  let sizeShift := ceilPow2 size
  if ∃ o ∈ owner, (st.list o).chunkShift ≠ sizeShift then none
  else some
    { st with
      list := Function.update st.list l ⟨owner, sizeShift, ceilPow2 chunkSize⟩
      links := { st.links with
        cell := Function.update (Function.update st.links.cell (.head (.free l)) 0)
          (.head (.used l)) 0 } }

/-- The end of `slab_list_alloc`: a chunk of the new slab, if there is memory for it. -/
def allocNew (l : ℕ) (r : ℕ × Slabs) : ℕ × Slabs :=
  if r.1 ≠ 0 then
    let st := r.2.newSlab l r.1 false
    let s := slabAlloc r.1 (st.slab r.1)
    (s.1, st.setSlab r.1 s.2)
  else (0, r.2)

/-- `slab_list_alloc`: the address, or 0. The depth bounds the chain of owners. -/
def slabListAlloc : ℕ → Slabs → ℕ → Option (ℕ × Slabs)
  | 0, _, _ => none
  | depth + 1, st, l =>
    let s := st.links.cell (.head (.free l))
    if s ≠ 0 then
      let r := slabAlloc s (st.slab s)
      let st := st.setSlab s r.2
      some (r.1, if slabIsFull r.2 then st.move s (.used l) else st)
    else
      (match (st.list l).owner with
      | some owner => slabListAlloc depth st owner
      | none => some (sysAllocPage, st)).map (allocNew l)

/-- `slab_list_free`. -/
def slabListFree : ℕ → Slabs → ℕ → ℕ → Option Slabs
  | 0, _, _, _ => none
  | depth + 1, st, l, addr =>
    let s := addr / 2 ^ (st.list l).sizeShift * 2 ^ (st.list l).sizeShift
    let slab := slabFree s (st.slab s) addr
    let wasFull := slabIsFull (st.slab s)
    let st := st.setSlab s slab
    if wasFull then some (st.move s (.free l))
    else if slabIsEmpty slab && !slab.reserved then
      let st := { st with links := st.links.remove 0 s }
      match (st.list l).owner with
      | some owner => slabListFree depth st owner s
      | none => some st
    else some st

/-- `slab_list_reserve_on_slack`. -/
def slabListReserveOnSlack (depth : ℕ) (st : Slabs) (info : BootInfo) (vm : BootVm) (l : ℕ) :
    Option (Bool × Slabs × BootInfo × BootVm) :=
  let size := u32 (1 <<< (st.list l).sizeShift)
  let finish := fun (p : ℕ) (st : Slabs) (info : BootInfo) (vm : BootVm) =>
    if p ≠ 0 then (true, st.newSlab l p true, info, vm) else (false, st, info, vm)
  match (st.list l).owner with
  | some owner => (slabListAlloc depth st owner).map fun (p, st) => finish p st info vm
  | none => (kernelSlackAlloc info vm size size).map fun (p, info, vm) => finish p st info vm

end Slabs

/-- `KMALLOC_CHUNK_SIZE`. -/
def kmallocChunkSize : ℕ := 0x4000

/-- `sl_root`. -/
def slRoot : ℕ := 0

/-- `&sl_table[index]`. -/
def slTable (index : ℕ) : ℕ := index + 1

/-- `kmalloc_init`, whose callers do not look at the results. -/
def kmallocInit (st : Slabs) (info : BootInfo) (vm : BootVm) : Option (Slabs × BootInfo × BootVm) :=
  let st := (st.slabListInit slRoot none page2mSize kmallocChunkSize).getD st
  (Slabs.slabListReserveOnSlack 1 st info vm slRoot).map fun (_, st, info, vm) => (st, info, vm)

/-- `kmalloc_get_slab`: the slab list for elements of a size, set up at its first use. -/
def kmallocGetSlab (st : Slabs) (elemSize : ℕ) : Option (ℕ × Slabs) :=
  let elemShift := ceilPow2 elemSize
  if elemShift < 4 ∨ 9 < elemShift then none
  else
    let l := slTable (elemShift - 4)
    if (st.list l).owner = none then
      some (l, (st.slabListInit l (some slRoot) kmallocChunkSize (u32 (1 <<< elemShift))).getD st)
    else some (l, st)

end Smor.Alloc
