import Smor.Multiboot.Bounds

/-!
# What `multiboot_init` leaves in `boot_info`

A well formed block is a chain of tags, padded to 8 bytes each, with an end tag; it lies in the
address space, so that no address in it wraps around. `multiboot_init` returns, and `boot_info`
holds what the last tag of each kind says. The end of a region of memory is computed in 64 bits.
-/

namespace Smor.Multiboot

open Smor.Lib

section Format

variable (mem : Mem)

/-- The tag behind a tag: tags are padded to 8 bytes. -/
def followingTag (tag : ℕ) : ℕ := tag + ((tagSize tag).value mem + 7) / 8 * 8

/-- The number of entries of a memory map. -/
def numEntries (tag : ℕ) : ℕ := ((tagSize tag).value mem - 16) / (mmapEntrySize tag).value mem

/-- The entries of a memory map. -/
def tagEntries (tag : ℕ) : List MmapEntry :=
  (List.range (numEntries mem tag)).map fun i =>
    mmapEntry mem (tag + 16 + i * (mmapEntrySize tag).value mem)

/-- A tag other than the end tag, in a block that ends at `stop`. -/
structure WellFormedTag (stop tag : ℕ) : Prop where
  notEnd : (tagType tag).value mem ≠ tagTypeEnd
  size : 8 ≤ (tagSize tag).value mem
  inside : tag + (tagSize tag).value mem ≤ stop
  cmdline : (tagType tag).value mem = tagTypeCmdline →
    ∃ len < cmdLineRoom, 8 + (len + 1) ≤ (tagSize tag).value mem ∧ IsString mem (tag + 8) len
  meminfo : (tagType tag).value mem = tagTypeBasicMeminfo → 16 ≤ (tagSize tag).value mem
  framebuffer : (tagType tag).value mem = tagTypeFramebuffer → 30 ≤ (tagSize tag).value mem
  mmap : (tagType tag).value mem = tagTypeMmap →
    16 ≤ (tagSize tag).value mem ∧ 24 ≤ (mmapEntrySize tag).value mem ∧
      (mmapEntrySize tag).value mem ∣ (tagSize tag).value mem - 16 ∧
      numEntries mem tag ≤ bootInfoMmapMax

/-- A well formed block of a size with some tags in front of the end tag. -/
structure WellFormed (size : ℕ) (tags : List ℕ) (last : ℕ) : Prop where
  space : blockStart + size ≤ 2 ^ 64
  chain : Segment (followingTag mem) (blockStart + 8) tags last
  tags : ∀ tag ∈ tags, WellFormedTag mem (blockStart + size) tag
  endTag : (tagType last).value mem = tagTypeEnd ∧ last + 8 ≤ blockStart + size

/-- `boot_info` holds what the last tag of each kind says, where `endOf` is the end of a region
of memory. -/
structure Filled (endOf : MmapEntry → ℕ) (tags : List ℕ) (mem' : Mem) : Prop where
  cmdline : ∀ tag ∈ (tagsOf mem tagTypeCmdline tags).getLast?, ∀ len,
    IsString mem (tag + 8) len → ∀ i ≤ len, mem' (cmdLine + i) = mem (tag + 8 + i)
  framebuffer : ∀ tag ∈ (tagsOf mem tagTypeFramebuffer tags).getLast?,
    framebufferFields mem' = framebufferTag mem tag
  meminfo : ∀ tag ∈ (tagsOf mem tagTypeBasicMeminfo tags).getLast?,
    memorySize.value mem' =
      ((tagField tag 8 4).value mem + (tagField tag 12 4).value mem) * 1024
  mmap : ∀ tag ∈ (tagsOf mem tagTypeMmap tags).getLast?,
    (bootInfoOf mem').mmap = (tagEntries mem tag).map recorded
  mmapTop : ∀ tag ∈ (tagsOf mem tagTypeMmap tags).getLast?,
    mmapTop.value mem' =
      (((tagEntries mem tag).filter fun e => e.type = multibootMemoryAvailable).map endOf).foldl
        max 0

end Format

section WellFormed

variable {mem mem' : Mem} {size tag last n : ℕ} {tags : List ℕ}

/-- Bytes in the block. -/
theorem within_of_le {a : ℕ} (hstart : blockStart ≤ a) (hend : a + n ≤ blockStart + size)
    (hspace : blockStart + size ≤ 2 ^ 64) : Within size a n := by
  intro i hi
  rw [u64_of_lt (by omega)]
  exact ⟨by omega, by omega⟩

section Map

variable (h : WellFormedTag mem (blockStart + size) tag) (hspace : blockStart + size ≤ 2 ^ 64)
  (hmmap : (tagType tag).value mem = tagTypeMmap)

include h hmmap

/-- The entries fill the memory map. -/
theorem WellFormedTag.mmap_size :
    16 + numEntries mem tag * (mmapEntrySize tag).value mem = (tagSize tag).value mem := by
  obtain ⟨hsize, -, hdvd, -⟩ := h.mmap hmmap
  have hfill := Nat.div_mul_cancel hdvd
  rw [numEntries]
  omega

include hspace

/-- The addresses of the entries do not wrap around. -/
theorem WellFormedTag.entryAt_eq {i : ℕ} (hi : i < numEntries mem tag) :
    entryAt mem tag i = tag + 16 + i * (mmapEntrySize tag).value mem ∧
      entryAt mem tag i + 24 ≤ tag + (tagSize tag).value mem := by
  obtain ⟨-, hwidth, -, -⟩ := h.mmap hmmap
  have hfill := h.mmap_size hmmap
  have hinside := h.inside
  have hle : (i + 1) * (mmapEntrySize tag).value mem ≤
      numEntries mem tag * (mmapEntrySize tag).value mem := Nat.mul_le_mul_right _ hi
  rw [Nat.add_mul] at hle
  have haddr : entryAt mem tag i = tag + 16 + i * (mmapEntrySize tag).value mem :=
    u64_of_lt (by omega)
  rw [haddr]
  exact ⟨rfl, by omega⟩

/-- The loop reaches all entries of a well formed memory map, and no more. -/
theorem WellFormedTag.reaches_iff (hlt : tag + (tagSize tag).value mem < 2 ^ 64) :
    Reaches mem tag n ↔ n ≤ numEntries mem tag := by
  have hend : mmapEnd mem tag = tag + (tagSize tag).value mem := u64_of_lt hlt
  constructor
  · intro hreach
    by_contra hgt
    have hfill := h.mmap_size hmmap
    have hbelow := hreach (numEntries mem tag) (by omega)
    rw [hend, entryAt, u64_of_lt (by omega)] at hbelow
    omega
  · intro hle i hi
    have hentry := (h.entryAt_eq hspace hmmap (i := i) (by omega)).2
    rw [hend]
    omega

end Map

/-- What the handler of a well formed tag loads is in the block. -/
theorem WellFormedTag.contentFits (h : WellFormedTag mem (blockStart + size) tag)
    (hstart : blockStart ≤ tag) (hspace : blockStart + size ≤ 2 ^ 64)
    (hlt : tag + (tagSize tag).value mem < 2 ^ 64) : ContentFits size mem tag := by
  have hinside := h.inside
  constructor
  · intro htype
    obtain ⟨len, hlen, hsize, hstr⟩ := h.cmdline htype
    exact ⟨len, hlen, within_of_le (by omega) (by omega) hspace, hstr⟩
  · intro htype
    have hsize := h.meminfo htype
    exact within_of_le (by omega) (by omega) hspace
  · intro htype
    have hsize := h.framebuffer htype
    exact within_of_le (by omega) (by omega) hspace
  · intro htype i hi hreach
    obtain ⟨hsize, -⟩ := h.mmap htype
    obtain ⟨haddr, hend⟩ :=
      h.entryAt_eq hspace htype ((h.reaches_iff hspace htype hlt).mp hreach)
    exact ⟨within_of_le (by omega) (by omega) hspace, within_of_le (by omega) (by omega) hspace⟩

/-- A well formed memory map has room. -/
theorem WellFormedTag.room (h : WellFormedTag mem (blockStart + size) tag)
    (hspace : blockStart + size ≤ 2 ^ 64) (hlt : tag + (tagSize tag).value mem < 2 ^ 64) :
    ¬ Panics mem tag := by
  rintro ⟨htype, hfull⟩
  have hmax := (h.mmap htype).2.2.2
  have hmore := (h.reaches_iff hspace htype hlt).mp hfull
  omega

/-- The tags of a well formed block are those of the walk, and the walk passes them. -/
theorem WellFormed.passes (hspace : blockStart + size ≤ 2 ^ 64)
    (hseg : Segment (followingTag mem) tag tags last)
    (htags : ∀ t ∈ tags, WellFormedTag mem (blockStart + size) t)
    (hlast : last + 8 ≤ blockStart + size) (hstart : blockStart ≤ tag) :
    Segment (nextTag mem) tag tags last ∧ (∀ t ∈ tags, Passes size mem t ∧ blockStart ≤ t ∧
        t + (tagSize t).value mem < 2 ^ 64) ∧
      blockStart ≤ last ∧ tag + 8 ≤ blockStart + size := by
  induction hseg with
  | nil a => exact ⟨.nil a, fun t ht => absurd ht List.not_mem_nil, hstart, hlast⟩
  | @cons a b nodes rest ih =>
    have hfirst := htags a List.mem_cons_self
    have hnext : blockStart ≤ followingTag mem a := le_trans hstart (Nat.le_add_right _ _)
    obtain ⟨hseg, hpass, hlast', hfollow⟩ :=
      ih (fun t ht => htags t (List.mem_cons_of_mem a ht)) hlast hnext
    have hinside := hfirst.inside
    have hsize := hfirst.size
    have hbase := kernelBootInfo_eq
    have hblock := blockStart_eq
    unfold followingTag at hfollow
    -- The rounded size fits 32 bits, because the block starts in the upper half of memory.
    have heq : nextTag mem a = followingTag mem a := by
      rw [nextTag, roundedSize, u32_of_lt (by omega), u64_of_lt (by omega)]
      rfl
    have hlt : a + (tagSize a).value mem < 2 ^ 64 := by omega
    refine ⟨.cons (heq ▸ hseg), List.forall_mem_cons.mpr ⟨⟨?_, hstart, hlt⟩, hpass⟩, hlast',
      by omega⟩
    exact
      { notEnd := hfirst.notEnd
        header := within_of_le hstart (by omega) hspace
        content := hfirst.contentFits hstart hspace hlt
        room := hfirst.room hspace hlt }

/-- The entries of a well formed memory map are those that the loop finds. -/
theorem WellFormedTag.entries_eq (h : WellFormedTag mem (blockStart + size) tag)
    (hspace : blockStart + size ≤ 2 ^ 64) (hlt : tag + (tagSize tag).value mem < 2 ^ 64)
    (htype : (tagType tag).value mem = tagTypeMmap) (hreach : Reaches mem tag n)
    (hend : ¬ Reaches mem tag (n + 1)) : entries mem tag n = tagEntries mem tag := by
  rw [h.reaches_iff hspace htype hlt] at hreach hend
  obtain rfl : n = numEntries mem tag := by omega
  apply List.map_congr_left
  intro i hi
  rw [(h.entryAt_eq hspace htype (List.mem_range.mp hi)).1]

theorem mem_of_last {type : ℕ} (h : tag ∈ (tagsOf mem type tags).getLast?) :
    tag ∈ tags ∧ (tagType tag).value mem = type := by
  obtain ⟨hmem, htype⟩ := List.mem_filter.mp (List.mem_of_getLast? h)
  exact ⟨hmem, of_decide_eq_true htype⟩

/-- What the walk leaves, in terms of the format. -/
theorem filled_of_leaves (hspace : blockStart + size ≤ 2 ^ 64)
    (htags : ∀ t ∈ tags, WellFormedTag mem (blockStart + size) t)
    (hpass : ∀ t ∈ tags, Passes size mem t ∧ blockStart ≤ t ∧
      t + (tagSize t).value mem < 2 ^ 64)
    (hleaves : Leaves mem tags mem') :
    Filled mem (fun e => u64 (e.addr + e.len)) tags mem' := by
  have hmap : ∀ tag ∈ (tagsOf mem tagTypeMmap tags).getLast?,
      (bootInfoOf mem').mmap = (tagEntries mem tag).map recorded ∧
        (bootInfoOf mem').mmapTop = (availableEnds (tagEntries mem tag)).foldl max 0 := by
    intro tag htag
    obtain ⟨hmem, htype⟩ := mem_of_last htag
    obtain ⟨n, -, hreach, hend, hmmap, htop⟩ := (hleaves _ tag htag).mmap htype
    rw [(htags tag hmem).entries_eq hspace (hpass tag hmem).2.2 htype hreach hend] at hmmap htop
    exact ⟨hmmap, htop⟩
  constructor
  · intro tag htag len hstr i hi
    obtain ⟨hmem, htype⟩ := mem_of_last htag
    obtain ⟨len', -, hstr', hcopied⟩ := (hleaves _ tag htag).cmdline htype
    obtain rfl := hstr.unique hstr'
    obtain ⟨len', -, hsize, hstr'⟩ := (htags tag hmem).cmdline htype
    obtain rfl := hstr.unique hstr'
    have hlt := (hpass tag hmem).2.2
    rw [hcopied i hi, u64_of_lt (by omega)]
  · exact fun tag htag => (hleaves _ tag htag).framebuffer (mem_of_last htag).2
  · exact fun tag htag => (hleaves _ tag htag).meminfo (mem_of_last htag).2
  · exact fun tag htag => (hmap tag htag).1
  · exact fun tag htag => (hmap tag htag).2

/-- `multiboot_init` returns after a walk to the end tag. -/
theorem multibootInit_returns (hmagic : mbMagic.value mem = multiboot2BootloaderMagic)
    (haddr : mbAddr.value mem = mb2Info)
    (hseg : Segment (nextTag mem) (blockStart + 8) tags last)
    (hpass : ∀ t ∈ tags, Passes size mem t) (hlast : Within size last 4)
    (hend : (tagType last).value mem = tagTypeEnd) :
    ∃ enough, ∀ rounds ≥ enough, ∃ mem',
      (multibootInit rounds).run mem = (.ok true, mem') ∧ Leaves mem tags mem' := by
  refine ⟨max cmdLineRoom (tags.length + 1), fun rounds hrounds => ?_⟩
  obtain ⟨hroom, hfuel⟩ := Nat.max_le.mp hrounds
  have hnone : Leaves mem [] mem := fun type t ht => by simp [tagsOf] at ht
  have hwalk := multibootLoop_spec hseg hpass (.last hlast hend) hroom Changes.refl hnone hfuel
  have hinit : Inside size (multibootInit rounds) mem fun r mem' =>
      r = .ok true ∧ Leaves mem tags mem' := by
    rw [inside_multibootInit hmagic haddr]
    apply hwalk.mono
    rintro r mem' ⟨-, ⟨⟨htype, -⟩, -⟩ | ⟨-, rfl, hleaves⟩⟩
    · exact absurd (hend.symm.trans htype) (by decide)
    · exact ⟨rfl, hleaves⟩
  obtain ⟨-, -, hresult, hleaves⟩ := Accessing.holds_iff.mp hinit
  exact ⟨_, Prod.ext hresult rfl, hleaves⟩

end WellFormed

/-- On a well formed block `multiboot_init` returns true, with enough rounds, and leaves in
`boot_info` what the last tag of each kind says, whatever the order of the tags and whatever
other tags there are. The end of a region of memory is taken modulo 2^64. -/
theorem multibootInit_fills (mem : Mem) (tags : List ℕ) (last : ℕ)
    (hmagic : mbMagic.value mem = multiboot2BootloaderMagic) (haddr : mbAddr.value mem = mb2Info)
    (hwf : WellFormed mem (mbSize.value mem) tags last) :
    ∃ enough, ∀ rounds ≥ enough, ∃ mem',
      (multibootInit rounds).run mem = (.ok true, mem') ∧
        Filled mem (fun e => u64 (e.addr + e.len)) tags mem' := by
  obtain ⟨hend, hlast⟩ := hwf.endTag
  obtain ⟨hseg, hpass, hstart, -⟩ := WellFormed.passes hwf.space hwf.chain hwf.tags hlast
    (Nat.le_add_right blockStart 8)
  have hheader : Within (mbSize.value mem) last 4 := within_of_le hstart (by omega) hwf.space
  obtain ⟨enough, hrun⟩ :=
    multibootInit_returns hmagic haddr hseg (fun t ht => (hpass t ht).1) hheader hend
  refine ⟨enough, fun rounds hrounds => ?_⟩
  obtain ⟨mem', hresult, hleaves⟩ := hrun rounds hrounds
  exact ⟨mem', hresult, filled_of_leaves hwf.space hwf.tags hpass hleaves⟩

theorem oneRegion_wellFormed {b : Byte} (hb : b = 0 ∨ b = 0xFF) :
    WellFormed (bootMemory (oneRegion b)) (mbSize.value (bootMemory (oneRegion b)))
      [blockStart + 8, blockStart + 24] (blockStart + 64) := by
  have hnext₁ : followingTag (bootMemory (oneRegion b)) (blockStart + 8) = blockStart + 24 := by
    rcases hb with rfl | rfl <;> decide +kernel
  have hnext₂ : followingTag (bootMemory (oneRegion b)) (blockStart + 24) = blockStart + 64 := by
    rcases hb with rfl | rfl <;> decide +kernel
  constructor
  · rcases hb with rfl | rfl <;> decide +kernel
  · refine segment_cons_iff.mpr ⟨rfl, ?_⟩
    rw [hnext₁]
    refine segment_cons_iff.mpr ⟨rfl, ?_⟩
    rw [hnext₂]
    exact .nil _
  · intro tag htag
    rcases List.mem_cons.mp htag with rfl | htag
    · constructor
      case cmdline => exact fun _ => ⟨2, by rcases hb with rfl | rfl <;> decide +kernel⟩
      all_goals rcases hb with rfl | rfl <;> decide +kernel
    · obtain rfl := List.mem_singleton.mp htag
      constructor
      case cmdline =>
        intro htype
        exact absurd htype (by rcases hb with rfl | rfl <;> decide +kernel)
      all_goals rcases hb with rfl | rfl <;> decide +kernel
  · rcases hb with rfl | rfl <;> decide +kernel

/-- A block with a command line and one region. -/
theorem multibootInit_fills_region :
    ∃ enough, ∀ rounds ≥ enough, ∃ mem',
      (multibootInit rounds).run (bootMemory (oneRegion 0)) = (.ok true, mem') ∧
        Filled (bootMemory (oneRegion 0)) (fun e => u64 (e.addr + e.len))
          [blockStart + 8, blockStart + 24] mem' :=
  multibootInit_fills (bootMemory (oneRegion 0)) [blockStart + 8, blockStart + 24]
    (blockStart + 64) (by decide +kernel) (by decide +kernel) (oneRegion_wellFormed (Or.inl rfl))

/-- The end of a region up to the last address does not fit `mmap_top`. -/
theorem multibootInit_topWraps :
    WellFormed (bootMemory (oneRegion 0xFF)) (mbSize.value (bootMemory (oneRegion 0xFF)))
        [blockStart + 8, blockStart + 24] (blockStart + 64) ∧
      ¬ ∃ enough, ∀ rounds ≥ enough, ∃ mem',
        (multibootInit rounds).run (bootMemory (oneRegion 0xFF)) = (.ok true, mem') ∧
          Filled (bootMemory (oneRegion 0xFF)) (fun e => e.addr + e.len)
            [blockStart + 8, blockStart + 24] mem' := by
  refine ⟨oneRegion_wellFormed (Or.inr rfl), ?_⟩
  rintro ⟨enough, hrun⟩
  obtain ⟨mem', -, hfilled⟩ := hrun enough (le_refl enough)
  have htop := hfilled.mmapTop (blockStart + 24) (by decide +kernel)
  have hmax := mmapTop.value_lt mem'
  rw [htop] at hmax
  exact absurd hmax (by decide +kernel)

end Smor.Multiboot
