import Smor.Multiboot.Rules

/-!
# The memory map

The loop of `multiboot_mmap` steps from entry to entry by a size that the tag gives, and compares
the address of an entry with the end of the tag. What it leaves in memory is what
`Smor.multibootMmap` computes from the entries.
-/

namespace Smor.Multiboot

open Smor.Lib

section Mmap

variable {size mmap e : ℕ} {mem : Mem} {post : Except Stop Unit → Mem → Prop}

/-- The entry of a memory map at an address. -/
def mmapEntry (mem : Mem) (e : ℕ) : MmapEntry where
  addr := (entryAddr e).value mem
  len := (entryLen e).value mem
  type := (entryType e).value mem

/-- The element of `mmap` with an index. -/
def mmapElement (mem : Mem) (i : ℕ) : BootInfoMmap where
  addr := (mmapAddr i).value mem
  size := (mmapSize i).value mem
  flags := (mmapFlags i).value mem

/-- The part of `boot_info` that the memory system uses. -/
def bootInfoOf (mem : Mem) : BootInfo where
  kernelEnd := (infoField 16 8).value mem
  kernelTop := (infoField 24 8).value mem
  kernelSlack := (infoField 32 8).value mem
  mmap := (List.range (numMmap.value mem)).map (mmapElement mem)
  mmapTop := mmapTop.value mem

/-- The memory with one more element of `mmap`. -/
def addElement (mem : Mem) (m : BootInfoMmap) : Mem :=
  let n := numMmap.value mem
  (mmapFlags n).put ((mmapSize n).put ((mmapAddr n).put (numMmap.put mem (n + 1)) m.addr) m.size)
    m.flags

theorem addElement_changes (m : BootInfoMmap) (hroom : numMmap.value mem < bootInfoMmapMax) :
    Changes 40 824 mem (addElement mem m) := by
  unfold bootInfoMmapMax at hroom
  unfold addElement mmapFlags mmapSize mmapAddr
  repeat' apply Changes.put
  all_goals first | exact Changes.refl | omega

/-- The boot information with one more element of `mmap`. -/
theorem bootInfoOf_addElement (m : BootInfoMmap) (hroom : numMmap.value mem < bootInfoMmapMax)
    (haddr : m.addr < 256 ^ 8) (hsize : m.size < 256 ^ 8) (hflags : m.flags < 256 ^ 4) :
    numMmap.value (addElement mem m) = numMmap.value mem + 1 ∧
      bootInfoOf (addElement mem m) =
        { bootInfoOf mem with mmap := (bootInfoOf mem).mmap ++ [m] } := by
  have hchanges := addElement_changes m hroom
  unfold bootInfoMmapMax numMmap at hroom
  have hnum : numMmap.value (addElement mem m) = numMmap.value mem + 1 := by
    simp (disch := omega) only [addElement, numMmap, mmapFlags, mmapSize, mmapAddr, value_put_ne,
      value_put_self]
  have hnew : mmapElement (addElement mem m) (numMmap.value mem) = m := by
    simp (disch := omega) only [mmapElement, addElement, numMmap, mmapFlags, mmapSize, mmapAddr,
      value_put_ne, value_put_self]
  have hold : ∀ i ∈ List.range (numMmap.value mem),
      mmapElement (addElement mem m) i = mmapElement mem i := by
    intro i hi
    have hlt := List.mem_range.mp hi
    unfold numMmap at hlt
    simp (disch := omega) only [mmapElement, addElement, numMmap, mmapFlags, mmapSize, mmapAddr,
      value_put_ne]
  have htop : mmapTop.value (addElement mem m) = mmapTop.value mem := by
    simp (disch := omega) only [mmapTop, addElement, numMmap, mmapFlags, mmapSize, mmapAddr,
      value_put_ne]
  refine ⟨hnum, ?_⟩
  rw [bootInfoOf, hnum, htop, List.range_succ, List.map_append, List.map_congr_left hold,
    List.map_singleton, hnew]
  simp (disch := omega) only [hchanges.value_info, bootInfoOf]

/-- The boot information with another `mmap_top`. -/
theorem bootInfoOf_putTop (mem : Mem) {top : ℕ} (htop : top < 256 ^ 8)
    (hnum : numMmap.value mem ≤ bootInfoMmapMax) :
    numMmap.value (mmapTop.put mem top) = numMmap.value mem ∧
      bootInfoOf (mmapTop.put mem top) = { bootInfoOf mem with mmapTop := top } := by
  have hnum' : numMmap.value (mmapTop.put mem top) = numMmap.value mem :=
    value_put_ne (by omega) (by omega) (by omega)
  have hold : ∀ i ∈ List.range (numMmap.value mem),
      mmapElement (mmapTop.put mem top) i = mmapElement mem i := by
    intro i hi
    have hlt := List.mem_range.mp hi
    unfold bootInfoMmapMax at hnum
    simp (disch := omega) only [mmapElement, mmapTop, mmapFlags, mmapSize, mmapAddr, value_put_ne]
  refine ⟨hnum', ?_⟩
  rw [bootInfoOf, hnum', List.map_congr_left hold]
  simp (disch := omega) only [mmapTop, value_put_ne, value_put_self, bootInfoOf]

/-- An entry that does not fit any more. -/
theorem multibootMmapEntry_full (hfull : ¬ numMmap.value mem < bootInfoMmapMax) :
    Inside size (multibootMmapEntry e) mem post ↔ post (.error .panic) mem := by
  rw [multibootMmapEntry, inside_loadInfo, if_neg hfull, inside_stop]

/-- The memory with the entry recorded. -/
def addEntry (mem : Mem) (e : ℕ) : Mem :=
  if (entryType e).value mem = multibootMemoryAvailable then
    let mem' := addElement mem ⟨(entryAddr e).value mem, (entryLen e).value mem, 1⟩
    if mmapTop.value mem' < u64 ((entryAddr e).value mem + (entryLen e).value mem) then
      mmapTop.put mem' (u64 ((entryAddr e).value mem + (entryLen e).value mem))
    else mem'
  else addElement mem ⟨(entryAddr e).value mem, (entryLen e).value mem, 0⟩

/-- The body of the loop, where there is room. -/
theorem multibootMmapEntry_spec (hroom : numMmap.value mem < bootInfoMmapMax)
    (he : Within size e 20) :
    Inside size (multibootMmapEntry e) mem fun r mem' => r = .ok () ∧ mem' = addEntry mem e := by
  have haddr : Within size (e + 0) 8 := he.sub 0 (by omega)
  have hlen : Within size (e + 8) 8 := he.sub 8 (by omega)
  have htype : Within size (e + 16) 4 := he.sub 16 (by omega)
  have hmax := hroom
  unfold bootInfoMmapMax numMmap at hmax
  have hmem : ∀ flags, (infoField (56 + 24 * (infoField 808 4).value mem) 4).put
      ((infoField (48 + 24 * (infoField 808 4).value mem) 8).put
        ((infoField (40 + 24 * (infoField 808 4).value mem) 8).put
          ((infoField 808 4).put mem ((infoField 808 4).value mem + 1))
            ((tagField e 0 8).value mem)) ((tagField e 8 8).value mem)) flags =
      addElement mem ⟨(tagField e 0 8).value mem, (tagField e 8 8).value mem, flags⟩ :=
    fun _ => rfl
  have hsame : ∀ m o w, Within size (e + o) w →
      (tagField e o w).value (addElement mem m) = (tagField e o w).value mem :=
    fun m o w => ((addElement_changes m hroom).same (by omega)).value
  rw [multibootMmapEntry, inside_loadInfo, if_pos hroom]
  simp (disch := first | omega | assumption) only [inside_loadInfo, numMmap, inside_storeInfo,
    inside_load, mmapAddr, mmapSize, entryAddr, entryLen, entryType, value_put_tag, u32_of_lt]
  refine ⟨haddr, hlen, htype, ?_⟩
  unfold addEntry entryAddr entryLen entryType mmapTop
  by_cases havailable : (tagField e 16 4).value mem = multibootMemoryAvailable
  · simp (disch := first | omega | assumption) only [if_pos havailable, mmapFlags,
      inside_storeInfo, hmem, inside_load, hsame, inside_loadInfo]
    refine ⟨haddr, hlen, ?_⟩
    split_ifs with hnew
    · simp (disch := first | omega | assumption) only [inside_load, hsame, inside_storeInfoLast]
      exact ⟨haddr, hlen, trivial, trivial⟩
    · exact ⟨rfl, rfl⟩
  · simp (disch := omega) only [if_neg havailable, mmapFlags, inside_storeInfoLast, hmem]
    trivial

/-- An entry is recorded as `Smor.multibootMmap` does. -/
theorem bootInfoOf_addEntry (hroom : numMmap.value mem < bootInfoMmapMax) :
    Changes 40 824 mem (addEntry mem e) ∧
      numMmap.value (addEntry mem e) = numMmap.value mem + 1 ∧
      bootInfoOf (addEntry mem e) = (bootInfoOf mem).addMmap (mmapEntry mem e) := by
  have haddr := tagField_lt e 0 8 mem
  have hlen := tagField_lt e 8 8 mem
  have hmax := hroom
  unfold bootInfoMmapMax at hmax
  unfold addEntry BootInfo.addMmap
  by_cases havailable : (entryType e).value mem = multibootMemoryAvailable
  · have hchanges := addElement_changes ⟨(entryAddr e).value mem, (entryLen e).value mem, 1⟩ hroom
    obtain ⟨hnum, hinfo⟩ := bootInfoOf_addElement
      ⟨(entryAddr e).value mem, (entryLen e).value mem, 1⟩ hroom haddr hlen (by simp)
    have htop := congrArg BootInfo.mmapTop hinfo
    dsimp only [bootInfoOf] at htop
    rw [if_pos havailable, if_pos (show (mmapEntry mem e).type = _ from havailable)]
    dsimp only
    rw [htop]
    by_cases hnew : mmapTop.value mem < u64 ((entryAddr e).value mem + (entryLen e).value mem)
    · obtain ⟨hnum', hinfo'⟩ := bootInfoOf_putTop
        (addElement mem ⟨(entryAddr e).value mem, (entryLen e).value mem, 1⟩)
        (u64_lt ((entryAddr e).value mem + (entryLen e).value mem))
        (by rw [hnum]; unfold bootInfoMmapMax; omega)
      have hnewer : (bootInfoOf mem).mmapTop <
          u64 ((mmapEntry mem e).addr + (mmapEntry mem e).len) := hnew
      rw [if_pos hnew, if_pos hnewer, hnum', hinfo', hinfo]
      exact ⟨hchanges.put (by omega) (by omega) (by omega), hnum, rfl⟩
    · have holder : ¬ (bootInfoOf mem).mmapTop <
          u64 ((mmapEntry mem e).addr + (mmapEntry mem e).len) := hnew
      rw [if_neg hnew, if_neg holder, hinfo]
      exact ⟨hchanges, hnum, rfl⟩
  · obtain ⟨hnum, hinfo⟩ := bootInfoOf_addElement
      ⟨(entryAddr e).value mem, (entryLen e).value mem, 0⟩ hroom haddr hlen (by simp)
    rw [if_neg havailable, if_neg (show ¬ (mmapEntry mem e).type = _ from havailable)]
    exact ⟨addElement_changes _ hroom, hnum, hinfo⟩

section Entries

variable (size : ℕ) (mem : Mem) (mmap : ℕ)

/-- The address of an entry of a memory map. -/
def entryAt (i : ℕ) : ℕ := u64 (mmap + 16 + i * (mmapEntrySize mmap).value mem)

/-- The end of a memory map, which the entries are compared with. -/
def mmapEnd : ℕ := u64 (mmap + (tagSize mmap).value mem)

/-- The memory map has at least `n` entries. -/
def Reaches (n : ℕ) : Prop := ∀ i < n, entryAt mem mmap i < mmapEnd mem mmap

instance decidableReaches (n : ℕ) : Decidable (Reaches mem mmap n) :=
  inferInstanceAs (Decidable (∀ i < n, _))

/-- What `multiboot_mmap` loads of a memory map is in the block: the size of the entries, if
there is one, and the first 20 bytes of each entry that there is room for. -/
def EntriesFit : Prop :=
  ∀ i < bootInfoMmapMax, Reaches mem mmap (i + 1) →
    Within size (mmap + 8) 4 ∧ Within size (entryAt mem mmap i) 20

/-- The memory map has more entries than there is room for. -/
def Overfull : Prop := Reaches mem mmap (bootInfoMmapMax + 1)

/-- The first entries of a memory map. -/
def entries (n : ℕ) : List MmapEntry :=
  (List.range n).map fun i => mmapEntry mem (entryAt mem mmap i)

end Entries

/-- The step from one entry to the next one. -/
theorem entryAt_succ (i : ℕ) :
    u64 (entryAt mem mmap i + (mmapEntrySize mmap).value mem) = entryAt mem mmap (i + 1) := by
  rw [entryAt, u64_add_u64, entryAt, Nat.add_mul, Nat.one_mul, Nat.add_assoc]

theorem reaches_succ {n : ℕ} :
    Reaches mem mmap (n + 1) ↔ Reaches mem mmap n ∧ entryAt mem mmap n < mmapEnd mem mmap :=
  Nat.forall_lt_succ_right

theorem entries_succ (n : ℕ) :
    entries mem mmap (n + 1) = entries mem mmap n ++ [mmapEntry mem (entryAt mem mmap n)] := by
  rw [entries, List.range_succ, List.map_append]
  rfl

/-- The element of `mmap` for an entry. -/
def recorded (e : MmapEntry) : BootInfoMmap where
  addr := e.addr
  size := e.len
  flags := if e.type = multibootMemoryAvailable then 1 else 0

/-- The ends of the available entries. -/
def availableEnds (es : List MmapEntry) : List ℕ :=
  (es.filter fun e => e.type = multibootMemoryAvailable).map fun e => u64 (e.addr + e.len)

theorem availableEnds_cons (e : MmapEntry) (es : List MmapEntry) :
    availableEnds (e :: es) =
      if e.type = multibootMemoryAvailable then u64 (e.addr + e.len) :: availableEnds es
      else availableEnds es := by
  by_cases havailable : e.type = multibootMemoryAvailable <;> simp [availableEnds, havailable]

/-- The memory map after a list of entries. -/
theorem foldl_addMmap (es : List MmapEntry) (info : BootInfo) :
    (es.foldl BootInfo.addMmap info).mmap = info.mmap ++ es.map recorded ∧
      (es.foldl BootInfo.addMmap info).mmapTop = (availableEnds es).foldl max info.mmapTop := by
  induction es generalizing info with
  | nil => exact ⟨(List.append_nil _).symm, rfl⟩
  | cons e es ih =>
    obtain ⟨hmmap, htop⟩ := ih (info.addMmap e)
    rw [List.foldl_cons, hmmap, htop, availableEnds_cons, List.map_cons, recorded]
    unfold BootInfo.addMmap
    split_ifs with havailable hnew
    · rw [List.append_assoc, List.foldl_cons, max_eq_right (le_of_lt hnew)]
      exact ⟨rfl, rfl⟩
    · rw [List.append_assoc, List.foldl_cons, max_eq_left (not_lt.mp hnew)]
      exact ⟨rfl, rfl⟩
    · rw [List.append_assoc]
      exact ⟨rfl, rfl⟩

/-- An entry in the block stays the same. -/
theorem SameBlock.mmapEntry {mem' : Mem} (h : SameBlock size mem mem') (he : Within size e 20) :
    mmapEntry mem' e = mmapEntry mem e := by
  have haddr : (entryAddr e).value mem' = (entryAddr e).value mem :=
    h.value (he.sub 0 (by omega))
  have hlen : (entryLen e).value mem' = (entryLen e).value mem := h.value (he.sub 8 (by omega))
  have htype : (entryType e).value mem' = (entryType e).value mem :=
    h.value (he.sub 16 (by omega))
  rw [Multiboot.mmapEntry, haddr, hlen, htype]
  rfl

/-- The loop of `multiboot_mmap` from an entry on records the entries as `Smor.multibootMmap`
does. -/
theorem multibootMmapLoop_spec (hsize : Within size (mmap + 4) 4) (hfit : EntriesFit size mem mmap)
    {info : BootInfo} {rounds i : ℕ} {mem' : Mem} (hi : i ≤ bootInfoMmapMax)
    (hreach : Reaches mem mmap i) (hchanges : Changes 40 824 mem mem')
    (hnum : numMmap.value mem' = i)
    (hinfo : bootInfoOf mem' = (entries mem mmap i).foldl BootInfo.addMmap info)
    (hrounds : bootInfoMmapMax - i < rounds) :
    Inside size (multibootMmapLoop mmap rounds (entryAt mem mmap i)) mem' fun r mem'' =>
      Changes 40 824 mem mem'' ∧
        ((Overfull mem mmap ∧ r = .error .panic) ∨
          ∃ n ≤ bootInfoMmapMax, Reaches mem mmap n ∧ ¬ Reaches mem mmap (n + 1) ∧ r = .ok () ∧
            bootInfoOf mem'' = (entries mem mmap n).foldl BootInfo.addMmap info) := by
  induction rounds generalizing i mem' with
  | zero => omega
  | succ rounds ih =>
    rw [multibootMmapLoop, inside_load]
    refine ⟨hsize, ?_⟩
    have hend : (tagSize mmap).value mem' = (tagSize mmap).value mem :=
      (hchanges.same (by omega)).value hsize
    rw [hend]
    split_ifs with hmore
    · have hreach' : Reaches mem mmap (i + 1) := reaches_succ.mpr ⟨hreach, hmore⟩
      by_cases hroom : i < bootInfoMmapMax
      · obtain ⟨hstride, hentry⟩ := hfit i hroom hreach'
        have hroom' : numMmap.value mem' < bootInfoMmapMax := by omega
        obtain ⟨hadded, hnum', hinfo'⟩ :=
          bootInfoOf_addEntry (e := entryAt mem mmap i) hroom'
        have hchanges' := hchanges.trans hadded
        have hentry' : mmapEntry mem' (entryAt mem mmap i) =
            mmapEntry mem (entryAt mem mmap i) := (hchanges.same (by omega)).mmapEntry hentry
        rw [inside_bind_ok (multibootMmapEntry_spec hroom' hentry), inside_load]
        refine ⟨hstride, ?_⟩
        have hwidth : (mmapEntrySize mmap).value (addEntry mem' (entryAt mem mmap i)) =
            (mmapEntrySize mmap).value mem := (hchanges'.same (by omega)).value hstride
        rw [hwidth, entryAt_succ]
        apply ih hroom hreach' hchanges' (by rw [hnum', hnum]) ?_ (by omega)
        rw [hinfo', hinfo, entries_succ, List.foldl_append, hentry']
        rfl
      · obtain rfl : i = bootInfoMmapMax := by omega
        rw [Inside, Accessing.holds_bind]
        exact (multibootMmapEntry_full (by omega)).mpr ⟨hchanges, Or.inl ⟨hreach', rfl⟩⟩
    · exact ⟨hchanges, Or.inr ⟨i, hi, hreach, fun h => hmore (reaches_succ.mp h).2, rfl, hinfo⟩⟩

/-- The memory with an empty `mmap`. -/
def clearMmap (mem : Mem) : Mem := mmapTop.put (numMmap.put mem 0) 0

/-- `multiboot_mmap` starts with an empty `mmap`. -/
theorem clearMmap_spec (mem : Mem) :
    Changes 40 824 mem (clearMmap mem) ∧ numMmap.value (clearMmap mem) = 0 ∧
      bootInfoOf (clearMmap mem) =
        { bootInfoOf mem with
          mmap := []
          mmapTop := 0 } := by
  have hchanges : Changes 40 824 mem (clearMmap mem) := by
    unfold clearMmap mmapTop numMmap
    repeat' apply Changes.put
    all_goals first | exact Changes.refl | omega
  have hnum : numMmap.value (clearMmap mem) = 0 := by
    simp (disch := omega) only [clearMmap, mmapTop, numMmap, value_put_ne, value_put_self]
  have htop : mmapTop.value (clearMmap mem) = 0 := by
    simp (disch := omega) only [clearMmap, mmapTop, numMmap, value_put_self]
  refine ⟨hchanges, hnum, ?_⟩
  rw [bootInfoOf, hnum, htop]
  simp (disch := omega) only [hchanges.value_info, bootInfoOf, List.range_zero, List.map_nil]

/-- `multiboot_mmap` is its loop, from an empty `mmap` on. -/
theorem inside_multibootMmap {rounds : ℕ} :
    Inside size (multibootMmap rounds mmap) mem post ↔
      Inside size (multibootMmapLoop mmap rounds (entryAt mem mmap 0)) (clearMmap mem) post := by
  rw [entryAt, Nat.zero_mul]
  simp (disch := omega) only [multibootMmap, numMmap, mmapTop, inside_storeInfo, clearMmap,
    Nat.add_zero]

/-- `multiboot_mmap` fills `boot_info` as `Smor.multibootMmap` does, or panics. -/
theorem multibootMmap_spec (hsize : Within size (mmap + 4) 4) (hfit : EntriesFit size mem mmap)
    {rounds : ℕ} (hrounds : bootInfoMmapMax < rounds) :
    Inside size (multibootMmap rounds mmap) mem fun r mem' =>
      Changes 40 824 mem mem' ∧
        ((Overfull mem mmap ∧ r = .error .panic) ∨
          ∃ n ≤ bootInfoMmapMax, Reaches mem mmap n ∧ ¬ Reaches mem mmap (n + 1) ∧ r = .ok () ∧
            bootInfoOf mem' = (entries mem mmap n).foldl BootInfo.addMmap
              { bootInfoOf mem with
                mmap := []
                mmapTop := 0 }) := by
  obtain ⟨hchanges, hnum, hinfo⟩ := clearMmap_spec mem
  rw [inside_multibootMmap]
  exact multibootMmapLoop_spec hsize hfit (Nat.zero_le _) (fun i hi => absurd hi (by omega))
    hchanges hnum hinfo (by omega)

end Mmap

end Smor.Multiboot
