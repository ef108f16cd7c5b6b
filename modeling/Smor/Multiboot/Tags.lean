import Smor.Lib.Chain
import Smor.Multiboot.Handlers
import Smor.Multiboot.Mmap

/-!
# The walk over the tags

What `multiboot_init` does with a tag depends on the bytes of the block only, and these stay as
they are as long as the walk keeps to the block. So the walk is described by the tags of the
block as it was at the start. Each type of tag has its own part of `boot_info`, which holds what
the last tag of the type says.
-/

namespace Smor.Multiboot

open Smor.Lib

section Fits

variable (size : ℕ) (mem : Mem)

/-- The address behind a tag. -/
def nextTag (tag : ℕ) : ℕ := u64 (tag + roundedSize ((tagSize tag).value mem))

/-- What is loaded of the contents of a tag is in the block. -/
structure ContentFits (tag : ℕ) : Prop where
  cmdline : (tagType tag).value mem = tagTypeCmdline → StringFits size mem tag
  meminfo : (tagType tag).value mem = tagTypeBasicMeminfo → Within size (tag + 8) 8
  framebuffer : (tagType tag).value mem = tagTypeFramebuffer → Within size (tag + 8) 22
  mmap : (tagType tag).value mem = tagTypeMmap → EntriesFit size mem tag

/-- A memory map with too many entries, where the `check` fails. -/
def Panics (tag : ℕ) : Prop := (tagType tag).value mem = tagTypeMmap ∧ Overfull mem tag

/-- A tag that the walk passes inside the block. -/
structure Passes (tag : ℕ) : Prop where
  notEnd : (tagType tag).value mem ≠ tagTypeEnd
  header : Within size tag 8
  content : ContentFits size mem tag
  room : ¬ Panics mem tag

/-- A tag where the walk ends inside the block: the end tag, or a memory map with too many
entries. -/
inductive Stops (tag : ℕ) : Prop
  | last (header : Within size tag 4) (h : (tagType tag).value mem = tagTypeEnd)
  | full (header : Within size tag 8) (content : ContentFits size mem tag) (h : Panics mem tag)

end Fits

section Same

variable {size lo hi tag n : ℕ} {mem mem' : Mem}

theorem SameBlock.isString (h : SameBlock size mem mem') {s len : ℕ}
    (hin : Within size s (len + 1)) : IsString mem' s len ↔ IsString mem s len := by
  have hbyte : ∀ i ≤ len, mem' (u64 (s + i)) = mem (u64 (s + i)) :=
    fun i hi => h _ (hin i (by omega))
  unfold IsString
  rw [hbyte len le_rfl]
  exact and_congr_left' (forall₂_congr fun i hi => by rw [hbyte i (le_of_lt hi)])

/-- The entries that a memory map has do not depend on more than the block. -/
theorem SameBlock.reaches (h : SameBlock size mem mem') (hsize : Within size (tag + 4) 4)
    (hfit : EntriesFit size mem tag) : Reaches mem' tag n ↔ Reaches mem tag n := by
  have hend : (tagSize tag).value mem' = (tagSize tag).value mem := h.value hsize
  by_cases hfirst : Reaches mem tag 1
  · have hwidth : (mmapEntrySize tag).value mem' = (mmapEntrySize tag).value mem :=
      h.value (hfit 0 (by decide) hfirst).1
    simp only [Reaches, entryAt, mmapEnd, hend, hwidth]
  · -- The address of the first entry does not depend on the size of the entries.
    have hfirst' : ¬ Reaches mem' tag 1 := by
      intro hreach
      apply hfirst
      intro i hi
      obtain rfl : i = 0 := by omega
      have hlt := hreach 0 (by omega)
      rw [entryAt, mmapEnd, Nat.zero_mul, hend] at hlt
      rw [entryAt, mmapEnd, Nat.zero_mul]
      exact hlt
    rcases Nat.eq_zero_or_pos n with rfl | hpos
    · exact iff_of_true (fun i hi => absurd hi (by omega)) fun i hi => absurd hi (by omega)
    · exact iff_of_false (fun hreach => hfirst' fun i hi => hreach i (by omega))
        fun hreach => hfirst fun i hi => hreach i (by omega)

theorem SameBlock.entriesFit (h : SameBlock size mem mem') (hsize : Within size (tag + 4) 4)
    (hfit : EntriesFit size mem tag) : EntriesFit size mem' tag := by
  intro i hi hreach
  rw [h.reaches hsize hfit] at hreach
  obtain ⟨hwidth, hentry⟩ := hfit i hi hreach
  have hsame : (mmapEntrySize tag).value mem' = (mmapEntrySize tag).value mem := h.value hwidth
  rw [entryAt, hsame]
  exact ⟨hwidth, hentry⟩

theorem SameBlock.contentFits (h : SameBlock size mem mem') (hheader : Within size tag 8)
    (hfit : ContentFits size mem tag) : ContentFits size mem' tag := by
  have htype : (tagType tag).value mem' = (tagType tag).value mem :=
    h.value (hheader.sub 0 (by omega))
  constructor
  · intro hcmdline
    obtain ⟨len, hlen, hin, hstr⟩ := hfit.cmdline (htype ▸ hcmdline)
    exact ⟨len, hlen, hin, (h.isString hin).mpr hstr⟩
  · exact fun hmeminfo => hfit.meminfo (htype ▸ hmeminfo)
  · exact fun hframebuffer => hfit.framebuffer (htype ▸ hframebuffer)
  · exact fun hmmap => h.entriesFit (hheader.sub 4 (by omega)) (hfit.mmap (htype ▸ hmmap))

theorem SameBlock.panics (h : SameBlock size mem mem') (hheader : Within size tag 8)
    (hfit : ContentFits size mem tag) : Panics mem' tag ↔ Panics mem tag := by
  have htype : (tagType tag).value mem' = (tagType tag).value mem :=
    h.value (hheader.sub 0 (by omega))
  unfold Panics
  rw [htype]
  exact and_congr_right fun hmmap => h.reaches (hheader.sub 4 (by omega)) (hfit.mmap hmmap)

theorem SameBlock.nextTag (h : SameBlock size mem mem') (hheader : Within size tag 8) :
    nextTag mem' tag = nextTag mem tag := by
  have hsize : (tagSize tag).value mem' = (tagSize tag).value mem :=
    h.value (hheader.sub 4 (by omega))
  rw [Multiboot.nextTag, hsize]
  rfl

theorem SameBlock.passes (h : SameBlock size mem mem') (hpass : Passes size mem tag) :
    Passes size mem' tag := by
  have htype : (tagType tag).value mem' = (tagType tag).value mem :=
    h.value (hpass.header.sub 0 (by omega))
  exact
    { notEnd := fun hend => hpass.notEnd (htype ▸ hend)
      header := hpass.header
      content := h.contentFits hpass.header hpass.content
      room := fun hfull => hpass.room ((h.panics hpass.header hpass.content).mp hfull) }

theorem SameBlock.stops (h : SameBlock size mem mem') (hstop : Stops size mem tag) :
    Stops size mem' tag := by
  cases hstop with
  | last header hend =>
    have htype : (tagType tag).value mem' = (tagType tag).value mem := h.value header
    exact .last header (htype ▸ hend)
  | full header content hfull =>
    exact .full header (h.contentFits header content) ((h.panics header content).mpr hfull)

end Same

section Records

variable {size lo hi tag : ℕ} {mem mem' mem'' : Mem}

/-- The part of `boot_info` for a type of tag: the offsets of its first byte, and of the first
one behind it. -/
def region (type : ℕ) : ℕ × ℕ :=
  if type = tagTypeCmdline then (860, 4096)
  else if type = tagTypeBasicMeminfo then (824, 832)
  else if type = tagTypeFramebuffer then (832, 860)
  else if type = tagTypeMmap then (40, 824)
  else (40, 40)

/-- `boot_info` holds what a tag says, in the part for its type. -/
structure Records (mem : Mem) (tag : ℕ) (mem' : Mem) : Prop where
  cmdline : (tagType tag).value mem = tagTypeCmdline →
    ∃ len < cmdLineRoom, IsString mem (tag + 8) len ∧
      ∀ j ≤ len, mem' (cmdLine + j) = mem (u64 (tag + 8 + j))
  meminfo : (tagType tag).value mem = tagTypeBasicMeminfo →
    memorySize.value mem' =
      ((tagField tag 8 4).value mem + (tagField tag 12 4).value mem) * 1024
  framebuffer : (tagType tag).value mem = tagTypeFramebuffer →
    framebufferFields mem' = framebufferTag mem tag
  mmap : (tagType tag).value mem = tagTypeMmap →
    ∃ n ≤ bootInfoMmapMax, Reaches mem tag n ∧ ¬ Reaches mem tag (n + 1) ∧
      (bootInfoOf mem').mmap = (entries mem tag n).map recorded ∧
      (bootInfoOf mem').mmapTop = (availableEnds (entries mem tag n)).foldl max 0

/-- The parts for different types do not overlap. -/
theorem region_disjoint {type type' : ℕ} (hne : type ≠ type') :
    (region type).2 ≤ (region type').1 ∨ (region type').2 ≤ (region type).1 := by
  unfold region tagTypeCmdline tagTypeBasicMeminfo tagTypeFramebuffer tagTypeMmap
  split_ifs <;> simp_all

theorem region_bounds (type : ℕ) : 40 ≤ (region type).1 ∧ (region type).2 ≤ 4096 := by
  unfold region
  split_ifs <;> simp

/-- A field in a part of `boot_info` that has stayed the same. -/
theorem value_of_region (hsame : ∀ k, kernelBootInfo + lo ≤ k → k < kernelBootInfo + hi →
    mem'' k = mem' k) {o w : ℕ} (hlo : lo ≤ o) (hhi : o + w ≤ hi) (hmax : hi ≤ 4096) :
    (infoField o w).value mem'' = (infoField o w).value mem' := by
  apply Field.value_congr
  intro i hi
  have hi' : i < w := hi
  rw [infoField_byte (by omega) hi']
  exact hsame _ (by omega) (by omega)

/-- What `boot_info` holds of a tag stays there with the part for the type. -/
theorem Records.of_region (h : Records mem tag mem')
    (hsame : ∀ k, kernelBootInfo + (region ((tagType tag).value mem)).1 ≤ k →
      k < kernelBootInfo + (region ((tagType tag).value mem)).2 → mem'' k = mem' k) :
    Records mem tag mem'' := by
  constructor
  · intro htype
    rw [htype] at hsame
    obtain ⟨len, hlen, hstr, hcopied⟩ := h.cmdline htype
    refine ⟨len, hlen, hstr, fun j hj => ?_⟩
    have hend := cmdLine_add_room
    rw [blockStart_eq] at hend
    have hbyte : mem'' (cmdLine + j) = mem' (cmdLine + j) := by
      apply hsame
      · unfold cmdLine
        exact Nat.add_le_add_left (Nat.le_refl 860) _ |>.trans (Nat.le_add_right _ j)
      · change cmdLine + j < kernelBootInfo + 4096
        omega
    rw [hbyte]
    exact hcopied j hj
  · intro htype
    rw [htype] at hsame
    rw [← h.meminfo htype]
    exact value_of_region hsame (le_refl 824) (le_refl 832) (by decide)
  · intro htype
    rw [htype] at hsame
    have hfield : ∀ o w, 832 ≤ o → o + w ≤ 860 →
        (infoField o w).value mem'' = (infoField o w).value mem' :=
      fun o w hlo hhi => value_of_region hsame hlo hhi (by decide)
    rw [← h.framebuffer htype]
    simp (disch := omega) only [framebufferFields, fbAddr, fbPitch, fbWidth, fbHeight, fbBpp,
      fbType, hfield]
  · intro htype
    rw [htype] at hsame
    have hfield : ∀ o w, 40 ≤ o → o + w ≤ 824 →
        (infoField o w).value mem'' = (infoField o w).value mem' :=
      fun o w hlo hhi => value_of_region hsame hlo hhi (by decide)
    obtain ⟨n, hn, hreach, hend, hmmap, htop⟩ := h.mmap htype
    have hlength := congrArg List.length hmmap
    simp only [bootInfoOf, List.length_map, List.length_range, entries] at hlength
    have hnum : numMmap.value mem'' = numMmap.value mem' := hfield 808 4 (by omega) (by omega)
    refine ⟨n, hn, hreach, hend, ?_, ?_⟩
    · rw [← hmmap]
      unfold bootInfoMmapMax at hn
      dsimp only [bootInfoOf]
      rw [hnum]
      apply List.map_congr_left
      intro i hi
      have hlt := List.mem_range.mp hi
      simp (disch := omega) only [mmapElement, mmapAddr, mmapSize, mmapFlags, hfield]
    · rw [← htop]
      exact hfield 816 8 (by omega) (by omega)

end Records

section Handling

variable {size tag rounds : ℕ} {mem : Mem}

/-- What the handler of a tag does. -/
theorem multibootTag_spec (htype : Within size (tag + 0) 4)
    (hsize : (tagType tag).value mem = tagTypeMmap → Within size (tag + 4) 4)
    (hfit : ContentFits size mem tag) (hrounds : cmdLineRoom ≤ rounds) :
    Inside size (multibootTag rounds tag) mem fun r mem' =>
      Changes (region ((tagType tag).value mem)).1 (region ((tagType tag).value mem)).2 mem mem' ∧
        ((Panics mem tag ∧ r = .error .panic) ∨
          (¬ Panics mem tag ∧ r = .ok () ∧ Records mem tag mem')) := by
  rw [multibootTag, inside_load]
  refine ⟨htype, ?_⟩
  split_ifs with hcmdline hmeminfo hframebuffer hmmap
  · obtain ⟨len, hlen, hin, hstr⟩ := hfit.cmdline hcmdline
    apply (multibootCmdline_spec hlen hin hstr hrounds).mono
    rintro r mem' ⟨hr, hchanges, hcopied⟩
    rw [hcmdline]
    refine ⟨hchanges, Or.inr ⟨?_, hr, ?_⟩⟩
    · rintro ⟨htype, -⟩
      exact absurd (hcmdline.symm.trans htype) (by decide)
    · constructor
      · exact fun _ => ⟨len, hlen, hstr, hcopied⟩
      · exact fun htype => absurd (hcmdline.symm.trans htype) (by decide)
      · exact fun htype => absurd (hcmdline.symm.trans htype) (by decide)
      · exact fun htype => absurd (hcmdline.symm.trans htype) (by decide)
  · apply (multibootMeminfo_spec (hfit.meminfo hmeminfo)).mono
    rintro r mem' ⟨hr, hchanges, hvalue⟩
    rw [hmeminfo]
    refine ⟨hchanges, Or.inr ⟨?_, hr, ?_⟩⟩
    · rintro ⟨htype, -⟩
      exact absurd (hmeminfo.symm.trans htype) (by decide)
    · constructor
      · exact fun htype => absurd (hmeminfo.symm.trans htype) (by decide)
      · exact fun _ => hvalue
      · exact fun htype => absurd (hmeminfo.symm.trans htype) (by decide)
      · exact fun htype => absurd (hmeminfo.symm.trans htype) (by decide)
  · apply (multibootFramebuffer_spec (hfit.framebuffer hframebuffer)).mono
    rintro r mem' ⟨hr, hchanges, hfields⟩
    rw [hframebuffer]
    refine ⟨hchanges, Or.inr ⟨?_, hr, ?_⟩⟩
    · rintro ⟨htype, -⟩
      exact absurd (hframebuffer.symm.trans htype) (by decide)
    · constructor
      · exact fun htype => absurd (hframebuffer.symm.trans htype) (by decide)
      · exact fun htype => absurd (hframebuffer.symm.trans htype) (by decide)
      · exact fun _ => hfields
      · exact fun htype => absurd (hframebuffer.symm.trans htype) (by decide)
  · have henough : bootInfoMmapMax < rounds := lt_of_lt_of_le (by decide) hrounds
    apply (multibootMmap_spec (hsize hmmap) (hfit.mmap hmmap) henough).mono
    rintro r mem' ⟨hchanges, ⟨hfull, hr⟩ | ⟨n, hn, hreach, hend, hr, hinfo⟩⟩
    · rw [hmmap]
      exact ⟨hchanges, Or.inl ⟨⟨hmmap, hfull⟩, hr⟩⟩
    · rw [hmmap]
      obtain ⟨hmap, htop⟩ := foldl_addMmap (entries mem tag n)
        { bootInfoOf mem with
          mmap := []
          mmapTop := 0 }
      rw [← hinfo] at hmap htop
      refine ⟨hchanges, Or.inr ⟨?_, hr, ?_⟩⟩
      · rintro ⟨-, hfull⟩
        exact hend fun i hi => hfull i (by omega)
      · constructor
        · exact fun htype => absurd (hmmap.symm.trans htype) (by decide)
        · exact fun htype => absurd (hmmap.symm.trans htype) (by decide)
        · exact fun htype => absurd (hmmap.symm.trans htype) (by decide)
        · exact fun _ => ⟨n, hn, hreach, hend, hmap, htop⟩
  · -- A tag of another type is skipped.
    refine ⟨Changes.refl, Or.inr ⟨fun hfull => hmmap hfull.1, rfl, ?_⟩⟩
    constructor
    · exact fun htype => absurd htype hcmdline
    · exact fun htype => absurd htype hmeminfo
    · exact fun htype => absurd htype hframebuffer
    · exact fun htype => absurd htype hmmap

end Handling

section Walk

variable {size tag last rounds : ℕ} {mem mem' : Mem} {us tags : List ℕ}

/-- The tags of a type. -/
def tagsOf (mem : Mem) (type : ℕ) (tags : List ℕ) : List ℕ :=
  tags.filter fun tag => (tagType tag).value mem = type

/-- `boot_info` holds what the last tag of each type says. -/
def Leaves (mem : Mem) (tags : List ℕ) (mem' : Mem) : Prop :=
  ∀ type, ∀ tag ∈ (tagsOf mem type tags).getLast?, Records mem tag mem'

/-- One more tag. -/
theorem Leaves.append {mem'' : Mem} (h : Leaves mem us mem')
    (hchanges : Changes (region ((tagType tag).value mem)).1 (region ((tagType tag).value mem)).2
      mem' mem'')
    (hrecords : Records mem tag mem'') : Leaves mem (us ++ [tag]) mem'' := by
  intro type t ht
  rw [tagsOf, List.filter_append] at ht
  by_cases htype : (tagType tag).value mem = type
  · have hone : ([tag].filter fun tag => (tagType tag).value mem = type) = [tag] := by
      simp [htype]
    rw [hone, List.getLast?_concat, Option.mem_some_iff] at ht
    rw [← ht]
    exact hrecords
  · have hnone : ([tag].filter fun tag => (tagType tag).value mem = type) = [] := by
      simp [htype]
    rw [hnone, List.append_nil] at ht
    -- The tag is of another type and stores to another part.
    have hrecorded := h type t ht
    have hmem := List.mem_of_getLast? ht
    have ht' : (tagType t).value mem = type := of_decide_eq_true (List.mem_filter.mp hmem).2
    apply hrecorded.of_region
    intro k hmin hmax
    rw [ht'] at hmin hmax
    have hdisjoint := region_disjoint htype
    exact hchanges k (by omega)

/-- What a handler records is what the block says from the start. -/
theorem Records.of_same {m : Mem} (hsame : SameBlock size mem m) (hheader : Within size tag 8)
    (hfit : ContentFits size mem tag) (h : Records m tag mem') : Records mem tag mem' := by
  have htype : (tagType tag).value m = (tagType tag).value mem :=
    hsame.value (hheader.sub 0 (by omega))
  have hsize : Within size (tag + 4) 4 := hheader.sub 4 (by omega)
  constructor
  · intro hcmdline
    obtain ⟨len, hlen, hin, hstr⟩ := hfit.cmdline hcmdline
    obtain ⟨len', -, hstr', hcopied⟩ := h.cmdline (htype.trans hcmdline)
    obtain rfl := ((hsame.isString hin).mpr hstr).unique hstr'
    refine ⟨len, hlen, hstr, fun j hj => ?_⟩
    rw [hcopied j hj]
    exact hsame _ (hin j (by omega))
  · intro hmeminfo
    have hin := hfit.meminfo hmeminfo
    have hlower : (tagField tag 8 4).value m = (tagField tag 8 4).value mem :=
      hsame.value (hin.sub 0 (by omega))
    have hupper : (tagField tag 12 4).value m = (tagField tag 12 4).value mem :=
      hsame.value (hin.sub 4 (by omega))
    rw [h.meminfo (htype.trans hmeminfo), hlower, hupper]
  · intro hframebuffer
    have hin := hfit.framebuffer hframebuffer
    have hfield : ∀ o w, 8 ≤ o → o + w ≤ 30 →
        (tagField tag o w).value m = (tagField tag o w).value mem := by
      intro o w hmin hmax
      apply hsame.value
      have hsub := hin.sub (o - 8) (show o - 8 + w ≤ 22 by omega)
      rwa [Nat.add_assoc, Nat.add_sub_cancel' hmin] at hsub
    rw [h.framebuffer (htype.trans hframebuffer)]
    simp (disch := omega) only [framebufferTag, hfield]
  · intro hmmap
    have hin := hfit.mmap hmmap
    obtain ⟨n, hn, hreach, hend, hmap, htop⟩ := h.mmap (htype.trans hmmap)
    rw [hsame.reaches hsize hin] at hreach hend
    have hentries : entries m tag n = entries mem tag n := by
      apply List.map_congr_left
      intro i hi
      have hlt := List.mem_range.mp hi
      obtain ⟨hwidth, hentry⟩ := hin i (by omega) fun j hj => hreach j (by omega)
      have hstride : (mmapEntrySize tag).value m = (mmapEntrySize tag).value mem :=
        hsame.value hwidth
      have haddr : entryAt m tag i = entryAt mem tag i := by
        rw [entryAt, hstride]
        rfl
      rw [haddr]
      exact hsame.mmapEntry hentry
    rw [hentries] at hmap htop
    exact ⟨n, hn, hreach, hend, hmap, htop⟩

/-- The walk over tags that fit fills `boot_info` up to the end, or panics at the last one. -/
theorem multibootLoop_spec (hseg : Segment (nextTag mem) tag tags last)
    (hpass : ∀ t ∈ tags, Passes size mem t) (hstop : Stops size mem last)
    (hrounds : cmdLineRoom ≤ rounds) {fuel : ℕ} {m : Mem} (hchanges : Changes 40 4096 mem m)
    (hleaves : Leaves mem us m) (hfuel : tags.length < fuel) :
    Inside size (multibootLoop rounds fuel tag) m fun r mem' =>
      Changes 40 4096 mem mem' ∧
        ((Panics mem last ∧ r = .error .panic) ∨
          ((tagType last).value mem = tagTypeEnd ∧ r = .ok () ∧ Leaves mem (us ++ tags) mem')) := by
  have hsame : SameBlock size mem m := hchanges.same (le_refl 4096)
  induction hseg generalizing fuel us m with
  | nil a =>
    cases fuel with
    | zero => omega
    | succ fuel =>
      rw [multibootLoop, inside_load, List.append_nil]
      cases hsame.stops hstop with
      | last header hend =>
        refine ⟨header, ?_⟩
        rw [if_neg (fun hne => hne hend)]
        have htype : (tagType a).value m = (tagType a).value mem := hsame.value header
        exact ⟨hchanges, Or.inr ⟨htype.symm.trans hend, rfl, hleaves⟩⟩
      | full header content hfull =>
        have hfull' : Panics mem a :=
          (hsame.symm.panics header content).mpr hfull
        have hheader : Within size (a + 0) 4 := header.sub 0 (by omega)
        refine ⟨hheader, ?_⟩
        rw [if_pos (by rw [hfull.1]; decide), Inside, Accessing.holds_bind]
        apply (multibootTag_spec hheader (fun _ => header.sub 4 (by omega)) content hrounds).mono
        rintro r m' ⟨hchanges', ⟨-, rfl⟩ | ⟨hroom, -, -⟩⟩
        · have hregion := region_bounds ((tagType a).value m)
          exact ⟨hchanges.trans (hchanges'.mono hregion.1 hregion.2), Or.inl ⟨hfull', rfl⟩⟩
        · exact absurd hfull hroom
  | @cons a b nodes rest ih =>
    cases fuel with
    | zero => omega
    | succ fuel =>
      have hfirst := hpass a List.mem_cons_self
      have hfirst' := hsame.passes hfirst
      have hheader := hfirst.header
      have htype : Within size (a + 0) 4 := hheader.sub 0 (by omega)
      have hsize : Within size (a + 4) 4 := hheader.sub 4 (by omega)
      rw [multibootLoop, inside_load]
      refine ⟨htype, ?_⟩
      rw [if_pos hfirst'.notEnd, Inside, Accessing.holds_bind]
      apply (multibootTag_spec htype (fun _ => hsize) hfirst'.content hrounds).mono
      rintro r m' ⟨hchanges', ⟨hfull, -⟩ | ⟨-, rfl, hrecords⟩⟩
      · exact absurd hfull hfirst'.room
      · have hregion := region_bounds ((tagType a).value m)
        have hchanges'' := hchanges.trans (hchanges'.mono hregion.1 hregion.2)
        have hsame' : SameBlock size mem m' := hchanges''.same (le_refl 4096)
        have hvalue : (tagType a).value m = (tagType a).value mem := hsame.value htype
        rw [hvalue] at hchanges'
        have hleaves' := hleaves.append hchanges' (hrecords.of_same hsame hheader hfirst.content)
        refine inside_load.mpr ⟨hsize, ?_⟩
        have hnext := hsame'.nextTag hheader
        rw [nextTag] at hnext
        rw [hnext]
        have hrest := ih (fun t ht => hpass t (List.mem_cons_of_mem a ht)) hstop hchanges'' hleaves'
          (Nat.lt_of_succ_lt_succ hfuel) hsame'
        rwa [List.append_assoc, List.singleton_append] at hrest

end Walk

end Smor.Multiboot
