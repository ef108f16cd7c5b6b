import Smor.Multiboot.Rules

/-!
# What the handlers of the tags do

Each handler loads the contents of its tag, and stores to its own part of `boot_info`. Only a
long command line leaves `boot_info`: there is room for it up to the information block.
-/

namespace Smor.Multiboot

open Smor.Lib

section Framebuffer

variable {size fb : ℕ} {mem : Mem} {post : Except Stop Unit → Mem → Prop}

/-- The values of the fields of the frame buffer. -/
def framebufferFields (mem : Mem) : List ℕ :=
  [fbAddr.value mem, fbPitch.value mem, fbWidth.value mem, fbHeight.value mem, fbBpp.value mem,
    fbType.value mem]

/-- The values in a frame buffer tag. -/
def framebufferTag (mem : Mem) (fb : ℕ) : List ℕ :=
  [(tagField fb 8 8).value mem, (tagField fb 16 4).value mem, (tagField fb 20 4).value mem,
    (tagField fb 24 4).value mem, (tagField fb 28 1).value mem, (tagField fb 29 1).value mem]

/-- `multiboot_framebuffer` copies the fields of its tag. -/
theorem multibootFramebuffer_spec (hfb : Within size (fb + 8) 22) :
    Inside size (multibootFramebuffer fb) mem fun r mem' =>
      r = .ok () ∧ Changes 832 860 mem mem' ∧ framebufferFields mem' = framebufferTag mem fb := by
  have haddr : Within size (fb + 8) 8 := hfb.sub 0 (by omega)
  have hpitch : Within size (fb + 16) 4 := hfb.sub 8 (by omega)
  have hwidth : Within size (fb + 20) 4 := hfb.sub 12 (by omega)
  have hheight : Within size (fb + 24) 4 := hfb.sub 16 (by omega)
  have hbpp : Within size (fb + 28) 1 := hfb.sub 20 (by omega)
  have htype : Within size (fb + 29) 1 := hfb.sub 21 (by omega)
  simp (disch := first | omega | assumption) only [multibootFramebuffer, inside_load, fbAddr,
    fbPitch, fbWidth, fbHeight, fbBpp, fbType, inside_storeInfo, inside_storeInfoLast,
    value_put_tag]
  refine ⟨haddr, hpitch, hwidth, hheight, hbpp, htype, trivial, ?_, ?_⟩
  · repeat' apply Changes.put
    all_goals first | exact Changes.refl | omega
  · have hlt₈ := tagField_lt fb 8 8 mem
    have hlt₁₆ := tagField_lt fb 16 4 mem
    have hlt₂₀ := tagField_lt fb 20 4 mem
    have hlt₂₄ := tagField_lt fb 24 4 mem
    have hlt₂₈ := tagField_lt fb 28 1 mem
    have hlt₂₉ := tagField_lt fb 29 1 mem
    simp (disch := omega) only [framebufferFields, framebufferTag, fbAddr, fbPitch, fbWidth,
      fbHeight, fbBpp, fbType, value_put_self, value_put_ne]

end Framebuffer

section Meminfo

variable {size meminfo : ℕ} {mem : Mem} {post : Except Stop Unit → Mem → Prop}

/-- `multiboot_meminfo` stores the size in bytes. -/
theorem multibootMeminfo_spec (hmeminfo : Within size (meminfo + 8) 8) :
    Inside size (multibootMeminfo meminfo) mem fun r mem' =>
      r = .ok () ∧ Changes 824 832 mem mem' ∧
        memorySize.value mem' =
          ((tagField meminfo 8 4).value mem + (tagField meminfo 12 4).value mem) * 1024 := by
  have hlower : Within size (meminfo + 8) 4 := hmeminfo.sub 0 (by omega)
  have hupper : Within size (meminfo + 12) 4 := hmeminfo.sub 4 (by omega)
  have hlt₈ := tagField_lt meminfo 8 4 mem
  have hlt₁₂ := tagField_lt meminfo 12 4 mem
  simp (disch := omega) only [multibootMeminfo, inside_load, memorySize, inside_storeInfoLast,
    u64_of_lt]
  refine ⟨hlower, hupper, trivial, ?_, ?_⟩
  · exact Changes.refl.put (by omega) (by omega) (by omega)
  · rw [value_put_self (by omega) (by omega), Nat.add_mul]

end Meminfo

section Cmdline

variable {size str : ℕ} {mem : Mem} {α : Type} {post : Except Stop α → Mem → Prop}

/-- A string at an address that ends with a zero byte. -/
def IsString (mem : Mem) (s len : ℕ) : Prop :=
  (∀ i < len, mem (u64 (s + i)) ≠ 0) ∧ mem (u64 (s + len)) = 0

instance decidableIsString (mem : Mem) (s len : ℕ) : Decidable (IsString mem s len) :=
  inferInstanceAs (Decidable ((∀ i < len, _) ∧ _))

/-- A string has one length. -/
theorem IsString.unique {s len len' : ℕ} (h : IsString mem s len) (h' : IsString mem s len') :
    len = len' := by
  rcases Nat.lt_trichotomy len len' with hlt | heq | hgt
  · exact absurd h.2 (h'.1 len hlt)
  · exact heq
  · exact absurd h'.2 (h.1 len' hgt)

/-- The number of bytes from `cmd_line` up to the information block. -/
def cmdLineRoom : ℕ := 3236

theorem cmdLine_add_room : cmdLine + cmdLineRoom = blockStart := by decide

/-- The command line ends in the block, and it fits in front of the block. -/
def StringFits (size : ℕ) (mem : Mem) (str : ℕ) : Prop :=
  ∃ len < cmdLineRoom, Within size (str + 8) (len + 1) ∧ IsString mem (str + 8) len

theorem char_value (mem : Mem) (s : ℕ) : (char s).value mem = (mem (u64 s)).toNat := by
  simp [Field.value, Field.byte, char, number]

theorem char_put (p : ℕ) (b : Byte) : (char p).put mem b.toNat = Function.update mem (u64 p) b := by
  simp [Field.put, Field.byte, char, putNumber]

/-- A byte of a string. -/
theorem inside_loadChar {s : ℕ} {g : ℕ → Step α} :
    Inside size (((char s).load .block).bind g) mem post ↔
      InBlock size (u64 s) ∧ Inside size (g (mem (u64 s)).toNat) mem post := by
  rw [inside_load, char_value]
  simp [Within, char]

/-- A byte that is stored. -/
theorem inside_storeChar {p : ℕ} {b : Byte} {g : Unit → Step α} :
    Inside size (((char p).store b.toNat).bind g) mem post ↔
      ¬ InBlock size (u64 p) ∧ Inside size (g ()) (Function.update mem (u64 p) b) post := by
  rw [inside_store, char_put]
  simp [Field.byte, char]

/-- A byte that is stored at the end. -/
theorem inside_storeCharLast {p : ℕ} {b : Byte} {post : Except Stop Unit → Mem → Prop} :
    Inside size ((char p).store b.toNat) mem post ↔
      ¬ InBlock size (u64 p) ∧ post (.ok ()) (Function.update mem (u64 p) b) := by
  rw [inside_storeLast, char_put]
  simp [Field.byte, char]

/-- The address of a character of `cmd_line`. -/
theorem cmdLine_byte {i : ℕ} (hi : i ≤ cmdLineRoom) : u64 (cmdLine + i) = cmdLine + i := by
  have hend := cmdLine_add_room
  have hbase := kernelBootInfo_eq
  rw [blockStart_eq] at hend
  exact u64_of_lt (by omega)

/-- One round of the loop: the terminator, or another character. -/
theorem inside_copyString {rounds p s : ℕ} {post : Except Stop Unit → Mem → Prop} :
    Inside size (copyString (rounds + 1) p s) mem post ↔
      InBlock size (u64 s) ∧ ¬ InBlock size (u64 p) ∧
        if mem (u64 s) = 0 then post (.ok ()) (Function.update mem (u64 p) 0)
        else Inside size (copyString rounds (u64 (p + 1)) (u64 (s + 1)))
          (Function.update mem (u64 p) (mem (u64 s))) post := by
  rw [copyString, inside_loadChar]
  by_cases hzero : mem (u64 s) = 0
  · have hnat : ¬ (mem (u64 s)).toNat ≠ 0 := by simp [hzero]
    rw [if_neg hnat, if_pos hzero]
    exact and_congr_right fun _ => inside_storeCharLast (b := 0)
  · have hnat : (mem (u64 s)).toNat ≠ 0 := fun h => hzero (BitVec.eq_of_toNat_eq h)
    rw [if_pos hnat, if_neg hzero, inside_loadChar, inside_storeChar]
    exact ⟨fun h => ⟨h.1, h.2.2⟩, fun h => ⟨h.1, h.1, h.2⟩⟩

/-- The loop of `multiboot_cmdline` from a character on copies the rest of the string. -/
theorem copyString_spec {s len : ℕ} (hlen : len < cmdLineRoom) (hin : Within size s (len + 1))
    (hstr : IsString mem s len) {rounds i : ℕ} {mem' : Mem} (hi : i ≤ len)
    (hother : ∀ k, (k < cmdLine ∨ cmdLine + i ≤ k) → mem' k = mem k)
    (hcopied : ∀ j < i, mem' (cmdLine + j) = mem (u64 (s + j))) (hrounds : len - i < rounds) :
    Inside size (copyString rounds (u64 (cmdLine + i)) (u64 (s + i))) mem' fun r mem'' =>
      r = .ok () ∧ (∀ k, (k < cmdLine ∨ cmdLine + len < k) → mem'' k = mem k) ∧
        ∀ j ≤ len, mem'' (cmdLine + j) = mem (u64 (s + j)) := by
  have hend := cmdLine_add_room
  induction rounds generalizing i mem' with
  | zero => omega
  | succ rounds ih =>
    have hload := hin i (by omega)
    have hbyte : mem' (u64 (s + i)) = mem (u64 (s + i)) := by
      apply hother
      have hstart := hload.1
      omega
    rw [inside_copyString, u64_of_lt (u64_lt _), u64_of_lt (u64_lt _), hbyte, u64_add_u64,
      u64_add_u64, Nat.add_assoc, Nat.add_assoc, cmdLine_byte (by omega)]
    refine ⟨hload, fun hblock => ?_, ?_⟩
    · have hstart := hblock.1
      omega
    have hlast : ∀ j ≤ i, Function.update mem' (cmdLine + i) (mem (u64 (s + i))) (cmdLine + j) =
        mem (u64 (s + j)) := by
      intro j hj
      by_cases hji : j = i
      · rw [hji, Function.update_self]
      · rw [Function.update_of_ne (by omega)]
        exact hcopied j (by omega)
    have hrest : ∀ k, (k < cmdLine ∨ cmdLine + i < k) →
        Function.update mem' (cmdLine + i) (mem (u64 (s + i))) k = mem k := by
      intro k hk
      rw [Function.update_of_ne (by omega)]
      exact hother k (by omega)
    split_ifs with hzero
    · obtain rfl : i = len := by
        by_contra hne
        exact hstr.1 i (by omega) hzero
      rw [hzero] at hlast hrest
      exact ⟨rfl, hrest, hlast⟩
    · have hne : i ≠ len := by
        rintro rfl
        exact hzero hstr.2
      exact ih (by omega) (fun k hk => hrest k (by omega)) (fun j hj => hlast j (by omega))
        (by omega)

theorem multibootCmdline_eq (rounds str : ℕ) :
    multibootCmdline rounds str = copyString rounds (u64 (cmdLine + 0)) (u64 (str + 8 + 0)) := by
  rw [cmdLine_byte (Nat.zero_le _)]
  rfl

/-- `multiboot_cmdline` copies the string of its tag. -/
theorem multibootCmdline_spec {len : ℕ} (hlen : len < cmdLineRoom)
    (hin : Within size (str + 8) (len + 1)) (hstr : IsString mem (str + 8) len) {rounds : ℕ}
    (hrounds : cmdLineRoom ≤ rounds) :
    Inside size (multibootCmdline rounds str) mem fun r mem' =>
      r = .ok () ∧ Changes 860 4096 mem mem' ∧
        ∀ j ≤ len, mem' (cmdLine + j) = mem (u64 (str + 8 + j)) := by
  have hend := cmdLine_add_room
  rw [blockStart_eq] at hend
  rw [multibootCmdline_eq]
  apply (copyString_spec hlen hin hstr (Nat.zero_le len) (fun _ _ => rfl)
    (fun j hj => absurd hj (by omega)) (by omega)).mono
  rintro r mem' ⟨hr, hother, hcopied⟩
  refine ⟨hr, fun k hk => hother k ?_, hcopied⟩
  unfold cmdLine at hend ⊢
  omega

end Cmdline

end Smor.Multiboot
