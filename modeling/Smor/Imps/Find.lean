import Smor.Acpi.Tables
import Smor.Vm.Slack

/-!
# The search for the MP floating pointer

`imps_find` looks for the floating pointer structure of a multiprocessor system at every sixteenth
byte of three areas: the first kilobyte of the extended BIOS data area, the last kilobyte of
the base memory, and the BIOS. Other than the search for the ACPI root pointer, it goes on behind
a signature whose structure is not valid, so it finds the first valid structure of all three.
-/

namespace Smor.Imps

open Smor.Lib Smor.Vm Smor.Acpi

/-- `*(uint16_t*)addr`. -/
def readU16 (addr : ℕ) : Parser ℕ :=
  .read addr fun b₀ => .read (addr + 1) fun b₁ => .done (b₀.toNat + 2 ^ 8 * b₁.toNat)

/-- `IMPS_FPS_SIGNATURE`. -/
def impsFpsSignature : ℕ := 0x5F504D5F

/-- The loop of `imps_checksum`. -/
def sumLoop (base : ℕ) : ℕ → Parser ℕ
  | 0 => .done 0
  | n + 1 => (sumLoop base n).bind fun sum => .read (base + n) fun b => .done (u32 (sum + b.toNat))

/-- `imps_checksum`. -/
def impsChecksum (base len : ℕ) : Parser ℕ := (sumLoop base len).bind fun sum => .done (sum &&& 0xFF)

/-- `imps_check_fps`. -/
def impsCheckFps (fps : ℕ) : Parser Bool :=
  (readU32 fps).bind fun signature =>
    if signature = impsFpsSignature then
      (readU8 (fps + 8)).bind fun length =>
        if length = 0x1 then
          (readU8 (fps + 9)).bind fun specRev =>
            if specRev = 0x1 ∨ specRev = 0x4 then
              (impsChecksum fps 16).bind fun sum => .done (sum = 0)
            else .done false
        else .done false
    else .done false

/-- The loop of `imps_scan`. Without a valid structure, it does not end if `len` is not a multiple
of 16. -/
def scanLoop : ℕ → ℕ → ℕ → Parser (Option ℕ)
  | 0, _, _ => .stop .endless
  | rounds + 1, addr, len =>
    if 0 < len then
      (impsCheckFps addr).bind fun valid =>
        if valid then .done (some addr)
        else scanLoop rounds (u64 (addr + 16)) (u32 (len + 2 ^ 32 - 16))
    else .done none

/-- `imps_scan`, for a `len` that is a multiple of 16. -/
def impsScan (addr len : ℕ) : Parser (Option ℕ) := scanLoop (len / 16 + 1) addr len

/-- `imps_find`. -/
def impsFind : Parser (Option ℕ) :=
  (readU16 (kernelVaddr 0x40E)).bind fun segment =>
    (impsScan (kernelVaddr (segment <<< 4)) 1024).bind fun fps =>
      if fps.isSome then .done fps
      else
        (impsScan (kernelVaddr (639 * 1024)) 1024).bind fun fps =>
          if fps.isSome then .done fps
          else
            (impsScan (kernelVaddr 0xF0000) 0x10000).bind fun fps =>
              if fps.isSome then .done fps else .done none

/-- A valid floating pointer structure. -/
def ValidFps (mem : ℕ → Byte) (fps : ℕ) : Prop :=
  u32At mem fps = impsFpsSignature ∧ (mem (fps + 8)).toNat = 1 ∧
    ((mem (fps + 9)).toNat = 1 ∨ (mem (fps + 9)).toNat = 4) ∧ checksum mem fps 16 = 0

instance (mem : ℕ → Byte) : DecidablePred (ValidFps mem) := fun _ =>
  inferInstanceAs (Decidable (_ ∧ _ ∧ _ ∧ _))

/-- The addresses of an area at which a structure can be. -/
def area (addr n : ℕ) : List ℕ := (List.range n).map fun i => addr + 16 * i

/-- The segment of the extended BIOS data area. -/
def ebdaSegment (mem : ℕ → Byte) : ℕ := (mem 0x40E).toNat + 2 ^ 8 * (mem 0x40F).toNat

/-- All addresses at which a structure can be, in the order of the search. -/
def fpsAddrs (mem : ℕ → Byte) : List ℕ :=
  area (ebdaSegment mem * 16) 64 ++ area (639 * 1024) 64 ++ area 0xF0000 4096

/-- The kernel sees the memory below `top` at `KERNEL_BASE`. -/
def SeesLow (view : ℕ → Option Byte) (mem : ℕ → Byte) (top : ℕ) : Prop :=
  ∀ p < top, view (kernelBase + p) = some (mem p)

section Reads

variable {view : ℕ → Option Byte} {mem : ℕ → Byte} {top p : ℕ}

theorem run_readU8 (hsees : SeesLow view mem top) (hp : p < top) :
    (readU8 (kernelBase + p)).run view = .ok (mem p).toNat := by
  rw [readU8, Reading.run, hsees p hp]
  rfl

theorem run_readU16 (hsees : SeesLow view mem top) (hp : p + 1 < top) :
    (readU16 (kernelBase + p)).run view = .ok ((mem p).toNat + 2 ^ 8 * (mem (p + 1)).toNat) := by
  simp only [readU16, Reading.run, Nat.add_assoc, hsees p (by omega), hsees (p + 1) (by omega)]

theorem run_readU32 (hsees : SeesLow view mem top) (hp : p + 3 < top) :
    (readU32 (kernelBase + p)).run view = .ok (u32At mem p) := by
  simp only [readU32, Reading.run, Nat.add_assoc, hsees p (by omega), hsees (p + 1) (by omega),
    hsees (p + 2) (by omega), hsees (p + 3) (by omega), u32At]

/-- The 32-bit sum of `imps_checksum` ends in the 8-bit sum. -/
theorem run_impsChecksum (hsees : SeesLow view mem top) {n : ℕ} (hp : p + n ≤ top) :
    (impsChecksum (kernelBase + p) n).run view = .ok (checksum mem p n).toNat := by
  have hloop : ∃ sum, (sumLoop (kernelBase + p) n).run view = .ok sum ∧
      sum % 2 ^ 8 = (checksum mem p n).toNat := by
    induction n with
    | zero => exact ⟨0, rfl, rfl⟩
    | succ n ih =>
      obtain ⟨sum, hrun, hsum⟩ := ih (by omega)
      refine ⟨u32 (sum + (mem (p + n)).toNat), ?_, ?_⟩
      · rw [sumLoop, Reading.run_bind, hrun]
        simp only [Except.bind, Reading.run, Nat.add_assoc, hsees (p + n) (by omega)]
      · rw [checksum, BitVec.toNat_add, ← hsum, u32]
        omega
  obtain ⟨sum, hrun, hsum⟩ := hloop
  rw [impsChecksum, Reading.run_bind, hrun]
  simp only [Except.bind, Reading.run]
  rw [show (0xFF : ℕ) = 2 ^ 8 - 1 from rfl, Nat.and_two_pow_sub_one_eq_mod, hsum]

/-- `imps_check_fps` decides whether a structure is valid. -/
theorem run_impsCheckFps (hsees : SeesLow view mem top) (hp : p + 16 ≤ top) :
    (impsCheckFps (kernelBase + p)).run view = .ok (decide (ValidFps mem p)) := by
  rw [impsCheckFps, Reading.run_bind, run_readU32 hsees (by omega)]
  simp only [Except.bind, ValidFps]
  by_cases hsignature : u32At mem p = impsFpsSignature
  · rw [if_pos hsignature, Reading.run_bind, Nat.add_assoc, run_readU8 hsees (by omega)]
    simp only [Except.bind, hsignature, true_and]
    by_cases hlength : (mem (p + 8)).toNat = 1
    · rw [if_pos hlength, Reading.run_bind, Nat.add_assoc, run_readU8 hsees (by omega)]
      simp only [Except.bind, hlength, true_and]
      by_cases hrev : (mem (p + 9)).toNat = 1 ∨ (mem (p + 9)).toNat = 4
      · rw [if_pos hrev, Reading.run_bind, run_impsChecksum hsees hp]
        simp only [Except.bind, Reading.run, hrev, true_and, ← BitVec.toNat_inj]
        rfl
      · rw [if_neg hrev]
        simp [Reading.run, hrev]
    · rw [if_neg hlength]
      simp [Reading.run, hlength]
  · rw [if_neg hsignature]
    simp [Reading.run, hsignature]

theorem area_succ (addr n : ℕ) : area addr (n + 1) = addr :: area (addr + 16) n := by
  rw [area, List.range_succ_eq_map, List.map_cons, List.map_map, area]
  congr 1
  refine List.map_congr_left fun i _ => ?_
  simp only [Function.comp_apply]
  omega

/-- `imps_scan` returns the first valid structure of its area. -/
theorem run_scanLoop (hsees : SeesLow view mem top) (htop : top < 2 ^ 31) {n : ℕ}
    (hn : n < 2 ^ 28) (hp : p + 16 * n ≤ top) :
    (scanLoop (n + 1) (kernelBase + p) (16 * n)).run view =
      .ok (((area p n).find? fun fps => ValidFps mem fps).map (kernelBase + ·)) := by
  induction n generalizing p with
  | zero => rfl
  | succ n ih =>
    rw [scanLoop, if_pos (by omega), Reading.run_bind, run_impsCheckFps hsees (by omega), area_succ]
    simp only [Except.bind]
    by_cases hvalid : ValidFps mem p
    · rw [List.find?_cons_of_pos (by simpa using hvalid), if_pos (decide_eq_true hvalid)]
      rfl
    · have haddr : u64 (kernelBase + p + 16) = kernelBase + (p + 16) := by
        simp only [u64, kernelBase]
        omega
      have hlen : u32 (16 * (n + 1) + 2 ^ 32 - 16) = 16 * n := by
        unfold u32
        omega
      rw [List.find?_cons_of_neg (by simpa using hvalid), if_neg (by simpa using hvalid), haddr,
        hlen, ih (by omega) (by omega)]

theorem run_impsScan (hsees : SeesLow view mem top) (htop : top < 2 ^ 31) (n : ℕ)
    (hn : n < 2 ^ 28) (hp : p + 16 * n ≤ top) :
    (impsScan (kernelVaddr p) (16 * n)).run view =
      .ok (((area p n).find? fun fps => ValidFps mem fps).map (kernelBase + ·)) := by
  rcases Nat.eq_zero_or_pos n with rfl | hpos
  · rfl
  · rw [impsScan, kernelVaddr_eq (by omega), Nat.mul_div_cancel_left n (by decide),
      run_scanLoop hsees htop hn hp]

/-- **The search is complete.** `imps_find` returns the first valid structure in the order of the
search, and `NULL` if there is none. -/
theorem run_impsFind (hsees : SeesLow view mem top) (hlow : 0x100400 ≤ top) (htop : top < 2 ^ 31) :
    impsFind.run view =
      .ok (((fpsAddrs mem).find? fun fps => ValidFps mem fps).map (kernelBase + ·)) := by
  have hsegment : ebdaSegment mem < 2 ^ 16 := by
    have h₀ := (mem 0x40E).isLt
    have h₁ := (mem 0x40F).isLt
    unfold ebdaSegment
    omega
  rw [impsFind, Reading.run_bind, kernelVaddr_eq (by decide), run_readU16 hsees (by omega)]
  simp only [Except.bind]
  have hebda := run_impsScan hsees htop 64 (by decide) (p := ebdaSegment mem * 2 ^ 4) (by omega)
  have hbase := run_impsScan hsees htop 64 (by decide) (p := 639 * 1024) (by omega)
  have hbios := run_impsScan hsees htop 4096 (by decide) (p := 0xF0000) (by omega)
  rw [← ebdaSegment, Nat.shiftLeft_eq, Reading.run_bind, hebda, fpsAddrs, List.find?_append,
    List.find?_append]
  simp only [Except.bind]
  cases (area (ebdaSegment mem * 2 ^ 4) 64).find? fun fps => ValidFps mem fps with
  | some fps => rfl
  | none =>
    simp only [Option.map_none, Option.isSome_none, Bool.false_eq_true, if_false, Option.none_or]
    rw [Reading.run_bind, hbase]
    simp only [Except.bind]
    cases (area (639 * 1024) 64).find? fun fps => ValidFps mem fps with
    | some fps => rfl
    | none =>
      simp only [Option.map_none, Option.isSome_none, Bool.false_eq_true, if_false, Option.none_or]
      rw [Reading.run_bind, hbios]
      cases (area 0xF0000 4096).find? fun fps => ValidFps mem fps <;> rfl

end Reads

end Smor.Imps
