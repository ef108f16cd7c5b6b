import Mathlib.Order.Bounds.Basic
import Mathlib.Order.Nat
import Smor.Acpi.Tables

/-!
# The search for the root pointer

The root pointer is at a multiple of 16 in the BIOS area. `acpi_find_rsdp` looks for its
signature from the lowest address on, but gives up at the first signature whose structure has
a wrong checksum. So it finds the lowest valid structure exactly if no stray signature lies
before it.
-/

namespace Smor.Acpi

/-- A 16-byte aligned address of the BIOS area. -/
def BiosAddr (addr : ℕ) : Prop := 0xE0000 ≤ addr ∧ addr ≤ 0xFFFFF ∧ 16 ∣ addr

/-- The address carries the signature of a root pointer. -/
def Signed (mem : ℕ → Byte) (addr : ℕ) : Prop := u64At mem addr = acpiRsdpSignature

/-- A root pointer: the signature, and 20 bytes whose sum is 0. -/
def ValidRsdp (mem : ℕ → Byte) (addr : ℕ) : Prop := Signed mem addr ∧ checksum mem addr 20 = 0

/-- The root pointers in the BIOS area. -/
def biosRsdps (mem : ℕ → Byte) : Set ℕ := {addr | BiosAddr addr ∧ ValidRsdp mem addr}

/-- The signatures in the BIOS area. -/
def biosSignatures (mem : ℕ → Byte) : Set ℕ := {addr | BiosAddr addr ∧ Signed mem addr}

/-- The result of a search for the lowest root pointer. -/
def FindsLowest (mem : ℕ → Byte) (found : Option ℕ) : Prop :=
  (∀ addr, found = some addr ↔ IsLeast (biosRsdps mem) addr) ∧
    (found = none ↔ biosRsdps mem = ∅)

section Scan

variable {mem : ℕ → Byte} {addr : ℕ}

theorem biosRsdps_subset : biosRsdps mem ⊆ biosSignatures mem := by
  rintro addr ⟨hbios, hsigned, -⟩
  exact ⟨hbios, hsigned⟩

/-- The addresses that the loop visits. -/
theorem biosAddr_iff : BiosAddr addr ↔ ∃ i < 0x2000, addr = 0xE0000 + 16 * i := by
  constructor
  · rintro ⟨hmin, hmax, k, rfl⟩
    exact ⟨k - 0xE000, by omega, by omega⟩
  · rintro ⟨i, hi, rfl⟩
    exact ⟨by omega, by omega, 0xE000 + i, by omega⟩

/-- The loop returns a valid structure if there is no signature before it. -/
theorem findRsdp_eq_some {n ptr : ℕ} :
    findRsdp mem n ptr = some addr ↔
      ∃ i < n, addr = ptr + 16 * i ∧ ValidRsdp mem addr ∧
        ∀ j < i, ¬ Signed mem (ptr + 16 * j) := by
  induction n generalizing ptr with
  | zero => simp [findRsdp]
  | succ n ih =>
    by_cases hptr : Signed mem ptr
    · -- A signature ends the search, whatever its checksum is.
      have hloop : findRsdp mem (n + 1) ptr =
          if checksum mem ptr 20 = 0 then some ptr else none := if_pos hptr
      rw [hloop]
      constructor
      · intro h
        split_ifs at h with hsum
        cases h
        exact ⟨0, by omega, rfl, ⟨hptr, hsum⟩, fun j hj => absurd hj (by omega)⟩
      · rintro ⟨i, hi, haddr, hvalid, hfirst⟩
        have hzero : i = 0 := by
          by_contra hpos
          exact hfirst 0 (by omega) hptr
        subst hzero
        subst haddr
        exact if_pos hvalid.2
    · have hloop : findRsdp mem (n + 1) ptr = findRsdp mem n (ptr + 16) := if_neg hptr
      rw [hloop, ih]
      constructor
      · rintro ⟨i, hi, haddr, hvalid, hfirst⟩
        refine ⟨i + 1, by omega, by omega, hvalid, fun j hj => ?_⟩
        cases j with
        | zero => exact hptr
        | succ j =>
          have hnext : ptr + 16 * (j + 1) = ptr + 16 + 16 * j := by omega
          rw [hnext]
          exact hfirst j (by omega)
      · rintro ⟨i, hi, haddr, hvalid, hfirst⟩
        cases i with
        | zero =>
          rw [haddr] at hvalid
          exact absurd hvalid.1 hptr
        | succ i =>
          refine ⟨i, by omega, by omega, hvalid, fun j hj => ?_⟩
          have hnext : ptr + 16 + 16 * j = ptr + 16 * (j + 1) := by omega
          rw [hnext]
          exact hfirst (j + 1) (by omega)

/-- `acpi_find_rsdp` returns the lowest signature of the area if it is that of a root pointer,
and nothing else. -/
theorem acpiFindRsdp_eq_some :
    acpiFindRsdp mem = some addr ↔
      IsLeast (biosSignatures mem) addr ∧ checksum mem addr 20 = 0 := by
  rw [acpiFindRsdp, findRsdp_eq_some]
  constructor
  · rintro ⟨i, hi, haddr, ⟨hsigned, hsum⟩, hfirst⟩
    refine ⟨⟨⟨biosAddr_iff.mpr ⟨i, hi, haddr⟩, hsigned⟩, ?_⟩, hsum⟩
    rintro b ⟨hbios, hb⟩
    obtain ⟨j, -, rfl⟩ := biosAddr_iff.mp hbios
    have hij : ¬ j < i := fun hj => hfirst j hj hb
    omega
  · rintro ⟨⟨⟨hbios, hsigned⟩, hleast⟩, hsum⟩
    obtain ⟨i, hi, haddr⟩ := biosAddr_iff.mp hbios
    refine ⟨i, hi, haddr, ⟨hsigned, hsum⟩, fun j hj hb => ?_⟩
    have hle := hleast ⟨biosAddr_iff.mpr ⟨j, by omega, rfl⟩, hb⟩
    omega

/-- Where there is a signature, there is a lowest one. -/
theorem exists_isLeast_signature (h : (biosSignatures mem).Nonempty) :
    ∃ addr, IsLeast (biosSignatures mem) addr := by
  classical
  exact ⟨Nat.find h, Nat.isLeast_find h⟩

end Scan

/-- The search finds the lowest root pointer of the BIOS area if and only if the lowest
signature in the area is that of a root pointer, or the area has no root pointer at all. -/
theorem acpiFindRsdp_findsLowest_iff (mem : ℕ → Byte) :
    FindsLowest mem (acpiFindRsdp mem) ↔
      biosRsdps mem = ∅ ∨
        ∀ addr, IsLeast (biosSignatures mem) addr → checksum mem addr 20 = 0 := by
  constructor
  · rintro ⟨-, hnone⟩
    by_cases hempty : biosRsdps mem = ∅
    · exact Or.inl hempty
    · right
      intro addr hleast
      obtain ⟨found, hfound⟩ := Option.ne_none_iff_exists'.mp (mt hnone.mp hempty)
      obtain ⟨hlowest, hsum⟩ := acpiFindRsdp_eq_some.mp hfound
      rw [hleast.unique hlowest]
      exact hsum
  · intro hcond
    -- If there is a root pointer, the search returns the lowest signature, which is one.
    have hfinds : ∀ addr, acpiFindRsdp mem = some addr ↔ IsLeast (biosRsdps mem) addr := by
      intro addr
      rw [acpiFindRsdp_eq_some]
      constructor
      · rintro ⟨⟨⟨hbios, hsigned⟩, hleast⟩, hsum⟩
        exact ⟨⟨hbios, hsigned, hsum⟩, fun b hb => hleast (biosRsdps_subset hb)⟩
      · intro hlowest
        obtain ⟨first, hfirst⟩ := exists_isLeast_signature ⟨addr, biosRsdps_subset hlowest.1⟩
        rcases hcond with hempty | hsum
        · have hmem := hlowest.1
          rw [hempty] at hmem
          exact absurd hmem (Set.notMem_empty addr)
        · have hvalid : first ∈ biosRsdps mem := ⟨hfirst.1.1, hfirst.1.2, hsum first hfirst⟩
          have heq : addr = first :=
            le_antisymm (hlowest.2 hvalid) (hfirst.2 (biosRsdps_subset hlowest.1))
          rw [heq]
          exact ⟨hfirst, hsum first hfirst⟩
    refine ⟨hfinds, ?_, ?_⟩
    · intro hnone
      by_contra hne
      obtain ⟨b, hb⟩ := Set.nonempty_iff_ne_empty.mpr hne
      obtain ⟨first, hfirst⟩ := exists_isLeast_signature ⟨b, biosRsdps_subset hb⟩
      rcases hcond with hempty | hsum
      · exact hne hempty
      · have hsome := acpiFindRsdp_eq_some.mpr ⟨hfirst, hsum first hfirst⟩
        rw [hnone] at hsome
        cases hsome
    · intro hempty
      by_contra hne
      obtain ⟨found, hfound⟩ := Option.ne_none_iff_exists'.mp hne
      have hmem := ((hfinds found).mp hfound).1
      rw [hempty] at hmem
      exact hmem

/-- A stray signature at the start of the area, and a root pointer 32 bytes above it. -/
def straySignature (addr : ℕ) : Byte :=
  if 0xE0000 ≤ addr ∧ addr < 0xE0008 then
    BitVec.ofNat 8 (acpiRsdpSignature >>> (8 * (addr - 0xE0000)))
  else if 0xE0020 ≤ addr ∧ addr < 0xE0028 then
    BitVec.ofNat 8 (acpiRsdpSignature >>> (8 * (addr - 0xE0020)))
  else if addr = 0xE0028 then 0xE1
  else 0

/-- The stray signature hides the root pointer. -/
theorem acpiFindRsdp_straySignature :
    ¬ FindsLowest straySignature (acpiFindRsdp straySignature) := by
  rintro ⟨-, hnone⟩
  have hfound : acpiFindRsdp straySignature = none := by decide +kernel
  have hvalid : ValidRsdp straySignature 0xE0020 := by
    unfold ValidRsdp Signed
    decide +kernel
  have hmem : 0xE0020 ∈ biosRsdps straySignature := ⟨by unfold BiosAddr; decide, hvalid⟩
  rw [hnone.mp hfound] at hmem
  exact hmem

end Smor.Acpi
