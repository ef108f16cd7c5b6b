import Smor.Lib.Accessing
import Mathlib.Algebra.Group.Nat.Defs
import Mathlib.Data.Nat.Notation

/-!
# Numbers in memory

A number takes several bytes, the lowest one first. The addresses of the bytes are given by a
function, so that the arithmetic of addresses is left to the program.
-/

namespace Smor.Lib

section Memory

variable {κ : Type*} (mem : κ → BitVec 8) (byte : ℕ → κ)

/-- The number in the first bytes. -/
def number : ℕ → ℕ
  | 0 => 0
  | n + 1 => number n + 256 ^ n * (mem (byte n)).toNat

/-- The number fits its bytes. -/
theorem number_lt (n : ℕ) : number mem byte n < 256 ^ n := by
  induction n with
  | zero => exact Nat.one_pos
  | succ n ih =>
    have hbyte : 256 ^ n * (mem (byte n)).toNat ≤ 256 ^ n * 255 :=
      Nat.mul_le_mul_left _ (by have := (mem (byte n)).isLt; omega)
    rw [number, Nat.pow_succ]
    omega

variable {mem byte}

/-- The number depends on its bytes only. -/
theorem number_congr {mem' : κ → BitVec 8} {n : ℕ}
    (h : ∀ i < n, mem' (byte i) = mem (byte i)) : number mem' byte n = number mem byte n := by
  induction n with
  | zero => rfl
  | succ n ih =>
    rw [number, number, ih fun i hi => h i (by omega), h n (by omega)]

variable [DecidableEq κ] (mem byte)

/-- The memory with a number written to the first bytes. -/
def putNumber (v : ℕ) : ℕ → κ → BitVec 8
  | 0 => mem
  | n + 1 => Function.update (putNumber v n) (byte n) (BitVec.ofNat 8 (v / 256 ^ n))

variable {mem byte} {v n : ℕ}

/-- The other cells keep their contents. -/
theorem putNumber_of_ne {k : κ} (h : ∀ i < n, byte i ≠ k) : putNumber mem byte v n k = mem k := by
  induction n with
  | zero => rfl
  | succ n ih =>
    rw [putNumber, Function.update_of_ne (h n (by omega)).symm]
    exact ih fun i hi => h i (by omega)

/-- The bytes that are written. -/
theorem putNumber_byte (hinj : ∀ i < n, ∀ j < n, byte i = byte j → i = j) {i : ℕ} (hi : i < n) :
    putNumber mem byte v n (byte i) = BitVec.ofNat 8 (v / 256 ^ i) := by
  induction n with
  | zero => omega
  | succ n ih =>
    rw [putNumber]
    by_cases hlast : i = n
    · rw [hlast, Function.update_self]
    · have hne : byte i ≠ byte n := fun heq => hlast (hinj i hi n (by omega) heq)
      rw [Function.update_of_ne hne]
      exact ih (fun i hi j hj => hinj i (by omega) j (by omega)) (by omega)

/-- The number that is written can be read again. -/
theorem number_putNumber (hinj : ∀ i < n, ∀ j < n, byte i = byte j → i = j) :
    number (putNumber mem byte v n) byte n = v % 256 ^ n := by
  -- The bytes of the number so far are read back, by induction on how many these are.
  have hpart : ∀ m ≤ n, number (putNumber mem byte v n) byte m = v % 256 ^ m := by
    intro m hm
    induction m with
    | zero => exact (Nat.mod_one v).symm
    | succ m ih =>
      have hstep : v % 256 ^ (m + 1) = v % 256 ^ m + 256 ^ m * (v / 256 ^ m % 256) :=
        Nat.mod_mul
      have hbyte : (BitVec.ofNat 8 (v / 256 ^ m)).toNat = v / 256 ^ m % 256 :=
        BitVec.toNat_ofNat _ 8
      rw [number, ih (by omega), putNumber_byte hinj hm, hbyte, hstep]
  exact hpart n (Nat.le_refl n)

end Memory

namespace Accessing

variable {ι κ ε : Type} (i : ι) (byte : ℕ → κ)

/-- Loads a number, byte by byte. -/
def loadNumber : ℕ → Accessing ι κ ε (BitVec 8) ℕ
  | 0 => .done 0
  | n + 1 => (loadNumber n).bind fun v =>
    .load i (byte n) fun b => .done (v + 256 ^ n * b.toNat)

/-- Stores a number, byte by byte. -/
def storeNumber (v : ℕ) : ℕ → Accessing ι κ ε (BitVec 8) Unit
  | 0 => .done ()
  | n + 1 => (storeNumber v n).bind fun _ =>
    .store (byte n) (BitVec.ofNat 8 (v / 256 ^ n)) (.done ())

variable {i byte} [DecidableEq κ] {canLoad : ι → κ → Prop} {canStore : κ → Prop}
  {mem : κ → BitVec 8}

/-- The rule for loading a number. -/
theorem holds_loadNumber {n : ℕ} {post : Except ε ℕ → (κ → BitVec 8) → Prop} :
    (loadNumber i byte n).Holds canLoad canStore post mem ↔
      (∀ j < n, canLoad i (byte j)) ∧ post (.ok (number mem byte n)) mem := by
  induction n generalizing post with
  | zero => simp [loadNumber, Holds, number]
  | succ n ih =>
    rw [loadNumber, holds_bind, ih, Nat.forall_lt_succ_right, and_assoc]
    rfl

/-- The rule for storing a number. -/
theorem holds_storeNumber {v n : ℕ} {post : Except ε Unit → (κ → BitVec 8) → Prop} :
    (storeNumber byte v n : Accessing ι κ ε (BitVec 8) Unit).Holds canLoad canStore post mem ↔
      (∀ j < n, canStore (byte j)) ∧ post (.ok ()) (putNumber mem byte v n) := by
  induction n generalizing post with
  | zero => simp [storeNumber, Holds, putNumber]
  | succ n ih =>
    rw [storeNumber, holds_bind, ih, Nat.forall_lt_succ_right, and_assoc]
    rfl

end Accessing

end Smor.Lib
