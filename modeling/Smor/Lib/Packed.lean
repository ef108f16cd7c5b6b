import Smor.Lib.Bytes
import Mathlib.Algebra.Ring.Nat

/-!
# Packed records in memory

A packed record is a number of fields in memory, one behind the other, each a number of some bytes.
Writing a record and reading its fields again gives the values as far as they fit, and other bytes
are as before.
-/

namespace Smor.Lib

/-- The memory with the fields of a record, given by their sizes and values. -/
def putFields (mem : ℕ → BitVec 8) (a : ℕ) : List (ℕ × ℕ) → ℕ → BitVec 8
  | [] => mem
  | (size, v) :: fields => putFields (putNumber mem (a + ·) v size) (a + size) fields

/-- The fields of a record, given by their sizes. -/
def fieldsAt (mem : ℕ → BitVec 8) (a : ℕ) : List ℕ → List ℕ
  | [] => []
  | size :: sizes => number mem (a + ·) size :: fieldsAt mem (a + size) sizes

variable {mem mem' : ℕ → BitVec 8} {a k : ℕ}

/-- Bytes outside of the record. -/
theorem putFields_outside {fields : List (ℕ × ℕ)}
    (h : k < a ∨ a + (fields.map Prod.fst).sum ≤ k) : putFields mem a fields k = mem k := by
  induction fields generalizing mem a with
  | nil => rfl
  | cons f fields ih =>
    obtain ⟨size, v⟩ := f
    simp only [List.map_cons, List.sum_cons] at h
    rw [putFields, ih (by omega)]
    exact putNumber_of_ne fun i hi => by omega

/-- The fields depend on the bytes of the record. -/
theorem fieldsAt_congr {sizes : List ℕ}
    (h : ∀ k, a ≤ k → k < a + sizes.sum → mem' k = mem k) :
    fieldsAt mem' a sizes = fieldsAt mem a sizes := by
  induction sizes generalizing a with
  | nil => rfl
  | cons size sizes ih =>
    simp only [List.sum_cons] at h
    rw [fieldsAt, fieldsAt, ih fun k hlow hhigh => h k (by omega) (by omega)]
    congr 1
    exact number_congr fun i hi => h (a + i) (by omega) (by omega)

/-- The fields of a record that has been written. -/
theorem fieldsAt_putFields (mem : ℕ → BitVec 8) (a : ℕ) (fields : List (ℕ × ℕ)) :
    fieldsAt (putFields mem a fields) a (fields.map Prod.fst) =
      fields.map fun f => f.2 % 256 ^ f.1 := by
  induction fields generalizing mem a with
  | nil => rfl
  | cons f fields ih =>
    obtain ⟨size, v⟩ := f
    -- the later fields are behind the first one
    have hfirst : number (putFields (putNumber mem (a + ·) v size) (a + size) fields) (a + ·) size =
        v % 256 ^ size := by
      have hinj : ∀ i < size, ∀ j < size, a + i = a + j → i = j :=
        fun i _ j _ heq => Nat.add_left_cancel heq
      have hread : number (putNumber mem (a + ·) v size) (a + ·) size = v % 256 ^ size :=
        number_putNumber hinj
      rw [← hread]
      exact number_congr fun i hi => putFields_outside (Or.inl (by omega))
    rw [List.map_cons, List.map_cons, fieldsAt, putFields, hfirst, ih]

end Smor.Lib
