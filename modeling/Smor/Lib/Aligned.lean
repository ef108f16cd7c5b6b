import Mathlib.Algebra.Order.Group.Nat
import Mathlib.Order.CompletePartialOrder
import Mathlib.Order.Interval.Set.Disjoint

/-!
# Aligned blocks

Memory is divided into blocks of one size that start at the multiples of the size. A block is known
by any address in it.
-/

namespace Smor.Lib

variable {d x y b : ℕ}

/-- Aligned blocks of one size are equal or apart. -/
theorem disjoint_of_aligned (hx : d ∣ x) (hy : d ∣ y) (hne : x ≠ y) :
    Disjoint (Set.Ico x (x + d)) (Set.Ico y (y + d)) := by
  obtain ⟨q, rfl⟩ := hx
  obtain ⟨q', rfl⟩ := hy
  rw [Set.Ico_disjoint_Ico]
  rcases Nat.lt_or_gt_of_ne (fun h : q = q' => hne (h ▸ rfl)) with hlt | hlt
  · have hle := Nat.mul_le_mul_left d (Nat.succ_le_of_lt hlt)
    rw [Nat.mul_succ] at hle
    omega
  · have hle := Nat.mul_le_mul_left d (Nat.succ_le_of_lt hlt)
    rw [Nat.mul_succ] at hle
    omega

/-- Aligned blocks of one size with a byte in common are the same. -/
theorem eq_of_aligned (hx : d ∣ x) (hy : d ∣ y) (hxb : x ≤ b ∧ b < x + d)
    (hyb : y ≤ b ∧ b < y + d) : x = y := by
  by_contra hne
  exact Set.disjoint_left.mp (disjoint_of_aligned hx hy hne) hxb hyb

end Smor.Lib
