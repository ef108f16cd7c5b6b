import Mathlib.Algebra.Group.Int.Defs
import Mathlib.Algebra.Group.Nat.Defs
import Mathlib.Data.Int.Notation
import Mathlib.Data.Nat.Notation

/-!
# Machine words and page arithmetic

Unsigned C integers are natural numbers, with the conversion to a fixed width
written where a value is stored or an operation can wrap. The conversions are
irreducible: unfolding one under a large constant would count in unary. The page macros of
`vm_page.h` follow; clearing the low bits of an address is written as a division
followed by the multiplication that undoes it.
-/

namespace Smor

/-- Conversion to `uint16_t`. -/
@[irreducible] def u16 (x : ℕ) : ℕ := x % 2 ^ 16

/-- A value that fits in 16 bits is kept. -/
theorem u16_of_lt {x : ℕ} (hx : x < 2 ^ 16) : u16 x = x := by
  unfold u16
  omega

/-- Conversion to `uint32_t`. -/
@[irreducible] def u32 (x : ℕ) : ℕ := x % 2 ^ 32

/-- A value that fits in 32 bits is kept. -/
theorem u32_of_lt {x : ℕ} (hx : x < 2 ^ 32) : u32 x = x := by
  unfold u32
  omega

/-- Conversion to `uint64_t` (also `uintptr_t`). -/
@[irreducible] def u64 (x : ℕ) : ℕ := x % 2 ^ 64

/-- A value that fits in 64 bits is kept. -/
theorem u64_of_lt {x : ℕ} (hx : x < 2 ^ 64) : u64 x = x := by
  unfold u64
  omega

/-- Conversion to `int`, as the compiler's two's complement wraps it. -/
@[irreducible] def i32 (x : ℤ) : ℤ := Int.bmod x (2 ^ 32)

/-- A value that fits in an `int` is kept. -/
theorem i32_of_range {x : ℤ} (hmin : -2 ^ 31 ≤ x) (hmax : x < 2 ^ 31) : i32 x = x := by
  unfold i32
  rw [Int.bmod_def]
  split <;> omega

/-- A value that fits in an `unsigned int` only becomes negative. -/
theorem i32_of_wrap {x : ℤ} (hmin : 2 ^ 31 ≤ x) (hmax : x < 2 ^ 32) : i32 x = x - 2 ^ 32 := by
  unfold i32
  rw [Int.bmod_def]
  split <;> omega

/-- The values of an `int`. -/
theorem i32_range (x : ℤ) : -2 ^ 31 ≤ i32 x ∧ i32 x < 2 ^ 31 := by
  unfold i32
  rw [Int.bmod_def]
  split <;> omega

/-- Two subtractions wrap like one. -/
theorem i32_sub (x y : ℤ) : i32 (i32 x - y) = i32 (x - y) := by
  unfold i32
  exact Int.bmod_sub_bmod

/-- Conversion to `int64_t`. -/
@[irreducible] def i64 (x : ℤ) : ℤ := Int.bmod x (2 ^ 64)

/-- The values of an `int64_t`. -/
theorem i64_range (x : ℤ) : -2 ^ 63 ≤ i64 x ∧ i64 x < 2 ^ 63 := by
  unfold i64
  rw [Int.bmod_def]
  split <;> omega

/-- The bits of a value are kept. -/
theorem i64_emod (x : ℤ) : i64 x % 2 ^ 64 = x % 2 ^ 64 := by
  unfold i64
  exact Int.bmod_emod

/-- The decrement of a `uint32_t`. -/
def u32Pred (x : ℕ) : ℕ := if x = 0 then 2 ^ 32 - 1 else x - 1

/-- `PAGE_4K_SHIFT`. -/
def page4kShift : ℕ := 12

/-- `PAGE_4K_SIZE`. -/
def page4kSize : ℕ := 2 ^ page4kShift

/-- `PAGE_2M_SHIFT`. -/
def page2mShift : ℕ := 21

/-- `PAGE_2M_SIZE`. -/
def page2mSize : ℕ := 2 ^ page2mShift

/-- `PAGE_2M_NUM(x)`: the number of 2MB pages that cover `x` bytes. -/
def page2mNum (x : ℕ) : ℕ := u64 (x + (page2mSize - 1)) >>> page2mShift

/-- `PAGE_4K_ROUND(x)`: `x` rounded up to whole 4K pages. -/
def page4kRound (x : ℕ) : ℕ := u64 (x + (page4kSize - 1)) / page4kSize * page4kSize

end Smor
