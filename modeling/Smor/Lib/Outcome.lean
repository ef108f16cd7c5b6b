import Mathlib.Init

/-!
# Fallible computations

The rules for `Except`: when a sequence of two computations succeeds, and postconditions that also
say which failures can happen.
-/

namespace Smor.Lib

universe u v

variable {ε : Type u} {α β : Type v}

@[simp] theorem ok_bind (a : α) (f : α → Except ε β) : Except.ok a >>= f = f a := rfl

@[simp] theorem pure_eq_ok (a : α) : (pure a : Except ε α) = .ok a := rfl

/-- A sequence succeeds if both of its parts do. -/
theorem bind_eq_ok_iff {x : Except ε α} {f : α → Except ε β} {b : β} :
    x >>= f = .ok b ↔ ∃ a, x = .ok a ∧ f a = .ok b := by
  cases x with
  | error e =>
    constructor
    · intro h
      cases h
    · rintro ⟨a, h, -⟩
      cases h
  | ok a =>
    constructor
    · intro h
      exact ⟨a, rfl, h⟩
    · rintro ⟨a', h, hf⟩
      cases h
      exact hf

/-- The computation gives a value with `P`, or it fails in an allowed way. -/
def Meets (allowed : ε → Prop) (P : α → Prop) : Except ε α → Prop
  | .ok a => P a
  | .error e => allowed e

variable {allowed : ε → Prop} {P : α → Prop} {Q : β → Prop} {x : Except ε α}

theorem Meets.bind (hx : Meets allowed P x) {f : α → Except ε β}
    (hf : ∀ a, P a → Meets allowed Q (f a)) : Meets allowed Q (x >>= f) := by
  cases x with
  | error e => exact hx
  | ok a => exact hf a hx

theorem Meets.mono {P' : α → Prop} (hx : Meets allowed P x) (h : ∀ a, P a → P' a) :
    Meets allowed P' x := by
  cases x with
  | error e => exact hx
  | ok a => exact h a hx

/-- How a computation fails. -/
theorem Meets.of_error (hx : Meets allowed P x) {e : ε} (he : x = .error e) : allowed e := by
  rw [he] at hx
  exact hx

end Smor.Lib
