import Mathlib.Data.Set.Insert

/-!
# Resources that are in one place at a time

The resources that have been handed out are spread over places: a stock, the hands of the parties
that pass them on, the containers they are part of. `Custody` says that every resource that is out
is in exactly one place and that no other resource is in any. A resource that comes out goes to
one place, moves between places, and leaves from the place where it is.
-/

namespace Smor.Lib

variable {ρ π : Type*} {out out' : Set ρ} {place place' : π → Set ρ} {p q : π} {r : ρ}

/-- What is out is in one place. -/
structure Custody (out : Set ρ) (place : π → Set ρ) : Prop where
  /-- What is out is somewhere, and what is somewhere is out. -/
  cover : ∀ r, r ∈ out ↔ ∃ p, r ∈ place p
  /-- Nothing is in two places. -/
  unique : ∀ p q r, r ∈ place p → r ∈ place q → p = q

namespace Custody

theorem mem_out (h : Custody out place) (hr : r ∈ place p) : r ∈ out := (h.cover r).mpr ⟨p, hr⟩

theorem notMem_of_ne (h : Custody out place) (hr : r ∈ place p) (hne : q ≠ p) : r ∉ place q :=
  fun hmem => hne (h.unique q p r hmem hr)

theorem congr (h : Custody out place) (hout : ∀ r, r ∈ out' ↔ r ∈ out)
    (hplace : ∀ p r, r ∈ place' p ↔ r ∈ place p) : Custody out' place' := by
  obtain rfl : out' = out := Set.ext hout
  obtain rfl : place' = place := funext fun p => Set.ext (hplace p)
  exact h

/-- A resource comes out. -/
theorem enter (h : Custody out place) (hr : r ∉ out) (hout : ∀ r', r' ∈ out' ↔ r' ∈ out ∨ r' = r)
    (hplace : ∀ q r', r' ∈ place' q ↔ r' ∈ place q ∨ (q = p ∧ r' = r)) : Custody out' place' := by
  have hnone : ∀ q, r ∉ place q := fun q hmem => hr (h.mem_out hmem)
  constructor
  · intro r'
    rw [hout, h.cover]
    constructor
    · rintro (⟨q, hq⟩ | rfl)
      · exact ⟨q, (hplace q r').mpr (Or.inl hq)⟩
      · exact ⟨p, (hplace p r').mpr (Or.inr ⟨rfl, rfl⟩)⟩
    · rintro ⟨q, hq⟩
      rcases (hplace q r').mp hq with hq | ⟨-, rfl⟩
      · exact Or.inl ⟨q, hq⟩
      · exact Or.inr rfl
  · intro q₁ q₂ r' h₁ h₂
    rcases (hplace q₁ r').mp h₁ with h₁ | ⟨rfl, rfl⟩ <;>
    rcases (hplace q₂ r').mp h₂ with h₂ | ⟨rfl, heq⟩
    · exact h.unique q₁ q₂ r' h₁ h₂
    · exact absurd (heq ▸ h₁) (hnone q₁)
    · exact absurd h₂ (hnone q₂)
    · rfl

/-- A resource goes back. -/
theorem leave (h : Custody out place) (hr : r ∈ place p)
    (hout : ∀ r', r' ∈ out' ↔ r' ∈ out ∧ r' ≠ r)
    (hplace : ∀ q r', r' ∈ place' q ↔ r' ∈ place q ∧ (q = p → r' ≠ r)) : Custody out' place' := by
  constructor
  · intro r'
    rw [hout, h.cover]
    constructor
    · rintro ⟨⟨q, hq⟩, hne⟩
      exact ⟨q, (hplace q r').mpr ⟨hq, fun _ => hne⟩⟩
    · rintro ⟨q, hq⟩
      obtain ⟨hq, hne⟩ := (hplace q r').mp hq
      refine ⟨⟨q, hq⟩, ?_⟩
      rintro rfl
      exact hne (h.unique q p r' hq hr) rfl
  · intro q₁ q₂ r' h₁ h₂
    exact h.unique q₁ q₂ r' ((hplace q₁ r').mp h₁).1 ((hplace q₂ r').mp h₂).1

/-- A resource moves to another place. -/
theorem move (h : Custody out place) (hr : r ∈ place p)
    (hplace : ∀ q' r', r' ∈ place' q' ↔
      (r' ∈ place q' ∧ (q' = p → r' ≠ r)) ∨ (q' = q ∧ r' = r)) : Custody out place' := by
  have hgone : Custody {r' | r' ∈ out ∧ r' ≠ r} fun q' => {r' | r' ∈ place q' ∧ (q' = p → r' ≠ r)} :=
    h.leave hr (fun _ => Iff.rfl) fun _ _ => Iff.rfl
  refine hgone.enter (fun hmem => hmem.2 rfl) (fun r' => ?_) hplace
  by_cases heq : r' = r
  · exact iff_of_true (heq ▸ h.mem_out hr) (Or.inr heq)
  · rw [or_iff_left heq]
    exact (and_iff_left heq).symm

end Custody

end Smor.Lib
