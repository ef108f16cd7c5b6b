import Mathlib.Data.Nat.Notation
import Mathlib.Logic.Function.Basic
import Mathlib.Tactic.TypeStar

/-!
# Flags that one party holds

A flag is 0 while nobody holds it and 1 while one party does. Parties take it by a
compare-and-swap from 0 to 1 and give it back by one from 1 to 0. `Held` connects the value of the
flag with who holds it; every step of a party that keeps to this leaves at most one holder.
Parties are in phases, and a phase says whether its party holds the flag. `HeldBy` is the same for
a family of flags, of which a party may hold several.
-/

namespace Smor.Lib

variable {ι φ : Type*} {flag : ℕ} {P P' : ι → Prop} {i j : ι}

/-- The flag is free and nobody has it, or it is taken and one party has it. -/
def Held (flag : ℕ) (P : ι → Prop) : Prop :=
  (flag = 0 ∧ ∀ i, ¬ P i) ∨ (flag = 1 ∧ ∃ i, P i ∧ ∀ j, P j → j = i)

namespace Held

/-- At most one party holds the flag. -/
theorem unique (h : Held flag P) (hi : P i) (hj : P j) : i = j := by
  rcases h with ⟨-, hnone⟩ | ⟨-, k, -, hall⟩
  · exact absurd hi (hnone i)
  · rw [hall i hi, hall j hj]

theorem eq_one (h : Held flag P) (hi : P i) : flag = 1 := by
  rcases h with ⟨-, hnone⟩ | ⟨hone, -⟩
  · exact absurd hi (hnone i)
  · exact hone

theorem eq_zero_or_one (h : Held flag P) : flag = 0 ∨ flag = 1 := h.imp And.left And.left

theorem congr (h : Held flag P) (hsame : ∀ j, P' j ↔ P j) : Held flag P' := by
  obtain rfl : P' = P := funext fun j => propext (hsame j)
  exact h

/-- A party takes the free flag. -/
theorem take (h : Held 0 P) (hnew : ∀ j, P' j ↔ P j ∨ j = i) : Held 1 P' := by
  rcases h with ⟨-, hnone⟩ | ⟨hone, -⟩
  · refine Or.inr ⟨rfl, i, (hnew i).mpr (Or.inr rfl), fun j hj => ?_⟩
    exact ((hnew j).mp hj).resolve_left (hnone j)
  · cases hone

/-- The holder gives the flag back. -/
theorem release (h : Held flag P) (hi : P i) (hnew : ∀ j, P' j ↔ P j ∧ j ≠ i) : Held 0 P' := by
  refine Or.inl ⟨rfl, fun j hj => ?_⟩
  obtain ⟨hj, hne⟩ := (hnew j).mp hj
  exact hne (h.unique hj hi)

end Held

section Phases

variable [DecidableEq ι] {phase : ι → φ} {next p : φ} {Q : φ → Prop}

/-- A party stays with what its phase says. -/
theorem update_phase_iff (h : Q next ↔ Q (phase i)) (j : ι) :
    Q (Function.update phase i next j) ↔ Q (phase j) := by
  by_cases heq : j = i
  · subst heq
    rw [Function.update_self]
    exact h
  · rw [Function.update_of_ne heq]

/-- A party enters. -/
theorem update_phase_enter (h : Q next) (j : ι) :
    Q (Function.update phase i next j) ↔ Q (phase j) ∨ j = i := by
  by_cases heq : j = i
  · subst heq
    rw [Function.update_self]
    exact iff_of_true h (Or.inr rfl)
  · rw [Function.update_of_ne heq]
    exact (or_iff_left heq).symm

/-- A party leaves. -/
theorem update_phase_leave (h : ¬ Q next) (j : ι) :
    Q (Function.update phase i next j) ↔ Q (phase j) ∧ j ≠ i := by
  by_cases heq : j = i
  · subst heq
    rw [Function.update_self]
    exact iff_of_false h fun hand => hand.2 rfl
  · rw [Function.update_of_ne heq]
    exact (and_iff_left heq).symm

/-- A party is in a phase: it has just entered it, or it was in it before. -/
theorem update_phase_cases (h : Function.update phase i next j = p) :
    (j = i ∧ next = p) ∨ (j ≠ i ∧ phase j = p) := by
  by_cases heq : j = i
  · subst heq
    rw [Function.update_self] at h
    exact Or.inl ⟨rfl, h⟩
  · rw [Function.update_of_ne heq] at h
    exact Or.inr ⟨heq, h⟩

end Phases

section Families

variable {κ : Type*} {holds : φ → κ → Prop} {flags : κ → ℕ} {phase : ι → φ} {next : φ} {k : κ}

/-- Every flag of a family is held by at most one party, and the phases say by which. -/
def HeldBy (holds : φ → κ → Prop) (flags : κ → ℕ) (phase : ι → φ) : Prop :=
  ∀ k, Held (flags k) fun i => holds (phase i) k

namespace HeldBy

variable [DecidableEq ι]

/-- A party stays with the flags it has. -/
theorem stay (h : HeldBy holds flags phase) (hsame : ∀ k, holds next k ↔ holds (phase i) k) :
    HeldBy holds flags (Function.update phase i next) := fun k =>
  (h k).congr (update_phase_iff (Q := fun p => holds p k) (hsame k))

variable [DecidableEq κ]

/-- A party takes a free flag. -/
theorem take (h : HeldBy holds flags phase) (hfree : flags k = 0)
    (hnew : ∀ k', holds next k' ↔ holds (phase i) k' ∨ k' = k) :
    HeldBy holds (Function.update flags k 1) (Function.update phase i next) := by
  intro k'
  by_cases heq : k' = k
  · subst heq
    rw [Function.update_self]
    have hheld := h k'
    rw [hfree] at hheld
    exact hheld.take (update_phase_enter (Q := fun p => holds p k')
      ((hnew k').mpr (Or.inr rfl)))
  · rw [Function.update_of_ne heq]
    refine (h k').congr (update_phase_iff (Q := fun p => holds p k') ?_)
    rw [hnew k', or_iff_left heq]

/-- A party gives back a flag that it has. -/
theorem release (h : HeldBy holds flags phase) (hheld : holds (phase i) k)
    (hnew : ∀ k', holds next k' ↔ holds (phase i) k' ∧ k' ≠ k) :
    HeldBy holds (Function.update flags k 0) (Function.update phase i next) := by
  intro k'
  by_cases heq : k' = k
  · subst heq
    rw [Function.update_self]
    refine (h k').release hheld (update_phase_leave (Q := fun p => holds p k') ?_)
    rw [hnew k']
    exact fun hboth => hboth.2 rfl
  · rw [Function.update_of_ne heq]
    refine (h k').congr (update_phase_iff (Q := fun p => holds p k') ?_)
    rw [hnew k', and_iff_left heq]

end HeldBy

end Families

end Smor.Lib
