import Smor.Lib.Chain
import Mathlib.Data.List.Range

/-!
# Loops that fill an array

An array is a function from indices, and a loop that stores one value for each of
a list of indices is a fold of updates. Its effect is read off index by index. The
second part is about loops that change what is there, and the last one says which
chain a loop leaves that links every entry to the next one.
-/

namespace Smor.Lib

/-- The result of a loop that stores `f i` at every listed index `i`. -/
theorem foldl_update_apply {ι α : Type*} [DecidableEq ι] (f : ι → α) (indices : List ι)
    (init : ι → α) (i : ι) :
    indices.foldl (fun g j => Function.update g j (f j)) init i =
      if i ∈ indices then f i else init i := by
  induction indices generalizing init with
  | nil => simp
  | cons j indices ih =>
    rw [List.foldl_cons, ih]
    by_cases hmem : i ∈ indices
    · simp [hmem]
    · by_cases hij : i = j
      · subst hij
        simp [hmem]
      · simp [hmem, hij]

section Changes

variable {ι α τ : Type*} [DecidableEq ι] {key : τ → ι} {change : τ → α → α}

/-- The result of a loop that changes one element after the other. -/
def foldChanges (key : τ → ι) (change : τ → α → α) (changes : List τ) (init : ι → α) : ι → α :=
  changes.foldl (fun g t => Function.update g (key t) (change t (g (key t)))) init

/-- A loop leaves the elements alone that it does not visit. -/
theorem foldChanges_other {changes : List τ} {i : ι} (h : ∀ t ∈ changes, key t ≠ i)
    (init : ι → α) : foldChanges key change changes init i = init i := by
  induction changes generalizing init with
  | nil => rfl
  | cons t changes ih =>
    obtain ⟨hne, hrest⟩ := List.forall_mem_cons.mp h
    have hloop := ih hrest (Function.update init (key t) (change t (init (key t))))
    rw [Function.update_of_ne hne.symm] at hloop
    exact hloop

/-- Changes of different elements leave an array as it was only if each of them does. -/
theorem foldChanges_eq_iff {changes : List τ} (h : (changes.map key).Nodup) {init : ι → α} :
    foldChanges key change changes init = init ↔
      ∀ t ∈ changes, change t (init (key t)) = init (key t) := by
  induction changes generalizing init with
  | nil => simp [foldChanges]
  | cons t changes ih =>
    rw [List.map_cons, List.nodup_cons] at h
    obtain ⟨hfirst, hrest⟩ := h
    have hother : ∀ t' ∈ changes, key t' ≠ key t := by
      intro t' ht' heq
      exact hfirst (heq ▸ List.mem_map_of_mem ht')
    have hstep : foldChanges key change (t :: changes) init =
        foldChanges key change changes (Function.update init (key t) (change t (init (key t)))) :=
      rfl
    rw [hstep, List.forall_mem_cons]
    by_cases hkeep : change t (init (key t)) = init (key t)
    · rw [hkeep, Function.update_eq_self, ih hrest]
      simp
    · constructor
      · intro hall
        -- No later change undoes the first one.
        have hat := congrFun hall (key t)
        rw [foldChanges_other hother, Function.update_self] at hat
        exact absurd hat hkeep
      · rintro ⟨hat, -⟩
        exact absurd hat hkeep

end Changes

/-- Entries that each name the next index form one ascending chain. -/
theorem chain_range' {next : ℕ → ℕ} {start length : ℕ} (hstart : 0 < start) (hlength : 0 < length)
    (hnext : ∀ i, start ≤ i → i + 1 < start + length → next i = i + 1)
    (hlast : next (start + length - 1) = 0) :
    Chain 0 next start (List.range' start length) := by
  induction length generalizing start with
  | zero => omega
  | succ length ih =>
    rw [List.range'_succ]
    refine chain_cons_iff.mpr ⟨rfl, by omega, ?_⟩
    rcases Nat.eq_zero_or_pos length with rfl | hpos
    · simpa using hlast
    · rw [hnext start le_rfl (by omega)]
      refine ih (by omega) hpos (fun i hi hbound => hnext i (by omega) (by omega)) ?_
      rwa [show start + 1 + length - 1 = start + (length + 1) - 1 by omega]

end Smor.Lib
