import Mathlib.Data.Nat.Notation
import Mathlib.Tactic.TypeStar

/-!
# Words

The words of a list are its maximal non-empty runs without the separator. They are found by
splitting at every separator and dropping what is empty, so separators at the ends and repeated
ones do not count.
-/

namespace Smor.Lib

variable {α : Type*} [DecidableEq α] {sep : α}

/-- The maximal non-empty runs of `l` without `sep`. -/
def words (sep : α) (l : List α) : List (List α) := (l.splitOn sep).filter (!·.isEmpty)

@[simp] theorem words_nil : words sep ([] : List α) = [] := by
  simp [words]

/-- A separator splits the words. -/
theorem words_append_sep (l₁ l₂ : List α) :
    words sep (l₁ ++ sep :: l₂) = words sep l₁ ++ words sep l₂ := by
  rw [words, List.splitOn_append_cons_self, List.filter_append, ← words, ← words]

@[simp] theorem words_sep_cons (l : List α) : words sep (sep :: l) = words sep l := by
  rw [← List.nil_append (sep :: l), words_append_sep, words_nil, List.nil_append]

theorem words_replicate_append (k : ℕ) (l : List α) :
    words sep (List.replicate k sep ++ l) = words sep l := by
  induction k with
  | zero => rfl
  | succ k ih => rw [List.replicate_succ, List.cons_append, words_sep_cons, ih]

theorem words_eq_singleton {w : List α} (hw : w ≠ []) (hsep : sep ∉ w) : words sep w = [w] := by
  rw [words, List.splitOn_eq_singleton hsep]
  simp [hw]

/-- The word at the front of a list that goes on with a separator, or ends there. -/
theorem words_word_append {w l : List α} (hw : w ≠ []) (hsep : sep ∉ w)
    (hl : l = [] ∨ ∃ l', l = sep :: l') : words sep (w ++ l) = w :: words sep l := by
  obtain rfl | ⟨l', rfl⟩ := hl
  · rw [List.append_nil, words_eq_singleton hw hsep, words_nil]
  · rw [words_append_sep, words_eq_singleton hw hsep, words_sep_cons, List.singleton_append]

/-- The pieces between separators and the separators make up the list. -/
theorem length_splitOn (sep : α) (l : List α) :
    (l.splitOn sep).flatten.length + (l.splitOn sep).length = l.length + 1 := by
  induction l with
  | nil => simp
  | cons x l ih =>
    rw [List.splitOn_cons_eq_if_modifyHead]
    split
    · simp only [List.flatten_cons, List.nil_append, List.length_cons]
      omega
    · cases hpieces : l.splitOn sep with
      | nil => exact absurd hpieces (List.splitOn_ne_nil sep l)
      | cons piece pieces =>
        simp only [hpieces, List.flatten_cons, List.length_append, List.length_cons] at ih
        simp only [List.modifyHead_cons, List.flatten_cons, List.length_append, List.length_cons]
        omega

/-- Each word takes a place of its own and, but for the first one, a separator. -/
theorem length_words_le (l : List α) : 2 * (words sep l).length ≤ l.length + 1 := by
  have hpieces (pieces : List (List α)) :
      2 * (pieces.filter (!·.isEmpty)).length ≤ pieces.flatten.length + pieces.length := by
    induction pieces with
    | nil => simp
    | cons piece pieces ih =>
      rw [List.flatten_cons, List.length_append, List.length_cons, List.filter_cons]
      cases piece with
      | nil =>
        simp only [List.isEmpty_nil, Bool.not_true, Bool.false_eq_true, if_false, List.length_nil]
        omega
      | cons c piece =>
        simp only [List.isEmpty_cons, Bool.not_false, if_true, List.length_cons]
        omega
  rw [← length_splitOn sep l]
  exact hpieces _

end Smor.Lib
