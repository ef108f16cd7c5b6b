import Mathlib.Tactic.ByContra

/-!
# Writes to a memory

A write gives new contents to some cells of a memory. The contents of a cell after a list of
writes are those of the last write that touches it; where all the writes that touch a cell
agree about it, their order does not matter.
-/

namespace Smor.Lib

variable {κ β : Type*}

/-- A write, by the new contents of the cells that it touches. -/
abbrev Write (κ β : Type*) := κ → Option β

/-- The memory after a write. -/
def applyWrite (mem : κ → β) (w : Write κ β) : κ → β := fun k => (w k).getD (mem k)

/-- The memory after a list of writes. -/
def applyWrites (mem : κ → β) (ws : List (Write κ β)) : κ → β := ws.foldl applyWrite mem

@[simp] theorem applyWrites_nil (mem : κ → β) : applyWrites mem [] = mem := rfl

@[simp] theorem applyWrites_cons (mem : κ → β) (w : Write κ β) (ws : List (Write κ β)) :
    applyWrites mem (w :: ws) = applyWrites (applyWrite mem w) ws := rfl

/-- A cell that no write touches is as before. -/
theorem applyWrites_untouched {ws : List (Write κ β)} {k : κ} (h : ∀ w ∈ ws, w k = none)
    (mem : κ → β) : applyWrites mem ws k = mem k := by
  induction ws generalizing mem with
  | nil => rfl
  | cons w ws ih =>
    obtain ⟨hfirst, hrest⟩ := List.forall_mem_cons.mp h
    rw [applyWrites_cons, ih hrest, applyWrite, hfirst]
    rfl

/-- A cell that is touched has the contents that all writes to it agree about. -/
theorem applyWrites_touched {ws : List (Write κ β)} {k : κ} {b : β}
    (hagree : ∀ w ∈ ws, w k = none ∨ w k = some b) (htouched : ∃ w ∈ ws, w k ≠ none)
    (mem : κ → β) : applyWrites mem ws k = b := by
  induction ws generalizing mem with
  | nil =>
    obtain ⟨w, hw, -⟩ := htouched
    cases hw
  | cons w ws ih =>
    obtain ⟨hfirst, hrest⟩ := List.forall_mem_cons.mp hagree
    rw [applyWrites_cons]
    by_cases hlater : ∃ w ∈ ws, w k ≠ none
    · exact ih hrest hlater _
    · have hnone : ∀ w ∈ ws, w k = none := by
        intro w hw
        by_contra hne
        exact hlater ⟨w, hw, hne⟩
      rw [applyWrites_untouched hnone, applyWrite]
      obtain ⟨w', hw', hne⟩ := htouched
      rcases List.mem_cons.mp hw' with rfl | hw'
      · rcases hfirst with hfirst | hfirst
        · exact absurd hfirst hne
        · rw [hfirst]
          rfl
      · exact absurd (hnone w' hw') hne

end Smor.Lib
