import Mathlib.Data.List.Induction
import Mathlib.Tactic.TypeStar

/-!
# What was set last

Operations set a value or leave it alone. `latest` is the value of the last operation of a list that
sets it, and a part of a state that every operation sets so or keeps holds it at the end of a run.
-/

namespace Smor.Lib

variable {σ ο α β : Type*}

/-- The last value that one of the operations sets. -/
def latest (sets : ο → Option α) (os : List ο) : Option α := (os.filterMap sets).getLast?

@[simp] theorem latest_nil (sets : ο → Option α) : latest sets [] = none := rfl

/-- One more operation. -/
theorem latest_concat (sets : ο → Option α) (os : List ο) (o : ο) :
    latest sets (os ++ [o]) = (sets o).or (latest sets os) := by
  rw [latest, latest, List.filterMap_append, List.filterMap_cons, List.filterMap_nil]
  cases sets o with
  | none => simp
  | some a => simp

/-- The value through a function. -/
theorem latest_map (sets : ο → Option α) (f : α → β) (os : List ο) :
    latest (fun o => (sets o).map f) os = (latest sets os).map f := by
  rw [latest, latest, ← List.map_filterMap, List.getLast?_map]

/-- The value has been set by one of the operations. -/
theorem exists_of_latest {sets : ο → Option α} {os : List ο} {a : α} (h : latest sets os = some a) :
    ∃ o ∈ os, sets o = some a :=
  List.mem_filterMap.mp (List.mem_of_getLast? h)

/-- A value has been set. -/
theorem latest_isSome {sets : ο → Option α} {os : List ο} :
    (latest sets os).isSome ↔ ∃ o ∈ os, (sets o).isSome := by
  constructor
  · intro h
    obtain ⟨a, ha⟩ := Option.isSome_iff_exists.mp h
    obtain ⟨o, ho, hset⟩ := exists_of_latest ha
    exact ⟨o, ho, by rw [hset]; rfl⟩
  · rintro ⟨o, ho, hset⟩
    obtain ⟨a, ha⟩ := Option.isSome_iff_exists.mp hset
    have hmem : a ∈ os.filterMap sets := List.mem_filterMap.mpr ⟨o, ho, ha⟩
    rw [latest, List.getLast?_isSome]
    exact List.ne_nil_of_mem hmem

/-- A part of the state that every operation of a run sets or keeps. -/
theorem view_of_foldlM {step : σ → ο → Option σ} (view : σ → α) {sets : ο → Option α} {s t : σ}
    {os : List ο}
    (hstep : ∀ done o ahead u v, os = done ++ o :: ahead → done.foldlM step s = some u →
      step u o = some v → view v = (sets o).getD (view u))
    (hrun : os.foldlM step s = some t) : view t = (latest sets os).getD (view s) := by
  induction os using List.reverseRecOn generalizing t with
  | nil =>
    obtain rfl : s = t := by simpa using hrun
    rfl
  | append_singleton os o ih =>
    rw [List.foldlM_append] at hrun
    obtain ⟨u, hfirst, hlast⟩ := Option.bind_eq_some_iff.mp hrun
    have ho : step u o = some t := by simpa using hlast
    have hview := ih (fun done o' ahead u v heq => hstep done o' (ahead ++ [o]) u v (by simp [heq]))
      hfirst
    rw [hstep os o [] u t rfl hfirst ho, hview, latest_concat]
    cases sets o with
    | none => rfl
    | some a => rfl

end Smor.Lib
