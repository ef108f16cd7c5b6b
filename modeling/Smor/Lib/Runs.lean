import Mathlib.Logic.Relation
import Mathlib.Tactic.SplitIfs

/-!
# Runs of a guarded partial step function

A component is driven by operations. An operation may be refused by its caller's
obligations, stated by `guard`, and it may stop the system, in which case `step`
returns `none`. `Reaches` collects the states after finitely many operations that
are allowed and complete, and `Reaches.invariant` is the induction rule for them. For a given list
of operations, `AllStates` and `AllSteps` say what holds in every state and at every operation.
`foldlM_refines` compares the runs of two systems.
-/

namespace Smor.Lib

variable {σ ο : Type*}

/-- States reached by finitely many allowed operations, none of which stops the system. -/
def Reaches (step : σ → ο → Option σ) (guard : σ → ο → Prop) : σ → σ → Prop :=
  Relation.ReflTransGen fun s t => ∃ o, guard s o ∧ step s o = some t

/-- A run of no operations. -/
theorem Reaches.refl {step : σ → ο → Option σ} {guard : σ → ο → Prop} (s : σ) :
    Reaches step guard s s := Relation.ReflTransGen.refl

/-- A run can be continued by one more allowed operation. -/
theorem Reaches.tail {step : σ → ο → Option σ} {guard : σ → ο → Prop} {s t u : σ} {o : ο}
    (h : Reaches step guard s t) (hguard : guard t o) (hstep : step t o = some u) :
    Reaches step guard s u :=
  Relation.ReflTransGen.tail h ⟨o, hguard, hstep⟩

/-- What holds initially and survives every allowed operation holds in every reached state. -/
theorem Reaches.invariant {step : σ → ο → Option σ} {guard : σ → ο → Prop} {I : σ → Prop}
    {s t : σ} (h : Reaches step guard s t) (hinit : I s)
    (hstep : ∀ s o t, I s → guard s o → step s o = some t → I t) : I t := by
  induction h with
  | refl => exact hinit
  | tail _ hlast ih =>
    obtain ⟨o, hguard, ho⟩ := hlast
    exact hstep _ o _ ih hguard ho

/-- The state after a list of operations, or `none` at the first one that is not allowed or
stops the system. -/
def runOps (step : σ → ο → Option σ) (guard : σ → ο → Prop) [∀ s o, Decidable (guard s o)] :
    σ → List ο → Option σ
  | s, [] => some s
  | s, o :: os => if guard s o then (step s o).bind fun t => runOps step guard t os else none

/-- A run that is carried out reaches its last state. -/
theorem Reaches.of_runOps {step : σ → ο → Option σ} {guard : σ → ο → Prop}
    [∀ s o, Decidable (guard s o)] {s t : σ} {os : List ο}
    (h : runOps step guard s os = some t) : Reaches step guard s t := by
  induction os generalizing s with
  | nil =>
    rw [runOps, Option.some.injEq] at h
    exact h ▸ Reaches.refl s
  | cons o os ih =>
    rw [runOps] at h
    split_ifs at h with hguard
    obtain ⟨u, hstep, hrest⟩ := Option.bind_eq_some_iff.mp h
    exact Relation.ReflTransGen.head ⟨o, hguard, hstep⟩ (ih hrest)

/-- If every step of an abstract system is matched by a concrete one, then so is every run. -/
theorem foldlM_refines {τ : Type*} {concrete : σ → ο → Option σ} {abstract : τ → ο → Option τ}
    {R : σ → τ → Prop}
    (hstep : ∀ s x o y, R s x → abstract x o = some y → ∃ t, concrete s o = some t ∧ R t y)
    {s : σ} {x y : τ} {os : List ο} (h : R s x) (hrun : os.foldlM abstract x = some y) :
    ∃ t, os.foldlM concrete s = some t ∧ R t y := by
  induction os generalizing s x with
  | nil =>
    obtain rfl := Option.some.inj hrun
    exact ⟨s, rfl, h⟩
  | cons o os ih =>
    obtain ⟨z, hz, hrest⟩ := Option.bind_eq_some_iff.mp hrun
    obtain ⟨u, hu, hzu⟩ := hstep s x o z h hz
    obtain ⟨t, ht, hty⟩ := ih hzu hrest
    refine ⟨t, ?_, hty⟩
    rw [List.foldlM_cons, hu]
    exact ht

section Histories

variable {step : σ → ο → Option σ}

/-- A property of every state of a run, up to the operation that stops the system if there is one. -/
def AllStates (step : σ → ο → Option σ) (I : σ → Prop) : σ → List ο → Prop
  | s, [] => I s
  | s, o :: os => I s ∧ ∀ t ∈ step s o, AllStates step I t os

/-- A property of every operation of a run and of the state before it. -/
def AllSteps (step : σ → ο → Option σ) (P : σ → ο → Prop) : σ → List ο → Prop
  | _, [] => True
  | s, o :: os => P s o ∧ ∀ t ∈ step s o, AllSteps step P t os

instance AllSteps.decidable {P : σ → ο → Prop} [∀ s o, Decidable (P s o)] :
    ∀ (s : σ) (os : List ο), Decidable (AllSteps step P s os)
  | _, [] => inferInstanceAs (Decidable True)
  | s, o :: os =>
    have : DecidablePred fun t => AllSteps step P t os := fun t => AllSteps.decidable t os
    inferInstanceAs (Decidable (P s o ∧ ∀ t ∈ step s o, AllSteps step P t os))

theorem AllStates.head {I : σ → Prop} {s : σ} {os : List ο} (h : AllStates step I s os) : I s := by
  cases os with
  | nil => exact h
  | cons => exact h.1

theorem allStates_cons {I : σ → Prop} {s t : σ} {o : ο} {os : List ο} (h : step s o = some t) :
    AllStates step I s (o :: os) ↔ I s ∧ AllStates step I t os := by
  simp only [AllStates, h, Option.mem_some_iff, forall_eq']

theorem allSteps_cons {P : σ → ο → Prop} {s t : σ} {o : ο} {os : List ο} (h : step s o = some t) :
    AllSteps step P s (o :: os) ↔ P s o ∧ AllSteps step P t os := by
  simp only [AllSteps, h, Option.mem_some_iff, forall_eq']

/-- A run is good in every state exactly if all its operations meet a condition: those that do keep
an invariant that implies what is good, and one that does not spoils the state after it. -/
theorem allStates_iff_allSteps {I good : σ → Prop} {guard P : σ → ο → Prop}
    (hgood : ∀ s, I s → good s)
    (hkeep : ∀ s o t, I s → guard s o → P s o → step s o = some t → I t)
    (hspoil : ∀ s o, I s → guard s o → ¬ P s o → ∃ t, step s o = some t ∧ ¬ good t)
    {s : σ} {os : List ο} (hs : I s) (hguard : AllSteps step guard s os) :
    AllStates step good s os ↔ AllSteps step P s os := by
  induction os generalizing s with
  | nil => exact iff_of_true (hgood s hs) trivial
  | cons o os ih =>
    obtain ⟨ho, hrest⟩ := hguard
    by_cases hP : P s o
    · have htail : ∀ t ∈ step s o, AllStates step good t os ↔ AllSteps step P t os :=
        fun t ht => ih (hkeep s o t hs ho hP ht) (hrest t ht)
      constructor
      · rintro ⟨-, hall⟩
        exact ⟨hP, fun t ht => (htail t ht).mp (hall t ht)⟩
      · rintro ⟨-, hall⟩
        exact ⟨hgood s hs, fun t ht => (htail t ht).mpr (hall t ht)⟩
    · obtain ⟨t, ht, hbad⟩ := hspoil s o hs ho hP
      constructor
      · rintro ⟨-, hall⟩
        exact absurd (hall t ht).head hbad
      · rintro ⟨hcontra, -⟩
        exact absurd hcontra hP

end Histories

end Smor.Lib
