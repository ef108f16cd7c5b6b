import Mathlib.Logic.Function.Basic

/-!
# Computations that read and write memory

A computation loads and stores cells one after the other, and which cells these are depends on
what it has loaded. Every load is of a kind, which says what the cell is looked at for.
`Accessing.Holds` is the weakest precondition of a run under conditions on the cells that it
may load and store. It is determined step by step, and `Accessing.holds_iff` connects it with
the lists of cells that the run does load and store.
-/

namespace Smor.Lib

universe u

/-- A computation over cells of type `β` at addresses of type `κ`, with loads of the kinds `ι`.
It returns, or stops for a reason of type `ε`. -/
inductive Accessing (ι κ ε β α : Type u)
  | done (a : α)
  | stop (e : ε)
  | load (i : ι) (k : κ) (next : β → Accessing ι κ ε β α)
  | store (k : κ) (b : β) (next : Accessing ι κ ε β α)

namespace Accessing

variable {ι κ ε β α γ : Type u}

/-- One computation after the other. -/
def bind (x : Accessing ι κ ε β α) (f : α → Accessing ι κ ε β γ) : Accessing ι κ ε β γ :=
  match x with
  | done a => f a
  | stop e => .stop e
  | load i k next => .load i k fun b => (next b).bind f
  | store k b next => .store k b (next.bind f)

variable [DecidableEq κ]

/-- The result and the memory at the end. -/
def run : Accessing ι κ ε β α → (κ → β) → Except ε α × (κ → β)
  | done a, mem => (.ok a, mem)
  | stop e, mem => (.error e, mem)
  | load _ k next, mem => (next (mem k)).run mem
  | store k b next, mem => next.run (Function.update mem k b)

/-- The cells that are loaded, with the kinds of the loads. -/
def loads : Accessing ι κ ε β α → (κ → β) → List (ι × κ)
  | done _, _ => []
  | stop _, _ => []
  | load i k next, mem => (i, k) :: (next (mem k)).loads mem
  | store k b next, mem => next.loads (Function.update mem k b)

/-- The cells that are stored to. -/
def stores : Accessing ι κ ε β α → (κ → β) → List κ
  | done _, _ => []
  | stop _, _ => []
  | load _ k next, mem => (next (mem k)).stores mem
  | store k b next, mem => k :: next.stores (Function.update mem k b)

section Holds

variable (canLoad : ι → κ → Prop) (canStore : κ → Prop)

/-- All loads and stores of the run are allowed, and the result and the memory at the end are as
required. -/
def Holds (post : Except ε α → (κ → β) → Prop) : Accessing ι κ ε β α → (κ → β) → Prop
  | done a, mem => post (.ok a) mem
  | stop e, mem => post (.error e) mem
  | load i k next, mem => canLoad i k ∧ (next (mem k)).Holds post mem
  | store k b next, mem => canStore k ∧ next.Holds post (Function.update mem k b)

/-- What the first computation of a sequence must establish. -/
def Then (f : α → Accessing ι κ ε β γ) (post : Except ε γ → (κ → β) → Prop) :
    Except ε α → (κ → β) → Prop
  | .ok a, mem => (f a).Holds canLoad canStore post mem
  | .error e, mem => post (.error e) mem

end Holds

variable {canLoad : ι → κ → Prop} {canStore : κ → Prop} {post post' : Except ε α → (κ → β) → Prop}
  {mem : κ → β} {x : Accessing ι κ ε β α}

/-- The weakest precondition, in terms of what the run does as a whole. -/
theorem holds_iff :
    x.Holds canLoad canStore post mem ↔
      (∀ l ∈ x.loads mem, canLoad l.1 l.2) ∧ (∀ k ∈ x.stores mem, canStore k) ∧
        post (x.run mem).1 (x.run mem).2 := by
  induction x generalizing mem with
  | done a => simp [Holds, loads, stores, run]
  | stop e => simp [Holds, loads, stores, run]
  | load i k next ih => simp only [Holds, loads, stores, run, ih, List.forall_mem_cons, and_assoc]
  | store k b next ih =>
    simp only [Holds, loads, stores, run, ih, List.forall_mem_cons, and_left_comm, and_assoc]

/-- The rule for a sequence. -/
theorem holds_bind {f : α → Accessing ι κ ε β γ} {post : Except ε γ → (κ → β) → Prop} :
    (x.bind f).Holds canLoad canStore post mem ↔
      x.Holds canLoad canStore (Then canLoad canStore f post) mem := by
  induction x generalizing mem with
  | done a => rfl
  | stop e => rfl
  | load i k next ih => exact and_congr_right fun _ => ih (mem k)
  | store k b next ih => exact and_congr_right fun _ => ih

/-- The rule of consequence. -/
theorem Holds.mono (h : x.Holds canLoad canStore post mem)
    (himp : ∀ r mem', post r mem' → post' r mem') : x.Holds canLoad canStore post' mem := by
  obtain ⟨hloads, hstores, hpost⟩ := holds_iff.mp h
  exact holds_iff.mpr ⟨hloads, hstores, himp _ _ hpost⟩

/-- Two facts about the end of one run. -/
theorem Holds.and (h : x.Holds canLoad canStore post mem)
    (h' : x.Holds canLoad canStore post' mem) :
    x.Holds canLoad canStore (fun r mem' => post r mem' ∧ post' r mem') mem := by
  obtain ⟨hloads, hstores, hpost⟩ := holds_iff.mp h
  exact holds_iff.mpr ⟨hloads, hstores, hpost, (holds_iff.mp h').2.2⟩

end Accessing

end Smor.Lib
