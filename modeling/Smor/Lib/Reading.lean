import Mathlib.Order.Basic

/-!
# Computations that read memory

A computation reads cells one after the other, and which cells these are depends on what it
has read. `Reading.run` is for memory that only part of the cells can be read of: the first read
of another cell ends the computation. `Reading.reads` lists the cells that are read when all
of them can be, and `Reading.run_eq_ok` connects the two.
-/

namespace Smor.Lib

universe u

/-- A computation over cells of type `β` at addresses of type `κ`. It returns, or stops for a
reason of type `ε`. -/
inductive Reading (κ ε β α : Type u)
  | done (a : α)
  | stop (e : ε)
  | read (k : κ) (next : β → Reading κ ε β α)

/-- Why a computation does not return: a cell cannot be read, or the computation stops. -/
inductive Halt (κ ε : Type u)
  | fault (k : κ)
  | stop (e : ε)
  deriving DecidableEq

namespace Reading

variable {κ ε β α γ : Type u} {view : κ → Option β} {mem : κ → β}

/-- One computation after the other. -/
def bind (x : Reading κ ε β α) (f : α → Reading κ ε β γ) : Reading κ ε β γ :=
  match x with
  | done a => f a
  | stop e => .stop e
  | read k next => .read k fun b => (next b).bind f

/-- The result where only some cells can be read. -/
def run (view : κ → Option β) : Reading κ ε β α → Except (Halt κ ε) α
  | done a => .ok a
  | stop e => .error (.stop e)
  | read k next =>
    match view k with
    | none => .error (.fault k)
    | some b => (next b).run view

/-- The result where all cells can be read. -/
def value (mem : κ → β) : Reading κ ε β α → Except ε α
  | done a => .ok a
  | stop e => .error e
  | read k next => (next (mem k)).value mem

/-- The cells that are read where all cells can be read. -/
def reads (mem : κ → β) : Reading κ ε β α → List κ
  | done _ => []
  | stop _ => []
  | read k next => k :: (next (mem k)).reads mem

@[simp] theorem value_done (a : α) : (done a : Reading κ ε β α).value mem = .ok a := rfl

@[simp] theorem value_stop (e : ε) : (stop e : Reading κ ε β α).value mem = .error e := rfl

@[simp] theorem reads_done (a : α) : (done a : Reading κ ε β α).reads mem = [] := rfl

@[simp] theorem reads_stop (e : ε) : (stop e : Reading κ ε β α).reads mem = [] := rfl

/-- The result of a sequence. -/
theorem value_bind (x : Reading κ ε β α) (f : α → Reading κ ε β γ) :
    (x.bind f).value mem = (x.value mem).bind fun a => (f a).value mem := by
  induction x with
  | done a => rfl
  | stop e => rfl
  | read k next ih => exact ih (mem k)

/-- The result of a sequence where only some cells can be read. -/
theorem run_bind (x : Reading κ ε β α) (f : α → Reading κ ε β γ) :
    (x.bind f).run view = (x.run view).bind fun a => (f a).run view := by
  induction x with
  | done a => rfl
  | stop e => rfl
  | read k next ih =>
    simp only [bind, run]
    cases view k with
    | none => rfl
    | some b => exact ih b

/-- A sequence returns if both parts do. -/
theorem value_bind_eq_ok {x : Reading κ ε β α} {f : α → Reading κ ε β γ} {r : γ} :
    (x.bind f).value mem = .ok r ↔ ∃ a, x.value mem = .ok a ∧ (f a).value mem = .ok r := by
  rw [value_bind]
  cases x.value mem with
  | error e => simp [Except.bind]
  | ok a => simp [Except.bind]

/-- The cells that a sequence reads. -/
theorem mem_reads_bind {x : Reading κ ε β α} {f : α → Reading κ ε β γ} {k : κ} :
    k ∈ (x.bind f).reads mem ↔
      k ∈ x.reads mem ∨ ∃ a, x.value mem = .ok a ∧ k ∈ (f a).reads mem := by
  induction x with
  | done a => simp [bind]
  | stop e => simp [bind]
  | read k' next ih =>
    have hrest := ih (mem k')
    simp only [bind, reads, value, List.mem_cons, hrest, or_assoc]

/-- A computation returns where only some cells can be read if it reads no other ones. -/
theorem run_eq_ok (hview : ∀ k, view k = none ∨ view k = some (mem k)) (x : Reading κ ε β α)
    {r : α} :
    x.run view = .ok r ↔ (∀ k ∈ x.reads mem, view k ≠ none) ∧ x.value mem = .ok r := by
  induction x with
  | done a => simp [run]
  | stop e => simp [run]
  | read k next ih =>
    have hrest := ih (mem k)
    rcases hview k with hk | hk
    · simp [run, reads, hk]
    · simp only [run, hk, reads, value, List.forall_mem_cons, hrest]
      simp

/-- A computation that reads cells that can be read does not fault. -/
theorem run_ne_fault (hview : ∀ k, view k = none ∨ view k = some (mem k)) (x : Reading κ ε β α)
    (hreads : ∀ k ∈ x.reads mem, view k ≠ none) (k : κ) : x.run view ≠ .error (.fault k) := by
  induction x with
  | done a => simp [run]
  | stop e => simp [run]
  | read k' next ih =>
    obtain ⟨hk, hrest⟩ := List.forall_mem_cons.mp hreads
    rcases hview k' with hnone | hsome
    · exact absurd hnone hk
    · simp only [run, hsome]
      exact ih (mem k') hrest

end Reading

end Smor.Lib
