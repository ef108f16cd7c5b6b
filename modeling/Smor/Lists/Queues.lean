import Smor.Lib.Ring
import Smor.Lib.Runs
import Smor.Lists.Macros

/-!
# Circular queues as sequences

What a queue is for is the sequence of its elements from the head on. Elements are put at the end
of the sequence or in front of another one, and are taken out wherever they are. The ring has no
end of its own, so an element in front of another is one at the end of the ring that starts there.
-/

namespace Smor.Lists

open Smor.Lib

/-- The calls of the queue macros. -/
inductive QueueOp (α : Type*)
  | pushBack (elem : α)
  | insertBefore (elem before : α)
  | pop (elem : α)

/-- The variable `head` and the links. -/
structure Queue (α : Type*) where
  head : α
  heap : Heap α

section Sequences

variable {α : Type*} {null e : α} {q : Queue α} {xs us vs : List α}

/-- The links describe the sequence: there is no element and the head is NULL, or the elements are
a ring that starts at the head. -/
def QueueIs (null : α) (q : Queue α) (xs : List α) : Prop :=
  null ∉ xs ∧ if xs = [] then q.head = null else Ring q.heap.next q.heap.prev q.head xs

theorem QueueIs.ring (h : QueueIs null q xs) (hne : xs ≠ []) :
    Ring q.heap.next q.heap.prev q.head xs := by
  have hring := h.2
  rwa [if_neg hne] at hring

theorem QueueIs.of_ring (hnull : null ∉ xs) (h : Ring q.heap.next q.heap.prev q.head xs) :
    QueueIs null q xs := ⟨hnull, by rwa [if_neg h.ne_nil]⟩

/-- No link of the ring is NULL. -/
theorem QueueIs.links_ne_null (h : QueueIs null q xs)
    (hring : Ring q.heap.next q.heap.prev e (e :: vs ++ us)) (hxs : xs = us ++ e :: vs) :
    q.heap.next e ≠ null ∧ q.heap.prev e ≠ null := by
  have hmem : ∀ x ∈ e :: vs ++ us, x ≠ null := by
    rintro x hx rfl
    rw [hxs] at h
    exact h.1 (List.mem_append.mpr (List.mem_append.mp hx).symm)
  obtain ⟨init, hinit, -⟩ := hring.exists_last
  refine ⟨hmem _ (hring.next_mem hring.head_mem), hmem _ ?_⟩
  rw [hinit]
  exact List.mem_append_right _ (List.mem_singleton.mpr rfl)

/-- The ring that starts at an element of the queue, and where the element is in the sequence. -/
theorem QueueIs.split (h : QueueIs null q xs) (he : e ∈ xs) :
    ∃ us vs, xs = us ++ e :: vs ∧ e ∉ us ∧ e ≠ null ∧
      Ring q.heap.next q.heap.prev e (e :: vs ++ us) := by
  have hring := h.ring (List.ne_nil_of_mem he)
  obtain ⟨us, vs, rfl⟩ := List.append_of_mem he
  refine ⟨us, vs, rfl, fun hmem => ?_, fun heq => h.1 (heq ▸ he), hring.rotate⟩
  exact (List.nodup_append.mp hring.nodup).2.2 e hmem e List.mem_cons_self rfl

end Sequences

section Calls

variable {α : Type*} [DecidableEq α] (null : α)

/-- The sequence after a call, if the call is one that may be made: the element that is inserted is
new, and those that are named are there. -/
def QueueOp.apply (xs : List α) : QueueOp α → Option (List α)
  | .pushBack elem => if elem ≠ null ∧ elem ∉ xs then some (xs ++ [elem]) else none
  | .insertBefore elem before =>
    if elem ≠ null ∧ elem ∉ xs ∧ before ∈ xs then some (xs.insertIdx (xs.idxOf before) elem)
    else none
  | .pop elem => if elem ∈ xs then some (xs.erase elem) else none

/-- A call on a queue. -/
def Queue.step (q : Queue α) : QueueOp α → Option (Queue α)
  | .pushBack elem => (queuePushBack null q.head elem q.heap).map fun r => ⟨r.1, r.2⟩
  | .insertBefore elem before =>
    (queueInsertBefore null q.head elem before q.heap).map fun r => ⟨r.1, r.2⟩
  | .pop elem => (queuePop null q.head elem q.heap).map fun r => ⟨r.1, r.2⟩

variable {null} {q : Queue α} {xs us vs : List α} {e b : α}

/-- In front of the first `b`. -/
theorem insertIdx_idxOf (hb : b ∉ us) :
    (us ++ b :: vs).insertIdx ((us ++ b :: vs).idxOf b) e = us ++ e :: b :: vs := by
  rw [List.idxOf_append_of_notMem hb, List.idxOf_cons_self, Nat.add_zero]
  induction us with
  | nil => rfl
  | cons u us ih =>
    rw [List.mem_cons, not_or] at hb
    exact congrArg (u :: ·) (ih hb.2)

theorem erase_middle (he : e ∉ us) : (us ++ e :: vs).erase e = us ++ vs := by
  rw [List.erase_append_right _ he, List.erase_cons_head]

/-- `queue_push_back` appends. -/
theorem QueueIs.pushBack (h : QueueIs null q xs) (he : e ≠ null) (hnew : e ∉ xs) :
    ∃ q', q.step null (.pushBack e) = some q' ∧ QueueIs null q' (xs ++ [e]) := by
  have hnull : null ∉ xs ++ [e] := by
    rw [List.mem_append, List.mem_singleton, not_or]
    exact ⟨h.1, Ne.symm he⟩
  obtain ⟨head, heap⟩ := q
  cases xs with
  | nil =>
    obtain rfl : head = null := h.2
    refine ⟨_, congrArg (Option.map _) (queuePushBack_null he), .of_ring hnull ?_⟩
    exact Ring.single (Function.update_self ..) (Function.update_self ..)
  | cons x xs =>
    have hring := h.ring (List.cons_ne_nil _ _)
    obtain ⟨rest, hrest⟩ := hring.exists_rest
    obtain ⟨rfl, rfl⟩ := List.cons.inj hrest
    have hhead : x ≠ null := fun heq => h.1 (heq ▸ List.mem_cons_self)
    have hround : Ring heap.next heap.prev x (x :: xs ++ []) := by
      rwa [List.append_nil]
    have hlinks := h.links_ne_null hround rfl
    refine ⟨_, congrArg (Option.map _) (queuePushBack_of_ne hhead he hlinks.2), .of_ring hnull ?_⟩
    exact hring.pushBack hnew

/-- `queue_insert_before` inserts in front of an element, which may be the first. -/
theorem QueueIs.insertBefore (h : QueueIs null q xs) (he : e ≠ null) (hnew : e ∉ xs)
    (hb : b ∈ xs) :
    ∃ q', q.step null (.insertBefore e b) = some q' ∧
      QueueIs null q' (xs.insertIdx (xs.idxOf b) e) := by
  have hbe : b ≠ e := fun heq => hnew (heq ▸ hb)
  have hhead := h.ring (List.ne_nil_of_mem hb)
  obtain ⟨us, vs, rfl, hus, hbnull, hring⟩ := h.split hb
  have hlinks := h.links_ne_null hring rfl
  have hnull : null ∉ us ++ e :: b :: vs := by
    have hall := h.1
    simp only [List.mem_append, List.mem_cons, not_or] at hall ⊢
    exact ⟨hall.1, Ne.symm he, hall.2⟩
  have hnew' : e ∉ b :: vs ++ us := fun hmem =>
    hnew (List.mem_append.mpr (List.mem_append.mp hmem).symm)
  have hpush := hring.pushBack hnew'
  obtain ⟨head, heap⟩ := q
  rw [insertIdx_idxOf hus]
  refine ⟨_, congrArg (Option.map _) (queueInsertBefore_eq hbnull he hbe hlinks.2),
    .of_ring hnull ?_⟩
  obtain ⟨rest, hrest⟩ := hhead.exists_rest
  cases us with
  | nil =>
    -- the new element is behind the last one of the ring and becomes the head
    obtain ⟨rfl, -⟩ := List.cons.inj hrest
    dsimp only
    rw [if_pos rfl]
    rw [List.append_nil] at hpush
    exact hpush.rotate
  | cons u us =>
    obtain ⟨rfl, -⟩ := List.cons.inj hrest
    dsimp only
    rw [if_neg (show ¬ b = u from fun heq => hus (heq ▸ List.mem_cons_self))]
    rw [List.append_assoc] at hpush
    have hrotated : Ring _ _ u (u :: (us ++ [e]) ++ b :: vs) := hpush.rotate
    rwa [List.cons_append, List.append_assoc, List.singleton_append] at hrotated

/-- `queue_pop` takes an element out, which may be the first or the only one. -/
theorem QueueIs.pop (h : QueueIs null q xs) (he : e ∈ xs) :
    ∃ q', q.step null (.pop e) = some q' ∧ QueueIs null q' (xs.erase e) := by
  have hhead := h.ring (List.ne_nil_of_mem he)
  obtain ⟨us, vs, rfl, hus, henull, hring⟩ := h.split he
  have hlinks := h.links_ne_null hring rfl
  obtain ⟨head, heap⟩ := q
  rw [erase_middle hus]
  have hself : heap.next e = e ↔ vs ++ us = [] := hring.next_self_iff
  by_cases hone : vs ++ us = []
  · obtain ⟨rfl, rfl⟩ := List.append_eq_nil_iff.mp hone
    refine ⟨_, congrArg (Option.map _) (queuePop_self henull (hself.mpr rfl)), ?_⟩
    exact ⟨List.not_mem_nil, rfl⟩
  · have hnull : null ∉ us ++ vs := by
      have hall := h.1
      simp only [List.mem_append, List.mem_cons, not_or] at hall ⊢
      exact ⟨hall.1, hall.2.2⟩
    refine ⟨_, congrArg (Option.map _) (queuePop_of_ne henull (fun heq => hone (hself.mp heq))
      hlinks.1 hlinks.2), .of_ring hnull ?_⟩
    have hpop : Ring _ _ (heap.next e) (vs ++ us) := hring.popHead hone
    obtain ⟨rest, hrest⟩ := hhead.exists_rest
    cases us with
    | nil =>
      obtain ⟨rfl, -⟩ := List.cons.inj hrest
      dsimp only
      rw [if_pos rfl]
      rwa [List.append_nil] at hpop
    | cons u us =>
      obtain ⟨rfl, -⟩ := List.cons.inj hrest
      dsimp only
      rw [if_neg (show ¬ u = e from fun heq => hus (heq ▸ List.mem_cons_self))]
      exact hpop.rotate

/-- Every call on a sequence is matched by the call on the links. -/
theorem QueueIs.step (h : QueueIs null q xs) {op : QueueOp α} {ys : List α}
    (hop : QueueOp.apply null xs op = some ys) :
    ∃ q', q.step null op = some q' ∧ QueueIs null q' ys := by
  cases op with
  | pushBack e =>
    obtain ⟨⟨he, hnew⟩, hys⟩ := Option.ite_none_right_eq_some.mp hop
    obtain rfl := Option.some.inj hys
    exact h.pushBack he hnew
  | insertBefore e b =>
    obtain ⟨⟨he, hnew, hb⟩, hys⟩ := Option.ite_none_right_eq_some.mp hop
    obtain rfl := Option.some.inj hys
    exact h.insertBefore he hnew hb
  | pop e =>
    obtain ⟨he, hys⟩ := Option.ite_none_right_eq_some.mp hop
    obtain rfl := Option.some.inj hys
    exact h.pop he

end Calls

end Smor.Lists
