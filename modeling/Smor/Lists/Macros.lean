import Mathlib.Logic.Function.Basic
import Mathlib.Tactic.TypeStar

/-!
# The macros of `list.h`

`list.h` has two families of macros for elements that carry their own links: lists with a head and
a tail that end in NULL, and circular queues with a head. The parameters `next` and `prev` of a
macro name the two fields of the elements; here they are the fields of a heap. The element that a
macro is given is a variable of its own, not the head or the tail. The results are the new values
of the variables and the heap, or `none` if NULL is dereferenced.
-/

namespace Smor.Lists

/-- The fields `next` and `prev` of all elements. -/
structure Heap (α : Type*) where
  next : α → α
  prev : α → α

section

variable {α : Type*} [DecidableEq α] (null : α)

namespace Heap

/-- `p->next`. -/
def getNext (h : Heap α) (p : α) : Option α := if p = null then none else some (h.next p)

/-- `p->prev`. -/
def getPrev (h : Heap α) (p : α) : Option α := if p = null then none else some (h.prev p)

/-- `p->next = v`. -/
def setNext (h : Heap α) (p v : α) : Option (Heap α) :=
  if p = null then none else some { h with next := Function.update h.next p v }

/-- `p->prev = v`. -/
def setPrev (h : Heap α) (p v : α) : Option (Heap α) :=
  if p = null then none else some { h with prev := Function.update h.prev p v }

end Heap

/-- `list_push_back`: the head, the tail and the heap. -/
def listPushBack (head tail elem : α) (h : Heap α) : Option (α × α × Heap α) :=
  if head = null then do
    let h ← h.setNext null elem null
    let h ← h.setPrev null elem null
    pure (elem, elem, h)
  else do
    let h ← h.setNext null tail elem
    let h ← h.setPrev null elem tail
    let h ← h.setNext null elem null
    pure (head, elem, h)

/-- `list_push_front`: the head, the tail and the heap. -/
def listPushFront (head tail elem : α) (h : Heap α) : Option (α × α × Heap α) :=
  if head = null then do
    let h ← h.setNext null elem null
    let h ← h.setPrev null elem null
    pure (elem, elem, h)
  else do
    let h ← h.setPrev null head elem
    let h ← h.setPrev null elem null
    let h ← h.setNext null elem head
    pure (elem, tail, h)

/-- `list_pop`: the head, the tail and the heap. -/
def listPop (head tail elem : α) (h : Heap α) : Option (α × α × Heap α) := do
  let before ← h.getPrev null elem
  let (head, h) ←
    if before = null then do
      let after ← h.getNext null elem
      pure (after, h)
    else do
      let after ← h.getNext null elem
      let h ← h.setNext null before after
      pure (head, h)
  let after ← h.getNext null elem
  if after = null then do
    let before ← h.getPrev null elem
    pure (head, before, h)
  else do
    let before ← h.getPrev null elem
    let h ← h.setPrev null after before
    pure (head, tail, h)

/-- `queue_push_back`: the head and the heap. -/
def queuePushBack (head elem : α) (h : Heap α) : Option (α × Heap α) :=
  if head = null then do
    let h ← h.setPrev null elem elem
    let h ← h.setNext null elem elem
    pure (elem, h)
  else do
    let h ← h.setNext null elem head
    let last ← h.getPrev null head
    let h ← h.setPrev null elem last
    let before ← h.getPrev null elem
    let h ← h.setNext null before elem
    let h ← h.setPrev null head elem
    pure (head, h)

/-- `queue_insert_before`: the head and the heap. -/
def queueInsertBefore (head elem before : α) (h : Heap α) : Option (α × Heap α) := do
  let h ← h.setNext null elem before
  let last ← h.getPrev null before
  let h ← h.setPrev null elem last
  let last ← h.getPrev null before
  let h ← h.setNext null last elem
  let h ← h.setPrev null before elem
  pure (if before = head then elem else head, h)

/-- `queue_pop`: the head and the heap. -/
def queuePop (head elem : α) (h : Heap α) : Option (α × Heap α) := do
  let after ← h.getNext null elem
  if after = elem then pure (null, h)
  else do
    let after ← h.getNext null elem
    let before ← h.getPrev null elem
    let h ← h.setPrev null after before
    let h ← h.setNext null before after
    pure (if head = elem then after else head, h)

end

section Values

variable {α : Type*} [DecidableEq α] {null head tail elem before : α} {h : Heap α}

theorem Heap.getNext_of_ne (hp : elem ≠ null) : h.getNext null elem = some (h.next elem) :=
  if_neg hp

theorem Heap.getPrev_of_ne (hp : elem ≠ null) : h.getPrev null elem = some (h.prev elem) :=
  if_neg hp

theorem Heap.setNext_of_ne (hp : elem ≠ null) (v : α) :
    h.setNext null elem v = some { h with next := Function.update h.next elem v } := if_neg hp

theorem Heap.setPrev_of_ne (hp : elem ≠ null) (v : α) :
    h.setPrev null elem v = some { h with prev := Function.update h.prev elem v } := if_neg hp

/-- The first element of a list. -/
theorem listPushBack_null (he : elem ≠ null) :
    listPushBack null null tail elem h =
      some (elem, elem,
        ⟨Function.update h.next elem null, Function.update h.prev elem null⟩) := by
  simp [listPushBack, Heap.setNext_of_ne he, Heap.setPrev_of_ne he]

theorem listPushBack_of_ne (hhead : head ≠ null) (htail : tail ≠ null) (he : elem ≠ null) :
    listPushBack null head tail elem h =
      some (head, elem, ⟨Function.update (Function.update h.next tail elem) elem null,
        Function.update h.prev elem tail⟩) := by
  simp [listPushBack, hhead, Heap.setNext_of_ne htail, Heap.setPrev_of_ne he,
    Heap.setNext_of_ne he]

/-- The two ways to put an element into an empty list are the same. -/
theorem listPushFront_null :
    listPushFront null null tail elem h = listPushBack null null tail elem h := by
  rw [listPushFront, listPushBack, if_pos rfl, if_pos rfl]

theorem listPushFront_of_ne (hhead : head ≠ null) (he : elem ≠ null) :
    listPushFront null head tail elem h =
      some (elem, tail, ⟨Function.update h.next elem head,
        Function.update (Function.update h.prev head elem) elem null⟩) := by
  simp [listPushFront, hhead, Heap.setPrev_of_ne hhead, Heap.setPrev_of_ne he,
    Heap.setNext_of_ne he]

/-- Each side of the element is treated on its own. -/
theorem listPop_eq (he : elem ≠ null) (hbefore : h.prev elem ≠ elem) :
    listPop null head tail elem h =
      some (if h.prev elem = null then h.next elem else head,
        if h.next elem = null then h.prev elem else tail,
        ⟨if h.prev elem = null then h.next else
          Function.update h.next (h.prev elem) (h.next elem),
        if h.next elem = null then h.prev else
          Function.update h.prev (h.next elem) (h.prev elem)⟩) := by
  by_cases hp : h.prev elem = null <;> by_cases hn : h.next elem = null <;>
    simp [listPop, Heap.getNext_of_ne he, Heap.getPrev_of_ne he, hp, hn, Heap.setNext_of_ne,
      Heap.setPrev_of_ne, Function.update_of_ne (Ne.symm hbefore)]

theorem queuePushBack_null (he : elem ≠ null) :
    queuePushBack null null elem h =
      some (elem, ⟨Function.update h.next elem elem, Function.update h.prev elem elem⟩) := by
  simp [queuePushBack, Heap.setNext_of_ne he, Heap.setPrev_of_ne he]

theorem queuePushBack_of_ne (hhead : head ≠ null) (he : elem ≠ null)
    (hlast : h.prev head ≠ null) :
    queuePushBack null head elem h =
      some (head, ⟨Function.update (Function.update h.next elem head) (h.prev head) elem,
        Function.update (Function.update h.prev elem (h.prev head)) head elem⟩) := by
  simp [queuePushBack, hhead, Heap.setNext_of_ne, Heap.setPrev_of_ne, Heap.getPrev_of_ne, he,
    hlast]

/-- An element in front of another one is linked as one behind the last if that one is the head. -/
theorem queueInsertBefore_eq (hbefore : before ≠ null) (he : elem ≠ null) (hne : before ≠ elem)
    (hlast : h.prev before ≠ null) :
    queueInsertBefore null head elem before h =
      some (if before = head then elem else head,
        ⟨Function.update (Function.update h.next elem before) (h.prev before) elem,
        Function.update (Function.update h.prev elem (h.prev before)) before elem⟩) := by
  simp [queueInsertBefore, Heap.setNext_of_ne, Heap.setPrev_of_ne, Heap.getPrev_of_ne, he,
    hbefore, Function.update_of_ne hne, hlast]

theorem queuePop_self (he : elem ≠ null) (hself : h.next elem = elem) :
    queuePop null head elem h = some (null, h) := by
  simp [queuePop, Heap.getNext_of_ne he, hself]

theorem queuePop_of_ne (he : elem ≠ null) (hself : h.next elem ≠ elem)
    (hafter : h.next elem ≠ null) (hbefore : h.prev elem ≠ null) :
    queuePop null head elem h =
      some (if head = elem then h.next elem else head,
        ⟨Function.update h.next (h.prev elem) (h.next elem),
        Function.update h.prev (h.next elem) (h.prev elem)⟩) := by
  simp [queuePop, Heap.getNext_of_ne he, Heap.getPrev_of_ne he, hself,
    Heap.setNext_of_ne hbefore, Heap.setPrev_of_ne hafter]

end Values

end Smor.Lists
