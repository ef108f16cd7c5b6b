import Smor.Lists.Queues

/-!
# Lists with a head and a tail as sequences

The links in one direction are a chain from the head, those in the other a chain from the tail. A
call treats the two directions alike, with head and tail exchanged. The last theorem is about both
families of macros.
-/

namespace Smor.Lists

open Smor.Lib

/-- The calls of the list macros. -/
inductive ListOp (α : Type*)
  | pushBack (elem : α)
  | pushFront (elem : α)
  | pop (elem : α)

/-- The variables `head` and `tail` and the links. -/
structure HeadTail (α : Type*) where
  head : α
  tail : α
  heap : Heap α

section Sequences

variable {α : Type*}

/-- The links describe the sequence: from the head on forwards and from the tail on backwards, up to
NULL. -/
structure ListIs (null : α) (l : HeadTail α) (xs : List α) : Prop where
  forward : Chain null l.heap.next l.head xs
  backward : Chain null l.heap.prev l.tail xs.reverse

end Sequences

section Calls

variable {α : Type*} [DecidableEq α] (null : α)

/-- The sequence after a call, if the call is one that may be made. -/
def ListOp.apply (xs : List α) : ListOp α → Option (List α)
  | .pushBack elem => if elem ≠ null ∧ elem ∉ xs then some (xs ++ [elem]) else none
  | .pushFront elem => if elem ≠ null ∧ elem ∉ xs then some (elem :: xs) else none
  | .pop elem => if elem ∈ xs then some (xs.erase elem) else none

/-- A call on a list. -/
def HeadTail.step (l : HeadTail α) : ListOp α → Option (HeadTail α)
  | .pushBack elem =>
    (listPushBack null l.head l.tail elem l.heap).map fun r => ⟨r.1, r.2.1, r.2.2⟩
  | .pushFront elem =>
    (listPushFront null l.head l.tail elem l.heap).map fun r => ⟨r.1, r.2.1, r.2.2⟩
  | .pop elem => (listPop null l.head l.tail elem l.heap).map fun r => ⟨r.1, r.2.1, r.2.2⟩

variable {null} {l : HeadTail α} {xs : List α} {e : α}

/-- The first element of a list. -/
theorem ListIs.single {heap : Heap α} (he : e ≠ null) :
    ListIs null ⟨e, e, ⟨Function.update heap.next e null, Function.update heap.prev e null⟩⟩ [e] :=
  ⟨(chain_nil_iff.mpr rfl).push List.not_mem_nil he,
    (chain_nil_iff.mpr rfl).push List.not_mem_nil he⟩

/-- `list_push_back` appends. -/
theorem ListIs.pushBack (h : ListIs null l xs) (he : e ≠ null) (hnew : e ∉ xs) :
    ∃ l', l.step null (.pushBack e) = some l' ∧ ListIs null l' (xs ++ [e]) := by
  obtain ⟨head, tail, heap⟩ := l
  obtain ⟨hforward, hbackward⟩ := h
  by_cases hxs : xs = []
  · subst hxs
    obtain rfl : head = null := chain_nil_iff.mp hforward
    exact ⟨_, congrArg (Option.map _) (listPushBack_null he), .single he⟩
  · have hhead : head ≠ null := fun heq =>
      hxs (hforward.unique (chain_nil_iff.mpr heq))
    have htail : tail ≠ null := fun heq =>
      hxs (List.reverse_eq_nil_iff.mp (hbackward.unique (chain_nil_iff.mpr heq)))
    have hlast := hbackward.getLast_reverse (mt List.reverse_eq_nil_iff.mp hxs)
    rw [List.reverse_reverse] at hlast
    refine ⟨_, congrArg (Option.map _) (listPushBack_of_ne hhead htail he), ?_, ?_⟩
    · exact hforward.append hlast hnew he
    · rw [List.reverse_append]
      exact hbackward.push (mt List.mem_reverse.mp hnew) he

/-- `list_push_front` prepends. -/
theorem ListIs.pushFront (h : ListIs null l xs) (he : e ≠ null) (hnew : e ∉ xs) :
    ∃ l', l.step null (.pushFront e) = some l' ∧ ListIs null l' (e :: xs) := by
  obtain ⟨head, tail, heap⟩ := l
  obtain ⟨hforward, hbackward⟩ := h
  by_cases hxs : xs = []
  · subst hxs
    obtain rfl : head = null := chain_nil_iff.mp hforward
    exact ⟨_, congrArg (Option.map _) (listPushFront_null.trans (listPushBack_null he)),
      .single he⟩
  · have hhead : head ≠ null := fun heq =>
      hxs (hforward.unique (chain_nil_iff.mpr heq))
    have hfirst := hforward.getLast_reverse hxs
    refine ⟨_, congrArg (Option.map _) (listPushFront_of_ne hhead he), ?_, ?_⟩
    · exact hforward.push hnew he
    · rw [List.reverse_cons]
      exact hbackward.append hfirst (mt List.mem_reverse.mp hnew) he

/-- `list_pop` takes an element out, which may be the first, the last or the only one. -/
theorem ListIs.pop (h : ListIs null l xs) (he : e ∈ xs) :
    ∃ l', l.step null (.pop e) = some l' ∧ ListIs null l' (xs.erase e) := by
  obtain ⟨head, tail, heap⟩ := l
  obtain ⟨hforward, hbackward⟩ := h
  have hnodup := hforward.nodup
  have henull : e ≠ null := fun heq => hforward.null_notMem (heq ▸ he)
  obtain ⟨us, vs, rfl⟩ := List.append_of_mem he
  have hus : e ∉ us := fun hmem =>
    (List.nodup_append.mp hnodup).2.2 e hmem e List.mem_cons_self rfl
  rw [List.reverse_append, List.reverse_cons, List.append_assoc, List.singleton_append]
    at hbackward
  have hbefore : Chain null heap.prev (heap.prev e) us.reverse := hbackward.behind
  have hafter : Chain null heap.next (heap.next e) vs.reverse.reverse := by
    rw [List.reverse_reverse]
    exact hforward.behind
  have hself : heap.prev e ≠ e := by
    intro heq
    have hmem := hbefore.mem_start (by rwa [heq])
    rw [heq] at hmem
    exact hus (List.mem_reverse.mp hmem)
  rw [erase_middle hus]
  refine ⟨_, congrArg (Option.map _) (listPop_eq henull hself), ?_, ?_⟩
  · exact hforward.bypass hbefore
  · rw [List.reverse_append]
    exact hbackward.bypass hafter

/-- Every call on a sequence is matched by the call on the links. -/
theorem ListIs.step (h : ListIs null l xs) {op : ListOp α} {ys : List α}
    (hop : ListOp.apply null xs op = some ys) :
    ∃ l', l.step null op = some l' ∧ ListIs null l' ys := by
  cases op with
  | pushBack e =>
    obtain ⟨⟨he, hnew⟩, hys⟩ := Option.ite_none_right_eq_some.mp hop
    obtain rfl := Option.some.inj hys
    exact h.pushBack he hnew
  | pushFront e =>
    obtain ⟨⟨he, hnew⟩, hys⟩ := Option.ite_none_right_eq_some.mp hop
    obtain rfl := Option.some.inj hys
    exact h.pushFront he hnew
  | pop e =>
    obtain ⟨he, hys⟩ := Option.ite_none_right_eq_some.mp hop
    obtain rfl := Option.some.inj hys
    exact h.pop he

/-- Both families keep a sequence, in every heap and for every sequence of calls that may be made:
none of them dereferences NULL, and the links describe the sequence afterwards. -/
theorem listMacros_refine (null : α) :
    (∀ (q : Queue α) (xs : List α), QueueIs null q xs → ∀ (ops : List (QueueOp α)) (ys : List α),
      ops.foldlM (QueueOp.apply null) xs = some ys →
        ∃ q', ops.foldlM (Queue.step null) q = some q' ∧ QueueIs null q' ys) ∧
    (∀ (l : HeadTail α) (xs : List α), ListIs null l xs → ∀ (ops : List (ListOp α)) (ys : List α),
      ops.foldlM (ListOp.apply null) xs = some ys →
        ∃ l', ops.foldlM (HeadTail.step null) l = some l' ∧ ListIs null l' ys) := by
  refine ⟨fun q xs hq ops ys hops => ?_, fun l xs hl ops ys hops => ?_⟩
  · exact foldlM_refines (fun _ _ _ _ h hop => h.step hop) hq hops
  · exact foldlM_refines (fun _ _ _ _ h hop => h.step hop) hl hops

theorem listMacros_refine_calls :
    (∃ q', [.pushBack 1, .insertBefore 2 1, .pushBack 3, .pop 2].foldlM (Queue.step 0)
      ⟨0, ⟨id, id⟩⟩ = some q' ∧ QueueIs 0 q' [1, 3]) ∧
    (∃ l', [.pushFront 1, .pushBack 2, .pushFront 3, .pop 2].foldlM (HeadTail.step 0)
      ⟨0, 0, ⟨id, id⟩⟩ = some l' ∧ ListIs 0 l' [3, 1]) := by
  have hempty : ListIs 0 ⟨0, 0, ⟨id, id⟩⟩ [] := ⟨chain_nil_iff.mpr rfl, chain_nil_iff.mpr rfl⟩
  exact ⟨(listMacros_refine 0).1 ⟨0, ⟨id, id⟩⟩ [] ⟨List.not_mem_nil, rfl⟩ _ _ rfl,
    (listMacros_refine 0).2 _ [] hempty _ _ rfl⟩

end Calls

end Smor.Lists
