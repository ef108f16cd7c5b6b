import Smor.Lib.Chain

/-!
# Rings

A ring is a circular list with links in both directions that are kept in its elements. Code
walks a ring with a `do while` loop that ends when it is back at its first element, or with a
`for` loop that ends at the head. Both loops are bounded by a number of rounds here; on a
ring with at most that many elements they are folds over the elements.
-/

namespace Smor.Lib

variable {α σ : Type*}

/-- Following `next` from `head` visits exactly `nodes` and comes back to `head`, and `prev`
goes the other way. -/
structure Ring (next prev : α → α) (head : α) (nodes : List α) : Prop where
  walk : Segment next head nodes head
  ne_nil : nodes ≠ []
  nodup : nodes.Nodup
  back : ∀ x ∈ nodes, prev (next x) = x

/-- The loop `do body(t); t = next(t); while (t != stop)`, for a limited number of rounds. -/
def doWhile [DecidableEq α] (next : σ → α → α) (body : σ → α → σ) (stop : α) :
    ℕ → σ → α → Option σ
  | 0, _, _ => none
  | rounds + 1, s, t =>
    if next (body s t) t = stop then some (body s t)
    else doWhile next body stop rounds (body s t) (next (body s t) t)

/-- The loop `for (; t != stop; t = next(t)) body(t)`, for a limited number of rounds. -/
def forUntil [DecidableEq α] (next : σ → α → α) (body : σ → α → σ) (stop : α) :
    ℕ → σ → α → Option σ
  | 0, _, _ => none
  | rounds + 1, s, t =>
    if t = stop then some s else forUntil next body stop rounds (body s t) (next (body s t) t)

section Loops

variable [DecidableEq α] {next : σ → α → α} {body : σ → α → σ} {stop a : α} {nodes : List α}
  {rounds : ℕ} {s : σ}

/-- A `for` loop whose body keeps the links visits every element up to `stop`. -/
theorem forUntil_eq (hlinks : ∀ s t x, next (body s t) x = next s x)
    (hwalk : Segment (next s) a nodes stop) (hstop : stop ∉ nodes)
    (hrounds : nodes.length < rounds) :
    forUntil next body stop rounds s a = some (nodes.foldl body s) := by
  induction nodes generalizing rounds s a with
  | nil =>
    obtain rfl := segment_nil_iff.mp hwalk
    obtain ⟨rounds, rfl⟩ : ∃ n, rounds = n + 1 := ⟨rounds - 1, by simp at hrounds; omega⟩
    simp [forUntil]
  | cons b nodes ih =>
    obtain ⟨rfl, hwalk⟩ := segment_cons_iff.mp hwalk
    obtain ⟨rounds, rfl⟩ : ∃ n, rounds = n + 1 := ⟨rounds - 1, by simp at hrounds; omega⟩
    simp only [List.mem_cons, not_or, List.length_cons] at hstop hrounds
    rw [forUntil, if_neg (Ne.symm hstop.1), hlinks, List.foldl_cons]
    apply ih _ hstop.2 (by omega)
    exact hwalk.congr fun x _ => hlinks s a x

/-- A `do while` loop whose body keeps the links visits every element up to `stop`. -/
theorem doWhile_eq (hlinks : ∀ s t x, next (body s t) x = next s x)
    (hwalk : Segment (next s) a (a :: nodes) stop) (hstop : stop ∉ nodes)
    (hrounds : nodes.length < rounds) :
    doWhile next body stop rounds s a = some ((a :: nodes).foldl body s) := by
  induction nodes generalizing rounds s a with
  | nil =>
    obtain ⟨-, hwalk⟩ := segment_cons_iff.mp hwalk
    obtain ⟨rounds, rfl⟩ : ∃ n, rounds = n + 1 := ⟨rounds - 1, by simp at hrounds; omega⟩
    rw [doWhile, hlinks, if_pos (segment_nil_iff.mp hwalk)]
    rfl
  | cons b nodes ih =>
    obtain ⟨-, hwalk⟩ := segment_cons_iff.mp hwalk
    obtain ⟨hb, -⟩ := segment_cons_iff.mp hwalk
    obtain ⟨rounds, rfl⟩ : ∃ n, rounds = n + 1 := ⟨rounds - 1, by simp at hrounds; omega⟩
    simp only [List.mem_cons, not_or, List.length_cons] at hstop hrounds
    rw [doWhile, hlinks, hb, if_neg (Ne.symm hstop.1), List.foldl_cons]
    apply ih _ hstop.2 (by omega)
    rw [hb] at hwalk
    exact hwalk.congr fun x _ => hlinks s a x

end Loops

namespace Ring

variable {next prev : α → α} {head e : α} {nodes : List α}

/-- A ring starts with its head. -/
theorem exists_rest (h : Ring next prev head nodes) : ∃ rest, nodes = head :: rest := by
  cases hnodes : nodes with
  | nil => exact absurd hnodes h.ne_nil
  | cons b rest =>
    have hwalk := h.walk
    rw [hnodes] at hwalk
    obtain ⟨rfl, -⟩ := segment_cons_iff.mp hwalk
    exact ⟨rest, rfl⟩

/-- The head is an element. -/
theorem head_mem (h : Ring next prev head nodes) : head ∈ nodes := by
  obtain ⟨rest, rfl⟩ := h.exists_rest
  simp

/-- The walk that starts behind the head and ends with it. -/
theorem walk_next {rest : List α} (h : Ring next prev head (head :: rest)) :
    Segment next (next head) rest head := (segment_cons_iff.mp h.walk).2

/-- The walk from the element behind the head all the way round. -/
theorem walk_round {rest : List α} (h : Ring next prev head (head :: rest)) :
    Segment next (next head) (rest ++ [head]) (next head) :=
  segment_append_iff.mpr ⟨head, h.walk_next, .cons (.nil _)⟩

/-- The last element is the one before the head. -/
theorem exists_last (h : Ring next prev head nodes) :
    ∃ init, nodes = init ++ [prev head] ∧ next (prev head) = head := by
  obtain ⟨init, last, rfl⟩ : ∃ init last, nodes = init ++ [last] :=
    ⟨nodes.dropLast, nodes.getLast h.ne_nil, (List.dropLast_append_getLast h.ne_nil).symm⟩
  obtain ⟨b, -, hlast⟩ := segment_append_iff.mp h.walk
  obtain ⟨rfl, hend⟩ := segment_cons_iff.mp hlast
  have hnext := segment_nil_iff.mp hend
  have hback := h.back b (by simp)
  rw [hnext] at hback
  exact ⟨init, by rw [hback], by rw [hback, hnext]⟩

/-- The links stay in the ring. -/
theorem next_mem (h : Ring next prev head nodes) {x : α} (hx : x ∈ nodes) : next x ∈ nodes := by
  obtain ⟨xs, ys, rfl⟩ := List.append_of_mem hx
  obtain ⟨b, -, hys⟩ := segment_append_iff.mp h.walk
  obtain ⟨rfl, hys⟩ := segment_cons_iff.mp hys
  cases ys with
  | nil =>
    rw [segment_nil_iff.mp hys]
    exact h.head_mem
  | cons c ys =>
    rw [(segment_cons_iff.mp hys).1]
    simp

/-- A ring depends only on the links of its elements. -/
theorem congr {next' prev' : α → α} (h : Ring next prev head nodes)
    (hnext : ∀ x ∈ nodes, next' x = next x) (hprev : ∀ x ∈ nodes, prev' x = prev x) :
    Ring next' prev' head nodes := by
  refine ⟨h.walk.congr hnext, h.ne_nil, h.nodup, fun x hx => ?_⟩
  rw [hnext x hx, hprev _ (h.next_mem hx), h.back x hx]

/-- A ring of one element. -/
theorem single {x : α} (hnext : next x = x) (hprev : prev x = x) : Ring next prev x [x] := by
  refine ⟨.cons ?_, by simp, by simp, fun y hy => ?_⟩
  · rw [hnext]
    exact .nil x
  · obtain rfl := List.mem_singleton.mp hy
    rw [hnext, hprev]

/-- Linking a new element between the last one and the head appends it. -/
theorem pushBack [DecidableEq α] (h : Ring next prev head nodes) (he : e ∉ nodes) :
    Ring (Function.update (Function.update next e head) (prev head) e)
      (Function.update (Function.update prev e (prev head)) head e) head (nodes ++ [e]) := by
  obtain ⟨init, hnodes, hlast⟩ := h.exists_last
  have hhead : e ≠ head := fun heq => he (heq ▸ h.head_mem)
  have hprev : e ≠ prev head := fun heq => he (by rw [hnodes, heq]; simp)
  have hnodup := h.nodup
  rw [hnodes] at hnodup
  have hinit : prev head ∉ init := by
    intro hmem
    exact (List.nodup_append.mp hnodup).2.2 _ hmem _ (by simp) rfl
  have hwalk := h.walk
  rw [hnodes] at hwalk
  obtain ⟨b, hwalk, hb⟩ := segment_append_iff.mp hwalk
  obtain ⟨rfl, -⟩ := segment_cons_iff.mp hb
  refine ⟨?_, by simp, ?_, fun x hx => ?_⟩
  · rw [hnodes]
    apply segment_append_iff.mpr
    refine ⟨e, segment_append_iff.mpr ⟨prev head, hwalk.congr fun x hx => ?_, .cons ?_⟩, .cons ?_⟩
    · have hxlast : x ≠ prev head := fun heq => hinit (heq ▸ hx)
      have hxe : x ≠ e := fun heq => he (by rw [hnodes, ← heq]; simp [hx])
      rw [Function.update_of_ne hxlast, Function.update_of_ne hxe]
    · rw [Function.update_self]
      exact .nil e
    · rw [Function.update_of_ne hprev, Function.update_self]
      exact .nil head
  · exact List.nodup_append.mpr ⟨h.nodup, by simp, fun x hx y hy => by
      rw [List.mem_singleton.mp hy]
      rintro rfl
      exact he hx⟩
  · rcases List.mem_append.mp hx with hx | hx
    · by_cases hxlast : x = prev head
      · subst hxlast
        rw [Function.update_self, Function.update_of_ne hhead, Function.update_self]
      · have hxe : x ≠ e := fun heq => he (heq ▸ hx)
        have hback := h.back x hx
        have hne : next x ≠ head := by
          intro heq
          rw [heq] at hback
          exact hxlast hback.symm
        have hne' : next x ≠ e := fun heq => he (heq ▸ h.next_mem hx)
        rw [Function.update_of_ne hxlast, Function.update_of_ne hxe, Function.update_of_ne hne,
          Function.update_of_ne hne', hback]
    · obtain rfl := List.mem_singleton.mp hx
      rw [Function.update_of_ne hprev, Function.update_self, Function.update_self]

/-- A ring has no first element but the one that the head names. -/
theorem rotate {xs ys : List α} (h : Ring next prev head (xs ++ e :: ys)) :
    Ring next prev e (e :: ys ++ xs) := by
  obtain ⟨b, hxs, hys⟩ := segment_append_iff.mp h.walk
  obtain ⟨rfl, -⟩ := segment_cons_iff.mp hys
  refine ⟨segment_append_iff.mpr ⟨head, hys, hxs⟩, by simp, ?_, fun x hx => h.back x ?_⟩
  · exact List.nodup_append_comm.mp h.nodup
  · exact List.mem_append.mpr (List.mem_append.mp hx).symm

/-- Only in a ring of one element is there a link from an element to itself. -/
theorem next_self_iff {rest : List α} (h : Ring next prev e (e :: rest)) :
    next e = e ↔ rest = [] := by
  have hwalk := h.walk_next
  cases rest with
  | nil => exact iff_of_true (segment_nil_iff.mp hwalk) rfl
  | cons b rest =>
    obtain ⟨rfl, -⟩ := segment_cons_iff.mp hwalk
    refine iff_of_false (fun heq => ?_) (List.cons_ne_nil _ _)
    exact (List.nodup_cons.mp h.nodup).1 (List.mem_cons.mpr (Or.inl heq.symm))

/-- Linking the elements around the head to each other takes it out. -/
theorem popHead [DecidableEq α] {rest : List α} (h : Ring next prev e (e :: rest))
    (hne : rest ≠ []) :
    Ring (Function.update next (prev e) (next e)) (Function.update prev (next e) (prev e)) (next e)
      rest := by
  obtain ⟨init, last, rfl⟩ : ∃ init last, rest = init ++ [last] :=
    ⟨rest.dropLast, rest.getLast hne, (List.dropLast_append_getLast hne).symm⟩
  obtain ⟨-, hnodup⟩ := List.nodup_cons.mp h.nodup
  have hlast : last ∉ init := fun hmem =>
    (List.nodup_append.mp hnodup).2.2 _ hmem _ (List.mem_singleton.mpr rfl) rfl
  obtain ⟨b, hinit, hend⟩ := segment_append_iff.mp h.walk_next
  obtain ⟨rfl, hend⟩ := segment_cons_iff.mp hend
  have hb : next b = e := segment_nil_iff.mp hend
  have hprev : prev e = b := by
    rw [← hb]
    exact h.back b (by simp)
  have hhead : prev (next e) = e := h.back e List.mem_cons_self
  rw [hprev]
  refine ⟨segment_append_iff.mpr ⟨b, hinit.congr fun x hx => ?_, .cons ?_⟩, by simp, hnodup,
    fun x hx => ?_⟩
  · rw [Function.update_of_ne]
    rintro rfl
    exact hlast hx
  · rw [Function.update_self]
    exact .nil _
  · by_cases hxb : x = b
    · rw [hxb, Function.update_self, Function.update_self]
    · have hback := h.back x (List.mem_cons_of_mem _ hx)
      have hnext : next x ≠ next e := by
        intro heq
        rw [heq, hhead] at hback
        subst hback
        exact (List.nodup_cons.mp h.nodup).1 hx
      rw [Function.update_of_ne hxb, Function.update_of_ne hnext, hback]

section Loops

variable [DecidableEq α] (step : σ → α → α) (body : σ → α → σ) {rounds : ℕ} {s : σ} {rest : List α}

/-- A `do while` loop that starts behind the head visits the other elements, then the head. -/
theorem doWhile_round (hlinks : ∀ s t x, step (body s t) x = step s x)
    (h : Ring (step s) prev head (head :: rest)) (hrounds : rest.length < rounds) :
    doWhile step body (step s head) rounds s (step s head) =
      some ((rest ++ [head]).foldl body s) := by
  have hround := h.walk_round
  have hnodup : (rest ++ [head]).Nodup := by
    have hcons := List.nodup_cons.mp h.nodup
    exact List.nodup_append.mpr ⟨hcons.2, by simp, fun x hx y hy => by
      rw [List.mem_singleton.mp hy]
      rintro rfl
      exact hcons.1 hx⟩
  have hlen : (rest ++ [head]).length = rest.length + 1 := by simp
  cases hnodes : rest ++ [head] with
  | nil => simp at hnodes
  | cons first others =>
    rw [hnodes] at hround hnodup hlen
    obtain ⟨rfl, -⟩ := segment_cons_iff.mp hround
    rw [List.length_cons] at hlen
    exact doWhile_eq hlinks hround (List.nodup_cons.mp hnodup).1 (by omega)

/-- A `for` loop from behind the head up to it visits the other elements. -/
theorem forUntil_rest (hlinks : ∀ s t x, step (body s t) x = step s x)
    (h : Ring (step s) prev head (head :: rest)) (hrounds : rest.length < rounds) :
    forUntil step body head rounds s (step s head) = some (rest.foldl body s) :=
  forUntil_eq hlinks h.walk_next (List.nodup_cons.mp h.nodup).1 hrounds

end Loops

end Ring

end Smor.Lib
