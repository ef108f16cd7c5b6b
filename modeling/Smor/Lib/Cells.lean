import Smor.Lib.Chain
import Mathlib.Data.List.Nodup
import Mathlib.Tactic.SplitIfs

/-!
# Lists whose nodes know the cell that points to them

A node has a link to the next node and a pointer to the cell that points to it: the head of
its list or the link of the node in front of it. It is taken out without knowing the list.
Several lists share their nodes' memory; `Linked` says which nodes are on which list.
-/

namespace Smor.Lib

variable {η α : Type*}

/-- The address of a pointer to a node: the head of a list, or the link of a node. -/
inductive Cell (η α : Type*)
  | head (h : η)
  | next (a : α)
  deriving DecidableEq

/-- The pointers: the node in every cell, and the cell that points to a node. -/
structure Links (η α : Type*) where
  cell : Cell η α → α
  prev : α → Option (Cell η α)

namespace Links

variable [DecidableEq η] [DecidableEq α]

/-- A node becomes the first of a list. -/
def insert (null : α) (m : Links η α) (h : η) (a : α) : Links η α :=
  let old := m.cell (.head h)
  { cell := Function.update (Function.update m.cell (.next a) old) (.head h) a
    prev := Function.update
      (if old ≠ null then Function.update m.prev old (some (.next a)) else m.prev) a
      (some (.head h)) }

/-- A node is taken out of its list. -/
def remove (null : α) (m : Links η α) (a : α) : Links η α :=
  let after := m.cell (.next a)
  let prev := if after ≠ null then Function.update m.prev after (m.prev a) else m.prev
  { cell := Function.update
      (match prev a with
      | some c => Function.update m.cell c after
      | none => m.cell) (.next a) null
    prev := Function.update prev a none }

/-- The nodes that are reached from a cell, each of them pointing back. -/
def Threaded (null : α) (m : Links η α) : Cell η α → List α → Prop
  | c, [] => m.cell c = null
  | c, a :: nodes => m.cell c = a ∧ a ≠ null ∧ m.prev a = some c ∧ m.Threaded null (.next a) nodes

end Links

/-- The lists hold these nodes, and no node is on two lists. -/
structure Linked (null : α) (m : Links η α) (nodes : η → List α) : Prop where
  threaded : ∀ h, m.Threaded null (.head h) (nodes h)
  unique : ∀ h h' a, a ∈ nodes h → a ∈ nodes h' → h = h'

namespace Links

variable {null a : α} {m m' : Links η α} {c : Cell η α} {nodes xs ys : List α}

theorem Threaded.chain (h : m.Threaded null c nodes) :
    Chain null (fun a => m.cell (.next a)) (m.cell c) nodes := by
  induction nodes generalizing c with
  | nil => exact chain_nil_iff.mpr h
  | cons a nodes ih =>
    obtain ⟨hcell, hnull, -, hrest⟩ := h
    exact chain_cons_iff.mpr ⟨hcell, hnull, ih hrest⟩

/-- A list depends on its own cells and on the back pointers of its nodes. -/
theorem Threaded.congr (h : m.Threaded null c nodes) (hcell : m'.cell c = m.cell c)
    (hnext : ∀ x ∈ nodes, m'.cell (.next x) = m.cell (.next x))
    (hprev : ∀ x ∈ nodes, m'.prev x = m.prev x) : m'.Threaded null c nodes := by
  induction nodes generalizing c with
  | nil => exact hcell.trans h
  | cons a nodes ih =>
    obtain ⟨hc, hnull, hp, hrest⟩ := h
    refine ⟨hcell.trans hc, hnull, (hprev a List.mem_cons_self).trans hp,
      ih hrest (hnext a List.mem_cons_self) (fun x hx => ?_) fun x hx => ?_⟩
    · exact hnext x (List.mem_cons_of_mem _ hx)
    · exact hprev x (List.mem_cons_of_mem _ hx)

/-- The cell in front of a node: the link of the last node before it. -/
def pred (c : Cell η α) : List α → Cell η α
  | [] => c
  | x :: xs => pred (.next x) xs

theorem pred_mem (c : Cell η α) (xs : List α) : pred c xs = c ∨ ∃ x ∈ xs, pred c xs = .next x := by
  induction xs generalizing c with
  | nil => exact Or.inl rfl
  | cons x xs ih =>
    right
    rcases ih (.next x) with h | ⟨y, hy, h⟩
    · exact ⟨x, List.mem_cons_self, h⟩
    · exact ⟨y, List.mem_cons_of_mem _ hy, h⟩

theorem Threaded.prev_eq (h : m.Threaded null c (xs ++ a :: ys)) :
    m.prev a = some (pred c xs) := by
  induction xs generalizing c with
  | nil => exact h.2.2.1
  | cons x xs ih => exact ih h.2.2.2

/-- The node behind `a`. -/
theorem Threaded.after (h : m.Threaded null c (xs ++ a :: ys)) :
    m.Threaded null (.next a) ys := by
  induction xs generalizing c with
  | nil => exact h.2.2.2
  | cons x xs ih => exact ih h.2.2.2

theorem Threaded.cell_mem (h : m.Threaded null c nodes) (hne : m.cell c ≠ null) :
    m.cell c ∈ nodes := by
  cases nodes with
  | nil => exact absurd h hne
  | cons a nodes => exact h.1 ▸ List.mem_cons_self

/-- A node points back to every cell of its list that points to it. -/
theorem Threaded.prev_cell (h : m.Threaded null c nodes) (hne : m.cell c ≠ null) :
    m.prev (m.cell c) = some c := by
  cases nodes with
  | nil => exact absurd h hne
  | cons a nodes => exact h.1.symm ▸ h.2.2.1

/-- The cell in front of a node points to it. -/
theorem Threaded.cell_pred (h : m.Threaded null c (xs ++ a :: ys)) : m.cell (pred c xs) = a := by
  induction xs generalizing c with
  | nil => exact h.1
  | cons x xs ih => exact ih h.2.2.2

/-- A list without one of its nodes, when the cell in front of it points to the node behind it
and that node points back. -/
theorem Threaded.unlink (h : m.Threaded null c (xs ++ a :: ys)) (hnodup : (xs ++ a :: ys).Nodup)
    (hc : ∀ x ∈ xs ++ a :: ys, c ≠ .next x) (hcell : m'.cell (pred c xs) = m.cell (.next a))
    (hcells : ∀ d, d ≠ pred c xs → d ≠ .next a → m'.cell d = m.cell d)
    (hback : m.cell (.next a) ≠ null → m'.prev (m.cell (.next a)) = some (pred c xs))
    (hbacks : ∀ x, x ≠ a → x ≠ m.cell (.next a) → m'.prev x = m.prev x) :
    m'.Threaded null c (xs ++ ys) := by
  induction xs generalizing c with
  | nil =>
    rw [List.nil_append] at h hnodup hc ⊢
    obtain ⟨-, -, -, hafter⟩ := h
    cases ys with
    | nil => exact hcell.trans hafter
    | cons b rest =>
      obtain ⟨hb, hnull, -, hrest⟩ := hafter
      rw [hb] at hback hbacks hcell
      obtain ⟨ha, hnodup⟩ := List.nodup_cons.mp hnodup
      have hnext : ∀ x ∈ b :: rest, m'.cell (.next x) = m.cell (.next x) := by
        intro x hx
        refine hcells _ (Ne.symm (hc x (List.mem_cons_of_mem _ hx))) ?_
        rw [ne_eq, Cell.next.injEq]
        rintro rfl
        exact ha hx
      refine ⟨hcell, hnull, hback hnull, hrest.congr (hnext b List.mem_cons_self) ?_ ?_⟩
      · exact fun x hx => hnext x (List.mem_cons_of_mem _ hx)
      · intro x hx
        apply hbacks
        · rintro rfl
          exact ha (List.mem_cons_of_mem _ hx)
        · rintro rfl
          exact (List.nodup_cons.mp hnodup).1 hx
  | cons x xs ih =>
    obtain ⟨hx, hnull, hprev, hrest⟩ := h
    rw [List.cons_append] at hnodup hc
    obtain ⟨hxmem, hnodup⟩ := List.nodup_cons.mp hnodup
    have hpred : c ≠ pred c (x :: xs) := by
      rw [pred]
      rcases pred_mem (.next x) xs with hp | ⟨y, hy, hp⟩ <;> rw [hp]
      · exact hc x List.mem_cons_self
      · exact hc y (List.mem_cons_of_mem _ (List.mem_append_left _ hy))
    refine ⟨(hcells c hpred (hc a (by simp))).trans hx, hnull, ?_,
      ih hrest hnodup (fun y hy => ?_) hcell hcells hback⟩
    · refine (hbacks x ?_ fun heq => ?_).trans hprev
      · rintro rfl
        exact hxmem (by simp)
      · have hmem := hrest.after.cell_mem (heq ▸ hnull)
        rw [← heq] at hmem
        exact hxmem (List.mem_append_right _ (List.mem_cons_of_mem _ hmem))
    · rw [ne_eq, Cell.next.injEq]
      rintro rfl
      exact hxmem hy

end Links

namespace Linked

variable {null a : α} {m : Links η α} {nodes : η → List α} {h : η}

theorem nodup (hl : Linked null m nodes) (h : η) : (nodes h).Nodup := (hl.threaded h).chain.nodup

theorem ne_null (hl : Linked null m nodes) (hmem : a ∈ nodes h) : a ≠ null := by
  rintro rfl
  exact (hl.threaded h).chain.null_notMem hmem

/-- The head of a list that is not empty. -/
theorem cons_of_head (hl : Linked null m nodes) (hne : m.cell (.head h) ≠ null) :
    ∃ rest, nodes h = m.cell (.head h) :: rest := by
  have ht := hl.threaded h
  cases hcase : nodes h with
  | nil =>
    rw [hcase] at ht
    exact absurd ht hne
  | cons b rest =>
    rw [hcase] at ht
    exact ⟨rest, by rw [ht.1]⟩

theorem nil_of_head (hl : Linked null m nodes) (hnull : m.cell (.head h) = null) :
    nodes h = [] := by
  have hchain := (hl.threaded h).chain
  rw [hnull] at hchain
  exact hchain.unique (chain_nil_iff.mpr rfl)

variable [DecidableEq η] [DecidableEq α]

/-- A new node becomes the first of its list. -/
theorem insert (hl : Linked null m nodes) (hnull : a ≠ null) (hnew : ∀ h, a ∉ nodes h) (h : η) :
    Linked null (m.insert null h a) (Function.update nodes h (a :: nodes h)) := by
  have hcell : ∀ c, c ≠ .next a → c ≠ .head h → (m.insert null h a).cell c = m.cell c := by
    intro c hc hh
    simp only [Links.insert, Function.update_of_ne hh, Function.update_of_ne hc]
  have hprev : ∀ x, x ≠ a → x ≠ m.cell (.head h) → (m.insert null h a).prev x = m.prev x := by
    intro x hxa hx
    simp only [Links.insert, Function.update_of_ne hxa]
    split_ifs
    · rw [Function.update_of_ne hx]
    · rfl
  have hlink : ∀ h', ∀ x ∈ nodes h', (m.insert null h a).cell (.next x) = m.cell (.next x) := by
    intro h' x hx
    refine hcell _ ?_ (by simp)
    rw [ne_eq, Cell.next.injEq]
    rintro rfl
    exact hnew h' hx
  have hold : ∀ h', ∀ x ∈ nodes h', x ≠ a := by
    rintro h' x hx rfl
    exact hnew h' hx
  refine ⟨fun h' => ?_, fun h₁ h₂ x hx₁ hx₂ => ?_⟩
  · by_cases heq : h' = h
    · subst heq
      rw [Function.update_self]
      refine ⟨by simp [Links.insert], hnull, by simp [Links.insert], ?_⟩
      have hthread := hl.threaded h'
      have hnodup := hl.nodup h'
      have hnext : (m.insert null h' a).cell (.next a) = m.cell (.head h') := by
        simp [Links.insert]
      cases hnodes : nodes h' with
      | nil =>
        rw [hnodes] at hthread
        exact hnext.trans hthread
      | cons b rest =>
        rw [hnodes] at hthread hnodup
        obtain ⟨hb, hbnull, -, hrest⟩ := hthread
        have hbmem : b ∈ nodes h' := by simp [hnodes]
        have hprevb : (m.insert null h' a).prev b = some (.next a) := by
          simp [Links.insert, hb, hbnull, hold h' b hbmem]
        refine ⟨hnext.trans hb, hbnull, hprevb, hrest.congr (hlink h' b hbmem) ?_ ?_⟩
        · intro x hx
          exact hlink h' x (by simp [hnodes, hx])
        · intro x hx
          refine hprev x (hold h' x (by simp [hnodes, hx])) ?_
          rw [hb]
          rintro rfl
          exact (List.nodup_cons.mp hnodup).1 hx
    · rw [Function.update_of_ne heq]
      refine (hl.threaded h').congr (hcell _ (by simp) (by simpa using heq)) (hlink h') ?_
      intro x hx
      refine hprev x (hold h' x hx) ?_
      -- the old first node of `h` is not on `h'`
      rintro rfl
      exact heq (hl.unique h' h _ hx ((hl.threaded h).cell_mem (hl.ne_null hx)))
  · have hsplit : ∀ h', x ∈ Function.update nodes h (a :: nodes h) h' →
        (h' = h ∧ x = a) ∨ x ∈ nodes h' := by
      intro h' hx
      by_cases heq : h' = h
      · subst heq
        rw [Function.update_self] at hx
        exact (List.mem_cons.mp hx).imp (fun hxa => ⟨rfl, hxa⟩) id
      · rw [Function.update_of_ne heq] at hx
        exact Or.inr hx
    rcases hsplit h₁ hx₁ with ⟨e₁, hxa⟩ | hm₁ <;> rcases hsplit h₂ hx₂ with ⟨e₂, hxa'⟩ | hm₂
    · exact e₁.trans e₂.symm
    · exact absurd hxa (hold h₂ x hm₂)
    · exact absurd hxa' (hold h₁ x hm₁)
    · exact hl.unique h₁ h₂ x hm₁ hm₂

/-- What taking out a node writes: the cell in front of it, the back pointer of the node behind
it, and its own pointers. -/
theorem remove_apply (hl : Linked null m nodes) {xs ys : List α}
    (hnodes : nodes h = xs ++ a :: ys) :
    (m.remove null a).cell (Links.pred (.head h) xs) = m.cell (.next a) ∧
    (∀ c, c ≠ Links.pred (.head h) xs → c ≠ .next a → (m.remove null a).cell c = m.cell c) ∧
    (m.cell (.next a) ≠ null →
      (m.remove null a).prev (m.cell (.next a)) = some (Links.pred (.head h) xs)) ∧
    ∀ x, x ≠ a → x ≠ m.cell (.next a) → (m.remove null a).prev x = m.prev x := by
  have hthread := hl.threaded h
  have hnodup := hl.nodup h
  rw [hnodes] at hthread hnodup
  have hprev := hthread.prev_eq
  have hne : m.cell (.next a) ≠ null → m.cell (.next a) ≠ a := by
    intro hnull heq
    have hmem := hthread.after.cell_mem hnull
    rw [heq] at hmem
    exact (List.nodup_cons.mp (List.nodup_append.mp hnodup).2.1).1 hmem
  -- the back pointer of `a` is not overwritten before it is read
  have hread : (if m.cell (.next a) ≠ null then
      Function.update m.prev (m.cell (.next a)) (m.prev a) else m.prev) a =
      some (Links.pred (.head h) xs) := by
    split_ifs with hnull
    · rw [Function.update_of_ne (Ne.symm (hne hnull)), hprev]
    · exact hprev
  have hpred : Links.pred (.head h) xs ≠ Cell.next a := by
    rcases Links.pred_mem (.head h) xs with hp | ⟨x, hx, hp⟩
    · simp [hp]
    · rw [hp, ne_eq, Cell.next.injEq]
      rintro rfl
      exact (List.nodup_append.mp hnodup).2.2 x hx x List.mem_cons_self rfl
  simp only [Links.remove, hread]
  refine ⟨?_, fun c hc hca => ?_, fun hnull => ?_, fun x hxa hx => ?_⟩
  · rw [Function.update_of_ne hpred, Function.update_self]
  · rw [Function.update_of_ne hca, Function.update_of_ne hc]
  · rw [Function.update_of_ne (hne hnull), if_pos hnull, Function.update_self, hprev]
  · rw [Function.update_of_ne hxa]
    split_ifs
    · rw [Function.update_of_ne hx]
    · rfl

/-- A node is taken out of its list. -/
theorem remove (hl : Linked null m nodes) (hmem : a ∈ nodes h) :
    Linked null (m.remove null a) (Function.update nodes h ((nodes h).erase a)) := by
  obtain ⟨xs, ys, hnodes⟩ := List.append_of_mem hmem
  have hnodup := hl.nodup h
  have herase : (nodes h).erase a = xs ++ ys := by
    rw [hnodes] at hnodup ⊢
    have hxs : a ∉ xs := fun hx =>
      (List.nodup_append.mp hnodup).2.2 a hx a List.mem_cons_self rfl
    rw [List.erase_append_right _ hxs, List.erase_cons_head]
  obtain ⟨hcell, hcells, hback, hbacks⟩ := hl.remove_apply hnodes
  have hafter : m.cell (.next a) ≠ null → m.cell (.next a) ∈ nodes h := by
    intro hnull
    have hthread := hl.threaded h
    rw [hnodes] at hthread ⊢
    exact List.mem_append_right _ (List.mem_cons_of_mem _ (hthread.after.cell_mem hnull))
  rw [herase]
  refine ⟨fun h' => ?_, fun h₁ h₂ x hx₁ hx₂ => ?_⟩
  · by_cases heq : h' = h
    · subst heq
      rw [Function.update_self]
      have hthread := hl.threaded h'
      rw [hnodes] at hthread hnodup
      exact hthread.unlink hnodup (by simp) hcell hcells hback hbacks
    · rw [Function.update_of_ne heq]
      have hother : ∀ x ∈ nodes h', x ∉ nodes h := fun x hx hx' => heq (hl.unique h' h x hx hx')
      have hpred : ∀ c, (c = .head h' ∨ ∃ x ∈ nodes h', c = .next x) →
          c ≠ Links.pred (.head h) xs := by
        rintro c hc rfl
        rcases Links.pred_mem (.head h) xs with hp | ⟨y, hy, hp⟩ <;> rw [hp] at hc
        · simp [Ne.symm heq] at hc
        · have hy' : y ∈ nodes h := by simp [hnodes, hy]
          simp only [reduceCtorEq, Cell.next.injEq, false_or] at hc
          obtain ⟨x, hx, rfl⟩ := hc
          exact hother _ hx hy'
      refine (hl.threaded h').congr ?_ (fun x hx => ?_) fun x hx => ?_
      · exact hcells _ (hpred _ (Or.inl rfl)) (by simp)
      · refine hcells _ (hpred _ (Or.inr ⟨x, hx, rfl⟩)) ?_
        rw [ne_eq, Cell.next.injEq]
        rintro rfl
        exact hother _ hx hmem
      · refine hbacks x (fun heq' => hother x hx (heq' ▸ hmem)) fun heq' => ?_
        exact hother x hx (heq' ▸ hafter (heq' ▸ hl.ne_null hx))
  · have hsub : ∀ h', x ∈ Function.update nodes h (xs ++ ys) h' → x ∈ nodes h' := by
      intro h' hx
      by_cases heq : h' = h
      · subst heq
        rw [Function.update_self] at hx
        rw [hnodes]
        rcases List.mem_append.mp hx with hx | hx
        · exact List.mem_append_left _ hx
        · exact List.mem_append_right _ (List.mem_cons_of_mem _ hx)
      · rwa [Function.update_of_ne heq] at hx
    exact hl.unique h₁ h₂ x (hsub h₁ hx₁) (hsub h₂ hx₂)

/-- A node moves to the front of another list. -/
theorem move (hl : Linked null m nodes) {h' : η} (hmem : a ∈ nodes h) (hne : h' ≠ h) :
    Linked null ((m.remove null a).insert null h' a)
      (Function.update (Function.update nodes h ((nodes h).erase a)) h' (a :: nodes h')) := by
  have hremoved := (hl.remove hmem).insert (hl.ne_null hmem) (fun h₁ => ?_) h'
  · rwa [Function.update_of_ne hne] at hremoved
  · by_cases heq : h₁ = h
    · rw [heq, Function.update_self]
      exact (hl.nodup h).not_mem_erase
    · rw [Function.update_of_ne heq]
      exact fun hmem' => heq (hl.unique h₁ h a hmem' hmem)

end Linked

end Smor.Lib
