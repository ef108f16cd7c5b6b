import Mathlib.Data.List.Nodup
import Mathlib.Data.List.Perm.Basic
import Mathlib.Logic.Function.Basic

/-!
# Chains threaded through a successor function

Intrusive lists keep their links in the elements themselves. A `Segment` is a
finite walk along such links, and a `Chain` is a walk that stops at a null element.
The lemmas below describe pushing, popping, and unlinking as updates of the
successor function. Nothing here depends on what the elements stand for. The last part is
about chains of indices in ascending order.
-/

namespace Smor.Lib

variable {α : Type*}

/-- Following `next` from `a` visits exactly `nodes`, in order, and then arrives at `b`. -/
inductive Segment (next : α → α) : α → List α → α → Prop
  | nil (a : α) : Segment next a [] a
  | cons {a b : α} {nodes : List α} : Segment next (next a) nodes b →
      Segment next a (a :: nodes) b

/-- A walk over a nonempty list starts at its first node. -/
theorem segment_cons_iff {next : α → α} {a b c : α} {nodes : List α} :
    Segment next a (c :: nodes) b ↔ a = c ∧ Segment next (next c) nodes b := by
  constructor
  · rintro (_ | h)
    exact ⟨rfl, h⟩
  · rintro ⟨rfl, h⟩
    exact .cons h

/-- A walk over no nodes stays where it is. -/
@[simp] theorem segment_nil_iff {next : α → α} {a b : α} : Segment next a [] b ↔ a = b := by
  constructor
  · rintro ⟨_⟩
    rfl
  · rintro rfl
    exact .nil a

/-- A walk over a concatenation is two consecutive walks. -/
theorem segment_append_iff {next : α → α} {a c : α} {xs ys : List α} :
    Segment next a (xs ++ ys) c ↔ ∃ b, Segment next a xs b ∧ Segment next b ys c := by
  induction xs generalizing a with
  | nil => simp
  | cons x xs ih =>
    simp only [List.cons_append, segment_cons_iff, ih]
    constructor
    · rintro ⟨rfl, b, hxs, hys⟩
      exact ⟨b, ⟨rfl, hxs⟩, hys⟩
    · rintro ⟨b, ⟨rfl, hxs⟩, hys⟩
      exact ⟨rfl, b, hxs, hys⟩

/-- Two successor functions that agree on the visited nodes give the same walk. -/
theorem Segment.congr {next next' : α → α} {a b : α} {nodes : List α}
    (h : Segment next a nodes b) (heq : ∀ x ∈ nodes, next' x = next x) :
    Segment next' a nodes b := by
  induction h with
  | nil a => exact .nil a
  | @cons a b nodes _ ih =>
    apply Segment.cons
    rw [heq a (by simp)]
    exact ih fun x hx => heq x (by simp [hx])

/-- Following `next` from `a` visits exactly `nodes` and then stops at `null`. -/
structure Chain (null : α) (next : α → α) (a : α) (nodes : List α) : Prop where
  /-- The walk along the links ends at `null`. -/
  segment : Segment next a nodes null
  /-- The walk does not meet `null` before its end. -/
  null_notMem : null ∉ nodes

/-- The empty chain is exactly the chain that starts at `null`. -/
@[simp] theorem chain_nil_iff {null a : α} {next : α → α} : Chain null next a [] ↔ a = null := by
  constructor
  · intro h
    simpa using h.segment
  · rintro rfl
    exact ⟨.nil a, by simp⟩

/-- A nonempty chain is its first node followed by the chain of its successor. -/
theorem chain_cons_iff {null a b : α} {next : α → α} {nodes : List α} :
    Chain null next a (b :: nodes) ↔ a = b ∧ b ≠ null ∧ Chain null next (next b) nodes := by
  constructor
  · rintro ⟨hseg, hnull⟩
    obtain ⟨rfl, hrest⟩ := segment_cons_iff.mp hseg
    simp only [List.mem_cons, not_or] at hnull
    exact ⟨rfl, Ne.symm hnull.1, hrest, hnull.2⟩
  · rintro ⟨rfl, hne, hseg, hnull⟩
    exact ⟨.cons hseg, by simp [Ne.symm hne, hnull]⟩

/-- A chain that does not start at `null` has its start as its first node. -/
theorem Chain.cons_of_ne {null a : α} {next : α → α} {nodes : List α}
    (h : Chain null next a nodes) (hne : a ≠ null) :
    ∃ rest, nodes = a :: rest ∧ Chain null next (next a) rest := by
  cases nodes with
  | nil => exact absurd (chain_nil_iff.mp h) hne
  | cons b rest =>
    obtain ⟨rfl, -, hrest⟩ := chain_cons_iff.mp h
    exact ⟨rest, rfl, hrest⟩

/-- A chain is determined by its first node. -/
theorem Chain.unique {null a : α} {next : α → α} {xs ys : List α}
    (hx : Chain null next a xs) (hy : Chain null next a ys) : xs = ys := by
  induction xs generalizing a ys with
  | nil =>
    cases ys with
    | nil => rfl
    | cons y ys =>
      obtain ⟨rfl, hne, _⟩ := chain_cons_iff.mp hy
      exact absurd (chain_nil_iff.mp hx) hne
  | cons x xs ih =>
    obtain ⟨rfl, hne, hxs⟩ := chain_cons_iff.mp hx
    cases ys with
    | nil => exact absurd (chain_nil_iff.mp hy) hne
    | cons y ys =>
      obtain ⟨rfl, _, hys⟩ := chain_cons_iff.mp hy
      rw [ih hxs hys]

/-- The part of a chain from one of its nodes on is again a chain. -/
theorem Chain.suffix {null a b : α} {next : α → α} {xs ys : List α}
    (h : Chain null next a (xs ++ b :: ys)) : Chain null next b (b :: ys) := by
  obtain ⟨c, _, hys⟩ := segment_append_iff.mp h.segment
  obtain ⟨rfl, _⟩ := segment_cons_iff.mp hys
  exact ⟨hys, fun hmem => h.null_notMem (List.mem_append_right _ hmem)⟩

/-- The end of a chain is where the links in the other direction start. -/
theorem Chain.getLast_reverse {null a : α} {next : α → α} {xs : List α}
    (h : Chain null next a xs) (hne : xs ≠ []) :
    xs.reverse.getLast? = some a := by
  cases xs with
  | nil => exact absurd rfl hne
  | cons x xs =>
    obtain ⟨rfl, -⟩ := chain_cons_iff.mp h
    rw [List.getLast?_reverse, List.head?_cons]

/-- The chain behind an element. -/
theorem Chain.behind {null a e : α} {next : α → α} {us vs : List α}
    (h : Chain null next a (us ++ e :: vs)) : Chain null next (next e) vs :=
  (chain_cons_iff.mp h.suffix).2.2

/-- A chain is acyclic: a repeated node would make its two tails equal. -/
theorem Chain.nodup {null a : α} {next : α → α} {nodes : List α}
    (h : Chain null next a nodes) : nodes.Nodup := by
  induction nodes generalizing a with
  | nil => exact List.nodup_nil
  | cons b nodes ih =>
    obtain ⟨rfl, _, htail⟩ := chain_cons_iff.mp h
    refine List.nodup_cons.mpr ⟨fun hmem => ?_, ih htail⟩
    obtain ⟨xs, ys, rfl⟩ := List.append_of_mem hmem
    have hlen := congrArg List.length (h.unique htail.suffix)
    simp only [List.length_cons, List.length_append] at hlen
    omega

/-- Two chains of one successor function with the same nodes are the same chain. -/
theorem Chain.eq_of_mem_iff {null a b : α} {next : α → α} {xs ys : List α}
    (hx : Chain null next a xs) (hy : Chain null next b ys) (hmem : ∀ c, c ∈ xs ↔ c ∈ ys) :
    a = b ∧ xs = ys := by
  have hperm : xs.Perm ys := (List.perm_ext_iff_of_nodup hx.nodup hy.nodup).mpr hmem
  cases ys with
  | nil =>
    obtain rfl := List.perm_nil.mp hperm
    exact ⟨(chain_nil_iff.mp hx).trans (chain_nil_iff.mp hy).symm, rfl⟩
  | cons c ys =>
    obtain ⟨rfl, _⟩ := chain_cons_iff.mp hy
    obtain ⟨us, vs, rfl⟩ := List.append_of_mem ((hmem b).mpr (by simp))
    -- the two chains coincide from `b` on, so nothing can precede `b` in the first
    have hsuffix := hx.suffix.unique hy
    have hlen := hperm.length_eq
    rw [← hsuffix, List.length_append] at hlen
    obtain rfl : us = [] := List.eq_nil_of_length_eq_zero (by omega)
    exact ⟨(chain_cons_iff.mp hx).1, hsuffix⟩

/-- Two successor functions that agree on the visited nodes give the same chain. -/
theorem Chain.congr {null a : α} {next next' : α → α} {nodes : List α}
    (h : Chain null next a nodes) (heq : ∀ x ∈ nodes, next' x = next x) :
    Chain null next' a nodes :=
  ⟨h.segment.congr heq, h.null_notMem⟩

/-- The links of a chain are determined by its nodes. -/
theorem Chain.links_eq {null a a' : α} {next next' : α → α} {nodes : List α}
    (h : Chain null next a nodes) (h' : Chain null next' a' nodes) :
    a' = a ∧ ∀ x ∈ nodes, next' x = next x := by
  induction nodes generalizing a a' with
  | nil => exact ⟨(chain_nil_iff.mp h').trans (chain_nil_iff.mp h).symm, fun x hx => by cases hx⟩
  | cons b nodes ih =>
    obtain ⟨rfl, -, hrest⟩ := chain_cons_iff.mp h
    obtain ⟨rfl, -, hrest'⟩ := chain_cons_iff.mp h'
    obtain ⟨hnext, hall⟩ := ih hrest hrest'
    exact ⟨rfl, List.forall_mem_cons.mpr ⟨hnext, hall⟩⟩

/-- The first node of a nonempty chain is the start of the walk. -/
theorem Chain.mem_start {null a : α} {next : α → α} {nodes : List α}
    (h : Chain null next a nodes) (hne : a ≠ null) : a ∈ nodes := by
  cases nodes with
  | nil => exact absurd (chain_nil_iff.mp h) hne
  | cons b nodes =>
    obtain ⟨rfl, _⟩ := chain_cons_iff.mp h
    simp

/-- A node of a chain other than its start has a predecessor in the chain. -/
theorem Chain.exists_pred {null a b : α} {next : α → α} {nodes : List α}
    (h : Chain null next a nodes) (hmem : b ∈ nodes) (hne : b ≠ a) :
    ∃ xs c ys, nodes = xs ++ c :: b :: ys ∧ next c = b := by
  induction nodes generalizing a with
  | nil => simp at hmem
  | cons d nodes ih =>
    obtain ⟨rfl, _, htail⟩ := chain_cons_iff.mp h
    have hmem' : b ∈ nodes := (List.mem_cons.mp hmem).resolve_left hne
    by_cases hb : b = next a
    · cases nodes with
      | nil => simp at hmem'
      | cons e nodes =>
        obtain ⟨he, _⟩ := chain_cons_iff.mp htail
        exact ⟨[], a, nodes, by rw [hb, he]; rfl, hb.symm⟩
    · obtain ⟨xs, c, ys, rfl, hc⟩ := ih htail hmem' hb
      exact ⟨a :: xs, c, ys, rfl, hc⟩

/-- A predecessor that lies in the chain directly precedes its successor there. -/
theorem Chain.split_at {null a b c : α} {next : α → α} {nodes : List α}
    (h : Chain null next a nodes) (hmem : c ∈ nodes) (hnext : next c = b) (hb : b ≠ null) :
    ∃ xs ys, nodes = xs ++ c :: b :: ys := by
  obtain ⟨xs, zs, rfl⟩ := List.append_of_mem hmem
  obtain ⟨_, _, hzs⟩ := chain_cons_iff.mp h.suffix
  cases zs with
  | nil => exact absurd (hnext ▸ chain_nil_iff.mp hzs) hb
  | cons d ys =>
    obtain ⟨hd, _⟩ := chain_cons_iff.mp hzs
    exact ⟨xs, ys, by rw [← hd, hnext]⟩

section Update

variable [DecidableEq α]

/-- Redirecting a node outside the chain does not change the chain. -/
theorem Chain.update_of_notMem {null a b c : α} {next : α → α} {nodes : List α}
    (h : Chain null next a nodes) (hb : b ∉ nodes) :
    Chain null (Function.update next b c) a nodes :=
  h.congr fun x hx => Function.update_of_ne (fun hxb => hb (by rwa [hxb] at hx)) _ _

/-- Pushing a fresh node links it to the old start. -/
theorem Chain.push {null a b : α} {next : α → α} {nodes : List α}
    (h : Chain null next a nodes) (hb : b ∉ nodes) (hnull : b ≠ null) :
    Chain null (Function.update next b a) b (b :: nodes) := by
  refine chain_cons_iff.mpr ⟨rfl, hnull, ?_⟩
  rw [Function.update_self]
  exact h.update_of_notMem hb

/-- Linking a fresh node behind the last one appends it. -/
theorem Chain.append {null a b last : α} {next : α → α} {nodes : List α}
    (h : Chain null next a nodes) (hlast : nodes.getLast? = some last) (hb : b ∉ nodes)
    (hnull : b ≠ null) :
    Chain null (Function.update (Function.update next last b) b null) a (nodes ++ [b]) := by
  obtain ⟨init, rfl⟩ : ∃ init, nodes = init ++ [last] := List.getLast?_eq_some_iff.mp hlast
  have hnodup := List.nodup_append.mp h.nodup
  obtain ⟨c, hinit, hend⟩ := segment_append_iff.mp h.segment
  obtain ⟨rfl, -⟩ := segment_cons_iff.mp hend
  have hbc : b ≠ c := by
    rintro rfl
    exact hb (by simp)
  constructor
  · refine segment_append_iff.mpr ⟨b, segment_append_iff.mpr ⟨c, hinit.congr fun x hx => ?_,
      .cons ?_⟩, .cons ?_⟩
    · have hxb : x ≠ b := by
        rintro rfl
        exact hb (by simp [hx])
      have hxc : x ≠ c := fun heq => hnodup.2.2 x hx c (by simp) heq
      rw [Function.update_of_ne hxb, Function.update_of_ne hxc]
    · rw [Function.update_of_ne (Ne.symm hbc), Function.update_self]
      exact .nil b
    · rw [Function.update_self]
      exact .nil null
  · intro hmem
    rcases List.mem_append.mp hmem with hmem | hmem
    · exact h.null_notMem hmem
    · exact hnull (List.mem_singleton.mp hmem).symm

/-- Whatever the chain holds: after `c` has been linked to `b` and `b` to the end, there still is a
chain from `a`, and it has no new members but `b`. -/
theorem Chain.relink {null a b : α} {next : α → α} {nodes : List α}
    (h : Chain null next a nodes) (c : α) (hb : b ≠ null) :
    ∃ nodes', Chain null (Function.update (Function.update next c b) b null) a nodes' ∧
      ∀ x ∈ nodes', x ∈ nodes ∨ x = b := by
  induction nodes generalizing a with
  | nil => exact ⟨[], by simpa using h, by simp⟩
  | cons d nodes ih =>
    obtain ⟨rfl, hnull, hrest⟩ := chain_cons_iff.mp h
    by_cases hab : a = b
    · subst hab
      refine ⟨[a], chain_cons_iff.mpr ⟨rfl, hnull, by simp⟩, fun x hx => ?_⟩
      exact Or.inr (List.mem_singleton.mp hx)
    by_cases hac : a = c
    · subst hac
      refine ⟨[a, b], chain_cons_iff.mpr ⟨rfl, hnull, ?_⟩, fun x hx => ?_⟩
      · rw [Function.update_of_ne hab, Function.update_self]
        exact chain_cons_iff.mpr ⟨rfl, hb, by simp⟩
      · rcases List.mem_cons.mp hx with rfl | hx
        · exact Or.inl List.mem_cons_self
        · exact Or.inr (List.mem_singleton.mp hx)
    · obtain ⟨nodes', hchain, hsub⟩ := ih hrest
      refine ⟨a :: nodes', chain_cons_iff.mpr ⟨rfl, hnull, ?_⟩, fun x hx => ?_⟩
      · rwa [Function.update_of_ne hab, Function.update_of_ne hac]
      · rcases List.mem_cons.mp hx with rfl | hx
        · exact Or.inl List.mem_cons_self
        · exact (hsub x hx).imp_left (List.mem_cons_of_mem a)

/-- Redirecting a predecessor past its successor removes the successor from the chain. -/
theorem Chain.unlink {null a b c : α} {next : α → α} {xs ys : List α}
    (h : Chain null next a (xs ++ c :: b :: ys)) :
    Chain null (Function.update next c (next b)) a (xs ++ c :: ys) := by
  have hnodup := h.nodup
  obtain ⟨d, hxs, hrest⟩ := segment_append_iff.mp h.segment
  obtain ⟨rfl, hrest⟩ := segment_cons_iff.mp hrest
  obtain ⟨_, hys⟩ := segment_cons_iff.mp hrest
  simp only [List.nodup_append, List.nodup_cons, List.mem_cons, not_or] at hnodup
  obtain ⟨_, ⟨⟨_, hcys⟩, _⟩, hdisj⟩ := hnodup
  have hout : ∀ x ∈ xs, Function.update next d (next b) x = next x := fun x hx =>
    Function.update_of_ne (hdisj x hx d (Or.inl rfl)) _ _
  have hout' : ∀ x ∈ ys, Function.update next d (next b) x = next x := fun x hx =>
    Function.update_of_ne (fun hxd => hcys (by rwa [hxd] at hx)) _ _
  refine ⟨segment_append_iff.mpr ⟨d, hxs.congr hout, .cons ?_⟩, ?_⟩
  · rw [Function.update_self]
    exact hys.congr hout'
  · intro hmem
    apply h.null_notMem
    simp only [List.mem_append, List.mem_cons] at hmem ⊢
    tauto

/-- Redirecting the link in front of an element past it, when `p` is where the links in the other
direction lead from there. -/
theorem Chain.bypass {null a e p : α} {next back : α → α} {us vs : List α}
    (h : Chain null next a (us ++ e :: vs)) (hp : Chain null back p us.reverse) :
    Chain null (if p = null then next else Function.update next p (next e))
      (if p = null then next e else a) (us ++ vs) := by
  cases hus : us.reverse with
  | nil =>
    obtain rfl := List.reverse_eq_nil_iff.mp hus
    rw [hus] at hp
    obtain rfl := chain_nil_iff.mp hp
    rw [if_pos rfl, if_pos rfl]
    exact h.behind
  | cons c rest =>
    obtain rfl : us = rest.reverse ++ [c] := by
      rw [← List.reverse_reverse us, hus, List.reverse_cons]
    rw [hus] at hp
    obtain ⟨rfl, hnull, -⟩ := chain_cons_iff.mp hp
    rw [if_neg hnull, if_neg hnull, List.append_assoc]
    rw [List.append_assoc] at h
    exact h.unlink

end Update

section Ascending

/-- `b` is the least index from `a` to below `n` that satisfies `p`, or 0 if there is none. -/
def LeastFrom (p : ℕ → Prop) (n a b : ℕ) : Prop :=
  (a ≤ b ∧ b < n ∧ p b ∧ ∀ k, a ≤ k → k < b → ¬p k) ∨ (b = 0 ∧ ∀ k, a ≤ k → k < n → ¬p k)

variable {p q : ℕ → Prop} {n a b c : ℕ}

/-- The least index depends only on the indices that are looked at. -/
theorem LeastFrom.congr (h : LeastFrom p n a b) (heq : ∀ k, a ≤ k → k < n → (q k ↔ p k)) :
    LeastFrom q n a b := by
  rcases h with ⟨hle, hlt, hb, hbelow⟩ | ⟨hb, hnone⟩
  · refine Or.inl ⟨hle, hlt, (heq b hle hlt).mpr hb, fun k hk hkb hq => ?_⟩
    exact hbelow k hk hkb ((heq k hk (by omega)).mp hq)
  · exact Or.inr ⟨hb, fun k hk hkn hq => hnone k hk hkn ((heq k hk hkn).mp hq)⟩

/-- The search can start earlier if nothing is skipped. -/
theorem LeastFrom.extend (h : LeastFrom p n c b) (hle : a ≤ c)
    (hskip : ∀ k, a ≤ k → k < c → ¬p k) : LeastFrom p n a b := by
  rcases h with ⟨hcb, hlt, hb, hbelow⟩ | ⟨hb, hnone⟩
  · refine Or.inl ⟨by omega, hlt, hb, fun k hk hkb => ?_⟩
    rcases Nat.lt_or_ge k c with hkc | hkc
    · exact hskip k hk hkc
    · exact hbelow k hkc hkb
  · refine Or.inr ⟨hb, fun k hk hkn => ?_⟩
    rcases Nat.lt_or_ge k c with hkc | hkc
    · exact hskip k hk hkc
    · exact hnone k hkc hkn

/-- The least index is not above any index that satisfies the predicate. -/
theorem LeastFrom.le (h : LeastFrom p n a b) (hac : a ≤ c) (hcn : c < n) (hc : p c) :
    a ≤ b ∧ b ≤ c ∧ p b := by
  rcases h with ⟨hle, -, hb, hbelow⟩ | ⟨-, hnone⟩
  · refine ⟨hle, ?_, hb⟩
    by_contra hlt
    exact hbelow c hac (by omega) hc
  · exact absurd hc (hnone c hac hcn)

/-- Below an index there is a greatest one that satisfies the predicate, if there is any. -/
theorem exists_greatest_below (hab : a < b) (ha : p a) :
    ∃ c, a ≤ c ∧ c < b ∧ p c ∧ ∀ k, c < k → k < b → ¬p k := by
  induction b with
  | zero => omega
  | succ b ih =>
    by_cases hb : p b
    · exact ⟨b, by omega, by omega, hb, fun k hk hkb => by omega⟩
    · have hne : a ≠ b := by
        rintro rfl
        exact hb ha
      obtain ⟨c, hac, hcb, hc, habove⟩ := ih (by omega)
      refine ⟨c, hac, by omega, hc, fun k hk hkb => ?_⟩
      rcases Nat.lt_or_ge k b with hlt | hge
      · exact habove k hk hlt
      · obtain rfl : k = b := by omega
        exact hb

/-- Links that always name the next index of a set form the ascending chain of the set. -/
theorem exists_ascending_chain {next : ℕ → ℕ} {start : ℕ} (hpos : 0 < a)
    (hnext : ∀ i, a ≤ i → i < n → p i → LeastFrom p n (i + 1) (next i))
    (hstart : LeastFrom p n a start) :
    ∃ nodes, Chain 0 next start nodes ∧ nodes.Pairwise (· < ·) ∧
      ∀ i, i ∈ nodes ↔ a ≤ i ∧ i < n ∧ p i := by
  -- the induction is on the number of indices that are left
  obtain ⟨m, hm⟩ : ∃ m, n - a ≤ m := ⟨n - a, Nat.le_refl _⟩
  induction m generalizing a start with
  | zero =>
    rcases hstart with ⟨hle, hlt, -⟩ | ⟨rfl, hnone⟩
    · omega
    · refine ⟨[], chain_nil_iff.mpr rfl, List.Pairwise.nil, fun i => ?_⟩
      simp only [List.not_mem_nil, false_iff]
      rintro ⟨hle, hlt, -⟩
      omega
  | succ m ih =>
    rcases hstart with ⟨hle, hlt, hp, hbelow⟩ | ⟨rfl, hnone⟩
    · obtain ⟨nodes, hchain, hsorted, hmem⟩ := ih (show 0 < start + 1 by omega)
        (fun i hi => hnext i (by omega)) (hnext start hle hlt hp) (by omega)
      refine ⟨start :: nodes, chain_cons_iff.mpr ⟨rfl, by omega, hchain⟩,
        List.pairwise_cons.mpr ⟨fun i hi => ?_, hsorted⟩, fun i => ?_⟩
      · have := ((hmem i).mp hi).1
        omega
      · rw [List.mem_cons, hmem i]
        constructor
        · rintro (rfl | ⟨hi, hin, hpi⟩)
          · exact ⟨hle, hlt, hp⟩
          · exact ⟨by omega, hin, hpi⟩
        · rintro ⟨hi, hin, hpi⟩
          rcases Nat.lt_trichotomy i start with hlt' | heq | hgt
          · exact absurd hpi (hbelow i hi hlt')
          · exact Or.inl heq
          · exact Or.inr ⟨hgt, hin, hpi⟩
    · refine ⟨[], chain_nil_iff.mpr rfl, List.Pairwise.nil, fun i => ?_⟩
      simp only [List.not_mem_nil, false_iff]
      rintro ⟨hi, hin, hpi⟩
      exact hnone i hi hin hpi

end Ascending

end Smor.Lib
