import Mathlib.Data.Nat.Notation
import Mathlib.Tactic.SplitIfs

/-!
# Sweeps

A sweep is a nest of loops over a state, in which every visited item is to be marked done and
stays done afterwards. `Sweeps` says what one piece of the nest does. It is kept by
conditionals and by loops, so that the rule for the whole nest follows from its body.
-/

namespace Smor.Lib

variable {σ α ι : Type*} {I : σ → Prop} {D : ι → σ → Prop}

/-- A partial action keeps the invariant `I` and everything that is done, and it
marks the items that satisfy `V`. -/
def Sweeps (I : σ → Prop) (D : ι → σ → Prop) (f : σ → Option σ) (V : ι → Prop) : Prop :=
  ∀ s t, I s → f s = some t → I t ∧ (∀ p, D p s → D p t) ∧ ∀ p, V p → D p t

/-- An action that marks some items marks every smaller set of them. -/
theorem Sweeps.mono {f : σ → Option σ} {V W : ι → Prop} (h : Sweeps I D f V)
    (hsub : ∀ p, W p → V p) : Sweeps I D f W := by
  intro s t hs ht
  obtain ⟨hinv, hkeep, hvisit⟩ := h s t hs ht
  exact ⟨hinv, hkeep, fun p hp => hvisit p (hsub p hp)⟩

/-- A conditional visits what its body visits, if the condition holds. -/
theorem Sweeps.ite {f : σ → Option σ} {V : ι → Prop} (c : Prop) [Decidable c]
    (h : c → Sweeps I D f V) :
    Sweeps I D (fun s => if c then f s else some s) fun p => c ∧ V p := by
  intro s t hs ht
  dsimp only at ht
  split_ifs at ht with hc
  · obtain ⟨hinv, hkeep, hvisit⟩ := h hc s t hs ht
    exact ⟨hinv, hkeep, fun p hp => hvisit p hp.2⟩
  · obtain rfl := Option.some.inj ht
    exact ⟨hs, fun _ hp => hp, fun p hp => absurd hp.1 hc⟩

/-- A loop visits what its rounds visit. -/
theorem Sweeps.foldlM {f : σ → α → Option σ} {V : α → ι → Prop} {items : List α}
    (h : ∀ a ∈ items, Sweeps I D (fun s => f s a) (V a)) :
    Sweeps I D (fun s => items.foldlM f s) fun p => ∃ a ∈ items, V a p := by
  induction items with
  | nil =>
    intro s t hs ht
    obtain rfl := Option.some.inj ht
    exact ⟨hs, fun _ hp => hp, fun p hp => by simp at hp⟩
  | cons a items ih =>
    intro s t hs ht
    simp only [List.foldlM_cons, Option.bind_eq_bind, Option.bind_eq_some_iff] at ht
    obtain ⟨u, hu, hrest⟩ := ht
    obtain ⟨hinv, hkeep, hvisit⟩ := h a (by simp) s u hs hu
    obtain ⟨hinv', hkeep', hvisit'⟩ :=
      ih (fun b hb => h b (List.mem_cons_of_mem a hb)) u t hinv hrest
    refine ⟨hinv', fun p hp => hkeep' p (hkeep p hp), fun p hp => ?_⟩
    obtain ⟨b, hb, hvb⟩ := hp
    rcases List.mem_cons.mp hb with rfl | hb
    · exact hkeep' p (hvisit p hvb)
    · exact hvisit' p ⟨b, hb, hvb⟩

/-- A counting loop: if every round completes and takes the invariant of its number to that of
the next, then the loop completes. -/
theorem foldlM_range_of_step {J : ℕ → σ → Prop} {f : σ → ℕ → Option σ} {n : ℕ}
    (h : ∀ k < n, ∀ s, J k s → ∃ t, f s k = some t ∧ J (k + 1) t) {s : σ} (hs : J 0 s) :
    ∃ t, (List.range n).foldlM f s = some t ∧ J n t := by
  induction n with
  | zero => exact ⟨s, rfl, hs⟩
  | succ n ih =>
    obtain ⟨t, ht, hJ⟩ := ih fun k hk => h k (by omega)
    obtain ⟨u, hu, hJ'⟩ := h n (by omega) t hJ
    refine ⟨u, ?_, hJ'⟩
    rw [List.range_succ, List.foldlM_append, ht]
    simp [hu]

/-- A loop whose rounds collect items collects what its rounds do. `P` says which state the items
so far belong to; a loop that has failed collects the rest in vain. -/
theorem foldlM_collects {β : Type*} {P : List β → Option σ → Prop} {f : σ → α → Option σ}
    {g : α → List β} {items : List α}
    (hfail : ∀ found more, P found none → P (found ++ more) none)
    (hstep : ∀ a ∈ items, ∀ found s, P found (some s) → P (found ++ g a) (f s a))
    {found : List β} {s : σ} (hs : P found (some s)) :
    P (found ++ items.flatMap g) (items.foldlM f s) := by
  induction items generalizing found s with
  | nil => simpa using hs
  | cons a items ih =>
    obtain ⟨hfirst, hrest⟩ := List.forall_mem_cons.mp hstep
    have hnext := hfirst found s hs
    rw [List.flatMap_cons, ← List.append_assoc, List.foldlM_cons]
    cases hresult : f s a with
    | none =>
      rw [hresult] at hnext
      exact hfail _ _ hnext
    | some t =>
      rw [hresult] at hnext
      exact ih hrest hnext

end Smor.Lib
