import Smor.Lib.Machine
import Mathlib.Data.List.GetD

/-!
# Blocks of memory

A block is a range of addresses, which may go around the end of the address space. Quadwords that
lie one after the other in memory are given by a list, and `storeWords` writes such a list.
-/

namespace Smor.Lib

/-- A range of addresses, by its first address and its number of bytes. -/
structure Block where
  base : Word
  size : ℕ

instance : Membership Word Block := ⟨fun b a => (a - b.base).toNat < b.size⟩

theorem Block.mem_def {b : Block} {a : Word} : a ∈ b ↔ (a - b.base).toNat < b.size := Iff.rfl

instance (b : Block) (a : Word) : Decidable (a ∈ b) :=
  inferInstanceAs (Decidable ((a - b.base).toNat < b.size))

/-- The address of the quadword `k` places behind another one. -/
def wordAt (a : Word) (k : ℕ) : Word := a + BitVec.ofNat 64 (8 * k)

@[simp] theorem wordAt_zero (a : Word) : wordAt a 0 = a := by simp [wordAt]

theorem wordAt_succ (a : Word) (k : ℕ) : wordAt a (k + 1) = wordAt (a + 8) k := by
  unfold wordAt
  bv_omega

theorem wordAt_add (a : Word) (j k : ℕ) : wordAt a (j + k) = wordAt (wordAt a j) k := by
  unfold wordAt
  bv_omega

/-- Different quadwords have different addresses. -/
theorem wordAt_injective {a : Word} {j k : ℕ} (hj : j < 2 ^ 60) (hk : k < 2 ^ 60)
    (h : wordAt a j = wordAt a k) : j = k := by
  unfold wordAt at h
  bv_omega

/-- Memory holds the quadwords of a list one after the other. -/
def Holds (mem : Word → Word) (a : Word) (words : List Word) : Prop :=
  ∀ k < words.length, mem (wordAt a k) = words.getD k 0

/-- Write quadwords one after the other. -/
def storeWords (mem : Word → Word) (a : Word) : List Word → Word → Word
  | [] => mem
  | w :: words => storeWords (Function.update mem a w) (a + 8) words

section Words

variable {mem mem' : Word → Word} {a x : Word} {words words' : List Word}

/-- The words of a stack are those that memory holds at its top. -/
theorem Machine.hasTop_iff_holds {m : Machine} : m.HasTop words ↔ Holds m.mem (m.reg .rsp) words :=
  Iff.rfl

theorem Holds.congr (h : Holds mem a words)
    (hmem : ∀ k < words.length, mem' (wordAt a k) = mem (wordAt a k)) : Holds mem' a words := by
  intro k hk
  rw [hmem k hk]
  exact h k hk

/-- Words that follow other words. -/
theorem Holds.append (h : Holds mem a words) (h' : Holds mem (wordAt a words.length) words') :
    Holds mem a (words ++ words') := by
  intro k hk
  rw [List.length_append] at hk
  by_cases hlt : k < words.length
  · rw [List.getD_append _ _ _ _ hlt]
    exact h k hlt
  · rw [List.getD_append_right _ _ _ _ (by omega), ← h' _ (by omega), ← wordAt_add]
    congr 2
    omega

/-- A store leaves other addresses alone. -/
theorem storeWords_of_ne (h : ∀ k < words.length, x ≠ wordAt a k) :
    storeWords mem a words x = mem x := by
  induction words generalizing mem a with
  | nil => rfl
  | cons w words ih =>
    rw [storeWords, ih, Function.update_of_ne]
    · simpa using h 0 (by simp)
    · intro k hk
      rw [← wordAt_succ]
      exact h (k + 1) (by simpa using hk)

/-- A store is read back. -/
theorem holds_storeWords (hlen : words.length < 2 ^ 60) :
    Holds (storeWords mem a words) a words := by
  induction words generalizing mem a with
  | nil =>
    intro k hk
    simp at hk
  | cons w words ih =>
    rw [List.length_cons] at hlen
    intro k hk
    rw [List.length_cons] at hk
    rw [storeWords]
    cases k with
    | zero =>
      rw [storeWords_of_ne, wordAt_zero, Function.update_self, List.getD_cons_zero]
      intro j hj heq
      rw [← wordAt_succ] at heq
      have := wordAt_injective (by omega) (by omega) heq
      omega
    | succ k =>
      rw [wordAt_succ, List.getD_cons_succ]
      exact ih (by omega) k (by omega)

end Words

end Smor.Lib
