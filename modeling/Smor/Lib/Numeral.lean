import Mathlib.Data.Nat.Digits.Lemmas

/-!
# Reading numerals

A numeral in a base up to 36 is read from the left. Division by the base gives its digits
from the right; writing them in the other order and reading them back is the identity.
-/

namespace Smor.Lib

/-- The value of a digit. Letters of either case count from ten. -/
def digitValue (c : Char) : Option ℕ :=
  if '0' ≤ c ∧ c ≤ '9' then some (c.toNat - '0'.toNat)
  else if 'A' ≤ c ∧ c ≤ 'Z' then some (c.toNat - 'A'.toNat + 10)
  else if 'a' ≤ c ∧ c ≤ 'z' then some (c.toNat - 'a'.toNat + 10)
  else none

/-- Reading one more digit of a numeral. -/
def readDigit (base : ℕ) (value : ℕ) (c : Char) : Option ℕ :=
  (digitValue c).bind fun d => if d < base then some (base * value + d) else none

/-- The value of a numeral; `none` for a text that is no numeral in this base. -/
def readNumeral (base : ℕ) (cs : List Char) : Option ℕ :=
  if cs = [] then none else cs.foldlM (readDigit base) 0

/-- Characters that stand for the digits below `base`. -/
def Depicts (base : ℕ) (digit : ℕ → Char) : Prop := ∀ d < base, digitValue (digit d) = some d

theorem readDigit_of_depicts {base : ℕ} {digit : ℕ → Char} (hdigit : Depicts base digit) {d : ℕ}
    (hd : d < base) (value : ℕ) : readDigit base value (digit d) = some (base * value + d) := by
  simp [readDigit, hdigit d hd, hd]

/-- Reading the digits of a number, the last one first in the list. -/
theorem foldlM_readDigit {base : ℕ} {digit : ℕ → Char} (hdigit : Depicts base digit)
    {ds : List ℕ} (hds : ∀ d ∈ ds, d < base) :
    (ds.reverse.map digit).foldlM (readDigit base) 0 = some (Nat.ofDigits base ds) := by
  induction ds with
  | nil => simp
  | cons d ds ih =>
    have hd : d < base := hds d (by simp)
    have hrest := ih fun d hd => hds d (by simp [hd])
    rw [List.reverse_cons, List.map_append, List.foldlM_append, hrest, Nat.ofDigits_cons]
    simp [readDigit_of_depicts hdigit hd, Nat.add_comm]

/-- A number is read back from its digits. -/
theorem readNumeral_digits {base n : ℕ} (hbase : 1 < base) (hn : n ≠ 0) {digit : ℕ → Char}
    (hdigit : Depicts base digit) :
    readNumeral base ((Nat.digits base n).reverse.map digit) = some n := by
  have hne : (Nat.digits base n).reverse.map digit ≠ [] := by
    simp [Nat.digits_ne_nil_iff_ne_zero.mpr hn]
  rw [readNumeral, if_neg hne, foldlM_readDigit hdigit fun d hd => Nat.digits_lt_base hbase hd,
    Nat.ofDigits_digits]

theorem digit_of_foldlM {base value n : ℕ} {cs : List Char}
    (h : cs.foldlM (readDigit base) value = some n) :
    ∀ c ∈ cs, ∃ d < base, digitValue c = some d := by
  induction cs generalizing value with
  | nil => simp
  | cons c cs ih =>
    rw [List.foldlM_cons] at h
    obtain ⟨next, hdigit, hrest⟩ := Option.bind_eq_some_iff.mp h
    obtain ⟨d, hd, hlt⟩ := Option.bind_eq_some_iff.mp hdigit
    have hbound : d < base := by
      by_contra hle
      rw [if_neg hle] at hlt
      cases hlt
    intro c' hc'
    rcases List.mem_cons.mp hc' with rfl | hc'
    · exact ⟨d, hbound, hd⟩
    · exact ih hrest c' hc'

/-- A text that can be read consists of digits of the base. -/
theorem digit_of_readNumeral {base n : ℕ} {cs : List Char} (h : readNumeral base cs = some n) :
    cs ≠ [] ∧ ∀ c ∈ cs, ∃ d < base, digitValue c = some d := by
  unfold readNumeral at h
  split at h
  · cases h
  · rename_i hne
    exact ⟨hne, digit_of_foldlM h⟩

/-- Leading zeros do not change what is read. -/
theorem readNumeral_zeros {base : ℕ} (hbase : 0 < base) {cs : List Char} (hcs : cs ≠ []) (k : ℕ) :
    readNumeral base (List.replicate k '0' ++ cs) = readNumeral base cs := by
  have hzeros : (List.replicate k '0').foldlM (readDigit base) 0 = some 0 := by
    induction k with
    | zero => rfl
    | succ k ih =>
      have hzero : readDigit base 0 '0' = some 0 := by
        have hvalue : digitValue '0' = some 0 := by decide
        simp [readDigit, hvalue, hbase]
      rw [List.replicate_succ, List.foldlM_cons, hzero]
      exact ih
  rw [readNumeral, readNumeral, if_neg (by simp [hcs]), if_neg hcs, List.foldlM_append, hzeros]
  rfl

end Smor.Lib
