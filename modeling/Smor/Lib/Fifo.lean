import Mathlib.Data.List.Basic
import Mathlib.Data.Nat.ModEq
import Mathlib.Logic.Function.Basic

/-!
# Circular buffers with free-running positions

A producer stores every element at its number modulo the size of the buffer, and a consumer
reads by number as well. The buffer then holds the latest elements, as many as it has
slots, whatever has been read of them.
-/

namespace Smor.Lib

variable {α : Type*} {n : ℕ} {buf : ℕ → α} {xs : List α}

/-- The buffer holds the last `n` elements of everything that was stored. -/
def Stored (n : ℕ) (buf : ℕ → α) (xs : List α) : Prop :=
  ∀ i < xs.length, xs.length ≤ i + n → xs[i]? = some (buf (i % n))

/-- An empty history is stored in any buffer. -/
theorem Stored.nil : Stored n buf [] := by
  intro i hi
  simp at hi

/-- Storing an element at its number overwrites an element that is too old anyway. -/
theorem Stored.push (h : Stored n buf xs) (x : α) :
    Stored n (Function.update buf (xs.length % n) x) (xs ++ [x]) := by
  intro i hi hrecent
  rw [List.length_append, List.length_singleton] at hi hrecent
  rcases Nat.lt_or_ge i xs.length with hlt | hge
  · have hne : i % n ≠ xs.length % n := by
      intro heq
      have hdvd : n ∣ xs.length - i := (Nat.modEq_iff_dvd' (by omega)).mp heq
      have := Nat.le_of_dvd (by omega) hdvd
      omega
    rw [List.getElem?_append_left hlt, Function.update_of_ne hne]
    exact h i hlt (by omega)
  · obtain rfl : i = xs.length := by omega
    simp

/-- Reading the elements from the number `d` on, if the buffer still holds them. -/
theorem Stored.read (h : Stored n buf xs) {d : ℕ} (hrecent : xs.length ≤ d + n) :
    (List.range (xs.length - d)).map (fun i => buf ((d + i) % n)) = xs.drop d := by
  apply List.ext_getElem?
  intro i
  rw [List.getElem?_map, List.getElem?_drop]
  rcases Nat.lt_or_ge i (xs.length - d) with hlt | hge
  · rw [List.getElem?_range hlt, Option.map_some, h (d + i) (by omega) (by omega)]
  · rw [List.getElem?_eq_none (by simpa using hge), List.getElem?_eq_none (by omega),
      Option.map_none]

end Smor.Lib
