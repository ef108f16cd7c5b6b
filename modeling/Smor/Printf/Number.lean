import Smor.Lib.Numeral
import Smor.Types

/-!
# Formatting one number

`number` of `vsprintf.c` writes a 64-bit value with its sign, its prefix and three kinds of
padding. One counter, `size`, drives the three padding loops, and each of them takes one more
from it than it writes. The loops agree with the usual layout of a field as long as
these decrements stay within an `int`.
-/

namespace Smor.Printf

open Smor.Lib

/-- The end of a C string. -/
def nul : Char := Char.ofNat 0

/-- The bits of `type`: `ZEROPAD`, `SIGN`, `PLUS`, `SPACE`, `LEFT`, `SPECIAL` and `SMALL`. -/
structure Flags where
  zeropad : Bool
  sign : Bool
  plus : Bool
  space : Bool
  left : Bool
  special : Bool
  small : Bool
  deriving DecidableEq

/-- The initial value of `digits`. -/
def upperDigits : List Char :=
  ['0', '1', '2', '3', '4', '5', '6', '7', '8', '9', 'A', 'B', 'C', 'D', 'E', 'F', 'G', 'H', 'I',
    'J', 'K', 'L', 'M', 'N', 'O', 'P', 'Q', 'R', 'S', 'T', 'U', 'V', 'W', 'X', 'Y', 'Z']

/-- The value of `digits` under `SMALL`. -/
def lowerDigits : List Char :=
  ['0', '1', '2', '3', '4', '5', '6', '7', '8', '9', 'a', 'b', 'c', 'd', 'e', 'f', 'g', 'h', 'i',
    'j', 'k', 'l', 'm', 'n', 'o', 'p', 'q', 'r', 's', 't', 'u', 'v', 'w', 'x', 'y', 'z']

/-- `digits`. -/
def digitsOf (type : Flags) : List Char := if type.small then lowerDigits else upperDigits

/-- The loop `while (bound < x--) *str++ = c`, with a number of rounds that is enough. -/
def fillRounds (bound : ℤ) (c : Char) : ℕ → ℤ → List Char × ℤ
  | 0, x => ([], i32 (x - 1))
  | rounds + 1, x =>
    if bound < x then
      let (cs, x) := fillRounds bound c rounds (i32 (x - 1))
      (c :: cs, x)
    else ([], i32 (x - 1))

/-- `while (bound < x--) *str++ = c`: what it writes, and what it leaves in `x`. -/
def fillAbove (bound : ℤ) (c : Char) (x : ℤ) : List Char × ℤ :=
  fillRounds bound c (x - bound).toNat x

/-- The loop `while (num != 0) tmp[i++] = digits[do_div(num, base)]`, which divides the 64 bits of
`num` without a sign. -/
def digitRounds (digits : List Char) (base : ℕ) : ℕ → ℕ → List Char
  | 0, _ => []
  | rounds + 1, num =>
    if num = 0 then []
    else digits.getD (num % base) nul :: digitRounds digits base rounds (num / base)

/-- The contents of `tmp` up to `i`. -/
def numberTmp (digits : List Char) (base num : ℤ) : List Char :=
  if num = 0 then ['0'] else digitRounds digits base.toNat 64 (num % 2 ^ 64).toNat

/-- `type & SIGN && num < 0`. -/
def isNegative (type : Flags) (num : ℤ) : Bool := type.sign && num < 0

/-- The character `sign`, if there is one. -/
def signOf (type : Flags) (num : ℤ) : List Char :=
  if isNegative type num then ['-']
  else if type.plus then ['+'] else if type.space then [' '] else []

/-- The characters that `SPECIAL` writes. -/
def specialOf (type : Flags) (base : ℤ) : List Char :=
  if type.special then
    if base = 8 then ['0']
    else if base = 16 then ['0', (digitsOf type).getD 33 nul]
    else []
  else []

/-- The padding in front of the sign, in front of the digits and behind them: three loops that
share `size`. -/
def padLoops (type : Flags) (size : ℤ) : List Char × List Char × List Char :=
  let (front, size) :=
    if !(type.zeropad || type.left) then fillAbove 0 ' ' size else ([], size)
  let (middle, size) :=
    if !type.left then fillAbove 0 (if type.zeropad then '0' else ' ') size else ([], size)
  let (back, _) := fillAbove 0 ' ' size
  (front, middle, back)

/-- `number`: the characters it writes, or `none` where it returns `NULL`. -/
def number (num base size precision : ℤ) (type : Flags) : Option (List Char) :=
  let digits := digitsOf type
  let type := if type.left then { type with zeropad := false } else type
  if base < 2 ∨ 36 < base then none
  else
    let sign := signOf type num
    let num := if isNegative type num then i64 (-num) else num
    let size := if sign ≠ [] then i32 (size - 1) else size
    let size :=
      if type.special then
        if base = 16 then i32 (size - 2) else if base = 8 then i32 (size - 1) else size
      else size
    let tmp := numberTmp digits base num
    let i : ℤ := tmp.length
    let precision := if precision < i then i else precision
    let size := i32 (size - precision)
    let (front, middle, back) := padLoops type size
    let (zeros, _) := fillAbove i '0' precision
    some (front ++ sign ++ specialOf type base ++ middle ++ zeros ++ tmp.reverse ++ back)

section Loops

/-- The padding loop writes `x - bound` characters, and its last test takes one more from `x`. -/
theorem fillAbove_eq {bound x : ℤ} (c : Char) (hbound : -2 ^ 31 ≤ bound) (hx : x < 2 ^ 31) :
    fillAbove bound c x = (List.replicate (x - bound).toNat c, i32 (min x bound - 1)) := by
  unfold fillAbove
  induction hrounds : (x - bound).toNat generalizing x with
  | zero =>
    have hle : min x bound = x := by omega
    rw [fillRounds, hle]
    rfl
  | succ rounds ih =>
    have hpred : i32 (x - 1) = x - 1 := i32_of_range (by omega) (by omega)
    have hmin : min (x - 1) bound = min x bound := by omega
    rw [fillRounds, if_pos (by omega), hpred, ih (by omega) (by omega), hmin]
    rfl

/-- A loop with nothing to write takes one from `size` all the same. -/
theorem fillAbove_zero_of_nonpos {x : ℤ} (c : Char) (hmin : -2 ^ 31 + 1 ≤ x) (hx : x ≤ 0) :
    fillAbove 0 c x = ([], x - 1) := by
  rw [fillAbove_eq c (by omega) (by omega), min_eq_left hx, i32_of_range (by omega) (by omega),
    Int.toNat_of_nonpos (by omega), List.replicate_zero]

theorem fillAbove_zero_of_pos {x : ℤ} (c : Char) (hx : 0 < x) (hmax : x < 2 ^ 31) :
    fillAbove 0 c x = (List.replicate x.toNat c, -1) := by
  rw [fillAbove_eq c (by omega) hmax, min_eq_right hx.le, i32_of_range (by omega) (by omega),
    Int.sub_zero, Int.zero_sub]

/-- The three padding loops, as long as `size` stays within an `int`. -/
theorem padLoops_eq (type : Flags) {size : ℤ} (hmin : -2 ^ 31 + 2 ≤ size) (hmax : size < 2 ^ 31) :
    padLoops type size =
      if type.left then ([], [], List.replicate size.toNat ' ')
      else if type.zeropad then ([], List.replicate size.toNat '0', [])
      else (List.replicate size.toNat ' ', [], []) := by
  unfold padLoops
  by_cases hpos : 0 < size
  · have hfirst := fun c => fillAbove_zero_of_pos c hpos hmax
    have hnext : ∀ c, fillAbove 0 c (-1) = ([], -2) := fun c =>
      fillAbove_zero_of_nonpos c (by omega) (by omega)
    have hlast : ∀ c, fillAbove 0 c (-2) = ([], -3) := fun c =>
      fillAbove_zero_of_nonpos c (by omega) (by omega)
    cases type.left <;> cases type.zeropad <;> simp [hfirst, hnext, hlast]
  · have hnone : size.toNat = 0 := by omega
    have hfirst := fun c => fillAbove_zero_of_nonpos (x := size) c (by omega) (by omega)
    have hnext := fun c => fillAbove_zero_of_nonpos (x := size - 1) c (by omega) (by omega)
    -- the last decrement may wrap, but nothing reads its result
    have hlast : ∀ c, (fillAbove 0 c (size - 1 - 1)).1 = [] := by
      intro c
      rw [fillAbove_eq c (by omega) (by omega), Int.toNat_of_nonpos (by omega),
        List.replicate_zero]
    cases type.left <;> cases type.zeropad <;> simp [hfirst, hnext, hlast, hnone]

end Loops

section Digits

theorem depicts_digitsOf (type : Flags) : Depicts 36 fun d => (digitsOf type).getD d nul := by
  unfold digitsOf Depicts
  cases type.small <;> decide

/-- Dividing by the base until nothing is left gives the digits. -/
theorem digitRounds_eq (digits : List Char) {base : ℕ} (hbase : 1 < base) {rounds n : ℕ}
    (hn : n < 2 ^ rounds) :
    digitRounds digits base rounds n = (Nat.digits base n).map fun d => digits.getD d nul := by
  induction rounds generalizing n with
  | zero =>
    have hzero : n = 0 := by omega
    simp [hzero, digitRounds]
  | succ rounds ih =>
    by_cases hzero : n = 0
    · simp [hzero, digitRounds]
    · have hhalf : n / base < 2 ^ rounds := by
        have hle : n / base ≤ n / 2 := Nat.div_le_div_left hbase (by omega)
        omega
      rw [digitRounds, if_neg hzero, ih hhalf, Nat.digits_def' hbase (Nat.pos_of_ne_zero hzero),
        List.map_cons]

end Digits

/-- The number whose digits are written: the absolute value after a minus sign, and else the 64
bits without a sign. -/
def magnitude (type : Flags) (num : ℤ) : ℕ :=
  if isNegative type num then num.natAbs else (num % 2 ^ 64).toNat

/-- The digits that `number` writes, in the order of the output. -/
def numberDigits (type : Flags) (base num : ℤ) : List Char :=
  (numberTmp (digitsOf type) base (if isNegative type num then i64 (-num) else num)).reverse

/-- Dividing the negated number without a sign works for the smallest one too. -/
theorem magnitude_eq (type : Flags) {num : ℤ} (hmin : -2 ^ 63 ≤ num) (hmax : num < 2 ^ 63) :
    ((if isNegative type num then i64 (-num) else num) % 2 ^ 64).toNat = magnitude type num := by
  unfold magnitude isNegative
  by_cases hneg : type.sign && num < 0
  · have hlt : num < 0 := by
      simp only [Bool.and_eq_true, decide_eq_true_eq] at hneg
      exact hneg.2
    rw [if_pos hneg, if_pos hneg, i64_emod, Int.emod_eq_of_lt (by omega) (by omega)]
    omega
  · rw [if_neg hneg, if_neg hneg]

theorem magnitude_lt (type : Flags) {num : ℤ} (hmin : -2 ^ 63 ≤ num) (hmax : num < 2 ^ 63) :
    magnitude type num < 2 ^ 64 := by
  unfold magnitude
  split <;> omega

/-- The digits are those of the magnitude; zero has one digit. -/
theorem numberDigits_eq (type : Flags) {base num : ℤ} (hbase : 1 < base)
    (hmin : -2 ^ 63 ≤ num) (hmax : num < 2 ^ 63) :
    numberDigits type base num =
      if magnitude type num = 0 then ['0']
      else (Nat.digits base.toNat (magnitude type num)).reverse.map
        fun d => (digitsOf type).getD d nul := by
  have hmagnitude := magnitude_eq type hmin hmax
  have hlt := magnitude_lt type hmin hmax
  unfold numberDigits numberTmp
  generalize hnegated : (if isNegative type num then i64 (-num) else num) = negated at hmagnitude ⊢
  have hrange : -2 ^ 63 ≤ negated ∧ negated < 2 ^ 63 := by
    rw [← hnegated]
    split
    · exact i64_range (-num)
    · omega
  have hzero : negated = 0 ↔ magnitude type num = 0 := by omega
  simp only [hzero]
  split
  · rfl
  · rw [hmagnitude, digitRounds_eq _ (by omega) hlt, List.map_reverse]

/-- The digits read back, and there are at most 22 of them in the bases that `vsprintf` uses. -/
theorem numberDigits_spec (type : Flags) {base num : ℤ} (hbase : base = 8 ∨ base = 10 ∨ base = 16)
    (hmin : -2 ^ 63 ≤ num) (hmax : num < 2 ^ 63) :
    readNumeral base.toNat (numberDigits type base num) = some (magnitude type num) ∧
      (numberDigits type base num).length ≤ 22 := by
  have hbounds : 8 ≤ base.toNat ∧ base.toNat ≤ 36 := by omega
  rw [numberDigits_eq type (by omega) hmin hmax]
  split
  · rename_i hzero
    rw [hzero]
    rcases hbase with rfl | rfl | rfl <;> exact ⟨by decide, by decide⟩
  · rename_i hpos
    constructor
    · apply readNumeral_digits (by omega) hpos
      intro d hd
      exact depicts_digitsOf type d (by omega)
    · rw [List.length_map, List.length_reverse, Nat.digits_length_le_iff (by omega)]
      calc magnitude type num < 2 ^ 64 := magnitude_lt type hmin hmax
        _ ≤ 8 ^ 22 := by norm_num
        _ ≤ base.toNat ^ 22 := Nat.pow_le_pow_left hbounds.1 22

section Layout

/-- The characters that a number needs without padding. -/
def numberNeeds (type : Flags) (base num precision : ℤ) : ℤ :=
  (signOf type num).length + (specialOf type base).length +
    max precision (numberDigits type base num).length

/-- The zeros that the precision asks for. -/
def numberZeros (type : Flags) (base num precision : ℤ) : List Char :=
  List.replicate (precision - (numberDigits type base num).length).toNat '0'

/-- `type` after the test of `LEFT`. -/
private theorem left_cases (type : Flags) :
    ∃ zeropad, (if type.left then { type with zeropad := false } else type) =
        { type with zeropad := zeropad } ∧
      ∀ size, padLoops { type with zeropad := zeropad } size = padLoops type size := by
  by_cases hleft : type.left
  · refine ⟨false, if_pos hleft, fun size => ?_⟩
    unfold padLoops
    simp [hleft]
  · exact ⟨type.zeropad, if_neg hleft, fun size => rfl⟩

/-- `size` without the sign. -/
private theorem size_sign (type : Flags) (num : ℤ) {size : ℤ} (hmin : -2 ^ 31 ≤ size)
    (hmax : size < 2 ^ 31) :
    (if signOf type num ≠ [] then i32 (size - 1) else size) =
      i32 (size - (signOf type num).length) := by
  have hnone : i32 size = size := i32_of_range hmin hmax
  unfold signOf
  cases isNegative type num <;> cases type.plus <;> cases type.space <;> simp [hnone]

/-- `size` without the characters of `SPECIAL`. -/
private theorem size_special (type : Flags) (base : ℤ) (x : ℤ) :
    (if type.special then
      if base = 16 then i32 (i32 x - 2) else if base = 8 then i32 (i32 x - 1) else i32 x
      else i32 x) = i32 (x - (specialOf type base).length) := by
  unfold specialOf
  cases type.special
  · simp
  · by_cases h16 : base = 16
    · simp [h16, i32_sub]
    · by_cases h8 : base = 8
      · simp [h8, i32_sub]
      · simp [h8, h16]

/-- What `number` writes, for any sizes: its padding is that of one `size`, computed in an
`int`. -/
theorem number_eq (type : Flags) (num : ℤ) {base size precision : ℤ} (hbase : 2 ≤ base ∧ base ≤ 36)
    (hsize : -2 ^ 31 ≤ size ∧ size < 2 ^ 31) (hprecision : precision < 2 ^ 31)
    (hdigits : (numberDigits type base num).length < 2 ^ 31) :
    number num base size precision type =
      let (front, middle, back) :=
        padLoops type (i32 (size - numberNeeds type base num precision))
      some (front ++ signOf type num ++ specialOf type base ++ middle ++
        numberZeros type base num precision ++ numberDigits type base num ++ back) := by
  obtain ⟨zeropad, htype, hpads⟩ := left_cases type
  have hneg : isNegative { type with zeropad := zeropad } num = isNegative type num := rfl
  have hsignOf : signOf { type with zeropad := zeropad } num = signOf type num := rfl
  have hspecialOf : specialOf { type with zeropad := zeropad } base = specialOf type base := rfl
  have htmp : numberTmp (digitsOf type) base (if isNegative type num then i64 (-num) else num) =
      (numberDigits type base num).reverse := (List.reverse_reverse _).symm
  have hzeros : (fillAbove (numberDigits type base num).length '0'
      (max precision (numberDigits type base num).length)).1 =
      numberZeros type base num precision := by
    have hcount : (max precision (numberDigits type base num).length -
        (numberDigits type base num).length).toNat =
        (precision - (numberDigits type base num).length).toNat := by omega
    rw [fillAbove_eq _ (by omega) (by omega), hcount]
    rfl
  unfold number
  simp only [htype, hneg, hsignOf, hspecialOf, hpads, htmp, List.length_reverse, ← max_def_lt,
    hzeros, size_sign type num hsize.1 hsize.2, size_special, List.reverse_reverse]
  rw [if_neg (by omega), numberNeeds, i32_sub, Int.sub_sub, Int.sub_sub, Int.add_assoc]

/-- A field with `room` characters of padding: behind the number under `LEFT`, as zeros in front of
the digits under `ZEROPAD` alone, and else in front of everything. -/
def fieldLayout (type : Flags) (room : ℕ) (sign special digits : List Char) : List Char :=
  if type.left then sign ++ special ++ digits ++ List.replicate room ' '
  else if type.zeropad then sign ++ special ++ List.replicate room '0' ++ digits
  else List.replicate room ' ' ++ sign ++ special ++ digits

theorem fieldLayout_length (type : Flags) (room : ℕ) (sign special digits : List Char) :
    (fieldLayout type room sign special digits).length =
      room + (sign.length + special.length + digits.length) := by
  unfold fieldLayout
  split
  · simp only [List.length_append, List.length_replicate]
    omega
  · split <;>
    · simp only [List.length_append, List.length_replicate]
      omega

/-- As long as no decrement of `size` wraps, `number` writes the usual layout of a field. -/
theorem number_eq_fieldLayout (type : Flags) (num : ℤ) {base size precision : ℤ}
    (hbase : 2 ≤ base ∧ base ≤ 36) (hsize : -2 ^ 31 ≤ size ∧ size < 2 ^ 31)
    (hprecision : precision < 2 ^ 31)
    (hdigits : (numberDigits type base num).length < 2 ^ 31)
    (hroom : -2 ^ 31 + 2 ≤ size - numberNeeds type base num precision) :
    number num base size precision type =
      some (fieldLayout type (size - numberNeeds type base num precision).toNat
        (signOf type num) (specialOf type base)
        (numberZeros type base num precision ++ numberDigits type base num)) := by
  have hneeds : 0 ≤ numberNeeds type base num precision := by
    unfold numberNeeds
    omega
  rw [number_eq type num hbase hsize hprecision hdigits, i32_of_range (by omega) (by omega),
    padLoops_eq type hroom (by omega)]
  unfold fieldLayout
  cases type.left <;> cases type.zeropad <;> simp

/-- **The layout of a number.** For every 64-bit number, in the three bases of `vsprintf`, the
characters that `number` writes are the padding, the sign, the prefix, the zeros and the
digits, which read back. It writes no more than the width asks for or the number needs, and the
digits fit in `tmp`. -/
theorem number_layout (type : Flags) (num base size precision : ℤ)
    (hnum : -2 ^ 63 ≤ num ∧ num < 2 ^ 63) (hbase : base = 8 ∨ base = 10 ∨ base = 16)
    (hsize : |size| < 2 ^ 30) (hprecision : |precision| < 2 ^ 30)
    (hroom : -2 ^ 31 + 2 ≤ size - ((signOf type num).length + (specialOf type base).length +
      max precision (numberDigits type base num).length)) :
    ∃ out, number num base size precision type = some out ∧
      (out.length : ℤ) = max size ((signOf type num).length + (specialOf type base).length +
        max precision (numberDigits type base num).length) ∧
      out = fieldLayout type
        (size - ((signOf type num).length + (specialOf type base).length +
          max precision (numberDigits type base num).length)).toNat
        (signOf type num) (specialOf type base)
        (List.replicate (precision - (numberDigits type base num).length).toNat '0' ++
          numberDigits type base num) ∧
      readNumeral base.toNat (numberDigits type base num) =
        some (if type.sign && num < 0 then num.natAbs else (num % 2 ^ 64).toNat) ∧
      (numberDigits type base num).length ≤ 36 := by
  obtain ⟨hread, hdigits⟩ := numberDigits_spec type hbase hnum.1 hnum.2
  rw [abs_lt] at hsize hprecision
  have hrange : -2 ^ 31 ≤ size ∧ size < 2 ^ 31 := by omega
  have hshort : precision < 2 ^ 31 := by omega
  have hlayout := number_eq_fieldLayout type num (by omega) hrange hshort (by omega) hroom
  refine ⟨_, hlayout, ?_, rfl, hread, by omega⟩
  rw [fieldLayout_length, List.length_append, numberZeros, List.length_replicate, numberNeeds]
  omega

theorem number_layout_hex :
    ∃ out, number (-255) 16 10 4 ⟨true, true, false, false, false, true, true⟩ = some out ∧
      out = ['-', '0', 'x', '0', '0', '0', '0', '0', 'f', 'f'] := by
  obtain ⟨out, hout, -, heq, -⟩ := number_layout ⟨true, true, false, false, false, true, true⟩
    (-255) 16 10 4 (by decide) (by decide) (by decide) (by decide) (by decide +kernel)
  refine ⟨out, hout, heq.trans ?_⟩
  decide +kernel

/-- Without `LEFT` and `ZEROPAD` all three loops run. -/
theorem padLoops_plain {type : Flags} (hleft : type.left = false) (hzeropad : type.zeropad = false)
    {size size₁ size₂ : ℤ} {front middle : List Char}
    (hfront : fillAbove 0 ' ' size = (front, size₁))
    (hmiddle : fillAbove 0 ' ' size₁ = (middle, size₂)) :
    padLoops type size = (front, middle, (fillAbove 0 ' ' size₂).1) := by
  unfold padLoops
  simp [hleft, hzeropad, hfront, hmiddle]

/-- The second decrement of `size` can wrap, and the third loop tests its result. -/
theorem padLoops_wraps {type : Flags} (hleft : type.left = false)
    (hzeropad : type.zeropad = false) :
    padLoops type (-2 ^ 31 + 1) = ([], [], List.replicate (2 ^ 31 - 1 : ℤ).toNat ' ') := by
  have hwrap : i32 (-2 ^ 31 - 1) = 2 ^ 31 - 1 := by
    unfold i32
    rw [Int.bmod_def]
    split <;> omega
  have hfirst : fillAbove 0 ' ' (-2 ^ 31 + 1) = ([], -2 ^ 31) := by
    rw [fillAbove_zero_of_nonpos ' ' (by omega) (by omega), Int.add_sub_cancel]
  have hsecond : fillAbove 0 ' ' (-2 ^ 31) = ([], 2 ^ 31 - 1) := by
    rw [fillAbove_eq ' ' (by omega) (by omega), min_eq_left (by omega), hwrap,
      Int.toNat_of_nonpos (by omega), List.replicate_zero]
  rw [padLoops_plain hleft hzeropad hfirst hsecond,
    fillAbove_zero_of_pos ' ' (by omega) (by omega)]

/-- With a width near -2^30 and a precision near 2^30, the field has 2^31 - 1 spaces behind the
number. -/
theorem number_wraps : ∃ out,
    number (-1) 10 (-(2 ^ 30 - 1)) (2 ^ 30 - 1) ⟨false, true, false, false, false, false, false⟩ =
      some out ∧ (out.length : ℤ) ≠ max (-(2 ^ 30 - 1)) (1 + 0 + max (2 ^ 30 - 1) 1) := by
  have hdigits : numberDigits ⟨false, true, false, false, false, false, false⟩ 10 (-1) = ['1'] := by
    decide +kernel
  have hsign : signOf ⟨false, true, false, false, false, false, false⟩ (-1) = ['-'] := by decide
  have hneeds : numberNeeds ⟨false, true, false, false, false, false, false⟩ 10 (-1) (2 ^ 30 - 1) =
      2 ^ 30 := by
    rw [numberNeeds, hdigits, hsign]
    decide
  have hroom : i32 (-(2 ^ 30 - 1) - 2 ^ 30) = -2 ^ 31 + 1 :=
    i32_of_range (by omega) (by omega)
  have hbase : (2 : ℤ) ≤ 10 ∧ (10 : ℤ) ≤ 36 := by decide
  have hsize : (-2 ^ 31 : ℤ) ≤ -(2 ^ 30 - 1) ∧ (-(2 ^ 30 - 1) : ℤ) < 2 ^ 31 := by decide
  have hprecision : (2 ^ 30 - 1 : ℤ) < 2 ^ 31 := by decide
  have hnumber := number_eq ⟨false, true, false, false, false, false, false⟩ (-1) hbase hsize
    hprecision (by rw [hdigits]; decide)
  rw [hneeds, hroom, padLoops_wraps rfl rfl] at hnumber
  refine ⟨_, hnumber, ?_⟩
  simp only [List.length_append, List.length_replicate]
  omega

end Layout

end Smor.Printf
