import Smor.Printf.Stars

/-!
# The text of a line

The listings of the kernel are written line by line by `printf`, whose formats consist of plain
characters and a few kinds of directives. What such a piece of a format prints does not depend
on the other pieces, so `printf_pieces` gives the text of a line.
-/

namespace Smor.Printf

open Smor.Lib

/-- An argument of `printf`: a number, or a pointer to a string. -/
inductive Arg where
  | int (slot : ℕ)
  | str (cs : List Char)
  deriving DecidableEq

/-- A call of `printf`. -/
structure Call where
  fmt : List Char
  args : List Arg
  deriving DecidableEq

/-- The slots of the arguments. The strings are at the addresses `k`, `k + 1`, and so on, in the
order of the arguments. -/
def slotsFrom : ℕ → List Arg → List ℕ
  | _, [] => []
  | k, .int slot :: args => slot :: slotsFrom (k + 1) args
  | k, .str _ :: args => k :: slotsFrom (k + 1) args

/-- The strings of the arguments at their addresses. -/
def stringsAt (args : List Arg) (p : ℕ) : Option (List Char) :=
  match args[p - 1]? with
  | some (.str cs) => some cs
  | _ => none

/-- The size of `buf` in `printf`. -/
def printfBuf : ℕ := 1024

/-- `printf`: the text that it hands to `console_putstr`. There is none if `vsprintf` goes wrong or
writes behind the buffer. -/
def printf (call : Call) : Option (List Char) :=
  match vsprintf (stringsAt call.args) (call.fmt ++ [nul]) (slotsFrom 1 call.args) with
  | .ok r => if r.buf.length ≤ printfBuf then some (r.buf.takeWhile (· ≠ nul)) else none
  | .error _ => none

/-- A number in hexadecimal digits. -/
def hexadecimal (n : ℕ) : List Char :=
  if n = 0 then ['0'] else (Nat.digits 16 n).reverse.map fun d => lowerDigits.getD d nul

/-- Zeros in front of a number. -/
def zeroPadded (width : ℕ) (cs : List Char) : List Char :=
  List.replicate (width - cs.length) '0' ++ cs

/-- The directives of numbers in the listings. -/
inductive NumberField where
  | d | d3 | d4 | x2 | x8 | lx16
  deriving DecidableEq

/-- The text of a directive. -/
def NumberField.fmt : NumberField → List Char
  | .d => "%d".toList
  | .d3 => "%03d".toList
  | .d4 => "%04d".toList
  | .x2 => "%02x".toList
  | .x8 => "%08x".toList
  | .lx16 => "%016lx".toList

/-- The numbers that the arguments of the listings are in. -/
def NumberField.bound : NumberField → ℕ
  | .d | .d3 | .d4 => 2 ^ 31
  | .x2 | .x8 => 2 ^ 32
  | .lx16 => 2 ^ 64

/-- A 32-bit number that is taken for an `int` and widened. -/
def widened (n : ℕ) : ℕ := if n < 2 ^ 31 then n else 2 ^ 64 - 2 ^ 32 + n

/-- What a directive prints. A 32-bit number in hexadecimal from 2^31 on comes out with the
sign extension of the code, as 16 digits. -/
def NumberField.out : NumberField → ℕ → List Char
  | .d, n => decimal n
  | .d3, n => zeroPadded 3 (decimal n)
  | .d4, n => zeroPadded 4 (decimal n)
  | .x2, n => zeroPadded 2 (hexadecimal (widened n))
  | .x8, n => zeroPadded 8 (hexadecimal (widened n))
  | .lx16, n => zeroPadded 16 (hexadecimal n)

/-- A piece of a format with its argument. -/
inductive Piece where
  | text (cs : List Char)
  | num (field : NumberField) (n : ℕ)
  | str (cs : List Char)

/-- The text of a piece in the format. -/
def Piece.fmt : Piece → List Char
  | .text cs => cs
  | .num field _ => field.fmt
  | .str _ => "%s".toList

/-- The argument of a piece. -/
def Piece.arg : Piece → Option Arg
  | .text _ => none
  | .num _ n => some (.int n)
  | .str cs => some (.str cs)

/-- What a piece prints. -/
def Piece.out : Piece → List Char
  | .text cs | .str cs => cs
  | .num field n => field.out n

/-- Plain characters, and arguments in range. -/
def Piece.Ok : Piece → Prop
  | .text cs => ∀ c ∈ cs, Plain c
  | .num field n => n < field.bound
  | .str cs => (∀ c ∈ cs, c ≠ nul) ∧ cs.length < 2 ^ 31

section Fields

/-- What `number` writes for a number without a sign, padded with zeros or not at all. -/
theorem number_unsigned {type : Flags} {num base size : ℤ} (hbase : base = 10 ∨ base = 16)
    (hnum : -2 ^ 63 ≤ num ∧ num < 2 ^ 63) (hneg : isNegative type num = false)
    (hplus : type.plus = false) (hspace : type.space = false) (hspecial : type.special = false)
    (hleft : type.left = false) (hsize : -1 ≤ size ∧ size < 2 ^ 31)
    (hzeropad : type.zeropad = true ∨ size = -1) :
    number num base size (-1) type =
      some (zeroPadded size.toNat (numberDigits type base num)) := by
  obtain ⟨-, hdigits⟩ := numberDigits_spec type (Or.inr hbase) hnum.1 hnum.2
  have hsign : signOf type num = [] := by simp [signOf, hneg, hplus, hspace]
  have hprefix : specialOf type base = [] := by simp [specialOf, hspecial]
  have hzeros : numberZeros type base num (-1) = [] := by
    rw [numberZeros, Int.toNat_of_nonpos (by omega), List.replicate_zero]
  have hneeds : numberNeeds type base num (-1) = (numberDigits type base num).length := by
    rw [numberNeeds, hsign, hprefix]
    simp only [List.length_nil]
    omega
  rw [number_eq_fieldLayout type num (by omega) (by omega) (by omega) (by omega)
    (by rw [hneeds]; omega), hsign, hprefix, hzeros, hneeds, fieldLayout, hleft]
  have hroom : (size - (numberDigits type base num).length).toNat =
      size.toNat - (numberDigits type base num).length := by omega
  rcases hzeropad with hzeropad | rfl
  · simp [hzeropad, zeroPadded, hroom]
  · cases type.zeropad <;> simp [zeroPadded]

theorem numberDigits_decimal {type : Flags} {n : ℕ} (hsmall : type.small = false)
    (hn : n < 2 ^ 31) : numberDigits type 10 n = decimal n := by
  have hmagnitude : magnitude type n = n := by
    have hneg : isNegative type n = false := by
      simp only [isNegative, Bool.and_eq_false_imp, decide_eq_false_iff_not]
      omega
    rw [magnitude, hneg, if_neg Bool.false_ne_true]
    omega
  rw [numberDigits_eq type (by decide) (by omega) (by omega), hmagnitude, decimal, digitsOf, hsmall]
  rfl

theorem numberDigits_hexadecimal {type : Flags} {num : ℤ} (hsign : type.sign = false)
    (hsmall : type.small = true) (hnum : -2 ^ 63 ≤ num ∧ num < 2 ^ 63) :
    numberDigits type 16 num = hexadecimal (num % 2 ^ 64).toNat := by
  have hmagnitude : magnitude type num = (num % 2 ^ 64).toNat := by
    rw [magnitude, isNegative, hsign, Bool.false_and, if_neg Bool.false_ne_true]
  rw [numberDigits_eq type (by decide) hnum.1 hnum.2, hmagnitude, hexadecimal, digitsOf, hsmall]
  rfl

/-- What the argument of `%x` is printed as. -/
theorem i32_widened {n : ℕ} (hn : n < 2 ^ 32) : (i32 n % 2 ^ 64).toNat = widened n := by
  have hrange := i32_range n
  unfold widened
  unfold i32 at hrange ⊢
  rw [Int.bmod_def] at hrange ⊢
  split_ifs <;> omega

theorem i64_of_lt {n : ℕ} (hn : n < 2 ^ 64) : (i64 n % 2 ^ 64).toNat = n := by
  rw [i64_emod]
  omega

/-- A directive of a number up to its conversion character. -/
def NumberField.spec : NumberField → Spec
  | .d => ⟨Flags.none, -1, -1, none⟩
  | .d3 => ⟨{ Flags.none with zeropad := true }, 3, -1, none⟩
  | .d4 => ⟨{ Flags.none with zeropad := true }, 4, -1, none⟩
  | .x2 => ⟨{ Flags.none with zeropad := true }, 2, -1, none⟩
  | .x8 => ⟨{ Flags.none with zeropad := true }, 8, -1, none⟩
  | .lx16 => ⟨{ Flags.none with zeropad := true }, 16, -1, some 'l'⟩

/-- The conversion character of a directive. -/
def NumberField.conv : NumberField → Char
  | .d | .d3 | .d4 => 'd'
  | .x2 | .x8 | .lx16 => 'x'

theorem NumberField.parseSpec (field : NumberField) (rest : List Char) (args : List ℕ) :
    Printf.parseSpec (field.fmt.tail ++ rest) args =
      .ok (field.spec, field.conv :: rest, args) := by
  cases field <;>
    simp [NumberField.fmt, NumberField.spec, NumberField.conv, Printf.parseSpec, parseFlags, setFlag,
      parseWidth, parsePrecision, parseQualifier, skipAtoi, deref, isDigit, i32_of_range, Flags.none]

theorem printNumber_decimal (zeropad : Bool) {size : ℤ} {n : ℕ} (hn : n < 2 ^ 31)
    (hsize : -1 ≤ size ∧ size < 2 ^ 31) (hzeropad : zeropad = true ∨ size = -1) :
    printNumber ⟨{ Flags.none with zeropad := zeropad }, size, -1, none⟩ 10
      { Flags.none with zeropad := zeropad, sign := true } (getQualifiedInteger n none) =
        .ok (zeroPadded size.toNat (decimal n)) := by
  have hneg : isNegative { Flags.none with zeropad := zeropad, sign := true } n = false := by
    simp only [isNegative, Bool.true_and, decide_eq_false_iff_not]
    omega
  rw [getQualifiedInteger, if_pos (Or.inl rfl), i32_of_range (by omega) (by omega), printNumber,
    number_unsigned (Or.inl rfl) (by omega) hneg rfl rfl rfl rfl hsize hzeropad,
    numberDigits_decimal rfl hn]

theorem printNumber_hexadecimal (qualifier : Option Char) {size num : ℤ}
    (hnum : -2 ^ 63 ≤ num ∧ num < 2 ^ 63) (hsize : -1 ≤ size ∧ size < 2 ^ 31) :
    printNumber ⟨{ Flags.none with zeropad := true }, size, -1, qualifier⟩ 16
      { Flags.none with zeropad := true, small := true } num =
        .ok (zeroPadded size.toNat (hexadecimal (num % 2 ^ 64).toNat)) := by
  rw [printNumber, number_unsigned (Or.inr rfl) hnum rfl rfl rfl rfl rfl hsize (Or.inl rfl),
    numberDigits_hexadecimal rfl rfl hnum]

/-- The directive `%0wx`. -/
theorem printNumber_int {size : ℤ} {n : ℕ} (hn : n < 2 ^ 32) (hsize : -1 ≤ size ∧ size < 2 ^ 31) :
    printNumber ⟨{ Flags.none with zeropad := true }, size, -1, none⟩ 16
      { Flags.none with zeropad := true, small := true } (getQualifiedInteger n none) =
        .ok (zeroPadded size.toNat (hexadecimal (widened n))) := by
  have hrange := i32_range n
  rw [getQualifiedInteger, if_pos (Or.inl rfl), printNumber_hexadecimal none (by omega) hsize,
    i32_widened hn]

/-- The directive `%0wlx`. -/
theorem printNumber_long {size : ℤ} {n : ℕ} (hn : n < 2 ^ 64) (hsize : -1 ≤ size ∧ size < 2 ^ 31) :
    printNumber ⟨{ Flags.none with zeropad := true }, size, -1, some 'l'⟩ 16
      { Flags.none with zeropad := true, small := true } (getQualifiedInteger n (some 'l')) =
        .ok (zeroPadded size.toNat (hexadecimal n)) := by
  rw [getQualifiedInteger, if_neg (by decide), printNumber_hexadecimal _ (i64_range n) hsize,
    i64_of_lt hn]

/-- What a directive of a number prints. -/
theorem NumberField.conversion (strs : ℕ → Option (List Char)) (field : NumberField) {n : ℕ}
    (hn : n < field.bound) :
    ∃ print, Printf.conversion strs field.spec field.conv = some print ∧
      print n = .ok (field.out n) := by
  cases field with
  | d =>
    refine ⟨_, rfl, (printNumber_decimal false hn (by decide) (Or.inr rfl)).trans ?_⟩
    rw [Int.toNat_of_nonpos (by decide), zeroPadded, Nat.zero_sub, List.replicate_zero]
    rfl
  | d3 => exact ⟨_, rfl, printNumber_decimal true hn (by decide) (Or.inl rfl)⟩
  | d4 => exact ⟨_, rfl, printNumber_decimal true hn (by decide) (Or.inl rfl)⟩
  | x2 => exact ⟨_, rfl, printNumber_int hn (by decide)⟩
  | x8 => exact ⟨_, rfl, printNumber_int hn (by decide)⟩
  | lx16 => exact ⟨_, rfl, printNumber_long hn (by decide)⟩

end Fields

section Lines

variable {strs : ℕ → Option (List Char)}

/-- With the arguments `slots`, the part `fmt` of a format prints `out`, whatever follows. -/
def Outputs (strs : ℕ → Option (List Char)) (fmt : List Char) (slots : List ℕ)
    (out : List Char) : Prop :=
  ∃ n ≤ fmt.length, ∀ rounds rest args out₀ stores,
    printLoop strs (rounds + n) ⟨fmt ++ rest, slots ++ args, out₀, stores⟩ =
      printLoop strs rounds ⟨rest, args, out₀ ++ out, stores⟩

theorem Outputs.append {fmt₁ fmt₂ : List Char} {slots₁ slots₂ : List ℕ} {out₁ out₂ : List Char}
    (h₁ : Outputs strs fmt₁ slots₁ out₁) (h₂ : Outputs strs fmt₂ slots₂ out₂) :
    Outputs strs (fmt₁ ++ fmt₂) (slots₁ ++ slots₂) (out₁ ++ out₂) := by
  obtain ⟨n₁, hn₁, hrun₁⟩ := h₁
  obtain ⟨n₂, hn₂, hrun₂⟩ := h₂
  refine ⟨n₂ + n₁, ?_, fun rounds rest args out₀ stores => ?_⟩
  · rw [List.length_append]
    omega
  · rw [List.append_assoc, List.append_assoc, ← Nat.add_assoc, hrun₁, hrun₂, List.append_assoc]

/-- Plain characters print themselves. -/
theorem outputs_text {cs : List Char} (hcs : ∀ c ∈ cs, Plain c) : Outputs strs cs [] cs := by
  induction cs with
  | nil => exact ⟨0, le_rfl, fun rounds rest args out₀ stores => by simp⟩
  | cons c cs ih =>
    obtain ⟨hpercent, hnul⟩ := hcs c List.mem_cons_self
    have hchar : Outputs strs [c] [] [c] := by
      refine ⟨1, le_rfl, fun rounds rest args out₀ stores => ?_⟩
      simp [printLoop, deref, hpercent, hnul]
    exact hchar.append (ih fun d hd => hcs d (List.mem_cons_of_mem c hd))

/-- A directive that takes an argument. -/
theorem outputs_directive {fmt : List Char} {spec : Spec} {c : Char} {slot : ℕ} {out : List Char}
    {print : ℕ → Except Fault (List Char)}
    (hspec : ∀ rest args, parseSpec (fmt ++ rest) args = .ok (spec, c :: rest, args))
    (hconv : conversion strs spec c = some print) (hprint : print slot = .ok out) :
    Outputs strs ('%' :: fmt) [slot] out := by
  have hne : '%' ≠ nul := by decide
  refine ⟨1, by simp, fun rounds rest args out₀ stores => ?_⟩
  rw [printLoop]
  simp [deref, hne, directive, hspec, convert, hconv, Printer.print, vaArg, hprint]

/-- A directive of a number. -/
theorem outputs_num (field : NumberField) {n : ℕ} (hn : n < field.bound) :
    Outputs strs field.fmt [n] (field.out n) := by
  obtain ⟨print, hconv, hprint⟩ := field.conversion strs hn
  have hfmt : field.fmt = '%' :: field.fmt.tail := by cases field <;> rfl
  rw [hfmt]
  exact outputs_directive field.parseSpec hconv hprint

/-- The case `'s'` without a width and a precision. -/
theorem printString_whole {cs : List Char} {p : ℕ} {spec : Spec} (hp : p ≠ 0)
    (hstrs : strs p = some cs) (hlength : cs.length < 2 ^ 31) (hleft : spec.flags.left = false)
    (hwidth : spec.fieldWidth = -1) (hprecision : spec.precision < 0) :
    printString strs spec p = .ok cs := by
  have hstring : stringAt strs p = .ok cs := by rw [stringAt, if_neg hp, hstrs]
  have hlen : i32 cs.length = cs.length := i32_of_range (by omega) (by omega)
  have hfill : ∀ x : ℤ, x < 0 → fillAbove cs.length ' ' x = ([], i32 (x - 1)) := by
    intro x hx
    rw [fillAbove_eq _ (by omega) (by omega), Int.toNat_of_nonpos (by omega), List.replicate_zero,
      min_eq_left (by omega)]
  have hnext : i32 (-1 - 1) < 0 := by
    rw [i32_of_range (by omega) (by omega)]
    decide
  unfold printString
  simp only [hstring, ok_bind, hlen, hprecision, if_true, hleft, hwidth, Bool.not_false,
    hfill (-1) (by decide), hfill _ hnext, Int.toNat_natCast, List.take_length, List.append_nil,
    List.nil_append]
  rfl

/-- The directive `%s`. -/
theorem outputs_str {cs : List Char} {p : ℕ} (hp : p ≠ 0) (hstrs : strs p = some cs)
    (hlength : cs.length < 2 ^ 31) : Outputs strs "%s".toList [p] cs := by
  have hfmt : "%s".toList = ['%', 's'] := rfl
  have hspec : ∀ rest args, parseSpec (['s'] ++ rest) args =
      .ok (⟨Flags.none, -1, -1, none⟩, 's' :: rest, args) := by
    intro rest args
    rfl
  rw [hfmt]
  exact outputs_directive hspec rfl (printString_whole hp hstrs hlength rfl rfl (by decide))

/-- A piece prints its text, if its string is at the next address. -/
theorem Piece.Ok.outputs {piece : Piece} (hok : piece.Ok) {k : ℕ} (hk : k ≠ 0)
    (hstrs : ∀ cs, piece = .str cs → strs k = some cs) :
    Outputs strs piece.fmt (slotsFrom k piece.arg.toList) piece.out := by
  cases piece with
  | text cs => exact outputs_text hok
  | num field n => exact outputs_num field hok
  | str cs => exact outputs_str hk (hstrs cs rfl) hok.2

theorem slotsFrom_append (k : ℕ) (args₁ args₂ : List Arg) :
    slotsFrom k (args₁ ++ args₂) = slotsFrom k args₁ ++ slotsFrom (k + args₁.length) args₂ := by
  induction args₁ generalizing k with
  | nil => rfl
  | cons arg args₁ ih =>
    rw [List.cons_append, List.length_cons, Nat.add_comm args₁.length 1, ← Nat.add_assoc]
    cases arg <;> simp [slotsFrom, ih]

/-- The arguments of pieces. -/
def pieceArgs (pieces : List Piece) : List Arg := pieces.flatMap fun piece => piece.arg.toList

/-- The pieces behind the first `args` arguments print their texts. -/
theorem outputs_pieces {pieces : List Piece} (hok : ∀ piece ∈ pieces, piece.Ok) (args : List Arg) :
    Outputs (stringsAt (args ++ pieceArgs pieces)) (pieces.flatMap Piece.fmt)
      (slotsFrom (args.length + 1) (pieceArgs pieces)) (pieces.flatMap Piece.out) := by
  induction pieces generalizing args with
  | nil => exact @outputs_text _ [] (by simp)
  | cons piece pieces ih =>
    have hhead : piece.Ok := hok piece List.mem_cons_self
    have htail := ih (fun p hp => hok p (List.mem_cons_of_mem piece hp)) (args ++ piece.arg.toList)
    have hargs : args ++ pieceArgs (piece :: pieces) =
        args ++ piece.arg.toList ++ pieceArgs pieces := by
      simp [pieceArgs]
    have hstrs : ∀ cs, piece = .str cs →
        stringsAt (args ++ pieceArgs (piece :: pieces)) (args.length + 1) = some cs := by
      rintro cs rfl
      simp [stringsAt, pieceArgs, Piece.arg]
    have hslots : slotsFrom (args.length + 1) (pieceArgs (piece :: pieces)) =
        slotsFrom (args.length + 1) piece.arg.toList ++
          slotsFrom ((args ++ piece.arg.toList).length + 1) (pieceArgs pieces) := by
      rw [pieceArgs, List.flatMap_cons, slotsFrom_append, List.length_append, Nat.add_right_comm]
      rfl
    rw [hslots, List.flatMap_cons, List.flatMap_cons]
    refine (hhead.outputs (by omega) hstrs).append ?_
    rw [hargs]
    exact htail

/-- `vsprintf` prints what all of the format outputs. -/
theorem vsprintf_of_outputs {fmt : List Char} {slots : List ℕ} {out : List Char}
    (h : Outputs strs fmt slots out) :
    vsprintf strs (fmt ++ [nul]) slots = .ok ⟨out ++ [nul], i32 out.length, [], []⟩ := by
  obtain ⟨n, hn, hrun⟩ := h
  have hrounds : (fmt ++ [nul]).length = fmt.length - n + 1 + n := by
    rw [List.length_append, List.length_singleton]
    omega
  have hloop := hrun (fmt.length - n + 1) [nul] [] [] []
  rw [List.append_nil] at hloop
  unfold vsprintf
  rw [hrounds, hloop, printLoop]
  simp [deref]

/-- The characters of a numeral are not NUL, and there are at most 16 of them in the listings. -/
theorem NumberField.out_spec (field : NumberField) {n : ℕ} (hn : n < field.bound) :
    (∀ c ∈ field.out n, c ≠ nul) ∧ (field.out n).length ≤ 16 := by
  have hpadded : ∀ {width : ℕ} {cs : List Char}, width ≤ 16 →
      ((∀ c ∈ cs, c ≠ nul) ∧ cs.length ≤ 16) →
      (∀ c ∈ zeroPadded width cs, c ≠ nul) ∧ (zeroPadded width cs).length ≤ 16 := by
    rintro width cs hwidth ⟨hcs, hlength⟩
    refine ⟨fun c hc => ?_, ?_⟩
    · rcases List.mem_append.mp hc with hzero | hc
      · rw [(List.mem_replicate.mp hzero).2]
        decide
      · exact hcs c hc
    · rw [zeroPadded, List.length_append, List.length_replicate]
      omega
  have hdecimal : n < 2 ^ 31 → (∀ c ∈ decimal n, c ≠ nul) ∧ (decimal n).length ≤ 16 := by
    intro hlt
    refine ⟨fun c hc hnul => ?_, ?_⟩
    · have hdigit := decimal_digits n c hc
      rw [hnul, isDigit_nul] at hdigit
      cases hdigit
    · unfold decimal
      split_ifs
      · decide
      · rw [List.length_map, List.length_reverse, Nat.digits_length_le_iff (by decide)]
        exact hlt.trans (by norm_num)
  have hhex : ∀ {m}, m < 2 ^ 64 →
      (∀ c ∈ hexadecimal m, c ≠ nul) ∧ (hexadecimal m).length ≤ 16 := by
    intro m hlt
    unfold hexadecimal
    split_ifs
    · exact ⟨forall_mem_of_all (by decide), by decide⟩
    · refine ⟨fun c hc => ?_, ?_⟩
      · obtain ⟨d, hd, rfl⟩ := List.mem_map.mp hc
        have hbase := Nat.digits_lt_base (by decide) (List.mem_reverse.mp hd)
        have hall : ∀ d < 16, lowerDigits.getD d nul ≠ nul := by decide
        exact hall d hbase
      · rw [List.length_map, List.length_reverse, Nat.digits_length_le_iff (by decide)]
        exact hlt
  have hwidened : n < 2 ^ 32 → widened n < 2 ^ 64 := by
    intro hlt
    unfold widened
    split_ifs <;> omega
  cases field with
  | d => exact hdecimal hn
  | d3 => exact hpadded (by decide) (hdecimal hn)
  | d4 => exact hpadded (by decide) (hdecimal hn)
  | x2 => exact hpadded (by decide) (hhex (hwidened hn))
  | x8 => exact hpadded (by decide) (hhex (hwidened hn))
  | lx16 => exact hpadded (by decide) (hhex hn)

/-- The output of a piece has no NUL. -/
theorem Piece.Ok.ne_nul {piece : Piece} (hok : piece.Ok) : ∀ c ∈ piece.out, c ≠ nul := by
  cases piece with
  | text cs => exact fun c hc => (hok c hc).2
  | num field n => exact (field.out_spec hok).1
  | str cs => exact hok.1

/-- How long the output of a piece can be. -/
def Piece.width : Piece → ℕ
  | .text cs | .str cs => cs.length
  | .num _ _ => 16

theorem length_flatMap_out_le {pieces : List Piece} (hok : ∀ piece ∈ pieces, piece.Ok) :
    (pieces.flatMap Piece.out).length ≤ (pieces.map Piece.width).sum := by
  induction pieces with
  | nil => exact le_rfl
  | cons piece pieces ih =>
    have hrest := ih fun p hp => hok p (List.mem_cons_of_mem piece hp)
    have hpiece : piece.out.length ≤ piece.width := by
      have hhead := hok piece List.mem_cons_self
      cases piece with
      | text cs => exact le_rfl
      | num field n => exact (field.out_spec hhead).2
      | str cs => exact le_rfl
    rw [List.flatMap_cons, List.length_append, List.map_cons, List.sum_cons]
    omega

/-- A line of pieces, as a call. -/
def lineCall (pieces : List Piece) : Call := ⟨pieces.flatMap Piece.fmt, pieceArgs pieces⟩

/-- **The text of a line.** The pieces of a format print one after the other, if their text fits in
the buffer. -/
theorem printf_lineCall {pieces : List Piece} (hok : ∀ piece ∈ pieces, piece.Ok)
    (hroom : (pieces.map Piece.width).sum < printfBuf) :
    printf (lineCall pieces) = some (pieces.flatMap Piece.out) := by
  have hvsprintf := vsprintf_of_outputs (outputs_pieces hok [])
  have hlength := length_flatMap_out_le hok
  rw [List.nil_append, List.length_nil, Nat.zero_add] at hvsprintf
  rw [printf, lineCall, hvsprintf]
  dsimp only
  rw [if_pos (by rw [List.length_append, List.length_singleton]; omega)]
  have hplain : ∀ c ∈ pieces.flatMap Piece.out, decide (c ≠ nul) = true := by
    intro c hc
    obtain ⟨piece, hpiece, hmem⟩ := List.mem_flatMap.mp hc
    exact decide_eq_true ((hok piece hpiece).ne_nul c hmem)
  rw [List.takeWhile_append_of_pos hplain]
  simp

/-- The text of several calls. -/
def printAll (calls : List Call) : Option (List Char) := (calls.mapM printf).map List.flatten

/-- The text of several lines. -/
theorem printAll_lines {lines : List (List Piece)} (hok : ∀ line ∈ lines, ∀ piece ∈ line, piece.Ok)
    (hroom : ∀ line ∈ lines, (line.map Piece.width).sum < printfBuf) :
    printAll (lines.map lineCall) = some (lines.flatMap fun line => line.flatMap Piece.out) := by
  have hmap : (lines.map lineCall).mapM printf =
      some (lines.map fun line => line.flatMap Piece.out) := by
    induction lines with
    | nil => rfl
    | cons line lines ih =>
      have hhead := printf_lineCall (hok line List.mem_cons_self) (hroom line List.mem_cons_self)
      have htail := ih (fun l hl => hok l (List.mem_cons_of_mem line hl))
        fun l hl => hroom l (List.mem_cons_of_mem line hl)
      rw [List.map_cons, List.mapM_cons, hhead, htail]
      rfl
  rw [printAll, hmap, Option.map_some, ← List.flatMap_def]

end Lines

end Smor.Printf
