import Smor.Printf.Directives

/-!
# Reading unsigned output

Without a qualifier, every integer conversion fetches its argument as `int32_t`, and `number` sees
it as a 64-bit value. For `u`, `o`, `x` and `X` the printed digits are those of the
sign-extended argument. They read back as the argument itself in the lower half of its range
only.
-/

namespace Smor.Printf

open Smor.Lib

/-- A text without its sign. -/
def dropSign : List Char → List Char
  | '+' :: cs => cs
  | '-' :: cs => cs
  | cs => cs

/-- A text without the prefix of a hexadecimal number. -/
def dropRadix : List Char → List Char
  | '0' :: 'x' :: cs => cs
  | '0' :: 'X' :: cs => cs
  | cs => cs

/-- The value of a printed number: spaces, sign and prefix are left out. -/
def readPrinted (base : ℕ) (cs : List Char) : Option ℕ :=
  readNumeral base (dropRadix (dropSign (cs.filter (· ≠ ' '))))

section Reading

/-- A digit of a base up to 16. -/
def IsHex (c : Char) : Prop := ∃ d < 16, digitValue c = some d

theorem IsHex.ne {c : Char} (hc : IsHex c) : c ≠ ' ' ∧ c ≠ '+' ∧ c ≠ '-' ∧ c ≠ 'x' ∧ c ≠ 'X' := by
  obtain ⟨d, hd, hvalue⟩ := hc
  refine ⟨?_, ?_, ?_, ?_, ?_⟩
  · rintro rfl
    cases hvalue
  · rintro rfl
    cases hvalue
  · rintro rfl
    cases hvalue
  · rintro rfl
    have h33 : digitValue 'x' = some 33 := by decide
    rw [h33] at hvalue
    cases hvalue
    omega
  · rintro rfl
    have h33 : digitValue 'X' = some 33 := by decide
    rw [h33] at hvalue
    cases hvalue
    omega

theorem isHex_zero : IsHex '0' := ⟨0, by omega, by decide⟩

theorem dropRadix_of_isHex {cs : List Char} (hcs : ∀ c ∈ cs, IsHex c) : dropRadix cs = cs := by
  unfold dropRadix
  split
  · exact absurd rfl (hcs 'x' (by simp)).ne.2.2.2.1
  · exact absurd rfl (hcs 'X' (by simp)).ne.2.2.2.2
  · rfl

/-- The padding loops write spaces, and in the middle perhaps zeros. -/
theorem padLoops_shape (type : Flags) {size : ℤ} (hsize : size < 2 ^ 31) :
    ∃ a b e, padLoops type size = (List.replicate a ' ',
      List.replicate b (if type.zeropad then '0' else ' '), List.replicate e ' ') := by
  have hfill : ∀ c x, x < 2 ^ 31 →
      ∃ n y, y < 2 ^ 31 ∧ fillAbove 0 c x = (List.replicate n c, y) := fun c x hx =>
    ⟨_, _, (i32_range _).2, fillAbove_eq c (by omega) hx⟩
  have hfront : ∃ a x, x < 2 ^ 31 ∧ (if !(type.zeropad || type.left) then fillAbove 0 ' ' size
      else ([], size)) = (List.replicate a ' ', x) := by
    split
    · exact hfill ' ' size hsize
    · exact ⟨0, size, hsize, rfl⟩
  obtain ⟨a, x, hx, hfirst⟩ := hfront
  have hmiddle : ∃ b y, y < 2 ^ 31 ∧ (if !type.left then
      fillAbove 0 (if type.zeropad then '0' else ' ') x else ([], x)) =
        (List.replicate b (if type.zeropad then '0' else ' '), y) := by
    split
    · exact hfill _ x hx
    · exact ⟨0, x, hx, rfl⟩
  obtain ⟨b, y, hy, hsecond⟩ := hmiddle
  obtain ⟨e, z, -, hthird⟩ := hfill ' ' y hy
  refine ⟨a, b, e, ?_⟩
  unfold padLoops
  simp only [hfirst, hsecond, hthird]

theorem dropSign_append {sign cs : List Char} {c : Char}
    (hsign : sign = [] ∨ sign = ['+'] ∨ sign = ['-']) (hc : IsHex c) :
    dropSign (sign ++ c :: cs) = c :: cs := by
  obtain ⟨-, hplus, hminus, -⟩ := hc.ne
  rcases hsign with rfl | rfl | rfl
  · rw [List.nil_append, dropSign]
    · exact fun _ h => hplus (List.cons.inj h).1
    · exact fun _ h => hminus (List.cons.inj h).1
  · rfl
  · rfl

/-- The sign without spaces. -/
theorem signOf_filter (type : Flags) (num : ℤ) :
    (signOf type num).filter (· ≠ ' ') = [] ∨ (signOf type num).filter (· ≠ ' ') = ['+'] ∨
      (signOf type num).filter (· ≠ ' ') = ['-'] := by
  unfold signOf
  cases isNegative type num <;> cases type.plus <;> cases type.space <;> simp

/-- The prefix is that of a hexadecimal number, or a leading zero, or nothing. -/
theorem specialOf_cases (type : Flags) (base : ℤ) :
    specialOf type base = ['0', 'x'] ∨ specialOf type base = ['0', 'X'] ∨
      ∃ k, specialOf type base = List.replicate k '0' := by
  have hx : (digitsOf type).getD 33 nul = 'x' ∨ (digitsOf type).getD 33 nul = 'X' := by
    unfold digitsOf
    cases type.small
    · exact Or.inr rfl
    · exact Or.inl rfl
  unfold specialOf
  split
  · split
    · exact Or.inr (Or.inr ⟨1, rfl⟩)
    · split
      · rcases hx with hx | hx
        · exact Or.inl (by rw [hx])
        · exact Or.inr (Or.inl (by rw [hx]))
      · exact Or.inr (Or.inr ⟨0, rfl⟩)
  · exact Or.inr (Or.inr ⟨0, rfl⟩)

/-- Reading a sign, a prefix, zeros and digits gives the value of the digits. -/
theorem readPrinted_parts {base n k : ℕ} (hbase : 0 < base ∧ base ≤ 16)
    {sign special digits : List Char} (hsign : sign = [] ∨ sign = ['+'] ∨ sign = ['-'])
    (hspecial : special = ['0', 'x'] ∨ special = ['0', 'X'] ∨ ∃ j, special = List.replicate j '0')
    (hdigits : readNumeral base digits = some n) :
    readNumeral base (dropRadix (dropSign (sign ++ (special ++
      (List.replicate k '0' ++ digits))))) = some n := by
  obtain ⟨hne, hdigit⟩ := digit_of_readNumeral hdigits
  have hhex : ∀ j, ∀ c ∈ List.replicate j '0' ++ digits, IsHex c := by
    intro j c hc
    rcases List.mem_append.mp hc with hc | hc
    · rw [List.eq_of_mem_replicate hc]
      exact isHex_zero
    · obtain ⟨d, hd, hvalue⟩ := hdigit c hc
      exact ⟨d, by omega, hvalue⟩
  have hzeros : ∀ j, readNumeral base (List.replicate j '0' ++ digits) = some n := fun j => by
    rw [readNumeral_zeros hbase.1 hne, hdigits]
  rcases hspecial with rfl | rfl | ⟨j, rfl⟩
  · rw [List.cons_append, dropSign_append hsign isHex_zero]
    exact hzeros k
  · rw [List.cons_append, dropSign_append hsign isHex_zero]
    exact hzeros k
  · rw [← List.append_assoc (List.replicate j '0'), List.replicate_append_replicate]
    obtain ⟨c, cs, hcs⟩ := List.exists_cons_of_ne_nil
      (List.append_ne_nil_of_right_ne_nil (List.replicate (j + k) '0') hne)
    have hall := hhex (j + k)
    have hread := hzeros (j + k)
    rw [hcs] at hall hread ⊢
    rw [dropSign_append hsign (hall c (by simp)), dropRadix_of_isHex hall, hread]

/-- Whatever the padding, a printed number reads back as its magnitude. -/
theorem readPrinted_number (type : Flags) {num base size precision : ℤ} {out : List Char}
    (hnum : -2 ^ 63 ≤ num ∧ num < 2 ^ 63) (hbase : base = 8 ∨ base = 10 ∨ base = 16)
    (hsize : -2 ^ 31 ≤ size ∧ size < 2 ^ 31) (hprecision : precision < 2 ^ 31)
    (h : number num base size precision type = some out) :
    readPrinted base.toNat out = some (magnitude type num) := by
  obtain ⟨hread, hlength⟩ := numberDigits_spec type hbase hnum.1 hnum.2
  obtain ⟨a, b, e, hpads⟩ := padLoops_shape type
    (i32_range (size - numberNeeds type base num precision)).2
  obtain ⟨-, hdigit⟩ := digit_of_readNumeral hread
  have hkeep : (numberDigits type base num).filter (· ≠ ' ') = numberDigits type base num := by
    refine List.filter_eq_self.mpr fun c hc => ?_
    obtain ⟨d, hd, hvalue⟩ := hdigit c hc
    have hhex : IsHex c := ⟨d, by omega, hvalue⟩
    simpa using hhex.ne.1
  have hspecial : (specialOf type base).filter (· ≠ ' ') = specialOf type base := by
    rcases specialOf_cases type base with h | h | ⟨k, h⟩ <;> simp [h]
  rw [number_eq type num (by omega) hsize hprecision (by omega), hpads] at h
  have hfilter : ∃ k, out.filter (· ≠ ' ') = (signOf type num).filter (· ≠ ' ') ++
      (specialOf type base ++ (List.replicate k '0' ++ numberDigits type base num)) := by
    refine ⟨(if type.zeropad then b else 0) +
      (precision - (numberDigits type base num).length).toNat, ?_⟩
    rw [← Option.some.inj h]
    simp only [List.filter_append, hkeep, hspecial, numberZeros]
    rw [← List.replicate_append_replicate]
    cases type.zeropad <;> simp
  obtain ⟨k, hk⟩ := hfilter
  rw [readPrinted, hk]
  exact readPrinted_parts (by omega) (signOf_filter type num) (specialOf_cases type base) hread

end Reading

section Ranges

/-- A width or a precision that is read from the format fits in an `int`. -/
theorem skipAtoi_range {fmt rest : List Char} {i v : ℤ} (hi : -2 ^ 31 ≤ i ∧ i < 2 ^ 31)
    (h : skipAtoi fmt i = .ok (v, rest)) : -2 ^ 31 ≤ v ∧ v < 2 ^ 31 := by
  induction fmt generalizing i with
  | nil => cases h
  | cons c fmt ih =>
    rw [skipAtoi] at h
    split at h
    · exact ih (i32_range _) h
    · cases h
      exact hi

/-- The flags of a format are those of `setFlag`: no sign, and no small letters. -/
theorem parseFlags_sign {fmt rest : List Char} {flags flags' : Flags}
    (h : parseFlags fmt flags = .ok (flags', rest)) : flags'.sign = flags.sign := by
  induction fmt generalizing flags with
  | nil => cases h
  | cons c fmt ih =>
    rw [parseFlags] at h
    split at h
    · rename_i flags₁ hflag
      have hkept : flags₁.sign = flags.sign := by
        unfold setFlag at hflag
        split at hflag <;> cases hflag <;> rfl
      exact (ih h).trans hkept
    · cases h
      rfl

theorem parseWidth_range {fmt fmt' : List Char} {args args' : List ℕ} {flags flags' : Flags} {w : ℤ}
    (h : parseWidth flags fmt args = .ok (w, flags', fmt', args')) :
    flags'.sign = flags.sign ∧ -2 ^ 31 ≤ w ∧ w < 2 ^ 31 := by
  unfold parseWidth at h
  obtain ⟨c, -, h⟩ := bind_eq_ok_iff.mp h
  split at h
  · obtain ⟨⟨v, rest⟩, hskip, h⟩ := bind_eq_ok_iff.mp h
    cases h
    exact ⟨rfl, skipAtoi_range (by omega) hskip⟩
  · split at h
    · obtain ⟨⟨slot, rest⟩, -, h⟩ := bind_eq_ok_iff.mp h
      dsimp only at h
      split at h
      · cases h
        exact ⟨rfl, i32_range _⟩
      · cases h
        exact ⟨rfl, i32_range _⟩
    · cases h
      exact ⟨rfl, by omega⟩

theorem parsePrecision_range {fmt fmt' : List Char} {args args' : List ℕ} {p : ℤ}
    (h : parsePrecision fmt args = .ok (p, fmt', args')) : p < 2 ^ 31 := by
  unfold parsePrecision at h
  obtain ⟨c, -, h⟩ := bind_eq_ok_iff.mp h
  split at h
  · obtain ⟨⟨v, fmt₁, args₁⟩, hdigits, h⟩ := bind_eq_ok_iff.mp h
    have hv : v < 2 ^ 31 := by
      unfold parseDigits at hdigits
      obtain ⟨c', -, hdigits⟩ := bind_eq_ok_iff.mp hdigits
      split at hdigits
      · obtain ⟨⟨v', rest⟩, hskip, hdigits⟩ := bind_eq_ok_iff.mp hdigits
        cases hdigits
        exact (skipAtoi_range (by omega) hskip).2
      · split at hdigits
        · obtain ⟨⟨slot, rest⟩, -, hdigits⟩ := bind_eq_ok_iff.mp hdigits
          cases hdigits
          exact (i32_range _).2
        · cases hdigits
          omega
    cases h
    split <;> omega
  · cases h
    omega

/-- What is read in front of the conversion character. -/
theorem Spec.Read.range {spec : Spec} (h : spec.Read) :
    spec.flags.sign = false ∧ (-2 ^ 31 ≤ spec.fieldWidth ∧ spec.fieldWidth < 2 ^ 31) ∧
      spec.precision < 2 ^ 31 := by
  obtain ⟨fmt, args, fmt', args', h⟩ := h
  unfold parseSpec at h
  obtain ⟨⟨flags₁, fmt₁⟩, hflags, h⟩ := bind_eq_ok_iff.mp h
  obtain ⟨⟨w, flags₂, fmt₂, args₂⟩, hwidth, h⟩ := bind_eq_ok_iff.mp h
  obtain ⟨⟨p, fmt₃, args₃⟩, hprecision, h⟩ := bind_eq_ok_iff.mp h
  obtain ⟨⟨q, fmt₄⟩, -, h⟩ := bind_eq_ok_iff.mp h
  cases h
  obtain ⟨hsign, hw⟩ := parseWidth_range hwidth
  exact ⟨hsign.trans (parseFlags_sign hflags), hw, parsePrecision_range hprecision⟩

end Ranges

section Unsigned

/-- The base of a conversion without a sign. -/
def unsignedBase (c : Char) : ℕ := if c = 'o' then 8 else if c = 'u' then 10 else 16

/-- A sign-extended argument, seen as a 64-bit value, is the argument in the lower half only. -/
theorem i32_unsigned_iff (slot : ℕ) :
    (i32 slot % 2 ^ 64).toNat = slot % 2 ^ 32 ↔ slot % 2 ^ 32 < 2 ^ 31 := by
  unfold i32
  rw [Int.bmod_def]
  split <;> omega

/-- Without a qualifier, the unsigned conversions print a sign-extended `int32_t`. -/
theorem conversion_unsigned (strs : ℕ → Option (List Char)) {c : Char}
    (hc : c ∈ ['u', 'o', 'x', 'X']) {spec : Spec} (hqualifier : spec.qualifier = none) :
    ∃ small, conversion strs spec c = some fun slot : ℕ =>
      printNumber spec (unsignedBase c) { spec.flags with small := small } (i32 slot) := by
  have hinteger : ∀ slot : ℕ, getQualifiedInteger slot spec.qualifier = i32 slot := by
    intro slot
    rw [getQualifiedInteger, if_pos (Or.inl hqualifier)]
  simp only [List.mem_cons, List.not_mem_nil, or_false] at hc
  rcases hc with rfl | rfl | rfl | rfl
  · exact ⟨spec.flags.small, by simp only [conversion, hinteger]; rfl⟩
  · exact ⟨spec.flags.small, by simp only [conversion, hinteger]; rfl⟩
  · exact ⟨true, by simp only [conversion, hinteger]; rfl⟩
  · exact ⟨spec.flags.small, by simp only [conversion, hinteger]; rfl⟩

/-- **Unsigned output.** For every flag, width and precision, the conversions `u`, `o`, `x` and `X`
without a qualifier print a number that reads back as the argument exactly if the argument is
below 2^31. -/
theorem printUnsigned_reads_iff (strs : ℕ → Option (List Char)) {d : Directive} (hd : d.Ok)
    (hconv : d.conv ∈ ['u', 'o', 'x', 'X']) (hqualifier : d.qualifier = none) (slot : ℕ) :
    ∃ out, Prints strs [.dir d] [slot] out ∧
      (readPrinted (unsignedBase d.conv) out = some (slot % 2 ^ 32) ↔ slot % 2 ^ 32 < 2 ^ 31) := by
  obtain ⟨spec, hspec, hread, hround⟩ := hd.printLoop strs
  obtain ⟨hsign, hwidth, hprecision⟩ := hread.range
  obtain ⟨small, hfield⟩ := conversion_unsigned strs hconv (hspec.trans hqualifier)
  obtain ⟨hmin, hmax⟩ := i32_range slot
  have hbase : (unsignedBase d.conv : ℤ) = 8 ∨ (unsignedBase d.conv : ℤ) = 10 ∨
      (unsignedBase d.conv : ℤ) = 16 := by
    unfold unsignedBase
    split
    · exact Or.inl rfl
    · split
      · exact Or.inr (Or.inl rfl)
      · exact Or.inr (Or.inr rfl)
  have hprint : ∃ out, printNumber spec (unsignedBase d.conv) { spec.flags with small := small }
      (i32 slot) = .ok out := printNumber_ok spec (by omega) _ _
  obtain ⟨out, hout⟩ := hprint
  refine ⟨out, prints_of_printLoop fun rounds rest args out' stores => ?_, ?_⟩
  · have htext : formatText [.dir d] ++ rest = d.text ++ rest := by simp [formatText, Item.text]
    rw [htext, List.length_singleton, hround]
    simp [convert, deref, hfield, Printer.print, vaArg, hout]
  · have hnumber : number (i32 slot) (unsignedBase d.conv) spec.fieldWidth spec.precision
        { spec.flags with small := small } = some out := by
      unfold printNumber at hout
      split at hout
      · cases hout
      · rename_i cs hcs
        cases hout
        exact hcs
    have hvalue := readPrinted_number { spec.flags with small := small } (by omega) hbase hwidth
      hprecision hnumber
    have hmagnitude : magnitude { spec.flags with small := small } (i32 slot) =
        (i32 slot % 2 ^ 64).toNat := by
      simp [magnitude, isNegative, hsign]
    rw [Int.toNat_natCast, hmagnitude] at hvalue
    rw [hvalue, Option.some.injEq, i32_unsigned_iff]

theorem printUnsigned_reads_iff_hex :
    ∃ out, Prints (fun _ => none) [.dir ⟨['0'], ['8'], none, none, 'x'⟩] [255] out ∧
      readPrinted 16 out = some 255 := by
  have hd : (⟨['0'], ['8'], none, none, 'x'⟩ : Directive).Ok :=
    ⟨⟨forall_mem_of_all (by decide), forall_mem_of_all (by decide), by simp⟩, by simp, by decide⟩
  obtain ⟨out, hprints, hiff⟩ :=
    printUnsigned_reads_iff (fun _ => none) hd (by decide) rfl 255
  exact ⟨out, hprints, hiff.mpr (by decide)⟩

/-- `%08x` prints 0x80000000 with sixteen digits. -/
theorem printUnsigned_extends_sign :
    ∃ out, vsprintf (fun _ => none) ['%', '0', '8', 'x', nul] [0x80000000] =
        .ok ⟨out ++ [nul], 16, [], []⟩ ∧
      readPrinted 16 out = some 0xffffffff80000000 ∧ readPrinted 16 out ≠ some 0x80000000 :=
  ⟨['f', 'f', 'f', 'f', 'f', 'f', 'f', 'f', '8', '0', '0', '0', '0', '0', '0', '0'],
    by decide +kernel, by decide +kernel, by decide +kernel⟩

end Unsigned

end Smor.Printf
