import Smor.Printf.Consumption

/-!
# Stars and long qualifiers

A `*` takes its argument but is not skipped, so the switch sees it as a conversion of its own, and
the rest of the directive becomes text. Of `ll`, the parser takes one `l`, and the other
becomes a conversion in the same way. In both cases the conversion is left without its argument,
and the arguments of everything behind it shift.
-/

namespace Smor.Printf

open Smor.Lib

/-- A width or a precision as it is written. -/
inductive Field where
  | absent
  | digits (ds : List Char)
  | star
  deriving DecidableEq

/-- A directive that may take its width and its precision from the arguments. -/
structure Starred where
  flags : List Char
  width : Field
  precision : Field
  qualifier : Option Char
  conv : Char

/-- The digits that a field has. -/
def Field.Ok : Field → Prop
  | .digits ds => ∀ c ∈ ds, isDigit c
  | _ => True

/-- A complete directive, also with the conversion `n`. -/
structure Starred.Ok (d : Starred) : Prop where
  flags : ∀ c ∈ d.flags, c ∈ flagChars
  width : d.width.Ok
  precision : d.precision.Ok
  qualifier : ∀ c ∈ d.qualifier, c ∈ ['h', 'l', 'L']
  conv : d.conv ∈ 'n' :: conversions

/-- The text of a field. -/
def Field.text : Field → List Char
  | .absent => []
  | .digits ds => ds
  | .star => ['*']

/-- The text of a precision. -/
def Field.precisionText : Field → List Char
  | .absent => []
  | field => '.' :: field.text

/-- The text of a directive. -/
def Starred.text (d : Starred) : List Char :=
  '%' :: (d.flags ++ d.width.text ++ d.precision.precisionText ++ d.qualifier.toList ++ [d.conv])

/-- The argument of a field. -/
def Field.slots (field : Field) (slot : ℕ) : List ℕ := if field = .star then [slot] else []

/-- A number in decimal digits. -/
def decimal (n : ℕ) : List Char :=
  if n = 0 then ['0'] else (Nat.digits 10 n).reverse.map fun d => upperDigits.getD d nul

/-- The directive with the values of its arguments written in place of the stars: the width
`|w|`, with the flag `-` if `w` is negative, and the precision `max p 0`. -/
def Starred.written (d : Starred) (w p : ℤ) : Directive where
  flags := if d.width = .star ∧ w < 0 then d.flags ++ ['-'] else d.flags
  width := if d.width = .star then decimal w.natAbs else d.width.text
  precision :=
    match d.precision with
    | .absent => none
    | .digits ds => some ds
    | .star => some (decimal (max p 0).toNat)
  qualifier := d.qualifier
  conv := d.conv

/-- Two calls give the same output and leave the same arguments. -/
def SameResult (r₁ r₂ : Printed) : Prop := r₁.buf = r₂.buf ∧ r₁.args = r₂.args

instance (r₁ r₂ : Printed) : Decidable (SameResult r₁ r₂) := inferInstanceAs (Decidable (_ ∧ _))

section Stars

variable {strs : ℕ → Option (List Char)}

theorem isDigit_upperDigits {d : ℕ} (hd : d < 10) : isDigit (upperDigits.getD d nul) = true := by
  revert d
  decide

theorem decimal_digits (n : ℕ) : ∀ c ∈ decimal n, isDigit c = true := by
  unfold decimal
  split
  · exact forall_mem_of_all (by decide)
  · intro c hc
    obtain ⟨d, hd, rfl⟩ := List.mem_map.mp hc
    exact isDigit_upperDigits (Nat.digits_lt_base (by omega) (List.mem_reverse.mp hd))

/-- The written form has the right characters. -/
theorem Starred.Ok.written {d : Starred} (hd : d.Ok) (w p : ℤ) : (d.written w p).HeadOk := by
  refine ⟨fun c hc => ?_, fun c hc => ?_, fun ds hds c hc => ?_⟩
  · unfold Starred.written at hc
    dsimp only at hc
    split at hc
    · rcases List.mem_append.mp hc with hc | hc
      · exact hd.flags c hc
      · rw [List.mem_singleton.mp hc]
        decide
    · exact hd.flags c hc
  · unfold Starred.written at hc
    dsimp only at hc
    split at hc
    · exact decimal_digits _ c hc
    · have hwidth := hd.width
      cases hfield : d.width with
      | absent => simp [hfield, Field.text] at hc
      | digits ds =>
        rw [hfield] at hc hwidth
        exact hwidth c hc
      | star => contradiction
  · unfold Starred.written at hds
    have hprecision := hd.precision
    cases hfield : d.precision with
    | absent => simp [hfield] at hds
    | digits ds' =>
      simp only [hfield, Option.mem_def, Option.some.injEq] at hds
      rw [hfield] at hprecision
      rw [← hds] at hc
      exact hprecision c hc
    | star =>
      simp only [hfield, Option.mem_def, Option.some.injEq] at hds
      rw [← hds] at hc
      exact decimal_digits _ c hc

/-- The switch at a star that the parser has not skipped. -/
theorem directive_at_star {fmt rest : List Char} {args args' : List ℕ} {spec : Spec}
    (h : parseSpec fmt args = .ok (spec, '*' :: rest, args')) (out : List Char)
    (stores : List (ℕ × ℤ)) :
    directive strs ⟨'%' :: fmt, args, out, stores⟩ =
      .ok ⟨rest, args', out ++ ['%', '*'], stores⟩ := by
  unfold directive
  simp only [List.tail_cons, h, ok_bind]
  rw [convert_literal (by decide)]
  rfl

theorem parsePrecision_star (rest : List Char) (args : List ℕ) :
    parsePrecision ('*' :: rest) args = .ok (-1, '*' :: rest, args) := by
  rw [parsePrecision, deref, ok_bind, if_neg (by decide)]
  rfl

theorem parseQualifier_star (rest : List Char) :
    parseQualifier ('*' :: rest) = .ok (none, '*' :: rest) := by
  rw [parseQualifier, deref, ok_bind, if_neg (by decide)]
  rfl

/-- The parts of a directive, put together. -/
theorem parseSpec_eq {fmt fmt₁ fmt₂ fmt₃ fmt₄ : List Char} {args args₂ args₃ : List ℕ}
    {flags flags₂ : Flags} {w p : ℤ} {q : Option Char}
    (hflags : parseFlags fmt Flags.none = .ok (flags, fmt₁))
    (hwidth : parseWidth flags fmt₁ args = .ok (w, flags₂, fmt₂, args₂))
    (hprecision : parsePrecision fmt₂ args₂ = .ok (p, fmt₃, args₃))
    (hqualifier : parseQualifier fmt₃ = .ok (q, fmt₄)) :
    parseSpec fmt args = .ok (⟨flags₂, w, p, q⟩, fmt₄, args₃) := by
  simp only [parseSpec, hflags, hwidth, hprecision, hqualifier, ok_bind, pure_eq_ok]

/-- A width `*` takes an argument, and nothing more of the directive is read. -/
theorem parseSpec_width_star {flags : List Char} (hflags : ∀ c ∈ flags, c ∈ flagChars)
    (rest : List Char) (slot : ℕ) (args : List ℕ) :
    ∃ spec, parseSpec (flags ++ '*' :: rest) (slot :: args) = .ok (spec, '*' :: rest, args) := by
  obtain ⟨flags', ds, hds, hparse⟩ := parseFlags_text hflags [] Flags.none
  obtain rfl : ds = [] := List.suffix_nil.mp hds
  obtain ⟨w, flags₂, hwidth⟩ := parseWidth_star flags' rest slot args
  have hstart := hparse '*' rest (by decide)
  rw [List.append_nil, List.nil_append] at hstart
  exact ⟨_, parseSpec_eq hstart hwidth (parsePrecision_star rest args) (parseQualifier_star rest)⟩

/-- A precision `*` takes an argument, and nothing more of the directive is read. -/
theorem parseSpec_precision_star {flags width : List Char} (hflags : ∀ c ∈ flags, c ∈ flagChars)
    (hwidth : ∀ c ∈ width, isDigit c) (rest : List Char) (slot : ℕ) (args : List ℕ) :
    ∃ spec, parseSpec (flags ++ width ++ '.' :: '*' :: rest) (slot :: args) =
      .ok (spec, '*' :: rest, args) := by
  obtain ⟨flags', ds, hds, hparse⟩ := parseFlags_text hflags width Flags.none
  obtain ⟨w, hw⟩ := parseWidth_text fun c hc => hwidth c (hds.subset hc)
  have hprecision : parsePrecision ('.' :: '*' :: rest) (slot :: args) =
      .ok (if i32 slot < 0 then 0 else i32 slot, '*' :: rest, args) := by
    rw [parsePrecision, deref, ok_bind, if_pos rfl, List.tail_cons, parseDigits_star, ok_bind]
    rfl
  have hstart := hparse '.' ('*' :: rest) (by decide)
  have hsecond := hw flags' '.' ('*' :: rest) (slot :: args) (by decide) (by decide)
  exact ⟨_, parseSpec_eq hstart hsecond hprecision (parseQualifier_star rest)⟩

theorem plain_of_qualifier {q : Option Char} (hq : ∀ c ∈ q, c ∈ ['h', 'l', 'L']) :
    ∀ c ∈ q.toList, Plain c := by
  intro c hc
  have hplain : ∀ c ∈ ['h', 'l', 'L'], Plain c := forall_mem_of_all (by decide)
  exact hplain c (hq c (Option.mem_toList.mp hc))

theorem Field.Ok.plain {field : Field} (h : field.Ok) : ∀ c ∈ field.precisionText, Plain c := by
  cases field with
  | absent => simp [Field.precisionText]
  | digits ds =>
    intro c hc
    rcases List.mem_cons.mp hc with rfl | hc
    · decide
    · have hdigit : isDigit c = true := h c hc
      constructor <;>
      · rintro rfl
        cases hdigit
  | star =>
    exact forall_mem_of_all (by decide)

/-- A directive with a star prints `%*`, and the text behind its first star follows. The
argument of a second star stays. -/
theorem Starred.Ok.directive_star {d : Starred} (hd : d.Ok) (strs : ℕ → Option (List Char))
    (hstar : d.width = .star ∨ d.precision = .star) (wSlot pSlot : ℕ) :
    ∃ t extra, (∀ c ∈ t, Plain c) ∧ extra.length ≤ 1 ∧ ∀ rest args out stores,
      directive strs ⟨d.text ++ rest, d.width.slots wSlot ++ d.precision.slots pSlot ++ args, out,
          stores⟩ =
        .ok ⟨t ++ d.conv :: rest, extra ++ args, out ++ ['%', '*'], stores⟩ := by
  have hqualifier := plain_of_qualifier hd.qualifier
  by_cases hwidth : d.width = .star
  · refine ⟨d.precision.precisionText ++ d.qualifier.toList, d.precision.slots pSlot,
      fun c hc => (List.mem_append.mp hc).elim (hd.precision.plain c) (hqualifier c), ?_,
      fun rest args out stores => ?_⟩
    · unfold Field.slots
      split <;> simp
    · have htext : d.text ++ rest = '%' :: (d.flags ++ '*' ::
          (d.precision.precisionText ++ d.qualifier.toList ++ d.conv :: rest)) := by
        simp [Starred.text, hwidth, Field.text]
      have hslots : d.width.slots wSlot ++ d.precision.slots pSlot ++ args =
          wSlot :: (d.precision.slots pSlot ++ args) := by
        simp [Field.slots, hwidth]
      obtain ⟨spec, hspec⟩ := parseSpec_width_star hd.flags
        (d.precision.precisionText ++ d.qualifier.toList ++ d.conv :: rest) wSlot
        (d.precision.slots pSlot ++ args)
      rw [htext, hslots, directive_at_star hspec]
  · have hprecision : d.precision = .star := hstar.resolve_left hwidth
    refine ⟨d.qualifier.toList, [], hqualifier, Nat.zero_le 1, fun rest args out stores => ?_⟩
    have htext : d.text ++ rest = '%' :: (d.flags ++ d.width.text ++ '.' :: '*' ::
        (d.qualifier.toList ++ d.conv :: rest)) := by
      simp [Starred.text, hprecision, Field.text, Field.precisionText]
    have hslots : d.width.slots wSlot ++ d.precision.slots pSlot ++ args = pSlot :: args := by
      simp [Field.slots, hwidth, hprecision]
    have hdigits : ∀ c ∈ d.width.text, isDigit c = true := by
      have hok := hd.width
      cases hfield : d.width with
      | absent => simp [Field.text]
      | digits ds =>
        rw [hfield] at hok
        exact hok
      | star => exact absurd hfield hwidth
    obtain ⟨spec, hspec⟩ := parseSpec_precision_star hd.flags hdigits
      (d.qualifier.toList ++ d.conv :: rest) pSlot args
    rw [htext, hslots, directive_at_star hspec]
    rfl

/-- `%%` prints a `%`. -/
theorem directive_percent (fmt : List Char) (args : List ℕ) (out : List Char)
    (stores : List (ℕ × ℤ)) :
    directive strs ⟨'%' :: '%' :: fmt, args, out, stores⟩ =
      .ok ⟨fmt, args, out ++ ['%'], stores⟩ := by
  have hspec : parseSpec ('%' :: fmt) args = .ok (⟨Flags.none, -1, -1, none⟩, '%' :: fmt, args) :=
    parseSpec_eq rfl rfl rfl rfl
  unfold directive
  simp only [List.tail_cons, hspec, ok_bind]
  rw [convert_literal (by decide)]
  rfl

/-- A star right behind the `%` takes an argument. -/
theorem directive_star {fmt : List Char} {args : List ℕ} {out : List Char}
    {stores : List (ℕ × ℤ)} {s : Printer}
    (h : directive strs ⟨'%' :: '*' :: fmt, args, out, stores⟩ = .ok s) :
    ∃ slot args', args = slot :: args' ∧ s = ⟨fmt, args', out ++ ['%', '*'], stores⟩ := by
  cases args with
  | nil => cases h
  | cons slot args' =>
    have hparse : ∃ spec, parseSpec ([] ++ '*' :: fmt) (slot :: args') =
        .ok (spec, '*' :: fmt, args') := parseSpec_width_star (by simp) fmt slot args'
    obtain ⟨spec, hspec⟩ := hparse
    rw [List.nil_append] at hspec
    rw [directive_at_star hspec] at h
    cases h
    exact ⟨slot, args', rfl, rfl⟩

/-- A format that continues after a `%` does not come to the same as one that continues after `%*`
with a further `%` in front, whether or not an argument is left over. -/
theorem percent_differs {fmt t : List Char} {args extra : List ℕ} {stores₁ stores₂ : List (ℕ × ℤ)}
    {r₁ r₂ : Printer} (hextra : extra.length ≤ 1)
    (h₁ : Formats strs ⟨fmt, args, ['%'], stores₁⟩ r₁)
    (h₂ : Formats strs ⟨'%' :: fmt, extra ++ args, '%' :: '*' :: t, stores₂⟩ r₂) :
    ¬(r₁.out = r₂.out ∧ r₁.args = r₂.args) := by
  rintro ⟨hout, hargs⟩
  obtain ⟨o₂, ho₂⟩ := h₂.keeps_out
  obtain ⟨s₂, hs₂, h₂⟩ := h₂.at_percent
  cases h₁ with
  | nul =>
    rw [ho₂] at hout
    simp at hout
  | @char c fmt _ _ _ _ hc h₁ =>
    -- the text goes on with a star of its own, which is a directive behind the further `%`
    obtain ⟨o₁, ho₁⟩ := h₁.keeps_out
    have hstar : c = '*' := by
      rw [ho₁, ho₂] at hout
      exact (List.cons.inj (List.cons.inj hout).2).1
    rw [hstar] at h₁ hs₂
    obtain ⟨slot, args', hslot, rfl⟩ := directive_star hs₂
    have hlength := h₁.args_length h₂ rfl
    have hmany := congrArg List.length hslot
    rw [List.length_append, List.length_cons] at hmany
    rw [hargs] at hlength
    dsimp only at hlength
    have hsame : args' = args := by
      obtain ⟨q, rfl⟩ := List.length_eq_one_iff.mp (by omega : extra.length = 1)
      exact (List.cons.inj hslot).2.symm
    rw [hsame] at h₂
    obtain ⟨o, ho, ho'⟩ := h₁.out_append h₂ rfl rfl
    rw [ho, ho'] at hout
    have hlen := congrArg List.length hout
    simp only [List.length_append, List.length_cons, List.length_nil] at hlen
    omega
  | @percent fmt _ _ _ s₁ _ hs₁ h₁ =>
    obtain ⟨fmt', n, htakes, hcases⟩ := directive_takes strs fmt
    obtain ⟨hfmt, hlen⟩ := htakes _ _ _ _ hs₁
    rw [directive_percent] at hs₂
    cases hs₂
    rcases hcases with hfirst | ⟨rfl, body, hbody, hplain⟩
    · obtain ⟨o, ho⟩ := hfirst _ _ _ _ hs₁
      obtain ⟨o₁, ho₁⟩ := h₁.keeps_out
      rw [ho₁, ho, ho₂] at hout
      simp at hout
    · rw [hbody] at h₂
      have hlength := h₁.args_length (h₂.at_text hplain) hfmt
      rw [hargs, List.length_append] at hlength
      omega

theorem mem_takers : ∀ c ∈ 'n' :: conversions, c ≠ '%' → c ∈ takers :=
  forall_mem_of_all (by decide)

theorem stops_of_mem :
    ∀ c ∈ 'n' :: conversions, Stops c ∧ c ≠ 'h' ∧ c ≠ 'l' ∧ c ≠ 'L' :=
  forall_mem_of_all (by decide)

/-- A run from a directive without stars: it takes an argument, unless it is a `%%`. -/
theorem Formats.at_directive {d : Directive} (hd : d.HeadOk)
    (hqualifier : ∀ c ∈ d.qualifier, c ∈ ['h', 'l', 'L']) (hconv : d.conv ∈ 'n' :: conversions)
    {rest : List Char} {args : List ℕ} {r : Printer}
    (h : Formats strs ⟨d.text ++ rest, args, [], []⟩ r) :
    (d.conv = '%' ∧ Formats strs ⟨rest, args, ['%'], []⟩ r) ∨
      d.conv ≠ '%' ∧ ∃ slot s, args = slot :: s.args ∧ s.fmt = rest ∧ Formats strs s r := by
  obtain ⟨spec, -, hspec⟩ := hd.parseSpec_conv hqualifier (stops_of_mem d.conv hconv)
  have htext : d.text ++ rest =
      '%' :: (d.headText ++ d.qualifier.toList ++ [d.conv] ++ rest) := rfl
  rw [htext] at h
  obtain ⟨s, hs, h⟩ := h.at_percent
  unfold directive at hs
  simp only [List.tail_cons, hspec, ok_bind] at hs
  by_cases hpercent : d.conv = '%'
  · rw [hpercent, convert_literal (by decide)] at hs
    cases hs
    exact Or.inl ⟨hpercent, h⟩
  · obtain ⟨slot, args', hargs, halike⟩ := convert_takes (mem_takers d.conv hconv hpercent) hs hs
    exact Or.inr ⟨hpercent, slot, s, by rw [hargs, halike.args.1], halike.fmt.1, h⟩

/-- **A star never works.** Whatever the directive, the values of its arguments and the text behind
it, the call differs from the one with the values written in place of the stars. -/
theorem starred_never {d : Starred} (hd : d.Ok) (hstar : d.width = .star ∨ d.precision = .star)
    (wSlot pSlot : ℕ) (following : List Char) (args : List ℕ) {r : Printed}
    (h : vsprintf strs ((d.written (i32 wSlot) (i32 pSlot)).text ++ (following ++ [nul])) args =
      .ok r) :
    ¬∃ r', vsprintf strs (d.text ++ (following ++ [nul]))
        (d.width.slots wSlot ++ d.precision.slots pSlot ++ args) = .ok r' ∧ SameResult r r' := by
  rintro ⟨r', h', hbuf, hargs⟩
  obtain ⟨q, hq, hqbuf, hqargs⟩ := formats_of_vsprintf h
  obtain ⟨q', hq', hqbuf', hqargs'⟩ := formats_of_vsprintf h'
  rw [hqbuf, hqbuf'] at hbuf
  rw [hqargs, hqargs'] at hargs
  have hout : q.out = q'.out := List.append_cancel_right hbuf
  obtain ⟨t, extra, hplain, hextra, hdirective⟩ := hd.directive_star strs hstar wSlot pSlot
  have htext : d.text ++ (following ++ [nul]) = '%' :: (d.flags ++ d.width.text ++
      d.precision.precisionText ++ d.qualifier.toList ++ [d.conv] ++ (following ++ [nul])) := rfl
  rw [htext] at hq'
  obtain ⟨s', hs', hq'⟩ := hq'.at_percent
  rw [← htext, hdirective] at hs'
  cases hs'
  have hrest := hq'.at_text hplain
  rcases hq.at_directive (hd.written _ _) hd.qualifier hd.conv with
    ⟨hpercent, hq⟩ | ⟨hpercent, slot, s, hslot, hfmt, hq⟩
  · have hconv : d.conv = '%' := hpercent
    rw [hconv] at hrest
    exact percent_differs hextra hq hrest ⟨hout, hargs⟩
  · have hconv : Plain d.conv := plain_of_taker d.conv (mem_takers d.conv hd.conv hpercent)
    have hlength := hq.args_length (hrest.at_char hconv) hfmt
    rw [hargs, List.length_append, hslot, List.length_cons] at hlength
    omega

theorem starred_never_width :
    ¬∃ r', vsprintf (fun _ => none) ['%', '*', 'd', nul] [5, 7] = .ok r' ∧
      SameResult ⟨[' ', ' ', ' ', ' ', '7', nul], 5, [], []⟩ r' :=
  starred_never (d := ⟨[], .star, .absent, none, 'd'⟩)
    ⟨by simp, trivial, trivial, by simp, by decide⟩ (Or.inl rfl) 5 0 [] [7] (by decide +kernel)

/-- `%*d` with a width of 5 prints itself, and the number is left. -/
theorem starred_prints_itself :
    vsprintf (fun _ => none) ['%', '5', 'd', nul] [7] =
        .ok ⟨[' ', ' ', ' ', ' ', '7', nul], 5, [], []⟩ ∧
      vsprintf (fun _ => none) ['%', '*', 'd', nul] [5, 7] =
        .ok ⟨['%', '*', 'd', nul], 3, [7], []⟩ ∧
      ¬SameResult ⟨[' ', ' ', ' ', ' ', '7', nul], 5, [], []⟩ ⟨['%', '*', 'd', nul], 3, [7], []⟩ :=
  ⟨by decide +kernel, by decide +kernel, by decide⟩

/-- **The qualifier `ll` never works.** Whatever the directive, its argument and the text behind it,
the call differs from the one with the qualifier `l`. -/
theorem longLong_never {d : Directive} (hd : d.HeadOk) (hqualifier : d.qualifier = some 'l')
    (hconv : d.conv ∈ ['d', 'i', 'u', 'o', 'x', 'X']) (following : List Char) (args : List ℕ)
    {r : Printed} (h : vsprintf strs (d.text ++ (following ++ [nul])) args = .ok r) :
    ¬∃ r', vsprintf strs ('%' :: (d.headText ++ ['l', 'l', d.conv]) ++ (following ++ [nul])) args =
        .ok r' ∧ SameResult r r' := by
  rintro ⟨r', h', hbuf, hargs⟩
  obtain ⟨q, hq, hqbuf, hqargs⟩ := formats_of_vsprintf h
  obtain ⟨q', hq', hqbuf', hqargs'⟩ := formats_of_vsprintf h'
  rw [hqargs, hqargs'] at hargs
  have hinteger : ∀ c ∈ ['d', 'i', 'u', 'o', 'x', 'X'],
      c ∈ 'n' :: conversions ∧ Plain c ∧ c ≠ '%' := forall_mem_of_all (by decide)
  have hmem := hinteger d.conv hconv
  -- the second `l` is the conversion, and prints `%l`
  obtain ⟨flags, w, p, hhead⟩ := hd.parseSpec
  have hspec : parseSpec (d.headText ++ 'l' :: 'l' :: d.conv :: (following ++ [nul])) args =
      .ok (⟨flags, w, p, some 'l'⟩, 'l' :: d.conv :: (following ++ [nul]), args) := by
    rw [hhead 'l' _ args (by decide)]
    rfl
  have htext : '%' :: (d.headText ++ ['l', 'l', d.conv]) ++ (following ++ [nul]) =
      '%' :: (d.headText ++ 'l' :: 'l' :: d.conv :: (following ++ [nul])) := by simp
  rw [htext] at hq'
  obtain ⟨s', hs', hq'⟩ := hq'.at_percent
  unfold directive at hs'
  simp only [List.tail_cons, hspec, ok_bind] at hs'
  rw [convert_literal (by decide)] at hs'
  cases hs'
  rcases hq.at_directive hd (by simp [hqualifier]) hmem.1 with
    ⟨hpercent, -⟩ | ⟨-, slot, s, hslot, hfmt, hq⟩
  · exact hmem.2.2 hpercent
  · have hlength := hq.args_length (hq'.at_char hmem.2.1) hfmt
    rw [hargs, hslot, List.length_cons] at hlength
    omega

theorem longLong_never_decimal :
    ¬∃ r', vsprintf (fun _ => none) ['%', 'l', 'l', 'u', nul] [7] = .ok r' ∧
      SameResult ⟨['7', nul], 1, [], []⟩ r' :=
  longLong_never (d := ⟨[], [], none, some 'l', 'u'⟩) ⟨by simp, by simp, by simp⟩ rfl
    (by decide) [] [7] (by decide +kernel)

/-- `%llu` prints `%lu`, and a directive behind it takes its argument. -/
theorem longLong_prints_itself :
    vsprintf (fun _ => none) ['%', 'l', 'u', ' ', '%', 'u', nul] [7, 8] =
        .ok ⟨['7', ' ', '8', nul], 3, [], []⟩ ∧
      vsprintf (fun _ => none) ['%', 'l', 'l', 'u', ' ', '%', 'u', nul] [7, 8] =
        .ok ⟨['%', 'l', 'u', ' ', '7', nul], 5, [8], []⟩ ∧
      ¬SameResult ⟨['7', ' ', '8', nul], 3, [], []⟩ ⟨['%', 'l', 'u', ' ', '7', nul], 5, [8], []⟩ :=
  ⟨by decide +kernel, by decide +kernel, by decide⟩

end Stars

end Smor.Printf
