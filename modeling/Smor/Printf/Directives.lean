import Smor.Printf.Vsprintf

/-!
# Complete directives

A format made of literal characters and complete directives is taken apart the way it was put
together: each directive is read up to its conversion character, whatever follows, takes one
argument and appends what it writes. So formatting maps the concatenation of two formats to the
concatenation of their outputs.
-/

namespace Smor.Printf

open Smor.Lib

/-- The flag characters. -/
def flagChars : List Char := ['-', '+', ' ', '#', '0']

/-- The conversions of complete directives. -/
def conversions : List Char := ['c', 's', 'o', 'p', 'x', 'X', 'd', 'i', 'u', '%']

/-- A directive as it is written: `%[flags][width][.precision][h|l|L]conversion`. -/
structure Directive where
  flags : List Char
  width : List Char
  precision : Option (List Char)
  qualifier : Option Char
  conv : Char

/-- The flags, the width and the precision of a directive have the right characters. -/
structure Directive.HeadOk (d : Directive) : Prop where
  flags : ∀ c ∈ d.flags, c ∈ flagChars
  width : ∀ c ∈ d.width, isDigit c
  precision : ∀ ds ∈ d.precision, ∀ c ∈ ds, isDigit c

/-- A complete directive. -/
structure Directive.Ok (d : Directive) : Prop extends d.HeadOk where
  qualifier : ∀ c ∈ d.qualifier, c ∈ ['h', 'l', 'L']
  conv : d.conv ∈ conversions

/-- The text of a precision. -/
def precisionText : Option (List Char) → List Char
  | none => []
  | some ds => '.' :: ds

/-- The text between the `%` and the qualifier. -/
def Directive.headText (d : Directive) : List Char :=
  d.flags ++ d.width ++ precisionText d.precision

/-- The text of a directive. -/
def Directive.text (d : Directive) : List Char :=
  '%' :: (d.headText ++ d.qualifier.toList ++ [d.conv])

/-- A piece of a format. -/
inductive Item where
  | char (c : Char)
  | dir (d : Directive)

/-- A literal character other than `%`, or a complete directive. -/
def Item.Ok : Item → Prop
  | .char c => c ≠ '%' ∧ c ≠ nul
  | .dir d => d.Ok

/-- The text of a piece. -/
def Item.text : Item → List Char
  | .char c => [c]
  | .dir d => d.text

/-- The text of a format. -/
def formatText (items : List Item) : List Char := items.flatMap Item.text

/-- The number of arguments of a piece: one for a directive other than `%%`. -/
def Item.argCount : Item → ℕ
  | .char _ => 0
  | .dir d => if d.conv = '%' then 0 else 1

section Parsing

/-- What a test finds of every character of a list. -/
theorem forall_mem_of_all {l : List Char} {p : Char → Prop} [DecidablePred p]
    (h : l.all (fun c => decide (p c)) = true) : ∀ c ∈ l, p c := by
  intro c hc
  exact of_decide_eq_true (List.all_eq_true.mp h c hc)

/-- A character that ends the flags, the width and the precision. -/
def Stops (c : Char) : Prop := c ∉ flagChars ∧ isDigit c = false ∧ c ≠ '.' ∧ c ≠ '*'

instance (c : Char) : Decidable (Stops c) := inferInstanceAs (Decidable (_ ∧ _ ∧ _ ∧ _))

theorem setFlag_isSome {c : Char} (hc : c ∈ flagChars) (flags : Flags) :
    ∃ flags', setFlag flags c = some flags' := by
  simp only [flagChars, List.mem_cons, List.not_mem_nil, or_false] at hc
  rcases hc with rfl | rfl | rfl | rfl | rfl <;> exact ⟨_, rfl⟩

theorem setFlag_eq_none {c : Char} (hc : c ∉ flagChars) (flags : Flags) :
    setFlag flags c = none := by
  unfold setFlag
  split
  case h_6 => rfl
  all_goals exact absurd (by decide) hc

/-- The flag loop reads the flags and perhaps leading zeros of the width. -/
theorem parseFlags_text {cs : List Char} (hcs : ∀ c ∈ cs, c ∈ flagChars) (ds : List Char)
    (flags : Flags) :
    ∃ flags' ds', ds' <:+ ds ∧ ∀ c rest, c ∉ flagChars →
      parseFlags (cs ++ ds ++ c :: rest) flags = .ok (flags', ds' ++ c :: rest) := by
  induction cs generalizing flags with
  | nil =>
    induction ds generalizing flags with
    | nil =>
      refine ⟨flags, [], List.suffix_refl [], fun c rest hc => ?_⟩
      rw [List.nil_append, List.nil_append, parseFlags, setFlag_eq_none hc]
    | cons d ds ih =>
      cases hflag : setFlag flags d with
      | none =>
        refine ⟨flags, d :: ds, List.suffix_refl _, fun c rest hc => ?_⟩
        rw [List.nil_append, List.cons_append, parseFlags, hflag]
      | some flags₁ =>
        obtain ⟨flags', ds', hds', h⟩ := ih flags₁
        refine ⟨flags', ds', hds'.trans (List.suffix_cons d ds), fun c rest hc => ?_⟩
        rw [List.nil_append, List.cons_append, parseFlags, hflag]
        exact h c rest hc
  | cons f cs ih =>
    obtain ⟨flags₁, hflag⟩ := setFlag_isSome (hcs f (by simp)) flags
    obtain ⟨flags', ds', hds', h⟩ := ih (fun c hc => hcs c (List.mem_cons_of_mem f hc)) flags₁
    refine ⟨flags', ds', hds', fun c rest hc => ?_⟩
    rw [List.cons_append, List.cons_append, parseFlags, hflag]
    exact h c rest hc

/-- A number ends at the first character that is no digit. -/
theorem skipAtoi_text {ds : List Char} (hds : ∀ c ∈ ds, isDigit c) (i : ℤ) :
    ∃ v, ∀ c rest, isDigit c = false → skipAtoi (ds ++ c :: rest) i = .ok (v, c :: rest) := by
  induction ds generalizing i with
  | nil =>
    refine ⟨i, fun c rest hc => ?_⟩
    simp [skipAtoi, hc]
  | cons d ds ih =>
    obtain ⟨v, h⟩ := ih (fun c hc => hds c (List.mem_cons_of_mem d hc))
      (i32 (i * 10 + d.toNat - '0'.toNat))
    refine ⟨v, fun c rest hc => ?_⟩
    rw [List.cons_append, skipAtoi, if_pos (hds d (by simp))]
    exact h c rest hc

theorem parseWidth_text {ds : List Char} (hds : ∀ c ∈ ds, isDigit c) :
    ∃ w, ∀ flags c rest args, isDigit c = false → c ≠ '*' →
      parseWidth flags (ds ++ c :: rest) args = .ok (w, flags, c :: rest, args) := by
  cases ds with
  | nil =>
    refine ⟨-1, fun flags c rest args hc hstar => ?_⟩
    simp [parseWidth, deref, hc, hstar]
  | cons d ds =>
    obtain ⟨w, h⟩ := skipAtoi_text hds 0
    refine ⟨w, fun flags c rest args hc _ => ?_⟩
    have hd : isDigit d := hds d (by simp)
    have hskip := h c rest hc
    rw [List.cons_append] at hskip ⊢
    simp [parseWidth, deref, hd, hskip]

theorem parseDigits_text {ds : List Char} (hds : ∀ c ∈ ds, isDigit c) :
    ∃ v, ∀ c rest args, isDigit c = false → c ≠ '*' →
      parseDigits (ds ++ c :: rest) args = .ok (v, c :: rest, args) := by
  cases ds with
  | nil =>
    refine ⟨-1, fun c rest args hc hstar => ?_⟩
    simp [parseDigits, deref, hc, hstar]
  | cons d ds =>
    obtain ⟨v, h⟩ := skipAtoi_text hds 0
    refine ⟨v, fun c rest args hc _ => ?_⟩
    have hd : isDigit d := hds d (by simp)
    have hskip := h c rest hc
    rw [List.cons_append] at hskip ⊢
    simp [parseDigits, deref, hd, hskip]

theorem parsePrecision_text {p : Option (List Char)} (hp : ∀ ds ∈ p, ∀ c ∈ ds, isDigit c) :
    ∃ v, ∀ c rest args, Stops c →
      parsePrecision (precisionText p ++ c :: rest) args = .ok (v, c :: rest, args) := by
  cases p with
  | none =>
    refine ⟨-1, fun c rest args hc => ?_⟩
    simp [precisionText, parsePrecision, deref, hc.2.2.1]
  | some ds =>
    obtain ⟨v, h⟩ := parseDigits_text (hp ds rfl)
    refine ⟨if v < 0 then 0 else v, fun c rest args hc => ?_⟩
    simp [precisionText, parsePrecision, deref, h c rest args hc.2.1 hc.2.2.2]

/-- The first character of a precision and what follows it. -/
theorem precisionText_cons (p : Option (List Char)) {c : Char} (hc : Stops c) :
    ∃ c', c' ∉ flagChars ∧ isDigit c' = false ∧ c' ≠ '*' ∧
      ∃ t, ∀ rest, precisionText p ++ c :: rest = c' :: (t ++ rest) := by
  cases p with
  | none => exact ⟨c, hc.1, hc.2.1, hc.2.2.2, [], fun rest => rfl⟩
  | some ds => exact ⟨'.', by decide, by decide, by decide, ds ++ [c], fun rest => by
      simp [precisionText]⟩

/-- A directive is read up to its qualifier, whatever follows. -/
theorem Directive.HeadOk.parseSpec {d : Directive} (hd : d.HeadOk) :
    ∃ flags w p, ∀ c rest args, Stops c →
      Printf.parseSpec (d.headText ++ c :: rest) args = (do
        let (qualifier, fmt) ← parseQualifier (c :: rest)
        return (⟨flags, w, p, qualifier⟩, fmt, args)) := by
  obtain ⟨flags, ds, hds, hflags⟩ := parseFlags_text hd.flags d.width Flags.none
  obtain ⟨w, hwidth⟩ := parseWidth_text fun c hc => hd.width c (hds.subset hc)
  obtain ⟨p, hprecision⟩ := parsePrecision_text hd.precision
  refine ⟨flags, w, p, fun c rest args hc => ?_⟩
  obtain ⟨c', hflag, hdigit, hstar, t, ht⟩ := precisionText_cons d.precision hc
  have hfirst := hflags c' (t ++ rest) hflag
  have hsecond := hwidth flags c' (t ++ rest) args hdigit hstar
  rw [← ht rest] at hfirst hsecond
  have htext : d.headText ++ c :: rest =
      d.flags ++ d.width ++ (precisionText d.precision ++ c :: rest) := by
    simp [headText]
  unfold Printf.parseSpec
  simp only [htext, hfirst, hsecond, hprecision c rest args hc, ok_bind]

theorem stops_of_conversion :
    ∀ c ∈ conversions, Stops c ∧ c ≠ 'h' ∧ c ≠ 'l' ∧ c ≠ 'L' ∧ c ≠ nul :=
  forall_mem_of_all (by decide)

theorem stops_of_qualifier : ∀ q ∈ ['h', 'l', 'L'], Stops q := forall_mem_of_all (by decide)

/-- A directive is read up to its conversion character, whatever that is. -/
theorem Directive.HeadOk.parseSpec_conv {d : Directive} (hd : d.HeadOk)
    (hqualifier : ∀ c ∈ d.qualifier, c ∈ ['h', 'l', 'L'])
    (hconv : Stops d.conv ∧ d.conv ≠ 'h' ∧ d.conv ≠ 'l' ∧ d.conv ≠ 'L') :
    ∃ spec, spec.qualifier = d.qualifier ∧ ∀ rest args,
      Printf.parseSpec (d.headText ++ d.qualifier.toList ++ [d.conv] ++ rest) args =
        .ok (spec, d.conv :: rest, args) := by
  obtain ⟨flags, w, p, hhead⟩ := hd.parseSpec
  obtain ⟨hstops, hh, hl, hL⟩ := hconv
  refine ⟨⟨flags, w, p, d.qualifier⟩, rfl, fun rest args => ?_⟩
  cases hq : d.qualifier with
  | none =>
    have h := hhead d.conv rest args hstops
    simp only [Option.toList_none, List.append_nil, List.append_assoc, List.singleton_append]
    rw [h]
    simp [parseQualifier, deref, hh, hl, hL]
  | some q =>
    have hmem := hqualifier q hq
    have h := hhead q (d.conv :: rest) args (stops_of_qualifier q hmem)
    simp only [Option.toList_some, List.append_assoc, List.cons_append, List.nil_append]
    rw [h]
    have htest : q = 'h' ∨ q = 'l' ∨ q = 'L' := by simpa using hmem
    simp [parseQualifier, deref, htest]

/-- A specification that was read from a format. -/
def Spec.Read (spec : Spec) : Prop :=
  ∃ fmt args fmt' args', parseSpec fmt args = .ok (spec, fmt', args')

/-- A complete directive gets to the switch with nothing but its own text read. -/
theorem Directive.Ok.directive {d : Directive} (hd : d.Ok) (strs : ℕ → Option (List Char)) :
    ∃ spec, spec.qualifier = d.qualifier ∧ spec.Read ∧ ∀ rest args out stores,
      Printf.directive strs ⟨d.text ++ rest, args, out, stores⟩ =
        convert strs spec ⟨d.conv :: rest, args, out, stores⟩ := by
  obtain ⟨hstops, hh, hl, hL, -⟩ := stops_of_conversion d.conv hd.conv
  obtain ⟨spec, hqualifier, hspec⟩ := hd.toHeadOk.parseSpec_conv hd.qualifier ⟨hstops, hh, hl, hL⟩
  refine ⟨spec, hqualifier, ⟨_, _, _, _, hspec [] []⟩, fun rest args out stores => ?_⟩
  unfold Printf.directive
  simp only [text, List.cons_append, List.tail_cons, hspec, ok_bind]

end Parsing

section Formats

variable {strs : ℕ → Option (List Char)}

/-- The arguments that match a piece: one for each directive other than `%%`, and a pointer to a
string (or `NULL`) for `%s`. -/
def Item.Takes (strs : ℕ → Option (List Char)) : Item → List ℕ → Prop
  | .char _, slots => slots = []
  | .dir d, slots =>
    if d.conv = '%' then slots = []
    else ∃ slot, slots = [slot] ∧ (d.conv = 's' → ∃ s, stringAt strs slot = .ok s)

/-- The argument lists that match a format. -/
inductive Matches (strs : ℕ → Option (List Char)) : List Item → List ℕ → Prop where
  | nil : Matches strs [] []
  | cons {item : Item} {slots : List ℕ} {items : List Item} {args : List ℕ} :
    item.Takes strs slots → Matches strs items args → Matches strs (item :: items) (slots ++ args)

theorem Item.Takes.length {item : Item} {slots : List ℕ} (h : item.Takes strs slots) :
    slots.length = item.argCount := by
  cases item with
  | char c => simpa [Item.Takes, Item.argCount] using h
  | dir d =>
    by_cases hpercent : d.conv = '%'
    · simpa [Item.Takes, Item.argCount, hpercent] using h
    · simp only [Item.Takes, hpercent, if_false] at h
      obtain ⟨slot, rfl, -⟩ := h
      simp [Item.argCount, hpercent]

theorem Matches.length {items : List Item} {args : List ℕ} (h : Matches strs items args) :
    args.length = (items.map Item.argCount).sum := by
  induction h with
  | nil => rfl
  | cons htakes _ ih =>
    rw [List.length_append, List.map_cons, List.sum_cons, htakes.length, ih]

/-- Each conversion other than `%` prints an argument; only a bad string stops it. -/
theorem conversion_ok {c : Char} (hc : c ∈ conversions) (hpercent : c ≠ '%') (spec : Spec)
    {slot : ℕ} (hslot : c = 's' → ∃ s, stringAt strs slot = .ok s) :
    ∃ field, conversion strs spec c = some field ∧ ∃ o, field slot = .ok o := by
  simp only [conversions, List.mem_cons, List.not_mem_nil, or_false] at hc
  rcases hc with rfl | rfl | rfl | rfl | rfl | rfl | rfl | rfl | rfl | rfl
  case inr.inl =>
    obtain ⟨s, hs⟩ := hslot rfl
    refine ⟨_, rfl, ?_⟩
    rw [printString, hs]
    exact ⟨_, rfl⟩
  case inl => exact ⟨_, rfl, _, rfl⟩
  case inr.inr.inr.inr.inr.inr.inr.inr.inr => exact absurd rfl hpercent
  all_goals exact ⟨_, rfl, printNumber_ok _ (by decide) _ _⟩

/-- A round of the loop at a complete directive. -/
theorem Directive.Ok.printLoop {d : Directive} (hd : d.Ok) (strs : ℕ → Option (List Char)) :
    ∃ spec, spec.qualifier = d.qualifier ∧ spec.Read ∧ ∀ rounds rest args out stores,
      Printf.printLoop strs (rounds + 1) ⟨d.text ++ rest, args, out, stores⟩ = (do
        let s ← convert strs spec ⟨d.conv :: rest, args, out, stores⟩
        Printf.printLoop strs rounds s) := by
  obtain ⟨spec, hqualifier, hread, hdirective⟩ := hd.directive strs
  refine ⟨spec, hqualifier, hread, fun rounds rest args out stores => ?_⟩
  have hne : '%' ≠ nul := by decide
  rw [Printf.printLoop]
  simp only [hdirective]
  simp [deref, text, hne]

/-- One round of the loop prints one piece, whatever follows. -/
theorem Item.Takes.printLoop {item : Item} (hitem : item.Ok) {slots : List ℕ}
    (htakes : item.Takes strs slots) :
    ∃ o, ∀ rounds rest args out stores,
      Printf.printLoop strs (rounds + 1) ⟨item.text ++ rest, slots ++ args, out, stores⟩ =
        Printf.printLoop strs rounds ⟨rest, args, out ++ o, stores⟩ := by
  cases item with
  | char c =>
    obtain ⟨hpercent, hnul⟩ := hitem
    have hslots : slots = [] := htakes
    refine ⟨[c], fun rounds rest args out stores => ?_⟩
    simp [Printf.printLoop, Item.text, deref, hpercent, hnul, hslots]
  | dir d =>
    have hd : d.Ok := hitem
    obtain ⟨spec, -, -, hround⟩ := hd.printLoop strs
    by_cases hpercent : d.conv = '%'
    · have hslots : slots = [] := by simpa [Item.Takes, hpercent] using htakes
      refine ⟨['%'], fun rounds rest args out stores => ?_⟩
      rw [Item.text, hround, hpercent, hslots]
      rfl
    · simp only [Item.Takes, hpercent, if_false] at htakes
      obtain ⟨slot, rfl, hslot⟩ := htakes
      obtain ⟨field, hfield, o, ho⟩ := conversion_ok hd.conv hpercent spec hslot
      refine ⟨o, fun rounds rest args out stores => ?_⟩
      rw [Item.text, hround]
      simp [convert, deref, hfield, Printer.print, vaArg, ho]

/-- The loop prints a whole format piece by piece, whatever follows. -/
theorem Matches.printLoop {items : List Item} (hitems : ∀ item ∈ items, item.Ok) {args : List ℕ}
    (h : Matches strs items args) :
    ∃ o, ∀ rounds rest args' out stores,
      Printf.printLoop strs (rounds + items.length)
          ⟨formatText items ++ rest, args ++ args', out, stores⟩ =
        Printf.printLoop strs rounds ⟨rest, args', out ++ o, stores⟩ := by
  induction h with
  | nil => exact ⟨[], fun rounds rest args' out stores => by simp [formatText]⟩
  | @cons item slots items args htakes _ ih =>
    obtain ⟨o₁, h₁⟩ := htakes.printLoop (hitems item (by simp))
    obtain ⟨o₂, h₂⟩ := ih fun item hitem => hitems item (by simp [hitem])
    refine ⟨o₁ ++ o₂, fun rounds rest args' out stores => ?_⟩
    have htext : formatText (item :: items) ++ rest = item.text ++ (formatText items ++ rest) := by
      simp [formatText]
    rw [htext, List.append_assoc, List.length_cons, ← Nat.add_assoc, h₁, h₂, List.append_assoc]

/-- A format with the output `out` for these arguments: the buffer gets the output and one NUL,
further arguments are left, and the return value is the length of the output, as an `int`. -/
def Prints (strs : ℕ → Option (List Char)) (items : List Item) (args : List ℕ) (out : List Char) :
    Prop :=
  ∀ extra, vsprintf strs (formatText items ++ [nul]) (args ++ extra) =
    .ok ⟨out ++ [nul], i32 out.length, extra, []⟩

theorem length_le_formatText (items : List Item) : items.length ≤ (formatText items).length := by
  induction items with
  | nil => simp
  | cons item items ih =>
    have hpos : 0 < item.text.length := by
      cases item <;> simp [Item.text, Directive.text]
    simp only [formatText, List.flatMap_cons, List.length_cons, List.length_append] at ih ⊢
    omega

/-- What the loop prints is what `vsprintf` prints. -/
theorem prints_of_printLoop {items : List Item} {args : List ℕ} {o : List Char}
    (h : ∀ rounds rest args' out stores,
      printLoop strs (rounds + items.length)
          ⟨formatText items ++ rest, args ++ args', out, stores⟩ =
        printLoop strs rounds ⟨rest, args', out ++ o, stores⟩) :
    Prints strs items args o := by
  intro extra
  have hrounds : (formatText items ++ [nul]).length =
      (formatText items).length - items.length + 1 + items.length := by
    have hle := length_le_formatText items
    rw [List.length_append, List.length_singleton]
    omega
  unfold vsprintf
  rw [hrounds, h, printLoop]
  simp [deref]

/-- **Formatting is a homomorphism.** Every format of literal characters and complete directives,
with matching arguments, is printed: each directive other than `%%` takes one argument, and the
return value is the length of the output if that fits in an `int`. The output of two formats
in a row is the output of the first followed by that of the second. And for every
text, complete or not, `vsprintf` stays in front of the NUL and returns unless arguments are
missing. -/
theorem vsprintf_homomorphism (strs : ℕ → Option (List Char)) {items₁ items₂ : List Item}
    {args₁ args₂ : List ℕ} (hitems₁ : ∀ item ∈ items₁, item.Ok)
    (hitems₂ : ∀ item ∈ items₂, item.Ok) (hargs₁ : Matches strs items₁ args₁)
    (hargs₂ : Matches strs items₂ args₂) :
    (args₁.length = (items₁.map Item.argCount).sum ∧ ∃ out₁ out₂,
      Prints strs items₁ args₁ out₁ ∧ (out₁.length < 2 ^ 31 → i32 out₁.length = out₁.length) ∧
      Prints strs items₂ args₂ out₂ ∧
      Prints strs (items₁ ++ items₂) (args₁ ++ args₂) (out₁ ++ out₂)) ∧
    ∀ text args e, vsprintf strs (text ++ [nul]) args = .error e →
      (e = .noArg ∧ args.length < 3 * (text.length + 1)) ∨
        (e = .badString ∧ ∃ p ≠ 0, strs p = none) := by
  obtain ⟨out₁, h₁⟩ := hargs₁.printLoop hitems₁
  obtain ⟨out₂, h₂⟩ := hargs₂.printLoop hitems₂
  refine ⟨⟨hargs₁.length, out₁, out₂, prints_of_printLoop h₁, fun hlt => ?_,
    prints_of_printLoop h₂, prints_of_printLoop fun rounds rest args' out stores => ?_⟩,
    fun text args e => vsprintf_fault⟩
  · exact i32_of_range (by omega) (by omega)
  · have htext : formatText (items₁ ++ items₂) ++ rest =
        formatText items₁ ++ (formatText items₂ ++ rest) := by
      simp [formatText]
    have hrounds : rounds + (items₁ ++ items₂).length = rounds + items₂.length + items₁.length := by
      rw [List.length_append]
      omega
    rw [htext, hrounds, List.append_assoc, h₁, h₂, List.append_assoc]

theorem vsprintf_homomorphism_greeting :
    ∃ out₁ out₂, Prints (fun _ => none) [.char 'a', .dir ⟨[], [], none, none, 'd'⟩] [7] out₁ ∧
      Prints (fun _ => none) [.dir ⟨['-'], ['4'], none, none, 's'⟩] [0] out₂ ∧
      Prints (fun _ => none) [.char 'a', .dir ⟨[], [], none, none, 'd'⟩,
        .dir ⟨['-'], ['4'], none, none, 's'⟩] [7, 0] (out₁ ++ out₂) := by
  have hd : (⟨[], [], none, none, 'd'⟩ : Directive).Ok :=
    ⟨⟨forall_mem_of_all (by decide), forall_mem_of_all (by decide), by simp⟩, by simp, by decide⟩
  have hs : (⟨['-'], ['4'], none, none, 's'⟩ : Directive).Ok :=
    ⟨⟨forall_mem_of_all (by decide), forall_mem_of_all (by decide), by simp⟩, by simp, by decide⟩
  have hitems₁ : ∀ item ∈ [Item.char 'a', .dir ⟨[], [], none, none, 'd'⟩], item.Ok := by
    intro item hitem
    rcases List.mem_cons.mp hitem with rfl | hitem
    · exact ⟨by decide, by decide⟩
    · rw [List.mem_singleton.mp hitem]
      exact hd
  have hitems₂ : ∀ item ∈ [Item.dir ⟨['-'], ['4'], none, none, 's'⟩], item.Ok := by
    intro item hitem
    rw [List.mem_singleton.mp hitem]
    exact hs
  have htakes₁ : (Item.dir ⟨[], [], none, none, 'd'⟩).Takes (fun _ => none) [7] :=
    ⟨7, rfl, fun h => absurd h (by decide)⟩
  have htakes₂ : (Item.dir ⟨['-'], ['4'], none, none, 's'⟩).Takes (fun _ => none) [0] :=
    ⟨0, rfl, fun _ => ⟨_, rfl⟩⟩
  have hchar : (Item.char 'a').Takes (fun _ => none) [] := rfl
  obtain ⟨⟨-, out₁, out₂, h₁, -, h₂, h⟩, -⟩ := vsprintf_homomorphism (fun _ => none) hitems₁ hitems₂
    (.cons hchar (.cons htakes₁ .nil)) (.cons htakes₂ .nil)
  exact ⟨out₁, out₂, h₁, h₂, h⟩

/-- A format of one character, again and again. -/
theorem prints_replicate (n : ℕ) :
    Prints strs (List.replicate n (.char 'a')) [] (List.replicate n 'a') := by
  apply prints_of_printLoop
  induction n with
  | zero =>
    intro rounds rest args' out stores
    simp [formatText]
  | succ n ih =>
    intro rounds rest args' out stores
    have hchar : 'a' ≠ '%' ∧ 'a' ≠ nul := by decide
    have hstep := ih rounds rest args' (out ++ ['a']) stores
    rw [List.replicate_succ, List.replicate_succ, List.length_cons, ← Nat.add_assoc, printLoop]
    simp only [formatText, List.flatMap_cons, Item.text, List.cons_append, List.nil_append, deref,
      ok_bind, hchar.1, hchar.2, if_false, ne_eq, not_false_eq_true, if_true,
      List.tail_cons] at hstep ⊢
    rw [hstep, List.append_assoc, List.singleton_append]

/-- An output of 2^31 characters has no length that an `int` could return. -/
theorem vsprintf_length_wraps :
    ∃ items out, (∀ item ∈ items, item.Ok) ∧ Matches (fun _ => none) items [] ∧
      Prints (fun _ => none) items [] out ∧ i32 out.length ≠ out.length := by
  have hmatches : ∀ n, Matches (fun _ => none) (List.replicate n (.char 'a')) [] := by
    intro n
    induction n with
    | zero => exact .nil
    | succ n ih =>
      have hchar : (Item.char 'a').Takes (fun _ => none) [] := rfl
      exact .cons hchar ih
  refine ⟨List.replicate (2 ^ 31) (.char 'a'), List.replicate (2 ^ 31) 'a', fun item hitem => ?_,
    hmatches _, prints_replicate _, ?_⟩
  · rw [List.eq_of_mem_replicate hitem]
    exact ⟨by decide, by decide⟩
  · rw [List.length_replicate]
    have hlt := (i32_range ((2 ^ 31 : ℕ) : ℤ)).2
    intro heq
    rw [heq] at hlt
    simp at hlt

end Formats

end Smor.Printf
