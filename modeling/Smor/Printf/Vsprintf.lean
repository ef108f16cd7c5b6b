import Smor.Lib.Outcome
import Smor.Printf.Number

/-!
# The formatter

`vsprintf` walks along its format with one pointer, which the flag loop, the digit loops and
the switch all advance. The pointer is the rest of the format here, with the terminating NUL, and a
read behind it is a fault. Arguments are the 64-bit slots of the `va_list`. For every format
that ends in NUL, the pointer never gets behind it and the loop ends.
-/

namespace Smor.Printf

open Smor.Lib

/-- What can go wrong in a call: a read behind the end of the format, a missing argument, a string
argument without a string, `number` without a result, and a loop that does not end. -/
inductive Fault where
  | overread
  | noArg
  | badString
  | noNumber
  | steps
  deriving DecidableEq

/-- What the part in front of the conversion character says. -/
structure Spec where
  flags : Flags
  fieldWidth : ℤ
  precision : ℤ
  qualifier : Option Char

/-- The position in the format, the arguments that are left, the output, and what `%n` has
stored. -/
structure Printer where
  fmt : List Char
  args : List ℕ
  out : List Char
  stores : List (ℕ × ℤ)
  deriving DecidableEq

/-- The result of `vsprintf`: the buffer with its NUL, the return value, and the rest. -/
structure Printed where
  buf : List Char
  ret : ℤ
  args : List ℕ
  stores : List (ℕ × ℤ)
  deriving DecidableEq

/-- `*fmt`. -/
def deref : List Char → Except Fault Char
  | [] => .error .overread
  | c :: _ => .ok c

/-- `va_arg`: every type that is asked for here takes one slot. -/
def vaArg : List ℕ → Except Fault (ℕ × List ℕ)
  | [] => .error .noArg
  | slot :: args => .ok (slot, args)

/-- `is_digit`. -/
def isDigit (c : Char) : Bool := '0' ≤ c && c ≤ '9'

/-- `skip_atoi`, with what it has read. -/
def skipAtoi : List Char → ℤ → Except Fault (ℤ × List Char)
  | [], _ => .error .overread
  | c :: fmt, i =>
    if isDigit c then skipAtoi fmt (i32 (i * 10 + c.toNat - '0'.toNat)) else .ok (i, c :: fmt)

/-- The flags before the first one is read. -/
def Flags.none : Flags := ⟨false, false, false, false, false, false, false⟩

/-- The switch of the loop `repeat`; `none` where it ends the loop. -/
def setFlag (flags : Flags) (c : Char) : Option Flags :=
  match c with
  | '-' => some { flags with left := true }
  | '+' => some { flags with plus := true }
  | ' ' => some { flags with space := true }
  | '#' => some { flags with special := true }
  | '0' => some { flags with zeropad := true }
  | _ => none

/-- The loop `repeat`, after its first `++fmt`. -/
def parseFlags : List Char → Flags → Except Fault (Flags × List Char)
  | [], _ => .error .overread
  | c :: fmt, flags =>
    match setFlag flags c with
    | some flags => parseFlags fmt flags
    | none => .ok (flags, c :: fmt)

/-- `get field width`. A `*` takes an argument and stays where it is. -/
def parseWidth (flags : Flags) (fmt : List Char) (args : List ℕ) :
    Except Fault (ℤ × Flags × List Char × List ℕ) := do
  let c ← deref fmt
  if isDigit c then
    let (fieldWidth, fmt) ← skipAtoi fmt 0
    return (fieldWidth, flags, fmt, args)
  else if c = '*' then
    let (slot, args) ← vaArg args
    let fieldWidth := i32 slot
    if fieldWidth < 0 then return (i32 (-fieldWidth), { flags with left := true }, fmt, args)
    else return (fieldWidth, flags, fmt, args)
  else return (-1, flags, fmt, args)

/-- The number after the dot of a precision. -/
def parseDigits (fmt : List Char) (args : List ℕ) : Except Fault (ℤ × List Char × List ℕ) := do
  let c ← deref fmt
  if isDigit c then
    let (precision, fmt) ← skipAtoi fmt 0
    return (precision, fmt, args)
  else if c = '*' then
    let (slot, args) ← vaArg args
    return (i32 slot, fmt, args)
  else return (-1, fmt, args)

/-- `get the precision`. -/
def parsePrecision (fmt : List Char) (args : List ℕ) : Except Fault (ℤ × List Char × List ℕ) := do
  let c ← deref fmt
  if c = '.' then
    let (precision, fmt, args) ← parseDigits fmt.tail args
    return (if precision < 0 then 0 else precision, fmt, args)
  else return (-1, fmt, args)

/-- `get the conversion qualifier`: one character. -/
def parseQualifier (fmt : List Char) : Except Fault (Option Char × List Char) := do
  let c ← deref fmt
  if c = 'h' ∨ c = 'l' ∨ c = 'L' then return (some c, fmt.tail) else return (none, fmt)

/-- A directive up to its conversion character. -/
def parseSpec (fmt : List Char) (args : List ℕ) :
    Except Fault (Spec × List Char × List ℕ) := do
  let (flags, fmt) ← parseFlags fmt Flags.none
  let (fieldWidth, flags, fmt, args) ← parseWidth flags fmt args
  let (precision, fmt, args) ← parsePrecision fmt args
  let (qualifier, fmt) ← parseQualifier fmt
  return (⟨flags, fieldWidth, precision, qualifier⟩, fmt, args)

/-- `get_qualified_integer`, for the slot that `va_arg` takes. -/
def getQualifiedInteger (slot : ℕ) (qualifier : Option Char) : ℤ :=
  if qualifier = none ∨ qualifier = some 'h' then i32 slot else i64 slot

/-- The loop `while (--x > 0) *str++ = ' '`, with a number of rounds that is enough. -/
def spaceRounds : ℕ → ℤ → List Char × ℤ
  | 0, x => ([], i32 (x - 1))
  | rounds + 1, x =>
    let x := i32 (x - 1)
    if 0 < x then
      let (cs, x) := spaceRounds rounds x
      (' ' :: cs, x)
    else ([], x)

/-- `while (--x > 0) *str++ = ' '`: what it writes, and what it leaves in `x`. -/
def spacesBelow (x : ℤ) : List Char × ℤ := spaceRounds (i32 (x - 1)).toNat x

/-- The case `'c'`. -/
def printChar (spec : Spec) (slot : ℕ) : List Char :=
  let (front, fieldWidth) :=
    if !spec.flags.left then spacesBelow spec.fieldWidth else ([], spec.fieldWidth)
  let (back, _) := spacesBelow fieldWidth
  front ++ [Char.ofNat (slot % 2 ^ 8)] ++ back

section Strings

-- the strings that pointers in the arguments lead to
variable (strs : ℕ → Option (List Char))

/-- The string at an address that `va_arg` takes, if it is one. -/
def stringAt (slot : ℕ) : Except Fault (List Char) :=
  if slot = 0 then .ok ['<', 'N', 'U', 'L', 'L', '>']
  else match strs slot with
    | none => .error .badString
    | some s => .ok s

/-- The case `'s'`. -/
def printString (spec : Spec) (slot : ℕ) : Except Fault (List Char) := do
  let s ← stringAt strs slot
  let len := i32 s.length
  let len :=
    if spec.precision < 0 then len
    else if spec.precision < len then spec.precision else len
  let (front, fieldWidth) :=
    if !spec.flags.left then fillAbove len ' ' spec.fieldWidth else ([], spec.fieldWidth)
  let (back, _) := fillAbove len ' ' fieldWidth
  return front ++ s.take len.toNat ++ back

/-- `str = number(str, num, base, field_width, precision, flags)`. -/
def printNumber (spec : Spec) (base : ℤ) (flags : Flags) (num : ℤ) : Except Fault (List Char) :=
  match number num base spec.fieldWidth spec.precision flags with
  | none => .error .noNumber
  | some cs => .ok cs

/-- The cases of the switch that take one argument and write it. -/
def conversion (spec : Spec) (c : Char) : Option (ℕ → Except Fault (List Char)) :=
  let integer := fun slot => getQualifiedInteger slot spec.qualifier
  match c with
  | 'c' => some fun slot => .ok (printChar spec slot)
  | 's' => some (printString strs spec)
  | 'o' => some fun slot => printNumber spec 8 spec.flags (integer slot)
  | 'p' =>
    let spec :=
      if spec.fieldWidth = -1 then
        { spec with fieldWidth := 16, flags := { spec.flags with zeropad := true } }
      else spec
    some fun slot => printNumber spec 16 spec.flags (i64 slot)
  | 'x' => some fun slot => printNumber spec 16 { spec.flags with small := true } (integer slot)
  | 'X' => some fun slot => printNumber spec 16 spec.flags (integer slot)
  | 'd' | 'i' =>
    some fun slot => printNumber spec 10 { spec.flags with sign := true } (integer slot)
  | 'u' => some fun slot => printNumber spec 10 spec.flags (integer slot)
  | _ => none

/-- Such a case, with the `++fmt` of the loop. -/
def Printer.print (s : Printer) (field : ℕ → Except Fault (List Char)) : Except Fault Printer := do
  let (slot, args) ← vaArg s.args
  let cs ← field slot
  return { s with fmt := s.fmt.tail, args := args, out := s.out ++ cs }

/-- The case `'n'`, with the `++fmt` of the loop. -/
def Printer.store (s : Printer) : Except Fault Printer := do
  let (slot, args) ← vaArg s.args
  return { s with
    fmt := s.fmt.tail
    args := args
    stores := s.stores ++ [(slot, i32 s.out.length)] }

/-- The default case, with the `++fmt` of the loop. At the NUL, it cancels the `--fmt`. -/
def Printer.literal (s : Printer) (c : Char) : Printer :=
  let out := if c ≠ '%' then s.out ++ ['%'] else s.out
  if c ≠ nul then { s with fmt := s.fmt.tail, out := out ++ [c] } else { s with out := out }

/-- The switch. -/
def convert (spec : Spec) (s : Printer) : Except Fault Printer := do
  let c ← deref s.fmt
  match conversion strs spec c with
  | some field => s.print field
  | none => if c = 'n' then s.store else return s.literal c

/-- One round of the loop at a `%`. -/
def directive (s : Printer) : Except Fault Printer := do
  let (spec, fmt, args) ← parseSpec s.fmt.tail s.args
  convert strs spec { s with fmt := fmt, args := args }

/-- The loop over the format, with a bound on its rounds. -/
def printLoop : ℕ → Printer → Except Fault Printer
  | 0, _ => .error .steps
  | rounds + 1, s => do
    let c ← deref s.fmt
    if c = nul then return s
    else if c ≠ '%' then printLoop rounds { s with fmt := s.fmt.tail, out := s.out ++ [c] }
    else
      let s ← directive strs s
      printLoop rounds s

/-- `vsprintf`. Each round of its loop takes a character of the format. -/
def vsprintf (fmt : List Char) (args : List ℕ) : Except Fault Printed := do
  let s ← printLoop strs fmt.length ⟨fmt, args, [], []⟩
  return ⟨s.out ++ [nul], i32 s.out.length, s.args, s.stores⟩

end Strings

section Termination

variable {strs : ℕ → Option (List Char)} {few bad : Prop}

/-- The faults of a call with too few arguments or a bad string. -/
def Excused (few bad : Prop) (e : Fault) : Prop :=
  (e = .noArg ∧ few) ∨ (e = .badString ∧ bad)

theorem mem_tail {c : Char} {fmt : List Char} (hc : c ≠ nul) (hnul : nul ∈ c :: fmt) :
    nul ∈ fmt := by
  rcases List.mem_cons.mp hnul with h | h
  · exact absurd h.symm hc
  · exact h

/-- In front of the NUL there is always a character to read. -/
theorem meets_deref {allowed : Fault → Prop} {fmt : List Char} (hnul : nul ∈ fmt) :
    Meets allowed (fun c => ∃ rest, fmt = c :: rest) (deref fmt) := by
  cases fmt with
  | nil => cases hnul
  | cons c rest => exact ⟨rest, rfl⟩

theorem meets_vaArg {args : List ℕ} (hargs : ¬few → 0 < args.length) :
    Meets (Excused few bad) (fun r => args.length ≤ r.2.length + 1) (vaArg args) := by
  cases args with
  | nil =>
    have hfew : few := by
      by_contra hfew
      exact absurd (hargs hfew) (by simp)
    exact Or.inl ⟨rfl, hfew⟩
  | cons slot args => exact Nat.le_refl _

theorem isDigit_nul : isDigit nul = false := by decide

theorem meets_skipAtoi {allowed : Fault → Prop} {fmt : List Char} (hnul : nul ∈ fmt) (i : ℤ) :
    Meets allowed (fun r => nul ∈ r.2 ∧ r.2.length ≤ fmt.length) (skipAtoi fmt i) := by
  induction fmt generalizing i with
  | nil => cases hnul
  | cons c fmt ih =>
    rw [skipAtoi]
    split
    · rename_i hdigit
      have hc : c ≠ nul := by
        rintro rfl
        rw [isDigit_nul] at hdigit
        cases hdigit
      exact (ih (mem_tail hc hnul) _).mono fun r hr => ⟨hr.1, Nat.le_succ_of_le hr.2⟩
    · exact ⟨hnul, Nat.le_refl _⟩

theorem setFlag_nul (flags : Flags) : setFlag flags nul = none := rfl

theorem meets_parseFlags {allowed : Fault → Prop} {fmt : List Char} (hnul : nul ∈ fmt)
    (flags : Flags) :
    Meets allowed (fun r => nul ∈ r.2 ∧ r.2.length ≤ fmt.length) (parseFlags fmt flags) := by
  induction fmt generalizing flags with
  | nil => cases hnul
  | cons c fmt ih =>
    rw [parseFlags]
    split
    · rename_i flags' hflag
      have hc : c ≠ nul := by
        rintro rfl
        rw [setFlag_nul] at hflag
        cases hflag
      exact (ih (mem_tail hc hnul) flags').mono fun r hr => ⟨hr.1, Nat.le_succ_of_le hr.2⟩
    · exact ⟨hnul, Nat.le_refl _⟩

/-- A width takes at most one argument. -/
theorem meets_parseWidth {fmt : List Char} {args : List ℕ} (hnul : nul ∈ fmt)
    (hargs : ¬few → 0 < args.length) (flags : Flags) :
    Meets (Excused few bad) (fun (_, _, fmt', args') =>
      nul ∈ fmt' ∧ fmt'.length ≤ fmt.length ∧ args.length ≤ args'.length + 1)
      (parseWidth flags fmt args) := by
  unfold parseWidth
  refine (meets_deref hnul).bind fun c hc => ?_
  split
  · exact (meets_skipAtoi hnul 0).bind fun r hr => ⟨hr.1, hr.2, Nat.le_succ _⟩
  · split
    · refine (meets_vaArg hargs).bind fun (slot, args') hr => ?_
      dsimp only
      split <;> exact ⟨hnul, Nat.le_refl _, hr⟩
    · exact ⟨hnul, Nat.le_refl _, Nat.le_succ _⟩

theorem meets_parseDigits {fmt : List Char} {args : List ℕ} (hnul : nul ∈ fmt)
    (hargs : ¬few → 0 < args.length) :
    Meets (Excused few bad) (fun (_, fmt', args') =>
      nul ∈ fmt' ∧ fmt'.length ≤ fmt.length ∧ args.length ≤ args'.length + 1)
      (parseDigits fmt args) := by
  unfold parseDigits
  refine (meets_deref hnul).bind fun c hc => ?_
  split
  · exact (meets_skipAtoi hnul 0).bind fun r hr => ⟨hr.1, hr.2, Nat.le_succ _⟩
  · split
    · exact (meets_vaArg hargs).bind fun r hr => ⟨hnul, Nat.le_refl _, hr⟩
    · exact ⟨hnul, Nat.le_refl _, Nat.le_succ _⟩

/-- A precision takes at most one argument. -/
theorem meets_parsePrecision {fmt : List Char} {args : List ℕ} (hnul : nul ∈ fmt)
    (hargs : ¬few → 0 < args.length) :
    Meets (Excused few bad) (fun (_, fmt', args') =>
      nul ∈ fmt' ∧ fmt'.length ≤ fmt.length ∧ args.length ≤ args'.length + 1)
      (parsePrecision fmt args) := by
  unfold parsePrecision
  refine (meets_deref hnul).bind fun c ⟨rest, hrest⟩ => ?_
  subst hrest
  split
  · rename_i hdot
    have hnext : nul ∈ rest := mem_tail (by rw [hdot]; decide) hnul
    exact (meets_parseDigits hnext hargs).bind fun r hr => ⟨hr.1, Nat.le_succ_of_le hr.2.1, hr.2.2⟩
  · exact ⟨hnul, Nat.le_refl _, Nat.le_succ _⟩

theorem meets_parseQualifier {allowed : Fault → Prop} {fmt : List Char} (hnul : nul ∈ fmt) :
    Meets allowed (fun r => nul ∈ r.2 ∧ r.2.length ≤ fmt.length) (parseQualifier fmt) := by
  unfold parseQualifier
  refine (meets_deref hnul).bind fun c ⟨rest, hrest⟩ => ?_
  subst hrest
  split
  · rename_i hc
    have hne : c ≠ nul := by
      rcases hc with rfl | rfl | rfl <;> decide
    exact ⟨mem_tail hne hnul, Nat.le_succ _⟩
  · exact ⟨hnul, Nat.le_refl _⟩

theorem meets_parseSpec {fmt : List Char} {args : List ℕ} (hnul : nul ∈ fmt)
    (hargs : ¬few → 2 ≤ args.length) :
    Meets (Excused few bad) (fun (_, fmt', args') =>
      nul ∈ fmt' ∧ fmt'.length ≤ fmt.length ∧ args.length ≤ args'.length + 2)
      (parseSpec fmt args) := by
  unfold parseSpec
  refine (meets_parseFlags hnul Flags.none).bind fun (flags, fmt₁) ⟨hnul₁, hlen₁⟩ => ?_
  refine (meets_parseWidth hnul₁ (fun h => by have := hargs h; omega) flags).bind
    fun (width, flags, fmt₂, args₂) ⟨hnul₂, hlen₂, hargs₂⟩ => ?_
  refine (meets_parsePrecision hnul₂ (fun h => by have := hargs h; omega)).bind
    fun (precision, fmt₃, args₃) ⟨hnul₃, hlen₃, hargs₃⟩ => ?_
  refine (meets_parseQualifier hnul₃).bind fun (qualifier, fmt₄) ⟨hnul₄, hlen₄⟩ => ?_
  exact ⟨hnul₄, by dsimp only at *; omega, by dsimp only at *; omega⟩

/-- `number` has a result in the bases that `vsprintf` uses. -/
theorem printNumber_ok (spec : Spec) {base : ℤ} (hbase : 2 ≤ base ∧ base ≤ 36) (flags : Flags)
    (num : ℤ) : ∃ cs, printNumber spec base flags num = .ok cs := by
  have hnumber : ∃ cs, number num base spec.fieldWidth spec.precision flags = some cs := by
    unfold number
    rw [if_neg (by omega)]
    exact ⟨_, rfl⟩
  obtain ⟨cs, hcs⟩ := hnumber
  exact ⟨cs, by rw [printNumber, hcs]⟩

/-- A conversion fails only for a bad string. -/
theorem meets_conversion (hstrs : ¬bad → ∀ p ≠ 0, (strs p).isSome) {spec : Spec} {c : Char}
    {field : ℕ → Except Fault (List Char)} (hfield : conversion strs spec c = some field)
    (slot : ℕ) : Meets (Excused few bad) (fun _ => True) (field slot) := by
  have hnumber : ∀ {base : ℤ}, 2 ≤ base ∧ base ≤ 36 → ∀ spec flags num,
      Meets (Excused few bad) (fun _ => True) (printNumber spec base flags num) := by
    intro base hbase spec flags num
    obtain ⟨cs, hcs⟩ := printNumber_ok spec hbase flags num
    rw [hcs]
    trivial
  have hstring : Meets (Excused few bad) (fun _ => True) (printString strs spec slot) := by
    have hat : Meets (Excused few bad) (fun _ => True) (stringAt strs slot) := by
      unfold stringAt
      split
      · trivial
      · rename_i hslot
        cases hs : strs slot with
        | some s => trivial
        | none =>
          refine Or.inr ⟨rfl, ?_⟩
          by_contra hbad
          simpa [hs] using hstrs hbad slot hslot
    exact hat.bind fun _ _ => trivial
  unfold conversion at hfield
  split at hfield <;> cases hfield
  · trivial
  · exact hstring
  all_goals exact hnumber (by decide) _ _ _

/-- A case that prints an argument moves on by one character and takes one argument. -/
theorem meets_print {s : Printer} {c : Char} {rest : List Char} (hfmt : s.fmt = c :: rest)
    (hnul : nul ∈ rest) (hargs : ¬few → 0 < s.args.length) {field : ℕ → Except Fault (List Char)}
    (hfield : ∀ slot, Meets (Excused few bad) (fun _ => True) (field slot)) :
    Meets (Excused few bad) (fun s' => nul ∈ s'.fmt ∧ s'.fmt.length ≤ s.fmt.length ∧
      s.args.length ≤ s'.args.length + 1) (s.print field) := by
  unfold Printer.print
  refine (meets_vaArg hargs).bind fun (slot, args) hr => ?_
  refine (hfield slot).bind fun cs _ => ?_
  refine ⟨?_, ?_, hr⟩
  · simpa [hfmt] using hnul
  · simp [hfmt]

/-- The switch stays in front of the NUL, and takes at most one argument. -/
theorem meets_convert (hstrs : ¬bad → ∀ p ≠ 0, (strs p).isSome) {s : Printer}
    (hnul : nul ∈ s.fmt) (hargs : ¬few → 0 < s.args.length) (spec : Spec) :
    Meets (Excused few bad) (fun s' => nul ∈ s'.fmt ∧ s'.fmt.length ≤ s.fmt.length ∧
      s.args.length ≤ s'.args.length + 1) (convert strs spec s) := by
  unfold convert
  refine (meets_deref hnul).bind fun c ⟨rest, hfmt⟩ => ?_
  have hrest : c ≠ nul → nul ∈ rest := fun hc => mem_tail hc (hfmt ▸ hnul)
  split
  · rename_i field hfield
    have hc : c ≠ nul := by
      rintro rfl
      cases hfield
    exact meets_print hfmt (hrest hc) hargs (meets_conversion hstrs hfield)
  · split
    · rename_i hc
      unfold Printer.store
      refine (meets_vaArg hargs).bind fun (slot, args) hr => ?_
      refine ⟨?_, ?_, hr⟩
      · simpa [hfmt] using hrest (by rw [hc]; decide)
      · simp [hfmt]
    · unfold Printer.literal
      by_cases hc : c = nul
      · simpa [hc] using ⟨hnul, Nat.le_refl _, Nat.le_succ _⟩
      · simpa [hc, hfmt] using ⟨hrest hc, Nat.le_succ _, Nat.le_succ _⟩

/-- A directive moves the pointer forward, and takes at most three arguments. -/
theorem meets_directive (hstrs : ¬bad → ∀ p ≠ 0, (strs p).isSome) {s : Printer} {c : Char}
    {rest : List Char} (hfmt : s.fmt = c :: rest) (hnul : nul ∈ rest)
    (hargs : ¬few → 3 ≤ s.args.length) :
    Meets (Excused few bad) (fun s' => nul ∈ s'.fmt ∧ s'.fmt.length < s.fmt.length ∧
      s.args.length ≤ s'.args.length + 3) (directive strs s) := by
  unfold directive
  have htail : s.fmt.tail = rest := by rw [hfmt]; rfl
  rw [htail]
  refine (meets_parseSpec hnul fun h => by have := hargs h; omega).bind
    fun (spec, fmt, args) ⟨hnul₁, hlen₁, hargs₁⟩ => ?_
  refine (meets_convert hstrs hnul₁ (fun h => ?_) spec).mono fun s' ⟨hnul₂, hlen₂, hargs₂⟩ => ?_
  · have := hargs h
    dsimp only at *
    omega
  · refine ⟨hnul₂, ?_, ?_⟩
    · rw [hfmt, List.length_cons]
      dsimp only at *
      omega
    · dsimp only at *
      omega

/-- Each round of the loop takes at least one character. -/
theorem meets_printLoop (hstrs : ¬bad → ∀ p ≠ 0, (strs p).isSome) {rounds : ℕ} {s : Printer}
    (hnul : nul ∈ s.fmt) (hrounds : s.fmt.length ≤ rounds)
    (hargs : ¬few → 3 * s.fmt.length ≤ s.args.length) :
    Meets (Excused few bad) (fun _ => True) (printLoop strs rounds s) := by
  induction rounds generalizing s with
  | zero =>
    rw [List.length_eq_zero_iff.mp (Nat.le_zero.mp hrounds)] at hnul
    cases hnul
  | succ rounds ih =>
    rw [printLoop]
    refine (meets_deref hnul).bind fun c ⟨rest, hfmt⟩ => ?_
    rw [hfmt, List.length_cons] at hrounds
    split
    · trivial
    · rename_i hc
      have hrest : nul ∈ rest := mem_tail hc (hfmt ▸ hnul)
      split
      · refine ih ?_ ?_ fun h => ?_
        · rw [hfmt]
          exact hrest
        · rw [hfmt]
          exact Nat.le_of_succ_le_succ hrounds
        · have hmany := hargs h
          rw [hfmt, List.length_cons] at hmany
          simp only [hfmt, List.tail_cons]
          omega
      · refine (meets_directive hstrs hfmt hrest fun h => ?_).bind
          fun s' ⟨hnul', hlen, htaken⟩ => ?_
        · have hmany := hargs h
          rw [hfmt, List.length_cons] at hmany
          omega
        · rw [hfmt, List.length_cons] at hlen
          refine ih hnul' (by omega) fun h => ?_
          have hmany := hargs h
          rw [hfmt, List.length_cons] at hmany
          omega

/-- For a format that ends in NUL, `vsprintf` returns unless there are too few arguments or a string
argument is bad; it does not read behind the NUL, and its loop ends. -/
theorem vsprintf_fault {text : List Char} {args : List ℕ} {e : Fault}
    (h : vsprintf strs (text ++ [nul]) args = .error e) :
    (e = .noArg ∧ args.length < 3 * (text.length + 1)) ∨
      (e = .badString ∧ ∃ p ≠ 0, strs p = none) := by
  have hstrs : ¬(∃ p ≠ 0, strs p = none) → ∀ p ≠ 0, (strs p).isSome := by
    intro hbad p hp
    rw [Option.isSome_iff_ne_none]
    exact fun hnone => hbad ⟨p, hp, hnone⟩
  have hloop : Meets (Excused (args.length < 3 * (text.length + 1)) (∃ p ≠ 0, strs p = none))
      (fun _ => True) (printLoop strs (text ++ [nul]).length ⟨text ++ [nul], args, [], []⟩) := by
    refine meets_printLoop hstrs (by simp) (Nat.le_refl _) fun hfew => ?_
    rw [List.length_append, List.length_singleton]
    exact Nat.le_of_not_lt hfew
  have hresult : Meets (Excused (args.length < 3 * (text.length + 1)) (∃ p ≠ 0, strs p = none))
      (fun _ => True) (vsprintf strs (text ++ [nul]) args) := hloop.bind fun s _ => trivial
  exact hresult.of_error h

end Termination

end Smor.Printf
