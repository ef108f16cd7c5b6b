import Smor.Printf.Directives

/-!
# What a format consumes

How far `vsprintf` reads and how many arguments it takes depends on the format alone, not on the
arguments, and what it writes does not depend on what was written before. `Formats` describes
the runs of the loop without the bound on its rounds.
-/

namespace Smor.Printf

open Smor.Lib

variable {strs : ℕ → Option (List Char)}

/-- A literal character: neither `%` nor the end. -/
def Plain (c : Char) : Prop := c ≠ '%' ∧ c ≠ nul

instance (c : Char) : Decidable (Plain c) := inferInstanceAs (Decidable (_ ∧ _))

/-- The loop gets from one state to the other and ends there. -/
inductive Formats (strs : ℕ → Option (List Char)) : Printer → Printer → Prop where
  | nul {fmt args out stores} :
    Formats strs ⟨nul :: fmt, args, out, stores⟩ ⟨nul :: fmt, args, out, stores⟩
  | char {c fmt args out stores r} : Plain c → Formats strs ⟨fmt, args, out ++ [c], stores⟩ r →
    Formats strs ⟨c :: fmt, args, out, stores⟩ r
  | percent {fmt args out stores s r} : directive strs ⟨'%' :: fmt, args, out, stores⟩ = .ok s →
    Formats strs s r → Formats strs ⟨'%' :: fmt, args, out, stores⟩ r

/-- The characters whose case in the switch takes an argument. -/
def takers : List Char := ['c', 's', 'o', 'p', 'x', 'X', 'd', 'i', 'u', 'n']

section Loop

/-- What the loop computes is a run. -/
theorem formats_of_printLoop {rounds : ℕ} {s r : Printer} (h : printLoop strs rounds s = .ok r) :
    Formats strs s r := by
  induction rounds generalizing s with
  | zero => cases h
  | succ rounds ih =>
    obtain ⟨fmt, args, out, stores⟩ := s
    cases fmt with
    | nil => cases h
    | cons c fmt =>
      rw [printLoop] at h
      simp only [deref, ok_bind, List.tail_cons] at h
      split at h
      · rename_i hnul
        cases h
        rw [hnul]
        exact .nul
      · rename_i hnul
        split at h
        · rename_i hpercent
          exact .char ⟨hpercent, hnul⟩ (ih h)
        · rename_i hpercent
          rw [not_not.mp hpercent] at h ⊢
          obtain ⟨s, hs, h⟩ := bind_eq_ok_iff.mp h
          exact .percent hs (ih h)

/-- A call that returns is a run of the loop. -/
theorem formats_of_vsprintf {fmt : List Char} {args : List ℕ} {result : Printed}
    (h : vsprintf strs fmt args = .ok result) :
    ∃ r, Formats strs ⟨fmt, args, [], []⟩ r ∧ result.buf = r.out ++ [nul] ∧
      result.args = r.args := by
  obtain ⟨r, hr, h⟩ := bind_eq_ok_iff.mp h
  cases h
  exact ⟨r, formats_of_printLoop hr, rfl, rfl⟩

variable {fmt : List Char} {args : List ℕ} {out : List Char} {stores : List (ℕ × ℤ)} {r : Printer}

/-- At the NUL the loop ends. -/
theorem Formats.at_nul (h : Formats strs ⟨Printf.nul :: fmt, args, out, stores⟩ r) :
    r = ⟨Printf.nul :: fmt, args, out, stores⟩ := by
  cases h with
  | nul => rfl
  | char hc _ => exact absurd rfl hc.2

/-- A literal character is copied. -/
theorem Formats.at_char {c : Char} (hc : Plain c)
    (h : Formats strs ⟨c :: fmt, args, out, stores⟩ r) :
    Formats strs ⟨fmt, args, out ++ [c], stores⟩ r := by
  cases h with
  | nul => exact absurd rfl hc.2
  | char _ h => exact h
  | percent _ _ => exact absurd rfl hc.1

theorem Formats.at_text {cs : List Char} (hcs : ∀ c ∈ cs, Plain c)
    (h : Formats strs ⟨cs ++ fmt, args, out, stores⟩ r) :
    Formats strs ⟨fmt, args, out ++ cs, stores⟩ r := by
  induction cs generalizing out with
  | nil => simpa using h
  | cons c cs ih =>
    have hrest := ih (fun c' hc' => hcs c' (List.mem_cons_of_mem c hc'))
      (h.at_char (hcs c (by simp)))
    rwa [List.append_assoc, List.singleton_append] at hrest

/-- At a `%` a directive is taken. -/
theorem Formats.at_percent (h : Formats strs ⟨'%' :: fmt, args, out, stores⟩ r) :
    ∃ s, directive strs ⟨'%' :: fmt, args, out, stores⟩ = .ok s ∧ Formats strs s r := by
  cases h with
  | char hc _ => exact absurd rfl hc.1
  | percent hs h => exact ⟨_, hs, h⟩

end Loop

section Switch

theorem conversion_eq_none {c : Char} (hc : c ∉ takers) (spec : Spec) :
    conversion strs spec c = none := by
  unfold conversion
  split
  case h_10 => rfl
  all_goals exact absurd (by decide) hc

theorem conversion_eq_some (strs : ℕ → Option (List Char)) {c : Char} (hc : c ∈ takers)
    (hn : c ≠ 'n') (spec : Spec) :
    ∃ field, conversion strs spec c = some field := by
  simp only [takers, List.mem_cons, List.not_mem_nil, or_false] at hc
  rcases hc with rfl | rfl | rfl | rfl | rfl | rfl | rfl | rfl | rfl | rfl
  case inr.inr.inr.inr.inr.inr.inr.inr.inr => exact absurd rfl hn
  all_goals exact ⟨_, rfl⟩

theorem plain_of_taker : ∀ c ∈ takers, Plain c := forall_mem_of_all (by decide)

/-- What two rounds at the same character with the same arguments have in common: where they
leave the pointer and the arguments, and what they write. -/
structure Alike (rest : List Char) (args : List ℕ) (out₁ out₂ : List Char) (s₁ s₂ : Printer) :
    Prop where
  fmt : s₁.fmt = rest ∧ s₂.fmt = rest
  args : s₁.args = args ∧ s₂.args = args
  out : ∃ o, s₁.out = out₁ ++ o ∧ s₂.out = out₂ ++ o

/-- A case of the switch that takes an argument. -/
theorem convert_takes {spec : Spec} {c : Char} (hc : c ∈ takers) {rest : List Char} {args : List ℕ}
    {out₁ out₂ : List Char} {stores₁ stores₂ : List (ℕ × ℤ)} {s₁ s₂ : Printer}
    (h₁ : convert strs spec ⟨c :: rest, args, out₁, stores₁⟩ = .ok s₁)
    (h₂ : convert strs spec ⟨c :: rest, args, out₂, stores₂⟩ = .ok s₂) :
    ∃ slot args', args = slot :: args' ∧ Alike rest args' out₁ out₂ s₁ s₂ := by
  cases args with
  | nil =>
    exfalso
    unfold convert at h₁
    simp only [deref, ok_bind] at h₁
    by_cases hn : c = 'n'
    · rw [hn] at h₁
      cases h₁
    · obtain ⟨field, hfield⟩ := conversion_eq_some strs hc hn spec
      rw [hfield] at h₁
      cases h₁
  | cons slot args' =>
    refine ⟨slot, args', rfl, ?_⟩
    unfold convert at h₁ h₂
    simp only [deref, ok_bind] at h₁ h₂
    by_cases hn : c = 'n'
    · rw [hn] at h₁ h₂
      cases h₁
      cases h₂
      exact ⟨⟨rfl, rfl⟩, ⟨rfl, rfl⟩, [], by simp⟩
    · obtain ⟨field, hfield⟩ := conversion_eq_some strs hc hn spec
      rw [hfield] at h₁ h₂
      simp only [Printer.print, vaArg, ok_bind] at h₁ h₂
      obtain ⟨o, ho, h₁⟩ := bind_eq_ok_iff.mp h₁
      obtain ⟨o', ho', h₂⟩ := bind_eq_ok_iff.mp h₂
      rw [ho] at ho'
      cases ho'
      cases h₁
      cases h₂
      exact ⟨⟨rfl, rfl⟩, ⟨rfl, rfl⟩, o, rfl, rfl⟩

/-- The other characters print a `%`. -/
theorem convert_literal {spec : Spec} {c : Char} (hc : c ∉ takers) (rest : List Char)
    (args : List ℕ) (out : List Char) (stores : List (ℕ × ℤ)) :
    convert strs spec ⟨c :: rest, args, out, stores⟩ =
      .ok ⟨if c = nul then c :: rest else rest, args,
        out ++ '%' :: (if c = '%' ∨ c = nul then [] else [c]), stores⟩ := by
  have hn : c ≠ 'n' := by
    rintro rfl
    exact hc (by decide)
  unfold convert
  simp only [deref, ok_bind, conversion_eq_none hc, hn, if_false, pure_eq_ok, Printer.literal]
  have hne : '%' ≠ nul := by decide
  by_cases hnul : c = nul
  · simp [hnul, hne.symm]
  · by_cases hpercent : c = '%' <;> simp [hnul, hpercent, hne]

end Switch

section Parsing

/-- What a part of a directive takes: literal characters, and `n` arguments at a `*`, which stays in
place. -/
structure Takes (fmt fmt' : List Char) (n : ℕ) : Prop where
  body : ∃ body, fmt = body ++ fmt' ∧ ∀ c ∈ body, Plain c
  star : n = 0 ∨ ∃ rest, fmt' = '*' :: rest
  stay : ∀ rest, fmt = '*' :: rest → fmt' = fmt

theorem Takes.refl (fmt : List Char) : Takes fmt fmt 0 :=
  ⟨⟨[], rfl, by simp⟩, Or.inl rfl, fun _ _ => rfl⟩

theorem Takes.trans {fmt₁ fmt₂ fmt₃ : List Char} {n m : ℕ} (h₁ : Takes fmt₁ fmt₂ n)
    (h₂ : Takes fmt₂ fmt₃ m) : Takes fmt₁ fmt₃ (n + m) := by
  refine ⟨?_, ?_, fun rest hrest => ?_⟩
  · obtain ⟨body₁, hfmt₁, hbody₁⟩ := h₁.body
    obtain ⟨body₂, hfmt₂, hbody₂⟩ := h₂.body
    refine ⟨body₁ ++ body₂, by rw [hfmt₁, hfmt₂, List.append_assoc], fun c hc => ?_⟩
    exact (List.mem_append.mp hc).elim (hbody₁ c) (hbody₂ c)
  · rcases h₁.star with hn | ⟨rest, hrest⟩
    · rw [hn, Nat.zero_add]
      exact h₂.star
    · exact Or.inr ⟨rest, (h₂.stay rest hrest).trans hrest⟩
  · have hfirst := h₁.stay rest hrest
    rw [h₂.stay rest (hfirst.trans hrest), hfirst]

theorem Takes.cons {c : Char} (hc : Plain c) (hstar : c ≠ '*') {fmt fmt' : List Char} {n : ℕ}
    (h : Takes fmt fmt' n) : Takes (c :: fmt) fmt' n := by
  obtain ⟨body, hfmt, hbody⟩ := h.body
  refine ⟨⟨c :: body, by rw [hfmt, List.cons_append], List.forall_mem_cons.mpr ⟨hc, hbody⟩⟩, h.star,
    fun rest hrest => absurd (List.cons.inj hrest).1 hstar⟩

theorem parseFlags_takes {fmt fmt' : List Char} {flags flags' : Flags}
    (h : parseFlags fmt flags = .ok (flags', fmt')) : Takes fmt fmt' 0 := by
  induction fmt generalizing flags with
  | nil => cases h
  | cons c fmt ih =>
    rw [parseFlags] at h
    split at h
    · rename_i flags₁ hflag
      refine (ih h).cons ⟨?_, ?_⟩ ?_ <;>
      · rintro rfl
        cases hflag
    · cases h
      exact Takes.refl _

theorem skipAtoi_takes {fmt fmt' : List Char} {i v : ℤ} (h : skipAtoi fmt i = .ok (v, fmt')) :
    Takes fmt fmt' 0 := by
  induction fmt generalizing i with
  | nil => cases h
  | cons c fmt ih =>
    rw [skipAtoi] at h
    split at h
    · rename_i hdigit
      refine (ih h).cons ⟨?_, ?_⟩ ?_ <;>
      · rintro rfl
        cases hdigit
    · cases h
      exact Takes.refl _

/-- A star takes an argument and stays in place. -/
theorem takes_star (rest : List Char) : Takes ('*' :: rest) ('*' :: rest) 1 :=
  ⟨⟨[], rfl, by simp⟩, Or.inr ⟨rest, rfl⟩, fun _ _ => rfl⟩

/-- A width `*` stays in place. -/
theorem parseWidth_star (flags : Flags) (rest : List Char) (slot : ℕ) (args : List ℕ) :
    ∃ w flags', parseWidth flags ('*' :: rest) (slot :: args) =
      .ok (w, flags', '*' :: rest, args) := by
  have hdigit : isDigit '*' = false := by decide
  rw [parseWidth, deref, ok_bind, if_neg (by rw [hdigit]; decide), if_pos rfl, vaArg, ok_bind]
  by_cases hneg : i32 slot < 0
  · exact ⟨_, _, if_pos hneg⟩
  · exact ⟨_, _, if_neg hneg⟩

/-- A precision `*` stays in place. -/
theorem parseDigits_star (rest : List Char) (slot : ℕ) (args : List ℕ) :
    parseDigits ('*' :: rest) (slot :: args) = .ok (i32 slot, '*' :: rest, args) := by
  have hdigit : isDigit '*' = false := by decide
  simp [parseDigits, deref, hdigit, vaArg]

/-- The same part of the format is taken whatever the arguments are. -/
theorem parseDigits_takes (fmt : List Char) :
    ∃ fmt' n, Takes fmt fmt' n ∧ ∀ args p f args', parseDigits fmt args = .ok (p, f, args') →
      f = fmt' ∧ args.length = n + args'.length := by
  cases fmt with
  | nil => exact ⟨[], 0, Takes.refl [], fun args p f args' h => by cases h⟩
  | cons c fmt =>
    by_cases hdigit : isDigit c = true
    · cases hskip : skipAtoi (c :: fmt) 0 with
      | error e =>
        refine ⟨c :: fmt, 0, Takes.refl _, fun args p f args' h => ?_⟩
        simp [parseDigits, deref, hdigit, hskip, bind, Except.bind] at h
      | ok r =>
        obtain ⟨v, fmt'⟩ := r
        refine ⟨fmt', 0, skipAtoi_takes hskip, fun args p f args' h => ?_⟩
        simp only [parseDigits, deref, ok_bind, hdigit, if_true, hskip, pure_eq_ok] at h
        cases h
        exact ⟨rfl, (Nat.zero_add _).symm⟩
    · by_cases hstar : c = '*'
      · subst hstar
        refine ⟨'*' :: fmt, 1, takes_star fmt, fun args p f args' h => ?_⟩
        cases args with
        | nil => cases h
        | cons slot args =>
          rw [parseDigits_star] at h
          cases h
          exact ⟨rfl, by rw [List.length_cons, Nat.add_comm]⟩
      · refine ⟨c :: fmt, 0, Takes.refl _, fun args p f args' h => ?_⟩
        simp only [parseDigits, deref, ok_bind, hdigit, hstar, if_false, pure_eq_ok] at h
        cases h
        exact ⟨rfl, (Nat.zero_add _).symm⟩

/-- A field width takes what a precision takes. -/
theorem parseDigits_of_parseWidth {flags flags' : Flags} {fmt f : List Char} {args args' : List ℕ}
    {w : ℤ} (h : parseWidth flags fmt args = .ok (w, flags', f, args')) :
    ∃ p, parseDigits fmt args = .ok (p, f, args') := by
  unfold parseWidth at h
  unfold parseDigits
  obtain ⟨c, hc, h⟩ := bind_eq_ok_iff.mp h
  rw [hc, ok_bind]
  split_ifs at h with hdigit hstar
  · obtain ⟨⟨v, fmt'⟩, hskip, h⟩ := bind_eq_ok_iff.mp h
    refine ⟨v, ?_⟩
    rw [if_pos hdigit, hskip, ok_bind]
    cases h
    rfl
  · obtain ⟨⟨slot, rest⟩, harg, h⟩ := bind_eq_ok_iff.mp h
    refine ⟨i32 slot, ?_⟩
    rw [if_neg hdigit, if_pos hstar, harg, ok_bind]
    -- The sign of the argument only says how the field is adjusted.
    dsimp only at h
    split_ifs at h
    · cases h
      rfl
    · cases h
      rfl
  · cases h
    exact ⟨-1, by rw [if_neg hdigit, if_neg hstar, pure_eq_ok]⟩

theorem parseWidth_takes (fmt : List Char) :
    ∃ fmt' n, Takes fmt fmt' n ∧ ∀ flags args w flags' f args',
      parseWidth flags fmt args = .ok (w, flags', f, args') →
      f = fmt' ∧ args.length = n + args'.length := by
  obtain ⟨fmt', n, htakes, hdigits⟩ := parseDigits_takes fmt
  refine ⟨fmt', n, htakes, fun flags args w flags' f args' h => ?_⟩
  obtain ⟨p, hparse⟩ := parseDigits_of_parseWidth h
  exact hdigits args p f args' hparse

theorem parsePrecision_takes (fmt : List Char) :
    ∃ fmt' n, Takes fmt fmt' n ∧ ∀ args p f args', parsePrecision fmt args = .ok (p, f, args') →
      f = fmt' ∧ args.length = n + args'.length := by
  cases fmt with
  | nil => exact ⟨[], 0, Takes.refl [], fun args p f args' h => by cases h⟩
  | cons c fmt =>
    by_cases hdot : c = '.'
    · obtain ⟨fmt', n, htakes, hdigits⟩ := parseDigits_takes fmt
      refine ⟨fmt', n, ?_, fun args p f args' h => ?_⟩
      · rw [hdot]
        exact htakes.cons (by decide) (by decide)
      · simp only [parsePrecision, deref, ok_bind, hdot, if_true, List.tail_cons] at h
        obtain ⟨⟨p₁, f₁, args₁⟩, hparse, h⟩ := bind_eq_ok_iff.mp h
        cases h
        exact hdigits _ _ _ _ hparse
    · refine ⟨c :: fmt, 0, Takes.refl _, fun args p f args' h => ?_⟩
      simp only [parsePrecision, deref, ok_bind, hdot, if_false, pure_eq_ok] at h
      cases h
      exact ⟨rfl, (Nat.zero_add _).symm⟩

theorem parseQualifier_takes {fmt fmt' : List Char} {q : Option Char}
    (h : parseQualifier fmt = .ok (q, fmt')) : Takes fmt fmt' 0 := by
  cases fmt with
  | nil => cases h
  | cons c fmt =>
    simp only [parseQualifier, deref, ok_bind] at h
    split at h
    · rename_i hc
      cases h
      refine (Takes.refl fmt).cons ⟨?_, ?_⟩ ?_ <;>
      · rintro rfl
        revert hc
        decide
    · cases h
      exact Takes.refl _

/-- The part of a directive in front of its conversion character takes the same characters and the
same number of arguments, whatever the arguments are. -/
theorem parseSpec_takes (fmt : List Char) :
    ∃ fmt' n, Takes fmt fmt' n ∧ ∀ args spec f args', parseSpec fmt args = .ok (spec, f, args') →
      f = fmt' ∧ args.length = n + args'.length := by
  cases hflags : parseFlags fmt Flags.none with
  | error e =>
    refine ⟨fmt, 0, Takes.refl _, fun args spec f args' h => ?_⟩
    simp [parseSpec, hflags, bind, Except.bind] at h
  | ok r =>
    obtain ⟨flags, fmt₁⟩ := r
    obtain ⟨fmt₂, n, htakes₂, hwidth⟩ := parseWidth_takes fmt₁
    obtain ⟨fmt₃, m, htakes₃, hprecision⟩ := parsePrecision_takes fmt₂
    have hhead : Takes fmt fmt₃ (n + m) := by
      have h := ((parseFlags_takes hflags).trans htakes₂).trans htakes₃
      rwa [Nat.zero_add] at h
    have hrun : ∀ args spec f args', parseSpec fmt args = .ok (spec, f, args') →
        (∃ q, parseQualifier fmt₃ = .ok (q, f)) ∧ args.length = n + m + args'.length := by
      intro args spec f args' h
      simp only [parseSpec, hflags, ok_bind] at h
      obtain ⟨⟨w, flags₂, f₂, args₂⟩, h₂, h⟩ := bind_eq_ok_iff.mp h
      obtain ⟨⟨p, f₃, args₃⟩, h₃, h⟩ := bind_eq_ok_iff.mp h
      obtain ⟨⟨q, f₄⟩, h₄, h⟩ := bind_eq_ok_iff.mp h
      cases h
      obtain ⟨rfl, hlen₂⟩ := hwidth _ _ _ _ _ _ h₂
      obtain ⟨rfl, hlen₃⟩ := hprecision _ _ _ _ h₃
      refine ⟨⟨q, h₄⟩, ?_⟩
      dsimp only at hlen₃ ⊢
      omega
    cases hqualifier : parseQualifier fmt₃ with
    | error e =>
      refine ⟨fmt₃, n + m, hhead, fun args spec f args' h => ?_⟩
      obtain ⟨⟨q, hq⟩, -⟩ := hrun _ _ _ _ h
      rw [hqualifier] at hq
      cases hq
    | ok r =>
      obtain ⟨q, fmt₄⟩ := r
      refine ⟨fmt₄, n + m, hhead.trans (parseQualifier_takes hqualifier),
        fun args spec f args' h => ?_⟩
      obtain ⟨⟨q', hq⟩, hlen⟩ := hrun _ _ _ _ h
      rw [hqualifier] at hq
      cases hq
      exact ⟨rfl, hlen⟩

end Parsing

section Runs

/-- A directive: it either prints a `%` first, or reads literal characters and takes one
argument. -/
theorem directive_takes (strs : ℕ → Option (List Char)) (fmt : List Char) :
    ∃ fmt' n, (∀ args out stores s, directive strs ⟨'%' :: fmt, args, out, stores⟩ = .ok s →
        s.fmt = fmt' ∧ args.length = n + s.args.length) ∧
      ((∀ args out stores s, directive strs ⟨'%' :: fmt, args, out, stores⟩ = .ok s →
        ∃ o, s.out = out ++ '%' :: o) ∨
        n = 1 ∧ ∃ body, fmt = body ++ fmt' ∧ ∀ c ∈ body, Plain c) := by
  obtain ⟨fmt₁, n, htakes, hspec⟩ := parseSpec_takes fmt
  have hrun : ∀ {args out stores s}, directive strs ⟨'%' :: fmt, args, out, stores⟩ = .ok s →
      ∃ spec args₁, args.length = n + args₁.length ∧
        convert strs spec ⟨fmt₁, args₁, out, stores⟩ = .ok s := by
    intro args out stores s h
    obtain ⟨⟨spec, f, args₁⟩, hparse, h⟩ := bind_eq_ok_iff.mp h
    obtain ⟨rfl, hlen⟩ := hspec _ _ _ _ hparse
    exact ⟨spec, args₁, hlen, h⟩
  cases fmt₁ with
  | nil =>
    have hnone : ∀ args out stores s, directive strs ⟨'%' :: fmt, args, out, stores⟩ ≠ .ok s := by
      intro args out stores s h
      obtain ⟨spec, args₁, -, hconvert⟩ := hrun h
      cases hconvert
    exact ⟨[], n, fun args out stores s h => absurd h (hnone args out stores s),
      Or.inl fun args out stores s h => absurd h (hnone args out stores s)⟩
  | cons c rest =>
    by_cases hc : c ∈ takers
    · -- the star is no conversion, so nothing was taken before
      have hn : n = 0 := by
        rcases htakes.star with hn | ⟨rest', hstar⟩
        · exact hn
        · rw [(List.cons.inj hstar).1] at hc
          exact absurd hc (by decide)
      refine ⟨rest, 1, fun args out stores s h => ?_, Or.inr ⟨rfl, ?_⟩⟩
      · obtain ⟨spec, args₁, hlen, hconvert⟩ := hrun h
        obtain ⟨slot, args', hargs, halike⟩ := convert_takes hc hconvert hconvert
        rw [halike.args.1, hlen, hargs, hn, List.length_cons]
        exact ⟨halike.fmt.1, by omega⟩
      · obtain ⟨body, hfmt, hbody⟩ := htakes.body
        refine ⟨body ++ [c], by rw [hfmt, List.append_assoc, List.singleton_append], ?_⟩
        intro c' hc'
        rcases List.mem_append.mp hc' with h | h
        · exact hbody c' h
        · rw [List.mem_singleton.mp h]
          exact plain_of_taker c hc
    · refine ⟨if c = nul then c :: rest else rest, n, fun args out stores s h => ?_,
        Or.inl fun args out stores s h => ?_⟩
      · obtain ⟨spec, args₁, hlen, hconvert⟩ := hrun h
        rw [convert_literal hc] at hconvert
        cases hconvert
        exact ⟨rfl, hlen⟩
      · obtain ⟨spec, args₁, hlen, hconvert⟩ := hrun h
        rw [convert_literal hc] at hconvert
        cases hconvert
        exact ⟨_, rfl⟩

/-- The number of arguments that are taken depends on the format alone. -/
theorem Formats.args_length {s₁ s₂ r₁ r₂ : Printer} (h₁ : Formats strs s₁ r₁)
    (h₂ : Formats strs s₂ r₂) (hfmt : s₁.fmt = s₂.fmt) :
    s₁.args.length + r₂.args.length = s₂.args.length + r₁.args.length := by
  induction h₁ generalizing s₂ with
  | nul =>
    obtain ⟨fmt₂, args₂, out₂, stores₂⟩ := s₂
    cases hfmt
    rw [h₂.at_nul]
    exact Nat.add_comm _ _
  | char hc _ ih =>
    obtain ⟨fmt₂, args₂, out₂, stores₂⟩ := s₂
    cases hfmt
    have hrest := ih (h₂.at_char hc) rfl
    exact hrest
  | @percent fmt args out stores s r hs _ ih =>
    obtain ⟨fmt₂, args₂, out₂, stores₂⟩ := s₂
    cases hfmt
    obtain ⟨s', hs', h₂⟩ := h₂.at_percent
    obtain ⟨fmt', n, htakes, -⟩ := directive_takes strs fmt
    obtain ⟨hfmt₁, hlen₁⟩ := htakes _ _ _ _ hs
    obtain ⟨hfmt₂, hlen₂⟩ := htakes _ _ _ _ hs'
    have hrest := ih h₂ (hfmt₁.trans hfmt₂.symm)
    dsimp only
    omega

/-- What a directive leaves and writes depends on the format and the arguments alone. -/
theorem directive_alike {fmt : List Char} {args : List ℕ} {out₁ out₂ : List Char}
    {stores₁ stores₂ : List (ℕ × ℤ)} {s₁ s₂ : Printer}
    (h₁ : directive strs ⟨fmt, args, out₁, stores₁⟩ = .ok s₁)
    (h₂ : directive strs ⟨fmt, args, out₂, stores₂⟩ = .ok s₂) :
    ∃ rest args', Alike rest args' out₁ out₂ s₁ s₂ := by
  obtain ⟨⟨spec, f, args₁⟩, hparse, h₁⟩ := bind_eq_ok_iff.mp h₁
  obtain ⟨⟨spec', f', args₁'⟩, hparse', h₂⟩ := bind_eq_ok_iff.mp h₂
  rw [hparse] at hparse'
  cases hparse'
  dsimp only at h₁ h₂
  cases f with
  | nil => cases h₁
  | cons c rest =>
    by_cases hc : c ∈ takers
    · obtain ⟨slot, args', -, halike⟩ := convert_takes hc h₁ h₂
      exact ⟨rest, args', halike⟩
    · rw [convert_literal hc] at h₁ h₂
      cases h₁
      cases h₂
      exact ⟨_, _, ⟨rfl, rfl⟩, ⟨rfl, rfl⟩, _, rfl, rfl⟩

/-- What a run writes depends on the format and the arguments alone. -/
theorem Formats.out_append {s₁ s₂ r₁ r₂ : Printer} (h₁ : Formats strs s₁ r₁)
    (h₂ : Formats strs s₂ r₂) (hfmt : s₁.fmt = s₂.fmt) (hargs : s₁.args = s₂.args) :
    ∃ o, r₁.out = s₁.out ++ o ∧ r₂.out = s₂.out ++ o := by
  induction h₁ generalizing s₂ with
  | nul =>
    obtain ⟨fmt₂, args₂, out₂, stores₂⟩ := s₂
    cases hfmt
    rw [h₂.at_nul]
    exact ⟨[], by simp⟩
  | @char c fmt args out stores r hc _ ih =>
    obtain ⟨fmt₂, args₂, out₂, stores₂⟩ := s₂
    cases hfmt
    obtain ⟨o, ho₁, ho₂⟩ := ih (h₂.at_char hc) rfl hargs
    exact ⟨c :: o, by rw [ho₁]; simp, by rw [ho₂]; simp⟩
  | @percent fmt args out stores s r hs _ ih =>
    obtain ⟨fmt₂, args₂, out₂, stores₂⟩ := s₂
    cases hfmt
    cases hargs
    obtain ⟨s', hs', h₂⟩ := h₂.at_percent
    obtain ⟨rest, args', halike⟩ := directive_alike hs hs'
    obtain ⟨o, ho₁, ho₂⟩ := halike.out
    obtain ⟨o', ho₁', ho₂'⟩ := ih h₂ (halike.fmt.1.trans halike.fmt.2.symm)
      (halike.args.1.trans halike.args.2.symm)
    exact ⟨o ++ o', by rw [ho₁', ho₁, List.append_assoc], by rw [ho₂', ho₂, List.append_assoc]⟩

/-- What was written stays in front. -/
theorem Formats.keeps_out {s r : Printer} (h : Formats strs s r) : ∃ o, r.out = s.out ++ o := by
  obtain ⟨o, ho, -⟩ := h.out_append h rfl rfl
  exact ⟨o, ho⟩

end Runs

end Smor.Printf
