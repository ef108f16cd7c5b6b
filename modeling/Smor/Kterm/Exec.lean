import Smor.Lib.Outcome
import Smor.Lib.Words
import Smor.Printf.Number

/-!
# Executing a command line

`kterm_exec` copies the line into `tmp` and splits it there: it overwrites the spaces in front of a
word with NULs, keeps the position of the word, and skips the word. The split ends at the NUL of the
line. Behind a line that ends in spaces it takes one more argument, the empty string at this NUL.
-/

namespace Smor.Kterm

open Smor.Lib Smor.Printf

/-- The size of `tmp` in `kterm_exec`. -/
def execTmpSize : ℕ := 64

/-- The size of `args` in `kterm_exec`. -/
def maxArgs : ℕ := 32

/-- The arrays of the terminal, for a store outside of them: `cmd_line` and `tmp` of `kterm_run`,
and `tmp` and `args` of `kterm_exec`. -/
inductive Overrun where
  | cmdLine
  | runTmp
  | execTmp
  | args
  deriving DecidableEq

/-- `strcpy` into an array of this size: the copy, with a place for its NUL. -/
def strcpy {ε : Type} (overrun : ε) (size : ℕ) (src : List Char) : Except ε (List Char) :=
  if src.length < size then .ok src else .error overrun

section Splitting

/-- `while (*p && *p == ' ') *p++ = 0`: what lies in front of `p`, and the string at `p`. -/
def blankSpaces : List Char → List Char → List Char × List Char
  | front, [] => (front, [])
  | front, c :: rest => if c = ' ' then blankSpaces (front ++ [nul]) rest else (front, c :: rest)

/-- `while (*p && *p != ' ') ++p`. -/
def skipWord : List Char → List Char → List Char × List Char
  | front, [] => (front, [])
  | front, c :: rest => if c ≠ ' ' then skipWord (front ++ [c]) rest else (front, c :: rest)

/-- The outer loop, with a bound on its rounds. An argument is a position in `tmp`. -/
def splitLoop : ℕ → List Char → List Char → List ℕ → Except Overrun (List Char × List ℕ)
  | 0, front, _, args => .ok (front, args)
  | rounds + 1, front, rest, args =>
    if rest = [] then .ok (front, args)
    else
      let (front, rest) := blankSpaces front rest
      if args.length < maxArgs then
        let args := args ++ [front.length]
        let (front, rest) := skipWord front rest
        splitLoop rounds front rest args
      else .error .args

/-- The string at a position of `tmp`. -/
def stringFrom (tmp : List Char) (p : ℕ) : List Char := (tmp.drop p).takeWhile (· ≠ nul)

/-- The argument vector that `kterm_exec` builds: the strings of `args[0 .. argc)`. Every round gets
past a character. -/
def ktermArgs (str : List Char) : Except Overrun (List (List Char)) := do
  let tmp ← strcpy .execTmp execTmpSize str
  let (tmp, args) ← splitLoop tmp.length [] tmp []
  return args.map (stringFrom tmp)

end Splitting

section Commands

/-- The functions of the commands. -/
inductive Command where
  | cpuShow
  | pmapShow
  | ioApicShow
  | ipiTest
  | impsShow
  | vmBootDump
  | vmPageDump
  | fbInfo
  deriving DecidableEq

/-- `commands`, after `kterm_start`. -/
def commands : List (List Char × Command) :=
  [("cpu".toList, .cpuShow), ("pmap".toList, .pmapShow), ("io_apic".toList, .ioApicShow),
    ("ipi".toList, .ipiTest), ("imps".toList, .impsShow), ("vm_boot".toList, .vmBootDump),
    ("vm_page".toList, .vmPageDump), ("fb_info".toList, .fbInfo)]

/-- The lines that a command other than `ipi` shows, given what the console got before it, and its
arguments. -/
abbrev Report := List Char → Command → List (List Char) → List (List Char)

/-- The options of `ipi`. -/
def ipiOptions : List (List Char) := ["-self".toList, "-bcast".toList, "-all".toList]

instance decidableMemIpiOptions (option : List Char) : Decidable (option ∈ ipiOptions) :=
  inferInstance

/-- What `ipi_test_cmd` prints. -/
def ipiTestCmd (argv : List (List Char)) : List Char :=
  match argv[1]? with
  | some option => if option ∈ ipiOptions then [] else "bad option".toList
  | none => "ipi [-self,-bcast,-all]".toList ++ ['\n']

/-- What a command prints. All but `ipi` print whole lines. -/
def Command.print (report : Report) (out : List Char) (argv : List (List Char)) :
    Command → List Char
  | .ipiTest => ipiTestCmd argv
  | cmd => (report out cmd argv).flatMap (· ++ ['\n'])

/-- The loop over `commands`. -/
def findCommand (name : List Char) : Option Command :=
  (commands.find? fun cmd => cmd.1 = name).map Prod.snd

/-- What the dispatch of `kterm_exec` prints for an argument vector. -/
def dispatch (report : Report) (out : List Char) (argv : List (List Char)) : List Char :=
  match argv.head?.bind findCommand with
  | some cmd => cmd.print report out argv
  | none => "unknown command".toList ++ ['\n']

/-- `kterm_exec`: what it prints. -/
def ktermExec (report : Report) (out : List Char) (str : List Char) :
    Except Overrun (List Char) := do
  let argv ← ktermArgs str
  return dispatch report out argv

end Commands

section Arguments

/-- The words of a line, and an empty string for spaces at its end. -/
def arguments (str : List Char) : List (List Char) :=
  words ' ' str ++ if str.getLast? = some ' ' then [[]] else []

theorem blankSpaces_eq (front rest : List Char) :
    ∃ k rest', rest = List.replicate k ' ' ++ rest' ∧ rest'.head? ≠ some ' ' ∧
      blankSpaces front rest = (front ++ List.replicate k nul, rest') := by
  induction rest generalizing front with
  | nil => exact ⟨0, [], rfl, by simp, by simp [blankSpaces]⟩
  | cons c rest ih =>
    by_cases hc : c = ' '
    · obtain ⟨k, rest', hrest, hhead, h⟩ := ih (front ++ [nul])
      refine ⟨k + 1, rest', ?_, hhead, ?_⟩
      · rw [hc, hrest, List.replicate_succ, List.cons_append]
      · rw [blankSpaces, if_pos hc, h, List.replicate_succ, List.append_assoc,
          List.singleton_append]
    · refine ⟨0, c :: rest, rfl, by simpa using hc, ?_⟩
      rw [blankSpaces, if_neg hc, List.replicate_zero, List.append_nil]

/-- What is left after a word: nothing, or something behind a space. -/
def AtSpace (rest : List Char) : Prop := rest = [] ∨ ∃ rest', rest = ' ' :: rest'

theorem skipWord_eq (front rest : List Char) :
    ∃ w rest', rest = w ++ rest' ∧ ' ' ∉ w ∧ AtSpace rest' ∧
      skipWord front rest = (front ++ w, rest') := by
  induction rest generalizing front with
  | nil => exact ⟨[], [], rfl, by simp, .inl rfl, by simp [skipWord]⟩
  | cons c rest ih =>
    by_cases hc : c = ' '
    · refine ⟨[], c :: rest, rfl, by simp, .inr ⟨rest, by rw [hc]⟩, ?_⟩
      rw [skipWord, if_neg (by simp [hc]), List.append_nil]
    · obtain ⟨w, rest', hrest, hw, hspace, h⟩ := ih (front ++ [c])
      refine ⟨c :: w, rest', ?_, ?_, hspace, ?_⟩
      · rw [hrest, List.cons_append]
      · simpa [eq_comm] using And.intro hc hw
      · rw [skipWord, if_pos hc, h, List.append_assoc, List.singleton_append]

theorem arguments_spaces {k : ℕ} (hk : k ≠ 0) : arguments (List.replicate k ' ') = [[]] := by
  have hwords : words ' ' (List.replicate k ' ' ++ []) = words ' ' [] :=
    words_replicate_append k []
  rw [List.append_nil, words_nil] at hwords
  simp [arguments, hwords, List.getLast?_replicate, hk]

theorem arguments_spaces_append (k : ℕ) {l : List Char} (hl : l ≠ []) :
    arguments (List.replicate k ' ' ++ l) = arguments l := by
  rw [arguments, words_replicate_append, List.getLast?_append_of_ne_nil _ hl, arguments]

theorem arguments_word_append {w rest : List Char} (hne : w ≠ []) (hw : ' ' ∉ w)
    (hrest : AtSpace rest) : arguments (w ++ rest) = w :: arguments rest := by
  rw [arguments, words_word_append hne hw hrest, arguments, List.cons_append]
  obtain rfl | ⟨rest', rfl⟩ := hrest
  · have hlast : w.getLast? ≠ some ' ' := fun h => hw (List.mem_of_getLast? h)
    simp [hlast]
  · rw [List.getLast?_append_of_ne_nil _ (List.cons_ne_nil ' ' rest')]

/-- One round takes one argument: a word, or the empty string behind the last spaces. -/
theorem arguments_round {k : ℕ} {w rest : List Char} (hw : ' ' ∉ w) (hrest : AtSpace rest)
    (hne : List.replicate k ' ' ++ (w ++ rest) ≠ []) (hhead : (w ++ rest).head? ≠ some ' ') :
    arguments (List.replicate k ' ' ++ (w ++ rest)) = w :: arguments rest := by
  by_cases hempty : w = []
  · subst hempty
    obtain rfl | ⟨rest', rfl⟩ := hrest
    · have hk : k ≠ 0 := by simpa using hne
      rw [List.append_nil, List.append_nil, arguments_spaces hk]
      rfl
    · exact absurd rfl hhead
  · rw [arguments_spaces_append k (by simp [hempty]), arguments_word_append hempty hw hrest]

/-- Fewer than 64 characters have at most 32 arguments. -/
theorem length_arguments_le (str : List Char) : 2 * (arguments str).length ≤ str.length + 2 := by
  by_cases hlast : str.getLast? = some ' '
  · obtain ⟨l, rfl⟩ := List.getLast?_eq_some_iff.mp hlast
    have hle : 2 * (words ' ' l).length ≤ l.length + 1 := length_words_le l
    have hwords : words ' ' (l ++ [' ']) = words ' ' l := by
      rw [words_append_sep, words_nil, List.append_nil]
    simp only [arguments, hlast, if_true, hwords, List.length_append, List.length_singleton]
    omega
  · have hle : 2 * (words ' ' str).length ≤ str.length + 1 := length_words_le str
    simp only [arguments, hlast, if_false, List.append_nil]
    omega

/-- The string of an argument ends at the next NUL, or where `tmp` does. -/
theorem stringFrom_word {front w t : List Char} (hw : nul ∉ w) (ht : t = [] ∨ ∃ t', t = nul :: t') :
    stringFrom (front ++ w ++ t) front.length = w := by
  have hplain : ∀ c ∈ w, decide (c ≠ nul) := fun c hc => by
    simpa using fun h : c = nul => hw (h ▸ hc)
  rw [stringFrom, List.append_assoc, List.drop_left, List.takeWhile_append_of_pos hplain]
  obtain rfl | ⟨t', rfl⟩ := ht <;> simp

/-- The arguments taken so far are `argv`, whatever the split does behind `front`. -/
def Taken (front : List Char) (args : List ℕ) (argv : List (List Char)) : Prop :=
  ∀ t, (t = [] ∨ ∃ t', t = nul :: t') → args.map (stringFrom (front ++ t)) = argv

/-- Spaces that became NULs separate a new argument from the ones before. -/
theorem Taken.snoc {front : List Char} {args : List ℕ} {argv : List (List Char)}
    (h : Taken front args argv) {k : ℕ} (hk : k ≠ 0 ∨ args = []) {w : List Char} (hw : nul ∉ w) :
    Taken (front ++ List.replicate k nul ++ w)
      (args ++ [(front ++ List.replicate k nul).length]) (argv ++ [w]) := by
  intro t ht
  have hold : args.map (stringFrom (front ++ List.replicate k nul ++ w ++ t)) = argv := by
    obtain hk | rfl := hk
    · obtain ⟨j, rfl⟩ := Nat.exists_eq_succ_of_ne_zero hk
      have hback := h (nul :: (List.replicate j nul ++ (w ++ t))) (.inr ⟨_, rfl⟩)
      simpa [List.replicate_succ] using hback
    · exact h [] (.inl rfl)
  rw [List.map_append, hold, List.map_singleton, stringFrom_word hw ht]

/-- The two inner loops of a round: `k` spaces, then a word, which is empty only at the end. -/
structure Round (front rest : List Char) (k : ℕ) (w rest' : List Char) : Prop where
  split : rest = List.replicate k ' ' ++ (w ++ rest')
  word : ' ' ∉ w
  space : AtSpace rest'
  head : (w ++ rest').head? ≠ some ' '
  blank : blankSpaces front rest = (front ++ List.replicate k nul, w ++ rest')
  skip : skipWord (front ++ List.replicate k nul) (w ++ rest') =
    (front ++ List.replicate k nul ++ w, rest')

theorem round_exists (front rest : List Char) : ∃ k w rest', Round front rest k w rest' := by
  obtain ⟨k, rest₁, hblank, hhead, hblankSpaces⟩ := blankSpaces_eq front rest
  obtain ⟨w, rest', hword, hw, hspace, hskipWord⟩ :=
    skipWord_eq (front ++ List.replicate k nul) rest₁
  subst hword
  exact ⟨k, w, rest', hblank, hw, hspace, hhead, hblankSpaces, hskipWord⟩

variable {front rest : List Char} {k : ℕ} {w rest' : List Char}

theorem Round.length (h : Round front rest k w rest') :
    rest.length = k + w.length + rest'.length := by
  rw [h.split, List.length_append, List.length_replicate, List.length_append, Nat.add_assoc]

/-- A rest that goes on with a space starts with spaces. -/
theorem Round.spaces_ne_zero (h : Round front rest k w rest') (hrest : rest ≠ [])
    (hspace : AtSpace rest) : k ≠ 0 := by
  rintro rfl
  have hsplit : rest = w ++ rest' := h.split
  obtain rfl | ⟨l, rfl⟩ := hspace
  · exact hrest rfl
  · exact h.head (by rw [← hsplit, List.head?_cons])

/-- A round gets past a character. -/
theorem Round.length_lt (h : Round front rest k w rest') (hrest : rest ≠ []) :
    rest'.length < rest.length := by
  have hlength := h.length
  by_contra hle
  have hw : w = [] := List.length_eq_zero_iff.mp (by omega)
  have hk : k = 0 := by omega
  have hsplit : rest = rest' := by rw [h.split, hw, hk]; rfl
  exact h.spaces_ne_zero hrest (hsplit ▸ h.space) hk

theorem Round.arguments_eq (h : Round front rest k w rest') (hrest : rest ≠ []) :
    arguments rest = w :: arguments rest' := by
  have hne := hrest
  rw [h.split] at hne ⊢
  exact arguments_round h.word h.space hne h.head

/-- The split takes the arguments of the rest, if `args` has room for them. -/
theorem splitLoop_arguments {rounds : ℕ} {front rest : List Char} {args : List ℕ}
    {argv : List (List Char)} (hrounds : rest.length ≤ rounds) (hnul : nul ∉ rest)
    (hspace : AtSpace rest ∨ args = []) (hroom : args.length + (arguments rest).length ≤ maxArgs)
    (htaken : Taken front args argv) :
    ∃ tmp args', splitLoop rounds front rest args = .ok (tmp, args') ∧
      args'.map (stringFrom tmp) = argv ++ arguments rest := by
  induction rounds generalizing front rest args argv with
  | zero =>
    have hrest : rest = [] := List.length_eq_zero_iff.mp (by omega)
    subst hrest
    refine ⟨front, args, rfl, ?_⟩
    simpa [arguments] using htaken [] (.inl rfl)
  | succ rounds ih =>
    by_cases hrest : rest = []
    · subst hrest
      refine ⟨front, args, by rw [splitLoop, if_pos rfl], ?_⟩
      simpa [arguments] using htaken [] (.inl rfl)
    · obtain ⟨k, w, rest', h⟩ := round_exists front rest
      have hlt := h.length_lt hrest
      have hk : k ≠ 0 ∨ args = [] := hspace.imp_left (h.spaces_ne_zero hrest)
      have hnul' : nul ∉ w ∧ nul ∉ rest' := by
        rw [h.split] at hnul
        simp only [List.mem_append, not_or] at hnul
        exact hnul.2
      rw [h.arguments_eq hrest, List.length_cons] at hroom
      have hroom' : (args ++ [(front ++ List.replicate k nul).length]).length +
          (arguments rest').length ≤ maxArgs := by
        rw [List.length_append, List.length_singleton]
        omega
      obtain ⟨tmp, args', hrun, hargv⟩ :=
        ih (by omega) hnul'.2 (.inl h.space) hroom' (htaken.snoc hk hnul'.1)
      refine ⟨tmp, args', ?_, ?_⟩
      · rw [splitLoop, if_neg hrest]
        simp only [h.blank, h.skip]
        rw [if_pos (by omega), hrun]
      · rw [hargv, h.arguments_eq hrest, List.append_assoc, List.singleton_append]

/-- A line with room in `tmp` is split into its arguments; `args` has room for them. -/
theorem ktermArgs_eq {str : List Char} (hnul : nul ∉ str) (hlen : str.length < execTmpSize) :
    ktermArgs str = .ok (arguments str) := by
  have hroom : ([] : List ℕ).length + (arguments str).length ≤ maxArgs := by
    have hle := length_arguments_le str
    rw [execTmpSize] at hlen
    rw [List.length_nil, maxArgs]
    omega
  have htaken : Taken [] [] [] := fun t _ => rfl
  obtain ⟨tmp, args, hrun, hargv⟩ :=
    splitLoop_arguments (Nat.le_refl str.length) hnul (.inr rfl) hroom htaken
  rw [ktermArgs, strcpy, if_pos hlen, ok_bind, hrun, ok_bind]
  simp only [hargv, List.nil_append, pure_eq_ok]

/-- The copy of a line that does not fit into `tmp` goes over its end. -/
theorem ktermArgs_overrun {str : List Char} (hlen : execTmpSize ≤ str.length) :
    ktermArgs str = .error .execTmp := by
  rw [ktermArgs, strcpy, if_neg (by omega)]
  rfl

/-- The argument vector is the list of the words of the line, unless the line ends in a space. -/
theorem ktermArgs_eq_words_iff {str : List Char} (hnul : nul ∉ str)
    (hlen : str.length < execTmpSize) :
    ktermArgs str = .ok (words ' ' str) ↔ str.getLast? ≠ some ' ' := by
  rw [ktermArgs_eq hnul hlen, arguments]
  by_cases hlast : str.getLast? = some ' ' <;> simp [hlast]

theorem ktermArgs_eq_words_iff_ipi :
    ktermArgs "  ipi   -all".toList = .ok (words ' ' "  ipi   -all".toList) :=
  (ktermArgs_eq_words_iff (by decide) (by decide)).mpr (by decide)

/-- A space behind `ipi` is an argument, and the command sees an option. -/
theorem ktermArgs_trailing_space :
    ktermArgs "ipi ".toList = .ok ["ipi".toList, []] ∧
      ktermArgs "ipi ".toList ≠ .ok (words ' ' "ipi ".toList) := by
  decide

end Arguments

end Smor.Kterm
