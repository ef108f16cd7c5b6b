import Smor.Kterm.Run
import Smor.Printf.Directives
import Mathlib.Data.List.DropRight

/-!
# What the screen shows

The output of the terminal is text on a screen line: a newline begins a new line, and `\b` erases
the last character. The line that is typed and the screen line are two copies of the same
text, changed in different orders: a backspace acts on the screen before the keys that wait in
`tmp` for their echo. They agree after every batch that has no backspace behind an ordinary key,
if the last command of the batch ended its line.
-/

namespace Smor.Kterm

open Smor.Lib Smor.Printf Smor.Kbd

section Lines

/-- What a character does to the line of text on a screen. -/
def screenChar (line : List Char) (ch : Char) : List Char :=
  if ch = '\n' then [] else if ch = backspace then line.dropLast else line ++ [ch]

/-- The screen line after some output. -/
def screenLine (out : List Char) : List Char := out.foldl screenChar []

/-- The characters 32 to 126. -/
def Printable (ch : Char) : Prop := 32 ≤ ch.toNat ∧ ch.toNat ≤ 126

/-- The keys that a line is typed with. -/
def LineKey (ch : Char) : Prop := Printable ch ∨ ch = backspace ∨ ch = '\r'

instance (ch : Char) : Decidable (Printable ch) := inferInstanceAs (Decidable (_ ∧ _))

instance (ch : Char) : Decidable (LineKey ch) := inferInstanceAs (Decidable (_ ∨ _ ∨ _))

theorem Printable.ne {ch : Char} (h : Printable ch) :
    ch ≠ nul ∧ ch ≠ '\n' ∧ ch ≠ '\r' ∧ ch ≠ backspace := by
  have hlow := h.1
  refine ⟨?_, ?_, ?_, ?_⟩ <;> rintro rfl <;> exact absurd hlow (by decide)

theorem screenLine_append (out out' : List Char) :
    screenLine (out ++ out') = out'.foldl screenChar (screenLine out) := by
  rw [screenLine, List.foldl_append, screenLine]

theorem screenLine_newline (out : List Char) : screenLine (out ++ ['\n']) = [] := by
  rw [screenLine_append]
  rfl

/-- Printable text goes to the end of the line. -/
theorem foldl_screenChar_printable {text : List Char} (htext : ∀ ch ∈ text, Printable ch)
    (line : List Char) : text.foldl screenChar line = line ++ text := by
  induction text generalizing line with
  | nil => rw [List.foldl_nil, List.append_nil]
  | cons ch text ih =>
    obtain ⟨-, hnewline, -, hback⟩ := (htext ch List.mem_cons_self).ne
    rw [List.foldl_cons, screenChar, if_neg hnewline, if_neg hback,
      ih fun c hc => htext c (List.mem_cons_of_mem ch hc), List.append_assoc,
      List.singleton_append]

/-- A string of printable characters is printed to its end. -/
theorem takeWhile_printable {text : List Char} (htext : ∀ ch ∈ text, Printable ch) :
    text.takeWhile (· ≠ nul) = text :=
  List.takeWhile_eq_self_iff.mpr fun ch hch => by simpa using (htext ch hch).ne.1

end Lines

section Replies

/-- `ipi` with an option that it does not know: the only reply without a newline at its end. -/
def BadOption (argv : List (List Char)) : Prop :=
  argv.head? = some "ipi".toList ∧ argv[1]?.any (· ∉ ipiOptions) = true

instance (argv : List (List Char)) : Decidable (BadOption argv) :=
  inferInstanceAs (Decidable (_ ∧ _))

/-- Nothing, or whole lines. -/
def WholeLines (text : List Char) : Prop := text = [] ∨ ∃ lines, text = lines ++ ['\n']

theorem wholeLines_flatMap (lines : List (List Char)) :
    WholeLines (lines.flatMap (· ++ ['\n'])) := by
  cases lines using List.reverseRecOn with
  | nil => exact .inl rfl
  | append_singleton lines line =>
    refine .inr ⟨lines.flatMap (· ++ ['\n']) ++ line, ?_⟩
    rw [List.flatMap_append, List.flatMap_singleton, List.append_assoc]

theorem ipiTestCmd_wholeLines {argv : List (List Char)}
    (h : argv[1]?.any (· ∉ ipiOptions) = false) : WholeLines (ipiTestCmd argv) := by
  unfold ipiTestCmd
  split
  case h_1 option hoption =>
    have hmem : option ∈ ipiOptions := by simpa [hoption] using h
    rw [if_pos hmem]
    exact .inl rfl
  case h_2 => exact .inr ⟨_, rfl⟩

/-- Only `ipi` is found under its name. -/
theorem name_eq_ipi {name : List Char} (h : findCommand name = some .ipiTest) :
    name = "ipi".toList := by
  obtain ⟨cmd, hfind, hcmd⟩ := Option.map_eq_some_iff.mp h
  have hname : cmd.1 = name := by simpa using List.find?_some hfind
  have hmem := List.mem_of_find?_eq_some hfind
  have hall : ∀ cmd ∈ commands, cmd.2 = .ipiTest → cmd.1 = "ipi".toList := by decide
  rw [← hname]
  exact hall cmd hmem hcmd

/-- Every other reply is whole lines. -/
theorem dispatch_wholeLines (report : Report) (out : List Char) {argv : List (List Char)}
    (h : ¬ BadOption argv) : WholeLines (dispatch report out argv) := by
  unfold dispatch
  split
  case h_2 => exact .inr ⟨_, rfl⟩
  case h_1 cmd hcmd =>
    cases cmd with
    | ipiTest =>
      obtain ⟨name, hhead, hname⟩ := Option.bind_eq_some_iff.mp hcmd
      have hipi : argv.head? = some "ipi".toList := by rw [hhead, name_eq_ipi hname]
      exact ipiTestCmd_wholeLines (by simpa using fun hany => h ⟨hipi, hany⟩)
    | _ => exact wholeLines_flatMap _

end Replies

section Shows

variable {report : Report} {s : Session}

/-- The screen line of a session is `text` and the cursor. -/
def Session.Shows (s : Session) (text : List Char) : Prop := screenLine s.out = text ++ ['_']

/-- The screen line of a session in step with its line. -/
def Session.InStep (s : Session) : Prop := s.Shows (['#', ' '] ++ s.line)

/-- What was typed is printable. -/
structure Session.Plain (s : Session) : Prop where
  line : ∀ ch ∈ s.line, Printable ch
  tmp : ∀ ch ∈ s.tmp, Printable ch

theorem Session.Plain.key (hs : s.Plain) {ch : Char} (hch : LineKey ch) :
    (s.key report ch).Plain := by
  unfold Session.key
  split
  case isTrue => exact ⟨by simp, by simp⟩
  case isFalse hret =>
    split
    case isTrue =>
      split
      · exact hs
      · exact ⟨fun c hc => hs.line c (List.mem_of_mem_dropLast hc), hs.tmp⟩
    case isFalse hback =>
      have hprintable : Printable ch := by
        obtain h | h | h := hch
        · exact h
        · exact absurd h hback
        · exact absurd h hret
      refine ⟨fun c hc => ?_, fun c hc => ?_⟩
      · obtain h | h := List.mem_append.mp hc
        · exact hs.line c h
        · exact List.mem_singleton.mp h ▸ hprintable
      · obtain h | h := List.mem_append.mp hc
        · exact hs.tmp c h
        · exact List.mem_singleton.mp h ▸ hprintable

theorem Session.Plain.keys (hs : s.Plain) {keys : List Char} (hkeys : ∀ ch ∈ keys, LineKey ch) :
    (keys.foldl (Session.key report) s).Plain := by
  induction keys generalizing s with
  | nil => exact hs
  | cons ch keys ih =>
    exact ih (hs.key (hkeys ch List.mem_cons_self)) fun c hc =>
      hkeys c (List.mem_cons_of_mem ch hc)

/-- A return puts the prompt on a fresh line, if the reply is whole lines. -/
theorem Session.key_return_inStep
    (hreply : WholeLines (reply report (s.out ++ [backspace, '\n']) s.line)) :
    (s.key report '\r').InStep ∧ (s.key report '\r').tmp = [] := by
  rw [key, if_pos rfl]
  refine ⟨?_, rfl⟩
  have hfresh : screenLine (s.out ++ [backspace, '\n'] ++
      reply report (s.out ++ [backspace, '\n']) s.line) = [] := by
    obtain h | ⟨lines, h⟩ := hreply
    · rw [h, List.append_nil, ← List.singleton_append, ← List.append_assoc, screenLine_newline]
    · rw [h, ← List.append_assoc, screenLine_newline]
  have hprompt : ∀ ch ∈ prompt, Printable ch := forall_mem_of_all (by decide)
  rw [InStep, Shows, screenLine_append, hfresh, foldl_screenChar_printable hprompt]
  rfl

/-- A backspace takes the last character from the line and from the screen. -/
theorem Session.InStep.key_backspace (hs : s.InStep) :
    (s.key report backspace).InStep ∧ (s.key report backspace).tmp = s.tmp := by
  rw [key, if_neg (by decide), if_pos rfl]
  split
  case isTrue => exact ⟨hs, rfl⟩
  case isFalse hline =>
    refine ⟨?_, rfl⟩
    have hs' : screenLine s.out = ['#', ' '] ++ s.line ++ ['_'] := hs
    have hcursor (text : List Char) : [backspace, backspace, '_'].foldl screenChar (text ++ ['_']) =
        text.dropLast ++ ['_'] := by
      simp [screenChar, backspace]
    rw [InStep, Shows, screenLine_append, hs', hcursor, List.dropLast_append_of_ne_nil hline]

/-- The backspaces at the front of a batch. -/
theorem Session.InStep.backspaces (hs : s.InStep) {keys : List Char}
    (hkeys : ∀ ch ∈ keys, ch = backspace) :
    (keys.foldl (Session.key report) s).InStep ∧
      (keys.foldl (Session.key report) s).tmp = s.tmp := by
  induction keys generalizing s with
  | nil => exact ⟨hs, rfl⟩
  | cons ch keys ih =>
    obtain rfl := hkeys ch List.mem_cons_self
    obtain ⟨hstep, htmp⟩ : (s.key report backspace).InStep ∧ _ := hs.key_backspace
    obtain ⟨hrest, htmp'⟩ := ih hstep fun c hc => hkeys c (List.mem_cons_of_mem _ hc)
    exact ⟨hrest, htmp'.trans htmp⟩

/-- Ordinary keys go to the line and to `tmp`. -/
theorem Session.ordinaries (s : Session) {keys : List Char}
    (hkeys : ∀ ch ∈ keys, ch ≠ '\r' ∧ ch ≠ backspace) :
    keys.foldl (Session.key report) s =
      { s with line := s.line ++ keys, tmp := s.tmp ++ keys } := by
  induction keys generalizing s with
  | nil => simp
  | cons ch keys ih =>
    obtain ⟨hret, hback⟩ := hkeys ch List.mem_cons_self
    rw [List.foldl_cons, key, if_neg hret, if_neg hback,
      ih _ fun c hc => hkeys c (List.mem_cons_of_mem ch hc)]
    simp

theorem Session.echo_line (s : Session) : s.echo.line = s.line := by
  unfold echo
  split <;> rfl

/-- The echo makes up for the keys in `tmp`. -/
theorem Session.Shows.echo {text : List Char} (hs : s.Shows text)
    (htmp : ∀ ch ∈ s.tmp, Printable ch) : s.echo.Shows (text ++ s.tmp) := by
  unfold Session.echo
  split
  case isTrue hempty => rwa [hempty, List.append_nil]
  case isFalse =>
    have hs' : screenLine s.out = text ++ ['_'] := hs
    have hecho : ∀ ch ∈ s.tmp ++ ['_'], Printable ch := by
      intro ch hch
      obtain h | h := List.mem_append.mp hch
      · exact htmp ch h
      · exact List.mem_singleton.mp h ▸ by decide
    have hcursor : screenChar (text ++ ['_']) backspace = text := by
      simp [screenChar, backspace]
    rw [Shows, screenLine_append, hs', echoText, takeWhile_printable htmp, List.cons_append,
      List.foldl_cons, hcursor, foldl_screenChar_printable hecho, List.append_assoc]

end Shows

section Batches

variable (report : Report) {s : Session}

/-- The keys of a batch behind its last return. -/
def lastKeys (buf : List Char) : List Char := buf.rtakeWhile (· ≠ '\r')

/-- The keys of a batch before its last return. -/
def keysBeforeReturn (buf : List Char) : List Char := (buf.rdropWhile (· ≠ '\r')).dropLast

/-- A batch that the echo at its end suits, on a line: behind its last return, no backspace
comes after an ordinary key, and the line of that return is not `ipi` with a bad option. -/
structure EchoInOrder (line buf : List Char) : Prop where
  keys : backspace ∉ (lastKeys buf).dropWhile (· = backspace)
  reply : '\r' ∈ buf → ¬ BadOption (arguments ((keysBeforeReturn buf).foldl editLine line))

/-- Each batch of a run suits the echo, on the line that the batches before it leave. -/
def EchoesInOrder : List Char → List (List Char) → Prop
  | _, [] => True
  | line, buf :: batches =>
    EchoInOrder line buf ∧ EchoesInOrder (buf.foldl editLine line) batches

theorem echoInOrder_iff {line buf : List Char} :
    EchoInOrder line buf ↔ backspace ∉ (lastKeys buf).dropWhile (· = backspace) ∧
      ('\r' ∈ buf → ¬ BadOption (arguments ((keysBeforeReturn buf).foldl editLine line))) :=
  ⟨fun h => ⟨h.keys, h.reply⟩, fun h => ⟨h.1, h.2⟩⟩

instance (line buf : List Char) : Decidable (EchoInOrder line buf) :=
  decidable_of_iff' _ echoInOrder_iff

instance decidableEchoesInOrder : (line : List Char) → (batches : List (List Char)) →
    Decidable (EchoesInOrder line batches)
  | _, [] => .isTrue trivial
  | line, buf :: batches =>
    @instDecidableAnd _ _ _ (decidableEchoesInOrder (buf.foldl editLine line) batches)

theorem eq_keysBeforeReturn {buf : List Char} (h : '\r' ∈ buf) :
    buf = keysBeforeReturn buf ++ '\r' :: lastKeys buf := by
  have hne : buf.rdropWhile (· ≠ '\r') ≠ [] := by
    intro hnil
    simpa using List.rdropWhile_eq_nil_iff.mp hnil _ h
  have hlast : (buf.rdropWhile (· ≠ '\r')).getLast hne = '\r' := by
    simpa using List.rdropWhile_last_not _ _ hne
  have hsplit := List.dropLast_append_getLast hne
  rw [hlast] at hsplit
  have hparts : buf.rdropWhile (· ≠ '\r') ++ buf.rtakeWhile (· ≠ '\r') = buf :=
    List.rdropWhile_append_rtakeWhile
  rw [← hsplit, List.append_assoc, List.singleton_append] at hparts
  exact hparts.symm

theorem lastKeys_eq_self {buf : List Char} (h : '\r' ∉ buf) : lastKeys buf = buf :=
  List.rtakeWhile_eq_self_iff.mpr fun ch hch => by
    simpa using fun hret : ch = '\r' => h (hret ▸ hch)

theorem return_not_mem_lastKeys (buf : List Char) : '\r' ∉ lastKeys buf := by
  intro h
  simpa using List.mem_rtakeWhile_imp h

/-- Ordinary keys are in step again after their echo. -/
theorem Session.InStep.ordinaries (hs : s.InStep) (htmp : s.tmp = []) {keys : List Char}
    (hkeys : ∀ ch ∈ keys, Printable ch) : (keys.foldl (Session.key report) s).echo.InStep := by
  have hordinary : ∀ ch ∈ keys, ch ≠ '\r' ∧ ch ≠ backspace := fun ch hch =>
    (hkeys ch hch).ne.2.2
  rw [Session.ordinaries s hordinary, htmp, List.nil_append]
  have hshows : Session.Shows { s with line := s.line ++ keys, tmp := keys }
      (['#', ' '] ++ s.line) := hs
  have hecho := hshows.echo hkeys
  rw [List.append_assoc] at hecho
  rw [InStep, Session.echo_line]
  exact hecho

/-- Keys with their backspaces at the front keep the session in step. -/
theorem Session.InStep.keys (hs : s.InStep) (htmp : s.tmp = []) {keys : List Char}
    (hkeys : ∀ ch ∈ keys, LineKey ch) (hreturn : '\r' ∉ keys)
    (hback : backspace ∉ keys.dropWhile (· = backspace)) :
    (keys.foldl (Session.key report) s).echo.InStep := by
  have hfront : ∀ ch ∈ keys.takeWhile (· = backspace), ch = backspace := fun ch hch => by
    simpa using List.mem_takeWhile_imp hch
  have hrest : ∀ ch ∈ keys.dropWhile (· = backspace), Printable ch := by
    intro ch hch
    have hmem := (List.dropWhile_suffix _).mem hch
    obtain h | h | h := hkeys ch hmem
    · exact h
    · exact absurd (h ▸ hch) hback
    · exact absurd (h ▸ hmem) hreturn
  obtain ⟨hstep, htmp'⟩ :
      ((keys.takeWhile (· = backspace)).foldl (Session.key report) s).InStep ∧ _ :=
    hs.backspaces hfront
  have hsplit : keys.takeWhile (· = backspace) ++ keys.dropWhile (· = backspace) = keys :=
    List.takeWhile_append_dropWhile
  rw [← hsplit, List.foldl_append]
  exact hstep.ordinaries report (htmp'.trans htmp) hrest

/-- A return whose line is not `ipi` with a bad option puts the session in step. -/
theorem Session.Plain.key_return (hs : s.Plain) (hreply : ¬ BadOption (arguments s.line)) :
    (s.key report '\r').InStep ∧ (s.key report '\r').tmp = [] := by
  apply Session.key_return_inStep
  unfold reply
  split
  · exact .inl rfl
  · rw [takeWhile_printable hs.line]
    exact dispatch_wholeLines report _ hreply

/-- A batch that suits the echo keeps the session in step. -/
theorem Session.InStep.batch (hs : s.InStep) (htmp : s.tmp = []) (hplain : s.Plain)
    {buf : List Char} (hkeys : ∀ ch ∈ buf, LineKey ch) (horder : EchoInOrder s.line buf) :
    (s.batch report buf).InStep := by
  rw [Session.batch]
  have hback := horder.keys
  by_cases hreturn : '\r' ∈ buf
  · have hsplit := eq_keysBeforeReturn hreturn
    have hreply := horder.reply hreturn
    rw [hsplit] at hkeys
    have hbefore : ∀ ch ∈ keysBeforeReturn buf, LineKey ch := fun ch hch =>
      hkeys ch (List.mem_append_left _ hch)
    have hbehind : ∀ ch ∈ lastKeys buf, LineKey ch := fun ch hch =>
      hkeys ch (List.mem_append_right _ (List.mem_cons_of_mem _ hch))
    rw [← Session.keys_line report] at hreply
    have hstep := (hplain.keys hbefore).key_return report hreply
    rw [hsplit, List.foldl_append, List.foldl_cons]
    exact hstep.1.keys report hstep.2 hbehind (return_not_mem_lastKeys buf) hback
  · rw [lastKeys_eq_self hreturn] at hback
    exact hs.keys report htmp hkeys hreturn hback

/-- Nothing waits for its echo between two batches. -/
theorem Session.batch_tmp (s : Session) (buf : List Char) :
    (s.batch report buf).tmp = [] := by
  rw [batch, echo]
  split
  case isTrue h => exact h
  case isFalse => rfl

theorem Session.Plain.batch (hs : s.Plain) {buf : List Char} (hkeys : ∀ ch ∈ buf, LineKey ch) :
    (s.batch report buf).Plain := by
  refine ⟨?_, by simp [Session.batch_tmp]⟩
  rw [Session.batch, Session.echo_line]
  exact (hs.keys hkeys).line

/-- A run whose batches suit the echo keeps the session in step. -/
theorem Session.InStep.run (hs : s.InStep) (htmp : s.tmp = []) (hplain : s.Plain)
    {batches : List (List Char)} (hkeys : ∀ ch ∈ batches.flatten, LineKey ch)
    (horder : EchoesInOrder s.line batches) : (batches.foldl (Session.batch report) s).InStep := by
  induction batches generalizing s with
  | nil => exact hs
  | cons buf batches ih =>
    obtain ⟨hbuf, hrest⟩ := horder
    have hfirst : ∀ ch ∈ buf, LineKey ch := fun ch hch =>
      hkeys ch (List.mem_append_left _ hch)
    rw [← Session.batch_line report] at hrest
    exact ih (hs.batch report htmp hplain hfirst hbuf) (Session.batch_tmp report s buf)
      (hplain.batch report hfirst) (fun ch hch => hkeys ch (List.mem_append_right _ hch)) hrest

end Batches

section Runs

/-- The line has fewer than 64 characters after every key. -/
def ShortLines : List Char → List Char → Prop
  | _, [] => True
  | line, ch :: keys =>
    (editLine line ch).length < execTmpSize ∧ ShortLines (editLine line ch) keys

instance decidableShortLines : (line keys : List Char) → Decidable (ShortLines line keys)
  | _, [] => .isTrue trivial
  | line, ch :: keys => @instDecidableAnd _ _ _ (decidableShortLines (editLine line ch) keys)

theorem keyFits_of_short {line : List Char} (h : line.length < execTmpSize) (ch : Char) :
    KeyFits line ch := by
  have hroom : line.length < maxCmdLine := h.trans (by decide)
  unfold KeyFits
  split
  · exact fun _ => ⟨hroom, (List.takeWhile_prefix _).length_le.trans_lt h⟩
  · exact .inr hroom

theorem ShortLines.keysFit {line keys : List Char} (h : ShortLines line keys)
    (hline : line.length < execTmpSize) : KeysFit line keys := by
  induction keys generalizing line with
  | nil => trivial
  | cons ch keys ih => exact ⟨keyFits_of_short hline ch, ih h.2 h.1⟩

theorem Session.start_inStep : (Terminal.start.view []).InStep := by
  rw [InStep, Shows]
  decide

theorem Session.start_plain : (Terminal.start.view []).Plain := ⟨nofun, nofun⟩

/-- The screen line is the prompt, the line that is typed and the cursor after every batch of a run
whose batches suit the echo: behind the last return of a batch, no backspace comes after an
ordinary key, and the last line that it executes is not `ipi` with a bad option. -/
theorem ktermRun_screen (report : Report) {batches : List (List Char)}
    (hsize : ∀ buf ∈ batches, buf.length < maxTempBuf)
    (hkeys : ∀ ch ∈ batches.flatten, LineKey ch) (hshort : ShortLines [] batches.flatten)
    (horder : EchoesInOrder [] batches) :
    ∃ t, ktermRun report batches = .ok t ∧ screenLine t.out = ['#', ' '] ++ t.line ++ ['_'] := by
  obtain ⟨t, hrun, hview⟩ := ktermRun_follows report hsize (hshort.keysFit (by decide))
  have hstep : (Session.run report batches).InStep :=
    Session.start_inStep.run report rfl Session.start_plain hkeys horder
  rw [← hview] at hstep
  exact ⟨t, hrun, hstep⟩

theorem ktermRun_screen_unknown :
    ∃ t, ktermRun silent [['a', 'b'], [backspace, 'c', '\r', 'i', 'p'], ['i']] = .ok t ∧
      screenLine t.out = ['#', ' '] ++ t.line ++ ['_'] :=
  ktermRun_screen silent (by decide) (forall_mem_of_all (by decide)) (by decide) (by decide)

/-- A backspace behind a key of its batch takes another character from the screen. -/
theorem ktermRun_late_echo :
    ∃ t, ktermRun silent [['a', 'b'], ['x', backspace]] = .ok t ∧ t.line = ['a', 'b'] ∧
      screenLine t.out = ['#', ' ', 'a', 'x', '_'] :=
  ⟨_, rfl, by decide, by decide⟩

end Runs

end Smor.Kterm
