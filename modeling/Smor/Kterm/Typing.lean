import Smor.Kbd.Decoding
import Smor.Kterm.Run

/-!
# From the keys to the commands

The thread of the terminal is the reader of the keyboard. It copies the key codes, translates them
one by one, and handles the characters one by one, and between any two of its steps the interrupt
may store another key. What is executed depends on the scan codes alone: once the thread
comes to rest, it has executed the lines that the keys spell, in their order, and it keeps the
keys behind the last return on its line.
-/

namespace Smor.Kterm

open Smor.Lib Smor.Printf Smor.Kbd

/-- The `char` that `kbd_read` stores for a translated key. -/
def keyChar (code : ℕ) : Char := Char.ofNat code

/-- The echo of `kterm_run`, at the end of a batch. -/
def Terminal.echo (t : Terminal) (tmp : List Char) : Except Overrun Terminal :=
  if tmp = [] then return t
  else do
    let _ ← storeTmp tmp nul
    return { t with out := t.out ++ echoText tmp }

/-- The argument vector that a key makes `kterm_exec` look up. -/
def Terminal.argv (t : Terminal) (ch : Char) : Option (List (List Char)) :=
  if ch = '\r' ∧ 0 < t.cmdPos then do
    let cmdLine ← (storeCmd t.cmdLine t.cmdPos nul).toOption
    (ktermArgs (cmdString cmdLine)).toOption
  else none

/-- Where the thread of the terminal is: in front of the copy of `kbd_read`, behind it, in the loop
over the batch with the keys that are left, or behind the end of an array. -/
inductive TermPhase where
  | waiting
  | reading
  | handling (rest : List Char)
  | overrun (e : Overrun)

/-- The keyboard, the locals of `kterm_run`, and the argument vectors that were looked up. -/
structure TypingRun where
  reader : ReaderRun
  term : Terminal
  tmp : List Char
  phase : TermPhase
  executed : List (List (List Char))

/-- The terminal in front of its loop. -/
def TypingRun.start : TypingRun := ⟨.start, .start, [], .waiting, []⟩

/-- A scan code arrives, or the thread of the terminal goes on. -/
inductive TypingOp where
  | irq (code : ℕ)
  | go
  deriving DecidableEq

section Steps

variable (behind : Bool → ℕ → ℕ) (report : Report)

/-- The next step of the thread. -/
def TypingRun.go (s : TypingRun) : Option TypingRun :=
  match s.phase with
  | .waiting => (s.reader.step behind .read).map fun reader =>
      { s with
        reader := reader
        phase := .reading }
  | .reading =>
    match s.reader.step behind (.decode (s.reader.reads.length - 1)) with
    | some reader => some { s with reader := reader }
    | none => s.reader.reads.getLast?.map fun r =>
        { s with
          tmp := []
          phase := .handling (r.chars.map keyChar) }
  | .handling (ch :: rest) =>
    match s.term.key report s.tmp ch with
    | .ok (term, tmp) => some
        { s with
          term := term
          tmp := tmp
          phase := .handling rest
          executed := s.executed ++ (s.term.argv ch).toList }
    | .error e => some { s with phase := .overrun e }
  | .handling [] =>
    match s.term.echo s.tmp with
    | .ok term => some
        { s with
          term := term
          phase := .waiting }
    | .error e => some { s with phase := .overrun e }
  | .overrun _ => none

/-- One step. -/
def TypingRun.step (s : TypingRun) : TypingOp → Option TypingRun
  | .irq code => (s.reader.step behind (.irq code)).map fun reader => { s with reader := reader }
  | .go => s.go behind report

/-- A number of steps of the thread, without any interrupt. -/
def TypingRun.goes : ℕ → TypingRun → Option TypingRun
  | 0, s => some s
  | n + 1, s => (s.go behind report).bind (goes n)

/-- The scan codes are as `SettledCall` asks for. -/
def TypingRun.Settled (s : TypingRun) : TypingOp → Prop
  | .irq code => SettledCall s.reader (.irq code)
  | .go => True

instance (s : TypingRun) (op : TypingOp) : Decidable (s.Settled op) :=
  match op with
  | .irq _ => inferInstanceAs (Decidable (SettledCall _ _))
  | .go => inferInstanceAs (Decidable True)

/-- The characters that the scan codes stand for. -/
def TypingRun.text (s : TypingRun) : List Char :=
  (typed behind (scans s.reader.buffer.past)).map keyChar

/-- The thread waits for the next key, and there is none. -/
def TypingRun.AtRest (s : TypingRun) : Prop :=
  s.phase = .waiting ∧ waiting s.reader.buffer.past = []

end Steps

section Lines

/-- The argument vectors of the lines that the keys end with a return. -/
def commandLines : List Char → List Char → List (List (List Char))
  | _, [] => []
  | line, ch :: keys =>
    (if ch = '\r' ∧ line ≠ [] then [arguments (line.takeWhile (· ≠ nul))] else []) ++
      commandLines (editLine line ch) keys

theorem commandLines_append (line keys keys' : List Char) :
    commandLines line (keys ++ keys') =
      commandLines line keys ++ commandLines (keys.foldl editLine line) keys' := by
  induction keys generalizing line with
  | nil => rfl
  | cons ch keys ih =>
    rw [List.cons_append, commandLines, commandLines, ih, List.append_assoc, List.foldl_cons]

theorem commandLines_prefix {keys text : List Char} (h : keys <+: text) :
    commandLines [] keys <+: commandLines [] text := by
  obtain ⟨rest, rfl⟩ := h
  rw [commandLines_append]
  exact List.prefix_append _ _

/-- A key that fits looks up the arguments of the line, if it ends one. -/
theorem Terminal.Ok.argv_eq {t : Terminal} (ht : t.Ok) {ch : Char} (hfits : KeyFits t.line ch) :
    (t.argv ch).toList = commandLines t.line [ch] := by
  obtain ⟨f, n, out, rfl, hn⟩ := ht.eq_mk
  rw [line_mk] at hfits ⊢
  rw [commandLines, commandLines, List.append_nil, Terminal.argv]
  by_cases hend : ch = '\r' ∧ (List.range n).map f ≠ []
  · obtain ⟨rfl, hne⟩ := hend
    rw [KeyFits, if_pos rfl] at hfits
    obtain ⟨hroom, hstring⟩ := hfits hne
    rw [length_map_range] at hroom
    have hpos : 0 < n := by
      rw [Ne, map_range_eq_nil_iff] at hne
      omega
    rw [if_pos ⟨rfl, by simpa using hpos⟩, if_pos ⟨rfl, hne⟩]
    simp only [storeCmd_eq hroom, Except.toOption, Option.bind_eq_bind, Option.bind_some,
      cmdString_update f hroom, ktermArgs_eq (nul_not_mem_takeWhile _) hstring, Option.toList_some]
  · have hno : ¬ (ch = '\r' ∧ 0 < (⟨f, (n : ℕ), out⟩ : Terminal).cmdPos) := by
      rintro ⟨hret, hpos⟩
      exact hend ⟨hret, map_range_ne_nil (by simpa using hpos)⟩
    rw [if_neg hno, if_neg hend, Option.toList_none]

/-- A key that looks up an argument vector prints the reply to it. -/
theorem Terminal.key_dispatches {report : Report} {t t' : Terminal} {tmp tmp' : List Char}
    {ch : Char} {argv : List (List Char)} (hkey : t.key report tmp ch = .ok (t', tmp'))
    (hargv : t.argv ch = some argv) :
    t'.out = t.out ++ [backspace, '\n'] ++ dispatch report (t.out ++ [backspace, '\n']) argv ++
      prompt := by
  unfold Terminal.argv at hargv
  split_ifs at hargv with hend
  obtain ⟨cmdLine, hstore, hargs⟩ := Option.bind_eq_some_iff.mp hargv
  cases hcmd : storeCmd t.cmdLine t.cmdPos nul with
  | error e =>
    rw [hcmd] at hstore
    cases hstore
  | ok cmdLine' =>
    rw [hcmd] at hstore
    obtain rfl := Option.some.inj hstore
    cases hsplit : ktermArgs (cmdString cmdLine') with
    | error e =>
      rw [hsplit] at hargs
      cases hargs
    | ok argv' =>
      rw [hsplit] at hargs
      obtain rfl := Option.some.inj hargs
      rw [Terminal.key, if_pos hend.1, if_pos hend.2, hcmd] at hkey
      simp only [ok_bind, ktermExec, hsplit, pure_eq_ok] at hkey
      cases hkey
      rfl

end Lines

section Invariant

variable {behind : Bool → ℕ → ℕ} {report : Report} {s s' : TypingRun} {handled : List Char}

/-- The keys that have been handled are the characters of the reads, as far as the thread has
got. -/
def TypingRun.Place (s : TypingRun) (handled : List Char) : Prop :=
  match s.phase with
  | .waiting => s.reader.Returned ∧ handled = s.reader.chars.map keyChar
  | .reading => ∃ front r, s.reader.reads = front ++ [r] ∧
      (∀ q ∈ front, q.chars.length = q.codes.length) ∧ r.chars.length ≤ r.codes.length ∧
      r.codes.length ≤ kbdBufsize ∧ handled = (front.flatMap Reading.chars).map keyChar
  | .handling rest => s.reader.Returned ∧ handled ++ rest = s.reader.chars.map keyChar ∧
      s.tmp.length + rest.length < maxTempBuf
  | .overrun _ => s.reader.Returned ∧ ∃ ch rest,
      handled ++ ch :: rest = s.reader.chars.map keyChar ∧ ¬ KeyFits (handled.foldl editLine []) ch

/-- The terminal is where the keys handled so far have brought it. -/
structure TypingOk (behind : Bool → ℕ → ℕ) (s : TypingRun) (handled : List Char) : Prop where
  decoding : DecodingOk behind s.reader
  place : s.Place handled
  fit : KeysFit [] handled
  term : s.term.Ok
  line : s.term.line = handled.foldl editLine []
  executed : s.executed = commandLines [] handled

/-- How much the thread has to do before it comes to rest. -/
def TypingRun.left (s : TypingRun) : ℕ :=
  5 * (waiting s.reader.buffer.past).length +
    match s.phase with
    | .waiting | .overrun _ => 0
    | .reading => (s.reader.reads.getLast?.map fun r =>
        2 * (r.codes.length - r.chars.length) + r.chars.length + 2).getD 0
    | .handling rest => rest.length + 1

/-- A step of the thread: no scan code is lost, and there is less to do. -/
structure Continues (s s' : TypingRun) : Prop where
  scans : scans s'.reader.buffer.past = scans s.reader.buffer.past
  keys : keys s'.reader.buffer.past = keys s.reader.buffer.past
  left : s'.left < s.left

/-- An interrupt leaves the thread where it is. -/
theorem TypingOk.irq (h : TypingOk behind s handled) {code : ℕ} (hcall : s.Settled (.irq code))
    (hstep : s.step behind report (.irq code) = some s') : TypingOk behind s' handled := by
  simp only [TypingRun.step] at hstep
  obtain ⟨reader, hreader, rfl⟩ := Option.map_eq_some_iff.mp hstep
  obtain rfl := Option.some.inj hreader
  exact ⟨h.decoding.irq hcall.1 hcall.2, h.place, h.fit, h.term, h.line, h.executed⟩

theorem TypingOk.go_waiting (h : TypingOk behind s handled) (hphase : s.phase = .waiting)
    (hstep : s.go behind report = some s') :
    ∃ handled', TypingOk behind s' handled' ∧ Continues s s' := by
  have hplace := h.place
  simp only [TypingRun.Place, hphase] at hplace
  obtain ⟨hreturned, rfl⟩ := hplace
  simp only [TypingRun.go, hphase] at hstep
  obtain ⟨reader, hreader, rfl⟩ := Option.map_eq_some_iff.mp hstep
  obtain ⟨⟨codes, kbd⟩, hread, rfl⟩ := Option.map_eq_some_iff.mp hreader
  have hfew : (waiting s.reader.buffer.past).length < 2 ^ 32 :=
    lt_of_le_of_lt h.decoding.few (by decide)
  obtain ⟨hlength, -⟩ := h.decoding.buffer.read_eq hfew hread
  have hsome : 0 < (waiting s.reader.buffer.past).length :=
    List.length_pos_of_ne_nil (h.decoding.buffer.waiting_ne_nil hread)
  refine ⟨_, ⟨h.decoding.read hread, ?_, h.fit, h.term, h.line, h.executed⟩, ⟨rfl, rfl, ?_⟩⟩
  · exact ⟨s.reader.reads, ⟨codes, []⟩, rfl, hreturned, Nat.zero_le _,
      hlength ▸ h.decoding.few, rfl⟩
  · simp only [TypingRun.left, hphase, waiting, List.getLast?_concat, Option.map_some,
      Option.getD_some, List.length_nil]
    omega

theorem TypingOk.go_reading (h : TypingOk behind s handled) (hphase : s.phase = .reading)
    (hstep : s.go behind report = some s') :
    ∃ handled', TypingOk behind s' handled' ∧ Continues s s' := by
  have hplace := h.place
  simp only [TypingRun.Place, hphase] at hplace
  obtain ⟨front, r, hreads, hfront, hle, hsize, rfl⟩ := hplace
  have hlast : s.reader.reads[s.reader.reads.length - 1]? = some r := by
    rw [hreads, List.length_append, List.length_singleton, Nat.add_sub_cancel]
    exact List.getElem?_concat_length
  simp only [TypingRun.go, hphase] at hstep
  split at hstep
  case h_1 reader hdecode =>
    obtain rfl := Option.some.inj hstep
    have hok := h.decoding.decode hdecode
    simp only [ReaderRun.step, hlast, Option.bind_some] at hdecode
    obtain ⟨code, hcode, rfl⟩ := Option.map_eq_some_iff.mp hdecode
    obtain ⟨hlt, -⟩ := List.getElem?_eq_some_iff.mp hcode
    have hset : ∀ r', s.reader.reads.set (s.reader.reads.length - 1) r' = front ++ [r'] := by
      intro r'
      rw [hreads, List.length_append, List.length_singleton, Nat.add_sub_cancel, List.set_append]
      simp
    refine ⟨_, ⟨hok, ?_, h.fit, h.term, h.line, h.executed⟩, ⟨rfl, rfl, ?_⟩⟩
    · simp only [TypingRun.Place]
      refine ⟨front, _, hset _, hfront, ?_, hsize, rfl⟩
      rw [List.length_append, List.length_singleton]
      exact hlt
    · simp only [TypingRun.left, hphase, hset]
      rw [hreads]
      simp only [List.getLast?_concat, Option.map_some, Option.getD_some, List.length_append,
        List.length_singleton]
      omega
  case h_2 hdecode =>
    rw [hreads, List.getLast?_concat, Option.map_some] at hstep
    obtain rfl := Option.some.inj hstep
    simp only [ReaderRun.step, hlast, Option.bind_some, Option.map_eq_none_iff,
      List.getElem?_eq_none_iff] at hdecode
    have hall : r.chars.length = r.codes.length := by omega
    refine ⟨_, ⟨h.decoding, ⟨?_, ?_, ?_⟩, h.fit, h.term, h.line, h.executed⟩, ⟨rfl, rfl, ?_⟩⟩
    · intro q hq
      rw [hreads, List.mem_append, List.mem_singleton] at hq
      obtain hq | rfl := hq
      · exact hfront q hq
      · exact hall
    · dsimp only
      rw [ReaderRun.chars, hreads, List.flatMap_append, List.map_append, List.flatMap_singleton]
    · rw [List.length_nil, List.length_map, hall, Nat.zero_add]
      exact lt_of_le_of_lt hsize (by decide)
    · simp only [TypingRun.left, hphase]
      rw [hreads]
      simp only [List.getLast?_concat, Option.map_some, Option.getD_some, List.length_map]
      omega

theorem TypingOk.go_key {ch : Char} {rest : List Char} (h : TypingOk behind s handled)
    (hphase : s.phase = .handling (ch :: rest)) (hstep : s.go behind report = some s') :
    ∃ handled', TypingOk behind s' handled' ∧ Continues s s' := by
  have hplace := h.place
  simp only [TypingRun.Place, hphase] at hplace
  obtain ⟨hreturned, hchars, hroom⟩ := hplace
  rw [List.length_cons] at hroom
  simp only [TypingRun.go, hphase] at hstep
  by_cases hfits : KeyFits s.term.line ch
  · obtain ⟨t, tmp, hkey, ht, hview⟩ :=
      h.term.key_follows report (show s.tmp.length < maxTempBuf by omega) hfits
    rw [hkey] at hstep
    obtain rfl := Option.some.inj hstep
    have hline : (t.view tmp).line = editLine (s.term.view s.tmp).line ch := by
      rw [hview, Session.key_line]
    have hlength : (t.view tmp).tmp.length ≤ (s.term.view s.tmp).tmp.length + 1 := by
      rw [hview]
      exact Session.length_tmp_key report _ ch
    have hlength' : tmp.length ≤ s.tmp.length + 1 := hlength
    have hfit : KeysFit [] (handled ++ [ch]) := by
      rw [keysFit_append, ← h.line]
      exact ⟨h.fit, hfits, trivial⟩
    refine ⟨handled ++ [ch], ⟨h.decoding, ⟨hreturned, ?_, ?_⟩, hfit, ht, ?_, ?_⟩, ⟨rfl, rfl, ?_⟩⟩
    · rw [List.append_assoc, List.singleton_append]
      exact hchars
    · dsimp only
      omega
    · rw [List.foldl_append, ← h.line]
      exact hline
    · dsimp only
      rw [h.executed, commandLines_append, h.term.argv_eq hfits, ← h.line]
    · simp only [TypingRun.left, hphase, List.length_cons]
      omega
  · obtain ⟨e, he⟩ := h.term.key_overrun report (show s.tmp.length < maxTempBuf by omega) hfits
    rw [he] at hstep
    obtain rfl := Option.some.inj hstep
    refine ⟨handled, ⟨h.decoding, ⟨hreturned, ch, rest, hchars, ?_⟩, h.fit, h.term, h.line,
      h.executed⟩, ⟨rfl, rfl, ?_⟩⟩
    · rwa [← h.line]
    · simp only [TypingRun.left, hphase, List.length_cons]
      omega

theorem Terminal.echo_eq (t : Terminal) {tmp : List Char} (htmp : tmp.length < maxTempBuf) :
    ∃ out, t.echo tmp = .ok { t with out := out } := by
  unfold Terminal.echo
  split_ifs with hempty
  · exact ⟨t.out, rfl⟩
  · refine ⟨t.out ++ echoText tmp, ?_⟩
    rw [storeTmp, if_pos htmp, ok_bind]
    rfl

theorem TypingOk.go_echo (h : TypingOk behind s handled) (hphase : s.phase = .handling [])
    (hstep : s.go behind report = some s') :
    ∃ handled', TypingOk behind s' handled' ∧ Continues s s' := by
  have hplace := h.place
  simp only [TypingRun.Place, hphase] at hplace
  obtain ⟨hreturned, hchars, hroom⟩ := hplace
  obtain ⟨out, hecho⟩ := s.term.echo_eq hroom
  simp only [TypingRun.go, hphase, hecho] at hstep
  obtain rfl := Option.some.inj hstep
  rw [List.append_nil] at hchars
  refine ⟨handled, ⟨h.decoding, ⟨hreturned, hchars⟩, h.fit, h.term, h.line, h.executed⟩,
    ⟨rfl, rfl, ?_⟩⟩
  simp only [TypingRun.left, hphase, List.length_nil]
  omega

/-- The thread keeps the invariant, loses no scan code, and gets on. -/
theorem TypingOk.go (h : TypingOk behind s handled) (hstep : s.go behind report = some s') :
    ∃ handled', TypingOk behind s' handled' ∧ Continues s s' := by
  cases hphase : s.phase with
  | waiting => exact h.go_waiting hphase hstep
  | reading => exact h.go_reading hphase hstep
  | handling rest =>
    cases rest with
    | nil => exact h.go_echo hphase hstep
    | cons ch rest => exact h.go_key hphase hstep
  | overrun e =>
    simp only [TypingRun.go, hphase] at hstep
    cases hstep

/-- The thread stops only where it waits for a key, or behind the end of an array. -/
theorem TypingOk.stops (h : TypingOk behind s handled)
    (hfew : (keys s.reader.buffer.past).length < 2 ^ 32) (hstop : s.go behind report = none) :
    s.AtRest ∨ ∃ e, s.phase = .overrun e := by
  have hplace := h.place
  cases hphase : s.phase with
  | waiting =>
    left
    refine ⟨hphase, ?_⟩
    simp only [TypingRun.go, hphase, ReaderRun.step, Option.map_eq_none_iff] at hstop
    have hdistance := h.decoding.buffer.distance hfew
    unfold kbdReadLocked at hstop
    split_ifs at hstop with hempty
    rw [Nat.sub_eq_zero_of_le hempty] at hdistance
    exact List.eq_nil_of_length_eq_zero hdistance.symm
  | reading =>
    simp only [TypingRun.Place, hphase] at hplace
    obtain ⟨front, r, hreads, -⟩ := hplace
    simp only [TypingRun.go, hphase] at hstop
    split at hstop
    case h_1 => cases hstop
    case h_2 =>
      rw [hreads, List.getLast?_concat] at hstop
      cases hstop
  | handling rest =>
    cases rest <;> simp only [TypingRun.go, hphase] at hstop <;> split at hstop <;> cases hstop
  | overrun e => exact Or.inr ⟨e, rfl⟩

/-- The keys that have been handled come first in what the scan codes stand for. -/
theorem TypingOk.handled_prefix (h : TypingOk behind s handled) : handled <+: s.text behind := by
  have hplace := h.place
  have hreturned : s.reader.Returned → s.reader.chars.map keyChar <+: s.text behind := by
    intro hall
    rw [TypingRun.text, ← h.decoding.chars_append hall, List.map_append]
    exact List.prefix_append _ _
  cases hphase : s.phase with
  | waiting =>
    simp only [TypingRun.Place, hphase] at hplace
    rw [hplace.2]
    exact hreturned hplace.1
  | reading =>
    simp only [TypingRun.Place, hphase] at hplace
    obtain ⟨front, r, hreads, hfront, -, -, rfl⟩ := hplace
    have hfinish : front.flatMap (Reading.finish behind s.reader.buffer.kbd) =
        front.flatMap Reading.chars :=
      List.flatMap_congr fun q hq => Reading.finish_of_returned (hfront q hq) _
    rw [TypingRun.text, ← h.decoding.chars, hreads, List.flatMap_append, hfinish,
      List.append_assoc, List.map_append]
    exact List.prefix_append _ _
  | handling rest =>
    simp only [TypingRun.Place, hphase] at hplace
    exact (List.prefix_append handled rest).trans (hplace.2.1 ▸ hreturned hplace.1)
  | overrun e =>
    simp only [TypingRun.Place, hphase] at hplace
    obtain ⟨hall, ch, rest, hchars, -⟩ := hplace
    exact (List.prefix_append handled _).trans (hchars ▸ hreturned hall)

/-- At rest, everything has been handled. -/
theorem TypingOk.handled_eq (h : TypingOk behind s handled) (hrest : s.AtRest) :
    handled = s.text behind := by
  have hplace := h.place
  simp only [TypingRun.Place, hrest.1] at hplace
  have hall := h.decoding.chars_append hplace.1
  rw [hrest.2, List.map_nil, List.append_nil] at hall
  rw [hplace.2, TypingRun.text, hall]

/-- Behind the end of an array, a key of the text does not fit. -/
theorem TypingOk.not_fit (h : TypingOk behind s handled) {e : Overrun}
    (hphase : s.phase = .overrun e) : ¬ KeysFit [] (s.text behind) := by
  have hplace := h.place
  simp only [TypingRun.Place, hphase] at hplace
  obtain ⟨hall, ch, rest, hchars, hno⟩ := hplace
  rw [TypingRun.text, ← h.decoding.chars_append hall, List.map_append, ← hchars,
    List.append_assoc, List.cons_append, keysFit_append]
  exact fun hfit => hno hfit.2.1

/-- All states of a run are in order. -/
theorem typingOk_of_reaches
    (hrun : Reaches (TypingRun.step behind report) TypingRun.Settled .start s) :
    ∃ handled, TypingOk behind s handled := by
  apply hrun.invariant
  · have hreader : DecodingOk behind ReaderRun.start := decodingOk_of_reaches (Reaches.refl _)
    exact ⟨[], hreader, ⟨by simp [TypingRun.start, ReaderRun.start, ReaderRun.Returned], rfl⟩,
      trivial, Terminal.start_ok, rfl, rfl⟩
  · rintro s op t ⟨handled, h⟩ hcall hstep
    cases op with
    | irq code => exact ⟨handled, h.irq hcall hstep⟩
    | go =>
      obtain ⟨handled', h', -⟩ := h.go hstep
      exact ⟨handled', h'⟩

end Invariant

section Results

variable {behind : Bool → ℕ → ℕ} {report : Report} {s s' : TypingRun} {handled : List Char}

variable (report) in
/-- Without interrupts, the thread comes to a stop. -/
theorem TypingOk.goes (h : TypingOk behind s handled)
    (hfew : (keys s.reader.buffer.past).length < 2 ^ 32) :
    ∃ n s' handled', s.goes behind report n = some s' ∧ TypingOk behind s' handled' ∧
      s'.text behind = s.text behind ∧ (s'.AtRest ∨ ∃ e, s'.phase = .overrun e) := by
  induction hn : s.left using Nat.strong_induction_on generalizing s handled with
  | _ n ih =>
    cases hstep : s.go behind report with
    | none => exact ⟨0, s, handled, rfl, h, rfl, h.stops hfew hstep⟩
    | some t =>
      obtain ⟨handled', ht, hgoes⟩ := h.go hstep
      obtain ⟨m, s', handled'', hrun, hok, htext, hstop⟩ :=
        ih t.left (hn ▸ hgoes.left) ht (by rw [hgoes.keys]; exact hfew) rfl
      refine ⟨m + 1, s', handled'', ?_, hok, ?_, hstop⟩
      · rw [TypingRun.goes, hstep, Option.bind_some, hrun]
      · rw [htext, TypingRun.text, TypingRun.text, hgoes.scans]

/-- Keys may be stored at any moment, as long as `KBD_BUFSIZE` codes hold those that wait and the
modifiers change only while no key is waiting. What has been looked up is always the
beginning of the commands that the scan codes spell. When no more keys arrive, the thread comes to
rest if and only if every key fits on its line; then it has looked up all of the commands in
their order, and has the keys behind the last return on its line. Otherwise it has gone over
the end of an array. -/
theorem typing_executes (behind : Bool → ℕ → ℕ) (report : Report) {s : TypingRun}
    (hrun : Reaches (TypingRun.step behind report) TypingRun.Settled .start s)
    (hfew : (keys s.reader.buffer.past).length < 2 ^ 32) :
    s.executed <+: commandLines [] (s.text behind) ∧
    ∃ n s', s.goes behind report n = some s' ∧
      if KeysFit [] (s.text behind) then
        s'.AtRest ∧ s'.executed = commandLines [] (s.text behind) ∧
          s'.term.line = (s.text behind).foldl editLine []
      else ∃ e, s'.phase = .overrun e := by
  obtain ⟨handled, h⟩ := typingOk_of_reaches hrun
  constructor
  · rw [h.executed]
    exact commandLines_prefix h.handled_prefix
  · obtain ⟨n, s', handled', hgoes, h', htext, hstop⟩ := h.goes report hfew
    refine ⟨n, s', hgoes, ?_⟩
    rw [← htext]
    obtain hrest | ⟨e, he⟩ := hstop
    · have hall := h'.handled_eq hrest
      rw [← hall, if_pos h'.fit]
      exact ⟨hrest, h'.executed, h'.line⟩
    · rw [if_neg (h'.not_fit he)]
      exact ⟨e, he⟩

/-- The keys of `ipi` and a return; the last two come while the first two are handled. -/
theorem typing_executes_ipi :
    ∃ s, Reaches (TypingRun.step (fun _ _ => 0) silent) TypingRun.Settled .start s ∧
      s.executed = [] ∧ ∃ n s', s.goes (fun _ _ => 0) silent n = some s' ∧ s'.AtRest ∧
        s'.executed = [["ipi".toList]] := by
  have hrun : (runOps (TypingRun.step (fun _ _ => 0) silent) TypingRun.Settled .start
      [.irq 0x17, .irq 0x19, .go, .irq 0x17, .go, .go, .irq 0x1C, .go]).map
        (fun s => (s.executed, s.text fun _ _ => 0, (keys s.reader.buffer.past).length)) =
      some ([], "ipi\r".toList, 4) := by decide +kernel
  obtain ⟨s, hs, hvalue⟩ := Option.map_eq_some_iff.mp hrun
  simp only [Prod.mk.injEq] at hvalue
  obtain ⟨hexecuted, htext, hkeys⟩ := hvalue
  have hreach := Reaches.of_runOps hs
  obtain ⟨n, s', hgoes, hrest⟩ := (typing_executes _ _ hreach (by omega)).2
  rw [htext, if_pos (by decide)] at hrest
  exact ⟨s, hreach, hexecuted, n, s', hgoes, hrest.1, hrest.2.1⟩

end Results

end Smor.Kterm
