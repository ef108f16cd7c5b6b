import Smor.Kbd.Keyboard
import Smor.Kterm.Exec
import Mathlib.Data.List.TakeWhile

/-!
# The kernel terminal

`kterm_run` reads batches of keys. It keeps the line that is typed in `cmd_line` and hands it to
`kterm_exec` at a return. Backspaces and returns act on the console at once; the other keys of a
batch are collected in `tmp` and echoed at its end. A session has the same keys and the same output,
without arrays: as long as every key fits, the terminal follows it, and the first key
that does not fit goes over the end of an array.
-/

namespace Smor.Kterm

open Smor.Lib Smor.Printf Smor.Kbd

/-- `MAX_CMD_LINE`. -/
def maxCmdLine : ℕ := 256

/-- `MAX_TEMP_BUF`, the size of `tmp` and `buf` in `kterm_run`. -/
def maxTempBuf : ℕ := 64

/-- The character `\b`. -/
def backspace : Char := '\x08'

/-- The prompt with its cursor. -/
def prompt : List Char := ['#', ' ', '_']

/-- The locals of `kterm_run` that last, and what was printed. -/
structure Terminal where
  cmdLine : ℕ → Char
  cmdPos : ℤ
  out : List Char

/-- `kterm_run` in front of its loop. -/
def Terminal.start : Terminal :=
  ⟨fun _ => nul, 0, '\n' :: "Entering kernel terminal".toList ++ '\n' :: prompt⟩

/-- `cmd_line[pos] = ch`. -/
def storeCmd (cmdLine : ℕ → Char) (pos : ℤ) (ch : Char) : Except Overrun (ℕ → Char) :=
  if 0 ≤ pos ∧ pos < maxCmdLine then .ok (Function.update cmdLine pos.toNat ch)
  else .error .cmdLine

/-- The string in `cmd_line`. -/
def cmdString (cmdLine : ℕ → Char) : List Char :=
  ((List.range maxCmdLine).map cmdLine).takeWhile (· ≠ nul)

/-- `*p++ = ch`, where `tmp` is what lies below `p`. -/
def storeTmp (tmp : List Char) (ch : Char) : Except Overrun (List Char) :=
  if tmp.length < maxTempBuf then .ok (tmp ++ [ch]) else .error .runTmp

/-- The body of the loop over a batch. -/
def Terminal.key (report : Report) (t : Terminal) (tmp : List Char) (ch : Char) :
    Except Overrun (Terminal × List Char) :=
  if ch = '\r' then
    if 0 < t.cmdPos then do
      let cmdLine ← storeCmd t.cmdLine t.cmdPos nul
      let out := t.out ++ [backspace, '\n']
      let reply ← ktermExec report out (cmdString cmdLine)
      return (⟨cmdLine, 0, out ++ reply ++ prompt⟩, [])
    else return ({ t with out := t.out ++ backspace :: '\n' :: prompt }, [])
  else if ch = backspace then
    if 0 < t.cmdPos then do
      let cmdLine ← storeCmd t.cmdLine (t.cmdPos - 1) nul
      return (⟨cmdLine, t.cmdPos - 1, t.out ++ [backspace, backspace, '_']⟩, tmp)
    else return (t, tmp)
  else do
    let tmp ← storeTmp tmp ch
    let cmdLine ← storeCmd t.cmdLine t.cmdPos ch
    return (⟨cmdLine, t.cmdPos + 1, t.out⟩, tmp)

/-- The loop over a batch. -/
def Terminal.keys (report : Report) (t : Terminal) (tmp buf : List Char) :
    Except Overrun (Terminal × List Char) :=
  buf.foldlM (fun s ch => s.1.key report s.2 ch) (t, tmp)

/-- What `printf("\b%s_", tmp)` prints. -/
def echoText (tmp : List Char) : List Char := backspace :: tmp.takeWhile (· ≠ nul) ++ ['_']

/-- A round of `kterm_run`, with the batch that `kbd_read` gives. -/
def Terminal.batch (report : Report) (t : Terminal) (buf : List Char) :
    Except Overrun Terminal := do
  let (t, tmp) ← t.keys report [] buf
  if tmp = [] then return t
  else
    let _ ← storeTmp tmp nul
    return { t with out := t.out ++ echoText tmp }

/-- `kterm_run`, for the batches read so far. -/
def ktermRun (report : Report) (batches : List (List Char)) : Except Overrun Terminal :=
  batches.foldlM (Terminal.batch report) .start

section Sessions

/-- A terminal without arrays: the line, the keys that wait for their echo, and the output. -/
structure Session where
  line : List Char
  tmp : List Char
  out : List Char
  deriving DecidableEq

/-- What a key does to the line. -/
def editLine (line : List Char) (ch : Char) : List Char :=
  if ch = '\r' then [] else if ch = backspace then line.dropLast else line ++ [ch]

/-- The answer to a return: nothing on an empty line, else what the command prints. -/
def reply (report : Report) (out line : List Char) : List Char :=
  if line = [] then [] else dispatch report out (arguments (line.takeWhile (· ≠ nul)))

/-- A key of a session. -/
def Session.key (report : Report) (s : Session) (ch : Char) : Session :=
  if ch = '\r' then
    let out := s.out ++ [backspace, '\n']
    ⟨[], [], out ++ reply report out s.line ++ prompt⟩
  else if ch = backspace then
    if s.line = [] then s
    else { s with line := s.line.dropLast, out := s.out ++ [backspace, backspace, '_'] }
  else { s with line := s.line ++ [ch], tmp := s.tmp ++ [ch] }

/-- The echo at the end of a batch. -/
def Session.echo (s : Session) : Session :=
  if s.tmp = [] then s else { s with tmp := [], out := s.out ++ echoText s.tmp }

/-- A batch of a session. -/
def Session.batch (report : Report) (s : Session) (buf : List Char) : Session :=
  (buf.foldl (Session.key report) s).echo

theorem Session.key_line (report : Report) (s : Session) (ch : Char) :
    (s.key report ch).line = editLine s.line ch := by
  unfold key editLine
  split
  · rfl
  · split
    · split
      case isTrue hline => rw [hline, List.dropLast_nil]
      case isFalse => rfl
    · rfl

theorem Session.keys_line (report : Report) (s : Session) (keys : List Char) :
    (keys.foldl (Session.key report) s).line = keys.foldl editLine s.line := by
  induction keys generalizing s with
  | nil => rfl
  | cons ch keys ih => rw [List.foldl_cons, List.foldl_cons, ih, s.key_line]

/-- A key fits on the line: there is a place for an ordinary key, and at a return on a line that is
not empty there is a place for the NUL, and `tmp` of `kterm_exec` has room for the string. -/
def KeyFits (line : List Char) (ch : Char) : Prop :=
  if ch = '\r' then
    line ≠ [] → line.length < maxCmdLine ∧ (line.takeWhile (· ≠ nul)).length < execTmpSize
  else ch = backspace ∨ line.length < maxCmdLine

/-- Each of the keys fits on the line that the keys before it leave. -/
def KeysFit : List Char → List Char → Prop
  | _, [] => True
  | line, ch :: keys => KeyFits line ch ∧ KeysFit (editLine line ch) keys

instance (line : List Char) (ch : Char) : Decidable (KeyFits line ch) :=
  inferInstanceAs (Decidable (if ch = '\r' then line ≠ [] → _ ∧ _ else _ ∨ _))

instance decidableKeysFit : (line keys : List Char) → Decidable (KeysFit line keys)
  | _, [] => .isTrue trivial
  | line, ch :: keys =>
    @instDecidableAnd _ _ _ (decidableKeysFit (editLine line ch) keys)

theorem Session.batch_line (report : Report) (s : Session) (buf : List Char) :
    (s.batch report buf).line = buf.foldl editLine s.line := by
  rw [batch, echo]
  split <;> exact keys_line report s buf

theorem keysFit_append {line keys keys' : List Char} :
    KeysFit line (keys ++ keys') ↔
      KeysFit line keys ∧ KeysFit (keys.foldl editLine line) keys' := by
  induction keys generalizing line with
  | nil => simp [KeysFit]
  | cons ch keys ih => simp only [List.cons_append, KeysFit, ih, and_assoc, List.foldl_cons]

end Sessions

section Cells

/-- `cmd_line[0 .. cmd_pos)`. -/
def Terminal.line (t : Terminal) : List Char := (List.range t.cmdPos.toNat).map t.cmdLine

/-- The position of a terminal whose stores were all inside `cmd_line`. -/
def Terminal.Ok (t : Terminal) : Prop := 0 ≤ t.cmdPos ∧ t.cmdPos ≤ maxCmdLine

theorem map_range_congr {f g : ℕ → Char} {n : ℕ} (h : ∀ i < n, f i = g i) :
    (List.range n).map f = (List.range n).map g :=
  List.map_congr_left fun i hi => h i (List.mem_range.mp hi)

/-- The cells below a store. -/
theorem map_range_update (f : ℕ → Char) (n : ℕ) (ch : Char) :
    (List.range n).map (Function.update f n ch) = (List.range n).map f :=
  map_range_congr fun _ hi => Function.update_of_ne (Nat.ne_of_lt hi) ch f

/-- The line with one more key. -/
theorem map_range_succ_update (f : ℕ → Char) (n : ℕ) (ch : Char) :
    (List.range (n + 1)).map (Function.update f n ch) = (List.range n).map f ++ [ch] := by
  rw [List.range_succ, List.map_append, map_range_update, List.map_singleton,
    Function.update_self]

/-- The string in `cmd_line` ends at a NUL that was stored behind the line, or before it. -/
theorem cmdString_update (f : ℕ → Char) {n : ℕ} (hn : n < maxCmdLine) :
    cmdString (Function.update f n nul) = ((List.range n).map f).takeWhile (· ≠ nul) := by
  obtain ⟨m, hm⟩ := Nat.exists_eq_add_of_lt hn
  have hcells : (List.range maxCmdLine).map (Function.update f n nul) =
      (List.range n).map f ++
        nul :: (List.range m).map (Function.update f n nul ∘ (n + 1 + ·)) := by
    rw [hm, show n + m + 1 = n + 1 + m by omega, List.range_add, List.map_append,
      map_range_succ_update, List.map_map, List.append_assoc, List.singleton_append]
  rw [cmdString, hcells, List.takeWhile_append]
  split
  case isTrue h =>
    rw [List.takeWhile_cons_of_neg (by simp), List.append_nil]
    exact ((List.takeWhile_prefix _).eq_of_length h).symm
  case isFalse => rfl

end Cells

section Following

variable {report : Report}

theorem nul_not_mem_takeWhile (l : List Char) : nul ∉ l.takeWhile (· ≠ nul) := by
  intro h
  simpa using List.mem_takeWhile_imp h

/-- A line with room in `tmp` is executed. -/
theorem ktermExec_eq {str : List Char} (hnul : nul ∉ str) (hlen : str.length < execTmpSize)
    (out : List Char) : ktermExec report out str = .ok (dispatch report out (arguments str)) := by
  rw [ktermExec, ktermArgs_eq hnul hlen]
  rfl

theorem ktermExec_overrun {str : List Char} (hlen : execTmpSize ≤ str.length) (out : List Char) :
    ktermExec report out str = .error .execTmp := by
  rw [ktermExec, ktermArgs_overrun hlen]
  rfl

theorem storeCmd_eq {pos : ℕ} (hpos : pos < maxCmdLine) (cmdLine : ℕ → Char) (ch : Char) :
    storeCmd cmdLine pos ch = .ok (Function.update cmdLine pos ch) := by
  rw [storeCmd, if_pos (by omega), Int.toNat_natCast]

theorem storeCmd_overrun {pos : ℕ} (hpos : maxCmdLine ≤ pos) (cmdLine : ℕ → Char) (ch : Char) :
    storeCmd cmdLine pos ch = .error .cmdLine := by
  rw [storeCmd, if_neg (by omega)]

/-- The session that a terminal follows. -/
def Terminal.view (t : Terminal) (tmp : List Char) : Session := ⟨t.line, tmp, t.out⟩

/-- A terminal with `n` keys on its line. -/
theorem Terminal.Ok.eq_mk {t : Terminal} (ht : t.Ok) :
    ∃ f n out, t = ⟨f, (n : ℕ), out⟩ ∧ n ≤ maxCmdLine := by
  obtain ⟨f, pos, out⟩ := t
  obtain ⟨n, rfl⟩ := Int.eq_ofNat_of_zero_le ht.1
  exact ⟨f, n, out, rfl, Int.ofNat_le.mp ht.2⟩

variable (report) (f : ℕ → Char) {n : ℕ} (out tmp : List Char)

theorem Terminal.line_mk : Terminal.line ⟨f, (n : ℕ), out⟩ = (List.range n).map f := by
  rw [line, Int.toNat_natCast]

theorem Terminal.ok_mk (hn : n ≤ maxCmdLine) : Terminal.Ok ⟨f, (n : ℕ), out⟩ :=
  ⟨Int.natCast_nonneg n, Int.ofNat_le.mpr hn⟩

/-- A return on an empty line. -/
theorem key_return_empty :
    Terminal.key report ⟨f, (0 : ℕ), out⟩ tmp '\r' =
      .ok (⟨f, (0 : ℕ), out ++ backspace :: '\n' :: prompt⟩, []) := by
  rw [Terminal.key, if_pos rfl, if_neg (by simp)]
  rfl

/-- A return on a line with keys stores a NUL behind them and executes the string. -/
theorem key_return (hn : 0 < n) (hroom : n < maxCmdLine) :
    Terminal.key report ⟨f, (n : ℕ), out⟩ tmp '\r' = do
      let out := out ++ [backspace, '\n']
      let reply ← ktermExec report out (((List.range n).map f).takeWhile (· ≠ nul))
      return (⟨Function.update f n nul, (0 : ℕ), out ++ reply ++ prompt⟩, []) := by
  rw [Terminal.key, if_pos rfl, if_pos (by simpa using hn)]
  simp only [storeCmd_eq hroom, ok_bind, cmdString_update f hroom]
  rfl

/-- A backspace on a line with keys. -/
theorem key_backspace (hn : n + 1 ≤ maxCmdLine) :
    Terminal.key report ⟨f, (n + 1 : ℕ), out⟩ tmp backspace =
      .ok (⟨Function.update f n nul, (n : ℕ), out ++ [backspace, backspace, '_']⟩, tmp) := by
  have hpos : ((n + 1 : ℕ) : ℤ) - 1 = (n : ℕ) := by omega
  rw [Terminal.key, if_neg (by decide), if_pos rfl, if_pos (by simp)]
  simp only [hpos, storeCmd_eq (show n < maxCmdLine by omega), ok_bind, pure_eq_ok]

/-- An ordinary key, with room in `tmp`. -/
theorem key_ordinary {ch : Char} (hret : ch ≠ '\r') (hback : ch ≠ backspace)
    (htmp : tmp.length < maxTempBuf) :
    Terminal.key report ⟨f, (n : ℕ), out⟩ tmp ch = do
      let cmdLine ← storeCmd f n ch
      return (⟨cmdLine, (n + 1 : ℕ), out⟩, tmp ++ [ch]) := by
  rw [Terminal.key, if_neg hret, if_neg hback, storeTmp, if_pos htmp, ok_bind]
  rfl

variable {f out tmp}

theorem Terminal.view_mk :
    Terminal.view ⟨f, (n : ℕ), out⟩ tmp = ⟨(List.range n).map f, tmp, out⟩ := by
  rw [view, line_mk]

theorem map_range_eq_nil_iff {n : ℕ} : (List.range n).map f = [] ↔ n = 0 := by
  rw [List.map_eq_nil_iff, List.range_eq_nil]

theorem map_range_ne_nil {n : ℕ} (hn : 0 < n) : (List.range n).map f ≠ [] := by
  rw [Ne, map_range_eq_nil_iff]
  omega

theorem length_map_range {n : ℕ} : ((List.range n).map f).length = n := by
  rw [List.length_map, List.length_range]

/-- A return that fits is carried out as in the session. -/
theorem return_follows (hn : n ≤ maxCmdLine) (hfits : KeyFits ((List.range n).map f) '\r') :
    ∃ t' tmp', Terminal.key report ⟨f, (n : ℕ), out⟩ tmp '\r' = .ok (t', tmp') ∧ t'.Ok ∧
      t'.view tmp' = (Terminal.view ⟨f, (n : ℕ), out⟩ tmp).key report '\r' := by
  obtain rfl | hpos := Nat.eq_zero_or_pos n
  · refine ⟨_, _, key_return_empty report f out tmp, Terminal.ok_mk _ _ hn, ?_⟩
    rw [Terminal.view_mk, Terminal.view_mk]
    simp [Session.key, reply]
  · rw [KeyFits, if_pos rfl] at hfits
    have hne : (List.range n).map f ≠ [] := map_range_ne_nil hpos
    obtain ⟨hroom, hstring⟩ := hfits hne
    rw [length_map_range] at hroom
    have hreply : ktermExec report (out ++ [backspace, '\n'])
        (((List.range n).map f).takeWhile (· ≠ nul)) =
          .ok (reply report (out ++ [backspace, '\n']) ((List.range n).map f)) := by
      rw [reply, if_neg hne]
      exact ktermExec_eq (nul_not_mem_takeWhile _) hstring _
    have hkey := key_return report f out tmp hpos hroom
    simp only [hreply, ok_bind, pure_eq_ok] at hkey
    refine ⟨_, _, hkey, Terminal.ok_mk _ _ (Nat.zero_le _), ?_⟩
    rw [Terminal.view_mk, Terminal.view_mk, Session.key, if_pos rfl]
    rfl

/-- A return that does not fit overruns an array. -/
theorem return_overrun (hfits : ¬ KeyFits ((List.range n).map f) '\r') :
    ∃ e, Terminal.key report ⟨f, (n : ℕ), out⟩ tmp '\r' = .error e := by
  have hpos : 0 < n := by
    by_contra hzero
    rw [KeyFits, if_pos rfl] at hfits
    exact hfits fun h => absurd (map_range_eq_nil_iff.mpr (by omega)) h
  by_cases hroom : n < maxCmdLine
  · have hstring : execTmpSize ≤ (((List.range n).map f).takeWhile (· ≠ nul)).length := by
      by_contra hlt
      rw [KeyFits, if_pos rfl] at hfits
      exact hfits fun _ => ⟨by rwa [length_map_range], by omega⟩
    refine ⟨.execTmp, ?_⟩
    rw [key_return report f out tmp hpos hroom]
    simp only [ktermExec_overrun hstring]
    rfl
  · refine ⟨.cmdLine, ?_⟩
    rw [Terminal.key, if_pos rfl, if_pos (by simpa using hpos)]
    simp only [storeCmd_overrun (Nat.not_lt.mp hroom)]
    rfl

/-- A key that fits does what it does in the session. -/
theorem Terminal.Ok.key_follows {t : Terminal} (ht : t.Ok) (htmp : tmp.length < maxTempBuf)
    {ch : Char} (hfits : KeyFits t.line ch) :
    ∃ t' tmp', t.key report tmp ch = .ok (t', tmp') ∧ t'.Ok ∧
      t'.view tmp' = (t.view tmp).key report ch := by
  obtain ⟨f, n, out, rfl, hn⟩ := ht.eq_mk
  rw [line_mk] at hfits
  by_cases hret : ch = '\r'
  · subst hret
    exact return_follows report hn hfits
  by_cases hback : ch = backspace
  · subst hback
    cases n with
    | zero =>
      refine ⟨_, tmp, ?_, ht, ?_⟩
      · rw [Terminal.key, if_neg (by decide), if_pos rfl, if_neg (by simp)]
        rfl
      · rw [Session.key, if_neg (by decide), if_pos rfl, if_pos (by rw [view_mk]; rfl)]
    | succ n =>
      refine ⟨_, _, key_backspace report f out tmp hn, ok_mk _ _ (by omega), ?_⟩
      have hne : (List.range (n + 1)).map f ≠ [] := map_range_ne_nil (Nat.succ_pos n)
      have hline : ((List.range (n + 1)).map f).dropLast = (List.range n).map f := by
        rw [List.range_succ, List.map_append, List.map_singleton, List.dropLast_concat]
      rw [view_mk, view_mk, Session.key, if_neg (by decide), if_pos rfl, if_neg hne, hline,
        map_range_update]
  · rw [KeyFits, if_neg hret, length_map_range] at hfits
    have hroom := hfits.resolve_left hback
    refine ⟨⟨Function.update f n ch, (n + 1 : ℕ), out⟩, tmp ++ [ch], ?_, ok_mk _ _ hroom, ?_⟩
    · rw [key_ordinary report f out tmp hret hback htmp, storeCmd_eq hroom]
      rfl
    · rw [view_mk, view_mk, Session.key, if_neg hret, if_neg hback, map_range_succ_update]

/-- A key that does not fit overruns an array. -/
theorem Terminal.Ok.key_overrun {t : Terminal} (ht : t.Ok) (htmp : tmp.length < maxTempBuf)
    {ch : Char} (hfits : ¬ KeyFits t.line ch) : ∃ e, t.key report tmp ch = .error e := by
  obtain ⟨f, n, out, rfl, -⟩ := ht.eq_mk
  rw [line_mk] at hfits
  by_cases hret : ch = '\r'
  · subst hret
    exact return_overrun report hfits
  · rw [KeyFits, if_neg hret, length_map_range, not_or] at hfits
    refine ⟨.cmdLine, ?_⟩
    rw [key_ordinary report f out tmp hret hfits.1 htmp, storeCmd_overrun (Nat.not_lt.mp hfits.2)]
    rfl

/-- A key adds at most one key to `tmp`. -/
theorem Session.length_tmp_key (s : Session) (ch : Char) :
    (s.key report ch).tmp.length ≤ s.tmp.length + 1 := by
  unfold key
  split
  · exact Nat.zero_le _
  · split
    · split <;> exact Nat.le_succ _
    · rw [List.length_append, List.length_singleton]

/-- A key that fits, with what is left of the batch. -/
theorem Terminal.Ok.key_step {t : Terminal} (ht : t.Ok) {ch : Char} {keys : List Char}
    (htmp : tmp.length + (ch :: keys).length < maxTempBuf) (hfits : KeyFits t.line ch) :
    ∃ (t' : Terminal) (tmp' : List Char),
      t.keys report tmp (ch :: keys) = t'.keys report tmp' keys ∧ t'.Ok ∧
      t'.line = editLine t.line ch ∧
      tmp'.length + keys.length < maxTempBuf ∧ t'.view tmp' = (t.view tmp).key report ch := by
  rw [List.length_cons] at htmp
  have hroom : tmp.length < maxTempBuf := by omega
  obtain ⟨t', tmp', hkey, ht', hview⟩ := ht.key_follows report hroom hfits
  have hline : (t'.view tmp').line = editLine (t.view tmp).line ch := by
    rw [hview, Session.key_line]
  have hlength : (t'.view tmp').tmp.length ≤ (t.view tmp).tmp.length + 1 := by
    rw [hview]
    exact Session.length_tmp_key report _ ch
  have hroom' : tmp'.length + keys.length < maxTempBuf := by
    have hle : tmp'.length ≤ tmp.length + 1 := hlength
    omega
  refine ⟨t', tmp', ?_, ht', hline, hroom', hview⟩
  rw [Terminal.keys, List.foldlM_cons, hkey, ok_bind, Terminal.keys]

/-- Keys that fit do what they do in the session. -/
theorem Terminal.Ok.keys_follow {t : Terminal} (ht : t.Ok) {keys : List Char}
    (htmp : tmp.length + keys.length < maxTempBuf) (hfit : KeysFit t.line keys) :
    ∃ t' tmp', t.keys report tmp keys = .ok (t', tmp') ∧ t'.Ok ∧ tmp'.length < maxTempBuf ∧
      t'.view tmp' = keys.foldl (Session.key report) (t.view tmp) := by
  induction keys generalizing t tmp with
  | nil => exact ⟨t, tmp, rfl, ht, htmp, rfl⟩
  | cons ch keys ih =>
    obtain ⟨hch, hkeys⟩ := hfit
    obtain ⟨t', tmp', hstep, ht', hline, htmp', hview⟩ := ht.key_step report htmp hch
    rw [← hline] at hkeys
    obtain ⟨u, tmp'', hrun, hu, htmp'', hviews⟩ := ih ht' htmp' hkeys
    refine ⟨u, tmp'', hstep.trans hrun, hu, htmp'', ?_⟩
    rw [hviews, hview, List.foldl_cons]

/-- The first key that does not fit overruns an array. -/
theorem Terminal.Ok.keys_overrun {t : Terminal} (ht : t.Ok) {keys : List Char}
    (htmp : tmp.length + keys.length < maxTempBuf) (hfit : ¬ KeysFit t.line keys) :
    ∃ e, t.keys report tmp keys = .error e := by
  induction keys generalizing t tmp with
  | nil => exact absurd trivial hfit
  | cons ch keys ih =>
    by_cases hch : KeyFits t.line ch
    · obtain ⟨t', tmp', hstep, ht', hline, htmp', -⟩ := ht.key_step report htmp hch
      have hkeys : ¬ KeysFit t'.line keys := fun h => hfit ⟨hch, by rwa [← hline]⟩
      obtain ⟨e, he⟩ := ih ht' htmp' hkeys
      exact ⟨e, hstep.trans he⟩
    · rw [List.length_cons] at htmp
      obtain ⟨e, he⟩ := ht.key_overrun report (show tmp.length < maxTempBuf by omega) hch
      refine ⟨e, ?_⟩
      rw [Terminal.keys, List.foldlM_cons, he]
      rfl

/-- A batch whose keys fit does what it does in the session. -/
theorem Terminal.Ok.batch_follows {t : Terminal} (ht : t.Ok) {buf : List Char}
    (hsize : buf.length < maxTempBuf) (hfit : KeysFit t.line buf) :
    ∃ t', t.batch report buf = .ok t' ∧ t'.Ok ∧
      t'.view [] = (t.view []).batch report buf := by
  have htmp : ([] : List Char).length + buf.length < maxTempBuf := by
    rwa [List.length_nil, Nat.zero_add]
  obtain ⟨t', tmp, hrun, ht', hroom, hview⟩ := ht.keys_follow report htmp hfit
  rw [Session.batch, ← hview]
  by_cases hempty : tmp = []
  · refine ⟨t', ?_, ht', ?_⟩
    · rw [Terminal.batch, hrun, ok_bind]
      simp [hempty]
    · rw [Session.echo, if_pos (by exact hempty), hempty]
  · refine ⟨{ t' with out := t'.out ++ echoText tmp }, ?_, ht', ?_⟩
    · rw [Terminal.batch, hrun, ok_bind]
      simp [hempty, storeTmp, hroom]
    · rw [Session.echo, if_neg (by exact hempty)]
      rfl

/-- A batch with a key that does not fit overruns an array. -/
theorem Terminal.Ok.batch_overrun {t : Terminal} (ht : t.Ok) {buf : List Char}
    (hsize : buf.length < maxTempBuf) (hfit : ¬ KeysFit t.line buf) :
    ∃ e, t.batch report buf = .error e := by
  have htmp : ([] : List Char).length + buf.length < maxTempBuf := by
    rwa [List.length_nil, Nat.zero_add]
  obtain ⟨e, he⟩ := ht.keys_overrun report htmp hfit
  refine ⟨e, ?_⟩
  rw [Terminal.batch, he]
  rfl

/-- What a batch in which every key fits leaves for the batches after it. -/
theorem Terminal.Ok.batch_step {t : Terminal} (ht : t.Ok) {buf : List Char}
    (batches : List (List Char)) (hsize : buf.length < maxTempBuf) (hfit : KeysFit t.line buf) :
    ∃ t' : Terminal, (buf :: batches).foldlM (Terminal.batch report) t =
        batches.foldlM (Terminal.batch report) t' ∧
      t'.Ok ∧ t'.line = buf.foldl editLine t.line ∧ t'.view [] = (t.view []).batch report buf := by
  obtain ⟨t', hrun, ht', hview⟩ := ht.batch_follows report hsize hfit
  have hline : (t'.view []).line = buf.foldl editLine (t.view []).line := by
    rw [hview, Session.batch_line]
  refine ⟨t', ?_, ht', hline, hview⟩
  rw [List.foldlM_cons, hrun, ok_bind]

theorem Terminal.Ok.run_follows {t : Terminal} (ht : t.Ok) {batches : List (List Char)}
    (hsize : ∀ buf ∈ batches, buf.length < maxTempBuf) (hfit : KeysFit t.line batches.flatten) :
    ∃ t' : Terminal, batches.foldlM (Terminal.batch report) t = .ok t' ∧ t'.Ok ∧
      t'.view [] = batches.foldl (Session.batch report) (t.view []) := by
  induction batches generalizing t with
  | nil => exact ⟨t, rfl, ht, rfl⟩
  | cons buf batches ih =>
    rw [List.flatten_cons, keysFit_append] at hfit
    obtain ⟨t', hstep, ht', hline, hview⟩ :=
      ht.batch_step report batches (hsize buf List.mem_cons_self) hfit.1
    obtain ⟨u, hrun, hu, hviews⟩ :=
      ih ht' (fun b hb => hsize b (List.mem_cons_of_mem buf hb)) (hline ▸ hfit.2)
    refine ⟨u, hstep.trans hrun, hu, ?_⟩
    rw [hviews, hview, List.foldl_cons]

theorem Terminal.Ok.run_overrun {t : Terminal} (ht : t.Ok) {batches : List (List Char)}
    (hsize : ∀ buf ∈ batches, buf.length < maxTempBuf) (hfit : ¬ KeysFit t.line batches.flatten) :
    ∃ e, batches.foldlM (Terminal.batch report) t = .error e := by
  induction batches generalizing t with
  | nil => exact absurd trivial hfit
  | cons buf batches ih =>
    rw [List.flatten_cons, keysFit_append] at hfit
    have hbuf := hsize buf List.mem_cons_self
    by_cases hfirst : KeysFit t.line buf
    · obtain ⟨t', hstep, ht', hline, -⟩ := ht.batch_step report batches hbuf hfirst
      have hrest : ¬ KeysFit t'.line batches.flatten := by
        rw [hline]
        exact fun h => hfit ⟨hfirst, h⟩
      obtain ⟨e, he⟩ := ih ht' (fun b hb => hsize b (List.mem_cons_of_mem buf hb)) hrest
      exact ⟨e, hstep.trans he⟩
    · obtain ⟨e, he⟩ := ht.batch_overrun report hbuf hfirst
      refine ⟨e, ?_⟩
      rw [List.foldlM_cons, he]
      rfl

end Following

section Runs

theorem Terminal.start_ok : Terminal.start.Ok := ⟨le_rfl, Int.natCast_nonneg _⟩

/-- Commands that show nothing. -/
def silent : Report := fun _ _ _ => []

/-- The session of a run from its start. -/
def Session.run (report : Report) (batches : List (List Char)) : Session :=
  batches.foldl (Session.batch report) (Terminal.start.view [])

/-- The terminal follows its session as long as the keys fit. -/
theorem ktermRun_follows (report : Report) {batches : List (List Char)}
    (hsize : ∀ buf ∈ batches, buf.length < maxTempBuf) (hfit : KeysFit [] batches.flatten) :
    ∃ t, ktermRun report batches = .ok t ∧ t.view [] = Session.run report batches := by
  obtain ⟨t, hrun, -, hview⟩ := Terminal.start_ok.run_follows report hsize hfit
  exact ⟨t, hrun, hview⟩

theorem ktermRun_overrun (report : Report) {batches : List (List Char)}
    (hsize : ∀ buf ∈ batches, buf.length < maxTempBuf) (hfit : ¬ KeysFit [] batches.flatten) :
    ∃ e, ktermRun report batches = .error e :=
  Terminal.start_ok.run_overrun report hsize hfit

/-- A run stays inside `cmd_line`, `tmp` and `args` if and only if every key fits on its line: there
are at most 256 keys on a line, and at a return fewer than 256, and fewer than 64 before the first
NUL. -/
theorem ktermRun_ok_iff (report : Report) {batches : List (List Char)}
    (hsize : ∀ buf ∈ batches, buf.length ≤ kbdBufsize) :
    (∃ t, ktermRun report batches = .ok t) ↔ KeysFit [] batches.flatten := by
  have hsize' : ∀ buf ∈ batches, buf.length < maxTempBuf := fun buf hbuf =>
    (hsize buf hbuf).trans_lt (by decide)
  constructor
  · rintro ⟨t, ht⟩
    by_contra hfit
    obtain ⟨e, he⟩ := ktermRun_overrun report hsize' hfit
    rw [ht] at he
    cases he
  · intro hfit
    obtain ⟨t, ht, -⟩ := ktermRun_follows report hsize' hfit
    exact ⟨t, ht⟩

theorem ktermRun_ok_iff_unknown :
    ∃ t, ktermRun silent [['i', 'p', backspace], [backspace, 'x', 'y', '\r']] = .ok t :=
  (ktermRun_ok_iff silent (by decide)).mpr (by decide)

/-- 64 keys and a return, in batches that `kbd_read` can give. -/
def longLine : List (List Char) := List.replicate 4 (List.replicate 16 'a') ++ [['\r']]

set_option maxRecDepth 4000 in
/-- The line of 64 keys does not fit into `tmp` of `kterm_exec`. -/
theorem ktermRun_longLine :
    (∀ buf ∈ longLine, buf.length ≤ kbdBufsize) ∧ ¬ ∃ t, ktermRun silent longLine = .ok t := by
  refine ⟨by decide, ?_⟩
  rintro ⟨t, ht⟩
  have hsize : ∀ buf ∈ longLine, buf.length < maxTempBuf := by decide
  obtain ⟨e, he⟩ := ktermRun_overrun silent hsize (by decide)
  rw [ht] at he
  cases he

end Runs

end Smor.Kterm
