import Smor.Kbd.Keyboard

/-!
# Translating key codes

`irq_handler` follows the modifier keys as their codes arrive, but a key code is translated only
when the reader gets to it, with the modifiers of that moment. `typed` is the translation
that depends on the scan codes alone: every key with the modifiers at its press. Reads
deliver it whenever the modifiers change only while no key is waiting to be
translated, and they do not deliver it otherwise.
-/

namespace Smor.Kbd

open Smor.Lib

/-- The table `normal`. -/
def normal : List ℕ :=
  [0x00, 0x1B] ++ ['1', '2', '3', '4', '5', '6', '7', '8', '9', '0', '-', '='].map Char.toNat ++
  [0x08, 0x09] ++ ['q', 'w', 'e', 'r', 't', 'y', 'u', 'i', 'o', 'p', '[', ']'].map Char.toNat ++
  [0x0D, 0x80] ++ ['a', 's', 'd', 'f', 'g', 'h', 'j', 'k', 'l', ';'].map Char.toNat ++
  [0x27, 0x60, 0x80, 0x5C] ++ ['z', 'x', 'c', 'v', 'b', 'n', 'm', ',', '.', '/'].map Char.toNat ++
  [0x80] ++ ['*'].map Char.toNat ++ [0x80] ++ [' '].map Char.toNat ++ List.replicate 24 0x80 ++
  ['0'].map Char.toNat ++ [0x7F]

/-- The table `shifted`. Its last entry is 177, not octal. -/
def shifted : List ℕ :=
  [0x00, 0x1B] ++ ['!', '@', '#', '$', '%', '^', '&', '*', '(', ')', '_', '+'].map Char.toNat ++
  [0x08, 0x09] ++ ['Q', 'W', 'E', 'R', 'T', 'Y', 'U', 'I', 'O', 'P', '{', '}'].map Char.toNat ++
  [0x0D, 0x80] ++ ['A', 'S', 'D', 'F', 'G', 'H', 'J', 'K', 'L', ':'].map Char.toNat ++
  [0x22, 0x7E, 0x80, 0x7C] ++ ['Z', 'X', 'C', 'V', 'B', 'N', 'M', '<', '>', '?'].map Char.toNat ++
  [0x80] ++ ['*'].map Char.toNat ++ [0x80] ++ [' '].map Char.toNat ++ List.replicate 13 0x80 ++
  ['7', '8', '9'].map Char.toNat ++ [0x80] ++ ['4', '5', '6'].map Char.toNat ++ [0x80] ++
  ['1', '2', '3', '0'].map Char.toNat ++ [177]

section Translation

-- what memory holds behind the two tables, where the larger codes are looked up
variable (behind : Bool → ℕ → ℕ)

/-- `kbd_decode`. -/
def kbdDecode (kbd : Keyboard) (code : ℕ) : ℕ :=
  let normalAt := normal.getD code (behind false code)
  let shiftedAt := shifted.getD code (behind true code)
  if code = 72 then '*'.toNat
  else if kbd.caps then
    if 'a'.toNat ≤ normalAt ∧ normalAt ≤ 'z'.toNat then
      if kbd.shift then normalAt else shiftedAt
    else if kbd.shift then shiftedAt else normalAt
  else if kbd.shift then shiftedAt else normalAt

/-- The translation depends on two of the modifiers only. -/
theorem kbdDecode_congr {kbd kbd' : Keyboard} (hshift : kbd'.shift = kbd.shift)
    (hcaps : kbd'.caps = kbd.caps) : kbdDecode behind kbd' = kbdDecode behind kbd := by
  funext code
  unfold kbdDecode
  rw [hshift, hcaps]

/-- The characters of the key presses among the scan codes, each with the modifiers at its
press. -/
def typedFrom : Keyboard → List ℕ → List ℕ
  | _, [] => []
  | kbd, code :: codes =>
    if ordinary code then kbdDecode behind kbd code :: typedFrom (irqHandler kbd code).1 codes
    else typedFrom (irqHandler kbd code).1 codes

/-- The characters that scan codes stand for. -/
def typed (scans : List ℕ) : List ℕ := typedFrom behind .init scans

/-- The keyboard after some scan codes, without any read. -/
def afterScans (scans : List ℕ) : Keyboard :=
  scans.foldl (fun kbd code => (irqHandler kbd code).1) .init

/-- One more scan code. -/
theorem typed_append (scans : List ℕ) (code : ℕ) :
    typed behind (scans ++ [code]) = typed behind scans ++
      if ordinary code then [kbdDecode behind (afterScans scans) code] else [] := by
  have hfrom : ∀ kbd, typedFrom behind kbd (scans ++ [code]) = typedFrom behind kbd scans ++
      if ordinary code then
        [kbdDecode behind (scans.foldl (fun kbd code => (irqHandler kbd code).1) kbd) code]
      else [] := by
    induction scans with
    | nil =>
      intro kbd
      simp only [List.nil_append, typedFrom, List.foldl_nil]
    | cons first scans ih =>
      intro kbd
      simp only [List.cons_append, typedFrom, List.foldl_cons, ih]
      split_ifs <;> rfl
  exact hfrom .init

/-- A call of `kbd_read` behind its copy: the local array, and what is translated of it. -/
structure Reading where
  codes : List ℕ
  chars : List ℕ
  deriving DecidableEq

/-- The keyboard, and all calls of `kbd_read` in the order of their copies. -/
structure ReaderRun where
  buffer : BufferRun
  reads : List Reading

/-- Nothing has been pressed or read. -/
def ReaderRun.start : ReaderRun := ⟨.start, []⟩

/-- An interrupt, the copy of a read, or the translation of the next code by the read with a
given number. -/
inductive ReaderOp where
  | irq (code : ℕ)
  | read
  | decode (i : ℕ)

/-- One step. -/
def ReaderRun.step (s : ReaderRun) : ReaderOp → Option ReaderRun
  | .irq code => (s.buffer.step (.irq code)).map fun buffer => { s with buffer := buffer }
  | .read => (kbdReadLocked s.buffer.kbd).map fun (codes, kbd) =>
      ⟨⟨kbd, .drain codes :: s.buffer.past⟩, s.reads ++ [⟨codes, []⟩]⟩
  | .decode i => s.reads[i]?.bind fun r => r.codes[r.chars.length]?.map fun code =>
      { s with
        reads := s.reads.set i { r with chars := r.chars ++ [kbdDecode behind s.buffer.kbd code] } }

/-- The scan codes of a history. -/
def scans : List Event → List ℕ
  | [] => []
  | .scan code :: past => scans past ++ [code]
  | .drain _ :: past => scans past

/-- The characters that the reads have delivered, one read after the other. -/
def ReaderRun.chars (s : ReaderRun) : List ℕ := s.reads.flatMap Reading.chars

/-- Every read has returned. -/
def ReaderRun.Returned (s : ReaderRun) : Prop := ∀ r ∈ s.reads, r.chars.length = r.codes.length

instance (s : ReaderRun) : Decidable s.Returned :=
  inferInstanceAs (Decidable (∀ r ∈ s.reads, _))

/-- Scan codes are bytes, and never more than `KBD_BUFSIZE` codes are waiting. -/
def ReaderCall (s : ReaderRun) : ReaderOp → Prop
  | .irq code => code < 256 ∧
      (ordinary code = true → (waiting s.buffer.past).length < kbdBufsize)
  | .read | .decode _ => True

/-- A scan code changes the shift or the caps-lock state only while no key is waiting: the buffer
is empty and every read has returned. -/
def ModifiersSettled (s : ReaderRun) (op : ReaderOp) : Prop :=
  ∀ code, op = .irq code →
    ((irqHandler s.buffer.kbd code).1.shift ≠ s.buffer.kbd.shift ∨
      (irqHandler s.buffer.kbd code).1.caps ≠ s.buffer.kbd.caps) →
    waiting s.buffer.past = [] ∧ s.Returned

/-- The steps of a run whose modifiers change only while no key is waiting. -/
def SettledCall (s : ReaderRun) (op : ReaderOp) : Prop := ReaderCall s op ∧ ModifiersSettled s op

instance (s : ReaderRun) (op : ReaderOp) : Decidable (ReaderCall s op) :=
  match op with
  | .irq _ => inferInstanceAs (Decidable (_ ∧ (_ → _)))
  | .read | .decode _ => inferInstanceAs (Decidable True)

instance (s : ReaderRun) (op : ReaderOp) : Decidable (ModifiersSettled s op) :=
  match op with
  | .irq code => decidable_of_iff
      ((irqHandler s.buffer.kbd code).1.shift ≠ s.buffer.kbd.shift ∨
        (irqHandler s.buffer.kbd code).1.caps ≠ s.buffer.kbd.caps →
        waiting s.buffer.past = [] ∧ s.Returned)
      ⟨fun h _ heq => ReaderOp.irq.inj heq ▸ h, fun h => h code rfl⟩
  | .read | .decode _ => isTrue fun _ heq => nomatch heq

instance (s : ReaderRun) (op : ReaderOp) : Decidable (SettledCall s op) :=
  inferInstanceAs (Decidable (_ ∧ _))

/-- What a read delivers if the rest of it is translated now. -/
def Reading.finish (kbd : Keyboard) (r : Reading) : List ℕ :=
  r.chars ++ (r.codes.drop r.chars.length).map (kbdDecode behind kbd)

variable {behind} {s t : ReaderRun}

/-- The modifiers that matter after a special code depend on those before it. -/
theorem kbdCheckSpecial_modifiers {kbd kbd' : Keyboard} (hshift : kbd'.shift = kbd.shift)
    (hcaps : kbd'.caps = kbd.caps) (code : ℕ) :
    (kbdCheckSpecial kbd' code).map (fun kbd => (kbd.shift, kbd.caps)) =
      (kbdCheckSpecial kbd code).map fun kbd => (kbd.shift, kbd.caps) := by
  unfold kbdCheckSpecial
  split <;> simp [hshift, hcaps]

/-- The same for every interrupt. -/
theorem irqHandler_modifiers {kbd kbd' : Keyboard} (hshift : kbd'.shift = kbd.shift)
    (hcaps : kbd'.caps = kbd.caps) (code : ℕ) :
    (irqHandler kbd' code).1.shift = (irqHandler kbd code).1.shift ∧
      (irqHandler kbd' code).1.caps = (irqHandler kbd code).1.caps := by
  have hspecial := kbdCheckSpecial_modifiers hshift hcaps code
  unfold irqHandler
  cases hcase : kbdCheckSpecial kbd code with
  | some kbd₁ =>
    rw [hcase, Option.map_some, Option.map_eq_some_iff] at hspecial
    obtain ⟨kbd₂, hcase', heq⟩ := hspecial
    rw [hcase']
    exact Prod.mk.inj heq
  | none =>
    rw [hcase, Option.map_none, Option.map_eq_none_iff] at hspecial
    rw [hspecial]
    dsimp only
    split_ifs
    · exact ⟨hshift, hcaps⟩
    · exact ⟨hshift, hcaps⟩

/-- A read that has returned delivers what it has translated. -/
theorem Reading.finish_of_returned {r : Reading} (h : r.chars.length = r.codes.length)
    (kbd : Keyboard) : r.finish behind kbd = r.chars := by
  rw [Reading.finish, h, List.drop_length, List.map_nil, List.append_nil]

/-- Translating the next code of a read now does not change what it delivers. -/
theorem Reading.finish_decode {r : Reading} {code : ℕ} {kbd : Keyboard}
    (h : r.codes[r.chars.length]? = some code) :
    Reading.finish behind kbd { r with chars := r.chars ++ [kbdDecode behind kbd code] } =
      r.finish behind kbd := by
  obtain ⟨hlt, heq⟩ := List.getElem?_eq_some_iff.mp h
  simp only [Reading.finish, List.length_append, List.length_singleton, List.append_assoc,
    List.singleton_append]
  rw [List.drop_eq_getElem_cons hlt, List.map_cons, heq]

/-- Everything translated now would be what was typed. -/
structure DecodingOk (behind : Bool → ℕ → ℕ) (s : ReaderRun) : Prop where
  buffer : BufferOk s.buffer
  few : (waiting s.buffer.past).length ≤ kbdBufsize
  shift : s.buffer.kbd.shift = (afterScans (scans s.buffer.past)).shift
  caps : s.buffer.kbd.caps = (afterScans (scans s.buffer.past)).caps
  chars : s.reads.flatMap (Reading.finish behind s.buffer.kbd) ++
    (waiting s.buffer.past).map (kbdDecode behind s.buffer.kbd) =
      typed behind (scans s.buffer.past)

/-- An interrupt keeps the invariant if the modifiers are settled. -/
theorem DecodingOk.irq (h : DecodingOk behind s) {code : ℕ} (hcall : ReaderCall s (.irq code))
    (hsettled : ModifiersSettled s (.irq code)) :
    DecodingOk behind { s with
      buffer := ⟨(irqHandler s.buffer.kbd code).1, .scan code :: s.buffer.past⟩ } := by
  obtain ⟨hshift, hcaps⟩ := irqHandler_modifiers h.shift h.caps code
  have hafter : afterScans (scans (.scan code :: s.buffer.past)) =
      (irqHandler (afterScans (scans s.buffer.past)) code).1 := by
    simp [afterScans, scans]
  -- with the new modifiers the old codes still translate to the same characters
  have hsame : s.reads.flatMap (Reading.finish behind (irqHandler s.buffer.kbd code).1) ++
      (waiting s.buffer.past).map (kbdDecode behind (irqHandler s.buffer.kbd code).1) =
        typed behind (scans s.buffer.past) := by
    rw [← h.chars]
    by_cases hchange : (irqHandler s.buffer.kbd code).1.shift ≠ s.buffer.kbd.shift ∨
        (irqHandler s.buffer.kbd code).1.caps ≠ s.buffer.kbd.caps
    · obtain ⟨hnone, hreturned⟩ := hsettled code rfl hchange
      rw [hnone, List.map_nil, List.map_nil, List.append_nil, List.append_nil]
      apply List.flatMap_congr
      intro r hr
      rw [Reading.finish_of_returned (hreturned r hr), Reading.finish_of_returned (hreturned r hr)]
    · rw [not_or, not_not, not_not] at hchange
      have hdecode := kbdDecode_congr behind hchange.1 hchange.2
      unfold Reading.finish
      rw [hdecode]
  refine ⟨h.buffer.irq code, ?_, by rw [hafter]; exact hshift, by rw [hafter]; exact hcaps, ?_⟩
  · dsimp only [waiting]
    split_ifs with hord
    · have := hcall.2 hord
      rw [List.length_append, List.length_singleton]
      omega
    · exact h.few
  · have htyped : typed behind (scans (.scan code :: s.buffer.past)) = _ :=
      typed_append behind (scans s.buffer.past) code
    dsimp only
    rw [htyped, ← hsame]
    rcases irqHandler_cases s.buffer.kbd code with ⟨hord, heq⟩ | ⟨hord, -⟩
    · -- the new key waits with the modifiers of its press
      have hdecode : kbdDecode behind (irqHandler s.buffer.kbd code).1 =
          kbdDecode behind (afterScans (scans s.buffer.past)) := by
        rw [heq]
        exact kbdDecode_congr behind h.shift h.caps
      simp only [waiting, hord, if_true, List.map_append, List.map_cons, List.map_nil,
        List.append_assoc, hdecode]
    · simp [waiting, hord]

/-- A read keeps the invariant. -/
theorem DecodingOk.read (h : DecodingOk behind s) {codes : List ℕ} {kbd : Keyboard}
    (hread : kbdReadLocked s.buffer.kbd = some (codes, kbd)) :
    DecodingOk behind ⟨⟨kbd, .drain codes :: s.buffer.past⟩, s.reads ++ [⟨codes, []⟩]⟩ := by
  have hfew : (waiting s.buffer.past).length < 2 ^ 32 := lt_of_le_of_lt h.few (by decide)
  obtain ⟨-, hkbd, hcodes⟩ := h.buffer.read_eq hfew hread
  have hdecode : kbdDecode behind kbd = kbdDecode behind s.buffer.kbd := by
    rw [hkbd]
    exact kbdDecode_congr behind rfl rfl
  have hfinish : Reading.finish behind kbd = Reading.finish behind s.buffer.kbd := by
    funext r
    unfold Reading.finish
    rw [hdecode]
  refine ⟨h.buffer.read h.few hread, Nat.zero_le _, by rw [hkbd]; exact h.shift,
    by rw [hkbd]; exact h.caps, ?_⟩
  have hchars := h.chars
  rw [← hcodes h.few] at hchars
  dsimp only
  rw [hfinish, List.flatMap_append]
  simpa [Reading.finish, waiting, scans] using hchars

/-- The translation of one code keeps the invariant. -/
theorem DecodingOk.decode (h : DecodingOk behind s) {i : ℕ}
    (hstep : s.step behind (.decode i) = some t) : DecodingOk behind t := by
  obtain ⟨r, hr, hrest⟩ := Option.bind_eq_some_iff.mp hstep
  obtain ⟨code, hcode, rfl⟩ := Option.map_eq_some_iff.mp hrest
  obtain ⟨hlt, hget⟩ := List.getElem?_eq_some_iff.mp hr
  refine ⟨h.buffer, h.few, h.shift, h.caps, ?_⟩
  dsimp only
  rw [← h.chars]
  congr 1
  rw [List.flatMap_def, List.flatMap_def, List.map_set, Reading.finish_decode hcode, ← hget]
  congr 1
  have hlt' : i < (s.reads.map (Reading.finish behind s.buffer.kbd)).length := by
    rwa [List.length_map]
  have hset := List.set_getElem_self hlt'
  rwa [List.getElem_map] at hset

/-- Runs with settled modifiers keep the invariant. -/
theorem decodingOk_of_reaches
    (hrun : Reaches (ReaderRun.step behind) SettledCall .start s) : DecodingOk behind s := by
  apply hrun.invariant
  · have hzero : u32 0 = 0 := by
      unfold u32
      rfl
    exact ⟨⟨trivial, hzero.symm, hzero.symm, Stored.nil⟩, by decide, rfl, rfl, rfl⟩
  · rintro s op t hs ⟨hcall, hsettled⟩ hstep
    cases op with
    | irq code =>
      obtain rfl := Option.some.inj hstep
      exact hs.irq hcall hsettled
    | read =>
      obtain ⟨⟨codes, kbd⟩, hread, rfl⟩ := Option.map_eq_some_iff.mp hstep
      exact hs.read hread
    | decode i => exact hs.decode hstep

/-- When every read has returned, the characters are those that were typed, up to the keys that
are waiting. -/
theorem DecodingOk.chars_append (h : DecodingOk behind s) (hreturned : s.Returned) :
    s.chars ++ (waiting s.buffer.past).map (kbdDecode behind s.buffer.kbd) =
      typed behind (scans s.buffer.past) := by
  rw [← h.chars]
  congr 1
  apply List.flatMap_congr
  intro r hr
  exact (Reading.finish_of_returned (hreturned r hr) _).symm

/-- Two runs of the same scan codes, in both of which the modifiers change only while no key is
waiting and every read has returned: the characters of one run are the beginning of those of
the other, and they are the same if equally many keys are waiting. They are what the scan
codes stand for, each key with the modifiers at its press. -/
theorem kbdRead_chars_settled (behind : Bool → ℕ → ℕ) {s t : ReaderRun}
    (hs : Reaches (ReaderRun.step behind) SettledCall .start s)
    (ht : Reaches (ReaderRun.step behind) SettledCall .start t)
    (hscans : scans s.buffer.past = scans t.buffer.past) (hsr : s.Returned) (htr : t.Returned) :
    (s.chars <+: typed behind (scans s.buffer.past)) ∧
    (s.chars <+: t.chars ∨ t.chars <+: s.chars) ∧
    ((waiting s.buffer.past).length = (waiting t.buffer.past).length → s.chars = t.chars) := by
  have hs' := (decodingOk_of_reaches hs).chars_append hsr
  have ht' := (decodingOk_of_reaches ht).chars_append htr
  have hshorter : s.chars <+: typed behind (scans s.buffer.past) := ⟨_, hs'⟩
  have hlonger : t.chars <+: typed behind (scans s.buffer.past) := by
    rw [hscans]
    exact ⟨_, ht'⟩
  refine ⟨hshorter, List.prefix_or_prefix_of_prefix hshorter hlonger, fun hwaiting => ?_⟩
  have heq := hs'.trans ((congrArg (typed behind) hscans).trans ht'.symm)
  have hlen : s.chars.length = t.chars.length := by
    have := congrArg List.length heq
    rw [List.length_append, List.length_append, List.length_map, List.length_map] at this
    omega
  exact (List.append_inj heq hlen).1

/-- What a run has delivered, with the scan codes, the number of waiting keys, and whether all
reads have returned. -/
def ReaderRun.summary (s : ReaderRun) : List ℕ × List ℕ × ℕ × Bool :=
  (s.chars, scans s.buffer.past, (waiting s.buffer.past).length, decide s.Returned)

/-- Shift and two keys, read at once or one by one, before shift is released. -/
theorem kbdRead_chars_settled_twoKeys :
    ∃ s t, Reaches (ReaderRun.step fun _ _ => 0) SettledCall .start s ∧
      Reaches (ReaderRun.step fun _ _ => 0) SettledCall .start t ∧
      s.reads.length = 1 ∧ t.reads.length = 2 ∧ s.chars = t.chars := by
  have hrun : (runOps (ReaderRun.step fun _ _ => 0) SettledCall .start
      [.irq 0x2A, .irq 0x1E, .irq 0x30, .read, .decode 0, .decode 0, .irq 0xAA]).map
        (fun s => (s.reads.length, s.summary)) =
      some (1, [65, 66], [0x2A, 0x1E, 0x30, 0xAA], 0, true) := by decide +kernel
  have hrun' : (runOps (ReaderRun.step fun _ _ => 0) SettledCall .start
      [.irq 0x2A, .irq 0x1E, .read, .decode 0, .irq 0x30, .read, .decode 1, .irq 0xAA]).map
        (fun s => (s.reads.length, s.summary)) =
      some (2, [65, 66], [0x2A, 0x1E, 0x30, 0xAA], 0, true) := by decide +kernel
  obtain ⟨s, hs, hvalue⟩ := Option.map_eq_some_iff.mp hrun
  obtain ⟨t, ht, hvalue'⟩ := Option.map_eq_some_iff.mp hrun'
  simp only [ReaderRun.summary, Prod.mk.injEq, decide_eq_true_eq] at hvalue hvalue'
  obtain ⟨hreads, -, hscans, hwaiting, hreturned⟩ := hvalue
  obtain ⟨hreads', -, hscans', hwaiting', hreturned'⟩ := hvalue'
  refine ⟨s, t, Reaches.of_runOps hs, Reaches.of_runOps ht, hreads, hreads', ?_⟩
  exact (kbdRead_chars_settled _ (Reaches.of_runOps hs) (Reaches.of_runOps ht)
    (hscans.trans hscans'.symm) hreturned hreturned').2.2 (hwaiting.trans hwaiting'.symm)

/-- Shift, a key, and the release of shift: a read before the release delivers a capital, and a
read after it a small letter. -/
theorem kbdRead_chars_late :
    ∃ s t, Reaches (ReaderRun.step fun _ _ => 0) ReaderCall .start s ∧
      Reaches (ReaderRun.step fun _ _ => 0) ReaderCall .start t ∧
      scans s.buffer.past = scans t.buffer.past ∧ s.Returned ∧ t.Returned ∧
      (waiting s.buffer.past).length = 0 ∧ (waiting t.buffer.past).length = 0 ∧
      s.chars = ['A'.toNat] ∧ t.chars = ['a'.toNat] := by
  have hrun : (runOps (ReaderRun.step fun _ _ => 0) ReaderCall .start
      [.irq 0x2A, .irq 0x1E, .read, .decode 0, .irq 0xAA]).map ReaderRun.summary =
      some (['A'.toNat], [0x2A, 0x1E, 0xAA], 0, true) := by decide +kernel
  have hrun' : (runOps (ReaderRun.step fun _ _ => 0) ReaderCall .start
      [.irq 0x2A, .irq 0x1E, .irq 0xAA, .read, .decode 0]).map ReaderRun.summary =
      some (['a'.toNat], [0x2A, 0x1E, 0xAA], 0, true) := by decide +kernel
  obtain ⟨s, hs, hvalue⟩ := Option.map_eq_some_iff.mp hrun
  obtain ⟨t, ht, hvalue'⟩ := Option.map_eq_some_iff.mp hrun'
  simp only [ReaderRun.summary, Prod.mk.injEq, decide_eq_true_eq] at hvalue hvalue'
  obtain ⟨hchars, hscans, hwaiting, hreturned⟩ := hvalue
  obtain ⟨hchars', hscans', hwaiting', hreturned'⟩ := hvalue'
  exact ⟨s, t, Reaches.of_runOps hs, Reaches.of_runOps ht, hscans.trans hscans'.symm, hreturned,
    hreturned', hwaiting, hwaiting', hchars, hchars'⟩

end Translation

end Smor.Kbd
