import Smor.Lib.Fifo
import Smor.Lib.Runs
import Smor.Types

/-!
# The keyboard driver

`kbd_8042.c` stores key codes in a circular buffer under `kbd.lock` and follows the modifier
keys. `kbd_read` waits until the buffer is not empty, copies it to a local array of the same
size under the lock, and translates the copy afterwards. The positions of the buffer
run freely, and nothing compares their distance with the size. The result says what
follows for the codes: a read is right exactly if at most `KBD_BUFSIZE` codes are waiting.
-/

namespace Smor.Kbd

open Smor.Lib

/-- `KBD_BUFSIZE`. -/
def kbdBufsize : ℕ := 16

/-- The fields of `struct keyboard_t`, without the lock and the condition. -/
structure Keyboard where
  readPos : ℕ
  writePos : ℕ
  buf : ℕ → ℕ
  shift : Bool
  ctrl : Bool
  alt : Bool
  caps : Bool
  num : Bool

/-- The static `kbd` before any interrupt. -/
def Keyboard.init : Keyboard := ⟨0, 0, fun _ => 0, false, false, false, false, false⟩

/-- `kbd_check_special`; `none` where the function returns false. -/
def kbdCheckSpecial (kbd : Keyboard) (key : ℕ) : Option Keyboard :=
  match key with
  | 0x36 | 0x2A => some { kbd with shift := true }
  | 0xB6 | 0xAA => some { kbd with shift := false }
  | 0x1D => some { kbd with ctrl := true }
  | 0x9D => some { kbd with ctrl := false }
  | 0x38 => some { kbd with alt := true }
  | 0xB8 => some { kbd with alt := false }
  | 0x3A | 0x45 => some kbd
  | 0xBA => some { kbd with caps := !kbd.caps }
  | 0xC5 => some { kbd with num := !kbd.num }
  | 0xE0 => some kbd
  | _ => none

/-- The store of `irq_handler`, under `kbd.lock`. -/
def kbdStore (kbd : Keyboard) (code : ℕ) : Keyboard :=
  { kbd with
    buf := Function.update kbd.buf (kbd.writePos % kbdBufsize) code
    writePos := u32 (kbd.writePos + 1) }

/-- `irq_handler`, with the scan code that it reads from the port, up to its `cond_signal`. The
flag says whether it gets there. -/
def irqHandler (kbd : Keyboard) (code : ℕ) : Keyboard × Bool :=
  match kbdCheckSpecial kbd code with
  | some kbd => (kbd, false)
  | none => if code &&& 0x80 ≠ 0 then (kbd, false) else (kbdStore kbd code, true)

/-- The loop of `kbd_read` that copies the buffer, with a bound on its rounds. -/
def kbdCopy : ℕ → Keyboard → List ℕ × Keyboard
  | 0, kbd => ([], kbd)
  | rounds + 1, kbd =>
    if kbd.readPos < kbd.writePos then
      let code := kbd.buf (kbd.readPos % kbdBufsize)
      let (codes, kbd) := kbdCopy rounds { kbd with readPos := u32 (kbd.readPos + 1) }
      (code :: codes, kbd)
    else ([], kbd)

/-- `kbd_read` while it holds `kbd.lock`: `none` if it has to wait, and else the local copy. The
copy has room for `KBD_BUFSIZE` codes; a longer one has overrun the stack. -/
def kbdReadLocked (kbd : Keyboard) : Option (List ℕ × Keyboard) :=
  if kbd.writePos ≤ kbd.readPos then none else some (kbdCopy (kbd.writePos - kbd.readPos) kbd)

/-- The codes that `irq_handler` stores: neither modifier keys nor releases. -/
def ordinary (code : ℕ) : Bool := (kbdCheckSpecial .init code).isNone && code &&& 0x80 == 0

/-- What happens at the keyboard: a scan code arrives, or a read copies the buffer. -/
inductive Event where
  | scan (code : ℕ)
  | drain (codes : List ℕ)
  deriving DecidableEq

/-- All key presses of a history, which has the latest event first. -/
def keys : List Event → List ℕ
  | [] => []
  | .scan code :: past => if ordinary code then keys past ++ [code] else keys past
  | .drain _ :: past => keys past

/-- The codes that the reads of a history have copied, one read after the other. -/
def readCodes : List Event → List ℕ
  | [] => []
  | .scan _ :: past => readCodes past
  | .drain codes :: past => readCodes past ++ codes

/-- The key presses since the last read. -/
def waiting : List Event → List ℕ
  | [] => []
  | .scan code :: past => if ordinary code then waiting past ++ [code] else waiting past
  | .drain _ :: _ => []

/-- Every read of a history copies exactly the key presses since the read before it, and it
stays inside its array. -/
def ReadsExact : List Event → Prop
  | [] => True
  | .scan _ :: past => ReadsExact past
  | .drain codes :: past => codes = waiting past ∧ codes.length ≤ kbdBufsize ∧ ReadsExact past

/-- The keyboard and what has happened to it. -/
structure BufferRun where
  kbd : Keyboard
  past : List Event

/-- The start of a history. -/
def BufferRun.start : BufferRun := ⟨.init, []⟩

/-- The steps that change the buffer: an interrupt, and the part of `kbd_read` that copies. -/
inductive BufferOp where
  | irq (code : ℕ)
  | read
  deriving DecidableEq

/-- One step; a read that has to wait is no step. -/
def BufferRun.step (s : BufferRun) : BufferOp → Option BufferRun
  | .irq code => some ⟨(irqHandler s.kbd code).1, .scan code :: s.past⟩
  | .read => (kbdReadLocked s.kbd).map fun (codes, kbd) => ⟨kbd, .drain codes :: s.past⟩

/-- Scan codes are bytes, and there are fewer than 2^32 key presses. -/
def BufferCall (s : BufferRun) : BufferOp → Prop
  | .irq code => code < 256 ∧ (keys s.past).length + 1 < 2 ^ 32
  | .read => True

/-- A read finds at most as many codes as its array holds. -/
def ReadFits (s : BufferRun) (op : BufferOp) : Prop :=
  op = .read → s.kbd.writePos - s.kbd.readPos ≤ kbdBufsize

/-- The steps of a run whose reads all fit. -/
def FittingCall (s : BufferRun) (op : BufferOp) : Prop := BufferCall s op ∧ ReadFits s op

instance (s : BufferRun) (op : BufferOp) : Decidable (BufferCall s op) :=
  match op with
  | .irq _ => inferInstanceAs (Decidable (_ ∧ _))
  | .read => inferInstanceAs (Decidable True)

instance (s : BufferRun) (op : BufferOp) : Decidable (FittingCall s op) :=
  inferInstanceAs (Decidable (_ ∧ (_ → _)))

section Codes

/-- Whether a code is special does not depend on the keyboard. -/
theorem kbdCheckSpecial_isNone (kbd : Keyboard) (code : ℕ) :
    (kbdCheckSpecial kbd code).isNone = (kbdCheckSpecial .init code).isNone := by
  unfold kbdCheckSpecial
  split <;> rfl

/-- A special code changes neither the buffer nor its positions. -/
theorem kbdCheckSpecial_buffer {kbd kbd' : Keyboard} {code : ℕ}
    (h : kbdCheckSpecial kbd code = some kbd') :
    kbd'.readPos = kbd.readPos ∧ kbd'.writePos = kbd.writePos ∧ kbd'.buf = kbd.buf := by
  unfold kbdCheckSpecial at h
  split at h <;> cases h <;> exact ⟨rfl, rfl, rfl⟩

/-- What the interrupt does: an ordinary code is stored and signalled, and any other code changes
modifiers at most. -/
theorem irqHandler_cases (kbd : Keyboard) (code : ℕ) :
    (ordinary code = true ∧ irqHandler kbd code = (kbdStore kbd code, true)) ∨
    (ordinary code = false ∧ (irqHandler kbd code).2 = false ∧
      (irqHandler kbd code).1.readPos = kbd.readPos ∧
      (irqHandler kbd code).1.writePos = kbd.writePos ∧ (irqHandler kbd code).1.buf = kbd.buf) := by
  have hspecial := kbdCheckSpecial_isNone kbd code
  unfold irqHandler ordinary
  cases hcase : kbdCheckSpecial kbd code with
  | some kbd' =>
    rw [hcase] at hspecial
    obtain ⟨hread, hwrite, hbuf⟩ := kbdCheckSpecial_buffer hcase
    right
    rw [← hspecial]
    exact ⟨rfl, rfl, hread, hwrite, hbuf⟩
  | none =>
    rw [hcase] at hspecial
    rw [← hspecial]
    by_cases hrelease : code &&& 0x80 ≠ 0
    · right
      simp [hrelease]
    · rw [not_not] at hrelease
      left
      simp [hrelease]

/-- The copy is the buffer between the two positions. -/
theorem kbdCopy_eq {rounds : ℕ} {kbd : Keyboard} (hrounds : kbd.readPos + rounds = kbd.writePos)
    (hwrite : kbd.writePos < 2 ^ 32) :
    kbdCopy rounds kbd =
      ((List.range rounds).map (fun i => kbd.buf ((kbd.readPos + i) % kbdBufsize)),
        { kbd with readPos := kbd.writePos }) := by
  induction rounds generalizing kbd with
  | zero =>
    cases kbd
    dsimp only at hrounds
    rw [Nat.add_zero] at hrounds
    subst hrounds
    rfl
  | succ rounds ih =>
    have hnext : u32 (kbd.readPos + 1) = kbd.readPos + 1 := by
      rw [u32, Nat.mod_eq_of_lt (by omega)]
    have hrest := @ih { kbd with readPos := kbd.readPos + 1 } (by dsimp only; omega) hwrite
    rw [kbdCopy, if_pos (by omega), hnext, hrest]
    dsimp only
    rw [List.range_succ_eq_map, List.map_cons, List.map_map, Nat.add_zero]
    refine Prod.ext ?_ rfl
    dsimp only
    rw [List.cons.injEq]
    refine ⟨rfl, List.map_congr_left fun i _ => ?_⟩
    rw [Function.comp_apply, Nat.succ_eq_add_one, Nat.add_right_comm, Nat.add_assoc]

end Codes

section Histories

/-- What has been read and what is waiting make up the key presses. -/
theorem readCodes_append_waiting {past : List Event} (h : ReadsExact past) :
    readCodes past ++ waiting past = keys past := by
  induction past with
  | nil => rfl
  | cons event past ih =>
    cases event with
    | scan code =>
      have hpast := ih h
      by_cases hord : ordinary code = true
      · simp only [readCodes, waiting, keys, if_pos hord, ← hpast, List.append_assoc]
      · simpa only [readCodes, waiting, keys, if_neg hord] using hpast
    | drain codes =>
      obtain ⟨rfl, -, hpast⟩ := h
      simp only [readCodes, waiting, keys, List.append_nil]
      exact ih hpast

/-- The waiting codes are the last key presses. -/
theorem waiting_eq_drop {past : List Event} (h : ReadsExact past) :
    waiting past = (keys past).drop (readCodes past).length := by
  rw [← readCodes_append_waiting h, List.drop_left]

variable {s t : BufferRun}

/-- The positions count the key presses and the codes read, in 32 bits, and the buffer holds the
latest key presses. -/
structure BufferOk (s : BufferRun) : Prop where
  exact : ReadsExact s.past
  writePos : s.kbd.writePos = u32 (keys s.past).length
  readPos : s.kbd.readPos = u32 (readCodes s.past).length
  stored : Stored kbdBufsize s.kbd.buf (keys s.past)

/-- The key presses are those that have been read and those that are waiting. -/
theorem BufferOk.length_keys (h : BufferOk s) :
    (keys s.past).length = (readCodes s.past).length + (waiting s.past).length := by
  rw [← readCodes_append_waiting h.exact, List.length_append]

/-- What a read copies. -/
theorem BufferOk.read_eq (h : BufferOk s) (hfew : (waiting s.past).length < 2 ^ 32)
    {codes : List ℕ} {kbd : Keyboard} (hread : kbdReadLocked s.kbd = some (codes, kbd)) :
    codes.length = (waiting s.past).length ∧ kbd = { s.kbd with readPos := s.kbd.writePos } ∧
      ((waiting s.past).length ≤ kbdBufsize → codes = waiting s.past) := by
  have hlen := h.length_keys
  have hwrite := h.writePos
  have hreadPos := h.readPos
  unfold kbdReadLocked at hread
  split_ifs at hread with hempty
  -- the positions have not wrapped around between them
  have hdistance : s.kbd.writePos - s.kbd.readPos = (waiting s.past).length := by
    rw [hwrite, hreadPos] at hempty ⊢
    unfold u32 at hempty ⊢
    omega
  have hwrap : s.kbd.writePos < 2 ^ 32 := by
    rw [hwrite, u32]
    exact Nat.mod_lt _ (by decide)
  rw [Option.some.injEq, kbdCopy_eq (by omega) hwrap, Prod.mk.injEq] at hread
  obtain ⟨rfl, rfl⟩ := hread
  refine ⟨?_, rfl, fun hfits => ?_⟩
  · rw [List.length_map, List.length_range, hdistance]
  · have hindex : ∀ i, (s.kbd.readPos + i) % kbdBufsize =
        ((readCodes s.past).length + i) % kbdBufsize := by
      intro i
      rw [hreadPos]
      simp only [u32, kbdBufsize]
      omega
    simp only [hindex]
    rw [hdistance, waiting_eq_drop h.exact,
      ← h.stored.read (show (keys s.past).length ≤ (readCodes s.past).length + kbdBufsize by omega),
      List.length_map, List.length_range]

/-- An interrupt keeps the buffer in order, however many codes are waiting. -/
theorem BufferOk.irq (h : BufferOk s) (code : ℕ) :
    BufferOk ⟨(irqHandler s.kbd code).1, .scan code :: s.past⟩ := by
  rcases irqHandler_cases s.kbd code with ⟨hord, heq⟩ | ⟨hord, -, hread, hwrite, hbuf⟩
  · have hkeys : keys (.scan code :: s.past) = keys s.past ++ [code] := by simp [keys, hord]
    rw [heq]
    refine ⟨h.exact, ?_, h.readPos, ?_⟩
    · dsimp only [kbdStore]
      rw [hkeys, List.length_append, List.length_singleton, h.writePos]
      unfold u32
      omega
    · have hslot : u32 (keys s.past).length % kbdBufsize = (keys s.past).length % kbdBufsize := by
        simp only [u32, kbdBufsize]
        omega
      dsimp only [kbdStore]
      rw [hkeys, h.writePos, hslot]
      exact h.stored.push code
  · have hkeys : keys (.scan code :: s.past) = keys s.past := by simp [keys, hord]
    refine ⟨h.exact, ?_, hread.trans h.readPos, ?_⟩
    · dsimp only
      rw [hkeys, hwrite, h.writePos]
    · dsimp only
      rw [hkeys, hbuf]
      exact h.stored

/-- A read that fits keeps the buffer in order. -/
theorem BufferOk.read (h : BufferOk s) (hfits : (waiting s.past).length ≤ kbdBufsize)
    {codes : List ℕ} {kbd : Keyboard} (hread : kbdReadLocked s.kbd = some (codes, kbd)) :
    BufferOk ⟨kbd, .drain codes :: s.past⟩ := by
  have hfew : (waiting s.past).length < 2 ^ 32 := lt_of_le_of_lt hfits (by decide)
  obtain ⟨hlen, rfl, hcodes⟩ := h.read_eq hfew hread
  have hexact : ReadsExact (.drain codes :: s.past) := ⟨hcodes hfits, by omega, h.exact⟩
  refine ⟨hexact, h.writePos, ?_, h.stored⟩
  have hall := readCodes_append_waiting hexact
  simp only [waiting, keys, List.append_nil] at hall
  dsimp only
  rw [hall, h.writePos]

/-- With fewer than 2^32 key presses the distance of the positions is the number of waiting
codes. -/
theorem BufferOk.distance (h : BufferOk s) (hfew : (keys s.past).length < 2 ^ 32) :
    s.kbd.writePos - s.kbd.readPos = (waiting s.past).length := by
  have hlen := h.length_keys
  rw [h.writePos, h.readPos]
  unfold u32
  omega

/-- A read that does not have to wait finds a key. -/
theorem BufferOk.waiting_ne_nil (h : BufferOk s) {r : List ℕ × Keyboard}
    (hread : kbdReadLocked s.kbd = some r) : waiting s.past ≠ [] := by
  intro hnone
  have hlength := h.length_keys
  rw [hnone, List.length_nil, Nat.add_zero] at hlength
  have hempty : s.kbd.writePos ≤ s.kbd.readPos := by
    rw [h.writePos, h.readPos, hlength]
  rw [kbdReadLocked, if_pos hempty] at hread
  cases hread

/-- Runs whose reads all fit keep the buffer in order. -/
theorem bufferOk_of_reaches (hrun : Reaches BufferRun.step FittingCall .start s) :
    BufferOk s ∧ (keys s.past).length < 2 ^ 32 := by
  apply hrun.invariant (I := fun s => BufferOk s ∧ (keys s.past).length < 2 ^ 32)
  · have hzero : u32 0 = 0 := by
      unfold u32
      rfl
    exact ⟨⟨trivial, hzero.symm, hzero.symm, Stored.nil⟩, by decide⟩
  · rintro s op t ⟨hs, hfew⟩ ⟨hcall, hfits⟩ hstep
    cases op with
    | irq code =>
      obtain rfl := Option.some.inj hstep
      refine ⟨hs.irq code, ?_⟩
      dsimp only [keys]
      split_ifs
      · rw [List.length_append, List.length_singleton]
        exact hcall.2
      · exact hfew
    | read =>
      obtain ⟨⟨codes, kbd⟩, hread, rfl⟩ := Option.map_eq_some_iff.mp hstep
      refine ⟨hs.read ?_ hread, hfew⟩
      rw [← hs.distance hfew]
      exact hfits rfl

end Histories

/-- In every run of interrupts and reads in which no read finds more codes waiting than its
array holds, every read copies exactly the key presses since the read before it, and what is
read and what is waiting make up the key presses. From every state of such a run, a read
keeps this if and only if it finds at most `KBD_BUFSIZE` codes. -/
theorem kbdRead_exact_iff {s : BufferRun} (hrun : Reaches BufferRun.step FittingCall .start s) :
    (ReadsExact s.past ∧ readCodes s.past ++ waiting s.past = keys s.past) ∧
    ∀ t, s.step .read = some t →
      (ReadsExact t.past ↔ s.kbd.writePos - s.kbd.readPos ≤ kbdBufsize) := by
  obtain ⟨hok, hfew⟩ := bufferOk_of_reaches hrun
  refine ⟨⟨hok.exact, readCodes_append_waiting hok.exact⟩, fun t hstep => ?_⟩
  obtain ⟨⟨codes, kbd⟩, hread, rfl⟩ := Option.map_eq_some_iff.mp hstep
  rw [hok.distance hfew]
  constructor
  · rintro ⟨rfl, hlen, -⟩
    exact hlen
  · intro hfits
    exact (hok.read hfits hread).exact

/-- Two keys, a read, and a third key. -/
theorem kbdRead_exact_iff_threeKeys :
    ∃ s, Reaches BufferRun.step FittingCall .start s ∧ readCodes s.past = [0x1E, 0x30] ∧
      waiting s.past = [0x2E] ∧ ReadsExact s.past := by
  have hrun : (runOps BufferRun.step FittingCall .start
      [.irq 0x1E, .irq 0x9E, .irq 0x30, .read, .irq 0x2E]).map
        (fun s => (readCodes s.past, waiting s.past)) = some ([0x1E, 0x30], [0x2E]) := by
    decide +kernel
  obtain ⟨s, hs, hvalue⟩ := Option.map_eq_some_iff.mp hrun
  obtain ⟨hread, hwaiting⟩ := Prod.mk.inj hvalue
  have hreach := Reaches.of_runOps hs
  exact ⟨s, hreach, hread, hwaiting, (kbdRead_exact_iff hreach).1.1⟩

/-- After seventeen key presses a read copies seventeen codes. The first of them has been
overwritten by the last, and the last has been written behind the end of the array. -/
theorem kbdRead_overruns :
    ∃ s, Reaches BufferRun.step BufferCall .start s ∧
      keys s.past = [2, 3, 4, 5, 6, 7, 8, 9, 10, 11, 12, 13, 14, 15, 16, 17, 18] ∧
      readCodes s.past = [18, 3, 4, 5, 6, 7, 8, 9, 10, 11, 12, 13, 14, 15, 16, 17, 18] ∧
      ¬ReadsExact s.past := by
  have hrun : (runOps BufferRun.step BufferCall .start
      ((List.range' 2 17).map .irq ++ [.read])).map (fun s =>
        (keys s.past, readCodes s.past, s.past.head?)) =
      some ([2, 3, 4, 5, 6, 7, 8, 9, 10, 11, 12, 13, 14, 15, 16, 17, 18],
        [18, 3, 4, 5, 6, 7, 8, 9, 10, 11, 12, 13, 14, 15, 16, 17, 18],
        some (.drain [18, 3, 4, 5, 6, 7, 8, 9, 10, 11, 12, 13, 14, 15, 16, 17, 18])) := by
    decide +kernel
  obtain ⟨s, hs, hvalue⟩ := Option.map_eq_some_iff.mp hrun
  simp only [Prod.mk.injEq] at hvalue
  obtain ⟨hkeys, hread, hhead⟩ := hvalue
  refine ⟨s, Reaches.of_runOps hs, hkeys, hread, fun hexact => ?_⟩
  obtain ⟨rest, hpast⟩ := List.head?_eq_some_iff.mp hhead
  rw [hpast] at hexact
  exact absurd hexact.2.1 (by decide)

end Smor.Kbd
