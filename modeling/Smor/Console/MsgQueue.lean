import Mathlib.Logic.Function.Basic
import Mathlib.Tactic.SplitIfs
import Smor.Types

/-!
# The message queue of the console

`console.c` has a second way to print: the text is copied to a buffer, a message that says where
it lies is put in a ring, and one of the callers takes the messages out again. Space in the buffer
is handed out by a position that goes back to the start when the text does not fit behind it.
A function whose check fails has the result `none`.
-/

namespace Smor.Console

/-- `MAX_CONSOLE_BUF`. -/
def maxConsoleBuf : ℕ := 65536

/-- `struct cons_buffer_t`. -/
structure ConsBuffer where
  pos : ℕ
  buf : ℕ → BitVec 8

/-- `cons_buffer_alloc`. When the buffer wraps around, the position stays at the start. -/
def consBufferAlloc (b : ConsBuffer) (size : ℕ) : Option (ℕ × ConsBuffer) :=
  if u32 (b.pos + size) ≤ maxConsoleBuf then
    some (b.pos, { b with pos := u32 (b.pos + size) })
  else if size < maxConsoleBuf then some (0, { b with pos := 0 })
  else none

/-- `struct cons_msg_t`. -/
structure ConsMsg where
  pos : ℕ
  size : ℕ
  deriving DecidableEq

/-- `MAX_MSG_QUEUE`. -/
def maxMsgQueue : ℕ := 32

/-- `struct cons_msg_queue_t`, without its lock. -/
structure ConsMsgQueue where
  msg : ℕ → ConsMsg
  writePos : ℕ
  readPos : ℕ
  runLock : ℕ

/-- The element of the ring for a position: `pos & (MAX_MSG_QUEUE-1)`. -/
def msgIndex (pos : ℕ) : ℕ := pos &&& (maxMsgQueue - 1)

/-- `cons_msg_push`. -/
def consMsgPush (q : ConsMsgQueue) (pos size : ℕ) : ConsMsgQueue :=
  { q with
    writePos := u32 (q.writePos + 1)
    msg := Function.update q.msg (msgIndex q.writePos) ⟨pos, size⟩ }

/-- `cons_msg_pop`: the element of the ring that is returned, if any. -/
def consMsgPop (q : ConsMsgQueue) : Option ℕ × ConsMsgQueue :=
  if q.readPos < q.writePos then
    (some (msgIndex q.readPos), { q with readPos := u32 (q.readPos + 1) })
  else (none, q)

/-- `cons_buf` and `cons_msg_queue`. -/
structure ConsMsgs where
  buffer : ConsBuffer
  queue : ConsMsgQueue

/-- `memcpy(&cons_buf.buf[pos], str, len)`. -/
def copyStr (buf : ℕ → BitVec 8) (pos : ℕ) (str : List (BitVec 8)) : ℕ → BitVec 8 := fun k =>
  if pos ≤ k ∧ k < pos + str.length then str.getD (k - pos) 0 else buf k

/-- `cons_msg_putstr`. The length is that of the string. -/
def consMsgPutstr (c : ConsMsgs) (str : List (BitVec 8)) : Option ConsMsgs :=
  (consBufferAlloc c.buffer str.length).map fun (pos, buffer) =>
    { buffer := { buffer with buf := copyStr buffer.buf pos str }
      queue := consMsgPush c.queue pos str.length }

/-- `compare_and_swap_32`: the value before and the value afterwards. -/
def compareAndSwap32 (val oldVal newVal : ℕ) : ℕ × ℕ := (val, if val = oldVal then newVal else val)

section Functions

variable {q : ConsMsgQueue} {c c' : ConsMsgs} {str : List (BitVec 8)}

theorem msgIndex_eq (pos : ℕ) : msgIndex pos = pos % 32 := Nat.and_two_pow_sub_one_eq_mod pos 5

/-- A new message is counted, whatever its text is. -/
theorem consMsgPutstr_positions (h : consMsgPutstr c str = some c') :
    c'.queue.writePos = u32 (c.queue.writePos + 1) ∧ c'.queue.readPos = c.queue.readPos ∧
      c'.queue.runLock = c.queue.runLock := by
  obtain ⟨⟨pos, buffer⟩, -, rfl⟩ := Option.map_eq_some_iff.mp h
  exact ⟨rfl, rfl, rfl⟩

/-- The position that is read next does not pass the one that was found to lie ahead. -/
theorem u32_succ_le {readPos writePos : ℕ} (hlt : readPos < writePos) :
    u32 (readPos + 1) ≤ writePos := by
  unfold u32
  exact Nat.le_trans (Nat.mod_le _ _) hlt

/-- What `cons_msg_pop` does. -/
theorem consMsgPop_cases :
    (q.readPos < q.writePos ∧
      consMsgPop q = (some (msgIndex q.readPos), { q with readPos := u32 (q.readPos + 1) })) ∨
    (¬ q.readPos < q.writePos ∧ consMsgPop q = (none, q)) := by
  unfold consMsgPop
  split_ifs with hlt
  · exact Or.inl ⟨hlt, rfl⟩
  · exact Or.inr ⟨hlt, rfl⟩

end Functions

end Smor.Console
