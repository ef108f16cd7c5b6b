import Mathlib.Order.CompletePartialOrder
import Mathlib.Order.Interval.Set.Disjoint
import Smor.Console.MsgQueue
import Smor.Lib.Fifo
import Smor.Lib.Runs

/-!
# Messages that wait in the console buffer

A message in the ring only says where its text lies, and nothing records when the text is no longer
needed. While the text of the waiting messages is at most half of the buffer, one that goes back to
the start does not reach them. But the position stays at the start then, so the next text is
copied over the one that went back, unless that message has been taken before.
-/

namespace Smor.Console

open Smor.Lib

/-- A call of `cons_msg_putstr` or of `cons_msg_pop`. -/
inductive ConsOp
  | put (str : List (BitVec 8))
  | pop

/-- The buffer and the queue, and the strings of the messages that have been put and not been
popped, the oldest first. -/
structure Traffic where
  msgs : ConsMsgs
  sent : List (List (BitVec 8))

/-- Before the first message. -/
def Traffic.init (buf : ℕ → BitVec 8) : Traffic :=
  ⟨⟨⟨0, buf⟩, ⟨fun _ => ⟨0, 0⟩, 0, 0, 0⟩⟩, []⟩

/-- One call; `none` if a check fails. -/
def Traffic.step (t : Traffic) : ConsOp → Option Traffic
  | .put str => (consMsgPutstr t.msgs str).map fun msgs => ⟨msgs, t.sent ++ [str]⟩
  | .pop =>
    let r := consMsgPop t.msgs.queue
    some ⟨{ t.msgs with queue := r.2 }, if r.1.isSome then t.sent.tail else t.sent⟩

/-- The messages of the queue from `read_pos` on. -/
def waiting (q : ConsMsgQueue) (n : ℕ) : List ConsMsg :=
  (List.range n).map fun k => q.msg (msgIndex (u32 (q.readPos + k)))

/-- The messages that have been put and not been popped, the oldest first. -/
def Traffic.outstanding (t : Traffic) : List ConsMsg := waiting t.msgs.queue t.sent.length

/-- The part of the buffer that a message refers to. -/
def ConsMsg.range (m : ConsMsg) : Set ℕ := Set.Ico m.pos (m.pos + m.size)

/-- What the buffer holds there. -/
def ConsMsg.bytes (m : ConsMsg) (buf : ℕ → BitVec 8) : List (BitVec 8) :=
  (List.range m.size).map fun k => buf (m.pos + k)

/-- No text is lost: the outstanding messages refer to disjoint parts of the buffer that hold their
strings, and the message that the next `cons_msg_pop` returns, if any, is the oldest of them. -/
structure Intact (t : Traffic) : Prop where
  apart : t.outstanding.Pairwise fun m m' => Disjoint m.range m'.range
  texts : t.outstanding.map (fun m => m.bytes t.msgs.buffer.buf) = t.sent
  oldest : ∀ i q, consMsgPop t.msgs.queue = (some i, q) →
    (t.msgs.queue.msg i).bytes t.msgs.buffer.buf ∈ t.sent.head?

/-- What the callers see to: a message is shorter than the buffer, and with it at most
`MAX_MSG_QUEUE` messages and half of the buffer are outstanding. -/
def Allowed (t : Traffic) : ConsOp → Prop
  | .put str =>
    str.length < maxConsoleBuf ∧ t.sent.length + 1 ≤ maxMsgQueue ∧
      ((t.sent ++ [str]).map List.length).sum ≤ maxConsoleBuf / 2
  | .pop => True

instance (t : Traffic) : ∀ op, Decidable (Allowed t op)
  | .put _ => inferInstanceAs (Decidable (_ ∧ _ ∧ _))
  | .pop => inferInstanceAs (Decidable True)

/-- No text is put while the position is at the start and a text there is still outstanding. -/
def StartClear (t : Traffic) : ConsOp → Prop
  | .put str => str ≠ [] → t.msgs.buffer.pos = 0 → ∀ m ∈ t.outstanding, m.pos = 0 → m.size = 0
  | .pop => True

section Ring

variable {q q' : ConsMsgQueue} {ms : List ConsMsg} {i pos size : ℕ}

/-- The messages that wait in the queue. The ring holds the latest messages of all that were ever
put, and `d` of these have been popped. -/
def Queued (q : ConsMsgQueue) (ms : List ConsMsg) : Prop :=
  ∃ all d, all.drop d = ms ∧ d + ms.length = all.length ∧ ms.length ≤ maxMsgQueue ∧
    Stored maxMsgQueue q.msg all ∧ q.writePos = u32 all.length ∧ q.readPos = u32 d

/-- The ring is found by the positions although these wrap. -/
theorem msgIndex_u32 (n : ℕ) : msgIndex (u32 n) = n % maxMsgQueue := by
  rw [msgIndex_eq, maxMsgQueue]
  unfold u32
  omega

theorem u32_add_u32 (d k : ℕ) : u32 (u32 d + k) = u32 (d + k) := by
  unfold u32
  omega

theorem Queued.waiting (h : Queued q ms) : waiting q ms.length = ms := by
  obtain ⟨all, d, hdrop, hlen, hroom, hstored, -, hread⟩ := h
  have hall := hstored.read (d := d) (by omega)
  rw [hdrop, show all.length - d = ms.length by omega] at hall
  rw [Console.waiting, ← hall, List.length_map, List.length_range]
  refine List.map_congr_left fun k _ => ?_
  rw [hread, u32_add_u32, msgIndex_u32]

/-- A message that is put waits behind the others. -/
theorem Queued.push (h : Queued q ms) (hroom : ms.length + 1 ≤ maxMsgQueue) :
    Queued (consMsgPush q pos size) (ms ++ [⟨pos, size⟩]) := by
  obtain ⟨all, d, hdrop, hlen, -, hstored, hwrite, hread⟩ := h
  refine ⟨all ++ [⟨pos, size⟩], d, ?_, ?_, ?_, ?_, ?_, hread⟩
  · rw [List.drop_append_of_le_length (by omega), hdrop]
  · rw [List.length_append, List.length_append, List.length_singleton]
    omega
  · rwa [List.length_append, List.length_singleton]
  · have hpush := hstored.push ⟨pos, size⟩
    rwa [← msgIndex_u32, ← hwrite] at hpush
  · rw [List.length_append, List.length_singleton, consMsgPush, hwrite, u32_add_u32]

/-- A message that is popped is the oldest one. -/
theorem Queued.pop (h : Queued q ms) (hpop : consMsgPop q = (some i, q')) :
    ∃ rest, ms = q.msg i :: rest ∧ Queued q' rest := by
  rcases consMsgPop_cases (q := q) with ⟨hlt, hsome⟩ | ⟨-, hnone⟩
  · rw [hsome, Prod.mk.injEq, Option.some.injEq] at hpop
    obtain ⟨rfl, rfl⟩ := hpop
    obtain ⟨all, d, hdrop, hlen, hroom, hstored, hwrite, hread⟩ := h
    cases ms with
    | nil =>
      rw [hwrite, hread, ← hlen] at hlt
      exact absurd hlt (lt_irrefl _)
    | cons m rest =>
      rw [List.length_cons] at hlen hroom
      have hhead : all[d]? = some m := by
        have hdropped := @List.getElem?_drop _ all d 0
        rw [hdrop, List.getElem?_cons_zero, Nat.add_zero] at hdropped
        exact hdropped.symm
      have hfirst : q.msg (msgIndex q.readPos) = m := by
        rw [hstored d (by omega) (by omega), Option.some.injEq] at hhead
        rw [hread, msgIndex_u32, hhead]
      refine ⟨rest, by rw [hfirst], all, d + 1, ?_, by omega, by omega, hstored, hwrite, ?_⟩
      · rw [← List.drop_drop, hdrop, List.drop_one, List.tail_cons]
      · rw [hread, u32_add_u32]
  · rw [hnone] at hpop
    cases hpop

end Ring

section Layout

variable {a b pos size : ℕ} {m : ConsMsg} {ms : List ConsMsg}

/-- The messages lie behind one another from `a` to `b`. -/
def Contiguous : ℕ → List ConsMsg → ℕ → Prop
  | a, [], b => a = b
  | a, m :: ms, b => m.pos = a ∧ Contiguous (a + m.size) ms b

namespace Contiguous

theorem append (h : Contiguous a ms b) (hm : m.pos = b) :
    Contiguous a (ms ++ [m]) (b + m.size) := by
  induction ms generalizing a with
  | nil =>
    obtain rfl : a = b := h
    exact ⟨hm, rfl⟩
  | cons x ms ih => exact ⟨h.1, ih h.2⟩

theorem total (h : Contiguous a ms b) : b = a + (ms.map ConsMsg.size).sum := by
  induction ms generalizing a with
  | nil => exact h.symm
  | cons x ms ih =>
    rw [ih h.2, List.map_cons, List.sum_cons, Nat.add_assoc]

theorem within (h : Contiguous a ms b) (hm : m ∈ ms) : a ≤ m.pos ∧ m.pos + m.size ≤ b := by
  induction ms generalizing a with
  | nil => cases hm
  | cons x ms ih =>
    obtain ⟨hx, hrest⟩ := h
    rcases List.mem_cons.mp hm with rfl | hm
    · have hend := hrest.total
      omega
    · have hlater := ih hrest hm
      omega

theorem apart (h : Contiguous a ms b) : ms.Pairwise fun m m' => Disjoint m.range m'.range := by
  induction ms generalizing a with
  | nil => exact List.Pairwise.nil
  | cons x ms ih =>
    obtain ⟨hx, hrest⟩ := h
    refine List.Pairwise.cons (fun m hm => ?_) (ih hrest)
    rw [Set.disjoint_left]
    intro k hk hk'
    have hlater := hrest.within hm
    have hbelow := hk.2
    have habove := hk'.1
    omega

end Contiguous

/-- How the outstanding messages lie in the buffer, by its position. Either they end at the
position, or the position is at the start and one of them lies there, in front of all that are
older, and those after it are empty. -/
inductive Layout : ℕ → List ConsMsg → Prop
  | straight {pos : ℕ} {ms : List ConsMsg} (a : ℕ) (hms : Contiguous a ms pos)
      (hpos : pos ≤ maxConsoleBuf) : Layout pos ms
  | back {old empties : List ConsMsg} {m : ConsMsg} (a b : ℕ) (hold : Contiguous a old b)
      (hb : b ≤ maxConsoleBuf) (hm : m.pos = 0) (hsize : 0 < m.size) (hfits : m.size ≤ a)
      (hempties : ∀ e ∈ empties, e.pos = 0 ∧ e.size = 0) : Layout 0 (old ++ m :: empties)

namespace Layout

theorem pos_le (h : Layout pos ms) : pos ≤ maxConsoleBuf := by
  cases h with
  | straight a hms hpos => exact hpos
  | back => exact Nat.zero_le _

/-- The parts of the outstanding messages are disjoint. -/
theorem apart (h : Layout pos ms) : ms.Pairwise fun m m' => Disjoint m.range m'.range := by
  cases h with
  | straight a hms hpos => exact hms.apart
  | back a b hold hb hm hsize hfits hempties =>
    rename_i old empties m
    have hempty : ∀ e ∈ empties, e.range = ∅ := by
      intro e he
      rw [ConsMsg.range, (hempties e he).2, Nat.add_zero, Set.Ico_self]
    refine List.pairwise_append.mpr ⟨hold.apart, List.Pairwise.cons ?_ ?_, ?_⟩
    · intro e he
      rw [hempty e he]
      exact Set.disjoint_empty _
    · refine List.pairwise_of_forall_mem_list fun e he e' he' => ?_
      rw [hempty e' he']
      exact Set.disjoint_empty _
    · intro x hx e he
      rcases List.mem_cons.mp he with rfl | he
      · rw [Set.disjoint_left]
        intro k hk hk'
        have hlater := hold.within hx
        have habove := hk.1
        have hbelow := hk'.2
        omega
      · rw [hempty e he]
        exact Set.disjoint_empty _

/-- Taking the oldest message away. When it was the one at the start, only empty ones are left. -/
theorem pop (h : Layout pos (m :: ms)) : Layout pos ms := by
  generalize hall : m :: ms = all at h
  cases h with
  | straight a hms hpos =>
    subst hall
    exact straight _ hms.2 hpos
  | back a b hold hb hm hsize hfits hempties =>
    rename_i old empties first
    cases old with
    | nil =>
      obtain ⟨-, rfl⟩ := List.cons.inj hall
      refine straight 0 ?_ (Nat.zero_le _)
      clear hall
      induction ms with
      | nil => rfl
      | cons e ms ih =>
        have he := hempties e (List.mem_cons_self)
        refine ⟨he.1, ?_⟩
        rw [he.2]
        exact ih fun e' he' => hempties e' (List.mem_cons_of_mem _ he')
    | cons x old =>
      obtain ⟨-, rfl⟩ := List.cons.inj hall
      exact back _ b hold.2 hb hm hsize (hfits.trans (Nat.le_add_right _ _)) hempties

/-- Handing out space behind the position. -/
theorem put (h : Layout pos ms) (hend : pos + size ≤ maxConsoleBuf)
    (hclear : size ≠ 0 → pos = 0 → ∀ m ∈ ms, m.pos = 0 → m.size = 0) :
    Layout (pos + size) (ms ++ [⟨pos, size⟩]) := by
  cases h with
  | straight a hms hpos => exact straight a (hms.append (m := ⟨pos, size⟩) rfl) hend
  | back a b hold hb hm hsize hfits hempties =>
    rename_i old empties m
    have hzero : size = 0 := by
      by_contra hne
      have hsmall := hclear hne rfl m (List.mem_append_right _ List.mem_cons_self) hm
      omega
    subst hzero
    rw [List.append_assoc, List.cons_append]
    refine back a b hold hb hm hsize hfits fun e he => ?_
    rcases List.mem_append.mp he with he | he
    · exact hempties e he
    · rw [List.mem_singleton.mp he]
      exact ⟨rfl, rfl⟩

/-- Going back to the start. The messages are then behind the first half of the buffer. -/
theorem wrap (h : Layout pos ms) (hsize : size < maxConsoleBuf)
    (hend : maxConsoleBuf < pos + size)
    (htotal : (ms.map ConsMsg.size).sum + size ≤ maxConsoleBuf / 2) :
    Layout 0 (ms ++ [⟨0, size⟩]) := by
  cases h with
  | straight a hms hpos =>
    have hall := hms.total
    rw [maxConsoleBuf] at *
    refine back a pos hms hpos rfl (by dsimp only; omega) (by dsimp only; omega) fun e he => ?_
    cases he
  | back =>
    rw [Nat.zero_add] at hend
    exact absurd hend (Nat.lt_asymm hsize)

end Layout

end Layout

section Texts

variable {buf : ℕ → BitVec 8} {pos : ℕ} {str : List (BitVec 8)} {m : ConsMsg} {b : ConsBuffer}
  {size : ℕ}

theorem ConsMsg.bytes_length (m : ConsMsg) (buf : ℕ → BitVec 8) :
    (m.bytes buf).length = m.size := by
  rw [ConsMsg.bytes, List.length_map, List.length_range]

/-- A copied string is found where it was copied to. -/
theorem bytes_copyStr_self :
    (⟨pos, str.length⟩ : ConsMsg).bytes (copyStr buf pos str) = str := by
  refine List.ext_getElem (ConsMsg.bytes_length _ _) fun k _ hk => ?_
  simp only [ConsMsg.bytes, List.getElem_map, List.getElem_range, copyStr]
  rw [if_pos (by omega), Nat.add_sub_cancel_left, List.getD_eq_getElem?_getD,
    List.getElem?_eq_getElem hk, Option.getD_some]

/-- It changes no text elsewhere. -/
theorem bytes_copyStr_of_disjoint
    (h : Disjoint m.range (⟨pos, str.length⟩ : ConsMsg).range) :
    m.bytes (copyStr buf pos str) = m.bytes buf := by
  refine List.map_congr_left fun k hk => ?_
  have hm : m.pos + k ∈ m.range :=
    ⟨Nat.le_add_right _ _, Nat.add_lt_add_left (List.mem_range.mp hk) _⟩
  exact if_neg (Set.disjoint_left.mp h hm)

/-- What `cons_buffer_alloc` does for a size below that of the buffer. -/
theorem consBufferAlloc_cases (hpos : b.pos ≤ maxConsoleBuf) (hsize : size < maxConsoleBuf) :
    (b.pos + size ≤ maxConsoleBuf ∧
      consBufferAlloc b size = some (b.pos, { b with pos := b.pos + size })) ∨
    (maxConsoleBuf < b.pos + size ∧ consBufferAlloc b size = some (0, { b with pos := 0 })) := by
  have hu32 : u32 (b.pos + size) = b.pos + size := by
    rw [maxConsoleBuf] at hpos hsize
    exact u32_of_lt (by omega)
  unfold consBufferAlloc
  rw [hu32]
  rcases Nat.lt_or_ge maxConsoleBuf (b.pos + size) with hgt | hle
  · rw [if_neg (Nat.not_le.mpr hgt), if_pos hsize]
    exact Or.inr ⟨hgt, rfl⟩
  · rw [if_pos hle]
    exact Or.inl ⟨hle, rfl⟩

end Texts

section Runs

variable {t t' : Traffic} {ms : List ConsMsg} {str : List (BitVec 8)}

theorem Traffic.step_put {pos : ℕ} {buffer : ConsBuffer}
    (h : consBufferAlloc t.msgs.buffer str.length = some (pos, buffer)) :
    t.step (.put str) = some
      ⟨⟨{ buffer with buf := copyStr buffer.buf pos str },
        consMsgPush t.msgs.queue pos str.length⟩, t.sent ++ [str]⟩ := by
  rw [Traffic.step, consMsgPutstr, h]
  rfl

theorem Traffic.step_pop (h : t.msgs.queue.readPos < t.msgs.queue.writePos) :
    t.step .pop = some
      ⟨{ t.msgs with queue := { t.msgs.queue with readPos := u32 (t.msgs.queue.readPos + 1) } },
        t.sent.tail⟩ := by
  rw [Traffic.step, consMsgPop, if_pos h]
  rfl

/-- The state of the buffer and the queue with the outstanding messages `ms`. -/
structure BacklogOk (t : Traffic) (ms : List ConsMsg) : Prop where
  queued : Queued t.msgs.queue ms
  layout : Layout t.msgs.buffer.pos ms
  texts : ms.map (fun m => m.bytes t.msgs.buffer.buf) = t.sent
  total : (t.sent.map List.length).sum ≤ maxConsoleBuf / 2

namespace BacklogOk

theorem length_eq (h : BacklogOk t ms) : t.sent.length = ms.length := by
  rw [← h.texts, List.length_map]

theorem outstanding_eq (h : BacklogOk t ms) : t.outstanding = ms := by
  rw [Traffic.outstanding, h.length_eq, h.queued.waiting]

theorem sizes_sum (h : BacklogOk t ms) :
    (ms.map ConsMsg.size).sum = (t.sent.map List.length).sum := by
  rw [← h.texts, List.map_map]
  exact congrArg List.sum (List.map_congr_left fun m _ => (m.bytes_length _).symm)

theorem intact (h : BacklogOk t ms) : Intact t := by
  constructor
  · rw [h.outstanding_eq]
    exact h.layout.apart
  · rw [h.outstanding_eq]
    exact h.texts
  · intro i q hpop
    obtain ⟨rest, rfl, -⟩ := h.queued.pop hpop
    rw [← h.texts]
    rfl

/-- A message that does not come to lie over others. -/
theorem push (h : BacklogOk t ms) {pos pos' : ℕ} (hroom : t.sent.length + 1 ≤ maxMsgQueue)
    (hlayout : Layout pos' (ms ++ [⟨pos, str.length⟩]))
    (htotal : ((t.sent ++ [str]).map List.length).sum ≤ maxConsoleBuf / 2) :
    BacklogOk
      ⟨⟨⟨pos', copyStr t.msgs.buffer.buf pos str⟩, consMsgPush t.msgs.queue pos str.length⟩,
        t.sent ++ [str]⟩ (ms ++ [⟨pos, str.length⟩]) := by
  have happart := (List.pairwise_append.mp hlayout.apart).2.2
  constructor
  · exact h.queued.push (h.length_eq ▸ hroom)
  · exact hlayout
  · rw [List.map_append, List.map_singleton, bytes_copyStr_self, ← h.texts]
    congr 1
    refine List.map_congr_left fun m hm => ?_
    exact bytes_copyStr_of_disjoint (happart m hm _ (List.mem_singleton.mpr rfl))
  · exact htotal

/-- A call of `cons_msg_putstr` in order. -/
theorem put (h : BacklogOk t ms) (hallowed : Allowed t (.put str))
    (hclear : StartClear t (.put str)) (hstep : t.step (.put str) = some t') :
    ∃ ms', BacklogOk t' ms' := by
  obtain ⟨hsize, hroom, htotal⟩ := hallowed
  rcases consBufferAlloc_cases h.layout.pos_le hsize with ⟨hend, halloc⟩ | ⟨hend, halloc⟩
  · rw [Traffic.step_put halloc] at hstep
    obtain rfl := Option.some.inj hstep
    refine ⟨_, h.push hroom (h.layout.put hend fun hne hzero m hm => ?_) htotal⟩
    rw [← h.outstanding_eq] at hm
    exact hclear (fun hnil => hne (congrArg List.length hnil)) hzero m hm
  · rw [Traffic.step_put halloc] at hstep
    obtain rfl := Option.some.inj hstep
    refine ⟨_, h.push hroom (h.layout.wrap hsize hend ?_) htotal⟩
    rw [h.sizes_sum]
    rwa [List.map_append, List.sum_append, List.map_singleton, List.sum_singleton] at htotal

/-- A call of `cons_msg_pop`. -/
theorem pop (h : BacklogOk t ms) (hstep : t.step .pop = some t') : ∃ ms', BacklogOk t' ms' := by
  obtain rfl := Option.some.inj hstep
  rcases hpop : consMsgPop t.msgs.queue with ⟨_ | i, q⟩
  · rcases consMsgPop_cases (q := t.msgs.queue) with ⟨-, hsome⟩ | ⟨-, hnone⟩
    · rw [hsome] at hpop
      cases hpop
    · rw [hnone] at hpop
      cases hpop
      exact ⟨ms, h.queued, h.layout, h.texts, h.total⟩
  · obtain ⟨rest, rfl, hrest⟩ := h.queued.pop hpop
    have hsent : t.sent.tail = rest.map (fun m => m.bytes t.msgs.buffer.buf) := by
      rw [← h.texts]
      rfl
    have htotal := h.total
    rw [← h.texts, List.map_cons, List.map_cons, List.sum_cons, ← hsent] at htotal
    exact ⟨rest, hrest, h.layout.pop, hsent.symm, (Nat.le_add_left _ _).trans htotal⟩

/-- A call that puts its text over another spoils the state. -/
theorem spoil (h : BacklogOk t ms) (hallowed : Allowed t (.put str))
    (hover : ¬ StartClear t (.put str)) :
    ∃ t', t.step (.put str) = some t' ∧ ¬ Intact t' := by
  obtain ⟨hsize, hroom, -⟩ := hallowed
  unfold StartClear at hover
  push Not at hover
  obtain ⟨hne, hzero, m, hm, hpos, htext⟩ := hover
  rw [h.outstanding_eq] at hm
  have halloc : consBufferAlloc t.msgs.buffer str.length =
      some (0, { t.msgs.buffer with pos := str.length }) := by
    rcases consBufferAlloc_cases h.layout.pos_le hsize with ⟨-, hsome⟩ | ⟨hend, -⟩
    · rw [hsome, hzero, Nat.zero_add]
    · rw [hzero, Nat.zero_add] at hend
      exact absurd hend (Nat.lt_asymm hsize)
  refine ⟨_, Traffic.step_put halloc, fun hintact => ?_⟩
  have happart := hintact.apart
  rw [Traffic.outstanding, List.length_append, List.length_singleton] at happart
  have hqueued : Queued (consMsgPush t.msgs.queue 0 str.length) (ms ++ [⟨0, str.length⟩]) :=
    h.queued.push (h.length_eq ▸ hroom)
  have hwaiting := hqueued.waiting
  rw [List.length_append, List.length_singleton, ← h.length_eq] at hwaiting
  dsimp only at happart
  rw [hwaiting] at happart
  have hdisjoint := (List.pairwise_append.mp happart).2.2 m hm _ (List.mem_singleton.mpr rfl)
  have hlength := List.length_pos_iff.mpr hne
  have hleft : 0 ∈ m.range := ⟨hpos.le, by omega⟩
  have hright : 0 ∈ (⟨0, str.length⟩ : ConsMsg).range := ⟨le_rfl, by dsimp only; omega⟩
  exact Set.disjoint_left.mp hdisjoint hleft hright

end BacklogOk

theorem backlogOk_init (buf : ℕ → BitVec 8) : BacklogOk (Traffic.init buf) [] := by
  refine ⟨⟨[], 0, rfl, rfl, Nat.zero_le _, Stored.nil, ?_, ?_⟩, ?_, rfl, Nat.zero_le _⟩
  · exact (u32_of_lt (Nat.two_pow_pos 32)).symm
  · exact (u32_of_lt (Nat.two_pow_pos 32)).symm
  · exact Layout.straight 0 rfl (Nat.zero_le _)

/-- No text is lost exactly if none is put while the position is at the start and a text there is
still outstanding. -/
theorem consMsgs_intact_iff (buf : ℕ → BitVec 8) (ops : List ConsOp)
    (hallowed : AllSteps Traffic.step Allowed (Traffic.init buf) ops) :
    AllStates Traffic.step Intact (Traffic.init buf) ops ↔
      AllSteps Traffic.step StartClear (Traffic.init buf) ops := by
  refine allStates_iff_allSteps (I := fun t => ∃ ms, BacklogOk t ms)
    (fun t ⟨ms, h⟩ => h.intact) ?_ ?_ ⟨[], backlogOk_init buf⟩ hallowed
  · rintro t op t' ⟨ms, h⟩ hop hclear hstep
    cases op with
    | put str => exact h.put hop hclear hstep
    | pop => exact h.pop hstep
  · rintro t op ⟨ms, h⟩ hop hover
    cases op with
    | put str => exact h.spoil hop hover
    | pop => exact absurd trivial hover

theorem consMsgs_intact_three :
    AllStates Traffic.step Intact (Traffic.init fun _ => 0)
        [.put [65, 66], .pop, .put [67], .put []] ↔
      AllSteps Traffic.step StartClear (Traffic.init fun _ => 0)
        [.put [65, 66], .pop, .put [67], .put []] :=
  consMsgs_intact_iff _ _ (by decide +kernel)

/-- Two texts fill the buffer and are popped, so that the next one goes back to the start. -/
def overlapOps (half : List (BitVec 8)) : List ConsOp :=
  [.put half, .pop, .put half, .pop, .put [65], .put [66]]

/-- The last text is copied over the one in front of it. -/
theorem consMsgs_overlap :
    AllSteps Traffic.step Allowed (Traffic.init fun _ => 0) (overlapOps (List.replicate 32768 0)) ∧
      ¬ AllStates Traffic.step Intact (Traffic.init fun _ => 0)
        (overlapOps (List.replicate 32768 0)) := by
  have hhalf : (List.replicate 32768 (0 : BitVec 8)).length = 32768 := List.length_replicate
  generalize List.replicate 32768 (0 : BitVec 8) = half at hhalf ⊢
  have hpop : 0 < u32 (0 + 1) := by decide +kernel
  have hpop' : u32 (0 + 1) < u32 (u32 (0 + 1) + 1) := by decide +kernel
  have hfirst : ∀ buf, consBufferAlloc ⟨0, buf⟩ half.length = some (0, ⟨32768, buf⟩) := by
    simp [consBufferAlloc, maxConsoleBuf, hhalf, u32_of_lt]
  have hsecond : ∀ buf, consBufferAlloc ⟨32768, buf⟩ half.length = some (32768, ⟨65536, buf⟩) := by
    simp [consBufferAlloc, maxConsoleBuf, hhalf, u32_of_lt]
  have hwrap : ∀ buf, consBufferAlloc ⟨65536, buf⟩ 1 = some (0, ⟨0, buf⟩) := by
    simp [consBufferAlloc, maxConsoleBuf, u32_of_lt]
  have hover : ∀ buf, consBufferAlloc ⟨0, buf⟩ 1 = some (0, ⟨1, buf⟩) := by
    simp [consBufferAlloc, maxConsoleBuf, u32_of_lt]
  unfold overlapOps
  constructor
  · rw [allSteps_cons (Traffic.step_put (hfirst _)),
      allSteps_cons (Traffic.step_pop (by exact hpop)),
      allSteps_cons (Traffic.step_put (hsecond _)),
      allSteps_cons (Traffic.step_pop (by exact hpop')),
      allSteps_cons (Traffic.step_put (hwrap _)), allSteps_cons (Traffic.step_put (hover _))]
    simp [Allowed, AllSteps, Traffic.init, hhalf, maxConsoleBuf, maxMsgQueue]
  · rw [allStates_cons (Traffic.step_put (hfirst _)),
      allStates_cons (Traffic.step_pop (by exact hpop)),
      allStates_cons (Traffic.step_put (hsecond _)),
      allStates_cons (Traffic.step_pop (by exact hpop')),
      allStates_cons (Traffic.step_put (hwrap _)), allStates_cons (Traffic.step_put (hover _))]
    rintro ⟨-, -, -, -, -, -, hlast⟩
    -- Both messages refer to the byte at the start, which holds the last text.
    have htexts := hlast.texts
    simp [Traffic.outstanding, waiting, Traffic.init, consMsgPush, copyStr, ConsMsg.bytes,
      msgIndex_eq, List.range_succ, u32_of_lt] at htexts

end Runs

end Smor.Console
