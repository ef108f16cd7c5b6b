import Smor.Console.Draining
import Smor.Lib.Fifo
import Smor.Lib.Runs

/-!
# Messages that are overwritten

`cons_msg_push` does not test whether the ring is full. Here an element of the ring also says whose
message it is, and the messages that are popped are recorded. As long as no message is put while
`MAX_MSG_QUEUE` others wait, they are popped in the order in which they were put, each of them once.
A message that is put when the ring is full overwrites the oldest one, which is then lost.
-/

namespace Smor.Console

open Smor.Lib

/-- All calls, whose message an element of the ring is, the calls that have put their message, and
the messages that have been popped, each in its order. -/
structure Ring (ι : Type) where
  calls : Callers ι
  writer : ℕ → Option ι
  put : List ι
  popped : List (Option ι)

namespace Ring

variable {ι : Type} [DecidableEq ι]

/-- The next step of a call. -/
def step (str : ι → List (BitVec 8)) (r : Ring ι) (i : ι) : Option (Ring ι) :=
  (r.calls.step str i).map fun calls =>
    let q := r.calls.msgs.queue
    match r.calls.phase i with
    | .push =>
      { r with
        calls := calls
        writer := Function.update r.writer (msgIndex q.writePos) (some i)
        put := r.put ++ [i] }
    | .pop =>
      { r with
        calls := calls
        popped := r.popped ++ ((consMsgPop q).1.map r.writer).toList }
    | _ => { r with calls := calls }

/-- Before the first call. -/
def init (ι : Type) (buf : ℕ → BitVec 8) : Ring ι := ⟨.init ι buf, fun _ => none, [], []⟩

/-- A message is put only while fewer than `MAX_MSG_QUEUE` wait. -/
def HasRoom (r : Ring ι) (i : ι) : Prop :=
  r.calls.phase i = .push →
    r.calls.msgs.queue.writePos < r.calls.msgs.queue.readPos + maxMsgQueue

instance (r : Ring ι) (i : ι) : Decidable (r.HasRoom i) :=
  inferInstanceAs (Decidable (_ → _))

end Ring

section Rings

variable {ι : Type} [DecidableEq ι] [Fintype ι] {r r' : Ring ι} {i v : ι}
  {str : ι → List (BitVec 8)}

/-- Nothing has been overwritten: the messages that have been popped are the first ones that were
put, and the ring holds all others. -/
structure RingOk (r : Ring ι) : Prop where
  calls : DrainOk r.calls
  mem_put : ∀ i, i ∈ r.put ↔ (r.calls.phase i).Sent
  nodup : r.put.Nodup
  popped : r.popped = (r.put.map some).take r.popped.length
  read : r.calls.msgs.queue.readPos = r.popped.length
  room : r.put.length ≤ r.popped.length + maxMsgQueue
  stored : Stored maxMsgQueue r.writer (r.put.map some)
  /-- An element of the ring is one of the latest messages. -/
  recent : ∀ k i, r.writer k = some i →
    ∃ n, n % maxMsgQueue = k ∧ r.put[n]? = some i ∧ r.put.length ≤ n + maxMsgQueue

/-- The message of `v` has been put and overwritten, and was not popped before that. -/
structure Lost (r : Ring ι) (v : ι) : Prop where
  sent : (r.calls.phase v).Sent
  writer : ∀ k, r.writer k ≠ some v
  popped : some v ∉ r.popped

omit [DecidableEq ι] in
/-- The write position counts the messages. -/
theorem RingOk.write (h : RingOk r) : r.calls.msgs.queue.writePos = r.put.length := by
  classical
  rw [h.calls.sent, ← List.toFinset_card_of_nodup h.nodup]
  congr 1
  ext i
  rw [Finset.mem_filter, List.mem_toFinset, h.mem_put]
  exact and_iff_right (Finset.mem_univ i)

omit [Fintype ι] in
/-- What a step does to where the calls are. -/
theorem phase_of_step {s s' : Callers ι} (hstep : s.step str i = some s') :
    (s.phase i ≠ .push ∧ s'.phase = s.phase) ∨
      ∃ next, s'.phase = Function.update s.phase i next ∧
        (next.Sent ↔ (s.phase i).Sent ∨ s.phase i = .push) := by
  unfold Callers.step at hstep
  cases hi : s.phase i with
  | start =>
    rw [hi] at hstep
    obtain rfl := Option.some.inj hstep
    by_cases hfree : s.lock = 0
    · exact Or.inr ⟨.push, if_pos hfree, by decide⟩
    · exact Or.inl ⟨by decide, if_neg hfree⟩
  | push =>
    rw [hi] at hstep
    obtain ⟨msgs, -, rfl⟩ := Option.map_eq_some_iff.mp hstep
    exact Or.inr ⟨.pushed, rfl, by decide⟩
  | pushed =>
    rw [hi] at hstep
    obtain rfl := Option.some.inj hstep
    exact Or.inr ⟨.swap, rfl, by decide⟩
  | swap =>
    rw [hi] at hstep
    obtain rfl := Option.some.inj hstep
    refine Or.inr ⟨_, rfl, ?_⟩
    split_ifs <;> decide
  | drain =>
    rw [hi] at hstep
    obtain rfl := Option.some.inj hstep
    by_cases hfree : s.lock = 0
    · exact Or.inr ⟨.pop, if_pos hfree, by decide⟩
    · exact Or.inl ⟨by decide, if_neg hfree⟩
  | pop =>
    rw [hi] at hstep
    obtain rfl := Option.some.inj hstep
    refine Or.inr ⟨_, rfl, ?_⟩
    split_ifs <;> decide
  | popped =>
    rw [hi] at hstep
    obtain rfl := Option.some.inj hstep
    exact Or.inr ⟨.drain, rfl, by decide⟩
  | release =>
    rw [hi] at hstep
    obtain rfl := Option.some.inj hstep
    exact Or.inr ⟨.leave, rfl, by decide⟩
  | leave =>
    rw [hi] at hstep
    obtain rfl := Option.some.inj hstep
    exact Or.inr ⟨.returned, rfl, by decide⟩
  | returned =>
    rw [hi] at hstep
    cases hstep

omit [Fintype ι] in
/-- What a call has sent stays sent, and only its own push adds to it. -/
theorem sent_of_step {s s' : Callers ι} (hstep : s.step str i = some s') (j : ι) :
    (s'.phase j).Sent ↔ (s.phase j).Sent ∨ (j = i ∧ s.phase i = .push) := by
  rcases phase_of_step hstep with ⟨hne, heq⟩ | ⟨next, heq, hnext⟩
  · rw [heq, or_iff_left fun hand => hne hand.2]
  · rw [heq]
    by_cases hj : j = i
    · subst hj
      rw [Function.update_self, hnext, and_iff_right rfl]
    · rw [Function.update_of_ne hj, or_iff_left fun hand => hj hand.1]

omit [Fintype ι] in
/-- Only a push and a pop move the positions of the queue. -/
theorem positions_of_step {s s' : Callers ι} (hstep : s.step str i = some s')
    (hpush : s.phase i ≠ .push) (hpop : s.phase i ≠ .pop) :
    s'.msgs.queue.readPos = s.msgs.queue.readPos := by
  unfold Callers.step at hstep
  cases hi : s.phase i with
  | push => exact absurd hi hpush
  | pop => exact absurd hi hpop
  | returned =>
    rw [hi] at hstep
    cases hstep
  | start | pushed | swap | drain | popped | release | leave =>
    rw [hi] at hstep
    obtain rfl := Option.some.inj hstep
    rfl

omit [Fintype ι] in
/-- A step of the ring is one of the calls. -/
theorem Ring.step_calls (hstep : r.step str i = some r') :
    r.calls.step str i = some r'.calls := by
  obtain ⟨calls, hcalls, rfl⟩ := Option.map_eq_some_iff.mp hstep
  rw [hcalls]
  cases r.calls.phase i <;> rfl

omit [Fintype ι] in
/-- The step of a call that stays away from the ring. -/
theorem Ring.step_other (hstep : r.step str i = some r') (hpush : r.calls.phase i ≠ .push)
    (hpop : r.calls.phase i ≠ .pop) :
    r'.writer = r.writer ∧ r'.put = r.put ∧ r'.popped = r.popped := by
  obtain ⟨calls, -, rfl⟩ := Option.map_eq_some_iff.mp hstep
  cases hi : r.calls.phase i with
  | push => exact absurd hi hpush
  | pop => exact absurd hi hpop
  | start | pushed | swap | drain | popped | release | leave | returned => exact ⟨rfl, rfl, rfl⟩

omit [Fintype ι] in
/-- The step of a call that puts its message. -/
theorem Ring.step_push (hstep : r.step str i = some r') (hi : r.calls.phase i = .push) :
    r'.writer = Function.update r.writer (msgIndex r.calls.msgs.queue.writePos) (some i) ∧
      r'.put = r.put ++ [i] ∧ r'.popped = r.popped ∧
      r'.calls.msgs.queue.readPos = r.calls.msgs.queue.readPos := by
  have hcalls := Ring.step_calls hstep
  obtain ⟨calls, -, rfl⟩ := Option.map_eq_some_iff.mp hstep
  unfold Callers.step at hcalls
  rw [hi] at hcalls ⊢
  obtain ⟨msgs, hput, rfl⟩ := Option.map_eq_some_iff.mp hcalls
  exact ⟨rfl, rfl, rfl, (consMsgPutstr_positions hput).2.1⟩

omit [Fintype ι] in
/-- The step of a call that takes a message, if there is one. -/
theorem Ring.step_pop (hstep : r.step str i = some r') (hi : r.calls.phase i = .pop) :
    r'.writer = r.writer ∧ r'.put = r.put ∧
      r'.calls.msgs.queue.readPos = (consMsgPop r.calls.msgs.queue).2.readPos ∧
      r'.popped = r.popped ++ ((consMsgPop r.calls.msgs.queue).1.map r.writer).toList := by
  have hcalls := Ring.step_calls hstep
  obtain ⟨calls, -, rfl⟩ := Option.map_eq_some_iff.mp hstep
  unfold Callers.step at hcalls
  rw [hi] at hcalls ⊢
  obtain rfl := Option.some.inj hcalls
  exact ⟨rfl, rfl, rfl, rfl⟩

omit [Fintype ι] in
/-- A message that is lost stays lost. -/
theorem Lost.step (h : Lost r v) (hstep : r.step str i = some r') : Lost r' v := by
  have hsent : (r'.calls.phase v).Sent :=
    (sent_of_step (Ring.step_calls hstep) v).mpr (Or.inl h.sent)
  by_cases hpush : r.calls.phase i = .push
  · obtain ⟨hwriter, -, hpopped, -⟩ := Ring.step_push hstep hpush
    have hne : i ≠ v := by
      rintro rfl
      exact h.sent.2 hpush
    refine ⟨hsent, fun k => ?_, hpopped ▸ h.popped⟩
    rw [hwriter, Function.update_apply]
    split_ifs
    · exact fun heq => hne (Option.some.inj heq)
    · exact h.writer k
  by_cases hpop : r.calls.phase i = .pop
  · obtain ⟨hwriter, -, -, hpopped⟩ := Ring.step_pop hstep hpop
    refine ⟨hsent, hwriter ▸ h.writer, ?_⟩
    rw [hpopped, List.mem_append, not_or]
    refine ⟨h.popped, fun hmem => ?_⟩
    obtain ⟨k, -, hk⟩ := Option.map_eq_some_iff.mp (Option.mem_toList.mp hmem)
    exact h.writer k hk
  · obtain ⟨hwriter, -, hpopped⟩ := Ring.step_other hstep hpush hpop
    exact ⟨hsent, hwriter ▸ h.writer, hpopped ▸ h.popped⟩

/-- A message is put while there is room. -/
theorem RingOk.push (h : RingOk r) (hcalls : DrainOk r'.calls)
    (hstep : r.step str i = some r') (hi : r.calls.phase i = .push) (hroom : r.HasRoom i) :
    RingOk r' := by
  obtain ⟨hwriter, hput, hpopped, hread⟩ := Ring.step_push hstep hi
  have hsent := sent_of_step (Ring.step_calls hstep)
  have hnew : i ∉ r.put := fun hmem => ((h.mem_put i).mp hmem).2 hi
  have hwait := hroom hi
  rw [h.write, h.read] at hwait
  rw [h.write, msgIndex_eq] at hwriter
  constructor
  · exact hcalls
  · intro j
    rw [hput, List.mem_append, List.mem_singleton, h.mem_put, hsent, and_iff_left hi]
  · rw [hput]
    exact List.nodup_append.mpr ⟨h.nodup, List.nodup_singleton i, fun j hj k hk =>
      fun heq => hnew (List.mem_singleton.mp hk ▸ heq ▸ hj)⟩
  · rw [hput, hpopped, List.map_append, List.take_append_of_le_length]
    · exact h.popped
    · rw [List.length_map, ← h.write, ← h.read]
      exact h.calls.read
  · rw [hread, hpopped]
    exact h.read
  · rw [hput, hpopped, List.length_append, List.length_singleton]
    omega
  · rw [hput, hwriter, List.map_append]
    have hstored := h.stored.push (some i)
    rw [List.length_map] at hstored
    exact hstored
  · intro k j hk
    rw [hwriter, Function.update_apply] at hk
    rw [hput, List.length_append, List.length_singleton]
    split_ifs at hk with hslot
    · obtain rfl := Option.some.inj hk
      refine ⟨r.put.length, hslot.symm, ?_, Nat.add_le_add_left (by decide) _⟩
      rw [List.getElem?_append_right le_rfl, Nat.sub_self]
      rfl
    · obtain ⟨n, hn, hget, hrecent⟩ := h.recent k j hk
      have hlt := (List.getElem?_eq_some_iff.mp hget).1
      refine ⟨n, hn, ?_, ?_⟩
      · rw [List.getElem?_append_left hlt]
        exact hget
      · -- the element that is as old as the ring is long is the one that was overwritten
        rcases Nat.lt_or_ge r.put.length (n + maxMsgQueue) with hlater | hoverwritten
        · omega
        · have hsame : r.put.length = n + maxMsgQueue := by omega
          rw [hsame] at hslot
          exact absurd (by rw [← hn]; simp [maxMsgQueue]) hslot

/-- A message is put when the ring is full: the oldest one is lost. -/
theorem RingOk.overwrite (h : RingOk r) (hstep : r.step str i = some r')
    (hroom : ¬ r.HasRoom i) : ∃ v, Lost r' v := by
  obtain ⟨hi, hfull⟩ := Classical.not_imp.mp hroom
  obtain ⟨hwriter, -, hpopped, -⟩ := Ring.step_push hstep hi
  have hsent := sent_of_step (Ring.step_calls hstep)
  have hlimit := h.room
  rw [h.write, h.read] at hfull
  rw [h.write, msgIndex_eq] at hwriter
  have hlength : r.put.length = r.popped.length + maxMsgQueue := by omega
  have hpos : r.popped.length < r.put.length := by
    rw [hlength]
    exact Nat.lt_add_of_pos_right (by decide)
  have hget : r.put[r.popped.length]? = some r.put[r.popped.length] :=
    List.getElem?_eq_getElem hpos
  set v := r.put[r.popped.length] with hv
  have hmem : v ∈ r.put := List.getElem_mem hpos
  have hold : (r.calls.phase v).Sent := (h.mem_put v).mp hmem
  have hne : i ≠ v := by
    intro heq
    exact hold.2 (heq ▸ hi)
  have honly : ∀ n, r.put[n]? = some v → n = r.popped.length := by
    intro n hn
    obtain ⟨hlt, heq⟩ := List.getElem?_eq_some_iff.mp hn
    exact (h.nodup.getElem_inj_iff).mp heq
  refine ⟨v, (hsent v).mpr (Or.inl hold), fun k hk => ?_, ?_⟩
  · rw [hwriter, Function.update_apply] at hk
    split_ifs at hk with hslot
    · exact hne (Option.some.inj hk)
    · obtain ⟨n, hn, hat, -⟩ := h.recent k v hk
      obtain rfl := honly n hat
      rw [hlength] at hslot
      exact hslot (by rw [← hn]; simp [maxMsgQueue])
  · rw [hpopped, h.popped, List.mem_take_iff_getElem]
    rintro ⟨n, hn, heq⟩
    rw [List.getElem_map] at heq
    have hat : r.put[n]? = some v :=
      List.getElem?_eq_some_iff.mpr ⟨by simp at hn; omega, Option.some.inj heq⟩
    have := honly n hat
    omega

omit [DecidableEq ι] in
/-- The order depends on where the calls are only by the messages that they have put. -/
theorem RingOk.keep (h : RingOk r) (hcalls : DrainOk r'.calls)
    (hmem : ∀ j, j ∈ r'.put ↔ (r'.calls.phase j).Sent) (hwriter : r'.writer = r.writer)
    (hput : r'.put = r.put) (hpopped : r'.popped = r.popped)
    (hread : r'.calls.msgs.queue.readPos = r.calls.msgs.queue.readPos) : RingOk r' := by
  refine ⟨hcalls, hmem, hput ▸ h.nodup, ?_, ?_, ?_, ?_, ?_⟩
  · rw [hpopped, hput]
    exact h.popped
  · rw [hread, hpopped]
    exact h.read
  · rw [hput, hpopped]
    exact h.room
  · rw [hwriter, hput]
    exact h.stored
  · rw [hwriter, hput]
    exact h.recent

/-- The drainer takes the oldest message that waits, or finds none. -/
theorem RingOk.pop (h : RingOk r) (hcalls : DrainOk r'.calls) (hcard : Fintype.card ι < 2 ^ 32)
    (hstep : r.step str i = some r') (hi : r.calls.phase i = .pop) : RingOk r' := by
  obtain ⟨hwriter, hput, hread, hpopped⟩ := Ring.step_pop hstep hi
  have hsent := sent_of_step (Ring.step_calls hstep)
  have hmem : ∀ j, j ∈ r'.put ↔ (r'.calls.phase j).Sent := by
    intro j
    rw [hput, h.mem_put, hsent, or_iff_left]
    rintro ⟨-, hpush⟩
    rw [hi] at hpush
    cases hpush
  have hroom := h.room
  rcases consMsgPop_cases (q := r.calls.msgs.queue) with ⟨hlt, hpop⟩ | ⟨hge, hpop⟩
  · rw [hpop] at hread hpopped
    dsimp only at hread hpopped
    have hsmall := Finset.card_le_univ (Finset.univ.filter fun j => (r.calls.phase j).Sent)
    rw [← h.calls.sent] at hsmall
    rw [u32_of_lt (by omega)] at hread
    rw [h.write, h.read] at hlt
    rw [h.read] at hread
    have hlength : r.popped.length < (r.put.map some).length := by
      rw [List.length_map]
      exact hlt
    have hat : (r.put.map some)[r.popped.length]? =
        some (r.writer (msgIndex r.calls.msgs.queue.readPos)) := by
      rw [h.read, msgIndex_eq]
      exact h.stored _ hlength (by rw [List.length_map]; exact hroom)
    rw [Option.map_some, Option.toList_some] at hpopped
    have hcount : r'.popped.length = r.popped.length + 1 := by
      rw [hpopped, List.length_append, List.length_singleton]
    refine ⟨hcalls, hmem, hput ▸ h.nodup, ?_, ?_, ?_, ?_, ?_⟩
    · rw [hcount, hput, List.take_add_one, hat, Option.toList_some, ← h.popped, hpopped]
    · rw [hread, hcount]
    · rw [hput, hcount]
      omega
    · rw [hwriter, hput]
      exact h.stored
    · rw [hwriter, hput]
      exact h.recent
  · rw [hpop, Option.map_none, Option.toList_none, List.append_nil] at hpopped
    rw [hpop] at hread
    exact h.keep hcalls hmem hwriter hput hpopped hread

/-- A step that stays away from the ring. -/
theorem RingOk.other (h : RingOk r) (hcalls : DrainOk r'.calls) (hstep : r.step str i = some r')
    (hpush : r.calls.phase i ≠ .push) (hpop : r.calls.phase i ≠ .pop) : RingOk r' := by
  obtain ⟨hwriter, hput, hpopped⟩ := Ring.step_other hstep hpush hpop
  have hread := positions_of_step (Ring.step_calls hstep) hpush hpop
  have hsent := sent_of_step (Ring.step_calls hstep)
  refine h.keep hcalls (fun j => ?_) hwriter hput hpopped hread
  rw [hput, h.mem_put, hsent, or_iff_left fun hand => hpush hand.2]

/-- Every step keeps the order, if it is no push into a full ring. -/
theorem RingOk.step (h : RingOk r) (hcard : Fintype.card ι < 2 ^ 32)
    (hstep : r.step str i = some r') (hroom : r.HasRoom i) : RingOk r' := by
  have hcalls := h.calls.step hcard (Ring.step_calls hstep)
  by_cases hpush : r.calls.phase i = .push
  · exact h.push hcalls hstep hpush hroom
  by_cases hpop : r.calls.phase i = .pop
  · exact h.pop hcalls hcard hstep hpop
  · exact h.other hcalls hstep hpush hpop

omit [DecidableEq ι] in
/-- Before the first call nothing is lost. -/
theorem ringOk_init (buf : ℕ → BitVec 8) : RingOk (Ring.init ι buf) := by
  refine ⟨drainOk_init buf, fun i => ?_, List.nodup_nil, rfl, rfl, Nat.zero_le _, Stored.nil, ?_⟩
  · exact iff_of_false List.not_mem_nil fun hsent => hsent.1 rfl
  · intro k i hk
    cases hk

omit [Fintype ι] in
/-- A lost message stays lost in the rest of a run. -/
theorem Lost.run {is : List ι} (h : Lost r v) (hrun : is.foldlM (Ring.step str) r = some r') :
    Lost r' v := by
  induction is generalizing r with
  | nil =>
    obtain rfl := Option.some.inj hrun
    exact h
  | cons i is ih =>
    obtain ⟨s, hstep, hrest⟩ := Option.bind_eq_some_iff.mp hrun
    exact ih (h.step hstep) hrest

/-- The calls stay in order in the rest of a run. -/
theorem drainOk_run {is : List ι} (h : DrainOk r.calls) (hcard : Fintype.card ι < 2 ^ 32)
    (hrun : is.foldlM (Ring.step str) r = some r') : DrainOk r'.calls := by
  induction is generalizing r with
  | nil =>
    obtain rfl := Option.some.inj hrun
    exact h
  | cons i is ih =>
    obtain ⟨s, hstep, hrest⟩ := Option.bind_eq_some_iff.mp hrun
    exact ih (h.step hcard (Ring.step_calls hstep)) hrest

/-- In a run either every push finds room, and the order is kept, or a message is lost. -/
theorem RingOk.run {is : List ι} (h : RingOk r) (hcard : Fintype.card ι < 2 ^ 32)
    (hrun : is.foldlM (Ring.step str) r = some r') :
    (AllSteps (Ring.step str) Ring.HasRoom r is ∧ RingOk r') ∨
      (¬ AllSteps (Ring.step str) Ring.HasRoom r is ∧ ∃ v, Lost r' v) := by
  induction is generalizing r with
  | nil =>
    obtain rfl := Option.some.inj hrun
    exact Or.inl ⟨trivial, h⟩
  | cons i is ih =>
    obtain ⟨s, hstep, hrest⟩ := Option.bind_eq_some_iff.mp hrun
    rw [allSteps_cons hstep]
    by_cases hroom : r.HasRoom i
    · rw [and_iff_right hroom]
      exact ih (h.step hcard hstep hroom) hrest
    · obtain ⟨v, hv⟩ := h.overwrite hstep hroom
      exact Or.inr ⟨fun hall => hroom hall.1, v, hv.run hrest⟩

/-- When all calls have returned and nothing was overwritten, every message has been popped once. -/
theorem RingOk.popped_once (h : RingOk r) (hall : ∀ i, r.calls.phase i = .returned) (i : ι) :
    r.popped.count (some i) = 1 := by
  have hlength : r.popped.length = r.put.length := by
    rw [← h.read, ← h.write]
    exact (h.calls.finished hall).1
  have hmem : i ∈ r.put := by
    rw [h.mem_put, hall i]
    decide
  rw [h.popped, hlength, ← List.length_map (f := some), List.take_length,
    List.count_map_of_injective _ _ (Option.some_injective ι)]
  exact List.count_eq_one_of_mem h.nodup hmem

/-- In every run at most one call drains, messages that nobody drains belong to a call that will try
to, and when all calls have returned, the queue is empty. Every message has then been popped once
exactly if no message was put while `MAX_MSG_QUEUE` others waited, and up to there they are popped
in the order in which they were put. -/
theorem consPutstr_pops_iff (hcard : Fintype.card ι < 2 ^ 32) (str : ι → List (BitVec 8))
    (buf : ℕ → BitVec 8) {is : List ι}
    (hrun : is.foldlM (Ring.step str) (Ring.init ι buf) = some r) :
    (∀ i j, (r.calls.phase i).Drains → (r.calls.phase j).Drains → i = j) ∧
      (r.calls.msgs.queue.runLock = 0 →
        r.calls.msgs.queue.readPos ≠ r.calls.msgs.queue.writePos →
          ∃ i, (r.calls.phase i).Between) ∧
      (AllSteps (Ring.step str) Ring.HasRoom (Ring.init ι buf) is →
        r.popped <+: r.put.map some) ∧
      ((∀ i, r.calls.phase i = .returned) →
        r.calls.msgs.queue.readPos = r.calls.msgs.queue.writePos ∧
          r.calls.msgs.queue.writePos = Fintype.card ι ∧
          ((∀ i, r.popped.count (some i) = 1) ↔
            AllSteps (Ring.step str) Ring.HasRoom (Ring.init ι buf) is)) := by
  have hok : DrainOk r.calls := drainOk_run (drainOk_init buf) hcard hrun
  refine ⟨fun i j => hok.run.unique, hok.between, fun hroom => ?_, fun hall => ?_⟩
  · rcases (ringOk_init buf).run hcard hrun with ⟨-, hring⟩ | ⟨hfull, -⟩
    · rw [hring.popped]
      exact List.take_prefix _ _
    · exact absurd hroom hfull
  · obtain ⟨hread, hwrite⟩ := hok.finished hall
    refine ⟨hread, hwrite, ?_⟩
    rcases (ringOk_init buf).run hcard hrun with ⟨hroom, hring⟩ | ⟨hfull, v, hlost⟩
    · exact iff_of_true (hring.popped_once hall) hroom
    · refine iff_of_false (fun honce => ?_) hfull
      have hnone := List.count_eq_zero_of_not_mem hlost.popped
      rw [honce v] at hnone
      cases hnone

/-- The calls `true` and `false`, in the order in which they take their steps. The second leaves its
message to the first. -/
def twoCalls : List Bool :=
  [true, true, true, true, false, false, false, false] ++ List.replicate 10 true

theorem consPutstr_pops_iff_two : ∃ r,
    twoCalls.foldlM (Ring.step fun _ => [65, 66]) (Ring.init Bool fun _ => 0) = some r ∧
      r.popped = [some true, some false] ∧ (∀ i, r.calls.phase i = .returned) ∧
      (∀ i, r.popped.count (some i) = 1) := by
  have hrun : (twoCalls.foldlM (Ring.step fun _ => [65, 66]) (Ring.init Bool fun _ => 0)).any
      (fun r => decide (r.popped = [some true, some false] ∧
        ∀ i, r.calls.phase i = .returned)) = true := by
    decide +kernel
  have hroom : AllSteps (Ring.step fun _ => [65, 66]) Ring.HasRoom (Ring.init Bool fun _ => 0)
      twoCalls := by
    decide +kernel
  obtain ⟨r, hr, hend⟩ := (Option.any_eq_true _ _).mp hrun
  obtain ⟨hpopped, hall⟩ := of_decide_eq_true hend
  obtain ⟨-, -, -, hlast⟩ := consPutstr_pops_iff (by decide) _ _ hr
  exact ⟨r, hr, hpopped, hall, (hlast hall).2.2.mpr hroom⟩

/-- 33 calls, all of which put their message before the first of them is popped. The call 0 drains
all of them. -/
def manyCalls : List (Fin 33) :=
  (List.finRange 33).flatMap (fun i => [i, i, i]) ++ List.finRange 33 ++ List.replicate 103 0

/-- The message of the call 0 is never popped, and that of the call 32 is popped twice. -/
theorem consPutstr_loses_first :
    (manyCalls.foldlM (Ring.step fun _ => [65]) (Ring.init (Fin 33) fun _ => 0)).any
      (fun r => decide ((∀ i, r.calls.phase i = .returned) ∧
        r.calls.msgs.queue.readPos = 33 ∧ r.popped.count (some 0) = 0 ∧
        r.popped.count (some 32) = 2)) = true := by
  decide +kernel

end Rings

end Smor.Console
