import Smor.Kbd.Keyboard
import Smor.Sched.WaitLists

/-!
# Readers of the keyboard

Any number of threads call `kbd_read`. A reader that finds the buffer empty waits for the
condition of the keyboard, and the interrupt that stores a code signals it. The critical
sections under `kbd.lock` are steps, and a wait has a second step in which its thread is put to
sleep. A signal may go to a reader that finds the buffer drained by another one. The
result says that no signal is lost: while codes are buffered and a reader sleeps, another reader
has been woken and is about to look at the buffer.
-/

namespace Smor.Kbd

open Smor.Lib Smor.Sched

/-- Threads, CPUs, and the keyboard. -/
structure Readers where
  world : World
  kbd : Keyboard
  /-- The threads that have blocked in `kbd_read` and have not tested the buffer since. -/
  blocked : ThreadRef → Bool

/-- The steps of readers, of the keyboard, and of everybody else. -/
inductive ReadersOp where
  /-- An operation that has nothing to do with the keyboard. -/
  | sched (op : Op)
  /-- `irq_handler` with a scan code. -/
  | irq (code : ℕ)
  /-- The current thread of a CPU tests the buffer in `kbd_read`, on entry or after a wait. -/
  | read (c : ℕ)

/-- One step, where `k` is the condition of the keyboard. A test either finds codes and copies
them, or it goes into `cond_wait` and releases `kbd.lock` there. -/
def Readers.step (k : ℕ) (s : Readers) : ReadersOp → Option Readers
  | .sched op => (s.world.step op).map fun w => { s with world := w }
  | .irq code =>
    let (kbd, signal) := irqHandler s.kbd code
    if signal then
      (s.world.step (.condSignal k)).map fun w => { s with world := w, kbd := kbd }
    else some { s with kbd := kbd }
  | .read c =>
    match kbdReadLocked s.kbd with
    | some (_, kbd) =>
      some { s with kbd := kbd, blocked := Function.update s.blocked (s.world.cur c) false }
    | none => (s.world.step (.condWait c k)).map fun w =>
        { s with world := w, blocked := Function.update s.blocked (s.world.cur c) true }

/-- The CPU whose current thread makes a call that can block. -/
def blockingCall : Op → Option ℕ
  | .sleep c _ | .yield c | .semaWait c _ | .condWait c _ => some c
  | .initCpu _ | .create _ _ | .tick _ | .wakeup _ | .finishWait _ | .semaSignal _
  | .condSignal _ => none

/-- The condition that an operation uses. -/
def condOf : Op → Option ℕ
  | .condWait _ k | .condSignal k => some k
  | .initCpu _ | .create _ _ | .tick _ | .sleep _ _ | .yield _ | .wakeup _ | .semaWait _ _
  | .finishWait _ | .semaSignal _ => none

/-- When a step can happen. Only `kbd_read` and the interrupt use the condition of the keyboard,
and a thread inside `kbd_read` makes no other call that can block. -/
def Readers.Allowed (k : ℕ) (s : Readers) : ReadersOp → Prop
  | .sched op => s.world.Waiting op ∧ condOf op ≠ some k ∧
      ∀ c ∈ blockingCall op, s.blocked (s.world.cur c) = false
  | .irq code => (irqHandler s.kbd code).2 = true → s.world.Enabled (.condSignal k)
  | .read c => s.world.Enabled (.condWait c k)

instance (k : ℕ) (s : Readers) (op : ReadersOp) : Decidable (s.Allowed k op) :=
  match op with
  | .sched _ => inferInstanceAs (Decidable (_ ∧ _ ∧ ∀ c ∈ blockingCall _, _))
  | .irq _ => inferInstanceAs (Decidable (_ → _))
  | .read c => inferInstanceAs (Decidable (s.world.Enabled (.condWait c k)))

/-- Memory before any CPU is up and any code has arrived. -/
def Readers.Boot (s : Readers) : Prop :=
  s.world.Boot ∧ (∀ i, s.world.listAt i = ThreadList.init) ∧ s.kbd = .init ∧
    ∀ t, s.blocked t = false

/-- The readers on the list of the keyboard are those that have blocked and have not been woken.
While codes are buffered and the list is not empty, one of them has been woken. -/
structure ReadersOk (k : ℕ) (s : Readers) (rings : ℕ → List ThreadRef)
    (lists : WaitId → List ThreadRef) (yielded : Set ThreadRef) : Prop where
  world : WorldOk s.world rings
  wait : WaitOk s.world lists yielded
  listed : ∀ t ∈ lists (.cond k), s.blocked t = true
  others : ∀ i ≠ .cond k, ∀ t ∈ lists i, s.blocked t = false
  running : ∀ t, s.blocked t = true → t ∉ lists (.cond k) → s.world.mem.state t = .running
  woken : s.kbd.readPos < s.kbd.writePos → lists (.cond k) ≠ [] →
    ∃ r, s.blocked r = true ∧ r ∉ lists (.cond k)
  bound : s.kbd.writePos < 2 ^ 32

section Lists

variable {w : World} {lists : WaitId → List ThreadRef} {op : Op} {k : ℕ} {i : WaitId}
  {t : ThreadRef}

/-- The other operations leave the list of the keyboard as it is. -/
theorem nextLists_cond (hcond : condOf op ≠ some k) :
    w.nextLists lists op (.cond k) = lists (.cond k) := by
  have hsema : ∀ s, WaitId.cond k ≠ .sema s := (by simp)
  cases op with
  | semaWait c s =>
    simp only [World.nextLists]
    split_ifs
    · rfl
    · exact Function.update_of_ne (hsema s) _ _
  | condWait c k' =>
    apply Function.update_of_ne
    rintro h
    cases h
    exact hcond rfl
  | semaSignal s => exact Function.update_of_ne (hsema s) _ _
  | condSignal k' =>
    apply Function.update_of_ne
    rintro h
    cases h
    exact hcond rfl
  | _ => rfl

/-- Threads get on a list only by a blocking call. -/
theorem mem_of_mem_nextLists (ht : t ∈ w.nextLists lists op i) :
    t ∈ lists i ∨ ∃ c, blockingCall op = some c ∧ t = w.cur c := by
  have htail : ∀ j, t ∈ Function.update lists j (lists j).tail i → t ∈ lists i := by
    intro j hmem
    by_cases heq : i = j
    · subst heq
      rw [Function.update_self] at hmem
      exact List.mem_of_mem_tail hmem
    · rwa [Function.update_of_ne heq] at hmem
  cases op with
  | semaWait c s =>
    simp only [World.nextLists] at ht
    split_ifs at ht
    · exact Or.inl ht
    · exact (mem_update_append.mp ht).imp_right fun h => ⟨c, rfl, h.2⟩
  | condWait c k' => exact (mem_update_append.mp ht).imp_right fun h => ⟨c, rfl, h.2⟩
  | semaSignal s => exact Or.inl (htail _ ht)
  | condSignal k' => exact Or.inl (htail _ ht)
  | _ => exact Or.inl ht

end Lists

section Steps

variable {k c code : ℕ} {s s' : Readers} {w : World} {rings rings' : ℕ → List ThreadRef}
  {lists : WaitId → List ThreadRef} {yielded : Set ThreadRef}

/-- Operations that have nothing to do with the keyboard. -/
theorem ReadersOk.sched (h : ReadersOk k s rings lists yielded) {op : Op}
    (hop : s.Allowed k (.sched op)) (hstep : s.world.step op = some w)
    (hworld : WorldOk w rings') :
    ReadersOk k { s with world := w } rings' (s.world.nextLists lists op)
      (s.world.nextYielded yielded op) := by
  obtain ⟨⟨hen, hwake⟩, hcond, hcalls⟩ := hop
  have hsame : s.world.nextLists lists op (.cond k) = lists (.cond k) :=
    nextLists_cond hcond
  refine ⟨hworld, h.wait.step h.world hen hwake hstep, ?_, fun i hi t ht => ?_,
    fun t ht hnot => ?_, ?_, h.bound⟩
  · rw [hsame]
    exact h.listed
  · rcases mem_of_mem_nextLists ht with ht | ⟨c, hc, rfl⟩
    · exact h.others i hi t ht
    · exact hcalls c hc
  · rw [hsame] at hnot
    apply h.world.running_step hen hstep (h.running t ht hnot)
    rintro c hc rfl
    cases op with
    | sleep c' ms =>
      obtain rfl := Option.some.inj hc
      have hcall := hcalls c' rfl
      rw [ht] at hcall
      simp at hcall
    | yield c' =>
      obtain rfl := Option.some.inj hc
      have hcall := hcalls c' rfl
      rw [ht] at hcall
      simp at hcall
    | finishWait c' =>
      -- a wait that ends now is on some list, and for a reader it is the list of the keyboard
      obtain rfl := Option.some.inj hc
      obtain ⟨i, hi⟩ := h.wait.blocking c' hen.1 hen.2
      by_cases heq : i = .cond k
      · subst heq
        exact hnot hi
      · have hother := h.others i heq _ hi
        rw [ht] at hother
        simp at hother
    | _ => simp [Op.sleeper] at hc
  · rw [hsame]
    exact h.woken

/-- An interrupt that stores no code. -/
theorem ReadersOk.modifiers (h : ReadersOk k s rings lists yielded) {kbd : Keyboard}
    (hread : kbd.readPos = s.kbd.readPos) (hwrite : kbd.writePos = s.kbd.writePos) :
    ReadersOk k { s with kbd := kbd } rings lists yielded := by
  refine ⟨h.world, h.wait, h.listed, h.others, h.running, ?_, ?_⟩
  · dsimp only
    rw [hread, hwrite]
    exact h.woken
  · dsimp only
    rw [hwrite]
    exact h.bound

/-- An interrupt that stores a code wakes the first reader on the list. -/
theorem ReadersOk.store (h : ReadersOk k s rings lists yielded)
    (hop : s.world.Enabled (.condSignal k)) (hstep : s.world.step (.condSignal k) = some w)
    (hworld : WorldOk w rings') :
    ReadersOk k { s with world := w, kbd := kbdStore s.kbd code } rings'
      (Function.update lists (.cond k) (lists (.cond k)).tail) yielded := by
  have hwait := h.wait.step h.world hop (by simp) hstep
  have hmarks := h.world.step_marks hop hstep
  refine ⟨hworld, hwait, fun t ht => ?_, fun i hi t ht => ?_, fun t ht hnot => ?_, fun _ hne => ?_,
    ?_⟩
  · rw [Function.update_self] at ht
    exact h.listed t (List.mem_of_mem_tail ht)
  · rw [Function.update_of_ne hi] at ht
    exact h.others i hi t ht
  · rw [Function.update_self] at hnot
    by_cases hlisted : t ∈ lists (.cond k)
    · -- it was the first reader on the list
      rcases hmarks.2 with ⟨hnull, -⟩ | ⟨hhead, hstate⟩
      · rw [h.wait.nil_of_head (i := .cond k) hnull] at hlisted
        simp at hlisted
      · obtain ⟨rest, hcons, -⟩ := h.wait.cons_of_head (i := .cond k) hhead
        rw [hcons, List.mem_cons] at hlisted
        rw [hcons, List.tail_cons] at hnot
        dsimp only
        rw [hstate, hlisted.resolve_right hnot]
        exact Function.update_self _ _ _
    · exact h.world.running_step hop hstep (h.running t ht hlisted) (by simp [Op.sleeper])
  · rw [Function.update_self] at hne ⊢
    have hchain := (h.wait.chain (.cond k)).nodup
    cases hcase : lists (.cond k) with
    | nil =>
      rw [hcase] at hne
      exact absurd rfl hne
    | cons r rest =>
      rw [hcase, List.nodup_cons] at hchain
      exact ⟨r, h.listed r (by simp [hcase]), hchain.1⟩
  · dsimp only [kbdStore]
    unfold u32
    exact Nat.mod_lt _ (by decide)

/-- A test that finds codes drains the buffer. -/
theorem ReadersOk.drain (h : ReadersOk k s rings lists yielded)
    (hop : s.world.Enabled (.condWait c k)) {codes : List ℕ} {kbd : Keyboard}
    (hread : kbdReadLocked s.kbd = some (codes, kbd)) :
    ReadersOk k { s with kbd := kbd, blocked := Function.update s.blocked (s.world.cur c) false }
      rings lists yielded := by
  have hnot := h.wait.cur_notMem h.world hop.1 hop.2.1
  have hkbd : kbd.readPos = s.kbd.writePos ∧ kbd.writePos = s.kbd.writePos := by
    unfold kbdReadLocked at hread
    split_ifs at hread with hempty
    rw [Option.some.injEq, kbdCopy_eq (by omega) h.bound, Prod.mk.injEq] at hread
    obtain ⟨-, rfl⟩ := hread
    exact ⟨rfl, rfl⟩
  refine ⟨h.world, h.wait, fun t ht => ?_, fun i hi t ht => ?_, fun t ht hmem => ?_,
    fun hbuffered => ?_, ?_⟩
  · have hne : t ≠ s.world.cur c := fun heq => hnot _ (heq ▸ ht)
    dsimp only
    rw [Function.update_of_ne hne]
    exact h.listed t ht
  · have hne : t ≠ s.world.cur c := fun heq => hnot _ (heq ▸ ht)
    dsimp only
    rw [Function.update_of_ne hne]
    exact h.others i hi t ht
  · have hne : t ≠ s.world.cur c := by
      rintro rfl
      simp at ht
    dsimp only at ht
    rw [Function.update_of_ne hne] at ht
    exact h.running t ht hmem
  · dsimp only at hbuffered
    rw [hkbd.1, hkbd.2] at hbuffered
    exact absurd hbuffered (lt_irrefl _)
  · dsimp only
    rw [hkbd.2]
    exact h.bound

/-- A test that finds no codes puts the reader on the list. -/
theorem ReadersOk.wait_step (h : ReadersOk k s rings lists yielded)
    (hop : s.world.Enabled (.condWait c k)) (hread : kbdReadLocked s.kbd = none)
    (hstep : s.world.step (.condWait c k) = some w) (hworld : WorldOk w rings') :
    ReadersOk k
      { s with world := w, blocked := Function.update s.blocked (s.world.cur c) true } rings'
      (Function.update lists (.cond k) (lists (.cond k) ++ [s.world.cur c])) yielded := by
  have hwait := h.wait.step h.world hop (by simp) hstep
  have hnot := h.wait.cur_notMem h.world hop.1 hop.2.1
  have hempty : s.kbd.writePos ≤ s.kbd.readPos := by
    unfold kbdReadLocked at hread
    split_ifs at hread with hempty
    exact hempty
  refine ⟨hworld, hwait, fun t ht => ?_, fun i hi t ht => ?_, fun t ht hmem => ?_,
    fun hbuffered => ?_, h.bound⟩
  · by_cases heq : t = s.world.cur c
    · rw [heq]
      exact Function.update_self _ _ _
    · rw [Function.update_self, List.mem_append, List.mem_singleton] at ht
      dsimp only
      rw [Function.update_of_ne heq]
      exact h.listed t (ht.resolve_right heq)
  · rw [Function.update_of_ne hi] at ht
    have hne : t ≠ s.world.cur c := fun heq => hnot _ (heq ▸ ht)
    dsimp only
    rw [Function.update_of_ne hne]
    exact h.others i hi t ht
  · rw [Function.update_self, List.mem_append, List.mem_singleton, not_or] at hmem
    dsimp only at ht
    rw [Function.update_of_ne hmem.2] at ht
    exact h.world.running_step hop hstep (h.running t ht hmem.1) (by simp [Op.sleeper])
  · exact absurd hbuffered (not_lt.mpr hempty)

/-- Every step keeps the readers in order. -/
theorem ReadersOk.step (h : ReadersOk k s rings lists yielded) {op : ReadersOp}
    (hop : s.Allowed k op) (hstep : s.step k op = some s') :
    ∃ rings' lists' yielded', ReadersOk k s' rings' lists' yielded' := by
  have hworld : ∀ {op' w}, s.world.Enabled op' → s.world.step op' = some w →
      ∃ rings', WorldOk w rings' := by
    intro op' w hen hw
    obtain ⟨w', rings', hw', hok⟩ := h.world.step hen
    rw [hw, Option.some.injEq] at hw'
    exact ⟨rings', hw' ▸ hok⟩
  cases op with
  | sched op =>
    obtain ⟨w, hw, rfl⟩ := Option.map_eq_some_iff.mp hstep
    obtain ⟨rings', hok⟩ := hworld hop.1.1 hw
    exact ⟨_, _, _, h.sched hop hw hok⟩
  | irq code =>
    rcases irqHandler_cases s.kbd code with ⟨-, hirq⟩ | ⟨-, hsignal, hread, hwrite, -⟩
    · have hen := hop (by rw [hirq])
      simp only [Readers.step, hirq, if_true] at hstep
      obtain ⟨w, hw, rfl⟩ := Option.map_eq_some_iff.mp hstep
      obtain ⟨rings', hok⟩ := hworld hen hw
      exact ⟨_, _, _, h.store hen hw hok⟩
    · simp only [Readers.step, hsignal] at hstep
      cases hstep
      exact ⟨_, _, _, h.modifiers hread hwrite⟩
  | read c =>
    cases hread : kbdReadLocked s.kbd with
    | some r =>
      simp only [Readers.step, hread] at hstep
      cases hstep
      exact ⟨_, _, _, h.drain hop hread⟩
    | none =>
      simp only [Readers.step, hread] at hstep
      obtain ⟨w, hw, rfl⟩ := Option.map_eq_some_iff.mp hstep
      have hen : s.world.Enabled (.condWait c k) := hop
      obtain ⟨rings', hok⟩ := hworld hen hw
      exact ⟨_, _, _, h.wait_step hen hread hw hok⟩

/-- All readers are in order in every state that is reached. -/
theorem readersOk_of_reaches {s₀ : Readers} (h₀ : s₀.Boot)
    (hrun : Reaches (Readers.step k) (Readers.Allowed k) s₀ s) :
    ∃ rings lists yielded, ReadersOk k s rings lists yielded := by
  obtain ⟨hboot, hlists, hkbd, hblocked⟩ := h₀
  apply hrun.invariant
  · refine ⟨_, _, _, hboot.worldOk, hboot.waitOk hlists, by simp, by simp, fun t ht => ?_, ?_, ?_⟩
    · rw [hblocked t] at ht
      simp at ht
    · intro _ hne
      exact absurd rfl hne
    · rw [hkbd]
      decide
  · rintro s op s' ⟨rings, lists, yielded, h⟩ hop hstep
    exact h.step hop hstep

end Steps

/-- In every run of interrupts, readers, and everything else but `thread_wakeup`: while a code is
buffered and a reader is on the list of the keyboard, there is a reader that has been taken off
the list, can run, and has not tested the buffer since. -/
theorem kbdRead_no_lost_wakeup {k : ℕ} {s₀ s : Readers} (h₀ : s₀.Boot)
    (hrun : Reaches (Readers.step k) (Readers.Allowed k) s₀ s)
    (hbuffered : s.kbd.readPos < s.kbd.writePos) {t : ThreadRef}
    (ht : s.world.OnList (.cond k) t) :
    s.blocked t = true ∧ ∃ r, s.blocked r = true ∧ (∀ i, ¬ s.world.OnList i r) ∧
      s.world.mem.state r = .running := by
  obtain ⟨rings, lists, yielded, h⟩ := readersOk_of_reaches h₀ hrun
  have hmem := h.wait.onList_iff.mp ht
  obtain ⟨r, hr, hnot⟩ := h.woken hbuffered (List.ne_nil_of_mem hmem)
  refine ⟨h.listed t hmem, r, hr, fun i hi => ?_, h.running r hr hnot⟩
  have hi := h.wait.onList_iff.mp hi
  by_cases heq : i = .cond k
  · subst heq
    exact hnot hi
  · have hother := h.others i heq r hi
    rw [hr] at hother
    simp at hother

/-- Two readers of one CPU block, and a key arrives: the first reader has been woken, and the
second is still on the list. -/
theorem kbdRead_no_lost_wakeup_twoReaders :
    ∃ s : Readers, s.kbd.readPos < s.kbd.writePos ∧ s.world.OnList (.cond 0) (.alloc 6) ∧
      ∃ r, s.blocked r = true ∧ (∀ i, ¬ s.world.OnList i r) ∧ s.world.mem.state r = .running := by
  let start : Readers := ⟨World.blank, .init, fun _ => false⟩
  have hrun : (runOps (Readers.step 0) (Readers.Allowed 0) start
      ([ReadersOp.sched (.initCpu 0), .sched (.create 0 5), .sched (.create 0 6)] ++
        List.replicate 8 (.sched (.tick 0)) ++
        [ReadersOp.read 0, .sched (.finishWait 0), .read 0, .sched (.finishWait 0),
          .irq 0x1E])).map (fun s =>
      (s.kbd.readPos, s.kbd.writePos, (s.world.conds 0).head, s.world.mem.nextWait (.alloc 6))) =
      some (0, 1, .alloc 6, .null) := by decide +kernel
  obtain ⟨s, hs, hvalue⟩ := Option.map_eq_some_iff.mp hrun
  simp only [Prod.mk.injEq] at hvalue
  obtain ⟨hread, hwrite, hhead, hnext⟩ := hvalue
  have hboot : start.Boot := ⟨World.blank_boot, World.blank_listAt, rfl, fun _ => rfl⟩
  have hbuffered : s.kbd.readPos < s.kbd.writePos := by omega
  have hlisted : s.world.OnList (.cond 0) (.alloc 6) := by
    refine ⟨[.alloc 6], ?_, by simp⟩
    exact chain_cons_iff.mpr ⟨hhead, by simp, by rw [hnext, chain_nil_iff]⟩
  exact ⟨s, hbuffered, hlisted,
    (kbdRead_no_lost_wakeup hboot (Reaches.of_runOps hs) hbuffered hlisted).2⟩

end Smor.Kbd
