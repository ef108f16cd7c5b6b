import Smor.Isr
import Smor.Lib.Blocks
import Smor.Lib.Runs

/-!
# Threads on their stacks

The threads of a CPU, each with its own stack in one memory. `thread_create` builds the stack of a
new thread as if the thread had called `context_switch` from `thread_start`, which in turn
returns to `_isr_ret` with a frame that leads to the entry function. A thread that calls
`context_switch` leaves its registers on its stack and the stack pointer in its `thread_t`. In
between the current thread may do anything except write to the stacks and the saved stack
pointers of the threads that are switched away from; what other CPUs do is part of this. The
invariant has for each such thread the words that `context_switch` will find.
-/

namespace Smor.Isr

open Smor.Lib

/-- `&t->ctx`, for the thread at the address `t`. -/
def ctxField (t : Word) : Word := t + 24

theorem ctxField_injective {t t' : Word} (h : ctxField t = ctxField t') : t = t' := by
  unfold ctxField at h
  bv_omega

/-- `RFLAGS_IF`. -/
def rflagsIf : Word := 1 <<< 9

/-- The addresses of functions that `thread_create` refers to. -/
structure Symbols where
  threadStart : Word
  isrRet : Word

/-- The frame from which `_isr_ret` enters a new thread. -/
def entryFrame (stackTop entryFn : Word) : IsrFrame where
  r11 := 0
  r10 := 0
  r9 := 0
  r8 := 0
  rdx := 0
  rcx := 0
  rax := 0
  trapNum := 0
  trapErr := 0
  rip := entryFn
  cs := 0x08
  rflags := rflagsIf
  rsp := stackTop
  ss := 0x10

/-- The context of a new thread. -/
def startContext (sym : Symbols) : SwitchContext where
  r15 := 0
  r14 := 0
  r13 := 0
  r12 := 0
  rsi := 0
  rdi := 0
  rbp := 0
  rbx := 0
  rip := sym.threadStart

/-- `KMALLOC_CHUNK_SIZE`, the size of a stack. -/
def stackSize : ℕ := 0x4000

/-- What `thread_create` writes to the stack and to the field `ctx` of the thread at `t`. Its
other fields are not used here. -/
def threadCreate (sym : Symbols) (t stack entryFn : Word) (mem : Word → Word) : Word → Word :=
  let stackTop := stack + BitVec.ofNat 64 stackSize
  let sp := stackTop - 112
  let mem := storeWords mem sp (entryFrame stackTop entryFn).words
  let sp := sp - 8
  let mem := Function.update mem sp sym.isrRet
  let sp := sp - 72
  let mem := Function.update mem (ctxField t) sp
  storeWords mem sp (startContext sym).words

/-- `context_switch`. -/
def contextSwitch (m : Machine) : Machine := (m.run (contextSave ++ contextLoad)).ret

/-- How a thread that is not current came to be so. -/
inductive Origin
  /-- It has called `context_switch`, and was in this state at the first instruction. -/
  | switched (a : Machine)
  /-- It was made by `thread_create` and has not run. -/
  | created (stack entryFn : Word)

namespace Origin

/-- The value of `ctx`. -/
def ctx : Origin → Word
  | .switched a => a.reg .rsp - 64
  | .created stack _ => stack + BitVec.ofNat 64 stackSize - 192

/-- What stands there. -/
def context (sym : Symbols) : Origin → SwitchContext
  | .switched a => savedContext a
  | .created _ _ => startContext sym

/-- What stands behind the context, as far as it matters. -/
def above (sym : Symbols) : Origin → List Word
  | .switched _ => []
  | .created stack entryFn =>
    sym.isrRet :: (entryFrame (stack + BitVec.ofNat 64 stackSize) entryFn).words

/-- The words on the stack from the value of `ctx` on. -/
def words (sym : Symbols) (o : Origin) : List Word := (o.context sym).words ++ o.above sym

end Origin

/-- A CPU with its threads, which are given by the addresses of their `thread_t`. -/
structure System where
  machine : Machine
  /-- `cpu->lock.counter`. -/
  counter : ℕ
  /-- `cpu->cur_thread`. -/
  cur : Word
  /-- The threads that are not current. -/
  origin : Word → Option Origin
  /-- The stack of each thread. -/
  stack : Word → Block

/-- What happens next. -/
inductive Move
  /-- The current thread and other CPUs change registers and memory. -/
  | work (m : Machine) (counter : ℕ)
  /-- The current thread calls `context_switch(&cur->ctx, next->ctx)`. -/
  | switch (next : Word)
  /-- The current thread builds a new thread at the address `t`. -/
  | create (t stack entryFn : Word)

namespace System

/-- The threads of the CPU. -/
def IsThread (s : System) (t : Word) : Prop := t = s.cur ∨ s.origin t ≠ none

/-- One move. -/
def step (sym : Symbols) (s : System) : Move → Option System
  | .work m counter => some { s with machine := m, counter := counter }
  | .switch next => some { s with
      machine := contextSwitch s.machine
      cur := next
      origin := Function.update (Function.update s.origin s.cur (some (.switched s.machine))) next
        none }
  | .create t stack entryFn => some { s with
      machine := { s.machine with mem := threadCreate sym t stack entryFn s.machine.mem }
      origin := Function.update s.origin t (some (.created stack entryFn))
      stack := Function.update s.stack t ⟨stack, stackSize⟩ }

/-- When a move can happen. Nobody writes to the stack or the field `ctx` of a thread that is not
current; `context_switch` gets the addresses of its two contexts and has room on the stack; and
the memory of a new thread is not in use. -/
def Allowed (s : System) : Move → Prop
  | .work m _ => ∀ t, s.origin t ≠ none → (∀ a ∈ s.stack t, m.mem a = s.machine.mem a) ∧
      m.mem (ctxField t) = s.machine.mem (ctxField t)
  | .switch next => s.origin next ≠ none ∧ s.machine.reg .rdi = ctxField s.cur ∧
      s.machine.reg .rsi = s.machine.mem (ctxField next) ∧
      ∀ k < 9, wordAt (s.machine.reg .rsp - 64) k ∈ s.stack s.cur
  | .create t stack _ => ¬ s.IsThread t ∧ ctxField t ∉ Block.mk stack stackSize ∧
      ∀ t', s.IsThread t' → ctxField t ∉ s.stack t' ∧ ctxField t' ∉ Block.mk stack stackSize ∧
        ∀ a ∈ s.stack t', a ∉ Block.mk stack stackSize

/-- One thread, which runs on its stack. -/
def Boot (s : System) : Prop := (∀ t, s.origin t = none) ∧ ctxField s.cur ∉ s.stack s.cur

end System

/-- The words that `context_switch` will find for a thread are on its stack. -/
structure Saved (sym : Symbols) (mem : Word → Word) (stack : Block) (t : Word) (o : Origin) :
    Prop where
  ctx : mem (ctxField t) = o.ctx
  own : ∀ k < (o.words sym).length, wordAt o.ctx k ∈ stack
  words : Holds mem o.ctx (o.words sym)

/-- The threads have separate stacks, and those that are not current are saved on them. -/
structure SystemOk (sym : Symbols) (s : System) : Prop where
  cur : s.origin s.cur = none
  apart : ∀ t t', s.IsThread t → s.IsThread t' → t ≠ t' → ∀ a ∈ s.stack t, a ∉ s.stack t'
  ctx : ∀ t t', s.IsThread t → s.IsThread t' → ctxField t ∉ s.stack t'
  saved : ∀ t o, s.origin t = some o → Saved sym s.machine.mem (s.stack t) t o

section Memory

variable {sym : Symbols} {mem mem' : Word → Word} {stack : Block} {t : Word} {o : Origin}

/-- What is not on the stack and not in the field `ctx` does not matter. -/
theorem Saved.congr (h : Saved sym mem stack t o) (hstack : ∀ a ∈ stack, mem' a = mem a)
    (hctx : mem' (ctxField t) = mem (ctxField t)) : Saved sym mem' stack t o :=
  ⟨hctx.trans h.ctx, h.own, h.words.congr fun k hk => hstack _ (h.own k hk)⟩

/-- The stores of `thread_create`, with their addresses from the value of `ctx` on. -/
theorem threadCreate_eq (base entryFn : Word) :
    threadCreate sym t base entryFn mem =
      let ctx := (Origin.created base entryFn).ctx
      storeWords (Function.update (Function.update (storeWords mem (wordAt ctx 10)
        (entryFrame (base + BitVec.ofNat 64 stackSize) entryFn).words) (wordAt ctx 9) sym.isrRet)
        (ctxField t) ctx) ctx (startContext sym).words := by
  have hframe : base + BitVec.ofNat 64 stackSize - 112 =
      wordAt (base + BitVec.ofNat 64 stackSize - 192) 10 := by
    unfold wordAt
    bv_omega
  have hret : base + BitVec.ofNat 64 stackSize - 112 - 8 =
      wordAt (base + BitVec.ofNat 64 stackSize - 192) 9 := by
    unfold wordAt
    bv_omega
  have hctx : base + BitVec.ofNat 64 stackSize - 112 - 8 - 72 =
      base + BitVec.ofNat 64 stackSize - 192 := by bv_omega
  simp only [threadCreate, Origin.ctx, hctx]
  rw [hret, hframe]

/-- The words of a new thread are on its stack. -/
theorem wordAt_created (base entryFn : Word) {k : ℕ} (hk : k < 24) :
    wordAt (Origin.created base entryFn).ctx k ∈ Block.mk base stackSize := by
  rw [Block.mem_def]
  unfold Origin.ctx wordAt stackSize
  dsimp only
  bv_omega

/-- `thread_create` writes to its stack and to its field `ctx`. -/
theorem threadCreate_of_notMem {base entryFn a : Word} (ha : a ∉ Block.mk base stackSize)
    (hctx : a ≠ ctxField t) : threadCreate sym t base entryFn mem a = mem a := by
  have hne : ∀ k < 24, a ≠ wordAt (Origin.created base entryFn).ctx k :=
    fun k hk heq => ha (heq ▸ wordAt_created base entryFn hk)
  rw [threadCreate_eq]
  dsimp only
  rw [storeWords_of_ne, Function.update_of_ne hctx, Function.update_of_ne (hne 9 (by omega)),
    storeWords_of_ne]
  · intro k hk
    have hk' : k < 14 := hk
    rw [← wordAt_add]
    exact hne _ (by omega)
  · intro k hk
    have hk' : k < 9 := hk
    exact hne k (by omega)

/-- The stack that `thread_create` builds. -/
theorem saved_threadCreate {base entryFn : Word} (ht : ctxField t ∉ Block.mk base stackSize) :
    Saved sym (threadCreate sym t base entryFn mem) ⟨base, stackSize⟩ t
      (.created base entryFn) := by
  have hne : ∀ k < 24, wordAt (Origin.created base entryFn).ctx k ≠ ctxField t :=
    fun k hk heq => ht (heq ▸ wordAt_created base entryFn hk)
  rw [threadCreate_eq]
  dsimp only
  generalize hctx : (Origin.created base entryFn).ctx = ctx at *
  refine ⟨?_, fun k hk => ?_, ?_⟩
  · rw [storeWords_of_ne, Function.update_self, hctx]
    intro k hk
    have hk' : k < 9 := hk
    exact (hne k (by omega)).symm
  · exact wordAt_created base entryFn hk
  · rw [hctx]
    apply Holds.append (holds_storeWords (by simp))
    -- the words behind the context, which the later stores do not reach
    have hframe : Holds (storeWords mem (wordAt ctx 10)
        (entryFrame (base + BitVec.ofNat 64 stackSize) entryFn).words) (wordAt ctx 10) _ :=
      holds_storeWords (by simp [isrFrameSize])
    have habove : Holds (Function.update (storeWords mem (wordAt ctx 10)
        (entryFrame (base + BitVec.ofNat 64 stackSize) entryFn).words) (wordAt ctx 9) sym.isrRet)
        (wordAt ctx 9) ([sym.isrRet] ++
          (entryFrame (base + BitVec.ofNat 64 stackSize) entryFn).words) := by
      apply Holds.append
      · intro k hk
        obtain rfl : k = 0 := by simpa using hk
        simp
      · rw [← wordAt_add]
        refine hframe.congr fun k hk => Function.update_of_ne ?_ _ _
        have hk' : k < 14 := hk
        rw [← wordAt_add]
        intro heq
        have := wordAt_injective (by omega) (by omega) heq
        omega
    refine habove.congr fun k hk => ?_
    have hk' : k < 15 := hk
    change storeWords _ _ _ (wordAt (wordAt ctx 9) k) = _
    rw [← wordAt_add, storeWords_of_ne, Function.update_of_ne (hne _ (by omega))]
    intro j hj heq
    have hj' : j < 9 := hj
    have := wordAt_injective (by omega) (by omega) heq
    omega

/-- `context_switch` writes below the stack pointer and to the field `ctx`. -/
theorem contextSave_of_ne {m : Machine} {a : Word} (ha : ∀ k < 8, a ≠ wordAt (m.reg .rsp - 64) k)
    (hctx : a ≠ m.reg .rdi) : (m.run contextSave).mem a = m.mem a := by
  have hpush : ∀ j < 8, a ≠ m.reg .rsp - BitVec.ofNat 64 (8 * (j + 1)) := by
    intro j hj heq
    apply ha (7 - j) (by omega)
    rw [heq]
    unfold wordAt
    bv_omega
  have hrdi : (m.run contextPush).reg .rdi = m.reg .rdi := contextPush_reg m .rdi
  rw [run_contextSave]
  change Function.update (m.run contextPush).mem ((m.run contextPush).reg .rdi) _ a = _
  rw [hrdi, Function.update_of_ne hctx]
  exact @Machine.run_push_mem [.rbx, .rbp, .rdi, .rsi, .r12, .r13, .r14, .r15] m a hpush

/-- A thread that calls `context_switch` is saved on its stack. -/
theorem saved_contextSave {m : Machine} (hrdi : m.reg .rdi = ctxField t)
    (hown : ∀ k < 9, wordAt (m.reg .rsp - 64) k ∈ stack) (hctx : ctxField t ∉ stack) :
    Saved sym (m.run contextSave).mem stack t (.switched m) := by
  have hreg : (m.run contextPush).reg .rdi = ctxField t := (contextPush_reg m .rdi).trans hrdi
  have hrsp : (m.run contextPush).reg .rsp = m.reg .rsp - 64 := contextPush_reg m .rsp
  refine ⟨?_, hown, ?_⟩
  · rw [run_contextSave, ← hreg, Machine.storeRsp_mem]
    exact hrsp
  · have htop : (m.run contextPush).HasTop _ := contextPush_hasTop (Nat.zero_le _) m
    rw [Machine.hasTop_iff_holds, hrsp] at htop
    refine Holds.congr htop fun k hk => ?_
    have hne : wordAt (Origin.switched m).ctx k ≠ ctxField t := fun heq => hctx (heq ▸ hown k hk)
    rw [run_contextSave]
    change Function.update (m.run contextPush).mem ((m.run contextPush).reg .rdi) _ _ = _
    rw [hreg, Function.update_of_ne hne]

/-- The thread that `context_switch` switches to continues with what is saved on its stack. -/
theorem contextSwitch_spec {m : Machine} (hrsi : m.reg .rsi = o.ctx)
    (h : Saved sym (m.run contextSave).mem stack t o) :
    (contextSwitch m).rip = (o.context sym).rip ∧ (contextSwitch m).reg .rsp = o.ctx + 72 ∧
    (contextSwitch m).HasTop (o.above sym) ∧
    ∀ p ∈ (o.context sym).regs, (contextSwitch m).reg p.1 = p.2 := by
  have hreg : (m.run contextSave).reg .rsi = o.ctx := by
    rw [run_contextSave, Machine.storeRsp_reg]
    exact (contextPush_reg m .rsi).trans hrsi
  have htop : ((m.run contextSave).setRsp ((m.run contextSave).reg .rsi)).HasTop (o.words sym) := by
    rw [Machine.hasTop_iff_holds, Machine.setRsp_reg, Function.update_self, hreg]
    exact h.words
  obtain ⟨hrip, hrsp, habove, hregs⟩ := contextLoad_spec htop
  rw [contextSwitch, Machine.run_append]
  exact ⟨hrip, hreg ▸ hrsp, habove, hregs⟩

end Memory

section Runs

variable {sym : Symbols} {s s' : System} {t : Word} {o : Origin}

/-- A call of `context_switch` writes to the stack of its own thread and to its field `ctx`. -/
theorem SystemOk.contextSave_saved (h : SystemOk sym s) {next : Word}
    (hmove : s.Allowed (.switch next)) (ht : s.origin t = some o) :
    Saved sym (s.machine.run contextSave).mem (s.stack t) t o := by
  obtain ⟨-, hrdi, -, hroom⟩ := hmove
  have hthread : s.IsThread t := Or.inr (by simp [ht])
  have hcur : s.IsThread s.cur := Or.inl rfl
  have hne : t ≠ s.cur := by
    rintro rfl
    rw [h.cur] at ht
    exact absurd ht (by simp)
  apply (h.saved t o ht).congr
  · intro a ha
    apply contextSave_of_ne
    · rintro k hk rfl
      exact h.apart t s.cur hthread hcur hne _ ha (hroom k (by omega))
    · rintro rfl
      rw [hrdi] at ha
      exact h.ctx s.cur t hcur hthread ha
  · apply contextSave_of_ne
    · intro k hk heq
      exact h.ctx t s.cur hthread hcur (heq ▸ hroom k (by omega))
    · rw [hrdi]
      exact fun heq => hne (ctxField_injective heq)

/-- The same threads after a switch. -/
theorem System.isThread_switch {next : Word} (hnext : s.origin next ≠ none) (machine : Machine)
    (t : Word) :
    System.IsThread { s with
      machine := machine
      cur := next
      origin := Function.update (Function.update s.origin s.cur (some (.switched s.machine))) next
        none } t ↔ s.IsThread t := by
  unfold System.IsThread
  by_cases htn : t = next
  · subst htn
    simp [hnext]
  · by_cases htc : t = s.cur
    · subst htc
      simp [Function.update_of_ne htn]
    · simp [htn, htc]

/-- Every move keeps the stacks separate and the threads saved. -/
theorem SystemOk.step (h : SystemOk sym s) {move : Move} (hmove : s.Allowed move)
    (hstep : s.step sym move = some s') : SystemOk sym s' := by
  cases move with
  | work m counter =>
    cases hstep
    refine ⟨h.cur, h.apart, h.ctx, fun t o ht => ?_⟩
    obtain ⟨hstack, hctx⟩ := hmove t (by simp [show s.origin t = some o from ht])
    exact (h.saved t o ht).congr hstack hctx
  | switch next =>
    cases hstep
    have hthread := System.isThread_switch (s := s) hmove.1 (contextSwitch s.machine)
    refine ⟨Function.update_self _ _ _, fun t t' ht ht' => ?_, fun t t' ht ht' => ?_,
      fun t o ht => ?_⟩
    · exact h.apart t t' ((hthread t).mp ht) ((hthread t').mp ht')
    · exact h.ctx t t' ((hthread t).mp ht) ((hthread t').mp ht')
    · change Function.update (Function.update s.origin s.cur _) next none t = some o at ht
      change Saved sym (s.machine.run contextSave).mem (s.stack t) t o
      by_cases htn : t = next
      · rw [htn, Function.update_self] at ht
        exact absurd ht (by simp)
      rw [Function.update_of_ne htn] at ht
      by_cases htc : t = s.cur
      · rw [htc, Function.update_self, Option.some.injEq] at ht
        subst htc ht
        obtain ⟨-, hrdi, -, hroom⟩ := hmove
        exact saved_contextSave hrdi hroom (h.ctx s.cur s.cur (Or.inl rfl) (Or.inl rfl))
      · rw [Function.update_of_ne htc] at ht
        exact h.contextSave_saved hmove ht
  | create t stack entryFn =>
    cases hstep
    obtain ⟨hnew, hctx, hfree⟩ := hmove
    have hold : ∀ x, s.IsThread x → x ≠ t := fun x hx heq => hnew (heq ▸ hx)
    have hcases : ∀ x, System.IsThread { s with
        machine := { s.machine with mem := threadCreate sym t stack entryFn s.machine.mem }
        origin := Function.update s.origin t (some (.created stack entryFn))
        stack := Function.update s.stack t ⟨stack, stackSize⟩ } x → x = t ∨ s.IsThread x := by
      rintro x (hx | hx)
      · exact Or.inr (Or.inl hx)
      · by_cases hxt : x = t
        · exact Or.inl hxt
        · dsimp only at hx
          rw [Function.update_of_ne hxt] at hx
          exact Or.inr (Or.inr hx)
    refine ⟨?_, fun x x' hx hx' hne => ?_, fun x x' hx hx' => ?_, fun x o hx => ?_⟩
    · dsimp only
      rw [Function.update_of_ne (hold _ (Or.inl rfl))]
      exact h.cur
    · dsimp only
      rcases hcases x hx with rfl | hold₁ <;> rcases hcases x' hx' with rfl | hold₂
      · exact absurd rfl hne
      · rw [Function.update_self, Function.update_of_ne (hold x' hold₂)]
        exact fun a ha ha' => (hfree x' hold₂).2.2 a ha' ha
      · rw [Function.update_self, Function.update_of_ne (hold x hold₁)]
        exact (hfree x hold₁).2.2
      · rw [Function.update_of_ne (hold x hold₁), Function.update_of_ne (hold x' hold₂)]
        exact h.apart x x' hold₁ hold₂ hne
    · dsimp only
      rcases hcases x hx with rfl | hold₁ <;> rcases hcases x' hx' with rfl | hold₂
      · rw [Function.update_self]
        exact hctx
      · rw [Function.update_of_ne (hold x' hold₂)]
        exact (hfree x' hold₂).1
      · rw [Function.update_self]
        exact (hfree x hold₁).2.1
      · rw [Function.update_of_ne (hold x' hold₂)]
        exact h.ctx x x' hold₁ hold₂
    · dsimp only at hx ⊢
      by_cases hxt : x = t
      · subst hxt
        rw [Function.update_self, Option.some.injEq] at hx
        subst hx
        rw [Function.update_self]
        exact saved_threadCreate hctx
      · rw [Function.update_of_ne hxt] at hx
        rw [Function.update_of_ne hxt]
        have hthread : s.IsThread x := Or.inr (by simp [hx])
        obtain ⟨hfield, hfield', hstack⟩ := hfree x hthread
        apply (h.saved x o hx).congr
        · intro a ha
          apply threadCreate_of_notMem (hstack a ha)
          rintro rfl
          exact hfield ha
        · exact threadCreate_of_notMem hfield' fun heq => hxt (ctxField_injective heq)

theorem systemOk_of_reaches {s₀ : System} (h₀ : s₀.Boot)
    (hrun : Reaches (System.step sym) System.Allowed s₀ s) : SystemOk sym s := by
  refine hrun.invariant ?_ fun _ _ _ h hmove hstep => h.step hmove hstep
  obtain ⟨horigin, hctx⟩ := h₀
  have honly : ∀ t, s₀.IsThread t → t = s₀.cur := by
    rintro t (rfl | ht)
    · rfl
    · exact absurd (horigin t) ht
  refine ⟨horigin _, fun t t' ht ht' hne => ?_, fun t t' ht ht' => ?_, fun t o ht => ?_⟩
  · exact absurd ((honly t ht).trans (honly t' ht').symm) hne
  · rw [honly t ht, honly t' ht']
    exact hctx
  · rw [horigin] at ht
    exact absurd ht (by simp)

/-- The runs in which a thread is not switched to. -/
def System.Away (t : Word) (s : System) (move : Move) : Prop :=
  s.Allowed move ∧ move ≠ .switch t

/-- A thread that is not switched to stays as it is. -/
theorem SystemOk.away (h : SystemOk sym s) (ht : s.origin t = some o)
    (hrun : Reaches (System.step sym) (System.Away t) s s') :
    SystemOk sym s' ∧ s'.origin t = some o := by
  refine hrun.invariant (I := fun s => SystemOk sym s ∧ s.origin t = some o) ⟨h, ht⟩ ?_
  rintro s move s' ⟨hs, ht⟩ ⟨hmove, hne⟩ hstep
  refine ⟨hs.step hmove hstep, ?_⟩
  cases move with
  | work m counter =>
    cases hstep
    exact ht
  | switch next =>
    cases hstep
    have hnext : t ≠ next := fun heq => hne (heq ▸ rfl)
    have hcur : t ≠ s.cur := by
      rintro rfl
      rw [hs.cur] at ht
      exact absurd ht (by simp)
    dsimp only
    rw [Function.update_of_ne hnext, Function.update_of_ne hcur]
    exact ht
  | create t' stack entryFn =>
    cases hstep
    have hold : t ≠ t' := by
      rintro rfl
      exact hmove.1 (Or.inr (by simp [ht]))
    exact (Function.update_of_ne hold _ _).trans ht

/-- A switch to a thread continues it with what was saved of it. -/
theorem SystemOk.resumes (h : SystemOk sym s) (ht : s.origin t = some o)
    (hmove : s.Allowed (.switch t)) :
    (contextSwitch s.machine).rip = (o.context sym).rip ∧
    (contextSwitch s.machine).reg .rsp = o.ctx + 72 ∧
    (contextSwitch s.machine).HasTop (o.above sym) ∧
    ∀ p ∈ (o.context sym).regs, (contextSwitch s.machine).reg p.1 = p.2 :=
  contextSwitch_spec (hmove.2.2.1.trans (h.saved t o ht).ctx) (h.contextSave_saved hmove ht)

/-- `spinlock_unlock`, which swaps the counter from 1 to 0. -/
def spinlockUnlock (counter : ℕ) : ℕ := if counter = 1 then 0 else counter

/-- `thread_start` from its first instruction to its return, as compiled code: it obeys the calling
convention and releases the lock of the CPU. -/
structure ThreadStart (a b : Machine) (counter counter' : ℕ) : Prop where
  call : SysVCall isrFrameSize a b
  unlock : counter' = spinlockUnlock counter

/-- The way of a new thread from `thread_start` to its entry function. -/
theorem ThreadStart.enters {a b : Machine} {counter counter' : ℕ} {stack entryFn : Word}
    (h : ThreadStart a b counter counter')
    (htop : a.HasTop ((Origin.created stack entryFn).above sym)) :
    (counter = 1 → counter' = 0) ∧ b.rip = sym.isrRet ∧ (isrRet b).rip = entryFn ∧
    (isrRet b).reg .rsp = stack + BitVec.ofNat 64 stackSize ∧ (isrRet b).cs = 0x08 ∧
    (isrRet b).ss = 0x10 ∧ (isrRet b).rflags &&& rflagsIf = rflagsIf := by
  have hframe : b.HasTop (entryFrame (stack + BitVec.ofNat 64 stackSize) entryFn).words := by
    intro k hk
    rw [h.call.kept k hk, htop (k + 1) (Nat.succ_lt_succ hk)]
    exact List.getD_cons_succ
  obtain ⟨hrip, hcs, hflags, hss, hrsp, -⟩ := isrRet_frame hframe
  refine ⟨fun hone => ?_, h.call.rip.trans htop.slot_zero, hrip, hrsp, hcs, hss, ?_⟩
  · rw [h.unlock, spinlockUnlock, if_pos hone]
  · rw [hflags]
    exact BitVec.and_self

end Runs

/-- In every run of a CPU and its threads: a new thread that is switched to enters `thread_start`,
which releases the lock of the CPU and returns to `_isr_ret`, and this enters the entry function
at the top of the stack, with the segments of the kernel and interrupts on. A thread that has
called `context_switch` and is switched back to returns from the call, with the stack pointer and
the registers that a function keeps. -/
theorem context_switch_resumes {sym : Symbols} {s₀ s₁ s₂ s₃ s₄ : System} {move : Move} {t : Word}
    (h₀ : s₀.Boot) (hbefore : Reaches (System.step sym) System.Allowed s₀ s₁)
    (hmove : s₁.Allowed move) (hstep : s₁.step sym move = some s₂)
    (hrun : Reaches (System.step sym) (System.Away t) s₂ s₃)
    (hback : s₃.Allowed (.switch t)) (hswitch : s₃.step sym (.switch t) = some s₄) :
    (∀ stack entryFn, move = .create t stack entryFn → s₄.machine.rip = sym.threadStart ∧
      ∀ b counter, ThreadStart s₄.machine b s₃.counter counter →
        (s₃.counter = 1 → counter = 0) ∧ b.rip = sym.isrRet ∧ (isrRet b).rip = entryFn ∧
        (isrRet b).reg .rsp = stack + BitVec.ofNat 64 stackSize ∧ (isrRet b).cs = 0x08 ∧
        (isrRet b).ss = 0x10 ∧ (isrRet b).rflags &&& rflagsIf = rflagsIf) ∧
    (∀ next, move = .switch next → t = s₁.cur → s₄.machine.rip = s₁.machine.slot 0 ∧
      s₄.machine.reg .rsp = s₁.machine.reg .rsp + 8 ∧
      ∀ r ∈ calleeSaved, s₄.machine.reg r = s₁.machine.reg r) := by
  have h₁ := systemOk_of_reaches h₀ hbefore
  have h₂ := h₁.step hmove hstep
  cases hswitch
  constructor
  · rintro stack entryFn rfl
    cases hstep
    obtain ⟨h₃, ht⟩ := h₂.away (Function.update_self _ _ _) hrun
    obtain ⟨hrip, -, htop, -⟩ := h₃.resumes ht hback
    exact ⟨hrip, fun b counter hstart => hstart.enters htop⟩
  · rintro next rfl rfl
    cases hstep
    have hne : s₁.cur ≠ next := by
      rintro rfl
      exact hmove.1 h₁.cur
    have ht : Function.update (Function.update s₁.origin s₁.cur (some (.switched s₁.machine))) next
        none s₁.cur = some (.switched s₁.machine) := by
      rw [Function.update_of_ne hne, Function.update_self]
    obtain ⟨h₃, ht⟩ := h₂.away ht hrun
    obtain ⟨hrip, hrsp, -, hregs⟩ := h₃.resumes ht hback
    refine ⟨hrip, ?_, fun r hr => ?_⟩
    · dsimp only
      rw [hrsp, Origin.ctx]
      bv_omega
    · exact hregs (r, _) (mem_savedContext (List.mem_append_left _ hr))

/-- A function that returns at once obeys the calling convention. -/
theorem sysVCall_ret (depth : ℕ) (a : Machine) : SysVCall depth a a.ret := by
  refine ⟨fun r hr => ?_, by simp, rfl, fun k _ => a.slot_ret k⟩
  rw [Machine.ret_reg, Function.update_of_ne]
  rintro rfl
  exact absurd hr (by decide)

/-- The addresses of the functions, for a run. -/
def exampleSymbols : Symbols := ⟨0x1000, 0x2000⟩

/-- The first thread of a CPU, with its stack at 64K. -/
def firstThread : System where
  machine := quietMachine
  counter := 1
  cur := 0x20000 - 24
  origin _ := none
  stack _ := ⟨0xC000, 0x8000⟩

theorem firstThread_boot : firstThread.Boot := ⟨fun _ => rfl, by decide +kernel⟩

theorem firstThread_allowed : firstThread.Allowed (.create 0x30000 0x40000 0x5000) := by
  refine ⟨by simp [System.IsThread, firstThread], by decide +kernel, ?_⟩
  rintro t (rfl | ht)
  · refine ⟨by decide +kernel, by decide +kernel, fun a ha ha' => ?_⟩
    rw [Block.mem_def] at ha ha'
    simp only [firstThread, stackSize] at ha ha'
    bv_omega
  · exact absurd rfl ht

/-- The arguments of `context_switch` for a switch to the thread `t`. -/
def passContext (s : System) (t : Word) : System :=
  { s with
    machine := { s.machine with
      reg := fun r =>
        if r = .rdi then ctxField s.cur else if r = .rsi then s.machine.mem (ctxField t)
        else s.machine.reg r } }

theorem passContext_allowed (s : System) (t : Word) (counter : ℕ) :
    s.Allowed (.work (passContext s t).machine counter) :=
  fun _ _ => ⟨fun _ _ => rfl, rfl⟩

/-- A second thread has been created. -/
def withSecond : System where
  machine := { quietMachine with
    mem := threadCreate exampleSymbols 0x30000 0x40000 0x5000 quietMachine.mem }
  counter := 1
  cur := 0x20000 - 24
  origin := Function.update (fun _ => none) 0x30000 (some (.created 0x40000 0x5000))
  stack := Function.update (fun _ => ⟨0xC000, 0x8000⟩) 0x30000 ⟨0x40000, stackSize⟩

/-- The second thread has been switched to. -/
def secondRuns : System :=
  { passContext withSecond 0x30000 with
    machine := contextSwitch (passContext withSecond 0x30000).machine
    cur := 0x30000
    origin := Function.update (Function.update withSecond.origin (0x20000 - 24)
      (some (.switched (passContext withSecond 0x30000).machine))) 0x30000 none }

/-- The first thread creates the second and switches to it, and the second switches back. -/
theorem context_switch_resumes_twoThreads :
    (secondRuns.machine.rip = 0x1000 ∧ ∃ b, ThreadStart secondRuns.machine b 1 0 ∧
      b.rip = 0x2000 ∧ (isrRet b).rip = 0x5000 ∧ (isrRet b).reg .rsp = 0x44000) ∧
    ∃ s : System, (passContext secondRuns (0x20000 - 24)).step exampleSymbols
        (.switch (0x20000 - 24)) = some s ∧
      s.machine.rip = (passContext withSecond 0x30000).machine.slot 0 ∧
      s.machine.reg .rsp = 0x10008 := by
  have hcreate := firstThread_allowed
  have hsecond : Reaches (System.step exampleSymbols) System.Allowed firstThread withSecond :=
    (Reaches.refl _).tail hcreate rfl
  have hcalls : Reaches (System.step exampleSymbols) (System.Away 0x30000) withSecond
      (passContext withSecond 0x30000) :=
    (Reaches.refl _).tail ⟨passContext_allowed _ _ 1, by simp⟩ rfl
  have hthere : (passContext withSecond 0x30000).Allowed (.switch 0x30000) :=
    ⟨by simp [passContext, withSecond], rfl, rfl, by decide +kernel⟩
  constructor
  · obtain ⟨hrip, henters⟩ := (context_switch_resumes firstThread_boot (Reaches.refl _) hcreate rfl
      hcalls hthere rfl).1 0x40000 0x5000 rfl
    have hstart : ThreadStart secondRuns.machine secondRuns.machine.ret 1 0 :=
      ⟨sysVCall_ret _ _, rfl⟩
    obtain ⟨-, hret, hentry, hrsp, -⟩ := henters _ 0 hstart
    exact ⟨hrip, _, hstart, hret, hentry, hrsp⟩
  · have hbefore := hsecond.tail (passContext_allowed withSecond 0x30000 1) rfl
    have haway : Reaches (System.step exampleSymbols) (System.Away (0x20000 - 24)) secondRuns
        (passContext secondRuns (0x20000 - 24)) :=
      (Reaches.refl _).tail ⟨passContext_allowed _ _ 1, by simp⟩ rfl
    have hback : (passContext secondRuns (0x20000 - 24)).Allowed (.switch (0x20000 - 24)) :=
      ⟨by simp [passContext, secondRuns], rfl, rfl, by decide +kernel⟩
    obtain ⟨hrip, hrsp, -⟩ := (context_switch_resumes firstThread_boot hbefore hthere rfl haway
      hback rfl).2 0x30000 rfl rfl
    exact ⟨_, rfl, hrip, hrsp⟩

end Smor.Isr
