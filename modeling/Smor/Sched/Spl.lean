import Smor.Sched.Handover

/-!
# The interrupt flag of a call

`cpu_lock_splhi` keeps the interrupt flag in the field `spl` of the CPU, and `cpu_unlock_splx`
enables interrupts by what it finds there. In between the call may be switched away from,
and another call keeps its own flag in the same field. On one CPU, a call returns with the flag
that it was entered with as long as the calls that wait in the scheduler at the same time were all
entered with the same flag. The invariant follows the flag of the current call through the steps
of the call, and has the flag of each call that waits in the scheduler in the field of the CPU.
-/

namespace Smor.Sched

open Smor.Lib

/-- What a call does between `cpu_lock_splhi` and `cpu_unlock_splx`. -/
inductive Section : List Instr → Prop
  | dump : Section []
  | sleep (ms : ℕ) : Section [.sleep ms]
  | yield : Section [.yieldLocked]
  | create (n : ℕ) : Section [.create n]

/-- Where a call keeps the flag that it was entered with, given the interrupt flag and the field
`spl` of its CPU. -/
inductive Phase (c : ℕ) (intr spl : Bool) (f : Frame) : Prop
  | start {body : List Instr} (hbody : Section body)
      (hcode : f.code = Code.cpuLockSplhi ++ body ++ Code.cpuUnlockSplx) (hintr : intr = f.flags)
  | raised {body : List Instr} (hbody : Section body)
      (hcode : f.code = [Instr.getCpu, .lock, .keepSpl] ++ body ++ Code.cpuUnlockSplx)
      (hintr : intr = false) (hspl : f.spl = f.flags)
  | found {body : List Instr} (hbody : Section body)
      (hcode : f.code = [Instr.lock, .keepSpl] ++ body ++ Code.cpuUnlockSplx)
      (hintr : intr = false) (hspl : f.spl = f.flags) (hcpu : f.cpu = c)
  | locked {body : List Instr} (hbody : Section body)
      (hcode : f.code = [Instr.keepSpl] ++ body ++ Code.cpuUnlockSplx)
      (hintr : intr = false) (hspl : f.spl = f.flags) (hcpu : f.cpu = c)
  | kept {body : List Instr} (hbody : Section body) (hcode : f.code = body ++ Code.cpuUnlockSplx)
      (hintr : intr = false) (hspl : spl = f.flags) (hcpu : f.cpu = c)
  | unlocked (hcode : f.code = [.restoreSpl]) (hintr : intr = false) (hspl : spl = f.flags)
      (hcpu : f.cpu = c)
  | done (hcode : f.code = []) (hintr : intr = f.flags)

/-- A timer interrupt, or the start of a thread. Both return to code with interrupts on. -/
structure Handler (f : Frame) : Prop where
  entry : f.entry = .interrupt
  flags : f.flags = true
  code : f.code <:+ Code.timerIrqHandler ∨ f.code <:+ Code.threadStart

/-- What a timer interrupt has interrupted: a thread outside of the kernel functions, or a call
that has not switched interrupts off. -/
inductive Interrupted (c : ℕ) : List Frame → Prop
  | thread : Interrupted c []
  | call {f : Frame} (hentry : f.entry = .call) (hphase : ∀ spl, Phase c true spl f) :
      Interrupted c [f]

/-- The frames of the current thread. -/
inductive Current (c : ℕ) (intr spl : Bool) : List Frame → Prop
  | thread : Current c intr spl []
  | call {f : Frame} (hentry : f.entry = .call) (hphase : Phase c intr spl f) :
      Current c intr spl [f]
  | handler {f : Frame} {rest : List Frame} (hhandler : Handler f) (hintr : intr = false)
      (hrest : Interrupted c rest) : Current c intr spl (f :: rest)

/-- The frames of another thread: it waits in the scheduler, in a call or in a timer interrupt. -/
inductive Parked (c : ℕ) (spl : Bool) : List Frame → Prop
  | call {f : Frame} (hentry : f.entry = .call) (hcode : f.code = Code.cpuUnlockSplx)
      (hcpu : f.cpu = c) (hspl : spl = f.flags) : Parked c spl [f]
  | handler {f : Frame} {rest : List Frame} (hhandler : Handler f) (hrest : Interrupted c rest) :
      Parked c spl (f :: rest)

/-- The flags of the calls of one CPU are kept. -/
structure SplOk (c : ℕ) (m : Machine) (rings : ℕ → List ThreadRef) : Prop where
  ring : RingsOk m.world rings
  live : ∀ n ∈ m.world.live, c ∈ m.world.online ∧ .alloc n ∈ rings c
  current : c ∈ m.world.online → Current c (m.intr c) (m.spl c) (m.frames (m.world.cur c))
  parked : c ∈ m.world.online → ∀ t ∈ rings c, t ≠ m.world.cur c →
    Parked c (m.spl c) (m.frames t)

/-- The calls of one CPU that use `cpu_lock_splhi`. -/
def Call.Local (c : ℕ) : Call → Prop
  | .sleep _ | .yield | .dump => True
  | .create id _ => id = c
  | .wakeup _ | .showCpus _ | .semaWait _ | .semaSignal _ | .condWaits _ _ => False

/-- The moves of one CPU with these calls and the timer. -/
def Move.Local (c : ℕ) : Move → Prop
  | .init c' | .exec c' | .ret c' | .timer c' | .setIntr c' _ => c' = c
  | .call c' op => c' = c ∧ op.Local c
  | .keyboard _ _ => False

/-- The threads of a CPU, when there is one CPU. -/
def World.threads (w : World) (c : ℕ) : Finset ThreadRef :=
  insert (.idle c) (w.live.image .alloc)

/-- When a call keeps its flag in the field of the CPU, the calls that wait in the scheduler were
entered with the same flag. -/
def Machine.Agrees (c : ℕ) (m : Machine) : Move → Prop
  | .exec _ => m.next c = some .keepSpl → ∀ f ∈ (m.frames (m.world.cur c)).head?,
      ∀ t ∈ m.world.threads c, t ≠ m.world.cur c → ∀ g ∈ (m.frames t).head?,
        g.entry = .call → g.flags = f.flags
  | .init _ | .call _ _ | .ret _ | .timer _ | .keyboard _ _ | .setIntr _ _ => True

/-- The runs of one CPU. -/
def Machine.OneCpu (c : ℕ) (m : Machine) (move : Move) : Prop := m.Allowed move ∧ move.Local c

/-- The runs of one CPU in which the calls that wait at the same time agree on the flag. -/
def Machine.OneLevel (c : ℕ) (m : Machine) (move : Move) : Prop :=
  m.OneCpu c move ∧ m.Agrees c move

instance (c : ℕ) (call : Call) : Decidable (call.Local c) :=
  match call with
  | .sleep _ | .yield | .dump => inferInstanceAs (Decidable True)
  | .create _ _ => inferInstanceAs (Decidable (_ = _))
  | .wakeup _ | .showCpus _ | .semaWait _ | .semaSignal _ | .condWaits _ _ =>
    inferInstanceAs (Decidable False)

instance (c : ℕ) (move : Move) : Decidable (move.Local c) :=
  match move with
  | .init _ | .exec _ | .ret _ | .timer _ | .setIntr _ _ => inferInstanceAs (Decidable (_ = _))
  | .call _ op => inferInstanceAs (Decidable (_ ∧ op.Local c))
  | .keyboard _ _ => inferInstanceAs (Decidable False)

instance (c : ℕ) (m : Machine) (move : Move) : Decidable (m.Agrees c move) :=
  match move with
  | .exec _ => inferInstanceAs (Decidable (_ → ∀ f ∈ (_ : Option Frame),
      ∀ t ∈ (_ : Finset ThreadRef), _ → ∀ g ∈ (_ : Option Frame), _ → _))
  | .init _ | .call _ _ | .ret _ | .timer _ | .keyboard _ _ | .setIntr _ _ =>
    inferInstanceAs (Decidable True)

instance (c : ℕ) (m : Machine) (move : Move) : Decidable (m.OneCpu c move) :=
  inferInstanceAs (Decidable (_ ∧ _))

instance (c : ℕ) (m : Machine) (move : Move) : Decidable (m.OneLevel c move) :=
  inferInstanceAs (Decidable (_ ∧ _))

section Steps

variable {m m' : Machine} {rings : ℕ → List ThreadRef} {c : ℕ} {fs rest : List Frame} {f : Frame}

/-- New frames for the current thread. The flags of the parked calls stay in the field `spl`. -/
theorem SplOk.update (h : SplOk c m rings)
    (hframes : m'.frames = Function.update m.frames (m.world.cur c) fs)
    (hworld : m'.world = m.world) (hcurrent : Current c (m'.intr c) (m'.spl c) fs)
    (hparked : ∀ t ∈ rings c, t ≠ m.world.cur c → Parked c (m'.spl c) (m.frames t)) :
    SplOk c m' rings := by
  refine ⟨hworld ▸ h.ring, hworld ▸ h.live, fun _ => ?_, fun _ t ht hne => ?_⟩
  · rw [hframes, hworld, Function.update_self]
    exact hcurrent
  · rw [hworld] at hne
    rw [hframes, Function.update_of_ne hne]
    exact hparked t ht hne

/-- A thread that is switched to goes on with interrupts off. -/
theorem Parked.current {spl : Bool} (h : Parked c spl fs) : Current c false spl fs := by
  cases h with
  | call hentry hcode hcpu hspl => exact .call hentry (.kept .dump hcode rfl hspl hcpu)
  | handler hhandler hrest => exact .handler hhandler rfl hrest

/-- The scheduler has chosen a thread. -/
theorem SplOk.switch (h : SplOk c m rings) (hc : c ∈ m.world.online) {w : World}
    (hring : RingsOk w rings) (honline : w.online = m.world.online)
    (hlive : w.live = m.world.live) (hintr : m.intr c = false) (hpark : Parked c (m.spl c) fs) :
    SplOk c { m.setTop c fs with world := w } rings := by
  refine ⟨hring, ?_, fun _ => ?_, fun _ t ht hne => ?_⟩
  · dsimp only
    rw [hlive, honline]
    exact h.live
  · change Current c (m.intr c) (m.spl c) (Function.update m.frames _ fs (w.cur c))
    rw [hintr]
    by_cases hsame : w.cur c = m.world.cur c
    · rw [hsame, Function.update_self]
      exact hpark.current
    · -- the thread that is switched to was parked, and interrupts are off
      rw [Function.update_of_ne hsame]
      exact (h.parked hc _ (hring.cur c (honline ▸ hc)) hsame).current
  · change Parked c (m.spl c) (Function.update m.frames _ fs t)
    by_cases hold : t = m.world.cur c
    · rw [hold, Function.update_self]
      exact hpark
    · rw [Function.update_of_ne hold]
      exact h.parked hc t ht hold

/-- A new thread starts as one that is parked. -/
theorem Handler.fresh : Handler Frame.fresh := ⟨rfl, rfl, Or.inr (List.suffix_refl _)⟩

/-- A thread is created. The current thread, which has interrupts off, goes on. -/
theorem SplOk.addThread (h : SplOk c m rings) (hc : c ∈ m.world.online) {n : ℕ}
    (hn : n ∉ m.world.live) {w : World} (hw : m.world.step (.create c n) = some w)
    (hcurrent : Current c (m.intr c) (m.spl c) fs) :
    SplOk c
      { m with
        world := w
        frames := Function.update (m.setTop c fs).frames (.alloc n) [Frame.fresh] }
      (Function.update rings c (rings c ++ [.alloc n])) := by
  cases hw
  have hcur := h.ring.cur c hc
  have hne : m.world.cur c ≠ .alloc n := fun heq => h.ring.alloc_notMem hc hn (heq ▸ hcur)
  refine ⟨h.ring.create hc hn, fun n' hn' => ?_, fun _ => ?_, fun _ t ht htc => ?_⟩
  · rw [Function.update_self, List.mem_append, List.mem_singleton]
    rcases Finset.mem_insert.mp hn' with rfl | hn'
    · exact ⟨hc, Or.inr rfl⟩
    · exact ⟨hc, Or.inl (h.live n' hn').2⟩
  · change Current c (m.intr c) (m.spl c)
      (Function.update (m.setTop c fs).frames (.alloc n) [Frame.fresh] ((m.world.setCpu c _).cur c))
    rw [h.ring.cur_create hc, Function.update_of_ne hne, Machine.setTop_frames,
      Function.update_self]
    exact hcurrent
  · change t ≠ (m.world.setCpu c _).cur c at htc
    rw [h.ring.cur_create hc] at htc
    rw [Function.update_self, List.mem_append, List.mem_singleton] at ht
    dsimp only
    rcases ht with ht | rfl
    · have hold : t ≠ .alloc n := fun heq => h.ring.alloc_notMem hc hn (heq ▸ ht)
      rw [Function.update_of_ne hold, Machine.setTop_frames, Function.update_of_ne htc]
      exact h.parked hc t ht htc
    · rw [Function.update_self]
      exact .handler .fresh .thread

/-- Another flag in the field of the CPU, which parked calls agree with. -/
theorem Parked.agree {spl spl' : Bool} (h : Parked c spl fs)
    (hagree : ∀ g ∈ fs.head?, g.entry = .call → g.flags = spl') : Parked c spl' fs := by
  cases h with
  | call hentry hcode hcpu hspl =>
    exact .call hentry hcode hcpu (hagree _ rfl hentry).symm
  | handler hhandler hrest => exact .handler hhandler hrest

/-- The threads of the ring are those of the CPU. -/
theorem SplOk.mem_threads (h : SplOk c m rings) (hc : c ∈ m.world.online) (t : ThreadRef) :
    t ∈ m.world.threads c ↔ t ∈ rings c := by
  simp only [World.threads, Finset.mem_insert, Finset.mem_image]
  constructor
  · rintro (rfl | ⟨n, hn, rfl⟩)
    · exact (h.ring.circular c hc).head_mem
    · exact (h.live n hn).2
  · intro ht
    exact (h.ring.members c hc t ht).imp_right fun ⟨n, hn, heq⟩ => ⟨n, hn, heq.symm⟩

/-- A step of the innermost function that calls the scheduler, with interrupts off. -/
theorem SplOk.exec_switch (h : SplOk c m rings) (hc : c ∈ m.world.online) {i : Instr}
    (hi : i.switches = true) (hintr : m.intr c = false)
    (hpark : Parked c (m.spl c) (f :: rest)) (hstep : m.exec c f rest i = some m') :
    SplOk c m' rings := by
  have hdone : ∀ op, (op = .tick c ∨ (∃ ms, op = .sleep c ms) ∨ op = .finishWait c) →
      ((m.world.step op).map fun w => { m.setTop c (f :: rest) with world := w }) = some m' →
      SplOk c m' rings := by
    intro op hop hm'
    obtain ⟨w, hw, rfl⟩ := Option.map_eq_some_iff.mp hm'
    obtain ⟨w', hw', hring, honline, hlive, -⟩ := h.ring.schedule hc hop
    rw [hw, Option.some.injEq] at hw'
    subst hw'
    exact h.switch hc hring honline hlive hintr hpark
  cases i with
  | tick => exact hdone _ (Or.inl rfl) hstep
  | sleep ms => exact hdone _ (Or.inr (Or.inl ⟨ms, rfl⟩)) hstep
  | yieldLocked => exact hdone _ (Or.inr (Or.inr rfl)) hstep
  | _ => simp [Instr.switches] at hi

/-- The steps of a call. -/
theorem SplOk.exec_call (h : SplOk c m rings) (hc : c ∈ m.world.online) {k : ℕ}
    (hframes : m.frames (m.world.cur c) = [f]) (hentry : f.entry = .call)
    (hphase : Phase c (m.intr c) (m.spl c) f) (hagrees : m.Agrees c (.exec c))
    (hstep : m.step k (.exec c) = some m') : ∃ rings', SplOk c m' rings' := by
  have hparked := h.parked hc
  cases hphase with
  | start hbody hcode hintr =>
    rw [Machine.step_exec hframes hcode] at hstep
    cases hstep
    exact ⟨rings, h.update rfl rfl
      (.call hentry (.raised hbody rfl (Function.update_self _ _ _) hintr)) hparked⟩
  | raised hbody hcode hintr hspl =>
    rw [Machine.step_exec hframes hcode] at hstep
    cases hstep
    exact ⟨rings, h.update rfl rfl (.call hentry (.found hbody rfl hintr hspl rfl)) hparked⟩
  | found hbody hcode hintr hspl hcpu =>
    rw [Machine.step_exec hframes hcode, Machine.exec] at hstep
    split_ifs at hstep
    cases hstep
    exact ⟨rings, h.update rfl rfl (.call hentry (.locked hbody rfl hintr hspl hcpu)) hparked⟩
  | locked hbody hcode hintr hspl hcpu =>
    rw [Machine.step_exec hframes hcode] at hstep
    cases hstep
    have hkept : Function.update m.spl f.cpu f.spl c = f.flags := by
      rw [hcpu, Function.update_self, hspl]
    have hnext : m.next c = some .keepSpl := by simp [Machine.next, hframes, hcode]
    refine ⟨rings, h.update rfl rfl (.call hentry (.kept hbody rfl hintr hkept hcpu))
      fun t ht hne => (hparked t ht hne).agree fun g hg hcall => ?_⟩
    exact (hagrees hnext f (by simp [hframes]) t ((h.mem_threads hc t).mpr ht) hne g hg
      hcall).trans hkept.symm
  | kept hbody hcode hintr hspl hcpu =>
    have hpark : Parked c (m.spl c) [{ f with code := Code.cpuUnlockSplx }] :=
      .call hentry rfl hcpu hspl
    cases hbody with
    | dump =>
      rw [Machine.step_exec hframes hcode] at hstep
      cases hstep
      exact ⟨rings, h.update rfl rfl (.call hentry (.unlocked rfl hintr hspl hcpu)) hparked⟩
    | sleep ms =>
      rw [Machine.step_exec hframes hcode] at hstep
      exact ⟨rings, h.exec_switch hc rfl hintr hpark hstep⟩
    | yield =>
      rw [Machine.step_exec hframes hcode] at hstep
      exact ⟨rings, h.exec_switch hc rfl hintr hpark hstep⟩
    | create n =>
      rw [Machine.step_exec hframes hcode, Machine.exec] at hstep
      split_ifs at hstep with hcond
      rw [not_or, not_not] at hcond
      obtain ⟨w, hw, rfl⟩ := Option.map_eq_some_iff.mp hstep
      dsimp only at hw
      rw [hcpu] at hw
      exact ⟨_, h.addThread hc hcond.1 hw (hintr ▸ hpark.current)⟩
  | unlocked hcode hintr hspl hcpu =>
    rw [Machine.step_exec hframes hcode] at hstep
    cases hstep
    have hrestored : Function.update m.intr c (m.intr c || m.spl f.cpu) c = f.flags := by
      rw [Function.update_self, hintr, hcpu, Bool.false_or, hspl]
    exact ⟨rings, h.update rfl rfl (.call hentry (.done rfl hrestored)) hparked⟩
  | done hcode hintr => simp [Machine.step, hframes, hcode] at hstep

/-- The rest of a handler is one. -/
theorem Handler.tail (h : Handler f) {i : Instr} {code : List Instr} (hcode : f.code = i :: code)
    (cpu : ℕ) : Handler { f with code := code, cpu := cpu } := by
  have hsuffix : code <:+ f.code := hcode ▸ List.suffix_cons i code
  exact ⟨h.entry, h.flags, h.code.imp hsuffix.trans hsuffix.trans⟩

/-- The steps of a handler. -/
theorem SplOk.exec_handler (h : SplOk c m rings) (hc : c ∈ m.world.online) {k : ℕ}
    (hframes : m.frames (m.world.cur c) = f :: rest) (hhandler : Handler f)
    (hintr : m.intr c = false) (hrest : Interrupted c rest)
    (hstep : m.step k (.exec c) = some m') : SplOk c m' rings := by
  have hparked := h.parked hc
  cases hcode : f.code with
  | nil => simp [Machine.step, hframes, hcode] at hstep
  | cons i code =>
    rw [Machine.step_exec hframes hcode] at hstep
    have htail := hhandler.tail hcode f.cpu
    have hi : i ∈ Code.timerIrqHandler ∨ i ∈ Code.threadStart := by
      have hmem : i ∈ f.code := hcode ▸ List.mem_cons_self
      exact hhandler.code.imp (fun h => h.subset hmem) fun h => h.subset hmem
    simp only [Code.timerIrqHandler, Code.threadStart, Code.cpuLock, Code.cpuUnlock,
      List.mem_append, List.mem_cons, List.not_mem_nil, or_false] at hi
    have hcases : i = .getCpu ∨ i = .lock ∨ i = .tick ∨ i = .unlock ∨ i = .iret := by tauto
    rcases hcases with rfl | rfl | rfl | rfl | rfl
    · cases hstep
      exact h.update rfl rfl (.handler (hhandler.tail hcode c) hintr hrest) hparked
    · rw [Machine.exec] at hstep
      split_ifs at hstep
      cases hstep
      exact h.update rfl rfl (.handler htail hintr hrest) hparked
    · exact h.exec_switch hc rfl hintr (.handler htail hrest) hstep
    · cases hstep
      exact h.update rfl rfl (.handler htail hintr hrest) hparked
    · -- the return from the interrupt enables interrupts again
      cases hstep
      have hon : Function.update m.intr c f.flags c = true := by
        rw [Function.update_self, hhandler.flags]
      refine h.update rfl rfl ?_ hparked
      change Current c (Function.update m.intr c f.flags c) (m.spl c) rest
      rw [hon]
      cases hrest with
      | thread => exact .thread
      | call hentry hphase => exact .call hentry (hphase _)

/-- The calls start with `cpu_lock_splhi` and end with `cpu_unlock_splx`. -/
theorem Call.Local.code_eq {call : Call} (h : call.Local c) (mem : Threads) :
    ∃ body, Section body ∧ call.code mem c = Code.cpuLockSplhi ++ body ++ Code.cpuUnlockSplx := by
  cases call with
  | sleep ms => exact ⟨_, .sleep ms, rfl⟩
  | yield => exact ⟨_, .yield, rfl⟩
  | dump => exact ⟨_, .dump, rfl⟩
  | create id n =>
    obtain rfl : id = c := h
    refine ⟨_, .create n, ?_⟩
    simp [Call.code, Code.threadCreate, Code.cpuLockSmp, Code.cpuUnlockSmp]
  | wakeup t | showCpus numCpus | semaWait s | semaSignal s | condWaits k rounds =>
    exact absurd h (by simp [Call.Local])

/-- An interrupt finds a call that has not switched interrupts off. -/
theorem Current.interrupted {spl : Bool} (h : Current c true spl fs) : Interrupted c fs := by
  cases h with
  | thread => exact .thread
  | call hentry hphase =>
    refine .call hentry fun spl' => ?_
    cases hphase with
    | start hbody hcode hintr => exact .start hbody hcode hintr
    | done hcode hintr => exact .done hcode hintr
    | raised _ _ hintr => exact absurd hintr (by simp)
    | found _ _ hintr => exact absurd hintr (by simp)
    | locked _ _ hintr => exact absurd hintr (by simp)
    | kept _ _ hintr => exact absurd hintr (by simp)
    | unlocked _ hintr => exact absurd hintr (by simp)
  | handler _ hintr => exact absurd hintr (by simp)

/-- Every move of the CPU keeps the flags. -/
theorem SplOk.step (h : SplOk c m rings) {k : ℕ} {move : Move} (hallowed : m.Allowed move)
    (hlocal : move.Local c) (hagrees : m.Agrees c move) (hstep : m.step k move = some m') :
    ∃ rings', SplOk c m' rings' := by
  cases move with
  | init c' =>
    obtain rfl : c' = c := hlocal
    rw [Machine.step] at hstep
    obtain ⟨w, hw, rfl⟩ := Option.map_eq_some_iff.mp hstep
    cases hw
    have hcur : (m.world.setCpu c' (schedInitCpu c' (m.world.cpus c') m.world.mem)).cur c' =
        .idle c' := by
      simp only [World.cur, World.setCpu, Function.update_self, schedInitCpu]
    refine ⟨_, h.ring.initCpu hallowed, fun n hn => ?_, fun _ => ?_, fun _ t ht hne => ?_⟩
    · exact absurd (h.live n hn).1 hallowed
    · change Current c' _ _
        (Function.update m.frames (.idle c') [] ((m.world.setCpu c' _).cur c'))
      rw [hcur, Function.update_self]
      exact .thread
    · rw [Function.update_self, List.mem_singleton] at ht
      exact absurd (ht.trans hcur.symm) hne
  | call c' op =>
    obtain ⟨rfl, hop⟩ := hlocal
    obtain ⟨body, hbody, hcode⟩ := hop.code_eq m.world.mem
    cases hstep
    refine ⟨rings, h.update rfl rfl ?_ (h.parked hallowed.1)⟩
    rw [hallowed.2]
    exact .call rfl (.start hbody hcode rfl)
  | exec c' =>
    obtain rfl : c' = c := hlocal
    have hcurrent := h.current hallowed
    cases hframes : m.frames (m.world.cur c') with
    | nil => simp [Machine.step, hframes] at hstep
    | cons f rest =>
      rw [hframes] at hcurrent
      cases hcurrent with
      | call hentry hphase => exact h.exec_call hallowed hframes hentry hphase hagrees hstep
      | handler hhandler hintr hrest =>
        exact ⟨rings, h.exec_handler hallowed hframes hhandler hintr hrest hstep⟩
  | ret c' =>
    obtain rfl : c' = c := hlocal
    have hcurrent := h.current hallowed
    cases hframes : m.frames (m.world.cur c') with
    | nil => simp [Machine.step, hframes] at hstep
    | cons f rest =>
      simp only [Machine.step, hframes] at hstep
      split_ifs at hstep with hdone
      cases hstep
      rw [hframes] at hcurrent
      cases hcurrent with
      | call => exact ⟨rings, h.update rfl rfl .thread (h.parked hallowed)⟩
      | handler hhandler =>
        rw [hhandler.entry] at hdone
        exact absurd hdone.1 (by simp)
  | timer c' =>
    obtain rfl : c' = c := hlocal
    cases hstep
    have hcurrent := h.current hallowed.1
    rw [hallowed.2] at hcurrent
    have hhandler : Handler ⟨.interrupt, m.intr c', Code.timerIrqHandler, 0, false⟩ :=
      ⟨rfl, hallowed.2, Or.inl (List.suffix_refl _)⟩
    exact ⟨rings, h.update rfl rfl
      (.handler hhandler (Function.update_self _ _ _) hcurrent.interrupted) (h.parked hallowed.1)⟩
  | keyboard c' code => exact absurd hlocal (by simp [Move.Local])
  | setIntr c' enabled =>
    obtain rfl : c' = c := hlocal
    cases hstep
    refine ⟨rings, h.update ?_ rfl .thread (h.parked hallowed.1)⟩
    rw [← hallowed.2, Function.update_eq_self]

/-- A call that returns has restored the flag. -/
theorem SplOk.ret (h : SplOk c m rings) (hc : c ∈ m.world.online) {k : ℕ}
    (hstep : m.step k (.ret c) = some m') :
    ∀ f ∈ (m.frames (m.world.cur c)).head?, m'.intr c = f.flags := by
  have hcurrent := h.current hc
  intro f hf
  obtain ⟨rest, hframes⟩ := List.head?_eq_some_iff.mp hf
  simp only [Machine.step, hframes] at hstep
  split_ifs at hstep with hdone
  cases hstep
  rw [hframes] at hcurrent
  cases hcurrent with
  | call hentry hphase =>
    cases hphase with
    | done _ hintr => exact hintr
    | start _ hcode | raised _ hcode | found _ hcode | locked _ hcode | unlocked hcode =>
      simp [hdone.2, Code.cpuLockSplhi] at hcode
    | kept _ hcode => simp [hdone.2, Code.cpuUnlockSplx] at hcode
  | handler hhandler =>
    rw [hhandler.entry] at hdone
    exact absurd hdone.1 (by simp)

/-- A call that is about to keep its flag finds a call that waits with another flag: this flag is
lost. -/
theorem SplOk.disagree (h : SplOk c m rings) (hc : c ∈ m.world.online) {k : ℕ}
    (hnot : ¬ m.Agrees c (.exec c)) (hstep : m.step k (.exec c) = some m') :
    ∃ t ≠ m'.world.cur c, ∃ g, m'.frames t = [g] ∧ g.entry = .call ∧
      g.code = Code.cpuUnlockSplx ∧ g.cpu = c ∧ m'.spl c ≠ g.flags := by
  simp only [Machine.Agrees, not_forall, exists_prop] at hnot
  obtain ⟨hnext, f, hf, t, ht, hne, g, hg, hcall, hflags⟩ := hnot
  obtain ⟨rest, hframes⟩ := List.head?_eq_some_iff.mp hf
  have hhead : f.code.head? = some .keepSpl := by simpa [Machine.next, hframes] using hnext
  have hkeep : m'.spl c = f.flags ∧ m'.frames t = m.frames t ∧ m'.world = m.world := by
    have hcurrent := h.current hc
    rw [hframes] at hcurrent
    cases hcurrent with
    | call hentry hphase =>
      cases hphase with
      | locked _ hcode _ hspl hcpu =>
        rw [Machine.step_exec hframes hcode] at hstep
        cases hstep
        refine ⟨?_, Function.update_of_ne hne _ _, rfl⟩
        simp [hcpu, hspl]
      | start _ hcode | raised _ hcode | found _ hcode | unlocked hcode | done hcode =>
        simp [hcode, Code.cpuLockSplhi] at hhead
      | kept hbody hcode => cases hbody <;> simp [hcode, Code.cpuUnlockSplx] at hhead
    | handler hhandler =>
      have hmem : Instr.keepSpl ∈ f.code := List.mem_of_mem_head? hhead
      rcases hhandler.code with hsuffix | hsuffix
      · exact absurd (hsuffix.subset hmem) (by decide)
      · exact absurd (hsuffix.subset hmem) (by decide)
  obtain ⟨hspl, hframes', hworld⟩ := hkeep
  refine ⟨t, hworld ▸ hne, g, ?_⟩
  rw [hframes', hspl]
  have hparked := h.parked hc t ((h.mem_threads hc t).mp ht) hne
  cases hcase : m.frames t with
  | nil => simp [hcase] at hg
  | cons g' rest' =>
    rw [hcase] at hg hparked
    obtain rfl := Option.some.inj hg
    cases hparked with
    | call _ hcode hcpu _ => exact ⟨rfl, hcall, hcode, hcpu, Ne.symm hflags⟩
    | handler hhandler =>
      rw [hhandler.entry] at hcall
      exact absurd hcall (by simp)

end Steps

/-- In every run of one CPU in which a call that keeps its flag finds no call waiting in the
scheduler that was entered with the other flag, each call returns with the interrupt flag that
its thread had when it entered the call. A call that finds one overwrites its flag. -/
theorem call_restores_intr {m₀ m : Machine} {k c : ℕ} (h₀ : m₀.Boot)
    (hrun : Reaches (Machine.step k) (Machine.OneLevel c) m₀ m) (hc : c ∈ m.world.online) :
    (∀ m', m.step k (.ret c) = some m' →
      ∀ f ∈ (m.frames (m.world.cur c)).head?, m'.intr c = f.flags) ∧
    ∀ m', ¬ m.Agrees c (.exec c) → m.step k (.exec c) = some m' →
      ∃ t ≠ m'.world.cur c, ∃ g, m'.frames t = [g] ∧ g.entry = .call ∧
        g.code = Code.cpuUnlockSplx ∧ g.cpu = c ∧ m'.spl c ≠ g.flags := by
  obtain ⟨rings, h⟩ : ∃ rings, SplOk c m rings := by
    apply hrun.invariant
    · obtain ⟨hboot, -⟩ := h₀
      have hnone : c ∉ m₀.world.online := by simp [hboot.1]
      exact ⟨_, hboot.ringsOk, by simp [hboot.2.1], fun hc => absurd hc hnone,
        fun hc => absurd hc hnone⟩
    · rintro m move m' ⟨rings, h⟩ ⟨hmove, hagrees⟩ hstep
      exact h.step hmove.1 hmove.2 hagrees hstep
  exact ⟨fun m' hstep => h.ret hc hstep, fun m' hnot hstep => h.disagree hc hnot hstep⟩

/-- Two threads besides the idle thread, the first of which sleeps, with interrupts on, and the
second of which has started. -/
def firstSleeps : List Move :=
  [Move.init 0, .setIntr 0 true] ++ callMoves 0 7 (.create 0 5) ++ callMoves 0 7 (.create 0 6) ++
    (List.replicate 7 (tickMoves 0)).flatten ++ Move.timer 0 :: List.replicate 6 (Move.exec 0) ++
    Move.call 0 (.sleep 1) :: List.replicate 5 (Move.exec 0) ++ List.replicate 3 (Move.exec 0)

/-- The second thread sleeps too, and the timer wakes the first one. -/
def firstWakes : List Move :=
  Move.call 0 (.sleep 1) :: List.replicate 7 (Move.exec 0) ++
    Move.timer 0 :: List.replicate 5 (Move.exec 0)

/-- With interrupts on for both, the first thread has them on after its call. If the second has
switched them off, its call overwrites the flag of the first. -/
theorem call_restores_intr_twoThreads :
    (∃ m m' : Machine, Reaches (Machine.step 0) (Machine.OneLevel 0) Machine.blank m ∧
      m.step 0 (.ret 0) = some m' ∧ m.world.cur 0 = .alloc 5 ∧ m'.intr 0 = true) ∧
    ∃ m m' : Machine, Reaches (Machine.step 0) (Machine.OneLevel 0) Machine.blank m ∧
      ¬ m.Agrees 0 (.exec 0) ∧ m.step 0 (.exec 0) = some m' ∧
      ∃ t ≠ m'.world.cur 0, ∃ g, m'.frames t = [g] ∧ g.entry = .call ∧
        g.code = Code.cpuUnlockSplx ∧ g.cpu = 0 ∧ m'.spl 0 ≠ g.flags := by
  constructor
  · have hrun : ((runOps (Machine.step 0) (Machine.OneLevel 0) Machine.blank
        (firstSleeps ++ firstWakes)).map fun m =>
          (decide (0 ∈ m.world.online), m.world.cur 0, (m.step 0 (.ret 0)).isSome,
            (m.frames (m.world.cur 0)).head?.map Frame.flags)) =
        some (true, .alloc 5, true, some true) := by decide +kernel
    obtain ⟨m, hm, hvalue⟩ := Option.map_eq_some_iff.mp hrun
    simp only [Prod.mk.injEq, decide_eq_true_eq] at hvalue
    obtain ⟨honline, hcur, hret, hflags⟩ := hvalue
    obtain ⟨m', hm'⟩ := Option.isSome_iff_exists.mp hret
    obtain ⟨f, hf, hflags⟩ := Option.map_eq_some_iff.mp hflags
    have hreach := Reaches.of_runOps hm
    have hintr := (call_restores_intr Machine.blank_boot hreach honline).1 m' hm' f hf
    exact ⟨m, m', hreach, hm', hcur, hintr.trans hflags⟩
  · have hrun : ((runOps (Machine.step 0) (Machine.OneLevel 0) Machine.blank
        (firstSleeps ++ .setIntr 0 false :: firstWakes.take 4)).map fun m =>
          (decide (0 ∈ m.world.online), decide (m.Agrees 0 (.exec 0)),
            (m.step 0 (.exec 0)).isSome)) = some (true, false, true) := by decide +kernel
    obtain ⟨m, hm, hvalue⟩ := Option.map_eq_some_iff.mp hrun
    simp only [Prod.mk.injEq, decide_eq_true_eq, decide_eq_false_iff_not] at hvalue
    obtain ⟨honline, hnot, hexec⟩ := hvalue
    obtain ⟨m', hm'⟩ := Option.isSome_iff_exists.mp hexec
    have hreach := Reaches.of_runOps hm
    exact ⟨m, m', hreach, hnot, hm',
      (call_restores_intr Machine.blank_boot hreach honline).2 m' hnot hm'⟩

/-- The first thread sleeps with interrupts on, the second with interrupts off; the call of the
first returns with interrupts off. -/
theorem sleep_loses_intr :
    ∃ m m' : Machine, Reaches (Machine.step 0) (Machine.OneCpu 0) Machine.blank m ∧
      m.world.cur 0 = .alloc 5 ∧ m.step 0 (.ret 0) = some m' ∧ m'.intr 0 = false ∧
      ∃ f ∈ (m.frames (m.world.cur 0)).head?, f.flags = true := by
  have hrun : ((runOps (Machine.step 0) (Machine.OneCpu 0) Machine.blank
      (firstSleeps ++ .setIntr 0 false :: firstWakes)).map fun m =>
        (m.world.cur 0, (m.step 0 (.ret 0)).map fun m' => m'.intr 0,
          (m.frames (m.world.cur 0)).head?.map Frame.flags)) =
      some (.alloc 5, some false, some true) := by decide +kernel
  obtain ⟨m, hm, hvalue⟩ := Option.map_eq_some_iff.mp hrun
  simp only [Prod.mk.injEq] at hvalue
  obtain ⟨hcur, hret, hflags⟩ := hvalue
  obtain ⟨m', hm', hintr⟩ := Option.map_eq_some_iff.mp hret
  obtain ⟨f, hf, hflags⟩ := Option.map_eq_some_iff.mp hflags
  exact ⟨m, m', Reaches.of_runOps hm, hcur, hm', hintr, f, hf, hflags⟩

end Smor.Sched
