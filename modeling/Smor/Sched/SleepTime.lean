import Smor.Sched.Timers

/-!
# How long a sleep lasts

`sched_check_sleeping` first decrements the counter of a sleeping thread and then compares it
with 0, so that a sleep of 0 ms wraps around and lasts `2 ^ 32` ticks. All other sleeps last
as many ticks as asked for. The loop treats every thread of the ring once, as if it were
alone there, and nothing else in the system changes the counter of a sleeping thread.
-/

namespace Smor.Sched

open Smor.Lib

/-- What a sleeping thread keeps until its CPU ticks. -/
def Threads.sleepOf (h : Threads) (x : ThreadRef) : ThreadState × Bool × ℕ × ℕ :=
  (h.state x, h.sleepTimer x, h.sleepTime x, h.cpuId x)

section Countdown

variable {h h' : Threads} {t x : ThreadRef} {nodes : List ThreadRef}

/-- One round of `sched_check_sleeping` does not concern other threads. -/
theorem checkSleepingBody_of_ne (hne : x ≠ t) :
    (checkSleepingBody h t).sleepOf x = h.sleepOf x ∧
      (checkSleepingBody h t).cnt x = h.cnt x ∧ (checkSleepingBody h t).pri = h.pri := by
  unfold checkSleepingBody Threads.sleepOf
  simp only
  split_ifs
  · simp only [Function.update_of_ne hne, and_self]
  · simp only [Function.update_of_ne hne, and_self]
  · exact ⟨rfl, rfl, rfl⟩

/-- The loop does not concern threads outside the ring. -/
theorem foldl_checkSleepingBody_of_notMem (hx : x ∉ nodes) :
    (nodes.foldl checkSleepingBody h).sleepOf x = h.sleepOf x ∧
      (nodes.foldl checkSleepingBody h).cnt x = h.cnt x ∧
      (nodes.foldl checkSleepingBody h).pri = h.pri := by
  induction nodes generalizing h with
  | nil => exact ⟨rfl, rfl, rfl⟩
  | cons t nodes ih =>
    rw [List.mem_cons, not_or] at hx
    obtain ⟨hne, hx⟩ := hx
    obtain ⟨hcell, hcnt, hpri⟩ := checkSleepingBody_of_ne (h := h) hne
    obtain ⟨hcell', hcnt', hpri'⟩ := ih (h := checkSleepingBody h t) hx
    exact ⟨hcell'.trans hcell, hcnt'.trans hcnt, hpri'.trans hpri⟩

/-- The round for a sleeping thread with a timer counts down, or wakes the thread. -/
theorem checkSleepingBody_self (hstate : h.state x = .sleeping) (htimer : h.sleepTimer x = true) :
    (u32Pred (h.sleepTime x) ≠ 0 ∧ (checkSleepingBody h x).sleepOf x =
      (.sleeping, true, u32Pred (h.sleepTime x), h.cpuId x)) ∨
    (u32Pred (h.sleepTime x) = 0 ∧ (checkSleepingBody h x).sleepOf x =
      (.running, false, 0, h.cpuId x) ∧ (checkSleepingBody h x).cnt x = h.pri x) := by
  unfold checkSleepingBody Threads.sleepOf
  simp only [hstate, htimer, and_self, if_true]
  by_cases hleft : u32Pred (h.sleepTime x) = 0
  · right
    simp [hleft]
  · left
    simp [hleft, hstate, htimer]

/-- The loop treats a sleeping thread of the ring once, as if it were alone there. -/
theorem foldl_checkSleepingBody_of_mem (hnodup : nodes.Nodup) (hx : x ∈ nodes)
    (hstate : h.state x = .sleeping) (htimer : h.sleepTimer x = true) :
    (u32Pred (h.sleepTime x) ≠ 0 ∧ (nodes.foldl checkSleepingBody h).sleepOf x =
      (.sleeping, true, u32Pred (h.sleepTime x), h.cpuId x)) ∨
    (u32Pred (h.sleepTime x) = 0 ∧ (nodes.foldl checkSleepingBody h).sleepOf x =
      (.running, false, 0, h.cpuId x) ∧ (nodes.foldl checkSleepingBody h).cnt x = h.pri x) := by
  obtain ⟨xs, ys, rfl, hxs⟩ := List.eq_append_cons_of_mem hx
  have hys : x ∉ ys := (List.nodup_cons.mp (List.nodup_append.mp hnodup).2.1).1
  rw [List.foldl_append, List.foldl_cons]
  obtain ⟨hcell, hcnt, hpri⟩ := foldl_checkSleepingBody_of_notMem (h := h) hxs
  generalize xs.foldl checkSleepingBody h = h₁ at *
  obtain ⟨hcell', hcnt', -⟩ := foldl_checkSleepingBody_of_notMem (h := checkSleepingBody h₁ x) hys
  simp only [Threads.sleepOf, Prod.mk.injEq] at hcell
  obtain ⟨hs, ht, htime, hid⟩ := hcell
  rw [hcell', hcnt', ← htime, ← hid, ← hpri]
  exact checkSleepingBody_self (hs.trans hstate) (ht.trans htimer)

end Countdown

section Tick

variable {h : Threads} {c rounds : ℕ} {cpu : Cpu} {ring : List ThreadRef} {x : ThreadRef}

/-- `sched_find` returns a thread with a quantum when a thread that can run has one. -/
theorem Ready.schedFind_pos (hr : Ready h c cpu ring) (hrounds : ring.length ≤ rounds)
    (hx : x ∈ ring) (hrun : h.state x = .running) (hpos : 0 < h.cnt x) :
    ∃ t, schedFind rounds h (h.next cpu.threads) = some t ∧ 0 < h.cnt t := by
  obtain ⟨rest, rfl⟩ := hr.circular.exists_rest
  have hmem : x ∈ rest ++ [ThreadRef.idle c] := by
    simp only [List.mem_append, List.mem_cons] at hx ⊢
    tauto
  obtain ⟨-, hmax, hcase⟩ := foldl_schedFindBody h (rest ++ [ThreadRef.idle c])
    (-1, h.next cpu.threads)
  have hle := hmax x hmem hrun
  refine ⟨((rest ++ [ThreadRef.idle c]).foldl (schedFindBody h) (-1, h.next cpu.threads)).2, ?_, ?_⟩
  · rw [schedFind, hr.head, Ring.doWhile_round (fun _ => h.next) (schedFindBody h)
      (fun _ _ _ => rfl) hr.circular hrounds]
    rfl
  · rcases hcase with heq | ⟨-, -, hcnt⟩
    · rw [heq] at hle
      simp only at hle
      omega
    · omega

/-- `sched_next` changes no state and no timer, and no quantum either when a thread that can run
has one. -/
theorem Ready.schedNext_keeps (hr : Ready h c cpu ring) (hrounds : ring.length ≤ rounds) :
    ∃ cpu' h', schedNext rounds cpu h = some (cpu', h') ∧ h'.sleepOf = h.sleepOf ∧
      h'.pri = h.pri ∧
      ((∃ x ∈ ring, h.state x = .running ∧ 0 < h.cnt x) → h'.cnt = h.cnt) := by
  obtain ⟨t, -, cnt, hpick, -⟩ := hr.schedPick_spec hrounds
  obtain ⟨ticks, hswitch⟩ := switchTo_eq cpu t { h with cnt := cnt }
  have hnext : schedNext rounds cpu h = some (switchTo cpu t { h with cnt := cnt }) := by
    rw [schedNext, hpick, Option.map_some]
  refine ⟨_, _, hnext.trans (congrArg some hswitch), rfl, rfl, ?_⟩
  rintro ⟨x, hx, hrun, hpos⟩
  obtain ⟨u, hfind, hu⟩ := hr.schedFind_pos hrounds hx hrun hpos
  have hpick' : schedPick rounds cpu h = some (u, h) := by
    rw [schedPick, hfind, Option.bind_some, if_neg (by omega)]
  rw [hpick'] at hpick
  obtain ⟨-, heq⟩ := Prod.mk.inj (Option.some.inj hpick)
  exact (congrArg Threads.cnt heq).symm

/-- What a tick does to a thread other than the current one: what the check for sleeping threads
does to it; the quantum of a thread that can run stays what it is then. -/
theorem CpuOk.schedTick_check (hok : CpuOk h c cpu ring) (hrounds : ring.length ≤ rounds) :
    ∃ h₁ cpu' h', schedCheckSleeping rounds h (h.next (.idle c)) = some h₁ ∧
      schedTick rounds cpu h = some (cpu', h') ∧ h'.sleepOf = h₁.sleepOf ∧ h'.pri = h₁.pri ∧
      ∀ x ∈ ring, x ≠ cpu.curThread → h₁.state x = .running → 0 < h₁.cnt x →
        h'.cnt x = h₁.cnt x := by
  obtain ⟨h₁, hcheck, -⟩ := schedCheckSleeping_spec hok.circular hrounds
  obtain ⟨h₂, hbegin, -, -, -, hswitch⟩ := hok.tickBegin_spec hrounds
  have hbegin' : tickBegin rounds cpu h = some
      { h₁ with
        ticks := Function.update h₁.ticks cpu.curThread (u64 (h₁.ticks cpu.curThread + 1))
        cnt := Function.update h₁.cnt cpu.curThread (h₁.cnt cpu.curThread - 1) } := by
    rw [tickBegin, hok.head, hcheck, Option.map_some]
  rw [hbegin, Option.some.injEq] at hbegin'
  have hcell : h₂.sleepOf = h₁.sleepOf := by
    rw [hbegin']
    rfl
  have hpri : h₂.pri = h₁.pri := by
    rw [hbegin']
  have hcnt : ∀ x, x ≠ cpu.curThread → h₂.cnt x = h₁.cnt x := by
    intro x hne
    rw [hbegin']
    exact Function.update_of_ne hne _ _
  have hstate : h₂.state = h₁.state := by
    rw [hbegin']
  rw [schedTick, hbegin, Option.bind_some]
  split_ifs with hleft
  · exact ⟨h₁, _, _, hcheck, rfl, hcell, hpri, fun x _ hne _ _ => hcnt x hne⟩
  · obtain ⟨cpu', h', hnext, hcell', hpri', hcnt'⟩ :=
      (hswitch (by omega)).schedNext_keeps hrounds
    refine ⟨h₁, cpu', h', hcheck, hnext, hcell'.trans hcell, hpri'.trans hpri,
      fun x hx hne hrun hpos => ?_⟩
    have hquantum : (endQuantum cpu h₂).cnt x = h₁.cnt x :=
      (Function.update_of_ne hne _ _).trans (hcnt x hne)
    rw [hcnt' ⟨x, hx, (congrFun hstate x).trans hrun, hquantum ▸ hpos⟩]
    exact hquantum

/-- The loop of `sched_check_sleeping` visits the threads of the ring. -/
theorem schedCheckSleeping_fold (hring : Ring h.next h.prev (.idle c) ring)
    (hrounds : ring.length ≤ rounds) :
    ∃ nodes : List ThreadRef, nodes.Nodup ∧ (∀ t, t ∈ nodes ↔ t ∈ ring) ∧
      schedCheckSleeping rounds h (h.next (.idle c)) = some (nodes.foldl checkSleepingBody h) := by
  obtain ⟨rest, rfl⟩ := hring.exists_rest
  have hperm : (rest ++ [ThreadRef.idle c]).Perm (.idle c :: rest) := List.perm_append_singleton _ _
  exact ⟨rest ++ [ThreadRef.idle c], hperm.nodup_iff.mpr hring.nodup, fun _ => hperm.mem_iff,
    Ring.doWhile_round _ _ checkSleepingBody_next hring hrounds⟩

/-- A tick does not concern the sleep of threads of other CPUs. -/
theorem CpuOk.schedTick_of_notMem (hok : CpuOk h c cpu ring) (hrounds : ring.length ≤ rounds)
    (hx : x ∉ ring) :
    ∃ cpu' h', schedTick rounds cpu h = some (cpu', h') ∧ h'.sleepOf x = h.sleepOf x := by
  obtain ⟨h₁, cpu', h', hcheck, htick, hcell, -⟩ := hok.schedTick_check hrounds
  obtain ⟨nodes, -, hmem, hfold⟩ := schedCheckSleeping_fold hok.circular hrounds
  rw [hcheck, Option.some.injEq] at hfold
  refine ⟨cpu', h', htick, ?_⟩
  rw [hcell, hfold]
  exact (foldl_checkSleepingBody_of_notMem (mt (hmem x).mp hx)).1

/-- A tick counts a sleeping thread of the CPU down, or wakes it with a full quantum. -/
theorem CpuOk.schedTick_of_sleeping (hok : CpuOk h c cpu ring) (hrounds : ring.length ≤ rounds)
    (hx : x ∈ ring) (hidle : x ≠ .idle c) (hstate : h.state x = .sleeping)
    (htimer : h.sleepTimer x = true) :
    ∃ cpu' h', schedTick rounds cpu h = some (cpu', h') ∧
      ((u32Pred (h.sleepTime x) ≠ 0 ∧
          h'.sleepOf x = (.sleeping, true, u32Pred (h.sleepTime x), h.cpuId x)) ∨
        (u32Pred (h.sleepTime x) = 0 ∧ h'.sleepOf x = (.running, false, 0, h.cpuId x) ∧
          h'.cnt x = h'.pri x)) := by
  obtain ⟨h₁, cpu', h', hcheck, htick, hcell, hpri, hcnt⟩ := hok.schedTick_check hrounds
  obtain ⟨nodes, hnodup, hmem, hfold⟩ := schedCheckSleeping_fold hok.circular hrounds
  obtain ⟨h₂, hcheck', hwoken⟩ := schedCheckSleeping_spec hok.circular hrounds
  rw [hcheck, Option.some.injEq] at hcheck' hfold
  have hpri₁ : h₁.pri = h.pri := by
    rw [hcheck']
    exact hwoken.pri
  have hcur : x ≠ cpu.curThread := by
    rintro rfl
    rw [hok.cur_running] at hstate
    exact absurd hstate (by decide)
  refine ⟨cpu', h', htick, ?_⟩
  rw [hcell, hfold]
  rcases foldl_checkSleepingBody_of_mem hnodup ((hmem x).mpr hx) hstate htimer with hleft | ⟨hzero,
    hcell', hfull⟩
  · exact .inl hleft
  · refine .inr ⟨hzero, hcell', ?_⟩
    rw [← hfold] at hcell' hfull
    have hrun : h₁.state x = .running := congrArg Prod.fst hcell'
    have hpos : 0 < h₁.cnt x := by
      rw [hfull, hok.pri x hx hidle]
      decide
    rw [hcnt x hx hcur hrun hpos, hfull, hpri, hpri₁]

/-- `sched_sleep` of a thread other than the idle thread: the thread gets its timer, and the sleep
of the others is left alone. -/
theorem CpuOk.schedSleep_sleepOf (hok : CpuOk h c cpu ring) (hrounds : ring.length ≤ rounds)
    (hne : cpu.curThread ≠ .idle c) (ms : ℕ) :
    ∃ cpu' h', schedSleep rounds cpu ms h = some (cpu', h') ∧
      h'.sleepOf = (startTimer cpu ms h).sleepOf := by
  have hready : Ready (startTimer cpu ms h) c cpu ring := hok.ready_of_sleep hne rfl rfl rfl rfl rfl
  obtain ⟨cpu', h', hnext, hcell, -⟩ := hready.schedNext_keeps hrounds
  refine ⟨cpu', h', ?_, hcell⟩
  rw [schedSleep, hok.head, if_pos hne, hnext]

/-- `sched_yield_locked` leaves the sleep of the other threads alone. -/
theorem CpuOk.schedYieldLocked_sleepOf (hok : CpuOk h c cpu ring) (hrounds : ring.length ≤ rounds)
    (hne : cpu.curThread ≠ .idle c) :
    ∃ cpu' h', schedYieldLocked rounds cpu h = some (cpu', h') ∧
      h'.sleepOf = (markSleeping cpu h).sleepOf := by
  have hready : Ready (markSleeping cpu h) c cpu ring := hok.ready_of_sleep hne rfl rfl rfl rfl rfl
  obtain ⟨cpu', h', hnext, hcell, -⟩ := hready.schedNext_keeps hrounds
  exact ⟨cpu', h', hnext, hcell⟩

end Tick

namespace World

/-- The operations that make the thread `t` runnable from outside. -/
def Wakes (w : World) (t : ThreadRef) : Op → Prop
  | .wakeup x => x = t
  | .semaSignal s => (w.semas s).threads.head = t
  | .condSignal k => (w.conds k).head = t
  | .initCpu _ | .create _ _ | .tick _ | .sleep _ _ | .yield _ | .semaWait _ _ | .condWait _ _
  | .finishWait _ => False

instance (w : World) (t : ThreadRef) (op : Op) : Decidable (w.Wakes t op) :=
  match op with
  | .wakeup _ => inferInstanceAs (Decidable (_ = _))
  | .semaSignal _ => inferInstanceAs (Decidable (_ = _))
  | .condSignal _ => inferInstanceAs (Decidable (_ = _))
  | .initCpu _ | .create _ _ | .tick _ | .sleep _ _ | .yield _ | .semaWait _ _ | .condWait _ _
  | .finishWait _ => inferInstanceAs (Decidable False)

end World

/-- The system, and how often a CPU has ticked. -/
structure TickCount where
  world : World
  ticks : ℕ

/-- One operation, with the ticks of the CPU `c` counted. -/
def TickCount.step (c : ℕ) (s : TickCount) (op : Op) : Option TickCount :=
  (s.world.step op).map fun w => ⟨w, if op = .tick c then s.ticks + 1 else s.ticks⟩

/-- The operations of a run in which nothing else wakes the thread `t`. -/
def TickCount.Undisturbed (t : ThreadRef) (s : TickCount) (op : Op) : Prop :=
  s.world.Enabled op ∧ ¬s.world.Wakes t op

instance TickCount.decidableUndisturbed (t : ThreadRef) (s : TickCount) (op : Op) :
    Decidable (s.Undisturbed t op) :=
  inferInstanceAs (Decidable (_ ∧ _))

/-- From `w` on, as long as nothing else wakes the thread `t`: it sleeps for fewer than `n` ticks
of the CPU `c`, and the tick number `n` makes it runnable with a full quantum and no timer. -/
def World.SleepsFor (w : World) (c : ℕ) (t : ThreadRef) (n : ℕ) : Prop :=
  ∀ s, Reaches (TickCount.step c) (TickCount.Undisturbed t) ⟨w, 0⟩ s →
    (s.ticks < n → s.world.mem.state t = .sleeping) ∧
    ∀ w', s.ticks + 1 = n → s.world.Enabled (.tick c) → s.world.step (.tick c) = some w' →
      w'.mem.state t = .running ∧ w'.mem.cnt t = w'.mem.pri t ∧ w'.mem.sleepTimer t = false

/-- A thread of the CPU `c` in `sched_sleep`, with `left` ticks to go. -/
structure Dozing (w : World) (c n left : ℕ) : Prop where
  live : n ∈ w.live
  online : c ∈ w.online
  left_pos : 0 < left
  left_le : left ≤ 2 ^ 32
  cell : w.mem.sleepOf (.alloc n) = (.sleeping, true, u32 left, c)

section Doze

variable {w w' : World} {rings : ℕ → List ThreadRef} {c n left : ℕ} {op : Op}

theorem Dozing.fields (hd : Dozing w c n left) :
    w.mem.state (.alloc n) = .sleeping ∧ w.mem.sleepTimer (.alloc n) = true ∧
      w.mem.sleepTime (.alloc n) = u32 left ∧ w.mem.cpuId (.alloc n) = c := by
  simpa [Threads.sleepOf] using hd.cell

/-- The thread is in the ring of its CPU, and in no other. -/
theorem Dozing.mem_ring (hd : Dozing w c n left) (hok : WorldOk w rings) :
    .alloc n ∈ rings c ∧ ∀ c' ∈ w.online, c' ≠ c → .alloc n ∉ rings c' := by
  obtain ⟨-, -, -, hid⟩ := hd.fields
  obtain ⟨home, hhome, hmem⟩ := hok.home n hd.live
  have heq : home = c := (hok.cpuId home hhome _ hmem).symm.trans hid
  refine ⟨heq ▸ hmem, fun c' hc' hne hmem' => hne ?_⟩
  exact (hok.cpuId c' hc' _ hmem').symm.trans hid

/-- A sleeping thread is not the current one. -/
theorem Dozing.ne_cur (hd : Dozing w c n left) (hok : WorldOk w rings) {c' : ℕ}
    (hc' : c' ∈ w.online) : .alloc n ≠ (w.cpus c').curThread := by
  intro heq
  have hrun := (hok.cpu c' hc').cur_running
  rw [← heq, hd.fields.1] at hrun
  exact absurd hrun (by decide)

/-- Every operation but a tick of its CPU leaves a thread in `sched_sleep` alone, unless it wakes
the thread. -/
theorem Dozing.keep (hd : Dozing w c n left) (hok : WorldOk w rings) (hop : w.Enabled op)
    (hwake : ¬w.Wakes (.alloc n) op) (htick : op ≠ .tick c) (hstep : w.step op = some w') :
    Dozing w' c n left := by
  have hkeep : w'.mem.sleepOf (.alloc n) = w.mem.sleepOf (.alloc n) → n ∈ w'.live →
      c ∈ w'.online → Dozing w' c n left := fun hcell hlive honline =>
    ⟨hlive, honline, hd.left_pos, hd.left_le, hcell.trans hd.cell⟩
  cases op with
  | initCpu c' =>
    cases hstep
    refine hkeep ?_ hd.live (Finset.mem_insert_of_mem hd.online)
    simp [World.setCpu, schedInitCpu, queuePushBack, (hok.offline c' hop).1, initThread,
      Threads.sleepOf]
  | create c' m =>
    cases hstep
    have hne : ThreadRef.alloc n ≠ .alloc m := by
      simp only [ne_eq, ThreadRef.alloc.injEq]
      rintro rfl
      exact hop.2.2 hd.live
    refine hkeep ?_ (Finset.mem_insert_of_mem hd.live) hd.online
    have hhead : (w.cpus c').threads ≠ .null := by
      rw [(hok.cpu c' hop.1).head]
      simp
    simp only [World.setCpu, threadCreate, queuePushBack, if_neg hhead, initThread,
      Threads.sleepOf, Function.update_of_ne hne]
  | tick c' =>
    have hne : c' ≠ c := fun heq => htick (heq ▸ rfl)
    obtain ⟨cpu', h', heq, hcell⟩ := (hok.cpu c' hop.1).schedTick_of_notMem (hok.length_le hop.1)
      ((hd.mem_ring hok).2 c' hop.1 hne)
    rw [World.step, heq] at hstep
    cases hstep
    exact hkeep hcell hd.live hd.online
  | sleep c' ms =>
    have hcur := hd.ne_cur hok hop.1
    by_cases hidle : (w.cpus c').curThread = .idle c'
    · have hnoop : schedSleep w.rounds (w.cpus c') ms w.mem = some (w.cpus c', w.mem) := by
        rw [schedSleep, (hok.cpu c' hop.1).head, if_neg (not_not_intro hidle)]
      rw [World.step, hnoop] at hstep
      cases hstep
      exact hkeep rfl hd.live hd.online
    · obtain ⟨cpu', h', heq, hcell⟩ :=
        (hok.cpu c' hop.1).schedSleep_sleepOf (hok.length_le hop.1) hidle ms
      rw [World.step, heq] at hstep
      cases hstep
      refine hkeep ((congrFun hcell _).trans ?_) hd.live hd.online
      simp only [Threads.sleepOf, startTimer]
      rw [Function.update_of_ne hcur, Function.update_of_ne hcur, Function.update_of_ne hcur]
  | yield c' =>
    have hcur := hd.ne_cur hok hop.1
    obtain ⟨cpu', h', heq, hcell⟩ :=
      (hok.cpu c' hop.1).schedYieldLocked_sleepOf (hok.length_le hop.1) hop.2.2
    rw [World.step, heq] at hstep
    cases hstep
    refine hkeep ((congrFun hcell _).trans ?_) hd.live hd.online
    simp only [Threads.sleepOf, markSleeping]
    rw [Function.update_of_ne hcur]
  | finishWait c' =>
    have hcur := hd.ne_cur hok hop.1
    obtain ⟨cpu', h', heq, hcell⟩ :=
      (hok.cpu c' hop.1).schedYieldLocked_sleepOf (hok.length_le hop.1) (hok.locked c' hop.1 hop.2)
    rw [World.step, heq] at hstep
    cases hstep
    refine hkeep ((congrFun hcell _).trans ?_) hd.live hd.online
    simp only [Threads.sleepOf, markSleeping]
    rw [Function.update_of_ne hcur]
  | wakeup x =>
    cases hstep
    refine hkeep ?_ hd.live hd.online
    have hne : ThreadRef.alloc n ≠ x := fun heq => hwake heq.symm
    simp only [wake, Threads.sleepOf, Function.update_of_ne hne]
  | semaWait c' s =>
    simp only [World.step] at hstep
    split_ifs at hstep
    · cases hstep
      exact hkeep rfl hd.live hd.online
    · cases hstep
      obtain ⟨nextWait, hpush⟩ := push_snd_eq (w.semas s).threads w.mem (w.cur c')
      refine hkeep ?_ hd.live hd.online
      rw [World.blockSema, hpush]
      rfl
  | condWait c' k =>
    cases hstep
    obtain ⟨nextWait, hpush⟩ := push_snd_eq (w.conds k) w.mem (w.cur c')
    refine hkeep ?_ hd.live hd.online
    rw [World.blockCond, hpush]
    rfl
  | semaSignal s =>
    simp only [World.step] at hstep
    split_ifs at hstep
    · cases hstep
      exact hkeep rfl hd.live hd.online
    · cases hstep
      refine hkeep ?_ hd.live hd.online
      have hne : ThreadRef.alloc n ≠ (w.semas s).threads.head := fun heq => hwake heq.symm
      simp only [World.popSema, wake, Threads.sleepOf, Function.update_of_ne hne]
  | condSignal k =>
    simp only [World.step] at hstep
    split_ifs at hstep
    · cases hstep
      exact hkeep rfl hd.live hd.online
    · cases hstep
      refine hkeep ?_ hd.live hd.online
      have hne : ThreadRef.alloc n ≠ (w.conds k).head := fun heq => hwake heq.symm
      simp only [World.popCond, wake, Threads.sleepOf, Function.update_of_ne hne]

/-- A tick of its CPU takes one from the ticks that the thread has to go, and the last one wakes
it. -/
theorem Dozing.tick (hd : Dozing w c n left) (hok : WorldOk w rings)
    (hstep : w.step (.tick c) = some w') :
    (1 < left ∧ Dozing w' c n (left - 1)) ∨
      (left = 1 ∧ w'.mem.state (.alloc n) = .running ∧
        w'.mem.cnt (.alloc n) = w'.mem.pri (.alloc n) ∧ w'.mem.sleepTimer (.alloc n) = false) := by
  obtain ⟨hstate, htimer, htime, hid⟩ := hd.fields
  have hpos := hd.left_pos
  have hle := hd.left_le
  have hpred : u32Pred (u32 left) = u32 (left - 1) := by
    unfold u32Pred u32
    split_ifs <;> omega
  obtain ⟨cpu', h', heq, hcase⟩ := (hok.cpu c hd.online).schedTick_of_sleeping
    (hok.length_le hd.online) (hd.mem_ring hok).1 (by simp) hstate htimer
  rw [World.step, heq] at hstep
  cases hstep
  rw [htime, hpred, hid] at hcase
  rcases hcase with ⟨hmore, hcell⟩ | ⟨hzero, hcell, hfull⟩
  · refine .inl ⟨?_, hd.live, hd.online, ?_, by omega, hcell⟩
    all_goals
      unfold u32 at hmore
      omega
  · simp only [Threads.sleepOf, Prod.mk.injEq] at hcell
    refine .inr ⟨?_, hcell.1, hfull, hcell.2.1⟩
    unfold u32 at hzero
    omega

/-- A thread with `left` ticks to go sleeps for that many ticks. -/
theorem Dozing.sleepsFor (hd : Dozing w c n left) (hok : WorldOk w rings) :
    w.SleepsFor c (.alloc n) left := by
  intro s hrun
  -- once the ticks are used up nothing is said about the thread
  have hinv : ∃ rings, WorldOk s.world rings ∧
      (s.ticks < left → Dozing s.world c n (left - s.ticks)) := by
    apply hrun.invariant (I := fun s => ∃ rings, WorldOk s.world rings ∧
      (s.ticks < left → Dozing s.world c n (left - s.ticks)))
    · exact ⟨rings, hok, fun _ => hd⟩
    · rintro s op s' ⟨rings, hok, hdoze⟩ ⟨hop, hwake⟩ hstep
      obtain ⟨w', hw, rfl⟩ := Option.map_eq_some_iff.mp hstep
      obtain ⟨w'', rings', hw', hok'⟩ := hok.step hop
      rw [hw, Option.some.injEq] at hw'
      refine ⟨rings', hw' ▸ hok', fun hlt => ?_⟩
      by_cases htick : op = .tick c
      · subst htick
        simp only [if_true] at hlt ⊢
        rcases (hdoze (by omega)).tick hok hw with ⟨-, hd'⟩ | ⟨hlast, -⟩
        · rwa [Nat.sub_sub] at hd'
        · omega
      · simp only [if_neg htick] at hlt ⊢
        exact (hdoze hlt).keep hok hop hwake htick hw
  obtain ⟨rings, hok, hdoze⟩ := hinv
  refine ⟨fun hlt => (hdoze hlt).fields.1, fun w' hlast hop hstep => ?_⟩
  rcases (hdoze (by omega)).tick hok hstep with ⟨hmore, -⟩ | ⟨-, hwoken⟩
  · omega
  · exact hwoken

/-- After `sched_sleep` a thread has as many ticks to go as it has asked for, or `2 ^ 32` if it has
asked for none. -/
theorem WorldOk.dozing (hok : WorldOk w rings) {ms : ℕ} (hms : ms < 2 ^ 32) (hc : c ∈ w.online)
    (hcur : w.cur c = .alloc n) (hstep : w.step (.sleep c ms) = some w') :
    Dozing w' c n (if ms = 0 then 2 ^ 32 else ms) := by
  have hcpu := hok.cpu c hc
  have hmem : .alloc n ∈ rings c := hcur ▸ hcpu.cur_mem
  have hlive : n ∈ w.live := by
    rcases hok.members c hc _ hmem with heq | ⟨m, hm, heq⟩
    · simp at heq
    · simp only [ThreadRef.alloc.injEq] at heq
      exact heq ▸ hm
  have hne : (w.cpus c).curThread ≠ .idle c := by
    change w.cur c ≠ .idle c
    rw [hcur]
    simp
  obtain ⟨cpu', h', heq, hcell⟩ := hcpu.schedSleep_sleepOf (hok.length_le hc) hne ms
  rw [World.step, heq] at hstep
  cases hstep
  refine ⟨hlive, hc, ?_, ?_, (congrFun hcell _).trans ?_⟩
  · split_ifs
    · decide
    · omega
  · split_ifs
    · rfl
    · omega
  · have htime : ms = u32 (if ms = 0 then 2 ^ 32 else ms) := by
      unfold u32
      split_ifs <;> omega
    have hid := hok.cpuId c hc _ hmem
    change (w.cpus c).curThread = .alloc n at hcur
    simp only [Threads.sleepOf, startTimer, hcur, Function.update_self, hid]
    rw [← htime]

end Doze

/-- **The length of a sleep.** A thread that calls `sched_sleep` and is woken by nothing else wakes
at the tick number `max ms 1` of its CPU exactly when `ms` is not 0. -/
theorem schedSleep_sleepsFor_iff {w₀ w w' : World} {c ms : ℕ} (h₀ : w₀.Boot)
    (hrun : Reaches World.step World.Enabled w₀ w) (hop : w.Enabled (.sleep c ms))
    (hms : ms < 2 ^ 32) (hne : w.cur c ≠ .idle c) (hstep : w.step (.sleep c ms) = some w') :
    w'.SleepsFor c (w.cur c) (max ms 1) ↔ ms ≠ 0 := by
  obtain ⟨rings, hok⟩ := worldOk_of_reaches h₀ (fun _ _ h => h) hrun
  obtain ⟨n, hcur⟩ : ∃ n, w.cur c = .alloc n := by
    rcases hok.members c hop.1 _ (hok.cpu c hop.1).cur_mem with heq | ⟨n, -, heq⟩
    · exact absurd heq hne
    · exact ⟨n, heq⟩
  have hd := hok.dozing hms hop.1 hcur hstep
  obtain ⟨w'', rings', hstep', hok'⟩ := hok.step hop
  rw [hstep, Option.some.injEq] at hstep'
  subst hstep'
  have hfor := hd.sleepsFor hok'
  rw [hcur]
  constructor
  · rintro hsleeps rfl
    -- the first tick does not wake a thread that sleeps for 0 ms
    have hlocked : w'.locked c = false := by
      obtain ⟨r, -, rfl⟩ := Option.map_eq_some_iff.mp hstep
      exact hop.2
    have htick : w'.Enabled (.tick c) := ⟨hd.online, hlocked⟩
    obtain ⟨w'', -, hw'', -⟩ := hok'.step htick
    have hwoken := ((hsleeps ⟨w', 0⟩ (Reaches.refl _)).2 w'' rfl htick hw'').1
    have hstep'' : (TickCount.mk w' 0).step c (.tick c) = some ⟨w'', 1⟩ := by
      simp only [TickCount.step, hw'', Option.map_some, if_true]
    have hasleep := (hfor ⟨w'', 1⟩ ((Reaches.refl _).tail (o := .tick c) ⟨htick, id⟩ hstep'')).1
      (by simp)
    rw [hwoken] at hasleep
    exact absurd hasleep (by decide)
  · intro hpos
    rw [if_neg hpos] at hfor
    rwa [max_eq_left (by omega)]

/-- Thread 5 runs on CPU 0 and sleeps for 0 ms: the next tick does not wake it. -/
theorem schedSleep_zero_oversleeps :
    ¬∀ (w₀ w w' : World) (ms : ℕ), w₀.Boot → Reaches World.step World.Enabled w₀ w →
      w.Enabled (.sleep 0 ms) → ms < 2 ^ 32 → w.cur 0 ≠ .idle 0 →
      w.step (.sleep 0 ms) = some w' → w'.SleepsFor 0 (w.cur 0) (max ms 1) := by
  intro hall
  have hrun : (runOps World.step World.Enabled World.blank threadRuns).map (fun w =>
      (decide (w.Enabled (.sleep 0 0)), w.cur 0, (w.step (.sleep 0 0)).map fun w' =>
        (decide (w'.Enabled (.tick 0)), (w'.step (.tick 0)).map fun w'' =>
          w''.mem.state (.alloc 5)))) =
      some (true, .alloc 5, some (true, some .sleeping)) := by decide +kernel
  obtain ⟨w, hw, hvalue⟩ := Option.map_eq_some_iff.mp hrun
  simp only [Prod.mk.injEq, decide_eq_true_eq] at hvalue
  obtain ⟨hop, hcur, hstep⟩ := hvalue
  obtain ⟨w', hw', hvalue⟩ := Option.map_eq_some_iff.mp hstep
  simp only [Prod.mk.injEq, decide_eq_true_eq] at hvalue
  obtain ⟨htick, hstep⟩ := hvalue
  obtain ⟨w'', hw'', hstate⟩ := Option.map_eq_some_iff.mp hstep
  have hsleeps := hall World.blank w w' 0 World.blank_boot (Reaches.of_runOps hw) hop (by decide)
    (by simp [hcur]) hw'
  have hwoken := ((hsleeps ⟨w', 0⟩ (Reaches.refl _)).2 w'' rfl htick hw'').1
  rw [hcur, hstate] at hwoken
  exact absurd hwoken (by decide)

/-- Thread 5 runs on CPU 0 and sleeps for 3 ms. -/
theorem schedSleep_sleepsFor_three :
    ∃ w w', Reaches World.step World.Enabled World.blank w ∧ w.cur 0 = .alloc 5 ∧
      w.step (.sleep 0 3) = some w' ∧ w'.SleepsFor 0 (.alloc 5) 3 := by
  have hrun : (runOps World.step World.Enabled World.blank threadRuns).map (fun w =>
      (decide (w.Enabled (.sleep 0 3)), w.cur 0, (w.step (.sleep 0 3)).isSome)) =
      some (true, .alloc 5, true) := by decide +kernel
  obtain ⟨w, hw, hvalue⟩ := Option.map_eq_some_iff.mp hrun
  simp only [Prod.mk.injEq, decide_eq_true_eq] at hvalue
  obtain ⟨hop, hcur, hstep⟩ := hvalue
  obtain ⟨w', hw'⟩ := Option.isSome_iff_exists.mp hstep
  have hreach := Reaches.of_runOps hw
  have hsleeps := (schedSleep_sleepsFor_iff World.blank_boot hreach hop (by decide)
    (by simp [hcur]) hw').mpr (by decide)
  rw [hcur] at hsleeps
  exact ⟨w, w', hreach, hcur, hw', hsleeps⟩

end Smor.Sched
