import Smor.Sched.Threads

/-!
# One CPU

`CpuOk` is what holds of a CPU and its ring between the operations of the scheduler. The
quantum of the idle thread is used up before any other thread runs for the first time, and it
is never refilled; with this, `sched_find`, which keeps the first of several best threads and
looks at the idle thread last, picks the idle thread only if nothing else can run.
-/

namespace Smor.Sched

open Smor.Lib

/-- What `sched_next` relies on: the ring, a runnable idle thread without quantum, and quanta
in their bounds. -/
structure Ready (h : Threads) (c : ℕ) (cpu : Cpu) (ring : List ThreadRef) : Prop where
  head : cpu.threads = .idle c
  circular : Ring h.next h.prev (.idle c) ring
  idle_running : h.state (.idle c) = .running
  idle_cnt : h.cnt (.idle c) = 0
  pri : ∀ t ∈ ring, t ≠ .idle c → h.pri t = threadDefaultPri
  cnt_nonneg : ∀ t ∈ ring, t ≠ .idle c → 0 ≤ h.cnt t
  cnt_lt : ∀ t ∈ ring, t ≠ .idle c → h.cnt t < 2 * h.pri t

/-- What holds of a CPU between the operations of the scheduler. -/
structure CpuOk (h : Threads) (c : ℕ) (cpu : Cpu) (ring : List ThreadRef) : Prop where
  head : cpu.threads = .idle c
  circular : Ring h.next h.prev (.idle c) ring
  idle_running : h.state (.idle c) = .running
  idle_spent : cpu.curThread ≠ .idle c → h.cnt (.idle c) = 0
  cur_mem : cpu.curThread ∈ ring
  cur_running : h.state cpu.curThread = .running
  pri : ∀ t ∈ ring, t ≠ .idle c → h.pri t = threadDefaultPri
  cnt_nonneg : ∀ t ∈ ring, t ≠ .idle c → 0 ≤ h.cnt t
  cnt_lt : ∀ t ∈ ring, t ≠ .idle c → h.cnt t < 2 * h.pri t

section Find

/-- The loop of `sched_find` keeps the best thread it has seen: its quantum bounds those of
the runnable threads, and it is one of them or the initial choice. -/
theorem foldl_schedFindBody (h : Threads) (nodes : List ThreadRef) (best : ℤ × ThreadRef) :
    best.1 ≤ (nodes.foldl (schedFindBody h) best).1 ∧
    (∀ t ∈ nodes, h.state t = .running → h.cnt t ≤ (nodes.foldl (schedFindBody h) best).1) ∧
    (nodes.foldl (schedFindBody h) best = best ∨
      ((nodes.foldl (schedFindBody h) best).2 ∈ nodes ∧
        h.state (nodes.foldl (schedFindBody h) best).2 = .running ∧
        h.cnt (nodes.foldl (schedFindBody h) best).2 =
          (nodes.foldl (schedFindBody h) best).1)) := by
  induction nodes generalizing best with
  | nil => simp
  | cons t nodes ih =>
    rw [List.foldl_cons]
    obtain ⟨hle, hmax, hcase⟩ := ih (schedFindBody h best t)
    have hbody : best.1 ≤ (schedFindBody h best t).1 ∧
        (h.state t = .running → h.cnt t ≤ (schedFindBody h best t).1) ∧
        (schedFindBody h best t = best ∨ (h.state t = .running ∧
          schedFindBody h best t = (h.cnt t, t))) := by
      unfold schedFindBody
      split_ifs with hbetter
      · exact ⟨by simp; omega, fun _ => le_refl _, Or.inr ⟨hbetter.1, rfl⟩⟩
      · refine ⟨le_refl _, fun hrun => ?_, Or.inl rfl⟩
        by_contra hlt
        exact hbetter ⟨hrun, by omega⟩
    obtain ⟨hle', hmax', hcase'⟩ := hbody
    refine ⟨hle'.trans hle, fun x hx hrun => ?_, ?_⟩
    · rcases List.mem_cons.mp hx with rfl | hx
      · exact (hmax' hrun).trans hle
      · exact hmax x hx hrun
    · rcases hcase with heq | ⟨hmem, hrun, hcnt⟩
      · rcases hcase' with heq' | ⟨hrun', heq'⟩
        · exact Or.inl (heq.trans heq')
        · right
          rw [heq, heq']
          exact ⟨by simp, hrun', rfl⟩
      · exact Or.inr ⟨List.mem_cons_of_mem _ hmem, hrun, hcnt⟩

end Find

section Next

variable {h : Threads} {c rounds : ℕ} {cpu : Cpu} {ring : List ThreadRef}

/-- `sched_find` from behind the idle thread picks a runnable thread of the ring, and the idle
thread only if no other can run. -/
theorem Ready.schedFind_spec (hr : Ready h c cpu ring) (hrounds : ring.length ≤ rounds) :
    ∃ t ∈ ring, schedFind rounds h (h.next cpu.threads) = some t ∧ h.state t = .running ∧
      (t = .idle c → ∀ x ∈ ring, x ≠ .idle c → h.state x ≠ .running) := by
  obtain ⟨rest, rfl⟩ := hr.circular.exists_rest
  have hidle : ThreadRef.idle c ∉ rest := (List.nodup_cons.mp hr.circular.nodup).1
  have hnonneg : ∀ x ∈ rest, 0 ≤ h.cnt x := fun x hx =>
    hr.cnt_nonneg x (List.mem_cons_of_mem _ hx) fun heq => hidle (heq ▸ hx)
  -- the loop visits the other threads and then the idle thread
  have hloop : schedFind rounds h (h.next cpu.threads) = some
      ((rest ++ [ThreadRef.idle c]).foldl (schedFindBody h) (-1, h.next cpu.threads)).2 := by
    rw [schedFind, hr.head, Ring.doWhile_round (fun _ => h.next) (schedFindBody h)
      (fun _ _ _ => rfl) hr.circular hrounds]
    rfl
  rw [List.foldl_append, List.foldl_cons, List.foldl_nil] at hloop
  obtain ⟨hle, hmax, hcase⟩ :=
    foldl_schedFindBody h rest (-1, h.next cpu.threads)
  generalize rest.foldl (schedFindBody h) (-1, h.next cpu.threads) = found at *
  have hothers : found.1 = -1 → ∀ x ∈ rest, h.state x ≠ .running := by
    intro hnone x hx hrun
    have := hmax x hx hrun
    have := hnonneg x hx
    omega
  unfold schedFindBody at hloop
  split_ifs at hloop with hbetter
  · refine ⟨_, by simp, hloop, hr.idle_running, fun _ x hx hne => ?_⟩
    rw [hr.idle_cnt] at hbetter
    exact hothers (by simp at hle; omega) x ((List.mem_cons.mp hx).resolve_left hne)
  · have hfound : ¬found.1 < 0 := fun hlt =>
      hbetter ⟨hr.idle_running, by rw [hr.idle_cnt]; exact hlt⟩
    rcases hcase with heq | ⟨hmem, hrun, -⟩
    · rw [heq] at hfound
      simp at hfound
    · refine ⟨_, List.mem_cons_of_mem _ hmem, hloop, hrun, fun heq => ?_⟩
      exact absurd (heq ▸ hmem) hidle

theorem refillBody_next (h : Threads) (t x : ThreadRef) :
    (refillBody h t).next x = h.next x := rfl

/-- The refill loop, thread by thread. -/
theorem foldl_refillBody {nodes : List ThreadRef} (hnodup : nodes.Nodup) :
    nodes.foldl refillBody h =
      { h with cnt := fun x => if x ∈ nodes then h.cnt x >>> (1 : ℕ) + h.pri x else h.cnt x } := by
  induction nodes generalizing h with
  | nil => simp
  | cons t nodes ih =>
    obtain ⟨hnot, hnodup⟩ := List.nodup_cons.mp hnodup
    rw [List.foldl_cons, ih hnodup]
    simp only [refillBody, Threads.mk.injEq, true_and]
    funext x
    by_cases hx : x = t
    · subst hx
      simp [hnot]
    · simp [hx]

/-- `sched_next` picks a runnable thread of the ring, and the idle thread only if no other can
run. It changes nothing but quanta of the other threads, which stay in their bounds. -/
theorem Ready.schedPick_spec (hr : Ready h c cpu ring) (hrounds : ring.length ≤ rounds) :
    ∃ t ∈ ring, ∃ cnt, schedPick rounds cpu h = some (t, { h with cnt := cnt }) ∧
      h.state t = .running ∧ (t = .idle c → ∀ x ∈ ring, x ≠ .idle c → h.state x ≠ .running) ∧
      (∀ x, x ∉ ring → cnt x = h.cnt x) ∧ Ready { h with cnt := cnt } c cpu ring := by
  obtain ⟨t, ht, hfind, hrun, hidle⟩ := hr.schedFind_spec hrounds
  unfold schedPick
  rw [hfind, Option.bind_some]
  split_ifs with hzero
  · obtain ⟨rest, rfl⟩ := hr.circular.exists_rest
    have hnodup := List.nodup_cons.mp hr.circular.nodup
    have hrefill : forUntil Threads.next refillBody cpu.threads rounds h (h.next cpu.threads) =
        some { h with
          cnt := fun x => if x ∈ rest then h.cnt x >>> (1 : ℕ) + h.pri x else h.cnt x } := by
      rw [hr.head, Ring.forUntil_rest _ _ refillBody_next hr.circular hrounds,
        foldl_refillBody hnodup.2]
    rw [hrefill, Option.bind_some]
    have hready : Ready { h with
        cnt := fun x => if x ∈ rest then h.cnt x >>> (1 : ℕ) + h.pri x else h.cnt x } c cpu
        (.idle c :: rest) := by
      refine ⟨hr.head, hr.circular, hr.idle_running, ?_, hr.pri, fun x hx hne => ?_,
        fun x hx hne => ?_⟩
      · simp only [hnodup.1, if_false]
        exact hr.idle_cnt
      · have hx' := (List.mem_cons.mp hx).resolve_left hne
        have hlow := hr.cnt_nonneg x hx hne
        have hpri := hr.pri x hx hne
        simp only [hx', if_true, hpri, threadDefaultPri, Int.shiftRight_eq_div_pow]
        omega
      · have hx' := (List.mem_cons.mp hx).resolve_left hne
        have hhigh := hr.cnt_lt x hx hne
        have hpri := hr.pri x hx hne
        simp only [hx', if_true, hpri, threadDefaultPri, Int.shiftRight_eq_div_pow] at hhigh ⊢
        omega
    obtain ⟨t', ht', hfind', hrun', hidle'⟩ := hready.schedFind_spec hrounds
    refine ⟨t', ht', _, by rw [hfind']; rfl, hrun', hidle', fun x hx => ?_, hready⟩
    simp only [List.mem_cons, not_or] at hx
    simp [hx.2]
  · exact ⟨t, ht, h.cnt, rfl, hrun, hidle, fun _ _ => rfl, hr⟩

/-- A switch changes the current thread and a tick counter. -/
theorem switchTo_eq (cpu : Cpu) (t : ThreadRef) (h : Threads) :
    ∃ ticks, switchTo cpu t h = ({ cpu with curThread := t }, { h with ticks := ticks }) := by
  unfold switchTo
  split_ifs with heq
  · exact ⟨_, rfl⟩
  · rw [not_not] at heq
    subst heq
    exact ⟨h.ticks, rfl⟩

/-- What `sched_next` leaves as it is: all but `ticks` and the quanta of the ring. -/
structure Rescheduled (ring : List ThreadRef) (h h' : Threads) : Prop where
  next : h'.next = h.next
  prev : h'.prev = h.prev
  nextWait : h'.nextWait = h.nextWait
  cpuId : h'.cpuId = h.cpuId
  pri : h'.pri = h.pri
  state : h'.state = h.state
  sleepTimer : h'.sleepTimer = h.sleepTimer
  cnt : ∀ x, x ∉ ring → h'.cnt x = h.cnt x

/-- `sched_next` leaves a runnable thread current, and the idle thread only if no other can
run. -/
theorem Ready.schedNext_spec (hr : Ready h c cpu ring) (hrounds : ring.length ≤ rounds) :
    ∃ cpu' h', schedNext rounds cpu h = some (cpu', h') ∧ CpuOk h' c cpu' ring ∧
      (cpu'.curThread = .idle c → ∀ x ∈ ring, x ≠ .idle c → h'.state x ≠ .running) ∧
      Rescheduled ring h h' := by
  obtain ⟨t, ht, cnt, hpick, hrun, hidle, hcnt, hready⟩ := hr.schedPick_spec hrounds
  rw [schedNext, hpick, Option.map_some]
  simp only [switchTo]
  split_ifs with hswitch
  · refine ⟨_, _, rfl, ⟨hr.head, hr.circular, hr.idle_running, fun _ => hready.idle_cnt, ht, hrun,
      hr.pri, hready.cnt_nonneg, hready.cnt_lt⟩, hidle,
      ⟨rfl, rfl, rfl, rfl, rfl, rfl, rfl, hcnt⟩⟩
  · rw [not_not] at hswitch
    subst hswitch
    refine ⟨_, _, rfl, ⟨hr.head, hr.circular, hr.idle_running, fun _ => hready.idle_cnt, ht, hrun,
      hr.pri, hready.cnt_nonneg, hready.cnt_lt⟩, hidle,
      ⟨rfl, rfl, rfl, rfl, rfl, rfl, rfl, hcnt⟩⟩

end Next

section Tick

variable {h h' : Threads} {c rounds : ℕ} {cpu : Cpu} {ring nodes : List ThreadRef}

/-- What `sched_check_sleeping` can do to the threads of a ring: a thread whose timer runs out
is runnable with a full quantum and without a timer. -/
structure Woken (ring : List ThreadRef) (h h' : Threads) : Prop where
  next : h'.next = h.next
  prev : h'.prev = h.prev
  nextWait : h'.nextWait = h.nextWait
  cpuId : h'.cpuId = h.cpuId
  pri : h'.pri = h.pri
  cell : ∀ x, (h'.state x = h.state x ∧ h'.sleepTimer x = h.sleepTimer x ∧ h'.cnt x = h.cnt x) ∨
    (x ∈ ring ∧ h.state x = .sleeping ∧ h.sleepTimer x = true ∧ h'.state x = .running ∧
      h'.sleepTimer x = false ∧ h'.cnt x = h.pri x)

theorem Woken.refl (ring : List ThreadRef) (h : Threads) : Woken ring h h :=
  ⟨rfl, rfl, rfl, rfl, rfl, fun _ => Or.inl ⟨rfl, rfl, rfl⟩⟩

theorem Woken.trans {h'' : Threads} (h₁ : Woken ring h h') (h₂ : Woken ring h' h'') :
    Woken ring h h'' := by
  refine ⟨h₂.next.trans h₁.next, h₂.prev.trans h₁.prev, h₂.nextWait.trans h₁.nextWait,
    h₂.cpuId.trans h₁.cpuId, h₂.pri.trans h₁.pri, fun x => ?_⟩
  rcases h₁.cell x with ⟨hs, ht, hc⟩ | ⟨hx, hs, ht, hs', ht', hc'⟩
  · rcases h₂.cell x with ⟨hs₂, ht₂, hc₂⟩ | ⟨hx, hs₂, ht₂, hs₂', ht₂', hc₂'⟩
    · exact Or.inl ⟨hs₂.trans hs, ht₂.trans ht, hc₂.trans hc⟩
    · exact Or.inr ⟨hx, hs.symm.trans hs₂, ht.symm.trans ht₂, hs₂', ht₂', by rw [hc₂', h₁.pri]⟩
  · rcases h₂.cell x with ⟨hs₂, ht₂, hc₂⟩ | ⟨-, hs₂, -⟩
    · exact Or.inr ⟨hx, hs, ht, hs₂.trans hs', ht₂.trans ht', hc₂.trans hc'⟩
    · rw [hs'] at hs₂
      simp at hs₂

/-- One round of `sched_check_sleeping`. -/
theorem woken_checkSleepingBody {t : ThreadRef} (ht : t ∈ ring) :
    Woken ring h (checkSleepingBody h t) := by
  unfold checkSleepingBody
  dsimp only
  split_ifs with hsleep hleft
  · refine ⟨rfl, rfl, rfl, rfl, rfl, fun x => ?_⟩
    by_cases hx : x = t
    · subst hx
      exact Or.inr ⟨ht, hsleep.1, hsleep.2, by simp, by simp, by simp⟩
    · exact Or.inl ⟨by simp [hx], by simp [hx], by simp [hx]⟩
  · exact ⟨rfl, rfl, rfl, rfl, rfl, fun _ => Or.inl ⟨rfl, rfl, rfl⟩⟩
  · exact Woken.refl ring h

/-- The loop of `sched_check_sleeping`. -/
theorem woken_foldl (hsub : ∀ t ∈ nodes, t ∈ ring) :
    Woken ring h (nodes.foldl checkSleepingBody h) := by
  induction nodes generalizing h with
  | nil => exact Woken.refl ring h
  | cons t nodes ih =>
    rw [List.foldl_cons]
    apply (woken_checkSleepingBody (hsub t (by simp))).trans
    exact ih fun x hx => hsub x (List.mem_cons_of_mem _ hx)

theorem checkSleepingBody_next (h : Threads) (t x : ThreadRef) :
    (checkSleepingBody h t).next x = h.next x := by
  rw [(woken_checkSleepingBody (List.mem_singleton_self t)).next]

/-- `sched_check_sleeping` comes to an end on a ring. -/
theorem schedCheckSleeping_spec (hring : Ring h.next h.prev (.idle c) ring)
    (hrounds : ring.length ≤ rounds) :
    ∃ h', schedCheckSleeping rounds h (h.next (.idle c)) = some h' ∧ Woken ring h h' := by
  obtain ⟨rest, rfl⟩ := hring.exists_rest
  refine ⟨_, Ring.doWhile_round _ _ checkSleepingBody_next hring hrounds, woken_foldl ?_⟩
  intro t ht
  simp only [List.mem_append, List.mem_cons] at ht ⊢
  tauto

/-- What an operation of the scheduler on one ring leaves as it is. -/
structure Moved (ring : List ThreadRef) (h h' : Threads) : Prop where
  next : h'.next = h.next
  prev : h'.prev = h.prev
  nextWait : h'.nextWait = h.nextWait
  cpuId : h'.cpuId = h.cpuId
  pri : h'.pri = h.pri
  outside : ∀ x, x ∉ ring → h'.state x = h.state x ∧ h'.sleepTimer x = h.sleepTimer x ∧
    h'.cnt x = h.cnt x

theorem Rescheduled.moved (hr : Rescheduled ring h h') : Moved ring h h' :=
  ⟨hr.next, hr.prev, hr.nextWait, hr.cpuId, hr.pri, fun x hx => by
    rw [hr.state, hr.sleepTimer, hr.cnt x hx]
    exact ⟨rfl, rfl, rfl⟩⟩

theorem Woken.moved (hw : Woken ring h h') : Moved ring h h' :=
  ⟨hw.next, hw.prev, hw.nextWait, hw.cpuId, hw.pri, fun x hx =>
    (hw.cell x).resolve_right fun hmem => hx hmem.1⟩

theorem Moved.trans {h'' : Threads} (h₁ : Moved ring h h') (h₂ : Moved ring h' h'') :
    Moved ring h h'' :=
  ⟨h₂.next.trans h₁.next, h₂.prev.trans h₁.prev, h₂.nextWait.trans h₁.nextWait,
    h₂.cpuId.trans h₁.cpuId, h₂.pri.trans h₁.pri, fun x hx =>
      ⟨(h₂.outside x hx).1.trans (h₁.outside x hx).1,
        (h₂.outside x hx).2.1.trans (h₁.outside x hx).2.1,
        (h₂.outside x hx).2.2.trans (h₁.outside x hx).2.2⟩⟩

/-- The timers of a tick: a state changes only when a sleeping thread's timer runs out. -/
def TimersRun (h h' : Threads) : Prop :=
  ∀ x, (h'.state x = h.state x ∧ h'.sleepTimer x = h.sleepTimer x) ∨
    (h.state x = .sleeping ∧ h.sleepTimer x = true ∧ h'.state x = .running ∧
      h'.sleepTimer x = false)

/-- `sched_tick` before its call of `sched_next`: the quantum of the current thread has shrunk
by one, and the quanta are in their bounds. -/
theorem CpuOk.tickBegin_spec (hok : CpuOk h c cpu ring) (hrounds : ring.length ≤ rounds) :
    ∃ h', tickBegin rounds cpu h = some h' ∧ Moved ring h h' ∧ TimersRun h h' ∧
      (0 < h'.cnt cpu.curThread → CpuOk h' c cpu ring) ∧
      (h'.cnt cpu.curThread ≤ 0 → Ready (endQuantum cpu h') c cpu ring) := by
  obtain ⟨h₁, hcheck, hwoken⟩ := schedCheckSleeping_spec hok.circular hrounds
  -- a runnable thread is not woken, so its quantum is the old one
  have hrunning : ∀ x, h.state x = .running → h₁.state x = .running ∧ h₁.cnt x = h.cnt x := by
    intro x hx
    rcases hwoken.cell x with ⟨hs, -, hc⟩ | ⟨-, hs, -⟩
    · exact ⟨hs.trans hx, hc⟩
    · rw [hx] at hs
      simp at hs
  have hidle := hrunning _ hok.idle_running
  have hcur := hrunning _ hok.cur_running
  have hbounds : ∀ x ∈ ring, x ≠ .idle c → 0 ≤ h₁.cnt x ∧ h₁.cnt x < 2 * h₁.pri x := by
    intro x hx hne
    have hpri := hok.pri x hx hne
    rw [hwoken.pri]
    rcases hwoken.cell x with ⟨-, -, hc⟩ | ⟨-, -, -, -, -, hc⟩
    · rw [hc]
      exact ⟨hok.cnt_nonneg x hx hne, hok.cnt_lt x hx hne⟩
    · rw [hc, hpri]
      decide
  have hring : Ring h₁.next h₁.prev (.idle c) ring := by
    rw [hwoken.next, hwoken.prev]
    exact hok.circular
  have hpri : ∀ x ∈ ring, x ≠ .idle c → h₁.pri x = threadDefaultPri := by
    rw [hwoken.pri]
    exact hok.pri
  refine ⟨_, by rw [tickBegin, hok.head, hcheck, Option.map_some], ?_, ?_, fun hleft => ?_,
    fun hleft => ?_⟩
  · refine hwoken.moved.trans ⟨rfl, rfl, rfl, rfl, rfl, fun x hx => ⟨rfl, rfl, ?_⟩⟩
    have hne : x ≠ cpu.curThread := by
      rintro rfl
      exact hx hok.cur_mem
    exact Function.update_of_ne hne _ _
  · intro x
    rcases hwoken.cell x with ⟨hs, ht, -⟩ | ⟨-, hs, ht, hs', ht', -⟩
    · exact Or.inl ⟨hs, ht⟩
    · exact Or.inr ⟨hs, ht, hs', ht'⟩
  · simp only [Function.update_self] at hleft
    refine ⟨hok.head, hring, hidle.1, fun hne => ?_, hok.cur_mem, hcur.1, hpri, fun x hx hne => ?_,
      fun x hx hne => ?_⟩
    · simp only [Function.update_of_ne (Ne.symm hne)]
      exact hidle.2.trans (hok.idle_spent hne)
    · have hx' := hbounds x hx hne
      by_cases heq : x = cpu.curThread
      · subst heq
        simp only [Function.update_self]
        omega
      · simp only [Function.update_of_ne heq]
        exact hx'.1
    · have hx' := hbounds x hx hne
      by_cases heq : x = cpu.curThread
      · subst heq
        simp only [Function.update_self]
        omega
      · simp only [Function.update_of_ne heq]
        exact hx'.2
  · refine ⟨hok.head, hring, hidle.1, ?_, hpri, fun x hx hne => ?_, fun x hx hne => ?_⟩
    · unfold endQuantum
      by_cases heq : ThreadRef.idle c = cpu.curThread
      · simp [heq]
      · simp only [Function.update_of_ne heq]
        exact hidle.2.trans (hok.idle_spent (Ne.symm heq))
    · have hx' := hbounds x hx hne
      unfold endQuantum
      by_cases heq : x = cpu.curThread
      · simp [heq]
      · simp only [Function.update_of_ne heq]
        exact hx'.1
    · have hx' := hbounds x hx hne
      unfold endQuantum
      by_cases heq : x = cpu.curThread
      · subst heq
        simp only [Function.update_self]
        omega
      · simp only [Function.update_of_ne heq]
        exact hx'.2

/-- `sched_tick` keeps the CPU in order. -/
theorem CpuOk.schedTick_spec (hok : CpuOk h c cpu ring) (hrounds : ring.length ≤ rounds) :
    ∃ cpu' h', schedTick rounds cpu h = some (cpu', h') ∧ CpuOk h' c cpu' ring ∧
      Moved ring h h' ∧ TimersRun h h' := by
  obtain ⟨h₁, hbegin, hmoved, htimers, hstay, hswitch⟩ := hok.tickBegin_spec hrounds
  rw [schedTick, hbegin, Option.bind_some]
  split_ifs with hleft
  · exact ⟨cpu, h₁, rfl, hstay hleft, hmoved, htimers⟩
  · obtain ⟨cpu', h', hnext, hok', -, hres⟩ :=
      (hswitch (by omega)).schedNext_spec hrounds
    have hend : Moved ring h₁ (endQuantum cpu h₁) := by
      refine ⟨rfl, rfl, rfl, rfl, rfl, fun x hx => ⟨rfl, rfl, Function.update_of_ne ?_ _ _⟩⟩
      rintro rfl
      exact hx hok.cur_mem
    refine ⟨cpu', h', hnext, hok', (hmoved.trans hend).trans hres.moved, fun x => ?_⟩
    · rw [hres.state, hres.sleepTimer]
      exact htimers x

end Tick

section Blocking

variable {h : Threads} {c rounds : ℕ} {cpu : Cpu} {ring : List ThreadRef}

/-- A thread other than the idle thread can go to sleep: `sched_next` is ready to pick another
one. -/
theorem CpuOk.ready_of_sleep (hok : CpuOk h c cpu ring) (hne : cpu.curThread ≠ .idle c)
    {h' : Threads} (hnext : h'.next = h.next) (hprev : h'.prev = h.prev) (hpri : h'.pri = h.pri)
    (hcnt : h'.cnt = h.cnt)
    (hstate : h'.state = Function.update h.state cpu.curThread .sleeping) :
    Ready h' c cpu ring := by
  refine ⟨hok.head, ?_, ?_, ?_, ?_, ?_, ?_⟩
  · rw [hnext, hprev]
    exact hok.circular
  · rw [hstate, Function.update_of_ne (Ne.symm hne)]
    exact hok.idle_running
  · rw [hcnt]
    exact hok.idle_spent hne
  · rw [hpri]
    exact hok.pri
  · rw [hcnt]
    exact hok.cnt_nonneg
  · rw [hcnt, hpri]
    exact hok.cnt_lt

/-- `sched_yield_locked` by a thread other than the idle thread. -/
theorem CpuOk.schedYieldLocked_spec (hok : CpuOk h c cpu ring)
    (hne : cpu.curThread ≠ .idle c) (hrounds : ring.length ≤ rounds) :
    ∃ cpu' h', schedYieldLocked rounds cpu h = some (cpu', h') ∧ CpuOk h' c cpu' ring ∧
      Moved ring h h' ∧ h'.state = Function.update h.state cpu.curThread .sleeping ∧
      h'.sleepTimer = h.sleepTimer := by
  have hready : Ready (markSleeping cpu h) c cpu ring :=
    hok.ready_of_sleep hne rfl rfl rfl rfl rfl
  obtain ⟨cpu', h', hnext, hok', -, hres⟩ := hready.schedNext_spec hrounds
  refine ⟨cpu', h', hnext, hok', ?_, hres.state, hres.sleepTimer⟩
  apply Moved.trans _ hres.moved
  refine ⟨rfl, rfl, rfl, rfl, rfl, fun x hx => ⟨Function.update_of_ne ?_ _ _, rfl, rfl⟩⟩
  rintro rfl
  exact hx hok.cur_mem

/-- `sched_sleep`, which does nothing for the idle thread. -/
theorem CpuOk.schedSleep_spec (hok : CpuOk h c cpu ring) (ms : ℕ)
    (hrounds : ring.length ≤ rounds) :
    ∃ cpu' h', schedSleep rounds cpu ms h = some (cpu', h') ∧ CpuOk h' c cpu' ring ∧
      Moved ring h h' ∧
      ((cpu.curThread = .idle c ∧ h' = h ∧ cpu' = cpu) ∨
        (cpu.curThread ≠ .idle c ∧
          h'.state = Function.update h.state cpu.curThread .sleeping ∧
          h'.sleepTimer = Function.update h.sleepTimer cpu.curThread true)) := by
  unfold schedSleep
  rw [hok.head]
  split_ifs with hne
  · have hready : Ready (startTimer cpu ms h) c cpu ring :=
      hok.ready_of_sleep hne rfl rfl rfl rfl rfl
    obtain ⟨cpu', h', hnext, hok', -, hres⟩ := hready.schedNext_spec hrounds
    refine ⟨cpu', h', hnext, hok', ?_, Or.inr ⟨hne, hres.state, hres.sleepTimer⟩⟩
    apply Moved.trans _ hres.moved
    have hout : ∀ x, x ∉ ring → x ≠ cpu.curThread := by
      rintro x hx rfl
      exact hx hok.cur_mem
    exact ⟨rfl, rfl, rfl, rfl, rfl, fun x hx => ⟨Function.update_of_ne (hout x hx) _ _,
      Function.update_of_ne (hout x hx) _ _, rfl⟩⟩
  · rw [not_not] at hne
    exact ⟨cpu, h, rfl, hok, ⟨rfl, rfl, rfl, rfl, rfl, fun _ _ => ⟨rfl, rfl, rfl⟩⟩,
      Or.inl ⟨hne, rfl, rfl⟩⟩

end Blocking

end Smor.Sched
