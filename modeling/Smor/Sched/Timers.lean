import Smor.Sched.WaitLists

/-!
# Sleep timers

`sched_sleep` gives the current thread a timer, and `sched_check_sleeping` clears it when it
wakes the thread. `thread_wakeup` makes any thread runnable and looks neither at the timer nor at
the wait lists. A thread woken in `sched_sleep` keeps its timer, which then ends the next wait
of the thread; a thread woken in a wait stays on the list, and may get a timer there. The result
says that nothing else can go wrong: if `thread_wakeup` is called only for threads without a
timer, and no thread that is still on a wait list calls `sched_sleep`, timers belong to threads
in `sched_sleep` alone. The wait lists need not be in order for that, since a thread
woken early may be put on two lists, but following the links always comes to an end.
-/

namespace Smor.Sched

open Smor.Lib

namespace World

/-- The threads that exist. -/
def IsThread (w : World) : ThreadRef → Prop
  | .null => False
  | .idle c => c ∈ w.online
  | .alloc n => n ∈ w.live

instance (w : World) (t : ThreadRef) : Decidable (w.IsThread t) :=
  match t with
  | .null => inferInstanceAs (Decidable False)
  | .idle c => inferInstanceAs (Decidable (c ∈ w.online))
  | .alloc n => inferInstanceAs (Decidable (n ∈ w.live))

/-- An operation that can happen, with `thread_wakeup` called for threads that exist. -/
def Calls (w : World) (op : Op) : Prop :=
  w.Enabled op ∧
    match op with
    | .wakeup t => w.IsThread t
    | _ => True

instance (w : World) (op : Op) : Decidable (w.Calls op) :=
  match op with
  | .wakeup _ => inferInstanceAs (Decidable (_ ∧ _))
  | .initCpu _ | .create _ _ | .tick _ | .sleep _ _ | .yield _ | .semaWait _ _ | .condWait _ _
  | .finishWait _ | .semaSignal _ | .condSignal _ =>
    inferInstanceAs (Decidable (w.Enabled _ ∧ True))

/-- Threads that can run and threads on a wait list have no timer. -/
def TimersClear (w : World) : Prop :=
  (∀ t, w.IsThread t → w.mem.state t = .running → w.mem.sleepTimer t = false) ∧
    ∀ i t, w.OnList i t → w.mem.sleepTimer t = false

/-- `thread_wakeup` is called for a thread without a timer, and `sched_sleep` by a thread that is
on no wait list. -/
def TimerSafe (w : World) : Op → Prop
  | .wakeup t => w.mem.sleepTimer t = false
  | .sleep c _ => ∀ i, ¬ w.OnList i (w.cur c)
  | .initCpu _ | .create _ _ | .tick _ | .yield _ | .semaWait _ _ | .condWait _ _ | .finishWait _
  | .semaSignal _ | .condSignal _ => True

end World

/-- The system, and the threads whose last call that can block is `sched_sleep`. -/
structure Suspensions where
  world : World
  sleeps : ThreadRef → Bool

/-- The threads whose last call is `sched_sleep` after an operation. -/
def nextSleeps (w : World) (sleeps : ThreadRef → Bool) : Op → ThreadRef → Bool
  | .sleep c _ => Function.update sleeps (w.cur c) true
  | .yield c | .semaWait c _ | .condWait c _ => Function.update sleeps (w.cur c) false
  | .create _ n => Function.update sleeps (.alloc n) false
  | .initCpu _ | .tick _ | .wakeup _ | .finishWait _ | .semaSignal _ | .condSignal _ => sleeps

/-- One operation. -/
def Suspensions.step (s : Suspensions) (op : Op) : Option Suspensions :=
  (s.world.step op).map fun w => ⟨w, nextSleeps s.world s.sleeps op⟩

/-- The operations of a run that keeps the timers in order. -/
def Suspensions.SafeCall (s : Suspensions) (op : Op) : Prop :=
  s.world.Calls op ∧ s.world.TimerSafe op

/-- The wait lists can be followed to their ends, over threads that exist. -/
structure ListsOk (w : World) (lists : WaitId → List ThreadRef) : Prop where
  chain : ∀ i, Chain .null w.mem.nextWait (w.listAt i).head (lists i)
  thread : ∀ i, ∀ t ∈ lists i, ∃ n ∈ w.live, t = .alloc n

section Links

variable {w w' : World} {rings : ℕ → List ThreadRef} {lists : WaitId → List ThreadRef} {op : Op}

theorem ListsOk.onList_iff (h : ListsOk w lists) {i : WaitId} {t : ThreadRef} :
    w.OnList i t ↔ t ∈ lists i := by
  constructor
  · rintro ⟨nodes, hchain, ht⟩
    rwa [hchain.unique (h.chain i)] at ht
  · exact fun ht => ⟨lists i, h.chain i, ht⟩

/-- Links that do not change. -/
theorem ListsOk.keep (h : ListsOk w lists) (hlist : w'.listAt = w.listAt)
    (hlive : ∀ n ∈ w.live, n ∈ w'.live)
    (hlinks : ∀ n ∈ w.live, w'.mem.nextWait (.alloc n) = w.mem.nextWait (.alloc n)) :
    ListsOk w' lists := by
  refine ⟨fun i => ?_, fun i t ht => ?_⟩
  · rw [hlist]
    apply (h.chain i).congr
    intro t ht
    obtain ⟨n, hn, rfl⟩ := h.thread i t ht
    exact hlinks n hn
  · obtain ⟨n, hn, rfl⟩ := h.thread i t ht
    exact ⟨n, hlive n hn, rfl⟩

/-- A push puts no other thread on any list, wherever the thread has been before. -/
theorem ListsOk.push (h : ListsOk w lists) {n : ℕ} (hn : n ∈ w.live) (i : WaitId)
    (hlist : w'.listAt = Function.update w.listAt i ((w.listAt i).push w.mem (.alloc n)).1)
    (hlinks : w'.mem.nextWait = ((w.listAt i).push w.mem (.alloc n)).2.nextWait)
    (hlive : w'.live = w.live) :
    ∃ lists', ListsOk w' lists' ∧ ∀ j, ∀ t ∈ lists' j, t ∈ lists j ∨ t = .alloc n := by
  have hnull : ThreadRef.alloc n ≠ .null := by simp
  have hpush : ∃ tail, w'.mem.nextWait =
      Function.update (Function.update w.mem.nextWait tail (.alloc n)) (.alloc n) .null ∧
      ((w.listAt i).head = .null ∨ (w'.listAt i).head = (w.listAt i).head) := by
    rw [hlinks, hlist, Function.update_self]
    unfold ThreadList.push
    split_ifs with hempty
    · exact ⟨.alloc n, by simp, Or.inl hempty⟩
    · exact ⟨_, rfl, Or.inr rfl⟩
  obtain ⟨tail, hnext, hhead⟩ := hpush
  have hchain : ∀ j, ∃ nodes, Chain .null w'.mem.nextWait (w'.listAt j).head nodes ∧
      ∀ t ∈ nodes, t ∈ lists j ∨ t = .alloc n := by
    intro j
    by_cases hj : j = i
    · subst hj
      by_cases hempty : (w.listAt j).head = .null
      · refine ⟨[.alloc n], ?_, fun t ht => Or.inr (List.mem_singleton.mp ht)⟩
        rw [hlist, Function.update_self, hnext]
        simp only [ThreadList.push, if_pos hempty]
        exact chain_cons_iff.mpr ⟨rfl, hnull, by simp⟩
      · rw [hhead.resolve_left hempty, hnext]
        exact (h.chain j).relink tail hnull
    · rw [hlist, Function.update_of_ne hj, hnext]
      exact (h.chain j).relink tail hnull
  choose lists' hlists' hsub using hchain
  refine ⟨lists', ⟨hlists', fun j t ht => ?_⟩, hsub⟩
  rw [hlive]
  rcases hsub j t ht with ht | rfl
  · exact h.thread j t ht
  · exact ⟨n, hn, rfl⟩

/-- A pop leaves the rest of a list. -/
theorem ListsOk.pop (h : ListsOk w lists) (i : WaitId) (hhead : (w.listAt i).head ≠ .null)
    (hlist : w'.listAt = Function.update w.listAt i ((w.listAt i).pop w.mem))
    (hlinks : w'.mem.nextWait = w.mem.nextWait) (hlive : w'.live = w.live) :
    ListsOk w' (Function.update lists i (lists i).tail) := by
  refine ⟨fun j => ?_, fun j t ht => ?_⟩
  · rw [hlinks, hlist]
    by_cases hj : j = i
    · subst hj
      rw [Function.update_self, Function.update_self]
      obtain ⟨rest, hcons, hrest⟩ := (h.chain j).cons_of_ne hhead
      rw [hcons]
      simpa [ThreadList.pop, hhead] using hrest
    · rw [Function.update_of_ne hj, Function.update_of_ne hj]
      exact h.chain j
  · rw [hlive]
    by_cases hj : j = i
    · subst hj
      rw [Function.update_self] at ht
      exact h.thread j t (List.mem_of_mem_tail ht)
    · rw [Function.update_of_ne hj] at ht
      exact h.thread j t ht

/-- The lists of `w'` can be followed to their ends, and a thread on them either was on the same
list in `w` or was running there and has blocked. -/
def Relisted (w w' : World) (lists : WaitId → List ThreadRef) : Prop :=
  ∃ lists', ListsOk w' lists' ∧ ∀ i, ∀ t ∈ lists' i, t ∈ lists i ∨
    (w.mem.state t = .running ∧ w.IsThread t ∧ w'.mem.sleepTimer = w.mem.sleepTimer)

theorem ListsOk.relisted_keep (h : ListsOk w lists) (hlist : w'.listAt = w.listAt)
    (hlive : ∀ n ∈ w.live, n ∈ w'.live)
    (hlinks : ∀ n ∈ w.live, w'.mem.nextWait (.alloc n) = w.mem.nextWait (.alloc n)) :
    Relisted w w' lists :=
  ⟨lists, h.keep hlist hlive hlinks, fun _ _ ht => Or.inl ht⟩

theorem ListsOk.relisted_push (h : ListsOk w lists) (hok : WorldOk w rings) {c : ℕ}
    (hc : c ∈ w.online) (hne : w.cur c ≠ .idle c) (i : WaitId)
    (hlist : w'.listAt = Function.update w.listAt i ((w.listAt i).push w.mem (w.cur c)).1)
    (hmem : w'.mem = ((w.listAt i).push w.mem (w.cur c)).2) (hlive : w'.live = w.live) :
    Relisted w w' lists := by
  obtain ⟨n, hn, hcur⟩ := hok.cur_live hc hne
  have hrunning : w.mem.state (w.cur c) = .running := (hok.cpu c hc).cur_running
  obtain ⟨nextWait, heq⟩ := push_snd_eq (w.listAt i) w.mem (w.cur c)
  rw [hcur] at hlist hmem hrunning heq
  obtain ⟨lists', hlists', hsub⟩ := h.push hn i hlist (by rw [hmem]) hlive
  refine ⟨lists', hlists', fun j t ht => (hsub j t ht).imp_right ?_⟩
  rintro rfl
  exact ⟨hrunning, hn, by rw [hmem, heq]⟩

theorem ListsOk.relisted_pop (h : ListsOk w lists) (i : WaitId)
    (hhead : (w.listAt i).head ≠ .null)
    (hlist : w'.listAt = Function.update w.listAt i ((w.listAt i).pop w.mem))
    (hmem : w'.mem = wake w.mem (w.listAt i).head) (hlive : w'.live = w.live) :
    Relisted w w' lists := by
  refine ⟨_, h.pop i hhead hlist (by rw [hmem]; rfl) hlive, fun j t ht => Or.inl ?_⟩
  by_cases hj : j = i
  · subst hj
    rw [Function.update_self] at ht
    exact List.mem_of_mem_tail ht
  · rwa [Function.update_of_ne hj] at ht

/-- After any operation the lists can be followed to their ends, and the only new threads on them
are threads that block. -/
theorem ListsOk.step (h : ListsOk w lists) (hok : WorldOk w rings) (hop : w.Enabled op)
    (hstep : w.step op = some w') : Relisted w w' lists := by
  cases op with
  | initCpu c =>
    cases hstep
    refine h.relisted_keep ?_ (fun _ hn => hn) fun n _ => ?_
    · rfl
    · simp [World.setCpu, schedInitCpu, queuePushBack, (hok.offline c hop).1, initThread]
  | create c n =>
    cases hstep
    have hhead : (w.cpus c).threads ≠ .null := by
      rw [(hok.cpu c hop.1).head]
      simp
    obtain ⟨-, -, -, -, -, hlinks, -⟩ :=
      threadCreate_fields (c := c) (h := w.mem) (t := .alloc n) hhead
    refine h.relisted_keep ?_ (fun _ hm => Finset.mem_insert_of_mem hm) fun m hm => ?_
    · rfl
    · have hne : ThreadRef.alloc m ≠ .alloc n := by
        rintro heq
        rw [ThreadRef.alloc.injEq] at heq
        exact hop.2.2 (heq ▸ hm)
      change (threadCreate c (w.cpus c) (.alloc n) w.mem).2.nextWait _ = _
      rw [hlinks, Function.update_of_ne hne]
  | tick c =>
    obtain ⟨cpu', h', htick, -, hmoved, -⟩ :=
      (hok.cpu c hop.1).schedTick_spec (hok.length_le hop.1)
    rw [World.step, htick, Option.map_some, Option.some.injEq] at hstep
    subst hstep
    exact h.relisted_keep rfl (fun _ hn => hn) fun n _ => congrFun hmoved.nextWait _
  | sleep c ms =>
    obtain ⟨cpu', h', hsleep, -, hmoved, -⟩ :=
      (hok.cpu c hop.1).schedSleep_spec ms (hok.length_le hop.1)
    rw [World.step, hsleep, Option.map_some, Option.some.injEq] at hstep
    subst hstep
    exact h.relisted_keep rfl (fun _ hn => hn) fun n _ => congrFun hmoved.nextWait _
  | yield c =>
    obtain ⟨cpu', h', hyield, -, hmoved, -⟩ :=
      (hok.cpu c hop.1).schedYieldLocked_spec hop.2.2 (hok.length_le hop.1)
    rw [World.step, hyield, Option.map_some, Option.some.injEq] at hstep
    subst hstep
    exact h.relisted_keep rfl (fun _ hn => hn) fun n _ => congrFun hmoved.nextWait _
  | wakeup t =>
    cases hstep
    exact h.relisted_keep rfl (fun _ hn => hn) fun n _ => rfl
  | semaWait c s =>
    simp only [World.step] at hstep
    split_ifs at hstep <;> cases hstep
    · exact h.relisted_keep (listAt_addCount w s (-1)) (fun _ hn => hn) fun n _ => rfl
    · exact h.relisted_push hok hop.1 hop.2.2 (.sema s) (listAt_updateSema w s _) rfl rfl
  | condWait c k =>
    cases hstep
    exact h.relisted_push hok hop.1 hop.2.2 (.cond k) (listAt_updateCond w k _) rfl rfl
  | finishWait c =>
    obtain ⟨cpu', h', hyield, -, hmoved, -⟩ :=
      (hok.cpu c hop.1).schedYieldLocked_spec (hok.locked c hop.1 hop.2) (hok.length_le hop.1)
    rw [World.step, hyield, Option.map_some, Option.some.injEq] at hstep
    subst hstep
    exact h.relisted_keep rfl (fun _ hn => hn) fun n _ => congrFun hmoved.nextWait _
  | semaSignal s =>
    simp only [World.step] at hstep
    split_ifs at hstep with hempty <;> cases hstep
    · exact h.relisted_keep (listAt_addCount w s 1) (fun _ hn => hn) fun n _ => rfl
    · exact h.relisted_pop (.sema s) hempty (listAt_updateSema w s _) rfl rfl
  | condSignal k =>
    simp only [World.step] at hstep
    split_ifs at hstep with hempty <;> cases hstep
    · exact h.relisted_keep rfl (fun _ hn => hn) fun n _ => rfl
    · exact h.relisted_pop (.cond k) hempty (listAt_updateCond w k _) rfl rfl

end Links

section Timers

variable {w w' : World} {rings : ℕ → List ThreadRef} {lists : WaitId → List ThreadRef} {op : Op}
  {h' : Threads} {t : ThreadRef}

/-- A timer is set by `sched_sleep` only. -/
theorem World.Marks.timer (h : w.Marks h' op) (ht : h'.sleepTimer t = true) :
    w.mem.sleepTimer t = true ∨
      ∃ c ms, op = .sleep c ms ∧ w.cur c ≠ .idle c ∧ t = w.cur c ∧ h'.state t = .sleeping := by
  have hclear : ∀ x, h'.sleepTimer = Function.update w.mem.sleepTimer x false →
      w.mem.sleepTimer t = true := by
    intro x hx
    by_cases heq : t = x
    · subst heq
      rw [hx, Function.update_self] at ht
      exact absurd ht (by decide)
    · rwa [hx, Function.update_of_ne heq] at ht
  cases op with
  | initCpu c => exact Or.inl (hclear _ h.2)
  | create c n => exact Or.inl (hclear _ h.2)
  | tick c =>
    rcases h t with ⟨-, hsame⟩ | ⟨-, hset, -⟩
    · exact Or.inl (hsame ▸ ht)
    · exact Or.inl hset
  | sleep c ms =>
    rcases h with ⟨-, -, hsame⟩ | ⟨hne, hstate, htimer⟩
    · exact Or.inl (hsame ▸ ht)
    · by_cases heq : t = w.cur c
      · refine Or.inr ⟨c, ms, rfl, hne, heq, ?_⟩
        rw [hstate, heq, Function.update_self]
      · rw [htimer, Function.update_of_ne heq] at ht
        exact Or.inl ht
  | yield c => exact Or.inl (h.2 ▸ ht)
  | wakeup x => exact Or.inl (h.2 ▸ ht)
  | semaWait c s => exact Or.inl (h.2 ▸ ht)
  | condWait c k => exact Or.inl (h.2 ▸ ht)
  | finishWait c => exact Or.inl (h.2 ▸ ht)
  | semaSignal s => exact Or.inl (h.1 ▸ ht)
  | condSignal k => exact Or.inl (h.1 ▸ ht)

/-- How a thread with a timer can come to run: it did before, `thread_wakeup` is called for it,
or it is the first of a wait list. -/
theorem World.Marks.running (h : w.Marks h' op) (ht : h'.sleepTimer t = true)
    (hrun : h'.state t = .running) :
    w.mem.state t = .running ∨ op = .wakeup t ∨ ∃ i, t = (w.listAt i).head ∧ t ≠ .null := by
  have hsleep : ∀ x, h'.state = Function.update w.mem.state x .sleeping →
      w.mem.state t = .running := by
    intro x hx
    by_cases heq : t = x
    · rw [hx, heq, Function.update_self] at hrun
      exact absurd hrun (by decide)
    · rwa [hx, Function.update_of_ne heq] at hrun
  have hclear : ∀ x, h'.sleepTimer = Function.update w.mem.sleepTimer x false → t ≠ x := by
    rintro x hx rfl
    rw [hx, Function.update_self] at ht
    exact absurd ht (by decide)
  have hsignal : ∀ i, Signalled (w.listAt i) w.mem h' →
      w.mem.state t = .running ∨ ∃ i, t = (w.listAt i).head ∧ t ≠ .null := by
    rintro i ⟨-, ⟨-, hstate⟩ | ⟨hhead, hstate⟩⟩
    · exact Or.inl (hstate ▸ hrun)
    · by_cases heq : t = (w.listAt i).head
      · exact Or.inr ⟨i, heq, heq ▸ hhead⟩
      · rw [hstate, Function.update_of_ne heq] at hrun
        exact Or.inl hrun
  cases op with
  | initCpu c =>
    rw [h.1, Function.update_of_ne (hclear _ h.2)] at hrun
    exact Or.inl hrun
  | create c n =>
    rw [h.1, Function.update_of_ne (hclear _ h.2)] at hrun
    exact Or.inl hrun
  | tick c =>
    rcases h t with ⟨hsame, -⟩ | ⟨-, -, -, hoff⟩
    · exact Or.inl (hsame ▸ hrun)
    · rw [hoff] at ht
      exact absurd ht (by decide)
  | sleep c ms =>
    rcases h with ⟨-, hsame, -⟩ | ⟨-, hstate, -⟩
    · exact Or.inl (hsame ▸ hrun)
    · exact Or.inl (hsleep _ hstate)
  | yield c => exact Or.inl (hsleep _ h.1)
  | wakeup x =>
    by_cases heq : t = x
    · exact Or.inr (Or.inl (by rw [heq]))
    · rw [h.1, Function.update_of_ne heq] at hrun
      exact Or.inl hrun
  | semaWait c s => exact Or.inl (h.1 ▸ hrun)
  | condWait c k => exact Or.inl (h.1 ▸ hrun)
  | finishWait c => exact Or.inl (hsleep _ h.1)
  | semaSignal s => exact (hsignal (.sema s) h).imp_right Or.inr
  | condSignal k => exact (hsignal (.cond k) h).imp_right Or.inr

/-- Only `sched_init_cpu` and `thread_create` make threads. -/
theorem World.isThread_of_step (hstep : w.step op = some w') (ht : w'.IsThread t) :
    w.IsThread t ∨ (∃ c, op = .initCpu c ∧ t = .idle c) ∨
      ∃ c n, op = .create c n ∧ t = .alloc n := by
  have hsame : w'.online = w.online → w'.live = w.live → w.IsThread t := by
    intro honline hlive
    cases t with
    | null => exact ht
    | idle c =>
      have hc : c ∈ w'.online := ht
      rw [honline] at hc
      exact hc
    | alloc n =>
      have hn : n ∈ w'.live := ht
      rw [hlive] at hn
      exact hn
  cases op with
  | initCpu c =>
    cases hstep
    cases t with
    | null => exact Or.inl ht
    | idle c' =>
      rcases Finset.mem_insert.mp ht with rfl | hc
      · exact Or.inr (Or.inl ⟨c', rfl, rfl⟩)
      · exact Or.inl hc
    | alloc n => exact Or.inl ht
  | create c n =>
    cases hstep
    cases t with
    | null => exact Or.inl ht
    | idle c' => exact Or.inl ht
    | alloc m =>
      rcases Finset.mem_insert.mp ht with rfl | hm
      · exact Or.inr (Or.inr ⟨c, m, rfl, rfl⟩)
      · exact Or.inl hm
  | tick c | sleep c ms | yield c | finishWait c =>
    obtain ⟨r, -, rfl⟩ := Option.map_eq_some_iff.mp hstep
    exact Or.inl (hsame rfl rfl)
  | wakeup x | condWait c k =>
    cases hstep
    exact Or.inl (hsame rfl rfl)
  | semaWait c s | semaSignal s | condSignal k =>
    simp only [World.step] at hstep
    split_ifs at hstep <;> cases hstep <;> exact Or.inl (hsame rfl rfl)

/-- A thread that has a timer after an operation is no new one. -/
theorem World.Marks.isThread (h : w.Marks w'.mem op) (hstep : w.step op = some w')
    (ht : w'.IsThread t) (htimer : w'.mem.sleepTimer t = true) : w.IsThread t := by
  rcases World.isThread_of_step hstep ht with ht | ⟨c, rfl, rfl⟩ | ⟨c, n, rfl, rfl⟩
  · exact ht
  all_goals
    rw [h.2, Function.update_self] at htimer
    exact absurd htimer (by decide)

/-- Timers belong to threads in `sched_sleep`: they are on no list and do not run. -/
structure TimersOk (s : Suspensions) (rings : ℕ → List ThreadRef)
    (lists : WaitId → List ThreadRef) : Prop where
  world : WorldOk s.world rings
  chains : ListsOk s.world lists
  running : ∀ t, s.world.IsThread t → s.world.mem.state t = .running →
    s.world.mem.sleepTimer t = false
  listed : ∀ i, ∀ t ∈ lists i, s.world.mem.sleepTimer t = false
  sleeps : ∀ t, s.world.IsThread t → s.world.mem.sleepTimer t = true → s.sleeps t = true

variable {s s' s₀ : Suspensions}

theorem TimersOk.timersClear (h : TimersOk s rings lists) : s.world.TimersClear :=
  ⟨h.running, fun i t ht => h.listed i t (h.chains.onList_iff.mp ht)⟩

/-- A safe operation keeps the timers in order. -/
theorem TimersOk.step (h : TimersOk s rings lists) (hop : s.SafeCall op)
    (hstep : s.step op = some s') : ∃ rings' lists', TimersOk s' rings' lists' := by
  obtain ⟨w', hw, rfl⟩ := Option.map_eq_some_iff.mp hstep
  obtain ⟨⟨hen, -⟩, hsafe⟩ := hop
  obtain ⟨w'', rings', hw', hok⟩ := h.world.step hen
  rw [hw, Option.some.injEq] at hw'
  subst hw'
  have hmarks := h.world.step_marks hen hw
  obtain ⟨lists', hlists', hsub⟩ := h.chains.step h.world hen hw
  -- the threads whose timer is not cleared by the operation
  have hset : ∀ t, w'.mem.sleepTimer t = true → w'.IsThread t →
      w'.mem.state t = .sleeping ∧ nextSleeps s.world s.sleeps op t = true := by
    intro t htimer ht
    have hthread := hmarks.isThread hw ht htimer
    rcases hmarks.timer htimer with hold | ⟨c, ms, rfl, -, rfl, hstate⟩
    · have hclear : s.world.mem.state t ≠ .running := by
        intro hrun
        rw [h.running t hthread hrun] at hold
        exact absurd hold (by decide)
      have hsleeping : w'.mem.state t ≠ .running := by
        intro hrun
        rcases hmarks.running htimer hrun with hrun | rfl | ⟨i, hhead, hnull⟩
        · exact hclear hrun
        · change s.world.mem.sleepTimer t = false at hsafe
          rw [hsafe] at hold
          exact absurd hold (by decide)
        · have hmem : t ∈ lists i := hhead ▸ (h.chains.chain i).mem_start (hhead ▸ hnull)
          rw [h.listed i t hmem] at hold
          exact absurd hold (by decide)
      refine ⟨?_, ?_⟩
      · cases hstate : w'.mem.state t with
        | running => exact absurd hstate hsleeping
        | sleeping => rfl
      · -- the thread is not the one that makes a call, since it does not run
        have hcur : ∀ c ∈ s.world.online, t ≠ s.world.cur c := by
          rintro c hc rfl
          exact hclear (h.world.cpu c hc).cur_running
        have hsleeps := h.sleeps t hthread hold
        cases op with
        | sleep c ms => rw [nextSleeps, Function.update_of_ne (hcur c hen.1), hsleeps]
        | yield c => rw [nextSleeps, Function.update_of_ne (hcur c hen.1), hsleeps]
        | semaWait c x => rw [nextSleeps, Function.update_of_ne (hcur c hen.1), hsleeps]
        | condWait c x => rw [nextSleeps, Function.update_of_ne (hcur c hen.1), hsleeps]
        | create c n =>
          have hne : t ≠ .alloc n := by
            rintro rfl
            exact hen.2.2 hthread
          rw [nextSleeps, Function.update_of_ne hne, hsleeps]
        | initCpu c | tick c | wakeup x | finishWait c | semaSignal x | condSignal x =>
          exact hsleeps
    · exact ⟨hstate, Function.update_self _ _ _⟩
  refine ⟨rings', lists', hok, hlists', fun t ht hrun => ?_, fun i t ht => ?_,
    fun t ht htimer => (hset t htimer ht).2⟩
  · by_contra htimer
    rw [Bool.not_eq_false] at htimer
    have hsleeping := (hset t htimer ht).1
    change w'.mem.state t = .running at hrun
    rw [hrun] at hsleeping
    exact absurd hsleeping (by decide)
  · by_contra htimer
    rw [Bool.not_eq_false] at htimer
    rcases hsub i t ht with hmem | ⟨hrun, hthread, hsame⟩
    · rcases hmarks.timer htimer with hold | ⟨c, ms, rfl, -, rfl, -⟩
      · rw [h.listed i t hmem] at hold
        exact absurd hold (by decide)
      · exact hsafe i (h.chains.onList_iff.mpr hmem)
    · change w'.mem.sleepTimer t = true at htimer
      rw [hsame, h.running t hthread hrun] at htimer
      exact absurd htimer (by decide)

/-- An operation that is not safe ends the order of the timers. -/
theorem TimersOk.safe_of_step (h : TimersOk s rings lists) (hop : s.world.Calls op)
    (hstep : s.step op = some s') (hclear : s'.world.TimersClear) : s.world.TimerSafe op := by
  obtain ⟨w', hw, rfl⟩ := Option.map_eq_some_iff.mp hstep
  have hmarks := h.world.step_marks hop.1 hw
  cases op with
  | wakeup t =>
    cases hw
    exact hclear.1 t hop.2 (Function.update_self _ _ _)
  | sleep c ms =>
    intro i hi
    obtain ⟨n, hn, hcur⟩ := h.chains.thread i _ (h.chains.onList_iff.mp hi)
    rcases hmarks with ⟨hidle, -⟩ | ⟨hne, -, htimer⟩
    · rw [hcur] at hidle
      exact absurd hidle (by simp)
    · have hlisted : w'.OnList i (s.world.cur c) := by
        obtain ⟨cpu', h', hsleep, -, hmoved, -⟩ :=
          (h.world.cpu c hop.1.1).schedSleep_spec ms (h.world.length_le hop.1.1)
        rw [World.step, hsleep, Option.map_some, Option.some.injEq] at hw
        subst hw
        obtain ⟨nodes, hchain, hmem⟩ := hi
        exact ⟨nodes, hchain.congr fun x _ => congrFun hmoved.nextWait x, hmem⟩
      have hoff : w'.mem.sleepTimer (s.world.cur c) = false := hclear.2 i _ hlisted
      rw [htimer, Function.update_self] at hoff
      exact absurd hoff (by decide)
  | initCpu c | create c n | tick c | yield c | semaWait c x | condWait c x | finishWait c
  | semaSignal x | condSignal x => trivial

/-- The timers are in order in every state that is reached by safe operations. -/
theorem timersOk_of_reaches (h₀ : s₀.world.Boot) (hlists : ∀ i, s₀.world.listAt i = ThreadList.init)
    (hrun : Reaches Suspensions.step Suspensions.SafeCall s₀ s) :
    ∃ rings lists, TimersOk s rings lists := by
  apply hrun.invariant
  · refine ⟨_, fun _ => [], h₀.worldOk, ⟨fun i => ?_, by simp⟩, fun t ht => ?_, by simp,
      fun t ht => ?_⟩
    · rw [hlists i]
      exact chain_nil_iff.mpr rfl
    all_goals
      obtain ⟨honline, hlive, -⟩ := h₀
      cases t with
      | null => exact absurd ht id
      | idle c => simp [World.IsThread, honline] at ht
      | alloc n => simp [World.IsThread, hlive] at ht
  · rintro s op s' ⟨rings, lists, h⟩ hop hstep
    exact h.step hop hstep

/-- Without `thread_wakeup` all operations are safe. -/
theorem safe_of_waiting (h₀ : s₀.world.Boot) (hlists : ∀ i, s₀.world.listAt i = ThreadList.init)
    (hrun : Reaches Suspensions.step (fun s op => s.world.Waiting op) s₀ s) :
    Reaches Suspensions.step Suspensions.SafeCall s₀ s := by
  have hboth : Reaches Suspensions.step Suspensions.SafeCall s₀ s ∧
      ∃ rings lists yielded, WorldOk s.world rings ∧ WaitOk s.world lists yielded := by
    apply hrun.invariant (I := fun s => Reaches Suspensions.step Suspensions.SafeCall s₀ s ∧
      ∃ rings lists yielded, WorldOk s.world rings ∧ WaitOk s.world lists yielded)
    · exact ⟨Reaches.refl _, _, _, _, h₀.worldOk, h₀.waitOk hlists⟩
    · rintro s op s' ⟨hreach, rings, lists, yielded, hok, hwait⟩ ⟨hop, hwake⟩ hstep
      have hsafe : s.SafeCall op := by
        cases op with
        | wakeup t => exact absurd rfl (hwake t)
        | sleep c ms =>
          refine ⟨⟨hop, trivial⟩, fun i hi => ?_⟩
          exact hwait.cur_notMem hok hop.1 hop.2 i (hwait.onList_iff.mp hi)
        | initCpu c | create c n | tick c | yield c | semaWait c x | condWait c x | finishWait c
        | semaSignal x | condSignal x => exact ⟨⟨hop, trivial⟩, trivial⟩
      refine ⟨hreach.tail hsafe hstep, ?_⟩
      obtain ⟨w', hw, rfl⟩ := Option.map_eq_some_iff.mp hstep
      obtain ⟨w'', rings', hw', hok'⟩ := hok.step hop
      rw [hw, Option.some.injEq] at hw'
      exact ⟨rings', _, _, hw' ▸ hok', hwait.step hok hop hwake hw⟩
  exact hboth.1

end Timers

/-- In every run in which `thread_wakeup` is called only for threads without a timer and
`sched_sleep` only by threads that are on no wait list: threads that can run and threads on wait
lists have no timer, and a tick wakes only threads that are in `sched_sleep`. From every state of
such a run an operation keeps the first of this if and only if it is such a call. -/
theorem timers_clear_iff {s₀ s : Suspensions} (h₀ : s₀.world.Boot)
    (hlists : ∀ i, s₀.world.listAt i = ThreadList.init)
    (hrun : Reaches Suspensions.step Suspensions.SafeCall s₀ s) :
    s.world.TimersClear ∧
    (∀ c s', s.world.Calls (.tick c) → s.step (.tick c) = some s' → ∀ t, s.world.IsThread t →
      s.world.mem.state t = .sleeping → s'.world.mem.state t = .running → s.sleeps t = true) ∧
    ∀ op s', s.world.Calls op → s.step op = some s' →
      (s'.world.TimersClear ↔ s.world.TimerSafe op) := by
  obtain ⟨rings, lists, h⟩ := timersOk_of_reaches h₀ hlists hrun
  refine ⟨h.timersClear, fun c s' hop hstep t ht hsleep hrunning => ?_,
    fun op s' hop hstep => ⟨h.safe_of_step hop hstep, fun hsafe => ?_⟩⟩
  · obtain ⟨w', hw, rfl⟩ := Option.map_eq_some_iff.mp hstep
    rcases h.world.step_marks hop.1 hw t with ⟨hsame, -⟩ | ⟨-, htimer, -⟩
    · change w'.mem.state t = .running at hrunning
      rw [hsame, hsleep] at hrunning
      exact absurd hrunning (by decide)
    · exact h.sleeps t ht htimer
  · obtain ⟨rings', lists', h'⟩ := h.step ⟨hop, hsafe⟩ hstep
    exact h'.timersClear

/-- A thread sleeps until its timer has run out, waits for a semaphore, and is woken early. -/
theorem timers_clear_iff_earlyWakeup :
    ∃ s s' : Suspensions, s.step (.wakeup (.alloc 5)) = some s' ∧
      s.world.mem.state (.alloc 5) = .sleeping ∧ s.world.TimersClear ∧ s'.world.TimersClear := by
  let start : Suspensions := ⟨World.blank, fun _ => false⟩
  have hrun : ((runOps Suspensions.step (fun s op => s.world.Waiting op) start
      (threadRuns ++ [.sleep 0 1, .tick 0, .semaWait 0 0, .finishWait 0])).map fun s =>
        (s.world.mem.state (.alloc 5), s.world.mem.sleepTimer (.alloc 5),
          decide (s.world.Calls (.wakeup (.alloc 5))))) = some (.sleeping, false, true) := by
    decide +kernel
  obtain ⟨s, hs, hvalue⟩ := Option.map_eq_some_iff.mp hrun
  simp only [Prod.mk.injEq, decide_eq_true_eq] at hvalue
  obtain ⟨hsleep, htimer, hcall⟩ := hvalue
  obtain ⟨hclear, -, hstep⟩ := timers_clear_iff World.blank_boot World.blank_listAt
    (safe_of_waiting World.blank_boot World.blank_listAt (Reaches.of_runOps hs))
  exact ⟨s, _, rfl, hsleep, hclear, (hstep _ _ hcall rfl).mpr htimer⟩

/-- A thread sleeps, is woken early, and waits for a semaphore: it is on the list of the semaphore
with the timer of its sleep, and the next tick ends the wait. -/
theorem tick_ends_semaWait :
    ∃ s s' : Suspensions, Reaches Suspensions.step (fun s op => s.world.Calls op)
        ⟨World.blank, fun _ => false⟩ s ∧
      s.world.Calls (.tick 0) ∧ s.step (.tick 0) = some s' ∧
      s.world.OnList (.sema 0) (.alloc 5) ∧ s.sleeps (.alloc 5) = false ∧
      s.world.mem.state (.alloc 5) = .sleeping ∧ s'.world.mem.state (.alloc 5) = .running ∧
      ¬ s.world.TimersClear := by
  have hrun : ((runOps Suspensions.step (fun s op => s.world.Calls op) ⟨World.blank, fun _ => false⟩
      (threadRuns ++
        [.sleep 0 1, .wakeup (.alloc 5), .tick 0, .semaWait 0 0, .finishWait 0])).map fun s =>
        ((decide (s.world.Calls (.tick 0)), s.sleeps (.alloc 5), s.world.mem.sleepTimer (.alloc 5)),
          ((s.world.semas 0).threads.head, s.world.mem.nextWait (.alloc 5)),
          s.world.mem.state (.alloc 5),
          (s.step (.tick 0)).map fun s' => s'.world.mem.state (.alloc 5))) =
      some ((true, false, true), (.alloc 5, .null), .sleeping, some .running) := by decide +kernel
  obtain ⟨s, hs, hvalue⟩ := Option.map_eq_some_iff.mp hrun
  simp only [Prod.mk.injEq, decide_eq_true_eq] at hvalue
  obtain ⟨⟨hcall, hwaits, htimer⟩, ⟨hhead, hnext⟩, hsleep, htick⟩ := hvalue
  obtain ⟨s', hstep, hwoken⟩ := Option.map_eq_some_iff.mp htick
  have hlisted : s.world.OnList (.sema 0) (.alloc 5) := by
    refine ⟨[.alloc 5], ?_, by simp⟩
    exact chain_cons_iff.mpr ⟨hhead, by simp, by rw [hnext, chain_nil_iff]⟩
  refine ⟨s, s', Reaches.of_runOps hs, hcall, hstep, hlisted, hwaits, hsleep, hwoken, fun h => ?_⟩
  rw [h.2 _ _ hlisted] at htimer
  exact absurd htimer (by decide)

end Smor.Sched
