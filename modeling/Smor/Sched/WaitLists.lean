import Smor.Sched.World

/-!
# Wait lists

A thread that blocks puts itself on the wait list of a semaphore or a condition, and a signal
takes the first thread off the list. `WaitOk` says that the lists are what they should be:
chains of threads that are asleep without a timer, or about to be. It survives every
operation but `thread_wakeup`. Together with what puts threads to sleep it shows which
sleeping threads can be woken again.
-/

namespace Smor.Sched

open Smor.Lib

/-- What a thread can wait for. -/
inductive WaitId
  | sema (s : ℕ)
  | cond (k : ℕ)
  deriving DecidableEq

namespace World

/-- The wait list of a semaphore or a condition. -/
def listAt (w : World) : WaitId → ThreadList
  | .sema s => (w.semas s).threads
  | .cond k => w.conds k

/-- The threads on the wait lists after an operation. -/
def nextLists (w : World) (lists : WaitId → List ThreadRef) : Op → WaitId → List ThreadRef
  | .semaWait c s =>
    if 0 < (w.semas s).count then lists
    else Function.update lists (.sema s) (lists (.sema s) ++ [w.cur c])
  | .condWait c k => Function.update lists (.cond k) (lists (.cond k) ++ [w.cur c])
  | .semaSignal s => Function.update lists (.sema s) (lists (.sema s)).tail
  | .condSignal k => Function.update lists (.cond k) (lists (.cond k)).tail
  | .initCpu _ | .create _ _ | .tick _ | .sleep _ _ | .yield _ | .wakeup _ | .finishWait _ => lists

/-- The threads that `sched_yield` has put to sleep. -/
def nextYielded (w : World) (yielded : Set ThreadRef) : Op → Set ThreadRef
  | .yield c => insert (w.cur c) yielded
  | _ => yielded

theorem nextYielded_of_ne {w : World} {yielded : Set ThreadRef} {op : Op}
    (h : ∀ c, op ≠ .yield c) : w.nextYielded yielded op = yielded := by
  cases op with
  | yield c => exact absurd rfl (h c)
  | _ => rfl

/-- A thread is on a wait list. -/
def OnList (w : World) (i : WaitId) (t : ThreadRef) : Prop :=
  ∃ nodes, Chain .null w.mem.nextWait (w.listAt i).head nodes ∧ t ∈ nodes

/-- Something will wake every thread that sleeps. -/
def Wakeable (w : World) : Prop :=
  ∀ n ∈ w.live, w.mem.state (.alloc n) = .sleeping →
    (∃! i, w.OnList i (.alloc n)) ∨ w.mem.sleepTimer (.alloc n) = true

/-- An operation that can happen and is no `thread_wakeup`. -/
def Waiting (w : World) (op : Op) : Prop := w.Enabled op ∧ ∀ t, op ≠ .wakeup t

instance (w : World) (op : Op) : Decidable (w.Waiting op) :=
  match op with
  | .wakeup t => isFalse fun h => h.2 t rfl
  | .initCpu _ | .create _ _ | .tick _ | .sleep _ _ | .yield _ | .semaWait _ _ | .condWait _ _
  | .finishWait _ | .semaSignal _ | .condSignal _ =>
    decidable_of_iff (w.Enabled _) ⟨fun h => ⟨h, fun _ h' => nomatch h'⟩, And.left⟩

end World

/-- A thread is in the first step of a blocking wait. -/
def Blocking (w : World) (t : ThreadRef) : Prop :=
  ∃ c ∈ w.online, w.locked c = true ∧ w.cur c = t

/-- The wait lists hold threads that sleep without a timer, or are about to, and every thread
that sleeps is on a list or has a timer unless it went to sleep in `sched_yield`. -/
structure WaitOk (w : World) (lists : WaitId → List ThreadRef) (yielded : Set ThreadRef) :
    Prop where
  chain : ∀ i, Chain .null w.mem.nextWait (w.listAt i).head (lists i)
  tail : ∀ i, lists i ≠ [] → (lists i).getLast? = some (w.listAt i).tail
  unique : ∀ i i' t, t ∈ lists i → t ∈ lists i' → i = i'
  thread : ∀ i, ∀ t ∈ lists i, ∃ n ∈ w.live, t = .alloc n
  waiting : ∀ i, ∀ t ∈ lists i, w.mem.sleepTimer t = false ∧
    (w.mem.state t = .sleeping ∨ Blocking w t)
  timer : ∀ n ∈ w.live, w.mem.sleepTimer (.alloc n) = true → w.mem.state (.alloc n) = .sleeping
  blocking : ∀ c ∈ w.online, w.locked c = true → ∃ i, w.cur c ∈ lists i
  source : ∀ n ∈ w.live, w.mem.state (.alloc n) = .sleeping →
    w.mem.sleepTimer (.alloc n) = true ∨ (∃ i, .alloc n ∈ lists i) ∨ .alloc n ∈ yielded

section Lists

variable {w w' : World} {rings : ℕ → List ThreadRef} {lists : WaitId → List ThreadRef}
  {yielded : Set ThreadRef} {c n : ℕ} {t : ThreadRef}

/-- The current thread of a CPU is its idle thread or one that was created. -/
theorem WorldOk.cur_live (hok : WorldOk w rings) (hc : c ∈ w.online)
    (hne : w.cur c ≠ .idle c) : ∃ n ∈ w.live, w.cur c = .alloc n :=
  (hok.members c hc _ (hok.cpu c hc).cur_mem).resolve_left hne

/-- A thread is current on its own CPU only. -/
theorem WorldOk.cpuId_cur (hok : WorldOk w rings) (hc : c ∈ w.online) :
    w.mem.cpuId (w.cur c) = c :=
  hok.cpuId c hc _ (hok.cpu c hc).cur_mem

/-- A thread whose CPU is not locked is not in a wait. -/
theorem WorldOk.not_blocking (hok : WorldOk w rings) (hfree : w.locked (w.mem.cpuId t) = false) :
    ¬ Blocking w t := by
  rintro ⟨c, hc, hlock, rfl⟩
  rw [hok.cpuId_cur hc, hlock] at hfree
  exact absurd hfree (by decide)

/-- The current thread of a CPU that is not in a wait is on no wait list. -/
theorem WaitOk.cur_notMem (hwait : WaitOk w lists yielded) (hok : WorldOk w rings)
    (hc : c ∈ w.online) (hfree : w.locked c = false) (i : WaitId) : w.cur c ∉ lists i := by
  intro hmem
  rcases (hwait.waiting i _ hmem).2 with hsleep | hblock
  · have hrun : w.mem.state (w.cur c) = .running := (hok.cpu c hc).cur_running
    rw [hrun] at hsleep
    simp at hsleep
  · refine hok.not_blocking ?_ hblock
    rw [hok.cpuId_cur hc]
    exact hfree

/-- The current thread of a CPU has no timer. -/
theorem WaitOk.cur_timer (hwait : WaitOk w lists yielded) (hok : WorldOk w rings)
    (hc : c ∈ w.online) (hne : w.cur c ≠ .idle c) : w.mem.sleepTimer (w.cur c) = false := by
  obtain ⟨n, hn, hcur⟩ := hok.cur_live hc hne
  have hrun : w.mem.state (w.cur c) = .running := (hok.cpu c hc).cur_running
  by_contra htimer
  have hsleep := hwait.timer n hn (by simpa [hcur] using htimer)
  rw [← hcur, hrun] at hsleep
  simp at hsleep

/-- A list is empty when its head is null. -/
theorem WaitOk.nil_of_head (hwait : WaitOk w lists yielded) {i : WaitId}
    (hhead : (w.listAt i).head = .null) : lists i = [] := by
  have hchain := hwait.chain i
  rw [hhead] at hchain
  exact hchain.unique (chain_nil_iff.mpr rfl)

/-- Otherwise its first thread is the head, and the others are linked behind it. -/
theorem WaitOk.cons_of_head (hwait : WaitOk w lists yielded) {i : WaitId}
    (hhead : (w.listAt i).head ≠ .null) :
    ∃ rest, lists i = (w.listAt i).head :: rest ∧
      Chain .null w.mem.nextWait (w.mem.nextWait (w.listAt i).head) rest :=
  (hwait.chain i).cons_of_ne hhead

/-- Operations that touch no wait list keep them if the threads on them stay as they are. -/
theorem WaitOk.keep (hwait : WaitOk w lists yielded) {yielded' : Set ThreadRef}
    (hlist : w'.listAt = w.listAt) (hlive : ∀ n ∈ w.live, n ∈ w'.live)
    (hlinks : ∀ n ∈ w.live, w'.mem.nextWait (.alloc n) = w.mem.nextWait (.alloc n))
    (hstay : ∀ i, ∀ t ∈ lists i, w'.mem.sleepTimer t = w.mem.sleepTimer t ∧
      (w.mem.state t = .sleeping → w'.mem.state t = .sleeping) ∧
      (Blocking w t → Blocking w' t ∨ w'.mem.state t = .sleeping))
    (htimer : ∀ n ∈ w'.live, w'.mem.sleepTimer (.alloc n) = true →
      w'.mem.state (.alloc n) = .sleeping)
    (hblocking : ∀ c ∈ w'.online, w'.locked c = true → ∃ i, w'.cur c ∈ lists i)
    (hsource : ∀ n ∈ w'.live, w'.mem.state (.alloc n) = .sleeping →
      w'.mem.sleepTimer (.alloc n) = true ∨ (∃ i, .alloc n ∈ lists i) ∨ .alloc n ∈ yielded') :
    WaitOk w' lists yielded' := by
  refine ⟨fun i => ?_, fun i hne => ?_, hwait.unique, fun i t ht => ?_, fun i t ht => ?_, htimer,
    hblocking, hsource⟩
  · rw [hlist]
    apply (hwait.chain i).congr
    intro t ht
    obtain ⟨n, hn, rfl⟩ := hwait.thread i t ht
    exact hlinks n hn
  · rw [hlist]
    exact hwait.tail i hne
  · obtain ⟨n, hn, rfl⟩ := hwait.thread i t ht
    exact ⟨n, hlive n hn, rfl⟩
  · obtain ⟨htime, hsleep, hblock⟩ := hstay i t ht
    obtain ⟨hold, hcase⟩ := hwait.waiting i t ht
    refine ⟨htime.trans hold, ?_⟩
    rcases hcase with hs | hb
    · exact Or.inl (hsleep hs)
    · exact (hblock hb).symm

/-- Semaphore counts do not matter to the lists. -/
theorem listAt_addCount (w : World) (s : ℕ) (d : ℤ) : (w.addCount s d).listAt = w.listAt := by
  funext i
  cases i with
  | sema s' =>
    by_cases heq : s' = s
    · subst heq
      simp [World.listAt, World.addCount]
    · simp [World.listAt, World.addCount, heq]
  | cond k => rfl

theorem WaitOk.addCount (hwait : WaitOk w lists yielded) (s : ℕ) (d : ℤ) :
    WaitOk (w.addCount s d) lists yielded :=
  hwait.keep (listAt_addCount w s d) (fun _ hn => hn) (fun _ _ => rfl)
    (fun _ _ _ => ⟨rfl, id, fun hb => Or.inl hb⟩) hwait.timer hwait.blocking hwait.source

/-- `sched_init_cpu` has nothing to do with the lists. -/
theorem WaitOk.initCpu (hwait : WaitOk w lists yielded) (hok : WorldOk w rings)
    (hc : c ∉ w.online) :
    WaitOk { w.setCpu c (schedInitCpu c (w.cpus c) w.mem) with online := insert c w.online }
      lists yielded := by
  obtain ⟨hnull, hunlocked⟩ := hok.offline c hc
  have hcpu : ∀ c' ∈ w.online, c' ≠ c := by
    rintro c' hc' rfl
    exact hc hc'
  simp only [World.setCpu, schedInitCpu, queuePushBack, hnull, if_true, initThread]
  refine hwait.keep rfl (fun _ hn => hn) (fun n _ => ?_) (fun i t ht => ?_) (fun n hn => ?_)
    (fun c' hc' hl => ?_) fun n hn => ?_
  · simp
  · obtain ⟨n, hn, rfl⟩ := hwait.thread i t ht
    refine ⟨by simp, by simp, ?_⟩
    rintro ⟨c', hc', hl, hcur⟩
    refine Or.inl ⟨c', Finset.mem_insert_of_mem hc', hl, ?_⟩
    simp only [World.cur, Function.update_of_ne (hcpu c' hc')]
    exact hcur
  · simpa using hwait.timer n hn
  · have hne : c' ≠ c := by
      rintro rfl
      rw [hunlocked] at hl
      exact absurd hl (by decide)
    simp only [World.cur, Function.update_of_ne hne]
    exact hwait.blocking c' ((Finset.mem_insert.mp hc').resolve_left hne) hl
  · simpa using hwait.source n hn

/-- A new thread is runnable and on no list. -/
theorem WaitOk.create (hwait : WaitOk w lists yielded) (hok : WorldOk w rings)
    (hc : c ∈ w.online) (hn : n ∉ w.live) :
    WaitOk { w.setCpu c (threadCreate c (w.cpus c) (.alloc n) w.mem) with live := insert n w.live }
      lists yielded := by
  have hhead : (w.cpus c).threads ≠ .null := by
    rw [(hok.cpu c hc).head]
    simp
  obtain ⟨hstate, htimer, -, -, -, hlinks, hcur⟩ :=
    threadCreate_fields (c := c) (h := w.mem) (t := .alloc n) hhead
  have hold : ∀ m ∈ w.live, ThreadRef.alloc m ≠ .alloc n := by
    rintro m hm heq
    rw [ThreadRef.alloc.injEq] at heq
    exact hn (heq ▸ hm)
  have hcur' : ∀ c', World.cur { w.setCpu c (threadCreate c (w.cpus c) (.alloc n) w.mem) with
      live := insert n w.live } c' = w.cur c' := by
    intro c'
    by_cases heq : c' = c
    · subst heq
      simp only [World.cur, World.setCpu, Function.update_self, hcur]
    · simp only [World.cur, World.setCpu, Function.update_of_ne heq]
  refine hwait.keep rfl (fun _ hm => Finset.mem_insert_of_mem hm) (fun m hm => ?_)
    (fun i t ht => ?_) (fun m hm => ?_) (fun c' hc' hl => ?_) fun m hm => ?_
  · change (threadCreate c (w.cpus c) (.alloc n) w.mem).2.nextWait _ = _
    rw [hlinks, Function.update_of_ne (hold m hm)]
  · obtain ⟨m, hm, rfl⟩ := hwait.thread i t ht
    change (threadCreate c (w.cpus c) (.alloc n) w.mem).2.sleepTimer _ = _ ∧
      (_ → (threadCreate c (w.cpus c) (.alloc n) w.mem).2.state _ = _) ∧ _
    rw [htimer, hstate, Function.update_of_ne (hold m hm), Function.update_of_ne (hold m hm)]
    refine ⟨rfl, id, ?_⟩
    rintro ⟨c', hc', hl, hcur''⟩
    exact Or.inl ⟨c', hc', hl, (hcur' c').trans hcur''⟩
  · change (threadCreate c (w.cpus c) (.alloc n) w.mem).2.sleepTimer _ = _ →
      (threadCreate c (w.cpus c) (.alloc n) w.mem).2.state _ = _
    rw [htimer, hstate]
    rcases Finset.mem_insert.mp hm with rfl | hm
    · simp
    · rw [Function.update_of_ne (hold m hm), Function.update_of_ne (hold m hm)]
      exact hwait.timer m hm
  · rw [hcur']
    exact hwait.blocking c' hc' hl
  · change (threadCreate c (w.cpus c) (.alloc n) w.mem).2.state _ = _ →
      (threadCreate c (w.cpus c) (.alloc n) w.mem).2.sleepTimer _ = _ ∨ _
    rw [htimer, hstate]
    rcases Finset.mem_insert.mp hm with rfl | hm
    · simp
    · rw [Function.update_of_ne (hold m hm), Function.update_of_ne (hold m hm)]
      exact hwait.source m hm

/-- What the scheduler does on one CPU keeps the lists if no thread on them is woken and a wait
that it finishes leaves its thread asleep. -/
theorem WaitOk.schedule (hwait : WaitOk w lists yielded) {yielded' : Set ThreadRef} (cpu' : Cpu)
    {h' : Threads} (hlinks : h'.nextWait = w.mem.nextWait) {locked' : ℕ → Bool}
    (hlocked : ∀ c' ≠ c, locked' c' = w.locked c') (hfree : locked' c = false)
    (hstay : ∀ i, ∀ t ∈ lists i, h'.sleepTimer t = w.mem.sleepTimer t ∧
      (w.mem.state t = .sleeping → h'.state t = .sleeping))
    (hcur : w.locked c = true → h'.state (w.cur c) = .sleeping)
    (htimer : ∀ n ∈ w.live, h'.sleepTimer (.alloc n) = true → h'.state (.alloc n) = .sleeping)
    (hsource : ∀ n ∈ w.live, h'.state (.alloc n) = .sleeping →
      h'.sleepTimer (.alloc n) = true ∨ (∃ i, .alloc n ∈ lists i) ∨ .alloc n ∈ yielded') :
    WaitOk { w.setCpu c (cpu', h') with locked := locked' } lists yielded' := by
  refine hwait.keep rfl (fun _ hn => hn) (fun n _ => ?_) (fun i t ht => ?_) htimer
    (fun c' hc' hl => ?_) hsource
  · simp only [World.setCpu, hlinks]
  · refine ⟨(hstay i t ht).1, (hstay i t ht).2, ?_⟩
    rintro ⟨c', hc', hl, rfl⟩
    by_cases heq : c' = c
    · subst heq
      exact Or.inr (hcur hl)
    · refine Or.inl ⟨c', hc', (hlocked c' heq).trans hl, ?_⟩
      simp only [World.cur, World.setCpu, Function.update_of_ne heq]
  · change locked' c' = true at hl
    have hne : c' ≠ c := by
      rintro rfl
      rw [hfree] at hl
      exact absurd hl (by decide)
    simp only [World.cur, World.setCpu, Function.update_of_ne hne]
    exact hwait.blocking c' hc' ((hlocked c' hne).symm.trans hl)

/-- A tick wakes only threads with a timer, and these are on no list. -/
theorem WaitOk.tick (hwait : WaitOk w lists yielded) (hfree : w.locked c = false) {cpu' : Cpu}
    {h' : Threads} (hlinks : h'.nextWait = w.mem.nextWait) (htimers : TimersRun w.mem h') :
    WaitOk (w.setCpu c (cpu', h')) lists yielded := by
  refine hwait.schedule cpu' hlinks (fun _ _ => rfl) hfree (fun i t ht => ?_)
    (fun hl => ?_) (fun n hn htimer => ?_) fun n hn hsleep => ?_
  · rcases htimers t with ⟨hs, ht'⟩ | ⟨-, htimer, -⟩
    · exact ⟨ht', fun h => hs.trans h⟩
    · rw [(hwait.waiting i t ht).1] at htimer
      exact absurd htimer (by decide)
  · rw [hfree] at hl
    exact absurd hl (by decide)
  · rcases htimers (.alloc n) with ⟨hs, ht'⟩ | ⟨-, -, -, hclear⟩
    · rw [hs]
      exact hwait.timer n hn (ht'.symm.trans htimer)
    · rw [hclear] at htimer
      exact absurd htimer (by decide)
  · rcases htimers (.alloc n) with ⟨hs, ht'⟩ | ⟨-, -, hrun, -⟩
    · rw [ht']
      exact hwait.source n hn (hs.symm.trans hsleep)
    · rw [hrun] at hsleep
      simp at hsleep

/-- Marking the current thread as sleeping leaves the other sleeping threads asleep. -/
theorem sleeping_of_mark {h h' : Threads} {cur : ThreadRef}
    (hstate : h'.state = Function.update h.state cur .sleeping) (hs : h.state t = .sleeping) :
    h'.state t = .sleeping := by
  rw [hstate]
  by_cases heq : t = cur
  · rw [heq, Function.update_self]
  · rw [Function.update_of_ne heq, hs]

/-- `sched_yield_locked`, in `sched_yield` or at the end of a wait. -/
theorem WaitOk.mark (hwait : WaitOk w lists yielded) {yielded' : Set ThreadRef} {cpu' : Cpu}
    {h' : Threads} (hlinks : h'.nextWait = w.mem.nextWait)
    (hstate : h'.state = Function.update w.mem.state (w.cur c) .sleeping)
    (htimer : h'.sleepTimer = w.mem.sleepTimer) {locked' : ℕ → Bool}
    (hlocked : ∀ c' ≠ c, locked' c' = w.locked c') (hfree : locked' c = false)
    (hsub : yielded ⊆ yielded') (hcur : (∃ i, w.cur c ∈ lists i) ∨ w.cur c ∈ yielded') :
    WaitOk { w.setCpu c (cpu', h') with locked := locked' } lists yielded' := by
  refine hwait.schedule cpu' hlinks hlocked hfree
    (fun i t _ => ⟨congrFun htimer t, sleeping_of_mark hstate⟩) (fun _ => ?_) (fun n hn hset => ?_)
    fun n hn hsleep => ?_
  · rw [hstate, Function.update_self]
  · rw [htimer] at hset
    exact sleeping_of_mark hstate (hwait.timer n hn hset)
  · by_cases heq : ThreadRef.alloc n = w.cur c
    · rw [heq]
      exact Or.inr hcur
    · rw [hstate, Function.update_of_ne heq] at hsleep
      rw [htimer]
      exact (hwait.source n hn hsleep).imp_right (Or.imp_right fun h => hsub h)

/-- `sched_sleep` sets the timer of a thread that is on no list. -/
theorem WaitOk.sleep (hwait : WaitOk w lists yielded) (hok : WorldOk w rings) (hc : c ∈ w.online)
    (hfree : w.locked c = false) {cpu' : Cpu} {h' : Threads}
    (hlinks : h'.nextWait = w.mem.nextWait)
    (hstate : h'.state = Function.update w.mem.state (w.cur c) .sleeping)
    (htimer : h'.sleepTimer = Function.update w.mem.sleepTimer (w.cur c) true) :
    WaitOk (w.setCpu c (cpu', h')) lists yielded := by
  refine hwait.schedule cpu' hlinks (fun _ _ => rfl) hfree (fun i t ht => ?_)
    (fun _ => ?_) (fun n hn => ?_) fun n hn => ?_
  · have hne : t ≠ w.cur c := by
      rintro rfl
      exact hwait.cur_notMem hok hc hfree i ht
    rw [htimer, hstate, Function.update_of_ne hne, Function.update_of_ne hne]
    exact ⟨rfl, id⟩
  · rw [hstate, Function.update_self]
  all_goals
    rw [htimer, hstate]
    by_cases heq : ThreadRef.alloc n = w.cur c
  · simp [heq]
  · rw [Function.update_of_ne heq, Function.update_of_ne heq]
    exact hwait.timer n hn
  · simp [heq]
  · rw [Function.update_of_ne heq, Function.update_of_ne heq]
    exact hwait.source n hn

/-- The list after a push: the thread is linked behind the others. -/
theorem WaitOk.push_chain (hwait : WaitOk w lists yielded) (i : WaitId) (hnull : t ≠ .null)
    (hnot : ∀ j, t ∉ lists j) :
    let r := (w.listAt i).push w.mem t
    Chain .null r.2.nextWait r.1.head (lists i ++ [t]) ∧ r.1.tail = t ∧
      ∀ j ≠ i, Chain .null r.2.nextWait (w.listAt j).head (lists j) := by
  simp only [ThreadList.push]
  split_ifs with hempty
  · refine ⟨?_, rfl, fun j _ => (hwait.chain j).update_of_notMem (hnot j)⟩
    rw [hwait.nil_of_head hempty, List.nil_append]
    exact chain_cons_iff.mpr ⟨rfl, hnull, by simp⟩
  · have hne : lists i ≠ [] := by
      obtain ⟨rest, hcons, -⟩ := hwait.cons_of_head hempty
      simp [hcons]
    have htail := hwait.tail i hne
    refine ⟨(hwait.chain i).append htail (hnot i) hnull, rfl, fun j hj => ?_⟩
    -- the old tail is on no other list
    have hmem : (w.listAt i).tail ∈ lists i := List.mem_of_getLast? htail
    apply ((hwait.chain j).update_of_notMem _).update_of_notMem (hnot j)
    exact fun hmem' => hj (hwait.unique j i _ hmem' hmem)

/-- Membership in the lists after one of them has got a new last thread. -/
theorem mem_update_append {i j : WaitId} {x : ThreadRef} :
    x ∈ Function.update lists i (lists i ++ [t]) j ↔ x ∈ lists j ∨ (j = i ∧ x = t) := by
  by_cases heq : j = i
  · subst heq
    simp
  · simp [heq]

/-- The first step of a blocking wait puts the current thread at the end of its list. -/
theorem WaitOk.block (hwait : WaitOk w lists yielded) (hok : WorldOk w rings) (hc : c ∈ w.online)
    (hfree : w.locked c = false) (hne : w.cur c ≠ .idle c) (i : WaitId)
    (hmem : w'.mem = ((w.listAt i).push w.mem (w.cur c)).2)
    (hlist : w'.listAt = Function.update w.listAt i ((w.listAt i).push w.mem (w.cur c)).1)
    (hcpus : w'.cpus = w.cpus) (honline : w'.online = w.online) (hlive : w'.live = w.live)
    (hlocked : w'.locked = Function.update w.locked c true) :
    WaitOk w' (Function.update lists i (lists i ++ [w.cur c])) yielded := by
  obtain ⟨n, hn, hcur⟩ := hok.cur_live hc hne
  have hnot := hwait.cur_notMem hok hc hfree
  obtain ⟨hchain, htail, hothers⟩ := hwait.push_chain i (t := w.cur c) (by simp [hcur]) hnot
  have htimer := hwait.cur_timer hok hc hne
  obtain ⟨nextWait, hpush⟩ := push_snd_eq (w.listAt i) w.mem (w.cur c)
  have hstate : w'.mem.state = w.mem.state := by rw [hmem, hpush]
  have htimers : w'.mem.sleepTimer = w.mem.sleepTimer := by rw [hmem, hpush]
  have hcur' : ∀ c', w'.cur c' = w.cur c' := by
    intro c'
    simp only [World.cur, hcpus]
  have hlock : ∀ c', w'.locked c' = true ↔ c' = c ∨ w.locked c' = true := by
    intro c'
    rw [hlocked]
    by_cases heq : c' = c
    · simp [heq]
    · simp [heq]
  have hblock : ∀ x, Blocking w x → Blocking w' x := by
    rintro x ⟨c', hc', hl, hx⟩
    exact ⟨c', honline ▸ hc', (hlock c').mpr (Or.inr hl), (hcur' c').trans hx⟩
  have hnew : Blocking w' (w.cur c) := ⟨c, honline ▸ hc, (hlock c).mpr (Or.inl rfl), hcur' c⟩
  refine ⟨fun j => ?_, fun j hj => ?_, fun j j' x hx hx' => ?_, fun j x hx => ?_, fun j x hx => ?_,
    ?_, fun c' hc' hl => ?_, fun m hm hsleep => ?_⟩
  · rw [hmem, hlist]
    by_cases heq : j = i
    · subst heq
      rw [Function.update_self, Function.update_self]
      exact hchain
    · rw [Function.update_of_ne heq, Function.update_of_ne heq]
      exact hothers j heq
  · rw [hlist]
    by_cases heq : j = i
    · subst heq
      rw [Function.update_self, Function.update_self, htail]
      simp
    · rw [Function.update_of_ne heq] at hj ⊢
      rw [Function.update_of_ne heq]
      exact hwait.tail j hj
  · rcases mem_update_append.mp hx with h₁ | ⟨h₁, heq⟩ <;>
    rcases mem_update_append.mp hx' with h₂ | ⟨h₂, heq'⟩
    · exact hwait.unique j j' x h₁ h₂
    · rw [heq'] at h₁
      exact absurd h₁ (hnot j)
    · rw [heq] at h₂
      exact absurd h₂ (hnot j')
    · exact h₁.trans h₂.symm
  · rw [hlive]
    rcases mem_update_append.mp hx with hx | ⟨-, rfl⟩
    · exact hwait.thread j x hx
    · exact ⟨n, hn, hcur⟩
  · rw [hstate, htimers]
    rcases mem_update_append.mp hx with hx | ⟨-, rfl⟩
    · obtain ⟨h₁, h₂⟩ := hwait.waiting j x hx
      exact ⟨h₁, h₂.imp id (hblock x)⟩
    · exact ⟨htimer, Or.inr hnew⟩
  · rw [hlive, hstate, htimers]
    exact hwait.timer
  · rw [hcur']
    rcases (hlock c').mp hl with rfl | hl
    · exact ⟨i, mem_update_append.mpr (Or.inr ⟨rfl, rfl⟩)⟩
    · obtain ⟨j, hj⟩ := hwait.blocking c' (honline ▸ hc') hl
      exact ⟨j, mem_update_append.mpr (Or.inl hj)⟩
  · rw [hlive] at hm
    rw [hstate] at hsleep
    rw [htimers]
    refine (hwait.source m hm hsleep).imp_right (Or.imp_left ?_)
    rintro ⟨j, hj⟩
    exact ⟨j, mem_update_append.mpr (Or.inl hj)⟩

/-- Membership in the lists after one of them has lost its first thread. -/
theorem WaitOk.mem_update_tail (hwait : WaitOk w lists yielded) {i j : WaitId} {x : ThreadRef}
    (hhead : (w.listAt i).head ≠ .null) :
    x ∈ Function.update lists i (lists i).tail j ↔ x ∈ lists j ∧ x ≠ (w.listAt i).head := by
  obtain ⟨rest, hcons, -⟩ := hwait.cons_of_head hhead
  have hnodup := (hwait.chain i).nodup
  rw [hcons, List.nodup_cons] at hnodup
  by_cases heq : j = i
  · subst heq
    rw [Function.update_self, hcons, List.tail_cons, List.mem_cons]
    constructor
    · intro hx
      refine ⟨Or.inr hx, ?_⟩
      rintro rfl
      exact hnodup.1 hx
    · rintro ⟨hx | hx, hne⟩
      · exact absurd hx hne
      · exact hx
  · rw [Function.update_of_ne heq]
    refine ⟨fun hx => ⟨hx, ?_⟩, And.left⟩
    rintro rfl
    exact heq (hwait.unique j i _ hx (by simp [hcons]))

/-- A signal wakes the first thread of a list, which is asleep since its CPU is not locked. -/
theorem WaitOk.pop (hwait : WaitOk w lists yielded) (hok : WorldOk w rings) (i : WaitId)
    (hhead : (w.listAt i).head ≠ .null) (hfree : w.locked (w.mem.cpuId (w.listAt i).head) = false)
    (hmem : w'.mem = wake w.mem (w.listAt i).head)
    (hlist : w'.listAt = Function.update w.listAt i ((w.listAt i).pop w.mem))
    (hcpus : w'.cpus = w.cpus) (honline : w'.online = w.online) (hlive : w'.live = w.live)
    (hlocked : w'.locked = w.locked) :
    WaitOk w' (Function.update lists i (lists i).tail) yielded := by
  obtain ⟨rest, hcons, hrest⟩ := hwait.cons_of_head hhead
  have hfirst : (w.listAt i).head ∈ lists i := by simp [hcons]
  have hpop : (w.listAt i).pop w.mem = ⟨w.mem.nextWait (w.listAt i).head, (w.listAt i).tail⟩ := by
    simp [ThreadList.pop, hhead]
  have hlinks : w'.mem.nextWait = w.mem.nextWait := by rw [hmem]; rfl
  have htimers : w'.mem.sleepTimer = w.mem.sleepTimer := by rw [hmem]; rfl
  have hstate : ∀ x, x ≠ (w.listAt i).head → w'.mem.state x = w.mem.state x := by
    intro x hx
    rw [hmem]
    exact Function.update_of_ne hx _ _
  have hwoken : w'.mem.state (w.listAt i).head = .running := by
    rw [hmem]
    exact Function.update_self _ _ _
  have hcur' : ∀ c', w'.cur c' = w.cur c' := by
    intro c'
    simp only [World.cur, hcpus]
  refine ⟨fun j => ?_, fun j hj => ?_, fun j j' x hx hx' => ?_, fun j x hx => ?_, fun j x hx => ?_,
    fun m hm htimer => ?_, fun c' hc' hl => ?_, fun m hm hsleep => ?_⟩
  · rw [hlinks, hlist]
    by_cases heq : j = i
    · subst heq
      rw [Function.update_self, Function.update_self, hpop, hcons, List.tail_cons]
      exact hrest
    · rw [Function.update_of_ne heq, Function.update_of_ne heq]
      exact hwait.chain j
  · rw [hlist]
    by_cases heq : j = i
    · subst heq
      have htail := hwait.tail j (by simp [hcons])
      rw [Function.update_self, hcons, List.tail_cons] at hj ⊢
      rw [Function.update_self, hpop]
      rw [hcons, List.getLast?_cons_of_ne_nil hj] at htail
      exact htail
    · rw [Function.update_of_ne heq] at hj ⊢
      rw [Function.update_of_ne heq]
      exact hwait.tail j hj
  · exact hwait.unique j j' x ((hwait.mem_update_tail hhead).mp hx).1
      ((hwait.mem_update_tail hhead).mp hx').1
  · rw [hlive]
    exact hwait.thread j x ((hwait.mem_update_tail hhead).mp hx).1
  · obtain ⟨hx, hne⟩ := (hwait.mem_update_tail hhead).mp hx
    rw [htimers, hstate x hne]
    refine ⟨(hwait.waiting j x hx).1, (hwait.waiting j x hx).2.imp_right ?_⟩
    rintro ⟨c', hc', hl, hcur⟩
    exact ⟨c', honline ▸ hc', hlocked ▸ hl, (hcur' c').trans hcur⟩
  · rw [hlive] at hm
    rw [htimers] at htimer
    have hne : ThreadRef.alloc m ≠ (w.listAt i).head := by
      intro heq
      rw [heq, (hwait.waiting i _ hfirst).1] at htimer
      exact absurd htimer (by decide)
    rw [hstate _ hne]
    exact hwait.timer m hm htimer
  · rw [honline] at hc'
    rw [hlocked] at hl
    obtain ⟨j, hj⟩ := hwait.blocking c' hc' hl
    refine ⟨j, ?_⟩
    rw [hcur', hwait.mem_update_tail hhead]
    refine ⟨hj, fun heq => ?_⟩
    rw [← heq] at hfree
    exact hok.not_blocking hfree ⟨c', hc', hl, rfl⟩
  · rw [hlive] at hm
    have hne : ThreadRef.alloc m ≠ (w.listAt i).head := by
      intro heq
      rw [heq, hwoken] at hsleep
      simp at hsleep
    rw [hstate _ hne] at hsleep
    rw [htimers]
    refine (hwait.source m hm hsleep).imp_right (Or.imp_left ?_)
    rintro ⟨j, hj⟩
    exact ⟨j, (hwait.mem_update_tail hhead).mpr ⟨hj, hne⟩⟩

/-- The lists of a world after a change of one semaphore's list. -/
theorem listAt_updateSema (w : World) (s : ℕ) (tl : ThreadList) :
    World.listAt { w with
      semas := Function.update w.semas s { w.semas s with threads := tl } } =
      Function.update w.listAt (.sema s) tl := by
  funext i
  cases i with
  | sema s' =>
    by_cases heq : s' = s
    · subst heq
      simp [World.listAt]
    · simp [World.listAt, heq]
  | cond k => simp [World.listAt]

/-- The lists of a world after a change of one condition's list. -/
theorem listAt_updateCond (w : World) (k : ℕ) (tl : ThreadList) :
    World.listAt { w with conds := Function.update w.conds k tl } =
      Function.update w.listAt (.cond k) tl := by
  funext i
  cases i with
  | sema s => simp [World.listAt]
  | cond k' =>
    by_cases heq : k' = k
    · subst heq
      simp [World.listAt]
    · simp [World.listAt, heq]

/-- A list that is empty stays empty when its first thread is taken off. -/
theorem WaitOk.update_tail_of_nil (hwait : WaitOk w lists yielded) {i : WaitId}
    (hhead : (w.listAt i).head = .null) : Function.update lists i (lists i).tail = lists := by
  rw [hwait.nil_of_head hhead, List.tail_nil, ← hwait.nil_of_head hhead, Function.update_eq_self]

/-- Every operation but `thread_wakeup` keeps the wait lists in order. -/
theorem WaitOk.step (hwait : WaitOk w lists yielded) (hok : WorldOk w rings) {op : Op}
    (hop : w.Enabled op) (hwake : ∀ t, op ≠ .wakeup t) (hstep : w.step op = some w') :
    WaitOk w' (w.nextLists lists op) (w.nextYielded yielded op) := by
  cases op with
  | initCpu c =>
    cases hstep
    exact hwait.initCpu hok hop
  | create c n =>
    cases hstep
    exact hwait.create hok hop.1 hop.2.2
  | tick c =>
    obtain ⟨cpu', h', htick, -, hmoved, htimers⟩ :=
      (hok.cpu c hop.1).schedTick_spec (hok.length_le hop.1)
    rw [World.step, htick, Option.map_some, Option.some.injEq] at hstep
    subst hstep
    exact hwait.tick hop.2 hmoved.nextWait htimers
  | sleep c ms =>
    obtain ⟨cpu', h', hsleep, -, hmoved, hcase⟩ :=
      (hok.cpu c hop.1).schedSleep_spec ms (hok.length_le hop.1)
    rw [World.step, hsleep, Option.map_some, Option.some.injEq] at hstep
    subst hstep
    rcases hcase with ⟨-, rfl, rfl⟩ | ⟨-, hstate, htimer⟩
    · simp only [World.setCpu, Function.update_eq_self]
      exact hwait
    · exact hwait.sleep hok hop.1 hop.2 hmoved.nextWait hstate htimer
  | yield c =>
    obtain ⟨cpu', h', hyield, -, hmoved, hstate, htimer⟩ :=
      (hok.cpu c hop.1).schedYieldLocked_spec hop.2.2 (hok.length_le hop.1)
    rw [World.step, hyield, Option.map_some, Option.some.injEq] at hstep
    subst hstep
    exact hwait.mark hmoved.nextWait hstate htimer (fun _ _ => rfl) hop.2.1
      (Set.subset_insert _ _) (Or.inr (Set.mem_insert _ _))
  | wakeup t => exact absurd rfl (hwake t)
  | semaWait c s =>
    simp only [World.step] at hstep
    simp only [World.nextLists]
    split_ifs at hstep ⊢ <;> cases hstep
    · exact hwait.addCount s (-1)
    · exact hwait.block hok hop.1 hop.2.1 hop.2.2 (.sema s) rfl (listAt_updateSema w s _) rfl rfl
        rfl rfl
  | condWait c k =>
    cases hstep
    exact hwait.block hok hop.1 hop.2.1 hop.2.2 (.cond k) rfl (listAt_updateCond w k _) rfl rfl
      rfl rfl
  | finishWait c =>
    obtain ⟨cpu', h', hyield, -, hmoved, hstate, htimer⟩ :=
      (hok.cpu c hop.1).schedYieldLocked_spec (hok.locked c hop.1 hop.2) (hok.length_le hop.1)
    rw [World.step, hyield, Option.map_some, Option.some.injEq] at hstep
    subst hstep
    exact hwait.mark hmoved.nextWait hstate htimer (fun _ hne => Function.update_of_ne hne _ _)
      (Function.update_self _ _ _) le_rfl (Or.inl (hwait.blocking c hop.1 hop.2))
  | semaSignal s =>
    simp only [World.step] at hstep
    simp only [World.nextLists]
    split_ifs at hstep with hempty <;> cases hstep
    · rw [hwait.update_tail_of_nil (i := .sema s) hempty]
      exact hwait.addCount s 1
    · exact hwait.pop hok (.sema s) hempty (hop.resolve_left hempty) rfl
        (listAt_updateSema w s _) rfl rfl rfl rfl
  | condSignal k =>
    simp only [World.step] at hstep
    simp only [World.nextLists]
    split_ifs at hstep with hempty <;> cases hstep
    · rw [hwait.update_tail_of_nil (i := .cond k) hempty]
      exact hwait
    · exact hwait.pop hok (.cond k) hempty (hop.resolve_left hempty) rfl
        (listAt_updateCond w k _) rfl rfl rfl rfl

/-- The lists of `sema_init` and `cond_init`, before any thread exists. -/
theorem World.Boot.waitOk (h : w.Boot) (hlists : ∀ i, w.listAt i = ThreadList.init) :
    WaitOk w (fun _ => []) ∅ := by
  obtain ⟨honline, hlive, -, -⟩ := h
  refine ⟨fun i => ?_, fun i hne => absurd rfl hne, ?_, ?_, ?_, ?_, ?_, ?_⟩
  · rw [hlists i]
    exact chain_nil_iff.mpr rfl
  all_goals simp [hlive, honline]

end Lists

section Wakeable

variable {w₀ w w' : World} {rings : ℕ → List ThreadRef} {lists : WaitId → List ThreadRef}
  {yielded : Set ThreadRef} {c : ℕ} {t : ThreadRef}

/-- The invariant lists the threads that are on the wait lists. -/
theorem WaitOk.onList_iff (hwait : WaitOk w lists yielded) {i : WaitId} :
    w.OnList i t ↔ t ∈ lists i := by
  constructor
  · rintro ⟨nodes, hchain, ht⟩
    rwa [hchain.unique (hwait.chain i)] at ht
  · exact fun ht => ⟨lists i, hwait.chain i, ht⟩

/-- Without `sched_yield` every thread that sleeps can be woken. -/
theorem WaitOk.wakeable (hwait : WaitOk w lists ∅) : w.Wakeable := by
  intro n hn hsleep
  rcases hwait.source n hn hsleep with htimer | ⟨i, hi⟩ | hmem
  · exact Or.inr htimer
  · refine Or.inl ⟨i, hwait.onList_iff.mpr hi, fun j hj => ?_⟩
    exact hwait.unique j i _ (hwait.onList_iff.mp hj) hi
  · simp at hmem

/-- A thread that has called `sched_yield` sleeps and nothing will wake it. -/
theorem WaitOk.not_wakeable_of_yield (hwait : WaitOk w lists yielded) (hok : WorldOk w rings)
    (hop : w.Enabled (.yield c)) (hstep : w.step (.yield c) = some w') : ¬ w'.Wakeable := by
  have hwait' := hwait.step hok hop (fun _ h => nomatch h) hstep
  obtain ⟨hc, hfree, hne⟩ := hop
  obtain ⟨cpu', h', hyield, -, -, hstate, htimer⟩ :=
    (hok.cpu c hc).schedYieldLocked_spec hne (hok.length_le hc)
  rw [World.step, hyield, Option.map_some, Option.some.injEq] at hstep
  subst hstep
  obtain ⟨n, hn, hcur⟩ := hok.cur_live hc hne
  intro hwake
  have hsleep : h'.state (.alloc n) = .sleeping := by
    rw [hstate, ← hcur]
    exact Function.update_self _ _ _
  rcases hwake n hn hsleep with ⟨i, hi, -⟩ | hset
  · -- the thread was on no list, and `sched_yield` has put it on none
    have hmem := hwait'.onList_iff.mp hi
    rw [← hcur] at hmem
    exact hwait.cur_notMem hok hc hfree i hmem
  · have hnone := hwait.cur_timer hok hc hne
    change h'.sleepTimer (.alloc n) = true at hset
    rw [htimer, ← hcur, hnone] at hset
    exact absurd hset (by decide)

/-- All wait lists are in order in every state that is reached without `thread_wakeup`. -/
theorem waitOk_of_reaches (h₀ : w₀.Boot) (hlists : ∀ i, w₀.listAt i = ThreadList.init)
    (hrun : Reaches World.step World.Waiting w₀ w) :
    ∃ rings lists yielded, WorldOk w rings ∧ WaitOk w lists yielded := by
  apply hrun.invariant ⟨_, _, _, h₀.worldOk, h₀.waitOk hlists⟩
  rintro w op w' ⟨rings, lists, yielded, hok, hwait⟩ hop hstep
  obtain ⟨w'', rings', hstep', hok'⟩ := hok.step hop.1
  rw [hstep, Option.some.injEq] at hstep'
  exact ⟨rings', _, _, hstep' ▸ hok', hwait.step hok hop.1 hop.2 hstep⟩

/-- The operations other than `thread_wakeup` and `sched_yield`. -/
def World.NoYield (w : World) (op : Op) : Prop := w.Waiting op ∧ ∀ c, op ≠ .yield c

instance (w : World) (op : Op) : Decidable (w.NoYield op) :=
  match op with
  | .yield c => isFalse fun h => h.2 c rfl
  | .initCpu _ | .create _ _ | .tick _ | .sleep _ _ | .wakeup _ | .semaWait _ _ | .condWait _ _
  | .finishWait _ | .semaSignal _ | .condSignal _ =>
    decidable_of_iff (w.Waiting _) ⟨fun h => ⟨h, fun _ h' => nomatch h'⟩, And.left⟩

/-- In every run without `sched_yield` every thread that sleeps is on exactly one wait list or
has a timer. The first `sched_yield` ends that: a step keeps the law if and only if it is no
`sched_yield`. -/
theorem wakeable_iff_noYield (h₀ : w₀.Boot) (hlists : ∀ i, w₀.listAt i = ThreadList.init)
    (hrun : Reaches World.step World.NoYield w₀ w) :
    w.Wakeable ∧ ∀ op w', w.Waiting op → w.step op = some w' →
      (w'.Wakeable ↔ ∀ c, op ≠ .yield c) := by
  have hinv : ∃ rings lists, WorldOk w rings ∧ WaitOk w lists ∅ := by
    apply hrun.invariant ⟨_, _, h₀.worldOk, h₀.waitOk hlists⟩
    rintro w op w' ⟨rings, lists, hok, hwait⟩ ⟨⟨hop, hwake⟩, hyield⟩ hstep
    obtain ⟨w'', rings', hstep', hok'⟩ := hok.step hop
    rw [hstep, Option.some.injEq] at hstep'
    have hwait' := hwait.step hok hop hwake hstep
    rw [World.nextYielded_of_ne hyield] at hwait'
    exact ⟨rings', _, hstep' ▸ hok', hwait'⟩
  obtain ⟨rings, lists, hok, hwait⟩ := hinv
  refine ⟨hwait.wakeable, fun op w' hop hstep => ⟨fun hwake c => ?_, fun hyield => ?_⟩⟩
  · rintro rfl
    exact hwait.not_wakeable_of_yield hok hop.1 hstep hwake
  · have hwait' := hwait.step hok hop.1 hop.2 hstep
    rw [World.nextYielded_of_ne hyield] at hwait'
    exact hwait'.wakeable

/-- One CPU, one thread, and enough ticks for the quantum of the idle thread to run out. -/
def threadRuns : List Op := [Op.initCpu 0, .create 0 5] ++ List.replicate 8 (.tick 0)

theorem World.blank_listAt (i : WaitId) : World.blank.listAt i = ThreadList.init := by
  cases i with
  | sema s => rfl
  | cond k => rfl

/-- After a semaphore wait the thread sleeps, and the semaphore can wake it. -/
theorem wakeable_iff_noYield_semaWait :
    ∃ w : World, runOps World.step World.NoYield World.blank
        (threadRuns ++ [.semaWait 0 0, .finishWait 0]) = some w ∧
      w.mem.state (.alloc 5) = .sleeping ∧ w.Wakeable := by
  have hrun : ((runOps World.step World.NoYield World.blank
      (threadRuns ++ [.semaWait 0 0, .finishWait 0])).map fun w => w.mem.state (.alloc 5)) =
      some .sleeping := by decide +kernel
  obtain ⟨w, hw, hsleep⟩ := Option.map_eq_some_iff.mp hrun
  exact ⟨w, hw, hsleep,
    (wakeable_iff_noYield World.blank_boot World.blank_listAt (Reaches.of_runOps hw)).1⟩

/-- The thread that calls `sched_yield` sleeps for ever. -/
theorem yield_not_wakeable :
    ¬ ∀ w₀ w : World, w₀.Boot → (∀ i, w₀.listAt i = ThreadList.init) →
      Reaches World.step World.Waiting w₀ w → w.Wakeable := by
  intro hclaim
  have hrun : ((runOps World.step World.Waiting World.blank threadRuns).map fun w =>
      decide (w.Enabled (.yield 0))) = some true := by decide +kernel
  obtain ⟨w, hw, hyield⟩ := Option.map_eq_some_iff.mp hrun
  have hop : w.Enabled (.yield 0) := of_decide_eq_true hyield
  have hreach := Reaches.of_runOps hw
  obtain ⟨rings, lists, yielded, hok, hwait⟩ :=
    waitOk_of_reaches World.blank_boot World.blank_listAt hreach
  obtain ⟨w', -, hstep, -⟩ := hok.step hop
  exact hwait.not_wakeable_of_yield hok hop hstep
    (hclaim _ w' World.blank_boot World.blank_listAt
      (hreach.tail ⟨hop, fun _ h => nomatch h⟩ hstep))

end Wakeable

end Smor.Sched
