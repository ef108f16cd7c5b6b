import Smor.Lib.Runs
import Smor.Sched.Quanta
import Mathlib.Data.Finset.Image

/-!
# CPUs, threads, and wait lists

The operations of all CPUs interleave. Each of them runs under the lock of the CPU whose
threads it changes and is one step, except a blocking wait: the thread is put on the wait
list under the lock of its CPU, the lock of the list is released, and only then is the
thread marked as sleeping. In between the CPU stays locked, so that nobody else
gets at its threads. The invariant is `CpuOk` for every CPU, for rings that share no thread.
-/

namespace Smor.Sched

open Smor.Lib

/-- `struct semaphore_t`. -/
structure Semaphore where
  threads : ThreadList
  count : ℤ

/-- `sema_init`. -/
def semaInit (count : ℤ) : Semaphore := ⟨ThreadList.init, count⟩

/-- The threads, the CPUs, and the objects that threads wait for. -/
structure World where
  mem : Threads
  cpus : ℕ → Cpu
  /-- The CPUs for which `sched_init_cpu` has run. -/
  online : Finset ℕ
  /-- The thread addresses that `thread_alloc` has returned; they are never freed. -/
  live : Finset ℕ
  /-- The CPUs whose lock is held between the two steps of a blocking wait. -/
  locked : ℕ → Bool
  semas : ℕ → Semaphore
  conds : ℕ → ThreadList

/-- The operations. Those of threads are given the CPU that runs the thread. -/
inductive Op
  /-- `sched_init_cpu`. -/
  | initCpu (c : ℕ)
  /-- `thread_create` for the CPU `c`, at a new address. -/
  | create (c n : ℕ)
  /-- `timer_irq_handler`. -/
  | tick (c : ℕ)
  /-- `sched_sleep`. -/
  | sleep (c ms : ℕ)
  /-- `sched_yield`. -/
  | yield (c : ℕ)
  /-- `thread_wakeup`. -/
  | wakeup (t : ThreadRef)
  /-- `sema_wait` up to the release of the semaphore's lock. -/
  | semaWait (c s : ℕ)
  /-- `cond_wait` up to the release of the caller's lock. -/
  | condWait (c k : ℕ)
  /-- The rest of a blocking wait: `sched_yield_locked` and the release of the CPU. -/
  | finishWait (c : ℕ)
  /-- `sema_signal`. -/
  | semaSignal (s : ℕ)
  /-- `cond_signal`. -/
  | condSignal (k : ℕ)
  deriving DecidableEq

namespace World

/-- A number of rounds that suffices for every loop over a ring. -/
def rounds (w : World) : ℕ := w.live.card + 1

/-- The current thread of a CPU. -/
def cur (w : World) (c : ℕ) : ThreadRef := (w.cpus c).curThread

/-- The result of an operation of the scheduler on one CPU. -/
def setCpu (w : World) (c : ℕ) (r : Cpu × Threads) : World :=
  { w with
    cpus := Function.update w.cpus c r.1
    mem := r.2 }

/-- A blocking wait puts the current thread on the list of a semaphore. -/
def blockSema (w : World) (c s : ℕ) : World :=
  let r := (w.semas s).threads.push w.mem (w.cur c)
  { w with
    semas := Function.update w.semas s { w.semas s with threads := r.1 }
    mem := r.2
    locked := Function.update w.locked c true }

/-- A blocking wait puts the current thread on the list of a condition. -/
def blockCond (w : World) (c k : ℕ) : World :=
  let r := (w.conds k).push w.mem (w.cur c)
  { w with
    conds := Function.update w.conds k r.1
    mem := r.2
    locked := Function.update w.locked c true }

/-- The change of a semaphore's count. -/
def addCount (w : World) (s : ℕ) (d : ℤ) : World :=
  { w with
    semas := Function.update w.semas s { w.semas s with count := i32 ((w.semas s).count + d) } }

/-- A signal hands its permit to the first thread on the list of a semaphore. -/
def popSema (w : World) (s : ℕ) : World :=
  { w with
    semas := Function.update w.semas s
      { w.semas s with threads := (w.semas s).threads.pop w.mem }
    mem := wake w.mem (w.semas s).threads.head }

/-- A signal wakes the first thread on the list of a condition. -/
def popCond (w : World) (k : ℕ) : World :=
  { w with
    conds := Function.update w.conds k ((w.conds k).pop w.mem)
    mem := wake w.mem (w.conds k).head }

/-- One operation. -/
def step (w : World) : Op → Option World
  | .initCpu c =>
    some { w.setCpu c (schedInitCpu c (w.cpus c) w.mem) with online := insert c w.online }
  | .create c n =>
    some { w.setCpu c (threadCreate c (w.cpus c) (.alloc n) w.mem) with live := insert n w.live }
  | .tick c => (schedTick w.rounds (w.cpus c) w.mem).map (w.setCpu c)
  | .sleep c ms => (schedSleep w.rounds (w.cpus c) ms w.mem).map (w.setCpu c)
  | .yield c => (schedYieldLocked w.rounds (w.cpus c) w.mem).map (w.setCpu c)
  | .wakeup t => some { w with mem := wake w.mem t }
  | .semaWait c s =>
    if 0 < (w.semas s).count then some (w.addCount s (-1)) else some (w.blockSema c s)
  | .condWait c k => some (w.blockCond c k)
  | .finishWait c =>
    (schedYieldLocked w.rounds (w.cpus c) w.mem).map fun r =>
      { w.setCpu c r with locked := Function.update w.locked c false }
  | .semaSignal s =>
    if (w.semas s).threads.head = .null then some (w.addCount s 1) else some (w.popSema s)
  | .condSignal k =>
    if (w.conds k).head = .null then some w else some (w.popCond k)

/-- When an operation can happen: the CPU is there, its lock is free unless the operation is
the rest of a wait, and the idle thread does not block. A signal to a waiting thread
needs the lock of that thread's CPU. -/
def Enabled (w : World) : Op → Prop
  | .initCpu c => c ∉ w.online
  | .create c n => c ∈ w.online ∧ w.locked c = false ∧ n ∉ w.live
  | .tick c => c ∈ w.online ∧ w.locked c = false
  | .sleep c _ => c ∈ w.online ∧ w.locked c = false
  | .yield c => c ∈ w.online ∧ w.locked c = false ∧ w.cur c ≠ .idle c
  | .wakeup t => w.locked (w.mem.cpuId t) = false
  | .semaWait c _ => c ∈ w.online ∧ w.locked c = false ∧ w.cur c ≠ .idle c
  | .condWait c _ => c ∈ w.online ∧ w.locked c = false ∧ w.cur c ≠ .idle c
  | .finishWait c => c ∈ w.online ∧ w.locked c = true
  | .semaSignal s => (w.semas s).threads.head = .null ∨
      w.locked (w.mem.cpuId (w.semas s).threads.head) = false
  | .condSignal k => (w.conds k).head = .null ∨ w.locked (w.mem.cpuId (w.conds k).head) = false

instance (w : World) (op : Op) : Decidable (w.Enabled op) :=
  match op with
  | .initCpu _ => inferInstanceAs (Decidable (_ ∉ _))
  | .create _ _ | .yield _ | .semaWait _ _ | .condWait _ _ =>
    inferInstanceAs (Decidable (_ ∧ _ ∧ _))
  | .tick _ | .sleep _ _ | .finishWait _ => inferInstanceAs (Decidable (_ ∧ _))
  | .wakeup _ => inferInstanceAs (Decidable (_ = _))
  | .semaSignal _ | .condSignal _ => inferInstanceAs (Decidable (_ ∨ _))

/-- The call of `sched_next` in an operation: the CPU, and the threads at the call. -/
def nextCall (w : World) : Op → Option (ℕ × Threads)
  | .tick c => (tickBegin w.rounds (w.cpus c) w.mem).bind fun h =>
      if 0 < h.cnt (w.cur c) then none else some (c, endQuantum (w.cpus c) h)
  | .sleep c ms =>
    if w.cur c ≠ (w.cpus c).threads then some (c, startTimer (w.cpus c) ms w.mem) else none
  | .yield c | .finishWait c => some (c, markSleeping (w.cpus c) w.mem)
  | .initCpu _ | .create _ _ | .wakeup _ | .semaWait _ _ | .condWait _ _ | .semaSignal _
  | .condSignal _ => none

/-- Memory before any CPU is up. -/
def Boot (w : World) : Prop :=
  w.online = ∅ ∧ w.live = ∅ ∧ (∀ c, (w.cpus c).threads = .null) ∧ (∀ c, w.locked c = false)

end World

/-- Every CPU is in order, and every thread is in the ring of its own CPU. -/
structure WorldOk (w : World) (rings : ℕ → List ThreadRef) : Prop where
  cpu : ∀ c ∈ w.online, CpuOk w.mem c (w.cpus c) (rings c)
  offline : ∀ c, c ∉ w.online → (w.cpus c).threads = .null ∧ w.locked c = false
  members : ∀ c ∈ w.online, ∀ t ∈ rings c, t = .idle c ∨ ∃ n ∈ w.live, t = .alloc n
  home : ∀ n ∈ w.live, ∃ c ∈ w.online, .alloc n ∈ rings c
  cpuId : ∀ c ∈ w.online, ∀ t ∈ rings c, w.mem.cpuId t = c
  /-- A CPU is locked only for a wait of a thread other than the idle thread. -/
  locked : ∀ c ∈ w.online, w.locked c = true → w.cur c ≠ .idle c

/-- What the CPUs' rings consist of: the idle thread of the CPU and threads that have been created,
all of them marked with the CPU. -/
structure RingMembers (online live : Finset ℕ) (cpuId : ThreadRef → ℕ)
    (rings : ℕ → List ThreadRef) : Prop where
  kind : ∀ c ∈ online, ∀ t ∈ rings c, t = .idle c ∨ ∃ n ∈ live, t = .alloc n
  cpuId : ∀ c ∈ online, ∀ t ∈ rings c, cpuId t = c

namespace RingMembers

variable {online live : Finset ℕ} {cpuId : ThreadRef → ℕ} {rings : ℕ → List ThreadRef}
  {c c' n : ℕ} {t : ThreadRef}

/-- A thread is in the ring of one CPU only. -/
theorem eq_of_mem (h : RingMembers online live cpuId rings) (hc : c ∈ online) (hc' : c' ∈ online)
    (ht : t ∈ rings c) (ht' : t ∈ rings c') : c = c' :=
  (h.cpuId c hc t ht).symm.trans (h.cpuId c' hc' t ht')

/-- A new thread is on no ring. -/
theorem alloc_notMem (h : RingMembers online live cpuId rings) (hc : c ∈ online)
    (hn : n ∉ live) : ThreadRef.alloc n ∉ rings c := by
  intro hmem
  rcases h.kind c hc _ hmem with heq | ⟨m, hm, heq⟩
  · simp at heq
  · simp only [ThreadRef.alloc.injEq] at heq
    exact hn (heq ▸ hm)

/-- Neither is the idle thread of a CPU that has not been brought up. -/
theorem ne_idle (h : RingMembers online live cpuId rings) (hc : c ∉ online) (hc' : c' ∈ online)
    (ht : t ∈ rings c') : t ≠ .idle c := by
  rintro rfl
  rcases h.kind c' hc' _ ht with heq | ⟨m, -, heq⟩
  · simp only [ThreadRef.idle.injEq] at heq
    exact hc (heq ▸ hc')
  · simp at heq

/-- A new thread behind the others of its ring. -/
theorem create (h : RingMembers online live cpuId rings) (hc : c ∈ online) (hn : n ∉ live) :
    RingMembers online (insert n live) (Function.update cpuId (.alloc n) c)
      (Function.update rings c (rings c ++ [.alloc n])) := by
  constructor
  · intro c' hc' t ht
    by_cases heq : c' = c
    · subst heq
      rw [Function.update_self] at ht
      rcases List.mem_append.mp ht with ht | ht
      · rcases h.kind c' hc t ht with rfl | ⟨m, hm, rfl⟩
        · exact Or.inl rfl
        · exact Or.inr ⟨m, Finset.mem_insert_of_mem hm, rfl⟩
      · exact Or.inr ⟨n, Finset.mem_insert_self _ _, List.mem_singleton.mp ht⟩
    · rw [Function.update_of_ne heq] at ht
      rcases h.kind c' hc' t ht with rfl | ⟨m, hm, rfl⟩
      · exact Or.inl rfl
      · exact Or.inr ⟨m, Finset.mem_insert_of_mem hm, rfl⟩
  · intro c' hc' t ht
    by_cases heq : c' = c
    · subst heq
      rw [Function.update_self] at ht
      rcases List.mem_append.mp ht with ht | ht
      · have hne : t ≠ .alloc n := fun heq => h.alloc_notMem hc hn (heq ▸ ht)
        rw [Function.update_of_ne hne]
        exact h.cpuId c' hc t ht
      · rw [List.mem_singleton.mp ht, Function.update_self]
    · rw [Function.update_of_ne heq] at ht
      have hne : t ≠ .alloc n := fun heq => h.alloc_notMem hc' hn (heq ▸ ht)
      rw [Function.update_of_ne hne]
      exact h.cpuId c' hc' t ht

/-- The idle thread of a CPU that is brought up. -/
theorem initCpu (h : RingMembers online live cpuId rings) (hc : c ∉ online) :
    RingMembers (insert c online) live (Function.update cpuId (.idle c) c)
      (Function.update rings c [.idle c]) := by
  have hmem : ∀ c', c' ≠ c → c' ∈ insert c online → c' ∈ online := fun c' hne h =>
    (Finset.mem_insert.mp h).resolve_left hne
  constructor
  · intro c' hc' t ht
    by_cases heq : c' = c
    · subst heq
      rw [Function.update_self] at ht
      exact Or.inl (List.mem_singleton.mp ht)
    · rw [Function.update_of_ne heq] at ht
      exact h.kind c' (hmem c' heq hc') t ht
  · intro c' hc' t ht
    by_cases heq : c' = c
    · subst heq
      rw [Function.update_self] at ht
      rw [List.mem_singleton.mp ht, Function.update_self]
    · rw [Function.update_of_ne heq] at ht
      have hc'' := hmem c' heq hc'
      rw [Function.update_of_ne (h.ne_idle hc hc'' ht)]
      exact h.cpuId c' hc'' t ht

end RingMembers

section Preservation

variable {w w' : World} {rings : ℕ → List ThreadRef} {c n : ℕ}

theorem WorldOk.ringMembers (hok : WorldOk w rings) :
    RingMembers w.online w.live w.mem.cpuId rings := ⟨hok.members, hok.cpuId⟩

/-- A CPU stays in order if its threads keep their links and quanta and none of them falls
asleep. -/
theorem CpuOk.congr {h h' : Threads} {cpu : Cpu} {ring : List ThreadRef} (hok : CpuOk h c cpu ring)
    (hnext : ∀ x ∈ ring, h'.next x = h.next x) (hprev : ∀ x ∈ ring, h'.prev x = h.prev x)
    (hstate : ∀ x ∈ ring, h.state x = .running → h'.state x = .running)
    (hcnt : ∀ x ∈ ring, h'.cnt x = h.cnt x) (hpri : ∀ x ∈ ring, h'.pri x = h.pri x) :
    CpuOk h' c cpu ring := by
  have hidle := hok.circular.head_mem
  refine ⟨hok.head, hok.circular.congr hnext hprev, hstate _ hidle hok.idle_running, fun hne => ?_,
    hok.cur_mem, hstate _ hok.cur_mem hok.cur_running, fun t ht hne => ?_, fun t ht hne => ?_,
    fun t ht hne => ?_⟩
  · rw [hcnt _ hidle]
    exact hok.idle_spent hne
  · rw [hpri t ht]
    exact hok.pri t ht hne
  · rw [hcnt t ht]
    exact hok.cnt_nonneg t ht hne
  · rw [hcnt t ht, hpri t ht]
    exact hok.cnt_lt t ht hne

/-- A thread is in the ring of one CPU only. -/
theorem WorldOk.notMem_of_ne (hok : WorldOk w rings) {c c' : ℕ} (hc : c ∈ w.online)
    (hc' : c' ∈ w.online) (hne : c' ≠ c) {t : ThreadRef} (ht : t ∈ rings c') : t ∉ rings c := by
  intro hmem
  exact hne ((hok.cpuId c' hc' t ht).symm.trans (hok.cpuId c hc t hmem))

/-- A ring of existing threads is not longer than the bound of the loops. -/
theorem World.length_le_rounds {ring : List ThreadRef} (hnodup : ring.Nodup)
    (hmembers : ∀ t ∈ ring, t = .idle c ∨ ∃ n ∈ w.live, t = .alloc n) :
    ring.length ≤ w.rounds := by
  have hsub : ring.toFinset ⊆ insert (.idle c) (w.live.image ThreadRef.alloc) := by
    intro t ht
    rcases hmembers t (List.mem_toFinset.mp ht) with rfl | ⟨n, hn, rfl⟩
    · exact Finset.mem_insert_self _ _
    · exact Finset.mem_insert_of_mem (Finset.mem_image_of_mem _ hn)
  calc ring.length = ring.toFinset.card := (List.toFinset_card_of_nodup hnodup).symm
    _ ≤ (insert (ThreadRef.idle c) (w.live.image ThreadRef.alloc)).card := Finset.card_le_card hsub
    _ ≤ (w.live.image ThreadRef.alloc).card + 1 := Finset.card_insert_le _ _
    _ ≤ w.rounds := Nat.add_le_add_right Finset.card_image_le 1

theorem WorldOk.length_le (hok : WorldOk w rings) (hc : c ∈ w.online) :
    (rings c).length ≤ w.rounds :=
  World.length_le_rounds (hok.cpu c hc).circular.nodup (hok.members c hc)

/-- An operation of the scheduler on one CPU keeps all CPUs in order. -/
theorem WorldOk.setCpu (hok : WorldOk w rings) (hc : c ∈ w.online) {cpu' : Cpu} {h' : Threads}
    (hcpu : CpuOk h' c cpu' (rings c)) (hmoved : Moved (rings c) w.mem h') {locked' : ℕ → Bool}
    (hlocked : ∀ c' ≠ c, locked' c' = w.locked c') (hfree : locked' c = false) :
    WorldOk { w.setCpu c (cpu', h') with locked := locked' } rings := by
  refine ⟨fun c' hc' => ?_, fun c' hc' => ?_, hok.members, hok.home, fun c' hc' t ht => ?_,
    fun c' hc' hlock => ?_⟩
  · by_cases heq : c' = c
    · subst heq
      simpa [World.setCpu] using hcpu
    · have hout : ∀ x ∈ rings c', x ∉ rings c := fun x hx => hok.notMem_of_ne hc hc' heq hx
      simp only [World.setCpu, Function.update_of_ne heq]
      apply (hok.cpu c' hc').congr
      · exact fun x _ => congrFun hmoved.next x
      · exact fun x _ => congrFun hmoved.prev x
      · exact fun x hx hrun => (hmoved.outside x (hout x hx)).1.trans hrun
      · exact fun x hx => (hmoved.outside x (hout x hx)).2.2
      · exact fun x _ => congrFun hmoved.pri x
  · have hne : c' ≠ c := by
      rintro rfl
      exact hc' hc
    simp only [World.setCpu, Function.update_of_ne hne, hlocked c' hne]
    exact hok.offline c' hc'
  · exact (congrFun hmoved.cpuId t).trans (hok.cpuId c' hc' t ht)
  · change locked' c' = true at hlock
    have hne : c' ≠ c := by
      rintro rfl
      rw [hfree] at hlock
      exact absurd hlock (by decide)
    simp only [World.cur, World.setCpu, Function.update_of_ne hne]
    rw [hlocked c' hne] at hlock
    exact hok.locked c' hc' hlock

/-- Waking threads and writing wait lists keeps all CPUs in order. -/
theorem WorldOk.setMem (hok : WorldOk w rings) (hnext : w'.mem.next = w.mem.next)
    (hprev : w'.mem.prev = w.mem.prev) (hcpuId : w'.mem.cpuId = w.mem.cpuId)
    (hpri : w'.mem.pri = w.mem.pri) (hcnt : w'.mem.cnt = w.mem.cnt)
    (hstate : ∀ x, w.mem.state x = .running → w'.mem.state x = .running)
    (hcpus : w'.cpus = w.cpus) (honline : w'.online = w.online) (hlive : w'.live = w.live)
    (hoff : ∀ c, c ∉ w.online → w'.locked c = false)
    (hlock : ∀ c ∈ w.online, w'.locked c = true → w.cur c ≠ .idle c) : WorldOk w' rings := by
  refine ⟨fun c hc => ?_, fun c hc => ?_, fun c hc => ?_, ?_, fun c hc t ht => ?_,
    fun c hc hl => ?_⟩
  · rw [hcpus]
    rw [honline] at hc
    refine (hok.cpu c hc).congr ?_ ?_ (fun x _ => hstate x) ?_ ?_ <;> intro x _
    · rw [hnext]
    · rw [hprev]
    · rw [hcnt]
    · rw [hpri]
  · rw [honline] at hc
    rw [hcpus]
    exact ⟨(hok.offline c hc).1, hoff c hc⟩
  · rw [honline] at hc
    rw [hlive]
    exact hok.members c hc
  · rw [hlive, honline]
    exact hok.home
  · rw [honline] at hc
    rw [hcpuId]
    exact hok.cpuId c hc t ht
  · rw [honline] at hc
    simp only [World.cur, hcpus]
    exact hlock c hc hl

/-- A list push changes only links of wait lists. -/
theorem push_snd_eq (tl : ThreadList) (h : Threads) (t : ThreadRef) :
    ∃ nextWait, (tl.push h t).2 = { h with nextWait := nextWait } := by
  unfold ThreadList.push
  split_ifs
  · exact ⟨_, rfl⟩
  · exact ⟨_, rfl⟩

theorem wake_state (h : Threads) (t x : ThreadRef) (hx : h.state x = .running) :
    (wake h t).state x = .running := by
  unfold wake
  by_cases heq : x = t
  · simp [heq]
  · simp [heq, hx]

/-- `thread_create` appends the new thread to the ring. -/
theorem threadCreate_ring {h : Threads} {cpu : Cpu} {ring : List ThreadRef} {t : ThreadRef}
    (hhead : cpu.threads = .idle c) (hring : Ring h.next h.prev (.idle c) ring) (ht : t ∉ ring) :
    (threadCreate c cpu t h).1.threads = .idle c ∧
    Ring (threadCreate c cpu t h).2.next (threadCreate c cpu t h).2.prev (.idle c)
      (ring ++ [t]) := by
  have hold : ∀ x ∈ ring, x ≠ t := by
    rintro x hx rfl
    exact ht hx
  have hinit : Ring (initThread h t (u32 (cpu.idCnt + 1)) c).next
      (initThread h t (u32 (cpu.idCnt + 1)) c).prev (.idle c) ring :=
    hring.congr (fun x hx => Function.update_of_ne (hold x hx) _ _)
      fun x hx => Function.update_of_ne (hold x hx) _ _
  simp only [threadCreate, queuePushBack, hhead, if_neg (show ThreadRef.idle c ≠ .null by simp)]
  exact ⟨trivial, hinit.pushBack ht⟩

/-- `thread_create` keeps the CPU in order. -/
theorem CpuOk.threadCreate_spec {h : Threads} {cpu : Cpu} {ring : List ThreadRef} {t : ThreadRef}
    (hok : CpuOk h c cpu ring) (ht : t ∉ ring) :
    CpuOk (threadCreate c cpu t h).2 c (threadCreate c cpu t h).1 (ring ++ [t]) := by
  have hidle : t ≠ .idle c := fun heq => ht (heq ▸ hok.circular.head_mem)
  have hold : ∀ x ∈ ring, x ≠ t := by
    rintro x hx rfl
    exact ht hx
  have hring := (threadCreate_ring hok.head hok.circular ht).2
  simp only [threadCreate, queuePushBack, hok.head,
    if_neg (show ThreadRef.idle c ≠ .null by simp)] at hring ⊢
  refine ⟨rfl, hring, ?_, fun hne => ?_, List.mem_append_left _ hok.cur_mem, ?_,
    fun x hx hne => ?_, fun x hx hne => ?_, fun x hx hne => ?_⟩
  · simp only [initThread, Function.update_of_ne (Ne.symm hidle)]
    exact hok.idle_running
  · simp only [initThread, Function.update_of_ne (Ne.symm hidle)]
    exact hok.idle_spent hne
  · simp only [initThread, Function.update_of_ne (hold _ hok.cur_mem)]
    exact hok.cur_running
  all_goals
    simp only [initThread]
    rcases List.mem_append.mp hx with hx | hx
  · simp only [Function.update_of_ne (hold x hx)]
    exact hok.pri x hx hne
  · rw [List.mem_singleton.mp hx, Function.update_self]
  · simp only [Function.update_of_ne (hold x hx)]
    exact hok.cnt_nonneg x hx hne
  · rw [List.mem_singleton.mp hx, Function.update_self]
    decide
  · simp only [Function.update_of_ne (hold x hx)]
    exact hok.cnt_lt x hx hne
  · rw [List.mem_singleton.mp hx, Function.update_self, Function.update_self]
    decide

/-- What `thread_create` leaves as it is: the threads that are neither new nor on the ring. -/
theorem threadCreate_outside {h : Threads} {cpu : Cpu} {ring : List ThreadRef} {t x : ThreadRef}
    (hhead : cpu.threads = .idle c) (hring : Ring h.next h.prev (.idle c) ring) (ht : t ∉ ring)
    (hx : x ∉ ring) (hxt : x ≠ t) :
    (threadCreate c cpu t h).2.next x = h.next x ∧
      (threadCreate c cpu t h).2.prev x = h.prev x := by
  have hidle : x ≠ .idle c := fun heq => hx (heq ▸ hring.head_mem)
  have hlast : x ≠ h.prev (.idle c) := by
    obtain ⟨init, hring, -⟩ := hring.exists_last
    rintro rfl
    exact hx (by rw [hring]; simp)
  simp only [threadCreate, queuePushBack, hhead, if_neg (show ThreadRef.idle c ≠ .null by simp)]
  have hne : ThreadRef.idle c ≠ t := fun heq => ht (heq ▸ hring.head_mem)
  simp only [initThread, Function.update_of_ne hne]
  constructor
  · rw [Function.update_of_ne hlast, Function.update_of_ne hxt, Function.update_of_ne hxt]
  · rw [Function.update_of_ne hidle, Function.update_of_ne hxt, Function.update_of_ne hxt]

/-- The fields of the other threads after `thread_create`. -/
theorem threadCreate_fields {h : Threads} {cpu : Cpu} {t : ThreadRef}
    (hhead : cpu.threads ≠ .null) :
    (threadCreate c cpu t h).2.state = Function.update h.state t .running ∧
    (threadCreate c cpu t h).2.sleepTimer = Function.update h.sleepTimer t false ∧
    (threadCreate c cpu t h).2.cnt = Function.update h.cnt t threadDefaultPri ∧
    (threadCreate c cpu t h).2.pri = Function.update h.pri t threadDefaultPri ∧
    (threadCreate c cpu t h).2.cpuId = Function.update h.cpuId t c ∧
    (threadCreate c cpu t h).2.nextWait = Function.update h.nextWait t .null ∧
    (threadCreate c cpu t h).1.curThread = cpu.curThread := by
  simp only [threadCreate, queuePushBack, if_neg hhead]
  refine ⟨rfl, rfl, rfl, rfl, rfl, rfl, ?_⟩
  trivial

/-- A new thread is on no ring. -/
theorem WorldOk.alloc_notMem (hok : WorldOk w rings) (hc : c ∈ w.online) (hn : n ∉ w.live) :
    ThreadRef.alloc n ∉ rings c := hok.ringMembers.alloc_notMem hc hn

/-- `thread_create` keeps all CPUs in order. -/
theorem WorldOk.create (hok : WorldOk w rings) (hc : c ∈ w.online) (hn : n ∉ w.live) :
    WorldOk { w.setCpu c (threadCreate c (w.cpus c) (.alloc n) w.mem) with live := insert n w.live }
      (Function.update rings c (rings c ++ [.alloc n])) := by
  have hcpu := hok.cpu c hc
  have hnew := hok.alloc_notMem hc hn
  have hhead : (w.cpus c).threads ≠ .null := by
    rw [hcpu.head]
    simp
  obtain ⟨hstate, -, hcnt, hpri, hcpuId, -, hcur⟩ :=
    threadCreate_fields (c := c) (h := w.mem) (t := .alloc n) hhead
  have hmembers := hok.ringMembers.create hc hn
  rw [← hcpuId] at hmembers
  refine ⟨fun c' hc' => ?_, fun c' hc' => ?_, hmembers.kind, fun m hm => ?_, hmembers.cpuId,
    fun c' hc' hl => ?_⟩
  · by_cases heq : c' = c
    · subst heq
      simpa [World.setCpu] using hcpu.threadCreate_spec hnew
    · simp only [World.setCpu, Function.update_of_ne heq]
      have hout : ∀ x ∈ rings c', x ∉ rings c := fun x hx => hok.notMem_of_ne hc hc' heq hx
      have hxt : ∀ x ∈ rings c', x ≠ .alloc n := by
        rintro x hx rfl
        exact hok.alloc_notMem hc' hn hx
      apply (hok.cpu c' hc').congr
      · intro x hx
        exact (threadCreate_outside hcpu.head hcpu.circular hnew (hout x hx) (hxt x hx)).1
      · intro x hx
        exact (threadCreate_outside hcpu.head hcpu.circular hnew (hout x hx) (hxt x hx)).2
      · intro x hx hrun
        rw [hstate, Function.update_of_ne (hxt x hx), hrun]
      · intro x hx
        rw [hcnt, Function.update_of_ne (hxt x hx)]
      · intro x hx
        rw [hpri, Function.update_of_ne (hxt x hx)]
  · have hne : c' ≠ c := by
      rintro rfl
      exact hc' hc
    simp only [World.setCpu, Function.update_of_ne hne]
    exact hok.offline c' hc'
  · rcases Finset.mem_insert.mp hm with rfl | hm
    · exact ⟨c, hc, by rw [Function.update_self]; simp⟩
    · obtain ⟨c', hc', hmem⟩ := hok.home m hm
      refine ⟨c', hc', ?_⟩
      by_cases heq : c' = c
      · subst heq
        rw [Function.update_self]
        exact List.mem_append_left _ hmem
      · rw [Function.update_of_ne heq]
        exact hmem
  · change w.locked c' = true at hl
    have hold := hok.locked c' hc' hl
    by_cases heq : c' = c
    · subst heq
      simp only [World.cur, World.setCpu, Function.update_self, hcur]
      exact hold
    · simp only [World.cur, World.setCpu, Function.update_of_ne heq]
      exact hold

/-- `sched_init_cpu` brings a CPU up with its idle thread as the only thread. -/
theorem WorldOk.initCpu (hok : WorldOk w rings) (hc : c ∉ w.online) :
    WorldOk { w.setCpu c (schedInitCpu c (w.cpus c) w.mem) with online := insert c w.online }
      (Function.update rings c [.idle c]) := by
  obtain ⟨hnull, hunlocked⟩ := hok.offline c hc
  have hmembers := hok.ringMembers.initCpu hc
  have hmem : ∀ c', c' ≠ c → c' ∈ insert c w.online → c' ∈ w.online := fun c' hne h =>
    (Finset.mem_insert.mp h).resolve_left hne
  refine ⟨fun c' hc' => ?_, fun c' hc' => ?_, hmembers.kind, fun m hm => ?_, ?_,
    fun c' hc' hl => ?_⟩
  · by_cases heq : c' = c
    · subst heq
      simp only [World.setCpu, schedInitCpu, queuePushBack, hnull, if_true, Function.update_self]
      refine ⟨rfl, Ring.single (by simp) (by simp), by simp [initThread], fun h => absurd rfl h,
        by simp, by simp [initThread], ?_, ?_, ?_⟩ <;>
      · intro t ht hne
        exact absurd (List.mem_singleton.mp ht) hne
    · have hc'' := hmem c' heq hc'
      have hne : ∀ x ∈ rings c', x ≠ .idle c := fun x hx => hok.ringMembers.ne_idle hc hc'' hx
      simp only [World.setCpu, schedInitCpu, queuePushBack, hnull, if_true,
        Function.update_of_ne heq]
      apply (hok.cpu c' hc'').congr <;> intro x hx
      · simp [initThread, Function.update_of_ne (hne x hx)]
      · simp [initThread, Function.update_of_ne (hne x hx)]
      · intro hrun
        simp only [initThread, Function.update_of_ne (hne x hx)]
        exact hrun
      · simp only [initThread, Function.update_of_ne (hne x hx)]
      · simp only [initThread, Function.update_of_ne (hne x hx)]
  · have hne : c' ≠ c := by
      rintro rfl
      exact hc' (Finset.mem_insert_self _ _)
    have hc'' : c' ∉ w.online := fun h => hc' (Finset.mem_insert_of_mem h)
    simp only [World.setCpu, Function.update_of_ne hne]
    exact hok.offline c' hc''
  · obtain ⟨c', hc', hmem⟩ := hok.home m hm
    have hne : c' ≠ c := by
      rintro rfl
      exact hc hc'
    exact ⟨c', Finset.mem_insert_of_mem hc', by rwa [Function.update_of_ne hne]⟩
  · simp only [World.setCpu, schedInitCpu, queuePushBack, hnull, if_true, initThread]
    exact hmembers.cpuId
  · change w.locked c' = true at hl
    have hne : c' ≠ c := by
      rintro rfl
      rw [hunlocked] at hl
      exact absurd hl (by decide)
    simp only [World.cur, World.setCpu, Function.update_of_ne hne]
    exact hok.locked c' (hmem c' hne hc') hl

/-- The first step of a blocking wait locks a CPU that does not run its idle thread. -/
theorem WorldOk.lock (hok : WorldOk w rings) (hc : c ∈ w.online) (hne : w.cur c ≠ .idle c)
    {nextWait : ThreadRef → ThreadRef} (hmem : w'.mem = { w.mem with nextWait := nextWait })
    (hcpus : w'.cpus = w.cpus) (honline : w'.online = w.online) (hlive : w'.live = w.live)
    (hlocked : w'.locked = Function.update w.locked c true) : WorldOk w' rings := by
  refine hok.setMem ?_ ?_ ?_ ?_ ?_ (fun x hx => ?_) hcpus honline hlive (fun c' hc' => ?_)
    fun c' hc' hl => ?_
  iterate 5 rw [hmem]
  · rw [hmem]
    exact hx
  · have hcc : c' ≠ c := by
      rintro rfl
      exact hc' hc
    rw [hlocked, Function.update_of_ne hcc]
    exact (hok.offline c' hc').2
  · by_cases hcc : c' = c
    · rw [hcc]
      exact hne
    · rw [hlocked, Function.update_of_ne hcc] at hl
      exact hok.locked c' hc' hl

/-- Waking a thread keeps all CPUs in order. -/
theorem WorldOk.wakeThread (hok : WorldOk w rings) (t : ThreadRef) (hmem : w'.mem = wake w.mem t)
    (hcpus : w'.cpus = w.cpus) (honline : w'.online = w.online) (hlive : w'.live = w.live)
    (hlocked : w'.locked = w.locked) : WorldOk w' rings := by
  refine hok.setMem ?_ ?_ ?_ ?_ ?_ (fun x hx => ?_) hcpus honline hlive ?_ ?_
  iterate 5
    rw [hmem]
    rfl
  · rw [hmem]
    exact wake_state w.mem t x hx
  · rw [hlocked]
    exact fun c hc => (hok.offline c hc).2
  · rw [hlocked]
    exact hok.locked

/-- Every operation that can happen completes and keeps all CPUs in order. -/
theorem WorldOk.step (hok : WorldOk w rings) {op : Op} (hop : w.Enabled op) :
    ∃ w' rings', w.step op = some w' ∧ WorldOk w' rings' := by
  have hcount : ∀ s d, WorldOk (w.addCount s d) rings := fun s d =>
    hok.setMem rfl rfl rfl rfl rfl (fun _ hx => hx) rfl rfl rfl
      (fun c hc => (hok.offline c hc).2) hok.locked
  cases op with
  | initCpu c => exact ⟨_, _, rfl, hok.initCpu hop⟩
  | create c n => exact ⟨_, _, rfl, hok.create hop.1 hop.2.2⟩
  | tick c =>
    obtain ⟨cpu', h', htick, hcpu, hmoved, -⟩ :=
      (hok.cpu c hop.1).schedTick_spec (hok.length_le hop.1)
    exact ⟨w.setCpu c (cpu', h'), rings, by rw [World.step, htick, Option.map_some],
      hok.setCpu hop.1 hcpu hmoved (fun _ _ => rfl) hop.2⟩
  | sleep c ms =>
    obtain ⟨cpu', h', hsleep, hcpu, hmoved, -⟩ :=
      (hok.cpu c hop.1).schedSleep_spec ms (hok.length_le hop.1)
    exact ⟨w.setCpu c (cpu', h'), rings, by rw [World.step, hsleep, Option.map_some],
      hok.setCpu hop.1 hcpu hmoved (fun _ _ => rfl) hop.2⟩
  | yield c =>
    obtain ⟨cpu', h', hyield, hcpu, hmoved, -⟩ :=
      (hok.cpu c hop.1).schedYieldLocked_spec hop.2.2 (hok.length_le hop.1)
    exact ⟨w.setCpu c (cpu', h'), rings, by rw [World.step, hyield, Option.map_some],
      hok.setCpu hop.1 hcpu hmoved (fun _ _ => rfl) hop.2.1⟩
  | wakeup t => exact ⟨_, rings, rfl, hok.wakeThread t rfl rfl rfl rfl rfl⟩
  | semaWait c s =>
    simp only [World.step]
    split_ifs
    · exact ⟨_, rings, rfl, hcount s (-1)⟩
    · obtain ⟨nextWait, hpush⟩ := push_snd_eq (w.semas s).threads w.mem (w.cur c)
      exact ⟨_, rings, rfl, hok.lock hop.1 hop.2.2 hpush rfl rfl rfl rfl⟩
  | condWait c k =>
    obtain ⟨nextWait, hpush⟩ := push_snd_eq (w.conds k) w.mem (w.cur c)
    exact ⟨_, rings, rfl, hok.lock hop.1 hop.2.2 hpush rfl rfl rfl rfl⟩
  | finishWait c =>
    obtain ⟨cpu', h', hyield, hcpu, hmoved, -⟩ :=
      (hok.cpu c hop.1).schedYieldLocked_spec (hok.locked c hop.1 hop.2) (hok.length_le hop.1)
    exact ⟨_, rings, by rw [World.step, hyield, Option.map_some],
      hok.setCpu hop.1 hcpu hmoved (fun _ hne => Function.update_of_ne hne _ _)
        (Function.update_self _ _ _)⟩
  | semaSignal s =>
    simp only [World.step]
    split_ifs
    · exact ⟨_, rings, rfl, hcount s 1⟩
    · exact ⟨_, rings, rfl, hok.wakeThread _ rfl rfl rfl rfl rfl⟩
  | condSignal k =>
    simp only [World.step]
    split_ifs
    · exact ⟨_, rings, rfl, hok⟩
    · exact ⟨_, rings, rfl, hok.wakeThread _ rfl rfl rfl rfl rfl⟩

/-- A signal wakes the first thread of a list, if there is one. -/
def Signalled (tl : ThreadList) (h h' : Threads) : Prop :=
  h'.sleepTimer = h.sleepTimer ∧
    ((tl.head = .null ∧ h'.state = h.state) ∨
      (tl.head ≠ .null ∧ h'.state = Function.update h.state tl.head .running))

/-- What an operation does to the states and the timers of the threads. -/
def World.Marks (w : World) (h' : Threads) : Op → Prop
  | .initCpu c => h'.state = Function.update w.mem.state (.idle c) .running ∧
      h'.sleepTimer = Function.update w.mem.sleepTimer (.idle c) false
  | .create _ n => h'.state = Function.update w.mem.state (.alloc n) .running ∧
      h'.sleepTimer = Function.update w.mem.sleepTimer (.alloc n) false
  | .tick _ => TimersRun w.mem h'
  | .sleep c _ =>
    (w.cur c = .idle c ∧ h'.state = w.mem.state ∧ h'.sleepTimer = w.mem.sleepTimer) ∨
      (w.cur c ≠ .idle c ∧ h'.state = Function.update w.mem.state (w.cur c) .sleeping ∧
        h'.sleepTimer = Function.update w.mem.sleepTimer (w.cur c) true)
  | .yield c | .finishWait c => h'.state = Function.update w.mem.state (w.cur c) .sleeping ∧
      h'.sleepTimer = w.mem.sleepTimer
  | .wakeup t => h'.state = Function.update w.mem.state t .running ∧
      h'.sleepTimer = w.mem.sleepTimer
  | .semaWait _ _ | .condWait _ _ => h'.state = w.mem.state ∧ h'.sleepTimer = w.mem.sleepTimer
  | .semaSignal s => Signalled (w.semas s).threads w.mem h'
  | .condSignal k => Signalled (w.conds k) w.mem h'

/-- Every operation marks the threads as it should. -/
theorem WorldOk.step_marks (hok : WorldOk w rings) {op : Op} (hop : w.Enabled op)
    (hstep : w.step op = some w') : w.Marks w'.mem op := by
  cases op with
  | initCpu c =>
    cases hstep
    simp only [World.Marks, World.setCpu, schedInitCpu, queuePushBack, (hok.offline c hop).1,
      if_true, initThread]
    trivial
  | create c n =>
    cases hstep
    have hhead : (w.cpus c).threads ≠ .null := by
      rw [(hok.cpu c hop.1).head]
      simp
    obtain ⟨hstate, htimer, -⟩ := threadCreate_fields (c := c) (h := w.mem) (t := .alloc n) hhead
    exact ⟨hstate, htimer⟩
  | tick c =>
    obtain ⟨cpu', h', htick, -, -, htimers⟩ :=
      (hok.cpu c hop.1).schedTick_spec (hok.length_le hop.1)
    rw [World.step, htick, Option.map_some, Option.some.injEq] at hstep
    subst hstep
    exact htimers
  | sleep c ms =>
    obtain ⟨cpu', h', hsleep, -, -, hcase⟩ :=
      (hok.cpu c hop.1).schedSleep_spec ms (hok.length_le hop.1)
    rw [World.step, hsleep, Option.map_some, Option.some.injEq] at hstep
    subst hstep
    rcases hcase with ⟨hcur, rfl, -⟩ | hcase
    · exact Or.inl ⟨hcur, rfl, rfl⟩
    · exact Or.inr hcase
  | yield c =>
    obtain ⟨cpu', h', hyield, -, -, hmarks⟩ :=
      (hok.cpu c hop.1).schedYieldLocked_spec hop.2.2 (hok.length_le hop.1)
    rw [World.step, hyield, Option.map_some, Option.some.injEq] at hstep
    subst hstep
    exact hmarks
  | wakeup t =>
    cases hstep
    exact ⟨rfl, rfl⟩
  | semaWait c s =>
    simp only [World.step] at hstep
    split_ifs at hstep <;> cases hstep
    · exact ⟨rfl, rfl⟩
    · obtain ⟨nextWait, hpush⟩ := push_snd_eq (w.semas s).threads w.mem (w.cur c)
      simp only [World.Marks, World.blockSema, hpush]
      trivial
  | condWait c k =>
    cases hstep
    obtain ⟨nextWait, hpush⟩ := push_snd_eq (w.conds k) w.mem (w.cur c)
    simp only [World.Marks, World.blockCond, hpush]
    trivial
  | finishWait c =>
    obtain ⟨cpu', h', hyield, -, -, hmarks⟩ :=
      (hok.cpu c hop.1).schedYieldLocked_spec (hok.locked c hop.1 hop.2) (hok.length_le hop.1)
    rw [World.step, hyield, Option.map_some, Option.some.injEq] at hstep
    subst hstep
    exact hmarks
  | semaSignal s =>
    simp only [World.step] at hstep
    split_ifs at hstep with hempty <;> cases hstep
    · exact ⟨rfl, Or.inl ⟨hempty, rfl⟩⟩
    · exact ⟨rfl, Or.inr ⟨hempty, rfl⟩⟩
  | condSignal k =>
    simp only [World.step] at hstep
    split_ifs at hstep with hempty <;> cases hstep
    · exact ⟨rfl, Or.inl ⟨hempty, rfl⟩⟩
    · exact ⟨rfl, Or.inr ⟨hempty, rfl⟩⟩

/-- The CPU whose current thread an operation puts to sleep. -/
def Op.sleeper : Op → Option ℕ
  | .sleep c _ | .yield c | .finishWait c => some c
  | .initCpu _ | .create _ _ | .tick _ | .wakeup _ | .semaWait _ _ | .condWait _ _ | .semaSignal _
  | .condSignal _ => none

/-- A thread that can run keeps running unless the operation puts it to sleep. -/
theorem WorldOk.running_step (hok : WorldOk w rings) {op : Op} (hop : w.Enabled op)
    (hstep : w.step op = some w') {t : ThreadRef} (ht : w.mem.state t = .running)
    (hne : ∀ c, op.sleeper = some c → t ≠ w.cur c) : w'.mem.state t = .running := by
  have hmarks := hok.step_marks hop hstep
  have hset : ∀ x, w'.mem.state = Function.update w.mem.state x .running →
      w'.mem.state t = .running := by
    intro x hx
    rw [hx]
    exact wake_state w.mem x t ht
  have hsleep : ∀ c, op.sleeper = some c →
      w'.mem.state = Function.update w.mem.state (w.cur c) .sleeping →
      w'.mem.state t = .running := by
    intro c hc hx
    rw [hx, Function.update_of_ne (hne c hc), ht]
  cases op with
  | initCpu c => exact hset _ hmarks.1
  | create c n => exact hset _ hmarks.1
  | tick c =>
    rcases hmarks t with ⟨hs, -⟩ | ⟨-, -, hs, -⟩
    · exact hs.trans ht
    · exact hs
  | sleep c ms =>
    rcases hmarks with ⟨-, hs, -⟩ | ⟨-, hs, -⟩
    · rw [hs, ht]
    · exact hsleep c rfl hs
  | yield c => exact hsleep c rfl hmarks.1
  | wakeup x => exact hset x hmarks.1
  | semaWait c s => rw [hmarks.1, ht]
  | condWait c k => rw [hmarks.1, ht]
  | finishWait c => exact hsleep c rfl hmarks.1
  | semaSignal s =>
    rcases hmarks.2 with ⟨-, hs⟩ | ⟨-, hs⟩
    · rw [hs, ht]
    · exact hset _ hs
  | condSignal k =>
    rcases hmarks.2 with ⟨-, hs⟩ | ⟨-, hs⟩
    · rw [hs, ht]
    · exact hset _ hs

/-- Before any CPU is up there is nothing to keep in order. -/
theorem World.Boot.worldOk (h : w.Boot) : WorldOk w fun _ => [] := by
  obtain ⟨honline, hlive, hthreads, hlocked⟩ := h
  have hnone : ∀ c, c ∉ w.online := by simp [honline]
  exact ⟨fun c hc => absurd hc (hnone c), fun c _ => ⟨hthreads c, hlocked c⟩,
    fun c hc => absurd hc (hnone c), fun n hn => by simp [hlive] at hn,
    fun c hc => absurd hc (hnone c), fun c hc => absurd hc (hnone c)⟩

/-- All CPUs are in order in every state that is reached. -/
theorem worldOk_of_reaches {w₀ : World} (h₀ : w₀.Boot) {guard : World → Op → Prop}
    (hguard : ∀ w op, guard w op → w.Enabled op) (hrun : Reaches World.step guard w₀ w) :
    ∃ rings, WorldOk w rings := by
  apply hrun.invariant ⟨_, h₀.worldOk⟩
  rintro w op w' ⟨rings, hok⟩ hop hstep
  obtain ⟨w'', rings', hstep', hok'⟩ := hok.step (hguard w op hop)
  rw [hstep, Option.some.injEq] at hstep'
  exact ⟨rings', hstep' ▸ hok'⟩

end Preservation

section Scheduling

/-- Whatever the CPUs do: in every state the threads of each CPU form a ring with its idle
thread at the head, the idle thread can run and has no quantum unless it is current, the
current thread is a thread of the ring that can run, and quanta are in their bounds.
Every operation completes, and when it calls `sched_next` the idle thread becomes or stays
current only if no other thread of the ring can run. -/
theorem sched_keeps_order {w₀ w : World} (h₀ : w₀.Boot)
    (hrun : Reaches World.step World.Enabled w₀ w) {c : ℕ} (hc : c ∈ w.online) :
    ∃ ring, CpuOk w.mem c (w.cpus c) ring ∧
      (∀ n ∈ w.live, w.mem.cpuId (.alloc n) = c → .alloc n ∈ ring) ∧
      ∀ op, w.Enabled op → (w.step op).isSome ∧
        ∀ h, w.nextCall op = some (c, h) →
          ∃ cpu' h', schedNext w.rounds (w.cpus c) h = some (cpu', h') ∧
            (cpu'.curThread = .idle c → ∀ t ∈ ring, t ≠ .idle c → h'.state t ≠ .running) := by
  obtain ⟨rings, hok⟩ := worldOk_of_reaches h₀ (fun _ _ h => h) hrun
  have hcpu := hok.cpu c hc
  have hlen := hok.length_le hc
  refine ⟨rings c, hcpu, fun n hn hid => ?_, fun op hop => ⟨?_, fun h hcall => ?_⟩⟩
  · obtain ⟨c', hc', hmem⟩ := hok.home n hn
    rw [hok.cpuId c' hc' _ hmem] at hid
    exact hid ▸ hmem
  · obtain ⟨w', -, hstep, -⟩ := hok.step hop
    rw [hstep]
    rfl
  · have hready : Ready h c (w.cpus c) (rings c) := by
      cases op with
      | tick c' =>
        obtain ⟨h₁, hbegin, hrest⟩ := Option.bind_eq_some_iff.mp hcall
        split_ifs at hrest with hleft
        simp only [Option.some.injEq, Prod.mk.injEq] at hrest
        obtain ⟨rfl, rfl⟩ := hrest
        obtain ⟨h₂, hbegin', -, -, -, hswitch⟩ := hcpu.tickBegin_spec hlen
        rw [hbegin, Option.some.injEq] at hbegin'
        subst hbegin'
        exact hswitch (by simp only [World.cur] at hleft; omega)
      | sleep c' ms =>
        simp only [World.nextCall] at hcall
        split_ifs at hcall with hne
        simp only [Option.some.injEq, Prod.mk.injEq] at hcall
        obtain ⟨rfl, rfl⟩ := hcall
        rw [hcpu.head] at hne
        exact hcpu.ready_of_sleep hne rfl rfl rfl rfl rfl
      | yield c' =>
        simp only [World.nextCall, Option.some.injEq, Prod.mk.injEq] at hcall
        obtain ⟨rfl, rfl⟩ := hcall
        exact hcpu.ready_of_sleep hop.2.2 rfl rfl rfl rfl rfl
      | finishWait c' =>
        simp only [World.nextCall, Option.some.injEq, Prod.mk.injEq] at hcall
        obtain ⟨rfl, rfl⟩ := hcall
        exact hcpu.ready_of_sleep (hok.locked _ hc hop.2) rfl rfl rfl rfl rfl
      | _ => simp [World.nextCall] at hcall
    obtain ⟨cpu', h', hnext, -, hidle, -⟩ := hready.schedNext_spec hlen
    exact ⟨cpu', h', hnext, hidle⟩

/-- Memory in which nothing has happened yet. -/
def World.blank : World where
  mem :=
    { next := fun _ => .null, prev := fun _ => .null, nextWait := fun _ => .null
      ticks := fun _ => 0, id := fun _ => 0, cpuId := fun _ => 0, state := fun _ => .running
      sleepTime := fun _ => 0, sleepTimer := fun _ => false, pri := fun _ => 0, cnt := fun _ => 0 }
  cpus := fun _ => ⟨.null, .null, 0⟩
  online := ∅
  live := ∅
  locked := fun _ => false
  semas := fun _ => semaInit 0
  conds := fun _ => ThreadList.init

theorem World.blank_boot : World.blank.Boot := ⟨rfl, rfl, fun _ => rfl, fun _ => rfl⟩

/-- One CPU with two threads besides the idle thread. The quantum of the idle thread ends, the first
thread sleeps, and is woken up during the quantum of the second. -/
def twoThreads : List Op :=
  [.initCpu 0, .create 0 5, .create 0 6] ++ List.replicate 8 (.tick 0) ++
    [.sleep 0 30, .tick 0, .wakeup (.alloc 5), .tick 0]

/-- If the second thread then yields, `sched_next` does not choose the idle thread. -/
theorem sched_keeps_order_twoThreads :
    ∃ w, Reaches World.step World.Enabled World.blank w ∧ w.cur 0 = .alloc 6 ∧
      ∃ ring, CpuOk w.mem 0 (w.cpus 0) ring ∧ .alloc 5 ∈ ring ∧ .alloc 6 ∈ ring ∧
        ∃ cpu' h', schedNext w.rounds (w.cpus 0) (markSleeping (w.cpus 0) w.mem) =
          some (cpu', h') ∧ cpu'.curThread ≠ .idle 0 := by
  have hrun : (runOps World.step World.Enabled World.blank twoThreads).any (fun w =>
      decide (w.cur 0 = .alloc 6 ∧ 0 ∈ w.online ∧ 5 ∈ w.live ∧ 6 ∈ w.live ∧
        w.Enabled (.yield 0) ∧ w.mem.cpuId (.alloc 5) = 0 ∧ w.mem.cpuId (.alloc 6) = 0 ∧
        (schedNext w.rounds (w.cpus 0) (markSleeping (w.cpus 0) w.mem)).map
          (fun r => r.2.state (.alloc 5)) = some .running)) = true := by decide +kernel
  obtain ⟨w, hw, hvalues⟩ := (Option.any_eq_true _ _).mp hrun
  obtain ⟨hcur, honline, hfive, hsix, hyield, hfive', hsix', hstate⟩ :=
    of_decide_eq_true hvalues
  have hreach := Reaches.of_runOps hw
  obtain ⟨ring, hok, hmem, hcalls⟩ :=
    sched_keeps_order (c := 0) World.blank_boot hreach honline
  have hring : .alloc 5 ∈ ring := hmem 5 hfive hfive'
  obtain ⟨cpu', h', hnext, hidle⟩ := (hcalls (.yield 0) hyield).2 _ rfl
  rw [hnext, Option.map_some, Option.some.injEq] at hstate
  exact ⟨w, hreach, hcur, ring, hok, hring, hmem 6 hsix hsix', cpu', h', hnext,
    fun hcontra => hidle hcontra _ hring (by simp) hstate⟩

end Scheduling

end Smor.Sched
