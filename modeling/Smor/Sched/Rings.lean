import Smor.Lists.Macros
import Smor.Sched.World

/-!
# The rings, whatever the threads do

`WorldOk` needs idle threads that never block. Less is enough to know where a context switch can
go: the threads of each CPU form a ring, whatever their states and quanta are, and `sched_next`
picks one of the ring. `RingsOk` says so, and every operation keeps it.
-/

namespace Smor.Sched

open Smor.Lib

/-- The threads of each CPU form a ring that holds the current thread, and the rings share no
thread. -/
structure RingsOk (w : World) (rings : ℕ → List ThreadRef) : Prop where
  head : ∀ c ∈ w.online, (w.cpus c).threads = .idle c
  circular : ∀ c ∈ w.online, Ring w.mem.next w.mem.prev (.idle c) (rings c)
  cur : ∀ c ∈ w.online, w.cur c ∈ rings c
  offline : ∀ c, c ∉ w.online → (w.cpus c).threads = .null
  members : ∀ c ∈ w.online, ∀ t ∈ rings c, t = .idle c ∨ ∃ n ∈ w.live, t = .alloc n
  cpuId : ∀ c ∈ w.online, ∀ t ∈ rings c, w.mem.cpuId t = c

/-- The links of the rings and the CPUs of the threads stay as they are. -/
structure Linked (h h' : Threads) : Prop where
  next : h'.next = h.next
  prev : h'.prev = h.prev
  cpuId : h'.cpuId = h.cpuId

theorem Linked.refl (h : Threads) : Linked h h := ⟨rfl, rfl, rfl⟩

theorem Linked.trans {h h' h'' : Threads} (h₁ : Linked h h') (h₂ : Linked h' h'') :
    Linked h h'' :=
  ⟨h₂.next.trans h₁.next, h₂.prev.trans h₁.prev, h₂.cpuId.trans h₁.cpuId⟩

/-- The threads are linked by the macro of `list.h`. -/
theorem queuePushBack_eq_macro {h : Threads} {head elem : ThreadRef} (he : elem ≠ .null)
    (hlast : head ≠ .null → h.prev head ≠ .null) :
    Lists.queuePushBack .null head elem ⟨h.next, h.prev⟩ =
      some ((queuePushBack h head elem).1,
        ⟨(queuePushBack h head elem).2.next, (queuePushBack h head elem).2.prev⟩) := by
  by_cases hhead : head = .null
  · subst hhead
    rw [Lists.queuePushBack_null he, queuePushBack, if_pos rfl]
  · rw [Lists.queuePushBack_of_ne hhead he (hlast hhead), queuePushBack, if_neg hhead]

section Picking

variable {h : Threads} {c rounds : ℕ} {cpu : Cpu} {ring : List ThreadRef}

/-- `sched_find` picks a thread of the ring. -/
theorem schedFind_mem (hring : Ring h.next h.prev (.idle c) ring)
    (hrounds : ring.length ≤ rounds) :
    ∃ t ∈ ring, schedFind rounds h (h.next (.idle c)) = some t := by
  have hfirst := hring.next_mem hring.head_mem
  obtain ⟨rest, rfl⟩ := hring.exists_rest
  refine ⟨_, ?_, by
    rw [schedFind, Ring.doWhile_round (fun _ => h.next) (schedFindBody h) (fun _ _ _ => rfl)
      hring hrounds]
    rfl⟩
  obtain ⟨-, -, heq | ⟨hmem, -, -⟩⟩ :=
    foldl_schedFindBody h (rest ++ [.idle c]) (-1, h.next (.idle c))
  · rw [heq]
    exact hfirst
  · simp only [List.mem_append, List.mem_cons] at hmem ⊢
    tauto

/-- `sched_next` makes a thread of the ring current. -/
theorem schedNext_mem (hhead : cpu.threads = .idle c)
    (hring : Ring h.next h.prev (.idle c) ring) (hrounds : ring.length ≤ rounds) :
    ∃ cpu' h', schedNext rounds cpu h = some (cpu', h') ∧ cpu'.threads = .idle c ∧
      cpu'.curThread ∈ ring ∧ Linked h h' := by
  have hswitch : ∀ t ∈ ring, ∀ h', Linked h h' →
      (switchTo cpu t h').1.threads = .idle c ∧ (switchTo cpu t h').1.curThread ∈ ring ∧
        Linked h (switchTo cpu t h').2 := by
    intro t ht h' hlinked
    unfold switchTo
    split_ifs with hne
    · exact ⟨hhead, ht, hlinked.trans ⟨rfl, rfl, rfl⟩⟩
    · rw [not_not] at hne
      exact ⟨hhead, hne ▸ ht, hlinked⟩
  obtain ⟨t, ht, hfind⟩ := schedFind_mem hring hrounds
  have hpick : ∃ t ∈ ring, ∃ h', schedPick rounds cpu h = some (t, h') ∧ Linked h h' := by
    unfold schedPick
    rw [hhead, hfind, Option.bind_some]
    split_ifs
    · obtain ⟨rest, rfl⟩ := hring.exists_rest
      have hnodup := (List.nodup_cons.mp hring.nodup).2
      rw [Ring.forUntil_rest _ _ refillBody_next hring hrounds, foldl_refillBody hnodup,
        Option.bind_some]
      obtain ⟨t', ht', hfind'⟩ := schedFind_mem
        (h := { h with
          cnt := fun x => if x ∈ rest then h.cnt x >>> (1 : ℕ) + h.pri x else h.cnt x })
        hring hrounds
      refine ⟨t', ht', { h with
        cnt := fun x => if x ∈ rest then h.cnt x >>> (1 : ℕ) + h.pri x else h.cnt x }, ?_, rfl,
          rfl, rfl⟩
      rw [hfind']
      rfl
    · exact ⟨t, ht, h, rfl, Linked.refl h⟩
  obtain ⟨t, ht, h', hpick, hlinked⟩ := hpick
  obtain ⟨hhead', hcur, hlinked'⟩ := hswitch t ht h' hlinked
  exact ⟨_, _, by rw [schedNext, hpick, Option.map_some], hhead', hcur, hlinked'⟩

/-- `sched_tick` leaves a thread of the ring current. -/
theorem schedTick_mem (hhead : cpu.threads = .idle c)
    (hring : Ring h.next h.prev (.idle c) ring) (hcur : cpu.curThread ∈ ring)
    (hrounds : ring.length ≤ rounds) :
    ∃ cpu' h', schedTick rounds cpu h = some (cpu', h') ∧ cpu'.threads = .idle c ∧
      cpu'.curThread ∈ ring ∧ Linked h h' := by
  obtain ⟨h₁, hcheck, hwoken⟩ := schedCheckSleeping_spec hring hrounds
  have hring₁ : Ring h₁.next h₁.prev (.idle c) ring := by
    rw [hwoken.next, hwoken.prev]
    exact hring
  rw [schedTick, tickBegin, hhead, hcheck, Option.map_some, Option.bind_some]
  split_ifs
  · exact ⟨cpu, _, rfl, hhead, hcur, ⟨hwoken.next, hwoken.prev, hwoken.cpuId⟩⟩
  · obtain ⟨cpu', h', hnext, hhead', hcur', hlinked⟩ :=
      schedNext_mem (h := endQuantum cpu { h₁ with
        ticks := Function.update h₁.ticks cpu.curThread (u64 (h₁.ticks cpu.curThread + 1))
        cnt := Function.update h₁.cnt cpu.curThread (h₁.cnt cpu.curThread - 1) })
        hhead hring₁ hrounds
    exact ⟨cpu', h', hnext, hhead', hcur', hlinked.next.trans hwoken.next,
      hlinked.prev.trans hwoken.prev, hlinked.cpuId.trans hwoken.cpuId⟩

/-- `sched_sleep` leaves a thread of the ring current. -/
theorem schedSleep_mem (ms : ℕ) (hhead : cpu.threads = .idle c)
    (hring : Ring h.next h.prev (.idle c) ring) (hcur : cpu.curThread ∈ ring)
    (hrounds : ring.length ≤ rounds) :
    ∃ cpu' h', schedSleep rounds cpu ms h = some (cpu', h') ∧ cpu'.threads = .idle c ∧
      cpu'.curThread ∈ ring ∧ Linked h h' := by
  unfold schedSleep
  split_ifs
  · obtain ⟨cpu', h', hnext, hhead', hcur', hlinked⟩ :=
      schedNext_mem (h := startTimer cpu ms h) hhead hring hrounds
    exact ⟨cpu', h', hnext, hhead', hcur', hlinked.next, hlinked.prev, hlinked.cpuId⟩
  · exact ⟨cpu, h, rfl, hhead, hcur, Linked.refl h⟩

/-- `sched_yield_locked` leaves a thread of the ring current. -/
theorem schedYieldLocked_mem (hhead : cpu.threads = .idle c)
    (hring : Ring h.next h.prev (.idle c) ring) (hrounds : ring.length ≤ rounds) :
    ∃ cpu' h', schedYieldLocked rounds cpu h = some (cpu', h') ∧ cpu'.threads = .idle c ∧
      cpu'.curThread ∈ ring ∧ Linked h h' := by
  obtain ⟨cpu', h', hnext, hhead', hcur', hlinked⟩ :=
    schedNext_mem (h := markSleeping cpu h) hhead hring hrounds
  exact ⟨cpu', h', hnext, hhead', hcur', hlinked.next, hlinked.prev, hlinked.cpuId⟩

end Picking

section Rings

variable {w w' : World} {rings : ℕ → List ThreadRef} {c n : ℕ} {t : ThreadRef}

theorem RingsOk.ringMembers (hok : RingsOk w rings) :
    RingMembers w.online w.live w.mem.cpuId rings := ⟨hok.members, hok.cpuId⟩

/-- A thread is in the ring of one CPU only. -/
theorem RingsOk.eq_of_mem (hok : RingsOk w rings) {c c' : ℕ} (hc : c ∈ w.online)
    (hc' : c' ∈ w.online) (ht : t ∈ rings c) (ht' : t ∈ rings c') : c = c' :=
  hok.ringMembers.eq_of_mem hc hc' ht ht'

theorem RingsOk.length_le (hok : RingsOk w rings) (hc : c ∈ w.online) :
    (rings c).length ≤ w.rounds :=
  World.length_le_rounds (hok.circular c hc).nodup (hok.members c hc)

/-- A new thread is on no ring. -/
theorem RingsOk.alloc_notMem (hok : RingsOk w rings) (hc : c ∈ w.online) (hn : n ∉ w.live) :
    ThreadRef.alloc n ∉ rings c := hok.ringMembers.alloc_notMem hc hn

/-- A change of one CPU that keeps its ring. -/
theorem RingsOk.setCpu (hok : RingsOk w rings) (hc : c ∈ w.online) {cpu' : Cpu} {h' : Threads}
    (hhead : cpu'.threads = .idle c) (hcur : cpu'.curThread ∈ rings c)
    (hlinked : Linked w.mem h') (locked' : ℕ → Bool) :
    RingsOk { w.setCpu c (cpu', h') with locked := locked' } rings := by
  refine ⟨fun c' hc' => ?_, fun c' hc' => ?_, fun c' hc' => ?_, fun c' hc' => ?_, hok.members,
    fun c' hc' t ht => ?_⟩
  · by_cases heq : c' = c
    · subst heq
      simp only [World.setCpu, Function.update_self, hhead]
    · simp only [World.setCpu, Function.update_of_ne heq]
      exact hok.head c' hc'
  · simp only [World.setCpu, hlinked.next, hlinked.prev]
    exact hok.circular c' hc'
  · by_cases heq : c' = c
    · subst heq
      simp only [World.cur, World.setCpu, Function.update_self]
      exact hcur
    · simp only [World.cur, World.setCpu, Function.update_of_ne heq]
      exact hok.cur c' hc'
  · have hne : c' ≠ c := by
      rintro rfl
      exact hc' hc
    simp only [World.setCpu, Function.update_of_ne hne]
    exact hok.offline c' hc'
  · simp only [World.setCpu, hlinked.cpuId]
    exact hok.cpuId c' hc' t ht

/-- A change that leaves CPUs and links as they are. -/
theorem RingsOk.setMem (hok : RingsOk w rings) (hlinked : Linked w.mem w'.mem)
    (hcpus : w'.cpus = w.cpus) (honline : w'.online = w.online) (hlive : w'.live = w.live) :
    RingsOk w' rings := by
  refine ⟨?_, ?_, ?_, ?_, ?_, ?_⟩
  · rw [honline, hcpus]
    exact hok.head
  · rw [honline, hlinked.next, hlinked.prev]
    exact hok.circular
  · simp only [World.cur, honline, hcpus]
    exact hok.cur
  · rw [honline, hcpus]
    exact hok.offline
  · rw [honline, hlive]
    exact hok.members
  · rw [honline, hlinked.cpuId]
    exact hok.cpuId

/-- `thread_create` does not switch. -/
theorem RingsOk.cur_create (hok : RingsOk w rings) (hc : c ∈ w.online) (c' : ℕ) :
    (w.setCpu c (threadCreate c (w.cpus c) (.alloc n) w.mem)).cur c' = w.cur c' := by
  by_cases heq : c' = c
  · subst heq
    have hhead : (w.cpus c').threads ≠ .null := by
      rw [hok.head c' hc]
      simp
    obtain ⟨-, -, -, -, -, -, hsame⟩ :=
      threadCreate_fields (c := c') (h := w.mem) (t := .alloc n) hhead
    simp only [World.cur, World.setCpu, Function.update_self, hsame]
  · simp only [World.cur, World.setCpu, Function.update_of_ne heq]

/-- `thread_create` appends the new thread to the ring of its CPU. -/
theorem RingsOk.create (hok : RingsOk w rings) (hc : c ∈ w.online) (hn : n ∉ w.live) :
    RingsOk { w.setCpu c (threadCreate c (w.cpus c) (.alloc n) w.mem) with live := insert n w.live }
      (Function.update rings c (rings c ++ [.alloc n])) := by
  have hhead := hok.head c hc
  have hring := hok.circular c hc
  have hnew := hok.alloc_notMem hc hn
  have hold : ∀ {c' x}, c' ∈ w.online → x ∈ rings c' → x ≠ .alloc n := by
    rintro c' x hc' hx rfl
    exact hok.alloc_notMem hc' hn hx
  obtain ⟨-, -, -, -, hcpuId, -, -⟩ :=
    threadCreate_fields (c := c) (h := w.mem) (t := .alloc n) (by rw [hhead]; simp)
  obtain ⟨hhead', hring'⟩ := threadCreate_ring hhead hring hnew
  have hmembers := hok.ringMembers.create hc hn
  rw [← hcpuId] at hmembers
  refine ⟨fun c' hc' => ?_, fun c' hc' => ?_, fun c' hc' => ?_, fun c' hc' => ?_, hmembers.kind,
    hmembers.cpuId⟩
  · by_cases heq : c' = c
    · subst heq
      simp only [World.setCpu, Function.update_self, hhead']
    · simp only [World.setCpu, Function.update_of_ne heq]
      exact hok.head c' hc'
  · by_cases heq : c' = c
    · subst heq
      simp only [World.setCpu, Function.update_self]
      exact hring'
    · simp only [World.setCpu, Function.update_of_ne heq]
      have hout : ∀ x ∈ rings c', x ∉ rings c := fun x hx hx' => heq (hok.eq_of_mem hc' hc hx hx')
      apply (hok.circular c' hc').congr
      · exact fun x hx => (threadCreate_outside hhead hring hnew (hout x hx) (hold hc' hx)).1
      · exact fun x hx => (threadCreate_outside hhead hring hnew (hout x hx) (hold hc' hx)).2
  · change (w.setCpu c _).cur c' ∈ _
    rw [hok.cur_create hc]
    by_cases heq : c' = c
    · subst heq
      rw [Function.update_self]
      exact List.mem_append_left _ (hok.cur c' hc)
    · rw [Function.update_of_ne heq]
      exact hok.cur c' hc'
  · have hne : c' ≠ c := by
      rintro rfl
      exact hc' hc
    simp only [World.setCpu, Function.update_of_ne hne]
    exact hok.offline c' hc'

/-- `sched_init_cpu` makes a ring of the idle thread alone. -/
theorem RingsOk.initCpu (hok : RingsOk w rings) (hc : c ∉ w.online) :
    RingsOk { w.setCpu c (schedInitCpu c (w.cpus c) w.mem) with online := insert c w.online }
      (Function.update rings c [.idle c]) := by
  have hnull := hok.offline c hc
  have hother : ∀ {c' x}, c' ∈ w.online → x ∈ rings c' → x ≠ .idle c := fun hc' hx =>
    hok.ringMembers.ne_idle hc hc' hx
  have hmembers := hok.ringMembers.initCpu hc
  have hmem : ∀ {c'}, c' ≠ c → c' ∈ insert c w.online → c' ∈ w.online := fun hne h =>
    (Finset.mem_insert.mp h).resolve_left hne
  simp only [World.setCpu, schedInitCpu, queuePushBack, hnull, if_true, initThread]
  refine ⟨fun c' hc' => ?_, fun c' hc' => ?_, fun c' hc' => ?_, fun c' hc' => ?_, hmembers.kind,
    hmembers.cpuId⟩
  · by_cases heq : c' = c
    · subst heq
      simp
    · simp only [Function.update_of_ne heq]
      exact hok.head c' (hmem heq hc')
  · by_cases heq : c' = c
    · subst heq
      rw [Function.update_self]
      exact Ring.single (by simp) (by simp)
    · rw [Function.update_of_ne heq]
      apply (hok.circular c' (hmem heq hc')).congr <;> intro x hx
      · simp [Function.update_of_ne (hother (hmem heq hc') hx)]
      · simp [Function.update_of_ne (hother (hmem heq hc') hx)]
  · by_cases heq : c' = c
    · subst heq
      simp [World.cur]
    · simp only [World.cur, Function.update_of_ne heq]
      exact hok.cur c' (hmem heq hc')
  · have hne : c' ≠ c := by
      rintro rfl
      exact hc' (Finset.mem_insert_self _ _)
    simp only [Function.update_of_ne hne]
    exact hok.offline c' fun h => hc' (Finset.mem_insert_of_mem h)

/-- The operations that call the scheduler complete, and make a thread of the ring current. -/
theorem RingsOk.schedule (hok : RingsOk w rings) (hc : c ∈ w.online) {op : Op}
    (hop : op = .tick c ∨ (∃ ms, op = .sleep c ms) ∨ op = .finishWait c) :
    ∃ w', w.step op = some w' ∧ RingsOk w' rings ∧ w'.online = w.online ∧ w'.live = w.live ∧
      ∀ c' ≠ c, w'.cur c' = w.cur c' := by
  have hhead := hok.head c hc
  have hring := hok.circular c hc
  have hcur : (w.cpus c).curThread ∈ rings c := hok.cur c hc
  have hlen := hok.length_le hc
  have hother : ∀ (r : Cpu × Threads) (c' : ℕ), c' ≠ c → (w.setCpu c r).cur c' = w.cur c' := by
    intro r c' hne
    simp only [World.cur, World.setCpu, Function.update_of_ne hne]
  rcases hop with rfl | ⟨ms, rfl⟩ | rfl
  · obtain ⟨cpu', h', htick, hhead', hcur', hlinked⟩ := schedTick_mem hhead hring hcur hlen
    refine ⟨_, ?_, hok.setCpu hc hhead' hcur' hlinked w.locked, rfl, rfl, hother (cpu', h')⟩
    rw [World.step, htick, Option.map_some]
    rfl
  · obtain ⟨cpu', h', hsleep, hhead', hcur', hlinked⟩ := schedSleep_mem ms hhead hring hcur hlen
    refine ⟨_, ?_, hok.setCpu hc hhead' hcur' hlinked w.locked, rfl, rfl, hother (cpu', h')⟩
    rw [World.step, hsleep, Option.map_some]
    rfl
  · obtain ⟨cpu', h', hyield, hhead', hcur', hlinked⟩ := schedYieldLocked_mem hhead hring hlen
    refine ⟨_, ?_, hok.setCpu hc hhead' hcur' hlinked (Function.update w.locked c false), rfl, rfl,
      hother (cpu', h')⟩
    rw [World.step, hyield, Option.map_some]

/-- Before any CPU is up there are no rings. -/
theorem World.Boot.ringsOk (h : w.Boot) : RingsOk w fun _ => [] := by
  obtain ⟨honline, hlive, hthreads, -⟩ := h
  have hnone : ∀ c, c ∉ w.online := by simp [honline]
  exact ⟨fun c hc => absurd hc (hnone c), fun c hc => absurd hc (hnone c),
    fun c hc => absurd hc (hnone c), fun c _ => hthreads c, fun c hc => absurd hc (hnone c),
    fun c hc => absurd hc (hnone c)⟩

end Rings

end Smor.Sched
