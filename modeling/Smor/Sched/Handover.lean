import Smor.Sched.Modes

/-!
# The hand-over of the CPU lock

A thread that calls the scheduler holds the lock of its CPU, and the thread that is switched to
releases it, on the path on which that thread had been switched away from: in an interrupt
handler, in a call, or at its start. The invariant gives every frame a mode: the innermost
frame of a thread that is not current waits with the lock of its CPU, and the frames below have
been interrupted, without that lock. The current thread of a CPU accounts for the lock alone.
-/

namespace Smor.Sched

open Smor.Lib

/-- A function is at a point that has the given mode, and keeps to the discipline from there. -/
structure FrameOk (c : ℕ) (mode : Mode) (f : Frame) : Prop where
  wf : mode.Wf c
  cpu : ∀ x, mode.cpu = some x → f.cpu = x
  loc : mode.loc = true → f.spl = false
  accepts : Accepts c mode f.code

/-- The frames of a thread have the given modes. All but the innermost have been interrupted. -/
structure StackOk (c : ℕ) (strict : Bool) (modes : List Mode) (frames : List Frame) : Prop where
  frame : List.Forall₂ (FrameOk c) modes frames
  below : ∀ mode ∈ modes.tail, mode.hi = false
  nodup : (modes.filterMap Mode.held).Nodup
  /-- A handler that takes the lock of another CPU has interrupted no function that holds one. -/
  clear : strict = true → modes.Pairwise fun mode mode' => mode.own = false → mode'.held = none

/-- The innermost function of a thread waits in the scheduler with the lock of its CPU, or the
thread is new. -/
def Suspended (c : ℕ) (modes : List Mode) (frames : List Frame) : Prop :=
  ∃ mode below f rest, modes = mode :: below ∧ frames = f :: rest ∧ mode.suspended c ∧
    (f.code.head? = some .unlock ∨ f.code = Code.threadStart)

/-- The modes of all frames, and the locks that they account for. -/
structure MachineOk (strict : Bool) (m : Machine) (rings : ℕ → List ThreadRef)
    (modes : ThreadRef → List Mode) : Prop where
  ring : RingsOk m.world rings
  stack : ∀ c ∈ m.world.online, ∀ t ∈ rings c, StackOk c strict (modes t) (m.frames t)
  /-- A thread that is not current has been switched away from, or is new. -/
  suspended : ∀ c ∈ m.world.online, ∀ t ∈ rings c, t ≠ m.world.cur c →
    Suspended c (modes t) (m.frames t)
  current : ∀ c ∈ m.world.online, ∀ mode ∈ (modes (m.world.cur c)).head?,
    (mode.hi = true → m.intr c = false) ∧ (mode.glob = true → m.spl c = false)
  /-- The current thread accounts for the lock of its CPU. -/
  own : ∀ c ∈ m.world.online,
    m.HoldsOwn c ↔ ∃ mode ∈ (modes (m.world.cur c)).head?, mode.held = some c
  /-- Each thread accounts for the locks of other CPUs that it has taken. -/
  remote : ∀ c ∈ m.world.online, ∀ t ∈ rings c, ∀ d ≠ c,
    m.lock d = some (c, t) ↔ ∃ mode ∈ modes t, mode.held = some d
  holder : ∀ d c t, m.lock d = some (c, t) → c ∈ m.world.online ∧ t ∈ rings c

section Updates

variable {strict : Bool} {m m' : Machine} {rings : ℕ → List ThreadRef}
  {modes : ThreadRef → List Mode} {c : ℕ} {ms : List Mode} {fs : List Frame}

/-- New frames for the current thread of one CPU, and a change of the locks that they account
for. -/
theorem MachineOk.update (h : MachineOk strict m rings modes) (hc : c ∈ m.world.online)
    (hstack : StackOk c strict ms fs)
    (hframes : m'.frames = Function.update m.frames (m.world.cur c) fs)
    (hrings : RingsOk m'.world rings) (honline : m'.world.online = m.world.online)
    (hcur : ∀ c' ≠ c, m'.world.cur c' = m.world.cur c')
    (hswitch : m'.world.cur c ≠ m.world.cur c → Suspended c ms fs)
    (hintr : ∀ c' ≠ c, m'.intr c' = m.intr c') (hspl : ∀ c' ≠ c, m'.spl c' = m.spl c')
    (hhead : ∀ mode ∈ ms.head?,
      (mode.hi = true → m'.intr c = false) ∧ (mode.glob = true → m'.spl c = false))
    (hown : m'.HoldsOwn c ↔ ∃ mode ∈ ms.head?, mode.held = some c)
    (hremote : ∀ d ≠ c, m'.lock d = some (c, m.world.cur c) ↔ ∃ mode ∈ ms, mode.held = some d)
    (hothers : ∀ d c' t, d ≠ c' → t ≠ m.world.cur c →
      (m'.lock d = some (c', t) ↔ m.lock d = some (c', t)))
    (hown' : ∀ c' ≠ c, m'.HoldsOwn c' ↔ m.HoldsOwn c')
    (hholder : ∀ d c' t, m'.lock d = some (c', t) → c' ∈ m.world.online ∧ t ∈ rings c') :
    MachineOk strict m' rings (Function.update modes (m.world.cur c) ms) := by
  have hmem := h.ring.cur c hc
  have hother : ∀ {c' t}, c' ∈ m.world.online → c' ≠ c → t ∈ rings c' → t ≠ m.world.cur c := by
    rintro c' t hc' hne ht rfl
    exact hne (h.ring.eq_of_mem hc' hc ht hmem)
  have hcur' : ∀ {c'}, c' ∈ m.world.online → c' ≠ c → m'.world.cur c' ≠ m.world.cur c := by
    intro c' hc' hne
    rw [hcur c' hne]
    exact hother hc' hne (h.ring.cur c' hc')
  have hcase : ∀ c' t, t ∈ rings c' → c' ∈ m.world.online → t = m.world.cur c → c' = c := by
    rintro c' t ht hc' rfl
    exact h.ring.eq_of_mem hc' hc ht hmem
  refine ⟨hrings, fun c' hc' t ht => ?_, fun c' hc' t ht hne => ?_, fun c' hc' => ?_,
    fun c' hc' => ?_, fun c' hc' t ht d hd => ?_, ?_⟩
  · rw [honline] at hc'
    rw [hframes]
    by_cases htc : t = m.world.cur c
    · obtain rfl := hcase c' t ht hc' htc
      rw [htc, Function.update_self, Function.update_self]
      exact hstack
    · rw [Function.update_of_ne htc, Function.update_of_ne htc]
      exact h.stack c' hc' t ht
  · rw [honline] at hc'
    rw [hframes]
    by_cases htc : t = m.world.cur c
    · obtain rfl := hcase c' t ht hc' htc
      rw [htc, Function.update_self, Function.update_self]
      rw [htc] at hne
      exact hswitch (Ne.symm hne)
    · rw [Function.update_of_ne htc, Function.update_of_ne htc]
      by_cases hcc : c' = c
      · subst hcc
        exact h.suspended c' hc' t ht htc
      · rw [hcur c' hcc] at hne
        exact h.suspended c' hc' t ht hne
  · rw [honline] at hc'
    by_cases hcc : c' = c
    · subst hcc
      by_cases hsame : m'.world.cur c' = m.world.cur c'
      · rw [hsame, Function.update_self]
        exact hhead
      · -- the thread that has been switched to finds interrupts off
        rw [Function.update_of_ne hsame]
        obtain ⟨mode, below, f, rest, rfl, rfl, hsusp, -⟩ := hswitch hsame
        have hwf := (List.forall₂_cons.mp hstack.frame).1.wf
        obtain ⟨mode', below', f', rest', hmodes, -, hsusp', -⟩ :=
          h.suspended c' hc' _ (hrings.cur c' (by rwa [honline])) hsame
        rw [hmodes]
        intro mode₁ hmode₁
        obtain rfl := Option.some.inj hmode₁
        refine ⟨fun _ => (hhead mode rfl).1 (hwf.held hsusp.1), fun hglob => ?_⟩
        rw [hsusp'.2] at hglob
        exact absurd hglob (by decide)
    · rw [hcur c' hcc, Function.update_of_ne (hother hc' hcc (h.ring.cur c' hc')), hintr c' hcc,
        hspl c' hcc]
      exact h.current c' hc'
  · rw [honline] at hc'
    by_cases hcc : c' = c
    · subst hcc
      by_cases hsame : m'.world.cur c' = m.world.cur c'
      · rw [hsame, Function.update_self]
        exact hown
      · rw [Function.update_of_ne hsame, hown]
        obtain ⟨mode, below, f, rest, rfl, rfl, hsusp, -⟩ := hswitch hsame
        obtain ⟨mode', below', f', rest', hmodes, -, hsusp', -⟩ :=
          h.suspended c' hc' _ (hrings.cur c' (by rwa [honline])) hsame
        rw [hmodes]
        exact ⟨fun _ => ⟨mode', rfl, hsusp'.1⟩, fun _ => ⟨mode, rfl, hsusp.1⟩⟩
    · rw [hcur c' hcc, Function.update_of_ne (hother hc' hcc (h.ring.cur c' hc')), hown' c' hcc]
      exact h.own c' hc'
  · rw [honline] at hc'
    by_cases htc : t = m.world.cur c
    · obtain rfl := hcase c' t ht hc' htc
      rw [htc, Function.update_self]
      exact hremote d hd
    · rw [Function.update_of_ne htc, hothers d c' t hd htc]
      exact h.remote c' hc' t ht d hd
  · rw [honline]
    exact hholder

/-- Another mode for the innermost frame. -/
theorem StackOk.replace {mode mode' : Mode} {below : List Mode} {f f' : Frame}
    {rest : List Frame} (h : StackOk c strict (mode :: below) (f :: rest))
    (hframe : FrameOk c mode' f') (hown : mode'.own = mode.own)
    (hheld : ∀ d, mode'.held = some d → mode.held = some d ∨ ∀ b ∈ below, b.held ≠ some d) :
    StackOk c strict (mode' :: below) (f' :: rest) := by
  refine ⟨List.Forall₂.cons hframe (List.forall₂_cons.mp h.frame).2, h.below, ?_, fun hstrict => ?_⟩
  rotate_left
  · rw [List.pairwise_cons, hown]
    exact List.pairwise_cons.mp (h.clear hstrict)
  have hnodup := h.nodup
  have htail : (below.filterMap Mode.held).Nodup :=
    hnodup.sublist (List.Sublist.filterMap _ (List.sublist_cons_self mode below))
  cases hcase : mode'.held with
  | none => rwa [List.filterMap_cons_none hcase]
  | some d =>
    rw [List.filterMap_cons_some hcase, List.nodup_cons]
    refine ⟨?_, htail⟩
    rcases hheld d hcase with hold | hnew
    · rw [List.filterMap_cons_some hold, List.nodup_cons] at hnodup
      exact hnodup.1
    · intro hmem
      obtain ⟨b, hb, hbd⟩ := List.mem_filterMap.mp hmem
      exact hnew b hb hbd

variable {mode mode' : Mode} {below : List Mode} {f f' : Frame} {rest : List Frame}

/-- A step of the innermost function that neither takes nor releases the lock of a CPU. -/
theorem MachineOk.keep (h : MachineOk strict m rings modes) (hc : c ∈ m.world.online)
    (hmodes : modes (m.world.cur c) = mode :: below)
    (hstack : StackOk c strict (mode :: below) (f :: rest)) (f' : Frame)
    (hframe : FrameOk c mode' f') (hheld : mode'.held = mode.held) (hown' : mode'.own = mode.own)
    (hlock : m'.lock = m.lock)
    (hframes : m'.frames = Function.update m.frames (m.world.cur c) (f' :: rest))
    (hrings : RingsOk m'.world rings) (honline : m'.world.online = m.world.online)
    (hcur : ∀ c' ≠ c, m'.world.cur c' = m.world.cur c')
    (hswitch : m'.world.cur c ≠ m.world.cur c →
      mode'.suspended c ∧ f'.code.head? = some .unlock)
    (hintr : ∀ c' ≠ c, m'.intr c' = m.intr c') (hspl : ∀ c' ≠ c, m'.spl c' = m.spl c')
    (hhi : mode'.hi = true → m'.intr c = false) (hglob : mode'.glob = true → m'.spl c = false) :
    MachineOk strict m' rings (Function.update modes (m.world.cur c) (mode' :: below)) := by
  have hown := h.own c hc
  have hremote := h.remote c hc _ (h.ring.cur c hc)
  rw [hmodes] at hown hremote
  refine h.update hc (hstack.replace hframe hown' fun d hd => Or.inl (hheld ▸ hd)) hframes hrings
    honline hcur
    (fun hne => ⟨mode', below, f', rest, rfl, rfl, (hswitch hne).1, Or.inl (hswitch hne).2⟩)
    hintr hspl ?_ ?_ (fun d hd => ?_) ?_ ?_ ?_
  · intro mode₁ hmode₁
    obtain rfl := Option.some.inj hmode₁
    exact ⟨hhi, hglob⟩
  · simp only [Machine.HoldsOwn, hlock] at hown ⊢
    rw [hown]
    simp [hheld]
  · rw [hlock, hremote d hd]
    simp [hheld]
  · intro d c' t _ _
    rw [hlock]
  · intro c' _
    simp only [Machine.HoldsOwn, hlock]
  · rw [hlock]
    exact h.holder

/-- The frames below the innermost one. -/
theorem StackOk.tail (h : StackOk c strict (mode :: below) (f :: rest)) :
    StackOk c strict below rest :=
  ⟨(List.forall₂_cons.mp h.frame).2, fun b hb => h.below b (List.mem_of_mem_tail hb),
    h.nodup.sublist (List.Sublist.filterMap _ (List.sublist_cons_self _ _)),
    fun hstrict => (List.pairwise_cons.mp (h.clear hstrict)).2⟩

theorem StackOk.wf (h : StackOk c strict ms fs) : ∀ mode ∈ ms, mode.Wf c := by
  have hframe := h.frame
  induction hframe with
  | nil => simp
  | cons hf hrest ih =>
    intro mode hmode
    rcases List.mem_cons.mp hmode with rfl | hmode
    · exact hf.wf
    · exact ih h.tail mode hmode

/-- Functions none of which is between a lock and its release hold no lock. -/
theorem StackOk.held_none (h : StackOk c strict ms fs)
    (hfs : ∀ f ∈ fs, nextLockStep f.code ≠ some .unlock) : ∀ mode ∈ ms, mode.held = none := by
  have hframe := h.frame
  induction hframe with
  | nil => simp
  | cons hf hrest ih =>
    intro mode hmode
    rcases List.mem_cons.mp hmode with rfl | hmode
    · by_contra hheld
      exact hfs _ List.mem_cons_self (hf.accepts.nextLockStep.mpr hheld)
    · exact ih h.tail (fun f hf => hfs f (List.mem_cons_of_mem _ hf)) mode hmode

/-- An interrupted frame does not hold the lock of its own CPU. -/
theorem StackOk.held_below (h : StackOk c strict (mode :: below) fs) :
    ∀ b ∈ below, b.held ≠ some c := by
  intro b hb hheld
  have hhi := (h.wf b (List.mem_cons_of_mem _ hb)).held hheld
  rw [h.below b hb] at hhi
  exact absurd hhi (by decide)

/-- A function takes the lock of a CPU. -/
theorem MachineOk.lock (h : MachineOk strict m rings modes) (hc : c ∈ m.world.online)
    (hmodes : modes (m.world.cur c) = mode :: below)
    (hstack : StackOk c strict (mode :: below) (f :: rest))
    (hmode : Instr.lock.mode c mode = some mode')
    (hframe : FrameOk c mode' f') (hcpu : f'.cpu = f.cpu) (hfree : m.lock f.cpu = none) :
    MachineOk strict
      { m.setTop c (f' :: rest) with
        lock := Function.update m.lock f.cpu (some (c, m.world.cur c)) }
      rings (Function.update modes (m.world.cur c) (mode' :: below)) := by
  have hcurrent := h.current c hc mode (by simp [hmodes])
  have hown := h.own c hc
  have hremote := h.remote c hc _ (h.ring.cur c hc)
  rw [hmodes] at hown hremote
  simp only [Instr.mode] at hmode
  split_ifs at hmode with hcond
  cases hmode
  obtain ⟨hheld, hsome, -⟩ := hcond
  obtain ⟨d, hd⟩ := Option.isSome_iff_exists.mp hsome
  have hfd : f.cpu = d := hcpu ▸ hframe.cpu d hd
  rw [hfd] at hfree ⊢
  have hbelow : ∀ b ∈ below, b.held ≠ some d := by
    intro b hb hbd
    by_cases hdc : d = c
    · exact hstack.held_below b hb (hdc ▸ hbd)
    · have htaken := (hremote d hdc).mpr ⟨b, List.mem_cons_of_mem _ hb, hbd⟩
      rw [hfree] at htaken
      exact absurd htaken (by simp)
  refine h.update hc (hstack.replace hframe rfl fun d' hd' => Or.inr ?_) rfl h.ring rfl
    (fun _ _ => rfl) (fun hne => absurd rfl hne) (fun _ _ => rfl) (fun _ _ => rfl) ?_ ?_
    (fun d' hd' => ?_) (fun d' c' t hd' ht => ?_) (fun c' hc' => ?_) (fun d' c' t ht => ?_)
  · obtain rfl : d = d' := Option.some.inj (hd.symm.trans hd')
    exact hbelow
  · intro mode₁ hmode₁
    obtain rfl := Option.some.inj hmode₁
    exact hcurrent
  · by_cases hdc : d = c
    · subst hdc
      simp [Machine.HoldsOwn, hd]
    · have hnot : ¬ m.HoldsOwn c := by
        rw [hown]
        simp [hheld]
      simp only [Machine.HoldsOwn] at hnot ⊢
      rw [Function.update_of_ne (Ne.symm hdc)]
      simp [hnot, hd, hdc]
  · by_cases hdd : d' = d
    · subst hdd
      simp [hd]
    · dsimp only
      rw [Function.update_of_ne hdd, hremote d' hd']
      simp [hheld, hd, Ne.symm hdd]
  · by_cases hdd : d' = d
    · subst hdd
      simp [hfree, Ne.symm ht]
    · dsimp only
      rw [Function.update_of_ne hdd]
  · simp only [Machine.HoldsOwn]
    by_cases hdd : c' = d
    · subst hdd
      simp [hfree, Ne.symm hc']
    · rw [Function.update_of_ne hdd]
  · dsimp only at ht
    by_cases hdd : d' = d
    · subst hdd
      rw [Function.update_self, Option.some.injEq, Prod.mk.injEq] at ht
      obtain ⟨rfl, rfl⟩ := ht
      exact ⟨hc, h.ring.cur c hc⟩
    · rw [Function.update_of_ne hdd] at ht
      exact h.holder d' c' t ht

/-- What a function that holds the lock of a CPU knows about it. -/
theorem MachineOk.held_eq (h : MachineOk strict m rings modes) (hc : c ∈ m.world.online)
    (hmodes : modes (m.world.cur c) = mode :: below) {d : ℕ} (hheld : mode.held = some d) :
    ∃ t, m.lock d = some (c, t) ∧ (d ≠ c → t = m.world.cur c) := by
  by_cases hdc : d = c
  · subst hdc
    obtain ⟨t, ht⟩ := (h.own d hc).mpr ⟨mode, by simp [hmodes], hheld⟩
    exact ⟨t, ht, fun hne => absurd rfl hne⟩
  · exact ⟨_, (h.remote c hc _ (h.ring.cur c hc) d hdc).mpr ⟨mode, by simp [hmodes], hheld⟩,
      fun _ => rfl⟩

/-- A function releases the lock of a CPU. -/
theorem MachineOk.unlock (h : MachineOk strict m rings modes) (hc : c ∈ m.world.online)
    (hmodes : modes (m.world.cur c) = mode :: below)
    (hstack : StackOk c strict (mode :: below) (f :: rest))
    (hmode : Instr.unlock.mode c mode = some mode')
    (hframe : FrameOk c mode' f') (hcpu : f'.cpu = f.cpu) :
    MachineOk strict { m.setTop c (f' :: rest) with lock := Function.update m.lock f.cpu none }
      rings (Function.update modes (m.world.cur c) (mode' :: below)) := by
  have hcurrent := h.current c hc mode (by simp [hmodes])
  have hown := h.own c hc
  have hremote := h.remote c hc _ (h.ring.cur c hc)
  rw [hmodes] at hown hremote
  simp only [Instr.mode] at hmode
  split_ifs at hmode with hcond
  cases hmode
  obtain ⟨hsome, hsame⟩ := hcond
  obtain ⟨d, hd⟩ := Option.isSome_iff_exists.mp hsome
  have hfd : f.cpu = d := hcpu ▸ hframe.cpu d (hsame.symm.trans hd)
  obtain ⟨t₀, htaken, htc⟩ := h.held_eq hc hmodes hd
  have hbelow : ∀ b ∈ below, b.held ≠ some d := by
    intro b hb hbd
    have hnodup := hstack.nodup
    rw [List.filterMap_cons_some hd, List.nodup_cons] at hnodup
    exact hnodup.1 (List.mem_filterMap.mpr ⟨b, hb, hbd⟩)
  rw [hfd]
  refine h.update hc (hstack.replace hframe rfl fun d' hd' => ?_) rfl h.ring rfl
    (fun _ _ => rfl) (fun hne => absurd rfl hne) (fun _ _ => rfl) (fun _ _ => rfl) ?_ ?_
    (fun d' hd' => ?_) (fun d' c' t hd' ht => ?_) (fun c' hc' => ?_) (fun d' c' t ht => ?_)
  · exact absurd hd' (by simp)
  · intro mode₁ hmode₁
    obtain rfl := Option.some.inj hmode₁
    exact hcurrent
  · by_cases hdc : d = c
    · subst hdc
      simp [Machine.HoldsOwn]
    · have hnot : ¬ m.HoldsOwn c := by
        rw [hown]
        simp [hd, hdc]
      simp only [Machine.HoldsOwn] at hnot ⊢
      rw [Function.update_of_ne (Ne.symm hdc)]
      simp [hnot]
  · by_cases hdd : d' = d
    · subst hdd
      simp only [Function.update_self]
      simpa using hbelow
    · dsimp only
      rw [Function.update_of_ne hdd, hremote d' hd']
      simp [hd, Ne.symm hdd]
  · by_cases hdd : d' = d
    · subst hdd
      simp only [Function.update_self, htaken, reduceCtorEq, false_iff, Option.some.injEq,
        Prod.mk.injEq, not_and]
      rintro rfl rfl
      exact ht (htc hd')
    · dsimp only
      rw [Function.update_of_ne hdd]
  · simp only [Machine.HoldsOwn]
    by_cases hdd : c' = d
    · subst hdd
      simp [htaken, Ne.symm hc']
    · rw [Function.update_of_ne hdd]
  · dsimp only at ht
    by_cases hdd : d' = d
    · subst hdd
      simp at ht
    · rw [Function.update_of_ne hdd] at ht
      exact h.holder d' c' t ht

/-- A function is entered: a call of a thread that is in none, or a handler that interrupts one
which has not switched interrupts off. -/
theorem MachineOk.push (h : MachineOk strict m rings modes) (hc : c ∈ m.world.online)
    (hidle : ∀ mode ∈ (modes (m.world.cur c)).head?, mode.hi = false) {hi own : Bool}
    (hclear : strict = true → own = false → ∀ mode ∈ modes (m.world.cur c), mode.held = none)
    (hframe : FrameOk c (Mode.entry hi own) f) (hlock : m'.lock = m.lock)
    (hframes : m'.frames =
      Function.update m.frames (m.world.cur c) (f :: m.frames (m.world.cur c)))
    (hworld : m'.world = m.world) (hintr : ∀ c' ≠ c, m'.intr c' = m.intr c')
    (hspl : m'.spl = m.spl) (hhi : hi = true → m'.intr c = false) :
    MachineOk strict m' rings
      (Function.update modes (m.world.cur c) (Mode.entry hi own :: modes (m.world.cur c))) := by
  have hmem := h.ring.cur c hc
  have hstack := h.stack c hc _ hmem
  have hbelow : ∀ mode ∈ modes (m.world.cur c), mode.hi = false := by
    intro mode hmode
    cases hcase : modes (m.world.cur c) with
    | nil => simp [hcase] at hmode
    | cons first rest =>
      rw [hcase] at hmode hidle
      rcases List.mem_cons.mp hmode with rfl | hmode
      · exact hidle mode rfl
      · exact hstack.below mode (by simpa [hcase] using hmode)
  have hnot : ¬ m.HoldsOwn c := by
    rw [h.own c hc]
    rintro ⟨mode, hmode, hheld⟩
    have hhi' := (hstack.wf mode (List.mem_of_mem_head? hmode)).held hheld
    rw [hidle mode hmode] at hhi'
    exact absurd hhi' (by decide)
  refine h.update hc ⟨List.Forall₂.cons hframe hstack.frame, hbelow, ?_, fun hstrict => ?_⟩
    hframes (hworld ▸ h.ring) (by rw [hworld]) (fun _ _ => by rw [hworld])
    (fun hne => absurd (by rw [hworld]) hne) hintr
    (fun _ _ => by rw [hspl]) ?_ ?_ (fun d hd => ?_) ?_ ?_ ?_
  · rw [List.filterMap_cons_none rfl]
    exact hstack.nodup
  · exact List.pairwise_cons.mpr ⟨fun mode hmode hown => hclear hstrict hown mode hmode,
      hstack.clear hstrict⟩
  · intro mode hmode
    obtain rfl := Option.some.inj hmode
    exact ⟨hhi, fun hglob => absurd hglob (by simp [Mode.entry])⟩
  · simp only [Machine.HoldsOwn, hlock] at hnot ⊢
    simp [hnot, Mode.entry]
  · rw [hlock, h.remote c hc _ hmem d hd]
    simp [Mode.entry]
  · intro d c' t _ _
    rw [hlock]
  · intro c' _
    simp only [Machine.HoldsOwn, hlock]
  · rw [hlock]
    exact h.holder

/-- A function that holds no lock returns, to a function that it has interrupted or to none. -/
theorem MachineOk.pop (h : MachineOk strict m rings modes) (hc : c ∈ m.world.online)
    (hmodes : modes (m.world.cur c) = mode :: below)
    (hstack : StackOk c strict (mode :: below) (f :: rest)) (hheld : mode.held = none)
    (hlock : m'.lock = m.lock)
    (hframes : m'.frames = Function.update m.frames (m.world.cur c) rest)
    (hworld : m'.world = m.world) (hintr : ∀ c' ≠ c, m'.intr c' = m.intr c')
    (hspl : m'.spl = m.spl) :
    MachineOk strict m' rings (Function.update modes (m.world.cur c) below) := by
  have hown := h.own c hc
  have hremote := h.remote c hc _ (h.ring.cur c hc)
  rw [hmodes] at hown hremote
  refine h.update hc hstack.tail hframes (hworld ▸ h.ring)
    (by rw [hworld]) (fun _ _ => by rw [hworld]) (fun hne => absurd (by rw [hworld]) hne) hintr
    (fun _ _ => by rw [hspl]) ?_ ?_ (fun d hd => ?_) ?_ ?_ ?_
  · -- the function below has been interrupted, and knows nothing about the flags
    intro b hb
    have hb := List.mem_of_mem_head? hb
    have hoff : b.hi = false := hstack.below b hb
    refine ⟨fun hhi => absurd hhi (by simp [hoff]), fun hglob => ?_⟩
    have hhi := (hstack.wf b (List.mem_cons_of_mem _ hb)).glob hglob
    exact absurd hhi (by simp [hoff])
  · simp only [Machine.HoldsOwn, hlock] at hown ⊢
    rw [hown]
    constructor
    · rintro ⟨mode₁, hmode₁, hheld₁⟩
      obtain rfl := Option.some.inj hmode₁
      rw [hheld] at hheld₁
      exact absurd hheld₁ (by simp)
    · rintro ⟨b, hb, hbc⟩
      exact absurd hbc (hstack.held_below b (List.mem_of_mem_head? hb))
  · rw [hlock, hremote d hd]
    simp [hheld]
  · intro d c' t _ _
    rw [hlock]
  · intro c' _
    simp only [Machine.HoldsOwn, hlock]
  · rw [hlock]
    exact h.holder

/-- A new thread has the frame that `thread_create` has built, as if it had been switched away
from. -/
theorem MachineOk.addThread (h : MachineOk strict m rings modes) {d n : ℕ}
    (hd : d ∈ m.world.online) (hn : n ∉ m.world.live) {w : World}
    (hstep : m.world.step (.create d n) = some w) :
    MachineOk strict
      { m with
        world := w
        frames := Function.update m.frames (.alloc n) [Frame.fresh] }
      (Function.update rings d (rings d ++ [.alloc n]))
      (Function.update modes (.alloc n) [{ Mode.entry true true with held := some d }]) := by
  cases hstep
  have hold : ∀ {c t}, c ∈ m.world.online → t ∈ rings c → t ≠ .alloc n := by
    rintro c t hc ht rfl
    exact h.ring.alloc_notMem hc hn ht
  have hcase : ∀ {c t}, t ∈ Function.update rings d (rings d ++ [.alloc n]) c →
      t ∈ rings c ∨ (c = d ∧ t = .alloc n) := by
    intro c t ht
    by_cases hcd : c = d
    · subst hcd
      rw [Function.update_self, List.mem_append, List.mem_singleton] at ht
      exact ht.imp_right fun heq => ⟨rfl, heq⟩
    · rw [Function.update_of_ne hcd] at ht
      exact Or.inl ht
  have hcur : ∀ c, (m.world.setCpu d
      (threadCreate d (m.world.cpus d) (.alloc n) m.world.mem)).cur c = m.world.cur c :=
    h.ring.cur_create hd
  have hcurNe : ∀ {c}, c ∈ m.world.online → m.world.cur c ≠ .alloc n := fun hc =>
    hold hc (h.ring.cur _ hc)
  have hfresh : StackOk d strict [{ Mode.entry true true with held := some d }] [Frame.fresh] := by
    refine ⟨List.Forall₂.cons ⟨⟨fun _ => rfl, fun _ => rfl⟩, ?_, ?_, ?_⟩
      List.Forall₂.nil, by simp, by simp, by simp⟩
    · simp [Mode.entry]
    · simp [Mode.entry]
    · exact (accepts_handlers 0).2.2.2
  refine ⟨h.ring.create hd hn, fun c hc t ht => ?_, fun c hc t ht hne => ?_, fun c hc => ?_,
    fun c hc => ?_, fun c hc t ht x hx => ?_, fun x c t hx => ?_⟩
  · rcases hcase ht with ht | ⟨rfl, rfl⟩
    · dsimp only
      rw [Function.update_of_ne (hold hc ht), Function.update_of_ne (hold hc ht)]
      exact h.stack c hc t ht
    · dsimp only
      rw [Function.update_self, Function.update_self]
      exact hfresh
  · rcases hcase ht with ht | ⟨rfl, rfl⟩
    · dsimp only
      rw [Function.update_of_ne (hold hc ht), Function.update_of_ne (hold hc ht)]
      exact h.suspended c hc t ht fun heq => hne (heq.trans (hcur c).symm)
    · dsimp only
      rw [Function.update_self, Function.update_self]
      exact ⟨_, _, _, _, rfl, rfl, ⟨rfl, rfl⟩, Or.inr rfl⟩
  · change ∀ mode ∈ (Function.update modes _ _ ((m.world.setCpu d _).cur c)).head?, _
    rw [hcur, Function.update_of_ne (hcurNe hc)]
    exact h.current c hc
  · change _ ↔ ∃ mode ∈ (Function.update modes _ _ ((m.world.setCpu d _).cur c)).head?, _
    rw [hcur, Function.update_of_ne (hcurNe hc)]
    exact h.own c hc
  · rcases hcase ht with ht | ⟨rfl, rfl⟩
    · rw [Function.update_of_ne (hold hc ht)]
      exact h.remote c hc t ht x hx
    · rw [Function.update_self]
      refine ⟨fun hlock => ?_, fun hheld => ?_⟩
      · exact absurd (h.holder x c _ hlock).2 (h.ring.alloc_notMem hd hn)
      · simp at hheld
        exact absurd hheld.symm hx
  · obtain ⟨hc, ht⟩ := h.holder x c t hx
    refine ⟨hc, ?_⟩
    by_cases hcd : c = d
    · subst hcd
      rw [Function.update_self]
      exact List.mem_append_left _ ht
    · rw [Function.update_of_ne hcd]
      exact ht

/-- A CPU comes up and runs its idle thread, which is in no kernel function. -/
theorem MachineOk.init (h : MachineOk strict m rings modes) (hc : c ∉ m.world.online) {w : World}
    (hstep : m.world.step (.initCpu c) = some w) (intr : ℕ → Bool)
    (hintr : ∀ c' ≠ c, intr c' = m.intr c') :
    MachineOk strict
      { m with
        world := w
        intr := intr
        frames := Function.update m.frames (.idle c) [] }
      (Function.update rings c [.idle c]) (Function.update modes (.idle c) []) := by
  cases hstep
  have hother : ∀ {c' t}, c' ∈ m.world.online → t ∈ rings c' → t ≠ .idle c := by
    rintro c' t hc' ht rfl
    rcases h.ring.members c' hc' _ ht with heq | ⟨n, -, heq⟩
    · simp only [ThreadRef.idle.injEq] at heq
      exact hc (heq ▸ hc')
    · simp at heq
  have hmem : ∀ {c'}, c' ≠ c → c' ∈ insert c m.world.online → c' ∈ m.world.online := fun hne h =>
    (Finset.mem_insert.mp h).resolve_left hne
  have hcur : ∀ {c'}, c' ≠ c →
      (m.world.setCpu c (schedInitCpu c (m.world.cpus c) m.world.mem)).cur c' = m.world.cur c' := by
    intro c' hne
    simp only [World.cur, World.setCpu, Function.update_of_ne hne]
  have hcur' :
      (m.world.setCpu c (schedInitCpu c (m.world.cpus c) m.world.mem)).cur c = .idle c := by
    simp only [World.cur, World.setCpu, Function.update_self, schedInitCpu]
  have hfree : ∀ d t, m.lock d ≠ some (c, t) := fun d t hd => hc (h.holder d c t hd).1
  refine ⟨h.ring.initCpu hc, fun c' hc' t ht => ?_, fun c' hc' t ht hne => ?_, fun c' hc' => ?_,
    fun c' hc' => ?_, fun c' hc' t ht x hx => ?_, fun x c' t hx => ?_⟩
  · by_cases heq : c' = c
    · subst heq
      rw [Function.update_self] at ht
      dsimp only
      rw [List.mem_singleton.mp ht, Function.update_self, Function.update_self]
      exact ⟨List.Forall₂.nil, by simp, by simp, by simp⟩
    · rw [Function.update_of_ne heq] at ht
      have hne := hother (hmem heq hc') ht
      dsimp only
      rw [Function.update_of_ne hne, Function.update_of_ne hne]
      exact h.stack c' (hmem heq hc') t ht
  · by_cases heq : c' = c
    · subst heq
      rw [Function.update_self] at ht
      exact absurd ((List.mem_singleton.mp ht).trans hcur'.symm) hne
    · rw [Function.update_of_ne heq] at ht
      have hidle := hother (hmem heq hc') ht
      dsimp only
      rw [Function.update_of_ne hidle, Function.update_of_ne hidle]
      exact h.suspended c' (hmem heq hc') t ht fun ht' => hne (ht'.trans (hcur heq).symm)
  · change ∀ mode ∈ (Function.update modes _ _ ((m.world.setCpu c _).cur c')).head?, _
    by_cases heq : c' = c
    · subst heq
      rw [hcur', Function.update_self]
      simp
    · have hc'' := hmem heq hc'
      rw [hcur heq, Function.update_of_ne (hother hc'' (h.ring.cur c' hc''))]
      dsimp only
      rw [hintr c' heq]
      exact h.current c' hc''
  · change _ ↔ ∃ mode ∈ (Function.update modes _ _ ((m.world.setCpu c _).cur c')).head?, _
    by_cases heq : c' = c
    · subst heq
      rw [hcur', Function.update_self]
      simp [Machine.HoldsOwn, hfree]
    · have hc'' := hmem heq hc'
      rw [hcur heq, Function.update_of_ne (hother hc'' (h.ring.cur c' hc''))]
      exact h.own c' hc''
  · by_cases heq : c' = c
    · subst heq
      rw [Function.update_self] at ht
      rw [List.mem_singleton.mp ht, Function.update_self]
      simp [hfree]
    · rw [Function.update_of_ne heq] at ht
      rw [Function.update_of_ne (hother (hmem heq hc') ht)]
      exact h.remote c' (hmem heq hc') t ht x hx
  · obtain ⟨hc', ht⟩ := h.holder x c' t hx
    have hne : c' ≠ c := by
      rintro rfl
      exact hc hc'
    rw [Function.update_of_ne hne]
    exact ⟨Finset.mem_insert_of_mem hc', ht⟩

end Updates

section Steps

variable {strict : Bool} {m m' : Machine} {rings : ℕ → List ThreadRef}
  {modes : ThreadRef → List Mode} {c : ℕ} {f : Frame} {rest : List Frame} {code : List Instr}

/-- The push on a wait list, its pop, and the count of a semaphore have nothing to do with the
rings. -/
theorem linked_block (w : World) (c : ℕ) (i : WaitId) :
    Linked w.mem (w.block c i).mem ∧ (w.block c i).cpus = w.cpus ∧
      (w.block c i).online = w.online ∧ (w.block c i).live = w.live := by
  cases i with
  | sema s =>
    obtain ⟨nextWait, hpush⟩ := push_snd_eq (w.semas s).threads w.mem (w.cur c)
    simp only [World.block, World.blockSema, hpush]
    exact ⟨⟨rfl, rfl, rfl⟩, trivial, trivial, trivial⟩
  | cond k =>
    obtain ⟨nextWait, hpush⟩ := push_snd_eq (w.conds k) w.mem (w.cur c)
    simp only [World.block, World.blockCond, hpush]
    exact ⟨⟨rfl, rfl, rfl⟩, trivial, trivial, trivial⟩

theorem linked_unlist (w : World) (i : WaitId) : Linked w.mem (w.unlist i).mem ∧
    (w.unlist i).cpus = w.cpus ∧ (w.unlist i).online = w.online ∧ (w.unlist i).live = w.live := by
  cases i with
  | sema s => exact ⟨Linked.refl _, rfl, rfl, rfl⟩
  | cond k => exact ⟨Linked.refl _, rfl, rfl, rfl⟩

/-- The mode of the innermost frame, and the check of its next step. -/
theorem MachineOk.innermost (h : MachineOk strict m rings modes) (hc : c ∈ m.world.online)
    (hframes : m.frames (m.world.cur c) = f :: rest) :
    ∃ mode below, modes (m.world.cur c) = mode :: below ∧ FrameOk c mode f ∧
      StackOk c strict (mode :: below) (f :: rest) := by
  have hstack := h.stack c hc _ (h.ring.cur c hc)
  rw [hframes] at hstack
  obtain ⟨mode, below, hframe, -, hmodes⟩ := List.forall₂_cons_right_iff.mp hstack.frame
  rw [hmodes] at hstack
  exact ⟨mode, below, hmodes, hframe, hstack⟩

/-- A step of the scheduler, after which another thread may be current. -/
theorem MachineOk.switch (h : MachineOk strict m rings modes) (hc : c ∈ m.world.online)
    (hframes : m.frames (m.world.cur c) = f :: rest) {i : Instr} (hcode : f.code = i :: code)
    (hi : i = .tick ∨ (∃ ms, i = .sleep ms) ∨ i = .yieldLocked) {op : Op}
    (hop : op = .tick c ∨ (∃ ms, op = .sleep c ms) ∨ op = .finishWait c) {w : World}
    (hw : m.world.step op = some w) :
    ∃ modes', MachineOk strict
      { m.setTop c ({ f with code := code } :: rest) with world := w } rings modes' := by
  obtain ⟨mode, below, hmodes, hframe, hstack⟩ := h.innermost hc hframes
  have haccepts := hframe.accepts
  rw [hcode] at haccepts
  obtain ⟨mode', hmode, -, hunlock, hrest⟩ := haccepts
  have hwf := hframe.wf.step hmode
  have hhead : code.head? = some .unlock := by
    apply hunlock
    rcases hi with rfl | ⟨ms, rfl⟩ | rfl <;> rfl
  obtain ⟨w', hw', hrings, honline, -, hcur⟩ := h.ring.schedule hc hop
  rw [hw, Option.some.injEq] at hw'
  subst hw'
  have hmode' : mode.held = some c ∧ mode' = { mode with glob := false } := by
    rcases hi with rfl | ⟨ms, rfl⟩ | rfl <;>
    · simp only [Instr.mode] at hmode
      split_ifs at hmode with hheld
      exact ⟨hheld, (Option.some.inj hmode).symm⟩
  obtain ⟨hheld, rfl⟩ := hmode'
  refine ⟨_, h.keep hc hmodes hstack { f with code := code } ⟨hwf, hframe.cpu,
    hframe.loc, hrest⟩ rfl rfl rfl rfl hrings honline hcur (fun _ => ⟨⟨hheld, rfl⟩, hhead⟩)
    (fun _ _ => rfl) (fun _ _ => rfl) ?_ ?_⟩
  · exact (h.current c hc mode (by simp [hmodes])).1
  · intro hglob
    exact absurd hglob (by simp)

/-- A step that only moves on, or chooses what is left to do. -/
theorem MachineOk.advance (h : MachineOk strict m rings modes) (hc : c ∈ m.world.online)
    {mode mode' : Mode} {below : List Mode} (hmodes : modes (m.world.cur c) = mode :: below)
    (hstack : StackOk c strict (mode :: below) (f :: rest)) (f' : Frame)
    (hframe : FrameOk c mode' f') (hheld : mode'.held = mode.held) (hown : mode'.own = mode.own)
    (hhi : mode'.hi = mode.hi) (hglob : mode'.glob = mode.glob) (w : World)
    (hlinked : Linked m.world.mem w.mem ∧ w.cpus = m.world.cpus ∧ w.online = m.world.online ∧
      w.live = m.world.live) (listLock : WaitId → Bool) :
    MachineOk strict { m.setTop c (f' :: rest) with world := w, listLock := listLock } rings
      (Function.update modes (m.world.cur c) (mode' :: below)) := by
  obtain ⟨hmem, hcpus, honline, hlive⟩ := hlinked
  have hcur : ∀ c', w.cur c' = m.world.cur c' := fun c' => by simp only [World.cur, hcpus]
  have hcurrent := h.current c hc mode (by simp [hmodes])
  refine h.keep hc hmodes hstack f' hframe hheld hown rfl rfl
    (h.ring.setMem hmem hcpus honline hlive) honline (fun c' _ => hcur c')
    (fun hne => absurd (hcur c) hne) (fun _ _ => rfl) (fun _ _ => rfl) ?_ ?_
  · rw [hhi]
    exact hcurrent.1
  · rw [hglob]
    exact hcurrent.2

/-- Every step of a function keeps the locks and modes in order. -/
theorem MachineOk.exec (h : MachineOk strict m rings modes) (hc : c ∈ m.world.online)
    (hframes : m.frames (m.world.cur c) = f :: rest) {i : Instr} (hcode : f.code = i :: code)
    (hstep : m.exec c { f with code := code } rest i = some m') :
    ∃ rings' modes', MachineOk strict m' rings' modes' := by
  obtain ⟨mode, below, hmodes, hframe, hstack⟩ := h.innermost hc hframes
  have haccepts := hframe.accepts
  rw [hcode] at haccepts
  obtain ⟨mode', hmode, hlast, -, hrest⟩ := haccepts
  have hwf := hframe.wf.step hmode
  have hcurrent := h.current c hc mode (by simp [hmodes])
  have hsame : Linked m.world.mem m.world.mem ∧ m.world.cpus = m.world.cpus ∧
      m.world.online = m.world.online ∧ m.world.live = m.world.live :=
    ⟨Linked.refl _, rfl, rfl, rfl⟩
  cases i with
  | splhi =>
    cases hmode
    cases hstep
    exact ⟨_, _, h.keep hc hmodes hstack { f with code := code, spl := m.intr c }
      ⟨hwf, hframe.cpu, hcurrent.1, hrest⟩ rfl rfl rfl rfl h.ring rfl (fun _ _ => rfl)
      (fun hne => absurd rfl hne) (fun _ hne => Function.update_of_ne hne _ _) (fun _ _ => rfl)
      (fun _ => Function.update_self _ _ _) hcurrent.2⟩
  | getCpu =>
    cases hmode
    cases hstep
    exact ⟨_, _, h.advance hc hmodes hstack { f with code := code, cpu := c }
      ⟨hwf, fun x hx => Option.some.inj hx, hframe.loc, hrest⟩ rfl rfl rfl rfl m.world hsame
      m.listLock⟩
  | cpuAt id =>
    cases hmode
    cases hstep
    exact ⟨_, _, h.advance hc hmodes hstack { f with code := code, cpu := id }
      ⟨hwf, fun x hx => Option.some.inj hx, hframe.loc, hrest⟩ rfl rfl rfl rfl m.world hsame
      m.listLock⟩
  | lock =>
    simp only [Machine.exec] at hstep
    split_ifs at hstep with hfree
    cases hstep
    have hf' : FrameOk c mode' { f with code := code } := by
      simp only [Instr.mode] at hmode
      split_ifs at hmode
      cases hmode
      exact ⟨hwf, hframe.cpu, hframe.loc, hrest⟩
    exact ⟨_, _, h.lock hc hmodes hstack hmode hf' rfl hfree⟩
  | unlock =>
    cases hstep
    have hf' : FrameOk c mode' { f with code := code } := by
      simp only [Instr.mode] at hmode
      split_ifs at hmode
      cases hmode
      exact ⟨hwf, hframe.cpu, hframe.loc, hrest⟩
    exact ⟨_, _, h.unlock (f := f) hc hmodes hstack hmode hf' rfl⟩
  | keepSpl =>
    simp only [Instr.mode] at hmode
    split_ifs at hmode with hcond
    cases hmode
    cases hstep
    have hcpu : f.cpu = c := hframe.cpu c hcond.2
    refine ⟨_, _, h.keep hc hmodes hstack { f with code := code } ⟨hwf, hframe.cpu, hframe.loc,
      hrest⟩ rfl rfl rfl rfl h.ring rfl (fun _ _ => rfl) (fun hne => absurd rfl hne)
      (fun _ _ => rfl) (fun c' hne => ?_) hcurrent.1 (fun hglob => ?_)⟩
    · dsimp only
      rw [hcpu, Function.update_of_ne hne]
    · dsimp only
      rw [hcpu, Function.update_self]
      exact hframe.loc hglob
  | restoreSpl =>
    simp only [Instr.mode] at hmode
    split_ifs at hmode with hcond
    cases hmode
    cases hstep
    have hcpu : f.cpu = c := hframe.cpu c hcond.2
    refine ⟨_, _, h.keep hc hmodes hstack { f with code := code } ⟨hwf, hframe.cpu, hframe.loc,
      hrest⟩ rfl rfl rfl rfl h.ring rfl (fun _ _ => rfl) (fun hne => absurd rfl hne)
      (fun _ hne => Function.update_of_ne hne _ _) (fun _ _ => rfl) (fun hhi => ?_)
      (fun hglob => absurd hglob (by simp))⟩
    simp only [Bool.and_eq_true] at hhi
    dsimp only
    rw [Function.update_self, hcpu, hcurrent.1 hhi.1, hcurrent.2 hhi.2]
    rfl
  | splx =>
    simp only [Instr.mode] at hmode
    split_ifs at hmode with hcond
    cases hmode
    cases hstep
    refine ⟨_, _, h.keep hc hmodes hstack { f with code := code } ⟨hwf, hframe.cpu, hframe.loc,
      hrest⟩ rfl rfl rfl rfl h.ring rfl (fun _ _ => rfl) (fun hne => absurd rfl hne)
      (fun _ hne => Function.update_of_ne hne _ _) (fun _ _ => rfl) (fun hhi => ?_)
      (fun hglob => absurd hglob (by simp))⟩
    simp only [Bool.and_eq_true] at hhi
    dsimp only
    rw [Function.update_self, hcurrent.1 hhi.1, hframe.loc hhi.2]
    rfl
  | tick =>
    obtain ⟨w, hw, rfl⟩ := Option.map_eq_some_iff.mp hstep
    exact ⟨_, h.switch hc hframes hcode (Or.inl rfl) (Or.inl rfl) hw⟩
  | sleep ms =>
    obtain ⟨w, hw, rfl⟩ := Option.map_eq_some_iff.mp hstep
    exact ⟨_, h.switch hc hframes hcode (Or.inr (Or.inl ⟨ms, rfl⟩)) (Or.inr (Or.inl ⟨ms, rfl⟩)) hw⟩
  | yieldLocked =>
    obtain ⟨w, hw, rfl⟩ := Option.map_eq_some_iff.mp hstep
    exact ⟨_, h.switch hc hframes hcode (Or.inr (Or.inr rfl)) (Or.inr (Or.inr rfl)) hw⟩
  | create n =>
    simp only [Machine.exec] at hstep
    split_ifs at hstep with hcond
    rw [not_or, not_not] at hcond
    obtain ⟨w, hw, rfl⟩ := Option.map_eq_some_iff.mp hstep
    simp only [Instr.mode] at hmode
    split_ifs at hmode
    cases hmode
    have hmoved := h.advance hc hmodes hstack { f with code := code } ⟨hwf, hframe.cpu, hframe.loc,
      hrest⟩ rfl rfl rfl rfl m.world hsame m.listLock
    exact ⟨_, _, hmoved.addThread hcond.2 hcond.1 hw⟩
  | wake t =>
    simp only [Instr.mode] at hmode
    split_ifs at hmode
    cases hmode
    cases hstep
    exact ⟨_, _, h.advance hc hmodes hstack { f with code := code } ⟨hwf, hframe.cpu, hframe.loc,
      hrest⟩ rfl rfl rfl rfl { m.world with mem := Sched.wake m.world.mem t }
      ⟨⟨rfl, rfl, rfl⟩, rfl, rfl, rfl⟩ m.listLock⟩
  | listLock j =>
    simp only [Machine.exec] at hstep
    split_ifs at hstep
    cases hmode
    cases hstep
    exact ⟨_, _, h.advance hc hmodes hstack { f with code := code } ⟨hwf, hframe.cpu, hframe.loc,
      hrest⟩ rfl rfl rfl rfl m.world hsame _⟩
  | listUnlock j =>
    cases hmode
    cases hstep
    exact ⟨_, _, h.advance hc hmodes hstack { f with code := code } ⟨hwf, hframe.cpu, hframe.loc,
      hrest⟩ rfl rfl rfl rfl m.world hsame _⟩
  | push j =>
    simp only [Instr.mode] at hmode
    split_ifs at hmode
    cases hmode
    cases hstep
    exact ⟨_, _, h.advance hc hmodes hstack { f with code := code } ⟨hwf, hframe.cpu, hframe.loc,
      hrest⟩ rfl rfl rfl rfl _ (linked_block m.world c j) m.listLock⟩
  | pop j =>
    cases hmode
    cases hstep
    exact ⟨_, _, h.advance hc hmodes hstack { f with code := code } ⟨hwf, hframe.cpu, hframe.loc,
      hrest⟩ rfl rfl rfl rfl _ (linked_unlist m.world j) m.listLock⟩
  | addCount s d =>
    cases hmode
    cases hstep
    exact ⟨_, _, h.advance hc hmodes hstack { f with code := code } ⟨hwf, hframe.cpu, hframe.loc,
      hrest⟩ rfl rfl rfl rfl (m.world.addCount s d) hsame m.listLock⟩
  | semaTest s =>
    simp only [Instr.mode] at hmode
    split_ifs at hmode with hcond
    cases hmode
    cases hstep
    obtain rfl := hlast (Or.inl rfl)
    obtain ⟨htake, hblock, -⟩ := accepts_branches (c := c) hcond s 0 0 .null
    refine ⟨_, _, h.advance hc hmodes hstack { f with code := _ ++ [] }
      ⟨hwf, hframe.cpu, hframe.loc, ?_⟩ rfl rfl rfl rfl m.world hsame m.listLock⟩
    dsimp only
    rw [List.append_nil]
    split_ifs
    · exact htake
    · exact hblock
  | semaSignalTest s =>
    simp only [Instr.mode] at hmode
    split_ifs at hmode with hcond
    cases hmode
    cases hstep
    obtain rfl := hlast (Or.inl rfl)
    obtain ⟨-, -, hgive, hwake, -⟩ := accepts_branches (c := c) hcond s 0
      (m.world.mem.cpuId (m.world.semas s).threads.head) (m.world.semas s).threads.head
    refine ⟨_, _, h.advance hc hmodes hstack { f with code := _ ++ [] }
      ⟨hwf, hframe.cpu, hframe.loc, ?_⟩ rfl rfl rfl rfl m.world hsame m.listLock⟩
    dsimp only
    rw [List.append_nil]
    split_ifs
    · exact hgive
    · exact hwake
  | condSignalTest k =>
    simp only [Instr.mode] at hmode
    split_ifs at hmode with hcond
    cases hmode
    cases hstep
    obtain rfl := hlast (Or.inl rfl)
    obtain ⟨-, -, -, -, hnone, hwake⟩ := accepts_branches (c := c) hcond 0 k
      (m.world.mem.cpuId (m.world.conds k).head) (m.world.conds k).head
    refine ⟨_, _, h.advance hc hmodes hstack
      { f with code := _ ++ [.listUnlock (.cond k), .iret] ++ [] }
      ⟨hwf, hframe.cpu, hframe.loc, ?_⟩ rfl rfl rfl rfl m.world hsame m.listLock⟩
    dsimp only
    rw [List.append_nil]
    split_ifs
    · exact hnone
    · exact hwake
  | iret =>
    simp only [Instr.mode] at hmode
    split_ifs at hmode with hcond
    cases hmode
    cases hstep
    exact ⟨_, _, h.pop hc hmodes hstack hcond rfl rfl rfl
      (fun _ hne => Function.update_of_ne hne _ _) rfl⟩

/-- A thread that is in no kernel function has no modes. -/
theorem MachineOk.modes_nil (h : MachineOk strict m rings modes) (hc : c ∈ m.world.online)
    (hframes : m.frames (m.world.cur c) = []) : modes (m.world.cur c) = [] := by
  have hstack := (h.stack c hc _ (h.ring.cur c hc)).frame
  rw [hframes] at hstack
  exact List.forall₂_nil_right_iff.mp hstack

/-- A key that is stored does not arrive while a function of the thread that it interrupts is
between the lock and the release of a CPU. -/
def Machine.Undisturbed (m : Machine) : Move → Prop
  | .keyboard c code => Kbd.ordinary code = true →
      ∀ f ∈ m.frames (m.world.cur c), nextLockStep f.code ≠ some .unlock
  | .init _ | .call _ _ | .exec _ | .ret _ | .timer _ | .setIntr _ _ => True

/-- An interrupt finds the innermost function with interrupts on. -/
theorem MachineOk.interrupt (h : MachineOk strict m rings modes) (hc : c ∈ m.world.online)
    (hintr : m.intr c = true) {own : Bool} (haccepts : Accepts c (Mode.entry true own) code)
    (hclear : strict = true → own = false → ∀ mode ∈ modes (m.world.cur c), mode.held = none) :
    ∃ modes', MachineOk strict (m.interrupt c code) rings modes' := by
  refine ⟨_, h.push hc (fun mode hmode => ?_) hclear
    ⟨Mode.entry_wf true own, by simp [Mode.entry], by simp [Mode.entry], haccepts⟩ rfl rfl rfl
    (fun _ hne => Function.update_of_ne hne _ _) rfl fun _ => Function.update_self _ _ _⟩
  by_contra hhi
  rw [Bool.not_eq_false] at hhi
  have hoff := (h.current c hc mode hmode).1 hhi
  rw [hintr] at hoff
  exact absurd hoff (by decide)

/-- Every move keeps the locks and modes in order. -/
theorem MachineOk.step (h : MachineOk strict m rings modes) {k : ℕ} {move : Move}
    (hmove : m.Allowed move) (hclear : strict = true → m.Undisturbed move)
    (hstep : m.step k move = some m') : ∃ rings' modes', MachineOk strict m' rings' modes' := by
  cases move with
  | init c =>
    rw [Machine.step] at hstep
    obtain ⟨w, hw, rfl⟩ := Option.map_eq_some_iff.mp hstep
    exact ⟨_, _, h.init hmove hw _ fun _ hne => Function.update_of_ne hne _ _⟩
  | call c call =>
    cases hstep
    have hnil := h.modes_nil hmove.1 hmove.2
    have hframe : FrameOk c (Mode.entry (!m.intr c) false)
        ⟨.call, m.intr c, call.code m.world.mem c, 0, false⟩ :=
      ⟨Mode.entry_wf _ _, by simp [Mode.entry], by simp [Mode.entry], call.accepts _ rfl rfl⟩
    exact ⟨_, _, h.push hmove.1 (by simp [hnil]) (by simp [hnil]) hframe rfl rfl rfl
      (fun _ _ => rfl) rfl (by simp [Machine.setTop])⟩
  | exec c =>
    simp only [Machine.step] at hstep
    split at hstep
    · simp at hstep
    · next f rest hframes =>
      split at hstep
      · simp at hstep
      · next i code hcode => exact h.exec hmove hframes hcode hstep
  | ret c =>
    simp only [Machine.step] at hstep
    split at hstep
    · simp at hstep
    · next f rest hframes =>
      split_ifs at hstep with hdone
      cases hstep
      obtain ⟨mode, below, hmodes, hframe, hstack⟩ := h.innermost hmove hframes
      have hheld := hframe.accepts
      rw [hdone.2] at hheld
      exact ⟨_, _, h.pop hmove hmodes hstack hheld rfl rfl rfl (fun _ _ => rfl) rfl⟩
  | timer c =>
    cases hstep
    exact ⟨_, h.interrupt hmove.1 hmove.2 (accepts_handlers k).1 (by simp)⟩
  | keyboard c code =>
    cases hstep
    split_ifs with hordinary
    · refine ⟨_, h.interrupt hmove.1 hmove.2 (accepts_handlers k).2.1 fun hstrict _ => ?_⟩
      exact (h.stack c hmove.1 _ (h.ring.cur c hmove.1)).held_none (hclear hstrict hordinary)
    · exact ⟨_, h.interrupt hmove.1 hmove.2 (accepts_handlers k).2.2.1 (by simp)⟩
  | setIntr c enabled =>
    cases hstep
    have hnil := h.modes_nil hmove.1 hmove.2
    have hown := h.own c hmove.1
    have hremote := h.remote c hmove.1 _ (h.ring.cur c hmove.1)
    rw [hnil] at hown hremote
    have hempty : StackOk c strict [] [] := ⟨List.Forall₂.nil, by simp, by simp, by simp⟩
    refine ⟨_, _, h.update hmove.1 hempty ?_ h.ring rfl (fun _ _ => rfl)
      (fun hne => absurd rfl hne) (fun _ hne => Function.update_of_ne hne _ _) (fun _ _ => rfl)
      (by simp) hown hremote (fun _ _ _ _ _ => Iff.rfl) (fun _ _ => Iff.rfl) h.holder⟩
    dsimp only
    rw [← hmove.2, Function.update_eq_self]

/-- The locks and modes are in order in every state that is reached. -/
theorem machineOk_of_reaches {m₀ : Machine} (h₀ : m₀.Boot) {k : ℕ} {guard : Machine → Move → Prop}
    (hguard : ∀ m move, guard m move → m.Allowed move ∧ (strict = true → m.Undisturbed move))
    (hrun : Reaches (Machine.step k) guard m₀ m) :
    ∃ rings modes, MachineOk strict m rings modes := by
  apply hrun.invariant
  · obtain ⟨hboot, hfree⟩ := h₀
    have hnone : ∀ c, c ∉ m₀.world.online := by simp [hboot.1]
    exact ⟨_, fun _ => [], hboot.ringsOk, fun c hc => absurd hc (hnone c),
      fun c hc => absurd hc (hnone c), fun c hc => absurd hc (hnone c),
      fun c hc => absurd hc (hnone c), fun c hc => absurd hc (hnone c), by simp [hfree]⟩
  · rintro m move m' ⟨rings, modes, h⟩ hmove hstep
    obtain ⟨hallowed, hclear⟩ := hguard m move hmove
    exact h.step hallowed hclear hstep

end Steps

section Results

variable {strict : Bool} {m m' m₀ : Machine} {rings : ℕ → List ThreadRef}
  {modes : ThreadRef → List Mode} {k c : ℕ} {f : Frame} {rest : List Frame}

/-- A function that is continued releases the lock of the CPU `c` first, and does not release a
lock again before it has taken one. A new thread looks its CPU up for that. -/
def Frame.Resumes (f : Frame) (c : ℕ) : Prop :=
  ∃ pre post, f.code = pre ++ Instr.unlock :: post ∧ (pre = [] ∧ f.cpu = c ∨ pre = [Instr.getCpu]) ∧
    nextLockStep post ≠ some .unlock

/-- A thread that has been switched away from, or is new, will release the lock. -/
theorem Suspended.resumes {modes : List Mode} {frames : List Frame}
    (h : Suspended c modes frames) (hstack : StackOk c strict modes frames) :
    ∃ f rest, frames = f :: rest ∧ f.Resumes c := by
  obtain ⟨mode, below, f, rest, rfl, rfl, hsusp, hcode⟩ := h
  refine ⟨f, rest, rfl, ?_⟩
  have hframe := (List.forall₂_cons.mp hstack.frame).1
  rcases hcode with hcode | hcode
  · obtain ⟨post, hcode⟩ := List.head?_eq_some_iff.mp hcode
    have haccepts := hframe.accepts
    rw [hcode] at haccepts
    obtain ⟨mode', hmode, -, -, hpost⟩ := haccepts
    simp only [Instr.mode] at hmode
    split_ifs at hmode with hcond
    cases hmode
    have hcpu : f.cpu = c := hframe.cpu c (hcond.2.symm.trans hsusp.1)
    refine ⟨[], post, hcode, Or.inl ⟨rfl, hcpu⟩, fun hnext => ?_⟩
    exact hpost.nextLockStep.mp hnext rfl
  · exact ⟨[.getCpu], [.iret], hcode, Or.inr rfl, by simp [nextLockStep]⟩

/-- The steps that call the scheduler complete. -/
theorem Machine.exec_switch (hring : RingsOk m.world rings) (hc : c ∈ m.world.online) (f : Frame)
    (rest : List Frame) {i : Instr} (hi : i.switches = true) :
    ∃ w, m.exec c f rest i = some { m.setTop c (f :: rest) with world := w } ∧
      w.cur c ∈ rings c := by
  have hdone : ∀ op, (op = .tick c ∨ (∃ ms, op = .sleep c ms) ∨ op = .finishWait c) →
      ∃ w, m.world.step op = some w ∧ w.cur c ∈ rings c := by
    intro op hop
    obtain ⟨w, hw, hrings, honline, -⟩ := hring.schedule hc hop
    exact ⟨w, hw, hrings.cur c (honline ▸ hc)⟩
  cases i with
  | tick =>
    obtain ⟨w, hw, hcur⟩ := hdone _ (Or.inl rfl)
    exact ⟨w, by rw [Machine.exec, hw, Option.map_some], hcur⟩
  | sleep ms =>
    obtain ⟨w, hw, hcur⟩ := hdone _ (Or.inr (Or.inl ⟨ms, rfl⟩))
    exact ⟨w, by rw [Machine.exec, hw, Option.map_some], hcur⟩
  | yieldLocked =>
    obtain ⟨w, hw, hcur⟩ := hdone _ (Or.inr (Or.inr rfl))
    exact ⟨w, by rw [Machine.exec, hw, Option.map_some], hcur⟩
  | _ => simp [Instr.switches] at hi

/-- The scheduler is entered with the lock, and the thread that is switched to releases it. -/
theorem MachineOk.switch_held (h : MachineOk strict m rings modes) (hc : c ∈ m.world.online)
    {i : Instr} (hi : m.next c = some i) (hswitch : i.switches = true) :
    m.HoldsOwn c ∧ ∃ m', m.step k (.exec c) = some m' ∧ m'.HoldsOwn c ∧
      (m'.world.cur c ≠ m.world.cur c →
        ∃ f rest, m'.frames (m'.world.cur c) = f :: rest ∧ f.Resumes c) := by
  obtain ⟨f, hf, hcode⟩ := Option.bind_eq_some_iff.mp hi
  obtain ⟨rest, hframes⟩ := List.head?_eq_some_iff.mp hf
  obtain ⟨code, hcode⟩ := List.head?_eq_some_iff.mp hcode
  obtain ⟨mode, below, hmodes, hframe, -⟩ := h.innermost hc hframes
  have haccepts := hframe.accepts
  rw [hcode] at haccepts
  obtain ⟨mode', hmode, -⟩ := haccepts
  have hheld : mode.held = some c := by
    cases i <;> simp only [Instr.switches, Bool.false_eq_true] at hswitch <;>
    · simp only [Instr.mode] at hmode
      split_ifs at hmode with hheld
      exact hheld
  have hown : m.HoldsOwn c := (h.own c hc).mpr ⟨mode, by simp [hmodes], hheld⟩
  obtain ⟨w, hw, hcur⟩ := Machine.exec_switch h.ring hc { f with code := code } rest hswitch
  refine ⟨hown, { m.setTop c ({ f with code := code } :: rest) with world := w }, ?_, hown,
    fun hne => ?_⟩
  · simp only [Machine.step, hframes, hcode, hw]
  · change w.cur c ≠ m.world.cur c at hne
    obtain ⟨f', rest', hframes', hresumes⟩ :=
      (h.suspended c hc _ hcur hne).resumes (h.stack c hc _ hcur)
    refine ⟨f', rest', ?_, hresumes⟩
    simp only [Machine.setTop, Function.update_of_ne hne]
    exact hframes'

/-- A function that releases the lock of a CPU finds it taken by its own CPU. -/
theorem MachineOk.unlock_held (h : MachineOk strict m rings modes) (hc : c ∈ m.world.online)
    (hframes : m.frames (m.world.cur c) = f :: rest) (hcode : f.code.head? = some .unlock) :
    ∃ t, m.lock f.cpu = some (c, t) := by
  obtain ⟨code, hcode⟩ := List.head?_eq_some_iff.mp hcode
  obtain ⟨mode, below, hmodes, hframe, -⟩ := h.innermost hc hframes
  have haccepts := hframe.accepts
  rw [hcode] at haccepts
  obtain ⟨mode', hmode, -⟩ := haccepts
  simp only [Instr.mode] at hmode
  split_ifs at hmode with hcond
  obtain ⟨d, hd⟩ := Option.isSome_iff_exists.mp hcond.1
  rw [hframe.cpu d (hcond.2.symm.trans hd)]
  obtain ⟨t, ht, -⟩ := h.held_eq hc hmodes hd
  exact ⟨t, ht⟩

/-- While a CPU holds its own lock, the innermost function of its current thread has to release
it. -/
theorem MachineOk.own_next (h : MachineOk strict m rings modes) (hc : c ∈ m.world.online)
    (hown : m.HoldsOwn c) :
    ∃ f rest, m.frames (m.world.cur c) = f :: rest ∧ nextLockStep f.code = some .unlock := by
  obtain ⟨mode, hmode, hheld⟩ := (h.own c hc).mp hown
  obtain ⟨below, hmodes⟩ := List.head?_eq_some_iff.mp hmode
  have hstack := (h.stack c hc _ (h.ring.cur c hc)).frame
  rw [hmodes] at hstack
  obtain ⟨f, rest, hframe, -, hframes⟩ := List.forall₂_cons_left_iff.mp hstack
  exact ⟨f, rest, hframes, hframe.accepts.nextLockStep.mpr (by simp [hheld])⟩

end Results

/-- In every run, on every CPU: the scheduler is entered with the lock of the CPU, completes, and
leaves the lock taken; the thread that is switched to then releases this lock, once. Whoever
releases the lock of a CPU finds it taken by its own CPU. While a CPU holds its own lock, the
innermost function of its current thread has to release it, and so the lock is free of the CPU
whenever the thread is in no function of the kernel. -/
theorem lock_handover {m₀ m : Machine} {k c : ℕ} (h₀ : m₀.Boot)
    (hrun : Reaches (Machine.step k) Machine.Allowed m₀ m) (hc : c ∈ m.world.online) :
    (∀ i, m.next c = some i → i.switches = true → m.HoldsOwn c ∧
      ∃ m', m.step k (.exec c) = some m' ∧ m'.HoldsOwn c ∧
        (m'.world.cur c ≠ m.world.cur c →
          ∃ f rest, m'.frames (m'.world.cur c) = f :: rest ∧ f.Resumes c)) ∧
    (∀ f rest, m.frames (m.world.cur c) = f :: rest → f.code.head? = some .unlock →
      ∃ t, m.lock f.cpu = some (c, t)) ∧
    (m.HoldsOwn c → ∃ f rest, m.frames (m.world.cur c) = f :: rest ∧
      nextLockStep f.code = some .unlock) ∧
    (m.frames (m.world.cur c) = [] → ¬ m.HoldsOwn c) := by
  obtain ⟨rings, modes, h⟩ : ∃ rings modes, MachineOk false m rings modes :=
    machineOk_of_reaches h₀ (fun _ _ hmove => ⟨hmove, fun hstrict => nomatch hstrict⟩) hrun
  refine ⟨fun i hi hswitch => h.switch_held hc hi hswitch,
    fun f rest hframes hcode => h.unlock_held hc hframes hcode, h.own_next hc,
    fun hframes hown => ?_⟩
  obtain ⟨f, rest, hframes', -⟩ := h.own_next hc hown
  rw [hframes] at hframes'
  exact absurd hframes' (by simp)

/-- Memory in which nothing has happened yet. -/
def Machine.blank : Machine :=
  ⟨World.blank, fun _ => false, fun _ => false, fun _ => none, fun _ => false, fun _ => []⟩

theorem Machine.blank_boot : Machine.blank.Boot := ⟨World.blank_boot, fun _ => rfl⟩

/-- A call with the given number of steps, up to its return. -/
def callMoves (c steps : ℕ) (call : Call) : List Move :=
  Move.call c call :: List.replicate steps (Move.exec c) ++ [Move.ret c]

/-- A timer interrupt that does not switch. -/
def tickMoves (c : ℕ) : List Move := .timer c :: List.replicate 5 (.exec c)

/-- One CPU with one thread besides the idle thread, whose quantum has one tick left. -/
def beforeSwitch : List Move :=
  [Move.init 0, .setIntr 0 true] ++ callMoves 0 7 (.create 0 5) ++
    (List.replicate 7 (tickMoves 0)).flatten

/-- The next timer interrupt switches from the idle thread to the new thread. -/
theorem lock_handover_firstSwitch :
    ∃ m m' : Machine, Reaches (Machine.step 0) Machine.Allowed Machine.blank m ∧
      m.step 0 (.exec 0) = some m' ∧ m'.world.cur 0 ≠ m.world.cur 0 ∧ m.HoldsOwn 0 ∧
      ∃ f rest, m'.frames (m'.world.cur 0) = f :: rest ∧ f.Resumes 0 := by
  have hrun : ((runOps (Machine.step 0) Machine.Allowed Machine.blank
      (beforeSwitch ++ [.timer 0, .exec 0, .exec 0])).map fun m =>
        (m.next 0, m.world.cur 0, decide (0 ∈ m.world.online),
          (m.step 0 (.exec 0)).map fun m' => m'.world.cur 0)) =
      some (some .tick, .idle 0, true, some (.alloc 5)) := by decide +kernel
  obtain ⟨m, hm, hvalue⟩ := Option.map_eq_some_iff.mp hrun
  simp only [Prod.mk.injEq, decide_eq_true_eq] at hvalue
  obtain ⟨hnext, hcur, honline, hswitched⟩ := hvalue
  obtain ⟨m₁, hstep, hcur'⟩ := Option.map_eq_some_iff.mp hswitched
  have hreach := Reaches.of_runOps hm
  obtain ⟨hown, m', hstep', -, hresumes⟩ :=
    (lock_handover Machine.blank_boot hreach honline).1 .tick hnext rfl
  rw [hstep, Option.some.injEq] at hstep'
  subst hstep'
  have hne : m₁.world.cur 0 ≠ m.world.cur 0 := by
    rw [hcur, hcur']
    decide
  exact ⟨m, m₁, hreach, hstep, hne, hown, hresumes hne⟩

end Smor.Sched
