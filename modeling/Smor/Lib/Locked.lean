import Smor.Lib.Held
import Smor.Lib.Runs

/-!
# Sections of code under one lock

Parties call sections of code that take a spinlock, carry out their statements on a shared state,
and give the lock back. Any party may make the next step. `lockedOk_of_reaches` says that the
shared state is the one after the finished sections, carried out whole in the order in which
they have given the lock back, and after the statements that the holder of the lock has carried out
since.
-/

namespace Smor.Lib

variable {ι ο α σ : Type*}

/-- Statements, each on the locals of a section and the shared state. A statement may stop the
system. -/
abbrev Code (α σ : Type*) := List (α × σ → Option (α × σ))

/-- Statements without anything between them. -/
def Code.run (code : Code α σ) (x : α × σ) : Option (α × σ) := code.foldlM (fun x f => f x) x

theorem Code.run_append (code code' : Code α σ) (x : α × σ) :
    Code.run (code ++ code') x = (code.run x).bind code'.run := List.foldlM_append

theorem Code.run_cons (f : α × σ → Option (α × σ)) (code : Code α σ) (x : α × σ) :
    Code.run (f :: code) x = (f x).bind code.run := List.foldlM_cons

/-- `Q` holds in front of every statement and behind the last. -/
def Code.Always (Q : α × σ → Prop) : Code α σ → α × σ → Prop
  | [], x => Q x
  | f :: code, x => Q x ∧ ∀ y, f x = some y → Code.Always Q code y

section Always

variable {Q R : α × σ → Prop} {code code' front rest : Code α σ} {x y : α × σ}

theorem Code.Always.head (h : Code.Always Q code x) : Q x := by
  cases code with
  | nil => exact h
  | cons f code => exact h.1

/-- `Q` holds behind the first statements. -/
theorem Code.Always.at_front (h : Code.Always Q (front ++ rest) x) (hrun : front.run x = some y) :
    Q y := by
  induction front generalizing x with
  | nil =>
    obtain rfl := Option.some.inj hrun
    exact h.head
  | cons f front ih =>
    rw [Code.run_cons] at hrun
    obtain ⟨z, hf, hrest⟩ := Option.bind_eq_some_iff.mp hrun
    exact ih (h.2 z hf) hrest

theorem Code.Always.imp (h : Code.Always Q code x) (himp : ∀ x, Q x → R x) :
    Code.Always R code x := by
  induction code generalizing x with
  | nil => exact himp x h
  | cons f code ih => exact ⟨himp x h.1, fun y hy => ih (h.2 y hy)⟩

theorem Code.Always.append (h : Code.Always Q code x)
    (hnext : ∀ y, code.run x = some y → Code.Always Q code' y) :
    Code.Always Q (code ++ code') x := by
  induction code generalizing x with
  | nil => exact hnext x rfl
  | cons f code ih =>
    refine ⟨h.1, fun y hy => ih (h.2 y hy) fun z hz => hnext z ?_⟩
    rw [Code.run_cons, hy, Option.bind_some, hz]

/-- What every statement keeps holds everywhere. -/
theorem Code.always_of_keeps (hkeep : ∀ f ∈ code, ∀ x y, Q x → f x = some y → Q y) (hx : Q x) :
    Code.Always Q code x := by
  induction code generalizing x with
  | nil => exact hx
  | cons f code ih =>
    refine ⟨hx, fun y hy => ih (fun g hg => hkeep g (List.mem_cons_of_mem f hg)) ?_⟩
    exact hkeep f List.mem_cons_self x y hx hy

/-- What every statement keeps, all of them keep. -/
theorem Code.run_keeps (hkeep : ∀ f ∈ code, ∀ x y, Q x → f x = some y → Q y) (hx : Q x)
    (hrun : code.run x = some y) : Q y := by
  have halways := Code.always_of_keeps hkeep hx
  rw [← List.append_nil code] at halways
  exact halways.at_front hrun

end Always

/-- The sections: for every call its statements, and its locals in front of them. -/
structure Sections (ο α σ : Type*) where
  locals : ο → α
  code : ο → Code α σ

/-- A section carried out whole. -/
def Sections.call (c : Sections ο α σ) (shared : σ) (o : ο) : Option σ :=
  ((c.code o).run (c.locals o, shared)).map Prod.snd

/-- Where a party is: in no call, in front of the lock, or with the lock and with the statements
that are left. -/
inductive LockedPhase (ο α σ : Type*) where
  | idle
  | spinning (o : ο)
  | inside (o : ο) (a : α) (rest : Code α σ)

/-- The party has the lock. -/
def LockedPhase.Inside : LockedPhase ο α σ → Prop
  | .inside _ _ _ => True
  | .idle | .spinning _ => False

/-- The call that a party is in. -/
def LockedPhase.call : LockedPhase ο α σ → Option ο
  | .idle => none
  | .spinning o | .inside o _ _ => some o

/-- All parties, the shared state, the lock, and the calls that have returned. -/
structure LockedRun (ι ο α σ : Type*) where
  shared : σ
  lock : ℕ
  phase : ι → LockedPhase ο α σ
  done : List ο

/-- A party begins a call, or it goes on. -/
inductive LockedOp (ι ο : Type*) where
  | call (i : ι) (o : ο)
  | go (i : ι)
  deriving DecidableEq

namespace LockedRun

/-- No party is in a call. -/
def start (ι ο α : Type*) (shared : σ) : LockedRun ι ο α σ := ⟨shared, 0, fun _ => .idle, []⟩

variable [DecidableEq ι]

/-- The next step of a party: a round of the loop for the lock, a statement, or the end of a call,
where the lock is given back. -/
def go (c : Sections ο α σ) (s : LockedRun ι ο α σ) (i : ι) : Option (LockedRun ι ο α σ) :=
  match s.phase i with
  | .idle => none
  | .spinning o =>
    if s.lock = 0 then some
      { s with
        lock := 1
        phase := Function.update s.phase i (.inside o (c.locals o) (c.code o)) }
    else some s
  | .inside o _ [] => some
    { s with
      lock := if s.lock = 1 then 0 else s.lock
      phase := Function.update s.phase i .idle
      done := s.done ++ [o] }
  | .inside o a (f :: rest) => (f (a, s.shared)).map fun (a, shared) =>
    { s with
      shared := shared
      phase := Function.update s.phase i (.inside o a rest) }

/-- One step. -/
def step (c : Sections ο α σ) (s : LockedRun ι ο α σ) : LockedOp ι ο → Option (LockedRun ι ο α σ)
  | .call i o => some { s with phase := Function.update s.phase i (.spinning o) }
  | .go i => s.go c i

/-- A party that is in no call makes a valid one. -/
def Allowed (valid : ο → Prop) (s : LockedRun ι ο α σ) : LockedOp ι ο → Prop
  | .call i o => (s.phase i).call.isNone ∧ valid o
  | .go _ => True

instance (valid : ο → Prop) [DecidablePred valid] (s : LockedRun ι ο α σ) (op : LockedOp ι ο) :
    Decidable (s.Allowed valid op) :=
  match op with
  | .call _ _ => inferInstanceAs (Decidable (_ ∧ _))
  | .go _ => inferInstanceAs (Decidable True)

end LockedRun

/-- The finished calls, carried out whole, lead to `base`, and the holder of the lock has got from
there to the shared state. -/
structure LockedOk (c : Sections ο α σ) (valid : ο → Prop) (init : σ) (s : LockedRun ι ο α σ)
    (base : σ) : Prop where
  done : s.done.foldlM c.call init = some base
  held : Held s.lock fun i => (s.phase i).Inside
  free : s.lock = 0 → s.shared = base
  inside : ∀ i o a rest, s.phase i = .inside o a rest →
    ∃ front, c.code o = front ++ rest ∧ front.run (c.locals o, base) = some (a, s.shared)
  valid : ∀ o, (o ∈ s.done ∨ ∃ i, (s.phase i).call = some o) → valid o

namespace LockedOk

variable {c : Sections ο α σ} {valid : ο → Prop} {init base : σ} {s s' : LockedRun ι ο α σ} {i : ι}
  {o : ο}

/-- The shared state while no party has the lock. -/
theorem shared_eq (h : LockedOk c valid init s base) (hnone : ∀ i, ¬ (s.phase i).Inside) :
    s.shared = base := by
  obtain ⟨hfree, -⟩ | ⟨-, i, hi, -⟩ := h.held
  · exact h.free hfree
  · exact absurd hi (hnone i)

/-- What valid sections keep holds after the finished ones. -/
theorem base_of_call (h : LockedOk c valid init s base) {I : σ → Prop} (hinit : I init)
    (hcall : ∀ t o t', I t → valid o → c.call t o = some t' → I t') : I base := by
  have hrun : ∀ (os : List ο) t, (∀ o ∈ os, valid o) → I t → os.foldlM c.call t = some base →
      I base := by
    intro os
    induction os with
    | nil =>
      intro t _ ht heq
      exact Option.some.inj heq ▸ ht
    | cons o os ih =>
      intro t hall ht heq
      rw [List.foldlM_cons] at heq
      obtain ⟨t', hfirst, hrest⟩ := Option.bind_eq_some_iff.mp heq
      exact ih t' (fun o ho => hall o (List.mem_cons_of_mem _ ho))
        (hcall t o t' ht (hall o List.mem_cons_self) hfirst) hrest
  exact hrun s.done init (fun o ho => h.valid o (Or.inl ho)) hinit h.done

variable [DecidableEq ι]

/-- Only calls that parties are in, and the one that is new, are in a phase that has changed. -/
theorem call_update {next : LockedPhase ο α σ} {o' : ο}
    (h : ∃ j, (Function.update s.phase i next j).call = some o') :
    next.call = some o' ∨ ∃ j, (s.phase j).call = some o' := by
  obtain ⟨j, hj⟩ := h
  by_cases heq : j = i
  · subst heq
    rw [Function.update_self] at hj
    exact Or.inl hj
  · rw [Function.update_of_ne heq] at hj
    exact Or.inr ⟨j, hj⟩

theorem call (h : LockedOk c valid init s base) (hnone : (s.phase i).call.isNone) (ho : valid o) :
    LockedOk c valid init { s with phase := Function.update s.phase i (.spinning o) } base := by
  have hnot : ¬ (s.phase i).Inside := by
    intro hin
    cases hphase : s.phase i <;> simp [hphase, LockedPhase.Inside, LockedPhase.call] at hin hnone
  refine ⟨h.done, ?_, h.free, fun j o' a rest hj => ?_, fun o' ho' => ?_⟩
  · exact h.held.congr (update_phase_iff (Q := LockedPhase.Inside) (iff_of_false id hnot))
  · rcases update_phase_cases hj with ⟨-, hnext⟩ | ⟨-, hj⟩
    · cases hnext
    · exact h.inside j o' a rest hj
  · rcases ho' with hdone | hphase
    · exact h.valid o' (Or.inl hdone)
    · rcases call_update hphase with hnext | hold
      · exact Option.some.inj hnext ▸ ho
      · exact h.valid o' (Or.inr hold)

theorem take (h : LockedOk c valid init s base) (hphase : s.phase i = .spinning o)
    (hfree : s.lock = 0) :
    LockedOk c valid init
      { s with
        lock := 1
        phase := Function.update s.phase i (.inside o (c.locals o) (c.code o)) } base := by
  have hheld := h.held
  rw [hfree] at hheld
  refine ⟨h.done, ?_, fun hlock => absurd hlock Nat.one_ne_zero, fun j o' a rest hj => ?_,
    fun o' ho' => ?_⟩
  · exact hheld.take (update_phase_enter (Q := LockedPhase.Inside) trivial)
  · rcases update_phase_cases hj with ⟨-, hnext⟩ | ⟨-, hj⟩
    · cases hnext
      exact ⟨[], rfl, by rw [h.free hfree]; rfl⟩
    · have hother : (s.phase j).Inside := by rw [hj]; trivial
      exact absurd (hheld.eq_one hother) (by decide)
  · refine h.valid o' (ho'.imp_right fun hphase' => ?_)
    rcases call_update hphase' with hnext | hold
    · exact ⟨i, by rw [hphase]; exact hnext⟩
    · exact hold

theorem statement (h : LockedOk c valid init s base) {a a' : α} {shared : σ}
    {f : α × σ → Option (α × σ)} {rest : Code α σ} (hphase : s.phase i = .inside o a (f :: rest))
    (hf : f (a, s.shared) = some (a', shared)) :
    LockedOk c valid init
      { s with
        shared := shared
        phase := Function.update s.phase i (.inside o a' rest) } base := by
  have hin : (s.phase i).Inside := by rw [hphase]; trivial
  refine ⟨h.done, ?_, fun hlock => ?_, fun j o' b rest' hj => ?_, fun o' ho' => ?_⟩
  · exact h.held.congr (update_phase_iff (Q := LockedPhase.Inside) (iff_of_true trivial hin))
  · exact absurd (hlock.symm.trans (h.held.eq_one hin)) Nat.zero_ne_one
  · rcases update_phase_cases hj with ⟨-, hnext⟩ | ⟨hne, hj⟩
    · cases hnext
      obtain ⟨front, hcode, hrun⟩ := h.inside i o a (f :: rest) hphase
      refine ⟨front ++ [f], ?_, ?_⟩
      · rw [hcode, List.append_assoc, List.singleton_append]
      · rw [Code.run_append, hrun, Option.bind_some, Code.run_cons, hf]
        rfl
    · have hother : (s.phase j).Inside := by rw [hj]; trivial
      exact absurd (h.held.unique hother hin) hne
  · refine h.valid o' (ho'.imp_right fun hphase' => ?_)
    rcases call_update hphase' with hnext | hold
    · exact ⟨i, by rw [hphase]; exact hnext⟩
    · exact hold

theorem finish (h : LockedOk c valid init s base) {a : α} (hphase : s.phase i = .inside o a []) :
    LockedOk c valid init
      { s with
        lock := if s.lock = 1 then 0 else s.lock
        phase := Function.update s.phase i .idle
        done := s.done ++ [o] } s.shared := by
  have hin : (s.phase i).Inside := by rw [hphase]; trivial
  obtain ⟨front, hcode, hrun⟩ := h.inside i o a [] hphase
  rw [List.append_nil] at hcode
  rw [if_pos (h.held.eq_one hin)]
  refine ⟨?_, ?_, fun _ => rfl, fun j o' b rest hj => ?_, fun o' ho' => ?_⟩
  · dsimp only
    rw [List.foldlM_append, h.done]
    change (List.foldlM c.call base [o]) = _
    rw [List.foldlM_cons, Sections.call, hcode, hrun]
    rfl
  · exact h.held.release hin (update_phase_leave (Q := LockedPhase.Inside) id)
  · rcases update_phase_cases hj with ⟨-, hnext⟩ | ⟨hne, hj⟩
    · cases hnext
    · have hother : (s.phase j).Inside := by rw [hj]; trivial
      exact absurd (h.held.unique hother hin) hne
  · have hcall : (s.phase i).call = some o := by rw [hphase]; rfl
    rcases ho' with hdone | hphase'
    · rw [List.mem_append, List.mem_singleton] at hdone
      rcases hdone with hdone | rfl
      · exact h.valid o' (Or.inl hdone)
      · exact h.valid o' (Or.inr ⟨i, hcall⟩)
    · rcases call_update hphase' with hnext | hold
      · cases hnext
      · exact h.valid o' (Or.inr hold)

/-- Every step keeps the serial order. -/
theorem step (h : LockedOk c valid init s base) {op : LockedOp ι ο} (hop : s.Allowed valid op)
    (hstep : s.step c op = some s') : ∃ base', LockedOk c valid init s' base' := by
  cases op with
  | call i o =>
    obtain rfl := Option.some.inj hstep
    exact ⟨base, h.call hop.1 hop.2⟩
  | go i =>
    simp only [LockedRun.step, LockedRun.go] at hstep
    split at hstep
    case h_1 => cases hstep
    case h_2 o hphase =>
      split_ifs at hstep with hfree
      · obtain rfl := Option.some.inj hstep
        exact ⟨base, h.take hphase hfree⟩
      · obtain rfl := Option.some.inj hstep
        exact ⟨base, h⟩
    case h_3 o a hphase =>
      obtain rfl := Option.some.inj hstep
      exact ⟨s.shared, h.finish hphase⟩
    case h_4 o a f rest hphase =>
      obtain ⟨⟨a', shared⟩, hf, rfl⟩ := Option.map_eq_some_iff.mp hstep
      exact ⟨base, h.statement hphase hf⟩

end LockedOk

/-- All states of a run are in serial order. -/
theorem lockedOk_of_reaches [DecidableEq ι] {c : Sections ο α σ} {valid : ο → Prop} {init : σ}
    {s : LockedRun ι ο α σ}
    (hrun : Reaches (LockedRun.step c) (LockedRun.Allowed valid) (LockedRun.start ι ο α init) s) :
    ∃ base, LockedOk c valid init s base := by
  apply hrun.invariant
  · refine ⟨init, rfl, Or.inl ⟨rfl, fun _ => id⟩, fun _ => rfl, fun _ _ _ _ h => ?_, ?_⟩
    · cases h
    · rintro o (h | ⟨i, h⟩) <;> cases h
  · rintro s op t ⟨base, h⟩ hop hstep
    exact h.step hop hstep

end Smor.Lib
