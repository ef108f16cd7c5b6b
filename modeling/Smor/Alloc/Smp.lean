import Smor.Alloc.Objects
import Smor.Console.MsgQueue
import Smor.Lib.Custody
import Smor.Lib.Held

/-!
# Slab lists on several CPUs

Any number of callers use two levels of slab lists at once. Every list has a lock; a call on a child
that needs memory, or has an empty slab to give back, takes the lock of the root while it
has that of the child. The calls are interleaved at every access to a lock and at what they do
between two of them. A chunk that is out is in one place at any time: a caller of the lists has
it, or a call that is under way, or it holds a slab of a child.
-/

namespace Smor.Alloc

open Smor.Lib Smor.Vm
open Smor.Console (compareAndSwap32)

/-- Where a user of the slab lists is. -/
inductive SlabCaller
  /-- Outside of all calls. -/
  | idle
  /-- `slab_list_alloc` in front of the lock. -/
  | alloc (l : ℕ)
  /-- It has the lock. -/
  | allocIn (l : ℕ)
  /-- It has the lock and calls `slab_list_alloc` of the owner, which is in front of its lock. -/
  | allocOwner (l owner : ℕ)
  /-- The call of the owner has its lock, too. -/
  | allocOwnerIn (l owner : ℕ)
  /-- The call of the owner is about to give its lock back. -/
  | allocOwnerOut (l owner p : ℕ)
  /-- The owner, or `sys_alloc_page`, has returned. -/
  | allocNew (l p : ℕ)
  /-- `slab_list_alloc` is about to give the lock back. -/
  | allocOut (l x : ℕ)
  /-- `slab_list_free` in front of the lock. -/
  | free (l x : ℕ)
  | freeIn (l x : ℕ)
  | freeOwner (l owner a : ℕ)
  | freeOwnerIn (l owner a : ℕ)
  | freeOwnerOut (l owner : ℕ)
  | freeOut (l : ℕ)
deriving DecidableEq

namespace SlabCaller

/-- The user has the lock of a list. -/
def Holds : SlabCaller → ℕ → Prop
  | allocIn l, k | allocOwner l _, k | allocNew l _, k | allocOut l _, k => k = l
  | freeIn l _, k | freeOwner l _ _, k | freeOut l, k => k = l
  | allocOwnerIn l owner, k | allocOwnerOut l owner _, k => k = l ∨ k = owner
  | freeOwnerIn l owner _, k | freeOwnerOut l owner, k => k = l ∨ k = owner
  | _, _ => False

/-- The lock that the user spins for. -/
def waits : SlabCaller → Option ℕ
  | alloc l | free l _ => some l
  | allocOwner _ owner | freeOwner _ owner _ => some owner
  | _ => none

/-- The chunk that a call has taken and not yet returned, or that it has not yet given back. -/
def hand (root : ℕ) : SlabCaller → Option (ℕ × ℕ)
  | allocOwnerOut _ owner p => if p = 0 then none else some (owner, p)
  | allocNew _ p => if p = 0 then none else some (root, p)
  | allocOut l x => if x = 0 then none else some (l, x)
  | free l x | freeIn l x => some (l, x)
  | freeOwner _ owner a | freeOwnerIn _ owner a => some (owner, a)
  | _ => none

/-- The steps that a call has still to make, at most. -/
def rank : SlabCaller → ℕ
  | idle => 0
  | allocOut _ _ | freeOut _ => 1
  | allocNew _ _ | freeOwnerOut _ _ => 2
  | allocOwnerOut _ _ _ | freeOwnerIn _ _ _ => 3
  | allocOwnerIn _ _ | freeOwner _ _ _ => 4
  | allocOwner _ _ | freeIn _ _ => 5
  | allocIn _ | free _ _ => 6
  | alloc _ => 7

/-- Calls are on lists that are set up, and only children have an owner. -/
def Ok (root : ℕ) (kids : Finset ℕ) : SlabCaller → Prop
  | idle => True
  | alloc l | allocIn l | allocOut l _ => l ∈ insert root kids
  | free l _ | freeIn l _ | freeOut l => l ∈ insert root kids
  | allocNew l p => l ∈ insert root kids ∧ (l = root → p = 0)
  | allocOwner l owner | allocOwnerIn l owner | allocOwnerOut l owner _ => l ∈ kids ∧ owner = root
  | freeOwner l owner _ | freeOwnerIn l owner _ | freeOwnerOut l owner => l ∈ kids ∧ owner = root

end SlabCaller

/-- The slabs, the child lists that are set up, the locks, where the users are, and the addresses
that users hold. -/
structure SlabSmp (ι : Type) where
  st : Slabs
  kids : Finset ℕ
  lock : ℕ → ℕ
  phase : ι → SlabCaller
  live : ℕ → List ℕ

/-- The operations. -/
inductive SmpOp (ι : Type)
  /-- `slab_list_init` for a child, by a call that has `sl_lock`. -/
  | init (l size chunkSize : ℕ)
  /-- A user calls `slab_list_alloc`. -/
  | alloc (i : ι) (l : ℕ)
  /-- A user calls `slab_list_free`. -/
  | free (i : ι) (l x : ℕ)
  /-- A call goes on. -/
  | go (i : ι)

namespace SlabSmp

variable {ι : Type} [DecidableEq ι]

/-- A call goes on to `next` with the slabs `st`. -/
def pass (s : SlabSmp ι) (i : ι) (st : Slabs) (next : SlabCaller) : SlabSmp ι :=
  { s with
    st := st
    phase := Function.update s.phase i next }

/-- One round of `spinlock_lock`. -/
def spin (s : SlabSmp ι) (i : ι) (l : ℕ) (next : SlabCaller) : SlabSmp ι :=
  let r := compareAndSwap32 (s.lock l) 0 1
  { s with
    lock := Function.update s.lock l r.2
    phase := if r.1 = 0 then Function.update s.phase i next else s.phase }

/-- `spinlock_unlock`. -/
def unlock (s : SlabSmp ι) (i : ι) (l : ℕ) (next : SlabCaller) : SlabSmp ι :=
  { s with
    lock := Function.update s.lock l (compareAndSwap32 (s.lock l) 1 0).2
    phase := Function.update s.phase i next }

/-- What `slab_list_alloc` does after it has taken the lock. -/
def allocLocked (s : SlabSmp ι) (i : ι) (l : ℕ) : SlabSmp ι :=
  let a := s.st.links.cell (.head (.free l))
  if a ≠ 0 then
    let r := slabAlloc a (s.st.slab a)
    let st := s.st.setSlab a r.2
    s.pass i (if slabIsFull r.2 then st.move a (.used l) else st) (.allocOut l r.1)
  else
    match (s.st.list l).owner with
    | some owner => s.pass i s.st (.allocOwner l owner)
    | none => s.pass i s.st (.allocNew l sysAllocPage)

/-- What `slab_list_free` does after it has taken the lock. -/
def freeLocked (s : SlabSmp ι) (i : ι) (l x : ℕ) : SlabSmp ι :=
  let a := x / 2 ^ (s.st.list l).sizeShift * 2 ^ (s.st.list l).sizeShift
  let slab := slabFree a (s.st.slab a) x
  let st := s.st.setSlab a slab
  if slabIsFull (s.st.slab a) then s.pass i (st.move a (.free l)) (.freeOut l)
  else if slabIsEmpty slab && !slab.reserved then
    let st := { st with links := st.links.remove 0 a }
    match (st.list l).owner with
    | some owner => s.pass i st (.freeOwner l owner a)
    | none => s.pass i st (.freeOut l)
  else s.pass i st (.freeOut l)

/-- The next step of the call that a user makes; `none` if the user makes no call. -/
def go (s : SlabSmp ι) (i : ι) : Option (SlabSmp ι) :=
  match s.phase i with
  | .idle => none
  | .alloc l => some (s.spin i l (.allocIn l))
  | .allocIn l => some (s.allocLocked i l)
  | .allocOwner l owner => some (s.spin i owner (.allocOwnerIn l owner))
  | .allocOwnerIn l owner =>
    (s.st.slabListAlloc 1 owner).map fun (p, st) => s.pass i st (.allocOwnerOut l owner p)
  | .allocOwnerOut l owner p => some (s.unlock i owner (.allocNew l p))
  | .allocNew l p =>
    let r := Slabs.allocNew l (p, s.st)
    some (s.pass i r.2 (.allocOut l r.1))
  | .allocOut l x =>
    some { s.unlock i l .idle with
      live := if x ≠ 0 then Function.update s.live l (x :: s.live l) else s.live }
  | .free l x => some (s.spin i l (.freeIn l x))
  | .freeIn l x => some (s.freeLocked i l x)
  | .freeOwner l owner a => some (s.spin i owner (.freeOwnerIn l owner a))
  | .freeOwnerIn l owner a =>
    (s.st.slabListFree 1 owner a).map fun st => s.pass i st (.freeOwnerOut l owner)
  | .freeOwnerOut l owner => some (s.unlock i owner (.freeOut l))
  | .freeOut l => some (s.unlock i l .idle)

/-- One operation. -/
def step (root : ℕ) (s : SlabSmp ι) : SmpOp ι → Option (SlabSmp ι)
  | .init l size chunkSize =>
    match s.st.slabListInit l (some root) size chunkSize with
    | some st =>
      some { s with
        st := st
        kids := insert l s.kids
        lock := Function.update s.lock l 0 }
    | none => some s
  | .alloc i l => some { s with phase := Function.update s.phase i (.alloc l) }
  | .free i l x =>
    some { s with
      phase := Function.update s.phase i (.free l x)
      live := Function.update s.live l ((s.live l).erase x) }
  | .go i => s.go i

/-- A list is set up once and with sizes that `slab_init` can handle, only lists that are set up are
used, only addresses that a user holds are freed, and a user makes one call at a time. -/
def Allowed (root : ℕ) (s : SlabSmp ι) : SmpOp ι → Prop
  | .init l size chunkSize =>
    l ≠ root ∧ l ∉ s.kids ∧ (SlabList.mk (some root) (ceilPow2 size) (ceilPow2 chunkSize)).Good
  | .alloc i l => s.phase i = .idle ∧ l ∈ insert root s.kids
  | .free i l x => s.phase i = .idle ∧ l ∈ insert root s.kids ∧ x ∈ s.live l
  | .go _ => True

instance (root : ℕ) (s : SlabSmp ι) (op : SmpOp ι) : Decidable (s.Allowed root op) :=
  match op with
  | .init _ _ _ => inferInstanceAs (Decidable (_ ∧ _ ∧ _))
  | .alloc _ _ => inferInstanceAs (Decidable (_ ∧ _))
  | .free _ _ _ => inferInstanceAs (Decidable (_ ∧ _ ∧ _))
  | .go _ => inferInstanceAs (Decidable True)

/-- Before the first call. -/
def start (ι : Type) (st : Slabs) : SlabSmp ι where
  st := st
  kids := ∅
  lock _ := 0
  phase _ := .idle
  live _ := []

/-- The next step of a call, unless it is a round of a loop for a lock that is taken. -/
def move (s : SlabSmp ι) (i : ι) : Option (SlabSmp ι) :=
  (s.go i).filter fun s' => s'.phase i ≠ s.phase i

/-- Steps of calls of the users of a list, one after another, without new calls. -/
def moves (s : SlabSmp ι) (is : List ι) : Option (SlabSmp ι) := is.foldlM move s

end SlabSmp

/-- The places of the chunks that are out. -/
inductive SlabPlace (ι : Type)
  /-- A user of the lists has it. -/
  | user
  /-- The call of a user has it. -/
  | hand (i : ι)
  /-- It holds a slab of a child. -/
  | slab

/-- The chunks that the lists have handed out. -/
def chunksOut (lists : Finset ℕ) (out : ℕ → List ℕ) : Set (ℕ × ℕ) :=
  {o | o.1 ∈ lists ∧ o.2 ∈ out o.1}

/-- The chunks at a place. -/
def SlabSmp.place {ι : Type} (s : SlabSmp ι) (root : ℕ) (lay : Layout) :
    SlabPlace ι → Set (ℕ × ℕ)
  | .user => {o | o.2 ∈ s.live o.1}
  | .hand i => {o | (s.phase i).hand root = some o}
  | .slab => {o | o.1 = root ∧ ∃ l ∈ s.kids, o.2 ∈ lay.slabs l}

/-- The two levels are in order, the locks have one holder each, and a chunk that is out is in one
place. -/
structure SmpOk {ι : Type} (root base : ℕ) (s : SlabSmp ι) (geo : ℕ → Geometry) (lay : Layout)
    (out : ℕ → List ℕ) : Prop where
  slabs : SlabsOk s.st root base s.kids geo lay out
  locks : HeldBy SlabCaller.Holds s.lock s.phase
  phases : ∀ i, (s.phase i).Ok root s.kids
  nodup : ∀ l, (s.live l).Nodup
  custody : Custody (chunksOut (insert root s.kids) out) (s.place root lay)

section Steps

variable {ι : Type} [DecidableEq ι] {root base l x a : ℕ} {s s' : SlabSmp ι} {geo : ℕ → Geometry}
  {lay lay' : Layout} {out : ℕ → List ℕ} {i : ι} {next : SlabCaller} {st' : Slabs}

/-- Where the other calls are does not change. -/
theorem phases_update (h : SmpOk root base s geo lay out) (hnext : next.Ok root s.kids) (j : ι) :
    (Function.update s.phase i next j).Ok root s.kids := by
  by_cases heq : j = i
  · rw [heq, Function.update_self]
    exact hnext
  · rw [Function.update_of_ne heq]
    exact h.phases j

/-- What is in the hands of a call after a step of one call. -/
theorem hand_update (phase : ι → SlabCaller) (j : ι) (o : ℕ × ℕ) :
    (Function.update phase i next j).hand root = some o ↔
      (j = i ∧ next.hand root = some o) ∨ (j ≠ i ∧ (phase j).hand root = some o) := by
  by_cases heq : j = i
  · rw [heq, Function.update_self]
    simp
  · rw [Function.update_of_ne heq]
    simp [heq]

/-- A call takes a chunk in its hands. -/
theorem hand_enter {phase : ι → SlabCaller} {r : ℕ × ℕ} (hempty : (phase i).hand root = none)
    (hhand : next.hand root = some r) (j : ι) (o : ℕ × ℕ) :
    (Function.update phase i next j).hand root = some o ↔
      (phase j).hand root = some o ∨ (SlabPlace.hand j = .hand i ∧ o = r) := by
  rw [hand_update, hhand, SlabPlace.hand.injEq]
  by_cases heq : j = i
  · simp [heq, hempty, eq_comm]
  · simp [heq]

/-- A call no longer has a chunk in its hands. -/
theorem hand_leave {phase : ι → SlabCaller} {r : ℕ × ℕ} (hhand : (phase i).hand root = some r)
    (hempty : next.hand root = none) (j : ι) (o : ℕ × ℕ) :
    (Function.update phase i next j).hand root = some o ↔
      (phase j).hand root = some o ∧ (SlabPlace.hand j = .hand i → o ≠ r) := by
  rw [hand_update, hempty, SlabPlace.hand.injEq]
  by_cases heq : j = i
  · simp [heq, hhand, eq_comm]
  · simp [heq]

/-- A step that takes or gives back a lock, or only looks at the slabs. -/
theorem SmpOk.keep (h : SmpOk root base s geo lay out) {lock : ℕ → ℕ}
    (hlocks : HeldBy SlabCaller.Holds lock (Function.update s.phase i next))
    (hnext : next.Ok root s.kids) (hhand : next.hand root = (s.phase i).hand root) :
    SmpOk root base { s with
      lock := lock
      phase := Function.update s.phase i next } geo lay out := by
  refine ⟨h.slabs, hlocks, phases_update h hnext, h.nodup,
    h.custody.congr (fun _ => Iff.rfl) fun p o => ?_⟩
  cases p with
  | user | slab => exact Iff.rfl
  | hand j =>
    refine (hand_update s.phase j o).trans ?_
    rw [hhand]
    by_cases heq : j = i
    · simp [heq, SlabSmp.place]
    · simp [heq, SlabSmp.place]

/-- One round of `spinlock_lock`. -/
theorem SmpOk.spin (h : SmpOk root base s geo lay out) (hnext : next.Ok root s.kids)
    (hhand : next.hand root = (s.phase i).hand root)
    (hholds : ∀ k, next.Holds k ↔ (s.phase i).Holds k ∨ k = l) :
    SmpOk root base (s.spin i l next) geo lay out := by
  rcases (h.locks l).eq_zero_or_one with hzero | hone
  · have hspin : s.spin i l next =
        { s with
          lock := Function.update s.lock l 1
          phase := Function.update s.phase i next } := by
      simp [SlabSmp.spin, compareAndSwap32, hzero]
    rw [hspin]
    exact h.keep (h.locks.take hzero hholds) hnext hhand
  · have htaken : ¬ s.lock l = 0 := by omega
    have hspin : s.spin i l next = s := by
      simp only [SlabSmp.spin, compareAndSwap32, if_neg htaken, Function.update_eq_self]
    rwa [hspin]

/-- `spinlock_unlock`. -/
theorem SmpOk.unlock (h : SmpOk root base s geo lay out) (hnext : next.Ok root s.kids)
    (hhand : next.hand root = (s.phase i).hand root) (hheld : (s.phase i).Holds l)
    (hholds : ∀ k, next.Holds k ↔ (s.phase i).Holds k ∧ k ≠ l) :
    SmpOk root base (s.unlock i l next) geo lay out := by
  have hunlock : s.unlock i l next =
      { s with
        lock := Function.update s.lock l 0
        phase := Function.update s.phase i next } := by
    simp [SlabSmp.unlock, compareAndSwap32, (h.locks l).eq_one hheld]
  rw [hunlock]
  exact h.keep (h.locks.release hheld hholds) hnext hhand

/-- A call takes a chunk from a list. -/
theorem SmpOk.taken (h : SmpOk root base s geo lay out) (next : SlabCaller)
    (hl : l ∈ insert root s.kids) (hnext : next.Ok root s.kids)
    (hholds : ∀ k, next.Holds k ↔ (s.phase i).Holds k)
    (hempty : (s.phase i).hand root = none) (hhand : next.hand root = some (l, x))
    (hnew : x ∉ out l)
    (hslabs : SlabsOk st' root base s.kids geo lay' (Function.update out l (x :: out l)))
    (hsame : ∀ l' a, a ∈ lay'.slabs l' ↔ a ∈ lay.slabs l') :
    SmpOk root base (s.pass i st' next) geo lay' (Function.update out l (x :: out l)) := by
  refine ⟨hslabs, h.locks.stay hholds, phases_update h hnext, h.nodup,
    h.custody.enter (p := .hand i) (r := (l, x)) (fun hmem => hnew hmem.2) (fun o => ?_)
      fun p o => ?_⟩
  · obtain ⟨l', y⟩ := o
    simp only [chunksOut, Set.mem_ofPred_eq, Prod.mk.injEq, SlabSmp.pass]
    by_cases heq : l' = l
    · subst heq
      rw [Function.update_self, List.mem_cons]
      simp only [hl, true_and]
      exact or_comm
    · rw [Function.update_of_ne heq]
      simp [heq]
  · cases p with
    | user => simp [SlabSmp.place, SlabSmp.pass]
    | slab => simp [SlabSmp.place, SlabSmp.pass, hsame]
    | hand j => exact hand_enter hempty hhand j o

/-- A call gives a chunk back to its list. -/
theorem SmpOk.given (h : SmpOk root base s geo lay out) (next : SlabCaller)
    (hl : l ∈ insert root s.kids) (hnext : next.Ok root s.kids)
    (hholds : ∀ k, next.Holds k ↔ (s.phase i).Holds k)
    (hhand : (s.phase i).hand root = some (l, x)) (hempty : next.hand root = none)
    (hslabs : SlabsOk st' root base s.kids geo lay' (Function.update out l ((out l).erase x)))
    (hsame : ∀ l' a, a ∈ lay'.slabs l' ↔ a ∈ lay.slabs l') :
    SmpOk root base (s.pass i st' next) geo lay' (Function.update out l ((out l).erase x)) := by
  have hnodup := (h.slabs.lists l hl).nodup
  refine ⟨hslabs, h.locks.stay hholds, phases_update h hnext, h.nodup,
    h.custody.leave (p := .hand i) (r := (l, x)) hhand (fun o => ?_) fun p o => ?_⟩
  · obtain ⟨l', y⟩ := o
    simp only [chunksOut, Set.mem_ofPred_eq, ne_eq, Prod.mk.injEq, SlabSmp.pass]
    by_cases heq : l' = l
    · subst heq
      rw [Function.update_self, hnodup.mem_erase_iff]
      tauto
    · rw [Function.update_of_ne heq]
      simp [heq]
  · cases p with
    | user => simp [SlabSmp.place, SlabSmp.pass]
    | slab => simp [SlabSmp.place, SlabSmp.pass, hsame]
    | hand j => exact hand_leave hhand hempty j o

/-- A chunk of the root in the hands of a call becomes a slab of a child. -/
theorem SmpOk.placed (h : SmpOk root base s geo lay out) (next : SlabCaller) (hl : l ∈ s.kids)
    (hnext : next.Ok root s.kids) (hholds : ∀ k, next.Holds k ↔ (s.phase i).Holds k)
    (hhand : (s.phase i).hand root = some (root, a)) (hempty : next.hand root = none)
    (hslabs : SlabsOk st' root base s.kids geo lay' out)
    (hadd : ∀ l' b, b ∈ lay'.slabs l' ↔ b ∈ lay.slabs l' ∨ (l' = l ∧ b = a)) :
    SmpOk root base (s.pass i st' next) geo lay' out := by
  refine ⟨hslabs, h.locks.stay hholds, phases_update h hnext, h.nodup,
    h.custody.move (p := .hand i) (q := .slab) (r := (root, a)) hhand fun p o => ?_⟩
  obtain ⟨l', y⟩ := o
  cases p with
  | user => simp [SlabSmp.place, SlabSmp.pass]
  | slab =>
    simp only [SlabSmp.place, SlabSmp.pass, Set.mem_ofPred_eq, hadd, reduceCtorEq, false_implies,
      and_true, true_and, Prod.mk.injEq]
    constructor
    · rintro ⟨hroot, l'', hl'', hy | ⟨-, rfl⟩⟩
      · exact Or.inl ⟨hroot, l'', hl'', hy⟩
      · exact Or.inr ⟨hroot, rfl⟩
    · rintro (⟨hroot, l'', hl'', hy⟩ | ⟨hroot, rfl⟩)
      · exact ⟨hroot, l'', hl'', Or.inl hy⟩
      · exact ⟨hroot, l, hl, Or.inr ⟨rfl, rfl⟩⟩
  | hand j =>
    refine (hand_leave hhand hempty j _).trans (or_iff_left ?_).symm
    simp

/-- A call takes an empty slab of a child, which is a chunk of the root. -/
theorem SmpOk.lifted (h : SmpOk root base s geo lay out) (next : SlabCaller) (hl : l ∈ s.kids)
    (ha : a ∈ lay.slabs l) (hnext : next.Ok root s.kids)
    (hholds : ∀ k, next.Holds k ↔ (s.phase i).Holds k) (hempty : (s.phase i).hand root = none)
    (hhand : next.hand root = some (root, a)) (hslabs : SlabsOk st' root base s.kids geo lay' out)
    (hdrop : ∀ l' b, b ∈ lay'.slabs l' ↔ b ∈ lay.slabs l' ∧ b ≠ a) :
    SmpOk root base (s.pass i st' next) geo lay' out := by
  refine ⟨hslabs, h.locks.stay hholds, phases_update h hnext, h.nodup,
    h.custody.move (p := .slab) (q := .hand i) (r := (root, a)) ⟨rfl, l, hl, ha⟩ fun p o => ?_⟩
  obtain ⟨l', y⟩ := o
  cases p with
  | user => simp [SlabSmp.place, SlabSmp.pass]
  | slab =>
    simp only [SlabSmp.place, SlabSmp.pass, Set.mem_ofPred_eq, hdrop, reduceCtorEq, false_and,
      or_false, true_implies, ne_eq, Prod.mk.injEq]
    constructor
    · rintro ⟨hroot, l'', hl'', hy, hne⟩
      exact ⟨⟨hroot, l'', hl'', hy⟩, fun heq => hne heq.2⟩
    · rintro ⟨⟨hroot, l'', hl'', hy⟩, hne⟩
      exact ⟨hroot, l'', hl'', hy, fun heq => hne ⟨hroot, heq⟩⟩
  | hand j =>
    refine (hand_enter hempty hhand j _).trans (or_congr_left (and_iff_left ?_).symm)
    simp

/-- A call hands a chunk to its user. -/
theorem SmpOk.returned (h : SmpOk root base s geo lay out) (hl : l ∈ insert root s.kids)
    (hphase : s.phase i = .allocOut l x) :
    SmpOk root base { s.unlock i l .idle with
      live := if x ≠ 0 then Function.update s.live l (x :: s.live l) else s.live } geo lay out := by
  have hheld : (s.phase i).Holds l := by rw [hphase]; exact rfl
  have hholds : ∀ k, SlabCaller.idle.Holds k ↔ (s.phase i).Holds k ∧ k ≠ l := by
    intro k
    rw [hphase]
    simp [SlabCaller.Holds]
  have hunlock : s.unlock i l .idle =
      { s with
        lock := Function.update s.lock l 0
        phase := Function.update s.phase i .idle } := by
    simp [SlabSmp.unlock, compareAndSwap32, (h.locks l).eq_one hheld]
  rw [hunlock]
  by_cases hx : x = 0
  · simp only [hx, ne_eq, not_true_eq_false, if_false]
    exact h.keep (h.locks.release hheld hholds) trivial (by simp [hphase, SlabCaller.hand, hx])
  have hhand : (s.phase i).hand root = some (l, x) := by simp [hphase, SlabCaller.hand, hx]
  have hnew : x ∉ s.live l := h.custody.notMem_of_ne (p := .hand i) (q := .user) hhand (by simp)
  simp only [if_pos hx]
  refine ⟨h.slabs, h.locks.release hheld hholds, phases_update h trivial, fun l' => ?_,
    h.custody.move (p := .hand i) (q := .user) (r := (l, x)) hhand fun p o => ?_⟩
  · by_cases heq : l' = l
    · subst heq
      simp only [Function.update_self]
      exact List.nodup_cons.mpr ⟨hnew, h.nodup l'⟩
    · simp only [Function.update_of_ne heq]
      exact h.nodup l'
  · obtain ⟨l', y⟩ := o
    cases p with
    | user =>
      simp only [SlabSmp.place, Set.mem_ofPred_eq, reduceCtorEq, false_implies, and_true, true_and,
        Prod.mk.injEq]
      by_cases heq : l' = l
      · subst heq
        simp [or_comm]
      · simp [heq]
    | slab => simp [SlabSmp.place]
    | hand j =>
      refine (hand_leave hhand rfl j _).trans (or_iff_left ?_).symm
      simp

/-- A user gives a chunk to a call of `slab_list_free`. -/
theorem SmpOk.callFree (h : SmpOk root base s geo lay out) (hop : s.Allowed root (.free i l x)) :
    SmpOk root base { s with
      phase := Function.update s.phase i (.free l x)
      live := Function.update s.live l ((s.live l).erase x) } geo lay out := by
  obtain ⟨hidle, hl, hx⟩ := hop
  have hholds : ∀ k, (SlabCaller.free l x).Holds k ↔ (s.phase i).Holds k := by
    intro k
    rw [hidle]
    exact Iff.rfl
  refine ⟨h.slabs, h.locks.stay hholds, phases_update h hl, fun l' => ?_,
    h.custody.move (p := .user) (q := .hand i) (r := (l, x)) hx fun p o => ?_⟩
  · by_cases heq : l' = l
    · subst heq
      simp only [Function.update_self]
      exact (h.nodup l').erase x
    · simp only [Function.update_of_ne heq]
      exact h.nodup l'
  · obtain ⟨l', y⟩ := o
    cases p with
    | user =>
      simp only [SlabSmp.place, Set.mem_ofPred_eq, reduceCtorEq, false_and, or_false, true_implies,
        ne_eq, Prod.mk.injEq]
      by_cases heq : l' = l
      · subst heq
        rw [Function.update_self, (h.nodup l').mem_erase_iff]
        tauto
      · simp [heq]
    | slab => simp [SlabSmp.place]
    | hand j =>
      have hempty : (s.phase i).hand root = none := by rw [hidle]; rfl
      refine (hand_enter hempty rfl j _).trans (or_congr_left (and_iff_left ?_).symm)
      simp

end Steps

end Smor.Alloc
