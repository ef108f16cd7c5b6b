import Smor.Alloc.SmpRuns

/-!
# A call on the slab lists that no other disturbs

The steps of a call that has the slab lists for itself add up to what `slab_list_alloc` and
`slab_list_free` do as a whole, so the steps are those of the functions that the other results about
slab lists are about.
-/

namespace Smor.Alloc

open Smor.Lib Smor.Vm
open Smor.Console (compareAndSwap32)

variable {ι : Type} [DecidableEq ι] {root base l x : ℕ} {s s' : SlabSmp ι} {geo : ℕ → Geometry}
  {lay : Layout} {out : ℕ → List ℕ} {i : ι} {held : List ℕ} {st st' : Slabs}
  {phase next : SlabCaller}

/-- A user makes a call and has locks, the others are outside of all calls. -/
def SlabSmp.alone (s : SlabSmp ι) (i : ι) (st : Slabs) (held : List ℕ) (phase : SlabCaller) :
    SlabSmp ι :=
  { s with
    st := st
    lock := fun k => if k ∈ held then 1 else 0
    phase := Function.update s.phase i phase }

theorem SlabSmp.alone_at : (s.alone i st held phase).phase i = phase := Function.update_self _ _ _

theorem SlabSmp.alone_st : (s.alone i st held phase).st = st := rfl

theorem SlabSmp.alone_pass :
    (s.alone i st held phase).pass i st' next = s.alone i st' held next := by
  simp [SlabSmp.alone, SlabSmp.pass]

theorem SlabSmp.alone_spin (hl : l ∉ held) :
    (s.alone i st held phase).spin i l next = s.alone i st (l :: held) next := by
  have hlock : Function.update (fun k => if k ∈ held then 1 else 0) l 1 =
      fun k => if k ∈ l :: held then 1 else 0 := by
    funext k
    by_cases heq : k = l
    · simp [heq]
    · simp [heq]
  simp only [SlabSmp.alone, SlabSmp.spin, compareAndSwap32, hl, if_false, if_true, hlock,
    Function.update_idem]

theorem SlabSmp.alone_unlock (hl : l ∉ held) :
    (s.alone i st (l :: held) phase).unlock i l next = s.alone i st held next := by
  have hlock : Function.update (fun k => if k ∈ l :: held then 1 else 0) l 0 =
      fun k => if k ∈ held then 1 else 0 := by
    funext k
    by_cases heq : k = l
    · simp [heq, hl]
    · simp [heq]
  simp only [SlabSmp.alone, SlabSmp.unlock, compareAndSwap32, List.mem_cons_self, if_true, hlock,
    Function.update_idem]

/-- The runs in which only one user goes on. -/
def SlabSmp.GoesOn (root : ℕ) (i : ι) : SlabSmp ι → SlabSmp ι → Prop :=
  Reaches (SlabSmp.step root) fun _ op => op = .go i

theorem SlabSmp.GoesOn.go {t : SlabSmp ι} (h : SlabSmp.GoesOn root i s' (s.alone i st held phase))
    (hgo : (s.alone i st held phase).go i = some t) : SlabSmp.GoesOn root i s' t :=
  Reaches.tail h (o := .go i) rfl hgo

/-- `slab_list_alloc` without other calls. -/
theorem SlabSmp.alloc_alone (hroot : (st.list root).owner = none)
    (hl : l = root ∨ (st.list l).owner = some root)
    (halloc : st.slabListAlloc 2 l = some (x, st')) :
    SlabSmp.GoesOn root i (s.alone i st [] (.alloc l))
      { s.alone i st' [] .idle with
        live := if x ≠ 0 then Function.update s.live l (x :: s.live l) else s.live } := by
  -- the end of the call, and the part before it that has the lock
  suffices hin : SlabSmp.GoesOn root i (s.alone i st [l] (.allocIn l))
      (s.alone i st' [l] (.allocOut l x)) by
    have hlast := hin.go (t := { s.alone i st' [] .idle with
      live := if x ≠ 0 then Function.update s.live l (x :: s.live l) else s.live }) (by
        simp only [SlabSmp.go, SlabSmp.alone_at, SlabSmp.alone_unlock List.not_mem_nil]
        rfl)
    refine Relation.ReflTransGen.head ⟨.go i, rfl, ?_⟩ hlast
    simp only [SlabSmp.step, SlabSmp.go, SlabSmp.alone_at, SlabSmp.alone_spin List.not_mem_nil]
  have hstart : SlabSmp.GoesOn root i (s.alone i st [l] (.allocIn l))
      (s.alone i st [l] (.allocIn l)) := Reaches.refl _
  rw [Slabs.slabListAlloc] at halloc
  by_cases hhead : st.links.cell (.head (.free l)) ≠ 0
  · simp only [if_pos hhead, Option.some.injEq, Prod.mk.injEq] at halloc
    obtain ⟨rfl, rfl⟩ := halloc
    refine hstart.go ?_
    simp only [SlabSmp.go, SlabSmp.alone_at, SlabSmp.allocLocked, SlabSmp.alone_st, if_pos hhead,
      SlabSmp.alone_pass]
    rfl
  · simp only [if_neg hhead] at halloc
    by_cases heq : l = root
    · subst heq
      simp only [hroot, Option.map_some, Option.some.injEq] at halloc
      have hnew : SlabSmp.GoesOn l i (s.alone i st [l] (.allocIn l))
          (s.alone i st [l] (.allocNew l sysAllocPage)) := by
        refine hstart.go ?_
        simp only [SlabSmp.go, SlabSmp.alone_at, SlabSmp.allocLocked, SlabSmp.alone_st,
          if_neg hhead, hroot, SlabSmp.alone_pass]
      refine hnew.go ?_
      simp only [SlabSmp.go, SlabSmp.alone_at, SlabSmp.alone_st, halloc, SlabSmp.alone_pass]
    · have howner := hl.resolve_left heq
      have hother : root ∉ [l] := by simpa using Ne.symm heq
      simp only [howner] at halloc
      obtain ⟨⟨p, st₁⟩, hfirst, hlast⟩ := Option.map_eq_some_iff.mp halloc
      have hcall : SlabSmp.GoesOn root i (s.alone i st [l] (.allocIn l))
          (s.alone i st [l] (.allocOwner l root)) := by
        refine hstart.go ?_
        simp only [SlabSmp.go, SlabSmp.alone_at, SlabSmp.allocLocked, SlabSmp.alone_st,
          if_neg hhead, howner, SlabSmp.alone_pass]
      have hlock := hcall.go (t := s.alone i st [root, l] (.allocOwnerIn l root)) (by
        simp only [SlabSmp.go, SlabSmp.alone_at, SlabSmp.alone_spin hother])
      have hdone := hlock.go (t := s.alone i st₁ [root, l] (.allocOwnerOut l root p)) (by
        simp only [SlabSmp.go, SlabSmp.alone_at, SlabSmp.alone_st, hfirst, Option.map_some,
          SlabSmp.alone_pass])
      have hnew := hdone.go (t := s.alone i st₁ [l] (.allocNew l p)) (by
        simp only [SlabSmp.go, SlabSmp.alone_at, SlabSmp.alone_unlock hother])
      refine hnew.go ?_
      simp only [SlabSmp.go, SlabSmp.alone_at, SlabSmp.alone_st, hlast, SlabSmp.alone_pass]

/-- `slab_list_free` without other calls. -/
theorem SlabSmp.free_alone (hroot : (st.list root).owner = none)
    (hl : l = root ∨ (st.list l).owner = some root) (hfree : st.slabListFree 2 l x = some st') :
    SlabSmp.GoesOn root i (s.alone i st [] (.free l x)) (s.alone i st' [] .idle) := by
  suffices hin : SlabSmp.GoesOn root i (s.alone i st [l] (.freeIn l x))
      (s.alone i st' [l] (.freeOut l)) by
    have hlast := hin.go (t := s.alone i st' [] .idle) (by
      simp only [SlabSmp.go, SlabSmp.alone_at, SlabSmp.alone_unlock List.not_mem_nil])
    refine Relation.ReflTransGen.head ⟨.go i, rfl, ?_⟩ hlast
    simp only [SlabSmp.step, SlabSmp.go, SlabSmp.alone_at, SlabSmp.alone_spin List.not_mem_nil]
  have hstart : SlabSmp.GoesOn root i (s.alone i st [l] (.freeIn l x))
      (s.alone i st [l] (.freeIn l x)) := Reaches.refl _
  rw [Slabs.slabListFree] at hfree
  obtain ⟨a, ha⟩ : ∃ a, x / 2 ^ (st.list l).sizeShift * 2 ^ (st.list l).sizeShift = a := ⟨_, rfl⟩
  simp only [ha] at hfree
  split_ifs at hfree with hfull hempty
  · obtain rfl := Option.some.inj hfree
    refine hstart.go ?_
    simp only [SlabSmp.go, SlabSmp.alone_at, SlabSmp.freeLocked, SlabSmp.alone_st, ha,
      if_pos hfull, SlabSmp.alone_pass]
  · simp only [Slabs.setSlab] at hfree
    by_cases heq : l = root
    · subst heq
      simp only [hroot, Option.some.injEq] at hfree
      refine hstart.go ?_
      simp only [SlabSmp.go, SlabSmp.alone_at, SlabSmp.freeLocked, SlabSmp.alone_st, ha,
        if_neg hfull, if_pos hempty, Slabs.setSlab, hroot, SlabSmp.alone_pass, hfree]
    · have howner := hl.resolve_left heq
      have hother : root ∉ [l] := by simpa using Ne.symm heq
      simp only [howner] at hfree
      -- the slab, which is empty, is off the lists of the child before it goes to the root
      let st₁ : Slabs :=
        { st with
          links := st.links.remove 0 a
          slab := Function.update st.slab a (slabFree a (st.slab a) x) }
      have hcall := hstart.go (t := s.alone i st₁ [l] (.freeOwner l root a)) (by
        simp only [SlabSmp.go, SlabSmp.alone_at, SlabSmp.freeLocked, SlabSmp.alone_st, ha,
          if_neg hfull, if_pos hempty, Slabs.setSlab, howner, SlabSmp.alone_pass]
        rfl)
      have hlock := hcall.go (t := s.alone i st₁ [root, l] (.freeOwnerIn l root a)) (by
        simp only [SlabSmp.go, SlabSmp.alone_at, SlabSmp.alone_spin hother])
      have hdone := hlock.go (t := s.alone i st' [root, l] (.freeOwnerOut l root)) (by
        simp only [SlabSmp.go, SlabSmp.alone_at, SlabSmp.alone_st, st₁, hfree, Option.map_some,
          SlabSmp.alone_pass])
      refine hdone.go ?_
      simp only [SlabSmp.go, SlabSmp.alone_at, SlabSmp.alone_unlock hother]
  · obtain rfl := Option.some.inj hfree
    refine hstart.go ?_
    simp only [SlabSmp.go, SlabSmp.alone_at, SlabSmp.freeLocked, SlabSmp.alone_st, ha,
      if_neg hfull, if_neg hempty, SlabSmp.alone_pass]

omit [DecidableEq ι] in
/-- All locks are free while all users are outside of calls. -/
theorem SmpOk.lock_eq_zero (h : SmpOk root base s geo lay out) (hidle : ∀ i, s.phase i = .idle) :
    s.lock = fun _ => 0 := by
  funext k
  rcases h.locks k with ⟨hzero, -⟩ | ⟨-, j, hj, -⟩
  · exact hzero
  · rw [hidle j] at hj
    exact hj.elim

/-- A call that is made while all users are outside of calls finds the locks free. If no other call
disturbs it, it takes the steps to what `slab_list_alloc` and `slab_list_free` do as a whole, and
leaves the locks free. -/
theorem smp_call_alone {st₀ st₁ st₂ : Slabs} {info info' : BootInfo} {vm vm' : BootVm}
    {size chunkSize : ℕ} (hzero : ∀ h, st₀.links.cell (.head h) = 0)
    (hinit : st₀.slabListInit root none size chunkSize = some st₁) (hgood : (st₁.list root).Good)
    (hres : st₁.slabListReserveOnSlack 1 info vm root = some (true, st₂, info', vm'))
    (hrun : Reaches (SlabSmp.step root) (SlabSmp.Allowed root) (SlabSmp.start ι st₂) s)
    (hidle : ∀ i, s.phase i = .idle) (hl : l ∈ insert root s.kids) (i : ι) :
    s.lock = (fun _ => 0) ∧
    (∃ r t, SlabRun.step root ⟨s.st, s.kids, s.live⟩ (.alloc l) = some r ∧
      s.step root (.alloc i l) = some t ∧
      SlabSmp.GoesOn root i t
        { s with
          st := r.st
          live := r.live }) ∧
      ∀ x ∈ s.live l, ∃ r t, SlabRun.step root ⟨s.st, s.kids, s.live⟩ (.free l x) = some r ∧
        s.step root (.free i l x) = some t ∧
        SlabSmp.GoesOn root i t
          { s with
            st := r.st
            live := r.live } := by
  obtain ⟨base, geo, lay, out, h⟩ := smpOk_of_reaches hzero hinit hgood hres hrun
  have howner : l = root ∨ (s.st.list l).owner = some root :=
    (Finset.mem_insert.mp hl).imp_right fun hkid => (h.slabs.kid l hkid).1
  have halone : ∀ st phase live, SlabSmp.alone { s with live := live } i st [] phase =
      { s with
        st := st
        phase := Function.update s.phase i phase
        live := live } := by
    intro st phase live
    simp [SlabSmp.alone, h.lock_eq_zero hidle]
  have hphase : Function.update s.phase i .idle = s.phase :=
    Function.update_eq_self_iff.mpr (hidle i).symm
  refine ⟨h.lock_eq_zero hidle, ?_, ?_⟩
  · obtain ⟨x, st', halloc⟩ : ∃ x st', s.st.slabListAlloc 2 l = some (x, st') := by
      rcases Finset.mem_insert.mp hl with rfl | hkid
      · obtain ⟨x, st', halloc, -⟩ := h.slabs.alloc_root 1
        exact ⟨x, st', halloc⟩
      · obtain ⟨x, st', halloc, -⟩ := h.slabs.alloc_kid hkid 0
        exact ⟨x, st', halloc⟩
    refine ⟨_, _, by rw [SlabRun.step, halloc, Option.map_some], rfl, ?_⟩
    have hgoes := SlabSmp.alloc_alone (s := s) (i := i) h.slabs.root_owner howner halloc
    rw [halone _ _ s.live, halone _ _ s.live, hphase] at hgoes
    exact hgoes
  · intro x hx
    obtain ⟨st', hfree⟩ : ∃ st', s.st.slabListFree 2 l x = some st' := by
      obtain ⟨-, hout, hslab⟩ := h.user hx
      rcases Finset.mem_insert.mp hl with rfl | hkid
      · obtain ⟨st', -, hfree, -⟩ := h.slabs.free_root 1 hout (hslab rfl)
        exact ⟨st', hfree⟩
      · obtain ⟨st', -, -, hfree, -⟩ := h.slabs.free_kid hkid 0 hout
        exact ⟨st', hfree⟩
    refine ⟨_, _, by rw [SlabRun.step, hfree, Option.map_some], rfl, ?_⟩
    have hgoes := SlabSmp.free_alone (i := i)
      (s := { s with live := Function.update s.live l ((s.live l).erase x) })
      h.slabs.root_owner howner hfree
    rw [halone, halone, hphase] at hgoes
    exact hgoes

/-- A call for an object of 512 bytes, which takes a slab from the root. -/
theorem smp_call_alone_kmalloc :
    ∃ s t : SlabSmp Bool, s.lock = (fun _ => 0) ∧ s.step slRoot (.alloc true 6) = some t ∧
      ∃ r, SlabRun.step slRoot ⟨s.st, s.kids, s.live⟩ (.alloc 6) = some r ∧
        SlabSmp.GoesOn slRoot true t
          { s with
            st := r.st
            live := r.live } := by
  obtain ⟨st₁, st₂, info', vm', s, hinit, hgood, hres, hrun, hsee⟩ := kmalloc_smp
    [.init 6 kmallocChunkSize 512]
    (fun s => (s.phase false, s.phase true, decide (6 ∈ insert slRoot s.kids)))
    (.idle, .idle, true) (by decide +kernel)
  simp only [Prod.mk.injEq, decide_eq_true_eq] at hsee
  have hidle : ∀ i, s.phase i = .idle := by
    rintro (_ | _)
    · exact hsee.1
    · exact hsee.2.1
  obtain ⟨hlock, ⟨r, t, hr, ht, hgoes⟩, -⟩ :=
    smp_call_alone (fun _ => rfl) hinit hgood hres hrun hidle hsee.2.2 true
  exact ⟨s, t, hlock, ht, r, hr, hgoes⟩

end Smor.Alloc
