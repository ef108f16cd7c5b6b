import Smor.Alloc.Forest
import Smor.Alloc.Smp

/-!
# Runs of slab lists on several CPUs

Every step of a call keeps the invariant of the two levels and of the chunks that are under way,
whatever the other calls do between two steps. So on every run the addresses that users hold are
apart, nothing is lost, and somebody can always go on: the root is locked last, by a call that
waits for nothing.
-/

namespace Smor.Alloc

open Smor.Lib Smor.Vm
open Smor.Console (compareAndSwap32)

variable {ι : Type} [DecidableEq ι] {root base l x a p : ℕ} {s s' : SlabSmp ι} {geo : ℕ → Geometry}
  {lay lay' : Layout} {out : ℕ → List ℕ} {i : ι}

omit [DecidableEq ι] in
/-- A chunk in the hands of a call is out and neither in use nor a slab. -/
theorem SmpOk.hand (h : SmpOk root base s geo lay out)
    (hhand : (s.phase i).hand root = some (l, x)) :
    l ∈ insert root s.kids ∧ x ∈ out l ∧ x ∉ s.live l ∧
      (l = root → ∀ l' ∈ s.kids, x ∉ lay.slabs l') := by
  obtain ⟨hl, hx⟩ := h.custody.mem_out (p := .hand i) hhand
  refine ⟨hl, hx, h.custody.notMem_of_ne (p := .hand i) (q := .user) hhand (by simp), ?_⟩
  intro hroot l' hl' hmem
  have hslab : (l, x) ∈ s.place root lay .slab := ⟨hroot, l', hl', hmem⟩
  exact h.custody.notMem_of_ne (p := .hand i) (q := .slab) hhand (by simp) hslab

omit [DecidableEq ι] in
/-- A chunk that a user has is out and not a slab. -/
theorem SmpOk.user (h : SmpOk root base s geo lay out) (hx : x ∈ s.live l) :
    l ∈ insert root s.kids ∧ x ∈ out l ∧ (l = root → ∀ l' ∈ s.kids, x ∉ lay.slabs l') := by
  have huser : (l, x) ∈ s.place root lay .user := hx
  obtain ⟨hl, hout⟩ := h.custody.mem_out huser
  refine ⟨hl, hout, fun hroot l' hl' hmem => ?_⟩
  have hslab : (l, x) ∈ s.place root lay .slab := ⟨hroot, l', hl', hmem⟩
  exact h.custody.notMem_of_ne huser (by simp) hslab

/-- `slab_list_alloc` looks for a slab with a free chunk. -/
theorem SmpOk.allocLocked (h : SmpOk root base s geo lay out) (hphase : s.phase i = .allocIn l) :
    ∃ lay' out', SmpOk root base (s.allocLocked i l) geo lay' out' := by
  have hl : l ∈ insert root s.kids := by
    have hok := h.phases i
    rwa [hphase] at hok
  have hempty : (s.phase i).hand root = none := by rw [hphase]; rfl
  have hholds : ∀ k, k = l ↔ (s.phase i).Holds k := by
    intro k
    rw [hphase]
    exact Iff.rfl
  simp only [SlabSmp.allocLocked]
  by_cases hhead : s.st.links.cell (.head (.free l)) ≠ 0
  · rw [if_pos hhead]
    obtain ⟨rest, hnodes⟩ := h.slabs.linked.cons_of_head hhead
    obtain ⟨x, slab, lay', halloc, hnew, hpos, -, hok', hsame⟩ :=
      h.slabs.take hl (s := s.st.links.cell (.head (.free l))) (by simp [hnodes])
    simp only [halloc]
    refine ⟨lay', _, h.taken (.allocOut l x) hl hl hholds hempty ?_ hnew hok' hsame⟩
    simp [SlabCaller.hand, hpos]
  · rw [if_neg hhead]
    refine ⟨lay, out, ?_⟩
    rcases Finset.mem_insert.mp hl with rfl | hkid
    · rw [h.slabs.root_owner]
      exact h.keep (h.locks.stay hholds) ⟨hl, fun _ => rfl⟩ hempty.symm
    · rw [(h.slabs.kid l hkid).1]
      exact h.keep (h.locks.stay hholds) ⟨hkid, rfl⟩ hempty.symm

/-- `slab_list_alloc` of the root, called for a child. -/
theorem SmpOk.allocOwner (h : SmpOk root base s geo lay out)
    (hphase : s.phase i = .allocOwnerIn l root) :
    ∃ p st' lay' out', s.st.slabListAlloc 1 root = some (p, st') ∧
      SmpOk root base (s.pass i st' (.allocOwnerOut l root p)) geo lay' out' := by
  have hl : l ∈ s.kids := by
    have hok := h.phases i
    rw [hphase] at hok
    exact hok.1
  have hempty : (s.phase i).hand root = none := by rw [hphase]; rfl
  have hholds : ∀ p k, (SlabCaller.allocOwnerOut l root p).Holds k ↔ (s.phase i).Holds k := by
    intro p k
    rw [hphase]
    exact Iff.rfl
  obtain ⟨p, st', halloc, hcase⟩ := h.slabs.alloc_root 0
  rcases hcase with ⟨rfl, rfl⟩ | ⟨hpos, hnew, lay', hok', hsame⟩
  · exact ⟨0, _, lay, out, halloc, h.keep (h.locks.stay (hholds 0)) ⟨hl, rfl⟩ hempty.symm⟩
  · refine ⟨p, st', lay', _, halloc, h.taken (.allocOwnerOut l root p)
      (Finset.mem_insert_self _ _) ⟨hl, rfl⟩ (hholds p) hempty ?_ hnew hok' hsame⟩
    simp [SlabCaller.hand, hpos]

/-- A new slab of a child, and the first chunk of it. -/
theorem SmpOk.allocNew (h : SmpOk root base s geo lay out) (hphase : s.phase i = .allocNew l p) :
    ∃ lay' out', SmpOk root base
      (s.pass i (Slabs.allocNew l (p, s.st)).2 (.allocOut l (Slabs.allocNew l (p, s.st)).1))
      geo lay' out' := by
  obtain ⟨hl, hroot⟩ : (SlabCaller.allocNew l p).Ok root s.kids := hphase ▸ h.phases i
  have hholds : ∀ k, k = l ↔ (s.phase i).Holds k := by
    intro k
    rw [hphase]
    exact Iff.rfl
  by_cases hp : p = 0
  · refine ⟨lay, out, ?_⟩
    subst hp
    exact h.keep (h.locks.stay hholds) hl (by simp [hphase, SlabCaller.hand, Slabs.allocNew])
  have hkid : l ∈ s.kids := (Finset.mem_insert.mp hl).resolve_left fun heq => hp (hroot heq)
  have hhand : (s.phase i).hand root = some (root, p) := by simp [hphase, SlabCaller.hand, hp]
  obtain ⟨-, hout, -, hslab⟩ := h.hand hhand
  -- the chunk becomes a slab, and then its first chunk is taken
  obtain ⟨lay₁, hok₁, hmem, hlen, hadd⟩ := h.slabs.addSlab hkid hout (hslab rfl)
  have hplaced := h.placed (.allocIn l) hkid hl hholds hhand rfl hok₁ hadd
  obtain ⟨x, slab, lay₂, halloc, hnew, hpos, hfull, hok₂, hsame⟩ := hok₁.take hl hmem
  rw [hfull hlen, if_neg (by simp)] at hok₂
  refine ⟨lay₂, Function.update out l (x :: out l), ?_⟩
  have htaken := hplaced.taken (i := i) (.allocOut l x) hl hl
    (by simp [SlabSmp.pass, SlabCaller.Holds])
    (by simp [SlabSmp.pass, SlabCaller.hand]) (by simp [SlabCaller.hand, hpos]) hnew hok₂ hsame
  have hstep : Slabs.allocNew l (p, s.st) = (x, (s.st.newSlab l p false).setSlab p slab) := by
    simp only [Slabs.allocNew, if_pos (show ¬ p = 0 from hp), ne_eq, halloc]
  rw [hstep]
  simpa only [SlabSmp.pass, Function.update_idem] using htaken

/-- `slab_list_free` gives the chunk back, and takes its slab off the lists if that is empty. -/
theorem SmpOk.freeLocked (h : SmpOk root base s geo lay out) (hphase : s.phase i = .freeIn l x) :
    ∃ lay' out', SmpOk root base (s.freeLocked i l x) geo lay' out' := by
  have hhand : (s.phase i).hand root = some (l, x) := by rw [hphase]; rfl
  obtain ⟨hl, hx, -, hslab⟩ := h.hand hhand
  have hholds : ∀ k, k = l ↔ (s.phase i).Holds k := by
    intro k
    rw [hphase]
    exact Iff.rfl
  obtain ⟨a, ha, lay₁, hmask, hok₁, hfree, hsame⟩ := h.slabs.give hl hx hslab
  unfold SlabSmp.freeLocked
  simp only [hmask]
  by_cases hfull : slabIsFull (s.st.slab a) = true
  · rw [if_pos hfull] at hok₁ ⊢
    exact ⟨lay₁, _, h.given (.freeOut l) hl hl hholds hhand rfl hok₁ hsame⟩
  rw [if_neg hfull] at hok₁ ⊢
  split_ifs with hempty
  · have hkid : l ∈ s.kids := by
      refine (Finset.mem_insert.mp hl).resolve_left ?_
      rintro rfl
      -- the slab of the root is reserved
      obtain rfl := (h.slabs.root_slab a).mp ha
      have hres : (slabFree a (s.st.slab a) x).reserved = true := h.slabs.root_reserved
      simp [hres] at hempty
    have hslab := (hok₁.lists l hl).slab a ((hsame l a).mpr ha)
    simp only [Slabs.setSlab, Function.update_self] at hslab
    have hlen := hslab.isEmpty_iff.mp (Bool.and_eq_true_iff.mp hempty).1
    obtain ⟨hok₂, hdrop⟩ := hok₁.dropSlab hkid hfree hlen
    have hgiven := h.given (.freeOut l) hl hl hholds hhand rfl hok₁ hsame
    have hlifted := hgiven.lifted (i := i) (.freeOwner l root a) hkid
      ((hsame l a).mpr ha) ⟨hkid, rfl⟩ (by simp [SlabSmp.pass, SlabCaller.Holds])
      (by simp [SlabSmp.pass, SlabCaller.hand]) rfl hok₂ hdrop
    refine ⟨lay₁.drop l a, Function.update out l ((out l).erase x), ?_⟩
    simp only [Slabs.setSlab, (h.slabs.kid l hkid).1]
    simpa only [SlabSmp.pass, Slabs.setSlab, Function.update_idem] using hlifted
  · exact ⟨lay₁, _, h.given (.freeOut l) hl hl hholds hhand rfl hok₁ hsame⟩

/-- `slab_list_free` of the root, called for a child. -/
theorem SmpOk.freeOwner (h : SmpOk root base s geo lay out)
    (hphase : s.phase i = .freeOwnerIn l root a) :
    ∃ st' lay' out', s.st.slabListFree 1 root a = some st' ∧
      SmpOk root base (s.pass i st' (.freeOwnerOut l root)) geo lay' out' := by
  have hl : l ∈ s.kids := by
    have hok := h.phases i
    rw [hphase] at hok
    exact hok.1
  have hhand : (s.phase i).hand root = some (root, a) := by rw [hphase]; rfl
  obtain ⟨-, ha, -, hslab⟩ := h.hand hhand
  obtain ⟨st', lay', hfree, hok', hsame⟩ := h.slabs.free_root 0 ha (hslab rfl)
  refine ⟨st', lay', _, hfree, h.given (.freeOwnerOut l root) (Finset.mem_insert_self _ _)
    ⟨hl, rfl⟩ (fun k => ?_) hhand rfl hok' hsame⟩
  rw [hphase]
  exact Iff.rfl

/-- Only locks of lists that are set up are held. -/
theorem SlabCaller.Ok.of_holds {p : SlabCaller} {kids : Finset ℕ} (hok : p.Ok root kids)
    (hheld : p.Holds l) : l ∈ insert root kids := by
  cases p with
  | idle | alloc _ | free _ _ => exact hheld.elim
  | allocIn k | allocOut k _ | freeIn k _ | freeOut k =>
    obtain rfl : l = k := hheld
    exact hok
  | allocNew k _ =>
    obtain rfl : l = k := hheld
    exact hok.1
  | allocOwner k _ | freeOwner k _ _ =>
    obtain rfl : l = k := hheld
    exact Finset.mem_insert_of_mem hok.1
  | allocOwnerIn _ _ | allocOwnerOut _ _ _ | freeOwnerIn _ _ _ | freeOwnerOut _ _ =>
    obtain ⟨hkid, rfl⟩ := hok
    rcases hheld with rfl | rfl
    · exact Finset.mem_insert_of_mem hkid
    · exact Finset.mem_insert_self _ _

/-- A call that is under way may stay where it is while a list is set up. -/
theorem SlabCaller.Ok.insert_kid {p : SlabCaller} {kids : Finset ℕ} (hok : p.Ok root kids)
    (l : ℕ) : p.Ok root (insert l kids) := by
  have hsub : insert root kids ⊆ insert root (insert l kids) :=
    Finset.insert_subset_insert _ (Finset.subset_insert _ _)
  cases p with
  | idle => trivial
  | alloc _ | allocIn _ | allocOut _ _ | free _ _ | freeIn _ _ | freeOut _ => exact hsub hok
  | allocNew _ _ => exact ⟨hsub hok.1, hok.2⟩
  | allocOwner _ _ | allocOwnerIn _ _ | allocOwnerOut _ _ _ | freeOwner _ _ _ | freeOwnerIn _ _ _
  | freeOwnerOut _ _ => exact ⟨Finset.mem_insert_of_mem hok.1, hok.2⟩

/-- `slab_list_init` for a child. -/
theorem SmpOk.init (h : SmpOk root base s geo lay out) {size chunkSize : ℕ}
    (hop : s.Allowed root (.init l size chunkSize)) :
    ∃ s' geo' out', s.step root (.init l size chunkSize) = some s' ∧
      SmpOk root base s' geo' lay out' ∧ geo' root = geo root := by
  obtain ⟨hroot, hkid, hgood⟩ := hop
  have hl : l ∉ insert root s.kids := by simp [hroot, hkid]
  by_cases hbad : (s.st.list root).chunkShift ≠ ceilPow2 size
  · refine ⟨s, geo, out, ?_, h, rfl⟩
    simp [SlabSmp.step, Slabs.slabListInit, hbad]
  rw [not_not] at hbad
  -- nobody uses the lock of a list that is not set up
  have hlock : Function.update s.lock l 0 = s.lock := by
    rw [Function.update_eq_self_iff]
    rcases h.locks l with ⟨hzero, -⟩ | ⟨-, j, hj, -⟩
    · exact hzero.symm
    · exact absurd ((h.phases j).of_holds hj) hl
  have hstep : s.step root (.init l size chunkSize) = some
      { s with
        st := { s.st with
          list := Function.update s.st.list l ⟨some root, ceilPow2 size, ceilPow2 chunkSize⟩ }
        kids := insert l s.kids } := by
    have hlinks := Slabs.links_eq h.slabs.linked (h.slabs.others l hl)
    simp only [SlabSmp.step, Slabs.slabListInit, Option.mem_some_iff, exists_eq_left', hbad,
      ne_eq, not_true_eq_false, if_false, hlinks, hlock]
  refine ⟨_, Function.update geo l (SlabList.geometry _ hgood.usable), Function.update out l [],
    hstep, ⟨h.slabs.addList hl hgood rfl hbad, h.locks, fun j => (h.phases j).insert_kid l, h.nodup,
      h.custody.congr (fun o => ?_) fun p o => ?_⟩, Function.update_of_ne hroot.symm _ _⟩
  · obtain ⟨l', x⟩ := o
    simp only [chunksOut, Set.mem_ofPred_eq, Finset.mem_insert]
    by_cases heq : l' = l
    · subst heq
      simp [hroot, hkid]
    · simp [heq]
  · cases p with
    | user | hand j => exact Iff.rfl
    | slab =>
      simp only [SlabSmp.place, Set.mem_ofPred_eq, Finset.exists_mem_insert, h.slabs.others l hl,
        List.not_mem_nil, false_or]

/-- The locks after that of the owner is given back. -/
theorem holds_owner {owner : ℕ} (hne : l ≠ owner) (k : ℕ) :
    k = l ↔ (k = l ∨ k = owner) ∧ k ≠ owner := by
  constructor
  · rintro rfl
    exact ⟨Or.inl rfl, hne⟩
  · rintro ⟨heq, hk⟩
    exact heq.resolve_right hk

/-- The next step of a call is made and keeps the invariant. -/
theorem SmpOk.go (h : SmpOk root base s geo lay out) (hphase : s.phase i ≠ .idle) :
    ∃ s' lay' out', s.go i = some s' ∧ SmpOk root base s' geo lay' out' := by
  have hok := h.phases i
  cases hp : s.phase i with
  | idle => exact absurd hp hphase
  | alloc l =>
    rw [hp] at hok
    refine ⟨s.spin i l (.allocIn l), lay, out, by rw [SlabSmp.go, hp], h.spin hok ?_ fun k => ?_⟩
    · rw [hp]
      rfl
    · rw [hp]
      simp [SlabCaller.Holds]
  | allocIn l =>
    obtain ⟨lay', out', hok'⟩ := h.allocLocked hp
    exact ⟨s.allocLocked i l, lay', out', by rw [SlabSmp.go, hp], hok'⟩
  | allocOwner l owner =>
    rw [hp] at hok
    refine ⟨s.spin i owner (.allocOwnerIn l owner), lay, out, by rw [SlabSmp.go, hp],
      h.spin hok ?_ fun k => ?_⟩
    · rw [hp]
      rfl
    · rw [hp]
      rfl
  | allocOwnerIn l owner =>
    rw [hp] at hok
    obtain ⟨-, rfl⟩ := hok
    obtain ⟨p, st', lay', out', halloc, hok'⟩ := h.allocOwner hp
    refine ⟨_, lay', out', ?_, hok'⟩
    rw [SlabSmp.go, hp]
    simp only [halloc, Option.map_some]
  | allocOwnerOut l owner p =>
    rw [hp] at hok
    obtain ⟨hkid, rfl⟩ := hok
    have hne : l ≠ owner := by
      rintro rfl
      exact h.slabs.root_notMem hkid
    refine ⟨s.unlock i owner (.allocNew l p), lay, out, by rw [SlabSmp.go, hp],
      h.unlock ⟨Finset.mem_insert_of_mem hkid, fun heq => absurd heq hne⟩ ?_ ?_ fun k => ?_⟩
    · rw [hp]
      rfl
    · rw [hp]
      exact Or.inr rfl
    · rw [hp]
      exact holds_owner hne k
  | allocNew l p =>
    obtain ⟨lay', out', hok'⟩ := h.allocNew hp
    exact ⟨_, lay', out', by rw [SlabSmp.go, hp], hok'⟩
  | allocOut l x =>
    rw [hp] at hok
    exact ⟨_, lay, out, by rw [SlabSmp.go, hp], h.returned hok hp⟩
  | free l x =>
    rw [hp] at hok
    refine ⟨s.spin i l (.freeIn l x), lay, out, by rw [SlabSmp.go, hp], h.spin hok ?_ fun k => ?_⟩
    · rw [hp]
      rfl
    · rw [hp]
      simp [SlabCaller.Holds]
  | freeIn l x =>
    obtain ⟨lay', out', hok'⟩ := h.freeLocked hp
    exact ⟨s.freeLocked i l x, lay', out', by rw [SlabSmp.go, hp], hok'⟩
  | freeOwner l owner a =>
    rw [hp] at hok
    refine ⟨s.spin i owner (.freeOwnerIn l owner a), lay, out, by rw [SlabSmp.go, hp],
      h.spin hok ?_ fun k => ?_⟩
    · rw [hp]
      rfl
    · rw [hp]
      rfl
  | freeOwnerIn l owner a =>
    rw [hp] at hok
    obtain ⟨-, rfl⟩ := hok
    obtain ⟨st', lay', out', hfree, hok'⟩ := h.freeOwner hp
    refine ⟨_, lay', out', ?_, hok'⟩
    rw [SlabSmp.go, hp]
    simp only [hfree, Option.map_some]
  | freeOwnerOut l owner =>
    rw [hp] at hok
    obtain ⟨hkid, rfl⟩ := hok
    have hne : l ≠ owner := by
      rintro rfl
      exact h.slabs.root_notMem hkid
    refine ⟨s.unlock i owner (.freeOut l), lay, out, by rw [SlabSmp.go, hp],
      h.unlock (Finset.mem_insert_of_mem hkid) ?_ ?_ fun k => ?_⟩
    · rw [hp]
      rfl
    · rw [hp]
      exact Or.inr rfl
    · rw [hp]
      exact holds_owner hne k
  | freeOut l =>
    rw [hp] at hok
    refine ⟨s.unlock i l .idle, lay, out, by rw [SlabSmp.go, hp],
      h.unlock trivial ?_ ?_ fun k => ?_⟩
    · rw [hp]
      rfl
    · rw [hp]
      exact rfl
    · rw [hp]
      simp [SlabCaller.Holds]

/-- Every allowed operation that is made keeps the invariant and the sizes of the root. -/
theorem SmpOk.step (h : SmpOk root base s geo lay out) {op : SmpOp ι} (hop : s.Allowed root op)
    (hstep : s.step root op = some s') :
    ∃ geo' lay' out', SmpOk root base s' geo' lay' out' ∧ geo' root = geo root := by
  cases op with
  | init l size chunkSize =>
    obtain ⟨s'', geo', out', hstep', hok⟩ := h.init hop
    obtain rfl : s'' = s' := Option.some.inj (hstep'.symm.trans hstep)
    exact ⟨geo', lay, out', hok⟩
  | alloc i l =>
    obtain rfl := Option.some.inj hstep
    obtain ⟨hidle, hl⟩ := hop
    refine ⟨geo, lay, out, h.keep (h.locks.stay fun k => ?_) hl ?_, rfl⟩
    · rw [hidle]
      exact Iff.rfl
    · rw [hidle]
      rfl
  | free i l x =>
    obtain rfl := Option.some.inj hstep
    exact ⟨geo, lay, out, h.callFree hop, rfl⟩
  | go i =>
    have hphase : s.phase i ≠ .idle := by
      intro hidle
      simp [SlabSmp.step, SlabSmp.go, hidle] at hstep
    obtain ⟨s'', lay', out', hgo, hok⟩ := h.go hphase
    obtain rfl : s'' = s' := Option.some.inj (hgo.symm.trans hstep)
    exact ⟨geo, lay', out', hok, rfl⟩

omit [DecidableEq ι] in
/-- Before the first call. -/
theorem smpOk_start {st : Slabs} (hok : SlabsOk st root base ∅ geo lay fun _ => []) :
    SmpOk root base (SlabSmp.start ι st) geo lay fun _ => [] := by
  refine ⟨hok, fun k => Or.inl ⟨rfl, fun _ => id⟩, fun _ => trivial, fun _ => List.nodup_nil,
    fun o => ?_, fun p q o hp => ?_⟩
  · simp only [chunksOut, Set.mem_ofPred_eq, List.not_mem_nil, and_false, false_iff, not_exists]
    rintro (_ | j | _) <;> simp [SlabSmp.place, SlabSmp.start, SlabCaller.hand]
  · rcases p with _ | j | _ <;> simp [SlabSmp.place, SlabSmp.start, SlabCaller.hand] at hp

/-- A run keeps the invariant, the slab of the root, and its size. -/
theorem SmpOk.reaches (h : SmpOk root base s geo lay out)
    (hrun : Reaches (SlabSmp.step root) (SlabSmp.Allowed root) s s') :
    ∃ geo' lay' out', SmpOk root base s' geo' lay' out' ∧ geo' root = geo root := by
  refine hrun.invariant
    (I := fun s' => ∃ geo' lay' out', SmpOk root base s' geo' lay' out' ∧ geo' root = geo root)
    ⟨geo, lay, out, h, rfl⟩ ?_
  rintro t op t' ⟨geo', lay', out', hok, hgeo⟩ hop hstep
  obtain ⟨geo'', lay'', out'', hok', hgeo'⟩ := hok.step hop hstep
  exact ⟨geo'', lay'', out'', hok', hgeo'.trans hgeo⟩

/-- The invariant holds on every run. -/
theorem smpOk_of_reaches {st₀ st₁ st₂ : Slabs} {info info' : BootInfo} {vm vm' : BootVm}
    {size chunkSize : ℕ} (hzero : ∀ h, st₀.links.cell (.head h) = 0)
    (hinit : st₀.slabListInit root none size chunkSize = some st₁) (hgood : (st₁.list root).Good)
    (hres : st₁.slabListReserveOnSlack 1 info vm root = some (true, st₂, info', vm'))
    (hrun : Reaches (SlabSmp.step root) (SlabSmp.Allowed root) (SlabSmp.start ι st₂) s) :
    ∃ base geo lay out, SmpOk root base s geo lay out := by
  obtain ⟨base, geo, lay, hok⟩ := slabsOk_reserve hzero hinit hgood hres
  obtain ⟨geo', lay', out', hok', -⟩ := (smpOk_start hok).reaches hrun
  exact ⟨base, geo', lay', out', hok'⟩

omit [DecidableEq ι] in
/-- The two levels as a run of one caller who holds everything that is out and no slab. -/
theorem SmpOk.runOk (h : SmpOk root base s geo lay out) :
    ∃ live, RunOk root base ⟨s.st, s.kids, live⟩ geo lay out ∧
      ∀ l x, x ∈ s.live l → x ∈ live l := by
  let free x := decide (∀ l ∈ s.kids, x ∉ lay.slabs l)
  refine ⟨fun l => if l = root then (out l).filter free else if l ∈ s.kids then out l else [],
    ⟨h.slabs, fun l hl => ?_, fun x hx => ?_, ?_, fun l hl => ?_⟩, fun l x hx => ?_⟩
  · have hne : l ≠ root := by
      rintro rfl
      exact h.slabs.root_notMem hl
    simp [hne, hl]
  · simpa [free] using hx
  · simpa using h.slabs.root_list.nodup.filter _
  · rw [Finset.mem_insert, not_or] at hl
    simp [hl.1, hl.2]
  · obtain ⟨hl, hout, hslab⟩ := h.user hx
    simp only
    rcases Finset.mem_insert.mp hl with rfl | hkid
    · rw [if_pos rfl, List.mem_filter]
      exact ⟨hout, decide_eq_true (hslab rfl)⟩
    · have hne : l ≠ root := by
        rintro rfl
        exact h.slabs.root_notMem hkid
      rwa [if_neg hne, if_pos hkid]

/-- The steps that a call has still to make get fewer, or the call stays in a loop for a lock that
is taken. -/
theorem SlabSmp.go_cases (hgo : s.go i = some s') :
    (∃ next, s'.phase = Function.update s.phase i next ∧ next.rank < (s.phase i).rank) ∨
      (s' = s ∧ ∃ k, (s.phase i).waits = some k ∧ s.lock k ≠ 0) := by
  have hspin : ∀ l next, (s.phase i).waits = some l → next.rank < (s.phase i).rank →
      s.spin i l next = s' →
      (∃ next, s'.phase = Function.update s.phase i next ∧ next.rank < (s.phase i).rank) ∨
        (s' = s ∧ ∃ k, (s.phase i).waits = some k ∧ s.lock k ≠ 0) := by
    rintro l next hwaits hrank rfl
    by_cases hlock : s.lock l = 0
    · exact Or.inl ⟨next, by simp [SlabSmp.spin, compareAndSwap32, hlock], hrank⟩
    · refine Or.inr ⟨?_, l, hwaits, hlock⟩
      simp only [SlabSmp.spin, compareAndSwap32, if_neg hlock, Function.update_eq_self]
  unfold SlabSmp.go at hgo
  cases hp : s.phase i with
  | idle => simp [hp] at hgo
  | alloc l | free l x | allocOwner l owner | freeOwner l owner a =>
    simp only [hp, Option.some.injEq] at hgo
    exact hp ▸ hspin _ _ (by simp [hp, SlabCaller.waits]) (by simp [hp, SlabCaller.rank]) hgo
  | allocIn l =>
    simp only [hp, Option.some.injEq] at hgo
    subst hgo
    refine Or.inl ?_
    simp only [SlabSmp.allocLocked]
    split
    · exact ⟨_, rfl, by simp [SlabCaller.rank]⟩
    · split
      · exact ⟨_, rfl, by simp [SlabCaller.rank]⟩
      · exact ⟨_, rfl, by simp [SlabCaller.rank]⟩
  | freeIn l x =>
    simp only [hp, Option.some.injEq] at hgo
    subst hgo
    refine Or.inl ?_
    simp only [SlabSmp.freeLocked]
    split
    · exact ⟨_, rfl, by simp [SlabCaller.rank]⟩
    · split
      · split
        · exact ⟨_, rfl, by simp [SlabCaller.rank]⟩
        · exact ⟨_, rfl, by simp [SlabCaller.rank]⟩
      · exact ⟨_, rfl, by simp [SlabCaller.rank]⟩
  | allocOwnerIn l owner =>
    simp only [hp] at hgo
    obtain ⟨r, -, rfl⟩ := Option.map_eq_some_iff.mp hgo
    exact Or.inl ⟨_, rfl, by simp [SlabCaller.rank]⟩
  | freeOwnerIn l owner a =>
    simp only [hp] at hgo
    obtain ⟨r, -, rfl⟩ := Option.map_eq_some_iff.mp hgo
    exact Or.inl ⟨_, rfl, by simp [SlabCaller.rank]⟩
  | allocOwnerOut l owner p | allocNew l p | allocOut l x | freeOwnerOut l owner | freeOut l =>
    simp only [hp, Option.some.injEq] at hgo
    subst hgo
    exact Or.inl ⟨_, rfl, by simp [SlabCaller.rank]⟩

/-- A call that waits for no lock, or for one that is free, can move. -/
theorem SmpOk.move (h : SmpOk root base s geo lay out) (hphase : s.phase i ≠ .idle)
    (hfree : ∀ k, (s.phase i).waits = some k → s.lock k = 0) : (s.move i).isSome := by
  obtain ⟨s', -, -, hgo, -⟩ := h.go hphase
  have hmove : s'.phase i ≠ s.phase i := by
    rcases SlabSmp.go_cases hgo with ⟨next, hnext, hrank⟩ | ⟨-, k, hwaits, htaken⟩
    · rw [hnext, Function.update_self]
      rintro rfl
      exact lt_irrefl _ hrank
    · exact absurd (hfree k hwaits) htaken
  rw [SlabSmp.move, hgo, Option.filter_some, if_pos (decide_eq_true hmove)]
  rfl

/-- While a call is under way, some call can move: the one that waits, the one that has what it
waits for, or the one that has the lock of the root, which waits for nothing. -/
theorem SmpOk.progress (h : SmpOk root base s geo lay out) (hphase : s.phase i ≠ .idle) :
    ∃ j, (s.move j).isSome := by
  -- a call that has a lock waits for the root only, and with the lock of the root for nothing
  have hwaits : ∀ j k k', (s.phase j).Holds k → (s.phase j).waits = some k' →
      k' = root ∧ k ≠ root := by
    intro j k k' hheld hwait
    have hok := h.phases j
    cases hp : s.phase j with
    | allocOwner l owner | freeOwner l owner a =>
      rw [hp] at hheld hwait hok
      obtain ⟨hkid, rfl⟩ := hok
      obtain rfl : k = l := hheld
      obtain rfl : owner = k' := Option.some.inj hwait
      refine ⟨rfl, ?_⟩
      rintro rfl
      exact h.slabs.root_notMem hkid
    | _ =>
      rw [hp] at hheld hwait
      first
        | exact hheld.elim
        | cases hwait
  have hidle : ∀ j k, (s.phase j).Holds k → s.phase j ≠ .idle := by
    intro j k hheld heq
    rw [heq] at hheld
    exact hheld
  by_cases hfree : ∀ k, (s.phase i).waits = some k → s.lock k = 0
  · exact ⟨i, h.move hphase hfree⟩
  push Not at hfree
  obtain ⟨k, -, htaken⟩ := hfree
  obtain ⟨j, hj, -⟩ := ((h.locks k).resolve_left fun hnone => htaken hnone.1).2
  by_cases hfree : ∀ k', (s.phase j).waits = some k' → s.lock k' = 0
  · exact ⟨j, h.move (hidle j k hj) hfree⟩
  push Not at hfree
  obtain ⟨k', hwait, htaken'⟩ := hfree
  obtain ⟨m, hm, -⟩ := ((h.locks k').resolve_left fun hnone => htaken' hnone.1).2
  obtain ⟨rfl, -⟩ := hwaits j k k' hj hwait
  refine ⟨m, h.move (hidle m k' hm) fun k'' hwait' => ?_⟩
  exact absurd rfl (hwaits m k' k'' hm hwait').2

/-- What a list has handed out is a chunk of one of its slabs. -/
theorem SlabsOk.placed {st : Slabs} {kids : Finset ℕ} (hok : SlabsOk st root base kids geo lay out)
    (hl : l ∈ insert root kids) (hx : x ∈ out l) : st.Placed (l, x) := by
  have hlist := hok.lists l hl
  obtain ⟨a, ha, hdvd, hlow, hhigh⟩ := hlist.placed hx
  have hnull : a ≠ 0 := (Layout.mem_slabs.mp ha).elim hok.linked.ne_null hok.linked.ne_null
  rw [Slabs.Placed, hlist.shifts.1, hlist.shifts.2]
  refine ⟨hdvd, by omega, a, hok.has_iff.mpr ha, ?_, hhigh⟩
  rwa [(hlist.slab a ha).numReserved]

omit [DecidableEq ι] in
/-- What users hold lies in the slab of the root. -/
theorem SmpOk.range_subset (h : SmpOk root base s geo lay out) {o : ℕ × ℕ}
    (ho : o.2 ∈ s.live o.1) :
    s.st.range o ⊆ Set.Ico base (base + 2 ^ (geo root).sizeShift) := by
  obtain ⟨l, x⟩ := o
  obtain ⟨hl, hx, -⟩ := h.user ho
  have hroot : ∀ y ∈ out root, base ≤ y ∧
      y + 2 ^ (geo root).chunkShift ≤ base + 2 ^ (geo root).sizeShift := by
    intro y hy
    obtain ⟨a, ha, -, hlow, hhigh⟩ := h.slabs.root_list.placed hy
    obtain rfl := (h.slabs.root_slab a).mp ha
    exact ⟨by omega, hhigh⟩
  rw [Slabs.range, (h.slabs.lists l hl).shifts.2]
  rcases Finset.mem_insert.mp hl with rfl | hkid
  · exact Set.Ico_subset_Ico (hroot x hx).1 (hroot x hx).2
  · -- the slab of a child is a chunk of the root
    obtain ⟨a, ha, -, hlow, hhigh⟩ := (h.slabs.lists l hl).placed hx
    rw [(h.slabs.kid l hkid).2] at hhigh
    have hslab := hroot a (h.slabs.kid_slab l hkid a ha)
    exact Set.Ico_subset_Ico (by omega) (by omega)

/-- A step that is made brings its call nearer to the end. -/
theorem SlabSmp.rank_lt (hmove : s.move i = some s') :
    s.go i = some s' ∧
      ∃ next, s'.phase = Function.update s.phase i next ∧ next.rank < (s.phase i).rank := by
  obtain ⟨hgo, hne⟩ := Option.filter_eq_some_iff.mp hmove
  refine ⟨hgo, ?_⟩
  rcases SlabSmp.go_cases hgo with hcase | ⟨rfl, -⟩
  · exact hcase
  · simp at hne

/-- Steps of calls keep the invariant, and every user makes no more of them than its call needs. -/
theorem SmpOk.moves {is : List ι} (h : SmpOk root base s geo lay out)
    (hmoves : s.moves is = some s') :
    (∃ lay' out', SmpOk root base s' geo lay' out') ∧
      ∀ i, is.count i + (s'.phase i).rank ≤ (s.phase i).rank := by
  induction is generalizing s lay out with
  | nil =>
    obtain rfl : s = s' := by simpa [SlabSmp.moves] using hmoves
    exact ⟨⟨lay, out, h⟩, fun i => by simp⟩
  | cons i is ih =>
    rw [SlabSmp.moves, List.foldlM_cons] at hmoves
    obtain ⟨s₁, hmove, hrest⟩ := Option.bind_eq_some_iff.mp hmoves
    obtain ⟨hgo, next, hnext, hrank⟩ := SlabSmp.rank_lt hmove
    have hphase : s.phase i ≠ .idle := by
      intro hidle
      simp [hidle, SlabCaller.rank] at hrank
    obtain ⟨s₂, lay₁, out₁, hgo', hok⟩ := h.go hphase
    obtain rfl : s₂ = s₁ := Option.some.inj (hgo'.symm.trans hgo)
    obtain ⟨hok', hcount⟩ := ih hok hrest
    refine ⟨hok', fun j => ?_⟩
    have hj := hcount j
    rw [hnext] at hj
    by_cases heq : j = i
    · subst heq
      rw [Function.update_self] at hj
      rw [List.count_cons_self]
      omega
    · rw [Function.update_of_ne heq] at hj
      rwa [List.count_cons_of_ne (Ne.symm heq)]

/-- The user starts a call. -/
def SmpOp.Starts (i : ι) : SmpOp ι → Prop
  | .alloc j _ | .free j _ _ => j = i
  | .init _ _ _ | .go _ => False

/-- 1 for a step of a user that is not a round of a loop for a lock that is taken. -/
def SlabSmp.ownMove (s : SlabSmp ι) (i : ι) : SmpOp ι → ℕ
  | .go j => if j = i ∧ (s.move i).isSome then 1 else 0
  | .init _ _ _ | .alloc _ _ | .free _ _ _ => 0

/-- The number of such steps in a run. -/
def SlabSmp.ownMoves (root : ℕ) (i : ι) : SlabSmp ι → List (SmpOp ι) → ℕ
  | _, [] => 0
  | s, op :: ops => s.ownMove i op + ((s.step root op).map fun s' => s'.ownMoves root i ops).getD 0

/-- A step of the user brings its call nearer to the end, and no other operation takes it away
from there. -/
theorem SlabSmp.ownMove_le {op : SmpOp ι} (hcall : ¬ op.Starts i)
    (hstep : s.step root op = some s') : s.ownMove i op + (s'.phase i).rank ≤ (s.phase i).rank := by
  cases op with
  | init l size chunkSize =>
    have hsame : s'.phase = s.phase := by
      simp only [SlabSmp.step] at hstep
      split at hstep <;> exact (Option.some.inj hstep) ▸ rfl
    rw [hsame, SlabSmp.ownMove, Nat.zero_add]
  | alloc j l | free j l x =>
    obtain rfl := Option.some.inj hstep
    have hne : i ≠ j := fun heq => hcall heq.symm
    simp only [SlabSmp.ownMove, Function.update_of_ne hne, Nat.zero_add, le_refl]
  | go j =>
    rw [SlabSmp.ownMove]
    by_cases hj : j = i
    · subst hj
      cases hmove : s.move j with
      | some s₂ =>
        obtain ⟨hgo, next, hnext, hrank⟩ := SlabSmp.rank_lt hmove
        obtain rfl : s₂ = s' := Option.some.inj (hgo.symm.trans hstep)
        rw [hnext, Function.update_self, if_pos ⟨rfl, rfl⟩]
        omega
      | none =>
        rw [if_neg (by simp), Nat.zero_add]
        rcases SlabSmp.go_cases hstep with ⟨next, hnext, hrank⟩ | ⟨rfl, -⟩
        · rw [hnext, Function.update_self]
          exact hrank.le
        · exact le_rfl
    · rw [if_neg fun hand => hj hand.1, Nat.zero_add]
      rcases SlabSmp.go_cases hstep with ⟨next, hnext, -⟩ | ⟨rfl, -⟩
      · rw [hnext, Function.update_of_ne (Ne.symm hj)]
      · exact le_rfl

/-- Whatever the others do, a call makes no more steps than its rank says. -/
theorem SlabSmp.ownMoves_le {ops : List (SmpOp ι)} (hcalls : ∀ op ∈ ops, ¬ op.Starts i)
    (hrun : ops.foldlM (SlabSmp.step root) s = some s') :
    s.ownMoves root i ops + (s'.phase i).rank ≤ (s.phase i).rank := by
  induction ops generalizing s with
  | nil =>
    obtain rfl := Option.some.inj hrun
    exact (Nat.zero_add _).le
  | cons op ops ih =>
    obtain ⟨s₁, hstep, hrest⟩ := Option.bind_eq_some_iff.mp hrun
    have hone := SlabSmp.ownMove_le (hcalls op List.mem_cons_self) hstep
    have hmore := ih (fun op' hop => hcalls op' (List.mem_cons_of_mem _ hop)) hrest
    rw [SlabSmp.ownMoves, hstep, Option.map_some, Option.getD_some]
    omega

/-- The root of `kmalloc` on its slack memory, with the kernel ending at 1MB and the slack memory
mapped up to 4MB, and a run of two users. -/
theorem kmalloc_smp {α : Type} (ops : List (SmpOp Bool)) (see : SlabSmp Bool → α) (v : α)
    (h : ((Slabs.blank.slabListInit slRoot none page2mSize kmallocChunkSize).bind fun st₁ =>
      (st₁.slabListReserveOnSlack 1 ⟨0x100000, 0x400000, 0x100000, [], 0⟩ ⟨fun _ => 0, 0⟩
        slRoot).bind fun x =>
        (runOps (SlabSmp.step slRoot) (SlabSmp.Allowed slRoot) (SlabSmp.start Bool x.2.1) ops).map
          fun s => (decide (st₁.list slRoot).Good, x.1, see s)) = some (true, true, v)) :
    ∃ st₁ st₂ info' vm' s,
      Slabs.blank.slabListInit slRoot none page2mSize kmallocChunkSize = some st₁ ∧
      (st₁.list slRoot).Good ∧
      st₁.slabListReserveOnSlack 1 ⟨0x100000, 0x400000, 0x100000, [], 0⟩ ⟨fun _ => 0, 0⟩ slRoot =
        some (true, st₂, info', vm') ∧
      Reaches (SlabSmp.step slRoot) (SlabSmp.Allowed slRoot) (SlabSmp.start Bool st₂) s ∧
      see s = v := by
  obtain ⟨st₁, hinit, hrest⟩ := Option.bind_eq_some_iff.mp h
  obtain ⟨⟨ok, st₂, info', vm'⟩, hres, hrest⟩ := Option.bind_eq_some_iff.mp hrest
  obtain ⟨s, hrun, heq⟩ := Option.map_eq_some_iff.mp hrest
  simp only [Prod.mk.injEq, decide_eq_true_eq] at heq
  obtain ⟨hgood, rfl, hsee⟩ := heq
  exact ⟨st₁, st₂, info', vm', s, hinit, hgood, hres, Reaches.of_runOps hrun, hsee⟩

omit [DecidableEq ι] in
/-- Two objects that users hold do not overlap. -/
theorem SmpOk.disjoint (h : SmpOk root base s geo lay out) {o o' : ℕ × ℕ} (ho : o.2 ∈ s.live o.1)
    (ho' : o'.2 ∈ s.live o'.1) (hne : o ≠ o') : Disjoint (s.st.range o) (s.st.range o') := by
  obtain ⟨live, hok, hlive⟩ := h.runOk
  have hslab : ∀ o : ℕ × ℕ, o.2 ∈ s.live o.1 → o.1 = root → ∀ l ∈ s.kids, ¬ s.st.Has l o.2 := by
    intro o ho hroot l hl hhas
    exact (h.user ho).2.2 hroot l hl (h.slabs.has_iff.mp hhas)
  have hobject : ∀ o : ℕ × ℕ, o.2 ∈ s.live o.1 → SlabRun.Object root ⟨s.st, s.kids, live⟩ o :=
    fun o ho => Or.inl (hlive o.1 o.2 ho)
  rcases hok.apart (hobject o ho) (hobject o' ho') hne with hapart | hin | hin
  · exact hapart
  · exact absurd hin.2.2.1 (hslab o' ho' hin.1 o.1 hin.2.1)
  · exact absurd hin.2.2.1 (hslab o ho hin.1 o'.1 hin.2.1)

omit [DecidableEq ι] in
/-- An object that a user holds overlaps no free chunk, of whichever level. -/
theorem SmpOk.disjoint_free (h : SmpOk root base s geo lay out) {o : ℕ × ℕ}
    (ho : o.2 ∈ s.live o.1) (hl : l ∈ insert root s.kids) (hfree : s.st.FreeChunk l x) :
    Disjoint (s.st.range o) (s.st.range (l, x)) := by
  obtain ⟨k, y⟩ := o
  obtain ⟨hk, hy, huser⟩ := h.user ho
  have hlist := h.slabs.lists l hl
  have hlist' := h.slabs.lists k hk
  obtain ⟨hx, a, ha, hdvd, hlow, hhigh⟩ := hlist.freeChunk h.slabs.linked hfree
  obtain ⟨b, hb, hdvd', hlow', hhigh'⟩ := hlist'.placed hy
  have hroot := h.slabs.root_list
  -- the slab of a child covers its chunks, and is a chunk of the root
  have hsub : l ∈ s.kids → a ∈ out root ∧ s.st.range (l, x) ⊆ s.st.range (root, a) := by
    intro hkid
    simp only [Slabs.range, hlist.shifts.2, hroot.shifts.2]
    rw [← (h.slabs.kid l hkid).2]
    exact ⟨h.slabs.kid_slab l hkid a ha, Set.Ico_subset_Ico hlow hhigh⟩
  have hsub' : k ∈ s.kids → b ∈ out root ∧ s.st.range (k, y) ⊆ s.st.range (root, b) := by
    intro hkid
    simp only [Slabs.range, hlist'.shifts.2, hroot.shifts.2]
    rw [← (h.slabs.kid k hkid).2]
    exact ⟨h.slabs.kid_slab k hkid b hb, Set.Ico_subset_Ico (by omega) hhigh'⟩
  have hchunk : ∀ {p q : ℕ}, 2 ^ (geo root).chunkShift ∣ p → 2 ^ (geo root).chunkShift ∣ q →
      p ≠ q → Disjoint (s.st.range (root, p)) (s.st.range (root, q)) := by
    intro p q hp hq hne
    simp only [Slabs.range, hroot.shifts.2]
    exact disjoint_of_aligned hp hq hne
  by_cases heq : k = l
  · subst heq
    simp only [Slabs.range, hlist.shifts.2]
    refine disjoint_of_aligned hdvd' hdvd ?_
    rintro rfl
    exact hx hy
  rcases Finset.mem_insert.mp hl with rfl | hkid <;>
  rcases Finset.mem_insert.mp hk with rfl | hkid'
  · exact absurd rfl heq
  · obtain ⟨hout, hinside⟩ := hsub' hkid'
    refine Set.disjoint_of_subset_left hinside (hchunk (h.slabs.root_chunk hout).2.2.1 hdvd ?_)
    rintro rfl
    exact hx hout
  · obtain ⟨hout, hinside⟩ := hsub hkid
    refine Set.disjoint_of_subset_right hinside (hchunk hdvd' (h.slabs.root_chunk hout).2.2.1 ?_)
    rintro rfl
    exact huser rfl l hkid ha
  · obtain ⟨hout, hinside⟩ := hsub hkid
    obtain ⟨hout', hinside'⟩ := hsub' hkid'
    refine Set.disjoint_of_subset hinside' hinside
      (hchunk (h.slabs.root_chunk hout').2.2.1 (h.slabs.root_chunk hout).2.2.1 ?_)
    rintro rfl
    exact heq (Layout.list_unique h.slabs.linked hb ha)

/-- Whatever the order in which any number of users on any number of CPUs take the steps of their
calls: the addresses that they hold are distinct, aligned chunks behind the header of a slab of
their list, no two of them overlap, none of them overlaps a free chunk of either level or is a chunk
that a call is handling or one that holds a slab of a child, and a lock has one holder. -/
theorem smp_objects_apart {st₀ st₁ st₂ : Slabs} {info info' : BootInfo} {vm vm' : BootVm}
    {size chunkSize : ℕ} (hzero : ∀ h, st₀.links.cell (.head h) = 0)
    (hinit : st₀.slabListInit root none size chunkSize = some st₁) (hgood : (st₁.list root).Good)
    (hres : st₁.slabListReserveOnSlack 1 info vm root = some (true, st₂, info', vm'))
    (hrun : Reaches (SlabSmp.step root) (SlabSmp.Allowed root) (SlabSmp.start ι st₂) s) :
    (∀ l, (s.live l).Nodup) ∧
      (∀ o : ℕ × ℕ, o.2 ∈ s.live o.1 → s.st.Placed o ∧ (∀ i, (s.phase i).hand root ≠ some o) ∧
        (o.1 = root → ∀ l ∈ s.kids, ¬ s.st.Has l o.2)) ∧
      (∀ o o' : ℕ × ℕ, o.2 ∈ s.live o.1 → o'.2 ∈ s.live o'.1 → o ≠ o' →
        Disjoint (s.st.range o) (s.st.range o')) ∧
      (∀ o : ℕ × ℕ, o.2 ∈ s.live o.1 → ∀ l ∈ insert root s.kids, ∀ x, s.st.FreeChunk l x →
        Disjoint (s.st.range o) (s.st.range (l, x))) ∧
      ∀ i j k, (s.phase i).Holds k → (s.phase j).Holds k → i = j := by
  obtain ⟨base, geo, lay, out, h⟩ := smpOk_of_reaches hzero hinit hgood hres hrun
  refine ⟨h.nodup, fun o ho => ⟨?_, fun i hhand => ?_, fun hroot l hl hhas => ?_⟩,
    fun o o' ho ho' hne => h.disjoint ho ho' hne,
    fun o ho l hl x hfree => h.disjoint_free ho hl hfree, fun i j k => (h.locks k).unique⟩
  · obtain ⟨hl, hx, -⟩ := h.user ho
    exact h.slabs.placed hl hx
  · have hplace : o ∈ s.place root lay .user := ho
    have hmem : o ∈ s.place root lay (.hand i) := hhand
    exact h.custody.notMem_of_ne hplace (by simp) hmem
  · exact (h.user ho).2.2 hroot l hl (h.slabs.has_iff.mp hhas)

/-- One user takes a chunk of the root while another, which takes an object of 512 bytes, spins for
the lock of the root. -/
theorem smp_objects_apart_kmalloc :
    ∃ s : SlabSmp Bool, s.live 6 = [0xFFFFFFFF80208200] ∧ s.live 0 = [0xFFFFFFFF80204000] ∧
      Disjoint (s.st.range (6, 0xFFFFFFFF80208200)) (s.st.range (0, 0xFFFFFFFF80204000)) := by
  obtain ⟨st₁, st₂, info', vm', s, hinit, hgood, hres, hrun, hlive⟩ := kmalloc_smp
    [.init 6 kmallocChunkSize 512, .alloc false 6, .alloc true 0, .go false, .go true, .go false,
      .go false, .go true, .go true, .go false, .go false, .go false, .go false, .go false]
    (fun s => (s.live 6, s.live 0)) ([0xFFFFFFFF80208200], [0xFFFFFFFF80204000]) (by decide +kernel)
  rw [Prod.mk.injEq] at hlive
  refine ⟨s, hlive.1, hlive.2, ?_⟩
  refine (smp_objects_apart (fun _ => rfl) hinit hgood hres hrun).2.2.1 _ _ ?_ ?_ (by decide)
  · simp [hlive.1]
  · simp [hlive.2]

/-- Calls that are under way come to an end: as long as there are any, one of them can make a step
that is not a round of a loop for a lock that is taken, and a call makes seven such steps at most,
whatever calls the others make in the meantime. -/
theorem smp_calls_end {st₀ st₁ st₂ : Slabs} {info info' : BootInfo} {vm vm' : BootVm}
    {size chunkSize : ℕ} {is : List ι} (hzero : ∀ h, st₀.links.cell (.head h) = 0)
    (hinit : st₀.slabListInit root none size chunkSize = some st₁) (hgood : (st₁.list root).Good)
    (hres : st₁.slabListReserveOnSlack 1 info vm root = some (true, st₂, info', vm'))
    (hrun : Reaches (SlabSmp.step root) (SlabSmp.Allowed root) (SlabSmp.start ι st₂) s)
    (hmoves : s.moves is = some s') :
    (∀ i, is.count i ≤ 7) ∧
      (∀ i ops t, (∀ op ∈ ops, ¬ op.Starts i) → ops.foldlM (SlabSmp.step root) s = some t →
        s.ownMoves root i ops ≤ 7) ∧
      ((∀ i, s'.phase i = .idle) ∨ ∃ i s'', s'.move i = some s'') := by
  obtain ⟨base, geo, lay, out, h⟩ := smpOk_of_reaches hzero hinit hgood hres hrun
  obtain ⟨⟨lay', out', h'⟩, hcount⟩ := h.moves hmoves
  have hmax : ∀ i, (s.phase i).rank ≤ 7 := by
    intro i
    cases s.phase i <;> simp [SlabCaller.rank]
  refine ⟨fun i => ?_, fun i ops t hcalls hops => ?_, ?_⟩
  · have hi := hcount i
    have := hmax i
    omega
  · have hi := SlabSmp.ownMoves_le hcalls hops
    have := hmax i
    omega
  · by_cases hidle : ∀ i, s'.phase i = .idle
    · exact Or.inl hidle
    · push Not at hidle
      obtain ⟨i, hi⟩ := hidle
      obtain ⟨j, hj⟩ := h'.progress hi
      exact Or.inr ⟨j, Option.isSome_iff_exists.mp hj⟩

/-- Two calls on a child that has no slab: ten steps to their end, the lock of the child one after
the other. -/
theorem smp_calls_end_kmalloc :
    ∃ s s' : SlabSmp Bool,
      s.moves [true, true, true, true, true, true, true, false, false, false] = some s' ∧
      (s.phase false = .alloc 6 ∧ s.phase true = .alloc 6) ∧
      ((∀ i, s'.phase i = .idle) ∨ ∃ i s'', s'.move i = some s'') := by
  obtain ⟨st₁, st₂, info', vm', s, hinit, hgood, hres, hrun, hsee⟩ := kmalloc_smp
    [.init 6 kmallocChunkSize 512, .alloc false 6, .alloc true 6]
    (fun s => (s.phase false, s.phase true,
      (s.moves [true, true, true, true, true, true, true, false, false, false]).isSome))
    (.alloc 6, .alloc 6, true) (by decide +kernel)
  simp only [Prod.mk.injEq] at hsee
  obtain ⟨s', hmoves⟩ := Option.isSome_iff_exists.mp hsee.2.2
  exact ⟨s, s', hmoves, ⟨hsee.1, hsee.2.1⟩,
    (smp_calls_end (fun _ => rfl) hinit hgood hres hrun hmoves).2.2⟩

/-- No chunk is lost between two CPUs: what is allocated is what users hold, what calls that are
under way hold, and the slabs of the children. -/
theorem smp_allocated_iff {st₀ st₁ st₂ : Slabs} {info info' : BootInfo} {vm vm' : BootVm}
    {size chunkSize : ℕ} (hzero : ∀ h, st₀.links.cell (.head h) = 0)
    (hinit : st₀.slabListInit root none size chunkSize = some st₁) (hgood : (st₁.list root).Good)
    (hres : st₁.slabListReserveOnSlack 1 info vm root = some (true, st₂, info', vm'))
    (hrun : Reaches (SlabSmp.step root) (SlabSmp.Allowed root) (SlabSmp.start ι st₂) s)
    (hl : l ∈ insert root s.kids) :
    s.st.Allocated l x ↔
      x ∈ s.live l ∨ (∃ i, (s.phase i).hand root = some (l, x)) ∨
        (l = root ∧ ∃ k ∈ s.kids, s.st.Has k x) := by
  obtain ⟨base, geo, lay, out, h⟩ := smpOk_of_reaches hzero hinit hgood hres hrun
  rw [(h.slabs.lists l hl).allocated_iff h.slabs.linked]
  have hout : x ∈ out l ↔ (l, x) ∈ chunksOut (insert root s.kids) out :=
    ⟨fun hx => ⟨hl, hx⟩, And.right⟩
  rw [hout, h.custody.cover]
  simp only [h.slabs.has_iff]
  constructor
  · rintro ⟨_ | i | _, hp⟩
    · exact Or.inl hp
    · exact Or.inr (Or.inl ⟨i, hp⟩)
    · exact Or.inr (Or.inr hp)
  · rintro (hp | ⟨i, hp⟩ | hp)
    · exact ⟨.user, hp⟩
    · exact ⟨.hand i, hp⟩
    · exact ⟨.slab, hp⟩

/-- The slab of a child is in the hands of the call that has taken it from the root. -/
theorem smp_allocated_iff_kmalloc :
    ∃ s : SlabSmp Bool, s.phase false = .allocNew 6 0xFFFFFFFF80204000 ∧
      s.st.Allocated slRoot 0xFFFFFFFF80204000 := by
  obtain ⟨st₁, st₂, info', vm', s, hinit, hgood, hres, hrun, hsee⟩ := kmalloc_smp
    [.init 6 kmallocChunkSize 512, .alloc false 6, .go false, .go false, .go false, .go false,
      .go false]
    (fun s => s.phase false) (.allocNew 6 0xFFFFFFFF80204000) (by decide +kernel)
  refine ⟨s, hsee, ?_⟩
  have hiff := smp_allocated_iff (x := 0xFFFFFFFF80204000) (fun _ => rfl) hinit hgood hres hrun
    (Finset.mem_insert_self slRoot s.kids)
  refine hiff.mpr (Or.inr (Or.inl ⟨false, ?_⟩))
  rw [hsee]
  rfl

end Smor.Alloc
