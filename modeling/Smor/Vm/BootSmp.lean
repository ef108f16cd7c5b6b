import Smor.Lib.Locked
import Smor.Vm.BootRanges

/-!
# Mapping on several CPUs

CPUs call `vm_boot_map_range` and `vm_boot_unmap_range` at the same time, and their accesses to the
tables under `vm_boot_lock` are interleaved with everything else one quadword at a time. The
other CPUs do not wait for the lock when they translate an address: a walk may look at the
tables between any two stores. It finds every page outside of the range in work as the
finished calls have left it, and in the range each page as before or as after, because a table is
cleared before it is hung into the tree.
-/

namespace Smor.Vm

open Smor.Lib

/-- The locals of the page functions: the table in work, an entry of it, and a page of the
pool with a flag that says whether it has just been taken. -/
structure PageLocals where
  table : ℕ
  entry : ℕ
  page : ℕ
  fresh : Bool

/-- A statement of the page functions. -/
abbrev PageStatement := PageLocals × BootVm → Option (PageLocals × BootVm)

/-- A load of `table[index]`. -/
def loadEntry (table : PageLocals → ℕ) (index : ℕ) : PageStatement := fun (l, vm) =>
  some ({ l with
    table := table l
    entry := vm.entry (table l) index }, vm)

/-- The first part of `boot_page_alloc`, if the entry is not present. -/
def takePage : PageStatement := fun (l, vm) =>
  if l.entry &&& pagePresent = 0 then
    if vm.bootPage < bootPagesTop then some
      ({ l with
        page := vm.bootPage
        fresh := true },
      { vm with bootPage := u64 (vm.bootPage + page4kSize) })
    else none
  else some ({ l with fresh := false }, vm)

/-- A store of the loop of `boot_page_alloc`. -/
def clearEntry (i : ℕ) : PageStatement := fun (l, vm) =>
  some (l, if l.fresh then vm.setEntry l.page i 0 else vm)

/-- The store that hangs a new table into the tree. -/
def linkPage (index : ℕ) : PageStatement := fun (l, vm) =>
  if l.fresh then some ({ l with entry := l.page ||| pagePresent ||| pageWrite },
    vm.setEntry l.table index (l.page ||| pagePresent ||| pageWrite))
  else some (l, vm)

/-- The statements for one upper level, for the table that the locals give. -/
def tableEntryCode (table : PageLocals → ℕ) (index : ℕ) : Code PageLocals BootVm :=
  loadEntry table index :: takePage ::
    ((List.range pdirNumEntries).map clearEntry ++ [linkPage index])

/-- The store of `vm_boot_map_page` in the directory, behind the load of the old entry. -/
def storePage (index paddr : ℕ) : PageStatement := fun (l, vm) =>
  some (l, if l.entry &&& pagePresent = 0 ∨ pdirAddr l.entry ≠ paddr then
    vm.setEntry l.table index (paddr ||| pagePresent ||| pageWrite ||| page2mb) else vm)

/-- The statements of `vm_boot_map_page`. -/
def mapPageCode (vaddr paddr : ℕ) : Code PageLocals BootVm :=
  tableEntryCode (fun _ => bootPml4) (pmlIndex vaddr) ++
    (tableEntryCode (fun l => pdirAddr l.entry) (pdpIndex vaddr) ++
      [loadEntry (fun l => pdirAddr l.entry) (page2mIndex vaddr),
        storePage (page2mIndex vaddr) paddr])

/-- A load of `table[index]` in `vm_boot_unmap_page`, if the entry above it is present. -/
def descendEntry (index : ℕ) : PageStatement := fun (l, vm) =>
  if l.entry &&& pagePresent ≠ 0 then loadEntry (fun l => pdirAddr l.entry) index (l, vm)
  else some (l, vm)

/-- The store of `vm_boot_unmap_page`, if the entry above it is present. -/
def removePage (index : ℕ) : PageStatement := fun (l, vm) =>
  some (l, if l.entry &&& pagePresent ≠ 0 then vm.setEntry (pdirAddr l.entry) index 0 else vm)

/-- The statements of `vm_boot_unmap_page`. -/
def unmapPageCode (vaddr : ℕ) : Code PageLocals BootVm :=
  [loadEntry (fun _ => bootPml4) (pmlIndex vaddr), descendEntry (pdpIndex vaddr),
    removePage (page2mIndex vaddr)]

/-- The loop of `vm_boot_map_range`. -/
def mapPagesCode : ℕ → ℕ → ℕ → Code PageLocals BootVm
  | 0, _, _ => []
  | n + 1, vaddr, paddr =>
    mapPageCode vaddr paddr ++ mapPagesCode n (u64 (vaddr + page2mSize)) (u64 (paddr + page2mSize))

/-- The loop of `vm_boot_unmap_range`. -/
def unmapPagesCode : ℕ → ℕ → Code PageLocals BootVm
  | 0, _ => []
  | n + 1, vaddr => unmapPageCode vaddr ++ unmapPagesCode n (u64 (vaddr + page2mSize))

/-- The calls as sections. -/
def bootSections : Sections BootOp PageLocals BootVm where
  locals _ := ⟨0, 0, 0, false⟩
  code
    | .mapRange vaddr paddr size =>
      mapPagesCode (bootRangePages vaddr size) (page2mBase vaddr) (page2mBase paddr)
    | .unmapRange vaddr size => unmapPagesCode (bootRangePages vaddr size) (page2mBase vaddr)

section Whole

variable {l l' : PageLocals} {vm vm' : BootVm}

/-- The loop of `boot_page_alloc`. -/
theorem run_clearEntries (l : PageLocals) (vm : BootVm) :
    Code.run ((List.range pdirNumEntries).map clearEntry) (l, vm) =
      some (l, if l.fresh then
        { vm with
          mem := ((List.range pdirNumEntries).map fun i => l.page + 8 * i).foldl
            (fun mem addr => Function.update mem addr 0) vm.mem }
        else vm) := by
  generalize List.range pdirNumEntries = indices
  induction indices generalizing vm with
  | nil =>
    split_ifs <;> rfl
  | cons i indices ih =>
    rw [List.map_cons, Code.run_cons, clearEntry, Option.bind_some, ih]
    split_ifs <;> rfl

/-- The statements for an upper level are `bootTableEntry`. -/
theorem run_tableEntryCode (table : PageLocals → ℕ) (index : ℕ) (l : PageLocals) (vm : BootVm) :
    ((Code.run (tableEntryCode table index) (l, vm)).map fun (l, vm) => (l.entry, vm)) =
      bootTableEntry vm (table l) index := by
  rw [tableEntryCode, Code.run_cons, loadEntry, Option.bind_some, Code.run_cons, takePage,
    bootTableEntry]
  dsimp only
  by_cases habsent : vm.entry (table l) index &&& pagePresent = 0
  · rw [if_pos habsent, if_pos habsent, bootPageAlloc]
    by_cases hroom : vm.bootPage < bootPagesTop
    · rw [if_pos hroom, if_pos hroom, Option.bind_some, Code.run_append, run_clearEntries,
        Option.bind_some]
      rfl
    · rw [if_neg hroom, if_neg hroom]
      rfl
  · rw [if_neg habsent, if_neg habsent, Option.bind_some, Code.run_append, run_clearEntries,
      Option.bind_some]
    rfl

/-- The statements of `vm_boot_map_page` without anything between them. -/
theorem run_mapPageCode (vaddr paddr : ℕ) (l : PageLocals) (vm : BootVm) :
    (Code.run (mapPageCode vaddr paddr) (l, vm)).map Prod.snd = vmBootMapPage vm vaddr paddr := by
  rw [mapPageCode, Code.run_append, vmBootMapPage,
    ← run_tableEntryCode (fun _ => bootPml4) (pmlIndex vaddr) l vm]
  cases Code.run (tableEntryCode (fun _ => bootPml4) (pmlIndex vaddr)) (l, vm) with
  | none => rfl
  | some x =>
    obtain ⟨l₁, vm₁⟩ := x
    rw [Option.bind_some, Option.map_some, Option.bind_some, Code.run_append]
    dsimp only
    rw [← run_tableEntryCode (fun l => pdirAddr l.entry) (pdpIndex vaddr) l₁ vm₁]
    cases Code.run (tableEntryCode (fun l => pdirAddr l.entry) (pdpIndex vaddr)) (l₁, vm₁) <;> rfl

theorem run_unmapPageCode (vaddr : ℕ) (l : PageLocals) (vm : BootVm) :
    (Code.run (unmapPageCode vaddr) (l, vm)).map Prod.snd = some (vmBootUnmapPage vm vaddr) := by
  rw [unmapPageCode, Code.run_cons, loadEntry, Option.bind_some, Code.run_cons, descendEntry,
    vmBootUnmapPage]
  dsimp only
  by_cases hpdp : vm.entry bootPml4 (pmlIndex vaddr) &&& pagePresent ≠ 0
  · rw [if_pos hpdp, if_pos hpdp]
    rfl
  · rw [if_neg hpdp, if_neg hpdp, Option.bind_some, Code.run_cons, removePage]
    dsimp only
    rw [if_neg hpdp]
    rfl

theorem run_mapPagesCode (n vaddr paddr : ℕ) (l : PageLocals) (vm : BootVm) :
    (Code.run (mapPagesCode n vaddr paddr) (l, vm)).map Prod.snd =
      vmBootMapPages n vm vaddr paddr := by
  induction n generalizing vaddr paddr l vm with
  | zero => rfl
  | succ n ih =>
    rw [mapPagesCode, Code.run_append, vmBootMapPages, ← run_mapPageCode vaddr paddr l vm]
    cases Code.run (mapPageCode vaddr paddr) (l, vm) with
    | none => rfl
    | some x => exact ih _ _ x.1 x.2

theorem run_unmapPagesCode (n vaddr : ℕ) (l : PageLocals) (vm : BootVm) :
    (Code.run (unmapPagesCode n vaddr) (l, vm)).map Prod.snd =
      some (vmBootUnmapPages n vm vaddr) := by
  induction n generalizing vaddr l vm with
  | zero => rfl
  | succ n ih =>
    rw [unmapPagesCode, Code.run_append, vmBootUnmapPages_succ]
    obtain ⟨⟨l₁, vm₁⟩, hrun, heq⟩ := Option.map_eq_some_iff.mp (run_unmapPageCode vaddr l vm)
    rw [hrun, Option.bind_some, ih, ← heq]

/-- A call without anything between its statements is the function. -/
theorem bootSections_call (vm : BootVm) (op : BootOp) :
    bootSections.call vm op = bootStep vm op := by
  cases op with
  | mapRange vaddr paddr size => exact run_mapPagesCode _ _ _ _ _
  | unmapRange vaddr size => exact run_unmapPagesCode _ _ _ _

end Whole

/-- The tables of a call in progress: a tree, whatever the pool position is, and every page as it
was. -/
structure SamePages (base vm : BootVm) : Prop where
  tables : ∃ bootPage, TablesOk { vm with bootPage := bootPage }
  pages : ∀ w, pageAt vm w = pageAt base w

/-- While a page of the pool is cleared: all other tables hold what they held. -/
def Clearing (base : BootVm) (x : PageLocals × BootVm) : Prop :=
  (x.1.fresh = true → x.1.page = base.bootPage) ∧
    ∀ t k, t % 0x1000 = 0 → t ≠ base.bootPage → k < 512 → x.2.entry t k = base.entry t k

/-- The tables of a call in progress: a tree, with the pages outside of its `n` pages from `v` on as
they were in `base`, and each of the `n` pages as it was or new. -/
structure Midway (base : BootVm) (n v : ℕ) (new : ℕ → Option ℕ) (vm : BootVm) : Prop where
  tables : ∃ bootPage, TablesOk { vm with bootPage := bootPage }
  outside : ∀ w, (∀ m < n, ¬SharesEntry (v + m * page2mSize) w) → pageAt vm w = pageAt base w
  inside : ∀ m < n, pageAt vm (v + m * page2mSize) = pageAt base (v + m * page2mSize) ∨
    pageAt vm (v + m * page2mSize) = new m

section Stores

variable {base vm vm' vm₁ : BootVm} {l : PageLocals} {n v p : ℕ} {new : ℕ → Option ℕ}

theorem SharesEntry.symm {v w : ℕ} (h : SharesEntry v w) : SharesEntry w v := by
  obtain ⟨hdir, hpage⟩ := h
  refine ⟨?_, hpage.symm⟩
  unfold SameDir at hdir ⊢
  omega

/-- Entries of a page that no table of the tree lies in. -/
theorem TablesOk.samePages (hok : TablesOk vm)
    (hentry : ∀ t k, t % 0x1000 = 0 → t ≠ vm.bootPage → k < 512 → vm'.entry t k = vm.entry t k) :
    SamePages vm vm' := by
  obtain ⟨hpool, hlow, -⟩ := hok.pool
  have hnext : ∀ t k, t % 0x1000 = 0 → t < vm.bootPage → k < 512 →
      bootNext vm' t k = bootNext vm t k := by
    intro t k ht hlt hk
    rw [bootNext_eq, bootNext_eq, hentry t k ht (by omega) hk]
  have hpml : ∀ i < 512, bootNext vm' bootPml4 i = bootNext vm bootPml4 i := by
    intro i hi
    refine hnext bootPml4 i (by decide) ?_ hi
    simp only [bootPml4, bootPageNext] at hlow ⊢
    omega
  have hdir : ∀ i < 512, ∀ j < 512, bootDir vm' i j = bootDir vm i j := by
    intro i hi j hj
    unfold bootDir
    rw [hpml i hi]
    cases hcase : bootNext vm bootPml4 i with
    | none => rfl
    | some t =>
      obtain ⟨ht, -, hlt⟩ := hok.pdp_addr i hi t hcase
      exact hnext t j ht hlt hj
  refine ⟨⟨vm.bootPage, hok.congr rfl hpml hdir⟩, fun w => ?_⟩
  rw [pageAt, pageAt, bootLookup, bootLookup, hdir _ (pmlIndex_lt w) _ (pdpIndex_lt w)]
  cases hcase : bootDir vm (pmlIndex w) (pdpIndex w) with
  | none => rfl
  | some d =>
    obtain ⟨hd, -, hlt⟩ := hok.pd_addr _ (pmlIndex_lt w) _ (pdpIndex_lt w) d hcase
    exact hnext d _ hd hlt (page2mIndex_lt w)

/-- While a new table is taken, cleared, and hung into the tree, no page changes. -/
theorem tableEntryCode_always (table : PageLocals → ℕ) (index : ℕ) (hok : TablesOk vm)
    (hend : ∀ e vm', bootTableEntry vm (table l) index = some (e, vm') → SamePages vm vm') :
    Code.Always (fun x => SamePages vm x.2) (tableEntryCode table index) (l, vm) := by
  have hsame : SamePages vm vm := hok.samePages fun _ _ _ _ _ => rfl
  obtain ⟨hpool, -⟩ := hok.pool
  refine ⟨hsame, fun x₁ h₁ => ⟨?_, fun x₂ h₂ => ?_⟩⟩
  · obtain rfl := Option.some.inj h₁
    exact hsame
  have hstart : Clearing vm x₂ := by
    obtain rfl := Option.some.inj h₁
    simp only [takePage] at h₂
    split_ifs at h₂ <;> obtain rfl := Option.some.inj h₂
    · exact ⟨fun _ => rfl, fun _ _ _ _ _ => rfl⟩
    · exact ⟨fun h => absurd h Bool.false_ne_true, fun _ _ _ _ _ => rfl⟩
  have hkeep : ∀ f ∈ (List.range pdirNumEntries).map clearEntry, ∀ x y, Clearing vm x →
      f x = some y → Clearing vm y := by
    intro f hf x y hx hy
    obtain ⟨i, hi, rfl⟩ := List.mem_map.mp hf
    rw [List.mem_range] at hi
    obtain rfl := Option.some.inj hy
    refine ⟨hx.1, fun t k ht hne hk => ?_⟩
    dsimp only
    split_ifs with hfresh
    · have hpage := hx.1 hfresh
      rw [entry_setEntry (by rw [hpage]; exact hpool) ht hi hk,
        if_neg fun h => hne (h.1.trans hpage)]
      exact hx.2 t k ht hne hk
    · exact hx.2 t k ht hne hk
  have hwhole : ∀ z, Code.run ((List.range pdirNumEntries).map clearEntry ++ [linkPage index]) x₂ =
      some z → Code.run (tableEntryCode table index) (l, vm) = some z := by
    intro z hz
    rw [tableEntryCode, Code.run_cons, h₁, Option.bind_some, Code.run_cons, h₂, Option.bind_some,
      hz]
  generalize (List.range pdirNumEntries).map clearEntry = clears at hkeep hwhole ⊢
  have hclear := Code.always_of_keeps hkeep hstart
  refine (hclear.imp fun x hx => hok.samePages hx.2).append fun y hy => ⟨?_, fun z hz => ?_⟩
  · exact hok.samePages (Code.run_keeps hkeep hstart hy).2
  · have hrun : Code.run (tableEntryCode table index) (l, vm) = some z := by
      apply hwhole
      rw [Code.run_append, hy, Option.bind_some, Code.run_cons, hz]
      rfl
    have hentry := run_tableEntryCode table index l vm
    rw [hrun, Option.map_some] at hentry
    exact hend _ _ hentry.symm

/-- Before the last store of a page function. -/
theorem SamePages.midway (h : SamePages base vm) : Midway base n v new vm :=
  ⟨h.tables, fun w _ => h.pages w, fun _ _ => Or.inl (h.pages _)⟩

theorem SamePages.trans (h : SamePages base vm) (h' : SamePages vm vm') : SamePages base vm' :=
  ⟨h'.tables, fun w => (h'.pages w).trans (h.pages w)⟩

/-- While a page is mapped, other pages stay, and the page is as before or as after. -/
theorem mapPageCode_always (hok : TablesOk vm) (halign : p % page2mSize = 0) :
    Code.Always (fun x => Midway vm 1 v (fun _ => some p) x.2) (mapPageCode v p) (l, vm) := by
  have hnewPdp : ∀ e vm', bootTableEntry vm bootPml4 (pmlIndex v) = some (e, vm') →
      SamePages vm vm' := by
    intro e vm' h
    obtain ⟨hok', -, -, hsame⟩ := hok.newPdp (pmlIndex_lt v) h
    exact ⟨⟨vm'.bootPage, hok'⟩, fun w =>
      hsame _ (pmlIndex_lt w) _ (pdpIndex_lt w) _ (page2mIndex_lt w)⟩
  have hfirst := tableEntryCode_always (fun _ => bootPml4) _ (l := l) hok hnewPdp
  refine (hfirst.imp fun x hx => hx.midway).append fun x₁ h₁ => ?_
  obtain ⟨l₁, vm₁⟩ := x₁
  have hpdp := run_tableEntryCode (fun _ => bootPml4) (pmlIndex v) l vm
  rw [h₁, Option.map_some] at hpdp
  obtain ⟨hok₁, hnext₁, -, -⟩ := hok.newPdp (pmlIndex_lt v) hpdp.symm
  have hnewPd : ∀ e vm', bootTableEntry vm₁ (pdirAddr l₁.entry) (pdpIndex v) = some (e, vm') →
      SamePages vm₁ vm' := by
    intro e vm' h
    obtain ⟨hok', -, -, hsame⟩ := hok₁.newPd (pmlIndex_lt v) (pdpIndex_lt v) hnext₁ h
    exact ⟨⟨vm'.bootPage, hok'⟩, fun w =>
      hsame _ (pmlIndex_lt w) _ (pdpIndex_lt w) _ (page2mIndex_lt w)⟩
  have hsame₁ := hnewPdp _ _ hpdp.symm
  have hsecond := tableEntryCode_always (fun l => pdirAddr l.entry) _ (l := l₁) hok₁ hnewPd
  refine (hsecond.imp fun x hx => (hsame₁.trans hx).midway).append fun x₂ h₂ => ?_
  obtain ⟨l₂, vm₂⟩ := x₂
  have hpd := run_tableEntryCode (fun l => pdirAddr l.entry) (pdpIndex v) l₁ vm₁
  rw [h₂, Option.map_some] at hpd
  have hsame₂ : SamePages vm vm₂ := hsame₁.trans (hnewPd _ _ hpd.symm)
  refine ⟨hsame₂.midway, fun x₃ h₃ => ⟨?_, fun x₄ h₄ => ?_⟩⟩
  · obtain rfl := Option.some.inj h₃
    exact hsame₂.midway
  · -- the last store ends the page function
    have hrun : Code.run (mapPageCode v p) (l, vm) = some x₄ := by
      rw [mapPageCode, Code.run_append, h₁, Option.bind_some, Code.run_append, h₂,
        Option.bind_some, Code.run_cons, h₃, Option.bind_some, Code.run_cons, h₄]
      rfl
    have hmap := run_mapPageCode v p l vm
    rw [hrun, Option.map_some] at hmap
    obtain ⟨hok', hpage, hframe, -⟩ := vmBootMapPage_spec hok hmap.symm
    refine ⟨⟨x₄.2.bootPage, hok'⟩, fun w hw => hframe w ?_, fun m hm => Or.inr ?_⟩
    · simpa using hw 0 (by decide)
    · obtain rfl : m = 0 := by omega
      rw [Nat.zero_mul, Nat.add_zero]
      exact hpage halign

/-- While a page is unmapped. -/
theorem unmapPageCode_always (hok : TablesOk vm) :
    Code.Always (fun x => Midway vm 1 v (fun _ => none) x.2) (unmapPageCode v) (l, vm) := by
  have hsame : SamePages vm vm := hok.samePages fun _ _ _ _ _ => rfl
  refine ⟨hsame.midway, fun x₁ h₁ => ⟨?_, fun x₂ h₂ => ⟨?_, fun x₃ h₃ => ?_⟩⟩⟩
  · obtain rfl := Option.some.inj h₁
    exact hsame.midway
  · obtain rfl := Option.some.inj h₁
    simp only [descendEntry, loadEntry] at h₂
    split_ifs at h₂ <;> obtain rfl := Option.some.inj h₂ <;> exact hsame.midway
  · have hrun : Code.run (unmapPageCode v) (l, vm) = some x₃ := by
      rw [unmapPageCode, Code.run_cons, h₁, Option.bind_some, Code.run_cons, h₂, Option.bind_some,
        Code.run_cons, h₃]
      rfl
    have hunmap := run_unmapPageCode v l vm
    rw [hrun, Option.map_some, Option.some.injEq] at hunmap
    obtain ⟨hok', hpage, hframe, -⟩ := vmBootUnmapPage_spec hok v
    change Midway vm 1 v (fun _ => none) x₃.2
    rw [hunmap]
    refine ⟨⟨_, hok'⟩, fun w hw => hframe w ?_, fun m hm => Or.inr ?_⟩
    · simpa using hw 0 (by decide)
    · obtain rfl : m = 0 := by omega
      rw [Nat.zero_mul, Nat.add_zero]
      exact hpage

/-- In the first page of a range. -/
theorem Midway.first (h : Midway base 1 v (fun _ => new 0) vm) (hsep : Separate v (n + 1)) :
    Midway base (n + 1) v new vm := by
  have hone : ∀ w, ¬SharesEntry v w → pageAt vm w = pageAt base w := by
    intro w hw
    refine h.outside w fun m hm => ?_
    obtain rfl : m = 0 := by omega
    rwa [Nat.zero_mul, Nat.add_zero]
  refine ⟨h.tables, fun w hw => hone w (notShares_succ hw).1, fun m hm => ?_⟩
  cases m with
  | zero => exact h.inside 0 (by decide)
  | succ m =>
    left
    apply hone
    rw [rangePage_succ]
    exact fun hshare => hsep.head m (by omega) hshare.symm

/-- In the other pages, behind the first one. -/
theorem Midway.rest (h : Midway vm₁ n (v + page2mSize) (fun m => new (m + 1)) vm)
    (hsep : Separate v (n + 1)) (hfirst : pageAt vm₁ v = new 0)
    (hframe : ∀ w, ¬SharesEntry v w → pageAt vm₁ w = pageAt base w) :
    Midway base (n + 1) v new vm := by
  refine ⟨h.tables, fun w hw => ?_, fun m hm => ?_⟩
  · obtain ⟨hhead, htail⟩ := notShares_succ hw
    rw [h.outside w htail, hframe w hhead]
  · cases m with
    | zero =>
      right
      rw [Nat.zero_mul, Nat.add_zero, h.outside v hsep.head, hfirst]
    | succ m =>
      have hother : ¬SharesEntry v (v + page2mSize + m * page2mSize) :=
        fun hshare => hsep.head m (by omega) hshare.symm
      rw [rangePage_succ, ← hframe _ hother]
      exact h.inside m (by omega)

/-- While a range is mapped. -/
theorem mapPagesCode_always (hok : TablesOk vm) (hv : v + n * page2mSize ≤ 2 ^ 64)
    (hp : p + n * page2mSize ≤ 2 ^ 64) (halign : p % page2mSize = 0) (hsep : Separate v n) :
    Code.Always (fun x => Midway vm n v (fun m => some (p + m * page2mSize)) x.2)
      (mapPagesCode n v p) (l, vm) := by
  induction n generalizing vm v p l with
  | zero => exact ⟨⟨vm.bootPage, hok⟩, fun _ _ => rfl, fun m hm => by omega⟩
  | succ n ih =>
    have hfirst := mapPageCode_always (v := v) (l := l) hok halign
    refine (hfirst.imp fun x hx => Midway.first (by simpa using hx) hsep).append fun x₁ h₁ => ?_
    obtain ⟨l₁, vm₁⟩ := x₁
    have hmap := run_mapPageCode v p l vm
    rw [h₁, Option.map_some] at hmap
    obtain ⟨hok₁, hpage, hframe, -⟩ := vmBootMapPage_spec hok hmap.symm
    have hnew : pageAt vm₁ v = some (p + 0 * page2mSize) := by
      rw [Nat.zero_mul, Nat.add_zero]
      exact hpage halign
    rcases Nat.eq_zero_or_pos n with rfl | hn
    · exact Midway.rest ⟨⟨_, hok₁⟩, fun _ _ => rfl, fun m hm => by omega⟩ hsep hnew hframe
    · rw [u64_page_step hv hn, u64_page_step hp hn]
      rw [rangePage_succ] at hv hp
      have hrest := ih (l := l₁) hok₁ hv hp (by rwa [Nat.add_mod_right]) hsep.tail
      refine hrest.imp fun x hx => Midway.rest ?_ hsep hnew hframe
      simpa only [rangePage_succ] using hx

/-- While a range is unmapped. -/
theorem unmapPagesCode_always (hok : TablesOk vm) (hv : v + n * page2mSize ≤ 2 ^ 64)
    (hsep : Separate v n) :
    Code.Always (fun x => Midway vm n v (fun _ => none) x.2) (unmapPagesCode n v) (l, vm) := by
  induction n generalizing vm v l with
  | zero => exact ⟨⟨vm.bootPage, hok⟩, fun _ _ => rfl, fun m hm => by omega⟩
  | succ n ih =>
    have hfirst := unmapPageCode_always (v := v) (l := l) hok
    refine (hfirst.imp fun x hx => Midway.first hx hsep).append fun x₁ h₁ => ?_
    obtain ⟨l₁, vm₁⟩ := x₁
    have hunmap := run_unmapPageCode v l vm
    rw [h₁, Option.map_some, Option.some.injEq] at hunmap
    dsimp only at hunmap
    subst hunmap
    obtain ⟨hok₁, hpage, hframe, -⟩ := vmBootUnmapPage_spec hok v
    rcases Nat.eq_zero_or_pos n with rfl | hn
    · exact Midway.rest ⟨⟨_, hok₁⟩, fun _ _ => rfl, fun m hm => by omega⟩ hsep hpage hframe
    · rw [u64_page_step hv hn]
      rw [rangePage_succ] at hv
      exact (ih (l := l₁) hok₁ hv hsep.tail).imp fun x hx => Midway.rest hx hsep hpage hframe

end Stores

section Calls

/-- The call of a range of canonical addresses; a mapping keeps the offsets in the pages. -/
def BootCall : BootOp → Prop
  | .mapRange vaddr paddr size => CanonicalRange vaddr size ∧ paddr + size ≤ 2 ^ 64 ∧
      vaddr % page2mSize = paddr % page2mSize
  | .unmapRange vaddr size => CanonicalRange vaddr size

deriving instance DecidableEq for BootOp

instance (vaddr size : ℕ) : Decidable (CanonicalRange vaddr size) :=
  inferInstanceAs (Decidable (_ ∨ _))

instance : DecidablePred BootCall := fun op =>
  match op with
  | .mapRange _ _ _ => inferInstanceAs (Decidable (_ ∧ _))
  | .unmapRange _ _ => inferInstanceAs (Decidable (CanonicalRange _ _))

/-- The addresses of the pages of a call. -/
def BootOp.InPages : BootOp → ℕ → Prop
  | .mapRange vaddr _ size, u | .unmapRange vaddr size, u => InRounded vaddr size u

/-- The addresses in the pages of a call, and their other names. -/
def BootOp.Touches (op : BootOp) (w : ℕ) : Prop :=
  op.InPages w ∨ ∃ u, op.InPages u ∧ KernelAlias u w

/-- What a call makes of an address in its pages. -/
def BootOp.target : BootOp → ℕ → Option ℕ
  | .mapRange vaddr paddr _, u => some (paddr + u - vaddr)
  | .unmapRange _ _, _ => none

variable {base vm : BootVm} {vaddr paddr size : ℕ}

/-- In the middle of a call, in terms of addresses. -/
theorem Midway.translate (hrange : CanonicalRange vaddr size) {new : ℕ → Option ℕ}
    (h : Midway base (bootRangePages vaddr size) (page2mBase vaddr) new vm) :
    (∀ w, Canonical w → ¬InRounded vaddr size w →
      (∀ u, InRounded vaddr size u → ¬KernelAlias u w) →
      translate vm w = Vm.translate base w) ∧
    ∀ u, InRounded vaddr size u → Vm.translate vm u = Vm.translate base u ∨
      ∃ m < bootRangePages vaddr size, u / 2 ^ 21 = (page2mBase vaddr + m * page2mSize) / 2 ^ 21 ∧
        Vm.translate vm u = (new m).map (· + u % page2mSize) := by
  refine ⟨fun w hw hout halias => ?_, fun u hu => ?_⟩
  · rw [translate_eq, translate_eq,
      h.outside w (not_sharesEntry_of_outside hrange hw hout halias)]
  · obtain ⟨m, hm, hpage⟩ := (inRounded_iff hrange).mp hu
    rw [translate_eq, translate_eq, pageAt_congr hpage, pageAt_congr hpage]
    exact (h.inside m hm).imp (fun hold => by rw [hold]) fun hnew => ⟨m, hm, hpage, by rw [hnew]⟩

/-- At any moment of a call, an address is translated as before, or in the pages of the call as
after it. -/
theorem bootSections_always (hok : TablesOk base) {op : BootOp} (hop : BootCall op) :
    Code.Always (fun x => (∃ bootPage, TablesOk { x.2 with bootPage := bootPage }) ∧
      (∀ w, Canonical w → ¬op.Touches w → translate x.2 w = translate base w) ∧
      ∀ u, op.InPages u → translate x.2 u = translate base u ∨ translate x.2 u = op.target u)
      (bootSections.code op) (bootSections.locals op, base) := by
  cases op with
  | mapRange vaddr paddr size =>
    obtain ⟨hrange, hpaddr, hmod⟩ := hop
    have hvaddr : vaddr + size ≤ 2 ^ 64 := by
      unfold CanonicalRange at hrange
      omega
    have halign : page2mBase paddr % page2mSize = 0 := by
      simp only [page2mBase, Nat.mul_mod_left]
    have hmid := mapPagesCode_always (l := ⟨0, 0, 0, false⟩) hok (hrange.pages_le vaddr hvaddr rfl)
      (hrange.pages_le paddr hpaddr hmod) halign hrange.separate
    refine hmid.imp fun x hx => ?_
    obtain ⟨houtside, hinside⟩ := hx.translate hrange
    refine ⟨hx.tables, fun w hw hno => ?_, fun u hu => (hinside u hu).imp_right ?_⟩
    · exact houtside w hw (fun hin => hno (Or.inl hin)) fun u hu halias =>
        hno (Or.inr ⟨u, hu, halias⟩)
    · rintro ⟨m, hm, hpage, heq⟩
      rw [heq, Option.map_some, BootOp.target, Option.some.injEq]
      simp only [page2mBase, page2mSize, page2mShift] at hpage hmod ⊢
      omega
  | unmapRange vaddr size =>
    have hvaddr : vaddr + size ≤ 2 ^ 64 := by
      unfold BootCall CanonicalRange at hop
      omega
    have hmid := unmapPagesCode_always (l := ⟨0, 0, 0, false⟩) hok
      (CanonicalRange.pages_le hop vaddr hvaddr rfl) (CanonicalRange.separate hop)
    refine hmid.imp fun x hx => ?_
    obtain ⟨houtside, hinside⟩ := hx.translate hop
    refine ⟨hx.tables, fun w hw hno => ?_, fun u hu => (hinside u hu).imp_right ?_⟩
    · exact houtside w hw (fun hin => hno (Or.inl hin)) fun u hu halias =>
        hno (Or.inr ⟨u, hu, halias⟩)
    · rintro ⟨m, -, -, heq⟩
      exact heq

end Calls

section Runs

variable {ι : Type} [DecidableEq ι]

/-- CPUs map and unmap canonical ranges after `boot.S`, and their accesses to the tables are
interleaved. The calls take effect one after the other. A walk at any moment finds a tree of
tables. It translates every canonical address that the call with the lock is not about, also not
under its other name, as the finished calls do, and every address in the pages of this call as
before the call or as after it. -/
theorem vmBoot_smp (mem : ℕ → ℕ) {kernelEnd : ℕ} (hend : kernelEnd ≤ 2 ^ 30)
    {s : LockedRun ι BootOp PageLocals BootVm}
    (hrun : Reaches (LockedRun.step bootSections) (LockedRun.Allowed BootCall)
      (LockedRun.start ι BootOp PageLocals (bootTables mem kernelEnd)) s) :
    ∃ vm, s.done.foldlM bootStep (bootTables mem kernelEnd) = some vm ∧
      ((∀ i, ¬ (s.phase i).Inside) → s.shared = vm) ∧
      (∃ bootPage, TablesOk { s.shared with bootPage := bootPage }) ∧
      ∀ i op l rest, s.phase i = .inside op l rest →
        (∀ w, Canonical w → ¬op.Touches w → translate s.shared w = translate vm w) ∧
        ∀ u, op.InPages u →
          translate s.shared u = translate vm u ∨ translate s.shared u = op.target u := by
  obtain ⟨vm, h⟩ := lockedOk_of_reaches hrun
  have hcall : bootSections.call = bootStep := by
    funext vm op
    exact bootSections_call vm op
  have hok : TablesOk vm := by
    refine h.base_of_call (bootTables_ok mem hend) fun t op t' ht _ hstep => ?_
    rw [hcall] at hstep
    cases op with
    | mapRange vaddr paddr size => exact vmBootMapPages_ok ht hstep
    | unmapRange vaddr size =>
      obtain rfl := Option.some.inj hstep
      exact vmBootUnmapPages_ok ht
  have hmoment : ∀ i op l rest, s.phase i = .inside op l rest →
      (∃ bootPage, TablesOk { s.shared with bootPage := bootPage }) ∧
      (∀ w, Canonical w → ¬op.Touches w → translate s.shared w = translate vm w) ∧
      ∀ u, op.InPages u →
        translate s.shared u = translate vm u ∨ translate s.shared u = op.target u := by
    intro i op l rest hphase
    obtain ⟨front, hcode, hfront⟩ := h.inside i op l rest hphase
    have hop : BootCall op := h.valid op (Or.inr ⟨i, by rw [hphase]; rfl⟩)
    have halways := bootSections_always hok hop
    rw [hcode] at halways
    exact halways.at_front hfront
  refine ⟨vm, hcall ▸ h.done, h.shared_eq, ?_, fun i op l rest hphase =>
    (hmoment i op l rest hphase).2⟩
  by_cases hnone : ∀ i, ¬ (s.phase i).Inside
  · rw [h.shared_eq hnone]
    exact ⟨vm.bootPage, hok⟩
  · rw [not_forall_not] at hnone
    obtain ⟨i, hi⟩ := hnone
    cases hphase : s.phase i with
    | idle => rw [hphase] at hi; exact hi.elim
    | spinning op => rw [hphase] at hi; exact hi.elim
    | inside op l rest => exact (hmoment i op l rest hphase).1

/-- A CPU unmaps the second page and has made its store, while another one waits with the first. -/
theorem vmBoot_smp_unmapping :
    ∃ s : LockedRun Bool BootOp PageLocals BootVm,
      (s.phase true).Inside ∧ s.done = [] ∧ translate s.shared 0x1234 = some 0x1234 := by
  let unmap : BootOp := .unmapRange 0x200000 0x1000
  let ops : List (LockedOp Bool BootOp) :=
    [.call true unmap, .call false (.unmapRange 0 0x1000)] ++ List.replicate 4 (.go true) ++
      [.go false]
  have hrun : (runOps (LockedRun.step bootSections) (LockedRun.Allowed BootCall)
      (LockedRun.start Bool BootOp PageLocals (bootTables (fun _ => 0) 0x400000)) ops).map
        (fun s => (s.done, (s.phase true).call, match s.phase true with
          | .inside _ _ rest => some rest.length
          | _ => none)) = some ([], some unmap, some 0) := by decide +kernel
  obtain ⟨s, hs, hvalue⟩ := Option.map_eq_some_iff.mp hrun
  simp only [Prod.mk.injEq] at hvalue
  obtain ⟨hdone, hcall, hinside⟩ := hvalue
  obtain ⟨vm, hvm, -, -, hmoment⟩ := vmBoot_smp (fun _ => 0)
    (show 0x400000 ≤ 2 ^ 30 by decide) (Reaches.of_runOps hs)
  rw [hdone] at hvm
  obtain rfl := Option.some.inj hvm
  cases hphase : s.phase true with
  | idle => rw [hphase] at hcall; cases hcall
  | spinning op => rw [hphase] at hinside; cases hinside
  | inside op l rest =>
    rw [hphase] at hcall
    obtain rfl := Option.some.inj hcall
    have houtside : ¬unmap.Touches 0x1234 := by
      simp only [unmap, BootOp.Touches, BootOp.InPages, InRounded, KernelAlias, kernelBase,
        page2mSize, page2mShift]
      omega
    have hsame := (hmoment true unmap l rest hphase).1 0x1234 (Or.inl (by decide)) houtside
    exact ⟨s, by rw [hphase]; trivial, hdone, hsame.trans (by decide +kernel)⟩

end Runs

end Smor.Vm
