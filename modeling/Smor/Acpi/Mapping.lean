import Smor.Acpi.Tables
import Smor.Vm.BootIdentity

/-!
# What `acpi_init` leaves in the boot tables

The root table is mapped at its physical address, read, and unmapped. Mapping a page that is
mapped already changes nothing, but unmapping it removes the page for everybody, also
under its other name at `KERNEL_BASE`. So the tables are as before for the addresses that were
mapped only if none of them uses a directory entry of the root table's pages.
-/

namespace Smor.Acpi

open Smor.Lib Smor.Vm

/-- The address is translated through a directory entry of the pages of `[table, table + size)`. -/
def OnPages (table size v : ℕ) : Prop :=
  ∃ m < bootRangePages table size, SharesEntry (page2mBase table + m * page2mSize) v

/-- Nothing is mapped through the directory entries of the root table's pages, and if the header
reaches into a further page, that page is free or mapped at its own address. -/
structure Undisturbed (vm : BootVm) (table length : ℕ) : Prop where
  free : ∀ v, OnPages table length v → Vm.translate vm v = none
  header : ∀ m < bootRangePages table 36, bootRangePages table length ≤ m →
    ∀ p, Vm.translate vm (page2mBase table + m * page2mSize) = some p →
      p = page2mBase table + m * page2mSize

section Ranges

variable {vm vm' : BootVm} {table size length : ℕ}

/-- The number of pages of a range in the lower half. -/
theorem bootRangePages_low (hsize : size ≤ 2 ^ 33) :
    bootRangePages table size = (table % 2 ^ 21 + size + (2 ^ 21 - 1)) / 2 ^ 21 := by
  simp only [bootRangePages, page2mNum, page2mSize, page2mShift, u64, Nat.shiftRight_eq_div_pow]
  omega

/-- Two pages below the last two gigabytes of the tables share an entry only if they are the
same. -/
theorem page_eq_of_sharesEntry {v w : ℕ} (hv : v < 2 ^ 48 - 2 ^ 31) (hw : w < 2 ^ 48 - 2 ^ 31)
    (h : SharesEntry v w) : v / 2 ^ 21 = w / 2 ^ 21 := by
  obtain ⟨hdir, hpage⟩ := h
  simp only [SameDir, pmlIndex_eq, pdpIndex_eq, page2mIndex_eq] at hdir hpage
  omega

/-- The pages of a range that starts in the lower half are separate. -/
theorem separate_low (htable : table < 2 ^ 47) (hsize : size ≤ 2 ^ 33) :
    Separate (page2mBase table) (bootRangePages table size) := by
  intro m hm m' hm' hlt hshare
  rw [bootRangePages_low hsize] at hm hm'
  simp only [page2mBase, page2mSize, page2mShift] at hshare
  have := page_eq_of_sharesEntry (by omega) (by omega) hshare
  omega

/-- The range does not reach the end of the address space. -/
theorem pages_low (htable : table < 2 ^ 47) (hsize : size ≤ 2 ^ 33) :
    page2mBase table + bootRangePages table size * page2mSize ≤ 2 ^ 64 := by
  rw [bootRangePages_low hsize]
  simp only [page2mBase, page2mSize, page2mShift]
  omega

/-- An identity mapping maps its pages to themselves and leaves other entries alone. -/
theorem mapIdentity_spec (hok : TablesOk vm) (htable : table < 2 ^ 47) (hsize : size ≤ 2 ^ 33)
    (hmap : vmBootMapRange vm table table size = some vm') :
    TablesOk vm' ∧
      (∀ m < bootRangePages table size, pageAt vm' (page2mBase table + m * page2mSize) =
        some (page2mBase table + m * page2mSize)) ∧
      ∀ v, ¬OnPages table size v → pageAt vm' v = pageAt vm v := by
  have halign : page2mBase table % page2mSize = 0 := by
    simp only [page2mBase, Nat.mul_mod_left]
  obtain ⟨hpages, hframe⟩ := vmBootMapPages_spec hok (pages_low htable hsize)
    (pages_low htable hsize) halign (separate_low htable hsize) hmap
  refine ⟨vmBootMapPages_ok hok hmap, hpages, fun v hv => hframe v fun m hm hshare => ?_⟩
  exact hv ⟨m, hm, hshare⟩

/-- The bytes of the range are then translated to themselves. -/
theorem translate_mapIdentity (hok : TablesOk vm) (htable : table < 2 ^ 47)
    (hsize : size ≤ 2 ^ 33) (hmap : vmBootMapRange vm table table size = some vm') {b : ℕ}
    (hlow : table ≤ b) (hhigh : b < table + size) : Vm.translate vm' b = some b := by
  obtain ⟨-, hpages, -⟩ := mapIdentity_spec hok htable hsize hmap
  have hcount := @bootRangePages_low table size hsize
  have hm := hpages (b / 2 ^ 21 - table / 2 ^ 21) (by omega)
  have hpage : b / 2 ^ 21 =
      (page2mBase table + (b / 2 ^ 21 - table / 2 ^ 21) * page2mSize) / 2 ^ 21 := by
    simp only [page2mBase, page2mSize, page2mShift]
    omega
  rw [translate_eq, pageAt_congr hpage, hm, Option.map_some, Option.some.injEq]
  simp only [page2mBase, page2mSize, page2mShift]
  omega

/-- A translation to the address itself survives an identity mapping. -/
theorem translate_self_mapIdentity (hok : TablesOk vm) (htable : table < 2 ^ 47)
    (hsize : size ≤ 2 ^ 33) (hmap : vmBootMapRange vm table table size = some vm') {b : ℕ}
    (hb : b < 2 ^ 48 - 2 ^ 31) (hself : Vm.translate vm b = some b) :
    Vm.translate vm' b = some b := by
  obtain ⟨-, hpages, hframe⟩ := mapIdentity_spec hok htable hsize hmap
  have hcount := @bootRangePages_low table size hsize
  by_cases hon : OnPages table size b
  · obtain ⟨m, hm, hshare⟩ := hon
    have hpage := hpages m hm
    have heq := page_eq_of_sharesEntry (by
      simp only [page2mBase, page2mSize, page2mShift]
      omega) hb hshare
    rw [translate_eq, ← pageAt_congr heq, hpage, Option.map_some, Option.some.injEq]
    simp only [page2mBase, page2mSize, page2mShift] at heq ⊢
    omega
  · rw [translate_eq, hframe b hon, ← translate_eq, hself]

end Ranges

section Init

variable {mem : ℕ → Byte} {vm vm' : BootVm} {apic apic' : Apic} {root : Root} {table : ℕ}

/-- Memory as it is shown, with zeros where nothing is mapped. -/
def shown (mem : ℕ → Byte) (vm : BootVm) (addr : ℕ) : Byte := (view mem vm addr).getD 0

theorem view_shown (mem : ℕ → Byte) (vm : BootVm) (addr : ℕ) :
    view mem vm addr = none ∨ view mem vm addr = some (shown mem vm addr) := by
  unfold shown
  cases view mem vm addr with
  | none => exact Or.inl rfl
  | some b => exact Or.inr rfl

/-- A physical address that can be read at itself lies in the lower half. -/
theorem low_of_view {b : ℕ} (hb : b < 2 ^ 53) (hview : view mem vm b ≠ none) : b < 2 ^ 47 := by
  unfold view at hview
  split_ifs at hview with hcanonical
  · unfold Canonical at hcanonical
    omega
  · exact absurd rfl hview

/-- What is shown at an address that is translated to itself. -/
theorem shown_eq {b : ℕ} (hb : b < 2 ^ 47) (hself : Vm.translate vm b = some b) :
    shown mem vm b = mem b := by
  have hcanonical : Canonical b := Or.inl hb
  rw [shown, view, if_pos hcanonical, hself]
  rfl

/-- The length of a table whose header is translated to itself. -/
theorem tableLength_shown (htable : table + 8 ≤ 2 ^ 47)
    (hself : ∀ b, table ≤ b → b < table + 8 → Vm.translate vm b = some b) :
    tableLength (shown mem vm) table = tableLength mem table := by
  have hbyte : ∀ i < 8, shown mem vm (table + i) = mem (table + i) := by
    intro i hi
    exact shown_eq (by omega) (hself _ (by omega) (by omega))
  simp only [tableLength, u32At, Nat.add_assoc, Nat.reduceAdd]
  rw [hbyte 4 (by omega), hbyte 5 (by omega), hbyte 6 (by omega), hbyte 7 (by omega)]

theorem except_bind_eq_ok {ε α β : Type} {x : Except ε α} {f : α → Except ε β} {r : β} :
    x.bind f = .ok r ↔ ∃ a, x = .ok a ∧ f a = .ok r := by
  cases x with
  | error e => simp [Except.bind]
  | ok a => simp [Except.bind]

theorem elim_eq_ok {ε α : Type} {x : Option α} {e : ε} {r : α} :
    x.elim (.error e) .ok = (.ok r : Except ε α) ↔ x = some r := by
  cases x with
  | none => simp
  | some a => simp

/-- The parser between the two mappings of the root table and their removal. -/
def parseRoot (root : Root) (apic : Apic) (table : ℕ) : Parser Apic :=
  (acpiSdtCheck table).bind fun valid =>
    if valid then acpiParseRoot root apic table else .done apic

/-- The tables after both mappings of the root table. -/
structure Mapped (vm : BootVm) (table length : ℕ) (vm₁ vm₂ : BootVm) : Prop where
  header : vmBootMapRange vm table table 36 = some vm₁
  table : vmBootMapRange vm₁ table table length = some vm₂

/-- The header and the table are then translated to themselves. -/
theorem Mapped.translate_self {vm₁ vm₂ : BootVm} {length : ℕ} (h : Mapped vm table length vm₁ vm₂)
    (hok : TablesOk vm) (htable : table < 2 ^ 47) (hlength : length < 2 ^ 32) {b : ℕ}
    (hlow : table ≤ b) (hhigh : b < table + max length 36) : Vm.translate vm₂ b = some b := by
  obtain ⟨hok₁, -, -⟩ := mapIdentity_spec hok htable (by omega) h.header
  by_cases hb : b < table + length
  · exact translate_mapIdentity hok₁ htable (by omega) h.table hlow hb
  · exact translate_self_mapIdentity hok₁ htable (by omega) h.table (by omega)
      (translate_mapIdentity hok htable (by omega) h.header hlow (by omega))

/-- If the body of `acpi_init` returns, the root table lies in the lower half, it was mapped
and parsed, and the range that was unmapped has its length. -/
theorem initRoot_eq_ok (hok : TablesOk vm) (hphys : table < 2 ^ 52)
    (hret : initRoot root mem vm apic table = .ok (vm', apic')) :
    table + max (tableLength mem table) 8 ≤ 2 ^ 47 ∧
      ∃ vm₁ vm₂, Mapped vm table (tableLength mem table) vm₁ vm₂ ∧
        (parseRoot root apic table).run (view mem vm₂) = .ok apic' ∧
        vm' = vmBootUnmapRange vm₂ table (tableLength mem table) := by
  obtain ⟨vm₁, hmap₁, hret⟩ := except_bind_eq_ok.mp hret
  obtain ⟨length, hread₁, hret⟩ := except_bind_eq_ok.mp hret
  obtain ⟨vm₂, hmap₂, hret⟩ := except_bind_eq_ok.mp hret
  obtain ⟨parsed, hparse, hret⟩ := except_bind_eq_ok.mp hret
  obtain ⟨length', hread₂, hret⟩ := except_bind_eq_ok.mp hret
  rw [Except.ok.injEq, Prod.mk.injEq] at hret
  obtain ⟨hvm, rfl⟩ := hret
  rw [mapIdentity, elim_eq_ok] at hmap₁ hmap₂
  -- the header can be read, so it is in the lower half
  obtain ⟨hreads₁, hvalue₁⟩ := (Reading.run_eq_ok (view_shown mem vm₁) _).mp hread₁
  have hlow : table + 8 ≤ 2 ^ 47 := by
    have := low_of_view (b := table + 7) (by omega)
      (hreads₁ _ ((mem_reads_readU32 _ _).mpr (by omega)))
    omega
  have hlen := u32At_lt mem (table + 4)
  have hself₁ : ∀ b, table ≤ b → b < table + 8 → Vm.translate vm₁ b = some b := by
    intro b hb hb'
    exact translate_mapIdentity hok (by omega) (by omega) hmap₁ hb (by omega)
  obtain rfl : length = tableLength mem table := by
    rw [← tableLength_shown hlow hself₁]
    exact (Except.ok.inj hvalue₁).symm
  have hmapped : Mapped vm table (tableLength mem table) vm₁ vm₂ := ⟨hmap₁, hmap₂⟩
  have hself₂ : ∀ b, table ≤ b → b < table + 8 → Vm.translate vm₂ b = some b := by
    intro b hb hb'
    exact hmapped.translate_self hok (by omega) hlen hb (by omega)
  obtain ⟨-, hvalue₂⟩ := (Reading.run_eq_ok (view_shown mem vm₂) _).mp hread₂
  obtain rfl : length' = tableLength mem table := by
    rw [← tableLength_shown hlow hself₂]
    exact (Except.ok.inj hvalue₂).symm
  -- the checksum takes all bytes of the table
  obtain ⟨hreads, -⟩ := (Reading.run_eq_ok (view_shown mem vm₂) _).mp hparse
  have hall : ∀ b, table ≤ b → b < table + tableLength mem table → view mem vm₂ b ≠ none := by
    intro b hb hb'
    apply hreads
    rw [Reading.mem_reads_bind, (acpiSdtCheck_spec _ _).2, tableLength_shown hlow hself₂]
    exact Or.inl (Or.inr ⟨hb, hb'⟩)
  refine ⟨?_, vm₁, vm₂, hmapped, hparse, hvm.symm⟩
  rcases Nat.eq_zero_or_pos (tableLength mem table) with hzero | hpos
  · omega
  · have := low_of_view (by unfold tableLength; omega)
      (hall (table + (tableLength mem table - 1)) (by omega) (by omega))
    omega

/-- The directory of `boot.S` is in both of its places. -/
def SharedDir (vm : BootVm) : Prop :=
  bootDir vm 0 0 = some bootPd ∧ bootDir vm 511 510 = some bootPd

/-- No call of the range functions takes it away. -/
theorem sharedDir_of_reaches {bootMem : ℕ → ℕ} {kernelEnd : ℕ} (hend : kernelEnd ≤ 2 ^ 30)
    (hrun : Reaches bootStep (fun _ _ => True) (bootTables bootMem kernelEnd) vm) :
    TablesOk vm ∧ SharedDir vm := by
  have hmapPages : ∀ n vm vm' v p, TablesOk vm → SharedDir vm →
      vmBootMapPages n vm v p = some vm' → SharedDir vm' := by
    intro n
    induction n with
    | zero =>
      intro vm vm' v p _ hshared h
      rw [vmBootMapPages, Option.some.injEq] at h
      exact h ▸ hshared
    | succ n ih =>
      intro vm vm' v p hok hshared h
      obtain ⟨vm₁, h₁, hrest⟩ := Option.bind_eq_some_iff.mp h
      obtain ⟨hok₁, -, -, hkept⟩ := vmBootMapPage_spec hok h₁
      refine ih vm₁ vm' _ _ hok₁ ⟨?_, ?_⟩ hrest
      · exact hkept 0 (by omega) 0 (by omega) _ hshared.1
      · exact hkept 511 (by omega) 510 (by omega) _ hshared.2
  have hunmapPages : ∀ n vm v, TablesOk vm → SharedDir vm →
      SharedDir (vmBootUnmapPages n vm v) := by
    intro n
    induction n with
    | zero =>
      intro vm v _ hshared
      exact hshared
    | succ n ih =>
      intro vm v hok hshared
      obtain ⟨hok₁, -, -, hkept⟩ := vmBootUnmapPage_spec hok v
      rw [vmBootUnmapPages_succ]
      refine ih _ _ hok₁ ⟨?_, ?_⟩
      · rw [hkept 0 (by omega) 0 (by omega), hshared.1]
      · rw [hkept 511 (by omega) 510 (by omega), hshared.2]
  apply hrun.invariant ⟨bootTables_ok bootMem hend, (identityOk_bootTables bootMem hend).shared⟩
  rintro vm op vm' ⟨hok, hshared⟩ - hstep
  cases op with
  | mapRange vaddr paddr size =>
    exact ⟨vmBootMapPages_ok hok hstep, hmapPages _ _ _ _ _ hok hshared hstep⟩
  | unmapRange vaddr size =>
    obtain rfl := Option.some.inj hstep
    exact ⟨vmBootUnmapPages_ok hok, hunmapPages _ _ _ hok hshared⟩

/-- Two tables Vm.translate an address alike if they have the same page for it. -/
theorem translate_eq_iff {v : ℕ} :
    Vm.translate vm' v = Vm.translate vm v ↔ pageAt vm' v = pageAt vm v := by
  rw [translate_eq, translate_eq]
  refine ⟨fun h => Option.map_injective ?_ h, fun h => by rw [h]⟩
  exact fun _ _ h => Nat.add_right_cancel h

theorem translate_eq_none_iff {v : ℕ} : Vm.translate vm v = none ↔ pageAt vm v = none := by
  rw [translate_eq, Option.map_eq_none_iff]

/-- The pages after a root table has been mapped and unmapped again. -/
theorem pageAt_unmapped {vm₁ vm₂ : BootVm} {length : ℕ} (hok : TablesOk vm)
    (hshared : SharedDir vm) (hshared₁ : SharedDir vm₁)
    (hshared' : SharedDir (vmBootUnmapRange vm₂ table length)) (h : Mapped vm table length vm₁ vm₂)
    (htable : table < 2 ^ 47) (hlength : length < 2 ^ 32) (v : ℕ) :
    (OnPages table length v → pageAt (vmBootUnmapRange vm₂ table length) v = none) ∧
      (¬OnPages table length v → ¬OnPages table 36 v →
        pageAt (vmBootUnmapRange vm₂ table length) v = pageAt vm v) ∧
      ∀ m < bootRangePages table 36, ¬OnPages table length v →
        SharesEntry (page2mBase table + m * page2mSize) v →
        pageAt (vmBootUnmapRange vm₂ table length) v =
            some (page2mBase table + m * page2mSize) ∧
          pageAt vm v = pageAt vm (page2mBase table + m * page2mSize) := by
  obtain ⟨hok₁, hheader, hframe₁⟩ := mapIdentity_spec hok htable (by omega) h.header
  obtain ⟨hok₂, -, hframe₂⟩ := mapIdentity_spec hok₁ htable (by omega) h.table
  obtain ⟨hunmapped, hframe'⟩ := vmBootUnmapPages_spec hok₂
    (pages_low htable (show length ≤ 2 ^ 33 by omega))
    (separate_low htable (show length ≤ 2 ^ 33 by omega))
  have hout : ¬OnPages table length v →
      pageAt (vmBootUnmapRange vm₂ table length) v = pageAt vm₁ v := by
    intro hon
    rw [vmBootUnmapRange, hframe' v fun m hm hshare => hon ⟨m, hm, hshare⟩, hframe₂ v hon]
  refine ⟨?_, fun hon hnot => ?_, fun m hm hon hshare => ⟨?_, ?_⟩⟩
  · rintro ⟨m, hm, hshare⟩
    rw [IdentityOk.pageAt_eq hshared' hshare]
    exact hunmapped m hm
  · rw [hout hon, hframe₁ v hnot]
  · rw [hout hon, IdentityOk.pageAt_eq hshared₁ hshare]
    exact hheader m hm
  · exact IdentityOk.pageAt_eq hshared hshare

/-- The addresses that were mapped keep their translation exactly if the root table disturbs
none of them. -/
theorem frame_iff_undisturbed {vm₁ vm₂ : BootVm} {length : ℕ} (hok : TablesOk vm)
    (hshared : SharedDir vm) (hshared₁ : SharedDir vm₁)
    (hshared' : SharedDir (vmBootUnmapRange vm₂ table length)) (h : Mapped vm table length vm₁ vm₂)
    (htable : table < 2 ^ 47) (hlength : length < 2 ^ 32) :
    (∀ v, Vm.translate vm v ≠ none →
      Vm.translate (vmBootUnmapRange vm₂ table length) v = Vm.translate vm v) ↔
      Undisturbed vm table length := by
  have hpages := pageAt_unmapped hok hshared hshared₁ hshared' h htable hlength
  have hself : ∀ m < bootRangePages table 36,
      (page2mBase table + m * page2mSize) % page2mSize = 0 := by
    intro m _
    simp only [page2mBase, ← Nat.add_mul, Nat.mul_mod_left]
  constructor
  · intro hframe
    constructor
    · intro v hon
      by_contra hmapped
      have hnone := (hpages v).1 hon
      rw [← translate_eq_none_iff, hframe v hmapped] at hnone
      exact hmapped hnone
    · intro m hm hfar p hp
      -- a page of the header that is not a page of the table
      have hnot : ¬OnPages table length (page2mBase table + m * page2mSize) := by
        rintro ⟨m', hm', hshare⟩
        have hcount := @bootRangePages_low table 36 (by omega)
        have hcount' := @bootRangePages_low table length (by omega)
        simp only [page2mBase, page2mSize, page2mShift] at hshare
        have := page_eq_of_sharesEntry (by omega) (by omega) hshare
        omega
      have hkeep := hframe _ (by rw [hp]; simp)
      rw [hp, translate_eq, ((hpages _).2.2 m hm hnot ⟨Or.inl ⟨rfl, rfl⟩, rfl⟩).1, Option.map_some,
        Option.some.injEq, hself m hm] at hkeep
      omega
  · intro hfree v hmapped
    rw [translate_eq_iff]
    have hon : ¬OnPages table length v := fun hon => hmapped (hfree.free v hon)
    by_cases hheader : OnPages table 36 v
    · obtain ⟨m, hm, hshare⟩ := hheader
      obtain ⟨hnew, hold⟩ := (hpages v).2.2 m hm hon hshare
      have hfar : bootRangePages table length ≤ m := by
        by_contra hlt
        exact hon ⟨m, by omega, hshare⟩
      have hpage : pageAt vm (page2mBase table + m * page2mSize) ≠ none := by
        rw [← hold]
        exact fun hnone => hmapped (translate_eq_none_iff.mpr hnone)
      obtain ⟨p, hp⟩ := Option.ne_none_iff_exists'.mp hpage
      have htranslate : Vm.translate vm (page2mBase table + m * page2mSize) = some p := by
        rw [translate_eq, hp, Option.map_some, hself m hm, Nat.add_zero]
      rw [hnew, hold, hp, hfree.header m hm hfar p htranslate]
    · exact (hpages v).2.1 hon hheader

/-- What `acpi_init` returns, in terms of the root table. -/
theorem acpiInit_eq_ok {found : Bool} (hret : acpiInit mem vm apic = .ok (found, vm', apic')) :
    (foundRoot mem = none ∧ vm' = vm) ∨
      ∃ root table, foundRoot mem = some (root, table) ∧
        initRoot root mem vm apic table = .ok (vm', apic') := by
  unfold acpiInit at hret
  unfold foundRoot
  cases hrsdp : acpiFindRsdp mem with
  | none =>
    simp only [hrsdp, Except.ok.injEq, Prod.mk.injEq] at hret
    exact Or.inl ⟨rfl, hret.2.1.symm⟩
  | some rsdp =>
    simp only [hrsdp] at hret
    rw [Option.bind_some]
    cases hroot : rootTable mem rsdp with
    | none =>
      simp only [hroot, Except.ok.injEq, Prod.mk.injEq] at hret
      exact Or.inl ⟨rfl, hret.2.1.symm⟩
    | some found =>
      obtain ⟨root, table⟩ := found
      simp only [hroot] at hret
      obtain ⟨r, hinit, heq⟩ := except_bind_eq_ok.mp hret
      rw [Except.ok.injEq, Prod.mk.injEq] at heq
      exact Or.inr ⟨root, table, rfl, heq.2 ▸ hinit⟩

end Init

/-- Whatever the boot tables are when `acpi_init` is called: if it returns, the addresses that
were mapped are translated as before exactly if nothing was mapped through the directory entries
of the root table's pages (and of a header that is longer than the table). -/
theorem acpiInit_keeps_translations (mem : ℕ → Byte) {bootMem : ℕ → ℕ} {kernelEnd : ℕ}
    (hend : kernelEnd ≤ 2 ^ 30) {vm vm' : BootVm} {apic apic' : Apic} {found : Bool}
    (hrun : Reaches bootStep (fun _ _ => True) (bootTables bootMem kernelEnd) vm)
    (hphys : ∀ root table, foundRoot mem = some (root, table) → table < 2 ^ 52)
    (hret : acpiInit mem vm apic = .ok (found, vm', apic')) :
    (∀ v, Vm.translate vm v ≠ none → Vm.translate vm' v = Vm.translate vm v) ↔
      ∀ root table, foundRoot mem = some (root, table) →
        Undisturbed vm table (tableLength mem table) := by
  obtain ⟨hok, hshared⟩ := sharedDir_of_reaches hend hrun
  rcases acpiInit_eq_ok hret with ⟨hnone, rfl⟩ | ⟨root, table, hfound, hinit⟩
  · simp [hnone]
  · have hphys := hphys root table hfound
    obtain ⟨hlow, vm₁, vm₂, hmapped, -, rfl⟩ := initRoot_eq_ok hok hphys hinit
    have hlen := u32At_lt mem (table + 4)
    have hrun₁ : Reaches bootStep (fun _ _ => True) (bootTables bootMem kernelEnd) vm₁ :=
      hrun.tail (o := .mapRange table table 36) trivial hmapped.header
    have hrun₂ : Reaches bootStep (fun _ _ => True) (bootTables bootMem kernelEnd) vm₂ :=
      hrun₁.tail (o := .mapRange table table (tableLength mem table)) trivial hmapped.table
    have hrun' := hrun₂.tail (o := .unmapRange table (tableLength mem table)) trivial rfl
    rw [frame_iff_undisturbed hok hshared (sharedDir_of_reaches hend hrun₁).2
      (sharedDir_of_reaches hend hrun').2 hmapped (by omega) hlen]
    constructor
    · intro h root' table' hfound'
      rw [hfound, Option.some.injEq, Prod.mk.injEq] at hfound'
      exact hfound'.2 ▸ h
    · intro h
      exact h root table hfound

/-- Memory with the given bytes at an address and zeros elsewhere. -/
def place (addr : ℕ) (bytes : List Byte) (mem : ℕ → Byte) (a : ℕ) : Byte :=
  if addr ≤ a then (bytes[a - addr]?).getD (mem a) else mem a

/-- A root pointer of revision 0 at 0xE0000, with the checksum and the four bytes of the
address of the RSDT. -/
def rsdpV1 (sum : Byte) (rsdt : List Byte) : List Byte :=
  [0x52, 0x53, 0x44, 0x20, 0x50, 0x54, 0x52, 0x20, sum, 0, 0, 0, 0, 0, 0, 0] ++ rsdt

/-- The header of an RSDT without entries. -/
def emptyRsdt : List Byte := [0x52, 0x53, 0x44, 0x54, 36, 0, 0, 0, 0, 0x9F] ++ List.replicate 26 0

/-- Firmware that puts the RSDT at 0xF0000, in the page of the kernel. -/
def lowFirmware : ℕ → Byte :=
  place 0xE0000 (rsdpV1 0xD2 [0x00, 0x00, 0x0F, 0x00]) (place 0xF0000 emptyRsdt fun _ => 0)

/-- Firmware that puts the RSDT at 0x3FFE0000. -/
def highFirmware : ℕ → Byte :=
  place 0xE0000 (rsdpV1 0xA4 [0x00, 0x00, 0xFE, 0x3F]) (place 0x3FFE0000 emptyRsdt fun _ => 0)

/-- No interrupt controllers. -/
def noApic : Apic := ⟨0, [], 0, 0, []⟩

/-- With the RSDT below 1GB and a kernel of 2MB everything is as before. -/
theorem acpiInit_keeps_translations_high :
    ∃ vm apic, acpiInit highFirmware (bootTables (fun _ => 0) 0x200000) noApic =
        .ok (true, vm, apic) ∧
      ∀ v, Vm.translate (bootTables (fun _ => 0) 0x200000) v ≠ none →
        Vm.translate vm v = Vm.translate (bootTables (fun _ => 0) 0x200000) v := by
  have hfound : foundRoot highFirmware = some (.rsdt, 0x3FFE0000) := by decide +kernel
  have hlength : tableLength highFirmware 0x3FFE0000 = 36 := by decide +kernel
  have hsome : (acpiInit highFirmware (bootTables (fun _ => 0) 0x200000) noApic).toOption.map
      Prod.fst = some true := by decide +kernel
  obtain ⟨⟨found, vm, apic⟩, hsome, rfl⟩ := Option.map_eq_some_iff.mp hsome
  have hret : acpiInit highFirmware (bootTables (fun _ => 0) 0x200000) noApic =
      .ok (true, vm, apic) := by
    cases hcase : acpiInit highFirmware (bootTables (fun _ => 0) 0x200000) noApic with
    | error e => simp [hcase, Except.toOption] at hsome
    | ok r => simpa [hcase, Except.toOption] using hsome
  refine ⟨vm, apic, hret, (acpiInit_keeps_translations highFirmware (by decide) (Reaches.refl _)
    (fun root table h => ?_) hret).mpr fun root table h => ?_⟩
  · rw [hfound, Option.some.injEq, Prod.mk.injEq] at h
    omega
  · rw [hfound, Option.some.injEq, Prod.mk.injEq] at h
    obtain ⟨-, rfl⟩ := h
    rw [hlength]
    refine ⟨fun v hon => ?_, fun m hm hfar => by omega⟩
    obtain ⟨m, hm, hdir, hpage⟩ := hon
    have hcount : bootRangePages 0x3FFE0000 36 = 1 := by decide +kernel
    obtain rfl : m = 0 := by omega
    have hbase : page2mBase 0x3FFE0000 + 0 * page2mSize = 0x3FE00000 := by decide +kernel
    rw [hbase, show pmlIndex 0x3FE00000 = 0 by decide +kernel,
      show pdpIndex 0x3FE00000 = 0 by decide +kernel] at hdir
    rw [hbase, show page2mIndex 0x3FE00000 = 511 by decide +kernel] at hpage
    rw [translate_eq_none_iff, pageAt, hpage]
    rcases hdir with ⟨hi, hj⟩ | ⟨-, -, hi, hj⟩ | ⟨hi, -⟩
    · rw [← hi, ← hj]
      decide +kernel
    · rw [hi, hj]
      decide +kernel
    · simp at hi

/-- With the RSDT in the BIOS area the page of the kernel is gone. -/
theorem acpiInit_unmaps_kernel :
    ¬ ∀ (mem : ℕ → Byte) (bootMem : ℕ → ℕ) (kernelEnd : ℕ) (vm vm' : BootVm) (apic apic' : Apic)
      (found : Bool), kernelEnd ≤ 2 ^ 30 →
      Reaches bootStep (fun _ _ => True) (bootTables bootMem kernelEnd) vm →
      acpiInit mem vm apic = .ok (found, vm', apic') →
      ∀ v, Vm.translate vm v ≠ none → Vm.translate vm' v = Vm.translate vm v := by
  intro hall
  have hrun : (acpiInit lowFirmware (bootTables (fun _ => 0) 0x200000) noApic).toOption.map
      (fun r => Vm.translate r.2.1 0) = some none := by decide +kernel
  have hbefore : Vm.translate (bootTables (fun _ => 0) 0x200000) 0 = some 0 := by decide +kernel
  cases hret : acpiInit lowFirmware (bootTables (fun _ => 0) 0x200000) noApic with
  | error e => simp [hret, Except.toOption] at hrun
  | ok r =>
    obtain ⟨found, vm, apic⟩ := r
    have hkeep := hall _ _ _ _ vm _ apic found (by decide) (Reaches.refl _) hret 0
      (by rw [hbefore]; simp)
    rw [hret, Except.toOption, Option.map_some, Option.some.injEq] at hrun
    rw [hbefore, hrun] at hkeep
    simp at hkeep

end Smor.Acpi
