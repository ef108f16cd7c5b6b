import Smor.Acpi.Mapping

/-!
# What `acpi_init` reads

Only the root table is mapped before it is parsed; the tables that it lists are read at their
physical addresses as they are. `RootField` says which bytes these are, in terms of the
contents of memory. The parser does not fault if all of them lie on pages that are mapped
anyway, because they were mapped before or belong to the root table.
-/

namespace Smor.Acpi

open Smor.Lib Smor.Vm

/-- What identity tables show at an address: the byte of that physical address, or at
`KERNEL_BASE` a byte of the first gigabyte. -/
def seen (mem : ℕ → Byte) (addr : ℕ) : Byte := mem (if addr < 2 ^ 47 then addr else addr % 2 ^ 30)

/-- The entry at `e` is found by the walk over the entries of a MADT from `ptr` up to `stop`. -/
inductive Visits (mem : ℕ → Byte) (stop : ℕ) : ℕ → ℕ → Prop
  | here {ptr : ℕ} (h : ptr < stop) : Visits mem stop ptr ptr
  | next {ptr e : ℕ} (h : ptr < stop) (rest : Visits mem stop (ptr + (mem (ptr + 1)).toNat) e) :
    Visits mem stop ptr e

/-- A byte of the fields of a MADT entry that are used, by the type of the entry. -/
def EntryField (mem : ℕ → Byte) (e b : ℕ) : Prop :=
  b = e ∨ b = e + 1 ∨ ((mem e).toNat = 0 ∧ b = e + 3) ∨
    ((mem e).toNat = 1 ∧ e + 4 ≤ b ∧ b < e + 12) ∨ ((mem e).toNat = 2 ∧ e + 2 ≤ b ∧ b < e + 8)

/-- A byte of the address, the length, or an entry of a MADT. -/
def MadtField (mem : ℕ → Byte) (madt b : ℕ) : Prop :=
  (madt + 36 ≤ b ∧ b < madt + 40) ∨ (madt + 4 ≤ b ∧ b < madt + 8) ∨
    ∃ e, Visits mem (madt + tableLength mem madt) (madt + 44) e ∧ EntryField mem e b

/-- A byte of the signature of a table, or of a field of a MADT. -/
def SdtField (mem : ℕ → Byte) (sdt b : ℕ) : Prop :=
  (sdt ≤ b ∧ b < sdt + 4) ∨ (u32At mem sdt = acpiApicSignature ∧ MadtField mem sdt b)

/-- The address in an entry of a root table. -/
def Root.entryAt (root : Root) (mem : ℕ → Byte) (addr : ℕ) : ℕ :=
  match root with
  | .rsdt => u32At mem addr
  | .xsdt => u64At mem addr

/-- A byte of one of the first `n` entries of a list of tables, or of a field of such a table. -/
def ListField (root : Root) (mem : ℕ → Byte) (n addr b : ℕ) : Prop :=
  ∃ i < n, (addr + i * root.width ≤ b ∧ b < addr + (i + 1) * root.width) ∨
    SdtField mem (root.entryAt mem (addr + i * root.width)) b

/-- A byte of the list of tables behind the header of a root table, or of a field of a table in
the list. -/
def RootField (root : Root) (mem : ℕ → Byte) (table b : ℕ) : Prop :=
  ListField root mem (root.numSdt (tableLength mem table)) (table + 36) b

/-- The address is on a page that was mapped before the call, or on a page of the root table or
its header. -/
def Covered (vm : BootVm) (table length b : ℕ) : Prop :=
  Canonical b ∧ (Vm.translate vm b ≠ none ∨ OnPages table (max length 36) b)

/-- The root table lies in the lower half, and the fields of the listed tables are on pages
that are mapped. -/
structure AllCovered (root : Root) (mem : ℕ → Byte) (vm : BootVm) (table : ℕ) : Prop where
  low : table + max (tableLength mem table) 36 ≤ 2 ^ 47
  fields : ∀ b, RootField root (seen mem) table b → Covered vm table (tableLength mem table) b

section Parsing

variable {mem : ℕ → Byte} {apic : Apic} {b : ℕ}

/-- What the parser reads of a MADT entry, up to its length. -/
theorem mem_reads_parseEntry {ptr : ℕ} :
    b ∈ (parseEntry apic ptr).reads mem ↔
      b = ptr ∨ ((mem ptr).toNat = 0 ∧ b = ptr + 3) ∨
        ((mem ptr).toNat = 1 ∧ ptr + 4 ≤ b ∧ b < ptr + 12) ∨
        ((mem ptr).toNat = 2 ∧ ptr + 2 ≤ b ∧ b < ptr + 8) := by
  have hcpu : ∀ id, (localApicAddCpu apic id).reads mem = [] := by
    intro id
    unfold localApicAddCpu
    split_ifs <;> rfl
  have hiovr : ∀ bus irq gsi, (ioApicAddIovr apic bus irq gsi).reads mem = [] := by
    intro bus irq gsi
    unfold ioApicAddIovr
    split_ifs <;> rfl
  rw [parseEntry, Reading.mem_reads_bind]
  simp only [mem_reads_readU8, value_readU8, Except.ok.injEq, exists_eq_left']
  split_ifs with h₀ h₁ h₂
  · simp only [Reading.mem_reads_bind, mem_reads_readU8, value_readU8, hcpu, List.not_mem_nil,
      and_false, exists_false, or_false]
    omega
  · simp only [Reading.mem_reads_bind, mem_reads_readU32, value_readU32, Except.ok.injEq,
      exists_eq_left', Reading.reads_done, List.not_mem_nil, or_false]
    omega
  · simp only [Reading.mem_reads_bind, mem_reads_readU8, mem_reads_readU32, value_readU8,
      value_readU32, Except.ok.injEq, exists_eq_left', hiovr, List.not_mem_nil, or_false]
    omega
  · simp only [Reading.reads_done, List.not_mem_nil, or_false]
    omega

/-- The loop over the entries of a MADT reads fields of entries, and all of them if it ends. -/
theorem parseEntries_reads {stop : ℕ} (rounds ptr : ℕ) (apic : Apic) :
    (b ∈ (parseEntries stop rounds ptr apic).reads mem →
      ∃ e, Visits mem stop ptr e ∧ EntryField mem e b) ∧
    ∀ r, (parseEntries stop rounds ptr apic).value mem = .ok r →
      (∃ e, Visits mem stop ptr e ∧ EntryField mem e b) →
      b ∈ (parseEntries stop rounds ptr apic).reads mem := by
  induction rounds generalizing ptr apic with
  | zero =>
    constructor
    · intro hb
      simp [parseEntries] at hb
    · intro r hr
      simp [parseEntries] at hr
  | succ rounds ih =>
    rw [parseEntries]
    split_ifs with hstop
    · constructor
      · intro hb
        rw [Reading.mem_reads_bind, mem_reads_parseEntry] at hb
        rcases hb with hb | ⟨apic', -, hb⟩
        · refine ⟨ptr, .here hstop, ?_⟩
          unfold EntryField
          tauto
        · simp only [Reading.mem_reads_bind, mem_reads_readU8, value_readU8, Except.ok.injEq,
            exists_eq_left'] at hb
          rcases hb with hb | hb
          · exact ⟨ptr, .here hstop, Or.inr (Or.inl hb)⟩
          · obtain ⟨e, he, hfield⟩ := (ih _ apic').1 hb
            exact ⟨e, .next hstop he, hfield⟩
      · rintro r hr ⟨e, he, hfield⟩
        obtain ⟨apic', hentry, hr⟩ := Reading.value_bind_eq_ok.mp hr
        obtain ⟨length, hlength, hr⟩ := Reading.value_bind_eq_ok.mp hr
        rw [Reading.mem_reads_bind, mem_reads_parseEntry]
        simp only [hentry, Except.ok.injEq, exists_eq_left', Reading.mem_reads_bind,
          mem_reads_readU8, value_readU8]
        rw [value_readU8, Except.ok.injEq] at hlength
        subst hlength
        cases he with
        | here h =>
          unfold EntryField at hfield
          tauto
        | next h rest => exact Or.inr (Or.inr ((ih _ apic').2 r hr ⟨e, rest, hfield⟩))
    · constructor
      · intro hb
        simp at hb
      · rintro r - ⟨e, he, -⟩
        cases he with
        | here h => exact absurd h hstop
        | next h rest => exact absurd h hstop

/-- `acpi_parse_madt` reads two fields of the header, and then what its loop reads. -/
theorem mem_reads_acpiParseMadt {madt : ℕ} :
    b ∈ (acpiParseMadt apic madt).reads mem ↔
      (madt + 36 ≤ b ∧ b < madt + 40) ∨ (madt + 4 ≤ b ∧ b < madt + 8) ∨
        b ∈ (parseEntries (madt + tableLength mem madt) (tableLength mem madt + 1) (madt + 44)
          { apic with localApicAddr := u32At mem (madt + 36) }).reads mem := by
  simp only [acpiParseMadt, Reading.mem_reads_bind, mem_reads_readU32, value_readU32,
    Except.ok.injEq, exists_eq_left', tableLength]

/-- What `acpi_parse_sdt` reads. -/
theorem acpiParseSdt_reads (sdt : ℕ) (apic : Apic) :
    (b ∈ (acpiParseSdt apic sdt).reads mem → SdtField mem sdt b) ∧
    ∀ r, (acpiParseSdt apic sdt).value mem = .ok r → SdtField mem sdt b →
      b ∈ (acpiParseSdt apic sdt).reads mem := by
  rw [acpiParseSdt, Reading.mem_reads_bind]
  simp only [mem_reads_readU32, value_readU32, Except.ok.injEq, exists_eq_left', SdtField]
  split_ifs with hsig
  · obtain ⟨hsound, hcomplete⟩ := @parseEntries_reads mem b (sdt + tableLength mem sdt)
      (tableLength mem sdt + 1) (sdt + 44) { apic with localApicAddr := u32At mem (sdt + 36) }
    rw [mem_reads_acpiParseMadt]
    constructor
    · rintro (hb | hb | hb | hb)
      · exact Or.inl hb
      · exact Or.inr ⟨hsig, Or.inl hb⟩
      · exact Or.inr ⟨hsig, Or.inr (Or.inl hb)⟩
      · exact Or.inr ⟨hsig, Or.inr (Or.inr (hsound hb))⟩
    · rintro r hr (hb | ⟨-, hb | hb | hb⟩)
      · exact Or.inl hb
      · exact Or.inr (Or.inl hb)
      · exact Or.inr (Or.inr (Or.inl hb))
      · obtain ⟨signature, hsignature, hr⟩ := Reading.value_bind_eq_ok.mp hr
        rw [value_readU32, Except.ok.injEq] at hsignature
        subst hsignature
        rw [if_pos hsig] at hr
        exact Or.inr (Or.inr (Or.inr (hcomplete r hr hb)))
  · simp only [Reading.reads_done, List.not_mem_nil, or_false]
    constructor
    · intro hb
      exact Or.inl hb
    · rintro r - (hb | ⟨heq, -⟩)
      · exact hb
      · exact absurd heq hsig

/-- The fields of a list of entries, by its first entry. -/
theorem listField_succ {root : Root} {n addr : ℕ} :
    ListField root mem (n + 1) addr b ↔
      (addr ≤ b ∧ b < addr + root.width) ∨ SdtField mem (root.entryAt mem addr) b ∨
        ListField root mem n (addr + root.width) b := by
  have hshift : ∀ i, addr + (i + 1) * root.width = addr + root.width + i * root.width := by
    intro i
    rw [Nat.add_mul, Nat.one_mul]
    omega
  constructor
  · rintro ⟨i, hi, hfield⟩
    cases i with
    | zero =>
      rw [hshift 0, Nat.zero_mul, Nat.add_zero, Nat.add_zero] at hfield
      exact hfield.imp_right Or.inl
    | succ i =>
      rw [hshift i, hshift (i + 1)] at hfield
      exact Or.inr (Or.inr ⟨i, by omega, hfield⟩)
  · rintro (hb | hb | ⟨i, hi, hfield⟩)
    · refine ⟨0, by omega, Or.inl ?_⟩
      rwa [hshift 0, Nat.zero_mul, Nat.add_zero, Nat.add_zero]
    · refine ⟨0, by omega, Or.inr ?_⟩
      rwa [Nat.zero_mul, Nat.add_zero]
    · refine ⟨i + 1, by omega, ?_⟩
      rwa [hshift i, hshift (i + 1)]

/-- An entry of a root table. -/
theorem readEntry_spec (root : Root) (mem : ℕ → Byte) (addr : ℕ) :
    (root.readEntry addr).value mem = .ok (root.entryAt mem addr) ∧
      ∀ b, b ∈ (root.readEntry addr).reads mem ↔ addr ≤ b ∧ b < addr + root.width := by
  cases root with
  | rsdt => exact ⟨value_readU32 mem addr, fun b => mem_reads_readU32 mem addr⟩
  | xsdt => exact ⟨value_readU64 mem addr, fun b => mem_reads_readU64 mem addr⟩

/-- What the loop over the entries of a root table reads. -/
theorem parseSdts_reads (root : Root) (n addr : ℕ) (apic : Apic) :
    (b ∈ (parseSdts root n addr apic).reads mem → ListField root mem n addr b) ∧
    ∀ r, (parseSdts root n addr apic).value mem = .ok r → ListField root mem n addr b →
      b ∈ (parseSdts root n addr apic).reads mem := by
  induction n generalizing addr apic with
  | zero =>
    constructor
    · intro hb
      simp [parseSdts] at hb
    · rintro r - ⟨i, hi, -⟩
      omega
  | succ n ih =>
    obtain ⟨hvalue, hreads⟩ := readEntry_spec root mem addr
    rw [listField_succ, parseSdts, Reading.mem_reads_bind, hreads]
    simp only [hvalue, Except.ok.injEq, exists_eq_left', Reading.mem_reads_bind]
    constructor
    · rintro (hb | hb | ⟨apic', -, hb⟩)
      · exact Or.inl hb
      · exact Or.inr (Or.inl ((acpiParseSdt_reads _ apic).1 hb))
      · exact Or.inr (Or.inr ((ih _ apic').1 hb))
    · intro r hr hb
      obtain ⟨sdt, hsdt, hr⟩ := Reading.value_bind_eq_ok.mp hr
      rw [hvalue, Except.ok.injEq] at hsdt
      subst hsdt
      obtain ⟨apic', hparse, hr⟩ := Reading.value_bind_eq_ok.mp hr
      rcases hb with hb | hb | hb
      · exact Or.inl hb
      · exact Or.inr (Or.inl ((acpiParseSdt_reads _ apic).2 apic' hparse hb))
      · exact Or.inr (Or.inr ⟨apic', hparse, (ih _ apic').2 r hr hb⟩)

/-- What is read of a root table with a right checksum and of the tables it lists. -/
theorem parseRoot_reads {root : Root} {table : ℕ}
    (hvalid : checksum mem table (tableLength mem table) = 0) :
    (b ∈ (parseRoot root apic table).reads mem →
      (table + 4 ≤ b ∧ b < table + 8) ∨ (table ≤ b ∧ b < table + tableLength mem table) ∨
        RootField root mem table b) ∧
    ∀ r, (parseRoot root apic table).value mem = .ok r → RootField root mem table b →
      b ∈ (parseRoot root apic table).reads mem := by
  obtain ⟨hvalue, hreads⟩ := acpiSdtCheck_spec mem table
  rw [decide_eq_true hvalid] at hvalue
  obtain ⟨hsound, hcomplete⟩ := @parseSdts_reads mem b root
    (root.numSdt (tableLength mem table)) (table + 36) apic
  have hroot : b ∈ (parseRoot root apic table).reads mem ↔
      ((table + 4 ≤ b ∧ b < table + 8) ∨ (table ≤ b ∧ b < table + tableLength mem table)) ∨
        (table + 4 ≤ b ∧ b < table + 8) ∨
        b ∈ (parseSdts root (root.numSdt (tableLength mem table)) (table + 36) apic).reads mem := by
    rw [parseRoot, Reading.mem_reads_bind, hreads]
    simp only [hvalue, Except.ok.injEq, exists_eq_left', if_true, acpiParseRoot,
      Reading.mem_reads_bind, mem_reads_readU32, value_readU32, tableLength]
  rw [hroot]
  constructor
  · rintro ((hb | hb) | hb | hb)
    · exact Or.inl hb
    · exact Or.inr (Or.inl hb)
    · exact Or.inl hb
    · exact Or.inr (Or.inr (hsound hb))
  · intro r hr hb
    obtain ⟨valid, hcheck, hr⟩ := Reading.value_bind_eq_ok.mp hr
    rw [hvalue, Except.ok.injEq] at hcheck
    subst hcheck
    rw [if_pos rfl, acpiParseRoot] at hr
    obtain ⟨length, hlength, hr⟩ := Reading.value_bind_eq_ok.mp hr
    rw [value_readU32, Except.ok.injEq] at hlength
    subst hlength
    exact Or.inr (Or.inr (hcomplete r hr hb))

end Parsing

section Views

variable {mem : ℕ → Byte} {vm vm₁ vm₂ : BootVm} {table length b : ℕ}

/-- Identity tables show the physical memory. -/
theorem view_seen (hok : IdentityOk vm) (b : ℕ) :
    view mem vm b = none ∨ view mem vm b = some (seen mem b) := by
  unfold view
  split_ifs with hcanonical
  · cases hpage : pageAt vm b with
    | none =>
      rw [translate_eq, hpage]
      exact Or.inl rfl
    | some a =>
      right
      have hat := hok.identity _ (pmlIndex_lt b) _ (pdpIndex_lt b) _ (page2mIndex_lt b) a hpage
      have haddr : a + b % page2mSize = if b < 2 ^ 47 then b else b % 2 ^ 30 := by
        simp only [IdentityAt, dirPos, pmlIndex_eq, pdpIndex_eq, page2mIndex_eq] at hat
        simp only [Canonical] at hcanonical
        simp only [page2mSize, page2mShift]
        split_ifs with hlow <;> omega
      rw [translate_eq, hpage, Option.map_some, Option.map_some, haddr, seen]
  · exact Or.inl rfl

/-- Mapping part of the lower half keeps identity tables. -/
theorem identityOk_mapIdentity {vm' : BootVm} {size : ℕ} (hok : IdentityOk vm)
    (hlow : table + size ≤ 2 ^ 47) (hsize : size ≤ 2 ^ 33) (htable : table < 2 ^ 47)
    (hmap : vmBootMapRange vm table table size = some vm') : IdentityOk vm' := by
  have hcount := @bootRangePages_low table size hsize
  apply hok.mapPages (pages_low htable hsize) (pages_low htable hsize) _ hmap
  intro m hm
  unfold IdentityPage
  simp only [page2mBase, page2mSize, page2mShift]
  exact ⟨by omega, Or.inl ⟨trivial, by omega⟩⟩

/-- The pages of two ranges from one address on are those of the longer one. -/
theorem onPages_max (hlength : length ≤ 2 ^ 33) (v : ℕ) :
    OnPages table (max length 36) v ↔ OnPages table length v ∨ OnPages table 36 v := by
  unfold OnPages
  rw [bootRangePages_low (by omega), bootRangePages_low hlength, bootRangePages_low (by omega)]
  constructor
  · rintro ⟨m, hm, hshare⟩
    rcases Nat.le_total length 36 with hle | hle
    · rw [Nat.max_eq_right hle] at hm
      exact Or.inr ⟨m, hm, hshare⟩
    · rw [Nat.max_eq_left hle] at hm
      exact Or.inl ⟨m, hm, hshare⟩
  · rintro (⟨m, hm, hshare⟩ | ⟨m, hm, hshare⟩)
    · exact ⟨m, by omega, hshare⟩
    · exact ⟨m, by omega, hshare⟩

/-- The mappings of a root table in the lower half keep identity tables. -/
theorem Mapped.identityOk (h : Mapped vm table length vm₁ vm₂) (hok : IdentityOk vm)
    (hlow : table + max length 36 ≤ 2 ^ 47) (hlength : length < 2 ^ 32) : IdentityOk vm₂ := by
  have hok₁ := identityOk_mapIdentity hok (by omega) (by omega) (by omega) h.header
  exact identityOk_mapIdentity hok₁ (by omega) (by omega) (by omega) h.table

/-- After the root table has been mapped, exactly the covered addresses can be read. -/
theorem Mapped.view_ne_none_iff (h : Mapped vm table length vm₁ vm₂) (hok : IdentityOk vm)
    (hlow : table + max length 36 ≤ 2 ^ 47) (hlength : length < 2 ^ 32) :
    view mem vm₂ b ≠ none ↔ Covered vm table length b := by
  have hok₁ := identityOk_mapIdentity hok (by omega) (by omega) (by omega) h.header
  have hok₂ := h.identityOk hok hlow hlength
  obtain ⟨-, hpages₁, hframe₁⟩ :=
    mapIdentity_spec hok.tables (show table < 2 ^ 47 by omega) (by omega) h.header
  obtain ⟨-, hpages₂, hframe₂⟩ :=
    mapIdentity_spec hok₁.tables (show table < 2 ^ 47 by omega) (by omega) h.table
  have htranslate : Vm.translate vm₂ b ≠ none ↔
      Vm.translate vm b ≠ none ∨ OnPages table (max length 36) b := by
    rw [onPages_max (by omega), Ne, Ne, translate_eq_none_iff, translate_eq_none_iff]
    by_cases hon : OnPages table length b
    · obtain ⟨m, hm, hshare⟩ := hon
      refine iff_of_true ?_ (Or.inr (Or.inl ⟨m, hm, hshare⟩))
      rw [IdentityOk.pageAt_eq hok₂.shared hshare, hpages₂ m hm]
      simp
    · rw [hframe₂ b hon]
      by_cases hheader : OnPages table 36 b
      · obtain ⟨m, hm, hshare⟩ := hheader
        refine iff_of_true ?_ (Or.inr (Or.inr ⟨m, hm, hshare⟩))
        rw [IdentityOk.pageAt_eq hok₁.shared hshare, hpages₁ m hm]
        simp
      · rw [hframe₁ b hheader]
        simp [hon, hheader]
  unfold view Covered
  split_ifs with hcanonical
  · rw [Ne, Option.map_eq_none_iff, ← Ne, htranslate]
    simp [hcanonical]
  · simp [hcanonical]

/-- The length and the checksum of a table depend on its bytes only. -/
theorem table_congr {mem' : ℕ → Byte}
    (hbyte : ∀ i < max (tableLength mem table) 8, mem' (table + i) = mem (table + i)) :
    tableLength mem' table = tableLength mem table ∧
      checksum mem' table (tableLength mem table) =
        checksum mem table (tableLength mem table) := by
  constructor
  · simp only [tableLength, u32At, Nat.add_assoc, Nat.reduceAdd]
    rw [hbyte 4 (by omega), hbyte 5 (by omega), hbyte 6 (by omega), hbyte 7 (by omega)]
  · have hsum : ∀ n ≤ tableLength mem table, checksum mem' table n = checksum mem table n := by
      intro n hn
      induction n with
      | zero => rfl
      | succ n ih => rw [checksum, checksum, ih (by omega), hbyte n (by omega)]
    exact hsum _ le_rfl

/-- A table in the lower half is what it is in physical memory. -/
theorem seen_table (hlow : table + max (tableLength mem table) 8 ≤ 2 ^ 47) :
    tableLength (seen mem) table = tableLength mem table ∧
      checksum (seen mem) table (tableLength mem table) =
        checksum mem table (tableLength mem table) := by
  apply table_congr
  intro i hi
  rw [seen, if_pos (by omega)]

theorem except_bind_eq_error {ε α β : Type} {x : Except ε α} {f : α → Except ε β} {e : ε} :
    x.bind f = .error e ↔ x = .error e ∨ ∃ a, x = .ok a ∧ f a = .error e := by
  cases x with
  | error e' => simp [Except.bind]
  | ok a => simp [Except.bind]

theorem elim_ne_fault {α : Type} {x : Option α} {k : ℕ} :
    x.elim (.error (.stop Stop.panic)) .ok ≠ (.error (.fault k) : Except (Halt ℕ Stop) α) := by
  cases x with
  | none => simp
  | some a => simp

/-- If everything is covered, no access faults. -/
theorem initRoot_ne_fault {root : Root} {apic : Apic} (hok : IdentityOk vm)
    (hvalid : checksum mem table (tableLength mem table) = 0)
    (hcovered : AllCovered root mem vm table) (k : ℕ) :
    initRoot root mem vm apic table ≠ .error (.fault k) := by
  have hlow := hcovered.low
  have hlen := u32At_lt mem (table + 4)
  obtain ⟨hlength, hsum⟩ :=
    seen_table (show table + max (tableLength mem table) 8 ≤ 2 ^ 47 by omega)
  intro hfault
  rcases except_bind_eq_error.mp hfault with hfault | ⟨vm₁, hmap₁, hfault⟩
  · exact elim_ne_fault hfault
  rw [mapIdentity, elim_eq_ok] at hmap₁
  have hok₁ := identityOk_mapIdentity hok (by omega) (by omega) (by omega) hmap₁
  have hheader : ∀ b ∈ (readU32 (table + 4)).reads (seen mem), view mem vm₁ b ≠ none := by
    intro b hb
    rw [mem_reads_readU32] at hb
    rw [view, if_pos (show Canonical b from Or.inl (by omega)),
      translate_mapIdentity hok.tables (by omega) (by omega) hmap₁ (by omega) (by omega)]
    simp
  rcases except_bind_eq_error.mp hfault with hfault | ⟨length, hread, hfault⟩
  · exact Reading.run_ne_fault (view_seen hok₁) _ hheader k hfault
  obtain ⟨-, hread⟩ := (Reading.run_eq_ok (view_seen hok₁) _).mp hread
  obtain rfl : tableLength mem table = length := by
    rw [← hlength]
    exact Except.ok.inj hread
  rcases except_bind_eq_error.mp hfault with hfault | ⟨vm₂, hmap₂, hfault⟩
  · exact elim_ne_fault hfault
  rw [mapIdentity, elim_eq_ok] at hmap₂
  have hmapped : Mapped vm table (tableLength mem table) vm₁ vm₂ := ⟨hmap₁, hmap₂⟩
  have hok₂ := hmapped.identityOk hok hlow hlen
  -- the root table itself is mapped, and the rest is covered
  have hself : ∀ b, table ≤ b → b < table + max (tableLength mem table) 36 →
      view mem vm₂ b ≠ none := by
    intro b hb hb'
    rw [view, if_pos (show Canonical b from Or.inl (by omega)),
      hmapped.translate_self hok.tables (by omega) hlen hb hb']
    simp
  rcases except_bind_eq_error.mp hfault with hfault | ⟨parsed, -, hfault⟩
  · refine Reading.run_ne_fault (view_seen hok₂) _ (fun b hb => ?_) k hfault
    rw [← hlength] at hvalid hsum
    have hvalid' := hsum.trans hvalid
    rcases (parseRoot_reads hvalid').1 hb with hb | hb | hb
    · exact hself b (by omega) (by omega)
    · rw [hlength] at hb
      exact hself b (by omega) (by omega)
    · exact (hmapped.view_ne_none_iff hok hlow hlen).mpr (hcovered.fields b hb)
  rcases except_bind_eq_error.mp hfault with hfault | ⟨length, -, hfault⟩
  · refine Reading.run_ne_fault (view_seen hok₂) _ (fun b hb => ?_) k hfault
    rw [mem_reads_readU32] at hb
    exact hself b (by omega) (by omega)
  · simp at hfault

/-- A root table that is shorter than its header seems to have entries. -/
theorem numSdt_pos (root : Root) (hlength : length < 36) : 0 < root.numSdt length := by
  have hwrap : u64 (length + (2 ^ 64 - 36)) = length + (2 ^ 64 - 36) := by
    unfold u64
    omega
  rw [Root.numSdt, hwrap, Nat.shiftRight_eq_div_pow]
  unfold u32
  cases root with
  | rsdt =>
    simp only [Root.shift]
    omega
  | xsdt =>
    simp only [Root.shift]
    omega

/-- If the body of `acpi_init` returns, everything was covered. -/
theorem allCovered_of_initRoot {root : Root} {apic apic' : Apic} {vm' : BootVm}
    (hok : IdentityOk vm) (hphys : table < 2 ^ 52)
    (hvalid : checksum mem table (tableLength mem table) = 0)
    (hret : initRoot root mem vm apic table = .ok (vm', apic')) :
    AllCovered root mem vm table := by
  have hlen := u32At_lt mem (table + 4)
  obtain ⟨hlow, vm₁, vm₂, hmapped, hparse, -⟩ := initRoot_eq_ok hok.tables hphys hret
  -- a table that is shorter than its header is read behind the header
  have hlow' : table + max (tableLength mem table) 36 ≤ 2 ^ 47 := by
    by_contra hhigh
    obtain ⟨hreads, hvalue⟩ := (Reading.run_eq_ok (view_shown mem vm₂) _).mp hparse
    have hbyte : ∀ i < max (tableLength mem table) 8,
        shown mem vm₂ (table + i) = mem (table + i) := by
      intro i hi
      exact shown_eq (by omega)
        (hmapped.translate_self hok.tables (by omega) hlen (by omega) (by omega))
    obtain ⟨hlength, hsum⟩ := table_congr hbyte
    have hfield : RootField root (shown mem vm₂) table (table + 36) := by
      refine ⟨0, ?_, Or.inl ?_⟩
      · rw [hlength]
        exact numSdt_pos root (by omega)
      · cases root <;> simp [Root.width]
    have hread := (parseRoot_reads (by rw [hlength, hsum, hvalid])).2 _ hvalue hfield
    have := low_of_view (by omega) (hreads _ hread)
    omega
  refine ⟨hlow', fun b hb => ?_⟩
  have hok₂ := hmapped.identityOk hok hlow' hlen
  obtain ⟨hlength, hsum⟩ := seen_table hlow
  obtain ⟨hreads, hvalue⟩ := (Reading.run_eq_ok (view_seen hok₂) _).mp hparse
  have hread := (parseRoot_reads (by rw [hlength, hsum, hvalid])).2 _ hvalue hb
  exact (hmapped.view_ne_none_iff hok hlow' hlen).mp (hreads b hread)

/-- `acpi_init` without a root table returns, and else it does what is done for the root table. -/
theorem acpiInit_eq (mem : ℕ → Byte) (vm : BootVm) (apic : Apic) :
    (foundRoot mem = none ∧ ∃ r, acpiInit mem vm apic = .ok r) ∨
      ∃ root table, foundRoot mem = some (root, table) ∧
        acpiInit mem vm apic = (initRoot root mem vm apic table).bind fun r => .ok (true, r) := by
  unfold acpiInit foundRoot
  cases acpiFindRsdp mem with
  | none => exact Or.inl ⟨rfl, _, rfl⟩
  | some rsdp =>
    rw [Option.bind_some]
    cases hroot : rootTable mem rsdp with
    | none =>
      simp only [hroot]
      exact Or.inl ⟨trivial, _, rfl⟩
    | some found =>
      obtain ⟨root, table⟩ := found
      simp only [hroot]
      exact Or.inr ⟨root, table, rfl, rfl⟩

end Views

/-- Whatever identity mappings and slack memory the boot tables hold, and wherever the firmware
puts its tables, with a right checksum of the root table: no access of `acpi_init` faults if all
fields of the listed tables are on pages that were mapped before or belong to the root table.
This is also needed, unless a `check` fails or the loop over a MADT does not end. -/
theorem acpiInit_reads_mapped (mem : ℕ → Byte) {info : BootInfo} {bootMem : ℕ → ℕ}
    {kernelEnd : ℕ} (hend : kernelEnd ≤ 2 ^ 30) {s : BootState} (apic : Apic)
    (hrun : Reaches BootState.step IdentityCall
      ⟨kernelInit info kernelEnd, bootTables bootMem kernelEnd⟩ s)
    (hphys : ∀ root table, foundRoot mem = some (root, table) → table < 2 ^ 52)
    (hvalid : ∀ root table, foundRoot mem = some (root, table) →
      checksum mem table (tableLength mem table) = 0) :
    ((∀ root table, foundRoot mem = some (root, table) → AllCovered root mem s.vm table) →
      ∀ k, acpiInit mem s.vm apic ≠ .error (.fault k)) ∧
    ((∀ e, acpiInit mem s.vm apic ≠ .error (.stop e)) →
      (∀ k, acpiInit mem s.vm apic ≠ .error (.fault k)) →
      ∀ root table, foundRoot mem = some (root, table) → AllCovered root mem s.vm table) := by
  have hok := (bootStateOk_of_reaches hend hrun).identity
  rcases acpiInit_eq mem s.vm apic with ⟨hnone, r, hret⟩ | ⟨root, table, hfound, hinit⟩
  · rw [hret, hnone]
    simp
  · have hphys := hphys root table hfound
    have hvalid := hvalid root table hfound
    rw [hinit, hfound]
    constructor
    · intro hcovered k hfault
      rcases except_bind_eq_error.mp hfault with hfault | ⟨r, -, hfault⟩
      · exact initRoot_ne_fault hok hvalid (hcovered root table rfl) k hfault
      · simp at hfault
    · intro hstop hfault root' table' heq
      rw [Option.some.injEq, Prod.mk.injEq] at heq
      obtain ⟨rfl, rfl⟩ := heq
      cases hcase : initRoot root mem s.vm apic table with
      | ok r => exact allCovered_of_initRoot hok hphys hvalid hcase
      | error halt =>
        rw [hcase] at hstop hfault
        cases halt with
        | stop e => exact absurd rfl (hstop e)
        | fault k => exact absurd rfl (hfault k)

/-- The RSDT at 0x3FFE0000 with one entry. -/
def oneRsdt (sum : Byte) (sdt : List Byte) : List Byte :=
  [0x52, 0x53, 0x44, 0x54, 40, 0, 0, 0, 0, sum] ++ List.replicate 26 0 ++ sdt

/-- A MADT with a local APIC, an I/O APIC, and an interrupt override. -/
def smallMadt : List Byte :=
  [0x41, 0x50, 0x49, 0x43, 74, 0, 0, 0] ++ List.replicate 28 0 ++
    [0x00, 0x00, 0xE0, 0xFE, 0, 0, 0, 0,
      0, 8, 0, 0, 1, 0, 0, 0,
      1, 12, 0, 0, 0x00, 0x00, 0xC0, 0xFE, 0, 0, 0, 0,
      2, 10, 0, 0, 2, 0, 0, 0, 0, 0]

/-- Firmware with the MADT 256 bytes behind the RSDT. -/
def nearFirmware : ℕ → Byte :=
  place 0xE0000 (rsdpV1 0xA4 [0x00, 0x00, 0xFE, 0x3F])
    (place 0x3FFE0000 (oneRsdt 0x5D [0x00, 0x01, 0xFE, 0x3F])
      (place 0x3FFE0100 smallMadt fun _ => 0))

/-- Firmware with a table 16MB below the RSDT. -/
def farFirmware : ℕ → Byte :=
  place 0xE0000 (rsdpV1 0xA4 [0x00, 0x00, 0xFE, 0x3F])
    (place 0x3FFE0000 (oneRsdt 0x5C [0x00, 0x00, 0x00, 0x3F]) fun _ => 0)

/-- The boot state of a 2MB kernel. -/
def smallBoot : BootState :=
  ⟨kernelInit ⟨0, 0, 0, [], 0⟩ 0x200000, bootTables (fun _ => 0) 0x200000⟩

/-- With the MADT behind the RSDT the CPU is found, so everything was covered. -/
theorem acpiInit_reads_mapped_near :
    ∃ vm apic, acpiInit nearFirmware smallBoot.vm noApic = .ok (true, vm, apic) ∧
      apic.cpus = [0] ∧ AllCovered .rsdt nearFirmware smallBoot.vm 0x3FFE0000 := by
  have hfound : foundRoot nearFirmware = some (.rsdt, 0x3FFE0000) := by decide +kernel
  have hsum : checksum nearFirmware 0x3FFE0000 (tableLength nearFirmware 0x3FFE0000) = 0 := by
    decide +kernel
  have hsome : (acpiInit nearFirmware smallBoot.vm noApic).toOption.map
      (fun r => (r.1, r.2.2.cpus)) = some (true, [0]) := by decide +kernel
  cases hret : acpiInit nearFirmware smallBoot.vm noApic with
  | error e => simp [hret, Except.toOption] at hsome
  | ok r =>
    obtain ⟨found, vm, apic⟩ := r
    rw [hret, Except.toOption, Option.map_some, Option.some.injEq, Prod.mk.injEq] at hsome
    obtain ⟨rfl, hcpus⟩ := hsome
    refine ⟨vm, apic, rfl, hcpus, ?_⟩
    have hreads := acpiInit_reads_mapped nearFirmware (by decide) noApic
      (Reaches.refl smallBoot) (fun root table h => ?_) (fun root table h => ?_)
    · exact hreads.2 (by simp [hret]) (by simp [hret]) _ _ hfound
    · rw [hfound, Option.some.injEq, Prod.mk.injEq] at h
      omega
    · rw [hfound, Option.some.injEq, Prod.mk.injEq] at h
      rw [← h.2]
      exact hsum

/-- A table on another page than the RSDT is read although it is not mapped. -/
theorem acpiInit_reads_unmapped :
    ¬ ∀ (mem : ℕ → Byte) (info : BootInfo) (bootMem : ℕ → ℕ) (kernelEnd : ℕ) (s : BootState)
      (apic : Apic), kernelEnd ≤ 2 ^ 30 →
      Reaches BootState.step IdentityCall
        ⟨kernelInit info kernelEnd, bootTables bootMem kernelEnd⟩ s →
      (∀ root table, foundRoot mem = some (root, table) →
        checksum mem table (tableLength mem table) = 0) →
      ∀ k, acpiInit mem s.vm apic ≠ .error (.fault k) := by
  intro hall
  have hfound : foundRoot farFirmware = some (.rsdt, 0x3FFE0000) := by decide +kernel
  have hsum : checksum farFirmware 0x3FFE0000 (tableLength farFirmware 0x3FFE0000) = 0 := by
    decide +kernel
  have hfault : (match acpiInit farFirmware smallBoot.vm noApic with
      | .error (.fault k) => some k
      | _ => none) = some 0x3F000000 := by decide +kernel
  have hnever := hall farFirmware _ _ _ smallBoot noApic (by decide) (Reaches.refl smallBoot)
    (fun root table h => by
      rw [hfound, Option.some.injEq, Prod.mk.injEq] at h
      rw [← h.2]
      exact hsum)
  cases hret : acpiInit farFirmware smallBoot.vm noApic with
  | ok r => simp [hret] at hfault
  | error halt =>
    cases halt with
    | stop e => simp [hret] at hfault
    | fault k => exact hnever k hret

end Smor.Acpi
