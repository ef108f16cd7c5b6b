import Smor.Acpi.Access
import Smor.Lib.Chain

/-!
# The walk over a MADT

The entries of a MADT are records of different lengths. The first part compares what
`acpi_parse_madt` registers with what a well formed table lists: the parser takes every local
APIC for a processor, whether it is enabled or not. The second part says for which contents,
well formed or not, the walk ends and stays inside the table: the length byte of an entry
is used as it is, and the end of the table is compared with the start of an entry only.
-/

namespace Smor.Acpi

open Smor.Lib

section Entries

variable (mem : ℕ → Byte)

/-- The type of the entry at an address. -/
def entryType (e : ℕ) : ℕ := (mem e).toNat

/-- The length of the entry at an address. -/
def entryLength (e : ℕ) : ℕ := (mem (e + 1)).toNat

/-- The address behind an entry. -/
def nextEntry (e : ℕ) : ℕ := e + entryLength mem e

/-- The size of the structure that describes an entry of a type. Of the types that the parser
does not know there is only the header. -/
def recordSize (type : ℕ) : ℕ :=
  if type = 0x00 then 8 else if type = 0x01 then 12 else if type = 0x02 then 10 else 2

/-- The entries of a MADT: records that fill the table behind its header. -/
def WellFormed (madt : ℕ) (es : List ℕ) : Prop :=
  Segment (nextEntry mem) (madt + 44) es (madt + tableLength mem madt) ∧
    ∀ e ∈ es, recordSize (entryType mem e) ≤ entryLength mem e

/-- The enabled flag of a local APIC: bit 0 of its flags. -/
def Enabled (e : ℕ) : Prop := u32At mem (e + 4) % 2 = 1

instance decidableEnabled (e : ℕ) : Decidable (Enabled mem e) :=
  inferInstanceAs (Decidable (_ = _))

/-- The entries of a type. -/
def entriesOf (type : ℕ) (es : List ℕ) : List ℕ := es.filter fun e => entryType mem e = type

/-- The `apic_id` of a local APIC. -/
def apicId (e : ℕ) : ℕ := (mem (e + 3)).toNat

/-- An interrupt override. -/
def iovrAt (e : ℕ) : Iovr where
  bus := (mem (e + 2)).toNat
  irq := (mem (e + 3)).toNat
  gsi := u32At mem (e + 4)

/-- The address and the first interrupt of an I/O APIC. -/
def ioApicAt (e : ℕ) : ℕ × ℕ := (u32At mem (e + 4), u32At mem (e + 8))

/-- What a MADT with the given entries should add to the registered controllers. -/
structure Registers (madt : ℕ) (es : List ℕ) (apic apic' : Apic) : Prop where
  localApic : apic'.localApicAddr = u32At mem (madt + 36)
  cpus : apic'.cpus =
    apic.cpus ++ ((entriesOf mem 0x00 es).filter fun e => Enabled mem e).map (apicId mem)
  overrides : apic'.iovr = apic.iovr ++ (entriesOf mem 0x02 es).map (iovrAt mem)
  ioApic : (apic'.ioApicAddr, apic'.gsiBase) =
    (entriesOf mem 0x01 es).getLast?.elim (apic.ioApicAddr, apic.gsiBase) (ioApicAt mem)

/-- There is room for `n` more elements in an array of a capacity with `used` elements. -/
def HasRoom (used n capacity : ℕ) : Prop := n = 0 ∨ used + n ≤ capacity

/-- There is room for the processors and overrides of a list of entries. -/
def RoomFor (apic : Apic) (es : List ℕ) : Prop :=
  HasRoom apic.cpus.length (entriesOf mem 0x00 es).length maxCpus ∧
    HasRoom apic.iovr.length (entriesOf mem 0x02 es).length maxIoApicIovr

/-- What the parser records of an entry. -/
def record (apic : Apic) (e : ℕ) : Apic :=
  if entryType mem e = 0x00 then { apic with cpus := apic.cpus ++ [apicId mem e] }
  else if entryType mem e = 0x01 then
    { apic with
      ioApicAddr := (ioApicAt mem e).1
      gsiBase := (ioApicAt mem e).2 }
  else if entryType mem e = 0x02 then { apic with iovr := apic.iovr ++ [iovrAt mem e] }
  else apic

/-- There is room for the entry at an address, after some processors and overrides. -/
def EntryRoom (cpus iovrs e : ℕ) : Prop :=
  (entryType mem e = 0x00 → cpus < maxCpus) ∧ (entryType mem e = 0x02 → iovrs < maxIoApicIovr)

instance decidableEntryRoom (cpus iovrs e : ℕ) : Decidable (EntryRoom mem cpus iovrs e) :=
  inferInstanceAs (Decidable (_ ∧ _))

end Entries

section Steps

variable {mem : ℕ → Byte} {apic : Apic} {e stop : ℕ}

/-- What the body of the loop does with an entry. -/
theorem value_parseEntry :
    (parseEntry apic e).value mem =
      if EntryRoom mem apic.cpus.length apic.iovr.length e then .ok (record mem apic e)
      else .error .panic := by
  rw [parseEntry, Reading.value_bind]
  change (if (mem e).toNat = 0 then _ else _ : Parser Apic).value mem = _
  unfold EntryRoom record entryType
  by_cases h₀ : (mem e).toNat = 0
  · simp only [h₀, if_true, true_imp_iff, Reading.value_bind, value_readU8, Except.bind,
      localApicAddCpu, apicId]
    split_ifs <;> simp_all
  · by_cases h₁ : (mem e).toNat = 1
    · simp [h₁, Reading.value_bind, Except.bind, ioApicAt]
    · by_cases h₂ : (mem e).toNat = 2
      · simp only [if_neg h₀, if_neg h₁, if_pos h₂, Reading.value_bind, value_readU8,
          value_readU32, Except.bind, ioApicAddIovr, iovrAt]
        split_ifs <;> simp_all
      · simp [h₀, h₁, h₂]

/-- One round of the loop. -/
theorem value_parseEntries_succ {rounds ptr : ℕ} (hptr : ptr < stop) :
    (parseEntries stop (rounds + 1) ptr apic).value mem =
      if EntryRoom mem apic.cpus.length apic.iovr.length ptr then
        (parseEntries stop rounds (nextEntry mem ptr) (record mem apic ptr)).value mem
      else .error .panic := by
  rw [parseEntries, if_pos hptr, Reading.value_bind, value_parseEntry]
  split_ifs
  · rw [Except.bind, Reading.value_bind, value_readU8]
    rfl
  · rfl

/-- The end of the loop. -/
theorem parseEntries_stop {rounds ptr : ℕ} (hptr : ¬ ptr < stop) :
    parseEntries stop (rounds + 1) ptr apic = .done apic := by
  rw [parseEntries, if_neg hptr]

end Steps

section Registered

variable {mem : ℕ → Byte} {apic : Apic} {e ptr stop : ℕ} {es : List ℕ}

/-- The entries of a type, by the first entry. -/
theorem entriesOf_cons (type : ℕ) :
    entriesOf mem type (e :: es) =
      if entryType mem e = type then e :: entriesOf mem type es else entriesOf mem type es := by
  simp only [entriesOf, List.filter_cons, decide_eq_true_eq]

theorem recordSize_pos (type : ℕ) : 0 < recordSize type := by
  unfold recordSize
  split_ifs <;> omega

/-- A walk over entries that are long enough goes forwards. -/
theorem le_of_segment (hseg : Segment (nextEntry mem) ptr es stop)
    (hlong : ∀ e ∈ es, recordSize (entryType mem e) ≤ entryLength mem e) : ptr ≤ stop := by
  induction hseg with
  | nil a => exact le_refl a
  | @cons a b nodes rest ih =>
    have hnext := ih fun e he => hlong e (List.mem_cons_of_mem a he)
    unfold nextEntry at hnext
    omega

/-- There is room for one more element and then for the others. -/
theorem hasRoom_succ {used n capacity : ℕ} :
    HasRoom used (n + 1) capacity ↔ used < capacity ∧ HasRoom (used + 1) n capacity := by
  unfold HasRoom
  omega

/-- There is room for a list if there is room for its first entry and then for the others. -/
theorem roomFor_cons :
    RoomFor mem apic (e :: es) ↔
      EntryRoom mem apic.cpus.length apic.iovr.length e ∧ RoomFor mem (record mem apic e) es := by
  simp only [RoomFor, EntryRoom, entriesOf_cons, record]
  by_cases h₀ : entryType mem e = 0
  · simp [h₀, hasRoom_succ, and_assoc]
  · by_cases h₂ : entryType mem e = 2
    · simp [h₂, hasRoom_succ, and_left_comm]
    · by_cases h₁ : entryType mem e = 1
      · simp [h₁]
      · simp [h₀, h₁, h₂]

/-- The loop over well formed entries records all of them, if there is room. -/
theorem value_parseEntries (hseg : Segment (nextEntry mem) ptr es stop)
    (hlong : ∀ e ∈ es, recordSize (entryType mem e) ≤ entryLength mem e) {rounds : ℕ}
    (hrounds : stop - ptr < rounds) {apic' : Apic} :
    (parseEntries stop rounds ptr apic).value mem = .ok apic' ↔
      RoomFor mem apic es ∧ es.foldl (record mem) apic = apic' := by
  induction hseg generalizing rounds apic with
  | nil a =>
    obtain ⟨rounds, rfl⟩ := Nat.exists_eq_add_of_lt hrounds
    rw [parseEntries_stop (lt_irrefl a), Reading.value_done, Except.ok.injEq]
    simp [RoomFor, HasRoom, entriesOf]
  | @cons a b nodes rest ih =>
    have hrest := fun e he => hlong e (List.mem_cons_of_mem a he)
    have hle := le_of_segment rest hrest
    have hfirst := hlong a List.mem_cons_self
    have hpos := recordSize_pos (entryType mem a)
    cases rounds with
    | zero => omega
    | succ rounds =>
      have hround : b - nextEntry mem a < rounds := by
        unfold nextEntry at hle ⊢
        omega
      have hstop : a < b := by
        unfold nextEntry at hle
        omega
      rw [value_parseEntries_succ hstop, roomFor_cons, List.foldl_cons]
      split_ifs with hroom
      · rw [ih hrest hround]
        simp [hroom]
      · simp [hroom]

/-- The processors after a list of entries: all local APICs. -/
theorem foldl_record_cpus :
    (es.foldl (record mem) apic).cpus =
      apic.cpus ++ (entriesOf mem 0x00 es).map (apicId mem) := by
  induction es generalizing apic with
  | nil => simp [entriesOf]
  | cons e es ih =>
    rw [List.foldl_cons, ih, entriesOf_cons]
    unfold record
    split_ifs <;> simp

/-- The overrides after a list of entries. -/
theorem foldl_record_iovr :
    (es.foldl (record mem) apic).iovr =
      apic.iovr ++ (entriesOf mem 0x02 es).map (iovrAt mem) := by
  induction es generalizing apic with
  | nil => simp [entriesOf]
  | cons e es ih =>
    rw [List.foldl_cons, ih, entriesOf_cons]
    unfold record
    split_ifs <;> simp_all

/-- The I/O APIC after a list of entries: the last one. -/
theorem foldl_record_ioApic :
    ((es.foldl (record mem) apic).ioApicAddr, (es.foldl (record mem) apic).gsiBase) =
      (entriesOf mem 0x01 es).getLast?.elim (apic.ioApicAddr, apic.gsiBase) (ioApicAt mem) := by
  induction es generalizing apic with
  | nil => rfl
  | cons e es ih =>
    rw [List.foldl_cons, ih, entriesOf_cons]
    unfold record
    split_ifs with h₀ h₁ h₂
    · simp_all
    · rfl
    · rw [List.getLast?_cons]
      cases (entriesOf mem 0x01 es).getLast? <;> rfl
    · rfl
    · rfl

/-- The address of the local APIC is not in the entries. -/
theorem foldl_record_localApicAddr :
    (es.foldl (record mem) apic).localApicAddr = apic.localApicAddr := by
  induction es generalizing apic with
  | nil => rfl
  | cons e es ih =>
    rw [List.foldl_cons, ih]
    unfold record
    split_ifs <;> rfl

/-- The result of `acpi_parse_madt` is that of its loop. -/
theorem value_acpiParseMadt_eq {madt : ℕ} :
    (acpiParseMadt apic madt).value mem =
      (parseEntries (madt + tableLength mem madt) (tableLength mem madt + 1) (madt + 44)
        { apic with localApicAddr := u32At mem (madt + 36) }).value mem := by
  rw [acpiParseMadt, Reading.value_bind, value_readU32, Except.bind, Reading.value_bind,
    value_readU32]
  rfl

/-- What `acpi_parse_madt` makes of a well formed table. -/
theorem value_acpiParseMadt {madt : ℕ} (hwf : WellFormed mem madt es) {apic' : Apic} :
    (acpiParseMadt apic madt).value mem = .ok apic' ↔
      RoomFor mem apic es ∧
        es.foldl (record mem) { apic with localApicAddr := u32At mem (madt + 36) } = apic' := by
  rw [value_acpiParseMadt_eq, value_parseEntries hwf.1 hwf.2 (by omega)]
  rfl

end Registered

/-- `acpi_parse_madt` registers what a well formed table lists, with the enabled processors
only, if and only if all local APICs of the table are enabled and the arrays have room. -/
theorem acpiParseMadt_registers_iff (mem : ℕ → Byte) (madt : ℕ) (es : List ℕ) (apic : Apic)
    (hwf : WellFormed mem madt es) :
    (∃ apic', (acpiParseMadt apic madt).value mem = .ok apic' ∧
        Registers mem madt es apic apic') ↔
      (∀ e ∈ entriesOf mem 0x00 es, Enabled mem e) ∧ RoomFor mem apic es := by
  constructor
  · rintro ⟨apic', hvalue, hregisters⟩
    obtain ⟨hroom, rfl⟩ := (value_acpiParseMadt hwf).mp hvalue
    have hcpus := hregisters.cpus
    rw [foldl_record_cpus] at hcpus
    have hlength := congrArg List.length (List.append_cancel_left hcpus)
    rw [List.length_map, List.length_map, eq_comm, List.length_filter_eq_length_iff] at hlength
    exact ⟨fun e he => of_decide_eq_true (hlength e he), hroom⟩
  · rintro ⟨henabled, hroom⟩
    refine ⟨_, (value_acpiParseMadt hwf).mpr ⟨hroom, rfl⟩, ?_⟩
    have hall : ((entriesOf mem 0x00 es).filter fun e => Enabled mem e) = entriesOf mem 0x00 es :=
      List.filter_eq_self.mpr fun e he => decide_eq_true (henabled e he)
    exact
      { localApic := foldl_record_localApicAddr
        cpus := by rw [foldl_record_cpus, hall]
        overrides := foldl_record_iovr
        ioApic := foldl_record_ioApic }

/-- A table at 0x1000 with one local APIC, whose `apic_id` is 5. -/
def oneCpu (flags : Byte) (addr : ℕ) : Byte :=
  if addr < 0x1004 then BitVec.ofNat 8 (acpiApicSignature >>> (8 * (addr - 0x1000)))
  else if addr = 0x1004 then 52
  else if addr = 0x102D then 8
  else if addr = 0x102F then 5
  else if addr = 0x1030 then flags
  else 0

theorem oneCpu_wellFormed (flags : Byte) : WellFormed (oneCpu flags) 0x1000 [0x102C] := by
  refine ⟨segment_cons_iff.mpr ⟨rfl, segment_nil_iff.mpr rfl⟩, fun e he => ?_⟩
  rw [List.mem_singleton.mp he]
  exact le_refl 8

/-- A table at 0x1000 with an enabled local APIC, an I/O APIC, an override of the interrupt 0, and
an entry of a type that is not known. -/
def fourEntries (addr : ℕ) : Byte :=
  if addr < 0x1004 then BitVec.ofNat 8 (acpiApicSignature >>> (8 * (addr - 0x1000)))
  else if addr = 0x1004 then 80
  else if 0x102C ≤ addr then
    ([0, 8, 0, 5, 1, 0, 0, 0] ++ [1, 12, 2, 0, 0, 0, 0xC0, 0xFE, 0, 0, 0, 0] ++
      [2, 10, 0, 0, 2, 0, 0, 0, 0, 0] ++ [4, 6, 0xFF, 0, 0, 1]).getD (addr - 0x102C) 0
  else 0

/-- The addresses of its entries. -/
def fourAddrs : List ℕ := [0x102C, 0x1034, 0x1040, 0x104A]

theorem fourEntries_wellFormed : WellFormed fourEntries 0x1000 fourAddrs := by
  constructor
  · simp only [fourAddrs, segment_cons_iff, segment_nil_iff]
    decide +kernel
  · decide +kernel

/-- An enabled processor, an I/O APIC and an override are registered, and the last entry is passed
over. -/
theorem acpiParseMadt_enabled :
    ∃ apic', (acpiParseMadt noApic 0x1000).value fourEntries = .ok apic' ∧
      Registers fourEntries 0x1000 fourAddrs noApic apic' :=
  (acpiParseMadt_registers_iff fourEntries 0x1000 fourAddrs noApic fourEntries_wellFormed).mpr
    ⟨by decide +kernel, Or.inr (by decide +kernel), Or.inr (by decide +kernel)⟩

/-- A disabled processor is registered as well. -/
theorem acpiParseMadt_disabled :
    WellFormed (oneCpu 0) 0x1000 [0x102C] ∧
      ¬ ∃ apic', (acpiParseMadt noApic 0x1000).value (oneCpu 0) = .ok apic' ∧
        Registers (oneCpu 0) 0x1000 [0x102C] noApic apic' := by
  refine ⟨oneCpu_wellFormed 0, ?_⟩
  rintro ⟨apic', hvalue, hregisters⟩
  obtain ⟨-, rfl⟩ := (value_acpiParseMadt (oneCpu_wellFormed 0)).mp hvalue
  have hcpus := hregisters.cpus
  rw [foldl_record_cpus] at hcpus
  exact absurd hcpus (by decide +kernel)

section Bounds

variable (mem : ℕ → Byte) (stop : ℕ)

/-- The entry at `e` is read by the walk from `ptr` on, which starts with the given numbers of
processors and overrides and ends at the first one too many. -/
inductive Reached : ℕ → ℕ → ℕ → ℕ → Prop
  | here {cpus iovrs ptr : ℕ} (h : ptr < stop) : Reached cpus iovrs ptr ptr
  | next {cpus iovrs ptr e : ℕ} (h : ptr < stop) (room : EntryRoom mem cpus iovrs ptr)
    (rest : Reached (cpus + if entryType mem ptr = 0x00 then 1 else 0)
      (iovrs + if entryType mem ptr = 0x02 then 1 else 0) (nextEntry mem ptr) e) :
    Reached cpus iovrs ptr e

/-- The number of bytes of an entry of a type up to the last one that is used. -/
def usedSize (type : ℕ) : ℕ :=
  if type = 0x00 then 4 else if type = 0x01 then 12 else if type = 0x02 then 8 else 2

/-- An entry that the walk repeats for ever: its length is 0, and it is neither a processor
nor an override, of which there is a largest number. -/
def Stuck (e : ℕ) : Prop :=
  entryLength mem e = 0 ∧ entryType mem e ≠ 0x00 ∧ entryType mem e ≠ 0x02

/-- The lengths in a table fit what is read: the address of the local APIC is inside the
table, and so is what is used of each entry that the walk reaches, and it does not get stuck. -/
def LengthsFit (madt : ℕ) (apic : Apic) : Prop :=
  40 ≤ tableLength mem madt ∧
    ∀ e, Reached mem (madt + tableLength mem madt) apic.cpus.length apic.iovr.length
        (madt + 44) e →
      e + usedSize (entryType mem e) ≤ madt + tableLength mem madt ∧ ¬ Stuck mem e

end Bounds

section Walk

variable {mem : ℕ → Byte} {stop : ℕ}

/-- The number of processors after an entry. -/
theorem length_record_cpus (apic : Apic) (e : ℕ) :
    (record mem apic e).cpus.length =
      apic.cpus.length + if entryType mem e = 0x00 then 1 else 0 := by
  unfold record
  split_ifs <;> simp

/-- The number of overrides after an entry. -/
theorem length_record_iovr (apic : Apic) (e : ℕ) :
    (record mem apic e).iovr.length =
      apic.iovr.length + if entryType mem e = 0x02 then 1 else 0 := by
  unfold record
  split_ifs <;> simp_all

/-- What is read of an entry up to its length is within the used bytes, and reaches their
end. -/
theorem entry_reads {apic : Apic} {e b : ℕ} (hb : b ∈ (parseEntry apic e).reads mem) :
    e ≤ b ∧ b < e + usedSize (entryType mem e) := by
  rw [mem_reads_parseEntry] at hb
  unfold usedSize entryType
  split_ifs <;> omega

theorem two_le_usedSize (type : ℕ) : 2 ≤ usedSize type := by
  unfold usedSize
  split_ifs <;> omega

/-- The walk goes forwards. -/
theorem le_of_reached {cpus iovrs ptr e : ℕ} (he : Reached mem stop cpus iovrs ptr e) :
    ptr ≤ e := by
  induction he with
  | here h => exact le_refl _
  | next h room rest ih =>
    unfold nextEntry at ih
    omega

/-- The walk repeats an entry of length 0 that it does not count. -/
theorem parseEntries_stuck {e : ℕ} (he : e < stop) (hstuck : Stuck mem e) (rounds : ℕ)
    (apic : Apic) : (parseEntries stop rounds e apic).value mem = .error .endless := by
  obtain ⟨hlength, h₀, h₂⟩ := hstuck
  induction rounds generalizing apic with
  | zero => rfl
  | succ rounds ih =>
    have hroom : EntryRoom mem apic.cpus.length apic.iovr.length e :=
      ⟨fun h => absurd h h₀, fun h => absurd h h₂⟩
    have hnext : nextEntry mem e = e := by
      unfold nextEntry
      omega
    rw [value_parseEntries_succ he, if_pos hroom, hnext]
    exact ih (record mem apic e)

/-- A walk that ends reads the used bytes of each entry that it reaches, and is never stuck. -/
theorem reached_of_ends {rounds cpus iovrs ptr e : ℕ} {apic : Apic}
    (hends : (parseEntries stop rounds ptr apic).value mem ≠ .error .endless)
    (hcpus : apic.cpus.length = cpus) (hiovrs : apic.iovr.length = iovrs)
    (he : Reached mem stop cpus iovrs ptr e) :
    e + usedSize (entryType mem e) - 1 ∈ (parseEntries stop rounds ptr apic).reads mem ∧
      ¬ Stuck mem e := by
  induction rounds generalizing cpus iovrs ptr apic with
  | zero => exact absurd rfl hends
  | succ rounds ih =>
    cases he with
    | here hstop =>
      refine ⟨?_, fun hstuck => hends (parseEntries_stuck hstop hstuck _ apic)⟩
      rw [parseEntries, if_pos hstop, Reading.mem_reads_bind, mem_reads_parseEntry]
      unfold usedSize entryType
      split_ifs with h₀ h₁ h₂
      · exact Or.inl (Or.inr (Or.inl ⟨h₀, rfl⟩))
      · exact Or.inl (Or.inr (Or.inr (Or.inl ⟨h₁, by omega, by omega⟩)))
      · exact Or.inl (Or.inr (Or.inr (Or.inr ⟨h₂, by omega, by omega⟩)))
      · -- Of an unknown entry only the header is read, with the length after the type.
        have hroom : EntryRoom mem apic.cpus.length apic.iovr.length e :=
          ⟨fun h => absurd h h₀, fun h => absurd h h₂⟩
        refine Or.inr ⟨record mem apic e, by rw [value_parseEntry, if_pos hroom], ?_⟩
        rw [Reading.mem_reads_bind, mem_reads_readU8]
        exact Or.inl rfl
    | next hstop hroom rest =>
      subst hcpus
      subst hiovrs
      rw [value_parseEntries_succ hstop, if_pos hroom] at hends
      obtain ⟨hread, hfree⟩ := ih hends (length_record_cpus apic ptr) (length_record_iovr apic ptr)
        rest
      refine ⟨?_, hfree⟩
      rw [parseEntries, if_pos hstop, Reading.mem_reads_bind]
      refine Or.inr ⟨record mem apic ptr, ?_, ?_⟩
      · rw [value_parseEntry, if_pos hroom]
      · rw [Reading.mem_reads_bind]
        exact Or.inr ⟨entryLength mem ptr, rfl, hread⟩

/-- Whatever the walk reads is used of an entry that it reaches. -/
theorem reached_of_reads {rounds ptr b : ℕ} {apic : Apic}
    (hb : b ∈ (parseEntries stop rounds ptr apic).reads mem) :
    ∃ e, Reached mem stop apic.cpus.length apic.iovr.length ptr e ∧ e ≤ b ∧
      b < e + usedSize (entryType mem e) := by
  induction rounds generalizing ptr apic with
  | zero => simp [parseEntries] at hb
  | succ rounds ih =>
    by_cases hstop : ptr < stop
    · rw [parseEntries, if_pos hstop, Reading.mem_reads_bind] at hb
      rcases hb with hb | ⟨apic', hentry, hb⟩
      · exact ⟨ptr, .here hstop, entry_reads hb⟩
      · rw [value_parseEntry] at hentry
        split_ifs at hentry with hroom
        cases hentry
        rw [Reading.mem_reads_bind, mem_reads_readU8] at hb
        rcases hb with rfl | ⟨length, hlength, hb⟩
        · have htwo := two_le_usedSize (entryType mem ptr)
          exact ⟨ptr, .here hstop, by omega, by omega⟩
        · rw [value_readU8] at hlength
          cases hlength
          obtain ⟨e, he, hbytes⟩ := ih hb
          rw [length_record_cpus, length_record_iovr] at he
          exact ⟨e, .next hstop hroom he, hbytes⟩
    · rw [parseEntries_stop hstop] at hb
      simp at hb

/-- Each round goes forwards or counts a processor or an override, so that the walk ends. -/
theorem parseEntries_ends {rounds ptr : ℕ} {apic : Apic}
    (hfree : ∀ e, Reached mem stop apic.cpus.length apic.iovr.length ptr e → ¬ Stuck mem e)
    (hrounds : (stop - ptr) + (maxCpus - apic.cpus.length) +
      (maxIoApicIovr - apic.iovr.length) < rounds) :
    (parseEntries stop rounds ptr apic).value mem ≠ .error .endless := by
  induction rounds generalizing ptr apic with
  | zero => omega
  | succ rounds ih =>
    by_cases hstop : ptr < stop
    · rw [value_parseEntries_succ hstop]
      split_ifs with hroom
      · apply ih
        · intro e he
          rw [length_record_cpus, length_record_iovr] at he
          exact hfree e (.next hstop hroom he)
        · have hmoves := hfree ptr (.here hstop)
          rw [length_record_cpus, length_record_iovr]
          obtain ⟨hcpu, hiovr⟩ := hroom
          unfold Stuck at hmoves
          unfold nextEntry
          split_ifs <;> omega
      · simp
    · rw [parseEntries_stop hstop]
      simp

end Walk

/-- `acpi_parse_madt` comes to an end, at a failed `check` if not before, and reads nothing
outside the table, if and only if the lengths in the table fit what is read. -/
theorem acpiParseMadt_inside_iff (mem : ℕ → Byte) (madt : ℕ) (apic : Apic) :
    ((acpiParseMadt apic madt).value mem ≠ .error .endless ∧
        ∀ b ∈ (acpiParseMadt apic madt).reads mem,
          madt ≤ b ∧ b < madt + tableLength mem madt) ↔
      LengthsFit mem madt apic := by
  rw [value_acpiParseMadt_eq]
  constructor
  · rintro ⟨hends, hinside⟩
    have hheader := hinside (madt + 39) (mem_reads_acpiParseMadt.mpr (by omega))
    refine ⟨by omega, fun e he => ?_⟩
    obtain ⟨hread, hfree⟩ := reached_of_ends hends rfl rfl he
    have hlast := hinside _ (mem_reads_acpiParseMadt.mpr (Or.inr (Or.inr hread)))
    exact ⟨by omega, hfree⟩
  · rintro ⟨hheader, hentries⟩
    constructor
    · by_cases hempty : tableLength mem madt ≤ 44
      · rw [parseEntries_stop (by omega)]
        simp
      · refine parseEntries_ends (fun e he => (hentries e he).2) ?_
        simp only [maxCpus, maxIoApicIovr]
        omega
    · intro b hb
      rw [mem_reads_acpiParseMadt] at hb
      rcases hb with hb | hb | hb
      · omega
      · omega
      · obtain ⟨e, he, hmin, hmax⟩ := reached_of_reads hb
        have hend := (hentries e he).1
        have hstart := le_of_reached he
        omega

/-- A table at 0x1000 with an entry of an unknown type and of length 0. -/
def zeroLength (addr : ℕ) : Byte :=
  if addr < 0x1004 then BitVec.ofNat 8 (acpiApicSignature >>> (8 * (addr - 0x1000)))
  else if addr = 0x1004 then 46
  else if addr = 0x102C then 0x7F
  else 0

/-- The walk over that table does not end. -/
theorem acpiParseMadt_zeroLength :
    u32At zeroLength 0x1000 = acpiApicSignature ∧
      ¬ ((acpiParseMadt noApic 0x1000).value zeroLength ≠ .error .endless ∧
        ∀ b ∈ (acpiParseMadt noApic 0x1000).reads zeroLength,
          0x1000 ≤ b ∧ b < 0x1000 + tableLength zeroLength 0x1000) := by
  refine ⟨by decide +kernel, ?_⟩
  rintro ⟨hends, -⟩
  rw [value_acpiParseMadt_eq] at hends
  have hstuck : Stuck zeroLength (0x1000 + 44) := ⟨rfl, by decide +kernel, by decide +kernel⟩
  exact hends (parseEntries_stuck (by decide +kernel) hstuck _ _)

end Smor.Acpi
