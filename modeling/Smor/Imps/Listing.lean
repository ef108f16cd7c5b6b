import Mathlib.Data.List.TakeWhile
import Smor.Imps.Find
import Smor.Lib.Packed
import Smor.Printf.Lines

/-!
# The listing of the MP configuration

`imps_init` prints what the configuration table of a multiprocessor system says: a line for each
processor, bus and I/O APIC and for each interrupt assignment, in the order of the table. Processor
entries take 20 bytes, and all others take 8, so entries of other types are skipped.
-/

namespace Smor.Imps

open Smor.Lib Smor.Vm Smor.Acpi Smor.Printf

/-- The characters of a string up to its NUL. -/
def cText (bytes : List ℕ) : List Char := (bytes.map Char.ofNat).takeWhile (· ≠ nul)

/-- `n` bytes from an address on. -/
def readBytes (addr : ℕ) : ℕ → Parser (List ℕ)
  | 0 => .done []
  | n + 1 =>
    (readBytes addr n).bind fun bytes => .read (addr + n) fun b => .done (bytes ++ [b.toNat])

/-- `c_strncpy`: the string in the copy, which has a NUL behind the `len` bytes. -/
def cStrncpy (src len : ℕ) : Parser (List Char) :=
  (readBytes src len).bind fun bytes => .done (cText bytes)

/-- `imps_read_processor`. -/
def impsReadProcessor (cpu : ℕ) : Parser Call :=
  (readU8 (cpu + 1)).bind fun localApicId => (readU32 (cpu + 4)).bind fun cpuSignature =>
    .done ⟨"cpu: local_apic_id %d, signature %08x\n".toList, [.int localApicId, .int cpuSignature]⟩

/-- `imps_read_bus`. -/
def impsReadBus (bus : ℕ) : Parser Call :=
  (readU8 (bus + 1)).bind fun busId => (cStrncpy (bus + 2) 6).bind fun busType =>
    .done ⟨"bus: id %d, type: %s\n".toList, [.int busId, .str busType]⟩

/-- `imps_read_io_apic`. -/
def impsReadIoApic (ioApic : ℕ) : Parser Call :=
  (readU8 (ioApic + 1)).bind fun ioApicId => (readU32 (ioApic + 4)).bind fun ioApicAddr =>
    .done ⟨"io_apic: id %d addr: %08x\n".toList, [.int ioApicId, .int ioApicAddr]⟩

/-- The common shape of `imps_read_io_interrupt` and `imps_read_local_interrupt`. -/
def impsReadInterrupt (fmt : List Char) (int : ℕ) : Parser Call :=
  (readU8 (int + 1)).bind fun intType => (readU8 (int + 4)).bind fun srcBusId =>
    (readU8 (int + 5)).bind fun srcBusIrq => (readU8 (int + 6)).bind fun dstId =>
      (readU8 (int + 7)).bind fun dstIntin =>
        .done ⟨fmt, [.int intType, .int srcBusId, .int srcBusIrq, .int dstId, .int dstIntin]⟩

/-- `imps_read_io_interrupt`. -/
def impsReadIoInterrupt : ℕ → Parser Call :=
  impsReadInterrupt "io_interrupt: type %d, src %d:%d dst: %d:%d\n".toList

/-- `imps_read_local_interrupt`. -/
def impsReadLocalInterrupt : ℕ → Parser Call :=
  impsReadInterrupt "local_interrupt: type %d, src %d:%d dst: %d:%d\n".toList

/-- The switch of `imps_read_config_table`: the calls of `printf`, and the new `addr`. -/
def readEntry (addr : ℕ) : Parser (List Call × ℕ) :=
  (readU8 addr).bind fun entryType =>
    -- IMPS_CTH_ENTRY_PROCESSOR
    if entryType = 0 then (impsReadProcessor addr).bind fun call => .done ([call], u64 (addr + 12))
    -- IMPS_CTH_ENTRY_BUS
    else if entryType = 1 then (impsReadBus addr).bind fun call => .done ([call], addr)
    -- IMPS_CTH_ENTRY_IO_APIC
    else if entryType = 2 then (impsReadIoApic addr).bind fun call => .done ([call], addr)
    -- IMPS_CTH_ENTRY_IO_INTERRUPT
    else if entryType = 3 then (impsReadIoInterrupt addr).bind fun call => .done ([call], addr)
    -- IMPS_CTH_ENTRY_LOCAL_INTERRUPT
    else if entryType = 4 then (impsReadLocalInterrupt addr).bind fun call => .done ([call], addr)
    else .done ([], addr)

/-- The loop of `imps_read_config_table`. -/
def readEntries : ℕ → ℕ → Parser (List Call)
  | 0, _ => .done []
  | entryCount + 1, addr =>
    (readEntry addr).bind fun (calls, addr) =>
      (readEntries entryCount (u64 (addr + 8))).bind fun rest => .done (calls ++ rest)

/-- `imps_read_config_table`. -/
def impsReadConfigTable (addr : ℕ) : Parser (List Call) :=
  (cStrncpy (addr + 8) 8).bind fun oemId => (cStrncpy (addr + 16) 12).bind fun productId =>
    (readU16 (addr + 34)).bind fun entryCount =>
      (readEntries entryCount (u64 (addr + 44))).bind fun calls =>
        .done (⟨"oem id: %s product id: %s\n".toList, [.str oemId, .str productId]⟩ :: calls)

/-- `imps_init`. -/
def impsInit : Parser (List Call) :=
  impsFind.bind fun fps =>
    match fps with
    | none => .done [⟨"no MP floating pointer structure found\n".toList, []⟩]
    | some fps =>
      (readU8 (fps + 9)).bind fun specRev => (readU32 (fps + 4)).bind fun configTableAddr =>
        let call : Call := ⟨"Intel MultiProcessor Spec 1.%d\n".toList, [.int specRev]⟩
        if configTableAddr ≠ 0 then
          (impsReadConfigTable (kernelVaddr configTableAddr)).bind fun calls =>
            .done (call :: calls)
        else .done [call]

/-- The entries of a configuration table, with their fields in the order of the structures. -/
inductive Entry where
  | processor (localApicId localApicVer cpuFlags cpuSignature featureFlags reserved : ℕ)
  | bus (busId : ℕ) (busType : List ℕ)
  | ioApic (ioApicId ioApicVer ioApicFlags ioApicAddr : ℕ)
  | ioInterrupt (intType intFlags srcBusId srcBusIrq dstIoApicId dstIoApicIntin : ℕ)
  | localInterrupt (intType intFlags srcBusId srcBusIrq dstLapicId dstLapicLintin : ℕ)
  | other (type : ℕ) (rest : List ℕ)

/-- The bytes of a string as fields. -/
def byteFields (bytes : List ℕ) : List (ℕ × ℕ) := bytes.map fun b => (1, b)

/-- The fields of an entry in memory: their sizes and values. -/
def Entry.record : Entry → List (ℕ × ℕ)
  | .processor id ver flags signature features reserved =>
    [(1, 0), (1, id), (1, ver), (1, flags), (4, signature), (4, features), (8, reserved)]
  | .bus id type => (1, 1) :: (1, id) :: byteFields type
  | .ioApic id ver flags addr => [(1, 2), (1, id), (1, ver), (1, flags), (4, addr)]
  | .ioInterrupt type flags srcId srcIrq dstId dstIntin =>
    [(1, 3), (1, type), (2, flags), (1, srcId), (1, srcIrq), (1, dstId), (1, dstIntin)]
  | .localInterrupt type flags srcId srcIrq dstId dstIntin =>
    [(1, 4), (1, type), (2, flags), (1, srcId), (1, srcIrq), (1, dstId), (1, dstIntin)]
  | .other type rest => (1, type) :: byteFields rest

/-- The byte strings have the sizes of their arrays. -/
def Entry.Ok : Entry → Prop
  | .bus _ type => type.length = 6
  | .other type rest => 4 < type ∧ rest.length = 7
  | _ => True

/-- The line of an interrupt assignment. -/
def interruptLine (name : List Char) (type srcId srcIrq dstId dstIntin : ℕ) : List Piece :=
  [.text (name ++ ": type ".toList), .num .d type, .text ", src ".toList, .num .d srcId,
    .text ":".toList, .num .d srcIrq, .text " dst: ".toList, .num .d dstId, .text ":".toList,
    .num .d dstIntin, .text "\n".toList]

/-- What is printed about an entry, its signature or address with the sign extension of
`%08x`. -/
def Entry.lines : Entry → List (List Piece)
  | .processor id _ _ signature _ _ =>
    [[.text "cpu: local_apic_id ".toList, .num .d id, .text ", signature ".toList,
      .num .x8 signature, .text "\n".toList]]
  | .bus id type =>
    [[.text "bus: id ".toList, .num .d id, .text ", type: ".toList, .str (cText type),
      .text "\n".toList]]
  | .ioApic id _ _ addr =>
    [[.text "io_apic: id ".toList, .num .d id, .text " addr: ".toList, .num .x8 addr,
      .text "\n".toList]]
  | .ioInterrupt type _ srcId srcIrq dstId dstIntin =>
    [interruptLine "io_interrupt".toList type srcId srcIrq dstId dstIntin]
  | .localInterrupt type _ srcId srcIrq dstId dstIntin =>
    [interruptLine "local_interrupt".toList type srcId srcIrq dstId dstIntin]
  | .other _ _ => []

/-- A configuration table. -/
structure Config where
  signature : ℕ
  baseTableLen : ℕ
  specRev : ℕ
  checksum : ℕ
  oemId : List ℕ
  productId : List ℕ
  oemTablePtr : ℕ
  oemTableSize : ℕ
  lapicAddr : ℕ
  extTableLen : ℕ
  extTableChecksum : ℕ
  reserved : ℕ
  entries : List Entry

/-- The fields of the header and of the entries. -/
def Config.record (c : Config) : List (ℕ × ℕ) :=
  [(4, c.signature), (2, c.baseTableLen), (1, c.specRev), (1, c.checksum)] ++
    (byteFields c.oemId ++ (byteFields c.productId ++
      ([(4, c.oemTablePtr), (2, c.oemTableSize), (2, c.entries.length), (4, c.lapicAddr),
        (2, c.extTableLen), (1, c.extTableChecksum), (1, c.reserved)] ++
      c.entries.flatMap Entry.record)))

/-- The byte strings have the sizes of their arrays. -/
structure Config.Ok (c : Config) : Prop where
  oemId : c.oemId.length = 8
  productId : c.productId.length = 12
  entries : ∀ e ∈ c.entries, e.Ok

/-- What is to be printed about a table. -/
def Config.lines (c : Config) : List (List Piece) :=
  [.text "oem id: ".toList, .str (cText c.oemId), .text " product id: ".toList,
    .str (cText c.productId), .text "\n".toList] :: c.entries.flatMap Entry.lines

/-- A record in memory. -/
def Lies (mem : ℕ → Byte) (addr : ℕ) (record : List (ℕ × ℕ)) : Prop :=
  fieldsAt mem addr (record.map Prod.fst) = record.map Prod.snd

/-- The number of bytes of a record. -/
def recordSize (record : List (ℕ × ℕ)) : ℕ := (record.map Prod.fst).sum

section Records

variable {mem : ℕ → Byte} {p n v : ℕ} {record record₁ record₂ : List (ℕ × ℕ)}

theorem lies_cons : Lies mem p ((n, v) :: record) ↔
    number mem (p + ·) n = v ∧ Lies mem (p + n) record := by
  simp [Lies, fieldsAt]

theorem recordSize_cons : recordSize ((n, v) :: record) = n + recordSize record := by
  simp [recordSize]

theorem recordSize_append : recordSize (record₁ ++ record₂) =
    recordSize record₁ + recordSize record₂ := by
  simp [recordSize]

theorem recordSize_byteFields (bytes : List ℕ) : recordSize (byteFields bytes) = bytes.length := by
  simp [recordSize, byteFields, Function.comp_def]

theorem lies_append : Lies mem p (record₁ ++ record₂) ↔
    Lies mem p record₁ ∧ Lies mem (p + recordSize record₁) record₂ := by
  induction record₁ generalizing p with
  | nil => simp [Lies, recordSize, fieldsAt]
  | cons field record₁ ih =>
    obtain ⟨n, v⟩ := field
    rw [List.cons_append, lies_cons, lies_cons, ih, recordSize_cons, Nat.add_assoc, and_assoc]

theorem lies_u8 : Lies mem p ((1, v) :: record) ↔ (mem p).toNat = v ∧ Lies mem (p + 1) record := by
  simp [lies_cons, Lib.number]

theorem lies_u16 : Lies mem p ((2, v) :: record) ↔
    (mem p).toNat + 2 ^ 8 * (mem (p + 1)).toNat = v ∧ Lies mem (p + 2) record := by
  simp [lies_cons, Lib.number]

theorem lies_u32 : Lies mem p ((4, v) :: record) ↔ u32At mem p = v ∧ Lies mem (p + 4) record := by
  simp [lies_cons, Lib.number, u32At]

/-- A string of bytes in memory. -/
theorem lies_byteFields {bytes : List ℕ} : Lies mem p (byteFields bytes) ↔
    (List.range bytes.length).map (fun i => (mem (p + i)).toNat) = bytes := by
  induction bytes generalizing p with
  | nil => simp [Lies, byteFields, fieldsAt]
  | cons b bytes ih =>
    have hshift : (fun i => (mem (p + i)).toNat) ∘ Nat.succ = fun i => (mem (p + 1 + i)).toNat := by
      funext i
      rw [Function.comp_apply, Nat.succ_eq_add_one, Nat.add_comm i 1, Nat.add_assoc]
    rw [byteFields, List.map_cons, lies_u8, List.length_cons,
      List.range_succ_eq_map, List.map_cons, List.map_map, hshift, List.cons.injEq, ← ih]
    rfl

end Records

section Runs

variable {view : ℕ → Option Byte} {mem : ℕ → Byte} {top p : ℕ}

theorem run_readBytes (hsees : SeesLow view mem top) {n : ℕ} (hp : p + n ≤ top) :
    (readBytes (kernelBase + p) n).run view =
      .ok ((List.range n).map fun i => (mem (p + i)).toNat) := by
  induction n with
  | zero => rfl
  | succ n ih =>
    rw [readBytes, Reading.run_bind, ih (by omega), List.range_succ, List.map_append]
    simp only [Except.bind, Reading.run, Nat.add_assoc, hsees (p + n) (by omega)]
    rfl

/-- `c_strncpy` of a string in a record. -/
theorem run_cStrncpy (hsees : SeesLow view mem top) {bytes : List ℕ} {n : ℕ}
    (hlength : bytes.length = n) (hlies : Lies mem p (byteFields bytes)) (hp : p + n ≤ top) :
    (cStrncpy (kernelBase + p) n).run view = .ok (cText bytes) := by
  subst hlength
  rw [cStrncpy, Reading.run_bind, run_readBytes hsees hp, lies_byteFields.mp hlies]
  rfl

/-- An interrupt assignment is read from its record. -/
theorem run_impsReadInterrupt (hsees : SeesLow view mem top) (fmt : List Char)
    {kind type flags srcId srcIrq dstId dstIntin : ℕ}
    (hlies : Lies mem p [(1, kind), (1, type), (2, flags), (1, srcId), (1, srcIrq), (1, dstId),
      (1, dstIntin)]) (hp : p + 8 ≤ top) :
    (impsReadInterrupt fmt (kernelBase + p)).run view =
      .ok ⟨fmt, [.int type, .int srcId, .int srcIrq, .int dstId, .int dstIntin]⟩ := by
  simp only [lies_u8, lies_u16, Nat.add_assoc, Nat.reduceAdd] at hlies
  obtain ⟨-, rfl, -, rfl, rfl, rfl, rfl, -⟩ := hlies
  simp only [impsReadInterrupt, Reading.run_bind, Nat.add_assoc]
  rw [run_readU8 hsees (by omega), run_readU8 hsees (by omega), run_readU8 hsees (by omega),
    run_readU8 hsees (by omega), run_readU8 hsees (by omega)]
  rfl

/-- An entry takes 20 or 8 bytes. -/
theorem Entry.Ok.size_eq {e : Entry} (hok : e.Ok) :
    recordSize e.record = match e with
      | .processor _ _ _ _ _ _ => 20
      | _ => 8 := by
  cases e with
  | bus id type => rw [record, recordSize_cons, recordSize_cons, recordSize_byteFields, hok]
  | other type rest => rw [record, recordSize_cons, recordSize_byteFields, hok.2]
  | _ => rfl

/-- The switch prints the lines of an entry, and `addr` is 8 bytes in front of the next one. -/
theorem run_readEntry (hsees : SeesLow view mem top) (htop : top < 2 ^ 31) {e : Entry} (hok : e.Ok)
    (hlies : Lies mem p e.record) (hp : p + recordSize e.record ≤ top) :
    ∃ addr, (readEntry (kernelBase + p)).run view = .ok (e.lines.map lineCall, addr) ∧
      u64 (addr + 8) = kernelBase + (p + recordSize e.record) := by
  have hbase : kernelBase = 2 ^ 64 - 2 ^ 31 := rfl
  rw [hok.size_eq] at hp ⊢
  rw [readEntry, Reading.run_bind]
  cases e with
  | processor id ver flags signature features reserved =>
    dsimp only at hp ⊢
    simp only [Entry.record, lies_u8, lies_u32, Nat.add_assoc, Nat.reduceAdd] at hlies
    obtain ⟨htype, rfl, -, -, rfl, -⟩ := hlies
    rw [run_readU8 hsees (by omega), htype]
    simp only [Except.bind, if_true]
    simp only [impsReadProcessor, Reading.run_bind, Nat.add_assoc]
    rw [run_readU8 hsees (by omega), run_readU32 hsees (by omega)]
    refine ⟨u64 (kernelBase + (p + 12)), rfl, ?_⟩
    unfold u64
    omega
  | bus id type =>
    dsimp only at hp ⊢
    simp only [Entry.record, lies_u8, Nat.add_assoc, Nat.reduceAdd] at hlies
    obtain ⟨htype, rfl, hbytes⟩ := hlies
    rw [run_readU8 hsees (by omega), htype]
    simp only [Except.bind, Nat.one_ne_zero, if_false, if_true]
    simp only [impsReadBus, Reading.run_bind, Nat.add_assoc]
    rw [run_readU8 hsees (by omega), run_cStrncpy hsees hok hbytes (by omega)]
    refine ⟨kernelBase + p, rfl, ?_⟩
    unfold u64
    omega
  | ioApic id ver flags addr =>
    dsimp only at hp ⊢
    simp only [Entry.record, lies_u8, lies_u32, Nat.add_assoc, Nat.reduceAdd] at hlies
    obtain ⟨htype, rfl, -, -, rfl, -⟩ := hlies
    rw [run_readU8 hsees (by omega), htype]
    simp only [Except.bind, OfNat.ofNat_ne_zero, OfNat.ofNat_ne_one, if_false, if_true]
    simp only [impsReadIoApic, Reading.run_bind, Nat.add_assoc]
    rw [run_readU8 hsees (by omega), run_readU32 hsees (by omega)]
    refine ⟨kernelBase + p, rfl, ?_⟩
    unfold u64
    omega
  | ioInterrupt type flags srcId srcIrq dstId dstIntin =>
    dsimp only at hp ⊢
    have htype := (lies_u8.mp hlies).1
    rw [run_readU8 hsees (by omega), htype]
    simp only [Except.bind, OfNat.ofNat_ne_zero, OfNat.ofNat_ne_one, Nat.reduceEqDiff, if_false,
      if_true]
    rw [Reading.run_bind, impsReadIoInterrupt, run_impsReadInterrupt hsees _ hlies hp]
    refine ⟨kernelBase + p, rfl, ?_⟩
    unfold u64
    omega
  | localInterrupt type flags srcId srcIrq dstId dstIntin =>
    dsimp only at hp ⊢
    have htype := (lies_u8.mp hlies).1
    rw [run_readU8 hsees (by omega), htype]
    simp only [Except.bind, OfNat.ofNat_ne_zero, OfNat.ofNat_ne_one, Nat.reduceEqDiff, if_false,
      if_true]
    rw [Reading.run_bind, impsReadLocalInterrupt, run_impsReadInterrupt hsees _ hlies hp]
    refine ⟨kernelBase + p, rfl, ?_⟩
    unfold u64
    omega
  | other type rest =>
    dsimp only at hp ⊢
    obtain ⟨hunknown, -⟩ := hok
    have htype := (lies_u8.mp hlies).1
    rw [run_readU8 hsees (by omega), htype]
    simp only [Except.bind]
    rw [if_neg (by omega), if_neg (by omega), if_neg (by omega), if_neg (by omega),
      if_neg (by omega)]
    refine ⟨kernelBase + p, rfl, ?_⟩
    unfold u64
    omega

/-- The loop prints the lines of all entries. -/
theorem run_readEntries (hsees : SeesLow view mem top) (htop : top < 2 ^ 31)
    {entries : List Entry} (hok : ∀ e ∈ entries, e.Ok)
    (hlies : Lies mem p (entries.flatMap Entry.record))
    (hp : p + recordSize (entries.flatMap Entry.record) ≤ top) :
    (readEntries entries.length (kernelBase + p)).run view =
      .ok ((entries.flatMap Entry.lines).map lineCall) := by
  induction entries generalizing p with
  | nil => rfl
  | cons e entries ih =>
    rw [List.flatMap_cons, lies_append] at hlies
    rw [List.flatMap_cons, recordSize_append] at hp
    obtain ⟨addr, hrun, haddr⟩ :=
      run_readEntry hsees htop (hok e List.mem_cons_self) hlies.1 (by omega)
    have hrest := ih (fun f hf => hok f (List.mem_cons_of_mem e hf)) hlies.2 (by omega)
    rw [List.length_cons, readEntries, Reading.run_bind, hrun]
    simp only [Except.bind]
    rw [Reading.run_bind, haddr, hrest, List.flatMap_cons, List.map_append]
    rfl

/-- The listing of a configuration table. -/
theorem run_impsReadConfigTable (hsees : SeesLow view mem top) (htop : top < 2 ^ 31) {c : Config}
    (hok : c.Ok) (hlies : Lies mem p c.record) (hp : p + recordSize c.record ≤ top) :
    (impsReadConfigTable (kernelBase + p)).run view = .ok (c.lines.map lineCall) := by
  have hbase : kernelBase = 2 ^ 64 - 2 ^ 31 := rfl
  have hfirst : recordSize [(4, c.signature), (2, c.baseTableLen), (1, c.specRev),
      (1, c.checksum)] = 8 := rfl
  have hsecond : recordSize [(4, c.oemTablePtr), (2, c.oemTableSize), (2, c.entries.length),
      (4, c.lapicAddr), (2, c.extTableLen), (1, c.extTableChecksum), (1, c.reserved)] = 16 := rfl
  simp only [Config.record, lies_append, recordSize_append, recordSize_byteFields, hok.oemId,
    hok.productId, hfirst, hsecond, Nat.add_assoc, Nat.reduceAdd] at hlies hp
  obtain ⟨-, hoem, hproduct, hheader, hentries⟩ := hlies
  simp only [lies_u32, lies_u16, Nat.add_assoc, Nat.reduceAdd] at hheader
  obtain ⟨-, -, hcount, -⟩ := hheader
  have haddr : u64 (kernelBase + (p + 44)) = kernelBase + (p + 44) := by
    unfold u64
    omega
  simp only [impsReadConfigTable, Reading.run_bind, Nat.add_assoc]
  rw [run_cStrncpy hsees hok.oemId hoem (by omega),
    run_cStrncpy hsees hok.productId hproduct (by omega), run_readU16 hsees (by omega)]
  simp only [Except.bind, Nat.add_assoc, Nat.reduceAdd]
  rw [hcount, haddr, run_readEntries hsees htop hok.entries hentries (by omega)]
  rfl

end Runs

section Lines

variable {mem : ℕ → Byte} {p : ℕ}

/-- A line that `printf` prints. -/
def LineOk (line : List Piece) : Prop :=
  (∀ piece ∈ line, piece.Ok) ∧ (line.map Piece.width).sum < printfBuf

theorem cText_spec (bytes : List ℕ) :
    (∀ c ∈ cText bytes, c ≠ nul) ∧ (cText bytes).length ≤ bytes.length := by
  refine ⟨fun c hc => ?_, ?_⟩
  · have hkept := List.mem_takeWhile_imp hc
    exact of_decide_eq_true hkept
  · refine (List.takeWhile_prefix _).length_le.trans ?_
    rw [List.length_map]

/-- A string of an entry is short. -/
theorem piece_cText_ok {bytes : List ℕ} (hlength : bytes.length ≤ 12) :
    (Piece.str (cText bytes)).Ok ∧ (Piece.str (cText bytes)).width ≤ 12 := by
  obtain ⟨hnul, hle⟩ := cText_spec bytes
  exact ⟨⟨hnul, by omega⟩, hle.trans hlength⟩

theorem piece_byte_ok (b : Byte) : (Piece.num .d b.toNat).Ok := by
  have hb := b.isLt
  change b.toNat < 2 ^ 31
  omega

theorem interruptLine_ok {name : List Char} (hname : ∀ c ∈ name, Plain c)
    (hlength : name.length ≤ 20) (type srcId srcIrq dstId dstIntin : Byte) :
    LineOk (interruptLine name type.toNat srcId.toNat srcIrq.toNat dstId.toNat dstIntin.toNat) := by
  refine ⟨?_, ?_⟩
  · simp only [interruptLine, List.forall_mem_cons, List.not_mem_nil, false_implies, implies_true,
      and_true]
    refine ⟨?_, piece_byte_ok _, forall_mem_of_all (by decide), piece_byte_ok _,
      forall_mem_of_all (by decide), piece_byte_ok _, forall_mem_of_all (by decide),
      piece_byte_ok _, forall_mem_of_all (by decide), piece_byte_ok _,
      forall_mem_of_all (by decide)⟩
    intro c hc
    rcases List.mem_append.mp hc with hc | hc
    · exact hname c hc
    · exact (forall_mem_of_all (p := Plain) (l := ": type ".toList) (by decide)) c hc
  · simp [interruptLine, Piece.width, printfBuf]
    omega

theorem Entry.Ok.lineOk {e : Entry} (hok : e.Ok) (hlies : Lies mem p e.record) :
    ∀ line ∈ e.lines, LineOk line := by
  cases e with
  | processor id ver flags signature features reserved =>
    simp only [Entry.record, lies_u8, lies_u32, Nat.add_assoc, Nat.reduceAdd] at hlies
    obtain ⟨-, rfl, -, -, rfl, -⟩ := hlies
    intro line hline
    rw [List.mem_singleton.mp hline]
    refine ⟨?_, ?_⟩
    · simp only [List.forall_mem_cons, List.not_mem_nil, false_implies, implies_true, and_true]
      refine ⟨forall_mem_of_all (by decide), piece_byte_ok _, forall_mem_of_all (by decide),
        u32At_lt mem (p + 4), forall_mem_of_all (by decide)⟩
    · simp [Piece.width, printfBuf]
  | bus id type =>
    simp only [Entry.record, lies_u8, Nat.add_assoc, Nat.reduceAdd] at hlies
    obtain ⟨-, rfl, -⟩ := hlies
    obtain ⟨hstr, hwidth⟩ := piece_cText_ok (show type.length ≤ 12 by rw [hok]; decide)
    intro line hline
    rw [List.mem_singleton.mp hline]
    refine ⟨?_, ?_⟩
    · simp only [List.forall_mem_cons, List.not_mem_nil, false_implies, implies_true, and_true]
      exact ⟨forall_mem_of_all (by decide), piece_byte_ok _, forall_mem_of_all (by decide), hstr,
        forall_mem_of_all (by decide)⟩
    · simp [Piece.width, printfBuf] at hwidth ⊢
      omega
  | ioApic id ver flags addr =>
    simp only [Entry.record, lies_u8, lies_u32, Nat.add_assoc, Nat.reduceAdd] at hlies
    obtain ⟨-, rfl, -, -, rfl, -⟩ := hlies
    intro line hline
    rw [List.mem_singleton.mp hline]
    refine ⟨?_, ?_⟩
    · simp only [List.forall_mem_cons, List.not_mem_nil, false_implies, implies_true, and_true]
      exact ⟨forall_mem_of_all (by decide), piece_byte_ok _, forall_mem_of_all (by decide),
        u32At_lt mem (p + 4), forall_mem_of_all (by decide)⟩
    · simp [Piece.width, printfBuf]
  | ioInterrupt type flags srcId srcIrq dstId dstIntin =>
    simp only [Entry.record, lies_u8, lies_u16, Nat.add_assoc, Nat.reduceAdd] at hlies
    obtain ⟨-, rfl, -, rfl, rfl, rfl, rfl, -⟩ := hlies
    intro line hline
    rw [List.mem_singleton.mp hline]
    exact interruptLine_ok (forall_mem_of_all (by decide)) (by decide) _ _ _ _ _
  | localInterrupt type flags srcId srcIrq dstId dstIntin =>
    simp only [Entry.record, lies_u8, lies_u16, Nat.add_assoc, Nat.reduceAdd] at hlies
    obtain ⟨-, rfl, -, rfl, rfl, rfl, rfl, -⟩ := hlies
    intro line hline
    rw [List.mem_singleton.mp hline]
    exact interruptLine_ok (forall_mem_of_all (by decide)) (by decide) _ _ _ _ _
  | other type rest => exact fun line hline => absurd hline List.not_mem_nil

theorem entries_lineOk {entries : List Entry} (hok : ∀ e ∈ entries, e.Ok)
    (hlies : Lies mem p (entries.flatMap Entry.record)) :
    ∀ line ∈ entries.flatMap Entry.lines, LineOk line := by
  induction entries generalizing p with
  | nil => exact fun line hline => absurd hline List.not_mem_nil
  | cons e entries ih =>
    rw [List.flatMap_cons, lies_append] at hlies
    intro line hline
    rw [List.flatMap_cons, List.mem_append] at hline
    rcases hline with hline | hline
    · exact (hok e List.mem_cons_self).lineOk hlies.1 line hline
    · exact ih (fun f hf => hok f (List.mem_cons_of_mem e hf)) hlies.2 line hline

theorem Config.Ok.lineOk {c : Config} (hok : c.Ok) (hlies : Lies mem p c.record) :
    ∀ line ∈ c.lines, LineOk line := by
  simp only [Config.record, lies_append] at hlies
  obtain ⟨-, -, -, -, hentries⟩ := hlies
  obtain ⟨hoem, hoemWidth⟩ := piece_cText_ok (show c.oemId.length ≤ 12 by rw [hok.oemId]; decide)
  obtain ⟨hproduct, hproductWidth⟩ := piece_cText_ok hok.productId.le
  intro line hline
  rcases List.mem_cons.mp hline with rfl | hline
  · refine ⟨?_, ?_⟩
    · simp only [List.forall_mem_cons, List.not_mem_nil, false_implies, implies_true, and_true]
      exact ⟨forall_mem_of_all (by decide), hoem, forall_mem_of_all (by decide), hproduct,
        forall_mem_of_all (by decide)⟩
    · simp [Piece.width, printfBuf] at hoemWidth hproductWidth ⊢
      omega
  · exact entries_lineOk hok.entries hentries line hline

end Lines

/-- The first line about a floating pointer structure. -/
def revLine (specRev : ℕ) : List Piece :=
  [.text "Intel MultiProcessor Spec 1.".toList, .num .d specRev, .text "\n".toList]

/-- The line where there is no floating pointer structure. -/
def noFpsLine : List Piece := [.text "no MP floating pointer structure found\n".toList]

/-- The text of lines. -/
def linesText (lines : List (List Piece)) : List Char :=
  lines.flatMap fun line => line.flatMap Piece.out

theorem noFpsLine_ok : LineOk noFpsLine := by
  refine ⟨?_, by decide⟩
  simp only [noFpsLine, List.mem_singleton, forall_eq]
  exact forall_mem_of_all (by decide)

theorem revLine_ok (specRev : Byte) : LineOk (revLine specRev.toNat) := by
  refine ⟨?_, by simp [revLine, Piece.width, printfBuf]⟩
  simp only [revLine, List.forall_mem_cons, List.not_mem_nil, false_implies, implies_true, and_true]
  exact ⟨forall_mem_of_all (by decide), piece_byte_ok _, forall_mem_of_all (by decide)⟩

theorem printAll_lineOk {lines : List (List Piece)} (hok : ∀ line ∈ lines, LineOk line) :
    printAll (lines.map lineCall) = some (linesText lines) :=
  printAll_lines (fun line hline => (hok line hline).1) fun line hline => (hok line hline).2

theorem fpsAddr_le {mem : ℕ → Byte} {fps : ℕ} (hfps : fps ∈ fpsAddrs mem) :
    fps + 16 ≤ 0x100400 := by
  have h₀ := (mem 0x40E).isLt
  have h₁ := (mem 0x40F).isLt
  simp only [fpsAddrs, area, List.mem_append, List.mem_map, List.mem_range, ebdaSegment] at hfps
  obtain (⟨i, hi, rfl⟩ | ⟨i, hi, rfl⟩) | ⟨i, hi, rfl⟩ := hfps <;> omega

/-- The kernel sees its own memory through the boot tables. -/
theorem seesLow_of_translate {vm : BootVm} (mem : ℕ → Byte) {top : ℕ} (htop : top < 2 ^ 31)
    (hmapped : ∀ p < top, translate vm (kernelVaddr p) = some p) :
    SeesLow (view mem vm) mem top := by
  have hbase : kernelBase = 2 ^ 64 - 2 ^ 31 := rfl
  intro p hp
  have hcanonical : Canonical (kernelBase + p) := Or.inr ⟨by omega, by omega⟩
  have htranslate := hmapped p hp
  rw [kernelVaddr_eq (by omega)] at htranslate
  rw [view, if_pos hcanonical, htranslate]
  rfl

/-- **The MP listing.** Where the kernel sees the first megabyte and a bit more, `imps_init` says so
if there is no valid floating pointer structure. Otherwise it prints the revision of the first one
in the order of the search and, if this names a configuration table that the kernel sees, the
identifications of the table and a line for each of its entries that has a known type. -/
theorem impsInit_prints (mem : ℕ → Byte) {vm : BootVm} {top : ℕ} (hlow : 0x100400 ≤ top)
    (htop : top < 2 ^ 31) (hmapped : ∀ p < top, translate vm (kernelVaddr p) = some p) :
    ((∀ fps ∈ fpsAddrs mem, ¬ValidFps mem fps) →
      (impsInit.run (view mem vm)).map printAll = .ok (some (linesText [noFpsLine]))) ∧
    ∀ front fps back, fpsAddrs mem = front ++ fps :: back → (∀ f ∈ front, ¬ValidFps mem f) →
      ValidFps mem fps →
      (u32At mem (fps + 4) = 0 → (impsInit.run (view mem vm)).map printAll =
        .ok (some (linesText [revLine (mem (fps + 9)).toNat]))) ∧
      ∀ c : Config, c.Ok → Lies mem (u32At mem (fps + 4)) c.record →
        0 < u32At mem (fps + 4) → u32At mem (fps + 4) + recordSize c.record ≤ top →
        (impsInit.run (view mem vm)).map printAll =
          .ok (some (linesText (revLine (mem (fps + 9)).toNat :: c.lines))) := by
  have hsees := seesLow_of_translate mem htop hmapped
  have hfind := run_impsFind hsees hlow htop
  constructor
  · intro hnone
    have hsearch : (fpsAddrs mem).find? (fun fps => ValidFps mem fps) = none := by
      rw [List.find?_eq_none]
      exact fun fps hfps => by simpa using hnone fps hfps
    rw [impsInit, Reading.run_bind, hfind, hsearch]
    change Except.ok (printAll (List.map lineCall [noFpsLine])) = _
    rw [printAll_lineOk fun line hline => List.mem_singleton.mp hline ▸ noFpsLine_ok]
  · intro front fps back hfront hfirst hvalid
    have hsearch : (fpsAddrs mem).find? (fun fps => ValidFps mem fps) = some fps := by
      rw [hfront, List.find?_append, List.find?_eq_none.mpr fun f hf => by simpa using hfirst f hf,
        Option.none_or, List.find?_cons_of_pos (by simpa using hvalid)]
    have hlt : fps + 16 ≤ 0x100400 := by
      apply fpsAddr_le
      rw [hfront]
      exact List.mem_append_right front List.mem_cons_self
    have hinit : impsInit.run (view mem vm) =
        if u32At mem (fps + 4) ≠ 0 then
          ((impsReadConfigTable (kernelVaddr (u32At mem (fps + 4)))).run (view mem vm)).bind
            fun calls => .ok (lineCall (revLine (mem (fps + 9)).toNat) :: calls)
        else .ok [lineCall (revLine (mem (fps + 9)).toNat)] := by
      rw [impsInit, Reading.run_bind, hfind, hsearch]
      simp only [Option.map_some, Except.bind, Reading.run_bind, Nat.add_assoc]
      rw [run_readU8 hsees (by omega), run_readU32 hsees (by omega)]
      dsimp only
      split_ifs
      · rw [Reading.run_bind]
        rfl
      · rfl
    have hrev := revLine_ok (mem (fps + 9))
    refine ⟨fun hzero => ?_, fun c hok hlies hpos hfits => ?_⟩
    · have hlines : ∀ line ∈ [revLine (mem (fps + 9)).toNat], LineOk line := by simpa using hrev
      have hprint := printAll_lineOk hlines
      rw [hinit, if_neg (by simpa using hzero), ← hprint]
      rfl
    · have haddr : u32At mem (fps + 4) < 2 ^ 31 := by omega
      have hlines : ∀ line ∈ revLine (mem (fps + 9)).toNat :: c.lines, LineOk line :=
        List.forall_mem_cons.mpr ⟨hrev, hok.lineOk hlies⟩
      rw [hinit, if_pos (by omega), kernelVaddr_eq haddr,
        run_impsReadConfigTable hsees htop hok hlies hfits, ← printAll_lineOk hlines]
      rfl

/-- A table with a processor, an entry of an unknown type, and an I/O APIC. -/
def smallConfig : Config where
  signature := 0x504D4350
  baseTableLen := 80
  specRev := 4
  checksum := 0
  oemId := [75, 73, 70, 0, 0, 0, 0, 0]
  productId := [49, 0, 0, 0, 0, 0, 0, 0, 0, 0, 0, 0]
  oemTablePtr := 0
  oemTableSize := 0
  lapicAddr := 0xFEE00000
  extTableLen := 0
  extTableChecksum := 0
  reserved := 0
  entries := [.processor 3 0x14 1 0x633 0 0, .other 7 [0, 0, 0, 0, 0, 0, 0],
    .ioApic 2 0x11 1 0xFEC00000]

/-- A structure at the start of the extended BIOS data area, and the table. -/
def smallMem : ℕ → Byte :=
  putFields (putFields (putFields (fun _ => 0) 0x40E [(2, 0x9FC0)]) 0x9FC00
    [(4, impsFpsSignature), (4, 0x9000), (1, 1), (1, 4), (1, 16)]) 0x9000 smallConfig.record

/-- The address of the I/O APIC is widened like an `int`. -/
theorem impsInit_prints_small :
    (impsInit.run (view smallMem (bootTables (fun _ => 0) 0x400000))).map printAll =
      .ok (some ("Intel MultiProcessor Spec 1.4\noem id: KIF product id: 1\n".toList ++
        "cpu: local_apic_id 3, signature 00000633\n".toList ++
        "io_apic: id 2 addr: fffffffffec00000\n".toList)) := by
  have hmapped : ∀ p < 0x400000, translate (bootTables (fun _ => 0) 0x400000) (kernelVaddr p) =
      some p := fun p hp => translate_bootTables (by decide) (by
        rw [page2mRound_eq (by decide)]
        exact hp)
  have hsegment : ebdaSegment smallMem = 0x9FC0 := by decide +kernel
  have haddrs : fpsAddrs smallMem =
      [] ++ 0x9FC00 :: (area 0x9FC10 63 ++ area (639 * 1024) 64 ++ area 0xF0000 4096) := by
    rw [fpsAddrs, hsegment, area_succ (0x9FC0 * 16) 63]
    rfl
  have hprints := (impsInit_prints smallMem (by decide) (by decide) hmapped).2 _ _ _ haddrs
    (fun f hf => absurd hf List.not_mem_nil) (by decide +kernel)
  have haddr : u32At smallMem (0x9FC00 + 4) = 0x9000 := by decide +kernel
  have hlies : Lies smallMem (u32At smallMem (0x9FC00 + 4)) smallConfig.record := by
    unfold Lies
    decide +kernel
  have hok : smallConfig.Ok := by
    refine ⟨rfl, rfl, ?_⟩
    simp [smallConfig, Entry.Ok]
  have htext := hprints.2 smallConfig hok hlies (by rw [haddr]; decide)
    (by rw [haddr]; decide +kernel)
  rw [htext]
  decide +kernel

end Smor.Imps
