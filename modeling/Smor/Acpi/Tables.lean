import Smor.Lib.Reading
import Smor.Vm.BootRanges

/-!
# The ACPI tables

`acpi_init` looks for the root pointer in the BIOS area, maps the root table that it names at
its physical address, follows the addresses in the root table to the other tables, and reads
the interrupt controllers from the MADT. Finally it removes its mapping of the root table.

Firmware memory is a function from physical addresses to bytes. The root pointer is read through
`KERNEL_BASE`, which is physical memory here; all other reads go through the boot tables as
they are at that time. A failed `check` stops the computation.
-/

namespace Smor.Acpi

open Smor.Lib Smor.Vm

/-- A byte of memory. -/
abbrev Byte := BitVec 8

/-- Why the parser does not return by itself. -/
inductive Stop
  /-- A failed `check`. -/
  | panic
  /-- A MADT entry of length 0. -/
  | endless
  deriving DecidableEq

/-- A computation that reads bytes of memory. -/
abbrev Parser := Reading ℕ Stop Byte

/-- `*(uint8_t*)addr`. -/
def readU8 (addr : ℕ) : Parser ℕ := .read addr fun b => .done b.toNat

/-- `*(uint32_t*)addr`. -/
def readU32 (addr : ℕ) : Parser ℕ :=
  .read addr fun b₀ => .read (addr + 1) fun b₁ => .read (addr + 2) fun b₂ =>
    .read (addr + 3) fun b₃ =>
      .done (b₀.toNat + 2 ^ 8 * b₁.toNat + 2 ^ 16 * b₂.toNat + 2 ^ 24 * b₃.toNat)

/-- `*(uint64_t*)addr`. -/
def readU64 (addr : ℕ) : Parser ℕ :=
  (readU32 addr).bind fun low => (readU32 (addr + 4)).bind fun high => .done (low + 2 ^ 32 * high)

/-- The 32-bit number at an address. -/
def u32At (mem : ℕ → Byte) (addr : ℕ) : ℕ :=
  (mem addr).toNat + 2 ^ 8 * (mem (addr + 1)).toNat + 2 ^ 16 * (mem (addr + 2)).toNat +
    2 ^ 24 * (mem (addr + 3)).toNat

/-- The 64-bit number at an address. -/
def u64At (mem : ℕ → Byte) (addr : ℕ) : ℕ := u32At mem addr + 2 ^ 32 * u32At mem (addr + 4)

/-- The sum of the bytes from an address on. -/
def checksum (mem : ℕ → Byte) (addr : ℕ) : ℕ → Byte
  | 0 => 0
  | n + 1 => checksum mem addr n + mem (addr + n)

/-- `ACPI_RSDP_SIGNATURE`. -/
def acpiRsdpSignature : ℕ := 0x2052545020445352

/-- `ACPI_APIC_SIGNATURE`. -/
def acpiApicSignature : ℕ := 0x43495041

/-- `MAX_CPUS`. -/
def maxCpus : ℕ := 16

/-- `MAX_IO_APIC_IOVR`. -/
def maxIoApicIovr : ℕ := 16

/-- `struct io_apic_iovr_t`. -/
structure Iovr where
  bus : ℕ
  irq : ℕ
  gsi : ℕ

/-- What `local_apic.c` and `io_apic.c` record. -/
structure Apic where
  localApicAddr : ℕ
  /-- The `apic_id` of every CPU. -/
  cpus : List ℕ
  ioApicAddr : ℕ
  gsiBase : ℕ
  iovr : List Iovr

/-- `local_apic_add_cpu`. -/
def localApicAddCpu (apic : Apic) (apicId : ℕ) : Parser Apic :=
  if apic.cpus.length < maxCpus then .done { apic with cpus := apic.cpus ++ [apicId] }
  else .stop .panic

/-- `io_apic_add_iovr`. -/
def ioApicAddIovr (apic : Apic) (bus irq gsi : ℕ) : Parser Apic :=
  if apic.iovr.length < maxIoApicIovr then
    .done { apic with iovr := apic.iovr ++ [⟨bus, irq, gsi⟩] }
  else .stop .panic

/-- The body of the loop of `acpi_parse_madt` for the entry at `ptr`. -/
def parseEntry (apic : Apic) (ptr : ℕ) : Parser Apic :=
  (readU8 ptr).bind fun type =>
    -- APIC_TYPE_LOCAL_APIC
    if type = 0x00 then (readU8 (ptr + 3)).bind fun apicId => localApicAddCpu apic apicId
    -- APIC_TYPE_IO_APIC
    else if type = 0x01 then
      (readU32 (ptr + 4)).bind fun addr => (readU32 (ptr + 8)).bind fun gsiBase =>
        .done { apic with
          ioApicAddr := addr
          gsiBase := gsiBase }
    -- APIC_TYPE_INTERRUPT_OVERRIDE
    else if type = 0x02 then
      (readU8 (ptr + 2)).bind fun bus => (readU8 (ptr + 3)).bind fun irq =>
        (readU32 (ptr + 4)).bind fun gsi => ioApicAddIovr apic bus irq gsi
    else .done apic

/-- The loop of `acpi_parse_madt` up to the address `stop`. -/
def parseEntries (stop : ℕ) : ℕ → ℕ → Apic → Parser Apic
  | 0, _, _ => .stop .endless
  | rounds + 1, ptr, apic =>
    if ptr < stop then
      (parseEntry apic ptr).bind fun apic => (readU8 (ptr + 1)).bind fun length =>
        parseEntries stop rounds (ptr + length) apic
    else .done apic

/-- `acpi_parse_madt`. Every entry takes at least one byte of the table, or the loop does not
end. -/
def acpiParseMadt (apic : Apic) (madt : ℕ) : Parser Apic :=
  (readU32 (madt + 36)).bind fun addr => (readU32 (madt + 4)).bind fun length =>
    parseEntries (madt + length) (length + 1) (madt + 44) { apic with localApicAddr := addr }

/-- `acpi_parse_sdt`. -/
def acpiParseSdt (apic : Apic) (sdt : ℕ) : Parser Apic :=
  (readU32 sdt).bind fun signature =>
    if signature = acpiApicSignature then acpiParseMadt apic sdt else .done apic

/-- The two kinds of root tables. -/
inductive Root
  | rsdt | xsdt
  deriving DecidableEq

/-- The size of an entry of a root table. -/
def Root.width : Root → ℕ
  | .rsdt => 4
  | .xsdt => 8

/-- The shift that divides by the size of an entry. -/
def Root.shift : Root → ℕ
  | .rsdt => 2
  | .xsdt => 3

/-- An entry of a root table. -/
def Root.readEntry : Root → ℕ → Parser ℕ
  | .rsdt => readU32
  | .xsdt => readU64

/-- The number of entries of a root table of the given length, in the arithmetic of
`(hdr.length - sizeof(hdr)) >> shift` and its conversion to `unsigned int`. -/
def Root.numSdt (root : Root) (length : ℕ) : ℕ :=
  u32 (u64 (length + (2 ^ 64 - 36)) >>> root.shift)

/-- The loop over the entries of a root table. -/
def parseSdts (root : Root) : ℕ → ℕ → Apic → Parser Apic
  | 0, _, apic => .done apic
  | n + 1, addr, apic =>
    (root.readEntry addr).bind fun sdt => (acpiParseSdt apic sdt).bind fun apic =>
      parseSdts root n (addr + root.width) apic

/-- The common shape of `acpi_parse_rsdt` and `acpi_parse_xsdt`. -/
def acpiParseRoot (root : Root) (apic : Apic) (table : ℕ) : Parser Apic :=
  (readU32 (table + 4)).bind fun length =>
    parseSdts root (root.numSdt length) (table + 36) apic

/-- `acpi_parse_rsdt`. -/
def acpiParseRsdt : Apic → ℕ → Parser Apic := acpiParseRoot .rsdt

/-- `acpi_parse_xsdt`. -/
def acpiParseXsdt : Apic → ℕ → Parser Apic := acpiParseRoot .xsdt

/-- The loop of `acpi_sdt_check`. -/
def sumBytes (addr : ℕ) : ℕ → Parser Byte
  | 0 => .done 0
  | n + 1 => (sumBytes addr n).bind fun sum => .read (addr + n) fun b => .done (sum + b)

/-- `acpi_sdt_check`. -/
def acpiSdtCheck (hdr : ℕ) : Parser Bool :=
  (readU32 (hdr + 4)).bind fun length => (sumBytes hdr length).bind fun sum => .done (sum = 0)

instance (v : ℕ) : Decidable (Canonical v) := inferInstanceAs (Decidable (_ ∨ _))

/-- Memory as the boot tables show it. An access to an address that is not canonical faults. -/
def view (mem : ℕ → Byte) (vm : BootVm) (addr : ℕ) : Option Byte :=
  if Canonical addr then (Vm.translate vm addr).map mem else none

/-- `vm_boot_map_range` of an identity mapping. -/
def mapIdentity (vm : BootVm) (addr size : ℕ) : Except (Halt ℕ Stop) BootVm :=
  (vmBootMapRange vm addr addr size).elim (.error (.stop .panic)) .ok

/-- The body of `acpi_init` for a root table at a physical address: the header is mapped, then
the whole table, which is checked and parsed, and the mapping is removed. -/
def initRoot (root : Root) (mem : ℕ → Byte) (vm : BootVm) (apic : Apic) (table : ℕ) :
    Except (Halt ℕ Stop) (BootVm × Apic) :=
  (mapIdentity vm table 36).bind fun vm =>
    ((readU32 (table + 4)).run (view mem vm)).bind fun length =>
      (mapIdentity vm table length).bind fun vm =>
        (((acpiSdtCheck table).bind fun valid =>
            if valid then acpiParseRoot root apic table else .done apic).run (view mem vm)).bind
          fun apic => ((readU32 (table + 4)).run (view mem vm)).bind fun length =>
            .ok (vmBootUnmapRange vm table length, apic)

/-- The loop of `acpi_find_rsdp`, on physical addresses. -/
def findRsdp (mem : ℕ → Byte) : ℕ → ℕ → Option ℕ
  | 0, _ => none
  | n + 1, ptr =>
    if u64At mem ptr = acpiRsdpSignature then
      if checksum mem ptr 20 = 0 then some ptr else none
    else findRsdp mem n (ptr + 16)

/-- `acpi_find_rsdp`: every 16 bytes from 0xE0000 to 0xFFFFF. -/
def acpiFindRsdp (mem : ℕ → Byte) : Option ℕ := findRsdp mem 0x2000 0xE0000

/-- The root table that `acpi_init` goes on with, if there is one: the RSDT for revision 0, and
the XSDT for revision 2 if the checksum of the longer structure is right. -/
def rootTable (mem : ℕ → Byte) (rsdp : ℕ) : Option (Root × ℕ) :=
  if (mem (rsdp + 15)).toNat = 0 then some (.rsdt, u32At mem (rsdp + 16))
  else if (mem (rsdp + 15)).toNat = 2 then
    if checksum mem rsdp (u32At mem (rsdp + 20)) = 0 then some (.xsdt, u64At mem (rsdp + 24))
    else none
  else none

/-- `acpi_init`. -/
def acpiInit (mem : ℕ → Byte) (vm : BootVm) (apic : Apic) :
    Except (Halt ℕ Stop) (Bool × BootVm × Apic) :=
  match acpiFindRsdp mem with
  | none => .ok (false, vm, apic)
  | some rsdp =>
    match rootTable mem rsdp with
    | none => .ok (true, vm, apic)
    | some (root, table) => (initRoot root mem vm apic table).bind fun r => .ok (true, r)

/-- The root table of a memory. -/
def foundRoot (mem : ℕ → Byte) : Option (Root × ℕ) := (acpiFindRsdp mem).bind (rootTable mem)

/-- The length in the header of a table. -/
def tableLength (mem : ℕ → Byte) (table : ℕ) : ℕ := u32At mem (table + 4)

section Fields

variable (mem : ℕ → Byte) (addr : ℕ)

@[simp] theorem value_readU8 : (readU8 addr).value mem = .ok (mem addr).toNat := rfl

@[simp] theorem value_readU32 : (readU32 addr).value mem = .ok (u32At mem addr) := rfl

@[simp] theorem value_readU64 : (readU64 addr).value mem = .ok (u64At mem addr) := rfl

@[simp] theorem mem_reads_readU8 {b : ℕ} : b ∈ (readU8 addr).reads mem ↔ b = addr := by
  simp [readU8, Reading.reads]

/-- A 32-bit field takes four bytes. -/
@[simp] theorem mem_reads_readU32 {b : ℕ} :
    b ∈ (readU32 addr).reads mem ↔ addr ≤ b ∧ b < addr + 4 := by
  simp only [readU32, Reading.reads, List.mem_cons, List.not_mem_nil, or_false]
  omega

/-- A 64-bit field takes eight bytes. -/
@[simp] theorem mem_reads_readU64 {b : ℕ} :
    b ∈ (readU64 addr).reads mem ↔ addr ≤ b ∧ b < addr + 8 := by
  rw [readU64, Reading.mem_reads_bind, mem_reads_readU32]
  simp only [Reading.mem_reads_bind, mem_reads_readU32, value_readU32, Reading.reads_done,
    Except.ok.injEq, exists_eq_left', List.not_mem_nil, and_false, exists_false, or_false]
  omega

theorem u32At_lt : u32At mem addr < 2 ^ 32 := by
  have h₀ := (mem addr).isLt
  have h₁ := (mem (addr + 1)).isLt
  have h₂ := (mem (addr + 2)).isLt
  have h₃ := (mem (addr + 3)).isLt
  unfold u32At
  omega

/-- The loop of `acpi_sdt_check` computes the checksum and reads all bytes. -/
theorem sumBytes_spec (n : ℕ) :
    (sumBytes addr n).value mem = .ok (checksum mem addr n) ∧
      ∀ b, b ∈ (sumBytes addr n).reads mem ↔ addr ≤ b ∧ b < addr + n := by
  induction n with
  | zero => simp [sumBytes, checksum]
  | succ n ih =>
    obtain ⟨hvalue, hreads⟩ := ih
    constructor
    · rw [sumBytes, Reading.value_bind, hvalue]
      rfl
    · intro b
      rw [sumBytes, Reading.mem_reads_bind, hreads]
      simp only [hvalue, Except.ok.injEq, exists_eq_left', Reading.reads, List.mem_cons,
        List.not_mem_nil, or_false]
      omega

/-- What `acpi_sdt_check` returns and reads. -/
theorem acpiSdtCheck_spec :
    (acpiSdtCheck addr).value mem =
        .ok (decide (checksum mem addr (tableLength mem addr) = 0)) ∧
      ∀ b, b ∈ (acpiSdtCheck addr).reads mem ↔
        (addr + 4 ≤ b ∧ b < addr + 8) ∨ (addr ≤ b ∧ b < addr + tableLength mem addr) := by
  obtain ⟨hvalue, hreads⟩ := sumBytes_spec mem addr (tableLength mem addr)
  constructor
  · rw [acpiSdtCheck, Reading.value_bind, value_readU32]
    change ((sumBytes addr (tableLength mem addr)).bind _).value mem = _
    rw [Reading.value_bind, hvalue]
    rfl
  · intro b
    rw [acpiSdtCheck, Reading.mem_reads_bind, mem_reads_readU32]
    simp only [value_readU32, Except.ok.injEq, exists_eq_left', Reading.mem_reads_bind,
      Reading.reads_done, List.not_mem_nil, and_false, exists_false, or_false]
    rw [← tableLength, hreads]

end Fields

end Smor.Acpi
