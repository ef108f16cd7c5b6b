import Smor.Kernel
import Smor.Lib.Bytes

/-!
# Reading the boot information

`multiboot_init` walks over the tags of a Multiboot2 information block and records what it finds
in `boot_info`. `boot.S` copies the block behind `boot_info`, so that both are bytes of one
memory, at the addresses of the kernel: a pointer is a 64-bit number, and so is what pointer
arithmetic makes of it. The loads from the block are told apart from those of `boot_info`'s own
fields.

The loops run for a number of rounds that is given from outside. A failed `check` halts the
machine.
-/

namespace Smor.Multiboot

open Smor.Lib Smor.Vm

abbrev Byte := BitVec 8

/-- The memory, by address. -/
abbrev Mem := ℕ → Byte

/-- What a load is for. -/
inductive Source
  | bootInfo
  | block

/-- Why `multiboot_init` does not return. -/
inductive Stop
  /-- A failed `check`. -/
  | panic
  /-- The rounds are used up. -/
  | endless
  deriving DecidableEq

abbrev Step := Accessing Source ℕ Stop Byte

/-- A field of a structure in memory: its address and its size. -/
structure Field where
  addr : ℕ
  width : ℕ

/-- The address of a byte of a field. -/
def Field.byte (f : Field) (i : ℕ) : ℕ := u64 (f.addr + i)

/-- The contents of a field. -/
def Field.value (f : Field) (mem : Mem) : ℕ := number mem f.byte f.width

def Field.load (f : Field) (source : Source) : Step ℕ := .loadNumber source f.byte f.width

def Field.store (f : Field) (v : ℕ) : Step Unit := .storeNumber f.byte v f.width

/-- The memory with new contents of a field. -/
def Field.put (f : Field) (mem : Mem) (v : ℕ) : Mem := putNumber mem f.byte v f.width

/-- `kernel_boot_info()`. -/
def kernelBootInfo : ℕ := kernelBase ||| 0x0A000

/-- A field of `boot_info`. -/
def infoField (offset width : ℕ) : Field := ⟨kernelBootInfo + offset, width⟩

def mbMagic : Field := infoField 0 4

def mbAddr : Field := infoField 4 4

def mbSize : Field := infoField 8 4

/-- `mmap[i].addr`. -/
def mmapAddr (i : ℕ) : Field := infoField (40 + 24 * i) 8

/-- `mmap[i].size`. -/
def mmapSize (i : ℕ) : Field := infoField (48 + 24 * i) 8

/-- `mmap[i].flags`. -/
def mmapFlags (i : ℕ) : Field := infoField (56 + 24 * i) 4

def numMmap : Field := infoField 808 4

def mmapTop : Field := infoField 816 8

def memorySize : Field := infoField 824 8

def fbAddr : Field := infoField 832 8

def fbPitch : Field := infoField 840 4

def fbWidth : Field := infoField 844 4

def fbHeight : Field := infoField 848 4

def fbBpp : Field := infoField 852 4

def fbType : Field := infoField 856 4

/-- The address of `cmd_line`. -/
def cmdLine : ℕ := kernelBootInfo + 860

/-- `MULTIBOOT2_BOOTLOADER_MAGIC`. -/
def multiboot2BootloaderMagic : ℕ := 0x36d76289

/-- `MULTIBOOT_TAG_TYPE_END`. -/
def tagTypeEnd : ℕ := 0

/-- `MULTIBOOT_TAG_TYPE_CMDLINE`. -/
def tagTypeCmdline : ℕ := 1

/-- `MULTIBOOT_TAG_TYPE_BASIC_MEMINFO`. -/
def tagTypeBasicMeminfo : ℕ := 4

/-- `MULTIBOOT_TAG_TYPE_MMAP`. -/
def tagTypeMmap : ℕ := 6

/-- `MULTIBOOT_TAG_TYPE_FRAMEBUFFER`. -/
def tagTypeFramebuffer : ℕ := 8

/-- A field of a tag, or of an entry of a memory map. -/
def tagField (tag offset width : ℕ) : Field := ⟨tag + offset, width⟩

/-- `tag->type`. -/
def tagType (tag : ℕ) : Field := tagField tag 0 4

/-- `tag->size`. -/
def tagSize (tag : ℕ) : Field := tagField tag 4 4

/-- `mmap->entry_size`. -/
def mmapEntrySize (mmap : ℕ) : Field := tagField mmap 8 4

/-- `e->addr`. -/
def entryAddr (e : ℕ) : Field := tagField e 0 8

/-- `e->len`. -/
def entryLen (e : ℕ) : Field := tagField e 8 8

/-- `e->type`. -/
def entryType (e : ℕ) : Field := tagField e 16 4

/-- `*s`. -/
def char (s : ℕ) : Field := ⟨s, 1⟩

/-- The loop of `multiboot_cmdline`, with the terminator that follows it. -/
def copyString : ℕ → ℕ → ℕ → Step Unit
  | 0, _, _ => .stop .endless
  | rounds + 1, p, s =>
    ((char s).load .block).bind fun c =>
    if c ≠ 0 then
      ((char s).load .block).bind fun c =>
      ((char p).store c).bind fun _ =>
      copyString rounds (u64 (p + 1)) (u64 (s + 1))
    else (char p).store 0

/-- `multiboot_cmdline`. -/
def multibootCmdline (rounds str : ℕ) : Step Unit := copyString rounds cmdLine (u64 (str + 8))

/-- `multiboot_framebuffer`. -/
def multibootFramebuffer (fb : ℕ) : Step Unit :=
  ((tagField fb 8 8).load .block).bind fun v =>
  (fbAddr.store v).bind fun _ =>
  ((tagField fb 16 4).load .block).bind fun v =>
  (fbPitch.store v).bind fun _ =>
  ((tagField fb 20 4).load .block).bind fun v =>
  (fbWidth.store v).bind fun _ =>
  ((tagField fb 24 4).load .block).bind fun v =>
  (fbHeight.store v).bind fun _ =>
  ((tagField fb 28 1).load .block).bind fun v =>
  (fbBpp.store v).bind fun _ =>
  ((tagField fb 29 1).load .block).bind fun v =>
  fbType.store v

/-- `multiboot_meminfo`. -/
def multibootMeminfo (meminfo : ℕ) : Step Unit :=
  ((tagField meminfo 8 4).load .block).bind fun memLower =>
  ((tagField meminfo 12 4).load .block).bind fun memUpper =>
  memorySize.store (u64 (u64 (memLower * 1024) + u64 (memUpper * 1024)))

/-- The body of the loop of `multiboot_mmap`. -/
def multibootMmapEntry (e : ℕ) : Step Unit :=
  (numMmap.load .bootInfo).bind fun num =>
  if num < bootInfoMmapMax then
    (numMmap.load .bootInfo).bind fun m =>
    (numMmap.store (u32 (m + 1))).bind fun _ =>
    ((entryAddr e).load .block).bind fun addr =>
    ((mmapAddr m).store addr).bind fun _ =>
    ((entryLen e).load .block).bind fun len =>
    ((mmapSize m).store len).bind fun _ =>
    ((entryType e).load .block).bind fun type =>
    if type = multibootMemoryAvailable then
      ((mmapFlags m).store 1).bind fun _ =>
      ((entryAddr e).load .block).bind fun addr =>
      ((entryLen e).load .block).bind fun len =>
      (mmapTop.load .bootInfo).bind fun top =>
      if top < u64 (addr + len) then
        ((entryAddr e).load .block).bind fun addr =>
        ((entryLen e).load .block).bind fun len =>
        mmapTop.store (u64 (addr + len))
      else .done ()
    else (mmapFlags m).store 0
  else .stop .panic

/-- The loop of `multiboot_mmap`. -/
def multibootMmapLoop (mmap : ℕ) : ℕ → ℕ → Step Unit
  | 0, _ => .stop .endless
  | rounds + 1, e =>
    ((tagSize mmap).load .block).bind fun size =>
    if e < u64 (mmap + size) then
      (multibootMmapEntry e).bind fun _ =>
      ((mmapEntrySize mmap).load .block).bind fun entrySize =>
      multibootMmapLoop mmap rounds (u64 (e + entrySize))
    else .done ()

/-- `multiboot_mmap`. -/
def multibootMmap (rounds mmap : ℕ) : Step Unit :=
  (numMmap.store 0).bind fun _ =>
  (mmapTop.store 0).bind fun _ =>
  multibootMmapLoop mmap rounds (u64 (mmap + 16))

/-- The `switch` of `multiboot_init`. -/
def multibootTag (rounds tag : ℕ) : Step Unit :=
  ((tagType tag).load .block).bind fun type =>
  if type = tagTypeCmdline then multibootCmdline rounds tag
  else if type = tagTypeBasicMeminfo then multibootMeminfo tag
  else if type = tagTypeFramebuffer then multibootFramebuffer tag
  else if type = tagTypeMmap then multibootMmap rounds tag
  else .done ()

/-- `(tag->size + 7) & ~7`, which is computed in 32 bits. -/
def roundedSize (size : ℕ) : ℕ := u32 (size + 7) / 8 * 8

/-- The loop of `multiboot_init`, with `rounds` for the loops inside. -/
def multibootLoop (rounds : ℕ) : ℕ → ℕ → Step Unit
  | 0, _ => .stop .endless
  | fuel + 1, tag =>
    ((tagType tag).load .block).bind fun type =>
    if type ≠ tagTypeEnd then
      (multibootTag rounds tag).bind fun _ =>
      ((tagSize tag).load .block).bind fun size =>
      multibootLoop rounds fuel (u64 (tag + roundedSize size))
    else .done ()

/-- `multiboot_init`. -/
def multibootInit (rounds : ℕ) : Step Bool :=
  (mbMagic.load .bootInfo).bind fun magic =>
  if magic ≠ multiboot2BootloaderMagic then .done false
  else
    (mbAddr.load .bootInfo).bind fun addr =>
    (multibootLoop rounds rounds (kernelVaddr (u32 (addr + 8)))).bind fun _ =>
    .done true

end Smor.Multiboot
