import Smor.Multiboot.Tags

/-!
# Where `multiboot_init` loads and stores

The sizes in the block are used as they are: nothing is compared with the total size of the
block, a size that is rounded to 0 leaves the walk where it is, and a string ends at a zero byte
only. The walk keeps to the block if and only if the tags lead to an end inside of it.
-/

namespace Smor.Multiboot

open Smor.Lib

/-- What `boot.S` leaves in `boot_info`: behind a Multiboot2 loader, the address of the copy. -/
def Booted (mem : Mem) : Prop :=
  mbMagic.value mem = multiboot2BootloaderMagic → mbAddr.value mem = mb2Info

section Runs

variable {size tag rounds fuel : ℕ} {mem : Mem}

/-- The first tag is behind the size of the block. -/
theorem firstTag_eq : kernelVaddr (u32 (mb2Info + 8)) = blockStart + 8 := by
  rw [u32_of_lt (by decide)]
  decide

/-- `multiboot_init` is the walk from the first tag on. -/
theorem inside_multibootInit (hmagic : mbMagic.value mem = multiboot2BootloaderMagic)
    (haddr : mbAddr.value mem = mb2Info) {post : Except Stop Bool → Mem → Prop} :
    Inside size (multibootInit rounds) mem post ↔
      Inside size (multibootLoop rounds rounds (blockStart + 8)) mem
        (Accessing.Then (canLoad size) (fun k => ¬ InBlock size k) (fun _ => .done true) post) := by
  rw [multibootInit, inside_loadInfo, if_neg (fun hne => hne hmagic), inside_loadInfo, haddr,
    firstTag_eq]
  exact Accessing.holds_bind

end Runs

/-- The memory that `boot.S` leaves for an information block. -/
def bootMemory (block : List Byte) : Mem := fun k =>
  if k < blockStart then
    [0x89, 0x62, 0xd7, 0x36, 0x00, 0xB0, 0x00, 0x00, BitVec.ofNat 8 block.length,
      BitVec.ofNat 8 (block.length / 2 ^ 8), BitVec.ofNat 8 (block.length / 2 ^ 16),
      BitVec.ofNat 8 (block.length / 2 ^ 24)].getD (k - kernelBootInfo) 0
  else block.getD (k - blockStart) 0

/-- A block with the command line "hi" and an available region of one byte, at the address with
the bytes `b`. -/
def oneRegion (b : Byte) : List Byte :=
  [72, 0, 0, 0, 0, 0, 0, 0] ++
    [1, 0, 0, 0, 11, 0, 0, 0, 0x68, 0x69, 0, 0, 0, 0, 0, 0] ++
    [6, 0, 0, 0, 40, 0, 0, 0, 24, 0, 0, 0, 0, 0, 0, 0] ++
    [b, b, b, b, b, b, b, b, 1, 0, 0, 0, 0, 0, 0, 0, 1, 0, 0, 0, 0, 0, 0, 0] ++
    [0, 0, 0, 0, 8, 0, 0, 0]

end Smor.Multiboot
