import Smor.Types
import Mathlib.Data.List.Range
import Mathlib.Logic.Function.Iterate

/-!
# The boot page tables

`boot.S` builds a first set of page tables, and `vm_boot.c` extends and changes them with
2MB pages, taking new tables from a small pool of physical pages. Physical memory is a
function from the address of a quadword to its value. The code reaches the tables through
`KERNEL_VADDR`; these accesses are accesses to the physical tables here. A failed `check`
is the result `none`.
-/

namespace Smor.Vm

/-- `PML_SHIFT`. -/
def pmlShift : ℕ := 39

/-- `PDP_SHIFT`. -/
def pdpShift : ℕ := 30

/-- `PDIR_NUM_ENTRIES`. -/
def pdirNumEntries : ℕ := 0x200

/-- `PDIR_ADDR(x)`: an entry without its low nine bits. -/
def pdirAddr (x : ℕ) : ℕ := x / pdirNumEntries * pdirNumEntries

/-- `PML_INDEX(x)`. -/
def pmlIndex (x : ℕ) : ℕ := (x >>> pmlShift) &&& 0x1FF

/-- `PDP_INDEX(x)`. -/
def pdpIndex (x : ℕ) : ℕ := (x >>> pdpShift) &&& 0x1FF

/-- `PAGE_2M_INDEX(x)`. -/
def page2mIndex (x : ℕ) : ℕ := (x >>> page2mShift) &&& 0x1FF

/-- `PAGE_PRESENT`. -/
def pagePresent : ℕ := 0x01

/-- `PAGE_WRITE`. -/
def pageWrite : ℕ := 0x02

/-- `PAGE_2MB`. -/
def page2mb : ℕ := 0x80

/-- `KERNEL_BASE`. -/
def kernelBase : ℕ := 0xFFFFFFFF80000000

/-- `BOOT_PML4`. -/
def bootPml4 : ℕ := 0x10000

/-- `BOOT_PD`. -/
def bootPd : ℕ := 0x11000

/-- `BOOT_PDP_HI`. -/
def bootPdpHi : ℕ := 0x12000

/-- `BOOT_PDP_LO`. -/
def bootPdpLo : ℕ := 0x13000

/-- `BOOT_PAGE_NEXT`. -/
def bootPageNext : ℕ := 0x14000

/-- `BOOT_PAGES_TOP`. -/
def bootPagesTop : ℕ := 0x30000

/-- Physical memory and the pool position of `vm_boot.c`. -/
structure BootVm where
  mem : ℕ → ℕ
  bootPage : ℕ

namespace BootVm

/-- The entry `table[index]` of a table at a physical address. -/
def entry (vm : BootVm) (table index : ℕ) : ℕ := vm.mem (table + 8 * index)

/-- The assignment `table[index] = value`. -/
def setEntry (vm : BootVm) (table index value : ℕ) : BootVm :=
  { vm with mem := Function.update vm.mem (table + 8 * index) value }

end BootVm

/-- `boot_page_alloc`: a zeroed page of the pool. -/
def bootPageAlloc (vm : BootVm) : Option (ℕ × BootVm) :=
  let page := vm.bootPage
  if page < bootPagesTop then
    some (page,
      { mem := ((List.range pdirNumEntries).map fun i => page + 8 * i).foldl
          (fun mem addr => Function.update mem addr 0) vm.mem
        bootPage := u64 (vm.bootPage + page4kSize) })
  else none

/-- The entry of an upper table, created with a new table behind it if it is not present.
`vm_boot_map_page` does this once in the PML4 and once in the PDP. -/
def bootTableEntry (vm : BootVm) (table index : ℕ) : Option (ℕ × BootVm) :=
  if vm.entry table index &&& pagePresent = 0 then
    (bootPageAlloc vm).map fun (page, vm) =>
      (page ||| pagePresent ||| pageWrite,
        vm.setEntry table index (page ||| pagePresent ||| pageWrite))
  else some (vm.entry table index, vm)

/-- `vm_boot_map_page`. -/
def vmBootMapPage (vm : BootVm) (vaddr paddr : ℕ) : Option BootVm :=
  (bootTableEntry vm bootPml4 (pmlIndex vaddr)).bind fun (pdpEntry, vm) =>
    (bootTableEntry vm (pdirAddr pdpEntry) (pdpIndex vaddr)).map fun (pdEntry, vm) =>
      let pd := pdirAddr pdEntry
      let old := vm.entry pd (page2mIndex vaddr)
      if old &&& pagePresent = 0 ∨ pdirAddr old ≠ paddr then
        vm.setEntry pd (page2mIndex vaddr) (paddr ||| pagePresent ||| pageWrite ||| page2mb)
      else vm

/-- `vm_boot_unmap_page`. -/
def vmBootUnmapPage (vm : BootVm) (vaddr : ℕ) : BootVm :=
  let pdpEntry := vm.entry bootPml4 (pmlIndex vaddr)
  if pdpEntry &&& pagePresent ≠ 0 then
    let pdEntry := vm.entry (pdirAddr pdpEntry) (pdpIndex vaddr)
    if pdEntry &&& pagePresent ≠ 0 then vm.setEntry (pdirAddr pdEntry) (page2mIndex vaddr) 0
    else vm
  else vm

/-- The loop of `vm_boot_map_range`. -/
def vmBootMapPages : ℕ → BootVm → ℕ → ℕ → Option BootVm
  | 0, vm, _, _ => some vm
  | n + 1, vm, vaddr, paddr =>
    (vmBootMapPage vm vaddr paddr).bind fun vm =>
      vmBootMapPages n vm (u64 (vaddr + page2mSize)) (u64 (paddr + page2mSize))

/-- The body of the loop of `vm_boot_unmap_range`, on the tables and the address. -/
def unmapStep (s : BootVm × ℕ) : BootVm × ℕ :=
  (vmBootUnmapPage s.1 s.2, u64 (s.2 + page2mSize))

/-- The loop of `vm_boot_unmap_range`. -/
def vmBootUnmapPages (n : ℕ) (vm : BootVm) (vaddr : ℕ) : BootVm := (unmapStep^[n] (vm, vaddr)).1

/-- The number of pages that both range functions visit. -/
def bootRangePages (vaddr size : ℕ) : ℕ := page2mNum (u64 (size + vaddr % page2mSize))

/-- The address of the page that contains `x`: `x & PAGE_2M_MASK`. -/
def page2mBase (x : ℕ) : ℕ := x / page2mSize * page2mSize

/-- `vm_boot_map_range`. -/
def vmBootMapRange (vm : BootVm) (vaddr paddr size : ℕ) : Option BootVm :=
  vmBootMapPages (bootRangePages vaddr size) vm (page2mBase vaddr) (page2mBase paddr)

/-- `vm_boot_unmap_range`. -/
def vmBootUnmapRange (vm : BootVm) (vaddr size : ℕ) : BootVm :=
  vmBootUnmapPages (bootRangePages vaddr size) vm (page2mBase vaddr)

/-- The tables that `boot.S` builds for a kernel image that ends at the physical address
`kernelEnd`, in memory that holds `mem` elsewhere, with the pool of `vm_boot_init`. -/
def bootTables (mem : ℕ → ℕ) (kernelEnd : ℕ) : BootVm :=
  let vm : BootVm :=
    -- the 128K from 0x10000 on are cleared
    { mem := fun addr => if bootPml4 ≤ addr ∧ addr < bootPml4 + 0x20000 then 0 else mem addr
      bootPage := bootPageNext }
  let numPages := u32 (kernelEnd + (0x200000 - 1)) >>> 21
  let vm := (List.range numPages).foldl
    (fun vm i => vm.setEntry bootPd i (u32 (0x83 + i * 0x200000))) vm
  let vm := vm.setEntry bootPdpLo 0 (bootPd + 0x003)
  let vm := vm.setEntry bootPdpHi 510 (bootPd + 0x003)
  let vm := vm.setEntry bootPml4 0 (bootPdpLo + 0x003)
  vm.setEntry bootPml4 511 (bootPdpHi + 0x003)

/-- What the entry `table[index]` refers to, if it is present. -/
def bootNext (vm : BootVm) (table index : ℕ) : Option ℕ :=
  if vm.entry table index &&& pagePresent = 0 then none else some (pdirAddr (vm.entry table index))

/-- The page directory at the table indices `i` and `j`. -/
def bootDir (vm : BootVm) (i j : ℕ) : Option ℕ :=
  (bootNext vm bootPml4 i).bind fun pdp => bootNext vm pdp j

/-- The 2MB page at the table indices `i`, `j`, and `k`; every level must be present. -/
def bootLookup (vm : BootVm) (i j k : ℕ) : Option ℕ :=
  (bootDir vm i j).bind fun pd => bootNext vm pd k

/-- The translation of a virtual address by the three-level walk. -/
def translate (vm : BootVm) (vaddr : ℕ) : Option ℕ :=
  (bootLookup vm (pmlIndex vaddr) (pdpIndex vaddr) (page2mIndex vaddr)).map
    (· + vaddr % page2mSize)

end Smor.Vm
