import Smor.Vm.Boot

/-!
# Boot information

`struct boot_info_t` records where the kernel image ends and what the boot loader said about
memory. `kernel_slack_alloc` hands out the memory behind the image and extends the mapped
part of it by whole pages. `multiboot_mmap` reads the memory map of the boot loader.
-/

namespace Smor

open Smor.Vm

/-- `ALIGN_UP(addr, align)` for a power of two. -/
def alignUp (addr align : ℕ) : ℕ := u64 (addr + align - 1) / align * align

/-- `PAGE_2M_ROUND(x)`. -/
def page2mRound (x : ℕ) : ℕ := u64 (x + (page2mSize - 1)) / page2mSize * page2mSize

/-- `KERNEL_VADDR(x)`. -/
def kernelVaddr (x : ℕ) : ℕ := x ||| kernelBase

/-- `struct boot_info_mmap_t`. -/
structure BootInfoMmap where
  addr : ℕ
  size : ℕ
  flags : ℕ
  deriving DecidableEq

/-- The fields of `struct boot_info_t` that the memory system uses. `num_mmap` is the length
of `mmap`. -/
structure BootInfo where
  kernelEnd : ℕ
  kernelTop : ℕ
  kernelSlack : ℕ
  mmap : List BootInfoMmap
  mmapTop : ℕ
  deriving DecidableEq

/-- `kernel_init`, for an image that ends at the physical address `kernelEnd`. -/
def kernelInit (info : BootInfo) (kernelEnd : ℕ) : BootInfo :=
  { info with
    kernelEnd := kernelEnd
    kernelTop := page2mRound kernelEnd
    kernelSlack := kernelEnd }

/-- The top of the slack memory after an allocation. -/
def slackAllocTop (info : BootInfo) (size align : ℕ) : ℕ :=
  u64 (alignUp info.kernelSlack align + size)

/-- `kernel_top` after an allocation: unchanged if the slack suffices. -/
def slackKernelTop (info : BootInfo) (size align : ℕ) : ℕ :=
  if info.kernelTop < slackAllocTop info size align then
    u64 (info.kernelTop + page2mRound (slackAllocTop info size align - info.kernelTop))
  else info.kernelTop

/-- `kernel_slack_alloc`: the address, the boot information, and the boot tables. -/
def kernelSlackAlloc (info : BootInfo) (vm : BootVm) (size align : ℕ) :
    Option (ℕ × BootInfo × BootVm) :=
  let top := slackAllocTop info size align
  let info' :=
    { info with
      kernelTop := slackKernelTop info size align
      kernelSlack := top }
  let addr := kernelVaddr (alignUp info.kernelSlack align)
  if info.kernelTop < top then
    (vmBootMapRange vm (kernelVaddr info.kernelTop) info.kernelTop
      (page2mRound (top - info.kernelTop))).map fun vm => (addr, info', vm)
  else some (addr, info', vm)

/-- `BOOT_INFO_MMAP_MAX`. -/
def bootInfoMmapMax : ℕ := 32

/-- `MULTIBOOT_MEMORY_AVAILABLE`. -/
def multibootMemoryAvailable : ℕ := 1

/-- `struct multiboot_mmap_entry_t`. -/
structure MmapEntry where
  addr : ℕ
  len : ℕ
  type : ℕ
  deriving DecidableEq

/-- `struct multiboot_tag_mmap_t`, with the entry that is read at a byte offset of the tag. -/
structure MmapTag where
  size : ℕ
  entrySize : ℕ
  entryAt : ℕ → MmapEntry

/-- The offset of `entries` in the tag. -/
def mmapEntriesOffset : ℕ := 16

/-- The body of the loop of `multiboot_mmap` behind its check. -/
def BootInfo.addMmap (info : BootInfo) (e : MmapEntry) : BootInfo :=
  if e.type = multibootMemoryAvailable then
    { info with
      mmap := info.mmap ++ [⟨e.addr, e.len, 1⟩]
      mmapTop := if info.mmapTop < u64 (e.addr + e.len) then u64 (e.addr + e.len)
        else info.mmapTop }
  else { info with mmap := info.mmap ++ [⟨e.addr, e.len, 0⟩] }

/-- The loop of `multiboot_mmap`. Its check allows for at most `BOOT_INFO_MMAP_MAX` rounds, also
when `entry_size` is 0, so that the bound on the rounds is never what ends it. -/
def multibootMmapLoop (tag : MmapTag) : ℕ → ℕ → BootInfo → Option BootInfo
  | 0, _, _ => none
  | rounds + 1, offset, info =>
    if offset < tag.size then
      if info.mmap.length < bootInfoMmapMax then
        multibootMmapLoop tag rounds (offset + tag.entrySize) (info.addMmap (tag.entryAt offset))
      else none
    else some info

/-- `multiboot_mmap`. -/
def multibootMmap (tag : MmapTag) (info : BootInfo) : Option BootInfo :=
  multibootMmapLoop tag (bootInfoMmapMax + 1) mmapEntriesOffset
    { info with
      mmap := []
      mmapTop := 0 }

/-- The entries of a tag: those at the offsets that the loop visits. -/
def MmapTag.Entry (tag : MmapTag) (e : MmapEntry) : Prop :=
  ∃ n, mmapEntriesOffset + n * tag.entrySize < tag.size ∧
    e = tag.entryAt (mmapEntriesOffset + n * tag.entrySize)

/-- An address that the memory map calls available. -/
def MmapTag.Available (tag : MmapTag) (addr : ℕ) : Prop :=
  ∃ e, tag.Entry e ∧ e.type = multibootMemoryAvailable ∧ e.addr ≤ addr ∧ addr < e.addr + e.len

/-- An address in the kernel's part of memory keeps the alignment of the physical address. -/
theorem kernelVaddr_aligned {x shift : ℕ} (hshift : shift ≤ 31) (hx : 2 ^ shift ∣ x)
    (hlt : x < 2 ^ 64) :
    2 ^ shift ∣ kernelVaddr x ∧ kernelVaddr x < 2 ^ 64 ∧ kernelVaddr x ≠ 0 := by
  have hbase : 2 ^ shift ∣ kernelBase :=
    Nat.dvd_trans (Nat.pow_dvd_pow 2 hshift) (by decide)
  refine ⟨?_, Nat.or_lt_two_pow hlt (by decide), ?_⟩
  · unfold kernelVaddr
    rw [Nat.dvd_iff_mod_eq_zero, Nat.or_mod_two_pow, Nat.mod_eq_zero_of_dvd hx,
      Nat.mod_eq_zero_of_dvd hbase]
    rfl
  · have hle : kernelBase ≤ kernelVaddr x := Nat.right_le_or
    have hpos : 0 < kernelBase := by decide
    omega

/-- A block that is aligned to its size does not wrap around. -/
theorem add_two_pow_le_of_dvd {x shift : ℕ} (hshift : shift ≤ 64) (hx : 2 ^ shift ∣ x)
    (hlt : x < 2 ^ 64) : x + 2 ^ shift ≤ 2 ^ 64 := by
  obtain ⟨q, rfl⟩ := hx
  obtain ⟨q', hq'⟩ : 2 ^ shift ∣ 2 ^ 64 := Nat.pow_dvd_pow 2 hshift
  rw [hq'] at hlt ⊢
  have hqq := Nat.lt_of_mul_lt_mul_left hlt
  calc 2 ^ shift * q + 2 ^ shift = 2 ^ shift * (q + 1) := by rw [Nat.mul_succ]
    _ ≤ 2 ^ shift * q' := Nat.mul_le_mul_left _ hqq

theorem alignUp_lt (addr align : ℕ) : alignUp addr align < 2 ^ 64 := by
  have hlt : u64 (addr + align - 1) < 2 ^ 64 := by
    unfold u64
    exact Nat.mod_lt _ (by decide)
  exact lt_of_le_of_lt (Nat.div_mul_le_self _ _) hlt

/-- The address that `kernel_slack_alloc` returns. -/
theorem kernelSlackAlloc_addr {info info' : BootInfo} {vm vm' : BootVm} {size align addr : ℕ}
    (h : kernelSlackAlloc info vm size align = some (addr, info', vm')) :
    addr = kernelVaddr (alignUp info.kernelSlack align) := by
  simp only [kernelSlackAlloc] at h
  split_ifs at h
  · obtain ⟨vm'', -, heq⟩ := Option.map_eq_some_iff.mp h
    exact (Prod.mk.inj heq).1.symm
  · exact (Prod.mk.inj (Option.some.inj h)).1.symm

/-- Recording an entry leaves the kernel's own addresses alone. -/
theorem BootInfo.addMmap_kernel (info : BootInfo) (e : MmapEntry) :
    (info.addMmap e).kernelEnd = info.kernelEnd ∧ (info.addMmap e).kernelTop = info.kernelTop ∧
      (info.addMmap e).kernelSlack = info.kernelSlack := by
  unfold BootInfo.addMmap
  split_ifs <;> exact ⟨rfl, rfl, rfl⟩

/-- Reading the memory map leaves the kernel's own addresses alone. -/
theorem multibootMmapLoop_kernel {tag : MmapTag} {rounds offset : ℕ} {info info' : BootInfo}
    (h : multibootMmapLoop tag rounds offset info = some info') :
    info'.kernelEnd = info.kernelEnd ∧ info'.kernelTop = info.kernelTop ∧
      info'.kernelSlack = info.kernelSlack := by
  induction rounds generalizing offset info with
  | zero => simp [multibootMmapLoop] at h
  | succ rounds ih =>
    unfold multibootMmapLoop at h
    split_ifs at h
    · obtain ⟨h₁, h₂, h₃⟩ := ih h
      obtain ⟨g₁, g₂, g₃⟩ := info.addMmap_kernel (tag.entryAt offset)
      exact ⟨h₁.trans g₁, h₂.trans g₂, h₃.trans g₃⟩
    · obtain rfl := Option.some.inj h
      exact ⟨rfl, rfl, rfl⟩

end Smor
