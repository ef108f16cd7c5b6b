import Smor.Acpi.Mapping
import Smor.Alloc.SmpRuns
import Smor.Vm.Cache
import Smor.Vm.Slack
import Smor.Vm.Sync

/-!
# The memory that `kernel_main` lays out

Slack memory behind the image goes to the page database, to the buckets of the page hash, and to
the slab of `kmalloc_init`, while `fb_cons_init` and `acpi_init` map memory at its own addresses.
Every stage keeps the invariants of the slack memory and of the tables, if the image and what is set
up behind it have room in the first gigabyte, and the root table of the firmware does not share a
page with them.
-/

namespace Smor

open Smor.Lib Smor.Vm Smor.Alloc Smor.Acpi

/-- The rounds of the loop in `vm_hash_init`. -/
def pageHashSizeLoop (numPages : ℕ) : ℕ → ℕ → Option ℕ
  | 0, _ => none
  | rounds + 1, size =>
    if size < numPages then pageHashSizeLoop numPages rounds (u32 (size <<< 1)) else some size

/-- `page_hash_size`. A size that is still too small after 32 rounds is 0, and the loop goes on for
ever. -/
def pageHashSize (numPages : ℕ) : Option ℕ := pageHashSizeLoop numPages 33 1

/-- `sizeof(uintptr_t)`. -/
def sizeofUintptr : ℕ := 8

/-- The framebuffer in the boot information; all of it is 0 if there is none. -/
structure Framebuffer where
  addr : ℕ
  pitch : ℕ
  height : ℕ

/-- What `kernel_main` finds: what `multiboot_init` has left in the boot information, memory, the
end of the image, and what is at the places of the structures that it sets up. `memory` are the
bytes that the firmware left, by physical address. -/
structure KernelStart where
  info : BootInfo
  mem : ℕ → ℕ
  kernelEnd : ℕ
  fb : Framebuffer
  memory : ℕ → Byte
  apic : Apic
  pdb : PageDb
  hash : VmHash
  buckets : ℕ → ℕ
  slabs : Slabs

/-- What `kernel_main` has set up at the end of `vm_boot_sync`. -/
structure KernelMemory where
  slack : SlackRun
  pdb : PageDb
  hash : VmHash
  slabs : Slabs
  apic : Apic

namespace Vm.SlackRun

/-- After a function that has made one call of `kernel_slack_alloc`. -/
def taken (s : SlackRun) (info : BootInfo) (vm : BootVm) (size align : ℕ) : SlackRun :=
  let slack := alignUp s.info.kernelSlack align
  ⟨info, vm, ⟨slack, kernelVaddr slack, size, align⟩ :: s.blocks⟩

/-- The mapping of `fb_cons_init`. The size is computed in 32 bits. -/
def fbConsInit (s : SlackRun) (fb : Framebuffer) : Option SlackRun :=
  (vmBootMapRange s.vm fb.addr fb.addr (u32 (fb.pitch * fb.height))).map fun vm =>
    { s with vm := vm }

/-- `vm_page_init`. -/
def vmPageInit (s : SlackRun) (mem : PageDb) : Option (SlackRun × PageDb) :=
  (Vm.vmPageInit s.info s.vm mem).map fun (info, vm, pdb) =>
    (s.taken info vm (pageDbCalcSize s.info.mmapTop) 16, pdb)

/-- `vm_hash_init`. -/
def vmHashInit (s : SlackRun) (pdb : PageDb) (hash : VmHash) (buckets : ℕ → ℕ) :
    Option (SlackRun × VmHash) :=
  (pageHashSize pdb.numPages).bind fun size =>
    (kernelSlackAlloc s.info s.vm (size * sizeofUintptr) 16).map fun (_, info, vm) =>
      let pages := (List.range size).foldl (fun pages i => Function.update pages i 0) buckets
      (s.taken info vm (size * sizeofUintptr) 16, { hash with pageHash := ⟨some pages, size⟩ })

/-- `kmalloc_init`. -/
def kmallocInit (s : SlackRun) (slabs : Slabs) : Option (SlackRun × Slabs) :=
  (Alloc.kmallocInit slabs s.info s.vm).map fun (slabs, info, vm) =>
    (s.taken info vm page2mSize page2mSize, slabs)

end Vm.SlackRun

/-- `kernel_main` up to `vm_boot_sync`: the calls that change the boot information, the boot tables,
or what is allocated from. -/
def kernelMain (k : KernelStart) : Option KernelMemory :=
  let s := SlackRun.start k.info k.mem k.kernelEnd
  (s.fbConsInit k.fb).bind fun s =>
    (s.vmPageInit k.pdb).bind fun (s, pdb) =>
      (s.vmHashInit pdb k.hash k.buckets).bind fun (s, hash) =>
        (acpiInit k.memory s.vm k.apic).toOption.bind fun (_, vm, apic) =>
          (SlackRun.kmallocInit { s with vm := vm } k.slabs).bind fun (s, slabs) =>
            (vmBootSync s.vm pdb).map fun pdb => ⟨s, pdb, hash, slabs, apic⟩

/-- Between two states, one block has been taken. -/
structure Took (size align : ℕ) (s s' : SlackRun) : Prop where
  slack : s'.info.kernelSlack = alignUp s.info.kernelSlack align + size
  top : s.info.kernelTop ≤ s'.info.kernelTop
  blocks : s'.blocks = ⟨alignUp s.info.kernelSlack align,
    kernelVaddr (alignUp s.info.kernelSlack align), size, align⟩ :: s.blocks

/-- The slack memory is in order, and all of it lies in the first gigabyte, whose directory also
maps the kernel. -/
structure KernelOk (kernelEnd : ℕ) (s : SlackRun) : Prop where
  slack : SlackOk kernelEnd s
  boot : BootStateOk ⟨s.info, s.vm⟩

section Stages

variable {kernelEnd addr size : ℕ} {s : SlackRun} {vm : BootVm}

theorem kernelOk_start (info : BootInfo) (mem : ℕ → ℕ) (hend : 0 < kernelEnd ∧ kernelEnd ≤ 2 ^ 30) :
    KernelOk kernelEnd (SlackRun.start info mem kernelEnd) :=
  ⟨slackOk_start info mem hend, bootStateOk_of_reaches hend.2 (Reaches.refl _)⟩

/-- The table indices of an address of the kernel in the first gigabyte. -/
theorem pageAt_kernelVaddr {p : ℕ} (hp : p < 2 ^ 30) (vm : BootVm) :
    pageAt vm (kernelVaddr p) = bootLookup vm 511 510 (p / 2 ^ 21) := by
  have hbase : kernelBase = 0xFFFFFFFF80000000 := rfl
  rw [kernelVaddr_eq (by omega), pageAt, pmlIndex_eq, pdpIndex_eq, page2mIndex_eq]
  congr 1 <;> omega

/-- With identity mappings, an address of the kernel is translated to its physical address if it is
translated at all. -/
theorem translate_kernelVaddr {p : ℕ} (h : IdentityOk vm) (hp : p < 2 ^ 30)
    (hsome : (pageAt vm (kernelVaddr p)).isSome) : translate vm (kernelVaddr p) = some p := by
  obtain ⟨a, ha⟩ := Option.isSome_iff_exists.mp hsome
  have hlookup := ha
  rw [pageAt_kernelVaddr hp] at hlookup
  have hbase : kernelBase = 0xFFFFFFFF80000000 := rfl
  rcases h.identity 511 (by omega) 510 (by omega) _ (by omega) a hlookup with
    ⟨hlow, -⟩ | ⟨-, -, rfl⟩
  · omega
  · rw [translate_eq, ha, Option.map_some, Option.some.injEq, kernelVaddr_eq (by omega)]
    simp only [page2mSize, page2mShift]
    omega

/-- Other tables that still hold the kernel. -/
theorem KernelOk.remap (h : KernelOk kernelEnd s) (hid : IdentityOk vm)
    (hkept : ∀ p < s.info.kernelTop, (pageAt vm (kernelVaddr p)).isSome) :
    KernelOk kernelEnd { s with vm := vm } := by
  have htop := h.boot.top_le
  dsimp only at htop
  refine ⟨⟨h.slack.kernelEnd_eq, h.slack.kernelEnd_pos, h.slack.bounds, h.slack.top_aligned,
    hid.tables, fun p hp => ?_, h.slack.block, h.slack.apart⟩,
    hid, h.boot.top_aligned, h.boot.top_le⟩
  exact translate_kernelVaddr hid (lt_of_lt_of_le hp htop) (hkept p hp)

/-- Below the top everything is mapped. -/
theorem KernelOk.kept (h : KernelOk kernelEnd s) {p : ℕ} (hp : p < s.info.kernelTop) :
    (pageAt s.vm (kernelVaddr p)).isSome := by
  have hmapped := h.slack.mapped p hp
  rw [translate_eq] at hmapped
  obtain ⟨a, ha, -⟩ := Option.map_eq_some_iff.mp hmapped
  rw [ha]
  rfl

/-- An identity mapping takes nothing away. -/
theorem KernelOk.mapIdentity (h : KernelOk kernelEnd s) (haddr : addr + size < 2 ^ 47)
    (hmap : vmBootMapRange s.vm addr addr size = some vm) :
    KernelOk kernelEnd { s with vm := vm } := by
  have hstep : BootState.step ⟨s.info, s.vm⟩ (.mapRange addr size) = some ⟨s.info, vm⟩ := by
    rw [BootState.step, hmap, Option.map_some]
  have hcall : IdentityCall ⟨s.info, s.vm⟩ (.mapRange addr size) := haddr
  have hid : IdentityOk vm := (h.boot.step hcall hstep).identity
  have hrange : CanonicalRange addr size := Or.inl (by omega)
  have hle := hrange.pages_le addr (by omega) rfl
  have halign : page2mBase addr % page2mSize = 0 := Nat.mul_mod_left _ _
  obtain ⟨hnew, hframe⟩ :=
    vmBootMapPages_spec h.boot.identity.tables hle hle halign hrange.separate hmap
  refine h.remap hid fun p hp => ?_
  by_cases hshare : ∃ m < bootRangePages addr size,
      SharesEntry (page2mBase addr + m * page2mSize) (kernelVaddr p)
  · obtain ⟨m, hm, hshare⟩ := hshare
    rw [IdentityOk.pageAt_eq hid.shared hshare, hnew m hm]
    rfl
  · rw [hframe _ fun m hm hcon => hshare ⟨m, hm, hcon⟩]
    exact h.kept hp

/-- Removing pages above the kernel does not touch it. -/
theorem KernelOk.unmapIdentity (h : KernelOk kernelEnd s) (haddr : addr + size < 2 ^ 47)
    (habove : s.info.kernelTop ≤ page2mBase addr) :
    KernelOk kernelEnd { s with vm := vmBootUnmapRange s.vm addr size } := by
  have hcall : IdentityCall ⟨s.info, s.vm⟩ (.unmapRange addr size) := haddr
  have hstep : BootState.step ⟨s.info, s.vm⟩ (.unmapRange addr size) =
      some ⟨s.info, vmBootUnmapRange s.vm addr size⟩ := rfl
  have hid : IdentityOk (vmBootUnmapRange s.vm addr size) := (h.boot.step hcall hstep).identity
  have hrange : CanonicalRange addr size := Or.inl (by omega)
  have hle := hrange.pages_le addr (by omega) rfl
  obtain ⟨-, hframe⟩ := vmBootUnmapPages_spec h.boot.identity.tables hle hrange.separate
  have htop := h.boot.top_le
  dsimp only at htop
  refine h.remap hid fun p hp => ?_
  rw [vmBootUnmapRange, hframe (kernelVaddr p) fun m hm hshare => ?_]
  · exact h.kept hp
  · -- the page would be one of the kernel's
    have hbase : kernelBase = 0xFFFFFFFF80000000 := rfl
    have hin : InRounded addr size (page2mBase addr + m * page2mSize) :=
      (inRounded_iff hrange).mpr ⟨m, hm, rfl⟩
    obtain ⟨hdir, hpage⟩ := hshare
    rw [kernelVaddr_eq (by omega)] at hdir hpage
    simp only [SameDir, pmlIndex_eq, pdpIndex_eq, page2mIndex_eq] at hdir hpage
    simp only [InRounded, page2mBase, page2mSize, page2mShift] at hin habove hdir hpage
    omega

/-- The end of a block that ends in the first gigabyte. -/
theorem slackAllocTop_eq {info : BootInfo} {align : ℕ}
    (hroom : alignUp info.kernelSlack align + size ≤ 2 ^ 30) :
    slackAllocTop info size align = alignUp info.kernelSlack align + size := by
  rw [slackAllocTop, u64, Nat.mod_eq_of_lt (by omega)]

/-- The kernel's memory grows. -/
theorem slackKernelTop_le {info : BootInfo} {align : ℕ} (htop : info.kernelTop ≤ 2 ^ 30)
    (hroom : alignUp info.kernelSlack align + size ≤ 2 ^ 30) :
    info.kernelTop ≤ slackKernelTop info size align := by
  have hend := slackAllocTop_eq hroom
  have hround := page2mRound_eq
    (show slackAllocTop info size align - info.kernelTop ≤ 2 ^ 31 by omega)
  rw [slackKernelTop]
  split_ifs with hgrow
  · rw [u64, Nat.mod_eq_of_lt (by omega)]
    omega
  · exact le_rfl

/-- A call of `kernel_slack_alloc` with room in the first gigabyte. -/
theorem KernelOk.slackAlloc {info : BootInfo} {vaddr : ℕ} (h : KernelOk kernelEnd s) (shift : ℕ)
    (hshift : shift < 64) (hroom : alignUp s.info.kernelSlack (2 ^ shift) + size ≤ 2 ^ 30)
    (halloc : kernelSlackAlloc s.info s.vm size (2 ^ shift) = some (vaddr, info, vm)) :
    KernelOk kernelEnd (s.taken info vm size (2 ^ shift)) ∧
      Took size (2 ^ shift) s (s.taken info vm size (2 ^ shift)) := by
  obtain ⟨hinfo, -⟩ := kernelSlackAlloc_cases halloc
  have hvaddr := kernelSlackAlloc_addr halloc
  have htop := slackAllocTop_eq hroom
  have hround := page2mRound_eq (show slackAllocTop s.info size (2 ^ shift) - s.info.kernelTop ≤
    2 ^ 31 by omega)
  have haligned := h.slack.top_aligned
  have hle : s.info.kernelTop ≤ 2 ^ 30 := h.boot.top_le
  have hrequest : SlackRequest s (size, 2 ^ shift) := ⟨⟨shift, hshift, rfl⟩, by dsimp only; omega⟩
  have hstep : s.step (size, 2 ^ shift) = some (s.taken info vm size (2 ^ shift)) := by
    rw [SlackRun.step, halloc, Option.map_some]
    dsimp only
    rw [hvaddr]
    rfl
  have hcall : IdentityCall ⟨s.info, s.vm⟩ (.slackAlloc size (2 ^ shift)) := by
    intro hgrow
    dsimp only at hgrow ⊢
    omega
  have hboot : BootState.step ⟨s.info, s.vm⟩ (.slackAlloc size (2 ^ shift)) =
      some ⟨info, vm⟩ := by
    rw [BootState.step, halloc, Option.map_some]
  refine ⟨⟨h.slack.step hrequest hstep, h.boot.step hcall hboot⟩, ?_, ?_, rfl⟩ <;>
    simp only [SlackRun.taken, hinfo]
  · exact htop
  · exact slackKernelTop_le hle hroom

/-- The root table of the firmware does not share a page with the kernel. -/
def RootAbove (top : ℕ) (memory : ℕ → Byte) : Prop :=
  ∀ root table, foundRoot memory = some (root, table) →
    table + max (tableLength memory table) 36 < 2 ^ 47 ∧ top ≤ page2mBase table

/-- `acpi_init` maps the root table and takes it away again. -/
theorem KernelOk.acpiInit {memory : ℕ → Byte} {apic apic' : Apic} {found : Bool}
    (h : KernelOk kernelEnd s) (habove : RootAbove s.info.kernelTop memory)
    (hret : Acpi.acpiInit memory s.vm apic = .ok (found, vm, apic')) :
    KernelOk kernelEnd { s with vm := vm } := by
  rcases acpiInit_eq_ok hret with ⟨-, rfl⟩ | ⟨root, table, hfound, hinit⟩
  · exact h
  · obtain ⟨haddr, htop⟩ := habove root table hfound
    obtain ⟨-, vm₁, vm₂, hmapped, -, rfl⟩ :=
      initRoot_eq_ok h.boot.identity.tables (by omega) hinit
    have h₁ := h.mapIdentity (by omega) hmapped.header
    have h₂ := h₁.mapIdentity (by omega) hmapped.table
    exact h₂.unmapIdentity (by omega) htop

/-- The slab that `kmalloc_init` takes. -/
theorem kmallocInit_spec {slabs slabs' : Slabs} {info info' : BootInfo} {vm' : BootVm}
    (hzero : ∀ h, slabs.links.cell (.head h) = 0)
    (h : kmallocInit slabs info vm = some (slabs', info', vm')) :
    ∃ p, kernelSlackAlloc info vm page2mSize page2mSize = some (p, info', vm') ∧
      ∃ geo lay, SlabsOk slabs' slRoot p ∅ geo lay (fun _ => []) ∧
        (geo slRoot).sizeShift = page2mShift := by
  obtain ⟨slabs₁, hinit⟩ : ∃ slabs₁, slabs.slabListInit slRoot none page2mSize kmallocChunkSize =
      some slabs₁ := ⟨_, rfl⟩
  have hlist : slabs₁.list slRoot = ⟨none, page2mShift, 14⟩ := by
    obtain rfl := Option.some.inj hinit
    have hsize : ceilPow2 page2mSize = page2mShift := by decide +kernel
    have hchunk : ceilPow2 kmallocChunkSize = 14 := by decide +kernel
    dsimp only
    rw [Function.update_self, hsize, hchunk]
  have hgood : (slabs₁.list slRoot).Good := by
    rw [hlist]
    decide +kernel
  have hsize : u32 (1 <<< page2mShift) = page2mSize := by decide +kernel
  rw [kmallocInit, hinit] at h
  obtain ⟨⟨done, slabs₂, info₂, vm₂⟩, hres, heq⟩ := Option.map_eq_some_iff.mp h
  obtain ⟨rfl, rfl, rfl⟩ : slabs₂ = slabs' ∧ info₂ = info' ∧ vm₂ = vm' := by simpa using heq
  have hres' := hres
  rw [Option.getD_some, Slabs.slabListReserveOnSlack, hlist] at hres'
  dsimp only at hres'
  rw [hsize] at hres'
  obtain ⟨⟨p, info₃, vm₃⟩, halloc, hfinish⟩ := Option.map_eq_some_iff.mp hres'
  have hp : p ≠ 0 := by
    rw [kernelSlackAlloc_addr halloc]
    have hdvd : 2 ^ page2mShift ∣ alignUp info.kernelSlack page2mSize := Nat.dvd_mul_left _ _
    exact (kernelVaddr_aligned (by decide) hdvd (alignUp_lt _ _)).2.2
  dsimp only at hfinish
  rw [if_pos hp] at hfinish
  obtain ⟨rfl, rfl, rfl, rfl⟩ : done = true ∧ slabs₁.newSlab slRoot p true = slabs₂ ∧
    info₃ = info₂ ∧ vm₃ = vm₂ := by simpa [eq_comm] using hfinish
  obtain ⟨base, geo, lay, hok⟩ := slabsOk_reserve hzero hinit hgood hres
  -- the slab is at the head of `free_slabs`
  have hhead : (slabs₁.newSlab slRoot p true).links.cell (.head (.free slRoot)) = p := by
    simp [Slabs.newSlab, Links.insert]
  obtain ⟨rest, hnodes⟩ := hok.linked.cons_of_head (hhead.symm ▸ hp)
  have hmem : p ∈ lay.slabs slRoot := by
    rw [Layout.mem_slabs, hnodes, hhead]
    exact Or.inl List.mem_cons_self
  obtain rfl := (hok.root_slab p).mp hmem
  refine ⟨p, halloc, geo, lay, hok, ?_⟩
  rw [← hok.root_list.shifts.1]
  exact congrArg SlabList.sizeShift hlist

/-- The size is the least power of two that is not less than the number of pages. -/
theorem pageHashSizeLoop_spec {numPages rounds shift size : ℕ} (hpages : numPages ≤ 2 ^ 31)
    (hprev : shift = 0 ∨ 2 ^ (shift - 1) < numPages)
    (h : pageHashSizeLoop numPages rounds (2 ^ shift) = some size) :
    ∃ shift, size = 2 ^ shift ∧ numPages ≤ 2 ^ shift ∧
      (shift = 0 ∨ 2 ^ (shift - 1) < numPages) := by
  induction rounds generalizing shift with
  | zero => cases h
  | succ rounds ih =>
    rw [pageHashSizeLoop] at h
    split_ifs at h with hlt
    · have hshift : shift < 31 := (Nat.pow_lt_pow_iff_right (by decide)).mp (hlt.trans_le hpages)
      have hdouble : u32 (2 ^ shift <<< 1) = 2 ^ (shift + 1) := by
        rw [Nat.shiftLeft_eq, ← Nat.pow_succ]
        exact u32_of_lt (Nat.pow_lt_pow_right (by decide) (by omega))
      rw [hdouble] at h
      exact ih (Or.inr hlt) h
    · obtain rfl := Option.some.inj h
      exact ⟨shift, rfl, by omega, hprev⟩

theorem pageHashSize_spec {numPages size : ℕ} (hpages : numPages ≤ 2 ^ 31)
    (h : pageHashSize numPages = some size) :
    (∃ shift < 32, size = 2 ^ shift) ∧ numPages ≤ size ∧ size ≤ 2 * numPages + 1 := by
  obtain ⟨shift, rfl, hle, hprev⟩ := pageHashSizeLoop_spec hpages (Or.inl rfl) h
  cases shift with
  | zero => exact ⟨⟨0, by decide, rfl⟩, hle, by omega⟩
  | succ shift =>
    have hlt : 2 ^ shift < numPages := hprev.resolve_left (Nat.succ_ne_zero shift)
    have hshift : shift < 31 := (Nat.pow_lt_pow_iff_right (by decide)).mp (hlt.trans_le hpages)
    exact ⟨⟨shift + 1, by omega, rfl⟩, hle, by omega⟩

/-- The next multiple is less than the alignment away. -/
theorem alignUp_le (addr align : ℕ) : alignUp addr align ≤ addr + align - 1 := by
  have hmod : u64 (addr + align - 1) ≤ addr + align - 1 := by
    unfold u64
    exact Nat.mod_le _ _
  exact (Nat.div_mul_le_self _ _).trans hmod

/-- `fb_cons_init`. -/
theorem KernelOk.fbConsInit {s' : SlackRun} {fb : Framebuffer} (h : KernelOk kernelEnd s)
    (hfb : fb.addr + u32 (fb.pitch * fb.height) < 2 ^ 47) (hinit : s.fbConsInit fb = some s') :
    KernelOk kernelEnd s' ∧ s'.info = s.info ∧ s'.blocks = s.blocks := by
  rw [SlackRun.fbConsInit, Option.map_eq_some_iff] at hinit
  obtain ⟨vm, hmap, rfl⟩ := hinit
  exact ⟨h.mapIdentity hfb hmap, rfl, rfl⟩

/-- `vm_page_init`. -/
theorem KernelOk.vmPageInit {s' : SlackRun} {mem pdb : PageDb} (h : KernelOk kernelEnd s)
    (hroom : s.info.kernelSlack + 15 + pageDbCalcSize s.info.mmapTop ≤ 2 ^ 30)
    (hinit : s.vmPageInit mem = some (s', pdb)) :
    KernelOk kernelEnd s' ∧ Took (pageDbCalcSize s.info.mmapTop) 16 s s' ∧
      pdb = pageDbInit mem s.info.mmapTop s'.info.kernelTop := by
  obtain ⟨⟨info, vm, pdb'⟩, hpdb, heq⟩ := Option.map_eq_some_iff.mp hinit
  obtain ⟨rfl, rfl⟩ := Prod.mk.inj heq
  obtain ⟨⟨addr, info', vm'⟩, halloc, heq'⟩ := Option.map_eq_some_iff.mp hpdb
  obtain ⟨rfl, hpair⟩ := Prod.mk.inj heq'
  obtain ⟨rfl, rfl⟩ := Prod.mk.inj hpair
  have halign := alignUp_le s.info.kernelSlack (2 ^ 4)
  have htook := h.slackAlloc 4 (by decide) (by omega) halloc
  exact ⟨htook.1, htook.2, rfl⟩

/-- `vm_hash_init`. -/
theorem KernelOk.vmHashInit {s' : SlackRun} {pdb : PageDb} {hash hash' : VmHash}
    {buckets : ℕ → ℕ} (h : KernelOk kernelEnd s)
    (hroom : s.info.kernelSlack + 23 + 16 * pdb.numPages ≤ 2 ^ 30)
    (hinit : s.vmHashInit pdb hash buckets = some (s', hash')) :
    KernelOk kernelEnd s' ∧ Took (hash'.pageHash.size * sizeofUintptr) 16 s s' ∧
      hash'.pageHash.size ≤ 2 * pdb.numPages + 1 ∧
      ∀ cache offset, hash'.bucket (.global, hashFunc hash' cache offset) = some 0 := by
  obtain ⟨size, hsize, hrest⟩ := Option.bind_eq_some_iff.mp hinit
  obtain ⟨⟨addr, info, vm⟩, halloc, heq⟩ := Option.map_eq_some_iff.mp hrest
  obtain ⟨rfl, rfl⟩ := Prod.mk.inj heq
  obtain ⟨⟨shift, hshift, hpow⟩, -, hle⟩ := pageHashSize_spec (by omega) hsize
  have halign := alignUp_le s.info.kernelSlack (2 ^ 4)
  have hbytes : size * sizeofUintptr = 8 * size := Nat.mul_comm _ _
  have htook := h.slackAlloc 4 (by decide) (by rw [hbytes]; omega) halloc
  refine ⟨htook.1, htook.2, hle, fun cache offset => ?_⟩
  have hindex : ∀ x, u32 (x &&& u32Pred size) < size := by
    intro x
    have hpos : 0 < 2 ^ shift := Nat.two_pow_pos shift
    have hmod : u32 (x % 2 ^ shift) ≤ x % 2 ^ shift := by
      unfold u32
      exact Nat.mod_le _ _
    rw [hpow, u32Pred, if_neg hpos.ne', Nat.and_two_pow_sub_one_eq_mod]
    exact hmod.trans_lt (Nat.mod_lt _ hpos)
  simp only [VmHash.bucket, Option.map_some]
  rw [foldl_update_apply (fun _ => 0)]
  exact congrArg some (if_pos (List.mem_range.mpr (hindex _)))

/-- `kmalloc_init`. -/
theorem KernelOk.kmallocInit {s' : SlackRun} {slabs slabs' : Slabs} (h : KernelOk kernelEnd s)
    (hzero : ∀ h, slabs.links.cell (.head h) = 0)
    (hroom : s.info.kernelSlack + 2 ^ 22 ≤ 2 ^ 30)
    (hinit : s.kmallocInit slabs = some (s', slabs')) :
    KernelOk kernelEnd s' ∧ Took page2mSize page2mSize s s' ∧
      ∃ geo lay, SlabsOk slabs' slRoot (kernelVaddr (alignUp s.info.kernelSlack page2mSize)) ∅ geo
        lay (fun _ => []) ∧ (geo slRoot).sizeShift = page2mShift := by
  obtain ⟨⟨slabs₁, info, vm⟩, hslabs, heq⟩ := Option.map_eq_some_iff.mp hinit
  obtain ⟨rfl, rfl⟩ := Prod.mk.inj heq
  obtain ⟨p, halloc, geo, lay, hok, hshift⟩ := kmallocInit_spec hzero hslabs
  obtain rfl := kernelSlackAlloc_addr halloc
  have halign := alignUp_le s.info.kernelSlack (2 ^ 21)
  have hpage : page2mSize = 2 ^ 21 := rfl
  have htook := h.slackAlloc 21 (by decide) (by omega) halloc
  exact ⟨htook.1, htook.2, geo, lay, hok, hshift⟩

end Stages

/-- What `kernel_main` has set up until `vm_boot_sync`, with the slab of `kmalloc_init` and the
blocks in front of it. -/
structure Booted (k : KernelStart) (m : KernelMemory) (slab : SlackBlock) (rest : List SlackBlock) :
    Prop where
  ok : KernelOk k.kernelEnd m.slack
  blocks : m.slack.blocks = slab :: rest
  sizes : m.slack.blocks.map SlackBlock.size =
    [page2mSize, m.hash.pageHash.size * sizeofUintptr, pageDbCalcSize k.info.mmapTop]
  buckets : ∀ cache offset, m.hash.bucket (.global, hashFunc m.hash cache offset) = some 0
  slabs : ∃ geo lay, SlabsOk m.slabs slRoot slab.vaddr ∅ geo lay (fun _ => []) ∧
    (geo slRoot).sizeShift = page2mShift
  /-- The database is built before all of the kernel's memory is taken. -/
  pages : ∃ top, 0 < top ∧ top ≤ m.slack.info.kernelTop ∧
    vmBootSync m.slack.vm (pageDbInit k.pdb k.info.mmapTop top) = some m.pdb

/-- The image and what is set up behind it fit in the first gigabyte, with the rounding. -/
def KernelStart.Fits (k : KernelStart) : Prop :=
  k.kernelEnd + (sizeofPageDb + sizeofPageDesc * pageDbNumPages k.info.mmapTop) +
    16 * pageDbNumPages k.info.mmapTop + 2 ^ 22 + 2 ^ 13 ≤ 2 ^ 30

section Boot

variable {k : KernelStart} {m : KernelMemory}

theorem RootAbove.mono {top top' : ℕ} {memory : ℕ → Byte} (h : RootAbove top' memory)
    (hle : top ≤ top') : RootAbove top memory :=
  fun root table hfound => ⟨(h root table hfound).1, hle.trans (h root table hfound).2⟩

/-- The size of the database, without wrap-around. -/
theorem pageDbCalcSize_le {memorySize : ℕ}
    (hsize : sizeofPageDb + sizeofPageDesc * pageDbNumPages memorySize ≤ 2 ^ 31) :
    pageDbCalcSize memorySize ≤
      sizeofPageDb + sizeofPageDesc * pageDbNumPages memorySize + 4095 := by
  unfold pageDbCalcSize page4kRound page4kSize page4kShift
  generalize sizeofPageDb + sizeofPageDesc * pageDbNumPages memorySize = size at hsize ⊢
  rw [u64_of_lt (by omega), u32_of_lt (by omega)]
  omega

/-- The stages behind one another, from a state with the memory of the image only. -/
theorem kernelMain_stages {s₀ s₁ s₂ s₃ s₄ : SlackRun} {pdb pdb' : PageDb} {hash : VmHash}
    {slabs : Slabs} {vm : BootVm} {apic : Apic} {found : Bool}
    (hok : KernelOk k.kernelEnd s₀) (hslack : s₀.info.kernelSlack = k.kernelEnd)
    (hmmap : s₀.info.mmapTop = k.info.mmapTop) (hblocks : s₀.blocks = []) (hfits : k.Fits)
    (hfb : k.fb.addr + u32 (k.fb.pitch * k.fb.height) < 2 ^ 47)
    (hzero : ∀ h, k.slabs.links.cell (.head h) = 0)
    (hfbCons : s₀.fbConsInit k.fb = some s₁)
    (hpage : s₁.vmPageInit k.pdb = some (s₂, pdb))
    (hhash : s₂.vmHashInit pdb k.hash k.buckets = some (s₃, hash))
    (hacpi : Acpi.acpiInit k.memory s₃.vm k.apic = .ok (found, vm, apic))
    (hkmalloc : SlackRun.kmallocInit { s₃ with vm := vm } k.slabs = some (s₄, slabs))
    (hsync : vmBootSync s₄.vm pdb = some pdb')
    (habove : RootAbove s₄.info.kernelTop k.memory) :
    ∃ slab rest, Booted k ⟨s₄, pdb', hash, slabs, apic⟩ slab rest := by
  unfold KernelStart.Fits at hfits
  have hsize := @pageDbCalcSize_le k.info.mmapTop (by omega)
  obtain ⟨hok₁, hinfo₁, hblocks₁⟩ := hok.fbConsInit hfb hfbCons
  rw [← hinfo₁] at hslack hmmap
  rw [← hblocks₁] at hblocks
  -- the page database
  obtain ⟨hok₂, htook₂, rfl⟩ := hok₁.vmPageInit (by rw [hslack, hmmap]; omega) hpage
  have halign₂ := alignUp_le s₁.info.kernelSlack 16
  have hslack₂ := htook₂.slack
  rw [hmmap] at hslack₂ hhash hsync
  -- the page hash
  have hnum : (pageDbInit k.pdb k.info.mmapTop s₂.info.kernelTop).numPages =
      pageDbNumPages k.info.mmapTop := rfl
  obtain ⟨hok₃, htook₃, hle₃, hempty⟩ := hok₂.vmHashInit (by rw [hnum]; omega) hhash
  rw [hnum] at hle₃
  have halign₃ := alignUp_le s₂.info.kernelSlack 16
  have hslack₃ := htook₃.slack
  have hbytes : hash.pageHash.size * sizeofUintptr = 8 * hash.pageHash.size := Nat.mul_comm _ _
  -- the tables of the firmware, which are above the kernel, and the slab
  have halign₄ := alignUp_le s₃.info.kernelSlack (2 ^ 21)
  have hpage2m : page2mSize = 2 ^ 21 := rfl
  have htop : s₃.info.kernelTop ≤ s₄.info.kernelTop := by
    obtain ⟨⟨slabs₁, info, vm₁⟩, hslabs, heq⟩ := Option.map_eq_some_iff.mp hkmalloc
    obtain ⟨rfl, -⟩ := Prod.mk.inj heq
    obtain ⟨p, halloc, -⟩ := kmallocInit_spec hzero hslabs
    obtain ⟨rfl, -⟩ := kernelSlackAlloc_cases halloc
    exact slackKernelTop_le hok₃.boot.top_le (by rw [hpage2m]; omega)
  have hok' := hok₃.acpiInit (habove.mono htop) hacpi
  obtain ⟨hok₄, htook₄, hslabs⟩ := hok'.kmallocInit hzero (by dsimp only; omega) hkmalloc
  have hblocks₄ := htook₄.blocks
  have hblocks₃ := htook₃.blocks
  have hblocks₂ := htook₂.blocks
  dsimp only at hblocks₄ hslabs
  rw [hblocks] at hblocks₂
  rw [hblocks₂] at hblocks₃
  rw [hblocks₃] at hblocks₄
  refine ⟨_, _, ⟨hok₄, hblocks₄, ?_, hempty, hslabs, s₂.info.kernelTop, ?_, ?_, hsync⟩⟩
  · dsimp only
    rw [hblocks₄, hmmap]
    rfl
  · have hbounds := hok₂.slack.bounds
    have hpos := hok₂.slack.kernelEnd_pos
    omega
  · exact htook₃.top.trans htop

/-- `kernel_main` up to `vm_boot_sync`, if it gets there. -/
theorem kernelMain_booted (hend : 0 < k.kernelEnd) (hfits : k.Fits)
    (hfb : k.fb.addr + u32 (k.fb.pitch * k.fb.height) < 2 ^ 47)
    (hzero : ∀ h, k.slabs.links.cell (.head h) = 0) (hmain : kernelMain k = some m)
    (habove : RootAbove m.slack.info.kernelTop k.memory) :
    ∃ slab rest, Booted k m slab rest := by
  have hle : k.kernelEnd ≤ 2 ^ 30 := by
    unfold KernelStart.Fits at hfits
    omega
  have hok := kernelOk_start k.info k.mem ⟨hend, hle⟩
  rw [kernelMain] at hmain
  simp only [Option.bind_eq_some_iff, Option.map_eq_some_iff, Prod.exists] at hmain
  obtain ⟨s₁, hfbCons, s₂, pdb₂, hpage, s₃, hash, hhash, found, vm, apic, hacpi, s₄, slabs,
    hkmalloc, pdb, hsync, rfl⟩ := hmain
  have hacpi' : Acpi.acpiInit k.memory s₃.vm k.apic = .ok (found, vm, apic) := by
    cases hcase : Acpi.acpiInit k.memory s₃.vm k.apic with
    | error e => simp [hcase, Except.toOption] at hacpi
    | ok r => simpa [hcase, Except.toOption] using hacpi
  exact kernelMain_stages hok rfl rfl rfl hfits hfb hzero hfbCons hpage hhash hacpi' hkmalloc hsync
    habove

end Boot

end Smor
