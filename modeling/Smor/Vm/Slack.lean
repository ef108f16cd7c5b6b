import Smor.Kernel
import Smor.Vm.BootRanges

/-!
# The slack memory behind the kernel image

`kernel_slack_alloc` moves a bump pointer upwards from the end of the image and maps
further 2MB pages at `KERNEL_BASE` when the pointer passes `kernel_top`. The three of them, the
pointer, the mapped top, and the tables, move together: this is the invariant of every
sequence of allocations that stays below 2GB.
-/

namespace Smor.Vm

open Smor.Lib

/-- A block that `kernel_slack_alloc` has handed out: its physical address, the address that
was returned, and what was asked for. -/
structure SlackBlock where
  slack : ℕ
  vaddr : ℕ
  size : ℕ
  align : ℕ
  deriving DecidableEq

/-- The physical addresses of a block. -/
def SlackBlock.Holds (b : SlackBlock) (p : ℕ) : Prop := b.slack ≤ p ∧ p < b.slack + b.size

/-- Two blocks have no address in common. -/
def SlackBlock.Apart (b c : SlackBlock) : Prop := ∀ p, b.Holds p → ¬c.Holds p

/-- The boot information, the tables, and the blocks handed out so far, the latest first. -/
structure SlackRun where
  info : BootInfo
  vm : BootVm
  blocks : List SlackBlock

/-- The state after `kernel_init` on the tables of `boot.S`. -/
def SlackRun.start (info : BootInfo) (mem : ℕ → ℕ) (kernelEnd : ℕ) : SlackRun :=
  ⟨kernelInit info kernelEnd, bootTables mem kernelEnd, []⟩

/-- A call of `kernel_slack_alloc` with a size and an alignment; `none` if the pool of boot
pages is exhausted. -/
def SlackRun.step (s : SlackRun) (call : ℕ × ℕ) : Option SlackRun :=
  (kernelSlackAlloc s.info s.vm call.1 call.2).map fun (vaddr, info, vm) =>
    ⟨info, vm, ⟨alignUp s.info.kernelSlack call.2, vaddr, call.1, call.2⟩ :: s.blocks⟩

/-- The alignment is a power of two, and the block ends at or below 2GB. -/
def SlackRequest (s : SlackRun) (call : ℕ × ℕ) : Prop :=
  (∃ shift < 64, call.2 = 2 ^ shift) ∧ alignUp s.info.kernelSlack call.2 + call.1 ≤ 2 ^ 31

instance (s : SlackRun) (call : ℕ × ℕ) : Decidable (SlackRequest s call) :=
  inferInstanceAs (Decidable (_ ∧ _))

section Addresses

/-- `KERNEL_VADDR` adds the base to an address below 2GB. -/
theorem kernelVaddr_eq {x : ℕ} (hx : x < 2 ^ 31) : kernelVaddr x = kernelBase + x := by
  have hbase : kernelBase = 2 ^ 31 * (2 ^ 33 - 1) := by decide
  rw [kernelVaddr, Nat.or_comm, hbase, ← Nat.two_pow_add_eq_or_of_lt hx]

/-- `ALIGN_UP` yields the next multiple when nothing wraps around. -/
theorem alignUp_spec {addr shift : ℕ} (hshift : shift < 64) (haddr : addr ≤ 2 ^ 31) :
    2 ^ shift ∣ alignUp addr (2 ^ shift) ∧ addr ≤ alignUp addr (2 ^ shift) := by
  have hpos : 0 < 2 ^ shift := Nat.two_pow_pos shift
  have hle : 2 ^ shift ≤ 2 ^ 63 := Nat.pow_le_pow_right (by decide) (by omega)
  have hwrap : u64 (addr + 2 ^ shift - 1) = addr + 2 ^ shift - 1 := by
    unfold u64
    omega
  unfold alignUp
  rw [hwrap]
  refine ⟨Nat.dvd_mul_left _ _, ?_⟩
  have hdiv := Nat.div_add_mod (addr + 2 ^ shift - 1) (2 ^ shift)
  have hmod := Nat.mod_lt (addr + 2 ^ shift - 1) hpos
  rw [Nat.mul_comm] at hdiv
  omega

/-- `PAGE_2M_ROUND` below 2GB. -/
theorem page2mRound_eq {x : ℕ} (hx : x ≤ 2 ^ 31) :
    page2mRound x = (x + (2 ^ 21 - 1)) / 2 ^ 21 * 2 ^ 21 := by
  simp only [page2mRound, page2mSize, page2mShift, u64]
  rw [Nat.mod_eq_of_lt (by omega)]

/-- The tables of `boot.S` translate the rounded image at `KERNEL_BASE`. -/
theorem translate_bootTables {mem : ℕ → ℕ} {kernelEnd p : ℕ} (hend : kernelEnd ≤ 2 ^ 30)
    (hp : p < page2mRound kernelEnd) :
    translate (bootTables mem kernelEnd) (kernelVaddr p) = some p := by
  rw [page2mRound_eq (by omega)] at hp
  have hbase : kernelBase = 0xFFFFFFFF80000000 := rfl
  rw [kernelVaddr_eq (by omega)]
  have hpml : pmlIndex (kernelBase + p) = 511 := by
    rw [pmlIndex_eq]
    omega
  have hpdp : pdpIndex (kernelBase + p) = 510 := by
    rw [pdpIndex_eq]
    omega
  have hpage : page2mIndex (kernelBase + p) = p / 2 ^ 21 := by
    rw [page2mIndex_eq]
    omega
  rw [translate, hpml, hpdp, hpage, bootLookup, bootDir,
    bootNext_bootTables hend (by decide) (by decide) (by decide) (by decide),
    if_pos (by decide), Option.bind_some,
    bootNext_bootTables hend (by decide) (by decide) (by decide) (by decide),
    if_neg (by decide), if_neg (by decide), if_pos (by decide), Option.bind_some,
    bootNext_bootTables_pd hend (by omega), if_pos (by omega), Option.map_some, Option.some.injEq]
  simp only [page2mSize, page2mShift]
  omega

end Addresses

section Invariant

variable {kernelEnd : ℕ} {s t : SlackRun}

/-- The pointer, the mapped top, the tables, and the blocks agree. -/
structure SlackOk (kernelEnd : ℕ) (s : SlackRun) : Prop where
  kernelEnd_eq : s.info.kernelEnd = kernelEnd
  kernelEnd_pos : 0 < kernelEnd
  /-- The pointer lies between the end of the image and the mapped top. -/
  bounds : kernelEnd ≤ s.info.kernelSlack ∧ s.info.kernelSlack ≤ s.info.kernelTop ∧
    s.info.kernelTop ≤ 2 ^ 31
  /-- The mapped top is a page boundary. -/
  top_aligned : s.info.kernelTop % 2 ^ 21 = 0
  tables : TablesOk s.vm
  /-- Everything below the mapped top is mapped at `KERNEL_BASE`. -/
  mapped : ∀ p < s.info.kernelTop, translate s.vm (kernelVaddr p) = some p
  /-- Every block lies between the end of the image and the pointer, and is aligned. -/
  block : ∀ b ∈ s.blocks, b.vaddr = kernelVaddr b.slack ∧ b.align ∣ b.slack ∧ b.align ∣ b.vaddr ∧
    kernelEnd ≤ b.slack ∧ b.slack + b.size ≤ s.info.kernelSlack
  /-- A later block starts behind every earlier one. -/
  apart : s.blocks.Pairwise SlackBlock.Apart

/-- The state after `kernel_init` meets the invariant. -/
theorem slackOk_start (info : BootInfo) (mem : ℕ → ℕ)
    (hend : 0 < kernelEnd ∧ kernelEnd ≤ 2 ^ 30) :
    SlackOk kernelEnd (SlackRun.start info mem kernelEnd) := by
  have htop : (SlackRun.start info mem kernelEnd).info.kernelTop = page2mRound kernelEnd := rfl
  have hround := page2mRound_eq (show kernelEnd ≤ 2 ^ 31 by omega)
  constructor
  · rfl
  · exact hend.1
  · rw [htop, hround]
    change kernelEnd ≤ kernelEnd ∧ kernelEnd ≤ _ ∧ _
    omega
  · rw [htop, hround]
    omega
  · exact bootTables_ok mem hend.2
  · intro p hp
    exact translate_bootTables hend.2 hp
  · intro b hb
    simp [SlackRun.start] at hb
  · exact List.Pairwise.nil

/-- What a call of `kernel_slack_alloc` does: it moves the pointer, and it maps further pages if
the pointer passes the mapped top. -/
theorem kernelSlackAlloc_cases {info info' : BootInfo} {vm vm' : BootVm} {size align addr : ℕ}
    (h : kernelSlackAlloc info vm size align = some (addr, info', vm')) :
    info' = { info with
      kernelTop := slackKernelTop info size align
      kernelSlack := slackAllocTop info size align } ∧
    ((info.kernelTop < slackAllocTop info size align ∧
      vmBootMapRange vm (kernelVaddr info.kernelTop) info.kernelTop
        (page2mRound (slackAllocTop info size align - info.kernelTop)) = some vm') ∨
    (slackAllocTop info size align ≤ info.kernelTop ∧ vm' = vm)) := by
  simp only [kernelSlackAlloc] at h
  split_ifs at h with hgrow
  · obtain ⟨vm₁, hmap, heq⟩ := Option.map_eq_some_iff.mp h
    simp only [Prod.mk.injEq] at heq
    obtain ⟨-, rfl, rfl⟩ := heq
    exact ⟨rfl, Or.inl ⟨hgrow, hmap⟩⟩
  · simp only [Option.some.injEq, Prod.mk.injEq] at h
    obtain ⟨-, rfl, rfl⟩ := h
    exact ⟨rfl, Or.inr ⟨by omega, rfl⟩⟩

/-- A block below 2GB lies behind the memory that was handed out before. -/
theorem kernelSlackAlloc_block {info info' : BootInfo} {vm vm' : BootVm} {size shift addr : ℕ}
    (h : kernelSlackAlloc info vm size (2 ^ shift) = some (addr, info', vm')) (hshift : shift < 32)
    (hslack : info.kernelSlack ≤ 2 ^ 31) (hsize : 0 < size)
    (hroom : alignUp info.kernelSlack (2 ^ shift) + size ≤ 2 ^ 31) :
    kernelBase + info.kernelSlack ≤ addr ∧ addr + size = kernelBase + info'.kernelSlack ∧
      2 ^ shift ∣ addr ∧ info'.kernelSlack ≤ 2 ^ 31 := by
  obtain ⟨hdvd, hle⟩ := alignUp_spec (show shift < 64 by omega) hslack
  obtain ⟨hinfo, -⟩ := kernelSlackAlloc_cases h
  have haddr := kernelSlackAlloc_addr h
  have haligned := (kernelVaddr_aligned (show shift ≤ 31 by omega) hdvd (alignUp_lt _ _)).1
  rw [← haddr] at haligned
  rw [kernelVaddr_eq (by omega)] at haddr
  have hnew : info'.kernelSlack = alignUp info.kernelSlack (2 ^ shift) + size := by
    rw [hinfo]
    dsimp only
    rw [slackAllocTop, u64, Nat.mod_eq_of_lt (by omega)]
  exact ⟨by omega, by omega, haligned, by omega⟩

/-- Mapping the pages from the mapped top on extends the part that is mapped at
`KERNEL_BASE`. -/
theorem TablesOk.mapSlack {vm vm' : BootVm} {top size : ℕ} (hok : TablesOk vm)
    (htop : top % 2 ^ 21 = 0) (hsize : size % 2 ^ 21 = 0) (hlt : top < 2 ^ 31)
    (hle : top + size ≤ 2 ^ 31)
    (hmapped : ∀ p < top, translate vm (kernelVaddr p) = some p)
    (h : vmBootMapRange vm (kernelVaddr top) top size = some vm') :
    TablesOk vm' ∧ ∀ p < top + size, translate vm' (kernelVaddr p) = some p := by
  have hbase : kernelBase = 0xFFFFFFFF80000000 := rfl
  rw [kernelVaddr_eq hlt] at h
  have hrange : CanonicalRange (kernelBase + top) size := by
    unfold CanonicalRange
    omega
  have hmod : (kernelBase + top) % page2mSize = top % page2mSize := by
    simp only [page2mSize, page2mShift]
    omega
  obtain ⟨hnew, hframe⟩ := hok.mapRange hrange (by omega) hmod h
  refine ⟨vmBootMapPages_ok hok h, fun p hp => ?_⟩
  by_cases hold : p < top
  · -- an address that was mapped before lies below the new pages
    rw [← hmapped p hold, kernelVaddr_eq (by omega)]
    apply hframe
    · unfold Canonical
      omega
    · simp only [InRounded, page2mSize, page2mShift]
      omega
    · intro u hu halias
      simp only [InRounded, page2mSize, page2mShift] at hu
      unfold KernelAlias at halias
      omega
  · have hpage := hnew (p - top) (by omega)
    rw [kernelVaddr_eq (by omega), show kernelBase + p = kernelBase + top + (p - top) by omega,
      hpage, Option.some.injEq]
    omega

/-- An allocation keeps the invariant. -/
theorem SlackOk.step (h : SlackOk kernelEnd s) {call : ℕ × ℕ} (hguard : SlackRequest s call)
    (hstep : s.step call = some t) : SlackOk kernelEnd t := by
  obtain ⟨size, align⟩ := call
  obtain ⟨⟨shift, hshift, halign⟩, hroom⟩ := hguard
  dsimp only at halign hroom
  subst halign
  obtain ⟨⟨vaddr, info', vm'⟩, halloc, rfl⟩ := Option.map_eq_some_iff.mp hstep
  dsimp only at halloc ⊢
  have hvaddr := kernelSlackAlloc_addr halloc
  obtain ⟨hlow, hslack, htop⟩ := h.bounds
  have htop_aligned := h.top_aligned
  have hpos := h.kernelEnd_pos
  obtain ⟨hdvd, hge⟩ := alignUp_spec hshift (show s.info.kernelSlack ≤ 2 ^ 31 by omega)
  obtain ⟨hinfo, hcase⟩ := kernelSlackAlloc_cases halloc
  -- the top of the block, without wrap-around
  have halloc_top : slackAllocTop s.info size (2 ^ shift) =
      alignUp s.info.kernelSlack (2 ^ shift) + size := by
    rw [slackAllocTop, u64, Nat.mod_eq_of_lt (by omega)]
  have hnew_slack : info'.kernelSlack = alignUp s.info.kernelSlack (2 ^ shift) + size := by
    rw [hinfo, ← halloc_top]
  -- the new mapped top, and the tables up to it
  have hgrown : s.info.kernelTop ≤ info'.kernelTop ∧ info'.kernelSlack ≤ info'.kernelTop ∧
      info'.kernelTop ≤ 2 ^ 31 ∧ info'.kernelTop % 2 ^ 21 = 0 ∧ TablesOk vm' ∧
      ∀ p < info'.kernelTop, translate vm' (kernelVaddr p) = some p := by
    rw [hnew_slack]
    rw [halloc_top] at hcase
    rcases hcase with ⟨hgrow, hmap⟩ | ⟨hfits, rfl⟩
    · have hround := page2mRound_eq (show alignUp s.info.kernelSlack (2 ^ shift) + size -
        s.info.kernelTop ≤ 2 ^ 31 by omega)
      have hnew_top : info'.kernelTop = s.info.kernelTop +
          page2mRound (alignUp s.info.kernelSlack (2 ^ shift) + size - s.info.kernelTop) := by
        rw [hinfo]
        dsimp only
        rw [slackKernelTop, halloc_top, if_pos hgrow, u64, Nat.mod_eq_of_lt (by omega)]
      obtain ⟨hok', hmapped'⟩ := h.tables.mapSlack htop_aligned (by omega) (by omega) (by omega)
        h.mapped hmap
      rw [hnew_top]
      exact ⟨by omega, by omega, by omega, by omega, hok', hmapped'⟩
    · have hnew_top : info'.kernelTop = s.info.kernelTop := by
        rw [hinfo]
        dsimp only
        rw [slackKernelTop, halloc_top, if_neg (by omega)]
      rw [hnew_top]
      exact ⟨le_refl _, hfits, htop, htop_aligned, h.tables, h.mapped⟩
  obtain ⟨-, hbelow, htop', haligned', hok', hmapped'⟩ := hgrown
  have hblock : 2 ^ shift ∣ vaddr := by
    -- the alignment is at most the address, so that it divides the base as well
    have hle : 2 ^ shift ≤ 2 ^ 31 := by
      have := Nat.le_of_dvd (by omega) hdvd
      omega
    have hshift' : shift ≤ 31 := (Nat.pow_le_pow_iff_right (by decide)).mp hle
    rw [hvaddr]
    exact (kernelVaddr_aligned hshift' hdvd (alignUp_lt _ _)).1
  constructor
  · rw [hinfo]
    exact h.kernelEnd_eq
  · exact hpos
  · exact ⟨by rw [hnew_slack]; omega, hbelow, htop'⟩
  · exact haligned'
  · exact hok'
  · exact hmapped'
  · intro b hb
    rcases List.mem_cons.mp hb with rfl | hb
    · exact ⟨hvaddr, hdvd, hblock, by dsimp only; omega, hnew_slack.ge⟩
    · obtain ⟨h₁, h₂, h₃, h₄, h₅⟩ := h.block b hb
      exact ⟨h₁, h₂, h₃, h₄, by rw [hnew_slack]; omega⟩
  · apply List.Pairwise.cons _ h.apart
    intro b hb p hnew hold
    have := (h.block b hb).2.2.2.2
    unfold SlackBlock.Holds at hnew hold
    dsimp only at hnew
    omega

end Invariant

/-- After `kernel_init`, in every state that a sequence of allocations below 2GB reaches without
exhausting the pool of boot pages: every block is aligned as asked, lies between
`kernel_end` and `kernel_top`, and is apart from the others; `kernel_top` is a page boundary; and
the memory up to `kernel_top` is mapped at `KERNEL_BASE`. -/
theorem kernelSlackAlloc_blocks (info : BootInfo) (mem : ℕ → ℕ) {kernelEnd : ℕ}
    (hend : 0 < kernelEnd ∧ kernelEnd ≤ 2 ^ 30) {s : SlackRun}
    (hrun : Reaches SlackRun.step SlackRequest (SlackRun.start info mem kernelEnd) s) :
    s.info.kernelEnd = kernelEnd ∧
    (∀ b ∈ s.blocks, b.vaddr = kernelVaddr b.slack ∧ b.align ∣ b.slack ∧ b.align ∣ b.vaddr ∧
      s.info.kernelEnd ≤ b.slack ∧ b.slack + b.size ≤ s.info.kernelTop) ∧
    s.blocks.Pairwise SlackBlock.Apart ∧
    s.info.kernelTop % page2mSize = 0 ∧
    ∀ p < s.info.kernelTop, translate s.vm (kernelVaddr p) = some p := by
  have hok : SlackOk kernelEnd s := by
    apply hrun.invariant (slackOk_start info mem hend)
    intro s call t hs hguard hstep
    exact hs.step hguard hstep
  refine ⟨hok.kernelEnd_eq, fun b hb => ?_, hok.apart, hok.top_aligned, hok.mapped⟩
  obtain ⟨hvaddr, hslack, halign, hlow, hhigh⟩ := hok.block b hb
  have hbelow := hok.bounds.2.1
  refine ⟨hvaddr, hslack, halign, ?_, by omega⟩
  rw [hok.kernelEnd_eq]
  exact hlow

/-- Behind an image that ends just below 1GB, a block that is aligned to 2MB lies in a new
directory. -/
theorem kernelSlackAlloc_blocks_gigabyte :
    ∃ s, Reaches SlackRun.step SlackRequest
        (SlackRun.start ⟨0, 0, 0, [], 0⟩ (fun _ => 0) 0x3FF00000) s ∧
      s.blocks.map (fun b => (b.slack, b.size)) = [(0x40000000, 0x300000), (0x3FF00000, 0x100)] ∧
      s.info.kernelTop = 0x40400000 ∧
      translate s.vm (kernelVaddr 0x403FFFFF) = some 0x403FFFFF := by
  have hrun : (runOps SlackRun.step SlackRequest
      (SlackRun.start ⟨0, 0, 0, [], 0⟩ (fun _ => 0) 0x3FF00000)
      [(0x100, 16), (0x300000, 0x200000)]).map (fun s =>
        (s.blocks.map (fun b => (b.slack, b.size)), s.info.kernelTop)) =
      some ([(0x40000000, 0x300000), (0x3FF00000, 0x100)], 0x40400000) := by decide +kernel
  obtain ⟨s, hs, hvalue⟩ := Option.map_eq_some_iff.mp hrun
  obtain ⟨hblocks, htop⟩ := Prod.mk.inj hvalue
  have hreach := Reaches.of_runOps hs
  refine ⟨s, hreach, hblocks, htop, ?_⟩
  exact (kernelSlackAlloc_blocks ⟨0, 0, 0, [], 0⟩ (fun _ => 0) (by decide) hreach).2.2.2.2
    0x403FFFFF (by rw [htop]; decide)

end Smor.Vm
