import Smor.KernelMain
import Smor.Vm.HashMap

/-!
# The memory that is in use after the boot

The page database is built before the kernel has taken all of its memory, and `vm_boot_sync`
reserves at last what is mapped by then. So the pages and the objects that are handed out
afterwards are apart from each other and from everything that was set up before. The objects may be
handed out by any calls on any CPUs. `vm_page.c` takes no lock, so the pages are handed out by one
call after the other.
-/

namespace Smor

open Smor.Lib Smor.Vm Smor.Alloc Smor.Acpi

/-- The parts of the memory that are in use. -/
inductive Part where
  | image
  | block (b : SlackBlock)
  | object (o : ℕ × ℕ)
  | page (index : ℕ)

/-- The page database, the pages that `page_db_alloc` has returned and that have not been freed
since, once for each call, and the objects. -/
structure KernelRun (ι : Type) where
  pdb : PageDb
  pages : List ℕ
  objects : SlabSmp ι

/-- A call for a page from its begin to its end, or a step of the calls for objects. -/
inductive KernelOp (ι : Type)
  /-- `page_db_alloc`. -/
  | pageAlloc
  /-- `page_db_free`. -/
  | pageFree (index : ℕ)
  | object (op : SmpOp ι)

namespace KernelRun

variable {ι : Type}

/-- Nothing is handed out. -/
def start (ι : Type) (m : KernelMemory) : KernelRun ι := ⟨m.pdb, [], .start ι m.slabs⟩

/-- One operation. -/
def step [DecidableEq ι] (r : KernelRun ι) : KernelOp ι → Option (KernelRun ι)
  | .pageAlloc => (pageDbAlloc r.pdb).map fun (index, pdb) =>
      { r with pdb := pdb, pages := if index = 0 then r.pages else index :: r.pages }
  | .pageFree index => (pageDbFree r.pdb index).map fun pdb =>
      { r with pdb := pdb, pages := r.pages.erase index }
  | .object op => (r.objects.step slRoot op).map fun objects => { r with objects := objects }

/-- Only pages that are handed out are freed, and the calls for objects keep to their rules. -/
def Allowed (r : KernelRun ι) : KernelOp ι → Prop
  | .pageAlloc => True
  | .pageFree index => index ∈ r.pages
  | .object op => r.objects.Allowed slRoot op

instance [DecidableEq ι] (r : KernelRun ι) (op : KernelOp ι) : Decidable (r.Allowed op) :=
  match op with
  | .pageAlloc => isTrue trivial
  | .pageFree index => inferInstanceAs (Decidable (index ∈ r.pages))
  | .object op => inferInstanceAs (Decidable (r.objects.Allowed slRoot op))

/-- What is in use. The chunks of the latest block are the objects. -/
def Uses (m : KernelMemory) (r : KernelRun ι) : Part → Prop
  | .image => True
  | .block b => b ∈ m.slack.blocks.tail
  | .object o => o.2 ∈ r.objects.live o.1
  | .page index => index ∈ r.pages

/-- The physical addresses of a part. -/
def bytes (m : KernelMemory) (r : KernelRun ι) : Part → Set ℕ
  | .image => Set.Iio m.slack.info.kernelEnd
  | .block b => { p | b.Holds p }
  | .object o => { p | ∃ v ∈ r.objects.st.range o, translate m.slack.vm v = some p }
  | .page index => Set.Ico (index * page2mSize) ((index + 1) * page2mSize)

/-- What the calls keep: the pages that are free or handed out are not mapped, unless there are
none, and the objects lie in the slab at `base`. -/
structure Ok (m : KernelMemory) (base : ℕ) (r : KernelRun ι) : Prop where
  pages : (r.pdb.freeList = 0 ∧ r.pages = []) ∨
    GoodRun (fun page => ¬Vm.Mapped m.slack.vm page) ⟨r.pdb, r.pages.toFinset, ∅⟩
  used : ∀ index ∈ r.pages, r.pdb.flagsOf index = .used
  nodup : r.pages.Nodup
  objects : ∃ geo lay out, SmpOk slRoot base r.objects geo lay out ∧
    (geo slRoot).sizeShift = page2mShift

end KernelRun

section Sharing

variable {ι : Type} {k : KernelStart} {m : KernelMemory} {slab : SlackBlock}
  {rest : List SlackBlock} {r r' : KernelRun ι}

instance (vm : BootVm) (page : ℕ) : Decidable (Vm.Mapped vm page) :=
  inferInstanceAs (Decidable (∃ i < 512, vm.entry bootPml4 i ≠ 0 ∧
    ∃ j < 512, vm.entry (pdirAddr (vm.entry bootPml4 i)) j ≠ 0 ∧
      ∃ k < 512, vm.entry (pdirAddr (vm.entry (pdirAddr (vm.entry bootPml4 i)) j)) k ≠ 0 ∧
        page = u32 (pdirAddr (vm.entry (pdirAddr (vm.entry (pdirAddr (vm.entry bootPml4 i)) j)) k)
          >>> page2mShift)))

/-- A page that the walk finds is a mapped page. -/
theorem mapped_of_bootLookup {vm : BootVm} {i j l a : ℕ} (hi : i < 512) (hj : j < 512)
    (hl : l < 512) (h : bootLookup vm i j l = some a) : Vm.Mapped vm (u32 (a >>> page2mShift)) := by
  have hentry : ∀ {table index next : ℕ}, bootNext vm table index = some next →
      vm.entry table index ≠ 0 ∧ next = pdirAddr (vm.entry table index) := by
    intro table index next hnext
    rw [bootNext] at hnext
    split_ifs at hnext with hpresent
    refine ⟨fun hzero => hpresent ?_, (Option.some.inj hnext).symm⟩
    rw [hzero, Nat.zero_and]
  obtain ⟨pd, hdir, hpt⟩ := Option.bind_eq_some_iff.mp h
  obtain ⟨pdp, hpml, hpd⟩ := Option.bind_eq_some_iff.mp hdir
  obtain ⟨hpmlEntry, rfl⟩ := hentry hpml
  obtain ⟨hpdEntry, rfl⟩ := hentry hpd
  obtain ⟨hptEntry, rfl⟩ := hentry hpt
  exact ⟨i, hi, hpmlEntry, j, hj, hpdEntry, l, hl, hptEntry, rfl⟩

/-- The pages of the kernel are mapped. -/
theorem KernelOk.mapped {kernelEnd p : ℕ} {s : SlackRun} (h : KernelOk kernelEnd s)
    (hp : p < s.info.kernelTop) : Vm.Mapped s.vm (p / page2mSize) := by
  have htop : s.info.kernelTop ≤ 2 ^ 30 := h.boot.top_le
  have hpage : page2mSize = 2 ^ 21 := rfl
  have hbase : kernelBase = 0xFFFFFFFF80000000 := rfl
  obtain ⟨a, hlookup, ha⟩ := Option.map_eq_some_iff.mp (h.slack.mapped p hp)
  rw [kernelVaddr_eq (by omega)] at ha hlookup
  have hmapped := mapped_of_bootLookup (pmlIndex_lt _) (pdpIndex_lt _) (page2mIndex_lt _) hlookup
  rw [hbase, hpage] at ha
  rw [Nat.shiftRight_eq_div_pow, page2mShift, u32_of_lt (by omega)] at hmapped
  rwa [hpage, show p / 2 ^ 21 = a / 2 ^ 21 by omega]

/-- A page that is not mapped lies above the kernel. -/
theorem KernelOk.page_above {kernelEnd page : ℕ} {s : SlackRun} (h : KernelOk kernelEnd s)
    (hpage : ¬Vm.Mapped s.vm page) : s.info.kernelTop ≤ page * page2mSize := by
  by_contra hlt
  have hmapped := h.mapped (Nat.not_le.mp hlt)
  rw [Nat.mul_div_cancel page (by decide)] at hmapped
  exact hpage hmapped

/-- Nothing is handed out yet. -/
theorem Booted.start (h : Booted k m slab rest)
    (hspare : ∃ page < pageDbNumPages k.info.mmapTop, ¬Vm.Mapped m.slack.vm page) :
    KernelRun.Ok m slab.vaddr (KernelRun.start ι m) := by
  obtain ⟨geo, lay, hslabs, hshift⟩ := h.slabs
  refine ⟨?_, by simp [KernelRun.start], List.nodup_nil, geo, lay, _, smpOk_start hslabs, hshift⟩
  obtain ⟨top, hpos, hle, hsync⟩ := h.pages
  obtain ⟨spare, hlt, hspare⟩ := hspare
  have habove := h.ok.page_above hspare
  have htop : m.slack.info.kernelTop ≤ 2 ^ 30 := h.ok.boot.top_le
  have hnum : pageDbNumReserved top = (top + (2 ^ 21 - 1)) / 2 ^ 21 := by
    simp only [pageDbNumReserved, page2mNum, page2mSize, page2mShift, u32, u64,
      Nat.shiftRight_eq_div_pow]
    omega
  simp only [page2mSize, page2mShift] at habove
  have hinv : SyncInv (pageDbNumPages k.info.mmapTop) (pageDbNumReserved top) spare
      (pageDbInit k.pdb k.info.mmapTop top) :=
    syncInv_pageDbInit (by omega) (by omega) (by omega) hlt
  rcases goodRun_vmBootSync hinv hspare hsync fun i _ _ hmapped => hmapped with hzero | hgood
  · exact Or.inl ⟨hzero, rfl⟩
  · exact Or.inr hgood

/-- A call that hands out a page. A page that was handed out before is not free. -/
theorem KernelRun.Ok.alloc {base index : ℕ} {pdb : PageDb} (h : KernelRun.Ok m base r)
    (halloc : pageDbAlloc r.pdb = some (index, pdb)) :
    KernelRun.Ok m base
      { r with pdb := pdb, pages := if index = 0 then r.pages else index :: r.pages } := by
  rcases pageDbAlloc_cases halloc with ⟨rfl, -, rfl⟩ | ⟨hne, hindex, hfree, rfl⟩
  · rw [if_pos rfl]
    exact h
  rw [if_neg hne]
  have hnew : index ∉ r.pages := by
    intro hmem
    rw [h.used index hmem] at hfree
    cases hfree
  refine ⟨?_, fun i hi => ?_, List.nodup_cons.mpr ⟨hnew, h.nodup⟩, h.objects⟩
  · rcases h.pages with ⟨hzero, -⟩ | hgood
    · exact absurd (hindex.trans hzero) hne
    · have hstep : PageRun.step ⟨r.pdb, r.pages.toFinset, ∅⟩ .alloc =
          some ⟨r.pdb.takeFirst index, (index :: r.pages).toFinset, ∅⟩ := by
        rw [PageRun.step, halloc, Option.map_some, List.toFinset_cons]
        simp only [if_neg hne]
      exact Or.inr (hgood.step (show AllocFreeLive _ .alloc from trivial) hstep)
  · rw [PageDb.takeFirst_flagsOf, Function.update_apply]
    split_ifs with heq
    · rfl
    · exact h.used i ((List.mem_cons.mp hi).resolve_left heq)

/-- A call that takes a page back. -/
theorem KernelRun.Ok.free {base index : ℕ} {pdb : PageDb} (h : KernelRun.Ok m base r)
    (hindex : index ∈ r.pages) (hfree : pageDbFree r.pdb index = some pdb) :
    KernelRun.Ok m base { r with pdb := pdb, pages := r.pages.erase index } := by
  have hpdb := (pageDbFree_eq_some_iff.mp hfree).2.2.2
  refine ⟨?_, fun i hi => ?_, h.nodup.erase index, h.objects⟩
  · rcases h.pages with ⟨-, hnone⟩ | hgood
    · rw [hnone] at hindex
      exact absurd hindex List.not_mem_nil
    · have hout : (r.pages.erase index).toFinset = r.pages.toFinset.erase index := by
        ext i
        rw [List.mem_toFinset, h.nodup.mem_erase_iff, Finset.mem_erase, List.mem_toFinset]
      have hstep : PageRun.step ⟨r.pdb, r.pages.toFinset, ∅⟩ (.free index) =
          some ⟨pdb, (r.pages.erase index).toFinset, ∅⟩ := by
        rw [PageRun.step, hfree, Option.map_some, hout]
      have hlive : AllocFreeLive ⟨r.pdb, r.pages.toFinset, ∅⟩ (.free index) :=
        List.mem_toFinset.mpr hindex
      exact Or.inr (hgood.step hlive hstep)
  · obtain ⟨hne, hi⟩ := h.nodup.mem_erase_iff.mp hi
    rw [hpdb, PageDb.pushFree_flagsOf, Function.update_of_ne hne]
    exact h.used i hi

/-- Calls for pages and objects keep this. -/
theorem KernelRun.Ok.step [DecidableEq ι] {base : ℕ} {op : KernelOp ι}
    (h : KernelRun.Ok m base r) (hcall : r.Allowed op) (hstep : r.step op = some r') :
    KernelRun.Ok m base r' := by
  cases op with
  | pageAlloc =>
    obtain ⟨⟨index, pdb⟩, halloc, rfl⟩ := Option.map_eq_some_iff.mp hstep
    exact h.alloc halloc
  | pageFree index =>
    obtain ⟨pdb, hfree, rfl⟩ := Option.map_eq_some_iff.mp hstep
    exact h.free hcall hfree
  | object op =>
    obtain ⟨objects, hobjects, rfl⟩ := Option.map_eq_some_iff.mp hstep
    obtain ⟨geo, lay, out, hok, hshift⟩ := h.objects
    obtain ⟨geo', lay', out', hok', hroot⟩ := hok.step hcall hobjects
    exact ⟨h.pages, h.used, h.nodup, geo', lay', out', hok', hroot ▸ hshift⟩

/-- The pages that are handed out are not mapped. -/
theorem KernelRun.Ok.not_mapped {base index : ℕ} (h : KernelRun.Ok m base r)
    (hindex : index ∈ r.pages) : ¬Vm.Mapped m.slack.vm index := by
  rcases h.pages with ⟨-, hnone⟩ | hgood
  · rw [hnone] at hindex
    exact absurd hindex List.not_mem_nil
  · exact (hgood.out_good index (List.mem_toFinset.mpr hindex)).2

/-- An object is mapped, at the addresses of the slab. -/
theorem Booted.object_mapped (h : Booted k m slab rest) (hr : KernelRun.Ok m slab.vaddr r)
    {o : ℕ × ℕ} (ho : o.2 ∈ r.objects.live o.1) {v : ℕ} (hv : v ∈ r.objects.st.range o) :
    ∃ p, slab.Holds p ∧ v = kernelVaddr p ∧ translate m.slack.vm v = some p := by
  obtain ⟨geo, lay, out, hok, hshift⟩ := hr.objects
  obtain ⟨hlow, hhigh⟩ := hok.range_subset ho hv
  obtain ⟨hvaddr, -, -, -, hend⟩ := h.ok.slack.block slab (by rw [h.blocks]; simp)
  have hsize : slab.size = page2mSize := by
    have hsizes := h.sizes
    rw [h.blocks, List.map_cons, List.cons.injEq] at hsizes
    exact hsizes.1
  have hbounds := h.ok.slack.bounds
  have htop : m.slack.info.kernelTop ≤ 2 ^ 30 := h.ok.boot.top_le
  rw [hshift] at hhigh
  change v < slab.vaddr + page2mSize at hhigh
  rw [hvaddr, kernelVaddr_eq (by omega)] at hlow hhigh
  have hv : kernelVaddr (v - kernelBase) = v := by
    rw [kernelVaddr_eq (by omega)]
    omega
  refine ⟨v - kernelBase, ⟨by omega, by omega⟩, hv.symm, ?_⟩
  have hmapped := h.ok.slack.mapped (v - kernelBase) (by omega)
  rwa [hv] at hmapped

/-- The addresses of an object are those of the slab. -/
theorem Booted.object_bytes (h : Booted k m slab rest) (hr : KernelRun.Ok m slab.vaddr r)
    {o : ℕ × ℕ} (ho : o.2 ∈ r.objects.live o.1) {p : ℕ} (hp : p ∈ r.bytes m (.object o)) :
    slab.Holds p ∧ kernelVaddr p ∈ r.objects.st.range o := by
  obtain ⟨v, hv, htranslate⟩ := hp
  obtain ⟨q, hholds, rfl, hq⟩ := h.object_mapped hr ho hv
  obtain rfl := Option.some.inj (hq.symm.trans htranslate)
  exact ⟨hholds, hv⟩

/-- What is not a page that is handed out lies below the top of the kernel. -/
theorem Booted.bytes_lt (h : Booted k m slab rest) (hr : KernelRun.Ok m slab.vaddr r) {x : Part}
    (hx : r.Uses m x) (hpage : ∀ index, x ≠ .page index) {p : ℕ} (hp : p ∈ r.bytes m x) :
    p < m.slack.info.kernelTop := by
  have hbounds := h.ok.slack.bounds
  have hkernel := h.ok.slack.kernelEnd_eq
  have hblock : ∀ b ∈ m.slack.blocks, b.Holds p → p < m.slack.info.kernelTop := by
    intro b hb hholds
    obtain ⟨-, -, -, -, hend⟩ := h.ok.slack.block b hb
    have hlt := hholds.2
    omega
  cases x with
  | image =>
    change p < m.slack.info.kernelEnd at hp
    omega
  | block b => exact hblock b (List.mem_of_mem_tail hx) hp
  | object o => exact hblock slab (by rw [h.blocks]; simp) (h.object_bytes hr hx hp).1
  | page index => exact absurd rfl (hpage index)

/-- A block or an object lies behind the image. -/
theorem Booted.image_le (h : Booted k m slab rest) (hr : KernelRun.Ok m slab.vaddr r) {x : Part}
    (hx : r.Uses m x) (hne : x ≠ .image) (hpage : ∀ index, x ≠ .page index) {p : ℕ}
    (hp : p ∈ r.bytes m x) : m.slack.info.kernelEnd ≤ p := by
  have hkernel := h.ok.slack.kernelEnd_eq
  have hblock : ∀ b ∈ m.slack.blocks, b.Holds p → m.slack.info.kernelEnd ≤ p := by
    intro b hb hholds
    obtain ⟨-, -, -, hstart, -⟩ := h.ok.slack.block b hb
    have hle := hholds.1
    omega
  cases x with
  | image => exact absurd rfl hne
  | block b => exact hblock b (List.mem_of_mem_tail hx) hp
  | object o => exact hblock slab (by rw [h.blocks]; simp) (h.object_bytes hr hx hp).1
  | page index => exact absurd rfl (hpage index)

/-- No address belongs to two parts that are in use. -/
theorem Booted.disjoint (h : Booted k m slab rest) (hr : KernelRun.Ok m slab.vaddr r) {x y : Part}
    (hx : r.Uses m x) (hy : r.Uses m y) (hne : x ≠ y) :
    Disjoint (r.bytes m x) (r.bytes m y) := by
  -- the blocks are apart from each other and from the slab
  have happart : (slab :: rest).Pairwise SlackBlock.Apart := h.blocks ▸ h.ok.slack.apart
  have hrest : ∀ b, r.Uses m (.block b) → b ∈ rest := by
    intro b hb
    rw [KernelRun.Uses, h.blocks, List.tail_cons] at hb
    exact hb
  have hpages : ∀ index, r.Uses m (.page index) → ∀ z, r.Uses m z → z ≠ .page index →
      Disjoint (r.bytes m (.page index)) (r.bytes m z) := by
    intro index hindex z hz hzne
    have habove := h.ok.page_above (hr.not_mapped hindex)
    rw [Set.disjoint_left]
    rintro p ⟨hlow, hhigh⟩ hp
    by_cases hpage : ∀ index', z ≠ .page index'
    · have hlt := h.bytes_lt hr hz hpage hp
      omega
    · push Not at hpage
      obtain ⟨index', rfl⟩ := hpage
      obtain ⟨hlow', hhigh'⟩ := hp
      have heq : index' = index := by
        simp only [page2mSize, page2mShift] at hlow hhigh hlow' hhigh'
        omega
      exact hzne (heq ▸ rfl)
  have himage : ∀ z, r.Uses m z → z ≠ .image → (∀ index, z ≠ .page index) →
      Disjoint (r.bytes m .image) (r.bytes m z) := by
    intro z hz hzne hpage
    rw [Set.disjoint_left]
    intro p hlt hp
    have hle := h.image_le hr hz hzne hpage hp
    change p < m.slack.info.kernelEnd at hlt
    omega
  have hobject : ∀ b, r.Uses m (.block b) → ∀ o, r.Uses m (.object o) →
      Disjoint (r.bytes m (.object o)) (r.bytes m (.block b)) := by
    intro b hb o ho
    rw [Set.disjoint_left]
    intro p hp hholds
    exact (List.pairwise_cons.mp happart).1 b (hrest b hb) p (h.object_bytes hr ho hp).1 hholds
  cases x with
  | image =>
    by_cases hpage : ∃ index, y = .page index
    · obtain ⟨index, rfl⟩ := hpage
      exact (hpages index hy .image hx hne).symm
    · exact himage y hy hne.symm fun index heq => hpage ⟨index, heq⟩
  | page index => exact hpages index hx y hy hne.symm
  | block b =>
    cases y with
    | image => exact (himage (.block b) hx hne (by simp)).symm
    | page index => exact (hpages index hy (.block b) hx hne).symm
    | object o => exact (hobject b hx o hy).symm
    | block c =>
      have hbc : b ≠ c := fun heq => hne (heq ▸ rfl)
      have hsymm : Std.Symm SlackBlock.Apart := ⟨fun b c hbc p hc hb => hbc p hb hc⟩
      have hpair := (List.pairwise_cons.mp happart).2
      have hblocks := hpair.forall (hrest b hx) (hrest c hy) hbc
      rw [Set.disjoint_left]
      exact fun p hb hc => hblocks p hb hc
  | object o =>
    cases y with
    | image => exact (himage (.object o) hx hne (by simp)).symm
    | page index => exact (hpages index hy (.object o) hx hne).symm
    | block b => exact hobject b hy o hx
    | object o' =>
      obtain ⟨geo, lay, out, hok, -⟩ := hr.objects
      have hranges := hok.disjoint hx hy fun heq => hne (heq ▸ rfl)
      rw [Set.disjoint_left]
      intro p hp hp'
      exact Set.disjoint_left.mp hranges (h.object_bytes hr hx hp).2 (h.object_bytes hr hy hp').2

/-- After `kernel_main` has set up its memory, in every state that calls for pages, one after the
other, and calls for objects on any number of CPUs lead to: no page is handed out twice, no
physical address belongs to two of the image, the page database, the buckets of the page hash, the
objects and the pages that are handed out, every object is mapped, and no page that is handed out
is. -/
theorem kernelMain_apart [DecidableEq ι] (hend : 0 < k.kernelEnd) (hfits : k.Fits)
    (hfb : k.fb.addr + u32 (k.fb.pitch * k.fb.height) < 2 ^ 47)
    (hzero : ∀ h, k.slabs.links.cell (.head h) = 0) (hmain : kernelMain k = some m)
    (habove : RootAbove m.slack.info.kernelTop k.memory)
    (hspare : ∃ page < pageDbNumPages k.info.mmapTop, ¬Vm.Mapped m.slack.vm page)
    (hrun : Reaches KernelRun.step KernelRun.Allowed (KernelRun.start ι m) r) :
    m.slack.blocks.map SlackBlock.size =
      [page2mSize, m.hash.pageHash.size * sizeofUintptr, pageDbCalcSize k.info.mmapTop] ∧
    r.pages.Nodup ∧
    (∀ x y, r.Uses m x → r.Uses m y → x ≠ y → Disjoint (r.bytes m x) (r.bytes m y)) ∧
    (∀ o : ℕ × ℕ, o.2 ∈ r.objects.live o.1 → ∀ v ∈ r.objects.st.range o,
      (translate m.slack.vm v).isSome) ∧
    ∀ index ∈ r.pages, ¬Vm.Mapped m.slack.vm index := by
  obtain ⟨slab, rest, hbooted⟩ := kernelMain_booted hend hfits hfb hzero hmain habove
  have hok : KernelRun.Ok m slab.vaddr r :=
    hrun.invariant (hbooted.start hspare) fun _ _ _ h hcall hstep => h.step hcall hstep
  refine ⟨hbooted.sizes, hok.nodup, fun x y hx hy hne => hbooted.disjoint hok hx hy hne,
    fun o ho v hv => ?_, fun index hindex => hok.not_mapped hindex⟩
  obtain ⟨p, -, -, htranslate⟩ := hbooted.object_mapped hok ho hv
  rw [htranslate]
  rfl

end Sharing

/-- A machine with 16MB of memory and a framebuffer in it, a kernel of 1MB, and the RSDT at
0x3FFE0000. -/
def smallStart : KernelStart where
  info := ⟨0, 0, 0, [], 0x1000000⟩
  mem _ := 0
  kernelEnd := 0x100000
  fb := ⟨0xC00000, 4096, 512⟩
  memory := highFirmware
  apic := noApic
  pdb := .blank
  hash := .fourBuckets
  buckets _ := 0
  slabs := .blank

/-- Two pages, the first of which is freed and taken again, and an object of 512 bytes. -/
def smallOps : List (KernelOp Bool) :=
  [.pageAlloc, .pageAlloc, .object (.init 6 kmallocChunkSize 512), .object (.alloc false 6)] ++
    List.replicate 7 (.object (.go false)) ++ [.pageFree 2, .pageAlloc]

/-- The pages behind the kernel and an object of that list. -/
theorem kernelMain_apart_16mb :
    ∃ (m : KernelMemory) (r : KernelRun Bool), kernelMain smallStart = some m ∧
      r.pages = [2, 3] ∧ 0xFFFFFFFF80204200 ∈ r.objects.live 6 ∧ r.pages.Nodup ∧
      Disjoint (r.bytes m (.page 2)) (r.bytes m (.object (6, 0xFFFFFFFF80204200))) := by
  have hall : ((kernelMain smallStart).bind fun m =>
      (runOps KernelRun.step KernelRun.Allowed (KernelRun.start Bool m) smallOps).map fun r =>
        (m.slack.info.kernelTop, decide (Vm.Mapped m.slack.vm 2), r.pages,
          r.objects.live 6)) = some (0x400000, false, [2, 3], [0xFFFFFFFF80204200]) := by
    decide +kernel
  obtain ⟨m, hmain, hrest⟩ := Option.bind_eq_some_iff.mp hall
  obtain ⟨r, hrun, hvalues⟩ := Option.map_eq_some_iff.mp hrest
  simp only [Prod.mk.injEq, decide_eq_false_iff_not] at hvalues
  obtain ⟨htop, hspare, hpages, hlive⟩ := hvalues
  have hfound : foundRoot highFirmware = some (.rsdt, 0x3FFE0000) := by decide +kernel
  have hlength : tableLength highFirmware 0x3FFE0000 = 36 := by decide +kernel
  have habove : RootAbove m.slack.info.kernelTop smallStart.memory := by
    intro root table h
    rw [smallStart, hfound, Option.some.injEq, Prod.mk.injEq] at h
    obtain ⟨-, rfl⟩ := h
    rw [smallStart, hlength, htop]
    decide +kernel
  have hpage : 2 ∈ r.pages := by
    rw [hpages]
    exact List.mem_cons_self
  have hmem : 0xFFFFFFFF80204200 ∈ r.objects.live 6 := by
    rw [hlive]
    exact List.mem_singleton_self _
  have hfits : smallStart.Fits := by
    unfold KernelStart.Fits
    decide +kernel
  obtain ⟨-, hnodup, hapart, -⟩ := kernelMain_apart (by decide) hfits (by decide +kernel)
    (fun _ => rfl) hmain habove ⟨2, by decide +kernel, hspare⟩ (Reaches.of_runOps hrun)
  exact ⟨m, r, hmain, hpages, hmem, hnodup, hapart _ _ hpage hmem (by simp)⟩

end Smor
