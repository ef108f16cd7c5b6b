import Smor.Vm.Reserve

/-!
# Pages by their address

The pages of a 2MB database lie at the multiples of their size; those of a 4K database lie
inside the big page that the database describes. `page_db_alloc_addr` and
`page_db_free_addr` are the allocator in terms of these addresses. The first part shows that
`page_db_addr2index` undoes `page_db_index2addr`. The second part shows that
`page_db_free_addr` does not use it: the function multiplies the address by the page size
once more, and frees no page that was allocated.
-/

namespace Smor.Vm

open Smor.Lib

/-- `PAGE_4K_INDEX(x)`. -/
def page4kIndex (x : ℕ) : ℕ := x >>> page4kShift % 512

/-- `page_db_index2addr`. The argument `index` is a `uint32_t`. -/
def pageDbIndex2addr (pdb : PageDb) (index : ℕ) : ℕ :=
  if pdb.pageIndex ≠ 0 then
    let base := u64 (pdb.pageIndex <<< page2mShift)
    let offset := u64 (index <<< page4kShift)
    u64 (base + offset)
  else u64 (index <<< page2mShift)

/-- `page_db_addr2index`. -/
def pageDbAddr2index (pdb : PageDb) (addr : ℕ) : Option ℕ :=
  if pdb.pageIndex ≠ 0 then
    let base := u64 (pdb.pageIndex <<< page2mShift)
    let index := page4kIndex addr
    if base < addr ∧ addr < u64 (base + page2mSize) then
      if pdb.numReserved ≤ index ∧ index < pdb.numPages then some index else none
    else none
  else some (u32 (addr >>> page2mShift))

/-- `page_db_alloc_addr`: the address (0 if there is no page) and the database afterwards. -/
def pageDbAllocAddr (pdb : PageDb) : Option (ℕ × PageDb) :=
  (pageDbAlloc pdb).map fun (index, pdb) =>
    (if 0 < index then pageDbIndex2addr pdb index else 0, pdb)

/-- `page_db_free_addr`. The index is computed by `page_db_index2addr`, whose parameter and
whose result are both cut to 32 bits here. -/
def pageDbFreeAddr (pdb : PageDb) (addr : ℕ) : Option PageDb :=
  let index := u32 (pageDbIndex2addr pdb (u32 addr))
  if index ≠ 0 then pageDbFree pdb index else some pdb

/-- The databases of both kinds: of 2MB pages, and of the 4K pages of a big page other than
the first one. -/
inductive AddrDb : PageDb → Prop
  | big (pdb : PageDb) (memorySize reservedSize : ℕ) :
      AddrDb (pageDbInit pdb memorySize reservedSize)
  | small (pdb : PageDb) (pageIndex : ℕ) :
      0 < pageIndex → pageIndex < 2 ^ 32 → AddrDb (pageDbInit4k pdb pageIndex)

/-- The page size of a database. -/
def PageDb.pageSize (pdb : PageDb) : ℕ := if pdb.pageIndex ≠ 0 then page4kSize else page2mSize

/-- The address of a page inside a big page does not wrap. -/
private theorem base_add_offset {base index : ℕ} (hbase : base < 2 ^ 32) (hindex : index < 2 ^ 9) :
    (base * 2 ^ 21 % 2 ^ 64 + index * 2 ^ 12 % 2 ^ 64) % 2 ^ 64 =
      base * 2 ^ 21 + index * 2 ^ 12 := by
  omega

section Encoding

variable {pdb : PageDb} {index addr : ℕ}

/-- The address of a page is a multiple of the page size. -/
theorem pageSize_dvd_pageDbIndex2addr : pdb.pageSize ∣ pageDbIndex2addr pdb index := by
  unfold PageDb.pageSize pageDbIndex2addr u64
  simp only [Nat.shiftLeft_eq, page4kSize, page2mSize, page4kShift, page2mShift]
  split_ifs with hsmall
  · omega
  · omega

/-- In a 2MB database `page_db_addr2index` undoes `page_db_index2addr`. -/
theorem pageDbAddr2index_big (hbig : pdb.pageIndex = 0) (hindex : index < 2 ^ 32) :
    pageDbAddr2index pdb (pageDbIndex2addr pdb index) = some index := by
  have hshift : (index * 2 ^ 21 % 2 ^ 64) / 2 ^ 21 % 2 ^ 32 = index := by omega
  simp only [pageDbAddr2index, pageDbIndex2addr, hbig, ne_eq, not_true_eq_false, if_false, u32, u64,
    page2mShift, Nat.shiftLeft_eq, Nat.shiftRight_eq_div_pow, hshift]

/-- In a 4K database `page_db_addr2index` undoes `page_db_index2addr`, and its checks pass for
every page above the reserved ones. -/
theorem pageDbAddr2index_small (hsmall : pdb.pageIndex ≠ 0) (hbound : pdb.pageIndex < 2 ^ 32)
    (hpos : 0 < index) (hlow : pdb.numReserved ≤ index) (hhigh : index < pdb.numPages)
    (hpages : pdb.numPages = 512) :
    pageDbAddr2index pdb (pageDbIndex2addr pdb index) = some index := by
  have hlt : index < 2 ^ 9 := hhigh.trans_eq (hpages.trans (by decide))
  have haddr := base_add_offset hbound hlt
  have hbase : pdb.pageIndex * 2 ^ 21 % 2 ^ 64 = pdb.pageIndex * 2 ^ 21 := by omega
  have hend : (pdb.pageIndex * 2 ^ 21 + 2 ^ 21) % 2 ^ 64 = pdb.pageIndex * 2 ^ 21 + 2 ^ 21 :=
    Nat.mod_eq_of_lt (by omega)
  have hindex : (pdb.pageIndex * 2 ^ 21 + index * 2 ^ 12) / 2 ^ 12 % 512 = index := by omega
  rw [hbase] at haddr
  unfold pageDbAddr2index pageDbIndex2addr page4kIndex
  simp only [hsmall, ne_eq, not_false_eq_true, if_true, u64, page2mSize, page2mShift, page4kShift,
    Nat.shiftLeft_eq, Nat.shiftRight_eq_div_pow, hbase, haddr, hindex, hend]
  rw [if_pos (by omega), if_pos ⟨hlow, hhigh⟩]

/-- In a 2MB database `page_db_free_addr` does nothing to a multiple of the page size: the
address times the page size has no bit left in 32 bits. -/
theorem pageDbFreeAddr_big (hbig : pdb.pageIndex = 0) (haddr : pdb.pageSize ∣ addr) :
    pageDbFreeAddr pdb addr = some pdb := by
  rw [PageDb.pageSize, if_neg (not_not_intro hbig), page2mSize, page2mShift] at haddr
  have hzero : (addr % 2 ^ 32 * 2 ^ 21 % 2 ^ 64) % 2 ^ 32 = 0 := by omega
  simp only [pageDbFreeAddr, pageDbIndex2addr, hbig, ne_eq, not_true_eq_false, if_false, u32, u64,
    page2mShift, Nat.shiftLeft_eq, hzero]

/-- In a 4K database `page_db_free_addr` does nothing to a multiple of the page size, or it
computes an index far above the last page, which fails a check. -/
theorem pageDbFreeAddr_small (hsmall : pdb.pageIndex ≠ 0) (hpages : pdb.numPages = 512)
    (haddr : pdb.pageSize ∣ addr) :
    pageDbFreeAddr pdb addr = some pdb ∨ pageDbFreeAddr pdb addr = none := by
  rw [PageDb.pageSize, if_pos hsmall, page4kSize, page4kShift] at haddr
  have hindex : u32 (pageDbIndex2addr pdb (u32 addr)) % 2 ^ 21 = 0 := by
    unfold pageDbIndex2addr u32 u64
    simp only [hsmall, ne_eq, not_false_eq_true, if_true, page2mShift, page4kShift,
      Nat.shiftLeft_eq]
    omega
  unfold pageDbFreeAddr
  by_cases hzero : u32 (pageDbIndex2addr pdb (u32 addr)) = 0
  · left
    simp [hzero]
  · right
    have hlarge : ¬u32 (pageDbIndex2addr pdb (u32 addr)) < pdb.numPages := by omega
    simp [hzero, pageDbFree, hlarge]

end Encoding

/-- The calls of the page allocator, by index or by address. -/
inductive AddrOp
  | allocAddr
  | freeAddr (addr : ℕ)
  | page (op : PageOp)

/-- A database together with the addresses that are allocated. -/
structure AddrRun where
  /-- The database itself. -/
  pdb : PageDb
  /-- The addresses returned by `page_db_alloc_addr` and not freed since. -/
  out : Finset ℕ

/-- A run that has made no call yet. -/
def AddrRun.start (pdb : PageDb) : AddrRun := ⟨pdb, ∅⟩

/-- One call. -/
def AddrRun.step (s : AddrRun) : AddrOp → Option AddrRun
  | .allocAddr => (pageDbAllocAddr s.pdb).map fun (addr, pdb) =>
      ⟨pdb, if addr = 0 then s.out else insert addr s.out⟩
  | .freeAddr addr => (pageDbFreeAddr s.pdb addr).map fun pdb => ⟨pdb, s.out.erase addr⟩
  | .page (.free index) => (pageDbFree s.pdb index).map fun pdb =>
      ⟨pdb, s.out.erase (pageDbIndex2addr s.pdb index)⟩
  | .page op => ((PageRun.start s.pdb).step op).map fun t => ⟨t.pdb, s.out⟩

/-- The calls of an arbitrary caller. -/
def AnyCall (_ : AddrRun) (_ : AddrOp) : Prop := True

instance : ∀ s o, Decidable (AnyCall s o) := fun _ _ => isTrue trivial

/-- The effect that freeing the page `index` has: the page is free and heads the free list, in
front of its former head, the counter is one higher, and no other page changes. -/
structure FreedPage (pdb pdb' : PageDb) (index : ℕ) : Prop where
  flags : pdb'.flagsOf = Function.update pdb.flagsOf index .free
  head : pdb'.freeList = index
  links : pdb'.nextFree = Function.update pdb.nextFree index pdb.freeList
  numFree : pdb'.numFree = pdb.numFree + 1

/-- Freeing an address passes every check and frees the page at this address. -/
def FreesAddr (pdb : PageDb) (addr : ℕ) : Prop :=
  ∃ index pdb', pageDbAddr2index pdb addr = some index ∧ pageDbFreeAddr pdb addr = some pdb' ∧
    FreedPage pdb pdb' index

/-- An allocated address is freed again with the free pages and their number as before. -/
def RestoresFree (pdb pdb' : PageDb) (addr : ℕ) : Prop :=
  ∃ pdb'', pageDbFreeAddr pdb' addr = some pdb'' ∧
    (∀ i < pdb.numPages, pdb''.flagsOf i = .free ↔ pdb.flagsOf i = .free) ∧
    pdb''.numFree = pdb.numFree

/-- Reserving pages moves neither the big page of a database nor its end. -/
theorem pageDbReservePage_header {pdb pdb' : PageDb} {page : ℕ}
    (h : pageDbReservePage pdb page = some pdb') :
    pdb'.pageIndex = pdb.pageIndex ∧ pdb'.numPages = pdb.numPages := by
  rcases pageDbReservePage_cases h with ⟨_, rfl⟩ | ⟨_, _, ⟨_, rfl⟩ | ⟨_, _, _, rfl⟩ | ⟨_, _, rfl⟩⟩
  · exact ⟨rfl, rfl⟩
  · exact ⟨rfl, rfl⟩
  · exact ⟨rfl, rfl⟩
  · exact ⟨rfl, rfl⟩

/-- The same for a list of pages; the induction follows the loop of
`page_db_reserve_region`. -/
theorem reserveAll_header {pages : List ℕ} {pdb pdb' : PageDb}
    (h : pages.foldlM pageDbReservePage pdb = some pdb') :
    pdb'.pageIndex = pdb.pageIndex ∧ pdb'.numPages = pdb.numPages := by
  induction pages generalizing pdb with
  | nil =>
    obtain rfl : pdb = pdb' := by simpa using h
    exact ⟨rfl, rfl⟩
  | cons page pages ih =>
    rw [List.foldlM_cons] at h
    obtain ⟨mid, hmid, hrest⟩ := Option.bind_eq_some_iff.mp h
    obtain ⟨hindex, hpages⟩ := pageDbReservePage_header hmid
    obtain ⟨hindex', hpages'⟩ := ih hrest
    exact ⟨hindex'.trans hindex, hpages'.trans hpages⟩

/-- A call of `page_db_alloc` keeps the big page and the number of pages. -/
theorem pageDbAlloc_header {pdb pdb' : PageDb} {index : ℕ}
    (h : pageDbAlloc pdb = some (index, pdb')) :
    pdb'.pageIndex = pdb.pageIndex ∧ pdb'.numPages = pdb.numPages := by
  rcases pageDbAlloc_cases h with ⟨_, _, rfl⟩ | ⟨_, _, _, rfl⟩
  · exact ⟨rfl, rfl⟩
  · exact ⟨rfl, rfl⟩

/-- A call of `page_db_free` keeps the big page and the number of pages. -/
theorem pageDbFree_header {pdb pdb' : PageDb} {index : ℕ} (h : pageDbFree pdb index = some pdb') :
    pdb'.pageIndex = pdb.pageIndex ∧ pdb'.numPages = pdb.numPages := by
  obtain ⟨_, _, _, rfl⟩ := pageDbFree_eq_some_iff.mp h
  exact ⟨rfl, rfl⟩

/-- Every call by index keeps the big page and the number of pages. -/
theorem PageRun.step_header {s t : PageRun} {op : PageOp} (h : s.step op = some t) :
    t.pdb.pageIndex = s.pdb.pageIndex ∧ t.pdb.numPages = s.pdb.numPages := by
  cases op with
  | alloc =>
    obtain ⟨⟨index, pdb⟩, hpdb, rfl⟩ := Option.map_eq_some_iff.mp h
    exact pageDbAlloc_header hpdb
  | free index =>
    obtain ⟨pdb, hpdb, rfl⟩ := Option.map_eq_some_iff.mp h
    exact pageDbFree_header hpdb
  | reservePage page =>
    obtain ⟨pdb, hpdb, rfl⟩ := Option.map_eq_some_iff.mp h
    exact pageDbReservePage_header hpdb
  | reserveRegion addr size =>
    obtain ⟨pdb, hpdb, rfl⟩ := Option.map_eq_some_iff.mp h
    unfold pageDbReserveRegion at hpdb
    split_ifs at hpdb
    exact reserveAll_header hpdb

/-- Every call keeps the big page and the number of pages. -/
theorem AddrRun.step_header {s t : AddrRun} {op : AddrOp} (h : s.step op = some t) :
    t.pdb.pageIndex = s.pdb.pageIndex ∧ t.pdb.numPages = s.pdb.numPages := by
  cases op with
  | allocAddr =>
    obtain ⟨⟨addr, pdb⟩, halloc, rfl⟩ := Option.map_eq_some_iff.mp h
    obtain ⟨⟨index, pdb'⟩, hpdb, heq⟩ := Option.map_eq_some_iff.mp halloc
    obtain ⟨-, rfl⟩ := Prod.mk.inj heq
    exact pageDbAlloc_header hpdb
  | freeAddr addr =>
    obtain ⟨pdb, hpdb, rfl⟩ := Option.map_eq_some_iff.mp h
    unfold pageDbFreeAddr at hpdb
    simp only at hpdb
    split_ifs at hpdb
    · exact pageDbFree_header hpdb
    · obtain rfl := Option.some.inj hpdb
      exact ⟨rfl, rfl⟩
  | page op =>
    cases op with
    | free index =>
      obtain ⟨pdb, hpdb, rfl⟩ := Option.map_eq_some_iff.mp h
      exact pageDbFree_header hpdb
    | alloc | reservePage | reserveRegion =>
      obtain ⟨r, hr, rfl⟩ := Option.map_eq_some_iff.mp h
      exact PageRun.step_header hr

/-- What every state of a run satisfies: the header describes the same pages as at the start,
and every allocated address is the address of a page. -/
structure AddrInv (s : AddrRun) : Prop where
  small : s.pdb.pageIndex ≠ 0 → s.pdb.numPages = 512
  aligned : ∀ addr ∈ s.out, s.pdb.pageSize ∣ addr

namespace AddrInv

variable {s t : AddrRun}

/-- A state with the same header satisfies the invariant when its new addresses do. -/
theorem of_header (h : AddrInv s)
    (heq : t.pdb.pageIndex = s.pdb.pageIndex ∧ t.pdb.numPages = s.pdb.numPages)
    (hout : ∀ addr ∈ t.out, addr ∈ s.out ∨ s.pdb.pageSize ∣ addr) : AddrInv t where
  small := by
    rw [heq.1, heq.2]
    exact h.small
  aligned := by
    intro addr haddr
    have hsize : t.pdb.pageSize = s.pdb.pageSize := by rw [PageDb.pageSize, heq.1, PageDb.pageSize]
    rw [hsize]
    exact (hout addr haddr).elim (h.aligned addr) id

/-- `page_db_free_addr` at a multiple of the page size stops the kernel or does nothing. -/
theorem freeAddr_eq (h : AddrInv s) {addr : ℕ} {pdb : PageDb} (haddr : s.pdb.pageSize ∣ addr)
    (hfree : pageDbFreeAddr s.pdb addr = some pdb) : pdb = s.pdb := by
  by_cases hkind : s.pdb.pageIndex = 0
  · rw [pageDbFreeAddr_big hkind haddr] at hfree
    exact (Option.some.inj hfree).symm
  · rcases pageDbFreeAddr_small hkind (h.small hkind) haddr with heq | heq
    · rw [heq] at hfree
      exact (Option.some.inj hfree).symm
    · simp [heq] at hfree

/-- Every call keeps the invariant. -/
theorem step {op : AddrOp} (h : AddrInv s) (hstep : s.step op = some t) : AddrInv t := by
  have hheader := AddrRun.step_header hstep
  refine h.of_header hheader fun a ha => ?_
  cases op with
  | allocAddr =>
    obtain ⟨⟨addr, pdb⟩, halloc, rfl⟩ := Option.map_eq_some_iff.mp hstep
    obtain ⟨⟨index, pdb'⟩, hpdb, heq⟩ := Option.map_eq_some_iff.mp halloc
    obtain ⟨haddr, rfl⟩ := Prod.mk.inj heq
    change a ∈ (if addr = 0 then s.out else insert addr s.out) at ha
    split_ifs at ha
    · exact .inl ha
    · rcases Finset.mem_insert.mp ha with rfl | ha
      · right
        rw [← haddr]
        split_ifs
        · have hsize : pdb'.pageSize = s.pdb.pageSize := by
            rw [PageDb.pageSize, hheader.1, PageDb.pageSize]
          exact hsize ▸ pageSize_dvd_pageDbIndex2addr
        · exact Nat.dvd_zero _
      · exact .inl ha
  | freeAddr addr =>
    obtain ⟨pdb, hpdb, rfl⟩ := Option.map_eq_some_iff.mp hstep
    exact .inl (Finset.mem_of_mem_erase ha)
  | page op =>
    cases op with
    | free index =>
      obtain ⟨pdb, hpdb, rfl⟩ := Option.map_eq_some_iff.mp hstep
      exact .inl (Finset.mem_of_mem_erase ha)
    | alloc | reservePage | reserveRegion =>
      obtain ⟨r, hr, rfl⟩ := Option.map_eq_some_iff.mp hstep
      exact .inl ha

end AddrInv

/-- A database of either kind satisfies the invariant before the first call. -/
theorem AddrDb.addrInv {init : PageDb} (h : AddrDb init) : AddrInv (.start init) := by
  refine ⟨fun hsmall => ?_, by simp [AddrRun.start]⟩
  cases h with
  | big pdb memorySize reservedSize => exact absurd rfl hsmall
  | small pdb pageIndex hpos hbound =>
    change pageDb4kNumPages = 512
    decide +kernel

/-- **Frees by address.** In no state of any run over a database of either kind does
`page_db_free_addr` free an allocated address, and after `page_db_alloc_addr` has returned
an address, `page_db_free_addr` does not restore the free pages and their number. -/
theorem pageDbFreeAddr_never {init : PageDb} {s : AddrRun} (hinit : AddrDb init)
    (hrun : Reaches AddrRun.step AnyCall (.start init) s) :
    (∀ addr ∈ s.out, ¬FreesAddr s.pdb addr) ∧
    ∀ addr pdb, pageDbAllocAddr s.pdb = some (addr, pdb) → addr ≠ 0 →
      ¬RestoresFree s.pdb pdb addr := by
  have hinv : AddrInv s := hrun.invariant hinit.addrInv fun _ _ _ h _ hstep => h.step hstep
  refine ⟨fun addr haddr => ?_, fun addr pdb halloc hne => ?_⟩
  · rintro ⟨index, pdb', -, hfree, hfreed⟩
    obtain rfl := hinv.freeAddr_eq (hinv.aligned addr haddr) hfree
    have hcount := hfreed.numFree
    omega
  · rintro ⟨pdb'', hfree, -, hcount⟩
    have hstep : s.step .allocAddr = some ⟨pdb, insert addr s.out⟩ := by
      simp only [AddrRun.step, halloc, Option.map_some, if_neg hne]
    have hafter := hinv.step hstep
    obtain rfl := hafter.freeAddr_eq (hafter.aligned addr (Finset.mem_insert_self _ _)) hfree
    obtain ⟨⟨index, pdb'⟩, hpdb, heq⟩ := Option.map_eq_some_iff.mp halloc
    obtain ⟨haddr, rfl⟩ := Prod.mk.inj heq
    rcases pageDbAlloc_cases hpdb with ⟨rfl, _, rfl⟩ | ⟨_, _, _, rfl⟩
    · exact hne haddr.symm
    · -- the page that was handed out is still missing from the count
      rw [PageDb.takeFirst_numFree, u32Pred] at hcount
      split_ifs at hcount with hzero
      · omega
      · omega

/-- With 16MB of memory and a 2MB kernel the first address is `0x200000`, and freeing it leaves the
counter at 6 of 8 pages. In the 4K database of big page 1 the first address is `0x209000`,
and freeing it fails a check. -/
theorem pageDbFreeAddr_first_address :
    ¬((∀ s, Reaches AddrRun.step AnyCall (.start (pageDbInit .blank (2 ^ 24) (2 ^ 21))) s →
        ∀ addr ∈ s.out, FreesAddr s.pdb addr) ∨
      ∀ s, Reaches AddrRun.step AnyCall (.start (pageDbInit4k .blank 1)) s →
        ∀ addr ∈ s.out, FreesAddr s.pdb addr) := by
  rintro (hbig | hsmall)
  · have hall : (runOps AddrRun.step AnyCall (.start (pageDbInit .blank (2 ^ 24) (2 ^ 21)))
        [.allocAddr]).map (fun s => (s.out, s.pdb.numFree,
          (pageDbFreeAddr s.pdb (2 ^ 21)).map PageDb.numFree)) = some ({2 ^ 21}, 6, some 6) := by
      decide +kernel
    obtain ⟨s, hrun, heq⟩ := Option.map_eq_some_iff.mp hall
    obtain ⟨hout, hcount, hfreed⟩ : s.out = {2 ^ 21} ∧ s.pdb.numFree = 6 ∧
        (pageDbFreeAddr s.pdb (2 ^ 21)).map PageDb.numFree = some 6 := by simpa using heq
    obtain ⟨index, pdb', -, hfree, hpage⟩ := hbig s (Reaches.of_runOps hrun) (2 ^ 21)
      (by rw [hout]; exact Finset.mem_singleton_self _)
    have hnumFree := hpage.numFree
    rw [hfree, Option.map_some, hnumFree, hcount] at hfreed
    simp at hfreed
  · have hall : (runOps AddrRun.step AnyCall (.start (pageDbInit4k .blank 1))
        [.allocAddr]).map (fun s => (s.out, (pageDbFreeAddr s.pdb 0x209000).isNone)) =
          some ({0x209000}, true) := by
      decide +kernel
    obtain ⟨s, hrun, heq⟩ := Option.map_eq_some_iff.mp hall
    obtain ⟨hout, hnone⟩ : s.out = {0x209000} ∧ (pageDbFreeAddr s.pdb 0x209000).isNone = true := by
      simpa using heq
    obtain ⟨index, pdb', -, hfree, -⟩ := hsmall s (Reaches.of_runOps hrun) 0x209000
      (by rw [hout]; exact Finset.mem_singleton_self _)
    simp [hfree] at hnone

/-- The same two databases, after one address has been handed out. -/
theorem pageDbFreeAddr_never_first :
    (∃ s, Reaches AddrRun.step AnyCall (.start (pageDbInit .blank (2 ^ 24) (2 ^ 21))) s ∧
      s.out = {2 ^ 21} ∧ ¬FreesAddr s.pdb (2 ^ 21)) ∧
    ∃ s, Reaches AddrRun.step AnyCall (.start (pageDbInit4k .blank 1)) s ∧
      s.out = {0x209000} ∧ ¬FreesAddr s.pdb 0x209000 := by
  constructor
  · have hall : (runOps AddrRun.step AnyCall (.start (pageDbInit .blank (2 ^ 24) (2 ^ 21)))
        [.allocAddr]).map AddrRun.out = some {2 ^ 21} := by decide +kernel
    obtain ⟨s, hrun, hout⟩ := Option.map_eq_some_iff.mp hall
    have hreach := Reaches.of_runOps hrun
    refine ⟨s, hreach, hout, (pageDbFreeAddr_never (.big _ _ _) hreach).1 _ ?_⟩
    rw [hout]
    exact Finset.mem_singleton_self _
  · have hall : (runOps AddrRun.step AnyCall (.start (pageDbInit4k .blank 1))
        [.allocAddr]).map AddrRun.out = some {0x209000} := by decide +kernel
    obtain ⟨s, hrun, hout⟩ := Option.map_eq_some_iff.mp hall
    have hreach := Reaches.of_runOps hrun
    refine ⟨s, hreach, hout,
      (pageDbFreeAddr_never (.small _ 1 (by decide) (by decide)) hreach).1 _ ?_⟩
    rw [hout]
    exact Finset.mem_singleton_self _

end Smor.Vm
