import Mathlib.Data.List.SplitBy
import Smor.Printf.Lines
import Smor.Vm.PageAddr

/-!
# The listings of the page database

The command `vm_page` prints the database in two ways: as ranges of pages with the same flag, and
as ranges of neighbours on the free list. Both loops look for the end of a range and go on behind
it, so their lines are the longest ranges in the order of the pages, or of the list. The free list
that the second listing shows is well formed in every reachable state, so the loop ends. The first
listing computes the addresses of its ranges in 32 bits, which is enough below 4GB only.
-/

namespace Smor.Vm

open Smor.Lib Smor.Printf

/-- The inner loops of `page_db_dump_ranges`, with a number of rounds that is enough. -/
def skipFlag (pdb : PageDb) (flags : PageFlag) : ℕ → ℕ → ℕ
  | 0, n => n
  | rounds + 1, n =>
    if n < pdb.numPages ∧ pdb.flagsOf n = flags then skipFlag pdb flags rounds (u32 (n + 1)) else n

/-- The names of the flags in the listing. -/
def flagName : PageFlag → List Char
  | .free => "free".toList
  | .reserved => "rsvd".toList
  | .used => "used".toList

/-- The calls of `printf` in the three branches. The shifts are those of a `uint32_t`. -/
def rangeCall (flags : PageFlag) (s n : ℕ) : Call :=
  ⟨flagName flags ++ ":[%04d:%04d] %016lx:%016lx\n".toList,
    [.int s, .int n, .int (u32 (s <<< page2mShift)), .int (u32 (n <<< page2mShift))]⟩

/-- The loop of `page_db_dump_ranges`; `none` if it takes more rounds than there are pages. -/
def dumpRanges (pdb : PageDb) : ℕ → ℕ → Option (List Call)
  | 0, _ => none
  | rounds + 1, n =>
    if n < pdb.numPages then
      let e := skipFlag pdb (pdb.flagsOf n) pdb.numPages n
      (dumpRanges pdb rounds e).map fun calls => rangeCall (pdb.flagsOf n) n e :: calls
    else some []

/-- `page_db_dump_ranges`. -/
def pageDbDumpRanges (pdb : PageDb) : Option (List Call) := dumpRanges pdb (pdb.numPages + 1) 0

/-- The inner loop of `page_db_dump_free_list`. -/
def skipNeighbours (pdb : PageDb) : ℕ → ℕ → ℕ
  | 0, index => index
  | rounds + 1, index =>
    if pdb.nextFree index ≠ 0 ∧ pdb.nextFree index = u32 (index + 1) then
      skipNeighbours pdb rounds (u32 (index + 1))
    else index

/-- The loop of `page_db_dump_free_list`; `none` if it takes more rounds than there are pages. -/
def dumpFreeList (pdb : PageDb) : ℕ → ℕ → Option (List Call)
  | 0, _ => none
  | rounds + 1, index =>
    if 0 < index then
      let s := index
      let index := skipNeighbours pdb pdb.numPages index
      let n := u32 (u32 (index + 1) + 2 ^ 32 - s)
      (dumpFreeList pdb rounds (pdb.nextFree index)).map fun calls =>
        if n ≠ 0 then ⟨"[%d:%d]\n".toList, [.int s, .int n]⟩ :: calls else calls
    else some []

/-- `page_db_dump_free_list`. -/
def pageDbDumpFreeList (pdb : PageDb) : Option (List Call) :=
  dumpFreeList pdb (pdb.numPages + 1) pdb.freeList

/-- `vm_page_dump_cmd`. -/
def vmPageDumpCmd (pdb : PageDb) (argv : List (List Char)) : Option (List Call) :=
  match argv[1]? with
  | some option =>
    if option = "-r".toList then pageDbDumpRanges pdb
    else if option = "-f".toList then pageDbDumpFreeList pdb
    else some []
  | none => some []

/-- A line about the pages of a range, which have the flag of the first one, with the addresses of
its ends. -/
def rangeLineAt (addr : ℕ → ℕ) (pdb : PageDb) (pages : List ℕ) : List Piece :=
  let s := pages.headD 0
  let n := s + pages.length
  [.text (flagName (pdb.flagsOf s) ++ ":[".toList), .num .d4 s, .text ":".toList, .num .d4 n,
    .text "] ".toList, .num .lx16 (addr s), .text ":".toList, .num .lx16 (addr n),
    .text "\n".toList]

/-- The line with the addresses of the pages. -/
def rangeLine : PageDb → List ℕ → List Piece := rangeLineAt fun n => n * page2mSize

/-- The line with the low 32 bits of the addresses. -/
def rangeLine32 : PageDb → List ℕ → List Piece := rangeLineAt fun n => n * page2mSize % 2 ^ 32

/-- A line about neighbours on the free list. -/
def segmentLine (pages : List ℕ) : List Piece :=
  [.text "[".toList, .num .d (pages.headD 0), .text ":".toList, .num .d pages.length,
    .text "]\n".toList]

/-- The longest ranges of pages with one flag. -/
def flagRanges (pdb : PageDb) : List (List ℕ) :=
  (List.range pdb.numPages).splitBy fun i j => pdb.flagsOf i == pdb.flagsOf j

/-- The longest ranges of neighbours in a list. -/
def neighbourRanges (free : List ℕ) : List (List ℕ) := free.splitBy fun i j => j == i + 1

section Ranges

/-- A part of a list that ends where the relation does is the first one. -/
theorem splitBy_part {α : Type} {r : α → α → Bool} {part rest : List α} (hne : part ≠ [])
    (hchain : part.IsChain fun x y => r x y)
    (hend : ∀ x ∈ part.getLast?, ∀ y ∈ rest.head?, r x y = false) :
    (part ++ rest).splitBy r = part :: rest.splitBy r := by
  rw [List.splitBy_append hend, List.splitBy_of_isChain hne hchain]
  rfl

variable {pdb : PageDb}

/-- The inner loops stop at the end of a range. -/
theorem skipFlag_spec {flags : PageFlag} (hpages : pdb.numPages < 2 ^ 32) {rounds n : ℕ}
    (hn : n ≤ pdb.numPages) (hrounds : pdb.numPages ≤ n + rounds) :
    n ≤ skipFlag pdb flags rounds n ∧ skipFlag pdb flags rounds n ≤ pdb.numPages ∧
      (∀ i, n ≤ i → i < skipFlag pdb flags rounds n → pdb.flagsOf i = flags) ∧
      (skipFlag pdb flags rounds n < pdb.numPages →
        pdb.flagsOf (skipFlag pdb flags rounds n) ≠ flags) := by
  induction rounds generalizing n with
  | zero =>
    rw [skipFlag]
    exact ⟨le_rfl, hn, fun i hlow hhigh => absurd hhigh (by omega), fun hlt => by omega⟩
  | succ rounds ih =>
    rw [skipFlag]
    split_ifs with hcond
    · obtain ⟨hlt, hflag⟩ := hcond
      have hnext : u32 (n + 1) = n + 1 := by
        unfold u32
        omega
      rw [hnext]
      obtain ⟨hle, hend, hsame, hstop⟩ := ih (n := n + 1) (by omega) (by omega)
      refine ⟨by omega, hend, fun i hlow hhigh => ?_, hstop⟩
      rcases Nat.eq_or_lt_of_le hlow with rfl | hlow
      · exact hflag
      · exact hsame i hlow hhigh
    · exact ⟨le_rfl, hn, fun i hlow hhigh => absurd hhigh (by omega),
        fun hlt hflag => hcond ⟨hlt, hflag⟩⟩

/-- The call for a range is that of its line. -/
theorem lineCall_rangeLine32 (pdb : PageDb) {s n : ℕ} (hn : s < n) :
    lineCall (rangeLine32 pdb (List.range' s (n - s))) = rangeCall (pdb.flagsOf s) s n := by
  have hhead : (List.range' s (n - s)).headD 0 = s := by
    rw [← Nat.succ_pred_eq_of_pos (show 0 < n - s by omega), List.range'_succ]
    rfl
  have hlength : s + (List.range' s (n - s)).length = n := by
    rw [List.length_range']
    omega
  have haddr : ∀ x, x * page2mSize % 2 ^ 32 = u32 (x <<< page2mShift) := by
    intro x
    rw [Nat.shiftLeft_eq]
    unfold u32
    rfl
  simp only [rangeLine32, rangeLineAt, hhead, hlength, haddr]
  cases pdb.flagsOf s <;> rfl

/-- The loop prints the longest ranges behind a page. -/
theorem dumpRanges_eq (hpages : pdb.numPages < 2 ^ 32) {rounds n : ℕ} (hn : n ≤ pdb.numPages)
    (hrounds : pdb.numPages < n + rounds) :
    dumpRanges pdb rounds n = some (((List.range' n (pdb.numPages - n)).splitBy fun i j =>
      pdb.flagsOf i == pdb.flagsOf j).map fun pages => lineCall (rangeLine32 pdb pages)) := by
  induction rounds generalizing n with
  | zero => omega
  | succ rounds ih =>
    rw [dumpRanges]
    split_ifs with hlt
    · dsimp only
      obtain ⟨hle, hend, hsame, hstop⟩ := skipFlag_spec hpages hn (Nat.le_add_left _ n)
      generalize skipFlag pdb (pdb.flagsOf n) pdb.numPages n = e at hle hend hsame hstop ⊢
      have hpos : n < e := by
        rcases Nat.eq_or_lt_of_le hle with rfl | hpos
        · exact absurd rfl (hstop hlt)
        · exact hpos
      have hsplit : List.range' n (pdb.numPages - n) =
          List.range' n (e - n) ++ List.range' e (pdb.numPages - e) := by
        have happend := List.range'_append_1 (s := n) (m := e - n) (n := pdb.numPages - e)
        rw [Nat.add_sub_cancel' hle] at happend
        rw [happend]
        congr 1
        omega
      have hchain : (List.range' n (e - n)).IsChain fun i j => pdb.flagsOf i == pdb.flagsOf j := by
        refine List.Pairwise.isChain (List.pairwise_of_forall_mem_list fun i hi j hj => ?_)
        rw [List.mem_range'_1] at hi hj
        rw [beq_iff_eq, hsame i hi.1 (by omega), hsame j hj.1 (by omega)]
      have hbreak : ∀ x ∈ (List.range' n (e - n)).getLast?,
          ∀ y ∈ (List.range' e (pdb.numPages - e)).head?,
          (pdb.flagsOf x == pdb.flagsOf y) = false := by
        intro x hx y hy
        have hmem := List.mem_of_mem_getLast? hx
        rw [List.mem_range'_1] at hmem
        have hnext : y = e ∧ e < pdb.numPages := by
          rw [List.head?_range'] at hy
          split_ifs at hy with hnone
          · cases hy
          · exact ⟨(Option.some.inj hy).symm, by omega⟩
        obtain ⟨rfl, hlast⟩ := hnext
        rw [hsame x hmem.1 (by omega), beq_eq_false_iff_ne]
        exact (hstop hlast).symm
      have hne : List.range' n (e - n) ≠ [] := by
        rw [Ne, List.range'_eq_nil_iff]
        omega
      rw [ih hend (by omega), hsplit, splitBy_part hne hchain hbreak, List.map_cons,
        lineCall_rangeLine32 pdb hpos]
      rfl
    · have hzero : pdb.numPages - n = 0 := by omega
      rw [hzero]
      rfl

/-- The inner loop of `page_db_dump_free_list` stops at the last of neighbours. -/
theorem skipNeighbours_spec (hpages : pdb.numPages < 2 ^ 32) {rest : List ℕ} {rounds a : ℕ}
    (hchain : Chain 0 pdb.nextFree a (a :: rest)) (hlt : ∀ i ∈ a :: rest, i < pdb.numPages)
    (hrounds : rest.length ≤ rounds) :
    ∃ k back, a :: rest = List.range' a (k + 1) ++ back ∧
      skipNeighbours pdb rounds a = a + k ∧ Chain 0 pdb.nextFree (pdb.nextFree (a + k)) back ∧
      ∀ y ∈ back.head?, y ≠ a + k + 1 := by
  induction rest generalizing rounds a with
  | nil =>
    obtain ⟨-, -, hnext⟩ := chain_cons_iff.mp hchain
    have hzero : pdb.nextFree a = 0 := chain_nil_iff.mp hnext
    refine ⟨0, [], rfl, ?_, hnext, by simp⟩
    cases rounds with
    | zero => rfl
    | succ rounds => rw [skipNeighbours, if_neg fun h => h.1 hzero, Nat.add_zero]
  | cons b rest ih =>
    obtain ⟨-, -, htail⟩ := chain_cons_iff.mp hchain
    obtain ⟨hnext, hb, -⟩ := chain_cons_iff.mp htail
    cases rounds with
    | zero => exact absurd hrounds (by simp)
    | succ rounds =>
      have hbound := hlt b (by simp)
      have hfirst := hlt a List.mem_cons_self
      rw [skipNeighbours, hnext]
      by_cases hneighbour : b = a + 1
      · subst hneighbour
        have hwrap : u32 (a + 1) = a + 1 := by
          unfold u32
          omega
        rw [hnext] at htail
        obtain ⟨k, back, hlist, hskip, hback, hend⟩ := ih htail
          (fun i hi => hlt i (List.mem_cons_of_mem a hi)) (by simpa using hrounds)
        have hsum : a + 1 + k = a + (k + 1) := by omega
        rw [hsum] at hskip hback hend
        refine ⟨k + 1, back, ?_, ?_, hback, hend⟩
        · rw [hlist]
          conv_rhs => rw [List.range'_succ, List.cons_append]
        · rw [hwrap, if_pos ⟨by omega, rfl⟩, hskip]
      · have hstop : ¬(b ≠ 0 ∧ b = u32 (a + 1)) := by
          unfold u32
          omega
        refine ⟨0, b :: rest, rfl, ?_, htail, ?_⟩
        · rw [if_neg hstop, Nat.add_zero]
        · simpa using hneighbour

/-- The loop prints the longest ranges of neighbours. -/
theorem dumpFreeList_eq (hpages : pdb.numPages < 2 ^ 32) {free : List ℕ} {rounds index : ℕ}
    (hchain : Chain 0 pdb.nextFree index free) (hlt : ∀ i ∈ free, i < pdb.numPages)
    (hlength : free.length ≤ pdb.numPages) (hrounds : free.length < rounds) :
    dumpFreeList pdb rounds index =
      some ((neighbourRanges free).map fun pages => lineCall (segmentLine pages)) := by
  induction hsize : free.length using Nat.strong_induction_on generalizing free rounds index with
  | _ size ih =>
    subst hsize
    cases rounds with
    | zero => omega
    | succ rounds =>
      cases free with
      | nil =>
        rw [dumpFreeList, chain_nil_iff.mp hchain]
        rfl
      | cons a rest =>
        obtain ⟨rfl, hne, -⟩ := chain_cons_iff.mp hchain
        rw [List.length_cons] at hlength hrounds
        obtain ⟨k, back, hlist, hskip, hback, hend⟩ :=
          skipNeighbours_spec hpages hchain hlt (show rest.length ≤ pdb.numPages by omega)
        have hsize := congrArg List.length hlist
        rw [List.length_append, List.length_range', List.length_cons] at hsize
        have hlast : index + k < pdb.numPages := by
          apply hlt
          rw [hlist, List.mem_append, List.mem_range'_1]
          omega
        have hcount : u32 (u32 (index + k + 1) + 2 ^ 32 - index) = k + 1 := by
          unfold u32
          omega
        have hrest := ih back.length (by rw [List.length_cons]; omega) hback
          (fun i hi => hlt i (by rw [hlist]; exact List.mem_append_right _ hi)) (by omega)
          (show back.length < rounds by omega) rfl
        have hparts : neighbourRanges (index :: rest) =
            List.range' index (k + 1) :: neighbourRanges back := by
          rw [neighbourRanges, hlist]
          refine splitBy_part (by simp) ?_ ?_
          · exact (List.isChain_range' index (k + 1) 1).imp fun i j h => by simpa using h
          · intro x hx y hy
            rw [List.getLast?_range'] at hx
            obtain rfl := Option.some.inj hx
            simpa using hend y hy
        have hline : lineCall (segmentLine (List.range' index (k + 1))) =
            ⟨"[%d:%d]\n".toList, [.int index, .int (k + 1)]⟩ := by
          rw [segmentLine, List.length_range', List.range'_succ]
          rfl
        rw [dumpFreeList, if_pos (by omega)]
        dsimp only
        rw [hskip, hcount, hrest, hparts, List.map_cons, hline]
        rfl

/-- A range consists of pages behind one another and ends inside the database. -/
theorem flagRange_eq {pages : List ℕ} (hmem : pages ∈ flagRanges pdb) :
    pages ≠ [] ∧ pages = List.range' (pages.headD 0) pages.length ∧
      pages.headD 0 + pages.length ≤ pdb.numPages := by
  have hne := List.ne_nil_of_mem_splitBy hmem
  have hpart := List.infix_of_mem_flatten hmem
  rw [flagRanges, List.flatten_splitBy, List.range_eq_range'] at hpart
  obtain ⟨front, back, heq⟩ := hpart
  have hlength := congrArg List.length heq
  simp only [List.length_append, List.length_range'] at hlength
  have hpages : pages = List.range' front.length pages.length := by
    have hdrop := congrArg (fun l => (l.drop front.length).take pages.length) heq
    simp only [List.append_assoc, List.drop_left, List.take_left, List.drop_range', Nat.zero_add,
      Nat.mul_one] at hdrop
    rwa [List.take_range'_of_length_ge (by omega)] at hdrop
  have hpos := List.length_pos_iff.mpr hne
  have hhead : pages.headD 0 = front.length := by
    rw [hpages, ← Nat.succ_pred_eq_of_pos hpos, List.range'_succ]
    rfl
  rw [hhead]
  exact ⟨hne, hpages, by omega⟩

/-- The last range ends with the database. -/
theorem exists_last_range (hpos : 0 < pdb.numPages) :
    ∃ pages ∈ flagRanges pdb, pages.headD 0 + pages.length = pdb.numPages := by
  have hlast : pdb.numPages - 1 ∈ (flagRanges pdb).flatten := by
    rw [flagRanges, List.flatten_splitBy, List.mem_range]
    omega
  obtain ⟨pages, hmem, hin⟩ := List.mem_flatten.mp hlast
  obtain ⟨-, hpages, hle⟩ := flagRange_eq hmem
  rw [hpages, List.mem_range'_1] at hin
  exact ⟨pages, hmem, by omega⟩

/-- The addresses fit in 32 bits exactly if the database ends below 4GB. -/
theorem rangeLine32_eq_iff (pdb : PageDb) :
    (∀ pages ∈ flagRanges pdb, rangeLine32 pdb pages = rangeLine pdb pages) ↔
      pdb.numPages < 2 ^ 11 := by
  have hsize : page2mSize = 2 ^ 21 := rfl
  constructor
  · intro hall
    by_contra hge
    obtain ⟨pages, hmem, hend⟩ := @exists_last_range pdb (by omega)
    have hline := hall pages hmem
    simp only [rangeLine32, rangeLine, rangeLineAt, hend, List.cons.injEq, Piece.num.injEq,
      true_and, and_true] at hline
    have hmod := hline.2
    rw [Nat.mod_eq_iff_lt (by decide), hsize] at hmod
    omega
  · intro hpages pages hmem
    obtain ⟨-, -, hle⟩ := flagRange_eq hmem
    have hmod : ∀ x ≤ pdb.numPages, x * page2mSize % 2 ^ 32 = x * page2mSize := by
      intro x hx
      rw [hsize]
      exact Nat.mod_eq_of_lt (by omega)
    simp only [rangeLine32, rangeLine, rangeLineAt]
    rw [hmod _ (by omega), hmod _ hle]

end Ranges

section Listings

variable {init : PageDb} {s : PageRun}

theorem flagName_plain (flags : PageFlag) : ∀ c ∈ flagName flags ++ ":[".toList, Plain c := by
  cases flags <;> exact forall_mem_of_all (by decide)

theorem flagName_length (flags : PageFlag) : (flagName flags).length = 4 := by
  cases flags <;> rfl

/-- `printf` prints the lines about ranges. -/
theorem rangeLine32_ok {pdb : PageDb} (hpages : pdb.numPages < 2 ^ 31) {pages : List ℕ}
    (hmem : pages ∈ flagRanges pdb) :
    (∀ piece ∈ rangeLine32 pdb pages, piece.Ok) ∧
      ((rangeLine32 pdb pages).map Piece.width).sum < printfBuf := by
  obtain ⟨-, -, hend⟩ := flagRange_eq hmem
  have haddr : ∀ x, (Piece.num .lx16 (x % 2 ^ 32)).Ok := by
    intro x
    change x % 2 ^ 32 < 2 ^ 64
    omega
  refine ⟨?_, ?_⟩
  · simp only [rangeLine32, rangeLineAt, List.forall_mem_cons, List.not_mem_nil, false_implies,
      implies_true, and_true]
    refine ⟨flagName_plain _, ?_, forall_mem_of_all (by decide), ?_, forall_mem_of_all (by decide),
      haddr _, forall_mem_of_all (by decide), haddr _, forall_mem_of_all (by decide)⟩
    · change pages.headD 0 < 2 ^ 31
      omega
    · change pages.headD 0 + pages.length < 2 ^ 31
      omega
  · simp [rangeLine32, rangeLineAt, Piece.width, printfBuf, flagName_length]

/-- `printf` prints the lines about neighbours. -/
theorem segmentLine_ok {pdb : PageDb} (hpages : pdb.numPages < 2 ^ 31) {free : List ℕ}
    (hfree : FreeListOk pdb free) {pages : List ℕ} (hmem : pages ∈ neighbourRanges free) :
    (∀ piece ∈ segmentLine pages, piece.Ok) ∧
      ((segmentLine pages).map Piece.width).sum < printfBuf := by
  have hne := List.ne_nil_of_mem_splitBy hmem
  have hpart := List.infix_of_mem_flatten hmem
  rw [neighbourRanges, List.flatten_splitBy] at hpart
  have hlength := hpart.length_le.trans hfree.length_le
  have hhead : pages.headD 0 < pdb.numPages := by
    cases pages with
    | nil => exact absurd rfl hne
    | cons a pages => exact hfree.lt_numPages a (hpart.subset List.mem_cons_self)
  refine ⟨?_, ?_⟩
  · simp only [segmentLine, List.forall_mem_cons, List.not_mem_nil, false_implies, implies_true,
      and_true]
    refine ⟨forall_mem_of_all (by decide), ?_, forall_mem_of_all (by decide), ?_,
      forall_mem_of_all (by decide)⟩
    · change pages.headD 0 < 2 ^ 31
      omega
    · change pages.length < 2 ^ 31
      omega
  · simp [segmentLine, Piece.width, printfBuf]

/-- **The listings of the page database.** In every state that calls can reach, in a database of
fewer than 2^31 pages, `vm_page -r` prints the longest ranges of pages with one flag in ascending
order, with the low 32 bits of their addresses: for fewer than 2^11 pages these are the addresses,
for more they are not. `vm_page -f` ends and prints the longest ranges of neighbours on the free
list, in its order. -/
theorem vmPageDumpCmd_prints (hinit : Initialised init) (hpages : init.numPages < 2 ^ 31)
    (hrun : Reaches PageRun.step ReservationsOk (.start init) s) (argv : List (List Char)) :
    (argv[1]? = some "-r".toList → (vmPageDumpCmd s.pdb argv).bind printAll =
      some ((flagRanges s.pdb).flatMap fun pages => (rangeLine32 s.pdb pages).flatMap Piece.out)) ∧
    ((∀ pages ∈ flagRanges s.pdb, rangeLine32 s.pdb pages = rangeLine s.pdb pages) ↔
      s.pdb.numPages < 2 ^ 11) ∧
    ∃ free, FreeListOk s.pdb free ∧
      (argv[1]? = some "-f".toList → (vmPageDumpCmd s.pdb argv).bind printAll =
        some ((neighbourRanges free).flatMap fun pages =>
          (segmentLine pages).flatMap Piece.out)) := by
  obtain ⟨free, hinv⟩ := reserve_run_inv hinit hrun
  have hsize : s.pdb.numPages < 2 ^ 31 := by
    refine hrun.invariant (I := fun s => s.pdb.numPages < 2 ^ 31) hpages ?_
    intro t op t' ht _ hstep
    rw [(PageRun.step_header hstep).2]
    exact ht
  refine ⟨fun hargv => ?_, rangeLine32_eq_iff s.pdb, free, hinv.ok, fun hargv => ?_⟩
  · have hdump : pageDbDumpRanges s.pdb =
        some ((flagRanges s.pdb).map fun pages => lineCall (rangeLine32 s.pdb pages)) := by
      rw [pageDbDumpRanges, dumpRanges_eq (by omega) (Nat.zero_le _) (by omega), Nat.sub_zero,
        ← List.range_eq_range']
      rfl
    have hprint := @printAll_lines ((flagRanges s.pdb).map (rangeLine32 s.pdb))
      (List.forall_mem_map.mpr fun pages hmem => (rangeLine32_ok hsize hmem).1)
      (List.forall_mem_map.mpr fun pages hmem => (rangeLine32_ok hsize hmem).2)
    rw [List.map_map, List.flatMap_map] at hprint
    rw [vmPageDumpCmd, hargv]
    dsimp only
    rw [if_pos rfl, hdump, Option.bind_some, ← hprint]
    rfl
  · have hdump : pageDbDumpFreeList s.pdb =
        some ((neighbourRanges free).map fun pages => lineCall (segmentLine pages)) := by
      have hlength := hinv.ok.length_le
      exact dumpFreeList_eq (by omega) hinv.ok.chain hinv.ok.lt_numPages hlength (by omega)
    have hprint := @printAll_lines ((neighbourRanges free).map segmentLine)
      (List.forall_mem_map.mpr fun pages hmem => (segmentLine_ok hsize hinv.ok hmem).1)
      (List.forall_mem_map.mpr fun pages hmem => (segmentLine_ok hsize hinv.ok hmem).2)
    rw [List.map_map, List.flatMap_map] at hprint
    have hother : "-f".toList ≠ "-r".toList := by decide
    rw [vmPageDumpCmd, hargv]
    dsimp only
    rw [if_neg hother, if_pos rfl, hdump, Option.bind_some, ← hprint]
    rfl

/-- A machine with 16MB of memory, after an allocation. -/
theorem vmPageDumpCmd_prints_16mb :
    ∃ s, Reaches PageRun.step ReservationsOk (.start (pageDbInit .blank (2 ^ 24) (2 ^ 21))) s ∧
      (vmPageDumpCmd s.pdb ["vm_page".toList, "-r".toList]).bind printAll =
        some ("rsvd:[0000:0001] 0000000000000000:0000000000200000\n".toList ++
          "used:[0001:0002] 0000000000200000:0000000000400000\n".toList ++
          "free:[0002:0008] 0000000000400000:0000000001000000\n".toList) := by
  have hinit : Initialised (pageDbInit .blank (2 ^ 24) (2 ^ 21)) :=
    .init _ _ _ (by decide +kernel) (by decide +kernel)
  have hstep : ((PageRun.start (pageDbInit .blank (2 ^ 24) (2 ^ 21))).step .alloc).map (fun s =>
      (flagRanges s.pdb).flatMap fun pages => (rangeLine32 s.pdb pages).flatMap Piece.out) =
        some ("rsvd:[0000:0001] 0000000000000000:0000000000200000\n".toList ++
          "used:[0001:0002] 0000000000200000:0000000000400000\n".toList ++
          "free:[0002:0008] 0000000000400000:0000000001000000\n".toList) := by decide +kernel
  obtain ⟨s, hs, htext⟩ := Option.map_eq_some_iff.mp hstep
  have hrun : Reaches PageRun.step ReservationsOk
      (.start (pageDbInit .blank (2 ^ 24) (2 ^ 21))) s :=
    .tail (o := PageOp.alloc) (.refl _) trivial hs
  have hprints := (vmPageDumpCmd_prints hinit (by decide +kernel) hrun
    ["vm_page".toList, "-r".toList]).1 rfl
  exact ⟨s, hrun, hprints.trans (congrArg some htext)⟩

end Listings

end Smor.Vm
