import Mathlib.Tactic.Ring
import Smor.Lib.Writes
import Smor.Types

/-!
# The text mode console

`vga_cons_putchar` stores characters in a grid of 25 by 80 cells of 16 bits. A wrap at the right
edge is left to the next character, which may be a newline that goes down by a second row, while
the screen scrolls by one row. The grid is compared with the same code on a console of
unlimited height, where nothing scrolls.
-/

namespace Smor.Console

open Smor.Lib

/-- `vga_entry_color`. -/
def vgaEntryColor (fg bg : ℕ) : ℕ := fg ||| bg <<< 4

/-- `vga_entry`. -/
def vgaEntry (uc color : ℕ) : ℕ := uc ||| color <<< 8

/-- `struct console_t`, without the pointer to the cells. -/
structure VgaCons where
  xPos : ℕ
  yPos : ℕ
  width : ℕ
  height : ℕ
  color : ℕ
  deriving DecidableEq

/-- `vga_cons_init`. -/
def VgaCons.init : VgaCons := ⟨0, 0, 80, 25, vgaEntryColor 7 0⟩

/-- A store to the grid, by indices of cells: a cell, or a `memcpy`. -/
inductive CellStore where
  | cell (index value : ℕ)
  | copy (dst src len : ℕ)
  deriving DecidableEq

/-- The store falls inside `size` cells. -/
def CellStore.Inside (size : ℕ) : CellStore → Prop
  | .cell index _ => index < size
  | .copy dst _ len => dst + len ≤ size

/-- The cells after a store. A `memcpy` goes forwards, to a destination below its source. -/
def CellStore.apply (cells : ℕ → ℕ) : CellStore → ℕ → ℕ
  | .cell index value => applyWrite cells fun i => if i = index then some value else none
  | .copy dst src len => fun i => if dst ≤ i ∧ i < dst + len then cells (i - dst + src) else cells i

/-- The cells after a list of stores. -/
def applyCells (cells : ℕ → ℕ) (stores : List CellStore) : ℕ → ℕ :=
  stores.foldl CellStore.apply cells

theorem applyCells_append (cells : ℕ → ℕ) (stores stores' : List CellStore) :
    applyCells cells (stores ++ stores') = applyCells (applyCells cells stores) stores' :=
  List.foldl_append

/-- The pending wrap at the start of `vga_cons_putchar`. -/
def VgaCons.wrap (c : VgaCons) : VgaCons :=
  if c.width ≤ c.xPos then { c with
    xPos := 0
    yPos := u16 (c.yPos + 1) } else c

/-- What a tab or a newline does to the cursor. -/
def VgaCons.move (c : VgaCons) (ch : Char) : VgaCons :=
  let c := if ch = '\t' then { c with xPos := u16 (c.xPos + 4) } else c
  if ch = '\n' then { c with
    xPos := 0
    yPos := u16 (c.yPos + 1) } else c

/-- The scrolling of `vga_cons_putchar`. -/
def VgaCons.scroll (c : VgaCons) : List CellStore × VgaCons :=
  let copy := CellStore.copy 0 c.width (c.width * (c.height - 1))
  let c := { c with yPos := u16 (c.height - 1) }
  (copy :: (List.range c.width).map fun i => .cell (c.yPos * c.width + i) 0, c)

/-- `vga_cons_putchar`: its stores, and the cursor that it leaves. -/
def VgaCons.putchar (c : VgaCons) (ch : Char) : List CellStore × VgaCons :=
  let c := c.wrap.move ch
  let (scrolled, c) := if c.height ≤ c.yPos then c.scroll else ([], c)
  if 32 ≤ ch.toNat then
    (scrolled ++ [.cell (c.yPos * c.width + c.xPos) (vgaEntry ch.toNat c.color)],
      { c with xPos := u16 (c.xPos + 1) })
  else (scrolled, c)

/-- The stores of a string, and the cursor behind it. -/
def VgaCons.putstr : VgaCons → List Char → List CellStore × VgaCons
  | c, [] => ([], c)
  | c, ch :: str =>
    let (stores, c) := c.putchar ch
    let (stores', c) := c.putstr str
    (stores ++ stores', c)

/-- A console of unlimited height: the cursor, and the cell in a row and a column. -/
structure Sheet where
  row : ℕ
  col : ℕ
  cells : ℕ → ℕ → ℕ

/-- The sheet at its start: a screen of 25 rows on top of empty cells. -/
def Sheet.init (screen : ℕ → ℕ) : Sheet :=
  ⟨0, 0, fun r k => if r < 25 then screen (r * 80 + k) else 0⟩

/-- The pending wrap. -/
def Sheet.wrap (s : Sheet) : Sheet :=
  if 80 ≤ s.col then { s with
    row := s.row + 1
    col := 0 } else s

/-- What a tab or a newline does to the cursor. -/
def Sheet.move (s : Sheet) (ch : Char) : Sheet :=
  let s := if ch = '\t' then { s with col := s.col + 4 } else s
  if ch = '\n' then { s with
    row := s.row + 1
    col := 0 } else s

/-- The code of `vga_cons_putchar` without the scrolling. -/
def Sheet.put (color : ℕ) (s : Sheet) (ch : Char) : Sheet :=
  let s := s.wrap.move ch
  if 32 ≤ ch.toNat then { s with
    cells := fun r k => if r = s.row ∧ k = s.col then vgaEntry ch.toNat color else s.cells r k
    col := s.col + 1 }
  else s

/-- A string. -/
def Sheet.print (color : ℕ) (s : Sheet) (str : List Char) : Sheet := str.foldl (Sheet.put color) s

/-- The last 25 rows up to the one of the cursor. -/
def Sheet.lastRows (s : Sheet) (r k : ℕ) : ℕ := s.cells (s.row + 1 - 25 + r) k

/-- No newline comes while a wrap is pending in the last row. -/
def VgaCons.KeepsUp : VgaCons → List Char → Prop
  | _, [] => True
  | c, ch :: str =>
    (ch = '\n' → c.width ≤ c.xPos → c.yPos + 1 < c.height) ∧ VgaCons.KeepsUp (c.putchar ch).2 str

instance VgaCons.decidableKeepsUp : (c : VgaCons) → (str : List Char) → Decidable (c.KeepsUp str)
  | _, [] => .isTrue trivial
  | c, ch :: str => @instDecidableAnd _ _ _ (decidableKeepsUp (c.putchar ch).2 str)

section Screen

variable {c : VgaCons} {ch : Char}

/-- The cursor of the console between two characters. -/
structure VgaCons.Ok (c : VgaCons) : Prop where
  width : c.width = 80
  height : c.height = 25
  xPos_lt : c.xPos < 84
  yPos_lt : c.yPos < 25

theorem VgaCons.init_ok : VgaCons.init.Ok := ⟨rfl, rfl, by decide, by decide⟩

/-- The cursor after the wrap. -/
theorem VgaCons.Ok.wrap_eq (hc : c.Ok) :
    c.wrap = { c with
      xPos := if 80 ≤ c.xPos then 0 else c.xPos
      yPos := if 80 ≤ c.xPos then c.yPos + 1 else c.yPos } := by
  have hy := hc.yPos_lt
  have hnext : u16 (c.yPos + 1) = c.yPos + 1 := u16_of_lt (by omega)
  have hedge : (c.width ≤ c.xPos) = (80 ≤ c.xPos) := by rw [hc.width]
  simp only [VgaCons.wrap, hedge, hnext]
  split_ifs <;> rfl

/-- The cursor after a tab or a newline. -/
theorem VgaCons.move_eq (hx : c.xPos < 80) (hy : c.yPos < 26) (ch : Char) :
    c.move ch = { c with
      xPos := if ch = '\n' then 0 else if ch = '\t' then c.xPos + 4 else c.xPos
      yPos := if ch = '\n' then c.yPos + 1 else c.yPos } := by
  have htab : u16 (c.xPos + 4) = c.xPos + 4 := u16_of_lt (by omega)
  have hnext : u16 (c.yPos + 1) = c.yPos + 1 := u16_of_lt (by omega)
  unfold VgaCons.move
  rw [htab]
  by_cases hnewline : ch = '\n'
  · have hne : ch ≠ '\t' := by
      rw [hnewline]
      decide
    simp only [if_pos hnewline, if_neg hne, hnext]
  · simp only [if_neg hnewline]
    split_ifs <;> rfl

/-- The cursor of a character, before the scrolling. A character that is drawn comes in a column
of the screen. -/
structure VgaCons.Moved (c : VgaCons) (ch : Char) : Prop where
  width : c.width = 80
  height : c.height = 25
  xPos_lt : c.xPos < 84
  column : 32 ≤ ch.toNat → c.xPos < 80
  yPos_lt : c.yPos < 27

theorem VgaCons.Ok.moved (hc : c.Ok) (ch : Char) : (c.wrap.move ch).Moved ch := by
  have hx := hc.xPos_lt
  have hy := hc.yPos_lt
  have hcolumn : (if 80 ≤ c.xPos then 0 else c.xPos) < 80 := by split_ifs <;> omega
  have hrow : (if 80 ≤ c.xPos then c.yPos + 1 else c.yPos) < 26 := by split_ifs <;> omega
  rw [hc.wrap_eq, VgaCons.move_eq hcolumn hrow]
  refine ⟨hc.width, hc.height, ?_, fun hdrawn => ?_, ?_⟩
  · dsimp only
    split_ifs <;> omega
  · have hnewline : ch ≠ '\n' := by
      rintro rfl
      exact absurd hdrawn (by decide)
    have htab : ch ≠ '\t' := by
      rintro rfl
      exact absurd hdrawn (by decide)
    dsimp only
    rwa [if_neg hnewline, if_neg htab]
  · dsimp only
    split_ifs <;> omega

/-- The cursor after the scrolling, where it is necessary. -/
def VgaCons.scrolled (c : VgaCons) : VgaCons :=
  if c.height ≤ c.yPos then { c with yPos := c.height - 1 } else c

/-- The stores of the scrolling, where it is necessary. -/
def VgaCons.scrollStores (c : VgaCons) : List CellStore :=
  if c.height ≤ c.yPos then
    .copy 0 80 1920 :: (List.range 80).map fun i => .cell (1920 + i) 0
  else []

/-- The stores of a character and the cursor that it leaves. -/
theorem VgaCons.Ok.putchar_eq (hc : c.Ok) (ch : Char) :
    c.putchar ch = (if 32 ≤ ch.toNat then
      ((c.wrap.move ch).scrollStores ++
          [.cell ((c.wrap.move ch).scrolled.yPos * 80 + (c.wrap.move ch).scrolled.xPos)
            (vgaEntry ch.toNat (c.wrap.move ch).scrolled.color)],
        { (c.wrap.move ch).scrolled with xPos := (c.wrap.move ch).scrolled.xPos + 1 })
      else ((c.wrap.move ch).scrollStores, (c.wrap.move ch).scrolled)) := by
  have hmoved := hc.moved ch
  have hscroll : (if (c.wrap.move ch).height ≤ (c.wrap.move ch).yPos then (c.wrap.move ch).scroll
      else ([], c.wrap.move ch)) = ((c.wrap.move ch).scrollStores, (c.wrap.move ch).scrolled) := by
    unfold VgaCons.scrollStores VgaCons.scrolled
    split_ifs
    · have hlast : u16 (25 - 1) = 25 - 1 := u16_of_lt (by decide)
      simp only [VgaCons.scroll, hmoved.width, hmoved.height, hlast]
    · rfl
  have hx : (c.wrap.move ch).scrolled.xPos = (c.wrap.move ch).xPos := by
    unfold VgaCons.scrolled
    split_ifs <;> rfl
  have hwidth : (c.wrap.move ch).scrolled.width = 80 := by
    unfold VgaCons.scrolled
    split_ifs <;> exact hmoved.width
  have hnext : u16 ((c.wrap.move ch).scrolled.xPos + 1) = (c.wrap.move ch).scrolled.xPos + 1 := by
    have hlt := hmoved.xPos_lt
    exact u16_of_lt (by omega)
  unfold VgaCons.putchar
  simp only [hscroll, hwidth, hnext]

/-- The cursor stays on the screen. -/
theorem VgaCons.Ok.putchar (hc : c.Ok) (ch : Char) : (c.putchar ch).2.Ok := by
  obtain ⟨hwidth, hheight, hx, hcolumn, hy⟩ := hc.moved ch
  have hrow : (c.wrap.move ch).scrolled.yPos < 25 := by
    unfold VgaCons.scrolled
    split_ifs with hbelow
    · change (c.wrap.move ch).height - 1 < 25
      omega
    · omega
  have hsame : (c.wrap.move ch).scrolled.width = (c.wrap.move ch).width ∧
      (c.wrap.move ch).scrolled.height = (c.wrap.move ch).height ∧
      (c.wrap.move ch).scrolled.xPos = (c.wrap.move ch).xPos := by
    unfold VgaCons.scrolled
    split_ifs <;> exact ⟨rfl, rfl, rfl⟩
  obtain ⟨hwidth', hheight', hx'⟩ := hsame
  rw [hc.putchar_eq ch]
  split_ifs with hdrawn
  · have hlt := hcolumn hdrawn
    exact ⟨hwidth'.trans hwidth, hheight'.trans hheight, by dsimp only; omega, hrow⟩
  · exact ⟨hwidth'.trans hwidth, hheight'.trans hheight, by dsimp only; omega, hrow⟩

/-- All stores of a character are inside. -/
theorem VgaCons.Ok.putchar_inside (hc : c.Ok) (ch : Char) :
    ∀ s ∈ (c.putchar ch).1, s.Inside 2000 := by
  obtain ⟨-, hheight, hx, hcolumn, hy⟩ := hc.moved ch
  have hscroll : ∀ s ∈ (c.wrap.move ch).scrollStores, s.Inside 2000 := by
    unfold VgaCons.scrollStores
    split_ifs
    · refine List.forall_mem_cons.mpr ⟨?_, fun s hs => ?_⟩
      · rw [CellStore.Inside]
        decide
      · obtain ⟨i, hi, rfl⟩ := List.mem_map.mp hs
        have hlt := List.mem_range.mp hi
        rw [CellStore.Inside]
        omega
    · exact fun s hs => absurd hs List.not_mem_nil
  rw [hc.putchar_eq ch]
  split_ifs with hdrawn
  · refine List.forall_mem_append.mpr ⟨hscroll, List.forall_mem_singleton.mpr ?_⟩
    have hlt := hcolumn hdrawn
    rw [CellStore.Inside]
    unfold VgaCons.scrolled
    split_ifs with hbelow
    · change ((c.wrap.move ch).height - 1) * 80 + (c.wrap.move ch).xPos < 2000
      omega
    · omega
  · exact hscroll

/-- All stores of a string are inside. -/
theorem VgaCons.Ok.putstr_inside (hc : c.Ok) (str : List Char) :
    ∀ s ∈ (c.putstr str).1, s.Inside 2000 := by
  induction str generalizing c with
  | nil => exact fun s hs => absurd hs List.not_mem_nil
  | cons ch str ih =>
    exact List.forall_mem_append.mpr ⟨hc.putchar_inside ch, ih (hc.putchar ch)⟩

end Screen

section Tracking

variable {c : VgaCons} {cells : ℕ → ℕ} {s : Sheet} {top : ℕ}

/-- The grid is the sheet from the row `top` on, and the cursors are at the same place. Below
the cursor the sheet has empty cells where the screen at the start did not reach. -/
structure OnSheet (c : VgaCons) (cells : ℕ → ℕ) (s : Sheet) (top : ℕ) : Prop where
  ok : c.Ok
  col : c.xPos = s.col
  row : c.yPos + top = s.row
  full : top = 0 ∨ c.yPos = 24
  blank : ∀ r k, 25 ≤ r → s.row < r → s.cells r k = 0
  shows : ∀ r < 25, ∀ k < 80, cells (r * 80 + k) = s.cells (top + r) k

theorem Sheet.wrap_eq (s : Sheet) :
    s.wrap = { s with
      row := if 80 ≤ s.col then s.row + 1 else s.row
      col := if 80 ≤ s.col then 0 else s.col } := by
  unfold Sheet.wrap
  split_ifs <;> rfl

theorem Sheet.move_eq (s : Sheet) (ch : Char) :
    s.move ch = { s with
      row := if ch = '\n' then s.row + 1 else s.row
      col := if ch = '\n' then 0 else if ch = '\t' then s.col + 4 else s.col } := by
  unfold Sheet.move
  split_ifs <;> rfl

/-- The cursors move together. Without a pending wrap in the last row they go down by one row at
most. -/
theorem OnSheet.moved (h : OnSheet c cells s top) {ch : Char}
    (hup : ch = '\n' → c.width ≤ c.xPos → c.yPos + 1 < c.height) :
    (c.wrap.move ch).xPos = (s.wrap.move ch).col ∧
      (c.wrap.move ch).yPos + top = (s.wrap.move ch).row ∧
      (s.wrap.move ch).cells = s.cells ∧ c.yPos ≤ (c.wrap.move ch).yPos ∧
      (c.wrap.move ch).yPos ≤ 25 ∧ (c.wrap.move ch).color = c.color := by
  obtain ⟨hok, hcol, hrow, hfull, hblank, hshows⟩ := h
  rw [hok.width, hok.height] at hup
  have hx := hok.xPos_lt
  have hy := hok.yPos_lt
  have hcolumn : (if 80 ≤ c.xPos then 0 else c.xPos) < 80 := by split_ifs <;> omega
  have hrow' : (if 80 ≤ c.xPos then c.yPos + 1 else c.yPos) < 26 := by split_ifs <;> omega
  rw [hok.wrap_eq, VgaCons.move_eq hcolumn hrow', Sheet.wrap_eq, Sheet.move_eq, ← hcol, ← hrow]
  refine ⟨rfl, ?_, rfl, ?_, ?_, rfl⟩
  · dsimp only
    split_ifs <;> omega
  · dsimp only
    split_ifs <;> omega
  · by_cases hnewline : ch = '\n'
    · by_cases hedge : 80 ≤ c.xPos
      · have hlast := hup hnewline hedge
        simp only [if_pos hnewline, if_pos hedge]
        omega
      · simp only [if_pos hnewline, if_neg hedge]
        omega
    · simp only [if_neg hnewline]
      split_ifs <;> omega

/-- The stores of the scrolling move the rows up and empty the last one. -/
theorem applyCells_scrollStores {r k : ℕ} (hr : r < 25) (hk : k < 80) :
    applyCells cells (.copy 0 80 1920 :: (List.range 80).map fun i => .cell (1920 + i) 0)
        (r * 80 + k) =
      if r = 24 then 0 else cells ((r + 1) * 80 + k) := by
  have hcells : ∀ cells', applyCells cells' ((List.range 80).map fun i => .cell (1920 + i) 0) =
      applyWrites cells' ((List.range 80).map fun i j =>
        if j = 1920 + i then some 0 else none) := by
    intro cells'
    simp only [applyCells, applyWrites, List.foldl_map, CellStore.apply]
  have hsplit : applyCells cells (.copy 0 80 1920 :: (List.range 80).map fun i =>
      .cell (1920 + i) 0) = applyCells (CellStore.apply cells (.copy 0 80 1920))
        ((List.range 80).map fun i => .cell (1920 + i) 0) := rfl
  rw [hsplit, hcells]
  split_ifs with hlast
  · apply applyWrites_touched
    · intro w hw
      obtain ⟨i, -, rfl⟩ := List.mem_map.mp hw
      dsimp only
      split_ifs
      · exact Or.inr rfl
      · exact Or.inl rfl
    · refine ⟨_, List.mem_map.mpr ⟨k, List.mem_range.mpr hk, rfl⟩, ?_⟩
      rw [if_pos (by omega)]
      exact Option.some_ne_none 0
  · rw [applyWrites_untouched]
    · have hcopied : 0 ≤ r * 80 + k ∧ r * 80 + k < 0 + 1920 := by omega
      have hsource : r * 80 + k - 0 + 80 = (r + 1) * 80 + k := by omega
      rw [← hsource]
      exact if_pos hcopied
    · intro w hw
      obtain ⟨i, -, rfl⟩ := List.mem_map.mp hw
      exact if_neg (by omega)

/-- Scrolling, where it is necessary, drops the first row of the sheet. -/
theorem OnSheet.scroll (h : OnSheet c cells s top) {m : VgaCons} (hwidth : m.width = 80)
    (hheight : m.height = 25) (hx : m.xPos < 84) (hmin : c.yPos ≤ m.yPos) (hmax : m.yPos ≤ 25)
    {s' : Sheet} (hcol : m.xPos = s'.col) (hrow : m.yPos + top = s'.row)
    (hcells : s'.cells = s.cells) :
    ∃ top', OnSheet m.scrolled (applyCells cells m.scrollStores) s' top' := by
  obtain ⟨hok, -, hrow₀, hfull, hblank, hshows⟩ := h
  have hlow := hok.yPos_lt
  unfold VgaCons.scrolled VgaCons.scrollStores
  by_cases hbelow : m.height ≤ m.yPos
  · rw [if_pos hbelow, if_pos hbelow]
    refine ⟨top + 1, ⟨hwidth, hheight, hx, ?_⟩, hcol, ?_, Or.inr ?_, fun r k hr hlt => ?_,
      fun r hr k hk => ?_⟩
    · change m.height - 1 < 25
      omega
    · change m.height - 1 + (top + 1) = s'.row
      omega
    · change m.height - 1 = 24
      omega
    · rw [hcells]
      exact hblank r k hr (by omega)
    · rw [applyCells_scrollStores hr hk, hcells]
      split_ifs with hlast
      · -- The sheet has nothing below the cursor.
        exact (hblank (top + 1 + r) k (by omega) (by omega)).symm
      · rw [hshows (r + 1) (by omega) k hk, Nat.add_assoc, Nat.add_comm 1 r]
  · rw [if_neg hbelow, if_neg hbelow]
    refine ⟨top, ⟨hwidth, hheight, hx, by omega⟩, hcol, hrow, by omega, fun r k hr hlt => ?_, ?_⟩
    · rw [hcells]
      exact hblank r k hr (by omega)
    · rw [hcells]
      exact hshows

/-- One character. -/
theorem OnSheet.step (h : OnSheet c cells s top) {ch : Char}
    (hup : ch = '\n' → c.width ≤ c.xPos → c.yPos + 1 < c.height) :
    ∃ top', OnSheet (c.putchar ch).2 (applyCells cells (c.putchar ch).1) (s.put c.color ch) top' ∧
      (c.putchar ch).2.color = c.color := by
  obtain ⟨hcol, hrow, hcells, hmin, hmax, hcolor⟩ := h.moved hup
  obtain ⟨hwidth, hheight, hx, hcolumn, -⟩ := h.ok.moved ch
  obtain ⟨top', hscrolled⟩ := h.scroll hwidth hheight hx hmin hmax hcol hrow hcells
  have hsame : (c.wrap.move ch).scrolled.xPos = (c.wrap.move ch).xPos ∧
      (c.wrap.move ch).scrolled.color = (c.wrap.move ch).color := by
    unfold VgaCons.scrolled
    split_ifs <;> exact ⟨rfl, rfl⟩
  have hok := h.ok.putchar ch
  rw [h.ok.putchar_eq ch] at hok ⊢
  rw [Sheet.put]
  by_cases hdrawn : 32 ≤ ch.toNat
  · simp only [if_pos hdrawn] at hok ⊢
    obtain ⟨-, hcol', hrow', hfull, hblank, hshows⟩ := hscrolled
    have hlt := hcolumn hdrawn
    refine ⟨top', ⟨hok, ?_, hrow', hfull, fun r k hr hlow => ?_, fun r hr k hk => ?_⟩,
      hsame.2.trans hcolor⟩
    · dsimp only
      rw [hcol']
    · dsimp only at hlow ⊢
      rw [if_neg (by omega)]
      exact hblank r k hr hlow
    · rw [applyCells_append]
      dsimp only
      have hplace : r * 80 + k = (c.wrap.move ch).scrolled.yPos * 80 +
            (c.wrap.move ch).scrolled.xPos ↔
          top' + r = (s.wrap.move ch).row ∧ k = (s.wrap.move ch).col := by omega
      have hwrite : applyCells (applyCells cells (c.wrap.move ch).scrollStores)
          [.cell ((c.wrap.move ch).scrolled.yPos * 80 + (c.wrap.move ch).scrolled.xPos)
            (vgaEntry ch.toNat (c.wrap.move ch).scrolled.color)] (r * 80 + k) =
          if r * 80 + k = (c.wrap.move ch).scrolled.yPos * 80 + (c.wrap.move ch).scrolled.xPos then
            vgaEntry ch.toNat (c.wrap.move ch).scrolled.color
          else applyCells cells (c.wrap.move ch).scrollStores (r * 80 + k) := by
        simp only [applyCells, List.foldl_cons, List.foldl_nil, CellStore.apply, applyWrite]
        split_ifs <;> rfl
      rw [hwrite, hsame.2, hcolor]
      simp only [hplace, hshows r hr k hk]
  · simp only [if_neg hdrawn]
    exact ⟨top', hscrolled, hsame.2.trans hcolor⟩

/-- A string of which every character keeps up. -/
theorem OnSheet.run (h : OnSheet c cells s top) {str : List Char} (hup : c.KeepsUp str) :
    ∃ top', OnSheet (c.putstr str).2 (applyCells cells (c.putstr str).1)
      (s.print c.color str) top' := by
  induction str generalizing c cells s top with
  | nil => exact ⟨top, h⟩
  | cons ch str ih =>
    obtain ⟨top', hstep, hcolor⟩ := h.step hup.1
    obtain ⟨top'', hrun⟩ := ih hstep hup.2
    rw [hcolor, ← applyCells_append] at hrun
    exact ⟨top'', hrun⟩

end Tracking

/-- All stores of a string are inside the 25 by 80 cells. The grid shows the last rows of the
same string on a console of unlimited height, if no newline comes while a wrap is pending in
the last row. -/
theorem vgaPutstr_shows_lastRows (screen : ℕ → ℕ) (str : List Char) :
    (∀ s ∈ (VgaCons.init.putstr str).1, s.Inside (25 * 80)) ∧
      (VgaCons.init.KeepsUp str → ∀ r < 25, ∀ k < 80,
        applyCells screen (VgaCons.init.putstr str).1 (r * 80 + k) =
          ((Sheet.init screen).print VgaCons.init.color str).lastRows r k) := by
  refine ⟨VgaCons.init_ok.putstr_inside str, fun hup r hr k hk => ?_⟩
  have hstart : OnSheet VgaCons.init screen (Sheet.init screen) 0 :=
    { ok := VgaCons.init_ok
      col := rfl
      row := rfl
      full := Or.inl rfl
      blank := fun r k hr _ => if_neg (by omega)
      shows := fun r hr k _ => by
        rw [Nat.zero_add]
        exact (if_pos hr).symm }
  obtain ⟨top, hok, -, hrow, hfull, -, hshows⟩ := hstart.run hup
  have htop : ((Sheet.init screen).print VgaCons.init.color str).row + 1 - 25 = top := by
    have hlt := hok.yPos_lt
    omega
  rw [Sheet.lastRows, htop]
  exact hshows r hr k hk

/-- The full row is above the last one after another character has scrolled the screen. -/
theorem vgaPutstr_shows_wrap :
    applyCells (fun _ => 0) (VgaCons.init.putstr
        (List.replicate 24 '\n' ++ List.replicate 81 'a')).1 (23 * 80 + 79) =
      ((Sheet.init fun _ => 0).print VgaCons.init.color
        (List.replicate 24 '\n' ++ List.replicate 81 'a')).lastRows 23 79 :=
  (vgaPutstr_shows_lastRows (fun _ => 0) _).2 (by decide +kernel) 23 (by decide) 79 (by decide)

/-- A full row in the last one, and a newline: an empty row is lost. -/
theorem vgaPutstr_loses_row :
    ¬ ∀ r < 25, ∀ k < 80,
      applyCells (fun _ => 0) (VgaCons.init.putstr
          (List.replicate 24 '\n' ++ List.replicate 80 'a' ++ ['\n', 'b'])).1 (r * 80 + k) =
        ((Sheet.init fun _ => 0).print VgaCons.init.color
          (List.replicate 24 '\n' ++ List.replicate 80 'a' ++ ['\n', 'b'])).lastRows r k := by
  intro h
  exact absurd (h 23 (by decide) 0 (by decide)) (by decide +kernel)

end Smor.Console
