import Smor.Console.FbCons
import Smor.Lib.Writes

/-!
# What the framebuffer shows

The stores of the framebuffer console are applied to a memory of bytes. A pixel is two bytes,
and a row of pixels begins `pitch` bytes behind the one above it, so that a byte of the screen has a
row and a column. The loops of `fb_draw_char`, `fb_clear_char` and `fb_cons_clear` are rasters:
they color some of the pixels of a box.
-/

namespace Smor.Console

open Smor.Lib

/-- The contents of memory, by offsets from `fb_addr`. -/
abbrev Mem := ℤ → BitVec 8

/-- A byte of a color, by its column. -/
def colorByte (color j : ℕ) : BitVec 8 := BitVec.ofNat 8 (color >>> (8 * (j % 2)))

/-- The write of a pixel. -/
def pixelWrite (off : ℤ) (color : ℕ) : Write ℤ (BitVec 8) := fun b =>
  if b = off then some (colorByte color 0)
  else if b = off + 1 then some (colorByte color 1)
  else none

/-- The memory after a store. A `memcpy` goes forwards, to a destination below its source. -/
def Store.apply (mem : Mem) : Store → Mem
  | .pixel off color => applyWrite mem (pixelWrite off color)
  | .copy dst src len => fun b => if dst ≤ b ∧ b < dst + len then mem (b - dst + src) else mem b

/-- The memory after a list of stores. -/
def applyStores (mem : Mem) (stores : List Store) : Mem := stores.foldl Store.apply mem

theorem applyStores_append (mem : Mem) (stores stores' : List Store) :
    applyStores mem (stores ++ stores') = applyStores (applyStores mem stores) stores' :=
  List.foldl_append

/-- The pixels that a loop over the rows of a box colors, where the box has `m` rows of `n` pixels
and begins at `ptr`. -/
def raster (pitch : ℕ) (ptr : ℤ) (m n : ℕ) (color : ℕ → ℕ → Option ℕ) : List (ℤ × ℕ) :=
  (List.range m).flatMap fun (y : ℕ) => (List.range n).filterMap fun (x : ℕ) =>
    (color y x).map fun color => (ptr + y * pitch + 2 * x, color)

/-- The stores of some pixels. -/
def pixelStores (pixels : List (ℤ × ℕ)) : List Store :=
  pixels.map fun p => .pixel p.1 p.2

theorem FbCons.clearRows_eq_raster (c : FbCons) (ptr : ℤ) (n : ℕ) :
    c.clearRows ptr n =
      pixelStores (raster c.pitch ptr 16 n fun _ _ => some clearColor) := by
  simp [FbCons.clearRows, raster, pixelStores, List.map_flatMap, fontHeight, Function.comp_def]

theorem FbCons.fbDrawChar_eq_raster (c : FbCons) (glyphs : ℕ → ℕ → ℕ) (ch : Char) :
    c.fbDrawChar glyphs ch = pixelStores (raster c.pitch (c.rowOffset + c.xPos * 2) 16 8
      fun y x => glyphColor (glyphs (ch.toNat - 31) (y * 9 + x))) := by
  simp [FbCons.fbDrawChar, raster, pixelStores, List.map_flatMap, List.map_filterMap,
    Function.comp_def]

/-- `fb_cons_clear`. -/
def FbCons.clear (c : FbCons) : List Store :=
  (List.range c.height).flatMap fun (y : ℕ) =>
    (List.range c.width).map fun (x : ℕ) => .pixel (y * c.pitch + 2 * x) clearColor

theorem FbCons.clear_eq_raster (c : FbCons) :
    c.clear = pixelStores (raster c.pitch 0 c.height c.width fun _ _ => some clearColor) := by
  simp [FbCons.clear, raster, pixelStores, List.map_flatMap, Function.comp_def]

/-- The stores of pixels write them. -/
theorem applyStores_pixels (mem : Mem) (pixels : List (ℤ × ℕ)) :
    applyStores mem (pixelStores pixels) =
      applyWrites mem (pixels.map fun p => pixelWrite p.1 p.2) := by
  simp only [applyStores, pixelStores, applyWrites, List.foldl_map, Store.apply]

section Rasters

variable {pitch m n : ℕ} {ptr : ℤ} {color : ℕ → ℕ → Option ℕ}

/-- A position in a row of pixels determines the row and the column. -/
theorem row_column_unique {r r' j j' : ℕ} (hj : j < pitch) (hj' : j' < pitch)
    (h : r * pitch + j = r' * pitch + j') : r = r' ∧ j = j' := by
  have hpos : 0 < pitch := by omega
  have hdiv := congrArg (· / pitch) h
  simp only [Nat.mul_comm _ pitch, Nat.mul_add_div hpos, Nat.div_eq_of_lt hj,
    Nat.div_eq_of_lt hj', Nat.add_zero] at hdiv
  subst hdiv
  exact ⟨rfl, by omega⟩

/-- A pixel of a raster, by its row and its column in the box. -/
theorem mem_raster {p : ℤ × ℕ} :
    p ∈ raster pitch ptr m n color ↔
      ∃ r < m, ∃ k < n, ∃ c, color r k = some c ∧ p = (ptr + r * pitch + 2 * k, c) := by
  simp only [raster, List.mem_flatMap, List.mem_range, List.mem_filterMap, Option.map_eq_some_iff]
  constructor
  · rintro ⟨r, hr, k, hk, c, hc, rfl⟩
    exact ⟨r, hr, k, hk, c, hc, rfl⟩
  · rintro ⟨r, hr, k, hk, c, hc, rfl⟩
    exact ⟨r, hr, k, hk, c, hc, rfl⟩

/-- What a pixel writes to a byte of the box: its color, if it is the pixel of this byte. -/
theorem pixelWrite_box {r r' k j c : ℕ} (hbox : 2 * n ≤ pitch) (hk : k < n) (hj : j < 2 * n) :
    pixelWrite (ptr + r' * pitch + 2 * k) c (ptr + r * pitch + j) =
      if r' = r ∧ k = j / 2 then some (colorByte c j) else none := by
  unfold pixelWrite
  by_cases hsame : r' = r ∧ k = j / 2
  · rw [if_pos hsame]
    obtain ⟨rfl, rfl⟩ := hsame
    rcases Nat.mod_two_eq_zero_or_one j with hmod | hmod
    · rw [if_pos (by omega), colorByte, colorByte, hmod]
    · rw [if_neg (by omega), if_pos (by omega), colorByte, colorByte, hmod]
  · -- Otherwise the pixel is in another row or another column.
    have hne : ∀ i < 2, r * pitch + j ≠ r' * pitch + (2 * k + i) := by
      intro i hi heq
      obtain ⟨hrow, hcolumn⟩ := row_column_unique (by omega) (by omega) heq
      exact hsame ⟨hrow.symm, by omega⟩
    have hlow := hne 0 (by decide)
    have hhigh := hne 1 (by decide)
    rw [if_neg hsame, if_neg (by omega), if_neg (by omega)]

/-- What a raster does to a byte of its box. -/
theorem applyStores_raster (hbox : 2 * n ≤ pitch) {r j : ℕ} (hr : r < m) (hj : j < 2 * n)
    (mem : Mem) :
    applyStores mem (pixelStores (raster pitch ptr m n color)) (ptr + r * pitch + j) =
      ((color r (j / 2)).map fun c => colorByte c j).getD (mem (ptr + r * pitch + j)) := by
  rw [applyStores_pixels]
  cases hcolor : color r (j / 2) with
  | none =>
    refine applyWrites_untouched (fun w hw => ?_) mem
    obtain ⟨p, hp, rfl⟩ := List.mem_map.mp hw
    obtain ⟨r', -, k, hk, c, hc, rfl⟩ := mem_raster.mp hp
    rw [pixelWrite_box hbox hk hj, if_neg]
    rintro ⟨rfl, rfl⟩
    rw [hcolor] at hc
    cases hc
  | some c =>
    apply applyWrites_touched
    · intro w hw
      obtain ⟨p, hp, rfl⟩ := List.mem_map.mp hw
      obtain ⟨r', -, k, hk, c', hc', rfl⟩ := mem_raster.mp hp
      rw [pixelWrite_box hbox hk hj]
      split_ifs with hsame
      · obtain ⟨rfl, rfl⟩ := hsame
        rw [hcolor] at hc'
        cases hc'
        exact Or.inr rfl
      · exact Or.inl rfl
    · have hk : j / 2 < n := by omega
      refine ⟨_, List.mem_map.mpr ⟨_, mem_raster.mpr ⟨r, hr, j / 2, hk, c, hcolor, rfl⟩, rfl⟩, ?_⟩
      rw [pixelWrite_box hbox hk hj, if_pos ⟨rfl, rfl⟩]
      simp

/-- A raster leaves all other bytes alone. -/
theorem applyStores_raster_outside {b : ℤ}
    (h : ∀ r < m, ∀ j < 2 * n, b ≠ ptr + (r : ℕ) * pitch + (j : ℕ)) (mem : Mem) :
    applyStores mem (pixelStores (raster pitch ptr m n color)) b = mem b := by
  rw [applyStores_pixels]
  refine applyWrites_untouched (fun w hw => ?_) mem
  obtain ⟨p, hp, rfl⟩ := List.mem_map.mp hw
  obtain ⟨r, hr, k, hk, c, -, rfl⟩ := mem_raster.mp hp
  have hlow := h r hr (2 * k) (by omega)
  have hhigh := h r hr (2 * k + 1) (by omega)
  push_cast at hlow hhigh
  unfold pixelWrite
  rw [if_neg hlow, if_neg (by rw [add_assoc]; exact hhigh)]

end Rasters

section Screen

variable {c : FbCons} {n x y j : ℕ} {color : ℕ → ℕ → Option ℕ}

/-- The offset of a byte of the screen. -/
def FbCons.byteAt (c : FbCons) (y j : ℕ) : ℤ := (y * c.pitch + j : ℕ)

/-- What a raster in the row of the cursor does to the screen. -/
theorem applyStores_row (hfits : c.yPos * c.pitch < 2 ^ 31) (hbox : 2 * (x + n) ≤ c.pitch)
    (hj : j < c.pitch) (mem : Mem) :
    applyStores mem (pixelStores (raster c.pitch (c.rowOffset + (2 * x : ℕ)) 16 n color))
        (c.byteAt y j) =
      if (c.yPos ≤ y ∧ y < c.yPos + 16) ∧ x ≤ j / 2 ∧ j / 2 < x + n then
        ((color (y - c.yPos) (j / 2 - x)).map fun k => colorByte k j).getD (mem (c.byteAt y j))
      else mem (c.byteAt y j) := by
  have hplace : ∀ r i : ℕ, c.rowOffset + (2 * x : ℕ) + (r : ℤ) * c.pitch + i =
      c.byteAt (c.yPos + r) (2 * x + i) := by
    intro r i
    rw [rowOffset_eq hfits, FbCons.byteAt, Nat.add_mul]
    push_cast
    ring
  split_ifs with hin
  · obtain ⟨⟨hmin, hmax⟩, hleft, hright⟩ := hin
    have haddr := hplace (y - c.yPos) (j - 2 * x)
    rw [Nat.add_sub_cancel' hmin, Nat.add_sub_cancel' (by omega : 2 * x ≤ j)] at haddr
    have hcolumn : (j - 2 * x) / 2 = j / 2 - x := by omega
    have hbyte : ∀ k, colorByte k (j - 2 * x) = colorByte k j := by
      intro k
      rw [colorByte, colorByte, (by omega : (j - 2 * x) % 2 = j % 2)]
    rw [← haddr, applyStores_raster (by omega) (by omega) (by omega), hcolumn]
    simp only [hbyte]
  · refine applyStores_raster_outside (fun r hr i hi heq => ?_) mem
    rw [hplace, FbCons.byteAt, FbCons.byteAt, Int.natCast_inj] at heq
    obtain ⟨hrow, hcolumn⟩ := row_column_unique hj (by omega) heq
    omega

/-- The offset of the next row of cells. -/
theorem FbCons.byteAt_add (c : FbCons) (y j : ℕ) :
    c.byteAt (y + 16) j = c.byteAt y j + (c.pitch * fontHeight : ℕ) := by
  rw [byteAt, byteAt, Nat.add_mul, fontHeight]
  push_cast
  ring

/-- Scrolling moves the screen up by one row of cells and clears the last one. -/
theorem FbCons.Ok.scroll_apply (hc : c.Ok) (hfits : c.lastRow.RowFits) (hy : y < c.height)
    (hj : j < 2 * c.width) (mem : Mem) :
    applyStores mem c.scroll.1 (c.byteAt y j) =
      if y + 16 < c.height then mem (c.byteAt (y + 16) j) else colorByte clearColor j := by
  have hheight := hc.le_height
  have hpitch := hc.pitch
  have hpitch_lt := hc.pitch_lt
  obtain ⟨-, hlast⟩ := hfits
  have hlast : (c.height - 16) * c.pitch < 2 ^ 31 := hlast
  have hsource : i32 (c.pitch * fontHeight) = (c.pitch * fontHeight : ℕ) := by
    rw [fontHeight, ← Int.natCast_mul, i32_of_range (by omega) (by omega)]
  have hlength : sizeT (i32 (c.pitch * ((c.height : ℤ) - fontHeight))) =
      (c.height - 16) * c.pitch := by
    rw [hc.pitch_mul_rest, i32_of_range (by omega) (by omega), sizeT_natCast (by omega)]
  have hclear := @applyStores_row c.lastRow c.width 0 y j (fun _ _ => some clearColor) hlast
    (by rw [Nat.zero_add]; exact hpitch) (Nat.lt_of_lt_of_le hj hpitch)
    (Store.apply mem (.copy 0 (c.pitch * fontHeight : ℕ) ((c.height - 16) * c.pitch)))
  have hstart : c.lastRow.rowOffset + (2 * 0 : ℕ) = c.lastRow.rowOffset := by simp
  rw [hstart] at hclear
  rw [hc.scroll_eq, hsource, hlength, FbCons.clearRows_eq_raster]
  refine hclear.trans ?_
  by_cases hlastRow : y + 16 < c.height
  · -- The rows above the last one come from the row of cells below.
    have habove : ¬ ((c.lastRow.yPos ≤ y ∧ y < c.lastRow.yPos + 16) ∧ 0 ≤ j / 2 ∧
        j / 2 < 0 + c.width) := by
      rintro ⟨⟨hmin, -⟩, -⟩
      have hmin : c.height - 16 ≤ y := hmin
      omega
    have hcopied : (y + 1) * c.pitch ≤ (c.height - 16) * c.pitch :=
      Nat.mul_le_mul_right _ (by omega)
    rw [Nat.add_mul] at hcopied
    have hlt : c.byteAt y j < 0 + ((c.height - 16) * c.pitch : ℕ) := by
      unfold FbCons.byteAt
      omega
    rw [if_neg habove, if_pos hlastRow, FbCons.byteAt_add, Store.apply]
    refine (if_pos ⟨Int.natCast_nonneg _, hlt⟩).trans ?_
    rw [sub_zero]
    rfl
  · have hin : (c.lastRow.yPos ≤ y ∧ y < c.lastRow.yPos + 16) ∧ 0 ≤ j / 2 ∧
        j / 2 < 0 + c.width := by
      refine ⟨⟨?_, ?_⟩, by omega, by omega⟩
      · change c.height - 16 ≤ y
        omega
      · change y < c.height - 16 + 16
        omega
    rw [if_pos hin, if_neg hlastRow]
    rfl

/-- The color of a pixel of a cell, where a character was drawn on a clear background. -/
def cellColor (glyphs : ℕ → ℕ → ℕ) (cell : Option Char) (y x : ℕ) : ℕ :=
  (cell.bind fun ch => glyphColor (glyphs (ch.toNat - 31) (y * 9 + x))).getD clearColor

/-- The screen shows a grid of characters. -/
def FbCons.Shows (glyphs : ℕ → ℕ → ℕ) (c : FbCons) (mem : Mem) (grid : ℕ → ℕ → Option Char) :
    Prop :=
  ∀ y < c.height, ∀ j < 2 * c.width,
    mem (c.byteAt y j) =
      colorByte (cellColor glyphs (grid (y / 16) (j / 16)) (y % 16) (j % 16 / 2)) j

section Shown

variable {c c' : FbCons} {glyphs : ℕ → ℕ → ℕ} {mem : Mem} {grid : ℕ → ℕ → Option Char}

/-- What the screen shows does not depend on the cursor. -/
theorem FbCons.Shows.congr (h : c.Shows glyphs mem grid) (hsame : c.SameScreen c') :
    c'.Shows glyphs mem grid := by
  obtain ⟨hpitch, hwidth, hheight⟩ := hsame
  unfold Shows byteAt at h ⊢
  rw [hpitch, hwidth, hheight]
  exact h

/-- A cleared screen shows an empty grid. -/
theorem FbCons.Ok.shows_clear (hc : c.Ok) (glyphs : ℕ → ℕ → ℕ) (mem : Mem) :
    c.Shows glyphs (applyStores mem c.clear) fun _ _ => none := by
  intro y hy j hj
  have hplace : c.byteAt y j = 0 + (y : ℤ) * c.pitch + j := by
    rw [FbCons.byteAt]
    push_cast
    ring
  rw [FbCons.clear_eq_raster, hplace, applyStores_raster hc.pitch hy hj]
  rfl

/-- Scrolling shows the grid without its first row. -/
theorem FbCons.Shows.scroll (h : c.Shows glyphs mem grid) (hc : c.Ok)
    (hfits : c.lastRow.RowFits) :
    c.Shows glyphs (applyStores mem c.scroll.1) fun r k =>
      if 16 * (r + 1) < c.height then grid (r + 1) k else none := by
  intro y hy j hj
  have hheight := hc.height
  dsimp only
  rw [hc.scroll_apply hfits hy hj]
  by_cases hrow : y + 16 < c.height
  · have hnext : (y + 16) / 16 = y / 16 + 1 := by omega
    have hmod : (y + 16) % 16 = y % 16 := by omega
    rw [if_pos hrow, h (y + 16) hrow j hj, hnext, hmod, if_pos (by omega)]
  · rw [if_neg hrow, if_neg (by omega)]
    rfl

/-- Drawing a character in an empty cell shows the grid with this character. -/
theorem FbCons.Shows.draw (h : c.Shows glyphs mem grid) (hc : c.Ok) (hfits : c.RowFits)
    (hx : c.xPos + 8 ≤ c.width) (ch : Char)
    (hempty : grid (c.yPos / 16) (c.xPos / 8) = none) :
    c.Shows glyphs (applyStores mem (c.fbDrawChar glyphs ch)) fun r k =>
      if r = c.yPos / 16 ∧ k = c.xPos / 8 then some ch else grid r k := by
  intro y hy j hj
  have hpitch := hc.pitch
  obtain ⟨row, hrow⟩ := hc.yPos
  obtain ⟨column, hcolumn⟩ := hc.xPos
  have hptr : c.rowOffset + (c.xPos : ℤ) * 2 = c.rowOffset + (2 * c.xPos : ℕ) := by omega
  dsimp only
  rw [FbCons.fbDrawChar_eq_raster, hptr,
    applyStores_row hfits.2 (by omega) (by omega), h y hy j hj]
  by_cases hin : (c.yPos ≤ y ∧ y < c.yPos + 16) ∧ c.xPos ≤ j / 2 ∧ j / 2 < c.xPos + 8
  · have hcell : y / 16 = c.yPos / 16 ∧ j / 16 = c.xPos / 8 := by omega
    have hy' : y - c.yPos = y % 16 := by omega
    have hx' : j / 2 - c.xPos = j % 16 / 2 := by omega
    rw [if_pos hin, if_pos hcell, hcell.1, hcell.2, hempty, hy', hx', cellColor, cellColor,
      Option.bind_some, Option.bind_none]
    cases glyphColor (glyphs (ch.toNat - 31) (y % 16 * 9 + j % 16 / 2)) <;> rfl
  · have hcell : ¬ (y / 16 = c.yPos / 16 ∧ j / 16 = c.xPos / 8) := by omega
    rw [if_neg hin, if_neg hcell]

end Shown

end Screen

end Smor.Console
