import Smor.Types
import Mathlib.Tactic.ByContra
import Mathlib.Tactic.Ring

/-!
# The framebuffer console

`fb_cons_putchar` draws characters in cells of 8 by 16 pixels and keeps a cursor, which may be
behind the right edge or below the last row: only the next character brings it back. A character
that is drawn scrolls first, so its cell is always on the screen; a backspace clears a cell without
scrolling. The products of a row and the pitch are computed as `int`.

A store is given by its place in the framebuffer. A pixel in a column of the screen is inside
exactly if the row of its cell is on the screen and the product for this row does not overflow.
-/

namespace Smor.Console

/-- `font_width`. -/
def fontWidth : ℕ := 8

/-- `font_height`. -/
def fontHeight : ℕ := 16

/-- `RGB_565`. -/
def rgb565 (r g b : ℕ) : ℕ := (b >>> 3) ||| ((g <<< 3) &&& 0x7e00) ||| ((r <<< 8) &&& 0xf800)

/-- `clear_color`. -/
def clearColor : ℕ := rgb565 0 0 0xAA

/-- The geometry and the cursor of `struct fb_cons_t`. -/
structure FbCons where
  pitch : ℕ
  width : ℕ
  height : ℕ
  xPos : ℕ
  yPos : ℕ
  deriving DecidableEq

/-- `fb_cons_init`. -/
def FbCons.init (pitch width height : ℕ) : FbCons := ⟨pitch, width, height, 0, 0⟩

/-- A store to the framebuffer, by byte offsets from `fb_addr`: a pixel, or a `memcpy`. -/
inductive Store where
  | pixel (off : ℤ) (color : ℕ)
  | copy (dst src : ℤ) (len : ℕ)
  deriving DecidableEq

/-- The store falls inside `size` bytes. -/
def Store.Inside (size : ℕ) : Store → Prop
  | .pixel off _ => 0 ≤ off ∧ off + 2 ≤ size
  | .copy dst _ len => 0 ≤ dst ∧ dst + len ≤ size

instance (size : ℕ) : (s : Store) → Decidable (s.Inside size)
  | .pixel _ _ => inferInstanceAs (Decidable (_ ∧ _))
  | .copy _ _ _ => inferInstanceAs (Decidable (_ ∧ _))

/-- Conversion of an `int` to `size_t`. -/
def sizeT (x : ℤ) : ℕ := (x % 2 ^ 64).toNat

/-- `cons.y_pos*cons.pitch`. -/
def FbCons.rowOffset (c : FbCons) : ℤ := i32 (c.yPos * c.pitch)

/-- The loops that set `n` pixels to the clear color in each of the rows of a character. -/
def FbCons.clearRows (c : FbCons) (ptr : ℤ) (n : ℕ) : List Store :=
  (List.range fontHeight).flatMap fun (y : ℕ) =>
    (List.range n).map fun (x : ℕ) => .pixel (ptr + y * c.pitch + 2 * x) clearColor

section Drawing

-- the table `glyphs`: a character from 31 on, and a place in its 9 by 16 bytes
variable (glyphs : ℕ → ℕ → ℕ)

/-- The color that a byte of a glyph stands for, if it stands for one. -/
def glyphColor (g : ℕ) : Option ℕ :=
  if g = 0xFF then some 0xFFFF else if g = 0xbb then some 0 else none

/-- `fb_draw_char`. -/
def FbCons.fbDrawChar (c : FbCons) (ch : Char) : List Store :=
  let ptr := c.rowOffset + c.xPos * 2
  (List.range 16).flatMap fun (y : ℕ) =>
    (List.range 8).filterMap fun (x : ℕ) =>
      (glyphColor (glyphs (ch.toNat - 31) (y * 9 + x))).map fun color =>
        .pixel (ptr + y * c.pitch + 2 * x) color

/-- `fb_clear_char`. -/
def FbCons.fbClearChar (c : FbCons) (x num : ℕ) : List Store :=
  c.clearRows (c.rowOffset + x * fontWidth * 2) (u32 (num * fontWidth))

/-- `fb_cons_clear_char`. -/
def FbCons.clearChar (c : FbCons) (num : ℕ) : List Store × FbCons :=
  let x := c.xPos / fontWidth
  let xPos := if x < num then 0 else u16 (x - num)
  let nClear := x - xPos
  if nClear = 0 then ([], c)
  else (c.fbClearChar xPos nClear, { c with xPos := u16 (xPos * fontWidth) })

/-- The line wrap at the start of `fb_cons_putchar`. -/
def FbCons.wrap (c : FbCons) : FbCons :=
  if c.width ≤ c.xPos then { c with xPos := 0, yPos := u16 (c.yPos + fontHeight) } else c

/-- The scrolling of `fb_cons_putchar`. -/
def FbCons.scroll (c : FbCons) : List Store × FbCons :=
  let rest : ℤ := c.height - fontHeight
  let copy := Store.copy 0 (i32 (c.pitch * fontHeight)) (sizeT (i32 (c.pitch * rest)))
  let c := { c with yPos := u16 (sizeT rest) }
  (copy :: c.clearRows c.rowOffset c.width, c)

/-- `fb_cons_putchar`: its stores, and the cursor that it leaves. -/
def FbCons.putchar (c : FbCons) (ch : Char) : List Store × FbCons :=
  let c := c.wrap
  if ch = '\t' then ([], { c with xPos := u16 (c.xPos + 4 * fontWidth) })
  else if ch = '\x08' then c.clearChar 1
  else if ch = '\n' ∨ ch = '\r' then
    ([], { c with xPos := 0, yPos := u16 (c.yPos + fontHeight) })
  else
    let (scrolled, c) := if c.height ≤ c.yPos then c.scroll else ([], c)
    if 32 ≤ ch.toNat then
      (scrolled ++ c.fbDrawChar glyphs ch, { c with xPos := u16 (c.xPos + fontWidth) })
    else (scrolled, c)

/-- The loop of `console_putstr`. -/
def FbCons.putstr : FbCons → List Char → List Store × FbCons
  | c, [] => ([], c)
  | c, ch :: str =>
    let (stores, c) := c.putchar glyphs ch
    let (stores', c) := c.putstr str
    (stores ++ stores', c)

end Drawing

section Geometry

/-- The framebuffers of the console, with a cursor on the grid of cells. -/
structure FbCons.Ok (c : FbCons) : Prop where
  width : 8 ∣ c.width
  height : 16 ∣ c.height
  height_pos : 0 < c.height
  pitch : 2 * c.width ≤ c.pitch
  pitch_lt : c.pitch < 2 ^ 16
  height_lt : c.height < 2 ^ 16
  xPos : 8 ∣ c.xPos
  yPos : 16 ∣ c.yPos
  yPos_lt : c.yPos < 2 ^ 16

/-- The bytes of the framebuffer. -/
def FbCons.size (c : FbCons) : ℕ := c.pitch * c.height

/-- The row of cells at the cursor is on the screen, and its offset fits in an `int`. -/
def FbCons.RowFits (c : FbCons) : Prop := c.yPos < c.height ∧ c.yPos * c.pitch < 2 ^ 31

instance (c : FbCons) : Decidable c.RowFits := inferInstanceAs (Decidable (_ ∧ _))

theorem rowOffset_eq {c : FbCons} (h : c.yPos * c.pitch < 2 ^ 31) :
    c.rowOffset = (c.yPos * c.pitch : ℕ) := by
  rw [FbCons.rowOffset, ← Int.natCast_mul, i32_of_range (by omega) (by omega)]

theorem rowOffset_wrap {c : FbCons} (hmin : 2 ^ 31 ≤ c.yPos * c.pitch)
    (hmax : c.yPos * c.pitch < 2 ^ 32) : c.rowOffset = (c.yPos * c.pitch : ℕ) - 2 ^ 32 := by
  rw [FbCons.rowOffset, ← Int.natCast_mul, i32_of_wrap (by omega) (by omega)]

/-- A pixel in a column of the screen is inside if and only if its row of cells is on the screen
and the offset of this row did not overflow. -/
theorem FbCons.Ok.pixel_inside_iff {c : FbCons} (hc : c.Ok) {x r k color : ℕ} (hr : r < 16)
    (hk : x + k < c.width) {off : ℤ}
    (hoff : off = c.rowOffset + (2 * x + r * c.pitch + 2 * k : ℕ)) :
    (Store.pixel off color).Inside c.size ↔ c.RowFits := by
  have hcolumn : 2 * (x + k) + 2 ≤ c.pitch := by
    have hpitch := hc.pitch
    omega
  have hrow : c.yPos + r + 1 ≤ 2 ^ 16 := by
    have hy := hc.yPos
    have hlt := hc.yPos_lt
    omega
  have hplace : c.yPos * c.pitch + (2 * x + r * c.pitch + 2 * k) + 2 ≤
      (c.yPos + r + 1) * c.pitch := by
    rw [Nat.add_mul, Nat.add_mul, Nat.one_mul]
    omega
  have hmax : (c.yPos + r + 1) * c.pitch ≤ 2 ^ 16 * (2 ^ 16 - 1) :=
    Nat.mul_le_mul hrow (Nat.le_pred_of_lt hc.pitch_lt)
  by_cases hoverflow : c.yPos * c.pitch < 2 ^ 31
  · rw [rowOffset_eq hoverflow] at hoff
    have hinside : (Store.pixel off color).Inside c.size ↔
        c.yPos * c.pitch + (2 * x + r * c.pitch + 2 * k) + 2 ≤ c.height * c.pitch := by
      rw [Store.Inside, size, Nat.mul_comm c.pitch]
      omega
    rw [hinside, RowFits]
    constructor
    · intro hle
      refine ⟨?_, hoverflow⟩
      by_contra hbelow
      have hbottom : c.height * c.pitch ≤ c.yPos * c.pitch :=
        Nat.mul_le_mul_right _ (Nat.not_lt.mp hbelow)
      omega
    · rintro ⟨hbelow, -⟩
      have hcell : c.yPos + r + 1 ≤ c.height := by
        have hy := hc.yPos
        have hheight := hc.height
        omega
      exact Nat.le_trans hplace (Nat.mul_le_mul_right _ hcell)
  · rw [rowOffset_wrap (by omega) (by omega)] at hoff
    constructor
    · intro hinside
      have hpos : 0 ≤ off := hinside.1
      omega
    · intro hrowFits
      exact absurd hrowFits.2 hoverflow

end Geometry

section Stores

variable {glyphs : ℕ → ℕ → ℕ} {c : FbCons}

/-- All stores fall inside the framebuffer. -/
def AllInside (size : ℕ) (stores : List Store) : Prop := ∀ s ∈ stores, s.Inside size

instance (size : ℕ) (stores : List Store) : Decidable (AllInside size stores) :=
  inferInstanceAs (Decidable (∀ s ∈ stores, s.Inside size))

theorem allInside_append {size : ℕ} {stores stores' : List Store} :
    AllInside size (stores ++ stores') ↔ AllInside size stores ∧ AllInside size stores' :=
  List.forall_mem_append

theorem allInside_nil (size : ℕ) : AllInside size [] := nofun

/-- A store of a nonempty set of pixels is inside if and only if the row of cells fits. -/
theorem FbCons.Ok.pixels_iff (hc : c.Ok) {x n : ℕ} (hx : x + n ≤ c.width) {stores : List Store}
    (hne : stores ≠ [])
    (hpixels : ∀ s ∈ stores, ∃ r < 16, ∃ k < n, ∃ off color, s = .pixel off color ∧
      off = c.rowOffset + (2 * x + r * c.pitch + 2 * k : ℕ)) :
    AllInside c.size stores ↔ c.RowFits := by
  have hiff (s : Store) (hs : s ∈ stores) : s.Inside c.size ↔ c.RowFits := by
    obtain ⟨r, hr, k, hk, off, color, rfl, hoff⟩ := hpixels s hs
    exact hc.pixel_inside_iff hr (by omega) hoff
  constructor
  · intro h
    obtain ⟨s, hs⟩ := List.exists_mem_of_ne_nil stores hne
    exact (hiff s hs).mp (h s hs)
  · intro hfits s hs
    exact (hiff s hs).mpr hfits

theorem FbCons.clearRows_ne_nil {n : ℕ} (hn : 0 < n) (ptr : ℤ) : c.clearRows ptr n ≠ [] := by
  rw [clearRows, Ne, List.flatMap_eq_nil_iff]
  intro h
  have hrow := h 0 (by decide)
  rw [List.map_eq_nil_iff, List.range_eq_nil] at hrow
  omega

theorem FbCons.Ok.clearRows_iff (hc : c.Ok) {x n : ℕ} (hn : 0 < n) (hx : x + n ≤ c.width)
    {ptr : ℤ} (hptr : ptr = c.rowOffset + (2 * x : ℕ)) :
    AllInside c.size (c.clearRows ptr n) ↔ c.RowFits := by
  apply hc.pixels_iff hx (clearRows_ne_nil hn ptr)
  intro s hs
  obtain ⟨r, hr, hs⟩ := List.mem_flatMap.mp hs
  obtain ⟨k, hk, rfl⟩ := List.mem_map.mp hs
  refine ⟨r, List.mem_range.mp hr, k, List.mem_range.mp hk, _, _, rfl, ?_⟩
  rw [hptr]
  push_cast
  ring

/-- A glyph without pixels. -/
def Blank (glyphs : ℕ → ℕ → ℕ) (ch : Char) : Prop :=
  ∀ y < 16, ∀ x < 8, glyphColor (glyphs (ch.toNat - 31) (y * 9 + x)) = none

instance (ch : Char) : Decidable (Blank glyphs ch) :=
  inferInstanceAs (Decidable (∀ y < 16, ∀ x < 8, _ = none))

theorem FbCons.fbDrawChar_eq_nil_iff {ch : Char} :
    c.fbDrawChar glyphs ch = [] ↔ Blank glyphs ch := by
  simp only [fbDrawChar, List.flatMap_eq_nil_iff, List.filterMap_eq_nil_iff, List.mem_range,
    Option.map_eq_none_iff, Blank]

theorem FbCons.Ok.fbDrawChar_iff (hc : c.Ok) (hx : c.xPos + 8 ≤ c.width) {ch : Char}
    (hblank : ¬ Blank glyphs ch) : AllInside c.size (c.fbDrawChar glyphs ch) ↔ c.RowFits := by
  apply hc.pixels_iff hx
  · rwa [Ne, fbDrawChar_eq_nil_iff]
  · intro s hs
    obtain ⟨r, hr, hs⟩ := List.mem_flatMap.mp hs
    obtain ⟨k, hk, hs⟩ := List.mem_filterMap.mp hs
    obtain ⟨color, -, rfl⟩ := Option.map_eq_some_iff.mp hs
    refine ⟨r, List.mem_range.mp hr, k, List.mem_range.mp hk, _, color, rfl, ?_⟩
    push_cast
    ring

/-- The cursor in the last row. -/
def FbCons.lastRow (c : FbCons) : FbCons := { c with yPos := c.height - 16 }

theorem FbCons.Ok.lastRow (hc : c.Ok) : c.lastRow.Ok where
  width := hc.width
  height := hc.height
  height_pos := hc.height_pos
  pitch := hc.pitch
  pitch_lt := hc.pitch_lt
  height_lt := hc.height_lt
  xPos := hc.xPos
  yPos := Nat.dvd_sub hc.height (Nat.dvd_refl 16)
  yPos_lt := Nat.lt_of_le_of_lt (Nat.sub_le _ _) hc.height_lt

theorem FbCons.Ok.le_height (hc : c.Ok) : 16 ≤ c.height := Nat.le_of_dvd hc.height_pos hc.height

theorem sizeT_natCast {x : ℕ} (hx : x < 2 ^ 64) : sizeT x = x := by
  unfold sizeT
  omega

/-- A negative `int` is a large size. -/
theorem le_sizeT {x : ℤ} (hmin : -2 ^ 31 ≤ x) (hx : x < 0) : 2 ^ 63 ≤ sizeT x := by
  unfold sizeT
  omega

/-- The rows of pixels above the last row of cells. -/
theorem FbCons.Ok.rest_eq (hc : c.Ok) : (c.height : ℤ) - fontHeight = (c.height - 16 : ℕ) := by
  have hheight := hc.le_height
  rw [fontHeight]
  omega

/-- The offset of the last row of cells. -/
theorem FbCons.Ok.pitch_mul_rest (hc : c.Ok) :
    (c.pitch : ℤ) * ((c.height : ℤ) - fontHeight) = ((c.height - 16) * c.pitch : ℕ) := by
  rw [hc.rest_eq, Nat.mul_comm, Int.natCast_mul]

/-- The copy that scrolls is inside if and only if the offset of the last row fits in an `int`. -/
theorem FbCons.Ok.copy_inside_iff (hc : c.Ok) (src : ℤ) :
    (Store.copy 0 src (sizeT (i32 (c.pitch * ((c.height : ℤ) - fontHeight))))).Inside c.size ↔
      c.lastRow.RowFits := by
  have hheight := hc.le_height
  have hle : (c.height - 16) * c.pitch ≤ c.size := by
    rw [size, Nat.mul_comm]
    exact Nat.mul_le_mul_left _ (Nat.sub_le _ _)
  have hsize : c.size ≤ 2 ^ 16 * (2 ^ 16 - 1) :=
    Nat.mul_le_mul (Nat.le_of_lt hc.pitch_lt) (Nat.le_pred_of_lt hc.height_lt)
  have hrow : c.lastRow.RowFits ↔ (c.height - 16) * c.pitch < 2 ^ 31 := by
    have hlt : c.height - 16 < c.height := by omega
    exact and_iff_right hlt
  rw [hc.pitch_mul_rest, hrow]
  by_cases hoverflow : (c.height - 16) * c.pitch < 2 ^ 31
  · rw [i32_of_range (by omega) (by omega), sizeT_natCast (by omega), Store.Inside]
    omega
  · rw [i32_of_wrap (by omega) (by omega)]
    have hlarge := le_sizeT (x := ((c.height - 16) * c.pitch : ℕ) - 2 ^ 32) (by omega) (by omega)
    rw [Store.Inside]
    omega

/-- Scrolling copies the rows up and clears the last one, where it leaves the cursor. -/
theorem FbCons.Ok.scroll_eq (hc : c.Ok) :
    c.scroll = (.copy 0 (i32 (c.pitch * fontHeight))
        (sizeT (i32 (c.pitch * ((c.height : ℤ) - fontHeight)))) ::
      c.lastRow.clearRows c.lastRow.rowOffset c.width, c.lastRow) := by
  have hheight := hc.le_height
  have hlt := hc.height_lt
  have hy : u16 (sizeT ((c.height : ℤ) - fontHeight)) = c.height - 16 := by
    rw [hc.rest_eq, sizeT_natCast (by omega), u16_of_lt (by omega)]
  unfold scroll
  simp only [hy]
  rfl

theorem FbCons.Ok.scroll_iff (hc : c.Ok) : AllInside c.size c.scroll.1 ↔ c.lastRow.RowFits := by
  rw [hc.scroll_eq, AllInside, List.forall_mem_cons, hc.copy_inside_iff]
  refine and_iff_left_of_imp fun hfits => ?_
  by_cases hwidth : c.width = 0
  · rw [hwidth]
    simp [clearRows]
  · exact (hc.lastRow.clearRows_iff (x := 0) (Nat.pos_of_ne_zero hwidth) (by simp [FbCons.lastRow])
      (by simp)).mpr hfits

/-- Clearing the character in front of the cursor, if there is one. -/
theorem FbCons.Ok.clearChar_eq (hc : c.Ok) (hx : c.xPos < 2 ^ 16) :
    c.clearChar 1 = if c.xPos = 0 then ([], c) else
      (c.clearRows (c.rowOffset + (2 * (c.xPos - 8) : ℕ)) 8, { c with xPos := c.xPos - 8 }) := by
  obtain ⟨m, hm⟩ := hc.xPos
  have hcolumn : c.xPos / fontWidth = m := by
    rw [hm]
    exact Nat.mul_div_cancel_left m (by decide)
  unfold clearChar
  rw [hcolumn]
  by_cases hzero : m = 0
  · have hxPos : c.xPos = 0 := by omega
    rw [if_pos hxPos]
    simp [hzero]
  · have hxPos : c.xPos ≠ 0 := by omega
    have hpos : ¬ m < 1 := by omega
    have hnew : u16 (m - 1) = m - 1 := u16_of_lt (by omega)
    have hone : m - (m - 1) = 1 := by omega
    have hback : u16 ((m - 1) * fontWidth) = c.xPos - 8 := by
      rw [fontWidth, u16_of_lt (by omega)]
      omega
    have hptr : c.rowOffset + ((m - 1 : ℕ) : ℤ) * fontWidth * 2 =
        c.rowOffset + (2 * (c.xPos - 8) : ℕ) := by
      rw [fontWidth]
      omega
    have hwidth : u32 (1 * fontWidth) = 8 := u32_of_lt (by decide)
    rw [if_neg hxPos]
    simp only [if_neg hpos, hnew, hone, hback, fbClearChar, hptr, hwidth]
    rfl

theorem dvd_u16 {d x : ℕ} (hd : d ∣ 2 ^ 16) (hx : d ∣ x) : d ∣ u16 x := by
  unfold u16
  exact (Nat.dvd_mod_iff hd).mpr hx

theorem u16_lt (x : ℕ) : u16 x < 2 ^ 16 := by
  unfold u16
  omega

/-- Other positions on the grid. -/
theorem FbCons.Ok.move (hc : c.Ok) {x y : ℕ} (hx : 8 ∣ x) (hy : 16 ∣ y) (hlt : y < 2 ^ 16) :
    FbCons.Ok { c with xPos := x, yPos := y } :=
  ⟨hc.width, hc.height, hc.height_pos, hc.pitch, hc.pitch_lt, hc.height_lt, hx, hy, hlt⟩

theorem FbCons.Ok.nextRow (hc : c.Ok) :
    FbCons.Ok { c with xPos := 0, yPos := u16 (c.yPos + fontHeight) } :=
  hc.move (Nat.dvd_zero 8) (dvd_u16 (by decide) (Nat.dvd_add hc.yPos (Nat.dvd_refl 16))) (u16_lt _)

theorem FbCons.Ok.forward (hc : c.Ok) {n : ℕ} (hn : 8 ∣ n) :
    FbCons.Ok { c with xPos := u16 (c.xPos + n) } :=
  hc.move (dvd_u16 (by decide) (Nat.dvd_add hc.xPos hn)) hc.yPos hc.yPos_lt

theorem FbCons.Ok.wrap (hc : c.Ok) : c.wrap.Ok := by
  unfold FbCons.wrap
  split
  · exact hc.nextRow
  · exact hc

/-- After the wrap the cursor is at the start of a row or in a column of the screen. -/
theorem FbCons.Ok.wrap_column (hc : c.Ok) : c.wrap.xPos = 0 ∨ c.wrap.xPos + 8 ≤ c.wrap.width := by
  have hwidth := hc.width
  have hx := hc.xPos
  unfold FbCons.wrap
  split
  · exact .inl rfl
  · right
    omega

theorem FbCons.wrap_size (c : FbCons) : c.wrap.size = c.size := by
  unfold wrap
  split <;> rfl

theorem FbCons.wrap_width (c : FbCons) : c.wrap.width = c.width := by
  unfold wrap
  split <;> rfl

/-- The cursor after scrolling, where it is necessary. -/
def FbCons.scrolled (c : FbCons) : FbCons := if c.height ≤ c.yPos then c.lastRow else c

theorem FbCons.Ok.scrolled (hc : c.Ok) : c.scrolled.Ok := by
  unfold FbCons.scrolled
  split
  · exact hc.lastRow
  · exact hc

theorem FbCons.scrolled_size (c : FbCons) : c.scrolled.size = c.size := by
  unfold scrolled
  split <;> rfl

theorem FbCons.scrolled_width (c : FbCons) : c.scrolled.width = c.width := by
  unfold scrolled
  split <;> rfl

theorem FbCons.scrolled_xPos (c : FbCons) : c.scrolled.xPos = c.xPos := by
  unfold scrolled
  split <;> rfl

theorem FbCons.Ok.scrolled_eq (hc : c.Ok) :
    (if c.height ≤ c.yPos then c.scroll else ([], c)) =
      (if c.height ≤ c.yPos then c.scroll.1 else [], c.scrolled) := by
  unfold FbCons.scrolled
  split
  · exact Prod.ext rfl (by rw [hc.scroll_eq])
  · rfl

/-- What a character needs at the cursor, after the wrap: a character that is erased, and one that
is drawn, is in a row that fits, and so is the last row where the screen is scrolled. Nothing
is drawn on a screen without columns. -/
def FbCons.Fits (glyphs : ℕ → ℕ → ℕ) (c : FbCons) (ch : Char) : Prop :=
  if ch = '\t' ∨ ch = '\n' ∨ ch = '\r' then True
  else if ch = '\x08' then c.xPos ≠ 0 → c.RowFits
  else (c.height ≤ c.yPos → c.lastRow.RowFits) ∧
    (32 ≤ ch.toNat → ¬ Blank glyphs ch → 0 < c.width ∧ c.scrolled.RowFits)

instance (ch : Char) : Decidable (c.Fits glyphs ch) :=
  inferInstanceAs (Decidable (if ch = '\t' ∨ ch = '\n' ∨ ch = '\r' then True
    else if ch = '\x08' then c.xPos ≠ 0 → c.RowFits
    else (c.height ≤ c.yPos → c.lastRow.RowFits) ∧
      (32 ≤ ch.toNat → ¬ Blank glyphs ch → 0 < c.width ∧ c.scrolled.RowFits)))

/-- Drawing is inside if the row fits. -/
theorem FbCons.Ok.draw_inside (hc : c.Ok) (hx : c.xPos = 0 ∨ c.xPos + 8 ≤ c.width) {ch : Char}
    (hfits : ¬ Blank glyphs ch → 0 < c.width ∧ c.RowFits) :
    AllInside c.size (c.fbDrawChar glyphs ch) := by
  by_cases hblank : Blank glyphs ch
  · rw [fbDrawChar_eq_nil_iff.mpr hblank]
    exact allInside_nil _
  · obtain ⟨hwidth, hrow⟩ := hfits hblank
    have hcell := Nat.le_of_dvd hwidth hc.width
    exact (hc.fbDrawChar_iff (by omega) hblank).mpr hrow

/-- On a screen with columns, drawing is inside only if the row fits. -/
theorem FbCons.Ok.fits_of_draw (hc : c.Ok) (hx : c.xPos = 0 ∨ c.xPos + 8 ≤ c.width)
    (hwidth : 0 < c.width) {ch : Char} (h : AllInside c.size (c.fbDrawChar glyphs ch))
    (hblank : ¬ Blank glyphs ch) : 0 < c.width ∧ c.RowFits := by
  have hcell := Nat.le_of_dvd hwidth hc.width
  exact ⟨hwidth, (hc.fbDrawChar_iff (by omega) hblank).mp h⟩

theorem FbCons.Ok.xPos_lt (hc : c.Ok) (hx : c.xPos = 0 ∨ c.xPos + 8 ≤ c.width) :
    c.xPos < 2 ^ 16 := by
  have hpitch := hc.pitch
  have hlt := hc.pitch_lt
  omega

/-- Erasing is inside if and only if there is nothing to erase or the row fits. -/
theorem FbCons.Ok.erase_iff (hc : c.Ok) (hx : c.xPos = 0 ∨ c.xPos + 8 ≤ c.width) :
    AllInside c.size (c.clearChar 1).1 ↔ (c.xPos ≠ 0 → c.RowFits) := by
  rw [hc.clearChar_eq (hc.xPos_lt hx)]
  split
  case isTrue hzero => simp [allInside_nil, hzero]
  case isFalse hpos =>
    have hcell := Nat.le_of_dvd (Nat.pos_of_ne_zero hpos) hc.xPos
    rw [hc.clearRows_iff (x := c.xPos - 8) (by decide) (by omega) rfl]
    simp [hpos]

/-- The stores of a character, after the wrap. -/
theorem FbCons.Ok.putchar_stores (hc : c.Ok) (ch : Char) :
    (c.putchar glyphs ch).1 =
      if ch = '\t' ∨ ch = '\n' ∨ ch = '\r' then []
      else if ch = '\x08' then (c.wrap.clearChar 1).1
      else (if c.wrap.height ≤ c.wrap.yPos then c.wrap.scroll.1 else []) ++
        if 32 ≤ ch.toNat then c.wrap.scrolled.fbDrawChar glyphs ch else [] := by
  unfold putchar
  simp only [hc.wrap.scrolled_eq]
  by_cases htab : ch = '\t'
  · simp [htab]
  by_cases hback : ch = '\x08'
  · simp [hback]
  by_cases hnewline : ch = '\n' ∨ ch = '\r'
  · simp [htab, hback, hnewline]
  · simp only [htab, hback, hnewline, if_false, false_or]
    split <;> simp

theorem FbCons.Ok.scrollPart_iff (hc : c.Ok) :
    AllInside c.size (if c.height ≤ c.yPos then c.scroll.1 else []) ↔
      (c.height ≤ c.yPos → c.lastRow.RowFits) := by
  split
  case isTrue hbelow => simp [hc.scroll_iff, hbelow]
  case isFalse habove => simp [allInside_nil, habove]

/-- A character that fits stores inside. -/
theorem FbCons.Ok.putchar_inside (hc : c.Ok) {ch : Char} (hfits : c.wrap.Fits glyphs ch) :
    AllInside c.size (c.putchar glyphs ch).1 := by
  have hcolumn := hc.wrap_column
  rw [hc.putchar_stores, ← c.wrap_size]
  unfold Fits at hfits
  by_cases hmove : ch = '\t' ∨ ch = '\n' ∨ ch = '\r'
  · rw [if_pos hmove]
    exact allInside_nil _
  rw [if_neg hmove] at hfits ⊢
  by_cases hback : ch = '\x08'
  · rw [if_pos hback] at hfits ⊢
    exact (hc.wrap.erase_iff hcolumn).mpr hfits
  rw [if_neg hback] at hfits ⊢
  obtain ⟨hscroll, hdraw⟩ := hfits
  refine allInside_append.mpr ⟨hc.wrap.scrollPart_iff.mpr hscroll, ?_⟩
  split
  case isTrue hchar =>
    rw [← scrolled_xPos, ← scrolled_width] at hcolumn
    rw [← scrolled_size]
    refine hc.wrap.scrolled.draw_inside hcolumn fun hblank => ?_
    rw [scrolled_width]
    exact hdraw hchar hblank
  case isFalse => exact allInside_nil _

/-- On a screen with columns, every character that stores inside fits. -/
theorem FbCons.Ok.fits_of_putchar (hc : c.Ok) (hwidth : 0 < c.width) {ch : Char}
    (h : AllInside c.size (c.putchar glyphs ch).1) : c.wrap.Fits glyphs ch := by
  have hcolumn := hc.wrap_column
  rw [hc.putchar_stores, ← c.wrap_size] at h
  rw [← c.wrap_width] at hwidth
  unfold Fits
  by_cases hmove : ch = '\t' ∨ ch = '\n' ∨ ch = '\r'
  · rw [if_pos hmove]
    trivial
  rw [if_neg hmove] at h ⊢
  by_cases hback : ch = '\x08'
  · rw [if_pos hback] at h ⊢
    exact (hc.wrap.erase_iff hcolumn).mp h
  rw [if_neg hback] at h ⊢
  obtain ⟨hscroll, hdraw⟩ := allInside_append.mp h
  refine ⟨hc.wrap.scrollPart_iff.mp hscroll, fun hchar hblank => ?_⟩
  rw [if_pos hchar, ← scrolled_size] at hdraw
  rw [← scrolled_xPos, ← scrolled_width] at hcolumn
  rw [← scrolled_width] at hwidth ⊢
  exact hc.wrap.scrolled.fits_of_draw hcolumn hwidth hdraw hblank

/-- The geometry is the same. -/
def FbCons.SameScreen (c c' : FbCons) : Prop :=
  c'.pitch = c.pitch ∧ c'.width = c.width ∧ c'.height = c.height

theorem FbCons.SameScreen.size {c c' : FbCons} (h : c.SameScreen c') : c'.size = c.size := by
  rw [FbCons.size, h.1, h.2.2, FbCons.size]

theorem FbCons.SameScreen.trans {c c' c'' : FbCons} (h : c.SameScreen c') (h' : c'.SameScreen c'') :
    c.SameScreen c'' :=
  ⟨h'.1.trans h.1, h'.2.1.trans h.2.1, h'.2.2.trans h.2.2⟩

theorem FbCons.wrap_sameScreen (c : FbCons) : c.SameScreen c.wrap := by
  unfold wrap
  split <;> exact ⟨rfl, rfl, rfl⟩

theorem FbCons.scrolled_sameScreen (c : FbCons) : c.SameScreen c.scrolled := by
  unfold scrolled
  split <;> exact ⟨rfl, rfl, rfl⟩

/-- The cursor stays on the grid when a character is erased. -/
theorem FbCons.Ok.erase (hc : c.Ok) (hx : c.xPos < 2 ^ 16) :
    (c.clearChar 1).2.Ok ∧ c.SameScreen (c.clearChar 1).2 := by
  rw [hc.clearChar_eq hx]
  split
  · exact ⟨hc, rfl, rfl, rfl⟩
  · exact ⟨hc.move (Nat.dvd_sub hc.xPos (Nat.dvd_refl 8)) hc.yPos hc.yPos_lt, rfl, rfl, rfl⟩

/-- The cursor stays on the grid. -/
theorem FbCons.Ok.putchar (hc : c.Ok) (glyphs : ℕ → ℕ → ℕ) (ch : Char) :
    (c.putchar glyphs ch).2.Ok ∧ c.SameScreen (c.putchar glyphs ch).2 := by
  have hwrap := hc.wrap
  have hsame := c.wrap_sameScreen
  have hx := hwrap.xPos_lt hc.wrap_column
  unfold FbCons.putchar
  simp only [hwrap.scrolled_eq]
  split
  · exact ⟨hwrap.forward (by decide), hsame⟩
  split
  · exact ⟨(hwrap.erase hx).1, hsame.trans (hwrap.erase hx).2⟩
  split
  · exact ⟨hwrap.nextRow, hsame⟩
  have hsame' := hsame.trans c.wrap.scrolled_sameScreen
  split
  · exact ⟨hwrap.scrolled.forward (by decide), hsame'⟩
  · exact ⟨hwrap.scrolled, hsame'⟩

/-- The cursor stays on the grid in a string. -/
theorem FbCons.Ok.putstr (hc : c.Ok) (glyphs : ℕ → ℕ → ℕ) (str : List Char) :
    (c.putstr glyphs str).2.Ok ∧ c.SameScreen (c.putstr glyphs str).2 := by
  induction str generalizing c with
  | nil => exact ⟨hc, rfl, rfl, rfl⟩
  | cons ch str ih =>
    obtain ⟨hnext, hsame⟩ := hc.putchar glyphs ch
    obtain ⟨hlast, hrest⟩ := ih hnext
    exact ⟨hlast, hsame.trans hrest⟩

/-- Each character of a string fits at the cursor where it comes. -/
def FbCons.TextFits (glyphs : ℕ → ℕ → ℕ) : FbCons → List Char → Prop
  | _, [] => True
  | c, ch :: str => c.wrap.Fits glyphs ch ∧ FbCons.TextFits glyphs (c.putchar glyphs ch).2 str

instance FbCons.decidableTextFits (glyphs : ℕ → ℕ → ℕ) :
    (c : FbCons) → (str : List Char) → Decidable (c.TextFits glyphs str)
  | _, [] => .isTrue trivial
  | c, ch :: str =>
    @instDecidableAnd _ _ _ (decidableTextFits glyphs (c.putchar glyphs ch).2 str)

theorem FbCons.Ok.putstr_inside (hc : c.Ok) {str : List Char} (hfits : c.TextFits glyphs str) :
    AllInside c.size (c.putstr glyphs str).1 := by
  induction str generalizing c with
  | nil => exact allInside_nil _
  | cons ch str ih =>
    obtain ⟨hch, hstr⟩ := hfits
    obtain ⟨hnext, hsame⟩ := hc.putchar glyphs ch
    have hrest := ih hnext hstr
    rw [hsame.size] at hrest
    exact allInside_append.mpr ⟨hc.putchar_inside hch, hrest⟩

theorem FbCons.Ok.fits_of_putstr (hc : c.Ok) (hwidth : 0 < c.width) {str : List Char}
    (h : AllInside c.size (c.putstr glyphs str).1) : c.TextFits glyphs str := by
  induction str generalizing c with
  | nil => trivial
  | cons ch str ih =>
    obtain ⟨hnext, hsame⟩ := hc.putchar glyphs ch
    obtain ⟨hch, hstr⟩ := allInside_append.mp h
    rw [← hsame.size] at hstr
    exact ⟨hc.fits_of_putchar hwidth hch, ih hnext (hsame.2.1 ▸ hwidth) hstr⟩

/-- The console at its start. -/
theorem FbCons.init_ok {pitch width height : ℕ} (hwidth : 8 ∣ width) (hheight : 16 ∣ height)
    (hpos : 0 < height) (hpitch : 2 * width ≤ pitch) (hpitch_lt : pitch < 2 ^ 16)
    (hheight_lt : height < 2 ^ 16) : (FbCons.init pitch width height).Ok :=
  ⟨hwidth, hheight, hpos, hpitch, hpitch_lt, hheight_lt, Nat.dvd_zero 8, Nat.dvd_zero 16,
    Nat.two_pow_pos 16⟩

/-- Every store of a string is inside the framebuffer if each of its characters fits: a backspace
that erases comes in a row of the screen, no row that is drawn or scrolled to has an offset of
2^31 or more, and nothing is drawn on a screen without columns. On a screen with columns
these are the only strings whose stores are all inside. -/
theorem putstr_allInside (glyphs : ℕ → ℕ → ℕ) {pitch width height : ℕ} (hwidth : 8 ∣ width)
    (hheight : 16 ∣ height) (hpos : 0 < height) (hpitch : 2 * width ≤ pitch)
    (hpitch_lt : pitch < 2 ^ 16) (hheight_lt : height < 2 ^ 16) (str : List Char) :
    ((FbCons.init pitch width height).TextFits glyphs str →
      AllInside (pitch * height) ((FbCons.init pitch width height).putstr glyphs str).1) ∧
    (0 < width → AllInside (pitch * height) ((FbCons.init pitch width height).putstr glyphs str).1 →
      (FbCons.init pitch width height).TextFits glyphs str) := by
  have hc := FbCons.init_ok hwidth hheight hpos hpitch hpitch_lt hheight_lt
  exact ⟨fun hfits => hc.putstr_inside hfits, fun hcolumns h => hc.fits_of_putstr hcolumns h⟩

/-- The glyph of the character `-`. -/
def dashGlyph : ℕ → ℕ → ℕ := fun _ i =>
  if i / 9 = 8 ∧ 2 ≤ i % 9 ∧ i % 9 ≤ 6 then 0xFF
  else if 7 ≤ i / 9 ∧ i / 9 ≤ 9 ∧ 1 ≤ i % 9 ∧ i % 9 ≤ 7 then 0xbb
  else 0

theorem putstr_allInside_dashes :
    AllInside (128 * 32)
      ((FbCons.init 128 64 32).putstr dashGlyph ['-', '\n', '-', '\x08', '\n', '\n', '-']).1 :=
  (putstr_allInside dashGlyph (by decide) (by decide) (by decide) (by decide) (by decide)
    (by decide) ['-', '\n', '-', '\x08', '\n', '\n', '-']).1 (by decide +kernel)

/-- On a screen of 1024 by 768 pixels, a backspace behind a tab below the last row clears a cell
behind the end of the framebuffer. -/
theorem putstr_erases_outside :
    ¬ AllInside (2048 * 768) ((FbCons.init 2048 1024 768).putstr dashGlyph
      (List.replicate 48 '\n' ++ ['\t', '\x08'])).1 := by
  decide +kernel

end Stores

end Smor.Console
