import Smor.Console.Pixels

/-!
# Clearing the line in front of the cursor

`fb_cons_clear_line` and `fb_cons_clear_char` share the loops of `fb_clear_char`, which take a
number of characters. The first one gives them the position of the cursor, which counts pixels.
So it clears eight times as much in each row of pixels as is in front of the cursor.
-/

namespace Smor.Console

/-- `fb_cons_clear_line`. -/
def FbCons.clearLine (c : FbCons) : List Store × FbCons :=
  let nClear := c.xPos
  if nClear = 0 then ([], c) else (c.fbClearChar 0 nClear, { c with xPos := 0 })

/-- The store is in the rows of pixels at the cursor. -/
def Store.InRow (c : FbCons) : Store → Prop
  | .pixel off _ => c.byteAt c.yPos 0 ≤ off ∧ off + 2 ≤ c.byteAt (c.yPos + 16) 0
  | .copy _ _ _ => False

/-- Clearing the line is clearing the characters in front of the cursor: it leaves the same
memory and the same cursor, these cells are erased, and no other row is touched. -/
structure FbCons.ClearsLine (c : FbCons) (mem : Mem) : Prop where
  memory : applyStores mem c.clearLine.1 =
    applyStores mem (c.clearChar (c.xPos / fontWidth)).1
  cursor : c.clearLine.2 = (c.clearChar (c.xPos / fontWidth)).2
  erased : ∀ y < 16, ∀ j, j / 16 < c.xPos / fontWidth →
    applyStores mem c.clearLine.1 (c.byteAt (c.yPos + y) j) = colorByte clearColor j
  row : ∀ s ∈ c.clearLine.1, s.InRow c

/-- Eight times as many pixels as there are in front of the cursor fit in a row of pixels, and
those behind the cursor are clear. -/
def FbCons.ClearBehind (c : FbCons) (mem : Mem) : Prop :=
  c.yPos * c.pitch < 2 ^ 31 ∧ 16 * c.xPos ≤ c.pitch ∧
    ∀ y < 16, ∀ j, 2 * c.xPos ≤ j → j < 16 * c.xPos →
      mem (c.byteAt (c.yPos + y) j) = colorByte clearColor j

/-- The numbers of a console, for any geometry: 16-bit words, and a cursor at the left edge of a
cell. -/
structure FbCons.Words (c : FbCons) : Prop where
  pitch_lt : c.pitch < 2 ^ 16
  xPos : 8 ∣ c.xPos
  xPos_lt : c.xPos < 2 ^ 16
  yPos_lt : c.yPos < 2 ^ 16

section Reaching

variable {c : FbCons}

theorem FbCons.Words.wrap (hc : c.Words) : c.wrap.Words := by
  unfold FbCons.wrap
  split_ifs
  · exact ⟨hc.pitch_lt, Nat.dvd_zero 8, Nat.two_pow_pos 16, u16_lt _⟩
  · exact hc

theorem FbCons.Words.scroll (hc : c.Words) : c.scroll.2.Words :=
  ⟨hc.pitch_lt, hc.xPos, hc.xPos_lt, u16_lt _⟩

theorem FbCons.Words.forward (hc : c.Words) {n : ℕ} (hn : 8 ∣ n) :
    FbCons.Words { c with xPos := u16 (c.xPos + n) } :=
  ⟨hc.pitch_lt, dvd_u16 (by decide) (Nat.dvd_add hc.xPos hn), u16_lt _, hc.yPos_lt⟩

theorem FbCons.Words.clearChar (hc : c.Words) (num : ℕ) : (c.clearChar num).2.Words := by
  unfold FbCons.clearChar
  dsimp only
  generalize (if c.xPos / fontWidth < num then 0 else u16 (c.xPos / fontWidth - num)) = x
  split_ifs
  · exact hc
  · exact ⟨hc.pitch_lt, dvd_u16 (by decide) (Nat.dvd_mul_left 8 x), u16_lt _, hc.yPos_lt⟩

theorem FbCons.Words.putchar (hc : c.Words) (glyphs : ℕ → ℕ → ℕ) (ch : Char) :
    (c.putchar glyphs ch).2.Words := by
  have hwrap := hc.wrap
  have hscrolled :
      (if c.wrap.height ≤ c.wrap.yPos then c.wrap.scroll else ([], c.wrap)).2.Words := by
    split_ifs
    · exact hwrap.scroll
    · exact hwrap
  unfold FbCons.putchar
  dsimp only
  revert hscrolled
  generalize (if c.wrap.height ≤ c.wrap.yPos then c.wrap.scroll else ([], c.wrap)) = drawn
  intro hscrolled
  split_ifs with htab hback hnewline hdrawn
  · exact hwrap.forward (by decide)
  · exact hwrap.clearChar 1
  · exact ⟨hwrap.pitch_lt, Nat.dvd_zero 8, Nat.two_pow_pos 16, u16_lt _⟩
  · exact hscrolled.forward (by decide)
  · exact hscrolled

/-- The cursor that a string leaves. -/
theorem FbCons.Words.putstr (hc : c.Words) (glyphs : ℕ → ℕ → ℕ) (str : List Char) :
    (c.putstr glyphs str).2.Words := by
  induction str generalizing c with
  | nil => exact hc
  | cons ch str ih => exact ih (hc.putchar glyphs ch)

theorem FbCons.init_words {pitch : ℕ} (hpitch : pitch < 2 ^ 16) (width height : ℕ) :
    (FbCons.init pitch width height).Words :=
  ⟨hpitch, Nat.dvd_zero 8, Nat.two_pow_pos 16, Nat.two_pow_pos 16⟩

end Reaching

section Clearing

variable {c : FbCons} {mem : Mem}

/-- Both functions do nothing at the left edge. -/
theorem FbCons.clearLine_zero (hx : c.xPos = 0) :
    c.clearLine = ([], c) ∧ c.clearChar (c.xPos / fontWidth) = ([], c) := by
  constructor
  · rw [clearLine, if_pos hx]
  · simp [clearChar, hx]

/-- What `fb_cons_clear_line` stores: eight pixels for each pixel in front of the cursor. -/
theorem FbCons.Words.clearLine_eq (hc : c.Words) (hx : c.xPos ≠ 0) :
    c.clearLine =
      (pixelStores (raster c.pitch c.rowOffset 16 (8 * c.xPos) fun _ _ => some clearColor),
        { c with xPos := 0 }) := by
  have hlt := hc.xPos_lt
  have hnum : u32 (c.xPos * fontWidth) = 8 * c.xPos := by
    rw [fontWidth, u32_of_lt (by omega)]
    omega
  rw [FbCons.clearLine, if_neg hx, fbClearChar, hnum, clearRows_eq_raster]
  simp

/-- What `fb_cons_clear_char` stores for all characters in front of the cursor. -/
theorem FbCons.Words.clearChar_all (hc : c.Words) (hx : c.xPos ≠ 0) :
    c.clearChar (c.xPos / fontWidth) =
      (pixelStores (raster c.pitch c.rowOffset 16 c.xPos fun _ _ => some clearColor),
        { c with xPos := 0 }) := by
  have hlt := hc.xPos_lt
  obtain ⟨m, hm⟩ := hc.xPos
  have hcells : c.xPos / fontWidth = m := by
    rw [hm]
    exact Nat.mul_div_cancel_left m (by decide)
  have hzero : u16 0 = 0 := u16_of_lt (by decide)
  have hnum : u32 (m * fontWidth) = c.xPos := by
    rw [fontWidth, u32_of_lt (by omega)]
    omega
  have hne : m ≠ 0 := by omega
  rw [FbCons.clearChar, hcells]
  simp [hzero, hne, fbClearChar, hnum, clearRows_eq_raster]

/-- The place of a byte in a row of pixels at the cursor, if the offset of the row fits. -/
theorem FbCons.rowOffset_byteAt (hfits : c.yPos * c.pitch < 2 ^ 31) (y j : ℕ) :
    c.rowOffset + (y : ℤ) * c.pitch + j = c.byteAt (c.yPos + y) j := by
  rw [rowOffset_eq hfits, byteAt, Nat.add_mul]
  push_cast
  ring

/-- What each of the two functions leaves in a byte at the cursor, where `n` pixels fit in a row
of pixels. -/
theorem applyStores_clear (hfits : c.yPos * c.pitch < 2 ^ 31) {n : ℕ} (hn : 2 * n ≤ c.pitch)
    {y j : ℕ} (hy : y < 16) (hj : j < c.pitch) :
    applyStores mem (pixelStores (raster c.pitch c.rowOffset 16 n fun _ _ => some clearColor))
        (c.byteAt (c.yPos + y) j) =
      if j < 2 * n then colorByte clearColor j else mem (c.byteAt (c.yPos + y) j) := by
  rw [← FbCons.rowOffset_byteAt hfits]
  split_ifs with hin
  · exact applyStores_raster hn hy hin mem
  · refine applyStores_raster_outside (fun r hr i hi heq => ?_) mem
    rw [FbCons.rowOffset_byteAt hfits, FbCons.rowOffset_byteAt hfits, FbCons.byteAt,
      FbCons.byteAt, Int.natCast_inj] at heq
    have hcolumn := (row_column_unique hj (by omega) heq).2
    omega

/-- Where the pixels behind the cursor are clear and nothing spills, both functions leave the same
memory. -/
theorem FbCons.ClearBehind.same (hc : c.ClearBehind mem) :
    applyStores mem (pixelStores (raster c.pitch c.rowOffset 16 (8 * c.xPos)
        fun _ _ => some clearColor)) =
      applyStores mem (pixelStores (raster c.pitch c.rowOffset 16 c.xPos
        fun _ _ => some clearColor)) := by
  obtain ⟨hfits, hpitch, hclear⟩ := hc
  funext b
  by_cases hin : ∃ y < 16, ∃ j < 16 * c.xPos, b = c.byteAt (c.yPos + y) j
  · obtain ⟨y, hy, j, hj, rfl⟩ := hin
    rw [applyStores_clear hfits (by omega) hy (by omega),
      applyStores_clear hfits (by omega) hy (by omega), if_pos (by omega)]
    split_ifs with hfront
    · rfl
    · exact (hclear y hy j (by omega) hj).symm
  · -- No other byte is in one of the two boxes.
    have hout : ∀ n ≤ 8 * c.xPos, applyStores mem (pixelStores (raster c.pitch c.rowOffset 16 n
        fun _ _ => some clearColor)) b = mem b := by
      intro n hn
      refine applyStores_raster_outside (fun r hr i hi heq => ?_) mem
      rw [FbCons.rowOffset_byteAt hfits] at heq
      exact hin ⟨r, hr, i, by omega, heq⟩
    rw [hout _ (by omega), hout _ (by omega)]

/-- If all pixels are stored in the row of the cursor, its offset fits, and eight times the
pixels in front of the cursor fit in a row of pixels. -/
theorem FbCons.Words.fits_of_inRow (hc : c.Words) (hx : c.xPos ≠ 0)
    (hrow : ∀ s ∈ c.clearLine.1, s.InRow c) :
    c.yPos * c.pitch < 2 ^ 31 ∧ 16 * c.xPos ≤ c.pitch := by
  have hpitch := hc.pitch_lt
  have hy := hc.yPos_lt
  rw [hc.clearLine_eq hx] at hrow
  have hstore : ∀ y < 16, ∀ k < 8 * c.xPos,
      (Store.pixel (c.rowOffset + (y : ℕ) * c.pitch + 2 * (k : ℕ)) clearColor).InRow c :=
    fun y hy k hk => hrow _ (List.mem_map.mpr
      ⟨_, mem_raster.mpr ⟨y, hy, k, hk, clearColor, rfl, rfl⟩, rfl⟩)
  have hfirst := (hstore 0 (by decide) 0 (by omega)).1
  have hfits : c.yPos * c.pitch < 2 ^ 31 := by
    by_contra hoverflow
    have hmax : c.yPos * c.pitch < 2 ^ 32 :=
      Nat.lt_of_le_of_lt (Nat.mul_le_mul (Nat.le_pred_of_lt hy) (Nat.le_pred_of_lt hpitch))
        (by decide)
    rw [rowOffset_wrap (by omega) hmax, byteAt] at hfirst
    push_cast at hfirst
    omega
  refine ⟨hfits, ?_⟩
  have hlast := (hstore 15 (by decide) (8 * c.xPos - 1) (by omega)).2
  have hend : c.byteAt (c.yPos + 16) 0 = c.byteAt (c.yPos + 15) 0 + c.pitch := by
    rw [byteAt, byteAt, ← Nat.add_assoc c.yPos 15 1, Nat.add_mul (c.yPos + 15)]
    push_cast
    ring
  rw [hend, ← rowOffset_byteAt hfits 15 0] at hlast
  push_cast at hlast
  omega

/-- A store in the box of a row of pixels is in the row of the cursor. -/
theorem FbCons.ClearBehind.inRow (hc : c.ClearBehind mem) :
    ∀ s ∈ pixelStores (raster c.pitch c.rowOffset 16 (8 * c.xPos) fun _ _ => some clearColor),
      s.InRow c := by
  obtain ⟨hfits, hpitch, -⟩ := hc
  intro s hs
  obtain ⟨p, hp, rfl⟩ := List.mem_map.mp hs
  obtain ⟨y, hy, k, hk, color, -, rfl⟩ := mem_raster.mp hp
  have hplace := FbCons.rowOffset_byteAt hfits y (2 * k)
  push_cast at hplace
  have hfirst : c.yPos * c.pitch ≤ (c.yPos + y) * c.pitch := Nat.mul_le_mul_right _ (by omega)
  have hlast : (c.yPos + y + 1) * c.pitch ≤ (c.yPos + 16) * c.pitch :=
    Nat.mul_le_mul_right _ (by omega)
  rw [Nat.add_mul (c.yPos + y)] at hlast
  rw [Store.InRow]
  dsimp only
  rw [hplace, FbCons.byteAt, FbCons.byteAt, FbCons.byteAt]
  omega

end Clearing

/-- In every state that a string can leave, `fb_cons_clear_line` does what `fb_cons_clear_char`
does for all characters in front of the cursor if and only if there is none, or eight times
their width fits in a row of pixels and the pixels behind the cursor are clear there. -/
theorem clearLine_iff (glyphs : ℕ → ℕ → ℕ) {pitch : ℕ} (hpitch : pitch < 2 ^ 16)
    (width height : ℕ) (str : List Char) (mem : Mem) (c : FbCons)
    (hreach : ((FbCons.init pitch width height).putstr glyphs str).2 = c) :
    c.ClearsLine mem ↔ c.xPos = 0 ∨ c.ClearBehind mem := by
  have hc : c.Words := hreach ▸ (FbCons.init_words hpitch width height).putstr glyphs str
  by_cases hx : c.xPos = 0
  · obtain ⟨hline, hchar⟩ := FbCons.clearLine_zero hx
    refine iff_of_true ⟨by rw [hline, hchar], by rw [hline, hchar], ?_, ?_⟩ (Or.inl hx)
    · intro y _ j hj
      rw [hx, Nat.zero_div] at hj
      exact absurd hj (Nat.not_lt_zero _)
    · rw [hline]
      exact fun s hs => absurd hs List.not_mem_nil
  · have hline := hc.clearLine_eq hx
    have hchar := hc.clearChar_all hx
    constructor
    · intro h
      obtain ⟨hfits, hspace⟩ := hc.fits_of_inRow hx h.row
      refine Or.inr ⟨hfits, hspace, fun y hy j hmin hmax => ?_⟩
      have hsame := congrFun h.memory (c.byteAt (c.yPos + y) j)
      rw [hline, hchar, applyStores_clear hfits (by omega) hy (by omega),
        applyStores_clear hfits (by omega) hy (by omega), if_pos (by omega),
        if_neg (by omega)] at hsame
      exact hsame.symm
    · rintro (hzero | hbehind)
      · exact absurd hzero hx
      · refine ⟨?_, ?_, fun y hy j hj => ?_, ?_⟩
        · rw [hline, hchar]
          exact hbehind.same
        · rw [hline, hchar]
        · have hspace := hbehind.2.1
          rw [fontWidth] at hj
          rw [hline, applyStores_clear hbehind.1 (by omega) hy (by omega), if_pos (by omega)]
        · rw [hline]
          exact hbehind.inRow

/-- A memory of clear pixels. -/
def clearMem : Mem := fun b => colorByte clearColor (b % 2).toNat

theorem clearMem_byteAt {c : FbCons} (hpitch : 2 ∣ c.pitch) (y j : ℕ) :
    clearMem (c.byteAt y j) = colorByte clearColor j := by
  obtain ⟨m, hm⟩ := hpitch
  have hmod : ((y * c.pitch + j : ℕ) : ℤ) % 2 = (j % 2 : ℕ) := by
    rw [hm, ← Nat.mul_assoc, Nat.mul_comm y 2, Nat.mul_assoc]
    omega
  rw [clearMem, FbCons.byteAt, hmod, Int.toNat_natCast, colorByte, colorByte, Nat.mod_mod]

/-- One character in a row of 64 pixels. -/
theorem clearLine_one :
    ((FbCons.init 128 64 32).putstr dashGlyph ['-']).2.ClearsLine clearMem :=
  (clearLine_iff dashGlyph (by decide : 128 < 2 ^ 16) 64 32 ['-'] clearMem _ rfl).mpr
    (Or.inr ⟨by decide +kernel, by decide +kernel,
      fun y _ j _ _ => clearMem_byteAt (by decide +kernel) _ j⟩)

/-- Twenty characters in rows of 1024 pixels: each row of pixels is cleared beyond its end. -/
theorem clearLine_spills :
    ¬ ((FbCons.init 2048 1024 768).putstr dashGlyph (List.replicate 20 '-')).2.ClearsLine
      (applyStores (applyStores (fun _ => 0) (FbCons.init 2048 1024 768).clear)
        ((FbCons.init 2048 1024 768).putstr dashGlyph (List.replicate 20 '-')).1) := by
  intro h
  have hc := (FbCons.init_words (by decide : 2048 < 2 ^ 16) 1024 768).putstr dashGlyph
    (List.replicate 20 '-')
  exact absurd (hc.fits_of_inRow (by decide +kernel) h.row).2 (by decide +kernel)

end Smor.Console
