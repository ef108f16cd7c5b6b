import Smor.Console.Pixels

/-!
# Scrolling against unlimited paper

A string printed on a console of unlimited height gives a grid of characters, and the screen
should show its last rows. A newline or a wrap only moves the cursor, and the next character that
is drawn scrolls by one row. So the screen keeps up as long as no second row is asked
for while the cursor is below the last one.
-/

namespace Smor.Console

/-- A console of unlimited height, with the characters in its cells. -/
structure Paper where
  row : ℕ
  col : ℕ
  cells : ℕ → ℕ → Option Char

/-- Empty paper. -/
def Paper.empty : Paper := ⟨0, 0, fun _ _ => none⟩

/-- The wrap at the right edge. -/
def Paper.wrap (columns : ℕ) (p : Paper) : Paper :=
  if columns ≤ p.col then { p with
    row := p.row + 1
    col := 0 } else p

/-- A newline or a character to be drawn. -/
def Paper.put (columns : ℕ) (p : Paper) (ch : Char) : Paper :=
  let p := p.wrap columns
  if ch = '\n' then { p with
    row := p.row + 1
    col := 0 }
  else { p with
    col := p.col + 1
    cells := fun r k => if r = p.row ∧ k = p.col then some ch else p.cells r k }

/-- A string. -/
def Paper.print (columns : ℕ) (p : Paper) (str : List Char) : Paper :=
  str.foldl (Paper.put columns) p

/-- The last rows up to the one of the cursor. -/
def Paper.lastRows (rows : ℕ) (p : Paper) (r k : ℕ) : Option Char :=
  p.cells (p.row + 1 - rows + r) k

/-- The characters 32 to 126. -/
def Printable (ch : Char) : Prop := 32 ≤ ch.toNat ∧ ch.toNat ≤ 126

instance decidablePrintable (ch : Char) : Decidable (Printable ch) :=
  inferInstanceAs (Decidable (_ ∧ _))

/-- No newline comes while the cursor, after the wrap, is below the last row, and each character
is drawn in a row whose offset fits in an `int`. -/
def FbCons.KeepsUp (glyphs : ℕ → ℕ → ℕ) : FbCons → List Char → Prop
  | _, [] => True
  | c, ch :: str =>
    (if ch = '\n' then c.wrap.yPos < c.height else c.wrap.scrolled.RowFits) ∧
      FbCons.KeepsUp glyphs (c.putchar glyphs ch).2 str

instance FbCons.decidableKeepsUp (glyphs : ℕ → ℕ → ℕ) :
    (c : FbCons) → (str : List Char) → Decidable (c.KeepsUp glyphs str)
  | _, [] => .isTrue trivial
  | c, ch :: str =>
    @instDecidableAnd _ _ _ (decidableKeepsUp glyphs (c.putchar glyphs ch).2 str)

section Tracking

variable {glyphs : ℕ → ℕ → ℕ} {c : FbCons} {mem : Mem} {p : Paper} {top : ℕ}

/-- The screen shows the paper from the row `top` on, and the cursors are at the same place. The
cursor is at most one row below the screen. -/
structure Tracks (glyphs : ℕ → ℕ → ℕ) (c : FbCons) (mem : Mem) (p : Paper) (top : ℕ) : Prop where
  ok : c.Ok
  width : 0 < c.width
  row : c.yPos + 16 * top = 16 * p.row
  col : c.xPos = 8 * p.col
  column : c.xPos ≤ c.width
  inside : c.yPos ≤ c.height
  pending : c.yPos = c.height → p.col = 0
  full : top = 0 ∨ c.height ≤ c.yPos + 16
  blank : ∀ r k, p.row < r ∨ (r = p.row ∧ p.col ≤ k) → p.cells r k = none
  shows : c.Shows glyphs mem fun r k => p.cells (top + r) k

/-- The wrap happens on the paper when it happens on the screen, and leaves the cursor in front
of a cell. -/
theorem Tracks.wrap (h : Tracks glyphs c mem p top) :
    Tracks glyphs c.wrap mem (p.wrap (c.width / 8)) top ∧ c.wrap.xPos + 8 ≤ c.wrap.width := by
  obtain ⟨hok, hwidth, hrow, hcol, hcolumn, hinside, hpending, hfull, hblank, hshows⟩ := h
  obtain ⟨m, hm⟩ := hok.width
  obtain ⟨rows, hrows⟩ := hok.height
  obtain ⟨y, hy⟩ := hok.yPos
  have hheight := hok.height_lt
  have hcolumns : c.width / 8 = m := by omega
  rw [hcolumns]
  by_cases hwrap : c.width ≤ c.xPos
  · have hpaper : m ≤ p.col := by omega
    have hbelow : c.yPos + 16 ≤ c.height := by omega
    have hnext : c.wrap = { c with
        xPos := 0
        yPos := c.yPos + 16 } := by
      rw [FbCons.wrap, if_pos hwrap, fontHeight, u16_of_lt (by omega)]
    rw [Paper.wrap, if_pos hpaper, hnext]
    refine ⟨⟨hok.move (Nat.dvd_zero 8) (Nat.dvd_add hok.yPos (Nat.dvd_refl 16)) (by omega), hwidth,
      ?_, rfl, Nat.zero_le _, hbelow, fun _ => rfl, ?_, ?_, hshows⟩, ?_⟩
    · dsimp only
      omega
    · dsimp only
      omega
    · intro r k hr
      dsimp only at hr
      exact hblank r k (by omega)
    · dsimp only
      omega
  · have hpaper : ¬ m ≤ p.col := by omega
    rw [Paper.wrap, if_neg hpaper, FbCons.wrap, if_neg hwrap]
    exact ⟨⟨hok, hwidth, hrow, hcol, hcolumn, hinside, hpending, hfull, hblank, hshows⟩, by omega⟩

/-- Scrolling, where it is necessary, drops the first row of the paper. -/
theorem Tracks.scroll (h : Tracks glyphs c mem p top) (hfits : c.scrolled.RowFits) :
    ∃ top', Tracks glyphs c.scrolled
      (applyStores mem (if c.height ≤ c.yPos then c.scroll.1 else [])) p top' := by
  obtain ⟨hok, hwidth, hrow, hcol, hcolumn, hinside, hpending, hfull, hblank, hshows⟩ := h
  by_cases hbelow : c.height ≤ c.yPos
  · have hheight := hok.le_height
    obtain ⟨rows, hrows⟩ := hok.height
    have hlast : c.scrolled = c.lastRow := if_pos hbelow
    rw [hlast] at hfits ⊢
    rw [if_pos hbelow]
    have hy : c.lastRow.yPos = c.height - 16 := rfl
    refine ⟨top + 1, hok.lastRow, hwidth, ?_, hcol, hcolumn, ?_, ?_, ?_, hblank, ?_⟩
    · rw [hy]
      omega
    · exact Nat.sub_le _ _
    · intro hlow
      have hlow : c.height - 16 = c.height := hlow
      omega
    · right
      change c.height ≤ c.height - 16 + 16
      omega
    · have hmoved := (hshows.scroll hok hfits).congr c.scrolled_sameScreen
      rw [hlast] at hmoved
      have hstart := hpending (by omega)
      have hgrid : (fun r k =>
          if 16 * (r + 1) < c.height then p.cells (top + (r + 1)) k else none) =
          fun r k => p.cells (top + 1 + r) k := by
        funext r k
        rw [Nat.add_assoc top 1 r, Nat.add_comm 1 r]
        split_ifs with habove
        · rfl
        · -- The row that comes in from below is still empty on the paper.
          exact (hblank (top + (r + 1)) k (by omega)).symm
      rw [hgrid] at hmoved
      exact hmoved
  · have hsame : c.scrolled = c := if_neg hbelow
    rw [hsame, if_neg hbelow]
    exact ⟨top, hok, hwidth, hrow, hcol, hcolumn, hinside, hpending, hfull, hblank, hshows⟩

/-- Drawing a character puts it on the paper. -/
theorem Tracks.draw (h : Tracks glyphs c mem p top) (hcell : c.xPos + 8 ≤ c.width)
    (hfits : c.RowFits) (ch : Char) :
    Tracks glyphs { c with xPos := u16 (c.xPos + fontWidth) }
        (applyStores mem (c.fbDrawChar glyphs ch))
        { p with
          col := p.col + 1
          cells := fun r k => if r = p.row ∧ k = p.col then some ch else p.cells r k } top := by
  obtain ⟨hok, hwidth, hrow, hcol, hcolumn, hinside, hpending, hfull, hblank, hshows⟩ := h
  have hpitch := hok.pitch
  have hpitch_lt := hok.pitch_lt
  have hx : u16 (c.xPos + fontWidth) = c.xPos + 8 := u16_of_lt (by rw [fontWidth]; omega)
  rw [hx]
  refine ⟨hok.move (Nat.dvd_add hok.xPos (Nat.dvd_refl 8)) hok.yPos hok.yPos_lt, hwidth, hrow,
    ?_, hcell, hinside, fun hlow => ?_, hfull, fun r k hr => ?_, ?_⟩
  · dsimp only
    omega
  · have hlow : c.yPos = c.height := hlow
    have habove := hfits.1
    omega
  · dsimp only at hr ⊢
    rw [if_neg (by omega)]
    exact hblank r k (by omega)
  · have hy : c.yPos / 16 + top = p.row := by omega
    have hk : c.xPos / 8 = p.col := by omega
    have hempty : p.cells (top + c.yPos / 16) (c.xPos / 8) = none :=
      hblank _ _ (by omega)
    have hsame : c.SameScreen { c with xPos := c.xPos + 8 } := ⟨rfl, rfl, rfl⟩
    have hdrawn := (hshows.draw hok hfits hcell ch hempty).congr hsame
    have hgrid : (fun r k => if r = c.yPos / 16 ∧ k = c.xPos / 8 then some ch
        else p.cells (top + r) k) =
        fun r k => if top + r = p.row ∧ k = p.col then some ch else p.cells (top + r) k := by
      funext r k
      have hsameRow : top + r = p.row ↔ r = c.yPos / 16 := by omega
      simp only [hk, hsameRow]
    rw [hgrid] at hdrawn
    exact hdrawn

/-- A newline. -/
theorem Tracks.newline (h : Tracks glyphs c mem p top) (hfits : c.yPos < c.height) :
    Tracks glyphs { c with
        xPos := 0
        yPos := u16 (c.yPos + fontHeight) } mem { p with
        row := p.row + 1
        col := 0 } top := by
  obtain ⟨hok, hwidth, hrow, hcol, hcolumn, hinside, hpending, hfull, hblank, hshows⟩ := h
  obtain ⟨rows, hrows⟩ := hok.height
  obtain ⟨y, hy⟩ := hok.yPos
  have hheight := hok.height_lt
  have hnext : u16 (c.yPos + fontHeight) = c.yPos + 16 :=
    u16_of_lt (by rw [fontHeight]; omega)
  have hok' := hok.nextRow
  rw [hnext] at hok' ⊢
  refine ⟨hok', hwidth, ?_, rfl, Nat.zero_le _, ?_, fun _ => rfl, ?_, fun r k hr => ?_, hshows⟩
  · dsimp only
    omega
  · dsimp only
    omega
  · dsimp only
    omega
  · dsimp only at hr
    exact hblank r k (by omega)

/-- Another character scrolls, where it is necessary, and is drawn. -/
theorem FbCons.Ok.putchar_printable (hc : c.Ok) {ch : Char} (hch : Printable ch) :
    c.putchar glyphs ch =
      ((if c.wrap.height ≤ c.wrap.yPos then c.wrap.scroll.1 else []) ++
          c.wrap.scrolled.fbDrawChar glyphs ch,
        { c.wrap.scrolled with xPos := u16 (c.wrap.scrolled.xPos + fontWidth) }) := by
  obtain ⟨hmin, -⟩ := hch
  have hne : ∀ ch' : Char, ch'.toNat < 32 → ch ≠ ch' := by
    rintro ch' hlt rfl
    omega
  have htab := hne '\t' (by decide)
  have hback := hne '\x08' (by decide)
  have hnewline : ¬ (ch = '\n' ∨ ch = '\r') :=
    not_or.mpr ⟨hne '\n' (by decide), hne '\r' (by decide)⟩
  unfold FbCons.putchar
  simp only [hc.wrap.scrolled_eq, if_neg htab, if_neg hback, if_neg hnewline, if_pos hmin]

/-- One character. -/
theorem Tracks.step (h : Tracks glyphs c mem p top) {ch : Char} (hch : ch = '\n' ∨ Printable ch)
    (hup : if ch = '\n' then c.wrap.yPos < c.height else c.wrap.scrolled.RowFits) :
    ∃ top', Tracks glyphs (c.putchar glyphs ch).2 (applyStores mem (c.putchar glyphs ch).1)
        (p.put (c.width / 8) ch) top' ∧
      (Printable ch → (c.putchar glyphs ch).2.yPos < c.height) := by
  obtain ⟨hwrap, hcell⟩ := h.wrap
  by_cases hnewline : ch = '\n'
  · subst hnewline
    have hfits : c.wrap.yPos < c.wrap.height := by
      rw [(c.wrap_sameScreen).2.2]
      exact hup
    refine ⟨top, hwrap.newline hfits, fun hprintable => ?_⟩
    exact absurd hprintable (by decide)
  · have hprintable := hch.resolve_left hnewline
    rw [if_neg hnewline] at hup
    obtain ⟨top', hscrolled⟩ := hwrap.scroll hup
    have hcell' : c.wrap.scrolled.xPos + 8 ≤ c.wrap.scrolled.width := by
      rw [FbCons.scrolled_xPos, FbCons.scrolled_width]
      exact hcell
    have hdrawn := hscrolled.draw hcell' hup ch
    rw [← applyStores_append] at hdrawn
    rw [h.ok.putchar_printable hprintable, Paper.put, if_neg hnewline]
    refine ⟨top', hdrawn, fun _ => ?_⟩
    have hrow := hup.1
    rw [(c.wrap.scrolled_sameScreen).2.2, (c.wrap_sameScreen).2.2] at hrow
    exact hrow

/-- A string of which every character keeps up. After a character that is drawn, the cursor is
on the screen. -/
theorem Tracks.run (h : Tracks glyphs c mem p top) {str : List Char}
    (hstr : ∀ ch ∈ str, ch = '\n' ∨ Printable ch) {last : Char} (hlast : Printable last)
    (hup : c.KeepsUp glyphs (str ++ [last])) :
    ∃ top', Tracks glyphs (c.putstr glyphs (str ++ [last])).2
        (applyStores mem (c.putstr glyphs (str ++ [last])).1)
        (p.print (c.width / 8) (str ++ [last])) top' ∧
      (c.putstr glyphs (str ++ [last])).2.yPos < c.height := by
  induction str generalizing c mem p top with
  | nil =>
    obtain ⟨top', hstep, hrow⟩ := h.step (.inr hlast) hup.1
    rw [← List.append_nil (c.putchar glyphs last).1] at hstep
    exact ⟨top', hstep, hrow hlast⟩
  | cons ch str ih =>
    obtain ⟨hch, hrest⟩ := List.forall_mem_cons.mp hstr
    obtain ⟨hfirst, hup⟩ := hup
    obtain ⟨top', hstep, -⟩ := h.step hch hfirst
    obtain ⟨-, -, hwidth, hheight⟩ := h.ok.putchar glyphs ch
    obtain ⟨top'', hrun, hrow⟩ := ih hstep hrest hup
    rw [hwidth, ← applyStores_append] at hrun
    rw [hheight] at hrow
    exact ⟨top'', hrun, hrow⟩

/-- Where the cursor is on the screen, the screen shows the last rows. -/
theorem Tracks.lastRows (h : Tracks glyphs c mem p top) (hrow : c.yPos < c.height) :
    c.Shows glyphs mem (p.lastRows (c.height / 16)) := by
  obtain ⟨rows, hrows⟩ := h.ok.height
  obtain ⟨y, hy⟩ := h.ok.yPos
  have hplace := h.row
  have hfull := h.full
  have htop : p.row + 1 - c.height / 16 = top := by omega
  unfold Paper.lastRows
  rw [htop]
  exact h.shows

end Tracking

/-- What `fb_cons_putchar` shows of a string that ends in a character are the last rows of the
string on unlimited paper, for every geometry and every table of glyphs, if no newline comes
while the cursor is below the screen and no row overflows. -/
theorem putstr_shows_lastRows (glyphs : ℕ → ℕ → ℕ) {pitch width height : ℕ} (hwidth : 8 ∣ width)
    (hheight : 16 ∣ height) (hpos : 0 < height) (hpitch : 2 * width ≤ pitch)
    (hpitch_lt : pitch < 2 ^ 16) (hheight_lt : height < 2 ^ 16) (mem : Mem) (str : List Char)
    (hstr : ∀ ch ∈ str, ch = '\n' ∨ Printable ch) {last : Char} (hlast : Printable last)
    (hup : (FbCons.init pitch width height).KeepsUp glyphs (str ++ [last])) :
    (FbCons.init pitch width height).Shows glyphs
      (applyStores (applyStores mem (FbCons.init pitch width height).clear)
        ((FbCons.init pitch width height).putstr glyphs (str ++ [last])).1)
      ((Paper.empty.print (width / 8) (str ++ [last])).lastRows (height / 16)) := by
  have hok := FbCons.init_ok hwidth hheight hpos hpitch hpitch_lt hheight_lt
  rcases Nat.eq_zero_or_pos width with rfl | hcolumns
  · -- A screen without columns shows nothing.
    intro y hy j hj
    exact absurd hj (Nat.not_lt_zero j)
  · have hstart : Tracks glyphs (FbCons.init pitch width height)
        (applyStores mem (FbCons.init pitch width height).clear) Paper.empty 0 :=
      { ok := hok
        width := hcolumns
        row := rfl
        col := rfl
        column := Nat.zero_le _
        inside := Nat.zero_le _
        pending := fun _ => rfl
        full := Or.inl rfl
        blank := fun _ _ _ => rfl
        shows := hok.shows_clear glyphs mem }
    obtain ⟨top, hrun, hrow⟩ := hstart.run hstr hlast hup
    obtain ⟨-, hpitch', hwidth', hheight'⟩ := hok.putstr glyphs (str ++ [last])
    rw [← hheight'] at hrow
    have hshows := hrun.lastRows hrow
    rw [hheight'] at hshows
    exact hshows.congr ⟨hpitch'.symm, hwidth'.symm, hheight'.symm⟩

/-- Text that scrolls twice keeps up. -/
theorem putstr_shows_lastRows_dashes :
    (FbCons.init 32 16 32).Shows dashGlyph
      (applyStores (applyStores (fun _ => 0) (FbCons.init 32 16 32).clear)
        ((FbCons.init 32 16 32).putstr dashGlyph (['-', '\n', '-', '-', '-', '\n'] ++ ['-'])).1)
      ((Paper.empty.print (16 / 8) (['-', '\n', '-', '-', '-', '\n'] ++ ['-'])).lastRows
        (32 / 16)) :=
  putstr_shows_lastRows dashGlyph (by decide) (by decide) (by decide) (by decide) (by decide)
    (by decide) (fun _ => 0) ['-', '\n', '-', '-', '-', '\n'] (by simp [Printable]) (by decide)
    (by decide +kernel)

/-- An empty line below the screen is lost: of the rows of `-`, `-`, nothing and `-` the screen
shows the second and the last one. -/
theorem putstr_loses_row :
    ¬ (FbCons.init 32 16 32).Shows dashGlyph
      (applyStores (applyStores (fun _ => 0) (FbCons.init 32 16 32).clear)
        ((FbCons.init 32 16 32).putstr dashGlyph (['-', '\n', '-', '\n', '\n'] ++ ['-'])).1)
      ((Paper.empty.print (16 / 8) (['-', '\n', '-', '\n', '\n'] ++ ['-'])).lastRows
        (32 / 16)) := by
  intro h
  exact absurd (h 8 (by decide) 6 (by decide)) (by decide +kernel)

end Smor.Console
