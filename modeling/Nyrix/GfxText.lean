import Nyrix.Base.TextRows
import Nyrix.GfxPixels

/-!
# Text on the framebuffer

The screen is scrolled when the cursor comes to the last text row, one row too early, and the
cursor stays where it is. So a text shows as it is laid out only while it does not reach the
last row, or leaves nothing to be seen in the rows before it.
-/

namespace Gfx

open Overwriting PartialRuns TextRows

/-- A screen of text cells and the two colors. -/
structure Grid where
  columns : Nat
  rows : Nat
  fg : BitVec 32
  bg : BitVec 32

/-- A framebuffer, with addresses of its own for all its bytes, that shows a grid. -/
structure Grid.On (g : Grid) (s : State) : Prop where
  columns : 2 ≤ g.columns
  rows : 2 ≤ g.rows
  bpp : s.fbBpp = 32
  width : s.fbWidth = charW * g.columns
  height : s.fbHeight = charH * g.rows
  pitch : 4 * s.fbWidth ≤ s.fbPitch
  fits : s.fbPitch * s.fbHeight < 4294967296
  fg : s.fgColor = g.fg
  bg : s.bgColor = g.bg

/-- The place of a pixel of a cell. -/
def cellPlace (row col y x : Nat) : Place := (charH * row + y, charW * col + x)

/-- The cells show the characters of some rows, and no cursor. -/
def Grid.Pictures (g : Grid) (rs : List (List (BitVec 8))) (s : State) : Prop :=
  ∀ row < g.rows, ∀ col < g.columns, ∀ y < charH, ∀ x < charW,
    pixel s (cellPlace row col y x) = glyphPixel g.fg g.bg (cellAt 0x20 rs row col) y x

section Grid

variable {g : Grid} {s t : State}

theorem Grid.On.of_moved {x y : Nat} (h : g.On s) (hmoved : Moved s x y t) : g.On t := by
  obtain ⟨m, p, rfl⟩ := hmoved
  exact ⟨h.columns, h.rows, h.bpp, h.width, h.height, h.pitch, h.fits, h.fg, h.bg⟩

theorem Grid.On.canvas (h : g.On s) : Canvas (charW * g.columns) (charH * g.rows) s :=
  ⟨h.bpp, h.width, h.height, h.width ▸ h.pitch, h.height ▸ h.fits⟩

theorem Grid.On.screen (h : g.On s) : Screen s := by
  have hcolumns := h.columns
  have hrows := h.rows
  have hwidth := h.width
  have hheight := h.height
  have hpitch := h.pitch
  have hfits := h.fits
  simp only [charW] at hwidth
  simp only [charH] at hheight
  refine ⟨⟨by omega, by omega, hpitch, ?_, ?_⟩, h.bpp⟩
  · have := Nat.le_mul_of_pos_right s.fbPitch (show 0 < s.fbHeight by omega)
    omega
  · have := Nat.le_mul_of_pos_left s.fbHeight (show 0 < s.fbPitch by omega)
    omega

theorem Grid.On.not_huge (h : g.On s) : ¬Huge s := Nat.not_le.mpr h.fits

/-- A place of one cell lies in the cell and in no other. -/
theorem inCell_cellPlace {row col row' col' y x : Nat} (hy : y < charH) (hx : x < charW) :
    InCell (charW * col') (charH * row') (cellPlace row col y x) ↔ row = row' ∧ col = col' := by
  simp only [InCell, cellPlace, charW, charH] at *
  omega

theorem inside_cellPlace {row col y x : Nat} (hrow : row < g.rows) (hcol : col < g.columns)
    (hy : y < charH) (hx : x < charW) :
    Inside (charW * g.columns) (charH * g.rows) (cellPlace row col y x) := by
  simp only [Inside, cellPlace, charW, charH] at *
  omega

/-- The place in its cell of a pixel of the cell. -/
theorem glyphPixel_cellPlace (fg bg : BitVec 32) (c : BitVec 8) (row col y x : Nat) :
    glyphPixel fg bg c ((cellPlace row col y x).1 - charH * row)
      ((cellPlace row col y x).2 - charW * col) = glyphPixel fg bg c y x := by
  rw [cellPlace, Nat.add_sub_cancel_left, Nat.add_sub_cancel_left]

/-- A blank shows nothing but the background. -/
theorem glyphPixel_blank (fg bg : BitVec 32) {y x : Nat} : glyphPixel fg bg 0x20 y x = bg := by
  have hblank : getFontChar 0x20 = 0#128 := rfl
  rw [glyphPixel, hblank, fontRow, BitVec.zero_ushiftRight, BitVec.setWidth_zero, BitVec.zero_and]
  exact if_neg fun hne => hne rfl

variable {done : List (List (BitVec 8))} {cur : List (BitVec 8)}

/-- A character drawn in the cell behind the last row begun. -/
theorem drawChar_pictures (c : BitVec 8) (h : g.On s) (hcol : s.cursorX = charW * cur.length)
    (hrow : s.cursorY = charH * done.length) (hroom : cur.length < g.columns)
    (hlow : done.length < g.rows) (hcells : g.Pictures (done ++ [cur]) s) :
    ∃ t, drawChar c s = some t ∧ Painted s t ∧ g.Pictures (done ++ [cur ++ [c]]) t := by
  have hcell : CursorIn (charW * g.columns) (charH * g.rows) s := by
    simp only [CursorIn, hcol, hrow, charW, charH]
    omega
  obtain ⟨t, ht, hsets⟩ := drawChar_sets c h.canvas hcell
  refine ⟨t, ht, hsets.kept, fun row hrow' col hcol' y hy x hx => ?_⟩
  have hD := inside_cellPlace hrow' hcol' hy hx
  have hat : InCell (charW * cur.length) (charH * done.length) (cellPlace row col y x) ↔ _ :=
    inCell_cellPlace hy hx
  rw [hcol, hrow] at hsets
  rw [cellAt_write]
  by_cases hin : row = done.length ∧ col = cur.length
  · rw [if_pos hin, hsets.inside _ hD (hat.mpr hin), h.fg, h.bg, ← hin.1, ← hin.2,
      glyphPixel_cellPlace]
  · rw [if_neg hin, hsets.outside _ hD (mt hat.mp hin)]
    exact hcells row hrow' col hcol' y hy x hx

/-- Scrolling shows every row one row further up. -/
theorem gfxScroll_pictures {rs rs' : List (List (BitVec 8))} (h : g.On s)
    (hcells : g.Pictures rs s)
    (hup : ∀ row col, cellAt 0x20 rs' row col = cellAt 0x20 rs (row + 1) col)
    (hlen : rs.length ≤ g.rows) : ∃ t, gfxScroll s = some t ∧ Painted s t ∧ g.Pictures rs' t := by
  obtain ⟨t, ht, hsets⟩ := gfxScroll_sets h.canvas h.screen.frame
  refine ⟨t, ht, hsets.kept, fun row hrow col hcol y hy x hx => ?_⟩
  rw [hsets.inside _ (inside_cellPlace hrow hcol hy hx) trivial, hup]
  by_cases hlast : row + 1 < g.rows
  · have hbelow : (cellPlace row col y x).1 + charH < charH * g.rows := by
      simp only [cellPlace, charH] at *
      omega
    have hplace : ((cellPlace row col y x).1 + charH, (cellPlace row col y x).2) =
        cellPlace (row + 1) col y x := by
      simp only [cellPlace, charH, Prod.mk.injEq, and_true]
      omega
    rw [if_pos hbelow, hplace]
    exact hcells (row + 1) hlast col hcol y hy x hx
  · have hend : ¬(cellPlace row col y x).1 + charH < charH * g.rows := by
      simp only [cellPlace, charH] at *
      omega
    rw [if_neg hend, cellAt_below col (by omega), glyphPixel_blank, h.bg]

end Grid

/-- What the rows before the one begun look like: on the last text row of a screen `h` rows high
they have been moved up once. -/
def above (h : Nat) (done : List (List (BitVec 8))) : List (List (BitVec 8)) :=
  if done.length + 1 < h then done else done.tail ++ [[]]

/-- The screen without the cursor after the rows `done` and, in the row of the cursor, `cur`. -/
structure Grid.Shows (g : Grid) (done : List (List (BitVec 8))) (cur : List (BitVec 8))
    (s : State) : Prop where
  on : g.On s
  column : s.cursorX = charW * cur.length
  row : s.cursorY = charH * done.length
  room : cur.length < g.columns
  low : done.length < g.rows
  cells : g.Pictures (above g.rows done ++ [cur]) s

section Shows

variable {g : Grid} {s t u : State} {done : List (List (BitVec 8))} {cur : List (BitVec 8)}

theorem above_length {h : Nat} (hh : 2 ≤ h) (hlow : done.length < h) :
    (above h done).length = done.length := by
  rw [above]
  split_ifs
  · rfl
  · rw [List.length_append, List.length_tail, List.length_singleton]
    omega

/-- No position on the screen wraps around. -/
theorem Grid.On.lt (h : g.On s) :
    4 * (charW * g.columns) < 4294967296 ∧ charH * g.rows < 4294967296 := by
  have hrows := h.screen.geometry.rows
  have hpitch := h.screen.geometry.pitch_lt
  have hheight := h.screen.geometry.height_lt
  rw [← h.width, ← h.height]
  exact ⟨by omega, hheight⟩

/-- The start of another row, while there is one on the screen. -/
theorem lineFeed_shows (h : g.On s) (hrow : s.cursorY = charH * done.length)
    (hcells : g.Pictures (done ++ [cur]) s) (hlow : done.length + 1 < g.rows) :
    ∃ t, lineFeed s = some t ∧ g.Shows (done ++ [cur]) [] t := by
  have hlt := h.lt.2
  have hlen : (done ++ [cur]).length = done.length + 1 := by
    rw [List.length_append, List.length_singleton]
  simp only [charH] at hlt
  have hnext : u32 (s.cursorY + charH) = charH * (done ++ [cur]).length := by
    rw [hrow, hlen, u32_of_lt] <;> simp only [charH] <;> omega
  have hbelow : u32 (u32 (s.cursorY + charH) + charH) = charH * (done.length + 2) := by
    rw [hnext, hlen, u32_of_lt] <;> simp only [charH] <;> omega
  have hmoved := moved_cursor s 0 (u32 (s.cursorY + charH))
  have hon := h.of_moved hmoved
  have hwide : ([] : List (BitVec 8)).length < g.columns := Nat.lt_of_lt_of_le Nat.two_pos h.columns
  have hheight := h.height
  simp only [charH] at hheight
  rw [lineFeed]
  dsimp only
  rw [hbelow]
  by_cases hlast : done.length + 2 = g.rows
  · have hscroll : charH * (done.length + 2) ≥ s.fbHeight := by
      simp only [charH]
      omega
    have hup : ∀ row col, cellAt 0x20 (above g.rows (done ++ [cur]) ++ [[]]) row col =
        cellAt 0x20 (done ++ [cur]) (row + 1) col := by
      intro row col
      have habove : ¬(done ++ [cur]).length + 1 < g.rows := by omega
      rw [above, if_neg habove, cellAt_newRow, cellAt_newRow, cellAt_tail]
    obtain ⟨t, ht, hpainted, hcells'⟩ := gfxScroll_pictures hon hcells hup (by omega)
    refine ⟨t, (if_pos hscroll).trans ht, ?_⟩
    obtain ⟨m, rfl⟩ := hpainted
    exact ⟨hon.of_moved ⟨m, s.serial, rfl⟩, rfl, hnext, hwide, by omega, hcells'⟩
  · have hroom : ¬charH * (done.length + 2) ≥ s.fbHeight := by
      simp only [charH]
      omega
    have habove : (done ++ [cur]).length + 1 < g.rows := by omega
    refine ⟨_, if_neg hroom, hon, rfl, hnext, hwide, by omega, ?_⟩
    intro row hrow' col hcol y hy x hx
    rw [above, if_pos habove, cellAt_newRow]
    exact hcells row hrow' col hcol y hy x hx

/-- The rows that have been finished are on the screen as they are. -/
theorem Grid.Shows.finished (h : g.Shows done cur s) (hlow : done.length + 1 < g.rows) :
    g.Pictures (done ++ [cur]) s := by
  have hcells := h.cells
  rwa [above, if_pos hlow] at hcells

/-- A character written in the row begun. -/
theorem stepForward_shows (h : g.On s) (hcol : s.cursorX = charW * cur.length)
    (hrow : s.cursorY = charH * done.length) (hroom : cur.length < g.columns)
    (hlow : done.length < g.rows) (c : BitVec 8)
    (hcells : g.Pictures (above g.rows done ++ [cur ++ [c]]) s)
    (hnext : cur.length + 1 = g.columns → done.length + 1 < g.rows) :
    ∃ t, stepForward s = some t ∧ if cur.length + 1 = g.columns then
      g.Shows (done ++ [cur ++ [c]]) [] t else g.Shows done (cur ++ [c]) t := by
  have hlt := h.lt.1
  have hwidth := h.width
  have hlen : (cur ++ [c]).length = cur.length + 1 := by
    rw [List.length_append, List.length_singleton]
  simp only [charW] at hlt hwidth
  have hx : u32 (s.cursorX + charW) = charW * (cur ++ [c]).length := by
    rw [hcol, hlen, u32_of_lt] <;> simp only [charW] <;> omega
  have hmoved := moved_cursor s (u32 (s.cursorX + charW)) s.cursorY
  rw [stepForward]
  dsimp only
  by_cases hend : cur.length + 1 = g.columns
  · have hright : u32 (u32 (s.cursorX + charW) + charW) > s.fbWidth := by
      rw [hx, hlen, u32_of_lt] <;> simp only [charW] <;> omega
    have hrows := hnext hend
    rw [above, if_pos hrows] at hcells
    obtain ⟨t, ht, hshows⟩ := lineFeed_shows (h.of_moved hmoved) hrow hcells hrows
    refine ⟨t, (if_pos hright).trans ht, ?_⟩
    rwa [if_pos hend]
  · have hleft : ¬u32 (u32 (s.cursorX + charW) + charW) > s.fbWidth := by
      rw [hx, hlen, u32_of_lt] <;> simp only [charW] <;> omega
    refine ⟨_, if_neg hleft, ?_⟩
    rw [if_neg hend]
    exact ⟨h.of_moved hmoved, hx, hrow, by omega, hlow, hcells⟩

theorem Grid.Shows.toSerial (c : BitVec 8) (h : g.Shows done cur s) :
    g.Shows done cur (toSerial c s) := by
  rw [Gfx.toSerial]
  split_ifs
  · exact ⟨h.on.of_moved ⟨s.framebuffer, _, rfl⟩, h.column, h.row, h.room, h.low, h.cells⟩
  · exact h

/-- One character, as long as there is a row for what comes after it. -/
theorem putGlyph_shows {c : BitVec 8} (hc : c ≠ 0x08) (h : g.Shows done cur s)
    (hnext : (put g.columns 0x0A c done cur).1.length < g.rows) :
    ∃ t, putGlyph c s = some t ∧
      g.Shows (put g.columns 0x0A c done cur).1 (put g.columns 0x0A c done cur).2 t := by
  have hlonger : ∀ r : List (BitVec 8), (done ++ [r]).length = done.length + 1 := by
    intro r
    rw [List.length_append, List.length_singleton]
  rw [putGlyph]
  by_cases hlf : c = 0x0A
  · rw [put, if_pos hlf] at hnext ⊢
    rw [if_pos hlf]
    have hlow := (hlonger cur).symm.trans_lt hnext
    exact lineFeed_shows h.on h.row (h.finished hlow) hlow
  · rw [if_neg hlf, if_neg hc]
    have habove : s.cursorY = charH * (above g.rows done).length := by
      rw [above_length h.on.rows h.low, h.row]
    have hlow : (above g.rows done).length < g.rows := by
      rw [above_length h.on.rows h.low]
      exact h.low
    obtain ⟨t, ht, hpainted, hcells⟩ :=
      drawChar_pictures c h.on h.column habove h.room hlow h.cells
    obtain ⟨m, rfl⟩ := hpainted
    have hon := h.on.of_moved (t := { s with framebuffer := m }) ⟨m, s.serial, rfl⟩
    rw [put, if_neg hlf] at hnext ⊢
    rw [ht, Option.bind_some]
    have hlast : cur.length + 1 = g.columns → done.length + 1 < g.rows := by
      intro hend
      rw [if_pos hend] at hnext
      exact (hlonger (cur ++ [c])).symm.trans_lt hnext
    obtain ⟨u, hu, hshows⟩ := stepForward_shows hon h.column h.row h.room h.low c hcells hlast
    refine ⟨u, hu, ?_⟩
    split_ifs at hshows ⊢
    · exact hshows
    · exact hshows

theorem Grid.Shows.onScreen (h : g.Shows done cur s) : OnScreen s := by
  have hroom := h.room
  have hlow := h.low
  have hx := h.column
  have hy := h.row
  have hwidth := h.on.width
  have hheight := h.on.height
  simp only [charW] at hx hwidth
  simp only [charH] at hy hheight
  exact ⟨by omega, by omega⟩

/-- The same with the cursor on the screen. -/
theorem gfxPutchar_shows {c : BitVec 8} (hc : c ≠ 0x08) (h : g.Shows done cur u)
    (ht : gfxShowCursor u = some t)
    (hnext : (put g.columns 0x0A c done cur).1.length < g.rows) :
    ∃ t' u', gfxPutchar c t = some t' ∧ gfxShowCursor u' = some t' ∧
      g.Shows (put g.columns 0x0A c done cur).1 (put g.columns 0x0A c done cur).2 u' := by
  obtain ⟨u', hu', hshows⟩ := putGlyph_shows hc (h.toSerial c) hnext
  have hon := hshows.onScreen
  obtain ⟨t', ht', _⟩ := gfxInvertCell_works (cellIn_onScreen hshows.on.screen.frame hon.1 hon.2)
  refine ⟨t', u', ?_, ht', hshows⟩
  have hclean : drawClean (.putchar c) u = some u' := hu'
  rw [gfxPutchar_shown c ht, hclean, Option.bind_some]
  exact ht'

/-- Without such a row the cursor leaves the screen. -/
theorem gfxPutchar_none {c : BitVec 8} (hc : c ≠ 0x08) (h : g.Shows done cur u)
    (ht : gfxShowCursor u = some t)
    (hnext : ¬(put g.columns 0x0A c done cur).1.length < g.rows) : gfxPutchar c t = none := by
  have hon : g.On t ∧ OnScreen t ∧ t.cursorX = u.cursorX ∧ t.cursorY = u.cursorY := by
    have hcell := h.onScreen
    obtain ⟨m, rfl⟩ := gfxInvertCell_painted ht
    exact ⟨h.on.of_moved ⟨m, u.serial, rfl⟩, hcell, rfl, rfl⟩
  obtain ⟨hon, hcell, hx, hy⟩ := hon
  refine (gfxPutchar_noRoom hon.screen hcell fun hroom => ?_).1 hon.not_huge
  have hroom' := h.room
  have hlow := h.low
  have hwidth := hon.width
  have hheight := hon.height
  rw [hx, hy, h.column, h.row, hwidth, hheight] at hroom
  simp only [charW, charH] at hroom
  rw [put] at hnext
  split_ifs at hnext with hlf hend
  · have hrows := hroom (.inl hlf)
    rw [List.length_append, List.length_singleton] at hnext
    omega
  · have hrows := hroom (.inr ⟨hc, by omega⟩)
    rw [List.length_append, List.length_singleton] at hnext
    omega
  · exact hnext hlow

variable {str : List (BitVec 8)}

/-- A text with no more rows than the screen gets through. -/
theorem run_shows (hstr : ∀ c ∈ str, c ≠ 0x08) (h : g.Shows done cur u)
    (ht : gfxShowCursor u = some t)
    (hfits : (done ++ rowsFrom g.columns 0x0A cur str).length ≤ g.rows) :
    ∃ t' u' done' cur', runAll gfxPutchar str t = some t' ∧ gfxShowCursor u' = some t' ∧
      g.Shows done' cur' u' ∧ done' ++ [cur'] = done ++ rowsFrom g.columns 0x0A cur str := by
  induction str generalizing u t done cur with
  | nil => exact ⟨t, u, done, cur, rfl, ht, h, rfl⟩
  | cons c str ih =>
    obtain ⟨hc, hstr⟩ := List.forall_mem_cons.mp hstr
    rw [rowsFrom_cons] at hfits ⊢
    have hpos : 0 < (rowsFrom g.columns 0x0A (put g.columns 0x0A c done cur).2 str).length :=
      rowsFrom_length_pos str
    have hnext : (put g.columns 0x0A c done cur).1.length < g.rows := by
      rw [List.length_append] at hfits
      omega
    obtain ⟨t₁, u₁, ht₁, hshown, hshows⟩ := gfxPutchar_shows hc h ht hnext
    obtain ⟨t', u', done', cur', ht', hshown', hshows', hrows⟩ := ih hstr hshows hshown hfits
    refine ⟨t', u', done', cur', ?_, hshown', hshows', hrows⟩
    rw [runAll, ht₁, Option.bind_some, ht']

/-- A longer text does not. -/
theorem run_none (hstr : ∀ c ∈ str, c ≠ 0x08) (h : g.Shows done cur u)
    (ht : gfxShowCursor u = some t)
    (hmany : g.rows < (done ++ rowsFrom g.columns 0x0A cur str).length) :
    runAll gfxPutchar str t = none := by
  induction str generalizing u t done cur with
  | nil =>
    have hlow := h.low
    rw [rowsFrom, List.length_append, List.length_singleton] at hmany
    omega
  | cons c str ih =>
    obtain ⟨hc, hstr⟩ := List.forall_mem_cons.mp hstr
    rw [rowsFrom_cons] at hmany
    rw [runAll]
    by_cases hnext : (put g.columns 0x0A c done cur).1.length < g.rows
    · obtain ⟨t₁, u₁, ht₁, hshown, hshows⟩ := gfxPutchar_shows hc h ht hnext
      rw [ht₁, Option.bind_some]
      exact ih hstr hshows hshown hmany
    · rw [gfxPutchar_none hc h ht hnext]
      rfl

/-- The screen after a clear. -/
theorem gfxClear_shows (h : g.On s) : ∃ t u, gfxClear s = some t ∧ gfxShowCursor u = some t ∧
    g.Shows [] [] u := by
  have hrows : 0 + charH * g.rows ≤ charH * g.rows := Nat.le_of_eq (Nat.zero_add _)
  obtain ⟨m, hm, hsets⟩ := fillRows_sets h.canvas hrows
  have hon := (h.of_moved hsets.kept.moved).of_moved (moved_cursor m 0 0)
  have htall : 1 < g.rows := h.rows
  have hempty : g.Pictures (above g.rows [] ++ [[]]) { m with cursorX := 0, cursorY := 0 } := by
    intro row hrow col hcol y hy x hx
    have hD := inside_cellPlace hrow hcol hy hx
    have hblank : cellAt 0x20 (above g.rows [] ++ [[]]) row col = 0x20 := by
      have habove : ([] : List (List (BitVec 8))).length + 1 < g.rows := htall
      rw [above, if_pos habove, cellAt_newRow, cellAt_below _ (Nat.zero_le row)]
    rw [hblank, glyphPixel_blank, ← h.bg]
    exact hsets.inside _ hD ⟨Nat.zero_le _, (Nat.zero_add (charH * g.rows)).symm ▸ hD.1⟩
  have hshows : g.Shows [] [] { m with cursorX := 0, cursorY := 0 } :=
    ⟨hon, rfl, rfl, Nat.lt_of_lt_of_le Nat.two_pos h.columns,
      Nat.lt_of_lt_of_le Nat.two_pos h.rows, hempty⟩
  have hcell := hshows.onScreen
  obtain ⟨t, ht, _⟩ := gfxInvertCell_works (cellIn_onScreen hon.screen.frame hcell.1 hcell.2)
  refine ⟨t, _, ?_, ht, hshows⟩
  rw [gfxClear, h.height, hm, Option.bind_some]
  exact ht

end Shows

/-- What the screen should show of some rows that fit it, with the cursor on the cell of the next
character. -/
structure Grid.Displays (g : Grid) (rs : List (List (BitVec 8))) (t : State) : Prop where
  cells : ∀ row < g.rows, ∀ col < g.columns, ∀ y < charH, ∀ x < charW,
    pixel t (cellPlace row col y x) =
      if row + 1 = rs.length ∧ col = (rs.getLast?.getD []).length then
        ~~~glyphPixel g.fg g.bg (cellAt 0x20 rs row col) y x
      else glyphPixel g.fg g.bg (cellAt 0x20 rs row col) y x
  column : t.cursorX = charW * (rs.getLast?.getD []).length
  row : t.cursorY + charH = charH * rs.length

/-- Two characters look the same. -/
def Grid.Alike (g : Grid) (c d : BitVec 8) : Prop :=
  ∀ y < charH, ∀ x < charW, glyphPixel g.fg g.bg c y x = glyphPixel g.fg g.bg d y x

section Displays

variable {g : Grid} {s t u : State} {done rs rs' : List (List (BitVec 8))} {cur : List (BitVec 8)}

/-- The cursor does not hide what is in its cell. -/
theorem displays_iff_pictures (h : g.Shows done cur u) (ht : gfxShowCursor u = some t) :
    g.Displays (done ++ [cur]) t ↔ g.Pictures (done ++ [cur]) u := by
  have hlen : (done ++ [cur]).length = done.length + 1 := by
    rw [List.length_append, List.length_singleton]
  have hlast : ((done ++ [cur]).getLast?.getD []).length = cur.length := by
    rw [List.getLast?_concat, Option.getD_some]
  have hcell : CursorIn (charW * g.columns) (charH * g.rows) u := by
    have hon := h.onScreen
    rw [OnScreen, h.on.width, h.on.height] at hon
    exact hon
  have hsets := gfxShowCursor_sets h.on.canvas hcell ht
  rw [h.column, h.row] at hsets
  have hpixel : ∀ row < g.rows, ∀ col < g.columns, ∀ y < charH, ∀ x < charW,
      pixel t (cellPlace row col y x) = if row = done.length ∧ col = cur.length then
        ~~~pixel u (cellPlace row col y x) else pixel u (cellPlace row col y x) := by
    intro row hrow col hcol y hy x hx
    have hD := inside_cellPlace hrow hcol hy hx
    have hat : InCell (charW * cur.length) (charH * done.length) (cellPlace row col y x) ↔ _ :=
      inCell_cellPlace hy hx
    by_cases hin : row = done.length ∧ col = cur.length
    · rw [if_pos hin, hsets.inside _ hD (hat.mpr hin)]
    · rw [if_neg hin, hsets.outside _ hD (mt hat.mp hin)]
  constructor
  · intro hdisplays row hrow col hcol y hy x hx
    have hshown := hdisplays.cells row hrow col hcol y hy x hx
    rw [hpixel row hrow col hcol y hy x hx, hlen, hlast] at hshown
    simp only [Nat.add_right_cancel_iff] at hshown
    split_ifs at hshown
    · exact BitVec.not_inj.mp hshown
    · exact hshown
  · intro hpictures
    obtain ⟨m, rfl⟩ := gfxInvertCell_painted ht
    refine ⟨fun row hrow col hcol y hy x hx => ?_, ?_, ?_⟩
    · rw [hpixel row hrow col hcol y hy x hx, hlen, hlast, hpictures row hrow col hcol y hy x hx]
      simp only [Nat.add_right_cancel_iff]
    · rw [hlast]
      exact h.column
    · rw [hlen, Nat.mul_add, Nat.mul_one]
      exact congrArg (· + charH) h.row

/-- A screen that shows some rows shows others when they look the same. -/
theorem pictures_iff_alike (h : g.Pictures rs s) : g.Pictures rs' s ↔
    ∀ row < g.rows, ∀ col < g.columns,
      g.Alike (cellAt 0x20 rs row col) (cellAt 0x20 rs' row col) := by
  constructor
  · intro h' row hrow col hcol y hy x hx
    exact (h row hrow col hcol y hy x hx).symm.trans (h' row hrow col hcol y hy x hx)
  · intro halike row hrow col hcol y hy x hx
    exact (h row hrow col hcol y hy x hx).trans (halike row hrow col hcol y hy x hx)

end Displays

def Printable (c : BitVec 8) : Prop := 0x20 ≤ c.toNat ∧ c.toNat ≤ 0x7E

section Glyphs

variable {g : Grid} {c : BitVec 8}

/-- Every printable character but the blank has a glyph. -/
theorem getFontChar_ne_zero (hc : Printable c) (hblank : c ≠ 0x20) : getFontChar c ≠ 0 := by
  have hfont : ∀ i < 95, 0 < i → font.getD i 0 ≠ 0 := by decide
  obtain ⟨hlo, hhi⟩ := hc
  have hint : c.toInt = (c.toNat : Int) := BitVec.toInt_eq_toNat_of_lt (by omega)
  have hnot : ¬(c.toInt < 32 ∨ c.toInt > 126) := by omega
  have hne : c.toNat ≠ 0x20 := fun heq => hblank (BitVec.eq_of_toNat_eq heq)
  rw [getFontChar, if_neg hnot]
  exact hfont _ (by omega) (by omega)

/-- A glyph all of whose pixels are background is empty. -/
theorem glyph_eq_zero {glyph : BitVec 128}
    (h : ∀ y < charH, ∀ x < charW, fontRow glyph y &&& (0x80#8 >>> x) = 0) : glyph = 0 := by
  refine BitVec.eq_of_getLsbD_eq fun i hi => ?_
  have hrow : 15 - i / 8 < charH := by
    simp only [charH]
    omega
  have hcolumn : 7 - i % 8 < charW := by
    simp only [charW]
    omega
  have hbit := congrArg (BitVec.getLsbD · (i % 8)) (h _ hrow _ hcolumn)
  have hmask : 7 - i % 8 + i % 8 = 7 := by omega
  have hindex : 8 * (15 - (15 - i / 8)) + i % 8 = i := by omega
  have hlt : i % 8 < 8 := Nat.mod_lt _ (by decide)
  simpa [fontRow, hmask, hindex, hlt] using hbit

theorem alike_blank_iff (hc : Printable c) : g.Alike c 0x20 ↔ g.fg = g.bg ∨ c = 0x20 := by
  constructor
  · intro halike
    by_contra hnot
    rw [not_or] at hnot
    obtain ⟨hcolors, hblank⟩ := hnot
    refine getFontChar_ne_zero hc hblank (glyph_eq_zero fun y hy x hx => ?_)
    by_contra hbit
    have hpixel := halike y hy x hx
    rw [glyphPixel_blank, glyphPixel, if_pos hbit] at hpixel
    exact hcolors hpixel
  · rintro (hcolors | rfl) y _ x _
    · rw [glyphPixel_blank, glyphPixel, hcolors, ite_self]
    · rfl

end Glyphs

section Law

variable {g : Grid} {s t u : State} {done : List (List (BitVec 8))} {cur str : List (BitVec 8)}

/-- Rows of printable characters that fit the screen. -/
def Grid.Rows (g : Grid) (rs : List (List (BitVec 8))) : Prop :=
  ∀ r ∈ rs, r.length ≤ g.columns ∧ ∀ c ∈ r, Printable c

/-- The rows before the last look the same moved up by one row only if nothing is to be seen in
them. -/
theorem alike_above_iff (hrows : 2 ≤ g.rows) (hlen : done.length + 1 = g.rows)
    (hprint : g.Rows done) : (∀ row < g.rows, ∀ col < g.columns,
      g.Alike (cellAt 0x20 (above g.rows done ++ [cur]) row col)
        (cellAt 0x20 (done ++ [cur]) row col)) ↔
      g.fg = g.bg ∨ ∀ r ∈ done, ∀ c ∈ r, c = 0x20 := by
  have habove : above g.rows done = done.tail ++ [[]] := if_neg (by omega)
  have hsame : (above g.rows done).length = done.length := above_length hrows (by omega)
  have hcell : ∀ row < done.length, ∀ col,
      cellAt 0x20 (above g.rows done ++ [cur]) row col = cellAt 0x20 done (row + 1) col := by
    intro row hrow col
    rw [cellAt_append (by omega), habove, cellAt_newRow, cellAt_tail]
  constructor
  · intro halike
    have hblank : ∀ k row, row + k = done.length → ∀ col < g.columns,
        g.Alike (cellAt 0x20 done row col) 0x20 := by
      intro k
      induction k with
      | zero =>
        intro row hrow col _
        rw [cellAt_below col (by omega)]
        exact fun _ _ _ _ => rfl
      | succ k ih =>
        intro row hrow col hcol y hy x hx
        have hnext := ih (row + 1) (by omega) col hcol y hy x hx
        have hmoved := halike row (by omega) col hcol y hy x hx
        rw [hcell row (by omega), cellAt_append (by omega)] at hmoved
        exact hmoved.symm.trans hnext
    by_cases hcolors : g.fg = g.bg
    · exact .inl hcolors
    · refine .inr fun r hr c hc => ?_
      obtain ⟨row, hrow, rfl⟩ := List.mem_iff_getElem.mp hr
      obtain ⟨col, hcol, rfl⟩ := List.mem_iff_getElem.mp hc
      obtain ⟨hwidth, hchars⟩ := hprint _ hr
      have hlook := hblank (done.length - row) row (by omega) col (by omega)
      rw [cellAt_getElem hrow hcol, alike_blank_iff (hchars _ hc)] at hlook
      exact hlook.resolve_left hcolors
  · rintro (hcolors | hblank) row hrow col hcol y hy x hx
    · rw [glyphPixel, glyphPixel, hcolors, ite_self, ite_self]
    · by_cases hlast : row < done.length
      · rw [hcell row hlast, cellAt_append hlast, cellAt_blanks hblank, cellAt_blanks hblank]
      · have hat : row = done.length := by omega
        have hcur : cellAt 0x20 (above g.rows done ++ [cur]) row col =
            cellAt 0x20 (done ++ [cur]) row col := by
          rw [hat, cellAt_last, ← hsame, cellAt_last]
        rw [hcur]

/-- The rows the screen shows as they are: fewer than it has, or as many, with nothing to be seen
in those before the last. -/
def Grid.Fits (g : Grid) (rs : List (List (BitVec 8))) : Prop :=
  rs.length < g.rows ∨
    rs.length = g.rows ∧ (g.fg = g.bg ∨ ∀ r ∈ rs.dropLast, ∀ c ∈ r, c = 0x20)

instance (g : Grid) (rs : List (List (BitVec 8))) : Decidable (g.Fits rs) :=
  inferInstanceAs (Decidable (_ ∨ _))

theorem displays_iff_fits (h : g.Shows done cur u) (ht : gfxShowCursor u = some t)
    (hprint : g.Rows done) : g.Displays (done ++ [cur]) t ↔ g.Fits (done ++ [cur]) := by
  have hlow := h.low
  rw [displays_iff_pictures h ht, Grid.Fits, List.length_append, List.length_singleton,
    List.dropLast_concat]
  by_cases hroom : done.length + 1 < g.rows
  · exact iff_of_true (h.finished hroom) (.inl hroom)
  · have hfull : done.length + 1 = g.rows := by omega
    rw [pictures_iff_alike h.cells, alike_above_iff h.on.rows hfull hprint]
    simp only [hfull, Nat.lt_irrefl, false_or, true_and]

/-- Printable characters and line feeds. -/
def Writable (str : List (BitVec 8)) : Prop := ∀ c ∈ str, c = 0x0A ∨ Printable c

instance (str : List (BitVec 8)) : Decidable (Writable str) :=
  inferInstanceAs (Decidable (∀ c ∈ str, c = 0x0A ∨ _ ∧ _))

/-- What becomes of a text written after a clear. -/
theorem write_shows (h : g.On s) (hstr : Writable str) :
    (rows g.columns 0x0A str).length ≤ g.rows ∧ (∃ t u done cur,
      (gfxClear s).bind (runAll gfxPutchar str) = some t ∧ gfxShowCursor u = some t ∧
        g.Shows done cur u ∧ g.Rows done ∧ rows g.columns 0x0A str = done ++ [cur]) ∨
    g.rows < (rows g.columns 0x0A str).length ∧
      (gfxClear s).bind (runAll gfxPutchar str) = none := by
  have hback : ∀ c ∈ str, c ≠ 0x08 := by
    rintro c hc rfl
    obtain hlf | ⟨hlo, _⟩ := hstr _ hc
    · exact absurd hlf (by decide)
    · exact absurd hlo (by decide)
  have hwide : ([] : List (BitVec 8)).length < g.columns := Nat.lt_of_lt_of_le Nat.two_pos h.columns
  obtain ⟨t, u, ht, hshown, hshows⟩ := gfxClear_shows h
  rw [ht, Option.bind_some]
  by_cases hmany : (rows g.columns 0x0A str).length ≤ g.rows
  · obtain ⟨t', u', done, cur, ht', hshown', hshows', hrows⟩ := run_shows hback hshows hshown hmany
    have hlayout : rows g.columns 0x0A str = done ++ [cur] := hrows.symm
    refine .inl ⟨hmany, t', u', done, cur, ht', hshown', hshows', fun r hr => ?_, hlayout⟩
    have hmem : r ∈ rows g.columns 0x0A str := hlayout ▸ List.mem_append_left [cur] hr
    exact ⟨rowsFrom_length_le hwide r hmem,
      mem_rowsFrom (fun c hc => absurd hc List.not_mem_nil) hstr r hmem⟩
  · exact .inr ⟨Nat.lt_of_not_le hmany, run_none hback hshows hshown (Nat.lt_of_not_le hmany)⟩

/-- A text written after a clear is shown as it is laid out, with the cursor behind it, exactly
when its rows fit in this sense. -/
theorem text_displays_iff (h : g.On s) (hstr : Writable str) :
    (∃ t, (gfxClear s).bind (runAll gfxPutchar str) = some t ∧
      g.Displays (window g.rows (rows g.columns 0x0A str)) t) ↔
    g.Fits (rows g.columns 0x0A str) := by
  obtain ⟨hfew, t, u, done, cur, ht, hshown, hshows, hprint, hrows⟩ | ⟨hmany, hnone⟩ :=
    write_shows h hstr
  · rw [window_of_le hfew, ht, hrows]
    simp only [Option.some.injEq, exists_eq_left', displays_iff_fits hshows hshown hprint]
  · constructor
    · rintro ⟨t, ht, _⟩
      rw [hnone] at ht
      cases ht
    · rintro (hless | ⟨heq, _⟩)
      · omega
      · omega

theorem wide_on : (Grid.mk 80 30 0xFFFFFF 0).On wide :=
  ⟨by decide, by decide, rfl, rfl, rfl, by decide, by decide, rfl, rfl⟩

/-- Two letters and a line feed on a screen of 80 by 30 cells. -/
theorem text_displays_iff_hi : ∃ t,
    (gfxClear wide).bind (runAll gfxPutchar [0x68, 0x69, 0x0A]) = some t ∧
      (Grid.mk 80 30 0xFFFFFF 0).Displays (window 30 (rows 80 0x0A [0x68, 0x69, 0x0A])) t :=
  (text_displays_iff wide_on (by decide)).mpr (by decide)

/-- The letter A and 29 line feeds: the cursor is in the last of 30 rows, and the letter, which
should still be in the first, has been scrolled away. -/
theorem text_firstRow_lost : ¬∃ t,
    (gfxClear wide).bind (runAll gfxPutchar (0x41 :: List.replicate 29 0x0A)) = some t ∧
      (Grid.mk 80 30 0xFFFFFF 0).Displays
        (window 30 (rows 80 0x0A (0x41 :: List.replicate 29 0x0A))) t := by
  have hstr : Writable (0x41 :: List.replicate 29 0x0A) := by decide
  have hnot : ¬(Grid.mk 80 30 0xFFFFFF 0).Fits (rows 80 0x0A (0x41 :: List.replicate 29 0x0A)) := by
    decide
  rintro ⟨t, ht, hdisplays⟩
  obtain ⟨hfew, u, _, done, cur, hu, hshown, hshows, hprint, hrows⟩ | ⟨_, hnone⟩ :=
    write_shows wide_on hstr
  · obtain rfl := Option.some.inj (hu.symm.trans ht)
    rw [window_of_le hfew, hrows, displays_iff_fits hshows hshown hprint, ← hrows] at hdisplays
    exact hnot hdisplays
  · rw [hnone] at ht
    cases ht

end Law

end Gfx
