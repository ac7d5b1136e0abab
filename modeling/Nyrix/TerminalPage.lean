import Nyrix.Base.TextPage
import Nyrix.TerminalErase

/-!
# A page on the VGA screen

What is printed in any colors goes to the end of a page, and a backspace takes the last character
of it back. The screen shows the page from some row on, down to where the next character goes.
-/

namespace Terminal

open TextRows

structure Cell where
  char : BitVec 8
  color : BitVec 8
  deriving DecidableEq

def lineFeed : Cell := ⟨0x0A, 0⟩

/-- What stands on the page for a character. -/
def cellOf (color c : BitVec 8) : Cell := if c = 0x0A then lineFeed else ⟨c, color⟩

def emptyCell : Cell := ⟨0x20, 0x0F⟩

/-- The word of the screen shows the cell. The color of a blank is not seen. -/
def Cell.ShownBy (cell : Cell) (v : BitVec 16) : Prop :=
  ∃ color, v = vgaEntry cell.char color ∧ (cell.char = 0x20 ∨ color = cell.color)

structure Page extends TextRows.Page Cell where
  color : BitVec 8

def Page.empty (color : BitVec 8) : Page := ⟨⟨[], 0⟩, color⟩

def Page.put (c : BitVec 8) (p : Page) : Page :=
  { p with toPage := p.toPage.put vgaWidth vgaHeight lineFeed (cellOf p.color c) }

def Page.takeBack (p : Page) : Page := { p with toPage := p.toPage.takeBack }

def Page.write (str : List (BitVec 8)) (p : Page) : Page := str.foldl (fun p c => p.put c) p

def Page.rows (p : Page) : List (List Cell) := TextRows.rows vgaWidth lineFeed p.text

/-- The screen shows rows that end in the one begun, from a row on. -/
structure Lays (s : State) (top : Nat) (done : List (List Cell)) (cur : List Cell) : Prop where
  writes : Writes s
  row : s.terminalRow + top = done.length
  column : s.terminalColumn = cur.length
  cells : ∀ y < 25, ∀ x < 80,
    (cellAt emptyCell (done ++ [cur]) (top + y) x).ShownBy (s.vgaBuffer (y * 80 + x))

/-- The screen shows the page, with both cursors where the next character goes. -/
structure Presents (s : State) (p : Page) : Prop where
  vga : s.useFramebuffer = false
  color : s.terminalColor = p.color
  row : s.terminalRow + p.top + 1 = p.rows.length
  inside : s.terminalRow < vgaHeight
  column : s.terminalColumn = (p.rows.getLast?.getD []).length
  cursor : s.crtc.location = s.terminalRow * vgaWidth + s.terminalColumn
  cells : ∀ y < vgaHeight, ∀ x < vgaWidth,
    (cellAt emptyCell p.rows (p.top + y) x).ShownBy (s.vgaBuffer (y * vgaWidth + x))

section Lays

variable {s t : State} {top : Nat} {done : List (List Cell)} {cur : List Cell} {c : BitVec 8}

theorem blank_shown (s : State) : emptyCell.ShownBy (blank s) := ⟨s.terminalColor, rfl, .inl rfl⟩

theorem Lays.sameScreen (h : Lays s top done cur) (hsame : SameScreen s t) :
    Lays t top done cur ∧ t.terminalColor = s.terminalColor := by
  have hwrites := h.writes.sameScreen hsame
  obtain ⟨g, rfl⟩ := hsame
  exact ⟨⟨hwrites, h.row, h.column, h.cells⟩, rfl⟩

theorem Lays.settled (h : Lays s top done cur) :
    Lays (updateCursor s.terminalRow s.terminalColumn s) top done cur ∧
      Settled (updateCursor s.terminalRow s.terminalColumn s) := by
  have hcell := h.writes.cell
  exact ⟨⟨h.writes.settled _ _, h.row, h.column, h.cells⟩, updateCursor_location (by omega)⟩

/-- A new row, on a screen that moves down to it when it is full. -/
theorem nextRow_lays (hvga : s.useFramebuffer = false) (hrow : s.terminalRow < 25)
    (hdone : s.terminalRow + top = done.length)
    (hcells : ∀ y < 25, ∀ x < 80,
      (cellAt emptyCell (done ++ [cur]) (top + y) x).ShownBy (s.vgaBuffer (y * 80 + x))) :
    ∃ t, nextRow s = some t ∧ t.terminalColor = s.terminalColor ∧
      Lays t (max top ((done ++ [cur]).length + 1 - 25)) (done ++ [cur]) [] := by
  have hlength : (done ++ [cur]).length = done.length + 1 := by
    rw [List.length_append, List.length_singleton]
  have hleft : 0 < vgaWidth := by decide
  by_cases hfull : s.terminalRow + 1 = 25
  · have htop : max top ((done ++ [cur]).length + 1 - 25) = top + 1 := by omega
    have hlast : 24 < vgaHeight := by decide
    rw [htop]
    refine ⟨_, nextRow_full hfull, rfl, ⟨hvga, hlast, hleft⟩, ?_, rfl, ?_⟩
    · simp only [hlength]
      omega
    · intro y hy x hx
      rw [cellAt_newRow]
      change Cell.ShownBy _ (scrolled s (y * 80 + x))
      rw [scrolled]
      by_cases hbottom : y = 24
      · have hbelow : (done ++ [cur]).length ≤ top + 1 + y := by omega
        rw [if_neg (by omega), if_pos (by omega), cellAt_below x hbelow]
        exact blank_shown s
      · have hup : y * 80 + x + 80 = (y + 1) * 80 + x := by omega
        have hmoved : top + 1 + y = top + (y + 1) := by omega
        rw [if_pos (by omega), hup, hmoved]
        exact hcells (y + 1) (by omega) x hx
  · have htop : max top ((done ++ [cur]).length + 1 - 25) = top := by omega
    have hlt : s.terminalRow + 1 < vgaHeight := Nat.lt_of_le_of_ne hrow hfull
    rw [htop]
    refine ⟨_, nextRow_room hfull, rfl, ⟨hvga, hlt, hleft⟩, ?_, rfl, ?_⟩
    · simp only [hlength]
      omega
    · intro y hy x hx
      rw [cellAt_newRow]
      exact hcells y hy x hx

/-- A character in the cell of the cursor. -/
theorem written_lays (h : Lays s top done cur) (c : BitVec 8) : ∀ y < 25, ∀ x < 80,
    (cellAt emptyCell (done ++ [cur ++ [⟨c, s.terminalColor⟩]]) (top + y) x).ShownBy
      ((written c s).vgaBuffer (y * 80 + x)) := by
  intro y hy x hx
  have hrow := h.row
  have hcolumn := h.column
  have hleft : s.terminalColumn < 80 := h.writes.inCells.2
  rw [cellAt_write]
  by_cases hat : top + y = done.length ∧ x = cur.length
  · have hcell : y * 80 + x = s.terminalRow * 80 + s.terminalColumn := by omega
    have hnew : (written c s).vgaBuffer (s.terminalRow * 80 + s.terminalColumn) =
        vgaEntry c s.terminalColor := Function.update_self _ _ _
    rw [if_pos hat, hcell, hnew]
    exact ⟨s.terminalColor, rfl, .inr rfl⟩
  · have hcell : y * 80 + x ≠ s.terminalRow * 80 + s.terminalColumn := by omega
    have hold : (written c s).vgaBuffer (y * 80 + x) = s.vgaBuffer (y * 80 + x) :=
      Function.update_of_ne hcell _ _
    rw [if_neg hat, hold]
    exact h.cells y hy x hx

theorem cellOf_ne (hlf : c ≠ 0x0A) (color : BitVec 8) : cellOf color c ≠ lineFeed := by
  rw [cellOf, if_neg hlf]
  exact fun heq => hlf (congrArg Cell.char heq)

theorem putCell_lays (h : Lays s top done cur) (c : BitVec 8) :
    let next := put vgaWidth lineFeed (cellOf s.terminalColor c) done cur
    ∃ t, putCell c s = some t ∧ t.terminalColor = s.terminalColor ∧
      Lays t (max top (next.1.length + 1 - 25)) next.1 next.2 := by
  have hrow := h.row
  have hcolumn := h.column
  have hinside : s.terminalRow < 25 := h.writes.inCells.1
  dsimp only
  by_cases hlf : c = 0x0A
  · subst hlf
    have hcell : cellOf s.terminalColor 0x0A = lineFeed := rfl
    rw [putCell, if_pos rfl, put, if_pos hcell]
    exact nextRow_lays h.writes.vga hinside h.row h.cells
  · have hcell : cellOf s.terminalColor c = ⟨c, s.terminalColor⟩ := if_neg hlf
    have hcells := written_lays h c
    rw [putCell_eq hlf h.writes.cell, put, if_neg (cellOf_ne hlf _), hcell, ← hcolumn]
    by_cases hend : s.terminalColumn + 1 = 80
    · rw [if_pos hend, if_pos (show s.terminalColumn + 1 = vgaWidth from hend)]
      exact nextRow_lays (s := written c s) h.writes.vga hinside h.row hcells
    · have htop : max top (done.length + 1 - 25) = top := by omega
      have hleft : s.terminalColumn + 1 < vgaWidth := Nat.lt_of_le_of_ne h.writes.inCells.2 hend
      rw [if_neg hend, if_neg (show ¬s.terminalColumn + 1 = vgaWidth from hend), htop]
      refine ⟨_, rfl, rfl, ⟨h.writes.vga, hinside, hleft⟩, h.row, ?_, hcells⟩
      rw [List.length_append, List.length_singleton, ← hcolumn]
      rfl

/-- A backspace takes a character back whose row is on the screen. -/
theorem vgaPutchar_back_lays {cell : Cell} (hcell : cell ≠ lineFeed) (hcur : cur.length < 80)
    (htop : top ≤ done.length)
    (h : Lays s top (put vgaWidth lineFeed cell done cur).1 (put vgaWidth lineFeed cell done cur).2) :
    ∃ t, vgaPutchar 0x08 s = some t ∧ t.terminalColor = s.terminalColor ∧ Settled t ∧
      Lays t top done cur := by
  have hstep : (stepBack s).terminalRow + top = done.length ∧
      (stepBack s).terminalColumn = cur.length := by
    have hrow := h.row
    have hcolumn := h.column
    rw [put, if_neg hcell] at hrow hcolumn
    rw [stepBack]
    by_cases hend : cur.length + 1 = vgaWidth
    · rw [if_pos hend] at hrow hcolumn
      rw [List.length_append, List.length_singleton] at hrow
      rw [List.length_nil] at hcolumn
      rw [if_neg (by omega), if_pos (by omega)]
      simp only [vgaWidth] at hend ⊢
      omega
    · rw [if_neg hend] at hrow hcolumn
      rw [List.length_append, List.length_singleton] at hcolumn
      rw [if_pos (by omega)]
      exact ⟨hrow, by dsimp only; omega⟩
  have hshown : ∀ y < 25, ∀ x < 80, ¬(top + y = done.length ∧ x = cur.length) →
      (cellAt emptyCell (done ++ [cur]) (top + y) x).ShownBy (s.vgaBuffer (y * 80 + x)) := by
    intro y hy x hx hat
    have hold := h.cells y hy x hx
    rw [put, if_neg hcell] at hold
    split_ifs at hold
    · rwa [cellAt_newRow, cellAt_write, if_neg hat] at hold
    · rwa [cellAt_write, if_neg hat] at hold
  obtain ⟨hrow, hcolumn⟩ := hstep
  obtain ⟨hcolor, hbuffer⟩ := stepBack_frame s
  have hwrites := stepBack_writes h.writes
  rw [vgaPutchar_back, vgaWrite_some _ hwrites.cell, Option.map_some, hbuffer]
  have hlays : Lays ((stepBack s).withCells (Function.update s.vgaBuffer
      ((stepBack s).terminalRow * 80 + (stepBack s).terminalColumn) (blank (stepBack s))))
      top done cur := by
    refine ⟨hwrites.withCells _, hrow, hcolumn, fun y hy x hx => ?_⟩
    have hleft : (stepBack s).terminalColumn < 80 := hwrites.inCells.2
    simp only [State.withCells]
    by_cases hat : top + y = done.length ∧ x = cur.length
    · have hplace : y * 80 + x = (stepBack s).terminalRow * 80 + (stepBack s).terminalColumn := by
        omega
      have hempty : cur[x]? = none := List.getElem?_eq_none (Nat.le_of_eq hat.2.symm)
      rw [hplace, Function.update_self, hat.1, cellAt_last, hempty, Option.getD_none]
      exact blank_shown (stepBack s)
    · have hplace : y * 80 + x ≠ (stepBack s).terminalRow * 80 + (stepBack s).terminalColumn := by
        omega
      rw [Function.update_of_ne hplace]
      exact hshown y hy x hx hat
  exact ⟨_, rfl, hcolor, hlays.settled.2, hlays.settled.1⟩

end Lays

section Presents

variable {s t : State} {p : Page} {c : BitVec 8}

theorem presents_iff : Presents s p ↔ s.terminalColor = p.color ∧ Settled s ∧
    Lays s p.top (layout vgaWidth lineFeed p.text).1 (layout vgaWidth lineFeed p.text).2 := by
  have hrows : p.rows = (layout vgaWidth lineFeed p.text).1 ++
      [(layout vgaWidth lineFeed p.text).2] := rows_layout p.text
  have hlength : p.rows.length = (layout vgaWidth lineFeed p.text).1.length + 1 := by
    rw [hrows, List.length_append, List.length_singleton]
  have hlast : p.rows.getLast?.getD [] = (layout vgaWidth lineFeed p.text).2 := by
    rw [hrows, List.getLast?_concat, Option.getD_some]
  have hfits : (layout vgaWidth lineFeed p.text).2.length < vgaWidth :=
    layout_fits (by decide) p.text
  constructor
  · intro h
    have hrow := h.row
    have hcells := h.cells
    rw [hrows] at hcells
    refine ⟨h.color, h.cursor, ⟨h.vga, h.inside, ?_⟩, by omega, hlast ▸ h.column, hcells⟩
    rw [h.column, hlast]
    exact hfits
  · rintro ⟨hcolor, hcursor, h⟩
    have hrow := h.row
    refine ⟨h.writes.vga, hcolor, by omega, h.writes.inCells.1, ?_, hcursor, ?_⟩
    · rw [hlast, h.column]
    · rw [hrows]
      exact h.cells

theorem Presents.writes (h : Presents s p) : Writes s := (presents_iff.mp h).2.2.writes

/-- The row of the next character is on the screen. -/
theorem Presents.top_le (h : Presents s p) :
    p.top ≤ (layout vgaWidth lineFeed p.text).1.length := by
  have hrow := (presents_iff.mp h).2.2.row
  omega

theorem putchar_presents (hc : c ≠ 0x08) (h : Presents s p) :
    ∃ t, terminalPutchar c s = some t ∧ Presents t (p.put c) := by
  obtain ⟨hcolor, -, hlays⟩ := presents_iff.mp h
  obtain ⟨hlays, hsent⟩ := hlays.sameScreen (sendSerial_sameScreen c s)
  obtain ⟨t, ht, hsame, hnext⟩ := putCell_lays hlays c
  rw [terminalPutchar_vga h.writes, vgaPutchar_eq hc, ht, Option.map_some]
  refine ⟨_, rfl, presents_iff.mpr ⟨hsame.trans (hsent.trans hcolor), hnext.settled.2, ?_⟩⟩
  rw [hsent, hcolor, ← layout_concat] at hnext
  exact hnext.settled.1

/-- A backspace takes back a character whose row is on the screen. -/
theorem back_presents {text : List Cell} {cell : Cell} (htext : p.text = text ++ [cell])
    (hcell : cell ≠ lineFeed) (htop : p.top ≤ (layout vgaWidth lineFeed text).1.length)
    (h : Presents s p) : ∃ t, terminalPutchar 0x08 s = some t ∧ Presents t p.takeBack := by
  obtain ⟨hcolor, -, hlays⟩ := presents_iff.mp h
  obtain ⟨hlays, hsent⟩ := hlays.sameScreen (sendSerial_sameScreen 0x08 s)
  rw [htext, layout_concat] at hlays
  obtain ⟨t, ht, hsame, hsettled, hback⟩ :=
    vgaPutchar_back_lays hcell (layout_fits (by decide) text) htop hlays
  have hshort : p.takeBack.text = text := by
    change p.text.dropLast = text
    rw [htext, List.dropLast_concat]
  rw [terminalPutchar_vga h.writes, ht]
  exact ⟨t, rfl, presents_iff.mpr
    ⟨hsame.trans (hsent.trans hcolor), hsettled, by rw [hshort]; exact hback⟩⟩

theorem write_presents {str : List (BitVec 8)} (hstr : ∀ c ∈ str, c ≠ 0 ∧ c ≠ 0x08)
    (h : Presents s p) : ∃ t, terminalWrite str s = some t ∧ Presents t (p.write str) := by
  induction str generalizing s p with
  | nil => exact ⟨s, rfl, h⟩
  | cons c str ih =>
    obtain ⟨⟨hnul, hback⟩, hstr⟩ := List.forall_mem_cons.mp hstr
    obtain ⟨t, ht, hnext⟩ := putchar_presents hback h
    rw [terminalWrite, if_neg hnul, ht, Option.bind_some]
    exact ih hstr hnext

theorem clear_presents (hvga : s.useFramebuffer = false) :
    ∃ t, terminalClear s = some t ∧ Presents t (.empty s.terminalColor) := by
  have hfits : 0 * 80 + 0 < 65536 := by decide
  have hhome : Settled (cleared s) := updateCursor_location hfits
  refine ⟨cleared s, terminalClear_eq hvga, presents_iff.mpr ⟨rfl, hhome, ⟨hvga, ?_⟩, rfl, rfl, ?_⟩⟩
  · exact ⟨Nat.zero_lt_succ 24, Nat.zero_lt_succ 79⟩
  · intro y hy x hx
    have hcell : y * 80 + x < 2000 := by omega
    have hempty : cellAt emptyCell ([] ++ [[]]) (0 + y) x = emptyCell := cellAt_newRow (0 + y) x
    have hblank : (cleared s).vgaBuffer (y * 80 + x) = blank s := if_pos hcell
    change (cellAt emptyCell ([] ++ [[]]) (0 + y) x).ShownBy _
    rw [hempty, hblank]
    exact blank_shown s

theorem setcolor_presents (color : BitVec 8) (h : Presents s p) :
    Presents (terminalSetcolor color s) { p with color := color } := by
  have hvga : ¬s.useFramebuffer = true := Bool.not_eq_true _ ▸ h.vga
  rw [terminalSetcolor, if_neg hvga]
  exact ⟨h.vga, rfl, h.row, h.inside, h.column, h.cursor, h.cells⟩

end Presents

end Terminal
