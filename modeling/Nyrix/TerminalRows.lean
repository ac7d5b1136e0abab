import Nyrix.Base.TextRows
import Nyrix.Terminal

/-!
# What the VGA terminal shows

Text written after a clear appears laid out in rows of 80 columns, the last 25 of them on the
screen, with both cursors where the next character goes.
-/

namespace Terminal

open BoundedLoop TextRows

/-- A range of cells filled so far, and the next one. -/
theorem update_range (f g : Nat → BitVec 16) (lo k : Nat) :
    Function.update (fun i => if lo ≤ i ∧ i < lo + k then f i else g i) (lo + k) (f (lo + k)) =
      fun i => if lo ≤ i ∧ i < lo + (k + 1) then f i else g i := by
  funext i
  by_cases hi : i = lo + k
  · subst hi
    rw [Function.update_self, if_pos (by omega)]
  · rw [Function.update_of_ne hi]
    exact if_congr (by omega) rfl rfl

def State.withCells (s : State) (f : Nat → BitVec 16) : State := { s with vgaBuffer := f }

/-- The rows moved up by one, and a blank row at the bottom. -/
def scrolled (s : State) : Nat → BitVec 16 := fun i =>
  if i < 1920 then s.vgaBuffer (i + 80) else if i < 2000 then blank s else s.vgaBuffer i

section Screen

variable {s : State}

theorem vgaWrite_some {i : Nat} (v : BitVec 16) (h : i < 2000) :
    vgaWrite i v s = some (s.withCells (Function.update s.vgaBuffer i v)) := if_pos h

theorem vgaRead_some {i : Nat} (h : i < 2000) : vgaRead s i = some (s.vgaBuffer i) := if_pos h

/-- A loop that writes `n` cells in a row, from what the cells before it leave. -/
theorem cellsLoop_eq {cell : Nat → State → Option State} {base n : Nat} {v : Nat → BitVec 16}
    (hin : base + n ≤ 2000)
    (hcell : ∀ k < n, ∀ t, t = s.withCells (fun i =>
      if base ≤ i ∧ i < base + k then v i else s.vgaBuffer i) →
        cell k t = vgaWrite (base + k) (v (base + k)) t) :
    forUp? cell 0 n s = some (s.withCells fun i =>
      if base ≤ i ∧ i < base + n then v i else s.vgaBuffer i) := by
  obtain ⟨t, ht, hP⟩ := forUp?_induct cell
    (fun k t => t = s.withCells fun i => if base ≤ i ∧ i < base + k then v i else s.vgaBuffer i)
    0 n s
    (by
      have hnone : ∀ i, ¬(base ≤ i ∧ i < base + 0) := fun i => by omega
      simp only [hnone, if_false]
      rfl)
    (by
      intro k t _ hk ht
      have hlt : k < n := by omega
      have hwrite := hcell k hlt t ht
      subst ht
      refine ⟨_, hwrite.trans (vgaWrite_some _ (by omega)), ?_⟩
      rw [← update_range v]
      rfl)
  rw [ht, hP, Nat.zero_add]

theorem blankRow_eq {y : Nat} (hy : y < 25) : blankRow y s = some (s.withCells fun i =>
    if y * 80 ≤ i ∧ i < y * 80 + 80 then blank s else s.vgaBuffer i) := by
  refine cellsLoop_eq (n := 80) (v := fun _ => blank s) (by omega) ?_
  rintro k _ t rfl
  rfl

theorem copyRowUp_eq {y : Nat} (h0 : 1 ≤ y) (hy : y < 25) :
    copyRowUp y s = some (s.withCells fun i =>
      if (y - 1) * 80 ≤ i ∧ i < (y - 1) * 80 + 80 then s.vgaBuffer (i + 80)
      else s.vgaBuffer i) := by
  refine cellsLoop_eq (n := 80) (v := fun i => s.vgaBuffer (i + 80)) (by omega) ?_
  rintro k hk t rfl
  have hsource : y * 80 + k < 2000 := by omega
  have hbehind : ¬((y - 1) * 80 ≤ y * 80 + k ∧ y * 80 + k < (y - 1) * 80 + k) := by omega
  have hfrom : y * 80 + k = (y - 1) * 80 + k + 80 := by omega
  have hread : vgaRead (s.withCells fun i => if (y - 1) * 80 ≤ i ∧ i < (y - 1) * 80 + k then
      s.vgaBuffer (i + 80) else s.vgaBuffer i) (y * vgaWidth + k) =
        some (s.vgaBuffer ((y - 1) * 80 + k + 80)) := by
    refine (vgaRead_some hsource).trans (congrArg some ?_)
    refine (if_neg hbehind).trans ?_
    rw [hfrom]
  rw [hread, Option.bind_some]
  rfl

/-- A loop over rows, each written from what the rows before it leave. -/
theorem rowsLoop_eq {row : Nat → State → Option State} {lo n : Nat} {v : Nat → BitVec 16}
    (hrow : ∀ y < n, ∀ t, t = s.withCells (fun i => if i < y * 80 then v i else s.vgaBuffer i) →
      row (lo + y) t = some (t.withCells fun i =>
        if y * 80 ≤ i ∧ i < y * 80 + 80 then v i else t.vgaBuffer i)) :
    forUp? row lo n s = some (s.withCells fun i => if i < n * 80 then v i else s.vgaBuffer i) := by
  obtain ⟨t, ht, hP⟩ := forUp?_induct row
    (fun y t => t = s.withCells fun i => if i < (y - lo) * 80 then v i else s.vgaBuffer i) lo n s
    (by
      have hnone : ∀ i, ¬i < (lo - lo) * 80 := fun i => by omega
      simp only [hnone, if_false]
      rfl)
    (by
      rintro y t hlo hhi rfl
      have hstep := hrow (y - lo) (by omega) _ rfl
      rw [Nat.add_sub_cancel' hlo] at hstep
      refine ⟨_, hstep, congrArg s.withCells (funext fun i => ?_)⟩
      simp only [State.withCells]
      by_cases hin : (y - lo) * 80 ≤ i ∧ i < (y - lo) * 80 + 80
      · have hdone : i < (y + 1 - lo) * 80 := by omega
        rw [if_pos hin, if_pos hdone]
      · rw [if_neg hin]
        exact if_congr (by omega) rfl rfl)
  rw [ht, hP, Nat.add_sub_cancel_left]

theorem vgaScroll_eq : vgaScroll s = some (s.withCells (scrolled s)) := by
  have hloop : forUp? copyRowUp 1 (vgaHeight - 1) s = some (s.withCells fun i =>
      if i < 24 * 80 then s.vgaBuffer (i + 80) else s.vgaBuffer i) := by
    refine rowsLoop_eq (n := 24) (v := fun i => s.vgaBuffer (i + 80)) ?_
    rintro y hy t rfl
    rw [Nat.add_comm, copyRowUp_eq (by omega) (by omega), Nat.add_sub_cancel]
    refine congrArg some (congrArg _ (funext fun i => ?_))
    simp only [State.withCells]
    by_cases hrow : y * 80 ≤ i ∧ i < y * 80 + 80
    · have hbelow : ¬i + 80 < y * 80 := by omega
      rw [if_pos hrow, if_pos hrow, if_neg hbelow]
    · rw [if_neg hrow, if_neg hrow]
  rw [vgaScroll, hloop, Option.bind_some]
  refine (blankRow_eq (y := 24) (by decide)).trans (congrArg some (congrArg s.withCells
    (funext fun i => ?_)))
  simp only [State.withCells]
  by_cases hlast : 24 * 80 ≤ i ∧ i < 24 * 80 + 80
  · have hnot : ¬i < 1920 := by omega
    rw [if_pos hlast, scrolled, if_neg hnot, if_pos hlast.2]
    rfl
  · rw [if_neg hlast, scrolled]
    by_cases hup : i < 1920
    · rw [if_pos hup]
      exact (if_pos hup).symm
    · have hbeyond : ¬i < 2000 := by omega
      rw [if_neg hup, if_neg hbeyond]
      exact (if_neg hup).symm

theorem nextRow_full (h : s.terminalRow + 1 = 25) : nextRow s =
    some { s.withCells (scrolled s) with terminalRow := 24, terminalColumn := 0 } := by
  have hscroll := vgaScroll_eq
    (s := { s with terminalColumn := 0, terminalRow := s.terminalRow + 1 })
  have hfull : { s with terminalColumn := 0, terminalRow := s.terminalRow + 1 }.terminalRow =
      vgaHeight := h
  rw [nextRow, if_pos hfull, hscroll, Option.map_some]
  rfl

theorem nextRow_room (h : s.terminalRow + 1 ≠ 25) : nextRow s =
    some { s with terminalRow := s.terminalRow + 1, terminalColumn := 0 } := if_neg h

theorem byte_setWidth {n : Nat} {v : BitVec 16} (hv : v.toNat = n) :
    ((v &&& 0xFF).setWidth 8).toNat = n % 256 := by
  have hmask : (0xFF : BitVec 16).toNat = 2 ^ 8 - 1 := rfl
  rw [BitVec.toNat_setWidth, BitVec.toNat_and, hv, hmask, Nat.and_two_pow_sub_one_eq_mod,
    Nat.mod_mod]

/-- The two bytes sent to the CRT controller make up the position. -/
theorem updateCursor_location {row col : Nat} (h : row * 80 + col < 65536) :
    (updateCursor row col s).crtc.location = row * 80 + col := by
  have hlow : (updateCursor row col s).crtc.registers 0x0F =
      (BitVec.ofNat 16 (row * 80 + col) &&& 0xFF).setWidth 8 := rfl
  have hhigh : (updateCursor row col s).crtc.registers 0x0E =
      (BitVec.ofNat 16 (row * 80 + col) >>> 8 &&& 0xFF).setWidth 8 := rfl
  have hpos : (BitVec.ofNat 16 (row * 80 + col)).toNat = row * 80 + col := Nat.mod_eq_of_lt h
  have hshift : (BitVec.ofNat 16 (row * 80 + col) >>> 8).toNat = (row * 80 + col) / 256 := by
    rw [BitVec.toNat_ushiftRight, hpos, Nat.shiftRight_eq_div_pow]
  rw [Crtc.location, hlow, hhigh, byte_setWidth hpos, byte_setWidth hshift]
  omega

/-- The screen after a clear. -/
theorem clearLoop_eq : forUp? blankRow 0 vgaHeight s = some (s.withCells fun i =>
    if i < 2000 then blank s else s.vgaBuffer i) := by
  refine rowsLoop_eq (n := 25) (v := fun _ => blank s) ?_
  rintro y hy t rfl
  rw [Nat.zero_add]
  exact blankRow_eq hy

end Screen

/-- The cells show the last rows, padded with blanks. -/
def Cells (s : State) (rs : List (List (BitVec 8))) : Prop :=
  ∀ y < 25, ∀ x < 80, s.vgaBuffer (y * 80 + x) =
    vgaEntry (cellAt 0x20 (window 25 rs) y x) s.terminalColor

/-- The screen in VGA mode after the rows `done` and, in the row of the cursor, `cur`. -/
structure Shows (s : State) (done : List (List (BitVec 8))) (cur : List (BitVec 8)) : Prop where
  vga : s.useFramebuffer = false
  row : s.terminalRow = min 24 done.length
  column : s.terminalColumn = cur.length
  room : cur.length < 80
  cells : Cells s (done ++ [cur])

/-- The hardware cursor is where the next character goes. -/
def Settled (s : State) : Prop :=
  s.crtc.location = s.terminalRow * vgaWidth + s.terminalColumn

section Shows

variable {s : State} {done : List (List (BitVec 8))} {cur : List (BitVec 8)}

theorem Shows.settled (h : Shows s done cur) :
    Shows (updateCursor s.terminalRow s.terminalColumn s) done cur ∧
      Settled (updateCursor s.terminalRow s.terminalColumn s) := by
  have hrow := h.row
  have hcolumn := h.column
  have hroom := h.room
  exact ⟨⟨h.vga, h.row, h.column, h.room, h.cells⟩, updateCursor_location (by omega)⟩

/-- A character in the cell of the cursor. -/
theorem cells_write (h : Shows s done cur) (c : BitVec 8) :
    Cells (s.withCells (Function.update s.vgaBuffer (s.terminalRow * 80 + s.terminalColumn)
      (vgaEntry c s.terminalColor))) (done ++ [cur ++ [c]]) := by
  intro y hy x hx
  have hrow := h.row
  have hcolumn := h.column
  have hroom := h.room
  have hpos : (0 : Nat) < 25 := by decide
  simp only [State.withCells]
  rw [window_write hpos]
  by_cases hat : y = min (25 - 1) done.length ∧ x = cur.length
  · have hcell : y * 80 + x = s.terminalRow * 80 + s.terminalColumn := by omega
    rw [hcell, Function.update_self, if_pos hat]
  · have hcell : y * 80 + x ≠ s.terminalRow * 80 + s.terminalColumn := by omega
    rw [Function.update_of_ne hcell, if_neg hat, h.cells y hy x hx]

/-- The start of another row, with the screen moved up if it was full. -/
theorem nextRow_shows (hvga : s.useFramebuffer = false) (hrow : s.terminalRow = min 24 done.length)
    (hcells : Cells s (done ++ [cur])) : ∃ t, nextRow s = some t ∧
      Shows t (done ++ [cur]) [] ∧ t.terminalColor = s.terminalColor := by
  have hlen : (done ++ [cur]).length = done.length + 1 := by
    rw [List.length_append, List.length_singleton]
  by_cases hfull : s.terminalRow + 1 = 25
  · have hover : 25 ≤ (done ++ [cur]).length := by omega
    have hbottom : 24 = min 24 (done ++ [cur]).length := by omega
    refine ⟨_, nextRow_full hfull, ⟨hvga, hbottom, rfl, by decide, ?_⟩, rfl⟩
    intro y hy x hx
    rw [window_newRow_of_le hover]
    show scrolled s (y * 80 + x) = vgaEntry _ s.terminalColor
    rw [scrolled]
    by_cases hlast : y = 24
    · subst hlast
      have hup : ¬24 * 80 + x < 1920 := by omega
      have hin : 24 * 80 + x < 2000 := by omega
      rw [window_below hover, if_neg hup, if_pos hin]
      rfl
    · have hup : y * 80 + x < 1920 := by omega
      have hbelow : y * 80 + x + 80 = (y + 1) * 80 + x := by omega
      rw [if_pos hup, hbelow, hcells (y + 1) (by omega) x hx]
  · have hroom : (done ++ [cur]).length < 25 := by omega
    have hnext : s.terminalRow + 1 = min 24 (done ++ [cur]).length := by omega
    refine ⟨_, nextRow_room hfull, ⟨hvga, hnext, rfl, by decide, ?_⟩, rfl⟩
    intro y hy x hx
    rw [window_newRow_of_lt hroom]
    exact hcells y hy x hx

/-- The rows after a text whose first character is `c`. -/
def typed (c : BitVec 8) (done : List (List (BitVec 8))) (cur : List (BitVec 8)) :
    List (List (BitVec 8)) × List (BitVec 8) :=
  if c = 0x0A then (done ++ [cur], [])
  else if cur.length + 1 = vgaWidth then (done ++ [cur ++ [c]], [])
  else (done, cur ++ [c])

theorem rowsFrom_typed (c : BitVec 8) (str : List (BitVec 8)) :
    done ++ rowsFrom vgaWidth 0x0A cur (c :: str) =
      (typed c done cur).1 ++ rowsFrom vgaWidth 0x0A (typed c done cur).2 str :=
  rowsFrom_cons c str

/-- One character, before the hardware cursor follows. -/
def putCell (c : BitVec 8) (s : State) : Option State :=
  if c = 0x0A then nextRow s
  else
    (vgaWrite (s.terminalRow * vgaWidth + s.terminalColumn) (vgaEntry c s.terminalColor) s).bind
      fun s =>
        let s := { s with terminalColumn := s.terminalColumn + 1 }
        if s.terminalColumn = vgaWidth then nextRow s else some s

theorem vgaPutchar_eq {c : BitVec 8} (hc : c ≠ 0x08) : vgaPutchar c s =
    (putCell c s).map fun s => updateCursor s.terminalRow s.terminalColumn s := by
  rw [vgaPutchar, if_neg hc, putCell]

/-- A backspace blanks the cell it steps back to. -/
theorem vgaPutchar_back : vgaPutchar 0x08 s = (vgaWrite ((stepBack s).terminalRow * 80 +
    (stepBack s).terminalColumn) (blank (stepBack s)) (stepBack s)).map
      fun s => updateCursor s.terminalRow s.terminalColumn s := rfl

/-- A character written and the column moved on. -/
def written (c : BitVec 8) (s : State) : State :=
  { s.withCells (Function.update s.vgaBuffer (s.terminalRow * 80 + s.terminalColumn)
      (vgaEntry c s.terminalColor)) with terminalColumn := s.terminalColumn + 1 }

theorem putCell_eq {c : BitVec 8} (hlf : c ≠ 0x0A)
    (hcell : s.terminalRow * 80 + s.terminalColumn < 2000) : putCell c s =
      if s.terminalColumn + 1 = 80 then nextRow (written c s) else some (written c s) := by
  have hwrite : vgaWrite (s.terminalRow * vgaWidth + s.terminalColumn)
      (vgaEntry c s.terminalColor) s = _ := vgaWrite_some _ hcell
  rw [putCell, if_neg hlf, hwrite, Option.bind_some]
  rfl

theorem putCell_shows (c : BitVec 8) (h : Shows s done cur) : ∃ t, putCell c s = some t ∧
    Shows t (typed c done cur).1 (typed c done cur).2 ∧ t.terminalColor = s.terminalColor := by
  have hrow := h.row
  have hcolumn := h.column
  have hroom := h.room
  rw [typed]
  by_cases hlf : c = 0x0A
  · rw [putCell, if_pos hlf, if_pos hlf]
    exact nextRow_shows h.vga h.row h.cells
  · have hcells : Cells (written c s) (done ++ [cur ++ [c]]) := cells_write h c
    rw [putCell_eq hlf (by omega), if_neg hlf, hcolumn]
    by_cases hend : cur.length + 1 = 80
    · rw [if_pos hend, if_pos (show cur.length + 1 = vgaWidth from hend)]
      exact nextRow_shows (s := written c s) h.vga h.row hcells
    · have hlen : s.terminalColumn + 1 = (cur ++ [c]).length := by
        rw [List.length_append, List.length_singleton, hcolumn]
      have hshort : (cur ++ [c]).length < 80 := by omega
      rw [if_neg hend, if_neg (show ¬cur.length + 1 = vgaWidth from hend)]
      exact ⟨_, rfl, ⟨h.vga, h.row, hlen, hshort, hcells⟩, rfl⟩

theorem vgaPutchar_shows {c : BitVec 8} (hc : c ≠ 0x08) (h : Shows s done cur) :
    ∃ t, vgaPutchar c s = some t ∧ Shows t (typed c done cur).1 (typed c done cur).2 ∧
      Settled t ∧ t.terminalColor = s.terminalColor := by
  obtain ⟨t, ht, hshows, hcolor⟩ := putCell_shows c h
  exact ⟨_, by rw [vgaPutchar_eq hc, ht, Option.map_some], hshows.settled.1, hshows.settled.2,
    hcolor⟩

theorem terminalPutchar_shows {c : BitVec 8} (hc : c ≠ 0x08) (h : Shows s done cur) :
    ∃ t, terminalPutchar c s = some t ∧ Shows t (typed c done cur).1 (typed c done cur).2 ∧
      Settled t ∧ t.terminalColor = s.terminalColor := by
  have hsent : (sendSerial c s).useFramebuffer = false ∧
      (sendSerial c s).terminalColor = s.terminalColor ∧ Shows (sendSerial c s) done cur := by
    rw [sendSerial]
    split_ifs
    · exact ⟨h.vga, rfl, h.vga, h.row, h.column, h.room, h.cells⟩
    · exact ⟨h.vga, rfl, h⟩
  obtain ⟨hvga, hcolor, hshows⟩ := hsent
  obtain ⟨t, ht, hshows', hsettled, hcolor'⟩ := vgaPutchar_shows hc hshows
  refine ⟨t, ?_, hshows', hsettled, hcolor'.trans hcolor⟩
  have hmode : ¬(sendSerial c s).useFramebuffer = true := Bool.not_eq_true _ ▸ hvga
  rw [terminalPutchar, if_neg hmode, ht]

/-- Neither a NUL nor a backspace. -/
def PlainText (str : List (BitVec 8)) : Prop := ∀ c ∈ str, c ≠ 0 ∧ c ≠ 0x08

instance (str : List (BitVec 8)) : Decidable (PlainText str) :=
  inferInstanceAs (Decidable (∀ c ∈ str, c ≠ 0 ∧ c ≠ 0x08))

/-- Text written from any row on. -/
theorem terminalWrite_shows {str : List (BitVec 8)} (hstr : PlainText str)
    (h : Shows s done cur) (hsettled : Settled s) : ∃ t done' cur', terminalWrite str s = some t ∧
      Shows t done' cur' ∧ Settled t ∧ t.terminalColor = s.terminalColor ∧
      done' ++ [cur'] = done ++ rowsFrom vgaWidth 0x0A cur str := by
  induction str generalizing s done cur with
  | nil => exact ⟨s, done, cur, rfl, h, hsettled, rfl, rfl⟩
  | cons c str ih =>
    obtain ⟨hnul, hback⟩ := hstr c List.mem_cons_self
    obtain ⟨t, ht, hshows, hsettled', hcolor⟩ := terminalPutchar_shows hback h
    obtain ⟨u, done', cur', hu, hshows', hsettled'', hcolor', hrows⟩ :=
      ih (fun d hd => hstr d (List.mem_cons_of_mem c hd)) hshows hsettled'
    refine ⟨u, done', cur', ?_, hshows', hsettled'', hcolor'.trans hcolor, ?_⟩
    · rw [terminalWrite, if_neg hnul, ht, Option.bind_some, hu]
    · rw [hrows, rowsFrom_typed]

/-- The screen and the cursors after a clear. -/
def cleared (s : State) : State :=
  updateCursor 0 0 { s.withCells (fun i => if i < 2000 then blank s else s.vgaBuffer i) with
    terminalRow := 0
    terminalColumn := 0 }

theorem terminalClear_eq (h : s.useFramebuffer = false) : terminalClear s = some (cleared s) := by
  have hvga : ¬s.useFramebuffer = true := Bool.not_eq_true _ ▸ h
  rw [terminalClear, if_neg hvga, clearLoop_eq, Option.map_some]
  rfl

theorem terminalClear_shows (h : s.useFramebuffer = false) : ∃ t, terminalClear s = some t ∧
    Shows t [] [] ∧ Settled t ∧ t.terminalColor = s.terminalColor := by
  have hfits : 0 * 80 + 0 < 65536 := by decide
  have hhome : Settled (cleared s) := updateCursor_location hfits
  refine ⟨cleared s, terminalClear_eq h, ⟨h, rfl, rfl, by decide, ?_⟩, hhome, rfl⟩
  intro y hy x hx
  have hcell : y * 80 + x < 2000 := by omega
  have hempty : cellAt (0x20 : BitVec 8) (window 25 ([] ++ [[]])) y x = 0x20 := by
    rw [window_newRow_of_lt (by decide)]
    rfl
  rw [hempty]
  exact if_pos hcell

end Shows

/-- What the screen should show of the rows of a text, and where the cursors should be. -/
structure Displays (s : State) (color : BitVec 8) (rs : List (List (BitVec 8))) : Prop where
  cells : ∀ y < vgaHeight, ∀ x < vgaWidth, s.vgaBuffer (y * vgaWidth + x) =
    vgaEntry (cellAt 0x20 (window vgaHeight rs) y x) color
  row : s.terminalRow + 1 = (window vgaHeight rs).length
  column : s.terminalColumn = (rs.getLast?.getD []).length
  cursor : s.crtc.location = s.terminalRow * vgaWidth + s.terminalColumn

/-- A text written after a clear: the screen shows its last 25 rows. -/
theorem write_displays {s : State} {str : List (BitVec 8)} (h : s.useFramebuffer = false)
    (hstr : PlainText str) : ∃ t, (terminalClear s).bind (terminalWrite str) = some t ∧
      Displays t s.terminalColor (rows vgaWidth 0x0A str) := by
  obtain ⟨t, ht, hshows, hsettled, hcolor⟩ := terminalClear_shows h
  obtain ⟨u, done, cur, hu, hshows', hsettled', hcolor', hrows⟩ :=
    terminalWrite_shows hstr hshows hsettled
  have hlayout : rows vgaWidth 0x0A str = done ++ [cur] := hrows.symm
  have hrow := hshows'.row
  rw [ht, Option.bind_some, hlayout]
  refine ⟨u, hu, ?_, ?_, ?_, hsettled'⟩
  · rw [← hcolor, ← hcolor']
    exact hshows'.cells
  · rw [window_length, List.length_append, List.length_singleton, hrow]
    simp only [vgaHeight]
    omega
  · rw [List.getLast?_concat, Option.getD_some]
    exact hshows'.column

/-- A line of two letters on the screen the kernel starts with. -/
theorem write_displays_hi : ∃ t,
    (terminalClear (State.boot (fun _ => 0) (fun _ => 0) ⟨0, fun _ => 0⟩)).bind
      (terminalWrite [0x68, 0x69, 0x0A]) = some t ∧
    Displays t 0x0F (rows vgaWidth 0x0A [0x68, 0x69, 0x0A]) :=
  write_displays (s := State.boot (fun _ => 0) (fun _ => 0) ⟨0, fun _ => 0⟩) rfl (by decide)

end Terminal
