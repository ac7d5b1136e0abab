import Nyrix.TerminalBounds

/-!
# The input line in VGA mode

Redrawing the input fills the row of the cursor: the prompt, the input and blanks. The other
cells stay, and redrawing it once more changes nothing.
-/

namespace Terminal

open BoundedLoop CharBuffer

/-- The characters of a row that shows the prompt and a text. -/
def rowChar (text : List (BitVec 8)) (x : Nat) : BitVec 8 := (prompt ++ text).getD x 0x20

/-- The cells of the row the cursor is on. -/
def InRow (s : State) (i : Nat) : Prop :=
  s.terminalRow * vgaWidth ≤ i ∧ i < s.terminalRow * vgaWidth + vgaWidth

instance (s : State) (i : Nat) : Decidable (InRow s i) := inferInstanceAs (Decidable (_ ∧ _))

/-- The screen after the prompt and the text were drawn. -/
def lineCells (text : List (BitVec 8)) (s : State) : Nat → BitVec 16 := fun i =>
  if InRow s i then vgaEntry (rowChar text (i - s.terminalRow * vgaWidth)) s.terminalColor
  else s.vgaBuffer i

def redrawn (text : List (BitVec 8)) (s : State) : State :=
  updateCursor s.terminalRow (7 + text.length)
    { s.withCells (lineCells text s) with terminalColumn := 7 + text.length }

section RowChar

variable {text : List (BitVec 8)} {x : Nat}

theorem rowChar_prompt (h : x < 7) : rowChar text x = prompt.getD x 0 := by
  have hlt : x < prompt.length := h
  simp [rowChar, List.getD_eq_getElem?_getD, List.getElem?_append_left hlt, hlt]

theorem rowChar_text (h : 7 ≤ x) : rowChar text x = text.getD (x - 7) 0x20 := by
  have hle : prompt.length ≤ x := h
  simp only [rowChar, List.getD_eq_getElem?_getD, List.getElem?_append_right hle]
  rfl

theorem rowChar_input {b : Buffer} {n : Nat} (h : 7 ≤ x) (hx : x < 7 + n) :
    rowChar ((List.range n).map b) x = b (x - 7) := by
  have hlt : x - 7 < n := by omega
  simp [rowChar_text h, List.getD_eq_getElem?_getD, hlt]

theorem rowChar_blank (h : 7 + text.length ≤ x) : rowChar text x = 0x20 := by
  have hle : text.length ≤ x - 7 := by omega
  simp [rowChar_text (x := x) (by omega), List.getD_eq_getElem?_getD, hle]

/-- Without its last character the text shows a blank in its place. -/
theorem rowChar_dropLast (hne : x + 1 ≠ 7 + text.length) :
    rowChar text.dropLast x = rowChar text x := by
  have hlen : text.dropLast.length = text.length - 1 := List.length_dropLast
  by_cases hprompt : x < 7
  · rw [rowChar_prompt hprompt, rowChar_prompt hprompt]
  · by_cases htext : x < 7 + text.length
    · have hx : x - 7 < text.length - 1 := by omega
      have hx' : x - 7 < text.length := by omega
      simp [rowChar_text (x := x) (by omega), List.getD_eq_getElem?_getD, hx, hx']
    · rw [rowChar_blank (by omega), rowChar_blank (by omega)]

end RowChar

section Redraw

variable {s : State}

/-- What the three loops write, one over the other: blanks, the prompt and the input. -/
theorem lineCells_input {b : Buffer} {n : Nat} (hshort : 7 + n < 80) (i : Nat) :
    lineCells ((List.range n).map b) s i =
      if s.terminalRow * 80 + 7 ≤ i ∧ i < s.terminalRow * 80 + 7 + n then
        vgaEntry (b (i - (s.terminalRow * 80 + 7))) s.terminalColor
      else if s.terminalRow * 80 ≤ i ∧ i < s.terminalRow * 80 + 7 then
        vgaEntry (prompt.getD (i - s.terminalRow * 80) 0) s.terminalColor
      else if s.terminalRow * 80 ≤ i ∧ i < s.terminalRow * 80 + 80 then blank s
      else s.vgaBuffer i := by
  rw [lineCells]
  by_cases hin : InRow s i
  · have hrow : s.terminalRow * 80 ≤ i ∧ i < s.terminalRow * 80 + 80 := hin
    have hoff : i - s.terminalRow * vgaWidth = i - s.terminalRow * 80 := rfl
    rw [if_pos hin, hoff, if_pos hrow]
    by_cases hask : i < s.terminalRow * 80 + 7
    · rw [if_neg (by omega), if_pos ⟨hrow.1, hask⟩, rowChar_prompt (by omega)]
    · rw [if_neg (c := s.terminalRow * 80 ≤ i ∧ i < s.terminalRow * 80 + 7) fun h => hask h.2]
      by_cases htext : i < s.terminalRow * 80 + 7 + n
      · have hsub : i - (s.terminalRow * 80 + 7) = i - s.terminalRow * 80 - 7 := by omega
        rw [if_pos ⟨Nat.not_lt.mp hask, htext⟩, rowChar_input (by omega) (by omega), hsub]
      · have hlen : 7 + ((List.range n).map b).length ≤ i - s.terminalRow * 80 := by
          rw [List.length_map, List.length_range]
          omega
        rw [if_neg fun h => htext h.2, rowChar_blank hlen, blank]
  · have hrow : ¬(s.terminalRow * 80 ≤ i ∧ i < s.terminalRow * 80 + 80) := hin
    rw [if_neg hin, if_neg (by omega), if_neg (by omega), if_neg hrow]

theorem redrawInput_vga {b : Buffer} {n : Nat} (h : Writes s) (hshort : 7 + n < 80) :
    redrawInput b n s = some (redrawn ((List.range n).map b) s) := by
  have hrow : s.terminalRow < 25 := h.inCells.1
  have hmode : ¬s.useFramebuffer = true := Bool.not_eq_true _ ▸ h.vga
  let base := s.terminalRow * 80
  let row : State := s.withCells fun i =>
    if base ≤ i ∧ i < base + 80 then blank s else s.vgaBuffer i
  let asked : State := row.withCells fun i =>
    if base ≤ i ∧ i < base + 7 then vgaEntry (prompt.getD (i - base) 0) s.terminalColor
    else row.vgaBuffer i
  have hprompt : forUp? (fun i s => vgaWrite (s.terminalRow * vgaWidth + i)
      (vgaEntry (prompt.getD i 0) s.terminalColor) s) 0 7 row = some asked := by
    refine cellsLoop_eq (v := fun i => vgaEntry (prompt.getD (i - base) 0) s.terminalColor)
      (by omega) ?_
    rintro k _ t rfl
    rw [Nat.add_sub_cancel_left]
    rfl
  have hinput : forUp? (fun i s => vgaWrite (s.terminalRow * vgaWidth + 7 + i)
      (vgaEntry (b i) s.terminalColor) s) 0 n asked = some (asked.withCells fun i =>
        if base + 7 ≤ i ∧ i < base + 7 + n then vgaEntry (b (i - (base + 7))) s.terminalColor
        else asked.vgaBuffer i) := by
    refine cellsLoop_eq (v := fun i => vgaEntry (b (i - (base + 7))) s.terminalColor)
      (by omega) ?_
    rintro k _ t rfl
    rw [Nat.add_sub_cancel_left]
    rfl
  have hcells : (fun i => if base + 7 ≤ i ∧ i < base + 7 + n then
      vgaEntry (b (i - (base + 7))) s.terminalColor else asked.vgaBuffer i) =
        lineCells ((List.range n).map b) s := (funext (lineCells_input hshort)).symm
  have hlen : ((List.range n).map b).length = n := by rw [List.length_map, List.length_range]
  rw [redrawInput, if_neg hmode, blankRow_eq hrow, Option.bind_some, hprompt, Option.bind_some,
    hinput, hcells, redrawn, hlen]
  rfl

theorem Writes.redrawn {text : List (BitVec 8)} (h : Writes s) (hshort : 7 + text.length < 80) :
    Writes (redrawn text s) :=
  ⟨h.vga, h.inCells.1, hshort⟩

/-- The cells of the other rows stay. -/
theorem redrawn_others {text : List (BitVec 8)} {i : Nat} (h : ¬InRow s i) :
    (redrawn text s).vgaBuffer i = s.vgaBuffer i := if_neg h

theorem redrawn_cell {text : List (BitVec 8)} {x : Nat} (hx : x < 80) :
    (redrawn text s).vgaBuffer (s.terminalRow * vgaWidth + x) =
      vgaEntry (rowChar text x) s.terminalColor := by
  have hin : InRow s (s.terminalRow * vgaWidth + x) :=
    ⟨Nat.le_add_right _ _, Nat.add_lt_add_left hx _⟩
  have hcell : (redrawn text s).vgaBuffer (s.terminalRow * vgaWidth + x) = _ := if_pos hin
  rw [hcell, Nat.add_sub_cancel_left]

/-- The same port writes leave the same registers. -/
theorem updateCursor_twice (row col : Nat) (s : State) :
    updateCursor row col (updateCursor row col s) = updateCursor row col s := by
  have hcrtc : ∀ t : State, (updateCursor row col t).crtc = ⟨0x0E,
      Function.update (Function.update t.crtc.registers 0x0F
        ((BitVec.ofNat 16 (row * 80 + col) &&& 0xFF).setWidth 8)) 0x0E
        ((BitVec.ofNat 16 (row * 80 + col) >>> 8 &&& 0xFF).setWidth 8)⟩ := fun _ => rfl
  have hne : (0x0F : BitVec 8) ≠ 0x0E := by decide
  have hsame : (updateCursor row col (updateCursor row col s)).crtc =
      (updateCursor row col s).crtc := by
    rw [hcrtc, hcrtc, Function.update_comm hne, Function.update_idem,
      Function.update_comm hne.symm, Function.update_idem]
  exact congrArg (fun d => { s with crtc := d }) hsame

theorem redrawn_twice (text : List (BitVec 8)) (s : State) :
    redrawn text (redrawn text s) = redrawn text s := by
  have hcells : lineCells text (redrawn text s) = lineCells text s := by
    funext i
    by_cases hin : InRow s i
    · exact (if_pos hin).trans (if_pos hin).symm
    · exact (if_neg hin).trans rfl
  have htwice := updateCursor_twice s.terminalRow (7 + text.length)
    { s.withCells (lineCells text s) with terminalColumn := 7 + text.length }
  rw [redrawn, hcells]
  exact htwice

end Redraw

end Terminal
