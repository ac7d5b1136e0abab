import Nyrix.Base.PartialRuns
import Nyrix.TerminalRows

/-!
# Which cells the VGA terminal writes

Clearing and writing characters keep the row and the column on the screen. Redrawing the input
line sets the column from the length of the input, and so leaves the screen when the prompt
and the input together fill a row.
-/

namespace Terminal

open BoundedLoop CharBuffer PartialRuns

inductive TextCall where
  | clear
  | putchar (c : BitVec 8)
  | write (str : List (BitVec 8))
  | redraw (inputBuffer : Buffer) (inputPos : Fin 256)

def textCall : TextCall → State → Option State
  | .clear => terminalClear
  | .putchar c => terminalPutchar c
  | .write str => terminalWrite str
  | .redraw inputBuffer inputPos => redrawInput inputBuffer inputPos

/-- The next character goes to a cell of the screen. -/
def InCells (s : State) : Prop := s.terminalRow < vgaHeight ∧ s.terminalColumn < vgaWidth

instance (s : State) : Decidable (InCells s) := inferInstanceAs (Decidable (_ ∧ _))

/-- The screen is the array of cells, and the next character goes to one of them. -/
structure Writes (s : State) : Prop where
  vga : s.useFramebuffer = false
  inCells : InCells s

/-- The prompt and the input leave a cell of the row for the cursor. -/
def TextCall.Short : TextCall → Prop
  | .redraw _ inputPos => 7 + (inputPos : Nat) < vgaWidth
  | _ => True

section Writes

variable {s t : State}

theorem Writes.settled (h : Writes s) (row col : Nat) : Writes (updateCursor row col s) :=
  ⟨h.vga, h.inCells⟩

theorem Writes.withCells (h : Writes s) (f : Nat → BitVec 16) : Writes (s.withCells f) :=
  ⟨h.vga, h.inCells⟩

theorem Writes.cell (h : Writes s) : s.terminalRow * 80 + s.terminalColumn < 2000 := by
  have hrow : s.terminalRow < 25 := h.inCells.1
  have hcol : s.terminalColumn < 80 := h.inCells.2
  omega

theorem nextRow_writes (hvga : s.useFramebuffer = false) (hrow : s.terminalRow < 25) :
    ∃ t, nextRow s = some t ∧ Writes t := by
  have hleft : 0 < vgaWidth := by decide
  by_cases hfull : s.terminalRow + 1 = 25
  · have hbottom : 24 < vgaHeight := by decide
    exact ⟨_, nextRow_full hfull, hvga, hbottom, hleft⟩
  · have hlt : s.terminalRow + 1 < vgaHeight := Nat.lt_of_le_of_ne hrow hfull
    exact ⟨_, nextRow_room hfull, hvga, hlt, hleft⟩

theorem stepBack_writes (h : Writes s) : Writes (stepBack s) := by
  have hrow : s.terminalRow < 25 := h.inCells.1
  have hcol : s.terminalColumn < 80 := h.inCells.2
  rw [stepBack]
  split_ifs with hleft hup
  · have hlt : s.terminalColumn - 1 < vgaWidth := Nat.lt_of_le_of_lt (Nat.sub_le _ _) hcol
    exact ⟨h.vga, hrow, hlt⟩
  · have hlt : s.terminalRow - 1 < vgaHeight := Nat.lt_of_le_of_lt (Nat.sub_le _ _) hrow
    have hlast : vgaWidth - 1 < vgaWidth := by decide
    exact ⟨h.vga, hlt, hlast⟩
  · exact h

theorem putCell_writes (c : BitVec 8) (h : Writes s) : ∃ t, putCell c s = some t ∧ Writes t := by
  by_cases hlf : c = 0x0A
  · rw [putCell, if_pos hlf]
    exact nextRow_writes h.vga h.inCells.1
  · rw [putCell_eq hlf h.cell]
    by_cases hend : s.terminalColumn + 1 = 80
    · rw [if_pos hend]
      exact nextRow_writes (s := written c s) h.vga h.inCells.1
    · have hlt : s.terminalColumn + 1 < vgaWidth := Nat.lt_of_le_of_ne h.inCells.2 hend
      rw [if_neg hend]
      exact ⟨written c s, rfl, h.vga, h.inCells.1, hlt⟩

theorem vgaPutchar_writes (c : BitVec 8) (h : Writes s) :
    ∃ t, vgaPutchar c s = some t ∧ Writes t := by
  by_cases hback : c = 0x08
  · subst hback
    have hstep := stepBack_writes h
    rw [vgaPutchar_back, vgaWrite_some _ hstep.cell, Option.map_some]
    exact ⟨_, rfl, (hstep.withCells _).settled _ _⟩
  · obtain ⟨t, ht, hwrites⟩ := putCell_writes c h
    exact ⟨_, by rw [vgaPutchar_eq hback, ht, Option.map_some], hwrites.settled _ _⟩

/-- Only the graphics layer, and with it the serial port, may have changed. -/
def SameScreen (s t : State) : Prop := ∃ g, t = { s with gfx := g }

theorem sendSerial_sameScreen (c : BitVec 8) (s : State) : SameScreen s (sendSerial c s) := by
  rw [sendSerial]
  split_ifs
  · exact ⟨_, rfl⟩
  · exact ⟨s.gfx, rfl⟩

theorem Writes.sameScreen (h : Writes s) (hsame : SameScreen s t) : Writes t := by
  obtain ⟨g, rfl⟩ := hsame
  exact ⟨h.vga, h.inCells⟩

theorem terminalPutchar_vga (h : Writes s) (c : BitVec 8) :
    terminalPutchar c s = vgaPutchar c (sendSerial c s) := by
  have hmode := (h.sameScreen (sendSerial_sameScreen c s)).vga
  simp [terminalPutchar, hmode]

theorem terminalPutchar_writes (c : BitVec 8) (h : Writes s) :
    ∃ t, terminalPutchar c s = some t ∧ Writes t := by
  rw [terminalPutchar_vga h]
  exact vgaPutchar_writes c (h.sameScreen (sendSerial_sameScreen c s))

theorem terminalWrite_writes (str : List (BitVec 8)) (h : Writes s) :
    ∃ t, terminalWrite str s = some t ∧ Writes t := by
  induction str generalizing s with
  | nil => exact ⟨s, rfl, h⟩
  | cons c str ih =>
    rw [terminalWrite]
    split_ifs
    · exact ⟨s, rfl, h⟩
    · obtain ⟨t, ht, hwrites⟩ := terminalPutchar_writes c h
      rw [ht, Option.bind_some]
      exact ih hwrites

theorem terminalClear_writes (h : Writes s) : ∃ t, terminalClear s = some t ∧ Writes t := by
  have htop : 0 < vgaHeight := by decide
  have hleft : 0 < vgaWidth := by decide
  exact ⟨cleared s, terminalClear_eq h.vga, h.vga, htop, hleft⟩

/-- A loop that writes a cell of the screen in each round. -/
theorem fillLoop_some {cell : Nat → State → Option State} (base n : Nat)
    (v : Nat → BitVec 16) (hin : base + n ≤ 2000)
    (hcell : ∀ i f, cell i (s.withCells f) = vgaWrite (base + i) (v i) (s.withCells f))
    (f : Nat → BitVec 16) :
    ∃ g, forUp? cell 0 n (s.withCells f) = some (s.withCells g) := by
  obtain ⟨t, ht, g, rfl⟩ := forUp?_induct cell (fun _ t => ∃ g, t = s.withCells g) 0 n
    (s.withCells f) ⟨f, rfl⟩
    (by
      rintro i t _ hi ⟨g, rfl⟩
      exact ⟨_, (hcell i g).trans (vgaWrite_some _ (by omega)), _, rfl⟩)
  exact ⟨g, ht⟩

theorem redrawInput_writes {inputBuffer : Buffer} {inputPos : Nat} (h : Writes s)
    (hshort : 7 + inputPos < vgaWidth) :
    ∃ t, redrawInput inputBuffer inputPos s = some t ∧ Writes t := by
  have hrow : s.terminalRow < 25 := h.inCells.1
  have hfits : 7 + inputPos < 80 := hshort
  have hmode : ¬s.useFramebuffer = true := Bool.not_eq_true _ ▸ h.vga
  let row (i : Nat) : BitVec 16 :=
    if s.terminalRow * 80 ≤ i ∧ i < s.terminalRow * 80 + 80 then blank s else s.vgaBuffer i
  obtain ⟨f, hf⟩ : ∃ f, forUp? (fun i s => vgaWrite (s.terminalRow * vgaWidth + i)
      (vgaEntry (prompt.getD i 0) s.terminalColor) s) 0 7 (s.withCells row) =
        some (s.withCells f) := by
    refine fillLoop_some (s.terminalRow * 80) 7
      (fun i => vgaEntry (prompt.getD i 0) s.terminalColor) (by omega) ?_ row
    exact fun _ _ => rfl
  obtain ⟨g, hg⟩ : ∃ g, forUp? (fun i s => vgaWrite (s.terminalRow * vgaWidth + 7 + i)
      (vgaEntry (inputBuffer i) s.terminalColor) s) 0 inputPos (s.withCells f) =
        some (s.withCells g) := by
    refine fillLoop_some (s.terminalRow * 80 + 7) inputPos
      (fun i => vgaEntry (inputBuffer i) s.terminalColor) (by omega) ?_ f
    exact fun _ _ => rfl
  refine ⟨updateCursor s.terminalRow (7 + inputPos)
    { s.withCells g with terminalColumn := 7 + inputPos }, ?_, h.vga, hrow, hshort⟩
  rw [redrawInput, if_neg hmode, blankRow_eq hrow, Option.bind_some, hf, Option.bind_some, hg]
  rfl

/-- A long input leaves the column behind the end of the row, if its cells are on screen. -/
theorem redrawInput_column {inputBuffer : Buffer} {inputPos : Nat} (hvga : s.useFramebuffer = false)
    (ht : redrawInput inputBuffer inputPos s = some t) : t.terminalColumn = 7 + inputPos := by
  have hmode : ¬s.useFramebuffer = true := Bool.not_eq_true _ ▸ hvga
  rw [redrawInput, if_neg hmode, Option.bind_eq_some_iff] at ht
  obtain ⟨u, _, ht⟩ := ht
  obtain ⟨v, _, ht⟩ := Option.bind_eq_some_iff.mp ht
  obtain ⟨w, _, rfl⟩ := Option.map_eq_some_iff.mp ht
  rfl

theorem textCall_short {c : TextCall} (h : Writes s) (hshort : c.Short) :
    ∃ t, textCall c s = some t ∧ Writes t := by
  cases c with
  | clear => exact terminalClear_writes h
  | putchar c => exact terminalPutchar_writes c h
  | write str => exact terminalWrite_writes str h
  | redraw inputBuffer inputPos => exact redrawInput_writes h hshort

theorem textCall_long {c : TextCall} (h : Writes s) (hlong : ¬c.Short)
    (ht : textCall c s = some t) : ¬InCells t := by
  cases c with
  | redraw inputBuffer inputPos =>
    rintro ⟨_, hcol⟩
    rw [redrawInput_column h.vga ht] at hcol
    exact hlong hcol
  | _ => exact absurd trivial hlong

/-- The row and the column stay on the screen, and every cell written lies on it, exactly while
each redrawn input leaves a cell of the row. -/
theorem keepsCells_iff {calls : List TextCall} (hvga : s.useFramebuffer = false)
    (hcells : InCells s) : Keeps textCall InCells calls s ↔ ∀ c ∈ calls, c.Short :=
  keeps_iff (I := Writes) (fun _ h => h.inCells) (fun _ _ h hshort => textCall_short h hshort)
    (fun _ _ _ h hlong ht => textCall_long h hlong ht) ⟨hvga, hcells⟩

end Writes

/-- The terminal at boot, over zeros. -/
def zeroed : State := State.boot (fun _ => 0) (fun _ => 0) ⟨0, fun _ => 0⟩

theorem keepsCells_iff_boot : Keeps textCall InCells [.clear, .write prompt] zeroed ↔
    ∀ c ∈ [TextCall.clear, .write prompt], c.Short :=
  keepsCells_iff rfl (by decide)

/-- An input of 73 characters fills the row. -/
theorem longInput_leaves : ¬∀ calls : List TextCall, Keeps textCall InCells calls zeroed := by
  intro h
  obtain ⟨t, ht, hcells⟩ := h [.redraw (fun _ => 0x61) 73] _ (List.prefix_refl _)
  rw [runAll, Option.bind_eq_some_iff] at ht
  obtain ⟨u, hu, hrest⟩ := ht
  obtain rfl := Option.some.inj hrest
  have hredraw : redrawInput (fun _ => 0x61) ((73 : Fin 256) : Nat) zeroed = some u := hu
  have hcol := redrawInput_column rfl hredraw
  have hlt := hcells.2
  rw [hcol] at hlt
  exact absurd hlt (by decide)

end Terminal
