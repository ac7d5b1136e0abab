import Nyrix.TerminalBounds

/-!
# Backspaces after a text

Printing goes forward over the ends of the rows and may scroll; backspaces go back the same
way and blank the cells, and nothing scrolls back.
-/

namespace Terminal

/-- The cell the next character goes to. -/
def position (s : State) : Nat := s.terminalRow * vgaWidth + s.terminalColumn

/-- The screen after `vga_scroll` was called `k` times. -/
def lifted : Nat → State → State
  | 0, s => s
  | k + 1, s => (lifted k s).withCells (scrolled (lifted k s))

/-- Not the end of a string, and neither of the two control characters. -/
def FillsCell (c : BitVec 8) : Prop := c ≠ 0 ∧ c ≠ 0x08 ∧ c ≠ 0x0A

instance (c : BitVec 8) : Decidable (FillsCell c) := inferInstanceAs (Decidable (_ ∧ _))

/-- How often `terminal_putchar(c)` scrolls. -/
def scrollsOn (c : BitVec 8) (s : State) : Nat :=
  if s.terminalRow + 1 = vgaHeight ∧ (c = 0x0A ∨ c ≠ 0x08 ∧ s.terminalColumn + 1 = vgaWidth)
  then 1 else 0

/-- How often `terminal_write(str)` scrolls. -/
def scrolls : List (BitVec 8) → State → Nat
  | [], _ => 0
  | c :: str, s =>
    if c = 0 then 0 else scrollsOn c s + ((terminalPutchar c s).map (scrolls str)).getD 0

section Lifted

variable {s : State} {k : Nat}

@[simp] theorem lifted_color : (lifted k s).terminalColor = s.terminalColor := by
  induction k with
  | zero => rfl
  | succ k ih => exact ih

theorem blank_lifted : blank (lifted k s) = blank s := by simp [blank]

theorem vgaScroll_lifted : vgaScroll (lifted k s) = some (lifted (k + 1) s) := vgaScroll_eq

theorem lifted_up {i : Nat} (h : i < 1920) :
    (lifted (k + 1) s).vgaBuffer i = (lifted k s).vgaBuffer (i + 80) := if_pos h

theorem lifted_bottom {i : Nat} (h : 1920 ≤ i) (hi : i < 2000) :
    (lifted (k + 1) s).vgaBuffer i = blank s := by
  rw [← blank_lifted (k := k)]
  exact (if_neg (Nat.not_lt.mpr h)).trans (if_pos hi)

theorem lifted_beyond {i : Nat} (h : 2000 ≤ i) :
    (lifted (k + 1) s).vgaBuffer i = (lifted k s).vgaBuffer i := by
  have hup : ¬i < 1920 := by omega
  exact (if_neg hup).trans (if_neg (Nat.not_lt.mpr h))

end Lifted

/-- After `m` characters written from `s` on, `k` rows scrolled: the cells of the other
positions are those of the lifted screen. -/
structure Printed (s : State) (k m : Nat) (u : State) : Prop where
  writes : Writes u
  color : u.terminalColor = s.terminalColor
  place : position u + 80 * k = position s + m
  bottom : k = 0 ∨ u.terminalRow = 24
  others : ∀ i, i + 80 * k < position s ∨ position s + m ≤ i + 80 * k →
    u.vgaBuffer i = (lifted k s).vgaBuffer i

/-- After the last of `n` characters were taken back down to `m`. -/
structure Erased (s : State) (k n m : Nat) (u : State) : Prop where
  writes : Writes u
  color : u.terminalColor = s.terminalColor
  place : position u + 80 * k = position s + m
  blanks : ∀ i, position s + m ≤ i + 80 * k → i + 80 * k < position s + n →
    u.vgaBuffer i = blank s
  others : ∀ i, i + 80 * k < position s ∨ position s + n ≤ i + 80 * k →
    u.vgaBuffer i = (lifted k s).vgaBuffer i

section Steps

variable {s u v : State} {k m n : Nat} {c : BitVec 8}

theorem Printed.sameScreen (h : Printed s k m u) (hsame : SameScreen u v) : Printed s k m v := by
  have hwrites := h.writes.sameScreen hsame
  obtain ⟨g, rfl⟩ := hsame
  exact ⟨hwrites, h.color, h.place, h.bottom, h.others⟩

theorem Erased.sameScreen (h : Erased s k n m u) (hsame : SameScreen u v) :
    Erased s k n m v := by
  have hwrites := h.writes.sameScreen hsame
  obtain ⟨g, rfl⟩ := hsame
  exact ⟨hwrites, h.color, h.place, h.blanks, h.others⟩

theorem scrollsOn_sameScreen (hsame : SameScreen u v) : scrollsOn c v = scrollsOn c u := by
  obtain ⟨g, rfl⟩ := hsame
  rfl

theorem Writes.settles (h : Writes u) :
    Settled (updateCursor u.terminalRow u.terminalColumn u) := by
  have hcell := h.cell
  exact updateCursor_location (by omega)

theorem Printed.settled (h : Printed s k m u) (row col : Nat) :
    Printed s k m (updateCursor row col u) :=
  ⟨h.writes.settled row col, h.color, h.place, h.bottom, h.others⟩

theorem Erased.settled (h : Erased s k n m u) (row col : Nat) :
    Erased s k n m (updateCursor row col u) :=
  ⟨h.writes.settled row col, h.color, h.place, h.blanks, h.others⟩

/-- The character itself, before the row may end. -/
theorem written_others (h : Printed s k m u) (i : Nat)
    (hi : i + 80 * k < position s ∨ position s + (m + 1) ≤ i + 80 * k) :
    (written c u).vgaBuffer i = (lifted k s).vgaBuffer i := by
  have hplace := h.place
  have hne : i ≠ u.terminalRow * 80 + u.terminalColumn := by
    simp only [position, vgaWidth] at hplace hi
    omega
  have hother := h.others i (by omega)
  simp [written, State.withCells, Function.update_of_ne hne, hother]

/-- Where the screen is the lifted one, it still is after both were scrolled. -/
theorem scrolled_others {t : State} {A : Nat → Prop} (hcolor : t.terminalColor = s.terminalColor)
    (hothers : ∀ i, A i → t.vgaBuffer i = (lifted k s).vgaBuffer i) {i : Nat}
    (hup : i < 1920 → A (i + 80)) (hbelow : 2000 ≤ i → A i) :
    scrolled t i = (lifted (k + 1) s).vgaBuffer i := by
  rw [scrolled]
  by_cases htop : i < 1920
  · rw [if_pos htop, lifted_up htop]
    exact hothers (i + 80) (hup htop)
  · rw [if_neg htop]
    by_cases hin : i < 2000
    · rw [if_pos hin, lifted_bottom (Nat.not_lt.mp htop) hin, blank, hcolor, blank]
    · rw [if_neg hin, lifted_beyond (Nat.not_lt.mp hin)]
      exact hothers i (hbelow (Nat.not_lt.mp hin))

/-- One more character, with the screen scrolled where the last row ended. -/
theorem putCell_printed (h : Printed s k m u) (hc : FillsCell c) :
    ∃ v, putCell c u = some v ∧ Printed s (k + scrollsOn c u) (m + 1) v := by
  obtain ⟨-, hback, hlf⟩ := hc
  have hrow : u.terminalRow < 25 := h.writes.inCells.1
  have hcol : u.terminalColumn < 80 := h.writes.inCells.2
  have hplace := h.place
  have hothers := written_others (c := c) h
  simp only [position, vgaWidth] at hplace hothers
  have hleft : 0 < vgaWidth := by decide
  rw [putCell_eq hlf h.writes.cell]
  by_cases hend : u.terminalColumn + 1 = 80
  · rw [if_pos hend]
    by_cases hfull : u.terminalRow + 1 = 25
    · have hk : scrollsOn c u = 1 := if_pos ⟨hfull, Or.inr ⟨hback, hend⟩⟩
      have hlast : 24 < vgaHeight := by decide
      have hnext : (written c u).terminalRow + 1 = 25 := hfull
      rw [nextRow_full hnext, hk]
      refine ⟨_, rfl, ⟨h.writes.vga, hlast, hleft⟩, h.color, ?_, Or.inr rfl, ?_⟩
      · simp only [position, vgaWidth]
        omega
      · intro i hi
        simp only [position, vgaWidth] at hi
        exact scrolled_others (t := written c u) h.color hothers (by omega) (by omega)
    · have hk : scrollsOn c u = 0 := if_neg fun hscroll => hfull hscroll.1
      have hnext : (written c u).terminalRow + 1 ≠ 25 := hfull
      have hbottom := h.bottom
      rw [nextRow_room hnext, hk]
      refine ⟨_, rfl, ⟨h.writes.vga, ?_, hleft⟩, h.color, ?_, ?_, hothers⟩
      · exact Nat.lt_of_le_of_ne hrow hfull
      · simp only [position, vgaWidth, written, State.withCells]
        omega
      · omega
  · have hk : scrollsOn c u = 0 := by
      refine if_neg fun hscroll => ?_
      cases hscroll.2 with
      | inl hnewline => exact hlf hnewline
      | inr hedge => exact hend hedge.2
    rw [if_neg hend, hk]
    refine ⟨_, rfl, ⟨h.writes.vga, hrow, ?_⟩, h.color, ?_, h.bottom, hothers⟩
    · exact Nat.lt_of_le_of_ne hcol hend
    · simp only [position, vgaWidth, written, State.withCells]
      omega

theorem terminalPutchar_printed (h : Printed s k m u) (hc : FillsCell c) :
    ∃ v, terminalPutchar c u = some v ∧ Printed s (k + scrollsOn c u) (m + 1) v ∧ Settled v := by
  have hsame := sendSerial_sameScreen c u
  obtain ⟨v, hv, hprinted⟩ := putCell_printed (h.sameScreen hsame) hc
  rw [terminalPutchar_vga h.writes, vgaPutchar_eq hc.2.1, hv, Option.map_some,
    ← scrollsOn_sameScreen hsame]
  exact ⟨_, rfl, hprinted.settled _ _, hprinted.writes.settles⟩

/-- A string of characters that fill cells, in front of any other. -/
theorem terminalWrite_printed {str rest : List (BitVec 8)} (hstr : ∀ c ∈ str, FillsCell c)
    (h : Printed s k m u) : ∃ v j, terminalWrite (str ++ rest) u = terminalWrite rest v ∧
      scrolls (str ++ rest) u = j + scrolls rest v ∧
      Printed s (k + j) (m + str.length) v ∧ (Settled u → Settled v) := by
  induction str generalizing u k m with
  | nil => exact ⟨u, 0, rfl, (Nat.zero_add _).symm, h, id⟩
  | cons c str ih =>
    have hc := hstr c List.mem_cons_self
    obtain ⟨w, hput, hprinted, hsettled⟩ := terminalPutchar_printed h hc
    obtain ⟨v, j, hwrite, hscrolls, hlast, hsettled'⟩ :=
      ih (fun d hd => hstr d (List.mem_cons_of_mem c hd)) hprinted
    refine ⟨v, scrollsOn c u + j, ?_, ?_, ?_, fun _ => hsettled' hsettled⟩
    · rw [List.cons_append, terminalWrite, if_neg hc.1, hput, Option.bind_some, hwrite]
    · simp only [List.cons_append, scrolls, if_neg hc.1, hput, Option.map_some, Option.getD_some,
        hscrolls, Nat.add_assoc]
    · rw [List.length_cons, Nat.add_comm str.length 1, ← Nat.add_assoc, ← Nat.add_assoc]
      exact hlast

/-- The cell before the cursor's, over the start of a row too. -/
theorem position_stepBack (h : Writes u) (hpos : 0 < position u) :
    position (stepBack u) + 1 = position u := by
  have hcol : u.terminalColumn < 80 := h.inCells.2
  simp only [position, vgaWidth] at hpos ⊢
  rw [stepBack]
  split_ifs with hleft hup
  · dsimp only
    omega
  · simp only [vgaWidth]
    omega
  · omega

theorem stepBack_frame (u : State) : (stepBack u).terminalColor = u.terminalColor ∧
    (stepBack u).vgaBuffer = u.vgaBuffer := by
  rw [stepBack]
  split_ifs <;> exact ⟨rfl, rfl⟩

/-- A backspace takes one more character back. -/
theorem vgaPutchar_erased (habove : 80 * k ≤ position s) (hmn : m + 1 ≤ n)
    (h : Erased s k n (m + 1) u) :
    ∃ v, vgaPutchar 0x08 u = some v ∧ Erased s k n m v ∧ Settled v := by
  have hplace := h.place
  have hback := position_stepBack h.writes (by omega)
  have hwrites := stepBack_writes h.writes
  obtain ⟨hcolor, hbuffer⟩ := stepBack_frame u
  rw [vgaPutchar_back, vgaWrite_some _ hwrites.cell, Option.map_some]
  have hcell : (stepBack u).terminalRow * 80 + (stepBack u).terminalColumn =
      position (stepBack u) := rfl
  have hblank : blank (stepBack u) = blank s := by simp [blank, hcolor, h.color]
  rw [hcell, hblank, hbuffer]
  have hshifted : position (stepBack u) + 80 * k = position s + m := by omega
  have herased : Erased s k n m ((stepBack u).withCells
      (Function.update u.vgaBuffer (position (stepBack u)) (blank s))) := by
    refine ⟨hwrites.withCells _, hcolor.trans h.color, hshifted, ?_, ?_⟩
    · intro i hlo hhi
      by_cases hi : i = position (stepBack u)
      · simp [State.withCells, hi]
      · have hold := h.blanks i (by omega) hhi
        simp [State.withCells, Function.update_of_ne hi, hold]
    · intro i hi
      have hne : i ≠ position (stepBack u) := by omega
      simp [State.withCells, Function.update_of_ne hne, h.others i hi]
  exact ⟨_, rfl, herased.settled _ _, herased.writes.settles⟩

theorem terminalWrite_erased (habove : 80 * k ≤ position s) (hmn : m ≤ n)
    (h : Erased s k n m u) : ∃ v, terminalWrite (List.replicate m 0x08) u = some v ∧
      scrolls (List.replicate m 0x08) u = 0 ∧ Erased s k n 0 v ∧ (Settled u → Settled v) := by
  induction m generalizing u with
  | zero => exact ⟨u, rfl, rfl, h, id⟩
  | succ m ih =>
    have hnul : (0x08 : BitVec 8) ≠ 0 := by decide
    have hnone : scrollsOn 0x08 u = 0 := by simp [scrollsOn]
    obtain ⟨w, hput, herased, hsettled⟩ :=
      vgaPutchar_erased habove hmn (h.sameScreen (sendSerial_sameScreen 0x08 u))
    rw [← terminalPutchar_vga h.writes] at hput
    obtain ⟨v, hwrite, hscrolls, hlast, hsettled'⟩ := ih (by omega) herased
    refine ⟨v, ?_, ?_, hlast, fun _ => hsettled' hsettled⟩
    · rw [List.replicate_succ, terminalWrite, if_neg hnul, hput, Option.bind_some, hwrite]
    · rw [List.replicate_succ, scrolls, if_neg hnul, hnone, hput, Option.map_some,
        Option.getD_some, hscrolls]

end Steps

/-- `n` characters taken back after `k` rows scrolled: the cursor is back in its column, `k` rows
up, and the screen is the lifted one with the cells of the characters blanked. -/
structure TakenBack (n k : Nat) (s t : State) : Prop where
  column : t.terminalColumn = s.terminalColumn
  row : t.terminalRow + k = s.terminalRow
  cells : ∀ i, t.vgaBuffer i =
    if position t ≤ i ∧ i < position t + n then blank s else (lifted k s).vgaBuffer i
  cursor : Settled s → Settled t

/-- A string written and taken back with as many backspaces. -/
theorem terminalWrite_takenBack {s : State} {str : List (BitVec 8)}
    (hvga : s.useFramebuffer = false) (hcells : InCells s) (hlen : str.length ≤ 255)
    (hstr : ∀ c ∈ str, FillsCell c) :
    ∃ t, terminalWrite (str ++ List.replicate str.length 0x08) s = some t ∧
      TakenBack str.length (scrolls (str ++ List.replicate str.length 0x08) s) s t := by
  have hstart : Printed s 0 0 s := ⟨⟨hvga, hcells⟩, rfl, rfl, Or.inl rfl, fun _ _ => rfl⟩
  obtain ⟨u, k, hwrite, hscrolls, hprinted, hsettled⟩ :=
    @terminalWrite_printed s s 0 0 str (List.replicate str.length 0x08) hstr hstart
  rw [Nat.zero_add, Nat.zero_add] at hprinted
  have hcol : s.terminalColumn < 80 := hcells.2
  have hplace := hprinted.place
  have hbottom := hprinted.bottom
  -- Fewer characters than the screen has cells: none of them has scrolled away.
  have habove : 80 * k ≤ position s := by
    simp only [position, vgaWidth] at hplace ⊢
    omega
  have hfull : Erased s k str.length str.length u :=
    ⟨hprinted.writes, hprinted.color, hplace, fun i hlo hhi => absurd hlo (Nat.not_le.mpr hhi),
      hprinted.others⟩
  obtain ⟨t, herase, hnone, hlast, hsettled'⟩ := terminalWrite_erased habove le_rfl hfull
  rw [hwrite, hscrolls, hnone, Nat.add_zero]
  have hcolt : t.terminalColumn < 80 := hlast.writes.inCells.2
  have hplace' := hlast.place
  refine ⟨t, herase, ?_, ?_, ?_, fun h => hsettled' (hsettled h)⟩
  · simp only [position, vgaWidth] at hplace'
    omega
  · simp only [position, vgaWidth] at hplace'
    omega
  · intro i
    by_cases hin : position t ≤ i ∧ i < position t + str.length
    · rw [if_pos hin]
      exact hlast.blanks i (by omega) (by omega)
    · rw [if_neg hin]
      exact hlast.others i (by omega)

/-- The terminal with the cursor two cells before the end of the last row. -/
def atBottom : State := { zeroed with terminalRow := 24, terminalColumn := 78 }

/-- Three letters from there scroll one row, and three backspaces end in the row above. -/
theorem terminalWrite_takenBack_bottom : ∃ t,
    terminalWrite ([0x61, 0x62, 0x63] ++ List.replicate 3 0x08) atBottom = some t ∧
      TakenBack 3 1 atBottom t := by
  have hscrolls : scrolls ([0x61, 0x62, 0x63] ++ List.replicate 3 0x08) atBottom = 1 := by
    decide +kernel
  rw [← hscrolls]
  exact @terminalWrite_takenBack atBottom [0x61, 0x62, 0x63] rfl (by decide) (by decide) (by decide)

end Terminal
