import Mathlib.Data.List.Basic
import Mathlib.Tactic.SplitIfs

/-!
# Text laid out in rows

A row ends at a line feed or right after its last column. A screen of limited height shows
the last rows; writing a character or starting a row changes what it shows in one cell, or
moves it up by one row.
-/

namespace TextRows

variable {α : Type}

section Layout

variable [DecidableEq α] (width : Nat) (lf : α)

/-- The rows of a text that goes on in a row begun already. -/
def rowsFrom : List α → List α → List (List α)
  | cur, [] => [cur]
  | cur, c :: s =>
    if c = lf then cur :: rowsFrom [] s
    else if cur.length + 1 = width then (cur ++ [c]) :: rowsFrom [] s
    else rowsFrom (cur ++ [c]) s

def rows (s : List α) : List (List α) := rowsFrom width lf [] s

/-- The finished rows and the row begun after one more character. -/
def put (c : α) (done : List (List α)) (cur : List α) : List (List α) × List α :=
  if c = lf then (done ++ [cur], [])
  else if cur.length + 1 = width then (done ++ [cur ++ [c]], [])
  else (done, cur ++ [c])

variable {width lf} {cur : List α} {done : List (List α)}

theorem rowsFrom_cons (c : α) (s : List α) : done ++ rowsFrom width lf cur (c :: s) =
    (put width lf c done cur).1 ++ rowsFrom width lf (put width lf c done cur).2 s := by
  rw [rowsFrom, put]
  split_ifs
  · rw [List.append_assoc]
    rfl
  · rw [List.append_assoc]
    rfl
  · rfl

/-- There is always a row begun. -/
theorem rowsFrom_length_pos (s : List α) : 0 < (rowsFrom width lf cur s).length := by
  induction s generalizing cur with
  | nil => exact Nat.one_pos
  | cons c s ih =>
    rw [rowsFrom]
    split_ifs
    · exact Nat.succ_pos _
    · exact Nat.succ_pos _
    · exact ih

/-- No row is longer than the screen is wide. -/
theorem rowsFrom_length_le {s : List α} (hcur : cur.length < width) :
    ∀ r ∈ rowsFrom width lf cur s, r.length ≤ width := by
  induction s generalizing cur with
  | nil =>
    intro r hr
    rw [rowsFrom, List.mem_singleton] at hr
    exact hr ▸ Nat.le_of_lt hcur
  | cons c s ih =>
    have hlen : (cur ++ [c]).length = cur.length + 1 := by
      rw [List.length_append, List.length_singleton]
    have hempty : ([] : List α).length < width := by
      rw [List.length_nil]
      omega
    rw [rowsFrom]
    split_ifs with hlf hend
    · exact List.forall_mem_cons.mpr ⟨Nat.le_of_lt hcur, ih hempty⟩
    · exact List.forall_mem_cons.mpr ⟨by omega, ih hempty⟩
    · exact ih (by omega)

/-- A row holds characters of the text, line feeds apart. -/
theorem mem_rowsFrom {s : List α} {P : α → Prop} (hcur : ∀ c ∈ cur, P c)
    (hs : ∀ c ∈ s, c = lf ∨ P c) : ∀ r ∈ rowsFrom width lf cur s, ∀ c ∈ r, P c := by
  induction s generalizing cur with
  | nil =>
    intro r hr
    rw [rowsFrom, List.mem_singleton] at hr
    exact hr ▸ hcur
  | cons c s ih =>
    obtain ⟨hc, hs⟩ := List.forall_mem_cons.mp hs
    have hempty : ∀ c ∈ ([] : List α), P c := fun c hc => absurd hc List.not_mem_nil
    have hlonger : c ≠ lf → ∀ d ∈ cur ++ [c], P d := by
      intro hne d hd
      obtain hd | hd := List.mem_append.mp hd
      · exact hcur d hd
      · exact List.mem_singleton.mp hd ▸ hc.resolve_left hne
    rw [rowsFrom]
    split_ifs with hlf hend
    · exact List.forall_mem_cons.mpr ⟨hcur, ih hempty hs⟩
    · exact List.forall_mem_cons.mpr ⟨hlonger hlf, ih hempty hs⟩
    · exact ih (hlonger hlf) hs

end Layout

/-- The last `h` rows, or all if there are fewer. -/
def window (h : Nat) (rs : List (List α)) : List (List α) := rs.drop (rs.length - h)

/-- A cell of the screen, blank where no row reaches it. -/
def cellAt (blank : α) (rs : List (List α)) (y x : Nat) : α := ((rs[y]?.getD [])[x]?).getD blank

variable {blank : α} {rs done : List (List α)} {cur : List α} {h : Nat}

theorem cellAt_window (y x : Nat) :
    cellAt blank (window h rs) y x = cellAt blank rs (rs.length - h + y) x := by
  rw [cellAt, window, List.getElem?_drop, cellAt]

/-- Below the last row everything is blank. -/
theorem cellAt_below {y : Nat} (x : Nat) (hy : rs.length ≤ y) : cellAt blank rs y x = blank := by
  rw [cellAt, List.getElem?_eq_none hy]
  rfl

/-- An empty row shows nothing. -/
theorem cellAt_newRow (y x : Nat) : cellAt blank (rs ++ [[]]) y x = cellAt blank rs y x := by
  by_cases hy : y < rs.length
  · rw [cellAt, List.getElem?_append_left hy, cellAt]
  · have hle := Nat.le_of_not_lt hy
    rw [cellAt_below x hle, cellAt, List.getElem?_append_right hle]
    cases y - rs.length with
    | zero => rfl
    | succ n => rfl

theorem cellAt_write (c : α) (y x : Nat) : cellAt blank (done ++ [cur ++ [c]]) y x =
    if y = done.length ∧ x = cur.length then c else cellAt blank (done ++ [cur]) y x := by
  rw [cellAt, cellAt]
  rcases Nat.lt_trichotomy y done.length with hy | rfl | hy
  · rw [List.getElem?_append_left hy, List.getElem?_append_left hy, if_neg (by omega)]
  · rw [List.getElem?_concat_length, List.getElem?_concat_length, Option.getD_some, Option.getD_some]
    rcases Nat.lt_trichotomy x cur.length with hx | rfl | hx
    · rw [List.getElem?_append_left hx, if_neg (by omega)]
    · rw [List.getElem?_concat_length, if_pos ⟨rfl, rfl⟩, Option.getD_some]
    · have hlong : (cur ++ [c]).length ≤ x := by
        rw [List.length_append, List.length_singleton]
        exact hx
      rw [List.getElem?_eq_none hlong, List.getElem?_eq_none (Nat.le_of_lt hx), if_neg (by omega)]
  · have hlen : ∀ r : List α, (done ++ [r]).length ≤ y := by
      intro r
      rw [List.length_append, List.length_singleton]
      exact hy
    rw [List.getElem?_eq_none (hlen _), List.getElem?_eq_none (hlen _), if_neg (by omega)]

theorem cellAt_tail (y x : Nat) : cellAt blank rs.tail y x = cellAt blank rs (y + 1) x := by
  rw [cellAt, cellAt, List.getElem?_tail]

theorem cellAt_append {y : Nat} (hy : y < done.length) (x : Nat) :
    cellAt blank (done ++ rs) y x = cellAt blank done y x := by
  rw [cellAt, cellAt, List.getElem?_append_left hy]

theorem cellAt_last (x : Nat) :
    cellAt blank (done ++ [cur]) done.length x = cur[x]?.getD blank := by
  rw [cellAt, List.getElem?_concat_length, Option.getD_some]

theorem cellAt_getElem {y x : Nat} (hy : y < rs.length) (hx : x < rs[y].length) :
    cellAt blank rs y x = rs[y][x] := by
  rw [cellAt, List.getElem?_eq_getElem hy, Option.getD_some, List.getElem?_eq_getElem hx,
    Option.getD_some]

/-- Rows of blanks show nothing. -/
theorem cellAt_blanks (h : ∀ r ∈ rs, ∀ c ∈ r, c = blank) (y x : Nat) :
    cellAt blank rs y x = blank := by
  by_cases hy : y < rs.length
  · by_cases hx : x < rs[y].length
    · rw [cellAt_getElem hy hx]
      exact h _ (List.getElem_mem hy) _ (List.getElem_mem hx)
    · rw [cellAt, List.getElem?_eq_getElem hy, Option.getD_some,
        List.getElem?_eq_none (Nat.le_of_not_lt hx), Option.getD_none]
  · exact cellAt_below x (Nat.le_of_not_lt hy)

/-- A character written at the end of the last row shows in one cell of the screen. -/
theorem window_write (hpos : 0 < h) (c : α) (y x : Nat) :
    cellAt blank (window h (done ++ [cur ++ [c]])) y x =
      if y = min (h - 1) done.length ∧ x = cur.length then c
      else cellAt blank (window h (done ++ [cur])) y x := by
  rw [cellAt_window, cellAt_window, cellAt_write]
  have hlen : ∀ r : List α, (done ++ [r]).length = done.length + 1 := by
    intro r
    rw [List.length_append, List.length_singleton]
  rw [hlen, hlen]
  have hrow : done.length + 1 - h + y = done.length ↔ y = min (h - 1) done.length := by omega
  simp only [hrow]

/-- While there is room a new row leaves the screen as it is. -/
theorem window_newRow_of_lt (hroom : rs.length < h) (y x : Nat) :
    cellAt blank (window h (rs ++ [[]])) y x = cellAt blank (window h rs) y x := by
  have htop : (rs ++ [[]]).length - h = rs.length - h := by
    rw [List.length_append, List.length_singleton]
    omega
  rw [cellAt_window, cellAt_window, htop, cellAt_newRow]

/-- A new row on a full screen moves it up by one row. -/
theorem window_newRow_of_le (hfull : h ≤ rs.length) (y x : Nat) :
    cellAt blank (window h (rs ++ [[]])) y x = cellAt blank (window h rs) (y + 1) x := by
  have htop : (rs ++ [[]]).length - h + y = rs.length - h + (y + 1) := by
    rw [List.length_append, List.length_singleton]
    omega
  rw [cellAt_window, cellAt_window, htop, cellAt_newRow]

/-- Below the screen there is nothing to move up. -/
theorem window_below (hfull : h ≤ rs.length) (x : Nat) :
    cellAt blank (window h rs) h x = blank := by
  rw [cellAt_window, cellAt_below x (by omega)]

/-- A text with no more rows than the screen is shown whole. -/
theorem window_of_le (hroom : rs.length ≤ h) : window h rs = rs := by
  rw [window, Nat.sub_eq_zero_of_le hroom, List.drop_zero]

theorem window_length : (window h rs).length = min h rs.length := by
  rw [window, List.length_drop]
  omega

end TextRows
