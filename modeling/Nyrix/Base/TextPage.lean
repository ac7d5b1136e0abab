import Mathlib.Data.List.Induction
import Nyrix.Base.TextRows

/-!
# A text that is put and taken back at its end

A screen follows the end of a text down. When characters are taken back the rows that have left
the screen at its top do not come back.
-/

namespace TextRows

variable {α : Type}

structure Page (α : Type) where
  text : List α
  /-- The first row of the text on the screen. -/
  top : Nat

section Page

variable [DecidableEq α] (width height : Nat) (lf : α)

/-- The finished rows of a text and the row begun. -/
def layout (s : List α) : List (List α) × List α :=
  s.foldl (fun p c => put width lf c p.1 p.2) ([], [])

/-- One more character, with the screen moved down to it if it has to be. -/
def Page.put (c : α) (p : Page α) : Page α :=
  ⟨p.text ++ [c], max p.top ((layout width lf (p.text ++ [c])).1.length + 1 - height)⟩

def Page.takeBack (p : Page α) : Page α := ⟨p.text.dropLast, p.top⟩

variable {width height lf} {s t : List α} {c : α}

theorem layout_concat : layout width lf (s ++ [c]) =
    put width lf c (layout width lf s).1 (layout width lf s).2 := by
  rw [layout, List.foldl_append]
  rfl

theorem layout_rows (s t : List α) : rows width lf (s ++ t) =
    (layout width lf s).1 ++ rowsFrom width lf (layout width lf s).2 t := by
  induction s using List.reverseRecOn generalizing t with
  | nil => rfl
  | append_singleton s c ih =>
    rw [List.append_assoc, List.singleton_append, ih, rowsFrom_cons, layout_concat]

theorem rows_layout (s : List α) :
    rows width lf s = (layout width lf s).1 ++ [(layout width lf s).2] := by
  have h : rows width lf (s ++ []) = _ := layout_rows s []
  rwa [List.append_nil] at h

theorem put_fits {done : List (List α)} {cur : List α} (hcur : cur.length < width) :
    (put width lf c done cur).2.length < width := by
  rw [put]
  split_ifs with hlf hend
  · exact Nat.zero_lt_of_lt hcur
  · exact Nat.zero_lt_of_lt hcur
  · rw [List.length_append, List.length_singleton]
    exact Nat.lt_of_le_of_ne hcur hend

/-- The row begun has room for a character. -/
theorem layout_fits (hwidth : 0 < width) (s : List α) :
    (layout width lf s).2.length < width := by
  induction s using List.reverseRecOn with
  | nil => exact hwidth
  | append_singleton s c ih =>
    rw [layout_concat]
    exact put_fits ih

/-- Without line feeds a text fills its rows one after the other. -/
theorem rowsFrom_plain {cur : List α} (hcur : cur.length < width) (ht : ∀ c ∈ t, c ≠ lf) :
    (rowsFrom width lf cur t).length = (cur.length + t.length) / width + 1 := by
  induction t generalizing cur with
  | nil =>
    have hfirst : (cur.length + ([] : List α).length) / width = 0 := Nat.div_eq_of_lt hcur
    rw [rowsFrom, hfirst, List.length_singleton]
  | cons c t ih =>
    obtain ⟨hc, ht⟩ := List.forall_mem_cons.mp ht
    have hlength : cur.length + (c :: t).length = t.length + (cur.length + 1) := by
      rw [List.length_cons]
      omega
    rw [rowsFrom, if_neg hc, hlength]
    split_ifs with hend
    · have hempty : ([] : List α).length < width := Nat.zero_lt_of_lt hcur
      rw [List.length_cons, ih hempty ht, hend, Nat.add_div_right _ hempty, List.length_nil,
        Nat.zero_add]
    · have hlonger : (cur ++ [c]).length = cur.length + 1 := by
        rw [List.length_append, List.length_singleton]
      rw [ih (by omega) ht, hlonger, Nat.add_comm t.length]

/-- A text that fits the row begun stays in it. -/
theorem rowsFrom_short {cur : List α} (ht : ∀ c ∈ t, c ≠ lf)
    (hshort : cur.length + t.length < width) : rowsFrom width lf cur t = [cur ++ t] := by
  induction t generalizing cur with
  | nil => rw [rowsFrom, List.append_nil]
  | cons c t ih =>
    obtain ⟨hc, ht⟩ := List.forall_mem_cons.mp ht
    have hlonger : (cur ++ [c]).length = cur.length + 1 := by
      rw [List.length_append, List.length_singleton]
    rw [List.length_cons] at hshort
    rw [rowsFrom, if_neg hc, if_neg (by omega), ih ht (by omega), List.append_assoc,
      List.singleton_append]

/-- How far a text without line feeds leads down. -/
theorem layout_plain (hwidth : 0 < width) (ht : ∀ c ∈ t, c ≠ lf) :
    (layout width lf (s ++ t)).1.length = (layout width lf s).1.length +
      ((layout width lf s).2.length + t.length) / width := by
  have hrows : (rows width lf (s ++ t)).length = _ := congrArg List.length (layout_rows s t)
  rw [rows_layout, List.length_append, List.length_append, List.length_singleton,
    rowsFrom_plain (layout_fits hwidth s) ht] at hrows
  omega

/-- After a line feed a row is begun. -/
theorem layout_newRow (s : List α) : (layout width lf (s ++ [lf])).2 = [] := by
  rw [layout_concat, put, if_pos rfl]

/-- A text behind a new row that is shorter than the screen leaves that row on it. -/
theorem Page.put_top {p : Page α} (htext : p.text = s ++ t) (hrow : (layout width lf s).2 = [])
    (hplain : ∀ d ∈ t ++ [c], d ≠ lf) (hshort : (t.length + 1) / width < height)
    (htop : p.top ≤ (layout width lf s).1.length) (hwidth : 0 < width) :
    (p.put width height lf c).top ≤ (layout width lf s).1.length := by
  have hdown := layout_plain (s := s) hwidth hplain
  rw [hrow, List.length_nil, Nat.zero_add, List.length_append, List.length_singleton] at hdown
  rw [Page.put, htext, List.append_assoc, hdown]
  dsimp only
  omega

end Page

end TextRows
