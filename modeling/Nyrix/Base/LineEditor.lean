import Nyrix.Base.CharBuffer

/-!
# A line of text with a cursor

The text in front of the cursor and the text behind it. A character array holds such a line
when it holds its text followed by NULs; moving characters up or down by one in the array is
then what inserting or deleting does to the line.
-/

namespace LineEditor

structure Line (α : Type) where
  before : List α
  after : List α

namespace Line

variable {α : Type}

def empty : Line α := ⟨[], []⟩

def text (l : Line α) : List α := l.before ++ l.after

def insert (c : α) (l : Line α) : Line α := ⟨l.before ++ [c], l.after⟩

def backspace (l : Line α) : Line α := ⟨l.before.dropLast, l.after⟩

def delete (l : Line α) : Line α := ⟨l.before, l.after.tail⟩

def left (l : Line α) : Line α := ⟨l.before.dropLast, l.before.getLast?.toList ++ l.after⟩

def right (l : Line α) : Line α := ⟨l.before ++ l.after.head?.toList, l.after.tail⟩

def home (l : Line α) : Line α := ⟨[], l.text⟩

def toEnd (l : Line α) : Line α := ⟨l.text, []⟩

theorem text_left (l : Line α) : l.left.text = l.text := by
  rw [text, left, text, ← List.append_assoc]
  rcases List.eq_nil_or_concat l.before with h | ⟨u, c, h⟩
  · rw [h]
    rfl
  · rw [h, List.concat_eq_append, List.dropLast_concat, List.getLast?_concat]
    rfl

theorem text_right (l : Line α) : l.right.text = l.text := by
  rw [text, right, text, List.append_assoc]
  cases l.after with
  | nil => rfl
  | cons c r => rfl

theorem text_home (l : Line α) : l.home.text = l.text := rfl

theorem text_toEnd (l : Line α) : l.toEnd.text = l.text := List.append_nil _

theorem text_insert (c : α) (l : Line α) :
    (l.insert c).text = l.text.insertIdx l.before.length c := by
  rw [text, insert, text, List.append_assoc, List.singleton_append]
  induction l.before with
  | nil => rfl
  | cons a u ih => rw [List.cons_append, ih, List.cons_append, List.length_cons,
      List.insertIdx_succ_cons]

theorem text_delete (l : Line α) : l.delete.text = l.text.eraseIdx l.before.length := by
  rw [text, delete, text, List.eraseIdx_append_of_length_le (Nat.le_refl _), Nat.sub_self,
    List.eraseIdx_zero]

theorem text_backspace {l : Line α} (h : 0 < l.before.length) :
    l.backspace.text = l.text.eraseIdx (l.before.length - 1) := by
  have hlt : l.before.length - 1 < l.before.length := Nat.sub_lt h Nat.one_pos
  rw [text, backspace, text, List.eraseIdx_append_of_lt_length hlt,
    List.eraseIdx_eq_dropLast (Nat.sub_add_cancel h)]

end Line

open CharBuffer

/-- The array holds the text and NULs behind it. -/
def Padded (n : Nat) (b : Buffer) (t : List (BitVec 8)) : Prop := ∀ j < n, b j = t[j]?.getD 0#8

/-- The array holds the line, with the cursor at an index. -/
structure Holds (n : Nat) (b : Buffer) (pos : Nat) (l : Line (BitVec 8)) : Prop where
  pos : pos = l.before.length
  padded : Padded n b l.text
  nonzero : 0#8 ∉ l.text

section Array

variable {n : Nat} {b : Buffer} {t : List (BitVec 8)} {i : Nat}

theorem Padded.text (h : Padded n b t) {j : Nat} (hj : j < t.length) (hn : j < n) :
    b j ∈ t := by
  rw [h j hn, List.getElem?_eq_getElem hj, Option.getD_some]
  exact List.getElem_mem hj

theorem Padded.rest (h : Padded n b t) {j : Nat} (hj : t.length ≤ j) (hn : j < n) : b j = 0#8 := by
  rw [h j hn, List.getElem?_eq_none hj, Option.getD_none]

/-- The text ends at the first NUL. -/
theorem Padded.nulAt (h : Padded n b t) (hzero : 0#8 ∉ t) (hlen : t.length < n)
    (hi : i ≤ t.length) : NulAt b i t.length := by
  refine ⟨hi, h.rest (Nat.le_refl _) hlen, ?_⟩
  intro j _ hj hnul
  have hmem := h.text hj (Nat.lt_trans hj hlen)
  rw [hnul] at hmem
  exact hzero hmem

/-- The string in the array is the text. -/
theorem Padded.string (h : Padded n b t) (hzero : 0#8 ∉ t) (hlen : t.length < n) :
    string n b = t := by
  rw [string_eq (h.nulAt hzero hlen (Nat.zero_le _)) hlen]
  refine List.ext_getElem (by rw [List.length_map, List.length_range]) ?_
  intro j hj hj'
  rw [List.getElem_map, List.getElem_range, h j (by omega), List.getElem?_eq_getElem hj',
    Option.getD_some]

theorem padded_closed (h : Padded n b t) (hlen : t.length < n) :
    Padded n (closed b i t.length) (t.eraseIdx i) := by
  intro j hj
  rw [closed, List.getElem?_eraseIdx]
  by_cases hin : i ≤ j ∧ j < t.length
  · have hnot : ¬j < i := by omega
    rw [if_pos hin, if_neg hnot, h (j + 1) (by omega)]
  · rw [if_neg hin]
    by_cases hlow : j < i
    · rw [if_pos hlow, h j hj]
    · have hhigh : t.length ≤ j := by omega
      rw [if_neg hlow, h.rest hhigh hj, List.getElem?_eq_none (Nat.le_succ_of_le hhigh)]
      rfl

theorem padded_opened (h : Padded n b t) (hi : i ≤ t.length) (c : BitVec 8) :
    Padded n (Function.update (opened b i t.length) i c) (t.insertIdx i c) := by
  intro j hj
  rw [List.getElem?_insertIdx]
  by_cases hlow : j < i
  · have hnot : ¬(i < j ∧ j ≤ t.length + 1) := by omega
    rw [Function.update_of_ne (Nat.ne_of_lt hlow), opened, if_neg hnot, if_pos hlow, h j hj]
  rw [if_neg hlow]
  by_cases hat : j = i
  · subst hat
    rw [Function.update_self, if_pos rfl, if_pos hi]
    rfl
  rw [Function.update_of_ne hat, opened, if_neg hat]
  by_cases hin : i < j ∧ j ≤ t.length + 1
  · rw [if_pos hin, h (j - 1) (by omega)]
  · have hhigh : t.length ≤ j - 1 := by omega
    rw [if_neg hin, h.rest (by omega) hj, List.getElem?_eq_none hhigh]
    rfl

/-- At the end of the text nothing has to move. -/
theorem padded_append (h : Padded n b t) (c : BitVec 8) :
    Padded n (Function.update b t.length c) (t.insertIdx t.length c) := by
  intro j hj
  rw [List.getElem?_insertIdx]
  by_cases hlow : j < t.length
  · rw [Function.update_of_ne (Nat.ne_of_lt hlow), if_pos hlow, h j hj]
  rw [if_neg hlow]
  by_cases hat : j = t.length
  · subst hat
    rw [Function.update_self, if_pos rfl, if_pos (Nat.le_refl _)]
    rfl
  · have hhigh : t.length ≤ j - 1 := by omega
    rw [Function.update_of_ne hat, if_neg hat, h.rest (by omega) hj,
      List.getElem?_eq_none hhigh]
    rfl

end Array

section Holds

variable {n : Nat} {b : Buffer} {pos : Nat} {l : Line (BitVec 8)}

theorem Holds.pos_le (h : Holds n b pos l) : pos ≤ l.text.length := by
  rw [h.pos, Line.text, List.length_append]
  exact Nat.le_add_right _ _

theorem Holds.nulAt (h : Holds n b pos l) (hlen : l.text.length < n) :
    NulAt b pos l.text.length := h.padded.nulAt h.nonzero hlen h.pos_le

/-- There is a NUL at the cursor when nothing is behind it. -/
theorem Holds.at_end (h : Holds n b pos l) (hlen : l.text.length < n) :
    b pos = 0#8 ↔ l.after = [] := by
  have hnul := h.nulAt hlen
  rw [← List.length_eq_zero_iff]
  have hlength : l.text.length = pos + l.after.length := by
    rw [Line.text, List.length_append, h.pos]
  constructor
  · intro hzero
    by_contra hne
    exact hnul.text pos (Nat.le_refl _) (by omega) hzero
  · intro hzero
    rw [hlength, hzero] at hnul
    exact hnul.nul

theorem mem_insertIdx_ne {t : List (BitVec 8)} {i : Nat} {c : BitVec 8} (ht : 0#8 ∉ t)
    (hc : c ≠ 0#8) (hi : i ≤ t.length) : 0#8 ∉ t.insertIdx i c := by
  rw [List.mem_insertIdx hi]
  rintro (h | h)
  · exact hc h.symm
  · exact ht h

theorem Holds.insert (h : Holds n b pos l) (hlen : l.text.length < n) {c : BitVec 8}
    (hc : c ≠ 0#8) : Holds n
      (Function.update (if b pos ≠ 0#8 then opened b pos l.text.length else b) pos c) (pos + 1)
      (l.insert c) := by
  have hle := h.pos_le
  constructor
  · rw [h.pos, Line.insert, List.length_append, List.length_singleton]
  · rw [Line.text_insert, ← h.pos]
    by_cases hend : b pos = 0#8
    · have hlast : pos = l.text.length := by
        rw [Line.text, (h.at_end hlen).mp hend, List.append_nil, h.pos]
      rw [if_neg (not_not.mpr hend), hlast]
      exact padded_append h.padded c
    · rw [if_pos hend]
      exact padded_opened h.padded hle c
  · rw [Line.text_insert, ← h.pos]
    exact mem_insertIdx_ne h.nonzero hc hle

theorem Holds.delete (h : Holds n b pos l) (hlen : l.text.length < n) :
    Holds n (closed b pos l.text.length) pos l.delete := by
  refine ⟨h.pos, ?_, ?_⟩
  · rw [Line.text_delete, ← h.pos]
    exact padded_closed h.padded hlen
  · rw [Line.text_delete]
    exact fun hmem => h.nonzero (List.mem_of_mem_eraseIdx hmem)

theorem Holds.backspace (h : Holds n b pos l) (hlen : l.text.length < n) (hpos : 0 < pos) :
    Holds n (closed b (pos - 1) l.text.length) (pos - 1) l.backspace := by
  have hbefore : 0 < l.before.length := h.pos ▸ hpos
  constructor
  · rw [h.pos, Line.backspace, List.length_dropLast]
  · rw [Line.text_backspace hbefore, ← h.pos]
    exact padded_closed h.padded hlen
  · rw [Line.text_backspace hbefore]
    exact fun hmem => h.nonzero (List.mem_of_mem_eraseIdx hmem)

/-- Another place for the cursor in the same text. -/
theorem Holds.move (h : Holds n b pos l) {l' : Line (BitVec 8)} (htext : l'.text = l.text) :
    Holds n b l'.before.length l' := by
  refine ⟨rfl, ?_, ?_⟩
  · rw [htext]
    exact h.padded
  · rw [htext]
    exact h.nonzero

/-- The characters in front of the cursor are those of the line. -/
theorem Holds.front (h : Holds n b pos l) (hlen : l.text.length < n) :
    (List.range pos).map b = l.before := by
  have hle := h.pos_le
  have hpos := h.pos
  refine List.ext_getElem (by rw [List.length_map, List.length_range, h.pos]) ?_
  intro j hj hj'
  have htext : l.text[j]? = some l.before[j] := by
    rw [Line.text, List.getElem?_append_left hj', List.getElem?_eq_getElem hj']
  rw [List.getElem_map, List.getElem_range, h.padded j (by omega), htext, Option.getD_some]

end Holds

end LineEditor
