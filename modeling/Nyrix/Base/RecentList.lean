import Mathlib.Data.List.Destutter
import Mathlib.Data.List.DropRight

/-!
# The most recent entries of a log

A log loses its immediate repetitions and keeps its last `n` entries. The same list is
reached when each new entry is compared with the newest one kept and the oldest is given up.
-/

namespace RecentList

variable {α : Type}

theorem rtake_rtake_succ (n : Nat) (l : List α) : (l.rtake (n + 1)).rtake n = l.rtake n := by
  rw [List.rtake, List.rtake, List.drop_drop, List.length_drop, List.rtake]
  congr 1
  omega

theorem getLast?_rtake (n : Nat) (l : List α) : (l.rtake (n + 1)).getLast? = l.getLast? := by
  induction l using List.reverseRecOn with
  | nil => rw [List.rtake_nil]
  | append_singleton l a => rw [List.rtake_concat_succ, List.getLast?_concat, List.getLast?_concat]

section Log

variable [DecidableEq α]

/-- The log with runs of equal entries reduced to one. -/
def collapse (l : List α) : List α := l.destutter (· ≠ ·)

def recent (n : Nat) (l : List α) : List α := (collapse l).rtake n

/-- One more entry, unless it repeats the newest. -/
def record (n : Nat) (x : α) (l : List α) : List α :=
  if l.getLast? = some x then l else (l ++ [x]).rtake n

theorem destutter'_concat (a : α) (l : List α) (x : α) :
    (l ++ [x]).destutter' (· ≠ ·) a =
      if (l.destutter' (· ≠ ·) a).getLast? = some x then l.destutter' (· ≠ ·) a
      else l.destutter' (· ≠ ·) a ++ [x] := by
  induction l generalizing a with
  | nil =>
    by_cases h : a = x
    · simp [h]
    · simp [h]
  | cons b l ih =>
    by_cases h : a = b
    · subst h
      simp [List.destutter', ih]
    · have hne : l.destutter' (· ≠ ·) b ≠ [] := List.destutter'_ne_nil _ _
      rw [List.cons_append, List.destutter'_cons_pos _ h, List.destutter'_cons_pos _ h, ih,
        List.getLast?_cons_of_ne_nil hne]
      split_ifs
      · rfl
      · rfl

theorem collapse_concat (l : List α) (x : α) : collapse (l ++ [x]) =
    if (collapse l).getLast? = some x then collapse l else collapse l ++ [x] := by
  cases l with
  | nil => rfl
  | cons a l => exact destutter'_concat a l x

/-- Recording an entry at a time keeps the recent ones. -/
theorem recent_concat (n : Nat) (l : List α) (x : α) :
    recent (n + 1) (l ++ [x]) = record (n + 1) x (recent (n + 1) l) := by
  rw [record, recent, recent, collapse_concat, getLast?_rtake]
  split_ifs
  · rfl
  · rw [List.rtake_concat_succ, List.rtake_concat_succ, rtake_rtake_succ]

theorem recent_nil (n : Nat) : recent n ([] : List α) = [] := List.rtake_nil n

/-- Below the bound nothing is given up. -/
theorem record_of_lt {n : Nat} {x : α} {l : List α} (hx : l.getLast? ≠ some x)
    (hl : l.length < n) : record n x l = l ++ [x] := by
  have hdrop : (l ++ [x]).length - n = 0 := by
    rw [List.length_append, List.length_singleton]
    omega
  rw [record, if_neg hx, List.rtake, hdrop, List.drop_zero]

/-- At the bound the oldest entry goes. -/
theorem record_of_eq {n : Nat} {x : α} {l : List α} (hx : l.getLast? ≠ some x)
    (hl : l.length = n + 1) : record (n + 1) x l = l.tail ++ [x] := by
  rw [record, if_neg hx, List.rtake_concat_succ, List.rtake, hl, Nat.add_sub_cancel_left,
    List.drop_one]

/-- The newest entry is the one recorded. -/
theorem getLast?_record (n : Nat) (x : α) (l : List α) :
    (record (n + 1) x l).getLast? = some x := by
  rw [record]
  split_ifs with h
  · exact h
  · rw [getLast?_rtake, List.getLast?_concat]

end Log

end RecentList
