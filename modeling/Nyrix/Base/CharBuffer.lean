import Mathlib.Data.Nat.Find
import Nyrix.Base.BoundedLoop

/-!
# Character arrays of a C program

An array of `n` characters whose accesses are checked: a read or a write at `n` or beyond
fails. The loops below are those of string code that trusts a terminating NUL; each has a
closed form for an array in which the NUL is there.
-/

namespace CharBuffer

open BoundedLoop

abbrev Buffer := Nat → BitVec 8

/-- The characters of a literal. -/
def ascii (s : String) : List (BitVec 8) := s.toList.map fun c => BitVec.ofNat 8 c.toNat

def read (n : Nat) (b : Buffer) (i : Nat) : Option (BitVec 8) := if i < n then some (b i) else none

def write (n : Nat) (b : Buffer) (i : Nat) (c : BitVec 8) : Option Buffer :=
  if i < n then some (Function.update b i c) else none

theorem read_some {n i : Nat} (b : Buffer) (h : i < n) : read n b i = some (b i) := if_pos h

theorem write_some {n i : Nat} (b : Buffer) (c : BitVec 8) (h : i < n) :
    write n b i c = some (Function.update b i c) := if_pos h

theorem write_none {n i : Nat} (b : Buffer) (c : BitVec 8) (h : n ≤ i) : write n b i c = none :=
  if_neg (Nat.not_lt.mpr h)

/-- The first `len` characters, read one after the other. -/
def front (n : Nat) (b : Buffer) (len : Nat) : Option (List (BitVec 8)) :=
  if len ≤ n then some ((List.range len).map b) else none

theorem front_some {n len : Nat} (b : Buffer) (h : len ≤ n) :
    front n b len = some ((List.range len).map b) := if_pos h

/-- The first NUL from index `i` on is at index `e`. -/
structure NulAt (b : Buffer) (i e : Nat) : Prop where
  le : i ≤ e
  nul : b e = 0#8
  text : ∀ j, i ≤ j → j < e → b j ≠ 0#8

/-- From a character before the NUL on to the next. -/
theorem NulAt.next {b : Buffer} {i e : Nat} (h : NulAt b i e) (hi : i < e) : NulAt b (i + 1) e :=
  ⟨hi, h.nul, fun j hj he => h.text j (by omega) he⟩

/-- Some index from `i` on holds a NUL, so there is a first one. -/
theorem exists_nulAt {b : Buffer} {i k : Nat} (hik : i ≤ k) (hk : b k = 0#8) :
    ∃ e, e ≤ k ∧ NulAt b i e := by
  have hk' : b (i + (k - i)) = 0#8 := by rwa [Nat.add_sub_of_le hik]
  have hex : ∃ d, b (i + d) = 0#8 := ⟨k - i, hk'⟩
  refine ⟨i + Nat.find hex, ?_, Nat.le_add_right _ _, Nat.find_spec hex, ?_⟩
  · have hfirst := Nat.find_min' hex hk'
    omega
  · intro j hij hj hnul
    have hmin := Nat.find_min hex (m := j - i) (by omega)
    rw [Nat.add_sub_of_le hij] at hmin
    exact hmin hnul

/-- `while (b[i]) i++;` -/
def scan (n : Nat) (b : Buffer) (i : Nat) : Option Nat :=
  whileLoop? (fun i => (read n b i).map (· != 0#8)) (fun i => some (i + 1)) n i

/-- The scan stops at the first NUL. -/
theorem scan_eq {n : Nat} {b : Buffer} {i e : Nat} (h : NulAt b i e) (he : e < n) :
    scan n b i = some e := by
  have hend : i + (e - i) = e := Nat.add_sub_of_le h.le
  obtain ⟨t, ht, hP⟩ := whileLoop?_counted (fun i => (read n b i).map (· != 0#8))
    (fun i => some (i + 1)) (fun k j => j = i + k) (e - i) (s := i) rfl
    (by
      rintro k j hk rfl
      have htext := h.text (i + k) (by omega) (by omega)
      have hlt : i + k < n := by omega
      exact ⟨by simp [read_some b hlt, htext], _, rfl, rfl⟩)
    (by
      rintro j rfl
      rw [hend, read_some b he, h.nul]
      rfl)
    n (by omega)
  rw [scan, ht, hP, hend]

/-- `for (i = 0; i < len; ++i) dst[i] = src[i];` -/
def copy (n : Nat) (src : Buffer) (len : Nat) (dst : Buffer) : Option Buffer :=
  forUp? (fun i dst => (read n src i).bind (write n dst i)) 0 len dst

/-- One more character copied. -/
theorem update_copied (src dst : Buffer) (i : Nat) :
    Function.update (fun j => if j < i then src j else dst j) i (src i) =
      fun j => if j < i + 1 then src j else dst j := by
  funext j
  by_cases hj : j = i
  · rw [hj, Function.update_self, if_pos (Nat.lt_succ_self i)]
  · rw [Function.update_of_ne hj]
    exact if_congr (by omega) rfl rfl

theorem copy_eq {n len : Nat} (src dst : Buffer) (h : len ≤ n) :
    copy n src len dst = some (fun j => if j < len then src j else dst j) := by
  obtain ⟨t, ht, hP⟩ := forUp?_induct (fun i dst => (read n src i).bind (write n dst i))
    (fun i t => t = fun j => if j < i then src j else dst j) 0 len dst (by simp)
    (by
      rintro i t _ hi rfl
      refine ⟨_, ?_, update_copied src dst i⟩
      rw [read_some src (by omega), Option.bind_some, write_some _ _ (by omega)])
  rw [Nat.zero_add] at hP
  rw [copy, ht, hP]

/-- The characters above `lo` and up to the NUL at `e` moved down by one. -/
def closed (b : Buffer) (lo e : Nat) : Buffer := fun j => if lo ≤ j ∧ j < e then b (j + 1) else b j

/-- The characters from `lo` up to the NUL at `e` moved up by one. -/
def opened (b : Buffer) (lo e : Nat) : Buffer :=
  fun j => if lo < j ∧ j ≤ e + 1 then b (j - 1) else b j

theorem closed_self (b : Buffer) (lo : Nat) : closed b lo lo = b := by
  funext j
  exact if_neg (by omega)

theorem update_closed {b : Buffer} {lo i : Nat} (h : lo ≤ i) :
    Function.update (closed b lo i) i (closed b lo i (i + 1)) = closed b lo (i + 1) := by
  funext j
  by_cases hj : j = i
  · rw [hj, Function.update_self, closed, closed, if_neg (by omega), if_pos (by omega)]
  · rw [Function.update_of_ne hj, closed, closed]
    exact if_congr (by omega) rfl rfl

/-- The state of a loop over an array: the array and the index. -/
abbrev Cursor := Buffer × Nat

def notNul (n : Nat) (s : Cursor) : Option Bool := (read n s.1 s.2).map (· != 0#8)

/-- `b[i] = b[i + 1]; i++;` -/
def pullDown (n : Nat) (s : Cursor) : Option Cursor :=
  ((read n s.1 (s.2 + 1)).bind (write n s.1 s.2)).map (fun b => (b, s.2 + 1))

theorem pullDown_closed {n lo i : Nat} (b : Buffer) (hlo : lo ≤ i) (hi : i + 1 < n) :
    pullDown n (closed b lo i, i) = some (closed b lo (i + 1), i + 1) := by
  rw [pullDown, read_some _ hi, Option.bind_some, write_some _ _ (by omega), update_closed hlo,
    Option.map_some]

/-- `while (b[i]) { b[i] = b[i + 1]; i++; }` -/
def closeGap (n : Nat) (b : Buffer) (i : Nat) : Option Buffer :=
  (whileLoop? (notNul n) (pullDown n) n (b, i)).map Prod.fst

theorem closeGap_eq {n : Nat} {b : Buffer} {lo e : Nat} (h : NulAt b lo e) (he : e < n) :
    closeGap n b lo = some (closed b lo e) := by
  have hle := h.le
  have hend : lo + (e - lo) = e := Nat.add_sub_of_le hle
  obtain ⟨t, ht, hP⟩ := whileLoop?_counted (notNul n) (pullDown n)
    (fun k s => s = (closed b lo (lo + k), lo + k)) (e - lo) (s := (b, lo))
    (by rw [Nat.add_zero, closed_self])
    (by
      rintro k s hk rfl
      have htext := h.text (lo + k) (by omega) (by omega)
      have hlt : lo + k < n := by omega
      refine ⟨?_, _, pullDown_closed b (by omega) (by omega), rfl⟩
      simp [notNul, read_some _ hlt, closed, htext])
    (by
      rintro s rfl
      rw [hend, notNul, read_some _ he]
      simp [closed, h.nul])
    n (by omega)
  rw [closeGap, ht, hP, Option.map_some, hend]

/-- `b[i] = b[i + 1]; if (!b[i]) break; ++i;` where the flag is the break. -/
def pullBack (n : Nat) (s : Cursor × Bool) : Option (Cursor × Bool) :=
  (pullDown n s.1).map (fun t => (t, t.1 s.1.2 == 0#8))

/-- `for (; i < n - 1; ++i) { b[i] = b[i + 1]; if (!b[i]) break; }` -/
def closeGapBreak (n : Nat) (b : Buffer) (i : Nat) : Option Buffer :=
  (whileLoop? (fun s : Cursor × Bool => some (!s.2 && decide (s.1.2 < n - 1))) (pullBack n) n
    ((b, i), false)).map (fun s => s.1.1)

/-- The NUL that ends the loop is looked for above the character that goes away. -/
theorem closeGapBreak_eq {n : Nat} {b : Buffer} {lo e : Nat} (h : NulAt b (lo + 1) e)
    (he : e < n) : closeGapBreak n b lo = some (closed b lo e) := by
  have hle := h.le
  obtain ⟨t, ht, hP⟩ := whileLoop?_counted
    (fun s : Cursor × Bool => some (!s.2 && decide (s.1.2 < n - 1))) (pullBack n)
    (fun k s => s = ((closed b lo (lo + k), lo + k), decide (k = e - lo))) (e - lo)
    (s := ((b, lo), false))
    (by rw [Nat.add_zero, closed_self, decide_eq_false (by omega)])
    (by
      rintro k s hk rfl
      refine ⟨?_, _, by rw [pullBack, pullDown_closed b (by omega) (by omega), Option.map_some], ?_⟩
      · have hne : ¬k = e - lo := by omega
        have hlt : lo + k < n - 1 := by omega
        rw [decide_eq_false hne, decide_eq_true hlt]
        rfl
      · -- the character just moved is the NUL in the last round only
        have hmoved : closed b lo (lo + k + 1) (lo + k) = b (lo + k + 1) :=
          if_pos ⟨by omega, by omega⟩
        dsimp only
        rw [hmoved, ← Nat.add_assoc]
        by_cases hlast : lo + k + 1 = e
        · have hk' : k + 1 = e - lo := by omega
          rw [decide_eq_true hk', hlast, h.nul]
          rfl
        · have hk' : ¬k + 1 = e - lo := by omega
          rw [decide_eq_false hk']
          simp [h.text (lo + k + 1) (by omega) (by omega)])
    (by
      rintro s rfl
      rw [decide_eq_true rfl]
      rfl)
    n (by omega)
  rw [closeGapBreak, ht, hP, Option.map_some, Nat.add_sub_of_le (Nat.le_of_succ_le hle)]

/-- `for (i = len + 1; i > lo; --i) b[i] = b[i - 1];` -/
def openGap (n : Nat) (b : Buffer) (lo len : Nat) : Option Buffer :=
  forUp? (fun k b => (read n b (len + 1 - k - 1)).bind (write n b (len + 1 - k))) 0 (len + 1 - lo) b

theorem openGap_eq {n : Nat} (b : Buffer) {lo len : Nat} (hlo : lo ≤ len) (hlen : len + 1 < n) :
    openGap n b lo len = some (opened b lo len) := by
  obtain ⟨t, ht, hP⟩ := forUp?_induct
    (fun k b => (read n b (len + 1 - k - 1)).bind (write n b (len + 1 - k)))
    (fun k t => t = opened b (len + 1 - k) len) 0 (len + 1 - lo) b
    (by
      funext j
      exact (if_neg (by omega)).symm)
    (by
      rintro k t _ hk rfl
      refine ⟨_, by rw [read_some _ (by omega), Option.bind_some, write_some _ _ (by omega)], ?_⟩
      funext j
      by_cases hj : j = len + 1 - k
      · subst hj
        rw [Function.update_self, opened, opened, if_neg (by omega), if_pos (by omega)]
      · rw [Function.update_of_ne hj, opened, opened]
        by_cases hin : len + 1 - k < j ∧ j ≤ len + 1
        · rw [if_pos hin, if_pos (by omega)]
        · rw [if_neg hin, if_neg (by omega)])
  have hlast : len + 1 - (0 + (len + 1 - lo)) = lo := by omega
  rw [openGap, ht, hP, hlast]

/-- With the NUL in the last place there is no room for it to move up. -/
theorem openGap_none {n : Nat} (b : Buffer) {lo len : Nat} (hlo : lo ≤ len) (hlen : n ≤ len + 1) :
    openGap n b lo len = none := by
  have hrounds : len + 1 - lo = len - lo + 1 := by omega
  rw [openGap, hrounds, forUp?]
  cases h : read n b (len + 1 - 0 - 1) with
  | none => rfl
  | some c =>
    rw [Option.bind_some, write_none _ _ (by omega)]
    rfl

/-- `while (a[i] && b[i] && a[i] == b[i]) i++;` -/
def matchLen (n : Nat) (a b : Buffer) : Option Nat :=
  whileLoop? (fun i => (read n a i).bind fun x =>
    if x = 0#8 then some false else (read n b i).map fun y => decide (y ≠ 0#8 ∧ x = y))
    (fun i => some (i + 1)) n 0

/-- The loop ends where one of two terminated strings ends or they differ. -/
theorem matchLen_spec {n : Nat} {a b : Buffer} {e e' : Nat} (ha : NulAt a 0 e) (he : e < n)
    (hb : NulAt b 0 e') :
    ∃ i, matchLen n a b = some i ∧ i ≤ e ∧ i ≤ e' ∧ (∀ j < i, a j = b j) ∧
      (a i = 0#8 ∨ b i = 0#8 ∨ a i ≠ b i) := by
  have hex : ∃ i, a i = 0#8 ∨ b i = 0#8 ∨ a i ≠ b i := ⟨e, .inl ha.nul⟩
  have hstop := Nat.find_spec hex
  have hgo : ∀ j < Nat.find hex, a j ≠ 0#8 ∧ b j ≠ 0#8 ∧ a j = b j := by
    intro j hj
    have := Nat.find_min hex hj
    simpa [not_or] using this
  have hie : Nat.find hex ≤ e := Nat.find_min' hex (.inl ha.nul)
  have hie' : Nat.find hex ≤ e' := Nat.find_min' hex (.inr (.inl hb.nul))
  generalize Nat.find hex = m at hstop hgo hie hie'
  refine ⟨m, ?_, hie, hie', fun j hj => (hgo j hj).2.2, hstop⟩
  obtain ⟨t, ht, hP⟩ := whileLoop?_counted
    (fun i => (read n a i).bind fun x =>
      if x = 0#8 then some false else (read n b i).map fun y => decide (y ≠ 0#8 ∧ x = y))
    (fun i => some (i + 1)) (fun k i => i = k) m (s := 0) rfl
    (by
      rintro k i hk rfl
      obtain ⟨hx, hy, hxy⟩ := hgo i hk
      refine ⟨?_, _, rfl, rfl⟩
      rw [read_some a (by omega), Option.bind_some, if_neg hx, read_some b (by omega),
        Option.map_some, decide_eq_true ⟨hy, hxy⟩])
    (by
      rintro i rfl
      rw [read_some a (by omega), Option.bind_some]
      by_cases hx : a i = 0#8
      · rw [if_pos hx]
      · rw [if_neg hx, read_some b (by omega), Option.map_some, decide_eq_false]
        rintro ⟨hy, hxy⟩
        simp [hy, hxy] at hstop)
    n (by omega)
  rw [matchLen, ht, hP]

/-- `while (src[i]) { dst[i] = src[i]; i++; } dst[i] = 0;` -/
def copyString (n : Nat) (src dst : Buffer) : Option Buffer :=
  (whileLoop? (fun s : Cursor => (read n src s.2).map (· != 0#8))
    (fun s => ((read n src s.2).bind (write n s.1 s.2)).map (fun b => (b, s.2 + 1))) n
    (dst, 0)).bind fun s => write n s.1 s.2 0#8

theorem copyString_eq {n : Nat} {src : Buffer} (dst : Buffer) {e : Nat} (h : NulAt src 0 e)
    (he : e < n) : copyString n src dst =
      some (fun j => if j < e then src j else if j = e then 0#8 else dst j) := by
  obtain ⟨t, ht, hP⟩ := whileLoop?_counted
    (fun s : Cursor => (read n src s.2).map (· != 0#8))
    (fun s => ((read n src s.2).bind (write n s.1 s.2)).map (fun b => (b, s.2 + 1)))
    (fun k s => s = ((fun j => if j < k then src j else dst j), k)) e (s := (dst, 0)) (by simp)
    (by
      rintro k s hk rfl
      have hlt : k < n := by omega
      have htext := h.text k (Nat.zero_le k) hk
      refine ⟨by simp [read_some src hlt, htext], _, ?_, rfl⟩
      rw [read_some src hlt, Option.bind_some, write_some _ _ hlt, Option.map_some, update_copied])
    (by
      rintro s rfl
      rw [read_some src he, h.nul]
      rfl)
    n (by omega)
  rw [copyString, ht, hP, Option.bind_some, write_some _ _ he]
  congr 1
  funext j
  by_cases hj : j = e
  · subst hj
    simp
  · rw [Function.update_of_ne hj]
    simp [hj]

/-- The string an array of `n` characters holds: what stands before its first NUL. -/
def string (n : Nat) (b : Buffer) : List (BitVec 8) :=
  ((List.range n).map b).takeWhile (· != 0#8)

theorem string_eq {n : Nat} {b : Buffer} {e : Nat} (h : NulAt b 0 e) (he : e < n) :
    string n b = (List.range e).map b := by
  obtain ⟨k, rfl⟩ := Nat.exists_eq_add_of_lt he
  have htext : ∀ c ∈ (List.range e).map b, (c != 0#8) = true := by
    intro c hc
    obtain ⟨j, hj, rfl⟩ := List.mem_map.mp hc
    simpa using h.text j (Nat.zero_le j) (List.mem_range.mp hj)
  have hsplit : (List.range (e + k + 1)).map b =
      (List.range e).map b ++ b e :: (List.range k).map (fun j => b (e + (j + 1))) := by
    rw [Nat.add_assoc, List.range_add, List.map_append, List.range_succ_eq_map]
    simp [Function.comp_def]
  rw [string, hsplit, List.takeWhile_append_of_pos htext,
    List.takeWhile_cons_of_neg (by simp [h.nul]), List.append_nil]

theorem string_congr {n : Nat} {a b : Buffer} (h : ∀ j < n, a j = b j) : string n a = string n b := by
  rw [string, string, List.map_congr_left fun j hj => h j (List.mem_range.mp hj)]

theorem string_length {n : Nat} {b : Buffer} {e : Nat} (h : NulAt b 0 e) (he : e < n) :
    (string n b).length = e := by
  rw [string_eq h he, List.length_map, List.length_range]

/-- The string of a terminated array ends where a text without NUL in front does exactly when
the text is followed by a NUL. -/
theorem string_front_iff {n : Nat} {b : Buffer} {e p : Nat} (h : NulAt b 0 e) (he : e < n)
    (htext : ∀ j < p, b j ≠ 0#8) : string n b = (List.range p).map b ↔ b p = 0#8 := by
  constructor
  · intro heq
    have hlen := string_length h he
    rw [heq, List.length_map, List.length_range] at hlen
    rw [hlen]
    exact h.nul
  · intro hnul
    have hep : e = p := by
      rcases Nat.lt_trichotomy e p with hlt | heq | hgt
      · exact absurd h.nul (htext e hlt)
      · exact heq
      · exact absurd hnul (h.text p (Nat.zero_le p) hgt)
    rw [string_eq h he, hep]

/-- Two strings compared up to where the loop ends are equal when both end there. -/
theorem string_eq_iff {n : Nat} {a b : Buffer} {e e' i : Nat} (ha : NulAt a 0 e) (he : e < n)
    (hb : NulAt b 0 e') (he' : e' < n) (hi : i ≤ e) (hsame : ∀ j < i, a j = b j)
    (hstop : a i = 0#8 ∨ b i = 0#8 ∨ a i ≠ b i) :
    (a i = 0#8 ∧ b i = 0#8) ↔ string n a = string n b := by
  constructor
  · rintro ⟨hai, hbi⟩
    have hie : i = e := by
      by_contra hne
      exact ha.text i (Nat.zero_le i) (by omega) hai
    subst hie
    have hie' : e' = i := by
      by_contra hne
      rcases Nat.lt_or_gt_of_ne hne with hlt | hgt
      · exact ha.text e' (Nat.zero_le _) hlt ((hsame e' hlt).trans hb.nul)
      · exact hb.text i (Nat.zero_le i) hgt hbi
    subst hie'
    rw [string_eq ha he, string_eq hb he']
    exact List.map_congr_left fun j hj => hsame j (List.mem_range.mp hj)
  · intro heq
    have hlen : e = e' := by
      rw [← string_length ha he, heq, string_length hb he']
    subst hlen
    rw [string_eq ha he, string_eq hb he', List.map_inj_left] at heq
    rcases Nat.lt_or_ge i e with hlt | hge
    · have hai := ha.text i (Nat.zero_le i) hlt
      have hbi := hb.text i (Nat.zero_le i) hlt
      rcases hstop with hz | hz | hne
      · exact absurd hz hai
      · exact absurd hz hbi
      · exact absurd (heq i (List.mem_range.mpr hlt)) hne
    · obtain rfl : i = e := Nat.le_antisymm hi hge
      exact ⟨ha.nul, hb.nul⟩

end CharBuffer
