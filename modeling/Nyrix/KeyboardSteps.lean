import Nyrix.Keyboard

/-!
# What each key does

Closed forms of the handlers, for a line and strings that are terminated inside their arrays.
-/

namespace Keyboard

open BoundedLoop CharBuffer

section Step

variable {s : State}

theorem redrawInput_eq (h : s.inputPos ≤ 255) : redrawInput s =
    some (emit (.redraw ((List.range s.inputPos).map s.inputBuffer)) s) := by
  have hle : s.inputPos ≤ bufferSize := by
    simp only [bufferSize]
    omega
  rw [redrawInput, front_some _ hle, Option.map_some]

theorem processCommand_eq {e : Nat} (h : NulAt s.inputBuffer 0 e) (he : e < 256) :
    processCommand s = some (emit (.command ((List.range e).map s.inputBuffer)) s) := by
  rw [processCommand, scan_eq (n := bufferSize) h he, Option.bind_some,
    front_some (n := bufferSize) _ (Nat.le_of_lt he), Option.map_some]

/-- The line after `recallCommand`: what lies past the string is still there. -/
def recalled (cmd : Buffer) (e : Nat) (s : State) : State :=
  { s with
    inputBuffer := fun j => if j < e then cmd j else s.inputBuffer j
    inputPos := e }

theorem recallCommand_eq {cmd : Buffer} {e : Nat} (h : NulAt cmd 0 e) (he : e < 256) :
    recallCommand cmd s = some (recalled cmd e s) := by
  rw [recallCommand, scan_eq (n := bufferSize) h he, Option.bind_some,
    copy_eq (n := bufferSize) _ _ (Nat.le_of_lt he), Option.map_some, recalled]

/-- The line as `saveInput` keeps it, cut at the cursor. -/
def savedLine (s : State) : Buffer :=
  Function.update (fun j => if j < s.inputPos then s.inputBuffer j else s.savedInput j) s.inputPos 0

theorem saveInput_eq (h : s.inputPos ≤ 255) : saveInput s =
    some { s with savedInput := savedLine s, historyIndex := s.historyCount - 1 } := by
  have hlt : s.inputPos < bufferSize := by
    simp only [bufferSize]
    omega
  rw [saveInput, copy_eq _ _ (Nat.le_of_lt hlt), Option.bind_some, write_some _ _ hlt,
    Option.map_some, savedLine]

theorem historyRow_eq {r : Int} (h0 : 0 ≤ r) (h : r < 10) :
    historyRow s r = some (s.history r.toNat) := if_pos ⟨h0, h⟩

theorem arrowRight_eq (h : s.inputPos ≤ 255) : arrowRight s =
    redrawInput (if s.inputPos < 255 ∧ s.inputBuffer s.inputPos ≠ 0 then
      { s with inputPos := s.inputPos + 1 } else s) := by
  by_cases hlt : s.inputPos < 255
  · have hroom : s.inputPos < bufferSize - 1 := hlt
    rw [arrowRight, if_pos hroom, read_some (n := bufferSize) _ (Nat.lt_succ_of_le h),
      Option.bind_some]
    simp only [hlt, true_and]
  · have hfull : ¬s.inputPos < bufferSize - 1 := hlt
    rw [arrowRight, if_neg hfull, if_neg (fun h => hlt h.1)]

theorem endKey_eq {e : Nat} (h : NulAt s.inputBuffer s.inputPos e) (he : e ≤ 255) :
    endKey s = redrawInput { s with inputPos := e } := by
  have hle := h.le
  have hend : s.inputPos + (e - s.inputPos) = e := Nat.add_sub_of_le hle
  obtain ⟨t, ht, hP⟩ := whileLoop?_counted
    (fun i => (read bufferSize s.inputBuffer i).map fun c =>
      c != 0 && decide (i < bufferSize - 1)) (fun i => some (i + 1))
    (fun k i => i = s.inputPos + k) (e - s.inputPos) (s := s.inputPos) rfl
    (by
      rintro k i hk rfl
      have hlt : s.inputPos + k < 255 := by omega
      have hroom : s.inputPos + k < bufferSize - 1 := hlt
      have htext := h.text (s.inputPos + k) (by omega) (by omega)
      refine ⟨?_, _, rfl, rfl⟩
      rw [read_some (n := bufferSize) _ (Nat.lt_succ_of_lt hlt), Option.map_some,
        decide_eq_true hroom]
      simp [htext])
    (by
      rintro i rfl
      rw [hend, read_some (n := bufferSize) _ (Nat.lt_succ_of_le he), h.nul]
      rfl)
    bufferSize (by
      simp only [bufferSize]
      omega)
  rw [endKey, ht, hP, Option.bind_some, hend]

theorem deleteKey_eq {e : Nat} (h : NulAt s.inputBuffer s.inputPos e) (he : e < 256) :
    deleteKey s = if s.inputBuffer s.inputPos ≠ 0 then
      redrawInput { s with inputBuffer := closed s.inputBuffer s.inputPos e } else some s := by
  rw [deleteKey, read_some (n := bufferSize) _ (Nat.lt_of_le_of_lt h.le he), Option.bind_some]
  by_cases hc : s.inputBuffer s.inputPos ≠ 0
  · rw [if_pos hc, if_pos hc, closeGap_eq (n := bufferSize) h he, Option.bind_some]
  · rw [if_neg hc, if_neg hc]

theorem backspace_eq {e : Nat} (hpos : 0 < s.inputPos) (h : NulAt s.inputBuffer s.inputPos e)
    (he : e < 256) : backspace s = some (emit (.putchar 0x08)
      { s with
        inputBuffer := closed s.inputBuffer (s.inputPos - 1) e
        inputPos := s.inputPos - 1 }) := by
  have h' : NulAt s.inputBuffer (s.inputPos - 1 + 1) e := by
    rwa [Nat.sub_add_cancel hpos]
  rw [backspace, if_pos hpos, closeGapBreak_eq (n := bufferSize) h' he, Option.map_some]

/-- The line with room for a character at the cursor. -/
def roomy (s : State) (e : Nat) : Buffer :=
  if s.inputBuffer s.inputPos ≠ 0 then opened s.inputBuffer s.inputPos e else s.inputBuffer

theorem makeRoom_eq {e : Nat} (h : NulAt s.inputBuffer s.inputPos e) (he : e < 255) :
    makeRoom s = some (roomy s e) := by
  rw [makeRoom, read_some (n := bufferSize) _ (Nat.lt_of_le_of_lt h.le (Nat.lt_succ_of_lt he)),
    Option.bind_some, roomy]
  by_cases hc : s.inputBuffer s.inputPos ≠ 0
  · rw [if_pos hc, if_pos hc, scan_eq (n := bufferSize) h (Nat.lt_succ_of_lt he), Option.bind_some,
      openGap_eq (n := bufferSize) _ h.le (Nat.succ_lt_succ he)]
  · rw [if_neg hc, if_neg hc]

/-- A line that is full up to its last place cannot move up. -/
theorem makeRoom_none (h : NulAt s.inputBuffer s.inputPos 255) (hpos : s.inputPos < 255) :
    makeRoom s = none := by
  have htext : s.inputBuffer s.inputPos ≠ 0 := h.text s.inputPos (Nat.le_refl _) hpos
  rw [makeRoom, read_some (n := bufferSize) _ (Nat.lt_succ_of_lt hpos), Option.bind_some,
    if_pos htext, scan_eq (n := bufferSize) h (Nat.lt_succ_self 255), Option.bind_some,
    openGap_none (n := bufferSize) _ h.le (Nat.le_refl 256)]

theorem insertChar_eq {e : Nat} (c : BitVec 8) (h : NulAt s.inputBuffer s.inputPos e)
    (he : e < 255) : insertChar c s = redrawInput (emit (.putchar c)
      { s with
        inputBuffer := Function.update (roomy s e) s.inputPos c
        inputPos := s.inputPos + 1 }) := by
  have hlt : s.inputPos < 255 := Nat.lt_of_le_of_lt h.le he
  have hroom : s.inputPos < bufferSize - 1 := hlt
  rw [insertChar, if_pos hroom, makeRoom_eq h he, Option.bind_some,
    write_some (n := bufferSize) _ _ (Nat.lt_succ_of_lt hlt), Option.bind_some]

/-- With the cursor in the last place nothing is inserted. -/
theorem insertChar_full (c : BitVec 8) (h : ¬s.inputPos < 255) : insertChar c s = some s :=
  if_neg h

theorem shiftHistory_eq (h : Nat → Buffer) : ∃ h', shiftHistory h = some h' ∧
    (∀ r < 9, ∀ j < 256, h' r j = h (r + 1) j) ∧ ∀ r, 9 ≤ r → h' r = h r := by
  obtain ⟨t, ht, hmoved, hrest⟩ := forUp?_induct
    (fun i h => (copy bufferSize (h i) bufferSize (h (i - 1))).map (Function.update h (i - 1)))
    (fun i h' => (∀ r, r + 1 < i → ∀ j < 256, h' r j = h (r + 1) j) ∧ ∀ r, i ≤ r + 1 → h' r = h r)
    1 9 h ⟨fun r hr => absurd hr (by omega), fun _ _ => rfl⟩
    (by
      rintro i t hi hlt ⟨hmoved, hrest⟩
      refine ⟨_, by rw [copy_eq (n := bufferSize) _ _ (Nat.le_refl _), Option.map_some], ?_, ?_⟩
      · intro r hr j hj
        by_cases hri : r = i - 1
        · subst hri
          have hj' : j < bufferSize := hj
          rw [Function.update_self, if_pos hj', hrest i (by omega), Nat.sub_add_cancel hi]
        · rw [Function.update_of_ne hri]
          exact hmoved r (by omega) j hj
      · intro r hr
        have hne : r ≠ i - 1 := by omega
        rw [Function.update_of_ne hne]
        exact hrest r (by omega))
  exact ⟨t, ht, fun r hr j hj => hmoved r (by omega) j hj, fun r hr => hrest r (by omega)⟩

/-- The comparison with the newest entry stays inside both strings. -/
theorem isDuplicate_some {e : Nat} (h : NulAt s.inputBuffer 0 e) (he : e < 256)
    (hcount : 0 ≤ s.historyCount ∧ s.historyCount ≤ 10)
    (hrows : ∀ r < 10, ∃ e < 256, NulAt (s.history r) 0 e) : ∃ d, isDuplicate s = some d := by
  by_cases hpos : s.historyCount > 0
  · obtain ⟨e', _, hlast⟩ := hrows (s.historyCount - 1).toNat (by omega)
    obtain ⟨i, hi, hie, _⟩ := matchLen_spec (n := bufferSize) h he hlast
    have hlt : i < bufferSize := Nat.lt_of_le_of_lt hie he
    refine ⟨decide (s.inputBuffer i = 0 ∧ s.history (s.historyCount - 1).toNat i = 0), ?_⟩
    rw [isDuplicate, if_pos hpos, historyRow_eq (by omega) (by omega), Option.bind_some, hi,
      Option.bind_some, read_some _ hlt, Option.bind_some, read_some _ hlt, Option.map_some]
  · exact ⟨false, if_neg hpos⟩

/-- A history row after the line has been copied to it. -/
def entryRow (line old : Buffer) (e : Nat) : Buffer :=
  fun j => if j < e then line j else if j = e then 0 else old j

/-- A command is dropped, appended, or appended after the oldest has been given up. -/
theorem addHistory_cases {e : Nat} (h : NulAt s.inputBuffer 0 e) (he : e < 256)
    (hcount : 0 ≤ s.historyCount ∧ s.historyCount ≤ 10)
    (hrows : ∀ r < 10, ∃ e < 256, NulAt (s.history r) 0 e) :
    addHistory s = some s ∨
      (s.historyCount < 10 ∧ addHistory s = some { s with
        historyCount := s.historyCount + 1
        history := Function.update s.history s.historyCount.toNat
          (entryRow s.inputBuffer (s.history s.historyCount.toNat) e) }) ∨
      (s.historyCount = 10 ∧ ∃ rows, shiftHistory s.history = some rows ∧
        addHistory s = some { s with
          history := Function.update rows 9 (entryRow s.inputBuffer (rows 9) e) }) := by
  obtain ⟨d, hd⟩ := isDuplicate_some h he hcount hrows
  rw [addHistory, hd, Option.bind_some]
  cases d with
  | true => exact .inl rfl
  | false =>
    rw [if_neg Bool.false_ne_true]
    by_cases hlt : s.historyCount < 10
    · have hroom : s.historyCount < (maxHistory : Int) := hlt
      refine .inr (.inl ⟨hlt, ?_⟩)
      rw [if_pos hroom]
      simp only [historyRow_eq hcount.1 hlt, Option.bind_some,
        copyString_eq (n := bufferSize) _ h he, Option.map_some]
      rfl
    · have hfull : ¬s.historyCount < (maxHistory : Int) := hlt
      obtain ⟨rows, hshift, _⟩ := shiftHistory_eq s.history
      refine .inr (.inr ⟨by omega, rows, hshift, ?_⟩)
      rw [if_neg hfull, hshift, Option.bind_some,
        copyString_eq (n := bufferSize) _ h he, Option.map_some]
      rfl

end Step

end Keyboard
