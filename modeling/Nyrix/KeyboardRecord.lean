import Nyrix.Base.RecentList
import Nyrix.KeyboardKeys

/-!
# What Enter does

The command is taken from the line up to the cursor, and the history records it: its entries,
read as strings, change as a bounded list of recent commands does.
-/

namespace Keyboard

open BoundedLoop CharBuffer RecentList

def entriesOf (rows : Nat → Buffer) (count : Int) : List (List (BitVec 8)) :=
  (List.range count.toNat).map fun r => string bufferSize (rows r)

/-- The history as a list of strings, oldest first. -/
def entries (s : State) : List (List (BitVec 8)) := entriesOf s.history s.historyCount

theorem entriesOf_length (rows : Nat → Buffer) (count : Int) :
    (entriesOf rows count).length = count.toNat := by
  rw [entriesOf, List.length_map, List.length_range]

/-- One more row in use. -/
theorem entriesOf_succ (rows : Nat → Buffer) {count : Int} (h : 0 ≤ count) :
    entriesOf rows (count + 1) =
      entriesOf rows count ++ [string bufferSize (rows count.toNat)] := by
  have hsucc : (count + 1).toNat = count.toNat + 1 := by omega
  rw [entriesOf, hsucc, List.range_succ, List.map_append, List.map_singleton, entriesOf]

theorem entriesOf_congr {rows rows' : Nat → Buffer} {count : Int}
    (h : ∀ r < count.toNat, ∀ j < 256, rows r j = rows' r j) :
    entriesOf rows count = entriesOf rows' count :=
  List.map_congr_left fun r hr => string_congr fun j hj => h r (List.mem_range.mp hr) j hj

theorem string_entryRow {line old : Buffer} {e : Nat} (h : NulAt line 0 e) (he : e < 256) :
    string bufferSize (entryRow line old e) = string bufferSize line := by
  rw [string_eq (n := bufferSize) (nulAt_entryRow h) he, string_eq (n := bufferSize) h he]
  exact List.map_congr_left fun j hj => if_pos (List.mem_range.mp hj)

section Record

variable {s : State}

theorem isDuplicate_eq (h : Valid s) : isDuplicate s =
    some (decide ((entries s).getLast? = some (string bufferSize s.inputBuffer))) := by
  have hcount := h.count
  obtain ⟨e, he, hnul⟩ := h.nulAt (Nat.zero_le 255)
  by_cases hpos : s.historyCount > 0
  · obtain ⟨e', he', hlast⟩ := h.rows (s.historyCount - 1).toNat (by omega)
    obtain ⟨i, hi, hie, _, hsame, hstop⟩ :=
      matchLen_spec (n := bufferSize) hnul (Nat.lt_succ_of_le he) hlast
    have hlt : i < bufferSize := Nat.lt_of_le_of_lt hie (Nat.lt_succ_of_le he)
    have hnewest : (entries s).getLast? =
        some (string bufferSize (s.history (s.historyCount - 1).toNat)) := by
      have hcount' : 0 ≤ s.historyCount - 1 := by omega
      have hsplit := entriesOf_succ s.history hcount'
      rw [Int.sub_add_cancel] at hsplit
      rw [entries, hsplit, List.getLast?_concat]
    have hiff := string_eq_iff (n := bufferSize) hnul (Nat.lt_succ_of_le he) hlast he' hie hsame
      hstop
    rw [isDuplicate, if_pos hpos, historyRow_eq (by omega) (by omega), Option.bind_some, hi,
      Option.bind_some, read_some _ hlt, Option.bind_some, read_some _ hlt, Option.map_some,
      hnewest]
    refine congrArg some (decide_eq_decide.mpr ?_)
    rw [Option.some.injEq]
    exact hiff.trans eq_comm
  · have hzero : s.historyCount.toNat = 0 := by omega
    rw [isDuplicate, if_neg hpos, entries, entriesOf, hzero]
    rfl

/-- The history after a command, as a list of recent commands. -/
theorem addHistory_eq (h : Valid s) : ∃ rows count,
    addHistory s = some { s with history := rows, historyCount := count } ∧
      entriesOf rows count = record maxHistory (string bufferSize s.inputBuffer) (entries s) := by
  have hcount := h.count
  have hlen := entriesOf_length s.history s.historyCount
  obtain ⟨e, he, hnul⟩ := h.nulAt (Nat.zero_le 255)
  have hlt := Nat.lt_succ_of_le he
  rw [addHistory, isDuplicate_eq h, Option.bind_some]
  by_cases hdup : (entries s).getLast? = some (string bufferSize s.inputBuffer)
  · rw [decide_eq_true hdup, if_pos rfl, record, if_pos hdup]
    exact ⟨s.history, s.historyCount, rfl, rfl⟩
  rw [decide_eq_false hdup, if_neg Bool.false_ne_true]
  by_cases hroom : s.historyCount < (maxHistory : Int)
  · have hrow : historyRow s s.historyCount = some (s.history s.historyCount.toNat) :=
      historyRow_eq hcount.1 hroom
    refine ⟨Function.update s.history s.historyCount.toNat
      (entryRow s.inputBuffer (s.history s.historyCount.toNat) e), s.historyCount + 1, ?_, ?_⟩
    · rw [if_pos hroom]
      dsimp only
      rw [hrow, Option.bind_some, copyString_eq (n := bufferSize) _ hnul hlt, Option.map_some]
      rfl
    · have hfew : (entries s).length < maxHistory := by
        rw [entries, hlen]
        omega
      rw [record_of_lt hdup hfew, entriesOf_succ _ hcount.1, Function.update_self,
        string_entryRow hnul hlt]
      congr 1
      refine entriesOf_congr fun r hr j _ => ?_
      rw [Function.update_of_ne (Nat.ne_of_lt hr)]
  · obtain ⟨rows, hshift, hmoved, _⟩ := shiftHistory_eq s.history
    have hten : s.historyCount = 10 := by
      have hmax : (maxHistory : Int) = 10 := rfl
      omega
    refine ⟨Function.update rows 9 (entryRow s.inputBuffer (rows 9) e), s.historyCount, ?_, ?_⟩
    · rw [if_neg hroom, hshift, Option.bind_some, copyString_eq (n := bufferSize) _ hnul hlt,
        Option.map_some]
      rfl
    · have hfull : (entries s).length = 9 + 1 := by
        rw [entries, hlen, hten]
        rfl
      have hsplit : entriesOf (Function.update rows 9 (entryRow s.inputBuffer (rows 9) e)) 10 =
          entriesOf (Function.update rows 9 (entryRow s.inputBuffer (rows 9) e)) 9 ++
            [string bufferSize (entryRow s.inputBuffer (rows 9) e)] := by
        refine (entriesOf_succ _ (by decide : (0 : Int) ≤ 9)).trans ?_
        rw [show (9 : Int).toNat = 9 from rfl, Function.update_self]
      have hrecord : record maxHistory (string bufferSize s.inputBuffer) (entries s) =
          (entries s).tail ++ [string bufferSize s.inputBuffer] := record_of_eq hdup hfull
      rw [hrecord, hten, hsplit, string_entryRow hnul hlt, entries, hten]
      refine congrArg (· ++ [string bufferSize s.inputBuffer]) ?_
      rw [entriesOf, entriesOf, ← List.map_tail]
      have htail : (List.range (10 : Int).toNat).tail = (List.range 9).map (· + 1) := rfl
      rw [htail, List.map_map]
      refine List.map_congr_left fun r hr => string_congr fun j hj => ?_
      have hr' : r < 9 := List.mem_range.mp hr
      rw [Function.update_of_ne (Nat.ne_of_lt hr'), hmoved r hr' j hj]

/-- The text in front of the cursor. -/
def beforeCursor (s : State) : List (BitVec 8) := (List.range s.inputPos).map s.inputBuffer

/-- An empty line is not a command. -/
def commandOf (text : List (BitVec 8)) : List (List (BitVec 8)) := if text = [] then [] else [text]

theorem commandOf_inj {a b : List (BitVec 8)} (h : commandOf a = commandOf b) : a = b := by
  rw [commandOf, commandOf] at h
  split_ifs at h with ha hb hb
  · rw [ha, hb]
  · exact List.head_eq_of_cons_eq h

theorem beforeCursor_nil : beforeCursor s = [] ↔ s.inputPos = 0 := by
  rw [beforeCursor, List.map_eq_nil_iff, List.range_eq_nil]

theorem commandOf_beforeCursor :
    commandOf (beforeCursor s) = if s.inputPos = 0 then [] else [beforeCursor s] :=
  if_congr beforeCursor_nil rfl rfl

/-- No NUL stands in front of the cursor. -/
def TextBefore (s : State) : Prop := ∀ j < s.inputPos, s.inputBuffer j ≠ 0

/-- The line as `endLine` leaves it. -/
def cutLine (s : State) : Buffer := Function.update s.inputBuffer s.inputPos 0

theorem nulAt_cutLine (h : TextBefore s) : NulAt (cutLine s) 0 s.inputPos := by
  refine ⟨Nat.zero_le _, Function.update_self _ _ _, ?_⟩
  intro j _ hj
  rw [cutLine, Function.update_of_ne (Nat.ne_of_lt hj)]
  exact h j hj

theorem map_cutLine : (List.range s.inputPos).map (cutLine s) = beforeCursor s := by
  refine List.map_congr_left fun j hj => ?_
  rw [cutLine, Function.update_of_ne (Nat.ne_of_lt (List.mem_range.mp hj))]

theorem endLine_eq (h : Valid s) :
    endLine s = some (emit (.putchar 0x0A) { s with inputBuffer := cutLine s }) := by
  rw [endLine, write_some (n := bufferSize) _ _ (Nat.lt_succ_of_le h.pos), Option.map_some, cutLine]

theorem valid_cutLine (h : Valid s) :
    Valid (emit (.putchar 0x0A) { s with inputBuffer := cutLine s }) := by
  obtain ⟨t, ht, hvalid⟩ := fine_endLine h
  rwa [Option.some.inj ((endLine_eq h).symm.trans ht)]

/-- Enter passes on and records what stands in front of the cursor, if anything does. -/
theorem enter_eq (h : Valid s) (htext : TextBefore s) : ∃ rows count echo,
    enter s = some { s with
      inputBuffer := cutLine s
      inputPos := 0
      history := rows
      historyCount := count
      historyIndex := -1
      out := s.out ++ echo } ∧
    commands echo = commandOf (beforeCursor s) ∧
    entriesOf rows count =
      if s.inputPos = 0 then entries s else record maxHistory (beforeCursor s) (entries s) := by
  rw [enter, endLine_eq h, Option.bind_some, submit, commandOf_beforeCursor]
  by_cases hpos : s.inputPos = 0
  · have hnone : ¬(emit (.putchar 0x0A) { s with inputBuffer := cutLine s }).inputPos > 0 := by
      simp only [emit]
      omega
    rw [if_neg hnone, if_pos hpos, if_pos hpos]
    refine ⟨s.history, s.historyCount, [.putchar 0x0A, .write "nyrix> "], ?_, rfl, rfl⟩
    simp only [Option.map_some, freshPrompt, emit, List.append_assoc]
    rfl
  · have hsome : (emit (.putchar 0x0A) { s with inputBuffer := cutLine s }).inputPos > 0 :=
      Nat.pos_of_ne_zero hpos
    have hpos' := h.pos
    have hnul := nulAt_cutLine htext
    obtain ⟨rows, count, hadd, hentries⟩ := addHistory_eq ((valid_cutLine h).emit
      (.command (beforeCursor s)))
    rw [if_pos hsome, if_neg hpos, if_neg hpos, processCommand_eq hnul (Nat.lt_succ_of_le hpos')]
    refine ⟨rows, count, [.putchar 0x0A, .command (beforeCursor s), .write "nyrix> "], ?_, rfl, ?_⟩
    · have hmap : (List.range s.inputPos).map (emit (.putchar 0x0A)
          { s with inputBuffer := cutLine s }).inputBuffer = beforeCursor s := map_cutLine
      rw [Option.bind_some, hmap, hadd, Option.map_some]
      simp only [freshPrompt, emit, List.append_assoc]
      rfl
    · have hstring : string bufferSize (cutLine s) = beforeCursor s := by
        rw [string_eq (n := bufferSize) hnul (Nat.lt_succ_of_le hpos'), map_cutLine]
      rw [hentries]
      exact congrArg (record maxHistory · (entries s)) hstring

end Record

end Keyboard
