import Mathlib.Data.List.Induction
import Nyrix.KeyboardSteps

/-!
# Which keys leave the arrays

The last character of the line buffer stays NUL through every key, and so every scan ends
inside it. The one exception moves that NUL up: a character inserted where no NUL lies
between the cursor and the last place.
-/

namespace Keyboard

open BoundedLoop CharBuffer

/-- What holds after every scancode handled. -/
structure Valid (s : State) : Prop where
  pos : s.inputPos ≤ 255
  last : s.inputBuffer 255 = 0#8
  saved : ∃ e < 256, NulAt s.savedInput 0 e
  rows : ∀ r < 10, ∃ e < 256, NulAt (s.history r) 0 e
  count : 0 ≤ s.historyCount ∧ s.historyCount ≤ 10
  index : -1 ≤ s.historyIndex ∧ s.historyIndex < s.historyCount

/-- A step that stays inside the arrays. -/
def Fine (r : Option State) : Prop := ∃ t, r = some t ∧ Valid t

/-- The state with another place in the history. -/
def State.browsed (s : State) (saved : Buffer) (index : Int) : State :=
  { s with savedInput := saved, historyIndex := index }

theorem valid_boot : Valid State.boot where
  pos := Nat.zero_le _
  last := rfl
  saved := ⟨0, by decide, Nat.le_refl _, rfl, fun _ _ hj => absurd hj (Nat.not_lt_zero _)⟩
  rows := fun _ _ => ⟨0, by decide, Nat.le_refl _, rfl, fun _ _ hj => absurd hj (Nat.not_lt_zero _)⟩
  count := by decide
  index := by decide

theorem fine_bind {r : Option State} {f : State → Option State} (hr : Fine r)
    (hf : ∀ t, Valid t → Fine (f t)) : Fine (r.bind f) := by
  obtain ⟨t, rfl, ht⟩ := hr
  exact hf t ht

section Valid

variable {s : State}

/-- A terminated line with the cursor inside is all that an editing key has to leave. -/
theorem Valid.edit (h : Valid s) {b : Buffer} {pos : Nat} (hb : b 255 = 0#8) (hpos : pos ≤ 255) :
    Valid { s with inputBuffer := b, inputPos := pos } :=
  ⟨hpos, hb, h.saved, h.rows, h.count, h.index⟩

theorem Valid.emit (h : Valid s) (e : Event) : Valid (emit e s) :=
  ⟨h.pos, h.last, h.saved, h.rows, h.count, h.index⟩

theorem Valid.flags (h : Valid s) (shift caps ext : Bool) :
    Valid { s with shiftPressed := shift, capsLock := caps, extended := ext } :=
  ⟨h.pos, h.last, h.saved, h.rows, h.count, h.index⟩

/-- The first NUL from the cursor on. -/
theorem Valid.nulAt (h : Valid s) {i : Nat} (hi : i ≤ 255) :
    ∃ e, e ≤ 255 ∧ NulAt s.inputBuffer i e := exists_nulAt hi h.last

theorem fine_redraw (h : Valid s) : Fine (redrawInput s) :=
  ⟨_, redrawInput_eq h.pos, h.emit _⟩

theorem closed_last {b : Buffer} {lo e : Nat} (hb : b 255 = 0#8) (he : e ≤ 255) :
    closed b lo e 255 = 0#8 := by
  rw [closed, if_neg (by omega), hb]

theorem opened_last {b : Buffer} {lo e : Nat} (hb : b 255 = 0#8) (h : NulAt b lo e)
    (he : e < 255) : opened b lo e 255 = 0#8 := by
  rw [opened]
  by_cases hin : lo < 255 ∧ 255 ≤ e + 1
  · rw [if_pos hin, show 255 - 1 = e by omega, h.nul]
  · rw [if_neg hin, hb]

theorem Valid.recalled (h : Valid s) (cmd : Buffer) {e : Nat} (he : e ≤ 255) :
    Valid (recalled cmd e s) :=
  h.edit ((if_neg (Nat.not_lt.mpr he)).trans h.last) he

/-- A string taken over into the line. -/
theorem fine_recall (h : Valid s) {cmd : Buffer} (hc : ∃ e < 256, NulAt cmd 0 e) :
    Fine (recallCommand cmd s) := by
  obtain ⟨e, he, hnul⟩ := hc
  exact ⟨_, recallCommand_eq hnul he, h.recalled cmd (Nat.le_of_lt_succ he)⟩

/-- The index moved to another entry, or off the history. -/
theorem Valid.moveIndex (h : Valid s) {i : Int} (hlow : -1 ≤ i) (hhigh : i < s.historyCount) :
    Valid { s with historyIndex := i } :=
  ⟨h.pos, h.last, h.saved, h.rows, h.count, hlow, hhigh⟩

/-- The arrow leaves everything as it is, or puts a stored text in place of the line and
remembers where it comes from. -/
def Recalls (r : Option State) (s : State) : Prop :=
  r = some s ∨ ∃ saved index cmd, (∃ e < 256, NulAt saved 0 e) ∧ (∃ e < 256, NulAt cmd 0 e) ∧
    (-1 ≤ index ∧ index < s.historyCount) ∧
    r = (recallCommand cmd (s.browsed saved index)).bind redrawInput

/-- A row of the history put in place of the line. -/
theorem recalls_row (h : Valid s) {saved : Buffer} (hsaved : ∃ e < 256, NulAt saved 0 e)
    {index : Int} (h0 : 0 ≤ index) (hlt : index < s.historyCount) :
    Recalls ((historyRow (s.browsed saved index) index).bind fun cmd =>
      (recallCommand cmd (s.browsed saved index)).bind redrawInput) s := by
  have hcount := h.count
  have hrow := h.rows index.toNat (by omega)
  rw [historyRow_eq h0 (by omega), Option.bind_some]
  exact .inr ⟨saved, index, _, hsaved, hrow, ⟨by omega, hlt⟩, rfl⟩

theorem arrowUp_recalls (h : Valid s) : Recalls (arrowUp s) s := by
  have hindex := h.index
  have hpos := h.pos
  by_cases hc : s.historyCount > 0
  · rw [arrowUp, if_pos hc]
    by_cases hnone : s.historyIndex = -1
    · obtain ⟨e, he, hnul⟩ := exists_nulAt (b := savedLine s) (Nat.zero_le s.inputPos)
        (Function.update_self _ _ _)
      have hsaved : ∃ e < 256, NulAt (savedLine s) 0 e := ⟨e, by omega, hnul⟩
      rw [if_pos hnone, saveInput_eq h.pos, Option.bind_some]
      exact recalls_row h hsaved (by omega) (by omega)
    rw [if_neg hnone]
    by_cases hup : s.historyIndex > 0
    · rw [if_pos hup, Option.bind_some]
      exact recalls_row h h.saved (by omega) (by omega)
    · rw [if_neg hup, Option.bind_some]
      exact recalls_row h h.saved (by omega) (by omega)
  · rw [arrowUp, if_neg hc]
    exact .inl rfl

theorem arrowDown_recalls (h : Valid s) : Recalls (arrowDown s) s := by
  have hindex := h.index
  have hcount := h.count
  by_cases hnone : s.historyIndex ≠ -1
  · rw [arrowDown, if_pos hnone]
    by_cases hlt : s.historyIndex < s.historyCount - 1
    · rw [if_pos hlt, Option.bind_assoc]
      exact recalls_row h h.saved (by omega) (by omega)
    · rw [if_neg hlt]
      exact .inr ⟨s.savedInput, -1, _, h.saved, h.saved, ⟨Int.le_refl _, by omega⟩, rfl⟩
  · rw [arrowDown, if_neg hnone]
    exact .inl rfl

theorem fine_recalls {r : Option State} (h : Valid s) (hr : Recalls r s) : Fine r := by
  obtain rfl | ⟨saved, index, cmd, hsaved, hcmd, hindex, rfl⟩ := hr
  · exact ⟨s, rfl, h⟩
  · have hbrowsed : Valid (s.browsed saved index) :=
      ⟨h.pos, h.last, hsaved, h.rows, h.count, hindex⟩
    exact fine_bind (fine_recall hbrowsed hcmd) fun t ht => fine_redraw ht

theorem fine_arrowLeft (h : Valid s) : Fine (arrowLeft s) := by
  have hpos := h.pos
  rw [arrowLeft]
  by_cases h0 : s.inputPos > 0
  · rw [if_pos h0]
    exact fine_redraw (h.edit h.last (show s.inputPos - 1 ≤ 255 by omega))
  · rw [if_neg h0]
    exact fine_redraw h

theorem fine_arrowRight (h : Valid s) : Fine (arrowRight s) := by
  rw [arrowRight_eq h.pos]
  by_cases hgo : s.inputPos < 255 ∧ s.inputBuffer s.inputPos ≠ 0
  · rw [if_pos hgo]
    exact fine_redraw (h.edit h.last (Nat.succ_le_of_lt hgo.1))
  · rw [if_neg hgo]
    exact fine_redraw h

theorem fine_endKey (h : Valid s) : Fine (endKey s) := by
  obtain ⟨e, he, hnul⟩ := h.nulAt h.pos
  rw [endKey_eq hnul he]
  exact fine_redraw (h.edit h.last he)

theorem fine_deleteKey (h : Valid s) : Fine (deleteKey s) := by
  obtain ⟨e, he, hnul⟩ := h.nulAt h.pos
  rw [deleteKey_eq hnul (Nat.lt_succ_of_le he)]
  by_cases hc : s.inputBuffer s.inputPos ≠ 0
  · rw [if_pos hc]
    exact fine_redraw (h.edit (closed_last h.last he) h.pos)
  · rw [if_neg hc]
    exact ⟨s, rfl, h⟩

theorem fine_handleExtended (scancode : BitVec 8) (h : Valid s) :
    Fine (handleExtended scancode s) := by
  have hkey : Fine (if scancode = 0x48 then arrowUp s
      else if scancode = 0x50 then arrowDown s
      else if scancode = 0x4B then arrowLeft s
      else if scancode = 0x4D then arrowRight s
      else if scancode = 0x47 then homeKey s
      else if scancode = 0x4F then endKey s
      else if scancode = 0x53 then deleteKey s
      else some s) := by
    split_ifs
    · exact fine_recalls h (arrowUp_recalls h)
    · exact fine_recalls h (arrowDown_recalls h)
    · exact fine_arrowLeft h
    · exact fine_arrowRight h
    · exact fine_redraw (h.edit h.last (Nat.zero_le _))
    · exact fine_endKey h
    · exact fine_deleteKey h
    · exact ⟨s, rfl, h⟩
  obtain ⟨t, ht, hvalid⟩ := hkey
  exact ⟨_, by rw [handleExtended, ht, Option.map_some],
    hvalid.flags t.shiftPressed t.capsLock false⟩

/-- A row of the history stays terminated when the line is copied to it. -/
theorem nulAt_entryRow {line old : Buffer} {e : Nat} (h : NulAt line 0 e) :
    NulAt (entryRow line old e) 0 e := by
  refine ⟨Nat.zero_le e, ?_, ?_⟩
  · rw [entryRow, if_neg (Nat.lt_irrefl e), if_pos rfl]
    rfl
  · intro j hj hlt
    rw [entryRow, if_pos hlt]
    exact h.text j hj hlt

theorem fine_addHistory (h : Valid s) : Fine (addHistory s) := by
  have hcount := h.count
  have hindex := h.index
  obtain ⟨e, he, hnul⟩ := h.nulAt (Nat.zero_le 255)
  obtain hsame | ⟨hlt, hadd⟩ | ⟨hfull, rows, hshift, hadd⟩ :=
    addHistory_cases hnul (Nat.lt_succ_of_le he) h.count h.rows
  · exact ⟨s, hsame, h⟩
  · refine ⟨_, hadd, h.pos, h.last, h.saved, ?_, ?_, ?_⟩
    · intro r hr
      by_cases hrow : r = s.historyCount.toNat
      · subst hrow
        dsimp only
        rw [Function.update_self]
        exact ⟨e, Nat.lt_succ_of_le he, nulAt_entryRow hnul⟩
      · dsimp only
        rw [Function.update_of_ne hrow]
        exact h.rows r hr
    · dsimp only
      omega
    · dsimp only
      omega
  · obtain ⟨rows', hshift', hmoved, hrest⟩ := shiftHistory_eq s.history
    obtain rfl : rows = rows' := Option.some.inj (hshift.symm.trans hshift')
    refine ⟨_, hadd, h.pos, h.last, h.saved, ?_, h.count, h.index⟩
    intro r hr
    by_cases hrow : r = 9
    · subst hrow
      dsimp only
      rw [Function.update_self]
      exact ⟨e, Nat.lt_succ_of_le he, nulAt_entryRow hnul⟩
    · obtain ⟨e', he', hold⟩ := h.rows (r + 1) (by omega)
      dsimp only
      rw [Function.update_of_ne hrow]
      refine ⟨e', he', hold.le, ?_, ?_⟩
      · rw [hmoved r (by omega) e' he', hold.nul]
      · intro j hj hlt
        rw [hmoved r (by omega) j (by omega)]
        exact hold.text j hj hlt

theorem fine_endLine (h : Valid s) : Fine (endLine s) := by
  have hlast : Function.update s.inputBuffer s.inputPos 0 255 = 0#8 := by
    by_cases he : 255 = s.inputPos
    · rw [he, Function.update_self]
      rfl
    · rw [Function.update_of_ne he, h.last]
  refine ⟨_, ?_, (h.edit hlast h.pos).emit (.putchar 0x0A)⟩
  rw [endLine, write_some (n := bufferSize) _ _ (Nat.lt_succ_of_le h.pos), Option.map_some]

theorem fine_submit (h : Valid s) : Fine (submit s) := by
  by_cases h0 : s.inputPos > 0
  · obtain ⟨e, he, hnul⟩ := h.nulAt (Nat.zero_le 255)
    rw [submit, if_pos h0, processCommand_eq hnul (Nat.lt_succ_of_le he), Option.bind_some]
    exact fine_addHistory (h.emit _)
  · rw [submit, if_neg h0]
    exact ⟨s, rfl, h⟩

theorem fine_enter (h : Valid s) : Fine (enter s) := by
  obtain ⟨t, ht, hvalid⟩ := fine_bind (fine_endLine h) (fun t => fine_submit)
  have hcount := hvalid.count
  refine ⟨freshPrompt t, by rw [enter, ht, Option.map_some], ?_⟩
  exact ((hvalid.moveIndex (Int.le_refl (-1)) (by omega)).edit hvalid.last
    (Nat.zero_le 255)).emit _

theorem fine_backspace (h : Valid s) : Fine (backspace s) := by
  have hpos := h.pos
  by_cases h0 : 0 < s.inputPos
  · obtain ⟨e, he, hnul⟩ := h.nulAt hpos
    exact ⟨_, backspace_eq h0 hnul (Nat.lt_succ_of_le he),
      (h.edit (closed_last h.last he) (show s.inputPos - 1 ≤ 255 by omega)).emit _⟩
  · rw [backspace, if_neg h0]
    exact ⟨s, rfl, h⟩

/-- No NUL lies between the cursor and the last place of the line. -/
def LineFull (s : State) : Prop :=
  s.inputPos < 255 ∧ ∀ i, s.inputPos ≤ i → i < 255 → s.inputBuffer i ≠ 0#8

theorem insertChar_none (c : BitVec 8) (h : Valid s) (hfull : LineFull s) :
    insertChar c s = none := by
  have hnul : NulAt s.inputBuffer s.inputPos 255 := ⟨h.pos, h.last, hfull.2⟩
  rw [insertChar, if_pos (show s.inputPos < bufferSize - 1 from hfull.1),
    makeRoom_none hnul hfull.1, Option.bind_none]

theorem fine_insertChar (c : BitVec 8) (h : Valid s) (hroom : ¬LineFull s) :
    Fine (insertChar c s) := by
  by_cases hlt : s.inputPos < 255
  · obtain ⟨e, he, hnul⟩ := h.nulAt h.pos
    have hne : e ≠ 255 := by
      rintro rfl
      exact hroom ⟨hlt, hnul.text⟩
    rw [insertChar_eq c hnul (by omega)]
    refine fine_redraw ((h.edit ?_ (Nat.succ_le_of_lt hlt)).emit _)
    rw [Function.update_of_ne (show 255 ≠ s.inputPos by omega), roomy]
    split_ifs
    · exact opened_last h.last hnul (by omega)
    · exact h.last
  · exact ⟨s, insertChar_full c hlt, h⟩

end Valid

/-- The scancode makes the handler insert a character at the cursor. -/
def Inserts (scancode : BitVec 8) (s : State) : Prop :=
  scancode ≠ 0xE0 ∧ scancode &&& 0x80 = 0 ∧ s.extended = false ∧
    ¬(scancode = 0x2A ∨ scancode = 0x36) ∧ scancode ≠ 0x3A ∧
    scancodeToAscii.getD scancode.toNat 0 ≠ 0 ∧ decode scancode s ≠ 0x0A ∧ decode scancode s ≠ 0x08

/-- An inserting key is inserted; any other is harmless. -/
theorem handleInterrupt_cases (scancode : BitVec 8) {s : State} (h : Valid s) :
    (Inserts scancode s ∧ handleInterrupt scancode s = insertChar (decode scancode s) s) ∨
      (¬Inserts scancode s ∧ Fine (handleInterrupt scancode s)) := by
  by_cases hE0 : scancode = 0xE0
  · refine .inr ⟨fun hi => hi.1 hE0, ?_⟩
    rw [handleInterrupt, if_pos hE0]
    exact ⟨_, rfl, h.flags s.shiftPressed s.capsLock true⟩
  rw [handleInterrupt, if_neg hE0]
  by_cases hbreak : scancode &&& 0x80 ≠ 0
  · refine .inr ⟨fun hi => hbreak hi.2.1, ?_⟩
    rw [if_pos hbreak]
    exact ⟨_, rfl, h.flags _ s.capsLock false⟩
  rw [if_neg hbreak]
  cases hext : s.extended with
  | true =>
    refine .inr ⟨fun hi => absurd (hext.symm.trans hi.2.2.1) (by decide), ?_⟩
    rw [if_pos rfl]
    exact fine_handleExtended scancode h
  | false =>
    rw [if_neg Bool.false_ne_true, handleMake]
    by_cases hshift : scancode = 0x2A ∨ scancode = 0x36
    · refine .inr ⟨fun hi => hi.2.2.2.1 hshift, ?_⟩
      rw [if_pos hshift]
      exact ⟨_, rfl, h.flags true s.capsLock s.extended⟩
    rw [if_neg hshift]
    by_cases hcaps : scancode = 0x3A
    · refine .inr ⟨fun hi => hi.2.2.2.2.1 hcaps, ?_⟩
      rw [if_pos hcaps]
      exact ⟨_, rfl, h.flags s.shiftPressed (!s.capsLock) s.extended⟩
    rw [if_neg hcaps]
    dsimp only
    by_cases hnone : scancodeToAscii.getD scancode.toNat 0 = 0
    · refine .inr ⟨fun hi => hi.2.2.2.2.2.1 hnone, ?_⟩
      rw [if_pos hnone]
      exact ⟨s, rfl, h⟩
    rw [if_neg hnone]
    by_cases henter : decode scancode s = 0x0A
    · refine .inr ⟨fun hi => hi.2.2.2.2.2.2.1 henter, ?_⟩
      rw [if_pos henter]
      exact fine_enter h
    rw [if_neg henter]
    by_cases hback : decode scancode s = 0x08
    · refine .inr ⟨fun hi => hi.2.2.2.2.2.2.2 hback, ?_⟩
      rw [if_pos hback]
      exact fine_backspace h
    rw [if_neg hback]
    exact .inl ⟨⟨hE0, not_not.mp hbreak, hext, hshift, hcaps, hnone, henter, hback⟩, rfl⟩

/-- The next scancode makes the handler write behind the line buffer. -/
def Overruns (scancode : BitVec 8) (s : State) : Prop := Inserts scancode s ∧ LineFull s

theorem handleInterrupt_none {scancode : BitVec 8} {s : State} (h : Valid s)
    (hover : Overruns scancode s) : handleInterrupt scancode s = none := by
  obtain ⟨_, heq⟩ | ⟨hnot, _⟩ := handleInterrupt_cases scancode h
  · rw [heq, insertChar_none _ h hover.2]
  · exact absurd hover.1 hnot

theorem fine_handleInterrupt {scancode : BitVec 8} {s : State} (h : Valid s)
    (hover : ¬Overruns scancode s) : Fine (handleInterrupt scancode s) := by
  obtain ⟨hins, heq⟩ | ⟨_, hfine⟩ := handleInterrupt_cases scancode h
  · rw [heq]
    exact fine_insertChar _ h fun hfull => hover ⟨hins, hfull⟩
  · exact hfine

theorem handleInterrupt_valid {scancode : BitVec 8} {s t : State} (h : Valid s)
    (ht : handleInterrupt scancode s = some t) : Valid t := by
  by_cases hover : Overruns scancode s
  · rw [handleInterrupt_none h hover] at ht
    cases ht
  · obtain ⟨u, hu, hvalid⟩ := fine_handleInterrupt h hover
    rwa [Option.some.inj (ht.symm.trans hu)]

/-- The invariant holds along every run that gets through. -/
theorem valid_run {codes : List (BitVec 8)} {s t : State} (h : Valid s)
    (hrun : run codes s = some t) : Valid t :=
  run_induct Valid (fun _ _ _ hs ht => handleInterrupt_valid hs ht) h hrun

/-- Every access is inside its array, and after each byte the cursor is inside the line
buffer with a NUL at it or behind it. -/
def InBounds (codes : List (BitVec 8)) : Prop :=
  ∀ pre, pre <+: codes → ∃ s, run pre State.boot = some s ∧ s.inputPos ≤ 255 ∧
    ∃ i, s.inputPos ≤ i ∧ i ≤ 255 ∧ s.inputBuffer i = 0#8

theorem not_inBounds {codes pre post : List (BitVec 8)} {c : BitVec 8} {s : State}
    (hcodes : codes = pre ++ c :: post) (hrun : run pre State.boot = some s)
    (hover : Overruns c s) : ¬InBounds codes := by
  intro hin
  obtain ⟨t, ht, _⟩ := hin (pre ++ [c]) ⟨post, by rw [hcodes, List.append_assoc]; rfl⟩
  rw [run_append, hrun, Option.bind_some, run, handleInterrupt_none (valid_run valid_boot hrun) hover]
    at ht
  cases ht

theorem inBounds_of {codes : List (BitVec 8)}
    (h : ∀ pre c post s, codes = pre ++ c :: post → run pre State.boot = some s →
      ¬Overruns c s) : InBounds codes := by
  have hrun : ∀ pre, pre <+: codes → ∃ s, run pre State.boot = some s := by
    intro pre
    induction pre using List.reverseRecOn with
    | nil => exact fun _ => ⟨State.boot, rfl⟩
    | append_singleton pre c ih =>
      rintro ⟨post, hpost⟩
      rw [List.append_assoc, List.singleton_append] at hpost
      obtain ⟨s, hs⟩ := ih ⟨c :: post, hpost⟩
      obtain ⟨t, ht, _⟩ := fine_handleInterrupt (valid_run valid_boot hs)
        (h pre c post s hpost.symm hs)
      exact ⟨t, by rw [run_append, hs, Option.bind_some, run, ht, Option.bind_some, run]⟩
  intro pre hpre
  obtain ⟨s, hs⟩ := hrun pre hpre
  have hvalid := valid_run valid_boot hs
  exact ⟨s, hs, hvalid.pos, 255, hvalid.pos, Nat.le_refl _, hvalid.last⟩

/-- The accesses of a key sequence are inside the arrays exactly when no character is typed
in the middle of a line that is full up to the last place. -/
theorem inBounds_iff (codes : List (BitVec 8)) :
    InBounds codes ↔ ∀ pre c post s, codes = pre ++ c :: post → run pre State.boot = some s →
      ¬Overruns c s := by
  constructor
  · intro hin pre c post s hcodes hrun hover
    exact not_inBounds hcodes hrun hover hin
  · exact inBounds_of

/-- The state after `n` letters typed at the prompt. -/
structure Typed (n : Nat) (s : State) : Prop where
  pos : s.inputPos = n
  line : ∀ j, s.inputBuffer j = if j < n then ch 'a' else 0
  shift : s.shiftPressed = false
  caps : s.capsLock = false
  ext : s.extended = false

theorem decode_letter {s : State} (hs : s.shiftPressed = false) (hc : s.capsLock = false) :
    decode 0x1E s = ch 'a' := by
  have htable : scancodeToAscii.getD (0x1E : BitVec 8).toNat 0 = ch 'a' := by decide
  have hletter : ch 'a' ≤ ch 'a' ∧ ch 'a' ≤ ch 'z' := by decide
  rw [decode, htable, hs, hc]
  exact if_pos hletter

theorem inserts_letter {s : State} (hs : s.shiftPressed = false) (hc : s.capsLock = false)
    (he : s.extended = false) : Inserts 0x1E s := by
  refine ⟨by decide, by decide, he, by decide, by decide, by decide, ?_, ?_⟩
  · rw [decode_letter hs hc]
    decide
  · rw [decode_letter hs hc]
    decide

theorem typed_run (n : Nat) (hn : n ≤ 255) :
    ∃ s, run (List.replicate n 0x1E) State.boot = some s ∧ Typed n s := by
  induction n with
  | zero => exact ⟨State.boot, rfl, rfl, fun _ => rfl, rfl, rfl, rfl⟩
  | succ n ih =>
    obtain ⟨s, hs, htyped⟩ := ih (by omega)
    have hvalid := valid_run valid_boot hs
    have hnul : NulAt s.inputBuffer s.inputPos n := by
      rw [htyped.pos]
      exact ⟨Nat.le_refl n, (htyped.line n).trans (if_neg (Nat.lt_irrefl n)),
        fun j hj hlt => absurd hlt (by omega)⟩
    have hzero : s.inputBuffer s.inputPos = 0 := by
      rw [htyped.line, htyped.pos, if_neg (Nat.lt_irrefl n)]
    obtain ⟨_, heq⟩ | ⟨hnot, _⟩ := handleInterrupt_cases 0x1E hvalid
    · rw [decode_letter htyped.shift htyped.caps, insertChar_eq _ hnul (by omega), redrawInput_eq
        (by simp only [Keyboard.emit]; have := htyped.pos; omega)] at heq
      refine ⟨_, by
        rw [List.replicate_succ', run_append, hs, Option.bind_some, run, heq, Option.bind_some,
          run], ?_⟩
      refine ⟨congrArg (· + 1) htyped.pos, ?_, htyped.shift, htyped.caps, htyped.ext⟩
      intro j
      show Function.update (roomy s n) s.inputPos (ch 'a') j = _
      rw [roomy, if_neg (not_not.mpr hzero)]
      by_cases hj : j = s.inputPos
      · rw [hj, Function.update_self, htyped.pos, if_pos (Nat.lt_succ_self n)]
      · rw [Function.update_of_ne hj, htyped.line]
        rw [htyped.pos] at hj
        by_cases hlt : j < n
        · rw [if_pos hlt, if_pos (Nat.lt_succ_of_lt hlt)]
        · rw [if_neg hlt, if_neg (by omega)]
    · exact absurd (inserts_letter htyped.shift htyped.caps htyped.ext) hnot

/-- Home puts the cursor in front of the line and leaves the line as it is. -/
theorem run_home (s : State) :
    ∃ t, run [0xE0, 0x47] s = some t ∧ t.inputPos = 0 ∧ t.inputBuffer = s.inputBuffer ∧
      t.shiftPressed = s.shiftPressed ∧ t.capsLock = s.capsLock ∧ t.extended = false := by
  let u : State := { s with extended := true }
  have hE0 : handleInterrupt 0xE0 s = some u := if_pos rfl
  have hhome : homeKey u = some (emit (.redraw []) { u with inputPos := 0 }) :=
    redrawInput_eq (s := { u with inputPos := 0 }) (Nat.zero_le 255)
  have hkey : handleExtended 0x47 u =
      some { emit (.redraw []) { u with inputPos := 0 } with extended := false } := by
    rw [handleExtended, if_neg (by decide), if_neg (by decide), if_neg (by decide),
      if_neg (by decide), if_pos rfl, hhome, Option.map_some]
  have hcode : handleInterrupt 0x47 u = handleExtended 0x47 u := by
    rw [handleInterrupt, if_neg (by decide), if_neg (by decide), if_pos rfl]
  refine ⟨{ emit (.redraw []) { u with inputPos := 0 } with extended := false }, ?_, rfl, rfl, rfl,
    rfl, rfl⟩
  rw [run, hE0, Option.bind_some, run, hcode, hkey, Option.bind_some, run]

/-- 255 letters, Home, and one more letter: the handler writes to index 256. -/
theorem fullLine_overruns : ¬InBounds (List.replicate 255 0x1E ++ [0xE0, 0x47, 0x1E]) := by
  obtain ⟨s, hs, htyped⟩ := typed_run 255 (Nat.le_refl 255)
  obtain ⟨t, ht, hpos, hline, hshift, hcaps, hext⟩ := run_home s
  have hcodes : List.replicate 255 (0x1E : BitVec 8) ++ [0xE0, 0x47, 0x1E] =
      List.replicate 255 0x1E ++ [0xE0, 0x47] ++ 0x1E :: [] := by
    rw [List.append_assoc]
    rfl
  refine not_inBounds hcodes (by rw [run_append, hs, Option.bind_some, ht])
    ⟨inserts_letter (hshift.trans htyped.shift) (hcaps.trans htyped.caps) hext, ?_⟩
  rw [LineFull, hpos, hline]
  refine ⟨by decide, ?_⟩
  intro i _ hi
  rw [htyped.line, if_pos hi]
  decide

end Keyboard
