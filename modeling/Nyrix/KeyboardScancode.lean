import Nyrix.Base.PartialRuns
import Nyrix.KeyboardPress

/-!
# The second entry point, `handle_scancode`

It is kept as a copy of `handle_interrupt`. The two are compared by what is left of the editor
and by the commands passed on; what they ask of the terminal is not.
-/

namespace Keyboard

open BoundedLoop CharBuffer PartialRuns RecentList

/-- The copy has no symbols in its `switch` under Shift. -/
def decodeCopy (scancode : BitVec 8) (s : State) : BitVec 8 :=
  let ascii := scancodeToAscii.getD scancode.toNat 0
  if ch 'a' ≤ ascii ∧ ascii ≤ ch 'z' then
    if s.shiftPressed ^^ s.capsLock then ascii - 32 else ascii
  else ascii

/-- The copy does not add the command to the history. -/
def submitCopy (s : State) : Option State :=
  if s.inputPos > 0 then processCommand s else some s

def enterCopy (s : State) : Option State := ((endLine s).bind submitCopy).map freshPrompt

def backspaceCopy (s : State) : Option State :=
  if s.inputPos > 0 then
    (closeGapBreak bufferSize s.inputBuffer (s.inputPos - 1)).bind fun b =>
      redrawInput { s with inputBuffer := b, inputPos := s.inputPos - 1 }
  else some s

def insertCopy (ascii : BitVec 8) (s : State) : Option State :=
  if s.inputPos < bufferSize - 1 then
    (makeRoom s).bind fun b =>
      (write bufferSize b s.inputPos ascii).bind fun b =>
        redrawInput { s with inputBuffer := b, inputPos := s.inputPos + 1 }
  else some s

/-- A make code without prefix. -/
def makeCopy (scancode : BitVec 8) (s : State) : Option State :=
  if scancode = 0x2A ∨ scancode = 0x36 then some { s with shiftPressed := true }
  else if scancode = 0x3A then some { s with capsLock := !s.capsLock }
  else
    let ascii := decodeCopy scancode s
    if scancodeToAscii.getD scancode.toNat 0 = 0 then some s
    else if ascii = 0x0A then enterCopy s
    else if ascii = 0x08 then backspaceCopy s
    else insertCopy ascii s

/-- Behind a prefix the copy has a comment in place of the keys. -/
def handleScancode (scancode : BitVec 8) (s : State) : Option State :=
  if scancode = 0xE0 then some { s with extended := true }
  else if scancode &&& 0x80 ≠ 0 then
    let released := scancode &&& 0x7F
    some { s with
      shiftPressed := if released = 0x2A ∨ released = 0x36 then false else s.shiftPressed
      extended := false }
  else if s.extended then some { s with extended := false }
  else makeCopy scancode s

/-- The editor and the commands passed on. -/
def seen (s : State) : State := { s with out := (commands s.out).map .command }

@[simp] theorem commands_map (texts : List (List (BitVec 8))) :
    commands (texts.map .command) = texts := by simp [commands, List.filterMap_map]

@[simp] theorem seen_seen (s : State) : seen (seen s) = seen s := by simp [seen]

theorem seen_emit {e : Event} (he : commands [e] = []) (s : State) : seen (emit e s) = seen s := by
  simp [seen, emit, commands_append, he]

@[simp] theorem seen_putchar (c : BitVec 8) (s : State) : seen (emit (.putchar c) s) = seen s :=
  seen_emit rfl s

@[simp] theorem seen_redraw (text : List (BitVec 8)) (s : State) :
    seen (emit (.redraw text) s) = seen s := seen_emit rfl s

@[simp] theorem seen_write (text : String) (s : State) : seen (emit (.write text) s) = seen s :=
  seen_emit rfl s

theorem redrawInput_seen (s : State) :
    (redrawInput s).map seen = (front bufferSize s.inputBuffer s.inputPos).map fun _ => seen s := by
  simp [redrawInput, Function.comp_def]

/-- An insertion is the same whether the character is echoed or not. -/
theorem insertCopy_seen (c : BitVec 8) (s : State) : (insertCopy c s).map seen =
    (insertChar c s).map seen := by
  rw [insertCopy, insertChar]
  split_ifs
  · simp only [Option.map_bind, Function.comp_def, redrawInput_seen, seen_putchar]
    rfl
  · rfl

/-- What is seen after the step depends on what is seen before it. -/
def Respects (f : State → Option State) : Prop := ∀ s, (f s).map seen = (f (seen s)).map seen

theorem Respects.congr {f : State → Option State} (hf : Respects f) {s u : State}
    (h : seen s = seen u) : (f s).map seen = (f u).map seen := by rw [hf s, hf u, h]

theorem Respects.bind {f g : State → Option State} (hf : Respects f) (hg : Respects g) :
    Respects fun s => (f s).bind g := by
  intro s
  have hfs := hf s
  dsimp only
  cases hs : f s with
  | none =>
    rw [hs, Option.map_none, eq_comm, Option.map_eq_none_iff] at hfs
    rw [hfs]
  | some t =>
    rw [hs, Option.map_some, eq_comm, Option.map_eq_some_iff] at hfs
    obtain ⟨t', ht', hseen⟩ := hfs
    rw [ht']
    exact hg.congr hseen.symm

theorem insertCopy_respects (c : BitVec 8) : Respects (insertCopy c) := by
  intro s
  have hpos : (seen s).inputPos = s.inputPos := rfl
  have hroom : makeRoom (seen s) = makeRoom s := rfl
  rw [insertCopy, insertCopy, hpos, hroom]
  split_ifs
  · simp only [Option.map_bind, Function.comp_def, redrawInput_seen, seen, commands_map]
  · simp

theorem backspaceCopy_respects : Respects backspaceCopy := by
  intro s
  have hpos : (seen s).inputPos = s.inputPos := rfl
  have hbuffer : (seen s).inputBuffer = s.inputBuffer := rfl
  rw [backspaceCopy, backspaceCopy, hpos, hbuffer]
  split_ifs
  · simp only [Option.map_bind, Function.comp_def, redrawInput_seen, seen, commands_map]
  · simp

theorem endLine_respects : Respects endLine := by
  intro s
  simp only [endLine, Option.map_map, Function.comp_def, seen, emit, commands_append, commands_map]

theorem submitCopy_respects : Respects submitCopy := by
  intro s
  have hpos : (seen s).inputPos = s.inputPos := rfl
  rw [submitCopy, submitCopy, hpos]
  split_ifs
  · simp only [processCommand, Option.map_bind, Option.map_map, Function.comp_def, seen, emit,
      commands_append, commands_map]
  · simp

theorem freshPrompt_respects : Respects fun s => some (freshPrompt s) := by
  intro s
  simp only [freshPrompt, Option.map_some, seen, emit, commands_append, commands_map]

theorem enterCopy_respects : Respects enterCopy := by
  have h := (endLine_respects.bind submitCopy_respects).bind freshPrompt_respects
  intro s
  simpa [enterCopy, Option.map_eq_bind, Function.comp_def] using h s

/-- The copy of the handler, as a step of what is seen. -/
theorem handleScancode_respects (c : BitVec 8) : Respects (handleScancode c) := by
  intro s
  have hextended : (seen s).extended = s.extended := rfl
  have hdecode : decodeCopy c (seen s) = decodeCopy c s := rfl
  simp only [handleScancode, makeCopy, hextended, hdecode]
  split_ifs
  all_goals first
    | exact enterCopy_respects s
    | exact backspaceCopy_respects s
    | exact insertCopy_respects _ s
    | simp [seen]

section Line

variable {s : State} {r : Option State} {line : Buffer × Nat}

theorem echoes_seen (h : Echoes r s line) : r.map seen = some ((seen s).withLine line []) := by
  obtain ⟨echo, hecho, rfl⟩ := h
  simp [seen, State.withLine, commands_append, hecho]

theorem withLine_inj {a b : Buffer × Nat} : s.withLine a [] = s.withLine b [] ↔ a = b := by
  constructor
  · intro h
    exact Prod.ext (congrArg State.inputBuffer h) (congrArg State.inputPos h)
  · rintro rfl
    rfl

theorem withLine_self : s.withLine (s.inputBuffer, s.inputPos) [] = s := by
  simp [State.withLine]

/-- The state when the handler has forgotten the prefix. -/
def State.plain (s : State) : State := { s with extended := false }

/-- A key behind a prefix that only asks for a redraw leaves the line as it was. -/
theorem echoes_plain_iff (h : Echoes r s line) :
    (some s.plain).map seen = (r.map State.plain).map seen ↔
      line = (s.inputBuffer, s.inputPos) := by
  obtain ⟨echo, hecho, rfl⟩ := h
  have hseen : seen (State.plain (s.withLine line echo)) = (seen s.plain).withLine line [] := by
    simp [seen, State.withLine, State.plain, commands_append, hecho]
  have hself : seen s.plain = (seen s.plain).withLine (s.inputBuffer, s.inputPos) [] :=
    withLine_self.symm
  rw [Option.map_some, Option.map_some, Option.map_some, hseen, Option.some.injEq]
  nth_rewrite 1 [hself]
  rw [withLine_inj, eq_comm]

end Line

section Still

variable {s : State}

/-- At the end of the line there is nothing to delete and nowhere to go. -/
theorem closed_eq_iff {b : Buffer} {i e : Nat} (h : NulAt b i e) : closed b i e = b ↔ b i = 0 := by
  constructor
  · intro heq
    by_contra hc
    have hne : i ≠ e := fun hie => hc (hie ▸ h.nul)
    have hle := h.le
    have hlast := congrFun heq (e - 1)
    have hin : i ≤ e - 1 ∧ e - 1 < e := by omega
    have hnext : e - 1 + 1 = e := by omega
    rw [closed, if_pos hin, hnext, h.nul] at hlast
    exact h.text (e - 1) hin.1 hin.2 hlast.symm
  · intro hnul
    have hie : i = e := by
      by_contra hne
      have hle := h.le
      exact h.text i le_rfl (by omega) hnul
    rw [← hie, closed_self]

/-- The key changes nothing but the screen: for a character, nothing that the copy's character
does not change as well. -/
def Key.Fits (typed : BitVec 8) (s : State) : Key → Prop
  | .insert c => c = typed ∨ s.inputPos = 255 ∨ LineFull s
  | .enter => s.inputPos = 0 ∨ (entries s).getLast? = some (string bufferSize (cutLine s))
  | .backspace => True
  | .delete | .right | .toEnd => s.inputBuffer s.inputPos = 0
  | .left | .home => s.inputPos = 0
  | .up => s.historyCount = 0 ∨
      s.historyIndex = 0 ∧ string bufferSize (s.history 0) = beforeCursor s
  | .down => s.historyIndex = -1

/-- The text in front of the cursor is the string exactly when copying it changes nothing. -/
theorem recalled_line_iff {cmd : Buffer} {e : Nat} (h : NulAt cmd 0 e) (he : e < 256) :
    (fun j => if j < e then cmd j else s.inputBuffer j) = s.inputBuffer ∧ e = s.inputPos ↔
      string bufferSize cmd = beforeCursor s := by
  rw [string_eq (n := bufferSize) h he, beforeCursor]
  constructor
  · rintro ⟨hline, rfl⟩
    apply List.map_congr_left
    intro j hj
    have hcell := congrFun hline j
    rwa [if_pos (List.mem_range.mp hj)] at hcell
  · intro heq
    have hlen : e = s.inputPos := by simpa using congrArg List.length heq
    refine ⟨?_, hlen⟩
    funext j
    split_ifs with hj
    · have hcell := congrArg (·[j]?) heq
      simpa [hj, ← hlen] using hcell
    · rfl

/-- An arrow that brings back a text changes the line unless the text is already there. -/
theorem recalls_plain_iff {cmd saved : Buffer} {index : Int} {e : Nat} (h : NulAt cmd 0 e)
    (he : e < 256) :
    (some s.plain).map seen = (((recallCommand cmd (s.browsed saved index)).bind
        redrawInput).map State.plain).map seen ↔
      saved = s.savedInput ∧ index = s.historyIndex ∧
        string bufferSize cmd = beforeCursor s := by
  have hredraw := redrawInput_eq (s := recalled cmd e (s.browsed saved index))
    (Nat.le_of_lt_succ he)
  rw [recallCommand_eq h he, Option.bind_some, hredraw, ← recalled_line_iff h he]
  constructor
  · intro heq
    have hstate := Option.some.inj heq
    exact ⟨(congrArg State.savedInput hstate).symm, (congrArg State.historyIndex hstate).symm,
      (congrArg State.inputBuffer hstate).symm, (congrArg State.inputPos hstate).symm⟩
  · rintro ⟨rfl, rfl, hline, hpos⟩
    have hsame : recalled cmd e (s.browsed s.savedInput s.historyIndex) = s := by
      simp only [recalled, State.browsed, hline]
      subst hpos
      rfl
    rw [hsame]
    simp [seen, State.plain, emit, commands_append]
    rfl

/-- The same for an entry of the history. -/
theorem row_plain_iff (h : Valid s) (saved : Buffer) {index : Int} (h0 : 0 ≤ index)
    (hlt : index < s.historyCount) :
    (some s.plain).map seen = (((historyRow (s.browsed saved index) index).bind fun cmd =>
        (recallCommand cmd (s.browsed saved index)).bind redrawInput).map State.plain).map seen ↔
      saved = s.savedInput ∧ index = s.historyIndex ∧
        string bufferSize (s.history index.toNat) = beforeCursor s := by
  have hcount := h.count
  obtain ⟨e, he, hnul⟩ := h.rows index.toNat (by omega)
  rw [historyRow_eq h0 (by omega), Option.bind_some]
  exact recalls_plain_iff hnul he

theorem arrowUp_plain_iff (h : Valid s) (typed : BitVec 8) :
    (some s.plain).map seen = ((arrowUp s).map State.plain).map seen ↔ Key.Fits typed s .up := by
  have hcount := h.count
  have hindex := h.index
  rw [Key.Fits]
  by_cases hempty : s.historyCount = 0
  · have hnone : ¬s.historyCount > 0 := by omega
    rw [arrowUp, if_neg hnone]
    simp [hempty]
  have hsome : s.historyCount > 0 := by omega
  rw [arrowUp, if_pos hsome]
  by_cases hfirst : s.historyIndex = -1
  · -- the newest entry is brought back, and the index is set
    rw [if_pos hfirst, saveInput_eq h.pos, Option.bind_some]
    refine (row_plain_iff h (savedLine s) (by omega) (by omega)).trans ?_
    omega
  rw [if_neg hfirst]
  by_cases hmore : s.historyIndex > 0
  · rw [if_pos hmore, Option.bind_some]
    refine (row_plain_iff h s.savedInput (by omega) (by omega)).trans ?_
    omega
  · -- the oldest entry is brought back once more
    have hzero : s.historyIndex = 0 := by omega
    rw [if_neg hmore, Option.bind_some]
    refine (row_plain_iff h s.savedInput (by omega) (by omega)).trans ?_
    simp [hzero, hempty]

theorem arrowDown_plain_iff (h : Valid s) (typed : BitVec 8) :
    (some s.plain).map seen = ((arrowDown s).map State.plain).map seen ↔
      Key.Fits typed s .down := by
  have hindex := h.index
  rw [Key.Fits]
  by_cases hnone : s.historyIndex = -1
  · rw [arrowDown, if_neg (not_not.mpr hnone)]
    simp [hnone]
  rw [arrowDown, if_pos hnone]
  by_cases hmore : s.historyIndex < s.historyCount - 1
  · rw [if_pos hmore, Option.bind_assoc]
    refine (row_plain_iff h s.savedInput (by omega) (by omega)).trans ?_
    omega
  · obtain ⟨e, he, hnul⟩ := h.saved
    rw [if_neg hmore]
    refine (recalls_plain_iff hnul he).trans ?_
    omega

/-- The keys that only move or delete. -/
theorem lineAfter_self_iff (h : Valid s) (typed : BitVec 8) {k : Key}
    (hk : k = .delete ∨ k = .left ∨ k = .right ∨ k = .home ∨ k = .toEnd) :
    lineAfter k s.inputBuffer s.inputPos = (s.inputBuffer, s.inputPos) ↔ k.Fits typed s := by
  have hpos := h.pos
  have hnul := h.endFrom_nulAt.2
  have hle := hnul.le
  rcases hk with rfl | rfl | rfl | rfl | rfl
  · simp only [lineAfter, Key.Fits, Prod.mk.injEq, and_true]
    exact closed_eq_iff hnul
  · simp only [lineAfter, Key.Fits, Prod.mk.injEq, true_and]
    omega
  · simp only [lineAfter, Key.Fits, Prod.mk.injEq, true_and]
    by_cases hlast : s.inputPos = 255
    · simp [hlast, h.last]
    · have hlt : s.inputPos < 255 := by omega
      simp [hlt]
  · simp only [lineAfter, Key.Fits, Prod.mk.injEq, true_and]
    omega
  · simp only [lineAfter, Key.Fits, Prod.mk.injEq, true_and]
    rw [← closed_eq_iff hnul]
    constructor
    · intro hend
      rw [hend, closed_self]
    · intro hclosed
      by_contra hne
      have htext := hnul.text s.inputPos le_rfl (by omega)
      exact htext ((closed_eq_iff hnul).mp hclosed)

theorem handleExtended_agrees_iff (h : Valid s) (c typed : BitVec 8) :
    (some s.plain).map seen = (handleExtended c s).map seen ↔
      ∀ k, extendedKey c = some k → k.Fits typed s := by
  have hedit : ∀ k : Key, k.Edits → (∀ a, k ≠ .insert a) →
      (k = .delete ∨ k = .left ∨ k = .right ∨ k = .home ∨ k = .toEnd) →
      ((some s.plain).map seen = ((press k s).map State.plain).map seen ↔ k.Fits typed s) := by
    intro k hk hins hmoves
    have hechoes := press_edits hk h fun a ha => absurd ha (hins a)
    exact (echoes_plain_iff hechoes).trans (lineAfter_self_iff h typed hmoves)
  have heq : handleExtended c s = (pressKey (extendedKey c) s).map State.plain :=
    handleExtended_eq c s
  rw [heq]
  cases hk : extendedKey c with
  | none => simp [pressKey]
  | some k =>
    simp only [Option.some.injEq, forall_eq']
    change (some s.plain).map seen = ((press k s).map State.plain).map seen ↔ _
    rw [extendedKey] at hk
    split_ifs at hk
    all_goals obtain rfl := Option.some.inj hk
    · exact arrowUp_plain_iff h typed
    · exact arrowDown_plain_iff h typed
    all_goals exact hedit _ trivial (fun a => Key.noConfusion) (by simp)

end Still

section Make

variable {s : State}

/-- Neither a letter nor a symbol becomes a line feed or a backspace. -/
theorem decode_control_iff {scancode z : BitVec 8} (hz : z = 0x0A ∨ z = 0x08) (s : State) :
    decode scancode s = z ↔ decodeCopy scancode s = z := by
  rw [decode, decodeCopy]
  generalize scancodeToAscii.getD scancode.toNat 0 = ascii
  split_ifs
  · rfl
  · rfl
  · have hback : shifted z = z := by
      rcases hz with rfl | rfl <;> decide
    constructor
    · intro hshift
      by_contra hne
      refine lookup_getD_ne ?_ hne ascii hshift
      rcases hz with rfl | rfl <;> decide
    · rintro rfl
      exact hback
  · rfl

/-- Two characters inserted at one place. -/
theorem insert_agrees_iff (h : Valid s) (c typed : BitVec 8) :
    (insertCopy typed s).map seen = (press (.insert c) s).map seen ↔
      Key.Fits typed s (.insert c) := by
  have hpos := h.pos
  rw [insertCopy_seen, Key.Fits]
  by_cases hfull : LineFull s
  · have hnone : press (.insert c) s = none := press_insert_full h hfull
    rw [insertChar_none typed h hfull, hnone]
    simp [hfull]
  · have hc : (press (.insert c) s).map seen = _ := echoes_seen (insertChar_echoes c h hfull)
    rw [echoes_seen (insertChar_echoes typed h hfull), hc, Option.some.injEq, withLine_inj,
      lineAfter, lineAfter]
    by_cases hlt : s.inputPos < 255
    · rw [if_pos hlt, if_pos hlt]
      have hne : s.inputPos ≠ 255 := by omega
      simp only [Prod.mk.injEq, and_true, hne, hfull, or_false]
      constructor
      · intro heq
        have hcell := congrFun heq s.inputPos
        rw [Function.update_self, Function.update_self] at hcell
        exact hcell.symm
      · rintro rfl
        rfl
    · have hlast : s.inputPos = 255 := by omega
      simp [hlast]

/-- Taking a character out leaves the same line, whatever is asked of the terminal. -/
theorem backspace_agrees (h : Valid s) :
    (backspaceCopy s).map seen = (press .backspace s).map seen := by
  have hpress : (press .backspace s).map seen = _ := echoes_seen (backspace_echoes h)
  rw [hpress]
  apply echoes_seen
  rw [lineAfter]
  have hpos := h.pos
  by_cases hleft : 0 < s.inputPos
  · obtain ⟨he, hnul⟩ := h.endFrom_nulAt
    have hnul' : NulAt s.inputBuffer (s.inputPos - 1 + 1) (endFrom s.inputBuffer s.inputPos) := by
      rwa [Nat.sub_add_cancel hleft]
    rw [if_pos hleft, backspaceCopy, if_pos hleft,
      closeGapBreak_eq (n := bufferSize) hnul' (Nat.lt_succ_of_le he), Option.bind_some]
    exact echoes_redraw (by omega)
  · rw [if_neg hleft, backspaceCopy, if_neg hleft]
    exact echoes_none

/-- What the history does with a command shows unless it is dropped. -/
theorem addHistory_unseen_iff (h : Valid s) :
    (some (freshPrompt s)).map seen = ((addHistory s).map freshPrompt).map seen ↔
      (entries s).getLast? = some (string bufferSize s.inputBuffer) := by
  constructor
  · intro heq
    obtain ⟨rows, count, hadd, hentries⟩ := addHistory_eq h
    rw [hadd] at heq
    have hstate := Option.some.inj heq
    have hrows : s.history = rows := congrArg State.history hstate
    have hcount : s.historyCount = count := congrArg State.historyCount hstate
    have hlast : (record maxHistory (string bufferSize s.inputBuffer) (entries s)).getLast? =
        some (string bufferSize s.inputBuffer) := getLast?_record 9 _ _
    rwa [← hentries, ← hrows, ← hcount] at hlast
  · intro hlast
    rw [addHistory, isDuplicate_eq h, Option.bind_some, decide_eq_true hlast, if_pos rfl]
    rfl

theorem enter_agrees_iff (h : Valid s) (typed : BitVec 8) :
    (enterCopy s).map seen = (press .enter s).map seen ↔ Key.Fits typed s .enter := by
  have hcut := valid_cutLine h
  have henter : press .enter s = ((endLine s).bind submit).map freshPrompt := rfl
  rw [enterCopy, henter, endLine_eq h, Option.bind_some, Option.bind_some, submitCopy, submit,
    Key.Fits]
  by_cases hzero : s.inputPos = 0
  · have hnone : ¬(emit (.putchar 0x0A) { s with inputBuffer := cutLine s }).inputPos > 0 := by
      simp only [emit]
      omega
    rw [if_neg hnone, if_neg hnone]
    simp [hzero]
  · have hsome : (emit (.putchar 0x0A) { s with inputBuffer := cutLine s }).inputPos > 0 :=
      Nat.pos_of_ne_zero hzero
    obtain ⟨e, he, hnul⟩ := hcut.nulAt (Nat.zero_le 255)
    rw [if_pos hsome, if_pos hsome, processCommand_eq hnul (Nat.lt_succ_of_le he),
      Option.bind_some, Option.map_some]
    refine (addHistory_unseen_iff (hcut.emit _)).trans ?_
    rw [or_iff_right hzero]
    rfl

/-- A make code without prefix. -/
theorem handleMake_agrees_iff (h : Valid s) (c : BitVec 8) :
    (makeCopy c s).map seen = (handleMake c s).map seen ↔
      ∀ k, makeKey c s.modifiers = some k → k.Fits (decodeCopy c s) s := by
  by_cases hshift : c = 0x2A ∨ c = 0x36
  · have hnone : makeKey c s.modifiers = none := if_pos (hshift.imp_right Or.inl)
    rw [makeCopy, if_pos hshift, handleMake, if_pos hshift, hnone]
    simp
  by_cases hcaps : c = 0x3A
  · have hnone : makeKey c s.modifiers = none := if_pos (Or.inr (Or.inr hcaps))
    rw [makeCopy, if_neg hshift, if_pos hcaps, handleMake, if_neg hshift, if_pos hcaps, hnone]
    simp
  have hplain : ¬(c = 0x2A ∨ c = 0x36 ∨ c = 0x3A) := by
    rw [← or_assoc, not_or]
    exact ⟨hshift, hcaps⟩
  rw [makeCopy, if_neg hshift, if_neg hcaps, handleMake_eq hshift hcaps, makeKey, if_neg hplain]
  dsimp only
  rw [decode_modifiers]
  by_cases hzero : scancodeToAscii.getD c.toNat 0 = 0
  · rw [if_pos hzero, if_pos hzero]
    simp [pressKey]
  rw [if_neg hzero, if_neg hzero]
  by_cases henter : decode c s = 0x0A
  · rw [if_pos henter, if_pos ((decode_control_iff (Or.inl rfl) s).mp henter)]
    simpa [pressKey] using enter_agrees_iff h (decodeCopy c s)
  rw [if_neg henter, if_neg (mt (decode_control_iff (Or.inl rfl) s).mpr henter)]
  by_cases hback : decode c s = 0x08
  · rw [if_pos hback, if_pos ((decode_control_iff (Or.inr rfl) s).mp hback)]
    simpa [pressKey, Key.Fits] using backspace_agrees h
  rw [if_neg hback, if_neg (mt (decode_control_iff (Or.inr rfl) s).mpr hback)]
  simpa [pressKey] using insert_agrees_iff h (decode c s) (decodeCopy c s)

end Make

/-- The scancode changes the editor as its copy does. -/
def Fits (c : BitVec 8) (s : State) : Prop :=
  ∀ k, keyOf c s.modifiers = some k → k.Fits (decodeCopy c s) s

/-- One scancode, given to both. -/
theorem handleScancode_agrees_iff {s : State} (h : Valid s) (c : BitVec 8) :
    (handleScancode c s).map seen = (handleInterrupt c s).map seen ↔ Fits c s := by
  rw [handleScancode, handleInterrupt, Fits, keyOf]
  by_cases hextend : c = 0xE0
  · simp [hextend]
  by_cases hbreak : c &&& 0x80 ≠ 0
  · rw [if_neg hextend, if_neg hextend, if_pos hbreak, if_pos hbreak, if_pos (Or.inr hbreak)]
    simp
  have hmake : ¬(c = 0xE0 ∨ c &&& 0x80 ≠ 0) := not_or.mpr ⟨hextend, hbreak⟩
  rw [if_neg hextend, if_neg hextend, if_neg hbreak, if_neg hbreak, if_neg hmake]
  by_cases hext : s.extended = true
  · have hmod : s.modifiers.extended = true := hext
    rw [if_pos hext, if_pos hext, if_pos hmod]
    exact handleExtended_agrees_iff h c (decodeCopy c s)
  · have hmod : ¬s.modifiers.extended = true := hext
    rw [if_neg hext, if_neg hext, if_neg hmod]
    exact handleMake_agrees_iff h c

/-- The second entry point called for one scancode after the other. -/
def runScancodes (codes : List (BitVec 8)) (s : State) : Option State :=
  runAll handleScancode codes s

theorem run_eq (codes : List (BitVec 8)) (s : State) :
    run codes s = runAll handleInterrupt codes s := by
  induction codes generalizing s with
  | nil => rfl
  | cons c codes ih =>
    rw [run, runAll]
    exact congrArg _ (funext ih)

/-- The two entry points agree after every part of a sequence exactly when each scancode fits
the state it meets. -/
theorem runScancodes_agrees_iff {s : State} (h : Valid s) (codes : List (BitVec 8)) :
    (∀ done, done <+: codes → (runScancodes done s).map seen = (run done s).map seen) ↔
      ∀ done c, done ++ [c] <+: codes → ∀ t, run done s = some t → Fits c t := by
  have hviews : (∀ done, done <+: codes →
      (runAll handleScancode done s).map seen = (runAll handleInterrupt done s).map seen) ↔
      ∀ done c, done ++ [c] <+: codes → ∀ t, runAll handleInterrupt done s = some t →
        (handleScancode c t).map seen = (handleInterrupt c t).map seen :=
    sameViews_iff (fun c _ _ hst => (handleScancode_respects c).congr hst) rfl
  simp only [runScancodes, run_eq]
  refine hviews.trans ?_
  constructor
  · intro hall done c hdone t ht
    have hvalid : Valid t := valid_run h ((run_eq done s).trans ht)
    exact (handleScancode_agrees_iff hvalid c).mp (hall done c hdone t ht)
  · intro hall done c hdone t ht
    have hvalid : Valid t := valid_run h ((run_eq done s).trans ht)
    exact (handleScancode_agrees_iff hvalid c).mpr (hall done c hdone t ht)

/-- From boot the letter A is typed and taken back. -/
theorem runScancodes_agrees_letter :
    (runScancodes [0x1E, 0x0E] State.boot).map seen = (run [0x1E, 0x0E] State.boot).map seen := by
  refine (runScancodes_agrees_iff valid_boot [0x1E, 0x0E]).mpr ?_ _ List.prefix_rfl
  intro done c hdone t ht k hk
  rcases done with _ | ⟨d, _ | ⟨e, done⟩⟩
  · obtain ⟨rfl, -⟩ : c = 0x1E ∧ _ := List.cons_prefix_cons.mp hdone
    obtain rfl := Option.some.inj ht
    obtain rfl := Option.some.inj hk
    exact Or.inl (by decide)
  · obtain ⟨rfl, hrest⟩ := List.cons_prefix_cons.mp hdone
    obtain ⟨rfl, -⟩ : c = 0x0E ∧ _ := List.cons_prefix_cons.mp hrest
    rw [modifiers_run valid_boot ht] at hk
    obtain rfl := Option.some.inj hk
    trivial
  · have hlength := hdone.length_le
    simp at hlength

/-- Shift and 1 give an exclamation mark in one and a digit in the other. -/
theorem shifted_symbol_differs : Valid State.boot ∧
    (runScancodes [0x2A, 0x02] State.boot).map seen ≠ (run [0x2A, 0x02] State.boot).map seen := by
  refine ⟨valid_boot, ?_⟩
  intro heq
  have hcell := congrArg (Option.map fun s => s.inputBuffer 0) heq
  revert hcell
  decide

end Keyboard
