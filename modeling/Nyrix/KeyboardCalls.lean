import Nyrix.SerialInput

/-!
# What the handlers ask of the terminal (keyboard.cpp, kernel.cpp)

While nothing but the end of the line is typed, the calls a handler makes follow from what is typed
and from the line, and a command reads the line up to the cursor.
-/

namespace Keyboard

open CharBuffer

/-- What a handler asks of the terminal and of the command interpreter, by what is typed at the end
of the text. -/
inductive Calls (text : List (BitVec 8)) : Option Typing → List Event → Prop where
  | none : Calls text none []
  | serial {c : BitVec 8} (room : text.length < 255) : Calls text (some (.char c)) [.putchar c]
  | key {c : BitVec 8} (room : text.length < 255) :
      Calls text (some (.char c)) [.putchar c, .redraw (text ++ [c])]
  | full {c : BitVec 8} (full : ¬text.length < 255) : Calls text (some (.char c)) []
  | backspace (nonempty : text ≠ []) : Calls text (some .backspace) [.putchar 0x08]
  | start (empty : text = []) : Calls text (some .backspace) []
  | enter : Calls text (some .enter)
      (.putchar 0x0A :: (commandOf text).map .command ++ [.write "nyrix> "])

section Calls

variable {s t : State} {e : Entry} {c : BitVec 8}

/-- A line feed, perhaps a command, and the prompt: what is passed on tells whether there is a
command. -/
theorem calls_enter {text : List (BitVec 8)} {echo between : List Event}
    (hshape : between = [] ∨ ∃ line, between = [.command line])
    (hecho : echo = .putchar 0x0A :: between ++ [.write "nyrix> "])
    (hcommands : commands echo = commandOf text) : Calls text (some .enter) echo := by
  have hbetween : between = (commandOf text).map .command := by
    rw [← hcommands, hecho]
    obtain rfl | ⟨line, rfl⟩ := hshape
    · rfl
    · rfl
  rw [hecho, hbetween]
  exact .enter

theorem processCommand_out (h : processCommand s = some t) :
    ∃ line, t.out = s.out ++ [.command line] := by
  rw [processCommand, Option.bind_eq_some_iff] at h
  obtain ⟨len, -, h⟩ := h
  obtain ⟨line, -, rfl⟩ := Option.map_eq_some_iff.mp h
  exact ⟨line, rfl⟩

theorem serialEnter_calls (h : Follows s e) (ht : serialEnter s = some t) : ∃ calls,
    t.out = s.out ++ calls ∧ t.inputBuffer = cutLine s ∧ Calls e.text (some .enter) calls := by
  obtain ⟨echo, hecho, heq⟩ := serialEnter_eq h.valid h.textBefore
  obtain rfl := Option.some.inj (ht.symm.trans heq)
  refine ⟨echo, rfl, rfl, ?_⟩
  rw [h.text] at hecho
  rw [serialEnter, Option.bind_eq_some_iff] at heq
  obtain ⟨b, -, heq⟩ := heq
  obtain ⟨u, hu, heq⟩ := Option.map_eq_some_iff.mp heq
  have hout : s.out ++ echo = u.out ++ [.write "nyrix> "] := (congrArg State.out heq).symm
  split_ifs at hu
  · obtain ⟨line, hline⟩ := processCommand_out hu
    refine calls_enter (.inr ⟨line, rfl⟩) (List.append_cancel_left (hout.trans ?_)) hecho
    rw [hline]
    simp [emit]
  · obtain rfl := Option.some.inj hu
    refine calls_enter (.inl rfl) (List.append_cancel_left (hout.trans ?_)) hecho
    simp [emit]

/-- The history is recorded without a call. -/
theorem addHistory_out (h : Valid s) (ht : addHistory s = some t) : t.out = s.out := by
  obtain ⟨rows, count, heq, -⟩ := addHistory_eq h
  rw [Option.some.inj (ht.symm.trans heq)]

theorem enter_calls (h : Follows s e) (ht : enter s = some t) : ∃ calls,
    t.out = s.out ++ calls ∧ t.inputBuffer = cutLine s ∧ Calls e.text (some .enter) calls := by
  obtain ⟨rows, count, echo, heq, hecho, -⟩ := enter_eq h.valid h.textBefore
  obtain ⟨u, hprompt, hu⟩ := enter_cases h.valid ht
  obtain rfl := Option.some.inj (ht.symm.trans heq)
  refine ⟨echo, rfl, rfl, ?_⟩
  rw [h.text] at hecho
  have hout : s.out ++ echo = u.out ++ [.write "nyrix> "] := congrArg State.out hprompt
  obtain rfl | ⟨line, hadd⟩ := hu
  · refine calls_enter (.inl rfl) (List.append_cancel_left (hout.trans ?_)) hecho
    simp [emit]
  · have hsame := addHistory_out ((valid_cutLine h.valid).emit _) hadd
    refine calls_enter (.inr ⟨line, rfl⟩) (List.append_cancel_left (hout.trans ?_)) hecho
    rw [hsame]
    simp [emit]

theorem insertChar_calls (h : Follows s e) (ht : insertChar c s = some t) : ∃ calls,
    t.out = s.out ++ calls ∧ Calls e.text (some (.char c)) calls := by
  have hlength := h.length
  by_cases hlt : s.inputPos < 255
  · obtain ⟨n, hn, hnul⟩ := h.valid.nulAt h.valid.pos
    have hne : n ≠ 255 := by
      rintro rfl
      rw [insertChar_none c h.valid ⟨hlt, hnul.text⟩] at ht
      cases ht
    have hline : (List.range (s.inputPos + 1)).map (Function.update (roomy s n) s.inputPos c) =
        e.text ++ [c] := by
      rw [List.range_succ, List.map_append, List.map_singleton, Function.update_self, ← h.text,
        beforeCursor]
      congr 1
      refine List.map_congr_left fun j hj => ?_
      have hj' := List.mem_range.mp hj
      rw [Function.update_of_ne (Nat.ne_of_lt hj'), roomy]
      split_ifs
      · exact if_neg (by omega)
      · rfl
    rw [insertChar_eq c hnul (by omega), redrawInput_eq (Nat.succ_le_of_lt hlt)] at ht
    obtain rfl := Option.some.inj ht
    refine ⟨_, List.append_assoc _ _ _, ?_⟩
    dsimp only [emit]
    rw [hline]
    exact .key (by omega)
  · rw [insertChar_full c hlt] at ht
    obtain rfl := Option.some.inj ht
    exact ⟨[], (List.append_nil _).symm, .full (by omega)⟩

theorem serialChar_calls (h : Follows s e) (ht : serialChar c s = some t) : ∃ calls,
    t.out = s.out ++ calls ∧ Calls e.text (some (.char c)) calls := by
  have hlength := h.length
  rw [serialChar] at ht
  split_ifs at ht with hroom
  · obtain ⟨b, -, rfl⟩ := Option.map_eq_some_iff.mp ht
    exact ⟨_, rfl, .serial (by omega)⟩
  · obtain rfl := Option.some.inj ht
    exact ⟨[], (List.append_nil _).symm, .full (by omega)⟩

/-- A backspace is echoed when there is something to take back. -/
theorem backspace_calls (h : Follows s e)
    (hout : t.out = s.out ++ if 0 < s.inputPos then [.putchar 0x08] else []) : ∃ calls,
      t.out = s.out ++ calls ∧ Calls e.text (some .backspace) calls := by
  refine ⟨_, hout, ?_⟩
  have hlength := h.length
  split_ifs with hpos
  · refine .backspace fun hnil => ?_
    rw [hnil, List.length_nil] at hlength
    omega
  · exact .start (List.length_eq_zero_iff.mp (by omega))

theorem backspace_out (ht : backspace s = some t) :
    t.out = s.out ++ if 0 < s.inputPos then [.putchar 0x08] else [] := by
  rw [backspace] at ht
  split_ifs at ht ⊢
  · obtain ⟨b, -, rfl⟩ := Option.map_eq_some_iff.mp ht
    rfl
  · obtain rfl := Option.some.inj ht
    exact (List.append_nil _).symm

theorem serialBackspace_out (ht : serialBackspace s = some t) :
    t.out = s.out ++ if 0 < s.inputPos then [.putchar 0x08] else [] := by
  rw [serialBackspace] at ht
  split_ifs at ht ⊢
  · obtain rfl := Option.some.inj ht
    rfl
  · obtain rfl := Option.some.inj ht
    exact (List.append_nil _).symm

/-- A handler makes the calls of what is typed, and has a command read the line cut off. -/
structure Handled (text : List (BitVec 8)) (y : Option Typing) (s t : State)
    (calls : List Event) : Prop where
  out : t.out = s.out ++ calls
  calls : Calls text y calls
  line : y = some .enter → t.inputBuffer = cutLine s

theorem handleSerial_calls (h : Follows s e) (ht : handleSerial c s = some t) :
    ∃ calls, Handled e.text (serialTyping c) s t calls := by
  rw [handleSerial] at ht
  rw [serialTyping]
  split_ifs at ht ⊢
  · obtain ⟨calls, hout, hline, hcalls⟩ := serialEnter_calls h ht
    exact ⟨calls, hout, hcalls, fun _ => hline⟩
  · obtain ⟨calls, hout, hcalls⟩ := backspace_calls h (serialBackspace_out ht)
    exact ⟨calls, hout, hcalls, fun heq => by cases heq⟩
  · obtain ⟨calls, hout, hcalls⟩ := serialChar_calls h ht
    exact ⟨calls, hout, hcalls, fun heq => by cases heq⟩
  · obtain rfl := Option.some.inj ht
    exact ⟨[], (List.append_nil _).symm, .none, fun heq => by cases heq⟩

theorem handleInterrupt_calls (h : Follows s e) (ht : handleInterrupt c s = some t) :
    ∃ calls, Handled e.text ((keyOf c s.modifiers).bind Key.typing) s t calls := by
  obtain ⟨u, hu, rfl⟩ := handleInterrupt_press h.valid ht
  cases hkey : keyOf c s.modifiers with
  | none =>
    rw [hkey] at hu
    obtain rfl := Option.some.inj hu
    exact ⟨[], (List.append_nil _).symm, .none, fun heq => by cases heq⟩
  | some k =>
    rw [hkey] at hu
    have hmake : makeKey c s.modifiers = some k := by
      have hext : ¬s.modifiers.extended = true := Bool.not_eq_true _ ▸ h.plain
      rw [keyOf, if_neg hext] at hkey
      split_ifs at hkey
      exact hkey
    obtain rfl | rfl | ⟨a, rfl⟩ := makeKey_cases hmake
    · obtain ⟨calls, hout, hline, hcalls⟩ := enter_calls h hu
      exact ⟨calls, hout, hcalls, fun _ => hline⟩
    · obtain ⟨calls, hout, hcalls⟩ := backspace_calls h (backspace_out hu)
      exact ⟨calls, hout, hcalls, fun heq => by cases heq⟩
    · obtain ⟨calls, hout, hcalls⟩ := insertChar_calls h hu
      exact ⟨calls, hout, hcalls, fun heq => by cases heq⟩

theorem handleInput_calls {i : Input} (h : Follows s e) (ht : handleInput i s = some t) :
    ∃ calls, Handled e.text (i.typing s.modifiers) s t calls := by
  cases i with
  | serial c => exact handleSerial_calls h ht
  | scancode c => exact handleInterrupt_calls h ht

end Calls

end Keyboard
