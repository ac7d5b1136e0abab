import Nyrix.KeyboardPress

/-!
# Input from the serial port (kernel.cpp)

The main loop takes bytes from COM1 into the line the keyboard handler edits. It writes at the
cursor and never moves characters, so what is left behind the cursor differs between the two;
in front of it both do what a line that is only typed at its end does.
-/

namespace Keyboard

open BoundedLoop CharBuffer RecentList

def serialEnter (s : State) : Option State :=
  let s := emit (.putchar 0x0A) s
  (write bufferSize s.inputBuffer s.inputPos 0).bind fun b =>
    let s := { s with inputBuffer := b }
    (if s.inputPos > 0 then processCommand s else some s).map fun s =>
      emit (.write "nyrix> ") { s with inputPos := 0 }

def serialBackspace (s : State) : Option State :=
  if s.inputPos > 0 then some (emit (.putchar 0x08) { s with inputPos := s.inputPos - 1 })
  else some s

def serialChar (c : BitVec 8) (s : State) : Option State :=
  if s.inputPos < 255 then
    (write bufferSize s.inputBuffer s.inputPos c).map fun b =>
      emit (.putchar c) { s with inputBuffer := b, inputPos := s.inputPos + 1 }
  else some s

/-- A byte from COM1 in the main loop. The comparisons are those of a signed `char`. -/
def handleSerial (c : BitVec 8) (s : State) : Option State :=
  if c = 0x0D then serialEnter s
  else if c = 127 ∨ c = 8 then serialBackspace s
  else if 32 ≤ c.toInt ∧ c.toInt < 127 then serialChar c s
  else some s

inductive Input where
  | serial (c : BitVec 8)
  | scancode (c : BitVec 8)
  deriving DecidableEq

def handleInput : Input → State → Option State
  | .serial c => handleSerial c
  | .scancode c => handleInterrupt c

def runInputs : List Input → State → Option State
  | [], s => some s
  | i :: is, s => (handleInput i s).bind (runInputs is)

theorem runInputs_append (is js : List Input) (s : State) :
    runInputs (is ++ js) s = (runInputs is s).bind (runInputs js) := by
  induction is generalizing s with
  | nil => rfl
  | cons i is ih =>
    rw [List.cons_append, runInputs, runInputs, Option.bind_assoc]
    exact congrArg _ (funext ih)

/-- A line typed at its end, and the lines submitted so far. -/
structure Entry where
  text : List (BitVec 8)
  submitted : List (List (BitVec 8))
  deriving DecidableEq

inductive Typing where
  | char (c : BitVec 8)
  | backspace
  | enter
  deriving DecidableEq

/-- What typing does, whatever device it comes from. -/
def Entry.type : Typing → Entry → Entry
  | .char c, e => if e.text.length < 255 then { e with text := e.text ++ [c] } else e
  | .backspace, e => { e with text := e.text.dropLast }
  | .enter, e => { text := [], submitted := e.submitted ++ commandOf e.text }

def serialTyping (c : BitVec 8) : Option Typing :=
  if c = 0x0D then some .enter
  else if c = 127 ∨ c = 8 then some .backspace
  else if 32 ≤ c.toInt ∧ c.toInt < 127 then some (.char c)
  else none

def Key.typing : Key → Option Typing
  | .insert c => some (.char c)
  | .backspace => some .backspace
  | .enter => some .enter
  | _ => none

def Input.typing : Input → Modifiers → Option Typing
  | .serial c, _ => serialTyping c
  | .scancode c, m => (keyOf c m).bind Key.typing

def Input.next : Input → Modifiers → Modifiers
  | .serial _, m => m
  | .scancode c, m => m.next c

/-- What the inputs amount to, in their order. -/
def typings : List Input → Modifiers → List Typing
  | [], _ => []
  | i :: is, m => (i.typing m).toList ++ typings is (i.next m)

def typed (ts : List Typing) (e : Entry) : Entry := ts.foldl (fun e t => e.type t) e

/-- The shared buffer holds the typed line in front of the cursor; what is behind it is left
open. -/
structure Follows (s : State) (e : Entry) : Prop where
  valid : Valid s
  textBefore : TextBefore s
  plain : s.extended = false
  text : beforeCursor s = e.text
  submitted : commands s.out = e.submitted

section Follows

variable {s : State} {e : Entry}

theorem beforeCursor_length : (beforeCursor s).length = s.inputPos := by
  rw [beforeCursor, List.length_map, List.length_range]

/-- One more character in front of the cursor. -/
theorem beforeCursor_concat {t : State} (hpos : t.inputPos = s.inputPos + 1)
    (hsame : ∀ j < s.inputPos, t.inputBuffer j = s.inputBuffer j) :
    beforeCursor t = beforeCursor s ++ [t.inputBuffer s.inputPos] := by
  rw [beforeCursor, hpos, List.range_succ, List.map_append, List.map_singleton, beforeCursor,
    List.map_congr_left fun j hj => hsame j (List.mem_range.mp hj)]

/-- One character less. -/
theorem beforeCursor_dropLast {t : State} (hpos : t.inputPos = s.inputPos - 1)
    (hsame : ∀ j < s.inputPos - 1, t.inputBuffer j = s.inputBuffer j) :
    beforeCursor t = (beforeCursor s).dropLast := by
  rw [beforeCursor, hpos, beforeCursor, ← List.map_dropLast, List.dropLast_eq_take,
    List.length_range, List.take_range, Nat.min_eq_left (Nat.sub_le _ _),
    List.map_congr_left fun j hj => hsame j (List.mem_range.mp hj)]

theorem Follows.length (h : Follows s e) : e.text.length = s.inputPos := by
  rw [← h.text, beforeCursor_length]

theorem Follows.char {t : State} {c : BitVec 8} (h : Follows s e) (hvalid : Valid t)
    (htext : TextBefore t) (hplain : t.extended = false) (hlt : s.inputPos < 255)
    (hpos : t.inputPos = s.inputPos + 1) (hsame : ∀ j < s.inputPos, t.inputBuffer j = s.inputBuffer j)
    (hc : t.inputBuffer s.inputPos = c) (hout : commands t.out = commands s.out) :
    Follows t (e.type (.char c)) := by
  have hroom : e.text.length < 255 := by rwa [h.length]
  rw [Entry.type, if_pos hroom]
  refine ⟨hvalid, htext, hplain, ?_, hout.trans h.submitted⟩
  rw [beforeCursor_concat hpos hsame, h.text, hc]

/-- A full line takes no more characters. -/
theorem Follows.full {c : BitVec 8} (h : Follows s e) (hlt : ¬s.inputPos < 255) :
    Follows s (e.type (.char c)) := by
  have hfull : ¬e.text.length < 255 := by rwa [h.length]
  rw [Entry.type, if_neg hfull]
  exact h

theorem Follows.backspace {t : State} (h : Follows s e) (hvalid : Valid t) (htext : TextBefore t)
    (hplain : t.extended = false) (hpos : t.inputPos = s.inputPos - 1)
    (hsame : ∀ j < s.inputPos - 1, t.inputBuffer j = s.inputBuffer j)
    (hout : commands t.out = commands s.out) : Follows t (e.type .backspace) := by
  refine ⟨hvalid, htext, hplain, ?_, hout.trans h.submitted⟩
  rw [beforeCursor_dropLast hpos hsame, h.text, Entry.type]

theorem Follows.enter {t : State} (h : Follows s e) (hvalid : Valid t) (htext : TextBefore t)
    (hplain : t.extended = false) (hpos : t.inputPos = 0)
    (hout : commands t.out = commands s.out ++ commandOf (beforeCursor s)) :
    Follows t (e.type .enter) := by
  refine ⟨hvalid, htext, hplain, beforeCursor_nil.mpr hpos, ?_⟩
  rw [hout, h.submitted, h.text, Entry.type]

/-- The line is cut at the cursor and passed on, as the keyboard handler does it. -/
theorem serialEnter_eq (h : Valid s) (htext : TextBefore s) : ∃ echo,
    commands echo = commandOf (beforeCursor s) ∧
    serialEnter s = some (s.withLine (cutLine s, 0) echo) := by
  have hwrite : write bufferSize (emit (.putchar 0x0A) s).inputBuffer
      (emit (.putchar 0x0A) s).inputPos 0 = some (cutLine s) :=
    write_some (n := bufferSize) _ _ (Nat.lt_succ_of_le h.pos)
  rw [serialEnter, commandOf_beforeCursor]
  dsimp only
  rw [hwrite, Option.bind_some]
  by_cases hpos : s.inputPos = 0
  · have hnone : ¬(emit (.putchar 0x0A) s).inputPos > 0 := by
      simp only [emit]
      omega
    refine ⟨[.putchar 0x0A, .write "nyrix> "], (if_pos hpos).symm, ?_⟩
    rw [if_neg hnone, Option.map_some]
    simp only [emit, State.withLine, List.append_assoc]
    rfl
  · have hsome : (emit (.putchar 0x0A) s).inputPos > 0 := Nat.pos_of_ne_zero hpos
    have hprocess := processCommand_eq
      (s := { emit (.putchar 0x0A) s with inputBuffer := cutLine s }) (nulAt_cutLine htext)
      (Nat.lt_succ_of_le h.pos)
    have hfront : (List.range s.inputPos).map (cutLine s) = beforeCursor s := map_cutLine
    refine ⟨[.putchar 0x0A, .command (beforeCursor s), .write "nyrix> "], (if_neg hpos).symm, ?_⟩
    rw [if_pos hsome, hprocess, Option.map_some]
    simp only [emit, State.withLine, List.append_assoc, hfront]
    rfl

theorem serialEnter_follows {t : State} (h : Follows s e) (ht : serialEnter s = some t) :
    Follows t (e.type .enter) := by
  obtain ⟨echo, hecho, heq⟩ := serialEnter_eq h.valid h.textBefore
  obtain rfl := Option.some.inj (ht.symm.trans heq)
  have hlast : cutLine s 255 = 0#8 := (valid_cutLine h.valid).last
  have hvalid : Valid (s.withLine (cutLine s, 0) echo) := ⟨Nat.zero_le 255, hlast, h.valid.saved,
    h.valid.rows, h.valid.count, h.valid.index⟩
  refine h.enter hvalid (fun j hj => absurd hj (Nat.not_lt_zero j)) h.plain rfl ?_
  rw [State.withLine, commands_append, hecho]

theorem serialBackspace_follows {t : State} (h : Follows s e) (ht : serialBackspace s = some t) :
    Follows t (e.type .backspace) := by
  have hpos := h.valid.pos
  rw [serialBackspace] at ht
  split_ifs at ht with h0
  · obtain rfl := Option.some.inj ht
    have hvalid := (h.valid.edit h.valid.last (show s.inputPos - 1 ≤ 255 by omega)).emit
      (.putchar 0x08)
    refine h.backspace hvalid ?_ h.plain rfl (fun _ _ => rfl)
      ((commands_append _ _).trans (List.append_nil _))
    intro j hj
    exact h.textBefore j (Nat.lt_of_lt_of_le hj (Nat.sub_le _ _))
  · obtain rfl := Option.some.inj ht
    have hsame : s.inputPos = s.inputPos - 1 := by omega
    exact h.backspace h.valid h.textBefore h.plain hsame (fun _ _ => rfl) rfl

theorem serialChar_follows {c : BitVec 8} {t : State} (hc : c ≠ 0) (h : Follows s e)
    (ht : serialChar c s = some t) : Follows t (e.type (.char c)) := by
  rw [serialChar] at ht
  split_ifs at ht with hlt
  · rw [write_some (n := bufferSize) _ _ (Nat.lt_succ_of_lt hlt), Option.map_some] at ht
    obtain rfl := Option.some.inj ht
    have hlast : Function.update s.inputBuffer s.inputPos c 255 = 0#8 := by
      rw [Function.update_of_ne (Nat.ne_of_gt hlt), h.valid.last]
    have hvalid := (h.valid.edit hlast (Nat.succ_le_of_lt hlt)).emit (.putchar c)
    have hsame : ∀ j < s.inputPos,
        Function.update s.inputBuffer s.inputPos c j = s.inputBuffer j :=
      fun j hj => Function.update_of_ne (Nat.ne_of_lt hj) _ _
    refine h.char hvalid ?_ h.plain hlt rfl hsame (Function.update_self _ _ _)
      ((commands_append _ _).trans (List.append_nil _))
    intro j hj
    by_cases hat : j = s.inputPos
    · simpa [emit, hat] using hc
    · have hbelow : j < s.inputPos := Nat.lt_of_le_of_ne (Nat.le_of_lt_succ hj) hat
      exact fun hzero => h.textBefore j hbelow ((hsame j hbelow).symm.trans hzero)
  · obtain rfl := Option.some.inj ht
    exact h.full hlt

/-- A byte from the serial port. -/
theorem handleSerial_follows {c : BitVec 8} {t : State} (h : Follows s e)
    (ht : handleSerial c s = some t) : Follows t (typed (serialTyping c).toList e) := by
  rw [handleSerial] at ht
  rw [serialTyping]
  split_ifs at ht ⊢ with henter hback hchar
  · exact serialEnter_follows h ht
  · exact serialBackspace_follows h ht
  · refine serialChar_follows ?_ h ht
    rintro rfl
    exact absurd hchar (by decide)
  · obtain rfl := Option.some.inj ht
    exact h

/-- The keyboard handler moves what is behind the cursor; in front of it only the new character
is added. -/
theorem insert_follows {c : BitVec 8} {m : Modifiers} {u : State} (h : Follows s e)
    (hu : press (.insert c) s = some u) (hvalid : Valid (u.withModifiers m))
    (htext : TextBefore (u.withModifiers m)) (hplain : m.Plain) :
    Follows (u.withModifiers m) (e.type (.char c)) := by
  obtain ⟨echo, hecho, heq⟩ := press_edits (k := .insert c) trivial h.valid (by
    rintro _ - hfull
    rw [press_insert_full h.valid hfull] at hu
    cases hu)
  obtain rfl := Option.some.inj (hu.symm.trans heq)
  have hout : commands (s.out ++ echo) = commands s.out := by
    rw [commands_append, hecho, List.append_nil]
  by_cases hlt : s.inputPos < 255
  · have hline : lineAfter (.insert c) s.inputBuffer s.inputPos = (Function.update
        (if s.inputBuffer s.inputPos ≠ 0 then
          opened s.inputBuffer s.inputPos (endFrom s.inputBuffer s.inputPos)
        else s.inputBuffer) s.inputPos c, s.inputPos + 1) := if_pos hlt
    rw [hline] at hvalid htext ⊢
    refine h.char hvalid htext hplain hlt rfl ?_ (Function.update_self _ _ _) hout
    intro j hj
    refine (Function.update_of_ne (Nat.ne_of_lt hj) _ _).trans ?_
    split_ifs
    · exact if_neg (by omega)
    · rfl
  · have hline : lineAfter (.insert c) s.inputBuffer s.inputPos =
        (s.inputBuffer, s.inputPos) := if_neg hlt
    rw [hline] at hvalid htext ⊢
    have hsame : Follows ((s.withLine (s.inputBuffer, s.inputPos) echo).withModifiers m) e :=
      ⟨hvalid, htext, hplain, h.text, hout.trans h.submitted⟩
    exact hsame.full hlt

theorem backspace_follows {m : Modifiers} {u : State} (h : Follows s e)
    (hu : press .backspace s = some u) (hvalid : Valid (u.withModifiers m))
    (htext : TextBefore (u.withModifiers m)) (hplain : m.Plain) :
    Follows (u.withModifiers m) (e.type .backspace) := by
  obtain ⟨echo, hecho, heq⟩ := press_edits (k := .backspace) trivial h.valid (fun _ hc => by
    cases hc)
  obtain rfl := Option.some.inj (hu.symm.trans heq)
  have hout : commands (s.out ++ echo) = commands s.out := by
    rw [commands_append, hecho, List.append_nil]
  by_cases h0 : 0 < s.inputPos
  · have hline : lineAfter .backspace s.inputBuffer s.inputPos =
        (closed s.inputBuffer (s.inputPos - 1) (endFrom s.inputBuffer s.inputPos),
          s.inputPos - 1) := if_pos h0
    rw [hline] at hvalid htext ⊢
    exact h.backspace hvalid htext hplain rfl (fun j hj => if_neg (by omega)) hout
  · have hline : lineAfter .backspace s.inputBuffer s.inputPos =
        (s.inputBuffer, s.inputPos) := if_neg h0
    rw [hline] at hvalid htext ⊢
    have hsame : s.inputPos = s.inputPos - 1 := by omega
    exact h.backspace hvalid htext hplain hsame (fun _ _ => rfl) hout

theorem enter_follows {m : Modifiers} {u : State} (h : Follows s e) (hu : press .enter s = some u)
    (hvalid : Valid (u.withModifiers m)) (htext : TextBefore (u.withModifiers m))
    (hplain : m.Plain) : Follows (u.withModifiers m) (e.type .enter) := by
  obtain ⟨rows, count, echo, heq, hcommands, _⟩ := enter_eq h.valid h.textBefore
  have henter : enter s = some u := hu
  obtain rfl := Option.some.inj (henter.symm.trans heq)
  refine h.enter hvalid htext hplain rfl ?_
  rw [← hcommands]
  exact commands_append _ _

theorem handleSerial_modifiers {c : BitVec 8} {t : State} (h : Follows s e)
    (ht : handleSerial c s = some t) : t.modifiers = s.modifiers := by
  rw [handleSerial] at ht
  split_ifs at ht
  · obtain ⟨echo, _, heq⟩ := serialEnter_eq h.valid h.textBefore
    rw [Option.some.inj (ht.symm.trans heq)]
    rfl
  · rw [serialBackspace] at ht
    split_ifs at ht
    · rw [← Option.some.inj ht]
      rfl
    · rw [Option.some.inj ht]
  · rw [serialChar] at ht
    split_ifs at ht with hlt
    · rw [write_some (n := bufferSize) _ _ (Nat.lt_succ_of_lt hlt), Option.map_some] at ht
      rw [← Option.some.inj ht]
      rfl
    · rw [Option.some.inj ht]
  · rw [Option.some.inj ht]

end Follows

/-- Without a prefix only these keys are completed. -/
theorem makeKey_cases {c : BitVec 8} {m : Modifiers} {k : Key} (h : makeKey c m = some k) :
    k = .enter ∨ k = .backspace ∨ ∃ a, k = .insert a := by
  rw [makeKey] at h
  dsimp only at h
  split_ifs at h
  · exact .inl (Option.some.inj h).symm
  · exact .inr (.inl (Option.some.inj h).symm)
  · exact .inr (.inr ⟨_, (Option.some.inj h).symm⟩)

/-- A scancode other than 0xE0 leaves no prefix pending if none was. -/
theorem Modifiers.Plain.next {m : Modifiers} (h : m.Plain) {c : BitVec 8} (hE0 : c ≠ 0xE0) :
    (m.next c).Plain := by
  rw [Modifiers.next, if_neg hE0]
  have hext : ¬m.extended = true := Bool.not_eq_true _ ▸ h
  split_ifs
  · rfl
  · exact h
  · exact h
  · exact h

/-- A scancode without prefix. -/
theorem handleInterrupt_follows {c : BitVec 8} {s t : State} {e : Entry} (hE0 : c ≠ 0xE0)
    (h : Follows s e) (ht : handleInterrupt c s = some t) :
    Follows t (typed ((keyOf c s.modifiers).bind Key.typing).toList e) := by
  have hvalid := handleInterrupt_valid h.valid ht
  have htext := handleInterrupt_text h.valid h.textBefore ht
  have hplain : (s.modifiers.next c).Plain := Modifiers.Plain.next (m := s.modifiers) h.plain hE0
  obtain ⟨u, hu, rfl⟩ := handleInterrupt_press h.valid ht
  cases hkey : keyOf c s.modifiers with
  | none =>
    rw [hkey] at hu
    obtain rfl := Option.some.inj hu
    exact ⟨hvalid, htext, hplain, h.text, h.submitted⟩
  | some k =>
    rw [hkey] at hu
    have hpress : press k s = some u := hu
    have hmake : makeKey c s.modifiers = some k := by
      have hext : ¬s.modifiers.extended = true := Bool.not_eq_true _ ▸ h.plain
      rw [keyOf, if_neg hext] at hkey
      split_ifs at hkey
      exact hkey
    obtain rfl | rfl | ⟨a, rfl⟩ := makeKey_cases hmake
    · exact enter_follows h hpress hvalid htext hplain
    · exact backspace_follows h hpress hvalid htext hplain
    · exact insert_follows h hpress hvalid htext hplain

/-- No input is the prefix 0xE0. -/
def NoPrefix (inputs : List Input) : Prop := Input.scancode 0xE0 ∉ inputs

theorem handleInput_follows {i : Input} {s t : State} {e : Entry} (hE0 : i ≠ .scancode 0xE0)
    (h : Follows s e) (ht : handleInput i s = some t) :
    Follows t (typed (i.typing s.modifiers).toList e) ∧ t.modifiers = i.next s.modifiers := by
  cases i with
  | serial c => exact ⟨handleSerial_follows h ht, handleSerial_modifiers h ht⟩
  | scancode c =>
    refine ⟨handleInterrupt_follows (fun hc => hE0 (congrArg Input.scancode hc)) h ht, ?_⟩
    obtain ⟨u, _, rfl⟩ := handleInterrupt_press h.valid ht
    rfl

/-- Every interleaving does what the same typing does on a line of its own. -/
theorem runInputs_follows {inputs : List Input} {s t : State} {e : Entry} (hE0 : NoPrefix inputs)
    (h : Follows s e) (hrun : runInputs inputs s = some t) :
    Follows t (typed (typings inputs s.modifiers) e) := by
  induction inputs generalizing s e with
  | nil => exact Option.some.inj hrun ▸ h
  | cons i inputs ih =>
    rw [runInputs, Option.bind_eq_some_iff] at hrun
    obtain ⟨u, hu, hrest⟩ := hrun
    obtain ⟨hi, hinputs⟩ := List.ne_and_not_mem_of_not_mem_cons hE0
    obtain ⟨hfollows, hmod⟩ := handleInput_follows (Ne.symm hi) h hu
    rw [typings, typed, List.foldl_append, ← hmod]
    exact ih hinputs hfollows hrest

theorem follows_boot : Follows State.boot ⟨[], []⟩ :=
  ⟨valid_boot, textBefore_boot, rfl, rfl, rfl⟩

/-- From the boot state the commands passed on are the lines submitted, whichever device each
character came from. -/
theorem runInputs_submitted {inputs : List Input} {s : State} (hE0 : NoPrefix inputs)
    (hrun : runInputs inputs State.boot = some s) :
    commands s.out = (typed (typings inputs State.boot.modifiers) ⟨[], []⟩).submitted :=
  (runInputs_follows hE0 follows_boot hrun).submitted

/-- The letters a and b from the serial port, a Backspace from the keyboard, c from the serial
port, and Enter from the keyboard. -/
theorem runInputs_submitted_mixed : ∃ s, runInputs [.serial 0x61, .serial 0x62, .scancode 0x0E,
    .serial 0x63, .scancode 0x1C] State.boot = some s ∧ commands s.out = [[0x61, 0x63]] := by
  obtain ⟨s, hs⟩ := Option.isSome_iff_exists.mp (by decide : (runInputs [.serial 0x61, .serial 0x62,
    .scancode 0x0E, .serial 0x63, .scancode 0x1C] State.boot).isSome)
  exact ⟨s, hs, (runInputs_submitted (by unfold NoPrefix; decide) hs).trans (by decide)⟩

end Keyboard
