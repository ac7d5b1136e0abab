import Nyrix.ProcessCommand
import Nyrix.SerialInput
import Nyrix.TerminalSerial

/-!
# A session at the serial port (kernel.cpp)

The main loop edits a line from the bytes that arrive on COM1 and runs the command in it, and
what it echoes and answers goes out on COM1 again. Seen from there the kernel is a dialogue:
what has been said follows from what has been typed.
-/

namespace Terminal

open Gfx PartialRuns

variable {s t u : State}

/-- The terminal went from one state to the other, and put these characters on its layers. -/
structure Said (str : List (BitVec 8)) (s t : State) : Prop where
  serving : Serving s t
  sent : t.gfx.serial.sent = s.gfx.serial.sent ++ str.flatMap (sends s.useFramebuffer)

theorem Said.trans {str str' : List (BitVec 8)} (h : Said str s t) (h' : Said str' t u) :
    Said (str ++ str') s u where
  serving := ⟨h'.serving.serves, h'.serving.mode.trans h.serving.mode⟩
  sent := by
    rw [h'.sent, h.sent, h.serving.mode, List.flatMap_append, List.append_assoc]

theorem said_putchar {c : BitVec 8} (hserial : s.gfx.serial.useSerial = true)
    (h : terminalPutchar c s = some t) : Said [c] s t := by
  obtain ⟨hserving, hsent⟩ := terminalPutchar_sent hserial h
  refine ⟨hserving, ?_⟩
  rw [hsent, List.flatMap_singleton]

theorem said_write {str : List (BitVec 8)} (hserial : s.gfx.serial.useSerial = true)
    (h : terminalWrite str s = some t) : Said (cString str) s t := by
  refine ⟨?_, terminalWrite_sent hserial h⟩
  induction str generalizing s with
  | nil =>
    obtain rfl := Option.some.inj h
    exact ⟨hserial, rfl⟩
  | cons c str ih =>
    rw [terminalWrite] at h
    split_ifs at h
    · obtain rfl := Option.some.inj h
      exact ⟨hserial, rfl⟩
    · rw [Option.bind_eq_some_iff] at h
      obtain ⟨u, hput, hwrite⟩ := h
      have hserving := (terminalPutchar_sent hserial hput).1
      have hrest := ih hserving.serves hwrite
      exact ⟨hrest.serves, hrest.mode.trans hserving.mode⟩

theorem gfxClear_serial {g g' : Gfx.State} (h : gfxClear g = some g') :
    g'.serial = g.serial := by
  rw [gfxClear, Option.bind_eq_some_iff] at h
  obtain ⟨m, hfill, hshow⟩ := h
  have hm := (loop_painted (fun _ _ _ => fillRow_painted) hfill).serial
  rw [(gfxInvertCell_painted hshow).serial, ← hm]

theorem said_clear (hserial : s.gfx.serial.useSerial = true) (h : terminalClear s = some t) :
    Said [] s t := by
  cases hmode : s.useFramebuffer with
  | true =>
    rw [terminalClear, if_pos hmode, onGfx, Option.map_eq_some_iff] at h
    obtain ⟨g, hclear, rfl⟩ := h
    have hg := gfxClear_serial hclear
    refine ⟨⟨?_, rfl⟩, ?_⟩
    · rw [hg]
      exact hserial
    · rw [hg, List.flatMap_nil, List.append_nil]
  | false =>
    obtain rfl := Option.some.inj ((terminalClear_eq hmode).symm.trans h)
    exact ⟨⟨hserial, rfl⟩, (List.append_nil _).symm⟩

theorem said_setcolor (color : BitVec 8) (hserial : s.gfx.serial.useSerial = true) :
    Said [] s (terminalSetcolor color s) := by
  by_cases hmode : s.useFramebuffer = true
  · rw [terminalSetcolor, if_pos hmode]
    exact ⟨⟨hserial, rfl⟩, (List.append_nil _).symm⟩
  · rw [terminalSetcolor, if_neg hmode]
    exact ⟨⟨hserial, rfl⟩, (List.append_nil _).symm⟩

/-- A call of the command interpreter. -/
def perform : Commands.Call → State → Option State
  | .write str => terminalWrite str
  | .clear => terminalClear
  | .setcolor color => fun s => some (terminalSetcolor color s)

/-- The characters a call writes. -/
def characters : Commands.Call → List (BitVec 8)
  | .write str => cString str
  | .clear => []
  | .setcolor _ => []

theorem said_perform {c : Commands.Call} (hserial : s.gfx.serial.useSerial = true)
    (h : perform c s = some t) : Said (characters c) s t := by
  cases c with
  | write str => exact said_write hserial h
  | clear => exact said_clear hserial h
  | setcolor color =>
    obtain rfl := Option.some.inj h
    exact said_setcolor color hserial

theorem said_calls {calls : List Commands.Call} (hserial : s.gfx.serial.useSerial = true)
    (h : runAll perform calls s = some t) : Said (calls.flatMap characters) s t := by
  induction calls generalizing s with
  | nil =>
    obtain rfl := Option.some.inj h
    exact ⟨⟨hserial, rfl⟩, (List.append_nil _).symm⟩
  | cons c calls ih =>
    rw [runAll, Option.bind_eq_some_iff] at h
    obtain ⟨u, hcall, hrest⟩ := h
    have hfirst := said_perform hserial hcall
    exact hfirst.trans (ih hfirst.serving.serves hrest)

theorem perform_writes (c : Commands.Call) (h : Writes s) :
    ∃ t, perform c s = some t ∧ Writes t := by
  cases c with
  | write str => exact terminalWrite_writes str h
  | clear => exact terminalClear_writes h
  | setcolor color =>
    have hvga : ¬s.useFramebuffer = true := Bool.not_eq_true _ ▸ h.vga
    exact ⟨_, rfl, by rw [terminalSetcolor, if_neg hvga]; exact ⟨h.vga, h.inCells⟩⟩

theorem calls_writes (calls : List Commands.Call) (h : Writes s) :
    ∃ t, runAll perform calls s = some t ∧ Writes t := by
  induction calls generalizing s with
  | nil => exact ⟨s, rfl, h⟩
  | cons c calls ih =>
    obtain ⟨u, hcall, hu⟩ := perform_writes c h
    rw [runAll, hcall, Option.bind_some]
    exact ih hu

end Terminal

namespace MainLoop

open CharBuffer Commands PartialRuns Terminal
open Keyboard (bufferSize serialTyping Typing)

/-- What an iteration of the main loop finds: the byte in the receiver, the number of free
pages, and what the array of `process_command` holds before it is written. -/
structure Arrival where
  char : BitVec 8
  freePages : BitVec 32
  array : Buffer

structure Console where
  inputBuffer : Buffer
  inputPos : Nat
  terminal : Terminal.State
  after : After

/-- `process_command(input_buffer)` on the terminal. -/
def command (a : Arrival) (b : Buffer) (s : Terminal.State) : Option (Terminal.State × After) :=
  (processCommand bufferSize b a.freePages a.array).bind fun made =>
    (runAll perform made.1 s).map fun s => (s, made.2)

def enter (a : Arrival) (s : Console) : Option Console :=
  (terminalPutchar 0x0A s.terminal).bind fun t =>
  (write bufferSize s.inputBuffer s.inputPos 0#8).bind fun b =>
  (if s.inputPos > 0 then command a b t else some (t, .returns)).bind fun done =>
  if done.2 = .returns then
    (terminalWrite prompt done.1).map fun t =>
      { inputBuffer := b, inputPos := 0, terminal := t, after := .returns }
  else some { s with inputBuffer := b, terminal := done.1, after := done.2 }

def backspace (s : Console) : Option Console :=
  if s.inputPos > 0 then
    (terminalPutchar 0x08 s.terminal).map fun t =>
      { s with inputPos := s.inputPos - 1, terminal := t }
  else some s

def char (c : BitVec 8) (s : Console) : Option Console :=
  if s.inputPos < 255 then
    (write bufferSize s.inputBuffer s.inputPos c).bind fun b =>
      (terminalPutchar c s.terminal).map fun t =>
        { s with inputBuffer := b, inputPos := s.inputPos + 1, terminal := t }
  else some s

/-- A byte from COM1; nothing is read any more once a command has not returned. The comparisons
are those of a signed `char`. -/
def receive (a : Arrival) (s : Console) : Option Console :=
  if s.after ≠ .returns then some s
  else if a.char = 0x0D then enter a s
  else if a.char = 127 ∨ a.char = 8 then backspace s
  else if 32 ≤ a.char.toInt ∧ a.char.toInt < 127 then char a.char s
  else some s

def banner : List (BitVec 8) := ascii "Nyrix Kernel v0.1\n"

/-- What `kernel_main` shows before its loop. -/
def greet (s : Terminal.State) : Option Terminal.State :=
  (terminalClear s).bind fun s => (terminalWrite banner s).bind (terminalWrite prompt)

/-- The loop, from the static initial values of the line. -/
def session (arrivals : List Arrival) (s : Terminal.State) : Option Console :=
  (greet s).bind fun s => runAll receive arrivals
    { inputBuffer := fun _ => 0#8, inputPos := 0, terminal := s, after := .returns }

/-! ## The dialogue -/

/-- The line being typed, everything said so far, and whether the shell is still there. -/
structure Dialogue where
  text : List (BitVec 8)
  said : List (BitVec 8)
  after : After

def Dialogue.type (d : Dialogue) (freePages : Nat) : Typing → Dialogue
  | .char c =>
    if d.text.length < 255 then { d with text := d.text ++ [c], said := d.said ++ [c] } else d
  | .backspace =>
    if d.text = [] then d else { d with text := d.text.dropLast, said := d.said ++ [0x08] }
  | .enter =>
    let r := shell freePages d.text
    let said := d.said ++ [0x0A] ++ r.1.flatMap characters
    if r.2 = .returns then { text := [], said := said ++ prompt, after := .returns }
    else { d with said := said, after := r.2 }

def Dialogue.hear (d : Dialogue) (a : Arrival) : Dialogue :=
  if d.after = .returns then
    (serialTyping a.char).elim d fun y => d.type a.freePages.toNat y
  else d

/-- What is said in the course of these arrivals. -/
def dialogue (arrivals : List Arrival) : Dialogue :=
  arrivals.foldl Dialogue.hear ⟨[], banner ++ prompt, .returns⟩

/-- The console holds the line and has said what the dialogue has. -/
structure Follows (start : Terminal.State) (s : Console) (d : Dialogue) : Prop where
  pos : s.inputPos ≤ 255
  text : (List.range s.inputPos).map s.inputBuffer = d.text
  nonzero : ∀ j < s.inputPos, s.inputBuffer j ≠ 0#8
  after : s.after = d.after
  said : Said d.said start s.terminal

section Follows

variable {start : Terminal.State} {s t : Console} {d : Dialogue} {a : Arrival}

theorem Follows.length (h : Follows start s d) : d.text.length = s.inputPos := by
  rw [← h.text, List.length_map, List.length_range]

theorem Follows.serves (h : Follows start s d) : s.terminal.gfx.serial.useSerial = true :=
  h.said.serving.serves

/-- The line with the NUL behind it. -/
theorem Follows.nulAt (h : Follows start s d) :
    NulAt (Function.update s.inputBuffer s.inputPos 0#8) 0 s.inputPos where
  le := Nat.zero_le _
  nul := Function.update_self _ _ _
  text := by
    intro j _ hj
    rw [Function.update_of_ne (Nat.ne_of_lt hj)]
    exact h.nonzero j hj

theorem Follows.string (h : Follows start s d) :
    string bufferSize (Function.update s.inputBuffer s.inputPos 0#8) = d.text := by
  rw [string_eq (n := bufferSize) h.nulAt (Nat.lt_succ_of_le h.pos), ← h.text]
  refine List.map_congr_left fun j hj => ?_
  rw [Function.update_of_ne (Nat.ne_of_lt (List.mem_range.mp hj))]

/-- An empty line asks for nothing, so both branches of `if (input_pos > 0)` do what the shell
does for the line. -/
theorem Follows.command (h : Follows start s d) (u : Terminal.State) :
    (if s.inputPos > 0 then
      command a (Function.update s.inputBuffer s.inputPos 0#8) u else some (u, .returns)) =
      (runAll perform (shell a.freePages.toNat d.text).1 u).map fun u =>
        (u, (shell a.freePages.toNat d.text).2) := by
  by_cases hpos : s.inputPos > 0
  · have hshell := processCommand_shell (n := bufferSize) h.nulAt (Nat.lt_succ_of_le h.pos)
      a.freePages a.array
    rw [if_pos hpos, MainLoop.command, hshell, Option.bind_some, h.string]
  · have hnil : d.text = [] := by
      apply List.length_eq_zero_iff.mp
      rw [h.length]
      omega
    rw [if_neg hpos, hnil]
    rfl

theorem enter_follows (h : Follows start s d)
    (ht : enter a s = some t) : Follows start t (d.type a.freePages.toNat .enter) := by
  rw [enter, Option.bind_eq_some_iff] at ht
  obtain ⟨u, hlf, ht⟩ := ht
  have hu := h.said.trans (said_putchar h.serves hlf)
  have hwrite : write bufferSize s.inputBuffer s.inputPos 0#8 = some _ :=
    write_some _ _ (Nat.lt_succ_of_le h.pos)
  rw [hwrite, Option.bind_some, h.command, Option.bind_eq_some_iff] at ht
  obtain ⟨done, hrun, ht⟩ := ht
  obtain ⟨v, hv, rfl⟩ := Option.map_eq_some_iff.mp hrun
  have hsaid := hu.trans (said_calls hu.serving.serves hv)
  rw [Dialogue.type]
  dsimp only at ht ⊢
  split_ifs at ht ⊢ with hreturns
  · obtain ⟨w, hw, rfl⟩ := Option.map_eq_some_iff.mp ht
    have hprompt : cString prompt = prompt := by decide
    have hlast := said_write hsaid.serving.serves hw
    rw [hprompt] at hlast
    exact ⟨Nat.zero_le _, rfl, fun j hj => absurd hj (Nat.not_lt_zero j), rfl, hsaid.trans hlast⟩
  · obtain rfl := Option.some.inj ht
    refine ⟨h.pos, ?_, fun j hj => h.nulAt.text j (Nat.zero_le j) hj, rfl, hsaid⟩
    rw [← h.string, string_eq (n := bufferSize) h.nulAt (Nat.lt_succ_of_le h.pos)]

theorem backspace_follows (h : Follows start s d) (freePages : Nat)
    (ht : backspace s = some t) : Follows start t (d.type freePages .backspace) := by
  have hlength := h.length
  rw [backspace] at ht
  rw [Dialogue.type]
  by_cases hpos : s.inputPos > 0
  · have hne : d.text ≠ [] := by
      intro hnil
      rw [hnil, List.length_nil] at hlength
      omega
    rw [if_pos hpos, Option.map_eq_some_iff] at ht
    obtain ⟨u, hu, rfl⟩ := ht
    rw [if_neg hne]
    refine ⟨Nat.le_trans (Nat.sub_le _ _) h.pos, ?_, ?_, h.after,
      h.said.trans (said_putchar h.serves hu)⟩
    · rw [← h.text, ← List.map_dropLast, List.dropLast_eq_take, List.length_range, List.take_range,
        Nat.min_eq_left (Nat.sub_le _ _)]
    · intro j hj
      exact h.nonzero j (Nat.lt_of_lt_of_le hj (Nat.sub_le _ _))
  · have hnil : d.text = [] := List.length_eq_zero_iff.mp (by omega)
    rw [if_neg hpos] at ht
    obtain rfl := Option.some.inj ht
    rw [if_pos hnil]
    exact h

theorem char_follows {c : BitVec 8} (hc : c ≠ 0#8) (h : Follows start s d) (freePages : Nat)
    (ht : char c s = some t) : Follows start t (d.type freePages (.char c)) := by
  have hlength := h.length
  rw [char] at ht
  rw [Dialogue.type, hlength]
  split_ifs at ht ⊢ with hroom
  · rw [write_some (n := bufferSize) _ _ (Nat.lt_succ_of_lt hroom), Option.bind_some,
      Option.map_eq_some_iff] at ht
    obtain ⟨u, hu, rfl⟩ := ht
    refine ⟨Nat.succ_le_of_lt hroom, ?_, ?_, h.after, h.said.trans (said_putchar h.serves hu)⟩
    · dsimp only
      rw [List.range_succ, List.map_append, List.map_singleton, Function.update_self, ← h.text]
      congr 1
      refine List.map_congr_left fun j hj => ?_
      rw [Function.update_of_ne (Nat.ne_of_lt (List.mem_range.mp hj))]
    · intro j hj
      dsimp only
      by_cases hat : j = s.inputPos
      · rw [hat, Function.update_self]
        exact hc
      · rw [Function.update_of_ne hat]
        exact h.nonzero j (Nat.lt_of_le_of_ne (Nat.le_of_lt_succ hj) hat)
  · obtain rfl := Option.some.inj ht
    exact h

theorem receive_follows (h : Follows start s d) (ht : receive a s = some t) :
    Follows start t (d.hear a) := by
  rw [receive, h.after] at ht
  rw [Dialogue.hear]
  by_cases hgoes : d.after = .returns
  · rw [if_neg (not_not.mpr hgoes)] at ht
    rw [if_pos hgoes, serialTyping]
    split_ifs at ht ⊢ with henter hback hchar
    · exact enter_follows h ht
    · exact backspace_follows h a.freePages.toNat ht
    · refine char_follows ?_ h a.freePages.toNat ht
      intro hzero
      rw [hzero] at hchar
      exact absurd hchar (by decide)
    · obtain rfl := Option.some.inj ht
      exact h
  · rw [if_pos hgoes] at ht
    obtain rfl := Option.some.inj ht
    rw [if_neg hgoes]
    exact h

theorem arrivals_follow {arrivals : List Arrival} (h : Follows start s d)
    (ht : runAll receive arrivals s = some t) :
    Follows start t (arrivals.foldl Dialogue.hear d) := by
  induction arrivals generalizing s d with
  | nil => exact Option.some.inj ht ▸ h
  | cons a arrivals ih =>
    rw [runAll, Option.bind_eq_some_iff] at ht
    obtain ⟨u, hu, hrest⟩ := ht
    exact ih (receive_follows h hu) hrest

end Follows

/-- A byte does to the line what it does next to the keyboard handler. -/
theorem receive_handleSerial {k : Keyboard.State} (hvalid : Keyboard.Valid k)
    (htext : Keyboard.TextBefore k) (hbuffer : k.inputBuffer = s.inputBuffer)
    (hpos : k.inputPos = s.inputPos) (hgoes : s.after = .returns) (ht : receive a s = some t)
    (hreturns : t.after = .returns) : ∃ k', Keyboard.handleSerial a.char k = some k' ∧
      k'.inputBuffer = t.inputBuffer ∧ k'.inputPos = t.inputPos := by
  rw [receive, if_neg (not_not.mpr hgoes)] at ht
  rw [Keyboard.handleSerial]
  split_ifs at ht ⊢
  · obtain ⟨echo, -, henter⟩ := Keyboard.serialEnter_eq hvalid htext
    rw [enter, Option.bind_eq_some_iff] at ht
    obtain ⟨u, -, ht⟩ := ht
    have hin : s.inputPos < bufferSize := Nat.lt_succ_of_le (hpos ▸ hvalid.pos)
    rw [write_some _ _ hin, Option.bind_some, Option.bind_eq_some_iff] at ht
    obtain ⟨done, -, ht⟩ := ht
    split_ifs at ht with hdone
    · obtain ⟨v, -, rfl⟩ := Option.map_eq_some_iff.mp ht
      refine ⟨_, henter, ?_, rfl⟩
      rw [← hbuffer, ← hpos]
      rfl
    · obtain rfl := Option.some.inj ht
      exact absurd hreturns hdone
  · rw [backspace] at ht
    rw [Keyboard.serialBackspace, hpos]
    split_ifs at ht ⊢
    · obtain ⟨u, -, rfl⟩ := Option.map_eq_some_iff.mp ht
      exact ⟨_, rfl, hbuffer, rfl⟩
    · exact ⟨k, rfl, Option.some.inj ht ▸ hbuffer, Option.some.inj ht ▸ hpos⟩
  · rw [char] at ht
    rw [Keyboard.serialChar, hpos, hbuffer]
    split_ifs at ht ⊢
    · obtain ⟨b, hb, ht⟩ := Option.bind_eq_some_iff.mp ht
      obtain ⟨u, -, rfl⟩ := Option.map_eq_some_iff.mp ht
      rw [hb]
      exact ⟨_, rfl, rfl, rfl⟩
    · exact ⟨k, rfl, Option.some.inj ht ▸ hbuffer, Option.some.inj ht ▸ hpos⟩
  · exact ⟨k, rfl, Option.some.inj ht ▸ hbuffer, Option.some.inj ht ▸ hpos⟩

theorem said_greet {s t : Terminal.State} (hserial : s.gfx.serial.useSerial = true)
    (h : greet s = some t) : Said (banner ++ prompt) s t := by
  rw [greet, Option.bind_eq_some_iff] at h
  obtain ⟨u, hclear, h⟩ := h
  obtain ⟨v, hbanner, hprompt⟩ := Option.bind_eq_some_iff.mp h
  have hu := said_clear hserial hclear
  have hv := hu.trans (said_write hu.serving.serves hbanner)
  have hwhole : cString banner = banner ∧ cString prompt = prompt := by decide
  rw [← hwhole.1, ← hwhole.2]
  exact hv.trans (said_write hv.serving.serves hprompt)

/-- The loop starts with an empty line and has said what the dialogue begins with. -/
theorem follows_greet {s t : Terminal.State} (hserial : s.gfx.serial.useSerial = true)
    (h : greet s = some t) : Follows s ⟨fun _ => 0#8, 0, t, .returns⟩
      ⟨[], banner ++ prompt, .returns⟩ where
  pos := Nat.zero_le 255
  text := rfl
  nonzero := by
    intro j hj
    exact absurd hj (Nat.not_lt_zero j)
  after := rfl
  said := said_greet hserial h

/-! ## The calls -/

/-- The calls for what is typed. -/
def Dialogue.calls (d : Dialogue) (freePages : Nat) : Typing → List Commands.Call
  | .char c => if d.text.length < 255 then [.write [c]] else []
  | .backspace => if d.text = [] then [] else [.write [0x08]]
  | .enter =>
    let r := shell freePages d.text
    .write [0x0A] :: r.1 ++ if r.2 = .returns then [.write prompt] else []

def Dialogue.answer (d : Dialogue) (a : Arrival) : List Commands.Call :=
  if d.after = .returns then (serialTyping a.char).elim [] (d.calls a.freePages.toNat) else []

def answers : List Arrival → Dialogue → List Commands.Call
  | [], _ => []
  | a :: arrivals, d => d.answer a ++ answers arrivals (d.hear a)

/-- The calls of a session behind its first clear. -/
def shown (arrivals : List Arrival) : List Commands.Call :=
  .write banner :: .write prompt :: answers arrivals ⟨[], banner ++ prompt, .returns⟩

section Calls

variable {start : Terminal.State} {s : Console} {d : Dialogue} {a : Arrival} {c : BitVec 8}

/-- A handler run is a sequence of calls, and the terminal has no other part in it. -/
def Makes (calls : List Commands.Call) (s : Console) (q : Option Console) : Prop :=
  ∃ f : Terminal.State → Console, (∀ u, (f u).terminal = u) ∧
    q = (runAll perform calls s.terminal).map f

theorem makes_none (s : Console) : Makes [] s (some s) := by
  refine ⟨fun u => { s with terminal := u }, fun _ => rfl, rfl⟩

theorem run_write (hc : c ≠ 0) (calls : List Commands.Call) (u : Terminal.State) :
    runAll perform (.write [c] :: calls) u = (terminalPutchar c u).bind (runAll perform calls) := by
  have hone : perform (.write [c]) u = (terminalPutchar c u).bind some := if_neg hc
  rw [runAll, hone, Option.bind_fun_some]

theorem makes_putchar (hc : c ≠ 0) (f : Terminal.State → Console) (hf : ∀ u, (f u).terminal = u) :
    Makes [.write [c]] s ((terminalPutchar c s.terminal).map f) := by
  refine ⟨f, hf, ?_⟩
  rw [run_write hc]
  exact congrArg _ (Option.bind_fun_some _).symm

theorem enter_makes (h : Follows start s d) (a : Arrival) :
    Makes (d.calls a.freePages.toNat .enter) s (enter a s) := by
  have hwrite : write bufferSize s.inputBuffer s.inputPos 0#8 = some _ :=
    write_some _ _ (Nat.lt_succ_of_le h.pos)
  simp only [enter, hwrite, Option.bind_some, h.command, Dialogue.calls]
  by_cases hreturns : (shell a.freePages.toNat d.text).2 = .returns
  · refine ⟨fun u => ⟨Function.update s.inputBuffer s.inputPos 0#8, 0, u, .returns⟩,
      fun _ => rfl, ?_⟩
    rw [if_pos hreturns, List.cons_append, run_write (by decide)]
    cases terminalPutchar 0x0A s.terminal with
    | none => rfl
    | some u =>
      rw [Option.bind_some, Option.bind_some, runAll_append]
      cases runAll perform (shell a.freePages.toNat d.text).1 u with
      | none => rfl
      | some v =>
        have hlast : runAll perform [.write prompt] v = (terminalWrite prompt v).bind some := rfl
        rw [Option.map_some, Option.bind_some, Option.bind_some, hlast, Option.bind_fun_some]
        exact if_pos hreturns
  · refine ⟨fun u => { s with
      inputBuffer := Function.update s.inputBuffer s.inputPos 0#8
      terminal := u
      after := (shell a.freePages.toNat d.text).2 }, fun _ => rfl, ?_⟩
    rw [if_neg hreturns, List.append_nil, run_write (by decide)]
    cases terminalPutchar 0x0A s.terminal with
    | none => rfl
    | some u =>
      rw [Option.bind_some, Option.bind_some]
      cases runAll perform (shell a.freePages.toNat d.text).1 u with
      | none => rfl
      | some v => exact if_neg hreturns

theorem backspace_makes (h : Follows start s d) (freePages : Nat) :
    Makes (d.calls freePages .backspace) s (backspace s) := by
  have hlength := h.length
  rw [backspace, Dialogue.calls]
  split_ifs with hempty hpos hpos
  · rw [hempty, List.length_nil] at hlength
    omega
  · exact makes_none s
  · exact makes_putchar (by decide) _ fun _ => rfl
  · exact absurd (List.length_eq_zero_iff.mp (by omega)) hempty

theorem char_makes (h : Follows start s d) (hc : c ≠ 0) (freePages : Nat) :
    Makes (d.calls freePages (.char c)) s (char c s) := by
  rw [char, Dialogue.calls, h.length]
  split_ifs with hroom
  · rw [write_some (n := bufferSize) _ _ (Nat.lt_succ_of_lt hroom), Option.bind_some]
    exact makes_putchar hc _ fun _ => rfl
  · exact makes_none s

theorem receive_makes (h : Follows start s d) (a : Arrival) :
    Makes (d.answer a) s (receive a s) := by
  rw [receive, h.after, Dialogue.answer]
  by_cases hreturns : d.after = .returns
  · rw [if_neg (not_not.mpr hreturns), if_pos hreturns, serialTyping]
    split_ifs with henter hback hchar
    · exact enter_makes h a
    · exact backspace_makes h a.freePages.toNat
    · refine char_makes h ?_ a.freePages.toNat
      intro hzero
      rw [hzero] at hchar
      exact absurd hchar (by decide)
    · exact makes_none s
  · rw [if_pos hreturns, if_neg hreturns]
    exact makes_none s

/-- What arrives makes one sequence of calls, in either mode of the terminal. -/
theorem arrivals_make (arrivals : List Arrival) (h : Follows start s d) :
    (runAll receive arrivals s).map (·.terminal) =
      runAll perform (answers arrivals d) s.terminal := by
  induction arrivals generalizing s d with
  | nil => rfl
  | cons a arrivals ih =>
    obtain ⟨f, hf, hreceive⟩ := receive_makes h a
    rw [runAll, answers, runAll_append]
    cases hcalls : runAll perform (d.answer a) s.terminal with
    | none =>
      rw [hreceive, hcalls]
      rfl
    | some u =>
      rw [hcalls, Option.map_some] at hreceive
      rw [hreceive, Option.bind_some, Option.bind_some, ih (receive_follows h hreceive), hf]

end Calls

theorem greet_calls (s : Terminal.State) :
    greet s = runAll perform [.clear, .write banner, .write prompt] s := by
  have hcalls : runAll perform [.clear, .write banner, .write prompt] s =
      (terminalClear s).bind fun s => (terminalWrite banner s).bind fun s =>
        (terminalWrite prompt s).bind some := rfl
  simp only [hcalls, Option.bind_fun_some]
  rfl

theorem session_answers {s : Terminal.State} (hserial : s.gfx.serial.useSerial = true)
    (arrivals : List Arrival) : (session arrivals s).map (·.terminal) =
      (greet s).bind (runAll perform (answers arrivals ⟨[], banner ++ prompt, .returns⟩)) := by
  rw [session]
  cases hgreet : greet s with
  | none => rfl
  | some u => exact arrivals_make arrivals (follows_greet hserial hgreet)

theorem session_calls {s : Terminal.State} (hserial : s.gfx.serial.useSerial = true)
    (arrivals : List Arrival) :
    (session arrivals s).map (·.terminal) = runAll perform (.clear :: shown arrivals) s := by
  have hcalls : .clear :: shown arrivals = [.clear, .write banner, .write prompt] ++
      answers arrivals ⟨[], banner ++ prompt, .returns⟩ := rfl
  rw [hcalls, runAll_append, ← greet_calls, session_answers hserial]

/-- Whatever arrives on COM1, what has gone out on it when the session gets through is what the
dialogue says, once for each layer it goes through, and the kernel is where the dialogue is. On
the VGA screen every session gets through. -/
theorem session_dialogue {s : Terminal.State} (hserial : s.gfx.serial.useSerial = true)
    (arrivals : List Arrival) :
    (∀ t, session arrivals s = some t →
      t.terminal.gfx.serial.sent = s.gfx.serial.sent ++
        (dialogue arrivals).said.flatMap (sends s.useFramebuffer) ∧
      t.after = (dialogue arrivals).after) ∧
    (s.useFramebuffer = false → ∃ t, session arrivals s = some t) := by
  constructor
  · intro t ht
    rw [session, Option.bind_eq_some_iff] at ht
    obtain ⟨u, hgreet, hrun⟩ := ht
    have hfollows := arrivals_follow (follows_greet hserial hgreet) hrun
    exact ⟨hfollows.said.sent, hfollows.after⟩
  · intro hvga
    have hwrites : Writes (cleared s) := ⟨hvga, Nat.zero_lt_succ 24, Nat.zero_lt_succ 79⟩
    have hclear : perform .clear s = some (cleared s) := terminalClear_eq hvga
    have hcalls := session_calls hserial arrivals
    obtain ⟨u, hu, -⟩ := calls_writes (shown arrivals) hwrites
    rw [runAll, hclear, Option.bind_some, hu] at hcalls
    obtain ⟨t, ht, -⟩ := Option.map_eq_some_iff.mp hcalls
    exact ⟨t, ht⟩

/-- A byte that arrives while 32768 pages are free. -/
def arrival (c : BitVec 8) : Arrival := ⟨c, 32768#32, fun _ => 0xFF#8⟩

/-- After "ux", a Backspace, "ser" and Enter the kernel has left for ring 3, and what arrives
then is not read. -/
theorem session_dialogue_user : ∃ t,
    session ([0x75, 0x78, 0x7F, 0x73, 0x65, 0x72, 0x0D, 0x70].map arrival) zeroed = some t ∧
    t.terminal.gfx.serial.sent =
      (banner ++ prompt ++ ascii "ux\x08ser\nEntering Ring 3...\n").flatMap wire ∧ t.after = .user := by
  obtain ⟨hsaid, hruns⟩ := session_dialogue (s := zeroed) rfl
    ([0x75, 0x78, 0x7F, 0x73, 0x65, 0x72, 0x0D, 0x70].map arrival)
  obtain ⟨t, ht⟩ := hruns rfl
  obtain ⟨hsent, hafter⟩ := hsaid t ht
  refine ⟨t, ht, ?_, ?_⟩
  · rw [hsent]
    decide
  · rw [hafter]
    decide

end MainLoop
