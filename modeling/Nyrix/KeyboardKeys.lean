import Nyrix.KeyboardBounds

/-!
# From scancodes to keys

Which key a scancode stands for, and what it does to the modifier flags, depends on these
flags alone. What the key then does to the line has a closed form while the line is not full.
-/

namespace Keyboard

open BoundedLoop CharBuffer

structure Modifiers where
  shiftPressed : Bool
  capsLock : Bool
  extended : Bool
  deriving DecidableEq

def State.modifiers (s : State) : Modifiers := ⟨s.shiftPressed, s.capsLock, s.extended⟩

def State.withModifiers (s : State) (m : Modifiers) : State :=
  { s with shiftPressed := m.shiftPressed, capsLock := m.capsLock, extended := m.extended }

inductive Key where
  | insert (c : BitVec 8)
  | enter
  | backspace
  | delete
  | left
  | right
  | home
  | toEnd
  | up
  | down
  deriving DecidableEq

def press : Key → State → Option State
  | .insert c => insertChar c
  | .enter => enter
  | .backspace => backspace
  | .delete => deleteKey
  | .left => arrowLeft
  | .right => arrowRight
  | .home => homeKey
  | .toEnd => endKey
  | .up => arrowUp
  | .down => arrowDown

def extendedKey (scancode : BitVec 8) : Option Key :=
  if scancode = 0x48 then some .up
  else if scancode = 0x50 then some .down
  else if scancode = 0x4B then some .left
  else if scancode = 0x4D then some .right
  else if scancode = 0x47 then some .home
  else if scancode = 0x4F then some .toEnd
  else if scancode = 0x53 then some .delete
  else none

/-- The key of a make code without prefix. -/
def makeKey (scancode : BitVec 8) (m : Modifiers) : Option Key :=
  if scancode = 0x2A ∨ scancode = 0x36 ∨ scancode = 0x3A then none
  else
    let ascii := decode scancode (State.boot.withModifiers m)
    if scancodeToAscii.getD scancode.toNat 0 = 0 then none
    else if ascii = 0x0A then some .enter
    else if ascii = 0x08 then some .backspace
    else some (.insert ascii)

/-- The key a scancode completes, if it completes one. -/
def keyOf (scancode : BitVec 8) (m : Modifiers) : Option Key :=
  if scancode = 0xE0 ∨ scancode &&& 0x80 ≠ 0 then none
  else if m.extended then extendedKey scancode
  else makeKey scancode m

def Modifiers.next (scancode : BitVec 8) (m : Modifiers) : Modifiers :=
  if scancode = 0xE0 then { m with extended := true }
  else if scancode &&& 0x80 ≠ 0 then
    let released := scancode &&& 0x7F
    { m with
      shiftPressed := if released = 0x2A ∨ released = 0x36 then false else m.shiftPressed
      extended := false }
  else if m.extended then { m with extended := false }
  else if scancode = 0x2A ∨ scancode = 0x36 then { m with shiftPressed := true }
  else if scancode = 0x3A then { m with capsLock := !m.capsLock }
  else m

/-- The flags when no prefix is pending. -/
def Modifiers.Plain (m : Modifiers) : Prop := m.extended = false

/-- The keys a sequence of scancodes stands for. -/
def keysOf : List (BitVec 8) → Modifiers → List Key
  | [], _ => []
  | c :: cs, m => (keyOf c m).toList ++ keysOf cs (m.next c)

def modifiersAfter (codes : List (BitVec 8)) (m : Modifiers) : Modifiers :=
  codes.foldl (fun m c => m.next c) m

def pressAll : List Key → State → Option State
  | [], s => some s
  | k :: ks, s => (press k s).bind (pressAll ks)

theorem keysOf_append (cs ds : List (BitVec 8)) (m : Modifiers) :
    keysOf (cs ++ ds) m = keysOf cs m ++ keysOf ds (modifiersAfter cs m) := by
  induction cs generalizing m with
  | nil => rfl
  | cons c cs ih => rw [List.cons_append, keysOf, keysOf, ih, List.append_assoc, modifiersAfter,
      modifiersAfter, List.foldl_cons]

theorem modifiersAfter_append (cs ds : List (BitVec 8)) (m : Modifiers) :
    modifiersAfter (cs ++ ds) m = modifiersAfter ds (modifiersAfter cs m) :=
  List.foldl_append

/-- The character of a make code does not depend on the line. -/
theorem decode_modifiers (scancode : BitVec 8) (s : State) :
    decode scancode (State.boot.withModifiers s.modifiers) = decode scancode s := rfl

/-- What has been passed to `process_command`. -/
def commands (events : List Event) : List (List (BitVec 8)) :=
  events.filterMap fun e => match e with
    | .command text => some text
    | _ => none

theorem commands_append (es fs : List Event) : commands (es ++ fs) = commands es ++ commands fs :=
  List.filterMap_append

/-- The keys that change the line under edit or the place in it. -/
def Key.Edits : Key → Prop
  | .enter | .up | .down => False
  | _ => True

instance (k : Key) : Decidable k.Edits := by
  cases k <;> unfold Key.Edits <;> infer_instance

/-- The index of the first NUL from `i` on. -/
def endFrom (b : Buffer) (i : Nat) : Nat := (scan bufferSize b i).getD i

theorem endFrom_eq {b : Buffer} {i e : Nat} (h : NulAt b i e) (he : e < 256) : endFrom b i = e := by
  rw [endFrom, scan_eq (n := bufferSize) h he, Option.getD_some]

/-- The line and the place of the cursor after an editing key. -/
def lineAfter (k : Key) (b : Buffer) (pos : Nat) : Buffer × Nat :=
  match k with
  | .insert c =>
    if pos < 255 then
      (Function.update (if b pos ≠ 0 then opened b pos (endFrom b pos) else b) pos c, pos + 1)
    else (b, pos)
  | .backspace => if 0 < pos then (closed b (pos - 1) (endFrom b pos), pos - 1) else (b, pos)
  | .delete => (closed b pos (endFrom b pos), pos)
  | .left => (b, pos - 1)
  | .right => (b, if pos < 255 ∧ b pos ≠ 0 then pos + 1 else pos)
  | .home => (b, 0)
  | .toEnd => (b, endFrom b pos)
  | _ => (b, pos)

/-- The state with another line, and something echoed to the terminal. -/
def State.withLine (s : State) (line : Buffer × Nat) (echo : List Event) : State :=
  { s with inputBuffer := line.1, inputPos := line.2, out := s.out ++ echo }

/-- A step that edits the line and passes no command on. -/
def Echoes (r : Option State) (s : State) (line : Buffer × Nat) : Prop :=
  ∃ echo, commands echo = [] ∧ r = some (s.withLine line echo)

section Edit

variable {s : State}

theorem echoes_redraw {b : Buffer} {pos : Nat} (h : pos ≤ 255) :
    Echoes (redrawInput { s with inputBuffer := b, inputPos := pos }) s (b, pos) :=
  ⟨[.redraw ((List.range pos).map b)], rfl, redrawInput_eq h⟩

theorem echoes_none : Echoes (some s) s (s.inputBuffer, s.inputPos) :=
  ⟨[], rfl, by rw [State.withLine, List.append_nil]⟩

theorem Valid.endFrom_nulAt (h : Valid s) :
    endFrom s.inputBuffer s.inputPos ≤ 255 ∧
      NulAt s.inputBuffer s.inputPos (endFrom s.inputBuffer s.inputPos) := by
  obtain ⟨e, he, hnul⟩ := h.nulAt h.pos
  rw [endFrom_eq hnul (Nat.lt_succ_of_le he)]
  exact ⟨he, hnul⟩

theorem insertChar_echoes (c : BitVec 8) (h : Valid s) (hroom : ¬LineFull s) :
    Echoes (insertChar c s) s (lineAfter (.insert c) s.inputBuffer s.inputPos) := by
  rw [lineAfter]
  by_cases hlt : s.inputPos < 255
  · obtain ⟨he, hnul⟩ := h.endFrom_nulAt
    have hne : endFrom s.inputBuffer s.inputPos ≠ 255 := by
      intro heq
      rw [heq] at hnul
      exact hroom ⟨hlt, hnul.text⟩
    have hlast : endFrom s.inputBuffer s.inputPos < 255 := by omega
    refine ⟨[.putchar c, .redraw ((List.range (s.inputPos + 1)).map
      (Function.update (roomy s (endFrom s.inputBuffer s.inputPos)) s.inputPos c))], rfl, ?_⟩
    rw [if_pos hlt, insertChar_eq c hnul hlast, redrawInput_eq (Nat.succ_le_of_lt hlt)]
    simp only [emit, State.withLine, List.append_assoc]
    rfl
  · rw [if_neg hlt, insertChar_full c hlt]
    exact echoes_none

theorem backspace_echoes (h : Valid s) :
    Echoes (backspace s) s (lineAfter .backspace s.inputBuffer s.inputPos) := by
  rw [lineAfter]
  by_cases hpos : 0 < s.inputPos
  · obtain ⟨he, hnul⟩ := h.endFrom_nulAt
    rw [if_pos hpos, backspace_eq hpos hnul (Nat.lt_succ_of_le he)]
    exact ⟨[.putchar 0x08], rfl, rfl⟩
  · rw [if_neg hpos, backspace, if_neg hpos]
    exact echoes_none

theorem deleteKey_echoes (h : Valid s) :
    Echoes (deleteKey s) s (lineAfter .delete s.inputBuffer s.inputPos) := by
  obtain ⟨he, hnul⟩ := h.endFrom_nulAt
  rw [lineAfter, deleteKey_eq hnul (Nat.lt_succ_of_le he)]
  by_cases hc : s.inputBuffer s.inputPos ≠ 0
  · rw [if_pos hc]
    exact echoes_redraw h.pos
  · -- nothing to delete: the gap is empty
    rw [if_neg hc, endFrom_eq ⟨Nat.le_refl _, not_not.mp hc, fun j hj hlt => by omega⟩
      (Nat.lt_succ_of_le h.pos), closed_self]
    exact echoes_none

theorem arrowLeft_echoes (h : Valid s) :
    Echoes (arrowLeft s) s (lineAfter .left s.inputBuffer s.inputPos) := by
  have hpos := h.pos
  rw [arrowLeft, lineAfter]
  by_cases h0 : s.inputPos > 0
  · rw [if_pos h0]
    exact echoes_redraw (by omega)
  · have hzero : s.inputPos - 1 = s.inputPos := by omega
    rw [if_neg h0, hzero]
    exact echoes_redraw hpos

theorem arrowRight_echoes (h : Valid s) :
    Echoes (arrowRight s) s (lineAfter .right s.inputBuffer s.inputPos) := by
  rw [arrowRight_eq h.pos, lineAfter]
  by_cases hgo : s.inputPos < 255 ∧ s.inputBuffer s.inputPos ≠ 0
  · rw [if_pos hgo, if_pos hgo]
    exact echoes_redraw (Nat.succ_le_of_lt hgo.1)
  · rw [if_neg hgo, if_neg hgo]
    exact echoes_redraw h.pos

theorem endKey_echoes (h : Valid s) :
    Echoes (endKey s) s (lineAfter .toEnd s.inputBuffer s.inputPos) := by
  obtain ⟨he, hnul⟩ := h.endFrom_nulAt
  rw [endKey_eq hnul he, lineAfter]
  exact echoes_redraw he

/-- An editing key does to the line what `lineAfter` says, unless the line is full. -/
theorem press_edits {k : Key} (hk : k.Edits) (h : Valid s)
    (hroom : ∀ c, k = .insert c → ¬LineFull s) :
    Echoes (press k s) s (lineAfter k s.inputBuffer s.inputPos) := by
  cases k with
  | insert c => exact insertChar_echoes c h (hroom c rfl)
  | enter => exact hk.elim
  | backspace => exact backspace_echoes h
  | delete => exact deleteKey_echoes h
  | left => exact arrowLeft_echoes h
  | right => exact arrowRight_echoes h
  | home => exact echoes_redraw (Nat.zero_le 255)
  | toEnd => exact endKey_echoes h
  | up => exact hk.elim
  | down => exact hk.elim

end Edit

end Keyboard
