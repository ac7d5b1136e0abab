import Nyrix.Base.CharBuffer

/-!
# The keyboard interrupt handler (keyboard.cpp)

One scancode changes the line under edit, the history and the modifier flags. The three
arrays are 256 characters long, and an access outside them makes the handler fail. What it
asks of the terminal and of `process_command` is collected in order; these do not touch its
state.
-/

namespace Keyboard

open BoundedLoop CharBuffer

def bufferSize : Nat := 256
def maxHistory : Nat := 10

inductive Event where
  | putchar (c : BitVec 8)
  | write (text : String)
  | redraw (text : List (BitVec 8))
  | command (text : List (BitVec 8))
  deriving DecidableEq

structure State where
  inputBuffer : Buffer
  inputPos : Nat
  history : Nat → Buffer
  historyCount : Int
  historyIndex : Int
  savedInput : Buffer
  shiftPressed : Bool
  capsLock : Bool
  extended : Bool
  out : List Event

/-- The static initial values. -/
def State.boot : State where
  inputBuffer := fun _ => 0#8
  inputPos := 0
  history := fun _ _ => 0#8
  historyCount := 0
  historyIndex := -1
  savedInput := fun _ => 0#8
  shiftPressed := false
  capsLock := false
  extended := false
  out := []

def ch (c : Char) : BitVec 8 := BitVec.ofNat 8 c.toNat

/-- The entries past the last one listed are 0. -/
def scancodeToAscii : List (BitVec 8) :=
  [ 0, 0, ch '1', ch '2', ch '3', ch '4', ch '5', ch '6', ch '7', ch '8', ch '9', ch '0', ch '-'
  , ch '=', 0x08
  , 0x09, ch 'q', ch 'w', ch 'e', ch 'r', ch 't', ch 'y', ch 'u', ch 'i', ch 'o', ch 'p', ch '['
  , ch ']', 0x0A
  , 0, ch 'a', ch 's', ch 'd', ch 'f', ch 'g', ch 'h', ch 'j', ch 'k', ch 'l', ch ';', 0x27, 0x60
  , 0, 0x5C, ch 'z', ch 'x', ch 'c', ch 'v', ch 'b', ch 'n', ch 'm', ch ',', ch '.', ch '/', 0
  , ch '*', 0, ch ' ', 0, 0, 0, 0, 0, 0, 0, 0, 0, 0, 0, 0, 0
  , 0, 0, 0, 0, 0, 0, 0, 0, 0, 0, ch '-', 0, 0, 0, ch '+', 0 ]

/-- The `switch` under Shift for keys that are not letters. -/
def shifted (c : BitVec 8) : BitVec 8 :=
  ([ (ch '1', ch '!'), (ch '2', ch '@'), (ch '3', ch '#'), (ch '4', ch '$'), (ch '5', ch '%')
   , (ch '6', ch '^'), (ch '7', ch '&'), (ch '8', ch '*'), (ch '9', ch '('), (ch '0', ch ')')
   , (ch '-', ch '_'), (ch '=', ch '+'), (ch '[', 0x7B), (ch ']', 0x7D), (0x5C, ch '|')
   , (ch ';', ch ':'), (0x27, 0x22), (ch ',', ch '<'), (ch '.', ch '>'), (ch '/', ch '?')
   , (0x60, ch '~') ].lookup c).getD c

/-- The character a make code stands for, 0 for none. -/
def decode (scancode : BitVec 8) (s : State) : BitVec 8 :=
  let ascii := scancodeToAscii.getD scancode.toNat 0
  if ch 'a' ≤ ascii ∧ ascii ≤ ch 'z' then
    if s.shiftPressed ^^ s.capsLock then ascii - 32 else ascii
  else if s.shiftPressed then shifted ascii
  else ascii

def emit (e : Event) (s : State) : State := { s with out := s.out ++ [e] }

def redrawInput (s : State) : Option State :=
  (front bufferSize s.inputBuffer s.inputPos).map fun text => emit (.redraw text) s

/-- The string `process_command` gets. -/
def processCommand (s : State) : Option State :=
  (scan bufferSize s.inputBuffer 0).bind fun len =>
    (front bufferSize s.inputBuffer len).map fun text => emit (.command text) s

def historyRow (s : State) (r : Int) : Option Buffer :=
  if 0 ≤ r ∧ r < maxHistory then some (s.history r.toNat) else none

/-- `input_buffer[i] = cmd[i]` up to the NUL of `cmd`, which is not copied. -/
def recallCommand (cmd : Buffer) (s : State) : Option State :=
  (scan bufferSize cmd 0).bind fun len =>
    (copy bufferSize cmd len s.inputBuffer).map fun b =>
      { s with inputBuffer := b, inputPos := len }

def saveInput (s : State) : Option State :=
  (copy bufferSize s.inputBuffer s.inputPos s.savedInput).bind fun b =>
    (write bufferSize b s.inputPos 0).map fun b =>
      { s with savedInput := b, historyIndex := s.historyCount - 1 }

def arrowUp (s : State) : Option State :=
  if s.historyCount > 0 then
    (if s.historyIndex = -1 then saveInput s
      else if s.historyIndex > 0 then some { s with historyIndex := s.historyIndex - 1 }
      else some s).bind fun s =>
        (historyRow s s.historyIndex).bind fun cmd => (recallCommand cmd s).bind redrawInput
  else some s

def arrowDown (s : State) : Option State :=
  if s.historyIndex ≠ -1 then
    (if s.historyIndex < s.historyCount - 1 then
        let s := { s with historyIndex := s.historyIndex + 1 }
        (historyRow s s.historyIndex).bind fun cmd => recallCommand cmd s
      else
        let s := { s with historyIndex := -1 }
        recallCommand s.savedInput s).bind redrawInput
  else some s

def arrowLeft (s : State) : Option State :=
  redrawInput (if s.inputPos > 0 then { s with inputPos := s.inputPos - 1 } else s)

def arrowRight (s : State) : Option State :=
  if s.inputPos < bufferSize - 1 then
    (read bufferSize s.inputBuffer s.inputPos).bind fun c =>
      redrawInput (if c ≠ 0 then { s with inputPos := s.inputPos + 1 } else s)
  else redrawInput s

def homeKey (s : State) : Option State := redrawInput { s with inputPos := 0 }

def endKey (s : State) : Option State :=
  (whileLoop? (fun i => (read bufferSize s.inputBuffer i).map fun c =>
      c != 0 && decide (i < bufferSize - 1)) (fun i => some (i + 1)) bufferSize s.inputPos).bind
    fun i => redrawInput { s with inputPos := i }

def deleteKey (s : State) : Option State :=
  (read bufferSize s.inputBuffer s.inputPos).bind fun c =>
    if c ≠ 0 then
      (closeGap bufferSize s.inputBuffer s.inputPos).bind fun b =>
        redrawInput { s with inputBuffer := b }
    else some s

/-- The keys behind an 0xE0 prefix; every branch ends by clearing `extended`. -/
def handleExtended (scancode : BitVec 8) (s : State) : Option State :=
  (if scancode = 0x48 then arrowUp s
    else if scancode = 0x50 then arrowDown s
    else if scancode = 0x4B then arrowLeft s
    else if scancode = 0x4D then arrowRight s
    else if scancode = 0x47 then homeKey s
    else if scancode = 0x4F then endKey s
    else if scancode = 0x53 then deleteKey s
    else some s).map fun s => { s with extended := false }

/-- Whether the command just entered repeats the newest one in the history. -/
def isDuplicate (s : State) : Option Bool :=
  if s.historyCount > 0 then
    (historyRow s (s.historyCount - 1)).bind fun last =>
      (matchLen bufferSize s.inputBuffer last).bind fun i =>
        (read bufferSize s.inputBuffer i).bind fun a =>
          (read bufferSize last i).map fun b => decide (a = 0 ∧ b = 0)
  else some false

/-- Every row but the first goes to the place of the one before. -/
def shiftHistory (h : Nat → Buffer) : Option (Nat → Buffer) :=
  forUp? (fun i h => (copy bufferSize (h i) bufferSize (h (i - 1))).map (Function.update h (i - 1)))
    1 (maxHistory - 1) h

def addHistory (s : State) : Option State :=
  (isDuplicate s).bind fun duplicate =>
    if duplicate then some s
    else if s.historyCount < maxHistory then
      let idx := s.historyCount
      (historyRow s idx).bind fun row =>
        (copyString bufferSize s.inputBuffer row).map fun row =>
          { s with
            historyCount := s.historyCount + 1
            history := Function.update s.history idx.toNat row }
    else
      (shiftHistory s.history).bind fun h =>
        (copyString bufferSize s.inputBuffer (h (maxHistory - 1))).map fun row =>
          { s with history := Function.update h (maxHistory - 1) row }

/-- The line is cut at the cursor. -/
def endLine (s : State) : Option State :=
  (write bufferSize s.inputBuffer s.inputPos 0).map fun b =>
    emit (.putchar 0x0A) { s with inputBuffer := b }

def submit (s : State) : Option State :=
  if s.inputPos > 0 then (processCommand s).bind addHistory else some s

def freshPrompt (s : State) : State :=
  emit (.write "nyrix> ") { s with inputPos := 0, historyIndex := -1 }

def enter (s : State) : Option State := ((endLine s).bind submit).map freshPrompt

def backspace (s : State) : Option State :=
  if s.inputPos > 0 then
    (closeGapBreak bufferSize s.inputBuffer (s.inputPos - 1)).map fun b =>
      emit (.putchar 0x08) { s with inputBuffer := b, inputPos := s.inputPos - 1 }
  else some s

/-- What follows the cursor is moved up by one, if anything does. -/
def makeRoom (s : State) : Option Buffer :=
  (read bufferSize s.inputBuffer s.inputPos).bind fun c =>
    if c ≠ 0 then
      (scan bufferSize s.inputBuffer s.inputPos).bind fun len =>
        openGap bufferSize s.inputBuffer s.inputPos len
    else some s.inputBuffer

def insertChar (ascii : BitVec 8) (s : State) : Option State :=
  if s.inputPos < bufferSize - 1 then
    (makeRoom s).bind fun b =>
      (write bufferSize b s.inputPos ascii).bind fun b =>
        redrawInput (emit (.putchar ascii)
          { s with inputBuffer := b, inputPos := s.inputPos + 1 })
  else some s

/-- A make code without prefix. -/
def handleMake (scancode : BitVec 8) (s : State) : Option State :=
  if scancode = 0x2A ∨ scancode = 0x36 then some { s with shiftPressed := true }
  else if scancode = 0x3A then some { s with capsLock := !s.capsLock }
  else
    let ascii := decode scancode s
    if scancodeToAscii.getD scancode.toNat 0 = 0 then some s
    else if ascii = 0x0A then enter s
    else if ascii = 0x08 then backspace s
    else insertChar ascii s

def handleInterrupt (scancode : BitVec 8) (s : State) : Option State :=
  if scancode = 0xE0 then some { s with extended := true }
  else if scancode &&& 0x80 ≠ 0 then
    let released := scancode &&& 0x7F
    some { s with
      shiftPressed := if released = 0x2A ∨ released = 0x36 then false else s.shiftPressed
      extended := false }
  else if s.extended then handleExtended scancode s
  else handleMake scancode s

/-- The handler called for one scancode after the other. -/
def run : List (BitVec 8) → State → Option State
  | [], s => some s
  | c :: cs, s => (handleInterrupt c s).bind (run cs)

/-- What each handled byte keeps, a run keeps. -/
theorem run_induct (P : State → Prop)
    (hstep : ∀ c s t, P s → handleInterrupt c s = some t → P t) {codes : List (BitVec 8)}
    {s t : State} (h : P s) (hrun : run codes s = some t) : P t := by
  induction codes generalizing s with
  | nil => exact Option.some.inj hrun ▸ h
  | cons c codes ih =>
    rw [run, Option.bind_eq_some_iff] at hrun
    obtain ⟨u, hu, hrest⟩ := hrun
    exact ih (hstep c s u h hu) hrest

theorem run_append (cs ds : List (BitVec 8)) (s : State) :
    run (cs ++ ds) s = (run cs s).bind (run ds) := by
  induction cs generalizing s with
  | nil => rfl
  | cons c cs ih =>
    rw [List.cons_append, run, run]
    cases handleInterrupt c s with
    | none => rfl
    | some t => exact ih t

end Keyboard
