import Nyrix.Base.CharBuffer
import Nyrix.Gfx

/-!
# The terminal (kernel.cpp)

In VGA mode the screen is an array of 2000 cells, and a write outside it makes the function
fail; in framebuffer mode the terminal draws with gfx.cpp. Every character also goes to the
serial port while `use_serial` is set.
-/

namespace Terminal

open BoundedLoop Gfx

def vgaWidth : Nat := 80
def vgaHeight : Nat := 25

/-- The index register of the CRT controller and its registers. -/
structure Crtc where
  index : BitVec 8
  registers : BitVec 8 → BitVec 8

def outb (port : Nat) (v : BitVec 8) (d : Crtc) : Crtc :=
  if port = 0x3D4 then { d with index := v }
  else if port = 0x3D5 then { d with registers := Function.update d.registers d.index v }
  else d

/-- The cell the hardware cursor is on. -/
def Crtc.location (d : Crtc) : Nat := 256 * (d.registers 0x0E).toNat + (d.registers 0x0F).toNat

structure State where
  gfx : Gfx.State
  useFramebuffer : Bool
  vgaBuffer : Nat → BitVec 16
  terminalRow : Nat
  terminalColumn : Nat
  terminalColor : BitVec 8
  crtc : Crtc

/-- The static initial values, over what the devices hold. -/
def State.boot (memory : ByteMemory.Mem) (screen : Nat → BitVec 16) (d : Crtc) : State where
  gfx := Gfx.State.boot memory
  useFramebuffer := false
  vgaBuffer := screen
  terminalRow := 0
  terminalColumn := 0
  terminalColor := 0x0F
  crtc := d

def vgaEntry (c color : BitVec 8) : BitVec 16 := c.setWidth 16 ||| (color.setWidth 16 <<< 8)

def vgaRead (s : State) (i : Nat) : Option (BitVec 16) :=
  if i < vgaWidth * vgaHeight then some (s.vgaBuffer i) else none

def vgaWrite (i : Nat) (v : BitVec 16) (s : State) : Option State :=
  if i < vgaWidth * vgaHeight then some { s with vgaBuffer := Function.update s.vgaBuffer i v }
  else none

def updateCursor (row col : Nat) (s : State) : State :=
  let pos := BitVec.ofNat 16 (row * vgaWidth + col)
  let low := outb 0x3D5 ((pos &&& 0xFF).setWidth 8) (outb 0x3D4 0x0F s.crtc)
  { s with crtc := outb 0x3D5 ((pos >>> 8 &&& 0xFF).setWidth 8) (outb 0x3D4 0x0E low) }

def blank (s : State) : BitVec 16 := vgaEntry 0x20 s.terminalColor

/-- A row of blanks. -/
def blankRow (y : Nat) (s : State) : Option State :=
  forUp? (fun x s => vgaWrite (y * vgaWidth + x) (blank s) s) 0 vgaWidth s

def copyRowUp (y : Nat) (s : State) : Option State :=
  forUp? (fun x s => (vgaRead s (y * vgaWidth + x)).bind fun v =>
    vgaWrite ((y - 1) * vgaWidth + x) v s) 0 vgaWidth s

def vgaScroll (s : State) : Option State :=
  (forUp? copyRowUp 1 (vgaHeight - 1) s).bind (blankRow (vgaHeight - 1))

def onGfx (f : Gfx.State → Option Gfx.State) (s : State) : Option State :=
  (f s.gfx).map fun g => { s with gfx := g }

def terminalClear (s : State) : Option State :=
  if s.useFramebuffer then onGfx gfxClear s
  else (forUp? blankRow 0 vgaHeight s).map fun s =>
    updateCursor 0 0 { s with terminalRow := 0, terminalColumn := 0 }

/-- `if (++terminal_row == VGA_HEIGHT)` and what it guards, from column 0. -/
def nextRow (s : State) : Option State :=
  let s := { s with terminalColumn := 0, terminalRow := s.terminalRow + 1 }
  if s.terminalRow = vgaHeight then
    (vgaScroll s).map fun s => { s with terminalRow := vgaHeight - 1 }
  else some s

def stepBack (s : State) : State :=
  if s.terminalColumn > 0 then { s with terminalColumn := s.terminalColumn - 1 }
  else if s.terminalRow > 0 then
    { s with terminalRow := s.terminalRow - 1, terminalColumn := vgaWidth - 1 }
  else s

def vgaPutchar (c : BitVec 8) (s : State) : Option State :=
  (if c = 0x0A then nextRow s
    else if c = 0x08 then
      let s := stepBack s
      vgaWrite (s.terminalRow * vgaWidth + s.terminalColumn) (blank s) s
    else
      (vgaWrite (s.terminalRow * vgaWidth + s.terminalColumn) (vgaEntry c s.terminalColor) s).bind
        fun s =>
          let s := { s with terminalColumn := s.terminalColumn + 1 }
          if s.terminalColumn = vgaWidth then nextRow s else some s).map
    fun s => updateCursor s.terminalRow s.terminalColumn s

def sendSerial (c : BitVec 8) (s : State) : State :=
  if s.gfx.serial.useSerial then
    { s with gfx := { s.gfx with serial := serialPutchar c s.gfx.serial } }
  else s

def terminalPutchar (c : BitVec 8) (s : State) : Option State :=
  let s := sendSerial c s
  if s.useFramebuffer then onGfx (gfxPutchar c) s else vgaPutchar c s

/-- `while (*str) terminal_putchar(*str++);` -/
def terminalWrite : List (BitVec 8) → State → Option State
  | [], s => some s
  | c :: str, s => if c = 0 then some s else (terminalPutchar c s).bind (terminalWrite str)

/-- White on black unless the color is that of a success or of an error. -/
def terminalSetcolor (color : BitVec 8) (s : State) : State :=
  let s := { s with terminalColor := color }
  if s.useFramebuffer then
    let fg := if color = 0x0A then 0x00FF00#32 else if color = 0x0C then 0xFF0000#32 else 0xFFFFFF#32
    { s with gfx := gfxSetColor fg 0x000000#32 s.gfx }
  else s

/-- "nyrix> " -/
def prompt : List (BitVec 8) := [0x6E, 0x79, 0x72, 0x69, 0x78, 0x3E, 0x20]

/-- The width announced by the boot loader is the one `gfx_init` got. -/
def redrawInput (inputBuffer : CharBuffer.Buffer) (inputPos : Nat) (s : State) : Option State :=
  let promptLen := 7
  if s.useFramebuffer then
    let row := s.gfx.cursorY
    (onGfx (gfxMoveCursor 0 row) s).bind fun s =>
    (forUp? (fun _ => onGfx (gfxPutchar 0x20)) 0 (s.gfx.fbWidth / 8) s).bind fun s =>
    (onGfx (gfxMoveCursor 0 row) s).bind fun s =>
    (terminalWrite prompt s).bind fun s =>
    (forUp? (fun i => terminalPutchar (inputBuffer i)) 0 inputPos s).bind fun s =>
    onGfx (gfxMoveCursor (u32 (promptLen * 8 + inputPos * 8)) row) s
  else
    (blankRow s.terminalRow s).bind fun s =>
    (forUp? (fun i s => vgaWrite (s.terminalRow * vgaWidth + i)
      (vgaEntry (prompt.getD i 0) s.terminalColor) s) 0 promptLen s).bind fun s =>
    (forUp? (fun i s => vgaWrite (s.terminalRow * vgaWidth + promptLen + i)
      (vgaEntry (inputBuffer i) s.terminalColor) s) 0 inputPos s).map fun s =>
    updateCursor s.terminalRow (promptLen + inputPos)
      { s with terminalColumn := promptLen + inputPos }

end Terminal
