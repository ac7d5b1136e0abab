import Nyrix.Base.BoundedLoop
import Nyrix.Base.ByteMemory

/-!
# The graphics terminal (gfx.cpp)

The framebuffer is a memory of its own, addressed by the offset from its first byte. Offsets
and cursor positions are 32-bit numbers; an access that leaves the announced
`pitch * height` bytes makes the function fail.
-/

namespace Gfx

open BoundedLoop ByteMemory

def charW : Nat := 8
def charH : Nat := 16

def u32 (n : Nat) : Nat := n % 4294967296

/-- The serial port COM1 and the flag `use_serial`. -/
structure Serial where
  useSerial : Bool
  sent : List (BitVec 8)
  deriving DecidableEq

/-- The wait for an empty transmitter is left out. -/
def serialPutchar (c : BitVec 8) (p : Serial) : Serial :=
  { p with sent := p.sent ++ (if c = 0x0A then [0x0D] else []) ++ [c] }

structure State where
  framebuffer : Mem
  fbPitch : Nat
  fbWidth : Nat
  fbHeight : Nat
  fbBpp : Nat
  fgColor : BitVec 32
  bgColor : BitVec 32
  cursorX : Nat
  cursorY : Nat
  serial : Serial

/-- The static initial values, over the memory the framebuffer will be in. -/
def State.boot (memory : Mem) : State where
  framebuffer := memory
  fbPitch := 0
  fbWidth := 0
  fbHeight := 0
  fbBpp := 0
  fgColor := 0xFFFFFF
  bgColor := 0
  cursorX := 0
  cursorY := 0
  serial := { useSerial := true, sent := [] }

/-- One glyph a number, the top row in the highest byte, from the blank on. -/
def font : List (BitVec 128) :=
  [ 0x00000000000000000000000000000000, 0x0000183C3C3C18181800181800000000
  , 0x00006666662400000000000000000000, 0x0000006C6CFE6C6C6CFE6C6C00000000
  , 0x0018187CC6C0783E06C67C1818000000, 0x000000C6C60C183060C6C60000000000
  , 0x0000386C6C3876DCCCCC760000000000, 0x00181818300000000000000000000000
  , 0x00000C183030303030180C0000000000, 0x000030180C0C0C0C0C18300000000000
  , 0x000000EE7C387CEE0000000000000000, 0x0000001818187E181818000000000000
  , 0x00000000000000001818183000000000, 0x0000000000007E000000000000000000
  , 0x00000000000000001818000000000000, 0x000006060C0C18183030606000000000
  , 0x00003C666E7E766666663C0000000000, 0x000018387818181818187E0000000000
  , 0x00003C66060C183060607E0000000000, 0x00003C6606061C0606663C0000000000
  , 0x00000C1C3C6CCCFE0C0C1E0000000000, 0x00007E60607C060606663C0000000000
  , 0x00003860607C666666663C0000000000, 0x00007E06060C0C181818180000000000
  , 0x00003C6666663C6666663C0000000000, 0x00003C6666663E06060C380000000000
  , 0x00000000181800001818000000000000, 0x00000000181800001818300000000000
  , 0x0000060C18306030180C060000000000, 0x00000000007E007E0000000000000000
  , 0x00006030180C060C1830600000000000, 0x00003C66060C18181800180000000000
  , 0x00003C666E6A6E60663C000000000000, 0x0000183C6666667E6666660000000000
  , 0x00007C6666667C6666667C0000000000, 0x00003C666060606060663C0000000000
  , 0x0000786C66666666666C780000000000, 0x00007E606060786060607E0000000000
  , 0x00007E60606078606060600000000000, 0x00003C6660606E6666663C0000000000
  , 0x0000666666667E666666660000000000, 0x00007E181818181818187E0000000000
  , 0x00001E0C0C0C0C0CCCCC780000000000, 0x0000666C787070786C66660000000000
  , 0x000060606060606060607E0000000000, 0x0000C6C6EEFED6C6C6C6C60000000000
  , 0x00006666767E6E666666660000000000, 0x00003C666666666666663C0000000000
  , 0x00007C6666667C606060600000000000, 0x00003C666666666666663C0E00000000
  , 0x00007C6666667C6C6666660000000000, 0x00003C666030180C06663C0000000000
  , 0x00007E18181818181818180000000000, 0x000066666666666666663C0000000000
  , 0x00006666666666663C3C180000000000, 0x0000C6C6C6C6D6FEEEC6C60000000000
  , 0x000066663C18183C6666660000000000, 0x0000666666663C181818180000000000
  , 0x00007E06060C183060607E0000000000, 0x00003C303030303030303C0000000000
  , 0x00006060303018180C0C060600000000, 0x00003C0C0C0C0C0C0C0C3C0000000000
  , 0x00183C66000000000000000000000000, 0x000000000000000000000000FF000000
  , 0x0018180C000000000000000000000000, 0x00000000003C063E66663E0000000000
  , 0x00006060607C666666667C0000000000, 0x00000000003C666060663C0000000000
  , 0x00000606063E666666663E0000000000, 0x00000000003C667E60663C0000000000
  , 0x00001C3630307C303030300000000000, 0x00000000003E6666663E06663C000000
  , 0x00006060607C66666666660000000000, 0x000018180038181818183C0000000000
  , 0x00000606000E0606060666663C000000, 0x0000606060666C78786C660000000000
  , 0x000038181818181818183C0000000000, 0x0000000000CCFED6D6D6C60000000000
  , 0x00000000007C66666666660000000000, 0x00000000003C666666663C0000000000
  , 0x00000000007C6666667C606060000000, 0x00000000003E6666663E060606000000
  , 0x00000000007C66606060600000000000, 0x00000000003C60380C063C0000000000
  , 0x00003030307E303030361C0000000000, 0x000000000066666666663E0000000000
  , 0x0000000000666666663C180000000000, 0x0000000000C6C6D6D6FE6C0000000000
  , 0x0000000000663C18183C660000000000, 0x0000000000666666663E06663C000000
  , 0x00000000007E0C1830607E0000000000, 0x00000E181818701818180E0000000000
  , 0x00001818181818181818180000000000, 0x0000701818180E181818700000000000
  , 0x0076DC00000000000000000000000000 ]

def getFontChar (c : BitVec 8) : BitVec 128 :=
  if c.toInt < 32 ∨ c.toInt > 126 then font.getD 0 0 else font.getD (c.toInt - 32).toNat 0

def fontRow (glyph : BitVec 128) (y : Nat) : BitVec 8 := (glyph >>> (8 * (15 - y))).setWidth 8

/-- The `n` bytes from an offset on are bytes of the framebuffer. -/
def InFrame (s : State) (off n : Nat) : Prop := ∀ i < n, u32 (off + i) < s.fbPitch * s.fbHeight

instance (s : State) (off n : Nat) : Decidable (InFrame s off n) := Nat.decidableBallLT n _

def readByte (s : State) (off : Nat) : Option (BitVec 8) :=
  if InFrame s off 1 then some (load8 s.framebuffer off) else none

def writeByte (off : Nat) (v : BitVec 8) (s : State) : Option State :=
  if InFrame s off 1 then some { s with framebuffer := store8 s.framebuffer off v } else none

def readPixel (s : State) (off : Nat) : Option (BitVec 32) :=
  if InFrame s off 4 then some (load32 s.framebuffer off) else none

def writePixel (off : Nat) (v : BitVec 32) (s : State) : Option State :=
  if InFrame s off 4 then some { s with framebuffer := store32 s.framebuffer off v } else none

/-- The offset of `row[x]` in row `y` of the cell at `(cx, cy)`. -/
def cellOffset (s : State) (cx cy y x : Nat) : Nat :=
  (cy + y) * s.fbPitch + cx * (s.fbBpp / 8) + 4 * x

/-- The two loops over the pixels of a cell. -/
def eachPixel (f : Nat → Nat → State → Option State) (s : State) : Option State :=
  forUp? (fun y => forUp? (f y) 0 charW) 0 charH s

/-- `row[x] = ~row[x]` -/
def invertPixel (cx cy y x : Nat) (s : State) : Option State :=
  (readPixel s (cellOffset s cx cy y x)).bind fun p => writePixel (cellOffset s cx cy y x) (~~~p) s

def gfxInvertCell (cx cy : Nat) (s : State) : Option State := eachPixel (invertPixel cx cy) s

def gfxHideCursor (s : State) : Option State := gfxInvertCell s.cursorX s.cursorY s

def gfxShowCursor (s : State) : Option State := gfxInvertCell s.cursorX s.cursorY s

/-- `row[x] = bg_color` for every `x` of the row. -/
def fillRow (y : Nat) (s : State) : Option State :=
  forUp? (fun x s => writePixel (y * s.fbPitch + 4 * x) s.bgColor s) 0 s.fbWidth s

/-- `dst[x] = src[x]` -/
def copyByte (y x : Nat) (s : State) : Option State :=
  (readByte s ((y + charH) * s.fbPitch + x)).bind fun v => writeByte (y * s.fbPitch + x) v s

def copyRow (y : Nat) (s : State) : Option State :=
  forUp? (copyByte y) 0 (u32 (s.fbWidth * (s.fbBpp / 8))) s

def gfxScroll (s : State) : Option State :=
  let top := u32 (s.fbHeight + 4294967296 - charH)
  (forUp? copyRow 0 top s).bind (forUp? fillRow top (s.fbHeight - top))

def gfxClear (s : State) : Option State :=
  (forUp? fillRow 0 s.fbHeight s).bind fun s => gfxShowCursor { s with cursorX := 0, cursorY := 0 }

/-- `framebuffer` itself is not kept: offsets are counted from it. -/
def gfxInit (pitch width height bpp : Nat) (s : State) : Option State :=
  let s := { s with fbPitch := pitch, fbWidth := width, fbHeight := height, fbBpp := bpp }
  (forUp? fillRow 0 height s).map fun s => { s with cursorX := 0, cursorY := 0 }

def gfxSetColor (fg bg : BitVec 32) (s : State) : State := { s with fgColor := fg, bgColor := bg }

def gfxMoveCursor (x y : Nat) (s : State) : Option State :=
  (gfxInvertCell s.cursorX s.cursorY s).bind fun s =>
    gfxInvertCell x y { s with cursorX := x, cursorY := y }

/-- The start of the next text row; the screen is scrolled when the cursor is low on it. -/
def lineFeed (s : State) : Option State :=
  let s := { s with cursorX := 0, cursorY := u32 (s.cursorY + charH) }
  if u32 (s.cursorY + charH) ≥ s.fbHeight then gfxScroll s else some s

def stepBack (s : State) : State :=
  if s.cursorX ≥ charW then { s with cursorX := s.cursorX - charW }
  else if s.cursorY ≥ charH then
    { s with cursorY := s.cursorY - charH, cursorX := u32 (s.fbWidth + 4294967296 - charW) }
  else s

def eraseCell (s : State) : Option State :=
  eachPixel (fun y x s => writePixel (cellOffset s s.cursorX s.cursorY y x) s.bgColor s) s

def drawChar (c : BitVec 8) (s : State) : Option State :=
  eachPixel (fun y x s => writePixel (cellOffset s s.cursorX s.cursorY y x)
    (if fontRow (getFontChar c) y &&& (0x80#8 >>> x) ≠ 0 then s.fgColor else s.bgColor) s) s

/-- The cursor goes one cell on, or to the next text row. -/
def stepForward (s : State) : Option State :=
  let s := { s with cursorX := u32 (s.cursorX + charW) }
  if u32 (s.cursorX + charW) > s.fbWidth then lineFeed s else some s

def toSerial (c : BitVec 8) (s : State) : State :=
  if s.serial.useSerial then { s with serial := serialPutchar c s.serial } else s

/-- What `gfx_putchar` does between hiding and showing the cursor. -/
def putGlyph (c : BitVec 8) (s : State) : Option State :=
  if c = 0x0A then lineFeed s
  else if c = 0x08 then eraseCell (stepBack s)
  else (drawChar c s).bind stepForward

def gfxPutchar (c : BitVec 8) (s : State) : Option State :=
  (gfxHideCursor s).bind fun s => (putGlyph c (toSerial c s)).bind gfxShowCursor

end Gfx
