import Nyrix.Base.PartialRuns
import Nyrix.GfxBounds
import Nyrix.Terminal

/-!
# Runs on the framebuffer

The program draws by calls of gfx.cpp and by redrawing the input line. Scrolling does not
move the cursor back up, so a call keeps the screen only while every line feed it makes has
one more text row below it.
-/

namespace Terminal

open BoundedLoop CharBuffer Gfx PartialRuns

inductive Call where
  | putchar (c : BitVec 8)
  | clear
  | setColor (fg bg : BitVec 32)
  | redraw (inputBuffer : Buffer) (inputPos : Fin 256)

def call : Call → State → Option State
  | .putchar c => onGfx (gfxPutchar c)
  | .clear => onGfx gfxClear
  | .setColor fg bg => onGfx fun g => some (gfxSetColor fg bg g)
  | .redraw inputBuffer inputPos => redrawInput inputBuffer inputPos

def runCalls : List Call → State → Option State
  | [], s => some s
  | c :: calls, s => (call c s).bind (runCalls calls)

/-- Every call gets through, with the cursor on screen after it. -/
def KeepsScreen (calls : List Call) (s : State) : Prop :=
  ∀ done, done <+: calls → ∃ t, runCalls done s = some t ∧ OnScreen t.gfx

/-- Every character of a text has room, from the cell the text before it leads to. -/
def TextRoom (w h : Nat) : List (BitVec 8) → Nat → Nat → Prop
  | [], _, _ => True
  | c :: text, x, y =>
    Room w h c x y ∧ TextRoom w h text (advance w c x y).1 (advance w c x y).2

/-- What a call asks of the screen: the cursor behind the input stays in its text row, and
every line feed has a text row below it. Offsets into a huge framebuffer never leave it. -/
def Call.Fits (s : Gfx.State) : Call → Prop
  | .putchar c => Room s.fbWidth s.fbHeight c s.cursorX s.cursorY
  | .clear => True
  | .setColor _ _ => True
  | .redraw inputBuffer inputPos => 8 * (inputPos + 8) ≤ s.fbWidth ∧
      (¬Huge s → s.cursorY + 32 ≤ s.fbHeight ∧ TextRoom s.fbWidth s.fbHeight
        (prompt ++ (List.range inputPos).map inputBuffer) 0 s.cursorY)

/-- A state that differs in what drawing changes only. -/
def Shifted (s : State) (x y : Nat) (t : State) : Prop :=
  ∃ g, t = { s with gfx := g } ∧ Moved s.gfx x y g

/-- The terminal draws on the framebuffer. -/
structure Draws (s : State) : Prop where
  framebuffer : s.useFramebuffer = true
  screen : Screen s.gfx

section Shifted

variable {s t u : State} {x y : Nat}

theorem shifted_trans {x' y' : Nat} (h : Shifted s x y t) (h' : Shifted t x' y' u) :
    Shifted s x' y' u := by
  obtain ⟨g, rfl, hg⟩ := h
  obtain ⟨g', rfl, hg'⟩ := h'
  exact ⟨g', rfl, moved_trans hg hg'⟩

theorem Draws.of_shifted (h : Draws s) (hs : Shifted s x y t) : Draws t := by
  obtain ⟨g, rfl, hg⟩ := hs
  exact ⟨h.framebuffer, h.screen.of_moved hg⟩

theorem Shifted.huge (h : Shifted s x y t) : Huge t.gfx ↔ Huge s.gfx := by
  obtain ⟨g, rfl, hg⟩ := h
  exact hg.huge

theorem Shifted.cursor (h : Shifted s x y t) : t.gfx.cursorX = x ∧ t.gfx.cursorY = y ∧
    t.gfx.fbWidth = s.gfx.fbWidth ∧ t.gfx.fbHeight = s.gfx.fbHeight := by
  obtain ⟨g, rfl, m, p, rfl⟩ := h
  exact ⟨rfl, rfl, rfl, rfl⟩

theorem Shifted.onScreen (h : Shifted s x y t) (hx : x + 8 ≤ s.gfx.fbWidth)
    (hy : y + 16 ≤ s.gfx.fbHeight) : OnScreen t.gfx := by
  obtain ⟨g, rfl, hg⟩ := h
  exact hg.onScreen hx hy

theorem onGfx_some {f : Gfx.State → Option Gfx.State} {g : Gfx.State} (h : f s.gfx = some g) :
    onGfx f s = some { s with gfx := g } := by
  rw [onGfx, h]
  rfl

theorem onGfx_eq_some {f : Gfx.State → Option Gfx.State} (h : onGfx f s = some t) :
    f s.gfx = some t.gfx := by
  rw [onGfx, Option.map_eq_some_iff] at h
  obtain ⟨g, hg, rfl⟩ := h
  exact hg

theorem sendSerial_shifted (c : BitVec 8) (s : State) :
    Shifted s s.gfx.cursorX s.gfx.cursorY (sendSerial c s) := by
  rw [sendSerial]
  split_ifs
  · exact ⟨_, rfl, _, _, rfl⟩
  · exact ⟨s.gfx, rfl, _, _, rfl⟩

end Shifted

/-- What a way of putting a character on the framebuffer does. -/
structure Puts (put : BitVec 8 → State → Option State) : Prop where
  room : ∀ {c s}, Draws s → OnScreen s.gfx →
    Room s.gfx.fbWidth s.gfx.fbHeight c s.gfx.cursorX s.gfx.cursorY →
    ∃ t, put c s = some t ∧ OnScreen t.gfx ∧ Shifted s
      (advance s.gfx.fbWidth c s.gfx.cursorX s.gfx.cursorY).1
      (advance s.gfx.fbWidth c s.gfx.cursorX s.gfx.cursorY).2 t
  noRoom : ∀ {c s}, Draws s → OnScreen s.gfx →
    ¬Room s.gfx.fbWidth s.gfx.fbHeight c s.gfx.cursorX s.gfx.cursorY → ¬Huge s.gfx →
    put c s = none
  huge : ∀ {c s}, Draws s → Huge s.gfx → ∃ t x y, put c s = some t ∧ Shifted s x y t

theorem puts_gfxPutchar : Puts fun c => onGfx (gfxPutchar c) where
  room {c s} h hon hroom := by
    obtain ⟨g, hg, hon', hmoved⟩ := gfxPutchar_room h.screen hon hroom
    exact ⟨_, onGfx_some hg, hon', g, rfl, hmoved⟩
  noRoom {c s} h hon hroom hhuge := by
    rw [onGfx, (gfxPutchar_noRoom h.screen hon hroom).1 hhuge]
    rfl
  huge {c s} h hhuge := by
    obtain ⟨g, x, y, hg, hmoved⟩ := gfxPutchar_huge c h.screen hhuge
    exact ⟨_, x, y, onGfx_some hg, g, rfl, hmoved⟩

/-- The character goes to the serial port first, which leaves the screen as it is. -/
theorem terminalPutchar_eq {s : State} (c : BitVec 8) (h : Draws s) : ∃ m p,
    terminalPutchar c s = onGfx (gfxPutchar c)
      { s with gfx := { s.gfx with framebuffer := m, serial := p } } := by
  obtain ⟨g, heq, m, p, rfl⟩ := sendSerial_shifted c s
  refine ⟨m, p, ?_⟩
  rw [terminalPutchar, heq]
  exact if_pos h.framebuffer

theorem puts_terminalPutchar : Puts terminalPutchar where
  room {c s} h hon hroom := by
    obtain ⟨m, p, hput⟩ := terminalPutchar_eq c h
    have hsent : Shifted s s.gfx.cursorX s.gfx.cursorY _ := ⟨_, rfl, m, p, rfl⟩
    obtain ⟨t, ht, hon', hshifted⟩ := puts_gfxPutchar.room (h.of_shifted hsent) hon hroom
    exact ⟨t, hput.trans ht, hon', shifted_trans hsent hshifted⟩
  noRoom {c s} h hon hroom hhuge := by
    obtain ⟨m, p, hput⟩ := terminalPutchar_eq c h
    have hsent : Shifted s s.gfx.cursorX s.gfx.cursorY _ := ⟨_, rfl, m, p, rfl⟩
    exact hput.trans (puts_gfxPutchar.noRoom (h.of_shifted hsent) hon hroom hhuge)
  huge {c s} h hhuge := by
    obtain ⟨m, p, hput⟩ := terminalPutchar_eq c h
    have hsent : Shifted s s.gfx.cursorX s.gfx.cursorY _ := ⟨_, rfl, m, p, rfl⟩
    obtain ⟨t, x, y, ht, hshifted⟩ := puts_gfxPutchar.huge (h.of_shifted hsent) hhuge
    exact ⟨t, x, y, hput.trans ht, shifted_trans hsent hshifted⟩

/-- Every call of a run fits the state it starts in. -/
def EachFits (calls : List Call) (s : State) : Prop :=
  ∀ done c rest t, calls = done ++ c :: rest → runCalls done s = some t → c.Fits t.gfx

/-- A text, character by character. -/
def putAll (put : BitVec 8 → State → Option State) : List (BitVec 8) → State → Option State
  | [], s => some s
  | c :: text, s => (put c s).bind (putAll put text)

section Text

variable {put : BitVec 8 → State → Option State} {text : List (BitVec 8)} {s : State}

theorem putAll_eq (put : BitVec 8 → State → Option State) : putAll put = runAll put := by
  funext text
  induction text with
  | nil => rfl
  | cons c text ih =>
    funext s
    rw [putAll, runAll, ih]

theorem putAll_append (put : BitVec 8 → State → Option State) (text text' : List (BitVec 8))
    (s : State) : putAll put (text ++ text') s = (putAll put text s).bind (putAll put text') := by
  rw [putAll_eq, runAll_append]

theorem forUp?_eq_putAll (put : BitVec 8 → State → Option State) (b : Nat → BitVec 8) (lo n : Nat)
    (s : State) :
    forUp? (fun i => put (b i)) lo n s = putAll put ((List.range' lo n).map b) s := by
  induction n generalizing lo s with
  | zero => rfl
  | succ n ih =>
    rw [forUp?, List.range'_succ, List.map_cons, putAll]
    exact congrArg _ (funext fun t => ih (lo + 1) t)

/-- A text without NUL is written whole. -/
theorem terminalWrite_eq {text : List (BitVec 8)} (h : ∀ c ∈ text, c ≠ 0) (s : State) :
    terminalWrite text s = putAll terminalPutchar text s := by
  induction text generalizing s with
  | nil => rfl
  | cons c text ih =>
    rw [terminalWrite, if_neg (h c List.mem_cons_self), putAll]
    exact congrArg _ (funext (ih fun d hd => h d (List.mem_cons_of_mem c hd)))

theorem putAll_room (hput : Puts put) (h : Draws s) (hon : OnScreen s.gfx)
    (hroom : TextRoom s.gfx.fbWidth s.gfx.fbHeight text s.gfx.cursorX s.gfx.cursorY) :
    ∃ t x y, putAll put text s = some t ∧ OnScreen t.gfx ∧ Shifted s x y t := by
  induction text generalizing s with
  | nil => exact ⟨s, _, _, rfl, hon, s.gfx, rfl, s.gfx.framebuffer, s.gfx.serial, rfl⟩
  | cons c text ih =>
    obtain ⟨t, ht, hon', hshifted⟩ := hput.room h hon hroom.1
    have hdraws := h.of_shifted hshifted
    have hrest := hroom.2
    obtain ⟨g, rfl, m, p, rfl⟩ := hshifted
    obtain ⟨u, x, y, hu, hon', hshifted'⟩ := ih hdraws hon' hrest
    refine ⟨u, x, y, ?_, hon', shifted_trans ⟨_, rfl, m, p, rfl⟩ hshifted'⟩
    rw [putAll, ht, Option.bind_some, hu]

theorem putAll_none (hput : Puts put) (h : Draws s) (hon : OnScreen s.gfx) (hhuge : ¬Huge s.gfx)
    (hroom : ¬TextRoom s.gfx.fbWidth s.gfx.fbHeight text s.gfx.cursorX s.gfx.cursorY) :
    putAll put text s = none := by
  induction text generalizing s with
  | nil => exact absurd trivial hroom
  | cons c text ih =>
    rw [putAll]
    by_cases hc : Room s.gfx.fbWidth s.gfx.fbHeight c s.gfx.cursorX s.gfx.cursorY
    · obtain ⟨t, ht, hon', hshifted⟩ := hput.room h hon hc
      have hdraws := h.of_shifted hshifted
      have hrest := fun hrest => hroom ⟨hc, hrest⟩
      obtain ⟨g, rfl, m, p, rfl⟩ := hshifted
      rw [ht, Option.bind_some]
      exact ih hdraws hon' hhuge hrest
    · rw [hput.noRoom h hon hc hhuge]
      rfl

theorem putAll_huge (hput : Puts put) (h : Draws s) (hhuge : Huge s.gfx) :
    ∃ t x y, putAll put text s = some t ∧ Shifted s x y t := by
  induction text generalizing s with
  | nil => exact ⟨s, _, _, rfl, s.gfx, rfl, s.gfx.framebuffer, s.gfx.serial, rfl⟩
  | cons c text ih =>
    obtain ⟨t, x, y, ht, hshifted⟩ := hput.huge (c := c) h hhuge
    obtain ⟨u, x', y', hu, hshifted'⟩ := ih (h.of_shifted hshifted) (hshifted.huge.2 hhuge)
    refine ⟨u, x', y', ?_, shifted_trans hshifted hshifted'⟩
    rw [putAll, ht, Option.bind_some, hu]

/-- A text written from the left edge of a row on, as `redraw_input` does. -/
def writeLine (put : BitVec 8 → State → Option State) (text : List (BitVec 8)) (row : Nat)
    (s : State) : Option State :=
  (onGfx (gfxMoveCursor 0 row) s).bind (putAll put text)

variable {row : Nat}

theorem moveCursor_works (h : Draws s) (hcell : CellIn s.gfx s.gfx.cursorX s.gfx.cursorY)
    (hrow : row + 16 ≤ s.gfx.fbHeight) :
    ∃ t, onGfx (gfxMoveCursor 0 row) s = some t ∧ OnScreen t.gfx ∧ Shifted s 0 row t := by
  have hleft : 0 + 8 ≤ s.gfx.fbWidth := h.screen.geometry.wide
  obtain ⟨g, hg, hmoved⟩ := gfxMoveCursor_works hcell (cellIn_onScreen h.screen.frame hleft hrow)
  have hshifted : Shifted s 0 row { s with gfx := g } := ⟨g, rfl, hmoved⟩
  exact ⟨_, onGfx_some hg, hshifted.onScreen hleft hrow, hshifted⟩

theorem writeLine_works (hput : Puts put) (h : Draws s)
    (hcell : CellIn s.gfx s.gfx.cursorX s.gfx.cursorY) (hrow : row + 16 ≤ s.gfx.fbHeight)
    (hroom : ¬Huge s.gfx → TextRoom s.gfx.fbWidth s.gfx.fbHeight text 0 row) :
    ∃ t x y, writeLine put text row s = some t ∧ Shifted s x y t ∧
      CellIn t.gfx t.gfx.cursorX t.gfx.cursorY := by
  obtain ⟨t, ht, hon, hshifted⟩ := moveCursor_works h hcell hrow
  have hdraws := h.of_shifted hshifted
  rw [writeLine, ht, Option.bind_some]
  by_cases hhuge : Huge s.gfx
  · obtain ⟨u, x, y, hu, hshifted'⟩ := putAll_huge hput hdraws (hshifted.huge.2 hhuge)
    have hhuge' := hshifted'.huge.2 (hshifted.huge.2 hhuge)
    exact ⟨u, x, y, hu, shifted_trans hshifted hshifted', cellIn_huge hhuge'⟩
  · have hfits := hroom hhuge
    obtain ⟨g, rfl, m, p, rfl⟩ := hshifted
    obtain ⟨u, x, y, hu, hon', hshifted'⟩ := putAll_room hput hdraws hon hfits
    have hscreen := (hdraws.of_shifted hshifted').screen
    refine ⟨u, x, y, hu, shifted_trans ⟨_, rfl, m, p, rfl⟩ hshifted', ?_⟩
    exact cellIn_onScreen hscreen.frame hon'.1 hon'.2

theorem writeLine_none (hput : Puts put) (h : Draws s) (hhuge : ¬Huge s.gfx)
    (hcell : CellIn s.gfx s.gfx.cursorX s.gfx.cursorY) (hrow : row + 16 ≤ s.gfx.fbHeight)
    (hroom : ¬TextRoom s.gfx.fbWidth s.gfx.fbHeight text 0 row) :
    writeLine put text row s = none := by
  obtain ⟨t, ht, hon, hshifted⟩ := moveCursor_works h hcell hrow
  have hdraws := h.of_shifted hshifted
  obtain ⟨g, rfl, m, p, rfl⟩ := hshifted
  rw [writeLine, ht, Option.bind_some]
  exact putAll_none hput hdraws hon hhuge hroom

end Text

/-- The blanks that fill a text row lead to the next one. -/
theorem textRoom_blanks {w h y k x : Nat} (hlo : x + 8 * (k + 1) ≤ w)
    (hhi : w < x + 8 * (k + 1) + 8) :
    TextRoom w h (List.replicate (k + 1) 0x20) x y ↔ y + 32 ≤ h := by
  have hne : (0x20 : BitVec 8) ≠ 0x0A := by decide
  have hne' : (0x20 : BitVec 8) ≠ 0x08 := by decide
  induction k generalizing x with
  | zero =>
    have hright : w < x + 16 := by omega
    constructor
    · exact fun hroom => hroom.1 (.inr ⟨hne', hright⟩)
    · exact fun hlow => ⟨fun _ => hlow, trivial⟩
  | succ k ih =>
    have hleft : ¬w < x + 16 := by omega
    have hcell : advance w 0x20 x y = (x + 8, y) := by
      rw [advance, if_neg hne, if_neg hne', if_neg hleft]
    have hrest : TextRoom w h (List.replicate (k + 1) 0x20) (x + 8) y ↔ y + 32 ≤ h :=
      ih (by omega) (by omega)
    rw [List.replicate_succ, TextRoom, hcell, hrest]
    refine and_iff_right ?_
    rintro (hline | ⟨_, hright⟩)
    · exact absurd hline hne
    · exact absurd hright hleft

section Redraw

variable {s : State} (inputBuffer : Buffer) (inputPos : Nat)

theorem gfxMoveCursor_width {x y : Nat} {g t : Gfx.State} (h : gfxMoveCursor x y g = some t) :
    t.fbWidth = g.fbWidth := by
  rw [gfxMoveCursor, Option.bind_eq_some_iff] at h
  obtain ⟨u, hhide, hshow⟩ := h
  obtain ⟨m, rfl⟩ := gfxInvertCell_painted hhide
  obtain ⟨m', rfl⟩ := gfxInvertCell_painted hshow
  rfl

/-- The two texts `redraw_input` writes. -/
theorem redrawInput_eq (h : s.useFramebuffer = true) :
    redrawInput inputBuffer inputPos s =
      ((writeLine (fun c => onGfx (gfxPutchar c)) (List.replicate (s.gfx.fbWidth / 8) 0x20)
        s.gfx.cursorY s).bind
      (writeLine terminalPutchar (prompt ++ (List.range inputPos).map inputBuffer)
        s.gfx.cursorY)).bind
      (onGfx (gfxMoveCursor (u32 (7 * 8 + inputPos * 8)) s.gfx.cursorY)) := by
  have hblanks (n : Nat) (u : State) : forUp? (fun _ => onGfx (gfxPutchar 0x20)) 0 n u =
      putAll (fun c => onGfx (gfxPutchar c)) (List.replicate n 0x20) u := by
    have hput := forUp?_eq_putAll (fun c => onGfx (gfxPutchar c)) (fun _ => 0x20) 0 n u
    rwa [List.map_const', List.length_range'] at hput
  have hprompt (u : State) : terminalWrite prompt u = putAll terminalPutchar prompt u :=
    terminalWrite_eq (by decide) u
  have htext (u : State) : forUp? (fun i => terminalPutchar (inputBuffer i)) 0 inputPos u =
      putAll terminalPutchar ((List.range inputPos).map inputBuffer) u := by
    rw [forUp?_eq_putAll, List.range_eq_range']
  rw [redrawInput, if_pos h]
  dsimp only
  rw [writeLine, Option.bind_assoc, Option.bind_assoc]
  cases ht : onGfx (gfxMoveCursor 0 s.gfx.cursorY) s with
  | none => rfl
  | some t =>
    have hwidth := gfxMoveCursor_width (onGfx_eq_some ht)
    simp only [writeLine, Option.bind_some, hwidth, hblanks, hprompt, htext, putAll_append,
      Option.bind_assoc]

/-- Where the cursor goes in the end. -/
theorem redrawInput_end (hpos : inputPos < 256) :
    u32 (7 * 8 + inputPos * 8) + 8 = 8 * (inputPos + 8) := by
  rw [u32_of_lt] <;> omega

/-- The blanks over the whole row need the next one too. -/
theorem blankLine_room (h : Draws s) :
    TextRoom s.gfx.fbWidth s.gfx.fbHeight (List.replicate (s.gfx.fbWidth / 8) 0x20) 0
      s.gfx.cursorY ↔ s.gfx.cursorY + 32 ≤ s.gfx.fbHeight := by
  have hwide := h.screen.geometry.wide
  obtain ⟨k, hk⟩ : ∃ k, s.gfx.fbWidth / 8 = k + 1 := ⟨s.gfx.fbWidth / 8 - 1, by omega⟩
  rw [hk, textRoom_blanks (by omega) (by omega)]

variable {inputBuffer inputPos}

/-- Both texts fit: all that is left is the last move of the cursor. -/
theorem redrawInput_reaches (h : Draws s) (hon : OnScreen s.gfx)
    (hfits : ¬Huge s.gfx → s.gfx.cursorY + 32 ≤ s.gfx.fbHeight ∧
      TextRoom s.gfx.fbWidth s.gfx.fbHeight (prompt ++ (List.range inputPos).map inputBuffer) 0
        s.gfx.cursorY) :
    ∃ t x y, redrawInput inputBuffer inputPos s =
        onGfx (gfxMoveCursor (u32 (7 * 8 + inputPos * 8)) s.gfx.cursorY) t ∧
      Shifted s x y t ∧ CellIn t.gfx t.gfx.cursorX t.gfx.cursorY := by
  obtain ⟨t, x, y, ht, hshifted, hcell⟩ := writeLine_works puts_gfxPutchar h
    (cellIn_onScreen h.screen.frame hon.1 hon.2) hon.2
    fun hhuge => (blankLine_room h).2 (hfits hhuge).1
  have hdraws := h.of_shifted hshifted
  rw [redrawInput_eq inputBuffer inputPos h.framebuffer, ht, Option.bind_some]
  obtain ⟨_, _, hwidth, hheight⟩ := hshifted.cursor
  have hrow : s.gfx.cursorY + 16 ≤ t.gfx.fbHeight := hheight ▸ hon.2
  have htext (hhuge : ¬Huge t.gfx) : TextRoom t.gfx.fbWidth t.gfx.fbHeight
      (prompt ++ (List.range inputPos).map inputBuffer) 0 s.gfx.cursorY := by
    rw [hwidth, hheight]
    exact (hfits (hshifted.huge.not.1 hhuge)).2
  obtain ⟨u, x', y', hu, hshifted', hcell'⟩ :=
    writeLine_works puts_terminalPutchar hdraws hcell hrow htext
  exact ⟨u, x', y', by rw [hu, Option.bind_some], shifted_trans hshifted hshifted', hcell'⟩

/-- A text that does not fit leaves the framebuffer. -/
theorem redrawInput_none (h : Draws s) (hon : OnScreen s.gfx) (hhuge : ¬Huge s.gfx)
    (hfits : ¬(s.gfx.cursorY + 32 ≤ s.gfx.fbHeight ∧
      TextRoom s.gfx.fbWidth s.gfx.fbHeight (prompt ++ (List.range inputPos).map inputBuffer) 0
        s.gfx.cursorY)) :
    redrawInput inputBuffer inputPos s = none := by
  have hcell := cellIn_onScreen h.screen.frame hon.1 hon.2
  have hblanks := blankLine_room h
  rw [redrawInput_eq inputBuffer inputPos h.framebuffer]
  by_cases hlow : s.gfx.cursorY + 32 ≤ s.gfx.fbHeight
  · obtain ⟨t, x, y, ht, hshifted, hcell'⟩ :=
      writeLine_works puts_gfxPutchar h hcell hon.2 fun _ => hblanks.2 hlow
    have hdraws := h.of_shifted hshifted
    obtain ⟨_, _, hwidth, hheight⟩ := hshifted.cursor
    have hrow : s.gfx.cursorY + 16 ≤ t.gfx.fbHeight := hheight ▸ hon.2
    have htext : ¬TextRoom t.gfx.fbWidth t.gfx.fbHeight
        (prompt ++ (List.range inputPos).map inputBuffer) 0 s.gfx.cursorY := by
      rw [hwidth, hheight]
      exact fun htext => hfits ⟨hlow, htext⟩
    rw [ht, Option.bind_some, writeLine_none puts_terminalPutchar hdraws
      (hshifted.huge.not.2 hhuge) hcell' hrow htext]
    rfl
  · rw [writeLine_none puts_gfxPutchar h hhuge hcell hon.2 (hblanks.not.2 hlow)]
    rfl

end Redraw

section Calls

variable {s t : State}

/-- A call that fits gets through and leaves the cursor on screen. -/
theorem call_fits {c : Call} (h : Draws s) (hon : OnScreen s.gfx) (hfits : c.Fits s.gfx) :
    ∃ t, call c s = some t ∧ Draws t ∧ OnScreen t.gfx := by
  cases c with
  | putchar c =>
    obtain ⟨t, ht, hon', hshifted⟩ := puts_gfxPutchar.room h hon hfits
    exact ⟨t, ht, h.of_shifted hshifted, hon'⟩
  | clear =>
    obtain ⟨g, hg, hon', hmoved⟩ := gfxClear_works h.screen.frame h.screen.geometry.wide
    exact ⟨_, onGfx_some hg, h.of_shifted ⟨g, rfl, hmoved⟩, hon'⟩
  | setColor fg bg => exact ⟨_, rfl, ⟨h.framebuffer, ⟨h.screen.geometry, h.screen.bpp⟩⟩, hon⟩
  | redraw inputBuffer inputPos =>
    obtain ⟨t, x, y, ht, hshifted, hcell⟩ := redrawInput_reaches h hon hfits.2
    have hdraws := h.of_shifted hshifted
    obtain ⟨_, _, hwidth, hheight⟩ := hshifted.cursor
    have hx : u32 (7 * 8 + inputPos * 8) + 8 ≤ t.gfx.fbWidth := by
      rw [redrawInput_end _ inputPos.isLt, hwidth]
      exact hfits.1
    have hy : s.gfx.cursorY + 16 ≤ t.gfx.fbHeight := hheight ▸ hon.2
    obtain ⟨g, hg, hmoved⟩ := gfxMoveCursor_works hcell (cellIn_onScreen hdraws.screen.frame hx hy)
    have hend := hdraws.of_shifted ⟨g, rfl, hmoved⟩
    exact ⟨_, ht.trans (onGfx_some hg), hend, hmoved.onScreen hx hy⟩

/-- A call that does not fit leaves the framebuffer, or the cursor off screen. -/
theorem call_unfit {c : Call} (h : Draws s) (hon : OnScreen s.gfx) (hfits : ¬c.Fits s.gfx)
    (ht : call c s = some t) : ¬OnScreen t.gfx := by
  cases c with
  | putchar c => exact (gfxPutchar_noRoom h.screen hon hfits).2 t.gfx (onGfx_eq_some ht)
  | clear => exact absurd trivial hfits
  | setColor fg bg => exact absurd trivial hfits
  | redraw inputBuffer inputPos =>
    by_cases htexts : ¬Huge s.gfx → s.gfx.cursorY + 32 ≤ s.gfx.fbHeight ∧
        TextRoom s.gfx.fbWidth s.gfx.fbHeight (prompt ++ (List.range inputPos).map inputBuffer) 0
          s.gfx.cursorY
    · have hlong : ¬8 * (inputPos + 8 : Nat) ≤ s.gfx.fbWidth := fun hshort => hfits ⟨hshort, htexts⟩
      obtain ⟨u, x, y, hu, hshifted, hcell⟩ := redrawInput_reaches h hon htexts
      obtain ⟨_, _, hwidth, _⟩ := hshifted.cursor
      obtain ⟨g, hg, hmoved⟩ :=
        gfxMoveCursor_eq hcell (u32 (7 * 8 + inputPos * 8)) s.gfx.cursorY
      have hshown := onGfx_eq_some (hu.symm.trans ht)
      obtain ⟨m, p, heq⟩ := hmoved.painted (gfxInvertCell_painted (hg.symm.trans hshown))
      intro hon'
      have hx : u32 (7 * 8 + inputPos * 8) + 8 ≤ u.gfx.fbWidth := (heq ▸ hon').1
      rw [redrawInput_end _ inputPos.isLt, hwidth] at hx
      exact hlong hx
    · rw [Classical.not_imp] at htexts
      rw [call, redrawInput_none h hon htexts.1 htexts.2] at ht
      exact absurd ht (by simp)

theorem runCalls_eq : runCalls = runAll call := by
  funext calls
  induction calls with
  | nil => rfl
  | cons c calls ih =>
    funext s
    rw [runCalls, runAll, ih]

theorem keepsScreen_eq {calls : List Call} :
    KeepsScreen calls s ↔ Keeps call (fun s => OnScreen s.gfx) calls s := by
  rw [KeepsScreen, Keeps, runCalls_eq]

theorem eachFits_cons {c : Call} {calls : List Call} :
    EachFits (c :: calls) s ↔ c.Fits s.gfx ∧ ∀ t, call c s = some t → EachFits calls t := by
  constructor
  · intro h
    refine ⟨h [] c calls s rfl rfl, fun t ht done c' rest u hsplit hu => ?_⟩
    refine h (c :: done) c' rest u (congrArg (c :: ·) hsplit) ?_
    rw [runCalls, ht, Option.bind_some, hu]
  · rintro ⟨hfits, h⟩ done c' rest u hsplit hu
    cases done with
    | nil =>
      obtain ⟨rfl, _⟩ := List.cons.inj hsplit
      exact Option.some.inj hu ▸ hfits
    | cons d done =>
      obtain ⟨rfl, hsplit'⟩ := List.cons.inj hsplit
      rw [runCalls, Option.bind_eq_some_iff] at hu
      obtain ⟨t, ht, hrest⟩ := hu
      exact h t ht done c' rest u hsplit' hrest

/-- A run keeps the screen exactly when each of its calls fits. -/
theorem keepsScreen_calls {calls : List Call} (h : Draws s) (hon : OnScreen s.gfx) :
    KeepsScreen calls s ↔ EachFits calls s := by
  rw [keepsScreen_eq]
  induction calls generalizing s with
  | nil =>
    rw [keeps_nil]
    refine iff_of_true hon ?_
    rintro done c rest t hsplit -
    exact absurd hsplit (by simp)
  | cons c calls ih =>
    rw [keeps_cons, eachFits_cons, and_iff_right hon]
    by_cases hfits : c.Fits s.gfx
    · obtain ⟨t, ht, hdraws, hon'⟩ := call_fits h hon hfits
      simp only [ht, Option.some.injEq, hfits, true_and, exists_eq_left', forall_eq',
        ih hdraws hon']
    · constructor
      · rintro ⟨t, ht, hkeeps⟩
        exact absurd hkeeps.start (call_unfit h hon hfits ht)
      · exact fun hall => absurd hall.1 hfits

end Calls

/-- The framebuffer is set up and cleared. -/
def start (pitch width height : Nat) (s : State) : Option State :=
  (onGfx (gfxInit pitch width height 32) s).bind (onGfx gfxClear)

theorem start_works {pitch width height : Nat} (h : Geometry pitch width height) {s : State}
    (huse : s.useFramebuffer = true) : ∃ t, start pitch width height s = some t ∧ Draws t ∧
      OnScreen t.gfx ∧ t.gfx.cursorX = 0 ∧ t.gfx.cursorY = 0 ∧ t.gfx.fbWidth = width ∧
      t.gfx.fbHeight = height ∧ t.gfx.fbPitch = pitch := by
  obtain ⟨g, hg, hscreen, hwidth, hheight, hpitch⟩ := gfxInit_works h s.gfx
  obtain ⟨g', hg', hon, hmoved⟩ := gfxClear_works hscreen.frame hscreen.geometry.wide
  refine ⟨{ s with gfx := g' }, ?_, ⟨huse, hscreen.of_moved hmoved⟩, hon, ?_⟩
  · rw [start, onGfx_some hg, Option.bind_some]
    exact onGfx_some hg'
  · obtain ⟨m, p, rfl⟩ := hmoved
    exact ⟨rfl, rfl, hwidth, hheight, hpitch⟩

/-- On every screen, a run of calls keeps the cursor on screen and every access inside the
framebuffer exactly when each call fits the state it starts in. -/
theorem keepsScreen_iff {pitch width height : Nat} (h : Geometry pitch width height) (s : State)
    (huse : s.useFramebuffer = true) (calls : List Call) :
    ∃ t, start pitch width height s = some t ∧ (KeepsScreen calls t ↔ EachFits calls t) := by
  obtain ⟨t, ht, hdraws, hon, _⟩ := start_works h huse
  exact ⟨t, ht, keepsScreen_calls hdraws hon⟩

/-- A framebuffer full of zeros, before `gfx_init`. -/
def unset : State :=
  { State.boot (fun _ => 0) (fun _ => 0) ⟨0, fun _ => 0⟩ with useFramebuffer := true }

theorem vga_geometry : Geometry 2560 640 480 :=
  ⟨by decide, by decide, by decide, by decide, by decide⟩

theorem keepsScreen_iff_cleared : ∃ t, start 2560 640 480 unset = some t ∧
    (KeepsScreen [.putchar 0x41, .clear] t ↔ EachFits [.putchar 0x41, .clear] t) :=
  keepsScreen_iff vga_geometry unset rfl _

/-- Line feeds that all fit lead down the screen. -/
theorem lineFeeds_run (k : Nat) {s : State} (h : Draws s) (hon : OnScreen s.gfx)
    (hlow : s.gfx.cursorY + 16 * k + 16 ≤ s.gfx.fbHeight) :
    ∃ t, runCalls (List.replicate k (.putchar 0x0A)) s = some t ∧
      t.gfx.cursorY = s.gfx.cursorY + 16 * k ∧ t.gfx.fbHeight = s.gfx.fbHeight := by
  induction k generalizing s with
  | zero => exact ⟨s, rfl, rfl, rfl⟩
  | succ k ih =>
    have hroom : Room s.gfx.fbWidth s.gfx.fbHeight 0x0A s.gfx.cursorX s.gfx.cursorY := by
      intro _
      omega
    obtain ⟨t, ht, hon', hshifted⟩ := puts_gfxPutchar.room h hon hroom
    obtain ⟨_, hy, _, hheight⟩ := hshifted.cursor
    rw [advance, if_pos rfl] at hy
    obtain ⟨u, hu, hrow, hheight'⟩ := ih (h.of_shifted hshifted) hon' (by omega)
    refine ⟨u, ?_, by omega, hheight'.trans hheight⟩
    have hcall : call (.putchar 0x0A) s = some t := ht
    rw [List.replicate_succ, runCalls, hcall, Option.bind_some, hu]

/-- The thirtieth line feed on a screen of thirty text rows leaves it. -/
theorem lineFeeds_leave : ∃ t, start 2560 640 480 unset = some t ∧
    ¬KeepsScreen (List.replicate 30 (.putchar 0x0A)) t := by
  obtain ⟨t, ht, hdraws, hon, _, hy, _, hheight, _⟩ := start_works vga_geometry (s := unset) rfl
  refine ⟨t, ht, fun hkeeps => ?_⟩
  rw [keepsScreen_calls hdraws hon] at hkeeps
  obtain ⟨u, hu, hy', hheight'⟩ := lineFeeds_run 29 hdraws hon (by omega)
  have hroom := hkeeps (List.replicate 29 (.putchar 0x0A)) (.putchar 0x0A) [] u rfl hu
  have hlow : u.gfx.cursorY + 32 ≤ u.gfx.fbHeight := hroom (.inl rfl)
  omega

end Terminal
