import Nyrix.GfxOverlay
import Nyrix.TerminalBounds

/-!
# What the terminal sends to the serial port

Writing a character sends it from the terminal and, in framebuffer mode, once more from the
graphics layer, which checks the same flag.
-/

namespace Gfx

variable {s t : State}

theorem Painted.serial (h : Painted s t) : t.serial = s.serial := by
  obtain ⟨m, rfl⟩ := h
  rfl

theorem lineFeed_serial (h : lineFeed s = some t) : t.serial = s.serial := by
  rw [lineFeed] at h
  dsimp only at h
  split_ifs at h
  · exact (gfxScroll_painted h).serial
  · rw [← Option.some.inj h]

theorem stepForward_serial (h : stepForward s = some t) : t.serial = s.serial := by
  rw [stepForward] at h
  dsimp only at h
  split_ifs at h
  · exact lineFeed_serial h
  · rw [← Option.some.inj h]

theorem stepBack_serial (s : State) : (stepBack s).serial = s.serial := by
  rw [stepBack]
  split_ifs <;> rfl

theorem putGlyph_serial {c : BitVec 8} (h : putGlyph c s = some t) : t.serial = s.serial := by
  rw [putGlyph] at h
  split_ifs at h
  · exact lineFeed_serial h
  · rw [(eachPixel_painted h).serial, stepBack_serial]
  · rw [Option.bind_eq_some_iff] at h
    obtain ⟨u, hdraw, hstep⟩ := h
    rw [stepForward_serial hstep, (eachPixel_painted hdraw).serial]

/-- The graphics layer sends the character it draws. -/
theorem gfxPutchar_serial {c : BitVec 8} (h : gfxPutchar c s = some t) :
    t.serial = if s.serial.useSerial then serialPutchar c s.serial else s.serial := by
  rw [gfxPutchar, Option.bind_eq_some_iff] at h
  obtain ⟨u, hhide, hput⟩ := h
  obtain ⟨v, hglyph, hshow⟩ := Option.bind_eq_some_iff.mp hput
  have hu := (gfxInvertCell_painted hhide).serial
  rw [(gfxInvertCell_painted hshow).serial, putGlyph_serial hglyph, toSerial, ← hu]
  split_ifs <;> rfl

end Gfx

namespace Terminal

open Gfx (Serial serialPutchar)

section Frame

variable {s t : State}

/-- The VGA driver leaves the graphics layer, and with it the serial port, alone. -/
structure SameGfx (s t : State) : Prop where
  gfx : t.gfx = s.gfx
  mode : t.useFramebuffer = s.useFramebuffer

theorem SameGfx.trans {u : State} (h : SameGfx s t) (h' : SameGfx t u) : SameGfx s u :=
  ⟨h'.gfx.trans h.gfx, h'.mode.trans h.mode⟩

theorem vgaWrite_sameGfx {i : Nat} {v : BitVec 16} (h : vgaWrite i v s = some t) :
    SameGfx s t := by
  rw [vgaWrite] at h
  split_ifs at h
  rw [← Option.some.inj h]
  exact ⟨rfl, rfl⟩

theorem nextRow_sameGfx (h : nextRow s = some t) : SameGfx s t := by
  by_cases hfull : s.terminalRow + 1 = 25
  · rw [nextRow_full hfull] at h
    rw [← Option.some.inj h]
    exact ⟨rfl, rfl⟩
  · rw [nextRow_room hfull] at h
    rw [← Option.some.inj h]
    exact ⟨rfl, rfl⟩

theorem stepBack_sameGfx (s : State) : SameGfx s (stepBack s) := by
  rw [stepBack]
  split_ifs <;> exact ⟨rfl, rfl⟩

theorem putCell_sameGfx {c : BitVec 8} (h : putCell c s = some t) : SameGfx s t := by
  rw [putCell] at h
  split_ifs at h
  · exact nextRow_sameGfx h
  · rw [Option.bind_eq_some_iff] at h
    obtain ⟨u, hwrite, h⟩ := h
    have hu := vgaWrite_sameGfx hwrite
    dsimp only at h
    split_ifs at h
    · exact hu.trans (nextRow_sameGfx h)
    · rw [← Option.some.inj h]
      exact ⟨hu.gfx, hu.mode⟩

theorem vgaPutchar_sameGfx {c : BitVec 8} (h : vgaPutchar c s = some t) : SameGfx s t := by
  by_cases hback : c = 0x08
  · subst hback
    rw [vgaPutchar_back, Option.map_eq_some_iff] at h
    obtain ⟨u, hwrite, rfl⟩ := h
    have hu := (stepBack_sameGfx s).trans (vgaWrite_sameGfx hwrite)
    exact ⟨hu.gfx, hu.mode⟩
  · rw [vgaPutchar_eq hback, Option.map_eq_some_iff] at h
    obtain ⟨u, hput, rfl⟩ := h
    have hu := putCell_sameGfx hput
    exact ⟨hu.gfx, hu.mode⟩

end Frame

/-- What one character is on the wire. -/
def wire (c : BitVec 8) : List (BitVec 8) := if c = 0x0A then [0x0D, 0x0A] else [c]

/-- The characters of a C string. -/
def cString (str : List (BitVec 8)) : List (BitVec 8) := str.takeWhile (· != 0#8)

/-- `terminal_write(str)` has sent the string once. -/
def SentOnce (str : List (BitVec 8)) (s t : State) : Prop :=
  t.gfx.serial.sent = s.gfx.serial.sent ++ (cString str).flatMap wire

/-- What writing one character sends. -/
def sends (useFramebuffer : Bool) (c : BitVec 8) : List (BitVec 8) :=
  if useFramebuffer then wire c ++ wire c else wire c

theorem serialPutchar_sent (c : BitVec 8) (p : Serial) :
    (serialPutchar c p).sent = p.sent ++ wire c := by
  rw [serialPutchar, wire]
  split_ifs with hlf
  · simp [hlf]
  · simp

section Sent

variable {s t : State}

/-- The serial port is in use and the mode is the same before and after. -/
structure Serving (s t : State) : Prop where
  serves : t.gfx.serial.useSerial = true
  mode : t.useFramebuffer = s.useFramebuffer

theorem terminalPutchar_sent {c : BitVec 8} (hserial : s.gfx.serial.useSerial = true)
    (h : terminalPutchar c s = some t) : Serving s t ∧
      t.gfx.serial.sent = s.gfx.serial.sent ++ sends s.useFramebuffer c := by
  have hsend : sendSerial c s =
      { s with gfx := { s.gfx with serial := serialPutchar c s.gfx.serial } } := if_pos hserial
  have hstill : (serialPutchar c s.gfx.serial).useSerial = true := hserial
  rw [terminalPutchar, hsend] at h
  dsimp only at h
  cases hmode : s.useFramebuffer with
  | true =>
    rw [if_pos hmode, onGfx, Option.map_eq_some_iff] at h
    obtain ⟨g, hput, rfl⟩ := h
    have hg := Gfx.gfxPutchar_serial hput
    dsimp only at hg
    rw [if_pos hstill] at hg
    constructor
    · constructor
      · rw [hg]
        exact hstill
      · rfl
    · rw [hg, serialPutchar_sent, serialPutchar_sent, sends, if_pos rfl, List.append_assoc]
  | false =>
    rw [if_neg (by simp [hmode])] at h
    have hsame := vgaPutchar_sameGfx h
    constructor
    · constructor
      · rw [hsame.gfx]
        exact hstill
      · exact hsame.mode
    · rw [hsame.gfx, serialPutchar_sent]
      rfl

/-- The string is sent once for each layer it goes through. -/
theorem terminalWrite_sent {str : List (BitVec 8)} (hserial : s.gfx.serial.useSerial = true)
    (h : terminalWrite str s = some t) : t.gfx.serial.sent =
      s.gfx.serial.sent ++ (cString str).flatMap (sends s.useFramebuffer) := by
  induction str generalizing s with
  | nil => simp [← Option.some.inj h, cString]
  | cons c str ih =>
    rw [terminalWrite] at h
    split_ifs at h with hc
    · simp [← Option.some.inj h, cString, hc]
    · rw [Option.bind_eq_some_iff] at h
      obtain ⟨u, hput, hwrite⟩ := h
      obtain ⟨hserving, hsent⟩ := terminalPutchar_sent hserial hput
      have htake : cString (c :: str) = c :: cString str :=
        List.takeWhile_cons_of_pos (by simpa using hc)
      rw [ih hserving.serves hwrite, hsent, hserving.mode, htake, List.flatMap_cons,
        List.append_assoc]

end Sent

theorem wire_ne_nil (c : BitVec 8) : wire c ≠ [] := by
  rw [wire]
  split_ifs <;> simp

/-- What is sent twice is longer than what is sent once. -/
theorem length_sends_lt {cs : List (BitVec 8)} (h : cs ≠ []) :
    (cs.flatMap wire).length < (cs.flatMap (sends true)).length := by
  induction cs with
  | nil => exact absurd rfl h
  | cons c cs ih =>
    have hpos := List.length_pos_iff.mpr (wire_ne_nil c)
    have hle : (cs.flatMap wire).length ≤ (cs.flatMap (sends true)).length := by
      cases cs with
      | nil => simp
      | cons d ds => exact (ih (List.cons_ne_nil d ds)).le
    simp only [List.flatMap_cons, List.length_append, sends, if_true] at hle ⊢
    omega

/-- In VGA mode the call sends the string once, and it gets through while the cursor is on the
screen; in framebuffer mode it does so for the empty string only. -/
theorem terminalWrite_sentOnce_iff {s : State} {str : List (BitVec 8)}
    (hserial : s.gfx.serial.useSerial = true) :
    (∀ t, terminalWrite str s = some t →
      (SentOnce str s t ↔ s.useFramebuffer = false ∨ cString str = [])) ∧
    (s.useFramebuffer = false → InCells s → ∃ t, terminalWrite str s = some t) := by
  constructor
  · intro t ht
    rw [SentOnce, terminalWrite_sent hserial ht, List.append_cancel_left_eq]
    cases hmode : s.useFramebuffer with
    | false =>
      have hsends : sends false = wire := rfl
      simp [hsends]
    | true =>
      constructor
      · intro heq
        by_contra hne
        have hlt := length_sends_lt fun hnil => hne (Or.inr hnil)
        rw [heq] at hlt
        exact Nat.lt_irrefl _ hlt
      · rintro (hvga | hnil)
        · simp at hvga
        · simp [hnil]
  · intro hvga hcells
    obtain ⟨t, ht, -⟩ := terminalWrite_writes str ⟨hvga, hcells⟩
    exact ⟨t, ht⟩

/-- At boot "hi" and a line feed go out as four characters. -/
theorem terminalWrite_sentOnce_hi : ∃ t, terminalWrite [0x68, 0x69, 0x0A] zeroed = some t ∧
    t.gfx.serial.sent = [0x68, 0x69, 0x0D, 0x0A] := by
  obtain ⟨hsent, hreturns⟩ := @terminalWrite_sentOnce_iff zeroed [0x68, 0x69, 0x0A] rfl
  obtain ⟨t, ht⟩ := hreturns rfl (by decide)
  exact ⟨t, ht, (hsent t ht).mpr (Or.inl rfl)⟩

/-- The terminal drawing on a framebuffer of 640 by 480 pixels. -/
def wideTerminal : State := { zeroed with gfx := Gfx.wide, useFramebuffer := true }

/-- There the letter A goes out twice. -/
theorem letter_sent_twice : wideTerminal.gfx.serial.useSerial = true ∧
    ∃ t, terminalWrite [0x41] wideTerminal = some t ∧ t.gfx.serial.sent = [0x41, 0x41] ∧
      ¬SentOnce [0x41] wideTerminal t := by
  refine ⟨rfl, ?_⟩
  let sent : Gfx.State := { Gfx.wide with serial := serialPutchar 0x41 Gfx.wide.serial }
  have hscreen : Gfx.Screen sent := ⟨⟨by decide, by decide, by decide, by decide, by decide⟩, rfl⟩
  have hon : Gfx.OnScreen sent := ⟨by decide, by decide⟩
  have hroom : Gfx.Room sent.fbWidth sent.fbHeight 0x41 sent.cursorX sent.cursorY := by decide
  obtain ⟨g, hg, -⟩ := Gfx.gfxPutchar_room hscreen hon hroom
  have ht : terminalWrite [0x41] wideTerminal = some { wideTerminal with gfx := g } := by
    have hput : terminalPutchar 0x41 wideTerminal =
        (Gfx.gfxPutchar 0x41 sent).map fun g => { wideTerminal with gfx := g } := rfl
    rw [terminalWrite, if_neg (by decide), hput, hg]
    rfl
  have htwice : g.serial.sent = [0x41, 0x41] := terminalWrite_sent rfl ht
  refine ⟨_, ht, htwice, ?_⟩
  intro honce
  have hlength := congrArg List.length (htwice.symm.trans honce)
  exact absurd hlength (by decide)

end Terminal
