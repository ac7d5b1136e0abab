import Nyrix.Gfx

/-!
# Which accesses stay inside the framebuffer

Drawing changes bytes of the framebuffer and nothing else, and it gets through exactly when
the cell it draws in lies inside. A cell on screen does; the cell a line feed leads to from
the last text row starts right behind the last byte.
-/

namespace Gfx

open BoundedLoop ByteMemory

/-- A state that differs in the bytes of the framebuffer only. -/
def Painted (s t : State) : Prop := ∃ m, t = { s with framebuffer := m }

/-- A drawing step that gets through. -/
def Works (s : State) (r : Option State) : Prop := ∃ t, r = some t ∧ Painted s t

theorem painted_refl (s : State) : Painted s s := ⟨s.framebuffer, rfl⟩

theorem painted_trans {s t u : State} (h : Painted s t) (h' : Painted t u) : Painted s u := by
  obtain ⟨m, rfl⟩ := h
  obtain ⟨m', rfl⟩ := h'
  exact ⟨m', rfl⟩

section Loops

variable {s : State} {body : Nat → State → Option State} {lo n : Nat}

theorem works_loop (h : ∀ i t, lo ≤ i → i < lo + n → Painted s t → Works t (body i t)) :
    Works s (forUp? body lo n s) := by
  refine forUp?_induct body (fun _ t => Painted s t) lo n s (painted_refl s) ?_
  intro i t hlo hi hpainted
  obtain ⟨u, hu, hpainted'⟩ := h i t hlo hi hpainted
  exact ⟨u, hu, painted_trans hpainted hpainted'⟩

/-- A loop with a body that fails in every painted state fails. -/
theorem loop_none {i : Nat} (hpaint : ∀ i t u, body i t = some u → Painted t u) (hlo : lo ≤ i)
    (hi : i < lo + n) (h : ∀ t, Painted s t → body i t = none) : forUp? body lo n s = none := by
  induction n generalizing lo s with
  | zero => omega
  | succ n ih =>
    rw [forUp?]
    by_cases hat : i = lo
    · rw [← hat, h s (painted_refl s)]
      rfl
    · cases ht : body lo s with
      | none => rfl
      | some t =>
        have hpainted := hpaint lo s t ht
        exact ih (by omega) (by omega) fun u hu => h u (painted_trans hpainted hu)

/-- What a loop of drawing steps leaves, if it gets through. -/
theorem loop_painted {t : State} (hpaint : ∀ i t u, body i t = some u → Painted t u)
    (h : forUp? body lo n s = some t) : Painted s t := by
  induction n generalizing lo s with
  | zero => exact Option.some.inj h ▸ painted_refl s
  | succ n ih =>
    rw [forUp?, Option.bind_eq_some_iff] at h
    obtain ⟨u, hu, hrest⟩ := h
    exact painted_trans (hpaint lo s u hu) (ih hrest)

end Loops

section Access

variable {s : State} {off : Nat}

theorem inFrame_of_le {n : Nat} (h : off + n ≤ s.fbPitch * s.fbHeight) : InFrame s off n := by
  intro i hi
  have hle : u32 (off + i) ≤ off + i := Nat.mod_le _ _
  omega

/-- The end of the framebuffer, or of a part of it, in one of its rows. -/
theorem row_inFrame {y b n : Nat} (hy : y < s.fbHeight) (hb : b + n ≤ s.fbPitch) :
    InFrame s (y * s.fbPitch + b) n := by
  have hrow : (y + 1) * s.fbPitch ≤ s.fbHeight * s.fbPitch := Nat.mul_le_mul_right _ hy
  rw [Nat.add_mul, Nat.one_mul, Nat.mul_comm s.fbHeight] at hrow
  exact inFrame_of_le (by omega)

theorem works_writePixel (v : BitVec 32) (h : InFrame s off 4) : Works s (writePixel off v s) :=
  ⟨_, if_pos h, _, rfl⟩

theorem works_writeByte (v : BitVec 8) (h : InFrame s off 1) : Works s (writeByte off v s) :=
  ⟨_, if_pos h, _, rfl⟩

theorem writePixel_painted {v : BitVec 32} {t : State} (h : writePixel off v s = some t) :
    Painted s t := by
  rw [writePixel] at h
  split_ifs at h
  exact ⟨_, (Option.some.inj h).symm⟩

end Access

/-- The width, height and pitch the boot loader may announce for 32 bits per pixel. -/
structure Geometry (pitch width height : Nat) : Prop where
  wide : 8 ≤ width
  tall : 32 ≤ height
  rows : 4 * width ≤ pitch
  pitch_lt : pitch < 4294967296
  height_lt : height < 4294967296

/-- A framebuffer of such a geometry. -/
structure Screen (s : State) : Prop where
  geometry : Geometry s.fbPitch s.fbWidth s.fbHeight
  bpp : s.fbBpp = 32

/-- A framebuffer with 32 bits per pixel that is a text row high or more. -/
structure Frame32 (s : State) : Prop where
  bpp : s.fbBpp = 32
  tall : 16 ≤ s.fbHeight
  rows : 4 * s.fbWidth ≤ s.fbPitch
  pitch_lt : s.fbPitch < 4294967296
  height_lt : s.fbHeight < 4294967296

/-- The cursor cell is on screen. -/
def OnScreen (s : State) : Prop := s.cursorX + 8 ≤ s.fbWidth ∧ s.cursorY + 16 ≤ s.fbHeight

/-- Every pixel of the cell lies inside the framebuffer. -/
def CellIn (s : State) (cx cy : Nat) : Prop :=
  ∀ y < charH, ∀ x < charW, InFrame s (cellOffset s cx cy y x) 4

section Cell

variable {s : State} {cx cy : Nat}

theorem Screen.of_painted {t : State} (h : Screen s) (hpainted : Painted s t) : Screen t := by
  obtain ⟨m, rfl⟩ := hpainted
  exact ⟨h.geometry, h.bpp⟩

theorem Screen.frame (h : Screen s) : Frame32 s where
  bpp := h.bpp
  tall := Nat.le_trans (by decide) h.geometry.tall
  rows := h.geometry.rows
  pitch_lt := h.geometry.pitch_lt
  height_lt := h.geometry.height_lt

theorem Frame32.of_painted {t : State} (h : Frame32 s) (hpainted : Painted s t) : Frame32 t := by
  obtain ⟨m, rfl⟩ := hpainted
  exact ⟨h.bpp, h.tall, h.rows, h.pitch_lt, h.height_lt⟩

theorem cellIn_onScreen (h : Frame32 s) (hx : cx + 8 ≤ s.fbWidth) (hy : cy + 16 ≤ s.fbHeight) :
    CellIn s cx cy := by
  intro y hy' x hx'
  have hrows := h.rows
  simp only [charH, charW] at hy' hx'
  rw [cellOffset, h.bpp, Nat.add_assoc]
  exact row_inFrame (by omega) (by omega)

/-- The announced size does not fit the address space: offsets wrap before they leave it. -/
def Huge (s : State) : Prop := 4294967296 ≤ s.fbPitch * s.fbHeight

theorem cellIn_huge (h : Huge s) : CellIn s cx cy := by
  intro y _ x _ i _
  have hlt : u32 (cellOffset s cx cy y x + i) < 4294967296 := Nat.mod_lt _ (by decide)
  exact Nat.lt_of_lt_of_le hlt h

/-- A cell at the left edge that reaches below the last row starts behind the last byte. -/
theorem not_cellIn_below (h : ¬Huge s) (htop : cy ≤ s.fbHeight) (hbelow : s.fbHeight < cy + 16) :
    ¬CellIn s 0 cy := by
  intro hin
  have hrow : s.fbHeight - cy < charH := by
    simp only [charH]
    omega
  have hfirst := hin (s.fbHeight - cy) hrow 0 (by decide) 0 (by decide)
  have hoff : cellOffset s 0 cy (s.fbHeight - cy) 0 + 0 = s.fbPitch * s.fbHeight := by
    rw [cellOffset, Nat.add_sub_of_le htop, Nat.mul_comm]
    omega
  rw [hoff, u32, Nat.mod_eq_of_lt (Nat.lt_of_not_le h)] at hfirst
  exact Nat.lt_irrefl _ hfirst

theorem eachPixel_works {f : Nat → Nat → State → Option State}
    (h : ∀ y < charH, ∀ x < charW, ∀ t, Painted s t → Works t (f y x t)) :
    Works s (eachPixel f s) := by
  refine works_loop fun y t _ hy hpainted => works_loop fun x u _ hx hpainted' => ?_
  exact h y (by omega) x (by omega) u (painted_trans hpainted hpainted')

theorem gfxInvertCell_works (h : CellIn s cx cy) : Works s (gfxInvertCell cx cy s) := by
  refine eachPixel_works fun y hy x hx t hpainted => ?_
  obtain ⟨m, rfl⟩ := hpainted
  have hin : InFrame { s with framebuffer := m } (cellOffset s cx cy y x) 4 := h y hy x hx
  have hread : readPixel { s with framebuffer := m } (cellOffset s cx cy y x) = _ := if_pos hin
  rw [invertPixel]
  change Works _ ((readPixel { s with framebuffer := m } (cellOffset s cx cy y x)).bind _)
  rw [hread]
  exact works_writePixel _ hin

theorem invertPixel_painted {y x : Nat} {t : State} (h : invertPixel cx cy y x s = some t) :
    Painted s t := by
  rw [invertPixel, Option.bind_eq_some_iff] at h
  obtain ⟨p, _, hwrite⟩ := h
  exact writePixel_painted hwrite

theorem gfxInvertCell_painted {t : State} (h : gfxInvertCell cx cy s = some t) : Painted s t :=
  loop_painted (fun _ _ _ => loop_painted fun _ _ _ => invertPixel_painted) h

/-- A cell that is not inside the framebuffer cannot be inverted. -/
theorem gfxInvertCell_none (h : ¬CellIn s cx cy) : gfxInvertCell cx cy s = none := by
  have hpixel : ∀ y x t u, invertPixel cx cy y x t = some u → Painted t u :=
    fun _ _ _ _ => invertPixel_painted
  simp only [CellIn, not_forall] at h
  obtain ⟨y, hy, x, hx, hout⟩ := h
  refine loop_none (fun y t u hu => loop_painted (hpixel y) hu) (Nat.zero_le y) (by omega)
    fun t ht => loop_none (hpixel y) (Nat.zero_le x) (by omega) fun u hu => ?_
  obtain ⟨m, rfl⟩ := painted_trans ht hu
  have hread : readPixel { s with framebuffer := m } (cellOffset s cx cy y x) = none := if_neg hout
  rw [invertPixel]
  change (readPixel { s with framebuffer := m } (cellOffset s cx cy y x)).bind _ = none
  rw [hread]
  rfl

theorem eachPixel_write (v : Nat → Nat → State → BitVec 32) (h : CellIn s s.cursorX s.cursorY) :
    Works s (eachPixel
      (fun y x s => writePixel (cellOffset s s.cursorX s.cursorY y x) (v y x s) s) s) := by
  refine eachPixel_works fun y hy x hx t hpainted => ?_
  obtain ⟨m, rfl⟩ := hpainted
  exact works_writePixel _ (h y hy x hx)

theorem drawChar_works (c : BitVec 8) (h : CellIn s s.cursorX s.cursorY) : Works s (drawChar c s) :=
  eachPixel_write (fun y x s => if fontRow (getFontChar c) y &&& (0x80#8 >>> x) ≠ 0 then s.fgColor
    else s.bgColor) h

theorem eraseCell_works (h : CellIn s s.cursorX s.cursorY) : Works s (eraseCell s) :=
  eachPixel_write (fun _ _ s => s.bgColor) h

end Cell

section Rows

variable {s : State}

theorem fillRow_works {y : Nat} (h : Frame32 s) (hy : y < s.fbHeight) : Works s (fillRow y s) := by
  have hrows := h.rows
  refine works_loop fun x t _ hx hpainted => ?_
  obtain ⟨m, rfl⟩ := hpainted
  have hin : InFrame s (y * s.fbPitch + 4 * x) 4 := row_inFrame hy (by omega)
  exact works_writePixel _ hin

theorem fillRows_works (lo n : Nat) (h : Frame32 s) (hn : lo + n ≤ s.fbHeight) :
    Works s (forUp? fillRow lo n s) := by
  refine works_loop fun y t _ hy hpainted => ?_
  have hframe := h.of_painted hpainted
  obtain ⟨m, rfl⟩ := hpainted
  have hlt : y < s.fbHeight := by omega
  exact fillRow_works hframe hlt

theorem rowBytes_eq (h : Frame32 s) : u32 (s.fbWidth * (s.fbBpp / 8)) = 4 * s.fbWidth := by
  have hrows := h.rows
  have hpitch := h.pitch_lt
  rw [h.bpp, u32, Nat.mod_eq_of_lt] <;> omega

theorem copyRow_works {y : Nat} (h : Frame32 s) (hy : y + 16 < s.fbHeight) :
    Works s (copyRow y s) := by
  have hrows := h.rows
  rw [copyRow, rowBytes_eq h]
  refine works_loop fun x t _ hx hpainted => ?_
  obtain ⟨m, rfl⟩ := hpainted
  have hsrc : InFrame s ((y + charH) * s.fbPitch + x) 1 := row_inFrame hy (by omega)
  have hdst : InFrame s (y * s.fbPitch + x) 1 := row_inFrame (by omega) (by omega)
  have hread : readByte { s with framebuffer := m } ((y + charH) * s.fbPitch + x) = _ := if_pos hsrc
  rw [copyByte]
  change Works _ ((readByte { s with framebuffer := m } ((y + charH) * s.fbPitch + x)).bind _)
  rw [hread]
  exact works_writeByte _ hdst

theorem scrollTop_eq (h : Frame32 s) :
    u32 (s.fbHeight + 4294967296 - charH) = s.fbHeight - 16 := by
  have htall := h.tall
  have hlt := h.height_lt
  simp only [u32, charH]
  omega

/-- Scrolling copies all pixel rows but the last 16 and fills these. -/
theorem gfxScroll_eq (h : Frame32 s) : gfxScroll s =
    (forUp? copyRow 0 (s.fbHeight - 16) s).bind (forUp? fillRow (s.fbHeight - 16) 16) := by
  have htall := h.tall
  have hrest : s.fbHeight - (s.fbHeight - 16) = 16 := by omega
  simp only [gfxScroll, scrollTop_eq h, hrest]

theorem gfxScroll_works (h : Frame32 s) : Works s (gfxScroll s) := by
  have htall := h.tall
  have hcopy : Works s (forUp? copyRow 0 (s.fbHeight - 16) s) := by
    refine works_loop fun y t _ hy hpainted => ?_
    have hframe := h.of_painted hpainted
    obtain ⟨m, rfl⟩ := hpainted
    have hrow : y + 16 < s.fbHeight := by omega
    exact copyRow_works hframe hrow
  obtain ⟨t, ht, hpainted⟩ := hcopy
  have hfill := fillRows_works (s.fbHeight - 16) 16 (h.of_painted hpainted) (by
    obtain ⟨m, rfl⟩ := hpainted
    change s.fbHeight - 16 + 16 ≤ s.fbHeight
    omega)
  obtain ⟨u, hu, hpainted'⟩ := hfill
  refine ⟨u, ?_, painted_trans hpainted hpainted'⟩
  rw [gfxScroll_eq h, ht, Option.bind_some]
  exact hu

end Rows

/-- A state that differs in the bytes of the framebuffer, the serial port and the cursor. -/
def Moved (s : State) (x y : Nat) (t : State) : Prop :=
  ∃ m p, t = { s with framebuffer := m, serial := p, cursorX := x, cursorY := y }

section Cursor

variable {s t u : State} {x y : Nat}

theorem Painted.moved (h : Painted s t) : Moved s s.cursorX s.cursorY t := by
  obtain ⟨m, rfl⟩ := h
  exact ⟨m, s.serial, rfl⟩

theorem moved_trans {x' y' : Nat} (h : Moved s x y t) (h' : Moved t x' y' u) : Moved s x' y' u := by
  obtain ⟨m, p, rfl⟩ := h
  obtain ⟨m', p', rfl⟩ := h'
  exact ⟨m', p', rfl⟩

theorem moved_cursor (s : State) (x y : Nat) : Moved s x y { s with cursorX := x, cursorY := y } :=
  ⟨s.framebuffer, s.serial, rfl⟩

theorem Moved.painted (h : Moved s x y t) (hu : Painted t u) : Moved s x y u := by
  obtain ⟨m, p, rfl⟩ := h
  obtain ⟨m', rfl⟩ := hu
  exact ⟨m', p, rfl⟩

theorem Screen.of_moved (h : Screen s) (hmoved : Moved s x y t) : Screen t := by
  obtain ⟨m, p, rfl⟩ := hmoved
  exact ⟨h.geometry, h.bpp⟩

/-- Where the cursor is after a character, on a screen `w` pixels wide. -/
def advance (w : Nat) (c : BitVec 8) (x y : Nat) : Nat × Nat :=
  if c = 0x0A then (0, y + 16)
  else if c = 0x08 then
    if 8 ≤ x then (x - 8, y) else if 16 ≤ y then (w - 8, y - 16) else (x, y)
  else if w < x + 16 then (0, y + 16)
  else (x + 8, y)

/-- A character that leads to the next text row finds one on a screen `h` pixels high. -/
def Room (w h : Nat) (c : BitVec 8) (x y : Nat) : Prop :=
  c = 0x0A ∨ c ≠ 0x08 ∧ w < x + 16 → y + 32 ≤ h

instance (w h : Nat) (c : BitVec 8) (x y : Nat) : Decidable (Room w h c x y) :=
  inferInstanceAs (Decidable (_ → _))

theorem lineFeed_works (h : Screen s) :
    ∃ t, lineFeed s = some t ∧ Moved s 0 (u32 (s.cursorY + 16)) t := by
  have hmoved := moved_cursor s 0 (u32 (s.cursorY + 16))
  by_cases hlow : u32 (u32 (s.cursorY + 16) + 16) ≥ s.fbHeight
  · obtain ⟨t, ht, hpainted⟩ := gfxScroll_works (h.of_moved hmoved).frame
    refine ⟨t, ?_, hmoved.painted hpainted⟩
    rw [← ht]
    exact if_pos hlow
  · exact ⟨_, if_neg hlow, hmoved⟩

theorem u32_of_lt {n : Nat} (h : n < 4294967296) : u32 n = n := Nat.mod_eq_of_lt h

/-- Nothing wraps around on screen. -/
theorem OnScreen.lt (h : Screen s) (hon : OnScreen s) :
    s.cursorX + 16 < 4294967296 ∧ s.cursorY + 16 < 4294967296 := by
  have hrows := h.geometry.rows
  have hpitch := h.geometry.pitch_lt
  have hheight := h.geometry.height_lt
  obtain ⟨hx, hy⟩ := hon
  omega

theorem stepBack_moved (s : State) :
    Moved s (stepBack s).cursorX (stepBack s).cursorY (stepBack s) := by
  rw [stepBack]
  split_ifs <;> exact ⟨_, _, rfl⟩

theorem stepBack_advance (h : Screen s) :
    ((stepBack s).cursorX, (stepBack s).cursorY) = advance s.fbWidth 0x08 s.cursorX s.cursorY := by
  have hwide := h.geometry.wide
  have hrows := h.geometry.rows
  have hpitch := h.geometry.pitch_lt
  have hlast : u32 (s.fbWidth + 4294967296 - 8) = s.fbWidth - 8 := by
    simp only [u32]
    omega
  have hne : (0x08 : BitVec 8) ≠ 0x0A := by decide
  rw [stepBack, advance, if_neg hne, if_pos rfl, charW, charH]
  split_ifs <;> simp_all

theorem stepForward_works (h : Screen s) : ∃ t x y, stepForward s = some t ∧ Moved s x y t ∧
    (OnScreen s → (x, y) = if s.fbWidth < s.cursorX + 16 then (0, s.cursorY + 16)
      else (s.cursorX + 8, s.cursorY)) := by
  have hexact : OnScreen s → u32 (s.cursorX + 8) = s.cursorX + 8 ∧
      u32 (s.cursorX + 8 + 8) = s.cursorX + 16 ∧ u32 (s.cursorY + 16) = s.cursorY + 16 := by
    intro hon
    have hlt := hon.lt h
    exact ⟨u32_of_lt (by omega), u32_of_lt (by omega), u32_of_lt (by omega)⟩
  by_cases hright : u32 (u32 (s.cursorX + 8) + 8) > s.fbWidth
  · have hmoved := moved_cursor s (u32 (s.cursorX + 8)) s.cursorY
    obtain ⟨t, ht, hfeed⟩ := lineFeed_works (h.of_moved hmoved)
    refine ⟨t, _, _, ?_, moved_trans hmoved hfeed, fun hon => ?_⟩
    · rw [← ht]
      exact if_pos hright
    · obtain ⟨hx, hx', hy⟩ := hexact hon
      rw [hx, hx'] at hright
      rw [if_pos hright, hy]
  · refine ⟨_, _, _, if_neg hright, moved_cursor s _ _, fun hon => ?_⟩
    obtain ⟨hx, hx', hy⟩ := hexact hon
    rw [hx, hx'] at hright
    rw [if_neg hright, charW, hx]

/-- The cell the cursor is on and the one before it lie inside the framebuffer. -/
structure Reachable (s : State) : Prop where
  screen : Screen s
  cursor : CellIn s s.cursorX s.cursorY
  back : CellIn s (stepBack s).cursorX (stepBack s).cursorY

theorem CellIn.of_moved {cx cy : Nat} (h : CellIn s cx cy) (hmoved : Moved s x y t) :
    CellIn t cx cy := by
  obtain ⟨m, p, rfl⟩ := hmoved
  exact h

theorem putGlyph_works (c : BitVec 8) (h : Reachable s) : ∃ t x y, putGlyph c s = some t ∧
    Moved s x y t ∧ (OnScreen s → (x, y) = advance s.fbWidth c s.cursorX s.cursorY) := by
  rw [putGlyph]
  by_cases hline : c = 0x0A
  · obtain ⟨t, ht, hfeed⟩ := lineFeed_works h.screen
    refine ⟨t, _, _, (if_pos hline).trans ht, hfeed, fun hon => ?_⟩
    rw [advance, if_pos hline, u32_of_lt (hon.lt h.screen).2]
  rw [if_neg hline]
  by_cases hback : c = 0x08
  · have hstep := stepBack_moved s
    obtain ⟨t, ht, hpainted⟩ := eraseCell_works (h.back.of_moved hstep)
    refine ⟨t, _, _, (if_pos hback).trans ht, hstep.painted hpainted, fun _ => ?_⟩
    rw [hback, stepBack_advance h.screen]
  rw [if_neg hback]
  obtain ⟨t, ht, hpainted⟩ := drawChar_works c h.cursor
  obtain ⟨u, x, y, hu, hmoved, hexact⟩ := stepForward_works (h.screen.of_painted hpainted)
  obtain ⟨m, rfl⟩ := hpainted
  refine ⟨u, x, y, ?_, moved_trans ⟨m, s.serial, rfl⟩ hmoved, fun hon => ?_⟩
  · rw [ht, Option.bind_some, hu]
  · rw [advance, if_neg hline, if_neg hback]
    exact hexact hon

theorem toSerial_moved (c : BitVec 8) (s : State) : Moved s s.cursorX s.cursorY (toSerial c s) := by
  rw [toSerial]
  split_ifs
  · exact ⟨_, _, rfl⟩
  · exact ⟨_, _, rfl⟩

theorem Reachable.of_moved (h : Reachable s) (hmoved : Moved s s.cursorX s.cursorY t) :
    Reachable t := by
  have hscreen := h.screen.of_moved hmoved
  obtain ⟨m, p, rfl⟩ := hmoved
  refine ⟨hscreen, h.cursor, ?_⟩
  have hback := h.back
  simp only [stepBack] at hback ⊢
  split_ifs at hback ⊢
  · exact hback
  · exact hback
  · exact hback

/-- Drawing gets through up to where the cursor is shown in its new place. -/
theorem gfxPutchar_reaches (c : BitVec 8) (h : Reachable s) : ∃ t x y,
    gfxPutchar c s = gfxShowCursor t ∧ Moved s x y t ∧
    (OnScreen s → (x, y) = advance s.fbWidth c s.cursorX s.cursorY) := by
  obtain ⟨t, ht, hhidden⟩ := gfxInvertCell_works h.cursor
  have hmoved := moved_trans hhidden.moved (toSerial_moved c t)
  have hkept : Moved s s.cursorX s.cursorY (toSerial c t) := by
    obtain ⟨m, rfl⟩ := hhidden
    exact hmoved
  obtain ⟨u, x, y, hu, hglyph, hexact⟩ := putGlyph_works c (h.of_moved hkept)
  refine ⟨u, x, y, ?_, moved_trans hmoved hglyph, ?_⟩
  · rw [gfxPutchar, gfxHideCursor, ht, Option.bind_some, hu, Option.bind_some]
  · obtain ⟨m, p, heq⟩ := hkept
    rw [heq] at hexact
    exact hexact

theorem Moved.onScreen (h : Moved s x y t) (hx : x + 8 ≤ s.fbWidth) (hy : y + 16 ≤ s.fbHeight) :
    OnScreen t := by
  obtain ⟨m, p, rfl⟩ := h
  exact ⟨hx, hy⟩

theorem Moved.huge (h : Moved s x y t) : Huge t ↔ Huge s := by
  obtain ⟨m, p, rfl⟩ := h
  exact Iff.rfl

theorem Screen.reachable_of_huge (h : Screen s) (hhuge : Huge s) : Reachable s :=
  ⟨h, cellIn_huge hhuge, cellIn_huge hhuge⟩

theorem advance_onScreen {c : BitVec 8} (h : Screen s) (hon : OnScreen s)
    (hroom : Room s.fbWidth s.fbHeight c s.cursorX s.cursorY) :
    (advance s.fbWidth c s.cursorX s.cursorY).1 + 8 ≤ s.fbWidth ∧
    (advance s.fbWidth c s.cursorX s.cursorY).2 + 16 ≤ s.fbHeight := by
  have hwide := h.geometry.wide
  have hlow : ∀ b, Room s.fbWidth s.fbHeight c s.cursorX s.cursorY → (c = 0x0A ∨ c ≠ 0x08 ∧ b) →
      (b → s.fbWidth < s.cursorX + 16) → s.cursorY + 32 ≤ s.fbHeight := by
    intro b hr hc hb
    exact hr (hc.imp_right fun hc => ⟨hc.1, hb hc.2⟩)
  obtain ⟨hx, hy⟩ := hon
  rw [advance]
  split_ifs with hline hback hleft hup hright
  · have hrow := hroom (.inl hline)
    exact ⟨by omega, by omega⟩
  · exact ⟨by omega, by omega⟩
  · exact ⟨by omega, by omega⟩
  · exact ⟨hx, hy⟩
  · have hrow := hroom (.inr ⟨hback, hright⟩)
    exact ⟨by omega, by omega⟩
  · exact ⟨by omega, by omega⟩

theorem OnScreen.reachable (h : Screen s) (hon : OnScreen s) : Reachable s := by
  have hroom : Room s.fbWidth s.fbHeight 0x08 s.cursorX s.cursorY := by
    rintro (hc | ⟨hc, _⟩)
    · exact absurd hc (by decide)
    · exact absurd rfl hc
  obtain ⟨hx, hy⟩ := advance_onScreen h hon hroom
  rw [← stepBack_advance h] at hx hy
  exact ⟨h, cellIn_onScreen h.frame hon.1 hon.2, cellIn_onScreen h.frame hx hy⟩

/-- A character with room for the cursor behind it. -/
theorem gfxPutchar_room {c : BitVec 8} (h : Screen s) (hon : OnScreen s)
    (hroom : Room s.fbWidth s.fbHeight c s.cursorX s.cursorY) :
    ∃ t, gfxPutchar c s = some t ∧ OnScreen t ∧ Moved s
      (advance s.fbWidth c s.cursorX s.cursorY).1 (advance s.fbWidth c s.cursorX s.cursorY).2 t := by
  obtain ⟨t, x, y, ht, hmoved, hexact⟩ := gfxPutchar_reaches c (hon.reachable h)
  rw [← hexact hon]
  have hcell := advance_onScreen h hon hroom
  rw [← hexact hon] at hcell
  have hon' := hmoved.onScreen hcell.1 hcell.2
  obtain ⟨u, hu, hshown⟩ := gfxInvertCell_works
    (cellIn_onScreen (h.of_moved hmoved).frame hon'.1 hon'.2)
  have hmoved' := hmoved.painted hshown
  exact ⟨u, ht.trans hu, hmoved'.onScreen hcell.1 hcell.2, hmoved'⟩

/-- Without room the cursor ends up below the screen, where it cannot be shown. -/
theorem gfxPutchar_noRoom {c : BitVec 8} (h : Screen s) (hon : OnScreen s)
    (hroom : ¬Room s.fbWidth s.fbHeight c s.cursorX s.cursorY) :
    (¬Huge s → gfxPutchar c s = none) ∧ ∀ t, gfxPutchar c s = some t → ¬OnScreen t := by
  obtain ⟨t, x, y, ht, hmoved, hexact⟩ := gfxPutchar_reaches c (hon.reachable h)
  rw [Room, Classical.not_imp] at hroom
  obtain ⟨hleads, hlow⟩ := hroom
  have hcell : advance s.fbWidth c s.cursorX s.cursorY = (0, s.cursorY + 16) := by
    rw [advance]
    obtain hline | ⟨hback, hright⟩ := hleads
    · exact if_pos hline
    · rw [if_neg hback, if_pos hright, ite_self]
  obtain ⟨rfl, rfl⟩ := Prod.mk.inj ((hexact hon).trans hcell)
  obtain ⟨m, p, rfl⟩ := hmoved
  have hy := hon.2
  refine ⟨fun hhuge => ?_, fun u hu hon' => ?_⟩
  · rw [ht]
    refine gfxInvertCell_none (not_cellIn_below hhuge hy ?_)
    change s.fbHeight < s.cursorY + 16 + 16
    omega
  · obtain ⟨m, rfl⟩ := gfxInvertCell_painted (ht.symm.trans hu)
    have hy' : s.cursorY + 16 + 16 ≤ s.fbHeight := hon'.2
    omega

theorem gfxPutchar_huge (c : BitVec 8) (h : Screen s) (hhuge : Huge s) :
    ∃ t x y, gfxPutchar c s = some t ∧ Moved s x y t := by
  obtain ⟨t, x, y, ht, hmoved, _⟩ := gfxPutchar_reaches c (h.reachable_of_huge hhuge)
  obtain ⟨u, hu, hshown⟩ := gfxInvertCell_works (cellIn_huge (hmoved.huge.2 hhuge))
  exact ⟨u, x, y, ht.trans hu, hmoved.painted hshown⟩

theorem Frame32.of_moved (h : Frame32 s) (hmoved : Moved s x y t) : Frame32 t := by
  obtain ⟨m, p, rfl⟩ := hmoved
  exact ⟨h.bpp, h.tall, h.rows, h.pitch_lt, h.height_lt⟩

theorem gfxClear_works (h : Frame32 s) (hwide : 8 ≤ s.fbWidth) :
    ∃ t, gfxClear s = some t ∧ OnScreen t ∧ Moved s 0 0 t := by
  have htall := h.tall
  have hfits : 0 + 8 ≤ s.fbWidth ∧ 0 + 16 ≤ s.fbHeight := ⟨by omega, by omega⟩
  obtain ⟨t, ht, hpainted⟩ := fillRows_works 0 s.fbHeight h (by omega)
  have hframe := h.of_painted hpainted
  obtain ⟨m, rfl⟩ := hpainted
  obtain ⟨u, hu, hshown⟩ := gfxInvertCell_works
    (cellIn_onScreen (hframe.of_moved (moved_cursor _ 0 0)) hfits.1 hfits.2)
  have hmoved : Moved s 0 0 u := Moved.painted ⟨m, s.serial, rfl⟩ hshown
  refine ⟨u, ?_, hmoved.onScreen hfits.1 hfits.2, hmoved⟩
  rw [gfxClear, ht, Option.bind_some]
  exact hu

theorem gfxInit_works {pitch width height : Nat} (h : Geometry pitch width height) (s : State) :
    ∃ t, gfxInit pitch width height 32 s = some t ∧ Screen t ∧
      t.fbWidth = width ∧ t.fbHeight = height ∧ t.fbPitch = pitch := by
  have hscreen : Screen
      { s with fbPitch := pitch, fbWidth := width, fbHeight := height, fbBpp := 32 } := ⟨h, rfl⟩
  have hrows : 0 + height ≤ height := Nat.le_of_eq (Nat.zero_add height)
  obtain ⟨t, ht, hpainted⟩ := fillRows_works 0 height hscreen.frame hrows
  refine ⟨_, by rw [gfxInit, ht, Option.map_some], ?_⟩
  obtain ⟨m, rfl⟩ := hpainted
  exact ⟨⟨h, rfl⟩, rfl, rfl, rfl⟩

theorem gfxMoveCursor_eq (h : CellIn s s.cursorX s.cursorY) (x y : Nat) :
    ∃ t, gfxMoveCursor x y s = gfxInvertCell x y t ∧ Moved s x y t := by
  obtain ⟨t, ht, hpainted⟩ := gfxInvertCell_works h
  refine ⟨{ t with cursorX := x, cursorY := y }, ?_, ?_⟩
  · rw [gfxMoveCursor, ht, Option.bind_some]
  · obtain ⟨m, rfl⟩ := hpainted
    exact ⟨m, s.serial, rfl⟩

theorem gfxMoveCursor_works (h : CellIn s s.cursorX s.cursorY) (hnew : CellIn s x y) :
    ∃ t, gfxMoveCursor x y s = some t ∧ Moved s x y t := by
  obtain ⟨t, ht, hmoved⟩ := gfxMoveCursor_eq h x y
  obtain ⟨u, hu, hshown⟩ := gfxInvertCell_works (hnew.of_moved hmoved)
  exact ⟨u, ht.trans hu, hmoved.painted hshown⟩

end Cursor

end Gfx
