import Nyrix.GfxRedraw
import Nyrix.KeyboardStored

/-!
# Redrawing the input line

`redraw_input` is meant to be local to the row of the cursor and to leave nothing to do for a
second call. In VGA mode it is. On the framebuffer it is as long as printing a row of blanks does
not scroll, or scrolls a screen that shows nothing outside that row, and what the last blank draws
behind its cell stood there before.
-/

namespace Terminal

open CharBuffer Gfx Overwriting

/-- A step changes what is seen of one row only and leaves the cursor at its goal; taken again, it
changes nothing. -/
def Redoes {ι α γ : Type} (step : State → Option State) (view : State → ι → α)
    (screen row : ι → Prop) (cursor : State → γ) (goal : γ) (s : State) : Prop :=
  ∃ t, step s = some t ∧ (∀ p, screen p → ¬row p → view t p = view s p) ∧ cursor t = goal ∧
    ∃ u, step t = some u ∧ (∀ p, screen p → view u p = view t p) ∧ cursor u = cursor t

/-- The bytes of the pixels of the framebuffer. -/
def OnSurface (s : State) : Place → Prop :=
  Inside (s.gfx.fbBpp / 8 * s.gfx.fbWidth) s.gfx.fbHeight

/-- The bytes of the cells of the text row the cursor is on. -/
def Row (s : State) : Place → Prop :=
  Along (s.gfx.fbBpp / 8) s.gfx.cursorY (s.gfx.fbWidth / charW)

/-- Redrawing the input is local to its row, and idempotent. -/
def Redraws (b : Buffer) (pos : Nat) (s : State) : Prop :=
  if s.useFramebuffer = true then
    Redoes (redrawInput b pos) (fun t => byte t.gfx) (OnSurface s) (Row s)
      (fun t => (t.gfx.cursorX, t.gfx.cursorY)) (charW * (7 + pos), s.gfx.cursorY) s
  else
    Redoes (redrawInput b pos) State.vgaBuffer (fun i => i < vgaWidth * vgaHeight) (InRow s)
      (fun t => (t.terminalColumn, t.terminalRow, t.crtc.location))
      (7 + pos, s.terminalRow, s.terminalRow * vgaWidth + (7 + pos)) s

/-- The cursor is in a cell of the screen. -/
def CursorOn (s : State) : Prop :=
  if s.useFramebuffer = true then
    Surface (s.gfx.fbBpp / 8) s.gfx.fbWidth s.gfx.fbHeight s.gfx ∧
      s.gfx.cursorY + charH ≤ s.gfx.fbHeight ∧
      ∃ col < s.gfx.fbWidth / charW, s.gfx.cursorX = charW * col
  else InCells s

/-- The number of columns of a text row. -/
def columns (s : State) : Nat := if s.useFramebuffer = true then s.gfx.fbWidth / charW else vgaWidth

/-- What is seen of a blank in the last cell of a row when the cursor is in cell `n`. -/
def lastByte (n w y : Nat) (u : Gfx.State) (p : Place) : BitVec 8 :=
  if n + 1 = w / charW then ~~~glyphByte u (lastCell w) y 0x20 p
  else glyphByte u (lastCell w) y 0x20 p

/-- Blanking the row does not scroll, or there is nothing but background outside it; and where the
last blank goes on behind the row, it draws what is there. -/
def NothingLost (pos : Nat) (s : State) : Prop :=
  s.useFramebuffer = true →
    (s.gfx.cursorY + 2 * charH < s.gfx.fbHeight ∨
      s.gfx.cursorY + 2 * charH = s.gfx.fbHeight ∧ 4 * s.gfx.fbWidth ≤ s.gfx.fbPitch ∧
        ∀ p, OnSurface s p → ¬Row s p →
          ¬CellByte s.gfx (lastCell s.gfx.fbWidth) s.gfx.cursorY p →
          byte s.gfx p = fillByte s.gfx p) ∧
    ∀ p, OnSurface s p → ¬Row s p → CellByte s.gfx (lastCell s.gfx.fbWidth) s.gfx.cursorY p →
      byte s.gfx p = lastByte (7 + pos) s.gfx.fbWidth s.gfx.cursorY s.gfx p

section Vga

variable {s : State} {b : Buffer} {pos : Nat}

theorem redoes_vga (h : Writes s) (hshort : 7 + pos < 80) :
    Redoes (redrawInput b pos) State.vgaBuffer (fun i => i < vgaWidth * vgaHeight) (InRow s)
      (fun t => (t.terminalColumn, t.terminalRow, t.crtc.location))
      (7 + pos, s.terminalRow, s.terminalRow * vgaWidth + (7 + pos)) s := by
  have hlen : ((List.range pos).map b).length = pos := by rw [List.length_map, List.length_range]
  have hrow : s.terminalRow < 25 := h.inCells.1
  have hpos : s.terminalRow * 80 + (7 + ((List.range pos).map b).length) < 65536 := by omega
  have hloc := updateCursor_location
    (s := { s.withCells (lineCells ((List.range pos).map b) s) with
      terminalColumn := 7 + ((List.range pos).map b).length }) hpos
  have hagain : Writes (redrawn ((List.range pos).map b) s) := h.redrawn (by rwa [hlen])
  refine ⟨_, redrawInput_vga h hshort, fun i _ hi => redrawn_others hi, ?_, ?_⟩
  · rw [hlen] at hloc
    have hcursor : (redrawn ((List.range pos).map b) s).crtc.location =
        s.terminalRow * 80 + (7 + pos) := by
      rw [redrawn, hlen]
      exact hloc
    have hcol : (redrawn ((List.range pos).map b) s).terminalColumn = 7 + pos :=
      congrArg (7 + ·) hlen
    dsimp only
    rw [hcursor, hcol]
    rfl
  · refine ⟨_, redrawInput_vga hagain hshort, fun i _ => ?_, ?_⟩
    · rw [redrawn_twice]
    · dsimp only
      rw [redrawn_twice]

end Vga

section Pictures

variable {d w h y : Nat} {u z : Gfx.State} {text : List (BitVec 8)} {img : Place → BitVec 8}
  {p : Place}

/-- A picture that keeps what it shows outside the row that begins at `y`. -/
def Safe (d w h y : Nat) (u : Gfx.State) : Prop :=
  y + 2 * charH < h ∨ y + 2 * charH = h ∧ 4 * w ≤ u.fbPitch ∧
    ∀ p, Inside (d * w) h p → ¬Along d y (w / charW) p → ¬CellByte u (lastCell w) y p →
      byte u p = fillByte u p

section Blanked

variable (hu : Surface d w h u)
include hu

theorem blanked_outside (hrow : ¬Along d y (w / charW) p) (hcell : ¬CellByte u (lastCell w) y p) :
    paint (blankLayers w y u) img p = img p :=
  paint_outside fun hcovered => (covered_blankLayers hu hcovered).elim hrow hcell

/-- Where four bytes a pixel fit in a row, blanking the row is filling it. -/
theorem blanked_fill (hpitch : 32 ≤ u.fbPitch) (hpixels : 4 * w ≤ u.fbPitch) (hwide : charW ≤ w)
    (hp : Along d y (w / charW) p ∨ CellByte u (lastCell w) y p ∨ img p = fillByte u p) :
    paint (blankLayers w y u) img p = fillByte u p := by
  refine paint_value (fun l hl hcovers => ?_) ?_
  · obtain ⟨i, hi, rfl⟩ := List.mem_mapIdx.mp hl
    rw [List.length_replicate] at hi
    rw [List.getElem_replicate] at hcovers ⊢
    exact glyphByte_blank hu hpitch hpixels (cell_room hi) hcovers
  · rcases hp with hrow | hlast | hfill
    · exact Or.inl (blankLayers_along hu hrow)
    · exact Or.inl (blankLayers_cell hwide hlast)
    · exact Or.inr hfill

/-- With nothing outside the row, blanking it and scrolling leaves nothing at all. -/
theorem feed_empty (hpitch : 32 ≤ u.fbPitch) (hpixels : 4 * w ≤ u.fbPitch) (hwide : charW ≤ w)
    (hend : y + 2 * charH = h)
    (hempty : ∀ p, Inside (d * w) h p → ¬Along d y (w / charW) p →
      ¬CellByte u (lastCell w) y p → img p = fillByte u p) (hp : Inside (d * w) h p) :
    feedByte h y u (paint (blankLayers w y u) img) p = fillByte u p := by
  have hback : ∀ q, Inside (d * w) h q → paint (blankLayers w y u) img q = fillByte u q := by
    intro q hq
    refine blanked_fill hu hpitch hpixels hwide ?_
    by_cases hrow : Along d y (w / charW) q
    · exact Or.inl hrow
    · by_cases hlast : CellByte u (lastCell w) y q
      · exact Or.inr (Or.inl hlast)
      · exact Or.inr (Or.inr (hempty q hq hrow hlast))
  rw [feedByte, if_neg (by omega)]
  by_cases hup : p.1 + charH < h
  · rw [if_pos hup]
    exact hback (p.1 + charH, p.2) ⟨hup, hp.2⟩
  · rw [if_neg hup]

end Blanked

section Fed

variable (hu : Surface d w h u) (hpitch : 32 ≤ u.fbPitch) (hwide : charW ≤ w)
  (hsafe : Safe d w h y u)
include hu hpitch hwide hsafe

theorem feed_outside (hp : Inside (d * w) h p) (hrow : ¬Along d y (w / charW) p)
    (hcell : ¬CellByte u (lastCell w) y p) :
    feedByte h y u (paint (blankLayers w y u) (byte u)) p = byte u p := by
  rcases hsafe with hroom | ⟨hend, hpixels, hempty⟩
  · rw [feedByte, if_pos hroom, blanked_outside hu hrow hcell]
  · rw [feed_empty hu hpitch hpixels hwide hend hempty hp, hempty p hp hrow hcell]

theorem feed_last (hp : Inside (d * w) h p) (hcell : CellByte u (lastCell w) y p) :
    feedByte h y u (paint (blankLayers w y u) (byte u)) p =
      glyphByte u (lastCell w) y 0x20 p := by
  rcases hsafe with hroom | ⟨hend, hpixels, hempty⟩
  · rw [feedByte, if_pos hroom, blankLayers_last hwide hcell]
  · rw [feed_empty hu hpitch hpixels hwide hend hempty hp,
      glyphByte_last hu hpitch hpixels hwide hcell]

/-- Redrawing what was redrawn leaves it. -/
theorem redrawByte_twice (hlen : text.length < w / charW)
    (hlayers : blankLayers w y z = blankLayers w y u ∧ textLayers z y text = textLayers u y text ∧
      fillByte z = fillByte u)
    (hz : ∀ p, Inside (d * w) h p → byte z p = redrawByte w h y u text p)
    (hp : Inside (d * w) h p) : redrawByte w h y z text p = redrawByte w h y u text p := by
  rw [redrawByte, redrawByte, hlayers.1, hlayers.2.1]
  refine paint_congr fun htext => ?_
  have hnow := hz p hp
  rw [redrawByte, paint_outside htext] at hnow
  rcases hsafe with hroom | ⟨hend, hpixels, hempty⟩
  · rw [feedByte, if_pos hroom] at hnow ⊢
    rw [feedByte, if_pos hroom, ← paint_twice (blankLayers w y u) (byte u)]
    exact paint_congr fun _ => hnow
  · -- the screen shows nothing but background and the text
    have hsame : feedByte h y z (paint (blankLayers w y u) (byte z)) p =
        feedByte h y u (paint (blankLayers w y u) (byte z)) p := by
      rw [feedByte, feedByte, hlayers.2.2]
    rw [hsame, feed_empty hu hpitch hpixels hwide hend hempty hp]
    refine feed_empty hu hpitch hpixels hwide hend (fun q hq hrow hcell => ?_) hp
    have hout := mt (covered_along hu hlen) hrow
    rw [hz q hq, redrawByte, paint_outside hout]
    exact feed_empty hu hpitch hpixels hwide hend hempty hq

end Fed

end Pictures

section Screens

variable {d w h n : Nat} {u z : Gfx.State} {s t : State} {text : List (BitVec 8)} {p : Place}

theorem ShownBy.cursor (hs : ShownBy u s) :
    s.gfx.cursorX = u.cursorX ∧ s.gfx.cursorY = u.cursorY := by
  obtain ⟨m, hm⟩ := gfxInvertCell_painted hs.shown
  rw [hm]
  exact ⟨rfl, rfl⟩

/-- What is seen of a picture. -/
theorem ShownBy.byte_eq (hs : ShownBy u s) (hu : Surface d w h u) (hpitch : 32 ≤ u.fbPitch)
    (hx : u.cursorX + charW ≤ w) (hy : u.cursorY + charH ≤ h) (hp : Inside (d * w) h p) :
    byte s.gfx p = if CellByte u u.cursorX u.cursorY p then ~~~byte u p else byte u p := by
  have hfits := (cellIn_iff hu hx hy).mp (cellIn_of_some hs.shown)
  obtain ⟨g, hg, hsets⟩ := gfxInvertCell_bytes hu hpitch hx hfits
  obtain rfl := Option.some.inj (hs.shown.symm.trans hg)
  by_cases hcell : CellByte u u.cursorX u.cursorY p
  · rw [if_pos hcell]
    exact hsets.inside p hp hcell
  · rw [if_neg hcell]
    exact hsets.outside p hp hcell

/-- The screens of two pictures with one cursor. -/
theorem ShownBy.alike (hs : ShownBy u s) (ht : ShownBy z t) (hu : Surface d w h u)
    (hpitch : 32 ≤ u.fbPitch) (hx : u.cursorX + charW ≤ w) (hy : u.cursorY + charH ≤ h)
    (hmoved : Moved u u.cursorX u.cursorY z) (hp : Inside (d * w) h p)
    (hbyte : byte z p = byte u p) : byte t.gfx p = byte s.gfx p := by
  have hz := hu.of_moved hmoved
  rw [hs.byte_eq hu hpitch hx hy hp, ← hbyte]
  obtain ⟨m, q, rfl⟩ := hmoved
  exact ht.byte_eq hz hpitch hx hy hp

section Cursor

variable (hs : ShownBy u s) (hu : Surface d w h u) (hpitch : 32 ≤ u.fbPitch)
  (hn : n < w / charW) (hx : u.cursorX = charW * n) (hy : u.cursorY + charH ≤ h)
  (hp : Inside (d * w) h p) (hrow : ¬Along d u.cursorY (w / charW) p)
include hs hu hpitch hn hx hy hp hrow

/-- The cursor is not seen outside its row, but for what the last cell draws there. -/
theorem ShownBy.outside (hcell : ¬CellByte u (lastCell w) u.cursorY p) :
    byte s.gfx p = byte u p := by
  have hright : u.cursorX + charW ≤ w := hx ▸ cell_room hn
  have hout : ¬CellByte u u.cursorX u.cursorY p := fun hin =>
    hcell (cellByte_last hu hn hrow (hx ▸ hin))
  rw [hs.byte_eq hu hpitch hright hy hp, if_neg hout]

theorem ShownBy.last (hcell : CellByte u (lastCell w) u.cursorY p) :
    byte s.gfx p = if n + 1 = w / charW then ~~~byte u p else byte u p := by
  have hright : u.cursorX + charW ≤ w := hx ▸ cell_room hn
  rw [hs.byte_eq hu hpitch hright hy hp, hx]
  by_cases hlast : n + 1 = w / charW
  · have hcol : lastCell w = charW * n := by rw [lastCell, ← hlast, Nat.add_sub_cancel]
    rw [if_pos hlast, if_pos (hcol ▸ hcell)]
  · have hout : ¬CellByte u (charW * n) u.cursorY p := fun hin =>
      hrow (cellByte_along hu (by omega) (cells_le w) hin)
    rw [if_neg hlast, if_neg hout]

end Cursor

section Redrawn

variable (hz : Redrawn d w h u text z t)
include hz

theorem Redrawn.cursor : z.cursorX = charW * text.length ∧ z.cursorY = u.cursorY := by
  obtain ⟨m, q, rfl⟩ := hz.moved
  exact ⟨rfl, rfl⟩

/-- The layers of the new picture are those of the old one. -/
theorem Redrawn.layers (y : Nat) : z.fbPitch = u.fbPitch ∧ CellByte z = CellByte u ∧
    blankLayers w y z = blankLayers w y u ∧ textLayers z y text = textLayers u y text ∧
    fillByte z = fillByte u := by
  obtain ⟨m, q, rfl⟩ := hz.moved
  exact ⟨rfl, rfl, rfl, rfl, rfl⟩

variable (hu : Surface d w h u) (hlen : text.length < w / charW) (hp : Inside (d * w) h p)
  (hrow : ¬Along d u.cursorY (w / charW) p)
include hu hlen hp hrow

/-- Outside the row the new picture is what blanking the row left. -/
theorem Redrawn.fed : byte z p =
    feedByte h u.cursorY u (paint (blankLayers w u.cursorY u) (byte u)) p := by
  rw [hz.bytes p hp, redrawByte, paint_outside (mt (covered_along hu hlen) hrow)]

variable (hpitch : 32 ≤ u.fbPitch) (hy : u.cursorY + charH ≤ h)
include hpitch hy

theorem Redrawn.outside (hcell : ¬CellByte u (lastCell w) u.cursorY p) : byte t.gfx p =
    feedByte h u.cursorY u (paint (blankLayers w u.cursorY u) (byte u)) p := by
  obtain ⟨hcol, htop⟩ := hz.cursor
  obtain ⟨hsame, hcells, -⟩ := hz.layers u.cursorY
  rw [← hz.fed hu hlen hp hrow]
  exact hz.shown.outside (hu.of_moved hz.moved) (hsame ▸ hpitch) hlen hcol (htop ▸ hy) hp
    (htop ▸ hrow) (htop ▸ hcells ▸ hcell)

theorem Redrawn.last (hcell : CellByte u (lastCell w) u.cursorY p) : byte t.gfx p =
    if text.length + 1 = w / charW then
      ~~~feedByte h u.cursorY u (paint (blankLayers w u.cursorY u) (byte u)) p
    else feedByte h u.cursorY u (paint (blankLayers w u.cursorY u) (byte u)) p := by
  obtain ⟨hcol, htop⟩ := hz.cursor
  obtain ⟨hsame, hcells, -⟩ := hz.layers u.cursorY
  rw [← hz.fed hu hlen hp hrow]
  exact hz.shown.last (hu.of_moved hz.moved) (hsame ▸ hpitch) hlen hcol (htop ▸ hy) hp
    (htop ▸ hrow) (htop ▸ hcells ▸ hcell)

end Redrawn

end Screens

section Framebuffer

variable {d w h col : Nat} {u z : Gfx.State} {s t : State} {text : List (BitVec 8)} {b : Buffer}
  {pos : Nat} {p : Place}

section Frame

variable (hs : ShownBy u s) (hu : Surface d w h u) (hpitch : 32 ≤ u.fbPitch)
  (hcol : col < w / charW) (hx : u.cursorX = charW * col) (hy : u.cursorY + charH ≤ h)
  (hlen : text.length < w / charW) (hz : Redrawn d w h u text z t)
include hs hu hpitch hcol hx hy hlen hz

/-- A screen that scrolls and still shows the same outside the row shows only background there. -/
theorem feed_of_same (hpixels : 4 * w ≤ u.fbPitch) (hend : u.cursorY + 2 * charH = h)
    (hsame : ∀ p, Inside (d * w) h p → ¬Along d u.cursorY (w / charW) p →
      byte t.gfx p = byte s.gfx p) (hp : Inside (d * w) h p)
    (hrow : ¬Along d u.cursorY (w / charW) p) :
    feedByte h u.cursorY u (paint (blankLayers w u.cursorY u) (byte u)) p = fillByte u p := by
  have hwide : charW ≤ w := cell_wide hcol
  -- every place gets what stood a text row below it
  induction hn : h - p.1 using Nat.strong_induction_on generalizing p with
  | h n ih =>
    have hlow : ¬u.cursorY + 2 * charH < h := by omega
    rw [feedByte, if_neg hlow]
    by_cases hup : p.1 + charH < h
    · rw [if_pos hup]
      have hbelow : Inside (d * w) h (p.1 + charH, p.2) := ⟨hup, hp.2⟩
      have hfill : fillByte u (p.1 + charH, p.2) = fillByte u p := rfl
      rw [← hfill]
      refine blanked_fill hu hpitch hpixels hwide ?_
      by_cases hinside : Along d u.cursorY (w / charW) (p.1 + charH, p.2)
      · exact Or.inl hinside
      · by_cases hcell : CellByte u (lastCell w) u.cursorY (p.1 + charH, p.2)
        · exact Or.inr (Or.inl hcell)
        · have hcloser : h - (p.1 + charH) < n := by
            have htop := hp.1
            simp only [charH] at hup ⊢
            omega
          rw [← hs.outside hu hpitch hcol hx hy hbelow hinside hcell, ← hsame _ hbelow hinside,
            hz.outside hu hlen hbelow hinside hpitch hy hcell]
          exact Or.inr (Or.inr (ih _ hcloser hbelow hinside rfl))
    · rw [if_neg hup]

/-- If the row is redrawn in place, there is nothing to lose. -/
theorem safe_of_same (hroom : Feeds w h u.cursorY u)
    (hsame : ∀ p, Inside (d * w) h p → ¬Along d u.cursorY (w / charW) p →
      byte t.gfx p = byte s.gfx p) : Safe d w h u.cursorY u := by
  rcases hroom with hfree | ⟨hend, hpixels⟩
  · exact Or.inl hfree
  · refine Or.inr ⟨hend, hpixels, fun p hp hrow hcell => ?_⟩
    rw [← hs.outside hu hpitch hcol hx hy hp hrow hcell, ← hsame p hp hrow,
      hz.outside hu hlen hp hrow hpitch hy hcell]
    exact feed_of_same hs hu hpitch hcol hx hy hlen hz hpixels hend hsame hp hrow

/-- Redrawing leaves what is outside the row if and only if there is nothing to lose. -/
theorem same_iff (hroom : Feeds w h u.cursorY u) :
    (∀ p, Inside (d * w) h p → ¬Along d u.cursorY (w / charW) p →
      byte t.gfx p = byte s.gfx p) ↔
    Safe d w h u.cursorY u ∧ ∀ p, Inside (d * w) h p → ¬Along d u.cursorY (w / charW) p →
      CellByte u (lastCell w) u.cursorY p →
      byte s.gfx p = lastByte text.length w u.cursorY u p := by
  have hwide : charW ≤ w := cell_wide hcol
  have hdrawn : Safe d w h u.cursorY u → ∀ p, Inside (d * w) h p →
      ¬Along d u.cursorY (w / charW) p → CellByte u (lastCell w) u.cursorY p →
      byte t.gfx p = lastByte text.length w u.cursorY u p := by
    intro hsafe p hp hrow hcell
    rw [hz.last hu hlen hp hrow hpitch hy hcell, feed_last hu hpitch hwide hsafe hp hcell, lastByte]
  constructor
  · intro hsame
    have hsafe := safe_of_same hs hu hpitch hcol hx hy hlen hz hroom hsame
    refine ⟨hsafe, fun p hp hrow hcell => ?_⟩
    rw [← hsame p hp hrow]
    exact hdrawn hsafe p hp hrow hcell
  · rintro ⟨hsafe, hlast⟩ p hp hrow
    by_cases hcell : CellByte u (lastCell w) u.cursorY p
    · rw [hlast p hp hrow hcell]
      exact hdrawn hsafe p hp hrow hcell
    · rw [hz.outside hu hlen hp hrow hpitch hy hcell,
        feed_outside hu hpitch hwide hsafe hp hrow hcell,
        hs.outside hu hpitch hcol hx hy hp hrow hcell]

end Frame

/-- With nothing to lose, the second call draws the same picture. -/
theorem redraws_again (hu : Surface d w h u) (hpitch : 32 ≤ u.fbPitch)
    (hc : Glyphs ((List.range pos).map b)) (hshort : 7 + pos < w / charW)
    (hy : u.cursorY + charH ≤ h) (hroom : Feeds w h u.cursorY u) (hsafe : Safe d w h u.cursorY u)
    (hz : Redrawn d w h u (inputLine b pos) z t) : ∃ t', redrawInput b pos t = some t' ∧
      (∀ p, Inside (d * w) h p → byte t'.gfx p = byte t.gfx p) ∧
      t'.gfx.cursorX = t.gfx.cursorX ∧ t'.gfx.cursorY = t.gfx.cursorY := by
  have hlen : (inputLine b pos).length < w / charW := by rwa [inputLine_length]
  have hwide : charW ≤ w := cell_wide hshort
  have hsurface := hu.of_moved hz.moved
  obtain ⟨hcol, htop⟩ := hz.cursor
  obtain ⟨hpitch', -, hblank, htext, hfill⟩ := hz.layers u.cursorY
  have hlow : z.cursorY + charH ≤ h := htop ▸ hy
  have hroom' : Feeds w h z.cursorY z := by
    rw [Feeds, htop, hpitch']
    exact hroom
  obtain ⟨t', z', ht', hz'⟩ := redrawInput_bytes hz.shown hsurface (hpitch' ▸ hpitch) hshort hlow
    hc hroom'
  have hcursor : z'.cursorX = z.cursorX ∧ z'.cursorY = z.cursorY :=
    ⟨hz'.cursor.1.trans hcol.symm, hz'.cursor.2⟩
  have hmoved : Moved z z.cursorX z.cursorY z' := hcol ▸ hz'.moved
  have hright : z.cursorX + charW ≤ w := hcol ▸ cell_room hlen
  refine ⟨t', ht', fun p hp => ?_, ?_, ?_⟩
  · refine hz.shown.alike hz'.shown hsurface (hpitch' ▸ hpitch) hright hlow hmoved hp ?_
    rw [hz'.bytes p hp, htop, hz.bytes p hp]
    exact redrawByte_twice hu hpitch hwide hsafe hlen ⟨hblank, htext, hfill⟩ hz.bytes hp
  · rw [hz'.shown.cursor.1, hz.shown.cursor.1, hcursor.1]
  · rw [hz'.shown.cursor.2, hz.shown.cursor.2, hcursor.2]

theorem redoes_framebuffer (hs : ShownBy u s) (hu : Surface d w h u) (hpitch : 32 ≤ u.fbPitch)
    (hcol : col < w / charW) (hx : u.cursorX = charW * col) (hy : u.cursorY + charH ≤ h)
    (hc : Glyphs ((List.range pos).map b)) (hshort : 7 + pos < w / charW) :
    Redoes (redrawInput b pos) (fun t => byte t.gfx) (Inside (d * w) h)
      (Along d u.cursorY (w / charW)) (fun t => (t.gfx.cursorX, t.gfx.cursorY))
      (charW * (7 + pos), u.cursorY) s ↔
    Safe d w h u.cursorY u ∧ ∀ p, Inside (d * w) h p → ¬Along d u.cursorY (w / charW) p →
      CellByte u (lastCell w) u.cursorY p →
      byte s.gfx p = lastByte (7 + pos) w u.cursorY u p := by
  have hline : (inputLine b pos).length = 7 + pos := inputLine_length
  have hlen : (inputLine b pos).length < w / charW := by rwa [hline]
  rw [← hline]
  constructor
  · rintro ⟨t, ht, hsame, -⟩
    have hroom := feeds_of_redrawInput hs hu hpitch hshort hy ht
    obtain ⟨t', z, ht', hz⟩ := redrawInput_bytes hs hu hpitch hshort hy hc hroom
    obtain rfl := Option.some.inj (ht.symm.trans ht')
    exact (same_iff hs hu hpitch hcol hx hy hlen hz hroom).mp hsame
  · rintro ⟨hsafe, hlast⟩
    have hroom : Feeds w h u.cursorY u := hsafe.imp_right fun hlow => ⟨hlow.1, hlow.2.1⟩
    obtain ⟨t, z, ht, hz⟩ := redrawInput_bytes hs hu hpitch hshort hy hc hroom
    obtain ⟨t', ht', hagain, hcursor⟩ := redraws_again hu hpitch hc hshort hy hroom hsafe hz
    refine ⟨t, ht, ?_, ?_, t', ht', hagain, ?_⟩
    · exact (same_iff hs hu hpitch hcol hx hy hlen hz hroom).mpr ⟨hsafe, hlast⟩
    · dsimp only
      rw [hz.shown.cursor.1, hz.shown.cursor.2, hz.cursor.1, hz.cursor.2]
    · dsimp only
      rw [hcursor.1, hcursor.2]

end Framebuffer

/-- What is safe to redraw, by what the screen shows. -/
theorem safe_iff {d w h n : Nat} {u : Gfx.State} {s : State} (hs : ShownBy u s)
    (hu : Surface d w h u) (hpitch : 32 ≤ u.fbPitch) (hn : n < w / charW)
    (hx : u.cursorX = charW * n) (hy : u.cursorY + charH ≤ h) :
    Safe d w h u.cursorY u ↔ u.cursorY + 2 * charH < h ∨
      u.cursorY + 2 * charH = h ∧ 4 * w ≤ u.fbPitch ∧
        ∀ p, Inside (d * w) h p → ¬Along d u.cursorY (w / charW) p →
          ¬CellByte u (lastCell w) u.cursorY p → byte s.gfx p = fillByte u p := by
  refine or_congr Iff.rfl (and_congr Iff.rfl (and_congr Iff.rfl ?_))
  refine forall_congr' fun p => forall_congr' fun hp => forall_congr' fun hrow =>
    forall_congr' fun hcell => ?_
  rw [hs.outside hu hpitch hn hx hy hp hrow hcell]

/-- The cursor cannot be hidden where its cell leaves the framebuffer. -/
theorem redrawInput_cut {s : State} {b : Buffer} {pos : Nat} (hmode : s.useFramebuffer = true)
    (hout : ¬CellIn s.gfx s.gfx.cursorX s.gfx.cursorY) : redrawInput b pos s = none := by
  have hmove : onGfx (gfxMoveCursor 0 s.gfx.cursorY) s = none := by
    rw [onGfx, gfxMoveCursor, gfxInvertCell_none hout]
    rfl
  rw [redrawInput_eq b pos hmode, writeLine, hmove]
  rfl

/-- The closed form for any state in framebuffer mode with the cursor in a cell. -/
theorem redraws_framebuffer {s : State} {b : Buffer} {pos : Nat} (hmode : s.useFramebuffer = true)
    (hon : CursorOn s) (hshort : 7 + pos < columns s) (hc : Glyphs ((List.range pos).map b)) :
    Redraws b pos s ↔ NothingLost pos s := by
  rw [CursorOn, if_pos hmode] at hon
  rw [columns, if_pos hmode] at hshort
  obtain ⟨hsurface, hy, col, hcol, hx⟩ := hon
  have hpitch : 32 ≤ s.gfx.fbPitch := by
    refine hsurface.pitch_of_wide ?_
    simp only [charW] at hshort
    omega
  rw [Redraws, if_pos hmode, NothingLost]
  by_cases hin : CellIn s.gfx s.gfx.cursorX s.gfx.cursorY
  · obtain ⟨u, hu, hpainted⟩ := exists_shownBy hmode hin
    have hsurface' := hsurface.of_painted hpainted
    obtain ⟨m, rfl⟩ := hpainted
    have hredoes := redoes_framebuffer hu hsurface' hpitch hcol hx hy hc hshort
    have hsafe := safe_iff hu hsurface' hpitch hcol hx hy
    exact hredoes.trans ((and_congr hsafe Iff.rfl).trans ⟨fun h _ => h, fun h => h hmode⟩)
  · refine iff_of_false ?_ fun hlost => hin ?_
    · rintro ⟨t, ht, -⟩
      rw [redrawInput_cut hmode hin] at ht
      cases ht
    · -- with another row below it the cell would be inside
      have hlow : s.gfx.cursorY + charH < s.gfx.fbHeight := by
        rcases (hlost hmode).1 with hroom | ⟨hend, -⟩ <;> simp only [charH] at * <;> omega
      exact hsurface.cellIn (hsurface.cell_fits hpitch (hx ▸ cell_room hcol) hlow)

/-- With 32 bits a pixel nothing is drawn behind the row. -/
theorem nothingLost_deep {s : State} (pos : Nat) (hmode : s.useFramebuffer = true)
    (hbpp : s.gfx.fbBpp = 32) (hrows : 4 * s.gfx.fbWidth ≤ s.gfx.fbPitch)
    (hwide : charW ≤ s.gfx.fbWidth) : NothingLost pos s ↔
      s.gfx.cursorY + 2 * charH < s.gfx.fbHeight ∨
      s.gfx.cursorY + 2 * charH = s.gfx.fbHeight ∧
        ∀ p, OnSurface s p → ¬Row s p → byte s.gfx p = fillByte s.gfx p := by
  have hinside : ∀ p, CellByte s.gfx (lastCell s.gfx.fbWidth) s.gfx.cursorY p → Row s p := by
    intro p hp
    rw [CellByte, hbpp] at hp
    rw [Row, Along, hbpp]
    simp only [lastCell, charW, charH] at hwide hp ⊢
    omega
  have hback : (∀ p, OnSurface s p → ¬Row s p →
      ¬CellByte s.gfx (lastCell s.gfx.fbWidth) s.gfx.cursorY p →
      byte s.gfx p = fillByte s.gfx p) ↔
      ∀ p, OnSurface s p → ¬Row s p → byte s.gfx p = fillByte s.gfx p :=
    forall_congr' fun p => forall_congr' fun _ => forall_congr' fun hrow =>
      ⟨fun h => h (mt (hinside p) hrow), fun h _ => h⟩
  rw [NothingLost, hback]
  constructor
  · intro h
    exact (h hmode).1.imp_right fun hlow => ⟨hlow.1, hlow.2.2⟩
  · intro h _
    refine ⟨h.imp_right fun hlow => ⟨hlow.1, hrows, hlow.2⟩, fun p _ hrow hcell => ?_⟩
    exact absurd (hinside p hcell) hrow

/-- What the keyboard handler asks to be redrawn has no character that only moves the cursor. -/
theorem glyphs_typed {codes : List (BitVec 8)} {k : Keyboard.State}
    (hrun : Keyboard.run codes Keyboard.State.boot = some k) :
    Glyphs ((List.range k.inputPos).map k.inputBuffer) :=
  Keyboard.beforeCursor_plain hrun

/-- With the cursor in a cell of the screen and room for the text, `redraw_input` changes only the
cells of the row, leaves the cursor behind the text and changes nothing when called again, if and
only if blanking the row loses nothing. -/
theorem redraws_iff {s : State} {b : Buffer} {pos : Nat} (hon : CursorOn s)
    (hshort : 7 + pos < columns s)
    (hc : s.useFramebuffer = true → Glyphs ((List.range pos).map b)) :
    Redraws b pos s ↔ NothingLost pos s := by
  by_cases hmode : s.useFramebuffer = true
  · exact redraws_framebuffer hmode hon hshort (hc hmode)
  · rw [CursorOn, if_neg hmode] at hon
    rw [columns, if_neg hmode] at hshort
    have hwrites : Writes s := ⟨Bool.not_eq_true _ ▸ hmode, hon⟩
    have hlocal := redoes_vga (b := b) hwrites hshort
    rw [Redraws, if_neg hmode]
    exact iff_of_true hlocal fun hframe => absurd hframe hmode

/-- A white screen of 640 by 480 pixels with the cursor at the left edge. -/
def whiteScreen (y : Nat) : State :=
  { State.boot (fun _ => 0) (fun _ => 0) ⟨0, fun _ => 0⟩ with
    useFramebuffer := true
    gfx := { Gfx.State.boot (fun _ => 0xFF) with
      fbPitch := 2560, fbWidth := 640, fbHeight := 480, fbBpp := 32, cursorY := y } }

theorem cursorOn_whiteScreen {y : Nat} (h : y + charH ≤ 480) : CursorOn (whiteScreen y) := by
  have hmode : (whiteScreen y).useFramebuffer = true := rfl
  have hsurface : Surface (32 / 8) 640 480 (whiteScreen y).gfx :=
    ⟨rfl, by decide, by decide, rfl, rfl, (by decide : 32 / 8 * 640 ≤ 2560),
      (by decide : 2560 * 480 < 4294967296)⟩
  rw [CursorOn, if_pos hmode]
  exact ⟨hsurface, h, 0, (by decide : 0 < 640 / charW), rfl⟩

theorem nothingLost_whiteScreen (pos y : Nat) : NothingLost pos (whiteScreen y) ↔
    y + 2 * charH < 480 ∨ y + 2 * charH = 480 ∧
      ∀ p, OnSurface (whiteScreen y) p → ¬Row (whiteScreen y) p →
        byte (whiteScreen y).gfx p = fillByte (whiteScreen y).gfx p :=
  nothingLost_deep pos rfl rfl (by decide : 4 * 640 ≤ 2560) (by decide : charW ≤ 640)

/-- The letter a, typed and redrawn in the first row. -/
theorem redraws_iff_top : ∃ k, Keyboard.run [0x1E] Keyboard.State.boot = some k ∧
    Redraws k.inputBuffer k.inputPos (whiteScreen 0) := by
  have htyped : (Keyboard.run [0x1E] Keyboard.State.boot).map (·.inputPos) = some 1 := by decide
  obtain ⟨k, hk, hpos⟩ := Option.map_eq_some_iff.mp htyped
  have hshort : 7 + k.inputPos < columns (whiteScreen 0) := by
    rw [hpos]
    decide
  have hiff := redraws_iff (cursorOn_whiteScreen (by decide)) hshort fun _ => glyphs_typed hk
  have hroom : 0 + 2 * charH < 480 := by decide
  exact ⟨k, hk, hiff.mpr ((nothingLost_whiteScreen k.inputPos 0).mpr (Or.inl hroom))⟩

/-- The same in the last row but one: the whole screen is moved up. -/
theorem lowRow_scrolls : ¬∀ s b pos, CursorOn s → 7 + pos < columns s →
    Glyphs ((List.range pos).map b) → Redraws b pos s := by
  intro h
  have hon := cursorOn_whiteScreen (y := 448) (by decide)
  have hlocal := h (whiteScreen 448) (fun _ => 0x61) 1 hon (by decide) (by decide)
  have hkept := (redraws_framebuffer rfl hon (by decide) (by decide)).mp hlocal
  cases (nothingLost_whiteScreen 1 448).mp hkept with
  | inl hroom => exact absurd hroom (by decide)
  | inr hempty =>
    have hplace : Inside (4 * 640) 480 (0, 0) := ⟨by decide, by decide⟩
    have hrow : ¬Along 4 448 80 (0, 0) := by decide
    have hwhite := hempty.2 (0, 0) hplace hrow
    exact absurd hwhite (by decide)

end Terminal
