import Nyrix.GfxText

/-!
# A text row on the framebuffer

Characters are drawn one over the other. With less than four bytes a pixel the drawing of a cell
runs over into the next one, and that of the last cell out of its row. A character in the last
cell leads to the next row, where the screen is scrolled if that is the last one.
-/

namespace Gfx

open ByteMemory Overwriting

/-- A character in a cell of the text row that begins at pixel row `y`. -/
def cellLayer (u : State) (y n : Nat) (c : BitVec 8) : Layer Place (BitVec 8) where
  covers := CellByte u (charW * n) y
  value := glyphByte u (charW * n) y c

/-- A text that begins at the left edge of the screen. -/
def textLayers (u : State) (y : Nat) (text : List (BitVec 8)) : List (Layer Place (BitVec 8)) :=
  text.mapIdx (cellLayer u y)

/-- The bytes of the first `n` cells of a text row, with `d` bytes a pixel. -/
def Along (d y n : Nat) (p : Place) : Prop :=
  y ≤ p.1 ∧ p.1 < y + charH ∧ p.2 < d * (charW * n)

instance (d y n : Nat) (p : Place) : Decidable (Along d y n p) :=
  inferInstanceAs (Decidable (_ ∧ _))

/-- The last cell of a text row. -/
def lastCell (w : Nat) : Nat := charW * (w / charW - 1)

/-- The text row filled with blanks. -/
def blankLayers (w y : Nat) (u : State) : List (Layer Place (BitVec 8)) :=
  textLayers u y (List.replicate (w / charW) 0x20)

section Cover

variable {d w h y n i : Nat} {u : State} {text : List (BitVec 8)} {p : Place}

theorem textLayers_concat (u : State) (y : Nat) (text : List (BitVec 8)) (c : BitVec 8) :
    textLayers u y (text ++ [c]) = textLayers u y text ++ [cellLayer u y text.length c] :=
  List.mapIdx_concat

theorem covered_textLayers :
    Covered (textLayers u y text) p ↔ ∃ i < text.length, CellByte u (charW * i) y p := by
  constructor
  · rintro ⟨l, hl, hcovers⟩
    obtain ⟨i, hi, rfl⟩ := List.mem_mapIdx.mp hl
    exact ⟨i, hi, hcovers⟩
  · rintro ⟨i, hi, hcovers⟩
    exact ⟨cellLayer u y i text[i], List.mem_mapIdx.mpr ⟨i, hi, rfl⟩, hcovers⟩

/-- The cells of a row end where the row does, or before. -/
theorem cells_le (w : Nat) : charW * (w / charW) ≤ w := Nat.mul_div_le w charW

theorem cell_room (hi : i < w / charW) : charW * i + charW ≤ w :=
  Nat.le_trans (Nat.mul_le_mul_left charW hi) (cells_le w)

theorem cell_wide (hi : i < w / charW) : charW ≤ w :=
  Nat.le_trans (Nat.le_add_left charW _) (cell_room hi)

section Surface

variable (hu : Surface d w h u)
include hu

/-- The bytes of a cell that is not the last one belong to the row. -/
theorem cellByte_along (hi : i + 1 < n) (hn : charW * n ≤ w) (hp : CellByte u (charW * i) y p) :
    Along d y n p := by
  have hrows := hu.rows
  have htwo : 2 * 16 ≤ d * 16 := Nat.mul_le_mul_right 16 hu.atLeast
  have hcells : d * (charW * (i + 2)) ≤ d * (charW * n) :=
    Nat.mul_le_mul_left d (Nat.mul_le_mul_left charW hi)
  have hroom : d * (charW * n) ≤ d * w := Nat.mul_le_mul_left d hn
  have hsplit : d * (charW * (i + 2)) = d * (charW * i) + d * 16 := by
    simp only [charW]
    rw [← Nat.mul_add, Nat.mul_add 8 i 2]
  rw [CellByte, hu.depth, Nat.mul_comm (charW * i)] at hp
  rw [Along]
  generalize d * (charW * i) = left at *
  generalize d * (charW * n) = right at *
  simp only [charW, charH] at hp ⊢
  rcases hp with ⟨htop, hbottom, -, hright⟩ | ⟨-, -, hwrap⟩
  · exact ⟨htop, hbottom, by omega⟩
  · omega

/-- Every byte of the row belongs to one of its cells. -/
theorem along_cellByte (hp : Along d y n p) : ∃ i < n, CellByte u (charW * i) y p := by
  obtain ⟨htop, hbottom, hcol⟩ := hp
  have hpos : 0 < d * charW := Nat.mul_pos (Nat.lt_of_lt_of_le Nat.two_pos hu.atLeast) (by decide)
  have hfour : d * charW ≤ 4 * charW := Nat.mul_le_mul_right charW hu.atMost
  have hdiv : d * charW * (p.2 / (d * charW)) + p.2 % (d * charW) = p.2 := Nat.div_add_mod _ _
  have hmod : p.2 % (d * charW) < d * charW := Nat.mod_lt _ hpos
  refine ⟨p.2 / (d * charW), ?_, Or.inl ⟨htop, hbottom, ?_, ?_⟩⟩
  · rw [Nat.div_lt_iff_lt_mul hpos, Nat.mul_comm n, Nat.mul_assoc]
    exact hcol
  all_goals rw [hu.depth, Nat.mul_comm (charW * _), ← Nat.mul_assoc]
  all_goals omega

/-- Outside the row only the last cell draws. -/
theorem cellByte_last (hi : i < w / charW) (hrow : ¬Along d y (w / charW) p)
    (hp : CellByte u (charW * i) y p) : CellByte u (lastCell w) y p := by
  by_cases hlast : i + 1 < w / charW
  · exact absurd (cellByte_along hu hlast (cells_le w) hp) hrow
  · have heq : w / charW - 1 = i := by omega
    rwa [lastCell, heq]

/-- A text that leaves the last cell free stays in its row. -/
theorem covered_along (hlen : text.length < w / charW) (hp : Covered (textLayers u y text) p) :
    Along d y (w / charW) p := by
  obtain ⟨i, hi, hcell⟩ := covered_textLayers.mp hp
  exact cellByte_along hu (by omega) (cells_le w) hcell

theorem covered_blankLayers (hp : Covered (blankLayers w y u) p) :
    Along d y (w / charW) p ∨ CellByte u (lastCell w) y p := by
  obtain ⟨i, hi, hcell⟩ := covered_textLayers.mp hp
  rw [List.length_replicate] at hi
  by_cases hrow : Along d y (w / charW) p
  · exact Or.inl hrow
  · exact Or.inr (cellByte_last hu hi hrow hcell)

theorem blankLayers_along (hp : Along d y (w / charW) p) : Covered (blankLayers w y u) p := by
  obtain ⟨i, hi, hcell⟩ := along_cellByte hu hp
  exact covered_textLayers.mpr ⟨i, by rwa [List.length_replicate], hcell⟩

end Surface

theorem blankLayers_cell (hwide : charW ≤ w) (hp : CellByte u (lastCell w) y p) :
    Covered (blankLayers w y u) p := by
  have hfull : 0 < w / charW := Nat.div_pos hwide (by decide)
  refine covered_textLayers.mpr ⟨w / charW - 1, ?_, hp⟩
  rw [List.length_replicate]
  exact Nat.sub_one_lt_of_lt hfull

end Cover

section Blanks

variable {d w h y i : Nat} {u : State} {img : Place → BitVec 8} {p : Place}

/-- The last blank hides what the ones before it drew. -/
theorem blankLayers_last (hwide : charW ≤ w) (hp : CellByte u (lastCell w) y p) :
    paint (blankLayers w y u) img p = glyphByte u (lastCell w) y 0x20 p := by
  have hfull : 0 < w / charW := Nat.div_pos hwide (by decide)
  obtain ⟨k, hk⟩ : ∃ k, w / charW = k + 1 := ⟨w / charW - 1, (Nat.sub_add_cancel hfull).symm⟩
  have hlast : lastCell w = charW * k := by rw [lastCell, hk, Nat.add_sub_cancel]
  rw [hlast] at hp ⊢
  rw [blankLayers, hk, List.replicate_succ', textLayers_concat, List.length_replicate]
  exact paint_last hp

/-- Where four bytes a pixel fit in a row, drawing a blank is filling. -/
theorem glyphByte_blank (hu : Surface d w h u) (hpitch : 32 ≤ u.fbPitch)
    (hpixels : 4 * w ≤ u.fbPitch) (hi : charW * (i + 1) ≤ w) (hp : CellByte u (charW * i) y p) :
    glyphByte u (charW * i) y 0x20 p = fillByte u p := by
  have hfour : charW * i * d ≤ charW * i * 4 := Nat.mul_le_mul_left _ hu.atMost
  have hphase : charW * i * d = 4 * (2 * i * d) := by
    simp only [charW, Nat.mul_assoc]
    omega
  have hdepth := hu.depth
  simp only [charW] at hi hfour hphase
  rcases hp with ⟨htop, hbottom, hleft, hright⟩ | ⟨-, -, hwrap⟩
  · rw [hdepth] at hleft hright
    simp only [charW] at hleft hright
    have hplace : p.1 * u.fbPitch + p.2 = cellOffset u (charW * i) y (p.1 - y)
        ((p.2 - charW * i * d) / 4) + (p.2 - charW * i * d) % 4 := by
      simp only [cellOffset, hdepth, Nat.add_sub_of_le htop, charW]
      omega
    rw [glyphByte_at hpitch (by simp only [charW]; omega) (Nat.mod_lt _ (by decide)) hplace,
      glyphPixel_blank, fillByte]
    congr 1
    simp only [charW]
    omega
  · rw [hdepth] at hwrap
    simp only [charW] at hwrap
    omega

theorem glyphByte_last (hu : Surface d w h u) (hpitch : 32 ≤ u.fbPitch)
    (hpixels : 4 * w ≤ u.fbPitch) (hwide : charW ≤ w) (hp : CellByte u (lastCell w) y p) :
    glyphByte u (lastCell w) y 0x20 p = fillByte u p := by
  have hfull : 0 < w / charW := Nat.div_pos hwide (by decide)
  refine glyphByte_blank hu hpitch hpixels ?_ hp
  rw [Nat.sub_add_cancel hfull]
  exact cells_le w

end Blanks

/-- Neither of the two characters that only move the cursor. -/
def Glyphs (text : List (BitVec 8)) : Prop := ∀ c ∈ text, c ≠ 0x0A ∧ c ≠ 0x08

instance (text : List (BitVec 8)) : Decidable (Glyphs text) :=
  inferInstanceAs (Decidable (∀ c ∈ text, c ≠ 0x0A ∧ c ≠ 0x08))

/-- The text was drawn, and the cursor is behind it. -/
structure Drawn (d w h : Nat) (text : List (BitVec 8)) (y : Nat) (u v : State) : Prop where
  moved : Moved u (charW * text.length) y v
  bytes : ∀ p, Inside (d * w) h p → byte v p = paint (textLayers u y text) (byte u) p

/-- There is a row below the one at `y`, and if that is the last one, the screen can scroll. -/
def Feeds (w h y : Nat) (u : State) : Prop :=
  y + 2 * charH < h ∨ y + 2 * charH = h ∧ 4 * w ≤ u.fbPitch

/-- An image after a line feed from the row at `y`. -/
def feedByte (h y : Nat) (u : State) (img : Place → BitVec 8) (p : Place) : BitVec 8 :=
  if y + 2 * charH < h then img p
  else if p.1 + charH < h then img (p.1 + charH, p.2)
  else fillByte u p

/-- The cursor at the start of the next text row. -/
def State.nextRow (s : State) : State := { s with cursorX := 0, cursorY := s.cursorY + charH }

section Steps

variable {d w h n : Nat} {s t u : State} {c : BitVec 8}

/-- Nothing on a surface wraps around. -/
theorem Surface.lt (hs : Surface d w h s) (hpitch : 32 ≤ s.fbPitch) (htall : charH ≤ h) :
    32 * w < 4294967296 ∧ 32 * h < 4294967296 := by
  have hrows := hs.rows
  have hfits := hs.fits
  have hdepth : 2 * w ≤ d * w := Nat.mul_le_mul_right w hs.atLeast
  have hwidth : s.fbPitch * 16 ≤ s.fbPitch * h := Nat.mul_le_mul_left s.fbPitch htall
  have hheight : 32 * h ≤ s.fbPitch * h := Nat.mul_le_mul_right h hpitch
  exact ⟨by omega, by omega⟩

theorem putGlyph_glyph (hc : Glyphs [c]) (s : State) :
    putGlyph c s = (drawChar c s).bind stepForward := by
  obtain ⟨hfeed, hback⟩ := hc c List.mem_cons_self
  rw [putGlyph, if_neg hfeed, if_neg hback]

/-- Another cell behind the one of the cursor. -/
theorem stepForward_right (hx : s.cursorX = charW * n) (hroom : charW * (n + 2) ≤ s.fbWidth)
    (hlt : s.fbWidth < 4294967296) :
    stepForward s = some { s with cursorX := charW * (n + 1) } := by
  have hnext : u32 (s.cursorX + charW) = charW * (n + 1) := by
    rw [u32_of_lt, hx]
    · rfl
    · simp only [hx, charW] at hroom ⊢
      omega
  have hfits : ¬u32 (charW * (n + 1) + charW) > s.fbWidth := by
    rw [u32_of_lt] <;> simp only [charW] at hroom ⊢ <;> omega
  rw [stepForward]
  dsimp only
  rw [hnext, if_neg hfits]

/-- The last cell of a row leads to the next row. -/
theorem stepForward_end (hx : s.cursorX = charW * n) (hend : s.fbWidth < charW * (n + 2))
    (hwide : charW * (n + 2) < 4294967296) (htall : s.cursorY + 2 * charH < 4294967296) :
    stepForward s = if s.fbHeight ≤ s.cursorY + 2 * charH then
      gfxScroll s.nextRow else some s.nextRow := by
  have hright : u32 (u32 (s.cursorX + charW) + charW) > s.fbWidth := by
    rw [u32_of_lt (n := s.cursorX + charW), u32_of_lt, hx] <;>
      simp only [hx, charW] at hend hwide ⊢ <;> omega
  have hdown : u32 (s.cursorY + charH) = s.cursorY + charH :=
    u32_of_lt (by simp only [charH] at htall ⊢; omega)
  have hlower : u32 (s.cursorY + charH + charH) = s.cursorY + 2 * charH :=
    u32_of_lt (by simp only [charH] at htall ⊢; omega)
  rw [stepForward]
  dsimp only
  rw [if_pos hright, lineFeed]
  dsimp only
  rw [hdown, hlower]
  rfl

end Steps

section Drawn

variable {d w h y : Nat} {u v t : State} {text : List (BitVec 8)} {c : BitVec 8}

/-- The bytes of a cell with a pixel row below it. -/
theorem Surface.cell_fits {cx cy : Nat} (hs : Surface d w h u) (hpitch : 32 ≤ u.fbPitch)
    (hx : cx + charW ≤ w) (hy : cy + charH < h) :
    cellOffset u cx cy 15 0 + 4 * charW ≤ h * u.fbPitch := by
  have hrows := hs.rows
  have hrow : (cy + 17) * u.fbPitch ≤ h * u.fbPitch := Nat.mul_le_mul_right _ hy
  have hlast : (cy + 17) * u.fbPitch = (cy + 15) * u.fbPitch + 2 * u.fbPitch := Nat.add_mul _ 2 _
  have hcol : d * cx ≤ d * w := Nat.mul_le_mul_left d (by omega)
  simp only [cellOffset, hs.depth, Nat.mul_comm cx, charW]
  omega

/-- The bytes of a cell at the left edge. -/
theorem Surface.left_fits {cy : Nat} (hpitch : 32 ≤ u.fbPitch) (hy : cy + charH ≤ h) :
    cellOffset u 0 cy 15 0 + 4 * charW ≤ h * u.fbPitch := by
  have hend : (cy + 15) * u.fbPitch + 32 ≤ h * u.fbPitch :=
    row_end (by simp only [charH] at hy; omega) hpitch
  simp only [cellOffset, charW]
  omega

theorem Surface.cellIn {cx cy : Nat} (hs : Surface d w h u)
    (hend : cellOffset u cx cy 15 0 + 4 * charW ≤ h * u.fbPitch) : CellIn u cx cy :=
  fun _ hy _ hx => hs.inFrame (cellOffset_fits hend hy hx)

/-- Nothing drawn yet. -/
theorem drawn_nil (d w h y : Nat) (u : State) :
    Drawn d w h [] y u { u with cursorX := 0, cursorY := y } :=
  ⟨moved_cursor u 0 y, fun _ _ => rfl⟩

theorem Drawn.serial (hdrawn : Drawn d w h text y u v) (q : Serial) :
    Drawn d w h text y u { v with serial := q } := by
  have hbytes := hdrawn.bytes
  obtain ⟨m, q', rfl⟩ := hdrawn.moved
  exact ⟨⟨m, q, rfl⟩, hbytes⟩

theorem Drawn.cursor (hdrawn : Drawn d w h text y u v) :
    v.cursorX = charW * text.length ∧ v.cursorY = y := by
  obtain ⟨m, q, rfl⟩ := hdrawn.moved
  exact ⟨rfl, rfl⟩

section Surface

variable (hu : Surface d w h u) (hpitch : 32 ≤ u.fbPitch) (hdrawn : Drawn d w h text y u v)
include hu hpitch hdrawn

/-- One more character drawn in its cell. -/
theorem drawChar_drawn (hx : charW * (text.length + 1) ≤ w) (hy : y + charH < h) :
    ∃ t, drawChar c v = some t ∧ Moved u (charW * text.length) y t ∧
      ∀ p, Inside (d * w) h p → byte t p = paint (textLayers u y (text ++ [c])) (byte u) p := by
  have hv := hu.of_moved hdrawn.moved
  have hbytes := hdrawn.bytes
  have hfits := hu.cell_fits hpitch hx hy
  obtain ⟨m, q, rfl⟩ := hdrawn.moved
  obtain ⟨t, ht, hsets⟩ := drawChar_bytes c hv hpitch hx hfits
  refine ⟨t, ht, hdrawn.moved.painted hsets.kept, fun p hp => ?_⟩
  rw [textLayers_concat, paint_append, hsets.paint hp]
  exact paint_congr fun _ => hbytes p hp

/-- A character with another cell behind it. -/
theorem putGlyph_drawn (hc : Glyphs [c]) (hx : charW * (text.length + 2) ≤ w)
    (hy : y + charH < h) : ∃ t, putGlyph c v = some t ∧ Drawn d w h (text ++ [c]) y u t := by
  have hroom : charW * (text.length + 1) ≤ w := by
    simp only [charW] at hx ⊢
    omega
  obtain ⟨t, ht, hmoved, hbytes⟩ := drawChar_drawn (c := c) hu hpitch hdrawn hroom hy
  have hlt := hu.lt hpitch (by omega)
  have hlen : (text ++ [c]).length = text.length + 1 := List.length_append
  obtain ⟨m, q, rfl⟩ := hmoved
  refine ⟨{ u with
    framebuffer := m, serial := q, cursorX := charW * (text.length + 1), cursorY := y }, ?_, ?_, ?_⟩
  · rw [putGlyph_glyph hc, ht, Option.bind_some]
    exact stepForward_right rfl (hu.width.symm ▸ hx) (hu.width.symm ▸ by omega)
  · rw [hlen]
    exact ⟨m, q, rfl⟩
  · exact hbytes

/-- A character in the last cell of its row. -/
theorem putGlyph_feed (hc : Glyphs [c]) (hx : charW * (text.length + 1) ≤ w)
    (hend : w < charW * (text.length + 2)) (hroom : Feeds w h y u) :
    ∃ t, putGlyph c v = some t ∧ Moved u 0 (y + charH) t ∧ ∀ p, Inside (d * w) h p →
      byte t p = feedByte h y u (paint (textLayers u y (text ++ [c])) (byte u)) p := by
  have hy : y + 2 * charH ≤ h := by
    rcases hroom with hbelow | ⟨hbelow, -⟩ <;> omega
  have hlow : y + charH < h := by
    simp only [charH] at hy ⊢
    omega
  obtain ⟨t, ht, hmoved, hbytes⟩ := drawChar_drawn (c := c) hu hpitch hdrawn hx hlow
  have hlt := hu.lt hpitch (by omega)
  have hfar : charW * (text.length + 2) < 4294967296 := by
    simp only [charW] at hx ⊢
    omega
  have hstep : stepForward t = if h ≤ y + 2 * charH then gfxScroll t.nextRow
      else some t.nextRow := by
    obtain ⟨m, q, rfl⟩ := hmoved
    have hsize : u.fbHeight = h := hu.height
    have hstep := stepForward_end (n := text.length) (s := { u with
      framebuffer := m, serial := q, cursorX := charW * text.length, cursorY := y }) rfl
      (hu.width.symm ▸ hend) hfar (by dsimp only; omega)
    dsimp only at hstep
    rw [hstep, hsize]
  have hbelow : Moved u 0 (y + charH) t.nextRow := by
    obtain ⟨m, q, rfl⟩ := hmoved
    exact ⟨m, q, rfl⟩
  have hsame : ∀ p, byte t.nextRow p = byte t p := fun _ => rfl
  rw [putGlyph_glyph hc, ht, Option.bind_some, hstep]
  by_cases hscroll : h ≤ y + 2 * charH
  · have hpixels : 4 * w ≤ u.fbPitch := by
      rcases hroom with hfree | ⟨-, hpixels⟩
      · omega
      · exact hpixels
    have hgeometry : t.nextRow.fbPitch = u.fbPitch ∧ fillByte t.nextRow = fillByte u := by
      obtain ⟨m, q, rfl⟩ := hmoved
      exact ⟨rfl, rfl⟩
    rw [if_pos hscroll]
    obtain ⟨z, hz, hsets⟩ := gfxScroll_bytes (hu.of_moved hbelow) (by omega)
      (hgeometry.1.symm ▸ hpixels) (by omega)
    refine ⟨z, hz, hbelow.painted hsets.kept, fun p hp => ?_⟩
    rw [hsets.inside p hp trivial, feedByte, if_neg (Nat.not_lt.mpr hscroll), hgeometry.2]
    by_cases hup : p.1 + charH < h
    · rw [if_pos hup, if_pos hup, hsame]
      exact hbytes _ ⟨hup, hp.2⟩
    · rw [if_neg hup, if_neg hup]
  · rw [if_neg hscroll]
    refine ⟨t.nextRow, rfl, hbelow, fun p hp => ?_⟩
    rw [feedByte, if_pos (Nat.not_le.mp hscroll), hsame]
    exact hbytes p hp

end Surface

end Drawn

section Ends

variable {d w h n : Nat} {u z g : State} {c : BitVec 8} (hu : Surface d w h u)
  (hpitch : 32 ≤ u.fbPitch) (hx : u.cursorX = charW * n) (hy : u.cursorY + charH ≤ h)
  (hc : Glyphs [c]) (hz : putGlyph c u = some z)
include hu hpitch hx hy hc hz

/-- A character that was drawn leads to the next cell, if there is one. -/
theorem putGlyph_moves (hroom : charW * (n + 2) ≤ w) :
    Moved u (charW * (n + 1)) u.cursorY z := by
  have hlt := hu.lt hpitch (by omega)
  have hwidth := hu.width
  rw [putGlyph_glyph hc, Option.bind_eq_some_iff] at hz
  obtain ⟨m, hm, hstep⟩ := hz
  obtain ⟨f, rfl⟩ : Painted u m := eachPixel_painted hm
  have hx' : ({ u with framebuffer := f } : State).cursorX = charW * n := hx
  rw [stepForward_right hx' (by dsimp only; omega) (by dsimp only; omega)] at hstep
  obtain rfl := Option.some.inj hstep
  exact ⟨f, u.serial, rfl⟩

/-- In the last cell of a row it needs another row, for the cursor. -/
theorem feeds_of_shown (hlast : charW * (n + 1) ≤ w) (hend : w < charW * (n + 2))
    (hg : gfxShowCursor z = some g) : Feeds w h u.cursorY u := by
  have hlt := hu.lt hpitch (by omega)
  have hfits := hu.fits
  have hfar : charW * (n + 2) < 4294967296 := by
    simp only [charW] at hlast ⊢
    omega
  rw [putGlyph_glyph hc, Option.bind_eq_some_iff] at hz
  obtain ⟨m, hm, hstep⟩ := hz
  have hpainted : Painted u m := eachPixel_painted hm
  have hmoved : Moved u 0 (u.cursorY + charH) m.nextRow := by
    obtain ⟨f, rfl⟩ := hpainted
    exact ⟨f, u.serial, rfl⟩
  have hsurface := hu.of_painted hpainted
  have hcursor : m.cursorX = charW * n ∧ m.cursorY = u.cursorY ∧ m.fbPitch = u.fbPitch := by
    obtain ⟨f, rfl⟩ := hpainted
    exact ⟨hx, rfl, rfl⟩
  obtain ⟨hcol, hrow, hsame⟩ := hcursor
  have hsize : u.fbHeight = h := hu.height
  rw [stepForward_end hcol (by rwa [hsurface.width]) hfar (by omega), hsurface.height, hrow]
    at hstep
  by_cases hscroll : h ≤ u.cursorY + 2 * charH
  · rw [if_pos hscroll] at hstep
    have hpixels : 4 * w ≤ u.fbPitch := by
      by_contra hnarrow
      have hpitch' : m.nextRow.fbPitch < 4 * w := by
        rw [State.nextRow, hsame]
        omega
      rw [gfxScroll_none (hu.of_moved hmoved) (by omega) hpitch' (by omega)] at hstep
      cases hstep
    -- the cursor is shown in the row below
    have hbelow : Moved u 0 (u.cursorY + charH) z := hmoved.painted (gfxScroll_painted hstep)
    have hcell : CellIn u 0 (u.cursorY + charH) := by
      have hin := cellIn_of_some hg
      obtain ⟨f', q, rfl⟩ := hbelow
      exact hin
    have hsmall : ¬Huge u := by
      rw [Huge, hsize]
      omega
    have hroom : ¬h < u.cursorY + 2 * charH := by
      intro hout
      refine not_cellIn_below hsmall ?_ ?_ hcell
      · rw [hsize]
        exact hy
      · rw [hsize]
        simp only [charH] at hout ⊢
        omega
    exact Or.inr ⟨by omega, hpixels⟩
  · exact Or.inl (Nat.not_le.mp hscroll)

end Ends

/-- The serial port does not matter for the cursor. -/
theorem gfxShowCursor_serial {u t : State} (q : Serial) (h : gfxShowCursor u = some t) :
    gfxShowCursor { u with serial := q } = some { t with serial := q } := by
  have hin := cellIn_of_some h
  have hin' : CellIn { u with serial := q } u.cursorX u.cursorY := hin
  have hbits : cellBits { u with serial := q } u.cursorX u.cursorY charH =
      cellBits u u.cursorX u.cursorY charH := rfl
  rw [gfxShowCursor, gfxInvertCell_eq hin] at h
  rw [gfxShowCursor, gfxInvertCell_eq hin', hbits, ← Option.some.inj h]
  generalize cellBits u u.cursorX u.cursorY charH = p
  rfl

theorem toSerial_serial (c : BitVec 8) (s : State) :
    ∃ q, toSerial c s = { s with serial := q } := by
  rw [toSerial]
  split_ifs
  · exact ⟨_, rfl⟩
  · exact ⟨s.serial, rfl⟩

end Gfx
