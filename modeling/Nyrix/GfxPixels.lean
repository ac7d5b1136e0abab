import Nyrix.Base.ByteLayout
import Nyrix.GfxBytes

/-!
# What the drawing functions do to the pixels

With four bytes a pixel every pixel has bytes of its own. A cell drawn or inverted changes the
pixels of the cell, and scrolling moves every pixel row up by the height of a text row.
-/

namespace Gfx

open BoundedLoop ByteLayout ByteMemory Overwriting

/-- A framebuffer of `w` by `h` pixels whose bytes have addresses of their own. -/
structure Canvas (w h : Nat) (s : State) : Prop where
  bpp : s.fbBpp = 32
  width : s.fbWidth = w
  height : s.fbHeight = h
  rows : 4 * w ≤ s.fbPitch
  fits : s.fbPitch * h < 4294967296

def pixel (s : State) (p : Place) : BitVec 32 :=
  load32 s.framebuffer (p.1 * s.fbPitch + 4 * p.2)

/-- The pixels of a set get the values `v`. -/
abbrev SetsPixels (w h : Nat) := Sets Painted pixel (Inside w h)

/-- The pixels of a cell. -/
def InCell (cx cy : Nat) (p : Place) : Prop :=
  cy ≤ p.1 ∧ p.1 < cy + charH ∧ cx ≤ p.2 ∧ p.2 < cx + charW

section Places

variable {w h : Nat} {s t : State}

theorem Canvas.of_painted (hs : Canvas w h s) (hpainted : Painted s t) : Canvas w h t := by
  obtain ⟨m, rfl⟩ := hpainted
  exact ⟨hs.bpp, hs.width, hs.height, hs.rows, hs.fits⟩

theorem Canvas.of_moved {x y : Nat} (hs : Canvas w h s) (hmoved : Moved s x y t) :
    Canvas w h t := by
  obtain ⟨m, p, rfl⟩ := hmoved
  exact ⟨hs.bpp, hs.width, hs.height, hs.rows, hs.fits⟩

theorem Canvas.surface (hs : Canvas w h s) : Surface 4 w h s := by
  refine ⟨?_, by decide, by decide, hs.width, hs.height, hs.rows, hs.fits⟩
  rw [hs.bpp]

theorem Canvas.frame (hs : Canvas w h s) (hwide : 0 < w) (htall : 16 ≤ h) : Frame32 s := by
  have hrows := hs.rows
  have hfits := hs.fits
  have hpitch : s.fbPitch * 1 ≤ s.fbPitch * h := Nat.mul_le_mul_left _ (by omega)
  have hheight : 1 * h ≤ s.fbPitch * h := Nat.mul_le_mul_right _ (by omega)
  refine ⟨hs.bpp, ?_, ?_, by omega, ?_⟩
  · rw [hs.height]
    exact htall
  · rw [hs.width]
    exact hrows
  · rw [hs.height]
    omega

/-- A pixel byte by byte. -/
theorem byteOf_pixel {p : Place} {i : Nat} (hi : i < 4) :
    byteOf (pixel s p) i = byte s (p.1, 4 * p.2 + i) := by
  rw [pixel, byteOf_load32 _ _ hi, Nat.add_assoc]
  rfl

theorem pixel_of_bytes {p : Place} {c : BitVec 32}
    (h : ∀ i < 4, byte s (p.1, 4 * p.2 + i) = byteOf c i) : pixel s p = c := by
  refine load32_of_bytes fun i hi => ?_
  rw [Nat.add_assoc]
  exact h i hi

/-- Pixels are set when the bytes of each of them are. -/
theorem setsPixels_of_screen {A B : Place → Prop} {v : Place → BitVec 32} {b : Place → BitVec 8}
    (hsets : SetsScreen 4 w h B b s t)
    (hB : ∀ p, Inside w h p → ∀ i < 4, (B (p.1, 4 * p.2 + i) ↔ A p))
    (hv : ∀ p, Inside w h p → A p → ∀ i < 4, b (p.1, 4 * p.2 + i) = byteOf (v p) i) :
    SetsPixels w h A v s t := by
  have hbyte : ∀ p, Inside w h p → ∀ i < 4, Inside (4 * w) h (p.1, 4 * p.2 + i) := by
    intro p hp i hi
    have hcol := hp.2
    exact ⟨hp.1, by dsimp only; omega⟩
  refine ⟨hsets.kept, fun p hp hA => ?_, fun p hp hA => ?_⟩
  · refine pixel_of_bytes fun i hi => ?_
    rw [hsets.inside _ (hbyte p hp i hi) ((hB p hp i hi).mpr hA), hv p hp hA i hi]
  · refine pixel_of_bytes fun i hi => ?_
    rw [hsets.outside _ (hbyte p hp i hi) (mt (hB p hp i hi).mp hA), byteOf_pixel hi]

/-- The pixels of a cell have the bytes of the cell, and no others. -/
theorem cellByte_iff {cx cy : Nat} (hs : Canvas w h s) (hx : cx + charW ≤ w) {p : Place} {i : Nat}
    (hi : i < 4) : CellByte s cx cy (p.1, 4 * p.2 + i) ↔ InCell cx cy p := by
  have hrows := hs.rows
  simp only [CellByte, InCell, hs.bpp, charW, charH] at hx ⊢
  omega

/-- A cell inside leaves room for its bytes. -/
theorem Canvas.cell_fits {cx cy : Nat} (hs : Canvas w h s) (hx : cx + charW ≤ w)
    (hy : cy + charH ≤ h) :
    32 ≤ s.fbPitch ∧ cellOffset s cx cy 15 0 + 4 * charW ≤ h * s.fbPitch := by
  have hrows := hs.rows
  simp only [charW, charH] at hx hy
  have hend : (cy + 15) * s.fbPitch + (4 * cx + 32) ≤ h * s.fbPitch :=
    row_end (by omega) (by omega)
  simp only [cellOffset, hs.bpp, charW]
  omega

end Places

section Drawing

variable {w h cx cy : Nat} {s t : State}

theorem gfxInvertCell_sets (hs : Canvas w h s) (hx : cx + charW ≤ w) (hy : cy + charH ≤ h) :
    ∃ t, gfxInvertCell cx cy s = some t ∧
      SetsPixels w h (InCell cx cy) (fun p => ~~~pixel s p) s t := by
  obtain ⟨hpitch, hend⟩ := hs.cell_fits hx hy
  obtain ⟨t, ht, hsets⟩ := gfxInvertCell_bytes hs.surface hpitch hx hend
  refine ⟨t, ht, setsPixels_of_screen hsets (fun p _ i hi => cellByte_iff hs hx hi) ?_⟩
  intro p _ _ i hi
  rw [Inversion.byteOf_not _ hi, byteOf_pixel hi]

/-- The cell of the cursor lies inside. -/
def CursorIn (w h : Nat) (s : State) : Prop :=
  s.cursorX + charW ≤ w ∧ s.cursorY + charH ≤ h

theorem gfxShowCursor_sets (hs : Canvas w h s) (hcell : CursorIn w h s)
    (ht : gfxShowCursor s = some t) :
    SetsPixels w h (InCell s.cursorX s.cursorY) (fun p => ~~~pixel s p) s t := by
  obtain ⟨u, hu, hsets⟩ := gfxInvertCell_sets hs hcell.1 hcell.2
  obtain rfl := Option.some.inj (ht.symm.trans hu)
  exact hsets

theorem drawChar_sets (c : BitVec 8) (hs : Canvas w h s) (hcell : CursorIn w h s) :
    ∃ t, drawChar c s = some t ∧ SetsPixels w h (InCell s.cursorX s.cursorY)
      (fun p => glyphPixel s.fgColor s.bgColor c (p.1 - s.cursorY) (p.2 - s.cursorX)) s t := by
  obtain ⟨hpitch, hend⟩ := hs.cell_fits hcell.1 hcell.2
  obtain ⟨t, ht, hsets⟩ := drawChar_bytes c hs.surface hpitch hcell.1 hend
  refine ⟨t, ht, setsPixels_of_screen hsets (fun p _ i hi => cellByte_iff hs hcell.1 hi) ?_⟩
  rintro p _ ⟨htop, _, hleft, hright⟩ i hi
  refine glyphByte_at hpitch (by omega) hi ?_
  simp only [cellOffset, hs.bpp, Nat.add_sub_of_le htop]
  omega

theorem fillRows_sets {lo n : Nat} (hs : Canvas w h s) (hn : lo + n ≤ h) :
    ∃ t, forUp? fillRow lo n s = some t ∧
      SetsPixels w h (fun p => lo ≤ p.1 ∧ p.1 < lo + n) (fun _ => s.bgColor) s t := by
  obtain ⟨t, ht, hsets⟩ := fillRows_bytes hs.surface hs.rows hn
  refine ⟨t, ht, setsPixels_of_screen hsets (fun _ _ _ _ => Iff.rfl) fun p _ _ i hi => ?_⟩
  exact fillByte_pixel hi

/-- The whole screen goes up by one text row. -/
theorem gfxScroll_sets (hs : Canvas w h s) (hframe : Frame32 s) :
    ∃ t, gfxScroll s = some t ∧ SetsPixels w h (fun _ => True)
      (fun p => if p.1 + charH < h then pixel s (p.1 + charH, p.2) else s.bgColor) s t := by
  have htall := hframe.tall
  have hlt := hframe.height_lt
  rw [hs.height] at htall hlt
  obtain ⟨t, ht, hsets⟩ := gfxScroll_bytes hs.surface hlt hs.rows htall
  refine ⟨t, ht, setsPixels_of_screen hsets (fun _ _ _ _ => Iff.rfl) fun p _ _ i hi => ?_⟩
  by_cases hup : p.1 + charH < h
  · rw [if_pos hup, if_pos hup, byteOf_pixel hi]
  · rw [if_neg hup, if_neg hup, fillByte_pixel hi]

end Drawing

end Gfx
