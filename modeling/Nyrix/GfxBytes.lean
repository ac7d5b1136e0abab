import Nyrix.Base.Overwriting
import Nyrix.GfxOverlay

/-!
# What the drawing functions do to the bytes of the screen

For two to four bytes per pixel. A pixel is written as four bytes whatever the depth, so a cell
drawn near the right edge may go on at the start of the next pixel row.
-/

namespace Gfx

open BoundedLoop ByteMemory Overwriting

/-- A place in the framebuffer: a row and a column. -/
abbrev Place := Nat × Nat

def Inside (w h : Nat) (p : Place) : Prop := p.1 < h ∧ p.2 < w

def byte (s : State) (p : Place) : BitVec 8 := load8 s.framebuffer (p.1 * s.fbPitch + p.2)

/-- One pixel of a character in two colors. -/
def glyphPixel (fg bg : BitVec 32) (c : BitVec 8) (y x : Nat) : BitVec 32 :=
  if fontRow (getFontChar c) y &&& (0x80#8 >>> x) ≠ 0 then fg else bg

/-- A framebuffer of `w` by `h` pixels of `d` bytes each, whose bytes have addresses of their
own. -/
structure Surface (d w h : Nat) (s : State) : Prop where
  depth : s.fbBpp / 8 = d
  atLeast : 2 ≤ d
  atMost : d ≤ 4
  width : s.fbWidth = w
  height : s.fbHeight = h
  rows : d * w ≤ s.fbPitch
  fits : s.fbPitch * h < 4294967296

/-- The bytes of the screen in a set get the values `v`. -/
abbrev SetsScreen (d w h : Nat) := Sets Painted byte (Inside (d * w) h)

/-- The place is one of `n` bytes from an offset on. -/
def Spans (s : State) (off n : Nat) (p : Place) : Prop :=
  off ≤ p.1 * s.fbPitch + p.2 ∧ p.1 * s.fbPitch + p.2 < off + n

/-- The bytes that drawing a cell sets: 32 in each row, which may go on in the next row. -/
def CellByte (s : State) (cx cy : Nat) (p : Place) : Prop :=
  (cy ≤ p.1 ∧ p.1 < cy + charH ∧
    cx * (s.fbBpp / 8) ≤ p.2 ∧ p.2 < cx * (s.fbBpp / 8) + 4 * charW) ∨
  (cy < p.1 ∧ p.1 ≤ cy + charH ∧ p.2 + s.fbPitch < cx * (s.fbBpp / 8) + 4 * charW)

instance (s : State) (cx cy : Nat) (p : Place) : Decidable (CellByte s cx cy p) :=
  inferInstanceAs (Decidable (_ ∨ _))

section Places

variable {d w h : Nat} {s t : State}

theorem Surface.of_painted (hs : Surface d w h s) (hpainted : Painted s t) : Surface d w h t := by
  obtain ⟨m, rfl⟩ := hpainted
  exact ⟨hs.depth, hs.atLeast, hs.atMost, hs.width, hs.height, hs.rows, hs.fits⟩

theorem Surface.of_moved {x y : Nat} (hs : Surface d w h s) (hmoved : Moved s x y t) :
    Surface d w h t := by
  obtain ⟨m, p, rfl⟩ := hmoved
  exact ⟨hs.depth, hs.atLeast, hs.atMost, hs.width, hs.height, hs.rows, hs.fits⟩

/-- A pixel row has room for what is drawn of a cell. -/
theorem Surface.pitch_of_wide (hs : Surface d w h s) (hwide : 16 ≤ w) : 32 ≤ s.fbPitch := by
  have hrows := hs.rows
  have hbytes : 2 * w ≤ d * w := Nat.mul_le_mul_right w hs.atLeast
  omega

theorem Surface.inFrame (hs : Surface d w h s) {off n : Nat} (hoff : off + n ≤ h * s.fbPitch) :
    InFrame s off n := by
  rw [Nat.mul_comm, ← hs.height] at hoff
  exact inFrame_of_le hoff

/-- A row ends where the next one begins. -/
theorem row_end {y e p h : Nat} (hy : y < h) (he : e ≤ p) : y * p + e ≤ h * p := by
  have hrow : (y + 1) * p ≤ h * p := Nat.mul_le_mul_right p hy
  rw [Nat.add_mul, Nat.one_mul] at hrow
  omega

/-- The address of a byte of the screen. -/
theorem Surface.place_lt (hs : Surface d w h s) {p : Place} (hp : Inside (d * w) h p) :
    p.1 * s.fbPitch + p.2 + 1 ≤ h * s.fbPitch := by
  have hrows := hs.rows
  have hcol : p.2 + 1 ≤ s.fbPitch := Nat.le_trans hp.2 hrows
  exact row_end hp.1 hcol

theorem writePixel_bytes (hs : Surface d w h s) {off : Nat} {c : BitVec 32} {v : Place → BitVec 8}
    (hoff : off + 4 ≤ h * s.fbPitch)
    (hv : ∀ p, Inside (d * w) h p → Spans s off 4 p →
      v p = byteOf c (p.1 * s.fbPitch + p.2 - off)) :
    ∃ t, writePixel off c s = some t ∧ SetsScreen d w h (Spans s off 4) v s t := by
  have hfits := hs.fits
  rw [Nat.mul_comm] at hfits
  refine ⟨_, if_pos (hs.inFrame hoff), ⟨_, rfl⟩, fun p hp hin => ?_, fun p hp hout => ?_⟩
  · obtain ⟨hlo, hhi⟩ := hin
    have hsplit : p.1 * s.fbPitch + p.2 = off + (p.1 * s.fbPitch + p.2 - off) := by omega
    rw [hv p hp ⟨hlo, hhi⟩, byte]
    dsimp only
    rw [hsplit, Nat.add_sub_cancel_left]
    exact load8_store32 _ _ _ (by omega)
  · have hplace := hs.place_lt hp
    have hsep : Sep off 4 (p.1 * s.fbPitch + p.2) 1 := by
      intro i hi j hj
      rw [Spans] at hout
      omega
    exact store32_frame _ _ _ _ hsep

theorem writeByte_bytes (hs : Surface d w h s) {q : Place} (hq : Inside (d * w) h q)
    {v : Place → BitVec 8} {c : BitVec 8} (hv : v q = c) :
    ∃ t, writeByte (q.1 * s.fbPitch + q.2) c s = some t ∧ SetsScreen d w h (· = q) v s t := by
  have hrows := hs.rows
  have hplace := hs.place_lt hq
  have hfits := hs.fits
  rw [Nat.mul_comm] at hfits
  refine ⟨_, if_pos (hs.inFrame hplace), ⟨_, rfl⟩, ?_, ?_⟩
  · rintro p _ rfl
    rw [hv]
    exact load8_store8_same _ _ _
  · rintro p hp hne
    have hplace' := hs.place_lt hp
    have hpcol : p.2 < s.fbPitch := Nat.lt_of_lt_of_le hp.2 hrows
    have hqcol : q.2 < s.fbPitch := Nat.lt_of_lt_of_le hq.2 hrows
    have hother : (q.1 * s.fbPitch + q.2) % 4294967296 ≠
        (p.1 * s.fbPitch + p.2) % 4294967296 := by
      intro heq
      rw [Nat.mod_eq_of_lt (by omega), Nat.mod_eq_of_lt (by omega)] at heq
      obtain ⟨hrow, hcol⟩ := row_unique heq hqcol hpcol
      exact hne (Prod.ext hrow.symm hcol.symm)
    exact load8_store8_of_ne _ _ _ _ hother

theorem readByte_bytes (hs : Surface d w h s) {p : Place} (hp : Inside (d * w) h p) :
    readByte s (p.1 * s.fbPitch + p.2) = some (byte s p) :=
  if_pos (hs.inFrame (hs.place_lt hp))

end Places

section Cells

variable {d w h cx cy : Nat} {s t : State} {v : Place → BitVec 8}

theorem screen_loop {A : Nat → Place → Prop} {body : Nat → State → Option State} (lo n : Nat)
    (hbody : ∀ i t, lo ≤ i → i < lo + n →
      SetsScreen d w h (fun p => ∃ j, lo ≤ j ∧ j < i ∧ A j p) v s t →
      ∃ u, body i t = some u ∧ SetsScreen d w h (A i) v t u) :
    ∃ t, forUp? body lo n s = some t ∧
      SetsScreen d w h (fun p => ∃ j, lo ≤ j ∧ j < lo + n ∧ A j p) v s t :=
  sets_loop painted_refl (fun _ _ _ => painted_trans) hbody

/-- The eight pixels of a row of a cell, one behind the other. -/
theorem spans_pixels {y : Nat} {p : Place} :
    (∃ x, 0 ≤ x ∧ x < 0 + charW ∧ Spans s (cellOffset s cx cy y x) 4 p) ↔
      Spans s (cellOffset s cx cy y 0) (4 * charW) p := by
  simp only [Spans, cellOffset, charW]
  constructor
  · rintro ⟨x, _, hx, hlo, hhi⟩
    omega
  · rintro ⟨hlo, hhi⟩
    refine ⟨(p.1 * s.fbPitch + p.2 - ((cy + y) * s.fbPitch + cx * (s.fbBpp / 8))) / 4, ?_⟩
    omega

/-- The rows of a cell are apart. -/
theorem cellOffset_next (hpitch : 32 ≤ s.fbPitch) {j y : Nat} (hjy : j < y) :
    cellOffset s cx cy j 0 + 4 * charW ≤ cellOffset s cx cy y 0 := by
  have hrow : (cy + j + 1) * s.fbPitch ≤ (cy + y) * s.fbPitch :=
    Nat.mul_le_mul_right _ (by omega)
  rw [Nat.add_mul, Nat.one_mul] at hrow
  simp only [cellOffset, charW]
  omega

/-- The rows of a cell by row and column. -/
theorem spans_rows (hs : Surface d w h s) (hx : cx + charW ≤ w) {p : Place}
    (hp : Inside (d * w) h p) :
    (∃ y, 0 ≤ y ∧ y < 0 + charH ∧ Spans s (cellOffset s cx cy y 0) (4 * charW) p) ↔
      CellByte s cx cy p := by
  have hrows := hs.rows
  have hcol : p.2 < s.fbPitch := Nat.lt_of_lt_of_le hp.2 hrows
  have hcell : cx * (s.fbBpp / 8) + charW * d ≤ s.fbPitch := by
    have hcells : (cx + charW) * d ≤ w * d := Nat.mul_le_mul_right d hx
    rw [Nat.add_mul, Nat.mul_comm w] at hcells
    rw [hs.depth]
    omega
  have htwo := hs.atLeast
  simp only [charW] at hcell
  simp only [Spans, cellOffset, CellByte, charW, charH]
  constructor
  · rintro ⟨y, _, hy, hlo, hhi⟩
    rcases Nat.lt_trichotomy p.1 (cy + y) with hlt | heq | hgt
    · have hbefore : (p.1 + 1) * s.fbPitch ≤ (cy + y) * s.fbPitch := Nat.mul_le_mul_right _ hlt
      rw [Nat.add_mul, Nat.one_mul] at hbefore
      omega
    · rw [heq] at hlo hhi
      exact Or.inl (by omega)
    · by_cases hnext : p.1 = cy + y + 1
      · rw [hnext, Nat.add_mul, Nat.one_mul] at hhi
        exact Or.inr (by omega)
      · have hbehind : (cy + y + 2) * s.fbPitch ≤ p.1 * s.fbPitch :=
          Nat.mul_le_mul_right _ (by omega)
        rw [Nat.add_mul] at hbehind
        omega
  · rintro (⟨htop, hbottom, hleft, hright⟩ | ⟨htop, hbottom, hwrap⟩)
    · refine ⟨p.1 - cy, Nat.zero_le _, by omega, ?_⟩
      rw [Nat.add_sub_of_le htop]
      omega
    · refine ⟨p.1 - cy - 1, Nat.zero_le _, by omega, ?_⟩
      have hrow : p.1 = cy + (p.1 - cy - 1) + 1 := by omega
      have hplace : p.1 * s.fbPitch = (cy + (p.1 - cy - 1)) * s.fbPitch + s.fbPitch := by
        rw [← Nat.succ_mul]
        exact congrArg (· * s.fbPitch) hrow
      omega

/-- The two loops over a cell, when each body sets the bytes of the pixel it is at. -/
theorem eachPixel_bytes (hs : Surface d w h s) (hpitch : 32 ≤ s.fbPitch) (hx : cx + charW ≤ w)
    {f : Nat → Nat → State → Option State}
    (hf : ∀ y < charH, ∀ x < charW, ∀ t, Painted s t →
      (∀ p, Inside (d * w) h p → Spans s (cellOffset s cx cy y x) 4 p → byte t p = byte s p) →
      ∃ u, f y x t = some u ∧
        SetsScreen d w h (Spans s (cellOffset s cx cy y x) 4) v t u) :
    ∃ t, eachPixel f s = some t ∧ SetsScreen d w h (CellByte s cx cy) v s t := by
  have hrow : ∀ y < charH, ∀ t,
      SetsScreen d w h (fun p => ∃ j, 0 ≤ j ∧ j < y ∧
        Spans s (cellOffset s cx cy j 0) (4 * charW) p) v s t →
      ∃ u, forUp? (f y) 0 charW t = some u ∧
        SetsScreen d w h (Spans s (cellOffset s cx cy y 0) (4 * charW)) v t u := by
    intro y hy t ht
    obtain ⟨u, hu, hsets⟩ := screen_loop 0 charW
      (A := fun x => Spans s (cellOffset s cx cy y x) 4) fun x u _ hx hsets => by
        refine hf y hy x (by omega) u (painted_trans ht.kept hsets.kept) fun p hp hin => ?_
        have hoff : ∀ x, cellOffset s cx cy y x = cellOffset s cx cy y 0 + 4 * x := fun _ => rfl
        rw [hoff, Spans] at hin
        rw [hsets.outside p hp, ht.outside p hp]
        · rintro ⟨j, _, hj, hbefore⟩
          have hnext : cellOffset s cx cy j 0 + 4 * charW ≤ cellOffset s cx cy y 0 :=
            cellOffset_next hpitch hj
          rw [Spans] at hbefore
          omega
        · rintro ⟨j, _, hj, hleft⟩
          rw [hoff, Spans] at hleft
          omega
    exact ⟨u, hu, hsets.congr (fun p _ => spans_pixels) fun _ _ _ => rfl⟩
  obtain ⟨t, ht, hsets⟩ := screen_loop 0 charH
    (A := fun y => Spans s (cellOffset s cx cy y 0) (4 * charW)) fun y t _ hy ht =>
      hrow y (by omega) t ht
  exact ⟨t, ht, hsets.congr (fun p hp => spans_rows hs hx hp) fun _ _ _ => rfl⟩

/-- All pixels of a cell lie before its last one, which ends where the last row does. -/
theorem cellOffset_fits {n y x : Nat} (hend : cellOffset s cx cy 15 0 + 4 * charW ≤ n)
    (hy : y < charH) (hx : x < charW) : cellOffset s cx cy y x + 4 ≤ n := by
  have hle : (cy + y) * s.fbPitch ≤ (cy + 15) * s.fbPitch := by
    refine Nat.mul_le_mul_right _ ?_
    simp only [charH] at hy
    omega
  simp only [cellOffset, charW] at hend hx ⊢
  omega

/-- A cell lies inside the framebuffer when its last byte does. -/
theorem cellIn_iff (hs : Surface d w h s) (hx : cx + charW ≤ w) (hy : cy + charH ≤ h) :
    CellIn s cx cy ↔ cellOffset s cx cy 15 0 + 4 * charW ≤ h * s.fbPitch := by
  have hfits := hs.fits
  rw [Nat.mul_comm] at hfits
  have hrow : (cy + 16) * s.fbPitch ≤ h * s.fbPitch := Nat.mul_le_mul_right _ hy
  have hlast : (cy + 16) * s.fbPitch = (cy + 15) * s.fbPitch + s.fbPitch := Nat.succ_mul _ _
  have hcol : cx * (s.fbBpp / 8) ≤ s.fbPitch := by
    have hcells : cx * d ≤ w * d := Nat.mul_le_mul_right d (by omega)
    have hrows := hs.rows
    rw [hs.depth]
    rw [Nat.mul_comm w] at hcells
    omega
  have hoff : cellOffset s cx cy 15 0 = (cy + 15) * s.fbPitch + cx * (s.fbBpp / 8) := rfl
  constructor
  · intro hin
    by_contra hout
    -- otherwise the first byte behind the framebuffer is one of the cell
    have hj : h * s.fbPitch - cellOffset s cx cy 15 0 < 32 := by
      simp only [charW] at hout
      omega
    have hbyte := hin 15 (by decide) ((h * s.fbPitch - cellOffset s cx cy 15 0) / 4)
      (by simp only [charW]; omega) ((h * s.fbPitch - cellOffset s cx cy 15 0) % 4)
      (Nat.mod_lt _ (by decide))
    have hend : cellOffset s cx cy 15 ((h * s.fbPitch - cellOffset s cx cy 15 0) / 4) +
        (h * s.fbPitch - cellOffset s cx cy 15 0) % 4 = h * s.fbPitch := by
      have hpixel : ∀ x, cellOffset s cx cy 15 x = cellOffset s cx cy 15 0 + 4 * x := fun _ => rfl
      rw [hpixel]
      omega
    rw [hend, u32_of_lt hfits, hs.height, Nat.mul_comm] at hbyte
    exact Nat.lt_irrefl _ hbyte
  · intro hend y hy' x hx'
    exact hs.inFrame (cellOffset_fits hend hy' hx')

theorem gfxInvertCell_bytes (hs : Surface d w h s) (hpitch : 32 ≤ s.fbPitch)
    (hx : cx + charW ≤ w) (hend : cellOffset s cx cy 15 0 + 4 * charW ≤ h * s.fbPitch) : ∃ t,
    gfxInvertCell cx cy s = some t ∧
      SetsScreen d w h (CellByte s cx cy) (fun p => ~~~byte s p) s t := by
  refine eachPixel_bytes hs hpitch hx fun y hy x hx' t ht hfresh => ?_
  have hsurface := hs.of_painted ht
  have hfits := cellOffset_fits hend hy hx'
  obtain ⟨m, rfl⟩ := ht
  have hread : readPixel { s with framebuffer := m } (cellOffset s cx cy y x) =
      some (load32 m (cellOffset s cx cy y x)) := if_pos (hsurface.inFrame hfits)
  have hoff : cellOffset { s with framebuffer := m } cx cy y x = cellOffset s cx cy y x := rfl
  rw [invertPixel, hoff, hread, Option.bind_some]
  refine writePixel_bytes hsurface hfits fun p hp hin => ?_
  have hbyte := hfresh p hp hin
  obtain ⟨hlo, hhi⟩ := hin
  have hsplit : cellOffset s cx cy y x + (p.1 * s.fbPitch + p.2 - cellOffset s cx cy y x) =
      p.1 * s.fbPitch + p.2 := by
    dsimp only at hlo
    omega
  dsimp only at hhi ⊢
  rw [Inversion.byteOf_not _ (by omega), byteOf_load32 _ _ (by omega), hsplit, ← hbyte]
  rfl

/-- One byte of a character in two colors, in the cell at a place. -/
def glyphByte (s : State) (cx cy : Nat) (c : BitVec 8) (p : Place) : BitVec 8 :=
  let off := p.1 * s.fbPitch + p.2 - cellOffset s cx cy 0 0
  byteOf (glyphPixel s.fgColor s.bgColor c (off / s.fbPitch) (off % s.fbPitch / 4))
    (off % s.fbPitch % 4)

theorem glyphByte_at (hpitch : 32 ≤ s.fbPitch) {c : BitVec 8} {y x i : Nat} {p : Place}
    (hx : x < charW) (hi : i < 4)
    (hp : p.1 * s.fbPitch + p.2 = cellOffset s cx cy y x + i) :
    glyphByte s cx cy c p = byteOf (glyphPixel s.fgColor s.bgColor c y x) i := by
  simp only [charW] at hx
  have hpos : 0 < s.fbPitch := by omega
  have hlt : 4 * x + i < s.fbPitch := by omega
  have hoff : p.1 * s.fbPitch + p.2 - cellOffset s cx cy 0 0 = 4 * x + i + y * s.fbPitch := by
    rw [hp]
    simp only [cellOffset, Nat.add_mul]
    omega
  rw [glyphByte, hoff]
  rw [Nat.add_mul_div_right _ _ hpos, Nat.div_eq_of_lt hlt, Nat.zero_add,
    Nat.add_mul_mod_self_right, Nat.mod_eq_of_lt hlt]
  congr 1
  · congr 1
    omega
  · omega

theorem drawChar_bytes (c : BitVec 8) (hs : Surface d w h s) (hpitch : 32 ≤ s.fbPitch)
    (hx : s.cursorX + charW ≤ w)
    (hend : cellOffset s s.cursorX s.cursorY 15 0 + 4 * charW ≤ h * s.fbPitch) : ∃ t,
    drawChar c s = some t ∧ SetsScreen d w h (CellByte s s.cursorX s.cursorY)
      (glyphByte s s.cursorX s.cursorY c) s t := by
  refine eachPixel_bytes hs hpitch hx fun y hy x hx' t ht _ => ?_
  have hsurface := hs.of_painted ht
  have hfits := cellOffset_fits hend hy hx'
  obtain ⟨m, rfl⟩ := ht
  refine writePixel_bytes hsurface hfits fun p _ hin => ?_
  obtain ⟨hlo, hhi⟩ := hin
  exact glyphByte_at hpitch hx' (by omega) (Nat.add_sub_of_le hlo).symm

end Cells

section Rows

variable {d w h : Nat} {s t : State}

/-- The places of one row, one after the other. -/
theorem row_places {y n : Nat} {p : Place} (hp : p.2 < n) :
    (∃ x, 0 ≤ x ∧ x < 0 + n ∧ p = (y, x)) ↔ p.1 = y := by
  constructor
  · rintro ⟨x, _, _, rfl⟩
    rfl
  · rintro rfl
    exact ⟨p.2, Nat.zero_le _, by omega, rfl⟩

/-- The rows of a part of the screen, one after the other. -/
theorem rows_places {lo n : Nat} {p : Place} :
    (∃ y, lo ≤ y ∧ y < lo + n ∧ p.1 = y) ↔ lo ≤ p.1 ∧ p.1 < lo + n := by
  constructor
  · rintro ⟨y, hlo, hy, rfl⟩
    exact ⟨hlo, hy⟩
  · rintro ⟨hlo, hy⟩
    exact ⟨p.1, hlo, hy, rfl⟩

/-- What filling a pixel row writes, pixel by pixel. -/
def fillByte (s : State) (p : Place) : BitVec 8 := byteOf s.bgColor (p.2 % 4)

theorem fillByte_pixel {y x i : Nat} (hi : i < 4) :
    fillByte s (y, 4 * x + i) = byteOf s.bgColor i := by
  rw [fillByte, Nat.mul_add_mod, Nat.mod_eq_of_lt hi]

/-- A pixel row filled, where four bytes a pixel fit in the row. -/
theorem fillRow_bytes {y : Nat} (hs : Surface d w h s) (hroom : 4 * w ≤ s.fbPitch) (hy : y < h) :
    ∃ t, fillRow y s = some t ∧ SetsScreen d w h (·.1 = y) (fillByte s) s t := by
  have hwidth := hs.width
  have hloop : ∃ t, fillRow y s = some t ∧ SetsScreen d w h
      (fun p => ∃ x, 0 ≤ x ∧ x < 0 + s.fbWidth ∧ Spans s (y * s.fbPitch + 4 * x) 4 p)
      (fillByte s) s t := by
    refine screen_loop 0 s.fbWidth fun x t _ hx hsets => ?_
    have hsurface := hs.of_painted hsets.kept
    have hend : y * s.fbPitch + (4 * x + 4) ≤ h * s.fbPitch := row_end hy (by omega)
    obtain ⟨m, rfl⟩ := hsets.kept
    refine writePixel_bytes hsurface hend fun p hp hin => ?_
    obtain ⟨hlo, hhi⟩ := hin
    dsimp only at hlo hhi ⊢
    have hcol : p.2 < s.fbPitch := Nat.lt_of_lt_of_le hp.2 hs.rows
    have hplace : p.1 * s.fbPitch + p.2 = y * s.fbPitch +
        (4 * x + (p.1 * s.fbPitch + p.2 - (y * s.fbPitch + 4 * x))) := by omega
    obtain ⟨-, hsame⟩ := row_unique hplace hcol (by omega)
    rw [fillByte, hsame]
    congr 1
    omega
  obtain ⟨t, ht, hsets⟩ := hloop
  refine ⟨t, ht, hsets.congr (fun p hp => ?_) fun _ _ _ => rfl⟩
  have hcol : p.2 < s.fbPitch := Nat.lt_of_lt_of_le hp.2 hs.rows
  have hin : d * w ≤ 4 * w := Nat.mul_le_mul_right w hs.atMost
  have hleft := hp.2
  constructor
  · rintro ⟨x, _, hx, hlo, hhi⟩
    have hplace : p.1 * s.fbPitch + p.2 = y * s.fbPitch +
        (4 * x + (p.1 * s.fbPitch + p.2 - (y * s.fbPitch + 4 * x))) := by omega
    exact (row_unique hplace hcol (by omega)).1
  · rintro rfl
    refine ⟨p.2 / 4, Nat.zero_le _, by omega, ?_⟩
    rw [Spans]
    omega

theorem fillRows_bytes {lo n : Nat} (hs : Surface d w h s) (hroom : 4 * w ≤ s.fbPitch)
    (hn : lo + n ≤ h) : ∃ t, forUp? fillRow lo n s = some t ∧
      SetsScreen d w h (fun p => lo ≤ p.1 ∧ p.1 < lo + n) (fillByte s) s t := by
  have hloop : ∃ t, forUp? fillRow lo n s = some t ∧ SetsScreen d w h
      (fun p => ∃ y, lo ≤ y ∧ y < lo + n ∧ p.1 = y) (fillByte s) s t := by
    refine screen_loop lo n fun y t _ hy hsets => ?_
    have hsurface := hs.of_painted hsets.kept
    obtain ⟨m, rfl⟩ := hsets.kept
    exact fillRow_bytes hsurface hroom (by omega)
  obtain ⟨t, ht, hsets⟩ := hloop
  exact ⟨t, ht, hsets.congr (fun p _ => rows_places) fun _ _ _ => rfl⟩

/-- A pixel row copied, byte by byte, from the text row below. -/
theorem copyRow_bytes {y : Nat} (hs : Surface d w h s) (hy : y + charH < h) :
    ∃ t, copyRow y s = some t ∧
      SetsScreen d w h (·.1 = y) (fun p => byte s (p.1 + charH, p.2)) s t := by
  have hrows := hs.rows
  have hfits := hs.fits
  have hpitch : s.fbPitch * 1 ≤ s.fbPitch * h := Nat.mul_le_mul_left _ (by omega)
  have hbytes : u32 (s.fbWidth * (s.fbBpp / 8)) = d * w := by
    rw [hs.depth, hs.width, Nat.mul_comm, u32_of_lt (by omega)]
  have hloop : ∃ t, copyRow y s = some t ∧ SetsScreen d w h
      (fun p => ∃ x, 0 ≤ x ∧ x < 0 + d * w ∧ p = (y, x))
      (fun p => byte s (p.1 + charH, p.2)) s t := by
    rw [copyRow, hbytes]
    refine screen_loop 0 (d * w) fun x t _ hx hsets => ?_
    have hsurface := hs.of_painted hsets.kept
    have hsrc : Inside (d * w) h (y + charH, x) := ⟨hy, by dsimp only; omega⟩
    have hdst : Inside (d * w) h (y, x) := ⟨by dsimp only; omega, by dsimp only; omega⟩
    have hfresh : byte t (y + charH, x) = byte s (y + charH, x) := by
      refine hsets.outside _ hsrc ?_
      rintro ⟨j, _, _, heq⟩
      have hrow : y + charH = y := congrArg Prod.fst heq
      simp only [charH] at hrow
      omega
    have hread := readByte_bytes hsurface hsrc
    rw [copyByte, hread, Option.bind_some]
    exact writeByte_bytes hsurface hdst hfresh.symm
  obtain ⟨t, ht, hsets⟩ := hloop
  exact ⟨t, ht, hsets.congr (fun p hp => row_places hp.2) fun _ _ _ => rfl⟩

theorem copyRows_bytes (hs : Surface d w h s) :
    ∃ t, forUp? copyRow 0 (h - charH) s = some t ∧ SetsScreen d w h
      (fun p => p.1 + charH < h) (fun p => byte s (p.1 + charH, p.2)) s t := by
  have hloop : ∃ t, forUp? copyRow 0 (h - charH) s = some t ∧ SetsScreen d w h
      (fun p => ∃ y, 0 ≤ y ∧ y < 0 + (h - charH) ∧ p.1 = y)
      (fun p => byte s (p.1 + charH, p.2)) s t := by
    refine screen_loop 0 (h - charH) fun y t _ hy hsets => ?_
    obtain ⟨u, hu, hrow⟩ := copyRow_bytes (y := y) (hs.of_painted hsets.kept) (by omega)
    refine ⟨u, hu, hrow.congr (fun _ _ => Iff.rfl) fun p hp hat => ?_⟩
    refine hsets.outside _ ⟨by dsimp only; omega, hp.2⟩ ?_
    -- the row below has not been overwritten yet
    rintro ⟨j, _, hj, heq⟩
    dsimp only at heq
    omega
  obtain ⟨t, ht, hsets⟩ := hloop
  refine ⟨t, ht, hsets.congr (fun p _ => ?_) fun _ _ _ => rfl⟩
  rw [rows_places]
  omega

/-- Scrolling copies all pixel rows but the last 16 and fills these. -/
theorem gfxScroll_rows (hs : Surface d w h s) (hlt : h < 4294967296) (htall : charH ≤ h) :
    gfxScroll s =
    (forUp? copyRow 0 (h - charH) s).bind (forUp? fillRow (h - charH) charH) := by
  simp only [charH] at htall
  have htop : u32 (s.fbHeight + 4294967296 - charH) = h - charH := by
    rw [hs.height]
    simp only [u32, charH]
    omega
  have hrest : h - (h - charH) = charH := by
    simp only [charH]
    omega
  rw [gfxScroll, htop]
  rw [hs.height, hrest]

/-- The whole screen goes up by one text row. -/
theorem gfxScroll_bytes (hs : Surface d w h s) (hlt : h < 4294967296)
    (hroom : 4 * w ≤ s.fbPitch) (htall : charH ≤ h) :
    ∃ t, gfxScroll s = some t ∧ SetsScreen d w h (fun _ => True)
      (fun p => if p.1 + charH < h then byte s (p.1 + charH, p.2) else fillByte s p) s t := by
  obtain ⟨t, ht, hcopied⟩ := copyRows_bytes hs
  have hlast : h - charH + charH ≤ h := by omega
  have hsurface := hs.of_painted hcopied.kept
  have hsame : fillByte t = fillByte s ∧ t.fbPitch = s.fbPitch := by
    obtain ⟨m, rfl⟩ := hcopied.kept
    exact ⟨rfl, rfl⟩
  obtain ⟨u, hu, hfilled⟩ := fillRows_bytes hsurface (by rwa [hsame.2]) hlast
  refine ⟨u, ?_, painted_trans hcopied.kept hfilled.kept, fun p hp _ => ?_,
    fun _ _ hnot => absurd trivial hnot⟩
  · rw [gfxScroll_rows hs hlt htall, ht, Option.bind_some, hu]
  · have hp' := hp.1
    by_cases hup : p.1 + charH < h
    · rw [if_pos hup, hfilled.outside p hp (by omega), hcopied.inside p hp hup]
    · rw [if_neg hup, hfilled.inside p hp (by omega), hsame.1]

/-- Where four bytes a pixel do not fit in a row, the last row cannot be filled. -/
theorem gfxScroll_none (hs : Surface d w h s) (hlt : h < 4294967296)
    (hroom : s.fbPitch < 4 * w) (htall : charH ≤ h) : gfxScroll s = none := by
  have hfits := hs.fits
  rw [Nat.mul_comm] at hfits
  rw [gfxScroll_rows hs hlt htall]
  obtain ⟨t, ht, hcopied⟩ := copyRows_bytes hs
  rw [ht, Option.bind_some]
  refine loop_none (i := h - 1) (fun _ _ _ => fillRow_painted)
    (Nat.sub_le_sub_left (by decide) h) ?_ fun u hu => ?_
  · simp only [charH] at htall ⊢
    omega
  · -- one of the pixels takes the first byte behind the framebuffer
    have hsurface := hs.of_painted (painted_trans hcopied.kept hu)
    obtain ⟨m, rfl⟩ := painted_trans hcopied.kept hu
    refine loop_none (i := s.fbPitch / 4) (fun _ _ _ => writePixel_painted) (Nat.zero_le _) ?_
      fun v hv => ?_
    · dsimp only
      rw [hs.width]
      omega
    · obtain ⟨m', rfl⟩ := hv
      refine if_neg fun hin => ?_
      have hlast := hin (s.fbPitch % 4) (Nat.mod_lt _ (by decide))
      have hrow : (h - 1) * s.fbPitch + s.fbPitch = h * s.fbPitch := by
        rw [← Nat.succ_mul]
        congr 1
        simp only [charH] at htall
        omega
      have hoff : (h - 1) * s.fbPitch + 4 * (s.fbPitch / 4) + s.fbPitch % 4 = h * s.fbPitch := by
        omega
      dsimp only at hlast
      rw [hoff, u32_of_lt hfits, hs.height, Nat.mul_comm] at hlast
      exact Nat.lt_irrefl _ hlast

end Rows

end Gfx
