import Mathlib.Data.Fintype.Card
import Mathlib.Data.Fintype.Prod
import Mathlib.Data.Fintype.Pigeonhole
import Nyrix.GfxBounds

/-!
# Framebuffers of other depths

Addresses are computed with the announced bytes per pixel, but a pixel is always written as four
bytes. With 32 bits per pixel every cell keeps to its own bytes; with 16 or 24 it spills over.
-/

namespace Gfx

open BoundedLoop ByteMemory

/-- A framebuffer the boot loader may announce, of whole bytes per pixel. -/
structure Announced (pitch width height bpp : Nat) : Prop where
  depth : bpp = 16 ∨ bpp = 24 ∨ bpp = 32
  wide : 8 ≤ width
  tall : 16 ≤ height
  rows : width * (bpp / 8) ≤ pitch
  pitch_lt : pitch < 4294967296
  height_lt : height < 4294967296

/-- The framebuffer was announced so. -/
structure HasGeometry (pitch width height bpp : Nat) (s : State) : Prop where
  pitch : s.fbPitch = pitch
  width : s.fbWidth = width
  height : s.fbHeight = height
  bpp : s.fbBpp = bpp

/-- The addresses of the bytes of the pixels of a cell. -/
def OwnByte (s : State) (cx cy a : Nat) : Prop :=
  ∃ y < charH, ∃ j < charW * (s.fbBpp / 8),
    a = u32 ((cy + y) * s.fbPitch + cx * (s.fbBpp / 8) + j)

/-- The bytes that are not the cell's own are the same. -/
def OnlyOwn (s : State) (cx cy : Nat) (t : State) : Prop :=
  ∀ a < 4294967296, ¬OwnByte s cx cy a → load8 t.framebuffer a = load8 s.framebuffer a

/-- Nothing outside the announced bytes is accessed, and a cell changes its own bytes only. -/
structure Confined (pitch width height bpp : Nat) : Prop where
  init : ∀ s, ∃ t, gfxInit pitch width height bpp s = some t
  clear : ∀ s, HasGeometry pitch width height bpp s → ∃ t, gfxClear s = some t
  scroll : ∀ s, HasGeometry pitch width height bpp s → ∃ t, gfxScroll s = some t
  invert : ∀ s cx cy, HasGeometry pitch width height bpp s → cx + 8 ≤ width → cy + 16 ≤ height →
    ∃ t, gfxInvertCell cx cy s = some t ∧ OnlyOwn s cx cy t
  draw : ∀ s c, HasGeometry pitch width height bpp s → OnScreen s →
    ∃ t, drawChar c s = some t ∧ OnlyOwn s s.cursorX s.cursorY t
  erase : ∀ s, HasGeometry pitch width height bpp s → OnScreen s →
    ∃ t, eraseCell s = some t ∧ OnlyOwn s s.cursorX s.cursorY t

section Deep

variable {s : State} {cx cy : Nat}

/-- Painted, in the cell's own bytes only. -/
structure PaintsOwn (s : State) (cx cy : Nat) (t : State) : Prop where
  painted : Painted s t
  own : OnlyOwn s cx cy t

theorem eachPixel_own {f : Nat → Nat → State → Option State}
    (h : ∀ y < charH, ∀ x < charW, ∀ t, PaintsOwn s cx cy t →
      ∃ u, f y x t = some u ∧ PaintsOwn s cx cy u) :
    ∃ t, eachPixel f s = some t ∧ PaintsOwn s cx cy t := by
  refine forUp?_induct (fun y => forUp? (f y) 0 charW) (fun _ => PaintsOwn s cx cy) 0 charH s
    ⟨painted_refl s, fun _ _ _ => rfl⟩ ?_
  intro y t _ hy ht
  refine forUp?_induct (f y) (fun _ => PaintsOwn s cx cy) 0 charW t ht ?_
  intro x u _ hx hu
  exact h y (by omega) x (by omega) u hu

/-- With 32 bits per pixel the four bytes written are those of the pixel. -/
theorem writePixel_own {t : State} {x y : Nat} (hbpp : s.fbBpp = 32) (hin : CellIn s cx cy)
    (hy : y < charH) (hx : x < charW) (v : BitVec 32) (ht : PaintsOwn s cx cy t) :
    ∃ u, writePixel (cellOffset t cx cy y x) v t = some u ∧ PaintsOwn s cx cy u := by
  obtain ⟨⟨m, rfl⟩, hown⟩ := ht
  have hframe : InFrame { s with framebuffer := m } (cellOffset s cx cy y x) 4 := hin y hy x hx
  refine ⟨_, if_pos hframe, ⟨_, rfl⟩, ?_⟩
  intro a ha hnot
  rw [← hown a ha hnot]
  refine store32_frame m (cellOffset s cx cy y x) v a fun i hi j hj he => hnot ?_
  simp only [charW] at hx
  refine ⟨y, hy, 4 * x + i, ?_, ?_⟩
  · rw [hbpp, charW]
    omega
  · have hzero : j = 0 := by omega
    rw [hzero, Nat.add_zero, Nat.mod_eq_of_lt ha] at he
    rw [← he, u32, cellOffset, Nat.add_assoc _ (4 * x)]

theorem gfxInvertCell_own (hbpp : s.fbBpp = 32) (hin : CellIn s cx cy) :
    ∃ t, gfxInvertCell cx cy s = some t ∧ PaintsOwn s cx cy t := by
  refine eachPixel_own fun y hy x hx t ht => ?_
  have hwrite := writePixel_own hbpp hin hy hx
    (~~~load32 t.framebuffer (cellOffset t cx cy y x)) ht
  obtain ⟨⟨m, rfl⟩, -⟩ := ht
  have hframe : InFrame { s with framebuffer := m } (cellOffset s cx cy y x) 4 := hin y hy x hx
  have hread : readPixel { s with framebuffer := m }
      (cellOffset { s with framebuffer := m } cx cy y x) = _ := if_pos hframe
  rw [invertPixel, hread, Option.bind_some]
  exact hwrite

theorem eachPixel_writeOwn (v : Nat → Nat → State → BitVec 32) (hbpp : s.fbBpp = 32)
    (hin : CellIn s s.cursorX s.cursorY) : ∃ t,
      eachPixel (fun y x s => writePixel (cellOffset s s.cursorX s.cursorY y x) (v y x s) s) s =
        some t ∧ PaintsOwn s s.cursorX s.cursorY t := by
  refine eachPixel_own fun y hy x hx t ht => ?_
  have hwrite := writePixel_own hbpp hin hy hx (v y x t) ht
  obtain ⟨⟨m, rfl⟩, -⟩ := ht
  exact hwrite

theorem drawChar_own (c : BitVec 8) (hbpp : s.fbBpp = 32) (hin : CellIn s s.cursorX s.cursorY) :
    ∃ t, drawChar c s = some t ∧ PaintsOwn s s.cursorX s.cursorY t :=
  eachPixel_writeOwn (fun y x s => if fontRow (getFontChar c) y &&& (0x80#8 >>> x) ≠ 0 then
    s.fgColor else s.bgColor) hbpp hin

theorem eraseCell_own (hbpp : s.fbBpp = 32) (hin : CellIn s s.cursorX s.cursorY) :
    ∃ t, eraseCell s = some t ∧ PaintsOwn s s.cursorX s.cursorY t :=
  eachPixel_writeOwn (fun _ _ s => s.bgColor) hbpp hin

/-- With 32 bits per pixel everything stays where it belongs. -/
theorem confined_deep {pitch width height : Nat} (h : Announced pitch width height 32) :
    Confined pitch width height 32 := by
  have hframe : ∀ s, HasGeometry pitch width height 32 s → Frame32 s := by
    intro s hs
    have hrows := h.rows
    refine ⟨hs.bpp, ?_, ?_, ?_, ?_⟩
    · exact hs.height ▸ h.tall
    · rw [hs.width, hs.pitch]
      omega
    · exact hs.pitch ▸ h.pitch_lt
    · exact hs.height ▸ h.height_lt
  constructor
  · intro s
    have hstart := hframe
      { s with fbPitch := pitch, fbWidth := width, fbHeight := height, fbBpp := 32 }
      ⟨rfl, rfl, rfl, rfl⟩
    obtain ⟨t, ht, -⟩ := fillRows_works 0 height hstart (Nat.le_of_eq (Nat.zero_add height))
    exact ⟨_, by rw [gfxInit, ht, Option.map_some]⟩
  · intro s hs
    obtain ⟨t, ht, -⟩ := gfxClear_works (hframe s hs) (hs.width ▸ h.wide)
    exact ⟨t, ht⟩
  · intro s hs
    obtain ⟨t, ht, -⟩ := gfxScroll_works (hframe s hs)
    exact ⟨t, ht⟩
  · intro s cx cy hs hx hy
    rw [← hs.width] at hx
    rw [← hs.height] at hy
    obtain ⟨t, ht, hown⟩ := gfxInvertCell_own hs.bpp (cellIn_onScreen (hframe s hs) hx hy)
    exact ⟨t, ht, hown.own⟩
  · intro s c hs hon
    obtain ⟨t, ht, hown⟩ := drawChar_own c hs.bpp (cellIn_onScreen (hframe s hs) hon.1 hon.2)
    exact ⟨t, ht, hown.own⟩
  · intro s hs hon
    obtain ⟨t, ht, hown⟩ := eraseCell_own hs.bpp (cellIn_onScreen (hframe s hs) hon.1 hon.2)
    exact ⟨t, ht, hown.own⟩

end Deep

/-- Of sixteen ranges of addresses, less than the address space together, one ends where none of
them goes on. -/
theorem exists_rangeEnd {b p n : Nat} (hpos : 0 < n) (hsmall : 16 * n < 4294967296) :
    ∃ y < 16, ∀ z < 16, ∀ j < n, u32 (b + y * p + n) ≠ u32 (b + z * p + j) := by
  by_contra hall
  push Not at hall
  -- otherwise the ranges cover every address from the first one on
  have hcover : ∀ k, ∃ q : Fin 16 × Fin n, u32 (b + k) = u32 (b + q.1 * p + q.2) := by
    intro k
    induction k with
    | zero => exact ⟨(0, ⟨0, hpos⟩), by simp⟩
    | succ k ih =>
      obtain ⟨⟨y, j⟩, hk⟩ := ih
      simp only [u32] at hk
      by_cases hlast : (j : Nat) + 1 < n
      · refine ⟨(y, ⟨j + 1, hlast⟩), ?_⟩
        simp only [u32]
        omega
      · obtain ⟨z, hz, i, hi, hnext⟩ := hall y y.isLt
        refine ⟨(⟨z, hz⟩, ⟨i, hi⟩), ?_⟩
        have hend : (j : Nat) + 1 = n := by omega
        rw [← hnext]
        simp only [u32]
        omega
  choose place hplace using hcover
  have hcard : Fintype.card (Fin 16 × Fin n) < Fintype.card (Fin (16 * n + 1)) := by
    simp
  obtain ⟨i, k, hne, hsame⟩ :=
    Fintype.exists_ne_map_eq_of_card_lt (fun i : Fin (16 * n + 1) => place i) hcard
  have haddr : u32 (b + i) = u32 (b + k) := by
    rw [hplace i, hplace k, show place i = place k from hsame]
  simp only [u32] at haddr
  exact hne (Fin.ext (by omega))

section Shallow

variable {s t u : State}

/-- Zeros are drawn on a set of addresses, and wherever zeros were they still are. -/
structure Zeroes (A : Nat → Prop) (s t : State) : Prop where
  painted : Painted s t
  set : ∀ a, A a → load8 t.framebuffer a = 0
  keeps : ∀ a, load8 s.framebuffer a = 0 → load8 t.framebuffer a = 0

theorem zeroes_loop {g : State} {A : Nat → Nat → Prop} {body : Nat → State → Option State}
    {lo n : Nat} (hbody : ∀ i s t, Painted g s → body i s = some t → Zeroes (A i) s t)
    (hs : Painted g s) (h : forUp? body lo n s = some t) :
    Zeroes (fun a => ∃ i, lo ≤ i ∧ i < lo + n ∧ A i a) s t := by
  induction n generalizing lo s with
  | zero =>
    obtain rfl := Option.some.inj h
    refine ⟨painted_refl s, ?_, fun _ ha => ha⟩
    rintro a ⟨i, hlo, hi, _⟩
    omega
  | succ n ih =>
    rw [forUp?, Option.bind_eq_some_iff] at h
    obtain ⟨u, hu, hrest⟩ := h
    have hone := hbody lo s u hs hu
    have hothers := ih (painted_trans hs hone.painted) hrest
    refine ⟨painted_trans hone.painted hothers.painted, ?_, fun a ha =>
      hothers.keeps a (hone.keeps a ha)⟩
    rintro a ⟨i, hlo, hi, hA⟩
    by_cases hat : i = lo
    · exact hothers.keeps a (hone.set a (hat ▸ hA))
    · exact hothers.set a ⟨i, by omega, by omega, hA⟩

theorem writePixel_zeroes {off : Nat} (h : writePixel off 0 s = some t) :
    Zeroes (· = off) s t := by
  rw [writePixel] at h
  split_ifs at h
  obtain rfl := Option.some.inj h
  have hzero : ∀ i < 4, load8 (store32 s.framebuffer off 0) (off + i) = 0 := by
    intro i hi
    rw [load8_store32 _ _ _ hi, byteOf]
    simp
  refine ⟨⟨_, rfl⟩, ?_, ?_⟩
  · rintro a rfl
    exact hzero 0 (by decide)
  · intro a ha
    by_cases hsep : Sep off 4 a 1
    · exact (store32_frame _ off 0 a hsep).trans ha
    · simp only [ByteMemory.Sep, not_forall, not_not] at hsep
      obtain ⟨i, hi, j, hj, he⟩ := hsep
      have hj0 : j = 0 := by omega
      rw [hj0, Nat.add_zero] at he
      dsimp only
      rw [← load8_mod, ← he, load8_mod]
      exact hzero i hi

/-- A screen of ones, on which both colors are 0. -/
def onesScreen (pitch width height bpp : Nat) : State where
  framebuffer := fun _ => 1
  fbPitch := pitch
  fbWidth := width
  fbHeight := height
  fbBpp := bpp
  fgColor := 0
  bgColor := 0
  cursorX := 0
  cursorY := 0
  serial := { useSerial := false, sent := [] }

/-- A character drawn there leaves a zero at the start of every pixel written. -/
theorem drawChar_zeroes {c : BitVec 8} {pitch width height bpp : Nat}
    (h : drawChar c (onesScreen pitch width height bpp) = some t) {y x : Nat} (hy : y < charH)
    (hx : x < charW) : load8 t.framebuffer (y * pitch + 4 * x) = 0 := by
  have hpixel : ∀ y x s t, Painted (onesScreen pitch width height bpp) s →
      writePixel (cellOffset s s.cursorX s.cursorY y x)
        (if fontRow (getFontChar c) y &&& (0x80#8 >>> x) ≠ 0 then s.fgColor else s.bgColor) s =
          some t → Zeroes (· = y * pitch + 4 * x) s t := by
    intro y x s t hs ht
    obtain ⟨m, rfl⟩ := hs
    have hoff : cellOffset (onesScreen pitch width height bpp) 0 0 y x = y * pitch + 4 * x := by
      simp [cellOffset, onesScreen]
    rw [← hoff]
    refine writePixel_zeroes ?_
    rw [← ht]
    congr 1
    exact (ite_self _).symm
  have hcell := zeroes_loop (fun y s t hs => zeroes_loop (hpixel y) hs)
    (painted_refl _) h
  exact hcell.set _ ⟨y, Nat.zero_le y, by omega, x, Nat.zero_le x, by omega, rfl⟩

/-- With fewer bytes per pixel a character changes bytes that are not its cell's own. -/
theorem not_confined_shallow {pitch width height bpp : Nat}
    (h : Announced pitch width height bpp) (hbpp : bpp ≠ 32) :
    ¬Confined pitch width height bpp := by
  intro hconfined
  have hwide := h.wide
  have htall := h.tall
  -- the first byte behind the cell's part of a row starts one of the eight pixels written
  obtain ⟨x, hx, hxpos, hspill⟩ : ∃ x < charW, 0 < x ∧ 4 * x = charW * (bpp / 8) := by
    rcases h.depth with rfl | rfl | rfl
    · exact ⟨4, by decide, by decide, rfl⟩
    · exact ⟨6, by decide, by decide, rfl⟩
    · exact absurd rfl hbpp
  have hx8 : x < 8 := hx
  obtain ⟨y, hy, hend⟩ := @exists_rangeEnd 0 pitch (4 * x) (by omega) (by omega)
  obtain ⟨t, ht, hown⟩ := hconfined.draw (onesScreen pitch width height bpp) 0x20
    ⟨rfl, rfl, rfl, rfl⟩ ⟨by simpa [onesScreen] using hwide, by simpa [onesScreen] using htall⟩
  have hzero := drawChar_zeroes ht hy hx
  have hlt : u32 (y * pitch + 4 * x) < 4294967296 := Nat.mod_lt _ (by decide)
  have hsame := hown (u32 (y * pitch + 4 * x)) hlt (by
    rintro ⟨z, hz, j, hj, heq⟩
    have hj' : j < 4 * x := by
      rw [hspill]
      exact hj
    refine hend z hz j hj' ?_
    have hcell : (0 + z) * pitch + 0 * (bpp / 8) + j = 0 + z * pitch + j := by simp
    rw [Nat.zero_add, heq, ← hcell]
    rfl)
  have hone : load8 (onesScreen pitch width height bpp).framebuffer (y * pitch + 4 * x) = 1 := rfl
  rw [u32, load8_mod, load8_mod, hzero, hone] at hsame
  exact absurd hsame (by decide)

end Shallow

/-- Every access stays inside the announced bytes, and every cell keeps to its own, exactly with
32 bits per pixel. -/
theorem confined_iff {pitch width height bpp : Nat} (h : Announced pitch width height bpp) :
    Confined pitch width height bpp ↔ bpp = 32 := by
  constructor
  · intro hconfined
    by_contra hbpp
    exact not_confined_shallow h hbpp hconfined
  · rintro rfl
    exact confined_deep h

/-- A mode of 640 by 480 pixels. -/
theorem confined_iff_wide : Confined 2560 640 480 32 := by
  have hmode : Announced 2560 640 480 32 :=
    ⟨Or.inr (Or.inr rfl), by decide, by decide, by decide, by decide, by decide⟩
  exact (confined_iff hmode).mpr rfl

/-- The same with 16 bits per pixel: a character spills over. -/
theorem wide16_spills : ¬∀ pitch width height bpp, Announced pitch width height bpp →
    Confined pitch width height bpp := by
  intro h
  have hmode : Announced 1280 640 480 16 :=
    ⟨Or.inl rfl, by decide, by decide, by decide, by decide, by decide⟩
  exact not_confined_shallow hmode (by decide) (h 1280 640 480 16 hmode)

end Gfx
