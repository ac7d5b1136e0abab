import Nyrix.Base.Inversion
import Nyrix.Base.PartialRuns
import Nyrix.GfxBounds

/-!
# The cursor over the picture

The cursor is drawn by inverting its cell in the framebuffer, and hidden by inverting it again.
Whatever is drawn in between is drawn as if there were no cursor; only `gfx_clear` does not hide
it, and paints over it.
-/

namespace Gfx

open BoundedLoop ByteMemory Inversion PartialRuns

inductive Draw where
  | putchar (c : BitVec 8)
  | clear
  | setColor (fg bg : BitVec 32)
  | moveCursor (x y : Nat)

def draw : Draw → State → Option State
  | .putchar c => gfxPutchar c
  | .clear => gfxClear
  | .setColor fg bg => fun s => some (gfxSetColor fg bg s)
  | .moveCursor x y => gfxMoveCursor x y

/-- The same without the cursor. -/
def drawClean : Draw → State → Option State
  | .putchar c => fun s => putGlyph c (toSerial c s)
  | .clear => fun s => (forUp? fillRow 0 s.fbHeight s).map fun s =>
      { s with cursorX := 0, cursorY := 0 }
  | .setColor fg bg => fun s => some (gfxSetColor fg bg s)
  | .moveCursor x y => fun s => some { s with cursorX := x, cursorY := y }

/-- The bytes of the pixels of the cursor cell. -/
def cursorCell (s : State) (a : BitVec 32) : Bool :=
  (List.range charH).any fun y => (List.range charW).any fun x =>
    wordAt (cellOffset s s.cursorX s.cursorY y x) a

/-- The bytes of a set are inverted. -/
def State.inverted (p : BitVec 32 → Bool) (s : State) : State :=
  { s with framebuffer := invertOn p s.framebuffer }

/-- The picture `u` with the cursor on it. In a framebuffer that fits the address space this is
its cell inverted. -/
structure ShowsCursor (u t : State) : Prop where
  shown : gfxShowCursor u = some t
  cell : u.fbPitch * u.fbHeight ≤ 4294967296 → t = u.inverted (cursorCell u)

/-- The bytes a row of `gfxInvertCell` meets an odd number of times. -/
def rowBits (s : State) (cx cy y : Nat) : Nat → BitVec 32 → Bool :=
  odd fun x => wordAt (cellOffset s cx cy y x)

def cellBits (s : State) (cx cy : Nat) : Nat → BitVec 32 → Bool :=
  odd fun y => rowBits s cx cy y charW

section Cell

variable {s t : State} {cx cy : Nat}

theorem inverted_inverted (p q : BitVec 32 → Bool) (s : State) :
    (s.inverted q).inverted p = s.inverted fun a => q a ^^ p a := by
  rw [State.inverted, State.inverted, invertOn_invertOn, State.inverted]

theorem invertPixel_eq {y x : Nat} (h : InFrame s (cellOffset s cx cy y x) 4) :
    invertPixel cx cy y x s = some (s.inverted (wordAt (cellOffset s cx cy y x))) := by
  rw [invertPixel, readPixel, if_pos h, Option.bind_some, writePixel, if_pos h, store32_not,
    State.inverted]

theorem invertRow_eq (h : CellIn s cx cy) {y : Nat} (hy : y < charH) (p : BitVec 32 → Bool) :
    forUp? (invertPixel cx cy y) 0 charW (s.inverted p) =
      some ((s.inverted p).inverted (rowBits s cx cy y charW)) := by
  obtain ⟨u, hu, hQ⟩ := forUp?_induct (invertPixel cx cy y)
    (fun x u => u = (s.inverted p).inverted (rowBits s cx cy y x)) 0 charW (s.inverted p) rfl
    (by
      rintro x u _ hx rfl
      have hin := h y hy x (by omega)
      exact ⟨_, invertPixel_eq hin, inverted_inverted _ _ _⟩)
  rw [hu, hQ]
  rfl

theorem gfxInvertCell_eq (h : CellIn s cx cy) :
    gfxInvertCell cx cy s = some (s.inverted (cellBits s cx cy charH)) := by
  obtain ⟨t, ht, hP⟩ := forUp?_induct (fun y => forUp? (invertPixel cx cy y) 0 charW)
    (fun y t => t = s.inverted (cellBits s cx cy y)) 0 charH s rfl
    (by
      rintro y t _ hy rfl
      exact ⟨_, invertRow_eq h (by omega) _, inverted_inverted _ _ _⟩)
  rw [gfxInvertCell, eachPixel, ht, hP]
  rfl

theorem cellIn_of_some (h : gfxInvertCell cx cy s = some t) : CellIn s cx cy := by
  by_contra hout
  rw [gfxInvertCell_none hout] at h
  cases h

/-- A cell inverted twice is as it was. -/
theorem gfxInvertCell_twice (h : gfxInvertCell cx cy s = some t) :
    gfxInvertCell cx cy t = some s := by
  have hin := cellIn_of_some h
  rw [gfxInvertCell_eq hin] at h
  obtain rfl := Option.some.inj h
  have hin' : CellIn (s.inverted (cellBits s cx cy charH)) cx cy := hin
  have hbits : cellBits (s.inverted (cellBits s cx cy charH)) cx cy charH =
      cellBits s cx cy charH := rfl
  rw [gfxInvertCell_eq hin', hbits, State.inverted, State.inverted, invertOn_self]

end Cell

section Step

variable {s t u : State}

/-- The cursor shown is hidden again. -/
theorem gfxHideCursor_shown (h : gfxShowCursor u = some t) : gfxHideCursor t = some u := by
  have htwice := gfxInvertCell_twice h
  obtain ⟨m, rfl⟩ := gfxInvertCell_painted h
  exact htwice

theorem gfxPutchar_shown (c : BitVec 8) (h : gfxShowCursor u = some t) :
    gfxPutchar c t = (drawClean (.putchar c) u).bind gfxShowCursor := by
  rw [gfxPutchar, gfxHideCursor_shown h, Option.bind_some, drawClean]

theorem gfxMoveCursor_shown (x y : Nat) (h : gfxShowCursor u = some t) :
    gfxMoveCursor x y t = (drawClean (.moveCursor x y) u).bind gfxShowCursor := by
  have hhide : gfxInvertCell t.cursorX t.cursorY t = some u := gfxHideCursor_shown h
  rw [gfxMoveCursor, hhide, Option.bind_some, drawClean, Option.bind_some, gfxShowCursor]

/-- The colors do not matter for the cursor. -/
theorem gfxSetColor_shown (fg bg : BitVec 32) (h : gfxShowCursor u = some t) :
    gfxShowCursor (gfxSetColor fg bg u) = some (gfxSetColor fg bg t) := by
  have hin := cellIn_of_some h
  have hin' : CellIn (gfxSetColor fg bg u) u.cursorX u.cursorY := hin
  have hbits : cellBits (gfxSetColor fg bg u) u.cursorX u.cursorY charH =
      cellBits u u.cursorX u.cursorY charH := rfl
  have hx : (gfxSetColor fg bg u).cursorX = u.cursorX := rfl
  have hy : (gfxSetColor fg bg u).cursorY = u.cursorY := rfl
  rw [gfxShowCursor, gfxInvertCell_eq hin] at h
  rw [gfxShowCursor, hx, hy, gfxInvertCell_eq hin', hbits, ← Option.some.inj h]
  generalize cellBits u u.cursorX u.cursorY charH = p
  rfl

/-- Two framebuffers of the geometry of `g` that hold the same bytes in a set. -/
structure Agree (g : State) (A : BitVec 32 → Prop) (s t : State) : Prop where
  left : Painted g s
  right : Painted g t
  same : ∀ a, A a → t.framebuffer a = s.framebuffer a

theorem writePixel_agree {g : State} {A : BitVec 32 → Prop} {off : Nat} {v : BitVec 32}
    {s' : State} (h : Agree g A s t) (hs : writePixel off v s = some s') :
    ∃ t', writePixel off v t = some t' ∧ Agree g (fun a => A a ∨ wordAt off a = true) s' t' := by
  obtain ⟨⟨m, rfl⟩, ⟨m', rfl⟩, hsame⟩ := h
  rw [writePixel] at hs
  split_ifs at hs with hin
  obtain rfl := Option.some.inj hs
  have hin' : InFrame { g with framebuffer := m' } off 4 := hin
  refine ⟨_, if_pos hin', ⟨_, rfl⟩, ⟨_, rfl⟩, fun a ha => ?_⟩
  dsimp only
  have haddr : BitVec.ofNat 32 a.toNat = a := by rw [BitVec.ofNat_toNat, BitVec.setWidth_eq]
  by_cases hword : Sep off 4 a.toNat 1
  · have hm := store32_frame m off v a.toNat hword
    have hm' := store32_frame m' off v a.toNat hword
    rw [load8, load8, haddr] at hm hm'
    rw [hm, hm']
    refine hsame a (ha.resolve_right fun hon => ?_)
    obtain ⟨i, hi, he⟩ := wordAt_iff.mp hon
    refine hword i hi 0 (by decide) ?_
    rw [he, BitVec.toNat_ofNat]
    omega
  · have hboth := load8_store32_inside m' m v hword
    rwa [load8, load8, haddr] at hboth

/-- A loop of such steps. -/
theorem loop_agree {g : State} {body : Nat → State → Option State} {W : Nat → BitVec 32 → Prop}
    (hbody : ∀ i A s t s', Agree g A s t → body i s = some s' →
      ∃ t', body i t = some t' ∧ Agree g (fun a => A a ∨ W i a) s' t')
    (lo n : Nat) {A : BitVec 32 → Prop} {s' : State} (h : Agree g A s t)
    (hs : forUp? body lo n s = some s') : ∃ t', forUp? body lo n t = some t' ∧
      Agree g (fun a => A a ∨ ∃ i, lo ≤ i ∧ i < lo + n ∧ W i a) s' t' := by
  induction n generalizing lo A s t with
  | zero =>
    obtain rfl := Option.some.inj hs
    refine ⟨t, rfl, h.left, h.right, fun a ha => h.same a (ha.resolve_right ?_)⟩
    rintro ⟨i, hlo, hi, _⟩
    omega
  | succ n ih =>
    rw [forUp?, Option.bind_eq_some_iff] at hs
    obtain ⟨s₁, hs₁, hrest⟩ := hs
    obtain ⟨t₁, ht₁, hagree⟩ := hbody lo A s t s₁ h hs₁
    obtain ⟨t', ht', hagree'⟩ := ih (lo + 1) hagree hrest
    refine ⟨t', by rw [forUp?, ht₁, Option.bind_some, ht'], hagree'.left, hagree'.right,
      fun a ha => hagree'.same a ?_⟩
    obtain ha | ⟨i, hlo, hi, hW⟩ := ha
    · exact .inl (.inl ha)
    · by_cases heq : i = lo
      · exact .inl (.inr (heq ▸ hW))
      · exact .inr ⟨i, by omega, by omega, hW⟩

theorem fillRow_agree {g : State} {A : BitVec 32 → Prop} (y : Nat) {s' : State}
    (h : Agree g A s t) (hs : fillRow y s = some s') : ∃ t', fillRow y t = some t' ∧
      Agree g (fun a => A a ∨ ∃ x, 0 ≤ x ∧ x < 0 + g.fbWidth ∧
        wordAt (y * g.fbPitch + 4 * x) a = true) s' t' := by
  have hbody : ∀ x A s t s', Agree g A s t →
      writePixel (y * s.fbPitch + 4 * x) s.bgColor s = some s' →
      ∃ t', writePixel (y * t.fbPitch + 4 * x) t.bgColor t = some t' ∧
        Agree g (fun a => A a ∨ wordAt (y * g.fbPitch + 4 * x) a = true) s' t' := by
    intro x A s t s' hagree hx
    obtain ⟨⟨m, rfl⟩, ⟨m', rfl⟩, hsame⟩ := hagree
    exact writePixel_agree ⟨⟨m, rfl⟩, ⟨m', rfl⟩, hsame⟩ hx
  obtain ⟨⟨m, rfl⟩, ⟨m', rfl⟩, hsame⟩ := h
  exact loop_agree hbody 0 g.fbWidth ⟨⟨m, rfl⟩, ⟨m', rfl⟩, hsame⟩ hs

/-- `gfx_clear` paints over the cursor wherever it is on screen. -/
theorem gfxClear_shown {t' : State} (hbpp : u.fbBpp = 32) (hon : OnScreen u)
    (h : gfxShowCursor u = some t) (ht : gfxClear t = some t') :
    ∃ u', drawClean .clear u = some u' ∧ gfxShowCursor u' = some t' := by
  have hin := cellIn_of_some h
  rw [gfxShowCursor, gfxInvertCell_eq hin] at h
  have hfb : t.framebuffer =
      invertOn (cellBits u u.cursorX u.cursorY charH) u.framebuffer := by
    rw [← Option.some.inj h, State.inverted]
  have hpainted : Painted u t := ⟨_, (Option.some.inj h).symm⟩
  have hagree : Agree u (fun a => cellBits u u.cursorX u.cursorY charH a = false) t u := by
    refine ⟨hpainted, painted_refl u, fun a ha => ?_⟩
    rw [hfb, invertOn, ha]
    rfl
  have hheight : t.fbHeight = u.fbHeight := by
    obtain ⟨m, rfl⟩ := hpainted
    rfl
  rw [gfxClear, hheight, Option.bind_eq_some_iff] at ht
  obtain ⟨t₁, ht₁, hshow⟩ := ht
  obtain ⟨u₁, hu₁, hfilled⟩ :=
    loop_agree (fun y A s t s' => fillRow_agree y) 0 u.fbHeight hagree ht₁
  have hsame : u₁ = t₁ := by
    have hall : ∀ a, u₁.framebuffer a = t₁.framebuffer a := by
      intro a
      refine hfilled.same a ?_
      cases hbit : cellBits u u.cursorX u.cursorY charH a with
      | false => exact .inl rfl
      | true =>
        obtain ⟨y, hy, hrow⟩ := odd_exists hbit
        obtain ⟨x, hx, hword⟩ := odd_exists hrow
        have hx' := hon.1
        have hy' := hon.2
        simp only [charH] at hy
        simp only [charW] at hx
        refine .inr ⟨u.cursorY + y, Nat.zero_le _, by omega, u.cursorX + x, Nat.zero_le _,
          by omega, ?_⟩
        have hoff : (u.cursorY + y) * u.fbPitch + 4 * (u.cursorX + x) =
            cellOffset u u.cursorX u.cursorY y x := by
          rw [cellOffset, hbpp]
          omega
        rw [hoff]
        exact hword
    obtain ⟨⟨m, rfl⟩, ⟨m', rfl⟩, _⟩ := hfilled
    have hm : m' = m := funext hall
    rw [hm]
  refine ⟨_, ?_, hsame ▸ hshow⟩
  rw [drawClean]
  dsimp only
  rw [hu₁, Option.map_some]

end Step

/-- A place in rows of a fixed length has one row and one column. -/
theorem row_unique {P q r q' r' : Nat} (h : q * P + r = q' * P + r') (hr : r < P) (hr' : r' < P) :
    q = q' ∧ r = r' := by
  have hle : ∀ a b : Nat, a < b → a * P + P ≤ b * P := by
    intro a b hab
    rw [← Nat.succ_mul]
    exact Nat.mul_le_mul_right P hab
  rcases Nat.lt_trichotomy q q' with hlt | rfl | hgt
  · have := hle q q' hlt
    omega
  · exact ⟨rfl, by omega⟩
  · have := hle q' q hgt
    omega

section Exact

variable {u : State}

/-- The pixels of the cursor cell have no byte in common. -/
theorem cursor_pixel_unique (hbpp : u.fbBpp = 32) (hrows : 4 * u.fbWidth ≤ u.fbPitch)
    (hon : OnScreen u) (hfits : u.fbPitch * u.fbHeight ≤ 4294967296) {a : BitVec 32}
    {y x y' x' : Nat} (hy : y < charH) (hx : x < charW) (hy' : y' < charH) (hx' : x' < charW)
    (h : wordAt (cellOffset u u.cursorX u.cursorY y x) a = true)
    (h' : wordAt (cellOffset u u.cursorX u.cursorY y' x') a = true) : y = y' ∧ x = x' := by
  obtain ⟨honx, hony⟩ := hon
  simp only [charH] at hy hy'
  simp only [charW] at hx hx'
  have haddr : ∀ {y x}, y < 16 → x < 8 → wordAt (cellOffset u u.cursorX u.cursorY y x) a = true →
      ∃ i < 4, a.toNat = (u.cursorY + y) * u.fbPitch + (4 * u.cursorX + 4 * x + i) := by
    intro y x hy hx hword
    obtain ⟨i, hi, he⟩ := wordAt_iff.mp hword
    have hrow : (u.cursorY + y) * u.fbPitch + u.fbPitch ≤ u.fbHeight * u.fbPitch := by
      rw [← Nat.succ_mul]
      exact Nat.mul_le_mul_right _ (by omega)
    rw [Nat.mul_comm u.fbHeight] at hrow
    refine ⟨i, hi, ?_⟩
    rw [he, BitVec.toNat_ofNat, cellOffset, hbpp, Nat.mod_eq_of_lt (by omega)]
    omega
  obtain ⟨i, hi, ha⟩ := haddr hy hx h
  obtain ⟨i', hi', ha'⟩ := haddr hy' hx' h'
  obtain ⟨hq, hr⟩ := row_unique (ha.symm.trans ha') (by omega) (by omega)
  omega

theorem cellBits_cursor (hbpp : u.fbBpp = 32) (hrows : 4 * u.fbWidth ≤ u.fbPitch)
    (hon : OnScreen u) (hfits : u.fbPitch * u.fbHeight ≤ 4294967296) :
    cellBits u u.cursorX u.cursorY charH = cursorCell u := by
  funext a
  have hunique : ∀ {y x y' x' : Nat}, y < charH → x < charW → y' < charH → x' < charW →
      wordAt (cellOffset u u.cursorX u.cursorY y x) a = true →
      wordAt (cellOffset u u.cursorX u.cursorY y' x') a = true → y = y' ∧ x = x' :=
    cursor_pixel_unique hbpp hrows hon hfits
  have hrow : ∀ y < charH, rowBits u u.cursorX u.cursorY y charW a = true ↔
      ∃ x < charW, wordAt (cellOffset u u.cursorX u.cursorY y x) a = true :=
    fun y hy => odd_iff fun x hx x' hx' h h' => (hunique hy hx hy hx' h h').2
  have hcell : cellBits u u.cursorX u.cursorY charH a = true ↔
      ∃ y < charH, rowBits u u.cursorX u.cursorY y charW a = true := by
    refine odd_iff fun y hy y' hy' h h' => ?_
    obtain ⟨x, hx, hword⟩ := (hrow y hy).mp h
    obtain ⟨x', hx', hword'⟩ := (hrow y' hy').mp h'
    exact (hunique hy hx hy' hx' hword hword').1
  rw [Bool.eq_iff_iff, hcell, cursorCell]
  simp only [List.any_eq_true, List.mem_range]
  constructor
  · rintro ⟨y, hy, h⟩
    exact ⟨y, hy, (hrow y hy).mp h⟩
  · rintro ⟨y, hy, h⟩
    exact ⟨y, hy, (hrow y hy).mpr h⟩

end Exact

section Geometry

variable {s t u : State}

theorem writeByte_painted {off : Nat} {v : BitVec 8} (h : writeByte off v s = some t) :
    Painted s t := by
  rw [writeByte] at h
  split_ifs at h
  exact ⟨_, (Option.some.inj h).symm⟩

theorem copyByte_painted {y x : Nat} (h : copyByte y x s = some t) : Painted s t := by
  rw [copyByte, Option.bind_eq_some_iff] at h
  obtain ⟨v, _, hwrite⟩ := h
  exact writeByte_painted hwrite

theorem fillRow_painted {y : Nat} (h : fillRow y s = some t) : Painted s t :=
  loop_painted (fun _ _ _ => writePixel_painted) h

theorem gfxScroll_painted (h : gfxScroll s = some t) : Painted s t := by
  rw [gfxScroll, Option.bind_eq_some_iff] at h
  obtain ⟨u, hcopy, hfill⟩ := h
  have hcopied : Painted s u :=
    loop_painted (fun _ _ _ => loop_painted fun _ _ _ => copyByte_painted) hcopy
  exact painted_trans hcopied (loop_painted (fun _ _ _ => fillRow_painted) hfill)

theorem eachPixel_painted {off : Nat → Nat → State → Nat} {v : Nat → Nat → State → BitVec 32}
    (h : eachPixel (fun y x s => writePixel (off y x s) (v y x s) s) s = some t) : Painted s t :=
  loop_painted (fun _ _ _ => loop_painted fun _ _ _ => writePixel_painted) h

/-- The screen is the same. -/
structure SameScreen (s t : State) : Prop where
  pitch : t.fbPitch = s.fbPitch
  width : t.fbWidth = s.fbWidth
  height : t.fbHeight = s.fbHeight
  bpp : t.fbBpp = s.fbBpp

theorem SameScreen.trans (h : SameScreen s t) (h' : SameScreen t u) : SameScreen s u :=
  ⟨h'.pitch.trans h.pitch, h'.width.trans h.width, h'.height.trans h.height, h'.bpp.trans h.bpp⟩

theorem Painted.sameScreen (h : Painted s t) : SameScreen s t := by
  obtain ⟨m, rfl⟩ := h
  exact ⟨rfl, rfl, rfl, rfl⟩

theorem Moved.sameScreen {x y : Nat} (h : Moved s x y t) : SameScreen s t := by
  obtain ⟨m, p, rfl⟩ := h
  exact ⟨rfl, rfl, rfl, rfl⟩

theorem lineFeed_sameScreen (h : lineFeed s = some t) : SameScreen s t := by
  have hmoved := (moved_cursor s 0 (u32 (s.cursorY + charH))).sameScreen
  rw [lineFeed] at h
  dsimp only at h
  split_ifs at h
  · exact hmoved.trans (gfxScroll_painted h).sameScreen
  · exact Option.some.inj h ▸ hmoved

theorem stepForward_sameScreen (h : stepForward s = some t) : SameScreen s t := by
  have hmoved := (moved_cursor s (u32 (s.cursorX + charW)) s.cursorY).sameScreen
  rw [stepForward] at h
  dsimp only at h
  split_ifs at h
  · exact hmoved.trans (lineFeed_sameScreen h)
  · exact Option.some.inj h ▸ hmoved

theorem putGlyph_sameScreen {c : BitVec 8} (h : putGlyph c s = some t) : SameScreen s t := by
  rw [putGlyph] at h
  split_ifs at h
  · exact lineFeed_sameScreen h
  · exact (stepBack_moved s).sameScreen.trans (eachPixel_painted h).sameScreen
  · rw [Option.bind_eq_some_iff] at h
    obtain ⟨u, hdraw, hstep⟩ := h
    exact (eachPixel_painted hdraw).sameScreen.trans (stepForward_sameScreen hstep)

theorem drawClean_sameScreen {d : Draw} (h : drawClean d s = some t) : SameScreen s t := by
  cases d with
  | putchar c => exact (toSerial_moved c s).sameScreen.trans (putGlyph_sameScreen h)
  | clear =>
    rw [drawClean, Option.map_eq_some_iff] at h
    obtain ⟨u, hfill, rfl⟩ := h
    exact (loop_painted (fun _ _ _ => fillRow_painted) hfill).sameScreen.trans
      (moved_cursor u 0 0).sameScreen
  | setColor fg bg => exact Option.some.inj h ▸ ⟨rfl, rfl, rfl, rfl⟩
  | moveCursor x y => exact Option.some.inj h ▸ (moved_cursor s x y).sameScreen

end Geometry

/-- A framebuffer with 32 bits per pixel and rows that do not overlap. -/
structure Pixels (s : State) : Prop where
  bpp : s.fbBpp = 32
  rows : 4 * s.fbWidth ≤ s.fbPitch

theorem Pixels.of_same {s t : State} (h : Pixels s) (hs : SameScreen s t) : Pixels t := by
  refine ⟨hs.bpp.trans h.bpp, ?_⟩
  rw [hs.width, hs.pitch]
  exact h.rows

section Run

variable {s t u : State}

theorem onScreen_shown (h : gfxShowCursor u = some t) : OnScreen t ↔ OnScreen u := by
  obtain ⟨m, rfl⟩ := gfxInvertCell_painted h
  exact Iff.rfl

/-- What one call draws under the cursor. -/
theorem draw_shown {d : Draw} {t' : State} (hpixels : Pixels u) (hon : OnScreen u)
    (h : gfxShowCursor u = some t) (ht : draw d t = some t') :
    ∃ u', drawClean d u = some u' ∧ gfxShowCursor u' = some t' := by
  cases d with
  | putchar c => exact Option.bind_eq_some_iff.mp ((gfxPutchar_shown c h).symm.trans ht)
  | clear => exact gfxClear_shown hpixels.bpp hon h ht
  | setColor fg bg =>
    obtain rfl := Option.some.inj ht
    exact ⟨_, rfl, gfxSetColor_shown fg bg h⟩
  | moveCursor x y => exact Option.bind_eq_some_iff.mp ((gfxMoveCursor_shown x y h).symm.trans ht)

theorem showsCursor_of_shown (hpixels : Pixels u) (hon : OnScreen u)
    (h : gfxShowCursor u = some t) : ShowsCursor u t := by
  refine ⟨h, fun hfits => ?_⟩
  rw [gfxShowCursor, gfxInvertCell_eq (cellIn_of_some h),
    cellBits_cursor hpixels.bpp hpixels.rows hon hfits] at h
  exact (Option.some.inj h).symm

/-- After every call the framebuffer is what the calls draw without a cursor, with the cursor
cell inverted, as long as the cursor stays on screen. -/
theorem overlay_run {calls : List Draw} (hpixels : Pixels s) (hclear : draw .clear s = some t)
    (hkeeps : Keeps draw OnScreen calls t) : ∀ done, done <+: calls → ∃ t' u',
      runAll draw (.clear :: done) s = some t' ∧ runAll drawClean (.clear :: done) s = some u' ∧
        ShowsCursor u' t' := by
  have hstart : draw .clear s = (drawClean .clear s).bind gfxShowCursor := by
    rw [draw, gfxClear, drawClean, Option.bind_map]
    rfl
  obtain ⟨u, hu, hshown⟩ := Option.bind_eq_some_iff.mp (hstart.symm.trans hclear)
  have hstep : ∀ d u t t', Pixels u ∧ gfxShowCursor u = some t → OnScreen t →
      draw d t = some t' → ∃ u', drawClean d u = some u' ∧
        Pixels u' ∧ gfxShowCursor u' = some t' := by
    rintro d u t t' ⟨hpixels, hshown⟩ hon ht
    obtain ⟨u', hu', hshown'⟩ := draw_shown hpixels ((onScreen_shown hshown).mp hon) hshown ht
    exact ⟨u', hu', hpixels.of_same (drawClean_sameScreen hu'), hshown'⟩
  intro done hdone
  obtain ⟨t', u', ht', hon, hu', hpixels', hshown'⟩ := hkeeps.simulates hstep
    ⟨hpixels.of_same (drawClean_sameScreen hu), hshown⟩ done hdone
  refine ⟨t', u', ?_, ?_, showsCursor_of_shown hpixels' ((onScreen_shown hshown').mp hon) hshown'⟩
  · rw [runAll, hclear, Option.bind_some, ht']
  · rw [runAll, hu, Option.bind_some, hu']

/-- A screen of 640 by 480 pixels. -/
def wide : State :=
  { State.boot (fun _ => 0) with fbPitch := 2560, fbWidth := 640, fbHeight := 480, fbBpp := 32 }

/-- On that screen, cleared, the letter A is written. -/
theorem overlay_run_written : ∃ t, draw .clear wide = some t ∧
    ∀ done, done <+: [.putchar 0x41] → ∃ t' u', runAll draw (.clear :: done) wide = some t' ∧
      runAll drawClean (.clear :: done) wide = some u' ∧ ShowsCursor u' t' := by
  have hscreen : Screen wide :=
    ⟨⟨by decide, by decide, by decide, by decide, by decide⟩, rfl⟩
  obtain ⟨t, ht, hon, hmoved⟩ := gfxClear_works hscreen.frame hscreen.geometry.wide
  have hroom : Room t.fbWidth t.fbHeight 0x41 t.cursorX t.cursorY := by
    obtain ⟨m, p, rfl⟩ := hmoved
    change Room 640 480 0x41 0 0
    decide
  obtain ⟨u, hu, hon', _⟩ := gfxPutchar_room (hscreen.of_moved hmoved) hon hroom
  refine ⟨t, ht, overlay_run ⟨rfl, by decide⟩ ht ?_⟩
  exact keeps_cons.mpr ⟨hon, u, hu, keeps_nil.mpr hon'⟩

end Run

end Gfx
