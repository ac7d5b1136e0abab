import Nyrix.GfxLine
import Nyrix.GfxRuns
import Nyrix.TerminalRedraw

/-!
# The input line on the framebuffer

In framebuffer mode the row is blanked by printing blanks, and the last of them leads to the next
row, where the screen is scrolled as soon as the cursor comes to the last row. What stands
outside the row of the cursor stays only while there are two more rows below it.
-/

namespace Terminal

open CharBuffer Gfx Overwriting

/-- The terminal draws on the framebuffer, which shows a picture with the cursor on it. -/
structure ShownBy (u : Gfx.State) (s : State) : Prop where
  mode : s.useFramebuffer = true
  shown : gfxShowCursor u = some s.gfx

/-- A way of putting a character on the framebuffer, seen without the cursor. -/
def Plots (put : BitVec 8 → State → Option State) : Prop :=
  ∀ c u s, ShownBy u s → ∃ q, put c s =
    ((putGlyph c { u with serial := q }).bind gfxShowCursor).map fun g => { s with gfx := g }

theorem plots_gfxPutchar : Plots fun c => onGfx (gfxPutchar c) := by
  intro c u s h
  obtain ⟨q, hq⟩ := toSerial_serial c u
  refine ⟨q, ?_⟩
  have hclean : drawClean (.putchar c) u = putGlyph c { u with serial := q } :=
    congrArg (putGlyph c) hq
  dsimp only
  rw [onGfx, gfxPutchar_shown c h.shown, hclean]

theorem plots_terminalPutchar : Plots terminalPutchar := by
  intro c u s h
  obtain ⟨q, hq⟩ : ∃ q, sendSerial c s = { s with gfx := { s.gfx with serial := q } } := by
    rw [sendSerial]
    split_ifs
    · exact ⟨_, rfl⟩
    · exact ⟨s.gfx.serial, rfl⟩
  have hsent : ShownBy { u with serial := q } { s with gfx := { s.gfx with serial := q } } :=
    ⟨h.mode, gfxShowCursor_serial q h.shown⟩
  obtain ⟨q', hput⟩ := plots_gfxPutchar c _ _ hsent
  refine ⟨q', ?_⟩
  rw [terminalPutchar, hq]
  exact (if_pos h.mode).trans hput

section Line

variable {put : BitVec 8 → State → Option State} {d w h y n : Nat} {u v : Gfx.State} {s t : State}
  {done text : List (BitVec 8)} {c : BitVec 8}

/-- A character put on the framebuffer whose place leads to another cell of the screen. -/
theorem put_shows {x : Nat} {z : Gfx.State} (hin : CellIn u x y) (hmoved : Moved u x y z)
    (hmode : s.useFramebuffer = true) :
    ∃ g, gfxShowCursor z = some g ∧ ShownBy z { s with gfx := g } := by
  have hcell := hin.of_moved hmoved
  obtain ⟨m, q, rfl⟩ := hmoved
  obtain ⟨g, hg, -⟩ := gfxInvertCell_works hcell
  exact ⟨g, hg, hmode, hg⟩

/-- What a character put on the framebuffer did. -/
theorem Plots.shown (hput : Plots put) (hs : ShownBy v s) (ht : put c s = some t) :
    ∃ q z, putGlyph c { v with serial := q } = some z ∧ ShownBy z t := by
  obtain ⟨q, hq⟩ := hput c v s hs
  rw [hq, Option.map_eq_some_iff] at ht
  obtain ⟨g, hg, rfl⟩ := ht
  obtain ⟨z, hz, hshow⟩ := Option.bind_eq_some_iff.mp hg
  exact ⟨q, z, hz, hs.mode, hshow⟩

theorem putAll_drawn (hput : Plots put) (hs : ShownBy v s) (hu : Surface d w h u)
    (hpitch : 32 ≤ u.fbPitch) (hdrawn : Drawn d w h done y u v) (hc : Glyphs text)
    (hx : charW * (done.length + text.length + 1) ≤ w) (hy : y + charH < h) :
    ∃ t z, putAll put text s = some t ∧ ShownBy z t ∧ Drawn d w h (done ++ text) y u z := by
  induction text generalizing done v s with
  | nil =>
    rw [List.append_nil]
    exact ⟨s, v, rfl, hs, hdrawn⟩
  | cons c text ih =>
    simp only [List.length_cons, charW] at hx
    have hone : Glyphs [c] := by
      intro e he
      rw [List.mem_singleton.mp he]
      exact hc c List.mem_cons_self
    have hlen : (done ++ [c]).length = done.length + 1 := List.length_append
    obtain ⟨q, hq⟩ := hput c v s hs
    have hnext : charW * (done.length + 2) ≤ w := by
      simp only [charW]
      omega
    obtain ⟨z, hz, hdrawn'⟩ := putGlyph_drawn hu hpitch (hdrawn.serial q) hone hnext hy
    have hcell : charW * (done ++ [c]).length + charW ≤ w := by
      simp only [charW, hlen]
      omega
    have hin := hu.cellIn (hu.cell_fits hpitch hcell hy)
    obtain ⟨g, hg, hshown⟩ := put_shows hin hdrawn'.moved hs.mode
    obtain ⟨t, z', ht, hshown', hdrawn''⟩ := ih hshown hdrawn'
      (fun e he => hc e (List.mem_cons_of_mem c he)) (by simp only [charW, hlen]; omega)
    rw [List.append_assoc, List.singleton_append] at hdrawn''
    refine ⟨t, z', ?_, hshown', hdrawn''⟩
    rw [putAll, hq, hz, Option.bind_some, hg, Option.map_some, Option.bind_some, ht]

/-- A text that fills its row leads to the next one, if there is one. -/
theorem putAll_feed (hput : Plots put) (hs : ShownBy v s) (hu : Surface d w h u)
    (hpitch : 32 ≤ u.fbPitch) (hdrawn : Drawn d w h [] y u v) (hc : Glyphs (text ++ [c]))
    (hx : charW * (text.length + 1) ≤ w) (hend : w < charW * (text.length + 2))
    (hroom : Feeds w h y u) : ∃ t z, putAll put (text ++ [c]) s = some t ∧ ShownBy z t ∧
      Moved u 0 (y + charH) z ∧ ∀ p, Inside (d * w) h p →
        byte z p = feedByte h y u (paint (textLayers u y (text ++ [c])) (byte u)) p := by
  have htext : Glyphs text := fun e he => hc e (List.mem_append_left _ he)
  have hlast : Glyphs [c] := fun e he => hc e (List.mem_append_right _ he)
  have hbelow : y + 2 * charH ≤ h := by
    rcases hroom with hfree | ⟨hlow, -⟩ <;> omega
  have hy : y + charH < h := by
    simp only [charH] at hbelow ⊢
    omega
  have hcells : charW * (([] : List (BitVec 8)).length + text.length + 1) ≤ w := by
    rwa [List.length_nil, Nat.zero_add]
  obtain ⟨t, z, ht, hshown, hline⟩ := putAll_drawn hput hs hu hpitch hdrawn htext hcells hy
  rw [List.nil_append] at hline
  obtain ⟨q, hq⟩ := hput c z t hshown
  obtain ⟨z', hz', hmoved, hbytes⟩ :=
    putGlyph_feed hu hpitch (hline.serial q) hlast hx hend hroom
  have hnext : y + charH + charH ≤ h := by omega
  have hin := hu.cellIn (Surface.left_fits hpitch hnext)
  obtain ⟨g, hg, hshown'⟩ := put_shows hin hmoved hshown.mode
  refine ⟨_, z', ?_, hshown', hmoved, hbytes⟩
  rw [putAll_append, ht, Option.bind_some, putAll, hq, hz', Option.bind_some, hg]
  rfl

/-- A text put on the framebuffer leaves the cursor behind it in its row. -/
theorem putAll_moves (hput : Plots put) (hs : ShownBy v s) (hv : Surface d w h v)
    (hpitch : 32 ≤ v.fbPitch) (hx : v.cursorX = charW * n) (hy : v.cursorY + charH ≤ h)
    (hc : Glyphs text) (hroom : charW * (n + text.length + 1) ≤ w)
    (ht : putAll put text s = some t) :
    ∃ z, ShownBy z t ∧ Moved v (charW * (n + text.length)) v.cursorY z := by
  induction text generalizing v s n with
  | nil =>
    obtain rfl := Option.some.inj ht
    exact ⟨v, hs, hx ▸ (painted_refl v).moved⟩
  | cons c text ih =>
    simp only [List.length_cons, charW] at hroom
    have hone : Glyphs [c] := by
      intro e he
      rw [List.mem_singleton.mp he]
      exact hc c List.mem_cons_self
    rw [putAll, Option.bind_eq_some_iff] at ht
    obtain ⟨t', ht', ht⟩ := ht
    obtain ⟨q, z, hz, hshown⟩ := hput.shown hs ht'
    have hserial : Moved v v.cursorX v.cursorY { v with serial := q } := ⟨v.framebuffer, q, rfl⟩
    have hmoved := putGlyph_moves (hv.of_moved hserial) hpitch hx hy hone hz
      (by simp only [charW]; omega)
    have hmoved' : Moved v (charW * (n + 1)) v.cursorY z := moved_trans hserial hmoved
    have hsurface := hv.of_moved hmoved'
    obtain ⟨z', hshown', hrest⟩ : ∃ z', ShownBy z' t ∧
        Moved z (charW * (n + 1 + text.length)) z.cursorY z' := by
      refine ih hshown hsurface ?_ ?_ ?_ (fun e he => hc e (List.mem_cons_of_mem c he))
        (by simp only [charW]; omega) ht
      all_goals obtain ⟨m, q', rfl⟩ := hmoved'
      · exact hpitch
      · rfl
      · exact hy
    refine ⟨z', hshown', ?_⟩
    have hrow : z.cursorY = v.cursorY := by
      obtain ⟨m, q', rfl⟩ := hmoved'
      rfl
    rw [hrow] at hrest
    rw [List.length_cons, ← Nat.add_assoc, Nat.add_right_comm]
    exact moved_trans hmoved' hrest

/-- A text that filled its row had another one below it. -/
theorem feeds_of_putAll (hput : Plots put) (hs : ShownBy v s) (hv : Surface d w h v)
    (hpitch : 32 ≤ v.fbPitch) (hx : v.cursorX = 0) (hy : v.cursorY + charH ≤ h)
    (hc : Glyphs (text ++ [c])) (hroom : charW * (text.length + 1) ≤ w)
    (hend : w < charW * (text.length + 2)) (ht : putAll put (text ++ [c]) s = some t) :
    Feeds w h v.cursorY v := by
  have htext : Glyphs text := fun e he => hc e (List.mem_append_left _ he)
  have hlast : Glyphs [c] := fun e he => hc e (List.mem_append_right _ he)
  rw [putAll_append, Option.bind_eq_some_iff] at ht
  obtain ⟨t', ht', ht⟩ := ht
  obtain ⟨z, hshown, hmoved⟩ := putAll_moves (n := 0) hput hs hv hpitch hx hy htext
    (by rwa [Nat.zero_add]) ht'
  rw [Nat.zero_add] at hmoved
  rw [putAll, Option.bind_eq_some_iff] at ht
  obtain ⟨t'', hc', -⟩ := ht
  obtain ⟨q, z', hz', hshown'⟩ := hput.shown hshown hc'
  have hsent : Moved v (charW * text.length) v.cursorY { z with serial := q } := by
    obtain ⟨m, q', rfl⟩ := hmoved
    exact ⟨m, q, rfl⟩
  have hkept : z.cursorX = charW * text.length ∧ z.cursorY = v.cursorY ∧
      z.fbPitch = v.fbPitch := by
    obtain ⟨m, q', rfl⟩ := hmoved
    exact ⟨rfl, rfl, rfl⟩
  have hfeeds := feeds_of_shown (hv.of_moved hsent) (hkept.2.2.symm ▸ hpitch) hkept.1
    (hkept.2.1.symm ▸ hy) hlast hz' hroom hend hshown'.shown
  rw [Feeds] at hfeeds ⊢
  dsimp only at hfeeds
  rwa [hkept.2.1, hkept.2.2] at hfeeds

/-- The cursor moved, seen without the cursor. -/
theorem moveCursor_shown (hs : ShownBy u s) {x : Nat} (hin : CellIn u x y) :
    ∃ t, onGfx (gfxMoveCursor x y) s = some t ∧
      ShownBy { u with cursorX := x, cursorY := y } t := by
  obtain ⟨g, hg, hshown⟩ := put_shows hin (moved_cursor u x y) hs.mode
  have hclean : drawClean (.moveCursor x y) u = some { u with cursorX := x, cursorY := y } := rfl
  refine ⟨{ s with gfx := g }, ?_, hshown⟩
  rw [onGfx, gfxMoveCursor_shown x y hs.shown, hclean, Option.bind_some, hg, Option.map_some]

end Line

/-- Without the cursor every screen is a picture. -/
theorem exists_shownBy {s : State} (hmode : s.useFramebuffer = true)
    (hin : CellIn s.gfx s.gfx.cursorX s.gfx.cursorY) : ∃ u, ShownBy u s ∧ Painted s.gfx u := by
  obtain ⟨u, hu, hpainted⟩ := gfxInvertCell_works hin
  have htwice := gfxInvertCell_twice hu
  refine ⟨u, ⟨hmode, ?_⟩, hpainted⟩
  obtain ⟨m, rfl⟩ := hpainted
  exact htwice

/-- What `redraw_input` leaves of the picture: the text over the blanked row, moved up if the
screen was scrolled. -/
noncomputable def redrawByte (w h y : Nat) (u : Gfx.State) (text : List (BitVec 8)) :
    Place → BitVec 8 :=
  paint (textLayers u y text) (feedByte h y u (paint (blankLayers w y u) (byte u)))

/-- What `redraw_input` leaves when it gets through. -/
structure Redrawn (d w h : Nat) (u : Gfx.State) (text : List (BitVec 8)) (z : Gfx.State)
    (t : State) : Prop where
  shown : ShownBy z t
  moved : Moved u (charW * text.length) u.cursorY z
  bytes : ∀ p, Inside (d * w) h p → byte z p = redrawByte w h u.cursorY u text p

/-- The prompt and the input. -/
def inputLine (b : Buffer) (pos : Nat) : List (BitVec 8) := prompt ++ (List.range pos).map b

section Redraw

variable {d w h y : Nat} {u : Gfx.State} {s t : State} {b : Buffer} {pos : Nat}

theorem inputLine_length : (inputLine b pos).length = 7 + pos := by
  rw [inputLine, List.length_append, List.length_map, List.length_range]
  rfl

theorem glyphs_inputLine (hc : Glyphs ((List.range pos).map b)) : Glyphs (inputLine b pos) := by
  intro c hmem
  rw [inputLine, List.mem_append] at hmem
  cases hmem with
  | inl hprompt =>
    have hall : Glyphs prompt := by decide
    exact hall c hprompt
  | inr htext => exact hc c htext

/-- A row of blanks: all but the last one have another cell behind them. -/
theorem blanks_fill (hwide : charW ≤ w) : ∃ blanks : List (BitVec 8),
    List.replicate (w / charW) 0x20 = blanks ++ [0x20] ∧ Glyphs (blanks ++ [0x20]) ∧
      charW * (blanks.length + 1) ≤ w ∧ w < charW * (blanks.length + 2) := by
  have hfull : 0 < w / charW := Nat.div_pos hwide (by decide)
  obtain ⟨k, hk⟩ : ∃ k, w / charW = k + 1 := ⟨w / charW - 1, (Nat.sub_add_cancel hfull).symm⟩
  refine ⟨List.replicate k 0x20, ?_, ?_, ?_⟩
  · rw [hk, List.replicate_succ']
  · intro c hmem
    rw [← List.replicate_succ'] at hmem
    rw [List.eq_of_mem_replicate hmem]
    decide
  · simp only [List.length_replicate, charW] at hk ⊢
    omega

section Lines

variable (hs : ShownBy u s) (hu : Surface d w h u) (hpitch : 32 ≤ u.fbPitch)
include hs hu hpitch

/-- The row blanked: the last blank leads to the next row. -/
theorem blankLine_bytes (hwide : charW ≤ w) (hroom : Feeds w h u.cursorY u) : ∃ t z,
    writeLine (fun c => onGfx (gfxPutchar c)) (List.replicate (w / charW) 0x20) u.cursorY s =
      some t ∧ ShownBy z t ∧ Moved u 0 (u.cursorY + charH) z ∧
    ∀ p, Inside (d * w) h p →
      byte z p = feedByte h u.cursorY u (paint (blankLayers w u.cursorY u) (byte u)) p := by
  obtain ⟨blanks, hblanks, hplain, hfill, hend⟩ := blanks_fill hwide
  have hlow : u.cursorY + charH ≤ h := by
    rcases hroom with hfree | ⟨hlow, -⟩ <;> omega
  have hin := hu.cellIn (Surface.left_fits hpitch hlow)
  obtain ⟨t, ht, hshown⟩ := moveCursor_shown hs hin
  have hfeed := putAll_feed plots_gfxPutchar hshown hu hpitch (drawn_nil d w h u.cursorY u) hplain
    hfill hend hroom
  rw [writeLine, ht, Option.bind_some, blankLayers, hblanks]
  exact hfeed

theorem feeds_of_blankLine (hwide : charW ≤ w) (hy : u.cursorY + charH ≤ h)
    (ht : writeLine (fun c => onGfx (gfxPutchar c)) (List.replicate (w / charW) 0x20) u.cursorY s =
      some t) : Feeds w h u.cursorY u := by
  obtain ⟨blanks, hblanks, hplain, hfill, hend⟩ := blanks_fill hwide
  have hin := hu.cellIn (Surface.left_fits hpitch hy)
  obtain ⟨t', ht', hshown⟩ := moveCursor_shown hs hin
  rw [writeLine, ht', Option.bind_some, hblanks] at ht
  have hleft := hu.of_moved (moved_cursor u 0 u.cursorY)
  exact feeds_of_putAll (v := { u with cursorX := 0 }) plots_gfxPutchar hshown hleft hpitch rfl hy
    hplain hfill hend ht

/-- The prompt and the text drawn from the left edge of a row on, and the cursor put behind. -/
theorem textLine_bytes {text : List (BitVec 8)} (hc : Glyphs text)
    (hx : charW * (text.length + 1) ≤ w) (hy : y + charH < h) : ∃ t z,
    (writeLine terminalPutchar text y s).bind (onGfx (gfxMoveCursor (charW * text.length) y)) =
      some t ∧ ShownBy z t ∧ Drawn d w h text y u z := by
  have hin := hu.cellIn (Surface.left_fits hpitch (Nat.le_of_lt hy))
  obtain ⟨t₁, ht₁, hshown₁⟩ := moveCursor_shown hs hin
  obtain ⟨t₂, z, ht₂, hshown₂, hdrawn⟩ := putAll_drawn plots_terminalPutchar hshown₁ hu hpitch
    (drawn_nil d w h y u) hc (by rwa [List.length_nil, Nat.zero_add]) hy
  have hcell : CellIn u (charW * text.length) y := hu.cellIn (hu.cell_fits hpitch hx hy)
  obtain ⟨t₃, ht₃, hshown₃⟩ := moveCursor_shown hshown₂ (hcell.of_moved hdrawn.moved)
  refine ⟨t₃, _, ?_, hshown₃, moved_trans hdrawn.moved (moved_cursor z _ y), hdrawn.bytes⟩
  rw [writeLine, ht₁, Option.bind_some, ht₂, Option.bind_some, ht₃]

end Lines

section Input

variable (hs : ShownBy u s) (hu : Surface d w h u) (hpitch : 32 ≤ u.fbPitch)
  (hshort : 7 + pos < w / charW) (hy : u.cursorY + charH ≤ h)
include hs hu hpitch hshort hy

/-- The two lines `redraw_input` writes. -/
theorem redrawInput_lines : redrawInput b pos s =
    (writeLine (fun c => onGfx (gfxPutchar c)) (List.replicate (w / charW) 0x20) u.cursorY s).bind
      fun t => (writeLine terminalPutchar (inputLine b pos) u.cursorY t).bind
        (onGfx (gfxMoveCursor (charW * (inputLine b pos).length) u.cursorY)) := by
  have hlt := hu.lt hpitch (by omega)
  have hend : u32 (7 * 8 + pos * 8) = charW * (inputLine b pos).length := by
    rw [u32_of_lt] <;> simp only [inputLine_length, charW] at hshort ⊢ <;> omega
  have hkept : s.gfx.fbWidth = w ∧ s.gfx.cursorY = u.cursorY := by
    obtain ⟨m, hm⟩ := gfxInvertCell_painted hs.shown
    rw [hm]
    exact ⟨hu.width, rfl⟩
  rw [redrawInput_eq b pos hs.mode, hkept.1, hkept.2, hend, Option.bind_assoc]
  rfl

theorem redrawInput_bytes (hc : Glyphs ((List.range pos).map b)) (hroom : Feeds w h u.cursorY u) :
    ∃ t z, redrawInput b pos s = some t ∧ Redrawn d w h u (inputLine b pos) z t := by
  have hwide : charW ≤ w := cell_wide hshort
  have hcells : charW * ((inputLine b pos).length + 1) ≤ w := by
    simp only [inputLine_length, charW] at hshort ⊢
    omega
  have hlow : u.cursorY + charH < h := by
    rcases hroom with hfree | ⟨hlow, -⟩ <;> simp only [charH] at * <;> omega
  obtain ⟨t₁, v, ht₁, hshown₁, hmoved, hbytes⟩ := blankLine_bytes hs hu hpitch hwide hroom
  have hkept : v.fbPitch = u.fbPitch ∧
      ∀ text, textLayers v u.cursorY text = textLayers u u.cursorY text := by
    obtain ⟨m, q, rfl⟩ := hmoved
    exact ⟨rfl, fun _ => rfl⟩
  obtain ⟨t, z, ht, hshown, hdrawn⟩ := textLine_bytes hshown₁ (hu.of_moved hmoved)
    (hkept.1.symm ▸ hpitch) (glyphs_inputLine hc) hcells hlow
  refine ⟨t, z, ?_, hshown, moved_trans hmoved hdrawn.moved, fun p hp => ?_⟩
  · rw [redrawInput_lines hs hu hpitch hshort hy, ht₁, Option.bind_some, ht]
  · rw [hdrawn.bytes p hp, hkept.2, redrawByte]
    exact paint_congr fun _ => hbytes p hp

/-- `redraw_input` gets through only when the row has another one below it. -/
theorem feeds_of_redrawInput (ht : redrawInput b pos s = some t) : Feeds w h u.cursorY u := by
  have hwide : charW ≤ w := cell_wide hshort
  rw [redrawInput_lines hs hu hpitch hshort hy, Option.bind_eq_some_iff] at ht
  obtain ⟨t', ht', -⟩ := ht
  exact feeds_of_blankLine hs hu hpitch hwide hy ht'

end Input

end Redraw

end Terminal
