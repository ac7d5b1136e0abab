import Nyrix.GfxRuns
import Nyrix.MainLoop

/-!
# A session on the framebuffer (kernel.cpp, gfx.cpp)

A session makes one sequence of calls, which follows from what arrives. On the framebuffer the
cursor is not moved back up when the screen is scrolled, so the calls get through as long as what
is written since the last clear finds a row for every character.
-/

namespace Terminal

open Gfx PartialRuns

/-- Where the cursor is after a text. -/
def textEnd (w : Nat) (text : List (BitVec 8)) (p : Nat × Nat) : Nat × Nat :=
  text.foldl (fun p c => advance w c p.1 p.2) p

def callEnd (w : Nat) : Commands.Call → Nat × Nat → Nat × Nat
  | .write str, p => textEnd w (cString str) p
  | .clear, _ => (0, 0)
  | .setcolor _, p => p

def callsEnd (w : Nat) (calls : List Commands.Call) (p : Nat × Nat) : Nat × Nat :=
  calls.foldl (fun p c => callEnd w c p) p

/-- Every character that is written has room, from the cell the calls before it lead to. -/
def CallsRoom (w height : Nat) : List Commands.Call → Nat × Nat → Prop
  | [], _ => True
  | c :: calls, p =>
    TextRoom w height (characters c) p.1 p.2 ∧ CallsRoom w height calls (callEnd w c p)

instance decidableTextRoom (w height : Nat) (text : List (BitVec 8)) (x y : Nat) :
    Decidable (TextRoom w height text x y) :=
  match text with
  | [] => inferInstanceAs (Decidable True)
  | c :: text =>
    have := decidableTextRoom w height text (advance w c x y).1 (advance w c x y).2
    inferInstanceAs (Decidable (_ ∧ _))

instance decidableCallsRoom (w height : Nat) (calls : List Commands.Call) (p : Nat × Nat) :
    Decidable (CallsRoom w height calls p) :=
  match calls with
  | [] => inferInstanceAs (Decidable True)
  | c :: calls =>
    have := decidableCallsRoom w height calls (callEnd w c p)
    inferInstanceAs (Decidable (_ ∧ _))

/-- The terminal draws on a framebuffer of this size, with the cursor in this place on it. -/
structure Stands (w height : Nat) (p : Nat × Nat) (s : State) : Prop where
  draws : Draws s
  small : ¬Huge s.gfx
  width : s.gfx.fbWidth = w
  height : s.gfx.fbHeight = height
  cursor : (s.gfx.cursorX, s.gfx.cursorY) = p
  inside : OnScreen s.gfx

section Stands

variable {w height : Nat} {p : Nat × Nat} {s t : State} {c : BitVec 8} {text : List (BitVec 8)}

theorem Draws.stands {x y : Nat} (h : Draws s) (hsmall : ¬Huge s.gfx) (hshifted : Shifted s x y t)
    (hon : OnScreen t.gfx) : Stands s.gfx.fbWidth s.gfx.fbHeight (x, y) t := by
  obtain ⟨hx, hy, hwidth, hheight⟩ := hshifted.cursor
  exact ⟨h.of_shifted hshifted, hshifted.huge.not.mpr hsmall, hwidth, hheight, by rw [hx, hy], hon⟩

theorem putchar_stands (h : Stands w height p s) (hroom : Room w height c p.1 p.2) :
    ∃ t, terminalPutchar c s = some t ∧ Stands w height (advance w c p.1 p.2) t := by
  obtain ⟨hdraws, hsmall, rfl, rfl, rfl, hon⟩ := h
  obtain ⟨t, ht, hon', hshifted⟩ := puts_terminalPutchar.room hdraws hon hroom
  exact ⟨t, ht, hdraws.stands hsmall hshifted hon'⟩

theorem putAll_stands (h : Stands w height p s) (hroom : TextRoom w height text p.1 p.2) :
    ∃ t, putAll terminalPutchar text s = some t ∧ Stands w height (textEnd w text p) t := by
  induction text generalizing s p with
  | nil => exact ⟨s, rfl, h⟩
  | cons c text ih =>
    obtain ⟨u, hu, hstands⟩ := putchar_stands h hroom.1
    rw [putAll, hu, Option.bind_some]
    exact ih hstands hroom.2

theorem terminalWrite_cString (str : List (BitVec 8)) (s : State) :
    terminalWrite str s = putAll terminalPutchar (cString str) s := by
  induction str generalizing s with
  | nil => rfl
  | cons c str ih =>
    rw [terminalWrite]
    by_cases hnul : c = 0
    · subst hnul
      rfl
    · have hcut : cString (c :: str) = c :: cString str :=
        List.takeWhile_cons_of_pos (bne_iff_ne.mpr hnul)
      rw [if_neg hnul, hcut, putAll]
      exact congrArg _ (funext ih)

theorem clear_stands (h : Draws s) (hsmall : ¬Huge s.gfx) :
    ∃ t, terminalClear s = some t ∧ Stands s.gfx.fbWidth s.gfx.fbHeight (0, 0) t := by
  obtain ⟨g, hg, hon, hmoved⟩ := gfxClear_works h.screen.frame h.screen.geometry.wide
  have hshifted : Shifted s 0 0 { s with gfx := g } := ⟨g, rfl, hmoved⟩
  refine ⟨{ s with gfx := g }, ?_, h.stands hsmall hshifted hon⟩
  rw [terminalClear, if_pos h.framebuffer]
  exact onGfx_some hg

theorem setcolor_stands (color : BitVec 8) (h : Stands w height p s) :
    Stands w height p (terminalSetcolor color s) := by
  rw [terminalSetcolor, if_pos h.draws.framebuffer]
  have hscreen := h.draws.screen
  exact ⟨⟨h.draws.framebuffer, hscreen.geometry, hscreen.bpp⟩, h.small, h.width, h.height, h.cursor,
    h.inside⟩

theorem perform_stands {c : Commands.Call} (h : Stands w height p s)
    (hroom : TextRoom w height (characters c) p.1 p.2) :
    ∃ t, perform c s = some t ∧ Stands w height (callEnd w c p) t := by
  cases c with
  | write str =>
    obtain ⟨t, ht, hstands⟩ := putAll_stands h hroom
    exact ⟨t, (terminalWrite_cString str s).trans ht, hstands⟩
  | clear =>
    obtain ⟨hdraws, hsmall, rfl, rfl, rfl, -⟩ := h
    exact clear_stands hdraws hsmall
  | setcolor color => exact ⟨_, rfl, setcolor_stands color h⟩

/-- A character without room is drawn outside the framebuffer, or the cursor behind it is. -/
theorem perform_none {c : Commands.Call} (h : Stands w height p s)
    (hroom : ¬TextRoom w height (characters c) p.1 p.2) : perform c s = none := by
  obtain ⟨hdraws, hsmall, rfl, rfl, rfl, hon⟩ := h
  cases c with
  | write str =>
    have hnone := putAll_none puts_terminalPutchar hdraws hon hsmall hroom
    exact (terminalWrite_cString str s).trans hnone
  | clear => exact absurd trivial hroom
  | setcolor color => exact absurd trivial hroom

theorem calls_stand {calls : List Commands.Call} (h : Stands w height p s)
    (hroom : CallsRoom w height calls p) :
    ∃ t, runAll perform calls s = some t ∧ Stands w height (callsEnd w calls p) t := by
  induction calls generalizing s p with
  | nil => exact ⟨s, rfl, h⟩
  | cons c calls ih =>
    obtain ⟨u, hu, hstands⟩ := perform_stands h hroom.1
    rw [runAll, hu, Option.bind_some]
    exact ih hstands hroom.2

theorem calls_none {calls : List Commands.Call} (h : Stands w height p s)
    (hroom : ¬CallsRoom w height calls p) : runAll perform calls s = none := by
  induction calls generalizing s p with
  | nil => exact absurd trivial hroom
  | cons c calls ih =>
    rw [runAll]
    by_cases hfirst : TextRoom w height (characters c) p.1 p.2
    · obtain ⟨u, hu, hstands⟩ := perform_stands h hfirst
      rw [hu, Option.bind_some]
      exact ih hstands fun hrest => hroom ⟨hfirst, hrest⟩
    · rw [perform_none h hfirst, Option.bind_none]

end Stands

end Terminal

namespace MainLoop

open PartialRuns Terminal

section Framebuffer

variable {s : Terminal.State} {arrivals : List Arrival}

theorem session_stands (hserial : s.gfx.serial.useSerial = true) (hdraws : Draws s)
    (hsmall : ¬Gfx.Huge s.gfx) (arrivals : List Arrival)
    (hroom : CallsRoom s.gfx.fbWidth s.gfx.fbHeight (shown arrivals) (0, 0)) :
    ∃ t, session arrivals s = some t ∧ Stands s.gfx.fbWidth s.gfx.fbHeight
      (callsEnd s.gfx.fbWidth (shown arrivals) (0, 0)) t.terminal := by
  obtain ⟨u, hclear, hstands⟩ := clear_stands hdraws hsmall
  have hperform : perform .clear s = some u := hclear
  have hcalls := session_calls hserial arrivals
  obtain ⟨v, hv, hlast⟩ := calls_stand hstands hroom
  rw [runAll, hperform, Option.bind_some, hv] at hcalls
  obtain ⟨t, ht, rfl⟩ := Option.map_eq_some_iff.mp hcalls
  exact ⟨t, ht, hlast⟩

theorem session_none (hserial : s.gfx.serial.useSerial = true) (hdraws : Draws s)
    (hsmall : ¬Gfx.Huge s.gfx)
    (hroom : ¬CallsRoom s.gfx.fbWidth s.gfx.fbHeight (shown arrivals) (0, 0)) :
    session arrivals s = none := by
  obtain ⟨u, hclear, hstands⟩ := clear_stands hdraws hsmall
  have hperform : perform .clear s = some u := hclear
  have hcalls := session_calls hserial arrivals
  rw [runAll, hperform, Option.bind_some, calls_none hstands hroom] at hcalls
  exact Option.map_eq_none_iff.mp hcalls

end Framebuffer

/-- On a framebuffer below 4 GiB a session gets through, whatever arrives on COM1, if and only if
every character written since the last clear has room, and then the cursor is where the last of them
leads. Else something is drawn outside the framebuffer. -/
theorem session_framebuffer {s : Terminal.State} (hserial : s.gfx.serial.useSerial = true)
    (hdraws : Draws s) (hsmall : ¬Gfx.Huge s.gfx) (arrivals : List Arrival) :
    (CallsRoom s.gfx.fbWidth s.gfx.fbHeight (shown arrivals) (0, 0) →
      ∃ t, session arrivals s = some t ∧ (t.terminal.gfx.cursorX, t.terminal.gfx.cursorY) =
        callsEnd s.gfx.fbWidth (shown arrivals) (0, 0)) ∧
    (¬CallsRoom s.gfx.fbWidth s.gfx.fbHeight (shown arrivals) (0, 0) →
      session arrivals s = none) := by
  constructor
  · intro hroom
    obtain ⟨t, ht, hstands⟩ := session_stands hserial hdraws hsmall arrivals hroom
    exact ⟨t, ht, hstands.cursor⟩
  · intro hroom
    exact session_none hserial hdraws hsmall hroom

theorem draws_wide : Draws wideTerminal :=
  ⟨rfl, ⟨⟨by decide, by decide, by decide, by decide, by decide⟩, rfl⟩⟩

theorem small_wide : ¬Gfx.Huge wideTerminal.gfx := by
  unfold Gfx.Huge
  decide

/-- On 640 by 480 pixels the twenty-ninth Enter after the banner leaves the framebuffer. -/
theorem session_framebuffer_enters :
    (∃ t, session (List.replicate 28 (arrival 0x0D)) wideTerminal = some t ∧
      (t.terminal.gfx.cursorX, t.terminal.gfx.cursorY) = (56, 464)) ∧
    session (List.replicate 29 (arrival 0x0D)) wideTerminal = none := by
  obtain ⟨hfits, -⟩ :=
    session_framebuffer rfl draws_wide small_wide (List.replicate 28 (arrival 0x0D))
  obtain ⟨-, hleaves⟩ :=
    session_framebuffer rfl draws_wide small_wide (List.replicate 29 (arrival 0x0D))
  obtain ⟨t, ht, hcursor⟩ := hfits (by decide +kernel)
  have hend : callsEnd 640 (shown (List.replicate 28 (arrival 0x0D))) (0, 0) = (56, 464) := by
    decide +kernel
  exact ⟨⟨t, ht, hcursor.trans hend⟩, hleaves (by decide +kernel)⟩

end MainLoop
