import Nyrix.SessionFramebuffer
import Nyrix.SessionScreen

/-!
# The rows a session takes (kernel.cpp, gfx.cpp)

A backspace takes back no more than was typed, so the cursor never comes back above the row of the
prompt. On the framebuffer each Enter takes one more row, until the screen is cleared.
-/

namespace Terminal

open Gfx

/-- The cells before the cursor, when a row has `w / 8` of them. -/
def place (w : Nat) (p : Nat × Nat) : Nat := w / 8 * (p.2 / 16) + p.1 / 8

/-- The cursor is in a text row, and its cell is inside the width. -/
structure InGrid (w : Nat) (p : Nat × Nat) : Prop where
  cell : p.1 + 8 ≤ w
  row : 16 ∣ p.2

section Place

variable {w n : Nat} {p : Nat × Nat} {c : BitVec 8}

theorem advance_inGrid (c : BitVec 8) (h : InGrid w p) : InGrid w (advance w c p.1 p.2) := by
  obtain ⟨hcell, hrow⟩ := h
  rw [advance]
  split_ifs
  · exact ⟨by omega, by omega⟩
  · exact ⟨by omega, hrow⟩
  · exact ⟨by omega, by omega⟩
  · exact ⟨hcell, hrow⟩
  · exact ⟨by omega, by omega⟩
  · exact ⟨by omega, hrow⟩

theorem place_newRow (w x y : Nat) : place w (x, y + 16) = place w (x, y) + w / 8 := by
  have hrow : (y + 16) / 16 = y / 16 + 1 := by omega
  simp only [place, hrow, Nat.mul_succ]
  omega

theorem place_lt_newRow (h : InGrid w p) : place w p < place w (0, p.2 + 16) := by
  have hcell := h.cell
  rw [place_newRow]
  simp only [place]
  omega

theorem row_le (h : InGrid w p) (hfar : w / 8 * n ≤ place w p) : n ≤ p.2 / 16 := by
  have hcell := h.cell
  by_contra hlt
  have hmul : w / 8 * (p.2 / 16 + 1) ≤ w / 8 * n := Nat.mul_le_mul_left _ (by omega)
  rw [place] at hfar
  rw [Nat.mul_succ] at hmul
  omega

theorem newRow_far (h : InGrid w p) (hfar : w / 8 * n ≤ place w p) :
    w / 8 * (n + 1) ≤ place w (0, p.2 + 16) := by
  have hmul := Nat.mul_le_mul_left (w / 8) (row_le h hfar)
  rw [place_newRow, Nat.mul_succ]
  simp only [place]
  omega

theorem advance_place (h : InGrid w p) (hc : c ≠ 0x08) :
    place w p < place w (advance w c p.1 p.2) := by
  rw [advance]
  split_ifs
  · exact place_lt_newRow h
  · exact place_lt_newRow h
  · simp only [place]
    omega

theorem back_place (h : InGrid w p) : place w p ≤ place w (advance w 0x08 p.1 p.2) + 1 := by
  have hcell := h.cell
  rw [advance, if_neg (by decide), if_pos rfl]
  split_ifs with hleft hup
  · simp only [place]
    omega
  · have hrow := place_newRow w (w - 8) (p.2 - 16)
    rw [Nat.sub_add_cancel hup] at hrow
    simp only [place] at hrow ⊢
    omega
  · exact Nat.le_succ _

theorem textEnd_place {text : List (BitVec 8)} (h : InGrid w p) (hplain : ∀ c ∈ text, c ≠ 0x08) :
    InGrid w (textEnd w text p) ∧ place w p ≤ place w (textEnd w text p) := by
  induction text generalizing p with
  | nil => exact ⟨h, Nat.le_refl _⟩
  | cons c text ih =>
    obtain ⟨hc, hplain⟩ := List.forall_mem_cons.mp hplain
    obtain ⟨hgrid, hle⟩ := ih (advance_inGrid c h) hplain
    exact ⟨hgrid, (advance_place h hc).le.trans hle⟩

/-- Nothing but a backspace or a clear leads back. -/
theorem callsEnd_place {calls : List Commands.Call} (h : InGrid w p)
    (hplain : ∀ call ∈ calls, ∀ c ∈ characters call, c ≠ 0x08) (hclear : .clear ∉ calls) :
    InGrid w (callsEnd w calls p) ∧ place w p ≤ place w (callsEnd w calls p) := by
  induction calls generalizing p with
  | nil => exact ⟨h, Nat.le_refl _⟩
  | cons call calls ih =>
    obtain ⟨hcall, hplain⟩ := List.forall_mem_cons.mp hplain
    obtain ⟨hne, hclear⟩ := List.ne_and_not_mem_of_not_mem_cons hclear
    have hfirst : InGrid w (callEnd w call p) ∧ place w p ≤ place w (callEnd w call p) := by
      cases call with
      | write str => exact textEnd_place h hcall
      | clear => exact absurd rfl hne
      | setcolor color => exact ⟨h, Nat.le_refl _⟩
    obtain ⟨hgrid, hle⟩ := ih hfirst.1 hplain hclear
    exact ⟨hgrid, hfirst.2.trans hle⟩

theorem callEnd_single (hc : c ≠ 0) : callEnd w (.write [c]) p = advance w c p.1 p.2 := by
  have hcut : cString [c] = [c] := List.takeWhile_cons_of_pos (bne_iff_ne.mpr hc)
  rw [callEnd, hcut]
  rfl

end Place

end Terminal

namespace MainLoop

open CharBuffer Commands PartialRuns Terminal
open Gfx (advance)
open Keyboard (serialTyping Typing)

/-- The line has been typed from a row on that has `n` rows above it. -/
structure Below (w n : Nat) (d : Dialogue) (p : Nat × Nat) : Prop where
  grid : InGrid w p
  far : w / 8 * n + d.text.length ≤ place w p
  plain : ∀ c ∈ d.text, c ≠ 0x08

section Below

variable {w n : Nat} {p : Nat × Nat} {d : Dialogue} {a : Arrival} {c : BitVec 8}

theorem char_below (hc : c ≠ 0 ∧ c ≠ 0x08) (h : Below w n d p) (freePages : Nat) :
    Below w n (d.type freePages (.char c)) (callsEnd w (d.calls freePages (.char c)) p) := by
  have hfar := h.far
  rw [Dialogue.type, Dialogue.calls]
  split_ifs with hroom
  · have hend : callsEnd w [.write [c]] p = advance w c p.1 p.2 := callEnd_single hc.1
    have hplace := advance_place h.grid hc.2
    rw [hend]
    refine ⟨advance_inGrid c h.grid, ?_, ?_⟩
    · rw [List.length_append, List.length_singleton]
      omega
    · exact List.forall_mem_append.mpr ⟨h.plain, List.forall_mem_singleton.mpr hc.2⟩
  · exact h

theorem backspace_below (h : Below w n d p) (freePages : Nat) :
    Below w n (d.type freePages .backspace) (callsEnd w (d.calls freePages .backspace) p) := by
  have hfar := h.far
  rw [Dialogue.type, Dialogue.calls]
  split_ifs with hempty
  · exact h
  · have hend : callsEnd w [.write [0x08]] p = advance w 0x08 p.1 p.2 :=
      callEnd_single (by decide)
    have hplace := back_place h.grid
    have hsome := List.length_pos_iff.mpr hempty
    rw [hend]
    refine ⟨advance_inGrid _ h.grid, ?_, fun c hc => h.plain c (List.mem_of_mem_dropLast hc)⟩
    rw [List.length_dropLast]
    omega

/-- Enter leads to the next row, whatever the shell answers. -/
theorem enter_below (h : Below w n d p) (freePages : Nat)
    (hclear : .clear ∉ d.calls freePages .enter)
    (hreturns : (d.type freePages .enter).after = .returns) :
    Below w (n + 1) (d.type freePages .enter) (callsEnd w (d.calls freePages .enter) p) := by
  have hprompt : ∀ c ∈ characters (.write prompt), c ≠ 0x08 := by decide
  rw [Dialogue.calls] at hclear ⊢
  rw [Dialogue.type] at hreturns ⊢
  split_ifs at hclear hreturns ⊢ with hshell
  · have hrest := (List.ne_and_not_mem_of_not_mem_cons hclear).2
    have hreply : ∀ call ∈ (shell freePages d.text).1, ∀ c ∈ characters call, c ≠ 0x08 :=
      shell_plain h.plain
    have hplain := List.forall_mem_append.mpr ⟨hreply, List.forall_mem_singleton.mpr hprompt⟩
    have hfirst : callEnd w (.write [0x0A]) p = (0, p.2 + 16) := callEnd_single (by decide)
    have hgrid : InGrid w (0, p.2 + 16) := advance_inGrid 0x0A h.grid
    obtain ⟨hend, hle⟩ := callsEnd_place hgrid hplain hrest
    have hfar := newRow_far h.grid ((Nat.le_add_right _ _).trans h.far)
    have hcalls : callsEnd w (.write [0x0A] :: (shell freePages d.text).1 ++ [.write prompt]) p =
        callsEnd w ((shell freePages d.text).1 ++ [.write prompt]) (0, p.2 + 16) := by
      rw [← hfirst]
      rfl
    rw [hcalls]
    exact ⟨hend, hfar.trans hle, fun c hc => absurd hc List.not_mem_nil⟩
  · exact absurd hreturns hshell

theorem hear_stopped (arrivals : List Arrival) (h : d.after ≠ .returns) :
    arrivals.foldl Dialogue.hear d = d := by
  induction arrivals with
  | nil => rfl
  | cons a arrivals ih => rw [List.foldl_cons, Dialogue.hear, if_neg h, ih]

theorem hear_below (h : Below w n d p) (hgoes : d.after = .returns) (hclear : .clear ∉ d.answer a)
    (hreturns : (d.hear a).after = .returns) :
    Below w (n + if a.char = 0x0D then 1 else 0) (d.hear a) (callsEnd w (d.answer a) p) := by
  have hprintable : ∀ c : BitVec 8, 32 ≤ c.toInt → c ≠ 0 ∧ c ≠ 0x08 := by decide
  rw [Dialogue.answer, if_pos hgoes] at hclear ⊢
  rw [Dialogue.hear, if_pos hgoes] at hreturns ⊢
  rw [serialTyping] at hclear hreturns ⊢
  split_ifs at hclear hreturns ⊢ with henter hback hchar
  · exact enter_below h a.freePages.toNat hclear hreturns
  · exact backspace_below h a.freePages.toNat
  · exact char_below (hprintable a.char hchar.1) h a.freePages.toNat
  · exact h

/-- Every Enter that was heard has taken a row. -/
theorem arrivals_below {arrivals : List Arrival} (h : Below w n d p)
    (hclear : .clear ∉ answers arrivals d)
    (hreturns : (arrivals.foldl Dialogue.hear d).after = .returns) :
    Below w (n + arrivals.countP fun a => a.char = 0x0D) (arrivals.foldl Dialogue.hear d)
      (callsEnd w (answers arrivals d) p) := by
  induction arrivals generalizing n d p with
  | nil => exact h
  | cons a arrivals ih =>
    rw [answers, List.mem_append, not_or] at hclear
    rw [List.foldl_cons] at hreturns ⊢
    have hnext : (d.hear a).after = .returns := by
      by_contra hstops
      rw [hear_stopped arrivals hstops] at hreturns
      exact hstops hreturns
    have hgoes : d.after = .returns := by
      by_contra hstops
      rw [Dialogue.hear, if_neg hstops] at hnext
      exact hstops hnext
    have hrest := ih (hear_below h hgoes hclear.1 hnext) hclear.2 hreturns
    have hcalls : callsEnd w (answers (a :: arrivals) d) p =
        callsEnd w (answers arrivals (d.hear a)) (callsEnd w (d.answer a) p) := List.foldl_append
    have hcount : n + (a :: arrivals).countP (fun a => decide (a.char = 0x0D)) =
        n + (if a.char = 0x0D then 1 else 0) + arrivals.countP fun a => decide (a.char = 0x0D) := by
      rw [List.countP_cons]
      simp only [decide_eq_true_eq]
      omega
    rw [hcalls, hcount]
    exact hrest

/-- The banner takes the first row. -/
theorem below_greet (hwide : 8 ≤ w) : Below w 1 ⟨[], banner ++ prompt, .returns⟩
    (callsEnd w [.write banner, .write prompt] (0, 0)) := by
  have hbanner : cString banner = ascii "Nyrix Kernel v0.1" ++ [0x0A] := by decide
  have hplain : ∀ c ∈ ascii "Nyrix Kernel v0.1", c ≠ 0x08 := by decide
  have hprompt : ∀ c ∈ cString prompt, c ≠ 0x08 := by decide
  have hstart : InGrid w (0, 0) := ⟨hwide, Nat.dvd_zero 16⟩
  obtain ⟨htitle, -⟩ := textEnd_place hstart hplain
  have hrow := newRow_far htitle (n := 0) (Nat.zero_le _)
  have hline : callEnd w (.write banner) (0, 0) =
      (0, (textEnd w (ascii "Nyrix Kernel v0.1") (0, 0)).2 + 16) := by
    rw [callEnd, hbanner, textEnd, List.foldl_append]
    rfl
  obtain ⟨hgrid, hle⟩ := textEnd_place (advance_inGrid 0x0A htitle) hprompt
  have hend : callsEnd w [.write banner, .write prompt] (0, 0) =
      textEnd w (cString prompt) (0, (textEnd w (ascii "Nyrix Kernel v0.1") (0, 0)).2 + 16) := by
    rw [← hline]
    rfl
  rw [hend]
  exact ⟨hgrid, hrow.trans hle, fun c hc => absurd hc List.not_mem_nil⟩

end Below

/-- On a framebuffer below 4 GiB that is not cleared, a session that gets through, with the shell
still there, has at least two text rows more than Enters, whatever else is typed. -/
theorem session_rows {s : Terminal.State} (hserial : s.gfx.serial.useSerial = true)
    (hdraws : Draws s) (hsmall : ¬Gfx.Huge s.gfx) {arrivals : List Arrival}
    (hclear : .clear ∉ shown arrivals) (hreturns : (dialogue arrivals).after = .returns)
    (hthrough : (session arrivals s).isSome) :
    16 * (arrivals.countP (fun a => a.char = 0x0D) + 2) ≤ s.gfx.fbHeight := by
  by_cases hroom : CallsRoom s.gfx.fbWidth s.gfx.fbHeight (shown arrivals) (0, 0)
  · obtain ⟨t, -, hstands⟩ := session_stands hserial hdraws hsmall arrivals hroom
    have hbehind : .clear ∉ answers arrivals ⟨[], banner ++ prompt, .returns⟩ := fun hmem =>
      hclear (List.mem_cons_of_mem _ (List.mem_cons_of_mem _ hmem))
    have hbelow := arrivals_below (below_greet hdraws.screen.geometry.wide) hbehind hreturns
    have hrow := row_le hbelow.grid ((Nat.le_add_right _ _).trans hbelow.far)
    have hy : t.terminal.gfx.cursorY = _ := congrArg Prod.snd hstands.cursor
    have hinside := hstands.inside.2
    rw [hstands.height, hy] at hinside
    have hsame : callsEnd s.gfx.fbWidth (shown arrivals) (0, 0) =
        callsEnd s.gfx.fbWidth (answers arrivals ⟨[], banner ++ prompt, .returns⟩)
          (callsEnd s.gfx.fbWidth [.write banner, .write prompt] (0, 0)) := rfl
    rw [hsame] at hinside
    omega
  · rw [session_none hserial hdraws hsmall hroom] at hthrough
    cases hthrough

/-- Twenty-eight Enters fit on 640 by 480 pixels, and no more would. -/
theorem session_rows_enters : (session (List.replicate 28 (arrival 0x0D)) wideTerminal).isSome ∧
    16 * ((List.replicate 28 (arrival 0x0D)).countP (fun a => a.char = 0x0D) + 2) ≤ 480 := by
  obtain ⟨t, ht, -⟩ := session_stands rfl draws_wide small_wide
    (List.replicate 28 (arrival 0x0D)) (by decide +kernel)
  have hthrough : (session (List.replicate 28 (arrival 0x0D)) wideTerminal).isSome := by
    rw [ht]
    rfl
  refine ⟨hthrough, ?_⟩
  exact session_rows rfl draws_wide small_wide (by decide +kernel) (by decide +kernel) hthrough

end MainLoop
