import Nyrix.KeyboardSubmit
import Nyrix.TerminalRedraw

/-!
# The line on the screen

The keyboard handler and the terminal together, in VGA mode. Each key leaves the row of the
cursor with the prompt and the text in front of the cursor on it; the text behind the cursor is
never drawn.
-/

namespace Keyboard

open BoundedLoop CharBuffer LineEditor

/-- What an editing key asks of the terminal. -/
def Key.echo : Key → Line (BitVec 8) → List Event
  | .insert c, l => [.putchar c, .redraw (l.before ++ [c])]
  | .backspace, l => if l.before = [] then [] else [.putchar 0x08]
  | .delete, l => if l.after = [] then [] else [.redraw l.before]
  | k, l => [.redraw (k.edit l).before]

section Echo

variable {s : State} {l : Line (BitVec 8)}

/-- The text sent along when the line is redrawn. -/
theorem redraw_front {b : Buffer} {pos : Nat} (h : Holds bufferSize b pos l)
    (hshort : l.text.length < 255) : redrawInput { s with inputBuffer := b, inputPos := pos } =
      some (s.withLine (b, pos) [.redraw l.before]) := by
  have hle := h.pos_le
  have hpos : pos ≤ 255 := by omega
  rw [redrawInput_eq hpos, h.front (Nat.lt_succ_of_lt hshort)]
  rfl

section Keys

variable (h : Shows s l)
include h

theorem insertChar_echo {c : BitVec 8}
    (hholds : Holds bufferSize (lineAfter (.insert c) s.inputBuffer s.inputPos).1
      (lineAfter (.insert c) s.inputBuffer s.inputPos).2 (Key.edit (.insert c) l))
    (hshort : (Key.edit (.insert c) l).text.length < 255) : insertChar c s =
      some (s.withLine (lineAfter (.insert c) s.inputBuffer s.inputPos)
        (Key.echo (.insert c) l)) := by
  have hlt : s.inputPos < 255 := Nat.lt_of_le_of_lt h.line.pos_le h.short
  have hredraw := redraw_front (s := emit (.putchar c) s) hholds hshort
  rw [lineAfter, if_pos hlt, h.endFrom] at hredraw ⊢
  rw [insertChar_eq c (h.line.nulAt h.len) h.short]
  refine hredraw.trans (congrArg some ?_)
  simp only [State.withLine, emit, List.append_assoc]
  rfl

theorem backspace_echo : backspace s =
    some (s.withLine (lineAfter .backspace s.inputBuffer s.inputPos) (Key.echo .backspace l)) := by
  rw [lineAfter, h.endFrom, Key.echo]
  by_cases h0 : 0 < s.inputPos
  · have hne : l.before ≠ [] := by
      rw [← List.length_pos_iff, ← h.line.pos]
      exact h0
    rw [if_pos h0, backspace_eq h0 (h.line.nulAt h.len) h.len, if_neg hne]
    rfl
  · have hnil : l.before = [] := by
      rw [← List.length_eq_zero_iff, ← h.line.pos]
      omega
    rw [if_neg h0, backspace, if_neg h0, if_pos hnil, State.withLine, List.append_nil]

theorem deleteKey_echo
    (hholds : Holds bufferSize (lineAfter .delete s.inputBuffer s.inputPos).1
      (lineAfter .delete s.inputBuffer s.inputPos).2 (Key.edit .delete l))
    (hshort : (Key.edit .delete l).text.length < 255) : deleteKey s =
      some (s.withLine (lineAfter .delete s.inputBuffer s.inputPos) (Key.echo .delete l)) := by
  have hnone := h.line.at_end h.len
  have hredraw := redraw_front (s := s) hholds hshort
  rw [lineAfter, h.endFrom] at hredraw
  rw [lineAfter, deleteKey_eq (h.line.nulAt h.len) h.len, h.endFrom, Key.echo]
  by_cases hzero : s.inputBuffer s.inputPos = 0
  · have hclosed : closed s.inputBuffer s.inputPos l.text.length = s.inputBuffer := by
      rw [Line.text, hnone.mp hzero, List.append_nil, ← h.line.pos, closed_self]
    rw [if_neg (not_not.mpr hzero), if_pos (hnone.mp hzero), hclosed, State.withLine,
      List.append_nil]
  · rw [if_pos hzero, if_neg (mt hnone.mpr hzero)]
    exact hredraw

end Keys

/-- The arrows move the cursor, or leave it where it is, and redraw the line. -/
theorem arrowLeft_redraws :
    arrowLeft s = redrawInput { s with inputPos := s.inputPos - 1 } := by
  rw [arrowLeft]
  split_ifs with h0
  · rfl
  · have hzero : s.inputPos - 1 = s.inputPos := by omega
    rw [hzero]

theorem arrowRight_redraws (h : s.inputPos ≤ 255) : arrowRight s =
    redrawInput { s with inputPos := (lineAfter .right s.inputBuffer s.inputPos).2 } := by
  rw [arrowRight_eq h, lineAfter]
  split_ifs <;> rfl

theorem press_echo {k : Key} (hk : k.Edits) (hc : ∀ c, k = .insert c → c ≠ 0) (h : Shows s l)
    (hshort : (k.edit l).text.length < 255) :
    press k s = some (s.withLine (lineAfter k s.inputBuffer s.inputPos) (k.echo l)) := by
  have hholds := lineAfter_holds hk hc h
  have hredraw := redraw_front (s := s) hholds hshort
  cases k with
  | insert c => exact insertChar_echo h hholds hshort
  | backspace => exact backspace_echo h
  | delete => exact deleteKey_echo h hholds hshort
  | left => exact arrowLeft_redraws.trans hredraw
  | right => exact (arrowRight_redraws h.valid.pos).trans hredraw
  | home => exact hredraw
  | toEnd =>
    rw [lineAfter, h.endFrom] at hredraw
    rw [press, endKey_eq (h.line.nulAt h.len) (Nat.le_of_lt_succ h.len), lineAfter, h.endFrom]
    exact hredraw
  | enter => exact hk.elim
  | up => exact hk.elim
  | down => exact hk.elim

/-- What a scancode asks of the terminal. -/
theorem handleInterrupt_echo {c : BitVec 8} {t : State}
    (hedit : ∀ k ∈ (keyOf c s.modifiers).toList, k.Edits) (h : Shows s l)
    (hshort : (edited (keyOf c s.modifiers).toList l).text.length < 255)
    (ht : handleInterrupt c s = some t) :
    t.out = s.out ++ (keyOf c s.modifiers).elim [] fun k => k.echo l := by
  rw [handleInterrupt_eq c h.valid, Option.map_eq_some_iff] at ht
  obtain ⟨u, hu, rfl⟩ := ht
  cases hk : keyOf c s.modifiers with
  | none =>
    rw [hk] at hu
    obtain rfl := Option.some.inj hu
    exact (List.append_nil _).symm
  | some k =>
    rw [hk] at hu hedit hshort
    have hc : ∀ a, k = .insert a → a ≠ 0 := keyOf_insert hk
    have hpress := press_echo (hedit k List.mem_cons_self) hc h hshort
    obtain rfl := Option.some.inj (Eq.trans (Eq.symm hu) hpress)
    rfl

end Echo

end Keyboard

namespace Terminal

/-- The row of the cursor shows the prompt, a text and blanks. -/
def RowShows (s : State) (text : List (BitVec 8)) : Prop :=
  ∀ x < vgaWidth, s.vgaBuffer (s.terminalRow * vgaWidth + x) =
    vgaEntry (rowChar text x) s.terminalColor

/-- The row shows the prompt and a text, and the cursor is behind them. -/
structure ShowsLine (s : State) (text : List (BitVec 8)) : Prop where
  writes : Writes s
  line : RowShows s text
  column : s.terminalColumn = 7 + text.length

section ShowsLine

variable {s : State} {text : List (BitVec 8)}

theorem redrawInput_showsLine (h : Writes s) (hshort : 7 + text.length < 80) :
    ∃ t, redrawInput (fun i => text.getD i 0) text.length s = some t ∧ ShowsLine t text := by
  have hsame : (List.range text.length).map (fun i => text.getD i 0) = text := by
    refine List.ext_getElem (by simp) ?_
    intro i _ hi
    simp [List.getD_eq_getElem?_getD, hi]
  have heq := redrawInput_vga (b := fun i => text.getD i 0) h hshort
  rw [hsame] at heq
  exact ⟨_, heq, h.redrawn hshort, fun x hx => redrawn_cell hx, rfl⟩

/-- A backspace takes the last character of the text off the row. -/
theorem vgaPutchar_showsLine (h : ShowsLine s text) (hne : text ≠ []) :
    ∃ t, vgaPutchar 0x08 s = some t ∧ ShowsLine t text.dropLast := by
  have hpos := List.length_pos_iff.mpr hne
  have hcolumn := h.column
  have hcol : s.terminalColumn < 80 := h.writes.inCells.2
  have hleft : 0 < s.terminalColumn := by omega
  have hwrites := stepBack_writes h.writes
  have hstep : stepBack s = { s with terminalColumn := s.terminalColumn - 1 } := if_pos hleft
  rw [vgaPutchar_back, vgaWrite_some _ hwrites.cell, Option.map_some]
  refine ⟨_, rfl, (hwrites.withCells _).settled _ _, ?_, ?_⟩
  · intro x hx
    rw [hstep]
    show Function.update s.vgaBuffer (s.terminalRow * 80 + (s.terminalColumn - 1)) (blank s)
      (s.terminalRow * 80 + x) = vgaEntry (rowChar text.dropLast x) s.terminalColor
    by_cases hlast : x + 1 = 7 + text.length
    · have hcell : s.terminalRow * 80 + x = s.terminalRow * 80 + (s.terminalColumn - 1) := by omega
      have hblank : 7 + text.dropLast.length ≤ x := by
        rw [List.length_dropLast]
        omega
      rw [hcell, Function.update_self, rowChar_blank hblank]
      rfl
    · have hcell : s.terminalRow * 80 + x ≠ s.terminalRow * 80 + (s.terminalColumn - 1) := by omega
      rw [Function.update_of_ne hcell, rowChar_dropLast hlast]
      exact h.line x hx
  · rw [hstep, List.length_dropLast]
    show s.terminalColumn - 1 = _
    omega

theorem ShowsLine.sameScreen {t : State} (h : ShowsLine s text) (hsame : SameScreen s t) :
    ShowsLine t text := by
  have hwrites := h.writes.sameScreen hsame
  obtain ⟨g, rfl⟩ := hsame
  exact ⟨hwrites, h.line, h.column⟩

theorem terminalPutchar_showsLine (h : ShowsLine s text) (hne : text ≠ []) :
    ∃ t, terminalPutchar 0x08 s = some t ∧ ShowsLine t text.dropLast := by
  rw [terminalPutchar_vga h.writes]
  exact vgaPutchar_showsLine (h.sameScreen (sendSerial_sameScreen 0x08 s)) hne

/-- The row a text was written to, once the prompt is all that stands in it. -/
theorem Shows.showsLine {done : List (List (BitVec 8))} (h : Shows s done prompt) :
    ShowsLine s [] := by
  have hrow := h.row
  have htop : s.terminalRow < 25 := by omega
  have hcolumn : s.terminalColumn = 7 := h.column
  have hroom : s.terminalColumn < vgaWidth := by
    rw [hcolumn]
    decide
  refine ⟨⟨h.vga, htop, hroom⟩, ?_, hcolumn⟩
  intro x hx
  have hlast : (done ++ [prompt]).length - 25 + s.terminalRow = done.length := by
    rw [List.length_append, List.length_singleton]
    omega
  have hcell : s.vgaBuffer (s.terminalRow * 80 + x) = _ := h.cells s.terminalRow htop x hx
  rw [TextRows.cellAt_window, hlast, TextRows.cellAt_last] at hcell
  rw [rowChar, List.append_nil, List.getD_eq_getElem?_getD]
  exact hcell

/-- A text whose last row is the prompt, written after a clear. -/
theorem write_showsLine {str : List (BitVec 8)} {done : List (List (BitVec 8))}
    (hvga : s.useFramebuffer = false) (hstr : PlainText str)
    (hrows : TextRows.rows vgaWidth 0x0A str = done ++ [prompt]) :
    ∃ t, (terminalClear s).bind (terminalWrite str) = some t ∧ ShowsLine t [] := by
  obtain ⟨t, ht, hshows, hsettled, -⟩ := terminalClear_shows hvga
  obtain ⟨u, done', cur, hu, hshows', -, -, hrows'⟩ := terminalWrite_shows hstr hshows hsettled
  have hsame : done' ++ [cur] = done ++ [prompt] := hrows'.trans hrows
  obtain ⟨-, hcur⟩ := List.append_inj' hsame rfl
  obtain rfl := List.singleton_inj.mp hcur
  exact ⟨u, by rw [ht, Option.bind_some, hu], hshows'.showsLine⟩

theorem vgaEntry_char (c color : BitVec 8) : (vgaEntry c color).setWidth 8 = c := by
  ext i _
  simp [vgaEntry]

theorem vgaEntry_inj {c d color : BitVec 8} (h : vgaEntry c color = vgaEntry d color) : c = d := by
  rw [← vgaEntry_char c color, h, vgaEntry_char]

/-- The row that shows the front of a text shows all of it when the rest is blank. -/
theorem rowShows_append_iff {front rest : List (BitVec 8)} (h : RowShows s front)
    (hshort : 7 + (front ++ rest).length < 80) :
    RowShows s (front ++ rest) ↔ ∀ c ∈ rest, c = 0x20 := by
  have hlen : (front ++ rest).length = front.length + rest.length := List.length_append
  constructor
  · intro hall c hc
    obtain ⟨j, hj, rfl⟩ := List.getElem_of_mem hc
    have hcell : 7 + front.length + j < vgaWidth := by
      simp only [vgaWidth]
      omega
    have hin : 7 + front.length + j - 7 = front.length + j := by omega
    have hblank : rowChar front (7 + front.length + j) = 0x20 := rowChar_blank (by omega)
    have hchar : rowChar (front ++ rest) (7 + front.length + j) = rest[j] := by
      rw [rowChar_text (by omega), hin]
      simp [List.getD_eq_getElem?_getD, hj]
    rw [← hchar, ← hblank]
    exact vgaEntry_inj ((hall _ hcell).symm.trans (h _ hcell))
  · intro hblank x hx
    rw [h x hx]
    congr 1
    by_cases hprompt : x < 7
    · rw [rowChar_prompt hprompt, rowChar_prompt hprompt]
    · rw [rowChar_text (by omega), rowChar_text (by omega)]
      simp only [List.getD_eq_getElem?_getD]
      by_cases hfront : x - 7 < front.length
      · rw [List.getElem?_append_left hfront]
      · have hle := Nat.not_lt.mp hfront
        rw [List.getElem?_append_right hle, List.getElem?_eq_none hle]
        cases hrest : rest[x - 7 - front.length]? with
        | none => rfl
        | some c => exact (hblank c (List.mem_of_getElem? hrest)).symm

end ShowsLine

end Terminal

namespace Display

open CharBuffer LineEditor PartialRuns

abbrev State := Keyboard.State × Terminal.State

section System

variable (processCommand : List (BitVec 8) → Terminal.State → Option Terminal.State)

/-- What the terminal does when the keyboard handler calls it. -/
def perform : Keyboard.Event → Terminal.State → Option Terminal.State
  | .putchar c => Terminal.terminalPutchar c
  | .write text => Terminal.terminalWrite (text.toList.map Keyboard.ch)
  | .redraw text => Terminal.redrawInput (fun i => text.getD i 0) text.length
  | .command text => processCommand text

/-- One scancode: the handler and its calls of the terminal, which reads no more of the handler's
state than the calls pass on. -/
def interrupt (scancode : BitVec 8) (p : State) : Option State :=
  (Keyboard.handleInterrupt scancode p.1).bind fun s =>
    (runAll (perform processCommand) (s.out.drop p.1.out.length) p.2).map fun t => (s, t)

/-- The handler holds a line of the reference editor, and the row shows the front of it. -/
structure Displayed (p : State) (l : Line (BitVec 8)) : Prop where
  keyboard : Keyboard.Shows p.1 l
  terminal : Terminal.ShowsLine p.2 l.before

/-- The row shows all of the text in the buffer, and the column is that of the cursor. -/
def Agrees (p : State) : Prop :=
  Terminal.RowShows p.2 (string Keyboard.bufferSize p.1.inputBuffer) ∧
    p.2.terminalColumn = 7 + p.1.inputPos

section Steps

variable {p : State} {l : Line (BitVec 8)}

theorem before_le (l : Line (BitVec 8)) : l.before.length ≤ l.text.length := by
  rw [Line.text, List.length_append]
  exact Nat.le_add_right _ _

/-- The calls of one key leave the front of the new line on the row. -/
theorem performEcho_showsLine {k : Keyboard.Key} {t : Terminal.State} (hk : k.Edits)
    (h : Terminal.ShowsLine t l.before) (hshort : 7 + (k.edit l).text.length < 80) :
    ∃ u, runAll (perform processCommand) (k.echo l) t = some u ∧
      Terminal.ShowsLine u (k.edit l).before := by
  have hfront := before_le (k.edit l)
  have hredraw : ∀ v, Terminal.Writes v → ∃ u,
      runAll (perform processCommand) [.redraw (k.edit l).before] v = some u ∧
        Terminal.ShowsLine u (k.edit l).before := by
    intro v hv
    have hroom : 7 + (k.edit l).before.length < 80 := by omega
    obtain ⟨u, hu, hshows⟩ := Terminal.redrawInput_showsLine hv hroom
    exact ⟨u, by rw [runAll, perform, hu]; rfl, hshows⟩
  cases k with
  | insert c =>
    obtain ⟨v, hv, hwrites⟩ := Terminal.terminalPutchar_writes c h.writes
    obtain ⟨u, hu, hshows⟩ := hredraw v hwrites
    refine ⟨u, ?_, hshows⟩
    rw [Keyboard.Key.echo, runAll, perform, hv, Option.bind_some]
    exact hu
  | backspace =>
    by_cases hnil : l.before = []
    · refine ⟨t, by rw [Keyboard.Key.echo, if_pos hnil]; rfl, ?_⟩
      rw [Keyboard.Key.edit, Line.backspace, hnil, List.dropLast_nil, ← hnil]
      exact h
    · obtain ⟨u, hu, hshows⟩ := Terminal.terminalPutchar_showsLine h hnil
      refine ⟨u, ?_, hshows⟩
      rw [Keyboard.Key.echo, if_neg hnil, runAll, perform, hu]
      rfl
  | delete =>
    by_cases hnil : l.after = []
    · exact ⟨t, by rw [Keyboard.Key.echo, if_pos hnil]; rfl, h⟩
    · obtain ⟨u, hu, hshows⟩ := hredraw t h.writes
      exact ⟨u, by rw [Keyboard.Key.echo, if_neg hnil]; exact hu, hshows⟩
  | enter => exact hk.elim
  | up => exact hk.elim
  | down => exact hk.elim
  | left => exact hredraw t h.writes
  | right => exact hredraw t h.writes
  | home => exact hredraw t h.writes
  | toEnd => exact hredraw t h.writes

theorem interrupt_displayed {c : BitVec 8}
    (hedit : ∀ k ∈ (Keyboard.keyOf c p.1.modifiers).toList, k.Edits) (h : Displayed p l)
    (hshort : 7 + (Keyboard.edited (Keyboard.keyOf c p.1.modifiers).toList l).text.length < 80) :
    ∃ q, interrupt processCommand c p = some q ∧
      Displayed q (Keyboard.edited (Keyboard.keyOf c p.1.modifiers).toList l) ∧
      q.1.modifiers = p.1.modifiers.next c := by
  obtain ⟨s, hs, hshows, -, hmod⟩ := Keyboard.handleInterrupt_shows hedit h.keyboard (by omega)
  have hout := Keyboard.handleInterrupt_echo hedit h.keyboard (by omega) hs
  rw [interrupt, hs, Option.bind_some, hout, List.drop_left]
  cases hk : Keyboard.keyOf c p.1.modifiers with
  | none =>
    rw [hk] at hshows
    exact ⟨(s, p.2), rfl, ⟨hshows, h.terminal⟩, hmod⟩
  | some k =>
    rw [hk] at hshows hshort hedit
    obtain ⟨t, ht, hterminal⟩ :=
      performEcho_showsLine processCommand (hedit k List.mem_cons_self) h.terminal hshort
    exact ⟨(s, t), by rw [Option.elim_some, ht]; rfl, ⟨hshows, hterminal⟩, hmod⟩

/-- Over every sequence of editing keys the row shows the front of the line. -/
theorem run_displayed {codes : List (BitVec 8)}
    (hedit : ∀ k ∈ Keyboard.keysOf codes p.1.modifiers, k.Edits) (h : Displayed p l)
    (hshort : ∀ pre, pre <+: codes →
      7 + (Keyboard.edited (Keyboard.keysOf pre p.1.modifiers) l).text.length < 80) :
    ∃ q, runAll (interrupt processCommand) codes p = some q ∧
      Displayed q (Keyboard.edited (Keyboard.keysOf codes p.1.modifiers) l) := by
  induction codes generalizing p l with
  | nil => exact ⟨p, rfl, h⟩
  | cons c codes ih =>
    have hone := hshort [c] (List.prefix_append [c] codes)
    rw [Keyboard.keysOf] at hedit hone ⊢
    rw [Keyboard.keysOf, List.append_nil] at hone
    obtain ⟨q, hq, hdisplayed, hmod⟩ :=
      interrupt_displayed processCommand (fun k hk => hedit k (List.mem_append_left _ hk)) h hone
    rw [← hmod] at hedit ⊢
    obtain ⟨r, hr, hlast⟩ := ih (fun k hk => hedit k (List.mem_append_right _ hk)) hdisplayed
      (by
        intro pre hpre
        have hlonger := hshort (c :: pre) (List.cons_prefix_cons.mpr ⟨rfl, hpre⟩)
        rwa [Keyboard.keysOf, Keyboard.edited, List.foldl_append, ← hmod] at hlonger)
    refine ⟨r, by rw [runAll, hq, Option.bind_some, hr], ?_⟩
    rwa [Keyboard.edited, List.foldl_append]

theorem agrees_iff (h : Displayed p l) (hshort : 7 + l.text.length < 80) :
    Agrees p ↔ ∀ c ∈ l.after, c = 0x20 := by
  have hline := h.keyboard.line
  have htext : string Keyboard.bufferSize p.1.inputBuffer = l.before ++ l.after :=
    hline.padded.string hline.nonzero h.keyboard.len
  have hcolumn : p.2.terminalColumn = 7 + p.1.inputPos := by
    rw [h.terminal.column, hline.pos]
  rw [Agrees, htext, Terminal.rowShows_append_iff h.terminal.line hshort]
  exact and_iff_left hcolumn

end Steps

/-- The line stays shorter than the row behind the prompt. -/
def FitsRow (codes : List (BitVec 8)) (s : Keyboard.State) : Prop :=
  ∀ pre, pre <+: codes → 7 + (Keyboard.typedLine pre s).text.length < Terminal.vgaWidth

instance (codes : List (BitVec 8)) (s : Keyboard.State) : Decidable (FitsRow codes s) :=
  decidable_of_iff (∀ pre ∈ codes.inits,
      7 + (Keyboard.typedLine pre s).text.length < Terminal.vgaWidth)
    (forall_congr' fun _ => imp_congr_left (List.mem_inits _ _))

/-- A new line: a buffer of zeros, and a row with nothing but the prompt. -/
structure NewLine (p : State) : Prop where
  valid : Keyboard.Valid p.1
  pos : p.1.inputPos = 0
  zero : ∀ j < Keyboard.bufferSize, p.1.inputBuffer j = 0
  prompt : Terminal.ShowsLine p.2 []

theorem displayed_new {p : State} (h : NewLine p) : Displayed p Line.empty :=
  ⟨Keyboard.shows_empty h.valid h.pos h.zero, h.prompt⟩

/-- The screen agrees with the editor after each key exactly when the text behind the cursor is
blank after each key. -/
theorem keepsAgrees_iff {codes : List (BitVec 8)} {p : State} (h : NewLine p)
    (hedit : ∀ k ∈ Keyboard.keysOf codes p.1.modifiers, k.Edits) (hfits : FitsRow codes p.1) :
    Keeps (interrupt processCommand) Agrees codes p ↔
      ∀ pre, pre <+: codes → ∀ c ∈ (Keyboard.typedLine pre p.1).after, c = 0x20 := by
  have hrun : ∀ pre, pre <+: codes → ∃ q, runAll (interrupt processCommand) pre p = some q ∧
      (Agrees q ↔ ∀ c ∈ (Keyboard.typedLine pre p.1).after, c = 0x20) := by
    intro pre hpre
    obtain ⟨post, rfl⟩ := hpre
    rw [Keyboard.keysOf_append] at hedit
    obtain ⟨q, hq, hdisplayed⟩ := run_displayed processCommand
      (fun k hk => hedit k (List.mem_append_left _ hk)) (displayed_new h)
      (fun pre' hpre' => hfits pre' (hpre'.trans (List.prefix_append pre post)))
    exact ⟨q, hq, agrees_iff hdisplayed (hfits pre (List.prefix_append pre post))⟩
  constructor
  · intro hkeeps pre hpre
    obtain ⟨q, hq, hiff⟩ := hrun pre hpre
    obtain ⟨r, hr, hagrees⟩ := hkeeps pre hpre
    obtain rfl := Option.some.inj (hq.symm.trans hr)
    exact hiff.mp hagrees
  · intro hblank pre hpre
    obtain ⟨q, hq, hiff⟩ := hrun pre hpre
    exact ⟨q, hq, hiff.mpr (hblank pre hpre)⟩

end System

/-- The keyboard at boot and a terminal whose row shows the prompt. -/
def start : State := (Keyboard.State.boot, Terminal.redrawn [] Terminal.zeroed)

theorem newLine_start : NewLine start where
  valid := Keyboard.valid_boot
  pos := rfl
  zero := fun _ _ => rfl
  prompt :=
    { writes := ⟨rfl, by decide⟩
      line := fun _ hx => Terminal.redrawn_cell hx
      column := rfl }

/-- The letters a and b, and a backspace. -/
theorem keepsAgrees_typed :
    Keeps (interrupt fun _ => some) Agrees [0x1E, 0x30, 0x0E] start ↔
      ∀ pre, pre <+: [0x1E, 0x30, 0x0E] →
        ∀ c ∈ (Keyboard.typedLine pre start.1).after, c = 0x20 :=
  keepsAgrees_iff (fun _ => some) newLine_start (by decide) (by decide)

/-- The letters a and b, and the cursor moved to the left: the b is gone from the screen. -/
theorem left_hides : ¬∀ codes p, NewLine p →
    (∀ k ∈ Keyboard.keysOf codes p.1.modifiers, k.Edits) → FitsRow codes p.1 →
      Keeps (interrupt fun _ => some) Agrees codes p := by
  intro h
  have hkeeps := h [0x1E, 0x30, 0xE0, 0x4B] start newLine_start (by decide) (by decide)
  have hfits : FitsRow [0x1E, 0x30, 0xE0, 0x4B] start.1 := by decide
  obtain ⟨q, hq, hdisplayed⟩ := @run_displayed (fun _ => some) start Line.empty
    [0x1E, 0x30, 0xE0, 0x4B] (by decide) (displayed_new newLine_start) hfits
  obtain ⟨r, hr, hagrees⟩ := hkeeps _ (List.prefix_refl _)
  obtain rfl := Option.some.inj (hq.symm.trans hr)
  have hblank := (agrees_iff hdisplayed (by decide)).mp hagrees
  exact absurd (hblank (Keyboard.ch 'b') (by decide)) (by decide)

end Display
