import Nyrix.KeyboardStored
import Nyrix.SessionScreen
import Nyrix.SharedConsole
import Nyrix.TerminalRedraw

/-!
# What two devices type shows (keyboard.cpp, kernel.cpp)

Bytes on COM1 and scancodes come in any order. The keyboard handler draws the line once more after
each character, which shows the same as long as the line stays in the row of the prompt.
-/

namespace Terminal

open CharBuffer TextRows

variable {s : State} {p : Page} {before : List Cell} {text : List (BitVec 8)}

/-- The last row of the page is the prompt and the line, and drawing them again shows the page. -/
theorem redraw_presents {b : Buffer} {n : Nat} (hb : (List.range n).map b = text)
    (htext : p.text = before ++ (prompt ++ text).map (cellOf p.color))
    (hrow : (layout vgaWidth lineFeed before).2 = []) (hplain : ∀ c ∈ text, FillsCell c)
    (hshort : 7 + text.length < vgaWidth) (h : Presents s p) :
    ∃ t, redrawInput b n s = some t ∧ Presents t p := by
  have hglyphs : ∀ c ∈ prompt ++ text, FillsCell c :=
    List.forall_mem_append.mpr ⟨MainLoop.prompt_plain, hplain⟩
  have hcells := MainLoop.cells_plain hglyphs p.color
  have hlength : ((prompt ++ text).map (cellOf p.color)).length = 7 + text.length := by
    rw [List.length_map, List.length_append]
    rfl
  have hrows : p.rows = (layout vgaWidth lineFeed before).1 ++
      [(prompt ++ text).map (cellOf p.color)] := by
    rw [Page.rows, htext, layout_rows, hrow, rowsFrom_short hcells (by
      rw [hlength, List.length_nil]
      omega), List.nil_append]
  have hn : 7 + n < 80 := by
    rw [← hb, List.length_map, List.length_range] at hshort
    exact hshort
  have hat := h.row
  rw [hrows, List.length_append, List.length_singleton] at hat
  have hcolumn := h.column
  rw [hrows, List.getLast?_concat, Option.getD_some, hlength] at hcolumn
  refine ⟨redrawn text s, by rw [redrawInput_vga h.writes hn, hb], ⟨h.vga, h.color, h.row, h.inside,
    hcolumn.symm.trans h.column, ?_, fun y hy x hx => ?_⟩⟩
  · have hcell := h.writes.cell
    have hshort' : 7 + text.length < 80 := hshort
    have hinside : s.terminalRow < 25 := h.inside
    exact updateCursor_location (by omega)
  · by_cases hy' : y = s.terminalRow
    · have hlast : p.top + y = (layout vgaWidth lineFeed before).1.length := by omega
      rw [hrows, hlast, cellAt_last, hy', redrawn_cell hx, rowChar, h.color, List.getElem?_map,
        List.getD_eq_getElem?_getD]
      cases hc : (prompt ++ text)[x]? with
      | none => exact ⟨p.color, rfl, .inl rfl⟩
      | some c =>
        have hcell : cellOf p.color c = ⟨c, p.color⟩ :=
          if_neg (hglyphs c (List.mem_of_getElem? hc)).2.2
        rw [Option.map_some, Option.getD_some, Option.getD_some, hcell]
        exact ⟨p.color, rfl, .inr rfl⟩
    · have hother : ¬InRow s (y * vgaWidth + x) := by
        have hx' : x < 80 := hx
        simp only [InRow, vgaWidth]
        omega
      rw [redrawn_others hother]
      exact h.cells y hy x hx

end Terminal

namespace SharedConsole

open CharBuffer Commands Keyboard PartialRuns Terminal TextRows
open MainLoop (Dialogue Display Visible banner)

/-- What is shown goes on with what is typed, whatever device it comes from. -/
def nextShown (a : Arrival) (m : Modifiers) (d : Display) : Display :=
  if d.after = .returns then (a.input.typing m).elim d fun y => d.type a.freePages.toNat y else d

def watch : List Arrival → Modifiers → Display → Display
  | [], _, d => d
  | a :: arrivals, m, d => watch arrivals (a.input.next m) (nextShown a m d)

/-- What is said and shown in the course of these arrivals. -/
def display (color : BitVec 8) (arrivals : List Arrival) : Display :=
  watch arrivals State.boot.modifiers (MainLoop.display color [])

section Steps

variable {a : Arrival} {start u : Terminal.State} {s : Console} {d : Display} {c : BitVec 8}
  {b : Buffer} {es : List Event} {q : Option (Terminal.State × After)}

theorem range_getD (text : List (BitVec 8)) :
    (List.range text.length).map (fun i => text.getD i 0) = text := by
  refine List.ext_getElem (by simp) fun i hi hi' => ?_
  simp [List.getD_eq_getElem?_getD, hi']

theorem putchar_goes {v : Terminal.State} (h : terminalPutchar c u = some v) :
    runAll (perform a b) (.putchar c :: es) (u, .returns) =
      runAll (perform a b) es (v, .returns) := by
  have hcall : perform a b (.putchar c) (u, .returns) =
      (terminalPutchar c u).map fun s => (s, .returns) := rfl
  rw [runAll, hcall, h, Option.map_some, Option.bind_some]

theorem edit_after {y : Typing} (hy : y ≠ .enter) (freePages : Nat) :
    (d.type freePages y).after = d.after := by
  cases y with
  | enter => exact absurd rfl hy
  | char c =>
    rw [Display.type, Dialogue.type]
    split_ifs <;> rfl
  | backspace =>
    rw [Display.type, Dialogue.type]
    split_ifs <;> rfl

/-- The calls for one input show what is typed. -/
theorem calls_visible {y : Option Typing} (hreturns : d.after = .returns)
    (hvisible : Visible u d) (hcalls : Calls d.text y es)
    (hplain : ∀ c, y = some (.char c) → d.text.length < 255 → FillsCell c)
    (hline : y = some .enter → ∃ n < bufferSize, NulAt b 0 n ∧ string bufferSize b = d.text)
    (hshort : 7 + (y.elim d fun y => d.type a.freePages.toNat y).text.length < vgaWidth) :
    ∃ v, runAll (perform a b) es (u, .returns) =
        some (v, (y.elim d fun y => d.type a.freePages.toNat y).after) ∧
      Visible v (y.elim d fun y => d.type a.freePages.toNat y) := by
  cases hcalls with
  | none => exact ⟨u, by rw [runAll, Option.elim_none, hreturns], hvisible⟩
  | @serial c hroom =>
    obtain ⟨v, hv, hnext⟩ := MainLoop.put_visible hvisible hreturns (hplain c rfl hroom) hroom
      a.freePages.toNat
    refine ⟨v, ?_, hnext⟩
    rw [putchar_goes hv, runAll, Option.elim_some, edit_after (by simp), hreturns]
  | @key c hroom =>
    obtain ⟨v, hv, hnext⟩ := MainLoop.put_visible hvisible hreturns (hplain c rfl hroom) hroom
      a.freePages.toNat
    have hafter : (d.type a.freePages.toNat (.char c)).after = .returns :=
      (edit_after (by simp) _).trans hreturns
    obtain ⟨before, hends⟩ := hnext.line hafter
    have htext : (d.type a.freePages.toNat (.char c)).text = d.text ++ [c] := by
      rw [Display.type, Dialogue.type, if_pos hroom]
    rw [Option.elim_some, htext] at hshort
    have hline' := hends.text
    have hplain' := hends.plain
    rw [htext] at hline' hplain'
    obtain ⟨w, hw, hpresents⟩ := redraw_presents (range_getD (d.text ++ [c])) hline' hends.row
      hplain' hshort hnext.presents
    have hcall : perform a b (.redraw (d.text ++ [c])) (v, .returns) =
        (Terminal.redrawInput (fun i => (d.text ++ [c]).getD i 0) (d.text ++ [c]).length v).map
          fun s => (s, .returns) := rfl
    refine ⟨w, ?_, hpresents, hnext.line⟩
    rw [putchar_goes hv, runAll, hcall, hw, Option.map_some, Option.bind_some, runAll,
      Option.elim_some, hafter]
  | @full c hfull =>
    refine ⟨u, ?_, MainLoop.full_visible hvisible hfull _⟩
    rw [runAll, Option.elim_some, edit_after (by simp), hreturns]
  | backspace hsome =>
    obtain ⟨v, hv, hnext⟩ := MainLoop.back_visible hvisible hreturns hsome a.freePages.toNat
    refine ⟨v, ?_, hnext⟩
    rw [putchar_goes hv, runAll, Option.elim_some, edit_after (by simp), hreturns]
  | start hempty =>
    refine ⟨u, ?_, MainLoop.start_visible hvisible hempty _⟩
    rw [runAll, Option.elim_some, edit_after (by simp), hreturns]
  | enter =>
    obtain ⟨n, hn, hnul, hstring⟩ := hline rfl
    obtain ⟨v, w, hv, hw, hstops, hagain⟩ :=
      MainLoop.reply_visible hvisible hreturns a.freePages.toNat
    have hafter : (d.type a.freePages.toNat .enter).after = (shell a.freePages.toNat d.text).2 := by
      rw [Display.type, Dialogue.type]
      dsimp only
      split_ifs with hshell
      · exact hshell.symm
      · rfl
    have hcommands : runAll (perform a b) ((commandOf d.text).map .command) (v, .returns) =
        some (w, (shell a.freePages.toNat d.text).2) := by
      by_cases hempty : d.text = []
      · rw [hempty] at hw ⊢
        obtain rfl : v = w := Option.some.inj hw
        rfl
      · have hcall : perform a b (.command d.text) (v, .returns) =
            (Commands.processCommand bufferSize b a.freePages a.array).bind fun made =>
              (runAll Terminal.perform made.1 v).map fun s => (s, made.2) := rfl
        rw [commandOf, if_neg hempty, List.map_singleton, runAll, hcall,
          processCommand_shell hnul hn, hstring, Option.bind_some, hw, Option.map_some,
          Option.bind_some, runAll]
    rw [Option.elim_some, hafter, List.cons_append, putchar_goes hv, runAll_append, hcommands,
      Option.bind_some]
    by_cases hshell : (shell a.freePages.toNat d.text).2 = .returns
    · obtain ⟨x, hx, hlast⟩ := hagain hshell
      refine ⟨x, ?_, hlast⟩
      have htext : ("nyrix> ".toList.map ch) = prompt := by decide
      have hcall : perform a b (.write "nyrix> ") (w, .returns) =
        (terminalWrite ("nyrix> ".toList.map ch) w).map fun s => (s, .returns) := rfl
      rw [hshell, runAll, hcall, htext, hx, Option.map_some, Option.bind_some, runAll]
    · refine ⟨w, ?_, hstops hshell⟩
      have hskip : perform a b (.write "nyrix> ") (w, (shell a.freePages.toNat d.text).2) =
        some (w, (shell a.freePages.toNat d.text).2) := if_pos hshell
      rw [runAll, hskip, Option.bind_some, runAll]

/-- No device types a line feed or a backspace as a character. -/
theorem typing_plain {i : Input} {m : Modifiers} (h : i.typing m = some (.char c)) :
    c ≠ 0x0A ∧ c ≠ 0x08 := by
  cases i with
  | serial x =>
    have hprintable : ∀ c : BitVec 8, 32 ≤ c.toInt → c ≠ 0x0A ∧ c ≠ 0x08 := by decide
    rw [Input.typing, serialTyping] at h
    split_ifs at h with henter hback hchar
    · cases h
    · cases h
    · obtain rfl := Typing.char.inj (Option.some.inj h)
      exact hprintable x hchar.1
  | scancode x =>
    obtain ⟨k, hk, htyping⟩ := Option.bind_eq_some_iff.mp h
    cases k with
    | insert x =>
      obtain rfl := Typing.char.inj (Option.some.inj htyping)
      exact keyOf_plain hk
    | _ => cases htyping

/-- Nor is a NUL typed: the line is a text. -/
theorem typed_nonzero {k : Keyboard.State} {e : Entry} (hroom : e.text.length < 255)
    (h : Keyboard.Follows k (typed (some (Typing.char c)).toList e)) : c ≠ 0 := by
  have htext : beforeCursor k = e.text ++ [c] := by
    have hlast : (e.type (.char c)).text = e.text ++ [c] := by rw [Entry.type, if_pos hroom]
    rw [h.text]
    exact hlast
  have hmem : c ∈ beforeCursor k := by
    rw [htext]
    exact List.mem_append_right _ (List.mem_singleton_self c)
  obtain ⟨j, hj, rfl⟩ := List.mem_map.mp hmem
  exact h.textBefore j (List.mem_range.mp hj)

end Steps

section Runs

variable {a : Arrival} {start : Terminal.State} {s : Console} {d : Display}

theorem next_dialogue (a : Arrival) (m : Modifiers) (d : Display) :
    (nextShown a m d).toDialogue = next a m d.toDialogue := by
  rw [nextShown, next]
  split_ifs
  · cases a.input.typing m with
    | none => rfl
    | some y => rfl
  · rfl

theorem watch_dialogue (arrivals : List Arrival) (m : Modifiers) (d : Display) :
    (watch arrivals m d).toDialogue = hear arrivals m d.toDialogue := by
  induction arrivals generalizing m d with
  | nil => rfl
  | cons a arrivals ih => rw [watch, ih, next_dialogue, hear]

theorem watch_stopped (arrivals : List Arrival) (m : Modifiers) (h : d.after ≠ .returns) :
    watch arrivals m d = d := by
  induction arrivals generalizing m with
  | nil => rfl
  | cons a arrivals ih => rw [watch, nextShown, if_neg h, ih]

theorem handle_visible {k : Keyboard.State} (hE0 : a.input ≠ .scancode 0xE0)
    (hreturns : s.after = .returns) (h : Follows start s d.toDialogue)
    (hvisible : Visible s.terminal d) (hk : handleInput a.input s.keyboard = some k)
    (hshort : 7 + (next a s.keyboard.modifiers d.toDialogue).text.length < vgaWidth) :
    ∃ t, handle a s = some t ∧ Visible t.terminal (nextShown a s.keyboard.modifiers d) ∧
      t.keyboard = k := by
  have hkeyboard := h.keyboard hreturns
  have hreturns' : d.after = .returns := h.after.symm.trans hreturns
  obtain ⟨hfollows, -⟩ := handleInput_follows hE0 hkeyboard hk
  obtain ⟨calls, hout, hcalls, hline⟩ := handleInput_calls hkeyboard hk
  have hshown : nextShown a s.keyboard.modifiers d = (a.input.typing s.keyboard.modifiers).elim d
      fun y => d.type a.freePages.toNat y := if_pos hreturns'
  rw [← next_dialogue, hshown] at hshort
  obtain ⟨v, hv, hnext⟩ := calls_visible (b := k.inputBuffer) hreturns' hvisible hcalls
    (fun c hc hroom => by
      rw [hc] at hfollows
      exact ⟨typed_nonzero hroom hfollows, (typing_plain hc).2, (typing_plain hc).1⟩)
    (fun henter => by
      obtain ⟨hpos, hnul, hstring⟩ := cutLine_string hkeyboard
      exact ⟨_, hpos, hline henter ▸ hnul, hline henter ▸ hstring⟩) hshort
  rw [← hshown] at hv hnext
  refine ⟨⟨k, v, (nextShown a s.keyboard.modifiers d).after⟩, ?_, hnext, rfl⟩
  rw [handle, if_neg (not_not.mpr hreturns), hk, Option.bind_some, hout, List.drop_left, hv,
    Option.map_some]

theorem run_visible {arrivals : List Arrival} (hvga : start.useFramebuffer = false)
    (hE0 : NoPrefix (arrivals.map (·.input))) (h : Follows start s d.toDialogue)
    (hvisible : Visible s.terminal d)
    (hin : ∀ pre a, pre ++ [a] <+: arrivals →
      (hear pre s.keyboard.modifiers d.toDialogue).after = .returns →
        (runInputs ((pre ++ [a]).map (·.input)) s.keyboard).isSome)
    (hshort : ∀ pre, pre <+: arrivals →
      7 + (hear pre s.keyboard.modifiers d.toDialogue).text.length < vgaWidth) :
    ∃ t, runAll handle arrivals s = some t ∧
      Visible t.terminal (watch arrivals s.keyboard.modifiers d) := by
  induction arrivals generalizing s d with
  | nil => exact ⟨s, rfl, hvisible⟩
  | cons a arrivals ih =>
    by_cases hreturns : s.after = .returns
    · have hreturns' : d.after = .returns := h.after.symm.trans hreturns
      obtain ⟨t, ht⟩ := Option.isSome_iff_exists.mp
        (hin [] a (List.prefix_append [a] arrivals) hreturns')
      rw [List.nil_append, List.map_singleton, runInputs, Option.bind_eq_some_iff] at ht
      obtain ⟨k, hk, -⟩ := ht
      obtain ⟨ha, harrivals⟩ := List.ne_and_not_mem_of_not_mem_cons hE0
      obtain ⟨u, hu, hnext, rfl⟩ := handle_visible (Ne.symm ha) hreturns h hvisible hk
        (hshort [a] (List.prefix_append [a] arrivals))
      obtain ⟨hfollows, hmod⟩ := handle_follows hvga (Ne.symm ha) h hu
      rw [← next_dialogue] at hfollows
      rw [runAll, hu, Option.bind_some, watch]
      by_cases hagain : u.after = .returns
      · rw [← hmod hagain]
        refine ih harrivals hfollows hnext (fun pre b hpre hgoes => ?_) fun pre hpre => ?_
        · rw [hmod hagain, next_dialogue] at hgoes
          have hsome := hin (a :: pre) b (List.cons_prefix_cons.mpr ⟨rfl, hpre⟩) hgoes
          rwa [List.cons_append, List.map_cons, runInputs, hk, Option.bind_some] at hsome
        · rw [hmod hagain, next_dialogue]
          exact hshort (a :: pre) (List.cons_prefix_cons.mpr ⟨rfl, hpre⟩)
      · rw [watch_stopped _ _ (hfollows.after ▸ hagain)]
        exact ⟨u, run_stopped arrivals hagain, hnext⟩
    · rw [watch_stopped _ _ (h.after ▸ hreturns)]
      exact ⟨s, run_stopped _ hreturns, hvisible⟩

end Runs

/-- Until the dialogue has stopped no handler leaves its arrays. -/
def HandlersInside (arrivals : List Arrival) : Prop :=
  ∀ pre a, pre ++ [a] <+: arrivals → (dialogue pre).after = .returns →
    (runInputs ((pre ++ [a]).map (·.input)) State.boot).isSome

theorem handlersInside_of_runs {arrivals : List Arrival}
    (h : (runInputs (arrivals.map (·.input)) State.boot).isSome) : HandlersInside arrivals := by
  rintro pre a ⟨rest, rfl⟩ -
  rw [List.map_append, runInputs_append] at h
  exact Option.isSome_of_isSome_bind h

/-- A session gets through when the line always leaves a cell of its row for the cursor. -/
theorem session_visible {s : Terminal.State} {arrivals : List Arrival}
    (hserial : s.gfx.serial.useSerial = true) (hvga : s.useFramebuffer = false)
    (hE0 : NoPrefix (arrivals.map (·.input)))
    (hin : HandlersInside arrivals)
    (hshort : ∀ pre, pre <+: arrivals → 7 + (dialogue pre).text.length < vgaWidth) :
    ∃ t, session arrivals s = some t ∧ Visible t.terminal (display s.terminalColor arrivals) := by
  obtain ⟨u, hgreet, hvisible⟩ := MainLoop.greet_visible hvga
  rw [session, hgreet, Option.bind_some]
  exact run_visible hvga hE0 (follows_greet hserial hgreet) hvisible hin hshort

/-- However bytes on COM1 and scancodes without a prefix alternate, on the VGA screen what has gone
out on COM1 when the session gets through is what the dialogue says, whichever device each character
was typed on. A session gets through when the handlers stay inside their arrays until the dialogue
has stopped and the line leaves a cell of its row for the cursor. -/
theorem shared_dialogue {s : Terminal.State} (hserial : s.gfx.serial.useSerial = true)
    (hvga : s.useFramebuffer = false) (arrivals : List Arrival)
    (hE0 : NoPrefix (arrivals.map (·.input))) :
    (∀ t, session arrivals s = some t →
      t.terminal.gfx.serial.sent = s.gfx.serial.sent ++ (dialogue arrivals).said.flatMap wire ∧
      t.after = (dialogue arrivals).after) ∧
    (HandlersInside arrivals →
      (∀ pre, pre <+: arrivals → 7 + (dialogue pre).text.length < vgaWidth) →
      ∃ t, session arrivals s = some t) := by
  have hwire : sends s.useFramebuffer = wire := by
    rw [hvga]
    rfl
  constructor
  · intro t ht
    rw [session, Option.bind_eq_some_iff] at ht
    obtain ⟨u, hgreet, hrun⟩ := ht
    have hfollows := run_follows hvga hE0 (follows_greet hserial hgreet) hrun
    exact ⟨hwire ▸ hfollows.said.sent, hfollows.after⟩
  · intro hin hshort
    obtain ⟨t, ht, -⟩ := session_visible hserial hvga hE0 hin hshort
    exact ⟨t, ht⟩

/-- An input while 32768 pages are free. -/
def arrival (i : Input) : Arrival := ⟨i, 32768#32, fun _ => 0xFF#8⟩

/-- The letters p from the serial port and S from the keyboard, a Backspace there, s from the
serial port, and Enter from the keyboard. -/
def mixed : List Arrival :=
  [.serial 0x70, .scancode 0x2A, .scancode 0x1F, .scancode 0xAA, .scancode 0x0E, .serial 0x73,
    .scancode 0x1C].map arrival

theorem shared_dialogue_mixed : ∃ t, session mixed zeroed = some t ∧ t.after = .returns ∧
    t.terminal.gfx.serial.sent = (dialogue mixed).said.flatMap wire ∧
    (dialogue mixed).said = banner ++ prompt ++ ascii ("pS\x08s\nPID  State\n" ++
      "  0  running (kernel main)\n  1  running (test thread)\n") ++ prompt := by
  have hE0 : NoPrefix (mixed.map (·.input)) := by
    unfold NoPrefix
    decide
  obtain ⟨hsaid, hruns⟩ := shared_dialogue (s := zeroed) rfl rfl mixed hE0
  have hshort : ∀ pre ∈ mixed.inits, 7 + (dialogue pre).text.length < vgaWidth := by decide
  obtain ⟨t, ht⟩ := hruns (handlersInside_of_runs (by decide))
    fun pre hpre => hshort pre ((List.mem_inits pre mixed).mpr hpre)
  obtain ⟨hsent, hafter⟩ := hsaid t ht
  exact ⟨t, ht, hafter.trans (by decide), hsent, by decide⟩

/-- However bytes on COM1 and scancodes without a prefix alternate, on the VGA screen the session
gets through and the screen shows the page they type together, as if on one device: its last row is
the prompt and the line. Until the dialogue has stopped the handlers must stay inside their arrays,
and the line must leave a cell of its row for the cursor. -/
theorem shared_screen {s : Terminal.State} (hserial : s.gfx.serial.useSerial = true)
    (hvga : s.useFramebuffer = false) (arrivals : List Arrival)
    (hE0 : NoPrefix (arrivals.map (·.input)))
    (hin : HandlersInside arrivals)
    (hshort : ∀ pre, pre <+: arrivals → 7 + (dialogue pre).text.length < vgaWidth) :
    (display s.terminalColor arrivals).toDialogue = dialogue arrivals ∧
    ∃ t, session arrivals s = some t ∧
      Visible t.terminal (display s.terminalColor arrivals) := by
  refine ⟨watch_dialogue arrivals _ _, ?_⟩
  exact session_visible hserial hvga hE0 hin hshort

/-- Of the letters p and S, typed on two devices, a Backspace and s the first row after the banner
keeps p and s. -/
theorem shared_screen_mixed : ∃ t, session (mixed.take 6) zeroed = some t ∧
    Cell.ShownBy ⟨0x70, 0x0F⟩ (t.terminal.vgaBuffer (1 * vgaWidth + 7)) ∧
    Cell.ShownBy ⟨0x73, 0x0F⟩ (t.terminal.vgaBuffer (1 * vgaWidth + 8)) := by
  have hE0 : NoPrefix ((mixed.take 6).map (·.input)) := by
    unfold NoPrefix
    decide
  have hshort : ∀ pre ∈ (mixed.take 6).inits, 7 + (dialogue pre).text.length < vgaWidth := by
    decide
  obtain ⟨-, t, ht, hvisible⟩ := shared_screen (s := zeroed) rfl rfl (mixed.take 6) hE0
    (handlersInside_of_runs (by decide)) fun pre hpre => hshort pre ((List.mem_inits pre _).mpr hpre)
  have hcells := hvisible.presents.cells 1 (by decide)
  refine ⟨t, ht, ?_, ?_⟩
  · exact hcells 7 (by decide)
  · exact hcells 8 (by decide)

end SharedConsole
