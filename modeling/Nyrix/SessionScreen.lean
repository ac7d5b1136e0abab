import Nyrix.MainLoop
import Nyrix.TerminalPage

/-!
# What a session at the serial port shows (kernel.cpp)

Next to the dialogue a page is kept of what it has printed since the screen was last cleared, with
what was taken back taken off. This is what the VGA screen shows of a session.
-/

namespace Terminal

open PartialRuns TextRows

/-- What a call of the command interpreter does to the page. -/
def Page.call (p : Page) : Commands.Call → Page
  | .write str => p.write (cString str)
  | .clear => .empty p.color
  | .setcolor color => { p with color := color }

section Calls

variable {s : State} {p : Page}

theorem Page.write_text (p : Page) (str : List (BitVec 8)) :
    (p.write str).text = p.text ++ str.map (cellOf p.color) ∧ (p.write str).color = p.color := by
  induction str generalizing p with
  | nil => exact ⟨(List.append_nil _).symm, rfl⟩
  | cons c str ih =>
    obtain ⟨htext, hcolor⟩ := ih (p.put c)
    refine ⟨htext.trans ?_, hcolor⟩
    change (p.text ++ [cellOf p.color c]) ++ _ = _
    rw [List.append_assoc]
    rfl

theorem terminalWrite_presents {str : List (BitVec 8)} (hstr : ∀ c ∈ cString str, c ≠ 0x08)
    (h : Presents s p) :
    ∃ t, terminalWrite str s = some t ∧ Presents t (p.write (cString str)) := by
  induction str generalizing s p with
  | nil => exact ⟨s, rfl, h⟩
  | cons c str ih =>
    by_cases hnul : c = 0
    · subst hnul
      exact ⟨s, rfl, h⟩
    · have hcut : cString (c :: str) = c :: cString str :=
        List.takeWhile_cons_of_pos (bne_iff_ne.mpr hnul)
      rw [hcut] at hstr ⊢
      obtain ⟨hback, hstr⟩ := List.forall_mem_cons.mp hstr
      obtain ⟨t, ht, hnext⟩ := putchar_presents hback h
      rw [terminalWrite, if_neg hnul, ht, Option.bind_some]
      exact ih hstr hnext

theorem call_presents {call : Commands.Call} (hcall : ∀ c ∈ characters call, c ≠ 0x08)
    (h : Presents s p) : ∃ t, perform call s = some t ∧ Presents t (p.call call) := by
  cases call with
  | write str => exact terminalWrite_presents hcall h
  | clear =>
    have hclear := clear_presents h.vga
    rwa [h.color] at hclear
  | setcolor color => exact ⟨_, rfl, setcolor_presents color h⟩

theorem calls_present {calls : List Commands.Call}
    (hcalls : ∀ call ∈ calls, ∀ c ∈ characters call, c ≠ 0x08) (h : Presents s p) :
    ∃ t, runAll perform calls s = some t ∧ Presents t (calls.foldl Page.call p) := by
  induction calls generalizing s p with
  | nil => exact ⟨s, rfl, h⟩
  | cons call calls ih =>
    obtain ⟨hcall, hcalls⟩ := List.forall_mem_cons.mp hcalls
    obtain ⟨t, ht, hnext⟩ := call_presents hcall h
    rw [runAll, ht, Option.bind_some]
    exact ih hcalls hnext

/-- The next character starts a row. -/
def Page.AtStart (p : Page) : Prop := (layout vgaWidth lineFeed p.text).2 = []

theorem write_atStart (str : List (BitVec 8)) (p : Page) : (p.write (str ++ [0x0A])).AtStart := by
  have hfeed : [(0x0A : BitVec 8)].map (cellOf p.color) = [lineFeed] := rfl
  rw [Page.AtStart, (p.write_text _).1, List.map_append, hfeed, ← List.append_assoc]
  exact layout_newRow _

end Calls

end Terminal

namespace Commands

open CharBuffer Terminal

theorem puts_plain {s : String} (hs : ∀ c ∈ ascii s, c ≠ 0x08) :
    ∀ c ∈ characters (puts s), c ≠ 0x08 :=
  fun c hc => hs c ((List.takeWhile_sublist _).subset hc)

theorem repr_plain (n : Nat) : ∀ c ∈ ascii n.repr, c ≠ 0x08 := by
  intro c hc
  rw [ascii, Nat.toList_repr] at hc
  obtain ⟨d, hd, rfl⟩ := List.mem_map.mp hc
  have hdigit := Nat.isDigit_of_mem_toDigits (by decide) (by decide) hd
  simp only [Char.isDigit, Bool.and_eq_true, decide_eq_true_eq] at hdigit
  have hrange : 48 ≤ d.toNat ∧ d.toNat ≤ 57 := hdigit
  intro hback
  have hbyte : d.toNat % 256 = 8 := congrArg BitVec.toNat hback
  omega

/-- No command prints a backspace that is not in its line. -/
theorem shell_plain {freePages : Nat} {line : List (BitVec 8)} (hline : ∀ c ∈ line, c ≠ 0x08) :
    ∀ call ∈ (shell freePages line).1, ∀ c ∈ characters call, c ≠ 0x08 := by
  have hpart {str : List (BitVec 8)} (hstr : str ⊆ line) :
      ∀ c ∈ characters (.write str), c ≠ 0x08 :=
    fun c hc => hline c (hstr ((List.takeWhile_sublist _).subset hc))
  have hcolor (color : BitVec 8) : ∀ c ∈ characters (.setcolor color), c ≠ 0x08 :=
    fun c hc => absurd hc List.not_mem_nil
  have hnone : ∀ call ∈ ([] : List Call), ∀ c ∈ characters call, c ≠ 0x08 :=
    fun call hcall => absurd hcall List.not_mem_nil
  rw [shell]
  cases hparse : Command.parse line with
  | none => exact hnone
  | some command =>
    have hread := Command.line_parse hparse
    rw [answer]
    cases command with
    | clear => exact List.forall_mem_cons.mpr ⟨fun c hc => absurd hc List.not_mem_nil, hnone⟩
    | echo str =>
      have hstr : str ⊆ line := hread ▸ List.subset_append_right _ _
      simp only [Command.reply, List.forall_mem_cons]
      exact ⟨hpart hstr, puts_plain (by simp [ascii]), hnone⟩
    | memstat =>
      simp only [Command.reply, List.forall_mem_cons]
      exact ⟨puts_plain (by simp [ascii]), puts_plain (repr_plain _), puts_plain (by simp [ascii]),
        puts_plain (repr_plain _), puts_plain (by simp [ascii]), hnone⟩
    | unknown str =>
      obtain rfl : str = line := hread
      simp only [Command.reply, List.forall_mem_cons]
      exact ⟨hcolor _, puts_plain (by simp [ascii]), hpart (List.Subset.refl _),
        puts_plain (by simp [ascii]), hcolor _, hnone⟩
    | _ =>
      simp only [Command.reply, helpText, List.forall_mem_cons]
      repeat' apply And.intro
      all_goals
        first
          | exact hnone
          | exact hcolor _
          | exact puts_plain (by simp [ascii])

theorem puts_atStart {s : String} (hs : ∀ c ∈ ascii s, c ≠ 0)
    (hend : (ascii s).getLast? = some 0x0A) (p : Page) : (p.call (puts s)).AtStart := by
  have hwhole : cString (ascii s) = ascii s :=
    List.takeWhile_eq_self_iff.mpr fun c hc => bne_iff_ne.mpr (hs c hc)
  obtain ⟨str, hstr⟩ := List.getLast?_eq_some_iff.mp hend
  have hwrite : p.call (puts s) = p.write (str ++ [0x0A]) := by
    rw [puts, Page.call, hwhole, hstr]
  rw [hwrite]
  exact write_atStart str p

/-- Every command leaves the next character at the start of a row. -/
theorem shell_atStart (freePages : Nat) (line : List (BitVec 8)) {p : Page} (hp : p.AtStart) :
    ((shell freePages line).1.foldl Page.call p).AtStart := by
  have hcolor {q : Page} (color : BitVec 8) (hq : q.AtStart) : (q.call (.setcolor color)).AtStart :=
    hq
  rw [shell]
  cases Command.parse line with
  | none => exact hp
  | some command =>
    rw [answer]
    cases command with
    | clear => exact rfl
    | help =>
      simp only [Command.reply, helpText, List.foldl_cons, List.foldl_nil]
      exact hcolor _ (puts_atStart (by simp [ascii]) (by simp [ascii]) _)
    | reboot =>
      simp only [Command.reply, List.foldl_cons, List.foldl_nil]
      exact hcolor _ (puts_atStart (by simp [ascii]) (by simp [ascii]) _)
    | unknown str =>
      simp only [Command.reply, List.foldl_cons, List.foldl_nil]
      exact hcolor _ (puts_atStart (by simp [ascii]) (by simp [ascii]) _)
    | _ =>
      simp only [Command.reply, List.foldl_cons, List.foldl_nil]
      exact puts_atStart (by simp [ascii]) (by simp [ascii]) _

end Commands

namespace MainLoop

open CharBuffer Commands PartialRuns Terminal TextRows
open Keyboard (serialTyping Typing)

structure Display extends Dialogue where
  page : Page

def Display.type (d : Display) (freePages : Nat) (y : Typing) : Display where
  toDialogue := d.toDialogue.type freePages y
  page := match y with
    | .char c => if d.text.length < 255 then d.page.put c else d.page
    | .backspace => if d.text = [] then d.page else d.page.takeBack
    | .enter =>
      let r := shell freePages d.text
      let page := r.1.foldl Page.call (d.page.put 0x0A)
      if r.2 = .returns then page.write prompt else page

def Display.hear (d : Display) (a : Arrival) : Display :=
  if d.after = .returns then
    (serialTyping a.char).elim d fun y => d.type a.freePages.toNat y
  else d

/-- What is said and shown in the course of these arrivals. -/
def display (color : BitVec 8) (arrivals : List Arrival) : Display :=
  arrivals.foldl Display.hear
    ⟨⟨[], banner ++ prompt, .returns⟩, (Page.empty color).write (banner ++ prompt)⟩

/-- The page ends in the prompt, which starts a row that is on the screen, and the line. -/
structure EndsInLine (d : Display) (before : List Cell) : Prop where
  text : d.page.text = before ++ (prompt ++ d.text).map (cellOf d.page.color)
  row : (layout vgaWidth lineFeed before).2 = []
  top : d.page.top ≤ (layout vgaWidth lineFeed before).1.length
  plain : ∀ c ∈ d.text, FillsCell c
  length : d.text.length ≤ 255

section Line

variable {d : Display} {before t : List Cell} {p : Page} {c : BitVec 8}

theorem cells_plain {str : List (BitVec 8)} (hstr : ∀ c ∈ str, FillsCell c) (color : BitVec 8) :
    ∀ cell ∈ str.map (cellOf color), cell ≠ lineFeed := by
  intro cell hcell
  obtain ⟨c, hc, rfl⟩ := List.mem_map.mp hcell
  exact cellOf_ne (hstr c hc).2.2 color

theorem prompt_plain : ∀ c ∈ prompt, FillsCell c := by decide

theorem EndsInLine.cells (h : EndsInLine d before) :
    ∀ cell ∈ (prompt ++ d.text).map (cellOf d.page.color), cell ≠ lineFeed :=
  cells_plain (List.forall_mem_append.mpr ⟨prompt_plain, h.plain⟩) _

/-- A row on the screen stays there while a line is printed from it on. -/
theorem put_top (htext : p.text = before ++ t) (hrow : (layout vgaWidth lineFeed before).2 = [])
    (ht : ∀ cell ∈ t, cell ≠ lineFeed) (hc : FillsCell c) (hlength : t.length ≤ 262)
    (htop : p.top ≤ (layout vgaWidth lineFeed before).1.length) :
    (p.put c).top ≤ (layout vgaWidth lineFeed before).1.length := by
  have hplain : ∀ cell ∈ t ++ [cellOf p.color c], cell ≠ lineFeed :=
    List.forall_mem_append.mpr ⟨ht, List.forall_mem_singleton.mpr (cellOf_ne hc.2.2 _)⟩
  have hshort : (t.length + 1) / vgaWidth < vgaHeight := by
    simp only [vgaWidth, vgaHeight]
    omega
  exact TextRows.Page.put_top htext hrow hplain hshort htop (by decide)

theorem write_top {str : List (BitVec 8)} (htext : p.text = before ++ t)
    (hrow : (layout vgaWidth lineFeed before).2 = []) (ht : ∀ cell ∈ t, cell ≠ lineFeed)
    (hstr : ∀ c ∈ str, FillsCell c) (hlength : t.length + str.length ≤ 262)
    (htop : p.top ≤ (layout vgaWidth lineFeed before).1.length) :
    (p.write str).top ≤ (layout vgaWidth lineFeed before).1.length := by
  induction str generalizing p t with
  | nil => exact htop
  | cons c str ih =>
    obtain ⟨hc, hstr⟩ := List.forall_mem_cons.mp hstr
    rw [List.length_cons] at hlength
    have hnext : (p.put c).text = before ++ (t ++ [cellOf p.color c]) := by
      rw [← List.append_assoc, ← htext]
      rfl
    have hplain : ∀ cell ∈ t ++ [cellOf p.color c], cell ≠ lineFeed :=
      List.forall_mem_append.mpr ⟨ht, List.forall_mem_singleton.mpr (cellOf_ne hc.2.2 _)⟩
    refine ih hnext hplain hstr ?_ (put_top htext hrow ht hc (by omega) htop)
    rw [List.length_append, List.length_singleton]
    omega

/-- The prompt at the start of a row, with an empty line. -/
theorem endsInLine_prompt (hrow : p.AtStart)
    (htop : p.top ≤ (layout vgaWidth lineFeed p.text).1.length) (said : List (BitVec 8)) :
    EndsInLine ⟨⟨[], said, .returns⟩, p.write prompt⟩ p.text where
  text := by
    rw [(p.write_text prompt).2, List.append_nil]
    exact (p.write_text prompt).1
  row := hrow
  top := write_top (List.append_nil _).symm hrow (fun _ h => absurd h List.not_mem_nil)
    prompt_plain (by decide) htop
  plain := fun _ h => absurd h List.not_mem_nil
  length := Nat.zero_le _

theorem EndsInLine.char (h : EndsInLine d before) (hc : FillsCell c) (freePages : Nat) :
    EndsInLine (d.type freePages (.char c)) before := by
  rw [Display.type, Dialogue.type]
  split_ifs with hroom
  · refine ⟨?_, h.row, ?_, ?_, ?_⟩
    · change d.page.text ++ [cellOf d.page.color c] = _
      rw [h.text]
      simp only [List.map_append, List.map_singleton, List.append_assoc]
      rfl
    · have hlength : ((prompt ++ d.text).map (cellOf d.page.color)).length ≤ 262 := by
        rw [List.length_map, List.length_append]
        have hprompt : prompt.length = 7 := rfl
        omega
      exact put_top h.text h.row h.cells hc hlength h.top
    · exact List.forall_mem_append.mpr ⟨h.plain, List.forall_mem_singleton.mpr hc⟩
    · rw [List.length_append, List.length_singleton]
      omega
  · exact h

theorem EndsInLine.backspace (h : EndsInLine d before) (freePages : Nat) :
    EndsInLine (d.type freePages .backspace) before := by
  rw [Display.type, Dialogue.type]
  split_ifs with hempty
  · exact h
  · refine ⟨?_, h.row, h.top, fun c hc => h.plain c (List.mem_of_mem_dropLast hc), ?_⟩
    · change d.page.text.dropLast = _
      have hmap : (prompt ++ d.text).map (cellOf d.page.color) ≠ [] := by simp [hempty]
      rw [h.text, List.dropLast_append_of_ne_nil hmap, ← List.map_dropLast,
        List.dropLast_append_of_ne_nil hempty]
      rfl
    · rw [List.length_dropLast]
      exact Nat.le_trans (Nat.sub_le _ _) h.length

end Line

/-- The screen shows the page, which ends in the line while the shell is there. -/
structure Visible (s : Terminal.State) (d : Display) : Prop where
  presents : Presents s d.page
  line : d.after = .returns → ∃ before, EndsInLine d before

section Visible

variable {u : Terminal.State} {d : Display} {c : BitVec 8}

/-- A character is printed at the end of the line. -/
theorem put_visible (hvisible : Visible u d) (hreturns : d.after = .returns) (hc : FillsCell c)
    (hroom : d.text.length < 255) (freePages : Nat) :
    ∃ v, terminalPutchar c u = some v ∧ Visible v (d.type freePages (.char c)) := by
  obtain ⟨before, hends⟩ := hvisible.line hreturns
  obtain ⟨v, hv, hpresents⟩ := putchar_presents hc.2.1 hvisible.presents
  have hpage : (d.type freePages (.char c)).page = d.page.put c := if_pos hroom
  exact ⟨v, hv, hpage ▸ hpresents, fun _ => ⟨before, hends.char hc freePages⟩⟩

/-- There is no room for a character. -/
theorem full_visible (hvisible : Visible u d) (hroom : ¬d.text.length < 255) (freePages : Nat) :
    Visible u (d.type freePages (.char c)) := by
  have hsame : d.type freePages (.char c) = d := by
    rw [Display.type, Dialogue.type, if_neg hroom, if_neg hroom]
  exact hsame.symm ▸ hvisible

/-- The last character of the line is taken back. -/
theorem back_visible (hvisible : Visible u d) (hreturns : d.after = .returns) (hne : d.text ≠ [])
    (freePages : Nat) :
    ∃ v, terminalPutchar 0x08 u = some v ∧ Visible v (d.type freePages .backspace) := by
  obtain ⟨before, hends⟩ := hvisible.line hreturns
  obtain ⟨text, c, htext⟩ := (List.eq_nil_or_concat d.text).resolve_left hne
  rw [List.concat_eq_append] at htext
  have hplain := hends.plain
  rw [htext] at hplain
  obtain ⟨hrest, hlast⟩ := List.forall_mem_append.mp hplain
  have hcells : ∀ cell ∈ (prompt ++ text).map (cellOf d.page.color), cell ≠ lineFeed :=
    cells_plain (List.forall_mem_append.mpr ⟨prompt_plain, hrest⟩) _
  have hpage : d.page.text = before ++ (prompt ++ text).map (cellOf d.page.color) ++
      [cellOf d.page.color c] := by
    rw [hends.text, htext]
    simp only [List.map_append, List.map_singleton, List.append_assoc]
  have htop : d.page.top ≤ (layout vgaWidth lineFeed
      (before ++ (prompt ++ text).map (cellOf d.page.color))).1.length := by
    rw [layout_plain (by decide) hcells]
    exact Nat.le_trans hends.top (Nat.le_add_right _ _)
  obtain ⟨v, hv, hpresents⟩ := back_presents hpage
    (cellOf_ne (List.forall_mem_singleton.mp hlast).2.2 _) htop hvisible.presents
  have hshort : (d.type freePages .backspace).page = d.page.takeBack := if_neg hne
  exact ⟨v, hv, hshort ▸ hpresents, fun _ => ⟨before, hends.backspace freePages⟩⟩

/-- In an empty line there is nothing to take back. -/
theorem start_visible (hvisible : Visible u d) (hempty : d.text = []) (freePages : Nat) :
    Visible u (d.type freePages .backspace) := by
  have hsame : d.type freePages .backspace = d := by
    rw [Display.type, Dialogue.type, if_pos hempty, if_pos hempty]
  exact hsame.symm ▸ hvisible

/-- A line feed and the reply, and the prompt if the command returns. -/
theorem reply_visible (hvisible : Visible u d) (hreturns : d.after = .returns) (freePages : Nat) :
    ∃ v w, terminalPutchar 0x0A u = some v ∧
      runAll perform (shell freePages d.text).1 v = some w ∧
      ((shell freePages d.text).2 ≠ .returns → Visible w (d.type freePages .enter)) ∧
      ((shell freePages d.text).2 = .returns →
        ∃ x, terminalWrite prompt w = some x ∧ Visible x (d.type freePages .enter)) := by
  obtain ⟨before, hends⟩ := hvisible.line hreturns
  have hplain : ∀ call ∈ (shell freePages d.text).1, ∀ c ∈ characters call, c ≠ 0x08 :=
    shell_plain fun c hc => (hends.plain c hc).2.1
  have hstart : (d.page.put 0x0A).AtStart := layout_newRow d.page.text
  have hreply := shell_atStart freePages d.text hstart
  obtain ⟨v, hv, hpresents⟩ := putchar_presents (c := 0x0A) (by decide) hvisible.presents
  obtain ⟨w, hw, hpresents⟩ := calls_present hplain hpresents
  refine ⟨v, w, hv, hw, fun hstops => ?_, fun hagain => ?_⟩
  · rw [Display.type, Dialogue.type]
    dsimp only
    rw [if_neg hstops, if_neg hstops]
    exact ⟨hpresents, fun hr => absurd hr hstops⟩
  · obtain ⟨x, hx, hprompt⟩ :=
      write_presents (fun c hc => ⟨(prompt_plain c hc).1, (prompt_plain c hc).2.1⟩) hpresents
    refine ⟨x, hx, ?_⟩
    rw [Display.type, Dialogue.type]
    dsimp only
    rw [if_pos hagain, if_pos hagain]
    exact ⟨hprompt, fun _ => ⟨_, endsInLine_prompt hreply hpresents.top_le _⟩⟩

theorem hear_dialogue (d : Display) (a : Arrival) :
    (d.hear a).toDialogue = d.toDialogue.hear a := by
  rw [Display.hear, Dialogue.hear]
  split_ifs
  · cases serialTyping a.char with
    | none => rfl
    | some y => rfl
  · rfl

theorem typing_visible (hvisible : Visible u d) (hreturns : d.after = .returns) {y : Typing}
    (hy : ∀ c, y = .char c → FillsCell c) (freePages : Nat) :
    ∃ v, runAll perform (d.calls freePages y) u = some v ∧ Visible v (d.type freePages y) := by
  cases y with
  | char c =>
    rw [Dialogue.calls]
    split_ifs with hroom
    · obtain ⟨v, hv, hlast⟩ := put_visible hvisible hreturns (hy c rfl) hroom freePages
      rw [run_write (hy c rfl).1, hv]
      exact ⟨v, rfl, hlast⟩
    · exact ⟨u, rfl, full_visible hvisible hroom freePages⟩
  | backspace =>
    rw [Dialogue.calls]
    split_ifs with hempty
    · exact ⟨u, rfl, start_visible hvisible hempty freePages⟩
    · obtain ⟨v, hv, hlast⟩ := back_visible hvisible hreturns hempty freePages
      rw [run_write (by decide), hv]
      exact ⟨v, rfl, hlast⟩
  | enter =>
    obtain ⟨v, w, hv, hw, hstops, hagain⟩ := reply_visible hvisible hreturns freePages
    rw [Dialogue.calls, List.cons_append, run_write (by decide), hv, Option.bind_some, runAll_append,
      hw, Option.bind_some]
    split_ifs with hshell
    · obtain ⟨x, hx, hlast⟩ := hagain hshell
      have hprompt : runAll perform [.write prompt] w = (terminalWrite prompt w).bind some := rfl
      exact ⟨x, by rw [hprompt, hx, Option.bind_some], hlast⟩
    · exact ⟨w, rfl, hstops hshell⟩

theorem answer_visible (hvisible : Visible u d) (a : Arrival) :
    ∃ v, runAll perform (d.answer a) u = some v ∧ Visible v (d.hear a) := by
  have hprintable : ∀ c : BitVec 8, 32 ≤ c.toInt ∧ c.toInt < 127 → FillsCell c := by decide
  rw [Dialogue.answer, Display.hear]
  split_ifs with hreturns
  · rw [serialTyping]
    split_ifs with henter hback hchar
    · exact typing_visible (y := .enter) hvisible hreturns (by simp) _
    · exact typing_visible (y := .backspace) hvisible hreturns (by simp) _
    · refine typing_visible (y := .char a.char) hvisible hreturns (fun c hc => ?_) _
      obtain rfl := Typing.char.inj hc
      exact hprintable a.char hchar
    · exact ⟨u, rfl, hvisible⟩
  · exact ⟨u, rfl, hvisible⟩

theorem answers_visible (arrivals : List Arrival) (hvisible : Visible u d) :
    ∃ v, runAll perform (answers arrivals d.toDialogue) u = some v ∧
      Visible v (arrivals.foldl Display.hear d) := by
  induction arrivals generalizing u d with
  | nil => exact ⟨u, rfl, hvisible⟩
  | cons a arrivals ih =>
    obtain ⟨v, hv, hnext⟩ := answer_visible hvisible a
    rw [answers, runAll_append, hv, Option.bind_some, ← hear_dialogue]
    exact ih hnext

end Visible

theorem greet_visible {s : Terminal.State} (hvga : s.useFramebuffer = false) :
    ∃ t, greet s = some t ∧ Visible t (display s.terminalColor []) := by
  have hbanner : ∀ c ∈ banner, c ≠ 0 ∧ c ≠ 0x08 := by decide
  have hprompt : ∀ c ∈ prompt, c ≠ 0 ∧ c ≠ 0x08 := by decide
  have hend : banner = ascii "Nyrix Kernel v0.1" ++ [0x0A] := by decide
  have hrow : ((Page.empty s.terminalColor).write banner).AtStart := by
    rw [hend]
    exact write_atStart _ _
  obtain ⟨u, hu, hpresents⟩ := clear_presents hvga
  obtain ⟨v, hv, hpresents⟩ := write_presents hbanner hpresents
  have hline := endsInLine_prompt hrow hpresents.top_le (banner ++ prompt)
  obtain ⟨w, hw, hpresents⟩ := write_presents hprompt hpresents
  have hpage : (Page.empty s.terminalColor).write (banner ++ prompt) =
      ((Page.empty s.terminalColor).write banner).write prompt := List.foldl_append
  rw [greet, hu, Option.bind_some, hv, Option.bind_some, hw, display, List.foldl_nil, hpage]
  exact ⟨w, rfl, hpresents, fun _ => ⟨_, hline⟩⟩

/-- Whatever arrives on COM1, on the VGA screen the session gets through and the screen shows its
page: what was printed since the last clear, each character in its color, without what was taken
back, from the row on that the page has come to. While the shell is there the page ends in the
prompt, at the start of a row on the screen, and the line. -/
theorem session_screen {s : Terminal.State} (hserial : s.gfx.serial.useSerial = true)
    (hvga : s.useFramebuffer = false) (arrivals : List Arrival) :
    ∃ t, session arrivals s = some t ∧ Visible t.terminal (display s.terminalColor arrivals) := by
  obtain ⟨u, hgreet, hvisible⟩ := greet_visible hvga
  obtain ⟨v, hv, hlast⟩ := answers_visible arrivals hvisible
  have hcalls := session_answers hserial arrivals
  rw [hgreet, Option.bind_some] at hcalls
  obtain ⟨t, ht, rfl⟩ := Option.map_eq_some_iff.mp (hcalls.trans hv)
  exact ⟨t, ht, hlast⟩

/-- After "ab", a Backspace and "c" the second row of the screen ends in "ac". -/
theorem session_screen_erased : ∃ t,
    session ([0x61, 0x62, 0x7F, 0x63].map arrival) zeroed = some t ∧
    Cell.ShownBy ⟨0x61, 0x0F⟩ (t.terminal.vgaBuffer (1 * vgaWidth + 7)) ∧
    Cell.ShownBy ⟨0x63, 0x0F⟩ (t.terminal.vgaBuffer (1 * vgaWidth + 8)) := by
  obtain ⟨t, ht, hvisible⟩ :=
    session_screen (s := zeroed) rfl rfl ([0x61, 0x62, 0x7F, 0x63].map arrival)
  have hcells := hvisible.presents.cells 1 (by decide)
  refine ⟨t, ht, ?_, ?_⟩
  · exact hcells 7 (by decide)
  · exact hcells 8 (by decide)

end MainLoop
