import Nyrix.KeyboardCalls
import Nyrix.MainLoop

/-!
# Keyboard and serial port on one console (keyboard.cpp, kernel.cpp)

The keyboard handler and the main loop edit one line, and both have its commands run and echo on
one terminal. Each handler run, with the commands it runs, is one step here. On the VGA screen
COM1 hears the same dialogue from both.
-/

namespace Terminal

open BoundedLoop

variable {s t : State}

theorem forUp?_sameGfx {cell : Nat → State → Option State} {lo n : Nat}
    (hcell : ∀ i s t, cell i s = some t → SameGfx s t) (h : forUp? cell lo n s = some t) :
    SameGfx s t :=
  forUp?_keeps (SameGfx s) (fun i u v hu hv => hu.trans (hcell i u v hv)) ⟨rfl, rfl⟩ h

theorem SameGfx.said (h : SameGfx s t) (hserial : s.gfx.serial.useSerial = true) :
    Said [] s t where
  serving := ⟨h.gfx ▸ hserial, h.mode⟩
  sent := by rw [h.gfx, List.flatMap_nil, List.append_nil]

/-- On the VGA screen the line is redrawn without a word. -/
theorem said_redraw {b : CharBuffer.Buffer} {n : Nat} (hserial : s.gfx.serial.useSerial = true)
    (hvga : s.useFramebuffer = false) (h : redrawInput b n s = some t) : Said [] s t := by
  have hmode : ¬s.useFramebuffer = true := Bool.not_eq_true _ ▸ hvga
  have hwrite {i : State → Nat} {v : State → BitVec 16} (u w : State)
      (hw : vgaWrite (i u) (v u) u = some w) : SameGfx u w := vgaWrite_sameGfx hw
  rw [redrawInput, if_neg hmode, Option.bind_eq_some_iff] at h
  obtain ⟨u, hrow, h⟩ := h
  obtain ⟨v, hprompt, h⟩ := Option.bind_eq_some_iff.mp h
  obtain ⟨w, hinput, rfl⟩ := Option.map_eq_some_iff.mp h
  have hsame : SameGfx s w := ((forUp?_sameGfx (fun _ => hwrite) hrow).trans
    (forUp?_sameGfx (fun _ => hwrite) hprompt)).trans (forUp?_sameGfx (fun _ => hwrite) hinput)
  exact SameGfx.said ⟨hsame.gfx, hsame.mode⟩ hserial

end Terminal

namespace SharedConsole

open CharBuffer Commands Keyboard PartialRuns Terminal
open MainLoop (Dialogue greet banner)

/-- An input, with what a command it submits finds: the number of free pages, and what the array of
`process_command` holds before it is written. -/
structure Arrival where
  input : Input
  freePages : BitVec 32
  array : Buffer

/-- What the handlers left in `keyboard` nobody reads once a command has not returned. -/
structure Console where
  keyboard : Keyboard.State
  terminal : Terminal.State
  after : After

/-- A call a handler makes; after a command that does not return there is none. The command reads
the buffer of the line, which nothing after it changes. -/
def perform (a : Arrival) (b : Buffer) (e : Event) (p : Terminal.State × After) :
    Option (Terminal.State × After) :=
  if p.2 ≠ .returns then some p
  else match e with
    | .putchar c => (terminalPutchar c p.1).map fun s => (s, .returns)
    | .write text => (terminalWrite (text.toList.map ch) p.1).map fun s => (s, .returns)
    | .redraw text =>
      (Terminal.redrawInput (fun i => text.getD i 0) text.length p.1).map fun s => (s, .returns)
    | .command _ => (Commands.processCommand bufferSize b a.freePages a.array).bind fun made =>
      (runAll Terminal.perform made.1 p.1).map fun s => (s, made.2)

/-- An input handled. -/
def handle (a : Arrival) (s : Console) : Option Console :=
  if s.after ≠ .returns then some s
  else (handleInput a.input s.keyboard).bind fun k =>
    (runAll (perform a k.inputBuffer) (k.out.drop s.keyboard.out.length) (s.terminal, .returns)).map
      fun p => ⟨k, p.1, p.2⟩

/-- From the static initial values of the handlers and the greeting on. -/
def session (arrivals : List Arrival) (s : Terminal.State) : Option Console :=
  (greet s).bind fun s => runAll handle arrivals ⟨State.boot, s, .returns⟩

/-- The dialogue goes on with what is typed, whatever device it comes from. -/
def next (a : Arrival) (m : Modifiers) (d : Dialogue) : Dialogue :=
  if d.after = .returns then (a.input.typing m).elim d fun y => d.type a.freePages.toNat y else d

def hear : List Arrival → Modifiers → Dialogue → Dialogue
  | [], _, d => d
  | a :: arrivals, m, d => hear arrivals (a.input.next m) (next a m d)

def dialogue (arrivals : List Arrival) : Dialogue :=
  hear arrivals State.boot.modifiers ⟨[], banner ++ prompt, .returns⟩

/-- The handlers hold the line of the dialogue, and the console has said what the dialogue has. -/
structure Follows (start : Terminal.State) (s : Console) (d : Dialogue) : Prop where
  keyboard : s.after = .returns → Keyboard.Follows s.keyboard ⟨d.text, commands s.keyboard.out⟩
  after : s.after = d.after
  said : Said d.said start s.terminal

section Perform

variable {a : Arrival} {b : Buffer} {s t u : Terminal.State} {after : After} {es : List Event}

theorem perform_stopped {p q : Terminal.State × After} (hp : p.2 ≠ .returns)
    (h : runAll (perform a b) es p = some q) : q = p := by
  induction es with
  | nil => exact (Option.some.inj h).symm
  | cons e es ih =>
    have hskip : perform a b e p = some p := if_pos hp
    rw [runAll, hskip, Option.bind_some] at h
    exact ih h

theorem perform_putchar {c : BitVec 8} (hserial : s.gfx.serial.useSerial = true)
    {q : Terminal.State × After}
    (h : runAll (perform a b) (.putchar c :: es) (s, .returns) = some q) :
    ∃ t, Said [c] s t ∧ runAll (perform a b) es (t, .returns) = some q := by
  rw [runAll, Option.bind_eq_some_iff] at h
  obtain ⟨p, hp, hrest⟩ := h
  obtain ⟨t, ht, rfl⟩ := Option.map_eq_some_iff.mp hp
  exact ⟨t, said_putchar hserial ht, hrest⟩

theorem perform_redraw {line : List (BitVec 8)} (hserial : s.gfx.serial.useSerial = true)
    (hvga : s.useFramebuffer = false) {q : Terminal.State × After}
    (h : runAll (perform a b) (.redraw line :: es) (s, .returns) = some q) :
    ∃ t, Said [] s t ∧ runAll (perform a b) es (t, .returns) = some q := by
  rw [runAll, Option.bind_eq_some_iff] at h
  obtain ⟨p, hp, hrest⟩ := h
  obtain ⟨t, ht, rfl⟩ := Option.map_eq_some_iff.mp hp
  exact ⟨t, said_redraw hserial hvga ht, hrest⟩

theorem perform_prompt (hserial : s.gfx.serial.useSerial = true) {q : Terminal.State × After}
    (h : runAll (perform a b) [.write "nyrix> "] (s, .returns) = some q) :
    Said prompt s q.1 ∧ q.2 = .returns := by
  rw [runAll, Option.bind_eq_some_iff] at h
  obtain ⟨p, hp, hrest⟩ := h
  obtain ⟨t, ht, rfl⟩ := Option.map_eq_some_iff.mp hp
  obtain rfl := Option.some.inj hrest
  have htext : cString ("nyrix> ".toList.map ch) = prompt := by decide
  exact ⟨htext ▸ said_write hserial ht, rfl⟩

/-- The reply to a line, and the prompt if the command returns. -/
theorem perform_commands {text : List (BitVec 8)} {e : Nat} (hnul : NulAt b 0 e)
    (he : e < bufferSize) (htext : string bufferSize b = text)
    (hserial : s.gfx.serial.useSerial = true) {q : Terminal.State × After}
    (h : runAll (perform a b) ((commandOf text).map .command ++ [.write "nyrix> "]) (s, .returns) =
      some q) :
    q.2 = (shell a.freePages.toNat text).2 ∧
      Said ((shell a.freePages.toNat text).1.flatMap characters ++
        if q.2 = .returns then prompt else []) s q.1 := by
  by_cases hempty : text = []
  · rw [commandOf, if_pos hempty] at h
    obtain ⟨hsaid, hafter⟩ := perform_prompt hserial h
    rw [hempty, if_pos hafter]
    exact ⟨hafter, hsaid⟩
  · rw [commandOf, if_neg hempty, List.map_singleton, List.singleton_append, runAll,
      Option.bind_eq_some_iff] at h
    obtain ⟨p, hp, hrest⟩ := h
    have hcommand : perform a b (.command text) (s, .returns) =
        (Commands.processCommand bufferSize b a.freePages a.array).bind fun made =>
          (runAll Terminal.perform made.1 s).map fun s => (s, made.2) := rfl
    rw [hcommand, processCommand_shell hnul he, htext, Option.bind_some,
      Option.map_eq_some_iff] at hp
    obtain ⟨t, ht, rfl⟩ := hp
    have hsaid := said_calls hserial ht
    by_cases hreturns : (shell a.freePages.toNat text).2 = .returns
    · rw [hreturns] at hrest
      obtain ⟨hprompt, hafter⟩ := perform_prompt hsaid.serving.serves hrest
      rw [if_pos hafter, hafter, hreturns]
      exact ⟨rfl, hsaid.trans hprompt⟩
    · obtain rfl := perform_stopped hreturns hrest
      rw [if_neg hreturns, List.append_nil]
      exact ⟨rfl, hsaid⟩

end Perform

section Steps

variable {a : Arrival} {start : Terminal.State} {s t : Console} {d : Dialogue}

theorem keyboard_text {k : Keyboard.State} {e : Entry} {text : List (BitVec 8)}
    (h : Keyboard.Follows k e) (htext : e.text = text) :
    Keyboard.Follows k ⟨text, commands k.out⟩ :=
  ⟨h.valid, h.textBefore, h.plain, h.text.trans htext, rfl⟩

/-- The buffer a command reads: the line up to the cursor. -/
theorem cutLine_string {k : Keyboard.State} {e : Entry} (h : Keyboard.Follows k e) :
    k.inputPos < bufferSize ∧ NulAt (cutLine k) 0 k.inputPos ∧
      string bufferSize (cutLine k) = e.text := by
  have hnul := nulAt_cutLine h.textBefore
  have hpos : k.inputPos < bufferSize := Nat.lt_succ_of_le h.valid.pos
  refine ⟨hpos, hnul, ?_⟩
  rw [string_eq (n := bufferSize) hnul hpos, map_cutLine, h.text]

/-- One more character at the end of the line, echoed. -/
theorem typed_follows {k : Keyboard.State} {c : BitVec 8} {u : Terminal.State}
    (hreturns : s.after = .returns) (h : Follows start s d)
    (hfollows : Keyboard.Follows k
      (typed (some (Typing.char c)).toList ⟨d.text, commands s.keyboard.out⟩))
    (hsaid : Said (d.said ++ [c]) start u) (hroom : d.text.length < 255) (pages : Nat) :
    Follows start ⟨k, u, .returns⟩ (d.type pages (.char c)) := by
  have htext : ((⟨d.text, commands s.keyboard.out⟩ : Entry).type (.char c)).text =
      d.text ++ [c] := by
    rw [Entry.type, if_pos hroom]
  rw [Dialogue.type, if_pos hroom]
  exact ⟨fun _ => keyboard_text hfollows htext, hreturns.symm.trans h.after, hsaid⟩

theorem handle_follows (hvga : start.useFramebuffer = false)
    (hE0 : a.input ≠ .scancode 0xE0) (h : Follows start s d) (ht : handle a s = some t) :
    Follows start t (next a s.keyboard.modifiers d) ∧
      (t.after = .returns → t.keyboard.modifiers = a.input.next s.keyboard.modifiers) := by
  rw [handle] at ht
  rw [next]
  by_cases hreturns : s.after = .returns
  · have hkeyboard := h.keyboard hreturns
    rw [if_neg (not_not.mpr hreturns), Option.bind_eq_some_iff] at ht
    obtain ⟨k, hk, ht⟩ := ht
    obtain ⟨p, hp, rfl⟩ := Option.map_eq_some_iff.mp ht
    obtain ⟨hfollows, hmod⟩ := handleInput_follows hE0 hkeyboard hk
    obtain ⟨calls, hout, hcalls, hline⟩ := handleInput_calls hkeyboard hk
    have hmode : s.terminal.useFramebuffer = false := h.said.serving.mode.trans hvga
    have hserves := h.said.serving.serves
    rw [hout, List.drop_left] at hp
    refine ⟨?_, fun _ => hmod⟩
    rw [if_pos (h.after.symm.trans hreturns)]
    generalize a.input.typing s.keyboard.modifiers = y at hfollows hcalls hline
    cases hcalls with
    | none =>
      obtain rfl := Option.some.inj hp
      exact ⟨fun _ => keyboard_text hfollows rfl, h.after ▸ hreturns.symm, h.said⟩
    | @serial c hroom =>
      obtain ⟨u, hsaid, hrest⟩ := perform_putchar hserves hp
      obtain rfl := Option.some.inj hrest
      exact typed_follows hreturns h hfollows (h.said.trans hsaid) hroom
        a.freePages.toNat
    | @key c hroom =>
      obtain ⟨u, hsaid, hrest⟩ := perform_putchar hserves hp
      obtain ⟨v, hsilent, hrest⟩ :=
        perform_redraw hsaid.serving.serves (hsaid.serving.mode.trans hmode) hrest
      obtain rfl := Option.some.inj hrest
      have hboth := (h.said.trans hsaid).trans hsilent
      rw [List.append_nil] at hboth
      exact typed_follows hreturns h hfollows hboth hroom a.freePages.toNat
    | @full c hfull =>
      obtain rfl := Option.some.inj hp
      have htext : ((⟨d.text, commands s.keyboard.out⟩ : Entry).type (.char c)).text = d.text := by
        rw [Entry.type, if_neg hfull]
      rw [Option.elim_some, Dialogue.type, if_neg hfull]
      exact ⟨fun _ => keyboard_text hfollows htext, h.after ▸ hreturns.symm, h.said⟩
    | backspace hsome =>
      obtain ⟨u, hsaid, hrest⟩ := perform_putchar hserves hp
      obtain rfl := Option.some.inj hrest
      rw [Option.elim_some, Dialogue.type, if_neg hsome]
      exact ⟨fun _ => keyboard_text hfollows rfl, h.after ▸ hreturns.symm, h.said.trans hsaid⟩
    | start hempty =>
      obtain rfl := Option.some.inj hp
      have hnil : d.text = [] := hempty
      have htext : d.text.dropLast = d.text := by rw [hnil, List.dropLast_nil]
      rw [Option.elim_some, Dialogue.type, if_pos hnil]
      exact ⟨fun _ => keyboard_text hfollows htext, h.after ▸ hreturns.symm, h.said⟩
    | enter =>
      obtain ⟨u, hsaid, hrest⟩ := perform_putchar hserves hp
      obtain ⟨hpos, hnul, hstring⟩ := cutLine_string hkeyboard
      rw [hline rfl] at hrest
      obtain ⟨hafter, hreply⟩ := perform_commands hnul hpos hstring hsaid.serving.serves hrest
      have hboth := (h.said.trans hsaid).trans hreply
      rw [← List.append_assoc] at hboth
      rw [Option.elim_some, Dialogue.type]
      split_ifs with hagain
      · rw [hafter, if_pos hagain] at hboth
        exact ⟨fun _ => keyboard_text hfollows rfl, hafter.trans hagain, hboth⟩
      · rw [hafter, if_neg hagain, List.append_nil] at hboth
        exact ⟨fun hr => absurd (hafter.symm.trans hr) hagain, hafter, hboth⟩
  · rw [if_pos hreturns] at ht
    obtain rfl := Option.some.inj ht
    rw [if_neg (h.after ▸ hreturns)]
    exact ⟨h, fun hr => absurd hr hreturns⟩

/-- Once a command has not returned, neither the console nor the dialogue goes on. -/
theorem run_stopped (arrivals : List Arrival) (h : s.after ≠ .returns) :
    runAll handle arrivals s = some s := by
  induction arrivals with
  | nil => rfl
  | cons a arrivals ih =>
    have hskip : handle a s = some s := if_pos h
    rw [runAll, hskip, Option.bind_some, ih]

theorem hear_stopped (arrivals : List Arrival) (m : Modifiers) (h : d.after ≠ .returns) :
    hear arrivals m d = d := by
  induction arrivals generalizing m with
  | nil => rfl
  | cons a arrivals ih => rw [hear, next, if_neg h, ih]

theorem run_follows {arrivals : List Arrival} (hvga : start.useFramebuffer = false)
    (hE0 : NoPrefix (arrivals.map (·.input))) (h : Follows start s d)
    (ht : runAll handle arrivals s = some t) :
    Follows start t (hear arrivals s.keyboard.modifiers d) := by
  induction arrivals generalizing s d with
  | nil => exact Option.some.inj ht ▸ h
  | cons a arrivals ih =>
    rw [runAll, Option.bind_eq_some_iff] at ht
    obtain ⟨u, hu, hrest⟩ := ht
    obtain ⟨ha, harrivals⟩ := List.ne_and_not_mem_of_not_mem_cons hE0
    obtain ⟨hfollows, hmod⟩ := handle_follows hvga (Ne.symm ha) h hu
    rw [hear]
    by_cases hreturns : u.after = .returns
    · rw [← hmod hreturns]
      exact ih harrivals hfollows hrest
    · rw [run_stopped arrivals hreturns] at hrest
      rw [hear_stopped _ _ (hfollows.after ▸ hreturns)]
      exact Option.some.inj hrest ▸ hfollows

end Steps

/-- The handlers start with an empty line, and the dialogue with the greeting. -/
theorem follows_greet {s t : Terminal.State} (hserial : s.gfx.serial.useSerial = true)
    (h : greet s = some t) : Follows s ⟨State.boot, t, .returns⟩ ⟨[], banner ++ prompt, .returns⟩ :=
  ⟨fun _ => follows_boot, rfl, MainLoop.said_greet hserial h⟩

end SharedConsole
