import Mathlib.Data.List.Infix
import Nyrix.Base.LineEditor
import Nyrix.KeyboardPress

/-!
# What Enter submits

On a line typed into a buffer of zeros the handler does what a text with a cursor does, as
long as the line is shorter than 255 characters. Enter then submits the text in front of the
cursor, and so all of the text only with the cursor at its end.
-/

namespace Keyboard

open BoundedLoop CharBuffer LineEditor RecentList

/-- The line after a key, in the reference editor. -/
def Key.edit : Key → Line (BitVec 8) → Line (BitVec 8)
  | .insert c, l => l.insert c
  | .backspace, l => l.backspace
  | .delete, l => l.delete
  | .left, l => l.left
  | .right, l => l.right
  | .home, l => l.home
  | .toEnd, l => l.toEnd
  | _, l => l

def edited (ks : List Key) (l : Line (BitVec 8)) : Line (BitVec 8) := ks.foldl (fun l k => k.edit l) l

/-- The line is shorter than 255 characters after each key. -/
def StaysShort (ks : List Key) (l : Line (BitVec 8)) : Prop :=
  ∀ pre, pre <+: ks → (edited pre l).text.length < 255

instance (ks : List Key) (l : Line (BitVec 8)) : Decidable (StaysShort ks l) :=
  decidable_of_iff (∀ pre ∈ ks.inits, (edited pre l).text.length < 255)
    (forall_congr' fun _ => imp_congr_left (List.mem_inits _ _))

/-- The state while a line is typed: the buffer holds the line of the reference editor. -/
structure Shows (s : State) (l : Line (BitVec 8)) : Prop where
  valid : Valid s
  line : Holds bufferSize s.inputBuffer s.inputPos l
  short : l.text.length < 255

section Shows

variable {s : State} {l : Line (BitVec 8)}

theorem Shows.len (h : Shows s l) : l.text.length < bufferSize := Nat.lt_succ_of_lt h.short

theorem Shows.endFrom (h : Shows s l) :
    endFrom s.inputBuffer s.inputPos = l.text.length :=
  endFrom_eq (h.line.nulAt h.len) h.len

/-- A line shorter than 255 characters is not full. -/
theorem Shows.room (h : Shows s l) : ¬LineFull s := by
  rintro ⟨_, hfull⟩
  have hnul := h.line.nulAt h.len
  exact hfull l.text.length hnul.le h.short hnul.nul

theorem Shows.textBefore (h : Shows s l) : TextBefore s := by
  intro j hj
  have hle := h.line.pos_le
  have hnul := h.line.padded.nulAt (i := 0) h.line.nonzero h.len (Nat.zero_le _)
  exact hnul.text j (Nat.zero_le j) (by omega)

/-- The cursor moved to the right, unless nothing is there. -/
theorem right_pos (h : Shows s l) :
    (if s.inputPos < 255 ∧ s.inputBuffer s.inputPos ≠ 0 then s.inputPos + 1 else s.inputPos) =
      l.right.before.length := by
  have hend := h.line.at_end h.len
  have hle := h.line.pos_le
  have hshort := h.short
  have hpos := h.line.pos
  rw [Line.right, List.length_append, ← hpos]
  cases hafter : l.after with
  | nil =>
    have hnot : ¬(s.inputPos < 255 ∧ s.inputBuffer s.inputPos ≠ 0) :=
      fun hgo => hgo.2 (hend.mpr hafter)
    rw [if_neg hnot]
    rfl
  | cons c r =>
    have hne : s.inputBuffer s.inputPos ≠ 0 := by
      intro hzero
      have hnil := hend.mp hzero
      rw [hafter] at hnil
      cases hnil
    rw [if_pos ⟨by omega, hne⟩]
    rfl

/-- An editing key does to the buffer what it does in the reference editor. -/
theorem lineAfter_holds {k : Key} (hk : k.Edits) (hc : ∀ c, k = .insert c → c ≠ 0)
    (h : Shows s l) : Holds bufferSize (lineAfter k s.inputBuffer s.inputPos).1
      (lineAfter k s.inputBuffer s.inputPos).2 (k.edit l) := by
  have hpos := h.line.pos
  cases k with
  | insert c =>
    have hlt : s.inputPos < 255 := Nat.lt_of_le_of_lt h.line.pos_le h.short
    rw [lineAfter, if_pos hlt, h.endFrom]
    exact h.line.insert h.len (hc c rfl)
  | backspace =>
    rw [lineAfter, h.endFrom]
    by_cases h0 : 0 < s.inputPos
    · rw [if_pos h0]
      exact h.line.backspace h.len h0
    · have hnil : l.before = [] := by
        rw [← List.length_eq_zero_iff]
        omega
      have hsame : l.backspace = l := by
        rw [Line.backspace, hnil, List.dropLast_nil, ← hnil]
      rw [if_neg h0, Key.edit, hsame]
      exact h.line
  | delete =>
    rw [lineAfter, h.endFrom]
    exact h.line.delete h.len
  | left =>
    have hmove := h.line.move l.text_left
    have hlen : l.left.before.length = s.inputPos - 1 := by
      rw [Line.left, List.length_dropLast, hpos]
    rwa [hlen] at hmove
  | right =>
    have hmove := h.line.move l.text_right
    rwa [← right_pos h] at hmove
  | home => exact h.line.move l.text_home
  | toEnd =>
    have hmove := h.line.move l.text_toEnd
    rw [lineAfter, h.endFrom]
    exact hmove
  | enter => exact hk.elim
  | up => exact hk.elim
  | down => exact hk.elim

theorem Shows.withLine (h : Shows s l) {line : Buffer × Nat} {l' : Line (BitVec 8)}
    (echo : List Event) (hline : Holds bufferSize line.1 line.2 l') (hshort : l'.text.length < 255) :
    Shows (s.withLine line echo) l' := by
  have hpos : line.2 ≤ 255 := Nat.le_of_lt (Nat.lt_of_le_of_lt hline.pos_le hshort)
  have hlast : line.1 255 = 0#8 :=
    hline.padded.rest (Nat.le_of_lt hshort) (Nat.lt_succ_self 255)
  exact ⟨⟨hpos, hlast, h.valid.saved, h.valid.rows, h.valid.count, h.valid.index⟩, hline, hshort⟩

/-- The history and the commands passed are as they were. -/
def SameLog (s t : State) : Prop := entries t = entries s ∧ commands t.out = commands s.out

theorem Kept.sameLog {t : State} (h : Kept s t) : SameLog s t := by
  refine ⟨?_, h.commands⟩
  rw [entries, h.history, h.count, entries]

theorem SameLog.trans {t u : State} (h : SameLog s t) (h' : SameLog t u) : SameLog s u :=
  ⟨h'.1.trans h.1, h'.2.trans h.2⟩

theorem press_shows {k : Key} (hk : k.Edits) (hc : ∀ c, k = .insert c → c ≠ 0) (h : Shows s l)
    (hshort : (k.edit l).text.length < 255) :
    ∃ t, press k s = some t ∧ Shows t (k.edit l) ∧ SameLog s t := by
  obtain ⟨echo, hecho, heq⟩ := press_edits hk h.valid fun _ _ => h.room
  have hkept := kept_withLine (s := s) s.savedInput s.historyIndex
    (lineAfter k s.inputBuffer s.inputPos) hecho
  exact ⟨_, heq, h.withLine echo (lineAfter_holds hk hc h) hshort, hkept.sameLog⟩

/-- A scancode on a line that stays short. -/
theorem handleInterrupt_shows {c : BitVec 8} (hedit : ∀ k ∈ (keyOf c s.modifiers).toList, k.Edits)
    (h : Shows s l) (hshort : (edited (keyOf c s.modifiers).toList l).text.length < 255) :
    ∃ t, handleInterrupt c s = some t ∧ Shows t (edited (keyOf c s.modifiers).toList l) ∧
      SameLog s t ∧ t.modifiers = s.modifiers.next c := by
  rw [handleInterrupt_eq c h.valid]
  cases hk : keyOf c s.modifiers with
  | none => exact ⟨_, rfl, ⟨h.valid.flags _ _ _, h.line, h.short⟩, ⟨rfl, rfl⟩, rfl⟩
  | some k =>
    rw [hk] at hedit hshort
    have hc : ∀ a, k = .insert a → a ≠ 0 := keyOf_insert hk
    obtain ⟨t, ht, hshows, hlog⟩ := press_shows (hedit k List.mem_cons_self) hc h hshort
    have hpress : pressKey (some k) s = some t := ht
    rw [hpress]
    exact ⟨_, rfl, ⟨hshows.valid.flags _ _ _, hshows.line, hshows.short⟩, hlog, rfl⟩

/-- Over every sequence of editing keys the buffer holds the line of the reference editor. -/
theorem run_shows {codes : List (BitVec 8)}
    (hedit : ∀ k ∈ keysOf codes s.modifiers, k.Edits) (h : Shows s l)
    (hshort : StaysShort (keysOf codes s.modifiers) l) :
    ∃ t, run codes s = some t ∧ Shows t (edited (keysOf codes s.modifiers) l) ∧ SameLog s t := by
  induction codes generalizing s l with
  | nil => exact ⟨s, rfl, h, rfl, rfl⟩
  | cons c codes ih =>
    rw [keysOf] at hedit hshort ⊢
    obtain ⟨t, ht, hshows, hlog, hmod⟩ := handleInterrupt_shows
      (fun k hk => hedit k (List.mem_append_left _ hk)) h (hshort _ (List.prefix_append _ _))
    rw [← hmod] at hedit hshort ⊢
    obtain ⟨u, hu, hshows', hlog'⟩ := ih (fun k hk => hedit k (List.mem_append_right _ hk)) hshows
      (by
        rintro pre ⟨post, hpost⟩
        have hpre := hshort ((keyOf c s.modifiers).toList ++ pre)
          ⟨post, by rw [List.append_assoc, hpost]⟩
        rwa [edited, List.foldl_append] at hpre)
    refine ⟨u, by rw [run, ht, Option.bind_some, hu], ?_, hlog.trans hlog'⟩
    rwa [edited, List.foldl_append]

/-- Enter submits what stands in front of the cursor. -/
theorem enter_shows (h : Shows s l) (hempty : entries s = []) :
    ∃ t, enter s = some t ∧ commands t.out = commands s.out ++ commandOf l.before ∧
      entries t = commandOf l.before := by
  obtain ⟨rows, count, echo, heq, hcommands, hentries⟩ := enter_eq h.valid h.textBefore
  have hfront : beforeCursor s = l.before := h.line.front h.len
  refine ⟨_, heq, ?_, ?_⟩
  · rw [commands_append, hcommands, hfront]
  · rw [entries, hentries, ← hfront, commandOf_beforeCursor, hempty]
    rfl

end Shows

/-- The state at the prompt before the first command. -/
structure FreshLine (s : State) : Prop where
  valid : Valid s
  pos : s.inputPos = 0
  zero : ∀ j < bufferSize, s.inputBuffer j = 0
  count : s.historyCount = 0

/-- The line the keys amount to, in the reference editor. -/
def typedLine (codes : List (BitVec 8)) (s : State) : Line (BitVec 8) :=
  edited (keysOf codes s.modifiers) Line.empty

/-- The text was passed to `process_command` and recorded in a history that was empty. -/
def Submits (r : Option State) (s : State) (text : List (BitVec 8)) : Prop :=
  ∃ t, r = some t ∧ commands t.out = commands s.out ++ commandOf text ∧ entries t = commandOf text

theorem shows_empty {s : State} (h : Valid s) (hpos : s.inputPos = 0)
    (hzero : ∀ j < bufferSize, s.inputBuffer j = 0) : Shows s Line.empty := by
  refine ⟨h, ⟨hpos, ?_, List.not_mem_nil⟩, by decide⟩
  intro j hj
  rw [hzero j hj]
  rfl

theorem shows_fresh {s : State} (h : FreshLine s) : Shows s Line.empty :=
  shows_empty h.valid h.pos h.zero

/-- Over every sequence of editing keys on a buffer of zeros, the string in the buffer and the
cursor are those of the reference editor. -/
theorem run_edits {codes : List (BitVec 8)} {s : State} (h : Valid s) (hpos : s.inputPos = 0)
    (hzero : ∀ j < bufferSize, s.inputBuffer j = 0)
    (hedit : ∀ k ∈ keysOf codes s.modifiers, k.Edits)
    (hshort : StaysShort (keysOf codes s.modifiers) Line.empty) :
    ∃ t, run codes s = some t ∧ string bufferSize t.inputBuffer = (typedLine codes s).text ∧
      t.inputPos = (typedLine codes s).before.length := by
  obtain ⟨t, ht, hshows, _⟩ := run_shows hedit (shows_empty h hpos hzero) hshort
  exact ⟨t, ht, hshows.line.padded.string hshows.line.nonzero hshows.len, hshows.line.pos⟩

/-- The letters a and b, Left, and c: acb, with the cursor in front of the b. -/
theorem run_edits_typed : ∃ t, run [0x1E, 0x30, 0xE0, 0x4B, 0x2E] State.boot = some t ∧
    string bufferSize t.inputBuffer = [0x61, 0x63, 0x62] ∧ t.inputPos = 2 := by
  obtain ⟨t, ht, htext, hpos⟩ := @run_edits [0x1E, 0x30, 0xE0, 0x4B, 0x2E] State.boot valid_boot rfl
    (fun _ _ => rfl) (by decide) (by decide)
  exact ⟨t, ht, htext.trans (by decide), hpos.trans (by decide)⟩

/-- Enter after a line of editing keys: the text in front of the cursor is submitted. -/
theorem submits_before {codes : List (BitVec 8)} {c : BitVec 8} {s : State} (h : FreshLine s)
    (hedit : ∀ k ∈ keysOf codes s.modifiers, k.Edits)
    (hshort : StaysShort (keysOf codes s.modifiers) Line.empty)
    (henter : keyOf c (modifiersAfter codes s.modifiers) = some .enter) :
    Submits (run (codes ++ [c]) s) s (typedLine codes s).before := by
  obtain ⟨t, ht, hshows, hlog⟩ := run_shows hedit (shows_fresh h) hshort
  have hempty : entries t = [] := by
    rw [hlog.1, entries, entriesOf, h.count]
    rfl
  have hmod := modifiers_run h.valid ht
  obtain ⟨u, hu, hcommands, hentries⟩ := enter_shows hshows hempty
  have hpress : pressKey (keyOf c t.modifiers) t = some u := by
    rw [hmod, henter]
    exact hu
  refine ⟨u.withModifiers (t.modifiers.next c), ?_, ?_, hentries⟩
  · rw [run_append, ht, Option.bind_some, run, handleInterrupt_eq c hshows.valid, hpress,
      Option.map_some, Option.bind_some, run]
  · rw [← hlog.2]
    exact hcommands

/-- Enter submits and records the whole line exactly when nothing stands behind the cursor. -/
theorem submits_text_iff {codes : List (BitVec 8)} {c : BitVec 8} {s : State} (h : FreshLine s)
    (hedit : ∀ k ∈ keysOf codes s.modifiers, k.Edits)
    (hshort : StaysShort (keysOf codes s.modifiers) Line.empty)
    (henter : keyOf c (modifiersAfter codes s.modifiers) = some .enter) :
    Submits (run (codes ++ [c]) s) s (typedLine codes s).text ↔
      (typedLine codes s).after = [] := by
  obtain ⟨t, ht, hcommands, hentries⟩ := submits_before h hedit hshort henter
  constructor
  · rintro ⟨u, hu, _, hentries'⟩
    obtain rfl := Option.some.inj (ht.symm.trans hu)
    have hsame := commandOf_inj (hentries.symm.trans hentries')
    exact List.self_eq_append_right.mp hsame
  · intro hnil
    refine ⟨t, ht, ?_, ?_⟩
    · rw [hcommands, Line.text, hnil, List.append_nil]
    · rw [hentries, Line.text, hnil, List.append_nil]

theorem freshLine_boot : FreshLine State.boot := ⟨valid_boot, rfl, fun _ _ => rfl, rfl⟩

/-- The letters a and b, and Enter. -/
theorem submits_text_iff_typed :
    Submits (run ([0x1E, 0x30] ++ [0x1C]) State.boot) State.boot
      (typedLine [0x1E, 0x30] State.boot).text ↔ (typedLine [0x1E, 0x30] State.boot).after = [] :=
  submits_text_iff freshLine_boot (by decide) (by decide) (by decide)

/-- The letters a and b, the cursor moved to the left, and Enter: only the a is submitted. -/
theorem submits_cut : ¬∀ (codes : List (BitVec 8)) (c : BitVec 8) (s : State), FreshLine s →
    (∀ k ∈ keysOf codes s.modifiers, k.Edits) →
    StaysShort (keysOf codes s.modifiers) Line.empty →
    keyOf c (modifiersAfter codes s.modifiers) = some .enter →
    Submits (run (codes ++ [c]) s) s (typedLine codes s).text := by
  intro h
  obtain ⟨t, ht, hcommands, _⟩ := h [0x1E, 0x30, 0xE0, 0x4B] 0x1C State.boot freshLine_boot
    (by decide) (by decide) (by decide)
  have hcut : (run ([0x1E, 0x30, 0xE0, 0x4B] ++ [0x1C]) State.boot).map (fun t => commands t.out) =
      some [[ch 'a']] := by decide
  rw [ht, Option.map_some, hcommands] at hcut
  exact absurd hcut (by decide)

end Keyboard
