import Nyrix.KeyboardRecord

/-!
# What a scancode does

A scancode changes the modifier flags and presses the key it completes. Apart from Enter no
key passes a command on or touches the history entries, and no key leaves a NUL in front of
the cursor.
-/

namespace Keyboard

open BoundedLoop CharBuffer RecentList

/-- A step that puts a line of text in place, keeps track of where it comes from, and passes
no command on. -/
def Browses (r : Option State) (s : State) : Prop :=
  ∃ line saved index echo, commands echo = [] ∧
    r = some ((s.browsed saved index).withLine line echo) ∧
    (TextBefore s → ∀ j < line.2, line.1 j ≠ 0)

section Press

variable {s : State}

theorem recalls_browses {r : Option State} (hr : Recalls r s) : Browses r s := by
  obtain rfl | ⟨saved, index, cmd, _, ⟨e, he, hnul⟩, _, rfl⟩ := hr
  · refine ⟨(s.inputBuffer, s.inputPos), s.savedInput, s.historyIndex, [], rfl, ?_, id⟩
    rw [State.withLine, List.append_nil]
    rfl
  · refine ⟨((fun j => if j < e then cmd j else s.inputBuffer j), e), saved, index,
      [.redraw ((List.range e).map fun j => if j < e then cmd j else s.inputBuffer j)], rfl, ?_, ?_⟩
    · rw [recallCommand_eq hnul he, Option.bind_some]
      exact redrawInput_eq (s := recalled cmd e _) (Nat.le_of_lt_succ he)
    · intro _ j hj
      dsimp only at hj ⊢
      rw [if_pos hj]
      exact hnul.text j (Nat.zero_le j) hj

/-- A character put behind a text that holds no NUL. -/
theorem text_update {b : Buffer} {pos : Nat} {c : BitVec 8} (hc : c ≠ 0)
    (hb : ∀ j < pos, b j ≠ 0) : ∀ j < pos + 1, Function.update b pos c j ≠ 0 := by
  intro j hj
  by_cases hjp : j = pos
  · rw [hjp, Function.update_self]
    exact hc
  · rw [Function.update_of_ne hjp]
    exact hb j (Nat.lt_of_le_of_ne (Nat.le_of_lt_succ hj) hjp)

theorem lineAfter_text {k : Key} (hk : ∀ c, k = .insert c → c ≠ 0) (h : Valid s)
    (htext : TextBefore s) : ∀ j < (lineAfter k s.inputBuffer s.inputPos).2,
      (lineAfter k s.inputBuffer s.inputPos).1 j ≠ 0 := by
  intro j
  cases k with
  | insert c =>
    rw [lineAfter]
    split_ifs with hlt hc
    · refine text_update (hk c rfl) (fun i hi => ?_) j
      rw [opened, if_neg (by omega)]
      exact htext i hi
    · exact text_update (hk c rfl) htext j
    · exact htext j
  | backspace =>
    rw [lineAfter]
    split_ifs with hpos
    · intro hj
      dsimp only at hj ⊢
      rw [closed, if_neg (by omega)]
      exact htext j (by omega)
    · exact htext j
  | delete =>
    intro hj
    simp only [lineAfter] at hj ⊢
    rw [closed, if_neg (by omega)]
    exact htext j hj
  | left =>
    intro hj
    simp only [lineAfter] at hj ⊢
    exact htext j (by omega)
  | right =>
    rw [lineAfter]
    intro hj
    dsimp only at hj ⊢
    split_ifs at hj with hgo
    · by_cases hjp : j = s.inputPos
      · rw [hjp]
        exact hgo.2
      · exact htext j (by omega)
    · exact htext j hj
  | home => exact fun hj => absurd hj (Nat.not_lt_zero j)
  | toEnd =>
    intro hj
    simp only [lineAfter] at hj ⊢
    by_cases hjp : j < s.inputPos
    · exact htext j hjp
    · exact h.endFrom_nulAt.2.text j (Nat.le_of_not_lt hjp) hj
  | enter => exact htext j
  | up => exact htext j
  | down => exact htext j

/-- What a key other than Enter leaves alone. -/
structure Kept (s t : State) : Prop where
  modifiers : t.modifiers = s.modifiers
  history : t.history = s.history
  count : t.historyCount = s.historyCount
  commands : commands t.out = commands s.out

theorem kept_withLine (saved : Buffer) (index : Int) (line : Buffer × Nat) {echo : List Event}
    (hecho : commands echo = []) : Kept s ((s.browsed saved index).withLine line echo) := by
  refine ⟨rfl, rfl, rfl, ?_⟩
  rw [State.withLine, commands_append, hecho, List.append_nil]
  rfl

/-- A full line is the one thing that stops a key. -/
theorem press_insert_full {c : BitVec 8} (h : Valid s) (hfull : LineFull s) :
    press (.insert c) s = none := insertChar_none c h hfull

theorem press_edited {k : Key} {t : State} (hk : k.Edits) (h : Valid s) (ht : press k s = some t) :
    Echoes (press k s) s (lineAfter k s.inputBuffer s.inputPos) := by
  refine press_edits hk h ?_
  rintro c rfl hfull
  rw [press_insert_full h hfull] at ht
  cases ht

/-- Every key but Enter, as one change of the line and of the place in the history. -/
theorem press_browses {k : Key} {t : State} (hk : k ≠ .enter) (hc : ∀ c, k = .insert c → c ≠ 0)
    (h : Valid s) (ht : press k s = some t) : Browses (press k s) s := by
  by_cases hedit : k.Edits
  · obtain ⟨echo, hecho, heq⟩ := press_edited hedit h ht
    exact ⟨_, s.savedInput, s.historyIndex, echo, hecho, heq, lineAfter_text hc h⟩
  · cases k with
    | up => exact recalls_browses (arrowUp_recalls h)
    | down => exact recalls_browses (arrowDown_recalls h)
    | enter => exact absurd rfl hk
    | _ => exact absurd trivial hedit

theorem press_kept {k : Key} {t : State} (hk : k ≠ .enter) (hc : ∀ c, k = .insert c → c ≠ 0)
    (h : Valid s) (ht : press k s = some t) : Kept s t ∧ (TextBefore s → TextBefore t) := by
  obtain ⟨line, saved, index, echo, hecho, heq, htext⟩ := press_browses hk hc h ht
  obtain rfl := Option.some.inj (ht.symm.trans heq)
  exact ⟨kept_withLine saved index line hecho, htext⟩

end Press

theorem addHistory_modifiers {s t : State} (h : Valid s) (ht : addHistory s = some t) :
    t.modifiers = s.modifiers := by
  obtain ⟨rows, count, heq, _⟩ := addHistory_eq h
  rw [Option.some.inj (ht.symm.trans heq)]
  rfl

/-- Enter cuts the line and records it, if it is not empty, before it prints a new prompt. -/
theorem enter_cases {s t : State} (h : Valid s) (ht : enter s = some t) : ∃ u,
    t = freshPrompt u ∧ (u = emit (.putchar 0x0A) { s with inputBuffer := cutLine s } ∨
      ∃ text, addHistory (emit (.command text)
        (emit (.putchar 0x0A) { s with inputBuffer := cutLine s })) = some u) := by
  rw [enter, endLine_eq h, Option.bind_some, submit, Option.map_eq_some_iff] at ht
  obtain ⟨u, hu, rfl⟩ := ht
  refine ⟨u, rfl, ?_⟩
  split_ifs at hu
  · obtain ⟨e, he, hnul⟩ := (valid_cutLine h).nulAt (Nat.zero_le 255)
    rw [processCommand_eq hnul (Nat.lt_succ_of_le he), Option.bind_some] at hu
    exact Or.inr ⟨_, hu⟩
  · exact Or.inl (Option.some.inj hu).symm

theorem enter_modifiers {s t : State} (h : Valid s) (ht : enter s = some t) :
    t.modifiers = s.modifiers := by
  obtain ⟨u, rfl, hempty | ⟨text, hadd⟩⟩ := enter_cases h ht
  · rw [hempty]
    rfl
  · have hkept := addHistory_modifiers ((valid_cutLine h).emit _) hadd
    exact hkept

/-- No key touches the modifier flags. -/
theorem press_modifiers {k : Key} {s t : State} (h : Valid s) (ht : press k s = some t) :
    t.modifiers = s.modifiers := by
  by_cases hedit : k.Edits
  · obtain ⟨echo, _, heq⟩ := press_edited hedit h ht
    rw [Option.some.inj (ht.symm.trans heq)]
    rfl
  · cases k with
    | enter => exact enter_modifiers h ht
    | up => exact (press_kept (by decide) (fun _ hc => by cases hc) h ht).1.modifiers
    | down => exact (press_kept (by decide) (fun _ hc => by cases hc) h ht).1.modifiers
    | _ => exact absurd trivial hedit

/-- The key a scancode completes, pressed. -/
def pressKey (k : Option Key) (s : State) : Option State := k.elim (some s) fun k => press k s

theorem pressKey_modifiers {k : Option Key} {s t : State} (h : Valid s)
    (ht : pressKey k s = some t) : t.modifiers = s.modifiers := by
  cases k with
  | none => rw [← Option.some.inj ht]
  | some k => exact press_modifiers h ht

theorem pressKey_map {k : Option Key} {s : State} (h : Valid s) {f g : State → State}
    (hfg : ∀ t, t.modifiers = s.modifiers → f t = g t) :
    (pressKey k s).map f = (pressKey k s).map g := by
  cases ht : pressKey k s with
  | none => rfl
  | some t => rw [Option.map_some, Option.map_some, hfg t (pressKey_modifiers h ht)]

theorem handleExtended_eq (scancode : BitVec 8) (s : State) : handleExtended scancode s =
    (pressKey (extendedKey scancode) s).map fun t => { t with extended := false } := by
  rw [handleExtended, extendedKey]
  congr 1
  split_ifs
  all_goals rfl

theorem handleMake_eq {scancode : BitVec 8} {s : State}
    (hshift : ¬(scancode = 0x2A ∨ scancode = 0x36)) (hcaps : scancode ≠ 0x3A) :
    handleMake scancode s = pressKey (makeKey scancode s.modifiers) s := by
  have hnot : ¬(scancode = 0x2A ∨ scancode = 0x36 ∨ scancode = 0x3A) := by
    rintro (h | h | h)
    · exact hshift (.inl h)
    · exact hshift (.inr h)
    · exact hcaps h
  rw [handleMake, if_neg hshift, if_neg hcaps, makeKey, if_neg hnot]
  dsimp only
  rw [decode_modifiers]
  split_ifs
  all_goals rfl

/-- A scancode presses its key and then changes the modifier flags. -/
theorem handleInterrupt_eq (scancode : BitVec 8) {s : State} (h : Valid s) :
    handleInterrupt scancode s = (pressKey (keyOf scancode s.modifiers) s).map
      (·.withModifiers (s.modifiers.next scancode)) := by
  rw [handleInterrupt, keyOf, Modifiers.next]
  by_cases hE0 : scancode = 0xE0
  · rw [if_pos hE0, if_pos (Or.inl hE0), if_pos hE0]
    rfl
  rw [if_neg hE0, if_neg hE0]
  by_cases hbreak : scancode &&& 0x80 ≠ 0
  · rw [if_pos hbreak, if_pos (Or.inr hbreak), if_pos hbreak]
    rfl
  have hnot : ¬(scancode = 0xE0 ∨ scancode &&& 0x80 ≠ 0) := by
    rintro (h | h)
    · exact hE0 h
    · exact hbreak h
  rw [if_neg hbreak, if_neg hnot, if_neg hbreak]
  by_cases hext : s.extended = true
  · have hmod : s.modifiers.extended = true := hext
    rw [if_pos hext, if_pos hmod, if_pos hmod, handleExtended_eq]
    refine pressKey_map h fun t ht => ?_
    rw [← ht]
    rfl
  · have hmod : ¬s.modifiers.extended = true := hext
    rw [if_neg hext, if_neg hmod, if_neg hmod]
    by_cases hshift : scancode = 0x2A ∨ scancode = 0x36
    · have hnone : makeKey scancode s.modifiers = none :=
        if_pos (hshift.imp_right Or.inl)
      rw [handleMake, if_pos hshift, if_pos hshift, hnone]
      rfl
    rw [if_neg hshift]
    by_cases hcaps : scancode = 0x3A
    · have hnone : makeKey scancode s.modifiers = none :=
        if_pos (Or.inr (Or.inr hcaps))
      rw [handleMake, if_neg hshift, if_pos hcaps, if_pos hcaps, hnone]
      rfl
    rw [handleMake_eq hshift hcaps, if_neg hcaps]
    refine (Option.map_id').symm.trans (pressKey_map h fun t ht => ?_)
    rw [← ht]
    rfl

/-- The scancode handled, as the key pressed and the flags changed after it. -/
theorem handleInterrupt_press {scancode : BitVec 8} {s t : State} (h : Valid s)
    (ht : handleInterrupt scancode s = some t) : ∃ u,
      pressKey (keyOf scancode s.modifiers) s = some u ∧
      t = u.withModifiers (s.modifiers.next scancode) := by
  rw [handleInterrupt_eq scancode h, Option.map_eq_some_iff] at ht
  obtain ⟨u, hu, rfl⟩ := ht
  exact ⟨u, hu, rfl⟩

theorem lookup_getD_ne {α β : Type} [BEq α] [LawfulBEq α] [DecidableEq β] {l : List (α × β)}
    {z d : β} (hl : l.all (fun p => decide (p.2 ≠ z)) = true) (hd : d ≠ z) (c : α) :
    (l.lookup c).getD d ≠ z := by
  cases hc : l.lookup c with
  | none => exact hd
  | some e =>
    obtain ⟨l₁, l₂, rfl, _⟩ := List.lookup_eq_some_iff.mp hc
    simpa using List.all_eq_true.mp hl (c, e) (List.mem_append_right _ List.mem_cons_self)

theorem shifted_ne_zero {c : BitVec 8} (h : c ≠ 0) : shifted c ≠ 0 :=
  lookup_getD_ne (by decide) h c

/-- No key inserts a NUL. -/
theorem decode_ne_zero {scancode : BitVec 8} (s : State)
    (h : scancodeToAscii.getD scancode.toNat 0 ≠ 0) : decode scancode s ≠ 0 := by
  rw [decode]
  generalize scancodeToAscii.getD scancode.toNat 0 = ascii at h
  split_ifs with hletter
  · have hlow : ch 'a' ≤ ascii := hletter.1
    have ha : ch 'a' = 0x61 := rfl
    rw [ha] at hlow
    intro hzero
    have hval : ascii = 32 := by
      rw [← BitVec.sub_add_cancel ascii 32, hzero]
      rfl
    rw [hval] at hlow
    exact absurd hlow (by decide)
  · exact h
  · exact shifted_ne_zero h
  · exact h

theorem extendedKey_ne_insert (scancode : BitVec 8) (c : BitVec 8) :
    extendedKey scancode ≠ some (.insert c) := by
  intro h
  rw [extendedKey] at h
  split_ifs at h
  all_goals cases h

/-- A key that inserts a character comes from a make code that stands for it. -/
theorem keyOf_makes {scancode : BitVec 8} {m : Modifiers} {c : BitVec 8}
    (h : keyOf scancode m = some (.insert c)) : makeKey scancode m = some (.insert c) := by
  rw [keyOf] at h
  split_ifs at h
  · exact absurd h (extendedKey_ne_insert scancode c)
  · exact h

theorem keyOf_insert {scancode : BitVec 8} {m : Modifiers} {k : Key}
    (h : keyOf scancode m = some k) (c : BitVec 8) (hk : k = .insert c) : c ≠ 0 := by
  subst hk
  have hmake := keyOf_makes h
  rw [makeKey] at hmake
  dsimp only at hmake
  split_ifs at hmake with hmod hnone
  · cases hmake
  · cases hmake
  · obtain rfl := Key.insert.inj (Option.some.inj hmake)
    exact decode_ne_zero _ hnone

theorem enter_text {s t : State} (ht : enter s = some t) : TextBefore t := by
  rw [enter, Option.map_eq_some_iff] at ht
  obtain ⟨u, _, rfl⟩ := ht
  exact fun j hj => absurd hj (Nat.not_lt_zero j)

/-- What does not depend on the modifier flags is kept by a byte when each key keeps it. -/
theorem handleInterrupt_keeps (P : State → Prop) {scancode : BitVec 8} {s t : State}
    (hflags : ∀ u m, P u → P (State.withModifiers u m))
    (hkey : ∀ k u, keyOf scancode s.modifiers = some k → press k s = some u → P u) (h : Valid s)
    (hs : P s) (ht : handleInterrupt scancode s = some t) : P t := by
  obtain ⟨u, hu, rfl⟩ := handleInterrupt_press h ht
  apply hflags
  cases hk : keyOf scancode s.modifiers with
  | none =>
    rw [hk] at hu
    rwa [← Option.some.inj hu]
  | some k =>
    rw [hk] at hu
    exact hkey k u hk hu

/-- The handler never leaves a NUL in front of the cursor. -/
theorem handleInterrupt_text {scancode : BitVec 8} {s t : State} (h : Valid s)
    (htext : TextBefore s) (ht : handleInterrupt scancode s = some t) : TextBefore t := by
  refine handleInterrupt_keeps TextBefore (fun _ _ hu => hu) (fun k u hk hu => ?_) h htext ht
  by_cases henter : k = .enter
  · subst henter
    exact enter_text hu
  · exact (press_kept henter (keyOf_insert hk) h hu).2 htext

theorem textBefore_boot : TextBefore State.boot := fun j hj => absurd hj (Nat.not_lt_zero j)

theorem text_run {codes : List (BitVec 8)} {s t : State} (h : Valid s) (htext : TextBefore s)
    (hrun : run codes s = some t) : TextBefore t :=
  (run_induct (fun s => Valid s ∧ TextBefore s)
    (fun _ _ _ hs ht => ⟨handleInterrupt_valid hs.1 ht, handleInterrupt_text hs.1 hs.2 ht⟩)
    ⟨h, htext⟩ hrun).2

theorem modifiers_run {codes : List (BitVec 8)} {s t : State} (h : Valid s)
    (hrun : run codes s = some t) : t.modifiers = modifiersAfter codes s.modifiers := by
  induction codes generalizing s with
  | nil => rw [Option.some.inj hrun, modifiersAfter, List.foldl_nil]
  | cons c codes ih =>
    rw [run, Option.bind_eq_some_iff] at hrun
    obtain ⟨u, hu, hrest⟩ := hrun
    obtain ⟨v, _, rfl⟩ := handleInterrupt_press h hu
    exact ih (handleInterrupt_valid h hu) hrest

end Keyboard
