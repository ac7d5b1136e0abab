import Nyrix.KeyboardPress

/-!
# One line after another

Enter resets the cursor and leaves the characters of the line where they are. Two runs that
agree on these characters stay alike over a line typed without the history; where they
differ, Right and Enter show it.
-/

namespace Keyboard

open BoundedLoop CharBuffer RecentList

/-- Two line buffers with the same characters. -/
def Agree (b b' : Buffer) : Prop := ∀ j < 256, b j = b' j

section Agree

variable {b b' : Buffer} {pos e : Nat}

theorem Agree.nulAt (h : Agree b b') (hnul : NulAt b pos e) (he : e < 256) : NulAt b' pos e := by
  refine ⟨hnul.le, ?_, ?_⟩
  · rw [← h e he, hnul.nul]
  · intro j hj hlt
    rw [← h j (by omega)]
    exact hnul.text j hj hlt

theorem Agree.endFrom (h : Agree b b') (hnul : NulAt b pos e) (he : e < 256) :
    endFrom b pos = endFrom b' pos := by
  rw [endFrom_eq hnul he, endFrom_eq (h.nulAt hnul he) he]

theorem Agree.closed (h : Agree b b') {lo : Nat} (he : e < 256) :
    Agree (closed b lo e) (closed b' lo e) := by
  intro j hj
  rw [CharBuffer.closed, CharBuffer.closed]
  by_cases hin : lo ≤ j ∧ j < e
  · rw [if_pos hin, if_pos hin, h (j + 1) (by omega)]
  · rw [if_neg hin, if_neg hin, h j hj]

theorem Agree.opened (h : Agree b b') (lo e : Nat) : Agree (opened b lo e) (opened b' lo e) := by
  intro j hj
  rw [CharBuffer.opened, CharBuffer.opened]
  by_cases hin : lo < j ∧ j ≤ e + 1
  · rw [if_pos hin, if_pos hin, h (j - 1) (by omega)]
  · rw [if_neg hin, if_neg hin, h j hj]

theorem Agree.update (h : Agree b b') (i : Nat) (c : BitVec 8) :
    Agree (Function.update b i c) (Function.update b' i c) := by
  intro j hj
  by_cases hji : j = i
  · rw [hji, Function.update_self, Function.update_self]
  · rw [Function.update_of_ne hji, Function.update_of_ne hji, h j hj]

/-- An editing key keeps two buffers alike, and the cursor in the same place. -/
theorem lineAfter_agree (k : Key) (h : Agree b b') (hpos : pos < 256) (hnul : NulAt b pos e)
    (he : e < 256) : Agree (lineAfter k b pos).1 (lineAfter k b' pos).1 ∧
      (lineAfter k b pos).2 = (lineAfter k b' pos).2 := by
  have hend := h.endFrom hnul he
  have hat := h pos hpos
  have hlast : endFrom b pos < 256 := by rwa [endFrom_eq hnul he]
  cases k with
  | insert c =>
    rw [lineAfter, lineAfter, ← hend, ← hat]
    split_ifs with hlt hc
    · exact ⟨(h.opened pos (endFrom b pos)).update pos c, rfl⟩
    · exact ⟨h.update pos c, rfl⟩
    · exact ⟨h, rfl⟩
  | backspace =>
    rw [lineAfter, lineAfter, ← hend]
    split_ifs
    · exact ⟨h.closed hlast, rfl⟩
    · exact ⟨h, rfl⟩
  | delete =>
    rw [lineAfter, lineAfter, ← hend]
    exact ⟨h.closed hlast, rfl⟩
  | right =>
    rw [lineAfter, lineAfter, ← hat]
    exact ⟨h, rfl⟩
  | toEnd => exact ⟨h, hend⟩
  | _ => exact ⟨h, rfl⟩

end Agree

/-- Two states with the same line, cursor and modifier flags. -/
structure SameLine (s s' : State) : Prop where
  valid : Valid s
  valid' : Valid s'
  text : TextBefore s
  text' : TextBefore s'
  line : Agree s.inputBuffer s'.inputBuffer
  pos : s.inputPos = s'.inputPos
  modifiers : s.modifiers = s'.modifiers

/-- Either neither step gets through, or both do and leave the same line, and they pass on the
same commands. -/
def Alike (s s' : State) (r r' : Option State) : Prop :=
  (r = none ∧ r' = none) ∨ ∃ t t' new, r = some t ∧ r' = some t' ∧
    (Agree t.inputBuffer t'.inputBuffer ∧ t.inputPos = t'.inputPos) ∧
    commands t.out = commands s.out ++ new ∧ commands t'.out = commands s'.out ++ new

section SameLine

variable {s s' : State}

theorem SameLine.lineFull (h : SameLine s s') : LineFull s ↔ LineFull s' := by
  rw [LineFull, LineFull, ← h.pos]
  refine and_congr_right fun _ => forall_congr' fun i => imp_congr_right fun _ =>
    imp_congr_right fun hi => ?_
  rw [h.line i (Nat.lt_succ_of_lt hi)]

theorem SameLine.beforeCursor (h : SameLine s s') : beforeCursor s = beforeCursor s' := by
  have hpos := h.valid.pos
  rw [Keyboard.beforeCursor, Keyboard.beforeCursor, ← h.pos]
  exact List.map_congr_left fun j hj => h.line j (by
    have := List.mem_range.mp hj
    omega)

theorem edit_alike {k : Key} (hk : k.Edits) (h : SameLine s s') :
    Alike s s' (press k s) (press k s') := by
  by_cases hroom : ∀ c, k = .insert c → ¬LineFull s
  · obtain ⟨echo, hecho, heq⟩ := press_edits hk h.valid hroom
    obtain ⟨echo', hecho', heq'⟩ := press_edits hk h.valid' fun c hc hfull =>
      hroom c hc (h.lineFull.mpr hfull)
    obtain ⟨e, he, hnul⟩ := h.valid.nulAt h.valid.pos
    refine .inr ⟨_, _, [], heq, heq', ?_, ?_, ?_⟩
    · rw [← h.pos]
      exact lineAfter_agree k h.line (Nat.lt_succ_of_le h.valid.pos) hnul (Nat.lt_succ_of_le he)
    · rw [State.withLine, commands_append, hecho]
    · rw [State.withLine, commands_append, hecho']
  · -- a character typed into a full line stops both runs
    obtain ⟨c, hc⟩ := not_forall.mp hroom
    obtain ⟨rfl, hfull⟩ := Classical.not_imp.mp hc
    rw [not_not] at hfull
    exact .inl ⟨press_insert_full h.valid hfull,
      press_insert_full h.valid' (h.lineFull.mp hfull)⟩

theorem enter_alike (h : SameLine s s') : Alike s s' (enter s) (enter s') := by
  obtain ⟨rows, count, echo, heq, hcommands, _⟩ := enter_eq h.valid h.text
  obtain ⟨rows', count', echo', heq', hcommands', _⟩ := enter_eq h.valid' h.text'
  refine .inr ⟨_, _, commands echo, heq, heq', ⟨?_, rfl⟩, commands_append _ _, ?_⟩
  · rw [cutLine, cutLine, ← h.pos]
    exact h.line.update s.inputPos 0
  · rw [commands_append, hcommands, hcommands', h.beforeCursor]

/-- A key that does not look at the history. -/
def Key.Local (k : Key) : Prop := k.Edits ∨ k = .enter

theorem press_alike {k : Key} (hk : k.Local) (h : SameLine s s') :
    Alike s s' (press k s) (press k s') := by
  obtain hedit | rfl := hk
  · exact edit_alike hedit h
  · exact enter_alike h

/-- A scancode keeps two runs alike that have the same line. -/
theorem handleInterrupt_alike {c : BitVec 8} (hk : ∀ k ∈ (keyOf c s.modifiers).toList, k.Local)
    (h : SameLine s s') :
    Alike s s' (handleInterrupt c s) (handleInterrupt c s') := by
  rw [handleInterrupt_eq c h.valid, handleInterrupt_eq c h.valid', ← h.modifiers]
  cases hkey : keyOf c s.modifiers with
  | none =>
    exact .inr ⟨_, _, [], rfl, rfl, ⟨h.line, h.pos⟩, (List.append_nil _).symm,
      (List.append_nil _).symm⟩
  | some k =>
    rw [hkey] at hk
    obtain ⟨hn, hn'⟩ | ⟨t, t', new, ht, ht', hline, hnew, hnew'⟩ :=
      press_alike (hk k List.mem_cons_self) h
    · have hpress : pressKey (some k) s = none := hn
      have hpress' : pressKey (some k) s' = none := hn'
      rw [hpress, hpress']
      exact .inl ⟨rfl, rfl⟩
    · have hpress : pressKey (some k) s = some t := ht
      have hpress' : pressKey (some k) s' = some t' := ht'
      rw [hpress, hpress']
      exact .inr ⟨_, _, new, rfl, rfl, hline, hnew, hnew'⟩

theorem SameLine.step {c : BitVec 8} {t t' : State} (h : SameLine s s')
    (ht : handleInterrupt c s = some t) (ht' : handleInterrupt c s' = some t')
    (hline : Agree t.inputBuffer t'.inputBuffer) (hpos : t.inputPos = t'.inputPos) :
    SameLine t t' := by
  refine ⟨handleInterrupt_valid h.valid ht, handleInterrupt_valid h.valid' ht',
    handleInterrupt_text h.valid h.text ht, handleInterrupt_text h.valid' h.text' ht', hline, hpos,
    ?_⟩
  obtain ⟨u, _, rfl⟩ := handleInterrupt_press h.valid ht
  obtain ⟨u', _, rfl⟩ := handleInterrupt_press h.valid' ht'
  rw [h.modifiers]
  rfl

/-- Two runs that start with the same line pass on the same commands. -/
theorem run_alike {codes : List (BitVec 8)} (hk : ∀ k ∈ keysOf codes s.modifiers, k.Local)
    (h : SameLine s s') : Alike s s' (run codes s) (run codes s') := by
  induction codes generalizing s s' with
  | nil =>
    exact .inr ⟨s, s', [], rfl, rfl, ⟨h.line, h.pos⟩, (List.append_nil _).symm,
      (List.append_nil _).symm⟩
  | cons c codes ih =>
    rw [keysOf] at hk
    rw [run, run]
    obtain ⟨hn, hn'⟩ | ⟨t, t', new, ht, ht', ⟨hline, hpos⟩, hnew, hnew'⟩ :=
      handleInterrupt_alike (fun k hmem => hk k (List.mem_append_left _ hmem)) h
    · rw [hn, hn']
      exact .inl ⟨rfl, rfl⟩
    · have hmod : t.modifiers = s.modifiers.next c := by
        obtain ⟨u, _, rfl⟩ := handleInterrupt_press h.valid ht
        rfl
      rw [ht, ht', Option.bind_some, Option.bind_some]
      obtain hnone | ⟨u, u', more, hu, hu', hline', hmore, hmore'⟩ :=
        ih (fun k hmem => hk k (List.mem_append_right _ (hmod ▸ hmem)))
          (h.step ht ht' hline hpos)
      · exact .inl hnone
      · refine .inr ⟨u, u', new ++ more, hu, hu', hline', ?_, ?_⟩
        · rw [hmore, hnew, List.append_assoc]
        · rw [hmore', hnew', List.append_assoc]

end SameLine

/-- The commands passed on during a run. -/
def passed (codes : List (BitVec 8)) (s : State) : Option (List (List (BitVec 8))) :=
  (run codes s).map fun t => (commands t.out).drop (commands s.out).length

theorem passed_eq {codes : List (BitVec 8)} {s t : State} {new : List (List (BitVec 8))}
    (ht : run codes s = some t) (hnew : commands t.out = commands s.out ++ new) :
    passed codes s = some new := by
  rw [passed, ht, Option.map_some, hnew, List.drop_left]

/-- The same line gives the same commands, whether or not the run gets through. -/
theorem SameLine.passed {s s' : State} (h : SameLine s s') {codes : List (BitVec 8)}
    (hk : ∀ k ∈ keysOf codes s.modifiers, k.Local) : passed codes s = passed codes s' := by
  obtain ⟨hn, hn'⟩ | ⟨t, t', new, ht, ht', _, hnew, hnew'⟩ := run_alike hk h
  · rw [Keyboard.passed, Keyboard.passed, hn, hn', Option.map_none, Option.map_none]
  · rw [passed_eq ht hnew, passed_eq ht' hnew']

/-- The character of the key A. -/
def letter (m : Modifiers) : BitVec 8 := decode 0x1E (State.boot.withModifiers m)

/-- The scancodes that go past a character: Right over one that is there, the letter A in the
place of a NUL. -/
def stepCodes (c : BitVec 8) : List (BitVec 8) := if c ≠ 0 then [0xE0, 0x4D] else [0x1E]

/-- The scancodes that go past the first `n` characters of a line. -/
def walkCodes (b : Buffer) (n : Nat) : List (BitVec 8) :=
  (List.range n).flatMap fun i => stepCodes (b i)

/-- Past the first `j` characters, then Right and Enter. -/
def revealCodes (b : Buffer) (j : Nat) : List (BitVec 8) := walkCodes b j ++ [0xE0, 0x4D, 0x1C]

section Codes

variable {m : Modifiers}

theorem keyOf_right (h : m.Plain) : keysOf [0xE0, 0x4D] m = [.right] ∧
    modifiersAfter [0xE0, 0x4D] m = m := by
  obtain ⟨shift, caps, ext⟩ := m
  obtain rfl : ext = false := h
  exact ⟨rfl, rfl⟩

theorem keyOf_letter (h : m.Plain) : keyOf 0x1E m = some (.insert (letter m)) ∧ m.next 0x1E = m := by
  obtain ⟨shift, caps, ext⟩ := m
  obtain rfl : ext = false := h
  refine ⟨?_, rfl⟩
  cases shift with
  | false => cases caps <;> rfl
  | true => cases caps <;> rfl

theorem keyOf_enter (h : m.Plain) : keyOf 0x1C m = some .enter ∧ m.next 0x1C = m := by
  obtain ⟨shift, caps, ext⟩ := m
  obtain rfl : ext = false := h
  refine ⟨?_, rfl⟩
  cases shift with
  | false => rfl
  | true => rfl

/-- A scancode that completes a key leaves no prefix behind. -/
theorem next_plain {c : BitVec 8} {k : Key} (h : keyOf c m = some k) : (m.next c).Plain := by
  rw [keyOf] at h
  split_ifs at h with hnone hext
  · obtain ⟨hE0, hbreak⟩ := not_or.mp hnone
    rw [Modifiers.next, if_neg hE0, if_neg hbreak, if_pos hext]
    rfl
  · obtain ⟨hE0, hbreak⟩ := not_or.mp hnone
    have hplain : m.extended = false := Bool.not_eq_true _ ▸ hext
    rw [Modifiers.next, if_neg hE0, if_neg hbreak, if_neg hext]
    split_ifs
    all_goals exact hplain

theorem stepCodes_keys (h : m.Plain) (c : BitVec 8) :
    (∀ k ∈ keysOf (stepCodes c) m, k.Edits) ∧ modifiersAfter (stepCodes c) m = m := by
  rw [stepCodes]
  split_ifs
  · rw [(keyOf_right h).1, (keyOf_right h).2]
    exact ⟨by simp [Key.Edits], rfl⟩
  · rw [keysOf, (keyOf_letter h).1]
    exact ⟨by simp [keysOf, Key.Edits], (keyOf_letter h).2⟩

theorem walkCodes_succ (b : Buffer) (n : Nat) :
    walkCodes b (n + 1) = walkCodes b n ++ stepCodes (b n) := by
  rw [walkCodes, List.range_succ, List.flatMap_append, List.flatMap_singleton, walkCodes]

theorem walkCodes_keys (h : m.Plain) (b : Buffer) (n : Nat) :
    (∀ k ∈ keysOf (walkCodes b n) m, k.Edits) ∧ modifiersAfter (walkCodes b n) m = m := by
  induction n with
  | zero => exact ⟨fun k hk => absurd hk List.not_mem_nil, rfl⟩
  | succ n ih =>
    obtain ⟨hedits, hsame⟩ := ih
    obtain ⟨hedits', hsame'⟩ := stepCodes_keys h (b n)
    rw [walkCodes_succ, keysOf_append, modifiersAfter_append, hsame]
    refine ⟨?_, hsame'⟩
    intro k hk
    obtain hk | hk := List.mem_append.mp hk
    · exact hedits k hk
    · exact hedits' k hk

end Codes

/-- One line: editing keys, then Enter. -/
def OneLine (codes : List (BitVec 8)) (m : Modifiers) : Prop :=
  ∃ ks, keysOf codes m = ks ++ [.enter] ∧ ∀ k ∈ ks, k.Edits

theorem revealCodes_oneLine {m : Modifiers} (h : m.Plain) (b : Buffer) (j : Nat) :
    OneLine (revealCodes b j) m := by
  obtain ⟨hedits, hsame⟩ := walkCodes_keys h b j
  have hlast : keysOf [0xE0, 0x4D, 0x1C] m = [.right] ++ [.enter] := by
    have hsplit := keysOf_append [0xE0, 0x4D] [0x1C] m
    rw [(keyOf_right h).1, (keyOf_right h).2, keysOf, (keyOf_enter h).1] at hsplit
    exact hsplit
  refine ⟨keysOf (walkCodes b j) m ++ [.right], ?_, ?_⟩
  · rw [revealCodes, keysOf_append, hsame, hlast, List.append_assoc]
  · intro k hk
    obtain hk | hk := List.mem_append.mp hk
    · exact hedits k hk
    · rw [List.mem_singleton.mp hk]
      trivial

/-- The state after editing keys, as far as another line goes. -/
structure Leaves (s t : State) (line : Buffer × Nat) : Prop where
  buffer : t.inputBuffer = line.1
  pos : t.inputPos = line.2
  modifiers : t.modifiers = s.modifiers
  commands : commands t.out = commands s.out

/-- What is in the place of a character that has been gone past. -/
def passedChar (m : Modifiers) (c : BitVec 8) : BitVec 8 := if c ≠ 0 then c else letter m

section Reveal

variable {s : State}

theorem leaves_withLine (line : Buffer × Nat) {echo : List Event} (h : commands echo = []) :
    Leaves s (s.withLine line echo) line := by
  refine ⟨rfl, rfl, rfl, ?_⟩
  rw [State.withLine, commands_append, h, List.append_nil]

/-- A key pressed by one scancode that leaves the flags alone. -/
theorem run_key {c : BitVec 8} {k : Key} {t : State} (h : Valid s)
    (hk : keyOf c s.modifiers = some k) (hnext : s.modifiers.next c = s.modifiers)
    (ht : press k s = some t) : run [c] s = some t := by
  have hmod := press_modifiers h ht
  have hpress : pressKey (some k) s = some t := ht
  rw [run, handleInterrupt_eq c h, hk, hpress, hnext, Option.map_some, Option.bind_some, run, ← hmod]
  rfl

theorem run_right (h : Valid s) (hplain : s.modifiers.Plain) : ∃ t, run [0xE0, 0x4D] s = some t ∧
    Leaves s t (lineAfter .right s.inputBuffer s.inputPos) := by
  let u : State := { s with extended := true }
  have hprefixed : handleInterrupt 0xE0 s = some u := if_pos rfl
  obtain ⟨echo, hecho, heq⟩ := press_edits (k := .right) trivial
    (h.flags s.shiftPressed s.capsLock true) (fun _ hc => by cases hc)
  have hkey : pressKey (keyOf 0x4D u.modifiers) u = press .right u := rfl
  have hnext : u.modifiers.next 0x4D = s.modifiers := by
    have hext : s.extended = false := hplain
    exact congrArg (Modifiers.mk s.shiftPressed s.capsLock) hext.symm
  refine ⟨_, ?_, leaves_withLine (s := s) _ hecho⟩
  rw [run, hprefixed, Option.bind_some, run, handleInterrupt_eq 0x4D (h.flags _ _ _), hkey, hnext,
    heq, Option.map_some, Option.bind_some, run]
  rfl

theorem run_letter (h : Valid s) (hplain : s.modifiers.Plain) (hpos : s.inputPos < 255)
    (hzero : s.inputBuffer s.inputPos = 0) : ∃ t, run [0x1E] s = some t ∧
      Leaves s t (Function.update s.inputBuffer s.inputPos (letter s.modifiers), s.inputPos + 1) := by
  obtain ⟨hkey, hnext⟩ := keyOf_letter hplain
  obtain ⟨echo, hecho, heq⟩ := press_edits (k := .insert (letter s.modifiers)) trivial h
    (fun _ _ hfull => hfull.2 s.inputPos (Nat.le_refl _) hpos hzero)
  have hline : lineAfter (.insert (letter s.modifiers)) s.inputBuffer s.inputPos =
      (Function.update s.inputBuffer s.inputPos (letter s.modifiers), s.inputPos + 1) := by
    rw [lineAfter, if_pos hpos, if_neg (not_not.mpr hzero)]
  rw [hline] at heq
  exact ⟨_, run_key h hkey hnext heq, leaves_withLine _ hecho⟩

/-- One character gone past. -/
theorem run_step (h : Valid s) (hplain : s.modifiers.Plain) (hpos : s.inputPos < 255) :
    ∃ t, run (stepCodes (s.inputBuffer s.inputPos)) s = some t ∧ Leaves s t
      (Function.update s.inputBuffer s.inputPos
        (passedChar s.modifiers (s.inputBuffer s.inputPos)), s.inputPos + 1) := by
  rw [stepCodes, passedChar]
  by_cases hc : s.inputBuffer s.inputPos ≠ 0
  · obtain ⟨t, ht, hleaves⟩ := run_right h hplain
    have hline : lineAfter .right s.inputBuffer s.inputPos =
        (s.inputBuffer, s.inputPos + 1) := by
      rw [lineAfter, if_pos ⟨hpos, hc⟩]
    rw [if_pos hc, if_pos hc, Function.update_eq_self, ← hline]
    exact ⟨t, ht, hleaves⟩
  · rw [if_neg hc, if_neg hc]
    exact run_letter h hplain hpos (not_not.mp hc)

/-- The line after its first `n` characters have been gone past. -/
def walked (m : Modifiers) (b : Buffer) (n : Nat) : Buffer :=
  fun j => if j < n then passedChar m (b j) else b j

theorem walked_zero (m : Modifiers) (b : Buffer) : walked m b 0 = b := by
  funext j
  exact if_neg (Nat.not_lt_zero j)

theorem walked_succ (m : Modifiers) (b : Buffer) (n : Nat) :
    Function.update (walked m b n) n (passedChar m (walked m b n n)) = walked m b (n + 1) := by
  funext j
  have hself : walked m b n n = b n := if_neg (Nat.lt_irrefl n)
  rw [hself]
  by_cases hj : j = n
  · rw [hj, Function.update_self, walked, if_pos (Nat.lt_succ_self n)]
  · rw [Function.update_of_ne hj, walked, walked]
    exact if_congr (by omega) rfl rfl

/-- The walk over a line that agrees with `b` so far. -/
theorem run_walk {b : Buffer} {n : Nat} (h : Valid s) (hplain : s.modifiers.Plain)
    (hpos : s.inputPos = 0) (hn : n ≤ 255) (hb : ∀ j < n, b j = s.inputBuffer j) :
    ∃ t, run (walkCodes b n) s = some t ∧ Leaves s t (walked s.modifiers s.inputBuffer n, n) := by
  induction n with
  | zero => exact ⟨s, rfl, (walked_zero s.modifiers s.inputBuffer).symm, hpos, rfl, rfl⟩
  | succ n ih =>
    obtain ⟨t, ht, hleaves⟩ := ih (Nat.le_of_succ_le hn) fun j hj => hb j (Nat.lt_succ_of_lt hj)
    have hlt : t.inputPos < 255 := by
      rw [hleaves.pos]
      exact hn
    have hhere : t.inputBuffer t.inputPos = b n := by
      rw [hleaves.buffer, hleaves.pos, hb n (Nat.lt_succ_self n)]
      exact if_neg (Nat.lt_irrefl n)
    obtain ⟨u, hu, hleaves'⟩ := run_step (valid_run h ht) (by rwa [hleaves.modifiers]) hlt
    rw [hhere] at hu
    refine ⟨u, ?_, ?_, ?_, hleaves'.modifiers.trans hleaves.modifiers,
      hleaves'.commands.trans hleaves.commands⟩
    · rw [walkCodes_succ, run_append, ht, Option.bind_some, hu]
    · rw [hleaves'.buffer, hleaves.modifiers, hleaves.buffer, hleaves.pos]
      exact walked_succ s.modifiers s.inputBuffer n
    · rw [hleaves'.pos, hleaves.pos]

/-- Right and Enter after the walk: the command ends with the next character, if there is one. -/
theorem run_reveal {b : Buffer} {j : Nat} (h : Valid s) (htext : TextBefore s)
    (hplain : s.modifiers.Plain) (hpos : s.inputPos = 0) (hj : j < 255)
    (hb : ∀ i < j, b i = s.inputBuffer i) :
    passed (revealCodes b j) s = some (commandOf
      ((List.range (if s.inputBuffer j ≠ 0 then j + 1 else j)).map
        (walked s.modifiers s.inputBuffer j))) := by
  obtain ⟨t, ht, hleaves⟩ := run_walk h hplain hpos (Nat.le_of_lt hj) hb
  obtain ⟨u, hu, hright⟩ := run_right (valid_run h ht) (by rwa [hleaves.modifiers])
  have hrun : run (walkCodes b j ++ [0xE0, 0x4D]) s = some u := by
    rw [run_append, ht, Option.bind_some, hu]
  have hvalid := valid_run h hrun
  obtain ⟨rows, count, echo, heq, hcommands, _⟩ := enter_eq hvalid (text_run h htext hrun)
  obtain ⟨hkey, hnext⟩ := keyOf_enter (m := u.modifiers) (by
    rwa [hright.modifiers, hleaves.modifiers])
  have henter := run_key hvalid hkey hnext heq
  have hcodes : revealCodes b j = walkCodes b j ++ [0xE0, 0x4D] ++ [0x1C] := by
    rw [revealCodes, List.append_assoc]
    rfl
  have hhere : walked s.modifiers s.inputBuffer j j = s.inputBuffer j := if_neg (Nat.lt_irrefl j)
  have hfront : beforeCursor u = (List.range (if s.inputBuffer j ≠ 0 then j + 1 else j)).map
      (walked s.modifiers s.inputBuffer j) := by
    rw [beforeCursor, hright.buffer, hright.pos, lineAfter, hleaves.buffer, hleaves.pos]
    simp only [hhere, hj, true_and]
  refine passed_eq (by rw [hcodes, run_append, hrun, Option.bind_some, henter]) ?_
  rw [commands_append, hcommands, hfront, hright.commands, hleaves.commands]

end Reveal

/-- The two commands show whether the next characters are the same. -/
theorem reveal_inj {f g : Buffer} {j : Nat} {x y : BitVec 8} (hf : f j = x) (hg : g j = y)
    (h : (List.range (if x ≠ 0 then j + 1 else j)).map f =
      (List.range (if y ≠ 0 then j + 1 else j)).map g) : x = y := by
  have hlen := congrArg List.length h
  rw [List.length_map, List.length_map, List.length_range, List.length_range] at hlen
  by_cases hx : x ≠ 0
  · by_cases hy : y ≠ 0
    · rw [if_pos hx, if_pos hy] at h
      rw [← hf, ← hg]
      exact List.map_inj_left.mp h j (List.mem_range.mpr (Nat.lt_succ_self j))
    · rw [if_pos hx, if_neg hy] at hlen
      omega
  · by_cases hy : y ≠ 0
    · rw [if_neg hx, if_pos hy] at hlen
      omega
    · rw [not_not.mp hx, not_not.mp hy]

/-- The state just after an Enter, in some run from the boot state. -/
def AfterEnter (s : State) : Prop := ∃ codes c u, run codes State.boot = some u ∧
  keyOf c u.modifiers = some .enter ∧ handleInterrupt c u = some s

/-- No line typed without the history makes two runs pass on different commands. -/
def Independent (s s' : State) : Prop := ∀ codes, OneLine codes s.modifiers →
  ∀ x ∈ passed codes s, ∀ y ∈ passed codes s', x = y

section AfterEnter

variable {s s' : State}

theorem AfterEnter.reached (h : AfterEnter s) : ∃ codes, run codes State.boot = some s := by
  obtain ⟨codes, c, u, hu, _, hs⟩ := h
  exact ⟨codes ++ [c], by rw [run_append, hu, Option.bind_some, run, hs, Option.bind_some, run]⟩

theorem AfterEnter.valid (h : AfterEnter s) : Valid s := by
  obtain ⟨codes, hs⟩ := h.reached
  exact valid_run valid_boot hs

theorem AfterEnter.text (h : AfterEnter s) : TextBefore s := by
  obtain ⟨codes, hs⟩ := h.reached
  exact text_run valid_boot textBefore_boot hs

/-- Enter leaves the cursor in front of the line and no prefix pending. -/
theorem AfterEnter.start (h : AfterEnter s) : s.inputPos = 0 ∧ s.modifiers.Plain := by
  obtain ⟨codes, c, u, hu, hkey, hs⟩ := h
  have hvalid := valid_run valid_boot hu
  obtain ⟨v, hv, rfl⟩ := handleInterrupt_press hvalid hs
  rw [hkey] at hv
  have henter : enter u = some v := hv
  obtain ⟨rows, count, echo, heq, _, _⟩ :=
    enter_eq hvalid (text_run valid_boot textBefore_boot hu)
  constructor
  · rw [Option.some.inj (henter.symm.trans heq)]
    rfl
  · exact next_plain hkey

theorem sameLine_afterEnter (h : AfterEnter s) (h' : AfterEnter s')
    (hmod : s.modifiers = s'.modifiers) (hline : Agree s.inputBuffer s'.inputBuffer) :
    SameLine s s' :=
  ⟨h.valid, h'.valid, h.text, h'.text, hline, h.start.1.trans h'.start.1.symm, hmod⟩

end AfterEnter

/-- Two runs that have just handled an Enter pass on the same command after every line typed
without the history exactly when the same characters are left in their buffers. -/
theorem independent_iff {s s' : State} (h : AfterEnter s) (h' : AfterEnter s')
    (hmod : s.modifiers = s'.modifiers) :
    Independent s s' ↔ Agree s.inputBuffer s'.inputBuffer := by
  obtain ⟨hpos, hplain⟩ := h.start
  obtain ⟨hpos', hplain'⟩ := h'.start
  constructor
  · intro hind
    have hbelow : ∀ j < 255, s.inputBuffer j = s'.inputBuffer j := by
      intro j
      induction j using Nat.strong_induction_on with
      | _ j ih =>
        intro hj
        have hb : ∀ i < j, s.inputBuffer i = s'.inputBuffer i := fun i hi => ih i hi (by omega)
        have hx := run_reveal h.valid h.text hplain hpos hj (b := s.inputBuffer) fun _ _ => rfl
        have hy := run_reveal h'.valid h'.text hplain' hpos' hj hb
        have hsame := hind _ (revealCodes_oneLine hplain s.inputBuffer j) _ hx _ hy
        exact reveal_inj (if_neg (Nat.lt_irrefl j)) (if_neg (Nat.lt_irrefl j)) (commandOf_inj hsame)
    intro j hj
    by_cases hlast : j = 255
    · rw [hlast, h.valid.last, h'.valid.last]
    · exact hbelow j (by omega)
  · intro hline codes hone x hx y hy
    obtain ⟨ks, hkeys, hedits⟩ := hone
    have hlocal : ∀ k ∈ keysOf codes s.modifiers, k.Local := by
      rw [hkeys]
      intro k hk
      obtain hk | hk := List.mem_append.mp hk
      · exact .inl (hedits k hk)
      · exact .inr (List.mem_singleton.mp hk)
    rw [(sameLine_afterEnter h h' hmod hline).passed hlocal] at hx
    exact Option.some.inj (hx.symm.trans hy)

/-- The state after the given scancodes and Enter. -/
def entered (codes : List (BitVec 8)) : State := (run (codes ++ [0x1C]) State.boot).getD State.boot

theorem afterEnter_entered {codes : List (BitVec 8)}
    (hkey : keyOf 0x1C (modifiersAfter codes State.boot.modifiers) = some .enter)
    (h : (run (codes ++ [0x1C]) State.boot).isSome = true) : AfterEnter (entered codes) := by
  obtain ⟨t, ht⟩ := Option.isSome_iff_exists.mp h
  have hentered : entered codes = t := by rw [entered, ht, Option.getD_some]
  rw [run_append, Option.bind_eq_some_iff] at ht
  obtain ⟨u, hu, hstep⟩ := ht
  rw [run, Option.bind_eq_some_iff] at hstep
  obtain ⟨v, hv, hdone⟩ := hstep
  refine ⟨codes, 0x1C, u, hu, ?_, ?_⟩
  · rw [modifiers_run valid_boot hu, hkey]
  · rw [hv, hentered, Option.some.inj hdone]

/-- The letter a entered, and nothing entered. -/
theorem independent_iff_entered : Independent (entered [0x1E]) (entered []) ↔
    Agree (entered [0x1E]).inputBuffer (entered []).inputBuffer :=
  independent_iff (afterEnter_entered (by decide) (by decide))
    (afterEnter_entered (by decide) (by decide)) (by decide)

/-- After the letter a has been entered, End and Enter pass it on once more. -/
theorem leftover_shows : ¬∀ s s', AfterEnter s → AfterEnter s' → s.modifiers = s'.modifiers →
    Independent s s' := by
  intro h
  have hind := h (entered [0x1E]) (entered [])
    (afterEnter_entered (by decide) (by decide)) (afterEnter_entered (by decide) (by decide))
    (by decide) [0xE0, 0x4F, 0x1C] ⟨[.toEnd], by decide, by decide⟩
  exact absurd (hind [[ch 'a']] (by decide) [] (by decide)) (by decide)

end Keyboard
