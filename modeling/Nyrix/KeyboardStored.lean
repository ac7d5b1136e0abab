import Nyrix.KeyboardPress

/-!
# The characters in the arrays

The line, the saved line and the history hold NULs and characters that keys inserted, nothing
else. So there is never a line feed or a backspace in them: these two keys do something else.
-/

namespace Keyboard

open BoundedLoop CharBuffer

/-- All characters in the three arrays have a property. -/
structure Stores (P : BitVec 8 → Prop) (s : State) : Prop where
  line : ∀ j < bufferSize, P (s.inputBuffer j)
  saved : ∀ j < bufferSize, P (s.savedInput j)
  rows : ∀ r < maxHistory, ∀ j < bufferSize, P (s.history r j)

section Arrays

variable {P : BitVec 8 → Prop} {src dst b : Buffer} {n i len : Nat} {c : BitVec 8}

theorem update_stores (hb : ∀ j < n, P (b j)) (hc : P c) :
    ∀ j < n, P (Function.update b i c j) := by
  intro j hj
  by_cases hji : j = i
  · rw [hji, Function.update_self]
    exact hc
  · rw [Function.update_of_ne hji]
    exact hb j hj

theorem write_stores (hb : ∀ j < n, P (b j)) (hc : P c) (h : write n b i c = some dst) :
    ∀ j < n, P (dst j) := by
  rw [write] at h
  split_ifs at h
  rw [← Option.some.inj h]
  exact update_stores hb hc

theorem copy_stores (hsrc : ∀ j < n, P (src j)) (hdst : ∀ j < n, P (dst j))
    (h : copy n src len dst = some b) : ∀ j < n, P (b j) := by
  refine forUp?_keeps (fun b => ∀ j < n, P (b j)) (fun i t u ht hu => ?_) hdst h
  rw [Option.bind_eq_some_iff] at hu
  obtain ⟨c, hread, hwrite⟩ := hu
  rw [CharBuffer.read] at hread
  split_ifs at hread with hi
  rw [← Option.some.inj hread] at hwrite
  exact write_stores ht (hsrc i hi) hwrite

theorem closed_stores {lo e : Nat} (hb : ∀ j < n, P (b j)) (he : e < n) :
    ∀ j < n, P (closed b lo e j) := by
  intro j hj
  rw [closed]
  split_ifs with hin
  · exact hb (j + 1) (Nat.lt_of_le_of_lt hin.2 he)
  · exact hb j hj

theorem opened_stores {lo e : Nat} (hb : ∀ j < n, P (b j)) : ∀ j < n, P (opened b lo e j) := by
  intro j hj
  rw [opened]
  split_ifs
  · exact hb (j - 1) (Nat.lt_of_le_of_lt (Nat.sub_le j 1) hj)
  · exact hb j hj

end Arrays

section Keys

variable {P : BitVec 8 → Prop} {s t : State} {cmd : Buffer}

theorem Stores.withLine (h : Stores P s) {line : Buffer × Nat} (echo : List Event)
    (hline : ∀ j < bufferSize, P (line.1 j)) : Stores P (s.withLine line echo) :=
  ⟨hline, h.saved, h.rows⟩

theorem stores_lineAfter {k : Key} (hk : ∀ c, k = .insert c → P c) (h : Valid s)
    (hs : Stores P s) :
    ∀ j < bufferSize, P ((lineAfter k s.inputBuffer s.inputPos).1 j) := by
  have hend : endFrom s.inputBuffer s.inputPos < bufferSize := Nat.lt_succ_of_le h.endFrom_nulAt.1
  cases k with
  | insert c =>
    rw [lineAfter]
    split_ifs
    · exact update_stores (opened_stores hs.line) (hk c rfl)
    · exact update_stores hs.line (hk c rfl)
    · exact hs.line
  | backspace =>
    rw [lineAfter]
    split_ifs
    · exact closed_stores hs.line hend
    · exact hs.line
  | delete => exact closed_stores hs.line hend
  | _ => exact hs.line

theorem redrawInput_stores (hs : Stores P s) (ht : redrawInput s = some t) : Stores P t := by
  rw [redrawInput, Option.map_eq_some_iff] at ht
  obtain ⟨text, _, rfl⟩ := ht
  exact ⟨hs.line, hs.saved, hs.rows⟩

theorem recallCommand_stores (hcmd : ∀ j < bufferSize, P (cmd j)) (hs : Stores P s)
    (ht : recallCommand cmd s = some t) : Stores P t := by
  rw [recallCommand, Option.bind_eq_some_iff] at ht
  obtain ⟨len, _, hcopy⟩ := ht
  rw [Option.map_eq_some_iff] at hcopy
  obtain ⟨b, hb, rfl⟩ := hcopy
  exact ⟨copy_stores hcmd hs.line hb, hs.saved, hs.rows⟩

theorem historyRow_stores {r : Int} (hs : Stores P s) (h : historyRow s r = some cmd) :
    ∀ j < bufferSize, P (cmd j) := by
  rw [historyRow] at h
  split_ifs at h with hr
  rw [← Option.some.inj h]
  exact hs.rows r.toNat (by omega)

theorem saveInput_stores (hnul : P 0) (hs : Stores P s) (ht : saveInput s = some t) :
    Stores P t := by
  rw [saveInput, Option.bind_eq_some_iff] at ht
  obtain ⟨b, hb, hwrite⟩ := ht
  rw [Option.map_eq_some_iff] at hwrite
  obtain ⟨b', hb', rfl⟩ := hwrite
  exact ⟨hs.line, write_stores (copy_stores hs.line hs.saved hb) hnul hb', hs.rows⟩

theorem Stores.moveIndex (hs : Stores P s) (i : Int) : Stores P { s with historyIndex := i } :=
  ⟨hs.line, hs.saved, hs.rows⟩

theorem recallRow_stores {r : Int} (hs : Stores P s)
    (ht : ((historyRow s r).bind fun cmd => recallCommand cmd s) = some t) : Stores P t := by
  obtain ⟨cmd, hcmd, hrecall⟩ := Option.bind_eq_some_iff.mp ht
  exact recallCommand_stores (historyRow_stores hs hcmd) hs hrecall

theorem arrowUp_stores (hnul : P 0) (hs : Stores P s) (ht : arrowUp s = some t) : Stores P t := by
  rw [arrowUp] at ht
  split_ifs at ht with hcount hnone hup
  · obtain ⟨u, hu, hrest⟩ := Option.bind_eq_some_iff.mp ht
    rw [← Option.bind_assoc] at hrest
    obtain ⟨v, hv, hdraw⟩ := Option.bind_eq_some_iff.mp hrest
    exact redrawInput_stores (recallRow_stores (saveInput_stores hnul hs hu) hv) hdraw
  · rw [Option.bind_some, ← Option.bind_assoc] at ht
    obtain ⟨v, hv, hdraw⟩ := Option.bind_eq_some_iff.mp ht
    exact redrawInput_stores (recallRow_stores (hs.moveIndex (s.historyIndex - 1)) hv) hdraw
  · rw [Option.bind_some, ← Option.bind_assoc] at ht
    obtain ⟨v, hv, hdraw⟩ := Option.bind_eq_some_iff.mp ht
    exact redrawInput_stores (recallRow_stores hs hv) hdraw
  · rwa [← Option.some.inj ht]

theorem arrowDown_stores (hs : Stores P s) (ht : arrowDown s = some t) : Stores P t := by
  rw [arrowDown] at ht
  split_ifs at ht
  · obtain ⟨v, hv, hdraw⟩ := Option.bind_eq_some_iff.mp ht
    exact redrawInput_stores (recallRow_stores (hs.moveIndex (s.historyIndex + 1)) hv) hdraw
  · obtain ⟨v, hv, hdraw⟩ := Option.bind_eq_some_iff.mp ht
    exact redrawInput_stores (recallCommand_stores hs.saved (hs.moveIndex (-1)) hv) hdraw
  · rwa [← Option.some.inj ht]

theorem entryRow_stores {line old : Buffer} {e : Nat} (hnul : P 0)
    (hline : ∀ j < bufferSize, P (line j)) (hold : ∀ j < bufferSize, P (old j)) :
    ∀ j < bufferSize, P (entryRow line old e j) := by
  intro j hj
  rw [entryRow]
  split_ifs
  · exact hline j hj
  · exact hnul
  · exact hold j hj

/-- The line put in a row of the history. -/
theorem newRow_stores {rows : Nat → Buffer} {i e : Nat} (hnul : P 0) (hi : i < maxHistory)
    (hline : ∀ j < bufferSize, P (s.inputBuffer j))
    (hrows : ∀ r < maxHistory, ∀ j < bufferSize, P (rows r j)) : ∀ r < maxHistory, ∀ j < bufferSize,
      P (Function.update rows i (entryRow s.inputBuffer (rows i) e) r j) := by
  intro r hr
  by_cases hri : r = i
  · rw [hri, Function.update_self]
    exact entryRow_stores hnul hline (hrows i hi)
  · rw [Function.update_of_ne hri]
    exact hrows r hr

theorem addHistory_stores (hnul : P 0) (h : Valid s) (hs : Stores P s)
    (ht : addHistory s = some t) : Stores P t := by
  have hcount := h.count
  obtain ⟨e, he, hend⟩ := h.nulAt (Nat.zero_le 255)
  obtain hsame | ⟨hlt, hadd⟩ | ⟨-, rows, hshift, hadd⟩ :=
    addHistory_cases hend (Nat.lt_succ_of_le he) hcount h.rows
  · rwa [← Option.some.inj (hsame.symm.trans ht)]
  · rw [← Option.some.inj (hadd.symm.trans ht)]
    have hnew : s.historyCount.toNat < maxHistory := by
      simp only [maxHistory]
      omega
    exact ⟨hs.line, hs.saved, newRow_stores hnul hnew hs.line hs.rows⟩
  · rw [← Option.some.inj (hadd.symm.trans ht)]
    obtain ⟨rows', hshift', hmoved, hrest⟩ := shiftHistory_eq s.history
    obtain rfl : rows = rows' := Option.some.inj (hshift.symm.trans hshift')
    have hrows : ∀ r < maxHistory, ∀ j < bufferSize, P (rows r j) := by
      intro r hr j hj
      by_cases hlast : r < 9
      · rw [hmoved r hlast j hj]
        exact hs.rows (r + 1) (Nat.succ_lt_succ hlast) j hj
      · rw [hrest r (Nat.not_lt.mp hlast)]
        exact hs.rows r hr j hj
    exact ⟨hs.line, hs.saved, newRow_stores hnul (by decide) hs.line hrows⟩

theorem enter_stores (hnul : P 0) (h : Valid s) (hs : Stores P s) (ht : enter s = some t) :
    Stores P t := by
  have hline : ∀ j < bufferSize, P (cutLine s j) := update_stores hs.line hnul
  obtain ⟨u, rfl, rfl | ⟨text, hadd⟩⟩ := enter_cases h ht
  · exact ⟨hline, hs.saved, hs.rows⟩
  · have hu := addHistory_stores hnul ((valid_cutLine h).emit _) ⟨hline, hs.saved, hs.rows⟩ hadd
    exact ⟨hu.line, hu.saved, hu.rows⟩

/-- One key: a NUL or the character it inserts is all it can add. -/
theorem press_stores {k : Key} (hnul : P 0) (hk : ∀ c, k = .insert c → P c) (h : Valid s)
    (hs : Stores P s) (ht : press k s = some t) : Stores P t := by
  by_cases hedit : k.Edits
  · obtain ⟨echo, _, heq⟩ := press_edited hedit h ht
    rw [Option.some.inj (ht.symm.trans heq)]
    exact hs.withLine echo (stores_lineAfter hk h hs)
  · cases k with
    | enter => exact enter_stores hnul h hs ht
    | up => exact arrowUp_stores hnul hs ht
    | down => exact arrowDown_stores hs ht
    | _ => exact absurd trivial hedit

theorem stores_boot (hnul : P 0) : Stores P State.boot :=
  ⟨fun _ _ => hnul, fun _ _ => hnul, fun _ _ _ _ => hnul⟩

/-- Whatever is run, the arrays hold NULs and characters that keys insert. -/
theorem stores_run (hnul : P 0)
    (hkey : ∀ scancode m c, keyOf scancode m = some (.insert c) → P c)
    {codes : List (BitVec 8)} (hrun : run codes State.boot = some s) : Stores P s := by
  refine (run_induct (fun s => Valid s ∧ Stores P s) (fun scancode s t hs ht => ?_)
    ⟨valid_boot, stores_boot hnul⟩ hrun).2
  refine ⟨handleInterrupt_valid hs.1 ht, ?_⟩
  refine handleInterrupt_keeps (Stores P) (fun u _ hu => ⟨hu.line, hu.saved, hu.rows⟩)
    (fun k u hk hu => ?_) hs.1 hs.2 ht
  refine press_stores hnul (fun c hc => ?_) hs.1 hs.2 hu
  rw [hc] at hk
  exact hkey scancode s.modifiers c hk

end Keys

/-- Enter and Backspace insert no character of theirs. -/
theorem keyOf_plain {scancode : BitVec 8} {m : Modifiers} {c : BitVec 8}
    (h : keyOf scancode m = some (.insert c)) : c ≠ 0x0A ∧ c ≠ 0x08 := by
  have hmake := keyOf_makes h
  rw [makeKey] at hmake
  dsimp only at hmake
  split_ifs at hmake with hmod hnone hlf hback
  · cases hmake
  · cases hmake
  · obtain rfl := Key.insert.inj (Option.some.inj hmake)
    exact ⟨hlf, hback⟩

/-- The text in front of the cursor holds no line feed and no backspace. -/
theorem beforeCursor_plain {codes : List (BitVec 8)} {s : State}
    (hrun : run codes State.boot = some s) : ∀ c ∈ beforeCursor s, c ≠ 0x0A ∧ c ≠ 0x08 := by
  have hstores : Stores (fun c => c ≠ 0x0A ∧ c ≠ 0x08) s :=
    stores_run (by decide) (fun _ _ _ h => keyOf_plain h) hrun
  have hvalid := valid_run valid_boot hrun
  intro c hc
  obtain ⟨j, hj, rfl⟩ := List.mem_map.mp hc
  exact hstores.line j (Nat.lt_succ_of_le ((List.mem_range.mp hj).le.trans hvalid.pos))

end Keyboard
