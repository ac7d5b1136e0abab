import Nyrix.KeyboardPress

/-!
# The command history

Over every run from the boot state the stored entries are the recent ones of the commands
passed to `process_command`.
-/

namespace Keyboard

open BoundedLoop CharBuffer RecentList

/-- The non-empty commands passed so far. -/
def commandLog (s : State) : List (List (BitVec 8)) :=
  (commands s.out).filter fun text => decide (text ≠ [])

/-- The history as it should be after each scancode. -/
structure HistoryKept (s : State) : Prop where
  count : 0 ≤ s.historyCount ∧ s.historyCount ≤ maxHistory
  index : -1 ≤ s.historyIndex ∧ s.historyIndex < s.historyCount
  stored : ∀ r : Nat, (r : Int) < s.historyCount → ∃ e, 0 < e ∧ e < 256 ∧ NulAt (s.history r) 0 e
  log : entries s = recent maxHistory (commandLog s)

/-- The entries are the recent commands. -/
def Logged (s : State) : Prop := entries s = recent maxHistory (commandLog s)

theorem logged_boot : Logged State.boot := (recent_nil _).symm

theorem enter_logged {s t : State} (h : Valid s) (htext : TextBefore s) (hlog : Logged s)
    (ht : enter s = some t) : Logged t := by
  obtain ⟨rows, count, echo, heq, hcommands, hentries⟩ := enter_eq h htext
  obtain rfl := Option.some.inj (ht.symm.trans heq)
  rw [Logged, entries, hentries, commandLog, commands_append, hcommands, commandOf_beforeCursor,
    List.filter_append]
  by_cases hpos : s.inputPos = 0
  · rw [if_pos hpos, if_pos hpos, List.filter_nil, List.append_nil]
    exact hlog
  · have hnew : [beforeCursor s].filter (fun text => decide (text ≠ [])) = [beforeCursor s] :=
      List.filter_cons_of_pos (decide_eq_true (mt beforeCursor_nil.mp hpos))
    rw [if_neg hpos, if_neg hpos, hnew, hlog]
    exact (recent_concat 9 (commandLog s) (beforeCursor s)).symm

theorem press_logged {k : Key} {s t : State} (hk : ∀ c, k = .insert c → c ≠ 0) (h : Valid s)
    (htext : TextBefore s) (hlog : Logged s) (ht : press k s = some t) : Logged t := by
  by_cases henter : k = .enter
  · subst henter
    exact enter_logged h htext hlog ht
  · have hkept := (press_kept henter hk h ht).1
    rw [Logged, entries, commandLog, hkept.history, hkept.count, hkept.commands]
    exact hlog

theorem handleInterrupt_logged {scancode : BitVec 8} {s t : State} (h : Valid s)
    (htext : TextBefore s) (hlog : Logged s) (ht : handleInterrupt scancode s = some t) :
    Logged t :=
  handleInterrupt_keeps Logged (fun _ _ hu => hu)
    (fun _ _ hk hu => press_logged (keyOf_insert hk) h htext hlog hu) h hlog ht

theorem logged_run {codes : List (BitVec 8)} {s t : State} (h : Valid s) (htext : TextBefore s)
    (hlog : Logged s) (hrun : run codes s = some t) : Logged t :=
  (run_induct (fun s => Valid s ∧ TextBefore s ∧ Logged s)
    (fun _ _ _ ⟨hv, ht, hl⟩ hu => ⟨handleInterrupt_valid hv hu, handleInterrupt_text hv ht hu,
      handleInterrupt_logged hv ht hl hu⟩)
    ⟨h, htext, hlog⟩ hrun).2.2

/-- What is kept of the log is part of it. -/
theorem mem_recent {n : Nat} {x : List (BitVec 8)} {l : List (List (BitVec 8))}
    (h : x ∈ recent n l) : x ∈ l :=
  (List.destutter_sublist _ l).mem (List.mem_of_mem_drop h)

theorem stored_of_logged {s : State} (h : Valid s) (hlog : Logged s) {r : Nat}
    (hr : (r : Int) < s.historyCount) : ∃ e, 0 < e ∧ e < 256 ∧ NulAt (s.history r) 0 e := by
  have hcount := h.count
  obtain ⟨e, he, hnul⟩ := h.rows r (by omega)
  have hmem : string bufferSize (s.history r) ∈ entries s :=
    List.mem_map.mpr ⟨r, List.mem_range.mpr (by omega), rfl⟩
  rw [hlog] at hmem
  have hne := (List.mem_filter.mp (mem_recent hmem)).2
  refine ⟨e, Nat.pos_of_ne_zero ?_, he, hnul⟩
  rintro rfl
  rw [string_eq (n := bufferSize) hnul he] at hne
  exact absurd rfl (of_decide_eq_true hne)

/-- Over every run that stays inside the arrays the history holds, oldest first, the last ten
commands at most, once consecutive equal ones are taken as one. -/
theorem run_historyKept {codes : List (BitVec 8)} {s : State}
    (h : run codes State.boot = some s) : HistoryKept s := by
  have hvalid := valid_run valid_boot h
  have hlog := logged_run valid_boot textBefore_boot logged_boot h
  exact ⟨hvalid.count, hvalid.index, fun r => stored_of_logged hvalid hlog, hlog⟩

/-- The letters a, a, s, d, f, g, h, j, k, l, q and w, each entered at the prompt. -/
def twelveCommands : List (BitVec 8) :=
  [0x1E, 0x1C, 0x1E, 0x1C, 0x1F, 0x1C, 0x20, 0x1C, 0x21, 0x1C, 0x22, 0x1C, 0x23, 0x1C, 0x24, 0x1C,
    0x25, 0x1C, 0x26, 0x1C, 0x10, 0x1C, 0x11, 0x1C]

/-- The second a is not stored, and the eleventh different command pushes the first one out. -/
theorem run_historyKept_entered : ∃ s, run twelveCommands State.boot = some s ∧ HistoryKept s ∧
    (commandLog s).length = 12 ∧
    entries s = [[0x73], [0x64], [0x66], [0x67], [0x68], [0x6A], [0x6B], [0x6C], [0x71], [0x77]] := by
  have hlog : (run twelveCommands State.boot).map commandLog = some
      [[0x61], [0x61], [0x73], [0x64], [0x66], [0x67], [0x68], [0x6A], [0x6B], [0x6C], [0x71],
        [0x77]] := by decide +kernel
  obtain ⟨s, hs, hlogged⟩ := Option.map_eq_some_iff.mp hlog
  have hkept := run_historyKept hs
  refine ⟨s, hs, hkept, by rw [hlogged]; rfl, ?_⟩
  rw [hkept.log, hlogged]
  decide

end Keyboard
