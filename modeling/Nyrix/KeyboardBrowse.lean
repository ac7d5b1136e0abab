import Nyrix.KeyboardPress

/-!
# Up and Down through the history

An entry is copied over the line without its NUL, so the line shows it only where the line
was terminated at that place before. Going back down restores the line under edit only when
no longer entry has been passed.
-/

namespace Keyboard

open BoundedLoop CharBuffer RecentList

/-- The line is not a recalled one, and the cursor stands at its end. -/
structure UnderEdit (s : State) : Prop where
  text : TextBefore s
  nul : s.inputBuffer s.inputPos = 0
  index : s.historyIndex = -1

/-- The `k`-th most recent entry, the oldest when there are not that many. -/
def recentEntry (s : State) (k : Nat) : List (BitVec 8) :=
  (entries s).reverse.getD (min k (entries s).length - 1) []

/-- The line holds the text and the cursor stands at its end. -/
def Displays (t : State) (text : List (BitVec 8)) : Prop :=
  string bufferSize t.inputBuffer = text ∧ t.inputPos = text.length

/-- Up `k` times shows the `k`-th most recent entry, and Down as often the line again. -/
def Navigates (ups downs : List (BitVec 8)) (s : State) (k : Nat) : Prop :=
  ∃ t u, run ups s = some t ∧ Displays t (recentEntry s k) ∧
    run downs t = some u ∧ Displays u (string bufferSize s.inputBuffer)

/-- The entry is as long as the line, and no more recent one is longer. -/
def EntryFits (s : State) (k : Nat) : Prop :=
  (recentEntry s k).length = s.inputPos ∧
    ∀ i, 0 < i → i ≤ k → (recentEntry s i).length ≤ s.inputPos

/-- What Up shows from place `i` on, place 0 being the line. -/
def placeText (s : State) (i : Nat) : List (BitVec 8) :=
  if i = 0 then beforeCursor s else recentEntry s i

def placeIndex (s : State) (i : Nat) : Int :=
  if i = 0 then -1 else s.historyCount - min i s.historyCount.toNat

section Place

variable {s : State}

theorem recentEntry_eq (hcount : 0 < s.historyCount) {k : Nat} (hk : 0 < k) :
    recentEntry s k = string bufferSize (s.history (placeIndex s k).toNat) := by
  have hlen := entriesOf_length s.history s.historyCount
  rw [recentEntry, entries, hlen, List.getD_eq_getElem?_getD, List.getElem?_reverse (by omega),
    entriesOf, List.getElem?_map, List.length_map, List.length_range,
    List.getElem?_range (by omega), Option.map_some, Option.getD_some, placeIndex,
    if_neg (Nat.ne_of_gt hk)]
  congr 2
  omega

theorem placeText_pos (hcount : 0 < s.historyCount) {i : Nat} (hi : 0 < i) :
    placeText s i = string bufferSize (s.history (placeIndex s i).toNat) := by
  rw [placeText, if_neg (Nat.ne_of_gt hi), recentEntry_eq hcount hi]

/-- Beyond the oldest entry the place does not change. -/
theorem placeIndex_min (hcount : 0 < s.historyCount) (i : Nat) :
    placeIndex s (min i s.historyCount.toNat) = placeIndex s i := by
  rw [placeIndex, placeIndex]
  split_ifs
  all_goals omega

theorem placeText_min (hcount : 0 < s.historyCount) (i : Nat) :
    placeText s (min i s.historyCount.toNat) = placeText s i := by
  by_cases hi : i = 0
  · rw [hi, Nat.zero_min]
  · rw [placeText_pos hcount (by omega), placeText_pos hcount (Nat.pos_of_ne_zero hi),
      placeIndex_min hcount]

end Place

/-- A stored text has been copied over the line. -/
structure Took (stored : List (BitVec 8)) (t u : State) : Prop where
  valid : Valid u
  rows : u.history = t.history
  count : u.historyCount = t.historyCount
  index : u.historyIndex = t.historyIndex
  saved : u.savedInput = t.savedInput
  text : beforeCursor u = stored
  front : TextBefore u
  zero : ∀ j, u.inputBuffer j = 0 ↔ t.inputBuffer j = 0 ∧ stored.length ≤ j

theorem recallCommand_took {t : State} {cmd : Buffer} (h : Valid t)
    (hcmd : ∃ e < 256, NulAt cmd 0 e) : ∃ u, (recallCommand cmd t).bind redrawInput = some u ∧
      Took (string bufferSize cmd) t u := by
  obtain ⟨e, he, hnul⟩ := hcmd
  have hvalid := h.recalled cmd (Nat.le_of_lt_succ he)
  have hlen : (string bufferSize cmd).length = e := string_length (n := bufferSize) hnul he
  have hrun : (recallCommand cmd t).bind redrawInput = some (emit (.redraw ((List.range e).map
      (recalled cmd e t).inputBuffer)) (recalled cmd e t)) := by
    rw [recallCommand_eq hnul he, Option.bind_some]
    exact redrawInput_eq (s := recalled cmd e t) (Nat.le_of_lt_succ he)
  refine ⟨_, hrun, hvalid.emit _, rfl, rfl, rfl, rfl, ?_, ?_, ?_⟩
  · rw [string_eq (n := bufferSize) hnul he]
    exact List.map_congr_left fun j hj => if_pos (List.mem_range.mp hj)
  · intro j hj
    have hcopied : (recalled cmd e t).inputBuffer j = cmd j := if_pos hj
    exact fun hzero => hnul.text j (Nat.zero_le j) hj (hcopied.symm.trans hzero)
  · intro j
    rw [hlen]
    by_cases hj : j < e
    · have hcopied : (recalled cmd e t).inputBuffer j = cmd j := if_pos hj
      exact ⟨fun hzero => absurd (hcopied.symm.trans hzero) (hnul.text j (Nat.zero_le j) hj),
        fun hzero => absurd hzero.2 (Nat.not_le.mpr hj)⟩
    · have hleft : (recalled cmd e t).inputBuffer j = t.inputBuffer j := if_neg hj
      exact ⟨fun hzero => ⟨hleft.symm.trans hzero, Nat.le_of_not_lt hj⟩,
        fun hzero => hleft.trans hzero.1⟩

section Arrow

variable {t : State}

theorem Valid.browsed (h : Valid t) {saved : Buffer} (hsaved : ∃ e < 256, NulAt saved 0 e)
    {index : Int} (h0 : -1 ≤ index) (hlt : index < t.historyCount) :
    Valid (t.browsed saved index) := ⟨h.pos, h.last, hsaved, h.rows, h.count, h0, hlt⟩

/-- A row of the history copied over the line. -/
theorem historyRow_took (h : Valid t) {saved : Buffer} (hsaved : ∃ e < 256, NulAt saved 0 e)
    {index : Int} (h0 : 0 ≤ index) (hlt : index < t.historyCount) :
    ∃ u, ((historyRow (t.browsed saved index) index).bind fun cmd =>
        (recallCommand cmd (t.browsed saved index)).bind redrawInput) = some u ∧
      Took (string bufferSize (t.history index.toNat)) (t.browsed saved index) u := by
  have hcount := h.count
  rw [historyRow_eq h0 (by omega), Option.bind_some]
  exact recallCommand_took (h.browsed hsaved (by omega) hlt) (h.rows index.toNat (by omega))

/-- Up from the line under edit keeps the line and shows the newest entry. -/
theorem arrowUp_first (h : Valid t) (hcount : 0 < t.historyCount) (hindex : t.historyIndex = -1) :
    ∃ u, arrowUp t = some u ∧
      Took (string bufferSize (t.history (t.historyCount - 1).toNat))
        (t.browsed (savedLine t) (t.historyCount - 1)) u := by
  have hpos := h.pos
  obtain ⟨e, he, hnul⟩ := exists_nulAt (b := savedLine t) (Nat.zero_le t.inputPos)
    (Function.update_self _ _ _)
  rw [arrowUp, if_pos hcount, if_pos hindex, saveInput_eq hpos, Option.bind_some]
  exact historyRow_took h ⟨e, by omega, hnul⟩ (by omega) (by omega)

/-- Up from an entry shows the one before it, or the same when it is the oldest. -/
theorem arrowUp_next (h : Valid t) (hcount : 0 < t.historyCount) (hindex : 0 ≤ t.historyIndex) :
    ∃ u, arrowUp t = some u ∧
      Took (string bufferSize (t.history (t.historyIndex - 1).toNat))
        (t.browsed t.savedInput (max 0 (t.historyIndex - 1))) u := by
  have hlt := h.index.2
  have hne : ¬t.historyIndex = -1 := by omega
  rw [arrowUp, if_pos hcount, if_neg hne]
  by_cases hup : t.historyIndex > 0
  · have hmax : max 0 (t.historyIndex - 1) = t.historyIndex - 1 := by omega
    rw [if_pos hup, Option.bind_some, hmax]
    exact historyRow_took h h.saved (by omega) (by omega)
  · have hzero : t.historyIndex = 0 := by omega
    have hmax : max 0 (t.historyIndex - 1) = t.historyIndex := by omega
    have hrow : (t.historyIndex - 1).toNat = t.historyIndex.toNat := by omega
    rw [if_neg hup, Option.bind_some, hmax, hrow]
    exact historyRow_took h h.saved hindex hlt

/-- Down from an entry shows the one after it. -/
theorem arrowDown_next (h : Valid t) (hindex : 0 ≤ t.historyIndex)
    (hlt : t.historyIndex < t.historyCount - 1) : ∃ u, arrowDown t = some u ∧
      Took (string bufferSize (t.history (t.historyIndex + 1).toNat))
        (t.browsed t.savedInput (t.historyIndex + 1)) u := by
  have hne : t.historyIndex ≠ -1 := by omega
  rw [arrowDown, if_pos hne, if_pos hlt, Option.bind_assoc]
  exact historyRow_took h h.saved (by omega) (by omega)

/-- Down from the newest entry shows the line kept. -/
theorem arrowDown_line (h : Valid t) (hindex : 0 ≤ t.historyIndex)
    (hlast : ¬t.historyIndex < t.historyCount - 1) : ∃ u, arrowDown t = some u ∧
      Took (string bufferSize t.savedInput) (t.browsed t.savedInput (-1)) u := by
  have hne : t.historyIndex ≠ -1 := by omega
  have hcount := h.count
  rw [arrowDown, if_pos hne, if_neg hlast]
  exact recallCommand_took (h.browsed h.saved (Int.le_refl _) (by omega)) h.saved

/-- The line kept by the first Up is what stood in front of the cursor. -/
theorem string_savedLine (h : Valid t) (htext : TextBefore t) :
    string bufferSize (savedLine t) = beforeCursor t := by
  have hnul : NulAt (savedLine t) 0 t.inputPos := by
    refine ⟨Nat.zero_le _, Function.update_self _ _ _, ?_⟩
    intro j _ hj
    rw [savedLine, Function.update_of_ne (Nat.ne_of_lt hj), if_pos hj]
    exact htext j hj
  rw [string_eq (n := bufferSize) hnul (Nat.lt_succ_of_le h.pos)]
  refine List.map_congr_left fun j hj => ?_
  have hlt := List.mem_range.mp hj
  rw [savedLine, Function.update_of_ne (Nat.ne_of_lt hlt), if_pos hlt]

end Arrow

/-- The state at place `i` after the places up to `far` have been shown: a NUL of the line is
still there when none of these texts has covered it. -/
structure Browsing (s : State) (far i : Nat) (t : State) : Prop where
  valid : Valid t
  rows : t.history = s.history
  count : t.historyCount = s.historyCount
  index : t.historyIndex = placeIndex s i
  saved : 0 < i → string bufferSize t.savedInput = beforeCursor s
  text : beforeCursor t = placeText s i
  front : TextBefore t
  zero : ∀ j, t.inputBuffer j = 0 ↔
    s.inputBuffer j = 0 ∧ ∀ m ≤ far, (placeText s m).length ≤ j

section Browse

variable {s t : State} {far i : Nat}

theorem browsing_start (h : Valid s) (hedit : UnderEdit s) : Browsing s 0 0 s := by
  refine ⟨h, rfl, rfl, hedit.index, fun h0 => absurd h0 (Nat.lt_irrefl 0), rfl, hedit.text, ?_⟩
  intro j
  refine ⟨fun hj => ⟨hj, fun m hm => ?_⟩, fun hj => hj.1⟩
  obtain rfl := Nat.le_zero.mp hm
  have hlen : (placeText s 0).length = s.inputPos := by
    rw [placeText, if_pos rfl, beforeCursor, List.length_map, List.length_range]
  rw [hlen]
  exact Nat.le_of_not_lt fun hlt => hedit.text j hlt hj

/-- The text of a place next to the ones shown, copied over the line. -/
theorem Browsing.took {i' : Nat} {saved : Buffer} {u : State} (h : Browsing s far i t)
    (hi : i' ≤ far + 1) (hsaved : 0 < i' → string bufferSize saved = beforeCursor s)
    (hu : Took (placeText s i') (t.browsed saved (placeIndex s i')) u) :
    Browsing s (max far i') i' u := by
  refine ⟨hu.valid, hu.rows.trans h.rows, hu.count.trans h.count, hu.index, ?_, hu.text, hu.front,
    ?_⟩
  · intro h0
    rw [hu.saved]
    exact hsaved h0
  · intro j
    have hline : (t.browsed saved (placeIndex s i')).inputBuffer j = t.inputBuffer j := rfl
    rw [hu.zero, hline, h.zero, and_assoc]
    refine and_congr_right fun _ => ⟨fun hlen m hm => ?_, fun hlen =>
      ⟨fun m hm => hlen m (Nat.le_trans hm (Nat.le_max_left _ _)), hlen i' (Nat.le_max_right _ _)⟩⟩
    rcases Nat.lt_or_ge far m with hlt | hge
    · have hm' : m = i' := by omega
      rw [hm']
      exact hlen.2
    · exact hlen.1 m hge

theorem Browsing.up (h : Browsing s i i t) (hcount : 0 < s.historyCount) :
    ∃ u, arrowUp t = some u ∧ Browsing s (i + 1) (i + 1) u := by
  have hcount' : 0 < t.historyCount := h.count ▸ hcount
  have hmax : max i (i + 1) = i + 1 := by omega
  have hrow := placeText_pos hcount (Nat.succ_pos i)
  by_cases hi : i = 0
  · subst hi
    obtain ⟨u, hu, htook⟩ := arrowUp_first h.valid hcount' h.index
    have hindex : t.historyCount - 1 = placeIndex s (0 + 1) := by
      rw [h.count, placeIndex, if_neg (by decide)]
      omega
    rw [hindex, h.rows, ← hrow] at htook
    have hnext := h.took (Nat.le_refl 1) (fun _ => (string_savedLine h.valid h.front).trans h.text)
      htook
    exact ⟨u, hu, hnext⟩
  · have hindex := h.index
    rw [placeIndex, if_neg hi] at hindex
    obtain ⟨u, hu, htook⟩ := arrowUp_next h.valid hcount' (by omega)
    have hnext : max 0 (t.historyIndex - 1) = placeIndex s (i + 1) := by
      rw [hindex, placeIndex, if_neg (Nat.succ_ne_zero i)]
      omega
    have hnat : (t.historyIndex - 1).toNat = (placeIndex s (i + 1)).toNat := by omega
    rw [hnext, h.rows, hnat, ← hrow] at htook
    have hnext := h.took (Nat.le_refl _) (fun _ => h.saved (Nat.pos_of_ne_zero hi)) htook
    rw [hmax] at hnext
    exact ⟨u, hu, hnext⟩

theorem Browsing.down (h : Browsing s far i t) (hcount : 0 < s.historyCount) (hfar : i ≤ far)
    (hi : i ≤ s.historyCount.toNat) : ∃ u, arrowDown t = some u ∧ Browsing s far (i - 1) u := by
  have hindex := h.index
  cases i with
  | zero =>
    have hline : ¬t.historyIndex ≠ -1 := not_not.mpr hindex
    exact ⟨t, if_neg hline, h⟩
  | succ i =>
    rw [placeIndex, if_neg (Nat.succ_ne_zero i)] at hindex
    have hmax : max far i = far := by omega
    rw [Nat.add_sub_cancel]
    by_cases hlast : i = 0
    · subst hlast
      obtain ⟨u, hu, htook⟩ := arrowDown_line h.valid (by omega) (by rw [hindex, h.count]; omega)
      rw [h.saved (Nat.succ_pos 0)] at htook
      have hback := h.took (Nat.zero_le _) (fun h0 => absurd h0 (Nat.lt_irrefl 0)) htook
      rw [hmax] at hback
      exact ⟨u, hu, hback⟩
    · have hpos := Nat.pos_of_ne_zero hlast
      obtain ⟨u, hu, htook⟩ := arrowDown_next h.valid (by omega) (by rw [hindex, h.count]; omega)
      have hnext : t.historyIndex + 1 = placeIndex s i := by
        rw [hindex, placeIndex, if_neg hlast]
        omega
      rw [hnext, h.rows, ← placeText_pos hcount hpos] at htook
      have hback := h.took (by omega) (fun _ => h.saved (Nat.succ_pos i)) htook
      rw [hmax] at hback
      exact ⟨u, hu, hback⟩

theorem Browsing.saturate (h : Browsing s far i t) (hcount : 0 < s.historyCount) :
    Browsing s far (min i s.historyCount.toNat) t :=
  ⟨h.valid, h.rows, h.count, h.index.trans (placeIndex_min hcount i).symm,
    fun h0 => h.saved (by omega), h.text.trans (placeText_min hcount i).symm, h.front, h.zero⟩

theorem Browsing.flags (h : Browsing s far i t) (m : Modifiers) :
    Browsing s far i (t.withModifiers m) :=
  ⟨h.valid.flags _ _ _, h.rows, h.count, h.index, h.saved, h.text, h.front, h.zero⟩

theorem Browsing.pos (h : Browsing s far i t) : t.inputPos = (placeText s i).length := by
  rw [← h.text, beforeCursor, List.length_map, List.length_range]

/-- The text of the place is displayed when a NUL of the line follows it and no longer text
has been shown. -/
theorem Browsing.displays_iff (h : Browsing s far i t) : Displays t (placeText s i) ↔
    s.inputBuffer (placeText s i).length = 0 ∧
      ∀ m ≤ far, (placeText s m).length ≤ (placeText s i).length := by
  obtain ⟨e, he, hnul⟩ := h.valid.nulAt (Nat.zero_le 255)
  have hiff : string bufferSize t.inputBuffer = beforeCursor t ↔ t.inputBuffer t.inputPos = 0 :=
    string_front_iff (n := bufferSize) hnul (Nat.lt_succ_of_le he) h.front
  rw [← h.zero, ← h.pos, ← hiff, h.text, Displays, ← h.pos]
  exact and_iff_left rfl

end Browse

/-- One key pressed over and over, with other scancodes in between that complete no key. -/
theorem run_presses {k : Key} (P : Nat → State → Prop) (hvalid : ∀ i t, P i t → Valid t)
    (hflags : ∀ i t m, P i t → P i (State.withModifiers t m))
    (hpress : ∀ i t, P i t → ∃ u, press k t = some u ∧ P (i + 1) u) {codes : List (BitVec 8)}
    {n i : Nat} {t : State} (h : P i t)
    (hkeys : keysOf codes t.modifiers = List.replicate n k) :
    ∃ u, run codes t = some u ∧ P (i + n) u := by
  induction codes generalizing n i t with
  | nil =>
    have hn : n = 0 := by
      rw [keysOf] at hkeys
      rw [← List.length_replicate (n := n) (a := k), ← hkeys, List.length_nil]
    rw [hn]
    exact ⟨t, rfl, h⟩
  | cons c codes ih =>
    rw [keysOf] at hkeys
    rw [run, handleInterrupt_eq c (hvalid i t h)]
    cases hk : keyOf c t.modifiers with
    | none =>
      rw [hk] at hkeys
      exact ih (hflags i t _ h) hkeys
    | some k' =>
      rw [hk, Option.toList_some, List.singleton_append] at hkeys
      cases n with
      | zero => cases hkeys
      | succ n =>
        rw [List.replicate_succ, List.cons.injEq] at hkeys
        obtain ⟨rfl, hrest⟩ := hkeys
        obtain ⟨u, hu, hP⟩ := hpress i t h
        have hkey : pressKey (some k') t = some u := hu
        rw [hkey, Option.map_some, Option.bind_some, Nat.add_comm n, ← Nat.add_assoc]
        exact ih (hflags (i + 1) u _ hP) hrest

section Navigate

variable {s : State} {ups downs : List (BitVec 8)} {k : Nat}

/-- Up pressed `k` times. -/
theorem run_ups (h : Valid s) (hedit : UnderEdit s) (hcount : 0 < s.historyCount)
    (hups : keysOf ups s.modifiers = List.replicate k .up) :
    ∃ t, run ups s = some t ∧ Browsing s k k t := by
  have hrun := run_presses (k := .up) (fun i t => Browsing s i i t) (fun _ _ hb => hb.valid)
    (fun _ _ m hb => hb.flags m) (fun _ _ hb => hb.up hcount) (browsing_start h hedit) hups
  rwa [Nat.zero_add] at hrun

/-- Down pressed `k` times after that. -/
theorem run_downs {t : State} (h : Browsing s k k t) (hcount : 0 < s.historyCount)
    (hdowns : keysOf downs t.modifiers = List.replicate k .down) :
    ∃ u, run downs t = some u ∧ Browsing s k 0 u := by
  obtain ⟨u, hu, hback⟩ := run_presses (k := .down) (i := 0)
    (fun i t => Browsing s k (min k s.historyCount.toNat - i) t) (fun _ _ hb => hb.valid)
    (fun _ _ m hb => hb.flags m)
    (fun i t hb => by
      rw [← Nat.sub_sub]
      exact hb.down hcount (by omega) (by omega))
    (h.saturate hcount) hdowns
  have hend : min k s.historyCount.toNat - (0 + k) = 0 := by omega
  rw [hend] at hback
  exact ⟨u, hu, hback⟩

/-- Up and Down navigate the history exactly when the entry is as long as the line under edit
and no more recent entry is longer. -/
theorem navigates_iff (h : Valid s) (hedit : UnderEdit s) (hcount : 0 < s.historyCount)
    (hk : 0 < k) (hups : keysOf ups s.modifiers = List.replicate k .up)
    (hdowns : keysOf downs (modifiersAfter ups s.modifiers) = List.replicate k .down) :
    Navigates ups downs s k ↔ EntryFits s k := by
  obtain ⟨t, ht, hup⟩ := run_ups h hedit hcount hups
  rw [← modifiers_run h ht] at hdowns
  obtain ⟨u, hu, hdown⟩ := run_downs hup hcount hdowns
  have hplace : ∀ {i}, 0 < i → placeText s i = recentEntry s i :=
    fun hi => if_neg (Nat.ne_of_gt hi)
  obtain ⟨e, he, hnul⟩ := h.nulAt (Nat.zero_le 255)
  have hline : string bufferSize s.inputBuffer = placeText s 0 :=
    (string_front_iff (n := bufferSize) hnul (Nat.lt_succ_of_le he) hedit.text).mpr hedit.nul
  have hlen : (placeText s 0).length = s.inputPos := (browsing_start h hedit).pos.symm
  have hnav : Navigates ups downs s k ↔
      Displays t (placeText s k) ∧ Displays u (placeText s 0) := by
    rw [hplace hk, ← hline]
    constructor
    · rintro ⟨t', u', ht', hshow, hu', hback⟩
      obtain rfl := Option.some.inj (ht.symm.trans ht')
      obtain rfl := Option.some.inj (hu.symm.trans hu')
      exact ⟨hshow, hback⟩
    · rintro ⟨hshow, hback⟩
      exact ⟨t, u, ht, hshow, hu, hback⟩
  rw [hnav, hup.displays_iff, hdown.displays_iff, hlen, EntryFits, ← hplace hk]
  constructor
  · rintro ⟨⟨_, hlong⟩, _, hfit⟩
    have hge := hlong 0 (Nat.zero_le k)
    rw [hlen] at hge
    refine ⟨Nat.le_antisymm (hfit k (Nat.le_refl k)) hge, fun i hi hik => ?_⟩
    rw [← hplace hi]
    exact hfit i hik
  · rintro ⟨heq, hfit⟩
    have hall : ∀ m ≤ k, (placeText s m).length ≤ s.inputPos := by
      intro m hm
      by_cases hm0 : m = 0
      · rw [hm0, hlen]
      · rw [hplace (Nat.pos_of_ne_zero hm0)]
        exact hfit m (Nat.pos_of_ne_zero hm0) hm
    rw [heq]
    exact ⟨⟨hedit.nul, hall⟩, hedit.nul, hall⟩

end Navigate

instance (s : State) : Decidable (UnderEdit s) :=
  decidable_of_iff ((∀ j < s.inputPos, s.inputBuffer j ≠ 0) ∧ s.inputBuffer s.inputPos = 0 ∧
      s.historyIndex = -1)
    ⟨fun h => ⟨h.1, h.2.1, h.2.2⟩, fun h => ⟨h.text, h.nul, h.index⟩⟩

/-- The letter a entered, and End: the line under edit is the a left there. -/
theorem navigates_iff_typed : ∃ s, run [0x1E, 0x1C, 0xE0, 0x4F] State.boot = some s ∧
    (Navigates [0xE0, 0x48] [0xE0, 0x50] s 1 ↔ EntryFits s 1) := by
  obtain ⟨s, hs, hstart⟩ := Option.any_eq_true _ _ |>.mp
    (by decide : (run [0x1E, 0x1C, 0xE0, 0x4F] State.boot).any (fun s => decide (UnderEdit s ∧
      0 < s.historyCount ∧ s.modifiers = State.boot.modifiers)))
  obtain ⟨hedit, hcount, hmod⟩ := of_decide_eq_true hstart
  exact ⟨s, hs, navigates_iff (valid_run valid_boot hs) hedit hcount (by decide)
    (by rw [hmod]; decide) (by rw [hmod]; decide)⟩

/-- The letter b typed behind that a: Up copies the entry a over the a, and the b stays. -/
theorem entry_leavesTail : ¬∀ (ups downs : List (BitVec 8)) (s : State) (k : Nat), Valid s →
    UnderEdit s → 0 < s.historyCount → 0 < k →
    keysOf ups s.modifiers = List.replicate k .up →
    keysOf downs (modifiersAfter ups s.modifiers) = List.replicate k .down →
    Navigates ups downs s k := by
  intro hall
  obtain ⟨s, hs, hstart⟩ := Option.any_eq_true _ _ |>.mp
    (by decide : (run [0x1E, 0x1C, 0xE0, 0x4F, 0x30] State.boot).any (fun s => decide (UnderEdit s ∧
      0 < s.historyCount ∧ s.modifiers = State.boot.modifiers ∧
      ((run [0xE0, 0x48] s).all fun t => decide (string bufferSize t.inputBuffer ≠
        recentEntry s 1)) = true)))
  obtain ⟨hedit, hcount, hmod, htail⟩ := of_decide_eq_true hstart
  obtain ⟨t, _, ht, hshow, _⟩ := hall [0xE0, 0x48] [0xE0, 0x50] s 1 (valid_run valid_boot hs) hedit
    hcount (by decide) (by rw [hmod]; decide) (by rw [hmod]; decide)
  rw [ht] at htail
  exact absurd hshow.1 (of_decide_eq_true htail)

end Keyboard
