import Nyrix.KeyboardPress

/-!
# Which keys are held down

The keyboard sends a make code each time a key is pressed or repeats, and a break code when it
is released. The handler keeps one flag for both Shift keys and changes it behind a prefix too,
and it takes each make code of Caps Lock for a press.
-/

namespace Keyboard

/-- A key of the keyboard, with the code it sends. -/
structure PhysKey where
  prefixed : Bool
  code : BitVec 8
  seven : code &&& 0x80 = 0
  notPrefix : code ≠ 0x60
  /-- These codes are sent behind a prefix without a key. -/
  real : prefixed = true → code ≠ 0x2A ∧ code ≠ 0x36
  deriving DecidableEq

def leftShift : PhysKey := ⟨false, 0x2A, rfl, by decide, by decide⟩
def rightShift : PhysKey := ⟨false, 0x36, rfl, by decide, by decide⟩
def capsLock : PhysKey := ⟨false, 0x3A, rfl, by decide, by decide⟩

/-- What happens at the keyboard. Around extended keys it sends codes of a Shift key behind a
prefix, whatever is held. -/
inductive KeyEvent where
  | make (k : PhysKey)
  | release (k : PhysKey)
  | fakeMake (right : Bool)
  | fakeRelease (right : Bool)
  deriving DecidableEq

def fakeCode (right : Bool) : BitVec 8 := if right then 0x36 else 0x2A

/-- The keys held down, and how often Caps Lock has been pressed. -/
structure Desk where
  held : PhysKey → Bool
  capsPresses : Nat

def Desk.start : Desk := ⟨fun _ => false, 0⟩

/-- A make code of a key that is held already is a repetition. -/
def KeyEvent.apply : KeyEvent → Desk → Desk
  | .make k, d =>
    { held := Function.update d.held k true
      capsPresses := if k = capsLock ∧ d.held capsLock = false then d.capsPresses + 1
        else d.capsPresses }
  | .release k, d => { d with held := Function.update d.held k false }
  | .fakeMake _, d => d
  | .fakeRelease _, d => d

def KeyEvent.prefixed : KeyEvent → Bool
  | .make k => k.prefixed
  | .release k => k.prefixed
  | .fakeMake _ => true
  | .fakeRelease _ => true

/-- The last byte sent for an event. -/
def KeyEvent.byte : KeyEvent → BitVec 8
  | .make k => k.code
  | .release k => k.code ||| 0x80
  | .fakeMake right => fakeCode right
  | .fakeRelease right => fakeCode right ||| 0x80

/-- The bytes sent, each with the keys that are held when it has been sent. -/
def trace : List KeyEvent → Desk → List (BitVec 8 × Desk)
  | [], _ => []
  | e :: es, d => (if e.prefixed then [(0xE0, d)] else []) ++
      (e.byte, e.apply d) :: trace es (e.apply d)

def deskAfter (events : List KeyEvent) (d : Desk) : Desk := events.foldl (fun d e => e.apply d) d

/-- The flags that tell which keys are held and whether the last byte was a prefix. -/
def Desk.flags (d : Desk) (pending : Bool) : Modifiers where
  shiftPressed := d.held leftShift || d.held rightShift
  capsLock := d.capsPresses % 2 == 1
  extended := pending

/-- After each byte the flags tell what they should. -/
def Tracks (m : Modifiers) (bytes : List (BitVec 8 × Desk)) : Prop :=
  ∀ done b d, done ++ [(b, d)] <+: bytes →
    modifiersAfter (done.map Prod.fst ++ [b]) m = d.flags (b == 0xE0)

/-- No Shift key is released while the other is held, in fact or in the codes around extended
keys, and Caps Lock does not repeat. -/
def KeyEvent.Fits : KeyEvent → Desk → Prop
  | .make k, d => k = Keyboard.capsLock → d.held Keyboard.capsLock = false
  | .release k, d => (k = leftShift → d.held rightShift = false) ∧
      (k = rightShift → d.held leftShift = false)
  | .fakeMake _, _ => True
  | .fakeRelease _, d => d.held leftShift = false ∧ d.held rightShift = false

section Tracks

variable {m : Modifiers} {d : Desk}

theorem tracks_nil : Tracks m [] := by
  intro done b d hdone
  simp at hdone

theorem tracks_cons {b : BitVec 8} {bytes : List (BitVec 8 × Desk)} :
    Tracks m ((b, d) :: bytes) ↔ m.next b = d.flags (b == 0xE0) ∧ Tracks (m.next b) bytes := by
  constructor
  · intro h
    constructor
    · exact h [] b d (List.cons_prefix_cons.mpr ⟨rfl, List.nil_prefix⟩)
    · intro done b' d' hdone
      exact h ((b, d) :: done) b' d' (List.cons_prefix_cons.mpr ⟨rfl, hdone⟩)
  · rintro ⟨hfirst, hrest⟩ done b' d' hdone
    cases done with
    | nil =>
      obtain ⟨heq, -⟩ := List.cons_prefix_cons.mp hdone
      obtain ⟨rfl, rfl⟩ := Prod.mk.inj heq
      exact hfirst
    | cons x done =>
      obtain ⟨rfl, hdone'⟩ := List.cons_prefix_cons.mp hdone
      exact hrest done b' d' hdone'

/-- The prefix leaves the keys alone. -/
theorem next_prefix : (d.flags false).next 0xE0 = d.flags true := rfl

theorem PhysKey.eq_iff {k k' : PhysKey} : k = k' ↔ k.prefixed = k'.prefixed ∧ k.code = k'.code := by
  cases k
  cases k'
  simp

/-- The break code of a key is the key's code with the top bit set, and no prefix. -/
theorem break_code : ∀ c : BitVec 8, c &&& 0x80 = 0 →
    (c ||| 0x80) &&& 0x80 ≠ 0 ∧ (c ||| 0x80) &&& 0x7F = c ∧ (c ||| 0x80 = 0xE0 → c = 0x60) := by
  decide +kernel

theorem PhysKey.code_ne (k : PhysKey) : k.code ≠ 0xE0 := by
  intro hcode
  have hseven := k.seven
  rw [hcode] at hseven
  exact absurd hseven (by decide)

theorem KeyEvent.byte_ne (e : KeyEvent) : e.byte ≠ 0xE0 := by
  cases e with
  | make k => exact k.code_ne
  | release k => exact fun hbyte => k.notPrefix ((break_code k.code k.seven).2.2 hbyte)
  | fakeMake right => cases right <;> decide
  | fakeRelease right => cases right <;> decide

/-- Without prefix the code tells the key. -/
theorem PhysKey.code_iff {k k' : PhysKey} (hk : k.prefixed = false) (hk' : k'.prefixed = false) :
    k.code = k'.code ↔ k = k' := by
  rw [PhysKey.eq_iff, hk, hk']
  simp

theorem shift_ne : leftShift ≠ rightShift ∧ leftShift ≠ capsLock ∧ rightShift ≠ capsLock := by
  decide

theorem parity_succ (n : Nat) : ((n + 1) % 2 == 1) = !(n % 2 == 1) := by
  cases Nat.mod_two_eq_zero_or_one n with
  | inl h => simp [h, Nat.add_mod]
  | inr h => simp [h, Nat.add_mod]

/-- A make code. -/
theorem make_tracks_iff (k : PhysKey) (d : Desk) :
    (d.flags k.prefixed).next k.code = (KeyEvent.apply (.make k) d).flags false ↔
      KeyEvent.Fits (.make k) d := by
  obtain ⟨hlr, hlc, hrc⟩ := shift_ne
  have hbreak : ¬k.code &&& 0x80 ≠ 0 := not_not.mpr k.seven
  rw [Modifiers.next, if_neg k.code_ne, if_neg hbreak]
  by_cases hpre : k.prefixed = true
  · have hl : leftShift ≠ k := fun h => by simp [← h, leftShift] at hpre
    have hr : rightShift ≠ k := fun h => by simp [← h, rightShift] at hpre
    have hc : k ≠ capsLock := fun h => by simp [h, capsLock] at hpre
    simp [Desk.flags, KeyEvent.apply, KeyEvent.Fits, hpre, hl, hr, hc]
  have hplain : k.prefixed = false := by simpa using hpre
  have hcode : (k.code = 0x2A ↔ k = leftShift) ∧ (k.code = 0x36 ↔ k = rightShift) ∧
      (k.code = 0x3A ↔ k = capsLock) :=
    ⟨@PhysKey.code_iff k leftShift hplain rfl, @PhysKey.code_iff k rightShift hplain rfl,
      @PhysKey.code_iff k capsLock hplain rfl⟩
  simp only [hcode.1, hcode.2.1, hcode.2.2, hplain, Desk.flags, KeyEvent.apply, KeyEvent.Fits,
    Bool.false_eq_true, if_false]
  by_cases hl : k = leftShift
  · simp [hl, hlr, hlr.symm, hlc]
  by_cases hr : k = rightShift
  · simp [hr, hlr, hlr.symm, hrc]
  have hl' : leftShift ≠ k := Ne.symm hl
  have hr' : rightShift ≠ k := Ne.symm hr
  by_cases hc : k = capsLock
  · cases hheld : d.held capsLock with
    | true => simp [hc, hlc, hrc, hlc.symm, hrc.symm]
    | false => simp [hc, hlc, hrc, hlc.symm, hrc.symm, parity_succ]
  · simp [hl, hr, hc, hl', hr']

/-- A break code. -/
theorem release_tracks_iff (k : PhysKey) (d : Desk) :
    (d.flags k.prefixed).next (k.code ||| 0x80) = (KeyEvent.apply (.release k) d).flags false ↔
      KeyEvent.Fits (.release k) d := by
  obtain ⟨hlr, -, -⟩ := shift_ne
  obtain ⟨hbreak, hcode, -⟩ := break_code k.code k.seven
  have hbyte := (KeyEvent.release k).byte_ne
  rw [KeyEvent.byte] at hbyte
  rw [Modifiers.next, if_neg hbyte, if_pos hbreak, hcode]
  have hshift : k.code = 0x2A ∨ k.code = 0x36 ↔ k = leftShift ∨ k = rightShift := by
    by_cases hpre : k.prefixed = true
    · obtain ⟨hl, hr⟩ := k.real hpre
      simp only [PhysKey.eq_iff, hpre, leftShift, rightShift, Bool.true_eq_false, false_and,
        or_self,
        iff_false, not_or]
      exact ⟨hl, hr⟩
    · simp [PhysKey.eq_iff, hpre, leftShift, rightShift]
  simp only [hshift, Desk.flags, KeyEvent.apply, KeyEvent.Fits]
  by_cases hl : k = leftShift
  · simp [hl, hlr, hlr.symm]
  by_cases hr : k = rightShift
  · simp [hr, hlr, hlr.symm]
  have hl' : leftShift ≠ k := Ne.symm hl
  have hr' : rightShift ≠ k := Ne.symm hr
  simp [hl, hr, hl', hr']

/-- The last byte of an event, the prefix read. -/
theorem byte_tracks_iff (e : KeyEvent) (d : Desk) :
    (d.flags e.prefixed).next e.byte = (e.apply d).flags false ↔ e.Fits d := by
  cases e with
  | make k => exact make_tracks_iff k d
  | release k => exact release_tracks_iff k d
  | fakeMake right => cases right <;> simp [KeyEvent.prefixed, KeyEvent.byte, fakeCode,
      Modifiers.next, KeyEvent.apply, Desk.flags, KeyEvent.Fits]
  | fakeRelease right => cases right <;> simp [KeyEvent.prefixed, KeyEvent.byte, fakeCode,
      Modifiers.next, KeyEvent.apply, Desk.flags, KeyEvent.Fits]

theorem event_tracks_iff (e : KeyEvent) (d : Desk) (bytes : List (BitVec 8 × Desk)) :
    Tracks (d.flags false)
      ((if e.prefixed then [(0xE0, d)] else []) ++ (e.byte, e.apply d) :: bytes)
      ↔ e.Fits d ∧ Tracks ((e.apply d).flags false) bytes := by
  have hlast : (e.byte == 0xE0) = false := by simpa using e.byte_ne
  have hbytes : Tracks (d.flags e.prefixed) ((e.byte, e.apply d) :: bytes) ↔
      e.Fits d ∧ Tracks ((e.apply d).flags false) bytes := by
    rw [tracks_cons, hlast, ← byte_tracks_iff]
    constructor
    · rintro ⟨hnext, hrest⟩
      exact ⟨hnext, hnext ▸ hrest⟩
    · rintro ⟨hnext, hrest⟩
      exact ⟨hnext, hnext ▸ hrest⟩
  rw [← hbytes]
  cases e.prefixed with
  | true =>
    rw [if_pos rfl, List.singleton_append, tracks_cons, next_prefix]
    exact and_iff_right rfl
  | false => simp

theorem trace_tracks_iff (events : List KeyEvent) (d : Desk) :
    Tracks (d.flags false) (trace events d) ↔
      ∀ pre e post, events = pre ++ e :: post → e.Fits (deskAfter pre d) := by
  induction events generalizing d with
  | nil =>
    constructor
    · intro _ pre e post heq
      simp at heq
    · intro _
      exact tracks_nil
  | cons e es ih =>
    rw [trace, event_tracks_iff, ih]
    constructor
    · rintro ⟨hfirst, hrest⟩ pre e' post heq
      cases pre with
      | nil =>
        obtain ⟨rfl, -⟩ := List.cons.inj heq
        exact hfirst
      | cons x pre =>
        obtain ⟨rfl, htail⟩ := List.cons.inj heq
        exact hrest pre e' post htail
    · intro h
      constructor
      · exact h [] e es rfl
      · intro pre e' post heq
        exact h (e :: pre) e' post (congrArg (e :: ·) heq)

end Tracks

/-- From boot, with no key held, the flags tell after each byte which keys are held, how often
Caps Lock has been pressed and whether a prefix is pending, exactly when each event fits. -/
theorem flags_track_iff (events : List KeyEvent) :
    (∀ codes s, run codes State.boot = some s →
      s.modifiers = modifiersAfter codes State.boot.modifiers) ∧
    (Tracks State.boot.modifiers (trace events Desk.start) ↔
      ∀ pre e post, events = pre ++ e :: post → e.Fits (deskAfter pre Desk.start)) := by
  constructor
  · intro codes s hrun
    exact modifiers_run valid_boot hrun
  · exact trace_tracks_iff events Desk.start

/-- Both Shift keys are held and the left one is released: the right one is held still. -/
theorem shift_lost : ∃ s, run [0x2A, 0x36, 0xAA] State.boot = some s ∧
    s.shiftPressed = false ∧
    (deskAfter [.make leftShift, .make rightShift, .release leftShift] Desk.start).held
      rightShift = true ∧
    ¬Tracks State.boot.modifiers
      (trace [.make leftShift, .make rightShift, .release leftShift] Desk.start) := by
  refine ⟨_, rfl, rfl, by decide, ?_⟩
  intro h
  have hlast := h [(0x2A, (KeyEvent.make leftShift).apply Desk.start),
    (0x36, (KeyEvent.make rightShift).apply ((KeyEvent.make leftShift).apply Desk.start))]
    0xAA _ List.prefix_rfl
  exact absurd (congrArg Modifiers.shiftPressed hlast) (by decide)

end Keyboard
