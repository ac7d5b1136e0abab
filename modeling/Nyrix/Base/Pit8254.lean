import Mathlib.Logic.Function.Basic
import Nyrix.Base.PartialRuns

/-!
# The 8254 interval timer

The two periodic modes of a channel whose gate is held high: the rate generator, whose output is
low for the last clock of each period, and the square wave, whose output is low for half of it. A
count written while the channel runs is taken over when the output changes next. The other modes,
decimal counts and reading are left out, and a command that asks for one of them fails, as does a
clock with the count 1, which neither mode takes.
-/

namespace Pit8254

open PartialRuns

/-! ## One channel -/

inductive Mode where
  | rate
  | square
  deriving DecidableEq

/-- Which bytes of a count are written. -/
inductive Access where
  | low
  | high
  | both
  deriving DecidableEq

structure Channel where
  mode : Mode
  access : Access
  /-- A low byte whose high byte is still to come. -/
  partly : Option (BitVec 8)
  /-- The count written last since the mode was set. -/
  count : Option Nat
  /-- The clocks until the output changes; none before a count is taken over. -/
  left : Option Nat
  output : Bool
  /-- How often the output went up. -/
  rises : Nat
  deriving DecidableEq

/-- The count 0 stands for 2 to the 16. -/
def counted (n : Nat) : Nat := if n = 0 then 65536 else n

/-- How long the output is low in each period, and how long it is high. -/
def Mode.low (n : Nat) : Mode → Nat
  | .rate => 1
  | .square => n / 2

def Mode.high (n : Nat) (m : Mode) : Nat := n - m.low n

/-- Setting the mode stops the channel with its output high. -/
def Channel.setMode (m : Mode) (a : Access) (c : Channel) : Channel :=
  ⟨m, a, none, none, none, true, if c.output then c.rises else c.rises + 1⟩

/-- A write to the command port that selects the channel. -/
def Channel.command (b : BitVec 8) (c : Channel) : Option Channel :=
  -- the count is latched to be read
  if b &&& 0x30 = 0 then some c
  else if b &&& 0x05 = 0x04 then
    some (c.setMode (if b &&& 0x02 = 0 then .rate else .square)
      (if b &&& 0x30 = 0x10 then .low else if b &&& 0x30 = 0x20 then .high else .both))
  else none

/-- A write to the port of the channel. -/
def Channel.data (b : BitVec 8) (c : Channel) : Channel :=
  match c.access, c.partly with
  | .low, _ => { c with count := some (counted b.toNat) }
  | .high, _ => { c with count := some (counted (256 * b.toNat)) }
  | .both, none => { c with partly := some b }
  | .both, some l => { c with partly := none, count := some (counted (l.toNat + 256 * b.toNat)) }

/-- One clock. -/
def Channel.clock (c : Channel) : Option Channel :=
  match c.count with
  | none => some c
  | some n =>
    if n = 1 then none
    else match c.left with
      | none => some { c with left := some (c.mode.high n) }
      | some (k + 2) => some { c with left := some (k + 1) }
      | some _ =>
        if c.output then some { c with output := false, left := some (c.mode.low n) }
        else some { c with output := true, left := some (c.mode.high n), rises := c.rises + 1 }

def Channel.clocks : Nat → Channel → Option Channel
  | 0, c => some c
  | n + 1, c => (c.clocks n).bind Channel.clock

/-! ## The periods of a channel -/

/-- The channel runs with the period `n`, and the `k`-th clock of a period has just passed. -/
structure Phase (n k : Nat) (c : Channel) : Prop where
  count : c.count = some n
  output : c.output = decide (k < c.mode.high n)
  left : c.left = some (if k < c.mode.high n then c.mode.high n - k else n - k)

section Phase

variable {n k : Nat} {c d : Channel}

theorem low_pos (m : Mode) (hn : 2 ≤ n) : 0 < m.low n ∧ m.low n < n := by
  cases m <;> simp only [Mode.low] <;> omega

theorem phase_change {l : Nat} {o : Bool} (hcount : c.count = some n)
    (ho : o = decide (k < c.mode.high n))
    (hl : l = if k < c.mode.high n then c.mode.high n - k else n - k) (r : Nat) :
    Phase n k { c with left := some l, output := o, rises := r } := ⟨hcount, ho, congrArg some hl⟩

theorem phase_first (hn : 2 ≤ n) (hcount : c.count = some n) (hleft : c.left = none)
    (houtput : c.output = true) : ∃ d, c.clock = some d ∧ Phase n 0 d ∧ d.rises = c.rises := by
  have hhigh : 0 < c.mode.high n := Nat.sub_pos_of_lt (low_pos c.mode hn).2
  have hne : n ≠ 1 := by omega
  refine ⟨{ c with left := some (c.mode.high n) }, ?_, ?_, rfl⟩
  · simp [Channel.clock, hcount, hleft, hne]
  · exact phase_change hcount (houtput.trans (decide_eq_true hhigh).symm) (if_pos hhigh).symm _

/-- One clock is one step in the period, and the last one is an edge. -/
theorem phase_step (hn : 2 ≤ n) (hk : k < n) (h : Phase n k c) : ∃ d, c.clock = some d ∧
    Phase n ((k + 1) % n) d ∧ d.rises = c.rises + if k + 1 = n then 1 else 0 := by
  obtain ⟨hcount, houtput, hleft⟩ := h
  obtain ⟨hlow, hlt⟩ := low_pos c.mode hn
  have hhigh : c.mode.high n = n - c.mode.low n := rfl
  have hne : n ≠ 1 := by omega
  by_cases hup : k < c.mode.high n
  · have hmod : (k + 1) % n = k + 1 := Nat.mod_eq_of_lt (by omega)
    have hmid : k + 1 ≠ n := by omega
    rw [if_pos hup] at hleft
    rw [decide_eq_true hup] at houtput
    rw [hmod, if_neg hmid]
    by_cases hlast : k + 1 = c.mode.high n
    · -- the output goes down
      have hone : c.mode.high n - k = 1 := by omega
      have hdown : ¬k + 1 < c.mode.high n := by omega
      refine ⟨{ c with output := false, left := some (c.mode.low n) }, ?_, ?_, rfl⟩
      · simp [Channel.clock, hcount, hleft, hne, hone, houtput]
      · refine phase_change hcount (decide_eq_false hdown).symm ?_ _
        rw [if_neg hdown]
        omega
    · have htwo : c.mode.high n - k = c.mode.high n - k - 2 + 2 := by omega
      have hstill : k + 1 < c.mode.high n := by omega
      rw [htwo] at hleft
      refine ⟨{ c with left := some (c.mode.high n - k - 2 + 1) }, ?_, ?_, rfl⟩
      · simp only [Channel.clock, hcount, hleft, if_neg hne]
      · refine phase_change hcount (houtput.trans (decide_eq_true hstill).symm) ?_ _
        rw [if_pos hstill]
        omega
  · rw [if_neg hup] at hleft
    rw [decide_eq_false hup] at houtput
    by_cases hlast : k + 1 = n
    · -- the output goes up, and the next period begins
      have hone : n - k = 1 := by omega
      have hbegin : 0 < c.mode.high n := by omega
      rw [hlast, Nat.mod_self, if_pos rfl]
      refine ⟨{ c with output := true, left := some (c.mode.high n), rises := c.rises + 1 }, ?_,
        ?_, rfl⟩
      · simp [Channel.clock, hcount, hleft, hne, hone, houtput]
      · exact phase_change hcount (decide_eq_true hbegin).symm (if_pos hbegin).symm _
    · have hmod : (k + 1) % n = k + 1 := Nat.mod_eq_of_lt (by omega)
      have htwo : n - k = n - k - 2 + 2 := by omega
      have hstill : ¬k + 1 < c.mode.high n := by omega
      rw [htwo] at hleft
      rw [hmod, if_neg hlast]
      refine ⟨{ c with left := some (n - k - 2 + 1) }, ?_, ?_, rfl⟩
      · simp only [Channel.clock, hcount, hleft, if_neg hne]
      · refine phase_change hcount (houtput.trans (decide_eq_false hstill).symm) ?_ _
        rw [if_neg hstill]
        omega

/-- From the clock that takes a count over, the output goes up once in each period. -/
theorem clocks_rises (hn : 2 ≤ n) (hcount : c.count = some n) (hleft : c.left = none)
    (houtput : c.output = true) (m : Nat) :
    ∃ d, c.clocks (m + 1) = some d ∧ Phase n (m % n) d ∧ d.rises = c.rises + m / n := by
  induction m with
  | zero =>
    obtain ⟨d, hd, hphase, hrises⟩ := phase_first hn hcount hleft houtput
    exact ⟨d, hd, by rwa [Nat.zero_mod], by rwa [Nat.zero_div]⟩
  | succ m ih =>
    obtain ⟨d, hd, hphase, hrises⟩ := ih
    obtain ⟨e, he, hnext, hrises'⟩ := phase_step hn (Nat.mod_lt m (by omega)) hphase
    refine ⟨e, by rw [Channel.clocks, hd, Option.bind_some, he], ?_, ?_⟩
    · rwa [Nat.mod_add_mod] at hnext
    · rw [hrises', hrises, Nat.succ_div, Nat.add_assoc]
      have hiff : m % n + 1 = n ↔ n ∣ m + 1 := by
        rw [Nat.dvd_iff_mod_eq_zero, Nat.add_mod]
        have hlt := Nat.mod_lt m (show 0 < n by omega)
        rw [Nat.mod_eq_of_lt (show 1 < n by omega)]
        constructor
        · intro heq
          rw [heq, Nat.mod_self]
        · intro heq
          by_contra hne
          rw [Nat.mod_eq_of_lt (by omega)] at heq
          omega
      simp only [hiff]

theorem clock_rises (h : c.clock = some d) : d.rises = c.rises ∨ d.rises = c.rises + 1 := by
  rw [Channel.clock] at h
  split at h
  · exact .inl (Option.some.inj h ▸ rfl)
  · split at h
    · cases h
    · split at h
      · exact .inl (Option.some.inj h ▸ rfl)
      · exact .inl (Option.some.inj h ▸ rfl)
      · split at h
        · exact .inl (Option.some.inj h ▸ rfl)
        · exact .inr (Option.some.inj h ▸ rfl)

/-- With the count 1 the first clock fails. -/
theorem clocks_illegal (hcount : c.count = some 1) (m : Nat) : c.clocks (m + 1) = none := by
  induction m with
  | zero => simp [Channel.clocks, Channel.clock, hcount]
  | succ m ih => rw [Channel.clocks, ih, Option.bind_none]

end Phase

/-! ## The three channels -/

abbrev Timer := Fin 3 → Channel

/-- A write to a port; a command for the channel 3 only has counts read. -/
def Timer.outb (port : Nat) (b : BitVec 8) (t : Timer) : Option Timer :=
  if port = 0x43 then
    if h : b.toNat / 64 < 3 then
      ((t ⟨b.toNat / 64, h⟩).command b).map fun c => Function.update t ⟨b.toNat / 64, h⟩ c
    else some t
  else if h : 0x40 ≤ port ∧ port < 0x43 then
    some (Function.update t ⟨port - 0x40, by omega⟩ ((t ⟨port - 0x40, by omega⟩).data b))
  else some t

/-! ## Code that writes while the channels run -/

structure System where
  timer : Timer
  /-- What the running code has still to write. -/
  todo : List (Nat × BitVec 8)

inductive Event where
  | write
  | clock (i : Fin 3)
  deriving DecidableEq

def step : Event → System → Option System
  | .write, s =>
    match s.todo with
    | [] => none
    | w :: ws => (s.timer.outb w.1 w.2).map fun t => ⟨t, ws⟩
  | .clock i, s => (s.timer i).clock.map fun c => { s with timer := Function.update s.timer i c }

/-- The write leaves the channel alone. -/
def Spares (i : Fin 3) (w : Nat × BitVec 8) : Prop :=
  ∀ t u : Timer, t.outb w.1 w.2 = some u → u i = t i

section Run

variable {i : Fin 3} {s t : System} {e : Event} {es : List Event}

/-- What a step does. -/
inductive Stepped (s : System) : Event → System → Prop where
  | write {w : Nat × BitVec 8} {ws : List (Nat × BitVec 8)} {t : Timer} (todo : s.todo = w :: ws)
      (outb : s.timer.outb w.1 w.2 = some t) : Stepped s .write ⟨t, ws⟩
  | clock {i : Fin 3} {c : Channel} (clock : (s.timer i).clock = some c) :
      Stepped s (.clock i) { s with timer := Function.update s.timer i c }

theorem stepped (h : step e s = some t) : Stepped s e t := by
  cases e with
  | write =>
    rw [step] at h
    split at h
    · cases h
    next w ws htodo =>
      obtain ⟨u, hu, rfl⟩ := Option.map_eq_some_iff.mp h
      exact .write htodo hu
  | clock i =>
    obtain ⟨c, hc, rfl⟩ := Option.map_eq_some_iff.mp h
    exact .clock hc

theorem clocks_succ (n : Nat) (c : Channel) : c.clocks (n + 1) = c.clock.bind (·.clocks n) := by
  induction n with
  | zero => exact (Option.bind_some ..).trans (Option.bind_fun_some _).symm
  | succ n ih =>
    rw [Channel.clocks, ih, Option.bind_assoc]
    rfl

/-- A channel that is not written to sees its clocks only. -/
theorem run_clocks (hspares : ∀ w ∈ s.todo, Spares i w) (h : runAll step es s = some t) :
    (s.timer i).clocks (es.count (.clock i)) = some (t.timer i) := by
  induction es generalizing s with
  | nil => rw [← Option.some.inj h]; rfl
  | cons e es ih =>
    rw [runAll, Option.bind_eq_some_iff] at h
    obtain ⟨u, hu, hrest⟩ := h
    cases stepped hu with
    | @write w ws v htodo hout =>
      rw [htodo, List.forall_mem_cons] at hspares
      rw [List.count_cons_of_ne (by simp), ← hspares.1 _ _ hout]
      exact ih hspares.2 hrest
    | @clock j c hclock =>
      have htail : (Function.update s.timer j c i).clocks (es.count (.clock i)) =
          some (t.timer i) := ih (s := ⟨Function.update s.timer j c, s.todo⟩) hspares hrest
      by_cases hj : j = i
      · subst hj
        rw [Function.update_self] at htail
        rw [List.count_cons_self, clocks_succ, hclock, Option.bind_some, htail]
      · rw [Function.update_of_ne (Ne.symm hj)] at htail
        rw [List.count_cons_of_ne fun heq => hj (Event.clock.inj heq), htail]

end Run

end Pit8254
