import Nyrix.Base.Pit8254

/-!
# The interval timer (pit.cpp)

`pit_init` has channel 0, whose output is line 0 of the interrupt controllers, go up with a period
of `1193180 / freq` clocks, of which the channel takes the low 16 bits.
-/

namespace Pit

open Pit8254 PartialRuns

/-- The port writes of `pit_init`; none when the division fails. -/
def pitInit (freq : BitVec 32) : Option (List (Nat × BitVec 8)) :=
  if freq = 0 then none
  else
    let divisor := 1193180#32 / freq
    some
      [ (0x43, 0x36)
      , (0x40, (divisor &&& 0xFF).setWidth 8)
      , (0x40, (divisor >>> 8 &&& 0xFF).setWidth 8) ]

/-- The clocks between two interrupts. -/
def period (freq : BitVec 32) : Nat := counted (1193180 / freq.toNat % 65536)

/-- Every write is made, the last of them in the last step. -/
def Programmed (ws : List (Nat × BitVec 8)) (t : Timer) (es : List Event) (s : System) : Prop :=
  runAll step (es ++ [.write]) ⟨t, ws⟩ = some s ∧ s.todo = []

/-- Channel 0 has its mode and waits for its count. -/
def Waits (l : Option (BitVec 8)) (c : Channel) : Prop :=
  c = ⟨.square, .both, l, none, none, true, c.rises⟩

/-- How far the writes are. -/
inductive Stage (l h : BitVec 8) (s : System) : Prop where
  | command (todo : s.todo = [(0x43, 0x36), (0x40, l), (0x40, h)])
  | low (todo : s.todo = [(0x40, l), (0x40, h)]) (channel : Waits none (s.timer 0))
  | high (todo : s.todo = [(0x40, h)]) (channel : Waits (some l) (s.timer 0))
  | done (todo : s.todo = [])

section Writes

variable {freq : BitVec 32} {l h : BitVec 8} {t u : Timer} {s s' : System} {e : Event}
  {es : List Event} {ws : List (Nat × BitVec 8)} {c d : Channel}

theorem outb_command (t : Timer) : t.outb 0x43 0x36 =
    some (Function.update t 0 ((t 0).setMode .square .both)) := rfl

theorem outb_data (b : BitVec 8) (t : Timer) :
    t.outb 0x40 b = some (Function.update t 0 ((t 0).data b)) := rfl

theorem setMode_waits (c : Channel) : Waits none (c.setMode .square .both) := rfl

theorem Waits.data_low (hc : Waits none c) (b : BitVec 8) : Waits (some b) (c.data b) := by
  rw [hc]
  rfl

theorem Waits.data_high (hc : Waits (some l) c) (b : BitVec 8) : c.data b =
    ⟨.square, .both, none, some (counted (l.toNat + 256 * b.toNat)), none, true, c.rises⟩ := by
  rw [hc]
  rfl

/-- A channel without a count does not run. -/
theorem Waits.clock {p : Option (BitVec 8)} (hc : Waits p c) (hd : c.clock = some d) :
    Waits p d := by
  rw [hc] at hd
  rw [← Option.some.inj hd]
  rfl

theorem stage_step (hs : Stage l h s) (he : step e s = some s') : Stage l h s' := by
  cases stepped he with
  | @write w ws t htodo hout =>
    cases hs with
    | command htodo' =>
      obtain ⟨rfl, rfl⟩ := List.cons.inj (htodo.symm.trans htodo')
      rw [← Option.some.inj ((outb_command s.timer).symm.trans hout)]
      exact .low rfl (setMode_waits _)
    | low htodo' hwaits =>
      obtain ⟨rfl, rfl⟩ := List.cons.inj (htodo.symm.trans htodo')
      rw [← Option.some.inj ((outb_data l s.timer).symm.trans hout)]
      exact .high rfl (hwaits.data_low l)
    | high htodo' =>
      obtain ⟨-, rfl⟩ := List.cons.inj (htodo.symm.trans htodo')
      exact .done rfl
    | done htodo' => exact absurd (htodo.symm.trans htodo') (List.cons_ne_nil w ws)
  | @clock i c hclock =>
    have hwaits {p : Option (BitVec 8)} (hp : Waits p (s.timer 0)) :
        Waits p (Function.update s.timer i c 0) := by
      by_cases hi : 0 = i
      · subst hi
        rw [Function.update_self]
        exact hp.clock hclock
      · rwa [Function.update_of_ne hi]
    cases hs with
    | command htodo => exact .command htodo
    | low htodo hp => exact .low htodo (hwaits hp)
    | high htodo hp => exact .high htodo (hwaits hp)
    | done htodo => exact .done htodo

theorem divisor_bytes (d : BitVec 32) : ((d &&& 0xFF).setWidth 8).toNat +
    256 * ((d >>> 8 &&& 0xFF).setWidth 8).toNat = d.toNat % 65536 := by
  have hmask (x : BitVec 32) : ((x &&& 0xFF).setWidth 8).toNat = x.toNat % 256 := by
    have hand : (x &&& 0xFF).toNat = x.toNat % 256 :=
      (BitVec.toNat_and ..).trans (Nat.and_two_pow_sub_one_eq_mod x.toNat 8)
    rw [BitVec.toNat_setWidth, hand]
    omega
  rw [hmask, hmask, BitVec.toNat_ushiftRight, Nat.shiftRight_eq_div_pow]
  omega

/-- After the last write channel 0 is about to take its count over. -/
theorem programmed_channel (hws : pitInit freq = some ws) (hs : Programmed ws t es s) :
    ∃ r, s.timer 0 = ⟨.square, .both, none, some (period freq), none, true, r⟩ := by
  obtain ⟨hrun, hdone⟩ := hs
  rw [pitInit] at hws
  split_ifs at hws
  obtain rfl := Option.some.inj hws
  rw [runAll_append, Option.bind_eq_some_iff] at hrun
  obtain ⟨u, hu, hlast⟩ := hrun
  rw [runAll, Option.bind_eq_some_iff] at hlast
  obtain ⟨v, hv, hend⟩ := hlast
  obtain rfl := Option.some.inj hend
  have hstage := runAll_invariant (I := Stage _ _) (fun _ _ _ => stage_step) (.command rfl) hu
  cases stepped hv with
  | @write w ws t htodo hout =>
    obtain rfl : ws = [] := hdone
    cases hstage with
    | command htodo' => cases htodo.symm.trans htodo'
    | low htodo' => cases htodo.symm.trans htodo'
    | high htodo' hwaits =>
      obtain rfl := List.singleton_inj.mp (htodo.symm.trans htodo')
      have hchannel := hwaits.data_high (((1193180#32 / freq) >>> 8 &&& 0xFF).setWidth 8)
      have hdivisor : (1193180#32 / freq).toNat = 1193180 / freq.toNat := BitVec.toNat_udiv
      rw [divisor_bytes, hdivisor] at hchannel
      rw [← Option.some.inj ((outb_data _ u.timer).symm.trans hout)]
      exact ⟨_, hchannel⟩
    | done htodo' => exact absurd (htodo.symm.trans htodo') (List.cons_ne_nil _ _)

/-- `pit_init` writes to channel 0 only. -/
theorem pitInit_spares (hws : pitInit freq = some ws) {i : Fin 3} (hi : i ≠ 0) :
    ∀ w ∈ ws, Spares i w := by
  have hdata (b : BitVec 8) : Spares i (0x40, b) := by
    intro t u hu
    rw [← Option.some.inj hu]
    exact Function.update_of_ne hi _ _
  have hcommand : Spares i (0x43, 0x36) := by
    intro t u hu
    rw [← Option.some.inj hu]
    exact Function.update_of_ne hi _ _
  rw [pitInit] at hws
  split_ifs at hws
  rw [← Option.some.inj hws, List.forall_mem_cons, List.forall_mem_cons, List.forall_mem_singleton]
  exact ⟨hcommand, hdata _, hdata _⟩

end Writes

section Rate

variable {freq : BitVec 32} {t : Timer} {s s' : System} {es : List Event}
  {ws : List (Nat × BitVec 8)}

theorem period_pos (freq : BitVec 32) : 0 < period freq := by
  rw [period, counted]
  split_ifs <;> omega

/-- The frequencies at which the count is the divisor. -/
theorem period_eq (hlow : 19 ≤ freq.toNat) (hhigh : freq.toNat ≤ 1193180) :
    period freq = 1193180 / freq.toNat := by
  have hpos : 0 < 1193180 / freq.toNat := Nat.div_pos hhigh (by omega)
  have hle : 1193180 / freq.toNat ≤ 1193180 / 19 := Nat.div_le_div_left hlow (by decide)
  rw [period, Nat.mod_eq_of_lt (Nat.lt_of_le_of_lt hle (by decide)), counted,
    if_neg (Nat.ne_of_gt hpos)]

/-- The frequencies at which the count is not one that the channel takes. -/
theorem period_eq_one (hfreq : freq ≠ 0) :
    period freq = 1 ↔ 596590 < freq.toNat ∧ freq.toNat ≤ 1193180 := by
  have hpos : 0 < freq.toNat := Nat.pos_of_ne_zero fun h => hfreq (BitVec.eq_of_toNat_eq h)
  by_cases hlow : 19 ≤ freq.toNat
  · by_cases hhigh : freq.toNat ≤ 1193180
    · rw [period_eq hlow hhigh, Nat.div_eq_iff (by omega)]
      omega
    · have hzero : 1193180 / freq.toNat = 0 := Nat.div_eq_of_lt (by omega)
      rw [period, hzero]
      simp [counted, hhigh]
  · have hall : ∀ f < 19, 0 < f → counted (1193180 / f % 65536) ≠ 1 := by decide
    exact iff_of_false (hall _ (by omega) hpos) (by omega)

/-- What comes of the clocks after the last write. -/
theorem later_channel (hs : Programmed ws t es s) {later : List Event}
    (hrun : runAll step later s = some s') :
    (s.timer 0).clocks (later.count (.clock 0)) = some (s'.timer 0) := by
  refine run_clocks ?_ hrun
  rw [hs.2]
  exact fun w hw => absurd hw List.not_mem_nil

/-- The first clock takes the count over, and each period after it is one interrupt. -/
theorem programmed_clocks (hws : pitInit freq = some ws) (hs : Programmed ws t es s) (n : Nat) :
    (period freq = 1 ∧ (s.timer 0).clocks (n + 1) = none) ∨
      (period freq ≠ 1 ∧ ∃ c, (s.timer 0).clocks (n + 1) = some c ∧
        c.rises = (s.timer 0).rises + n / period freq) := by
  obtain ⟨r, hr⟩ := programmed_channel hws hs
  by_cases hone : period freq = 1
  · exact .inl ⟨hone, clocks_illegal (by rw [hr, hone]) n⟩
  · have hpos := period_pos freq
    obtain ⟨c, hc, -, hrises⟩ := clocks_rises (n := period freq) (by omega)
      (congrArg Channel.count hr) (congrArg Channel.left hr) (congrArg Channel.output hr) n
    exact .inr ⟨hone, c, hc, hrises⟩

theorem programmed_rises (hws : pitInit freq = some ws) (hs : Programmed ws t es s) {n : Nat}
    {c : Channel} (hclocks : (s.timer 0).clocks n = some c) :
    c.rises = (s.timer 0).rises + (n - 1) / period freq := by
  cases n with
  | zero => rw [← Option.some.inj hclocks, Nat.zero_sub, Nat.zero_div, Nat.add_zero]
  | succ n =>
    obtain ⟨-, hnone⟩ | ⟨-, d, hd, hrises⟩ := programmed_clocks hws hs n
    · cases hclocks.symm.trans hnone
    · rw [← Option.some.inj (hd.symm.trans hclocks), hrises, Nat.add_sub_cancel]

theorem later_clock (hws : pitInit freq = some ws) (hs : Programmed ws t es s)
    {later : List Event} (hrun : runAll step later s = some s') :
    (step (.clock 0) s').isSome ↔ period freq ≠ 1 := by
  have hnext : (s.timer 0).clocks (later.count (.clock 0) + 1) = (s'.timer 0).clock := by
    rw [Channel.clocks, later_channel hs hrun, Option.bind_some]
  rw [step, Option.isSome_map, ← hnext]
  obtain ⟨hone, hnone⟩ | ⟨hone, d, hd, -⟩ := programmed_clocks hws hs (later.count (.clock 0))
  · simp [hnone, hone]
  · simp [hd, hone]

/-- The periods in `n` clocks against those of the frequency asked for. -/
theorem rate_bounds {f n : Nat} (hf : 0 < f) (hle : f ≤ 1193180) :
    n * f / 1193180 ≤ n / (1193180 / f) ∧ n / (1193180 / f) * (1193180 - f) ≤ n * f := by
  have hperiod : 0 < 1193180 / f := Nat.div_pos hle hf
  have hshort : 1193180 / f * f ≤ 1193180 := Nat.div_mul_le_self 1193180 f
  have hlong : 1193180 - f ≤ 1193180 / f * f := by
    have hmod := Nat.mod_lt 1193180 hf
    have hsplit := Nat.div_add_mod' 1193180 f
    omega
  constructor
  · have hnext : n < (n / (1193180 / f) + 1) * (1193180 / f) :=
      Nat.lt_mul_of_div_lt (Nat.lt_succ_self _) hperiod
    refine Nat.lt_succ_iff.mp ((Nat.div_lt_iff_lt_mul (by decide)).mpr ?_)
    calc n * f < (n / (1193180 / f) + 1) * (1193180 / f) * f := Nat.mul_lt_mul_of_pos_right hnext hf
      _ = (n / (1193180 / f) + 1) * (1193180 / f * f) := Nat.mul_assoc _ _ _
      _ ≤ (n / (1193180 / f) + 1) * 1193180 := Nat.mul_le_mul_left _ hshort
  · calc n / (1193180 / f) * (1193180 - f)
        ≤ n / (1193180 / f) * (1193180 / f * f) := Nat.mul_le_mul_left _ hlong
      _ = n / (1193180 / f) * (1193180 / f) * f := (Nat.mul_assoc _ _ _).symm
      _ ≤ n * f := Nat.mul_le_mul_right _ (Nat.div_mul_le_self n _)

/-- What the timer does once it is set up. Of the clocks the first takes the count over. -/
structure Ticks (freq : BitVec 32) (s : System) (later : List Event) (s' : System) : Prop where
  interrupts : (s'.timer 0).rises =
    (s.timer 0).rises + (later.count (.clock 0) - 1) / period freq
  goesOn : (step (.clock 0) s').isSome ↔ ¬(596590 < freq.toNat ∧ freq.toNat ≤ 1193180)
  /-- Never too few interrupts for the frequency asked for, and how many too many at most. -/
  rate : 19 ≤ freq.toNat → freq.toNat ≤ 1193180 →
    let clocks := later.count (.clock 0) - 1
    let interrupts := (s'.timer 0).rises - (s.timer 0).rises
    clocks * freq.toNat / 1193180 ≤ interrupts ∧
      interrupts * (1193180 - freq.toNat) ≤ clocks * freq.toNat

/-- Whatever the timer did before, with clocks also between the writes of `pit_init`: from its last
write on the interrupts come at the rate that `freq` asks for, as far as 16 bits hold the divisor,
and the other two channels have seen nothing but their clocks. -/
theorem timer_rate (freq : BitVec 32) (ws : List (Nat × BitVec 8)) (hws : pitInit freq = some ws)
    (t : Timer) (es : List Event) (s : System) (hs : Programmed ws t es s) :
    (∀ later s', runAll step later s = some s' → Ticks freq s later s') ∧
      ∀ i : Fin 3, i ≠ 0 → (t i).clocks (es.count (.clock i)) = some (s.timer i) := by
  have hfreq : freq ≠ 0 := by
    rintro rfl
    cases hws
  constructor
  · intro later s' hrun
    have hrises := programmed_rises hws hs (later_channel hs hrun)
    refine ⟨hrises, ?_, fun hlow hhigh => ?_⟩
    · rw [later_clock hws hs hrun, ne_eq, period_eq_one hfreq]
    · simp only [hrises, Nat.add_sub_cancel_left, period_eq hlow hhigh]
      exact rate_bounds (by omega) hhigh
  · intro i hi
    have hclocks := run_clocks (pitInit_spares hws hi) hs.1
    rwa [List.count_append, List.count_singleton, if_neg (by simp), Nat.add_zero] at hclocks

/-- The timer as the firmware may leave it. -/
def firmware : Timer := fun _ => ⟨.rate, .both, none, some 65536, some 5, true, 0⟩

theorem timer_rate_firmware : ∃ ws s, pitInit 100 = some ws ∧
    Programmed ws firmware [.clock 0, .write, .clock 0, .clock 2, .write] s ∧
      ∀ later s', runAll step later s = some s' → (s'.timer 0).rises =
        (s.timer 0).rises + (later.count (.clock 0) - 1) / 11931 := by
  have hrun : Programmed [(0x43, 0x36), (0x40, 0x9B), (0x40, 0x2E)] firmware
      [.clock 0, .write, .clock 0, .clock 2, .write] _ := ⟨rfl, rfl⟩
  refine ⟨_, _, rfl, hrun, fun later s' hlater => ?_⟩
  exact ((timer_rate 100 _ rfl firmware _ _ hrun).1 later s' hlater).interrupts

end Rate

end Pit
