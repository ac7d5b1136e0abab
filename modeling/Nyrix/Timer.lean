import Nyrix.Irq
import Nyrix.Pit

/-!
# The clock of the scheduler (pit.cpp, idt.cpp)

The output of the timer's channel 0 is line 0 of the interrupt controllers, and the handler of that
line calls `task_switch`. A controller holds one request of a line at a time, so a period that ends
while the interrupt of the one before still waits is lost.
-/

namespace Timer

open PartialRuns
open Irq (Context Enabled calls irqPorts)
open Pit (Programmed period pitInit)
open Pit8254 (Channel)

structure Machine where
  channel : Channel
  system : Pic8259.System
  /-- The periods lost. -/
  lost : Nat

inductive Event where
  | clock
  | request (line : Nat)
  | take (context : Context)
  | write

def Event.isClock : Event → Bool
  | .clock => true
  | _ => false

/-- The number of clocks, and the contexts interrupts are taken in. -/
def clocks (es : List Event) : Nat := es.countP Event.isClock

def takes (es : List Event) : List Context :=
  es.filterMap fun e => match e with
    | .take c => some c
    | _ => none

/-- The controllers, the processor or a handler goes on. -/
def Machine.goOn (e : Pic8259.Event Context) (m : Machine) : Option Machine :=
  (Pic8259.step irqPorts e m.system).map fun s => { m with system := s }

/-- No other device than the timer has line 0. -/
def step : Event → Machine → Option Machine
  | .clock, m => m.channel.clock.bind fun c =>
    if m.channel.rises < c.rises then
      (Pic8259.step irqPorts (.request 0) m.system).map fun s =>
        ⟨c, s, if m.system.pair.waiting 0 then m.lost + 1 else m.lost⟩
    else some { m with channel := c }
  | .request line, m => if line = 0 then none else m.goOn (.request line)
  | .take context, m => m.goOn (.take context)
  | .write, m => m.goOn .write

/-- What comes of the timer and of line 0 in the course of the events. -/
structure Passed (es : List Event) (m t : Machine) : Prop where
  channel : m.channel.clocks (clocks es) = some t.channel
  raised : t.system.raised.count 0 + t.lost + m.channel.rises =
    m.system.raised.count 0 + m.lost + t.channel.rises
  taken : ∃ new, t.system.taken = m.system.taken ++ new ∧ new.length = (takes es).length

section Run

variable {m t u : Machine} {e : Event} {es : List Event} {c d : Channel}

theorem passed_nil (m : Machine) : Passed [] m m := ⟨rfl, rfl, [], (List.append_nil _).symm, rfl⟩

/-- Steps of the controllers without a request of the timer. -/
theorem goOn_passed {e : Pic8259.Event Context} (he : e ≠ .request 0) (h : m.goOn e = some t) :
    t.channel = m.channel ∧ t.lost = m.lost ∧
      t.system.raised.count 0 = m.system.raised.count 0 ∧
      ∃ new, t.system.taken = m.system.taken ++ new ∧ new.length = (Irq.takes [e]).length := by
  obtain ⟨s, hs, rfl⟩ := Option.map_eq_some_iff.mp h
  refine ⟨rfl, rfl, ?_, ?_⟩
  · cases Pic8259.stepped hs with
    | @request line =>
      have hline : line ≠ 0 := fun heq => he (heq ▸ rfl)
      dsimp only
      split_ifs
      · rfl
      · rw [List.count_append, List.count_singleton, if_neg (by simpa using hline), Nat.add_zero]
    | take => rfl
    | write => rfl
  · cases Pic8259.stepped hs with
    | request => exact ⟨[], (List.append_nil _).symm, rfl⟩
    | @take context v => exact ⟨[v], rfl, rfl⟩
    | write => exact ⟨[], (List.append_nil _).symm, rfl⟩

/-- One clock: a period that ends raises line 0, or is lost. -/
theorem clock_passed (h : step .clock m = some t) : ∃ c, m.channel.clock = some c ∧
    t.channel = c ∧ t.system.taken = m.system.taken ∧
    t.system.raised.count 0 + t.lost + m.channel.rises =
      m.system.raised.count 0 + m.lost + c.rises := by
  obtain ⟨c, hc, h⟩ := Option.bind_eq_some_iff.mp h
  have hrises := Pit8254.clock_rises hc
  refine ⟨c, hc, ?_⟩
  by_cases hrise : m.channel.rises < c.rises
  · rw [if_pos hrise] at h
    obtain ⟨s, hs, rfl⟩ := Option.map_eq_some_iff.mp h
    cases Pic8259.stepped hs with
    | request =>
      refine ⟨rfl, rfl, ?_⟩
      dsimp only
      split_ifs
      · omega
      · rw [List.count_append, List.count_singleton_self]
        omega
  · rw [if_neg hrise] at h
    obtain rfl := Option.some.inj h
    refine ⟨rfl, rfl, ?_⟩
    dsimp only
    omega

theorem step_passed (h : step e m = some t) (hrest : Passed es t u) : Passed (e :: es) m u := by
  obtain ⟨hchannel, hraised, new, htaken, hlength⟩ := hrest
  have hgo {e' : Pic8259.Event Context} (he : e' ≠ .request 0) (ht : m.goOn e' = some t)
      (hclock : e.isClock = false) (htakes : takes (e :: es) = Irq.takes [e'] ++ takes es) :
      Passed (e :: es) m u := by
    obtain ⟨hsame, hlost, hcount, first, hfirst, hlen⟩ := goOn_passed he ht
    rw [hsame] at hchannel hraised
    refine ⟨?_, by omega, first ++ new, ?_, ?_⟩
    · rwa [clocks, List.countP_cons_of_neg (by simp [hclock])]
    · rw [htaken, hfirst, List.append_assoc]
    · rw [List.length_append, hlen, hlength, htakes, List.length_append]
  cases e with
  | clock =>
    obtain ⟨c, hc, hsame, hkept, hcount⟩ := clock_passed h
    rw [hsame] at hchannel hraised
    refine ⟨?_, by omega, new, hkept ▸ htaken, hlength⟩
    rw [clocks, List.countP_cons_of_pos rfl, Pit8254.clocks_succ, hc, Option.bind_some]
    exact hchannel
  | request line =>
    rw [step, Option.ite_none_left_eq_some] at h
    exact hgo (fun heq => h.1 (Pic8259.Event.request.inj heq)) h.2 rfl rfl
  | take context => exact hgo (fun heq => by cases heq) h rfl rfl
  | write => exact hgo (fun heq => by cases heq) h rfl rfl

theorem run_passed (h : runAll step es m = some t) : Passed es m t := by
  induction es generalizing m with
  | nil => exact Option.some.inj h ▸ passed_nil m
  | cons e es ih =>
    rw [runAll, Option.bind_eq_some_iff] at h
    obtain ⟨u, hu, hrest⟩ := h
    exact step_passed hu (ih hrest)

/-- The controllers only ever do what they do by themselves. -/
theorem step_invariant (h : Pic8259.Invariant 32 40 m.system) (ht : step e m = some t) :
    Pic8259.Invariant 32 40 t.system := by
  have hpic {e : Pic8259.Event Context} {s : Pic8259.System}
      (hs : Pic8259.step irqPorts e m.system = some s) : Pic8259.Invariant 32 40 s :=
    Pic8259.invariant_step Irq.irqPorts_ends Irq.apart_vectors e h hs
  have hgo {e : Pic8259.Event Context} (ht : m.goOn e = some t) :
      Pic8259.Invariant 32 40 t.system := by
    obtain ⟨s, hs, rfl⟩ := Option.map_eq_some_iff.mp ht
    exact hpic hs
  cases e with
  | clock =>
    obtain ⟨c, -, ht⟩ := Option.bind_eq_some_iff.mp ht
    by_cases hrise : m.channel.rises < c.rises
    · rw [if_pos hrise] at ht
      obtain ⟨s, hs, rfl⟩ := Option.map_eq_some_iff.mp ht
      exact hpic hs
    · rw [if_neg hrise] at ht
      exact Option.some.inj ht ▸ h
  | request line =>
    rw [step, Option.ite_none_left_eq_some] at ht
    exact hgo ht.2
  | take context => exact hgo ht
  | write => exact hgo ht

end Run

/-- Once `pit_init` is through, in every course of clocks, requests, interrupts and handlers:
`task_switch` has been called once for each period that has passed and for the interrupt that
waited before, but for the one that waits now and for the periods lost. -/
theorem ticks_served (freq : BitVec 32) (ws : List (Nat × BitVec 8)) (hws : pitInit freq = some ws)
    (timer : Pit8254.Timer) (es : List Pit8254.Event) (s : Pit8254.System)
    (hs : Programmed ws timer es s) (p : Pic8259.Pair) (hidle : Pic8259.Idle p)
    (v : Pic8259.System) (hv : Enabled p v) (before : List (Pic8259.Event Context))
    (u : Pic8259.System) (hu : runAll (Pic8259.step irqPorts) before (.start v.pair) = some u)
    (later : List Event) (m : Machine) (hm : runAll step later ⟨s.timer 0, u, 0⟩ = some m) :
    (u.pair.waiting 0).toNat + (clocks later - 1) / period freq =
      (calls (takes later) (m.system.taken.drop u.taken.length)).count .taskSwitch +
        (m.system.pair.waiting 0).toNat + m.lost := by
  have hbefore := Irq.run_invariant hidle hv hu
  have hafter : Pic8259.Invariant 32 40 m.system :=
    runAll_invariant (I := fun m => Pic8259.Invariant 32 40 m.system)
      (fun _ _ _ => step_invariant) hbefore hm
  obtain ⟨hchannel, hraised, new, htaken, hlength⟩ := run_passed hm
  have hrises := Pit.programmed_rises hws hs hchannel
  have hzero : (0 : Nat) ∈ Pic8259.order := by decide
  have hcount := hbefore.count 0 hzero
  have hcount' := hafter.count 0 hzero
  have hsmall : ∀ w ∈ new, w < 48 := by
    intro w hw
    obtain ⟨line, hline, rfl⟩ :=
      hafter.taken w (htaken ▸ List.mem_append_right u.taken hw)
    have hlt := (Pic8259.mem_order.mp hline).1
    rw [Irq.vectorOf_line]
    omega
  have hcalls := Irq.calls_count .taskSwitch hlength.symm hsmall
  have hnew : m.system.taken.drop u.taken.length = new := by rw [htaken, List.drop_left]
  have htotal : m.system.taken.count (Pic8259.vectorOf 32 40 0) =
      u.taken.count (Pic8259.vectorOf 32 40 0) + new.count (Pic8259.vectorOf 32 40 0) := by
    rw [htaken, List.count_append]
  have hvector : new.count (Pic8259.vectorOf 32 40 0) =
      new.count (32 + Irq.Call.line .taskSwitch) := rfl
  rw [hnew, hcalls]
  dsimp only at hraised hrises
  omega

/-- Three periods of two clocks: the interrupt of the first is taken, that of the second waits, and
the third is lost. -/
def threePeriods : List Event :=
  [.clock, .clock, .clock, .take ⟨Syscall.sampleEntry, Syscall.userCode⟩, .write, .clock, .clock,
    .clock, .clock]

theorem ticks_served_firmware : ∃ ws s m, pitInit 596590 = some ws ∧
    Programmed ws Pit.firmware [.write, .write] s ∧
    runAll step threePeriods ⟨s.timer 0, .start Irq.initialised.pair, 0⟩ = some m ∧
    m.lost = 1 ∧ (clocks threePeriods - 1) / period 596590 =
      (calls (takes threePeriods) m.system.taken).count .taskSwitch +
        (m.system.pair.waiting 0).toNat + m.lost := by
  have hprogrammed : Programmed [(0x43, 0x36), (0x40, 0x02), (0x40, 0x00)] Pit.firmware
      [.write, .write] _ := ⟨rfl, rfl⟩
  have hidle : Pic8259.Idle Irq.firmware := ⟨rfl, rfl⟩
  refine ⟨_, _, _, rfl, hprogrammed, rfl, rfl, ?_⟩
  have hticks := ticks_served 596590 _ rfl Pit.firmware [.write, .write] _ hprogrammed Irq.firmware
    hidle Irq.initialised Irq.firmware_enabled [] _ rfl threePeriods _ rfl
  exact (Nat.zero_add _).symm.trans hticks

end Timer
