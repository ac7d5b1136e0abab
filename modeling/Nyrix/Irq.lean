import Nyrix.Base.PicService
import Nyrix.InterruptFrame

/-!
# Hardware interrupts (idt.cpp)

`IDT::init` sets the two interrupt controllers up with nothing masked. `irq_handler` ends the
interrupt before it calls anything, so whatever it calls may go on to another task.
-/

namespace Irq

open IA32 InterruptFrame Pic8259 PartialRuns
open Syscall (Entry sampleEntry userCode)

/-- The port writes of `IDT::init`. -/
def idtInitPorts : List (Nat × BitVec 8) :=
  [ (0x20, 0x11)
  , (0xA0, 0x11)
  , (0x21, 0x20)
  , (0xA1, 0x28)
  , (0x21, 0x04)
  , (0xA1, 0x02)
  , (0x21, 0x01)
  , (0xA1, 0x01)
  , (0x21, 0x00)
  , (0xA1, 0x00) ]

/-- What `irq_handler` writes to the ports. -/
def irqHandlerPorts (regs : Registers) : List (Nat × BitVec 8) :=
  (if 40#32 ≤ regs.intNo then [(0xA0, 0x20)] else []) ++ [(0x20, 0x20)]

inductive Call where
  | handleInterrupt
  | taskSwitch
  deriving DecidableEq

/-- What `irq_handler` calls after that. -/
def irqHandlerCall (regs : Registers) : Option Call :=
  if regs.intNo = 33#32 then some .handleInterrupt
  else if regs.intNo = 32#32 then some .taskSwitch
  else none

/-- The state that is interrupted. -/
structure Context where
  entry : Entry
  state : IA32.State

/-- What the stub of a vector hands to `irq_handler`. -/
def Context.registers (c : Context) (vector : Nat) : Registers :=
  handlerRegisters (handlerEntry c.entry vector 0 c.state)

def irqPorts (c : Context) (vector : Nat) : List (Nat × BitVec 8) :=
  irqHandlerPorts (c.registers vector)

/-- A system in which `IDT::init` is about to write to the ports, with interrupts off. -/
def atInit (p : Pair) : System := ⟨p, idtInitPorts, [], []⟩

/-- The interrupts on after `IDT::init`: all its writes are made, and none is taken so far. -/
def Enabled (p : Pair) (s : System) : Prop :=
  (∃ es, runAll (step irqPorts) es (atInit p) = some s) ∧ s.todo = [] ∧ s.taken = []

theorem registers_intNo (c : Context) {vector : Nat} (hv : vector < 48) :
    (c.registers vector).intNo = BitVec.ofNat 32 vector :=
  (handlerEntry_describes c.entry 0 c.state hv).intNo

/-- Whatever it interrupts, the handler ends the interrupt of its own line. -/
theorem irqPorts_ends : EndsInterrupts irqPorts 32 40 := by
  constructor
  · intro c l hl
    have hlow : ∀ l < 8, ¬40#32 ≤ BitVec.ofNat 32 (32 + l) := by decide
    rw [irqPorts, irqHandlerPorts, registers_intNo c (by omega), if_neg (hlow l hl)]
    rfl
  · intro c k hk
    have hhigh : ∀ k < 8, 40#32 ≤ BitVec.ofNat 32 (40 + k) := by decide
    rw [irqPorts, irqHandlerPorts, registers_intNo c (by omega), if_pos (hhigh k hk)]
    rfl

theorem vectorOf_line (line : Nat) : vectorOf 32 40 line = 32 + line := by
  rw [vectorOf]
  split_ifs <;> omega

/-- The controllers after the writes of `IDT::init`. -/
theorem outAll_idtInit (p : Pair) : outAll idtInitPorts p = some
    ⟨⟨0, p.master.isr, 0, 0x20, 0x04, .mask⟩, ⟨0, p.slave.isr, 0, 0x28, 0x02, .mask⟩⟩ := rfl

theorem enabled_setup {p : Pair} {s : System} (hidle : Idle p) (h : Enabled p s) :
    Setup 32 40 s.pair ∧ Idle s.pair := by
  obtain ⟨⟨es, hrun⟩, htodo, htaken⟩ := h
  have hfirst : ∀ p q : Pair, p.outb 0x20 0x11 = some q → q.master.irr = 0 := by
    intro p q hq
    exact Option.some.inj hq ▸ rfl
  obtain ⟨hdevice, q, hq, hsame⟩ :=
    settingUp_run (0x20, 0x11) idtInitPorts.tail hfirst hrun htaken htodo
  have hsettings := hsame.trans (congrArg Pair.settings
    (Option.some.inj (hq.symm.trans (outAll_idtInit p))))
  obtain ⟨hmaster, hslave⟩ := Pair.mk.inj hsettings
  refine ⟨⟨?_, ?_, ?_, ?_, ?_, ?_, ?_, ?_, hdevice⟩, ⟨?_, ?_⟩⟩
  · exact congrArg (fun c : Chip => c.base.toNat) hmaster
  · exact congrArg (fun c : Chip => c.base.toNat) hslave
  · exact congrArg Chip.cascade hmaster
  · exact congrArg Chip.cascade hslave
  · exact congrArg Chip.imr hmaster
  · exact congrArg Chip.imr hslave
  · exact congrArg Chip.expect hmaster
  · exact congrArg Chip.expect hslave
  · exact (congrArg Chip.isr hmaster).trans hidle.master
  · exact (congrArg Chip.isr hslave).trans hidle.slave

/-- What holds of the hardware interrupts at every point of a run. -/
structure Served (t : System) : Prop where
  /-- No line is in service but while a handler has still to end its interrupt. -/
  idle : t.todo = [] → Idle t.pair
  once : ∀ line ∈ order,
    t.raised.count line = t.taken.count (32 + line) + (t.pair.waiting line).toNat
  taken : ∀ v ∈ t.taken, ∃ line ∈ order, v = 32 + line

theorem apart_vectors : Apart 32 40 := .inl (Nat.le_refl 40)

section Run

variable {p : Pair} {s t : System} {es : List (Event Context)}

theorem run_invariant (hidle : Idle p) (hs : Enabled p s)
    (ht : runAll (step irqPorts) es (.start s.pair) = some t) : Invariant 32 40 t := by
  obtain ⟨hset, hidle'⟩ := enabled_setup hidle hs
  exact invariant_run irqPorts_ends apart_vectors (invariant_start hset hidle') ht

/-- From controllers with nothing in service, however devices, processor and handlers take turns
once `IDT::init` is through: each request is taken exactly once or still waits, nothing else is
taken, and a handler that has made its writes leaves no line in service. -/
theorem interrupts_served (p : Pair) (hidle : Idle p) :
    ∀ s, Enabled p s → ∀ (es : List (Event Context)) (t : System),
      runAll (step irqPorts) es (.start s.pair) = some t → Served t := by
  intro s hs es t ht
  have hinv := run_invariant hidle hs ht
  refine ⟨hinv.serving.idle_of_done, fun line hline => ?_, fun v hv => ?_⟩
  · rw [hinv.count line hline, vectorOf_line]
  · obtain ⟨line, hline, rfl⟩ := hinv.taken v hv
    exact ⟨line, hline, vectorOf_line line⟩

/-- Controllers as the firmware may leave them, with the keyboard and the clock waiting. -/
def firmware : Pair := ⟨⟨0x41, 0, 0xB8, 0x08, 4, .mask⟩, ⟨0x01, 0, 0x8E, 0x70, 2, .mask⟩⟩

/-- The keyboard interrupts Ring 3 code, and while its handler runs, the clock and the primary
disk ask for service. -/
def busyRun : List (Event Context) :=
  [.request 1, .take ⟨sampleEntry, userCode⟩, .request 8, .request 14, .write,
    .take ⟨sampleEntry, userCode⟩, .write, .write]

/-- The controllers after `IDT::init`, with nothing waiting. -/
def initialised : System := ⟨⟨⟨0, 0, 0, 0x20, 4, .mask⟩, ⟨0, 0, 0, 0x28, 2, .mask⟩⟩, [], [], []⟩

theorem firmware_enabled : Enabled firmware initialised :=
  ⟨⟨List.replicate 10 .write, rfl⟩, rfl, rfl⟩

/-- Line 14 waits at its end. -/
def busyEnd : System :=
  ⟨⟨⟨0, 0, 0, 0x20, 4, .mask⟩, ⟨0x40, 0, 0, 0x28, 2, .mask⟩⟩, [], [1, 8, 14], [33, 40]⟩

theorem firmware_busy : runAll (step irqPorts) busyRun (.start initialised.pair) = some busyEnd :=
  rfl

theorem interrupts_served_firmware : ∃ s, Enabled firmware s ∧ ∃ t,
    runAll (step irqPorts) busyRun (.start s.pair) = some t ∧ t.taken = [33, 40] ∧ Served t :=
  ⟨_, firmware_enabled, busyEnd, firmware_busy, rfl,
    interrupts_served firmware ⟨rfl, rfl⟩ _ firmware_enabled _ busyEnd firmware_busy⟩

/-- The contexts interrupts are taken in. -/
def takes (es : List (Event Context)) : List Context :=
  es.filterMap fun e => match e with
    | .take c => some c
    | _ => none

/-- What the handlers call one after the other. -/
def calls (cs : List Context) (vs : List Nat) : List Call :=
  (cs.zip vs).filterMap fun cv => irqHandlerCall (cv.1.registers cv.2)

def Call.line : Call → Nat
  | .handleInterrupt => 1
  | .taskSwitch => 0

theorem takes_length {s t : System} (h : runAll (step irqPorts) es s = some t) :
    t.taken.length = s.taken.length + (takes es).length := by
  induction es generalizing s with
  | nil => rw [← Option.some.inj h]; rfl
  | cons e es ih =>
    rw [runAll, Option.bind_eq_some_iff] at h
    obtain ⟨u, hu, hrest⟩ := h
    rw [ih hrest]
    cases stepped hu with
    | request => rfl
    | take =>
      rw [List.length_append, List.length_singleton, takes, takes, List.filterMap_cons]
      simp only [List.length_cons]
      omega
    | write => rfl

/-- Which call is made depends on the vector alone. -/
theorem irqHandlerCall_eq (c : Context) (call : Call) {vector : Nat} (hv : vector < 48) :
    irqHandlerCall (c.registers vector) = some call ↔ vector = 32 + call.line := by
  have hall : ∀ v < 48, ∀ call : Call, (if BitVec.ofNat 32 v = 33#32 then some Call.handleInterrupt
      else if BitVec.ofNat 32 v = 32#32 then some .taskSwitch else none) = some call ↔
        v = 32 + call.line := by
    intro v hv call
    cases call <;> revert v <;> decide
  rw [irqHandlerCall, registers_intNo c hv]
  exact hall vector hv call

theorem calls_count (call : Call) {cs : List Context} {vs : List Nat}
    (hlen : cs.length = vs.length) (hvs : ∀ v ∈ vs, v < 48) :
    (calls cs vs).count call = vs.count (32 + call.line) := by
  induction vs generalizing cs with
  | nil => simp [calls]
  | cons v vs ih =>
    cases cs with
    | nil => cases hlen
    | cons c cs =>
      rw [List.forall_mem_cons] at hvs
      have hrest := ih (Nat.succ.inj hlen) hvs.2
      have hcall := irqHandlerCall_eq c call hvs.1
      rw [calls, List.zip_cons_cons, List.filterMap_cons, List.count_cons, ← hrest, ← calls]
      cases hfirst : irqHandlerCall (c.registers v) with
      | none =>
        have hne : v ≠ 32 + call.line := fun heq => by simp [hcall.mpr heq] at hfirst
        simp [hne]
      | some other =>
        rw [hfirst, Option.some.injEq] at hcall
        rw [List.count_cons]
        by_cases heq : other = call
        · simp [heq, hcall.mp heq]
        · simp [heq, mt hcall.mpr heq]

/-- The keyboard handler is called once for each request of the keyboard that does not still wait,
`task_switch` once for each of the timer, and nothing else is called. -/
theorem handlers_called (p : Pair) (hidle : Idle p) :
    ∀ s, Enabled p s → ∀ (es : List (Event Context)) (t : System),
      runAll (step irqPorts) es (.start s.pair) = some t →
        ∀ call : Call, t.raised.count call.line =
          (calls (takes es) t.taken).count call + (t.pair.waiting call.line).toNat := by
  intro s hs es t ht call
  have hinv := run_invariant hidle hs ht
  have hlen : (takes es).length = t.taken.length := by
    rw [takes_length ht]
    exact (Nat.zero_add _).symm
  have hsmall : ∀ v ∈ t.taken, v < 48 := by
    intro v hv
    obtain ⟨line, hline, rfl⟩ := hinv.taken v hv
    have hlt := (mem_order.mp hline).1
    rw [vectorOf_line]
    omega
  have hline : call.line ∈ order := by cases call <;> decide
  rw [hinv.count _ hline, vectorOf_line, calls_count call hlen hsmall]

theorem handlers_called_firmware : ∃ s, Enabled firmware s ∧ ∃ t,
    runAll (step irqPorts) busyRun (.start s.pair) = some t ∧ ∀ call : Call,
      t.raised.count call.line =
        (calls (takes busyRun) t.taken).count call + (t.pair.waiting call.line).toNat :=
  ⟨_, firmware_enabled, busyEnd, firmware_busy,
    handlers_called firmware ⟨rfl, rfl⟩ _ firmware_enabled _ busyEnd firmware_busy⟩

/-- While no new request comes, the vectors taken and those that wait in the order of their
priority stay the same list, each step leaves less to do, and as long as something is left to do
there is a step. -/
theorem interrupts_drain (p : Pair) (hidle : Idle p) :
    ∀ s, Enabled p s → ∀ (es : List (Event Context)) (t : System),
      runAll (step irqPorts) es (.start s.pair) = some t →
        (∀ (es' : List (Event Context)) (u : System), (∀ e ∈ es', e.isRequest = false) →
          runAll (step irqPorts) es' t = some u →
            u.taken ++ (pending u.pair).map (32 + ·) = t.taken ++ (pending t.pair).map (32 + ·) ∧
            es'.length + u.todo.length + 3 * (pending u.pair).length ≤
              t.todo.length + 3 * (pending t.pair).length) ∧
        ∀ c : Context, t.todo ≠ [] ∨ pending t.pair ≠ [] →
          ∃ u, step irqPorts .write t = some u ∨ step irqPorts (.take c) t = some u := by
  intro s hs es t ht
  have hinv := run_invariant hidle hs ht
  refine ⟨fun es' u hes' hu => ?_, fun c hwork => goes_on c hinv hwork⟩
  have hvector : vectorOf 32 40 = (32 + ·) := funext vectorOf_line
  obtain ⟨hvectors, hwork⟩ := drains_run irqPorts_ends apart_vectors hes' hinv hu
  rw [hvector] at hvectors
  exact ⟨hvectors, hwork⟩

/-- The interrupt of line 14 is taken and its end reported. -/
theorem interrupts_drain_firmware : ∃ s, Enabled firmware s ∧ ∃ t u,
    runAll (step irqPorts) busyRun (.start s.pair) = some t ∧ pending t.pair = [14] ∧
      runAll (step irqPorts) [.take ⟨sampleEntry, userCode⟩, .write, .write] t = some u ∧
      pending u.pair = [] ∧ u.todo = [] ∧ u.taken = [33, 40, 46] := by
  obtain ⟨u, hu, hpending, htodo⟩ : ∃ u, runAll (step irqPorts)
      [.take ⟨sampleEntry, userCode⟩, .write, .write] busyEnd = some u ∧ pending u.pair = [] ∧
      u.todo = [] := ⟨_, rfl, by decide, rfl⟩
  have hdrain := (interrupts_drain firmware ⟨rfl, rfl⟩ _ firmware_enabled _ busyEnd
    firmware_busy).1 _ u (by
      intro e he
      simp only [List.mem_cons, List.not_mem_nil, or_false] at he
      obtain rfl | rfl | rfl := he <;> rfl) hu
  have hwaits : pending busyEnd.pair = [14] := by decide
  have hall := hdrain.1
  rw [hpending, hwaits, List.map_nil, List.append_nil] at hall
  exact ⟨_, firmware_enabled, busyEnd, u, firmware_busy, hwaits, hu, hpending, htodo, hall⟩

end Run

end Irq
