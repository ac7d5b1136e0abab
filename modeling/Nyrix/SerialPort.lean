import Mathlib.Algebra.GroupWithZero.Nat
import Nyrix.Base.Uart
import Nyrix.TerminalSerial

/-!
# Threads that write to the serial port (kernel.cpp)

`serial_putchar` waits for an empty register and then writes. Between any two of its accesses
other code that writes to the port may come in: the handler of a key that is pressed, that of an
exception, or the other thread. Each of these is a thread here. Ports other than those of the
transmitter are left out, and so is the setup of its speed, which the kernel leaves to the
firmware.
-/

namespace SerialPort

open PartialRuns Uart
open Terminal (serialPutchar_sent wire)

/-- Where a thread is in `serial_putchar(c)`. -/
inductive Position where
  | outside
  | testReturn (c : BitVec 8)
  | writeReturn (c : BitVec 8)
  | testChar (c : BitVec 8)
  | writeChar (c : BitVec 8)
  deriving DecidableEq

structure Thread where
  position : Position
  /-- The characters it has still to call `serial_putchar` with. -/
  text : List (BitVec 8)
  deriving DecidableEq

/-- The value of port 0x3FD: bit 5 tells whether the register is empty. -/
def lineStatus (empty : Bool) (others : BitVec 8) : BitVec 8 :=
  if empty then others ||| 0x20 else others &&& ~~~0x20

def Thread.call : Thread → Option Thread
  | ⟨.outside, c :: cs⟩ => some ⟨if c = 0x0A then .testReturn c else .testChar c, cs⟩
  | _ => none

/-- `while ((inb(0x3FD) & 0x20) == 0);` -/
def Thread.readStatus (v : BitVec 8) : Thread → Option Thread
  | ⟨.testReturn c, cs⟩ => some ⟨if v &&& 0x20 = 0 then .testReturn c else .writeReturn c, cs⟩
  | ⟨.testChar c, cs⟩ => some ⟨if v &&& 0x20 = 0 then .testChar c else .writeChar c, cs⟩
  | _ => none

/-- `outb(0x3F8, '\r')` and `outb(0x3F8, c)` -/
def Thread.writeData : Thread → Option (BitVec 8 × Thread)
  | ⟨.writeReturn c, cs⟩ => some (0x0D, ⟨.testChar c, cs⟩)
  | ⟨.writeChar c, cs⟩ => some (c, ⟨.outside, cs⟩)
  | _ => none

variable {ι : Type}

structure Machine (ι : Type) extends Line ι (BitVec 8) where
  threads : ι → Thread

inductive Event (ι : Type) where
  | call
  | readStatus (others : BitVec 8)
  | writeData
  | switch (j : ι)
  | load
  | finish

def Event.isSwitch : Event ι → Bool
  | .switch _ => true
  | _ => false

def Machine.start (first : ι) (texts : ι → List (BitVec 8)) : Machine ι :=
  ⟨.start first, fun i => ⟨.outside, texts i⟩⟩

/-- The thread is in front of a write. -/
def Position.tested : Position → Bool
  | .writeReturn _ => true
  | .writeChar _ => true
  | _ => false

section Step

variable [DecidableEq ι]

def Machine.setThread (t : Thread) (m : Machine ι) : Machine ι :=
  { m with threads := Function.update m.threads m.running t }

def step : Event ι → Machine ι → Option (Machine ι)
  | .call, m => (m.threads m.running).call.map fun t => m.setThread t
  | .readStatus others, m =>
    ((m.threads m.running).readStatus (lineStatus m.transmitter.empty others)).map fun t =>
      m.setThread t
  | .writeData, m => (m.threads m.running).writeData.map fun w =>
    { m.setThread w.2 with toLine := m.toLine.write w.1 }
  | .switch j, m =>
    if j ≠ m.running then
      some { m with toLine := m.toLine.switch (m.threads m.running).position.tested j }
    else none
  | .load, m => m.transmitter.load.map fun t => { m with transmitter := t }
  | .finish, m => m.transmitter.finish.map fun t => { m with transmitter := t }

end Step

/-! ## What a thread has still to write -/

def Position.bytes : Position → List (BitVec 8)
  | .outside => []
  | .testReturn c => [0x0D, c]
  | .writeReturn c => [0x0D, c]
  | .testChar c => [c]
  | .writeChar c => [c]

def Thread.sender (t : Thread) : Sender (BitVec 8) :=
  ⟨t.position.bytes ++ t.text.flatMap wire, t.position.tested⟩

def Machine.view (m : Machine ι) : System ι (BitVec 8) := ⟨m.toLine, fun i => (m.threads i).sender⟩

section View

variable [DecidableEq ι] {m m' : Machine ι} {t : Thread} {e : Event ι} {others : BitVec 8}

theorem lineStatus_bit (empty : Bool) (others : BitVec 8) :
    lineStatus empty others &&& 0x20 = 0 ↔ empty = false := by
  have hall : ∀ v : BitVec 8, v &&& ~~~0x20 &&& 0x20 = 0 ∧ (v ||| 0x20) &&& 0x20 ≠ 0 := by decide
  cases empty with
  | false => exact iff_of_true (hall others).1 rfl
  | true => exact iff_of_false (hall others).2 (by decide)

theorem view_setThread (t : Thread) (m : Machine ι) : (m.setThread t).view =
    { m.view with senders := Function.update m.view.senders m.running t.sender } := by
  have hsenders : (fun i => (Function.update m.threads m.running t i).sender) =
      Function.update m.view.senders m.running t.sender := by
    funext i
    by_cases hi : i = m.running
    · subst hi
      simp only [Function.update_self]
    · simp only [Function.update_of_ne hi]
      rfl
  exact congrArg (System.mk m.toLine) hsenders

/-- A thread that changes nothing of what it has still to write. -/
theorem view_same (h : t.sender = (m.threads m.running).sender) :
    (m.setThread t).view = m.view := by
  have hsender : m.view.senders m.running = t.sender := h.symm
  rw [view_setThread, ← hsender, Function.update_eq_self]

theorem call_sender {u : Thread} (h : u.call = some t) : t.sender = u.sender := by
  rw [Thread.call.eq_def] at h
  split at h
  next c cs =>
    rw [← Option.some.inj h]
    by_cases hc : c = 0x0A
    · subst hc
      rfl
    · rw [if_neg hc, Thread.sender, Thread.sender, List.flatMap_cons, wire, if_neg hc]
      rfl
  · cases h

/-- A thread that reads the status stays where it is or has passed its test. -/
theorem readStatus_sender {u : Thread} {empty : Bool}
    (h : u.readStatus (lineStatus empty others) = some t) : t = u ∨
      empty = true ∧ u.sender.todo ≠ [] ∧ u.sender.tested = false ∧
        t.sender = { u.sender with tested := true } := by
  cases empty with
  | false =>
    have hbit := (lineStatus_bit false others).mpr rfl
    rw [Thread.readStatus.eq_def] at h
    split at h
    · rw [if_pos hbit] at h
      exact .inl (Option.some.inj h).symm
    · rw [if_pos hbit] at h
      exact .inl (Option.some.inj h).symm
    · cases h
  | true =>
    have hbit : ¬lineStatus true others &&& 0x20 = 0 := fun h =>
      Bool.noConfusion ((lineStatus_bit true others).mp h)
    rw [Thread.readStatus.eq_def] at h
    split at h
    · rw [if_neg hbit] at h
      obtain rfl := Option.some.inj h
      exact .inr ⟨rfl, List.cons_ne_nil _ _, rfl, rfl⟩
    · rw [if_neg hbit] at h
      obtain rfl := Option.some.inj h
      exact .inr ⟨rfl, List.cons_ne_nil _ _, rfl, rfl⟩
    · cases h

theorem writeData_sender {u : Thread} {v : BitVec 8} (h : u.writeData = some (v, t)) :
    u.sender = ⟨v :: t.sender.todo, true⟩ ∧ t.sender.tested = false := by
  rw [Thread.writeData.eq_def] at h
  split at h
  · obtain ⟨rfl, rfl⟩ := Prod.mk.inj (Option.some.inj h)
    exact ⟨rfl, rfl⟩
  · obtain ⟨rfl, rfl⟩ := Prod.mk.inj (Option.some.inj h)
    exact ⟨rfl, rfl⟩
  · cases h

/-- Each step is one of the abstract system, or none for it. -/
theorem step_view (h : step e m = some m') : m'.view = m.view ∨
    ∃ e', e'.isSwitch = e.isSwitch ∧ Uart.step e' m.view = some m'.view := by
  cases e with
  | call =>
    obtain ⟨t, ht, rfl⟩ := Option.map_eq_some_iff.mp h
    exact .inl (view_same (call_sender ht))
  | readStatus others =>
    obtain ⟨t, ht, rfl⟩ := Option.map_eq_some_iff.mp h
    obtain hstay | ⟨hempty, htodo, huntested, hsender⟩ := readStatus_sender ht
    · exact .inl (view_same (congrArg Thread.sender hstay))
    · refine .inr ⟨.test, rfl, ?_⟩
      rw [Uart.step, view_setThread, hsender]
      exact if_pos ⟨htodo, huntested, hempty⟩
  | writeData =>
    obtain ⟨⟨v, t⟩, ht, rfl⟩ := Option.map_eq_some_iff.mp h
    obtain ⟨hsender, huntested⟩ := writeData_sender ht
    have hnext : t.sender = ⟨t.sender.todo, false⟩ := by rw [← huntested]
    have hview := congrArg System.senders (view_setThread t m)
    rw [hnext] at hview
    exact .inr ⟨.write, rfl, (step_write (s := m.view) hsender).trans
      (congrArg (fun u => some (System.mk (m.toLine.write v) u)) hview.symm)⟩
  | switch j =>
    rw [step, Option.ite_none_right_eq_some] at h
    obtain ⟨hne, hm⟩ := h
    refine .inr ⟨.switch j, rfl, ?_⟩
    rw [Uart.step, ← Option.some.inj hm]
    exact if_pos hne
  | load =>
    obtain ⟨t, ht, rfl⟩ := Option.map_eq_some_iff.mp h
    exact .inr ⟨.load, rfl, Option.map_eq_some_iff.mpr ⟨t, ht, rfl⟩⟩
  | finish =>
    obtain ⟨t, ht, rfl⟩ := Option.map_eq_some_iff.mp h
    exact .inr ⟨.finish, rfl, Option.map_eq_some_iff.mpr ⟨t, ht, rfl⟩⟩

/-- A run of the machine is one of the abstract system. -/
theorem runAll_view {es : List (Event ι)} (h : runAll step es m = some m') :
    ∃ es', ((∀ e ∈ es, e.isSwitch = false) → ∀ e ∈ es', e.isSwitch = false) ∧
      runAll Uart.step es' m.view = some m'.view := by
  induction es generalizing m with
  | nil => exact ⟨[], fun _ _ he => absurd he List.not_mem_nil, Option.some.inj h ▸ rfl⟩
  | cons e es ih =>
    rw [runAll, Option.bind_eq_some_iff] at h
    obtain ⟨u, hu, hrest⟩ := h
    obtain ⟨es', hswitch, hrun⟩ := ih hrest
    obtain hsame | ⟨e', hkind, hstep⟩ := step_view hu
    · rw [hsame] at hrun
      exact ⟨es', fun hes => hswitch fun a ha => hes a (List.mem_cons_of_mem e ha), hrun⟩
    · refine ⟨e' :: es', fun hes => ?_, ?_⟩
      · rw [List.forall_mem_cons] at hes ⊢
        exact ⟨hkind.trans hes.1, hswitch hes.2⟩
      · rw [runAll, hstep, Option.bind_some, hrun]

end View

/-! ## Any interleaving -/

section Shared

variable [DecidableEq ι]

/-- Threads write their texts, in whatever way the timer, the exceptions and the transmitter
interleave with them. Every thread writes the bytes of its text in order. What goes out is in the
order of the writes; every byte written goes out or is lost, and none of them twice. A byte is
lost to the write of another thread, and at most one for each time a thread was left between its
test and its write; where that never happens, everything goes out. -/
theorem serial_shared (first : ι) (texts : ι → List (BitVec 8)) (es : List (Event ι))
    (m : Machine ι) (h : runAll step es (.start first texts) = some m) :
    (∀ i, bytesOf i m.written ++ (m.threads i).sender.todo = (texts i).flatMap wire) ∧
      m.transmitter.passed.Sublist m.written ∧
      (m.transmitter.passed ++ m.lost).Perm m.written ∧
      m.overwriters.length = m.lost.length ∧ m.overwriters.Subperm m.left ∧
      (∀ p ∈ m.overwriters.zip m.lost, p.1 ≠ p.2.1) ∧
      (m.left = [] → ∀ i, bytesOf i m.transmitter.passed ++ (m.threads i).sender.todo =
        (texts i).flatMap wire) := by
  obtain ⟨es', -, hrun⟩ := runAll_view h
  have hinv := invariant_run (invariant_start first fun i => (texts i).flatMap wire) hrun
  obtain ⟨hleft, hlost⟩ := hinv.lost
  refine ⟨hinv.text, hinv.order, hinv.account, hinv.paired, hleft, hinv.others, fun hnone => ?_⟩
  have hkept : m.view.lost = [] := by
    have hlength : m.view.left.length = 0 := congrArg List.length hnone
    exact List.eq_nil_of_length_eq_zero (Nat.le_zero.mp (hlength ▸ hlost))
  exact hinv.complete hkept

/-- The kernel's thread is left behind its test. -/
def raceRun : List (Event Bool) :=
  [.call, .readStatus 0, .switch true, .call, .readStatus 0, .writeData, .switch false, .writeData]

def raceTexts (i : Bool) : List (BitVec 8) := if i then [0x54] else [0x41]

/-- Its byte replaces the one of the other thread. -/
theorem serial_shared_race : ∃ m, runAll step raceRun (.start false raceTexts) = some m ∧
    m.lost = [(true, 0x54)] ∧ m.overwriters.Subperm m.left := by
  have hrun : (runAll step raceRun (.start false raceTexts)).map (fun m => m.lost) =
      some [(true, 0x54)] := by decide
  obtain ⟨m, hm, hlost⟩ := Option.map_eq_some_iff.mp hrun
  exact ⟨m, hm, hlost, (serial_shared false raceTexts raceRun m hm).2.2.2.2.1⟩

end Shared

/-! ## One thread alone -/

section Alone

def putcharWork (c : BitVec 8) : Nat := if c = 0x0A then 9 else 5

def Position.work : Position → Nat
  | .outside => 0
  | .testReturn _ => 8
  | .writeReturn _ => 7
  | .testChar _ => 4
  | .writeChar _ => 3

def Thread.work (t : Thread) : Nat := t.position.work + (t.text.map putcharWork).sum

/-- How far the running thread is from having its text on the line. -/
def Machine.work (m : Machine ι) : Nat :=
  (m.threads m.running).work + 2 * m.transmitter.holding.toList.length +
    m.transmitter.shifting.toList.length

theorem work_zero {m : Machine ι} (h : m.work = 0) : m.transmitter.passed = m.transmitter.sent ∧
    (m.threads m.running).sender.todo = [] := by
  rw [Machine.work, Nat.add_eq_zero_iff, Nat.add_eq_zero_iff] at h
  obtain ⟨⟨hthread, hholding⟩, hshifting⟩ := h
  have hheld : m.transmitter.holding.toList = [] := List.eq_nil_of_length_eq_zero (by omega)
  have hshifted : m.transmitter.shifting.toList = [] := List.eq_nil_of_length_eq_zero hshifting
  refine ⟨by rw [Transmitter.passed, hheld, hshifted, List.append_nil, List.append_nil], ?_⟩
  generalize m.threads m.running = u at hthread ⊢
  obtain ⟨position, text⟩ := u
  cases position with
  | outside =>
    cases text with
    | nil => rfl
    | cons c cs =>
      simp only [Thread.work, Position.work, List.map_cons, List.sum_cons, putcharWork] at hthread
      split_ifs at hthread <;> omega
  | _ =>
    simp only [Thread.work, Position.work] at hthread
    omega

variable [DecidableEq ι] {m m' : Machine ι} {t u : Thread} {e : Event ι} {others v : BitVec 8}

theorem work_setThread (t : Thread) (m : Machine ι) : (m.setThread t).work =
    t.work + 2 * m.transmitter.holding.toList.length + m.transmitter.shifting.toList.length := by
  simp only [Machine.work, Machine.setThread, Function.update_self]

theorem call_work (h : u.call = some t) : t.work < u.work := by
  rw [Thread.call.eq_def] at h
  split at h
  next c cs =>
    rw [← Option.some.inj h]
    by_cases hc : c = 0x0A
    · simp only [Thread.work, Position.work, putcharWork, hc, if_true, List.map_cons, List.sum_cons]
      omega
    · simp only [Thread.work, Position.work, putcharWork, hc, if_false, List.map_cons,
        List.sum_cons]
      omega
  · cases h

theorem readStatus_work {empty : Bool} (h : u.readStatus (lineStatus empty others) = some t) :
    empty = false ∧ t = u ∨ t.work < u.work := by
  rw [Thread.readStatus.eq_def] at h
  split at h
  · rw [← Option.some.inj h]
    split_ifs with hbit
    · exact .inl ⟨(lineStatus_bit empty others).mp hbit, rfl⟩
    · exact .inr (by simp only [Thread.work, Position.work]; omega)
  · rw [← Option.some.inj h]
    split_ifs with hbit
    · exact .inl ⟨(lineStatus_bit empty others).mp hbit, rfl⟩
    · exact .inr (by simp only [Thread.work, Position.work]; omega)
  · cases h

/-- A write takes more from the thread than it gives to the transmitter. -/
theorem writeData_work (h : u.writeData = some (v, t)) : t.work + 2 < u.work := by
  rw [Thread.writeData.eq_def] at h
  split at h
  · obtain ⟨rfl, rfl⟩ := Prod.mk.inj (Option.some.inj h)
    simp only [Thread.work, Position.work]
    omega
  · obtain ⟨rfl, rfl⟩ := Prod.mk.inj (Option.some.inj h)
    simp only [Thread.work, Position.work]
    omega
  · cases h

/-- The test of a full register, which is made again. -/
def Spins (e : Event ι) (m m' : Machine ι) : Prop :=
  (∃ others, e = .readStatus others) ∧ m.transmitter.empty = false ∧ m' = m

/-- Until the thread is left, every other step leads on. -/
theorem step_work (he : e.isSwitch = false) (h : step e m = some m') :
    Spins e m m' ∨ m'.work < m.work := by
  cases e with
  | call =>
    obtain ⟨t, ht, rfl⟩ := Option.map_eq_some_iff.mp h
    have hless := call_work ht
    refine .inr ?_
    rw [work_setThread, Machine.work]
    omega
  | readStatus others =>
    obtain ⟨t, ht, rfl⟩ := Option.map_eq_some_iff.mp h
    obtain ⟨hfull, rfl⟩ | hless := readStatus_work ht
    · refine .inl ⟨⟨others, rfl⟩, hfull, ?_⟩
      rw [Machine.setThread, Function.update_eq_self]
    · refine .inr ?_
      rw [work_setThread, Machine.work]
      omega
  | writeData =>
    obtain ⟨⟨v, t⟩, ht, rfl⟩ := Option.map_eq_some_iff.mp h
    have hless := writeData_work ht
    refine .inr ?_
    simp only [Machine.work, Machine.setThread, Line.write, Transmitter.write,
      Function.update_self, Option.toList_some, List.length_singleton]
    omega
  | switch => cases he
  | load =>
    obtain ⟨t, ht, rfl⟩ := Option.map_eq_some_iff.mp h
    obtain ⟨a, hholding, hshifting, rfl⟩ := load_some ht
    refine .inr ?_
    simp only [Machine.work, hholding, hshifting, Option.toList_some, Option.toList_none,
      List.length_singleton, List.length_nil]
    omega
  | finish =>
    obtain ⟨t, ht, rfl⟩ := Option.map_eq_some_iff.mp h
    obtain ⟨a, hshifting, rfl⟩ := Option.map_eq_some_iff.mp ht
    refine .inr ?_
    simp only [Machine.work, hshifting, Option.toList_some, Option.toList_none,
      List.length_singleton, List.length_nil]
    omega

/-- A thread with something to do can do it when the register is empty. -/
theorem thread_goes_on (others : BitVec 8) (hwork : u.work ≠ 0) : (∃ t, u.call = some t) ∨
    (∃ t, u.readStatus (lineStatus true others) = some t) ∨ ∃ w, u.writeData = some w := by
  obtain ⟨position, text⟩ := u
  cases position with
  | outside =>
    cases text with
    | nil => exact absurd rfl hwork
    | cons c cs => exact .inl ⟨_, rfl⟩
  | testReturn c => exact .inr (.inl ⟨_, rfl⟩)
  | writeReturn c => exact .inr (.inr ⟨_, rfl⟩)
  | testChar c => exact .inr (.inl ⟨_, rfl⟩)
  | writeChar c => exact .inr (.inr ⟨_, rfl⟩)

/-- The transmitter or the thread gets on as long as there is something to do. -/
theorem goes_on (hwork : m.work ≠ 0) :
    ∃ e m', e.isSwitch = false ∧ step e m = some m' ∧ m'.work < m.work := by
  have hleads {e : Event ι} {m' : Machine ι} (he : e.isSwitch = false) (h : step e m = some m')
      (hnot : ¬Spins e m m') : ∃ e m', e.isSwitch = false ∧ step e m = some m' ∧
        m'.work < m.work := ⟨e, m', he, h, (step_work he h).resolve_left hnot⟩
  cases hshifting : m.transmitter.shifting with
  | some a =>
    refine hleads (e := .finish) rfl (Option.map_eq_some_iff.mpr
      ⟨_, Option.map_eq_some_iff.mpr ⟨a, hshifting, rfl⟩, rfl⟩) ?_
    rintro ⟨⟨others, he⟩, -⟩
    cases he
  | none =>
    cases hholding : m.transmitter.holding with
    | some a =>
      have hload : m.transmitter.load =
          some { m.transmitter with holding := none, shifting := some a } := by
        rw [Transmitter.load, hholding, hshifting]
      refine hleads (e := .load) rfl (Option.map_eq_some_iff.mpr ⟨_, hload, rfl⟩) ?_
      rintro ⟨⟨others, he⟩, -⟩
      cases he
    | none =>
      have hempty : m.transmitter.empty = true := empty_iff.mpr hholding
      have hthread : (m.threads m.running).work ≠ 0 := by
        simpa [Machine.work, hholding, hshifting] using hwork
      have hnot {e : Event ι} {m' : Machine ι} : ¬Spins e m m' := by
        rintro ⟨-, hfull, -⟩
        rw [hempty] at hfull
        cases hfull
      obtain ⟨t, ht⟩ | ⟨t, ht⟩ | ⟨w, hw⟩ := thread_goes_on 0 hthread
      · exact hleads (e := .call) rfl (Option.map_eq_some_iff.mpr ⟨t, ht, rfl⟩) hnot
      · rw [← hempty] at ht
        exact hleads (e := .readStatus 0) rfl (Option.map_eq_some_iff.mpr ⟨t, ht, rfl⟩) hnot
      · exact hleads (e := .writeData) rfl (Option.map_eq_some_iff.mpr ⟨w, hw, rfl⟩) hnot

theorem serialPutchar_text (text : List (BitVec 8)) (p : Gfx.Serial) :
    (text.foldl (fun p c => Gfx.serialPutchar c p) p).sent = p.sent ++ text.flatMap wire := by
  induction text generalizing p with
  | nil => exact (List.append_nil _).symm
  | cons c cs ih =>
    rw [List.foldl_cons, ih, serialPutchar_sent, List.flatMap_cons, List.append_assoc]

/-- As long as no other thread comes in, a thread outside `serial_putchar` loses nothing, whatever
the transmitter was doing: the bytes on the line and on their way to it followed by those still to
be written stay the same. Every step but a test of a full register leads on, there is always one
that does, and in the end the line has got what the terminal's model sends. -/
theorem serial_alone (m : Machine ι) (houtside : (m.threads m.running).position = .outside)
    (es : List (Event ι)) (hes : ∀ e ∈ es, e.isSwitch = false) (m' : Machine ι)
    (h : runAll step es m = some m') :
    m'.lost = m.lost ∧
      m'.transmitter.passed ++ (m'.threads m'.running).sender.todo.map (Prod.mk m'.running) =
        m.transmitter.passed ++ (m.threads m.running).sender.todo.map (Prod.mk m.running) ∧
      (∀ e m'', e.isSwitch = false → step e m' = some m'' →
        Spins e m' m'' ∨ m''.work < m'.work) ∧
      (m'.work ≠ 0 → ∃ e m'', e.isSwitch = false ∧ step e m' = some m'' ∧ m''.work < m'.work) ∧
      (m'.work = 0 → ∀ p : Gfx.Serial, p.sent = m.transmitter.passed.map Prod.snd →
        m'.transmitter.sent.map Prod.snd =
          ((m.threads m.running).text.foldl (fun p c => Gfx.serialPutchar c p) p).sent) := by
  obtain ⟨es', hswitch, hrun⟩ := runAll_view h
  have hsafe : ¬Exposed m.view m.view.running := by
    rintro ⟨htested, -⟩
    have huntested : (m.threads m.running).position.tested = false := by rw [houtside]; rfl
    exact absurd (htested.symm.trans huntested) (by decide)
  have hall := alone_run (hswitch hes) hsafe hrun
  have hbytes : m'.transmitter.passed ++ (m'.threads m'.running).sender.todo.map
      (Prod.mk m'.running) = m.transmitter.passed ++
        (m.threads m.running).sender.todo.map (Prod.mk m.running) := hall.bytes
  refine ⟨hall.lost, hbytes, fun e m'' he hm => step_work he hm, goes_on, fun hdone p hp => ?_⟩
  obtain ⟨hpassed, htodo⟩ := work_zero hdone
  have htext : (m.threads m.running).sender.todo =
      (m.threads m.running).text.flatMap wire := by
    rw [Thread.sender, houtside]
    rfl
  rw [hpassed, htodo, List.map_nil, List.append_nil] at hbytes
  rw [hbytes, serialPutchar_text, hp, htext, List.map_append, List.map_map]
  exact congrArg _ (List.map_id _)

/-- A line of one thread, of which the first byte has just been written. -/
theorem serial_alone_line : ∃ m', runAll step [.call, .readStatus 0, .writeData]
      (Machine.start () fun _ => [0x0A]) = some m' ∧ m'.lost = [] ∧
    (m'.work ≠ 0 → ∃ e m'', e.isSwitch = false ∧ step e m' = some m'' ∧ m''.work < m'.work) := by
  have hall := serial_alone (Machine.start () fun _ => [0x0A]) rfl
    [.call, .readStatus 0, .writeData] (by decide) _ rfl
  exact ⟨_, rfl, hall.1, hall.2.2.2.1⟩

end Alone

end SerialPort
