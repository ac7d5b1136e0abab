import Nyrix.Base.RingChange
import Nyrix.Base.WideMemory

/-!
# Descriptor tables of IA-32

Segment descriptors, gates and the task segment as the processor finds them in memory, and what
it makes of them when an interrupt is delivered or code outside the I/O privilege level accesses a
port. A delivery that would end in a further fault fails. Left out are local tables, task gates,
gates of 16 bits and virtual-8086 mode.
-/

namespace IA32

open ByteMemory

/-! ## Segments -/

structure Segment where
  base : BitVec 32
  limit : BitVec 20
  access : BitVec 8
  flags : BitVec 4
  deriving DecidableEq

def Segment.decode (x : BitVec 64) : Segment where
  base := x.extractLsb' 56 8 ++ x.extractLsb' 32 8 ++ x.extractLsb' 16 16
  limit := x.extractLsb' 48 4 ++ x.extractLsb' 0 16
  access := x.extractLsb' 40 8
  flags := x.extractLsb' 52 4

/-- The last byte of a segment that grows up, from its base on. -/
def Segment.last (d : Segment) : Nat :=
  if d.flags.getLsbD 3 then 4096 * d.limit.toNat + 4095 else d.limit.toNat

def Segment.dpl (d : Segment) : BitVec 2 := d.access.extractLsb' 5 2
def Segment.present (d : Segment) : Bool := d.access.getLsbD 7
def Segment.isCode (d : Segment) : Bool := d.access &&& 0x18 == 0x18
def Segment.conforming (d : Segment) : Bool := d.access &&& 0x1C == 0x1C
def Segment.isStack (d : Segment) : Bool := d.access &&& 0x1A == 0x12

/-! ## Gates -/

structure Gate where
  offset : BitVec 32
  selector : BitVec 16
  flags : BitVec 8
  deriving DecidableEq

def Gate.decode (x : BitVec 64) : Gate where
  offset := x.extractLsb' 48 16 ++ x.extractLsb' 0 16
  selector := x.extractLsb' 16 16
  flags := x.extractLsb' 40 8

def Gate.dpl (g : Gate) : BitVec 2 := g.flags.extractLsb' 5 2
def Gate.present (g : Gate) : Bool := g.flags.getLsbD 7
def Gate.isInterrupt (g : Gate) : Bool := g.flags &&& 0x1F == 0x0E
def Gate.isTrap (g : Gate) : Bool := g.flags &&& 0x1F == 0x0F

/-! ## The tables -/

/-- A region by its first byte and the offset of its last one. -/
structure Table where
  base : Nat
  limit : Nat
  deriving DecidableEq

structure SystemRegs where
  gdtr : Table
  idtr : Table
  /-- The segment of the running task, as cached by `ltr`. -/
  task : Table

/-- The operand of `lgdt` and `lidt`. -/
def tableAt (m : Mem) (a : Nat) : Table := ⟨(load32 m (a + 2)).toNat, (load16 m a).toNat⟩

/-- The offset of the descriptor a selector names. -/
def descriptorOffset (sel : BitVec 16) : Nat := 8 * (sel.toNat / 8)

def segmentAt (t : Table) (m : Mem) (sel : BitVec 16) : Option Segment :=
  if Null sel ∨ sel.getLsbD 2 ∨ t.limit < descriptorOffset sel + 7 then none
  else some (.decode (load64 m (t.base + descriptorOffset sel)))

def gateAt (t : Table) (m : Mem) (vector : Nat) : Option Gate :=
  if t.limit < 8 * vector + 7 then none else some (.decode (load64 m (t.base + 8 * vector)))

/-- An available task segment of 32 bits becomes the current one and is marked busy. -/
def ltr (sel : BitVec 16) (r : SystemRegs) (m : Mem) : Option (SystemRegs × Mem) :=
  let a := r.gdtr.base + descriptorOffset sel
  (segmentAt r.gdtr m sel).bind fun d =>
    if d.access &&& 0x9F = 0x89 then
      some ({ r with task := ⟨d.base.toNat, d.last⟩ }, store64 m a (load64 m a ||| 1#64 <<< 41))
    else none

theorem ltr_some {sel : BitVec 16} {r : SystemRegs} {m : Mem} {d : Segment}
    (h : segmentAt r.gdtr m sel = some d) (havailable : d.access &&& 0x9F = 0x89) :
    ltr sel r m = some ({ r with task := ⟨d.base.toNat, d.last⟩ },
      store64 m (r.gdtr.base + descriptorOffset sel)
        (load64 m (r.gdtr.base + descriptorOffset sel) ||| 1#64 <<< 41)) := by
  rw [ltr, h, Option.bind_some, if_pos havailable]

/-- A selector of the global table within its limit. -/
theorem segmentAt_some {t : Table} {m : Mem} (sel : BitVec 16) (hnull : ¬Null sel)
    (hglobal : sel.getLsbD 2 = false) (hlimit : descriptorOffset sel + 7 ≤ t.limit) :
    segmentAt t m sel = some (.decode (load64 m (t.base + descriptorOffset sel))) := by
  rw [segmentAt, if_neg]
  rintro (h | h | h)
  · exact hnull h
  · exact absurd hglobal (by simp [h])
  · omega

/-! ## Interrupts -/

/-- The stack the task segment gives for a ring. -/
def stackAt (r : SystemRegs) (m : Mem) (level : BitVec 2) : Option (BitVec 16 × BitVec 32) :=
  let a := 8 * level.toNat + 4
  let ss := load16 m (r.task.base + a + 4)
  if r.task.limit < a + 5 then none
  else (segmentAt r.gdtr m ss).bind fun d =>
    if d.isStack ∧ d.present ∧ d.dpl = level ∧ rpl ss = level then
      some (ss, load32 m (r.task.base + a))
    else none

/-- TF, NT, RF and VM are cleared, and through an interrupt gate IF too. -/
def Gate.flagsIn (g : Gate) (f : BitVec 32) : BitVec 32 :=
  if g.isTrap then f &&& ~~~0x00034100#32 else f &&& ~~~0x00034300#32

/-- From the push of the flags on. -/
def Gate.enter (g : Gate) (level : BitVec 2) (eflags eip : BitVec 32) (cs : BitVec 16)
    (s : State) : State :=
  { setSeg .cs (g.selector.extractLsb' 2 14 ++ level)
      (pushAll [eflags, cs.setWidth 32, eip] s) with
    eflags := g.flagsIn eflags
    eip := g.offset }

/-- An interrupt or exception is delivered; `software` tells an `int n` from the others. -/
def deliver (r : SystemRegs) (vector : Nat) (software : Bool) (s : State) : Option State :=
  (gateAt r.idtr s.mem vector).bind fun g =>
    if (g.isInterrupt ∨ g.isTrap) ∧ g.present ∧ ¬(software ∧ g.dpl < cpl s) then
      (segmentAt r.gdtr s.mem g.selector).bind fun d =>
        if d.isCode ∧ d.present ∧ d.dpl ≤ cpl s then
          if d.conforming ∨ d.dpl = cpl s then
            some (g.enter (cpl s) s.eflags s.eip (s.segs .cs) s)
          else (stackAt r s.mem d.dpl).map fun stack =>
            g.enter d.dpl s.eflags s.eip (s.segs .cs)
              (pushAll [(s.segs .ss).setWidth 32, s.regs .esp]
                (setReg .esp stack.2 (setSeg .ss stack.1 s)))
        else none
    else none

/-! ## Ports -/

def iopl (s : State) : BitVec 2 := s.eflags.extractLsb' 12 2

/-- The bit of a port in the map of the task segment, of which two bytes are read. -/
def mapAllows (r : SystemRegs) (m : Mem) (port : Nat) : Bool :=
  let a := (load16 m (r.task.base + 102)).toNat + port / 8
  decide (a + 1 ≤ r.task.limit) && !(load8 m (r.task.base + a)).getLsbD (port % 8)

/-- An access to a port of one byte gets through. -/
def portAllowed (r : SystemRegs) (port : Nat) (s : State) : Bool :=
  decide (cpl s ≤ iopl s) || mapAllows r s.mem port

/-! ## Instructions a ring may not execute -/

/-- What an instruction comes to: the next one, a wait for an interrupt, or an exception. -/
inductive Effect where
  | next (s : State)
  | waits (s : State)
  | faults (vector : Nat) (err : BitVec 32) (s : State)

/-- Go on behind an instruction that got through. -/
def Effect.bind : Effect → (State → Effect) → Effect
  | .next s, f => f s
  | .waits s, _ => .waits s
  | .faults vector err s, _ => .faults vector err s

/-- `out` of one byte. -/
def outPort (r : SystemRegs) (port : Nat) (c : BitVec 8) (s : State) : Effect :=
  if portAllowed r port s then .next { s with out := s.out ++ [(port, c)] } else .faults 13 0 s

def hlt (s : State) : Effect := if cpl s = 0#2 then .waits s else .faults 13 0 s

theorem hlt_outer {s : State} (h : cpl s ≠ 0#2) : hlt s = .faults 13 0 s := if_neg h

theorem pushAll_append (vs ws : List (BitVec 32)) (s : State) :
    pushAll (vs ++ ws) s = pushAll ws (pushAll vs s) := List.foldl_append

end IA32
