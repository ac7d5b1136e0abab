import Nyrix.Base.ByteLayout
import Nyrix.DescriptorTables
import Nyrix.InterruptFrame

/-!
# Interrupts through the tables the kernel sets up

Which vectors get through, where they lead and on which stack follows from the bytes of the
tables. What the modules on the stubs and on the system call take as given, the segments of the
kernel, the stack of Ring 0 and the entry points, is what the processor finds there.
-/

namespace DescriptorTables

open ByteMemory ByteLayout IA32
open InterruptFrame (raise HasErrorCode)
open Syscall (userCode)

section Lookup

variable {st : Statics} {stub : Nat → BitVec 32} {m : Mem} {v : Nat}

theorem gateAt_installed (h : Installed st stub m) (hv : v < 256) :
    gateAt (systemRegs st).idtr m v = some (.decode (gateWord st stub v)) := by
  have hlimit : ¬(systemRegs st).idtr.limit < 8 * v + 7 := by
    simp only [systemRegs]
    omega
  rw [gateAt, if_neg hlimit, ← h.idt v hv]
  rfl

/-- The descriptor a selector of the kernel's table names. -/
theorem segmentAt_installed (h : Installed st stub m) (sel : BitVec 16) (hnull : ¬Null sel)
    (hglobal : sel.getLsbD 2 = false) {i : Nat} (hsel : sel.toNat / 8 = i) (hi : i < 6) :
    segmentAt (systemRegs st).gdtr m sel = some (.decode (segmentWord st i)) := by
  have hoffset : descriptorOffset sel = 8 * i := by rw [descriptorOffset, hsel]
  have hlimit : descriptorOffset sel + 7 ≤ (systemRegs st).gdtr.limit := by
    simp only [systemRegs]
    omega
  rw [segmentAt_some sel hnull hglobal hlimit, hoffset, ← h.gdt i hi]
  rfl

/-- A segment of the whole address space. -/
def flat (access : BitVec 8) : Segment := ⟨0, 0xFFFFF, access, 0xC⟩

theorem decode_flat (access : BitVec 8) :
    Segment.decode (GDTEntry.word ⟨0xFFFF, 0, 0, access, 0xCF, 0⟩) = flat access := by
  rw [decode_word, flat, Segment.mk.injEq]
  dsimp only
  exact ⟨by decide, by decide, rfl, by decide⟩

theorem kernelCode_installed (h : Installed st stub m) :
    segmentAt (systemRegs st).gdtr m 0x08 = some (flat 0x9A) :=
  (segmentAt_installed h 0x08 (by decide) (by decide) (i := 1) rfl (by decide)).trans
    (congrArg some (decode_flat 0x9A))

theorem kernelData_installed (h : Installed st stub m) :
    segmentAt (systemRegs st).gdtr m 0x10 = some (flat 0x92) :=
  (segmentAt_installed h 0x10 (by decide) (by decide) (i := 2) rfl (by decide)).trans
    (congrArg some (decode_flat 0x92))

/-- The stack of Ring 0 is the one `tss_init` was given. -/
theorem stackAt_installed (h : Installed st stub m) :
    stackAt (systemRegs st) m 0#2 = some (0x10, st.kernelStackTop) := by
  have hss : load16 m ((systemRegs st).task.base + 4 + 4) = 0x10 := by
    have hlow := h.tss 8 (by decide)
    have hhigh := h.tss 9 (by decide)
    have hbytes : tssByte st.kernelStackTop 8 = 0x10 ∧ tssByte st.kernelStackTop 9 = 0 := ⟨rfl, rfl⟩
    rw [load16, systemRegs, Nat.add_assoc, hlow, Nat.add_assoc, hhigh, hbytes.1, hbytes.2]
    rfl
  have hesp : load32 m ((systemRegs st).task.base + 4) = st.kernelStackTop := by
    refine load32_of_bytes fun i hi => ?_
    have hbyte := h.tss (4 + i) (by simp only [tssSize]; omega)
    have hback : 4 + i - 4 = i := by omega
    rw [tssByte, if_neg (by omega), if_pos (by omega), hback, ← Nat.add_assoc] at hbyte
    exact hbyte
  have hfits : (flat 0x92).isStack ∧ (flat 0x92).present ∧ (flat 0x92).dpl = 0#2 ∧
      rpl 0x10 = 0#2 := by decide
  have hlimit : ¬(systemRegs st).task.limit < 4 + 5 := by
    simp only [systemRegs]
    omega
  have hzero : 8 * (0#2).toNat + 4 = 4 := rfl
  rw [stackAt, hzero, if_neg hlimit, hss, kernelData_installed h, Option.bind_some, if_pos hfits,
    hesp]

end Lookup

section Deliver

variable {st : Statics} {stub : Nat → BitVec 32} {s : State} {v : Nat}

/-- A handler's gate leads to ring 0, whatever ring is interrupted. -/
theorem deliver_gate (h : Installed st stub s.mem) (hv : v < 256) {g : Gate}
    (hgate : Gate.decode (gateWord st stub v) = g) (hkind : g.isInterrupt ∨ g.isTrap)
    (hpresent : g.present) (hselector : g.selector = 0x08) {software : Bool}
    (hallowed : ¬(software ∧ g.dpl < cpl s)) :
    deliver (systemRegs st) v software s = some
      (if cpl s = 0#2 then g.enter 0#2 s.eflags s.eip (s.segs .cs) s
      else g.enter 0#2 s.eflags s.eip (s.segs .cs)
        (pushAll [(s.segs .ss).setWidth 32, s.regs .esp]
          (setReg .esp st.kernelStackTop (setSeg .ss 0x10 s)))) := by
  have hcode : (flat 0x9A).isCode ∧ (flat 0x9A).present ∧ (flat 0x9A).dpl ≤ cpl s := by
    refine ⟨by decide, by decide, ?_⟩
    have hdpl : (flat 0x9A).dpl = 0#2 := by decide
    rw [hdpl, BitVec.le_def]
    exact Nat.zero_le _
  have hconforming : (flat 0x9A).conforming = false := by decide
  have hdpl : (flat 0x9A).dpl = 0#2 := by decide
  rw [deliver, gateAt_installed h hv, Option.bind_some, hgate, if_pos ⟨hkind, hpresent, hallowed⟩,
    hselector, kernelCode_installed h, Option.bind_some, if_pos hcode, hconforming, hdpl]
  by_cases hring : cpl s = 0#2
  · rw [if_pos (.inr hring.symm), if_pos hring, hring]
  · rw [if_neg (by simp [Ne.symm hring]), if_neg hring, stackAt_installed h, Option.map_some]

theorem gate_stub (hv : v < 48) :
    Gate.decode (gateWord st stub v) = ⟨stub v, 0x08, 0x8E⟩ := by
  rw [gateWord, if_neg (by omega), if_pos hv, decode_gate]

theorem gate_syscall : Gate.decode (gateWord st stub 0x80) = ⟨st.isrSyscall, 0x08, 0xEF⟩ := by
  rw [gateWord, if_pos rfl, decode_gate]

/-- The gate of a vector without a handler. -/
theorem gate_none (hv : 48 ≤ v) (hsyscall : v ≠ 0x80) :
    Gate.decode (gateWord st stub v) = ⟨0, 0, 0⟩ := by
  rw [gateWord, if_neg hsyscall, if_neg (by omega), decode_idtWord, Gate.mk.injEq]
  dsimp only
  exact ⟨by decide, rfl, rfl⟩

/-- The handlers run in the code segment of the kernel. -/
theorem enter_eq (offset : BitVec 32) (flags : BitVec 8) (f ip : BitVec 32) (cs : BitVec 16)
    (t : State) : (Gate.mk offset 0x08 flags).enter 0#2 f ip cs t =
      { setSeg .cs 0x08 (pushAll [f, cs.setWidth 32, ip] t) with
        eflags := (Gate.mk offset 0x08 flags).flagsIn f
        eip := offset } := by
  have hselector : (0x08#16).extractLsb' 2 14 ++ 0#2 = 0x08#16 := by decide
  exact congrArg (fun sel : BitVec 16 => { setSeg .cs sel (pushAll [f, cs.setWidth 32, ip] t) with
    eflags := (Gate.mk offset 0x08 flags).flagsIn f
    eip := offset }) hselector

theorem flagsIn_stub (f : BitVec 32) :
    (Gate.mk (stub v) 0x08 0x8E).flagsIn f = f &&& ~~~0x00034300#32 :=
  if_neg (by simp only [Gate.isTrap]; decide)

theorem flagsIn_syscall (f : BitVec 32) :
    (Gate.mk st.isrSyscall 0x08 0xEF).flagsIn f = f &&& ~~~0x00034100#32 :=
  if_pos (by simp only [Gate.isTrap]; decide)

/-- An exception or a hardware interrupt enters its stub as the model of the stubs has it. -/
theorem deliver_stub (h : Installed st stub s.mem) (hv : v < 48) :
    deliver (systemRegs st) v false s =
      some (interruptGate 0x10 0x08 st.kernelStackTop (stub v) s) := by
  have hkind : (Gate.mk (stub v) 0x08 0x8E).isInterrupt := by simp only [Gate.isInterrupt]; decide
  have hpresent : (Gate.mk (stub v) 0x08 0x8E).present := by simp only [Gate.present]; decide
  rw [deliver_gate h (by omega) (gate_stub hv) (.inl hkind) hpresent rfl (by simp), interruptGate,
    enter_eq, enter_eq, flagsIn_stub]
  split_ifs <;> rfl

/-- A system call from outside ring 0 enters its stub as the model of the call has it. -/
theorem deliver_syscall (h : Installed st stub s.mem) (hring : cpl s ≠ 0#2) :
    deliver (systemRegs st) 0x80 true s =
      some (trapGate 0x10 0x08 st.kernelStackTop st.isrSyscall s) := by
  have hkind : (Gate.mk st.isrSyscall 0x08 0xEF).isTrap := by simp only [Gate.isTrap]; decide
  have hpresent : (Gate.mk st.isrSyscall 0x08 0xEF).present := by
    simp only [Gate.present]
    decide
  have hallowed : ¬((true : Bool) ∧ (Gate.mk st.isrSyscall 0x08 0xEF).dpl < cpl s) := by
    have hdpl : (Gate.mk st.isrSyscall 0x08 0xEF).dpl = 3#2 := by
      simp only [Gate.dpl]
      decide
    rw [hdpl, BitVec.lt_def]
    have hlt := (cpl s).isLt
    rintro ⟨-, hdeny⟩
    exact absurd hdeny (by simp only [BitVec.toNat_ofNat]; omega)
  rw [deliver_gate h (by decide) gate_syscall (.inr hkind) hpresent rfl hallowed, if_neg hring,
    enter_eq, flagsIn_syscall, ← pushAll_append, trapGate]
  rfl

/-- A vector without a handler is not delivered. -/
theorem deliver_absent (h : Installed st stub s.mem) (hv : 48 ≤ v) (hsyscall : v ≠ 0x80)
    (software : Bool) : deliver (systemRegs st) v software s = none := by
  by_cases hlt : v < 256
  · rw [deliver, gateAt_installed h hlt, gate_none hv hsyscall, Option.bind_some]
    exact if_neg (by simp [Gate.isInterrupt, Gate.isTrap])
  · have hlimit : (systemRegs st).idtr.limit < 8 * v + 7 := by
      simp only [systemRegs]
      omega
    rw [deliver, gateAt, if_pos hlimit]
    rfl

/-- Outside ring 0 no stub is entered by an `int n`. -/
theorem deliver_denied (h : Installed st stub s.mem) (hv : v < 48) (hring : cpl s ≠ 0#2) :
    deliver (systemRegs st) v true s = none := by
  rw [deliver, gateAt_installed h (by omega), gate_stub hv, Option.bind_some]
  refine if_neg ?_
  rintro ⟨-, -, hallowed⟩
  refine hallowed ⟨rfl, ?_⟩
  have hdpl : (Gate.mk (stub v) 0x08 0x8E).dpl = 0#2 := by simp only [Gate.dpl]; decide
  rw [hdpl, BitVec.lt_def]
  have hne : (cpl s).toNat ≠ 0 := fun heq => hring (BitVec.eq_of_toNat_eq heq)
  exact Nat.pos_of_ne_zero hne

/-- The memory has changed elsewhere at most. -/
structure TablesKept (st : Statics) (m m' : Mem) : Prop where
  tss : Kept st.tssEntry.toNat tssSize m m'
  gdt : Kept st.gdtEntries.toNat 48 m m'
  idt : Kept st.idtEntries.toNat 2048 m m'

theorem Installed.kept {m m' : Mem} (h : Installed st stub m) (hkept : TablesKept st m m') :
    Installed st stub m' where
  tss i hi := (hkept.tss i hi).trans (h.tss i hi)
  gdt i hi := (hkept.gdt.load64 (by omega)).trans (h.gdt i hi)
  idt v hv := (hkept.idt.load64 (by omega)).trans (h.idt v hv)

/-- The task segment is busy, which leaves its level. -/
theorem access_tss : (Segment.decode (segmentWord st 5)).access = 0x8B := by
  have haccess := congrArg Segment.access (decode_tss st.tssEntry)
  have hbusy : ((1#64 <<< 41).extractLsb' 40 8) = 0x02#8 := by decide
  simp only [Segment.decode] at haccess ⊢
  rw [segmentWord, if_pos rfl, BitVec.extractLsb'_or, haccess, hbusy]
  rfl

theorem access_segment {i : Nat} (hi : i < 5) :
    (Segment.decode (segmentWord st i)).access = Gdt.access.getD i 0 := by
  obtain rfl | rfl | rfl | rfl | rfl : i = 0 ∨ i = 1 ∨ i = 2 ∨ i = 3 ∨ i = 4 := by omega
  · exact congrArg Segment.access (decode_word _)
  · exact congrArg Segment.access (decode_flat 0x9A)
  · exact congrArg Segment.access (decode_flat 0x92)
  · exact congrArg Segment.access (decode_flat 0xFA)
  · exact congrArg Segment.access (decode_flat 0xF2)

/-- What `iret` asks of a segment is what the table says of it. -/
theorem segment_descriptors {m : Mem} (h : Installed st stub m) {sel : BitVec 16}
    (hnull : ¬Null sel) (hglobal : sel.getLsbD 2 = false) (hsel : sel.toNat / 8 < 6) :
    ∃ d, segmentAt (systemRegs st).gdtr m sel = some d ∧ d.dpl = Gdt.descriptors.dpl sel ∧
      d.conforming = Gdt.descriptors.conforming sel := by
  refine ⟨_, segmentAt_installed h sel hnull hglobal rfl hsel, ?_⟩
  have haccess : Gdt.accessOf sel = Gdt.access.getD (sel.toNat / 8) 0 := rfl
  simp only [Gdt.descriptors, haccess]
  rw [Segment.dpl, Segment.conforming]
  by_cases htss : sel.toNat / 8 = 5
  · rw [htss, access_tss]
    decide
  · rw [access_segment (by omega)]
    exact ⟨rfl, rfl⟩

end Deliver

/-- What the processor pushes behind the frame of an exception. -/
def pushError (v : Nat) (err : BitVec 32) (t : State) : State :=
  if HasErrorCode v then push err t else t

/-- Whatever the registers and the memory held before: `kernel_main` sets the tables up so that
as long as no one writes to them, an exception or hardware interrupt of any code enters the stub
of its vector, outside Ring 0 on the stack given to `tss_init`, `int 0x80` enters the system call,
no other `int` from outside Ring 0 gets through, and nothing else is delivered at all. The levels
that `iret` goes by are those of the table. -/
theorem delivery_refines (st : Statics) (hlayout : Layout st) (r : SystemRegs) (m : Mem) :
    ∃ m', initTables st r m = some (systemRegs st, m') ∧ ∀ s : State, TablesKept st m' s.mem →
      (∀ v < 48, ∀ back err, (deliver (systemRegs st) v false s).map (pushError v err) =
        some (raise ⟨st.kernelStackTop, stubs st m v, back⟩ v err s)) ∧
      (cpl s ≠ 0#2 → ∀ v, deliver (systemRegs st) v true s =
        if v = 0x80 then some (trapGate 0x10 0x08 st.kernelStackTop st.isrSyscall s) else none) ∧
      (∀ v, 48 ≤ v → v ≠ 0x80 → deliver (systemRegs st) v false s = none) ∧
      ∀ sel : BitVec 16, ¬Null sel → sel.getLsbD 2 = false → sel.toNat / 8 < 6 →
        ∃ d, segmentAt (systemRegs st).gdtr s.mem sel = some d ∧
          d.dpl = Gdt.descriptors.dpl sel ∧ d.conforming = Gdt.descriptors.conforming sel := by
  obtain ⟨m', hinit, hinstalled⟩ := initTables_installed hlayout r m
  refine ⟨m', hinit, fun s hkept => ?_⟩
  have hs := hinstalled.kept hkept
  refine ⟨fun v hv back err => ?_, fun hring v => ?_, fun v hv hsyscall => ?_,
    fun sel hnull hglobal hsel => segment_descriptors hs hnull hglobal hsel⟩
  · rw [deliver_stub hs hv]
    rfl
  · split_ifs with hsyscall
    · rw [hsyscall, deliver_syscall hs hring]
    · by_cases hv : v < 48
      · exact deliver_denied hs hv hring
      · exact deliver_absent hs (by omega) hsyscall true
  · exact deliver_absent hs hv hsyscall false

/-- Tables one behind the other. -/
def sampleStatics : Statics :=
  ⟨0x106000, 0x106080, 0x1060B0, 0x106100, 0x106900, 0x106A00, 0x101000, 0x118000⟩

theorem sampleStatics_layout : Layout sampleStatics := by
  have hsep : ∀ {a n b k : Nat}, a + n ≤ b → b + k ≤ 4294967296 → Sep a n b k := sep_of_le
  simp only [Layout, Statics.regions, List.pairwise_cons, List.forall_mem_cons, List.not_mem_nil,
    IsEmpty.forall_iff, implies_true, List.Pairwise.nil, and_true]
  refine ⟨⟨?_, ?_, ?_, ?_, ?_⟩, ⟨?_, ?_, ?_, ?_⟩, ⟨?_, ?_, ?_⟩, ⟨?_, ?_⟩, ?_⟩
  all_goals exact hsep (by decide) (by decide)

/-- The timer interrupts the Ring 3 code that has just run in with these tables. -/
theorem delivery_refines_sample : ∃ m', initTables sampleStatics ⟨⟨0, 0⟩, ⟨0, 0⟩, ⟨0, 0⟩⟩
      (fun _ => 0) = some (systemRegs sampleStatics, m') ∧
    (deliver (systemRegs sampleStatics) 32 false { userCode with mem := m' }).map
        (pushError 32 0) =
      some (raise ⟨0x118000, stubs sampleStatics (fun _ => 0) 32, 0⟩ 32 0
        { userCode with mem := m' }) := by
  obtain ⟨m', hinit, hall⟩ := delivery_refines sampleStatics sampleStatics_layout
    ⟨⟨0, 0⟩, ⟨0, 0⟩, ⟨0, 0⟩⟩ (fun _ => 0)
  have hkept : TablesKept sampleStatics m' m' := ⟨fun _ _ => rfl, fun _ _ => rfl, fun _ _ => rfl⟩
  exact ⟨m', hinit, (hall { userCode with mem := m' } hkept).1 32 (by decide) 0 0⟩

end DescriptorTables
