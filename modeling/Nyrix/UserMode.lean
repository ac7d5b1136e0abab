import Nyrix.UserPorts

/-!
# The way to Ring 3 and what comes of it (user.cpp, idt.cpp)

`switch_to_user_mode` returns to `user_task` in Ring 3 by an `iret` on a frame it has put on the
user stack. `user_task` ends in `hlt`, which Ring 3 may not execute, so it comes back through the
gate of vector 13 into `fault_handler`, which reports the vector on COM1 and stops. Interrupts on
the way, and the registers that compiled code uses in between, are left out.
-/

namespace UserMode

open ByteMemory IA32 DescriptorTables InterruptFrame
open Syscall (serialPutchar userCode)

/-! ## Exceptions -/

/-- The report of `fault_handler`; behind it comes `while (1) hlt`. -/
def faultHandler (regs : Registers) (s : State) : State :=
  let s := serialPutchar 0x45 s
  let s := serialPutchar ((0x30#32 + regs.intNo / 10#32).setWidth 8) s
  serialPutchar ((0x30#32 + regs.intNo % 10#32).setWidth 8) s

/-- An exception of the code in a state, up to the loop of `fault_handler`. -/
def exception (r : SystemRegs) (back : BitVec 32) (vector : Nat) (err : BitVec 32) (s : State) :
    Option State :=
  (deliver r vector false s).map fun t =>
    let t := commonEntry back (pushAll (stubWords vector) (pushError vector err t))
    faultHandler (handlerRegisters t) t

/-- IF -/
def takesInterrupts (s : State) : Bool := s.eflags.getLsbD 9

/-- The processor stays where it is: it waits for an interrupt in ring 0 and takes none. -/
def Stopped (s : State) : Prop := cpl s = 0#2 ∧ takesInterrupts s = false

/-- A report of a vector on COM1. -/
def report (vector : Nat) : List (Nat × BitVec 8) :=
  [ (0x3F8, 0x45)
  , (0x3F8, BitVec.ofNat 8 (48 + vector / 10))
  , (0x3F8, BitVec.ofNat 8 (48 + vector % 10)) ]

section Exception

variable {st : Statics} {stub : Nat → BitVec 32} {s : State} {vector : Nat}

theorem faultHandler_out (regs : Registers) (t : State) (hv : vector < 32)
    (hno : regs.intNo = BitVec.ofNat 32 vector) :
    (faultHandler regs t).out = t.out ++ report vector := by
  have hdigits : ∀ v < 32, (0x30#32 + BitVec.ofNat 32 v / 10#32).setWidth 8 =
      BitVec.ofNat 8 (48 + v / 10) ∧ (0x30#32 + BitVec.ofNat 32 v % 10#32).setWidth 8 =
      BitVec.ofNat 8 (48 + v % 10) ∧ BitVec.ofNat 8 (48 + v / 10) ≠ 0x0A#8 ∧
      BitVec.ofNat 8 (48 + v % 10) ≠ 0x0A#8 := by decide
  obtain ⟨htens, hunits, hten, hunit⟩ := hdigits vector hv
  have hplain (c : BitVec 8) (hc : c ≠ 0x0A#8) (u : State) :
      (serialPutchar c u).out = u.out ++ [(0x3F8, c)] := by
    rw [serialPutchar, if_neg hc]
  rw [faultHandler, hno, htens, hunits, hplain _ hunit, hplain _ hten, hplain _ (by decide), report]
  simp

theorem exception_eq (h : Installed st stub s.mem) (back : BitVec 32) (hv : vector < 48)
    (err : BitVec 32) : exception (systemRegs st) back vector err s =
      some (faultHandler
        (handlerRegisters (handlerEntry ⟨st.kernelStackTop, stub vector, back⟩ vector err s))
        (handlerEntry ⟨st.kernelStackTop, stub vector, back⟩ vector err s)) := by
  rw [exception, deliver_stub h hv]
  rfl

theorem intGate_out (cs0 : BitVec 16) (entry : BitVec 32) (s : State) :
    (intGate cs0 entry s).out = s.out :=
  (pushAll_rest [s.eflags, (s.segs .cs).setWidth 32, s.eip] s).2.2.2

theorem interruptGate_out (ss0 cs0 : BitVec 16) (esp0 entry : BitVec 32) (s : State) :
    (interruptGate ss0 cs0 esp0 entry s).out = s.out := by
  rw [interruptGate]
  split_ifs
  · exact intGate_out cs0 entry s
  · rw [intGateOuter, intGate_out]
    exact (pushAll_rest [(s.segs .ss).setWidth 32, s.regs .esp]
      (setReg .esp esp0 (setSeg .ss ss0 s))).2.2.2

theorem handlerEntry_out (e : Syscall.Entry) (err : BitVec 32) (s : State) (hv : vector < 48) :
    (handlerEntry e vector err s).out = s.out := by
  rw [handlerEntry, stub_raise e err s hv, (commonEntry_rest e.back _).2.2.2,
    (pushAll_rest _ _).2.2.2, interruptGate_out]

/-- Ring 0, with interrupts off. -/
theorem handlerEntry_stopped (e : Syscall.Entry) (err : BitVec 32) (s : State) (hv : vector < 48) :
    Stopped (handlerEntry e vector err s) := by
  have hin := handlerEntry_entered e err s hv
  constructor
  · rw [cpl, hin.cs, interruptGate_cs]
    rfl
  · have hmask : (~~~0x00034300#32).getLsbD 9 = false := by decide
    rw [takesInterrupts, hin.eflags, interruptGate_eflags, BitVec.getLsbD_and, hmask,
      Bool.and_false]

theorem serialPutchar_stopped (c : BitVec 8) (h : Stopped s) : Stopped (serialPutchar c s) := by
  rw [serialPutchar]
  split_ifs <;> exact h

/-- Every exception is reported by its vector, and then nothing runs any more. -/
theorem exception_reported (h : Installed st stub s.mem) (back : BitVec 32) (hv : vector < 32)
    (err : BitVec 32) : ∃ t, exception (systemRegs st) back vector err s = some t ∧
      t.out = s.out ++ report vector ∧ Stopped t := by
  have hv' : vector < 48 := by omega
  refine ⟨_, exception_eq h back hv' err, ?_, ?_⟩
  · rw [faultHandler_out _ _ hv (handlerEntry_describes _ err s hv').intNo,
      handlerEntry_out _ err s hv']
  · exact serialPutchar_stopped _ (serialPutchar_stopped _ (serialPutchar_stopped _
      (handlerEntry_stopped _ err s hv')))

end Exception

/-- Once `kernel_main` has set the tables up and as long as no one writes to them, an exception of
whatever code leaves the two digits of its vector on COM1, from which the vector can be told, and
the machine stopped for good. -/
theorem exceptions_stop (st : Statics) (hlayout : Layout st) (r : SystemRegs) (m : Mem) :
    ∃ m', initTables st r m = some (systemRegs st, m') ∧ ∀ s : State, TablesKept st m' s.mem →
      ∀ vector < 32, ∀ back err,
        (∃ t, exception (systemRegs st) back vector err s = some t ∧
          t.out = s.out ++ report vector ∧ Stopped t) ∧
        ∀ other < 32, report other = report vector → other = vector := by
  obtain ⟨m', hinit, hinstalled⟩ := initTables_installed hlayout r m
  refine ⟨m', hinit, fun s hkept vector hv back err => ⟨?_, ?_⟩⟩
  · exact exception_reported (hinstalled.kept hkept) back hv err
  · have hall : ∀ v < 32, ∀ w < 32, report w = report v → w = v := by decide
    exact hall vector hv

/-- A page fault of Ring 3 code. -/
theorem exceptions_stop_sample : ∃ m', initTables sampleStatics ⟨⟨0, 0⟩, ⟨0, 0⟩, ⟨0, 0⟩⟩
      (fun _ => 0) = some (systemRegs sampleStatics, m') ∧
    ∃ t, exception (systemRegs sampleStatics) 0 14 4 { userCode with mem := m' } = some t ∧
      t.out = [(0x3F8, 0x45), (0x3F8, 0x31), (0x3F8, 0x34)] ∧ Stopped t := by
  obtain ⟨m', hinit, hall⟩ := exceptions_stop sampleStatics sampleStatics_layout
    ⟨⟨0, 0⟩, ⟨0, 0⟩, ⟨0, 0⟩⟩ (fun _ => 0)
  have hkept : TablesKept sampleStatics m' m' := ⟨fun _ _ => rfl, fun _ _ => rfl, fun _ _ => rfl⟩
  exact ⟨m', hinit, (hall { userCode with mem := m' } hkept 14 (by decide) 0 4).1⟩

/-! ## Ring 3 -/

/-- Where the linker put what `user.cpp` uses. -/
structure UserStatics where
  kernelEsp : Nat
  returnEip : Nat
  /-- The end of `user_stack`. -/
  userStackTop : BitVec 32
  userTask : BitVec 32
  /-- The label in front of the last marks. -/
  resume : BitVec 32

def debugPutchar (c : BitVec 8) (s : State) : State := { s with out := s.out ++ [(0xE9, c)] }

def debugAll (cs : List (BitVec 8)) (s : State) : State := cs.foldl (fun s c => debugPutchar c s) s

def storeWord (a : Nat) (v : BitVec 32) (s : State) : State := { s with mem := store32 s.mem a v }

/-- `*(--sp) = v;` for each of the values -/
def storeDown (vs : List (BitVec 32)) (sp : BitVec 32) (m : Mem) : BitVec 32 × Mem :=
  vs.foldl (fun a v => (a.1 - 4#32, store32 a.2 (a.1 - 4#32).toNat v)) (sp, m)

/-- What `iret` finds, in the order in which it is stored. -/
def userFrame (u : UserStatics) : List (BitVec 32) :=
  [0x23, u.userStackTop, 0x202, 0x1B, u.userTask]

/-- `switch_to_user_mode` up to the `iret`. -/
def atIret (u : UserStatics) (s : State) : State :=
  let s := debugAll [0x31, 0x0A] s
  let s := storeWord u.kernelEsp (s.regs .esp) s
  let s := debugAll [0x32, 0x0A] s
  let s := setSeg .gs 0x23 (setSeg .fs 0x23 (setSeg .es 0x23 (setSeg .ds 0x23 s)))
  let s := debugAll [0x33, 0x0A] s
  let frame := storeDown (userFrame u) u.userStackTop s.mem
  let s := debugAll [0x34, 0x0A] { s with mem := frame.2 }
  let s := storeWord u.returnEip u.resume s
  let s := debugAll [0x35, 0x0A, 0x58, 0x0A] s
  setReg .esp frame.1 s

def switchToUserMode (u : UserStatics) (s : State) : State :=
  interruptReturn Gdt.descriptors (atIret u s)

/-- "U\nWAIT\n" -/
def userMarks : List (BitVec 8) := [0x55, 0x0A, 0x57, 0x41, 0x49, 0x54, 0x0A]

/-- `debug_putchar` for each of the bytes, in whatever ring. -/
def writeMarks (r : SystemRegs) : List (BitVec 8) → State → Effect
  | [], s => .next s
  | c :: cs, s => (outPort r 0xE9 c s).bind (writeMarks r cs)

/-- Up to the first `hlt`, which is executed again after each interrupt that ends it. -/
def userTask (r : SystemRegs) (s : State) : Effect := (writeMarks r userMarks s).bind hlt

/-- What comes of an instruction. -/
def follow (r : SystemRegs) (back : BitVec 32) : Effect → Option State
  | .next s => some s
  | .waits s => some s
  | .faults vector err s => exception r back vector err s

/-- `switch_to_user_mode()` as the shell calls it, until the processor waits; the only code that
is known to stand where the `iret` may lead is `user_task`. -/
def enterUser (r : SystemRegs) (u : UserStatics) (back : BitVec 32) (s : State) : Option State :=
  let t := switchToUserMode u s
  if t.eip = u.userTask then follow r back (userTask r t) else none

/-- A region the way to Ring 3 does not write to. -/
def Spared (u : UserStatics) (a n : Nat) : Prop :=
  Sep u.kernelEsp 4 a n ∧ Sep (u.userStackTop - 20#32).toNat 20 a n ∧ Sep u.returnEip 4 a n

structure UserLayout (st : Statics) (u : UserStatics) : Prop where
  tss : Spared u st.tssEntry.toNat tssSize
  gdt : Spared u st.gdtEntries.toNat 48
  idt : Spared u st.idtEntries.toNat 2048
  frame : Sep (u.userStackTop - 20#32).toNat 20 u.returnEip 4

section Enter

variable {st : Statics} {stub : Nat → BitVec 32} {u : UserStatics} {s : State}

theorem storeDown_eq (vs : List (BitVec 32)) (t : State) :
    storeDown vs (t.regs .esp) t.mem = ((pushAll vs t).regs .esp, (pushAll vs t).mem) := by
  induction vs generalizing t with
  | nil => rfl
  | cons v vs ih =>
    have hnext := ih (push v t)
    rw [push_esp, push_mem] at hnext
    exact hnext

/-- Pushes write below the stack pointer only. -/
theorem pushAll_kept (vs : List (BitVec 32)) {t : State} {a n : Nat}
    (hsep : Sep (t.regs .esp - BitVec.ofNat 32 (4 * vs.length)).toNat (4 * vs.length) a n) :
    Kept a n t.mem (pushAll vs t).mem := by
  induction vs generalizing t with
  | nil => exact fun _ _ => rfl
  | cons v vs ih =>
    have hcount : 4 * (v :: vs).length = 4 * vs.length + 4 := by
      rw [List.length_cons, Nat.mul_succ]
    rw [hcount] at hsep
    obtain ⟨low, hlow⟩ : ∃ low, t.regs .esp - BitVec.ofNat 32 (4 * vs.length + 4) = low := ⟨_, rfl⟩
    rw [hlow] at hsep
    have hrest : (push v t).regs .esp - BitVec.ofNat 32 (4 * vs.length) = low := by
      rw [push_esp, BitVec.sub_sub, ← hlow, Nat.add_comm, BitVec.ofNat_add]
    have htop : (t.regs .esp - 4#32).toNat = (low.toNat + 4 * vs.length) % 4294967296 := by
      have hback : t.regs .esp - 4#32 = low + BitVec.ofNat 32 (4 * vs.length) := by
        rw [← hrest, push_esp, BitVec.sub_add_cancel]
      rw [hback, BitVec.toNat_add, BitVec.toNat_ofNat, Nat.add_mod_mod]
    have hstore : Sep (t.regs .esp - 4#32).toNat 4 a n := by
      rw [htop]
      exact sep_comm (sep_mod.mpr (sep_comm (sep_left hsep _ 4 (Nat.le_refl _))))
    have hfirst : Kept a n t.mem (push v t).mem := kept_of_frame (store32_frame _ _ v) hstore
    refine hfirst.trans (ih ?_)
    rw [hrest]
    exact sep_comm (sep_front (sep_comm hsep) _ (Nat.le_add_right _ 4))

theorem debugAll_eq (cs : List (BitVec 8)) (t : State) :
    debugAll cs t = { t with out := t.out ++ cs.map (Prod.mk 0xE9) } := by
  induction cs generalizing t with
  | nil => simp [debugAll]
  | cons c cs ih =>
    have hstep : debugAll (c :: cs) t = debugAll cs (debugPutchar c t) := rfl
    rw [hstep, ih, debugPutchar, List.map_cons, List.append_assoc]
    rfl

@[simp] theorem debugAll_mem (cs : List (BitVec 8)) (t : State) : (debugAll cs t).mem = t.mem := by
  rw [debugAll_eq]

@[simp] theorem debugAll_regs (cs : List (BitVec 8)) (t : State) :
    (debugAll cs t).regs = t.regs := by
  rw [debugAll_eq]

@[simp] theorem debugAll_segs (cs : List (BitVec 8)) (t : State) :
    (debugAll cs t).segs = t.segs := by
  rw [debugAll_eq]

@[simp] theorem debugAll_out (cs : List (BitVec 8)) (t : State) :
    (debugAll cs t).out = t.out ++ cs.map (Prod.mk 0xE9) := by
  rw [debugAll_eq]

@[simp] theorem storeWord_regs (a : Nat) (v : BitVec 32) (t : State) :
    (storeWord a v t).regs = t.regs := rfl
@[simp] theorem storeWord_segs (a : Nat) (v : BitVec 32) (t : State) :
    (storeWord a v t).segs = t.segs := rfl
@[simp] theorem storeWord_out (a : Nat) (v : BitVec 32) (t : State) :
    (storeWord a v t).out = t.out := rfl

/-- "1\n2\n3\n4\n5\nX\n" -/
def switchMarks : List (BitVec 8) :=
  [0x31, 0x0A, 0x32, 0x0A, 0x33, 0x0A, 0x34, 0x0A, 0x35, 0x0A, 0x58, 0x0A]

theorem atIret_out : (atIret u s).out = s.out ++ switchMarks.map (Prod.mk 0xE9) := by
  simp [atIret, switchMarks]

theorem atIret_cpl : cpl (atIret u s) = cpl s := by
  simp [cpl, atIret]

/-- The user stack with its frame, as pushes on it would leave it. -/
def framed (u : UserStatics) (s : State) : State :=
  pushAll (userFrame u) (setReg .esp u.userStackTop
    { s with mem := store32 s.mem u.kernelEsp (s.regs .esp) })

theorem atIret_framed : (atIret u s).regs .esp = (framed u s).regs .esp ∧
    (atIret u s).mem = store32 (framed u s).mem u.returnEip u.resume := by
  have hframe : storeDown (userFrame u) u.userStackTop (store32 s.mem u.kernelEsp (s.regs .esp)) =
      ((framed u s).regs .esp, (framed u s).mem) :=
    storeDown_eq (userFrame u) (setReg .esp u.userStackTop
      { s with mem := store32 s.mem u.kernelEsp (s.regs .esp) })
  simp [atIret, storeWord, hframe]

theorem framed_esp : (framed u s).regs .esp = u.userStackTop - 20#32 := by
  rw [framed, pushAll_esp, setReg_same]
  rfl

/-- What `iret` takes from the user stack. -/
theorem atIret_stacked (hsep : Sep (u.userStackTop - 20#32).toNat 20 u.returnEip 4) :
    Stacked (atIret u s).mem ((atIret u s).regs .esp)
      [u.userTask, 0x1B, 0x202, u.userStackTop, 0x23] := by
  obtain ⟨hesp, hmem⟩ := @atIret_framed u s
  have hnone : Stacked (store32 s.mem u.kernelEsp (s.regs .esp)) u.userStackTop [] := trivial
  have hframe := stacked_pushAll (userFrame u)
    (s := setReg .esp u.userStackTop { s with mem := store32 s.mem u.kernelEsp (s.regs .esp) })
    hnone (by simp [userFrame])
  rw [hesp, hmem]
  refine stacked_store hframe u.resume ?_
  have hptr := @framed_esp u s
  rw [framed] at hptr
  rw [hptr]
  exact hsep

theorem atIret_kept {a n : Nat} (h : Spared u a n) : Kept a n s.mem (atIret u s).mem := by
  obtain ⟨hesp, hframe, heip⟩ := h
  rw [atIret_framed.2]
  have hsaved : Kept a n s.mem (store32 s.mem u.kernelEsp (s.regs .esp)) :=
    kept_of_frame (store32_frame _ _ _) hesp
  have hpushed : Kept a n (store32 s.mem u.kernelEsp (s.regs .esp)) (framed u s).mem :=
    pushAll_kept (userFrame u) (by rw [setReg_same]; exact hframe)
  exact (hsaved.trans hpushed).trans (kept_of_frame (store32_frame _ _ _) heip)

/-- `user_task` starts on its own stack, in Ring 3 and without the I/O privilege. -/
structure Entered (u : UserStatics) (s t : State) : Prop where
  out : t.out = s.out ++ switchMarks.map (Prod.mk 0xE9)
  eip : t.eip = u.userTask
  esp : t.regs .esp = u.userStackTop
  ring : cpl t = 3#2
  iopl : iopl t = 0#2
  interrupts : takesInterrupts t = true
  kept : ∀ a n, Spared u a n → Kept a n s.mem t.mem

/-- The flags that come from the frame: IF and the I/O privilege. -/
theorem iretFlags_user (f : BitVec 32) :
    (iretFlags 0x202 f).getLsbD 9 = true ∧ (iretFlags 0x202 f).extractLsb' 12 2 = 0#2 := by
  have hbit : ∀ i, i = 9 ∨ i = 12 ∨ i = 13 →
      (iretFlags 0x202 f).getLsbD i = (0x202#32).getLsbD i := by
    rintro i (rfl | rfl | rfl)
    all_goals simp [iretFlags]
  refine ⟨hbit 9 (.inl rfl), BitVec.eq_of_getLsbD_eq fun i hi => ?_⟩
  rw [BitVec.getLsbD_extractLsb', decide_eq_true hi, Bool.true_and]
  obtain rfl | rfl : i = 0 ∨ i = 1 := by omega
  · exact hbit 12 (.inr (.inl rfl))
  · exact hbit 13 (.inr (.inr rfl))

theorem switchToUserMode_entered (hring : cpl s = 0#2)
    (hsep : Sep (u.userStackTop - 20#32).toNat 20 u.returnEip 4) :
    Entered u s (switchToUserMode u s) := by
  have hstack := @atIret_stacked u s hsep
  have hout := @atIret_out u s
  have hsame := @atIret_cpl u s
  have hkept := fun a n (h : Spared u a n) => @atIret_kept u s a n h
  rw [switchToUserMode]
  obtain ⟨w, hw⟩ : ∃ w, atIret u s = w := ⟨_, rfl⟩
  rw [hw] at hstack hout hsame hkept ⊢
  have hcs : top (drop w) = 0x1B := by
    rw [top, drop_esp]
    exact hstack.2.1
  have hselector : rpl ((0x1B#32).setWidth 16) = 3#2 := by decide
  have houter : ¬rpl ((top (drop w)).setWidth 16) = cpl w := by
    rw [hcs, hsame, hring]
    decide
  rw [interruptReturn, if_neg houter, iretOuter_eq _ hstack]
  obtain ⟨hinterrupts, hiopl⟩ := iretFlags_user w.eflags
  exact ⟨hout, rfl, setReg_same .esp u.userStackTop w, hselector, hiopl, hinterrupts, hkept⟩

/-- Where port 0xE9 is open, every mark is written. -/
theorem writeMarks_allowed {r : SystemRegs} (cs : List (BitVec 8)) {t : State}
    (h : portAllowed r 0xE9 t = true) : writeMarks r cs t = .next (debugAll cs t) := by
  induction cs generalizing t with
  | nil => rfl
  | cons c cs ih =>
    have hnext : portAllowed r 0xE9 (debugPutchar c t) = true := h
    rw [writeMarks, outPort, if_pos h]
    exact ih hnext

/-- Outside Ring 0 it ends in a protection fault. -/
theorem userTask_faults {r : SystemRegs} {t : State} (h : portAllowed r 0xE9 t = true)
    (hring : cpl t ≠ 0#2) : userTask r t = .faults 13 0 (debugAll userMarks t) := by
  have houter : cpl (debugAll userMarks t) ≠ 0#2 := by rwa [cpl, debugAll_segs]
  rw [userTask, writeMarks_allowed userMarks h]
  exact hlt_outer houter

end Enter

/-- Wherever the linker has put the tables, the stacks and the variables, apart from each other:
once `kernel_main` has set the tables up and as long as no one else writes to them, a call of
`switch_to_user_mode` starts `user_task` in Ring 3 and ends, all marks written, with the report of
a protection fault and the machine stopped; no instruction behind the `iret` is reached. -/
theorem user_stops (st : Statics) (hlayout : Layout st) (u : UserStatics) (huser : UserLayout st u)
    (r : SystemRegs) (m : Mem) :
    ∃ m', initTables st r m = some (systemRegs st, m') ∧ ∀ s : State, TablesKept st m' s.mem →
      cpl s = 0#2 → ∀ back, Entered u s (switchToUserMode u s) ∧
        ∃ t, enterUser (systemRegs st) u back s = some t ∧
          t.out = s.out ++ (switchMarks ++ userMarks).map (Prod.mk 0xE9) ++ report 13 ∧
          Stopped t := by
  obtain ⟨m', hinit, hinstalled⟩ := initTables_installed hlayout r m
  refine ⟨m', hinit, fun s hkept hring back => ?_⟩
  have hin := switchToUserMode_entered (u := u) hring huser.frame
  refine ⟨hin, ?_⟩
  rw [enterUser]
  obtain ⟨t, ht⟩ : ∃ t, switchToUserMode u s = t := ⟨_, rfl⟩
  rw [ht] at hin ⊢
  have htables : TablesKept st m' t.mem :=
    ⟨hkept.tss.trans (hin.kept _ _ huser.tss), hkept.gdt.trans (hin.kept _ _ huser.gdt),
      hkept.idt.trans (hin.kept _ _ huser.idt)⟩
  have hopen : Open st.kernelStackTop 0xE9 := ⟨by decide, by decide, by omega⟩
  have hallowed : portAllowed (systemRegs st) 0xE9 t = true := by
    rw [portAllowed, (mapAllows_iff (hinstalled.kept htables)).mpr hopen, Bool.or_true]
  have houter : cpl t ≠ 0#2 := by
    rw [hin.ring]
    decide
  have hmarked : Installed st (stubs st m) (debugAll userMarks t).mem := by
    rw [debugAll_mem]
    exact hinstalled.kept htables
  obtain ⟨t', hstop, hout, hstopped⟩ :=
    exception_reported hmarked back (by decide : 13 < 32) 0
  refine ⟨t', ?_, ?_, hstopped⟩
  · rw [if_pos hin.eip, userTask_faults hallowed houter]
    exact hstop
  · rw [hout, debugAll_out, hin.out, List.map_append]
    simp only [List.append_assoc]

/-- Variables and stacks behind the tables. -/
def sampleUser : UserStatics := ⟨0x119000, 0x119004, 0x120000, 0x102000, 0x102040⟩

/-- The shell of a kernel with these addresses runs the command. -/
theorem user_stops_sample : ∃ m', initTables sampleStatics ⟨⟨0, 0⟩, ⟨0, 0⟩, ⟨0, 0⟩⟩
      (fun _ => 0) = some (systemRegs sampleStatics, m') ∧
    cpl (switchToUserMode sampleUser
      { setSeg .cs 0x08 userCode with mem := m', out := [] }) = 3#2 ∧
    ∃ t, enterUser (systemRegs sampleStatics) sampleUser 0
        { setSeg .cs 0x08 userCode with mem := m', out := [] } = some t ∧
      t.out = (switchMarks ++ userMarks).map (Prod.mk 0xE9) ++
        [(0x3F8, 0x45), (0x3F8, 0x31), (0x3F8, 0x33)] ∧ Stopped t := by
  have hspared : ∀ {a n : Nat}, 0x101000 ≤ a → a + n ≤ 0x118000 → Spared sampleUser a n := by
    intro a n hlow hhigh
    refine ⟨sep_of_ge ?_ (by decide), sep_of_ge ?_ (by decide), sep_of_ge ?_ (by decide)⟩
    · exact Nat.le_trans hhigh (by decide)
    · exact Nat.le_trans hhigh (by decide)
    · exact Nat.le_trans hhigh (by decide)
  have huser : UserLayout sampleStatics sampleUser :=
    ⟨hspared (by decide) (by decide), hspared (by decide) (by decide),
      hspared (by decide) (by decide), sep_of_ge (by decide) (by decide)⟩
  obtain ⟨m', hinit, hall⟩ := user_stops sampleStatics sampleStatics_layout sampleUser huser
    ⟨⟨0, 0⟩, ⟨0, 0⟩, ⟨0, 0⟩⟩ (fun _ => 0)
  have hkept : TablesKept sampleStatics m' m' := ⟨fun _ _ => rfl, fun _ _ => rfl, fun _ _ => rfl⟩
  have hring : cpl (setSeg .cs 0x08 userCode) = 0#2 := by decide
  obtain ⟨hin, hstops⟩ :=
    hall { setSeg .cs 0x08 userCode with mem := m', out := [] } hkept hring 0
  exact ⟨m', hinit, hin.ring, hstops⟩

end UserMode
