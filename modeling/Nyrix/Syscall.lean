import Nyrix.Base.BoundedLoop
import Nyrix.Base.IA32

/-!
# The system call entry (interrupts.asm, idt.cpp)

Ring 3 code passes a call number in `eax` and two arguments in `ebx` and `ecx`. The stub
writes debug marks to port 0xE9 through `al` and switches `ds` through `ax` before it stores
the three registers for `syscall_handler`. The waits for the UART end and are left out.
-/

namespace Syscall

open ByteMemory BoundedLoop IA32

/-- Where the linker put `syscall_eax`, `syscall_ebx` and `syscall_ecx`. -/
structure Globals where
  eax : Nat
  ebx : Nat
  ecx : Nat

def serialPutchar (c : BitVec 8) (s : State) : State :=
  let s := if c = 0x0A#8 then { s with out := s.out ++ [(0x3F8, 0x0D#8)] } else s
  { s with out := s.out ++ [(0x3F8, c)] }

/-- The marks are the letters H, W and D. -/
def syscallHandler (g : Globals) (s : State) : State :=
  let s := serialPutchar 0x48#8 s
  let syscallNo := load32 s.mem g.eax
  if syscallNo = 1#32 then
    let s := serialPutchar 0x57#8 s
    let str := load32 s.mem g.ebx
    let len := load32 s.mem g.ecx
    let s := forUp (fun i s => serialPutchar (load8 s.mem (str.toNat + i)) s) 0 len.toNat s
    serialPutchar 0x44#8 s
  else s

/-- The stub up to the point where the registers are saved. -/
def capture (g : Globals) : List Instr :=
  [ .movLow8 .eax 0x41
  , .outLow8 0xE9 .eax
  , .movLow16 .eax 0x10
  , .movSeg .ds .eax
  , .movLow8 .eax 0x42
  , .outLow8 0xE9 .eax
  , .storeAbs g.eax .eax
  , .storeAbs g.ebx .ebx
  , .storeAbs g.ecx .ecx
  , .movLow8 .eax 0x43
  , .outLow8 0xE9 .eax ]

def saveRegs : List Instr :=
  [ .push .eax, .push .ecx, .push .edx, .push .ebx, .push .ebp, .push .esi, .push .edi
  , .pushSeg .ds, .pushSeg .es, .pushSeg .fs, .pushSeg .gs ]

def toKernel : List Instr :=
  [ .movLow16 .eax 0x10
  , .movSeg .es .eax
  , .movSeg .fs .eax
  , .movSeg .gs .eax
  , .movLow8 .eax 0x44
  , .outLow8 0xE9 .eax ]

/-- Values the entry takes from the task segment, the gate and the code itself: the kernel
stack, the address of the stub and the return address of the call in it. -/
structure Entry where
  esp0 : BitVec 32
  stub : BitVec 32
  back : BitVec 32

/-- From `int 0x80` to the first instruction of `syscall_handler`. -/
def isrSyscall (g : Globals) (e : Entry) (s : State) : State :=
  push e.back (run (capture g ++ (saveRegs ++ toKernel)) (trapGate 0x10 0x08 e.esp0 e.stub s))

/-- The bytes sent on COM1. -/
def com1 (s : State) : List (BitVec 8) :=
  (s.out.filter (fun w => w.1 = 0x3F8)).map Prod.snd

/-- A byte as COM1 gets it. -/
def crlf (c : BitVec 8) : List (BitVec 8) := if c = 0x0A#8 then [0x0D#8, c] else [c]

/-- What a call is to send: the marks, and for call 1 the bytes between them. -/
def expected (m : Mem) (eax ebx ecx : BitVec 32) : List (BitVec 8) :=
  0x48#8 :: if eax = 1#32 then
    0x57#8 :: (List.range ecx.toNat).flatMap (fun i => crlf (load8 m (ebx.toNat + i))) ++ [0x44#8]
  else []

@[simp] theorem serialPutchar_mem (c : BitVec 8) (s : State) : (serialPutchar c s).mem = s.mem := by
  unfold serialPutchar
  split <;> rfl

@[simp] theorem com1_serialPutchar (c : BitVec 8) (s : State) :
    com1 (serialPutchar c s) = com1 s ++ crlf c := by
  by_cases h : c = 0x0A#8
  · simp [serialPutchar, com1, crlf, h]
  · simp [serialPutchar, com1, crlf, h]

/-- The write loop sends the bytes one after the other. -/
theorem writeLoop_spec (str : Nat) (n : Nat) (s : State) :
    (forUp (fun i s => serialPutchar (load8 s.mem (str + i)) s) 0 n s).mem = s.mem ∧
      com1 (forUp (fun i s => serialPutchar (load8 s.mem (str + i)) s) 0 n s) =
        com1 s ++ (List.range n).flatMap (fun i => crlf (load8 s.mem (str + i))) := by
  induction n with
  | zero => simp
  | succ n ih =>
    obtain ⟨hmem, hout⟩ := ih
    rw [forUp_succ_last, Nat.zero_add, serialPutchar_mem, com1_serialPutchar, hmem, hout,
      List.range_succ, List.flatMap_append]
    simp

/-- The handler sends what the call it finds in the three words asks for. -/
theorem syscallHandler_com1 (g : Globals) (s : State) :
    com1 (syscallHandler g s) = com1 s ++
      expected s.mem (load32 s.mem g.eax) (load32 s.mem g.ebx) (load32 s.mem g.ecx) := by
  have hmarks : crlf 0x48#8 = [0x48#8] ∧ crlf 0x57#8 = [0x57#8] ∧ crlf 0x44#8 = [0x44#8] := by
    decide
  obtain ⟨hH, hW, hD⟩ := hmarks
  by_cases h : load32 s.mem g.eax = 1#32
  · simp [syscallHandler, expected, h, writeLoop_spec, hH, hW, hD]
  · simp [syscallHandler, expected, h, hH]

/-- The three words are apart from each other and from the 68 bytes of kernel stack that the
entry takes. -/
structure Layout (g : Globals) (e : Entry) : Prop where
  room : 68 ≤ e.esp0.toNat
  eaxStack : Sep (e.esp0.toNat - 68) 68 g.eax 4
  ebxStack : Sep (e.esp0.toNat - 68) 68 g.ebx 4
  ecxStack : Sep (e.esp0.toNat - 68) 68 g.ecx 4
  eaxEbx : Sep g.ebx 4 g.eax 4
  eaxEcx : Sep g.ecx 4 g.eax 4
  ebxEcx : Sep g.ecx 4 g.ebx 4

/-- What the stub stores for `eax`: by then `al` and `ax` have been used. -/
def seenEax (eax : BitVec 32) : BitVec 32 := withLow16 eax 0x0042#16

theorem capture_spec (g : Globals) (s : State) :
    (run (capture g) s).mem = store32 (store32 (store32 s.mem g.eax (seenEax (s.regs .eax)))
      g.ebx (s.regs .ebx)) g.ecx (s.regs .ecx) ∧
      (run (capture g) s).regs .esp = s.regs .esp ∧ com1 (run (capture g) s) = com1 s := by
  have hseen : withLow8 (withLow16 (withLow8 (s.regs .eax) 0x41#8) 0x10#16) 0x42#8 =
      seenEax (s.regs .eax) := withLow8_withLow16_withLow8 _ _ _ _
  refine ⟨?_, ?_, ?_⟩
  · simp [capture, exec, hseen]
  · simp [capture, exec]
  · simp [capture, exec, com1]

theorem toKernel_spec (s : State) :
    (run toKernel s).mem = s.mem ∧ (run toKernel s).regs .esp = s.regs .esp ∧
      com1 (run toKernel s) = com1 s := by
  refine ⟨?_, ?_, ?_⟩
  · simp [toKernel, exec]
  · simp [toKernel, exec]
  · simp [toKernel, exec, com1]

section Entry

variable {g : Globals} {e : Entry}

/-- What `syscall_handler` finds in the three words, and what COM1 has got by then. -/
theorem isrSyscall_spec (h : Layout g e) (s : State) :
    load32 (isrSyscall g e s).mem g.eax = seenEax (s.regs .eax) ∧
      load32 (isrSyscall g e s).mem g.ebx = s.regs .ebx ∧
      load32 (isrSyscall g e s).mem g.ecx = s.regs .ecx ∧
      com1 (isrSyscall g e s) = com1 s := by
  have hroom := h.room
  obtain ⟨hesp₁, hregs₁, hout₁⟩ := trapGate_pushed (e.esp0.toNat - 68) 68
    0x10 0x08 e.esp0 e.stub s (by omega) (by omega)
  rw [isrSyscall, run_append, run_append]
  generalize trapGate 0x10 0x08 e.esp0 e.stub s = s₁ at hesp₁ hregs₁ hout₁ ⊢
  obtain ⟨hmem₂, hesp₂, hcom₂⟩ := capture_spec g s₁
  generalize run (capture g) s₁ = s₂ at hmem₂ hesp₂ hcom₂ ⊢
  rw [← hesp₂] at hesp₁
  have hlength : saveRegs.length = 11 := rfl
  have hp := pushed_run (e.esp0.toNat - 68) 68 (by omega) saveRegs (by decide)
    (pushed_refl _ _ s₂) (by rw [hlength]; omega)
  rw [hlength] at hp
  generalize run saveRegs s₂ = s₃ at hp ⊢
  obtain ⟨hmem₄, hesp₄, hcom₄⟩ := toKernel_spec s₃
  generalize run toKernel s₃ = s₄ at hmem₄ hesp₄ hcom₄ ⊢
  have hesp₃ := hp.esp
  rw [← hesp₄] at hesp₃
  obtain ⟨hframe₅, _⟩ := push_frame (e.esp0.toNat - 68) 68 e.back s₄ (by omega) (by omega)
  have hframe : Frame (e.esp0.toNat - 68) 68 s₂.mem (push e.back s₄).mem := by
    refine frame_trans ?_ hframe₅
    rw [hmem₄]
    exact hp.frame
  have hcom₃ : com1 s₃ = com1 s₂ := by rw [com1, hp.out, com1]
  have hcom₁ : com1 s₁ = com1 s := by rw [com1, hout₁, com1]
  have hcom : com1 (push e.back s₄) = com1 s :=
    calc com1 (push e.back s₄) = com1 s₄ := rfl
      _ = com1 s₃ := hcom₄
      _ = com1 s₂ := hcom₃
      _ = com1 s₁ := hcom₂
      _ = com1 s := hcom₁
  refine ⟨?_, ?_, ?_, hcom⟩
  · rw [load32_frame hframe h.eaxStack, hmem₂, load32_store32_of_sep _ _ _ _ h.eaxEcx,
      load32_store32_of_sep _ _ _ _ h.eaxEbx, load32_store32_same, hregs₁ _ (by decide)]
  · rw [load32_frame hframe h.ebxStack, hmem₂, load32_store32_of_sep _ _ _ _ h.ebxEcx,
      load32_store32_same, hregs₁ _ (by decide)]
  · rw [load32_frame hframe h.ecxStack, hmem₂, load32_store32_same, hregs₁ _ (by decide)]

/-- The handler observes the three registers as they were at `int 0x80`, and COM1 gets what
the call asks for. -/
structure Served (g : Globals) (e : Entry) (s : State) : Prop where
  eax : load32 (isrSyscall g e s).mem g.eax = s.regs .eax
  ebx : load32 (isrSyscall g e s).mem g.ebx = s.regs .ebx
  ecx : load32 (isrSyscall g e s).mem g.ecx = s.regs .ecx
  com1 : com1 (syscallHandler g (isrSyscall g e s)) =
    com1 s ++ expected s.mem (s.regs .eax) (s.regs .ebx) (s.regs .ecx)

/-- A system call is served as asked only if the low half of `eax` is 0x0042, which is what
the debug marks and the load of `ds` leave there. -/
theorem served_iff (h : Layout g e) (s : State) :
    Served g e s ↔ (s.regs .eax).setWidth 16 = 0x0042#16 := by
  obtain ⟨heax, hebx, hecx, hcom⟩ := isrSyscall_spec h s
  constructor
  · intro hs
    have hsame : seenEax (s.regs .eax) = s.regs .eax := by rw [← heax, hs.eax]
    exact (withLow16_eq_iff _ _).mp hsame
  · intro hlow
    have hsame : seenEax (s.regs .eax) = s.regs .eax := (withLow16_eq_iff _ _).mpr hlow
    have hne : s.regs .eax ≠ 1#32 := by
      intro hone
      rw [hone] at hlow
      exact absurd hlow (by decide)
    refine ⟨by rw [heax, hsame], hebx, hecx, ?_⟩
    rw [syscallHandler_com1, heax, hsame, hcom, expected, expected, if_neg hne, if_neg hne]

end Entry

/-- The three words at 0x120000 and a kernel stack that ends at 0x118000. -/
def sampleGlobals : Globals := ⟨0x120000, 0x120004, 0x120008⟩
def sampleEntry : Entry := ⟨0x118000, 0x101000, 0x101080⟩

theorem sampleLayout : Layout sampleGlobals sampleEntry :=
  ⟨by decide, sep_of_le (by decide) (by decide), sep_of_le (by decide) (by decide),
    sep_of_le (by decide) (by decide), sep_of_ge (by decide) (by decide),
    sep_of_ge (by decide) (by decide), sep_of_ge (by decide) (by decide)⟩

/-- Ring 3 code, with the selectors it is started with, about to write two bytes at 0x400000. -/
def userCode : State where
  regs := fun r => match r with
    | .eax => 1
    | .ebx => 0x400000
    | .ecx => 2
    | _ => 0
  segs := fun r => if r = .cs then 0x1B else 0x23
  eflags := 0x202
  eip := 0x400100
  mem := fun _ => 0x41
  out := []

theorem served_iff_userWrite :
    Served sampleGlobals sampleEntry userCode ↔ (1#32).setWidth 16 = 0x0042#16 :=
  served_iff sampleLayout userCode

/-- The handler sees call number 0x42 instead of 1, and the two bytes are not sent. -/
theorem userWrite_not_served :
    ¬Served sampleGlobals sampleEntry userCode ∧
      load32 (isrSyscall sampleGlobals sampleEntry userCode).mem sampleGlobals.eax = 0x42#32 ∧
      com1 (syscallHandler sampleGlobals (isrSyscall sampleGlobals sampleEntry userCode)) =
        [0x48#8] := by
  obtain ⟨heax, _, _, hcom⟩ := isrSyscall_spec sampleLayout userCode
  have hseen : seenEax (userCode.regs .eax) = 0x42#32 := by decide
  rw [hseen] at heax
  refine ⟨?_, heax, ?_⟩
  · intro hs
    have hone := heax.symm.trans hs.eax
    exact absurd hone (by decide)
  · rw [syscallHandler_com1, heax, hcom, expected, if_neg (by decide)]
    rfl

end Syscall
