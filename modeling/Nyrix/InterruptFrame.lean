import Nyrix.SchedulerTick
import Nyrix.SyscallReturn

/-!
# The frame of an interrupt (interrupts.asm, idt.h)

A stub pushes its vector, and a 0 where the CPU has pushed no error code. The code behind it
saves the registers, passes the address of all this to `fault_handler` or `irq_handler`, and
takes everything back from the stack.
-/

namespace InterruptFrame

open ByteMemory IA32 Scheduler
open Syscall (Entry sampleEntry userCode)

/-- The macros the stubs are made with. -/
inductive Stub where
  | isrNoErrcode (n : Nat)
  | isrErrcode (n : Nat)
  | irq (line n : Nat)

def isrStubTable : List Stub :=
  [ .isrNoErrcode 0, .isrNoErrcode 1, .isrNoErrcode 2, .isrNoErrcode 3, .isrNoErrcode 4
  , .isrNoErrcode 5, .isrNoErrcode 6, .isrNoErrcode 7, .isrErrcode 8, .isrNoErrcode 9
  , .isrErrcode 10, .isrErrcode 11, .isrErrcode 12, .isrErrcode 13, .isrErrcode 14
  , .isrNoErrcode 15, .isrNoErrcode 16, .isrErrcode 17, .isrNoErrcode 18, .isrNoErrcode 19
  , .isrNoErrcode 20, .isrNoErrcode 21, .isrNoErrcode 22, .isrNoErrcode 23, .isrNoErrcode 24
  , .isrNoErrcode 25, .isrNoErrcode 26, .isrNoErrcode 27, .isrNoErrcode 28, .isrNoErrcode 29
  , .isrErrcode 30, .isrNoErrcode 31
  , .irq 0 32, .irq 1 33, .irq 2 34, .irq 3 35, .irq 4 36, .irq 5 37, .irq 6 38, .irq 7 39
  , .irq 8 40, .irq 9 41, .irq 10 42, .irq 11 43, .irq 12 44, .irq 13 45, .irq 14 46, .irq 15 47 ]

/-- The words a stub pushes before it jumps to `isr_common` or `irq_common`. -/
def Stub.words : Stub → List (BitVec 32)
  | .isrNoErrcode n => [0, BitVec.ofNat 32 n]
  | .isrErrcode n => [BitVec.ofNat 32 n]
  | .irq _ n => [0, BitVec.ofNat 32 n]

def stubWords (vector : Nat) : List (BitVec 32) := (isrStubTable[vector]?.map Stub.words).getD []

/-- The vectors for which the CPU pushes an error code. -/
def HasErrorCode (vector : Nat) : Prop :=
  vector = 8 ∨ 10 ≤ vector ∧ vector ≤ 14 ∨ vector = 17 ∨ vector = 30

instance (vector : Nat) : Decidable (HasErrorCode vector) := inferInstanceAs (Decidable (_ ∨ _))

def errorWord (vector : Nat) (err : BitVec 32) : BitVec 32 :=
  if HasErrorCode vector then err else 0#32

/-- What the CPU does before the stub runs. -/
def raise (e : Entry) (vector : Nat) (err : BitVec 32) (s : IA32.State) : IA32.State :=
  let t := interruptGate 0x10 0x08 e.esp0 e.stub s
  if HasErrorCode vector then push err t else t

def commonExit (s : IA32.State) : IA32.State := interruptReturn Gdt.descriptors (commonRestore s)

/-- The state in which the handler is called. -/
def handlerEntry (e : Entry) (vector : Nat) (err : BitVec 32) (s : IA32.State) : IA32.State :=
  commonEntry e.back (pushAll (stubWords vector) (raise e vector err s))

structure Registers where
  gs : BitVec 32
  fs : BitVec 32
  es : BitVec 32
  ds : BitVec 32
  edi : BitVec 32
  esi : BitVec 32
  ebp : BitVec 32
  esp : BitVec 32
  ebx : BitVec 32
  edx : BitVec 32
  ecx : BitVec 32
  eax : BitVec 32
  intNo : BitVec 32
  errCode : BitVec 32
  eip : BitVec 32
  cs : BitVec 32
  eflags : BitVec 32
  useresp : BitVec 32
  ss : BitVec 32

/-- The structure at an address. -/
def registersAt (m : Mem) (a : Nat) : Registers where
  gs := load32 m a
  fs := load32 m (a + 4)
  es := load32 m (a + 8)
  ds := load32 m (a + 12)
  edi := load32 m (a + 16)
  esi := load32 m (a + 20)
  ebp := load32 m (a + 24)
  esp := load32 m (a + 28)
  ebx := load32 m (a + 32)
  edx := load32 m (a + 36)
  ecx := load32 m (a + 40)
  eax := load32 m (a + 44)
  intNo := load32 m (a + 48)
  errCode := load32 m (a + 52)
  eip := load32 m (a + 56)
  cs := load32 m (a + 60)
  eflags := load32 m (a + 64)
  useresp := load32 m (a + 68)
  ss := load32 m (a + 72)

/-- What the handler finds behind the pointer it gets. -/
def handlerRegisters (s : IA32.State) : Registers :=
  registersAt s.mem (load32 s.mem ((s.regs .esp).toNat + 4)).toNat

/-- The structure describes the interrupted state. -/
structure Describes (vector : Nat) (err : BitVec 32) (s : IA32.State) (r : Registers) : Prop where
  intNo : r.intNo = BitVec.ofNat 32 vector
  errCode : r.errCode = errorWord vector err
  eip : r.eip = s.eip
  cs : r.cs = (s.segs .cs).setWidth 32
  eflags : r.eflags = s.eflags
  edi : r.edi = s.regs .edi
  esi : r.esi = s.regs .esi
  ebp : r.ebp = s.regs .ebp
  ebx : r.ebx = s.regs .ebx
  edx : r.edx = s.regs .edx
  ecx : r.ecx = s.regs .ecx
  eax : r.eax = s.regs .eax
  ds : r.ds.setWidth 16 = s.segs .ds
  es : r.es.setWidth 16 = s.segs .es
  fs : r.fs.setWidth 16 = s.segs .fs
  gs : r.gs.setWidth 16 = s.segs .gs

/-- A data segment register of the interrupted code that comes back: any in Ring 0, elsewhere
one that holds 0 or a segment the ring may use. -/
def Held (s : IA32.State) (r : SReg) : Prop :=
  cpl s = 0#2 ∨ s.segs r = 0#16 ∨
    ¬Null (s.segs r) ∧ ¬Gdt.descriptors.Closed (cpl s) (s.segs r)

instance (s : IA32.State) (r : SReg) : Decidable (Held s r) :=
  inferInstanceAs (Decidable (_ ∨ _))

/-- A data segment register after the final `iret`. -/
def returned (s : IA32.State) (r : SReg) : BitVec 16 := if Held s r then s.segs r else 0#16

/-- The state after the final `iret`: the interrupted code goes on as it was, but for the
segment registers that are cleared. -/
structure Returned (s t : IA32.State) : Prop where
  regs : t.regs = s.regs
  eip : t.eip = s.eip
  eflags : t.eflags = s.eflags
  cs : t.segs .cs = s.segs .cs
  ss : t.segs .ss = s.segs .ss
  data : ∀ r, r ≠ .cs → r ≠ .ss → t.segs r = returned s r

/-- The words behind the return address and the pointer. -/
def frameWords (e : Entry) (vector : Nat) (err : BitVec 32) (s : IA32.State) : List (BitVec 32) :=
  [ (s.segs .gs).setWidth 32, (s.segs .fs).setWidth 32, (s.segs .es).setWidth 32
  , (s.segs .ds).setWidth 32, s.regs .edi, s.regs .esi, s.regs .ebp
  , (pushAll (stubWords vector) (raise e vector err s)).regs .esp
  , s.regs .ebx, s.regs .edx, s.regs .ecx, s.regs .eax, BitVec.ofNat 32 vector
  , errorWord vector err ] ++ gateFrame s

section Entry

variable (e : Entry) {vector : Nat} (err : BitVec 32) (s : IA32.State)

/-- Each stub makes up for the error code its vector lacks. -/
theorem stubWords_eq (hv : vector < 48) : stubWords vector =
    if HasErrorCode vector then [BitVec.ofNat 32 vector] else [0, BitVec.ofNat 32 vector] := by
  have hall : ∀ v < 48, stubWords v =
      if HasErrorCode v then [BitVec.ofNat 32 v] else [0, BitVec.ofNat 32 v] := by decide
  exact hall vector hv

theorem stub_raise (hv : vector < 48) : pushAll (stubWords vector) (raise e vector err s) =
    pushAll [errorWord vector err, BitVec.ofNat 32 vector]
      (interruptGate 0x10 0x08 e.esp0 e.stub s) := by
  rw [stubWords_eq hv, raise, errorWord]
  split_ifs
  · rfl
  · rfl

theorem gateFrame_length : (gateFrame s).length ≤ 5 := by
  rw [gateFrame]
  split_ifs
  · exact Nat.le_add_left 3 2
  · exact Nat.le_refl 5

/-- The stack when the handler is called: the second word points at the ones behind it. -/
theorem handlerEntry_stacked (hv : vector < 48) :
    Stacked (handlerEntry e vector err s).mem ((handlerEntry e vector err s).regs .esp)
      (e.back :: ((handlerEntry e vector err s).regs .esp + 8#32) ::
        frameWords e vector err s) := by
  have hshort := gateFrame_length s
  obtain ⟨t, ht⟩ : ∃ t, pushAll (stubWords vector) (raise e vector err s) = t := ⟨_, rfl⟩
  have hcodes := stacked_pushAll [errorWord vector err, BitVec.ofNat 32 vector]
    (interruptGate_stacked 0x10 0x08 e.esp0 e.stub s)
    (by simp only [List.length_cons, List.length_nil]; omega)
  rw [← stub_raise e err s hv, ht] at hcodes
  have hall := commonEntry_stacked e.back hcodes (by
    simp only [List.length_append, List.length_reverse, List.length_cons, List.length_nil]
    omega)
  have hreg : ∀ r, r ≠ .esp → t.regs r = s.regs r := by
    intro r hr
    rw [← ht, stub_raise e err s hv, pushAll_reg _ _ hr, interruptGate_reg _ _ _ _ _ hr]
  have hseg : ∀ r, r ≠ .cs → r ≠ .ss → t.segs r = s.segs r := by
    intro r hcs hss
    rw [← ht, stub_raise e err s hv, (pushAll_rest _ _).1, interruptGate_seg _ _ _ _ _ hcs hss]
  have hptr : t.regs .esp - 48#32 = (handlerEntry e vector err s).regs .esp + 8#32 := by
    rw [handlerEntry, ht, commonEntry_esp]
    bv_omega
  rw [hptr, hseg .gs (by decide) (by decide), hseg .fs (by decide) (by decide),
    hseg .es (by decide) (by decide), hseg .ds (by decide) (by decide), hreg .edi (by decide),
    hreg .esi (by decide), hreg .ebp (by decide), hreg .ebx (by decide), hreg .edx (by decide),
    hreg .ecx (by decide), hreg .eax (by decide)] at hall
  rw [frameWords, handlerEntry, ht] at *
  exact hall

theorem handlerEntry_describes (hv : vector < 48) :
    Describes vector err s (handlerRegisters (handlerEntry e vector err s)) := by
  have hst := handlerEntry_stacked e err s hv
  generalize handlerEntry e vector err s = a at hst ⊢
  have hptr : load32 a.mem ((a.regs .esp).toNat + 4) = a.regs .esp + 8#32 :=
    stacked_get hst (i := 1) rfl rfl
  have hword : ∀ {i v}, (frameWords e vector err s)[i]? = some v →
      load32 a.mem ((a.regs .esp + 8#32).toNat + 4 * i) = v := by
    intro i v hi
    refine stacked_get hst (i := i + 2) hi ?_
    rw [BitVec.toNat_add, Nat.mod_add_mod, BitVec.toNat_ofNat]
    congr 1
    omega
  have hgate : ∀ {i v}, (gateFrame s)[i]? = some v →
      load32 a.mem ((a.regs .esp + 8#32).toNat + 4 * (i + 14)) = v := by
    intro i v hi
    exact hword hi
  rw [handlerRegisters, hptr]
  exact
    { intNo := hword (i := 12) rfl
      errCode := hword (i := 13) rfl
      eip := hgate (i := 0) rfl
      cs := hgate (i := 1) rfl
      eflags := hgate (i := 2) rfl
      edi := hword (i := 4) rfl
      esi := hword (i := 5) rfl
      ebp := hword (i := 6) rfl
      ebx := hword (i := 8) rfl
      edx := hword (i := 9) rfl
      ecx := hword (i := 10) rfl
      eax := hword (i := 11) rfl
      ds := (congrArg (BitVec.setWidth 16) (hword (i := 3) rfl)).trans (setWidth_setWidth_16 _)
      es := (congrArg (BitVec.setWidth 16) (hword (i := 2) rfl)).trans (setWidth_setWidth_16 _)
      fs := (congrArg (BitVec.setWidth 16) (hword (i := 1) rfl)).trans (setWidth_setWidth_16 _)
      gs := (congrArg (BitVec.setWidth 16) (hword (i := 0) rfl)).trans (setWidth_setWidth_16 _) }

end Entry

/-- What the pushes up to the handler leave alone. -/
structure Entered (g a : IA32.State) : Prop where
  esp : a.regs .esp = g.regs .esp - 64#32
  eflags : a.eflags = g.eflags
  cs : a.segs .cs = g.segs .cs
  ss : a.segs .ss = g.segs .ss

theorem handlerEntry_entered (e : Entry) {vector : Nat} (err : BitVec 32) (s : IA32.State)
    (hv : vector < 48) :
    Entered (interruptGate 0x10 0x08 e.esp0 e.stub s) (handlerEntry e vector err s) := by
  rw [handlerEntry, stub_raise e err s hv]
  generalize interruptGate 0x10 0x08 e.esp0 e.stub s = g
  obtain ⟨hsegs, hflags, _⟩ := pushAll_rest [errorWord vector err, BitVec.ofNat 32 vector] g
  obtain ⟨hflags', hcs', hss', _⟩ := commonEntry_rest e.back
    (pushAll [errorWord vector err, BitVec.ofNat 32 vector] g)
  refine ⟨?_, ?_, ?_, ?_⟩
  · rw [commonEntry_esp, pushAll_esp, BitVec.sub_sub]
    rfl
  · rw [hflags', hflags]
  · rw [hcs', hsegs]
  · rw [hss', hsegs]

section Return

variable {e : Entry} {vector : Nat} {err : BitVec 32} {s t : IA32.State}

/-- The flags compiled code leaves alone, after the flags the gate clears. -/
theorem flags_kept {f f' f₀ : BitVec 32} (h : f' &&& ~~~0x003D3FD5#32 = f &&& ~~~0x003D3FD5#32)
    (hf : f = f₀ &&& ~~~0x00034300#32) :
    f' &&& ~~~0x003D7FD5#32 = f₀ &&& ~~~0x00034300#32 &&& ~~~0x003D7FD5#32 := by
  have hmask : ~~~0x003D7FD5#32 = ~~~0x003D3FD5#32 &&& ~~~0x003D7FD5#32 := by decide
  rw [hmask, ← BitVec.and_assoc, h, hf, BitVec.and_assoc]

/-- The state in front of the final `iret`. -/
structure Restored (s t u : IA32.State) : Prop where
  regs : ∀ r, r ≠ .esp → u.regs r = s.regs r
  esp : u.regs .esp = t.regs .esp + 60#32
  data : ∀ r, r ≠ .cs → r ≠ .ss → u.segs r = s.segs r
  cs : u.segs .cs = t.segs .cs
  ss : u.segs .ss = t.segs .ss
  eflags : u.eflags = t.eflags
  frame : Stacked u.mem (u.regs .esp) (gateFrame s)

theorem commonRestore_restored (hv : vector < 48)
    (ht : CdeclReturn 1 (frameWords e vector err s).length (handlerEntry e vector err s) t) :
    Restored s t (commonRestore t) := by
  have hback := ht.stacked [_] rfl (handlerEntry_stacked e err s hv)
  obtain ⟨hu, hframe⟩ := commonRestore_eq hback
  rw [hu]
  refine ⟨fun r hr => ?_, rfl, fun r hcs hss => ?_, rfl, rfl, rfl, hframe⟩
  · cases r with
    | esp => exact absurd rfl hr
    | _ => rfl
  · cases r with
    | cs => exact absurd rfl hcs
    | ss => exact absurd rfl hss
    | _ => exact setWidth_setWidth_16 _

theorem returned_inner (r : SReg) (h : cpl s = 0#2) : returned s r = s.segs r := if_pos (.inl h)

/-- Outside Ring 0 it is what `iret` makes of the register. -/
theorem returned_outer (r : SReg) (h : cpl s ≠ 0#2) :
    returned s r = Gdt.descriptors.clear (cpl s) (s.segs r) := by
  rw [returned, Descriptors.clear]
  split_ifs with hheld hclosed
  · obtain hinner | hzero | ⟨hnull, hopen⟩ := hheld
    · exact absurd hinner h
    · exact hzero
    · exact absurd hclosed (by simp only [hnull, hopen, or_self, not_false_iff])
  · rfl
  · rfl
  · exact absurd (.inr (.inr (not_or.mp ‹_›))) hheld

/-- Whatever the handler did to the other registers, the interrupted code goes on. -/
theorem commonExit_returned (hv : vector < 48) (hvm : s.eflags &&& 0x00020000#32 = 0#32)
    (ht : CdeclReturn 1 (frameWords e vector err s).length (handlerEntry e vector err s) t) :
    Returned s (commonExit t) := by
  have hin := handlerEntry_entered e err s hv
  have hu := commonRestore_restored hv ht
  rw [commonExit]
  generalize commonRestore t = u at hu ⊢
  have hflags : iretFlags s.eflags u.eflags = s.eflags := by
    rw [hu.eflags]
    exact iretFlags_restore hvm (flags_kept ht.flags
      (hin.eflags.trans (interruptGate_eflags _ _ _ _ s)))
  have hstack := hu.frame
  have hcs : top (drop u) = (s.segs .cs).setWidth 32 := by
    rw [top, drop_esp]
    exact hstack.2.1
  have hring : rpl ((top (drop u)).setWidth 16) = cpl s := by rw [hcs, setWidth_setWidth_16, cpl]
  have hucpl : cpl u = 0#2 := by
    rw [cpl, hu.cs, ht.segs, hin.cs, interruptGate_cs]
    rfl
  rw [gateFrame] at hstack
  rw [interruptReturn, hring, hucpl]
  by_cases hinner : cpl s = 0#2
  · obtain ⟨hsame, hesp⟩ := interruptGate_inner 0x10 0x08 e.esp0 e.stub s hinner
    rw [if_pos hinner] at hstack
    rw [if_pos hinner, iret_eq hstack]
    refine ⟨funext fun r => ?_, rfl, hflags, setWidth_setWidth_16 _, ?_, fun r hcs hss => ?_⟩
    · cases r with
      | esp =>
        dsimp only
        rw [Function.update_self, hu.esp, ht.esp, hin.esp, ← hesp]
        bv_omega
      | _ => exact hu.regs _ (by decide)
    · dsimp only
      rw [Function.update_of_ne (by decide), hu.ss, ht.segs, hin.ss, hsame]
    · dsimp only
      rw [Function.update_of_ne hcs, hu.data r hcs hss, returned_inner r hinner]
  · rw [if_neg hinner] at hstack
    rw [if_neg hinner, iretOuter_eq Gdt.descriptors hstack]
    refine ⟨funext fun r => ?_, rfl, hflags, setWidth_setWidth_16 _, setWidth_setWidth_16 _,
      fun r hcs hss => ?_⟩
    · cases r with
      | esp =>
        dsimp only
        rw [Function.update_self]
      | _ => exact hu.regs _ (by decide)
    · have hdata := hu.data r hcs hss
      rw [returned_outer r hinner, ← hdata, cpl]
      dsimp only
      rw [setWidth_setWidth_16]
      cases r with
      | cs => exact absurd rfl hcs
      | ss => exact absurd rfl hss
      | _ => rfl

end Return

/-- The handler sees the interrupted state in the structure it gets, and when it returns without
having changed it, the interrupted code goes on, but for the data segment registers that `iret`
clears. -/
theorem interrupt_transparent (e : Entry) {vector : Nat} (err : BitVec 32) (s : IA32.State)
    (hv : vector < 48) (hvm : s.eflags &&& 0x00020000#32 = 0#32) :
    Describes vector err s (handlerRegisters (handlerEntry e vector err s)) ∧
      ∀ t, CdeclReturn 1 (frameWords e vector err s).length (handlerEntry e vector err s) t →
        Returned s (commonExit t) :=
  ⟨handlerEntry_describes e err s hv, fun _ ht => commonExit_returned hv hvm ht⟩

/-- The timer interrupts Ring 3 code. -/
theorem interrupt_transparent_user :
    Describes 32 0 userCode (handlerRegisters (handlerEntry sampleEntry 32 0 userCode)) ∧
      ∀ t, CdeclReturn 1 (frameWords sampleEntry 32 0 userCode).length
        (handlerEntry sampleEntry 32 0 userCode) t → Returned userCode (commonExit t) :=
  interrupt_transparent sampleEntry 0 userCode (by decide) (by decide)

/-- Ring 3 code with the null selector 3 in `gs`, which comes back as 0. -/
theorem nullSelector_lost : ¬∀ (e : Entry) (vector : Nat) (err : BitVec 32) (s : IA32.State),
    vector < 48 → s.eflags &&& 0x00020000#32 = 0#32 →
    ∀ t, CdeclReturn 1 (frameWords e vector err s).length (handlerEntry e vector err s) t →
      ∀ r, r ≠ .cs → r ≠ .ss → (commonExit t).segs r = s.segs r := by
  intro h
  have hsame := h sampleEntry 32 0 (setSeg .gs 3 userCode) (by decide) (by decide) _
    (ret_cdecl _ _ _) .gs (by decide) (by decide)
  have hlost := (commonExit_returned (by decide) (by decide)
    (ret_cdecl 1 (frameWords sampleEntry 32 0 (setSeg .gs 3 userCode)).length
      (handlerEntry sampleEntry 32 0 (setSeg .gs 3 userCode)))).data .gs (by decide) (by decide)
  rw [hsame] at hlost
  exact absurd hlost (by decide)

end InterruptFrame
