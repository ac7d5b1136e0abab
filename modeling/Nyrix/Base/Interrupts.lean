import Nyrix.Base.IA32

/-!
# Interrupts on IA-32

Ring 0 code is interrupted and resumed on its own stack. The words on a stack are a list, top
first; pushes and pops read and write its front, and memory apart from the stack leaves it
alone.
-/

namespace IA32

open ByteMemory

/-- Entry through a 32-bit interrupt gate from ring 0: TF, IF, NT, RF and VM are cleared. -/
def intGate (cs0 : BitVec 16) (entry : BitVec 32) (s : State) : State :=
  let t := pushAll [s.eflags, (s.segs .cs).setWidth 32, s.eip] s
  { setSeg .cs cs0 t with eflags := s.eflags &&& ~~~0x00034300#32, eip := entry }

def pusha (s : State) : State :=
  pushAll [s.regs .eax, s.regs .ecx, s.regs .edx, s.regs .ebx, s.regs .esp, s.regs .ebp,
    s.regs .esi, s.regs .edi] s

/-- The stack pointer on the stack is skipped. -/
def popa (s : State) : State :=
  run [.pop .ebx, .pop .edx, .pop .ecx, .pop .eax] (drop (run [.pop .edi, .pop .esi, .pop .ebp] s))

/-- What `iret` makes of the flags in ring 0: VM and the reserved bits stay. -/
def iretFlags (image f : BitVec 32) : BitVec 32 :=
  image &&& 0x003D7FD5#32 ||| f &&& ~~~0x003D7FD5#32

def iret (s : State) : State :=
  let t := drop (drop (drop s))
  { setSeg .cs ((top (drop s)).setWidth 16) t with
    eip := top s
    eflags := iretFlags (top (drop (drop s))) s.eflags }

/-- The words on a stack, from the top on. -/
def Stacked (m : Mem) : BitVec 32 → List (BitVec 32) → Prop
  | _, [] => True
  | esp, v :: vs => load32 m esp.toNat = v ∧ Stacked m (esp + 4#32) vs

section Stacked

variable {m m' : Mem} {esp : BitVec 32} {vs : List (BitVec 32)}

theorem toNat_add_four (x : BitVec 32) : (x + 4#32).toNat = (x.toNat + 4) % 4294967296 := by
  rw [BitVec.toNat_add]
  rfl

/-- An address and its remainder stand for the same region. -/
theorem sep_mod {a n b k : Nat} : Sep a n (b % 4294967296) k ↔ Sep a n b k := by
  simp only [ByteMemory.Sep, Nat.mod_add_mod]

theorem stacked_frame {a n : Nat} (hframe : Frame a n m m') (h : Stacked m esp vs)
    (hsep : Sep a n esp.toNat (4 * vs.length)) : Stacked m' esp vs := by
  induction vs generalizing esp with
  | nil => trivial
  | cons v vs ih =>
    rw [List.length_cons] at hsep
    obtain ⟨htop, hrest⟩ := h
    refine ⟨?_, ih hrest ?_⟩
    · rw [load32_frame hframe (sep_front hsep 4 (by omega)), htop]
    · rw [toNat_add_four, sep_mod]
      exact sep_right hsep 4 (4 * vs.length) (by omega)

/-- Any word of the stack, by its distance from the top. -/
theorem stacked_get (h : Stacked m esp vs) {i : Nat} {v : BitVec 32} (hi : vs[i]? = some v)
    {a : Nat} (ha : a % 4294967296 = (esp.toNat + 4 * i) % 4294967296) : load32 m a = v := by
  induction vs generalizing esp i with
  | nil => exact absurd hi (by simp)
  | cons w vs ih =>
    cases i with
    | zero =>
      rw [List.getElem?_cons_zero, Option.some.injEq] at hi
      rw [← load32_mod, ha, Nat.mul_zero, Nat.add_zero, load32_mod, h.1, hi]
    | succ i =>
      rw [List.getElem?_cons_succ] at hi
      refine ih h.2 hi ?_
      rw [toNat_add_four, Nat.mod_add_mod, ha]
      congr 1
      omega

/-- The stack without its first words. -/
theorem stacked_drop (h : Stacked m esp vs) (n : Nat) :
    Stacked m (esp + BitVec.ofNat 32 (4 * n)) (vs.drop n) := by
  induction n generalizing esp vs with
  | zero =>
    rw [Nat.mul_zero, List.drop_zero]
    exact (BitVec.add_zero esp).symm ▸ h
  | succ n ih =>
    cases vs with
    | nil => trivial
    | cons v vs =>
      have hcount : 4 * (n + 1) = 4 + 4 * n := by omega
      rw [List.drop_succ_cons, hcount, BitVec.ofNat_add, ← BitVec.add_assoc]
      exact ih h.2

theorem stacked_push {s : State} (v : BitVec 32) (h : Stacked s.mem (s.regs .esp) vs)
    (hlen : 4 * vs.length + 4 ≤ 4294967296) :
    Stacked (push v s).mem ((push v s).regs .esp) (v :: vs) := by
  have hback : s.regs .esp - 4#32 + 4#32 = s.regs .esp := BitVec.sub_add_cancel _ _
  constructor
  · rw [push_mem, push_esp, load32_store32_same]
  · rw [push_mem, push_esp, hback]
    refine stacked_frame (store32_frame _ _ _) h ?_
    have hnext := toNat_add_four (s.regs .esp - 4#32)
    rw [hback] at hnext
    rw [hnext, sep_mod]
    have hoff := sep_of_offset (a := (s.regs .esp - 4#32).toNat) (i := 0) (n := 4) (j := 4)
      (k := 4 * vs.length) (.inl (by decide)) (by decide) (by omega)
    rwa [Nat.add_zero] at hoff

theorem stacked_pushAll (ws : List (BitVec 32)) {s : State} (h : Stacked s.mem (s.regs .esp) vs)
    (hlen : 4 * (ws.length + vs.length) ≤ 4294967296) :
    Stacked (pushAll ws s).mem ((pushAll ws s).regs .esp) (ws.reverse ++ vs) := by
  induction ws generalizing s vs with
  | nil => exact h
  | cons w ws ih =>
    rw [List.length_cons] at hlen
    have hpush := stacked_push w h (by omega)
    have hrest := ih hpush (by rw [List.length_cons]; omega)
    rwa [List.reverse_cons, List.append_assoc]

end Stacked

section Ret

variable (s : State)

theorem ret_esp : (exec .ret s).regs .esp = s.regs .esp + 4#32 := drop_esp s
theorem ret_mem : (exec .ret s).mem = s.mem := rfl

end Ret

section Push

variable (ws : List (BitVec 32)) (s : State)

theorem pushAll_esp : (pushAll ws s).regs .esp = s.regs .esp - BitVec.ofNat 32 (4 * ws.length) := by
  induction ws generalizing s with
  | nil => exact (BitVec.sub_zero _).symm
  | cons w ws ih =>
    have hstep : pushAll (w :: ws) s = pushAll ws (push w s) := rfl
    have hcount : 4 * (ws.length + 1) = 4 + 4 * ws.length := by omega
    rw [hstep, ih, push_esp, List.length_cons, hcount, BitVec.ofNat_add, BitVec.sub_sub]

theorem pushAll_reg {r : Reg} (hr : r ≠ .esp) : (pushAll ws s).regs r = s.regs r := by
  induction ws generalizing s with
  | nil => rfl
  | cons w ws ih => exact (ih (push w s)).trans (push_reg r w s hr)

/-- Pushes leave everything but the stack alone. -/
theorem pushAll_rest : (pushAll ws s).segs = s.segs ∧ (pushAll ws s).eflags = s.eflags ∧
    (pushAll ws s).eip = s.eip ∧ (pushAll ws s).out = s.out := by
  induction ws generalizing s with
  | nil => exact ⟨rfl, rfl, rfl, rfl⟩
  | cons w ws ih => exact ih (push w s)

end Push

section Entry

variable (cs0 : BitVec 16) (entry : BitVec 32) {s : State} {vs : List (BitVec 32)}

theorem intGate_stacked (h : Stacked s.mem (s.regs .esp) vs)
    (hlen : 4 * vs.length + 12 ≤ 4294967296) :
    Stacked (intGate cs0 entry s).mem ((intGate cs0 entry s).regs .esp)
      (s.eip :: (s.segs .cs).setWidth 32 :: s.eflags :: vs) := by
  refine stacked_pushAll [s.eflags, (s.segs .cs).setWidth 32, s.eip] h ?_
  rw [List.length_cons, List.length_cons, List.length_singleton]
  omega

theorem intGate_esp : (intGate cs0 entry s).regs .esp = s.regs .esp - 12#32 :=
  pushAll_esp [s.eflags, (s.segs .cs).setWidth 32, s.eip] s

theorem intGate_reg {r : Reg} (hr : r ≠ .esp) : (intGate cs0 entry s).regs r = s.regs r :=
  pushAll_reg [s.eflags, (s.segs .cs).setWidth 32, s.eip] s hr

theorem intGate_seg {r : SReg} (hr : r ≠ .cs) : (intGate cs0 entry s).segs r = s.segs r :=
  Function.update_of_ne hr _ _

theorem pusha_stacked (h : Stacked s.mem (s.regs .esp) vs)
    (hlen : 4 * vs.length + 32 ≤ 4294967296) :
    Stacked (pusha s).mem ((pusha s).regs .esp)
      (s.regs .edi :: s.regs .esi :: s.regs .ebp :: s.regs .esp :: s.regs .ebx :: s.regs .edx ::
        s.regs .ecx :: s.regs .eax :: vs) := by
  refine stacked_pushAll [s.regs .eax, s.regs .ecx, s.regs .edx, s.regs .ebx, s.regs .esp,
    s.regs .ebp, s.regs .esi, s.regs .edi] h ?_
  simp only [List.length_cons, List.length_nil]
  omega

end Entry

/-- `popa` on a stack with eight words to pop. -/
theorem popa_eq {s : State} {edi esi ebp esp ebx edx ecx eax : BitVec 32} {vs : List (BitVec 32)}
    (h : Stacked s.mem (s.regs .esp) (edi :: esi :: ebp :: esp :: ebx :: edx :: ecx :: eax :: vs)) :
    popa s = { s with regs := fun r => match r with
      | .edi => edi
      | .esi => esi
      | .ebp => ebp
      | .esp => s.regs .esp + 32#32
      | .ebx => ebx
      | .edx => edx
      | .ecx => ecx
      | .eax => eax } := by
  obtain ⟨hedi, hesi, hebp, _, hebx, hedx, hecx, heax, -⟩ := h
  have hregs : (popa s).regs = fun r => match r with
      | .edi => edi
      | .esi => esi
      | .ebp => ebp
      | .esp => s.regs .esp + 32#32
      | .ebx => ebx
      | .edx => edx
      | .ecx => ecx
      | .eax => eax := by
    funext r
    cases r with
    | esp =>
      simp only [popa, run_cons, run_nil, exec, setReg_other, drop_esp, ne_eq, reduceCtorEq,
        not_false_eq_true, BitVec.add_assoc]
      rfl
    | _ => simp [popa, exec, top, hedi, hesi, hebp, hebx, hedx, hecx, heax, -BitVec.toNat_add]
  rw [← hregs]
  rfl

/-- Stack words dropped one after the other. -/
theorem setReg_setReg (r : Reg) (v w : BitVec 32) (s : State) :
    setReg r w (setReg r v s) = setReg r w s := by
  rw [setReg, setReg, setReg, Function.update_idem]

theorem drop_drop (s : State) : drop (drop s) = setReg .esp (s.regs .esp + 8#32) s := by
  rw [drop, drop_esp, BitVec.add_assoc]
  exact setReg_setReg .esp _ _ s

theorem iret_eq {s : State} {eip cs flags : BitVec 32} {vs : List (BitVec 32)}
    (h : Stacked s.mem (s.regs .esp) (eip :: cs :: flags :: vs)) :
    iret s = { s with
      regs := Function.update s.regs .esp (s.regs .esp + 12#32)
      segs := Function.update s.segs .cs (cs.setWidth 16)
      eip := eip
      eflags := iretFlags flags s.eflags } := by
  obtain ⟨heip, hcs, hflags, -⟩ := h
  have hthird : drop (drop (drop s)) = setReg .esp (s.regs .esp + 12#32) s := by
    rw [drop_drop, drop_esp, drop, setReg_setReg, BitVec.add_assoc]
    rfl
  have htop : top s = eip := heip
  have htop' : top (drop s) = cs := by rwa [top, drop_esp, drop_mem]
  have htop'' : top (drop (drop s)) = flags := by rwa [top, drop_esp, drop_esp, drop_mem, drop_mem]
  rw [iret, hthird, htop, htop', htop'']
  rfl

/-- Flags that went through an interrupt and its `iret` are the same again. -/
theorem iretFlags_intGate {f : BitVec 32} (h : Plain f) :
    iretFlags f (f &&& ~~~0x00034300#32) = f := by
  have hnot : ~~~0x00034300#32 &&& ~~~0x003D7FD5#32 = ~~~0x003F7FD5#32 := by decide
  rw [iretFlags, BitVec.and_assoc, hnot]
  exact and_or_and_not h (by decide)

end IA32
