import Nyrix.Base.ByteMemory

/-!
# A part of the IA-32 instruction set

The instructions hand-written entry code uses, for 32-bit operands in a flat address
space. Code is a list of instructions that run one after the other; `ret` sets `eip`.
Writes to ports are collected in order.
-/

namespace IA32

open ByteMemory

inductive Reg where
  | eax | ecx | edx | ebx | esp | ebp | esi | edi
  deriving DecidableEq

inductive SReg where
  | es | cs | ss | ds | fs | gs
  deriving DecidableEq

structure State where
  regs : Reg → BitVec 32
  segs : SReg → BitVec 16
  eflags : BitVec 32
  eip : BitVec 32
  mem : Mem
  /-- Port and byte of every `out`, oldest first. -/
  out : List (Nat × BitVec 8)

def setReg (r : Reg) (v : BitVec 32) (s : State) : State :=
  { s with regs := Function.update s.regs r v }

def setSeg (r : SReg) (v : BitVec 16) (s : State) : State :=
  { s with segs := Function.update s.segs r v }

/-- Replace the low half of a register. -/
def withLow16 (x : BitVec 32) (v : BitVec 16) : BitVec 32 := x.extractLsb' 16 16 ++ v

/-- Replace the low byte of a register. -/
def withLow8 (x : BitVec 32) (v : BitVec 8) : BitVec 32 := x.extractLsb' 8 24 ++ v

/-- The address of the operand `[base + disp]`. -/
def operand (base : Reg) (disp : Nat) (s : State) : Nat := (s.regs base).toNat + disp

/-- The word on top of the stack. -/
def top (s : State) : BitVec 32 := load32 s.mem (s.regs .esp).toNat

def push (v : BitVec 32) (s : State) : State :=
  let esp := s.regs .esp - 4#32
  { setReg .esp esp s with mem := store32 s.mem esp.toNat v }

def pushAll (vs : List (BitVec 32)) (s : State) : State := vs.foldl (fun s v => push v s) s

def drop (s : State) : State := setReg .esp (s.regs .esp + 4#32) s

/-- What `pushfd` writes: VM and RF read as 0. -/
def pushImage (f : BitVec 32) : BitVec 32 := f &&& 0x00FCFFFF#32

/-- What `popfd` makes of the flags in ring 0: VM, VIF, VIP and the reserved bits stay, RF
is cleared. -/
def popFlags (image f : BitVec 32) : BitVec 32 :=
  image &&& 0x00247FD5#32 ||| f &&& ~~~0x00257FD5#32

inductive Instr where
  | load (dst base : Reg) (disp : Nat)
  | store (base : Reg) (disp : Nat) (src : Reg)
  | storeAbs (addr : Nat) (src : Reg)
  | lea (dst base : Reg) (disp : Nat)
  | movLow16 (dst : Reg) (v : BitVec 16)
  | movLow8 (dst : Reg) (v : BitVec 8)
  | movSeg (dst : SReg) (src : Reg)
  | push (src : Reg)
  | pushMem (base : Reg) (disp : Nat)
  | pushSeg (src : SReg)
  | pop (dst : Reg)
  | popMem (base : Reg) (disp : Nat)
  | popSeg (dst : SReg)
  | pushfd
  | popfd
  | outLow8 (port : Nat) (src : Reg)
  | ret
  deriving DecidableEq

def exec : Instr → State → State
  | .load dst base disp, s => setReg dst (load32 s.mem (operand base disp s)) s
  | .store base disp src, s => { s with mem := store32 s.mem (operand base disp s) (s.regs src) }
  | .storeAbs addr src, s => { s with mem := store32 s.mem addr (s.regs src) }
  | .lea dst base disp, s => setReg dst (s.regs base + BitVec.ofNat 32 disp) s
  | .movLow16 dst v, s => setReg dst (withLow16 (s.regs dst) v) s
  | .movLow8 dst v, s => setReg dst (withLow8 (s.regs dst) v) s
  | .movSeg dst src, s => setSeg dst ((s.regs src).setWidth 16) s
  | .push src, s => IA32.push (s.regs src) s
  | .pushMem base disp, s => IA32.push (load32 s.mem (operand base disp s)) s
  | .pushSeg src, s => IA32.push ((s.segs src).setWidth 32) s
  | .pop dst, s => setReg dst (top s) (drop s)
  -- the operand address is computed with the stack pointer already moved
  | .popMem base disp, s =>
    { drop s with mem := store32 s.mem (operand base disp (drop s)) (top s) }
  | .popSeg dst, s => setSeg dst ((top s).setWidth 16) (drop s)
  | .pushfd, s => IA32.push (pushImage s.eflags) s
  | .popfd, s => { drop s with eflags := popFlags (top s) s.eflags }
  | .outLow8 port src, s => { s with out := s.out ++ [(port, (s.regs src).setWidth 8)] }
  | .ret, s => { drop s with eip := top s }

def run (code : List Instr) (s : State) : State := code.foldl (fun s i => exec i s) s

@[simp] theorem run_nil (s : State) : run [] s = s := rfl

@[simp] theorem run_cons (i : Instr) (code : List Instr) (s : State) :
    run (i :: code) s = run code (exec i s) := rfl

theorem run_append (code code' : List Instr) (s : State) :
    run (code ++ code') s = run code' (run code s) := List.foldl_append

section State

variable (r q : Reg) (g h : SReg) (v : BitVec 32) (x : BitVec 16) (s : State)

@[simp] theorem setReg_same : (setReg r v s).regs r = v := Function.update_self _ _ _
@[simp] theorem setReg_other (hq : q ≠ r) : (setReg r v s).regs q = s.regs q :=
  Function.update_of_ne hq _ _
@[simp] theorem setReg_segs : (setReg r v s).segs = s.segs := rfl
@[simp] theorem setReg_eflags : (setReg r v s).eflags = s.eflags := rfl
@[simp] theorem setReg_eip : (setReg r v s).eip = s.eip := rfl
@[simp] theorem setReg_mem : (setReg r v s).mem = s.mem := rfl
@[simp] theorem setReg_out : (setReg r v s).out = s.out := rfl

@[simp] theorem top_setReg (hr : Reg.esp ≠ r) : top (setReg r v s) = top s := by
  rw [top, setReg_other _ _ _ _ hr, setReg_mem, top]

@[simp] theorem setSeg_same : (setSeg g x s).segs g = x := Function.update_self _ _ _
@[simp] theorem setSeg_other (hg : h ≠ g) : (setSeg g x s).segs h = s.segs h :=
  Function.update_of_ne hg _ _
@[simp] theorem setSeg_regs : (setSeg g x s).regs = s.regs := rfl
@[simp] theorem setSeg_eflags : (setSeg g x s).eflags = s.eflags := rfl
@[simp] theorem setSeg_eip : (setSeg g x s).eip = s.eip := rfl
@[simp] theorem setSeg_mem : (setSeg g x s).mem = s.mem := rfl
@[simp] theorem setSeg_out : (setSeg g x s).out = s.out := rfl

@[simp] theorem drop_esp : (drop s).regs .esp = s.regs .esp + 4#32 := setReg_same _ _ _
@[simp] theorem drop_reg (hq : q ≠ .esp) : (drop s).regs q = s.regs q := setReg_other _ _ _ _ hq
@[simp] theorem drop_segs : (drop s).segs = s.segs := rfl
@[simp] theorem drop_eflags : (drop s).eflags = s.eflags := rfl
@[simp] theorem drop_eip : (drop s).eip = s.eip := rfl
@[simp] theorem drop_mem : (drop s).mem = s.mem := rfl
@[simp] theorem drop_out : (drop s).out = s.out := rfl

@[simp] theorem push_esp : (push v s).regs .esp = s.regs .esp - 4#32 := by
  simp [push]
@[simp] theorem push_reg (hq : q ≠ .esp) : (push v s).regs q = s.regs q := by
  simp [push, hq]
@[simp] theorem push_segs : (push v s).segs = s.segs := rfl
@[simp] theorem push_eflags : (push v s).eflags = s.eflags := rfl
@[simp] theorem push_eip : (push v s).eip = s.eip := rfl
@[simp] theorem push_mem :
    (push v s).mem = store32 s.mem (s.regs .esp - 4#32).toNat v := rfl
@[simp] theorem push_out : (push v s).out = s.out := rfl

@[simp] theorem top_push : top (push v s) = v := by
  rw [top, push_esp, push_mem, load32_store32_same]

end State

/-- What `int n` pushes and loads when it enters ring 0 through a 32-bit trap gate: the stack
comes from the task segment; TF, NT, RF and VM are cleared. -/
def trapGate (ss0 cs0 : BitVec 16) (esp0 entry : BitVec 32) (s : State) : State :=
  let t := pushAll
    [(s.segs .ss).setWidth 32, s.regs .esp, s.eflags, (s.segs .cs).setWidth 32, s.eip]
    (setReg .esp esp0 (setSeg .ss ss0 s))
  { setSeg .cs cs0 t with eflags := s.eflags &&& ~~~0x00034100#32, eip := entry }

def Instr.isPush : Instr → Bool
  | .push _ => true
  | .pushSeg _ => true
  | _ => false

/-- A push into a stack with room for it. -/
theorem push_frame (base n : Nat) (v : BitVec 32) (s : State)
    (hlow : base + 4 ≤ (s.regs .esp).toNat) (hhigh : (s.regs .esp).toNat ≤ base + n) :
    Frame base n s.mem (push v s).mem ∧
      ((push v s).regs .esp).toNat = (s.regs .esp).toNat - 4 := by
  have hsub : (s.regs .esp - 4#32).toNat = (s.regs .esp).toNat - 4 := by
    apply BitVec.toNat_sub_of_le
    rw [BitVec.le_def]
    exact Nat.le_trans (Nat.le_add_left 4 base) hlow
  rw [push_esp, push_mem, hsub]
  exact ⟨frame_mono (store32_frame _ _ _) (by omega) (by omega), rfl⟩

/-- What a run of pushes leaves: the stack below the pointer is all it writes. -/
structure Pushed (base n depth : Nat) (s t : State) : Prop where
  frame : Frame base n s.mem t.mem
  esp : (t.regs .esp).toNat = (s.regs .esp).toNat - depth
  regs : ∀ r, r ≠ .esp → t.regs r = s.regs r
  out : t.out = s.out

theorem pushed_refl (base n : Nat) (s : State) : Pushed base n 0 s s :=
  ⟨frame_refl _ _ _, rfl, fun _ _ => rfl, rfl⟩

theorem pushed_push {base n depth : Nat} {s t : State} (h : Pushed base n depth s t)
    (v : BitVec 32) (hlow : base + depth + 4 ≤ (s.regs .esp).toNat)
    (hhigh : (s.regs .esp).toNat ≤ base + n) : Pushed base n (depth + 4) s (push v t) := by
  have hesp := h.esp
  obtain ⟨hframe, hmoved⟩ := push_frame base n v t (by omega) (by omega)
  refine ⟨frame_trans h.frame hframe, by omega, ?_, h.out⟩
  intro r hr
  rw [push_reg _ _ _ hr, h.regs r hr]

theorem pushed_all {base n : Nat} {s : State} (hhigh : (s.regs .esp).toNat ≤ base + n)
    (vs : List (BitVec 32)) {depth : Nat} {t : State} (h : Pushed base n depth s t)
    (hlow : base + depth + 4 * vs.length ≤ (s.regs .esp).toNat) :
    Pushed base n (depth + 4 * vs.length) s (pushAll vs t) := by
  induction vs generalizing depth t with
  | nil => exact h
  | cons v vs ih =>
    rw [List.length_cons] at hlow ⊢
    have hdepth : depth + 4 * (vs.length + 1) = depth + 4 + 4 * vs.length := by omega
    rw [hdepth]
    exact ih (pushed_push h v (by omega) hhigh) (by omega)

/-- Five words are pushed; the general registers other than `esp` are kept. -/
theorem trapGate_pushed (base n : Nat) (ss0 cs0 : BitVec 16) (esp0 entry : BitVec 32) (s : State)
    (hlow : base + 20 ≤ esp0.toNat) (hhigh : esp0.toNat ≤ base + n) :
    ((trapGate ss0 cs0 esp0 entry s).regs .esp).toNat = esp0.toNat - 20 ∧
      (∀ r, r ≠ .esp → (trapGate ss0 cs0 esp0 entry s).regs r = s.regs r) ∧
      (trapGate ss0 cs0 esp0 entry s).out = s.out := by
  have hesp : (setReg .esp esp0 (setSeg .ss ss0 s)).regs .esp = esp0 := setReg_same _ _ _
  have hp := pushed_all (by rw [hesp]; exact hhigh)
    [(s.segs .ss).setWidth 32, s.regs .esp, s.eflags, (s.segs .cs).setWidth 32, s.eip]
    (pushed_refl base n (setReg .esp esp0 (setSeg .ss ss0 s)))
    (by
      rw [hesp]
      simp only [List.length_cons, List.length_nil]
      omega)
  have hptr := hp.esp
  rw [hesp] at hptr
  simp only [List.length_cons, List.length_nil] at hptr
  have hgate : ∀ t : State, ({ setSeg .cs cs0 t with
      eflags := s.eflags &&& ~~~0x00034100#32, eip := entry } : State).regs = t.regs :=
    fun _ => rfl
  have hout : ∀ t : State, ({ setSeg .cs cs0 t with
      eflags := s.eflags &&& ~~~0x00034100#32, eip := entry } : State).out = t.out :=
    fun _ => rfl
  refine ⟨?_, ?_, ?_⟩
  · rw [trapGate, hgate]
    omega
  · intro r hr
    rw [trapGate, hgate, hp.regs r hr, setReg_other _ _ _ _ hr, setSeg_regs]
  · rw [trapGate, hout, hp.out, setReg_out, setSeg_out]

theorem pushed_run (base n : Nat) {s : State} (hhigh : (s.regs .esp).toNat ≤ base + n)
    (code : List Instr) (hcode : code.all Instr.isPush = true) {depth : Nat} {t : State}
    (h : Pushed base n depth s t)
    (hlow : base + depth + 4 * code.length ≤ (s.regs .esp).toNat) :
    Pushed base n (depth + 4 * code.length) s (run code t) := by
  induction code generalizing depth t with
  | nil => exact h
  | cons i code ih =>
    rw [List.all_cons, Bool.and_eq_true] at hcode
    rw [List.length_cons] at hlow ⊢
    have hstep : ∃ v, exec i t = push v t := by
      cases i with
      | push src => exact ⟨_, rfl⟩
      | pushSeg src => exact ⟨_, rfl⟩
      | _ => exact absurd hcode.1 Bool.false_ne_true
    obtain ⟨v, hv⟩ := hstep
    have hdepth : depth + 4 * (code.length + 1) = depth + 4 + 4 * code.length := by omega
    rw [run_cons, hv, hdepth]
    exact ih hcode.2 (pushed_push h v (by omega) hhigh) (by omega)

/-- Flags with VM, RF and the high reserved bits clear are stored as they are. -/
def Plain (f : BitVec 32) : Prop := pushImage f = f

instance (f : BitVec 32) : Decidable (Plain f) := inferInstanceAs (Decidable (_ = _))

/-- Two masks that leave out no bit of a word between them. -/
theorem and_or_and_not {f p a b : BitVec 32} (h : f &&& p = f)
    (hmask : ∀ i < 32, p.getLsbD i = true → a.getLsbD i = false → b.getLsbD i = false) :
    f &&& a ||| f &&& ~~~b = f := by
  apply BitVec.eq_of_getLsbD_eq
  intro i hi
  have hf := congrArg (fun x => x.getLsbD i) h
  simp only [BitVec.getLsbD_and] at hf
  have hm := hmask i hi
  simp only [BitVec.getLsbD_or, BitVec.getLsbD_and, BitVec.getLsbD_not, hi, decide_true,
    Bool.true_and]
  cases hb : f.getLsbD i with
  | false => simp
  | true =>
    rw [hb, Bool.true_and] at hf
    cases hp : a.getLsbD i with
    | true => simp
    | false => simp [hm hf hp]

/-- Popping the flags just pushed changes nothing. -/
theorem popFlags_pushImage {f : BitVec 32} (h : Plain f) : popFlags (pushImage f) f = f := by
  rw [h]
  exact and_or_and_not h (by decide)

theorem withLow16_getLsbD (x : BitVec 32) (v : BitVec 16) {i : Nat} (hi : i < 32) :
    (withLow16 x v).getLsbD i = if i < 16 then v.getLsbD i else x.getLsbD i := by
  rw [withLow16, BitVec.getLsbD_append, BitVec.getLsbD_extractLsb']
  by_cases h : i < 16
  · simp [h]
  · have hin : i - 16 < 16 := by omega
    have hback : 16 + (i - 16) = i := by omega
    simp [h, hin, hback]

theorem withLow8_getLsbD (x : BitVec 32) (v : BitVec 8) {i : Nat} (hi : i < 32) :
    (withLow8 x v).getLsbD i = if i < 8 then v.getLsbD i else x.getLsbD i := by
  rw [withLow8, BitVec.getLsbD_append, BitVec.getLsbD_extractLsb']
  by_cases h : i < 8
  · simp [h]
  · have hin : i - 8 < 24 := by omega
    have hback : 8 + (i - 8) = i := by omega
    simp [h, hin, hback]

theorem setWidth_withLow16 (x : BitVec 32) (v : BitVec 16) : (withLow16 x v).setWidth 16 = v := by
  apply BitVec.eq_of_getLsbD_eq
  intro i hi
  rw [BitVec.getLsbD_setWidth, withLow16_getLsbD _ _ (by omega), if_pos hi]
  simp [hi]

/-- Replacing the low half changes nothing when that half was there already. -/
theorem withLow16_eq_iff (x : BitVec 32) (v : BitVec 16) :
    withLow16 x v = x ↔ x.setWidth 16 = v := by
  constructor
  · intro h
    apply BitVec.eq_of_getLsbD_eq
    intro i hi
    have hbit := withLow16_getLsbD x v (i := i) (by omega)
    rw [h, if_pos hi] at hbit
    rw [BitVec.getLsbD_setWidth, hbit]
    simp [hi]
  · rintro rfl
    apply BitVec.eq_of_getLsbD_eq
    intro i hi
    rw [withLow16_getLsbD _ _ hi]
    by_cases h : i < 16
    · simp [h]
    · simp [h]

theorem withLow16_withLow8 (x : BitVec 32) (a : BitVec 8) (v : BitVec 16) :
    withLow16 (withLow8 x a) v = withLow16 x v := by
  apply BitVec.eq_of_getLsbD_eq
  intro i hi
  rw [withLow16_getLsbD _ _ hi, withLow16_getLsbD _ _ hi, withLow8_getLsbD _ _ hi]
  by_cases h16 : i < 16
  · simp [h16]
  · have h8 : ¬i < 8 := by omega
    simp [h16, h8]

theorem withLow8_withLow16 (x : BitVec 32) (v : BitVec 16) (b : BitVec 8) :
    withLow8 (withLow16 x v) b = withLow16 x (v.extractLsb' 8 8 ++ b) := by
  apply BitVec.eq_of_getLsbD_eq
  intro i hi
  rw [withLow8_getLsbD _ _ hi, withLow16_getLsbD _ _ hi, withLow16_getLsbD _ _ hi,
    BitVec.getLsbD_append, BitVec.getLsbD_extractLsb']
  by_cases h8 : i < 8
  · have h16 : i < 16 := by omega
    simp [h8, h16]
  · by_cases h16 : i < 16
    · have hin : i - 8 < 8 := by omega
      have hback : 8 + (i - 8) = i := by omega
      simp [h8, h16, hin, hback]
    · simp [h8, h16]

/-- Of three writes to the low half the last byte and the middle half are seen. -/
theorem withLow8_withLow16_withLow8 (x : BitVec 32) (a b : BitVec 8) (v : BitVec 16) :
    withLow8 (withLow16 (withLow8 x a) v) b = withLow16 x (v.extractLsb' 8 8 ++ b) := by
  rw [withLow16_withLow8, withLow8_withLow16]

end IA32
