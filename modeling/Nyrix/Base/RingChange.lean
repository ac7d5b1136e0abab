import Mathlib.Tactic.SplitIfs
import Nyrix.Base.Interrupts

/-!
# Interrupts that change the ring

Code outside ring 0 is interrupted on a stack of ring 0, where its own stack is remembered, and
an `iret` that returns to it takes that stack back. On the way out a data segment register is
cleared when it holds a null selector or a segment the outer ring may not use. In between, a
compiled function keeps what its calling convention says.
-/

namespace IA32

open ByteMemory

/-- The privilege level of a code segment selector. -/
def rpl (sel : BitVec 16) : BitVec 2 := sel.setWidth 2

def cpl (s : State) : BitVec 2 := rpl (s.segs .cs)

/-- What the descriptor tables say of the segments. -/
structure Descriptors where
  dpl : BitVec 16 → BitVec 2
  conforming : BitVec 16 → Bool

/-- The selectors 0 to 3. -/
def Null (sel : BitVec 16) : Prop := sel &&& 0xFFFC#16 = 0#16

instance (sel : BitVec 16) : Decidable (Null sel) := inferInstanceAs (Decidable (_ = _))

/-- The segment may not be used in the ring. -/
def Descriptors.Closed (d : Descriptors) (level : BitVec 2) (sel : BitVec 16) : Prop :=
  d.dpl sel < level ∧ d.conforming sel = false

instance (d : Descriptors) (level : BitVec 2) (sel : BitVec 16) : Decidable (d.Closed level sel) :=
  inferInstanceAs (Decidable (_ ∧ _))

/-- A data segment register after a return to an outer ring. -/
def Descriptors.clear (d : Descriptors) (level : BitVec 2) (sel : BitVec 16) : BitVec 16 :=
  if Null sel ∨ d.Closed level sel then 0#16 else sel

/-- Entry through a 32-bit interrupt gate from an outer ring. -/
def intGateOuter (ss0 cs0 : BitVec 16) (esp0 entry : BitVec 32) (s : State) : State :=
  intGate cs0 entry (pushAll [(s.segs .ss).setWidth 32, s.regs .esp]
    (setReg .esp esp0 (setSeg .ss ss0 s)))

/-- Entry to ring 0 from whatever ring. -/
def interruptGate (ss0 cs0 : BitVec 16) (esp0 entry : BitVec 32) (s : State) : State :=
  if cpl s = 0#2 then intGate cs0 entry s else intGateOuter ss0 cs0 esp0 entry s

/-- The words an interrupt pushes, from the top on. -/
def gateFrame (s : State) : List (BitVec 32) :=
  s.eip :: (s.segs .cs).setWidth 32 :: s.eflags ::
    if cpl s = 0#2 then [] else [s.regs .esp, (s.segs .ss).setWidth 32]

/-- `iret` to an outer ring. -/
def iretOuter (d : Descriptors) (s : State) : State :=
  let t := drop (drop (drop s))
  let cs : BitVec 16 := (top (drop s)).setWidth 16
  { t with
    regs := Function.update t.regs .esp (top t)
    segs := fun r => match r with
      | .cs => cs
      | .ss => (top (drop t)).setWidth 16
      | r => d.clear (rpl cs) (t.segs r)
    eip := top s
    eflags := iretFlags (top (drop (drop s))) s.eflags }

/-- `iret` in ring 0, to the ring of the code segment on the stack. -/
def interruptReturn (d : Descriptors) (s : State) : State :=
  if rpl ((top (drop s)).setWidth 16) = cpl s then iret s else iretOuter d s

theorem setWidth_setWidth_16 (x : BitVec 16) : (x.setWidth 32).setWidth 16 = x := by
  apply BitVec.eq_of_toNat_eq
  rw [BitVec.toNat_setWidth, BitVec.toNat_setWidth]
  have hx := x.isLt
  omega

section Gate

variable (ss0 cs0 : BitVec 16) (esp0 entry : BitVec 32) (s : State)

theorem interruptGate_stacked :
    Stacked (interruptGate ss0 cs0 esp0 entry s).mem
      ((interruptGate ss0 cs0 esp0 entry s).regs .esp) (gateFrame s) := by
  rw [interruptGate, gateFrame]
  split_ifs with hring
  · have hnone : Stacked s.mem (s.regs .esp) [] := trivial
    exact intGate_stacked cs0 entry hnone (by decide)
  · obtain ⟨t, ht⟩ : ∃ t, setReg .esp esp0 (setSeg .ss ss0 s) = t := ⟨_, rfl⟩
    have hnone : Stacked t.mem (t.regs .esp) [] := trivial
    have hstack := stacked_pushAll [(s.segs .ss).setWidth 32, s.regs .esp] hnone (by simp)
    obtain ⟨hsegs, hflags, heip, _⟩ := pushAll_rest [(s.segs .ss).setWidth 32, s.regs .esp] t
    have hframe := intGate_stacked cs0 entry hstack (by simp)
    rw [hsegs, hflags, heip, ← ht, setReg_eip, setReg_eflags, setReg_segs,
      setSeg_other .ss .cs ss0 s (by decide)] at hframe
    exact hframe

theorem interruptGate_reg {r : Reg} (hr : r ≠ .esp) :
    (interruptGate ss0 cs0 esp0 entry s).regs r = s.regs r := by
  rw [interruptGate]
  split_ifs
  · exact intGate_reg _ _ hr
  · rw [intGateOuter, intGate_reg _ _ hr, pushAll_reg _ _ hr, setReg_other _ _ _ _ hr, setSeg_regs]

theorem interruptGate_seg {r : SReg} (hcs : r ≠ .cs) (hss : r ≠ .ss) :
    (interruptGate ss0 cs0 esp0 entry s).segs r = s.segs r := by
  rw [interruptGate]
  split_ifs
  · exact intGate_seg _ _ hcs
  · rw [intGateOuter, intGate_seg _ _ hcs, (pushAll_rest _ _).1, setReg_segs,
      setSeg_other _ _ _ _ hss]

theorem intGate_cs : (intGate cs0 entry s).segs .cs = cs0 :=
  setSeg_same .cs cs0 (pushAll [s.eflags, (s.segs .cs).setWidth 32, s.eip] s)

theorem interruptGate_cs : (interruptGate ss0 cs0 esp0 entry s).segs .cs = cs0 := by
  rw [interruptGate]
  split_ifs
  · exact intGate_cs cs0 entry s
  · exact intGate_cs cs0 entry _

theorem interruptGate_eflags :
    (interruptGate ss0 cs0 esp0 entry s).eflags = s.eflags &&& ~~~0x00034300#32 := by
  rw [interruptGate]
  split_ifs
  · rfl
  · have hflags := (pushAll_rest [(s.segs .ss).setWidth 32, s.regs .esp]
      (setReg .esp esp0 (setSeg .ss ss0 s))).2.1
    rw [setReg_eflags, setSeg_eflags] at hflags
    rw [intGateOuter, ← hflags]
    rfl

/-- Within ring 0 the stack stays the same. -/
theorem interruptGate_inner (hring : cpl s = 0#2) :
    (interruptGate ss0 cs0 esp0 entry s).segs .ss = s.segs .ss ∧
      (interruptGate ss0 cs0 esp0 entry s).regs .esp + 12#32 = s.regs .esp := by
  rw [interruptGate, if_pos hring, intGate_seg _ _ (by decide), intGate_esp]
  exact ⟨rfl, BitVec.sub_add_cancel _ _⟩

/-- The words a trap gate to an inner ring pushes, the first of them first. -/
def trapWords : List (BitVec 32) :=
  [(s.segs .ss).setWidth 32, s.regs .esp, s.eflags, (s.segs .cs).setWidth 32, s.eip]

theorem trapGate_stacked :
    Stacked (trapGate ss0 cs0 esp0 entry s).mem ((trapGate ss0 cs0 esp0 entry s).regs .esp)
      [s.eip, (s.segs .cs).setWidth 32, s.eflags, s.regs .esp, (s.segs .ss).setWidth 32] := by
  have hnone : Stacked (setReg .esp esp0 (setSeg .ss ss0 s)).mem
      ((setReg .esp esp0 (setSeg .ss ss0 s)).regs .esp) [] := trivial
  exact stacked_pushAll (trapWords s) hnone (by simp [trapWords])

theorem trapGate_esp : (trapGate ss0 cs0 esp0 entry s).regs .esp = esp0 - 20#32 := by
  have hesp := pushAll_esp (trapWords s) (setReg .esp esp0 (setSeg .ss ss0 s))
  rw [setReg_same] at hesp
  exact hesp

theorem trapGate_cs : (trapGate ss0 cs0 esp0 entry s).segs .cs = cs0 :=
  setSeg_same .cs cs0 (pushAll (trapWords s) (setReg .esp esp0 (setSeg .ss ss0 s)))

theorem trapGate_seg {r : SReg} (hcs : r ≠ .cs) (hss : r ≠ .ss) :
    (trapGate ss0 cs0 esp0 entry s).segs r = s.segs r := by
  have hrest := (pushAll_rest (trapWords s) (setReg .esp esp0 (setSeg .ss ss0 s))).1
  have hseg : (setReg .esp esp0 (setSeg .ss ss0 s)).segs r = s.segs r := setSeg_other _ _ _ _ hss
  rw [← hseg, ← hrest]
  exact setSeg_other _ _ _ _ hcs

end Gate

/-- A store apart from the stack leaves the words on it. -/
theorem stacked_store {m : Mem} {esp : BitVec 32} {vs : List (BitVec 32)} (h : Stacked m esp vs)
    {a : Nat} (w : BitVec 32) (hsep : Sep esp.toNat (4 * vs.length) a 4) :
    Stacked (store32 m a w) esp vs :=
  stacked_frame (store32_frame m a w) h (sep_comm hsep)

theorem drop_three (s : State) : drop (drop (drop s)) = setReg .esp (s.regs .esp + 12#32) s := by
  rw [drop_drop, drop_esp, drop, setReg_setReg, BitVec.add_assoc]
  rfl

theorem iretOuter_eq (d : Descriptors) {s : State} {eip cs flags esp ss : BitVec 32}
    {vs : List (BitVec 32)}
    (h : Stacked s.mem (s.regs .esp) (eip :: cs :: flags :: esp :: ss :: vs)) :
    iretOuter d s = { s with
      regs := Function.update s.regs .esp esp
      segs := fun r => match r with
        | .cs => cs.setWidth 16
        | .ss => ss.setWidth 16
        | r => d.clear (rpl (cs.setWidth 16)) (s.segs r)
      eip := eip
      eflags := iretFlags flags s.eflags } := by
  obtain ⟨heip, hcs, hflags, hesp, hss, -⟩ := h
  have htop : top s = eip := heip
  have htop₁ : top (drop s) = cs := by
    rw [top, drop_esp]
    exact hcs
  have htop₂ : top (drop (drop s)) = flags := by
    rw [top, drop_esp, drop_esp]
    exact hflags
  have htop₃ : top (drop (drop (drop s))) = esp := by
    rw [top, drop_esp, drop_esp, drop_esp]
    exact hesp
  have htop₄ : top (drop (drop (drop (drop s)))) = ss := by
    rw [top, drop_esp, drop_esp, drop_esp, drop_esp]
    exact hss
  have hregs : Function.update (drop (drop (drop s))).regs .esp esp =
      Function.update s.regs .esp esp := by
    rw [drop_three, setReg, Function.update_idem]
  rw [iretOuter, htop, htop₁, htop₂, htop₃, htop₄, hregs]
  rfl

/-- Flags without VM that went through an interrupt and its `iret` are the same again, whatever
compiled code in between did to the other flags. -/
theorem iretFlags_restore {f f' : BitVec 32} (hvm : f &&& 0x00020000#32 = 0#32)
    (hkept : f' &&& ~~~0x003D7FD5#32 = f &&& ~~~0x00034300#32 &&& ~~~0x003D7FD5#32) :
    iretFlags f f' = f := by
  have hnot : ~~~0x00034300#32 &&& ~~~0x003D7FD5#32 = ~~~0x003F7FD5#32 := by decide
  have hplain : f &&& ~~~0x00020000#32 = f := by
    have hsplit := and_or_and_not (f := f) (p := 0xFFFFFFFF#32) (a := 0x00020000#32)
      (b := 0x00020000#32) (BitVec.and_allOnes) (by decide)
    rwa [hvm, BitVec.zero_or] at hsplit
  rw [iretFlags, hkept, BitVec.and_assoc, hnot]
  exact and_or_and_not hplain (by decide)

section Pops

variable {s : State} {vs : List (BitVec 32)}

/-- The registers loaded with the words, from the first one on. -/
def loadRegs (rs : List Reg) (ws : List (BitVec 32)) (s : State) : State :=
  (rs.zip ws).foldl (fun s p => setReg p.1 p.2 s) s

def loadSegs (rs : List SReg) (ws : List (BitVec 32)) (s : State) : State :=
  (rs.zip ws).foldl (fun s p => setSeg p.1 (p.2.setWidth 16) s) s

theorem setReg_comm {r q : Reg} (h : r ≠ q) (v w : BitVec 32) (s : State) :
    setReg r v (setReg q w s) = setReg q w (setReg r v s) := by
  rw [setReg, setReg, setReg, setReg, Function.update_comm h]

/-- A run of `pop`s loads its registers with the words on the stack. -/
theorem run_pops (rs : List Reg) (ws : List (BitVec 32)) (hlen : ws.length = rs.length)
    (hesp : ∀ r ∈ rs, r ≠ .esp) (h : Stacked s.mem (s.regs .esp) (ws ++ vs)) :
    run (rs.map .pop) s =
      loadRegs rs ws (setReg .esp (s.regs .esp + BitVec.ofNat 32 (4 * rs.length)) s) := by
  induction rs generalizing ws s with
  | nil =>
    have hzero : s.regs .esp + BitVec.ofNat 32 (4 * ([] : List Reg).length) = s.regs .esp :=
      BitVec.add_zero _
    rw [hzero, setReg, Function.update_eq_self]
    rfl
  | cons r rs ih =>
    cases ws with
    | nil => cases hlen
    | cons w ws =>
      have hr := hesp r List.mem_cons_self
      have hstep : exec (.pop r) s = setReg r w (drop s) := congrArg (setReg r · (drop s)) h.1
      have hptr : (setReg r w (drop s)).regs .esp = s.regs .esp + 4#32 := by
        rw [setReg_other _ _ _ _ hr.symm, drop_esp]
      have hcount : 4 * (rs.length + 1) = 4 + 4 * rs.length := by omega
      rw [List.map_cons, run_cons, hstep, ih ws (Nat.succ.inj hlen)
        (fun q hq => hesp q (List.mem_cons_of_mem r hq)) (hptr ▸ h.2), hptr, BitVec.add_assoc,
        ← BitVec.ofNat_add, ← hcount, setReg_comm hr.symm, drop, setReg_setReg]
      rfl

theorem run_popSegs (rs : List SReg) (ws : List (BitVec 32)) (hlen : ws.length = rs.length)
    (h : Stacked s.mem (s.regs .esp) (ws ++ vs)) :
    run (rs.map .popSeg) s =
      loadSegs rs ws (setReg .esp (s.regs .esp + BitVec.ofNat 32 (4 * rs.length)) s) := by
  induction rs generalizing ws s with
  | nil =>
    have hzero : s.regs .esp + BitVec.ofNat 32 (4 * ([] : List SReg).length) = s.regs .esp :=
      BitVec.add_zero _
    rw [hzero, setReg, Function.update_eq_self]
    rfl
  | cons r rs ih =>
    cases ws with
    | nil => cases hlen
    | cons w ws =>
      have hstep : exec (.popSeg r) s = setSeg r (w.setWidth 16) (drop s) :=
        congrArg (fun v : BitVec 32 => setSeg r (v.setWidth 16) (drop s)) h.1
      have hptr : (setSeg r (w.setWidth 16) (drop s)).regs .esp = s.regs .esp + 4#32 := drop_esp s
      have hcount : 4 * (rs.length + 1) = 4 + 4 * rs.length := by omega
      have hdrop : setReg .esp (s.regs .esp + BitVec.ofNat 32 (4 * (rs.length + 1)))
          (setSeg r (w.setWidth 16) (drop s)) =
          setSeg r (w.setWidth 16) (setReg .esp (s.regs .esp +
            BitVec.ofNat 32 (4 * (rs.length + 1))) s) :=
        congrArg (setSeg r (w.setWidth 16)) (setReg_setReg .esp _ _ s)
      rw [List.map_cons, run_cons, hstep, ih ws (Nat.succ.inj hlen) h.2, hptr, BitVec.add_assoc,
        ← BitVec.ofNat_add, ← hcount, hdrop]
      rfl

end Pops

/-- A compiled function has returned: it took `args` arguments, and its caller has `words` words
on the stack behind them that it left alone. It changes neither NT nor VM nor a reserved flag. -/
structure CdeclReturn (args words : Nat) (s t : State) : Prop where
  eip : t.eip = top s
  esp : t.regs .esp = s.regs .esp + 4#32
  saved : ∀ r, r = .ebx ∨ r = .ebp ∨ r = .esi ∨ r = .edi → t.regs r = s.regs r
  segs : t.segs = s.segs
  flags : t.eflags &&& ~~~0x003D3FD5#32 = s.eflags &&& ~~~0x003D3FD5#32
  frame : ∀ i < 4 * words, load8 t.mem ((s.regs .esp).toNat + 4 * (args + 1) + i) =
    load8 s.mem ((s.regs .esp).toNat + 4 * (args + 1) + i)

/-- A function that returns at once. -/
theorem ret_cdecl (args words : Nat) (s : State) : CdeclReturn args words s (exec .ret s) := by
  refine ⟨rfl, drop_esp s, fun r hr => ?_, rfl, rfl, fun _ _ => rfl⟩
  have hne : r ≠ .esp := by rintro rfl; simp at hr
  exact drop_reg r s hne

theorem stacked_congr {m m' : Mem} {esp : BitVec 32} {a : Nat} {vs : List (BitVec 32)}
    (h : Stacked m esp vs) (ha : a % 4294967296 = esp.toNat)
    (hsame : ∀ i < 4 * vs.length, load8 m' (a + i) = load8 m (a + i)) : Stacked m' esp vs := by
  induction vs generalizing esp a with
  | nil => trivial
  | cons v vs ih =>
    rw [List.length_cons] at hsame
    obtain ⟨htop, hrest⟩ := h
    refine ⟨?_, ih (a := a + 4) hrest ?_ fun i hi => ?_⟩
    · rw [← htop, ← ha, load32_mod, load32_mod]
      exact load32_congr fun i hi => hsame i (by omega)
    · rw [toNat_add_four, ← ha, Nat.mod_add_mod]
    · rw [Nat.add_assoc]
      exact hsame (4 + i) (by omega)

/-- The caller's words are found again above the arguments. -/
theorem CdeclReturn.stacked {args : Nat} {s t : State} {back : BitVec 32} {vs : List (BitVec 32)}
    (h : CdeclReturn args vs.length s t) (ws : List (BitVec 32)) (hargs : ws.length = args)
    (hs : Stacked s.mem (s.regs .esp) (back :: ws ++ vs)) :
    Stacked t.mem (t.regs .esp + BitVec.ofNat 32 (4 * args)) vs := by
  have hdrop := stacked_drop hs (args + 1)
  have hws : (back :: ws ++ vs).drop (args + 1) = vs := by
    rw [List.cons_append, List.drop_succ_cons, List.drop_left' hargs]
  have hcount : 4 * (args + 1) = 4 + 4 * args := by omega
  have haddr : s.regs .esp + BitVec.ofNat 32 (4 * (args + 1)) =
      t.regs .esp + BitVec.ofNat 32 (4 * args) := by
    rw [h.esp, hcount, BitVec.ofNat_add, BitVec.add_assoc]
  rw [hws, haddr] at hdrop
  refine stacked_congr hdrop (a := (s.regs .esp).toNat + 4 * (args + 1)) ?_ h.frame
  rw [← haddr, BitVec.toNat_add, BitVec.toNat_ofNat, Nat.add_mod_mod]

end IA32
