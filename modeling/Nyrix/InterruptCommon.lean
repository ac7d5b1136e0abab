import Nyrix.Base.RingChange
import Nyrix.Scheduler

/-!
# The common part of the interrupt stubs (interrupts.asm)

Every stub but that of `int 0x80` jumps to code that saves the general and segment registers,
calls a handler with the address of all this, and takes everything back from the stack.
-/

namespace Scheduler

open ByteMemory IA32

theorem saveSegs_esp (s : IA32.State) : (run saveSegs s).regs .esp = s.regs .esp - 20#32 := by
  simp [saveSegs, exec, BitVec.sub_sub]

theorem saveSegs_rest (s : IA32.State) : (run saveSegs s).eflags = s.eflags ∧
    (run saveSegs s).segs .ss = s.segs .ss ∧ (run saveSegs s).out = s.out := by
  simp [saveSegs, exec]

theorem saveSegs_stacked {s : IA32.State} {vs : List (BitVec 32)}
    (h : Stacked s.mem (s.regs .esp) vs) (hlen : 4 * vs.length + 20 ≤ 4294967296) :
    Stacked (run saveSegs s).mem ((run saveSegs s).regs .esp)
      ((s.regs .esp - 16#32) :: (s.segs .gs).setWidth 32 :: (s.segs .fs).setWidth 32 ::
        (s.segs .es).setWidth 32 :: (s.segs .ds).setWidth 32 :: vs) := by
  have hpush := stacked_pushAll [(s.segs .ds).setWidth 32, (s.segs .es).setWidth 32,
    (s.segs .fs).setWidth 32, (s.segs .gs).setWidth 32, s.regs .esp - 16#32] h (by
      simp only [List.length_cons, List.length_nil]
      omega)
  have hmem : (run saveSegs s).mem = (pushAll [(s.segs .ds).setWidth 32, (s.segs .es).setWidth 32,
      (s.segs .fs).setWidth 32, (s.segs .gs).setWidth 32, s.regs .esp - 16#32] s).mem := by
    simp [saveSegs, pushAll, exec, BitVec.sub_sub, -BitVec.toNat_sub]
  rw [pushAll_esp] at hpush
  rw [hmem, saveSegs_esp]
  exact hpush

theorem saveSegs_cs (s : IA32.State) : (run saveSegs s).segs .cs = s.segs .cs := by
  simp [saveSegs, exec]

/-- The segment registers taken back, from the one on top on. -/
theorem restoreSegs_eq {s : IA32.State} {gs fs es ds : BitVec 32} {vs : List (BitVec 32)}
    (h : Stacked s.mem (s.regs .esp) (gs :: fs :: es :: ds :: vs)) :
    run restoreSegs s = { s with
      regs := Function.update s.regs .esp (s.regs .esp + 16#32)
      segs := fun r => match r with
        | .gs => gs.setWidth 16
        | .fs => fs.setWidth 16
        | .es => es.setWidth 16
        | .ds => ds.setWidth 16
        | .cs => s.segs .cs
        | .ss => s.segs .ss } := by
  have hpops := run_popSegs [.gs, .fs, .es, .ds] [gs, fs, es, ds] rfl h
  have hcode : restoreSegs = [.gs, .fs, .es, .ds].map .popSeg := rfl
  rw [hcode, hpops]
  simp only [loadSegs, List.zip_cons_cons, List.zip_nil_right, List.foldl_cons, List.foldl_nil,
    setReg, setSeg]
  congr 1
  funext r
  cases r <;> simp

end Scheduler

namespace InterruptFrame

open ByteMemory IA32 Scheduler

/-- `isr_common` and `irq_common` up to the call of the handler; they differ in which one it is. -/
def commonEntry (back : BitVec 32) (s : IA32.State) : IA32.State :=
  push back (run saveSegs (pusha s))

def commonRestore (s : IA32.State) : IA32.State := drop (drop (popa (run restoreSegs (drop s))))

/-- The words saved by the common code, in front of what is there. -/
theorem commonEntry_stacked (back : BitVec 32) {t : IA32.State} {vs : List (BitVec 32)}
    (h : Stacked t.mem (t.regs .esp) vs) (hlen : 4 * vs.length + 56 ≤ 4294967296) :
    Stacked (commonEntry back t).mem ((commonEntry back t).regs .esp)
      (back :: (t.regs .esp - 48#32) :: (t.segs .gs).setWidth 32 :: (t.segs .fs).setWidth 32 ::
        (t.segs .es).setWidth 32 :: (t.segs .ds).setWidth 32 :: t.regs .edi :: t.regs .esi ::
        t.regs .ebp :: t.regs .esp :: t.regs .ebx :: t.regs .edx :: t.regs .ecx :: t.regs .eax ::
        vs) := by
  have hall := saveSegs_stacked (pusha_stacked h (by omega))
    (by simp only [List.length_cons]; omega)
  have hsegs : (pusha t).segs = t.segs := (pushAll_rest _ t).1
  have hesp : (pusha t).regs .esp - 16#32 = t.regs .esp - 48#32 := by
    rw [pusha, pushAll_esp, BitVec.sub_sub]
    rfl
  rw [hsegs, hesp] at hall
  exact stacked_push back hall (by simp only [List.length_cons]; omega)

theorem commonEntry_esp (back : BitVec 32) (t : IA32.State) :
    (commonEntry back t).regs .esp = t.regs .esp - 56#32 := by
  rw [commonEntry, push_esp, saveSegs_esp, pusha, pushAll_esp, BitVec.sub_sub, BitVec.sub_sub]
  rfl

theorem commonEntry_rest (back : BitVec 32) (t : IA32.State) :
    (commonEntry back t).eflags = t.eflags ∧ (commonEntry back t).segs .cs = t.segs .cs ∧
      (commonEntry back t).segs .ss = t.segs .ss ∧ (commonEntry back t).out = t.out := by
  obtain ⟨hflags, hss, hout⟩ := saveSegs_rest (pusha t)
  obtain ⟨hsegs', hflags', _, hout'⟩ := pushAll_rest [t.regs .eax, t.regs .ecx, t.regs .edx,
    t.regs .ebx, t.regs .esp, t.regs .ebp, t.regs .esi, t.regs .edi] t
  rw [commonEntry, push_eflags, push_segs, push_out, hflags, hss, hout, saveSegs_cs, pusha, hsegs',
    hflags', hout']
  exact ⟨rfl, rfl, rfl, rfl⟩

/-- The common code takes its words back from the stack. -/
theorem commonRestore_eq {s : IA32.State} {gs fs es ds edi esi ebp esp ebx edx : BitVec 32}
    {ecx eax no err : BitVec 32} {vs : List (BitVec 32)} (h : Stacked s.mem (s.regs .esp + 4#32)
      (gs :: fs :: es :: ds :: edi :: esi :: ebp :: esp :: ebx :: edx :: ecx :: eax :: no :: err ::
        vs)) :
    commonRestore s = { s with
      regs := fun r => match r with
        | .edi => edi
        | .esi => esi
        | .ebp => ebp
        | .esp => s.regs .esp + 60#32
        | .ebx => ebx
        | .edx => edx
        | .ecx => ecx
        | .eax => eax
      segs := fun r => match r with
        | .gs => gs.setWidth 16
        | .fs => fs.setWidth 16
        | .es => es.setWidth 16
        | .ds => ds.setWidth 16
        | .cs => s.segs .cs
        | .ss => s.segs .ss } ∧
      Stacked s.mem (s.regs .esp + 60#32) vs := by
  obtain ⟨u, hu⟩ : ∃ u, run restoreSegs (drop s) = u := ⟨_, rfl⟩
  have hsegs := hu.symm.trans (restoreSegs_eq (s := drop s) (drop_esp s ▸ h))
  have huesp : u.regs .esp = s.regs .esp + 20#32 := by
    rw [hsegs]
    dsimp only
    rw [Function.update_self, drop_esp, BitVec.add_assoc]
    rfl
  have humem : u.mem = s.mem := by rw [hsegs]; rfl
  have hgeneral : Stacked u.mem (u.regs .esp)
      (edi :: esi :: ebp :: esp :: ebx :: edx :: ecx :: eax :: no :: err :: vs) := by
    have hdrop := stacked_drop h 4
    rw [BitVec.add_assoc] at hdrop
    rw [huesp, humem]
    exact hdrop
  have hpopa := popa_eq hgeneral
  refine ⟨?_, ?_⟩
  · rw [commonRestore, hu, drop_drop, hpopa, setReg]
    dsimp only
    rw [huesp, BitVec.add_assoc, BitVec.add_assoc, hsegs]
    congr 1
    funext r
    cases r <;> rfl
  · have hdrop := stacked_drop h 14
    rw [BitVec.add_assoc] at hdrop
    exact hdrop

end InterruptFrame
