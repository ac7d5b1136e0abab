import Nyrix.Gdt
import Nyrix.Syscall

/-!
# The return from a system call (interrupts.asm)

The stub saves the registers after it has used `eax` and `ds`, and writes two more marks through
`al` after it has restored them.
-/

namespace Syscall

open ByteMemory IA32

/-- A debug mark. -/
def mark (c : BitVec 8) : List Instr := [.movLow8 .eax c, .outLow8 0xE9 .eax]

def restoreRegs : List Instr :=
  [ .popSeg .gs, .popSeg .fs, .popSeg .es, .popSeg .ds
  , .pop .edi, .pop .esi, .pop .ebp, .pop .ebx, .pop .edx, .pop .ecx, .pop .eax ]

/-- The stub behind the call. Between single quotes the assembler takes a backslash as it is, so
the last mark is a two-character constant, and `al` gets its first character. -/
def finish : List Instr := mark 0x45 ++ (restoreRegs ++ (mark 0x46 ++ mark 0x5C))

/-- From the return of `syscall_handler` to the code that made the call. -/
def isrReturn (s : State) : State := interruptReturn Gdt.descriptors (run finish s)

/-- The caller goes on with every register as it was. -/
structure Resumes (s t : State) : Prop where
  regs : t.regs = s.regs
  segs : t.segs = s.segs
  eip : t.eip = s.eip

/-- What the stub pushes for `eax`. -/
def savedEax (eax : BitVec 32) : BitVec 32 := withLow16 eax 0x0043#16

/-- The words the stub finds on the stack when the handler returns. -/
def savedWords (s : State) : List (BitVec 32) :=
  [ (s.segs .gs).setWidth 32, (s.segs .fs).setWidth 32, (s.segs .es).setWidth 32, 0x10
  , s.regs .edi, s.regs .esi, s.regs .ebp, s.regs .ebx, s.regs .edx, s.regs .ecx
  , savedEax (s.regs .eax), s.eip, (s.segs .cs).setWidth 32, s.eflags, s.regs .esp
  , (s.segs .ss).setWidth 32 ]

section Save

theorem saveRegs_eq (s : State) : run saveRegs s =
    pushAll [s.regs .eax, s.regs .ecx, s.regs .edx, s.regs .ebx, s.regs .ebp, s.regs .esi,
      s.regs .edi, (s.segs .ds).setWidth 32, (s.segs .es).setWidth 32, (s.segs .fs).setWidth 32,
      (s.segs .gs).setWidth 32] s := by
  simp [saveRegs, pushAll, exec]

/-- What the capture leaves in the registers it uses, and everywhere else. -/
theorem capture_regs (g : Globals) (s : State) :
    (run (capture g) s).regs .eax = savedEax (s.regs .eax) ∧
      (∀ r, r ≠ .eax → (run (capture g) s).regs r = s.regs r) ∧
      (run (capture g) s).segs .ds = 0x10#16 ∧
      ∀ r, r ≠ .ds → (run (capture g) s).segs r = s.segs r := by
  refine ⟨?_, fun r hr => ?_, ?_, fun r hr => ?_⟩
  · simp only [capture, run_cons, run_nil, exec, setReg_same, setSeg_regs]
    rw [withLow8_withLow16_withLow8, withLow8_withLow16]
    rfl
  · simp [capture, exec, hr]
  · simp [capture, exec, setWidth_withLow16]
  · simp [capture, exec, hr]

theorem toKernel_cs (s : State) : (run toKernel s).segs .cs = s.segs .cs := by
  simp [toKernel, exec]

end Save

section Return

variable {g : Globals} {e : Entry} {s t : State}

/-- The words of `int 0x80` are still there when the three words of the call are stored. -/
theorem capture_stacked (h : Layout g e) {vs : List (BitVec 32)} (hlen : vs.length = 5)
    (hesp : s.regs .esp = e.esp0 - 20#32) (hs : Stacked s.mem (s.regs .esp) vs) :
    Stacked (run (capture g) s).mem ((run (capture g) s).regs .esp) vs := by
  have hroom := h.room
  obtain ⟨hmem, hsame, _⟩ := capture_spec g s
  have hnat : (s.regs .esp).toNat = e.esp0.toNat - 68 + 48 := by
    rw [hesp]
    bv_omega
  have hapart : ∀ {a}, Sep (e.esp0.toNat - 68) 68 a 4 →
      Sep (s.regs .esp).toNat (4 * vs.length) a 4 := by
    intro a hsep
    rw [hnat, hlen]
    exact sep_left hsep 48 20 (by decide)
  rw [hmem, hsame]
  exact stacked_store (stacked_store (stacked_store hs _ (hapart h.eaxStack)) _
    (hapart h.ebxStack)) _ (hapart h.ecxStack)

/-- The stack when `syscall_handler` is called. -/
theorem isrSyscall_stacked (h : Layout g e) (s : State) :
    Stacked (isrSyscall g e s).mem ((isrSyscall g e s).regs .esp) (e.back :: savedWords s) := by
  have hroom := h.room
  obtain ⟨_, hregs₁, _⟩ := trapGate_pushed (e.esp0.toNat - 68) 68
    0x10 0x08 e.esp0 e.stub s (by omega) (by omega)
  have hsegs₁ := fun r => trapGate_seg 0x10 0x08 e.esp0 e.stub s (r := r)
  have hgate := capture_stacked h rfl (trapGate_esp 0x10 0x08 e.esp0 e.stub s)
    (trapGate_stacked 0x10 0x08 e.esp0 e.stub s)
  rw [isrSyscall, run_append, run_append]
  generalize trapGate 0x10 0x08 e.esp0 e.stub s = s₁ at hgate hregs₁ hsegs₁ ⊢
  obtain ⟨heax, hregs₂, hds, hsegs₂⟩ := capture_regs g s₁
  generalize run (capture g) s₁ = s₂ at hgate heax hregs₂ hds hsegs₂ ⊢
  obtain ⟨hmem₃, hesp₃, _⟩ := toKernel_spec (run saveRegs s₂)
  have hreg : ∀ r, r ≠ .esp → r ≠ .eax → s₂.regs r = s.regs r :=
    fun r hesp hax => (hregs₂ r hax).trans (hregs₁ r hesp)
  have hseg : ∀ r, r ≠ .ds → r ≠ .cs → r ≠ .ss → s₂.segs r = s.segs r :=
    fun r h₁ h₂ h₃ => (hsegs₂ r h₁).trans (hsegs₁ r h₂ h₃)
  have hall := stacked_pushAll [s₂.regs .eax, s₂.regs .ecx, s₂.regs .edx, s₂.regs .ebx,
    s₂.regs .ebp, s₂.regs .esi, s₂.regs .edi, (s₂.segs .ds).setWidth 32,
    (s₂.segs .es).setWidth 32, (s₂.segs .fs).setWidth 32, (s₂.segs .gs).setWidth 32] hgate (by simp)
  rw [← saveRegs_eq, ← hmem₃, ← hesp₃] at hall
  have hcall := stacked_push e.back hall (by simp)
  rw [heax, hregs₁ .eax (by decide), hds, hreg .ecx (by decide) (by decide),
    hreg .edx (by decide) (by decide), hreg .ebx (by decide) (by decide),
    hreg .ebp (by decide) (by decide), hreg .esi (by decide) (by decide),
    hreg .edi (by decide) (by decide), hseg .es (by decide) (by decide) (by decide),
    hseg .fs (by decide) (by decide) (by decide),
    hseg .gs (by decide) (by decide) (by decide)] at hcall
  exact hcall

theorem isrSyscall_cs (g : Globals) (e : Entry) (s : State) :
    (isrSyscall g e s).segs .cs = 0x08#16 := by
  rw [isrSyscall, push_segs, run_append, run_append, toKernel_cs, saveRegs_eq,
    (pushAll_rest _ _).1, (capture_regs g _).2.2.2 .cs (by decide)]
  exact trapGate_cs 0x10 0x08 e.esp0 e.stub s

/-- A mark leaves its character in `al`. -/
theorem run_mark (c : BitVec 8) (s : State) :
    (run (mark c) s).regs = Function.update s.regs .eax (withLow8 (s.regs .eax) c) ∧
      (run (mark c) s).segs = s.segs ∧ (run (mark c) s).mem = s.mem := ⟨rfl, rfl, rfl⟩

theorem restoreRegs_eq {gs fs es ds edi esi ebp ebx edx ecx eax : BitVec 32}
    {vs : List (BitVec 32)} (h : Stacked s.mem (s.regs .esp)
      (gs :: fs :: es :: ds :: edi :: esi :: ebp :: ebx :: edx :: ecx :: eax :: vs)) :
    run restoreRegs s = { s with
      regs := fun r => match r with
        | .edi => edi
        | .esi => esi
        | .ebp => ebp
        | .esp => s.regs .esp + 44#32
        | .ebx => ebx
        | .edx => edx
        | .ecx => ecx
        | .eax => eax
      segs := fun r => match r with
        | .gs => gs.setWidth 16
        | .fs => fs.setWidth 16
        | .es => es.setWidth 16
        | .ds => ds.setWidth 16
        | .cs => s.segs .cs
        | .ss => s.segs .ss } := by
  have hsegs := run_popSegs [.gs, .fs, .es, .ds] [gs, fs, es, ds] rfl h
  have hdrop := stacked_drop h 4
  obtain ⟨u, hu⟩ : ∃ u, run ([.gs, .fs, .es, .ds].map .popSeg) s = u := ⟨_, rfl⟩
  rw [hu] at hsegs
  have hesp : u.regs .esp = s.regs .esp + 16#32 := by
    rw [hsegs]
    exact setReg_same .esp (s.regs .esp + 16#32) s
  have hmem : u.mem = s.mem := by
    rw [hsegs]
    rfl
  have hrest : Stacked u.mem (u.regs .esp) ([edi, esi, ebp, ebx, edx, ecx, eax] ++ vs) := by
    rw [hesp, hmem]
    exact hdrop
  have hregs := run_pops [.edi, .esi, .ebp, .ebx, .edx, .ecx, .eax]
    [edi, esi, ebp, ebx, edx, ecx, eax] rfl (by decide) hrest
  have hcode : restoreRegs = [.gs, .fs, .es, .ds].map .popSeg ++
      [.edi, .esi, .ebp, .ebx, .edx, .ecx, .eax].map .pop := rfl
  rw [hcode, run_append, hu, hregs, hesp, BitVec.add_assoc, hsegs]
  simp only [loadRegs, loadSegs, List.zip_cons_cons, List.zip_nil_right, List.foldl_cons,
    List.foldl_nil, setReg, setSeg]
  congr 1
  · funext r
    cases r <;> simp
  · funext r
    cases r <;> simp

/-- The stub takes its words back, and `al` holds the last mark then. -/
theorem finish_eq {gs fs es ds edi esi ebp ebx edx ecx eax : BitVec 32} {vs : List (BitVec 32)}
    (h : Stacked s.mem (s.regs .esp)
      (gs :: fs :: es :: ds :: edi :: esi :: ebp :: ebx :: edx :: ecx :: eax :: vs)) :
    (run finish s).regs = (fun r => match r with
      | .edi => edi
      | .esi => esi
      | .ebp => ebp
      | .esp => s.regs .esp + 44#32
      | .ebx => ebx
      | .edx => edx
      | .ecx => ecx
      | .eax => withLow8 (withLow8 eax 0x46) 0x5C) ∧
    (run finish s).segs = (fun r => match r with
      | .gs => gs.setWidth 16
      | .fs => fs.setWidth 16
      | .es => es.setWidth 16
      | .ds => ds.setWidth 16
      | .cs => s.segs .cs
      | .ss => s.segs .ss) ∧
    Stacked (run finish s).mem ((run finish s).regs .esp) vs := by
  obtain ⟨hregs₁, hsegs₁, hmem₁⟩ := run_mark 0x45 s
  have hesp₁ : (run (mark 0x45) s).regs .esp = s.regs .esp := by
    rw [hregs₁, Function.update_of_ne (by decide)]
  have hrestore := restoreRegs_eq (s := run (mark 0x45) s) (by rwa [hesp₁, hmem₁])
  rw [hesp₁, hsegs₁] at hrestore
  rw [finish, run_append, run_append, run_append, (run_mark 0x5C _).1, (run_mark 0x5C _).2.1,
    (run_mark 0x5C _).2.2, (run_mark 0x46 _).1, (run_mark 0x46 _).2.1, (run_mark 0x46 _).2.2,
    hrestore]
  refine ⟨?_, rfl, ?_⟩
  · funext r
    cases r with
    | eax => simp
    | _ => simp
  · have hdrop := stacked_drop h 11
    simpa using hmem₁ ▸ hdrop

/-- Ring 3 after the call: `ax` holds what the marks left there, and `ds` was the kernel's when it
was saved. -/
theorem isrReturn_spec (h : Layout g e) (hring : cpl s = 3#2)
    (ht : CdeclReturn 0 16 (isrSyscall g e s) t) :
    (isrReturn t).eip = s.eip ∧
      (isrReturn t).regs = Function.update s.regs .eax (withLow16 (s.regs .eax) 0x005C#16) ∧
      (isrReturn t).segs = fun r => match r with
        | .cs => s.segs .cs
        | .ss => s.segs .ss
        | .ds => 0#16
        | r => Gdt.descriptors.clear 3#2 (s.segs r) := by
  have hret : CdeclReturn 0 (savedWords s).length (isrSyscall g e s) t := ht
  have hback := hret.stacked [] rfl (isrSyscall_stacked h s)
  have hzero : t.regs .esp + BitVec.ofNat 32 (4 * 0) = t.regs .esp := BitVec.add_zero _
  rw [hzero] at hback
  obtain ⟨hregs, hsegs, hstack⟩ := finish_eq hback
  rw [isrReturn]
  generalize run finish t = u at hregs hsegs hstack ⊢
  have hcs : top (drop u) = (s.segs .cs).setWidth 32 := by
    rw [top, drop_esp]
    exact hstack.2.1
  have hkernel : cpl u = 0#2 := by
    rw [cpl, hsegs]
    dsimp only
    rw [ht.segs, isrSyscall_cs]
    rfl
  have hout : ¬rpl ((top (drop u)).setWidth 16) = cpl u := by
    rw [hcs, setWidth_setWidth_16, ← cpl, hring, hkernel]
    decide
  have hlevel : rpl (((s.segs .cs).setWidth 32).setWidth 16) = 3#2 := by
    rw [setWidth_setWidth_16, ← cpl, hring]
  rw [interruptReturn, if_neg hout, iretOuter_eq Gdt.descriptors hstack, hlevel, hregs, hsegs]
  refine ⟨rfl, funext fun r => ?_, funext fun r => ?_⟩
  · cases r with
    | eax =>
      dsimp only
      rw [Function.update_self, Function.update_of_ne (by decide), savedEax, withLow8_withLow16,
        withLow8_withLow16]
      rfl
    | esp =>
      dsimp only
      rw [Function.update_self, Function.update_of_ne (by decide)]
    | _ => rfl
  · cases r with
    | ds =>
      have hkernelData : (0x10 : BitVec 32).setWidth 16 = 0x10#16 := by decide
      dsimp only
      rw [hkernelData, Gdt.clear_kernelData]
    | _ =>
      dsimp only
      rw [setWidth_setWidth_16]

/-- What has to be in the registers the stub does not bring back. -/
structure Fits (s : State) : Prop where
  eax : (s.regs .eax).setWidth 16 = 0x005C#16
  ds : s.segs .ds = 0#16
  data : ∀ r, r = .es ∨ r = .fs ∨ r = .gs →
    Gdt.descriptors.clear 3#2 (s.segs r) = s.segs r

/-- A call leaves every register as it was only if the marks were in `ax` before, `ds` was empty,
and the other data segment registers hold nothing that `iret` clears. -/
theorem resumes_iff (h : Layout g e) (hring : cpl s = 3#2)
    (ht : CdeclReturn 0 16 (isrSyscall g e s) t) : Resumes s (isrReturn t) ↔ Fits s := by
  obtain ⟨heip, hregs, hsegs⟩ := isrReturn_spec h hring ht
  constructor
  · intro hs
    have heax := congrFun (hregs.symm.trans hs.regs) .eax
    rw [Function.update_self] at heax
    have hseg := congrFun (hsegs.symm.trans hs.segs)
    refine ⟨(withLow16_eq_iff _ _).mp heax, (hseg .ds).symm, ?_⟩
    rintro r (rfl | rfl | rfl)
    · exact hseg .es
    · exact hseg .fs
    · exact hseg .gs
  · intro hfits
    refine ⟨?_, ?_, heip⟩
    · rw [hregs, (withLow16_eq_iff _ _).mpr hfits.eax, Function.update_eq_self]
    · rw [hsegs]
      funext r
      cases r with
      | cs => rfl
      | ss => rfl
      | ds => exact hfits.ds.symm
      | es => exact hfits.data .es (.inl rfl)
      | fs => exact hfits.data .fs (.inr (.inl rfl))
      | gs => exact hfits.data .gs (.inr (.inr rfl))

end Return

/-- The call of Ring 3 code, with a handler that returns at once. -/
theorem resumes_iff_userCall :
    Resumes userCode (isrReturn (exec .ret (isrSyscall sampleGlobals sampleEntry userCode))) ↔
      Fits userCode :=
  resumes_iff sampleLayout (by decide) (ret_cdecl 0 16 _)

/-- It comes back with 0x5C in `ax` and nothing in `ds`. -/
theorem userCall_changed : ¬∀ (g : Globals) (e : Entry) (s t : State), Layout g e →
    cpl s = 3#2 → CdeclReturn 0 16 (isrSyscall g e s) t → Resumes s (isrReturn t) := by
  intro hall
  have hcdecl := ret_cdecl 0 16 (isrSyscall sampleGlobals sampleEntry userCode)
  have hsame := hall _ _ _ _ sampleLayout (by decide) hcdecl
  obtain ⟨_, _, hsegs⟩ := isrReturn_spec sampleLayout (by decide) hcdecl
  have hds := congrFun (hsegs.symm.trans hsame.segs) .ds
  exact absurd hds (by decide)

end Syscall
