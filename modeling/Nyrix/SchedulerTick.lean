import Nyrix.InterruptCommon

/-!
# One timer interrupt

Whatever task `task_switch` names, `switch_to_task` returns to its caller, so the interrupt
ends in the code it interrupted.
-/

namespace Scheduler

open ByteMemory IA32 InterruptFrame TaskSwitch

/-- What `irq_common` finds on the stack when `irq_handler` returns, from the top on. -/
def savedWords (vector : BitVec 32) (s : IA32.State) : List (BitVec 32) :=
  [ s.regs .esp - 68#32, (s.segs .gs).setWidth 32, (s.segs .fs).setWidth 32
  , (s.segs .es).setWidth 32, (s.segs .ds).setWidth 32, s.regs .edi, s.regs .esi, s.regs .ebp
  , s.regs .esp - 20#32, s.regs .ebx, s.regs .edx, s.regs .ecx, s.regs .eax, vector, 0, s.eip
  , (s.segs .cs).setWidth 32, s.eflags ]

section Entry

variable (g : Layout) (vector : BitVec 32) (s : IA32.State)

theorem irqEntry_stacked : Stacked (irqEntry g vector s).mem ((irqEntry g vector s).regs .esp)
    (g.backIrq :: savedWords vector s) := by
  obtain ⟨t, ht⟩ : ∃ t, pushAll [0, vector] (intGate 0x08 g.irqStub s) = t := ⟨_, rfl⟩
  have hnone : Stacked s.mem (s.regs .esp) [] := trivial
  have hgate := intGate_stacked 0x08 g.irqStub hnone (by decide)
  have hcodes := stacked_pushAll [0, vector] hgate (by simp)
  rw [ht] at hcodes
  have hall := commonEntry_stacked g.backIrq hcodes (by simp)
  have hreg : ∀ r, r ≠ .esp → t.regs r = s.regs r := by
    intro r hr
    rw [← ht, pushAll_reg _ _ hr, intGate_reg _ _ hr]
  have hesp : t.regs .esp = s.regs .esp - 20#32 := by
    rw [← ht, pushAll_esp, intGate_esp, BitVec.sub_sub]
    rfl
  have hesp' : t.regs .esp - 48#32 = s.regs .esp - 68#32 := by
    rw [hesp, BitVec.sub_sub]
    rfl
  have hseg : ∀ r, r ≠ .cs → t.segs r = s.segs r := by
    intro r hr
    rw [← ht, (pushAll_rest _ _).1, intGate_seg _ _ hr]
  rw [hesp', hseg .gs (by decide), hseg .fs (by decide), hseg .es (by decide),
    hseg .ds (by decide), hreg .edi (by decide), hreg .esi (by decide), hreg .ebp (by decide), hesp,
    hreg .ebx (by decide), hreg .edx (by decide), hreg .ecx (by decide),
    hreg .eax (by decide)] at hall
  rw [irqEntry, ht]
  exact hall

theorem irqEntry_eq : irqEntry g vector s =
    commonEntry g.backIrq (pushAll [0, vector] (intGate 0x08 g.irqStub s)) := rfl

theorem irqEntry_esp : (irqEntry g vector s).regs .esp = s.regs .esp - 76#32 := by
  rw [irqEntry_eq, commonEntry_esp, pushAll_esp, intGate_esp, BitVec.sub_sub, BitVec.sub_sub]
  rfl

theorem irqEntry_rest : (irqEntry g vector s).eflags = s.eflags &&& ~~~0x00034300#32 ∧
    (irqEntry g vector s).segs .ss = s.segs .ss ∧ (irqEntry g vector s).out = s.out := by
  obtain ⟨t, ht⟩ : ∃ t, intGate 0x08 g.irqStub s = t := ⟨_, rfl⟩
  obtain ⟨hflags, _, hss, hout⟩ := commonEntry_rest g.backIrq (pushAll [0, vector] t)
  obtain ⟨hsegs', hflags', _, hout'⟩ := pushAll_rest [0, vector] t
  rw [irqEntry_eq, ht, hflags, hss, hout, hflags', hsegs', hout', ← ht, intGate_seg _ _ (by decide)]
  exact ⟨rfl, rfl, rfl⟩

end Entry

theorem irqExit_eq {vector : BitVec 32} {s t : IA32.State}
    (h : Stacked t.mem (t.regs .esp) (savedWords vector s))
    (hesp : t.regs .esp + 72#32 = s.regs .esp) (hss : t.segs .ss = s.segs .ss) :
    irqExit t = { t with
      regs := s.regs
      segs := s.segs
      eip := s.eip
      eflags := iretFlags s.eflags t.eflags } := by
  obtain ⟨hrestored, hframe⟩ := commonRestore_eq (stacked_drop h 1)
  have hframe' : Stacked (commonRestore t).mem ((commonRestore t).regs .esp)
      [s.eip, (s.segs .cs).setWidth 32, s.eflags] := by
    rw [hrestored]
    exact hframe
  have hexit : irqExit t = iret (commonRestore t) := rfl
  rw [hexit, iret_eq hframe', hrestored]
  dsimp only
  congr 1
  · funext r
    cases r with
    | esp =>
      rw [Function.update_self, BitVec.add_assoc, ← hesp]
      rfl
    | _ => rfl
  · funext r
    cases r with
    | cs => exact setWidth_setWidth_16 _
    | ss => exact hss
    | _ => exact setWidth_setWidth_16 _

/-- `switch_to_task` returns to its caller, whose stack it leaves as it was. -/
theorem switchToTask_stacked {s : IA32.State} {old new back : BitVec 32} {vs : List (BitVec 32)}
    (h : Call s old new) (hst : Stacked s.mem (s.regs .esp) (back :: vs))
    (hsep : Sep old.toNat contextSize (s.regs .esp).toNat (4 * vs.length + 4))
    (hlen : 4 * vs.length + 4 ≤ 4294967296) :
    (switchToTask s).eip = back ∧ (switchToTask s).eflags = s.eflags ∧
      (switchToTask s).regs .esp = s.regs .esp + 4#32 ∧
      Stacked (switchToTask s).mem ((switchToTask s).regs .esp) vs := by
  obtain ⟨hrun, m, m', hflags, hrecord, _, hslot⟩ := switchToTask_effect h
  obtain ⟨t, ht⟩ : ∃ t, switchToTask s = t := ⟨_, rfl⟩
  rw [ht] at hrun hslot ⊢
  have heip : t.eip = top s := congrArg TaskContext.eip hrun
  have heflags : t.eflags = s.eflags := congrArg TaskContext.eflags hrun
  have hesp : t.regs .esp = s.regs .esp + 4#32 := congrArg TaskContext.esp hrun
  have hrest : Sep (s.regs .esp).toNat 4 (s.regs .esp + 4#32).toNat (4 * vs.length) := by
    rw [toNat_add_four, sep_mod]
    have hoff := sep_of_offset (a := (s.regs .esp).toNat) (i := 0) (n := 4) (j := 4)
      (k := 4 * vs.length) (.inl (by decide)) (by decide) (by omega)
    rwa [Nat.add_zero] at hoff
  have hold : Sep old.toNat contextSize (s.regs .esp + 4#32).toNat (4 * vs.length) := by
    rw [toNat_add_four, sep_mod]
    exact sep_right hsep 4 (4 * vs.length) (by omega)
  obtain ⟨hback, hvs⟩ := hst
  have htop : top s = back := hback
  have hstacked := stacked_frame hslot
    (stacked_frame hrecord (stacked_frame hflags hvs hrest) hold) hrest
  rw [hesp, heip, heflags, htop]
  exact ⟨rfl, rfl, rfl, hstacked⟩

/-- The task `task_switch` names next. -/
def Layout.other (g : Layout) (task : BitVec 32) : BitVec 32 :=
  if task = g.mainTask then g.testTask else g.mainTask

/-- Some function called by the kernel is about to return: it ran on the boot stack, and the
words in `ws` are left there. -/
structure Returning (g : Layout) (ws : List (BitVec 32)) (s t : IA32.State) : Prop where
  eflags : t.eflags = s.eflags
  segs : t.segs = s.segs
  out : t.out = s.out
  esp : t.regs .esp = s.regs .esp + 4#32
  stacked : Stacked t.mem (t.regs .esp) ws

section Calls

variable {g : Layout} {s : State} {back : BitVec 32} {ws : List (BitVec 32)}

/-- A state in which the timer interrupt can be served on the boot stack, `depth` bytes of which
are still needed. -/
structure Servable (g : Layout) (depth used : Nat) (s : State) : Prop where
  active : s.testTask.active = true
  current : s.currentTask = g.mainTask ∨ s.currentTask = g.testTask
  plain : Plain s.cpu.eflags
  low : g.bootStack + depth ≤ (s.cpu.regs .esp).toNat
  high : (s.cpu.regs .esp).toNat + used ≤ g.bootStack + bootStackSize

theorem Servable.apart {depth used : Nat} (h : Servable g depth used s) {a n : Nat}
    (ha : g.bootStack ≤ a) (hn : a + n ≤ g.bootStack + bootStackSize) :
    Sep s.currentTask.toNat contextSize a n ∧ Sep (g.other s.currentTask).toNat contextSize a n := by
  have hboth : ∀ task, task = g.mainTask ∨ task = g.testTask → Sep task.toNat contextSize a n := by
    have hpart : ∀ task, Sep task contextSize g.bootStack bootStackSize →
        Sep task contextSize a n := by
      intro task hsep
      have hin := sep_right hsep (a - g.bootStack) n (by omega)
      rwa [Nat.add_sub_of_le ha] at hin
    rintro task (rfl | rfl)
    · exact hpart _ g.mainApart
    · exact hpart _ g.testApart
  refine ⟨hboth _ h.current, hboth _ ?_⟩
  rw [Layout.other]
  split_ifs
  · exact .inr rfl
  · exact .inl rfl

theorem Servable.records {depth used : Nat} (h : Servable g depth used s) :
    Sep s.currentTask.toNat contextSize (g.other s.currentTask).toNat contextSize := by
  rw [Layout.other]
  split_ifs with hmain
  · rw [hmain]
    exact g.tasksApart
  · obtain hcur | hcur := h.current
    · exact absurd hcur hmain
    · rw [hcur]
      exact sep_comm g.tasksApart

/-- The state in which `task_switch` has called `switch_to_task`. -/
structure Switching (g : Layout) (back : BitVec 32) (ws : List (BitVec 32)) (s : State)
    (c : IA32.State) : Prop where
  call : Call c s.currentTask (g.other s.currentTask)
  stacked : Stacked c.mem (c.regs .esp)
    (g.backSwitch :: s.currentTask :: g.other s.currentTask :: back :: ws)
  esp : c.regs .esp = s.cpu.regs .esp - 12#32
  espNat : (c.regs .esp).toNat = (s.cpu.regs .esp).toNat - 12
  eflags : c.eflags = s.cpu.eflags
  segs : c.segs = s.cpu.segs
  out : c.out = s.cpu.out

theorem switching_call (h : Servable g 12 (4 * ws.length + 4) s)
    (hst : Stacked s.cpu.mem (s.cpu.regs .esp) (back :: ws)) :
    Switching g back ws s
      (push g.backSwitch (pushAll [g.other s.currentTask, s.currentTask] s.cpu)) := by
  obtain ⟨hsegs, hflags, _, hout⟩ := pushAll_rest [g.other s.currentTask, s.currentTask] s.cpu
  obtain ⟨c, hc⟩ : ∃ c, push g.backSwitch (pushAll [g.other s.currentTask, s.currentTask] s.cpu) =
      c := ⟨_, rfl⟩
  have hlow := h.low
  have hhigh := h.high
  have hstack : bootStackSize = 16384 := rfl
  have hlen : 4 * ws.length + 16 ≤ 4294967296 := by omega
  have hcalled : Stacked c.mem (c.regs .esp)
      (g.backSwitch :: s.currentTask :: g.other s.currentTask :: back :: ws) := by
    rw [← hc]
    refine stacked_push _ (stacked_pushAll [g.other s.currentTask, s.currentTask] hst ?_) ?_
    · simp only [List.length_cons, List.length_nil]
      omega
    · simp only [List.length_cons]
      omega
  have hesp : c.regs .esp = s.cpu.regs .esp - 12#32 := by
    rw [← hc, push_esp, pushAll_esp, BitVec.sub_sub]
    rfl
  have hnat : (c.regs .esp).toNat = (s.cpu.regs .esp).toNat - 12 := by
    rw [hesp]
    apply BitVec.toNat_sub_of_le
    rw [BitVec.le_def]
    exact Nat.le_trans (Nat.le_add_left 12 g.bootStack) hlow
  have hcflags : c.eflags = s.cpu.eflags := by rw [← hc, push_eflags, hflags]
  obtain ⟨hold, hnew⟩ := h.apart (a := (c.regs .esp).toNat) (n := 12) (by omega) (by omega)
  have hcall : Call c s.currentTask (g.other s.currentTask) := by
    refine ⟨stacked_get hcalled (i := 1) rfl rfl, stacked_get hcalled (i := 2) rfl rfl, h.records,
      hold, hnew, ?_⟩
    rw [hcflags]
    exact h.plain
  have hcsegs : c.segs = s.cpu.segs := by rw [← hc, push_segs, hsegs]
  have hcout : c.out = s.cpu.out := by rw [← hc, push_out, hout]
  rw [hc]
  exact ⟨hcall, hcalled, hesp, hnat, hcflags, hcsegs, hcout⟩

theorem taskSwitch_returns (h : Servable g 12 (4 * ws.length + 4) s)
    (hst : Stacked s.cpu.mem (s.cpu.regs .esp) (back :: ws)) :
    ∃ cpu, taskSwitch g s = { s with cpu := cpu, currentTask := g.other s.currentTask } ∧
      cpu.eip = back ∧ Returning g ws s.cpu cpu := by
  have hsw := switching_call h hst
  obtain ⟨c, hc⟩ : ∃ c, push g.backSwitch (pushAll [g.other s.currentTask, s.currentTask] s.cpu) =
      c := ⟨_, rfl⟩
  obtain ⟨t, ht⟩ : ∃ t, switchToTask c = t := ⟨_, rfl⟩
  rw [hc] at hsw
  have hlow := h.low
  have hhigh := h.high
  have hstack : bootStackSize = 16384 := rfl
  have hnat := hsw.espNat
  obtain ⟨hold, _⟩ := h.apart (a := (c.regs .esp).toNat) (n := 4 * (ws.length + 3) + 4) (by omega)
    (by omega)
  obtain ⟨heip, heflags, htesp, htst⟩ := switchToTask_stacked hsw.call hsw.stacked hold (by
    simp only [List.length_cons]
    omega)
  have htsegs := switchToTask_segs c
  have htout := switchToTask_out c
  rw [ht] at heip heflags htesp htst htsegs htout
  obtain ⟨_, _, hback, hrest⟩ := htst
  have hpop : (drop (drop t)).regs .esp = t.regs .esp + 4#32 + 4#32 := by
    rw [drop_esp, drop_esp]
  have htop : top (drop (drop t)) = back := by
    rw [top, hpop, drop_mem, drop_mem]
    exact hback
  have hend : t.regs .esp + 4#32 + 4#32 + 4#32 = s.cpu.regs .esp + 4#32 := by
    have hsum : c.regs .esp + 12#32 = s.cpu.regs .esp := by
      rw [hsw.esp, BitVec.sub_add_cancel]
    rw [htesp, ← hsum]
    simp only [BitVec.add_assoc]
    rfl
  have hrun : taskSwitch g s = returned g.backSwitch (fun cpu => exec .ret (drop (drop cpu)))
      { s with currentTask := g.other s.currentTask, cpu := t } := by
    simp only [taskSwitch, h.active, Bool.not_true, Bool.false_eq_true, if_false, call, ← ht, ← hc]
    rfl
  refine ⟨exec .ret (drop (drop t)), hrun.trans (if_pos heip), htop, heflags.trans hsw.eflags,
    htsegs.trans hsw.segs, htout.trans hsw.out, ?_, ?_⟩
  · rw [ret_esp, hpop, hend]
  · rw [ret_esp, ret_mem, hpop, drop_mem, drop_mem]
    exact hrest

/-- The handler sends the end of interrupt to the first controller and switches. -/
theorem irqHandler_returns (keyboard : State → State) {t : IA32.State}
    (h : Servable g 16 76 s) (hesp : s.cpu.regs .esp = t.regs .esp - 76#32)
    (hst : Stacked s.cpu.mem (s.cpu.regs .esp) (back :: savedWords 32 t)) :
    ∃ cpu, irqHandler g keyboard s =
        { s with cpu := cpu, currentTask := g.other s.currentTask } ∧
      cpu.eip = back ∧
      Returning g (savedWords 32 t) { s.cpu with out := s.cpu.out ++ [(0x20, 0x20)] } cpu := by
  obtain ⟨u, hu⟩ : ∃ u, call g.backTask [] (outb 0x20 0x20 s) = u := ⟨_, rfl⟩
  have hust : Stacked u.cpu.mem (u.cpu.regs .esp) (g.backTask :: back :: savedWords 32 t) := by
    rw [← hu]
    exact stacked_push g.backTask hst (by simp [savedWords])
  have huesp : u.cpu.regs .esp = s.cpu.regs .esp - 4#32 := by
    rw [← hu]
    exact push_esp _ _
  have hnat : (u.cpu.regs .esp).toNat = (s.cpu.regs .esp).toNat - 4 := by
    have hlow := h.low
    rw [huesp]
    apply BitVec.toNat_sub_of_le
    rw [BitVec.le_def]
    exact Nat.le_trans (by decide) (Nat.le_trans (Nat.le_add_left 16 g.bootStack) hlow)
  have hservable : Servable g 12 (4 * (back :: savedWords 32 t).length + 4) u := by
    have hlow := h.low
    have hhigh := h.high
    rw [← hu] at hnat ⊢
    refine ⟨h.active, h.current, h.plain, by omega, ?_⟩
    simp only [savedWords, List.length_cons, List.length_nil]
    omega
  have hptr : load32 s.cpu.mem ((s.cpu.regs .esp).toNat + 4) = t.regs .esp - 68#32 :=
    stacked_get hst (i := 1) rfl rfl
  have hint : load32 s.cpu.mem ((t.regs .esp - 68#32).toNat + 48) = 32#32 := by
    refine stacked_get hst (i := 14) rfl ?_
    rw [hesp, BitVec.toNat_sub, BitVec.toNat_sub, BitVec.toNat_ofNat, BitVec.toNat_ofNat]
    omega
  obtain ⟨cpu, hswitch, heip, hret⟩ := taskSwitch_returns hservable hust
  have hrun : irqHandler g keyboard s = returned g.backTask (exec .ret) (taskSwitch g u) := by
    have hfirst : ¬40 ≤ (32#32).toNat := by decide
    have hkey : (32#32 : BitVec 32) ≠ 33#32 := by decide
    simp only [irqHandler, hptr, hint, if_neg hfirst, if_neg hkey, if_true, hu]
  have htop : top cpu = back := hret.stacked.1
  refine ⟨exec .ret cpu, ?_, htop, ?_⟩
  · rw [hrun, hswitch, ← hu]
    exact if_pos heip
  · constructor
    · exact hret.eflags.trans (by rw [← hu]; rfl)
    · exact hret.segs.trans (by rw [← hu]; rfl)
    · exact hret.out.trans (by rw [← hu]; rfl)
    · rw [ret_esp, hret.esp, huesp, BitVec.sub_add_cancel]
    · rw [ret_esp, ret_mem]
      exact hret.stacked.2

end Calls

theorem intGate_plain {f : BitVec 32} (h : Plain f) : Plain (f &&& ~~~0x00034300#32) := by
  rw [Plain, pushImage, BitVec.and_assoc, BitVec.and_comm (~~~0x00034300#32), ← BitVec.and_assoc]
  exact congrArg (· &&& _) h

/-- A timer interrupt on the boot stack ends where it began, whichever task was current. -/
theorem tick_eq {g : Layout} (keyboard : State → State) {s : State} (h : Servable g 92 0 s) :
    ∃ m, tick g keyboard s =
      { s with
        cpu := { s.cpu with mem := m, out := s.cpu.out ++ [(0x20, 0x20)] }
        currentTask := g.other s.currentTask } := by
  obtain ⟨hflags, hss, hout⟩ := irqEntry_rest g 32 s.cpu
  have hesp := irqEntry_esp g 32 s.cpu
  have hservable : Servable g 16 76 { s with cpu := irqEntry g 32 s.cpu } := by
    have hlow := h.low
    have hhigh := h.high
    have hnat : ((irqEntry g 32 s.cpu).regs .esp).toNat = (s.cpu.regs .esp).toNat - 76 := by
      rw [hesp]
      apply BitVec.toNat_sub_of_le
      rw [BitVec.le_def]
      exact Nat.le_trans (by decide) (Nat.le_trans (Nat.le_add_left 92 g.bootStack) hlow)
    refine ⟨h.active, h.current, ?_, ?_, ?_⟩
    · change Plain (irqEntry g 32 s.cpu).eflags
      rw [hflags]
      exact intGate_plain h.plain
    · change g.bootStack + 16 ≤ ((irqEntry g 32 s.cpu).regs .esp).toNat
      omega
    · change ((irqEntry g 32 s.cpu).regs .esp).toNat + 76 ≤ g.bootStack + bootStackSize
      omega
  obtain ⟨cpu, hrun, heip, hret⟩ := irqHandler_returns keyboard hservable hesp
    (irqEntry_stacked g 32 s.cpu)
  have hesp' : cpu.regs .esp + 72#32 = s.cpu.regs .esp := by
    rw [hret.esp, hesp, BitVec.add_assoc]
    exact BitVec.sub_add_cancel _ _
  have hexit := irqExit_eq hret.stacked hesp' ((congrFun hret.segs .ss).trans hss)
  have hflags' : iretFlags s.cpu.eflags cpu.eflags = s.cpu.eflags := by
    rw [hret.eflags, hflags]
    exact iretFlags_intGate h.plain
  refine ⟨cpu.mem, ?_⟩
  rw [tick, interrupt, hrun]
  refine (if_pos heip).trans ?_
  rw [hexit, hflags', hret.out, hout]

end Scheduler
