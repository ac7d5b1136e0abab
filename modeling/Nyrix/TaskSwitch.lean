import Mathlib.Data.BitVec
import Nyrix.Base.IA32
import Nyrix.Base.PackedBits

/-!
# The context switch (task_switch.asm)

`switch_to_task` stores the caller's context in one record and is to go on with the context
in another. After the return address has been popped the arguments are at `[esp]` and
`[esp+4]`; the routine reads its second argument from `[esp]`.
-/

namespace TaskSwitch

open ByteMemory PackedBits IA32

structure TaskContext where
  eip : BitVec 32
  eflags : BitVec 32
  eax : BitVec 32
  ecx : BitVec 32
  edx : BitVec 32
  ebx : BitVec 32
  esp : BitVec 32
  ebp : BitVec 32
  esi : BitVec 32
  edi : BitVec 32
  deriving DecidableEq

/-- The words of a record, in the order of the fields. -/
def TaskContext.word (c : TaskContext) : Nat → BitVec 32
  | 0 => c.eip
  | 1 => c.eflags
  | 2 => c.eax
  | 3 => c.ecx
  | 4 => c.edx
  | 5 => c.ebx
  | 6 => c.esp
  | 7 => c.ebp
  | 8 => c.esi
  | _ => c.edi

/-- The record at an address. -/
def contextAt (m : Mem) (a : Nat) : TaskContext where
  eip := load32 m a
  eflags := load32 m (a + 4)
  eax := load32 m (a + 8)
  ecx := load32 m (a + 12)
  edx := load32 m (a + 16)
  ebx := load32 m (a + 20)
  esp := load32 m (a + 24)
  ebp := load32 m (a + 28)
  esi := load32 m (a + 32)
  edi := load32 m (a + 36)

/-- `sizeof(TaskContext)`. -/
def contextSize : Nat := 40

/-- The first half of the routine. -/
def saveOld : List Instr :=
  [ .load .eax .esp 4
  , .popMem .eax 0
  , .pushfd
  , .popMem .eax 4
  , .store .eax 8 .eax
  , .store .eax 12 .ecx
  , .store .eax 16 .edx
  , .store .eax 20 .ebx
  , .lea .ecx .esp 0
  , .store .eax 24 .ecx
  , .store .eax 28 .ebp
  , .store .eax 32 .esi
  , .store .eax 36 .edi ]

/-- The second half. -/
def loadNew : List Instr :=
  [ .load .eax .esp 0
  , .pushMem .eax 4
  , .popfd
  , .load .esp .eax 24
  , .load .ebp .eax 28
  , .load .esi .eax 32
  , .load .edi .eax 36
  , .load .ebx .eax 20
  , .load .edx .eax 16
  , .load .ecx .eax 12
  , .pushMem .eax 0
  , .load .eax .eax 8
  , .ret ]

def switchToTask (s : State) : State := run (saveOld ++ loadNew) s

/-- The state on entry to `switch_to_task(&old, &new)`: the records and the frame of the
call are apart. -/
structure Call (s : State) (old new : BitVec 32) : Prop where
  oldArg : load32 s.mem ((s.regs .esp).toNat + 4) = old
  newArg : load32 s.mem ((s.regs .esp).toNat + 8) = new
  apart : Sep old.toNat contextSize new.toNat contextSize
  oldFrame : Sep old.toNat contextSize (s.regs .esp).toNat 12
  newFrame : Sep new.toNat contextSize (s.regs .esp).toNat 12
  flags : Plain s.eflags

/-- The context the call suspends. -/
def suspended (s : State) (old : BitVec 32) : TaskContext where
  eip := top s
  eflags := s.eflags
  eax := old
  ecx := s.regs .ecx
  edx := s.regs .edx
  ebx := s.regs .ebx
  esp := s.regs .esp + 4#32
  ebp := s.regs .ebp
  esi := s.regs .esi
  edi := s.regs .edi

/-- Memory after the first half: the record is complete, and the flags went through the
slot of the return address. -/
def savedMem (s : State) (old : BitVec 32) : Mem :=
  fill old.toNat (suspended s old).word 10 (store32 s.mem (s.regs .esp).toNat s.eflags)

/-- The context a state goes on with. -/
def running (s : State) : TaskContext where
  eip := s.eip
  eflags := s.eflags
  eax := s.regs .eax
  ecx := s.regs .ecx
  edx := s.regs .edx
  ebx := s.regs .ebx
  esp := s.regs .esp
  ebp := s.regs .ebp
  esi := s.regs .esi
  edi := s.regs .edi

theorem esp_back (x : BitVec 32) : x + 4#32 - 4#32 = x := BitVec.add_sub_cancel x 4#32

theorem fill_ten (a : Nat) (f : Nat → BitVec 32) (m : Mem) :
    fill a f 10 m = store32 (store32 (store32 (store32 (store32 (store32 (store32 (store32
      (store32 (store32 m a (f 0)) (a + 4) (f 1)) (a + 8) (f 2)) (a + 12) (f 3)) (a + 16) (f 4))
      (a + 20) (f 5)) (a + 24) (f 6)) (a + 28) (f 7)) (a + 32) (f 8)) (a + 36) (f 9) := rfl

theorem contextAt_fill (a : Nat) (c : TaskContext) (m : Mem) :
    contextAt (fill a c.word 10 m) a = c := by
  have h : ∀ i < 10, load32 (fill a c.word 10 m) (a + 4 * i) = c.word i :=
    fun i hi => fill_load a c.word 10 m (by decide) hi
  have h0 := h 0 (by decide)
  have h1 := h 1 (by decide)
  have h2 := h 2 (by decide)
  have h3 := h 3 (by decide)
  have h4 := h 4 (by decide)
  have h5 := h 5 (by decide)
  have h6 := h 6 (by decide)
  have h7 := h 7 (by decide)
  have h8 := h 8 (by decide)
  have h9 := h 9 (by decide)
  simp only [Nat.mul_zero, Nat.add_zero, Nat.reduceMul] at h0 h1 h2 h3 h4 h5 h6 h7 h8 h9
  simp only [contextAt, h0, h1, h2, h3, h4, h5, h6, h7, h8, h9, TaskContext.word]

theorem contextAt_frame {a n p : Nat} {m m' : Mem} (h : Frame a n m m')
    (hs : Sep a n p contextSize) : contextAt m' p = contextAt m p := by
  have hword : ∀ i, i + 4 ≤ contextSize → load32 m' (p + i) = load32 m (p + i) :=
    fun i hi => load32_frame h (sep_right hs i 4 hi)
  have h0 := hword 0 (by decide)
  rw [Nat.add_zero] at h0
  simp only [contextAt, h0, hword 4 (by decide), hword 8 (by decide), hword 12 (by decide),
    hword 16 (by decide), hword 20 (by decide), hword 24 (by decide), hword 28 (by decide),
    hword 32 (by decide), hword 36 (by decide)]

section Call

variable {s : State} {old new : BitVec 32}

/-- The slot of the return address is apart from both records. -/
theorem Call.oldSlot (h : Call s old new) :
    Sep old.toNat contextSize (s.regs .esp).toNat 4 := sep_front h.oldFrame 4 (by decide)

theorem Call.newSlot (h : Call s old new) :
    Sep new.toNat contextSize (s.regs .esp).toNat 4 := sep_front h.newFrame 4 (by decide)

theorem saveOld_mem (h : Call s old new) : (run saveOld s).mem = savedMem s old := by
  have hslot : Sep old.toNat 4 (s.regs .esp).toNat 4 := by
    have := sep_left h.oldSlot 0 4 (by decide)
    rwa [Nat.add_zero] at this
  have hflags : pushImage s.eflags = s.eflags := h.flags
  have hrest : (run saveOld s).mem = fill old.toNat (suspended s old).word 10
      (store32 s.mem (s.regs .esp).toNat s.eflags) := by
    simp [saveOld, exec, operand, h.oldArg, hflags, fill_ten, suspended, TaskContext.word,
      store32_comm _ _ _ _ _ hslot]
  exact hrest

theorem saveOld_regs (h : Call s old new) (r : Reg) :
    (run saveOld s).regs r = match r with
      | .eax => old
      | .ecx => s.regs .esp + 4#32
      | .esp => s.regs .esp + 4#32
      | r => s.regs r := by
  cases r <;> simp [saveOld, exec, operand, h.oldArg]

theorem saveOld_eflags : (run saveOld s).eflags = s.eflags := by
  simp [saveOld, exec]

end Call

/-- The second half goes on with whatever record the word on top of the stack points to. -/
theorem loadNew_spec {u : State} {c : BitVec 32} {q : TaskContext} (hc : top u = c)
    (hq : contextAt u.mem c.toNat = q)
    (hslot : Sep (u.regs .esp - 4#32).toNat 4 c.toNat contextSize)
    (hpush : Sep (q.esp - 4#32).toNat 4 c.toNat contextSize) :
    running (run loadNew u) = { q with eflags := popFlags q.eflags u.eflags } ∧
      (run loadNew u).mem = store32 (store32 u.mem (u.regs .esp - 4#32).toNat q.eflags)
        (q.esp - 4#32).toNat q.eip := by
  have hflags : load32 u.mem (c.toNat + 4) = q.eflags := congrArg TaskContext.eflags hq
  have hq₁ : contextAt (store32 u.mem (u.regs .esp - 4#32).toNat q.eflags) c.toNat = q :=
    (contextAt_frame (store32_frame _ _ _) hslot).trans hq
  have heip := congrArg TaskContext.eip hq₁
  have hecx := congrArg TaskContext.ecx hq₁
  have hedx := congrArg TaskContext.edx hq₁
  have hebx := congrArg TaskContext.ebx hq₁
  have hesp := congrArg TaskContext.esp hq₁
  have hebp := congrArg TaskContext.ebp hq₁
  have hesi := congrArg TaskContext.esi hq₁
  have hedi := congrArg TaskContext.edi hq₁
  have hq₂ : contextAt (store32 (store32 u.mem (u.regs .esp - 4#32).toNat q.eflags)
      (q.esp - 4#32).toNat q.eip) c.toNat = q :=
    (contextAt_frame (store32_frame _ _ _) hpush).trans hq₁
  have heax := congrArg TaskContext.eax hq₂
  simp only [contextAt] at heip hecx hedx hebx hesp hebp hesi hedi heax
  have htop : load32 u.mem (u.regs .esp).toNat = c := hc
  have hadd : q.esp - 4#32 + 4#32 = q.esp := BitVec.sub_add_cancel q.esp 4#32
  constructor
  · simp [-BitVec.toNat_sub, running, loadNew, exec, operand, htop, hflags, heip, hecx, hedx, hebx,
      hesp, hebp, hesi, hedi, heax, hadd]
  · simp [-BitVec.toNat_sub, loadNew, exec, operand, htop, hflags, heip, hesp]

/-- What the claim asks of a switch from `s` to `t`. -/
structure Switched (s t : State) (old new : BitVec 32) : Prop where
  oldEip : (contextAt t.mem old.toNat).eip = top s
  oldEflags : (contextAt t.mem old.toNat).eflags = s.eflags
  oldEbx : (contextAt t.mem old.toNat).ebx = s.regs .ebx
  oldEsp : (contextAt t.mem old.toNat).esp = s.regs .esp + 4#32
  oldEbp : (contextAt t.mem old.toNat).ebp = s.regs .ebp
  oldEsi : (contextAt t.mem old.toNat).esi = s.regs .esi
  oldEdi : (contextAt t.mem old.toNat).edi = s.regs .edi
  newKept : contextAt t.mem new.toNat = contextAt s.mem new.toNat
  resumed : running t = contextAt s.mem new.toNat

section Call

variable {s : State} {old new : BitVec 32}

/-- What the routine does: it completes the record of the old context, goes through the slot of
the return address besides, and goes on with the context it has just suspended. -/
theorem switchToTask_effect (h : Call s old new) :
    running (switchToTask s) = suspended s old ∧
      ∃ m m', Frame (s.regs .esp).toNat 4 s.mem m ∧ Frame old.toNat contextSize m m' ∧
        contextAt m' old.toNat = suspended s old ∧
        Frame (s.regs .esp).toNat 4 m' (switchToTask s).mem := by
  have hrecord : contextAt (savedMem s old) old.toNat = suspended s old := contextAt_fill _ _ _
  have hmem := saveOld_mem h
  have hsp : (run saveOld s).regs .esp = s.regs .esp + 4#32 := saveOld_regs h .esp
  have hslot : (s.regs .esp + 4#32 - 4#32).toNat = (s.regs .esp).toNat := by rw [esp_back]
  -- the word the routine takes for its second argument is the first
  have harg : top (run saveOld s) = old := by
    have hnext : (s.regs .esp + 4#32).toNat = ((s.regs .esp).toNat + 4) % 4294967296 := by
      rw [BitVec.toNat_add]
      rfl
    have hargs : Sep old.toNat contextSize ((s.regs .esp).toNat + 4) 4 :=
      sep_right h.oldFrame 4 4 (by decide)
    have hstack : Sep (s.regs .esp).toNat 4 ((s.regs .esp).toNat + 4) 4 := by
      have := sep_of_offset (a := (s.regs .esp).toNat) (i := 0) (n := 4) (j := 4) (k := 4)
        (.inl (by decide)) (by decide) (by decide)
      rwa [Nat.add_zero] at this
    rw [top, hsp, hnext, load32_mod, hmem, savedMem, load32_frame (fill_frame _ _ _ _) hargs,
      load32_frame (store32_frame _ _ _) hstack, h.oldArg]
  obtain ⟨hrun, hfinal⟩ := loadNew_spec (u := run saveOld s) (q := suspended s old) harg
    (by rw [hmem, hrecord])
    (by rw [hsp, hslot]; exact sep_comm h.oldSlot)
    (by rw [suspended, hslot]; exact sep_comm h.oldSlot)
  have hswitch : switchToTask s = run loadNew (run saveOld s) := run_append _ _ _
  have hself : popFlags (suspended s old).eflags s.eflags = s.eflags := by
    have hflags : pushImage s.eflags = s.eflags := h.flags
    have := popFlags_pushImage h.flags
    rwa [hflags] at this
  rw [hmem, hsp, hslot, suspended, hslot] at hfinal
  constructor
  · rw [hswitch, hrun, saveOld_eflags, hself]
    rfl
  · refine ⟨_, savedMem s old, store32_frame s.mem (s.regs .esp).toNat s.eflags,
      fill_frame old.toNat (suspended s old).word 10 _, hrecord, ?_⟩
    rw [hswitch, hfinal]
    exact frame_trans (store32_frame _ _ _) (store32_frame _ _ _)

theorem switchToTask_spec (h : Call s old new) :
    running (switchToTask s) = suspended s old ∧
      contextAt (switchToTask s).mem old.toNat = suspended s old ∧
      ∀ p, Sep old.toNat contextSize p contextSize → Sep (s.regs .esp).toNat 4 p contextSize →
        contextAt (switchToTask s).mem p = contextAt s.mem p := by
  obtain ⟨hrun, m, m', hflags, hrecord, hcontext, hslot⟩ := switchToTask_effect h
  refine ⟨hrun, ?_, ?_⟩
  · rw [contextAt_frame hslot (sep_comm h.oldSlot), hcontext]
  · intro p hp hpslot
    rw [contextAt_frame hslot hpslot, contextAt_frame hrecord hp, contextAt_frame hflags hpslot]

theorem switchToTask_segs (s : State) : (switchToTask s).segs = s.segs := by
  simp [switchToTask, saveOld, loadNew, exec]

theorem switchToTask_out (s : State) : (switchToTask s).out = s.out := by
  simp [switchToTask, saveOld, loadNew, exec]

/-- A call switches as it should only if the other record holds the very context that the
call suspends. -/
theorem switched_iff (h : Call s old new) :
    Switched s (switchToTask s) old new ↔ contextAt s.mem new.toNat = suspended s old := by
  obtain ⟨hrun, hold, hother⟩ := switchToTask_spec h
  constructor
  · intro hs
    rw [← hs.resumed, hrun]
  · intro heq
    constructor
    case newKept => exact hother _ h.apart (sep_comm h.newSlot)
    case resumed => rw [hrun, heq]
    all_goals
      rw [hold]
      rfl

end Call

/-- The words of a context that a caller relies on when `switch_to_task` returns to it. -/
def SameFrame (c d : TaskContext) : Prop :=
  c.eip = d.eip ∧ c.eflags = d.eflags ∧ c.ebx = d.ebx ∧ c.esp = d.esp ∧ c.ebp = d.ebp ∧
    c.esi = d.esi ∧ c.edi = d.edi

/-- A run of the kernel with its switches. `saved` tells which contexts are suspended, and
with what; between switches any code runs that leaves their records alone. -/
inductive Chain : State → (BitVec 32 → Option TaskContext) → Prop where
  | start (s : State) : Chain s (fun _ => none)
  | work {s t : State} {saved : BitVec 32 → Option TaskContext} (h : Chain s saved)
      (hkeep : ∀ r, saved r ≠ none → contextAt t.mem r.toNat = contextAt s.mem r.toNat) :
      Chain t saved
  | switch {s : State} {saved : BitVec 32 → Option TaskContext} {old new : BitVec 32}
      (h : Chain s saved) (hcall : Call s old new)
      (hapart : ∀ r, saved r ≠ none → r ≠ old → Sep old.toNat contextSize r.toNat contextSize ∧
        Sep (s.regs .esp).toNat 4 r.toNat contextSize) :
      Chain (switchToTask s) (Function.update saved old (some (suspended s old)))

/-- The record of a suspended context holds what was suspended. -/
theorem chain_records {s : State} {saved : BitVec 32 → Option TaskContext} (h : Chain s saved) :
    ∀ r c, saved r = some c → contextAt s.mem r.toNat = c := by
  induction h with
  | start s =>
    intro r c hr
    cases hr
  | work h hkeep ih =>
    intro r c hr
    rw [hkeep r (by simp [hr]), ih r c hr]
  | @switch s saved old new h hcall hapart ih =>
    intro r c hr
    by_cases hro : r = old
    · subst hro
      rw [Function.update_self, Option.some.injEq] at hr
      rw [(switchToTask_spec hcall).2.1, hr]
    · rw [Function.update_of_ne hro] at hr
      obtain ⟨hrecord, hslot⟩ := hapart r (by simp [hr]) hro
      rw [(switchToTask_spec hcall).2.2 _ hrecord hslot, ih r c hr]

/-- A call switches only if the other record holds the very context the call suspends. At
the end of a chain, switching back to a suspended context makes the call that suspended it
return only if its record agrees with the context being suspended now. -/
theorem switch_iff {s : State} {old new : BitVec 32} (h : Call s old new) :
    (Switched s (switchToTask s) old new ↔ contextAt s.mem new.toNat = suspended s old) ∧
    ∀ saved, Chain s saved → ∀ c, saved new = some c →
      (SameFrame (running (switchToTask s)) c ↔
        SameFrame (contextAt s.mem new.toNat) (suspended s old)) := by
  refine ⟨switched_iff h, ?_⟩
  intro saved hchain c hc
  have hrecord := chain_records hchain new c hc
  have hrun := (switchToTask_spec h).1
  rw [hrun, hrecord]
  constructor
  · rintro ⟨h₁, h₂, h₃, h₄, h₅, h₆, h₇⟩
    exact ⟨h₁.symm, h₂.symm, h₃.symm, h₄.symm, h₅.symm, h₆.symm, h₇.symm⟩
  · rintro ⟨h₁, h₂, h₃, h₄, h₅, h₆, h₇⟩
    exact ⟨h₁.symm, h₂.symm, h₃.symm, h₄.symm, h₅.symm, h₆.symm, h₇.symm⟩

/-- A call made with the stack pointer at 0x3000, on top of any memory. -/
def callAt (m : Mem) (old new : BitVec 32) : State where
  regs := fun r => if r = .esp then 0x3000#32 else 0#32
  segs := fun _ => 0x10#16
  eflags := 0x202#32
  eip := 0#32
  mem := store32 (store32 m 0x3004 old) 0x3008 new
  out := []

theorem callAt_contextAt (m : Mem) (old new : BitVec 32) {p : Nat}
    (hp : p + contextSize ≤ 0x3000) : contextAt (callAt m old new).mem p = contextAt m p := by
  simp only [contextSize] at hp
  have h₁ : Sep 0x3004 4 p contextSize := sep_of_ge (by simp only [contextSize]; omega) (by decide)
  have h₂ : Sep 0x3008 4 p contextSize := sep_of_ge (by simp only [contextSize]; omega) (by decide)
  rw [callAt, contextAt_frame (store32_frame _ _ _) h₂, contextAt_frame (store32_frame _ _ _) h₁]

theorem callAt_call (m : Mem) {old new : BitVec 32} (hold : old.toNat + contextSize ≤ 0x3000)
    (hnew : new.toNat + contextSize ≤ 0x3000)
    (h : Sep old.toNat contextSize new.toNat contextSize) : Call (callAt m old new) old new := by
  have hesp : ((callAt m old new).regs .esp).toNat = 0x3000 := rfl
  constructor
  · rw [hesp, callAt, load32_store32_of_sep _ _ _ _ (sep_of_ge (by decide) (by decide)),
      load32_store32_same]
  · rw [hesp, callAt, load32_store32_same]
  · exact h
  · rw [hesp]
    exact sep_of_le hold (by decide)
  · rw [hesp]
    exact sep_of_le hnew (by decide)
  · exact (show Plain 0x202#32 by decide)

/-- Two contexts at 0x1000 and 0x2000 switch to each other in turn. -/
def firstSwitch : State := callAt (fun _ => 0) 0x1000 0x2000

def secondSwitch : State := callAt (switchToTask firstSwitch).mem 0x2000 0x1000

theorem firstSwitch_call : Call firstSwitch 0x1000 0x2000 :=
  callAt_call _ (by decide) (by decide) (sep_of_le (by decide) (by decide))

theorem secondSwitch_call : Call secondSwitch 0x2000 0x1000 :=
  callAt_call _ (by decide) (by decide) (sep_of_ge (by decide) (by decide))

theorem secondSwitch_chain : ∃ saved, Chain secondSwitch saved ∧
    saved 0x1000 = some (suspended firstSwitch 0x1000) := by
  refine ⟨_, .work (.switch (.start firstSwitch) firstSwitch_call ?_) ?_, Function.update_self _ _ _⟩
  · intro r hr
    exact absurd rfl hr
  · intro r hr
    by_cases h : r = 0x1000
    · subst h
      exact callAt_contextAt _ _ _ (by decide)
    · rw [Function.update_of_ne h] at hr
      exact absurd rfl hr

theorem switch_iff_twoTasks :
    (Switched firstSwitch (switchToTask firstSwitch) 0x1000 0x2000 ↔
      contextAt firstSwitch.mem 0x2000 = suspended firstSwitch 0x1000) ∧
    (SameFrame (running (switchToTask secondSwitch)) (suspended firstSwitch 0x1000) ↔
      SameFrame (contextAt secondSwitch.mem 0x1000) (suspended secondSwitch 0x2000)) := by
  obtain ⟨saved, hchain, hsaved⟩ := secondSwitch_chain
  exact ⟨(switch_iff firstSwitch_call).1,
    (switch_iff secondSwitch_call).2 saved hchain _ hsaved⟩

/-- The first of these calls returns to its own caller: the flags of the other context are
not loaded. -/
theorem switchToTask_resumes_old :
    Call firstSwitch 0x1000 0x2000 ∧
      ¬Switched firstSwitch (switchToTask firstSwitch) 0x1000 0x2000 ∧
      running (switchToTask firstSwitch) = suspended firstSwitch 0x1000 := by
  have hrun := (switchToTask_spec firstSwitch_call).1
  refine ⟨firstSwitch_call, ?_, hrun⟩
  intro h
  have hflags : (contextAt firstSwitch.mem 0x2000).eflags = 0x202#32 :=
    congrArg TaskContext.eflags (h.resumed.symm.trans hrun)
  have hzero : contextAt firstSwitch.mem 0x2000 = contextAt (fun _ => 0) 0x2000 :=
    callAt_contextAt _ _ _ (by decide)
  rw [hzero] at hflags
  exact absurd hflags (by decide)

end TaskSwitch
