import Mathlib.Algebra.Group.Nat.Even
import Nyrix.SchedulerTick

/-!
# Which task runs

From `tasking_init` on the CPU never leaves the boot stack, while `current_task` changes with
every timer interrupt: the two agree after every second one only.
-/

namespace Scheduler

open ByteMemory IA32 TaskSwitch

def Layout.stackBase (g : Layout) (task : BitVec 32) : Nat :=
  if task = g.mainTask then g.bootStack else g.testStack

def Layout.stackSize (g : Layout) (task : BitVec 32) : Nat :=
  if task = g.mainTask then bootStackSize else testStackSize

/-- The stack pointer lies in the stack of the task. -/
def Executes (g : Layout) (s : State) (task : BitVec 32) : Prop :=
  (task = g.mainTask ∨ task = g.testTask) ∧ g.stackBase task < (s.cpu.regs .esp).toNat ∧
    (s.cpu.regs .esp).toNat ≤ g.stackBase task + g.stackSize task

/-- What runs between two timer interrupts stays on its stack and leaves the tasks alone. -/
structure Work (g : Layout) (s t : State) : Prop where
  mainTask : t.mainTask = s.mainTask
  testTask : t.testTask = s.testTask
  currentTask : t.currentTask = s.currentTask
  stack : ∀ task, Executes g s task → Executes g t task

/-- Interrupts are on, and the stack has room for one. -/
structure Interruptible (g : Layout) (s : State) : Prop where
  enabled : s.cpu.eflags.getLsbD 9 = true
  plain : Plain s.cpu.eflags
  room : ∀ task, Executes g s task → g.stackBase task + 92 ≤ (s.cpu.regs .esp).toNat

/-- A run from `tasking_init` on the boot stack, with the states before and after each timer
interrupt. -/
inductive Run (g : Layout) (keyboard : State → State) : List (State × State) → State → Prop where
  | start (s : State) (h : Executes g s g.mainTask) : Run g keyboard [] (taskingInit g s)
  | work {ticks : List (State × State)} {s t : State} (h : Run g keyboard ticks s)
      (hwork : Work g s t) : Run g keyboard ticks t
  | tick {ticks : List (State × State)} {s : State} (h : Run g keyboard ticks s)
      (hon : Interruptible g s) :
      Run g keyboard (ticks ++ [(s, tick g keyboard s)]) (tick g keyboard s)

/-- What the scheduler is for, interrupt by interrupt. -/
structure Scheduled (g : Layout) (ticks : List (State × State)) : Prop where
  agrees : ∀ p ∈ ticks, Executes g p.2 p.2.currentTask
  alternates : ∀ p ∈ ticks, ∀ task, Executes g p.1 task → Executes g p.2 (g.other task)
  first : ∀ p, ticks.head? = some p → Executes g p.2 g.testTask ∧
    p.2.cpu.eip = g.testThread ∧ p.2.cpu.eflags.getLsbD 9 = true
  resumes : ∀ i p q, ticks[i]? = some p → ticks[i + 1]? = some q →
    q.2.cpu.regs = p.1.cpu.regs ∧ q.2.cpu.eip = p.1.cpu.eip ∧ q.2.cpu.eflags = p.1.cpu.eflags

section Layout

variable (g : Layout) {s : State}

theorem Layout.ne : g.testTask ≠ g.mainTask := by
  intro he
  have hapart := g.tasksApart 0 (by decide) 0 (by decide)
  exact hapart (by rw [he])

theorem Layout.other_main : g.other g.mainTask = g.testTask := if_pos rfl

theorem Layout.other_test : g.other g.testTask = g.mainTask := if_neg g.ne

/-- No stack pointer lies in both stacks. -/
theorem not_executes_test (h : Executes g s g.mainTask) : ¬Executes g s g.testTask := by
  rintro ⟨_, hlow, hhigh⟩
  obtain ⟨_, hlow', hhigh'⟩ := h
  simp only [Layout.stackBase, Layout.stackSize, if_neg g.ne, if_true] at hlow hhigh hlow' hhigh'
  refine g.stacksApart ((s.cpu.regs .esp).toNat - 1 - g.testStack) (by omega)
    ((s.cpu.regs .esp).toNat - 1 - g.bootStack) (by omega) ?_
  congr 1
  omega

end Layout

/-- What holds all along a run: the CPU is on the boot stack, whatever task is current. -/
structure OnBootStack (g : Layout) (ticks : List (State × State)) (s : State) : Prop where
  executes : Executes g s g.mainTask
  active : s.testTask.active = true
  current : s.currentTask = if Even ticks.length then g.mainTask else g.testTask
  first : ∀ p, ticks.head? = some p →
    Executes g p.2 g.mainTask ∧ p.2.currentTask = g.testTask

section Run

variable {g : Layout} {keyboard : State → State} {ticks : List (State × State)} {s t : State}

theorem servable_of_onBootStack (h : OnBootStack g ticks s) (hon : Interruptible g s) :
    Servable g 92 0 s := by
  have hroom := hon.room g.mainTask h.executes
  obtain ⟨_, _, hhigh⟩ := h.executes
  simp only [Layout.stackBase, Layout.stackSize, if_true] at hroom hhigh
  refine ⟨h.active, ?_, hon.plain, hroom, hhigh⟩
  rw [h.current]
  split_ifs
  · exact .inl rfl
  · exact .inr rfl

theorem onBootStack_tick (h : OnBootStack g ticks s) (hon : Interruptible g s) :
    OnBootStack g (ticks ++ [(s, tick g keyboard s)]) (tick g keyboard s) := by
  obtain ⟨m, htick⟩ := tick_eq keyboard (servable_of_onBootStack h hon)
  obtain ⟨t, ht⟩ : ∃ t, tick g keyboard s = t := ⟨_, rfl⟩
  rw [ht] at htick ⊢
  have hregs : t.cpu.regs = s.cpu.regs := by rw [htick]
  have hactive : t.testTask = s.testTask := by rw [htick]
  have hnext : t.currentTask = g.other s.currentTask := by rw [htick]
  have hcurrent : t.currentTask =
      if Even (ticks ++ [(s, t)]).length then g.mainTask else g.testTask := by
    rw [hnext, h.current, List.length_append, List.length_singleton]
    by_cases heven : Even ticks.length
    · rw [if_pos heven, if_neg (by simpa [Nat.even_add_one] using heven), g.other_main]
    · rw [if_neg heven, if_pos (by simpa [Nat.even_add_one] using heven), g.other_test]
  have hexecutes : Executes g t g.mainTask := by
    rw [Executes, hregs]
    exact h.executes
  refine ⟨hexecutes, hactive ▸ h.active, hcurrent, fun p hp => ?_⟩
  cases ticks with
  | nil =>
    obtain rfl := Option.some.inj hp
    exact ⟨hexecutes, hcurrent⟩
  | cons q ticks => exact h.first p hp

theorem onBootStack_run (h : Run g keyboard ticks s) : OnBootStack g ticks s := by
  induction h with
  | start s h =>
    refine ⟨h, rfl, ?_, fun p hp => absurd hp (by simp)⟩
    rw [List.length_nil, if_pos Even.zero]
    rfl
  | work _ hwork ih =>
    refine ⟨hwork.stack _ ih.executes, ?_, hwork.currentTask.trans ih.current, ih.first⟩
    rw [hwork.testTask]
    exact ih.active
  | tick _ hon ih => exact onBootStack_tick ih hon

/-- The first interrupt already breaks the agreement. -/
theorem not_scheduled (h : OnBootStack g ticks s) (hne : ticks ≠ []) : ¬Scheduled g ticks := by
  intro hscheduled
  cases ticks with
  | nil => exact hne rfl
  | cons p ticks =>
    obtain ⟨hmain, hcurrent⟩ := h.first p rfl
    have hagrees := hscheduled.agrees p List.mem_cons_self
    rw [hcurrent] at hagrees
    exact not_executes_test g hmain hagrees

/-- A run is scheduled as it should be only while no timer interrupt has come; the current task
is the one on the CPU after an even number of them. -/
theorem scheduled_iff (h : Run g keyboard ticks s) :
    (Scheduled g ticks ↔ ticks = []) ∧ (Executes g s s.currentTask ↔ Even ticks.length) := by
  have hboot := onBootStack_run h
  constructor
  · constructor
    · intro hscheduled
      by_contra hne
      exact not_scheduled hboot hne hscheduled
    · rintro rfl
      exact ⟨fun p hp => absurd hp List.not_mem_nil, fun p hp => absurd hp List.not_mem_nil,
        fun p hp => absurd hp (by simp), fun i p q hp => absurd hp (by simp)⟩
  · rw [hboot.current]
    by_cases heven : Even ticks.length
    · rw [if_pos heven]
      exact iff_of_true hboot.executes heven
    · rw [if_neg heven]
      exact iff_of_false (not_executes_test g hboot.executes) heven

end Run

/-- The tasks, the stacks and the code of a small image. -/
def image : Layout where
  mainTask := 0x1000
  testTask := 0x1100
  testStack := 0x2000
  bootStack := 0x4000
  testThread := 0x100
  irqStub := 0x200
  backIrq := 0x210
  backTask := 0x220
  backSwitch := 0x230
  tasksApart := sep_of_le (by decide) (by decide)
  mainApart := sep_of_le (by decide) (by decide)
  testApart := sep_of_le (by decide) (by decide)
  stacksApart := sep_of_le (by decide) (by decide)

/-- The kernel near the top of its stack, with interrupts on. -/
def idle : State where
  cpu :=
    { regs := fun r => if r = .esp then 0x7F00 else 0
      segs := fun r => if r = .cs then 0x08 else 0x10
      eflags := 0x202
      eip := 0x300
      mem := fun _ => 0
      out := [] }
  mainTask := { stack := 0, active := false, isUser := false, parent := 0 }
  testTask := { stack := 0, active := false, isUser := false, parent := 0 }
  currentTask := 0

theorem idle_executes : Executes image idle image.mainTask :=
  ⟨.inl rfl, by decide, by decide⟩

theorem idle_interruptible : Interruptible image (taskingInit image idle) := by
  refine ⟨by decide, by decide, ?_⟩
  rintro task ⟨rfl | rfl, _, hhigh⟩
  · decide
  · exact absurd hhigh (by decide)

/-- One timer interrupt, right after `tasking_init`. -/
def idleTicks : List (State × State) :=
  [(taskingInit image idle, tick image id (taskingInit image idle))]

theorem idle_run : Run image id idleTicks (tick image id (taskingInit image idle)) :=
  .tick (.start idle idle_executes) idle_interruptible

theorem scheduled_iff_idle :
    (Scheduled image idleTicks ↔ idleTicks = []) ∧
    (Executes image (tick image id (taskingInit image idle))
        (tick image id (taskingInit image idle)).currentTask ↔ Even idleTicks.length) :=
  scheduled_iff idle_run

/-- It makes the test task current, with the CPU on the boot stack still. -/
theorem first_tick_stays :
    Run image id idleTicks (tick image id (taskingInit image idle)) ∧ ¬Scheduled image idleTicks :=
  ⟨idle_run, not_scheduled (onBootStack_run idle_run) (List.cons_ne_nil _ _)⟩

end Scheduler
