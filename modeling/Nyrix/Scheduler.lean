import Nyrix.Base.Interrupts
import Nyrix.TaskSwitch

/-!
# The scheduler (task.cpp, idt.cpp, interrupts.asm)

The timer interrupt ends in `task_switch`, which names the other task as the current one and
calls `switch_to_task`. Whatever runs next is decided by the return address that is found
there. The registers and the stack the compiled functions use beside their calls are left out.
-/

namespace Scheduler

open ByteMemory IA32 TaskSwitch

/-- A `Task` without its context, which lies at the task's address, and `pgd`. -/
structure Task where
  stack : Nat
  active : Bool
  isUser : Bool
  parent : Nat

/-- The size of the boot stack, and `sizeof(test_stack)`. -/
def bootStackSize : Nat := 16384
def testStackSize : Nat := 4096

/-- Where the linker put the tasks, their stacks and the code, with the return addresses of the
calls of `irq_handler`, `task_switch` and `switch_to_task`. -/
structure Layout where
  mainTask : BitVec 32
  testTask : BitVec 32
  bootStack : Nat
  testStack : Nat
  testThread : BitVec 32
  irqStub : BitVec 32
  backIrq : BitVec 32
  backTask : BitVec 32
  backSwitch : BitVec 32
  tasksApart : Sep mainTask.toNat contextSize testTask.toNat contextSize
  mainApart : Sep mainTask.toNat contextSize bootStack bootStackSize
  testApart : Sep testTask.toNat contextSize bootStack bootStackSize
  stacksApart : Sep testStack testStackSize bootStack bootStackSize

structure State where
  cpu : IA32.State
  mainTask : Task
  testTask : Task
  currentTask : BitVec 32

def outb (port : Nat) (v : BitVec 8) (s : State) : State :=
  { s with cpu := { s.cpu with out := s.cpu.out ++ [(port, v)] } }

/-- The frame at the top of `test_stack` and the four words of the context that are set. -/
def testContext (g : Layout) (m : Mem) : Mem :=
  let sp := g.testStack + testStackSize - 16
  let m := store32 m (sp - 4) 0x202
  let m := store32 m (sp - 8) 0x08
  let m := store32 m (sp - 12) g.testThread
  let m := store32 m (g.testTask.toNat + 24) (BitVec.ofNat 32 (sp - 12 - 32))
  let m := store32 m (g.testTask.toNat + 28) 0
  let m := store32 m g.testTask.toNat 0
  store32 m (g.testTask.toNat + 4) 0

def taskingInit (g : Layout) (s : State) : State where
  cpu := { s.cpu with mem := testContext g s.cpu.mem }
  mainTask := { stack := 0, active := true, isUser := false, parent := 0 }
  testTask := { stack := g.testStack, active := true, isUser := false, parent := 0 }
  currentTask := g.mainTask

/-- The code behind a call runs if the callee's `ret` leads there. -/
def returned (back : BitVec 32) (rest : IA32.State → IA32.State) (s : State) : State :=
  if s.cpu.eip = back then { s with cpu := rest s.cpu } else s

def call (back : BitVec 32) (args : List (BitVec 32)) (s : State) : State :=
  { s with cpu := push back (pushAll args s.cpu) }

def taskSwitch (g : Layout) (s : State) : State :=
  if !s.testTask.active then { s with cpu := exec .ret s.cpu }
  else
    let old := s.currentTask
    let current := if s.currentTask = g.mainTask then g.testTask else g.mainTask
    let s := call g.backSwitch [current, old] { s with currentTask := current }
    returned g.backSwitch (fun cpu => exec .ret (drop (drop cpu)))
      { s with cpu := switchToTask s.cpu }

/-- The keyboard's part is a parameter. -/
def irqHandler (g : Layout) (keyboard : State → State) (s : State) : State :=
  let regs := load32 s.cpu.mem ((s.cpu.regs .esp).toNat + 4)
  let intNo := load32 s.cpu.mem (regs.toNat + 48)
  let s := if 40 ≤ intNo.toNat then outb 0xA0 0x20 s else s
  let s := outb 0x20 0x20 s
  if intNo = 33#32 then
    let s := keyboard s
    { s with cpu := exec .ret s.cpu }
  else if intNo = 32#32 then
    returned g.backTask (exec .ret) (taskSwitch g (call g.backTask [] s))
  else { s with cpu := exec .ret s.cpu }

/-- The pushes of `irq_common` after `pusha`, with the kernel's data segments loaded. -/
def saveSegs : List Instr :=
  [ .pushSeg .ds, .pushSeg .es, .pushSeg .fs, .pushSeg .gs, .movLow16 .eax 0x10, .movSeg .ds .eax
  , .movSeg .es .eax, .movSeg .fs .eax, .movSeg .gs .eax, .push .esp ]

def restoreSegs : List Instr := [.popSeg .gs, .popSeg .fs, .popSeg .es, .popSeg .ds]

/-- The stub and `irq_common` up to the call of `irq_handler`. -/
def irqEntry (g : Layout) (vector : BitVec 32) (s : IA32.State) : IA32.State :=
  push g.backIrq (run saveSegs (pusha (pushAll [0, vector] (intGate 0x08 g.irqStub s))))

/-- The rest of `irq_common`. -/
def irqExit (s : IA32.State) : IA32.State :=
  iret (drop (drop (popa (run restoreSegs (drop s)))))

def interrupt (g : Layout) (keyboard : State → State) (vector : BitVec 32) (s : State) : State :=
  returned g.backIrq irqExit (irqHandler g keyboard { s with cpu := irqEntry g vector s.cpu })

def tick (g : Layout) (keyboard : State → State) : State → State := interrupt g keyboard 32

end Scheduler
