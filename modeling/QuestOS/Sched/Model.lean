import Mathlib.Algebra.Ring.Nat
import Mathlib.Data.List.Basic
import Mathlib.Logic.Function.Basic
import QuestOS.Lib.Trans

/-!
# The per-CPU scheduler

One CPU with its round-robin queue, its `entry_task`, `__need_resched` and `preempt_count`
per-CPU variables and the place its control is at: somewhere in the loop of `run_idle`, or at EL0
in a dispatched process.  The events are what the hardware and user code can do at that place, so
the runs of `cpuSystem` are the interleavings of dispatches, system calls, interrupts and
registrations of new processes.

A process is its `process_struct` pointer; `procs` is the memory behind these pointers.
-/

namespace QuestOS

/-! ### Data -/

inductive ProcessState
  | new | ready | running | blocked | zombie
  deriving DecidableEq, Repr

abbrev Pid := Nat

structure KernelThread where
  entry : Option Nat
  deriving DecidableEq, Repr

structure ProcessStruct where
  name : List UInt8
  state : ProcessState
  kthread : Option KernelThread
  lastWake : Option Pid
  lastRunTimestamp : Nat
  deriving DecidableEq, Repr

/-- Where the control of the CPU is.  Interrupts are masked at `idleTop` and unmasked in
`idleWindow` and `idleWfi`; `kthread` is inside `kthread->entry`, `fault` after a NULL dereference
or a wild stack switch. -/
inductive Phase
  | idleTop
  | idleWindow
  | idleWfi
  | user (p : Pid)
  | kthread (p : Pid)
  | fault
  deriving DecidableEq, Repr

structure Cpu where
  procs : Pid → ProcessStruct
  processes : List Pid
  nextProcess : Nat
  entryTask : Option Pid
  needReschedFlag : Nat
  preemptCount : Int
  current : Pid
  phase : Phase

/-- What a CPU's runs do not change: its counter frequency, its own idle process and
`g_kernel_init_process`, which `process_resched` makes `current` on every CPU. -/
structure CpuConfig where
  counterFreq : Nat
  idle : Pid
  gKernelInitProcess : Pid

def timeSliceNs : Nat := 10 * 1000 * 1000

def maxProcessCount : Nat := 128

def countToNs (cfg : CpuConfig) (count : Nat) : Nat :=
  count * 1000000000 % 2 ^ 64 / cfg.counterFreq

/-! ### The functions of `sched.c` and `sched_round_robin.c` -/

def Cpu.modify (c : Cpu) (p : Pid) (f : ProcessStruct → ProcessStruct) : Cpu :=
  { c with procs := Function.update c.procs p (f (c.procs p)) }

def Cpu.setState (c : Cpu) (p : Pid) (st : ProcessState) : Cpu :=
  c.modify p fun q => { q with state := st }

/-- `set_resched`: the argument is not used, the flag is set to 1 whatever it is. -/
def setResched (_needResched : Bool) (c : Cpu) : Cpu := { c with needReschedFlag := 1 }

def needResched (c : Cpu) : Bool := c.needReschedFlag != 0

def preemptDisable (c : Cpu) : Cpu := { c with preemptCount := c.preemptCount + 1 }

def preemptEnable (c : Cpu) : Cpu := { c with preemptCount := c.preemptCount - 1 }

def pickLoop (c : Cpu) : (fuel i : Nat) → Option (Option Pid × Nat)
  | 0, _ => some (none, c.nextProcess)
  | fuel + 1, i =>
    match c.processes[i]? with
    | none => none
    | some p =>
      if (c.procs p).state ≠ .ready ∧ (c.procs p).state ≠ .running then
        pickLoop c fuel ((i + 1) % c.processes.length)
      else
        some (some p, (i + 1) % c.processes.length)

def roundRobinPickNext (c : Cpu) : Option (Option Pid × Nat) :=
  if c.processes.length = 0 then some (none, c.nextProcess)
  else pickLoop c c.processes.length c.nextProcess

def roundRobinLoadProcess (p : Pid) (c : Cpu) : Cpu :=
  { c.setState p .ready with processes := c.processes ++ [p] }

def roundRobinNeedResched (cfg : CpuConfig) (cnt : Nat) (c : Cpu) : Bool :=
  decide (timeSliceNs <
    (countToNs cfg cnt + 2 ^ 64 - (c.procs c.current).lastRunTimestamp) % 2 ^ 64)

def preemptCheckResched (cfg : CpuConfig) (cnt : Nat) (c : Cpu) : Cpu :=
  if roundRobinNeedResched cfg cnt c then setResched true c else c

def isIdleName (name : List UInt8) : Bool := name.take 4 == [105, 100, 108, 101]

/-- The second write of `run_process`: the process that was running and is still `PROCESS_RUNNING`
was preempted. -/
def demoteEntryTask (c : Cpu) : Cpu :=
  match c.entryTask with
  | none => c
  | some t => if (c.procs t).state = .running then c.setState t .ready else c

/-- Where `run_process` transfers control: `kthread->entry` of a process named idle, EL0 of any
other through `process_cpu_context_switch`. -/
def dispatchPhase (proc : Pid) (q : ProcessStruct) : Phase :=
  if isIdleName q.name then
    match q.kthread with
    | some ⟨some _⟩ => .kthread proc
    | _ => .fault
  else .user proc

def runProcess (cfg : CpuConfig) (cnt : Nat) (proc : Pid) (c : Cpu) : Cpu :=
  let c := demoteEntryTask (c.setState c.current .ready)
  let c := c.modify proc fun q =>
    { q with state := .running, lastWake := c.entryTask, lastRunTimestamp := countToNs cfg cnt }
  { c with entryTask := some proc, phase := dispatchPhase proc (c.procs proc) }

def schdule (cfg : CpuConfig) (cnt : Nat) (c : Cpu) : Cpu :=
  let c := preemptEnable c
  match roundRobinPickNext c with
  | none => { c with phase := .fault }
  | some (none, _) => { c with phase := .idleTop }
  | some (some p, next) => runProcess cfg cnt p (setResched false { c with nextProcess := next })

/-! ### Exceptions -/

/-- The entries of `sys_call_table` that matter to the scheduler; `ni` is `sys_ni_syscall`. -/
inductive Syscall
  | write | exit | ni
  deriving DecidableEq, Repr

/-- The interrupts: the timer, with its condition bit and the counter value its handler reads, or
any other interrupt line. -/
inductive Irq
  | timer (met : Bool) (cnt : Nat)
  | other
  deriving DecidableEq, Repr

def doExit (c : Cpu) : Cpu := c.setState c.current .zombie

def Syscall.run : Syscall → Cpu → Cpu
  | .exit, c => doExit c
  | _, c => c

def el0t64HandleSvc (call : Syscall) (c : Cpu) : Cpu :=
  let c := call.run c
  if (c.procs c.current).state ≠ .running then setResched true c else c

def handleArchIrq (cfg : CpuConfig) : Irq → Cpu → Cpu
  | .timer true cnt, c => preemptCheckResched cfg cnt c
  | _, c => c

def kernelEntry (c : Cpu) : Cpu := { c with current := c.entryTask.getD 0 }

def checkResched (c : Cpu) : Bool := decide (c.preemptCount ≤ 0) && c.needReschedFlag != 0

/-- `process_resched` from a dispatched process: `current` becomes `g_kernel_init_process` and
control returns into the tail of `run_process`, from there to the head of the idle loop. -/
def processResched (cfg : CpuConfig) (c : Cpu) : Cpu :=
  { ({ c with current := cfg.gKernelInitProcess } : Cpu).setState cfg.gKernelInitProcess .running with
    phase := .idleTop }

/-- The exit of an EL0 exception: `process_resched`, or `ret_to_user` with nothing changed. -/
def exitEl0 (cfg : CpuConfig) (c : Cpu) : Cpu :=
  if checkResched c then processResched cfg c else c

/-- The exit of an EL1 interrupt taken in the idle loop.  `process_resched` would then load a stack
pointer from idle's own `sp` field, which never holds one. -/
def exitEl1 (c : Cpu) : Cpu :=
  if checkResched c then { c with phase := .fault } else c

/-! ### Steps -/

inductive Event
  | idleEnter
  | idleCheck (cnt : Nat)
  | svc (call : Syscall)
  | abort
  | irq (i : Irq)
  | load (p : Pid)
  deriving DecidableEq, Repr

/-- The CPU after an event, `none` when the event cannot happen there.  `idleEnter` is
`preempt_disable(); local_irq_enable();`, `idleCheck` the rest of one pass of `run_idle`; `load` is
a registration, which another CPU may do at any time and does once for each process. -/
def Cpu.step (cfg : CpuConfig) (c : Cpu) : Event → Option Cpu
  | .idleEnter =>
    if c.phase = .idleTop ∨ c.phase = .idleWfi then
      some { preemptDisable c with phase := .idleWindow }
    else none
  | .idleCheck cnt =>
    if c.phase = .idleWindow then
      some (if needResched c then schdule cfg cnt c else { c with phase := .idleWfi })
    else none
  | .svc call =>
    match c.phase with
    | .user _ => some (exitEl0 cfg (el0t64HandleSvc call (kernelEntry c)))
    | _ => none
  | .abort =>
    match c.phase with
    | .user _ => some (exitEl0 cfg (kernelEntry c))
    | _ => none
  | .irq i =>
    match c.phase with
    | .user _ => some (exitEl0 cfg (handleArchIrq cfg i (kernelEntry c)))
    | .idleWindow | .idleWfi => some (exitEl1 (handleArchIrq cfg i c))
    | _ => none
  | .load p =>
    if p ∉ c.processes ∧ p ≠ cfg.idle ∧ p ≠ cfg.gKernelInitProcess ∧
        c.processes.length < maxProcessCount ∧ (c.procs p).kthread = none then
      some (roundRobinLoadProcess p c)
    else none

/-- The CPU when it enters `run_idle`: nothing registered yet, no process dispatched or exited, and
`set_resched(true)` done last by `cpu_init` or `cpuhp_online_cpu`. -/
structure Cpu.Initial (cfg : CpuConfig) (c : Cpu) : Prop where
  processes : c.processes = []
  nextProcess : c.nextProcess = 0
  entryTask : c.entryTask = none
  needReschedFlag : c.needReschedFlag = 1
  preemptCount : c.preemptCount = 0
  current : c.current = cfg.idle
  phase : c.phase = .idleTop
  notZombie : ∀ p, (c.procs p).state ≠ .zombie

def cpuSystem (cfg : CpuConfig) : Trans.System Cpu Event where
  init := Cpu.Initial cfg
  step c e c' := c.step cfg e = some c'

end QuestOS
