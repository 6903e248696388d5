import Mathlib.Data.BitVec
import QuestOS.Sched.Lifecycle

/-!
# All CPUs, statement by statement

`QuestOS.Sched.Model` takes one pass of the idle loop, or one exception, as a step.  Here a step is
a statement, an exception entry, a handler or an exception exit, so that an interrupt can be taken
between any two statements at which interrupts are unmasked, and the CPUs share the memory of the
processes.  The functions that a step calls are those of `QuestOS.Sched.Model`.

The boot CPU starts in `quest_os_main` at `cpu_init`, the others in `cpuhp_online_cpu`, where
`smp_init` of the boot CPU brings them.
-/

namespace QuestOS

abbrev CpuId := Fin 4

instance neZero_cpus : NeZero 4 := ⟨by decide⟩

/-! ### Where a CPU is -/

inductive MainCall
  | cpuInit | gicV3Init | archTimerInit | localInterruptEnable | roundRobinSchedRegister | schedInit
  | kthreadInit | psciInit | smpInit | userProcessInit | uartRecv | userProcessesRegister
  | localSchedTimerStart
  deriving DecidableEq, Repr

/-- The calls whose error sends `quest_os_main` to the endless loop at `exit`. -/
def MainCall.checked : MainCall → Bool
  | .gicV3Init | .archTimerInit | .schedInit | .kthreadInit | .psciInit | .smpInit => true
  | _ => false

inductive KernelPoint
  | main (call : MainCall)
  | mainExit
  /-- `cpuhp_online_cpu`, at `set_resched(true)` and at `local_interrupt_enable()`. -/
  | onlineResched
  | onlineEnable
  /-- `run_idle` at its `preempt_disable`, which reads the count and then stores it. -/
  | idleTop
  | idleStore (count : Int)
  /-- `run_idle` at `local_irq_enable`, at `need_resched` and at `wfi`. -/
  | idleUnmask
  | idleCheck
  | idleWfi
  /-- `schdule` at `local_irq_disable`, and from there to where control leaves it. -/
  | schduleMask
  | schdulePick
  /-- The NULL pointer that `run_process` calls for a process named idle. -/
  | nullCall
  | threadEntry
  /-- `run_process` after its context switch. -/
  | runTail
  deriving DecidableEq, Repr

inductive Code
  | kernel (k : KernelPoint)
  | user (p : Pid)
  deriving DecidableEq, Repr

inductive Exc
  | irq (i : Irq)
  | svc (call : Syscall)
  | sync
  deriving DecidableEq, Repr

/-- Where the control of a CPU is.  A handler knows what it interrupted and whether interrupts were
masked there, which is what the exception frame holds; `wild` is after a return to an address that
nobody saved. -/
inductive Place
  | off
  | code (o : Code)
  | handler (o : Code) (masked : Bool) (x : Exc)
  | exit (o : Code) (masked : Bool)
  | wild
  deriving DecidableEq, Repr

def MainCall.next : MainCall → KernelPoint
  | .cpuInit => .main .gicV3Init
  | .gicV3Init => .main .archTimerInit
  | .archTimerInit => .main .localInterruptEnable
  | .localInterruptEnable => .main .roundRobinSchedRegister
  | .roundRobinSchedRegister => .main .schedInit
  | .schedInit => .main .kthreadInit
  | .kthreadInit => .main .psciInit
  | .psciInit => .main .smpInit
  | .smpInit => .main .userProcessInit
  | .userProcessInit => .main .uartRecv
  | .uartRecv => .main .userProcessesRegister
  | .userProcessesRegister => .main .localSchedTimerStart
  | .localSchedTimerStart => .idleTop

/-! ### One CPU -/

/-- A CPU: the state of the scheduler, where `current` is `SP_EL0`, with its stack pointer, its
interrupt mask, its `idle_process` and the `sp` fields of the processes.  `saved` says where
`process_cpu_context_switch` left idle's registers and which process it entered, until
`process_resched` pops them. -/
structure Core extends Cpu where
  place : Place
  masked : Bool
  spEl1 : BitVec 64
  procSp : Pid → BitVec 64
  idleProcess : Option Pid
  saved : Option (Pid × BitVec 64)

/-- The idle processes of the CPUs, that of the boot CPU being `g_kernel_init_process`, and the
stack pointers `load_init_task` gives them. -/
structure SmpConfig where
  counterFreq : Nat
  idle : CpuId → Pid
  idle_inj : Function.Injective idle
  stackTop : CpuId → BitVec 64

def SmpConfig.cpu (cfg : SmpConfig) (c : CpuId) : CpuConfig := ⟨cfg.counterFreq, cfg.idle c, cfg.idle 0⟩

def excFrame : BitVec 64 := 272
def switchFrame : BitVec 64 := 96

def Core.goto (x : Core) (k : KernelPoint) : Core := { x with place := .code (.kernel k) }

def Core.take (x : Core) (e : Exc) : Code → Core
  | .kernel k => { x with spEl1 := x.spEl1 - excFrame, masked := true,
                          place := .handler (.kernel k) x.masked e }
  | .user p => { x with toCpu := kernelEntry x.toCpu, spEl1 := x.spEl1 - excFrame, masked := true,
                        place := .handler (.user p) x.masked e }

/-- `process_cpu_context_switch(&p->sp, ..)`: idle's registers go below its stack pointer, which
takes the place of the frame address in `p->sp`; the frame is popped. -/
def Core.processCpuContextSwitch (x : Core) (p : Pid) : Core :=
  { x with procSp := Function.update x.procSp p (x.spEl1 - switchFrame),
           spEl1 := x.procSp p + excFrame,
           masked := false,
           saved := some (p, x.spEl1 - switchFrame),
           place := .code (.user p) }

/-- `process_resched`: the stack pointer and `current->sp` are exchanged, `current` becomes
`g_kernel_init_process`, and control goes to the return address that lies at the new stack
pointer: into `run_process` if that is where the context switch pushed its registers. -/
def Core.processResched (cfg : CpuConfig) (x : Core) : Core :=
  { x with procSp := Function.update x.procSp x.current x.spEl1,
           spEl1 := x.procSp x.current + switchFrame,
           current := cfg.gKernelInitProcess,
           saved := none,
           place := if x.saved.map Prod.snd = some (x.procSp x.current) then .code (.kernel .runTail)
             else .wild }

def Core.exit (cfg : CpuConfig) (x : Core) (o : Code) (masked : Bool) : Core :=
  if checkResched x.toCpu then x.processResched cfg
  else { x with spEl1 := x.spEl1 + excFrame, masked := masked, place := .code o }

def Exc.handle (cfg : CpuConfig) : Exc → Cpu → Cpu
  | .irq i, c => handleArchIrq cfg i c
  | .svc call, c => el0t64HandleSvc call c
  | .sync, c => c

/-- What a call of `quest_os_main` does to the CPU; the two calls that act on other CPUs have steps
of their own. -/
def MainCall.run (cfg : CpuConfig) (x : Core) : MainCall → Core
  | .cpuInit => { x with toCpu := setResched true x.toCpu }
  | .localInterruptEnable => { x with masked := false }
  | .kthreadInit => { x with idleProcess := some cfg.gKernelInitProcess }
  | _ => x

def Core.schdulePick (cfg : CpuConfig) (cnt : Nat) (x : Core) : Core :=
  let x := { x with toCpu := schdule cfg cnt x.toCpu }
  match x.phase with
  | .user p => x.processCpuContextSwitch p
  | .fault => x.goto .nullCall
  | .kthread _ => x.goto .threadEntry
  | _ => x.goto .idleTop

/-- One statement of EL1 code.  `ok` is the outcome of a call of `quest_os_main`, `cnt` the counter
value that `run_process` reads. -/
def Core.next (cfg : CpuConfig) (ok : Bool) (cnt : Nat) (x : Core) : KernelPoint → Core
  | .main call => (call.run cfg x).goto (if call.checked && !ok then .mainExit else call.next)
  | .mainExit => x
  | .onlineResched => { x with toCpu := setResched true x.toCpu }.goto .onlineEnable
  | .onlineEnable => { x with masked := false }.goto .idleTop
  | .idleTop => x.goto (.idleStore x.preemptCount)
  | .idleStore count => { x with preemptCount := count + 1, phase := .idleWindow }.goto .idleUnmask
  | .idleUnmask => { x with masked := false }.goto .idleCheck
  | .idleCheck => x.goto (if needResched x.toCpu then .schduleMask else .idleWfi)
  | .idleWfi => x.goto .idleTop
  | .schduleMask => { x with masked := true }.goto .schdulePick
  | .schdulePick => x.schdulePick cfg cnt
  | .nullCall => x.take .sync (.kernel .nullCall)
  | .threadEntry => x.goto .runTail
  | .runTail => { x with toCpu := { x.toCpu.setState x.current .running with phase := .idleTop } }.goto
      .idleTop

/-! ### All CPUs -/

/-- What a CPU does in a step.  `register d p` is `round_robin_load_process` for CPU `d`, `bringup d`
the bring-up of CPU `d` as far as its `cpuhp_online_cpu`; the boot CPU does both. -/
inductive Act
  | next (ok : Bool) (cnt : Nat)
  | irq (i : Irq)
  | svc (call : Syscall)
  | abort
  | handle
  | exit
  | register (d : CpuId) (p : Pid)
  | bringup (d : CpuId)
  deriving DecidableEq, Repr

def Core.act (cfg : CpuConfig) (x : Core) : Act → Option Core
  | .next ok cnt =>
    match x.place with
    | .code (.kernel k) => some (x.next cfg ok cnt k)
    | _ => none
  | .irq i =>
    match x.place with
    | .code o => if x.masked then none else some (x.take (.irq i) o)
    | _ => none
  | .svc call =>
    match x.place with
    | .code (.user p) => some (x.take (.svc call) (.user p))
    | _ => none
  | .abort =>
    match x.place with
    | .code (.user p) => some (x.take .sync (.user p))
    | _ => none
  | .handle =>
    match x.place with
    | .handler o b e => some { x with toCpu := e.handle cfg x.toCpu, place := .exit o b }
    | _ => none
  | .exit =>
    match x.place with
    | .exit o b => some (x.exit cfg o b)
    | _ => none
  | .register _ _ | .bringup _ => none

abbrev Smp := CpuId → Core

def Smp.put (m : Smp) (c : CpuId) (x : Core) : Smp :=
  fun d => if d = c then x else { m d with procs := x.procs, procSp := x.procSp }

@[simp] theorem Smp.put_self (m : Smp) (c : CpuId) (x : Core) : m.put c x c = x := if_pos rfl

theorem Smp.put_of_ne {m : Smp} {c d : CpuId} {x : Core} (h : d ≠ c) :
    m.put c x d = { m d with procs := x.procs, procSp := x.procSp } := if_neg h

@[simp] theorem Smp.put_procs (m : Smp) (c d : CpuId) (x : Core) : (m.put c x d).procs = x.procs := by
  unfold Smp.put
  split <;> rfl

@[simp] theorem Smp.put_procSp (m : Smp) (c d : CpuId) (x : Core) : (m.put c x d).procSp = x.procSp := by
  unfold Smp.put
  split <;> rfl

def idleThreadCreate (cfg : SmpConfig) (d : CpuId) (procs : Pid → ProcessStruct) : Pid → ProcessStruct :=
  let init := procs (cfg.idle 0)
  Function.update procs (cfg.idle d) { init with name := init.name.set 4 (48 + UInt8.ofNat d) }

def Core.loadInitTask (x : Core) (p : Pid) (top : BitVec 64) (k : KernelPoint) : Core :=
  { x with current := p, procSp := Function.update x.procSp p top, spEl1 := top, masked := true,
           place := .code (.kernel k) }

def Smp.started (cfg : SmpConfig) (m : Smp) (d : CpuId) : Core :=
  { m d with procs := idleThreadCreate cfg d (m d).procs, idleProcess := some (cfg.idle d) }.loadInitTask
    (cfg.idle d) (cfg.stackTop d) .onlineResched

/-- `smp_init` returns without an error only when it has brought up every CPU. -/
def Smp.waits (m : Smp) (c : CpuId) : Act → Bool
  | .next true _ => decide ((m c).place = .code (.kernel (.main .smpInit)) ∧ ∃ d, (m d).place = .off)
  | _ => false

/-- The machine after a step, `none` when the CPU cannot take it.  Every process is registered once. -/
def Smp.step (cfg : SmpConfig) (m : Smp) : CpuId × Act → Option Smp
  | (c, .register d p) =>
    if c = 0 ∧ (m 0).place = .code (.kernel (.main .userProcessesRegister)) ∧
        (∀ e, p ∉ (m e).processes ∧ p ≠ cfg.idle e) ∧ (m d).processes.length < maxProcessCount ∧
        ((m d).procs p).kthread = none then
      some (m.put d { m d with toCpu := roundRobinLoadProcess p (m d).toCpu })
    else none
  | (c, .bringup d) =>
    if c = 0 ∧ (m 0).place = .code (.kernel (.main .smpInit)) ∧ (m d).place = .off then
      some (m.put d (m.started cfg d))
    else none
  | (c, a) => if m.waits c a then none else ((m c).act (cfg.cpu c) a).map (m.put c)

structure Core.Fresh (x : Core) : Prop where
  processes : x.processes = []
  nextProcess : x.nextProcess = 0
  entryTask : x.entryTask = none
  preemptCount : x.preemptCount = 0
  phase : x.phase = .idleTop
  idleProcess : x.idleProcess = none
  saved : x.saved = none

structure Smp.Initial (cfg : SmpConfig) (m : Smp) : Prop where
  fresh : ∀ c, (m c).Fresh
  shared : ∀ c d, (m c).procs = (m d).procs ∧ (m c).procSp = (m d).procSp
  boot : (m 0).place = .code (.kernel (.main .cpuInit))
  bootMasked : (m 0).masked = true
  bootCurrent : (m 0).current = cfg.idle 0
  off : ∀ c, c ≠ 0 → (m c).place = .off

def smpSystem (cfg : SmpConfig) : Trans.System Smp (CpuId × Act) where
  init := Smp.Initial cfg
  step m l m' := m.step cfg l = some m'

/-! ### A small machine -/

def smallConfig : SmpConfig where
  counterFreq := 1000000000
  idle c := c.val
  idle_inj _ _ h := Fin.ext h
  stackTop c := 0x10000 * (c.val + 1)

def bootSmp : Smp := fun c =>
  { procs := fun p => if p < 4 then ⟨[105, 100, 108, 101, 48], .new, some ⟨none⟩, none, 0⟩
      else ⟨[97], .new, none, none, 0⟩
    processes := [], nextProcess := 0, entryTask := none, needReschedFlag := 0, preemptCount := 0
    current := 0, phase := .idleTop
    place := if c = 0 then .code (.kernel (.main .cpuInit)) else .off
    masked := true, spEl1 := 0x10000, procSp := fun _ => 0x10000, idleProcess := none, saved := none }

theorem bootSmp_initial : bootSmp.Initial smallConfig where
  fresh _ := ⟨rfl, rfl, rfl, rfl, rfl, rfl, rfl⟩
  shared _ _ := ⟨rfl, rfl⟩
  boot := rfl
  bootMasked := rfl
  bootCurrent := rfl
  off _ hc := if_neg hc

theorem bootSmp_run (ls : List (CpuId × Act)) {tr : List (Trans.Step Smp (CpuId × Act))} {m : Smp}
    (h : Trans.System.replay (Smp.step smallConfig) ls [] bootSmp = some (tr, m)) :
    (smpSystem smallConfig).Run tr m :=
  .replay (fun _ _ _ h => h) (.nil bootSmp_initial) h

end QuestOS
