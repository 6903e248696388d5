import QuestOS.Irq.Enable

/-!
# Bringing up a CPU

The boot CPU runs the callbacks up to `CPUHP_START_CPU` (`cpuhp_bringup_cpu`), the firmware starts
the new CPU, and that one runs the rest (`cpuhp_init_to_online`); from the firmware call on the two
run concurrently.  The environment is what they cannot control: the allocations, the answer of the
firmware, the redistributor frames and who has requested the timer interrupt.

`cpuhp_arch_timer_setup` starts the timer and then calls `__arch_timer_init`, which writes zero to
`CNTP_CTL_EL0`, so no CPU that is brought up has its timer running in `run_idle`.  That a CPU without
a redistributor frame does not get there is luck: `gic_starting_cpu` reports success, and the next
stage faults on the NULL `rd_base`.
-/

namespace QuestOS

/-! ### The timer -/

structure TimerCtl where
  enable : Bool
  imask : Bool
  deriving DecidableEq, Repr

def cntpCtlEl0BitImask : BitVec 64 := 1#64 <<< 1
def cntpCtlEl0BitEnable : BitVec 64 := 1#64 <<< 0

def writeCntpCtl (val : BitVec 64) : TimerCtl := ⟨val.getLsbD 0, val.getLsbD 1⟩

def archTimerStart : TimerCtl := writeCntpCtl (~~~cntpCtlEl0BitImask ||| cntpCtlEl0BitEnable)
def archTimerDisable : TimerCtl := writeCntpCtl (cntpCtlEl0BitImask ||| ~~~cntpCtlEl0BitEnable)

def archTimerCntpIrq : Fin irqNums := ⟨30, thirty_lt_irqNums⟩

/-! ### The environment -/

inductive CpuhpState
  | offline | createIdle | startCpu | percpuInit | initGic | initTimer | online | dead
  deriving DecidableEq, Repr

/-- What a bring-up of the secondary CPU `cpu` depends on.  The firmware is asked for the CPU with
the MPIDR `cpu`, which is not the boot CPU's.  `typer` is `GICR_TYPER` of the frames of the region, in
units of 128 KiB, and `irq` has the interrupt handlers that are already registered. -/
structure BringupEnv where
  cpu : Nat
  cpu_pos : 0 < cpu
  cpu_lt : cpu < maxCpus
  bootMpidr : BitVec 64
  boot_ne : bootMpidr ≠ BitVec.ofNat 64 cpu
  idleAlloc : Bool
  kthreadAlloc : Bool
  stackAlloc : Bool
  psciRet : Int
  pidr2 : BitVec 32
  typer : Nat → BitVec 64
  timerIrqHandler : Nat
  irq : IrqState

variable {env : BringupEnv}

def BringupEnv.mpidr (env : BringupEnv) : BitVec 64 := BitVec.ofNat 64 env.cpu

def BringupEnv.cpuLogicalMap (env : BringupEnv) : List (BitVec 64) := [env.bootMpidr, 1, 2, 3]

def mpidrToProcessorId (map : List (BitVec 64)) (mpidr : BitVec 64) : Option Nat :=
  map.findIdx? fun m => m == mpidr

/-! ### The redistributor frames -/

def mpidrAffinityLevel (mpidr : BitVec 64) (level : Nat) : BitVec 64 :=
  (mpidr >>> (((1 <<< level) >>> 1) <<< 3)) &&& 0xff

def gicMpidrToAffinity (mpidr : BitVec 64) : BitVec 64 :=
  mpidrAffinityLevel mpidr 3 <<< 24 ||| mpidrAffinityLevel mpidr 2 <<< 16 |||
    mpidrAffinityLevel mpidr 1 <<< 8 ||| mpidrAffinityLevel mpidr 0

def BringupEnv.Matches (env : BringupEnv) (i : Nat) : Prop :=
  env.typer i >>> 32 = ((gicMpidrToAffinity env.mpidr).setWidth 32).setWidth 64

instance (env : BringupEnv) (i : Nat) : Decidable (env.Matches i) := inferInstanceAs (Decidable (_ = _))

def BringupEnv.last (env : BringupEnv) (i : Nat) : Bool := (env.typer i).getLsbD 4
def BringupEnv.vlpis (env : BringupEnv) (i : Nat) : Bool := (env.typer i).getLsbD 1

/-- `GICR_MEMMAP_SIZE` in frames of 128 KiB: the part of the address space that is mapped. -/
def redistFrames : Nat := 0x100000 / 0x20000

/-- A frame was found, or the last one was not it, or the walk left the mapping. -/
inductive Walk
  | found (i : Nat)
  | missing
  | fault
  deriving DecidableEq, Repr

def gicIterateLoop (env : BringupEnv) : (fuel i : Nat) → Walk
  | 0, _ => .fault
  | fuel + 1, i =>
    if redistFrames ≤ i then .fault
    else if env.Matches i then .found i
    else if env.last i then .missing
    else gicIterateLoop env fuel (if env.vlpis i then i + 2 else i + 1)

def BringupEnv.present (env : BringupEnv) : Bool :=
  env.pidr2 &&& 0xf0 == 0x30 || env.pidr2 &&& 0xf0 == 0x40

def gicPopulateRdist (env : BringupEnv) : Walk :=
  if env.present then gicIterateLoop env (redistFrames + 1) 0 else .missing

/-! ### The callbacks -/

def idleThreadCreateRet (env : BringupEnv) : Int :=
  if !env.idleAlloc then negEnomem
  else if !env.kthreadAlloc then negEnomem
  else if !env.stackAlloc then negEnomem
  else 0

def psciToLinuxErrno (errno : Int) : Int :=
  if errno = 0 then 0
  else if errno = -1 then -95
  else if errno = -2 ∨ errno = -9 then negEinval
  else if errno = -3 then -1
  else negEinval

/-- The boot CPU in `cpuhp_bringup_cpu`: about to run a callback, back from the firmware, waiting in
`cpu_wait_online`, or returned. -/
inductive BootPoint
  | stage (s : CpuhpState)
  | smcDone (err : Int)
  | waitOnline
  | returned (err : Int)
  deriving DecidableEq, Repr

/-- The new CPU: off, in `__secondary_switched`, about to run a callback, in `cpuhp_online_cpu` after
`cpu_set_online`, or in `run_idle`; `hang` is an endless loop, `fault` a data abort that repeats. -/
inductive SecPoint
  | off
  | entry
  | stage (s : CpuhpState)
  | onlineTail
  | runIdle
  | hang
  | fault
  deriving DecidableEq, Repr

/-- The two CPUs, the bit of the online mask, `rd_base` of the new CPU as the index of a frame (`none`
is NULL), its timer and its interrupts.  `done` lists the stages whose callback has returned 0 and
`handlerRan` says that its timer handler has run; no step reads them. -/
structure Bringup where
  boot : BootPoint
  sec : SecPoint
  online : Bool
  redist : Option Nat
  ctl : TimerCtl
  irq : IrqState
  handlerRan : Bool
  done : List CpuhpState

variable {s s' : Bringup}

def Bringup.complete (s : Bringup) (stage : CpuhpState) : Bringup := { s with done := s.done ++ [stage] }

/-- `gic_starting_cpu`, which returns 0 in any case: the frame is recorded and its private
interrupts are disabled (`gic_cpu_init`), or `gic_cpu_init` returns early. -/
def gicStartingCpu (env : BringupEnv) (s : Bringup) : Option Bringup :=
  match gicPopulateRdist env with
  | .found i => some { s with redist := some i, irq := s.irq.write .clear 0xffffffff }
  | .missing => some s
  | .fault => none

/-- `cpuhp_arch_timer_setup`: `arch_timer_start`, then `__arch_timer_init`.  `none` is the data abort
of `enable_irq` when `rd_base` is NULL. -/
def cpuhpArchTimerSetup (env : BringupEnv) (s : Bringup) : Option (Bringup × Int) :=
  let s := { s with ctl := archTimerStart }
  let s := { s with ctl := writeCntpCtl 0 }
  let (irq, ret) := requestIrq archTimerCntpIrq env.timerIrqHandler 0 "arch_timer_irq" 0 s.irq
  if ret < 0 then some (s, ret)
  else if s.redist = none then none
  else some ({ s with irq := irq }, 0)

/-! ### Steps -/

def Bringup.bootStep (env : BringupEnv) (s : Bringup) : Option Bringup :=
  match s.boot with
  | .stage .offline => some { s with boot := .stage .createIdle }
  | .stage .createIdle =>
    let err := idleThreadCreateRet env
    some (if err ≠ 0 then { s with boot := .returned err }
      else { s.complete .createIdle with boot := .stage .startCpu })
  | .stage .startCpu =>
    some { s with boot := .smcDone (psciToLinuxErrno env.psciRet),
                  sec := if env.psciRet = 0 then .entry else s.sec }
  | .smcDone err =>
    some (if err ≠ 0 then { s with boot := .returned err }
      else { s.complete .startCpu with boot := .waitOnline })
  | .waitOnline => some (if s.online then { s with boot := .returned 0 } else s)
  | _ => none

def Bringup.secStep (env : BringupEnv) (s : Bringup) : Option Bringup :=
  match s.sec with
  | .entry =>
    match mpidrToProcessorId env.cpuLogicalMap env.mpidr with
    | none => some { s with sec := .hang }
    | some _ => some { s with sec := .stage .percpuInit }
  | .stage .percpuInit =>
    some (if maxCpus ≤ env.cpu then { s with sec := .hang }
      else { s.complete .percpuInit with sec := .stage .initGic })
  | .stage .initGic =>
    match gicStartingCpu env s with
    | none => some { s with sec := .fault }
    | some s => some { s.complete .initGic with sec := .stage .initTimer }
  | .stage .initTimer =>
    match cpuhpArchTimerSetup env s with
    | none => some { s with sec := .fault }
    | some (s, ret) =>
      some (if ret ≠ 0 then { s with sec := .hang }
        else { s.complete .initTimer with sec := .stage .online })
  | .stage .online => some { s with online := true, sec := .onlineTail }
  | .onlineTail => some { s with sec := .runIdle }
  | _ => none

def Bringup.timerStep (s : Bringup) : Option Bringup :=
  if s.sec = .runIdle ∧ s.ctl.enable = true ∧ s.ctl.imask = false then
    let s := { s with ctl := archTimerDisable }
    some { s with ctl := archTimerStart, handlerRan := true }
  else none

inductive BringupLabel
  | boot | sec | timer
  deriving DecidableEq, Repr

def Bringup.step (env : BringupEnv) (s : Bringup) : BringupLabel → Option Bringup
  | .boot => s.bootStep env
  | .sec => s.secStep env
  | .timer => s.timerStep

structure Bringup.Initial (env : BringupEnv) (s : Bringup) : Prop where
  boot : s.boot = .stage .offline
  sec : s.sec = .off
  online : s.online = false
  redist : s.redist = none
  irq : s.irq = env.irq
  handlerRan : s.handlerRan = false
  done : s.done = []

def bringupSystem (env : BringupEnv) : Trans.System Bringup BringupLabel where
  init := Bringup.Initial env
  step s l s' := s.step env l = some s'

/-! ### The property and its condition -/

/-- The online bit comes after the stages before it, each successful and in order; in `run_idle` the
CPU has its own redistributor frame and, until its timer handler runs, a running timer. -/
structure BringupOk (env : BringupEnv) (s : Bringup) : Prop where
  stages : s.online = true → s.done = [.createIdle, .startCpu, .percpuInit, .initGic, .initTimer]
  redist : s.sec = .runIdle → ∃ i, s.redist = some i ∧ env.Matches i
  timer : s.sec = .runIdle → s.handlerRan = false → s.ctl.enable = true ∧ s.ctl.imask = false

inductive Visited (env : BringupEnv) : Nat → Prop
  | first : env.present = true → Visited env 0
  | next {i : Nat} : Visited env i → i < redistFrames → ¬ env.Matches i → env.last i = false →
      Visited env (if env.vlpis i then i + 2 else i + 1)

def TimerIrqTaken (env : BringupEnv) (irq : IrqState) : Prop :=
  ∃ a, (irq.desc archTimerCntpIrq).action = some a ∧ a.handler ≠ env.timerIrqHandler

/-- The bring-up can succeed: the allocations do, the firmware starts the CPU, the walk comes to a
frame with its affinity, and nobody else has the timer interrupt. -/
structure BringupEnv.Completes (env : BringupEnv) : Prop where
  allocs : env.idleAlloc = true ∧ env.kthreadAlloc = true ∧ env.stackAlloc = true
  psci : env.psciRet = 0
  frame : ∃ i, i < redistFrames ∧ Visited env i ∧ env.Matches i
  handler : ¬ TimerIrqTaken env env.irq

/-! ### The walk -/

private theorem gicIterateLoop_found {fuel i j : Nat} (h : gicIterateLoop env fuel i = .found j)
    (hi : Visited env i) : j < redistFrames ∧ Visited env j ∧ env.Matches j := by
  induction fuel generalizing i with
  | zero => cases h
  | succ fuel ih =>
    simp only [gicIterateLoop] at h
    split at h
    · cases h
    · rename_i hlt
      split at h
      · rename_i hm
        cases h
        exact ⟨Nat.lt_of_not_le hlt, hi, hm⟩
      · rename_i hm
        split at h
        · cases h
        · rename_i hl
          exact ih h (.next hi (Nat.lt_of_not_le hlt) hm (Bool.not_eq_true _ ▸ hl))

variable {i : Nat}

private theorem Visited.present (h : Visited env i) : env.present = true := by
  induction h with
  | first hp => exact hp
  | next _ _ _ _ ih => exact ih

/-- The walk comes to every frame in `Visited`: it has used at most one round a frame. -/
private theorem Visited.reached (h : Visited env i) :
    ∃ k, k ≤ i ∧ gicIterateLoop env (redistFrames + 1) 0 = gicIterateLoop env (redistFrames + 1 - k) i := by
  induction h with
  | first _ => exact ⟨0, le_rfl, rfl⟩
  | @next i _ hlt hm hl ih =>
    obtain ⟨k, hk, heq⟩ := ih
    refine ⟨k + 1, by split <;> omega, ?_⟩
    obtain ⟨fuel, hfuel⟩ : ∃ fuel, redistFrames + 1 - k = fuel + 1 := ⟨redistFrames - k, by omega⟩
    have hrest : redistFrames + 1 - (k + 1) = fuel := by omega
    rw [heq, hfuel, hrest, gicIterateLoop, if_neg (Nat.not_le.mpr hlt), if_neg hm, if_neg (by simp [hl])]

theorem gicPopulateRdist_found (h : gicPopulateRdist env = .found i) :
    i < redistFrames ∧ Visited env i ∧ env.Matches i := by
  unfold gicPopulateRdist at h
  split at h
  · rename_i hp
    exact gicIterateLoop_found h (.first hp)
  · cases h

theorem gicPopulateRdist_of_frame (hlt : i < redistFrames) (hv : Visited env i)
    (hm : env.Matches i) : gicPopulateRdist env = .found i := by
  obtain ⟨k, hk, heq⟩ := hv.reached
  obtain ⟨fuel, hfuel⟩ : ∃ fuel, redistFrames + 1 - k = fuel + 1 := ⟨redistFrames - k, by omega⟩
  rw [gicPopulateRdist, if_pos hv.present, heq, hfuel, gicIterateLoop, if_neg (Nat.not_le.mpr hlt), if_pos hm]

/-! ### The callbacks' outcomes -/

private theorem idleThreadCreateRet_eq_zero : idleThreadCreateRet env = 0 ↔
    env.idleAlloc = true ∧ env.kthreadAlloc = true ∧ env.stackAlloc = true := by
  unfold idleThreadCreateRet
  cases env.idleAlloc <;> cases env.kthreadAlloc <;> cases env.stackAlloc <;> decide

private theorem psciToLinuxErrno_eq_zero (errno : Int) : psciToLinuxErrno errno = 0 ↔ errno = 0 := by
  unfold psciToLinuxErrno negEinval
  split_ifs <;> simp_all

private theorem mpidrToProcessorId_cpu (env : BringupEnv) :
    mpidrToProcessorId env.cpuLogicalMap env.mpidr = some env.cpu := by
  have hpos := env.cpu_pos
  have hlt := env.cpu_lt
  have hne := env.boot_ne
  unfold mpidrToProcessorId BringupEnv.cpuLogicalMap BringupEnv.mpidr
  simp only [maxCpus] at hlt
  obtain h | h | h : env.cpu = 1 ∨ env.cpu = 2 ∨ env.cpu = 3 := by omega
  all_goals
    rw [h] at hne ⊢
    simp [List.findIdx?_cons, hne]

/-- `cpuhp_arch_timer_setup`, by what it finds: another handler, no frame, or neither. -/
private theorem cpuhpArchTimerSetup_cases (env : BringupEnv) (s : Bringup) :
    TimerIrqTaken env s.irq ∧
        cpuhpArchTimerSetup env s = some ({ s with ctl := writeCntpCtl 0 }, negEexist) ∨
      s.redist = none ∧ cpuhpArchTimerSetup env s = none ∨
      s.redist ≠ none ∧ ¬ TimerIrqTaken env s.irq ∧
        ∃ irq, cpuhpArchTimerSetup env s = some ({ s with ctl := writeCntpCtl 0, irq := irq }, 0) := by
  unfold cpuhpArchTimerSetup
  rcases requestIrq_cases archTimerCntpIrq env.timerIrqHandler 0 "arch_timer_irq" 0 s.irq with
    ⟨htaken, hr⟩ | ⟨hno, hr⟩
  · left
    simp only [hr]
    exact ⟨htaken, if_pos (by decide)⟩
  · right
    simp only [hr]
    by_cases hred : s.redist = none
    · exact .inl ⟨hred, (if_neg (by decide)).trans (if_pos hred)⟩
    · exact .inr ⟨hred, hno, _, (if_neg (by decide)).trans (if_neg hred)⟩

/-! ### The invariant -/

def Bringup.stages (s : Bringup) : List CpuhpState := s.done.filter fun st => st != .startCpu

private theorem Bringup.stages_complete {st : CpuhpState} (hst : st ≠ .startCpu) (s : Bringup) :
    (s.complete st).stages = s.stages ++ [st] := by
  simp [Bringup.stages, Bringup.complete, List.filter_append, hst]

private theorem Bringup.stages_startCpu (s : Bringup) : (s.complete .startCpu).stages = s.stages := by
  simp [Bringup.stages, Bringup.complete, List.filter_append]

structure Started (env : BringupEnv) (irq : IrqState) : Prop where
  desc : irq.desc = env.irq.desc
  allocs : env.idleAlloc = true ∧ env.kthreadAlloc = true ∧ env.stackAlloc = true
  psci : env.psciRet = 0

def SecInv (env : BringupEnv) (s : Bringup) : Prop :=
  match s.sec with
  | .off => s.irq.desc = env.irq.desc
  | .entry | .stage .percpuInit => Started env s.irq ∧ s.stages = [.createIdle] ∧ s.redist = none
  | .stage .initGic => Started env s.irq ∧ s.stages = [.createIdle, .percpuInit] ∧ s.redist = none
  | .stage .initTimer => Started env s.irq ∧ s.stages = [.createIdle, .percpuInit, .initGic] ∧
      ∀ i, s.redist = some i ↔ gicPopulateRdist env = .found i
  | .stage .online | .onlineTail | .runIdle =>
    env.Completes ∧ s.stages = [.createIdle, .percpuInit, .initGic, .initTimer] ∧
      s.ctl = writeCntpCtl 0 ∧ ∃ i, s.redist = some i ∧ env.Matches i
  | _ => True

structure BringupInv (env : BringupEnv) (s : Bringup) : Prop where
  sec : SecInv env s
  before : ∀ st, s.boot = .stage st → s.sec = .off ∧ s.redist = none
  stages : ∀ st, s.boot = .stage st → s.done = if st = .startCpu then [.createIdle] else []
  allocs : s.boot = .stage .startCpu →
    env.idleAlloc = true ∧ env.kthreadAlloc = true ∧ env.stackAlloc = true
  online : s.online = true → s.sec = .onlineTail ∨ s.sec = .runIdle
  handlerRan : s.handlerRan = false

theorem BringupInv.of_initial (h : s.Initial env) : BringupInv env s where
  sec := by simp [SecInv, h.sec, h.irq]
  before _ _ := ⟨h.sec, h.redist⟩
  stages st hst := by
    cases h.boot.symm.trans hst
    exact h.done
  allocs hst := by cases h.boot.symm.trans hst
  online ho := by cases h.online.symm.trans ho
  handlerRan := h.handlerRan

/-- What is known of the new CPU does not depend on whether the callback that started it has
returned. -/
private theorem SecInv.startCpu (h : SecInv env s) : SecInv env (s.complete .startCpu) := by
  unfold SecInv at h ⊢
  rw [s.stages_startCpu]
  exact h

private theorem BringupInv.bootStep (hI : BringupInv env s) (h : s.bootStep env = some s') :
    BringupInv env s' := by
  unfold Bringup.bootStep at h
  split at h
  · rename_i hb
    cases h
    refine ⟨hI.sec, fun _ _ => hI.before _ hb, fun st hst => ?_, fun hst => (by cases hst), hI.online,
      hI.handlerRan⟩
    cases hst
    exact hI.stages .offline hb
  · rename_i hb
    dsimp only at h
    split at h
    · cases h
      exact ⟨hI.sec, fun _ hst => (by cases hst), fun _ hst => (by cases hst), fun hst => (by cases hst),
        hI.online, hI.handlerRan⟩
    · rename_i hret
      cases h
      obtain ⟨hsec, hred⟩ := hI.before _ hb
      refine ⟨?_, fun _ _ => ⟨hsec, hred⟩, fun st hst => ?_, fun _ => ?_, hI.online, hI.handlerRan⟩
      · have := hI.sec
        simp only [SecInv, Bringup.complete, hsec] at this ⊢
        exact this
      · cases hst
        simp [Bringup.complete, hI.stages _ hb]
      · exact idleThreadCreateRet_eq_zero.mp (not_not.mp hret)
  · rename_i hb
    cases h
    obtain ⟨hsec, hred⟩ := hI.before _ hb
    have hdesc := hI.sec
    simp only [SecInv, hsec] at hdesc
    have hdone := hI.stages _ hb
    refine ⟨?_, fun _ hst => (by cases hst), fun _ hst => (by cases hst), fun hst => (by cases hst), ?_,
      hI.handlerRan⟩
    · by_cases hp : env.psciRet = 0
      · simp only [SecInv, hp, if_true]
        refine ⟨⟨hdesc, hI.allocs hb, hp⟩, ?_, hred⟩
        rw [Bringup.stages, hdone]
        rfl
      · simp only [SecInv, hp, if_false, hsec]
        exact hdesc
    · intro ho
      rcases hI.online ho with h | h <;> cases hsec.symm.trans h
  · rename_i err hb
    split at h
    · cases h
      exact ⟨hI.sec, fun _ hst => (by cases hst), fun _ hst => (by cases hst), fun hst => (by cases hst),
        hI.online, hI.handlerRan⟩
    · cases h
      exact ⟨SecInv.startCpu hI.sec, fun _ hst => (by cases hst), fun _ hst => (by cases hst),
        fun hst => (by cases hst), hI.online, hI.handlerRan⟩
  · rename_i hb
    split at h
    · cases h
      exact ⟨hI.sec, fun _ hst => (by cases hst), fun _ hst => (by cases hst), fun hst => (by cases hst),
        hI.online, hI.handlerRan⟩
    · cases h
      exact hI
  · cases h

private theorem BringupInv.moved (hI : BringupInv env s) (hoff : s.sec ≠ .off) (hs : SecInv env s')
    (hb : s'.boot = s.boot) (hr : s'.handlerRan = s.handlerRan)
    (ho : s'.online = true → s'.sec = .onlineTail ∨ s'.sec = .runIdle) : BringupInv env s' := by
  have hboot : ∀ st, s'.boot ≠ .stage st := fun st hst => hoff (hI.before st (hb.symm.trans hst)).1
  exact ⟨hs, fun st hst => absurd hst (hboot st), fun st hst => absurd hst (hboot st),
    fun hst => absurd hst (hboot _), ho, hr.trans hI.handlerRan⟩

private theorem BringupInv.secStep (hI : BringupInv env s) (h : s.secStep env = some s') :
    BringupInv env s' := by
  have hsec := hI.sec
  have honline := hI.online
  unfold Bringup.secStep at h
  split at h
  · rename_i hp
    simp only [SecInv, hp] at hsec
    simp only [hp, reduceCtorEq, or_self, imp_false] at honline
    rw [mpidrToProcessorId_cpu] at h
    cases h
    exact hI.moved (by simp [hp]) hsec rfl rfl fun ho => absurd ho honline
  · rename_i hp
    simp only [SecInv, hp] at hsec
    simp only [hp, reduceCtorEq, or_self, imp_false] at honline
    rw [if_neg (Nat.not_le.mpr env.cpu_lt)] at h
    cases h
    obtain ⟨hstart, hst, hred⟩ := hsec
    refine hI.moved (by simp [hp]) ⟨hstart, ?_, hred⟩ rfl rfl fun ho => absurd ho honline
    exact (s.stages_complete (by simp)).trans (by rw [hst]; rfl)
  · rename_i hp
    simp only [SecInv, hp] at hsec
    simp only [hp, reduceCtorEq, or_self, imp_false] at honline
    obtain ⟨hstart, hst, hred⟩ := hsec
    have hstages : (s.complete .initGic).stages = [.createIdle, .percpuInit, .initGic] :=
      (s.stages_complete (by simp)).trans (by rw [hst]; rfl)
    unfold gicStartingCpu at h
    cases hw : gicPopulateRdist env with
    | fault =>
      simp only [hw] at h
      cases h
      exact hI.moved (by simp [hp]) trivial rfl rfl fun ho => absurd ho honline
    | missing =>
      simp only [hw] at h
      cases h
      refine hI.moved (by simp [hp]) ⟨hstart, hstages, fun i => ?_⟩ rfl rfl fun ho => absurd ho honline
      exact iff_of_false (fun hi => by cases hred.symm.trans hi) (by simp [hw])
    | found i =>
      simp only [hw] at h
      cases h
      refine hI.moved (by simp [hp]) ⟨⟨hstart.desc, hstart.allocs, hstart.psci⟩, hstages, ?_⟩ rfl rfl
        fun ho => absurd ho honline
      intro j
      simp [Bringup.complete, hw]
  · rename_i hp
    simp only [SecInv, hp] at hsec
    simp only [hp, reduceCtorEq, or_self, imp_false] at honline
    obtain ⟨hstart, hst, hred⟩ := hsec
    rcases cpuhpArchTimerSetup_cases env s with ⟨-, hc⟩ | ⟨-, hc⟩ | ⟨hne, hno, irq, hc⟩
    · simp only [hc] at h
      cases h
      exact hI.moved (by simp [hp]) trivial rfl rfl fun ho => absurd ho honline
    · simp only [hc] at h
      cases h
      exact hI.moved (by simp [hp]) trivial rfl rfl fun ho => absurd ho honline
    · simp only [hc] at h
      cases h
      obtain ⟨i, hi⟩ := Option.ne_none_iff_exists'.mp hne
      obtain ⟨hlt, hv, hm⟩ := gicPopulateRdist_found ((hred i).mp hi)
      rw [TimerIrqTaken, hstart.desc] at hno
      refine hI.moved (by simp [hp]) ⟨⟨hstart.allocs, hstart.psci, ⟨i, hlt, hv, hm⟩, hno⟩, ?_, rfl, i, hi, hm⟩
        rfl rfl fun ho => absurd ho honline
      exact (s.stages_complete (by simp)).trans (by rw [hst]; rfl)
  · rename_i hp
    simp only [SecInv, hp] at hsec
    cases h
    exact hI.moved (by simp [hp]) hsec rfl rfl fun _ => .inl rfl
  · rename_i hp
    simp only [SecInv, hp] at hsec
    cases h
    exact hI.moved (by simp [hp]) hsec rfl rfl fun _ => .inr rfl
  · cases h

private theorem BringupInv.timerStep (hI : BringupInv env s) : s.timerStep = none := by
  unfold Bringup.timerStep
  split
  · rename_i h
    obtain ⟨hp, he, -⟩ := h
    have hsec := hI.sec
    simp only [SecInv, hp] at hsec
    rw [hsec.2.2.1] at he
    cases he
  · rfl

theorem BringupInv.of_reachable (h : (bringupSystem env).Reachable s) : BringupInv env s := by
  refine h.induction (fun _ => BringupInv.of_initial) fun s l s' _ hI hs => ?_
  have hs : s.step env l = some s' := hs
  cases l with
  | boot => exact hI.bootStep hs
  | sec => exact hI.secStep hs
  | timer => cases hI.timerStep.symm.trans hs

/-! ### What holds and what does not -/

/-- A CPU that is online or in `run_idle` has gone through its stages in order, has its own
redistributor frame, and its timer is off. -/
theorem online_state (h : (bringupSystem env).Reachable s) (hp : s.online = true ∨ s.sec = .runIdle) :
    env.Completes ∧ s.stages = [.createIdle, .percpuInit, .initGic, .initTimer] ∧
      s.ctl = ⟨false, false⟩ ∧ ∃ i, s.redist = some i ∧ env.Matches i := by
  have hI := BringupInv.of_reachable h
  have hsec := hI.sec
  have hpoint : s.sec = .onlineTail ∨ s.sec = .runIdle := hp.elim hI.online .inr
  rcases hpoint with hp | hp
  · simp only [SecInv, hp] at hsec
    exact hsec
  · simp only [SecInv, hp] at hsec
    exact hsec

private theorem reach_sec {p q : SecPoint} (h : ∃ s, (bringupSystem env).Reachable s ∧ s.sec = p)
    (hstep : ∀ s, BringupInv env s → s.sec = p → ∃ s', s.secStep env = some s' ∧ s'.sec = q) :
    ∃ s, (bringupSystem env).Reachable s ∧ s.sec = q := by
  obtain ⟨s, hr, hp⟩ := h
  obtain ⟨s', hs, hq⟩ := hstep s (.of_reachable hr) hp
  have hstep : (bringupSystem env).step s .sec s' := hs
  exact ⟨s', hr.step hstep, hq⟩

private theorem BringupEnv.Completes.starts (hC : env.Completes) :
    ∃ s, (bringupSystem env).Reachable s ∧ s.sec = .entry := by
  let s₀ : Bringup := ⟨.stage .offline, .off, false, none, ⟨false, false⟩, env.irq, false, []⟩
  let s₁ : Bringup := { s₀ with boot := .stage .createIdle }
  let s₂ : Bringup := { s₁.complete .createIdle with boot := .stage .startCpu }
  let s₃ : Bringup := { s₂ with boot := .smcDone (psciToLinuxErrno env.psciRet), sec := .entry }
  have h₁ : (bringupSystem env).step s₀ .boot s₁ := rfl
  have h₂ : (bringupSystem env).step s₁ .boot s₂ := by
    show some (if idleThreadCreateRet env ≠ 0 then _ else _) = some s₂
    rw [if_neg (not_not.mpr (idleThreadCreateRet_eq_zero.mpr hC.allocs))]
  have h₃ : (bringupSystem env).step s₂ .boot s₃ := by
    show some { s₂ with boot := .smcDone (psciToLinuxErrno env.psciRet),
                        sec := if env.psciRet = 0 then .entry else s₂.sec } = some s₃
    rw [if_pos hC.psci]
  have h₀ : (bringupSystem env).Reachable s₀ := .of_init ⟨rfl, rfl, rfl, rfl, rfl, rfl, rfl⟩
  exact ⟨s₃, ((h₀.step h₁).step h₂).step h₃, rfl⟩

private theorem secStep_initGic (hp : s.sec = .stage .initGic) (hw : gicPopulateRdist env = .found i) :
    ∃ s', s.secStep env = some s' ∧ s'.sec = .stage .initTimer := by
  simp only [Bringup.secStep, hp, gicStartingCpu, hw]
  exact ⟨_, rfl, rfl⟩

private theorem secStep_initTimer (hI : BringupInv env s) (hp : s.sec = .stage .initTimer)
    (hw : gicPopulateRdist env = .found i) (hfree : ¬ TimerIrqTaken env env.irq) :
    ∃ s', s.secStep env = some s' ∧ s'.sec = .stage .online := by
  have hsec := hI.sec
  simp only [SecInv, hp] at hsec
  obtain ⟨hstart, -, hred⟩ := hsec
  rcases cpuhpArchTimerSetup_cases env s with ⟨htaken, -⟩ | ⟨hnone, -⟩ | ⟨-, -, irq, hc⟩
  · rw [TimerIrqTaken, hstart.desc] at htaken
    exact absurd htaken hfree
  · cases hnone.symm.trans ((hred i).mpr hw)
  · simp only [Bringup.secStep, hp, hc]
    exact ⟨_, rfl, rfl⟩

theorem BringupEnv.Completes.reaches (hC : env.Completes) :
    ∃ s, (bringupSystem env).Reachable s ∧ s.sec = .runIdle := by
  obtain ⟨i, hlt, hv, hm⟩ := hC.frame
  have hfound := gicPopulateRdist_of_frame hlt hv hm
  have hpercpu : ∃ s, (bringupSystem env).Reachable s ∧ s.sec = .stage .percpuInit := by
    refine reach_sec hC.starts fun s _ hp => ?_
    simp only [Bringup.secStep, hp, mpidrToProcessorId_cpu]
    exact ⟨_, rfl, rfl⟩
  have hgic : ∃ s, (bringupSystem env).Reachable s ∧ s.sec = .stage .initGic := by
    refine reach_sec hpercpu fun s _ hp => ?_
    simp only [Bringup.secStep, hp, if_neg (Nat.not_le.mpr env.cpu_lt)]
    exact ⟨_, rfl, rfl⟩
  have htimer := reach_sec hgic fun s _ hp => secStep_initGic hp hfound
  have honline := reach_sec htimer fun s hI hp => secStep_initTimer hI hp hfound hC.handler
  have htail : ∃ s, (bringupSystem env).Reachable s ∧ s.sec = .onlineTail := by
    refine reach_sec honline fun s _ hp => ?_
    simp only [Bringup.secStep, hp]
    exact ⟨_, rfl, rfl⟩
  refine reach_sec htail fun s _ hp => ?_
  simp only [Bringup.secStep, hp]
  exact ⟨_, rfl, rfl⟩

theorem BringupEnv.Completes.not_ok (hC : env.Completes) :
    ∃ s, (bringupSystem env).Reachable s ∧ ¬ BringupOk env s := by
  obtain ⟨s, hr, hp⟩ := hC.reaches
  refine ⟨s, hr, fun hok => ?_⟩
  have hctl := (online_state hr (.inr hp)).2.2.1
  have hon := (hok.timer hp (BringupInv.of_reachable hr).handlerRan).1
  rw [hctl] at hon
  cases hon

/-- Whatever the environment, the bring-up is as it should be in every reachable state iff it cannot
complete: a CPU that comes online gets to `run_idle` with its timer off. -/
theorem bringup_ok_iff (env : BringupEnv) :
    (∀ s, (bringupSystem env).Reachable s → BringupOk env s) ↔ ¬ env.Completes := by
  constructor
  · intro hall hC
    obtain ⟨s, hr, hbad⟩ := hC.not_ok
    exact hbad (hall s hr)
  · intro hC s hr
    have hnot : ¬ (s.online = true ∨ s.sec = .runIdle) := fun hp => hC (online_state hr hp).1
    exact ⟨fun h => absurd (.inl h) hnot, fun h => absurd (.inr h) hnot, fun h => absurd (.inr h) hnot⟩

/-! ### A machine with four CPUs -/

def fourCpus : BringupEnv where
  cpu := 1
  cpu_pos := by decide
  cpu_lt := by decide
  bootMpidr := 0
  boot_ne := by decide
  idleAlloc := true
  kthreadAlloc := true
  stackAlloc := true
  psciRet := 0
  pidr2 := 0x3b
  typer i := BitVec.ofNat 64 i <<< 32 ||| if i = 3 then 0x10 else 0
  timerIrqHandler := 1
  irq := ⟨0, fun _ => false, fun _ => ⟨none, 0⟩⟩

/-- CPU 1 gets to `run_idle` with its timer off. -/
theorem fourCpus_timer_off : ¬ ∀ env s, (bringupSystem env).Reachable s → BringupOk env s := by
  intro hall
  have hv : Visited fourCpus 1 := .next (.first rfl) (by decide) (by decide) rfl
  have hC : fourCpus.Completes := by
    refine ⟨⟨rfl, rfl, rfl⟩, rfl, ⟨1, by decide, hv, by decide⟩, ?_⟩
    rintro ⟨a, ha, -⟩
    cases ha
  obtain ⟨s, hr, hbad⟩ := hC.not_ok
  exact hbad (hall _ s hr)

end QuestOS
