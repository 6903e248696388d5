import QuestOS.Sched.Model

/-!
# Life cycle of the queued processes

`CpuInv` is the invariant of the scheduler's runs.  Its first two fields explain the rest: the
`__need_resched` flag is never cleared and `preempt_count` is zero outside the interrupt window of
the idle loop, so every exception taken at EL0 leaves through `process_resched`, and `run_idle`
never waits in `wfi`.
-/

namespace QuestOS

variable {cfg : CpuConfig} {c c' : Cpu} {p q : Pid} {cnt : Nat}

/-! ### Fields after the updates -/

@[simp] theorem Cpu.setState_procs (c : Cpu) (p : Pid) (st : ProcessState) :
    (c.setState p st).procs = Function.update c.procs p { c.procs p with state := st } := rfl

@[simp] theorem Cpu.setState_processes (c : Cpu) (p : Pid) (st : ProcessState) :
    (c.setState p st).processes = c.processes := rfl

@[simp] theorem Cpu.setState_entryTask (c : Cpu) (p : Pid) (st : ProcessState) :
    (c.setState p st).entryTask = c.entryTask := rfl

theorem Cpu.setState_state (c : Cpu) (p q : Pid) (st : ProcessState) :
    ((c.setState p st).procs q).state = if q = p then st else (c.procs q).state := by
  by_cases h : q = p
  · subst h
    simp
  · simp [h]

/-- What `demoteEntryTask` does to a state: only the entry task's changes, from running to ready. -/
theorem demoteEntryTask_state (c : Cpu) (q : Pid) :
    ((demoteEntryTask c).procs q).state =
      if c.entryTask = some q ∧ (c.procs q).state = .running then .ready else (c.procs q).state := by
  unfold demoteEntryTask
  split
  · rename_i h
    simp [h]
  · rename_i t h
    split
    · rename_i hr
      rw [Cpu.setState_state, h]
      by_cases hq : q = t
      · subst hq
        simp [hr]
      · have : t ≠ q := fun e => hq e.symm
        simp [hq, this]
    · rename_i hr
      rw [h]
      by_cases hq : t = q
      · subst hq
        simp [hr]
      · simp [hq]

theorem demoteEntryTask_eq (c : Cpu) : ∃ f, demoteEntryTask c = { c with procs := f } ∧
    ∀ q, (f q).name = (c.procs q).name ∧ (f q).kthread = (c.procs q).kthread := by
  unfold demoteEntryTask
  split
  · exact ⟨c.procs, rfl, fun q => ⟨rfl, rfl⟩⟩
  · rename_i t h
    split
    · refine ⟨_, rfl, fun q => ?_⟩
      by_cases hq : q = t
      · subst hq
        simp
      · simp [hq]
    · exact ⟨c.procs, rfl, fun q => ⟨rfl, rfl⟩⟩

/-! ### `round_robin_pick_next` and `run_process` -/

theorem pickLoop_some {fuel i n : Nat} (h : pickLoop c fuel i = some (some p, n)) :
    p ∈ c.processes ∧ ((c.procs p).state = .ready ∨ (c.procs p).state = .running) ∧
      n < c.processes.length := by
  induction fuel generalizing i with
  | zero => simp [pickLoop] at h
  | succ fuel ih =>
    simp only [pickLoop] at h
    split at h
    · cases h
    · rename_i p' hp
      have hmem : p' ∈ c.processes := List.mem_of_getElem? hp
      split at h
      · exact ih h
      · rename_i hst
        simp only [Option.some.injEq, Prod.mk.injEq] at h
        obtain ⟨rfl, rfl⟩ := h
        have hpos : 0 < c.processes.length := List.length_pos_of_mem hmem
        refine ⟨hmem, ?_, Nat.mod_lt _ hpos⟩
        by_contra hn
        push Not at hn
        exact hst hn

theorem pickLoop_ne_none {fuel i : Nat} (hi : i < c.processes.length) : pickLoop c fuel i ≠ none := by
  induction fuel generalizing i with
  | zero => simp [pickLoop]
  | succ fuel ih =>
    simp only [pickLoop, List.getElem?_eq_getElem hi]
    split
    · exact ih (Nat.mod_lt _ (Nat.lt_of_le_of_lt (Nat.zero_le i) hi))
    · simp

theorem roundRobinPickNext_some {n : Nat} (h : roundRobinPickNext c = some (some p, n)) :
    p ∈ c.processes ∧ ((c.procs p).state = .ready ∨ (c.procs p).state = .running) ∧
      n < c.processes.length := by
  unfold roundRobinPickNext at h
  split at h
  · simp at h
  · exact pickLoop_some h

/-- The states after `run_process`: the chosen process runs, `current` and a preempted entry task
are ready, nothing else changes. -/
theorem runProcess_state (cfg : CpuConfig) (cnt : Nat) (p : Pid) (c : Cpu) (q : Pid) :
    ((runProcess cfg cnt p c).procs q).state =
      if q = p then .running
      else if q = c.current then .ready
      else if c.entryTask = some q ∧ (c.procs q).state = .running then .ready
      else (c.procs q).state := by
  have hstate : ((runProcess cfg cnt p c).procs q).state =
      if q = p then .running else ((demoteEntryTask (c.setState c.current .ready)).procs q).state := by
    by_cases hq : q = p
    · subst hq
      simp [runProcess, Cpu.modify]
    · simp [runProcess, Cpu.modify, hq]
  rw [hstate, demoteEntryTask_state, Cpu.setState_state, Cpu.setState_entryTask]
  by_cases hq : q = c.current <;> simp [hq]

theorem runProcess_fields (cfg : CpuConfig) (cnt : Nat) (p : Pid) (c : Cpu) :
    ∃ f ph, runProcess cfg cnt p c = { c with procs := f, entryTask := some p, phase := ph } ∧
      (∀ q, (f q).name = (c.procs q).name ∧ (f q).kthread = (c.procs q).kthread) ∧
      ph = dispatchPhase p (f p) := by
  obtain ⟨f, hf, hfk⟩ := demoteEntryTask_eq (c.setState c.current .ready)
  refine ⟨_, _, by simp only [runProcess, hf]; rfl, fun q => ?_, rfl⟩
  have hcur : ((c.setState c.current .ready).procs q).name = (c.procs q).name ∧
      ((c.setState c.current .ready).procs q).kthread = (c.procs q).kthread := by
    by_cases hq : q = c.current
    · subst hq
      simp
    · simp [hq]
  rw [← hcur.1, ← hcur.2, ← (hfk q).1, ← (hfk q).2]
  by_cases hq : q = p
  · subst hq
    simp [Cpu.modify]
  · simp [Cpu.modify, hq]

/-- A process without a kernel thread goes to EL0, or faults when it is named idle. -/
theorem dispatchPhase_user {q : ProcessStruct} (hk : q.kthread = none) :
    dispatchPhase p q = if isIdleName q.name then .fault else .user p := by
  simp [dispatchPhase, hk]

/-! ### The invariant and what a step can do -/

structure CpuInv (cfg : CpuConfig) (c : Cpu) : Prop where
  flag : c.needReschedFlag = 1
  count : c.preemptCount = if c.phase = .idleWindow then 1 else 0
  noWfi : c.phase ≠ .idleWfi
  next : c.nextProcess = 0 ∨ c.nextProcess < c.processes.length
  queued : ∀ p ∈ c.processes, p ≠ cfg.idle ∧ p ≠ cfg.gKernelInitProcess ∧ (c.procs p).kthread = none
  current : c.phase = .idleTop ∨ c.phase = .idleWindow →
    c.current = cfg.idle ∨ c.current = cfg.gKernelInitProcess
  entry : ∀ t, c.entryTask = some t → t ∈ c.processes
  user : ∀ p, c.phase = .user p → c.entryTask = some p ∧ (c.procs p).state = .running
  running : ∀ p ∈ c.processes, (c.procs p).state = .running → c.entryTask = some p
  zombie : ∀ p, (c.procs p).state = .zombie → p ∈ c.processes

theorem setResched_of_flag {b : Bool} (h : c.needReschedFlag = 1) : setResched b c = c := by
  cases c
  simp_all [setResched]

theorem handleArchIrq_of_flag {i : Irq} (h : c.needReschedFlag = 1) :
    handleArchIrq cfg i c = c := by
  unfold handleArchIrq preemptCheckResched
  split
  · split
    · exact setResched_of_flag h
    · rfl
  · rfl

private theorem CpuInv.kernelEntry_current (hI : CpuInv cfg c) (hp : c.phase = .user p) :
    kernelEntry c = { c with current := p } := by
  simp [kernelEntry, (hI.user p hp).1]

/-- With the flag set and `preempt_count` zero, an exception at EL0 leaves through
`process_resched`. -/
private theorem exitEl0_of_flag (hf : c.needReschedFlag = 1) (hc : c.preemptCount = 0) :
    exitEl0 cfg c = processResched cfg c := by
  simp [exitEl0, checkResched, hf, hc]

private theorem CpuInv.el0_count (hI : CpuInv cfg c) (hp : c.phase = .user p) : c.preemptCount = 0 := by
  rw [hI.count, hp]
  simp

theorem el0t64HandleSvc_of_flag {call : Syscall} (hf : c.needReschedFlag = 1) :
    el0t64HandleSvc call c = call.run c := by
  have hr : (call.run c).needReschedFlag = 1 := by
    cases call <;> exact hf
  unfold el0t64HandleSvc
  simp only [setResched_of_flag hr, ite_self]

theorem schdule_cases (hflag : c.needReschedFlag = 1)
    (hnext : c.nextProcess = 0 ∨ c.nextProcess < c.processes.length) (cfg : CpuConfig) (cnt : Nat) :
    schdule cfg cnt c = { preemptEnable c with phase := .idleTop } ∨
      ∃ p n, roundRobinPickNext c = some (some p, n) ∧
        schdule cfg cnt c = runProcess cfg cnt p { preemptEnable c with nextProcess := n } := by
  have hpick : roundRobinPickNext (preemptEnable c) = roundRobinPickNext c := by
    have hloop : ∀ fuel i, pickLoop (preemptEnable c) fuel i = pickLoop c fuel i := by
      intro fuel
      induction fuel with
      | zero => intro i; rfl
      | succ fuel ih =>
        intro i
        simp only [pickLoop, preemptEnable] at ih ⊢
        simp only [ih]
    simp only [roundRobinPickNext, hloop]
    rfl
  simp only [schdule, hpick]
  cases h : roundRobinPickNext c with
  | none =>
    exfalso
    unfold roundRobinPickNext at h
    split at h
    · cases h
    · rename_i hne
      rcases hnext with h0 | hlt
      · exact pickLoop_ne_none (by omega) h
      · exact pickLoop_ne_none hlt h
  | some r =>
    obtain ⟨_ | p, n⟩ := r
    · exact .inl rfl
    · exact .inr ⟨p, n, rfl, congrArg (runProcess cfg cnt p) (setResched_of_flag hflag)⟩

inductive CpuMove (cfg : CpuConfig) (c : Cpu) : Event → Cpu → Prop
  | enter : c.phase = .idleTop →
      CpuMove cfg c .idleEnter { preemptDisable c with phase := .idleWindow }
  | nothing {cnt : Nat} : c.phase = .idleWindow →
      CpuMove cfg c (.idleCheck cnt) { preemptEnable c with phase := .idleTop }
  | dispatch {cnt p n : Nat} : c.phase = .idleWindow → roundRobinPickNext c = some (some p, n) →
      CpuMove cfg c (.idleCheck cnt) (runProcess cfg cnt p { preemptEnable c with nextProcess := n })
  | exit {p : Pid} : c.phase = .user p →
      CpuMove cfg c (.svc .exit)
        (processResched cfg (({ c with current := p } : Cpu).setState p .zombie))
  | exception {e : Event} {p : Pid} : c.phase = .user p → e ≠ .svc .exit → (∀ q, e ≠ .load q) →
      CpuMove cfg c e (processResched cfg { c with current := p })
  | idleIrq {i : Irq} : c.phase = .idleWindow → CpuMove cfg c (.irq i) c
  | load {p : Pid} : p ∉ c.processes → p ≠ cfg.idle → p ≠ cfg.gKernelInitProcess →
      (c.procs p).kthread = none → CpuMove cfg c (.load p) (roundRobinLoadProcess p c)

theorem CpuInv.step_move {e : Event} (hI : CpuInv cfg c) (h : c.step cfg e = some c') :
    CpuMove cfg c e c' := by
  cases e with
  | idleEnter =>
    simp only [Cpu.step, hI.noWfi, or_false, Option.ite_none_right_eq_some, Option.some.injEq] at h
    obtain ⟨ht, rfl⟩ := h
    exact .enter ht
  | idleCheck cnt =>
    simp only [Cpu.step, needResched, hI.flag, Option.ite_none_right_eq_some, Option.some.injEq] at h
    obtain ⟨hw, rfl⟩ := h
    rcases schdule_cases hI.flag hI.next cfg cnt with hs | ⟨p, n, hp, hs⟩
    · simpa [hs] using CpuMove.nothing hw
    · simpa [hs] using CpuMove.dispatch hw hp
  | svc call =>
    simp only [Cpu.step] at h
    split at h
    · rename_i p hp
      have hc := hI.el0_count hp
      simp only [Option.some.injEq] at h
      rw [hI.kernelEntry_current hp, el0t64HandleSvc_of_flag (by exact hI.flag)] at h
      cases call with
      | exit =>
        rw [exitEl0_of_flag (by exact hI.flag) (by exact hc)] at h
        exact h ▸ .exit hp
      | write =>
        rw [exitEl0_of_flag (by exact hI.flag) (by exact hc)] at h
        exact h ▸ .exception hp (by simp) (by simp)
      | ni =>
        rw [exitEl0_of_flag (by exact hI.flag) (by exact hc)] at h
        exact h ▸ .exception hp (by simp) (by simp)
    · cases h
  | abort =>
    simp only [Cpu.step] at h
    split at h
    · rename_i p hp
      simp only [Option.some.injEq] at h
      rw [hI.kernelEntry_current hp, exitEl0_of_flag (by exact hI.flag) (by exact hI.el0_count hp)] at h
      exact h ▸ .exception hp (by simp) (by simp)
    · cases h
  | irq i =>
    simp only [Cpu.step] at h
    split at h
    · rename_i p hp
      simp only [Option.some.injEq] at h
      rw [hI.kernelEntry_current hp, handleArchIrq_of_flag (by exact hI.flag),
        exitEl0_of_flag (by exact hI.flag) (by exact hI.el0_count hp)] at h
      exact h ▸ .exception hp (by simp) (by simp)
    · rename_i hw
      -- preempt_count is 1 in the window, so the interrupt returns to the idle loop
      have hc : c.preemptCount = 1 := by simp [hI.count, hw]
      simp only [handleArchIrq_of_flag hI.flag, exitEl1, checkResched, hc, Option.some.injEq] at h
      have hcc : c = c' := by simpa using h
      exact hcc ▸ .idleIrq hw
    · rename_i hw
      exact absurd hw hI.noWfi
    · cases h
  | load p =>
    simp only [Cpu.step, Option.ite_none_right_eq_some, Option.some.injEq] at h
    obtain ⟨⟨hq, hi, hk, -, ht⟩, rfl⟩ := h
    exact .load hq hi hk ht

/-! ### The invariant along a run -/

theorem processResched_state (cfg : CpuConfig) (c : Cpu) (q : Pid) :
    ((processResched cfg c).procs q).state =
      if q = cfg.gKernelInitProcess then .running else (c.procs q).state := by
  rw [← Cpu.setState_state]
  rfl

theorem processResched_kthread (cfg : CpuConfig) (c : Cpu) (q : Pid) :
    ((processResched cfg c).procs q).kthread = (c.procs q).kthread := by
  by_cases hq : q = cfg.gKernelInitProcess
  · subst hq
    simp [processResched]
  · simp [processResched, hq]

theorem CpuInv.of_initial (h : c.Initial cfg) : CpuInv cfg c where
  flag := h.needReschedFlag
  count := by simp [h.preemptCount, h.phase]
  noWfi := by simp [h.phase]
  next := .inl h.nextProcess
  queued := by simp [h.processes]
  current := fun _ => .inl h.current
  entry := by simp [h.entryTask]
  user := by simp [h.phase]
  running := by simp [h.processes]
  zombie := fun p hp => absurd hp (h.notZombie p)

private theorem CpuInv.current_not_mem (hI : CpuInv cfg c) (hw : c.phase = .idleTop ∨ c.phase = .idleWindow) :
    c.current ∉ c.processes := by
  intro hm
  have := hI.queued _ hm
  rcases hI.current hw with h | h
  · exact this.1 h
  · exact this.2.1 h

/-- `run_process` on a queued process, from idle with `preempt_count` back at zero. -/
private theorem CpuInv.of_runProcess (hflag : c.needReschedFlag = 1) (hc : c.preemptCount = 0)
    (hn : c.nextProcess < c.processes.length)
    (hqueued : ∀ p ∈ c.processes, p ≠ cfg.idle ∧ p ≠ cfg.gKernelInitProcess ∧ (c.procs p).kthread = none)
    (hcur : c.current ∉ c.processes)
    (hrunning : ∀ p ∈ c.processes, (c.procs p).state = .running → c.entryTask = some p)
    (hzombie : ∀ p, (c.procs p).state = .zombie → p ∈ c.processes) (hp : p ∈ c.processes) :
    CpuInv cfg (runProcess cfg cnt p c) := by
  have hst := runProcess_state cfg cnt p c
  obtain ⟨f, ph, hr, hf, hph⟩ := runProcess_fields cfg cnt p c
  have hk : (f p).kthread = none := by
    rw [(hf p).2]
    exact (hqueued p hp).2.2
  rw [dispatchPhase_user hk] at hph
  rw [hr] at hst ⊢
  simp only at hst
  refine ⟨hflag, ?_, ?_, .inr hn, fun q hq => ?_, ?_, ?_, fun q hq => ⟨?_, ?_⟩, fun q hq hrun => ?_,
    fun q hz => ?_⟩
  · simp only [hph, hc]
    split <;> simp
  · simp only [hph]
    split <;> simp
  · have := hqueued q hq
    exact ⟨this.1, this.2.1, by rw [(hf q).2]; exact this.2.2⟩
  · simp only [hph]
    split <;> simp
  · intro t ht
    cases ht
    exact hp
  · simp only [hph] at hq
    split at hq <;> simp_all
  · simp only [hph] at hq
    split at hq
    · cases hq
    · cases hq
      simp [hst]
  · -- a running process is the one just chosen: the old entry task was demoted
    simp only [hst] at hrun
    have hqc : q ≠ c.current := fun e => hcur (e ▸ hq)
    by_cases hqp : q = p
    · rw [hqp]
    · simp only [hqp, hqc, if_false] at hrun
      split at hrun
      · cases hrun
      · rename_i hne
        exact absurd ⟨hrunning q hq hrun, hrun⟩ hne
  · simp only [hst] at hz
    split_ifs at hz
    exact hzombie q hz

private theorem CpuInv.dispatch {n : Nat} (hI : CpuInv cfg c) (hw : c.phase = .idleWindow)
    (hp : roundRobinPickNext c = some (some p, n)) :
    CpuInv cfg (runProcess cfg cnt p { preemptEnable c with nextProcess := n }) := by
  obtain ⟨hpq, -, hn⟩ := roundRobinPickNext_some hp
  have hc : c.preemptCount = 1 := by simp [hI.count, hw]
  exact .of_runProcess hI.flag (by simp [preemptEnable, hc]) hn hI.queued
    (hI.current_not_mem (.inr hw)) hI.running hI.zombie hpq

private theorem CpuInv.resched (hI : CpuInv cfg c) (hp : c.phase = .user p) (st : ProcessState) :
    CpuInv cfg (processResched cfg (({ c with current := p } : Cpu).setState p st)) := by
  have hentry := (hI.user p hp).1
  have hpq := hI.entry p hentry
  have hstate : ∀ q, ((processResched cfg (({ c with current := p } : Cpu).setState p st)).procs q).state =
      if q = cfg.gKernelInitProcess then .running else if q = p then st else (c.procs q).state := by
    intro q
    rw [processResched_state, Cpu.setState_state]
  refine ⟨hI.flag, ?_, by simp [processResched], hI.next, fun q hq => ?_, fun _ => .inr rfl, hI.entry,
    by simp [processResched], fun q hq hrun => ?_, fun q hz => ?_⟩
  · show c.preemptCount = _
    rw [hI.el0_count hp]
    simp [processResched]
  · obtain ⟨h1, h2, h3⟩ := hI.queued q hq
    refine ⟨h1, h2, ?_⟩
    rw [processResched_kthread]
    by_cases hqp : q = p
    · subst hqp
      simpa using h3
    · simpa [hqp] using h3
  · rw [hstate, if_neg (hI.queued q hq).2.1] at hrun
    by_cases hqp : q = p
    · exact hqp ▸ hentry
    · rw [if_neg hqp] at hrun
      exact hI.running q hq hrun
  · rw [hstate] at hz
    split_ifs at hz with h1 h2
    · exact h2 ▸ hpq
    · exact hI.zombie q hz

private theorem CpuInv.load (hI : CpuInv cfg c) (hq : p ∉ c.processes) (hi : p ≠ cfg.idle)
    (hk : p ≠ cfg.gKernelInitProcess) (ht : (c.procs p).kthread = none) :
    CpuInv cfg (roundRobinLoadProcess p c) := by
  have hstate : ∀ q, ((roundRobinLoadProcess p c).procs q).state =
      if q = p then .ready else (c.procs q).state := fun q => c.setState_state p q .ready
  have hne : ∀ q ∈ c.processes, q ≠ p := fun q hm e => hq (e ▸ hm)
  refine ⟨hI.flag, hI.count, hI.noWfi, ?_, fun q hm => ?_, hI.current, fun t he => ?_, fun q hu => ?_,
    fun q hm hrun => ?_, fun q hz => ?_⟩
  · rcases hI.next with h | h
    · exact .inl h
    · right
      simp only [roundRobinLoadProcess, List.length_append]
      exact Nat.lt_add_right _ h
  · rcases List.mem_append.mp hm with hm | hm
    · simpa [roundRobinLoadProcess, hne q hm] using hI.queued q hm
    · rw [List.mem_singleton.mp hm]
      exact ⟨hi, hk, by simpa [roundRobinLoadProcess] using ht⟩
  · exact List.mem_append_left _ (hI.entry t he)
  · obtain ⟨he, hr⟩ := hI.user q hu
    refine ⟨he, ?_⟩
    rw [hstate, if_neg (hne q (hI.entry q he))]
    exact hr
  · rw [hstate] at hrun
    split_ifs at hrun with h
    rcases List.mem_append.mp hm with hm | hm
    · exact hI.running q hm hrun
    · exact absurd (List.mem_singleton.mp hm) h
  · rw [hstate] at hz
    split_ifs at hz
    exact List.mem_append_left _ (hI.zombie q hz)

theorem CpuInv.step {e : Event} (hI : CpuInv cfg c) (h : c.step cfg e = some c') : CpuInv cfg c' := by
  cases hI.step_move h with
  | enter ht =>
    have hc : c.preemptCount = 0 := by simp [hI.count, ht]
    refine ⟨hI.flag, by simp [preemptDisable, hc], by simp, hI.next, hI.queued,
      fun _ => hI.current (.inl ht), hI.entry, by simp, hI.running, hI.zombie⟩
  | nothing hw =>
    have hc : c.preemptCount = 1 := by simp [hI.count, hw]
    refine ⟨hI.flag, by simp [preemptEnable, hc], by simp, hI.next, hI.queued,
      fun _ => hI.current (.inr hw), hI.entry, by simp, hI.running, hI.zombie⟩
  | dispatch hw hp => exact hI.dispatch hw hp
  | exit hp => exact hI.resched hp _
  | @exception e p hp he _ =>
    have hid : { c with current := p } = ({ c with current := p } : Cpu).setState p .running := by
      have hrun : ({ c.procs p with state := .running } : ProcessStruct) = c.procs p := by
        rw [← (hI.user p hp).2]
      simp [Cpu.setState, Cpu.modify, hrun]
    rw [hid]
    exact hI.resched hp _
  | idleIrq _ => exact hI
  | load hq hi hk ht => exact hI.load hq hi hk ht

theorem CpuInv.of_reachable (h : (cpuSystem cfg).Reachable c) : CpuInv cfg c :=
  h.induction (fun _ => CpuInv.of_initial) fun _ _ _ _ hI hs => hI.step hs

/-! ### Zombies -/

theorem CpuInv.zombie_step {e : Event} (hI : CpuInv cfg c) (h : c.step cfg e = some c')
    (hz : (c.procs p).state = .zombie) : (c'.procs p).state = .zombie := by
  have hp := hI.zombie p hz
  cases hI.step_move h with
  | enter _ => exact hz
  | nothing _ => exact hz
  | @dispatch cnt p' n hw hpick =>
    obtain ⟨-, hrun, -⟩ := roundRobinPickNext_some hpick
    have hne : p ≠ p' := by
      rintro rfl
      simp [hz] at hrun
    have hcur : p ≠ c.current := fun e => hI.current_not_mem (.inr hw) (e ▸ hp)
    rw [runProcess_state, if_neg hne, if_neg (by exact hcur), if_neg]
    · exact hz
    · rintro ⟨-, hr⟩
      rw [show (c.procs p).state = .running from hr] at hz
      cases hz
  | @exit p' _ =>
    rw [processResched_state, if_neg (hI.queued p hp).2.1, Cpu.setState_state]
    split
    · rfl
    · exact hz
  | exception _ _ _ =>
    rw [processResched_state, if_neg (hI.queued p hp).2.1]
    exact hz
  | idleIrq _ => exact hz
  | @load p' hq _ _ _ =>
    have hne : p ≠ p' := fun e => hq (e ▸ hp)
    simpa [roundRobinLoadProcess, hne] using hz

theorem CpuInv.exit_step (hI : CpuInv cfg c) (h : c.step cfg (.svc .exit) = some c')
    (hp : c.phase = .user p) : (c'.procs p).state = .zombie := by
  cases hI.step_move h with
  | @exit p' hp' =>
    obtain rfl : p = p' := by simpa [hp] using hp'
    have hpq := hI.entry p (hI.user p hp).1
    rw [processResched_state, if_neg (hI.queued p hpq).2.1, Cpu.setState_state, if_pos rfl]
  | exception _ he _ => exact absurd rfl he

/-- The life cycle of the queued processes, in the last state of any run: at most one is running and
it is the entry task; one that became a zombie, or made the exit system call, earlier in the run is
a zombie, is not picked and does not execute at EL0. -/
theorem process_life_cycle {tr : List (Trans.Step Cpu Event)} (h : (cpuSystem cfg).Run tr c) :
    (∀ p ∈ c.processes, ∀ q ∈ c.processes,
      (c.procs p).state = .running → (c.procs q).state = .running → p = q) ∧
    (∀ p ∈ c.processes, (c.procs p).state = .running → c.entryTask = some p) ∧
    (∀ p, (∃ st ∈ tr, (st.post.procs p).state = .zombie ∨
        st.label = .svc .exit ∧ st.pre.phase = .user p) →
      (c.procs p).state = .zombie ∧ (∀ n, roundRobinPickNext c ≠ some (some p, n)) ∧
        c.phase ≠ .user p) := by
  have hI := CpuInv.of_reachable h.reachable
  refine ⟨fun p hp q hq hrp hrq => ?_, hI.running, fun p hst => ?_⟩
  · have hp' := hI.running p hp hrp
    rw [hI.running q hq hrq] at hp'
    exact (Option.some.inj hp').symm
  · obtain ⟨st, hmem, hst⟩ := hst
    obtain ⟨later, earlier, rfl⟩ := List.append_of_mem hmem
    obtain ⟨hreach, hstep⟩ := h.mem_step hmem
    have hpost : (st.post.procs p).state = .zombie := by
      rcases hst with hz | ⟨hl, hu⟩
      · exact hz
      · exact (CpuInv.of_reachable hreach).exit_step (hl ▸ hstep) hu
    have hz : (c.procs p).state = .zombie :=
      h.stable (P := fun c => (c.procs p).state = .zombie)
        (fun _ _ _ hr hz hs => (CpuInv.of_reachable hr).zombie_step hs hz) hpost
    refine ⟨hz, fun n hn => ?_, fun hu => ?_⟩
    · have := (roundRobinPickNext_some hn).2.1
      simp [hz] at this
    · have := (hI.user p hu).2
      simp [hz] at this

def freshCpu : Cpu where
  procs := fun _ => ⟨[], .new, none, none, 0⟩
  processes := []
  nextProcess := 0
  entryTask := none
  needReschedFlag := 1
  preemptCount := 0
  current := 0
  phase := .idleTop

def bootConfig : CpuConfig := ⟨1000000, 0, 0⟩

theorem freshCpu_run : (cpuSystem bootConfig).Run [] freshCpu :=
  .nil ⟨rfl, rfl, rfl, rfl, rfl, rfl, rfl, fun _ => by simp [freshCpu]⟩

theorem process_life_cycle_exit : ∃ tr c, (cpuSystem bootConfig).Run tr c ∧ tr.length = 4 ∧
    (c.procs 1).state = .zombie ∧ c.phase ≠ .user 1 := by
  have run := (((freshCpu_run.next (.load 1) rfl).next .idleEnter rfl).next
    (.idleCheck 0) rfl).next (.svc .exit) rfl
  have hexit := (process_life_cycle run).2.2 1 ⟨_, List.mem_cons_self, .inr ⟨rfl, rfl⟩⟩
  exact ⟨_, _, run, rfl, hexit.1, hexit.2.2⟩

end QuestOS
