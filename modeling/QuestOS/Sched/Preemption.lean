import QuestOS.Sched.Lifecycle

/-!
# When a dispatched process is switched out

`schdule` calls `set_resched(false)` before it dispatches, but `set_resched` does not look at its
argument and the flag stays set.  A process therefore keeps the CPU exactly until its first
exception, whatever that is: the intended rule, that only a blocking system call or a used-up time
slice ends its turn, holds in a run iff every exception taken at EL0 is one of these two.
-/

namespace QuestOS

variable {cfg : CpuConfig} {c : Cpu} {p : Pid} {tr : List (Trans.Step Cpu Event)}

def Justifies (cfg : CpuConfig) (p : Pid) (st : Trans.Step Cpu Event) : Prop :=
  match st.label with
  | .svc _ => (st.post.procs p).state ≠ .running
  | .irq (.timer true cnt) => roundRobinNeedResched cfg cnt (kernelEntry st.pre) = true
  | _ => False

/-- Going back from the latest step as long as `p` was at EL0, that is to its dispatch, some step
gave a reason to take the CPU from it. -/
def JustifiedSinceDispatch (cfg : CpuConfig) (p : Pid) : List (Trans.Step Cpu Event) → Prop
  | [] => False
  | st :: tr => st.pre.phase = .user p ∧ (Justifies cfg p st ∨ JustifiedSinceDispatch cfg p tr)

/-- The intended rule: whenever a process is switched out there was a reason since its dispatch. -/
def NoPrematurePreemption (cfg : CpuConfig) (tr : List (Trans.Step Cpu Event)) : Prop :=
  ∀ later st earlier p, tr = later ++ st :: earlier → st.pre.phase = .user p →
    st.post.phase ≠ .user p → JustifiedSinceDispatch cfg p (st :: earlier)

/-- An event that ends the turn of `p` by the intended rule: the exit system call, or a timer
interrupt after the time slice of `p`. -/
def EndsTurn (cfg : CpuConfig) (p : Pid) (c : Cpu) (e : Event) : Prop :=
  e = .svc .exit ∨
    ∃ cnt, e = .irq (.timer true cnt) ∧ roundRobinNeedResched cfg cnt { c with current := p } = true

/-- From EL0 a step is a registration, which changes neither place nor time stamp, or it ends in the
idle loop. -/
theorem CpuInv.user_step {e : Event} {c' : Cpu} (hI : CpuInv cfg c) (h : c.step cfg e = some c')
    (hp : c.phase = .user p) : (∃ q, e = .load q) ∧ c'.phase = .user p ∨
      (∀ q, e ≠ .load q) ∧ c'.phase = .idleTop := by
  cases hI.step_move h with
  | enter ht => simp [hp] at ht
  | nothing hw => simp [hp] at hw
  | dispatch hw _ => simp [hp] at hw
  | exit _ => exact .inr ⟨by simp, rfl⟩
  | exception _ _ hl => exact .inr ⟨hl, rfl⟩
  | idleIrq hw => simp [hp] at hw
  | load _ _ _ _ => exact .inl ⟨⟨_, rfl⟩, hp⟩

/-- The reasons to take the CPU from the running process are the events that end its turn. -/
theorem CpuInv.justifies_iff {e : Event} {c' : Cpu} (hI : CpuInv cfg c)
    (h : c.step cfg e = some c') (hp : c.phase = .user p) :
    Justifies cfg p ⟨c, e, c'⟩ ↔ EndsTurn cfg p c e := by
  have hpq := hI.entry p (hI.user p hp).1
  have hentry : kernelEntry c = { c with current := p } := by
    simp [kernelEntry, (hI.user p hp).1]
  cases e with
  | svc call =>
    cases call with
    | exit => simp [Justifies, EndsTurn, hI.exit_step h hp]
    | write | ni =>
      have hrun : (c'.procs p).state = .running := by
        cases hI.step_move h with
        | exception _ _ _ =>
          rw [processResched_state, if_neg (hI.queued p hpq).2.1]
          exact (hI.user p hp).2
      simp [Justifies, EndsTurn, hrun]
  | irq i =>
    cases i with
    | timer met cnt => cases met <;> simp [Justifies, EndsTurn, hentry]
    | other => simp [Justifies, EndsTurn]
  | idleEnter | idleCheck _ | abort | load _ => simp [Justifies, EndsTurn]

/-- A process that is at EL0 has had no reason to leave it since its dispatch: the first one took it
off the CPU. -/
theorem not_justifiedSinceDispatch (h : (cpuSystem cfg).Run tr c) (hp : c.phase = .user p) :
    ¬ JustifiedSinceDispatch cfg p tr := by
  induction h with
  | nil _ => exact id
  | @cons tr s s' e h hs ih =>
    rintro ⟨hpre, hj⟩
    rcases (CpuInv.of_reachable h.reachable).user_step hs hpre with ⟨⟨q, rfl⟩, -⟩ | ⟨-, hidle⟩
    · rcases hj with hj | hj
      · exact hj
      · exact ih hpre hj
    · simp [hp] at hidle

/-- In every run, processes are switched out by the intended rule iff every exception taken at EL0
is one that ends the turn of the process that runs. -/
theorem noPrematurePreemption_iff (h : (cpuSystem cfg).Run tr c) :
    NoPrematurePreemption cfg tr ↔
      ∀ st ∈ tr, ∀ p, st.pre.phase = .user p → (∀ q, st.label ≠ .load q) →
        EndsTurn cfg p st.pre st.label := by
  constructor
  · intro hN st hst p hp hl
    obtain ⟨later, earlier, rfl⟩ := List.append_of_mem hst
    obtain ⟨hrun, hstep⟩ := h.of_append
    have hI := CpuInv.of_reachable hrun.reachable
    have hout : st.post.phase ≠ .user p := by
      rcases hI.user_step hstep hp with ⟨⟨q, hq⟩, -⟩ | ⟨-, hidle⟩
      · exact absurd hq (hl q)
      · simp [hidle]
    obtain ⟨-, hj | hj⟩ := hN later st earlier p rfl hp hout
    · exact (hI.justifies_iff hstep hp).mp hj
    · exact absurd hj (not_justifiedSinceDispatch hrun hp)
  · intro hall later st earlier p htr hp hout
    subst htr
    obtain ⟨hrun, hstep⟩ := h.of_append
    have hI := CpuInv.of_reachable hrun.reachable
    rcases hI.user_step hstep hp with ⟨-, hu⟩ | ⟨hl, -⟩
    · exact absurd hu hout
    · exact ⟨hp, .inl ((hI.justifies_iff hstep hp).mpr (hall st (by simp) p hp hl))⟩

theorem noPrematurePreemption_iff_exit : ∃ tr c, (cpuSystem bootConfig).Run tr c ∧ tr.length = 4 ∧
    NoPrematurePreemption bootConfig tr := by
  have run := (((freshCpu_run.next (.load 1) rfl).next .idleEnter rfl).next (.idleCheck 0) rfl).next
    (.svc .exit) rfl
  refine ⟨_, _, run, rfl, (noPrematurePreemption_iff run).mpr ?_⟩
  intro st hst p hp _
  simp only [List.mem_cons, List.not_mem_nil, or_false] at hst
  rcases hst with rfl | rfl | rfl | rfl
  · exact .inl rfl
  · cases hp
  · cases hp
  · cases hp

/-- A `write` system call at the instant of the dispatch: the process is switched out at once. -/
theorem write_preempted : ¬ ∀ cfg tr c, (cpuSystem cfg).Run tr c → NoPrematurePreemption cfg tr := by
  intro hall
  have run := (((freshCpu_run.next (.load 1) rfl).next .idleEnter rfl).next (.idleCheck 0) rfl).next
    (.svc .write) rfl
  obtain ⟨-, hj | hj⟩ := hall _ _ _ run [] _ _ 1 rfl rfl (by decide)
  · exact hj rfl
  · cases hj.1

end QuestOS
