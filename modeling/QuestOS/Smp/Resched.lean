import QuestOS.Smp.Invariant

/-!
# Rescheduling from a dispatched process only

`process_resched` takes idle's stack pointer from `current->sp`, where only a dispatched process has
it.  That `check_resched` does not branch to it from EL1 code rests on `preempt_count` alone, since
`__need_resched` is set from `cpu_init` or `cpuhp_online_cpu` on and never cleared.  The count is
raised in the whole part of the idle loop that runs with interrupts unmasked, but not before: from
`local_interrupt_enable` to the first `preempt_disable` of `run_idle` an interrupt ends in a jump to
whatever lies at the stack pointer `load_init_task` stored.  So does a process whose name starts with
`idle`, for which `run_process` calls a NULL pointer.
-/

namespace QuestOS

variable {cfg : SmpConfig} {c : CpuId} {x : Core} {k : KernelPoint} {m : Smp}
  {tr : List (Trans.Step Smp (CpuId × Act))}

/-- What the exit of an exception on a CPU has to do: `process_resched` only from a process that
`process_cpu_context_switch` entered, with idle's saved stack pointer in `current->sp`; and from EL1
code back to the interrupted statement. -/
structure ExitOk (x x' : Core) : Prop where
  dispatched : checkResched x.toCpu = true →
    ∃ v, x.saved = some (x.current, v) ∧ x.procSp x.current = v
  returns : ∀ k b, x.place = .exit (.kernel k) b →
    x' = { x with spEl1 := x.spEl1 + excFrame, masked := b, place := .code (.kernel k) }

def KernelPoint.beforeCount : KernelPoint → Bool
  | .main _ | .mainExit | .idleTop | .idleStore _ => true
  | _ => false

/-- The exception that the CPU returns from interrupted EL1 code before the first `preempt_disable`. -/
def Place.early : Place → Bool
  | .exit (.kernel k) _ => k.beforeCount
  | _ => false

/-- It did, or a process named idle was dispatched. -/
def Core.Exposed (x : Core) : Prop := x.place.early = true ∨ x.IdleNamed

instance (x : Core) : Decidable x.IdleNamed :=
  decidable_of_iff ((x.entryTask.any fun t => isIdleName (x.procs t).name) = true) (by simp [Core.IdleNamed, Option.any_eq_true])

instance (x : Core) : Decidable x.Exposed := inferInstanceAs (Decidable (_ ∨ _))

/-- Where an exception can be taken at EL1, the count is raised, or it is too early, or a NULL
pointer was called. -/
private theorem counted_cases (h : k.irqsOff = false ∨ k = .nullCall) :
    k.counted = true ∧ k.beforeCount = false ∧ k ≠ .nullCall ∨
      k.counted = false ∧ (k.beforeCount = true ∨ k = .nullCall) := by
  rcases h with h | rfl
  · cases k with
    | main call => exact .inr ⟨rfl, .inl rfl⟩
    | mainExit => exact .inr ⟨rfl, .inl rfl⟩
    | idleTop => exact .inr ⟨rfl, .inl rfl⟩
    | idleStore n => exact .inr ⟨rfl, .inl rfl⟩
    | idleUnmask => exact .inl ⟨rfl, rfl, by simp⟩
    | idleCheck => exact .inl ⟨rfl, rfl, by simp⟩
    | idleWfi => exact .inl ⟨rfl, rfl, by simp⟩
    | schduleMask => exact .inl ⟨rfl, rfl, by simp⟩
    | _ => cases h
  · exact .inr ⟨rfl, .inr rfl⟩

theorem CoreInv.exitOk_iff {o : Code} {b : Bool} (hI : CoreInv cfg c x) (hpl : x.place = .exit o b) :
    ExitOk x (x.exit (cfg.cpu c) o b) ↔ ¬ x.Exposed := by
  have h := hI.place
  simp only [PlaceInv, hpl] at h
  cases o with
  | user p =>
    obtain ⟨h, -, hcur⟩ := h
    refine iff_of_true ⟨fun _ => ⟨x.procSp p, by rw [hcur]; exact h.saved, by rw [hcur]⟩, ?_⟩ ?_
    · intro k b' hk
      cases hpl.symm.trans hk
    · rintro (hearly | hn)
      · rw [hpl] at hearly
        cases hearly
      · exact h.named hn
  | kernel k =>
    obtain ⟨h, -, htaken⟩ := h
    have hcheck := checkResched_iff hI hpl
    rcases counted_cases htaken with ⟨hk, hbefore, hnull⟩ | ⟨hk, hexp⟩
    · refine iff_of_true ⟨fun hc => ?_, fun k' b' hk' => ?_⟩ ?_
      · cases (hcheck.mp hc k rfl).symm.trans hk
      · cases hpl.symm.trans hk'
        rw [exit_kernel hI hpl, if_pos hk]
      · rintro (hearly | hn)
        · rw [hpl] at hearly
          cases hbefore.symm.trans hearly
        · exact hnull (h.named.mp hn)
    · refine iff_of_false (fun hok => ?_) (not_not.mpr ?_)
      · obtain ⟨v, hv, -⟩ := hok.dispatched (hcheck.mpr (by rintro _ ⟨rfl⟩; exact hk))
        cases h.saved.symm.trans hv
      · rcases hexp with hb | hn
        · exact .inl (by rw [hpl]; exact hb)
        · exact .inr (h.named.mpr hn)

/-- In every run, each exception exit does what it has to do iff it is not one of an interrupt taken
before the first `preempt_disable`, and no process named idle was dispatched. -/
theorem resched_only_dispatched_iff (h : (smpSystem cfg).Run tr m) :
    (∀ st ∈ tr, ∀ c, st.label = (c, .exit) → ExitOk (st.pre c) (st.post c)) ↔
      ∀ st ∈ tr, ∀ c, st.label = (c, .exit) → ¬ (st.pre c).Exposed := by
  refine forall₂_congr fun st hst => forall₂_congr fun c hl => ?_
  obtain ⟨hreach, hstep⟩ := h.mem_step hst
  have hI := (SmpInv.of_reachable hreach).core c
  have hmove : SmpMove cfg st.pre (c, .exit) st.post := hl ▸ Smp.step_move hstep
  generalize st.post = m' at hmove ⊢
  cases hmove with
  | own hact =>
    cases Core.act_move hact with
    | exit hpl =>
      rw [Smp.put_self]
      exact hI.exitOk_iff hpl

/-! ### An interrupt in `quest_os_main` -/

/-- An interrupt right after `local_interrupt_enable` of `quest_os_main`: `current` is
`g_kernel_init_process`, which no context switch entered. -/
theorem boot_irq_resched : ¬ ∀ cfg tr m, (smpSystem cfg).Run tr m →
    ∀ st ∈ tr, ∀ c, st.label = (c, .exit) → ExitOk (st.pre c) (st.post c) := by
  intro hall
  have run := bootSmp_run
    (List.replicate 4 (0, .next true 0) ++ [(0, .irq .other), (0, .handle), (0, .exit)]) rfl
  obtain ⟨v, hv, -⟩ := (hall _ _ _ run _ List.mem_cons_self 0 rfl).dispatched rfl
  cases hv

/-- CPU 1 is brought up and takes an interrupt in its idle loop. -/
theorem resched_only_dispatched_idle : ∃ tr m, (smpSystem smallConfig).Run tr m ∧
    (∃ st ∈ tr, st.label = (1, .exit)) ∧
    ∀ st ∈ tr, ∀ c, st.label = (c, .exit) → ExitOk (st.pre c) (st.post c) := by
  have run := bootSmp_run
    (List.replicate 8 (0, .next true 0) ++ (0, .bringup 1) :: List.replicate 4 (1, .next true 0) ++
      [(1, .irq .other), (1, .handle), (1, .exit)]) rfl
  refine ⟨_, _, run, ⟨_, List.mem_cons_self, rfl⟩, (resched_only_dispatched_iff run).mpr ?_⟩
  decide

end QuestOS
