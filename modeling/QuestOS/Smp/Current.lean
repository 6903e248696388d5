import QuestOS.Smp.Invariant

/-!
# Is `current` local to its CPU?

`current` is `SP_EL0`.  `load_init_task` sets it to the idle process of the CPU and `kernel_entry` to
its `entry_task`, but `process_resched`, on whatever CPU it runs, sets it to `g_kernel_init_process`,
the idle process of the boot CPU.  So on any other CPU it is right exactly until the first exception
at EL0 is over; from then on `run_process` of that CPU writes the state of the boot CPU's idle process.
-/

namespace QuestOS

variable {cfg : SmpConfig} {c d : CpuId} {x x' : Core} {k : KernelPoint} {m m' : Smp} {l : CpuId × Act}
  {tr : List (Trans.Step Smp (CpuId × Act))} {p : Pid}

/-! ### The property -/

def KernelPoint.idleCode : KernelPoint → Bool
  | .main _ | .mainExit | .onlineResched | .onlineEnable => false
  | _ => true

/-- In idle code `current` is the CPU's idle process, in a handler of an exception at EL0 its entry
task. -/
def Core.CurrentOk (x : Core) : Prop :=
  match x.place with
  | .code (.kernel k) => k.idleCode = true → x.idleProcess = some x.current
  | .handler (.user _) _ _ | .exit (.user _) _ => x.entryTask = some x.current
  | _ => True

def Core.Owns (x : Core) (p : Pid) : Prop := x.idleProcess = some p ∨ p ∈ x.processes

def Smp.stateWrites (cfg : SmpConfig) (m : Smp) : CpuId × Act → List Pid
  | (c, .next _ _) =>
    match (m c).place with
    | .code (.kernel .schdulePick) =>
      match roundRobinPickNext (m c).toCpu with
      | some (some p, _) => (m c).current :: p :: (m c).entryTask.toList.filter fun t =>
          decide (t ≠ (m c).current ∧ ((m c).procs t).state = .running)
      | _ => []
    | .code (.kernel .runTail) => [(m c).current]
    | _ => []
  | (c, .handle) =>
    match (m c).place with
    | .handler _ _ (.svc .exit) => [(m c).current]
    | _ => []
  | (_, .register _ p) => [p]
  | (_, .bringup d) => [cfg.idle d]
  | _ => []

/-- What a step must respect: `current` is local to each CPU after it, and the CPU that takes it
writes no state of another CPU's process. -/
structure CpuLocal (cfg : SmpConfig) (st : Trans.Step Smp (CpuId × Act)) : Prop where
  current : ∀ c, (st.post c).CurrentOk
  writes : ∀ p ∈ st.pre.stateWrites cfg st.label, ∀ d, d ≠ st.label.1 → ¬ (st.pre d).Owns p

/-! ### The list of writes is complete -/

private theorem schdulePick_procs (cfg : CpuConfig) (cnt : Nat) (x : Core) :
    (x.schdulePick cfg cnt).procs = (schdule cfg cnt x.toCpu).procs := by
  unfold Core.schdulePick
  dsimp only
  split <;> rfl

private theorem schdulePick_state (hI : CoreInv cfg c x) (hflag : x.needReschedFlag = 1) (cnt : Nat)
    (hp : ∀ q n, roundRobinPickNext x.toCpu = some (some q, n) → p ≠ x.current ∧ p ≠ q ∧
      ¬ (x.entryTask = some p ∧ (x.procs p).state = .running)) :
    ((x.schdulePick (cfg.cpu c) cnt).procs p).state = (x.procs p).state := by
  rw [schdulePick_procs]
  rcases schdule_cases hflag hI.next (cfg.cpu c) cnt with hs | ⟨q, n, hq, hs⟩
  · rw [hs]
    rfl
  · obtain ⟨h1, h2, h3⟩ := hp q n hq
    rw [hs, runProcess_state, if_neg h2, if_neg (by exact h1), if_neg (by exact h3)]
    rfl

theorem state_of_not_mem_stateWrites (hm : SmpInv cfg m) (h : m.step cfg l = some m')
    (hp : p ∉ m.stateWrites cfg l) : ((m' d).procs p).state = ((m d).procs p).state := by
  cases Smp.step_move h with
  | @own c a x hact =>
    have hI := hm.core c
    rw [Smp.put_procs, (hm.shared d c).1]
    cases Core.act_move hact with
    | @next ok cnt k hpl =>
      simp only [Smp.stateWrites, hpl] at hp
      cases k with
      | main call => cases call <;> rfl
      | schdulePick =>
        have hflag := (hI.kernel hpl).1.flag rfl
        refine schdulePick_state hI hflag cnt fun q n hq => ?_
        simp only [hq, List.mem_cons, List.mem_filter, Option.mem_toList, decide_eq_true_eq, not_or,
          not_and] at hp
        obtain ⟨h1, h2, h3⟩ := hp
        exact ⟨h1, h2, fun ⟨he, hr⟩ => h3 he h1 hr⟩
      | runTail =>
        show (((m c).toCpu.setState (m c).current .running).procs p).state = _
        rw [Cpu.setState_state, if_neg (by simpa using hp)]
      | _ => rfl
    | @irq i o hpl _ => cases o <;> rfl
    | svc hpl => rfl
    | abort hpl => rfl
    | @handle o b e hpl =>
      have h := hI.place
      simp only [PlaceInv, hpl] at h
      rcases e.handle_cases (TakenInv.flag h.1 h.2) (cfg.cpu c) with he | ⟨rfl, he⟩
      · rw [he]
      · simp only [Smp.stateWrites, hpl, List.mem_singleton] at hp
        rw [he, Cpu.setState_state, if_neg hp]
    | @exit o b hpl =>
      cases o with
      | user q => rw [exit_user hI hpl]
      | kernel k =>
        rw [exit_kernel hI hpl]
        split <;> rfl
  | @register e q _ _ =>
    rw [Smp.put_procs, (hm.shared d e).1]
    show (((m e).toCpu.setState q .ready).procs p).state = _
    rw [Cpu.setState_state, if_neg (by simpa [Smp.stateWrites] using hp)]
  | @bringup e _ =>
    have hne : p ≠ cfg.idle e := by simpa [Smp.stateWrites] using hp
    rw [Smp.put_procs, (hm.shared d e).1]
    show (idleThreadCreate cfg e (m e).procs p).state = _
    rw [idleThreadCreate, Function.update_of_ne hne]

/-! ### As long as no exception at EL0 ends on another CPU -/

def Place.kernel : Place → Bool
  | .code (.kernel _) | .handler (.kernel _) _ _ | .exit (.kernel _) _ => true
  | _ => false

def CurrentIdle (cfg : SmpConfig) (m : Smp) : Prop :=
  ∀ c, (m c).place.kernel = true → (m c).current = cfg.idle c

def Place.exitsEl0 : Place → Bool
  | .exit (.user _) _ => true
  | _ => false

def EndsEl0 (st : Trans.Step Smp (CpuId × Act)) (c : CpuId) : Prop :=
  st.label = (c, .exit) ∧ (st.pre c).place.exitsEl0 = true

instance (st : Trans.Step Smp (CpuId × Act)) (c : CpuId) : Decidable (EndsEl0 st c) :=
  inferInstanceAs (Decidable (_ ∧ _))

private theorem next_current {ok : Bool} {cnt : Nat} (hI : CoreInv cfg c x)
    (hpl : x.place = .code (.kernel k)) : (x.next (cfg.cpu c) ok cnt k).current = x.current := by
  cases k with
  | main call => cases call <;> rfl
  | schdulePick =>
    have hflag := (hI.kernel hpl).1.flag rfl
    show (x.schdulePick (cfg.cpu c) cnt).current = x.current
    rcases schdulePick_cases hI hflag cnt with hs | ⟨p, n, f, -, -, -, -, ⟨-, hs⟩ | ⟨-, hs⟩⟩ <;> rw [hs] <;> rfl
  | _ => rfl

private theorem act_current {a : Act} (hI : CoreInv cfg c x) (h : x.act (cfg.cpu c) a = some x')
    (hx : x.place.kernel = true → x.current = cfg.idle c)
    (hb : a = .exit → x.place.exitsEl0 = true → c = 0) :
    x'.place.kernel = true → x'.current = cfg.idle c := by
  cases Core.act_move h with
  | next hpl =>
    intro _
    rw [next_current hI hpl]
    exact hx (by rw [hpl]; rfl)
  | @irq i o hpl _ =>
    cases o with
    | kernel k => exact fun _ => hx (by rw [hpl]; rfl)
    | user p => exact fun hk => by cases hk
  | svc _ => exact fun hk => by cases hk
  | abort _ => exact fun hk => by cases hk
  | @handle o b e hpl =>
    cases o with
    | user p => exact fun hk => by cases hk
    | kernel k =>
      have hp := hI.place
      simp only [PlaceInv, hpl] at hp
      intro _
      show (e.handle (cfg.cpu c) x.toCpu).current = cfg.idle c
      have hcur : (e.handle (cfg.cpu c) x.toCpu).current = x.current := by
        rcases e.handle_cases (TakenInv.flag hp.1 hp.2) (cfg.cpu c) with he | ⟨-, he⟩ <;> rw [he]
        rfl
      rw [hcur]
      exact hx (by rw [hpl]; rfl)
  | @exit o b hpl =>
    cases o with
    | user p =>
      rw [exit_user hI hpl, hb rfl (by rw [hpl]; rfl)]
      exact fun _ => rfl
    | kernel k =>
      rw [exit_kernel hI hpl]
      split
      · exact fun _ => hx (by rw [hpl]; rfl)
      · exact fun hk => by cases hk

private theorem CurrentIdle.step (hm : SmpInv cfg m) (hl : CurrentIdle cfg m) (h : m.step cfg l = some m')
    (hb : ∀ c, EndsEl0 ⟨m, l, m'⟩ c → c = 0) : CurrentIdle cfg m' := by
  intro e
  cases Smp.step_move h with
  | @own c a x hact =>
    by_cases he : e = c
    · subst he
      rw [Smp.put_self]
      exact act_current (hm.core e) hact (hl e) fun ha hex => hb e ⟨congrArg (Prod.mk e) ha, hex⟩
    · rw [Smp.put_of_ne he]
      exact hl e
  | @register d p _ _ =>
    by_cases he : e = d
    · subst he
      rw [Smp.put_self]
      exact hl e
    · rw [Smp.put_of_ne he]
      exact hl e
  | @bringup d _ =>
    by_cases he : e = d
    · subst he
      rw [Smp.put_self]
      exact fun _ => rfl
    · rw [Smp.put_of_ne he]
      exact hl e

private theorem CurrentIdle.of_run (h : (smpSystem cfg).Run tr m)
    (hb : ∀ st ∈ tr, ∀ c, EndsEl0 st c → c = 0) : CurrentIdle cfg m := by
  induction h with
  | @nil s hinit =>
    intro c hk
    by_cases hc : c = 0
    · rw [hc]
      exact hinit.bootCurrent
    · rw [hinit.off c hc] at hk
      cases hk
  | @cons tr s s' l h hs ih =>
    have hl := ih fun st hst => hb st (List.mem_cons_of_mem _ hst)
    exact hl.step (SmpInv.of_reachable h.reachable) hs (hb _ List.mem_cons_self)

private theorem CurrentIdle.currentOk (hm : SmpInv cfg m) (hl : CurrentIdle cfg m) (c : CpuId) :
    (m c).CurrentOk := by
  have h := (hm.core c).place
  have hc := hl c
  unfold Core.CurrentOk
  split
  · rename_i k hpl
    intro hk
    simp only [PlaceInv, hpl] at h
    rw [hc (by rw [hpl]; rfl)]
    refine h.1.idleProcess ?_
    cases k with
    | main call => cases hk
    | mainExit => cases hk
    | _ => rfl
  · rename_i p b e hpl
    simp only [PlaceInv, hpl] at h
    rw [h.2.2]
    exact h.1.entryTask
  · rename_i p b hpl
    simp only [PlaceInv, hpl] at h
    rw [h.2.2]
    exact h.1.entryTask
  · trivial

/-! ### Whose states are written -/

private theorem SmpInv.not_owns_idle (hm : SmpInv cfg m) (hd : d ≠ c) : ¬ (m d).Owns (cfg.idle c) := by
  rintro (h | h)
  · exact hd (cfg.idle_inj ((hm.core d).idle _ h)).symm
  · exact ((hm.core d).queued _ h).1 c rfl

private theorem SmpInv.not_owns_queued (hm : SmpInv cfg m) (hd : d ≠ c) (hp : p ∈ (m c).processes) :
    ¬ (m d).Owns p := by
  rintro (h | h)
  · exact ((hm.core c).queued p hp).1 d ((hm.core d).idle p h)
  · exact hd (hm.disjoint d c p h hp)

private theorem next_writes {ok : Bool} {cnt : Nat} (hm : SmpInv cfg m) (hl : CurrentIdle cfg m) (hd : d ≠ c)
    (hpl : (m c).place = .code (.kernel k)) (hp : p ∈ m.stateWrites cfg (c, .next ok cnt)) :
    ¬ (m d).Owns p := by
  have hcur : (m c).current = cfg.idle c := hl c (by rw [hpl]; rfl)
  simp only [Smp.stateWrites, hpl] at hp
  cases k with
  | schdulePick =>
    dsimp only at hp
    split at hp
    · rename_i q n hq
      simp only [List.mem_cons, List.mem_filter, Option.mem_toList] at hp
      rcases hp with rfl | rfl | ⟨he, -⟩
      · rw [hcur]
        exact hm.not_owns_idle hd
      · exact hm.not_owns_queued hd (roundRobinPickNext_some hq).1
      · exact hm.not_owns_queued hd ((hm.core c).entry p he)
    · cases hp
  | runTail =>
    rw [List.mem_singleton.mp hp, hcur]
    exact hm.not_owns_idle hd
  | _ => cases hp

private theorem CurrentIdle.writes (hm : SmpInv cfg m) (hl : CurrentIdle cfg m) (h : m.step cfg l = some m')
    (hp : p ∈ m.stateWrites cfg l) (hd : d ≠ l.1) : ¬ (m d).Owns p := by
  cases Smp.step_move h with
  | @own c a x hact =>
    cases Core.act_move hact with
    | next hpl => exact next_writes hm hl hd hpl hp
    | irq _ _ => cases hp
    | svc _ => cases hp
    | abort _ => cases hp
    | exit _ => cases hp
    | @handle o b e hpl =>
      have hI := (hm.core c).place
      simp only [PlaceInv, hpl] at hI
      simp only [Smp.stateWrites, hpl] at hp
      split at hp
      · rw [List.mem_singleton.mp hp]
        cases o with
        | kernel k =>
          rw [hl c (by rw [hpl]; rfl)]
          exact hm.not_owns_idle hd
        | user q =>
          rw [hI.2.2]
          exact hm.not_owns_queued hd ((hm.core c).entry q hI.1.entryTask)
      · cases hp
  | @register e q hq _ =>
    rw [List.mem_singleton.mp hp]
    rintro (ho | ho)
    · exact (hq d).2 ((hm.core d).idle q ho)
    · exact (hq d).1 ho
  | @bringup e he =>
    rw [List.mem_singleton.mp hp]
    by_cases hde : d = e
    · subst hde
      have hoff := (hm.core d).place
      simp only [PlaceInv, he] at hoff
      rintro (ho | ho)
      · cases hoff.2.2.2.symm.trans ho
      · exact ((hm.core d).queued _ ho).1 d rfl
    · exact hm.not_owns_idle hde

/-- In every run, `current` is local to each CPU and no CPU writes the state of another one's process
iff no exception at EL0 ends on a CPU other than the boot CPU. -/
theorem current_cpu_local_iff (h : (smpSystem cfg).Run tr m) :
    (∀ st ∈ tr, CpuLocal cfg st) ↔ ∀ st ∈ tr, ∀ c, EndsEl0 st c → c = 0 := by
  constructor
  · intro hall st hst c hends
    obtain ⟨hreach, hstep⟩ := h.mem_step hst
    have hI := (SmpInv.of_reachable hreach).core c
    obtain ⟨hl, hex⟩ := hends
    have hcur := (hall st hst).current c
    have hmove : SmpMove cfg st.pre (c, .exit) st.post := hl ▸ Smp.step_move hstep
    have hu := hI.place
    generalize st.post = m' at hcur hmove
    cases hmove with
    | own hact =>
      cases Core.act_move hact with
      | @exit o b hpl =>
        rw [hpl] at hex
        simp only [PlaceInv, hpl] at hu
        cases o with
        | kernel k => cases hex
        | user p =>
          rw [Smp.put_self, exit_user hI hpl] at hcur
          have hidle : some (cfg.idle c) = some (cfg.idle 0) := hu.1.idleProcess.symm.trans (hcur rfl)
          exact cfg.idle_inj (Option.some.inj hidle)
  · intro hb st hst
    obtain ⟨later, earlier, rfl⟩ := List.append_of_mem hst
    obtain ⟨hrun, hstep⟩ := h.of_append
    have hb' : ∀ st' ∈ st :: earlier, ∀ c, EndsEl0 st' c → c = 0 :=
      fun st' hst' => hb st' (List.mem_append_right _ hst')
    have hpre := CurrentIdle.of_run hrun fun st' hst' => hb' st' (List.mem_cons_of_mem _ hst')
    have hm := SmpInv.of_reachable hrun.reachable
    have hpost := hpre.step hm hstep (hb' st List.mem_cons_self)
    exact ⟨fun c => hpost.currentOk (hm.step hstep) c, fun p hp d hd => hpre.writes hm hstep hp hd⟩

/-- CPU 1 is brought up, dispatches a process and its first exception is taken but not over. -/
theorem current_cpu_local_handler : ∃ tr m, (smpSystem smallConfig).Run tr m ∧
    (m 1).place = .exit (.user 4) false ∧ ∀ st ∈ tr, CpuLocal smallConfig st := by
  have run := bootSmp_run
    (List.replicate 8 (0, .next true 0) ++ [(0, .bringup 1), (0, .bringup 2), (0, .bringup 3)] ++
      List.replicate 3 (0, .next true 0) ++ (0, .register 1 4) :: List.replicate 8 (1, .next true 0) ++
      [(1, .svc .write), (1, .handle)]) rfl
  refine ⟨_, _, run, rfl, (current_cpu_local_iff run).mpr ?_⟩
  decide

/-- The same run up to the end of the exception: CPU 1 is back in `run_process`, and its `current` is the
idle process of CPU 0. -/
theorem secondary_current_boot_idle : ¬ ∀ cfg tr m, (smpSystem cfg).Run tr m → ∀ st ∈ tr, CpuLocal cfg st := by
  intro hall
  have run := bootSmp_run
    (List.replicate 8 (0, .next true 0) ++ [(0, .bringup 1), (0, .bringup 2), (0, .bringup 3)] ++
      List.replicate 3 (0, .next true 0) ++ (0, .register 1 4) :: List.replicate 8 (1, .next true 0) ++
      [(1, .svc .write), (1, .handle), (1, .exit)]) rfl
  have hcur : some (1 : Pid) = some 0 := (hall _ _ _ run _ List.mem_cons_self).current 1 rfl
  cases hcur

/-- In every run in which no exception at EL0 ends on another CPU than the boot CPU, a step of a CPU leaves the states of
the processes of the other CPUs alone, in the memory of every CPU. -/
theorem foreign_state_kept (h : (smpSystem cfg).Run tr m) (hb : ∀ st ∈ tr, ∀ c, EndsEl0 st c → c = 0)
    {st : Trans.Step Smp (CpuId × Act)} (hst : st ∈ tr) (hd : d ≠ st.label.1) (hp : (st.pre d).Owns p) (c : CpuId) :
    ((st.post c).procs p).state = ((st.pre c).procs p).state := by
  obtain ⟨later, earlier, rfl⟩ := List.append_of_mem hst
  obtain ⟨hrun, hstep⟩ := h.of_append
  have hm := SmpInv.of_reachable hrun.reachable
  have hpre : CurrentIdle cfg st.pre :=
    .of_run hrun fun st' hst' => hb st' (List.mem_append_right _ (List.mem_cons_of_mem _ hst'))
  exact state_of_not_mem_stateWrites hm hstep fun hw => hpre.writes hm hstep hw hd hp

/-- CPU 1 writes the state of the process that it dispatches, while CPU 0 has its idle process. -/
theorem foreign_state_kept_dispatch : ∃ m m' : Smp, ((m' 1).procs 4).state ≠ ((m 1).procs 4).state ∧
    ((m' 1).procs 0).state = ((m 1).procs 0).state := by
  have run := bootSmp_run
    (List.replicate 8 (0, .next true 0) ++ [(0, .bringup 1), (0, .bringup 2), (0, .bringup 3)] ++
      List.replicate 3 (0, .next true 0) ++ (0, .register 1 4) :: List.replicate 8 (1, .next true 0)) rfl
  exact ⟨_, _, by decide, foreign_state_kept run (by decide) List.mem_cons_self (d := 0) (by decide) (.inl rfl) 1⟩

end QuestOS
