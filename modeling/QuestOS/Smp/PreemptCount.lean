import QuestOS.Smp.Invariant

/-!
# The balance of `preempt_count`

`run_idle` raises the count at the head of its loop and `schdule` lowers it; a pass that goes through
`wfi` would raise it once more, but `__need_resched` is never cleared, so no pass does.  From the
first `preempt_disable` of a CPU on, the head of the loop is reached with interrupts masked only:
`schdule` masks them before it returns, and `process_resched` comes from an exception.
-/

namespace QuestOS

variable {cfg : SmpConfig} {c : CpuId} {x x' : Core} {m m' : Smp}
  {tr : List (Trans.Step Smp (CpuId × Act))}

def KernelPoint.inLoop : KernelPoint → Bool
  | .main _ | .mainExit | .onlineResched | .onlineEnable => false
  | _ => true

theorem KernelPoint.inLoop_of_counted {k : KernelPoint} (h : k.counted = true) : k.inLoop = true := by
  cases k with
  | main _ | mainExit | onlineResched | onlineEnable => cases h
  | _ => rfl

/-- What is known of a CPU once `run_idle` has done its first `preempt_disable`: interrupts are
unmasked only at statements between `preempt_disable` and `preempt_enable`. -/
def Core.Looping (x : Core) : Prop :=
  match x.place with
  | .off => False
  | .code (.kernel k) => k.inLoop = true ∧ (k.counted = false → x.masked = true)
  | .handler (.kernel k) _ _ | .exit (.kernel k) _ => k.counted = true ∨ k = .nullCall
  | .code (.user _) | .handler (.user _) _ _ | .exit (.user _) _ => True
  | .wild => x.preemptCount = 0

theorem Core.looping_goto {k : KernelPoint} (hk : k.inLoop = true)
    (hm : k.counted = false → x.masked = true) : (x.goto k).Looping := ⟨hk, hm⟩

theorem Core.Looping.next {k : KernelPoint} {ok : Bool} {cnt : Nat} (h : x.Looping)
    (hI : CoreInv cfg c x) (hpl : x.place = .code (.kernel k)) :
    (x.next (cfg.cpu c) ok cnt k).Looping := by
  obtain ⟨hK, hoff⟩ := hI.kernel hpl
  simp only [Core.Looping, hpl] at h
  obtain ⟨hloop, hmask⟩ := h
  cases k with
  | main call => cases hloop
  | mainExit => cases hloop
  | onlineResched => cases hloop
  | onlineEnable => cases hloop
  | idleTop => exact looping_goto rfl fun _ => hmask rfl
  | idleStore n => exact looping_goto rfl (by simp [KernelPoint.counted])
  | idleUnmask => exact looping_goto rfl (by simp [KernelPoint.counted])
  | idleCheck =>
    have hflag : needResched x.toCpu = true := by
      rw [needResched, hK.flag rfl]
      rfl
    rw [Core.next, if_pos hflag]
    exact looping_goto rfl (by simp [KernelPoint.counted])
  | idleWfi => exact absurd rfl hK.noWfi
  | schduleMask => exact looping_goto rfl fun _ => rfl
  | schdulePick =>
    change (x.schdulePick (cfg.cpu c) cnt).Looping
    rcases schdulePick_cases hI (hK.flag rfl) cnt with hs | ⟨p, n, f, -, -, -, -, ⟨-, hs⟩ | ⟨-, hs⟩⟩
    · rw [hs]
      exact looping_goto rfl fun _ => hoff rfl
    · rw [hs]
      exact looping_goto rfl fun _ => hoff rfl
    · rw [hs]
      trivial
  | nullCall => exact .inr rfl
  | threadEntry => exact looping_goto rfl fun _ => hmask rfl
  | runTail => exact looping_goto rfl fun _ => hmask rfl

theorem Core.Looping.act {a : Act} (h : x.Looping) (hI : CoreInv cfg c x)
    (hact : x.act (cfg.cpu c) a = some x') : x'.Looping := by
  cases Core.act_move hact with
  | next hpl => exact h.next hI hpl
  | @irq i o hpl hm =>
    cases o with
    | user p => trivial
    | kernel k =>
      simp only [Core.Looping, hpl] at h
      refine .inl ?_
      cases hk : k.counted with
      | true => rfl
      | false => cases (h.2 hk).symm.trans hm
  | svc hpl => trivial
  | abort hpl => trivial
  | @handle o b e hpl =>
    simp only [Core.Looping, hpl] at h ⊢
    cases o with
    | user p => trivial
    | kernel k => exact h
  | @exit o b hpl =>
    have hplace := hI.place
    simp only [PlaceInv, hpl] at hplace
    cases o with
    | user p =>
      rw [exit_user hI hpl]
      exact ⟨rfl, fun _ => hplace.2.1⟩
    | kernel k =>
      simp only [Core.Looping, hpl] at h
      rw [exit_kernel hI hpl]
      rcases h with hk | rfl
      · rw [if_pos hk]
        exact ⟨KernelPoint.inLoop_of_counted hk, fun hk' => by cases hk.symm.trans hk'⟩
      · exact hplace.1.count

theorem Core.Looping.step {l : CpuId × Act} (hm : SmpInv cfg m) (h : (m c).Looping)
    (hstep : m.step cfg l = some m') : (m' c).Looping := by
  cases Smp.step_move hstep with
  | @own d a x hact =>
    by_cases hcd : c = d
    · subst hcd
      rw [Smp.put_self]
      exact h.act (hm.core c) hact
    · rw [Smp.put_of_ne hcd]
      exact h
  | @register d p _ _ =>
    by_cases hcd : c = d
    · subst hcd
      rw [Smp.put_self]
      exact h
    · rw [Smp.put_of_ne hcd]
      exact h
  | @bringup d hoff =>
    have hcd : c ≠ d := by
      rintro rfl
      simp [Core.Looping, hoff] at h
    rw [Smp.put_of_ne hcd]
    exact h

structure CountBalanced (x : Core) : Prop where
  range : x.preemptCount = 0 ∨ x.preemptCount = 1
  unmasked : ∀ k, x.place = .code (.kernel k) → x.masked = false → x.preemptCount = 1
  user : ∀ p, x.place = .code (.user p) → x.preemptCount = 0

theorem CoreInv.countBalanced (hI : CoreInv cfg c x) (h : x.Looping) : CountBalanced x := by
  have hpl := hI.place
  have hcode : ∀ o, CodeInv cfg c x o → x.preemptCount = 0 ∨ x.preemptCount = 1 := by
    intro o ho
    cases o with
    | user p => exact .inl ho.count
    | kernel k =>
      rw [ho.count]
      cases k.counted
      · exact .inl rfl
      · exact .inr rfl
  refine ⟨?_, fun k hk hm => ?_, fun p hp => ?_⟩
  · cases hplace : x.place with
    | off => simp [Core.Looping, hplace] at h
    | wild =>
      simp only [Core.Looping, hplace] at h
      exact .inl h
    | code o =>
      simp only [PlaceInv, hplace] at hpl
      exact hcode o hpl.1
    | handler o b e =>
      simp only [PlaceInv, hplace] at hpl
      exact hcode o hpl.1
    | exit o b =>
      simp only [PlaceInv, hplace] at hpl
      exact hcode o hpl.1
  · simp only [Core.Looping, hk] at h
    have hcounted : k.counted = true := by
      cases hc : k.counted with
      | true => rfl
      | false => cases (h.2 hc).symm.trans hm
    rw [(hI.kernel hk).1.count, if_pos hcounted]
  · simp only [PlaceInv, hp] at hpl
    exact hpl.1.count

/-- Where the exit of an exception goes: from the idle loop back to the interrupted statement, from
EL0 with `__need_resched` set to `process_resched`. -/
structure ExitByCount (cfg : CpuConfig) (x x' : Core) : Prop where
  idle : ∀ k b, x.place = .exit (.kernel k) b →
    x' = { x with spEl1 := x.spEl1 + excFrame, masked := b, place := .code (.kernel k) }
  user : ∀ p b, x.place = .exit (.user p) b → needResched x.toCpu = true →
    x' = x.processResched cfg

theorem CoreInv.exitByCount {o : Code} {b : Bool} (hI : CoreInv cfg c x) (h : x.Looping)
    (hnamed : ¬ x.IdleNamed) (hpl : x.place = .exit o b) :
    ExitByCount (cfg.cpu c) x (x.exit (cfg.cpu c) o b) := by
  constructor
  · intro k b' hk
    cases hpl.symm.trans hk
    have hplace := hI.place
    simp only [PlaceInv, hpl] at hplace
    simp only [Core.Looping, hpl] at h
    rcases h with hk | hnull
    · rw [exit_kernel hI hpl, if_pos hk]
    · exact absurd (hplace.1.named.mpr hnull) hnamed
  · intro p b' hp _
    cases hpl.symm.trans hp
    exact if_pos ((checkResched_iff hI hpl).mpr (by simp))

/-- In every run, from the first `preempt_disable` of a CPU on: the count was 1 with
`__need_resched` set, it is balanced in every later state, and each exception exit goes by it, as
long as no process named idle was dispatched. -/
theorem preemptCount_balanced {later earlier : List (Trans.Step Smp (CpuId × Act))}
    {first : Trans.Step Smp (CpuId × Act)} {ok : Bool} {cnt : Nat} {n : Int}
    (h : (smpSystem cfg).Run (later ++ first :: earlier) m) (hl : first.label = (c, .next ok cnt))
    (hfirst : (first.pre c).place = .code (.kernel (.idleStore n))) :
    ((first.post c).preemptCount = 1 ∧ needResched (first.post c).toCpu = true) ∧
    CountBalanced (m c) ∧ (∀ st ∈ later, CountBalanced (st.pre c)) ∧
    ∀ st ∈ later, st.label = (c, .exit) → ¬ (st.pre c).IdleNamed →
      ExitByCount (cfg.cpu c) (st.pre c) (st.post c) := by
  obtain ⟨hrun, hstep⟩ := h.of_append
  rw [hl] at hstep
  have hIpre := (SmpInv.of_reachable hrun.reachable).core c
  obtain ⟨hK, -⟩ := hIpre.kernel hfirst
  have hpost : first.post c = ({ first.pre c with preemptCount := n + 1, phase := .idleWindow } :
      Core).goto .idleUnmask := by
    have hmove := Smp.step_move hstep
    generalize first.post = m₁ at hmove ⊢
    cases hmove with
    | own hact =>
      rw [Smp.put_self]
      cases Core.act_move hact with
      | next hk =>
        cases hfirst.symm.trans hk
        rfl
  have hcount : n = 0 := by
    rw [hK.store n rfl, hK.count]
    rfl
  have hloop : (first.post c).Looping := by
    rw [hpost]
    exact Core.looping_goto rfl (by simp [KernelPoint.counted])
  have hkeep : ∀ (s : Smp) (e : CpuId × Act) (s' : Smp), (smpSystem cfg).Reachable s →
      (s c).Looping → (smpSystem cfg).step s e s' → (s' c).Looping :=
    fun s e s' hs hP hst => hP.step (SmpInv.of_reachable hs) hst
  -- the steps after the first one start in states that the loop has reached
  have hlater : ∀ st ∈ later, CoreInv cfg c (st.pre c) ∧ (st.pre c).Looping ∧
      (smpSystem cfg).step st.pre st.label st.post := by
    intro st hst
    obtain ⟨a, b, rfl⟩ := List.append_of_mem hst
    have hrun' : (smpSystem cfg).Run (a ++ st :: (b ++ first :: earlier)) m := by simpa using h
    obtain ⟨hrun₁, hstep₁⟩ := hrun'.of_append
    exact ⟨(SmpInv.of_reachable hrun₁.reachable).core c,
      hrun₁.stable (P := fun s => (s c).Looping) hkeep hloop, hstep₁⟩
  refine ⟨⟨?_, ?_⟩, ?_, fun st hst => ?_, fun st hst hlab hnamed => ?_⟩
  · rw [hpost, hcount]
    rfl
  · rw [hpost]
    change (first.pre c).needReschedFlag != 0
    rw [hK.flag rfl]
    rfl
  · exact ((SmpInv.of_reachable h.reachable).core c).countBalanced
      (h.stable (P := fun s => (s c).Looping) hkeep hloop)
  · obtain ⟨hI, hL, -⟩ := hlater st hst
    exact hI.countBalanced hL
  · obtain ⟨hI, hL, hs⟩ := hlater st hst
    rw [hlab] at hs
    have hmove := Smp.step_move hs
    generalize st.post = m₁ at hmove ⊢
    cases hmove with
    | own hact =>
      rw [Smp.put_self]
      cases Core.act_move hact with
      | exit hpl => exact hI.exitByCount hL hnamed hpl

/-- CPU 1 is brought up and takes an interrupt in its idle loop after its first
`preempt_disable`. -/
theorem preemptCount_balanced_idle : ∃ tr m, (smpSystem smallConfig).Run tr m ∧
    (∃ st ∈ tr, st.label = (1, .exit)) ∧ CountBalanced (m 1) := by
  have run := bootSmp_run
    (List.replicate 8 (0, .next true 0) ++ (0, .bringup 1) :: List.replicate 5 (1, .next true 0) ++
      [(1, .irq .other), (1, .handle), (1, .exit)]) rfl
  refine ⟨_, _, run, ⟨_, List.mem_cons_self, rfl⟩, ?_⟩
  exact (preemptCount_balanced (show (smpSystem smallConfig).Run ([_, _, _, _] ++ _ :: _) _ from run)
    rfl rfl).2.1

end QuestOS
