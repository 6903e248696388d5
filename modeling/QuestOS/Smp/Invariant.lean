import QuestOS.Smp.Model

/-!
# The invariant of the CPUs

What is known of a CPU depends on the code it executes or has interrupted: `KernelInv` for a
statement of EL1 code, `UserInv` for a process.  Both speak only of the CPU's own variables and of
the processes in its queue, and no CPU writes the names or the `sp` fields of another one's
processes, so a step of one CPU is of no concern to the others (`PlaceInv.congr`).
-/

namespace QuestOS

variable {cfg : SmpConfig} {c d : CpuId} {x x' : Core} {k : KernelPoint} {p : Pid} {m m' : Smp}

/-! ### What is known at a statement -/

def KernelPoint.flagged : KernelPoint → Bool
  | .main .cpuInit | .onlineResched => false
  | _ => true

def KernelPoint.counted : KernelPoint → Bool
  | .idleUnmask | .idleCheck | .idleWfi | .schduleMask | .schdulePick => true
  | _ => false

def KernelPoint.irqsOff : KernelPoint → Bool
  | .main .cpuInit | .main .gicV3Init | .main .archTimerInit | .main .localInterruptEnable => true
  | .onlineResched | .onlineEnable | .schdulePick | .nullCall | .threadEntry | .runTail => true
  | _ => false

def KernelPoint.hasIdle : KernelPoint → Bool
  | .main .psciInit | .main .smpInit | .main .userProcessInit | .main .uartRecv => true
  | .main .userProcessesRegister | .main .localSchedTimerStart => true
  | .main _ | .mainExit => false
  | _ => true

def Core.IdleNamed (x : Core) : Prop := ∃ t, x.entryTask = some t ∧ isIdleName (x.procs t).name = true

structure KernelInv (cfg : SmpConfig) (c : CpuId) (x : Core) (k : KernelPoint) : Prop where
  boot : ∀ call, k = .main call → c = 0
  noWfi : k ≠ .idleWfi
  flag : k.flagged = true → x.needReschedFlag = 1
  count : x.preemptCount = if k.counted then 1 else 0
  store : ∀ n, k = .idleStore n → n = x.preemptCount
  saved : x.saved = none
  current : x.current = cfg.idle c ∨ x.current = cfg.idle 0
  idleProcess : k.hasIdle = true → x.idleProcess = some (cfg.idle c)
  named : x.IdleNamed ↔ k = .nullCall

structure UserInv (cfg : SmpConfig) (c : CpuId) (x : Core) (p : Pid) : Prop where
  flag : x.needReschedFlag = 1
  count : x.preemptCount = 0
  entryTask : x.entryTask = some p
  idleProcess : x.idleProcess = some (cfg.idle c)
  saved : x.saved = some (p, x.procSp p)
  named : ¬ x.IdleNamed

def CodeInv (cfg : SmpConfig) (c : CpuId) (x : Core) : Code → Prop
  | .kernel k => KernelInv cfg c x k
  | .user p => UserInv cfg c x p

/-- What the handler of an exception knows: interrupts were unmasked, unless it was the call of a
NULL pointer, and at EL0 `current` has become the entry task. -/
def TakenInv (x : Core) : Code → Prop
  | .kernel k => x.masked = true ∧ (k.irqsOff = false ∨ k = .nullCall)
  | .user p => x.masked = true ∧ x.current = p

def PlaceInv (cfg : SmpConfig) (c : CpuId) (x : Core) : Prop :=
  match x.place with
  | .off => x.preemptCount = 0 ∧ x.entryTask = none ∧ x.saved = none ∧ x.idleProcess = none
  | .code o => CodeInv cfg c x o ∧ ∀ k, o = .kernel k → k.irqsOff = true → x.masked = true
  | .handler o _ _ | .exit o _ => CodeInv cfg c x o ∧ TakenInv x o
  | .wild => True

structure CoreInv (cfg : SmpConfig) (c : CpuId) (x : Core) : Prop where
  queued : ∀ p ∈ x.processes, (∀ d, p ≠ cfg.idle d) ∧ (x.procs p).kthread = none
  next : x.nextProcess = 0 ∨ x.nextProcess < x.processes.length
  entry : ∀ t, x.entryTask = some t → t ∈ x.processes
  idle : ∀ q, x.idleProcess = some q → q = cfg.idle c
  place : PlaceInv cfg c x

/-! ### What other CPUs can change -/

def SameFields (q q' : ProcessStruct) : Prop := q'.name = q.name ∧ q'.kthread = q.kthread

/-- Writes that keep the names, kernel threads and `sp` fields of the CPU's own processes, and
processes added to its queue. -/
private theorem CoreInv.write {procs : Pid → ProcessStruct} {procSp : Pid → BitVec 64} {queue : List Pid}
    (hI : CoreInv cfg c x) (hp : ∀ p ∈ x.processes, SameFields (x.procs p) (procs p))
    (hs : ∀ p ∈ x.processes, procSp p = x.procSp p) (hlen : x.processes.length ≤ queue.length)
    (hkept : ∀ p ∈ x.processes, p ∈ queue)
    (hnew : ∀ p ∈ queue, p ∈ x.processes ∨ (∀ d, p ≠ cfg.idle d) ∧ (procs p).kthread = none) :
    CoreInv cfg c { x with procs := procs, procSp := procSp, processes := queue } := by
  obtain ⟨hqueued, hnext, hentry, hidle, hpl⟩ := hI
  have hnamed : Core.IdleNamed { x with procs := procs, procSp := procSp, processes := queue } ↔
      x.IdleNamed := by
    refine exists_congr fun t => and_congr_right fun ht => ?_
    rw [(hp t (hentry t ht)).1]
  refine ⟨fun q hq => ?_, ?_, fun t ht => hkept t (hentry t ht), hidle, ?_⟩
  · rcases hnew q hq with hq | hq
    · exact ⟨(hqueued q hq).1, (hp q hq).2.trans (hqueued q hq).2⟩
    · exact hq
  · rcases hnext with h | h
    · exact .inl h
    · exact .inr (Nat.lt_of_lt_of_le h hlen)
  have hcode : ∀ o, CodeInv cfg c x o →
      CodeInv cfg c { x with procs := procs, procSp := procSp, processes := queue } o := by
    intro o ho
    cases o with
    | kernel k =>
      exact ⟨ho.boot, ho.noWfi, ho.flag, ho.count, ho.store, ho.saved, ho.current, ho.idleProcess,
        hnamed.trans ho.named⟩
    | user q =>
      refine ⟨ho.flag, ho.count, ho.entryTask, ho.idleProcess, ?_, fun hn => ho.named (hnamed.mp hn)⟩
      show x.saved = some (q, procSp q)
      rw [hs q (hentry q ho.entryTask)]
      exact ho.saved
  have htaken : ∀ o, TakenInv x o →
      TakenInv { x with procs := procs, procSp := procSp, processes := queue } o := by
    intro o ho
    cases o <;> exact ho
  unfold PlaceInv at hpl ⊢
  dsimp only
  split at hpl
  · exact hpl
  · exact ⟨hcode _ hpl.1, hpl.2⟩
  · exact ⟨hcode _ hpl.1, htaken _ hpl.2⟩
  · exact ⟨hcode _ hpl.1, htaken _ hpl.2⟩
  · trivial

theorem CoreInv.congr {procs : Pid → ProcessStruct} {procSp : Pid → BitVec 64} (hI : CoreInv cfg c x)
    (hp : ∀ p ∈ x.processes, SameFields (x.procs p) (procs p))
    (hs : ∀ p ∈ x.processes, procSp p = x.procSp p) :
    CoreInv cfg c { x with procs := procs, procSp := procSp } :=
  hI.write hp hs le_rfl (fun _ h => h) fun _ h => .inl h

/-! ### Statements of EL1 code -/

private theorem setState_sameFields (y : Cpu) (q : Pid) (st : ProcessState) (p : Pid) :
    SameFields (y.procs p) ((y.setState q st).procs p) := by
  by_cases h : p = q
  · subst h
    simp [SameFields]
  · simp [SameFields, h]

theorem CoreInv.kernel (hI : CoreInv cfg c x) (hpl : x.place = .code (.kernel k)) :
    KernelInv cfg c x k ∧ (k.irqsOff = true → x.masked = true) := by
  have h := hI.place
  simp only [PlaceInv, hpl] at h
  exact ⟨h.1, h.2 k rfl⟩

private theorem CoreInv.goto (hI : CoreInv cfg c x) (x' : Core) (hk : KernelInv cfg c x' k)
    (hm : k.irqsOff = true → x'.masked = true)
    (hi : ∀ q, x'.idleProcess = some q → q = cfg.idle c)
    (hq : x'.processes = x.processes ∧ x'.nextProcess = x.nextProcess ∧ x'.entryTask = x.entryTask ∧
      ∀ p, SameFields (x.procs p) (x'.procs p)) : CoreInv cfg c (x'.goto k) := by
  obtain ⟨h1, h2, h3, h4⟩ := hq
  refine ⟨fun q hq => ?_, ?_, fun t ht => ?_, hi, ?_⟩
  · have := hI.queued q (h1 ▸ hq)
    exact ⟨this.1, (h4 q).2.trans this.2⟩
  · show x'.nextProcess = 0 ∨ x'.nextProcess < x'.processes.length
    rw [h1, h2]
    exact hI.next
  · show t ∈ x'.processes
    rw [h1]
    exact hI.entry t (h3 ▸ ht)
  · refine ⟨⟨hk.boot, hk.noWfi, hk.flag, hk.count, hk.store, hk.saved, hk.current, hk.idleProcess, hk.named⟩, ?_⟩
    rintro _ ⟨rfl⟩
    exact hm

private theorem KernelInv.move {k' : KernelPoint} (h : KernelInv cfg c x k) (hn : k ≠ .nullCall)
    (hn' : k' ≠ .nullCall) (hw : k' ≠ .idleWfi) (hb : ∀ call, k' ≠ .main call)
    (hf : k'.flagged = true → k.flagged = true) (hc : k'.counted = k.counted)
    (hs : ∀ n, k' = .idleStore n → n = x.preemptCount)
    (hi : k'.hasIdle = true → k.hasIdle = true) : KernelInv cfg c x k' := by
  refine ⟨fun call e => absurd e (hb call), hw, fun e => h.flag (hf e), hc ▸ h.count, hs, h.saved,
    h.current, fun e => h.idleProcess (hi e), ?_⟩
  rw [h.named]
  simp [hn, hn']

variable {b : Bool}

private theorem KernelInv.setMasked (h : KernelInv cfg c x k) :
    KernelInv cfg c { x with masked := b } k :=
  ⟨h.boot, h.noWfi, h.flag, h.count, h.store, h.saved, h.current, h.idleProcess, h.named⟩

private theorem same_queue (x : Core) : x.processes = x.processes ∧ x.nextProcess = x.nextProcess ∧
    x.entryTask = x.entryTask ∧ ∀ p, SameFields (x.procs p) (x.procs p) :=
  ⟨rfl, rfl, rfl, fun _ => ⟨rfl, rfl⟩⟩

private theorem KernelInv.mainRun {call : MainCall} {ok : Bool} (h : KernelInv cfg c x (.main call)) :
    KernelInv cfg c (call.run (cfg.cpu c) x) (if call.checked && !ok then .mainExit else call.next) := by
  have hc : c = 0 := h.boot call rfl
  have hcount : (call.run (cfg.cpu c) x).preemptCount = 0 := by
    have := h.count
    cases call <;> exact this
  have hflag : (call.run (cfg.cpu c) x).needReschedFlag = 1 := by
    have := h.flag
    cases call
    case cpuInit => rfl
    all_goals exact this rfl
  have hsaved : (call.run (cfg.cpu c) x).saved = none := by
    have := h.saved
    cases call <;> exact this
  have hcurrent : (call.run (cfg.cpu c) x).current = cfg.idle c ∨
      (call.run (cfg.cpu c) x).current = cfg.idle 0 := by
    have := h.current
    cases call <;> exact this
  have hidle : call.next.hasIdle = true → (call.run (cfg.cpu c) x).idleProcess = some (cfg.idle c) := by
    have := h.idleProcess
    intro hi
    cases call
    case kthreadInit =>
      rw [hc]
      rfl
    case cpuInit | gicV3Init | archTimerInit | localInterruptEnable | roundRobinSchedRegister | schedInit =>
      cases hi
    all_goals exact this rfl
  have hnamed : ¬ (call.run (cfg.cpu c) x).IdleNamed := by
    have : ¬ x.IdleNamed := fun hn => by cases h.named.mp hn
    cases call <;> exact this
  split
  · exact ⟨by simp, by simp, fun _ => hflag, hcount, by simp, hsaved, hcurrent, by simp [KernelPoint.hasIdle],
      by simp [hnamed]⟩
  · refine ⟨fun _ _ => hc, by cases call <;> simp [MainCall.next], fun _ => hflag, ?_, ?_, hsaved, hcurrent, hidle, ?_⟩
    · rw [hcount]
      cases call <;> rfl
    · cases call <;> simp [MainCall.next]
    · cases call <;> simp [MainCall.next, hnamed]

private theorem CoreInv.main {call : MainCall} {ok : Bool} {cnt : Nat} (hI : CoreInv cfg c x)
    (hpl : x.place = .code (.kernel (.main call))) :
    CoreInv cfg c (x.next (cfg.cpu c) ok cnt (.main call)) := by
  obtain ⟨h, hm⟩ := hI.kernel hpl
  refine hI.goto _ h.mainRun ?_ ?_ ?_
  · intro hoff
    split at hoff
    · cases hoff
    · cases call
      case cpuInit | gicV3Init | archTimerInit => exact hm rfl
      all_goals cases hoff
  · intro q hq
    cases call
    case kthreadInit =>
      cases hq
      rw [h.boot _ rfl]
      rfl
    all_goals exact hI.idle q hq
  · cases call <;> exact same_queue x

theorem schdulePick_cases (hI : CoreInv cfg c x) (hflag : x.needReschedFlag = 1) (cnt : Nat) :
    x.schdulePick (cfg.cpu c) cnt =
        ({ x with preemptCount := x.preemptCount - 1, phase := .idleTop } : Core).goto .idleTop ∨
      ∃ p n f, roundRobinPickNext x.toCpu = some (some p, n) ∧ p ∈ x.processes ∧ n < x.processes.length ∧
        (∀ q, SameFields (x.procs q) (f q)) ∧
        (isIdleName (x.procs p).name = true ∧ x.schdulePick (cfg.cpu c) cnt =
            ({ x with preemptCount := x.preemptCount - 1, nextProcess := n, procs := f, entryTask := some p,
                      phase := .fault } : Core).goto .nullCall ∨
          isIdleName (x.procs p).name = false ∧ x.schdulePick (cfg.cpu c) cnt =
            ({ x with preemptCount := x.preemptCount - 1, nextProcess := n, procs := f, entryTask := some p,
                      phase := .user p } : Core).processCpuContextSwitch p) := by
  unfold Core.schdulePick
  rcases schdule_cases hflag hI.next (cfg.cpu c) cnt with hs | ⟨p, n, hp, hs⟩
  · left
    rw [hs]
    rfl
  · right
    obtain ⟨hmem, -, hlt⟩ := roundRobinPickNext_some hp
    obtain ⟨f, ph, hr, hf, hph⟩ := runProcess_fields (cfg.cpu c) cnt p { preemptEnable x.toCpu with nextProcess := n }
    have hk : (f p).kthread = none := (hf p).2.trans (hI.queued p hmem).2
    rw [dispatchPhase_user hk, (hf p).1] at hph
    refine ⟨p, n, f, hp, hmem, hlt, hf, ?_⟩
    rw [hs, hr, hph]
    cases hname : isIdleName (x.procs p).name with
    | true =>
      left
      refine ⟨rfl, ?_⟩
      simp only [preemptEnable, hname, if_true]
    | false =>
      right
      refine ⟨rfl, ?_⟩
      simp only [preemptEnable, hname, Bool.false_eq_true, if_false]

private theorem CoreInv.schdulePick (hI : CoreInv cfg c x) (hpl : x.place = .code (.kernel .schdulePick))
    (cnt : Nat) : CoreInv cfg c (x.schdulePick (cfg.cpu c) cnt) := by
  obtain ⟨h, hm⟩ := hI.kernel hpl
  have hcount : x.preemptCount - 1 = 0 := by
    rw [h.count]
    rfl
  have hflag := h.flag rfl
  have hfresh : ¬ x.IdleNamed := fun hn => by cases h.named.mp hn
  rcases schdulePick_cases hI hflag cnt with hs | ⟨p, n, f, -, hp, hn, hf, ⟨hname, hs⟩ | ⟨hname, hs⟩⟩
  · rw [hs]
    exact hI.goto _ ⟨by simp, by simp, fun _ => hflag, hcount, by simp, h.saved, h.current, fun _ => h.idleProcess rfl,
      iff_of_false hfresh (by simp)⟩ (fun e => by cases e) hI.idle (same_queue x)
  · rw [hs]
    refine ⟨fun q hq => ⟨(hI.queued q hq).1, (hf q).2.trans (hI.queued q hq).2⟩, .inr hn, ?_, hI.idle, ⟨?_, ?_⟩⟩
    · rintro t ⟨rfl⟩
      exact hp
    · refine ⟨by simp, by simp, fun _ => hflag, hcount, by simp, h.saved, h.current, fun _ => h.idleProcess rfl, ?_⟩
      exact iff_of_true ⟨p, rfl, (congrArg isIdleName (hf p).1).trans hname⟩ rfl
    · rintro _ ⟨rfl⟩ _
      exact hm rfl
  · rw [hs]
    refine ⟨fun q hq => ⟨(hI.queued q hq).1, (hf q).2.trans (hI.queued q hq).2⟩, .inr hn, ?_, hI.idle, ⟨?_, by simp⟩⟩
    · rintro t ⟨rfl⟩
      exact hp
    · refine ⟨hflag, hcount, rfl, h.idleProcess rfl, ?_, ?_⟩
      · simp [Core.processCpuContextSwitch]
      · rintro ⟨t, ⟨rfl⟩, ht⟩
        have hfp : isIdleName (f p).name = false := (congrArg isIdleName (hf p).1).trans hname
        exact Bool.false_ne_true (hfp.symm.trans ht)

private theorem CoreInv.take {e : Exc} {o : Code} (hI : CoreInv cfg c x) (hpl : x.place = .code o)
    (hirq : ∀ k, o = .kernel k → k.irqsOff = false ∨ k = .nullCall) : CoreInv cfg c (x.take e o) := by
  have h := hI.place
  simp only [PlaceInv, hpl] at h
  replace h := h.1
  cases o with
  | kernel k =>
    refine ⟨hI.queued, hI.next, hI.entry, hI.idle, ⟨?_, rfl, hirq k rfl⟩⟩
    exact ⟨h.boot, h.noWfi, h.flag, h.count, h.store, h.saved, h.current, h.idleProcess, h.named⟩
  | user p =>
    refine ⟨hI.queued, hI.next, hI.entry, hI.idle, ⟨?_, rfl, ?_⟩⟩
    · exact ⟨h.flag, h.count, h.entryTask, h.idleProcess, h.saved, h.named⟩
    · show x.entryTask.getD 0 = p
      rw [h.entryTask]
      rfl

theorem CoreInv.next_point {ok : Bool} {cnt : Nat} (hI : CoreInv cfg c x)
    (hpl : x.place = .code (.kernel k)) : CoreInv cfg c (x.next (cfg.cpu c) ok cnt k) := by
  obtain ⟨h, hm⟩ := hI.kernel hpl
  cases k with
  | main call => exact hI.main hpl
  | mainExit => exact hI
  | onlineResched =>
    refine hI.goto _ ⟨by simp, by simp, fun _ => rfl, h.count, by simp, h.saved, h.current, fun _ => h.idleProcess rfl, ?_⟩
      (fun _ => hm rfl) hI.idle (same_queue x)
    exact iff_of_false (fun hn => by cases h.named.mp hn) (by simp)
  | onlineEnable =>
    exact hI.goto _ (h.setMasked.move (by simp) (by simp) (by simp) (by simp) (fun _ => rfl) rfl (by simp) fun _ => rfl)
      (fun e => by cases e) hI.idle (same_queue x)
  | idleTop =>
    exact hI.goto x (h.move (by simp) (by simp) (by simp) (by simp) (fun _ => rfl) rfl (by simp) fun _ => rfl)
      (fun e => by cases e) hI.idle (same_queue x)
  | idleStore n =>
    have hn : n + 1 = 1 := by
      rw [h.store n rfl, h.count]
      rfl
    refine hI.goto _ ⟨by simp, by simp, fun _ => h.flag rfl, hn, by simp, h.saved, h.current, fun _ => h.idleProcess rfl, ?_⟩
      (fun e => by cases e) hI.idle (same_queue x)
    exact iff_of_false (fun hn => by cases h.named.mp hn) (by simp)
  | idleUnmask =>
    exact hI.goto _ (h.setMasked.move (by simp) (by simp) (by simp) (by simp) (fun _ => rfl) rfl (by simp) fun _ => rfl)
      (fun e => by cases e) hI.idle (same_queue x)
  | idleCheck =>
    have hneed : needResched x.toCpu = true := by
      rw [needResched, h.flag rfl]
      rfl
    simp only [Core.next, hneed, if_true]
    exact hI.goto x (h.move (by simp) (by simp) (by simp) (by simp) (fun _ => rfl) rfl (by simp) fun _ => rfl)
      (fun e => by cases e) hI.idle (same_queue x)
  | idleWfi => exact absurd rfl h.noWfi
  | schduleMask =>
    exact hI.goto _ (h.setMasked.move (by simp) (by simp) (by simp) (by simp) (fun _ => rfl) rfl (by simp) fun _ => rfl)
      (fun _ => rfl) hI.idle (same_queue x)
  | schdulePick => exact hI.schdulePick hpl cnt
  | nullCall => exact hI.take hpl (by rintro _ ⟨rfl⟩; exact .inr rfl)
  | threadEntry =>
    exact hI.goto x (h.move (by simp) (by simp) (by simp) (by simp) (fun _ => rfl) rfl (by simp) fun _ => rfl)
      (fun _ => hm rfl) hI.idle (same_queue x)
  | runTail =>
    have hfields : ∀ q, SameFields (x.procs q) ((x.toCpu.setState x.current .running).procs q) :=
      setState_sameFields x.toCpu x.current .running
    refine hI.goto _ ⟨by simp, by simp, fun _ => h.flag rfl, h.count, by simp, h.saved, h.current,
      fun _ => h.idleProcess rfl, ?_⟩ (fun e => by cases e) hI.idle ⟨rfl, rfl, rfl, hfields⟩
    refine iff_of_false (fun hn => ?_) (by simp)
    obtain ⟨t, ht, hname⟩ := hn
    have hold : x.IdleNamed := ⟨t, ht, (congrArg isIdleName (hfields t).1).symm.trans hname⟩
    cases h.named.mp hold

/-! ### Exceptions -/

/-- With the flag set a handler writes nothing, except that the exit system call makes `current` a
zombie. -/
theorem Exc.handle_cases {y : Cpu} (hf : y.needReschedFlag = 1) (cfg : CpuConfig) (e : Exc) :
    e.handle cfg y = y ∨ e = .svc .exit ∧ e.handle cfg y = y.setState y.current .zombie := by
  cases e with
  | irq i => exact .inl (handleArchIrq_of_flag hf)
  | sync => exact .inl rfl
  | svc call =>
    have h : (Exc.svc call).handle cfg y = call.run y := el0t64HandleSvc_of_flag hf
    rw [h]
    cases call with
    | exit => exact .inr ⟨rfl, rfl⟩
    | write | ni => exact .inl rfl

/-- Statements at which an interrupt can be taken come after `set_resched(true)`. -/
private theorem flagged_of_taken (h : k.irqsOff = false ∨ k = .nullCall) : k.flagged = true := by
  rcases h with h | rfl
  · cases k with
    | main call =>
      cases call
      case cpuInit => cases h
      all_goals rfl
    | onlineResched => cases h
    | _ => rfl
  · rfl

theorem TakenInv.flag {o : Code} (h : CodeInv cfg c x o) (ht : TakenInv x o) : x.needReschedFlag = 1 := by
  cases o with
  | kernel k => exact h.flag (flagged_of_taken ht.2)
  | user p => exact h.flag

private theorem CoreInv.handle {o : Code} {e : Exc} (hI : CoreInv cfg c x)
    (hpl : x.place = .handler o b e) :
    CoreInv cfg c { x with toCpu := e.handle (cfg.cpu c) x.toCpu, place := .exit o b } := by
  have h := hI.place
  simp only [PlaceInv, hpl] at h
  have hexit : CoreInv cfg c { x with place := .exit o b } := by
    refine ⟨hI.queued, hI.next, hI.entry, hI.idle, ?_⟩
    cases o with
    | kernel k =>
      obtain ⟨h, ht⟩ := h
      exact ⟨⟨h.boot, h.noWfi, h.flag, h.count, h.store, h.saved, h.current, h.idleProcess, h.named⟩, ht⟩
    | user p =>
      obtain ⟨h, ht⟩ := h
      exact ⟨⟨h.flag, h.count, h.entryTask, h.idleProcess, h.saved, h.named⟩, ht⟩
  rcases e.handle_cases (TakenInv.flag h.1 h.2) (cfg.cpu c) with he | ⟨-, he⟩
  · rw [he]
    exact hexit
  · rw [he]
    exact hexit.congr (fun p _ => setState_sameFields x.toCpu x.current .zombie p) fun _ _ => rfl

theorem checkResched_iff {o : Code} (hI : CoreInv cfg c x) (hpl : x.place = .exit o b) :
    checkResched x.toCpu = true ↔ ∀ k, o = .kernel k → k.counted = false := by
  have h := hI.place
  simp only [PlaceInv, hpl] at h
  have hflag := TakenInv.flag h.1 h.2
  have hcheck : checkResched x.toCpu = decide (x.preemptCount ≤ 0) := by
    rw [checkResched, hflag]
    exact Bool.and_true _
  rw [hcheck, decide_eq_true_iff]
  cases o with
  | kernel k =>
    have hcount := h.1.count
    rw [hcount]
    cases hk : k.counted <;> simp [hk]
  | user p =>
    have hcount := h.1.count
    simp [hcount]

/-- The exit from an exception at EL0: back to idle, with `current` that of the boot CPU. -/
theorem exit_user (hI : CoreInv cfg c x) (hpl : x.place = .exit (.user p) b) :
    x.exit (cfg.cpu c) (.user p) b =
      { x with procSp := Function.update x.procSp p x.spEl1, spEl1 := x.procSp p + switchFrame,
               current := cfg.idle 0, saved := none, place := .code (.kernel .runTail) } := by
  have h := hI.place
  simp only [PlaceInv, hpl] at h
  obtain ⟨h, -, hcur⟩ := h
  have hcheck := (checkResched_iff hI hpl).mpr (by simp)
  have hplace : x.saved.map Prod.snd = some (x.procSp x.current) := by
    rw [h.saved, hcur]
    rfl
  simp only [Core.exit, hcheck, if_true, Core.processResched, hplace, hcur]
  rfl

/-- The exit from an exception at EL1: back to the statement, if `preempt_count` has been raised
there, otherwise to an address that nobody saved. -/
theorem exit_kernel (hI : CoreInv cfg c x) (hpl : x.place = .exit (.kernel k) b) :
    x.exit (cfg.cpu c) (.kernel k) b =
      if k.counted then { x with spEl1 := x.spEl1 + excFrame, masked := b, place := .code (.kernel k) }
      else { x with procSp := Function.update x.procSp x.current x.spEl1,
                    spEl1 := x.procSp x.current + switchFrame, current := cfg.idle 0, saved := none,
                    place := .wild } := by
  have h := hI.place
  simp only [PlaceInv, hpl] at h
  obtain ⟨h, -⟩ := h
  have hcheck := checkResched_iff hI hpl
  have hsaved := h.saved
  cases hk : k.counted with
  | true =>
    have : checkResched x.toCpu = false := by
      rw [← Bool.not_eq_true, hcheck]
      intro hall
      cases (hall k rfl).symm.trans hk
    simp [Core.exit, this]
  | false =>
    have : checkResched x.toCpu = true := by
      rw [hcheck]
      rintro _ ⟨rfl⟩
      exact hk
    simp [Core.exit, this, Core.processResched, hsaved]
    rfl

private theorem CoreInv.exit {o : Code} (hI : CoreInv cfg c x) (hpl : x.place = .exit o b) :
    CoreInv cfg c (x.exit (cfg.cpu c) o b) := by
  have h := hI.place
  simp only [PlaceInv, hpl] at h
  cases o with
  | user p =>
    rw [exit_user hI hpl]
    obtain ⟨h, hmask, -⟩ := h
    refine ⟨hI.queued, hI.next, hI.entry, hI.idle, ⟨?_, fun _ _ _ => hmask⟩⟩
    exact ⟨by simp, by simp, fun _ => h.flag, h.count, by simp, rfl, .inr rfl, fun _ => h.idleProcess,
      iff_of_false h.named (by simp)⟩
  | kernel k =>
    rw [exit_kernel hI hpl]
    obtain ⟨h, -, hoff⟩ := h
    split
    · rename_i hk
      refine ⟨hI.queued, hI.next, hI.entry, hI.idle, ⟨?_, ?_⟩⟩
      · exact ⟨h.boot, h.noWfi, h.flag, h.count, h.store, h.saved, h.current, h.idleProcess, h.named⟩
      · rintro _ ⟨rfl⟩ hirq
        rcases hoff with hoff | rfl
        · cases hoff.symm.trans hirq
        · cases hk
    · exact ⟨hI.queued, hI.next, hI.entry, hI.idle, trivial⟩

/-! ### One CPU -/

inductive CoreMove (cfg : CpuConfig) (x : Core) : Act → Core → Prop
  | next {ok : Bool} {cnt : Nat} {k : KernelPoint} : x.place = .code (.kernel k) →
      CoreMove cfg x (.next ok cnt) (x.next cfg ok cnt k)
  | irq {i : Irq} {o : Code} : x.place = .code o → x.masked = false →
      CoreMove cfg x (.irq i) (x.take (.irq i) o)
  | svc {call : Syscall} {p : Pid} : x.place = .code (.user p) →
      CoreMove cfg x (.svc call) (x.take (.svc call) (.user p))
  | abort {p : Pid} : x.place = .code (.user p) → CoreMove cfg x .abort (x.take .sync (.user p))
  | handle {o : Code} {b : Bool} {e : Exc} : x.place = .handler o b e →
      CoreMove cfg x .handle { x with toCpu := e.handle cfg x.toCpu, place := .exit o b }
  | exit {o : Code} {b : Bool} : x.place = .exit o b → CoreMove cfg x .exit (x.exit cfg o b)

theorem Core.act_move {cfg : CpuConfig} {a : Act} (h : x.act cfg a = some x') : CoreMove cfg x a x' := by
  cases a with
  | next ok cnt =>
    simp only [Core.act] at h
    split at h
    · rename_i hpl
      cases h
      exact .next hpl
    · cases h
  | irq i =>
    simp only [Core.act] at h
    split at h
    · rename_i hpl
      split at h
      · cases h
      · rename_i hm
        cases h
        exact .irq hpl (Bool.not_eq_true _ ▸ hm)
    · cases h
  | svc call =>
    simp only [Core.act] at h
    split at h
    · rename_i hpl
      cases h
      exact .svc hpl
    · cases h
  | abort =>
    simp only [Core.act] at h
    split at h
    · rename_i hpl
      cases h
      exact .abort hpl
    · cases h
  | handle =>
    simp only [Core.act] at h
    split at h
    · rename_i hpl
      cases h
      exact .handle hpl
    · cases h
  | exit =>
    simp only [Core.act] at h
    split at h
    · rename_i hpl
      cases h
      exact .exit hpl
    · cases h
  | register d p => cases h
  | bringup d => cases h

theorem CoreInv.act {a : Act} (hI : CoreInv cfg c x) (h : x.act (cfg.cpu c) a = some x') :
    CoreInv cfg c x' := by
  cases Core.act_move h with
  | next hpl => exact hI.next_point hpl
  | irq hpl hm =>
    refine hI.take hpl ?_
    rintro k rfl
    have hoff := (hI.kernel hpl).2
    cases hk : k.irqsOff with
    | true => cases (hoff hk).symm.trans hm
    | false => exact .inl rfl
  | svc hpl => exact hI.take hpl (by simp)
  | abort hpl => exact hI.take hpl (by simp)
  | handle hpl => exact hI.handle hpl
  | exit hpl => exact hI.exit hpl

/-- What a CPU's own step can change in the shared memory: the queue, the names and the kernel
threads stay, and of the `sp` fields only those of its own processes and of idle processes change. -/
structure OwnStep (cfg : SmpConfig) (x x' : Core) : Prop where
  processes : x'.processes = x.processes
  procs : ∀ p, SameFields (x.procs p) (x'.procs p)
  procSp : ∀ p, p ∉ x.processes → (∀ d, p ≠ cfg.idle d) → x'.procSp p = x.procSp p

private theorem OwnStep.of_eq (hq : x'.processes = x.processes) (hp : x'.procs = x.procs)
    (hs : x'.procSp = x.procSp) : OwnStep cfg x x' :=
  ⟨hq, fun _ => by rw [hp]; exact ⟨rfl, rfl⟩, fun p _ _ => congrFun hs p⟩

private theorem OwnStep.next {ok : Bool} {cnt : Nat} (hI : CoreInv cfg c x)
    (hpl : x.place = .code (.kernel k)) : OwnStep cfg x (x.next (cfg.cpu c) ok cnt k) := by
  cases k with
  | main call => cases call <;> exact .of_eq rfl rfl rfl
  | schdulePick =>
    have h := (hI.kernel hpl).1
    show OwnStep cfg x (x.schdulePick (cfg.cpu c) cnt)
    rcases schdulePick_cases hI (h.flag rfl) cnt with hs | ⟨p, n, f, -, hp, -, hf, ⟨-, hs⟩ | ⟨-, hs⟩⟩
    · rw [hs]
      exact .of_eq rfl rfl rfl
    · rw [hs]
      exact ⟨rfl, hf, fun _ _ _ => rfl⟩
    · rw [hs]
      refine ⟨rfl, hf, fun q hq _ => Function.update_of_ne ?_ _ _⟩
      rintro rfl
      exact hq hp
  | runTail => exact ⟨rfl, setState_sameFields x.toCpu x.current .running, fun _ _ _ => rfl⟩
  | _ => exact .of_eq rfl rfl rfl

theorem CoreInv.ownStep {a : Act} (hI : CoreInv cfg c x) (h : x.act (cfg.cpu c) a = some x') :
    OwnStep cfg x x' := by
  have hpl := hI.place
  cases Core.act_move h with
  | next hk => exact .next hI hk
  | @irq i o ho hm => cases o <;> exact .of_eq rfl rfl rfl
  | svc ho => exact .of_eq rfl rfl rfl
  | abort ho => exact .of_eq rfl rfl rfl
  | @handle o b e ho =>
    simp only [PlaceInv, ho] at hpl
    rcases e.handle_cases (TakenInv.flag hpl.1 hpl.2) (cfg.cpu c) with he | ⟨-, he⟩
    · rw [he]
      exact .of_eq rfl rfl rfl
    · rw [he]
      exact ⟨rfl, setState_sameFields x.toCpu x.current .zombie, fun _ _ _ => rfl⟩
  | @exit o b ho =>
    simp only [PlaceInv, ho] at hpl
    cases o with
    | user p =>
      rw [exit_user hI ho]
      refine ⟨rfl, fun _ => ⟨rfl, rfl⟩, fun q hq _ => Function.update_of_ne ?_ _ _⟩
      rintro rfl
      exact hq (hI.entry q hpl.1.entryTask)
    | kernel k =>
      rw [exit_kernel hI ho]
      split
      · exact .of_eq rfl rfl rfl
      · refine ⟨rfl, fun _ => ⟨rfl, rfl⟩, fun q _ hidle => Function.update_of_ne ?_ _ _⟩
        rintro rfl
        rcases hpl.1.current with he | he
        · exact hidle c he
        · exact hidle 0 he

/-! ### All CPUs -/

inductive SmpMove (cfg : SmpConfig) (m : Smp) : CpuId × Act → Smp → Prop
  | own {c : CpuId} {a : Act} {x : Core} : (m c).act (cfg.cpu c) a = some x →
      SmpMove cfg m (c, a) (m.put c x)
  | register {d : CpuId} {p : Pid} : (∀ e, p ∉ (m e).processes ∧ p ≠ cfg.idle e) →
      ((m d).procs p).kthread = none →
      SmpMove cfg m (0, .register d p)
        (m.put d { m d with toCpu := roundRobinLoadProcess p (m d).toCpu })
  | bringup {d : CpuId} : (m d).place = .off →
      SmpMove cfg m (0, .bringup d) (m.put d (m.started cfg d))

theorem Smp.step_move {l : CpuId × Act} (h : m.step cfg l = some m') : SmpMove cfg m l m' := by
  obtain ⟨c, a⟩ := l
  have hown : (if m.waits c a then none else ((m c).act (cfg.cpu c) a).map (m.put c)) = some m' →
      SmpMove cfg m (c, a) m' := by
    intro h
    split at h
    · cases h
    · obtain ⟨x, hx, rfl⟩ := Option.map_eq_some_iff.mp h
      exact .own hx
  cases a with
  | register d p =>
    simp only [Smp.step, Option.ite_none_right_eq_some, Option.some.injEq] at h
    obtain ⟨⟨rfl, -, hp, -, hk⟩, rfl⟩ := h
    exact .register hp hk
  | bringup d =>
    simp only [Smp.step, Option.ite_none_right_eq_some, Option.some.injEq] at h
    obtain ⟨⟨rfl, -, hd⟩, rfl⟩ := h
    exact .bringup hd
  | _ => exact hown h

structure SmpInv (cfg : SmpConfig) (m : Smp) : Prop where
  shared : ∀ c d, (m c).procs = (m d).procs ∧ (m c).procSp = (m d).procSp
  disjoint : ∀ c d p, p ∈ (m c).processes → p ∈ (m d).processes → c = d
  core : ∀ c, CoreInv cfg c (m c)

theorem SmpInv.of_initial (h : m.Initial cfg) : SmpInv cfg m := by
  refine ⟨h.shared, fun c d p hp => ?_, fun c => ?_⟩
  · simp [(h.fresh c).processes] at hp
  · have hf := h.fresh c
    refine ⟨by simp [hf.processes], .inl hf.nextProcess, by simp [hf.entryTask], by simp [hf.idleProcess], ?_⟩
    by_cases hc : c = 0
    · subst hc
      simp only [PlaceInv, h.boot]
      refine ⟨⟨fun _ _ => rfl, by simp, by simp [KernelPoint.flagged], hf.preemptCount, by simp, hf.saved,
        .inl h.bootCurrent, by simp [KernelPoint.hasIdle], ?_⟩, fun _ _ _ => h.bootMasked⟩
      exact iff_of_false (fun ⟨t, ht, _⟩ => by simp [hf.entryTask] at ht) (by simp)
    · simp only [PlaceInv, h.off c hc]
      exact ⟨hf.preemptCount, hf.entryTask, hf.saved, hf.idleProcess⟩

private theorem SmpInv.put (hm : SmpInv cfg m) (hx : CoreInv cfg c x)
    (hothers : ∀ e, e ≠ c → ∀ p ∈ (m e).processes, p ∉ x.processes ∧
      SameFields ((m c).procs p) (x.procs p) ∧ x.procSp p = (m c).procSp p) :
    SmpInv cfg (m.put c x) := by
  refine ⟨fun e d => by simp, fun e d p he hd => ?_, fun e => ?_⟩
  · by_cases h1 : e = c
    · by_cases h2 : d = c
      · rw [h1, h2]
      · rw [h1, Smp.put_self] at he
        rw [Smp.put_of_ne h2] at hd
        exact absurd he (hothers d h2 p hd).1
    · rw [Smp.put_of_ne h1] at he
      by_cases h2 : d = c
      · rw [h2, Smp.put_self] at hd
        exact absurd hd (hothers e h1 p he).1
      · rw [Smp.put_of_ne h2] at hd
        exact hm.disjoint e d p he hd
  · by_cases h1 : e = c
    · rw [h1, Smp.put_self]
      exact hx
    · rw [Smp.put_of_ne h1]
      refine (hm.core e).congr (fun p hp => ?_) fun p hp => ?_
      · rw [(hm.shared e c).1]
        exact (hothers e h1 p hp).2.1
      · rw [(hm.shared e c).2]
        exact (hothers e h1 p hp).2.2

private theorem SmpInv.register (hm : SmpInv cfg m) (hp : ∀ e, p ∉ (m e).processes ∧ p ≠ cfg.idle e)
    (hk : ((m d).procs p).kthread = none) :
    SmpInv cfg (m.put d { m d with toCpu := roundRobinLoadProcess p (m d).toCpu }) := by
  have hfields := setState_sameFields (m d).toCpu p .ready
  refine hm.put ((hm.core d).write (fun q _ => hfields q) (fun _ _ => rfl) (by simp)
    (fun q hq => List.mem_append_left _ hq) fun q hq => ?_) fun e he q hq => ⟨?_, hfields q, rfl⟩
  · rcases List.mem_append.mp hq with hq | hq
    · exact .inl hq
    · rw [List.mem_singleton.mp hq]
      exact .inr ⟨fun e => (hp e).2, (hfields p).2.trans hk⟩
  · intro hmem
    rcases List.mem_append.mp hmem with hmem | hmem
    · exact he (hm.disjoint e d q hq hmem)
    · rw [List.mem_singleton.mp hmem] at hq
      exact (hp e).1 hq

private theorem SmpInv.bringup (hm : SmpInv cfg m) (hd : (m d).place = .off) :
    SmpInv cfg (m.put d (m.started cfg d)) := by
  have hI := hm.core d
  have hoff := hI.place
  simp only [PlaceInv, hd] at hoff
  obtain ⟨hcount, hentry, hsaved, -⟩ := hoff
  have hother : ∀ e, ∀ q ∈ (m e).processes, SameFields ((m d).procs q) ((m.started cfg d).procs q) ∧
      (m.started cfg d).procSp q = (m d).procSp q := by
    intro e q hq
    have hne := ((hm.core e).queued q hq).1 d
    simp only [Smp.started, Core.loadInitTask, idleThreadCreate]
    rw [Function.update_of_ne hne, Function.update_of_ne hne]
    exact ⟨⟨rfl, rfl⟩, rfl⟩
  refine hm.put ⟨fun q hq => ?_, hI.next, hI.entry, ?_, ?_⟩ fun e he q hq => ⟨?_, hother e q hq⟩
  · exact ⟨(hI.queued q hq).1, (hother d q hq).1.2.trans (hI.queued q hq).2⟩
  · rintro q ⟨rfl⟩
    rfl
  · refine ⟨⟨by simp, by simp, by simp [KernelPoint.flagged], hcount, by simp, hsaved, .inl rfl,
      fun _ => rfl, ?_⟩, fun _ _ _ => rfl⟩
    refine iff_of_false (fun hn => ?_) (by simp)
    obtain ⟨t, ht, -⟩ := hn
    cases hentry.symm.trans ht
  · intro hmem
    exact he (hm.disjoint e d q hq hmem)

theorem SmpInv.step {l : CpuId × Act} (hm : SmpInv cfg m) (h : m.step cfg l = some m') : SmpInv cfg m' := by
  cases Smp.step_move h with
  | @own c a x hact =>
    have hI := hm.core c
    have hown := hI.ownStep hact
    refine hm.put (hI.act hact) fun e he p hp => ?_
    have hnot : p ∉ (m c).processes := fun hc => he (hm.disjoint e c p hp hc)
    rw [hown.processes]
    exact ⟨hnot, hown.procs p, hown.procSp p hnot ((hm.core e).queued p hp).1⟩
  | register hp hk => exact hm.register hp hk
  | bringup hd => exact hm.bringup hd

theorem SmpInv.of_reachable (h : (smpSystem cfg).Reachable m) : SmpInv cfg m :=
  h.induction (fun _ => SmpInv.of_initial) fun _ _ _ _ hm hs => hm.step hs

end QuestOS
