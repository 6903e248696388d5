import QuestOS.Lib.Cyclic
import QuestOS.Sched.Lifecycle

/-!
# Fairness of the round-robin queue

The runs of the queue of one CPU: registrations, calls of `round_robin_pick_next` and, in between,
any change of the processes.  The cursor `g_next_process` walks over the slots in cyclic order, so
between two picks of one process every other runnable process has its turn.  It has exactly one if
the first process too is runnable all the time: while that one is blocked the others go round.
-/

namespace QuestOS

open Cyclic

variable {c c' : Cpu} {p q : Pid}

/-! ### One call of `round_robin_pick_next` -/

def Runnable (c : Cpu) (p : Pid) : Prop :=
  (c.procs p).state = .ready ∨ (c.procs p).state = .running

instance : Decidable (Runnable c p) := inferInstanceAs (Decidable (_ ∨ _))

theorem not_runnable_iff :
    ¬ Runnable c p ↔ (c.procs p).state ≠ .ready ∧ (c.procs p).state ≠ .running := not_or

/-- The loop stops at the first runnable process, `d` slots behind the one it starts at, or finds
none in `fuel` slots. -/
theorem pickLoop_first (fuel : Nat) {i : Nat} (hi : i < c.processes.length) :
    (∃ d r, d < fuel ∧ c.processes[(i + d) % c.processes.length]? = some r ∧ Runnable c r ∧
        pickLoop c fuel i = some (some r, ((i + d) % c.processes.length + 1) % c.processes.length) ∧
        ∀ e < d, ∀ q, c.processes[(i + e) % c.processes.length]? = some q → ¬ Runnable c q) ∨
      pickLoop c fuel i = some (none, c.nextProcess) ∧
        ∀ e < fuel, ∀ q, c.processes[(i + e) % c.processes.length]? = some q → ¬ Runnable c q := by
  induction fuel generalizing i with
  | zero => exact .inr ⟨rfl, by simp⟩
  | succ fuel ih =>
    have hget : c.processes[i % c.processes.length]? = some c.processes[i] := by
      rw [Nat.mod_eq_of_lt hi, List.getElem?_eq_getElem hi]
    have hshift : ∀ e, ((i + 1) % c.processes.length + e) % c.processes.length =
        (i + (e + 1)) % c.processes.length := by
      intro e
      rw [Nat.mod_add_mod, Nat.add_right_comm, Nat.add_assoc]
    by_cases hrun : Runnable c c.processes[i]
    · refine .inl ⟨0, c.processes[i], Nat.succ_pos fuel, hget, hrun, ?_, by simp⟩
      rw [show (i + 0) % c.processes.length = i from Nat.mod_eq_of_lt hi, pickLoop,
        List.getElem?_eq_getElem hi]
      exact if_neg (fun h => not_runnable_iff.mpr h hrun)
    · -- the slot is skipped: the rest of the loop starts one slot further on
      have hskip : pickLoop c (fuel + 1) i = pickLoop c fuel ((i + 1) % c.processes.length) := by
        rw [pickLoop, List.getElem?_eq_getElem hi]
        exact if_pos (not_runnable_iff.mp hrun)
      have hbefore : ∀ d, (∀ e < d, ∀ q,
          c.processes[((i + 1) % c.processes.length + e) % c.processes.length]? = some q →
            ¬ Runnable c q) →
          ∀ e < d + 1, ∀ q, c.processes[(i + e) % c.processes.length]? = some q →
            ¬ Runnable c q := by
        intro d hd e he q hq
        cases e with
        | zero =>
          rw [Nat.add_zero, hget] at hq
          cases hq
          exact hrun
        | succ e => exact hd e (by omega) q (by rw [hshift]; exact hq)
      rw [hskip]
      rcases ih (Nat.mod_lt (i + 1) (Nat.zero_lt_of_lt hi)) with
        ⟨d, r, hd, hr, hrr, heq, hall⟩ | ⟨heq, hall⟩
      · rw [hshift] at hr heq
        exact .inl ⟨d + 1, r, by omega, hr, hrr, heq, hbefore d hall⟩
      · exact .inr ⟨heq, hbefore fuel hall⟩

/-- What `round_robin_pick_next` does: it takes the process in some slot `m` that is met no later
than any slot of a runnable process, or there is no runnable process. -/
inductive PickOutcome (c : Cpu) : Option (Option Pid × Nat) → Prop
  | found {m : Nat} {r : Pid} : c.processes[m]? = some r → Runnable c r →
      (∀ (x : Nat) (q : Pid), c.processes[x]? = some q → Runnable c q → Upto c.nextProcess x m) →
      PickOutcome c (some (some r, (m + 1) % c.processes.length))
  | idle : (∀ q ∈ c.processes, ¬ Runnable c q) → PickOutcome c (some (none, c.nextProcess))

theorem roundRobinPickNext_outcome
    (h : c.nextProcess = 0 ∨ c.nextProcess < c.processes.length) :
    PickOutcome c (roundRobinPickNext c) := by
  unfold roundRobinPickNext
  split
  · rename_i hlen
    exact .idle (by simp [List.eq_nil_of_length_eq_zero hlen])
  · rename_i hlen
    have hk : c.nextProcess < c.processes.length := by omega
    have hslot : ∀ {x : Nat} {q : Pid}, c.processes[x]? = some q → x < c.processes.length := by
      intro x q hx
      exact (List.getElem?_eq_some_iff.mp hx).1
    rcases pickLoop_first c.processes.length hk with
      ⟨d, r, hd, hr, hrr, heq, hskip⟩ | ⟨heq, hnone⟩
    · rw [heq]
      refine .found hr hrr fun x q hx hq => ?_
      obtain ⟨e, he, rfl⟩ := exists_distance hk (hslot hx)
      have hde : d ≤ e := by
        by_contra hlt
        exact hskip e (by omega) q hx hq
      exact upto_of_le hk hde he
    · rw [heq]
      refine .idle fun q hq => ?_
      obtain ⟨x, hx⟩ := List.getElem?_of_mem hq
      obtain ⟨e, he, rfl⟩ := exists_distance hk (hslot hx)
      exact hnone e he q hx

theorem PickOutcome.none_iff {r : Option (Option Pid × Nat)} (h : PickOutcome c r) :
    ∃ found n, r = some (found, n) ∧ (found = none ↔ ∀ q ∈ c.processes, ¬ Runnable c q) := by
  cases h with
  | found hm hr _ =>
    refine ⟨_, _, rfl, by simp, fun hall => ?_⟩
    exact absurd hr (hall _ (List.mem_of_getElem? hm))
  | idle hnone => exact ⟨_, _, rfl, fun _ => hnone, fun _ => rfl⟩

/-! ### Runs of the queue -/

inductive QueueEvent
  | load (p : Pid)
  | pick (found : Option Pid)
  | change (procs : Pid → ProcessStruct)

/-- The queue of one CPU, from the zeroed per-CPU variables; a process is registered once and there
are at most `MAX_PROCESS_COUNT` of them. -/
def queueSystem : Trans.System Cpu QueueEvent where
  init c := c.processes = [] ∧ c.nextProcess = 0
  step c e c' :=
    match e with
    | .load p => p ∉ c.processes ∧ c.processes.length < maxProcessCount ∧
        c' = roundRobinLoadProcess p c
    | .pick found => ∃ n, roundRobinPickNext c = some (found, n) ∧ c' = { c with nextProcess := n }
    | .change procs => c' = { c with procs := procs }

structure QueueInv (c : Cpu) : Prop where
  nodup : c.processes.Nodup
  cursor : c.nextProcess = 0 ∨ c.nextProcess < c.processes.length

inductive QueueMove (c : Cpu) : QueueEvent → Cpu → Prop
  | load {p : Pid} : p ∉ c.processes → QueueMove c (.load p) (roundRobinLoadProcess p c)
  | found {m : Nat} {r : Pid} : c.processes[m]? = some r →
      (∀ (x : Nat) (q : Pid), c.processes[x]? = some q → Runnable c q → Upto c.nextProcess x m) →
      QueueMove c (.pick (some r)) { c with nextProcess := (m + 1) % c.processes.length }
  | idle : QueueMove c (.pick none) c
  | change (procs : Pid → ProcessStruct) : QueueMove c (.change procs) { c with procs := procs }

variable {e : QueueEvent}

theorem QueueInv.step_move (hI : QueueInv c) (h : queueSystem.step c e c') :
    QueueMove c e c' := by
  cases e with
  | load p =>
    obtain ⟨hp, -, rfl⟩ := h
    exact .load hp
  | change procs =>
    cases h
    exact .change procs
  | pick found =>
    obtain ⟨n, hpick, rfl⟩ := h
    have hout := roundRobinPickNext_outcome hI.cursor
    rw [hpick] at hout
    cases hout with
    | found hm _ hup => exact .found hm hup
    | idle _ => exact .idle

theorem QueueInv.step (hI : QueueInv c) (h : queueSystem.step c e c') :
    QueueInv c' := by
  cases hI.step_move h with
  | @load p hp =>
    have hlen : (roundRobinLoadProcess p c).processes.length = c.processes.length + 1 := by
      simp [roundRobinLoadProcess]
    have hnew : ∀ a ∈ c.processes, ∀ b ∈ [p], a ≠ b := by
      rintro a ha b hb rfl
      exact hp (List.mem_singleton.mp hb ▸ ha)
    refine ⟨List.nodup_append.mpr ⟨hI.nodup, by simp, hnew⟩, ?_⟩
    rw [hlen]
    exact hI.cursor.imp id Nat.lt_succ_of_lt
  | @found m r hm _ =>
    have hlt : m < c.processes.length := (List.getElem?_eq_some_iff.mp hm).1
    exact ⟨hI.nodup, .inr (Nat.mod_lt _ (Nat.zero_lt_of_lt hlt))⟩
  | idle => exact hI
  | change procs => exact ⟨hI.nodup, hI.cursor⟩

theorem QueueInv.of_reachable (h : queueSystem.Reachable c) : QueueInv c := by
  refine h.induction (fun c hc => ?_) fun _ _ _ _ hI hs => hI.step hs
  exact ⟨by simp [hc.1], .inl hc.2⟩

theorem QueueInv.slot_step {x : Nat} (hI : QueueInv c)
    (h : queueSystem.step c e c') (hx : c.processes[x]? = some p) : c'.processes[x]? = some p := by
  cases hI.step_move h with
  | load _ =>
    have hlt : x < c.processes.length := (List.getElem?_eq_some_iff.mp hx).1
    exact (List.getElem?_append_left hlt).trans hx
  | found _ _ => exact hx
  | idle => exact hx
  | change _ => exact hx

/-! ### Turns -/

def StaysRunnable (p : Pid) (steps : List (Trans.Step Cpu QueueEvent)) : Prop :=
  ∀ st ∈ steps, Runnable st.pre p

def Picks (p : Pid) (st : Trans.Step Cpu QueueEvent) : Prop := st.label = .pick (some p)

instance : DecidablePred (Picks p) := fun st =>
  match h : st.label with
  | .pick (some r) => decidable_of_iff (r = p) (by simp [Picks, h])
  | .pick none => isFalse (by simp [Picks, h])
  | .load _ => isFalse (by simp [Picks, h])
  | .change _ => isFalse (by simp [Picks, h])

/-- While the process in slot `j` is due and runnable, a step that does not pick it leaves it due,
and no step picks the process in slot `i`. -/
theorem QueueInv.due_step {i j : Nat} (hI : QueueInv c)
    (h : queueSystem.step c e c') (hi : c.processes[i]? = some p) (hj : c.processes[j]? = some q)
    (hpq : p ≠ q) (hq : Runnable c q) (hdue : Due i j c.nextProcess) :
    e ≠ .pick (some p) ∧ (e ≠ .pick (some q) → Due i j c'.nextProcess) := by
  have hij : i ≠ j := by
    rintro rfl
    exact hpq (Option.some.inj (hi.symm.trans hj))
  cases hI.step_move h with
  | load _ => exact ⟨by simp, fun _ => hdue⟩
  | idle => exact ⟨by simp, fun _ => hdue⟩
  | change _ => exact ⟨by simp, fun _ => hdue⟩
  | @found m r hm hup =>
    have hlt : ∀ {x : Nat} {q : Pid}, c.processes[x]? = some q → x < c.processes.length := by
      intro x q hx
      exact (List.getElem?_eq_some_iff.mp hx).1
    have hupj := hup j q hj hq
    constructor
    · rintro ⟨rfl⟩
      have hmi : m = i := (List.getElem?_inj (hlt hm) hI.nodup).mp (hm.trans hi.symm)
      exact hdue.ne hij hupj hmi
    · intro hne
      have hmj : m ≠ j := by
        rintro rfl
        exact hne (by rw [Option.some.inj (hm.symm.trans hj)])
      exact hdue.scan (hlt hm) (hlt hj) hupj hmj

theorem QueueInv.pick_mem (hI : QueueInv c) (h : queueSystem.step c (.pick (some p)) c') :
    p ∈ c.processes := by
  cases hI.step_move h with
  | found hm _ => exact List.mem_of_getElem? hm

theorem QueueInv.mem_step (hI : QueueInv c) (h : queueSystem.step c e c')
    (hp : p ∈ c.processes) : p ∈ c'.processes := by
  obtain ⟨i, hi⟩ := List.getElem?_of_mem hp
  exact List.mem_of_getElem? (hI.slot_step h hi)

theorem QueueInv.due_pick {i j : Nat} (hI : QueueInv c) (h : queueSystem.step c (.pick (some p)) c')
    (hi : c.processes[i]? = some p) (hj : c.processes[j]? = some q) : Due i j c'.nextProcess := by
  have hlt : ∀ {x : Nat} {q : Pid}, c.processes[x]? = some q → x < c.processes.length := by
    intro x q hx
    exact (List.getElem?_eq_some_iff.mp hx).1
  cases hI.step_move h with
  | @found m _ hm _ =>
    have hmi : m = i := (List.getElem?_inj (hlt hm) hI.nodup).mp (hm.trans hi.symm)
    subst hmi
    exact Due.start (hlt hm) (hlt hj)

section Turns

variable {between earlier : List (Trans.Step Cpu QueueEvent)} {first : Trans.Step Cpu QueueEvent}

/-- From a pick of the process in slot `i` on, the process in slot `j` stays due until it is
picked. -/
theorem due_of_unpicked {i j : Nat} (h : queueSystem.Run (between ++ first :: earlier) c)
    (hfirst : Picks p first) (hi : first.pre.processes[i]? = some p)
    (hj : first.pre.processes[j]? = some q) (hpq : p ≠ q) (hstay : StaysRunnable q between)
    (hun : ∀ st ∈ between, ¬ Picks q st) :
    c.processes[i]? = some p ∧ c.processes[j]? = some q ∧ Due i j c.nextProcess := by
  induction between generalizing c with
  | nil =>
    cases h with
    | cons h hs =>
      cases hfirst
      have hI := QueueInv.of_reachable h.reachable
      exact ⟨hI.slot_step hs hi, hI.slot_step hs hj, hI.due_pick hs hi hj⟩
  | cons st between ih =>
    cases h with
    | @cons _ s _ e h hs =>
      have hI := QueueInv.of_reachable h.reachable
      obtain ⟨hi', hj', hdue⟩ := ih h (fun st hst => hstay st (by simp [hst]))
        fun st hst => hun st (by simp [hst])
      have hkeep := (hI.due_step hs hi' hj' hpq (hstay ⟨s, e, c⟩ (by simp)) hdue).2
      exact ⟨hI.slot_step hs hi', hI.slot_step hs hj', hkeep (hun ⟨s, e, c⟩ (by simp))⟩

/-- Between two picks of `p` every other process that is registered and runnable is picked. -/
theorem exists_pick_between {later : List (Trans.Step Cpu QueueEvent)}
    {second : Trans.Step Cpu QueueEvent}
    (h : queueSystem.Run (later ++ second :: (between ++ first :: earlier)) c)
    (hfirst : Picks p first) (hsecond : Picks p second) (hpq : p ≠ q)
    (hq : q ∈ first.pre.processes) (hstay : StaysRunnable q (second :: between)) :
    ∃ st ∈ between, Picks q st := by
  by_contra hnone
  push Not at hnone
  obtain ⟨hrun, hstep⟩ := h.of_append
  obtain ⟨hrun₁, hstep₁⟩ := hrun.of_append
  have hp : p ∈ first.pre.processes :=
    (QueueInv.of_reachable hrun₁.reachable).pick_mem (hfirst ▸ hstep₁)
  obtain ⟨i, hi⟩ := List.getElem?_of_mem hp
  obtain ⟨j, hj⟩ := List.getElem?_of_mem hq
  obtain ⟨hi', hj', hdue⟩ := due_of_unpicked hrun hfirst hi hj hpq
    (fun st hst => hstay st (by simp [hst])) hnone
  have hI := QueueInv.of_reachable hrun.reachable
  exact (hI.due_step hstep hi' hj' hpq (hstay second (by simp)) hdue).1 hsecond

end Turns

theorem exists_two_of_countP {α : Type} {P : α → Bool} {l : List α} (h : 1 < l.countP P) :
    ∃ a x b y d, l = a ++ x :: (b ++ y :: d) ∧ P x = true ∧ P y = true := by
  induction l with
  | nil => simp at h
  | cons z l ih =>
    by_cases hz : P z = true
    · rw [List.countP_cons_of_pos hz] at h
      obtain ⟨y, hy, hPy⟩ := List.countP_pos_iff.mp (by omega : 0 < l.countP P)
      obtain ⟨b, d, rfl⟩ := List.append_of_mem hy
      exact ⟨[], z, b, y, d, rfl, hz, hPy⟩
    · rw [List.countP_cons_of_neg hz] at h
      obtain ⟨a, x, b, y, d, rfl, hx, hy⟩ := ih h
      exact ⟨z :: a, x, b, y, d, rfl, hx, hy⟩

/-- In every run of the queue: the cursor indexes a registered slot, a pick finds nothing iff no
registered process is runnable, and between two consecutive picks of `p` every other process that
was registered before and stayed runnable is picked, exactly once if `p` stayed runnable too. -/
theorem round_robin_fair {tr : List (Trans.Step Cpu QueueEvent)} (h : queueSystem.Run tr c) :
    (c.processes ≠ [] → c.nextProcess < c.processes.length) ∧
    (∃ found n, roundRobinPickNext c = some (found, n) ∧
      (found = none ↔ ∀ q ∈ c.processes, ¬ Runnable c q)) ∧
    ∀ later second between first earlier p, tr = later ++ second :: (between ++ first :: earlier) →
      Picks p first → Picks p second → (∀ st ∈ between, ¬ Picks p st) →
      ∀ q ∈ first.pre.processes, q ≠ p → StaysRunnable q (second :: between) →
        (∃ st ∈ between, Picks q st) ∧
        (StaysRunnable p (second :: between) → between.countP (fun st => Picks q st) = 1) := by
  have hI := QueueInv.of_reachable h.reachable
  refine ⟨fun hne => ?_, (roundRobinPickNext_outcome hI.cursor).none_iff, ?_⟩
  · have := List.length_pos_of_ne_nil hne
    have := hI.cursor
    omega
  · rintro later second between first earlier p rfl hfirst hsecond hcons q hq hqp hstay
    have hex := exists_pick_between h hfirst hsecond hqp.symm hq hstay
    refine ⟨hex, fun hstayp => ?_⟩
    obtain ⟨st, hst, hpick⟩ := hex
    have hpos : 0 < between.countP (fun st => Picks q st) :=
      List.countP_pos_iff.mpr ⟨st, hst, decide_eq_true hpick⟩
    by_contra hne
    obtain ⟨a, x, b, y, d, rfl, hx, hy⟩ :=
      exists_two_of_countP (by omega : 1 < between.countP (fun st => Picks q st))
    -- between two picks of `q` the process `p` has its turn, but it is not picked there
    have hrun : queueSystem.Run
        ((later ++ second :: a) ++ x :: (b ++ y :: (d ++ first :: earlier))) c := by
      simpa using h
    obtain ⟨hrun₁, hstep₁⟩ := hrun.of_append.1.of_append
    obtain ⟨hrun₂, hstep₂⟩ := hrun₁.of_append
    have hp : p ∈ y.pre.processes := by
      refine hrun₁.stable (P := fun s => p ∈ s.processes) (fun s e s' hs hp hstep => ?_) ?_
      · exact (QueueInv.of_reachable hs).mem_step hstep hp
      · have hI₂ := QueueInv.of_reachable hrun₂.reachable
        exact hI₂.mem_step hstep₂ (hI₂.pick_mem (hfirst ▸ hstep₂))
    obtain ⟨st, hst, hpst⟩ := exists_pick_between hrun (of_decide_eq_true hy)
      (of_decide_eq_true hx) hqp hp (fun st hst => hstayp st (by
        rcases List.mem_cons.mp hst with rfl | hst
        · simp
        · simp [hst]))
    exact hcons st (by simp [hst]) hpst

theorem freshCpu_queue : queueSystem.Run [] freshCpu := .nil ⟨rfl, rfl⟩

def procsWith (st : ProcessState) : Pid → ProcessStruct :=
  fun p => ⟨[], if p = 1 then st else .ready, none, none, 0⟩

theorem round_robin_fair_two : ∃ second between first earlier c,
    queueSystem.Run (second :: (between ++ first :: earlier)) c ∧ Picks 1 first ∧ Picks 1 second ∧
      between.countP (fun st => Picks 2 st) = 1 := by
  have run := ((((freshCpu_queue.next (.load 1) ⟨by decide, by decide, rfl⟩).next (.load 2)
    ⟨by decide, by decide, rfl⟩).next (.pick (some 1)) ⟨1, rfl, rfl⟩).next (.pick (some 2))
    ⟨0, rfl, rfl⟩).next (.pick (some 1)) ⟨1, rfl, rfl⟩
  refine ⟨_, [_], _, [_, _], _, run, rfl, rfl, ?_⟩
  refine ((round_robin_fair run).2.2 [] _ [_] _ [_, _] 1 rfl rfl rfl (by simp [Picks]) 2
    (by simp [roundRobinLoadProcess]) (by decide) ?_).2 ?_
  · intro st hst
    simp only [List.mem_cons, List.not_mem_nil, or_false] at hst
    rcases hst with rfl | rfl <;> decide
  · intro st hst
    simp only [List.mem_cons, List.not_mem_nil, or_false] at hst
    rcases hst with rfl | rfl <;> decide

/-- While process 1 is blocked process 2 is picked twice. -/
theorem blocked_process_skipped : ¬ ∀ (tr : List (Trans.Step Cpu QueueEvent)) (c : Cpu),
    queueSystem.Run tr c →
    ∀ later second between first earlier p, tr = later ++ second :: (between ++ first :: earlier) →
      Picks p first → Picks p second → (∀ st ∈ between, ¬ Picks p st) →
      ∀ q ∈ first.pre.processes, q ≠ p → StaysRunnable q (second :: between) →
        between.countP (fun st => Picks q st) = 1 := by
  intro hall
  have run := (((((((freshCpu_queue.next (.load 1) ⟨by decide, by decide, rfl⟩).next (.load 2)
    ⟨by decide, by decide, rfl⟩).next (.pick (some 1)) ⟨1, rfl, rfl⟩).next
    (.change (procsWith .blocked)) rfl).next (.pick (some 2)) ⟨0, rfl, rfl⟩).next (.pick (some 2))
    ⟨0, rfl, rfl⟩).next (.change (procsWith .ready)) rfl).next (.pick (some 1)) ⟨1, rfl, rfl⟩
  have htwo := hall _ _ run [] _ [_, _, _, _] _ [_, _] 1 rfl rfl rfl (by simp [Picks]) 2
    (by simp [roundRobinLoadProcess]) (by decide) (by
      intro st hst
      simp only [List.mem_cons, List.not_mem_nil, or_false] at hst
      rcases hst with rfl | rfl | rfl | rfl | rfl <;> decide)
  revert htwo
  decide

end QuestOS
