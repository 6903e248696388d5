import QuestOS.Lib.Trans
import Mathlib.Logic.Function.Basic

/-!
# Spin locks

`raw_arch_spin_lock` and `raw_arch_spin_unlock` of `spinlock.S` inside `spin_lock_irqsave` and
`spin_unlock_irqrestore`, on any number of CPUs.  An interrupt is taken wherever it is not masked, and its handler may
take the same lock.  In every interleaving one CPU at most holds the lock, and never in code that was interrupted; the
data that it protects are what the calls leave if they are made one after the other, in the order in which they got
the lock (`spinlock_safe`).
-/

namespace QuestOS.Spinlock

open Relation (ReflTransGen)

/-- The code between `spin_lock` and `spin_unlock`: where a call begins, and one statement, which changes the data that
the lock protects.  There is none behind the last one. -/
structure Section (κ β ρ : Type*) where
  enter : κ → β
  step : β → ρ → Option (β × ρ)

/-- The next access to the lock, or the next statement of the critical section.  Instructions on registers belong to the
access before them. -/
inductive Pc (β : Type*)
  | ldr
  | ldaxr
  | stxr
  | held (b : β)

structure Frame (κ β : Type*) where
  call : κ
  flags : Bool
  pc : Pc β

/-- `PSTATE.I`, the exclusive monitor, the code that runs and the code that was interrupted, where `none` is code that
has nothing to do with the lock. -/
structure Core (κ β : Type*) where
  masked : Bool
  monitor : Bool
  current : Option (Frame κ β)
  interrupted : List (Option (Frame κ β))

/-- `served` records the calls in the order in which they got the lock. -/
structure Sys (ι κ β ρ : Type*) where
  lock : BitVec 32
  core : ι → Core κ β
  data : ρ
  served : List κ

/-- `run` is the next access or statement; an exclusive store may fail although the monitor is set.  Code that has
nothing to do with the lock may mask and unmask interrupts. -/
inductive Act (κ : Type*)
  | call (k : κ)
  | run (ok : Bool)
  | irq
  | eret
  | daif (masked : Bool)

section

variable {ι κ β ρ : Type*} [DecidableEq ι] (S : Section κ β ρ) (s : Sys ι κ β ρ) (c : ι)

def Core.goto (x : Core κ β) (f : Frame κ β) (pc : Pc β) : Core κ β := { x with current := some { f with pc } }

def Sys.put (x : Core κ β) : Sys ι κ β ρ := { s with core := Function.update s.core c x }

/-- A store of `c` to the lock clears the monitors of the other CPUs. -/
def Sys.store (v : BitVec 32) : Sys ι κ β ρ :=
  { s with lock := v, core := fun d => { s.core d with monitor := decide (d = c) && (s.core d).monitor } }

def Sys.run (f : Frame κ β) (ok : Bool) : Sys ι κ β ρ :=
  let x := s.core c
  match f.pc with
  | .ldr => s.put c (x.goto f (if s.lock ≠ 0 then .ldr else .ldaxr))
  | .ldaxr =>
    if s.lock ≠ 0 then s.put c ({ x with monitor := false }.goto f .ldr)
    else s.put c ({ x with monitor := true }.goto f .stxr)
  | .stxr =>
    if ok && x.monitor then
      { s.store c 1 with served := s.served ++ [f.call] }.put c
        ({ x with monitor := false }.goto f (.held (S.enter f.call)))
    else s.put c ({ x with monitor := false }.goto f .ldr)
  | .held b =>
    match S.step b s.data with
    | some (b, r) => { s with data := r }.put c (x.goto f (.held b))
    | none => (s.store c 0).put c { x with masked := f.flags, current := none }

def Sys.step (a : Act κ) : Option (Sys ι κ β ρ) :=
  let x := s.core c
  match a, x.current with
  | .call k, none => some (s.put c { x with masked := true, current := some ⟨k, x.masked, .ldr⟩ })
  | .run ok, some f => some (s.run S c f ok)
  | .irq, f =>
    if x.masked then none
    else some (s.put c { x with masked := true, current := none, interrupted := f :: x.interrupted })
  | .eret, none =>
    match x.interrupted with
    | [] => none
    | f :: fs => some (s.put c ⟨false, false, f, fs⟩)
  | .daif masked, none => some (s.put c { x with masked })
  | _, _ => none

def system (r₀ : ρ) : Trans.System (Sys ι κ β ρ) (ι × Act κ) where
  init s := s.lock = 0 ∧ s.data = r₀ ∧ s.served = [] ∧ ∀ c, (s.core c).current = none ∧ (s.core c).interrupted = []
  step s e s' := s.step S e.1 e.2 = some s'

def Section.Steps : β × ρ → β × ρ → Prop := ReflTransGen fun p q => S.step p.1 p.2 = some q

inductive Serial (r₀ : ρ) : List κ → ρ → Prop
  | nil : Serial r₀ [] r₀
  | call {ks : List κ} {k : κ} {b : β} {r r' : ρ} (h : Serial r₀ ks r) (hrun : S.Steps (S.enter k, r) (b, r'))
      (hend : S.step b r' = none) : Serial r₀ (ks ++ [k]) r'

def Core.pc (x : Core κ β) : Option (Pc β) := x.current.map Frame.pc

def Core.Outside (x : Core κ β) : Prop := ∀ b, x.pc ≠ some (.held b)

/-- Code that has to do with the lock runs with interrupts masked, so that no such code is interrupted. -/
structure Core.Ok (x : Core κ β) : Prop where
  masked : x.current ≠ none → x.masked = true
  interrupted : ∀ f ∈ x.interrupted, f = none

inductive LockInv (r₀ : ρ) : Prop
  | free (lock : s.lock = 0) (out : ∀ c, (s.core c).Outside) (serial : Serial S r₀ s.served s.data)
  | held (c : ι) (f : Frame κ β) (b : β) (ks : List κ) (r : ρ) (lock : s.lock = 1)
      (current : (s.core c).current = some f) (pc : f.pc = .held b) (others : ∀ d, d ≠ c → (s.core d).Outside)
      (unmarked : ∀ d, (s.core d).monitor = true → (s.core d).pc ≠ some .stxr) (served : s.served = ks ++ [f.call])
      (serial : Serial S r₀ ks r) (steps : S.Steps (S.enter f.call, r) (b, s.data))

structure Inv (r₀ : ρ) : Prop where
  cores : ∀ c, (s.core c).Ok
  lock : LockInv S s r₀

end

variable {ι κ β ρ : Type*} [DecidableEq ι] {S : Section κ β ρ} {r₀ : ρ} {s s' : Sys ι κ β ρ} {c : ι} {x : Core κ β}
  {f : Frame κ β}

/-! ### One step -/

theorem goto_pc (x : Core κ β) (f : Frame κ β) (pc : Pc β) : (x.goto f pc).pc = some pc := rfl

theorem pc_of_current (h : x.current = some f) : x.pc = some f.pc := by rw [Core.pc, h, Option.map_some]

theorem pc_of_none (h : x.current = none) : x.pc = none := by rw [Core.pc, h, Option.map_none]

theorem put_core (s : Sys ι κ β ρ) (c : ι) (x : Core κ β) (d : ι) :
    (s.put c x).core d = if d = c then x else s.core d := Function.update_apply ..

theorem cores_put (h : ∀ d, (s.core d).Ok) (hx : x.Ok) (d : ι) : ((s.put c x).core d).Ok := by
  rw [put_core]
  split
  · exact hx
  · exact h d

theorem Core.Ok.goto (h : x.Ok) (hf : x.current = some f) (pc : Pc β) (monitor : Bool) :
    ({ x with monitor }.goto f pc).Ok :=
  ⟨fun _ => h.masked (by rw [hf]; exact Option.some_ne_none f), h.interrupted⟩

/-- A CPU does something outside of the critical section. -/
theorem Inv.put (h : Inv S s r₀) (hout : (s.core c).Outside) (hx : x.Ok) (hin : x.Outside)
    (hmark : x.monitor = true → x.pc = some .stxr → s.lock = 0) : Inv S (s.put c x) r₀ := by
  have hother : ∀ d, (s.core d).Outside → ((s.put c x).core d).Outside := by
    intro d hd
    rw [put_core]
    split
    · exact hin
    · exact hd
  refine ⟨cores_put h.cores hx, ?_⟩
  cases h.lock with
  | free lock out serial => exact .free lock (fun d => hother d (out d)) serial
  | held d f b ks r lock current pc others unmarked served serial steps =>
    have hne : d ≠ c := by
      rintro rfl
      exact hout b (pc ▸ pc_of_current current)
    refine .held d f b ks r lock ?_ pc (fun e he => hother e (others e he)) (fun e => ?_) served serial steps
    · rwa [put_core, if_neg hne]
    · rw [put_core]
      split
      · intro hm hpc
        rw [hmark hm hpc] at lock
        cases lock
      · exact unmarked e

/-- A CPU enters the critical section or is in it, and the marks of the others are gone. -/
theorem LockInv.hold {b : β} {ks : List κ} {r : ρ} (lock : s.lock = 1) (current : x.current = some f)
    (pc : f.pc = .held b) (others : ∀ d, d ≠ c → (s.core d).Outside)
    (unmarked : ∀ d, d ≠ c → (s.core d).monitor = true → (s.core d).pc ≠ some .stxr) (served : s.served = ks ++ [f.call])
    (serial : Serial S r₀ ks r) (steps : S.Steps (S.enter f.call, r) (b, s.data)) : LockInv S (s.put c x) r₀ := by
  refine .held c f b ks r lock ?_ pc (fun d hd => ?_) (fun d => ?_) served serial steps
  · rwa [put_core, if_pos rfl]
  · rw [put_core, if_neg hd]
    exact others d hd
  · rw [put_core]
    split
    · simp [pc_of_current current, pc]
    · rename_i hd
      exact unmarked d hd

/-- The exclusive store succeeds: nobody holds the lock, since the store of a holder would have cleared the monitor. -/
theorem Inv.acquire (h : Inv S s r₀) (hf : (s.core c).current = some f) (hpc : f.pc = .stxr)
    (hmon : (s.core c).monitor = true) :
    Inv S ({ s.store c 1 with served := s.served ++ [f.call] }.put c
      ({ s.core c with monitor := false }.goto f (.held (S.enter f.call)))) r₀ := by
  refine ⟨cores_put (fun d => ⟨(h.cores d).masked, (h.cores d).interrupted⟩) ((h.cores c).goto hf _ _), ?_⟩
  cases h.lock with
  | held d f' b ks r lock current pc others unmarked =>
    exact absurd (hpc ▸ pc_of_current hf) (unmarked c hmon)
  | free lock out serial => exact .hold rfl rfl rfl (fun d _ => out d) (fun d hd => by simp [Sys.store, hd]) rfl serial .refl

/-- A statement of the critical section, or the store that releases the lock behind the last one. -/
theorem Inv.inside {b : β} (h : Inv S s r₀) (hf : (s.core c).current = some f) (hpc : f.pc = .held b) (ok : Bool) :
    Inv S (s.run S c f ok) r₀ := by
  have hin : (s.core c).pc = some (.held b) := hpc ▸ pc_of_current hf
  cases h.lock with
  | free lock out => exact absurd hin (out c b)
  | held d f' b' ks r lock current pc others unmarked served serial steps =>
    obtain rfl : c = d := by
      by_contra hne
      exact others c hne b hin
    obtain rfl : f = f' := Option.some.inj (hf.symm.trans current)
    obtain rfl : b = b' := Pc.held.inj (hpc.symm.trans pc)
    simp only [Sys.run, hpc]
    cases hstep : S.step b s.data with
    | some p =>
      exact ⟨cores_put h.cores ((h.cores c).goto hf _ _),
        .hold lock rfl rfl others (fun d _ => unmarked d) served serial (steps.tail hstep)⟩
    | none =>
      refine ⟨cores_put (fun d => ⟨(h.cores d).masked, (h.cores d).interrupted⟩)
        ⟨fun h => absurd rfl h, (h.cores c).interrupted⟩, .free rfl (fun d => ?_) ?_⟩
      · rw [put_core]
        split
        · simp [Core.Outside, Core.pc]
        · rename_i hd
          exact others d hd
      · change Serial S r₀ s.served s.data
        rw [served]
        exact .call serial steps hstep

theorem Inv.run (h : Inv S s r₀) (hf : (s.core c).current = some f) (ok : Bool) : Inv S (s.run S c f ok) r₀ := by
  have hpc' := pc_of_current hf
  have hgoto : ∀ {pc monitor}, (s.core c).Outside → (∀ b, pc ≠ .held b) → (pc = .stxr → s.lock = 0) →
      Inv S (s.put c ({ s.core c with monitor }.goto f pc)) r₀ := fun hout hpc hmark =>
    h.put hout ((h.cores c).goto hf _ _) (fun b hb => hpc b (Option.some.inj hb)) fun _ hs => hmark (Option.some.inj hs)
  cases hpc : f.pc with
  | held b => exact h.inside hf hpc ok
  | ldr =>
    simp only [Sys.run, hpc]
    exact hgoto (by simp [Core.Outside, hpc', hpc]) (by split <;> simp) (by split <;> simp)
  | ldaxr =>
    simp only [Sys.run, hpc]
    split
    · exact hgoto (by simp [Core.Outside, hpc', hpc]) (by simp) (by simp)
    · rename_i hl
      exact hgoto (by simp [Core.Outside, hpc', hpc]) (by simp) fun _ => not_not.1 hl
  | stxr =>
    simp only [Sys.run, hpc]
    split
    · rename_i hc
      exact h.acquire hf hpc (Bool.and_eq_true_iff.1 hc).2
    · exact hgoto (by simp [Core.Outside, hpc', hpc]) (by simp) (by simp)

theorem Inv.step {a : Act κ} (h : Inv S s r₀) (hs : s.step S c a = some s') : Inv S s' r₀ := by
  have hok := h.cores c
  cases hc : (s.core c).current with
  | some f =>
    -- interrupts are masked
    have hmasked := hok.masked (by rw [hc]; exact Option.some_ne_none f)
    cases a with
    | run ok =>
      simp only [Sys.step, hc, Option.some.injEq] at hs
      exact hs ▸ h.run hc ok
    | _ => simp [Sys.step, hc, hmasked] at hs
  | none =>
    have hput : ∀ {x}, x.Ok → (x.pc = none ∨ x.pc = some .ldr) → Inv S (s.put c x) r₀ := fun hx hpc =>
      h.put (by simp [Core.Outside, pc_of_none hc]) hx (by rcases hpc with hpc | hpc <;> simp [Core.Outside, hpc])
        (by rcases hpc with hpc | hpc <;> simp [hpc])
    cases a with
    | call k =>
      simp only [Sys.step, hc, Option.some.injEq] at hs
      exact hs ▸ hput ⟨fun _ => rfl, hok.interrupted⟩ (.inr rfl)
    | run ok => simp [Sys.step, hc] at hs
    | irq =>
      simp only [Sys.step, hc, Option.ite_none_left_eq_some, Option.some.injEq] at hs
      exact hs.2 ▸ hput ⟨fun h => absurd rfl h, List.forall_mem_cons.2 ⟨rfl, hok.interrupted⟩⟩ (.inl rfl)
    | eret =>
      simp only [Sys.step, hc] at hs
      split at hs
      · cases hs
      · rename_i f fs hi
        obtain ⟨rfl, hfs⟩ := List.forall_mem_cons.1 (hi ▸ hok.interrupted)
        exact Option.some.inj hs ▸ hput ⟨fun h => absurd rfl h, hfs⟩ (.inl rfl)
    | daif masked =>
      simp only [Sys.step, hc, Option.some.injEq] at hs
      exact hs ▸ hput ⟨fun h => absurd rfl h, hok.interrupted⟩ (.inl rfl)

theorem inv_of_reachable (h : (system S r₀).Reachable s) : Inv S s r₀ := by
  refine h.induction (P := fun s => Inv S s r₀) (fun s hs => ?_) fun s e s' _ hi hs => hi.step hs
  obtain ⟨hlock, rfl, hserved, hcores⟩ := hs
  refine ⟨fun c => ⟨fun h => absurd (hcores c).1 h, by simp [hcores]⟩, .free hlock (fun c => ?_) (hserved ▸ .nil)⟩
  simp [Core.Outside, pc_of_none (hcores c).1]

/-- In every interleaving, interrupted code has nothing to do with the lock, one CPU at most is in the critical section,
and when the lock is free the data are those of the calls made one after the other. -/
theorem spinlock_safe (h : (system S r₀).Reachable s) :
    (∀ c, ∀ f ∈ (s.core c).interrupted, f = none) ∧
    (∀ c d b b', (s.core c).pc = some (.held b) → (s.core d).pc = some (.held b') → c = d) ∧
    (s.lock = 0 ↔ ∀ c, (s.core c).Outside) ∧ (s.lock = 0 → Serial S r₀ s.served s.data) := by
  have hinv := inv_of_reachable h
  refine ⟨fun c => (hinv.cores c).interrupted, ?_⟩
  cases hinv.lock with
  | free lock out serial => exact ⟨fun c _ b _ hb => absurd hb (out c b), iff_of_true lock out, fun _ => serial⟩
  | held c f b ks r lock current pc others =>
    have hne : ¬ s.lock = 0 := by rw [lock]; decide
    have honly : ∀ d b', (s.core d).pc = some (.held b') → d = c := by
      intro d b' hd
      by_contra hdc
      exact others d hdc b' hd
    exact ⟨fun d e b' b'' hd he => (honly d b' hd).trans (honly e b'' he).symm,
      iff_of_false hne fun hout => hout c b (pc ▸ pc_of_current current), fun h => absurd h hne⟩

def countUp : Section Nat Nat Nat := ⟨id, fun n r => if n = 0 then none else some (n - 1, r + 1)⟩

theorem reachable_of_replay {l : List (ι × Act κ)} {tr : List (Trans.Step (Sys ι κ β ρ) (ι × Act κ))}
    (h : Trans.System.replay (fun s e => Sys.step S s e.1 e.2) l [] ⟨0, fun _ => ⟨false, false, none, []⟩, r₀, []⟩ =
      some (tr, s)) : (system S r₀).Reachable s :=
  ⟨tr, .replay (fun _ _ _ h => h) (.nil ⟨rfl, rfl, rfl, fun _ => ⟨rfl, rfl⟩⟩) h⟩

/-- CPU 0 counts, while the handler of an interrupt on CPU 1 waits. -/
theorem spinlock_safe_countUp : ∃ s : Sys (Fin 2) Nat Nat Nat, s.data = 1 ∧
    (∀ c, ∀ f ∈ (s.core c).interrupted, f = none) ∧
    (∀ c d b b', (s.core c).pc = some (.held b) → (s.core d).pc = some (.held b') → c = d) ∧
    (s.lock = 0 ↔ ∀ c, (s.core c).Outside) ∧ (s.lock = 0 → Serial countUp 0 s.served s.data) :=
  ⟨_, rfl, spinlock_safe (reachable_of_replay
    (l := [(1, .irq), (0, .call 2), (1, .call 3), (0, .run true), (0, .run true), (0, .run true), (0, .run true)]) rfl)⟩

end QuestOS.Spinlock
