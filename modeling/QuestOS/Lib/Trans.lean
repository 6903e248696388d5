import Mathlib.Logic.Relation

/-!
# Labelled transition systems and their runs

A system is a set of initial states and a labelled step relation.  A run is kept as its list of
steps, the latest step first, so that a property of a run can speak of what happened before a
step; `Reachable` forgets the steps.  `Reachable.induction` is the invariant rule: what holds
initially and is preserved by every step from a reachable state holds in every reachable state.
-/

namespace Trans

variable {σ ε : Type*}

structure System (σ ε : Type*) where
  init : σ → Prop
  step : σ → ε → σ → Prop

structure Step (σ ε : Type*) where
  pre : σ
  label : ε
  post : σ

namespace System

variable {S : System σ ε} {s s' : σ} {e : ε} {tr tr' : List (Step σ ε)}

/-- `S.Run tr s`: the steps `tr`, latest first, lead from some initial state to `s`. -/
inductive Run (S : System σ ε) : List (Step σ ε) → σ → Prop
  | nil {s : σ} : S.init s → Run S [] s
  | cons {tr : List (Step σ ε)} {s s' : σ} {e : ε} :
      Run S tr s → S.step s e s' → Run S (⟨s, e, s'⟩ :: tr) s'

def Reachable (S : System σ ε) (s : σ) : Prop := ∃ tr, S.Run tr s

theorem Run.next (h : S.Run tr s) (e : ε) (hs : S.step s e s') : S.Run (⟨s, e, s'⟩ :: tr) s' := .cons h hs

def replay (f : σ → ε → Option σ) : List ε → List (Step σ ε) → σ → Option (List (Step σ ε) × σ)
  | [], tr, s => some (tr, s)
  | e :: es, tr, s =>
    match f s e with
    | none => none
    | some s' => replay f es (⟨s, e, s'⟩ :: tr) s'

theorem Run.replay {f : σ → ε → Option σ} {l : List ε} (hf : ∀ s e s', f s e = some s' → S.step s e s')
    (h : S.Run tr s) (hr : System.replay f l tr s = some (tr', s')) : S.Run tr' s' := by
  induction l generalizing tr s with
  | nil =>
    cases hr
    exact h
  | cons e es ih =>
    simp only [System.replay] at hr
    split at hr
    · cases hr
    · rename_i t ht
      exact ih (h.next e (hf s e t ht)) hr

theorem Run.reachable (h : S.Run tr s) : S.Reachable s := ⟨tr, h⟩

theorem Reachable.of_init (h : S.init s) : S.Reachable s := ⟨[], .nil h⟩

theorem Reachable.step (h : S.Reachable s) (hs : S.step s e s') : S.Reachable s' := by
  obtain ⟨tr, h⟩ := h
  exact ⟨_, .cons h hs⟩

theorem Reachable.induction {P : σ → Prop} (hinit : ∀ s, S.init s → P s)
    (hstep : ∀ s e s', S.Reachable s → P s → S.step s e s' → P s')
    (h : S.Reachable s) : P s := by
  obtain ⟨tr, h⟩ := h
  induction h with
  | nil h => exact hinit _ h
  | cons h hs ih => exact hstep _ _ _ h.reachable ih hs

/-- A suffix of a run's steps is a run, and it ends where the step after it starts. -/
theorem Run.of_append {st : Step σ ε} (h : S.Run (tr' ++ st :: tr) s) :
    S.Run tr st.pre ∧ S.step st.pre st.label st.post := by
  induction tr' generalizing s with
  | nil =>
    cases h with
    | cons h hs => exact ⟨h, hs⟩
  | cons a tr' ih =>
    cases h with
    | cons h _ => exact ih h

theorem Run.mem_step {st : Step σ ε} (h : S.Run tr s) (hst : st ∈ tr) :
    S.Reachable st.pre ∧ S.step st.pre st.label st.post := by
  obtain ⟨l, r, rfl⟩ := List.append_of_mem hst
  exact ⟨h.of_append.1.reachable, h.of_append.2⟩

/-- What is stable under every step from a reachable state persists from a state of a run to every
later one. -/
theorem Run.stable {P : σ → Prop} {st : Step σ ε}
    (hstep : ∀ s e s', S.Reachable s → P s → S.step s e s' → P s')
    (h : S.Run (tr' ++ st :: tr) s) (hP : P st.post) : P s := by
  induction tr' generalizing s with
  | nil =>
    cases h with
    | cons _ _ => exact hP
  | cons a tr' ih =>
    cases h with
    | cons h hs => exact hstep _ _ _ h.reachable (ih h) hs

end System

end Trans
