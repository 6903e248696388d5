import Mathlib.Tactic.Common

/-!
# Climbing a chain with a partial map

A value is carried along a chain, from each element to the next one, by a map that may fail.  `climb` is the value
at the end; `Met` relates the start to every point on the way.
-/

namespace Climb

variable {α β : Type} {f : α → α → β → Option β} {path rest : List α} {a b : α} {x y : β}

def climb (f : α → α → β → Option β) : List α → β → Option β
  | a :: b :: rest, x => (f a b x).bind (climb f (b :: rest))
  | _, x => some x

inductive Met (f : α → α → β → Option β) (path : List α) (x : β) : List α → β → Prop
  | refl : Met f path x path x
  | step {a b : α} {rest : List α} {y z : β} : Met f path x (a :: b :: rest) y → f a b y = some z →
      Met f path x (b :: rest) z

variable {left : List α}

theorem Met.cons {z : β} (hf : f a b x = some y) (h : Met f (b :: rest) y left z) :
    Met f (a :: b :: rest) x left z := by
  induction h with
  | refl => exact .step .refl hf
  | step _ hg ih => exact .step ih hg

theorem Met.cases_cons {z : β} (h : Met f (a :: b :: rest) x left z) :
    (left = a :: b :: rest ∧ z = x) ∨ ∃ y, f a b x = some y ∧ Met f (b :: rest) y left z := by
  induction h with
  | refl => exact .inl ⟨rfl, rfl⟩
  | step _ hg ih =>
    refine .inr ?_
    rcases ih with ⟨heq, rfl⟩ | ⟨y, hf, hmet⟩
    · cases heq
      exact ⟨_, hg, .refl⟩
    · exact ⟨y, hf, .step hmet hg⟩

theorem Met.of_singleton {z : β} (h : Met f [a] x left z) : left = [a] ∧ z = x := by
  induction h with
  | refl => exact ⟨rfl, rfl⟩
  | step _ _ ih => cases ih.1

theorem met_of_climb (h : climb f (a :: rest) x = some y) : ∃ b, Met f (a :: rest) x [b] y := by
  induction rest generalizing a x with
  | nil =>
    cases h
    exact ⟨a, .refl⟩
  | cons b rest ih =>
    obtain ⟨z, hf, hz⟩ := Option.bind_eq_some_iff.mp h
    obtain ⟨c, hmet⟩ := ih hz
    exact ⟨c, hmet.cons hf⟩

theorem climb_eq_none_iff : climb f (a :: rest) x = none ↔
    ∃ b c left y, Met f (a :: rest) x (b :: c :: left) y ∧ f b c y = none := by
  induction rest generalizing a x with
  | nil =>
    constructor
    · intro h
      cases h
    · rintro ⟨b, c, left, y, hmet, -⟩
      cases hmet.of_singleton.1
  | cons d rest ih =>
    rw [climb, Option.bind_eq_none_iff]
    constructor
    · intro h
      cases hf : f a d x with
      | none => exact ⟨a, d, rest, x, .refl, hf⟩
      | some z =>
        obtain ⟨b, c, left, y, hmet, hnone⟩ := ih.mp (h z hf)
        exact ⟨b, c, left, y, hmet.cons hf, hnone⟩
    · rintro ⟨b, c, left, y, hmet, hnone⟩ z hz
      rcases hmet.cases_cons with ⟨heq, rfl⟩ | ⟨z', hz', hmet⟩
      · cases heq
        rw [hz] at hnone
        cases hnone
      · obtain rfl : z = z' := Option.some.inj (hz.symm.trans hz')
        exact ih.mpr ⟨b, c, left, y, hmet, hnone⟩

theorem Met.suffix (h : Met f path x left y) : left <:+ path := by
  induction h with
  | refl => exact List.suffix_rfl
  | step _ _ ih => exact (List.suffix_cons _ _).trans ih

theorem climb_congr {g : α → α → β → Option β} {R : α → α → Prop} (hR : path.IsChain R)
    (heq : ∀ a b x, R a b → f a b x = g a b x) : climb f path x = climb g path x := by
  induction path generalizing x with
  | nil => rfl
  | cons a rest ih =>
    cases rest with
    | nil => rfl
    | cons b rest =>
      obtain ⟨hab, hrest⟩ := List.isChain_cons_cons.mp hR
      rw [climb, climb, heq a b x hab]
      cases g a b x with
      | none => rfl
      | some y => exact ih hrest

end Climb
