import Mathlib.Order.MinMax
import Mathlib.Data.Nat.Notation

/-!
# Sweeping two sequences of intervals

Two ascending sequences of half-open intervals are intersected by moving one index in each.  The cells, one
for each pair of indices, are the intersections; a sweep takes some of them one after the other and passes over
empty ones only.  `Sweeps later P l` says that `l` is what a sweep takes from the cells `P`, where a cell that is
taken later stands in the relation `later` to the ones before.

Whatever the direction, the taken cells cover what `P` covers (`Sweeps.inside_iff`), and an order on the index pairs
gives an order on the list (`Sweeps.pairwise`).
-/

namespace Sweep

variable {α : Type*} [LinearOrder α]

def Ascending (I : ℕ → α × α) (n : ℕ) : Prop := ∀ i j, i < j → j < n → (I i).2 ≤ (I j).1

def Inside (r : α × α) (x : α) : Prop := r.1 ≤ x ∧ x < r.2

def cell (A G : ℕ → α × α) (p : ℕ × ℕ) : α × α := (max (A p.1).1 (G p.2).1, min (A p.1).2 (G p.2).2)

def Box (ia na ib nb : ℕ) (q : ℕ × ℕ) : Prop := (ia ≤ q.1 ∧ q.1 < na) ∧ ib ≤ q.2 ∧ q.2 < nb

def Down (p q : ℕ × ℕ) : Prop := q.1 ≤ p.1 ∧ q.2 ≤ p.2 ∧ q ≠ p

def Up (p q : ℕ × ℕ) : Prop := Down q p

section

variable (A G : ℕ → α × α)

structure Takes (later : ℕ × ℕ → ℕ × ℕ → Prop) (P P' : ℕ × ℕ → Prop) (r : α × α) (p : ℕ × ℕ) : Prop where
  mem : P p
  eq : r = cell A G p
  le : r.1 ≤ r.2
  rest : ∀ q, P' q → P q ∧ later p q
  all : ∀ q x, P q → Inside (cell A G q) x → q = p ∨ P' q

inductive Sweeps (later : ℕ × ℕ → ℕ × ℕ → Prop) : (ℕ × ℕ → Prop) → List (α × α) → Prop
  | done {P : ℕ × ℕ → Prop} (h : ∀ q x, P q → ¬ Inside (cell A G q) x) : Sweeps later P []
  | take {P P' : ℕ × ℕ → Prop} {r : α × α} {p : ℕ × ℕ} {l : List (α × α)} (h : Takes A G later P P' r p)
      (hl : Sweeps later P' l) : Sweeps later P (r :: l)

end

variable {A G : ℕ → α × α} {later : ℕ × ℕ → ℕ × ℕ → Prop} {P : ℕ × ℕ → Prop} {l : List (α × α)} {p q : ℕ × ℕ} {x : α}

theorem inside_cell : Inside (cell A G p) x ↔ Inside (A p.1) x ∧ Inside (G p.2) x := by
  simp only [Inside, cell, max_le_iff, lt_min_iff]
  exact and_and_and_comm

theorem not_inside_of_left (h : (A p.1).2 ≤ (G p.2).1) (x : α) : ¬ Inside (cell A G p) x := by
  rw [inside_cell]
  rintro ⟨h1, h2⟩
  exact absurd (h1.2.trans_le h) (not_lt.2 h2.1)

theorem not_inside_of_right (h : (G p.2).2 ≤ (A p.1).1) (x : α) : ¬ Inside (cell A G p) x := by
  rw [inside_cell]
  rintro ⟨h1, h2⟩
  exact absurd (h2.2.trans_le h) (not_lt.2 h1.1)

theorem cell_le_cell {n m : ℕ} (hA : Ascending A n) (hG : Ascending G m) (hn : p.1 < n) (hm : p.2 < m) (h : Down p q) :
    (cell A G q).2 ≤ (cell A G p).1 := by
  obtain ⟨h1, h2, hne⟩ := h
  rcases Nat.lt_or_ge q.1 p.1 with hlt | hge
  · exact (min_le_left _ _).trans ((hA q.1 p.1 hlt hn).trans (le_max_left _ _))
  · have heq : q.1 = p.1 := le_antisymm h1 hge
    have hlt : q.2 < p.2 := lt_of_le_of_ne h2 fun h => hne (Prod.ext heq h)
    exact (min_le_right _ _).trans ((hG q.2 p.2 hlt hm).trans (le_max_right _ _))

theorem Takes.mono {P' Q : ℕ × ℕ → Prop} {r : α × α} (h : Takes A G later P P' r p) (hsub : ∀ q, P q → Q q)
    (hempty : ∀ q x, Q q → Inside (cell A G q) x → P q) : Takes A G later Q P' r p where
  mem := hsub p h.mem
  eq := h.eq
  le := h.le
  rest := fun q hq => ⟨hsub q (h.rest q hq).1, (h.rest q hq).2⟩
  all := fun q x hq hx => h.all q x (hempty q x hq hx) hx

section Steps

variable {n m i j : ℕ} (hA : Ascending A n) (hG : Ascending G m) (hi : i < n) (hj : j < m)

include hG hj in
theorem takes_down_left (hle : (cell A G (i, j)).1 ≤ (cell A G (i, j)).2) (h : (G j).1 ≤ (A i).1) :
    Takes A G Down (Box 0 (i + 1) 0 (j + 1)) (Box 0 i 0 (j + 1)) (cell A G (i, j)) (i, j) := by
  refine ⟨⟨⟨Nat.zero_le i, Nat.lt_succ_self i⟩, Nat.zero_le j, Nat.lt_succ_self j⟩, rfl, hle, ?_, ?_⟩
  · rintro ⟨k, l⟩ ⟨⟨-, hk⟩, -, hl⟩
    simp only [Box, Down, ne_eq, Prod.mk.injEq] at *
    omega
  · rintro ⟨k, l⟩ x ⟨⟨-, hk⟩, -, hl⟩ hx
    dsimp only at hk hl
    rcases Nat.lt_or_ge k i with hki | hki
    · exact .inr ⟨⟨Nat.zero_le k, hki⟩, Nat.zero_le l, hl⟩
    · obtain rfl : k = i := by omega
      rcases Nat.lt_or_ge l j with hlj | hlj
      · exact absurd hx (not_inside_of_right (p := (k, l)) ((hG l j hlj hj).trans h) x)
      · exact .inl (Prod.ext rfl (by dsimp only; omega))

include hA hi in
theorem takes_down_right (hle : (cell A G (i, j)).1 ≤ (cell A G (i, j)).2) (h : (A i).1 ≤ (G j).1) :
    Takes A G Down (Box 0 (i + 1) 0 (j + 1)) (Box 0 (i + 1) 0 j) (cell A G (i, j)) (i, j) := by
  refine ⟨⟨⟨Nat.zero_le i, Nat.lt_succ_self i⟩, Nat.zero_le j, Nat.lt_succ_self j⟩, rfl, hle, ?_, ?_⟩
  · rintro ⟨k, l⟩ ⟨⟨-, hk⟩, -, hl⟩
    simp only [Box, Down, ne_eq, Prod.mk.injEq] at *
    omega
  · rintro ⟨k, l⟩ x ⟨⟨-, hk⟩, -, hl⟩ hx
    dsimp only at hk hl
    rcases Nat.lt_or_ge l j with hlj | hlj
    · exact .inr ⟨⟨Nat.zero_le k, hk⟩, Nat.zero_le l, hlj⟩
    · obtain rfl : l = j := by omega
      rcases Nat.lt_or_ge k i with hki | hki
      · exact absurd hx (not_inside_of_left (p := (k, l)) ((hA k i hki hi).trans h) x)
      · exact .inl (Prod.ext (by dsimp only; omega) rfl)

include hG hi hj in
theorem takes_up_left (hle : (cell A G (i, j)).1 ≤ (cell A G (i, j)).2) (h : (A i).2 ≤ (G j).2) :
    Takes A G Up (Box i n j m) (Box (i + 1) n j m) (cell A G (i, j)) (i, j) := by
  refine ⟨⟨⟨Nat.le_refl i, hi⟩, Nat.le_refl j, hj⟩, rfl, hle, ?_, ?_⟩
  · rintro ⟨k, l⟩ ⟨⟨hk, hk'⟩, hl, hl'⟩
    simp only [Box, Up, Down, ne_eq, Prod.mk.injEq] at *
    omega
  · rintro ⟨k, l⟩ x ⟨⟨hk, hk'⟩, hl, hl'⟩ hx
    dsimp only at hk hl
    rcases Nat.lt_or_ge i k with hki | hki
    · exact .inr ⟨⟨hki, hk'⟩, hl, hl'⟩
    · obtain rfl : k = i := by omega
      rcases Nat.lt_or_ge j l with hlj | hlj
      · exact absurd hx (not_inside_of_left (p := (k, l)) (h.trans (hG j l hlj hl')) x)
      · exact .inl (Prod.ext rfl (by dsimp only; omega))

include hA hi hj in
theorem takes_up_right (hle : (cell A G (i, j)).1 ≤ (cell A G (i, j)).2) (h : (G j).2 ≤ (A i).2) :
    Takes A G Up (Box i n j m) (Box i n (j + 1) m) (cell A G (i, j)) (i, j) := by
  refine ⟨⟨⟨Nat.le_refl i, hi⟩, Nat.le_refl j, hj⟩, rfl, hle, ?_, ?_⟩
  · rintro ⟨k, l⟩ ⟨⟨hk, hk'⟩, hl, hl'⟩
    simp only [Box, Up, Down, ne_eq, Prod.mk.injEq] at *
    omega
  · rintro ⟨k, l⟩ x ⟨⟨hk, hk'⟩, hl, hl'⟩ hx
    dsimp only at hk hl
    rcases Nat.lt_or_ge j l with hlj | hlj
    · exact .inr ⟨⟨hk, hk'⟩, hlj, hl'⟩
    · obtain rfl : l = j := by omega
      rcases Nat.lt_or_ge i k with hki | hki
      · exact absurd hx (not_inside_of_right (p := (k, l)) (h.trans (hA i k hki hk')) x)
      · exact .inl (Prod.ext (by dsimp only; omega) rfl)

end Steps

theorem Sweeps.mem (h : Sweeps A G later P l) {r : α × α} (hr : r ∈ l) : (∃ p, P p ∧ r = cell A G p) ∧ r.1 ≤ r.2 := by
  induction h with
  | done => exact absurd hr List.not_mem_nil
  | take ht _ ih =>
    rcases List.mem_cons.1 hr with rfl | hr
    · exact ⟨⟨_, ht.mem, ht.eq⟩, ht.le⟩
    · obtain ⟨⟨q, hq, hrq⟩, hle⟩ := ih hr
      exact ⟨⟨q, (ht.rest q hq).1, hrq⟩, hle⟩

theorem Sweeps.pairwise (h : Sweeps A G later P l) {R : α × α → α × α → Prop}
    (hR : ∀ p q, P p → P q → later p q → R (cell A G p) (cell A G q)) : l.Pairwise R := by
  induction h with
  | done => exact List.Pairwise.nil
  | take ht hl ih =>
    refine List.Pairwise.cons (fun r hr => ?_) (ih fun p q hp hq => hR p q (ht.rest p hp).1 (ht.rest q hq).1)
    obtain ⟨⟨q, hq, rfl⟩, -⟩ := hl.mem hr
    rw [ht.eq]
    exact hR _ q ht.mem (ht.rest q hq).1 (ht.rest q hq).2

theorem Sweeps.inside_iff (h : Sweeps A G later P l) :
    (∃ r ∈ l, Inside r x) ↔ ∃ p, P p ∧ Inside (cell A G p) x := by
  constructor
  · rintro ⟨r, hr, hx⟩
    obtain ⟨⟨p, hp, rfl⟩, -⟩ := h.mem hr
    exact ⟨p, hp, hx⟩
  · rintro ⟨p, hp, hx⟩
    induction h with
    | done hnone => exact absurd hx (hnone p x hp)
    | @take P P' r p' l ht _ ih =>
      rcases ht.all p x hp hx with rfl | hp'
      · exact ⟨r, List.mem_cons_self, ht.eq ▸ hx⟩
      · obtain ⟨s, hs, hsx⟩ := ih hp'
        exact ⟨s, List.mem_cons_of_mem _ hs, hsx⟩

end Sweep
