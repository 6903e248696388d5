import Mathlib.Algebra.Ring.Nat
import Mathlib.Data.List.Chain
import Mathlib.Order.Basic

/-!
# Sorted lists of tagged regions

A region is a half-open interval of natural numbers with a tag.  A list of non-empty regions in
ascending order that do not overlap is a finite partial map from addresses to tags, `lookup`; the
operations of an allocator on such a list are stated by what they do to that map.

`SortedFrom b l` says that `l` is such a list and starts at or above `b`; it follows the recursion of
the list, so that the proofs about list functions go by induction on it.
-/

namespace Regions

variable {α : Type*}

structure Region (α : Type*) where
  base : Nat
  size : Nat
  tag : α
  deriving DecidableEq, Repr

def Region.fin (r : Region α) : Nat := r.base + r.size

@[simp] theorem Region.fin_mk (b n : Nat) (t : α) : (Region.mk b n t).fin = b + n := rfl

def SortedFrom : Nat → List (Region α) → Prop
  | _, [] => True
  | b, r :: l => b ≤ r.base ∧ 0 < r.size ∧ SortedFrom r.fin l

instance SortedFrom.decidable : (b : Nat) → (l : List (Region α)) → Decidable (SortedFrom b l)
  | _, [] => .isTrue trivial
  | b, r :: l =>
    have := SortedFrom.decidable r.fin l
    inferInstanceAs (Decidable (b ≤ r.base ∧ 0 < r.size ∧ SortedFrom r.fin l))

def lookup : List (Region α) → Nat → Option α
  | [], _ => none
  | r :: l, a => if r.base ≤ a ∧ a < r.fin then some r.tag else lookup l a

def finFrom : Nat → List (Region α) → Nat
  | b, [] => b
  | _, r :: l => finFrom r.fin l

variable {b b' a : Nat} {l l₁ l₂ : List (Region α)} {r s : Region α} {t : α}

@[simp] theorem sortedFrom_nil : SortedFrom b ([] : List (Region α)) := trivial

@[simp] theorem sortedFrom_cons :
    SortedFrom b (r :: l) ↔ b ≤ r.base ∧ 0 < r.size ∧ SortedFrom r.fin l := Iff.rfl

@[simp] theorem lookup_nil : lookup ([] : List (Region α)) a = none := rfl

theorem lookup_cons : lookup (r :: l) a = if r.base ≤ a ∧ a < r.fin then some r.tag else lookup l a := rfl

theorem lookup_mk {n : Nat} :
    lookup (⟨b, n, t⟩ :: l) a = if b ≤ a ∧ a < b + n then some t else lookup l a := rfl

theorem SortedFrom.mono (h : SortedFrom b l) (hb : b' ≤ b) : SortedFrom b' l := by
  cases l with
  | nil => trivial
  | cons r l => exact ⟨Nat.le_trans hb h.1, h.2⟩

theorem SortedFrom.le_base (h : SortedFrom b l) (hr : r ∈ l) : b ≤ r.base := by
  induction l generalizing b with
  | nil => cases hr
  | cons s l ih =>
    obtain ⟨h1, h2, h3⟩ := h
    rcases List.mem_cons.mp hr with rfl | hr
    · exact h1
    · have h4 : s.base + s.size ≤ r.base := ih h3 hr
      omega

theorem SortedFrom.size_pos (h : SortedFrom b l) (hr : r ∈ l) : 0 < r.size := by
  induction l generalizing b with
  | nil => cases hr
  | cons s l ih =>
    rcases List.mem_cons.mp hr with rfl | hr
    · exact h.2.1
    · exact ih h.2.2 hr

theorem SortedFrom.lookup_lt (h : SortedFrom b l) (ha : a < b) : lookup l a = none := by
  induction l generalizing b with
  | nil => rfl
  | cons r l ih =>
    obtain ⟨h1, h2, h3⟩ := h
    have hlt : a < r.fin := by
      simp only [Region.fin]
      omega
    rw [lookup_cons, if_neg (by omega)]
    exact ih h3 hlt

theorem lookup_append : lookup (l₁ ++ l₂) a = (lookup l₁ a).or (lookup l₂ a) := by
  induction l₁ with
  | nil => rfl
  | cons r l ih =>
    rw [List.cons_append, lookup_cons, lookup_cons]
    split
    · rfl
    · exact ih

theorem lookup_eq_none_iff : lookup l a = none ↔ ∀ r ∈ l, ¬ (r.base ≤ a ∧ a < r.fin) := by
  induction l with
  | nil => simp
  | cons r l ih =>
    rw [lookup_cons, List.forall_mem_cons]
    by_cases h : r.base ≤ a ∧ a < r.fin
    · rw [if_pos h]
      exact ⟨nofun, fun hn => absurd h hn.1⟩
    · rw [if_neg h, ih]
      exact ⟨fun hl => ⟨h, hl⟩, fun hl => hl.2⟩

theorem lookup_isSome_iff : (lookup l a).isSome ↔ ∃ r ∈ l, r.base ≤ a ∧ a < r.fin := by
  rw [← Option.ne_none_iff_isSome, Ne, lookup_eq_none_iff]
  simp only [not_forall, not_not, exists_prop]

theorem mem_of_lookup (h : lookup l a = some t) : ∃ r ∈ l, r.tag = t := by
  induction l with
  | nil => cases h
  | cons r l ih =>
    rw [lookup_cons] at h
    split at h
    · exact ⟨r, List.mem_cons_self, Option.some.inj h⟩
    · obtain ⟨s, hs, hst⟩ := ih h
      exact ⟨s, List.mem_cons_of_mem r hs, hst⟩

theorem finFrom_append : finFrom b (l₁ ++ l₂) = finFrom (finFrom b l₁) l₂ := by
  induction l₁ generalizing b with
  | nil => rfl
  | cons r l ih => exact ih

theorem finFrom_mono (h : b' ≤ b) : finFrom b' l ≤ finFrom b l := by
  cases l with
  | nil => exact h
  | cons r l => exact Nat.le_refl _

theorem sortedFrom_append :
    SortedFrom b (l₁ ++ l₂) ↔ SortedFrom b l₁ ∧ SortedFrom (finFrom b l₁) l₂ := by
  induction l₁ generalizing b with
  | nil => simp [finFrom]
  | cons r l ih =>
    simp only [List.cons_append, sortedFrom_cons, ih, finFrom]
    constructor
    · rintro ⟨h1, h2, h3, h4⟩
      exact ⟨⟨h1, h2, h3⟩, h4⟩
    · rintro ⟨⟨h1, h2, h3⟩, h4⟩
      exact ⟨h1, h2, h3, h4⟩

theorem SortedFrom.le_finFrom (h : SortedFrom b l) : b ≤ finFrom b l := by
  induction l generalizing b with
  | nil => exact Nat.le_refl b
  | cons r l ih =>
    have h1 := ih h.2.2
    have h2 := h.1
    simp only [finFrom, Region.fin] at *
    omega

theorem SortedFrom.fin_le_finFrom (h : SortedFrom b l) (hr : r ∈ l) : r.fin ≤ finFrom b l := by
  induction l generalizing b with
  | nil => cases hr
  | cons s l ih =>
    rcases List.mem_cons.mp hr with rfl | hr
    · exact h.2.2.le_finFrom
    · exact ih h.2.2 hr

theorem finFrom_le {m : Nat} (hb : b ≤ m) (h : ∀ r ∈ l, r.fin ≤ m) : finFrom b l ≤ m := by
  induction l generalizing b with
  | nil => exact hb
  | cons r l ih =>
    rw [List.forall_mem_cons] at h
    exact ih h.1 h.2

theorem SortedFrom.fin_le_base {i j : Nat} (h : SortedFrom b l) (hij : i < j) (hr : l[i]? = some r)
    (hs : l[j]? = some s) : r.fin ≤ s.base := by
  induction l generalizing b i j with
  | nil => simp at hr
  | cons x l ih =>
    obtain ⟨j, rfl⟩ : ∃ k, j = k + 1 := ⟨j - 1, by omega⟩
    rw [List.getElem?_cons_succ] at hs
    cases i with
    | zero =>
      obtain rfl : x = r := by simpa using hr
      exact h.2.2.le_base (List.mem_of_getElem? hs)
    | succ i =>
      rw [List.getElem?_cons_succ] at hr
      exact ih h.2.2 (by omega) hr hs

theorem SortedFrom.of_le_base (h : SortedFrom b l) (hb : ∀ r ∈ l, b' ≤ r.base) : SortedFrom b' l := by
  cases l with
  | nil => trivial
  | cons r l => exact ⟨hb r (by simp), h.2⟩

theorem SortedFrom.drop_middle {l₃ : List (Region α)} (h : SortedFrom b (l₁ ++ l₂ ++ l₃)) :
    SortedFrom b (l₁ ++ l₃) := by
  rw [sortedFrom_append, sortedFrom_append] at h
  obtain ⟨⟨h1, h2⟩, h3⟩ := h
  rw [sortedFrom_append]
  refine ⟨h1, h3.mono ?_⟩
  rw [finFrom_append]
  exact h2.le_finFrom

theorem lookup_split {m n : Nat} :
    lookup (⟨b, m, t⟩ :: ⟨b + m, n, t⟩ :: l) a = lookup (⟨b, m + n, t⟩ :: l) a := by
  rw [lookup_mk, lookup_mk, lookup_mk]
  by_cases h1 : b ≤ a ∧ a < b + m
  · rw [if_pos h1, if_pos (by omega)]
  · rw [if_neg h1]
    by_cases h2 : b + m ≤ a ∧ a < b + m + n
    · rw [if_pos h2, if_pos (by omega)]
    · rw [if_neg h2, if_neg (by omega)]

def sizeSum (l : List (Region α)) : Nat := (l.map Region.size).sum

@[simp] theorem sizeSum_nil : sizeSum ([] : List (Region α)) = 0 := rfl

@[simp] theorem sizeSum_cons : sizeSum (r :: l) = r.size + sizeSum l := by simp [sizeSum]

@[simp] theorem sizeSum_append : sizeSum (l₁ ++ l₂) = sizeSum l₁ + sizeSum l₂ := by simp [sizeSum]

/-! ### Minimal lists

A map has one list of regions in which no two neighbours could be one region. -/

def Touches (r s : Region α) : Prop := r.fin = s.base ∧ r.tag = s.tag

def Minimal (l : List (Region α)) : Prop := l.IsChain fun r s => ¬ Touches r s

def front (l : List (Region α)) : Option (Nat × α) := l.head?.map fun r => (r.base, r.tag)

theorem minimal_nil : Minimal ([] : List (Region α)) := .nil

theorem minimal_singleton (r : Region α) : Minimal [r] := .singleton r

theorem minimal_cons : Minimal (r :: l) ↔ front l ≠ some (r.fin, r.tag) ∧ Minimal l := by
  cases l with
  | nil => simp [front, minimal_nil, minimal_singleton]
  | cons s l =>
    simp only [Minimal, List.isChain_cons_cons, Touches, front, List.head?_cons, Option.map_some, ne_eq,
      Option.some.injEq, Prod.mk.injEq]
    rw [eq_comm (a := s.base), eq_comm (a := s.tag)]

theorem Minimal.take (h : Minimal l) (n : Nat) : Minimal (l.take n) := List.IsChain.take h n

theorem Minimal.suffix (h : Minimal l) (hs : l₁ <:+ l) : Minimal l₁ := List.IsChain.suffix h hs

theorem front_append_congr (l : List (Region α)) (h : front l₁ = front l₂) :
    front (l ++ l₁) = front (l ++ l₂) := by
  cases l with
  | nil => exact h
  | cons r l => rfl

/-- What follows `l` may be exchanged for a minimal list that looks the same from `l`. -/
theorem Minimal.append_congr (h : Minimal (l ++ l₁)) (hf : front l₂ = front l₁) (h₂ : Minimal l₂) :
    Minimal (l ++ l₂) := by
  induction l with
  | nil => exact h₂
  | cons r l ih =>
    rw [List.cons_append, minimal_cons] at h ⊢
    rw [front_append_congr l hf]
    exact ⟨h.1, ih h.2⟩

/-- In terms of the map: no region starts right after an address with its own tag. -/
theorem SortedFrom.minimal_iff (h : SortedFrom b l) :
    Minimal l ↔ ∀ s ∈ l, ∀ x, x + 1 = s.base → lookup l x ≠ some s.tag := by
  induction l generalizing b with
  | nil => simp [minimal_nil]
  | cons r l ih =>
    obtain ⟨-, hsize, hl⟩ := h
    have hfin : r.fin = r.base + r.size := rfl
    have hhead : ∀ x, x + 1 = r.base → lookup (r :: l) x = none := by
      intro x hx
      rw [lookup_cons, if_neg (by omega)]
      exact hl.lookup_lt (by omega)
    -- the region `r` decides the address before `s` exactly if `s` starts at its end
    have hrest : ∀ s ∈ l, ∀ x, x + 1 = s.base →
        lookup (r :: l) x = if s.base = r.fin then some r.tag else lookup l x := by
      intro s hs x hx
      have := hl.le_base hs
      rw [lookup_cons]
      by_cases hb : s.base = r.fin
      · rw [if_pos hb, if_pos (by omega)]
      · rw [if_neg hb, if_neg (by omega)]
    rw [minimal_cons, ih hl, List.forall_mem_cons]
    constructor
    · rintro ⟨hfront, hmin⟩
      refine ⟨fun x hx => by rw [hhead x hx]; nofun, fun s hs x hx => ?_⟩
      rw [hrest s hs x hx]
      split
      · rename_i hb
        -- only the first region of `l` can start at the end of `r`
        cases l with
        | nil => cases hs
        | cons s' l =>
          rcases List.mem_cons.mp hs with rfl | hs
          · intro ht
            refine hfront ?_
            simp only [front, List.head?_cons, Option.map_some, hb, Option.some.inj ht]
          · have h1 := hl.1
            have h2 := hl.2.1
            have h3 : s'.base + s'.size ≤ s.base := hl.2.2.le_base hs
            omega
      · exact hmin s hs x hx
    · rintro ⟨-, hall⟩
      constructor
      · cases l with
        | nil => simp [front]
        | cons s l =>
          intro hf
          simp only [front, List.head?_cons, Option.map_some, Option.some.injEq, Prod.mk.injEq] at hf
          have := hall s List.mem_cons_self (s.base - 1) (by omega)
          rw [hrest s List.mem_cons_self _ (by omega), if_pos hf.1, hf.2] at this
          exact this rfl
      · intro s hs x hx hl'
        have hne := hall s hs x hx
        rw [hrest s hs x hx] at hne
        split at hne
        · rename_i hb
          rw [hl.lookup_lt (by omega)] at hl'
          cases hl'
        · exact hne hl'

theorem SortedFrom.front_of_lookup (h : SortedFrom b l) (ht : lookup l b = some t) : front l = some (b, t) := by
  cases l with
  | nil => cases ht
  | cons r l =>
    obtain ⟨hb, hpos, hl⟩ := h
    rw [lookup_cons] at ht
    split at ht
    · rename_i hr
      cases ht
      rw [Nat.le_antisymm hb hr.1]
      rfl
    · have hfin : r.fin = r.base + r.size := rfl
      rw [hl.lookup_lt (by omega)] at ht
      cases ht

theorem SortedFrom.lookup_base (h : SortedFrom b (r :: l)) : lookup (r :: l) r.base = some r.tag := by
  rw [lookup_cons, if_pos ⟨Nat.le_refl _, Nat.lt_add_of_pos_right h.2.1⟩]

theorem SortedFrom.base_le (h : SortedFrom b (r :: l)) (h₁ : SortedFrom b (s :: l₁))
    (heq : ∀ x, lookup (r :: l) x = lookup (s :: l₁) x) : s.base ≤ r.base := by
  by_contra hlt
  have hs : SortedFrom s.base (s :: l₁) := ⟨Nat.le_refl _, h₁.2⟩
  cases (hs.lookup_lt (Nat.not_le.1 hlt)).symm.trans ((heq _).symm.trans h.lookup_base)

theorem Minimal.fin_le (hmin : Minimal (r :: l)) (h : SortedFrom b (r :: l))
    (heq : ∀ x, lookup (r :: l) x = lookup (s :: l₁) x) (hbase : r.base = s.base) (htag : r.tag = s.tag) :
    s.fin ≤ r.fin := by
  by_contra hlt
  have hs : lookup (s :: l₁) r.fin = some s.tag := if_pos ⟨hbase ▸ Nat.le_add_right _ _, Nat.not_le.1 hlt⟩
  rw [← heq, lookup_cons, if_neg (by omega), ← htag] at hs
  exact (minimal_cons.1 hmin).1 (h.2.2.front_of_lookup hs)

/-- A map has one sorted list without touching regions. -/
theorem SortedFrom.eq_of_lookup (h : SortedFrom b l) (h₁ : SortedFrom b l₁) (hmin : Minimal l) (hmin₁ : Minimal l₁)
    (heq : ∀ x, lookup l x = lookup l₁ x) : l = l₁ := by
  induction l generalizing b l₁ with
  | nil =>
    cases l₁ with
    | nil => rfl
    | cons s l₁ => cases (heq s.base).trans h₁.lookup_base
  | cons r l ih =>
    cases l₁ with
    | nil => cases (heq r.base).symm.trans h.lookup_base
    | cons s l₁ =>
      have hbase := Nat.le_antisymm (h₁.base_le h fun x => (heq x).symm) (h.base_le h₁ heq)
      have htag : r.tag = s.tag :=
        Option.some.inj (h.lookup_base.symm.trans ((heq _).trans (hbase ▸ h₁.lookup_base)))
      have hfin := Nat.le_antisymm (hmin₁.fin_le h₁ (fun x => (heq x).symm) hbase.symm htag.symm)
        (hmin.fin_le h heq hbase htag)
      obtain rfl : r = s := by
        cases r
        cases s
        cases hbase
        cases htag
        cases Nat.add_left_cancel hfin
        rfl
      refine congrArg _ (ih h.2.2 h₁.2.2 (minimal_cons.1 hmin).2 (minimal_cons.1 hmin₁).2 fun x => ?_)
      have hx := heq x
      rw [lookup_cons, lookup_cons] at hx
      split at hx
      · rename_i hr
        rw [h.2.2.lookup_lt hr.2, h₁.2.2.lookup_lt hr.2]
      · exact hx

end Regions
