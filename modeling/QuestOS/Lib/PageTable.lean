import Mathlib.Tactic.SplitIfs
import QuestOS.Lib.Bytes

/-!
# Page tables in memory

A table is a page of 512 entries of eight bytes.  Levels are numbered from the bottom: an entry of
level `k` covers `span k` bytes, level 0 holds pages, and levels 1 and 2 may hold blocks.  `walk` is
what the hardware does from a table of level `k`.

`Foot` is the set of pages that the tables below a table occupy and `Tree` says that no two of them
are the same.  A change below one entry leaves every walk through another entry alone
(`Tree.update`); `Maps` is the contract of a function that changes the translation of an address
range, and it composes along a table and up the levels.
-/

namespace PageTable

open Bytes

abbrev Entry := BitVec 64

def addrMask : BitVec 64 := 0x0000fffffffff000#64

def isValid (e : Entry) : Bool := e.getLsbD 0

def isTable (e : Entry) : Bool := e.getLsbD 0 && e.getLsbD 1

def outAddr (e : Entry) : Nat := (e &&& addrMask).toNat

def leafAttr (e : Entry) : BitVec 64 := e &&& ~~~(addrMask ||| 3#64)

def span (k : Nat) : Nat := 2 ^ (12 + 9 * k)

def index (k va : Nat) : Nat := va / span k % 512

def slot (m : Mem) (t i : Nat) : Entry := load64 m (t + 8 * i)

structure Leaf where
  pa : Nat
  attr : BitVec 64
  deriving DecidableEq, Repr

def leafOf (k : Nat) (e : Entry) (va : Nat) : Option Leaf :=
  if (if k = 0 then isTable e else isValid e && !isTable e && k ≤ 2) then
    some ⟨outAddr e / span k * span k + va % span k, leafAttr e⟩
  else none

def walk (m : Mem) : (k t va : Nat) → Option Leaf
  | 0, t, va => leafOf 0 (slot m t (index 0 va)) va
  | k + 1, t, va =>
    let e := slot m t (index (k + 1) va)
    if isTable e then walk m k (outAddr e) va else leafOf (k + 1) e va

def path (m : Mem) : (k t va : Nat) → List (Nat × Entry)
  | 0, t, va => [(t, slot m t (index 0 va))]
  | k + 1, t, va =>
    let e := slot m t (index (k + 1) va)
    (t, e) :: if isTable e then path m k (outAddr e) va else []

def Foot (m : Mem) : (k t p : Nat) → Prop
  | 0, t, p => p = t
  | k + 1, t, p => p = t ∨ ∃ i < 512, isTable (slot m t i) ∧ Foot m k (outAddr (slot m t i)) p

def Tree (m : Mem) : (k t : Nat) → Prop
  | 0, t => t % 4096 = 0
  | k + 1, t => t % 4096 = 0 ∧
      (∀ i < 512, isTable (slot m t i) →
        Tree m k (outAddr (slot m t i)) ∧ ¬ Foot m k (outAddr (slot m t i)) t) ∧
      ∀ i < 512, ∀ j < 512, i ≠ j → isTable (slot m t i) → isTable (slot m t j) →
        ∀ p, Foot m k (outAddr (slot m t i)) p → ¬ Foot m k (outAddr (slot m t j)) p

def pageOf (x : Nat) : Nat := x / 4096 * 4096

variable {m m' m₁ : Mem} {k t i j a b c va x y p : Nat} {e : Entry}

/-! ### Addresses -/

theorem span_pos (k : Nat) : 0 < span k := Nat.pow_pos (by decide)

theorem span_succ (k : Nat) : span (k + 1) = 512 * span k := by
  rw [span, span, Nat.mul_add, ← Nat.add_assoc, Nat.pow_add, Nat.mul_comm]

theorem span_zero : span 0 = 4096 := rfl

theorem div_span_succ (k x : Nat) : x / span (k + 1) = x / span k / 512 := by
  rw [span_succ, Nat.mul_comm, Nat.div_div_eq_div_mul]

theorem index_lt (k va : Nat) : index k va < 512 := Nat.mod_lt _ (by decide)

theorem div_span_of_index (hreg : x / span (k + 1) = a / span (k + 1)) (h : index k x = index k a) :
    x / span k = a / span k := by
  rw [div_span_succ, div_span_succ] at hreg
  unfold index at h
  omega

theorem region_of_div_span (h : x / span k = a / span k) : x / span (k + 1) = a / span (k + 1) := by
  rw [div_span_succ, div_span_succ, h]

theorem index_of_div_span (h : x / span k = a / span k) : index k x = index k a := by
  rw [index, index, h]

theorem mem_span_iff (ha : a % span k = 0) : a ≤ x ∧ x < a + span k ↔ x / span k = a / span k := by
  have h1 := Nat.div_add_mod x (span k)
  have h2 := Nat.mod_lt x (span_pos k)
  obtain ⟨q, rfl⟩ := Nat.dvd_of_mod_eq_zero ha
  rw [Nat.mul_div_cancel_left q (span_pos k)]
  constructor
  · rintro ⟨h3, h4⟩
    refine Nat.div_eq_of_lt_le ?_ ?_
    · rwa [Nat.mul_comm]
    · rw [Nat.mul_comm, Nat.mul_add, Nat.mul_one]
      exact h4
  · intro h3
    rw [h3] at h1
    omega

def spanStart (k x : Nat) : Nat := x / span k * span k

def spanEnd (k x : Nat) : Nat := spanStart k x + span k

theorem spanStart_le (k x : Nat) : spanStart k x ≤ x := Nat.div_mul_le_self x (span k)

theorem lt_spanEnd (k x : Nat) : x < spanEnd k x := by
  have h1 := Nat.div_add_mod x (span k)
  have h2 := Nat.mod_lt x (span_pos k)
  rw [Nat.mul_comm] at h1
  rw [spanEnd, spanStart]
  omega

theorem spanStart_mod (k x : Nat) : spanStart k x % span k = 0 := Nat.mul_mod_left _ _

theorem spanEnd_mod (k x : Nat) : spanEnd k x % span k = 0 := by
  rw [spanEnd, Nat.add_mod_right, spanStart_mod]

theorem spanStart_of_mod (h : x % span k = 0) : spanStart k x = x := Nat.div_mul_cancel (Nat.dvd_of_mod_eq_zero h)

theorem spanStart_eq_iff : spanStart k x = spanStart k y ↔ x / span k = y / span k := by
  rw [spanStart, spanStart, Nat.mul_left_inj (Nat.pos_iff_ne_zero.mp (span_pos k))]

theorem spanEnd_le_of_lt (hy : y % span k = 0) (h : spanStart k x < y) : spanEnd k x ≤ y := by
  obtain ⟨q, rfl⟩ := Nat.dvd_of_mod_eq_zero hy
  rw [spanStart, Nat.mul_comm] at h
  rw [spanEnd, spanStart, ← Nat.succ_mul, Nat.mul_comm]
  exact Nat.mul_le_mul_left _ (Nat.lt_of_mul_lt_mul_left h)

theorem spanStart_of_mem (h1 : spanStart k x ≤ y) (h2 : y < spanEnd k x) : y / span k = x / span k := by
  have h3 := (mem_span_iff (spanStart_mod k x)).mp ⟨h1, h2⟩
  rw [h3, spanStart, Nat.mul_div_cancel _ (span_pos k)]

theorem div_span_of_mem (h1 : x ≤ y) (h2 : y < spanEnd k x) : y / span k = x / span k :=
  spanStart_of_mem (Nat.le_trans (spanStart_le k x) h1) h2

theorem mod_span_of_succ (h : y % span (k + 1) = 0) : y % span k = 0 :=
  Nat.mod_eq_zero_of_dvd (Nat.dvd_trans ⟨512, by rw [span_succ, Nat.mul_comm]⟩ (Nat.dvd_of_mod_eq_zero h))

theorem spanEnd_le_succ (k x : Nat) : spanEnd k x ≤ spanEnd (k + 1) x := by
  refine spanEnd_le_of_lt (mod_span_of_succ (spanEnd_mod (k + 1) x)) ?_
  have h1 := spanStart_le k x
  have h2 := lt_spanEnd (k + 1) x
  omega

theorem spanEnd_le_add (k j x : Nat) : spanEnd k x ≤ spanEnd (j + k) x := by
  induction j with
  | zero => rw [Nat.zero_add]
  | succ j ih =>
    rw [Nat.succ_add]
    exact Nat.le_trans ih (spanEnd_le_succ (j + k) x)

theorem spanEnd_mono_left (k : Nat) (h : x ≤ y) : spanEnd k x ≤ spanEnd k y :=
  Nat.add_le_add_right (Nat.mul_le_mul_right _ (Nat.div_le_div_right h)) _

theorem two_pow_mod_span (hk : k ≤ 5) : 2 ^ 64 % span k = 0 :=
  Nat.mod_eq_zero_of_dvd (Nat.pow_dvd_pow 2 (by omega))

theorem spanEnd_le_two_pow (hk : k ≤ 5) (hx : x < 2 ^ 64) : spanEnd k x ≤ 2 ^ 64 := by
  refine spanEnd_le_of_lt (two_pow_mod_span hk) ?_
  have := spanStart_le k x
  omega

theorem spanEnd_congr (h : x / span k = y / span k) : spanEnd k x = spanEnd k y := by
  rw [spanEnd, spanEnd, spanStart_eq_iff.mpr h]

theorem span_le (hk : k ≤ 3) : span k ≤ 2 ^ 39 := Nat.pow_le_pow_right (by decide) (by omega)

theorem span_dvd (h : j ≤ k) : span j ∣ span k := Nat.pow_dvd_pow 2 (by omega)

theorem mod_span_of_le (h : j ≤ k) (hx : x % span k = 0) : x % span j = 0 :=
  Nat.mod_eq_zero_of_dvd (Nat.dvd_trans (span_dvd h) (Nat.dvd_of_mod_eq_zero hx))

theorem div_span_of_le (h : j ≤ k) (hx : x / span j = y / span j) : x / span k = y / span k := by
  obtain ⟨q, hq⟩ := span_dvd h
  rw [hq, ← Nat.div_div_eq_div_mul, ← Nat.div_div_eq_div_mul, hx]

theorem span_mono (h : j ≤ k) : span j ≤ span k := Nat.pow_le_pow_right (by decide) (by omega)

theorem spanEnd_le_sub (hk : k ≤ 5) (h : spanEnd k x < 2 ^ 64) : spanEnd k x ≤ 2 ^ 64 - span k := by
  have := spanEnd_le_of_lt (k := k) (x := spanEnd k x) (two_pow_mod_span hk)
    (by rw [spanStart_of_mod (spanEnd_mod k x)]; exact h)
  rw [spanEnd, spanStart_of_mod (spanEnd_mod k x)] at this
  omega

theorem spanEnd_mod_page (k x : Nat) : spanEnd k x % 4096 = 0 :=
  Nat.mod_eq_zero_of_dvd
    (Nat.dvd_trans (Nat.pow_dvd_pow 2 (m := 12) (by omega)) (Nat.dvd_of_mod_eq_zero (spanEnd_mod k x)))

theorem index_succ_le_iff {pe : Nat} (hva : va < pe) (hpe : pe ≤ spanEnd (k + 1) va) :
    index k va + 1 ≤ index k (pe - 1) ↔ spanEnd k va < pe := by
  have hreg : (pe - 1) / span (k + 1) = va / span (k + 1) := div_span_of_mem (by omega) (by omega)
  have hdiv : va / span k ≤ (pe - 1) / span k := Nat.div_le_div_right (by omega)
  have hiff : spanEnd k va < pe ↔ va / span k + 1 ≤ (pe - 1) / span k := by
    rw [Nat.le_div_iff_mul_le (span_pos k), Nat.add_mul, Nat.one_mul]
    change spanStart k va + span k < pe ↔ spanStart k va + span k ≤ pe - 1
    omega
  rw [hiff]
  rw [div_span_succ, div_span_succ] at hreg
  unfold index
  omega

theorem index_le_last {pe : Nat} (hva : va < pe) (hpe : pe ≤ spanEnd (k + 1) va) : index k va ≤ index k (pe - 1) := by
  have hreg : (pe - 1) / span (k + 1) = va / span (k + 1) := div_span_of_mem (by omega) (by omega)
  have hdiv : va / span k ≤ (pe - 1) / span k := Nat.div_le_div_right (by omega)
  rw [div_span_succ, div_span_succ] at hreg
  unfold index
  omega

theorem index_spanEnd {pe : Nat} (hva : spanEnd k va < pe) (hpe : pe ≤ spanEnd (k + 1) va) :
    index k (spanEnd k va) = index k va + 1 ∧ spanEnd k va / span (k + 1) = va / span (k + 1) := by
  have hlt := lt_spanEnd k va
  have hreg : spanEnd k va / span (k + 1) = va / span (k + 1) := div_span_of_mem (by omega) (by omega)
  refine ⟨?_, hreg⟩
  have hdiv : spanEnd k va / span k = va / span k + 1 := by
    rw [spanEnd, spanStart, ← Nat.succ_mul, Nat.mul_div_cancel _ (span_pos k)]
  rw [div_span_succ, div_span_succ, hdiv] at hreg
  unfold index
  rw [hdiv]
  omega

theorem pageOf_slot (ht : t % 4096 = 0) (hi : i < 512) (h1 : t + 8 * i ≤ x) (h2 : x < t + 8 * i + 8) :
    pageOf x = t := by
  unfold pageOf
  omega

theorem slot_congr (ht : t % 4096 = 0) (hi : i < 512) (h : ∀ x, pageOf x = t → m' x = m x) :
    slot m' t i = slot m t i :=
  load64_congr fun x h1 h2 => h x (pageOf_slot ht hi h1 h2)

/-! ### A tree in two memories -/

theorem Tree.aligned (h : Tree m k t) : t % 4096 = 0 := by
  cases k with
  | zero => exact h
  | succ k => exact h.1

theorem foot_self (m : Mem) (k t : Nat) : Foot m k t t := by
  cases k with
  | zero => rfl
  | succ k => exact .inl rfl

theorem Foot.child (hi : i < 512) (he : isTable (slot m t i)) (h : Foot m k (outAddr (slot m t i)) p) :
    Foot m (k + 1) t p := .inr ⟨i, hi, he, h⟩

theorem Tree.foot_aligned (ht : Tree m k t) (hp : Foot m k t p) : p % 4096 = 0 := by
  induction k generalizing t with
  | zero =>
    obtain rfl := hp
    exact ht
  | succ k ih =>
    rcases hp with rfl | ⟨i, hi, he, hp⟩
    · exact ht.1
    · exact ih (ht.2.1 i hi he).1 hp

theorem pageOf_of_aligned (h : p % 4096 = 0) : pageOf p = p := by
  unfold pageOf
  omega

theorem Tree.congr (ht : Tree m k t) (h : ∀ x, Foot m k t (pageOf x) → m' x = m x) :
    Tree m' k t ∧ (∀ p, Foot m' k t p ↔ Foot m k t p) ∧ ∀ va, path m' k t va = path m k t va := by
  induction k generalizing t with
  | zero =>
    refine ⟨ht, fun p => Iff.rfl, fun va => ?_⟩
    rw [path, path, slot_congr ht (index_lt 0 va) fun x hx => h x hx]
  | succ k ih =>
    obtain ⟨hal, hchild, hdisj⟩ := ht
    have hslot : ∀ i < 512, slot m' t i = slot m t i := fun i hi =>
      slot_congr hal hi fun x hx => h x (hx ▸ foot_self m (k + 1) t)
    have hsub := fun i hi he => ih (hchild i hi he).1 fun x hx => h x (Foot.child hi he hx)
    have hfoot : ∀ i < 512, isTable (slot m t i) → ∀ p,
        Foot m' k (outAddr (slot m t i)) p ↔ Foot m k (outAddr (slot m t i)) p :=
      fun i hi he => (hsub i hi he).2.1
    refine ⟨⟨hal, fun i hi he => ?_, fun i hi j hj hij hei hej p hp => ?_⟩, fun p => ?_, fun va => ?_⟩
    · rw [hslot i hi] at he ⊢
      rw [hfoot i hi he]
      exact ⟨(hsub i hi he).1, (hchild i hi he).2⟩
    · rw [hslot i hi] at hei hp
      rw [hslot j hj] at hej ⊢
      rw [hfoot j hj hej]
      exact hdisj i hi j hj hij hei hej p ((hfoot i hi hei p).mp hp)
    · refine or_congr_right (exists_congr fun i => and_congr_right fun hi => ?_)
      rw [hslot i hi]
      exact and_congr_right fun he => hfoot i hi he p
    · rw [path, path, hslot _ (index_lt (k + 1) va)]
      split
      · rename_i he
        rw [(hsub _ (index_lt (k + 1) va) he).2.2]
      · rfl

theorem foot_of_mem_path (h : p ∈ (path m k t va).map Prod.fst) : Foot m k t p := by
  induction k generalizing t with
  | zero =>
    rw [path, List.map_cons, List.map_nil, List.mem_singleton] at h
    exact h
  | succ k ih =>
    rw [path, List.map_cons, List.mem_cons] at h
    rcases h with h | h
    · exact .inl h
    · split at h
      · rename_i htab
        exact Foot.child (index_lt _ _) htab (ih h)
      · cases h

theorem walk_of_path {t' : Nat} (h : path m' k t' va = path m k t va) : walk m' k t' va = walk m k t va := by
  induction k generalizing t t' with
  | zero =>
    simp only [path, List.cons.injEq, Prod.mk.injEq, and_true] at h
    rw [walk, walk, h.2]
  | succ k ih =>
    simp only [path, List.cons.injEq, Prod.mk.injEq] at h
    obtain ⟨⟨-, he⟩, hrest⟩ := h
    rw [walk, walk, he]
    split
    · rename_i htab
      rw [he, if_pos htab, if_pos htab] at hrest
      exact ih hrest
    · rfl

/-- What is below entry `i` of a table changed, and nothing below the other entries did. -/
theorem Tree.update (ht : Tree m (k + 1) t) (hslot : ∀ j < 512, j ≠ i → slot m' t j = slot m t j)
    (hframe : ∀ j < 512, j ≠ i → isTable (slot m t j) → ∀ x,
      Foot m k (outAddr (slot m t j)) (pageOf x) → m' x = m x)
    (hnew : isTable (slot m' t i) → Tree m' k (outAddr (slot m' t i)) ∧
      ¬ Foot m' k (outAddr (slot m' t i)) t ∧
      ∀ j < 512, j ≠ i → isTable (slot m t j) → ∀ p, Foot m' k (outAddr (slot m' t i)) p →
        ¬ Foot m k (outAddr (slot m t j)) p) :
    Tree m' (k + 1) t ∧
      (∀ p, Foot m' (k + 1) t p → Foot m (k + 1) t p ∨
        isTable (slot m' t i) ∧ Foot m' k (outAddr (slot m' t i)) p) ∧
      ∀ va, index (k + 1) va ≠ i → path m' (k + 1) t va = path m (k + 1) t va := by
  obtain ⟨hal, hchild, hdisj⟩ := ht
  have hsub := fun j hj hji he => (hchild j hj he).1.congr (hframe j hj hji he)
  refine ⟨⟨hal, fun j hj he => ?_, fun j hj l hl hjl hej hel p hp => ?_⟩, fun p hp => ?_, fun va hva => ?_⟩
  · by_cases hji : j = i
    · subst hji
      exact ⟨(hnew he).1, (hnew he).2.1⟩
    · rw [hslot j hj hji] at he ⊢
      obtain ⟨h1, h2, -⟩ := hsub j hj hji he
      rw [h2]
      exact ⟨h1, (hchild j hj he).2⟩
  · by_cases hji : j = i
    · subst hji
      have hlj : l ≠ j := Ne.symm hjl
      rw [hslot l hl hlj] at hel ⊢
      rw [(hsub l hl hlj hel).2.1]
      exact (hnew hej).2.2 l hl hlj hel p hp
    · rw [hslot j hj hji] at hej hp
      rw [(hsub j hj hji hej).2.1] at hp
      by_cases hli : l = i
      · subst hli
        exact fun hp' => (hnew hel).2.2 j hj hji hej p hp' hp
      · rw [hslot l hl hli] at hel ⊢
        rw [(hsub l hl hli hel).2.1]
        exact hdisj j hj l hl hjl hej hel p hp
  · rcases hp with rfl | ⟨j, hj, he, hp⟩
    · exact .inl (foot_self m (k + 1) p)
    · by_cases hji : j = i
      · subst hji
        exact .inr ⟨he, hp⟩
      · rw [hslot j hj hji] at he hp
        exact .inl (Foot.child hj he (((hsub j hj hji he).2.1 p).mp hp))
  · have hidx := index_lt (k + 1) va
    rw [path, path, hslot _ hidx hva]
    split
    · rename_i he
      rw [(hsub _ hidx hva he).2.2]
    · rfl

/-! ### Changing the translation of a range -/

/-- From `m` to `m'` the addresses `[a, b)` below the table `t` of level `k` get the translation `f`,
and the others keep theirs, as far as `g` shows.  Memory changes in the tables and in the bytes
`fresh`, from which new tables are taken.  The entries above the range stay the same, and those below
it do except in a table of level 0, where a change may reach back as far as `g` does not show it. -/
structure Maps (g : Leaf → Leaf) (k t a b : Nat) (f : Nat → Option Leaf) (fresh : Nat → Prop)
    (m m' : Mem) : Prop where
  tree : Tree m' k t
  foot : ∀ p, Foot m' k t p → Foot m k t p ∨ ∀ x, pageOf x = p → fresh x
  frame : ∀ x, ¬ Foot m k t (pageOf x) → ¬ fresh x → m' x = m x
  walk : ∀ x, x / span (k + 1) = a / span (k + 1) →
    (walk m' k t x).map g = if a ≤ x ∧ x < b then f x else (walk m k t x).map g
  path : ∀ x, x / span (k + 1) = a / span (k + 1) →
    (k ≠ 0 ∧ x / span k < a / span k) ∨ b ≤ spanStart k x → path m' k t x = path m k t x

variable {g : Leaf → Leaf} {f : Nat → Option Leaf} {fresh fresh' : Nat → Prop}

theorem Maps.mono (h : Maps g k t a b f fresh m m') (hf : ∀ x, fresh x → fresh' x) :
    Maps g k t a b f fresh' m m' where
  tree := h.tree
  foot := fun p hp => (h.foot p hp).imp_right fun hx x hxp => hf x (hx x hxp)
  frame := fun x h1 h2 => h.frame x h1 (mt (hf x) h2)
  walk := h.walk
  path := h.path

theorem Maps.refl (ht : Tree m k t) (a : Nat) : Maps g k t a a f fresh m m where
  tree := ht
  foot := fun _ hp => .inl hp
  frame := fun _ _ _ => rfl
  walk := fun x _ => by rw [if_neg (by omega)]
  path := fun _ _ _ => rfl

theorem Maps.keep (ht : Tree m k t) (hf : ∀ x, a ≤ x → x < b → f x = (PageTable.walk m k t x).map g) :
    Maps g k t a b f fresh m m where
  tree := ht
  foot := fun _ hp => .inl hp
  frame := fun _ _ _ => rfl
  walk := fun x _ => by
    split
    · rename_i hx
      exact (hf x hx.1 hx.2).symm
    · rfl
  path := fun _ _ _ => rfl

theorem Maps.congr_leaf {f' : Nat → Option Leaf} (h : Maps g k t a b f fresh m m')
    (hf : ∀ x, a ≤ x → x < b → f' x = f x) : Maps g k t a b f' fresh m m' where
  tree := h.tree
  foot := h.foot
  frame := h.frame
  walk := fun x hx => by
    rw [h.walk x hx]
    split
    · rename_i h1
      exact (hf x h1.1 h1.2).symm
    · rfl
  path := h.path

theorem Maps.path_other (h : Maps g (k + 1) t a b f fresh m m') (hb : b ≤ spanEnd (k + 1) a)
    (hreg : x / span (k + 1 + 1) = a / span (k + 1 + 1)) (hne : x / span (k + 1) ≠ a / span (k + 1)) :
    PageTable.path m' (k + 1) t x = PageTable.path m (k + 1) t x := by
  refine h.path x hreg ?_
  rcases Nat.lt_or_gt_of_ne hne with hlt | hgt
  · exact .inl ⟨Nat.succ_ne_zero k, hlt⟩
  · refine .inr (Nat.le_trans hb (spanEnd_le_of_lt (spanStart_mod (k + 1) x) ?_))
    exact Nat.mul_lt_mul_of_pos_right hgt (span_pos (k + 1))

theorem Maps.trans (h : Maps g k t a b f fresh m m₁) (h' : Maps g k t b c f fresh m₁ m') (hab : a ≤ b)
    (hbc : b ≤ c) (hreg : b / span (k + 1) = a / span (k + 1)) :
    Maps g k t a c f fresh m m' where
  tree := h'.tree
  foot := fun p hp => (h'.foot p hp).elim (h.foot p) .inr
  frame := fun x h1 h2 => by
    have h3 : ¬ Foot m₁ k t (pageOf x) := fun h3 =>
      (h.foot _ h3).elim h1 fun h4 => h2 (h4 x rfl)
    rw [h'.frame x h3 h2, h.frame x h1 h2]
  walk := fun x hx => by
    rw [h'.walk x (hx.trans hreg.symm), h.walk x hx]
    by_cases h1 : b ≤ x ∧ x < c
    · rw [if_pos h1, if_pos (by omega)]
    · rw [if_neg h1]
      by_cases h2 : a ≤ x ∧ x < b
      · rw [if_pos h2, if_pos (by omega)]
      · rw [if_neg h2, if_neg (by omega)]
  path := fun x hx h1 => by
    have hdiv : a / span k ≤ b / span k := Nat.div_le_div_right hab
    rw [h'.path x (hx.trans hreg.symm) (by omega), h.path x hx (by omega)]

theorem Maps.of_slot (ht : Tree m (k + 1) t) (hi : i = index (k + 1) a) (hab : a < b)
    (hb : b ≤ spanEnd (k + 1) a)
    (hslot : ∀ j < 512, j ≠ i → slot m' t j = slot m t j)
    (hframe : ∀ x, pageOf x ≠ t → ¬ fresh x →
      (isTable (slot m t i) → ¬ Foot m k (outAddr (slot m t i)) (pageOf x)) → m' x = m x)
    (hfresh : ∀ x, fresh x → ¬ Foot m (k + 1) t (pageOf x))
    (hnew : isTable (slot m' t i) → Tree m' k (outAddr (slot m' t i)) ∧
      ∀ p, Foot m' k (outAddr (slot m' t i)) p →
        isTable (slot m t i) ∧ Foot m k (outAddr (slot m t i)) p ∨ ∀ x, pageOf x = p → fresh x)
    (hwalk : ∀ x, x / span (k + 1) = a / span (k + 1) →
      (PageTable.walk m' (k + 1) t x).map g =
        if a ≤ x ∧ x < b then f x else (PageTable.walk m (k + 1) t x).map g) :
    Maps g (k + 1) t a b f fresh m m' := by
  have hi512 : i < 512 := hi ▸ index_lt (k + 1) a
  obtain ⟨hal, hchild, hdisj⟩ := id ht
  -- a fresh page is none of the old ones
  have hnotfresh : ∀ p, p % 4096 = 0 → Foot m (k + 1) t p → ¬ ∀ x, pageOf x = p → fresh x := by
    intro p hp hfoot hall
    have hpp := pageOf_of_aligned hp
    refine hfresh p (hall p hpp) ?_
    rwa [hpp]
  have hframe' : ∀ j < 512, j ≠ i → isTable (slot m t j) → ∀ x,
      Foot m k (outAddr (slot m t j)) (pageOf x) → m' x = m x := by
    intro j hj hji he x hx
    refine hframe x (fun hxt => ?_) (fun hfx => hfresh x hfx (Foot.child hj he hx))
      fun hei => hdisj j hj i hi512 hji he hei _ hx
    rw [hxt] at hx
    exact (hchild j hj he).2 hx
  obtain ⟨htree, hfoot, hpath⟩ := ht.update hslot hframe' fun he => by
    obtain ⟨h1, h2⟩ := hnew he
    refine ⟨h1, fun h3 => ?_, fun j hj hji hej p hp hpj => ?_⟩
    · rcases h2 t h3 with ⟨h4, h5⟩ | h4
      · exact (hchild i hi512 h4).2 h5
      · exact hnotfresh t hal (foot_self m (k + 1) t) h4
    · rcases h2 p hp with ⟨h4, h5⟩ | h4
      · exact hdisj j hj i hi512 hji hej h4 p hpj h5
      · exact hnotfresh p (h1.foot_aligned hp) (Foot.child hj hej hpj) h4
  have hother : ∀ x, x / span (k + 1 + 1) = a / span (k + 1 + 1) → x / span (k + 1) ≠ a / span (k + 1) →
      PageTable.path m' (k + 1) t x = PageTable.path m (k + 1) t x := by
    intro x hreg hne
    refine hpath x fun hidx => hne (div_span_of_index hreg ?_)
    rw [hidx, hi]
  refine ⟨htree, fun p hp => ?_, fun x hx hfx => ?_, fun x hreg => ?_, fun x hreg hx => ?_⟩
  · rcases hfoot p hp with h1 | ⟨h1, h2⟩
    · exact .inl h1
    · exact ((hnew h1).2 p h2).imp_left fun h3 => Foot.child hi512 h3.1 h3.2
  · refine hframe x (fun h1 => hx ?_) hfx fun h1 h2 => hx (Foot.child hi512 h1 h2)
    rw [h1]
    exact foot_self m (k + 1) t
  · by_cases hslotx : x / span (k + 1) = a / span (k + 1)
    · exact hwalk x hslotx
    · have hout : ¬ (a ≤ x ∧ x < b) := by
        rintro ⟨h1, h2⟩
        have h3 := spanStart_le (k + 1) a
        exact hslotx (spanStart_of_mem (by omega) (by omega))
      rw [if_neg hout, walk_of_path (hother x hreg hslotx)]
  · refine hother x hreg fun heq => ?_
    rcases hx with hx | hx
    · omega
    · have := spanStart_le (k + 1) a
      rw [spanStart_eq_iff.mpr heq] at hx
      omega

/-! ### The ways to change an entry -/

theorem slot_store64 (m : Mem) (t i : Nat) (e : Entry) : slot (store64 m (t + 8 * i) e) t i = e :=
  load64_store64 m (t + 8 * i) e

theorem slot_store64_of_ne (h : j ≠ i) : slot (store64 m (t + 8 * i) e) t j = slot m t j :=
  load64_store64_of_disjoint (by omega)

theorem store64_slot_frame (ht : t % 4096 = 0) (hi : i < 512) (hx : pageOf x ≠ t) :
    store64 m (t + 8 * i) e x = m x :=
  store64_of_not fun h => hx (pageOf_slot ht hi h.1 h.2)

theorem walk_zero (m : Mem) (t va : Nat) : walk m 0 t va = leafOf 0 (slot m t (index 0 va)) va := rfl

theorem walk_of_not_table (h : isTable (slot m t (index (k + 1) va)) = false) :
    walk m (k + 1) t va = leafOf (k + 1) (slot m t (index (k + 1) va)) va := by
  rw [walk, h]
  rfl

theorem walk_of_table (h : isTable (slot m t (index (k + 1) va)) = true) :
    walk m (k + 1) t va = walk m k (outAddr (slot m t (index (k + 1) va))) va := by
  rw [walk, if_pos h]

theorem mod_span_congr (h : x % span (k + 1) = y % span (k + 1)) :
    x % span k = y % span k ∧ index k x = index k y := by
  have hmod : ∀ z, z % span (k + 1) % span k = z % span k := fun z =>
    Nat.mod_mod_of_dvd z ⟨512, by rw [span_succ, Nat.mul_comm]⟩
  have hidx : ∀ z, index k z = z % span (k + 1) / span k := fun z => by
    rw [span_succ, Nat.mul_comm, Nat.mod_mul_right_div_self]
    rfl
  rw [← hmod x, ← hmod y, hidx, hidx, h]
  exact ⟨rfl, rfl⟩

theorem leafOf_congr_mod (h : x % span k = y % span k) : leafOf k e x = leafOf k e y := by rw [leafOf, leafOf, h]

theorem walk_congr_mod (h : x % span (k + 1) = y % span (k + 1)) : walk m k t x = walk m k t y := by
  obtain ⟨hlow, hidx⟩ := mod_span_congr h
  induction k generalizing t with
  | zero => rw [walk, walk, hidx, leafOf_congr_mod hlow]
  | succ k ih =>
    obtain ⟨hlow', hidx'⟩ := mod_span_congr hlow
    rw [walk, walk, hidx, leafOf_congr_mod hlow, ih hlow hlow' hidx']

theorem isTable_of_not_valid (h : isValid e = false) : isTable e = false := by
  rw [isValid] at h
  rw [isTable, h]
  rfl

theorem walk_of_not_valid (h : isValid (slot m t (index k va)) = false) : walk m k t va = none := by
  have hnot := isTable_of_not_valid h
  cases k with
  | zero => simp [walk_zero, leafOf, hnot]
  | succ k => simp [walk_of_not_table hnot, leafOf, h]

theorem outAddr_lt (e : Entry) : outAddr e < 2 ^ 48 := by
  refine Nat.lt_of_le_of_lt (?_ : outAddr e ≤ addrMask.toNat) (by decide)
  rw [outAddr, BitVec.toNat_and]
  exact Nat.and_le_right

theorem outAddr_mod (e : Entry) : outAddr e % 4096 = 0 := by
  rw [outAddr, BitVec.toNat_and, show (4096 : Nat) = 2 ^ 12 from rfl, Nat.and_mod_two_pow,
    show addrMask.toNat % 2 ^ 12 = 0 by decide, Nat.and_zero]

theorem leafOf_pa_lt {l : Leaf} (h : leafOf k e x = some l) : l.pa < 2 ^ 48 := by
  by_cases hc : (if k = 0 then isTable e else isValid e && !isTable e && k ≤ 2) = true
  · have hk : k ≤ 2 := by
      by_cases h0 : k = 0
      · omega
      · simp only [if_neg h0, Bool.and_eq_true, decide_eq_true_eq] at hc
        exact hc.2
    obtain ⟨q, hq⟩ : span k ∣ 2 ^ 48 := Nat.pow_dvd_pow 2 (by omega)
    have hmod := Nat.mod_lt x (span_pos k)
    have hdiv : outAddr e / span k < q := Nat.div_lt_of_lt_mul (by rw [← hq]; exact outAddr_lt e)
    rw [leafOf, if_pos hc] at h
    cases h
    calc outAddr e / span k * span k + x % span k
      _ < outAddr e / span k * span k + span k := by omega
      _ = (outAddr e / span k + 1) * span k := by rw [Nat.succ_mul]
      _ ≤ q * span k := Nat.mul_le_mul_right _ hdiv
      _ = 2 ^ 48 := by rw [hq, Nat.mul_comm]
  · rw [leafOf, if_neg hc] at h
    cases h

theorem walk_pa_lt {l : Leaf} (h : walk m k t x = some l) : l.pa < 2 ^ 48 := by
  induction k generalizing t with
  | zero => exact leafOf_pa_lt h
  | succ k ih =>
    rw [walk] at h
    split at h
    · exact ih h
    · exact leafOf_pa_lt h

theorem Maps.page (ht : t % 4096 = 0) (ha : a % span 0 = 0)
    (hf : ∀ x, x / span 0 = a / span 0 → f x = (leafOf 0 e x).map g) :
    Maps g 0 t a (a + span 0) f fresh m (store64 m (t + 8 * index 0 a) e) where
  tree := ht
  foot := fun p hp => .inl hp
  frame := fun x hx _ => store64_slot_frame ht (index_lt 0 a) hx
  walk := fun x hreg => by
    rw [walk_zero]
    by_cases hx : x / span 0 = a / span 0
    · rw [if_pos ((mem_span_iff ha).mpr hx), hf x hx, index_of_div_span hx, slot_store64]
    · rw [if_neg (mt (mem_span_iff ha).mp hx), slot_store64_of_ne (mt (div_span_of_index hreg) hx), walk_zero]
  path := fun x hreg hx => by
    have hne : x / span 0 ≠ a / span 0 := by
      intro heq
      have h1 := span_pos 0
      have h2 := (mem_span_iff ha).mpr heq
      have h3 := spanStart_le 0 x
      omega
    rw [PageTable.path, PageTable.path, slot_store64_of_ne (mt (div_span_of_index hreg) hne)]

theorem Maps.block (ht : Tree m (k + 1) t) (ha : a % span (k + 1) = 0) (he : isTable e = false)
    (hf : ∀ x, x / span (k + 1) = a / span (k + 1) → f x = (leafOf (k + 1) e x).map g)
    (hfresh : ∀ x, fresh x → ¬ Foot m (k + 1) t (pageOf x)) :
    Maps g (k + 1) t a (a + span (k + 1)) f fresh m (store64 m (t + 8 * index (k + 1) a) e) := by
  have hidx := index_lt (k + 1) a
  have hpos := span_pos (k + 1)
  refine Maps.of_slot ht rfl (by omega) ?_ (fun j _ hj => slot_store64_of_ne hj)
    (fun x hx _ _ => store64_slot_frame ht.aligned hidx hx) hfresh (fun h => ?_) fun x hx => ?_
  · rw [spanEnd, spanStart_of_mod ha]
  · rw [slot_store64, he] at h
    cases h
  · rw [if_pos ((mem_span_iff ha).mpr hx), hf x hx]
    have hs : slot (store64 m (t + 8 * index (k + 1) a) e) t (index (k + 1) x) = e := by
      rw [index_of_div_span hx, slot_store64]
    rw [walk_of_not_table (by rw [hs]; exact he), hs]

theorem Maps.child (ht : Tree m (k + 1) t) (he : isTable (slot m t (index (k + 1) a)) = true) (hab : a < b)
    (hb : b ≤ spanEnd (k + 1) a)
    (hfresh : ∀ x, fresh x → ¬ Foot m (k + 1) t (pageOf x))
    (h : Maps g k (outAddr (slot m t (index (k + 1) a))) a b f fresh m m') :
    Maps g (k + 1) t a b f fresh m m' := by
  have hidx := index_lt (k + 1) a
  have hslot : ∀ j < 512, slot m' t j = slot m t j := fun j hj =>
    slot_congr ht.aligned hj fun x hx => h.frame x (by rw [hx]; exact (ht.2.1 _ hidx he).2) fun hfx =>
      hfresh x hfx (by rw [hx]; exact foot_self m (k + 1) t)
  refine Maps.of_slot ht rfl hab hb (fun j hj _ => hslot j hj) (fun x _ hx1 hx2 => h.frame x (hx2 he) hx1) hfresh
    (fun _ => ?_) fun x hx => ?_
  · rw [hslot _ hidx]
    exact ⟨h.tree, fun p hp => (h.foot p hp).imp_left fun h1 => ⟨he, h1⟩⟩
  · have hs := hslot _ hidx
    rw [← index_of_div_span hx] at he hs
    rw [walk_of_table (by rw [hs]; exact he), walk_of_table he, hs, index_of_div_span hx]
    exact h.walk x hx

theorem zero_table (hc : c % 4096 = 0) (hz : ∀ x, pageOf x = c → m x = 0) (k : Nat) :
    Tree m k c ∧ (∀ p, Foot m k c p ↔ p = c) ∧ ∀ va, walk m k c va = none := by
  have hslot : ∀ i < 512, slot m c i = 0 := fun i hi =>
    load64_zero fun x h1 h2 => hz x (pageOf_slot hc hi h1 h2)
  have hnot : ∀ i < 512, ¬ isTable (slot m c i) = true := by
    intro i hi
    rw [hslot i hi]
    decide
  cases k with
  | zero =>
    refine ⟨hc, fun p => Iff.rfl, fun va => ?_⟩
    exact walk_of_not_valid (by rw [hslot _ (index_lt 0 va)]; rfl)
  | succ k =>
    refine ⟨⟨hc, fun i hi he => absurd he (hnot i hi), fun i hi j hj _ he => absurd he (hnot i hi)⟩,
      fun p => ⟨?_, .inl⟩, fun va => ?_⟩
    · rintro (hp | ⟨i, hi, he, -⟩)
      · exact hp
      · exact absurd he (hnot i hi)
    · have hidx := index_lt (k + 1) va
      exact walk_of_not_valid (by rw [hslot _ hidx]; rfl)

theorem Maps.link (ht : Tree m (k + 1) t) (he : isValid (slot m t (index (k + 1) a)) = false) (hab : a < b)
    (hb : b ≤ spanEnd (k + 1) a)
    (hfresh : ∀ x, fresh x → ¬ Foot m (k + 1) t (pageOf x))
    (hslot₁ : ∀ j < 512, j ≠ index (k + 1) a → slot m₁ t j = slot m t j)
    (hnew : slot m₁ t (index (k + 1) a) = e) (hetab : isTable e = true)
    (hc : outAddr e % 4096 = 0) (hcfresh : ∀ x, pageOf x = outAddr e → fresh x)
    (hzero : ∀ x, pageOf x = outAddr e → m₁ x = 0)
    (hframe₁ : ∀ x, pageOf x ≠ t → ¬ fresh x → m₁ x = m x)
    (h : Maps g k (outAddr e) a b f fresh m₁ m') : Maps g (k + 1) t a b f fresh m m' := by
  have hidx := index_lt (k + 1) a
  obtain ⟨-, hfoot, hwalk⟩ := zero_table hc hzero k
  have hnotfresh : ∀ x, pageOf x = t → ¬ fresh x := fun x hx hfx =>
    hfresh x hfx (by rw [hx]; exact foot_self m (k + 1) t)
  have hct : outAddr e ≠ t := fun hct =>
    hnotfresh (outAddr e) (by rw [pageOf_of_aligned hc, hct]) (hcfresh _ (pageOf_of_aligned hc))
  have hslot : ∀ j < 512, slot m' t j = slot m₁ t j := fun j hj =>
    slot_congr ht.aligned hj fun x hx => h.frame x
      (by rw [hfoot, hx]; exact Ne.symm hct) (hnotfresh x hx)
  refine Maps.of_slot ht rfl hab hb (fun j hj hji => (hslot j hj).trans (hslot₁ j hj hji))
    (fun x hx1 hx2 _ => ?_) hfresh (fun _ => ?_) fun x hx => ?_
  · rw [h.frame x (by rw [hfoot]; exact fun hxc => hx2 (hcfresh x hxc)) hx2, hframe₁ x hx1 hx2]
  · rw [hslot _ hidx, hnew]
    refine ⟨h.tree, fun p hp => .inr ?_⟩
    rcases h.foot p hp with h1 | h1
    · rw [hfoot] at h1
      subst h1
      exact hcfresh
    · exact h1
  · have hs : slot m' t (index (k + 1) x) = e := by
      rw [index_of_div_span hx, hslot _ hidx, hnew]
    rw [walk_of_table (by rw [hs]; exact hetab), hs, h.walk x hx, hwalk,
      walk_of_not_valid (by rw [index_of_div_span hx]; exact he)]

/-! ### Tables without waste -/

def TidyEntry (ok : Entry → Prop) (m : Mem) (k : Nat) (below : Nat → Prop) (e : Entry) : Prop :=
  e = 0 ∨ (isTable e = false ∧ isValid e = true ∧ k + 1 ≤ 2) ∨
    (isTable e = true ∧ ok e ∧ below (outAddr e) ∧ ∃ x, walk m k (outAddr e) x ≠ none)

def Tidy (ok : Entry → Prop) (m : Mem) : (k t : Nat) → Prop
  | 0, _ => True
  | k + 1, t => ∀ i < 512, TidyEntry ok m k (Tidy ok m k) (slot m t i)

variable {ok : Entry → Prop}

theorem path_congr_mod (h : x % span (k + 1) = y % span (k + 1)) : path m k t x = path m k t y := by
  obtain ⟨hlow, hidx⟩ := mod_span_congr h
  induction k generalizing t with
  | zero => rw [path, path, hidx]
  | succ k ih =>
    obtain ⟨hlow', hidx'⟩ := mod_span_congr hlow
    rw [path, path, hidx, ih hlow hlow' hidx']

/-- An address below entry `i` of a table whose entries lie in the region of `a`, with the offset of `x`. -/
theorem exists_below (hi : i < 512) (a x : Nat) : ∃ y, y / span (k + 1) = a / span (k + 1) ∧ index k y = i ∧
    y % span k = x % span k := by
  have hpos := span_pos k
  have hx := Nat.mod_lt x hpos
  refine ⟨span k * (512 * (a / span (k + 1)) + i) + x % span k, ?_, ?_, ?_⟩
  · generalize a / span (k + 1) = q
    rw [span_succ, Nat.mul_comm 512 (span k), ← Nat.div_div_eq_div_mul, Nat.mul_add_div hpos, Nat.div_eq_of_lt hx,
      Nat.add_zero, Nat.mul_add_div (by decide), Nat.div_eq_of_lt hi, Nat.add_zero]
  · rw [index, Nat.mul_add_div hpos, Nat.div_eq_of_lt hx, Nat.add_zero, Nat.mul_add_mod, Nat.mod_eq_of_lt hi]
  · rw [Nat.mul_add_mod, Nat.mod_mod]

theorem exists_span_mod (x z : Nat) : ∃ y, y / span k = x / span k ∧ y % span k = z % span k := by
  have hpos := span_pos k
  have hz := Nat.mod_lt z hpos
  refine ⟨span k * (x / span k) + z % span k, ?_, ?_⟩
  · rw [Nat.mul_add_div hpos, Nat.div_eq_of_lt hz, Nat.add_zero]
  · rw [Nat.mul_add_mod, Nat.mod_mod]

theorem Tidy.of_path (h : Tidy ok m k t) (hpath : ∀ x, path m' k t x = path m k t x) : Tidy ok m' k t := by
  induction k generalizing t with
  | zero => trivial
  | succ k ih =>
    intro i hi
    have hentry : ∀ x, index (k + 1) x = i → slot m' t i = slot m t i ∧ (isTable (slot m t i) = true →
        path m' k (outAddr (slot m t i)) x = path m k (outAddr (slot m t i)) x) := by
      intro x hx
      have h1 := hpath x
      simp only [path, List.cons.injEq, Prod.mk.injEq, hx] at h1
      refine ⟨h1.1.2, fun htab => ?_⟩
      have h2 := h1.2
      rwa [h1.1.2, if_pos htab, if_pos htab] at h2
    obtain ⟨y, -, hy, -⟩ := exists_below (k := k + 1) hi 0 0
    rw [(hentry y hy).1]
    refine (h i hi).imp_right fun h1 => h1.imp_right fun ⟨htab, hok, htidy, x, hx⟩ => ?_
    have hsub : ∀ x, path m' k (outAddr (slot m t i)) x = path m k (outAddr (slot m t i)) x := by
      intro x
      obtain ⟨z, -, hz, hzx⟩ := exists_below (k := k + 1) hi 0 x
      rw [← path_congr_mod hzx, ← path_congr_mod hzx]
      exact (hentry z hz).2 htab
    exact ⟨htab, hok, ih htidy hsub, x, by rwa [walk_of_path (hsub x)]⟩

theorem tidy_zero (hc : c % 4096 = 0) (hz : ∀ x, pageOf x = c → m x = 0) (k : Nat) : Tidy ok m k c := by
  cases k with
  | zero => trivial
  | succ k => exact fun i hi => .inl (load64_zero fun x h1 h2 => hz x (pageOf_slot hc hi h1 h2))

theorem Maps.tidy (h : Maps g (k + 1) t a b f fresh m m') (hb : b ≤ spanEnd (k + 1) a) (ht : Tidy ok m (k + 1) t)
    (hnew : TidyEntry ok m' k (Tidy ok m' k) (slot m' t (index (k + 1) a))) : Tidy ok m' (k + 1) t := by
  intro i hi
  by_cases hia : i = index (k + 1) a
  · rw [hia]
    exact hnew
  · -- the paths below the other entries are the same
    have hentry : ∀ x, slot m' t i = slot m t i ∧ (isTable (slot m t i) = true →
        PageTable.path m' k (outAddr (slot m t i)) x = PageTable.path m k (outAddr (slot m t i)) x) := by
      intro x
      obtain ⟨y, hreg, hy, hmod⟩ := exists_below (k := k + 1) hi a x
      have hne : y / span (k + 1) ≠ a / span (k + 1) := fun heq => hia (by rw [← hy, index_of_div_span heq])
      have h1 := h.path_other hb hreg hne
      simp only [PageTable.path, List.cons.injEq, Prod.mk.injEq, hy] at h1
      refine ⟨h1.1.2, fun htab => ?_⟩
      have h2 := h1.2
      rw [h1.1.2, if_pos htab, if_pos htab] at h2
      rwa [← path_congr_mod hmod, ← path_congr_mod hmod]
    rw [(hentry 0).1]
    refine (ht i hi).imp_right fun h1 => h1.imp_right fun ⟨htab, hok, htidy, x, hx⟩ => ?_
    have hsub := fun x => (hentry x).2 htab
    exact ⟨htab, hok, htidy.of_path hsub, x, by rwa [walk_of_path (hsub x)]⟩

/-! ### Descriptors -/

theorem addrMask_bit : ∀ i < 64, addrMask.getLsbD i = (decide (12 ≤ i) && decide (i < 48)) := by decide

theorem type_bit : ∀ i < 64, (3#64).getLsbD i = decide (i < 2) := by decide

theorem testBit_addr {pa i : Nat} (h1 : pa % 4096 = 0) (h2 : pa < 2 ^ 48) (hi : i < 12 ∨ 48 ≤ i) :
    pa.testBit i = false := by
  rcases hi with hi | hi
  · have h := Nat.testBit_mod_two_pow pa 12 i
    rw [show (2 : Nat) ^ 12 = 4096 from rfl, h1, Nat.zero_testBit, decide_eq_true hi, Bool.true_and] at h
    exact h.symm
  · exact Nat.testBit_lt_two_pow (Nat.lt_of_lt_of_le h2 (Nat.pow_le_pow_right (by decide) hi))

def desc (pa : Nat) (attr type : BitVec 64) : Entry := BitVec.ofNat 64 pa ||| attr ||| type

structure Fields (pa : Nat) (attr type : BitVec 64) : Prop where
  aligned : pa % 4096 = 0
  lt : pa < 2 ^ 48
  attr : attr &&& (addrMask ||| 3#64) = 0
  type : type &&& 3#64 = type

variable {pa : Nat} {attr type : BitVec 64}

theorem Fields.attr_bit (h : Fields pa attr type) {i : Nat} (hi : i < 64) (h' : i < 2 ∨ 12 ≤ i ∧ i < 48) :
    attr.getLsbD i = false := by
  have hb := congrArg (fun w => BitVec.getLsbD w i) h.attr
  simp only [BitVec.getLsbD_and, BitVec.getLsbD_or, addrMask_bit i hi, type_bit i hi] at hb
  cases ha : attr.getLsbD i with
  | false => rfl
  | true =>
    rw [ha] at hb
    rcases h' with h' | h' <;> simp [h'] at hb

theorem Fields.type_bit (h : Fields pa attr type) {i : Nat} (hi : i < 64) (h' : 2 ≤ i) : type.getLsbD i = false := by
  rw [← h.type, BitVec.getLsbD_and, PageTable.type_bit i hi, decide_eq_false (by omega), Bool.and_false]

theorem Fields.outAddr (h : Fields pa attr type) : outAddr (desc pa attr type) = pa := by
  have hword : desc pa attr type &&& addrMask = BitVec.ofNat 64 pa := by
    apply BitVec.eq_of_getLsbD_eq
    intro i hi
    simp only [desc, BitVec.getLsbD_and, BitVec.getLsbD_or, BitVec.getLsbD_ofNat, addrMask_bit i hi, decide_eq_true hi,
      Bool.true_and]
    by_cases hm : 12 ≤ i ∧ i < 48
    · rw [h.attr_bit hi (.inr hm), h.type_bit hi (by omega)]
      simp [hm]
    · have hbit : pa.testBit i = false := testBit_addr h.aligned h.lt (by omega)
      rw [hbit]
      by_cases h12 : 12 ≤ i
      · simp [h12]
        omega
      · simp [h12]
  rw [PageTable.outAddr, hword, BitVec.toNat_ofNat, Nat.mod_eq_of_lt (Nat.lt_trans h.lt (by decide))]

theorem Fields.leafAttr (h : Fields pa attr type) : leafAttr (desc pa attr type) = attr := by
  apply BitVec.eq_of_getLsbD_eq
  intro i hi
  simp only [PageTable.leafAttr, desc, BitVec.getLsbD_and, BitVec.getLsbD_or, BitVec.getLsbD_ofNat, BitVec.getLsbD_not,
    addrMask_bit i hi, PageTable.type_bit i hi, decide_eq_true hi, Bool.true_and]
  by_cases hm : i < 2 ∨ 12 ≤ i ∧ i < 48
  · rw [h.attr_bit hi hm]
    rcases hm with hm | hm <;> simp [hm]
  · rw [testBit_addr h.aligned h.lt (by omega), h.type_bit hi (by omega)]
    have : ¬ (12 ≤ i ∧ i < 48) := fun h' => hm (.inr h')
    by_cases h2 : i < 2 <;> by_cases h12 : 12 ≤ i <;> simp [h2, h12] <;> omega

theorem Fields.isValid (h : Fields pa attr type) : isValid (desc pa attr type) = type.getLsbD 0 := by
  rw [PageTable.isValid, desc, BitVec.getLsbD_or, BitVec.getLsbD_or, h.attr_bit (by decide) (.inl (by decide)),
    BitVec.getLsbD_ofNat, testBit_addr h.aligned h.lt (.inl (by decide))]
  simp

theorem Fields.isTable (h : Fields pa attr type) :
    isTable (desc pa attr type) = (type.getLsbD 0 && type.getLsbD 1) := by
  have hv := h.isValid
  rw [PageTable.isValid] at hv
  rw [PageTable.isTable, hv, desc, BitVec.getLsbD_or, BitVec.getLsbD_or, h.attr_bit (by decide) (.inl (by decide)),
    BitVec.getLsbD_ofNat, testBit_addr h.aligned h.lt (.inl (by decide))]
  simp
end PageTable
