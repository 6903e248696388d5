import Mathlib.Data.Nat.ModEq
import QuestOS.Mmu.EarlyMap

/-!
# Requests to the early page-table builder

A request is the range after the rounding of `pg_map_range`.  Every function of the builder maps the
part of the request below its own table (`partEnd`); what it maps ends elsewhere (`stop`) only at the
very top of the address space, where `va_start + size <= va_end` wraps around and a block is used
although the range ends inside it (`overrun`).
-/

namespace QuestOS

open Bytes PageTable

/-- A page-aligned virtual range `[va, vaEnd)` inside one 48-bit window, the physical address it is
mapped to, the attributes and the block flags. -/
structure EarlyRequest where
  start : Nat
  va : Nat
  vaEnd : Nat
  attr : BitVec 64
  flags : Nat
  start_mod : start % 4096 = 0
  va_mod : va % 4096 = 0
  vaEnd_mod : vaEnd % 4096 = 0
  lt : va < vaEnd
  window : vaEnd ≤ spanEnd 4 va
  vaEnd_le : vaEnd ≤ 2 ^ 64
  phys_le : start + (vaEnd - va) ≤ 2 ^ 48
  attr_free : attr &&& (addrMask ||| 3#64) = 0

namespace EarlyRequest

variable {r : EarlyRequest} {k j x y va : Nat}

def leaf (r : EarlyRequest) (x : Nat) : Option Leaf := some ⟨r.start + (x - r.va), r.attr⟩

def blockFlag (r : EarlyRequest) : Nat → Bool
  | 1 => r.flags.testBit 1
  | 2 => r.flags.testBit 0
  | _ => false

def partEnd (r : EarlyRequest) (k x : Nat) : Nat := min r.vaEnd (spanEnd (k + 1) x)

/-- The request ends inside the last entry of level `k` of the address space, and that entry is mapped
by a block. -/
def overAt (r : EarlyRequest) (k : Nat) : Bool :=
  r.blockFlag k && r.va ≤ 2 ^ 64 - span k && 2 ^ 64 - span k < r.vaEnd && r.vaEnd < 2 ^ 64 &&
    r.va % span k = r.start % span k

def overrun (r : EarlyRequest) : Nat → Bool
  | 0 => false
  | k + 1 => r.overAt (k + 1) || r.overrun k

def stop (r : EarlyRequest) (k x : Nat) : Nat :=
  if spanEnd (k + 1) x = 2 ^ 64 ∧ r.overrun k = true then 2 ^ 64 else r.partEnd k x

def MapsBlock (r : EarlyRequest) (k x : Nat) : Prop :=
  r.blockFlag k = true ∧ r.va ≤ spanStart k x ∧ r.va % span k = r.start % span k ∧
    spanEnd k x % 2 ^ 64 ≤ r.partEnd k x % 2 ^ 64

theorem partEnd_le (r : EarlyRequest) (k x : Nat) : r.partEnd k x ≤ r.vaEnd := Nat.min_le_left _ _

theorem partEnd_le_spanEnd (r : EarlyRequest) (k x : Nat) : r.partEnd k x ≤ spanEnd (k + 1) x := Nat.min_le_right _ _

theorem lt_partEnd (hx : x < r.vaEnd) : x < r.partEnd k x := Nat.lt_min.mpr ⟨hx, lt_spanEnd (k + 1) x⟩

theorem partEnd_congr (h : x / span (k + 1) = y / span (k + 1)) : r.partEnd k x = r.partEnd k y := by
  rw [partEnd, partEnd, spanEnd_congr h]

theorem partEnd_mod (r : EarlyRequest) (k x : Nat) : r.partEnd k x % 4096 = 0 := by
  rw [partEnd, Nat.min_def]
  split
  · exact r.vaEnd_mod
  · exact spanEnd_mod_page (k + 1) x

/-! ### The arithmetic of the loops -/

/-- `XXX_ALIGN_UP` of the end of a range is the end of its last entry, or wraps to 0. -/
theorem alignUp_span {pe : Nat} (hk : k ≤ 5) (h0 : 0 < pe) (h64 : pe ≤ 2 ^ 64) :
    alignUp (pe % 2 ^ 64) (span k) = spanEnd k (pe - 1) % 2 ^ 64 := by
  have hpos := span_pos k
  have hspan : span k ≤ 2 ^ 57 := Nat.pow_le_pow_right (by decide) (by omega)
  have hle := spanEnd_le_two_pow hk (x := pe - 1) (by omega)
  have hlt := lt_spanEnd k (pe - 1)
  rw [span, alignUp_eq, ← span]
  rcases Nat.lt_or_ge (pe - 1 + span k) (2 ^ 64) with h | h
  · have hdiv : (pe + span k - 1) / span k * span k = spanEnd k (pe - 1) := by
      rw [show pe + span k - 1 = pe - 1 + span k by omega, Nat.add_div_right _ hpos, Nat.succ_mul]
      rfl
    have hstart := spanStart_le k (pe - 1)
    rw [Nat.mod_eq_of_lt (show pe < 2 ^ 64 by omega), Nat.mod_eq_of_lt (show pe + span k - 1 < 2 ^ 64 by omega),
      hdiv, Nat.mod_eq_of_lt (by rw [spanEnd]; omega)]
  · -- the last entry of the address space
    have hend : spanEnd k (pe - 1) = 2 ^ 64 := by
      have hmod : (2 ^ 64 - span k) % span k = 0 := by
        rw [← Nat.mod_eq_sub_mod (by omega)]
        exact two_pow_mod_span hk
      have := spanEnd_le_of_lt (k := k) (x := 2 ^ 64 - span k) (y := spanEnd k (pe - 1)) (spanEnd_mod k _)
        (by rw [spanStart_of_mod hmod]; omega)
      rw [spanEnd, spanStart_of_mod hmod] at this
      omega
    have hsmall : (pe % 2 ^ 64 + span k - 1) % 2 ^ 64 < span k := by omega
    rw [hend, Nat.mod_self, Nat.div_eq_of_lt hsmall, Nat.zero_mul]

theorem lastEntry_eq {pe : Nat} (hk : k ≤ 5) (h0 : 0 < pe) (h64 : pe ≤ 2 ^ 64) :
    lastEntry k (pe % 2 ^ 64) = index k (pe - 1) := by
  have hle := spanEnd_le_two_pow hk (x := pe - 1) (by omega)
  have hlt := lt_spanEnd k (pe - 1)
  have hstart := spanStart_le k (pe - 1)
  have hsub : sub64 (spanEnd k (pe - 1) % 2 ^ 64) 1 = spanEnd k (pe - 1) - 1 := by
    unfold sub64
    omega
  rw [lastEntry, alignUp_span hk h0 h64, hsub]
  exact index_of_div_span (spanStart_of_mem (by omega) (by omega))

theorem mapSize_eq (hk : k ≤ 3) (hva : va < 2 ^ 64) :
    sub64 (alignDown (add64 va (span k)) (span k)) va = spanEnd k va - va := by
  have hpos := span_pos k
  have hle := spanEnd_le_two_pow (k := k) (by omega) hva
  have hlt := lt_spanEnd k va
  have hstart := spanStart_le k va
  have hs := span_le hk
  have hal : alignDown (add64 va (span k)) (span k) = spanEnd k va % 2 ^ 64 := by
    unfold alignDown add64
    rcases Nat.lt_or_ge (va + span k) (2 ^ 64) with h | h
    · rw [Nat.mod_eq_of_lt h, Nat.add_div_right _ hpos, Nat.succ_mul, Nat.mod_eq_of_lt (by rw [spanEnd]; omega)]
      rfl
    · have hend : spanEnd k va = 2 ^ 64 := by
        by_contra hne
        have hmod := two_pow_mod_span (k := k) (by omega)
        have := spanEnd_le_of_lt (k := k) (x := spanEnd k va) hmod
          (by rw [spanStart_of_mod (spanEnd_mod k va)]; omega)
        rw [spanEnd, spanStart_of_mod (spanEnd_mod k va)] at this
        omega
      have hsmall : (va + span k) % 2 ^ 64 < span k := by omega
      rw [hend, Nat.mod_self, Nat.div_eq_of_lt hsmall, Nat.zero_mul]
  have hend : spanEnd k va = spanStart k va + span k := rfl
  rw [hal]
  unfold sub64
  omega

theorem overrun_bounds (h : r.overrun k = true) : 2 ^ 64 - span k < r.vaEnd ∧ r.vaEnd < 2 ^ 64 := by
  induction k with
  | zero => cases h
  | succ k ih =>
    rw [overrun, Bool.or_eq_true] at h
    rcases h with h | h
    · simp only [overAt, Bool.and_eq_true, decide_eq_true_eq] at h
      exact ⟨h.1.1.2, h.1.2⟩
    · have hspan : span k ≤ span (k + 1) := span_mono (Nat.le_succ k)
      obtain ⟨h1, h2⟩ := ih h
      exact ⟨Nat.lt_of_le_of_lt (Nat.sub_le_sub_left hspan _) h1, h2⟩

theorem vaEnd_arg (hV : r.va ≤ va) (hE : va < r.vaEnd) :
    add64 va (sub64 (r.start + (r.partEnd k va - r.va)) (r.start + (va - r.va))) = r.partEnd k va % 2 ^ 64 := by
  have h1 := lt_partEnd (k := k) hE
  have h2 := r.partEnd_le k va
  have h3 := r.phys_le
  unfold add64 sub64
  omega

theorem mapEnd_arg (hk : k + 1 ≤ 3) (hV : r.va ≤ va) (hE : va < r.vaEnd) :
    min (add64 (r.start + (va - r.va)) (spanEnd (k + 1) va - va)) (r.start + (r.partEnd (k + 1) va - r.va)) =
      r.start + (r.partEnd k va - r.va) := by
  have h1 := lt_spanEnd (k + 1) va
  have h2 := spanStart_le (k + 1) va
  have h3 := span_le hk
  have h4 := r.phys_le
  have h5 := spanEnd_le_succ (k + 1) va
  have h6 : spanEnd (k + 1) va = spanStart (k + 1) va + span (k + 1) := rfl
  have h7 : add64 (r.start + (va - r.va)) (spanEnd (k + 1) va - va) = r.start + (spanEnd (k + 1) va - r.va) := by
    unfold add64
    omega
  rw [h7, partEnd, partEnd]
  omega

theorem useBlock_iff (hV : r.va ≤ va) (hva : va = r.va ∨ va % span k = 0) :
    useBlock k (r.blockFlag k) (r.start + (va - r.va)) va (r.partEnd k va % 2 ^ 64) = true ↔ r.MapsBlock k va := by
  have hsum : r.start + (va - r.va) + r.va = r.start + va := by omega
  simp only [useBlock, MapsBlock, Bool.and_eq_true, decide_eq_true_eq]
  constructor
  · rintro ⟨⟨⟨h1, h2⟩, h3⟩, h4⟩
    refine ⟨h4, by rw [spanStart_of_mod h1]; exact hV, mod_eq_of_add_eq hsum h2 h1, ?_⟩
    rw [spanEnd, spanStart_of_mod h1]
    exact h3
  · rintro ⟨h1, h2, h3, h4⟩
    have hmod : va % span k = 0 := by
      rcases hva with h | h
      · have := spanStart_le k va
        have heq : spanStart k va = va := by omega
        rw [← heq]
        exact spanStart_mod k va
      · exact h
    have hstart : (r.start + (va - r.va)) % span k = 0 := by
      have h5 : (r.start + (va - r.va) + r.va) % span k = (0 + r.va) % span k := by
        rw [hsum, Nat.zero_add, h3, Nat.add_mod, hmod, Nat.add_zero, Nat.mod_mod]
      have h6 := Nat.ModEq.add_right_cancel' r.va h5
      rwa [Nat.ModEq, Nat.zero_mod] at h6
    rw [spanEnd, spanStart_of_mod hmod] at h4
    exact ⟨⟨⟨hmod, hstart⟩, h4⟩, h1⟩

/-! ### Where the mapping ends -/

theorem stop_of_lt (h : spanEnd (k + 1) va < r.partEnd (k + 1) va) : r.stop k va = spanEnd (k + 1) va := by
  have h1 := r.partEnd_le (k + 1) va
  have h2 := r.vaEnd_le
  have hne : spanEnd (k + 1) va ≠ 2 ^ 64 := by omega
  rw [stop, partEnd, if_neg (fun h => hne h.1), Nat.min_eq_right (by omega)]

theorem stop_of_ge (hk : k + 1 ≤ 3) (hE : va < r.vaEnd)
    (h : r.partEnd (k + 1) va ≤ spanEnd (k + 1) va) (hb : ¬ r.MapsBlock (k + 1) va) :
    r.stop (k + 1) va = r.stop k va := by
  have hpart : r.partEnd (k + 1) va = r.partEnd k va := by
    have := spanEnd_le_succ (k + 1) va
    rw [partEnd, partEnd] at *
    omega
  have hlt := lt_spanEnd (k + 1) va
  have hv64 : va < 2 ^ 64 := Nat.lt_of_lt_of_le hE r.vaEnd_le
  have hle := spanEnd_le_two_pow (k := k + 1) (by omega) hv64
  rw [stop, stop, hpart]
  by_cases htop : spanEnd (k + 1) va = 2 ^ 64
  · -- the last entry of the address space: it would be a block if it could be
    have hsucc : spanEnd (k + 1 + 1) va = 2 ^ 64 := by
      have h1 := spanEnd_le_succ (k + 1) va
      have h2 := spanEnd_le_two_pow (k := k + 1 + 1) (by omega) hv64
      omega
    have hat : r.overAt (k + 1) = false := by
      rw [Bool.eq_false_iff]
      intro hat
      simp only [overAt, Bool.and_eq_true, decide_eq_true_eq] at hat
      obtain ⟨⟨⟨⟨h1, h2⟩, h3⟩, h4⟩, h5⟩ := hat
      have hstart : spanStart (k + 1) va = 2 ^ 64 - span (k + 1) := by
        rw [spanEnd] at htop
        omega
      exact hb ⟨h1, by omega, h5, by rw [htop, Nat.mod_self]; exact Nat.zero_le _⟩
    rw [overrun, hat, Bool.false_or, htop, hsucc]
  · have hlast := spanEnd_le_sub (k := k + 1) (by omega) (show spanEnd (k + 1) va < 2 ^ 64 by omega)
    have hno : ¬ (spanEnd (k + 1 + 1) va = 2 ^ 64 ∧ r.overrun (k + 1) = true) := by
      rintro ⟨h1, h2⟩
      have h3 := overrun_bounds h2
      rw [partEnd, h1] at h
      omega
    rw [if_neg hno, if_neg (fun h => htop h.1)]

theorem stop_of_block (hk : k ≤ 3) (hE : va < r.vaEnd) (h : r.partEnd k va ≤ spanEnd k va) (hb : r.MapsBlock k va)
    (hk0 : 0 < k) : r.stop k va = spanEnd k va := by
  obtain ⟨h1, h2, h3, h4⟩ := hb
  have hlt := lt_spanEnd k va
  have hv64 : va < 2 ^ 64 := Nat.lt_of_lt_of_le hE r.vaEnd_le
  have hle := spanEnd_le_two_pow (k := k) (by omega) hv64
  have hpe : r.partEnd k va ≤ 2 ^ 64 := Nat.le_trans (r.partEnd_le k va) r.vaEnd_le
  have hsucc := spanEnd_le_succ k va
  have hsucc2 := spanEnd_le_two_pow (k := k + 1) (by omega) hv64
  obtain ⟨k, rfl⟩ : ∃ j, k = j + 1 := ⟨k - 1, by omega⟩
  by_cases htop : spanEnd (k + 1) va = 2 ^ 64
  · have hend : spanEnd (k + 1 + 1) va = 2 ^ 64 := by omega
    rw [stop, htop, hend, partEnd, hend]
    by_cases hfull : r.vaEnd = 2 ^ 64
    · rw [hfull]
      simp
    · have hve := r.vaEnd_le
      have hstart := spanStart_le (k + 1) va
      have hat : r.overAt (k + 1) = true := by
        have hstart' : spanStart (k + 1) va = 2 ^ 64 - span (k + 1) := by
          rw [spanEnd] at htop
          omega
        simp only [overAt, Bool.and_eq_true, decide_eq_true_eq]
        exact ⟨⟨⟨⟨h1, by omega⟩, by omega⟩, by omega⟩, h3⟩
      rw [overrun, hat]
      simp
  · have hlast := spanEnd_le_sub (k := k + 1) (by omega) (show spanEnd (k + 1) va < 2 ^ 64 by omega)
    have heq : r.partEnd (k + 1) va = spanEnd (k + 1) va := by omega
    have hno : ¬ (spanEnd (k + 1 + 1) va = 2 ^ 64 ∧ r.overrun (k + 1) = true) := by
      rintro ⟨h5, h6⟩
      have h7 := overrun_bounds h6
      rw [partEnd, h5] at heq
      omega
    rw [stop, if_neg hno, heq]

end EarlyRequest

end QuestOS
