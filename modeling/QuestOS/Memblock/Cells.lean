import Mathlib.Data.Nat.Find
import QuestOS.Lib.Sweep
import QuestOS.Memblock.Find

/-!
# Free memory as cells

The memory regions and the gaps between the reserved regions are two ascending sequences of intervals; their
cells are the free memory (`inside_box_iff`).  A call of either iterator takes one cell and passes over empty ones
only (`Iterable.rev_step`, `Iterable.step`).
-/

namespace QuestOS

open Regions Sweep

variable {a b : List MemblockRegion} {m : MemblockRegion} {nid : Int} {flags : Nat}

/-! ### Regions and gaps -/

def memIvl (a : List MemblockRegion) (i : Nat) : Nat × Nat := (a[i]?.map fun m => (m.base, m.fin)).getD (0, 0)

def gapIvl (b : List MemblockRegion) (j : Nat) : Nat × Nat := (gapStart b j, gapEnd b j)

theorem memIvl_eq {i : Nat} (hi : i < a.length) : memIvl a i = (a[i].base, a[i].fin) := by
  rw [memIvl, List.getElem?_eq_getElem hi]
  rfl

theorem ascending_memIvl {lo : Nat} (h : SortedFrom lo a) : Ascending (memIvl a) a.length := by
  intro i j hij hj
  rw [memIvl_eq (by omega), memIvl_eq hj]
  exact h.fin_le_base hij (List.getElem?_eq_getElem (by omega)) (List.getElem?_eq_getElem hj)

theorem memIvl_lt {lo i : Nat} (h : SortedFrom lo a) (hi : i < a.length) : (memIvl a i).1 < (memIvl a i).2 := by
  rw [memIvl_eq hi]
  exact Nat.lt_add_of_pos_right (h.size_pos (List.getElem_mem hi))

theorem gapEnd_of_lt {j : Nat} (hj : j < b.length) : gapEnd b j = b[j].base := by
  rw [gapEnd, List.getElem?_eq_getElem hj]
  rfl

theorem gapStart_succ {j : Nat} (hj : j < b.length) : gapStart b (j + 1) = b[j].fin := by
  rw [gapStart, List.getElem?_eq_getElem hj]
  rfl

theorem ascending_gapIvl {lo : Nat} (h : SortedFrom lo b) : Ascending (gapIvl b) (b.length + 1) := by
  intro i j hij hj
  obtain ⟨k, rfl⟩ : ∃ k, j = k + 1 := ⟨j - 1, by omega⟩
  show gapEnd b i ≤ gapStart b (k + 1)
  rw [gapEnd_of_lt (by omega), gapStart_succ (by omega)]
  rcases Nat.lt_or_ge i k with hik | hik
  · have := h.fin_le_base hik (List.getElem?_eq_getElem (by omega)) (List.getElem?_eq_getElem (by omega))
    simp only [Region.fin] at *
    omega
  · obtain rfl : i = k := by omega
    exact Nat.le_add_right _ _

theorem gapStart_le_gapEnd {lo j : Nat} (h : SortedFrom lo b) (hmax : ∀ r ∈ b, r.fin ≤ physAddrMax)
    (hj : j ≤ b.length) : gapStart b j ≤ gapEnd b j := by
  cases j with
  | zero => exact Nat.zero_le _
  | succ k =>
    rw [gapStart_succ (by omega)]
    rcases Nat.lt_or_ge (k + 1) b.length with hlt | hge
    · rw [gapEnd_of_lt hlt]
      exact h.fin_le_base (Nat.lt_succ_self k) (List.getElem?_eq_getElem (by omega)) (List.getElem?_eq_getElem hlt)
    · rw [gapEnd, List.getElem?_eq_none hge]
      exact hmax _ (List.getElem_mem (by omega))

theorem gapEnd_mono {lo l j : Nat} (h : SortedFrom lo b) (hmax : ∀ r ∈ b, r.fin ≤ physAddrMax) (hl : l ≤ j)
    (hj : j ≤ b.length) : gapEnd b l ≤ gapEnd b j := by
  rcases Nat.lt_or_ge l j with hlt | hge
  · exact (ascending_gapIvl h l j hlt (by omega)).trans (gapStart_le_gapEnd h hmax hj)
  · obtain rfl : l = j := by omega
    exact Nat.le_refl _

theorem gapStart_mono {lo l j : Nat} (h : SortedFrom lo b) (hmax : ∀ r ∈ b, r.fin ≤ physAddrMax) (hl : j ≤ l)
    (hj : l ≤ b.length) : gapStart b j ≤ gapStart b l := by
  rcases Nat.lt_or_ge j l with hlt | hge
  · exact (gapStart_le_gapEnd h hmax (by omega)).trans (ascending_gapIvl h j l hlt (by omega))
  · obtain rfl : l = j := by omega
    exact Nat.le_refl _

theorem exists_gap {x : Nat} (hx : lookup b x = none) (hmax : x < physAddrMax) :
    ∃ j ≤ b.length, Inside (gapIvl b j) x := by
  have hlast : x < gapEnd b b.length := by
    rw [gapEnd, List.getElem?_eq_none (Nat.le_refl _)]
    exact hmax
  -- the first gap that ends behind `x`
  have hex : ∃ j, x < gapEnd b j := ⟨_, hlast⟩
  refine ⟨Nat.find hex, Nat.find_min' hex hlast, ?_, Nat.find_spec hex⟩
  show gapStart b (Nat.find hex) ≤ x
  rcases Nat.eq_zero_or_pos (Nat.find hex) with h0 | hpos
  · rw [h0]
    exact Nat.zero_le x
  · obtain ⟨k, hk⟩ : ∃ k, Nat.find hex = k + 1 := ⟨Nat.find hex - 1, by omega⟩
    have hkb : k < b.length := by
      have := Nat.find_min' hex hlast
      omega
    have hnot : ¬ x < gapEnd b k := Nat.find_min hex (by omega)
    rw [gapEnd_of_lt hkb] at hnot
    rw [hk, gapStart_succ hkb]
    have hout := lookup_eq_none_iff.1 hx b[k] (List.getElem_mem hkb)
    omega

theorem inside_box_iff {lo x : Nat} (hb : SortedFrom lo b) (hmax : ∀ r ∈ a, r.fin ≤ physAddrMax) :
    (∃ p, Box 0 a.length 0 (b.length + 1) p ∧ Inside (cell (memIvl a) (gapIvl b) p) x) ↔
      (lookup a x).isSome ∧ lookup b x = none := by
  constructor
  · rintro ⟨p, ⟨⟨-, h1⟩, -, h2⟩, hx⟩
    obtain ⟨hm, hg⟩ := inside_cell.1 hx
    rw [memIvl_eq h1] at hm
    refine ⟨lookup_isSome_iff.2 ⟨a[p.1], List.getElem_mem h1, hm⟩, lookup_gap hb (Nat.le_of_lt_succ h2) hg.1 hg.2⟩
  · rintro ⟨hm, hx⟩
    obtain ⟨r, hr, hxr⟩ := lookup_isSome_iff.1 hm
    obtain ⟨i, hi, rfl⟩ := List.getElem_of_mem hr
    obtain ⟨j, hj, hg⟩ := exists_gap hx (hxr.2.trans_le (hmax _ hr))
    refine ⟨(i, j), ⟨⟨Nat.zero_le i, hi⟩, Nat.zero_le j, Nat.lt_succ_of_le hj⟩, inside_cell.2 ⟨?_, hg⟩⟩
    rw [memIvl_eq hi]
    exact hxr

/-! ### One call as a step of the sweep -/

theorem nextRevInner_found {na nb : Nat} {r : FreeRange} (h : nextRevInner b m na nb = .inl r) :
    ∃ j < nb, (gapStart b j < m.fin ∧ m.base < gapEnd b j) ∧
      r = ⟨max m.base (gapStart b j), min m.fin (gapEnd b j), if gapStart b j ≤ m.base then na - 1 else na,
        if gapStart b j ≤ m.base then j + 1 else j⟩ ∧
      ∀ k, j < k → k < nb → m.fin ≤ gapStart b k := by
  induction nb with
  | zero => cases h
  | succ j ih =>
    rw [nextRevInner] at h
    split at h
    · cases h
    · rename_i h1
      split at h
      · rename_i h2
        exact ⟨j, Nat.lt_succ_self j, ⟨h2, Nat.lt_of_not_le h1⟩, (Sum.inl.inj h).symm, fun k hk hk' => by omega⟩
      · rename_i h2
        obtain ⟨i, hi, hmeet, hr, hrest⟩ := ih h
        refine ⟨i, by omega, hmeet, hr, fun k hk hk' => ?_⟩
        rcases Nat.lt_or_ge k j with hkj | hkj
        · exact hrest k hk hkj
        · obtain rfl : k = j := by omega
          exact Nat.le_of_not_lt h2

theorem nextRevInner_stop {na nb nb' : Nat} (h : nextRevInner b m na nb = .inr nb') :
    nb' ≤ nb ∧ (∀ k, nb' ≤ k → k < nb → m.fin ≤ gapStart b k) ∧ (nb' = 0 ∨ gapEnd b (nb' - 1) ≤ m.base) := by
  induction nb with
  | zero =>
    cases h
    exact ⟨Nat.le_refl 0, fun k _ hk => absurd hk (Nat.not_lt_zero k), .inl rfl⟩
  | succ j ih =>
    rw [nextRevInner] at h
    split at h
    · rename_i h1
      cases h
      exact ⟨Nat.le_refl _, fun k hk hk' => by omega, .inr h1⟩
    · split at h
      · cases h
      · rename_i h2
        obtain ⟨hle, hskip, hstop⟩ := ih h
        refine ⟨by omega, fun k hk hk' => ?_, hstop⟩
        rcases Nat.lt_or_ge k j with hkj | hkj
        · exact hskip k hk hkj
        · obtain rfl : k = j := by omega
          exact Nat.le_of_not_lt h2

structure Iterable (nid : Int) (flags : Nat) (a b : List MemblockRegion) : Prop where
  memory : SortedFrom 0 a
  reserved : SortedFrom 0 b
  reserved_max : ∀ r ∈ b, r.fin ≤ physAddrMax
  taken : ∀ r ∈ a, shouldSkipRegion nid flags r = false

theorem memIvl_fin_mono {lo i k : Nat} (h : SortedFrom lo a) (hk : k ≤ i) (hi : i < a.length) :
    (memIvl a k).2 ≤ (memIvl a i).2 := by
  rcases Nat.lt_or_ge k i with hlt | hge
  · exact (ascending_memIvl h k i hlt hi).trans (memIvl_lt h hi).le
  · obtain rfl : k = i := by omega
    exact Nat.le_refl _

theorem memIvl_base_mono {lo i k : Nat} (h : SortedFrom lo a) (hk : i ≤ k) (hki : k < a.length) :
    (memIvl a i).1 ≤ (memIvl a k).1 := by
  rcases Nat.lt_or_ge i k with hlt | hge
  · exact (memIvl_lt h (by omega)).le.trans (ascending_memIvl h i k hlt hki)
  · obtain rfl : k = i := by omega
    exact Nat.le_refl _

theorem Iterable.cell_eq (h : Iterable nid flags a b) {i j : Nat} (hi : i < a.length) (hj : j ≤ b.length)
    (h1 : gapStart b j < a[i].fin) (h2 : a[i].base < gapEnd b j) :
    cell (memIvl a) (gapIvl b) (i, j) = (max a[i].base (gapStart b j), min a[i].fin (gapEnd b j)) ∧
      (cell (memIvl a) (gapIvl b) (i, j)).1 ≤ (cell (memIvl a) (gapIvl b) (i, j)).2 := by
  have hcell : cell (memIvl a) (gapIvl b) (i, j) = (max a[i].base (gapStart b j), min a[i].fin (gapEnd b j)) := by
    simp only [cell, memIvl_eq hi, gapIvl]
  have hgap := gapStart_le_gapEnd h.reserved h.reserved_max hj
  have hmem := memIvl_lt h.memory hi
  rw [memIvl_eq hi] at hmem
  refine ⟨hcell, ?_⟩
  rw [hcell]
  dsimp only at hmem ⊢
  omega

theorem Iterable.rev_step (h : Iterable nid flags a b) {na nb : Nat} (hna : na ≤ a.length) (hnb : nb ≤ b.length + 1) :
    match nextMemRangeRev nid flags a b na nb with
    | none => ∀ q x, Box 0 na 0 nb q → ¬ Inside (cell (memIvl a) (gapIvl b) q) x
    | some r => (∃ p, Takes (memIvl a) (gapIvl b) Down (Box 0 na 0 nb) (Box 0 r.na 0 r.nb) (r.start, r.fin) p) ∧
        r.na ≤ na ∧ 0 < r.nb := by
  have hA := ascending_memIvl h.memory
  have hG := ascending_gapIvl h.reserved
  induction na generalizing nb with
  | zero => exact fun q x hq => absurd hq.1.2 (Nat.not_lt_zero _)
  | succ i ih =>
    have hm : a[i]? = some a[i] := List.getElem?_eq_getElem (by omega)
    have hAi : memIvl a i = (a[i].base, a[i].fin) := memIvl_eq (by omega)
    have hfin : ∀ k ≤ i, (memIvl a k).2 ≤ a[i].fin := fun k hk => by
      have := memIvl_fin_mono h.memory hk (by omega)
      rwa [hAi] at this
    rw [nextMemRangeRev, hm]
    simp only [h.taken a[i] (List.getElem_mem _), Bool.false_eq_true, if_false]
    cases hr : nextRevInner b a[i] (i + 1) nb with
    | inl r =>
      obtain ⟨j, hj, ⟨h1, h2⟩, rfl, habove⟩ := nextRevInner_found hr
      obtain ⟨hcell, hle⟩ := h.cell_eq (by omega) (by omega) h1 h2
      -- the gaps that were passed lie above all memory regions that are left
      have hsub : ∀ q, Box 0 (i + 1) 0 (j + 1) q → Box 0 (i + 1) 0 nb q := fun q hq =>
        ⟨hq.1, hq.2.1, by have := hq.2.2; omega⟩
      have hdrop : ∀ q x, Box 0 (i + 1) 0 nb q → Inside (cell (memIvl a) (gapIvl b) q) x →
          Box 0 (i + 1) 0 (j + 1) q := by
        rintro q x ⟨hk, hl, hl'⟩ hx
        refine ⟨hk, hl, ?_⟩
        by_contra hgt
        exact not_inside_of_left ((hfin q.1 (by omega)).trans (habove q.2 (by omega) hl')) x hx
      dsimp only
      rw [← hcell]
      by_cases h3 : gapStart b j ≤ a[i].base
      · simp only [if_pos h3]
        have htake := takes_down_left hG (by omega) hle (by rw [hAi]; exact h3)
        exact ⟨⟨_, htake.mono hsub hdrop⟩, by omega, Nat.succ_pos j⟩
      · simp only [if_neg h3]
        have htake := takes_down_right hA (by omega) hle (by rw [hAi]; exact Nat.le_of_not_le h3)
        refine ⟨⟨_, htake.mono hsub hdrop⟩, Nat.le_refl _, Nat.pos_of_ne_zero ?_⟩
        rintro rfl
        exact h3 (Nat.zero_le _)
    | inr nb' =>
      obtain ⟨hle, habove, hstop⟩ := nextRevInner_stop hr
      have hsub : ∀ q, Box 0 i 0 nb' q → Box 0 (i + 1) 0 nb q := by
        rintro q ⟨⟨-, hk⟩, -, hl⟩
        exact ⟨⟨Nat.zero_le _, by omega⟩, Nat.zero_le _, by omega⟩
      have hdrop : ∀ q x, Box 0 (i + 1) 0 nb q → Inside (cell (memIvl a) (gapIvl b) q) x → Box 0 i 0 nb' q := by
        rintro ⟨k, l⟩ x ⟨⟨-, hk⟩, -, hl⟩ hx
        dsimp only at hk hl
        rcases Nat.lt_or_ge l nb' with hlt | hge
        · refine ⟨⟨Nat.zero_le _, ?_⟩, Nat.zero_le _, hlt⟩
          by_contra hki
          obtain rfl : k = i := by dsimp only at hki; omega
          have hend : gapEnd b l ≤ a[k].base := by
            rcases hstop with h0 | hstop
            · omega
            · exact (gapEnd_mono h.reserved h.reserved_max (show l ≤ nb' - 1 by omega) (by omega)).trans hstop
          exact not_inside_of_right (p := (k, l)) (by rw [hAi]; exact hend) x hx
        · exact absurd hx (not_inside_of_left (p := (k, l)) ((hfin k (by omega)).trans (habove l hge hl)) x)
      have hrest := ih (by omega) (show nb' ≤ b.length + 1 by omega)
      dsimp only
      cases hn : nextMemRangeRev nid flags a b i nb' with
      | none =>
        rw [hn] at hrest
        exact fun q x hq hx => hrest q x (hdrop q x hq hx) hx
      | some r =>
        rw [hn] at hrest
        obtain ⟨⟨p, hp⟩, hle', hpos⟩ := hrest
        exact ⟨⟨p, hp.mono hsub hdrop⟩, by omega, hpos⟩

theorem nextInner_found {ia left idx : Nat} {r : FreeRange} (h : nextInner b m ia left idx = .inl r) :
    ∃ j, idx ≤ j ∧ j < idx + left ∧ (gapStart b j < m.fin ∧ m.base < gapEnd b j) ∧
      r = ⟨max m.base (gapStart b j), min m.fin (gapEnd b j), if m.fin ≤ gapEnd b j then ia + 1 else ia,
        if m.fin ≤ gapEnd b j then j else j + 1⟩ ∧
      ∀ k, idx ≤ k → k < j → gapEnd b k ≤ m.base := by
  induction left generalizing idx with
  | zero => cases h
  | succ left ih =>
    rw [nextInner] at h
    split at h
    · cases h
    · rename_i h1
      split at h
      · rename_i h2
        exact ⟨idx, Nat.le_refl _, by omega, ⟨Nat.lt_of_not_le h1, h2⟩, (Sum.inl.inj h).symm, fun k hk hk' => by omega⟩
      · rename_i h2
        obtain ⟨j, hj, hj', hmeet, hr, hrest⟩ := ih h
        refine ⟨j, by omega, by omega, hmeet, hr, fun k hk hk' => ?_⟩
        rcases Nat.lt_or_ge idx k with hik | hik
        · exact hrest k hik hk'
        · obtain rfl : k = idx := by omega
          exact Nat.le_of_not_lt h2

theorem nextInner_stop {ia left idx idx' : Nat} (h : nextInner b m ia left idx = .inr idx') :
    idx ≤ idx' ∧ (∀ k, idx ≤ k → k < idx' → gapEnd b k ≤ m.base) ∧
      (idx' = idx + left ∨ m.fin ≤ gapStart b idx') := by
  induction left generalizing idx with
  | zero =>
    cases h
    exact ⟨Nat.le_refl _, fun k hk hk' => by omega, .inl rfl⟩
  | succ left ih =>
    rw [nextInner] at h
    split at h
    · rename_i h1
      cases h
      exact ⟨Nat.le_refl _, fun k hk hk' => by omega, .inr h1⟩
    · split at h
      · cases h
      · rename_i h2
        obtain ⟨hle, hskip, hstop⟩ := ih h
        refine ⟨by omega, fun k hk hk' => ?_, hstop.imp_left fun h => by omega⟩
        rcases Nat.lt_or_ge idx k with hik | hik
        · exact hskip k hik hk'
        · obtain rfl : k = idx := by omega
          exact Nat.le_of_not_lt h2

theorem Iterable.step (h : Iterable nid flags a b) {left ia ib : Nat} (hia : ia + left = a.length)
    (hib : ib ≤ b.length + 1) :
    match nextMemRange nid flags a b left ia ib with
    | none => ∀ q x, Box ia a.length ib (b.length + 1) q → ¬ Inside (cell (memIvl a) (gapIvl b) q) x
    | some r => ∃ p, Takes (memIvl a) (gapIvl b) Up (Box ia a.length ib (b.length + 1))
        (Box r.na a.length r.nb (b.length + 1)) (r.start, r.fin) p := by
  have hA := ascending_memIvl h.memory
  have hG := ascending_gapIvl h.reserved
  induction left generalizing ia ib with
  | zero =>
    intro q x hq
    exact absurd hq.1 (by omega)
  | succ left ih =>
    have hm : a[ia]? = some a[ia] := List.getElem?_eq_getElem (by omega)
    have hAi : memIvl a ia = (a[ia].base, a[ia].fin) := memIvl_eq (by omega)
    have hbase : ∀ k, ia ≤ k → k < a.length → a[ia].base ≤ (memIvl a k).1 := fun k hk hk' => by
      have := memIvl_base_mono h.memory hk hk'
      rwa [hAi] at this
    rw [nextMemRange, hm]
    simp only [h.taken a[ia] (List.getElem_mem _), Bool.false_eq_true, if_false]
    cases hr : nextInner b a[ia] ia (b.length + 1 - ib) ib with
    | inl r =>
      obtain ⟨j, hj, hj', ⟨h1, h2⟩, rfl, hbelow⟩ := nextInner_found hr
      obtain ⟨hcell, hle⟩ := h.cell_eq (by omega) (by omega) h1 h2
      -- the gaps that were passed lie below all memory regions that are left
      have hsub : ∀ q, Box ia a.length j (b.length + 1) q → Box ia a.length ib (b.length + 1) q := fun q hq =>
        ⟨hq.1, by have := hq.2.1; omega, hq.2.2⟩
      have hdrop : ∀ q x, Box ia a.length ib (b.length + 1) q → Inside (cell (memIvl a) (gapIvl b) q) x →
          Box ia a.length j (b.length + 1) q := by
        rintro q x ⟨hk, hl, hl'⟩ hx
        refine ⟨hk, ?_, hl'⟩
        by_contra hgt
        exact not_inside_of_right ((hbelow q.2 hl (by omega)).trans (hbase q.1 hk.1 hk.2)) x hx
      dsimp only
      rw [← hcell]
      by_cases h3 : a[ia].fin ≤ gapEnd b j
      · simp only [if_pos h3]
        have htake := takes_up_left (n := a.length) hG (by omega) (by omega) hle (by rw [hAi]; exact h3)
        exact ⟨_, htake.mono hsub hdrop⟩
      · simp only [if_neg h3]
        have htake := takes_up_right (m := b.length + 1) hA (by omega) (by omega) hle
          (by rw [hAi]; exact Nat.le_of_not_le h3)
        exact ⟨_, htake.mono hsub hdrop⟩
    | inr ib' =>
      obtain ⟨hle, hbelow, hstop⟩ := nextInner_stop hr
      have hsub : ∀ q, Box (ia + 1) a.length ib' (b.length + 1) q → Box ia a.length ib (b.length + 1) q := by
        rintro q ⟨⟨hk, hk'⟩, hl, hl'⟩
        exact ⟨⟨by omega, hk'⟩, by omega, hl'⟩
      have hdrop : ∀ q x, Box ia a.length ib (b.length + 1) q → Inside (cell (memIvl a) (gapIvl b) q) x →
          Box (ia + 1) a.length ib' (b.length + 1) q := by
        rintro ⟨k, l⟩ x ⟨⟨hk, hk'⟩, hl, hl'⟩ hx
        dsimp only at hk hk' hl hl'
        rcases Nat.lt_or_ge l ib' with hlt | hge
        · exact absurd hx (not_inside_of_right (p := (k, l)) ((hbelow l hl hlt).trans (hbase k hk hk')) x)
        · refine ⟨⟨?_, hk'⟩, hge, hl'⟩
          by_contra hki
          obtain rfl : k = ia := by dsimp only at hki; omega
          have hstart : a[k].fin ≤ gapStart b l := by
            rcases hstop with h0 | hstop
            · omega
            · exact hstop.trans (gapStart_mono h.reserved h.reserved_max hge (by omega))
          exact not_inside_of_left (p := (k, l)) (by rw [hAi]; exact hstart) x hx
      have hrange := nextInner_spec b a[ia] ia (b.length + 1 - ib) ib (by omega)
      rw [hr] at hrange
      dsimp only at hrange ⊢
      have hrest := ih (show ia + 1 + left = a.length by omega) (show ib' ≤ b.length + 1 by omega)
      cases hn : nextMemRange nid flags a b left (ia + 1) ib' with
      | none =>
        rw [hn] at hrest
        exact fun q x hq hx => hrest q x (hdrop q x hq hx) hx
      | some r =>
        rw [hn] at hrest
        obtain ⟨p, hp⟩ := hrest
        exact ⟨p, hp.mono hsub hdrop⟩

end QuestOS
