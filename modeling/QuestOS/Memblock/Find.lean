import QuestOS.Memblock.Model

/-!
# Finding free memory

The search functions return 0 or a block that lies in memory, meets no reserved region and stays
inside the limits.  Both iterators return intersections of a memory region with a gap between
reserved regions, which is all the allocator's safety rests on.
-/

namespace QuestOS

open Regions

variable {a b : List MemblockRegion} {m : MemblockRegion} {nid : Int} {flags : Nat}

theorem lookup_gap {lo idx x : Nat} (h : SortedFrom lo b) (hidx : idx ≤ b.length)
    (h1 : gapStart b idx ≤ x) (h2 : x < gapEnd b idx) : lookup b x = none := by
  rw [lookup_eq_none_iff]
  intro r hr hx
  obtain ⟨i, hi, rfl⟩ := List.getElem_of_mem hr
  have hri : b[i]? = some b[i] := List.getElem?_eq_getElem hi
  rcases Nat.lt_or_ge i idx with hlt | hge
  · -- the region is at or before the one that bounds the gap from below
    obtain ⟨k, rfl⟩ : ∃ k, idx = k + 1 := ⟨idx - 1, by omega⟩
    have hk : b[k]? = some b[k] := List.getElem?_eq_getElem (by omega)
    simp only [gapStart, hk, Option.map_some, Option.getD_some] at h1
    rcases Nat.lt_or_ge i k with hik | hik
    · have h3 := h.fin_le_base hik hri hk
      simp only [Region.fin] at *
      omega
    · obtain rfl : i = k := by omega
      omega
  · have hi' : idx < b.length := by omega
    have hk : b[idx]? = some b[idx] := List.getElem?_eq_getElem hi'
    simp only [gapEnd, hk, Option.map_some, Option.getD_some] at h2
    rcases Nat.lt_or_ge idx i with hik | hik
    · have h3 := h.fin_le_base hik hk hri
      simp only [Region.fin] at *
      omega
    · obtain rfl : i = idx := by omega
      omega

def FreeRange.IsGap (a b : List MemblockRegion) (r : FreeRange) : Prop :=
  ∃ m ∈ a, ∃ idx ≤ b.length, r.start = max m.base (gapStart b idx) ∧ r.fin = min m.fin (gapEnd b idx)

variable {r : FreeRange}

theorem FreeRange.IsGap.free {lo x : Nat} (h : r.IsGap a b) (hb : SortedFrom lo b)
    (h1 : r.start ≤ x) (h2 : x < r.fin) : (lookup a x).isSome ∧ lookup b x = none := by
  obtain ⟨m, hm, idx, hidx, hs, hf⟩ := h
  refine ⟨lookup_isSome_iff.mpr ⟨m, hm, by omega, by omega⟩, lookup_gap hb hidx (by omega) (by omega)⟩

/-! ### The iterators -/

theorem nextRevInner_spec {na nb : Nat} (hna : 0 < na) (hnb : nb ≤ b.length + 1) :
    match nextRevInner b m na nb with
    | .inl r => (∃ idx ≤ b.length, r.start = max m.base (gapStart b idx) ∧
        r.fin = min m.fin (gapEnd b idx)) ∧ r.nb ≤ b.length + 1 ∧ r.na + r.nb < na + nb
    | .inr nb' => nb' ≤ nb := by
  induction nb with
  | zero => simp [nextRevInner]
  | succ idx ih =>
    unfold nextRevInner
    split
    · rename_i r hr
      split at hr
      · cases hr
      · split at hr
        · cases hr
          refine ⟨⟨idx, by omega, rfl, rfl⟩, ?_, ?_⟩ <;> dsimp only <;> split <;> omega
        · have hi := ih (by omega)
          rw [hr] at hi
          exact ⟨hi.1, hi.2.1, by omega⟩
    · rename_i nb' hr
      split at hr
      · cases hr
        exact Nat.le_refl _
      · split at hr
        · cases hr
        · have hi := ih (by omega)
          rw [hr] at hi
          exact Nat.le_succ_of_le hi

theorem nextMemRangeRev_spec {na nb : Nat} (hnb : nb ≤ b.length + 1)
    (h : nextMemRangeRev nid flags a b na nb = some r) :
    r.IsGap a b ∧ r.nb ≤ b.length + 1 ∧ r.na + r.nb < na + nb := by
  induction na generalizing nb with
  | zero => cases h
  | succ i ih =>
    unfold nextMemRangeRev at h
    split at h
    · cases h
    · rename_i m hm
      split at h
      · obtain ⟨h1, h2, h3⟩ := ih hnb h
        exact ⟨h1, h2, by omega⟩
      · have hinner := nextRevInner_spec (m := m) (Nat.succ_pos i) hnb
        split at h
        · rename_i r' hr
          cases h
          rw [hr] at hinner
          obtain ⟨⟨idx, h1⟩, h2, h3⟩ := hinner
          exact ⟨⟨m, List.mem_of_getElem? hm, idx, h1⟩, h2, h3⟩
        · rename_i nb' hr
          rw [hr] at hinner
          obtain ⟨h1, h2, h3⟩ := ih (Nat.le_trans hinner hnb) h
          have : nb' ≤ nb := hinner
          exact ⟨h1, h2, by omega⟩

theorem nextInner_spec (b : List MemblockRegion) (m : MemblockRegion) (ia left idx : Nat)
    (hidx : idx + left ≤ b.length + 1) :
    match nextInner b m ia left idx with
    | .inl r => (∃ idx ≤ b.length, r.start = max m.base (gapStart b idx) ∧
        r.fin = min m.fin (gapEnd b idx)) ∧ r.nb ≤ b.length + 1 ∧ r.na ≤ ia + 1 ∧ ia + idx < r.na + r.nb
    | .inr idx' => idx ≤ idx' ∧ idx' ≤ idx + left := by
  induction left generalizing idx with
  | zero => simp [nextInner]
  | succ left ih =>
    unfold nextInner
    split
    · rename_i r hr
      split at hr
      · cases hr
      · split at hr
        · cases hr
          refine ⟨⟨idx, by omega, rfl, rfl⟩, ?_, ?_, ?_⟩ <;> dsimp only <;> split <;> omega
        · have hi := ih (idx + 1) (by omega)
          rw [hr] at hi
          exact ⟨hi.1, hi.2.1, hi.2.2.1, by omega⟩
    · rename_i nb' hr
      split at hr
      · cases hr
        omega
      · split at hr
        · cases hr
        · have hi := ih (idx + 1) (by omega)
          rw [hr] at hi
          dsimp only at hi
          omega

theorem nextMemRange_spec {left ia ib : Nat} (hib : ib ≤ b.length + 1)
    (h : nextMemRange nid flags a b left ia ib = some r) :
    r.IsGap a b ∧ r.nb ≤ b.length + 1 ∧ r.na ≤ a.length ∧ ia + ib < r.na + r.nb := by
  induction left generalizing ia ib with
  | zero => cases h
  | succ left ih =>
    unfold nextMemRange at h
    split at h
    · cases h
    · rename_i m hm
      have hia : ia < a.length := (List.getElem?_eq_some_iff.mp hm).1
      split at h
      · obtain ⟨h1, h2, h3, h4⟩ := ih hib h
        exact ⟨h1, h2, h3, by omega⟩
      · have hinner := nextInner_spec b m ia (b.length + 1 - ib) ib (by omega)
        split at h
        · rename_i r' hr
          cases h
          rw [hr] at hinner
          obtain ⟨⟨idx, h1⟩, h2, h3, h4⟩ := hinner
          exact ⟨⟨m, List.mem_of_getElem? hm, idx, h1⟩, h2, by omega, h4⟩
        · rename_i ib' hr
          rw [hr] at hinner
          dsimp only at hinner
          obtain ⟨h1, h2, h3, h4⟩ := ih (by omega) h
          exact ⟨h1, h2, h3, by omega⟩

/-! ### The searches -/

theorem roundDown_le (x align : Nat) : roundDown x align ≤ x := Nat.sub_le _ _

theorem roundDown_two_pow (x k : Nat) : roundDown x (2 ^ k) = x / 2 ^ k * 2 ^ k := by
  rw [roundDown, Nat.and_two_pow_sub_one_eq_mod]
  have := Nat.div_add_mod' x (2 ^ k)
  omega

theorem roundDown_dvd (x k : Nat) : 2 ^ k ∣ roundDown x (2 ^ k) := by
  rw [roundDown_two_pow]
  exact Nat.dvd_mul_left _ _

theorem roundUp_ge {x align : Nat} (hx : 0 < x) (h64 : x < 2 ^ 64) (ha : align ≤ 2 ^ 64) :
    roundUp x align = 0 ∨ x ≤ roundUp x align := by
  unfold roundUp
  have h1 : x - 1 ≤ (x - 1) ||| (align - 1) := Nat.left_le_or
  have h2 : (x - 1) ||| (align - 1) < 2 ^ 64 := Nat.or_lt_two_pow (by omega) (by omega)
  rcases Nat.lt_or_ge ((x - 1 ||| align - 1) + 1) (2 ^ 64) with h | h
  · right
    rw [Nat.mod_eq_of_lt h]
    omega
  · left
    have : (x - 1 ||| align - 1) + 1 = 2 ^ 64 := by omega
    rw [this, Nat.mod_self]

structure FreeBlock (mb : Memblock) (start fin c size : Nat) : Prop where
  start_le : start ≤ c
  le_fin : c + size ≤ fin
  memory : ∀ x, c ≤ x → x < c + size → (lookup mb.memory.regions x).isSome
  notReserved : ∀ x, c ≤ x → x < c + size → lookup mb.reserved.regions x = none

variable {mb : Memblock}

private theorem freeBlock_of_gap {lo start fin c size : Nat}
    (hg : r.IsGap mb.memory.regions mb.reserved.regions) (hb : SortedFrom lo mb.reserved.regions)
    (hsf : start ≤ fin) (h1 : clamp r.start start fin ≤ c) (h2 : c + size ≤ clamp r.fin start fin) :
    FreeBlock mb start fin c size := by
  simp only [clamp] at h1 h2
  have hx : ∀ x, c ≤ x → x < c + size → r.start ≤ x ∧ x < r.fin := by omega
  exact ⟨by omega, by omega, fun x hx1 hx2 => (hg.free hb (hx x hx1 hx2).1 (hx x hx1 hx2).2).1,
    fun x hx1 hx2 => (hg.free hb (hx x hx1 hx2).1 (hx x hx1 hx2).2).2⟩

theorem findTopDownLoop_spec {lo start fin size align fuel na nb : Nat}
    (hb : SortedFrom lo mb.reserved.regions) (hsf : start ≤ fin) (hnb : nb ≤ mb.reserved.cnt + 1)
    (h : findTopDownLoop nid flags mb.memory.regions mb.reserved.regions start fin size align
      fuel na nb ≠ 0) :
    FreeBlock mb start fin (findTopDownLoop nid flags mb.memory.regions mb.reserved.regions
      start fin size align fuel na nb) size := by
  induction fuel generalizing na nb with
  | zero => exact absurd rfl h
  | succ fuel ih =>
    unfold findTopDownLoop at h ⊢
    split at h
    · exact absurd rfl h
    · rename_i r hr
      obtain ⟨hg, hrb, -⟩ := nextMemRangeRev_spec hnb hr
      dsimp only at h ⊢
      split at h
      · rename_i hlt
        rw [if_pos hlt]
        exact ih hrb h
      · rename_i hge
        rw [if_neg hge]
        split at h
        · rename_i hc
          rw [if_pos hc]
          have := roundDown_le (clamp r.fin start fin - size) align
          exact freeBlock_of_gap hg hb hsf hc (by omega)
        · rename_i hc
          rw [if_neg hc]
          exact ih hrb h

theorem findBottomUpLoop_spec {lo start fin size align fuel ia ib : Nat}
    (hb : SortedFrom lo mb.reserved.regions) (hsf : start ≤ fin) (hpos : 0 < start) (h64 : fin < 2 ^ 64)
    (ha : align ≤ 2 ^ 64) (hib : ib ≤ mb.reserved.cnt + 1)
    (h : findBottomUpLoop nid flags mb.memory.regions mb.reserved.regions start fin size align
      fuel ia ib ≠ 0) :
    FreeBlock mb start fin (findBottomUpLoop nid flags mb.memory.regions mb.reserved.regions
      start fin size align fuel ia ib) size := by
  induction fuel generalizing ia ib with
  | zero => exact absurd rfl h
  | succ fuel ih =>
    unfold findBottomUpLoop at h ⊢
    split at h
    · exact absurd rfl h
    · rename_i r hr
      obtain ⟨hg, hrb, -⟩ := nextMemRange_spec hib hr
      dsimp only at h ⊢
      split at h
      · rename_i hc
        rw [if_pos hc]
        have hcl : 0 < clamp r.start start fin ∧ clamp r.start start fin < 2 ^ 64 := by
          simp only [clamp]
          omega
        rcases roundUp_ge hcl.1 hcl.2 ha with h0 | hge
        · exact absurd h0 h
        · exact freeBlock_of_gap hg hb hsf hge (by omega)
      · rename_i hc
        rw [if_neg hc]
        exact ih hrb h

theorem memblockFindInRangeNode_spec {lo size align start fin : Nat}
    (hb : SortedFrom lo mb.reserved.regions) (hlim : mb.currentLimit < 2 ^ 64) (hfin : fin < 2 ^ 64)
    (hstart : start < 2 ^ 64) (ha : align ≤ 2 ^ 64)
    (h : memblockFindInRangeNode mb size align start fin nid flags ≠ 0) :
    ∃ e, FreeBlock mb (max start pageSize) e
      (memblockFindInRangeNode mb size align start fin nid flags) size ∧
      e ≤ max (max start pageSize) (if fin = 0 ∨ fin = 1 then mb.currentLimit else fin) := by
  unfold memblockFindInRangeNode at h ⊢
  dsimp only at h ⊢
  generalize hF : (if fin = 0 ∨ fin = 1 then mb.currentLimit else fin) = F at h ⊢
  have hF64 : F < 2 ^ 64 := by
    rw [← hF]
    split <;> assumption
  refine ⟨_, ?_, Nat.le_refl _⟩
  have hsf : max start pageSize ≤ max (max start pageSize) F := Nat.le_max_left _ _
  have h64 : max (max start pageSize) F < 2 ^ 64 := by
    simp only [pageSize]
    omega
  split at h
  · rename_i hbu
    rw [if_pos hbu]
    exact findBottomUpLoop_spec hb hsf (by simp only [pageSize]; omega) h64 ha (by omega) h
  · rename_i hbu
    rw [if_neg hbu]
    exact findTopDownLoop_spec hb hsf (Nat.le_refl _) h

/-! ### Alignment -/

theorem roundUp_dvd (x : Nat) {k : Nat} (hk : k ≤ 64) : 2 ^ k ∣ roundUp x (2 ^ k) := by
  have hpos := Nat.two_pow_pos k
  have hlow : ((x - 1) ||| (2 ^ k - 1)) % 2 ^ k = 2 ^ k - 1 := by
    rw [Nat.or_mod_two_pow, Nat.mod_eq_of_lt (show 2 ^ k - 1 < 2 ^ k by omega)]
    have hlt : (x - 1) % 2 ^ k ||| (2 ^ k - 1) < 2 ^ k := Nat.or_lt_two_pow (Nat.mod_lt _ hpos) (by omega)
    have hge : 2 ^ k - 1 ≤ (x - 1) % 2 ^ k ||| (2 ^ k - 1) := Nat.right_le_or
    omega
  refine (Nat.dvd_mod_iff (Nat.pow_dvd_pow 2 hk)).mpr ?_
  rw [← Nat.div_add_mod ((x - 1) ||| (2 ^ k - 1)) (2 ^ k), hlow, Nat.add_assoc, Nat.sub_add_cancel hpos]
  exact Nat.dvd_add (Nat.dvd_mul_right _ _) (Nat.dvd_refl _)

theorem findTopDownLoop_dvd (start fin size k fuel na nb : Nat) :
    2 ^ k ∣ findTopDownLoop nid flags a b start fin size (2 ^ k) fuel na nb := by
  induction fuel generalizing na nb with
  | zero => exact Nat.dvd_zero _
  | succ fuel ih =>
    rw [findTopDownLoop]
    split
    · exact Nat.dvd_zero _
    · dsimp only
      split
      · exact ih _ _
      · split
        · exact roundDown_dvd _ k
        · exact ih _ _

theorem findBottomUpLoop_dvd (start fin size : Nat) {k : Nat} (hk : k ≤ 64) (fuel ia ib : Nat) :
    2 ^ k ∣ findBottomUpLoop nid flags a b start fin size (2 ^ k) fuel ia ib := by
  induction fuel generalizing ia ib with
  | zero => exact Nat.dvd_zero _
  | succ fuel ih =>
    rw [findBottomUpLoop]
    split
    · exact Nat.dvd_zero _
    · dsimp only
      split
      · exact roundUp_dvd _ hk
      · exact ih _ _

theorem memblockFindInRangeNode_dvd (mb : Memblock) (size start fin : Nat) {k : Nat} (hk : k ≤ 64) :
    2 ^ k ∣ memblockFindInRangeNode mb size (2 ^ k) start fin nid flags := by
  rw [memblockFindInRangeNode]
  split
  · exact findBottomUpLoop_dvd _ _ _ hk _ _ _
  · exact findTopDownLoop_dvd _ _ _ _ _ _ _

/-! ### The loops' bound on rounds is never reached -/

end QuestOS
