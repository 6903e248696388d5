import Mathlib.Order.Bounds.Basic
import QuestOS.Memblock.Cells
import QuestOS.Memblock.Minimal

/-!
# The highest free block

Memory is allocated from the top: among the aligned free blocks inside the limits,
`memblock_alloc_range_nid` reserves the highest one.  A block of free memory lies in a single cell, because memory
regions of one node and without flags do not touch; the search goes through the cells from the top and takes
the highest candidate of the first cell that has one.
-/

namespace QuestOS

open Regions Sweep

variable {a b : List MemblockRegion} {nid : Int} {flags : Nat}

/-! ### Candidates -/

structure FitsIn (start fin size align : Nat) (r : Nat × Nat) (c : Nat) : Prop where
  aligned : align ∣ c
  start_le : start ≤ c
  le_fin : c + size ≤ fin
  fst_le : r.1 ≤ c
  le_snd : c + size ≤ r.2

theorem le_roundDown {c x k : Nat} (hc : 2 ^ k ∣ c) (h : c ≤ x) : c ≤ roundDown x (2 ^ k) := by
  obtain ⟨d, rfl⟩ := hc
  rw [roundDown_two_pow, Nat.mul_comm]
  exact Nat.mul_le_mul_right _ ((Nat.le_div_iff_mul_le (Nat.two_pow_pos k)).2 (by rwa [Nat.mul_comm]))

def candidate (start fin size align : Nat) (r : Nat × Nat) : Option Nat :=
  if clamp r.2 start fin < size then none
  else
    if clamp r.1 start fin ≤ roundDown (clamp r.2 start fin - size) align then
      some (roundDown (clamp r.2 start fin - size) align)
    else none

variable {start fin size k : Nat} {r : Nat × Nat}

theorem candidate_eq_some {c : Nat} (hsize : 0 < size) (hlim : start ≤ fin)
    (h : candidate start fin size (2 ^ k) r = some c) : IsGreatest {c | FitsIn start fin size (2 ^ k) r c} c := by
  unfold candidate at h
  split at h
  · cases h
  · rename_i hsz
    split at h
    · rename_i hge
      have hle := roundDown_le (clamp r.2 start fin - size) (2 ^ k)
      cases h
      refine ⟨⟨roundDown_dvd _ k, ?_, ?_, ?_, ?_⟩, ?_⟩
      · simp only [clamp] at *
        omega
      · simp only [clamp] at *
        omega
      · simp only [clamp] at *
        omega
      · simp only [clamp] at *
        omega
      · rintro c' ⟨h1, h2, h3, h4, h5⟩
        refine le_roundDown h1 ?_
        simp only [clamp]
        omega
    · cases h

theorem candidate_eq_none (hlim : start ≤ fin) (h : candidate start fin size (2 ^ k) r = none) (c : Nat) :
    ¬ FitsIn start fin size (2 ^ k) r c := by
  rintro ⟨h1, h2, h3, h4, h5⟩
  have hc : c ≤ clamp r.2 start fin - size := by
    simp only [clamp]
    omega
  have hround := le_roundDown h1 hc
  unfold candidate at h
  rw [if_neg (by simp only [clamp]; omega), if_pos (by simp only [clamp] at *; omega)] at h
  cases h

/-! ### The search -/

def FitsBox (a b : List MemblockRegion) (start fin size align na nb c : Nat) : Prop :=
  ∃ q, Box 0 na 0 nb q ∧ FitsIn start fin size align (cell (memIvl a) (gapIvl b) q) c

theorem findTopDownLoop_greatest (h : Iterable nid flags a b) (hsize : 0 < size) (hlim : start ≤ fin)
    {fuel na nb : Nat} (hna : na ≤ a.length) (hnb : nb ≤ b.length + 1) (hfuel : na + nb < fuel) :
    IsGreatest {c | FitsBox a b start fin size (2 ^ k) na nb c}
        (findTopDownLoop nid flags a b start fin size (2 ^ k) fuel na nb) ∨
      findTopDownLoop nid flags a b start fin size (2 ^ k) fuel na nb = 0 ∧
        ∀ c, ¬ FitsBox a b start fin size (2 ^ k) na nb c := by
  induction fuel generalizing na nb with
  | zero => omega
  | succ fuel ih =>
    have hstep := h.rev_step hna hnb
    rw [findTopDownLoop]
    cases hr : nextMemRangeRev nid flags a b na nb with
    | none =>
      rw [hr] at hstep
      refine .inr ⟨rfl, ?_⟩
      rintro c ⟨q, hq, hfit⟩
      exact hstep q c hq ⟨hfit.fst_le, by have := hfit.le_snd; omega⟩
    | some r =>
      rw [hr] at hstep
      obtain ⟨⟨p, htake⟩, hrna, -⟩ := hstep
      obtain ⟨-, hrnb, hlt⟩ := nextMemRangeRev_spec hnb hr
      -- a candidate is in the cell that was taken or in one of those that are left
      have hsplit : ∀ q c, Box 0 na 0 nb q → FitsIn start fin size (2 ^ k) (cell (memIvl a) (gapIvl b) q) c →
          q = p ∨ Box 0 r.na 0 r.nb q := fun q c hq hfit =>
        htake.all q c hq ⟨hfit.fst_le, by have := hfit.le_snd; omega⟩
      have hround : (if clamp r.fin start fin < size then
          findTopDownLoop nid flags a b start fin size (2 ^ k) fuel r.na r.nb
        else if clamp r.start start fin ≤ roundDown (clamp r.fin start fin - size) (2 ^ k) then
          roundDown (clamp r.fin start fin - size) (2 ^ k)
        else findTopDownLoop nid flags a b start fin size (2 ^ k) fuel r.na r.nb) =
          (candidate start fin size (2 ^ k) (r.start, r.fin)).getD
            (findTopDownLoop nid flags a b start fin size (2 ^ k) fuel r.na r.nb) := by
        unfold candidate
        split_ifs <;> rfl
      dsimp only
      rw [hround]
      cases hc : candidate start fin size (2 ^ k) (r.start, r.fin) with
      | some c =>
        rw [htake.eq] at hc
        obtain ⟨hfit, hmax⟩ := candidate_eq_some hsize hlim hc
        refine .inl ⟨⟨p, htake.mem, hfit⟩, ?_⟩
        rintro c' ⟨q, hq, hfit'⟩
        rcases hsplit q c' hq hfit' with rfl | hq'
        · exact hmax hfit'
        · have hbelow : (cell (memIvl a) (gapIvl b) q).2 ≤ (cell (memIvl a) (gapIvl b) p).1 :=
            cell_le_cell (ascending_memIvl h.memory) (ascending_gapIvl h.reserved)
              (htake.mem.1.2.trans_le hna) (htake.mem.2.2.trans_le hnb) (htake.rest q hq').2
          have h1 := hfit'.le_snd
          have h2 : (cell (memIvl a) (gapIvl b) p).1 ≤ c := hfit.fst_le
          show c' ≤ c
          omega
      | none =>
        rw [htake.eq] at hc
        have hnone := candidate_eq_none hlim hc
        have hiff : ∀ c, FitsBox a b start fin size (2 ^ k) na nb c ↔ FitsBox a b start fin size (2 ^ k) r.na r.nb c := by
          intro c
          constructor
          · rintro ⟨q, hq, hfit⟩
            rcases hsplit q c hq hfit with rfl | hq'
            · exact absurd hfit (hnone c)
            · exact ⟨q, hq', hfit⟩
          · rintro ⟨q, hq, hfit⟩
            exact ⟨q, (htake.rest q hq).1, hfit⟩
        simp only [hiff]
        exact ih (by omega) hrnb (by omega)

/-! ### Free blocks and cells -/

theorem exists_cell_of_free {c : Nat} {t : RegionAttr} (ha : SortedFrom 0 a) (hb : SortedFrom 0 b) (hmin : Minimal a)
    (htag : ∀ r ∈ a, r.tag = t) (hmax : ∀ r ∈ a, r.fin ≤ physAddrMax) (hsize : 0 < size)
    (hmem : ∀ x, c ≤ x → x < c + size → (lookup a x).isSome) (hfree : ∀ x, c ≤ x → x < c + size → lookup b x = none) :
    ∃ q, Box 0 a.length 0 (b.length + 1) q ∧ (cell (memIvl a) (gapIvl b) q).1 ≤ c ∧
      c + size ≤ (cell (memIvl a) (gapIvl b) q).2 := by
  obtain ⟨⟨i, j⟩, hq, hin⟩ := (inside_box_iff hb hmax).2
    ⟨hmem c (Nat.le_refl c) (by omega), hfree c (Nat.le_refl c) (by omega)⟩
  refine ⟨(i, j), hq, hin.1, ?_⟩
  obtain ⟨hi, hj⟩ := inside_cell.1 hin
  have hia : i < a.length := hq.1.2
  rw [memIvl_eq hia] at hi
  have hmemEnd : c + size ≤ a[i].fin := by
    by_contra hlt
    -- the end of the region is memory too, so that another region begins there
    obtain ⟨s, hs, hs1, hs2⟩ := lookup_isSome_iff.1 (hmem a[i].fin (by have := hi.2; omega) (by omega))
    obtain ⟨l, hl, rfl⟩ := List.getElem_of_mem hs
    have hil : i < l := by
      by_contra hle
      rcases Nat.lt_or_ge l i with hli | hli
      · have := ha.fin_le_base hli (List.getElem?_eq_getElem hl) (List.getElem?_eq_getElem hia)
        have := ha.size_pos (List.getElem_mem hia)
        simp only [Region.fin] at *
        omega
      · obtain rfl : l = i := by omega
        omega
    have hbase := ha.fin_le_base hil (List.getElem?_eq_getElem hia) (List.getElem?_eq_getElem hl)
    have hx : c ≤ a[i].fin - 1 ∧ a[i].fin - 1 + 1 = a[l].base := by
      have := hi.2
      dsimp only at this
      omega
    obtain ⟨u, hu⟩ := Option.isSome_iff_exists.1 (hmem (a[i].fin - 1) hx.1 (by omega))
    have htu : u = t := by
      obtain ⟨r', hr', rfl⟩ := mem_of_lookup hu
      exact htag r' hr'
    refine ha.minimal_iff.1 hmin a[l] hs (a[i].fin - 1) hx.2 ?_
    rw [hu, htag a[l] hs, htu]
  have hgapEnd : c + size ≤ gapEnd b j := by
    by_contra hlt
    have hj2 : c < gapEnd b j := hj.2
    have hnone := hfree (gapEnd b j) (by omega) (by omega)
    rcases Nat.lt_or_ge j b.length with hjb | hjb
    · rw [gapEnd_of_lt hjb] at hnone
      have hpos := hb.size_pos (List.getElem_mem hjb)
      exact lookup_eq_none_iff.1 hnone b[j] (List.getElem_mem hjb)
        ⟨Nat.le_refl _, Nat.lt_add_of_pos_right hpos⟩
    · rw [gapEnd, List.getElem?_eq_none hjb] at hlt
      have := hmax a[i] (List.getElem_mem hia)
      simp only [Option.map_none, Option.getD_none] at hlt
      omega
  exact le_min (by rw [memIvl_eq hia]; exact hmemEnd) hgapEnd

/-! ### The allocation -/

def Memblock.allocEnd (mb : Memblock) (fin : Nat) : Nat := if fin = 0 ∨ fin = 1 then mb.currentLimit else fin

/-- An address that an allocation may return: aligned, and the block there is free memory inside the limits. -/
def Memblock.Allocatable (mb : Memblock) (size align start fin c : Nat) : Prop :=
  (if align = 0 then smpCacheBytes else align) ∣ c ∧ FreeBlock mb (max start pageSize) (mb.allocEnd fin) c size

/-- A memblock state as the allocator sees it: both arrays canonical, memory of one node and without flags, searched
from the top. -/
structure Memblock.TopDown (mb : Memblock) : Prop where
  memory : mb.memory.Canonical
  reserved : mb.reserved.Canonical
  bottomUp : mb.bottomUp = false
  uniform : ∃ nid, ∀ r ∈ mb.memory.regions, r.tag = ⟨0, nid⟩

variable {mb : Memblock}

theorem Memblock.TopDown.iterable (h : mb.TopDown) :
    Iterable numaNoNode 0 mb.memory.regions mb.reserved.regions where
  memory := h.memory.sorted
  reserved := h.reserved.sorted
  reserved_max := fun _ hr => (h.reserved.sorted.fin_le_finFrom hr).trans h.reserved.bound
  taken := by
    obtain ⟨nid, htag⟩ := h.uniform
    intro r hr
    simp [shouldSkipRegion, htag r hr, numaNoNode]

/-- What may be allocated lies in a cell, within the limits that the search uses. -/
theorem Memblock.TopDown.allocatable_iff (h : mb.TopDown) (hsize : 0 < size) (align start fin c : Nat) :
    mb.Allocatable size align start fin c ↔
      FitsBox mb.memory.regions mb.reserved.regions (max start pageSize)
        (max (max start pageSize) (mb.allocEnd fin)) size (if align = 0 then smpCacheBytes else align)
        mb.memory.cnt (mb.reserved.cnt + 1) c := by
  have hmax : ∀ r ∈ mb.memory.regions, r.fin ≤ physAddrMax := fun _ hr =>
    (h.memory.sorted.fin_le_finFrom hr).trans h.memory.bound
  obtain ⟨nid, htag⟩ := h.uniform
  constructor
  · rintro ⟨halign, h1, h2, h3, h4⟩
    obtain ⟨q, hq, hq1, hq2⟩ := exists_cell_of_free h.memory.sorted h.reserved.sorted h.memory.minimal htag hmax hsize h3 h4
    exact ⟨q, hq, halign, h1, by omega, hq1, hq2⟩
  · rintro ⟨q, hq, halign, h1, h2, h3, h4⟩
    have hfree : ∀ x, c ≤ x → x < c + size →
        (lookup mb.memory.regions x).isSome ∧ lookup mb.reserved.regions x = none := fun x hx1 hx2 =>
      (inside_box_iff h.reserved.sorted hmax).1 ⟨q, hq, by omega, by omega⟩
    refine ⟨halign, h1, by omega, fun x hx1 hx2 => (hfree x hx1 hx2).1, fun x hx1 hx2 => (hfree x hx1 hx2).2⟩

theorem Memblock.TopDown.find_greatest (h : mb.TopDown) (hsize : 0 < size) {align : Nat} (start fin : Nat)
    (halign : align = 0 ∨ ∃ k, align = 2 ^ k) {c : Nat}
    (hc : memblockFindInRangeNode mb size (if align = 0 then smpCacheBytes else align) start fin numaNoNode 0 = c) :
    IsGreatest {c | mb.Allocatable size align start fin c} c ∧ pageSize ≤ c ∨
      c = 0 ∧ ∀ c, ¬ mb.Allocatable size align start fin c := by
  obtain ⟨k, hk⟩ : ∃ k, (if align = 0 then smpCacheBytes else align) = 2 ^ k := by
    rcases halign with rfl | ⟨k, rfl⟩
    · exact ⟨6, rfl⟩
    · exact ⟨k, if_neg (Nat.two_pow_pos k).ne'⟩
  have hsearch := findTopDownLoop_greatest (k := k) h.iterable hsize (Nat.le_max_left (max start pageSize) (mb.allocEnd fin))
    (Nat.le_refl mb.memory.cnt) (Nat.le_refl (mb.reserved.cnt + 1)) (Nat.lt_succ_self _)
  simp only [memblockFindInRangeNode, h.bottomUp, Bool.false_eq_true, if_false, hk] at hc
  simp only [h.allocatable_iff hsize, hk]
  rw [← hc]
  refine hsearch.imp_left fun hgreat => ⟨hgreat, ?_⟩
  obtain ⟨q, -, hfit⟩ := hgreat.1
  exact (Nat.le_max_right _ _).trans hfit.start_le

theorem Memblock.TopDown.le_max (h : mb.TopDown) (hsize : 0 < size) {align start fin c : Nat}
    (hc : mb.Allocatable size align start fin c) : c + size ≤ physAddrMax := by
  obtain ⟨r, hr, -, hx⟩ := lookup_isSome_iff.1 (hc.2.memory (c + size - 1) (by omega) (by omega))
  have := (h.memory.sorted.fin_le_finFrom hr).trans h.memory.bound
  omega

theorem Memblock.TopDown.find_eq (h : mb.TopDown) (hsize : 0 < size) {align start fin c : Nat}
    (halign : align = 0 ∨ ∃ k, align = 2 ^ k) (hgreat : IsGreatest {c | mb.Allocatable size align start fin c} c) :
    memblockFindInRangeNode mb size (if align = 0 then smpCacheBytes else align) start fin numaNoNode 0 = c := by
  rcases h.find_greatest hsize start fin halign rfl with ⟨hgreat', -⟩ | ⟨-, hnone⟩
  · exact hgreat'.unique hgreat
  · exact absurd hgreat.1 (hnone c)

theorem Memblock.TopDown.alloc_found (h : mb.TopDown) (hsize : 0 < size) {align start fin c : Nat}
    (halign : align = 0 ∨ ∃ k, align = 2 ^ k) (exactNid : Bool)
    (hgreat : IsGreatest {c | mb.Allocatable size align start fin c} c) (hroom : mb.reserved.cnt + 1 ≤ mb.reserved.max) :
    ∃ t, memblockAllocRangeNid size align start fin numaNoNode exactNid mb = some ({ mb with reserved := t }, c) ∧
      t.Canonical ∧
      ∀ x, lookup t.regions x =
        if c ≤ x ∧ x < c + size then some ⟨memblockRsrvKern, numaNoNode⟩ else lookup mb.reserved.regions x := by
  have hfound := h.find_eq hsize halign hgreat
  have hne : c ≠ 0 := by
    have hge := hgreat.1.2.start_le
    have : pageSize = 4096 := rfl
    omega
  have hle := h.le_max hsize hgreat.1
  have hfree := hgreat.1.2.notReserved
  have hgap := gapsIn_free h.reserved.sorted (Nat.lt_add_of_pos_right hsize) hfree
  have hcap : mb.reserved.cnt + gapsIn (c + memblockCapSize c size) c mb.reserved.regions ≤ mb.reserved.max := by
    rw [memblockCapSize_eq hle, hgap]
    exact hroom
  obtain ⟨t, hadd, hcanon, -, -, hlookup⟩ := addRange_canonical (memblockDoubleArray doubleDepth) .reserved
    ⟨memblockRsrvKern, numaNoNode⟩ h.reserved hcap
  have hreserve : memblockReserve c size numaNoNode memblockRsrvKern mb = some (mb.set .reserved t, 0) := hadd
  refine ⟨t, ?_, hcanon, fun x => ?_⟩
  · simp only [memblockAllocRangeNid, hfound, if_neg hne, hreserve]
    simp [hne]
  · refine (hlookup x).trans ?_
    rw [addLookup, memblockCapSize_eq hle]
    by_cases hx : c ≤ x ∧ x < c + size
    · rw [if_pos hx, if_pos hx]
      exact (congrArg (Option.or · _) (hfree x hx.1 hx.2)).trans rfl
    · rw [if_neg hx, if_neg hx, Option.or_none]
      rfl

theorem Memblock.TopDown.alloc_none (h : mb.TopDown) (hsize : 0 < size) {align start fin : Nat}
    (halign : align = 0 ∨ ∃ k, align = 2 ^ k) (exactNid : Bool) (hnone : ∀ c, ¬ mb.Allocatable size align start fin c) :
    memblockAllocRangeNid size align start fin numaNoNode exactNid mb = some (mb, 0) := by
  have hfound : memblockFindInRangeNode mb size (if align = 0 then smpCacheBytes else align) start fin numaNoNode 0 = 0 := by
    rcases h.find_greatest hsize start fin halign rfl with ⟨hgreat, -⟩ | ⟨h0, -⟩
    · exact absurd hgreat.1 (hnone _)
    · exact h0
  -- no node is asked for, so that there is one attempt
  have hnode : ¬ 0 ≤ numaNoNode := by decide
  simp only [memblockAllocRangeNid, hnode, false_and, if_false, hfound, if_true, ne_eq, not_true_eq_false]

theorem Memblock.TopDown.greatest_or_none (h : mb.TopDown) (hsize : 0 < size) {align : Nat}
    (halign : align = 0 ∨ ∃ k, align = 2 ^ k) (start fin : Nat) :
    (∃ c, IsGreatest {c | mb.Allocatable size align start fin c} c ∧ c ≠ 0) ∨
      ∀ c, ¬ mb.Allocatable size align start fin c := by
  rcases h.find_greatest hsize start fin halign rfl with ⟨hgreat, hge⟩ | ⟨-, hnone⟩
  · exact .inl ⟨_, hgreat, (Nat.lt_of_lt_of_le (by decide) hge).ne'⟩
  · exact .inr hnone

/-- `memblock_alloc_range_nid` reserves the highest block that may be allocated; it returns 0, and changes nothing,
if and only if there is none. -/
theorem memblock_alloc_highest (mb : Memblock) (size align start fin : Nat) (exactNid : Bool) (h : mb.TopDown)
    (hsize : 0 < size) (halign : align = 0 ∨ ∃ k, align = 2 ^ k)
    (hroom : (∃ c, mb.Allocatable size align start fin c) → mb.reserved.cnt + 1 ≤ mb.reserved.max) :
    ∃ mb' c, memblockAllocRangeNid size align start fin numaNoNode exactNid mb = some (mb', c) ∧
      (c = 0 ↔ ¬ ∃ c, mb.Allocatable size align start fin c) ∧ (c = 0 → mb' = mb) ∧
      (c ≠ 0 → IsGreatest {c | mb.Allocatable size align start fin c} c ∧ mb'.memory = mb.memory ∧
        mb'.reserved.Canonical ∧
        ∀ x, lookup mb'.reserved.regions x =
          if c ≤ x ∧ x < c + size then some ⟨memblockRsrvKern, numaNoNode⟩ else lookup mb.reserved.regions x) := by
  rcases h.greatest_or_none hsize halign start fin with ⟨c, hgreat, hne⟩ | hnone
  · obtain ⟨t, halloc, hcanon, hlookup⟩ := h.alloc_found hsize halign exactNid hgreat (hroom ⟨c, hgreat.1⟩)
    refine ⟨_, c, halloc, ?_, fun h0 => absurd h0 hne, fun _ => ⟨hgreat, rfl, hcanon, hlookup⟩⟩
    exact ⟨fun h0 => absurd h0 hne, fun hno => absurd ⟨c, hgreat.1⟩ hno⟩
  · refine ⟨mb, 0, h.alloc_none hsize halign exactNid hnone, ?_, fun _ => rfl, fun h0 => absurd rfl h0⟩
    exact ⟨fun _ => fun ⟨c, hc⟩ => hnone c hc, fun _ => rfl⟩

def halfPageBank : Memblock where
  bottomUp := false
  currentLimit := physAddrMax
  memory := { regions := [⟨0x1000, 0x2000, ⟨0, 0⟩⟩], max := 128, totalSize := 0x2000, array := none }
  reserved := { regions := [⟨0x2800, 0x800, ⟨0, 0⟩⟩], max := 128, totalSize := 0x800, array := none }

theorem halfPageBank_topDown : halfPageBank.TopDown where
  memory := ⟨by decide, by decide, minimal_singleton _, by decide⟩
  reserved := ⟨by decide, by decide, minimal_singleton _, by decide⟩
  bottomUp := rfl
  uniform := ⟨0, by decide⟩

theorem memblock_alloc_highest_halfPageBank : halfPageBank.TopDown ∧
    ∃ mb' c, memblockAllocRangeNid 0x100 0 0 0 numaNoNode false halfPageBank = some (mb', c) ∧
      (c = 0 ↔ ¬ ∃ c, halfPageBank.Allocatable 0x100 0 0 0 c) ∧ (c = 0 → mb' = halfPageBank) ∧
      (c ≠ 0 → IsGreatest {c | halfPageBank.Allocatable 0x100 0 0 0 c} c ∧ mb'.memory = halfPageBank.memory ∧
        mb'.reserved.Canonical ∧
        ∀ x, lookup mb'.reserved.regions x =
          if c ≤ x ∧ x < c + 0x100 then some ⟨memblockRsrvKern, numaNoNode⟩
          else lookup halfPageBank.reserved.regions x) :=
  ⟨halfPageBank_topDown,
    memblock_alloc_highest halfPageBank 0x100 0 0 0 false halfPageBank_topDown (by decide) (.inl rfl) fun _ => by decide⟩

end QuestOS
