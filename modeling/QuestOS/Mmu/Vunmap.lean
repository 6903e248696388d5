import QuestOS.Lib.Trans
import QuestOS.Mmu.PteRange

/-!
# `vunmap_pte_range`

Unmapping clears a whole group of sixteen entries when it meets a contiguous entry.  A group is contiguous
because one range was mapped with it, or because `set_pte_at` folded it; in the second case it belongs to
several ranges, and unmapping one of them takes pages of the others along.

`Represents` says which entries a table has after ranges were mapped without a fold.  It is kept by mapping a
range that does not complete a group of others (`represents_map`) and by unmapping (`represents_unmap`); after a
fold the range that completed the group cannot be unmapped alone (`not_unmapOk_of_folds`).
-/

namespace QuestOS

open Bytes PageTable

/-! ### The functions -/

def archVmapPteRangeUnmapSize (ptep : Nat) (m : Mem) : Nat := if pteValidCont (load64 m ptep) then contPteSize else 4096

/-- `huge_ptep_get_and_clear` with `get_clear_contig`, without the entry they return. -/
def hugePtepGetAndClear (ptep sz : Nat) (m : Mem) : Mem := clearFlush (numContigPtes sz).1 ptep m

def ptepGetAndClear (ptep : Nat) (m : Mem) : Mem := store64 (contpteTryUnfold ptep (load64 m ptep) m) ptep 0

def vunmapPteLoop (fin : Nat) : (fuel pte addr : Nat) → Mem → Option Mem
  | 0, _, _, _ => none
  | fuel + 1, pte, addr, m =>
    let size := archVmapPteRangeUnmapSize pte m
    if size ≠ 4096 then
      let pte := if addr % size ≠ 0 then alignDown pte (8 * (size / 4096)) else pte
      let addr := if addr % size ≠ 0 then alignDown addr size else addr
      let m := hugePtepGetAndClear pte size m
      let size := if sub64 fin addr < size then sub64 fin addr else size
      if add64 addr size ≠ fin then vunmapPteLoop fin fuel (pte + 8 * (size / 4096)) (add64 addr size) m else some m
    else
      let m := ptepGetAndClear pte m
      if add64 addr size ≠ fin then vunmapPteLoop fin fuel (pte + 8 * (size / 4096)) (add64 addr size) m else some m

def vmapPte (base t : Nat) (r : PteRange) (m : Mem) : Option Mem :=
  let addr := PteRange.addrOf base r.start
  vmapPteLoop r.prot (PteRange.addrOf base r.fin) 512 (t + 8 * index 0 addr) addr r.frame m

def vunmapPte (base t : Nat) (r : PteRange) (m : Mem) : Option Mem :=
  let addr := PteRange.addrOf base r.start
  vunmapPteLoop (PteRange.addrOf base r.fin) 512 (t + 8 * index 0 addr) addr m

namespace PteRange

variable {r q : PteRange} {t base i j : Nat} {m m' : Mem}

theorem index_addrOf (hbase : base % span 1 = 0) (hi : i < 512) : index 0 (addrOf base i) = i := by
  have hspan : span 1 = 2097152 := rfl
  rw [hspan] at hbase
  unfold index addrOf
  rw [span_zero]
  omega

/-! ### Clearing entries -/

def Cleared (t a b : Nat) (m m' : Mem) : Prop := ∀ i, slot m' t i = if a ≤ i ∧ i < b then 0 else slot m t i

theorem Cleared.trans {a b c : Nat} {m'' : Mem} (h : Cleared t a b m m') (h' : Cleared t b c m' m'') (hab : a ≤ b)
    (hbc : b ≤ c) : Cleared t a c m m'' := by
  intro i
  rw [h' i, h i]
  by_cases h1 : b ≤ i ∧ i < c
  · rw [if_pos h1, if_pos (by omega)]
  · rw [if_neg h1]
    by_cases h2 : a ≤ i ∧ i < b
    · rw [if_pos h2, if_pos (by omega)]
    · rw [if_neg h2, if_neg (by omega)]

theorem Cleared.of_has (h : Cleared t r.start r.fin m m') (hi : r.Has i) : slot m' t i = 0 := (h i).trans (if_pos hi)

theorem Cleared.of_not (h : Cleared t r.start r.fin m m') (hi : ¬ r.Has i) : slot m' t i = slot m t i :=
  (h i).trans (if_neg hi)

theorem cleared_one (m : Mem) (t j : Nat) : Cleared t j (j + 1) m (store64 m (t + 8 * j) 0) := by
  intro i
  by_cases h : i = j
  · rw [h, slot_store64, if_pos (by omega)]
  · rw [slot_store64_of_ne h, if_neg (by omega)]

theorem cleared_clearFlush (n : Nat) (m : Mem) (t j : Nat) : Cleared t j (j + n) m (clearFlush n (t + 8 * j) m) := by
  induction n generalizing j m with
  | zero =>
    intro i
    rw [if_neg (by omega)]
    rfl
  | succ n ih =>
    have h := ih (store64 m (t + 8 * j) 0) (j + 1)
    rw [Nat.mul_add, ← Nat.add_assoc, show j + 1 + n = j + (n + 1) by omega] at h
    exact (cleared_one m t j).trans h (by omega) (by omega)

theorem pteValidCont_entry (h : r.Has i) : pteValidCont (r.entry i) = true ↔ r.Whole i ∧ r.prot.getLsbD 52 = true := by
  have hbit : ∀ b, b < 12 ∨ 50 ≤ b → (r.entry i).getLsbD b = (r.protAt i).getLsbD b :=
    fun b hb => pfnPte_bit (frame_lt (frameAt_lt h)) hb
  rw [pteValidCont, isValid, pteCont, hbit 0 (by decide), hbit 52 (by decide), (r.page_protAt i).type_bit (by decide),
    Bool.true_and, protAt]
  by_cases hw : r.Whole i
  · simp [hw]
  · rw [if_neg hw, noncont_bit]
    simp [hw]

theorem vunmapPteLoop_page {e : Nat} (hlt : j < e) (hfin : addrOf base e < 2 ^ 64) (hc : pteValidCont (slot m t j) = false)
    (fuel : Nat) :
    vunmapPteLoop (addrOf base e) (fuel + 1) (t + 8 * j) (addrOf base j) m =
      (if j + 1 < e then vunmapPteLoop (addrOf base e) fuel (t + 8 * (j + 1)) (addrOf base (j + 1))
        (store64 m (t + 8 * j) 0) else some (store64 m (t + 8 * j) 0)) := by
  have hsize : archVmapPteRangeUnmapSize (t + 8 * j) m = 4096 := by
    rw [archVmapPteRangeUnmapSize, show load64 m (t + 8 * j) = slot m t j from rfl, hc]
    rfl
  have hclear : ptepGetAndClear (t + 8 * j) m = store64 m (t + 8 * j) 0 := by
    rw [ptepGetAndClear, contpteTryUnfold, show load64 m (t + 8 * j) = slot m t j from rfl, hc]
    rfl
  have hadd : add64 (addrOf base j) 4096 = addrOf base (j + 1) :=
    add64_addrOf (n := 1) (Nat.lt_of_le_of_lt (addrOf_le base hlt) hfin)
  have hiff : addrOf base (j + 1) ≠ addrOf base e ↔ j + 1 < e := by
    unfold addrOf
    omega
  rw [vunmapPteLoop]
  simp only [hsize, ne_eq, not_true_eq_false, if_false, hclear, hadd]
  rw [show (4096 : Nat) / 4096 = 1 from rfl, Nat.mul_add, ← Nat.add_assoc]
  simp only [hiff]

theorem vunmapPteLoop_group {e : Nat} (ht : t % 4096 = 0) (hbase : base % span 1 = 0) (hcover : j / 16 * 16 + 16 ≤ e)
    (hfin : addrOf base e < 2 ^ 64) (hc : pteValidCont (slot m t j) = true) (fuel : Nat) :
    vunmapPteLoop (addrOf base e) (fuel + 1) (t + 8 * j) (addrOf base j) m =
      (if j / 16 * 16 + 16 < e then vunmapPteLoop (addrOf base e) fuel (t + 8 * (j / 16 * 16 + 16))
        (addrOf base (j / 16 * 16 + 16)) (clearFlush 16 (t + 8 * (j / 16 * 16)) m)
      else some (clearFlush 16 (t + 8 * (j / 16 * 16)) m)) := by
  have hspan : span 1 = 2097152 := rfl
  have hcs : contPteSize = 65536 := rfl
  rw [hspan] at hbase
  have hsize : archVmapPteRangeUnmapSize (t + 8 * j) m = contPteSize := by
    rw [archVmapPteRangeUnmapSize, show load64 m (t + 8 * j) = slot m t j from rfl, hc]
    rfl
  have hpte : (if addrOf base j % contPteSize ≠ 0 then alignDown (t + 8 * j) (8 * (contPteSize / 4096)) else t + 8 * j) =
      t + 8 * (j / 16 * 16) := by
    rw [hcs]
    unfold addrOf alignDown
    split <;> omega
  have haddr : (if addrOf base j % contPteSize ≠ 0 then alignDown (addrOf base j) contPteSize else addrOf base j) =
      addrOf base (j / 16 * 16) := by
    rw [hcs]
    unfold addrOf alignDown
    split <;> omega
  have hsub : ¬ sub64 (addrOf base e) (addrOf base (j / 16 * 16)) < contPteSize := by
    have : sub64 (addrOf base e) (addrOf base (j / 16 * 16)) = (e - j / 16 * 16) * 4096 := by
      unfold addrOf at *
      unfold sub64
      omega
    omega
  have hadd : add64 (addrOf base (j / 16 * 16)) contPteSize = addrOf base (j / 16 * 16 + 16) :=
    add64_addrOf (n := 16) (Nat.lt_of_le_of_lt (addrOf_le base hcover) hfin)
  have hiff : addrOf base (j / 16 * 16 + 16) ≠ addrOf base e ↔ j / 16 * 16 + 16 < e := by
    unfold addrOf
    omega
  have hnum : (numContigPtes contPteSize).1 = 16 := by decide
  have hne : contPteSize ≠ 4096 := by decide
  rw [vunmapPteLoop]
  simp only [hsize, hpte, haddr, hsub, if_false, hadd, hugePtepGetAndClear, hnum]
  rw [if_pos hne, show contPteSize / 4096 = 16 from rfl, Nat.mul_add, ← Nat.add_assoc]
  simp only [hiff]

theorem vunmapPteLoop_cleared (ht : t % 4096 = 0) (hbase : base % span 1 = 0) (hfin : addrOf base r.fin < 2 ^ 64)
    (hj : r.Has j) (hin : j % 16 ≠ 0 → ¬ (r.Whole j ∧ r.prot.getLsbD 52 = true))
    (hentry : ∀ i, j ≤ i → i < r.fin → slot m t i = r.entry i) (fuel : Nat) (hfuel : r.fin ≤ j + fuel) :
    ∃ m', vunmapPteLoop (addrOf base r.fin) fuel (t + 8 * j) (addrOf base j) m = some m' ∧ Cleared t j r.fin m m' := by
  induction fuel generalizing j m with
  | zero =>
    have := hj.2
    omega
  | succ fuel ih =>
    obtain ⟨h1, h2⟩ := hj
    have hcont := pteValidCont_entry (r := r) ⟨h1, h2⟩
    rw [← hentry j (Nat.le_refl j) h2] at hcont
    by_cases hc : r.Whole j ∧ r.prot.getLsbD 52 = true
    · -- a group of the range
      have h0 : j % 16 = 0 := by
        by_contra h0
        exact hin h0 hc
      have hg : j / 16 * 16 = j := by omega
      have hcover := hc.1.2.1
      have hclear := cleared_clearFlush 16 m t j
      rw [vunmapPteLoop_group ht hbase hcover hfin (hcont.2 hc), hg]
      rw [hg] at hcover
      by_cases hmore : j + 16 < r.fin
      · rw [if_pos hmore]
        obtain ⟨m', hm', hcl⟩ := ih ⟨by omega, hmore⟩ (fun h => absurd (by omega) h)
          (fun i hi1 hi2 => by rw [hclear i, if_neg (by omega), hentry i (by omega) hi2]) (by omega)
        exact ⟨m', hm', hclear.trans hcl (by omega) (by omega)⟩
      · rw [if_neg hmore]
        rw [show j + 16 = r.fin by omega] at hclear
        exact ⟨_, rfl, hclear⟩
    · have hclear := cleared_one m t j
      rw [vunmapPteLoop_page h2 hfin (by rw [← Bool.not_eq_true, hcont]; exact hc)]
      by_cases hmore : j + 1 < r.fin
      · rw [if_pos hmore]
        have hnext : (j + 1) % 16 ≠ 0 → ¬ (r.Whole (j + 1) ∧ r.prot.getLsbD 52 = true) := by
          intro h hw
          rw [whole_add_one h] at hw
          exact hc hw
        obtain ⟨m', hm', hcl⟩ := ih ⟨by omega, hmore⟩ hnext
          (fun i hi1 hi2 => by rw [hclear i, if_neg (by omega), hentry i (by omega) hi2]) (by omega)
        exact ⟨m', hm', hclear.trans hcl (by omega) (by omega)⟩
      · rw [if_neg hmore]
        rw [show j + 1 = r.fin by omega] at hclear
        exact ⟨_, rfl, hclear⟩

theorem has_start (r : PteRange) : r.Has r.start := by
  have := r.count_pos
  have := r.fin_eq
  exact ⟨Nat.le_refl _, by omega⟩

theorem entered_start (r : PteRange) : r.Entered r.start := by
  refine ⟨r.has_start, fun h hw => ?_⟩
  have := hw.1
  omega

theorem fin_le_512 (r : PteRange) : r.fin ≤ 512 := r.fin_le

theorem vunmapPte_cleared (ht : t % 4096 = 0) (hbase : base % span 1 = 0) (hfin : addrOf base r.fin < 2 ^ 64)
    (hentry : ∀ i, r.Has i → slot m t i = r.entry i) :
    ∃ m', vunmapPte base t r m = some m' ∧ Cleared t r.start r.fin m m' := by
  have h512 := r.fin_le_512
  have hlt := r.has_start.2
  rw [vunmapPte, index_addrOf hbase (by omega)]
  exact vunmapPteLoop_cleared ht hbase hfin r.has_start (fun h hw => r.entered_start.2 h hw.1)
    (fun i hi1 hi2 => hentry i ⟨hi1, hi2⟩) 512 (by omega)

theorem vunmapPte_joined {m₀ : Mem} (ht : t % 4096 = 0) (hbase : base % span 1 = 0) (hfin : addrOf base r.fin < 2 ^ 64)
    (hcover : r.start / 16 * 16 + 16 ≤ r.fin) (h : r.Joined t m₀ m) :
    ∃ m', vunmapPte base t r m = some m' ∧ slot m' t (r.start / 16 * 16) = 0 := by
  have h512 := r.fin_le_512
  have hlt := r.has_start.2
  have hclear := cleared_clearFlush 16 m t (r.start / 16 * 16)
  rw [vunmapPte, index_addrOf hbase (by omega)]
  rw [vunmapPteLoop_group ht hbase hcover hfin (h.group r.start (by omega) (by omega))]
  by_cases hmore : r.start / 16 * 16 + 16 < r.fin
  · rw [if_pos hmore]
    obtain ⟨m', hm', hcl⟩ := vunmapPteLoop_cleared ht hbase hfin ⟨by omega, hmore⟩ (fun h => absurd (by omega) h)
      (fun i hi1 hi2 => by rw [hclear i, if_neg (by omega), h.written i hi1 hi2]) 511 (by omega)
    refine ⟨m', hm', ?_⟩
    rw [hcl, if_neg (by omega), hclear, if_pos (by omega)]
  · rw [if_neg hmore]
    refine ⟨_, rfl, ?_⟩
    rw [hclear, if_pos (by omega)]

end PteRange

open PteRange

/-! ### Runs -/

structure PteState where
  mem : Mem
  mapped : List PteRange

inductive PteCall
  | map (r : PteRange)
  | unmap (r : PteRange)

def PteRange.Apart (r q : PteRange) : Prop := r.fin ≤ q.start ∨ q.fin ≤ r.start

def PteState.Mappable (base : Nat) (s : PteState) (r : PteRange) : Prop :=
  addrOf base r.fin < 2 ^ 64 ∧ ∀ q ∈ s.mapped, r.Apart q

def pteSystem (base t : Nat) : Trans.System PteState PteCall where
  init s := s.mapped = [] ∧ ∀ i < 512, slot s.mem t i = 0
  step s c s' :=
    match c with
    | .map r => s.Mappable base r ∧ vmapPte base t r s.mem = some s'.mem ∧ s'.mapped = r :: s.mapped
    | .unmap r => r ∈ s.mapped ∧ vunmapPte base t r s.mem = some s'.mem ∧ s'.mapped = s.mapped.erase r

def PteRange.Covers (base : Nat) (r : PteRange) (x : Nat) : Prop := addrOf base r.start ≤ x ∧ x < addrOf base r.fin

/-- Unmapping `r` unmaps its pages, and the pages of the other ranges translate as they were mapped, up to the
contiguous and the dirty bit. -/
def UnmapOk (base t : Nat) (s : PteState) (r : PteRange) : Prop :=
  ∃ m', vunmapPte base t r s.mem = some m' ∧ (∀ x, r.Covers base x → walk m' 0 t x = none) ∧
    ∀ q ∈ s.mapped.erase r, ∀ x, q.Covers base x →
      (walk m' 0 t x).map norm = some (norm ⟨q.frame * 4096 + (x - addrOf base q.start), protAttr q.prot⟩)

/-- The range completes a group of sixteen pages: the pages before it in its first group are mapped to the page
frames before its own, with the same protection up to the read-only, access, contiguous and dirty bits. -/
def PteState.Folds (s : PteState) (r : PteRange) : Prop :=
  r.start % 16 ≠ 0 ∧ r.start / 16 * 16 + 16 ≤ r.fin ∧ r.frame % 16 = r.start % 16 ∧ r.prot.getLsbD 56 = false ∧
    ∀ i, r.start / 16 * 16 ≤ i → i < r.start →
      ∃ q ∈ s.mapped, q.Has i ∧ q.frameAt i = r.frame + i - r.start ∧ SameBits [7, 10, 52, 55] q.prot r.prot

def PteCall.Safe (c : PteCall) (s : PteState) : Prop :=
  match c with
  | .map r => ¬ s.Folds r
  | .unmap _ => True

structure Represents (base t : Nat) (s : PteState) : Prop where
  entry : ∀ q ∈ s.mapped, ∀ i, q.Has i → slot s.mem t i = q.entry i
  empty : ∀ i < 512, (∀ q ∈ s.mapped, ¬ q.Has i) → slot s.mem t i = 0
  apart : s.mapped.Pairwise PteRange.Apart
  fin_lt : ∀ q ∈ s.mapped, addrOf base q.fin < 2 ^ 64

variable {base t : Nat} {s : PteState} {r q : PteRange} {m' : Mem}

theorem PteRange.Apart.symm (h : r.Apart q) : q.Apart r := Or.symm h

theorem PteRange.Apart.not_has {i : Nat} (h : r.Apart q) (hi : r.Has i) : ¬ q.Has i := by
  intro hq
  have h1 := hi.1
  have h2 := hi.2
  have h3 := hq.1
  have h4 := hq.2
  rcases h with h | h <;> omega

theorem apart_of_mem_erase (hp : s.mapped.Pairwise PteRange.Apart) (hr : r ∈ s.mapped) (hq : q ∈ s.mapped.erase r) :
    r.Apart q := by
  have hperm := List.perm_cons_erase hr
  have := (hperm.pairwise_iff fun h => PteRange.Apart.symm h).1 hp
  exact (List.pairwise_cons.1 this).1 q hq

theorem PteRange.Covers.page (hbase : base % span 1 = 0) {x : Nat} (h : r.Covers base x) :
    r.Has (index 0 x) ∧ r.frameAt (index 0 x) * 4096 + x % 4096 = r.frame * 4096 + (x - addrOf base r.start) := by
  have hspan : span 1 = 2097152 := rfl
  have h512 := r.fin_le_512
  obtain ⟨h1, h2⟩ := h
  rw [hspan] at hbase
  unfold addrOf at *
  unfold PteRange.Has frameAt index
  rw [span_zero]
  omega

theorem walk_entry (hbase : base % span 1 = 0) {x : Nat} (hx : q.Covers base x)
    (he : slot m' t (index 0 x) = q.entry (index 0 x)) :
    (walk m' 0 t x).map norm = some (norm ⟨q.frame * 4096 + (x - addrOf base q.start), protAttr q.prot⟩) := by
  obtain ⟨hhas, hframe⟩ := hx.page hbase
  rw [walk_zero, he, leafOf_entry hhas, hframe]

/-- A range of a represented table can be unmapped alone, and the table is represented afterwards. -/
theorem represents_unmap (ht : t % 4096 = 0) (hbase : base % span 1 = 0) (hs : Represents base t s) (hr : r ∈ s.mapped) :
    UnmapOk base t s r ∧ ∃ m', vunmapPte base t r s.mem = some m' ∧ Represents base t ⟨m', s.mapped.erase r⟩ := by
  obtain ⟨m', hm', hcl⟩ := vunmapPte_cleared ht hbase (hs.fin_lt r hr) (hs.entry r hr)
  have hother : ∀ q ∈ s.mapped.erase r, ∀ i, q.Has i → slot m' t i = q.entry i := by
    intro q hq i hi
    have hnot := (apart_of_mem_erase hs.apart hr hq).symm.not_has hi
    rw [hcl.of_not hnot, hs.entry q (List.mem_of_mem_erase hq) i hi]
  refine ⟨⟨m', hm', fun x hx => ?_, fun q hq x hx => ?_⟩, m', hm', ⟨hother, fun i hi hnone => ?_, ?_, ?_⟩⟩
  · rw [walk_zero, hcl.of_has (hx.page hbase).1]
    rfl
  · exact walk_entry hbase hx (hother q hq _ (hx.page hbase).1)
  · by_cases hri : r.Has i
    · exact hcl.of_has hri
    · refine (hcl.of_not hri).trans (hs.empty i hi fun q hq hqi => ?_)
      by_cases hqr : q = r
      · exact hri (hqr ▸ hqi)
      · exact hnone q ((List.mem_erase_of_ne hqr).2 hq) hqi
  · exact hs.apart.sublist List.erase_sublist
  · exact fun q hq => hs.fin_lt q (List.mem_of_mem_erase hq)

/-! ### Mapping -/

theorem PteRange.Written.of_has {m : Mem} {i : Nat} (h : r.Written t r.start r.fin m m') (hi : r.Has i) :
    slot m' t i = r.entry i := (h i).trans (if_pos hi)

theorem PteRange.Written.of_not {m : Mem} {i : Nat} (h : r.Written t r.start r.fin m m') (hi : ¬ r.Has i) :
    slot m' t i = slot m t i := (h i).trans (if_neg hi)

/-- Old and clean, two protections are the same if they agree up to the bits that are hidden. -/
theorem folded_congr {p p' : Entry} (h : SameBits [7, 10, 52, 55] p p') (n : Nat) :
    folded n (pteMknoncont p) = folded n (pteMknoncont p') := by
  have hbits : pteMkold (pteMkclean (pteMknoncont p)) = pteMkold (pteMkclean (pteMknoncont p')) := by
    apply BitVec.eq_of_getLsbD_eq
    intro i hi
    simp only [pteMkold, pteMkclean, pteMknoncont, BitVec.getLsbD_and, BitVec.getLsbD_or, BitVec.getLsbD_not, pteAf,
      pteDirtyBit, pteRdonly, pteContBit, getLsbD_bit (show 10 < 64 by decide), getLsbD_bit (show 55 < 64 by decide),
      getLsbD_bit (show 7 < 64 by decide), getLsbD_bit (show 52 < 64 by decide)]
    by_cases hex : i ∈ [7, 10, 52, 55]
    · simp only [List.mem_cons, List.not_mem_nil, or_false] at hex
      rcases hex with rfl | rfl | rfl | rfl <;> simp
    · rw [h i hi hex]
  rw [folded, folded, hbits]

theorem sameBits_of_folded {p p' : Entry} {n n' : Nat} (hp : NoAddr p) (hp' : NoAddr p') (hn : n < 2 ^ 38) (hn' : n' < 2 ^ 38)
    (h : folded n (pteMknoncont p) = folded n' (pteMknoncont p')) : n = n' ∧ SameBits [7, 10, 52, 55] p p' := by
  have hc : NoAddr (pteMkold (pteMkclean (pteMknoncont p))) := NoAddr.mkold_mkclean (hp.and _)
  have hc' : NoAddr (pteMkold (pteMkclean (pteMknoncont p'))) := NoAddr.mkold_mkclean (hp'.and _)
  have hprot := congrArg ptePgprot h
  have hframe := congrArg ptePfn h
  rw [folded, folded, ptePgprot_pfnPte hn hc, ptePgprot_pfnPte hn' hc'] at hprot
  rw [folded, folded, ptePfn_pfnPte hn hc, ptePfn_pfnPte hn' hc'] at hframe
  have hsame : ∀ p : Entry, SameBits [7, 10, 52, 55] (pteMkold (pteMkclean (pteMknoncont p))) p := fun p =>
    ((sameBits_mkold_mkclean _).mono (by decide)).trans (sameBits_andNot (by decide) (by decide) p)
  have h1 := hsame p
  rw [hprot] at h1
  exact ⟨hframe, h1.symm.trans (hsame p')⟩

theorem Represents.folds_iff (hs : Represents base t s) (hr : s.Mappable base r) : s.Folds r ↔ r.Completes s.mem t := by
  have h512 := r.fin_le_512
  have hlt := r.has_start.2
  refine and_congr_right fun h16 => and_congr_right fun _ => and_congr_right fun hf => and_congr_right fun _ => ?_
  refine forall₃_congr fun i hi1 hi2 => ?_
  -- what stands in the entry of a mapped page
  have hentry : ∀ q ∈ s.mapped, q.Has i →
      pteMkold (pteMkclean (slot s.mem t i)) = folded (q.frameAt i) (pteMknoncont q.prot) := by
    intro q hq hqi
    have hnw : ¬ q.Whole i := by
      intro hw
      refine (hr.2 q hq).not_has r.has_start ⟨?_, ?_⟩
      · have := hw.1
        omega
      · have := hw.2.1
        omega
    rw [hs.entry q hq i hqi, PteRange.entry, protAt, if_neg hnw, mkold_mkclean_pfnPte (frame_lt (frameAt_lt hqi)), folded]
  constructor
  · rintro ⟨q, hq, hqi, hframe, hsame⟩
    rw [hentry q hq hqi, hframe, folded_congr hsame]
  · intro h
    by_cases hmapped : ∃ q ∈ s.mapped, q.Has i
    · obtain ⟨q, hq, hqi⟩ := hmapped
      rw [hentry q hq hqi] at h
      have hle := r.frame_le
      have hfin := r.fin_eq
      obtain ⟨h1, h2⟩ := sameBits_of_folded q.page.noAddr r.page.noAddr (frame_lt (frameAt_lt hqi)) (by omega) h
      exact ⟨q, hq, hqi, h1, h2⟩
    · -- an empty entry is not valid
      exfalso
      have hzero := hs.empty i (by omega) fun q hq hqi => hmapped ⟨q, hq, hqi⟩
      rw [hzero] at h
      have hbit := congrArg (fun e => BitVec.getLsbD e 0) h
      rw [folded, pfnPte, BitVec.getLsbD_or, sameBits_mkold_mkclean _ 0 (by decide) (by decide),
        sameBits_mkold_mkclean _ 0 (by decide) (by decide), r.page.noncont.type_bit (by decide), Bool.or_true] at hbit
      cases hbit

theorem represents_map (ht : t % 4096 = 0) (hbase : base % span 1 = 0) (hs : Represents base t s) (hr : s.Mappable base r)
    (hf : ¬ s.Folds r) : ∃ m', vmapPte base t r s.mem = some m' ∧ Represents base t ⟨m', r :: s.mapped⟩ := by
  have h512 := r.fin_le_512
  have hlt := r.has_start.2
  have hempty : ∀ i, r.start ≤ i → i < r.fin → slot s.mem t i = 0 := fun i hi1 hi2 =>
    hs.empty i (by omega) fun q hq => (hr.2 q hq).not_has ⟨hi1, hi2⟩
  obtain ⟨m', hm', hw⟩ := vmapPteLoop_written ht hbase hr.1 r.entered_start hempty
    (fun hc => absurd ((hs.folds_iff hr).2 hc) hf) 512 (by omega)
  refine ⟨m', ?_, ?_, ?_, ?_, ?_⟩
  · rw [vmapPte, index_addrOf hbase (by omega)]
    rwa [frameAt, Nat.sub_self] at hm'
  · intro q hq i hi
    rcases List.mem_cons.1 hq with rfl | hq
    · exact hw.of_has hi
    · exact (hw.of_not ((hr.2 q hq).symm.not_has hi)).trans (hs.entry q hq i hi)
  · intro i hi hnone
    rw [List.forall_mem_cons] at hnone
    exact (hw.of_not hnone.1).trans (hs.empty i hi hnone.2)
  · exact List.pairwise_cons.2 ⟨hr.2, hs.apart⟩
  · rw [List.forall_mem_cons]
    exact ⟨hr.1, hs.fin_lt⟩

/-- After a fold, unmapping the range that completed the group unmaps the first page of the group. -/
theorem vunmapPte_of_folds (ht : t % 4096 = 0) (hbase : base % span 1 = 0) (hs : Represents base t s)
    (hr : s.Mappable base r) (hf : s.Folds r) :
    ∃ m₁ m₂, vmapPte base t r s.mem = some m₁ ∧ vunmapPte base t r m₁ = some m₂ ∧
      walk m₂ 0 t (addrOf base (r.start / 16 * 16)) = none := by
  have h512 := r.fin_le_512
  have hlt := r.has_start.2
  have hempty : ∀ i, r.start ≤ i → i < r.fin → slot s.mem t i = 0 := fun i hi1 hi2 =>
    hs.empty i (by omega) fun q hq => (hr.2 q hq).not_has ⟨hi1, hi2⟩
  obtain ⟨c1, c2, c3, c4, c5⟩ := (hs.folds_iff hr).1 hf
  obtain ⟨m₁, hm₁, hj⟩ := vmapPteLoop_joined ht hbase hr.1 ⟨c1, c3, c4⟩ c2 r.entered_start (by omega) hempty c5 512 (by omega)
  obtain ⟨m₂, hm₂, hzero⟩ := vunmapPte_joined ht hbase hr.1 c2 hj
  refine ⟨m₁, m₂, ?_, hm₂, ?_⟩
  · rw [vmapPte, index_addrOf hbase (by omega)]
    rwa [frameAt, Nat.sub_self] at hm₁
  · rw [walk_zero, index_addrOf hbase (by omega), hzero]
    rfl

theorem not_unmapOk_of_folds (ht : t % 4096 = 0) (hbase : base % span 1 = 0) (hs : Represents base t s)
    (hr : s.Mappable base r) (hf : s.Folds r) :
    ∃ m', vmapPte base t r s.mem = some m' ∧ ¬ UnmapOk base t ⟨m', r :: s.mapped⟩ r := by
  obtain ⟨m₁, m₂, hm₁, hm₂, hnone⟩ := vunmapPte_of_folds ht hbase hs hr hf
  refine ⟨m₁, hm₁, ?_⟩
  rintro ⟨m', hm', -, hother⟩
  obtain rfl : m' = m₂ := Option.some.inj (hm'.symm.trans hm₂)
  have h16 := hf.1
  obtain ⟨q, hq, hqi, -, -⟩ := hf.2.2.2.2 (r.start / 16 * 16) (Nat.le_refl _) (by omega)
  have hx : q.Covers base (addrOf base (r.start / 16 * 16)) := by
    have h1 := hqi.1
    have h2 := hqi.2
    unfold PteRange.Covers addrOf
    omega
  have hq' : q ∈ (r :: s.mapped).erase r := by rwa [List.erase_cons_head]
  have hwalk := hother q hq' _ hx
  rw [hnone] at hwalk
  cases hwalk

theorem represents_of_run {tr : List (Trans.Step PteState PteCall)} (ht : t % 4096 = 0) (hbase : base % span 1 = 0)
    (hrun : (pteSystem base t).Run tr s) (hsafe : ∀ st ∈ tr, st.label.Safe st.pre) : Represents base t s := by
  induction hrun with
  | nil h =>
    obtain ⟨h1, h2⟩ := h
    exact ⟨by rw [h1]; nofun, fun i hi _ => h2 i hi, by rw [h1]; exact .nil, by rw [h1]; nofun⟩
  | @cons tr s s' c hrun hstep ih =>
    rw [List.forall_mem_cons] at hsafe
    have hs := ih hsafe.2
    obtain ⟨m', mapped'⟩ := s'
    cases c with
    | map r =>
      obtain ⟨hr, hm, rfl⟩ := hstep
      obtain ⟨m₂, hm₂, hrep⟩ := represents_map ht hbase hs hr hsafe.1
      obtain rfl : m' = m₂ := Option.some.inj (hm.symm.trans hm₂)
      exact hrep
    | unmap r =>
      obtain ⟨hr, hm, rfl⟩ := hstep
      obtain ⟨-, m₂, hm₂, hrep⟩ := represents_unmap ht hbase hs hr
      obtain rfl : m' = m₂ := Option.some.inj (hm.symm.trans hm₂)
      exact hrep

/-- In a run in which no mapped range completed a group of others, every mapped range can be unmapped alone.
Mapping one more range keeps it so exactly if that range does not complete a group either. -/
theorem vunmap_run_frame (base t : Nat) (ht : t % 4096 = 0) (hbase : base % span 1 = 0)
    {tr : List (Trans.Step PteState PteCall)} {s : PteState} (hrun : (pteSystem base t).Run tr s)
    (hsafe : ∀ st ∈ tr, st.label.Safe st.pre) :
    (∀ q ∈ s.mapped, UnmapOk base t s q) ∧
    ∀ r, s.Mappable base r → ∃ m', vmapPte base t r s.mem = some m' ∧
      ((∀ q ∈ r :: s.mapped, UnmapOk base t ⟨m', r :: s.mapped⟩ q) ↔ ¬ s.Folds r) := by
  have hs := represents_of_run ht hbase hrun hsafe
  refine ⟨fun q hq => (represents_unmap ht hbase hs hq).1, fun r hr => ?_⟩
  by_cases hf : s.Folds r
  · obtain ⟨m', hm', hnot⟩ := not_unmapOk_of_folds ht hbase hs hr hf
    exact ⟨m', hm', fun h => absurd (h r List.mem_cons_self) hnot, fun h => absurd hf h⟩
  · obtain ⟨m', hm', hrep⟩ := represents_map ht hbase hs hr hf
    exact ⟨m', hm', fun _ => hf, fun _ q hq => (represents_unmap ht hbase hrep hq).1⟩

def kernelProt : Entry := 0x0068000000000703#64

theorem pageProt_kernelProt : PageProt kernelProt := ⟨by unfold NoAddr; decide, by decide⟩

def lowerHalf : PteRange := ⟨0, 8, 0, kernelProt, by decide, by decide, by decide, pageProt_kernelProt⟩

def upperHalf : PteRange := ⟨8, 8, 8, kernelProt, by decide, by decide, by decide, pageProt_kernelProt⟩

def upperElsewhere : PteRange := ⟨8, 8, 16, kernelProt, by decide, by decide, by decide, pageProt_kernelProt⟩

def emptyTable : PteState := ⟨fun _ => 0, []⟩

theorem run_emptyTable : (pteSystem 0 4096).Run [] emptyTable := .nil ⟨rfl, fun _ _ => rfl⟩

theorem mappable_lowerHalf : emptyTable.Mappable 0 lowerHalf := ⟨by decide, nofun⟩

/-- Two neighbours whose page frames are not in a row: each can be unmapped alone. -/
theorem vunmap_run_frame_halves :
    ∃ m₁ m₂, vmapPte 0 4096 lowerHalf (fun _ => 0) = some m₁ ∧ vmapPte 0 4096 upperElsewhere m₁ = some m₂ ∧
      ∀ q ∈ [upperElsewhere, lowerHalf], UnmapOk 0 4096 ⟨m₂, [upperElsewhere, lowerHalf]⟩ q := by
  have hlow : ¬ emptyTable.Folds lowerHalf := fun h => h.1 rfl
  obtain ⟨m₁, hm₁, -⟩ := (vunmap_run_frame 0 4096 rfl rfl run_emptyTable nofun).2 lowerHalf mappable_lowerHalf
  have hrun : (pteSystem 0 4096).Run [⟨emptyTable, .map lowerHalf, ⟨m₁, [lowerHalf]⟩⟩] ⟨m₁, [lowerHalf]⟩ :=
    .cons run_emptyTable ⟨mappable_lowerHalf, hm₁, rfl⟩
  have hsafe := vunmap_run_frame 0 4096 rfl rfl hrun (by rw [List.forall_mem_singleton]; exact hlow)
  have hmap : PteState.Mappable 0 ⟨m₁, [lowerHalf]⟩ upperElsewhere :=
    ⟨by decide, by rw [List.forall_mem_singleton]; exact .inr (by decide)⟩
  obtain ⟨m₂, hm₂, hiff⟩ := hsafe.2 upperElsewhere hmap
  exact ⟨m₁, m₂, hm₁, hm₂, hiff.2 fun h => absurd h.2.2.1 (by decide)⟩

/-- Two neighbours whose page frames are in a row: unmapping the second unmaps the first as well. -/
theorem vunmap_unmaps_neighbour :
    ∃ m₁ m₂ m₃, vmapPte 0 4096 lowerHalf (fun _ => 0) = some m₁ ∧ vmapPte 0 4096 upperHalf m₁ = some m₂ ∧
      vunmapPte 0 4096 upperHalf m₂ = some m₃ ∧ lowerHalf.Covers 0 0 ∧ walk m₃ 0 4096 0 = none ∧
      (pteSystem 0 4096).Reachable ⟨m₂, [upperHalf, lowerHalf]⟩ ∧
      ¬ UnmapOk 0 4096 ⟨m₂, [upperHalf, lowerHalf]⟩ upperHalf := by
  have hlow : ¬ emptyTable.Folds lowerHalf := fun h => h.1 rfl
  have hempty := represents_of_run rfl rfl run_emptyTable nofun
  obtain ⟨m₁, hm₁, hs⟩ := represents_map rfl rfl hempty mappable_lowerHalf hlow
  have hmap : PteState.Mappable 0 ⟨m₁, [lowerHalf]⟩ upperHalf :=
    ⟨by decide, by rw [List.forall_mem_singleton]; exact .inr (by decide)⟩
  have hf : PteState.Folds ⟨m₁, [lowerHalf]⟩ upperHalf := by
    refine ⟨by decide, by decide, by decide, by decide, fun i hi1 hi2 => ⟨lowerHalf, List.mem_singleton_self _, ?_, ?_, ?_⟩⟩
    · exact ⟨Nat.zero_le i, hi2⟩
    · change 0 + (i - 0) = 8 + i - 8
      omega
    · exact fun _ _ _ => rfl
  obtain ⟨m₂, m₃, hm₂, hm₃, hnone⟩ := vunmapPte_of_folds rfl rfl hs hmap hf
  obtain ⟨m₂', hm₂', hnot⟩ := not_unmapOk_of_folds rfl rfl hs hmap hf
  obtain rfl : m₂ = m₂' := Option.some.inj (hm₂.symm.trans hm₂')
  refine ⟨m₁, m₂, m₃, hm₁, hm₂, hm₃, ⟨by decide, by decide⟩, hnone, ?_, hnot⟩
  have hstep₁ : (pteSystem 0 4096).step emptyTable (.map lowerHalf) ⟨m₁, [lowerHalf]⟩ := ⟨mappable_lowerHalf, hm₁, rfl⟩
  have hstep₂ : (pteSystem 0 4096).step ⟨m₁, [lowerHalf]⟩ (.map upperHalf) ⟨m₂, [upperHalf, lowerHalf]⟩ :=
    ⟨hmap, hm₂, rfl⟩
  exact ((run_emptyTable.next _ hstep₁).next _ hstep₂).reachable

end QuestOS
