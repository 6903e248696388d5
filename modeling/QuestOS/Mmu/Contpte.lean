import QuestOS.Mmu.PteSpec

/-!
# Folding is transparent

`set_pte_at` unfolds the contiguous group of the entry that it writes, and folds a group whose last entry it writes.  Both
rewrite the sixteen entries of the group.  The table stays well formed, the page that is written gets its frame and
attributes, and every other page keeps its frame and its attributes up to the four bits that belong to the fold; what
`ptep_get` reports of its young and dirty bits is not lost.

Every entry is a page frame and a protection (`pfnPte_eta`), so that the lemmas of `PteSpec` speak of all entries.
-/

namespace QuestOS

open Bytes PageTable

namespace Contpte

variable {e e' p q : Entry} {es : List Entry} {ex : List Nat} {n i k ptep t j : Nat} {m m' : Mem}

/-! ### The frame and the attributes of an entry -/

theorem pteToPhys_mod (e : Entry) : pteToPhys e % 4096 = 0 := by
  rw [pteToPhys, BitVec.toNat_and, show 4096 = 2 ^ 12 from rfl, Nat.and_mod_two_pow,
    show pteAddrLow.toNat % 2 ^ 12 = 0 by decide, Nat.and_zero]

theorem ptePfn_lt (e : Entry) : ptePfn e < 2 ^ 38 := by
  have hle : pteToPhys e ≤ pteAddrLow.toNat := by
    rw [pteToPhys, BitVec.toNat_and]
    exact Nat.and_le_right
  have hmask : pteAddrLow.toNat < 2 ^ 50 := by decide
  unfold ptePfn
  omega

theorem ofNat_ptePfn (e : Entry) : BitVec.ofNat 64 (ptePfn e * 4096) = e &&& pteAddrLow := by
  have hmod := pteToPhys_mod e
  rw [ptePfn, Nat.div_mul_cancel (Nat.dvd_of_mod_eq_zero hmod), pteToPhys, BitVec.ofNat_toNat, BitVec.setWidth_eq]

theorem ptePgprot_bit (h : i < 12 ∨ 50 ≤ i) : (ptePgprot e).getLsbD i = e.getLsbD i := by
  rw [ptePgprot, BitVec.getLsbD_xor, pfnPte_bit (ptePfn_lt e) h]
  simp

theorem noAddr_ptePgprot (e : Entry) : NoAddr (ptePgprot e) := by
  apply BitVec.eq_of_getLsbD_eq
  intro i hi
  rw [ptePgprot, pfnPte, ofNat_ptePfn, BitVec.getLsbD_and, BitVec.getLsbD_xor, BitVec.getLsbD_or, BitVec.getLsbD_and]
  cases e.getLsbD i <;> cases pteAddrLow.getLsbD i <;> simp

theorem pfnPte_eta (e : Entry) : pfnPte (ptePfn e) (ptePgprot e) = e := by
  apply BitVec.eq_of_getLsbD_eq
  intro i hi
  rw [ptePgprot, pfnPte, pfnPte, ofNat_ptePfn, BitVec.getLsbD_or, BitVec.getLsbD_xor, BitVec.getLsbD_or, BitVec.getLsbD_and]
  cases e.getLsbD i <;> cases pteAddrLow.getLsbD i <;> simp

def IsMask (mask : Entry) (ex : List Nat) : Prop :=
  ∀ i < 64, mask.getLsbD i = decide (i ∈ ex) ∧ (i ∈ ex → i < 12 ∨ 50 ≤ i)

/-- Entries have the same frame, and the same attributes up to a mask, if they have the same bits. -/
theorem sameBits_iff {mask : Entry} (hmask : IsMask mask ex) : SameBits ex e e' ↔
    ptePfn e = ptePfn e' ∧ ptePgprot e &&& ~~~mask = ptePgprot e' &&& ~~~mask := by
  constructor
  · intro h
    constructor
    · have haddr : e &&& pteAddrLow = e' &&& pteAddrLow := by
        apply BitVec.eq_of_getLsbD_eq
        intro i hi
        rw [BitVec.getLsbD_and, BitVec.getLsbD_and, pteAddrLow_bit i hi]
        by_cases hin : 12 ≤ i ∧ i < 50
        · rw [h i hi fun hex => by have := (hmask i hi).2 hex; omega]
        · have : (decide (12 ≤ i) && decide (i < 50)) = false := by simpa using hin
          rw [this, Bool.and_false, Bool.and_false]
      rw [ptePfn, ptePfn, pteToPhys, pteToPhys, haddr]
    · apply BitVec.eq_of_getLsbD_eq
      intro i hi
      rw [BitVec.getLsbD_and, BitVec.getLsbD_and, BitVec.getLsbD_not, (hmask i hi).1]
      by_cases hex : i ∈ ex
      · simp [hex]
      · by_cases hin : i < 12 ∨ 50 ≤ i
        · rw [ptePgprot_bit hin, ptePgprot_bit hin, h i hi hex]
        · rw [(noAddr_ptePgprot e).bit (by omega) (by omega), (noAddr_ptePgprot e').bit (by omega) (by omega)]
  · rintro ⟨hframe, hattr⟩ i hi hex
    rw [← pfnPte_eta e, ← pfnPte_eta e', hframe, pfnPte, pfnPte, BitVec.getLsbD_or, BitVec.getLsbD_or]
    have hbit := congrArg (fun w => BitVec.getLsbD w i) hattr
    simp only [BitVec.getLsbD_and, BitVec.getLsbD_not, (hmask i hi).1, decide_eq_false hex, hi, decide_true, Bool.not_false,
      Bool.and_true] at hbit
    rw [hbit]

/-! ### Gathering young and dirty bits -/

theorem pteYoung_mkyoung (e : Entry) : pteYoung (pteMkyoung e) = true := by
  rw [pteYoung, pteMkyoung, BitVec.getLsbD_or, pteAf, getLsbD_bit (by decide)]
  simp

theorem pteYoung_mkdirty (e : Entry) : pteYoung (pteMkdirty e) = pteYoung e := sameBits_mkdirty e 10 (by decide) (by decide)

theorem pteDirty_mkdirty (e : Entry) : pteDirty (pteMkdirty e) = true := by
  have hbit : (pteMkdirty e).getLsbD 55 = true := by
    rw [pteMkdirty_eq]
    split
    · rw [BitVec.getLsbD_and, BitVec.getLsbD_or, BitVec.getLsbD_not, pteDirtyBit, pteRdonly, getLsbD_bit (by decide),
        getLsbD_bit (by decide)]
      simp
    · rw [BitVec.getLsbD_or, pteDirtyBit, getLsbD_bit (by decide)]
      simp
  rw [pteDirty, hbit, Bool.true_or]

theorem pteDirty_congr (h : SameBits [10] e e') : pteDirty e = pteDirty e' := by
  rw [pteDirty, pteDirty, pteHwDirty, pteHwDirty, h 55 (by decide) (by decide), h 51 (by decide) (by decide),
    h 7 (by decide) (by decide)]

theorem pteDirty_mkyoung (e : Entry) : pteDirty (pteMkyoung e) = pteDirty e :=
  pteDirty_congr (sameBits_or (by decide) (by decide) e)

def WriteOk (e : Entry) : Prop := e.getLsbD 7 = false → e.getLsbD 51 = true

theorem WriteOk.mkdirty (h : WriteOk e) : WriteOk (pteMkdirty e) := by
  intro hrd
  rw [sameBits_mkdirty e 51 (by decide) (by decide)]
  cases hw : e.getLsbD 51 with
  | true => rfl
  | false =>
    rw [pteMkdirty_eq, hw, if_neg Bool.false_ne_true, BitVec.getLsbD_or, pteDirtyBit, getLsbD_bit (by decide)] at hrd
    rw [← hw, h (by simpa using hrd)]

theorem WriteOk.mkyoung (h : WriteOk e) : WriteOk (pteMkyoung e) := by
  have hs : SameBits [10] (pteMkyoung e) e := sameBits_or (by decide) (by decide) e
  unfold WriteOk
  rw [hs 7 (by decide) (by decide), hs 51 (by decide) (by decide)]
  exact h

theorem gatherBits_young (q e : Entry) (h : pteYoung q = true ∨ pteYoung e = true) : pteYoung (gatherBits q e) = true := by
  unfold gatherBits
  cases hy : pteYoung e with
  | true => exact pteYoung_mkyoung _
  | false =>
    rw [hy] at h
    cases hd : pteDirty e with
    | true => exact (pteYoung_mkdirty q).trans (by simpa using h)
    | false => simpa using h

theorem gatherBits_dirty (q e : Entry) (h : pteDirty q = true ∨ pteDirty e = true) : pteDirty (gatherBits q e) = true := by
  have hdirty : pteDirty (if pteDirty e then pteMkdirty q else q) = true := by
    split
    · exact pteDirty_mkdirty q
    · rename_i hd
      exact h.resolve_right hd
  unfold gatherBits
  dsimp only
  split
  · rw [pteDirty_mkyoung, hdirty]
  · exact hdirty

theorem WriteOk.gatherBits (h : WriteOk q) (e : Entry) : WriteOk (gatherBits q e) := by
  have hdirty : WriteOk (if pteDirty e then pteMkdirty q else q) := by
    split
    · exact h.mkdirty
    · exact h
  unfold QuestOS.gatherBits
  dsimp only
  split
  · exact hdirty.mkyoung
  · exact hdirty

theorem WriteOk.gatherProt (h : WriteOk q) (es : List Entry) : WriteOk (gatherProt q es) := by
  induction es generalizing q with
  | nil => exact h
  | cons e es ih => exact ih (h.gatherBits e)

theorem gatherProt_test {test : Entry → Bool}
    (htest : ∀ q e, test q = true ∨ test e = true → test (gatherBits q e) = true)
    (h : test q = true ∨ ∃ e ∈ es, test e = true) : test (gatherProt q es) = true := by
  induction es generalizing q with
  | nil => simpa [gatherProt] using h
  | cons e es ih =>
    refine ih ?_
    rcases h with h | ⟨x, hx, hx'⟩
    · exact .inl (htest q e (.inl h))
    · rcases List.mem_cons.1 hx with rfl | hx
      · exact .inl (htest q x (.inr hx'))
      · exact .inr ⟨x, hx, hx'⟩

/-! ### Reading an entry -/

/-- The search for a bit finds it if an entry has it, and does not touch what `mk` does not change. -/
theorem contpteScanFor_spec {test : Entry → Bool} {mk : Entry → Entry} (hmk : ∀ e, test (mk e) = true) (m : Mem) (n ptep : Nat)
    (e : Entry) :
    (test (contpteScanFor test mk m n ptep e) = true ↔ test e = true ∨ ∃ x ∈ pteEntries m ptep n, test x = true) ∧
      (contpteScanFor test mk m n ptep e = e ∨ contpteScanFor test mk m n ptep e = mk e) := by
  induction n generalizing ptep with
  | zero => simp [contpteScanFor, pteEntries]
  | succ n ih =>
    rw [contpteScanFor, pteEntries_succ]
    split
    · rename_i htest
      exact ⟨iff_of_true (hmk e) (.inr ⟨_, List.mem_cons_self .., htest⟩), .inr rfl⟩
    · rename_i htest
      refine ⟨(ih (ptep + 8)).1.trans ?_, (ih (ptep + 8)).2⟩
      simp [htest]

theorem contpteScan_spec (m : Mem) (n ptep : Nat) (e : Entry) :
    (pteYoung (contpteScan m n ptep e) = true ↔ pteYoung e = true ∨ ∃ x ∈ pteEntries m ptep n, pteYoung x = true) ∧
      (pteDirty (contpteScan m n ptep e) = true ↔ pteDirty e = true ∨ ∃ x ∈ pteEntries m ptep n, pteDirty x = true) := by
  induction n generalizing ptep with
  | zero => simp [contpteScan, pteEntries]
  | succ n ih =>
    rw [contpteScan]
    split
    · rename_i hd
      obtain ⟨hyoung, hmk⟩ := contpteScanFor_spec pteYoung_mkyoung m (n + 1) ptep (pteMkdirty e)
      rw [pteYoung_mkdirty] at hyoung
      refine ⟨hyoung, iff_of_true ?_ (.inr ⟨_, by rw [pteEntries_succ]; exact List.mem_cons_self .., hd⟩)⟩
      rcases hmk with h | h
      · rw [h, pteDirty_mkdirty]
      · rw [h, pteDirty_mkyoung, pteDirty_mkdirty]
    · rename_i hd
      rw [pteEntries_succ]
      split
      · rename_i hy
        obtain ⟨hdirty, hmk⟩ := contpteScanFor_spec pteDirty_mkdirty m n (ptep + 8) (pteMkyoung e)
        rw [pteDirty_mkyoung] at hdirty
        refine ⟨iff_of_true ?_ (.inr ⟨_, List.mem_cons_self .., hy⟩), hdirty.trans (by simp [hd])⟩
        rcases hmk with h | h
        · rw [h, pteYoung_mkyoung]
        · rw [h, pteYoung_mkdirty, pteYoung_mkyoung]
      · rename_i hy
        exact ⟨(ih (ptep + 8)).1.trans (by simp [hy]), (ih (ptep + 8)).2.trans (by simp [hd])⟩

theorem ptepGet_spec (ht : t % 4096 = 0) (m : Mem) (i : Nat) :
    (pteYoung (ptepGet (t + 8 * i) m) = true ↔ pteYoung (slot m t i) = true ∨
      pteValidCont (slot m t i) = true ∧ ∃ x ∈ contEntries m t i, pteYoung x = true) ∧
    (pteDirty (ptepGet (t + 8 * i) m) = true ↔ pteDirty (slot m t i) = true ∨
      pteValidCont (slot m t i) = true ∧ ∃ x ∈ contEntries m t i, pteDirty x = true) := by
  have hslot : load64 m (t + 8 * i) = slot m t i := rfl
  unfold ptepGet
  dsimp only
  rw [hslot]
  cases hc : pteValidCont (slot m t i) with
  | false => simp
  | true =>
    have h := contpteScan_spec m contPtes (contpteAlignDown (t + 8 * i)) (slot m t i)
    rw [contpteAlignDown_slot ht, show contPtes = 16 from rfl, ← contEntries] at h
    simpa [contpteAlignDown_slot ht, show contPtes = 16 from rfl] using h

/-! ### Well-formed tables -/

def matchBits : Entry := pteAf ||| pteDirtyBit ||| pteRdonly

def foldBits : Entry := pteContBit ||| matchBits

theorem isMask_matchBits : IsMask matchBits [7, 10, 55] := by
  unfold IsMask
  decide

theorem isMask_foldBits : IsMask foldBits [7, 10, 52, 55] := by
  unfold IsMask
  decide

/-- The sixteen entries from `g` on are valid and contiguous, for consecutive page frames from a multiple of 16 on, with the
same attributes up to the bits that a match ignores. -/
def ContGroup (m : Mem) (t g : Nat) : Prop :=
  ∃ n, n % 16 = 0 ∧ ∀ i < 16, isValid (slot m t (g + i)) = true ∧ pteCont (slot m t (g + i)) = true ∧
    ptePfn (slot m t (g + i)) = n + i ∧
    ptePgprot (slot m t (g + i)) &&& ~~~matchBits = ptePgprot (slot m t g) &&& ~~~matchBits

def WriteRule (e : Entry) : Prop := isValid e = true → WriteOk e

/-- The groups are contiguous as a whole or not at all. -/
structure WellFormed (m : Mem) (t : Nat) : Prop where
  groups : ∀ k < 32, (∀ i < 16, pteCont (slot m t (16 * k + i)) = false) ∨ ContGroup m t (16 * k)
  rule : ∀ i < 512, WriteRule (slot m t i)

theorem ContGroup.sameBits {g d : Nat} (h : ContGroup m t g) (hd : d < 16) : ∃ n, n % 16 = 0 ∧ n + 16 ≤ 2 ^ 38 ∧
    ptePfn (slot m t (g + d)) = n + d ∧
    ∀ i < 16, SameBits [7, 10, 55] (slot m t (g + i)) (pfnPte (n + i) (ptePgprot (slot m t (g + d)))) := by
  obtain ⟨n, hn, h⟩ := h
  have hlast := (h 15 (by decide)).2.2.1
  have hlt := ptePfn_lt (slot m t (g + 15))
  refine ⟨n, hn, by omega, (h d hd).2.2.1, fun i hi => (sameBits_iff isMask_matchBits).2 ?_⟩
  have hna := noAddr_ptePgprot (slot m t (g + d))
  rw [ptePfn_pfnPte (by omega) hna, ptePgprot_pfnPte (by omega) hna, (h d hd).2.2.2]
  exact (h i hi).2.2

theorem contGroup_of_slots {g : Nat} (hn : n % 16 = 0) (hlt : n + 16 ≤ 2 ^ 38) (hp : NoAddr p) (h0 : p.getLsbD 0 = true)
    (h52 : p.getLsbD 52 = true) (h : ∀ i < 16, slot m t (g + i) = pfnPte (n + i) p) : ContGroup m t g := by
  refine ⟨n, hn, fun i hi => ?_⟩
  have hfirst := h 0 (by decide)
  rw [Nat.add_zero] at hfirst
  rw [h i hi, hfirst, ptePfn_pfnPte (by omega) hp, ptePgprot_pfnPte (by omega) hp, ptePgprot_pfnPte (by omega) hp]
  exact ⟨(pfnPte_bit (by omega) (by decide)).trans h0, (pfnPte_bit (by omega) (by decide)).trans h52, rfl, rfl⟩

/-! ### Unfolding and folding the group of an entry -/

/-- The group of entry `j` without contiguous bits: frames and attributes are the same, and every entry has the young and
dirty bits that `ptep_get` reported. -/
structure Unfolded (t j : Nat) (m m' : Mem) : Prop where
  frame : ∀ x, ¬ (t + 8 * (j / 16 * 16) ≤ x ∧ x < t + 8 * (j / 16 * 16) + 8 * 16) → m' x = m x
  same : ∀ i < 16, SameBits [7, 10, 52, 55] (slot m' t (j / 16 * 16 + i)) (slot m t (j / 16 * 16 + i))
  cont : ∀ i < 16, pteCont (slot m' t (j / 16 * 16 + i)) = false
  rule : ∀ i < 16, WriteRule (slot m' t (j / 16 * 16 + i))
  young : ∀ i < 16, pteYoung (ptepGet (t + 8 * (j / 16 * 16 + i)) m) = true → pteYoung (slot m' t (j / 16 * 16 + i)) = true
  dirty : ∀ i < 16, pteDirty (ptepGet (t + 8 * (j / 16 * 16 + i)) m) = true → pteDirty (slot m' t (j / 16 * 16 + i)) = true

theorem pteMknoncont_pfnPte (hn : n < 2 ^ 38) (p : Entry) : pteMknoncont (pfnPte n p) = pfnPte n (pteMknoncont p) :=
  pfnPte_andNot (by decide) (by decide) hn p

theorem sameBits_noncont (p : Entry) : SameBits [52] (pteMknoncont p) p := sameBits_andNot (by decide) (by decide) p

theorem WriteOk.congr (h : WriteOk e) (h7 : e'.getLsbD 7 = e.getLsbD 7) (h51 : e'.getLsbD 51 = e.getLsbD 51) : WriteOk e' := by
  unfold WriteOk
  rw [h7, h51]
  exact h

theorem WriteOk.pfnPte (h : WriteOk p) (hn : n < 2 ^ 38) : WriteOk (pfnPte n p) :=
  h.congr (pfnPte_bit hn (by decide)) (pfnPte_bit hn (by decide))

theorem WriteOk.ptePgprot (h : WriteOk e) : WriteOk (ptePgprot e) :=
  h.congr (ptePgprot_bit (by decide)) (ptePgprot_bit (by decide))

theorem pteYoung_pfnPte (hn : n < 2 ^ 38) : pteYoung (pfnPte n p) = pteYoung p := pfnPte_bit hn (by decide)

theorem pteDirty_pfnPte (hn : n < 2 ^ 38) : pteDirty (pfnPte n p) = pteDirty p := by
  rw [pteDirty, pteDirty, pteHwDirty, pteHwDirty, pfnPte_bit hn (by decide), pfnPte_bit hn (by decide),
    pfnPte_bit hn (by decide)]

theorem slot_mem_contEntries (m : Mem) (t j : Nat) (hi : i < 16) : slot m t (j / 16 * 16 + i) ∈ contEntries m t j := mem_contEntries.2 ⟨i, hi, rfl⟩

theorem contEntries_add (m : Mem) (t j : Nat) (hi : i < 16) : contEntries m t (j / 16 * 16 + i) = contEntries m t j := by
  rw [contEntries, contEntries, show (j / 16 * 16 + i) / 16 = j / 16 by omega]

theorem exists_mem_contEntries_young (ht : t % 4096 = 0) (hi : i < 16)
    (h : pteYoung (ptepGet (t + 8 * (j / 16 * 16 + i)) m) = true) : ∃ x ∈ contEntries m t j, pteYoung x = true := by
  rcases (ptepGet_spec ht m _).1.1 h with h | ⟨-, h⟩
  · exact ⟨_, slot_mem_contEntries m t j hi, h⟩
  · rwa [contEntries_add m t j hi] at h

theorem exists_mem_contEntries_dirty (ht : t % 4096 = 0) (hi : i < 16)
    (h : pteDirty (ptepGet (t + 8 * (j / 16 * 16 + i)) m) = true) : ∃ x ∈ contEntries m t j, pteDirty x = true := by
  rcases (ptepGet_spec ht m _).2.1 h with h | ⟨-, h⟩
  · exact ⟨_, slot_mem_contEntries m t j hi, h⟩
  · rwa [contEntries_add m t j hi] at h

theorem contpteTryUnfold_spec (ht : t % 4096 = 0) (hwf : WellFormed m t) (hj : j < 512) :
    Unfolded t j m (contpteTryUnfold (t + 8 * j) (slot m t j) m) := by
  have hd : j / 16 * 16 + j % 16 = j := by omega
  have hgroup := hwf.groups (j / 16) (by omega)
  rw [Nat.mul_comm 16] at hgroup
  unfold contpteTryUnfold
  split
  · -- the group is contiguous
    rename_i hvc
    rw [pteValidCont, Bool.and_eq_true] at hvc
    have hcg : ContGroup m t (j / 16 * 16) := by
      refine hgroup.resolve_left fun hno => ?_
      have h := hno (j % 16) (by omega)
      rw [hd, hvc.2] at h
      cases h
    obtain ⟨n, hn, hlt, hpfn, hsame⟩ := hcg.sameBits (d := j % 16) (by omega)
    rw [hd] at hpfn hsame
    have hok : WriteOk (pteMknoncont (ptePgprot (slot m t j))) :=
      (hwf.rule j hj hvc.1).ptePgprot.congr (sameBits_noncont _ 7 (by decide) (by decide))
        (sameBits_noncont _ 51 (by decide) (by decide))
    have hna : NoAddr (pteMknoncont (ptePgprot (slot m t j))) := (noAddr_ptePgprot _).and _
    have hold : pteMknoncont (slot m t j) = pfnPte (n + j % 16) (pteMknoncont (ptePgprot (slot m t j))) := by
      rw [← pteMknoncont_pfnPte (by omega), ← hpfn, pfnPte_eta]
    rw [hold]
    obtain ⟨hslot, hframe⟩ := contpteConvert_spec ht (show n + j % 16 < 2 ^ 38 by omega) hna j m
    rw [show (n + j % 16) / 16 * 16 = n by omega] at hslot
    have hG := sameBits_gatherProt (pteMknoncont (ptePgprot (slot m t j))) (contEntries m t j)
    refine ⟨hframe, fun i hi => ?_, fun i hi => ?_, fun i hi _ => ?_, fun i hi h => ?_, fun i hi h => ?_⟩
    · rw [hslot i hi]
      have hprot : SameBits [7, 10, 52, 55] _ (ptePgprot (slot m t j)) :=
        (hG.mono (by decide)).trans ((sameBits_noncont _).mono (by decide))
      exact (hprot.pfnPte (n + i)).trans ((hsame i hi).symm.mono (by decide))
    · rw [hslot i hi, pteCont, pfnPte_bit (by omega) (by decide), hG 52 (by decide) (by decide), noncont_bit]
    · rw [hslot i hi]
      exact (hok.gatherProt _).pfnPte (by omega)
    · rw [hslot i hi, pteYoung_pfnPte (by omega)]
      exact gatherProt_test gatherBits_young (.inr (exists_mem_contEntries_young ht hi h))
    · rw [hslot i hi, pteDirty_pfnPte (by omega)]
      exact gatherProt_test gatherBits_dirty (.inr (exists_mem_contEntries_dirty ht hi h))
  · -- no entry of the group is contiguous
    rename_i hvc
    have hno : ∀ i < 16, pteCont (slot m t (j / 16 * 16 + i)) = false := by
      refine hgroup.resolve_right ?_
      rintro ⟨n, -, h⟩
      obtain ⟨hv, hc, -⟩ := h (j % 16) (by omega)
      rw [hd] at hv hc
      rw [pteValidCont, hv, hc] at hvc
      exact hvc rfl
    have hnot : ∀ i < 16, ¬ pteValidCont (slot m t (j / 16 * 16 + i)) = true := by
      intro i hi h
      rw [pteValidCont, hno i hi, Bool.and_false] at h
      cases h
    refine ⟨fun _ _ => rfl, fun _ _ _ _ _ => rfl, hno, fun i hi => hwf.rule _ (by omega), fun i hi h => ?_, fun i hi h => ?_⟩
    · exact ((ptepGet_spec ht m _).1.1 h).resolve_right fun h => hnot i hi h.1
    · exact ((ptepGet_spec ht m _).2.1 h).resolve_right fun h => hnot i hi h.1

/-- The group of entry `j` after `contpte_try_fold`: frames and attributes are the same, and no young or dirty bit is lost. -/
structure Folded (t j : Nat) (m m' : Mem) : Prop where
  frame : ∀ x, ¬ (t + 8 * (j / 16 * 16) ≤ x ∧ x < t + 8 * (j / 16 * 16) + 8 * 16) → m' x = m x
  same : ∀ i < 16, SameBits [7, 10, 52, 55] (slot m' t (j / 16 * 16 + i)) (slot m t (j / 16 * 16 + i))
  group : (∀ i < 16, pteCont (slot m' t (j / 16 * 16 + i)) = false) ∨ ContGroup m' t (j / 16 * 16)
  rule : ∀ i < 16, WriteRule (slot m' t (j / 16 * 16 + i))
  young : ∀ i < 16, pteYoung (slot m t (j / 16 * 16 + i)) = true → pteYoung (slot m' t (j / 16 * 16 + i)) = true
  dirty : ∀ i < 16, pteDirty (slot m t (j / 16 * 16 + i)) = true → pteDirty (slot m' t (j / 16 * 16 + i)) = true

theorem contpteTryFold_spec (ht : t % 4096 = 0) (hcont : ∀ i < 16, pteCont (slot m t (j / 16 * 16 + i)) = false)
    (hrule : ∀ i < 16, WriteRule (slot m t (j / 16 * 16 + i))) (addr : Nat) :
    Folded t j m (contpteTryFold addr (t + 8 * j) (slot m t j) m) := by
  have hd : j / 16 * 16 + j % 16 = j := by omega
  have hn := ptePfn_lt (slot m t j)
  have hp := noAddr_ptePgprot (slot m t j)
  have h52 : (ptePgprot (slot m t j)).getLsbD 52 = false := by
    have h := hcont (j % 16) (by omega)
    rw [hd] at h
    exact (ptePgprot_bit (by decide)).trans h
  obtain ⟨hfold, hkeep⟩ := contpteTryFold_eq ht hn hp h52 addr j m
  rw [pfnPte_eta] at hfold hkeep
  by_cases hf : Foldable m t j addr (ptePfn (slot m t j)) (ptePgprot (slot m t j))
  · rw [hfold hf]
    obtain ⟨-, -, h0, -, hmatch⟩ := hf
    have hcont' : NoAddr (pteMkcont (ptePgprot (slot m t j))) := hp.or (by unfold NoAddr; decide)
    have hmk : pteMkcont (slot m t j) = pfnPte (ptePfn (slot m t j)) (pteMkcont (ptePgprot (slot m t j))) := by
      rw [pteMkcont, pteMkcont, ← pfnPte_or, pfnPte_eta]
    have hsame52 : SameBits [52] (pteMkcont (ptePgprot (slot m t j))) (ptePgprot (slot m t j)) :=
      sameBits_or (by decide) (by decide) _
    rw [hmk]
    obtain ⟨hslot, hframe⟩ := contpteConvert_spec ht hn hcont' j m
    have hG := sameBits_gatherProt (pteMkcont (ptePgprot (slot m t j))) (contEntries m t j)
    have hok : WriteOk (pteMkcont (ptePgprot (slot m t j))) := by
      have h := hrule (j % 16) (by omega)
      rw [hd] at h
      exact (h ((ptePgprot_bit (by decide)).symm.trans h0)).ptePgprot.congr (hsame52 7 (by decide) (by decide))
        (hsame52 51 (by decide) (by decide))
    refine ⟨hframe, fun i hi => ?_, .inr ?_, fun i hi _ => ?_, fun i hi h => ?_, fun i hi h => ?_⟩
    · rw [hslot i hi]
      have hprot : SameBits [7, 10, 52, 55] _ (ptePgprot (slot m t j)) :=
        (hG.mono (by decide)).trans (hsame52.mono (by decide))
      exact (hprot.pfnPte _).trans ((sameBits_of_match (hmatch i hi)).symm.mono (by decide))
    · refine contGroup_of_slots (by omega) (by omega) (hcont'.gatherProt _) ?_ ?_ hslot
      · rw [hG 0 (by decide) (by decide), hsame52 0 (by decide) (by decide), h0]
      · rw [hG 52 (by decide) (by decide), pteMkcont, BitVec.getLsbD_or, pteContBit, getLsbD_bit (by decide)]
        simp
    · rw [hslot i hi]
      exact (hok.gatherProt _).pfnPte (by omega)
    · rw [hslot i hi, pteYoung_pfnPte (by omega)]
      exact gatherProt_test gatherBits_young (.inr ⟨_, slot_mem_contEntries m t j hi, h⟩)
    · rw [hslot i hi, pteDirty_pfnPte (by omega)]
      exact gatherProt_test gatherBits_dirty (.inr ⟨_, slot_mem_contEntries m t j hi, h⟩)
  · rw [hkeep hf]
    exact ⟨fun _ _ => rfl, fun _ _ _ _ _ => rfl, .inl hcont, hrule, fun _ _ h => h, fun _ _ h => h⟩

/-! ### Setting an entry -/

variable {pte : Entry}

/-- Outside the group of an entry nothing of a table changes, nor of what `ptep_get` reads. -/
theorem group_congr (h : ∀ x, ¬ (t + 8 * (j / 16 * 16) ≤ x ∧ x < t + 8 * (j / 16 * 16) + 8 * 16) → m' x = m x)
    (hi : i / 16 ≠ j / 16) : slot m' t i = slot m t i ∧ contEntries m' t i = contEntries m t i := by
  constructor
  · exact load64_congr fun x h1 h2 => h x (by omega)
  · refine List.map_congr_left fun k hk => load64_congr fun x h1 h2 => h x ?_
    rw [List.mem_range] at hk
    omega

theorem store64_unfolded (h : Unfolded t j m m') (hpte : WriteRule pte) :
    (∀ i < 16, pteCont (slot (store64 m' (t + 8 * j) (pteMknoncont pte)) t (j / 16 * 16 + i)) = false) ∧
      ∀ i < 16, WriteRule (slot (store64 m' (t + 8 * j) (pteMknoncont pte)) t (j / 16 * 16 + i)) := by
  constructor
  · intro i hi
    by_cases heq : j / 16 * 16 + i = j
    · rw [heq, slot_store64]
      exact noncont_bit pte
    · rw [slot_store64_of_ne heq]
      exact h.cont i hi
  · intro i hi
    by_cases heq : j / 16 * 16 + i = j
    · rw [heq, slot_store64]
      intro hv
      have hs := sameBits_noncont pte
      exact (hpte ((hs 0 (by decide) (by decide)).symm.trans hv)).congr (hs 7 (by decide) (by decide))
        (hs 51 (by decide) (by decide))
    · rw [slot_store64_of_ne heq]
      exact h.rule i hi

structure SamePage (e e' : Entry) : Prop where
  valid : isValid e = isValid e'
  frame : ptePfn e = ptePfn e'
  attr : ptePgprot e &&& ~~~foldBits = ptePgprot e' &&& ~~~foldBits

theorem samePage_of_sameBits (h : SameBits [7, 10, 52, 55] e e') : SamePage e e' := by
  obtain ⟨hframe, hattr⟩ := (sameBits_iff isMask_foldBits).1 h
  exact ⟨h 0 (by decide) (by decide), hframe, hattr⟩

/-- `set_pte_at` keeps a table well formed.  The entry has the frame of `pte` and its attributes up to the bits of the fold;
every other entry keeps its validity, its frame and its attributes up to the same bits, and what `ptep_get` reports of its
young and dirty bits is not lost.  Nothing outside the table changes. -/
theorem setPteAt_transparent (ht : t % 4096 = 0) (hwf : WellFormed m t) (hpte : WriteRule pte) {addr : Nat}
    (hset : setPteAt addr (t + 8 * index 0 addr) pte m = m') :
    WellFormed m' t ∧ SamePage (slot m' t (index 0 addr)) pte ∧
    (∀ i < 512, i ≠ index 0 addr → SamePage (slot m' t i) (slot m t i) ∧
      (pteYoung (ptepGet (t + 8 * i) m) = true → pteYoung (ptepGet (t + 8 * i) m') = true) ∧
      (pteDirty (ptepGet (t + 8 * i) m) = true → pteDirty (ptepGet (t + 8 * i) m') = true)) ∧
    ∀ x, pageOf x ≠ t → m' x = m x := by
  have hj := index_lt 0 addr
  generalize index 0 addr = j at *
  have hunfold := contpteTryUnfold_spec ht hwf hj
  obtain ⟨hcont, hrule⟩ := store64_unfolded hunfold hpte
  have hfold := contpteTryFold_spec ht hcont hrule addr
  rw [slot_store64] at hfold
  have heq : setPteAt addr (t + 8 * j) pte m = contpteTryFold addr (t + 8 * j) (pteMknoncont pte)
      (store64 (contpteTryUnfold (t + 8 * j) (slot m t j) m) (t + 8 * j) (pteMknoncont pte)) := rfl
  rw [← heq, hset] at hfold
  generalize contpteTryUnfold (t + 8 * j) (slot m t j) m = m₁ at *
  have hframe : ∀ x, ¬ (t + 8 * (j / 16 * 16) ≤ x ∧ x < t + 8 * (j / 16 * 16) + 8 * 16) → m' x = m x := by
    intro x hx
    rw [hfold.frame x hx, store64_of_not (by omega), hunfold.frame x hx]
  have hother : ∀ i, i / 16 ≠ j / 16 → slot m' t i = slot m t i ∧ contEntries m' t i = contEntries m t i :=
    fun i hi => group_congr hframe hi
  have hin : ∀ i, i / 16 = j / 16 → ∃ d < 16, i = j / 16 * 16 + d := fun i hi => ⟨i % 16, by omega, by omega⟩
  refine ⟨⟨fun k hk => ?_, fun i hi => ?_⟩, ?_, fun i hi hne => ?_, fun x hx => hframe x fun hx' => hx ?_⟩
  · by_cases hkj : k = j / 16
    · have h := hfold.group
      rwa [Nat.mul_comm, ← hkj] at h
    · have hsame : ∀ i < 16, slot m' t (16 * k + i) = slot m t (16 * k + i) := fun i hi => (hother _ (by omega)).1
      rcases hwf.groups k hk with h | ⟨n, hn, h⟩
      · exact .inl fun i hi => by rw [hsame i hi, h i hi]
      · refine .inr ⟨n, hn, fun i hi => ?_⟩
        have hfirst := hsame 0 (by decide)
        rw [Nat.add_zero] at hfirst
        rw [hsame i hi, hfirst]
        exact h i hi
  · by_cases hgroup : i / 16 = j / 16
    · obtain ⟨d, hd, rfl⟩ := hin i hgroup
      exact hfold.rule d hd
    · rw [(hother i hgroup).1]
      exact hwf.rule i hi
  · obtain ⟨d, hd, hjd⟩ := hin j rfl
    have h := hfold.same d hd
    rw [← hjd, slot_store64] at h
    exact samePage_of_sameBits (h.trans ((sameBits_noncont pte).mono (by decide)))
  · by_cases hgroup : i / 16 = j / 16
    · obtain ⟨d, hd, rfl⟩ := hin i hgroup
      have hstore := slot_store64_of_ne (m := m₁) (t := t) (e := pteMknoncont pte) hne
      have hsame := hfold.same d hd
      rw [hstore] at hsame
      refine ⟨samePage_of_sameBits (hsame.trans (hunfold.same d hd)), fun h => ?_, fun h => ?_⟩
      · have hy := hfold.young d hd (by rw [hstore]; exact hunfold.young d hd h)
        exact (ptepGet_spec ht m' _).1.2 (.inl hy)
      · have hdirty := hfold.dirty d hd (by rw [hstore]; exact hunfold.dirty d hd h)
        exact (ptepGet_spec ht m' _).2.2 (.inl hdirty)
    · obtain ⟨hslot, hgr⟩ := hother i hgroup
      rw [(ptepGet_spec ht m' i).1, (ptepGet_spec ht m' i).2, (ptepGet_spec ht m i).1, (ptepGet_spec ht m i).2, hslot, hgr]
      exact ⟨samePage_of_sameBits fun _ _ _ => rfl, id, id⟩
  · unfold pageOf
    omega

def cleanProt : Entry := pteMkcont (pteWrite ||| pteRdonly ||| pteAf ||| 3#64)

def foldedTable : Mem := setPtesAnysz 1 16 0 (pfnPte 256 cleanProt) fun _ => 0

theorem noAddr_cleanProt : NoAddr cleanProt := by
  unfold NoAddr
  decide

theorem foldedTable_slot : (∀ i < 16, slot foldedTable 0 i = pfnPte (256 + i) cleanProt) ∧ ∀ i, 16 ≤ i → slot foldedTable 0 i = 0 := by
  obtain ⟨hset, hframe⟩ := setPtesAnysz_spec (n := 256) (k := 16) noAddr_cleanProt (by decide) 0 fun _ => 0
  exact ⟨hset, fun i hi => load64_zero fun x h1 h2 => hframe x (by omega)⟩

theorem foldedTable_wellFormed : WellFormed foldedTable 0 := by
  obtain ⟨hgroup, hrest⟩ := foldedTable_slot
  constructor
  · intro k hk
    by_cases h0 : k = 0
    · subst h0
      refine .inr (contGroup_of_slots (n := 256) (by decide) (by decide) noAddr_cleanProt (by decide) (by decide) fun i hi => ?_)
      rw [Nat.mul_zero, Nat.zero_add, hgroup i hi]
    · refine .inl fun i hi => ?_
      rw [hrest _ (by omega)]
      decide
  · intro i hi hv
    by_cases h16 : i < 16
    · have hok : WriteOk cleanProt := by
        unfold WriteOk
        decide
      rw [hgroup i h16]
      exact hok.pfnPte (by omega)
    · rw [hrest i (by omega)] at hv
      cases hv

/-- Clearing one page of a contiguous group leaves the frames of the others. -/
theorem setPteAt_transparent_clear : WellFormed foldedTable 0 ∧
    WellFormed (setPteAt 0x3000 (0 + 8 * index 0 0x3000) 0 foldedTable) 0 ∧
    SamePage (slot (setPteAt 0x3000 (0 + 8 * index 0 0x3000) 0 foldedTable) 0 5) (pfnPte 261 cleanProt) ∧
    pteYoung (ptepGet (0 + 8 * 5) (setPteAt 0x3000 (0 + 8 * index 0 0x3000) 0 foldedTable)) = true := by
  have hrule : WriteRule 0 := by
    intro h
    cases h
  obtain ⟨m', hset⟩ : ∃ m', setPteAt 0x3000 (0 + 8 * index 0 0x3000) 0 foldedTable = m' := ⟨_, rfl⟩
  obtain ⟨hwf, -, hother, -⟩ := setPteAt_transparent (by decide) foldedTable_wellFormed hrule hset
  rw [hset]
  have hslot : slot foldedTable 0 5 = pfnPte 261 cleanProt := foldedTable_slot.1 5 (by decide)
  obtain ⟨hsame, hyoung, -⟩ := hother 5 (by decide) (by decide)
  rw [hslot] at hsame
  refine ⟨foldedTable_wellFormed, hwf, hsame, hyoung ?_⟩
  refine (ptepGet_spec (by decide) _ 5).1.2 (.inl ?_)
  rw [hslot, pteYoung_pfnPte (by decide)]
  decide

end Contpte

end QuestOS
