import QuestOS.Mmu.VmapPte

/-!
# Ranges of pages in one page table

A range of pages below one table of the last level, in indices of that table.  `entry` says what
`vmap_pte_range` writes for a page: sixteen pages that begin a group, in the table as in physical memory, are
written at once with the protection as given, every other page alone and without the contiguous bit.

The last page of a group that is written alone may be folded with the fifteen before it.  Within one range the
fold does not happen, since such a group is written at once; it happens when the range completes a group that
other mappings began (`Completes`).
-/

namespace QuestOS

open Bytes PageTable

structure PteRange where
  start : Nat
  count : Nat
  frame : Nat
  prot : Entry
  count_pos : 0 < count
  fin_le : start + count ≤ 512
  frame_le : frame + count ≤ 2 ^ 36
  page : PageProt prot
  deriving DecidableEq

namespace PteRange

variable {r q : PteRange} {t base i j : Nat} {m m' : Mem}

def fin (r : PteRange) : Nat := r.start + r.count

def Has (r : PteRange) (i : Nat) : Prop := r.start ≤ i ∧ i < r.fin

instance (r : PteRange) (i : Nat) : Decidable (r.Has i) := inferInstanceAs (Decidable (_ ∧ _))

def frameAt (r : PteRange) (i : Nat) : Nat := r.frame + (i - r.start)

def Whole (r : PteRange) (i : Nat) : Prop :=
  r.start ≤ i / 16 * 16 ∧ i / 16 * 16 + 16 ≤ r.fin ∧ r.frameAt (i / 16 * 16) % 16 = 0

instance (r : PteRange) (i : Nat) : Decidable (r.Whole i) := inferInstanceAs (Decidable (_ ∧ _))

def protAt (r : PteRange) (i : Nat) : Entry := if r.Whole i then r.prot else pteMknoncont r.prot

def entry (r : PteRange) (i : Nat) : Entry := pfnPte (r.frameAt i) (r.protAt i)

theorem fin_eq (r : PteRange) : r.fin = r.start + r.count := rfl

theorem frameAt_lt (h : r.Has i) : r.frameAt i < 2 ^ 36 := by
  have h1 := r.frame_le
  have h2 := h.2
  have h3 := r.fin_eq
  unfold frameAt
  have := h.1
  omega

theorem page_protAt (r : PteRange) (i : Nat) : PageProt (r.protAt i) := by
  unfold protAt
  split
  · exact r.page
  · exact r.page.noncont

theorem whole_add_one (h : (j + 1) % 16 ≠ 0) : r.Whole (j + 1) ↔ r.Whole j := by
  have : (j + 1) / 16 = j / 16 := by omega
  rw [Whole, Whole, this]

theorem leafOf_entry (h : r.Has i) (x : Nat) :
    (leafOf 0 (r.entry i) x).map norm = some (norm ⟨r.frameAt i * 4096 + x % 4096, protAttr r.prot⟩) := by
  have hsame : SameBits [52, 55] (r.entry i) (pfnPte (r.frameAt i) r.prot) := by
    intro b hb hex
    have hp : SameBits [52, 55] (r.protAt i) r.prot := by
      unfold protAt
      split
      · exact fun _ _ _ => rfl
      · exact sameBits_andNot (by decide) (by decide) _
    rw [entry, pfnPte, pfnPte, BitVec.getLsbD_or, BitVec.getLsbD_or, hp b hb hex]
  rw [leafOf_norm_congr hsame, leafOf_pfnPte r.page (frameAt_lt h), Option.map_some]

/-! ### Addresses -/

def addrOf (base i : Nat) : Nat := base + i * 4096

theorem addrOf_le (base : Nat) (h : i ≤ j) : addrOf base i ≤ addrOf base j := by
  unfold addrOf
  omega

theorem mapSize_addrOf {e f : Nat} (hbase : base % span 1 = 0) (hje : j ≤ e) (hfin : addrOf base e < 2 ^ 64) :
    archVmapPteRangeMapSize (addrOf base j) (addrOf base e) f =
      if j + 16 ≤ e ∧ j % 16 = 0 ∧ f % 16 = 0 then contPteSize else 4096 := by
  have hspan : span 1 = 2097152 := rfl
  have hcs : contPteSize = 65536 := rfl
  rw [hspan] at hbase
  unfold addrOf at *
  have hsub : sub64 (base + e * 4096) (base + j * 4096) = (e - j) * 4096 := by
    unfold sub64
    omega
  unfold archVmapPteRangeMapSize
  rw [hsub, hcs]
  by_cases h1 : j + 16 ≤ e
  · by_cases h2 : j % 16 = 0
    · by_cases h3 : f % 16 = 0
      · rw [if_neg (by omega), if_neg (by omega), if_neg (by omega), if_pos ⟨h1, h2, h3⟩]
      · rw [if_neg (by omega), if_neg (by omega), if_pos (by omega), if_neg (by omega)]
    · rw [if_neg (by omega), if_pos (by omega), if_neg (by omega)]
  · rw [if_pos (by omega), if_neg (by omega)]

theorem add64_addrOf {n : Nat} (hfin : addrOf base (j + n) < 2 ^ 64) : add64 (addrOf base j) (n * 4096) = addrOf base (j + n) := by
  unfold addrOf at *
  unfold add64
  omega

/-! ### Folding -/

def folded (n : Nat) (p : Entry) : Entry := pfnPte n (pteMkold (pteMkclean p))

def Matches (m : Mem) (t g n : Nat) (p : Entry) : Prop :=
  ∀ i < 16, pteMkold (pteMkclean (slot m t (g + i))) = folded (n + i) p

/-- When the last entry of a group has been written, the group is folded if it matches. -/
theorem foldable_iff {n : Nat} {p : Entry} {addr : Nat} (hp : PageProt p) : Foldable m t j addr n p ↔
    addr / 4096 % 16 = 15 ∧ n % 16 = 15 ∧ p.getLsbD 56 = false ∧ Matches m t (j / 16 * 16) (n / 16 * 16) p := by
  rw [Foldable, hp.type_bit (by decide)]
  simp only [true_and]
  rfl

def FoldsAt (m : Mem) (t j n : Nat) (p : Entry) : Prop :=
  j % 16 = 15 ∧ n % 16 = 15 ∧ p.getLsbD 56 = false ∧
    Matches (store64 m (t + 8 * j) (pfnPte n (pteMknoncont p))) t (j / 16 * 16) (n / 16 * 16) (pteMknoncont p)

theorem addrOf_page (hbase : base % span 1 = 0) (j : Nat) : addrOf base j / 4096 % 16 = j % 16 := by
  have hspan : span 1 = 2097152 := rfl
  rw [hspan] at hbase
  unfold addrOf
  omega

theorem setPteAt_addrOf {n : Nat} {p : Entry} (ht : t % 4096 = 0) (hbase : base % span 1 = 0) (hn : n < 2 ^ 36)
    (hp : PageProt p) (hempty : slot m t j = 0) :
    (FoldsAt m t j n p → setPteAt (addrOf base j) (t + 8 * j) (pfnPte n p) m =
      contpteConvert (t + 8 * j) (pteMkcont (pfnPte n (pteMknoncont p)))
        (store64 m (t + 8 * j) (pfnPte n (pteMknoncont p)))) ∧
    (¬ FoldsAt m t j n p → setPteAt (addrOf base j) (t + 8 * j) (pfnPte n p) m =
      store64 m (t + 8 * j) (pfnPte n (pteMknoncont p))) := by
  have h56 : (pteMknoncont p).getLsbD 56 = p.getLsbD 56 :=
    (sameBits_andNot (by decide) (by decide) p : SameBits [52] (pteMknoncont p) p) 56 (by decide) (by decide)
  have h := contpteTryFold_eq ht (frame_lt hn) hp.noncont.noAddr (noncont_bit p) (addrOf base j) j
    (store64 m (t + 8 * j) (pfnPte n (pteMknoncont p)))
  rw [foldable_iff hp.noncont, addrOf_page hbase, h56] at h
  rw [VmapRequest.setPteAt_eq (frame_lt hn) hempty]
  exact h

def Completes (r : PteRange) (m : Mem) (t : Nat) : Prop :=
  r.start % 16 ≠ 0 ∧ r.start / 16 * 16 + 16 ≤ r.fin ∧ r.frame % 16 = r.start % 16 ∧ r.prot.getLsbD 56 = false ∧
    ∀ i, r.start / 16 * 16 ≤ i → i < r.start →
      pteMkold (pteMkclean (slot m t i)) = folded (r.frame + i - r.start) (pteMknoncont r.prot)

def Entered (r : PteRange) (j : Nat) : Prop := r.Has j ∧ (j % 16 ≠ 0 → ¬ r.Whole j)

theorem completes_of_foldsAt (hj : r.Entered j) (h : FoldsAt m t j (r.frameAt j) r.prot) :
    r.Completes m t ∧ j < r.start / 16 * 16 + 16 := by
  obtain ⟨⟨h1, h2⟩, hwhole⟩ := hj
  obtain ⟨h15, hf15, hsp, hmatch⟩ := h
  have hlt : j / 16 * 16 < r.start := by
    by_contra hge
    refine hwhole (by omega) ⟨by omega, by omega, ?_⟩
    unfold frameAt at *
    omega
  unfold frameAt at hf15 hmatch
  refine ⟨⟨by omega, by omega, by omega, hsp, fun i hi1 hi2 => ?_⟩, by omega⟩
  have := hmatch (i - j / 16 * 16) (by omega)
  rwa [slot_store64_of_ne (by omega), show j / 16 * 16 + (i - j / 16 * 16) = i by omega,
    show (r.frame + (j - r.start)) / 16 * 16 + (i - j / 16 * 16) = r.frame + i - r.start by omega] at this

def Written (r : PteRange) (t a b : Nat) (m m' : Mem) : Prop :=
  ∀ i, slot m' t i = if a ≤ i ∧ i < b then r.entry i else slot m t i

theorem Written.trans {a b c : Nat} {m'' : Mem} (h : r.Written t a b m m') (h' : r.Written t b c m' m'') (hab : a ≤ b)
    (hbc : b ≤ c) : r.Written t a c m m'' := by
  intro i
  rw [h' i, h i]
  by_cases h1 : b ≤ i ∧ i < c
  · rw [if_pos h1, if_pos (by omega)]
  · rw [if_neg h1]
    by_cases h2 : a ≤ i ∧ i < b
    · rw [if_pos h2, if_pos (by omega)]
    · rw [if_neg h2, if_neg (by omega)]

theorem written_page (hj : ¬ r.Whole j) :
    r.Written t j (j + 1) m (store64 m (t + 8 * j) (pfnPte (r.frameAt j) (pteMknoncont r.prot))) := by
  intro i
  by_cases h : i = j
  · rw [h, slot_store64, if_pos (by omega), entry, protAt, if_neg hj]
  · rw [slot_store64_of_ne h, if_neg (by omega)]

theorem written_group (hj : r.Has j) (h0 : j % 16 = 0) (hfin : j + 16 ≤ r.fin) (hf : r.frameAt j % 16 = 0) :
    r.Written t j (j + 16) m (setPtesAnysz 1 16 (t + 8 * j) (pfnPte (r.frameAt j) r.prot) m) := by
  have hstart := hj.1
  have hle : r.frameAt j + 16 ≤ 2 ^ 36 := by
    have h1 := r.frame_le
    have h2 := r.fin_eq
    unfold frameAt
    omega
  obtain ⟨h1, h2⟩ := setPtesAnysz_spec r.page.noAddr (hle.trans (by decide)) (t + 8 * j) m
  intro i
  by_cases h : j ≤ i ∧ i < j + 16
  · have hi := h1 (i - j) (by omega)
    have hg : i / 16 * 16 = j := by omega
    have hframe : r.frameAt j + (i - j) = r.frameAt i := by
      unfold frameAt
      omega
    rw [if_pos h, entry, protAt, if_pos ⟨by omega, by omega, by rw [hg]; exact hf⟩, ← hframe, ← hi, slot,
      show t + 8 * j + 8 * (i - j) = t + 8 * i by omega]
  · rw [if_neg h]
    exact load64_congr fun x hx1 hx2 => h2 x (by omega)

/-! ### `vmap_pte_range` -/

theorem vmapPteLoop_step (ht : t % 4096 = 0) (hbase : base % span 1 = 0) (hfin : addrOf base r.fin < 2 ^ 64)
    (hj : r.Entered j) (hempty : slot m t j = 0) (fuel : Nat) :
    ∃ n m₁, (0 < n ∧ j + n ≤ r.fin ∧ (j % 16 ≠ 0 → n = 1)) ∧
      vmapPteLoop r.prot (addrOf base r.fin) (fuel + 1) (t + 8 * j) (addrOf base j) (r.frameAt j) m =
        (if j + n < r.fin then
          vmapPteLoop r.prot (addrOf base r.fin) fuel (t + 8 * (j + n)) (addrOf base (j + n)) (r.frameAt (j + n)) m₁
        else some m₁) ∧
      (j + n < r.fin → r.Entered (j + n)) ∧
      (¬ FoldsAt m t j (r.frameAt j) r.prot → r.Written t j (j + n) m m₁) ∧
      (FoldsAt m t j (r.frameAt j) r.prot →
        m₁ = contpteConvert (t + 8 * j) (pteMkcont (pfnPte (r.frameAt j) (pteMknoncont r.prot)))
          (store64 m (t + 8 * j) (pfnPte (r.frameAt j) (pteMknoncont r.prot)))) := by
  have hhas := hj.1
  obtain ⟨h1, h2⟩ := hj.1
  have hn := frameAt_lt hhas
  have hnone : pteNone (ptepGet (t + 8 * j) m) = true := by
    have hvc : pteValidCont (load64 m (t + 8 * j)) = false := by
      rw [show load64 m (t + 8 * j) = 0 from hempty]
      rfl
    rw [ptepGet, hvc, show load64 m (t + 8 * j) = 0 from hempty]
    rfl
  have hframe : ∀ n, r.frameAt (j + n) = r.frameAt j + n := by
    intro n
    unfold frameAt
    omega
  have hlt : ∀ n, addrOf base (j + n) < addrOf base r.fin ↔ j + n < r.fin := by
    intro n
    unfold addrOf
    omega
  have hadd : ∀ n, j + n ≤ r.fin → add64 (addrOf base j) (n * 4096) = addrOf base (j + n) := by
    intro n hle
    exact add64_addrOf (Nat.lt_of_le_of_lt (addrOf_le base hle) hfin)
  have hsize := mapSize_addrOf hbase (Nat.le_of_lt h2) hfin (f := r.frameAt j)
  by_cases hwhole : j + 16 ≤ r.fin ∧ j % 16 = 0 ∧ r.frameAt j % 16 = 0
  · obtain ⟨hw1, hw2, hw3⟩ := hwhole
    rw [if_pos ⟨hw1, hw2, hw3⟩] at hsize
    refine ⟨16, _, ⟨by decide, hw1, fun h => absurd hw2 h⟩, ?_, ?_, fun _ => written_group hhas hw2 hw1 hw3, fun hf => ?_⟩
    · have hne : contPteSize ≠ 4096 := by decide
      have hcs : contPteSize = 16 * 4096 := rfl
      have hdiv : contPteSize / 4096 = 16 := by decide
      rw [vmapPteLoop]
      simp only [hnone, Bool.not_true, Bool.false_eq_true, if_false, hsize, ne_eq, hne, not_false_eq_true, if_true,
        VmapRequest.setHugePteAt_eq r.page hn hempty, hdiv]
      rw [hcs, hadd 16 hw1, hframe, Nat.mul_add, ← Nat.add_assoc]
      simp only [hlt]
    · intro hmore
      refine ⟨⟨by omega, hmore⟩, fun h => absurd (by omega) h⟩
    · have := hf.1
      omega
  · rw [if_neg hwhole] at hsize
    have hnw : ¬ r.Whole j := by
      intro hw
      by_cases h0 : j % 16 = 0
      · have hg : j / 16 * 16 = j := by omega
        obtain ⟨_, hw2, hw3⟩ := hw
        rw [hg] at hw2 hw3
        exact hwhole ⟨hw2, h0, hw3⟩
      · exact hj.2 h0 hw
    obtain ⟨hs1, hs2⟩ := setPteAt_addrOf ht hbase hn r.page hempty
    refine ⟨1, setPteAt (addrOf base j) (t + 8 * j) (pfnPte (r.frameAt j) r.prot) m,
      ⟨by decide, by omega, fun _ => rfl⟩, ?_, ?_, ?_, hs1⟩
    · rw [vmapPteLoop]
      simp only [hnone, Bool.not_true, Bool.false_eq_true, if_false, hsize, ne_eq, not_true_eq_false]
      rw [show (4096 : Nat) = 1 * 4096 from rfl, hadd 1 (by omega), hframe, Nat.mul_add, ← Nat.add_assoc]
      simp only [hlt]
    · intro hmore
      exact ⟨⟨by omega, hmore⟩, fun h hw => hnw ((whole_add_one h).1 hw)⟩
    · intro hf
      rw [hs2 hf]
      exact written_page hnw

theorem vmapPteLoop_written (ht : t % 4096 = 0) (hbase : base % span 1 = 0) (hfin : addrOf base r.fin < 2 ^ 64)
    (hj : r.Entered j) (hempty : ∀ i, j ≤ i → i < r.fin → slot m t i = 0)
    (hfold : r.Completes m t → r.start / 16 * 16 + 16 ≤ j) (fuel : Nat) (hfuel : r.fin ≤ j + fuel) :
    ∃ m', vmapPteLoop r.prot (addrOf base r.fin) fuel (t + 8 * j) (addrOf base j) (r.frameAt j) m = some m' ∧
      r.Written t j r.fin m m' := by
  induction fuel generalizing j m with
  | zero =>
    have := hj.1.2
    omega
  | succ fuel ih =>
    have hno : ¬ FoldsAt m t j (r.frameAt j) r.prot := by
      intro hf
      obtain ⟨hc, hlt⟩ := completes_of_foldsAt hj hf
      have := hfold hc
      omega
    obtain ⟨n, m₁, ⟨hpos, hle, -⟩, hloop, hnext, hw, -⟩ :=
      vmapPteLoop_step ht hbase hfin hj (hempty j (Nat.le_refl j) hj.1.2) fuel
    have hw := hw hno
    rw [hloop]
    by_cases hmore : j + n < r.fin
    · rw [if_pos hmore]
      have hsame : ∀ i, i < r.start → slot m₁ t i = slot m t i := by
        intro i hi
        have := hj.1.1
        rw [hw i, if_neg (by omega)]
      obtain ⟨m', hm', hw'⟩ := ih (hnext hmore) (fun i hi1 hi2 => by rw [hw i, if_neg (by omega), hempty i (by omega) hi2])
        (fun hc => by
          obtain ⟨c1, c2, c3, c4, c5⟩ := hc
          have := hfold ⟨c1, c2, c3, c4, fun i hi1 hi2 => by rw [← hsame i hi2, c5 i hi1 hi2]⟩
          omega) (by omega)
      exact ⟨m', hm', hw.trans hw' (by omega) (by omega)⟩
    · rw [if_neg hmore]
      rw [show j + n = r.fin by omega] at hw
      exact ⟨m₁, rfl, hw⟩

/-! ### A range that completes a group -/

/-- The group of entry `j` after a fold: contiguous entries; the other entries are as before. -/
theorem slot_contpteConvert {n : Nat} {p : Entry} (ht : t % 4096 = 0) (hn : n < 2 ^ 36) (hp : PageProt p) (j : Nat) (m : Mem) :
    ∀ i, (j / 16 * 16 ≤ i ∧ i < j / 16 * 16 + 16 →
        pteValidCont (slot (contpteConvert (t + 8 * j) (pteMkcont (pfnPte n p)) m) t i) = true) ∧
      (¬ (j / 16 * 16 ≤ i ∧ i < j / 16 * 16 + 16) →
        slot (contpteConvert (t + 8 * j) (pteMkcont (pfnPte n p)) m) t i = slot m t i) := by
  have hcont : NoAddr (pteMkcont p) := hp.noAddr.or (by unfold NoAddr; decide)
  rw [show pteMkcont (pfnPte n p) = pfnPte n (pteMkcont p) from pfnPte_or n p]
  intro i
  refine ⟨fun hi => ?_, fun hi => slot_contpteConvert_of_not ht (frame_lt hn) hcont hi⟩
  obtain ⟨d, rfl⟩ : ∃ d, i = j / 16 * 16 + d := ⟨i - j / 16 * 16, by omega⟩
  have hsame := sameBits_gatherProt (pteMkcont p) (contEntries m t j)
  have h52 : (gatherProt (pteMkcont p) (contEntries m t j)).getLsbD 52 = true := by
    rw [hsame 52 (by decide) (by decide), pteMkcont, BitVec.getLsbD_or, pteContBit, getLsbD_bit (by decide)]
    simp
  have h0 : (gatherProt (pteMkcont p) (contEntries m t j)).getLsbD 0 = true := by
    rw [hsame 0 (by decide) (by decide), pteMkcont, BitVec.getLsbD_or, hp.type_bit (by decide), Bool.true_or]
  rw [(contpteConvert_spec ht (frame_lt hn) hcont j m).1 d (by omega), pteValidCont, isValid, pteCont, pfnPte, BitVec.getLsbD_or,
    BitVec.getLsbD_or, h0, h52, Bool.or_true, Bool.or_true]
  rfl

structure Joined (r : PteRange) (t : Nat) (m m' : Mem) : Prop where
  group : ∀ i, r.start / 16 * 16 ≤ i → i < r.start / 16 * 16 + 16 → pteValidCont (slot m' t i) = true
  written : ∀ i, r.start / 16 * 16 + 16 ≤ i → i < r.fin → slot m' t i = r.entry i
  frame : ∀ i, ¬ (r.start / 16 * 16 ≤ i ∧ i < r.fin) → slot m' t i = slot m t i

def MatchedTo (r : PteRange) (m : Mem) (t j : Nat) : Prop :=
  ∀ i, r.start / 16 * 16 ≤ i → i < j →
    pteMkold (pteMkclean (slot m t i)) = folded (r.frame + i - r.start) (pteMknoncont r.prot)

theorem foldsAt_iff (hc : r.start % 16 ≠ 0 ∧ r.frame % 16 = r.start % 16 ∧ r.prot.getLsbD 56 = false) (hj : r.Has j)
    (hlt : j < r.start / 16 * 16 + 16) (hm : r.MatchedTo m t j) :
    FoldsAt m t j (r.frameAt j) r.prot ↔ j = r.start / 16 * 16 + 15 := by
  obtain ⟨c1, c2, c3⟩ := hc
  have h1 := hj.1
  have hn := frameAt_lt hj
  constructor
  · intro h
    have := h.1
    omega
  · intro h
    refine ⟨by omega, by unfold frameAt; omega, c3, fun i hi => ?_⟩
    have hframe : r.frameAt j / 16 * 16 + i = r.frame + (j / 16 * 16 + i) - r.start := by
      unfold frameAt
      omega
    by_cases hi15 : i = 15
    · have hidx : j / 16 * 16 + i = j := by omega
      have hf : r.frameAt j / 16 * 16 + i = r.frameAt j := by
        unfold frameAt
        omega
      rw [hidx, hf, slot_store64, mkold_mkclean_pfnPte (frame_lt hn), folded]
    · rw [slot_store64_of_ne (by omega), hframe]
      exact hm _ (by omega) (by omega)

theorem vmapPteLoop_joined (ht : t % 4096 = 0) (hbase : base % span 1 = 0) (hfin : addrOf base r.fin < 2 ^ 64)
    (hc : r.start % 16 ≠ 0 ∧ r.frame % 16 = r.start % 16 ∧ r.prot.getLsbD 56 = false)
    (hcover : r.start / 16 * 16 + 16 ≤ r.fin) (hj : r.Entered j) (hlt : j < r.start / 16 * 16 + 16)
    (hempty : ∀ i, j ≤ i → i < r.fin → slot m t i = 0) (hm : r.MatchedTo m t j) (fuel : Nat) (hfuel : r.fin ≤ j + fuel) :
    ∃ m', vmapPteLoop r.prot (addrOf base r.fin) fuel (t + 8 * j) (addrOf base j) (r.frameAt j) m = some m' ∧
      r.Joined t m m' := by
  induction fuel generalizing j m with
  | zero =>
    have := hj.1.2
    omega
  | succ fuel ih =>
    have hstart := hj.1.1
    have hiff := foldsAt_iff hc hj.1 hlt hm
    obtain ⟨n, m₁, ⟨-, -, hn1⟩, hloop, hnext, hw, hf⟩ :=
      vmapPteLoop_step ht hbase hfin hj (hempty j (Nat.le_refl j) hj.1.2) fuel
    obtain rfl := hn1 (by omega)
    rw [hloop]
    by_cases hlast : j = r.start / 16 * 16 + 15
    · -- the fold, and what is left of the range
      have hslot := slot_contpteConvert ht (frameAt_lt hj.1) r.page.noncont j
        (store64 m (t + 8 * j) (pfnPte (r.frameAt j) (pteMknoncont r.prot)))
      rw [← hf (hiff.2 hlast)] at hslot
      have hout : ∀ i, ¬ (r.start / 16 * 16 ≤ i ∧ i < r.start / 16 * 16 + 16) → slot m₁ t i = slot m t i := by
        intro i hi
        rw [(hslot i).2 (by omega), slot_store64_of_ne (by omega)]
      by_cases hmore : j + 1 < r.fin
      · rw [if_pos hmore]
        obtain ⟨m', hm', hw'⟩ := vmapPteLoop_written ht hbase hfin (hnext hmore)
          (fun i hi1 hi2 => by rw [hout i (by omega), hempty i (by omega) hi2]) (fun _ => by omega) fuel (by omega)
        refine ⟨m', hm', fun i hi1 hi2 => ?_, fun i hi1 hi2 => ?_, fun i hi => ?_⟩
        · rw [hw' i, if_neg (by omega)]
          exact (hslot i).1 (by omega)
        · rw [hw' i, if_pos (by omega)]
        · rw [hw' i, if_neg (by omega), hout i (by omega)]
      · rw [if_neg hmore]
        exact ⟨m₁, rfl, fun i hi1 hi2 => (hslot i).1 (by omega), fun i hi1 hi2 => absurd hi2 (by omega),
          fun i hi => hout i (by omega)⟩
    · have hw := hw fun h => hlast (hiff.1 h)
      have hmore : j + 1 < r.fin := by omega
      rw [if_pos hmore]
      have hnw : ¬ r.Whole j := hj.2 (by omega)
      have hmatch : r.MatchedTo m₁ t (j + 1) := by
        intro i hi1 hi2
        by_cases hij : i = j
        · have hframe : r.frame + j - r.start = r.frameAt j := by
            unfold frameAt
            omega
          rw [hij, hframe, hw j, if_pos (by omega), entry, protAt, if_neg hnw, mkold_mkclean_pfnPte (frame_lt (frameAt_lt hj.1)), folded]
        · rw [hw i, if_neg (by omega)]
          exact hm i hi1 (by omega)
      obtain ⟨m', hm', hg, hwr, hfr⟩ := ih (hnext hmore) (by omega)
        (fun i hi1 hi2 => by rw [hw i, if_neg (by omega), hempty i (by omega) hi2]) hmatch (by omega)
      refine ⟨m', hm', hg, hwr, fun i hi => ?_⟩
      rw [hfr i hi, hw i, if_neg (by omega)]

end PteRange

end QuestOS
