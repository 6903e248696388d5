import QuestOS.Mmu.Pte

/-!
# What writing page entries does

An entry is a page frame and a protection without address bits.  Folding sixteen entries sets the
contiguous bit and may set the dirty bit; apart from these two (`Leaf.norm`) it changes no translation,
if the entries of the group agree on the two bits that the match ignores.
-/

namespace QuestOS

open Bytes PageTable

variable {e p q : Entry} {n i : Nat} {m m' : Mem}

/-! ### Masks -/

theorem and_mask_bit {mask : Entry} (h : p &&& mask = 0) {i : Nat} (hi : mask.getLsbD i = true) :
    p.getLsbD i = false := by
  have hb := congrArg (fun w => BitVec.getLsbD w i) h
  simp only [BitVec.getLsbD_and, hi, Bool.and_true] at hb
  simpa using hb

theorem pteAddrLow_bit : ∀ i < 64, pteAddrLow.getLsbD i = (decide (12 ≤ i) && decide (i < 50)) := by decide

def NoAddr (p : Entry) : Prop := p &&& pteAddrLow = 0

theorem NoAddr.bit (h : NoAddr p) (h1 : 12 ≤ i) (h2 : i < 50) : p.getLsbD i = false :=
  and_mask_bit h (by rw [pteAddrLow_bit i (by omega), decide_eq_true h1, decide_eq_true h2]; rfl)

/-- The address field has room for 38 bits of a page frame number, of which the addresses here use 36. -/
theorem frame_lt (hn : n < 2 ^ 36) : n < 2 ^ 38 := by omega

theorem pfn_bit (hn : n < 2 ^ 38) (h : i < 12 ∨ 50 ≤ i) : (BitVec.ofNat 64 (n * 4096)).getLsbD i = false := by
  have hbit : (n * 4096).testBit i = false := by
    rw [show 4096 = 2 ^ 12 from rfl, Nat.testBit_mul_two_pow]
    rcases h with h | h
    · rw [decide_eq_false (by omega), Bool.false_and]
    · have hlt : n < 2 ^ (i - 12) := hn.trans_le (Nat.pow_le_pow_right (by decide) (by omega))
      rw [Nat.testBit_lt_two_pow hlt, Bool.and_false]
  rw [BitVec.getLsbD_ofNat, hbit, Bool.and_false]

theorem pfnPte_bit (hn : n < 2 ^ 38) (h : i < 12 ∨ 50 ≤ i) : (pfnPte n p).getLsbD i = p.getLsbD i := by
  rw [pfnPte, BitVec.getLsbD_or, pfn_bit hn h, Bool.false_or]

theorem pfn_and_addrLow (hn : n < 2 ^ 38) :
    BitVec.ofNat 64 (n * 4096) &&& pteAddrLow = BitVec.ofNat 64 (n * 4096) := by
  apply BitVec.eq_of_getLsbD_eq
  intro i hi
  rw [BitVec.getLsbD_and, pteAddrLow_bit i hi]
  by_cases h : i < 12 ∨ 50 ≤ i
  · rw [pfn_bit hn h, Bool.false_and]
  · rw [decide_eq_true (by omega), decide_eq_true (by omega)]
    simp

/-! ### The fields of an entry -/

theorem pteToPhys_pfnPte (hn : n < 2 ^ 38) (hp : NoAddr p) : pteToPhys (pfnPte n p) = n * 4096 := by
  have h : pfnPte n p &&& pteAddrLow = BitVec.ofNat 64 (n * 4096) := by
    rw [pfnPte, BitVec.and_or_distrib_right, pfn_and_addrLow hn, show p &&& pteAddrLow = 0 from hp]
    exact BitVec.or_zero
  rw [pteToPhys, h, BitVec.toNat_ofNat, Nat.mod_eq_of_lt (by omega)]

theorem ptePfn_pfnPte (hn : n < 2 ^ 38) (hp : NoAddr p) : ptePfn (pfnPte n p) = n := by
  rw [ptePfn, pteToPhys_pfnPte hn hp, Nat.mul_div_cancel _ (by decide)]

theorem ptePgprot_pfnPte (hn : n < 2 ^ 38) (hp : NoAddr p) : ptePgprot (pfnPte n p) = p := by
  rw [ptePgprot, ptePfn_pfnPte hn hp]
  apply BitVec.eq_of_getLsbD_eq
  intro i hi
  rw [BitVec.getLsbD_xor, pfnPte, pfnPte, BitVec.getLsbD_or, BitVec.getLsbD_or]
  by_cases h : i < 12 ∨ 50 ≤ i
  · simp [pfn_bit hn h]
  · rw [hp.bit (by omega) (by omega)]
    simp

theorem pteAdvancePfn_pfnPte (hn : n < 2 ^ 38) (hp : NoAddr p) (k : Nat) :
    pteAdvancePfn (pfnPte n p) k = pfnPte (n + k) p := by
  rw [pteAdvancePfn, ptePfn_pfnPte hn hp, ptePgprot_pfnPte hn hp]

structure PageProt (p : Entry) : Prop where
  noAddr : NoAddr p
  type : p &&& 3#64 = 3#64

theorem pfnPte_eq_desc (n : Nat) (p : Entry) : pfnPte n p = desc (n * 4096) (p &&& ~~~3#64) (p &&& 3#64) := by
  rw [pfnPte, desc, BitVec.or_assoc]
  congr 1
  apply BitVec.eq_of_getLsbD_eq
  intro i hi
  rw [BitVec.getLsbD_or, BitVec.getLsbD_and, BitVec.getLsbD_and, BitVec.getLsbD_not]
  cases p.getLsbD i <;> cases (3#64).getLsbD i <;> simp [hi]

theorem NoAddr.fields (hp : NoAddr p) (hn : n < 2 ^ 36) : Fields (n * 4096) (p &&& ~~~3#64) (p &&& 3#64) where
  aligned := Nat.mul_mod_left n 4096
  lt := by omega
  attr := by
    apply BitVec.eq_of_getLsbD_eq
    intro i hi
    rw [BitVec.getLsbD_and, BitVec.getLsbD_and, BitVec.getLsbD_or, BitVec.getLsbD_not, addrMask_bit i hi]
    by_cases h : 12 ≤ i ∧ i < 48
    · rw [hp.bit h.1 (by omega)]
      simp
    · have : (decide (12 ≤ i) && decide (i < 48)) = false := by simpa using h
      rw [this]
      cases p.getLsbD i <;> cases (3#64).getLsbD i <;> simp
  type := by rw [BitVec.and_assoc, BitVec.and_self]

def protAttr (p : Entry) : BitVec 64 := p &&& ~~~3#64

theorem leafOf_pfnPte (hp : PageProt p) (hn : n < 2 ^ 36) (x : Nat) :
    leafOf 0 (pfnPte n p) x = some ⟨n * 4096 + x % 4096, protAttr p⟩ := by
  have hf := hp.noAddr.fields hn
  have htab := hf.isTable
  rw [hp.type] at htab hf
  rw [leafOf, pfnPte_eq_desc, hp.type, if_pos rfl, if_pos (htab.trans (by decide)), hf.outAddr, hf.leafAttr,
    span_zero, Nat.mul_div_cancel _ (by decide)]
  rfl

theorem leafAttr_pfnPte (hp : NoAddr p) (hn : n < 2 ^ 36) : leafAttr (pfnPte n p) = protAttr p := by
  rw [pfnPte_eq_desc, (hp.fields hn).leafAttr]
  rfl

/-! ### Changing bits -/

theorem getLsbD_bit {b : Nat} (hb : b < 64) (i : Nat) : ((1#64) <<< b).getLsbD i = decide (i = b) := by
  rw [BitVec.getLsbD_shiftLeft, BitVec.getLsbD_one]
  by_cases h : i = b
  · subst h
    simp [hb]
  · rw [decide_eq_false h]
    by_cases h2 : i < b
    · simp [h2]
    · have h3 : ¬ i - b = 0 := by omega
      simp [h3]

theorem pfnPte_or {b : Entry} (n : Nat) (p : Entry) : pfnPte n p ||| b = pfnPte n (p ||| b) := BitVec.or_assoc _ _ _

theorem pfnPte_andNot {b : Nat} (hb : b < 64) (hb' : b < 12 ∨ 50 ≤ b) (hn : n < 2 ^ 38) (p : Entry) :
    pfnPte n p &&& ~~~(1#64 <<< b) = pfnPte n (p &&& ~~~(1#64 <<< b)) := by
  have ha : BitVec.ofNat 64 (n * 4096) &&& ~~~(1#64 <<< b) = BitVec.ofNat 64 (n * 4096) := by
    apply BitVec.eq_of_getLsbD_eq
    intro i hi
    rw [BitVec.getLsbD_and, BitVec.getLsbD_not, getLsbD_bit hb, decide_eq_true hi, Bool.true_and]
    by_cases h : i = b
    · rw [h, pfn_bit hn hb', Bool.false_and]
    · rw [decide_eq_false h, Bool.not_false, Bool.and_true]
  rw [pfnPte, BitVec.and_or_distrib_right, ha]
  rfl

theorem NoAddr.or {b : Entry} (hp : NoAddr p) (hb : NoAddr b) : NoAddr (p ||| b) := by
  unfold NoAddr at *
  rw [BitVec.and_or_distrib_right, hp, hb]
  rfl

theorem NoAddr.and (hp : NoAddr p) (b : Entry) : NoAddr (p &&& b) := by
  unfold NoAddr at *
  rw [BitVec.and_comm p b, BitVec.and_assoc, hp]
  exact BitVec.and_zero

theorem pteMkdirty_eq (e : Entry) :
    pteMkdirty e = if e.getLsbD 51 then (e ||| pteDirtyBit) &&& ~~~pteRdonly else e ||| pteDirtyBit := by
  unfold pteMkdirty
  have h : (e ||| pteDirtyBit).getLsbD 51 = e.getLsbD 51 := by
    rw [BitVec.getLsbD_or, pteDirtyBit, getLsbD_bit (by decide)]
    exact Bool.or_false _
  simp only [h]

theorem pteMkdirty_pfnPte (hn : n < 2 ^ 38) (p : Entry) : pteMkdirty (pfnPte n p) = pfnPte n (pteMkdirty p) := by
  have h : (pfnPte n p).getLsbD 51 = p.getLsbD 51 := pfnPte_bit hn (by decide)
  rw [pteMkdirty_eq, pteMkdirty_eq, h, pfnPte_or]
  split
  · exact pfnPte_andNot (by decide) (by decide) hn _
  · rfl

theorem NoAddr.mkdirty (hp : NoAddr p) : NoAddr (pteMkdirty p) := by
  rw [pteMkdirty_eq]
  have h : NoAddr (p ||| pteDirtyBit) := hp.or (by unfold NoAddr; decide)
  split
  · exact h.and _
  · exact h

def SameBits (ex : List Nat) (p q : Entry) : Prop := ∀ i < 64, i ∉ ex → p.getLsbD i = q.getLsbD i

variable {ex : List Nat}

theorem SameBits.symm (h : SameBits ex p q) : SameBits ex q p := fun i hi hn => (h i hi hn).symm

theorem SameBits.trans (h : SameBits ex p q) (h' : SameBits ex q e) : SameBits ex p e :=
  fun i hi hn => (h i hi hn).trans (h' i hi hn)

theorem SameBits.mono {ex ex' : List Nat} (h : SameBits ex p q) (hex : ex ⊆ ex') : SameBits ex' p q :=
  fun i hi hn => h i hi fun hmem => hn (hex hmem)

theorem SameBits.and (h : SameBits ex p q) (mask : Entry) : SameBits ex (p &&& mask) (q &&& mask) :=
  fun i hi hn => by rw [BitVec.getLsbD_and, BitVec.getLsbD_and, h i hi hn]

theorem SameBits.pfnPte (h : SameBits ex p q) (n : Nat) : SameBits ex (pfnPte n p) (pfnPte n q) := by
  intro i hi hex
  rw [QuestOS.pfnPte, QuestOS.pfnPte, BitVec.getLsbD_or, BitVec.getLsbD_or, h i hi hex]

theorem sameBits_or {b : Nat} (hb : b < 64) (hmem : b ∈ ex) (p : Entry) :
    SameBits ex (p ||| 1#64 <<< b) p := by
  intro i _ hn
  have hne : i ≠ b := fun h => hn (h ▸ hmem)
  rw [BitVec.getLsbD_or, getLsbD_bit hb, decide_eq_false hne, Bool.or_false]

theorem sameBits_andNot {b : Nat} (hb : b < 64) (hmem : b ∈ ex) (p : Entry) :
    SameBits ex (p &&& ~~~(1#64 <<< b)) p := by
  intro i hi hn
  have hne : i ≠ b := fun h => hn (h ▸ hmem)
  rw [BitVec.getLsbD_and, BitVec.getLsbD_not, getLsbD_bit hb, decide_eq_false hne, decide_eq_true hi]
  simp

theorem sameBits_mkold_mkclean (e : Entry) : SameBits [7, 10, 55] (pteMkold (pteMkclean e)) e := by
  have h1 : SameBits [7, 10, 55] (pteMkold (pteMkclean e)) (pteMkclean e) := sameBits_andNot (by decide) (by decide) _
  have h2 : SameBits [7, 10, 55] (pteMkclean e) (e &&& ~~~pteDirtyBit) := sameBits_or (by decide) (by decide) _
  have h3 : SameBits [7, 10, 55] (e &&& ~~~pteDirtyBit) e := sameBits_andNot (by decide) (by decide) _
  exact h1.trans (h2.trans h3)

/-! ### Writing a run of entries -/

variable {ptep x k : Nat}

theorem setPtesAnysz_spec (hp : NoAddr p) (hn : n + k ≤ 2 ^ 38) (ptep : Nat) (m : Mem) :
    (∀ i < k, load64 (setPtesAnysz 1 k ptep (pfnPte n p) m) (ptep + 8 * i) = pfnPte (n + i) p) ∧
      ∀ x, ¬ (ptep ≤ x ∧ x < ptep + 8 * k) → setPtesAnysz 1 k ptep (pfnPte n p) m x = m x := by
  induction k generalizing n ptep m with
  | zero => exact ⟨fun i hi => absurd hi (Nat.not_lt_zero i), fun _ _ => rfl⟩
  | succ k ih =>
    have hn' : n < 2 ^ 38 := by omega
    rw [setPtesAnysz, pteAdvancePfn_pfnPte hn' hp]
    obtain ⟨h1, h2⟩ := ih (n := n + 1) (by omega) (ptep + 8) (store64 m ptep (pfnPte n p))
    refine ⟨fun i hi => ?_, fun x hx => ?_⟩
    · cases i with
      | zero =>
        have hframe : ∀ x, ptep ≤ x → x < ptep + 8 → setPtesAnysz 1 k (ptep + 8) (pfnPte (n + 1) p)
            (store64 m ptep (pfnPte n p)) x = store64 m ptep (pfnPte n p) x := fun x _ _ => h2 x (by omega)
        change load64 _ ptep = pfnPte n p
        rw [load64_congr hframe, load64_store64]
      | succ i =>
        have := h1 i (by omega)
        rw [show ptep + 8 * (i + 1) = ptep + 8 + 8 * i by omega, this, Nat.add_assoc, Nat.add_comm 1 i]
    · rw [h2 x (by omega), store64_of_not (by omega)]

def gatherBits (q e : Entry) : Entry :=
  let q := if pteDirty e then pteMkdirty q else q
  if pteYoung e then pteMkyoung q else q

def gatherProt (q : Entry) (es : List Entry) : Entry := es.foldl gatherBits q

theorem gatherBits_pfnPte (hn : n < 2 ^ 38) (q e : Entry) : gatherBits (pfnPte n q) e = pfnPte n (gatherBits q e) := by
  have hdirty : (if pteDirty e then pteMkdirty (pfnPte n q) else pfnPte n q) =
      pfnPte n (if pteDirty e then pteMkdirty q else q) := by
    split
    · exact pteMkdirty_pfnPte hn q
    · rfl
  unfold gatherBits
  dsimp only
  rw [hdirty]
  split
  · exact pfnPte_or ..
  · rfl

theorem NoAddr.gatherBits (hq : NoAddr q) (e : Entry) : NoAddr (gatherBits q e) := by
  have hdirty : NoAddr (if pteDirty e then pteMkdirty q else q) := by
    split
    · exact hq.mkdirty
    · exact hq
  unfold QuestOS.gatherBits
  dsimp only
  split
  · exact hdirty.or (by unfold NoAddr; decide)
  · exact hdirty

theorem NoAddr.gatherProt (hq : NoAddr q) (es : List Entry) : NoAddr (gatherProt q es) := by
  induction es generalizing q with
  | nil => exact hq
  | cons e es ih => exact ih (hq.gatherBits e)

theorem sameBits_mkdirty (p : Entry) : SameBits [7, 55] (pteMkdirty p) p := by
  have h : SameBits [7, 55] (p ||| pteDirtyBit) p := sameBits_or (by decide) (by decide) p
  rw [pteMkdirty_eq]
  split
  · exact (sameBits_andNot (by decide) (by decide) _).trans h
  · exact h

theorem sameBits_gatherBits (q e : Entry) : SameBits [7, 10, 55] (gatherBits q e) q := by
  have hdirty : SameBits [7, 10, 55] (if pteDirty e then pteMkdirty q else q) q := by
    split
    · exact (sameBits_mkdirty q).mono (by decide)
    · exact fun _ _ _ => rfl
  unfold gatherBits
  dsimp only
  split
  · exact (sameBits_or (by decide) (by decide) _).trans hdirty
  · exact hdirty

theorem sameBits_gatherProt (q : Entry) (es : List Entry) : SameBits [7, 10, 55] (gatherProt q es) q := by
  induction es generalizing q with
  | nil => exact fun _ _ _ => rfl
  | cons e es ih => exact (ih (gatherBits q e)).trans (sameBits_gatherBits q e)

def pteEntries (m : Mem) (ptep k : Nat) : List Entry := (List.range k).map fun i => load64 m (ptep + 8 * i)

theorem pteEntries_succ (m : Mem) (ptep k : Nat) : pteEntries m ptep (k + 1) = load64 m ptep :: pteEntries m (ptep + 8) k := by
  rw [pteEntries, List.range_succ_eq_map, List.map_cons, List.map_map]
  refine congrArg (_ :: ·) (List.map_congr_left fun i _ => ?_)
  rw [Function.comp_apply, show ptep + 8 * i.succ = ptep + 8 + 8 * i by omega]

theorem contpteGather_eq (hn : n < 2 ^ 38) (k ptep : Nat) (q : Entry) (m : Mem) :
    ∃ m', contpteGather k ptep (pfnPte n q) m = (m', pfnPte n (gatherProt q (pteEntries m ptep k))) ∧
      ∀ x, ¬ (ptep ≤ x ∧ x < ptep + 8 * k) → m' x = m x := by
  induction k generalizing ptep m q with
  | zero => exact ⟨m, rfl, fun _ _ => rfl⟩
  | succ k ih =>
    obtain ⟨m', h, hframe⟩ := ih (ptep + 8) (gatherBits q (load64 m ptep)) (store64 m ptep 0)
    have hrest : pteEntries (store64 m ptep 0) (ptep + 8) k = pteEntries m (ptep + 8) k :=
      List.map_congr_left fun i _ => load64_store64_of_disjoint (by omega)
    refine ⟨m', ?_, fun x hx => by rw [hframe x (by omega), store64_of_not (by omega)]⟩
    rw [pteEntries_succ, gatherProt, List.foldl_cons, ← gatherProt, ← hrest, ← h, ← gatherBits_pfnPte hn]
    rfl

/-- An entry with the bits of a page frame and a protection, but for the dirty bit, whose young and
dirty bits are safe to gather into that protection. -/
structure Gatherable (n : Nat) (p e : Entry) : Prop where
  same : SameBits [55] e (pfnPte n p)
  clean : p.getLsbD 51 = true → p.getLsbD 7 = true → e.getLsbD 55 = false

def SameProt (p q : Entry) : Prop := NoAddr p ∧ SameBits [52, 55] p q

theorem Gatherable.bit (h : Gatherable n p e) (hn : n < 2 ^ 38) (hi : i < 64) (h55 : i ≠ 55)
    (h' : i < 12 ∨ 50 ≤ i) : e.getLsbD i = p.getLsbD i := by
  rw [h.same i hi (by simp [h55]), pfnPte_bit hn h']

theorem SameProt.mkdirty (h : SameProt q p) (hclean : p.getLsbD 51 = true → p.getLsbD 7 = false) :
    SameProt (pteMkdirty q) p := by
  refine ⟨h.1.mkdirty, ?_⟩
  have hor : SameBits [52, 55] (q ||| pteDirtyBit) p := (sameBits_or (by decide) (by decide) q).trans h.2
  rw [pteMkdirty_eq]
  split
  · rename_i hw
    intro i hi hex
    rw [h.2 51 (by decide) (by decide)] at hw
    rw [BitVec.getLsbD_and, hor i hi hex, BitVec.getLsbD_not, pteRdonly, getLsbD_bit (by decide), decide_eq_true hi]
    by_cases h7 : i = 7
    · rw [h7, hclean hw, Bool.false_and]
    · rw [decide_eq_false h7]
      simp
  · exact hor

theorem SameProt.mkyoung (h : SameProt q p) (hy : p.getLsbD 10 = true) : SameProt (pteMkyoung q) p := by
  refine ⟨h.1.or (by unfold NoAddr; decide), fun i hi hex => ?_⟩
  rw [pteMkyoung, BitVec.getLsbD_or, h.2 i hi hex, pteAf, getLsbD_bit (by decide)]
  by_cases h10 : i = 10
  · rw [h10, hy]
    rfl
  · rw [decide_eq_false h10, Bool.or_false]

theorem gatherBits_sameProt (hn : n < 2 ^ 38) (h : Gatherable n p e) (hq : SameProt q p) : SameProt (gatherBits q e) p := by
  have h51 := h.bit hn (i := 51) (by decide) (by decide) (by decide)
  have h7 := h.bit hn (i := 7) (by decide) (by decide) (by decide)
  have h10 := h.bit hn (i := 10) (by decide) (by decide) (by decide)
  have hdirty : SameProt (if pteDirty e then pteMkdirty q else q) p := by
    split
    · rename_i hd
      refine hq.mkdirty fun hw => ?_
      cases hr : p.getLsbD 7 with
      | false => rfl
      | true =>
        rw [pteDirty, pteHwDirty, h.clean hw hr, h51, h7, hw, hr] at hd
        cases hd
    · exact hq
  unfold gatherBits
  dsimp only
  split
  · rename_i hy
    refine hdirty.mkyoung ?_
    rw [← h10]
    exact hy
  · exact hdirty

theorem gatherProt_sameProt {es : List Entry} (h : ∀ e ∈ es, ∃ n < 2 ^ 38, Gatherable n p e) (hq : SameProt q p) :
    SameProt (gatherProt q es) p := by
  induction es generalizing q with
  | nil => exact hq
  | cons e es ih =>
    obtain ⟨n, hn, he⟩ := h e (List.mem_cons_self ..)
    exact ih (fun e he => h e (List.mem_cons_of_mem _ he)) (gatherBits_sameProt hn he hq)

/-! ### Translations up to the contiguous and the dirty bit -/

def norm (l : Leaf) : Leaf := { l with attr := l.attr &&& ~~~(pteContBit ||| pteDirtyBit) }

theorem leafOf_norm_congr {e' : Entry} (h : SameBits [52, 55] e e') (k x : Nat) :
    (leafOf k e x).map norm = (leafOf k e' x).map norm := by
  have h0 : e.getLsbD 0 = e'.getLsbD 0 := h 0 (by decide) (by decide)
  have h1 : e.getLsbD 1 = e'.getLsbD 1 := h 1 (by decide) (by decide)
  have haddr : outAddr e = outAddr e' := by
    have hmask : e &&& addrMask = e' &&& addrMask := by
      apply BitVec.eq_of_getLsbD_eq
      intro i hi
      rw [BitVec.getLsbD_and, BitVec.getLsbD_and, addrMask_bit i hi]
      by_cases hi' : 12 ≤ i ∧ i < 48
      · rw [h i hi (by simp only [List.mem_cons, List.not_mem_nil, or_false]; omega)]
      · have : (decide (12 ≤ i) && decide (i < 48)) = false := by simpa using hi'
        rw [this, Bool.and_false, Bool.and_false]
    rw [outAddr, outAddr, hmask]
  have hattr : leafAttr e &&& ~~~(pteContBit ||| pteDirtyBit) = leafAttr e' &&& ~~~(pteContBit ||| pteDirtyBit) := by
    apply BitVec.eq_of_getLsbD_eq
    intro i hi
    rw [leafAttr, leafAttr]
    simp only [BitVec.getLsbD_and, BitVec.getLsbD_not, BitVec.getLsbD_or, pteContBit, pteDirtyBit,
      getLsbD_bit (show 52 < 64 by decide), getLsbD_bit (show 55 < 64 by decide)]
    by_cases hex : i = 52 ∨ i = 55
    · rcases hex with rfl | rfl <;> simp
    · rw [h i hi (by simpa using hex)]
  have htab : isTable e = isTable e' := by rw [isTable, isTable, h0, h1]
  rw [leafOf, leafOf, htab, show isValid e = isValid e' from h0, haddr]
  generalize (if k = 0 then isTable e' else isValid e' && !isTable e' && decide (k ≤ 2)) = leaf
  cases leaf with
  | false => rfl
  | true => simp only [if_true, Option.map_some, norm, hattr]

/-- The attributes of a neighbour with which a page may be folded: the young and the read-only bit are
the same, and a writable page that is marked read-only is not dirty. -/
def Agrees (p a : BitVec 64) : Prop :=
  a.getLsbD 7 = p.getLsbD 7 ∧ a.getLsbD 10 = p.getLsbD 10 ∧
    (p.getLsbD 51 = true → p.getLsbD 7 = true → a.getLsbD 55 = false)

theorem contpteMatch_iff (hp : NoAddr p) (hn : n + k ≤ 2 ^ 38) : contpteMatch m k ptep (pfnPte n p) = true ↔
    ∀ i < k, pteMkold (pteMkclean (load64 m (ptep + 8 * i))) = pfnPte (n + i) p := by
  induction k generalizing n ptep with
  | zero => exact iff_of_true rfl fun i hi => absurd hi (Nat.not_lt_zero i)
  | succ k ih =>
    have haddr : ∀ i, ptep + 8 * (i + 1) = ptep + 8 + 8 * i := fun i => by omega
    have hframe : ∀ i, n + (i + 1) = n + 1 + i := fun i => by omega
    rw [contpteMatch, pteAdvancePfn_pfnPte (by omega) hp, Bool.and_eq_true, decide_eq_true_eq, ih (by omega)]
    constructor
    · rintro ⟨hfirst, hrest⟩ i hi
      cases i with
      | zero => exact hfirst
      | succ i =>
        rw [haddr, hframe]
        exact hrest i (by omega)
    · intro h
      refine ⟨h 0 (by omega), fun i hi => ?_⟩
      rw [← haddr, ← hframe]
      exact h (i + 1) (by omega)

theorem mkold_mkclean_pfnPte (hn : n < 2 ^ 38) (p : Entry) :
    pteMkold (pteMkclean (pfnPte n p)) = pfnPte n (pteMkold (pteMkclean p)) := by
  rw [pteMkclean, pteMkold, pteDirtyBit, pteAf, pfnPte_andNot (by decide) (by decide) hn, pfnPte_or,
    pfnPte_andNot (by decide) (by decide) hn]
  rfl

theorem NoAddr.mkold_mkclean (hp : NoAddr p) : NoAddr (pteMkold (pteMkclean p)) :=
  ((hp.and _).or (by unfold NoAddr; decide)).and _

theorem leafAttr_bit (hi : i < 64) (h : 2 ≤ i ∧ i < 12 ∨ 48 ≤ i) : (leafAttr e).getLsbD i = e.getLsbD i := by
  rw [leafAttr, BitVec.getLsbD_and, BitVec.getLsbD_not, BitVec.getLsbD_or, addrMask_bit i hi, PageTable.type_bit i hi]
  have h1 : (decide (12 ≤ i) && decide (i < 48)) = false := by
    simp only [Bool.and_eq_false_iff, decide_eq_false_iff_not]
    omega
  have h2 : decide (i < 2) = false := decide_eq_false (by omega)
  rw [h1, h2, decide_eq_true hi, Bool.or_false, Bool.not_false, Bool.and_true, Bool.and_true]

theorem sameBits_of_match (hmatch : pteMkold (pteMkclean e) = pfnPte n (pteMkold (pteMkclean p))) :
    SameBits [7, 10, 55] e (pfnPte n p) := by
  have h1 := sameBits_mkold_mkclean e
  have h2 := sameBits_mkold_mkclean p
  rw [hmatch] at h1
  exact h1.symm.trans (h2.pfnPte n)

theorem gatherable_of_match (hn : n < 2 ^ 38) (hmatch : pteMkold (pteMkclean e) = pfnPte n (pteMkold (pteMkclean p)))
    (ha : Agrees p (leafAttr e)) : Gatherable n p e := by
  have hsame := sameBits_of_match hmatch
  obtain ⟨h7, h10, h55⟩ := ha
  rw [leafAttr_bit (by decide) (by decide)] at h7 h10 h55
  refine ⟨fun i hi hex => ?_, h55⟩
  by_cases h : i = 7 ∨ i = 10
  · rcases h with rfl | rfl
    · rw [h7, pfnPte_bit hn (by decide)]
    · rw [h10, pfnPte_bit hn (by decide)]
  · refine hsame i hi ?_
    simp only [List.mem_cons, List.not_mem_nil, or_false] at hex ⊢
    omega

/-! ### `set_pte_at` -/

variable {t j : Nat}

theorem contpteAlignDown_slot (ht : t % 4096 = 0) (j : Nat) :
    contpteAlignDown (t + 8 * j) = t + 8 * (j / 16 * 16) := by
  unfold contpteAlignDown alignDown contPtes
  omega

def contEntries (m : Mem) (t j : Nat) : List Entry := pteEntries m (t + 8 * (j / 16 * 16)) 16

theorem mem_contEntries : e ∈ contEntries m t j ↔ ∃ i < 16, slot m t (j / 16 * 16 + i) = e := by
  simp only [contEntries, pteEntries, List.mem_map, List.mem_range, slot, Nat.mul_add, Nat.add_assoc]

/-- `contpte_convert` writes consecutive page frames with the protection, into which the bits of the group are gathered. -/
theorem contpteConvert_spec (ht : t % 4096 = 0) (hn : n < 2 ^ 38) (hp : NoAddr p) (j : Nat) (m : Mem) :
    (∀ i < 16, slot (contpteConvert (t + 8 * j) (pfnPte n p) m) t (j / 16 * 16 + i) =
      pfnPte (n / 16 * 16 + i) (gatherProt p (contEntries m t j))) ∧
    ∀ x, ¬ (t + 8 * (j / 16 * 16) ≤ x ∧ x < t + 8 * (j / 16 * 16) + 8 * 16) →
      contpteConvert (t + 8 * j) (pfnPte n p) m x = m x := by
  have hpte : pfnPte (alignDown (ptePfn (pfnPte n p)) contPtes) (ptePgprot (pfnPte n p)) = pfnPte (n / 16 * 16) p := by
    rw [ptePfn_pfnPte hn hp, ptePgprot_pfnPte hn hp]
    rfl
  obtain ⟨m', hgather, hframe⟩ := contpteGather_eq (show n / 16 * 16 < 2 ^ 38 by omega) 16 (t + 8 * (j / 16 * 16)) p m
  obtain ⟨hset, hset'⟩ := setPtesAnysz_spec (k := 16) (hp.gatherProt (contEntries m t j))
    (show n / 16 * 16 + 16 ≤ 2 ^ 38 by omega) (t + 8 * (j / 16 * 16)) m'
  have heq : contpteConvert (t + 8 * j) (pfnPte n p) m =
      setPtesAnysz 1 16 (t + 8 * (j / 16 * 16)) (pfnPte (n / 16 * 16) (gatherProt p (contEntries m t j))) m' := by
    unfold contpteConvert
    dsimp only
    rw [hpte, contpteAlignDown_slot ht, show contPtes = 16 from rfl, hgather]
    rfl
  rw [heq]
  refine ⟨fun i hi => ?_, fun x hx => (hset' x hx).trans (hframe x hx)⟩
  rw [← hset i hi, slot, Nat.mul_add, ← Nat.add_assoc]

theorem slot_contpteConvert_of_not (ht : t % 4096 = 0) (hn : n < 2 ^ 38) (hp : NoAddr p)
    (hi : ¬ (j / 16 * 16 ≤ i ∧ i < j / 16 * 16 + 16)) :
    slot (contpteConvert (t + 8 * j) (pfnPte n p) m) t i = slot m t i :=
  load64_congr fun x h1 h2 => (contpteConvert_spec ht hn hp j m).2 x (by omega)

def Foldable (m : Mem) (t j addr n : Nat) (p : Entry) : Prop :=
  addr / 4096 % 16 = 15 ∧ n % 16 = 15 ∧ p.getLsbD 0 = true ∧ p.getLsbD 56 = false ∧
    ∀ i < 16, pteMkold (pteMkclean (slot m t (j / 16 * 16 + i))) = pfnPte (n / 16 * 16 + i) (pteMkold (pteMkclean p))

theorem contpteTryFold_eq (ht : t % 4096 = 0) (hn : n < 2 ^ 38) (hp : NoAddr p) (hcont : p.getLsbD 52 = false)
    (addr j : Nat) (m : Mem) :
    (Foldable m t j addr n p →
      contpteTryFold addr (t + 8 * j) (pfnPte n p) m = contpteConvert (t + 8 * j) (pteMkcont (pfnPte n p)) m) ∧
    (¬ Foldable m t j addr n p → contpteTryFold addr (t + 8 * j) (pfnPte n p) m = m) := by
  have hvalid : isValid (pfnPte n p) = p.getLsbD 0 := pfnPte_bit hn (by decide)
  have hnc : pteCont (pfnPte n p) = false := (pfnPte_bit hn (by decide)).trans hcont
  have hsp : pteSpecial (pfnPte n p) = p.getLsbD 56 := pfnPte_bit hn (by decide)
  have hmatch : contpteMatch m 16 (t + 8 * (j / 16 * 16)) (pfnPte (n / 16 * 16) (pteMkold (pteMkclean p))) = true ↔
      ∀ i < 16, pteMkold (pteMkclean (slot m t (j / 16 * 16 + i))) = pfnPte (n / 16 * 16 + i) (pteMkold (pteMkclean p)) := by
    rw [contpteMatch_iff hp.mkold_mkclean (by omega)]
    simp only [slot, Nat.mul_add, Nat.add_assoc]
  rw [contpteTryFold, mkold_mkclean_pfnPte hn, ptePfn_pfnPte hn hp, contpteAlignDown_slot ht, ptePgprot_pfnPte hn hp.mkold_mkclean,
    hvalid, hnc, hsp]
  constructor
  · rintro ⟨h1, h2, h3, h4, h5⟩
    rw [if_pos ⟨h1, h2, h3, rfl, by rw [h4]; rfl⟩]
    exact if_pos (hmatch.2 h5)
  · intro h
    split
    · next hc =>
      refine if_neg fun h5 => h ⟨hc.1, hc.2.1, hc.2.2.1, ?_, hmatch.1 h5⟩
      simpa using hc.2.2.2.2
    · rfl

structure Refolded (t j : Nat) (m₁ m₂ : Mem) : Prop where
  frame : ∀ x, pageOf x ≠ t → m₂ x = m₁ x
  leaf : ∀ i < 512, ∀ x, (leafOf 0 (slot m₂ t i) x).map norm = (leafOf 0 (slot m₁ t i) x).map norm
  above : ∀ i < 512, j < i → slot m₂ t i = slot m₁ t i

theorem Refolded.refl (t j : Nat) (m : Mem) : Refolded t j m m :=
  ⟨fun _ _ => rfl, fun _ _ _ => rfl, fun _ _ _ => rfl⟩

theorem contpteConvert_refolded (ht : t % 4096 = 0) (hj : j < 512) (hj15 : j % 16 = 15) (hn : n < 2 ^ 38)
    (hp : NoAddr p) (h : ∀ i < 16, Gatherable (n / 16 * 16 + i) p (slot m t (j / 16 * 16 + i))) :
    Refolded t j m (contpteConvert (t + 8 * j) (pteMkcont (pfnPte n p)) m) := by
  have hcont : NoAddr (pteMkcont p) := hp.or (by unfold NoAddr; decide)
  have hsame : SameProt (pteMkcont p) p := ⟨hcont, sameBits_or (by decide) (by decide) p⟩
  have hgather : SameProt (gatherProt (pteMkcont p) (contEntries m t j)) p := by
    refine gatherProt_sameProt (fun e he => ?_) hsame
    obtain ⟨i, hi, rfl⟩ := mem_contEntries.1 he
    exact ⟨n / 16 * 16 + i, by omega, h i hi⟩
  rw [show pteMkcont (pfnPte n p) = pfnPte n (pteMkcont p) from pfnPte_or n p]
  obtain ⟨hset, hframe⟩ := contpteConvert_spec ht hn hcont j m
  have hslot : ∀ i, ¬ (j / 16 * 16 ≤ i ∧ i < j / 16 * 16 + 16) →
      slot (contpteConvert (t + 8 * j) (pfnPte n (pteMkcont p)) m) t i = slot m t i :=
    fun i hi => slot_contpteConvert_of_not ht hn hcont hi
  refine ⟨fun x hx => hframe x fun hx' => hx ?_, fun i hi x => ?_, fun i hi hji => hslot i (by omega)⟩
  · unfold pageOf
    omega
  · by_cases hgroup : j / 16 * 16 ≤ i ∧ i < j / 16 * 16 + 16
    · obtain ⟨d, rfl⟩ : ∃ d, i = j / 16 * 16 + d := ⟨i - j / 16 * 16, by omega⟩
      have hd : d < 16 := by omega
      have hold : SameBits [52, 55] (slot m t (j / 16 * 16 + d)) (pfnPte (n / 16 * 16 + d) p) :=
        (h d hd).same.mono (by decide)
      rw [hset d hd, leafOf_norm_congr (hgather.2.pfnPte _), leafOf_norm_congr hold]
    · rw [hslot i hgroup]

theorem noncont_bit (p : Entry) : (pteMknoncont p).getLsbD 52 = false := by
  rw [pteMknoncont, BitVec.getLsbD_and, BitVec.getLsbD_not, pteContBit, getLsbD_bit (by decide)]
  simp

theorem agrees_noncont {p a : BitVec 64} (h : Agrees p a) : Agrees (pteMknoncont p) a := by
  have hs : SameBits [52] (pteMknoncont p) p := sameBits_andNot (by decide) (by decide) p
  unfold Agrees at h ⊢
  rw [hs 7 (by decide) (by decide), hs 10 (by decide) (by decide), hs 51 (by decide) (by decide)]
  exact h

theorem PageProt.noncont {p : Entry} (hp : PageProt p) : PageProt (pteMknoncont p) where
  noAddr := hp.noAddr.and _
  type := by
    have h : ~~~pteContBit &&& 3#64 = 3#64 := by decide
    rw [pteMknoncont, BitVec.and_assoc, h, hp.type]

theorem PageProt.type_bit {p : Entry} (hp : PageProt p) (hi : i < 2) : p.getLsbD i = true := by
  have h := congrArg (fun w => BitVec.getLsbD w i) hp.type
  simp only [BitVec.getLsbD_and, PageTable.type_bit i (by omega), decide_eq_true hi, Bool.and_true] at h
  exact h

theorem Refolded.maps {a : Nat} {f : Nat → Option Leaf} {fresh : Nat → Prop} {m₁ m₂ : Mem} (ha : a % 4096 = 0)
    (h : Maps norm 0 t a (a + 4096) f fresh m m₁) (hr : Refolded t (index 0 a) m₁ m₂) :
    Maps norm 0 t a (a + 4096) f fresh m m₂ where
  tree := h.tree
  foot := h.foot
  frame := fun x hx hfx => (hr.frame x hx).trans (h.frame x hx hfx)
  walk := fun x hx => by
    rw [walk_zero, hr.leaf _ (index_lt 0 x), ← walk_zero]
    exact h.walk x hx
  path := fun x hx hout => by
    rw [← h.path x hx hout, path, path, hr.above _ (index_lt 0 x) ?_]
    have hle := hout.resolve_left fun h0 => h0.1 rfl
    -- both addresses are below the same table
    have h1 : span 1 = 4096 * 512 := rfl
    have h2 : spanStart 0 x = x / 4096 * 4096 := rfl
    rw [h1, ← Nat.div_div_eq_div_mul, ← Nat.div_div_eq_div_mul] at hx
    unfold index
    rw [span_zero]
    omega

end QuestOS
