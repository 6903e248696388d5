import QuestOS.Mmu.PteSpec
import QuestOS.Mmu.Vmap

/-!
# `vmap_pte_range`

A request is the range of a call of `vmap_phys_range_noflush` as the walk sees it, counted from the
first entry of the top-level table.  Neither end of the range has to be the boundary of a page, and the
walk does not always map the page of the last byte.
-/

namespace QuestOS

open Bytes PageTable

/-- The end of the pages that are mapped for the bytes from `va + off` to `fin`, where `va` is a page.
In the last table the pages are counted from the first byte there, so that one is missing if `off` is
not 0 and the range does not leave the first table; an empty range counts for one page. -/
def mapEnd (va off fin : Nat) : Nat :=
  if fin ≤ spanEnd 1 va then va + max 1 ((fin - (va + off) + 4095) / 4096) * 4096 else (fin + 4095) / 4096 * 4096

theorem mapEnd_pages {va fin : Nat} (hva : va % 4096 = 0) (hfin : fin % 4096 = 0) (hlt : va < fin) :
    mapEnd va 0 fin = fin := by
  unfold mapEnd
  split <;> omega

structure VmapRequest where
  phys : Nat
  va : Nat
  off : Nat
  fin : Nat
  prot : Entry
  phys_mod : phys % 4096 = 0
  va_mod : va % 4096 = 0
  off_lt : off < 4096
  start_le : va + off ≤ fin
  fin_pos : 0 < fin
  va_lt : va < 2 ^ 48
  fin_le : fin ≤ 2 ^ 48
  phys_le : phys + (mapEnd va off fin - va) ≤ 2 ^ 48
  page : PageProt prot
  clean : prot.getLsbD 51 = true → prot.getLsbD 7 = true → prot.getLsbD 55 = false

namespace VmapRequest

variable {r : VmapRequest} {t va fin x : Nat} {m m' : Mem} {fresh : Nat → Prop}

def vaEnd (r : VmapRequest) : Nat := mapEnd r.va r.off r.fin

theorem vaEnd_mod (r : VmapRequest) : r.vaEnd % 4096 = 0 := by
  have := r.va_mod
  unfold vaEnd mapEnd
  split <;> omega

theorem lt (r : VmapRequest) : r.va < r.vaEnd := by
  have := r.start_le
  have := lt_spanEnd 1 r.va
  unfold vaEnd mapEnd
  split <;> omega

theorem vaEnd_of_le (r : VmapRequest) (h : r.fin ≤ spanEnd 1 r.va) :
    r.fin ≤ r.vaEnd + r.off ∧ (r.vaEnd + r.off < r.fin + 4096 ∨ r.vaEnd = r.va + 4096) ∧ r.vaEnd ≤ spanEnd 1 r.va := by
  have h1 := r.start_le
  have h2 := r.va_mod
  have h3 := lt_spanEnd 1 r.va
  have h4 := spanEnd_mod_page 1 r.va
  unfold vaEnd mapEnd
  rw [if_pos h]
  omega

theorem vaEnd_of_gt (r : VmapRequest) (h : spanEnd 1 r.va < r.fin) : r.fin ≤ r.vaEnd ∧ r.vaEnd < r.fin + 4096 := by
  unfold vaEnd mapEnd
  rw [if_neg (by omega)]
  omega

theorem vaEnd_le (r : VmapRequest) : r.vaEnd ≤ 2 ^ 48 := by
  have h1 := r.fin_le
  have h2 := r.va_lt
  have h3 := r.va_mod
  have h4 := r.vaEnd_mod
  by_cases h : r.fin ≤ spanEnd 1 r.va
  · have := r.vaEnd_of_le h
    omega
  · have := r.vaEnd_of_gt (by omega)
    omega

def leaf (r : VmapRequest) (x : Nat) : Option Leaf := some (norm ⟨r.phys + (x - r.va), protAttr r.prot⟩)

def pfn (r : VmapRequest) (va : Nat) : Nat := (r.phys + (va - r.va)) / 4096

theorem pfn_mul (r : VmapRequest) (hV : r.va ≤ va) (hva : va % 4096 = 0) : r.pfn va * 4096 = r.phys + (va - r.va) := by
  have h1 := r.phys_mod
  have h2 := r.va_mod
  unfold pfn
  omega

theorem pfn_lt (r : VmapRequest) (hE : va < r.vaEnd) : r.pfn va < 2 ^ 36 := by
  have h1 : r.phys + (r.vaEnd - r.va) ≤ 2 ^ 48 := r.phys_le
  have h2 := r.lt
  unfold pfn
  omega

theorem pfn_add (r : VmapRequest) (hV : r.va ≤ va) (n : Nat) : r.pfn (va + n * 4096) = r.pfn va + n := by
  unfold pfn
  omega

/-- An entry for the page of `va`, with a protection that is the requested one up to two bits. -/
theorem leafOf_pfn {p : Entry} (hp : SameBits [52, 55] p r.prot) (hV : r.va ≤ va) (hE : va < r.vaEnd)
    (hva : va % 4096 = 0) (hx : x / span 0 = va / span 0) :
    r.leaf x = (leafOf 0 (pfnPte (r.pfn va) p) x).map norm := by
  have hsame : SameBits [52, 55] (pfnPte (r.pfn va) p) (pfnPte (r.pfn va) r.prot) := by
    intro i hi hex
    rw [pfnPte, pfnPte, BitVec.getLsbD_or, BitVec.getLsbD_or, hp i hi hex]
  have h1 := r.pfn_mul hV hva
  rw [leafOf_norm_congr hsame, leafOf_pfnPte r.page (r.pfn_lt hE), h1, leaf]
  rw [span_zero] at hx
  have h2 := Nat.div_add_mod x 4096
  have h3 := Nat.div_add_mod va 4096
  rw [Option.map_some, show r.phys + (x - r.va) = r.phys + (va - r.va) + x % 4096 by omega]

theorem index_add_page (hva : va % 4096 = 0) (h : index 0 va + 1 < 512) :
    index 0 (va + 4096) = index 0 va + 1 ∧ (va + 4096) / span 1 = va / span 1 := by
  have h1 : span 1 = 4096 * 512 := rfl
  have h2 : (va + 4096) / 4096 = va / 4096 + 1 := by omega
  unfold index at h ⊢
  rw [span_zero] at *
  rw [h1, ← Nat.div_div_eq_div_mul, ← Nat.div_div_eq_div_mul, h2]
  omega

theorem setPtesAnysz_maps (ht : t % 4096 = 0) (hV : r.va ≤ va) (hva : va % 4096 = 0) (k : Nat)
    (hk : index 0 va + k ≤ 512) (hE : va + k * 4096 ≤ r.vaEnd) :
    Maps norm 0 t va (va + k * 4096) r.leaf fresh m
      (setPtesAnysz 1 k (t + 8 * index 0 va) (pfnPte (r.pfn va) r.prot) m) := by
  induction k generalizing va m with
  | zero =>
    rw [Nat.zero_mul]
    exact Maps.refl (k := 0) ht va
  | succ k ih =>
    have hE' : va < r.vaEnd := by omega
    have hpage : Maps norm 0 t va (va + 4096) r.leaf fresh m
        (store64 m (t + 8 * index 0 va) (pfnPte (r.pfn va) r.prot)) :=
      Maps.page ht hva fun x hx => leafOf_pfn (fun _ _ _ => rfl) hV hE' hva hx
    rw [setPtesAnysz, pteAdvancePfn_pfnPte (frame_lt (r.pfn_lt hE')) r.page.noAddr]
    cases k with
    | zero => exact hpage
    | succ k =>
      obtain ⟨hidx, hreg⟩ := index_add_page hva (show index 0 va + 1 < 512 by omega)
      have hrest := ih (m := store64 m (t + 8 * index 0 va) (pfnPte (r.pfn va) r.prot))
        (show r.va ≤ va + 4096 by omega) (by omega) (by omega) (by omega)
      have hpfn : r.pfn (va + 4096) = r.pfn va + 1 := r.pfn_add hV 1
      rw [hidx, hpfn, Nat.mul_add 8, ← Nat.add_assoc] at hrest
      have hend : va + 4096 + (k + 1) * 4096 = va + (k + 1 + 1) * 4096 := by omega
      rw [hend] at hrest
      exact hpage.trans hrest (by omega) (by omega) hreg

/-! ### `set_pte_at` and `set_huge_pte_at` on an empty entry -/

def FoldSafe (r : VmapRequest) (m : Mem) (k t va : Nat) : Prop :=
  ∀ y, y / contPteSize = va / contPteSize → y < va → ∀ l, walk m k t y = some l →
    SameBits [7, 10, 52, 55] l.attr (protAttr r.prot) → Agrees r.prot l.attr

theorem agrees_prot (r : VmapRequest) : Agrees r.prot (protAttr (pteMknoncont r.prot)) := by
  have hs : SameBits [52] (pteMknoncont r.prot) r.prot := sameBits_andNot (by decide) (by decide) r.prot
  have hbit : ∀ i, i ≠ 52 → i < 64 → 2 ≤ i → (protAttr (pteMknoncont r.prot)).getLsbD i = r.prot.getLsbD i := by
    intro i hne hi h
    rw [protAttr, BitVec.getLsbD_and, BitVec.getLsbD_not, type_bit i hi, hs i hi (by simpa using hne),
      decide_eq_true hi, decide_eq_false (by omega)]
    exact Bool.and_true _
  refine ⟨hbit 7 (by decide) (by decide) (by decide), hbit 10 (by decide) (by decide) (by decide), fun h1 h2 => ?_⟩
  rw [hbit 55 (by decide) (by decide) (by decide)]
  exact r.clean h1 h2

/-- On an empty entry `set_pte_at` is a store, after which the group may be folded. -/
theorem setPteAt_eq {ptep : Nat} {p : Entry} {n : Nat} (hn : n < 2 ^ 38) (hempty : load64 m ptep = 0) :
    setPteAt va ptep (pfnPte n p) m =
      contpteTryFold va ptep (pfnPte n (pteMknoncont p)) (store64 m ptep (pfnPte n (pteMknoncont p))) := by
  have hp : pteMknoncont (pfnPte n p) = pfnPte n (pteMknoncont p) := pfnPte_andNot (by decide) (by decide) hn p
  unfold setPteAt
  simp only [hp, hempty, contpteTryUnfold]
  rfl

theorem setPteAt_of_mid {ptep : Nat} {p : Entry} {n : Nat} (hn : n < 2 ^ 38) (hempty : load64 m ptep = 0)
    (hmid : va / 4096 % 16 ≠ 15) :
    setPteAt va ptep (pfnPte n p) m = store64 m ptep (pfnPte n (pteMknoncont p)) := by
  rw [setPteAt_eq hn hempty, contpteTryFold]
  exact if_neg fun h => hmid h.1

theorem gatherable_group (hE : va < r.vaEnd) (hva : va % 4096 = 0)
    (hagree : r.FoldSafe m 0 t va) (hv15 : va / 4096 % 16 = 15) (hp15 : r.pfn va % 16 = 15)
    (hm : ∀ i < 16, pteMkold (pteMkclean
        (slot (store64 m (t + 8 * index 0 va) (pfnPte (r.pfn va) (pteMknoncont r.prot))) t (index 0 va / 16 * 16 + i))) =
      pfnPte (r.pfn va / 16 * 16 + i) (pteMkold (pteMkclean (pteMknoncont r.prot)))) :
    ∀ i < 16, Gatherable (r.pfn va / 16 * 16 + i) (pteMknoncont r.prot)
      (slot (store64 m (t + 8 * index 0 va) (pfnPte (r.pfn va) (pteMknoncont r.prot))) t (index 0 va / 16 * 16 + i)) := by
  have hn := r.pfn_lt hE
  have hp := r.page.noncont
  have hj : index 0 va % 16 = 15 := by
    unfold index
    rw [span_zero]
    omega
  intro i hi
  by_cases h15 : i = 15
  · -- the entry that was written
    have hidx : index 0 va / 16 * 16 + i = index 0 va := by omega
    have hpfn : r.pfn va / 16 * 16 + i = r.pfn va := by omega
    have ha := agrees_noncont r.agrees_prot
    rw [hidx, hpfn, slot_store64]
    refine ⟨fun _ _ _ => rfl, fun h1 h2 => ?_⟩
    rw [← leafAttr_bit (by decide) (by decide), leafAttr_pfnPte hp.noAddr hn]
    exact ha.2.2 h1 h2
  · have hne : index 0 va / 16 * 16 + i ≠ index 0 va := by omega
    have hmi := hm i hi
    rw [slot_store64_of_ne hne] at hmi ⊢
    refine gatherable_of_match (by omega) hmi (agrees_noncont ?_)
    -- the page of the entry
    have hy : index 0 (va - (15 - i) * 4096) = index 0 va / 16 * 16 + i := by
      unfold index at hj ⊢
      rw [span_zero] at *
      omega
    have htab : isTable (slot m t (index 0 va / 16 * 16 + i)) = true := by
      have hbit : ∀ b < 2, (slot m t (index 0 va / 16 * 16 + i)).getLsbD b = true := by
        intro b hb
        have hex : b ∉ [7, 10, 55] := by
          simp only [List.mem_cons, List.not_mem_nil, or_false]
          omega
        rw [← sameBits_mkold_mkclean _ b (by omega) hex, hmi, pfnPte, BitVec.getLsbD_or,
          sameBits_mkold_mkclean _ b (by omega) hex, hp.type_bit hb, Bool.or_true]
      rw [isTable, hbit 0 (by decide), hbit 1 (by decide)]
      rfl
    have hwalk : walk m 0 t (va - (15 - i) * 4096) = some
        ⟨outAddr (slot m t (index 0 va / 16 * 16 + i)) / span 0 * span 0 + (va - (15 - i) * 4096) % span 0,
          leafAttr (slot m t (index 0 va / 16 * 16 + i))⟩ := by
      rw [walk_zero, hy, leafOf, if_pos rfl, if_pos htab]
    have hgroup : (va - (15 - i) * 4096) / contPteSize = va / contPteSize := by
      unfold contPteSize contPtes
      omega
    have hlt : va - (15 - i) * 4096 < va := by omega
    have ha := hagree _ hgroup hlt _ hwalk
    have h1 := (sameBits_of_match hmi).and (~~~(addrMask ||| 3#64))
    have h2 : SameBits [52] (pteMknoncont r.prot) r.prot := sameBits_andNot (by decide) (by decide) _
    have hattr : pfnPte (r.pfn va / 16 * 16 + i) (pteMknoncont r.prot) &&& ~~~(addrMask ||| 3#64) =
        protAttr (pteMknoncont r.prot) := leafAttr_pfnPte hp.noAddr (by omega)
    rw [hattr] at h1
    exact ha ((h1.mono (by decide)).trans ((h2.and _).mono (by decide)))

theorem setPteAt_maps (ht : t % 4096 = 0) (hV : r.va ≤ va) (hE : va < r.vaEnd) (hva : va % 4096 = 0)
    (hempty : slot m t (index 0 va) = 0) (hagree : r.FoldSafe m 0 t va) :
    Maps norm 0 t va (va + 4096) r.leaf fresh m
      (setPteAt va (t + 8 * index 0 va) (pfnPte (r.pfn va) r.prot) m) := by
  have hn := r.pfn_lt hE
  have hp := r.page.noncont
  rw [setPteAt_eq (frame_lt hn) hempty]
  have hpage : Maps norm 0 t va (va + 4096) r.leaf fresh m
      (store64 m (t + 8 * index 0 va) (pfnPte (r.pfn va) (pteMknoncont r.prot))) :=
    Maps.page ht hva fun x hx => leafOf_pfn (sameBits_andNot (by decide) (by decide) _) hV hE hva hx
  refine Refolded.maps hva hpage ?_
  obtain ⟨hfold, hkeep⟩ := contpteTryFold_eq ht (frame_lt hn) hp.noAddr (noncont_bit r.prot) va (index 0 va)
    (store64 m (t + 8 * index 0 va) (pfnPte (r.pfn va) (pteMknoncont r.prot)))
  by_cases hcond : Foldable (store64 m (t + 8 * index 0 va) (pfnPte (r.pfn va) (pteMknoncont r.prot))) t (index 0 va) va
      (r.pfn va) (pteMknoncont r.prot)
  · rw [hfold hcond]
    obtain ⟨hv15, hp15, -, -, hmatch⟩ := hcond
    refine contpteConvert_refolded ht (index_lt 0 va) ?_ (frame_lt hn) hp.noAddr
      (gatherable_group hE hva hagree hv15 hp15 hmatch)
    unfold index
    rw [span_zero]
    omega
  · rw [hkeep hcond]
    exact Refolded.refl ..

/-- `ilog2` of the size is none of the sizes that `arch_make_huge_pte` knows, so that the contiguous bit
is not set. -/
theorem setHugePteAt_eq {ptep n : Nat} {p : Entry} (hp : PageProt p) (hn : n < 2 ^ 36) (hempty : load64 m ptep = 0) :
    setHugePteAt ptep (archMakeHugePte (pfnPte n p) (Nat.log2 contPteSize)) contPteSize m =
      setPtesAnysz 1 16 ptep (pfnPte n p) m := by
  have hsize : archMakeHugePte (pfnPte n p) (Nat.log2 contPteSize) = pfnPte n p := by
    have hlog : Nat.log2 contPteSize = 16 := by decide
    rw [hlog, archMakeHugePte, if_neg (by decide), if_neg (by decide), if_neg (by decide), if_neg (by decide)]
  have hnum : numContigPtes contPteSize = (16, 4096) := by decide
  have hvalid : ptePresent (pfnPte n p) = true := by
    rw [ptePresent, isValid, pfnPte, BitVec.getLsbD_or, pfn_bit (frame_lt hn) (by decide), hp.type_bit (by decide)]
    rfl
  rw [hsize, setHugePteAt, hnum]
  simp only [hvalid, hempty]
  rw [show isValid (0 : Entry) = false from rfl, Bool.and_false]
  rfl

theorem isValid_contpteScan (n ptep : Nat) {e : Entry} (he : isValid e = true) (m : Mem) :
    isValid (contpteScan m n ptep e) = true := by
  have hor : ∀ (b : Nat) (e : Entry), isValid e = true → isValid (e ||| 1#64 <<< b) = true := by
    intro b e he
    rw [isValid, BitVec.getLsbD_or, show e.getLsbD 0 = true from he, Bool.true_or]
  have hdirty : ∀ e, isValid e = true → isValid (pteMkdirty e) = true := by
    intro e he
    rw [pteMkdirty_eq]
    split
    · rw [isValid, BitVec.getLsbD_and, show (e ||| pteDirtyBit).getLsbD 0 = true from hor 55 e he]
      decide
    · exact hor 55 e he
  have hfor : ∀ (test : Entry → Bool) (mk : Entry → Entry), (∀ e, isValid e = true → isValid (mk e) = true) →
      ∀ n ptep e, isValid e = true → isValid (contpteScanFor test mk m n ptep e) = true := by
    intro test mk hmk n
    induction n with
    | zero => exact fun _ _ he => he
    | succ n ih =>
      intro ptep e he
      rw [contpteScanFor]
      split
      · exact hmk e he
      · exact ih _ e he
  induction n generalizing ptep with
  | zero => exact he
  | succ n ih =>
    rw [contpteScan]
    split
    · exact hfor _ _ (hor 10) _ _ _ (hdirty e he)
    · split
      · exact hfor _ _ hdirty _ _ _ (hor 10 e he)
      · exact ih _

theorem empty_of_pteNone {ptep : Nat} (h : pteNone (ptepGet ptep m) = true) : load64 m ptep = 0 := by
  rw [pteNone, decide_eq_true_eq, ptepGet] at h
  by_cases hc : pteValidCont (load64 m ptep) = true
  · simp only [hc, Bool.not_true, Bool.false_eq_true, if_false] at h
    have hv := isValid_contpteScan contPtes (contpteAlignDown ptep) (Bool.and_eq_true_iff.mp hc).1 m
    rw [h] at hv
    cases hv
  · simpa [hc] using h

/-! ### The loop -/

theorem mapSize_cases {addr fin : Nat} (hle : addr ≤ fin) (hfin : fin < 2 ^ 64) (n : Nat) :
    archVmapPteRangeMapSize addr fin n = 4096 ∨
      archVmapPteRangeMapSize addr fin n = contPteSize ∧ addr + contPteSize ≤ fin ∧ addr % contPteSize = 0 := by
  have hsub : sub64 fin addr = fin - addr := by
    unfold sub64
    omega
  unfold archVmapPteRangeMapSize
  rw [hsub]
  split
  · exact .inl rfl
  · split
    · exact .inl rfl
    · split
      · exact .inl rfl
      · rename_i h1 h2 _
        exact .inr ⟨rfl, by omega, by omega⟩

theorem fin_le_spanEnd_of_step {size : Nat} (hspan : fin ≤ spanEnd 1 va) (h : va + size < fin) :
    fin ≤ spanEnd 1 (va + size) := by
  have h1 := spanStart_le 1 va
  have h2 : (va + size) / span 1 = va / span 1 := spanStart_of_mem (by omega) (by omega)
  rw [spanEnd, spanStart_eq_iff.mpr h2]
  exact hspan

theorem FoldSafe.step (hE : va < r.vaEnd) (hva : va % 4096 = 0) (hagree : r.FoldSafe m 0 t va)
    (hempty : slot m t (index 0 va) = 0) :
    r.FoldSafe (setPteAt va (t + 8 * index 0 va) (pfnPte (r.pfn va) r.prot) m) 0 t (va + 4096) := by
  intro y hy hlt l hl
  have hmid : va / 4096 % 16 ≠ 15 := by
    unfold contPteSize contPtes at hy
    omega
  rw [setPteAt_of_mid (frame_lt (r.pfn_lt hE)) hempty hmid, walk_zero] at hl
  by_cases hpage : y / 4096 = va / 4096
  · have hidx : index 0 y = index 0 va := index_of_div_span (k := 0) hpage
    rw [hidx, slot_store64, leafOf_pfnPte r.page.noncont (r.pfn_lt hE)] at hl
    obtain rfl := Option.some.inj hl
    exact fun _ => r.agrees_prot
  · have hne : index 0 y ≠ index 0 va := by
      have hgroup : y / 4096 / 16 = va / 4096 / 16 := by
        unfold contPteSize contPtes at hy
        omega
      unfold index
      rw [span_zero]
      omega
    rw [slot_store64_of_ne hne] at hl
    exact hagree y (by unfold contPteSize contPtes at *; omega) (by omega) l hl

theorem setPteAt_off {d : Nat} (hva : va % 4096 = 0) (hd : d < 4096) (ptep : Nat) (pte : Entry) :
    setPteAt (va + d) ptep pte m = setPteAt va ptep pte m := by
  have hpage : (va + d) / 4096 = va / 4096 := by omega
  rw [setPteAt, setPteAt, contpteTryFold, contpteTryFold, hpage]

/-- The loop from the byte `va + d` to the byte `e` maps the pages from `va` to `fin`. -/
theorem vmapPteLoop_maps {d e : Nat} (ht : t % 4096 = 0) (hV : r.va ≤ va) (hva : va % 4096 = 0) (hlt : va < fin)
    (hfin : fin ≤ r.vaEnd) (hfm : fin % 4096 = 0) (hspan : fin ≤ spanEnd 1 va) (hagree : r.FoldSafe m 0 t va)
    (hd : d < 4096) (hde : va + d ≤ e) (he : e ≤ fin + d) (hlast : fin + d < e + 4096 ∨ fin = va + 4096)
    (fuel : Nat) (hrun : vmapPteLoop r.prot e fuel (t + 8 * index 0 va) (va + d) (r.pfn va) m = some m') :
    Maps norm 0 t va fin r.leaf fresh m m' := by
  induction fuel generalizing va m with
  | zero => cases hrun
  | succ fuel ih =>
    have hle := r.vaEnd_le
    have hstep : ∀ size m₁, 0 < size → size % 4096 = 0 → va + size ≤ fin →
        Maps norm 0 t va (va + size) r.leaf fresh m m₁ → r.FoldSafe m₁ 0 t (va + size) →
        (if va + d + size < e then vmapPteLoop r.prot e fuel (t + 8 * index 0 va + 8 * (size / 4096)) (va + d + size)
          (r.pfn va + size / 4096) m₁ else some m₁) = some m' →
        Maps norm 0 t va fin r.leaf fresh m m' := by
      intro size m₁ hpos hsm hsize hmaps hsafe hrest
      by_cases hmore : va + size < fin
      · have h1 := spanStart_le 1 va
        have hreg : (va + size) / span 1 = va / span 1 := spanStart_of_mem (by omega) (by omega)
        have hidx : index 0 (va + size) = index 0 va + size / 4096 := by
          have h2 : span 1 = 4096 * 512 := rfl
          rw [h2, ← Nat.div_div_eq_div_mul, ← Nat.div_div_eq_div_mul] at hreg
          unfold index
          rw [span_zero]
          omega
        have hpfn : r.pfn (va + size) = r.pfn va + size / 4096 := by
          unfold pfn
          omega
        rw [if_pos (by omega), Nat.add_assoc t, ← Nat.mul_add, ← hidx, ← hpfn, Nat.add_right_comm va d size] at hrest
        exact hmaps.trans (ih (by omega) (by omega) hmore (fin_le_spanEnd_of_step hspan hmore) hsafe (by omega)
          (by omega) hrest) (by omega) (by omega) hreg
      · rw [if_neg (by omega)] at hrest
        obtain rfl := Option.some.inj hrest
        rwa [show va + size = fin by omega] at hmaps
    rw [vmapPteLoop, setPteAt_off hva hd] at hrun
    split at hrun
    · cases hrun
    · rename_i hnone
      have hempty : slot m t (index 0 va) = 0 := empty_of_pteNone (by simpa using hnone)
      rcases mapSize_cases hde (by omega) (r.pfn va) with hs | ⟨hs, hend, hal⟩
      · have hadd : add64 (va + d) 4096 = va + d + 4096 := by
          unfold add64
          omega
        simp only [hs, hadd, ne_eq, not_true_eq_false, if_false] at hrun
        exact hstep 4096 _ (by decide) rfl (by omega) (setPteAt_maps ht hV (by omega) hva hempty hagree)
          (FoldSafe.step (by omega) hva hagree hempty) hrun
      · -- a group begins with the first byte of a page
        have hcs : contPteSize = 16 * 4096 := rfl
        rw [hcs] at hal
        obtain rfl : d = 0 := by omega
        have hadd : add64 (va + 0) contPteSize = va + 0 + contPteSize := by
          unfold add64
          omega
        have hne : contPteSize ≠ 4096 := by decide
        simp only [hs, hadd, ne_eq, hne, not_false_eq_true, if_true,
          setHugePteAt_eq r.page (r.pfn_lt (show va < r.vaEnd by omega)) hempty] at hrun
        have hidx : index 0 va + 16 ≤ 512 := by
          unfold index
          rw [span_zero]
          omega
        refine hstep contPteSize _ (by decide) rfl (by omega) ?_ (fun y hy hylt => ?_) hrun
        · exact setPtesAnysz_maps ht hV hva 16 hidx (by omega)
        · rw [hcs] at hy hylt
          omega

end VmapRequest

end QuestOS
