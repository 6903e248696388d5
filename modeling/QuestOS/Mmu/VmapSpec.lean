import QuestOS.Mmu.VmapTables

/-!
# What `vmap_phys_range_noflush` maps

The functions of the walk map the part of the range below their entry, from the page level up to the
loop over the top-level table.  That loop starts with entry 0, so that a range whose address has
another top-level index is mapped at the wrong place.
-/

namespace QuestOS

open Bytes PageTable

/-- `pte_cont_addr_end` and `pmd_cont_addr_end`; `addrEnd` is the same for the size of an entry. -/
def addrEndOf (size addr fin : Nat) : Nat :=
  let boundary := alignDown (add64 addr size) size
  if sub64 boundary 1 < sub64 fin 1 then boundary else fin

theorem addrEnd_eq_addrEndOf (k addr fin : Nat) : addrEnd k addr fin = addrEndOf (span k) addr fin := rfl

def pieceEnd (size x : Nat) : Nat := x / size * size + size

theorem lt_pieceEnd {size : Nat} (h : 0 < size) (x : Nat) : x < pieceEnd size x := by
  have h1 := Nat.div_add_mod' x size
  have h2 := Nat.mod_lt x h
  rw [pieceEnd]
  omega

theorem pieceEnd_mod (size x : Nat) : pieceEnd size x % size = 0 := by
  rw [pieceEnd, Nat.add_mod_right, Nat.mul_mod_left]

theorem addrEndOf_eq {j addr e : Nat} (hj : j ≤ 63) (hlt : addr < 2 ^ 64) (h0 : 0 < e) (he : e ≤ 2 ^ 64) :
    addrEndOf (2 ^ j) addr (e % 2 ^ 64) = min e (pieceEnd (2 ^ j) addr) % 2 ^ 64 := by
  have hpos := Nat.two_pow_pos j
  have hle : 2 ^ j ≤ 2 ^ 63 := Nat.pow_le_pow_right (by decide) hj
  obtain ⟨q, hq⟩ : 2 ^ j ∣ 2 ^ 64 := Nat.pow_dvd_pow 2 (by omega)
  have hdiv : (addr + 2 ^ j) / 2 ^ j * 2 ^ j = pieceEnd (2 ^ j) addr := by
    rw [Nat.add_div_right _ hpos, Nat.succ_mul]
    rfl
  have hend : pieceEnd (2 ^ j) addr ≤ 2 ^ 64 := by
    rw [hq, Nat.mul_comm, pieceEnd, ← Nat.succ_mul]
    refine Nat.mul_le_mul_right _ (Nat.div_lt_of_lt_mul ?_)
    omega
  have hlt' := lt_pieceEnd hpos addr
  have hboundary : alignDown (add64 addr (2 ^ j)) (2 ^ j) = pieceEnd (2 ^ j) addr % 2 ^ 64 := by
    unfold alignDown add64
    by_cases hwrap : addr + 2 ^ j < 2 ^ 64
    · have := Nat.div_mul_le_self (addr + 2 ^ j) (2 ^ j)
      rw [Nat.mod_eq_of_lt hwrap, hdiv, Nat.mod_eq_of_lt (by omega)]
    · -- the addition overflows, and leaves less than a piece
      have hlast : pieceEnd (2 ^ j) addr = 2 ^ 64 := by
        refine Nat.le_antisymm hend ?_
        rw [← hdiv, hq, Nat.mul_comm]
        refine Nat.mul_le_mul_right _ ((Nat.le_div_iff_mul_le hpos).mpr ?_)
        rw [Nat.mul_comm, ← hq]
        omega
      rw [hlast, Nat.mod_self, Nat.div_eq_of_lt (by omega), Nat.zero_mul]
  unfold addrEndOf sub64
  simp only [hboundary]
  split <;> omega

/-- `pgd_addr_end`, `pud_addr_end` and `pmd_addr_end`, with a boundary that may be 2^64. -/
theorem addrEnd_eq {k addr fin : Nat} (hk : k ≤ 5) (hle : addr ≤ fin) (hpos' : 0 < fin) (hfin : fin < 2 ^ 64) :
    addrEnd k addr fin = min fin (spanEnd k addr) := by
  have h := addrEndOf_eq (j := 12 + 9 * k) (by omega) (show addr < 2 ^ 64 by omega) hpos' (Nat.le_of_lt hfin)
  rw [Nat.mod_eq_of_lt hfin, Nat.mod_eq_of_lt (by omega)] at h
  rw [addrEnd_eq_addrEndOf]
  exact h

theorem sectEntry {n : Nat} {p : Entry} (hp : PageProt p) (hn : n < 2 ^ 36) :
    isTable (pfnPte n (mkSectProt p)) = false ∧ isValid (pfnPte n (mkSectProt p)) = true ∧
      outAddr (pfnPte n (mkSectProt p)) = n * 4096 ∧ leafAttr (pfnPte n (mkSectProt p)) = protAttr p := by
  have htype : mkSectProt p &&& 3#64 = 1#64 := by
    have h1 : (p &&& ~~~3#64) &&& 3#64 = 0#64 := by
      rw [BitVec.and_assoc, show ~~~3#64 &&& 3#64 = 0#64 by decide, BitVec.and_zero]
    rw [mkSectProt, BitVec.and_or_distrib_right, h1]
    decide
  have hattr : mkSectProt p &&& ~~~3#64 = protAttr p := by
    rw [mkSectProt, BitVec.and_or_distrib_right, BitVec.and_assoc, BitVec.and_self,
      show 1#64 &&& ~~~3#64 = 0#64 by decide, BitVec.or_zero]
    rfl
  have hno : NoAddr (mkSectProt p) := (hp.noAddr.and _).or (by unfold NoAddr; decide)
  have hf := hno.fields hn
  rw [pfnPte_eq_desc, hf.isTable, hf.isValid, hf.outAddr, hf.leafAttr, htype]
  exact ⟨rfl, rfl, rfl, hattr⟩

namespace VmapRequest

variable {r : VmapRequest} {k c va x : Nat} {s s₁ s' : VmState} {range : VmapRange} {try_ : TryHuge} {err : Int}

def partEnd (r : VmapRequest) (k x : Nat) : Nat := min r.vaEnd (spanEnd (k + 1) x)

theorem lt_partEnd (h : va < r.vaEnd) : va < r.partEnd k va := Nat.lt_min.mpr ⟨h, lt_spanEnd (k + 1) va⟩

theorem partEnd_le (r : VmapRequest) (k x : Nat) : r.partEnd k x ≤ r.vaEnd := Nat.min_le_left _ _

theorem partEnd_le_spanEnd (r : VmapRequest) (k x : Nat) : r.partEnd k x ≤ spanEnd (k + 1) x := Nat.min_le_right _ _

theorem partEnd_mod (r : VmapRequest) (k x : Nat) : r.partEnd k x % 4096 = 0 := by
  rw [partEnd, Nat.min_def]
  split
  · exact r.vaEnd_mod
  · exact spanEnd_mod_page (k + 1) x

def offset (r : VmapRequest) (va : Nat) : Nat := if va = r.va then r.off else 0

theorem offset_lt (r : VmapRequest) (va : Nat) : r.offset va < 4096 := by
  have := r.off_lt
  unfold offset
  split <;> omega

def finEnd (r : VmapRequest) (k x : Nat) : Nat := min r.fin (spanEnd (k + 1) x)

structure Starts (r : VmapRequest) (va : Nat) : Prop where
  ge : r.va ≤ va
  lt : va < r.vaEnd
  first : va = r.va ∨ va % span 1 = 0

namespace Starts

theorem page_mod (h : r.Starts va) : va % 4096 = 0 := by
  rcases h.first with rfl | h1
  · exact r.va_mod
  · exact mod_span_of_succ (k := 0) h1

theorem fin_cases (h : r.Starts va) :
    va = r.va ∨ r.offset va = 0 ∧ spanEnd 1 r.va ≤ va ∧ spanEnd 1 r.va < r.fin := by
  by_cases hva : va = r.va
  · exact .inl hva
  · have h1 := h.ge
    have h2 := spanEnd_le_of_lt (k := 1) (x := r.va) (h.first.resolve_left hva) (by
      have := spanStart_le 1 r.va
      omega)
    refine .inr ⟨if_neg hva, h2, ?_⟩
    by_contra hle
    have h3 := (r.vaEnd_of_le (by omega)).2.2
    have h4 := h.lt
    omega

theorem le_fin (h : r.Starts va) : va + r.offset va ≤ r.fin := by
  rcases h.fin_cases with rfl | ⟨h1, h2, h3⟩
  · rw [offset, if_pos rfl]
    exact r.start_le
  · have h4 := r.vaEnd_of_gt h3
    have h5 := h.lt
    have h6 := h.page_mod
    have h7 := r.vaEnd_mod
    omega

theorem fin_le_iff (h : r.Starts va) (k : Nat) : r.fin ≤ spanEnd (k + 1) va ↔ r.vaEnd ≤ spanEnd (k + 1) va := by
  have h1 := spanEnd_mod_page (k + 1) va
  have h2 := r.vaEnd_mod
  by_cases hfirst : r.fin ≤ spanEnd 1 r.va
  · have h3 := r.vaEnd_of_le hfirst
    have h4 : spanEnd 1 r.va ≤ spanEnd (k + 1) va :=
      Nat.le_trans (spanEnd_mono_left 1 h.ge) (spanEnd_le_add 1 k va)
    omega
  · have h3 := r.vaEnd_of_gt (by omega)
    omega

theorem finEnd_ge (h : r.Starts va) (k : Nat) : va + r.offset va ≤ r.finEnd k va := by
  have h1 := h.le_fin
  have h2 := lt_spanEnd (k + 1) va
  have h3 := spanEnd_mod_page (k + 1) va
  have h4 := h.page_mod
  have h5 := r.offset_lt va
  unfold finEnd
  omega

theorem cover (h : r.Starts va) : r.finEnd 0 va ≤ r.partEnd 0 va + r.offset va ∧
    (r.partEnd 0 va + r.offset va < r.finEnd 0 va + 4096 ∨ r.partEnd 0 va = va + 4096) := by
  have h1 := h.fin_le_iff 0
  have h2 := r.offset_lt va
  unfold finEnd partEnd
  rw [Nat.zero_add] at *
  by_cases hin : r.fin ≤ spanEnd 1 va
  · rw [Nat.min_eq_left hin, Nat.min_eq_left (h1.mp hin)]
    rcases h.fin_cases with rfl | ⟨h3, h4, h5⟩
    · have h3 := r.vaEnd_of_le hin
      rw [offset, if_pos rfl]
      exact ⟨h3.1, h3.2.1⟩
    · have h6 := r.vaEnd_of_gt h5
      omega
  · rw [Nat.min_eq_right (by omega), Nat.min_eq_right (by omega)]
    omega

end Starts

def RangeSpec (r : VmapRequest) (k : Nat) (range : VmapRange) : Prop :=
  ∀ (t va : Nat) (s s' : VmState) (err : Int), s.Ok → Tree s.mem (k + 1) t → TablesHeld s (k + 1) t →
    r.Starts va → (∀ x, va ≤ x → x < r.partEnd k va → r.Ready s.mem (k + 1) t x) → r.FoldSafe s.mem (k + 1) t va →
    range (t + 8 * index (k + 1) va) (va + r.offset va) (r.finEnd k va) (r.phys + (va - r.va) + r.offset va) s =
      some (s', err) →
    err = 0 ∧ r.Vmapped (k + 1) t va (r.partEnd k va) s s'

theorem pageProt_pmdTable : PageProt pmdTableProt := ⟨by unfold NoAddr; decide, by decide⟩

theorem pageProt_pudTable : PageProt pudTableProt := ⟨by unfold NoAddr; decide, by decide⟩

theorem div_span_offset (hva : va % 4096 = 0) {d : Nat} (hd : d < 4096) (k : Nat) :
    (va + d) / span k = va / span k := by
  obtain ⟨q, hq⟩ := span_dvd (Nat.zero_le k)
  rw [hq, ← Nat.div_div_eq_div_mul, ← Nat.div_div_eq_div_mul, span_zero, show (va + d) / 4096 = va / 4096 by omega]

theorem vmapPteRange_spec (r : VmapRequest) : r.RangeSpec 0 (vmapPteRange r.prot) := by
  intro t va s s' err hok ht hheld hst hready hfold hrun
  have hlt := lt_partEnd (k := 0) hst.lt
  have hfin := r.partEnd_le_spanEnd 0 va
  have hva := hst.page_mod
  have hoff := r.offset_lt va
  rw [vmapPteRange, index_of_div_span (div_span_offset hva hoff 0)] at hrun
  rcases tableAllocTrack_spec pageProt_pmdTable hok ht hheld hlt hfin hready hfold with h1 | ⟨s₁, c, h1, h⟩
  · rw [h1] at hrun
    cases hrun
  · have hpfn : (r.phys + (va - r.va) + r.offset va) / 4096 = r.pfn va := by
      have h2 := r.phys_mod
      have h3 := r.va_mod
      unfold pfn
      omega
    simp only [h1, hpfn, Option.map_eq_some_iff, Prod.mk.injEq] at hrun
    obtain ⟨m', hloop, rfl, rfl⟩ := hrun
    refine ⟨rfl, h.lift _ ⟨.setMem h.ok m', ?_, fun _ => trivial⟩⟩
    obtain ⟨hcover, hlast⟩ := hst.cover
    exact vmapPteLoop_maps h.tree hst.ge hva hlt (r.partEnd_le 0 va) (r.partEnd_mod 0 va) hfin h.fold hoff
      (hst.finEnd_ge 0) hcover hlast 512 hloop

def TrySpec (r : VmapRequest) (k : Nat) (try_ : TryHuge) : Prop :=
  ∀ (c va : Nat) (s s' : VmState) (huge : Bool), s.Ok → Tree s.mem (k + 1) c → TablesHeld s (k + 1) c →
    r.Starts va → r.Ready s.mem (k + 1) c va →
    try_ (c + 8 * index (k + 1) va) (va + r.offset va) (r.finEnd k va) (r.phys + (va - r.va) + r.offset va) s =
      some (s', huge) →
    huge = false ∧ s' = s ∨ huge = true ∧ r.Vmapped (k + 1) c va (r.partEnd k va) s s'

theorem leafOf_sect (hk : k + 1 ≤ 2) (hV : r.va ≤ va) (hE : va < r.vaEnd) (hva : va % span (k + 1) = 0)
    (hva' : va % 4096 = 0) (hphys : (r.phys + (va - r.va)) % span (k + 1) = 0)
    (hx : x / span (k + 1) = va / span (k + 1)) :
    r.leaf x = (leafOf (k + 1) (pfnPte (r.pfn va) (mkSectProt r.prot)) x).map norm := by
  obtain ⟨htab, hval, hout, hattr⟩ := sectEntry r.page (r.pfn_lt hE)
  rw [leafOf, if_neg (Nat.succ_ne_zero k), htab, hval, decide_eq_true hk, hout, hattr, r.pfn_mul hV hva']
  have hdiv : (r.phys + (va - r.va)) / span (k + 1) * span (k + 1) = r.phys + (va - r.va) := spanStart_of_mod hphys
  have h1 := (mem_span_iff hva).mpr hx
  have h2 := Nat.div_add_mod x (span (k + 1))
  have h3 := Nat.div_add_mod va (span (k + 1))
  rw [hx] at h2
  rw [hdiv, leaf, show r.phys + (x - r.va) = r.phys + (va - r.va) + x % span (k + 1) by omega]
  rfl

theorem Starts.whole (hst : r.Starts va) (hsize : r.finEnd k va - (va + r.offset va) = span (k + 1))
    (hal : (va + r.offset va) % span (k + 1) = 0) :
    r.offset va = 0 ∧ va % span (k + 1) = 0 ∧ r.partEnd k va = va + span (k + 1) := by
  have hva := hst.page_mod
  have hoff := r.offset_lt va
  have hzero : r.offset va = 0 := by
    have h1 : (va + r.offset va) % 4096 = 0 := mod_span_of_le (Nat.zero_le _) hal
    omega
  rw [hzero, Nat.add_zero] at hal hsize
  have hend : spanEnd (k + 1) va = va + span (k + 1) := by rw [spanEnd, spanStart_of_mod hal]
  refine ⟨hzero, hal, ?_⟩
  have hfin : r.fin ≤ r.vaEnd := by
    by_cases hin : r.fin ≤ spanEnd 1 r.va
    · rcases hst.fin_cases with rfl | ⟨-, -, h1⟩
      · have h1 := r.vaEnd_of_le hin
        rw [offset, if_pos rfl] at hzero
        omega
      · omega
    · exact (r.vaEnd_of_gt (by omega)).1
  have hpos := span_pos (k + 1)
  unfold finEnd at hsize
  unfold partEnd
  omega

theorem vmapTryHuge_spec (hk : k + 1 ≤ 2) (freePage : FreePage) :
    r.TrySpec k (vmapTryHuge (k + 1) freePage r.prot) := by
  intro c va s s' huge hok ht hheld hst hready hrun
  have hge := hst.finEnd_ge k
  have hsub : sub64 (r.finEnd k va) (va + r.offset va) = r.finEnd k va - (va + r.offset va) := by
    have h1 := r.fin_le
    have h2 : r.finEnd k va ≤ r.fin := Nat.min_le_left _ _
    unfold sub64
    omega
  rw [vmapTryHuge, hsub] at hrun
  by_cases hno : r.finEnd k va - (va + r.offset va) ≠ span (k + 1) ∨ (va + r.offset va) % span (k + 1) ≠ 0 ∨
      (r.phys + (va - r.va) + r.offset va) % span (k + 1) ≠ 0
  · rw [if_pos hno] at hrun
    simp only [Option.some.injEq, Prod.mk.injEq] at hrun
    exact .inl ⟨hrun.2.symm, hrun.1.symm⟩
  · right
    rw [if_neg hno] at hrun
    obtain ⟨hsize, hal, hphys⟩ : r.finEnd k va - (va + r.offset va) = span (k + 1) ∧
        (va + r.offset va) % span (k + 1) = 0 ∧ (r.phys + (va - r.va) + r.offset va) % span (k + 1) = 0 := by
      simpa only [not_or, ne_eq, not_not] using hno
    obtain ⟨hzero, hal, hpart⟩ := hst.whole hsize hal
    rw [hzero, Nat.add_zero] at hphys hrun
    have hend : spanEnd (k + 1) va = va + span (k + 1) := by rw [spanEnd, spanStart_of_mod hal]
    have hV := hst.ge
    -- a block is used, so that the entry is empty
    have huses : r.UsesBlock (k + 1) va := by
      have hle := r.partEnd_le k va
      refine ⟨by omega, by rw [spanStart_of_mod hal]; exact hV, by omega, ?_⟩
      exact mod_eq_of_add_eq (show r.phys + (va - r.va) + r.va = r.phys + va by omega) hphys hal
    have hempty : load64 s.mem (c + 8 * index (k + 1) va) = 0 := by
      rcases hready with h | h
      · exact h
      · exact absurd huses h.1
    rw [hempty, show ptePresent 0 = false from rfl] at hrun
    have hsafe : ∀ new, pgattrChangeIsSafe 0 new = true := fun new => by
      rw [pgattrChangeIsSafe, show isValid (0 : Entry) = false from rfl]
      rfl
    simp only [Bool.false_eq_true, if_false, Option.map_some, setHuge, hempty, hsafe, Bool.not_true,
      Option.some.injEq, Prod.mk.injEq] at hrun
    obtain ⟨rfl, rfl⟩ := hrun
    obtain ⟨htab, hval, -, -⟩ := sectEntry r.page (r.pfn_lt hst.lt)
    have hmaps : ∀ s', Maps norm (k + 1) c va (va + span (k + 1)) r.leaf (s.Taken s') s.mem
        (store64 s.mem (c + 8 * index (k + 1) va) (pfnPte (r.pfn va) (mkSectProt r.prot))) := fun s' =>
      Maps.block ht hal htab (fun x hx => leafOf_sect hk hV hst.lt hal hst.page_mod hphys hx)
        fun x hx hf => hheld x hf hx.1
    rw [hpart]
    refine ⟨rfl, .setMem hok _, hmaps _, fun htidy => (hmaps s).tidy (by omega) htidy ?_⟩
    rw [slot_store64]
    exact .inr (.inl ⟨htab, hval, hk⟩)

theorem addrEnd_finEnd (hk : k + 1 ≤ 3) (hst : r.Starts va) :
    addrEnd (k + 1) (va + r.offset va) (r.finEnd (k + 1) va) = r.finEnd k va := by
  have h1 := r.fin_le
  have h2 := hst.finEnd_ge (k + 1)
  have h3 := r.fin_pos
  have h4 := lt_spanEnd (k + 1 + 1) va
  have hsucc := spanEnd_le_succ (k + 1) va
  have hsame : spanEnd (k + 1) (va + r.offset va) = spanEnd (k + 1) va := spanEnd_congr (div_span_offset hst.page_mod (r.offset_lt va) _)
  rw [addrEnd_eq (by omega) h2 (by unfold finEnd; omega) (by unfold finEnd; omega), hsame]
  unfold finEnd
  omega

theorem Vmapped.rest (h : r.Vmapped (k + 1) c va (spanEnd (k + 1) va) s s₁)
    (hready : ∀ x, va ≤ x → x < r.partEnd (k + 1) va → r.Ready s.mem (k + 1) c x) :
    (∀ x, spanEnd (k + 1) va ≤ x → x < r.partEnd (k + 1) va → r.Ready s₁.mem (k + 1) c x) ∧
      r.FoldSafe s₁.mem (k + 1) c (spanEnd (k + 1) va) := by
  have hlt := lt_spanEnd (k + 1) va
  have hle := r.partEnd_le_spanEnd (k + 1) va
  constructor
  · intro x h1 h2
    have hreg : x / span (k + 1 + 1) = va / span (k + 1 + 1) := div_span_of_mem (by omega) (by omega)
    have hstart : spanEnd (k + 1) va ≤ spanStart (k + 1) x := by
      by_contra hlt'
      have h3 := spanEnd_le_of_lt (k := k + 1) (x := x) (spanEnd_mod (k + 1) va) (by omega)
      have h4 := lt_spanEnd (k + 1) x
      omega
    rw [ready_of_path (h.maps.path x hreg (.inr hstart))]
    exact hready x (by omega) h2
  · -- the next entry begins a group
    intro y hy hlt'
    have hdiv := spanStart_of_group (k := k + 1) (Nat.succ_pos k) hy
    have hs := spanStart_le (k + 1) y
    rw [spanStart_eq_iff.mpr hdiv, spanStart_of_mod (spanEnd_mod (k + 1) va)] at hs
    omega

theorem Starts.next (hst : r.Starts va) (hlt : spanEnd (k + 1) va < r.fin) :
    r.Starts (spanEnd (k + 1) va) ∧ r.offset (spanEnd (k + 1) va) = 0 := by
  have h1 := lt_spanEnd (k + 1) va
  have h2 := hst.ge
  have h3 := hst.fin_le_iff k
  exact ⟨⟨by omega, by omega, .inr (mod_span_of_le (by omega) (spanEnd_mod (k + 1) va))⟩, if_neg (by omega)⟩

theorem vmapTableLoop_spec (hk : k + 1 ≤ 3) (hrange : r.RangeSpec k range) (htry : r.TrySpec k try_) (fuel : Nat)
    (hok : s.Ok) (ht : Tree s.mem (k + 1) c) (hheld : TablesHeld s (k + 1) c) (hst : r.Starts va)
    (hready : ∀ x, va ≤ x → x < r.partEnd (k + 1) va → r.Ready s.mem (k + 1) c x)
    (hfold : r.FoldSafe s.mem (k + 1) c va)
    (hrun : vmapTableLoop (k + 1) try_ range (r.finEnd (k + 1) va) fuel (c + 8 * index (k + 1) va) (va + r.offset va)
      (r.phys + (va - r.va) + r.offset va) s = some (s', err)) :
    err = 0 ∧ r.Vmapped (k + 1) c va (r.partEnd (k + 1) va) s s' := by
  induction fuel generalizing va s with
  | zero => cases hrun
  | succ fuel ih =>
    have hsucc := spanEnd_le_succ (k + 1) va
    have hle : r.partEnd k va ≤ r.partEnd (k + 1) va := by
      unfold partEnd
      omega
    have hlt := lt_partEnd (k := k) hst.lt
    rw [vmapTableLoop, addrEnd_finEnd hk hst] at hrun
    -- the entry of `va`, by a block or by a table
    have hentry : ∃ s₁, r.Vmapped (k + 1) c va (r.partEnd k va) s s₁ ∧
        (if r.finEnd k va ≠ r.finEnd (k + 1) va then
          vmapTableLoop (k + 1) try_ range (r.finEnd (k + 1) va) fuel (c + 8 * index (k + 1) va + 8) (r.finEnd k va)
            (add64 (r.phys + (va - r.va) + r.offset va) (sub64 (r.finEnd k va) (va + r.offset va))) s₁
        else some (s₁, 0)) = some (s', err) := by
      split at hrun
      · cases hrun
      · rename_i s₂ huge hhuge
        rcases htry c va s s₂ huge hok ht hheld hst (hready va (Nat.le_refl _) (by omega)) hhuge with
          ⟨rfl, rfl⟩ | ⟨rfl, hm⟩
        · rw [if_neg Bool.false_ne_true] at hrun
          split at hrun
          · cases hrun
          · rename_i s₁ err₁ hr
            obtain ⟨rfl, hm⟩ := hrange c va s₂ s₁ err₁ hok ht hheld hst (fun x h1 h2 => hready x h1 (by omega)) hfold hr
            exact ⟨s₁, hm, hrun⟩
        · rw [if_pos rfl] at hrun
          exact ⟨s₂, hm, hrun⟩
    obtain ⟨s₁, hm, hrest⟩ := hentry
    by_cases hmore : spanEnd (k + 1) va < r.finEnd (k + 1) va
    · have hfin : spanEnd (k + 1) va < r.fin := Nat.lt_of_lt_of_le hmore (Nat.min_le_left _ _)
      have hnext : r.finEnd k va = spanEnd (k + 1) va := Nat.min_eq_right (Nat.le_of_lt hfin)
      have hpart : r.partEnd k va = spanEnd (k + 1) va := by
        have := hst.fin_le_iff k
        exact Nat.min_eq_right (by omega)
      obtain ⟨hidx, hreg⟩ := index_spanEnd hmore (Nat.min_le_right _ _)
      obtain ⟨hst', hoff'⟩ := hst.next hfin
      have hend : r.finEnd (k + 1) (spanEnd (k + 1) va) = r.finEnd (k + 1) va := by
        rw [finEnd, finEnd, spanEnd_congr hreg]
      have hend' : r.partEnd (k + 1) (spanEnd (k + 1) va) = r.partEnd (k + 1) va := by
        rw [partEnd, partEnd, spanEnd_congr hreg]
      have hadd : add64 (r.phys + (va - r.va) + r.offset va) (sub64 (spanEnd (k + 1) va) (va + r.offset va)) =
          r.phys + (spanEnd (k + 1) va - r.va) := by
        have h1 := hst.finEnd_ge k
        have h2 := r.vaEnd_le
        have h3 : r.phys + (r.vaEnd - r.va) ≤ 2 ^ 48 := r.phys_le
        have h4 := hst'.lt
        have h5 := hst.ge
        unfold add64 sub64
        omega
      rw [hpart] at hm
      obtain ⟨hready', hfold'⟩ := hm.rest hready
      rw [if_pos (by omega), hnext, hadd, Nat.add_assoc c, ← Nat.mul_succ, Nat.succ_eq_add_one, ← hidx, ← hend] at hrest
      have hih := ih hm.grows.ok hm.maps.tree (hm.tablesHeld hheld) hst' (by rw [hend']; exact hready') hfold'
        (by rw [hoff', Nat.add_zero, Nat.add_zero]; exact hrest)
      rw [hend'] at hih
      have h1 := lt_spanEnd (k + 1) va
      have h2 := lt_partEnd (k := k + 1) hst'.lt
      rw [hend'] at h2
      exact ⟨hih.1, hm.trans hih.2 (by omega) (by omega) hreg⟩
    · have hsame : r.finEnd k va = r.finEnd (k + 1) va := by
        unfold finEnd at *
        omega
      have hsame' : r.partEnd k va = r.partEnd (k + 1) va := by
        have h1 := hst.fin_le_iff k
        have h2 := hst.fin_le_iff (k + 1)
        unfold finEnd partEnd at *
        omega
      rw [if_neg (not_not.mpr hsame)] at hrest
      simp only [Option.some.injEq, Prod.mk.injEq] at hrest
      obtain ⟨rfl, rfl⟩ := hrest
      rw [hsame'] at hm
      exact ⟨rfl, hm⟩

theorem vmapTableRange_spec (hk : k + 1 ≤ 2) (freePage : FreePage) (hrange : r.RangeSpec k range) :
    r.RangeSpec (k + 1) (vmapTableRange (k + 1) pudTableProt freePage r.prot range) := by
  intro t va s s' err hok ht hheld hst hready hfold hrun
  have hlt := lt_partEnd (k := k + 1) hst.lt
  have hfin := r.partEnd_le_spanEnd (k + 1) va
  rw [vmapTableRange, index_of_div_span (div_span_offset hst.page_mod (r.offset_lt va) (k + 1))] at hrun
  rcases tableAllocTrack_spec pageProt_pudTable hok ht hheld hlt hfin hready hfold with h1 | ⟨s₁, c, h1, h⟩
  · rw [h1] at hrun
    cases hrun
  · simp only [h1] at hrun
    obtain ⟨herr, hm⟩ := vmapTableLoop_spec (by omega) hrange (vmapTryHuge_spec hk freePage) 512 h.ok h.tree h.held
      hst h.ready h.fold hrun
    exact ⟨herr, h.lift _ hm⟩

theorem vmapPudPhysRange_spec (r : VmapRequest) : r.RangeSpec 2 (vmapPudPhysRange r.prot) :=
  vmapTableRange_spec (by omega) _ (vmapTableRange_spec (by omega) _ r.vmapPteRange_spec)

theorem vmapPhysRangeNoflush_spec {root : Nat} (hidx : index 3 r.va = 0) (hok : s.Ok) (ht : Tree s.mem 3 root)
    (hheld : TablesHeld s 3 root) (hready : ∀ x, r.va ≤ x → x < r.vaEnd → r.Ready s.mem 3 root x)
    (hfold : r.FoldSafe s.mem 3 root r.va)
    (hrun : vmapPhysRangeNoflush root (r.phys + r.off) (r.va + r.off) (r.fin - (r.va + r.off)) r.prot s = some (s', err)) :
    err = 0 ∧ r.Vmapped 3 root r.va r.vaEnd s s' := by
  have hst : r.Starts r.va := ⟨Nat.le_refl _, r.lt, .inl rfl⟩
  have hoff : r.offset r.va = r.off := if_pos rfl
  have hwin : 2 ^ 48 ≤ spanEnd (3 + 1) r.va := by
    have : spanEnd (3 + 1) r.va = spanStart 4 r.va + 2 ^ 48 := rfl
    omega
  have hpart : r.partEnd 3 r.va = r.vaEnd := Nat.min_eq_left (Nat.le_trans r.vaEnd_le hwin)
  have hfin : r.finEnd 3 r.va = r.fin := Nat.min_eq_left (Nat.le_trans r.fin_le hwin)
  have hadd : add64 (r.va + r.off) (r.fin - (r.va + r.off)) = r.fin := by
    have h1 := r.start_le
    have h2 := r.fin_le
    unfold add64
    omega
  -- there is no block at the top level
  have htry : r.TrySpec 2 fun _ _ _ _ s => some (s, false) := by
    intro c va s s' huge _ _ _ _ _ h
    simp only [Option.some.injEq, Prod.mk.injEq] at h
    exact .inl ⟨h.2.symm, h.1.symm⟩
  have h := vmapTableLoop_spec (k := 2) (by decide) r.vmapPudPhysRange_spec htry 512 hok ht hheld hst
    (by rw [hpart]; exact hready) hfold (by
      rw [hoff, hidx, hfin, Nat.sub_self]
      rw [vmapPhysRangeNoflush, hadd] at hrun
      exact hrun)
  rwa [hpart] at h

end VmapRequest

end QuestOS
