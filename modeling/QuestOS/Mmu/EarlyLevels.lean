import QuestOS.Mmu.EarlyRequest

/-!
# The functions of the early page-table builder

One contract, `LevelSpec`, for the function of every level: it maps the part of the request below its
table and takes pages of the pool only for tables on the way to that part.
-/

namespace QuestOS

open Bytes PageTable

namespace EarlyRequest

variable {r : EarlyRequest} {k t x va i : Nat} {s s' : EarlyState} {next : MapRange}

def Unblocked (r : EarlyRequest) (m : Mem) : (k t x : Nat) → Prop
  | 0, _, _ => True
  | k + 1, t, x => r.MapsBlock (k + 1) x ∨
      (isValid (slot m t (index (k + 1) x)) = true → isTable (slot m t (index (k + 1) x)) = true ∧
        r.Unblocked m k (outAddr (slot m t (index (k + 1) x))) x)

def Pool (m : Mem) (k t p q : Nat) : Prop :=
  q ≤ 2 ^ 48 ∧ ∀ x, p ≤ x → x < q → m x = 0 ∧ ¬ Foot m k t (pageOf x)

/-- Below a table of level `k` the addresses `[a, b)` are mapped as requested, and every page that was
taken for a table is one on the way to an address of `[a, e)`. -/
structure Mapped (r : EarlyRequest) (k t a b e : Nat) (s s' : EarlyState) : Prop where
  le : s.pnext ≤ s'.pnext
  mod : s'.pnext % 4096 = 0
  maps : Maps id k t a b r.leaf (fun x => s.pnext ≤ x ∧ x < s'.pnext) s.mem s'.mem
  linked : ∀ p, p % 4096 = 0 → s.pnext ≤ p → p < s'.pnext →
    ∃ x, a ≤ x ∧ x < e ∧ p ∈ (path s'.mem k t x).map Prod.fst

structure Begins (r : EarlyRequest) (k va : Nat) : Prop where
  ge : r.va ≤ va
  lt : va < r.vaEnd
  first : va = r.va ∨ va % span k = 0

def callPart (r : EarlyRequest) (k : Nat) (next : MapRange) (t va : Nat) (s : EarlyState) : EarlyState :=
  next t (r.start + (va - r.va)) (r.start + (r.partEnd k va - r.va)) va s

def LevelSpec (r : EarlyRequest) (k : Nat) (next : MapRange) : Prop :=
  ∀ (t va : Nat) (s : EarlyState), Tree s.mem k t → r.Begins (k + 1) va → s.pnext % 4096 = 0 →
    (∀ x, va ≤ x → x < r.partEnd k va → r.Unblocked s.mem k t x) →
    Pool s.mem k t s.pnext (r.callPart k next t va s).pnext →
    r.Mapped k t va (r.stop k va) (r.partEnd k va) s (r.callPart k next t va s)

def Grows (next : MapRange) : Prop := ∀ t start fin va s, s.pnext ≤ (next t start fin va s).pnext

theorem Begins.page (h : r.Begins k va) : va % 4096 = 0 := by
  rcases h.first with hfirst | hmod
  · rw [hfirst]
    exact r.va_mod
  · exact mod_span_of_le (j := 0) (Nat.zero_le _) hmod

theorem unblocked_of_path {m m' : Mem} {t' : Nat} (h : path m' k t' x = path m k t x) :
    r.Unblocked m' k t' x ↔ r.Unblocked m k t x := by
  induction k generalizing t t' with
  | zero => exact Iff.rfl
  | succ k ih =>
    simp only [path, List.cons.injEq, Prod.mk.injEq] at h
    obtain ⟨⟨-, he⟩, hrest⟩ := h
    rw [Unblocked, Unblocked, he]
    refine or_congr_right (imp_congr_right fun _ => and_congr_right fun htab => ?_)
    rw [he, if_pos htab, if_pos htab] at hrest
    exact ih hrest

/-! ### Composing -/

variable {a b c e p q : Nat} {m : Mem}

theorem Mapped.of_maps (h : Maps id k t a b r.leaf (fun x => s.pnext ≤ x ∧ x < s.pnext) s.mem m)
    (hmod : s.pnext % 4096 = 0) : r.Mapped k t a b e s { s with mem := m } where
  le := Nat.le_refl _
  mod := hmod
  maps := h
  linked := fun _ _ h1 h2 => absurd h1 (Nat.not_le.mpr h2)

theorem Mapped.trans {s₁ : EarlyState} (h : r.Mapped k t a b b s s₁) (h' : r.Mapped k t b c e s₁ s')
    (hk : k ≠ 0) (hab : a ≤ b) (hbc : b ≤ c) (hbe : b ≤ e) (hb : b % span k = 0)
    (hreg : b / span (k + 1) = a / span (k + 1)) : r.Mapped k t a c e s s' where
  le := Nat.le_trans h.le h'.le
  mod := h'.mod
  maps := by
    have h1 : Maps id k t a b r.leaf (fun x => s.pnext ≤ x ∧ x < s'.pnext) s.mem s₁.mem :=
      h.maps.mono fun x hx => ⟨hx.1, Nat.lt_of_lt_of_le hx.2 h'.le⟩
    have h2 : Maps id k t b c r.leaf (fun x => s.pnext ≤ x ∧ x < s'.pnext) s₁.mem s'.mem :=
      h'.maps.mono fun x hx => ⟨Nat.le_trans h.le hx.1, hx.2⟩
    exact h1.trans h2 hab hbc hreg
  linked := by
    intro p hp h1 h2
    rcases Nat.lt_or_ge p s₁.pnext with h3 | h3
    · obtain ⟨x, hx1, hx2, hx3⟩ := h.linked p hp h1 h3
      -- the second range is above the entries of the first one
      have hxreg : x / span (k + 1) = b / span (k + 1) := by
        have h4 := Nat.div_le_div_right (c := span (k + 1)) hx1
        have h5 := Nat.div_le_div_right (c := span (k + 1)) (Nat.le_of_lt hx2)
        omega
      have hlt : x / span k < b / span k := by
        rw [Nat.div_lt_iff_lt_mul (span_pos k), Nat.div_mul_cancel (Nat.dvd_of_mod_eq_zero hb)]
        exact hx2
      refine ⟨x, hx1, by omega, ?_⟩
      rw [h'.maps.path x hxreg (.inl ⟨hk, hlt⟩)]
      exact hx3
    · obtain ⟨x, hx1, hx2, hx3⟩ := h'.linked p hp h3 h2
      exact ⟨x, by omega, hx2, hx3⟩

theorem Mapped.pool {s₁ : EarlyState} (h : r.Mapped k t a b e s s₁) (hp : Pool s.mem k t s.pnext q) :
    Pool s₁.mem k t s₁.pnext q := by
  refine ⟨hp.1, fun x hx1 hx2 => ?_⟩
  obtain ⟨h1, h2⟩ := hp.2 x (Nat.le_trans h.le hx1) hx2
  refine ⟨?_, fun h3 => ?_⟩
  · rw [h.maps.frame x h2 fun h4 => by omega]
    exact h1
  · rcases h.maps.foot _ h3 with h4 | h4
    · exact h2 h4
    · have := (h4 x rfl).2
      omega

theorem Pool.mono (h : Pool m k t p q) {p' q' : Nat} (hp : p ≤ p') (hq : q' ≤ q) : Pool m k t p' q' :=
  ⟨Nat.le_trans hq h.1, fun x h1 h2 => h.2 x (Nat.le_trans hp h1) (Nat.lt_of_lt_of_le h2 hq)⟩

/-! ### `pte_map_range` -/

theorem pageMask_and {p : Nat} (h1 : p % 4096 = 0) (h2 : p < 2 ^ 48) :
    BitVec.ofNat 64 p &&& pageMask = BitVec.ofNat 64 p := by
  have hmask : ∀ i < 64, pageMask.getLsbD i = decide (12 ≤ i) := by decide
  apply BitVec.eq_of_getLsbD_eq
  intro i hi
  rw [BitVec.getLsbD_and, hmask i hi, BitVec.getLsbD_ofNat]
  by_cases h12 : 12 ≤ i
  · simp [h12]
  · have hbit := testBit_addr (i := i) h1 h2 (.inl (by omega))
    simp [h12, hbit]

theorem fields (r : EarlyRequest) (type : BitVec 64) (hV : r.va ≤ va) (hE : va < r.vaEnd) (hva : va % 4096 = 0)
    (htype : type &&& 3#64 = type) : Fields (r.start + (va - r.va)) r.attr type where
  aligned := by
    have h1 := r.start_mod
    have h2 := r.va_mod
    omega
  lt := by
    have := r.phys_le
    omega
  attr := r.attr_free
  type := htype

theorem leafOf_page (hV : r.va ≤ va) (hE : va < r.vaEnd) (hva : va % 4096 = 0) (hx : x / span 0 = va / span 0) :
    r.leaf x = (leafOf 0 (desc (r.start + (va - r.va)) r.attr pgDescTypePage) x).map id := by
  have hf := r.fields pgDescTypePage hV hE hva (by decide)
  have htab : isTable (desc (r.start + (va - r.va)) r.attr pgDescTypePage) = true := hf.isTable
  have h1 := hf.aligned
  rw [leafOf, if_pos rfl, if_pos htab, hf.outAddr, hf.leafAttr, Option.map_id, leaf]
  rw [span_zero] at hx ⊢
  have h2 := Nat.div_add_mod x 4096
  have h3 := Nat.div_add_mod va 4096
  simp only [id, Option.some.injEq, Leaf.mk.injEq, and_true]
  omega

theorem pteMapLoop_done {attr : BitVec 64} {last start : Nat} {m : Mem} (fuel : Nat) (h : last < i) :
    pteMapLoop attr t last fuel i start m = m := by
  cases fuel with
  | zero => rfl
  | succ fuel => rw [pteMapLoop, if_neg (by omega)]

theorem pteMapLoop_maps (fuel : Nat) {m : Mem} (ht : t % 4096 = 0) (hV : r.va ≤ va) (hva : va % 4096 = 0)
    (hE : va < r.vaEnd) (hfuel : 512 ≤ fuel + index 0 va) :
    Maps id 0 t va (r.partEnd 0 va) r.leaf (fun _ => False) m
      (pteMapLoop r.attr t (index 0 (r.partEnd 0 va - 1)) fuel (index 0 va) (r.start + (va - r.va)) m) := by
  induction fuel generalizing va m with
  | zero =>
    have := index_lt 0 va
    omega
  | succ fuel ih =>
    have hpe := lt_partEnd (k := 0) hE
    have hple := r.partEnd_le_spanEnd 0 va
    have hpmod := r.partEnd_mod 0 va
    have hphys := r.phys_le
    have hpmax := r.partEnd_le 0 va
    have hf := r.fields pgDescTypePage hV hE hva (by decide)
    have hlt := lt_spanEnd 0 va
    have hspan : spanEnd 0 va = va + 4096 := by rw [spanEnd, spanStart_of_mod (k := 0) hva]; rfl
    have hadd : add64 (r.start + (va - r.va)) 4096 = r.start + (va + 4096 - r.va) := by
      unfold add64
      omega
    rw [pteMapLoop, if_pos (index_le_last hpe hple), hadd, pageMask_and hf.aligned hf.lt]
    have hpage : Maps id 0 t va (va + 4096) r.leaf (fun _ => False) m
        (store64 m (t + 8 * index 0 va) (desc (r.start + (va - r.va)) r.attr pgDescTypePage)) :=
      Maps.page ht hva fun x hx => leafOf_page hV hE hva hx
    by_cases hnext : va + 4096 < r.partEnd 0 va
    · obtain ⟨hidx, hreg⟩ := index_spanEnd (show spanEnd 0 va < r.partEnd 0 va by rw [hspan]; exact hnext) hple
      rw [hspan] at hidx hreg
      have hpart : r.partEnd 0 (va + 4096) = r.partEnd 0 va := partEnd_congr hreg
      have hrest := ih (m := store64 m (t + 8 * index 0 va) (desc (r.start + (va - r.va)) r.attr pgDescTypePage))
        (show r.va ≤ va + 4096 by omega) (by omega) (by omega) (by omega)
      rw [hidx, hpart] at hrest
      exact hpage.trans hrest (by omega) (by omega) hreg
    · have hlast : index 0 (r.partEnd 0 va - 1) < index 0 va + 1 := by
        have := (index_succ_le_iff hpe hple).not
        rw [hspan] at this
        omega
      rw [pteMapLoop_done fuel hlast]
      have hend : r.partEnd 0 va = va + 4096 := by omega
      rw [hend]
      exact hpage

theorem pteMapRange_spec (r : EarlyRequest) : r.LevelSpec 0 (pteMapRange r.attr) := by
  intro t va s ht hva hmod _ _
  have hpe := lt_partEnd (k := 0) hva.lt
  have hstop : r.stop 0 va = r.partEnd 0 va := if_neg fun h => Bool.false_ne_true h.2
  have h64 : r.partEnd 0 va ≤ 2 ^ 64 := Nat.le_trans (r.partEnd_le 0 va) r.vaEnd_le
  refine Mapped.of_maps ?_ hmod
  rw [hstop, vaEnd_arg hva.ge hva.lt, lastEntry_eq (by omega) (by omega) h64]
  exact (pteMapLoop_maps 512 ht hva.ge hva.page hva.lt (by omega)).mono fun _ hx => hx.elim

/-! ### The levels above -/

theorem getAddr_eq (w : BitVec 64) : pgTableEntryGetAddr w = outAddr w := by
  have h : pageMask &&& 0xffffffffffff#64 = addrMask := by decide
  rw [pgTableEntryGetAddr, outAddr, BitVec.and_assoc, h]

theorem linkTable_grows (t i : Nat) (s : EarlyState) : s.pnext ≤ (linkTable t i s).pnext := by
  unfold linkTable
  split
  · exact Nat.le_refl _
  · exact Nat.le_add_right _ _

theorem tableMapLoop_grows {block : Bool} {attr : BitVec 64} (hnext : Grows next) (last fin vaEnd fuel i start va : Nat)
    (s : EarlyState) : s.pnext ≤ (tableMapLoop k block attr next t last fin vaEnd fuel i start va s).pnext := by
  induction fuel generalizing i start va s with
  | zero => exact Nat.le_refl _
  | succ fuel ih =>
    rw [tableMapLoop]
    split
    · dsimp only
      split
      · refine Nat.le_trans ?_ (ih ..)
        exact Nat.le_refl _
      · exact Nat.le_refl _
    · dsimp only
      split
      · exact Nat.le_trans (Nat.le_trans (linkTable_grows t i s) (hnext ..)) (ih ..)
      · exact Nat.le_trans (linkTable_grows t i s) (hnext ..)

theorem tableMapRange_grows {block : Bool} {attr : BitVec 64} (hnext : Grows next) :
    Grows (tableMapRange k block attr next) :=
  fun _ _ _ _ s => tableMapLoop_grows hnext _ _ _ _ _ _ _ s

theorem pteMapRange_grows (attr : BitVec 64) : Grows (pteMapRange attr) := fun _ _ _ _ _ => Nat.le_refl _

theorem Mapped.of_block (hk : k + 1 ≤ 3) (ht : Tree s.mem (k + 1) t) (hva : r.Begins (k + 1) va)
    (hmod : s.pnext % 4096 = 0) (hb : r.MapsBlock (k + 1) va) :
    r.Mapped (k + 1) t va (spanEnd (k + 1) va) e s ⟨store64 s.mem (t + 8 * index (k + 1) va)
      (BitVec.ofNat 64 (r.start + (va - r.va)) ||| r.attr ||| pgDescTypeBlock), s.pnext⟩ := by
  have hV := hva.ge
  have huse := (useBlock_iff hV hva.first).mpr hb
  simp only [useBlock, Bool.and_eq_true, decide_eq_true_eq] at huse
  obtain ⟨⟨⟨hvm, hsm⟩, -⟩, hflag⟩ := huse
  have hf := r.fields pgDescTypeBlock hV hva.lt hva.page (by decide)
  have htab : isTable (desc (r.start + (va - r.va)) r.attr pgDescTypeBlock) = false := hf.isTable
  have hval : isValid (desc (r.start + (va - r.va)) r.attr pgDescTypeBlock) = true := hf.isValid
  have hle : k + 1 ≤ 2 := by
    by_contra hgt
    obtain rfl : k = 2 := by omega
    cases hflag
  rw [spanEnd, spanStart_of_mod hvm]
  refine Mapped.of_maps (Maps.block (e := desc (r.start + (va - r.va)) r.attr pgDescTypeBlock) ht hvm htab
    (fun x hx => ?_) fun x hx => absurd hx.1 (by omega)) hmod
  rw [leafOf, if_neg (Nat.succ_ne_zero k), hval, htab, decide_eq_true hle, hf.outAddr, hf.leafAttr]
  have hdiv : (r.start + (va - r.va)) / span (k + 1) * span (k + 1) = r.start + (va - r.va) := spanStart_of_mod hsm
  have h1 := (mem_span_iff hvm).mpr hx
  have h2 := Nat.div_add_mod x (span (k + 1))
  have h3 := Nat.div_add_mod va (span (k + 1))
  rw [hx] at h2
  rw [hdiv, leaf]
  simp only [Bool.not_false, Bool.and_self, if_true, Option.map_some, id, Option.some.injEq, Leaf.mk.injEq, and_true]
  omega

theorem mem_path_self (m : Mem) (k t x : Nat) : t ∈ (path m k t x).map Prod.fst := by
  cases k with
  | zero => simp [path]
  | succ k => simp [path]

theorem mem_path_child (h : isTable (slot m t (index (k + 1) a)) = true) (hax : a ≤ x) (hx : x < spanEnd (k + 1) a)
    (hp : p ∈ (path m k (outAddr (slot m t (index (k + 1) a))) x).map Prod.fst) :
    p ∈ (path m (k + 1) t x).map Prod.fst := by
  rw [path, index_of_div_span (div_span_of_mem hax hx), if_pos h, List.map_cons]
  exact List.mem_cons_of_mem _ hp

theorem Mapped.child (ht : Tree s.mem (k + 1) t) (he : isTable (slot s.mem t (index (k + 1) a)) = true) (hab : a < b)
    (hb : b ≤ spanEnd (k + 1) a) (hea : e ≤ spanEnd (k + 1) a) (hp : Pool s.mem (k + 1) t s.pnext s'.pnext)
    (h : r.Mapped k (outAddr (slot s.mem t (index (k + 1) a))) a b e s s') :
    r.Mapped (k + 1) t a b e s s' ∧ slot s'.mem t (index (k + 1) a) = slot s.mem t (index (k + 1) a) := by
  have hfresh : ∀ x, s.pnext ≤ x ∧ x < s'.pnext → ¬ Foot s.mem (k + 1) t (pageOf x) := fun x hx =>
    (hp.2 x hx.1 hx.2).2
  have hslot : slot s'.mem t (index (k + 1) a) = slot s.mem t (index (k + 1) a) :=
    slot_congr ht.aligned (index_lt _ _) fun x hx => h.maps.frame x
      (by rw [hx]; exact (ht.2.1 _ (index_lt _ _) he).2) fun hfx =>
        hfresh x hfx (by rw [hx]; exact foot_self _ _ t)
  refine ⟨⟨h.le, h.mod, Maps.child ht he hab hb hfresh h.maps, fun p hp1 hp2 hp3 => ?_⟩, hslot⟩
  obtain ⟨x, hx1, hx2, hx3⟩ := h.linked p hp1 hp2 hp3
  rw [← hslot] at he hx3
  exact ⟨x, hx1, hx2, mem_path_child he hx1 (by omega) hx3⟩

theorem linkFields (hp : p % 4096 = 0) (hlt : p < 2 ^ 48) : Fields p pgTableEntryRwx pgDescTypeTable where
  aligned := hp
  lt := hlt
  attr := by decide
  type := by decide

theorem linkEntry_eq (hp : p % 4096 = 0) (hlt : p < 2 ^ 48) :
    (BitVec.ofNat 64 p &&& pageMask) ||| (pgDescTypeTable ||| pgTableEntryRwx) =
      desc p pgTableEntryRwx pgDescTypeTable := by
  rw [pageMask_and hp hlt, desc, BitVec.or_assoc, BitVec.or_comm pgDescTypeTable]

theorem linkTable_eq (he : isValid (slot s.mem t i) = false) (hmod : s.pnext % 4096 = 0) (hlt : s.pnext < 2 ^ 48) :
    linkTable t i s = ⟨store64 s.mem (t + 8 * i) (desc s.pnext pgTableEntryRwx pgDescTypeTable), s.pnext + 4096⟩ := by
  rw [linkTable, he, ← linkEntry_eq hmod hlt]
  rfl

theorem pageOf_eq_iff (hp : p % 4096 = 0) : pageOf x = p ↔ p ≤ x ∧ x < p + 4096 := by
  unfold pageOf
  omega

/-- What linking the next free page leaves: an empty table, and the rest of the pool apart from it and from `t`. -/
theorem linkTable_facts (ht : Tree s.mem (k + 1) t) (he : isValid (slot s.mem t i) = false) (hi : i < 512)
    (hmod : s.pnext % 4096 = 0) (hp : Pool s.mem (k + 1) t s.pnext q) (hle : s.pnext + 4096 ≤ q) :
    linkTable t i s = ⟨store64 s.mem (t + 8 * i) (desc s.pnext pgTableEntryRwx pgDescTypeTable), s.pnext + 4096⟩ ∧
    (∀ x, s.pnext ≤ x → x < q → pageOf x ≠ t) ∧
    (∀ x, pageOf x = s.pnext → (linkTable t i s).mem x = 0) ∧
    (∀ p, Foot (linkTable t i s).mem k s.pnext p ↔ p = s.pnext) ∧
    Pool (linkTable t i s).mem k s.pnext (s.pnext + 4096) q := by
  have hstate := linkTable_eq he hmod (Nat.lt_of_lt_of_le (by omega) hp.1)
  have hnott : ∀ x, s.pnext ≤ x → x < q → pageOf x ≠ t := fun x hx1 hx2 hxt =>
    (hp.2 x hx1 hx2).2 (by rw [hxt]; exact foot_self _ _ t)
  have hzero : ∀ x, s.pnext ≤ x → x < q → (linkTable t i s).mem x = 0 := by
    intro x hx1 hx2
    rw [hstate]
    exact (store64_slot_frame ht.aligned hi (hnott x hx1 hx2)).trans (hp.2 x hx1 hx2).1
  have hzero' : ∀ x, pageOf x = s.pnext → (linkTable t i s).mem x = 0 := by
    intro x hx
    rw [pageOf_eq_iff hmod] at hx
    exact hzero x hx.1 (by omega)
  obtain ⟨-, hfoot, -⟩ := zero_table hmod hzero' k
  refine ⟨hstate, hnott, hzero', hfoot, hp.1, fun x hx1 hx2 => ⟨hzero x (by omega) hx2, ?_⟩⟩
  rw [hfoot, pageOf_eq_iff hmod]
  omega

theorem Mapped.link (ht : Tree s.mem (k + 1) t) (he : isValid (slot s.mem t (index (k + 1) a)) = false) (hab : a < b)
    (hb : b ≤ spanEnd (k + 1) a) (hae : a < e) (hea : e ≤ spanEnd (k + 1) a) (hmod : s.pnext % 4096 = 0)
    (hp : Pool s.mem (k + 1) t s.pnext s'.pnext) (hle : s.pnext + 4096 ≤ s'.pnext)
    (hm : r.Mapped k s.pnext a b e (linkTable t (index (k + 1) a) s) s') :
    r.Mapped (k + 1) t a b e s s' ∧
      slot s'.mem t (index (k + 1) a) = desc s.pnext pgTableEntryRwx pgDescTypeTable := by
  have hidx := index_lt (k + 1) a
  have hF := linkFields hmod (Nat.lt_of_lt_of_le (by omega) hp.1)
  have hnew : isTable (desc s.pnext pgTableEntryRwx pgDescTypeTable) = true := hF.isTable
  obtain ⟨hstate, hnott, hzero', hfoot, -⟩ := linkTable_facts ht he hidx hmod hp hle
  rw [hstate] at hm hzero' hfoot
  have hmaps : Maps id k s.pnext a b r.leaf (fun x => s.pnext ≤ x ∧ x < s'.pnext)
      (store64 s.mem (t + 8 * index (k + 1) a) (desc s.pnext pgTableEntryRwx pgDescTypeTable)) s'.mem :=
    hm.maps.mono fun x hx => ⟨Nat.le_trans (Nat.le_add_right _ _) hx.1, hx.2⟩
  have hslot : slot s'.mem t (index (k + 1) a) = desc s.pnext pgTableEntryRwx pgDescTypeTable := by
    rw [← slot_store64 s.mem t (index (k + 1) a) (desc s.pnext pgTableEntryRwx pgDescTypeTable)]
    refine slot_congr ht.aligned hidx fun x hx => hmaps.frame x ?_ fun hx' => hnott x hx'.1 hx'.2 hx
    rw [hfoot, hx]
    intro hts
    exact hnott s.pnext (Nat.le_refl _) (by omega) (by rw [pageOf_of_aligned hmod, hts])
  refine ⟨⟨by omega, hm.mod, ?_, fun p hp1 hp2 hp3 => ?_⟩, hslot⟩
  · refine Maps.link (e := desc s.pnext pgTableEntryRwx pgDescTypeTable) ht he hab hb
      (fun x hx => (hp.2 x hx.1 hx.2).2) (fun j _ hj => slot_store64_of_ne hj) (slot_store64 ..) hnew ?_ ?_ ?_
      (fun x hx _ => store64_slot_frame ht.aligned hidx hx) ?_
    · rw [hF.outAddr]
      exact hmod
    · intro x hx
      rw [hF.outAddr, pageOf_eq_iff hmod] at hx
      exact ⟨hx.1, by omega⟩
    · rw [hF.outAddr]
      exact hzero'
    · rw [hF.outAddr]
      exact hmaps
  · have hchild : ∀ x, a ≤ x → x < e → p ∈ (path s'.mem k s.pnext x).map Prod.fst →
        p ∈ (path s'.mem (k + 1) t x).map Prod.fst := by
      intro x hx1 hx2 hx3
      refine mem_path_child (a := a) ?_ hx1 (by omega) ?_
      · rw [hslot]
        exact hnew
      · rw [hslot, hF.outAddr]
        exact hx3
    rcases Nat.lt_or_ge p (s.pnext + 4096) with h1 | h1
    · obtain rfl : p = s.pnext := by omega
      exact ⟨a, Nat.le_refl _, hae, hchild a (Nat.le_refl _) hae (mem_path_self _ _ _ _)⟩
    · obtain ⟨x, hx1, hx2, hx3⟩ := hm.linked p hp1 h1 hp3
      exact ⟨x, hx1, hx2, hchild x hx1 hx2 hx3⟩

theorem partEnd_le_stop (r : EarlyRequest) (k x : Nat) : r.partEnd k x ≤ r.stop k x := by
  rw [stop]
  split
  · exact Nat.le_trans (r.partEnd_le k x) r.vaEnd_le
  · exact Nat.le_refl _

theorem stop_le_spanEnd (r : EarlyRequest) (k x : Nat) : r.stop k x ≤ spanEnd (k + 1) x := by
  rw [stop]
  split
  · rename_i h
    exact Nat.le_of_eq h.1.symm
  · exact r.partEnd_le_spanEnd k x

theorem mapsBlock_congr (h : x / span k = y / span k) : r.MapsBlock k x ↔ r.MapsBlock k y := by
  rw [MapsBlock, MapsBlock, spanEnd, spanEnd, spanStart_eq_iff.mpr h, partEnd_congr (region_of_div_span h)]

theorem unblocked_child (hb : ¬ r.MapsBlock (k + 1) va) (hva : isValid (slot m t (index (k + 1) va)) = true)
    (hx : x / span (k + 1) = va / span (k + 1)) (h : r.Unblocked m (k + 1) t x) :
    isTable (slot m t (index (k + 1) va)) = true ∧ r.Unblocked m k (outAddr (slot m t (index (k + 1) va))) x := by
  have h' := h.resolve_left (mt (mapsBlock_congr hx).mp hb)
  rw [index_of_div_span hx] at h'
  exact h' hva

theorem unblocked_of_zero (ht : t % 4096 = 0) (hzero : ∀ x, pageOf x = t → m x = 0) : r.Unblocked m k t x := by
  cases k with
  | zero => trivial
  | succ k =>
    refine .inr fun hval => ?_
    rw [slot, load64_zero fun y hy1 hy2 => hzero y (pageOf_slot ht (index_lt _ _) hy1 hy2)] at hval
    cases hval

/-- Below an entry that is no block: the table of the entry, which is there or is linked now, and the call for it. -/
theorem LevelSpec.entry (hnext : r.LevelSpec k next) (hgrow : Grows next) (ht : Tree s.mem (k + 1) t)
    (hva : r.Begins (k + 1) va) (hmod : s.pnext % 4096 = 0) (hb : ¬ r.MapsBlock (k + 1) va)
    (hun : ∀ x, va ≤ x → x < r.partEnd k va → r.Unblocked s.mem (k + 1) t x)
    (hs' : s' = r.callPart k next (outAddr (slot (linkTable t (index (k + 1) va) s).mem t (index (k + 1) va))) va
      (linkTable t (index (k + 1) va) s))
    (hp : Pool s.mem (k + 1) t s.pnext s'.pnext) :
    r.Mapped (k + 1) t va (r.stop k va) (r.partEnd k va) s s' ∧
    ∃ c s₁, s' = r.callPart k next c va s₁ ∧ Tree s₁.mem k c ∧ s₁.pnext % 4096 = 0 ∧
      (∀ x, va ≤ x → x < r.partEnd k va → r.Unblocked s₁.mem k c x) ∧ Pool s₁.mem k c s₁.pnext s'.pnext ∧
      isTable (slot s'.mem t (index (k + 1) va)) = true ∧ outAddr (slot s'.mem t (index (k + 1) va)) = c := by
  have hidx := index_lt (k + 1) va
  have hlt := lt_partEnd (k := k) hva.lt
  have h1 := r.partEnd_le_stop k va
  have h2 := r.stop_le_spanEnd k va
  by_cases he : isValid (slot s.mem t (index (k + 1) va)) = true
  · have hlink : linkTable t (index (k + 1) va) s = s := if_pos he
    rw [hlink] at hs'
    obtain ⟨htab, -⟩ := unblocked_child hb he rfl (hun va (Nat.le_refl _) hlt)
    have hchild := (ht.2.1 _ hidx htab).1
    have hun' : ∀ x, va ≤ x → x < r.partEnd k va → r.Unblocked s.mem k (outAddr (slot s.mem t (index (k + 1) va))) x :=
      fun x hx1 hx2 => (unblocked_child hb he (div_span_of_mem hx1 (by omega)) (hun x hx1 hx2)).2
    have hpool : Pool s.mem k (outAddr (slot s.mem t (index (k + 1) va))) s.pnext s'.pnext :=
      ⟨hp.1, fun x hx1 hx2 => ⟨(hp.2 x hx1 hx2).1, fun h => (hp.2 x hx1 hx2).2 (Foot.child hidx htab h)⟩⟩
    have hm := hnext _ va s hchild hva hmod hun' (by rw [← hs']; exact hpool)
    rw [← hs'] at hm
    obtain ⟨hmapped, hslot⟩ := Mapped.child ht htab (by omega) h2 (by omega) hp hm
    rw [hslot]
    exact ⟨hmapped, _, s, hs', hchild, hmod, hun', hpool, htab, rfl⟩
  · rw [Bool.not_eq_true] at he
    have hstep : (linkTable t (index (k + 1) va) s).pnext = s.pnext + 4096 := by
      rw [linkTable, he]
      rfl
    have hle : s.pnext + 4096 ≤ s'.pnext := by
      rw [hs', ← hstep]
      exact hgrow ..
    have hF := linkFields hmod (Nat.lt_of_lt_of_le (by omega) hp.1)
    obtain ⟨hstate, -, hzero, -, hpool⟩ := linkTable_facts ht he hidx hmod hp hle
    have hslot₁ : slot (linkTable t (index (k + 1) va) s).mem t (index (k + 1) va) =
        desc s.pnext pgTableEntryRwx pgDescTypeTable := by
      rw [hstate]
      exact slot_store64 ..
    rw [hslot₁, hF.outAddr] at hs'
    rw [← hstep] at hpool
    have hchild := (zero_table hmod hzero k).1
    have hm := hnext s.pnext va _ hchild hva (by omega) (fun x _ _ => unblocked_of_zero hmod hzero)
      (by rw [← hs']; exact hpool)
    rw [← hs'] at hm
    obtain ⟨hmapped, hslot⟩ := Mapped.link ht he (by omega) h2 hlt (by omega) hmod hp hle hm
    rw [hslot, hF.outAddr]
    exact ⟨hmapped, s.pnext, _, hs', hchild, by omega, fun x _ _ => unblocked_of_zero hmod hzero, hpool, hF.isTable, rfl⟩

/-! ### The rounds of a loop -/

def Round (r : EarlyRequest) (attr : BitVec 64) (next : MapRange) (k t va : Nat) (s s' : EarlyState) : Prop :=
  r.MapsBlock (k + 1) va ∧ s' = ⟨store64 s.mem (t + 8 * index (k + 1) va)
    (BitVec.ofNat 64 (r.start + (va - r.va)) ||| attr ||| pgDescTypeBlock), s.pnext⟩ ∨
  ¬ r.MapsBlock (k + 1) va ∧
    s' = r.callPart k next (outAddr (slot (linkTable t (index (k + 1) va) s).mem t (index (k + 1) va))) va
      (linkTable t (index (k + 1) va) s)

theorem Round.le {attr : BitVec 64} (h : r.Round attr next k t va s s') (hgrow : Grows next) : s.pnext ≤ s'.pnext := by
  obtain ⟨-, rfl⟩ | ⟨-, rfl⟩ := h
  · exact Nat.le_refl _
  · exact Nat.le_trans (linkTable_grows ..) (hgrow ..)

theorem partEnd_of_more (h : spanEnd (k + 1) va < r.partEnd (k + 1) va) : r.partEnd k va = spanEnd (k + 1) va := by
  have := r.partEnd_le (k + 1) va
  exact Nat.min_eq_right (by omega)

theorem partEnd_of_last (h : r.partEnd (k + 1) va ≤ spanEnd (k + 1) va) : r.partEnd k va = r.partEnd (k + 1) va := by
  have := spanEnd_le_succ (k + 1) va
  rw [partEnd, partEnd] at *
  omega

theorem partEnd_le_succ (r : EarlyRequest) (k va : Nat) : r.partEnd k va ≤ r.partEnd (k + 1) va := by
  have := spanEnd_le_succ (k + 1) va
  rw [partEnd, partEnd]
  omega

/-- One round of the loop at `va`, then the round for the next entry, if the range goes on there. -/
theorem tableMapLoop_round (attr : BitVec 64) (hk : k + 1 ≤ 3) (fuel : Nat) (hva : r.Begins (k + 1) va)
    (hs' : s' = tableMapLoop (k + 1) (r.blockFlag (k + 1)) attr next t (index (k + 1) (r.partEnd (k + 1) va - 1))
      (r.start + (r.partEnd (k + 1) va - r.va)) (r.partEnd (k + 1) va % 2 ^ 64) (fuel + 1) (index (k + 1) va)
      (r.start + (va - r.va)) va s) :
    ∃ s₂, r.Round attr next k t va s s₂ ∧
      (spanEnd (k + 1) va < r.partEnd (k + 1) va ∧
        s' = tableMapLoop (k + 1) (r.blockFlag (k + 1)) attr next t (index (k + 1) (r.partEnd (k + 1) va - 1))
          (r.start + (r.partEnd (k + 1) va - r.va)) (r.partEnd (k + 1) va % 2 ^ 64) fuel (index (k + 1) va + 1)
          (r.start + (spanEnd (k + 1) va - r.va)) (spanEnd (k + 1) va) s₂ ∨
      r.partEnd (k + 1) va ≤ spanEnd (k + 1) va ∧ s' = s₂) := by
  obtain ⟨hV, hE, hfirst⟩ := hva
  have hpe := lt_partEnd (k := k + 1) hE
  have hpv := r.partEnd_le (k + 1) va
  have hve := r.vaEnd_le
  have hphys := r.phys_le
  have hv64 : va < 2 ^ 64 := Nat.lt_of_lt_of_le hE hve
  have hnextiff := index_succ_le_iff hpe (r.partEnd_le_spanEnd (k + 1) va)
  rw [tableMapLoop] at hs'
  by_cases hb : r.MapsBlock (k + 1) va
  · have huse := (useBlock_iff hV hfirst).mpr hb
    rw [if_pos huse] at hs'
    simp only [useBlock, Bool.and_eq_true, decide_eq_true_eq] at huse
    obtain ⟨⟨⟨hvm, -⟩, -⟩, -⟩ := huse
    have hsp : spanEnd (k + 1) va = va + span (k + 1) := by rw [spanEnd, spanStart_of_mod hvm]
    have hspan := span_le hk
    refine ⟨_, .inl ⟨hb, rfl⟩, ?_⟩
    by_cases hlast : spanEnd (k + 1) va < r.partEnd (k + 1) va
    · rw [if_pos (hnextiff.mpr hlast)] at hs'
      have h1 : add64 va (span (k + 1)) = spanEnd (k + 1) va := by
        unfold add64
        omega
      have h2 : add64 (r.start + (va - r.va)) (span (k + 1)) = r.start + (spanEnd (k + 1) va - r.va) := by
        unfold add64
        omega
      rw [h1, h2] at hs'
      exact .inl ⟨hlast, hs'⟩
    · rw [if_neg (mt hnextiff.mp hlast)] at hs'
      exact .inr ⟨by omega, hs'⟩
  · rw [if_neg (mt (useBlock_iff hV hfirst).mp hb)] at hs'
    simp only [mapSize_eq hk hv64, mapEnd_arg hk hV hE, getAddr_eq] at hs'
    refine ⟨_, .inr ⟨hb, rfl⟩, ?_⟩
    by_cases hlast : spanEnd (k + 1) va < r.partEnd (k + 1) va
    · rw [if_pos (hnextiff.mpr hlast)] at hs'
      have hpart := partEnd_of_more hlast
      have h1 : add64 va (sub64 (r.start + (r.partEnd k va - r.va)) (r.start + (va - r.va))) =
          spanEnd (k + 1) va := by
        rw [vaEnd_arg hV hE, hpart, Nat.mod_eq_of_lt (by omega)]
      rw [h1, hpart] at hs'
      rw [callPart, hpart]
      exact .inl ⟨hlast, hs'⟩
    · rw [if_neg (mt hnextiff.mp hlast)] at hs'
      exact .inr ⟨by omega, hs'⟩

theorem partEnd_spanEnd (hlast : spanEnd (k + 1) va < r.partEnd (k + 1) va) :
    index (k + 1) (spanEnd (k + 1) va) = index (k + 1) va + 1 ∧
      r.partEnd (k + 1) (spanEnd (k + 1) va) = r.partEnd (k + 1) va ∧
      r.stop (k + 1) (spanEnd (k + 1) va) = r.stop (k + 1) va ∧
      spanEnd (k + 1) va / span (k + 1 + 1) = va / span (k + 1 + 1) := by
  obtain ⟨hidx, hreg⟩ := index_spanEnd hlast (r.partEnd_le_spanEnd (k + 1) va)
  have hpart : r.partEnd (k + 1) (spanEnd (k + 1) va) = r.partEnd (k + 1) va := partEnd_congr hreg
  refine ⟨hidx, hpart, ?_, hreg⟩
  rw [stop, stop, hpart, spanEnd_congr hreg]

theorem Begins.succ (h : r.Begins (k + 1) va) (hmore : spanEnd (k + 1) va < r.partEnd (k + 1) va) :
    r.Begins (k + 1) (spanEnd (k + 1) va) := by
  have h1 := h.ge
  have h2 := lt_spanEnd (k + 1) va
  have h3 := r.partEnd_le (k + 1) va
  exact ⟨by omega, by omega, .inr (spanEnd_mod _ _)⟩

section Rounds

variable {P : Nat → EarlyState → EarlyState → Prop} (attr : BitVec 64) (hk : k + 1 ≤ 3)
  (hlast : ∀ va s s', r.Begins (k + 1) va → r.Round attr next k t va s s' →
    r.partEnd (k + 1) va ≤ spanEnd (k + 1) va → P va s s')
  (hmore : ∀ va s s₂ s', r.Begins (k + 1) va → r.Round attr next k t va s s₂ →
    spanEnd (k + 1) va < r.partEnd (k + 1) va → (Grows next → s₂.pnext ≤ s'.pnext) →
    P (spanEnd (k + 1) va) s₂ s' → P va s s')

include hk hlast hmore

/-- The rounds of a loop, from the last one back.  The induction is on the bound on the rounds, which the 512 entries of
the table never reach. -/
theorem tableMapLoop_rounds (fuel : Nat) (hva : r.Begins (k + 1) va) (hfuel : 512 ≤ fuel + index (k + 1) va)
    (hs' : s' = tableMapLoop (k + 1) (r.blockFlag (k + 1)) attr next t (index (k + 1) (r.partEnd (k + 1) va - 1))
      (r.start + (r.partEnd (k + 1) va - r.va)) (r.partEnd (k + 1) va % 2 ^ 64) fuel (index (k + 1) va)
      (r.start + (va - r.va)) va s) : P va s s' := by
  induction fuel generalizing va s with
  | zero =>
    have := index_lt (k + 1) va
    omega
  | succ fuel ih =>
    obtain ⟨s₂, hround, ⟨hnext, hs'⟩ | ⟨hend, rfl⟩⟩ := tableMapLoop_round attr hk fuel hva hs'
    · obtain ⟨hidx, hpart, -, -⟩ := partEnd_spanEnd hnext
      refine hmore va s s₂ s' hva hround hnext (fun hgrow => ?_) (ih (hva.succ hnext) (by omega) ?_)
      · rw [hs']
        exact tableMapLoop_grows hgrow ..
      · rw [hpart, hidx]
        exact hs'
    · exact hlast va s _ hva hround hend

theorem callPart_rounds (hva : r.Begins (k + 1 + 1) va) :
    P va s (r.callPart (k + 1) (tableMapRange (k + 1) (r.blockFlag (k + 1)) attr next) t va s) := by
  have hpe := lt_partEnd (k := k + 1) hva.lt
  have h64 : r.partEnd (k + 1) va ≤ 2 ^ 64 := Nat.le_trans (r.partEnd_le (k + 1) va) r.vaEnd_le
  refine tableMapLoop_rounds attr hk hlast hmore 512 ⟨hva.ge, hva.lt, hva.first.imp_right mod_span_of_succ⟩
    (Nat.le_add_right _ _) ?_
  rw [callPart, tableMapRange]
  simp only [vaEnd_arg hva.ge hva.lt, lastEntry_eq (show k + 1 ≤ 5 by omega) (Nat.zero_lt_of_lt hpe) h64]

end Rounds

/-! ### The contract of a level from that of the next one -/

def RestSpec (r : EarlyRequest) (k t va : Nat) (s s' : EarlyState) : Prop :=
  Tree s.mem k t → s.pnext % 4096 = 0 → (∀ x, va ≤ x → x < r.partEnd k va → r.Unblocked s.mem k t x) →
    Pool s.mem k t s.pnext s'.pnext → r.Mapped k t va (r.stop k va) (r.partEnd k va) s s'

/-- What was mapped below one entry leaves the ways below the later entries alone. -/
theorem Mapped.path_later (hm : r.Mapped (k + 1) t va (spanEnd (k + 1) va) e s s') (h1 : spanEnd (k + 1) va ≤ x)
    (h2 : x < r.partEnd (k + 1) va) : path s'.mem (k + 1) t x = path s.mem (k + 1) t x := by
  have hple := r.partEnd_le_spanEnd (k + 1) va
  have hlt := lt_spanEnd (k + 1) va
  have hxreg : x / span (k + 1 + 1) = va / span (k + 1 + 1) := div_span_of_mem (by omega) (by omega)
  have hstart : spanEnd (k + 1) va ≤ spanStart (k + 1) x := by
    by_contra hlt'
    have h3 := spanEnd_le_of_lt (k := k + 1) (x := x) (spanEnd_mod (k + 1) va) (by omega)
    have h4 := lt_spanEnd (k + 1) x
    omega
  exact hm.maps.path x hxreg (.inr hstart)

theorem Mapped.unblocked_later (hm : r.Mapped (k + 1) t va (spanEnd (k + 1) va) e s s')
    (hmore : spanEnd (k + 1) va < r.partEnd (k + 1) va)
    (hun : ∀ x, va ≤ x → x < r.partEnd (k + 1) va → r.Unblocked s.mem (k + 1) t x) :
    ∀ x, spanEnd (k + 1) va ≤ x → x < r.partEnd (k + 1) (spanEnd (k + 1) va) → r.Unblocked s'.mem (k + 1) t x := by
  have hlt := lt_spanEnd (k + 1) va
  intro x hx1 hx2
  rw [(partEnd_spanEnd hmore).2.1] at hx2
  rw [unblocked_of_path (hm.path_later hx1 hx2)]
  exact hun x (by omega) hx2

section Spec

variable (hk : k + 1 ≤ 3) (hnext : r.LevelSpec k next) (hgrow : Grows next)

include hk hnext hgrow

theorem Round.mapped (ht : Tree s.mem (k + 1) t) (hmod : s.pnext % 4096 = 0)
    (hun : ∀ x, va ≤ x → x < r.partEnd (k + 1) va → r.Unblocked s.mem (k + 1) t x) (hva : r.Begins (k + 1) va)
    (hround : r.Round r.attr next k t va s s') (hp : Pool s.mem (k + 1) t s.pnext s'.pnext)
    (hmore : spanEnd (k + 1) va < r.partEnd (k + 1) va) :
    r.Mapped (k + 1) t va (spanEnd (k + 1) va) (spanEnd (k + 1) va) s s' := by
  have hpart := r.partEnd_le_succ k va
  obtain ⟨hb, rfl⟩ | ⟨hb, hs'⟩ := hround
  · exact Mapped.of_block hk ht hva hmod hb
  · have hm := (hnext.entry hgrow ht hva hmod hb (fun x hx1 hx2 => hun x hx1 (by omega)) hs' hp).1
    rwa [stop_of_lt hmore, partEnd_of_more hmore] at hm

theorem RestSpec.last (hva : r.Begins (k + 1) va) (hround : r.Round r.attr next k t va s s')
    (hend : r.partEnd (k + 1) va ≤ spanEnd (k + 1) va) : r.RestSpec (k + 1) t va s s' := by
  intro ht hmod hun hp
  have hpart := partEnd_of_last hend
  obtain ⟨hb, rfl⟩ | ⟨hb, hs'⟩ := hround
  · rw [stop_of_block hk hva.lt hend hb (Nat.succ_pos k)]
    exact Mapped.of_block hk ht hva hmod hb
  · have hm := (hnext.entry hgrow ht hva hmod hb (fun x hx1 hx2 => hun x hx1 (by omega)) hs' hp).1
    rwa [← stop_of_ge hk hva.lt hend hb, hpart] at hm

theorem RestSpec.more {s₂ : EarlyState} (hva : r.Begins (k + 1) va) (hround : r.Round r.attr next k t va s s₂)
    (hmore : spanEnd (k + 1) va < r.partEnd (k + 1) va) (hle : s₂.pnext ≤ s'.pnext)
    (hrest : r.RestSpec (k + 1) t (spanEnd (k + 1) va) s₂ s') : r.RestSpec (k + 1) t va s s' := by
  intro ht hmod hun hp
  have hlt := lt_spanEnd (k + 1) va
  have hm := Round.mapped hk hnext hgrow ht hmod hun hva hround (hp.mono (Nat.le_refl _) hle) hmore
  obtain ⟨-, hpart, hstop, hreg⟩ := partEnd_spanEnd hmore
  have hrest := hrest hm.maps.tree hm.mod (hm.unblocked_later hmore hun) (hm.pool hp)
  rw [hstop, hpart] at hrest
  have h1 := r.partEnd_le_stop (k + 1) va
  exact hm.trans hrest (Nat.succ_ne_zero k) (by omega) (by omega) (by omega) (spanEnd_mod _ _) hreg

theorem tableMapRange_spec : r.LevelSpec (k + 1) (tableMapRange (k + 1) (r.blockFlag (k + 1)) r.attr next) := by
  intro t va s ht hva hmod hun hp
  refine callPart_rounds (P := r.RestSpec (k + 1) t) r.attr hk (fun va s s' hva hround hend => ?_)
    (fun va s s₂ s' hva hround hmore hle hrest => ?_) hva ht hmod hun hp
  · exact .last hk hnext hgrow hva hround hend
  · exact .more hk hnext hgrow hva hround hmore (hle hgrow) hrest

end Spec

theorem pudMapRange_spec (r : EarlyRequest) : r.LevelSpec 2 (pudMapRange r.attr r.flags) ∧
    Grows (pudMapRange r.attr r.flags) := by
  have h0 := pteMapRange_grows r.attr
  have h1 : r.LevelSpec 1 (pmdMapRange r.attr r.flags) := tableMapRange_spec (by decide) r.pteMapRange_spec h0
  have h1' : Grows (pmdMapRange r.attr r.flags) := tableMapRange_grows h0
  exact ⟨tableMapRange_spec (by decide) h1 h1', tableMapRange_grows h1'⟩

end EarlyRequest

end QuestOS
