import QuestOS.Mmu.EarlyCount

/-!
# Ranges mapped one after another

What a call of the early page-table builder leaves for the next one, if the ranges ascend: from the end of the range on
nothing is mapped (`Ready`), and the entries on the way to its last address are present (`Reached`), so that the next call
finds the tables it shares with this one.  Nothing is asked of the attributes: an entry that is written as a block may have
the type of a table, but the next range begins behind it.
-/

namespace QuestOS

open Bytes PageTable

namespace EarlyRequest

variable {r : EarlyRequest} {attr : BitVec 64} {k t a b i x va p q : Nat} {m : Mem} {s s₁ s' : EarlyState}
  {next : MapRange} {used : List Nat}

structure Apart (p q t : Nat) (used : List Nat) : Prop where
  aligned : t % 4096 = 0
  not_used : t ∉ used
  not_free : ∀ x, p ≤ x → x < q → pageOf x ≠ t

/-- The tables on the way to `a` if nothing is mapped from `a` on: no entry is present behind the one of `a`, and that one
only if it begins before `a`. -/
def Ready (m : Mem) (p q : Nat) : (k t a : Nat) → (used : List Nat) → Prop
  | 0, t, _, used => Apart p q t used
  | k + 1, t, a, used => Apart p q t used ∧
      (∀ i, index (k + 1) a < i → i < 512 → isValid (slot m t i) = false) ∧
      (isValid (slot m t (index (k + 1) a)) = true → a % span (k + 1) ≠ 0 ∧
        Ready m p q k (outAddr (slot m t (index (k + 1) a))) a (t :: used))

def Reached (m : Mem) : (k t a : Nat) → Prop
  | 0, _, _ => True
  | 1, _, _ => True
  | k + 2, t, a => isValid (slot m t (index (k + 2) a)) = true ∧
      Reached m (k + 1) (outAddr (slot m t (index (k + 2) a))) a

def FreePages (m : Mem) (p q : Nat) (used : List Nat) : Prop := ∀ x, p ≤ x → x < q → m x = 0 ∧ pageOf x ∉ used

structure Extended (q : Nat) (used : List Nat) (k t b lim : Nat) (s s' : EarlyState) : Prop where
  mod : s'.pnext % 4096 = 0
  keeps : ∀ x, pageOf x ∈ used → s'.mem x = s.mem x
  free : ∀ x, s'.pnext ≤ x → x < q → s'.mem x = 0
  reached : Reached s'.mem k t (b - 1)
  ready : b < lim → Ready s'.mem s'.pnext q k t b used

def RestExtends (r : EarlyRequest) (q k t va : Nat) (s s' : EarlyState) : Prop :=
  ∀ used : List Nat, s.pnext % 4096 = 0 → FreePages s.mem s.pnext q used → Ready s.mem s.pnext q k t va used →
    s'.pnext ≤ q → Extended q used k t (r.partEnd k va) (spanEnd (k + 1) va) s s'

def LevelExtends (r : EarlyRequest) (q k : Nat) (next : MapRange) : Prop :=
  ∀ (t va : Nat) (s : EarlyState), r.Begins (k + 1) va → r.RestExtends q k t va s (r.callPart k next t va s)

theorem Apart.mono {p' : Nat} (h : Apart p q t used) (hp : p ≤ p') : Apart p' q t used :=
  ⟨h.aligned, h.not_used, fun x hx => h.not_free x (Nat.le_trans hp hx)⟩

theorem Ready.later (h : Ready m p q k t a used) (hab : a ≤ b) (hreg : b / span (k + 1) = a / span (k + 1)) :
    Ready m p q k t b used := by
  induction k generalizing t used with
  | zero => exact h
  | succ k ih =>
    obtain ⟨hapart, hlater, hhere⟩ := h
    by_cases hsame : b / span (k + 1) = a / span (k + 1)
    · have hidx := index_of_div_span hsame
      rw [Ready, hidx]
      refine ⟨hapart, hlater, fun hval => ?_⟩
      obtain ⟨hmod, hchild⟩ := hhere hval
      refine ⟨fun hb => hmod ?_, ih hchild hsame⟩
      have h1 := spanStart_of_mod hb
      have h2 := spanStart_eq_iff.2 hsame
      have h3 := spanStart_le (k + 1) a
      have h4 : spanStart (k + 1) a = a := by omega
      rw [← h4]
      exact spanStart_mod _ _
    · have hidx : index (k + 1) a < index (k + 1) b := by
        have hne : index (k + 1) b ≠ index (k + 1) a := fun h => hsame (div_span_of_index hreg h)
        have hle : a / span (k + 1) ≤ b / span (k + 1) := Nat.div_le_div_right hab
        rw [div_span_succ (k + 1) b, div_span_succ (k + 1) a] at hreg
        rw [index, index] at hne ⊢
        omega
      refine ⟨hapart, fun i hi => hlater i (by omega), fun hval => ?_⟩
      rw [hlater _ hidx (index_lt _ _)] at hval
      cases hval

theorem Extended.trans {lim : Nat} (h : Extended q used k t a lim s s₁) (h' : Extended q used k t b lim s₁ s') :
    Extended q used k t b lim s s' :=
  ⟨h'.mod, fun x hx => (h'.keeps x hx).trans (h.keeps x hx), h'.free, h'.reached, h'.ready⟩

theorem Extended.of_slot (hapart : Apart s'.pnext q t used) (hva : va < b) (hb : b ≤ spanEnd (k + 1) va)
    (hmod : s'.pnext % 4096 = 0) (hkeeps : ∀ x, pageOf x ∈ used → s'.mem x = s.mem x)
    (hfree : ∀ x, s'.pnext ≤ x → x < q → s'.mem x = 0) (hreached : Reached s'.mem (k + 1) t (b - 1))
    (hlater : ∀ i, index (k + 1) va < i → i < 512 → isValid (slot s'.mem t i) = false)
    (hinside : b < spanEnd (k + 1) va →
      Ready s'.mem s'.pnext q k (outAddr (slot s'.mem t (index (k + 1) va))) b (t :: used)) :
    Extended q used (k + 1) t b (spanEnd (k + 1 + 1) va) s s' := by
  refine ⟨hmod, hkeeps, hfree, hreached, fun hlim => ?_⟩
  rcases Nat.lt_or_eq_of_le hb with hlt | rfl
  · have hdiv : b / span (k + 1) = va / span (k + 1) := div_span_of_mem (by omega) hlt
    rw [Ready, index_of_div_span hdiv]
    refine ⟨hapart, hlater, fun _ => ⟨fun hmod => ?_, hinside hlt⟩⟩
    have hstart := spanStart_le (k + 1) va
    have h1 := spanStart_of_mod hmod
    have h2 := spanStart_eq_iff.2 hdiv
    omega
  · obtain ⟨hidx, -⟩ := index_spanEnd hlim (Nat.le_refl _)
    rw [Ready, hidx]
    refine ⟨hapart, fun i hi => hlater i (by omega), fun hval => ?_⟩
    have hlt := index_lt (k + 1) (spanEnd (k + 1) va)
    rw [hlater _ (Nat.lt_succ_self _) (by omega)] at hval
    cases hval

/-! ### The levels -/

theorem pteMapLoop_frame {last start : Nat} (ht : t % 4096 = 0) (hlast : last < 512) (hx : pageOf x ≠ t) (fuel : Nat) :
    pteMapLoop attr t last fuel i start m x = m x := by
  induction fuel generalizing i start m with
  | zero => rfl
  | succ fuel ih =>
    rw [pteMapLoop]
    split
    · rw [ih, store64_slot_frame ht (by omega) hx]
    · rfl

theorem pteMapRange_extends (attr : BitVec 64) : r.LevelExtends q 0 (pteMapRange attr) := by
  intro t va s _ used hmod hfree hready _
  have hframe : ∀ x, pageOf x ≠ t → (r.callPart 0 (pteMapRange attr) t va s).mem x = s.mem x := fun x hx =>
    pteMapLoop_frame hready.aligned (index_lt _ _) hx 512
  refine ⟨hmod, fun x hx => hframe x ?_, fun x h1 h2 => ?_, trivial, fun _ => hready⟩
  · rintro rfl
    exact hready.not_used hx
  · rw [hframe x (hready.not_free x h1 h2)]
    exact (hfree x h1 h2).1

theorem index_pred (hva : va < b) (hb : b ≤ spanEnd k va) : index k (b - 1) = index k va :=
  index_of_div_span (div_span_of_mem (by omega) (by omega))

theorem ready_of_zero (hapart : Apart p q t used) (hzero : ∀ x, pageOf x = t → m x = 0) : Ready m p q k t a used := by
  have hslot : ∀ i < 512, isValid (slot m t i) = false := by
    intro i hi
    rw [slot, load64_zero fun x h1 h2 => hzero x (pageOf_slot hapart.aligned hi h1 h2)]
    rfl
  cases k with
  | zero => exact hapart
  | succ k =>
    refine ⟨hapart, fun i _ hi => hslot i hi, fun hval => ?_⟩
    rw [hslot _ (index_lt _ _)] at hval
    cases hval

/-- The entry of `va` after `linkTable`: it is present, its table is ready, and the other entries and pages are as before. -/
theorem linkTable_ready (hq : q ≤ 2 ^ 48) (hmod : s.pnext % 4096 = 0) (hfree : FreePages s.mem s.pnext q used)
    (hready : Ready s.mem s.pnext q (k + 1) t va used) (hs₁ : s₁ = linkTable t (index (k + 1) va) s) (hle : s₁.pnext ≤ q) :
    s₁.pnext % 4096 = 0 ∧ s.pnext ≤ s₁.pnext ∧ isValid (slot s₁.mem t (index (k + 1) va)) = true ∧
      (∀ i, i ≠ index (k + 1) va → slot s₁.mem t i = slot s.mem t i) ∧ (∀ x, pageOf x ≠ t → s₁.mem x = s.mem x) ∧
      FreePages s₁.mem s₁.pnext q (t :: used) ∧
      Ready s₁.mem s₁.pnext q k (outAddr (slot s₁.mem t (index (k + 1) va))) va (t :: used) := by
  obtain ⟨hapart, -, hhere⟩ := hready
  have hgrow : s.pnext ≤ s₁.pnext := by
    rw [hs₁]
    exact linkTable_grows ..
  have hother : ∀ x, pageOf x ≠ t → s₁.mem x = s.mem x := by
    intro x hx
    rw [hs₁, linkTable]
    split
    · rfl
    · exact store64_slot_frame hapart.aligned (index_lt _ _) hx
  have hfree₁ : FreePages s₁.mem s₁.pnext q (t :: used) := by
    intro x h1 h2
    have hx := hapart.not_free x (by omega) h2
    obtain ⟨hzero, hnot⟩ := hfree x (by omega) h2
    rw [hother x hx]
    exact ⟨hzero, List.not_mem_cons_of_ne_of_not_mem hx hnot⟩
  rw [linkTable] at hs₁
  split at hs₁
  · rename_i hval
    subst hs₁
    exact ⟨hmod, hgrow, hval, fun _ _ => rfl, hother, hfree₁, (hhere hval).2⟩
  · subst hs₁
    dsimp only at hle ⊢
    have hlt : s.pnext < 2 ^ 48 := by omega
    have hfields := linkFields hmod hlt
    rw [linkEntry_eq hmod hlt, slot_store64, hfields.isValid, hfields.outAddr]
    have hin : ∀ x, pageOf x = s.pnext → s.pnext ≤ x ∧ x < q := by
      intro x hx
      rw [pageOf_eq_iff hmod] at hx
      omega
    have hpage := pageOf_of_aligned hmod
    rw [linkEntry_eq hmod hlt] at hother hfree₁
    refine ⟨by omega, hgrow, by decide, fun i hi => slot_store64_of_ne hi, hother, hfree₁,
      ready_of_zero ⟨hmod, ?_, ?_⟩ ?_⟩
    · rw [List.mem_cons, not_or]
      obtain ⟨h1, h2⟩ := hin s.pnext hpage
      constructor
      · rintro rfl
        exact hapart.not_free _ h1 h2 hpage
      · have := (hfree s.pnext h1 h2).2
        rwa [hpage] at this
    · intro x hx1 hx2 hx
      rw [pageOf_eq_iff hmod] at hx
      omega
    · intro x hx
      obtain ⟨h1, h2⟩ := hin x hx
      exact (hother x (hapart.not_free x h1 h2)).trans (hfree x h1 h2).1

theorem LevelExtends.entry (hnext : r.LevelExtends q k next) (hgrow : Grows next) (hq : q ≤ 2 ^ 48)
    (hva : r.Begins (k + 1) va) (hmod : s.pnext % 4096 = 0)
    (hfree : FreePages s.mem s.pnext q used) (hready : Ready s.mem s.pnext q (k + 1) t va used)
    (hs' : s' = r.callPart k next (outAddr (slot (linkTable t (index (k + 1) va) s).mem t (index (k + 1) va))) va
      (linkTable t (index (k + 1) va) s))
    (hle : s'.pnext ≤ q) : Extended q used (k + 1) t (r.partEnd k va) (spanEnd (k + 1 + 1) va) s s' := by
  generalize hs₁ : linkTable t (index (k + 1) va) s = s₁ at hs'
  have hgrow₁ : s₁.pnext ≤ s'.pnext := by
    rw [hs']
    exact hgrow ..
  have hapart := hready.1
  obtain ⟨hmod₁, hle₁, hval, hslot, hother, hfree₁, hchild⟩ :=
    linkTable_ready hq hmod hfree hready hs₁.symm (Nat.le_trans hgrow₁ hle)
  have hcall := hnext _ va s₁ hva (t :: used) hmod₁ hfree₁ hchild (by rw [← hs']; exact hle)
  rw [← hs'] at hcall
  -- the table itself is one of those that the call leaves alone
  have hkept : ∀ i < 512, slot s'.mem t i = slot s₁.mem t i := fun i hi =>
    slot_congr hapart.aligned hi fun x hx => hcall.keeps x (by rw [hx]; exact List.mem_cons_self)
  have hpe := lt_partEnd (k := k) hva.lt
  have hpe' := r.partEnd_le_spanEnd k va
  refine .of_slot (hapart.mono (by omega)) hpe hpe' hcall.mod (fun x hx => ?_) hcall.free ?_ (fun i h1 h2 => ?_) fun hlt => ?_
  · rw [hcall.keeps x (List.mem_cons_of_mem _ hx), hother x]
    rintro rfl
    exact hapart.not_used hx
  · cases k with
    | zero => trivial
    | succ k =>
      rw [Reached, index_pred hpe hpe', hkept _ (index_lt _ _)]
      exact ⟨hval, hcall.reached⟩
  · rw [hkept i h2, hslot i (by omega)]
    exact hready.2.1 i h1 h2
  · rw [hkept _ (index_lt _ _)]
    exact hcall.ready hlt

/-- One entry that is mapped by a block.  Before the last gigabyte of the address space the test for a block does not wrap
around, so that the range goes on to the end of the entry. -/
theorem Extended.of_block (hk : k + 1 ≤ 3) (htop : r.vaEnd ≤ 2 ^ 64 - span 2) (hE : va < r.vaEnd)
    (hmod : s.pnext % 4096 = 0) (hfree : FreePages s.mem s.pnext q used)
    (hready : Ready s.mem s.pnext q (k + 1) t va used) (hb : r.MapsBlock (k + 1) va) {pa : BitVec 64} :
    Extended q used (k + 1) t (r.partEnd k va) (spanEnd (k + 1 + 1) va) s
      ⟨store64 s.mem (t + 8 * index (k + 1) va) (pa ||| pgDescTypeBlock), s.pnext⟩ := by
  obtain ⟨hapart, hlater, -⟩ := hready
  obtain ⟨hflag, -, -, hend⟩ := hb
  have hk2 : k + 1 ≤ 2 := by
    by_contra h
    have hk3 : k + 1 = 3 := by omega
    rw [hk3] at hflag
    cases hflag
  have hpe := lt_partEnd (k := k) hE
  have hpe' := r.partEnd_le_spanEnd k va
  have hlt := r.partEnd_le (k + 1) va
  have hspan : spanEnd (k + 1) va ≤ 2 ^ 64 - span 2 := by
    refine spanEnd_le_of_lt (mod_span_of_le hk2 (by decide)) ?_
    have := spanStart_le (k + 1) va
    omega
  have hfull : r.partEnd k va = spanEnd (k + 1) va := by
    have hpos := span_pos 2
    rw [Nat.mod_eq_of_lt (by omega), Nat.mod_eq_of_lt (by omega)] at hend
    exact Nat.min_eq_right (by omega)
  refine .of_slot hapart hpe hpe' hmod (fun x hx => ?_) (fun x h1 h2 => ?_) ?_ (fun i h1 h2 => ?_) fun hlt => ?_
  · refine store64_slot_frame hapart.aligned (index_lt _ _) ?_
    rintro rfl
    exact hapart.not_used hx
  · dsimp only at h1 ⊢
    rw [store64_slot_frame hapart.aligned (index_lt _ _) (hapart.not_free x h1 h2)]
    exact (hfree x h1 h2).1
  · cases k with
    | zero => trivial
    | succ k =>
      obtain rfl : k = 0 := by omega
      rw [Reached, index_pred hpe hpe', slot_store64]
      refine ⟨?_, trivial⟩
      rw [isValid, BitVec.getLsbD_or]
      exact Bool.or_true _
  · rw [slot_store64_of_ne (by omega)]
    exact hlater i h1 h2
  · omega

theorem Round.extends (hk : k + 1 ≤ 3) (htop : r.vaEnd ≤ 2 ^ 64 - span 2) (hnext : r.LevelExtends q k next)
    (hgrow : Grows next) (hq : q ≤ 2 ^ 48) (hva : r.Begins (k + 1) va) (hround : r.Round attr next k t va s s')
    (hmod : s.pnext % 4096 = 0) (hfree : FreePages s.mem s.pnext q used)
    (hready : Ready s.mem s.pnext q (k + 1) t va used) (hle : s'.pnext ≤ q) :
    Extended q used (k + 1) t (r.partEnd k va) (spanEnd (k + 1 + 1) va) s s' := by
  obtain ⟨hb, rfl⟩ | ⟨-, hs'⟩ := hround
  · exact .of_block hk htop hva.lt hmod hfree hready hb
  · exact hnext.entry hgrow hq hva hmod hfree hready hs' hle

theorem tableMapRange_extends (attr : BitVec 64) (hk : k + 1 ≤ 3) (htop : r.vaEnd ≤ 2 ^ 64 - span 2)
    (hnext : r.LevelExtends q k next) (hgrow : Grows next) (hq : q ≤ 2 ^ 48) :
    r.LevelExtends q (k + 1) (tableMapRange (k + 1) (r.blockFlag (k + 1)) attr next) := by
  intro t va s hva
  refine callPart_rounds (P := r.RestExtends q (k + 1) t) attr hk (fun va s s' hva hround hend used hmod hfree hready hle => ?_)
    (fun va s s₂ s' hva hround hmore hle₂ hrest used hmod hfree hready hle => ?_) hva
  · rw [← partEnd_of_last hend]
    exact hround.extends hk htop hnext hgrow hq hva hmod hfree hready hle
  · have hentry := hround.extends hk htop hnext hgrow hq hva hmod hfree hready (Nat.le_trans (hle₂ hgrow) hle)
    obtain ⟨-, hpart, -, hreg⟩ := partEnd_spanEnd hmore
    have hple := r.partEnd_le_spanEnd (k + 1) va
    have hle₁ := hround.le hgrow
    rw [partEnd_of_more hmore] at hentry
    have hmore := hrest used hentry.mod (fun x h1 h2 => ⟨hentry.free x h1 h2, (hfree x (by omega) h2).2⟩)
      (hentry.ready (by omega)) hle
    rw [hpart, spanEnd_congr hreg] at hmore
    exact hentry.trans hmore

theorem pgMapRange_extends (htop : r.vaEnd ≤ 2 ^ 64 - span 2) (hq : q ≤ 2 ^ 48) {root : Nat}
    (hmod : s.pnext % 4096 = 0) (hfree : FreePages s.mem s.pnext q []) (hready : Ready s.mem s.pnext q 3 root r.va [])
    (hs' : s' = tableMapRange 3 false attr (pudMapRange attr r.flags) root r.start (r.start + (r.vaEnd - r.va)) r.va s)
    (hle : s'.pnext ≤ q) : Extended q [] 3 root r.vaEnd (spanEnd 4 r.va) s s' := by
  have h0 := pteMapRange_grows attr
  have h1 := tableMapRange_extends attr (by decide) htop (pteMapRange_extends attr) h0 hq
  have h1' : Grows (tableMapRange 1 (r.blockFlag 1) attr (pteMapRange attr)) := tableMapRange_grows h0
  have h2 := tableMapRange_extends attr (by decide) htop h1 h1' hq
  have hpart : r.partEnd (2 + 1) r.va = r.vaEnd := Nat.min_eq_left r.window
  have h3 := tableMapRange_extends attr (by decide) htop h2 (tableMapRange_grows h1') hq root r.va s
    ⟨Nat.le_refl _, r.lt, .inl rfl⟩ [] hmod hfree hready
  rw [callPart, hpart, Nat.sub_self, Nat.add_zero] at h3
  rw [hs'] at hle ⊢
  exact h3 hle

/-! ### Shared tables -/

theorem Reached.linked_eq (h : Reached m (k + 2) t b) (hsame : a / span (k + 2) = b / span (k + 2)) :
    ∃ c, linked m (k + 2) t a = linked m (k + 1) c a + 1 ∧ Reached m (k + 1) c b := by
  refine ⟨_, ?_, h.2⟩
  rw [linked, index_of_div_span hsame, if_pos h.1]

theorem Reached.le_linked (h : Reached m 3 t b) :
    (if a / span 3 = b / span 3 then 1 else 0) + (if a / span 2 = b / span 2 then 1 else 0) ≤ linked m 3 t a := by
  by_cases hsame3 : a / span 3 = b / span 3
  · obtain ⟨c, hlinked, hc⟩ := h.linked_eq hsame3
    rw [if_pos hsame3, hlinked]
    by_cases hsame2 : a / span 2 = b / span 2
    · obtain ⟨d, hlinked, -⟩ := hc.linked_eq hsame2
      rw [if_pos hsame2, hlinked]
      exact Nat.add_le_add_right (Nat.le_add_left _ _) _
    · rw [if_neg hsame2]
      exact Nat.le_add_left _ _
  · have hsame2 : a / span 2 ≠ b / span 2 := fun h => hsame3 (div_span_of_le (by decide) h)
    rw [if_neg hsame3, if_neg hsame2]
    exact Nat.zero_le _

/-- The tables for a range `[c, d)` behind `[a, b)`, of which the shared ones are there already. -/
theorem Reached.tablesBelow_le {c d : Nat} (h : Reached m 3 t (b - 1)) (hab : a < b) (hbc : b ≤ c) (hcd : c < d) :
    upperTables a b + tablesBelow 3 c d ≤ upperTables a d + 2 + linked m 3 t c := by
  have h3 := entries_join (k := 3) hab hbc hcd
  have h2 := entries_join (k := 2) hab hbc hcd
  have h1 := looseEnds_le c d
  have hlinked := h.le_linked (a := c)
  have hsum : tablesBelow 3 c d = entries 3 c d + (entries 2 c d + (looseEnds c d + 0)) := rfl
  rw [upperTables, upperTables]
  omega

end EarlyRequest

end QuestOS
