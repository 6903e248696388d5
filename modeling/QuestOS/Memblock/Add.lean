import QuestOS.Memblock.Model

/-!
# Adding a range

A pass of `memblock_add_range` over a sorted array fills the gaps that the regions leave in the
range, one insertion per gap; merging neighbours afterwards does not change the map from addresses
to attributes.
-/

namespace QuestOS

open Regions

variable {max fin idx cnt lo : Nat} {attr : RegionAttr} {p : AddPass} {l : List MemblockRegion}

def gapsIn (fin : Nat) : Nat → List MemblockRegion → Nat
  | base, [] => if base < fin then 1 else 0
  | base, rgn :: rest =>
    if fin ≤ rgn.base then if base < fin then 1 else 0
    else if rgn.fin ≤ base then gapsIn fin base rest
    else (if base < rgn.base then 1 else 0) + gapsIn fin (min rgn.fin fin) rest

theorem gapsIn_le (fin base : Nat) (l : List MemblockRegion) : gapsIn fin base l ≤ l.length + 1 := by
  induction l generalizing base with
  | nil =>
    simp only [gapsIn, List.length_nil]
    split <;> omega
  | cons rgn rest ih =>
    have h1 := ih base
    have h2 := ih (min rgn.fin fin)
    simp only [gapsIn, List.length_cons]
    split_ifs <;> omega

theorem gapsIn_free {base : Nat} (hl : SortedFrom lo l) (hb : base < fin)
    (hfree : ∀ x, base ≤ x → x < fin → lookup l x = none) : gapsIn fin base l = 1 := by
  induction l generalizing lo with
  | nil => simp [gapsIn, hb]
  | cons rgn rest ih =>
    obtain ⟨-, hsize, hrest⟩ := hl
    rw [gapsIn, if_pos hb]
    split
    · rfl
    · rename_i h1
      -- the region starts below the end of the range, so it must end at or below its start
      have h2 : rgn.fin ≤ base := by
        by_contra hlt
        have hx := hfree (Nat.max base rgn.base) (Nat.le_max_left _ _)
          (Nat.max_lt.mpr ⟨hb, by omega⟩)
        rw [lookup_cons, if_pos] at hx
        · cases hx
        · refine ⟨Nat.le_max_right _ _, Nat.max_lt.mpr ⟨by omega, ?_⟩⟩
          simp only [Region.fin]
          omega
      rw [if_pos h2]
      refine ih hrest fun x hx1 hx2 => ?_
      have := hfree x hx1 hx2
      rw [lookup_cons, if_neg (by omega)] at this
      exact this

/-! ### The counting pass -/

private theorem addTail_count (max : Nat) (attr : RegionAttr) (fin idx cnt : Nat) (p : AddPass)
    (rest : List MemblockRegion) :
    ∃ l' p', addTail max false attr fin idx cnt p rest = some (l', p') ∧
      p'.nrNew = p.nrNew + if p.base < fin then 1 else 0 := by
  by_cases h : p.base < fin
  · exact ⟨rest, { p with nrNew := p.nrNew + 1 }, by simp [addTail, h], by simp [h]⟩
  · exact ⟨rest, p, by simp [addTail, h], by simp [h]⟩

theorem addLoop_count (max : Nat) (attr : RegionAttr) (fin idx cnt : Nat) (p : AddPass)
    (l : List MemblockRegion) :
    ∃ l' p', addLoop max false attr fin idx cnt p l = some (l', p') ∧
      p'.nrNew = p.nrNew + gapsIn fin p.base l := by
  induction l generalizing idx p with
  | nil => exact addTail_count max attr fin idx cnt p []
  | cons rgn rest ih =>
    rw [addLoop, gapsIn]
    split
    · exact addTail_count max attr fin idx cnt p (rgn :: rest)
    split
    · obtain ⟨l', p', h1, h2⟩ := ih (idx + 1) p
      exact ⟨_, p', by rw [h1]; rfl, h2⟩
    split
    · obtain ⟨l', p', h1, h2⟩ := ih (idx + 1) { p with nrNew := p.nrNew + 1, base := min rgn.fin fin }
      refine ⟨rgn :: l', p', by simp [h1], ?_⟩
      rw [h2]
      dsimp only
      omega
    · obtain ⟨l', p', h1, h2⟩ := ih (idx + 1) { p with base := min rgn.fin fin }
      refine ⟨rgn :: l', p', by rw [h1]; rfl, ?_⟩
      rw [h2]
      dsimp only
      omega

/-! ### The inserting pass -/

structure Filled (attr : RegionAttr) (base fin lo n : Nat) (l l' : List MemblockRegion) : Prop where
  sorted : SortedFrom lo l'
  length : l'.length = l.length + n
  lookup : ∀ x, lookup l' x = (lookup l x).or (if base ≤ x ∧ x < fin then some attr else none)
  mem : ∀ r ∈ l', r ∈ l ∨ base ≤ r.base ∧ r.fin ≤ fin
  eq_of_zero : n = 0 → l' = l

variable {base base' n : Nat} {l' rest : List MemblockRegion} {rgn : MemblockRegion}

private theorem Filled.refl (hl : SortedFrom lo l) (h : fin ≤ base) : Filled attr base fin lo 0 l l where
  sorted := hl
  length := rfl
  lookup := fun x => by rw [if_neg (by omega), Option.or_none]
  mem := fun _ hr => .inl hr
  eq_of_zero := fun _ => rfl

private theorem Filled.cons (h : Filled attr base' fin rgn.fin n rest l') (hlo : lo ≤ rgn.base)
    (hsize : 0 < rgn.size) (hle : base ≤ base')
    (hiff : ∀ x, ¬ (rgn.base ≤ x ∧ x < rgn.fin) → x < fin → base ≤ x → base' ≤ x) :
    Filled attr base fin lo n (rgn :: rest) (rgn :: l') where
  sorted := ⟨hlo, hsize, h.sorted⟩
  length := by simp only [List.length_cons, h.length]; omega
  lookup := by
    intro x
    rw [lookup_cons, lookup_cons]
    by_cases hx : rgn.base ≤ x ∧ x < rgn.fin
    · rw [if_pos hx, if_pos hx]
      rfl
    · rw [if_neg hx, if_neg hx, h.lookup]
      have : (base' ≤ x ∧ x < fin) ↔ (base ≤ x ∧ x < fin) :=
        ⟨fun h' => ⟨by omega, h'.2⟩, fun h' => ⟨hiff x hx h'.2 h'.1, h'.2⟩⟩
      simp only [this]
  mem := by
    intro r hr
    rcases List.mem_cons.mp hr with rfl | hr
    · exact .inl List.mem_cons_self
    · rcases h.mem r hr with hr | hr
      · exact .inl (List.mem_cons_of_mem _ hr)
      · exact .inr ⟨by omega, hr.2⟩
  eq_of_zero := fun h0 => by rw [h.eq_of_zero h0]

private theorem Filled.piece {m : Nat} (h : Filled attr m fin m n l l') (hl : SortedFrom m l)
    (hlo : lo ≤ base) (hb : base < m) (hm : m ≤ fin) :
    Filled attr base fin lo (n + 1) l (⟨base, m - base, attr⟩ :: l') where
  sorted := ⟨hlo, by dsimp only; omega, h.sorted.mono (by simp only [Region.fin_mk]; omega)⟩
  length := by simp only [List.length_cons, h.length]; omega
  lookup := by
    intro x
    rw [lookup_mk]
    by_cases hx : base ≤ x ∧ x < base + (m - base)
    · rw [if_pos hx, hl.lookup_lt (by omega), if_pos (by omega)]
      rfl
    · rw [if_neg hx, h.lookup]
      have : (m ≤ x ∧ x < fin) ↔ (base ≤ x ∧ x < fin) := by omega
      simp only [this]
  mem := by
    intro r hr
    rcases List.mem_cons.mp hr with rfl | hr
    · exact .inr ⟨Nat.le_refl _, by simp only [Region.fin_mk]; omega⟩
    · rcases h.mem r hr with hr | hr
      · exact .inl hr
      · exact .inr ⟨by omega, hr.2⟩
  eq_of_zero := fun h0 => by omega

private theorem addTail_insert (hl : SortedFrom lo rest) (hlo : lo ≤ p.base ∨ fin ≤ p.base)
    (hrest : ∀ r ∈ rest, fin ≤ r.base) (hroom : cnt + (if p.base < fin then 1 else 0) ≤ max) :
    ∃ l' p', addTail max true attr fin idx cnt p rest = some (l', p') ∧
      p'.nrNew = p.nrNew + (if p.base < fin then 1 else 0) ∧
      p'.totalSize + sizeSum rest = p.totalSize + sizeSum l' ∧
      Filled attr p.base fin lo (if p.base < fin then 1 else 0) rest l' := by
  unfold addTail
  by_cases h : p.base < fin
  · simp only [h, if_true] at hroom ⊢
    have hroom' : ¬ max ≤ cnt := by omega
    rw [if_neg hroom']
    have hs := hl.of_le_base hrest
    refine ⟨_, _, rfl, rfl, ?_, (Filled.refl hs (Nat.le_refl fin)).piece hs (by omega) h (Nat.le_refl fin)⟩
    simp only [AddPass.inserted, sizeSum_cons]
    omega
  · simp only [h, if_false]
    exact ⟨rest, p, rfl, rfl, rfl, Filled.refl hl (by omega)⟩

theorem addLoop_insert (max : Nat) (attr : RegionAttr) (idx cnt : Nat) (p : AddPass)
    (hl : SortedFrom lo l) (hlo : lo ≤ p.base ∨ fin ≤ p.base) (hpf : p.base ≤ fin)
    (hroom : cnt + gapsIn fin p.base l ≤ max) :
    ∃ l' p', addLoop max true attr fin idx cnt p l = some (l', p') ∧
      p'.nrNew = p.nrNew + gapsIn fin p.base l ∧
      p'.totalSize + sizeSum l = p.totalSize + sizeSum l' ∧
      Filled attr p.base fin lo (gapsIn fin p.base l) l l' := by
  induction l generalizing idx cnt p lo with
  | nil => exact addTail_insert hl hlo (by simp) hroom
  | cons rgn rest ih =>
    obtain ⟨hbase, hsize, hrest⟩ := hl
    have hfin : rgn.fin = rgn.base + rgn.size := rfl
    rw [gapsIn] at hroom ⊢
    rw [addLoop]
    split at hroom
    · rename_i h1
      rw [if_pos h1, if_pos h1]
      refine addTail_insert ⟨hbase, hsize, hrest⟩ hlo (fun r hr => ?_) hroom
      rcases List.mem_cons.mp hr with rfl | hr
      · exact h1
      · have := hrest.le_base hr
        omega
    rename_i h1
    rw [if_neg h1, if_neg h1]
    split at hroom
    · rename_i h2
      rw [if_pos h2, if_pos h2]
      obtain ⟨l', p', h3, h4, h5, h6⟩ := ih (idx + 1) cnt p hrest (.inl h2) hpf hroom
      refine ⟨rgn :: l', p', by rw [h3]; rfl, h4, ?_, h6.cons hbase hsize (Nat.le_refl _) (by omega)⟩
      simp only [sizeSum_cons]
      omega
    rename_i h2
    rw [if_neg h2, if_neg h2]
    have hlo' : rgn.fin ≤ min rgn.fin fin ∨ fin ≤ min rgn.fin fin := by omega
    by_cases h3 : p.base < rgn.base
    · rw [if_pos h3] at hroom
      have hroom' : ¬ max ≤ cnt := by omega
      simp only [if_pos h3, if_true, if_neg hroom']
      obtain ⟨l', p', h4, h5, h6, h7⟩ := ih (idx + 2) (cnt + 1)
        { ({ p with nrNew := p.nrNew + 1 } : AddPass).inserted idx (rgn.base - p.base) with
          base := min rgn.fin fin } hrest hlo' (Nat.min_le_right _ _) (by dsimp only; omega)
      have hkeep : Filled attr rgn.base fin rgn.base _ (rgn :: rest) (rgn :: l') :=
        h7.cons (Nat.le_refl _) hsize (by dsimp only; omega) (by dsimp only; omega)
      refine ⟨⟨p.base, rgn.base - p.base, attr⟩ :: rgn :: l', p', by rw [h4]; rfl, ?_, ?_, ?_⟩
      · rw [h5]
        simp only [AddPass.inserted]
        omega
      · simp only [AddPass.inserted, sizeSum_cons] at h6 ⊢
        omega
      · have := hkeep.piece ⟨Nat.le_refl _, hsize, hrest⟩ (show lo ≤ p.base by omega) h3 (by omega)
        rwa [Nat.add_comm] at this
    · rw [if_neg h3] at hroom
      simp only [if_neg h3]
      obtain ⟨l', p', h4, h5, h6, h7⟩ := ih (idx + 1) cnt { p with base := min rgn.fin fin } hrest hlo'
        (Nat.min_le_right _ _) (by dsimp only; omega)
      have hkeep : Filled attr p.base fin lo _ (rgn :: rest) (rgn :: l') :=
        h7.cons hbase hsize (by dsimp only; omega) (by dsimp only; omega)
      refine ⟨rgn :: l', p', by rw [h4]; rfl, by rw [h5]; dsimp only; omega, ?_, by simpa using hkeep⟩
      simp only [sizeSum_cons] at h6 ⊢
      omega

/-! ### Merging -/

/-- `memblock_merge_regions` never meets its `BUG_ON` on a sorted array, and merging keeps the map. -/
theorem mergeLoop_spec (k : Nat) (hl : SortedFrom lo l) :
    ∃ l', mergeLoop k l = some l' ∧ SortedFrom lo l' ∧ (∀ x, lookup l' x = lookup l x) ∧
      l'.length ≤ l.length ∧ sizeSum l' = sizeSum l ∧ finFrom lo l' = finFrom lo l := by
  induction k generalizing lo l with
  | zero => exact ⟨l, by simp [mergeLoop], hl, fun _ => rfl, Nat.le_refl _, rfl, rfl⟩
  | succ k ih =>
    match l, hl with
    | [], hl => exact ⟨[], rfl, hl, fun _ => rfl, Nat.le_refl _, rfl, rfl⟩
    | [r], hl => exact ⟨[r], rfl, hl, fun _ => rfl, Nat.le_refl _, rfl, rfl⟩
    | this :: next :: rest, ⟨h1, h2, h3, h4, h5⟩ =>
      rw [mergeLoop]
      split
      · rw [if_neg (by omega)]
        obtain ⟨l', h6, h7, h8, h9, h10, h11⟩ := ih (l := next :: rest) ⟨h3, h4, h5⟩
        refine ⟨this :: l', by rw [h6]; rfl, ⟨h1, h2, h7⟩, fun x => ?_, ?_, ?_, h11⟩
        · rw [lookup_cons, lookup_cons (r := this), h8]
        · simpa using h9
        · rw [sizeSum_cons, sizeSum_cons, h10]
      · rename_i hsame
        simp only [not_or, not_not] at hsame
        obtain ⟨hfin, hnid, hflags⟩ := hsame
        have htag : this.tag = next.tag := by
          cases ht : this.tag
          cases hn : next.tag
          simp_all
        have hmerged : SortedFrom lo ({ this with size := this.size + next.size } :: rest) := by
          refine ⟨h1, by dsimp only; omega, ?_⟩
          have : ({ this with size := this.size + next.size } : MemblockRegion).fin = next.fin := by
            simp only [Region.fin] at *
            omega
          rwa [this]
        obtain ⟨l', h6, h7, h8, h9, h10, h11⟩ := ih hmerged
        refine ⟨l', h6, h7, fun x => ?_, ?_, ?_, ?_⟩
        · obtain ⟨tb, ts, tt⟩ := this
          obtain ⟨nb, ns, nt⟩ := next
          rw [h8]
          dsimp only [Region.fin] at hfin htag ⊢
          subst htag
          rw [← hfin]
          exact lookup_split.symm
        · simp only [List.length_cons] at h9 ⊢
          omega
        · rw [h10]
          simp only [sizeSum_cons]
          omega
        · rw [h11]
          simp only [finFrom, Region.fin] at hfin ⊢
          congr 1
          omega

theorem memblockMergeRegions_spec (startRgn endRgn : Nat) (hl : SortedFrom lo l) :
    ∃ l', memblockMergeRegions startRgn endRgn l = some l' ∧ SortedFrom lo l' ∧
      (∀ x, lookup l' x = lookup l x) ∧ l'.length ≤ l.length ∧ sizeSum l' = sizeSum l ∧
      finFrom lo l' = finFrom lo l := by
  have hsplit : l.take (startRgn - 1) ++ l.drop (startRgn - 1) = l := List.take_append_drop _ _
  generalize hA : l.take (startRgn - 1) = A at hsplit
  generalize hB : l.drop (startRgn - 1) = B at hsplit
  subst hsplit
  rw [sortedFrom_append] at hl
  obtain ⟨l', h1, h2, h3, h4, h5, h6⟩ :=
    mergeLoop_spec (min endRgn ((A ++ B).length - 1) - (startRgn - 1)) hl.2
  refine ⟨A ++ l', ?_, sortedFrom_append.mpr ⟨hl.1, h2⟩, fun x => ?_, ?_, ?_, ?_⟩
  · simp only [memblockMergeRegions, hA, hB, h1, Option.map_some]
  · rw [lookup_append, lookup_append, h3]
  · simp only [List.length_append]
    omega
  · rw [sizeSum_append, sizeSum_append, h5]
  · rw [finFrom_append, finFrom_append, h6]

/-! ### `memblock_add_range` on an array with room -/

structure MemblockType.Wf (t : MemblockType) : Prop where
  sorted : SortedFrom 0 t.regions
  bound : finFrom 0 t.regions ≤ physAddrMax
  cnt_le : t.cnt ≤ t.max
  max_ge : 2 ≤ t.max

structure Added (attr : RegionAttr) (base fin n : Nat) (t t' : MemblockType) : Prop where
  wf : t'.Wf
  max : t'.max = t.max
  array : t'.array = t.array
  cnt_le : t'.cnt ≤ t.cnt + n
  lookup : ∀ x, lookup t'.regions x =
    (lookup t.regions x).or (if base ≤ x ∧ x < fin then some attr else none)
  totalSize : t.totalSize = sizeSum t.regions → t'.totalSize = sizeSum t'.regions

theorem addInsert_spec (attr : RegionAttr) {t : MemblockType} (ht : t.Wf) (hb : base ≤ fin) (hfin : fin ≤ physAddrMax)
    (hroom : t.cnt + gapsIn fin base t.regions ≤ t.max) :
    ∃ t', addInsert attr base fin t = some t' ∧ Added attr base fin (gapsIn fin base t.regions) t t' := by
  obtain ⟨l, p, h1, h2, h3, h4⟩ := addLoop_insert t.max attr 0 t.cnt ⟨base, 0, none, 0, t.totalSize⟩ ht.sorted (.inl (Nat.zero_le _)) hb hroom
  rw [addInsert, h1]
  dsimp only at h2 h3 h4 ⊢
  split
  · rename_i h0
    -- nothing was inserted: the range is covered already
    have hz : gapsIn fin base t.regions = 0 := by omega
    obtain rfl := h4.eq_of_zero hz
    exact ⟨t, rfl, ht, rfl, rfl, Nat.le_add_right _ _, h4.lookup, id⟩
  · obtain ⟨l', h5, h6, h7, h8, h9, h10⟩ :=
      memblockMergeRegions_spec (p.startRgn.getD 0) p.endRgn h4.sorted
    rw [h5]
    refine ⟨_, rfl, ⟨h6, ?_, ?_, ht.max_ge⟩, rfl, rfl, ?_, fun x => ?_, fun htot => ?_⟩
    · dsimp only
      rw [h10]
      refine finFrom_le (Nat.zero_le _) fun r hr => ?_
      rcases h4.mem r hr with hr | hr
      · exact Nat.le_trans (ht.sorted.fin_le_finFrom hr) ht.bound
      · omega
    · have := h4.length
      simp only [MemblockType.cnt] at *
      omega
    · have := h4.length
      simp only [MemblockType.cnt] at *
      omega
    · exact (h7 x).trans (h4.lookup x)
    · dsimp only
      omega

end QuestOS
