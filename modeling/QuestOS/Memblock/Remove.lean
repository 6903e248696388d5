import Mathlib.Data.List.Induction
import QuestOS.Memblock.Add

/-!
# Removing a range

`memblock_isolate_range` cuts the regions that cross the ends of the range, which leaves the map
unchanged, and returns the block of regions inside the range; `memblock_remove_range` erases that
block.
-/

namespace QuestOS

open Regions

variable {max base fin fuel idx cnt s e lo : Nat} {l : List MemblockRegion}

/-- The array `l'` after `memblock_isolate_range` on `l`: the regions below the range, those inside,
those above, and the indices of the middle part. -/
structure Isolated (base fin lo idx s e : Nat) (l : List MemblockRegion)
    (q : List MemblockRegion × Nat × Nat) (A B C : List MemblockRegion) : Prop where
  eq : q.1 = A ++ B ++ C
  below : ∀ r ∈ A, r.fin ≤ base
  inside : ∀ r ∈ B, base ≤ r.base ∧ r.fin ≤ fin
  above : ∀ r ∈ C, fin ≤ r.base
  sorted : SortedFrom lo q.1
  lookup : ∀ x, lookup q.1 x = lookup l x
  length : q.1.length ≤ l.length + 2
  kept : A.length + C.length ≤ l.length + 1
  sizeSum : sizeSum q.1 = sizeSum l
  finFrom : finFrom lo q.1 = finFrom lo l
  empty : B = [] → q.2 = (s, e)
  index : B ≠ [] → q.2 = (if e = 0 then idx + A.length else s, idx + A.length + B.length)

variable {q : List MemblockRegion × Nat × Nat} {A B C rest : List MemblockRegion} {rgn : MemblockRegion}

private theorem Isolated.stop (hl : SortedFrom lo l) (h : ∀ r ∈ l, fin ≤ r.base) :
    Isolated base fin lo idx s e l (l, s, e) [] [] l where
  eq := rfl
  below := by simp
  inside := by simp
  above := h
  sorted := hl
  lookup := fun _ => rfl
  length := Nat.le_add_right _ _
  kept := by simp
  sizeSum := rfl
  finFrom := rfl
  empty := fun _ => rfl
  index := by simp

private theorem Isolated.below_cons (h : Isolated base fin rgn.fin (idx + 1) s e rest q A B C)
    (hlo : lo ≤ rgn.base) (hsize : 0 < rgn.size) (hb : rgn.fin ≤ base) :
    Isolated base fin lo idx s e (rgn :: rest) (rgn :: q.1, q.2) (rgn :: A) B C where
  eq := by rw [h.eq]; rfl
  below := by
    intro r hr
    rcases List.mem_cons.mp hr with rfl | hr
    · exact hb
    · exact h.below r hr
  inside := h.inside
  above := h.above
  sorted := ⟨hlo, hsize, h.sorted⟩
  lookup := fun x => by rw [lookup_cons, lookup_cons (r := rgn), h.lookup]
  length := by
    have := h.length
    simp only [List.length_cons]
    omega
  kept := by
    have := h.kept
    simp only [List.length_cons] at *
    omega
  sizeSum := by rw [sizeSum_cons, sizeSum_cons, h.sizeSum]
  finFrom := h.finFrom
  empty := h.empty
  index := fun hB => by
    rw [h.index hB]
    simp only [List.length_cons, Prod.mk.injEq]
    constructor
    · split <;> omega
    · omega

/-- A region inside the range is recorded; after it `*end_rgn` is not 0, so that `*start_rgn` stays. -/
private theorem Isolated.inside_cons
    (h : Isolated base fin rgn.fin (idx + 1) (if e = 0 then idx else s) (idx + 1) rest q [] B C)
    (hlo : lo ≤ rgn.base) (hsize : 0 < rgn.size) (h1 : base ≤ rgn.base) (h2 : rgn.fin ≤ fin) :
    Isolated base fin lo idx s e (rgn :: rest) (rgn :: q.1, q.2) [] (rgn :: B) C where
  eq := by rw [h.eq]; rfl
  below := by simp
  inside := by
    intro r hr
    rcases List.mem_cons.mp hr with rfl | hr
    · exact ⟨h1, h2⟩
    · exact h.inside r hr
  above := h.above
  sorted := ⟨hlo, hsize, h.sorted⟩
  lookup := fun x => by rw [lookup_cons, lookup_cons (r := rgn), h.lookup]
  length := by
    have := h.length
    simp only [List.length_cons]
    omega
  kept := by
    have := h.kept
    simp only [List.length_cons, List.length_nil] at *
    omega
  sizeSum := by rw [sizeSum_cons, sizeSum_cons, h.sizeSum]
  finFrom := h.finFrom
  empty := by simp
  index := by
    intro _
    by_cases hB : B = []
    · rw [h.empty hB, hB]
      rfl
    · rw [h.index hB]
      simp only [List.length_cons, List.length_nil, Nat.add_zero, Nat.succ_ne_zero, if_false,
        Prod.mk.injEq, true_and]
      omega

private theorem le_base_of_cons (hl : SortedFrom lo (rgn :: rest)) {m : Nat} (hm : m ≤ rgn.base) :
    ∀ r ∈ rgn :: rest, m ≤ r.base := by
  intro r hr
  exact Nat.le_trans hm ((show SortedFrom rgn.base (rgn :: rest) from ⟨Nat.le_refl _, hl.2⟩).le_base hr)

private theorem Isolated.of_cut {l₁ : List MemblockRegion} (h : Isolated base fin lo idx s e l₁ q A B C)
    (hlookup : ∀ x, Regions.lookup l₁ x = Regions.lookup l x)
    (hsum : Regions.sizeSum l₁ = Regions.sizeSum l) (hfin : Regions.finFrom lo l₁ = Regions.finFrom lo l)
    (hlen : q.1.length ≤ l.length + 2) (hkept : A.length + C.length ≤ l.length + 1) :
    Isolated base fin lo idx s e l q A B C :=
  { h with
    lookup := fun x => (h.lookup x).trans (hlookup x)
    length := hlen
    kept := hkept
    sizeSum := h.sizeSum.trans hsum
    finFrom := h.finFrom.trans hfin }

private theorem cut_eq (lo : Nat) (rest : List MemblockRegion) {m : Nat} (h1 : rgn.base < m) (h2 : m < rgn.fin) :
    (∀ x, lookup (⟨rgn.base, m - rgn.base, rgn.tag⟩ :: ⟨m, rgn.size - (m - rgn.base), rgn.tag⟩ :: rest) x =
        lookup (rgn :: rest) x) ∧
      Regions.sizeSum (⟨rgn.base, m - rgn.base, rgn.tag⟩ ::
        ⟨m, rgn.size - (m - rgn.base), rgn.tag⟩ :: rest) = Regions.sizeSum (rgn :: rest) ∧
      Regions.finFrom lo (⟨rgn.base, m - rgn.base, rgn.tag⟩ ::
        ⟨m, rgn.size - (m - rgn.base), rgn.tag⟩ :: rest) = Regions.finFrom lo (rgn :: rest) := by
  obtain ⟨b, n, t⟩ := rgn
  simp only [Region.fin_mk] at h1 h2 ⊢
  obtain ⟨k, rfl⟩ : ∃ k, m = b + k := ⟨m - b, by omega⟩
  have hk : b + k - b = k := by omega
  rw [hk]
  refine ⟨fun x => ?_, ?_, ?_⟩
  · rw [lookup_split, show k + (n - k) = n by omega]
  · simp only [sizeSum_cons]
    omega
  · simp only [Regions.finFrom, Region.fin_mk]
    congr 1
    omega

/-- The loop once no region reaches below the range: at most one split, at the upper end. -/
theorem isolateLoop_upper (max fuel idx cnt s e : Nat) (hl : SortedFrom lo l)
    (hbase : ∀ r ∈ l, base ≤ r.base) (hbf : base < fin) (hfuel : l.length + 2 ≤ fuel)
    (hroom : cnt < max) :
    ∃ q B C, isolateLoop max base fin fuel idx cnt s e l = some q ∧ q.1.length ≤ l.length + 1 ∧
      C.length ≤ l.length ∧ Isolated base fin lo idx s e l q [] B C := by
  induction l generalizing lo fuel idx s e with
  | nil =>
    obtain ⟨fuel, rfl⟩ : ∃ f, fuel = f + 1 := ⟨fuel - 1, by omega⟩
    exact ⟨_, [], [], rfl, Nat.zero_le _, Nat.le_refl _, .stop hl (by simp)⟩
  | cons rgn rest ih =>
    simp only [List.length_cons] at hfuel
    obtain ⟨fuel, rfl⟩ : ∃ f, fuel = f + 1 := ⟨fuel - 1, by omega⟩
    obtain ⟨hb, hbrest⟩ := List.forall_mem_cons.mp hbase
    obtain ⟨hlo, hsize, hrest⟩ := id hl
    have hfin : rgn.fin = rgn.base + rgn.size := rfl
    rw [isolateLoop]
    split
    · rename_i h1
      exact ⟨_, [], _, rfl, Nat.le_succ _, Nat.le_refl _, .stop hl (le_base_of_cons hl h1)⟩
    rename_i h1
    rw [if_neg (show ¬ rgn.fin ≤ base by omega), if_neg (show ¬ rgn.base < base by omega)]
    split
    · rename_i h2
      rw [if_neg (show ¬ max ≤ cnt by omega)]
      -- the lower half is inside the range and the upper half ends the loop
      obtain ⟨fuel, rfl⟩ : ∃ f, fuel = f + 1 + 1 := ⟨fuel - 2, by omega⟩
      have hupper : SortedFrom fin (⟨fin, rgn.size - (fin - rgn.base), rgn.tag⟩ :: rest) := by
        refine ⟨Nat.le_refl _, by dsimp only; omega, ?_⟩
        have : fin + (rgn.size - (fin - rgn.base)) = rgn.fin := by omega
        rw [Region.fin_mk, this]
        exact hrest
      have hend : rgn.base + (fin - rgn.base) = fin := by omega
      have hlow : (⟨rgn.base, fin - rgn.base, rgn.tag⟩ : MemblockRegion).fin = fin := hend
      obtain ⟨hc1, hc2, hc3⟩ := cut_eq lo rest (Nat.lt_of_not_le h1) h2
      rw [isolateLoop, if_neg (by dsimp only; omega), if_neg (by rw [hlow]; omega),
        if_neg (by dsimp only; omega), if_neg (by rw [hlow]; omega), isolateLoop,
        if_pos (Nat.le_refl _)]
      refine ⟨_, [⟨rgn.base, fin - rgn.base, rgn.tag⟩],
        ⟨fin, rgn.size - (fin - rgn.base), rgn.tag⟩ :: rest, rfl, by simp, by simp, ?_⟩
      have hstop : Isolated base fin (⟨rgn.base, fin - rgn.base, rgn.tag⟩ : MemblockRegion).fin (idx + 1)
          (if e = 0 then idx else s) (idx + 1) _ _ [] [] _ :=
        .stop (l := ⟨fin, rgn.size - (fin - rgn.base), rgn.tag⟩ :: rest) (by rw [hlow]; exact hupper)
          (le_base_of_cons hupper (Nat.le_refl _))
      exact (hstop.inside_cons hlo (by dsimp only; omega) hb (Nat.le_of_eq hlow)).of_cut hc1 hc2 hc3 (by simp)
        (by simp)
    · rename_i h2
      obtain ⟨q, B, C, h3, h4, h5, h6⟩ := ih fuel (idx + 1) (if e = 0 then idx else s) (idx + 1) hrest hbrest
        (by omega)
      refine ⟨_, rgn :: B, C, by rw [h3]; rfl, by simpa using h4, ?_, h6.inside_cons hlo hsize hb (by omega)⟩
      simp only [List.length_cons]
      omega

theorem isolateLoop_spec (max fuel idx cnt s e : Nat) (hl : SortedFrom lo l) (hbf : base < fin)
    (hfuel : l.length + 3 ≤ fuel) (hroom : cnt + 2 ≤ max) :
    ∃ q A B C, isolateLoop max base fin fuel idx cnt s e l = some q ∧
      Isolated base fin lo idx s e l q A B C := by
  induction l generalizing lo fuel idx with
  | nil =>
    obtain ⟨fuel, rfl⟩ : ∃ f, fuel = f + 1 := ⟨fuel - 1, by omega⟩
    exact ⟨_, [], [], [], rfl, .stop hl (by simp)⟩
  | cons rgn rest ih =>
    simp only [List.length_cons] at hfuel
    obtain ⟨hlo, hsize, hrest⟩ := id hl
    have hfin : rgn.fin = rgn.base + rgn.size := rfl
    by_cases hbelow : base ≤ rgn.base
    · obtain ⟨q, B, C, h1, -, -, h2⟩ := isolateLoop_upper max fuel idx cnt s e hl
        (le_base_of_cons hl hbelow) hbf (by simp only [List.length_cons]; omega) (by omega)
      exact ⟨q, [], B, C, h1, h2⟩
    obtain ⟨fuel, rfl⟩ : ∃ f, fuel = f + 1 := ⟨fuel - 1, by omega⟩
    rw [isolateLoop, if_neg (show ¬ fin ≤ rgn.base by omega)]
    split
    · rename_i h1
      obtain ⟨q, A, B, C, h2, h3⟩ := ih fuel (idx + 1) hrest (by omega)
      exact ⟨_, rgn :: A, B, C, by rw [h2]; rfl, h3.below_cons hlo hsize h1⟩
    · rename_i h1
      rw [if_pos (show rgn.base < base by omega), if_neg (show ¬ max ≤ cnt by omega)]
      have hlow : (⟨rgn.base, base - rgn.base, rgn.tag⟩ : MemblockRegion).fin = base := by
        simp only [Region.fin_mk]
        omega
      have hupper : SortedFrom base (⟨base, rgn.size - (base - rgn.base), rgn.tag⟩ :: rest) := by
        refine ⟨Nat.le_refl _, by dsimp only; omega, ?_⟩
        have : base + (rgn.size - (base - rgn.base)) = rgn.fin := by omega
        rw [Region.fin_mk, this]
        exact hrest
      obtain ⟨q, B, C, h2, h3, h4, h5⟩ := isolateLoop_upper max fuel (idx + 1) (cnt + 1) s e
        (hupper.mono (Nat.le_of_eq hlow)) (le_base_of_cons hupper (Nat.le_refl _)) hbf
        (by simp only [List.length_cons]; omega) (by omega)
      obtain ⟨hc1, hc2, hc3⟩ := cut_eq lo rest (show rgn.base < base by omega)
        (Nat.lt_of_not_le h1)
      refine ⟨_, [⟨rgn.base, base - rgn.base, rgn.tag⟩], B, C, by rw [h2]; rfl, ?_⟩
      simp only [List.length_cons] at h3 h4
      refine (h5.below_cons hlo (by dsimp only; omega) (Nat.le_of_eq hlow)).of_cut hc1 hc2 hc3 ?_ ?_
      · simp only [List.length_cons]
        omega
      · simp only [List.length_cons, List.length_nil]
        omega

/-! ### `memblock_remove_range` on an array with room -/

theorem removeLoop_append (t : MemblockType) (h : t.regions = A ++ B ++ C) :
    removeLoop A.length B.length t = { t with regions := A ++ C, totalSize := t.totalSize - sizeSum B } := by
  induction B using List.reverseRecOn generalizing t C with
  | nil =>
    have hr : t.regions = A ++ C := by simpa using h
    simp [removeLoop, ← hr]
  | append_singleton B r ih =>
    -- the last region of the block is erased first
    have hr : t.regions = A ++ B ++ r :: C := by simpa using h
    have hget : t.regions[A.length + B.length]? = some r := by
      rw [hr, List.getElem?_append_right (by simp), List.length_append, Nat.sub_self]
      rfl
    have herase : t.regions.eraseIdx (A.length + B.length) = A ++ B ++ C := by
      rw [hr, List.eraseIdx_append_of_length_le (by simp), List.length_append, Nat.sub_self]
      rfl
    rw [List.length_append, List.length_singleton, removeLoop, ih _ herase]
    simp only [memblockRemoveRegion, hget, Option.map_some, Option.getD_some, sizeSum_append,
      sizeSum_cons, sizeSum_nil, Nat.zero_add, Nat.sub_sub, Nat.add_comm r.size]

structure Removed (base fin : Nat) (t t' : MemblockType) : Prop where
  wf : t'.Wf
  max : t'.max = t.max
  array : t'.array = t.array
  cnt_le : t'.cnt ≤ t.cnt + 1
  lookup : ∀ x, lookup t'.regions x = if base ≤ x ∧ x < fin then none else lookup t.regions x
  totalSize : t.totalSize = sizeSum t.regions → t'.totalSize = sizeSum t'.regions

private theorem Isolated.lookup_erase (h : Isolated base fin lo idx s e l q A B C) (x : Nat) :
    Regions.lookup (A ++ C) x = if base ≤ x ∧ x < fin then none else Regions.lookup l x := by
  rw [← h.lookup, h.eq, lookup_append, lookup_append, lookup_append]
  by_cases hx : base ≤ x ∧ x < fin
  · have hA : Regions.lookup A x = none := lookup_eq_none_iff.mpr fun r hr => by
      have := h.below r hr
      omega
    have hC : Regions.lookup C x = none := lookup_eq_none_iff.mpr fun r hr => by
      have := h.above r hr
      omega
    rw [if_pos hx, hA, hC]
    rfl
  · have hB : Regions.lookup B x = none := lookup_eq_none_iff.mpr fun r hr => by
      have := h.inside r hr
      omega
    rw [if_neg hx, hB, Option.or_none]

/-- What the two loops of `memblock_remove_range` do to an array with room for two more entries. -/
theorem isolateLoop_removeLoop {t : MemblockType} (ht : t.Wf) (hbf : base < fin) (hroom : t.cnt + 2 ≤ t.max) :
    ∃ q, isolateLoop t.max base fin (t.cnt + 3) 0 t.cnt 0 0 t.regions = some q ∧
      Removed base fin t (removeLoop q.2.1 (q.2.2 - q.2.1) { t with regions := q.1 }) := by
  obtain ⟨q, A, B, C, h1, h2⟩ := isolateLoop_spec t.max (t.cnt + 3) 0 t.cnt 0 0 ht.sorted hbf
    (Nat.le_refl _) hroom
  refine ⟨q, h1, ?_⟩
  have hloop : removeLoop q.2.1 (q.2.2 - q.2.1) { t with regions := q.1 } =
      { t with regions := A ++ C, totalSize := t.totalSize - sizeSum B } := by
    by_cases hB : B = []
    · rw [h2.empty hB, Nat.sub_self]
      simp [removeLoop, h2.eq, hB]
    · rw [h2.index hB, if_pos rfl, Nat.zero_add, Nat.add_sub_cancel_left]
      exact removeLoop_append { t with regions := q.1 } h2.eq
  have hsum : sizeSum t.regions = sizeSum (A ++ C) + sizeSum B := by
    rw [← h2.sizeSum, h2.eq]
    simp only [sizeSum_append]
    omega
  have hsorted : SortedFrom 0 (A ++ C) := (h2.eq ▸ h2.sorted).drop_middle
  have hcnt : (A ++ C).length ≤ t.regions.length + 1 := by
    rw [List.length_append]
    exact h2.kept
  rw [hloop]
  refine ⟨⟨hsorted, ?_, ?_, ht.max_ge⟩, rfl, rfl, hcnt, h2.lookup_erase, fun htot => ?_⟩
  · refine finFrom_le (Nat.zero_le _) fun r hr => Nat.le_trans ?_ ht.bound
    rw [← h2.finFrom]
    refine h2.sorted.fin_le_finFrom ?_
    rw [h2.eq]
    rcases List.mem_append.mp hr with hr | hr
    · exact List.mem_append_left _ (List.mem_append_left _ hr)
    · exact List.mem_append_right _ hr
  · simp only [MemblockType.cnt] at hroom ⊢
    omega
  · dsimp only
    omega

end QuestOS
