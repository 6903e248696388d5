import QuestOS.Memblock.Grow

/-!
# Allocating and freeing

The interface of the allocator in terms of the addresses it holds for its callers: an allocation adds
a block of free memory to them, and freeing a block removes it.  Both may move the array of reserved
regions, which is held for nobody.
-/

namespace QuestOS

open Regions

variable {mb mb' mb₁ : Memblock} {base size start x : Nat}

/-- The array is none of the addresses of a range that the array stays away from. -/
theorem Grows.not_inArray (hg : Grows base size mb mb') (hps : pageSize ≤ base)
    (hold : ∀ x, base ≤ x → x < base + size → ¬ mb.InArray x) :
    ∀ x, base ≤ x → x < base + size → ¬ mb'.InArray x := by
  intro x hx1 hx2 hx
  rcases hg.fresh x hx with h | h
  · exact hold x hx1 hx2 h
  · exact h.2 hps ⟨hx1, hx2⟩

theorem Grows.forget (hg : Grows base size mb mb') : Grows 0 0 mb mb' :=
  { hg with
    fresh := fun x hx => (hg.fresh x hx).imp_right fun h => ⟨h.1, fun h0 => absurd h0 (by decide)⟩ }

structure Allocated (c size : Nat) (mb mb' : Memblock) : Prop where
  wf : mb'.Wf
  memory : mb'.memory = mb.memory
  bottomUp : mb'.bottomUp = mb.bottomUp
  currentLimit : mb'.currentLimit = mb.currentLimit
  ge : pageSize ≤ c
  free : mb.Free c size
  held : ∀ x, mb'.Held x ↔ mb.Held x ∨ c ≤ x ∧ x < c + size

structure Freed (base size : Nat) (mb mb' : Memblock) : Prop where
  wf : mb'.Wf
  memory : mb'.memory = mb.memory
  bottomUp : mb'.bottomUp = mb.bottomUp
  currentLimit : mb'.currentLimit = mb.currentLimit
  held : ∀ x, mb'.Held x ↔ mb.Held x ∧ ¬ (base ≤ x ∧ x < base + size)

theorem Memblock.Free.not_reserved (h : mb.Free base size) (h1 : base ≤ x) (h2 : x < base + size) :
    ¬ mb.Reserved x := by
  rw [Memblock.Reserved, h.lookup x h1 h2]
  exact Bool.false_ne_true

/-- The array keeps away from a range to which it may not be moved: a free range stays free. -/
theorem Grows.lookup_none (hg : Grows base size mb mb₁) (hmb : mb.Wf) (hps : pageSize ≤ base)
    (hfree : mb.Free base size) (h1 : base ≤ x) (h2 : x < base + size) :
    Regions.lookup mb₁.reserved.regions x = none := by
  have hx : ¬ mb₁.InArray x := hg.not_inArray hps
    (fun y hy1 hy2 hy => hfree.not_reserved hy1 hy2 (hmb.array y hy).1) x h1 h2
  by_contra hne
  have hres : mb₁.Reserved x := Option.ne_none_iff_isSome.mp hne
  exact hfree.not_reserved h1 h2 ((hg.held x).mp ⟨hres, hx⟩).1

theorem inArray_congr {t : MemblockType} (harr : t.array = mb.reserved.array) (hmax : t.max = mb.reserved.max)
    (x : Nat) : ({ mb with reserved := t } : Memblock).InArray x ↔ mb.InArray x := by
  simp only [Memblock.InArray, harr, hmax]

theorem Added.allocated {t : MemblockType} {attr : RegionAttr} (ha : Added attr base (base + size) 1 mb.reserved t)
    (hmb : mb.Wf) (hps : pageSize ≤ base) (hfree : mb.Free base size) :
    Allocated base size mb { mb with reserved := t } := by
  have hin := inArray_congr ha.array ha.max
  have hres : ∀ x, ({ mb with reserved := t } : Memblock).Reserved x ↔
      mb.Reserved x ∨ base ≤ x ∧ x < base + size := by
    intro x
    by_cases hx : base ≤ x ∧ x < base + size <;>
      simp [Memblock.Reserved, ha.lookup, hx]
  refine ⟨⟨ha.wf, hmb.limit, fun x hx => ?_⟩, rfl, rfl, rfl, hps, hfree, fun x => ?_⟩
  · obtain ⟨h1, h2⟩ := hmb.array x ((hin x).mp hx)
    exact ⟨(hres x).mpr (.inl h1), h2⟩
  · rw [Memblock.Held, hres, hin]
    constructor
    · rintro ⟨h1 | h1, h2⟩
      · exact .inl ⟨h1, h2⟩
      · exact .inr h1
    · rintro (h1 | h1)
      · exact ⟨.inl h1.1, h1.2⟩
      · exact ⟨.inr h1, fun h2 => hfree.not_reserved h1.1 h1.2 (hmb.array x h2).1⟩

theorem Removed.freed {t : MemblockType} (hr : Removed base (base + size) mb.reserved t) (hmb : mb.Wf)
    (harray : ∀ x, base ≤ x → x < base + size → ¬ mb.InArray x) :
    Freed base size mb { mb with reserved := t } := by
  have hin := inArray_congr hr.array hr.max
  have hres : ∀ x, ({ mb with reserved := t } : Memblock).Reserved x ↔
      mb.Reserved x ∧ ¬ (base ≤ x ∧ x < base + size) := by
    intro x
    simp only [Memblock.Reserved, hr.lookup]
    split <;> simp_all
  refine ⟨⟨hr.wf, hmb.limit, fun x hx => ?_⟩, rfl, rfl, rfl, fun x => ?_⟩
  · have hx' := (hin x).mp hx
    obtain ⟨h1, h2⟩ := hmb.array x hx'
    exact ⟨(hres x).mpr ⟨h1, fun h3 => harray x h3.1 h3.2 hx'⟩, h2⟩
  · rw [Memblock.Held, hres, hin, Memblock.Held]
    exact and_right_comm

theorem Grows.allocated (hg : Grows base size mb mb₁) (ha : Allocated base size mb₁ mb') (hfree : mb.Free base size) :
    Allocated base size mb mb' where
  wf := ha.wf
  memory := ha.memory.trans hg.memory
  bottomUp := ha.bottomUp.trans hg.bottomUp
  currentLimit := ha.currentLimit.trans hg.currentLimit
  ge := ha.ge
  free := hfree
  held := fun x => (ha.held x).trans (or_congr_left (hg.held x))

theorem Grows.freed (hg : Grows base size mb mb₁) (hf : Freed base size mb₁ mb') : Freed base size mb mb' where
  wf := hf.wf
  memory := hf.memory.trans hg.memory
  bottomUp := hf.bottomUp.trans hg.bottomUp
  currentLimit := hf.currentLimit.trans hg.currentLimit
  held := fun x => (hf.held x).trans (and_congr_left' (hg.held x))

theorem memblockReserve_spec (nid : Int) (flags : Nat) (hmb : mb.Wf) (hps : pageSize ≤ base)
    (hfree : mb.Free base size) :
    ∃ mb' ret, memblockReserve base size nid flags mb = some (mb', ret) ∧
      (ret = negEnomem ∧ Grows 0 0 mb mb' ∨ ret = 0 ∧ Allocated base size mb mb') := by
  rcases Nat.eq_zero_or_pos size with rfl | hsize
  · refine ⟨mb, 0, ?_, .inr ⟨rfl, hmb, rfl, rfl, rfl, hps, hfree, fun x => ?_⟩⟩
    · rw [memblockReserve, memblockAddRange, addRange_zero]
    · exact ⟨.inl, fun h => h.resolve_right (by omega)⟩
  obtain ⟨mb₁, ret, h1, hd, h2⟩ := growWhile_spec 1 1 (by omega) hmb hfree.le_max
  have hg := grows_of_doubled hmb hd
  have hroom : 0 ≤ ret → mb₁.reserved.cnt + 1 ≤ mb₁.reserved.max := by
    intro hret
    rcases h2 with ⟨rfl, -⟩ | h2
    · exact absurd hret (by decide)
    · exact h2.2
  have hfree₁ : ∀ x, base ≤ x → x < base + size → lookup mb₁.reserved.regions x = none :=
    fun x => hg.lookup_none hmb hps hfree
  rcases addRange_of_grow ⟨flags, nid⟩ hmb.reserved hsize hfree.le_max hfree.lookup h1
    hg.wf.reserved hfree₁ hroom with ⟨hret, h3⟩ | ⟨hret, t', h3, h4⟩
  · refine ⟨mb₁, ret, h3, .inl ⟨?_, hg.forget⟩⟩
    rcases h2 with ⟨rfl, -⟩ | ⟨rfl, -⟩
    · rfl
    · cases hret
  · have hfr : mb₁.Free base size :=
      ⟨hfree.le_max, fun x hx1 hx2 => by rw [Memblock.InMemory, hg.memory]; exact hfree.memory x hx1 hx2, hfree₁⟩
    exact ⟨_, 0, h3, .inr ⟨rfl, hg.allocated (h4.allocated hg.wf hps hfr) hfree⟩⟩

theorem memblockPhysFree_spec (hmb : mb.Wf) (hps : pageSize ≤ base) (hb : base + size ≤ physAddrMax)
    (harray : ∀ x, base ≤ x → x < base + size → ¬ mb.InArray x) :
    ∃ mb' ret, memblockPhysFree base size mb = some (mb', ret) ∧
      (ret = negEnomem ∧ Grows 0 0 mb mb' ∨ ret = 0 ∧ Freed base size mb mb') := by
  rcases Nat.eq_zero_or_pos size with rfl | hsize
  · refine ⟨mb, 0, ?_, .inr ⟨rfl, hmb, rfl, rfl, rfl, fun x => ?_⟩⟩
    · simp [memblockPhysFree, memblockRemoveRange, removeRange, isolateRange, memblockCapSize, removeLoop]
    · exact ⟨fun h => ⟨h, by omega⟩, fun h => h.1⟩
  obtain ⟨mb₁, ret, h1, hd, h2⟩ := growWhile_spec 1 2 (by omega) hmb hb
  have hg := grows_of_doubled hmb hd
  have hroom : 0 ≤ ret → mb₁.reserved.cnt + 2 ≤ mb₁.reserved.max := by
    intro hret
    rcases h2 with ⟨rfl, -⟩ | h2
    · exact absurd hret (by decide)
    · exact h2.2
  rcases removeRange_of_grow hsize hb h1 hg.wf.reserved hroom with ⟨hret, h3⟩ | ⟨hret, t', h3, h4⟩
  · refine ⟨mb₁, ret, h3, .inl ⟨?_, hg.forget⟩⟩
    rcases h2 with ⟨rfl, -⟩ | ⟨rfl, -⟩
    · rfl
    · cases hret
  · exact ⟨_, 0, h3, .inr ⟨rfl, hg.freed (h4.freed hg.wf (hg.not_inArray hps harray))⟩⟩

theorem memblockPhysAllocRange_spec (size : Nat) {align fin : Nat} (hmb : mb.Wf) (ha : align ≤ 2 ^ 64)
    (hstart : start ≤ physAddrMax) (hfin : fin ≤ physAddrMax) :
    ∃ mb' found, memblockPhysAllocRange size align start fin mb = some (mb', found) ∧
      (found = 0 ∧ Grows 0 0 mb mb' ∨ found ≠ 0 ∧ Allocated found size mb mb') := by
  unfold memblockPhysAllocRange memblockAllocRangeNid
  -- no node is asked for, so that there is one attempt
  have hnode : ¬ 0 ≤ numaNoNode := by decide
  simp only [hnode, false_and, if_false]
  generalize hal : (if align = 0 then smpCacheBytes else align) = al
  have hal64 : al ≤ 2 ^ 64 := by
    rw [← hal]
    split
    · decide
    · exact ha
  by_cases hfound : memblockFindInRangeNode mb size al start fin numaNoNode 0 = 0
  · rw [if_pos hfound]
    exact ⟨mb, 0, by simp, .inl ⟨rfl, .refl hmb⟩⟩
  · rw [if_neg hfound]
    obtain ⟨hfree, hge, -⟩ := memblockFindInRangeNode_free hmb hfin hstart hal64 hfound
    generalize memblockFindInRangeNode mb size al start fin numaNoNode 0 = c at hfound hfree hge
    obtain ⟨mb', ret, h1, h2⟩ := memblockReserve_spec numaNoNode memblockRsrvKern hmb
      (Nat.le_trans (Nat.le_max_right _ _) hge) hfree
    rw [h1]
    rcases h2 with ⟨rfl, hg⟩ | ⟨rfl, hal⟩
    · exact ⟨mb', 0, by simp [negEnomem], .inl ⟨rfl, hg⟩⟩
    · exact ⟨mb', c, by simp [hfound], .inr ⟨hfound, hal⟩⟩

theorem memblockPhysAllocRange_dvd {k fin found : Nat} (hk : k ≤ 64)
    (h : memblockPhysAllocRange size (2 ^ k) start fin mb = some (mb', found)) : 2 ^ k ∣ found := by
  have hnode : ¬ 0 ≤ numaNoNode := by decide
  have hdvd : 2 ^ k ∣ memblockFindInRangeNode mb size (2 ^ k) start fin numaNoNode 0 :=
    memblockFindInRangeNode_dvd mb size start fin hk
  simp only [memblockPhysAllocRange, memblockAllocRangeNid, hnode, false_and, if_false,
    if_neg (Nat.two_pow_pos k).ne'] at h
  split at h
  · cases h
  · rename_i mb₁ c hc
    have hfound : 2 ^ k ∣ c := by
      split at hc
      · cases hc
        exact Nat.dvd_zero _
      · obtain ⟨q, -, hq⟩ := Option.map_eq_some_iff.mp hc
        obtain ⟨-, rfl⟩ := Prod.mk.inj hq
        split
        · exact hdvd
        · exact Nat.dvd_zero _
    split at h
    · obtain ⟨-, rfl⟩ := Prod.mk.inj (Option.some.inj h)
      exact hfound
    · obtain ⟨-, rfl⟩ := Prod.mk.inj (Option.some.inj h)
      exact Nat.dvd_zero _

end QuestOS
