import QuestOS.Vmalloc.LowestMatch
import Mathlib.Order.Bounds.Defs

/-!
# Allocation from the free tree

`va_clip` replaces the area that was found by what is left of it on both sides of the allocated range (`vaClip_spec`), in
each of its four cases; with the search this gives the behaviour of `__alloc_vmap_area` on the set of free addresses.
-/

namespace QuestOS.Vmalloc

open RbTree

structure IsFreeTree (t : FreeTree) : Prop where
  isRb : IsRb t
  areas : ∀ va ∈ t.toList, va.vaStart < va.vaEnd ∧ va.vaEnd < 2 ^ 64
  ordered : t.toList.Pairwise fun x y => x.vaEnd ≤ y.vaStart
  aligned : ∀ va ∈ t.toList.tail, va.vaStart % 4096 = 0
  maxima : Augmented computeMax t

def Free (t : FreeTree) (x : Nat) : Prop := ∃ va ∈ t.toList, va.vaStart ≤ x ∧ x < va.vaEnd

def Candidate (t : FreeTree) (R : Request) (vstart vend a : Nat) : Prop :=
  R.align ∣ a ∧ vstart ≤ a ∧ (∃ va ∈ t.toList, va.vaStart ≤ a ∧ a + R.size ≤ va.vaEnd) ∧ a + R.size ≤ vend

def carve (va : VmapArea) (nva size : Nat) : List VmapArea :=
  (if va.vaStart < nva then [⟨va.vaStart, nva⟩] else []) ++
    if nva + size < va.vaEnd then [⟨nva + size, va.vaEnd⟩] else []

section Clip

variable {va : VmapArea} {t : FreeTree} {s : FreePlace} {nva size : Nat}

theorem findVaLinks_above (h : ∀ x ∈ t.toList, x.vaEnd ≤ va.vaStart ∧ x.vaStart < va.vaEnd) (p : FreePath) :
    ∃ q, findVaLinks va t p = some q ∧ plug .nil q = plug t p ∧ before q = before p ++ t.toList ∧ after q = after p := by
  induction t generalizing p with
  | nil => exact ⟨p, rfl, rfl, by simp, rfl⟩
  | node c l tmp m r ihl ihr =>
    obtain ⟨hend, hstart⟩ := h tmp (by simp)
    obtain ⟨q, hq, hplug, hbefore, hafter⟩ := ihr (fun x hx => h x (by simp [hx])) (⟨.right, c, tmp, m, l⟩ :: p)
    refine ⟨q, ?_, hplug, ?_, hafter⟩
    · rw [findVaLinks, if_neg (by omega), if_pos hend]
      exact hq
    · rw [hbefore]
      simp [before]

theorem insertVmapAreaAugment_spec (lva : VmapArea) (stale : Nat) (hrb : IsRb s.tree) (hend : lva.vaEnd ≤ s.val.vaStart)
    (hleft : ∀ x ∈ s.left.toList, x.vaEnd ≤ lva.vaStart ∧ x.vaStart < lva.vaEnd) :
    ∃ t', insertVmapAreaAugment lva stale s.node s.path = some t' ∧
      t'.toList = before s.path ++ s.left.toList ++ lva :: s.val :: s.right.toList ++ after s.path := by
  obtain ⟨q, hq, hplug, hbefore, hafter⟩ :=
    findVaLinks_above hleft (⟨.left, s.color, s.val, s.aug, s.right⟩ :: s.path)
  have hlink : findVaLinks lva s.node s.path = some q := by
    rw [RbTree.Place.node, findVaLinks, if_pos hend, hq]
  have hempty : IsRb (plug .nil q) := by
    rw [hplug]
    exact hrb
  obtain ⟨c, n, hnil, hfits⟩ := hempty.place
  cases hnil
  obtain ⟨t, ht, -⟩ := insertColor_isRb computeMax (.redNode (v := lva) (a := stale) .leaf .leaf) hfits
  have hlist : t.toList = before s.path ++ s.left.toList ++ lva :: s.val :: s.right.toList ++ after s.path := by
    rw [toList_insertColor ht, around, hbefore, hafter]
    simp [before, after]
  have hmem : lva ∈ t.toList := by
    rw [hlist]
    simp
  obtain ⟨s', hs'⟩ := exists_locate hmem []
  obtain ⟨-, htree⟩ := locate_eq_some hs'
  refine ⟨(augmentTreePropagateFrom { s' with aug := 0 }).tree, ?_, ?_⟩
  · simp [insertVmapAreaAugment, hlink, ht, hs']
  · rw [augmentTreePropagateFrom, RbTree.Place.toList_propagate, ← hlist, RbTree.Place.toList_tree, ← RbTree.Place.toList_tree s', htree, plug]

theorem toList_augmentTreePropagateFrom (s : FreePlace) :
    (augmentTreePropagateFrom s).tree.toList = before s.path ++ (s.left.toList ++ s.val :: s.right.toList) ++ after s.path := by
  rw [augmentTreePropagateFrom, RbTree.Place.toList_propagate, RbTree.Place.toList_tree]

theorem classifyVaFitType_cases (hstart : va.vaStart ≤ nva) (hend : nva + size ≤ va.vaEnd) (hlt : va.vaEnd < 2 ^ 64) :
    (classifyVaFitType va nva size = .flFit ∧ carve va nva size = []) ∨
    (classifyVaFitType va nva size = .leFit ∧ carve va nva size = [⟨nva + size, va.vaEnd⟩] ∧ va.vaStart = nva ∧
      nva + size < va.vaEnd) ∨
    (classifyVaFitType va nva size = .reFit ∧ carve va nva size = [⟨va.vaStart, nva⟩] ∧ va.vaStart < nva) ∨
    (classifyVaFitType va nva size = .neFit ∧ carve va nva size = [⟨va.vaStart, nva⟩, ⟨nva + size, va.vaEnd⟩] ∧
      va.vaStart < nva ∧ nva + size < va.vaEnd) := by
  have hadd : add64 nva size = nva + size := Nat.mod_eq_of_lt (by omega)
  have hinside : ¬ (nva < va.vaStart ∨ nva + size > va.vaEnd) := by omega
  rw [classifyVaFitType, hadd, if_neg hinside, carve]
  by_cases hfirst : va.vaStart = nva
  · rw [if_pos hfirst, if_neg (show ¬ va.vaStart < nva by omega), List.nil_append]
    by_cases hlast : va.vaEnd = nva + size
    · rw [if_pos hlast, if_neg (show ¬ nva + size < va.vaEnd by omega)]
      exact .inl ⟨rfl, rfl⟩
    · rw [if_neg hlast, if_pos (show nva + size < va.vaEnd by omega)]
      exact .inr (.inl ⟨rfl, rfl, hfirst, by omega⟩)
  · rw [if_neg hfirst, if_pos (show va.vaStart < nva by omega)]
    by_cases hlast : va.vaEnd = nva + size
    · rw [if_pos hlast, if_neg (show ¬ nva + size < va.vaEnd by omega), List.append_nil]
      exact .inr (.inr (.inl ⟨rfl, rfl, by omega⟩))
    · rw [if_neg hlast, if_pos (show nva + size < va.vaEnd by omega), List.singleton_append]
      exact .inr (.inr (.inr ⟨rfl, rfl, by omega, by omega⟩))

theorem vaClip_spec (stale : Nat) (hrb : IsRb s.tree) (hstart : s.val.vaStart ≤ nva) (hend : nva + size ≤ s.val.vaEnd)
    (hlt : s.val.vaEnd < 2 ^ 64) (hleft : ∀ x ∈ s.left.toList, x.vaEnd ≤ s.val.vaStart ∧ x.vaStart < x.vaEnd) :
    ∃ t', vaClip (some stale) s nva size = some (t', 0) ∧
      t'.toList = before s.path ++ (s.left.toList ++ carve s.val nva size ++ s.right.toList) ++ after s.path := by
  have hadd : add64 nva size = nva + size := Nat.mod_eq_of_lt (by omega)
  obtain ⟨hclass, hcarve⟩ | ⟨hclass, hcarve, hfirst, -⟩ | ⟨hclass, hcarve, -⟩ | ⟨hclass, hcarve, hfirst, -⟩ :=
    classifyVaFitType_cases hstart hend hlt
  · obtain ⟨c, n, hnode, hfits⟩ := hrb.place
    obtain ⟨t', ht', -⟩ := erase_isRb computeMax hnode hfits
    refine ⟨t', ?_, ?_⟩
    · simp [vaClip, hclass, ht']
    · rw [toList_erase ht', hcarve, List.append_nil, around]
  · have hadd' : add64 s.val.vaStart size = nva + size := by rw [hfirst, hadd]
    refine ⟨_, by simp only [vaClip, hclass]; rfl, ?_⟩
    rw [toList_augmentTreePropagateFrom, hcarve, hadd']
    simp
  · refine ⟨_, by simp only [vaClip, hclass]; rfl, ?_⟩
    rw [toList_augmentTreePropagateFrom, hcarve]
    simp
  · set s₁ : FreePlace := { s with val := { s.val with vaStart := add64 nva size } } with hs₁
    obtain ⟨hval, hl, hr, hbefore, hafter⟩ := s₁.propagate_fields computeMax
    have hrb₁ : IsRb (augmentTreePropagateFrom s₁).tree := RbTree.Place.isRb_propagate (RbTree.Place.isRb_retag hrb _ _)
    have hend₁ : nva ≤ (augmentTreePropagateFrom s₁).val.vaStart := by
      rw [augmentTreePropagateFrom, hval, hs₁, hadd]
      exact Nat.le_add_right ..
    have hleft₁ : ∀ x ∈ (augmentTreePropagateFrom s₁).left.toList, x.vaEnd ≤ s.val.vaStart ∧ x.vaStart < nva := by
      rw [augmentTreePropagateFrom, hl]
      intro x hx
      have := hleft x hx
      omega
    obtain ⟨t', ht', hlist⟩ := insertVmapAreaAugment_spec ⟨s.val.vaStart, nva⟩ stale hrb₁ hend₁ hleft₁
    refine ⟨t', ?_, ?_⟩
    · simp [vaClip, hclass, ← hs₁, ht']
    · rw [hlist, augmentTreePropagateFrom, hval, hl, hr, hbefore, hafter, hcarve, hs₁, hadd]
      simp

end Clip

/-! ### The free set -/

section FreeSet

variable {t t' : FreeTree} {s : FreePlace} {R : Request} {vstart vend nva size x : Nat}

theorem mem_carve {va : VmapArea} (hstart : va.vaStart ≤ nva) (hend : nva + size ≤ va.vaEnd) :
    (∃ y ∈ carve va nva size, y.vaStart ≤ x ∧ x < y.vaEnd) ↔
      (va.vaStart ≤ x ∧ x < va.vaEnd) ∧ ¬ (nva ≤ x ∧ x < nva + size) := by
  unfold carve
  split_ifs <;> simp <;> omega

/-- Replacing one area by what is left of it takes out exactly the allocated range. -/
theorem free_of_carve (ht : s.tree = t) (hordered : t.toList.Pairwise fun x y => x.vaEnd ≤ y.vaStart)
    (hstart : s.val.vaStart ≤ nva) (hend : nva + size ≤ s.val.vaEnd)
    (hlist : t'.toList = before s.path ++ (s.left.toList ++ carve s.val nva size ++ s.right.toList) ++ after s.path) :
    Free t' x ↔ Free t x ∧ ¬ (nva ≤ x ∧ x < nva + size) := by
  have hsplit := s.toList_split
  rw [ht] at hsplit
  have hsplit' : t'.toList =
      (before s.path ++ s.left.toList) ++ (carve s.val nva size ++ (s.right.toList ++ after s.path)) := by
    rw [hlist]
    simp
  rw [hsplit, List.pairwise_append] at hordered
  obtain ⟨-, hrest, hbefore⟩ := hordered
  have hafter := (List.pairwise_cons.1 hrest).1
  have hcarve := mem_carve (x := x) hstart hend
  constructor
  · rintro ⟨y, hy, hx⟩
    rw [hsplit', List.mem_append] at hy
    rcases hy with hy | hy
    · have := hbefore y hy s.val (List.mem_cons_self ..)
      exact ⟨⟨y, by rw [hsplit]; exact List.mem_append_left _ hy, hx⟩, by omega⟩
    · rcases List.mem_append.1 hy with hy | hy
      · obtain ⟨hin, hout⟩ := hcarve.1 ⟨y, hy, hx⟩
        exact ⟨⟨s.val, by rw [hsplit]; exact List.mem_append_right _ (List.mem_cons_self ..), hin⟩, hout⟩
      · have := hafter y hy
        exact ⟨⟨y, by rw [hsplit]; exact List.mem_append_right _ (List.mem_cons_of_mem _ hy), hx⟩, by omega⟩
  · rintro ⟨⟨y, hy, hx⟩, hout⟩
    rw [hsplit, List.mem_append, List.mem_cons] at hy
    rcases hy with hy | rfl | hy
    · exact ⟨y, by rw [hsplit']; exact List.mem_append_left _ hy, hx⟩
    · obtain ⟨z, hz, hxz⟩ := hcarve.2 ⟨hx, hout⟩
      exact ⟨z, by rw [hsplit']; exact List.mem_append_right _ (List.mem_append_left _ hz), hxz⟩
    · exact ⟨y, by rw [hsplit']; exact List.mem_append_right _ (List.mem_append_right _ hy), hx⟩

theorem candidate_isLeast (hs : Sound t) (ht : s.tree = t) (hfit : R.FitsIn s.val vstart)
    (hfirst : ∀ x ∈ before s.path ++ s.left.toList, ¬ R.FitsIn x vstart) :
    ∀ a, Candidate t R vstart vend a → nvaStartAddr s.val R.align vstart ≤ a := by
  rintro a ⟨hdvd, hva, ⟨y, hy, hstart, hend⟩, -⟩
  have hsplit := s.toList_split
  rw [ht] at hsplit
  obtain ⟨⟨-, -, -, hnva⟩, hleast⟩ := hfit.isLeast (hs.valid _ (ht ▸ s.val_mem))
  have hordered := hs.ordered
  rw [hsplit, List.mem_append, List.mem_cons] at hy
  rw [hsplit, List.pairwise_append] at hordered
  rcases hy with hy | rfl | hy
  · exact absurd ⟨a, hdvd, hva, hstart, hend⟩ (hfirst y hy)
  · exact hleast a ⟨hdvd, hva, hstart, hend⟩
  · have := (List.pairwise_cons.1 hordered.2.1).1 y hy
    have := R.size_pos
    omega

end FreeSet

/-! ### The allocation -/

section Alloc

variable {t : FreeTree} {vstart : Nat}

def Served (t : FreeTree) (R : Request) (vstart vend : Nat) (t' : FreeTree) : Except Int Nat → Prop
  | .ok a => IsLeast {a | Candidate t R vstart vend a} a ∧ a < 2 ^ 64 - 4095 ∧
      ∀ x, Free t' x ↔ Free t x ∧ ¬ (a ≤ x ∧ x < a + R.size)
  | .error _ => (∀ a, ¬ Candidate t R vstart vend a) ∧ ∀ x, Free t' x ↔ Free t x

theorem adjustSearchSize_eq_false (R : Request) (vstart vend : Nat) :
    decide (¬ (R.align ≤ 4096 ∨ R.align > 4096 ∧ sub64 vend vstart = R.size)) = false := by
  obtain ⟨k, hk, hpow⟩ := R.align_pow
  have hle : 2 ^ k ≤ 2 ^ 12 := Nat.pow_le_pow_right (by decide) hk
  rw [decide_eq_false_iff_not, not_not]
  omega

theorem allocVmapArea_sound (hrb : IsRb t) (hs : Sound t) (R : Request) (hvs : vstart < 2 ^ 64) (vend stale : Nat) :
    ∃ n t' ret, (∀ fuel ≥ n, allocVmapArea fuel (some stale) t R.size R.align vstart vend = some (t', ret)) ∧
      Served t R vstart vend t' ret := by
  obtain ⟨n, ⟨hfind, hnone⟩ | ⟨s, hfind, htree, hfit, hfirst⟩⟩ := R.findVmapLowestMatch_spec hs hvs
  · refine ⟨n, t, .error negEnoent, fun fuel hfuel => ?_, ?_, fun x => Iff.rfl⟩
    · simp only [allocVmapArea, adjustSearchSize_eq_false, hfind fuel hfuel]
    · rintro a ⟨hdvd, hle, ⟨va, hva, hstart, hend⟩, -⟩
      exact hnone va hva ⟨a, hdvd, hle, hstart, hend⟩
  · have hcall : ∀ fuel ≥ n, allocVmapArea fuel (some stale) t R.size R.align vstart vend =
        vaAlloc (some stale) s R.size R.align vstart vend := fun fuel hfuel => by
      simp only [allocVmapArea, adjustSearchSize_eq_false, hfind fuel hfuel]
    have hmem : s.val ∈ t.toList := htree ▸ s.val_mem
    have hva := hs.valid _ hmem
    obtain ⟨hat, -⟩ := hfit.isLeast hva
    obtain ⟨hdvd, hle, hstart, hend⟩ := hat
    have hlt := hva.end_lt
    have hpage := R.page_le
    have hadd : add64 (nvaStartAddr s.val R.align vstart) R.size = nvaStartAddr s.val R.align vstart + R.size :=
      Nat.mod_eq_of_lt (by omega)
    have hleast : ∀ a, Candidate t R vstart vend a → _ := candidate_isLeast hs htree hfit hfirst
    generalize hnva : nvaStartAddr s.val R.align vstart = nva at *
    by_cases hrange : nva + R.size > vend
    · refine ⟨n, t, .error negErange, fun fuel hfuel => ?_, ?_, fun x => Iff.rfl⟩
      · rw [hcall fuel hfuel, vaAlloc, hnva, hadd, if_pos hrange, htree]
      · intro a ha
        have := hleast a ha
        have := ha.2.2.2
        omega
    · have hleft : ∀ x ∈ s.left.toList, x.vaEnd ≤ s.val.vaStart ∧ x.vaStart < x.vaEnd := by
        intro x hx
        have hsplit := s.toList_split
        have hordered := hs.ordered
        rw [htree] at hsplit
        rw [hsplit, List.pairwise_append] at hordered
        have hx' : x ∈ before s.path ++ s.left.toList := List.mem_append_right _ hx
        refine ⟨hordered.2.2 x hx' s.val (List.mem_cons_self ..), (hs.valid x ?_).lt⟩
        rw [hsplit]
        exact List.mem_append_left _ hx'
      obtain ⟨t', hclip, hlist⟩ := vaClip_spec stale (htree ▸ hrb) hstart hend hlt hleft
      refine ⟨n, t', .ok nva, fun fuel hfuel => ?_, ⟨⟨hdvd, hle, ⟨s.val, hmem, hstart, hend⟩, by omega⟩, hleast⟩, by omega,
        fun x => free_of_carve htree hs.ordered hstart hend hlist⟩
      rw [hcall fuel hfuel, vaAlloc, hnva, hadd, if_neg hrange, hclip]
      rfl

/-- An area that starts in the last page is the only one, and nothing fits into it. -/
theorem IsFreeTree.eq_single (ht : IsFreeTree t) {va : VmapArea} (hva : va ∈ t.toList) (hlast : 2 ^ 64 < va.vaStart + 4096) :
    ∃ c m, t = .node c .nil va m .nil := by
  have hbounds := ht.areas
  have hordered := ht.ordered
  have haligned := ht.aligned
  have hlist : t.toList = [va] := by
    cases hl : t.toList with
    | nil =>
      rw [hl] at hva
      cases hva
    | cons x rest =>
      rw [hl] at hva hbounds hordered haligned
      have hpage : ∀ y ∈ rest, y.vaStart % 4096 = 0 ∧ y.vaStart < y.vaEnd ∧ y.vaEnd < 2 ^ 64 :=
        fun y hy => ⟨haligned y hy, hbounds y (List.mem_cons_of_mem _ hy)⟩
      have hx : x = va := by
        rcases List.mem_cons.1 hva with rfl | hva
        · rfl
        · have := hpage va hva
          omega
      subst hx
      cases rest with
      | nil => rfl
      | cons y rest =>
        have := hpage y (List.mem_cons_self ..)
        have := (List.pairwise_cons.1 hordered).1 y (List.mem_cons_self ..)
        have := (hbounds x (List.mem_cons_self ..)).1
        omega
  exact eq_node_of_toList_eq_singleton hlist

/-- For such an area `ALIGN` may wrap to 0; the area is found then, and refused by `va_clip`. -/
theorem allocVmapArea_lastPage {c : Color} {va : VmapArea} {m : Nat}
    (hlast : 2 ^ 64 < va.vaStart + 4096) (R : Request) (vstart vend stale : Nat) :
    ∃ n e, ∀ fuel ≥ n, allocVmapArea fuel (some stale) (.node c .nil va m .nil) R.size R.align vstart vend =
      some (.node c .nil va m .nil, .error e) := by
  have hpos := R.size_pos
  have hmax : ¬ getSubtreeMaxSize .nil ≥ R.size := Nat.not_le_of_lt hpos
  by_cases hwithin : isWithinThisVa va R.size R.align vstart = true
  · have hrun : R.step^[1] (.down (.node c .nil va m .nil) [] vstart) = .done (some ⟨c, .nil, va, m, .nil, []⟩) := by
      simp [Request.step, Search.step, hmax, hwithin]
    have hnothing : classifyVaFitType va (nvaStartAddr va R.align vstart) R.size = .nothingFit := by
      obtain ⟨hbad, -⟩ := Request.isWithinThisVa_eq_true.1 hwithin
      obtain ⟨k, -, hpow⟩ := R.align_pow
      have hlt := alignUp_lt (max va.vaStart vstart) k
      rw [← hpow, ← Request.nvaStartAddr_eq] at hlt
      have hpage := R.page_le
      have hsize := R.size_lt
      rw [add64] at hbad
      rw [classifyVaFitType, if_pos (.inl (by omega))]
    refine ⟨1, if add64 (nvaStartAddr va R.align vstart) R.size > vend then negErange else negEinval, fun fuel hfuel => ?_⟩
    simp only [allocVmapArea, adjustSearchSize_eq_false, Request.findVmapLowestMatch_of_iterate hrun hfuel, vaAlloc, vaClip,
      hnothing]
    split_ifs
    · rfl
    · rfl
  · have hrun : R.step^[2] (.down (.node c .nil va m .nil) [] vstart) = .done none := by
      simp [Request.step, Search.step, hmax, hwithin]
    refine ⟨2, negEnoent, fun fuel hfuel => ?_⟩
    simp only [allocVmapArea, adjustSearchSize_eq_false, Request.findVmapLowestMatch_of_iterate hrun hfuel]

/-- `__alloc_vmap_area` terminates.  It returns the lowest aligned address at which the request fits between `vstart` and
`vend` and takes exactly the request's range out of the free set, or it fails, which it does only where no address exists,
and leaves the free set as it is. -/
theorem allocVmapArea_lowest (ht : IsFreeTree t) (R : Request) (hvs : vstart < 2 ^ 64) (vend stale : Nat) :
    ∃ n t' ret, (∀ fuel ≥ n, (findVmapLowestMatch fuel t R.size R.align vstart false).isSome ∧
        allocVmapArea fuel (some stale) t R.size R.align vstart vend = some (t', ret)) ∧
      Served t R vstart vend t' ret := by
  have hreturns : ∀ {fuel t' ret}, allocVmapArea fuel (some stale) t R.size R.align vstart vend = some (t', ret) →
      (findVmapLowestMatch fuel t R.size R.align vstart false).isSome := by
    intro fuel t' ret h
    rw [allocVmapArea, adjustSearchSize_eq_false] at h
    cases hfind : findVmapLowestMatch fuel t R.size R.align vstart false with
    | none =>
      rw [hfind] at h
      cases h
    | some => rfl
  by_cases hlast : ∀ va ∈ t.toList, va.vaStart + 4096 ≤ 2 ^ 64
  · have hs : Sound t := ⟨fun va hva => ⟨(ht.areas va hva).1, (ht.areas va hva).2, hlast va hva⟩, ht.ordered, ht.maxima⟩
    obtain ⟨n, t', ret, hrun, hserved⟩ := allocVmapArea_sound ht.isRb hs R hvs vend stale
    exact ⟨n, t', ret, fun fuel hfuel => ⟨hreturns (hrun fuel hfuel), hrun fuel hfuel⟩, hserved⟩
  · push Not at hlast
    obtain ⟨va, hva, hlast⟩ := hlast
    have hend := (ht.areas va hva).2
    obtain ⟨c, m, rfl⟩ := ht.eq_single hva hlast
    obtain ⟨n, e, hrun⟩ := allocVmapArea_lastPage hlast R vstart vend stale
    refine ⟨n, _, .error e, fun fuel hfuel => ⟨hreturns (hrun fuel hfuel), hrun fuel hfuel⟩, ?_, fun x => Iff.rfl⟩
    rintro a ⟨-, -, ⟨y, hy, hstart, hle⟩, -⟩
    obtain rfl : y = va := by simpa using hy
    have := R.page_le
    omega

def twoAreas : FreeTree := .node .black (.node .red .nil ⟨1, 8193⟩ 8192 .nil) ⟨12288, 28672⟩ 16384 .nil

def onePage : Request := ⟨4096, 4096, page_pos, by decide, page_mod, 12, by decide, by decide⟩

/-- A page is taken out of the middle of the first area. -/
theorem allocVmapArea_lowest_twoAreas : IsFreeTree twoAreas ∧
    ∃ n t', (∀ fuel ≥ n, allocVmapArea fuel (some 0) twoAreas 4096 4096 0 (2 ^ 64 - 1) = some (t', .ok 4096)) ∧
      ∀ x, Free t' x ↔ Free twoAreas x ∧ ¬ (4096 ≤ x ∧ x < 8192) := by
  have htree : IsFreeTree twoAreas :=
    ⟨⟨1, .blackNode (.redNode .leaf .leaf) .leaf⟩, by decide, by decide, by decide,
      ⟨by decide, ⟨by decide, trivial, trivial⟩, trivial⟩⟩
  refine ⟨htree, ?_⟩
  obtain ⟨n, t', ret, hrun, hserved⟩ := allocVmapArea_lowest htree onePage (show 0 < 2 ^ 64 by decide) (2 ^ 64 - 1) 0
  have hpage : Candidate twoAreas onePage 0 (2 ^ 64 - 1) 4096 :=
    ⟨by decide, by decide, ⟨⟨1, 8193⟩, by decide, by decide, by decide⟩, by decide⟩
  cases ret with
  | error e => exact absurd hpage (hserved.1 4096)
  | ok a =>
    obtain ⟨⟨⟨hdvd, -, ⟨va, hva, hstart, -⟩, -⟩, hleast⟩, -, hfree⟩ := hserved
    have hle : a ≤ 4096 := hleast hpage
    have hva' : ∀ va ∈ twoAreas.toList, 1 ≤ va.vaStart := by decide
    have hone := hva' va hva
    obtain rfl : a = 4096 := by
      obtain ⟨b, rfl⟩ := hdvd
      change 4096 * b ≤ 4096 at hle
      change va.vaStart ≤ 4096 * b at hstart
      change 4096 * b = 4096
      omega
    exact ⟨n, t', fun fuel hfuel => (hrun fuel hfuel).2, hfree⟩

end Alloc

end QuestOS.Vmalloc
