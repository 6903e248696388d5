import QuestOS.Vmalloc.Alloc
import QuestOS.Vmalloc.Areas
import QuestOS.Lib.RbAugment
import Mathlib.Data.List.Nodup
import Mathlib.Data.List.Perm.Basic

/-!
# The free tree and its address-sorted list

The areas of the free tree are also entries of a list.  `__link_va` puts a new area next to the parent of its link, and
`__merge_or_add_vmap_area` takes the neighbours of a range from the list, so that the list has to be in the order of the
tree.  This module translates the functions that change the free areas on the tree together with the list.

Between two calls the data of every node is right.  Inside a call it is wrong at one area at most (`OffAt`): at a new one,
or at one whose bounds were edited.  The specifications of the single steps say where the areas are by the two parts of the
list left and right of such an area, and `FreeAreas.Linked.step` puts them together for every call.
-/

namespace QuestOS.Vmalloc

open RbTree

/-! ### The list -/

section List

def listAdd (new pos : VmapArea) : List VmapArea → List VmapArea
  | [] => []
  | x :: l => if x = pos then x :: new :: l else x :: listAdd new pos l

def listAddPrev (new pos : VmapArea) : List VmapArea → List VmapArea
  | [] => []
  | x :: l => if x = pos then new :: x :: l else x :: listAddPrev new pos l

def listNext (pos : VmapArea) : List VmapArea → Option VmapArea
  | [] => none
  | x :: l => if x = pos then l.head? else listNext pos l

def listPrev (pos : Option VmapArea) (l : List VmapArea) : Option VmapArea :=
  match pos with
  | none => l.getLast?
  | some pos => listNext pos l.reverse

def listLink (va : VmapArea) (link : FreePath) (l : List VmapArea) : List VmapArea :=
  match link with
  | [] => va :: l
  | f :: _ =>
    match f.dir with
    | .left => listAddPrev va f.val l
    | .right => listAdd va f.val l

/-- `get_va_next_sibling`: `some none` is the head of the list, `none` is `NULL`. -/
def getVaNextSibling (link : FreePath) (l : List VmapArea) : Option (Option VmapArea) :=
  match link with
  | [] => none
  | f :: _ =>
    match f.dir with
    | .left => some (some f.val)
    | .right => some (listNext f.val l)

def listResize (va va' : VmapArea) (l : List VmapArea) : List VmapArea := l.map fun x => if x = va then va' else x

variable {va x : VmapArea} {L R : List VmapArea}

theorem listAdd_split (h : x ∉ L) : listAdd va x (L ++ x :: R) = L ++ x :: va :: R := by
  induction L with
  | nil => simp [listAdd]
  | cons y L ih =>
    rw [List.mem_cons, not_or] at h
    rw [List.cons_append, listAdd, if_neg (Ne.symm h.1), ih h.2, List.cons_append]

theorem listAddPrev_split (h : x ∉ L) : listAddPrev va x (L ++ x :: R) = L ++ va :: x :: R := by
  induction L with
  | nil => simp [listAddPrev]
  | cons y L ih =>
    rw [List.mem_cons, not_or] at h
    rw [List.cons_append, listAddPrev, if_neg (Ne.symm h.1), ih h.2, List.cons_append]

theorem listNext_split (h : x ∉ L) : listNext x (L ++ x :: R) = R.head? := by
  induction L with
  | nil => simp [listNext]
  | cons y L ih =>
    rw [List.mem_cons, not_or] at h
    rw [List.cons_append, listNext, if_neg (Ne.symm h.1), ih h.2]

theorem listPrev_head (h : (L ++ R).Nodup) : listPrev R.head? (L ++ R) = L.getLast? := by
  cases R with
  | nil => simp [listPrev]
  | cons x R =>
    have hx : x ∉ R.reverse := by
      rw [List.mem_reverse]
      exact (List.nodup_cons.1 (List.nodup_append.1 h).2.1).1
    rw [List.head?_cons, listPrev, List.reverse_append, List.reverse_cons, List.append_assoc, List.singleton_append,
      listNext_split hx, List.head?_reverse]

theorem not_mem_of_nodup (h : (L ++ x :: R).Nodup) : x ∉ L ∧ x ∉ R := by
  rw [List.nodup_middle, List.nodup_cons, List.mem_append, not_or] at h
  exact h.1

theorem listResize_split (h : (L ++ x :: R).Nodup) : listResize x va (L ++ x :: R) = L ++ va :: R := by
  have hkeep : ∀ M : List VmapArea, x ∉ M → (M.map fun y => if y = x then va else y) = M := by
    intro M hM
    refine (List.map_congr_left fun y hy => if_neg ?_).trans (List.map_id _)
    rintro rfl
    exact hM hy
  obtain ⟨hL, hR⟩ := not_mem_of_nodup h
  rw [listResize, List.map_append, List.map_cons, if_pos rfl, hkeep L hL, hkeep R hR]

theorem listLink_split {link : FreePath} (h : (before link ++ after link).Nodup) :
    listLink va link (before link ++ after link) = before link ++ va :: after link := by
  cases link with
  | nil => rfl
  | cons f p =>
    obtain ⟨d, c, w, a, o⟩ := f
    cases d with
    | left => exact listAddPrev_split (not_mem_of_nodup h).1
    | right =>
      have hsplit : before p ++ (o.toList ++ [w]) ++ after p = (before p ++ o.toList) ++ w :: after p := by simp
      change (before p ++ (o.toList ++ [w]) ++ after p).Nodup at h
      change listAdd va w (before p ++ (o.toList ++ [w]) ++ after p) = before p ++ (o.toList ++ [w]) ++ va :: after p
      rw [hsplit] at h ⊢
      rw [listAdd_split (not_mem_of_nodup h).1]
      simp

theorem getVaNextSibling_split {link : FreePath} (h : (before link ++ after link).Nodup) (hne : link ≠ []) :
    getVaNextSibling link (before link ++ after link) = some (after link).head? := by
  cases link with
  | nil => exact absurd rfl hne
  | cons f p =>
    obtain ⟨d, c, w, a, o⟩ := f
    cases d with
    | left => rfl
    | right =>
      have hsplit : before p ++ (o.toList ++ [w]) ++ after p = (before p ++ o.toList) ++ w :: after p := by simp
      change (before p ++ (o.toList ++ [w]) ++ after p).Nodup at h
      change some (listNext w (before p ++ (o.toList ++ [w]) ++ after p)) = some (after p).head?
      rw [hsplit] at h ⊢
      rw [listNext_split (not_mem_of_nodup h).1]

end List

/-! ### The functions -/

structure FreeAreas where
  root : FreeTree
  list : List VmapArea
deriving DecidableEq

namespace FreeAreas

def resize (va va' : VmapArea) (st : FreeAreas) : Option FreeAreas :=
  (Vmalloc.resize va va' st.root).map (⟨·, listResize va va' st.list⟩)

def unlinkVaAugment (va : VmapArea) (st : FreeAreas) : Option FreeAreas :=
  (unlinkVa computeMax va st.root).map (⟨·, st.list.erase va⟩)

/-- `link_va_augment`; `stale` is what the object of `va` holds as `subtree_max_size`. -/
def linkVaAugment (va : VmapArea) (stale : Nat) (link : FreePath) (st : FreeAreas) : Option FreeAreas :=
  (linkVa computeMax stale 0 va link).map (⟨·, listLink va link st.list⟩)

def augmentTreePropagateFrom (va : VmapArea) (st : FreeAreas) : Option FreeAreas :=
  (locate va st.root []).map fun s => ⟨(Vmalloc.augmentTreePropagateFrom s).tree, st.list⟩

/-- `insert_vmap_area_augment`, where the descent starts at the node of `start` or at the root. -/
def insertVmapAreaAugment (va : VmapArea) (stale : Nat) (start : Option VmapArea) (st : FreeAreas) : Option FreeAreas := do
  let (t, p) ← match start with
    | none => some (st.root, [])
    | some x => (locate x st.root []).map fun s => (s.node, s.path)
  match findVaLinks va t p with
  | none => some st
  | some link => (st.linkVaAugment va stale link).bind (augmentTreePropagateFrom va)

def vaClip (kmalloc : Option Nat) (va : VmapArea) (nva size : Nat) (st : FreeAreas) : Option (FreeAreas × Int) :=
  match classifyVaFitType va nva size with
  | .flFit => (st.unlinkVaAugment va).map (·, 0)
  | .leFit =>
    let va' := { va with vaStart := add64 va.vaStart size }
    ((st.resize va va').bind (augmentTreePropagateFrom va')).map (·, 0)
  | .reFit =>
    let va' := { va with vaEnd := nva }
    ((st.resize va va').bind (augmentTreePropagateFrom va')).map (·, 0)
  | .neFit =>
    match kmalloc with
    | none => some (st, negEnomem)
    | some stale =>
      let va' := { va with vaStart := add64 nva size }
      (((st.resize va va').bind (augmentTreePropagateFrom va')).bind
        (insertVmapAreaAugment ⟨va.vaStart, nva⟩ stale (some va'))).map (·, 0)
  | .nothingFit => some (st, negEinval)

def mergeNext (va : VmapArea) (next : Option VmapArea) (st : FreeAreas) : Option (FreeAreas × VmapArea × Bool) :=
  match next with
  | none => some (st, va, false)
  | some sibling =>
    if sibling.vaStart = va.vaEnd then
      let va' := { sibling with vaStart := va.vaStart }
      (st.resize sibling va').map (·, va', true)
    else some (st, va, false)

def mergePrev (va : VmapArea) (merged : Bool) (prev : Option VmapArea) (st : FreeAreas) :
    Option (FreeAreas × VmapArea × Bool) :=
  match prev with
  | none => some (st, va, merged)
  | some sibling =>
    if sibling.vaEnd = va.vaStart then
      let va' := { sibling with vaEnd := va.vaEnd }
      -- the merged "next" node is taken out first
      ((if merged then st.unlinkVaAugment va else some st).bind (resize sibling va')).map (·, va', true)
    else some (st, va, merged)

def mergeOrAddVmapArea (va : VmapArea) (stale : Nat) (st : FreeAreas) : Option (FreeAreas × Option VmapArea) :=
  match findVaLinks va st.root [] with
  | none => some (st, none)
  | some link =>
    match getVaNextSibling link st.list with
    | none => (st.linkVaAugment va stale link).map (·, some va)
    | some next => do
      let (st, va, merged) ← st.mergeNext va next
      -- "next" is the merged area now, if there is one
      let prev := listPrev (if merged then some va else next) st.list
      let (st, va, merged) ← st.mergePrev va merged prev
      if merged then some (st, some va) else (st.linkVaAugment va stale link).map (·, some va)

def mergeOrAddVmapAreaAugment (va : VmapArea) (stale : Nat) (st : FreeAreas) : Option FreeAreas :=
  (st.mergeOrAddVmapArea va stale).bind fun r =>
    match r.2 with
    | none => some r.1
    | some va => r.1.augmentTreePropagateFrom va

end FreeAreas

/-! ### Sorted areas -/

structure IsSorted (l : List VmapArea) : Prop where
  areas : ∀ va ∈ l, va.vaStart < va.vaEnd ∧ va.vaEnd < 2 ^ 64
  ordered : l.Pairwise fun x y => x.vaEnd ≤ y.vaStart

section Sorted

variable {va x y : VmapArea} {L R : List VmapArea} {nva size : Nat}

theorem isSorted_middle : IsSorted (L ++ x :: R) ↔ IsSorted (L ++ R) ∧ (x.vaStart < x.vaEnd ∧ x.vaEnd < 2 ^ 64) ∧
    (∀ y ∈ L, y.vaEnd ≤ x.vaStart) ∧ ∀ y ∈ R, x.vaEnd ≤ y.vaStart := by
  constructor
  · rintro ⟨hareas, hordered⟩
    rw [List.pairwise_append, List.pairwise_cons] at hordered
    obtain ⟨hL, ⟨hxR, hR⟩, hLR⟩ := hordered
    refine ⟨⟨fun y hy => hareas y ?_, List.pairwise_append.2 ⟨hL, hR, fun y hy z hz => hLR y hy z (.tail _ hz)⟩⟩,
      hareas x (by simp), fun y hy => hLR y hy x (.head _), hxR⟩
    rw [List.mem_append] at hy
    simp only [List.mem_append, List.mem_cons]
    exact hy.imp_right .inr
  · rintro ⟨⟨hareas, hordered⟩, hx, hLx, hxR⟩
    rw [List.pairwise_append] at hordered
    obtain ⟨hL, hR, hLR⟩ := hordered
    constructor
    · intro y hy
      rw [List.mem_append, List.mem_cons] at hy
      rcases hy with hy | rfl | hy
      · exact hareas y (List.mem_append_left _ hy)
      · exact hx
      · exact hareas y (List.mem_append_right _ hy)
    · refine List.pairwise_append.2 ⟨hL, List.pairwise_cons.2 ⟨hxR, hR⟩, fun y hy z hz => ?_⟩
      rcases List.mem_cons.1 hz with rfl | hz
      · exact hLx y hy
      · exact hLR y hy z hz

theorem IsSorted.nodup (h : IsSorted L) : L.Nodup := by
  refine List.Pairwise.imp_of_mem ?_ h.ordered
  rintro x _ hx - hle rfl
  have := h.areas x hx
  omega

theorem IsSorted.shrink (h : IsSorted (L ++ va :: R)) (va' : VmapArea) (hne : va'.vaStart < va'.vaEnd)
    (hstart : va.vaStart ≤ va'.vaStart) (hend : va'.vaEnd ≤ va.vaEnd) : IsSorted (L ++ va' :: R) := by
  obtain ⟨hrest, hva, hL, hR⟩ := isSorted_middle.1 h
  exact isSorted_middle.2 ⟨hrest, ⟨hne, hend.trans_lt hva.2⟩, fun y hy => (hL y hy).trans hstart,
    fun y hy => hend.trans (hR y hy)⟩

theorem IsSorted.split (h : IsSorted (L ++ va :: R)) (hstart : va.vaStart < nva) (hend : nva + size < va.vaEnd) :
    IsSorted (L ++ ⟨va.vaStart, nva⟩ :: ⟨nva + size, va.vaEnd⟩ :: R) := by
  obtain ⟨-, hva, hL, hR⟩ := isSorted_middle.1 h
  refine isSorted_middle.2 ⟨h.shrink _ hend (by dsimp only; omega) le_rfl, ⟨hstart, by dsimp only; omega⟩, hL, ?_⟩
  intro y hy
  rcases List.mem_cons.1 hy with rfl | hy
  · exact Nat.le_add_right ..
  · have := hR y hy
    dsimp only
    omega

theorem IsSorted.gap_unique {L' R' : List VmapArea} (h : IsSorted (L ++ va :: R)) (hsame : L ++ R = L' ++ R')
    (hL' : ∀ y ∈ L', y.vaEnd ≤ va.vaStart) (hR' : ∀ y ∈ R', va.vaEnd ≤ y.vaStart) : L = L' ∧ R = R' := by
  obtain ⟨hrest, hva, hL, hR⟩ := isSorted_middle.1 h
  -- no area is below and above the gap
  have hnil : ∀ M : List VmapArea, (∀ y ∈ M, y.vaEnd ≤ va.vaStart ∧ va.vaEnd ≤ y.vaStart ∧ y ∈ L ++ R) → M = [] := by
    intro M hM
    refine List.eq_nil_iff_forall_not_mem.2 fun y hy => ?_
    obtain ⟨h₁, h₂, hmem⟩ := hM y hy
    have := hrest.areas y hmem
    omega
  rcases List.append_eq_append_iff.1 hsame with ⟨M, rfl, rfl⟩ | ⟨M, rfl, rfl⟩
  · obtain rfl := hnil M fun y hy => ⟨hL' y (by simp [hy]), hR y (by simp [hy]), by simp [hy]⟩
    simp
  · obtain rfl := hnil M fun y hy => ⟨hL y (by simp [hy]), hR' y (by simp [hy]), by simp [hy]⟩
    simp

theorem place_split {s : FreePlace} (hs : s.tree.toList = L ++ s.val :: R) (h : (L ++ s.val :: R).Nodup) :
    before s.path ++ s.left.toList = L ∧ s.right.toList ++ after s.path = R := by
  have hsplit := s.toList_split
  have hnodup := h
  rw [hsplit] at hs
  rw [← hs] at hnodup
  obtain ⟨hl, -, hr⟩ := (List.append_cons_inj_of_notMem (not_mem_of_nodup hnodup).1 (not_mem_of_nodup hnodup).2).1 hs
  exact ⟨hl, hr⟩

theorem IsSorted.append_left (h : IsSorted (L ++ R)) : IsSorted L :=
  ⟨fun x hx => h.areas x (List.mem_append_left _ hx), (List.pairwise_append.1 h.ordered).1⟩

end Sorted

/-! ### The single steps -/

theorem max_rotate (a b x y z : Nat) : max (max a (max (max b x) y)) z = max (max b x) (max (max a y) z) := by omega

theorem computeMax_eq (va : VmapArea) (x y : Option Nat) :
    computeMax va x y = max (max (vaSize va) (x.getD 0)) (y.getD 0) := rfl

theorem computeMax_rotInvariant : RotInvariant computeMax := by
  intro v w x y z
  rw [computeMax_eq, computeMax_eq, computeMax_eq, computeMax_eq, Option.getD_some, Option.getD_some]
  exact max_rotate (vaSize v) (vaSize w) (x.getD 0) (y.getD 0) (z.getD 0)

theorem vaSize_le_computeMax (va : VmapArea) (x y : Option Nat) : vaSize va ≤ computeMax va x y :=
  (Nat.le_max_left ..).trans (Nat.le_max_left ..)

theorem vaSize_pos {va : VmapArea} (h : va.vaStart < va.vaEnd) (hend : va.vaEnd < 2 ^ 64) : 0 < vaSize va := by
  unfold vaSize sub64
  omega

namespace FreeAreas

structure Shaped (st : FreeAreas) : Prop where
  isRb : IsRb st.root
  list_eq : st.list = st.root.toList
  sorted : IsSorted st.list

structure Linked (st : FreeAreas) : Prop extends Shaped st where
  maxima : Augmented computeMax st.root

section Steps

variable {st : FreeAreas} {va va' : VmapArea} {L R : List VmapArea} {link : FreePath}

theorem Shaped.place (hst : st.Shaped) (hlist : st.list = L ++ va :: R) : ∃ s, locate va st.root [] = some s ∧
    s.val = va ∧ s.tree = st.root ∧ before s.path ++ s.left.toList = L ∧ s.right.toList ++ after s.path = R := by
  have hmem : va ∈ st.root.toList := by
    rw [← hst.list_eq, hlist]
    simp
  have hnodup := hst.sorted.nodup
  obtain ⟨s, hs⟩ := exists_locate hmem []
  obtain ⟨rfl, htree⟩ := locate_eq_some hs
  rw [hlist] at hnodup
  refine ⟨s, hs, rfl, htree, place_split ?_ hnodup⟩
  rw [htree, plug, ← hst.list_eq, hlist]

theorem not_mem_path {s : FreePlace} (hl : before s.path ++ s.left.toList = L) (hr : s.right.toList ++ after s.path = R)
    (h : (L ++ va :: R).Nodup) : va ∉ before s.path ∧ va ∉ after s.path := by
  obtain ⟨hL, hR⟩ := not_mem_of_nodup h
  rw [← hl, List.mem_append, not_or] at hL
  rw [← hr, List.mem_append, not_or] at hR
  exact ⟨hL.1, hR.2⟩

theorem resize_spec (hst : st.Linked) (hlist : st.list = L ++ va :: R) (hsorted : IsSorted (L ++ va' :: R)) :
    ∃ st', st.resize va va' = some st' ∧ st'.Shaped ∧ st'.list = L ++ va' :: R ∧ ResizedAt computeMax va' st'.root := by
  obtain ⟨s, hs, rfl, htree, hl, hr⟩ := hst.place hlist
  have hnodup := hst.sorted.nodup
  rw [hlist] at hnodup
  have hrb := hst.isRb
  have haug := hst.maxima
  rw [← htree] at hrb haug
  have hat : ({ s with val := va' } : FreePlace).tree.toList = L ++ va' :: R := by
    rw [Place.toList_split, ← hl, ← hr]
  obtain ⟨hb, ha⟩ := not_mem_path hl hr hsorted.nodup
  refine ⟨⟨({ s with val := va' } : FreePlace).tree, L ++ va' :: R⟩, ?_,
    ⟨Place.isRb_retag hrb va' s.aug, hat.symm, hsorted⟩, rfl,
    { s with val := va' }, Place.locate_tree (s := { s with val := va' }) hb ha, haug.place⟩
  rw [resize, Vmalloc.resize, hs, hlist, listResize_split hnodup]
  rfl

theorem unlinkVaAugment_spec (hst : st.Shaped) (hlist : st.list = L ++ va :: R) (hat : ResizedAt computeMax va st.root) :
    ∃ st', st.unlinkVaAugment va = some st' ∧ st'.Linked ∧ st'.list = L ++ R := by
  obtain ⟨s, hs, rfl, htree, hl, hr⟩ := hst.place hlist
  have hsorted := hst.sorted
  rw [hlist] at hsorted
  obtain ⟨s', hs', hleft, hright, hpath⟩ := hat
  obtain rfl : s = s' := Option.some.inj (hs.symm.trans hs')
  have hrb := hst.isRb
  rw [← htree] at hrb
  obtain ⟨c, n, hnode, hfits⟩ := hrb.place
  obtain ⟨t, ht, hrb'⟩ := erase_isRb computeMax hnode hfits
  have htlist : t.toList = L ++ R := by
    rw [toList_erase ht, around, ← hl, ← hr]
    simp
  refine ⟨⟨t, L ++ R⟩, ?_, ⟨⟨hrb', htlist.symm, (isSorted_middle.1 hsorted).1⟩,
    erase_augmented computeMax_rotInvariant hleft hright hpath ht⟩, rfl⟩
  rw [unlinkVaAugment, unlinkVa, hs, Option.bind_some, ht, hlist,
    List.erase_append_right _ (not_mem_of_nodup hsorted.nodup).1, List.erase_cons_head]
  rfl

theorem augmentTreePropagateFrom_spec (hst : st.Shaped) (hat : OffAt computeMax va st.root) :
    ∃ st', st.augmentTreePropagateFrom va = some st' ∧ st'.Linked ∧ st'.list = st.list := by
  obtain ⟨s, x, hs, hl, hr, hp, hx⟩ := hat
  obtain ⟨-, htree⟩ := locate_eq_some hs
  have hrb := hst.isRb
  rw [← (show s.tree = st.root from htree)] at hrb
  have htlist : (Vmalloc.augmentTreePropagateFrom s).tree.toList = st.list := by
    rw [Vmalloc.augmentTreePropagateFrom, Place.toList_propagate, htree, plug, hst.list_eq]
  refine ⟨⟨(Vmalloc.augmentTreePropagateFrom s).tree, st.list⟩, ?_, ⟨⟨Place.isRb_propagate hrb, htlist.symm, hst.sorted⟩,
    Place.augmented_propagate hl hr hp hx⟩, rfl⟩
  rw [augmentTreePropagateFrom, hs]
  rfl

/-- Apart from the new node, which has 0 now, the data is right after the insertion, whatever the node had before. -/
theorem linkVaAugment_spec (hst : st.Linked) (hplug : plug .nil link = st.root)
    (hsorted : IsSorted (before link ++ va :: after link)) (stale : Nat) :
    ∃ st', st.linkVaAugment va stale link = some st' ∧ st'.Shaped ∧ st'.list = before link ++ va :: after link ∧
      OffAt computeMax va st'.root := by
  have hlist : st.list = before link ++ after link := by
    rw [hst.list_eq, ← hplug, toList_plug, toList_nil, List.append_nil]
  have hrb := hst.isRb
  have haug := hst.maxima
  rw [← hplug] at hrb haug
  obtain ⟨-, hpath⟩ := augmented_plug.1 haug
  obtain ⟨c, n, hnil, hfits⟩ := hrb.place
  cases hnil
  obtain ⟨t, ht, hrb'⟩ := insertColor_isRb computeMax (.redNode (v := va) (a := stale) .leaf .leaf) hfits
  obtain ⟨y, hpartly⟩ := insertColor_partly computeMax_rotInvariant ⟨.nil, .nil, .inl rfl⟩ hpath ht
  have htlist : t.toList = before link ++ va :: after link := by
    rw [toList_insertColor ht, around]
    simp
  obtain ⟨s, hs⟩ := exists_locate (show va ∈ t.toList by rw [htlist]; simp) []
  obtain ⟨rfl, htree⟩ := locate_eq_some hs
  obtain ⟨hl, hr⟩ := place_split (by rw [htree, plug, htlist]) hsorted.nodup
  obtain ⟨hb, ha⟩ := not_mem_path hl hr hsorted.nodup
  have hchildren : s.val ∉ s.left.toList ∧ s.val ∉ s.right.toList := by
    obtain ⟨hL, hR⟩ := not_mem_of_nodup hsorted.nodup
    rw [← hl, List.mem_append, not_or] at hL
    rw [← hr, List.mem_append, not_or] at hR
    exact ⟨hL.2, hR.1⟩
  rw [← (show s.tree = t from htree), Place.tree] at hpartly hrb'
  obtain ⟨x, hnode, hpath'⟩ := hpartly.of_plug hb ha
  obtain ⟨hleft, hright⟩ := hnode.children hchildren.1 hchildren.2
  have hzero : 0 ≠ computeMax s.val s.left.aug? s.right.aug? := by
    obtain ⟨-, ⟨hlt, hend⟩, -⟩ := isSorted_middle.1 hsorted
    exact ((vaSize_pos hlt hend).trans_le (vaSize_le_computeMax ..)).ne
  have hat : ({ s with aug := 0 } : FreePlace).tree.toList = before link ++ s.val :: after link := by
    rw [Place.toList_split, ← hl, ← hr]
  refine ⟨⟨({ s with aug := 0 } : FreePlace).tree, before link ++ s.val :: after link⟩, ?_,
    ⟨Place.isRb_retag hrb' s.val 0, hat.symm, hsorted⟩, rfl,
    { s with aug := 0 }, x, Place.locate_tree (s := { s with aug := 0 }) hb ha, hleft, hright, hpath', .inr hzero⟩
  rw [linkVaAugment, linkVa, ht, Option.bind_some, hs, hlist, listLink_split (isSorted_middle.1 hsorted).1.nodup]
  rfl

end Steps

/-! ### The calls -/

section Calls

variable {st : FreeAreas} {va x : VmapArea} {t : FreeTree} {L R : List VmapArea} {link p : FreePath} {nva size : Nat}

theorem findVaLinks_spec (hsorted : IsSorted t.toList)
    (hdisjoint : ∀ x ∈ t.toList, x.vaEnd ≤ va.vaStart ∨ va.vaEnd ≤ x.vaStart) (p : FreePath) :
    ∃ q L R, findVaLinks va t p = some q ∧ plug .nil q = plug t p ∧ t.toList = L ++ R ∧ before q = before p ++ L ∧
      after q = R ++ after p ∧ (∀ x ∈ L, x.vaEnd ≤ va.vaStart) ∧ ∀ x ∈ R, va.vaEnd ≤ x.vaStart := by
  induction t generalizing p with
  | nil => exact ⟨p, [], [], rfl, rfl, rfl, by simp, rfl, by simp, by simp⟩
  | node c l tmp m r ihl ihr =>
    have hareas := hsorted.areas tmp (by simp)
    have hordered := List.pairwise_append.1 hsorted.ordered
    have hdis := hdisjoint tmp (by simp)
    by_cases hle : va.vaEnd ≤ tmp.vaStart
    · have hl : IsSorted l.toList := hsorted.append_left
      obtain ⟨q, L, R, hq, hplug, hlist, hb, ha, hL, hR⟩ :=
        ihl hl (fun x hx => hdisjoint x (by simp [hx])) (⟨.left, c, tmp, m, r⟩ :: p)
      refine ⟨q, L, R ++ tmp :: r.toList, ?_, hplug, ?_, hb, ?_, hL, ?_⟩
      · rw [findVaLinks, if_pos hle, hq]
      · rw [toList_node, hlist, List.append_assoc]
      · rw [ha]
        simp [after]
      · intro x hx
        rw [List.mem_append, List.mem_cons] at hx
        rcases hx with hx | rfl | hx
        · exact hR x hx
        · exact hle
        · have := (List.pairwise_cons.1 hordered.2.1).1 x hx
          omega
    · have hr : IsSorted r.toList :=
        ⟨fun x hx => hsorted.areas x (by simp [hx]), (List.pairwise_cons.1 hordered.2.1).2⟩
      obtain ⟨q, L, R, hq, hplug, hlist, hb, ha, hL, hR⟩ :=
        ihr hr (fun x hx => hdisjoint x (by simp [hx])) (⟨.right, c, tmp, m, l⟩ :: p)
      refine ⟨q, l.toList ++ tmp :: L, R, ?_, hplug, ?_, ?_, ha, ?_, hR⟩
      · rw [findVaLinks, if_neg hle, if_pos (by omega), hq]
      · rw [toList_node, hlist, List.append_assoc, List.cons_append]
      · rw [hb]
        simp [before]
      · intro x hx
        rw [List.mem_append, List.mem_cons] at hx
        rcases hx with hx | rfl | hx
        · have := hordered.2.2 x hx tmp (.head _)
          omega
        · omega
        · exact hL x hx

theorem Linked.exists_link (hst : st.Linked) (hplug : plug t p = st.root) (hva : va.vaStart < va.vaEnd ∧ va.vaEnd < 2 ^ 64)
    (hdisjoint : ∀ x ∈ t.toList, x.vaEnd ≤ va.vaStart ∨ va.vaEnd ≤ x.vaStart)
    (hbefore : ∀ x ∈ before p, x.vaEnd ≤ va.vaStart) (hafter : ∀ x ∈ after p, va.vaEnd ≤ x.vaStart) :
    ∃ link, findVaLinks va t p = some link ∧ plug .nil link = st.root ∧ st.list = before link ++ after link ∧
      IsSorted (before link ++ va :: after link) := by
  have hlist : st.list = before p ++ t.toList ++ after p := by rw [hst.list_eq, ← hplug, toList_plug]
  have hsorted := hst.sorted
  rw [hlist] at hsorted
  have ht : IsSorted t.toList :=
    ⟨fun x hx => hsorted.areas x (by simp [hx]), (List.pairwise_append.1 (List.pairwise_append.1 hsorted.ordered).1).2.1⟩
  obtain ⟨q, L, R, hq, hnil, hsplit, hb, ha, hL, hR⟩ := findVaLinks_spec ht hdisjoint p
  have hlist' : st.list = before q ++ after q := by
    rw [hlist, hsplit, hb, ha]
    simp
  refine ⟨q, hq, hnil.trans hplug, hlist', isSorted_middle.2 ⟨?_, hva, ?_, ?_⟩⟩
  · rw [← hlist']
    exact hst.sorted
  · rw [hb]
    intro x hx
    exact (List.mem_append.1 hx).elim (hbefore x) (hL x)
  · rw [ha]
    intro x hx
    exact (List.mem_append.1 hx).elim (hR x) (hafter x)

theorem Linked.insert_at (hst : st.Linked) (hplug : plug .nil link = st.root)
    (hsorted : IsSorted (before link ++ va :: after link)) (stale : Nat) :
    ∃ st', (st.linkVaAugment va stale link).bind (augmentTreePropagateFrom va) = some st' ∧ st'.Linked ∧
      st'.list = before link ++ va :: after link := by
  obtain ⟨st₁, h₁, hshaped, hlist₁, hoff⟩ := linkVaAugment_spec hst hplug hsorted stale
  obtain ⟨st₂, h₂, hlinked, hlist₂⟩ := augmentTreePropagateFrom_spec hshaped hoff
  exact ⟨st₂, by rw [h₁, Option.bind_some, h₂], hlinked, hlist₂.trans hlist₁⟩

def New (va : VmapArea) (st : FreeAreas) : Prop :=
  va.vaStart < va.vaEnd ∧ va.vaEnd < 2 ^ 64 ∧ ∀ x ∈ st.root.toList, x.vaEnd ≤ va.vaStart ∨ va.vaEnd ≤ x.vaStart

instance decidableNew (va : VmapArea) (st : FreeAreas) : Decidable (New va st) :=
  inferInstanceAs (Decidable (_ ∧ _ ∧ _))

theorem Linked.link_of_new (hst : st.Linked) (hva : New va st) : ∃ link, findVaLinks va st.root [] = some link ∧
    plug .nil link = st.root ∧ st.list = before link ++ after link ∧ IsSorted (before link ++ va :: after link) :=
  hst.exists_link rfl ⟨hva.1, hva.2.1⟩ hva.2.2 (by simp) (by simp)

theorem insertVmapAreaAugment_spec (hst : st.Linked) (hva : New va st) (stale : Nat) :
    ∃ L R st', st.list = L ++ R ∧ st.insertVmapAreaAugment va stale none = some st' ∧ st'.Linked ∧
      st'.list = L ++ va :: R := by
  obtain ⟨link, hlink, hplug, hlist, hsorted⟩ := hst.link_of_new hva
  obtain ⟨st', h', hlinked, hlist'⟩ := hst.insert_at hplug hsorted stale
  refine ⟨before link, after link, st', hlist, ?_, hlinked, hlist'⟩
  simp [insertVmapAreaAugment, hlink, h']

theorem Linked.resize_at {va' : VmapArea} (hst : st.Linked) (hlist : st.list = L ++ va :: R)
    (hsorted : IsSorted (L ++ va' :: R)) :
    ∃ st', (st.resize va va').bind (augmentTreePropagateFrom va') = some st' ∧ st'.Linked ∧ st'.list = L ++ va' :: R := by
  obtain ⟨st₁, h₁, hshaped, hlist₁, hat⟩ := resize_spec hst hlist hsorted
  obtain ⟨st₂, h₂, hlinked, hlist₂⟩ := augmentTreePropagateFrom_spec hshaped hat.offAt
  exact ⟨st₂, by rw [h₁, Option.bind_some, h₂], hlinked, hlist₂.trans hlist₁⟩

/-- The link of a new area just below the area of a node, searched from that node. -/
theorem Linked.link_below {lva : VmapArea} {s : FreePlace} (hst : st.Linked) (hlist : st.list = L ++ va :: R)
    (hs : locate va st.root [] = some s) (hsorted : IsSorted (L ++ lva :: va :: R)) :
    ∃ link, findVaLinks lva s.node s.path = some link ∧ plug .nil link = st.root ∧ before link = L ∧ after link = va :: R := by
  obtain ⟨s', hs', rfl, htree, rfl, rfl⟩ := hst.place hlist
  obtain rfl : s = s' := Option.some.inj (hs.symm.trans hs')
  obtain ⟨-, hlva, hL, hR⟩ := isSorted_middle.1 hsorted
  have hdisjoint : ∀ x ∈ s.node.toList, x.vaEnd ≤ lva.vaStart ∨ lva.vaEnd ≤ x.vaStart := by
    intro x hx
    rw [RbTree.Place.node, toList_node, List.mem_append] at hx
    refine hx.imp (fun hx => hL x (by simp [hx])) fun hx => hR x ?_
    rw [← List.cons_append]
    exact List.mem_append_left _ hx
  obtain ⟨link, hlink, hplug, hgap, hsorted'⟩ := hst.exists_link htree hlva hdisjoint (fun x hx => hL x (by simp [hx]))
    (fun x hx => hR x (by simp [hx]))
  obtain ⟨hb, ha⟩ := hsorted'.gap_unique (hgap.symm.trans hlist) hL hR
  exact ⟨link, hlink, hplug, hb, ha⟩

theorem vaClip_linked (hst : st.Linked) (hlist : st.list = L ++ va :: R) (hstart : va.vaStart ≤ nva)
    (hend : nva + size ≤ va.vaEnd) (stale : Nat) :
    ∃ st', st.vaClip (some stale) va nva size = some (st', 0) ∧ st'.Linked ∧ st'.list = L ++ (carve va nva size ++ R) := by
  have hsorted := hst.sorted
  rw [hlist] at hsorted
  obtain ⟨-, ⟨-, hmax⟩, -⟩ := isSorted_middle.1 hsorted
  have hadd : add64 nva size = nva + size := Nat.mod_eq_of_lt (by omega)
  obtain ⟨hclass, hcarve⟩ | ⟨hclass, hcarve, hfirst, hlast⟩ | ⟨hclass, hcarve, hfirst⟩ | ⟨hclass, hcarve, hfirst, hlast⟩ :=
    classifyVaFitType_cases hstart hend hmax
  · have hmem : va ∈ st.root.toList := by
      rw [← hst.list_eq, hlist]
      simp
    obtain ⟨st', h', hlinked, hlist'⟩ := unlinkVaAugment_spec hst.toShaped hlist (hst.maxima.resizedAt hmem)
    refine ⟨st', ?_, hlinked, by rw [hlist', hcarve, List.nil_append]⟩
    simp [vaClip, hclass, h']
  · have hadd' : add64 va.vaStart size = nva + size := by rw [hfirst, hadd]
    obtain ⟨st', h', hlinked, hlist'⟩ := hst.resize_at hlist
      (hsorted.shrink ⟨nva + size, va.vaEnd⟩ hlast (by dsimp only; omega) le_rfl)
    refine ⟨st', ?_, hlinked, by rw [hlist', hcarve, List.singleton_append]⟩
    simp only [vaClip, hclass, hadd', h', Option.map_some]
  · obtain ⟨st', h', hlinked, hlist'⟩ := hst.resize_at hlist
      (hsorted.shrink ⟨va.vaStart, nva⟩ hfirst le_rfl (by dsimp only; omega))
    refine ⟨st', ?_, hlinked, by rw [hlist', hcarve, List.singleton_append]⟩
    simp only [vaClip, hclass, h', Option.map_some]
  · have hsplit := hsorted.split hfirst hlast
    obtain ⟨st₁, h₁, hlinked₁, hlist₁⟩ := hst.resize_at hlist (isSorted_middle.1 hsplit).1
    -- the new area is searched from the node of the shrunk one
    obtain ⟨s, hs, -⟩ := hlinked₁.place hlist₁
    obtain ⟨link, hlink, hplug, rfl, hafter⟩ := hlinked₁.link_below hlist₁ hs hsplit
    rw [← hafter] at hsplit
    obtain ⟨st', h', hlinked', hlist'⟩ := hlinked₁.insert_at hplug hsplit stale
    refine ⟨st', ?_, hlinked', by rw [hlist', hafter, hcarve]; rfl⟩
    simp only [vaClip, hclass, hadd, h₁, Option.bind_some, insertVmapAreaAugment, hs, Option.map_some, hlink, h',
      Option.bind_eq_bind]

end Calls

/-! ### Merging -/

section Merge

variable {st : FreeAreas} {va a : VmapArea} {L R L' R' : List VmapArea} {merged : Bool}

def JoinRight (va : VmapArea) (R : List VmapArea) (a : VmapArea) (R' : List VmapArea) : Prop :=
  (R' = R ∧ a.vaEnd = va.vaEnd ∧ ∀ y ∈ R, y.vaStart ≠ va.vaEnd) ∨
    ∃ n, R = n :: R' ∧ n.vaStart = va.vaEnd ∧ a.vaEnd = n.vaEnd

def JoinLeft (va : VmapArea) (L : List VmapArea) (a : VmapArea) (L' : List VmapArea) : Prop :=
  (L' = L ∧ a.vaStart = va.vaStart ∧ ∀ y ∈ L, y.vaEnd ≠ va.vaStart) ∨
    ∃ p, L = L' ++ [p] ∧ p.vaEnd = va.vaStart ∧ a.vaStart = p.vaStart

/-- Inside `__merge_or_add_vmap_area`: a merged area is in its place with the old data, another one is not there yet. -/
def Holding (a : VmapArea) (L R : List VmapArea) (merged : Bool) (st : FreeAreas) : Prop :=
  if merged then st.Shaped ∧ st.list = L ++ a :: R ∧ ResizedAt computeMax a st.root
  else st.Linked ∧ st.list = L ++ R

theorem mergeNext_spec (hst : st.Linked) (hlist : st.list = L ++ R) (hsorted : IsSorted (L ++ va :: R)) :
    ∃ st' a R' merged, st.mergeNext va R.head? = some (st', a, merged) ∧ Holding a L R' merged st' ∧
      IsSorted (L ++ a :: R') ∧ a.vaStart = va.vaStart ∧ JoinRight va R a R' ∧
      listPrev (if merged then some a else R.head?) st'.list = L.getLast? ∧ (merged = false → st' = st ∧ a = va) := by
  have hprev : listPrev R.head? st.list = L.getLast? := by
    rw [hlist]
    exact listPrev_head (isSorted_middle.1 hsorted).1.nodup
  obtain ⟨hrest, hva, hL, hR⟩ := isSorted_middle.1 hsorted
  cases R with
  | nil => exact ⟨st, va, [], false, rfl, ⟨hst, hlist⟩, hsorted, rfl, .inl ⟨rfl, rfl, by simp⟩, hprev, by simp⟩
  | cons n R =>
    obtain ⟨hrest', hn, hLn, hnR⟩ := isSorted_middle.1 hrest
    by_cases htouch : n.vaStart = va.vaEnd
    · have hsorted' : IsSorted (L ++ ⟨va.vaStart, n.vaEnd⟩ :: R) :=
        isSorted_middle.2 ⟨hrest', ⟨by dsimp only; omega, hn.2⟩, hL, hnR⟩
      obtain ⟨st', h', hshaped, hlist', hat⟩ := resize_spec hst hlist hsorted'
      refine ⟨st', ⟨va.vaStart, n.vaEnd⟩, R, true, ?_, ⟨hshaped, hlist', hat⟩, hsorted', rfl, .inr ⟨n, rfl, htouch, rfl⟩,
        ?_, by simp⟩
      · simp only [List.head?_cons, mergeNext, if_pos htouch, h', Option.map_some]
      · rw [hlist']
        exact listPrev_head (R := ⟨va.vaStart, n.vaEnd⟩ :: R) hsorted'.nodup
    · refine ⟨st, va, n :: R, false, ?_, ⟨hst, hlist⟩, hsorted, rfl, .inl ⟨rfl, rfl, ?_⟩, hprev, by simp⟩
      · simp only [List.head?_cons, mergeNext, if_neg htouch]
      · intro y hy
        rcases List.mem_cons.1 hy with rfl | hy
        · exact htouch
        · have := hnR y hy
          have := hR n (.head _)
          omega

theorem mergePrev_spec (hst : Holding va L R merged st) (hsorted : IsSorted (L ++ va :: R)) :
    ∃ st' a L' merged', st.mergePrev va merged L.getLast? = some (st', a, merged') ∧ Holding a L' R merged' st' ∧
      IsSorted (L' ++ a :: R) ∧ a.vaEnd = va.vaEnd ∧ JoinLeft va L a L' ∧
      (merged' = false → merged = false ∧ st' = st ∧ a = va ∧ L' = L) := by
  obtain ⟨hrest, hva, hL, hR⟩ := isSorted_middle.1 hsorted
  rcases List.eq_nil_or_concat L with rfl | ⟨L, p, rfl⟩
  · exact ⟨st, va, [], merged, rfl, hst, hsorted, rfl, .inl ⟨rfl, rfl, by simp⟩, by simp⟩
  · rw [List.concat_eq_append] at *
    have hlast : (L ++ [p]).getLast? = some p := by simp
    rw [List.append_assoc, List.singleton_append] at hrest
    obtain ⟨hrest', hp, hLp, hpR⟩ := isSorted_middle.1 hrest
    by_cases htouch : p.vaEnd = va.vaStart
    · have hsorted' : IsSorted (L ++ ⟨p.vaStart, va.vaEnd⟩ :: R) :=
        isSorted_middle.2 ⟨hrest', ⟨by dsimp only; omega, hva.2⟩, hLp, hR⟩
      -- a merged "next" node is taken out first
      obtain ⟨st₁, h₁, hlinked, hlist₁⟩ : ∃ st₁, (if merged then st.unlinkVaAugment va else some st) = some st₁ ∧
          st₁.Linked ∧ st₁.list = L ++ p :: R := by
        cases merged with
        | false => exact ⟨st, rfl, hst.1, by rw [hst.2, List.append_assoc, List.singleton_append]⟩
        | true =>
          obtain ⟨hshaped, hlist, hat⟩ := hst
          obtain ⟨st₁, h₁, hlinked, hlist₁⟩ := unlinkVaAugment_spec hshaped hlist hat
          exact ⟨st₁, h₁, hlinked, by rw [hlist₁, List.append_assoc, List.singleton_append]⟩
      obtain ⟨st', h', hshaped, hlist', hat⟩ := resize_spec hlinked hlist₁ hsorted'
      refine ⟨st', ⟨p.vaStart, va.vaEnd⟩, L, true, ?_, ⟨hshaped, hlist', hat⟩, hsorted', rfl, .inr ⟨p, rfl, htouch, rfl⟩,
        by simp⟩
      simp only [hlast, mergePrev, if_pos htouch, h₁, Option.bind_some, h', Option.map_some]
    · refine ⟨st, va, L ++ [p], merged, ?_, hst, hsorted, rfl, .inl ⟨rfl, rfl, ?_⟩, by simp⟩
      · simp only [hlast, mergePrev, if_neg htouch]
      · intro y hy
        rw [List.mem_append, List.mem_singleton] at hy
        rcases hy with hy | rfl
        · have := hLp y hy
          have := hL p (by simp)
          omega
        · exact htouch

theorem mergeOrAddVmapAreaAugment_spec (hst : st.Linked) (hva : New va st) (stale : Nat) :
    ∃ L R a L' R' st', IsSorted (L ++ va :: R) ∧ JoinLeft va L a L' ∧ JoinRight va R a R' ∧
      st.mergeOrAddVmapAreaAugment va stale = some st' ∧ st'.Linked ∧ st'.list = L' ++ a :: R' := by
  obtain ⟨link, hlink, hplug, hlist, hsorted⟩ := hst.link_of_new hva
  obtain ⟨stₗ, hₗ, hlinkedₗ, hlistₗ⟩ := hst.insert_at hplug hsorted stale
  by_cases hempty : link = []
  · subst hempty
    refine ⟨[], [], va, [], [], stₗ, hsorted, .inl ⟨rfl, rfl, by simp⟩, .inl ⟨rfl, rfl, by simp⟩, ?_, hlinkedₗ, hlistₗ⟩
    simp only [mergeOrAddVmapAreaAugment, mergeOrAddVmapArea, hlink, getVaNextSibling, Option.bind_map]
    exact hₗ
  · have hnext := getVaNextSibling_split (hlist ▸ hst.sorted.nodup) hempty
    rw [← hlist] at hnext
    obtain ⟨st₁, a₁, R', merged₁, h₁, hold₁, hsorted₁, hstart₁, hright, hprev, hsame₁⟩ := mergeNext_spec hst hlist hsorted
    obtain ⟨st₂, a, L', merged₂, h₂, hold₂, hsorted₂, hend₂, hleft, hsame₂⟩ := mergePrev_spec hold₁ hsorted₁
    rw [JoinLeft, hstart₁] at hleft
    have hright' : JoinRight va (after link) a R' := by
      rw [JoinRight, hend₂]
      exact hright
    cases merged₂ with
    | true =>
      obtain ⟨hshaped, hlist₂, hat⟩ := hold₂
      obtain ⟨st', h', hlinked, hlist'⟩ := augmentTreePropagateFrom_spec hshaped hat.offAt
      refine ⟨before link, after link, a, L', R', st', hsorted, hleft, hright', ?_, hlinked, hlist'.trans hlist₂⟩
      simp [mergeOrAddVmapAreaAugment, mergeOrAddVmapArea, hlink, hnext, h₁, hprev, h₂, h']
    | false =>
      obtain ⟨rfl, rfl, rfl, rfl⟩ := hsame₂ rfl
      obtain ⟨rfl, rfl⟩ := hsame₁ rfl
      have hR' : R' = after link := List.append_cancel_left (hold₂.2.symm.trans hlist)
      refine ⟨before link, after link, a, before link, R', stₗ, hsorted, hleft, hright', ?_, hlinkedₗ, by rw [hR', hlistₗ]⟩
      simp only [mergeOrAddVmapAreaAugment, mergeOrAddVmapArea, hlink, hnext, h₁, hprev, h₂, Option.bind_eq_bind,
        Option.bind_some]
      rw [if_neg Bool.false_ne_true, Option.bind_map]
      exact hₗ

theorem not_touching (hsorted : IsSorted (L ++ va :: R)) (hleft : JoinLeft va L a L') (hright : JoinRight va R a R')
    (hsorted' : IsSorted (L' ++ a :: R')) {x y : VmapArea} (hx : x ∈ L' ++ a :: R') (hy : y ∈ L' ++ a :: R')
    (htouch : x.vaEnd = y.vaStart) : ¬ (va.vaStart ≤ x.vaEnd ∧ x.vaEnd ≤ va.vaEnd) := by
  rintro ⟨hlow, hhigh⟩
  obtain ⟨-, ha, hLa, haR⟩ := isSorted_middle.1 hsorted'
  obtain ⟨hrest, hva, hL, hR⟩ := isSorted_middle.1 hsorted
  have hend : va.vaEnd ≤ a.vaEnd := by
    rcases hright with ⟨-, heq, -⟩ | ⟨n, rfl, hn, heq⟩
    · exact heq.ge
    · have := hrest.areas n (by simp)
      omega
  rw [List.mem_append, List.mem_cons] at hx hy
  rcases hx with hx | rfl | hx
  · have := hLa x hx
    rcases hleft with ⟨rfl, -, hno⟩ | ⟨p, rfl, hp, heq⟩
    · exact hno x hx (le_antisymm (hL x hx) hlow)
    · have := hrest.areas p (by simp)
      omega
  · rcases hy with hy | rfl | hy
    · have := hLa y hy
      have := hsorted'.areas y (by simp [hy])
      omega
    · omega
    · rcases hright with ⟨rfl, heq, hno⟩ | ⟨n, rfl, hn, heq⟩
      · exact hno y hy (htouch.symm.trans heq)
      · have := hrest.areas n (by simp)
        omega
  · have := haR x hx
    have := hsorted'.areas x (by simp [hx])
    omega

end Merge

/-! ### The tree alone

What the calls do to the tree does not depend on the list, as long as the two have the same areas: it is what the functions
on trees do. -/

section Root

variable {st : FreeAreas} {va va' : VmapArea} {s : FreePlace} {L R : List VmapArea} {link : FreePath} {nva size : Nat}

theorem Shaped.locate_eq (hst : st.Shaped) (hs : s.tree = st.root) : locate s.val st.root [] = some s := by
  have hnodup := hst.sorted.nodup
  rw [hst.list_eq, ← hs, Place.toList_split] at hnodup
  obtain ⟨hb, ha⟩ := not_mem_path rfl rfl hnodup
  rw [← hs]
  exact Place.locate_tree hb ha

theorem insert_at_root (hst : st.Linked) (hplug : plug .nil link = st.root)
    (hsorted : IsSorted (before link ++ va :: after link)) (stale : Nat) :
    ((st.linkVaAugment va stale link).bind (augmentTreePropagateFrom va)).map root =
      (insertColor computeMax .nil va stale .nil link).bind fun t =>
        (locate va t []).bind fun s => some (Vmalloc.augmentTreePropagateFrom { s with aug := 0 }).tree := by
  obtain ⟨st₁, h₁, hshaped, -⟩ := linkVaAugment_spec hst hplug hsorted stale
  obtain ⟨t', ht', rfl⟩ := Option.map_eq_some_iff.1 h₁
  obtain ⟨t, ht, hlocate⟩ := Option.bind_eq_some_iff.1 ht'
  obtain ⟨s, hs, rfl⟩ := Option.map_eq_some_iff.1 hlocate
  obtain ⟨rfl, -⟩ := locate_eq_some hs
  have hs' := hshaped.locate_eq (s := { s with aug := 0 }) rfl
  dsimp only at hs'
  rw [h₁, Option.bind_some, augmentTreePropagateFrom, hs', ht, Option.bind_some, hs]
  rfl

theorem insertVmapAreaAugment_root (hst : st.Linked) (hva : New va st) (stale : Nat) :
    (st.insertVmapAreaAugment va stale none).map root = Vmalloc.insertVmapAreaAugment va stale st.root [] := by
  obtain ⟨link, hlink, hplug, -, hsorted⟩ := hst.link_of_new hva
  simp only [insertVmapAreaAugment, Vmalloc.insertVmapAreaAugment, hlink, Option.bind_eq_bind, Option.bind_some,
    insert_at_root hst hplug hsorted stale]
  rfl

theorem insert_below_root (lva : VmapArea) (hst : st.Linked) (hs : s.tree = st.root) (hlist : st.list = L ++ s.val :: R)
    (hsorted : IsSorted (L ++ lva :: s.val :: R)) (stale : Nat) :
    (st.insertVmapAreaAugment lva stale (some s.val)).map root =
      Vmalloc.insertVmapAreaAugment lva stale s.node s.path := by
  have hlocate := hst.locate_eq hs
  obtain ⟨link, hlink, hplug, rfl, hafter⟩ := hst.link_below hlist hlocate hsorted
  rw [← hafter] at hsorted
  simp only [insertVmapAreaAugment, Vmalloc.insertVmapAreaAugment, hlocate, Option.map_some, Option.bind_eq_bind,
    Option.bind_some, hlink, insert_at_root hst hplug hsorted stale]
  rfl

theorem resize_at_eq (hst : st.Linked) (hs : locate va st.root [] = some s) (hlist : st.list = L ++ va :: R)
    (hsorted : IsSorted (L ++ va' :: R)) : (st.resize va va').bind (augmentTreePropagateFrom va') =
      some ⟨(Vmalloc.augmentTreePropagateFrom { s with val := va' }).tree, listResize va va' st.list⟩ := by
  obtain ⟨st₁, h₁, hshaped, -⟩ := resize_spec hst hlist hsorted
  have h₁' : st.resize va va' = some ⟨({ s with val := va' } : FreePlace).tree, listResize va va' st.list⟩ := by
    rw [resize, Vmalloc.resize, hs]
    rfl
  cases h₁.symm.trans h₁'
  have hs' := hshaped.locate_eq (s := { s with val := va' }) rfl
  dsimp only at hs'
  rw [h₁, Option.bind_some, augmentTreePropagateFrom, hs']
  rfl

theorem vaClip_root (hst : st.Linked) (hs : locate va st.root [] = some s) (hstart : va.vaStart ≤ nva)
    (hend : nva + size ≤ va.vaEnd) (stale : Nat) :
    (st.vaClip (some stale) va nva size).map (Prod.map root id) = Vmalloc.vaClip (some stale) s nva size := by
  obtain ⟨rfl, htree⟩ := locate_eq_some hs
  have hmem := s.val_mem
  rw [htree, plug, ← hst.list_eq] at hmem
  obtain ⟨L, R, hlist⟩ := List.append_of_mem hmem
  have hsorted := hst.sorted
  rw [hlist] at hsorted
  obtain ⟨-, ⟨-, hmax⟩, -⟩ := isSorted_middle.1 hsorted
  have hadd : add64 nva size = nva + size := Nat.mod_eq_of_lt (by omega)
  obtain ⟨hclass, -⟩ | ⟨hclass, -, hfirst, hlast⟩ | ⟨hclass, -, hfirst⟩ | ⟨hclass, -, hfirst, hlast⟩ :=
    classifyVaFitType_cases hstart hend hmax
  · simp only [vaClip, Vmalloc.vaClip, hclass, unlinkVaAugment, unlinkVa, hs, Option.bind_some, Option.map_map]
    rfl
  · have hadd' : add64 s.val.vaStart size = nva + size := by rw [hfirst, hadd]
    simp only [vaClip, Vmalloc.vaClip, hclass, hadd', resize_at_eq hst hs hlist
      (hsorted.shrink ⟨nva + size, s.val.vaEnd⟩ hlast (by dsimp only; omega) le_rfl), Option.map_some]
    rfl
  · simp only [vaClip, Vmalloc.vaClip, hclass, resize_at_eq hst hs hlist
      (hsorted.shrink ⟨s.val.vaStart, nva⟩ hfirst le_rfl (by dsimp only; omega)), Option.map_some]
    rfl
  · have hsplit := hsorted.split hfirst hlast
    have h₁ := resize_at_eq hst hs hlist (isSorted_middle.1 hsplit).1
    obtain ⟨st₁, h₁', hlinked₁, hlist₁⟩ := hst.resize_at hlist (isSorted_middle.1 hsplit).1
    cases h₁.symm.trans h₁'
    obtain ⟨hval, -⟩ := RbTree.Place.propagate_fields computeMax { s with val := ⟨nva + size, s.val.vaEnd⟩ }
    rw [← Vmalloc.augmentTreePropagateFrom] at hval
    dsimp only at hval
    have hinsert := insert_below_root ⟨s.val.vaStart, nva⟩ hlinked₁ rfl (hval.symm ▸ hlist₁) (hval.symm ▸ hsplit) stale
    rw [hval] at hinsert
    simp only [vaClip, Vmalloc.vaClip, hclass, hadd]
    rw [h₁, Option.bind_some, ← hinsert, Option.map_map, Option.map_map]
    rfl

theorem mergeNext_eq (va : VmapArea) (next : Option VmapArea) (st : FreeAreas) : st.mergeNext va next =
    match next.filter (·.vaStart = va.vaEnd) with
    | none => some (st, va, false)
    | some n => (st.resize n ⟨va.vaStart, n.vaEnd⟩).map (·, ⟨va.vaStart, n.vaEnd⟩, true) := by
  cases next with
  | none => rfl
  | some n => by_cases hn : n.vaStart = va.vaEnd <;> simp [mergeNext, Option.filter, hn]

theorem mergePrev_eq (va : VmapArea) (merged : Bool) (prev : Option VmapArea) (st : FreeAreas) : st.mergePrev va merged prev =
    match prev.filter (·.vaEnd = va.vaStart) with
    | none => some (st, va, merged)
    | some p => ((if merged then st.unlinkVaAugment va else some st).bind (resize p ⟨p.vaStart, va.vaEnd⟩)).map
        (·, ⟨p.vaStart, va.vaEnd⟩, true) := by
  cases prev with
  | none => rfl
  | some p => by_cases hp : p.vaEnd = va.vaStart <;> simp [mergePrev, Option.filter, hp]

theorem mergeOrAddVmapArea_root (hst : st.Linked) (hva : New va st) (stale : Nat) :
    (st.mergeOrAddVmapArea va stale).map (Prod.map root id) = Vmalloc.mergeOrAddVmapArea computeMax stale 0 va st.root := by
  obtain ⟨link, hlink, hplug, hlist, hsorted⟩ := hst.link_of_new hva
  have hadd : ((st.linkVaAugment va stale link).map (·, some va)).map (Prod.map root id) =
      (linkVa computeMax stale 0 va link).bind fun t => some (t, some va) := by
    rw [linkVaAugment]
    cases linkVa computeMax stale 0 va link <;> rfl
  rw [mergeOrAddVmapArea, Vmalloc.mergeOrAddVmapArea, hlink]
  by_cases hempty : link = []
  · subst hempty
    exact hadd
  · have hnext := getVaNextSibling_split (hlist ▸ hst.sorted.nodup) hempty
    rw [← hlist] at hnext
    obtain ⟨st₁, a₁, R', merged₁, h₁, -, -, hstart₁, -, hprev, -⟩ := mergeNext_spec hst hlist hsorted
    simp only [hnext, h₁, Option.bind_eq_bind, Option.bind_some, hprev, mergePrev_eq, hstart₁]
    rw [mergeNext_eq] at h₁
    cases hn : (after link).head?.filter (·.vaStart = va.vaEnd) with
    | none =>
      rw [hn] at h₁
      cases h₁
      cases hp : (before link).getLast?.filter (·.vaEnd = va.vaStart) with
      | none => exact hadd
      | some p => cases hr : Vmalloc.resize p ⟨p.vaStart, va.vaEnd⟩ st.root <;> simp [resize, hr]
    | some n =>
      rw [hn] at h₁
      obtain ⟨st₁, hresize, heq⟩ := Option.map_eq_some_iff.1 h₁
      cases heq
      obtain ⟨t₁, ht₁, rfl⟩ := Option.map_eq_some_iff.1 hresize
      cases hp : (before link).getLast?.filter (·.vaEnd = va.vaStart) with
      | none => simp [ht₁]
      | some p =>
        cases hu : unlinkVa computeMax ⟨va.vaStart, n.vaEnd⟩ t₁ with
        | none => simp [ht₁, unlinkVaAugment, hu]
        | some t₂ => cases hr : Vmalloc.resize p ⟨p.vaStart, n.vaEnd⟩ t₂ <;> simp [ht₁, unlinkVaAugment, hu, resize, hr]

theorem mergeOrAddVmapAreaAugment_root (hst : st.Linked) (hva : New va st) (stale : Nat) :
    (st.mergeOrAddVmapAreaAugment va stale).map root = Vmalloc.mergeOrAddVmapAreaAugment stale va st.root := by
  rw [mergeOrAddVmapAreaAugment, Vmalloc.mergeOrAddVmapAreaAugment, ← mergeOrAddVmapArea_root hst hva stale, Option.bind_map,
    Option.map_bind]
  congr 1
  funext r
  obtain ⟨st', va'⟩ := r
  cases va' with
  | none => rfl
  | some va' => simp [augmentTreePropagateFrom, Function.comp_def]

end Root

end FreeAreas

/-! ### Runs -/

section Runs

open FreeAreas

variable {st st' : FreeAreas} {t : FreeTree}

/-- A call on the free areas; the number is what a new object holds as `subtree_max_size`. -/
inductive FreeOp
  | insert (va : VmapArea) (stale : Nat)
  | mergeOrAdd (va : VmapArea) (stale : Nat)
  | clip (va : VmapArea) (nva size stale : Nat)

def FreeOp.run (st : FreeAreas) : FreeOp → Option FreeAreas
  | insert va stale => st.insertVmapAreaAugment va stale none
  | mergeOrAdd va stale => st.mergeOrAddVmapAreaAugment va stale
  | clip va nva size stale => (st.vaClip (some stale) va nva size).map (·.1)

/-- New areas are not empty and overlap none of those present; a clipped range is inside a present area. -/
def FreeOp.Allowed (st : FreeAreas) : FreeOp → Prop
  | insert va _ => New va st
  | mergeOrAdd va _ => New va st
  | clip va nva size _ => va ∈ st.root.toList ∧ va.vaStart ≤ nva ∧ nva + size ≤ va.vaEnd

instance FreeOp.decidableAllowed (st : FreeAreas) : (op : FreeOp) → Decidable (op.Allowed st)
  | insert va _ => decidableNew va st
  | mergeOrAdd va _ => decidableNew va st
  | clip _ _ _ _ => inferInstanceAs (Decidable (_ ∧ _ ∧ _))

def freeSystem : Trans.System FreeAreas FreeOp where
  init st := st = ⟨.nil, []⟩
  step st op st' := op.Allowed st ∧ op.run st = some st'

theorem FreeAreas.Linked.step (hst : st.Linked) {op : FreeOp} (hop : op.Allowed st) :
    ∃ st', op.run st = some st' ∧ st'.Linked := by
  cases op with
  | insert va stale =>
    obtain ⟨L, R, st', -, h', hlinked, -⟩ := insertVmapAreaAugment_spec hst hop stale
    exact ⟨st', h', hlinked⟩
  | mergeOrAdd va stale =>
    obtain ⟨L, R, a, L', R', st', -, -, -, h', hlinked, -⟩ := mergeOrAddVmapAreaAugment_spec hst hop stale
    exact ⟨st', h', hlinked⟩
  | clip va nva size stale =>
    obtain ⟨hmem, hstart, hend⟩ := hop
    rw [← hst.list_eq] at hmem
    obtain ⟨L, R, hlist⟩ := List.append_of_mem hmem
    obtain ⟨st', h', hlinked, -⟩ := vaClip_linked hst hlist hstart hend stale
    exact ⟨st', by rw [FreeOp.run, h', Option.map_some], hlinked⟩

theorem linked_of_reachable (h : freeSystem.Reachable st) : st.Linked := by
  refine h.induction ?_ ?_
  · rintro st rfl
    exact ⟨⟨⟨0, .leaf⟩, rfl, ⟨by simp, .nil⟩⟩, trivial⟩
  · rintro st op st' - hst ⟨hop, hrun⟩
    obtain ⟨st'', hrun', hlinked⟩ := hst.step hop
    cases hrun.symm.trans hrun'
    exact hlinked

theorem exists_vaSize_eq (h : Augmented computeMax t) (hne : t ≠ .nil) : ∃ va ∈ t.toList, vaSize va = getSubtreeMaxSize t := by
  induction t with
  | nil => exact absurd rfl hne
  | node c l va m r ihl ihr =>
    obtain ⟨hm, hl, hr⟩ := h
    have hmax : getSubtreeMaxSize (.node c l va m r) = max (max (vaSize va) (getSubtreeMaxSize l)) (getSubtreeMaxSize r) := hm
    rw [hmax]
    rcases Nat.lt_or_ge (max (vaSize va) (getSubtreeMaxSize l)) (getSubtreeMaxSize r) with hlt | hge
    · obtain ⟨x, hx, hsize⟩ := ihr hr (ne_nil_of_max hlt (Nat.succ_pos _))
      exact ⟨x, by simp [hx], by rw [hsize, Nat.max_eq_right hlt.le]⟩
    · rw [Nat.max_eq_left hge]
      rcases Nat.lt_or_ge (vaSize va) (getSubtreeMaxSize l) with hlt | hge
      · obtain ⟨x, hx, hsize⟩ := ihl hl (ne_nil_of_max hlt (Nat.succ_pos _))
        exact ⟨x, by simp [hx], by rw [hsize, Nat.max_eq_right hlt.le]⟩
      · exact ⟨va, by simp, by rw [Nat.max_eq_left hge]⟩

/-- In every state that the calls reach, the `subtree_max_size` of a node is the largest size of an area below it, and the
list has the areas of the tree in ascending order.  Every allowed call returns, and after `merge_or_add_vmap_area_augment`
no two areas touch at an address of the range. -/
theorem freeAreas_reachable (h : freeSystem.Reachable st) :
    (∀ s : FreePlace, s.tree = st.root → IsGreatest {n | ∃ va ∈ s.node.toList, vaSize va = n} s.aug) ∧
    st.list = st.root.toList ∧ IsSorted st.list ∧ (∀ op : FreeOp, op.Allowed st → ∃ st', op.run st = some st') ∧
    ∀ va stale st', New va st → (FreeOp.mergeOrAdd va stale).run st = some st' →
      ∀ x ∈ st'.list, ∀ y ∈ st'.list, x.vaEnd = y.vaStart → ¬ (va.vaStart ≤ x.vaEnd ∧ x.vaEnd ≤ va.vaEnd) := by
  have hst := linked_of_reachable h
  refine ⟨?_, hst.list_eq, hst.sorted, ?_, ?_⟩
  · intro s htree
    have haug := hst.maxima
    rw [← htree] at haug
    obtain ⟨hnode, -⟩ := augmented_plug.1 haug
    constructor
    · refine exists_vaSize_eq hnode ?_
      intro hnil
      cases hnil
    · rintro n ⟨va, hva, rfl⟩
      exact vaSize_le_of_augmented hnode hva
  · intro op hop
    obtain ⟨st', hrun, -⟩ := hst.step hop
    exact ⟨st', hrun⟩
  · intro va stale st' hva hrun x hx y hy htouch
    obtain ⟨L, R, a, L', R', st'', hsorted, hleft, hright, hrun', hlinked, hlist⟩ :=
      mergeOrAddVmapAreaAugment_spec hst hva stale
    cases hrun.symm.trans hrun'
    have hsorted' := hlinked.sorted
    rw [hlist] at hx hy hsorted'
    exact not_touching hsorted hleft hright hsorted' hx hy htouch

def clipAndMerge : List FreeOp :=
  [.insert ⟨0x1000, 0x5000⟩ 7, .insert ⟨0x8000, 0xa000⟩ 99, .clip ⟨0x1000, 0x5000⟩ 0x2000 0x1000 5,
    .mergeOrAdd ⟨0x2000, 0x3000⟩ 1]

def freeStep (st : FreeAreas) (op : FreeOp) : Option FreeAreas := if op.Allowed st then op.run st else none

theorem step_of_freeStep {op : FreeOp} (h : freeStep st op = some st') : freeSystem.step st op st' := by
  unfold freeStep at h
  split at h
  · exact ⟨‹_›, h⟩
  · cases h

/-- The node of the first area was erased when both parts of it were merged with the page. -/
theorem freeAreas_reachable_clipAndMerge : ∃ st, freeSystem.Reachable st ∧
    st.root = .node .black (.node .red .nil ⟨0x1000, 0x5000⟩ 0x4000 .nil) ⟨0x8000, 0xa000⟩ 0x4000 .nil ∧
    st.list = [⟨0x1000, 0x5000⟩, ⟨0x8000, 0xa000⟩] ∧ IsSorted st.list := by
  have hsome : (Trans.System.replay freeStep clipAndMerge [] ⟨.nil, []⟩).map (·.2) =
      some ⟨.node .black (.node .red .nil ⟨0x1000, 0x5000⟩ 0x4000 .nil) ⟨0x8000, 0xa000⟩ 0x4000 .nil,
        [⟨0x1000, 0x5000⟩, ⟨0x8000, 0xa000⟩]⟩ := by decide +kernel
  obtain ⟨⟨tr, st⟩, hreplay, rfl⟩ := Option.map_eq_some_iff.1 hsome
  have hreach : freeSystem.Reachable _ := ⟨tr, Trans.System.Run.replay (fun _ _ _ => step_of_freeStep) (.nil rfl) hreplay⟩
  exact ⟨_, hreach, rfl, rfl, (freeAreas_reachable hreach).2.2.1⟩

/-- The calls on the tree alone, as `FreeTree` and `Areas` have them. -/
def FreeOp.treeRun (t : FreeTree) : FreeOp → Option FreeTree
  | insert va stale => insertVmapAreaAugment va stale t []
  | mergeOrAdd va stale => mergeOrAddVmapAreaAugment stale va t
  | clip va nva size stale => (locate va t []).bind fun s => (vaClip (some stale) s nva size).map (·.1)

theorem FreeAreas.Linked.run_root {op : FreeOp} (hst : st.Linked) (hop : op.Allowed st) :
    (op.run st).map root = op.treeRun st.root := by
  cases op with
  | insert va stale => exact insertVmapAreaAugment_root hst hop stale
  | mergeOrAdd va stale => exact mergeOrAddVmapAreaAugment_root hst hop stale
  | clip va nva size stale =>
    obtain ⟨hmem, hstart, hend⟩ := hop
    rw [← hst.list_eq] at hmem
    obtain ⟨L, R, hlist⟩ := List.append_of_mem hmem
    obtain ⟨s, hs, -⟩ := hst.toShaped.place hlist
    rw [FreeOp.run, FreeOp.treeRun, hs, Option.bind_some, ← vaClip_root hst hs hstart hend stale, Option.map_map,
      Option.map_map]
    rfl

/-- In every run the links to the neighbours in the list find what the descents on the tree alone find: the same calls
on the tree alone lead to the same tree. -/
theorem freeTree_run {tr : List (Trans.Step FreeAreas FreeOp)} (h : freeSystem.Run tr st) :
    tr.foldrM (fun e t => e.label.treeRun t) .nil = some st.root := by
  induction h with
  | nil hinit =>
    cases hinit
    rfl
  | cons h hs ih =>
    rw [List.foldrM_cons, ih, Option.bind_eq_bind, Option.bind_some,
      ← (linked_of_reachable h.reachable).run_root hs.1, hs.2, Option.map_some]

theorem freeTree_run_insert : ∃ tr st, freeSystem.Run tr st ∧ st.list = [⟨0x1000, 0x5000⟩] ∧
    tr.foldrM (fun e t => e.label.treeRun t) .nil = some st.root := by
  have run := (Trans.System.Run.nil rfl).next (S := freeSystem) (.insert ⟨0x1000, 0x5000⟩ 7) ⟨by decide, rfl⟩
  exact ⟨_, _, run, rfl, freeTree_run run⟩

end Runs

end QuestOS.Vmalloc
