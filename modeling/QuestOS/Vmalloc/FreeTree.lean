import QuestOS.Align
import QuestOS.Lib.RbTree
import Mathlib.Logic.Function.Iterate

/-!
# The tree of free virtual areas

`vm.c` keeps the free part of the kernel's virtual address space as an augmented red-black tree of areas, ordered by
address, in which every node knows the size of the largest area below it.  This module translates the allocation:
`find_vmap_lowest_match` as a step function on the position of its two loops, and `__alloc_vmap_area` with the four ways
`va_clip` takes a range out of an area.  `none` is an access through a missing link, or a search that needs more rounds.
-/

namespace QuestOS.Vmalloc

open RbTree

def negEnoent : Int := -2
def negErange : Int := -34

structure VmapArea where
  vaStart : Nat
  vaEnd : Nat
deriving DecidableEq, Repr

abbrev FreeTree := RbTree.Tree VmapArea Nat

abbrev FreePath := Path VmapArea Nat

abbrev FreePlace := RbTree.Place VmapArea Nat

def vaSize (va : VmapArea) : Nat := sub64 va.vaEnd va.vaStart

def getSubtreeMaxSize (t : FreeTree) : Nat := t.aug?.getD 0

def computeMax (va : VmapArea) (left right : Option Nat) : Nat := max (max (vaSize va) (left.getD 0)) (right.getD 0)

def augmentTreePropagateFrom (s : FreePlace) : FreePlace := s.propagate computeMax

/-! ### The search -/

def nvaStartAddr (va : VmapArea) (align vstart : Nat) : Nat :=
  if va.vaStart > vstart then alignUp va.vaStart align else alignUp vstart align

def isWithinThisVa (va : VmapArea) (size align vstart : Nat) : Bool :=
  let nva := nvaStartAddr va align vstart
  if add64 nva size < nva ∨ nva < vstart then false else add64 nva size ≤ va.vaEnd

inductive Search
  | down (node : FreeTree) (path : FreePath) (vstart : Nat)
  | up (node : FreeTree) (path : FreePath) (vstart : Nat)
  | done (va : Option FreePlace)

def Search.step (size align length : Nat) : Search → Search
  | down .nil _ _ => done none
  | down (.node c l va m r) p vstart =>
    if getSubtreeMaxSize l ≥ length ∧ vstart < va.vaStart then down l (⟨.left, c, va, m, r⟩ :: p) vstart
    else if isWithinThisVa va size align vstart then done (some ⟨c, l, va, m, r, p⟩)
    else if getSubtreeMaxSize r ≥ length then down r (⟨.right, c, va, m, l⟩ :: p) vstart
    else up (.node c l va m r) p vstart
  | up _ [] _ => done none
  | up t (f :: p) vstart =>
    let l := f.dir.near t f.other
    let r := f.dir.far t f.other
    if isWithinThisVa f.val size align vstart then done (some ⟨f.color, l, f.val, f.aug, r, p⟩)
    else if getSubtreeMaxSize r ≥ length ∧ vstart ≤ f.val.vaStart then
      -- "vstart" is shifted so that the same right subtree is not entered again
      down r (⟨.right, f.color, f.val, f.aug, l⟩ :: p) (add64 f.val.vaStart 1)
    else up (.node f.color l f.val f.aug r) p vstart
  | done va => done va

def findVmapLowestMatch (fuel : Nat) (root : FreeTree) (size align vstart : Nat) (adjustSearchSize : Bool) :
    Option (Option FreePlace) :=
  let length := if adjustSearchSize then sub64 (add64 size align) 1 else size
  match (Search.step size align length)^[fuel] (.down root [] vstart) with
  | .done va => some va
  | _ => none

/-! ### Taking a range out of an area -/

inductive FitType
  | nothingFit
  | flFit
  | leFit
  | reFit
  | neFit
deriving DecidableEq

def classifyVaFitType (va : VmapArea) (nva size : Nat) : FitType :=
  if nva < va.vaStart ∨ add64 nva size > va.vaEnd then .nothingFit
  else if va.vaStart = nva then if va.vaEnd = add64 nva size then .flFit else .leFit
  else if va.vaEnd = add64 nva size then .reFit
  else .neFit

def findVaLinks {β : Type} (va : VmapArea) : RbTree.Tree VmapArea β → Path VmapArea β → Option (Path VmapArea β)
  | .nil, p => some p
  | .node c l tmp m r, p =>
    if va.vaEnd ≤ tmp.vaStart then findVaLinks va l (⟨.left, c, tmp, m, r⟩ :: p)
    else if va.vaStart ≥ tmp.vaEnd then findVaLinks va r (⟨.right, c, tmp, m, l⟩ :: p)
    else none

/-- `insert_vmap_area_augment`, with the node where the descent starts.  The fresh object's `subtree_max_size` holds
`stale` during the insertion. -/
def insertVmapAreaAugment (va : VmapArea) (stale : Nat) (start : FreeTree) (p : FreePath) : Option FreeTree :=
  match findVaLinks va start p with
  | none => some (plug start p)
  | some link => do
    let t ← insertColor computeMax .nil va stale .nil link
    let s ← locate va t []
    return (augmentTreePropagateFrom { s with aug := 0 }).tree

/-- `va_clip`: the tree and the returned value; `kmalloc` is the new object of a middle split. -/
def vaClip (kmalloc : Option Nat) (s : FreePlace) (nva size : Nat) : Option (FreeTree × Int) :=
  match classifyVaFitType s.val nva size with
  | .flFit => (erase computeMax s.color s.left s.aug s.right s.path).map (·, 0)
  | .leFit =>
    let s := { s with val := { s.val with vaStart := add64 s.val.vaStart size } }
    some ((augmentTreePropagateFrom s).tree, 0)
  | .reFit =>
    let s := { s with val := { s.val with vaEnd := nva } }
    some ((augmentTreePropagateFrom s).tree, 0)
  | .neFit =>
    match kmalloc with
    | none => some (s.tree, negEnomem)
    | some stale =>
      let lva : VmapArea := ⟨s.val.vaStart, nva⟩
      let s := augmentTreePropagateFrom { s with val := { s.val with vaStart := add64 nva size } }
      (insertVmapAreaAugment lva stale s.node s.path).map (·, 0)
  | .nothingFit => some (s.tree, negEinval)

def vaAlloc (kmalloc : Option Nat) (s : FreePlace) (size align vstart vend : Nat) :
    Option (FreeTree × Except Int Nat) :=
  let nva := nvaStartAddr s.val align vstart
  if add64 nva size > vend then some (s.tree, .error negErange)
  else (vaClip kmalloc s nva size).map fun r => (r.1, if r.2 = 0 then .ok nva else .error r.2)

def allocVmapArea (fuel : Nat) (kmalloc : Option Nat) (root : FreeTree) (size align vstart vend : Nat) :
    Option (FreeTree × Except Int Nat) :=
  let adjustSearchSize := ¬ (align ≤ 4096 ∨ align > 4096 ∧ sub64 vend vstart = size)
  match findVmapLowestMatch fuel root size align vstart adjustSearchSize with
  | none => none
  | some none => some (root, .error negEnoent)
  | some (some s) => vaAlloc kmalloc s size align vstart vend

end QuestOS.Vmalloc
