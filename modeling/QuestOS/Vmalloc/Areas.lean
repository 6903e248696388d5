import QuestOS.Vmalloc.FreeTree
import QuestOS.Lib.Trans

/-!
# The four containers of virtual areas

An area is in the free tree, in the busy tree, in the lazy tree or in one of the size pools.  `__get_vm_area_node` moves a
range from the free tree to the busy tree and `remove_vm_area` moves an area on to the lazy tree; when many pages are lazy,
or an allocation fails, the purge moves areas to the pools and back to the free tree.

The heads of the pools and of `vmap_block_queue` are static data that no function initialises.  A list whose head is zero
is not empty for `list_empty`, and its first entry is at address 0: `none` is the access through such a head.  So no call
that purges returns, and `heads_zero` shows that the heads are still zero in every state.
-/

namespace QuestOS.Vmalloc

open RbTree

/-! ### Lists and pools -/

inductive ListHead
  | zero
  | list (entries : List VmapArea)

namespace ListHead

def isEmpty : ListHead → Bool
  | zero => false
  | list l => l.isEmpty

def replaceInit : ListHead → Option (List VmapArea)
  | zero => none
  | list l => some l

def add (va : VmapArea) : ListHead → Option ListHead
  | zero => none
  | list l => some (list (va :: l))

def entries : ListHead → List VmapArea
  | zero => []
  | list l => l

end ListHead

structure VmapPool where
  head : ListHead
  len : Nat

abbrev AreaTree := RbTree.Tree VmapArea Unit

def noAugment (_ : VmapArea) (_ _ : Option Unit) : Unit := ()

structure VmapState where
  free : FreeTree
  busy : AreaTree
  lazy : AreaTree
  lazyNr : Nat
  pool : List VmapPool
  /-- Whether `vmap_block_queue.free` is an initialised list; no function puts a block into it. -/
  blockQueue : Bool

def maxVaSizePages : Nat := 256

def lazyMaxPages : Nat := 32 * 1024 * 1024 / 4096

/-- `insert_vmap_area`; an area that overlaps another one is not inserted. -/
def insertVmapArea (va : VmapArea) (t : AreaTree) : Option AreaTree :=
  match findVaLinks va t [] with
  | none => some t
  | some link => insertColor noAugment .nil va () .nil link

def findVmapArea (addr : Nat) : AreaTree → Path VmapArea Unit → Option (RbTree.Place VmapArea Unit)
  | .nil, _ => none
  | .node c l va m r, p =>
    if addr < va.vaStart then findVmapArea addr l (⟨.left, c, va, m, r⟩ :: p)
    else if addr ≥ va.vaEnd then findVmapArea addr r (⟨.right, c, va, m, l⟩ :: p)
    else some ⟨c, l, va, m, r, p⟩

section Merge

variable {β : Type} [DecidableEq β] (compute : VmapArea → Option β → Option β → β)

def resize (va va' : VmapArea) (t : RbTree.Tree VmapArea β) : Option (RbTree.Tree VmapArea β) :=
  (locate va t []).map fun s => { s with val := va' }.tree

def unlinkVa (va : VmapArea) (t : RbTree.Tree VmapArea β) : Option (RbTree.Tree VmapArea β) :=
  (locate va t []).bind fun s => erase compute s.color s.left s.aug s.right s.path

def linkVa (stale zero : β) (va : VmapArea) (link : Path VmapArea β) : Option (RbTree.Tree VmapArea β) :=
  (insertColor compute .nil va stale .nil link).bind fun t => (locate va t []).map fun s => { s with aug := zero }.tree

/-- `__merge_or_add_vmap_area`: the tree and the area that holds the range, or `none` for an overlap.  The neighbours in
the address-sorted list are the areas before and after the empty link. -/
def mergeOrAddVmapArea (stale zero : β) (va : VmapArea) (t : RbTree.Tree VmapArea β) : Option (RbTree.Tree VmapArea β × Option VmapArea) :=
  match findVaLinks va t [] with
  | none => some (t, none)
  | some link => do
    let next := (after link).head?.filter (·.vaStart = va.vaEnd)
    let prev := (before link).getLast?.filter (·.vaEnd = va.vaStart)
    match next, prev with
    | none, none => do
      let t ← linkVa compute stale zero va link
      return (t, some va)
    | some n, none => do
      let t ← resize n ⟨va.vaStart, n.vaEnd⟩ t
      return (t, some ⟨va.vaStart, n.vaEnd⟩)
    | none, some p => do
      let t ← resize p ⟨p.vaStart, va.vaEnd⟩ t
      return (t, some ⟨p.vaStart, va.vaEnd⟩)
    | some n, some p => do
      let t ← resize n ⟨va.vaStart, n.vaEnd⟩ t
      let t ← unlinkVa compute ⟨va.vaStart, n.vaEnd⟩ t
      let t ← resize p ⟨p.vaStart, n.vaEnd⟩ t
      return (t, some ⟨p.vaStart, n.vaEnd⟩)

end Merge

def mergeOrAddAll : List VmapArea → AreaTree → Option AreaTree
  | [], t => some t
  | va :: vas, t => (mergeOrAddVmapArea noAugment () () va t).bind fun r => mergeOrAddAll vas r.1

/-- `merge_or_add_vmap_area_augment`; the object of `va` holds `stale` as its `subtree_max_size`. -/
def mergeOrAddVmapAreaAugment (stale : Nat) (va : VmapArea) (t : FreeTree) : Option FreeTree :=
  (mergeOrAddVmapArea computeMax stale 0 va t).bind fun r =>
    match r.2 with
    | none => some r.1
    | some va => (locate va r.1 []).map fun s => (augmentTreePropagateFrom s).tree

/-- `reclaim_list_global`; what the areas hold as `subtree_max_size` is not tracked, `__link_va` replaces it. -/
def reclaimListGlobal : List VmapArea → FreeTree → Option FreeTree
  | [], t => some t
  | va :: vas, t => (mergeOrAddVmapAreaAugment 0 va t).bind (reclaimListGlobal vas)

/-! ### The purge -/

def decayPools (fullDecay : Bool) : List VmapPool → AreaTree → Option (List VmapPool × AreaTree)
  | [], decay => some ([], decay)
  | p :: ps, decay =>
    if p.head.isEmpty then do
      let (ps, decay) ← decayPools fullDecay ps decay
      return (p :: ps, decay)
    else do
      let tmp ← p.head.replaceInit
      let nDecay := if fullDecay then p.len else p.len / 4
      let decay ← mergeOrAddAll (tmp.take nDecay) decay
      let rest := tmp.drop nDecay
      let (ps, decay) ← decayPools fullDecay ps decay
      return (⟨.list rest, if rest.isEmpty then 0 else p.len - nDecay⟩ :: ps, decay)

def decayVaPoolNode (fullDecay : Bool) (s : VmapState) : Option VmapState := do
  let (pool, decay) ← decayPools fullDecay s.pool .nil
  let free ← reclaimListGlobal decay.toList s.free
  return { s with pool := pool, free := free }

def sizeToVaPool (size : Nat) : Option Nat :=
  let idx := sub64 size 1 / 4096 % 2 ^ 32
  if idx < maxVaSizePages then some idx else none

def nodePoolAddVa (va : VmapArea) (pool : List VmapPool) : Option (Option (List VmapPool)) :=
  match (sizeToVaPool (vaSize va)).bind fun i => pool[i]?.map (i, ·) with
  | none => some none
  | some (i, p) => (p.head.add va).map fun head => some (pool.set i ⟨head, p.len + 1⟩)

def purgeLoop (skipPopulate : Bool) : List VmapArea → Nat → List VmapPool → List VmapArea →
    Option (Nat × List VmapPool × List VmapArea)
  | [], nr, pool, localList => some (nr, pool, localList)
  | va :: vas, nr, pool, localList =>
    let nr := add64 nr (vaSize va / 4096)
    if skipPopulate then purgeLoop skipPopulate vas nr pool (va :: localList)
    else do
      match ← nodePoolAddVa va pool with
      | some pool => purgeLoop skipPopulate vas nr pool localList
      | none => purgeLoop skipPopulate vas nr pool (va :: localList)

def purgeVmapAreaLazy (fullPoolDecay : Bool) (s : VmapState) : Option VmapState := do
  let s ← decayVaPoolNode fullPoolDecay s
  match s.lazy with
  | .nil => return s
  | lazy =>
    let (nr, pool, localList) ← purgeLoop fullPoolDecay lazy.toList 0 s.pool []
    let free ← reclaimListGlobal localList s.free
    return { s with lazy := .nil, lazyNr := sub64 s.lazyNr nr, pool := pool, free := free }

def purgeFragmentedBlocks (s : VmapState) : Option VmapState := if s.blockQueue then some s else none

def reclaimAndPurgeVmapAreas (s : VmapState) : Option VmapState := do
  let s ← purgeFragmentedBlocks s
  purgeVmapAreaLazy true s

/-! ### Allocation and removal -/

/-- The outcomes of the calls of `kmalloc` in an allocation: for the `vm_struct`, the `vmap_area`, and the object of a
middle split in the first and in the second attempt. -/
structure KmallocResults where
  area : Bool
  va : Bool
  lva : Option Nat
  retry : Option Nat

def addBusy (s : VmapState) (addr size align vstart vend : Nat) : Option (VmapState × Option VmapArea) := do
  let va : VmapArea := ⟨addr, add64 addr size⟩
  let busy ← insertVmapArea va s.busy
  if addr % align = 0 ∧ vstart ≤ addr ∧ va.vaEnd ≤ vend then return ({ s with busy := busy }, some va) else none

def allocBusyArea (fuel : Nat) (m : KmallocResults) (size align vstart vend : Nat) (s : VmapState) :
    Option (VmapState × Option VmapArea) :=
  if size = 0 ∨ size % 4096 ≠ 0 ∨ ¬ (align ≠ 0 ∧ align &&& (align - 1) = 0) then some (s, none)
  else if ¬ m.va then some (s, none)
  else
    match allocVmapArea fuel m.lva s.free size align vstart vend with
    | none => none
    | some (free, .ok addr) => addBusy { s with free := free } addr size align vstart vend
    | some (free, .error _) => do
      let s ← reclaimAndPurgeVmapAreas { s with free := free }
      match ← allocVmapArea fuel m.retry s.free size align vstart vend with
      | (free, .ok addr) => addBusy { s with free := free } addr size align vstart vend
      | (free, .error _) => return ({ s with free := free }, none)

/-- The arguments of `__get_vm_area_node`; `noGuard` is the flag `VM_NO_GUARD`. -/
structure GetArgs where
  size : Nat
  align : Nat
  shift : Nat
  noGuard : Bool
  start : Nat
  stop : Nat

def getVmAreaNode (fuel : Nat) (m : KmallocResults) (g : GetArgs) (s : VmapState) : Option (VmapState × Option VmapArea) :=
  let size := alignUp g.size (2 ^ g.shift)
  if size = 0 ∨ ¬ m.area then some (s, none)
  else
    let size := if g.noGuard then size else add64 size 4096
    allocBusyArea fuel m size g.align g.start g.stop s

def freeVmapAreaNoflush (va : VmapArea) (s : VmapState) : Option VmapState := do
  let nrLazy := add64 s.lazyNr (vaSize va / 4096)
  let lazy ← insertVmapArea va s.lazy
  let s := { s with lazyNr := nrLazy, lazy := lazy }
  if nrLazy > lazyMaxPages then purgeVmapAreaLazy false s else return s

def removeVmArea (addr : Nat) (s : VmapState) : Option VmapState :=
  if addr % 4096 ≠ 0 then some s
  else
    match findVmapArea addr s.busy [] with
    | none => some s
    | some pl => do
      let busy ← erase noAugment pl.color pl.left pl.aug pl.right pl.path
      freeVmapAreaNoflush pl.val { s with busy := busy }

/-! ### Initialisation -/

/-- `declare_kernel_vmas`: the busy tree of the kernel's own areas; `kmalloc` says which objects are allocated. -/
def declareKernelVmas (kmalloc : VmapArea → Bool) : List VmapArea → AreaTree → Option AreaTree
  | [], busy => some busy
  | vm :: vms, busy =>
    if kmalloc vm then (insertVmapArea vm busy).bind (declareKernelVmas kmalloc vms) else declareKernelVmas kmalloc vms busy

def addFreeSpace (kmalloc : VmapArea → Bool) (va : VmapArea) (t : FreeTree) : Option FreeTree :=
  if sub64 va.vaEnd va.vaStart > 0 ∧ kmalloc va then insertVmapAreaAugment va 0 t [] else some t

def vmapInitFreeSpace (kmalloc : VmapArea → Bool) : List VmapArea → Nat → FreeTree → Option FreeTree
  | [], vmapStart, t => addFreeSpace kmalloc ⟨vmapStart, 2 ^ 64 - 1⟩ t
  | busy :: rest, vmapStart, t =>
    (addFreeSpace kmalloc ⟨vmapStart, busy.vaStart⟩ t).bind (vmapInitFreeSpace kmalloc rest busy.vaEnd)

def vmallocInit (kmalloc : VmapArea → Bool) (vmlist : List VmapArea) : Option VmapState := do
  let busy ← declareKernelVmas kmalloc vmlist .nil
  let free ← vmapInitFreeSpace kmalloc vmlist 1 .nil
  return ⟨free, busy, .nil, 0, List.replicate maxVaSizePages ⟨.zero, 0⟩, false⟩

/-! ### Runs -/

inductive Op
  | get (m : KmallocResults) (g : GetArgs)
  | remove (addr : Nat)

def exec (fuel : Nat) (s : VmapState) : Op → Option VmapState
  | .get m g => (getVmAreaNode fuel m g s).map (·.1)
  | .remove addr => removeVmArea addr s

def system : Trans.System VmapState Op where
  init s := ∃ kmalloc vmlist, vmallocInit kmalloc vmlist = some s
  step s op s' := ∃ fuel, exec fuel s op = some s'

def VmapState.areas (s : VmapState) : List VmapArea :=
  s.free.toList ++ s.busy.toList ++ s.lazy.toList ++ s.pool.flatMap (·.head.entries)

/-- The areas partition the address space, and the data of the purge is in order. -/
structure Conserved (s : VmapState) : Prop where
  disjoint : s.areas.Pairwise fun x y => x.vaEnd ≤ y.vaStart ∨ y.vaEnd ≤ x.vaStart
  cover : ∀ x, (∃ va ∈ s.areas, va.vaStart ≤ x ∧ x < va.vaEnd) ↔ 1 ≤ x ∧ x < 2 ^ 64 - 1
  heads : ∀ p ∈ s.pool, ∃ l, p.head = .list l
  lazyNr : s.lazyNr = (s.lazy.toList.map (vaSize · / 4096)).sum

def ZeroHeads (s : VmapState) : Prop := s.blockQueue = false ∧ s.pool = List.replicate maxVaSizePages ⟨.zero, 0⟩

section

variable {s s' : VmapState} {va : VmapArea} {res : Option VmapArea}

theorem purgeVmapAreaLazy_zero (h : ZeroHeads s) (full : Bool) : purgeVmapAreaLazy full s = none := by
  have hdecay : decayPools full s.pool .nil = none := by
    rw [h.2, maxVaSizePages, List.replicate_succ]
    rfl
  rw [purgeVmapAreaLazy, decayVaPoolNode, hdecay]
  rfl

theorem addBusy_zero {addr size align vstart vend : Nat} (h : ZeroHeads s)
    (hrun : addBusy s addr size align vstart vend = some (s', res)) : ZeroHeads s' := by
  obtain ⟨busy, -, hret⟩ := Option.bind_eq_some_iff.1 hrun
  split_ifs at hret
  cases hret
  exact h

theorem allocBusyArea_zero {fuel size align vstart vend : Nat} {m : KmallocResults} (h : ZeroHeads s)
    (hrun : allocBusyArea fuel m size align vstart vend s = some (s', res)) : ZeroHeads s' := by
  unfold allocBusyArea at hrun
  split_ifs at hrun
  · cases hrun
    exact h
  · split at hrun
    · cases hrun
    · refine addBusy_zero ?_ hrun
      exact h
    · -- the purge before the second attempt
      rename_i free _ _
      have hpurge : reclaimAndPurgeVmapAreas { s with free := free } = none := by
        rw [reclaimAndPurgeVmapAreas, purgeFragmentedBlocks, h.1]
        rfl
      rw [hpurge] at hrun
      cases hrun
  · cases hrun
    exact h

theorem exec_zero {fuel : Nat} {op : Op} (h : ZeroHeads s) (hrun : exec fuel s op = some s') : ZeroHeads s' := by
  cases op with
  | get m g =>
    obtain ⟨⟨s₁, res⟩, hget, rfl⟩ := Option.map_eq_some_iff.1 hrun
    unfold getVmAreaNode at hget
    dsimp only at hget
    split_ifs at hget
    · cases hget
      exact h
    · exact allocBusyArea_zero h hget
    · exact allocBusyArea_zero h hget
  | remove addr =>
    change removeVmArea addr s = some s' at hrun
    unfold removeVmArea at hrun
    split_ifs at hrun
    · cases hrun
      exact h
    · split at hrun
      · cases hrun
        exact h
      · obtain ⟨busy, -, hfree⟩ := Option.bind_eq_some_iff.1 hrun
        obtain ⟨lazy, -, hret⟩ := Option.bind_eq_some_iff.1 hfree
        dsimp only at hret
        split_ifs at hret
        · rw [purgeVmapAreaLazy_zero] at hret
          · cases hret
          · exact h
        · cases hret
          exact h

theorem heads_zero (h : system.Reachable s) : ZeroHeads s := by
  refine h.induction ?_ ?_
  · rintro s ⟨kmalloc, vmlist, hinit⟩
    obtain ⟨busy, -, hinit⟩ := Option.bind_eq_some_iff.1 hinit
    obtain ⟨free, -, hinit⟩ := Option.bind_eq_some_iff.1 hinit
    cases hinit
    exact ⟨rfl, rfl⟩
  · rintro s op s' - hs ⟨fuel, hrun⟩
    exact exec_zero hs hrun

theorem ZeroHeads.not_conserved (h : ZeroHeads s) : ¬ Conserved s := by
  intro hc
  have hmem : (⟨.zero, 0⟩ : VmapPool) ∈ s.pool := by
    rw [h.2, maxVaSizePages, List.replicate_succ]
    exact List.mem_cons_self ..
  obtain ⟨l, hl⟩ := hc.heads _ hmem
  cases hl

/-- The vmap data is in order in no state. -/
theorem never_conserved (h : system.Reachable s) : ¬ Conserved s := (heads_zero h).not_conserved

def imageAreas : List VmapArea := [⟨0xffff800080010000, 0xffff800080040000⟩, ⟨0xffff800080040000, 0xffff800080061000⟩]

def pageOps : List Op :=
  [.get ⟨true, true, some 0, none⟩ ⟨4096, 4096, 12, false, 0xffff800000000000, 0xfffffbffff800000⟩, .remove 0xffff800000000000]

/-- Also after a removal without purge. -/
theorem never_conserved_pageOps : ∃ s tr, system.Run tr s ∧ tr.length = 2 ∧ ¬ Conserved s := by
  have hsome : ((vmallocInit (fun _ => true) imageAreas).bind fun s =>
      (Trans.System.replay (exec 8) pageOps [] s).filter (·.1.length = 2)).isSome := by decide
  obtain ⟨⟨tr, s⟩, hrun⟩ := Option.isSome_iff_exists.1 hsome
  obtain ⟨s₀, hinit, hrun⟩ := Option.bind_eq_some_iff.1 hrun
  obtain ⟨hreplay, hlen⟩ := Option.filter_eq_some_iff.1 hrun
  have hfirst : system.Run [] s₀ := .nil ⟨_, _, hinit⟩
  have htr : system.Run tr s := hfirst.replay (fun _ _ _ h => ⟨8, h⟩) hreplay
  exact ⟨s, tr, htr, of_decide_eq_true hlen, never_conserved htr.reachable⟩

/-- The state that `vmalloc_init` leaves. -/
theorem vmallocInit_not_conserved :
    ∃ s, vmallocInit (fun _ => true) imageAreas = some s ∧ system.Reachable s ∧ ¬ Conserved s := by
  have hinit : (vmallocInit (fun _ => true) imageAreas).isSome := by decide
  obtain ⟨s, hs⟩ := Option.isSome_iff_exists.1 hinit
  have hreach : system.Reachable s := .of_init ⟨_, _, hs⟩
  exact ⟨s, hs, hreach, (heads_zero hreach).not_conserved⟩

end

end QuestOS.Vmalloc
