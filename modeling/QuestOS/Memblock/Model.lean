import QuestOS.Align
import QuestOS.Lib.Regions

/-!
# The memblock allocator

The functions of `memblock.c` over region arrays kept as lists: `cnt` is the length of the list, and
a loop over an array is a recursion on the part of the list it has not reached.  `array` is the
physical address of an array that `memblock_double_array` allocated, `none` for the static one of
`INIT_MEMBLOCK_REGIONS` entries; what the entries look like in memory is not modelled, since only
this code reads them.

A result `none` means that the call does not return: a `BUG_ON` was met.  `memblock_double_array`
calls the functions it is called from; they take it as a parameter, and `memblockDoubleArray n` is
that function with at most `n` nested calls.  Addresses and sizes are natural numbers; no sum wraps,
because every range is capped by `memblock_cap_size` and every region ends below `PHYS_ADDR_MAX`.
`total_size` is likewise never larger than the address space.

Not modelled: the mirror retries (`system_has_some_mirror` is never set), the slab flags, debug
output and the `WARN_ON`s, which only print.
-/

namespace QuestOS

open Regions (Region)

/-! ### Data -/

def physAddrMax : Nat := 2 ^ 64 - 1

def pageSize : Nat := 4096

def numaNoNode : Int := -1

def maxNumnodes : Int := 16

def memblockRsrvKern : Nat := 0x20

def smpCacheBytes : Nat := 64

def regionEntrySize : Nat := 24

structure RegionAttr where
  flags : Nat
  nid : Int
  deriving DecidableEq, Repr

abbrev MemblockRegion := Region RegionAttr

structure MemblockType where
  regions : List MemblockRegion
  max : Nat
  totalSize : Nat
  array : Option Nat
  deriving DecidableEq, Repr

def MemblockType.cnt (t : MemblockType) : Nat := t.regions.length

structure Memblock where
  bottomUp : Bool
  currentLimit : Nat
  memory : MemblockType
  reserved : MemblockType
  deriving DecidableEq, Repr

inductive TypeKind
  | memory | reserved
  deriving DecidableEq, Repr

def Memblock.get (mb : Memblock) : TypeKind → MemblockType
  | .memory => mb.memory
  | .reserved => mb.reserved

def Memblock.set (mb : Memblock) (k : TypeKind) (t : MemblockType) : Memblock :=
  match k with
  | .memory => { mb with memory := t }
  | .reserved => { mb with reserved := t }

abbrev DoubleArray := TypeKind → Nat → Nat → Memblock → Option (Memblock × Int)

def memblockCapSize (base size : Nat) : Nat := min size (physAddrMax - base)

def pageAlign (x : Nat) : Nat := (x + (pageSize - 1)) / pageSize * pageSize

/-! ### Finding free memory -/

def shouldSkipRegion (nid : Int) (flags : Nat) (m : MemblockRegion) : Bool :=
  (0 ≤ nid && nid < maxNumnodes && nid != m.tag.nid) ||
  (flags &&& 0x2 != 0 && m.tag.flags &&& 0x2 == 0) ||
  (flags &&& 0x4 == 0 && m.tag.flags &&& 0x4 != 0) ||
  (flags &&& 0x8 == 0 && m.tag.flags &&& 0x8 != 0) ||
  (flags &&& 0x40 != 0 && m.tag.flags &&& 0x40 == 0)

def gapStart (b : List MemblockRegion) (idx : Nat) : Nat :=
  match idx with
  | 0 => 0
  | i + 1 => (b[i]?.map Region.fin).getD 0

def gapEnd (b : List MemblockRegion) (idx : Nat) : Nat := (b[idx]?.map Region.base).getD physAddrMax

/-- A range that `__next_mem_range` or `__next_mem_range_rev` returns, with the two indices it
continues from (in the reverse direction one more than the index, so that 0 is the end). -/
structure FreeRange where
  start : Nat
  fin : Nat
  na : Nat
  nb : Nat
  deriving DecidableEq, Repr

/-- The inner loop of `__next_mem_range_rev` over the reservations, at `idx_b = nb - 1`, for the
memory region `m` at `idx_a = na - 1`.  It finds a range, or stops with a new `nb`. -/
def nextRevInner (b : List MemblockRegion) (m : MemblockRegion) (na : Nat) : Nat → FreeRange ⊕ Nat
  | 0 => .inr 0
  | idx + 1 =>
    if gapEnd b idx ≤ m.base then .inr (idx + 1)
    else if gapStart b idx < m.fin then
      .inl ⟨max m.base (gapStart b idx), min m.fin (gapEnd b idx),
        if gapStart b idx ≤ m.base then na - 1 else na,
        if gapStart b idx ≤ m.base then idx + 1 else idx⟩
    else nextRevInner b m na idx

/-- `__next_mem_range_rev` from `idx_a = na - 1` and `idx_b = nb - 1`; `none` is the end marker. -/
def nextMemRangeRev (nid : Int) (flags : Nat) (a b : List MemblockRegion) :
    (na nb : Nat) → Option FreeRange
  | 0, _ => none
  | i + 1, nb =>
    match a[i]? with
    | none => none
    | some m =>
      if shouldSkipRegion nid flags m then nextMemRangeRev nid flags a b i nb
      else
        match nextRevInner b m (i + 1) nb with
        | .inl r => some r
        | .inr nb' => nextMemRangeRev nid flags a b i nb'

/-- The inner loop of `__next_mem_range` at `idx_b = idx`, with `left` values of `idx_b` to go. -/
def nextInner (b : List MemblockRegion) (m : MemblockRegion) (ia : Nat) :
    (left idx : Nat) → FreeRange ⊕ Nat
  | 0, idx => .inr idx
  | left + 1, idx =>
    if m.fin ≤ gapStart b idx then .inr idx
    else if m.base < gapEnd b idx then
      .inl ⟨max m.base (gapStart b idx), min m.fin (gapEnd b idx),
        if m.fin ≤ gapEnd b idx then ia + 1 else ia,
        if m.fin ≤ gapEnd b idx then idx else idx + 1⟩
    else nextInner b m ia left (idx + 1)

/-- `__next_mem_range` at `idx_a = ia` and `idx_b = ib`, with `left` values of `idx_a` to go. -/
def nextMemRange (nid : Int) (flags : Nat) (a b : List MemblockRegion) :
    (left ia ib : Nat) → Option FreeRange
  | 0, _, _ => none
  | left + 1, ia, ib =>
    match a[ia]? with
    | none => none
    | some m =>
      if shouldSkipRegion nid flags m then nextMemRange nid flags a b left (ia + 1) ib
      else
        match nextInner b m ia (b.length + 1 - ib) ib with
        | .inl r => some r
        | .inr ib' => nextMemRange nid flags a b left (ia + 1) ib'

def clamp (x lo hi : Nat) : Nat := min (max x lo) hi

def roundDown (x align : Nat) : Nat := x - (x &&& (align - 1))

/-- `round_up`, in `u64`. -/
def roundUp (x align : Nat) : Nat := (((x - 1) ||| (align - 1)) + 1) % 2 ^ 64

def findTopDownLoop (nid : Int) (flags : Nat) (a b : List MemblockRegion) (start fin size align : Nat) :
    (fuel na nb : Nat) → Nat
  | 0, _, _ => 0
  | fuel + 1, na, nb =>
    match nextMemRangeRev nid flags a b na nb with
    | none => 0
    | some r =>
      let thisStart := clamp r.start start fin
      let thisEnd := clamp r.fin start fin
      if thisEnd < size then findTopDownLoop nid flags a b start fin size align fuel r.na r.nb
      else
        let cand := roundDown (thisEnd - size) align
        if thisStart ≤ cand then cand
        else findTopDownLoop nid flags a b start fin size align fuel r.na r.nb

def findBottomUpLoop (nid : Int) (flags : Nat) (a b : List MemblockRegion) (start fin size align : Nat) :
    (fuel ia ib : Nat) → Nat
  | 0, _, _ => 0
  | fuel + 1, ia, ib =>
    match nextMemRange nid flags a b (a.length - ia) ia ib with
    | none => 0
    | some r =>
      let thisStart := clamp r.start start fin
      let thisEnd := clamp r.fin start fin
      let cand := roundUp thisStart align
      if cand < thisEnd ∧ size ≤ thisEnd - cand then cand
      else findBottomUpLoop nid flags a b start fin size align fuel r.na r.nb

def memblockFindRangeTopDown (mb : Memblock) (start fin size align : Nat) (nid : Int) (flags : Nat) :
    Nat :=
  findTopDownLoop nid flags mb.memory.regions mb.reserved.regions start fin size align
    (mb.memory.cnt + mb.reserved.cnt + 2) mb.memory.cnt (mb.reserved.cnt + 1)

def memblockFindRangeBottomUp (mb : Memblock) (start fin size align : Nat) (nid : Int) (flags : Nat) :
    Nat :=
  findBottomUpLoop nid flags mb.memory.regions mb.reserved.regions start fin size align
    (mb.memory.cnt + mb.reserved.cnt + 2) 0 0

def memblockFindInRangeNode (mb : Memblock) (size align start fin : Nat) (nid : Int) (flags : Nat) :
    Nat :=
  let fin := if fin = 0 ∨ fin = 1 then mb.currentLimit else fin
  let start := max start pageSize
  let fin := max start fin
  if mb.bottomUp then memblockFindRangeBottomUp mb start fin size align nid flags
  else memblockFindRangeTopDown mb start fin size align nid flags

def memblockFindInRange (mb : Memblock) (start fin size align : Nat) : Nat :=
  memblockFindInRangeNode mb size align start fin numaNoNode 0

/-! ### Adding a range -/

structure AddPass where
  base : Nat
  nrNew : Nat
  startRgn : Option Nat
  endRgn : Nat
  totalSize : Nat
  deriving DecidableEq, Repr

def AddPass.inserted (p : AddPass) (idx size : Nat) : AddPass :=
  { p with startRgn := p.startRgn.or (some idx), endRgn := idx + 1, totalSize := p.totalSize + size }

def addTail (max : Nat) (insert : Bool) (attr : RegionAttr) (fin idx cnt : Nat) (p : AddPass)
    (rest : List MemblockRegion) : Option (List MemblockRegion × AddPass) :=
  if p.base < fin then
    let p := { p with nrNew := p.nrNew + 1 }
    if insert then
      if max ≤ cnt then none
      else some (⟨p.base, fin - p.base, attr⟩ :: rest, p.inserted idx (fin - p.base))
    else some (rest, p)
  else some (rest, p)

def addLoop (max : Nat) (insert : Bool) (attr : RegionAttr) (fin : Nat) :
    (idx cnt : Nat) → AddPass → List MemblockRegion → Option (List MemblockRegion × AddPass)
  | idx, cnt, p, [] => addTail max insert attr fin idx cnt p []
  | idx, cnt, p, rgn :: rest =>
    if fin ≤ rgn.base then addTail max insert attr fin idx cnt p (rgn :: rest)
    else if rgn.fin ≤ p.base then
      (addLoop max insert attr fin (idx + 1) cnt p rest).map fun q => (rgn :: q.1, q.2)
    else if p.base < rgn.base then
      let p' := { p with nrNew := p.nrNew + 1 }
      if insert then
        if max ≤ cnt then none
        else
          (addLoop max insert attr fin (idx + 2) (cnt + 1)
            { p'.inserted idx (rgn.base - p.base) with base := min rgn.fin fin } rest).map fun q =>
              (⟨p.base, rgn.base - p.base, attr⟩ :: rgn :: q.1, q.2)
      else
        (addLoop max insert attr fin (idx + 1) cnt { p' with base := min rgn.fin fin } rest).map
          fun q => (rgn :: q.1, q.2)
    else
      (addLoop max insert attr fin (idx + 1) cnt { p with base := min rgn.fin fin } rest).map
        fun q => (rgn :: q.1, q.2)

def mergeLoop : Nat → List MemblockRegion → Option (List MemblockRegion)
  | k + 1, this :: next :: rest =>
    if this.fin ≠ next.base ∨ this.tag.nid ≠ next.tag.nid ∨ this.tag.flags ≠ next.tag.flags then
      if next.base < this.fin then none
      else (mergeLoop k (next :: rest)).map (this :: ·)
    else mergeLoop k ({ this with size := this.size + next.size } :: rest)
  | _, l => some l

def memblockMergeRegions (startRgn endRgn : Nat) (l : List MemblockRegion) :
    Option (List MemblockRegion) :=
  let i := startRgn - 1
  let endRgn := min endRgn (l.length - 1)
  (mergeLoop (endRgn - i) (l.drop i)).map (l.take i ++ ·)

def addInsert (attr : RegionAttr) (base fin : Nat) (t : MemblockType) : Option MemblockType :=
  match addLoop t.max true attr fin 0 t.cnt ⟨base, 0, none, 0, t.totalSize⟩ t.regions with
  | none => none
  | some (l, p) =>
    if p.nrNew = 0 then some t
    else (memblockMergeRegions (p.startRgn.getD 0) p.endRgn l).map fun l =>
      { t with regions := l, totalSize := p.totalSize }

/-- `while (type->cnt + need > type->max)` around `memblock_double_array`.  The array doubles in
every round, so that 64 rounds are more than enough. -/
def growWhile (double : DoubleArray) (k : TypeKind) (need base size : Nat) :
    Nat → Memblock → Option (Memblock × Int)
  | 0, _ => none
  | fuel + 1, mb =>
    if (mb.get k).max < (mb.get k).cnt + need then
      match double k base size mb with
      | none => none
      | some (mb, ret) => if ret < 0 then some (mb, negEnomem) else growWhile double k need base size fuel mb
    else some (mb, 0)

def addRange (double : DoubleArray) (k : TypeKind) (base size : Nat) (attr : RegionAttr)
    (mb : Memblock) : Option (Memblock × Int) :=
  let size := memblockCapSize base size
  let fin := base + size
  let t := mb.get k
  let insert (mb : Memblock) := (addInsert attr base fin (mb.get k)).map fun t => (mb.set k t, (0 : Int))
  if size = 0 then some (mb, 0)
  else if (t.regions.head?.map Region.size).getD 0 = 0 then
    some (mb.set k { t with regions := [⟨base, size, attr⟩], totalSize := size }, 0)
  else if t.cnt * 2 + 1 ≤ t.max then insert mb
  else
    match addLoop t.max false attr fin 0 t.cnt ⟨base, 0, none, 0, t.totalSize⟩ t.regions with
    | none => none
    | some (_, p) =>
      if p.nrNew = 0 then some (mb, 0)
      else
        match growWhile double k p.nrNew base size 64 mb with
        | none => none
        | some (mb, ret) => if ret < 0 then some (mb, ret) else insert mb

/-! ### Removing a range -/

def isolateLoop (max base fin : Nat) :
    (fuel idx cnt startRgn endRgn : Nat) → List MemblockRegion → Option (List MemblockRegion × Nat × Nat)
  | 0, _, _, _, _, _ => none
  | _ + 1, _, _, s, e, [] => some ([], s, e)
  | fuel + 1, idx, cnt, s, e, rgn :: rest =>
    if fin ≤ rgn.base then some (rgn :: rest, s, e)
    else if rgn.fin ≤ base then
      (isolateLoop max base fin fuel (idx + 1) cnt s e rest).map fun q => (rgn :: q.1, q.2)
    else if rgn.base < base then
      if max ≤ cnt then none
      else
        (isolateLoop max base fin fuel (idx + 1) (cnt + 1) s e
          (⟨base, rgn.size - (base - rgn.base), rgn.tag⟩ :: rest)).map fun q =>
            (⟨rgn.base, base - rgn.base, rgn.tag⟩ :: q.1, q.2)
    else if fin < rgn.fin then
      if max ≤ cnt then none
      else
        isolateLoop max base fin fuel idx (cnt + 1) s e
          (⟨rgn.base, fin - rgn.base, rgn.tag⟩ :: ⟨fin, rgn.size - (fin - rgn.base), rgn.tag⟩ :: rest)
    else
      (isolateLoop max base fin fuel (idx + 1) cnt (if e = 0 then idx else s) (idx + 1) rest).map
        fun q => (rgn :: q.1, q.2)

/-- `memblock_isolate_range`: the new state, the return value, `*start_rgn` and `*end_rgn`. -/
def isolateRange (double : DoubleArray) (k : TypeKind) (base size : Nat) (mb : Memblock) :
    Option (Memblock × Int × Nat × Nat) :=
  let size := memblockCapSize base size
  let fin := base + size
  if size = 0 then some (mb, 0, 0, 0)
  else
    match growWhile double k 2 base size 64 mb with
    | none => none
    | some (mb, ret) =>
      if ret < 0 then some (mb, ret, 0, 0)
      else
        let t := mb.get k
        (isolateLoop t.max base fin (t.cnt + 3) 0 t.cnt 0 0 t.regions).map fun q =>
          (mb.set k { t with regions := q.1 }, 0, q.2.1, q.2.2)

def memblockRemoveRegion (t : MemblockType) (r : Nat) : MemblockType :=
  { t with regions := t.regions.eraseIdx r,
           totalSize := t.totalSize - (t.regions[r]?.map Region.size).getD 0 }

def removeLoop (startRgn : Nat) : Nat → MemblockType → MemblockType
  | 0, t => t
  | k + 1, t => removeLoop startRgn k (memblockRemoveRegion t (startRgn + k))

def removeRange (double : DoubleArray) (k : TypeKind) (base size : Nat) (mb : Memblock) :
    Option (Memblock × Int) :=
  match isolateRange double k base size mb with
  | none => none
  | some (mb, ret, s, e) =>
    if ret ≠ 0 then some (mb, ret)
    else some (mb.set k (removeLoop s (e - s) (mb.get k)), 0)

/-! ### Growing an array -/

def findNewArray (mb : Memblock) (newAreaStart newAreaSize newAllocSize : Nat) : Nat :=
  let addr := memblockFindInRange mb (newAreaStart + newAreaSize) mb.currentLimit newAllocSize pageSize
  if addr = 0 ∧ newAreaSize ≠ 0 then
    memblockFindInRange mb 0 (min newAreaStart mb.currentLimit) newAllocSize pageSize
  else addr

def freeOldArray (double : DoubleArray) (old : Option Nat) (size : Nat) (mb : Memblock) :
    Option Memblock :=
  match old with
  | none => some mb
  | some old => (removeRange double .reserved old size mb).map (·.1)

def memblockDoubleArray : Nat → DoubleArray
  | 0 => fun _ _ _ _ => none
  | n + 1 => fun k newAreaStart newAreaSize mb =>
    let t := mb.get k
    let oldSize := t.max * regionEntrySize
    let newSize := oldSize * 2
    let oldAllocSize := pageAlign oldSize
    let newAllocSize := pageAlign newSize
    let addr :=
      if k = .reserved then findNewArray mb newAreaStart newAreaSize newAllocSize
      else findNewArray mb 0 0 newAllocSize
    if addr = 0 then some (mb, -1)
    else
      let mb := mb.set k { t with array := some addr, max := t.max * 2 }
      match freeOldArray (memblockDoubleArray n) t.array oldAllocSize mb with
      | none => none
      | some mb =>
        match addRange (memblockDoubleArray n) .reserved addr newAllocSize
            ⟨memblockRsrvKern, numaNoNode⟩ mb with
        | some (mb, 0) => some (mb, 0)
        | _ => none

/-! ### The interface -/

/-- The nesting that is ever needed: the calls inside `memblock_double_array` find room. -/
def doubleDepth : Nat := 2

def memblockAddRange : TypeKind → Nat → Nat → RegionAttr → Memblock → Option (Memblock × Int) :=
  addRange (memblockDoubleArray doubleDepth)

def memblockRemoveRange : TypeKind → Nat → Nat → Memblock → Option (Memblock × Int) :=
  removeRange (memblockDoubleArray doubleDepth)

def memblockPhysFree (base size : Nat) (mb : Memblock) : Option (Memblock × Int) :=
  memblockRemoveRange .reserved base size mb

def memblockReserve (base size : Nat) (nid : Int) (flags : Nat) (mb : Memblock) :
    Option (Memblock × Int) :=
  memblockAddRange .reserved base size ⟨flags, nid⟩ mb

/-- `memblock_alloc_range_nid`: the physical address, 0 when nothing was found. -/
def memblockAllocRangeNid (size align start fin : Nat) (nid : Int) (exactNid : Bool) (mb : Memblock) :
    Option (Memblock × Nat) :=
  let align := if align = 0 then smpCacheBytes else align
  let tryReserve (nid : Int) (mb : Memblock) : Option (Memblock × Nat) :=
    let found := memblockFindInRangeNode mb size align start fin nid 0
    if found = 0 then some (mb, 0)
    else
      (memblockReserve found size nid memblockRsrvKern mb).map fun q =>
        (q.1, if q.2 = 0 then found else 0)
  match tryReserve nid mb with
  | none => none
  | some (mb, found) =>
    if found ≠ 0 then some (mb, found)
    else if 0 ≤ nid ∧ nid < maxNumnodes ∧ exactNid = false then tryReserve numaNoNode mb
    else some (mb, 0)

def memblockPhysAllocRange (size align start fin : Nat) (mb : Memblock) : Option (Memblock × Nat) :=
  memblockAllocRangeNid size align start fin numaNoNode false mb

end QuestOS
