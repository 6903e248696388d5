import QuestOS.Heap.Kmalloc
import QuestOS.Mmu.Pte

/-!
# Mapping a physical range

`vmap_phys_range_noflush` of `vm.c` and the functions it calls.  Tables are reached through the linear
map, whose pointers are physical addresses; a new table comes from `kmalloc` and is recorded in
`mm->pgtable_mem`.  `vmap_pud_phys_range` and `vmap_pmd_range` differ in the level, the attributes of a
table entry and in what is freed before a block replaces a table; the loop of
`vmap_phys_range_noflush` is theirs without blocks.  TLB maintenance is left out.  `none` means that
the call does not return: `BUG()`, or a fault.
-/

namespace QuestOS

open Bytes PageTable

structure VmState where
  heap : Heap
  pgtableMem : Nat

namespace VmState

def mem (s : VmState) : Mem := s.heap.mem

def setMem (s : VmState) (m : Mem) : VmState := { s with heap := { s.heap with mem := m } }

end VmState

/-! ### Allocating tables -/

def pgtableMemSize : Nat := 16

def mmRecordPgtable (table : Nat) (s : VmState) : Option (VmState × Int) :=
  match kmalloc pgtableMemSize false s.heap with
  | none => none
  | some (h, none) => some ({ s with heap := h }, negEnomem)
  | some (h, some p) =>
    let m := store64 h.mem p (BitVec.ofNat 64 table)
    let m := store64 m (p + 8) (BitVec.ofNat 64 s.pgtableMem)
    some (⟨{ h with mem := m }, p⟩, 0)

def tableAllocOne (s : VmState) : Option (VmState × Option Nat) :=
  match kmalloc 4096 true s.heap with
  | none => none
  | some (h, none) => some ({ s with heap := h }, none)
  | some (h, some new) =>
    match mmRecordPgtable new { s with heap := h } with
    | none => none
    | some (s, ret) =>
      if ret ≠ 0 then (kfree new s.heap).map fun q => ({ s with heap := q.1 }, none)
      else some (s, some (if new % 4096 = 0 then new else alignUp new 4096))

def pudTableProt : Entry := 3#64 ||| 1#64 <<< 10

def pmdTableProt : Entry := 3#64 ||| 1#64 <<< 10 ||| 1#64 <<< 59

/-- `pud_alloc_track`, `pmd_alloc_track` and `pte_alloc_kernel_track`: the table that the entry points
to, allocated if there is none. -/
def tableAllocTrack (prot : Entry) (entry : Nat) (s : VmState) : Option (VmState × Option Nat) :=
  if load64 s.mem entry = 0 then
    match tableAllocOne s with
    | none => none
    | some (s, none) => some (s, none)
    | some (s, some table) =>
      let s := s.setMem (store64 s.mem entry (BitVec.ofNat 64 table ||| prot))
      some (s, some (pteToPhys (load64 s.mem entry)))
  else some (s, some (pteToPhys (load64 s.mem entry)))

/-! ### Blocks -/

def pmdFreePtePage (pmdp addr : Nat) (s : VmState) : Option VmState :=
  let pmd := load64 s.mem pmdp
  if !isTable pmd then some s
  else
    let table := pteToPhys pmd + 8 * index 0 addr
    let s := s.setMem (store64 s.mem pmdp 0)
    (kfree table s.heap).map fun q => { s with heap := q.1 }

/-- `pud_free_pmd_page`, which always returns 1.  The loop ends at `addr + PMD_SIZE`, after the first
entry of the table. -/
def pudFreePmdPage (pudp addr : Nat) (s : VmState) : Option VmState :=
  let pud := load64 s.mem pudp
  if !isTable pud then some s
  else
    let table := pteToPhys pud + 8 * index 1 addr
    match (if ptePresent (load64 s.mem table) then pmdFreePtePage table addr s else some s) with
    | none => none
    | some s =>
      let s := s.setMem (store64 s.mem pudp 0)
      (kfree table s.heap).map fun q => { s with heap := q.1 }

def pgattrChangeIsSafe (old new : Entry) : Bool :=
  let mask := ptePxn ||| pteRdonly ||| pteWrite ||| pteNg ||| pteSwbitsMask
  let attrindx (e : Entry) : Nat := ((e >>> 2) &&& 7#64).toNat
  if !isValid old || !isValid new then true
  else if ptePfn old ≠ ptePfn new then false
  else if pteCont (old ||| new) then false
  else if (old &&& ~~~new) &&& pteNg ≠ 0 then false
  else
    -- `MT_NORMAL` is 0 and `MT_NORMAL_TAGGED` is 1
    let mask := if attrindx old ≤ 1 ∧ attrindx new ≤ 1 then mask ||| (7#64 <<< 2) else mask
    (old ^^^ new) &&& ~~~mask = 0

def mkSectProt (prot : Entry) : Entry := (prot &&& ~~~3#64) ||| 1#64

def setHuge (entry phys : Nat) (prot : Entry) (s : VmState) : VmState × Bool :=
  let new := pfnPte (phys / 4096) (mkSectProt prot)
  if !pgattrChangeIsSafe (load64 s.mem entry) new then (s, false)
  else (s.setMem (store64 s.mem entry new), true)

abbrev FreePage := Nat → Nat → VmState → Option VmState

def vmapTryHuge (k : Nat) (freePage : FreePage) (prot : Entry) (entry addr fin phys : Nat) (s : VmState) :
    Option (VmState × Bool) :=
  if sub64 fin addr ≠ span k ∨ addr % span k ≠ 0 ∨ phys % span k ≠ 0 then some (s, false)
  else
    (if ptePresent (load64 s.mem entry) then freePage entry addr s else some s).map (setHuge entry phys prot)

/-! ### The walk -/

def addrEnd (k addr fin : Nat) : Nat :=
  let boundary := alignDown (add64 addr (span k)) (span k)
  if sub64 boundary 1 < sub64 fin 1 then boundary else fin

def archVmapPteRangeMapSize (addr fin pfn : Nat) : Nat :=
  if sub64 fin addr < contPteSize then 4096
  else if addr % contPteSize ≠ 0 then 4096
  else if pfn * 4096 % contPteSize ≠ 0 then 4096
  else contPteSize

abbrev VmapRange := Nat → Nat → Nat → Nat → VmState → Option (VmState × Int)

def vmapPteLoop (prot : Entry) (fin : Nat) : (fuel pte addr pfn : Nat) → Mem → Option Mem
  | 0, _, _, _, _ => none
  | fuel + 1, pte, addr, pfn, m =>
    if !pteNone (ptepGet pte m) then none
    else
      let size := archVmapPteRangeMapSize addr fin pfn
      let m :=
        if size ≠ 4096 then setHugePteAt pte (archMakeHugePte (pfnPte pfn prot) (Nat.log2 size)) size m
        else setPteAt addr pte (pfnPte pfn prot) m
      let addr := add64 addr size
      if addr < fin then vmapPteLoop prot fin fuel (pte + 8 * (size / 4096)) addr (pfn + size / 4096) m
      else some m

def vmapPteRange (prot : Entry) : VmapRange := fun pmd addr fin phys s =>
  match tableAllocTrack pmdTableProt pmd s with
  | none => none
  | some (s, none) => some (s, negEnomem)
  | some (s, some table) =>
    (vmapPteLoop prot fin 512 (table + 8 * index 0 addr) addr (phys / 4096) s.mem).map fun m => (s.setMem m, 0)

abbrev TryHuge := Nat → Nat → Nat → Nat → VmState → Option (VmState × Bool)

def vmapTableLoop (k : Nat) (tryHuge : TryHuge) (range : VmapRange) (fin : Nat) :
    (fuel entry addr phys : Nat) → VmState → Option (VmState × Int)
  | 0, _, _, _, _ => none
  | fuel + 1, entry, addr, phys, s =>
    let next := addrEnd k addr fin
    match tryHuge entry addr next phys s with
    | none => none
    | some (s, huge) =>
      match if huge then some (s, 0) else range entry addr next phys s with
      | none => none
      | some (s, err) =>
        if err ≠ 0 then some (s, err)
        else if next ≠ fin then
          vmapTableLoop k tryHuge range fin fuel (entry + 8) next (add64 phys (sub64 next addr)) s
        else some (s, 0)

def vmapTableRange (k : Nat) (tableProt : Entry) (freePage : FreePage) (prot : Entry) (range : VmapRange) : VmapRange :=
  fun entry addr fin phys s =>
    match tableAllocTrack tableProt entry s with
    | none => none
    | some (s, none) => some (s, negEnomem)
    | some (s, some table) =>
      vmapTableLoop k (vmapTryHuge k freePage prot) range fin 512 (table + 8 * index k addr) addr phys s

def vmapPmdRange (prot : Entry) : VmapRange :=
  vmapTableRange 1 pudTableProt pmdFreePtePage prot (vmapPteRange prot)

def vmapPudPhysRange (prot : Entry) : VmapRange :=
  vmapTableRange 2 pudTableProt pudFreePmdPage prot (vmapPmdRange prot)

/-- The walk starts with the first entry of `mm->pg_dir`, whatever `virt` is. -/
def vmapPhysRangeNoflush (pgDir phys virt size : Nat) (prot : Entry) (s : VmState) : Option (VmState × Int) :=
  vmapTableLoop 3 (fun _ _ _ _ s => some (s, false)) (vmapPudPhysRange prot) (add64 virt size) 512 pgDir virt phys s

end QuestOS
