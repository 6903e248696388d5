import QuestOS.Mmu.VmapSpec

/-!
# The mapping primitive of the kernel

`create_mapping_noalloc` and `create_mapping_alloc` of `mmu.c` and the functions they call.  The source
reaches a table through one of the slots `FIX_PUD`, `FIX_PMD` and `FIX_PTE`, a window of one page; here a
pointer to an entry is its physical address, and a pointer that leaves its page faults.  `none` means that
the call does not return: `BUG_ON`, such a fault, or the endless loop of `pgtable_alloc`.
-/

namespace QuestOS

open Bytes PageTable

structure MapFlags where
  noBlock : Bool
  noCont : Bool
  noExec : Bool
  deriving DecidableEq, Repr

def noContMappings : MapFlags := ⟨false, true, false⟩

/-! ### Tables -/

def pgtableAlloc (s : VmState) : Option (VmState × Nat) :=
  match memblockPhysAllocRange 4096 4096 0 0 s.heap.mb with
  | none => none
  | some (mb, pa) => if pa = 0 then none else some ({ s with heap := { s.heap with mb := mb } }, pa)

/-- `PMD_TYPE_TABLE | PMD_TABLE_UXN | PMD_TABLE_AF`, with `PMD_TABLE_PXN` if nothing is to be executed, and the same
bits for the other levels. -/
def initTableProt (flags : MapFlags) : Entry :=
  3#64 ||| 1#64 <<< 60 ||| 1#64 <<< 10 ||| (if flags.noExec then 1#64 <<< 59 else 0)

/-- How `init_pud`, `init_cont_pmd` and `init_cont_pte` get the table of an entry: a new one for an entry that is 0,
and else the one that the entry is taken to point to. -/
def initTable (flags : MapFlags) (entry : Nat) (s : VmState) : Option (VmState × Nat) :=
  if load64 s.mem entry = 0 then
    match pgtableAlloc s with
    | none => none
    | some (s, pa) =>
      let s := s.setMem (fill s.mem pa 4096 0)
      some (s.setMem (store64 s.mem entry (BitVec.ofNat 64 pa ||| initTableProt flags)), pa)
  else some (s, pteToPhys (load64 s.mem entry))

/-! ### Loops -/

abbrev MapPart := Nat → Nat → Nat → Nat → VmState → Option VmState

/-- `do { next = …; … phys += next - addr; } while (…, addr = next, addr != end)`. -/
def mapLoop (addrEnd : Nat → Nat → Nat) (advance : Nat → Nat → Nat → Nat) (part : MapPart) (fin : Nat) :
    (fuel entry addr phys : Nat) → VmState → Option VmState
  | 0, _, _, _, _ => none
  | fuel + 1, entry, addr, phys, s =>
    let next := addrEnd addr fin
    match part entry addr next phys s with
    | none => none
    | some s =>
      if next ≠ fin then
        mapLoop addrEnd advance part fin fuel (advance entry addr next) next (add64 phys (sub64 next addr)) s
      else some s

def nextEntry (entry _addr _next : Nat) : Nat := entry + 8

def contEntry (k entry addr next : Nat) : Nat := entry + 8 * index k next - 8 * index k addr

def allAligned (size addr next phys : Nat) : Bool := addr % size = 0 && next % size = 0 && phys % size = 0

def contPmdSize : Nat := 16 * span 1

def contProt (flags : MapFlags) (size addr next phys : Nat) (prot : Entry) : Entry :=
  if allAligned size addr next phys && !flags.noCont then prot ||| pteContBit else prot

/-! ### The levels -/

def initPte (prot : Entry) (fin : Nat) : (fuel ptep addr phys : Nat) → Mem → Option Mem
  | 0, _, _, _, _ => none
  | fuel + 1, ptep, addr, phys, m =>
    let old := load64 m ptep
    let m := store64 m ptep (pfnPte (phys / 4096) prot)
    if !pgattrChangeIsSafe old (load64 m ptep) then none
    else
      let addr := add64 addr 4096
      if addr ≠ fin then initPte prot fin fuel (ptep + 8) addr (add64 phys 4096) m else some m

def pmdSect (e : Entry) : Bool := isValid e && !isTable e

def initContPteGroup (flags : MapFlags) (prot : Entry) : MapPart := fun ptep addr next phys s =>
  (initPte (contProt flags contPteSize addr next phys prot) next (512 - ptep % 4096 / 8) ptep addr phys s.mem).map
    s.setMem

def initContPte (flags : MapFlags) (prot : Entry) : MapPart := fun pmdp addr fin phys s =>
  let pmd := load64 s.mem pmdp
  if pmdSect pmd then none
  else if !isTable pmd then none
  else
    match initTable flags pmdp s with
    | none => none
    | some (s, table) =>
      mapLoop (addrEndOf contPteSize) (contEntry 0) (initContPteGroup flags prot) fin 512 (table + 8 * index 0 addr)
        addr phys s

def initPmdEntry (flags : MapFlags) (prot : Entry) : MapPart := fun pmdp addr next phys s =>
  let old := load64 s.mem pmdp
  if allAligned (span 1) addr next phys && !flags.noBlock then
    let s := (setHuge pmdp phys prot s).1
    if !pgattrChangeIsSafe old (load64 s.mem pmdp) then none else some s
  else
    match initContPte flags prot pmdp addr next phys s with
    | none => none
    | some s => if old ≠ 0 ∧ old ≠ load64 s.mem pmdp then none else some s

def initPmd (flags : MapFlags) (prot : Entry) : MapPart := fun pmdp addr fin phys s =>
  mapLoop (addrEnd 1) nextEntry (initPmdEntry flags prot) fin 512 pmdp addr phys s

def initContPmdGroup (flags : MapFlags) (prot : Entry) : MapPart := fun pmdp addr next phys s =>
  initPmd flags (contProt flags contPmdSize addr next phys prot) pmdp addr next phys s

def initContPmd (flags : MapFlags) (prot : Entry) : MapPart := fun pudp addr fin phys s =>
  match initTable flags pudp s with
  | none => none
  | some (s, table) =>
    mapLoop (addrEndOf contPmdSize) (contEntry 1) (initContPmdGroup flags prot) fin 512 (table + 8 * index 1 addr)
      addr phys s

def initPudEntry (flags : MapFlags) (prot : Entry) : MapPart := fun pudp addr next phys s =>
  if allAligned (span 2) addr next phys && !flags.noBlock then some (setHuge pudp phys prot s).1
  else initContPmd flags prot pudp addr next phys s

def initPud (flags : MapFlags) (prot : Entry) : MapPart := fun pgdp addr fin phys s =>
  match initTable flags pgdp s with
  | none => none
  | some (s, table) =>
    mapLoop (addrEnd 2) nextEntry (initPudEntry flags prot) fin 512 (table + 8 * index 2 addr) addr phys s

def createPgdMapping (pgdir phys virt size : Nat) (prot : Entry) (flags : MapFlags) (_alloc : Bool) (s : VmState) :
    Option VmState :=
  if phys % 4096 ≠ virt % 4096 then some s
  else
    let addr := alignDown virt 4096
    mapLoop (addrEnd 3) nextEntry (initPud flags prot) (alignUp (add64 virt size) 4096) 512 (pgdir + 8 * index 3 virt)
      addr (alignDown phys 4096) s

def pageOffset : Nat := 0xffff000000000000

def createMappingNoalloc (pgdir phys virt size : Nat) (prot : Entry) (s : VmState) : Option VmState :=
  if virt < pageOffset then some s else createPgdMapping pgdir phys virt size prot noContMappings false s

def createMappingAlloc (pgdir phys virt size : Nat) (prot : Entry) (s : VmState) : Option VmState :=
  if virt < pageOffset then some s else createPgdMapping pgdir phys virt size prot noContMappings true s

end QuestOS
