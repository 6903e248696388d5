import QuestOS.Align
import QuestOS.Lib.PageTable

/-!
# Page-table entries and the contiguous bit

The accessors of `pg_table.h` and the functions of `vm.c` that write page entries: `set_pte_at`, which
folds sixteen matching entries into a contiguous group, and `set_huge_pte_at`.  A pointer to an entry
is its address.
-/

namespace QuestOS

open Bytes PageTable

/-! ### Bits -/

def pteUser : Entry := 1#64 <<< 6
def pteRdonly : Entry := 1#64 <<< 7
def pteAf : Entry := 1#64 <<< 10
def pteNg : Entry := 1#64 <<< 11
def pteWrite : Entry := 1#64 <<< 51
def pteContBit : Entry := 1#64 <<< 52
def ptePxn : Entry := 1#64 <<< 53
def pteUxn : Entry := 1#64 <<< 54
def pteDirtyBit : Entry := 1#64 <<< 55
def pteSwbitsMask : Entry := 1#64 <<< 63 ||| 0xf#64 <<< 55

def pteAddrLow : Entry := 0x3fffffffff#64 <<< 12

def pteNone (e : Entry) : Bool := e = 0
def pteYoung (e : Entry) : Bool := e.getLsbD 10
def pteSpecial (e : Entry) : Bool := e.getLsbD 56
def pteHwDirty (e : Entry) : Bool := e.getLsbD 51 && !e.getLsbD 7
def pteDirty (e : Entry) : Bool := e.getLsbD 55 || pteHwDirty e
def pteCont (e : Entry) : Bool := e.getLsbD 52
def pteValidCont (e : Entry) : Bool := isValid e && pteCont e

def ptePresent (e : Entry) : Bool := isValid e || e.getLsbD 11

def pteToPhys (e : Entry) : Nat := (e &&& pteAddrLow).toNat

def ptePfn (e : Entry) : Nat := pteToPhys e / 4096

def pfnPte (pfn : Nat) (prot : Entry) : Entry := BitVec.ofNat 64 (pfn * 4096) ||| prot

def ptePgprot (e : Entry) : Entry := pfnPte (ptePfn e) 0 ^^^ e

def pteAdvancePfn (e : Entry) (nr : Nat) : Entry := pfnPte (ptePfn e + nr) (ptePgprot e)

def pteMkcont (e : Entry) : Entry := e ||| pteContBit
def pteMknoncont (e : Entry) : Entry := e &&& ~~~pteContBit
def pteMkyoung (e : Entry) : Entry := e ||| pteAf
def pteMkold (e : Entry) : Entry := e &&& ~~~pteAf
def pteMkclean (e : Entry) : Entry := (e &&& ~~~pteDirtyBit) ||| pteRdonly

def pteMkdirty (e : Entry) : Entry :=
  let e := e ||| pteDirtyBit
  if e.getLsbD 51 then e &&& ~~~pteRdonly else e

/-! ### Writing entries -/

def contPtes : Nat := 16

def contPteSize : Nat := contPtes * 4096

def contpteAlignDown (ptep : Nat) : Nat := alignDown ptep (8 * contPtes)

/-- `__set_ptes_anysz`, where `stride` is the size of an entry in pages. -/
def setPtesAnysz (stride : Nat) : (nr ptep : Nat) → Entry → Mem → Mem
  | 0, _, _, m => m
  | nr + 1, ptep, pte, m =>
    setPtesAnysz stride nr (ptep + 8) (pteAdvancePfn pte stride) (store64 m ptep pte)

def clearFlush : (ncontig ptep : Nat) → Mem → Mem
  | 0, _, m => m
  | n + 1, ptep, m => clearFlush n (ptep + 8) (store64 m ptep 0)

def contpteGather : (n ptep : Nat) → Entry → Mem → Mem × Entry
  | 0, _, pte, m => (m, pte)
  | n + 1, ptep, pte, m =>
    let ptent := load64 m ptep
    let pte := if pteDirty ptent then pteMkdirty pte else pte
    let pte := if pteYoung ptent then pteMkyoung pte else pte
    contpteGather n (ptep + 8) pte (store64 m ptep 0)

def contpteConvert (ptep : Nat) (pte : Entry) (m : Mem) : Mem :=
  let start := contpteAlignDown ptep
  let pte := pfnPte (alignDown (ptePfn pte) contPtes) (ptePgprot pte)
  let (m, pte) := contpteGather contPtes start pte m
  setPtesAnysz 1 contPtes start pte m

def contpteMatch (m : Mem) : (n ptep : Nat) → (expected : Entry) → Bool
  | 0, _, _ => true
  | n + 1, ptep, expected =>
    pteMkold (pteMkclean (load64 m ptep)) = expected &&
      contpteMatch m n (ptep + 8) (pteAdvancePfn expected 1)

def contpteTryFold (addr ptep : Nat) (pte : Entry) (m : Mem) : Mem :=
  let valign := addr / 4096 % contPtes = contPtes - 1
  let palign := ptePfn pte % contPtes = contPtes - 1
  if valign ∧ palign ∧ isValid pte ∧ !pteCont pte ∧ !pteSpecial pte then
    let expected := pfnPte (alignDown (ptePfn pte) contPtes) (ptePgprot (pteMkold (pteMkclean pte)))
    if contpteMatch m contPtes (contpteAlignDown ptep) expected then
      contpteConvert ptep (pteMkcont pte) m
    else m
  else m

def contpteTryUnfold (ptep : Nat) (pte : Entry) (m : Mem) : Mem :=
  if pteValidCont pte then contpteConvert ptep (pteMknoncont pte) m else m

def setPteAt (addr ptep : Nat) (pte : Entry) (m : Mem) : Mem :=
  let pte := pteMknoncont pte
  let m := contpteTryUnfold ptep (load64 m ptep) m
  let m := setPtesAnysz 1 1 ptep pte m
  contpteTryFold addr ptep pte m

def numContigPtes (size : Nat) : Nat × Nat :=
  if size = 16 * span 1 then (16, span 1) else if size = contPteSize then (contPtes, 4096) else (1, size)

def setHugePteAt (ptep : Nat) (pte : Entry) (sz : Nat) (m : Mem) : Mem :=
  let (ncontig, pgsize) := numContigPtes sz
  if !ptePresent pte then
    (List.range ncontig).foldl (fun m i => store64 m (ptep + 8 * i) pte) m
  else
    let m := if pteCont pte && isValid (load64 m ptep) then clearFlush ncontig ptep m else m
    setPtesAnysz (pgsize / 4096) ncontig ptep pte m

def mkhuge (e : Entry) : Entry := e &&& ~~~2#64

def archMakeHugePte (entry : Entry) (pagesize : Nat) : Entry :=
  if pagesize = span 2 then mkhuge entry
  else if pagesize = 16 * span 1 then mkhuge (entry ||| pteContBit)
  else if pagesize = span 1 then mkhuge entry
  else if pagesize = contPteSize then pteMkcont entry
  else entry

/-! ### Reading an entry -/

def contpteScanFor (test : Entry → Bool) (mk : Entry → Entry) (m : Mem) : (n ptep : Nat) → Entry → Entry
  | 0, _, orig => orig
  | n + 1, ptep, orig =>
    if test (load64 m ptep) then mk orig else contpteScanFor test mk m n (ptep + 8) orig

def contpteScan (m : Mem) : (n ptep : Nat) → Entry → Entry
  | 0, _, orig => orig
  | n + 1, ptep, orig =>
    if pteDirty (load64 m ptep) then contpteScanFor pteYoung pteMkyoung m (n + 1) ptep (pteMkdirty orig)
    else if pteYoung (load64 m ptep) then contpteScanFor pteDirty pteMkdirty m n (ptep + 8) (pteMkyoung orig)
    else contpteScan m n (ptep + 8) orig

def ptepGet (ptep : Nat) (m : Mem) : Entry :=
  let pte := load64 m ptep
  if !pteValidCont pte then pte else contpteScan m contPtes (contpteAlignDown ptep) pte

end QuestOS
