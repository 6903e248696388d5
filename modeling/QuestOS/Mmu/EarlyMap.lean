import QuestOS.Align
import QuestOS.Lib.PageTable

/-!
# The early page-table builder

`pg_map_range` of `mmu.c` and the functions it calls, one for each level of the tables.  They run with
the MMU off, or on tables that are mapped one to one, so that an entry's address is used as a pointer.
Entry pointers are kept as the index in their table; the bound on the rounds of a loop is the 512
entries of a table.  `pmd_map_range`, `pud_map_range` and `pg_map_range` differ in the level, the block
flag and the function for the next level: `tableMapRange` is all three of them.
-/

namespace QuestOS

open Bytes PageTable

structure EarlyState where
  mem : Mem
  pnext : Nat

def pageMask : BitVec 64 := ~~~0xfff#64

def pgDescTypeTable : BitVec 64 := 0b11

def pgDescTypeBlock : BitVec 64 := 0b01

def pgDescTypePage : BitVec 64 := 0b11

/-- `PG_TABLE_ENTRY_RWX`: `APTABLE_RW1_0`, `UXNTABLE_NX`, `PXNTABLE_X`. -/
def pgTableEntryRwx : BitVec 64 := 0b01 <<< 61 ||| 0b1 <<< 60

def pgTableEntryGetAddr (e : BitVec 64) : Nat := ((e &&& pageMask) &&& 0xffffffffffff#64).toNat

def lastEntry (k vaEnd : Nat) : Nat := index k (sub64 (alignUp vaEnd (span k)) 1)

def pteMapLoop (attr : BitVec 64) (pte last : Nat) : (fuel i start : Nat) → Mem → Mem
  | 0, _, _, m => m
  | fuel + 1, i, start, m =>
    if i ≤ last then
      pteMapLoop attr pte last fuel (i + 1) (add64 start 4096)
        (store64 m (pte + 8 * i) ((BitVec.ofNat 64 start &&& pageMask) ||| attr ||| pgDescTypePage))
    else m

def pteMapRange (attr : BitVec 64) (pte start fin va : Nat) (s : EarlyState) : EarlyState :=
  let vaEnd := add64 va (sub64 fin start)
  { s with mem := pteMapLoop attr pte (lastEntry 0 vaEnd) 512 (index 0 va) start s.mem }

abbrev MapRange := Nat → Nat → Nat → Nat → EarlyState → EarlyState

def linkTable (t i : Nat) (s : EarlyState) : EarlyState :=
  if isValid (slot s.mem t i) then s
  else ⟨store64 s.mem (t + 8 * i)
    ((BitVec.ofNat 64 s.pnext &&& pageMask) ||| (pgDescTypeTable ||| pgTableEntryRwx)), s.pnext + 4096⟩

def useBlock (k : Nat) (block : Bool) (start va vaEnd : Nat) : Bool :=
  va % span k = 0 && start % span k = 0 && add64 va (span k) ≤ vaEnd && block

def tableMapLoop (k : Nat) (block : Bool) (attr : BitVec 64) (next : MapRange) (t last fin vaEnd : Nat) :
    (fuel i start va : Nat) → EarlyState → EarlyState
  | 0, _, _, _, s => s
  | fuel + 1, i, start, va, s =>
    if useBlock k block start va vaEnd then
      let s := { s with
        mem := store64 s.mem (t + 8 * i) (BitVec.ofNat 64 start ||| attr ||| pgDescTypeBlock) }
      if i + 1 ≤ last then
        tableMapLoop k block attr next t last fin vaEnd fuel (i + 1) (add64 start (span k))
          (add64 va (span k)) s
      else s
    else
      let s := linkTable t i s
      let mapSize := sub64 (alignDown (add64 va (span k)) (span k)) va
      let mapEnd := min (add64 start mapSize) fin
      let mapSize := sub64 mapEnd start
      let s := next (pgTableEntryGetAddr (slot s.mem t i)) start mapEnd va s
      if i + 1 ≤ last then
        tableMapLoop k block attr next t last fin vaEnd fuel (i + 1) mapEnd (add64 va mapSize) s
      else s

def tableMapRange (k : Nat) (block : Bool) (attr : BitVec 64) (next : MapRange) : MapRange :=
  fun t start fin va s =>
    let vaEnd := add64 va (sub64 fin start)
    tableMapLoop k block attr next t (lastEntry k vaEnd) fin vaEnd 512 (index k va) start va s

def pmdMapRange (attr : BitVec 64) (flags : Nat) : MapRange :=
  tableMapRange 1 (flags.testBit 1) attr (pteMapRange attr)

def pudMapRange (attr : BitVec 64) (flags : Nat) : MapRange :=
  tableMapRange 2 (flags.testBit 0) attr (pmdMapRange attr flags)

def pgMapRange (attr : BitVec 64) (flags : Nat) (pgd start fin va : Nat) (s : EarlyState) : EarlyState :=
  tableMapRange 3 false attr (pudMapRange attr flags) pgd (alignDown start 4096) (alignUp fin 4096)
    (alignDown va 4096) s

end QuestOS
