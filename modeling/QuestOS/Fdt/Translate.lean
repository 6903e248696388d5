import Mathlib.Data.Nat.Bitwise
import Mathlib.Tactic.IntervalCases
import QuestOS.CInt

/-!
# Addresses of the device tree

`fdt_get_addr_index` of `driver/fdt.c` reads an entry of a node's `reg` property and translates it bus by bus, through
the `ranges` properties, to the root.  The functions of libfdt are taken by what they return for a tree: a node is
given with its ancestors, the node itself first and the root last, and each of them with the bytes of the properties
that are read.  No node stands for a negative offset.

Every access to a property or to the array `addr` is checked: `none` stands for an access outside of it, or for a loop
that has not ended within its fuel.
-/

namespace QuestOS.Fdt

/-! ### Cells -/

structure Fdt32 where
  b3 : UInt8
  b2 : UInt8
  b1 : UInt8
  b0 : UInt8
deriving DecidableEq

def fdt32ToCpu (c : Fdt32) : Nat := c.b3.toNat * 2 ^ 24 + c.b2.toNat * 2 ^ 16 + c.b1.toNat * 2 ^ 8 + c.b0.toNat

def cpuToFdt32 (n : Nat) : Fdt32 :=
  ⟨UInt8.ofNat (n / 2 ^ 24), UInt8.ofNat (n / 2 ^ 16), UInt8.ofNat (n / 2 ^ 8), UInt8.ofNat n⟩

def cellsOf : List UInt8 → List Fdt32
  | a :: b :: c :: d :: bytes => ⟨a, b, c, d⟩ :: cellsOf bytes
  | _ => []

structure CellPtr where
  cells : List Fdt32
  pos : Int

def CellPtr.add (p : CellPtr) (n : Int) : CellPtr := ⟨p.cells, p.pos + n⟩

def CellPtr.load (p : CellPtr) : Option Fdt32 := if p.pos < 0 then none else p.cells[p.pos.toNat]?

def readCells (p : CellPtr) : Nat → Option (List Fdt32)
  | 0 => some []
  | n + 1 => p.load.bind fun c => (readCells (p.add 1) n).map (c :: ·)

def pushCell (r : Nat) (c : Fdt32) : Nat := (r <<< 32) % 2 ^ 64 ||| fdt32ToCpu c

def readNumberLoop : Nat → CellPtr → Nat → Option Nat
  | 0, _, r => some r
  | size + 1, cell, r => cell.load.bind fun c => readNumberLoop size (cell.add 1) (pushCell r c)

def fdtReadNumber (cell : CellPtr) (size : Nat) : Option Nat := readNumberLoop size cell 0

def copyCells (addr cs : List Fdt32) : Option (List Fdt32) :=
  if cs.length ≤ addr.length then some (cs ++ addr.drop cs.length) else none

def zeroCells (addr : List Fdt32) (n : Nat) : Option (List Fdt32) := copyCells addr (List.replicate n ⟨0, 0, 0, 0⟩)

def storeCell (addr : List Fdt32) (i : Nat) (c : Fdt32) : Option (List Fdt32) :=
  if i < addr.length then some (addr.set i c) else none

/-! ### The tree -/

/-- A property; libfdt gives its length in an `int`. -/
structure Property where
  bytes : List UInt8
  len_lt : bytes.length < 2 ^ 31

structure Node where
  addressCells : Option Property
  sizeCells : Option Property
  ranges : Option Property
  reg : Option Property

def fdtErrNotfound : Int := 1
def fdtErrBadoffset : Int := 4
def fdtErrBadncells : Int := 14
def fdtMaxNcells : Nat := 4

def fdtCells (name : Node → Option Property) : List Node → Int
  | [] => -fdtErrBadoffset
  | n :: _ =>
    match name n with
    | none => -fdtErrNotfound
    | some p =>
      match p.bytes with
      | [a, b, c, d] =>
        if fdtMaxNcells < fdt32ToCpu ⟨a, b, c, d⟩ then -fdtErrBadncells else fdt32ToCpu ⟨a, b, c, d⟩
      | _ => -fdtErrBadncells

def fdtAddressCells (path : List Node) : Int :=
  let val := fdtCells Node.addressCells path
  if val = 0 then -fdtErrBadncells else if val = -fdtErrNotfound then 2 else val

def fdtSizeCells (path : List Node) : Int :=
  let val := fdtCells Node.sizeCells path
  if val = -fdtErrNotfound then 1 else val

def fdtCountCells (path : List Node) : Option (Int × Int) :=
  match path.head?.bind Node.sizeCells with
  | none => some (fdtAddressCells path, 1)
  | some p => (CellPtr.load ⟨cellsOf p.bytes, 0⟩).map fun c => (fdtAddressCells path, i32 (fdt32ToCpu c))

/-! ### Translation -/

def fdtMaxAddrCells : Nat := 4

def fdtCheckCounts (ac sc : Int) : Bool := 0 < ac && ac ≤ fdtMaxAddrCells && 0 < sc

def ofBadAddr : Nat := 2 ^ 64 - 1

def fdtBusMap (addr : List Fdt32) (range : CellPtr) (na ns pna : Nat) : Option Nat := do
  let cp ← fdtReadNumber range na
  let s ← fdtReadNumber (range.add (na + pna)) ns
  let da ← fdtReadNumber ⟨addr, 0⟩ na
  if da < cp ∨ (cp + s) % 2 ^ 64 ≤ da then some ofBadAddr else some (da - cp)

def fdtBusTranslate (addr : List Fdt32) (offset na : Nat) : Option (List Fdt32) := do
  let a ← fdtReadNumber ⟨addr, 0⟩ na
  let addr ← zeroCells addr na
  let a := (a + offset) % 2 ^ 64
  let addr ← if 1 < na then storeCell addr (na - 2) (cpuToFdt32 (a / 2 ^ 32)) else some addr
  storeCell addr (na - 1) (cpuToFdt32 (a % 2 ^ 32))

def rangesLoop (addr : List Fdt32) (na ns pna : Nat) (rone : Int) : Nat → Int → CellPtr → Nat → Option (CellPtr × Nat)
  | 0, _, _, _ => none
  | fuel + 1, rlen, ranges, offset =>
    if rone ≤ rlen then
      (fdtBusMap addr ranges na ns pna).bind fun offset =>
        if offset ≠ ofBadAddr then some (ranges, offset)
        else rangesLoop addr na ns pna rone fuel (i32 (rlen - rone)) (ranges.add rone) offset
    else some (ranges, offset)

def rangeBytes (bus : Node) : List UInt8 := (bus.ranges.map Property.bytes).getD []

def fdtTranslateOne (fuel : Nat) (bus : Node) (addr : List Fdt32) (na ns pna : Nat) : Option (List Fdt32 × Int) :=
  let bytes := rangeBytes bus
  if bytes.length = 0 then do
    let offset ← fdtReadNumber ⟨addr, 0⟩ na
    let addr ← zeroCells addr pna
    (fdtBusTranslate addr offset pna).map (·, 0)
  else
    let rone := i32 (na + pna + ns)
    (rangesLoop addr na ns pna rone fuel ↑(bytes.length / 4) ⟨cellsOf bytes, 0⟩ ofBadAddr).bind fun (ranges, offset) =>
      if offset = ofBadAddr then some (addr, 1)
      else do
        let cs ← readCells (ranges.add na) pna
        let addr ← copyCells addr cs
        (fdtBusTranslate addr offset pna).map (·, 0)

def translateLoop (fuel : Nat) : List Node → List Fdt32 → Nat → Nat → Option Nat
  | bus :: parent :: buses, addr, na, ns =>
    (fdtCountCells (parent :: buses)).bind fun (pna, pns) =>
      if fdtCheckCounts pna pns then
        (fdtTranslateOne fuel bus addr na ns pna.toNat).bind fun (addr, err) =>
          if err ≠ 0 then some ofBadAddr
          else translateLoop fuel (parent :: buses) addr pna.toNat pns.toNat
      else some ofBadAddr
  -- the root has no parent
  | _, addr, na, _ => fdtReadNumber ⟨addr, 0⟩ na

structure AddrArray where
  cells : List Fdt32
  length_eq : cells.length = fdtMaxAddrCells

def fdtTranslateAddress (fuel : Nat) (addr : AddrArray) (path : List Node) (inAddr : CellPtr) : Option Nat :=
  match path.tail with
  | [] => some ofBadAddr
  | parent :: buses =>
    (fdtCountCells (parent :: buses)).bind fun (na, ns) =>
      if fdtCheckCounts na ns then do
        let cs ← readCells inAddr na.toNat
        let addr ← copyCells addr.cells cs
        translateLoop fuel (parent :: buses) addr na.toNat ns.toNat
      else some ofBadAddr

def fdtAddrTNone : Nat := 2 ^ 64 - 1

def fdtGetAddrIndexParent (fuel : Nat) (addr : AddrArray) (index : BitVec 32) (path parent : List Node) :
    Option Nat :=
  let na := fdtAddressCells parent
  if na < 1 then some fdtAddrTNone
  else
    let ns := fdtSizeCells parent
    if ns < 0 then some fdtAddrTNone
    else
      match path.head?.bind Node.reg with
      | none => some fdtAddrTNone
      | some reg =>
        if reg.bytes.length < toUlong ((index + 1).toInt * 4 * (na + ns)) then some fdtAddrTNone
        else
          let ptr : CellPtr := ⟨cellsOf reg.bytes, index.toInt * (na + ns)⟩
          if ns ≠ 0 then fdtTranslateAddress fuel addr path ptr else fdtReadNumber ptr na.toNat

def fdtGetAddrIndex (fuel : Nat) (addr : AddrArray) (path : List Node) (index : BitVec 32) : Option Nat :=
  fdtGetAddrIndexParent fuel addr index path path.tail

/-! ### Reads -/

variable {addr cs cells : List Fdt32} {bytes : List UInt8} {p : CellPtr} {na ns pna n fuel : Nat}

theorem fdt32ToCpu_lt (c : Fdt32) : fdt32ToCpu c < 2 ^ 32 := by
  have h3 := c.b3.toNat_lt
  have h2 := c.b2.toNat_lt
  have h1 := c.b1.toNat_lt
  have h0 := c.b0.toNat_lt
  unfold fdt32ToCpu
  omega

@[simp] theorem fdt32ToCpu_cpuToFdt32 (n : Nat) : fdt32ToCpu (cpuToFdt32 n) = n % 2 ^ 32 := by
  simp only [fdt32ToCpu, cpuToFdt32, UInt8.toNat_ofNat']
  omega

theorem length_cellsOf (bytes : List UInt8) : (cellsOf bytes).length = bytes.length / 4 := by
  fun_induction cellsOf bytes with
  | case1 a b c d bytes ih =>
    simp only [List.length_cons, ih]
    omega
  | case2 bytes h =>
    match bytes with
    | [] | [_] | [_, _] | [_, _, _] => simp
    | a :: b :: c :: d :: bytes => exact absurd rfl (h a b c d bytes)

def number (cs : List Fdt32) : Nat := cs.foldl (fun r c => r * 2 ^ 32 + fdt32ToCpu c) 0

theorem pushCell_eq (r : Nat) (c : Fdt32) : pushCell r c = (r * 2 ^ 32 + fdt32ToCpu c) % 2 ^ 64 := by
  have hc := fdt32ToCpu_lt c
  have hshift : (r <<< 32) % 2 ^ 64 = (r % 2 ^ 32) <<< 32 := by
    simp only [Nat.shiftLeft_eq]
    omega
  rw [pushCell, hshift, ← Nat.shiftLeft_add_eq_or_of_lt hc, Nat.shiftLeft_eq]
  omega

theorem foldl_pushCell (cs : List Fdt32) (r : Nat) :
    cs.foldl pushCell (r % 2 ^ 64) = cs.foldl (fun r c => r * 2 ^ 32 + fdt32ToCpu c) r % 2 ^ 64 := by
  induction cs generalizing r with
  | nil => rfl
  | cons c cs ih =>
    have hmod : (r % 2 ^ 64 * 2 ^ 32 + fdt32ToCpu c) % 2 ^ 64 = (r * 2 ^ 32 + fdt32ToCpu c) % 2 ^ 64 := by omega
    rw [List.foldl_cons, pushCell_eq, hmod]
    exact ih (r * 2 ^ 32 + fdt32ToCpu c)

theorem readNumberLoop_eq (n : Nat) (p : CellPtr) (r : Nat) :
    readNumberLoop n p r = (readCells p n).map fun cs => cs.foldl pushCell r := by
  induction n generalizing p r with
  | zero => rfl
  | succ n ih =>
    rw [readNumberLoop, readCells]
    cases p.load with
    | none => rfl
    | some c =>
      simp only [Option.bind_some, ih, Option.map_map]
      rfl

theorem fdtReadNumber_eq (p : CellPtr) (n : Nat) :
    fdtReadNumber p n = (readCells p n).map fun cs => number cs % 2 ^ 64 := by
  rw [fdtReadNumber, readNumberLoop_eq]
  congr 1
  funext cs
  exact foldl_pushCell cs 0

theorem readCells_of_le {pos : Nat} (h : pos + n ≤ cells.length) :
    readCells ⟨cells, pos⟩ n = some ((cells.drop pos).take n) := by
  induction n generalizing pos with
  | zero => rfl
  | succ n ih =>
    have hpos : pos < cells.length := by omega
    have hload : CellPtr.load ⟨cells, pos⟩ = some cells[pos] := by
      simp [CellPtr.load, hpos]
    have hnext : CellPtr.add ⟨cells, pos⟩ 1 = ⟨cells, ((pos + 1 : Nat) : Int)⟩ := by
      simp [CellPtr.add]
    rw [readCells, hload, hnext, Option.bind_some, ih (by omega), List.drop_eq_getElem_cons hpos]
    rfl

theorem readCells_of_lt {pos : Nat} (h : cells.length < pos + n) (hn : 0 < n) : readCells ⟨cells, pos⟩ n = none := by
  induction n generalizing pos with
  | zero => omega
  | succ n ih =>
    have hnext : CellPtr.add ⟨cells, pos⟩ 1 = ⟨cells, ((pos + 1 : Nat) : Int)⟩ := by
      simp [CellPtr.add]
    rw [readCells]
    rcases Nat.lt_or_ge pos cells.length with hpos | hpos
    · rw [hnext, ih (by omega) (by omega)]
      cases CellPtr.load ⟨cells, pos⟩ <;> rfl
    · have hload : CellPtr.load ⟨cells, pos⟩ = none := by
        simp [CellPtr.load, hpos]
      rw [hload]
      rfl

theorem readCells_of_neg (h : p.pos < 0) (hn : 0 < n) : readCells p n = none := by
  obtain ⟨n, rfl⟩ := Nat.exists_eq_succ_of_ne_zero (Nat.pos_iff_ne_zero.mp hn)
  rw [readCells, CellPtr.load, if_pos h]
  rfl

theorem length_readCells (h : readCells p n = some cs) : cs.length = n := by
  induction n generalizing p cs with
  | zero =>
    cases h
    rfl
  | succ n ih =>
    obtain ⟨c, -, hrest⟩ := Option.bind_eq_some_iff.mp h
    obtain ⟨cs', hcs', rfl⟩ := Option.map_eq_some_iff.mp hrest
    rw [List.length_cons, ih hcs']

structure Holds (addr : List Fdt32) (na a : Nat) : Prop where
  length_eq : addr.length = fdtMaxAddrCells
  value : number (addr.take na) % 2 ^ 64 = a

theorem Holds.readNumber {a : Nat} (h : Holds addr na a) (hna : na ≤ fdtMaxAddrCells) :
    fdtReadNumber ⟨addr, 0⟩ na = some a := by
  have hread : readCells ⟨addr, ((0 : Nat) : Int)⟩ na = some ((addr.drop 0).take na) := by
    refine readCells_of_le ?_
    rw [h.length_eq]
    omega
  rw [fdtReadNumber_eq, ← Int.natCast_zero, hread, List.drop_zero, Option.map_some, h.value]

end QuestOS.Fdt
