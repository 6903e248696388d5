import QuestOS.Mmu.EarlyMap

/-!
# The bootloader's identity map

`pg_table_init` of `bootloader.S`, on the registers it is called with: the range `[x0, x1)`, the root
table `x2`, the bits `x3` of a table entry and `x4` of a page entry, and the bump pointer `x5`.  Each of
the upper levels is one loop over the entries of the range, as if its tables were one array: the tables of
the next level are taken to follow the one of the first entry.  The loops run up to and including the entry
of the end address.

`x5` does not wrap.  The stores are recorded with the value of `x5` at which they are done; the page that a
round takes counts for the clearing of that page.
-/

namespace QuestOS.Boot

open Bytes PageTable

/-- A store of `size` bytes, done when the pages below `x5` are in use. -/
structure Store where
  addr : Nat
  size : Nat
  x5 : Nat
  deriving DecidableEq, Repr

structure State where
  mem : Mem
  x5 : Nat
  stores : List Store

def ubfx (x lsb width : Nat) : Nat := x / 2 ^ lsb % 2 ^ width

/-- A round of `set_pgd_entry`, `set_pud_entry` or `set_pmd_entry`, with the entry at `x9`. -/
def setEntry (x3 : BitVec 64) (x9 : Nat) (s : State) : State :=
  if isValid (load64 s.mem x9) then s
  else
    { mem := fill (store64 s.mem x9 (BitVec.ofNat 64 s.x5 ||| x3)) s.x5 4096 0
      x5 := s.x5 + 4096
      stores := s.stores ++ [⟨x9, 8, s.x5⟩, ⟨s.x5, 4096, s.x5 + 4096⟩] }

def setEntries (x3 : BitVec 64) (x2 : Nat) : (rounds x7 : Nat) → State → State
  | 0, _, s => s
  | n + 1, x7, s => setEntries x3 x2 n (x7 + 1) (setEntry x3 (add64 x2 (8 * x7)) s)

def nextTable (x2 x7 : Nat) (s : State) : Nat :=
  let x11 := load64 s.mem (add64 x2 (8 * x7))
  if x11 = 0 then s.x5 else ubfx x11.toNat 12 36 * 4096

def setPgd (x0 x1 x2 : Nat) (x3 : BitVec 64) (s : State) : Nat × State :=
  let x7 := ubfx x0 39 9
  let x8 := ubfx x1 39 9
  (nextTable x2 x7 s, setEntries x3 x2 (x8 - x7 + 1) x7 s)

/-- The parts of `set_pud_entry` and `set_pmd_entry`, which differ in the bits of the index. -/
def setLevel (lsb width x0 x1 x2 : Nat) (x3 : BitVec 64) (s : State) : Nat × State :=
  let x7 := ubfx x0 lsb width
  let x8 := sub64 (ubfx x1 lsb width) x7
  let x7 := ubfx x7 0 9
  (nextTable x2 x7 s, setEntries x3 x2 (x8 + 1) x7 s)

def setPud (x0 x1 x2 : Nat) (x3 : BitVec 64) (s : State) : Nat × State := setLevel 30 18 x0 x1 x2 x3 s

def setPmd (x0 x1 x2 : Nat) (x3 : BitVec 64) (s : State) : Nat × State := setLevel 21 27 x0 x1 x2 x3 s

def setPteLoop (x4 : BitVec 64) (x2 : Nat) : (rounds x7 : Nat) → (x10 : BitVec 64) → State → State
  | 0, _, _, s => s
  | n + 1, x7, x10, s =>
    setPteLoop x4 x2 n (x7 + 1) ((x10 ||| x4) + 4096#64)
      { s with
        mem := store64 s.mem (add64 x2 (8 * x7)) (x10 ||| x4)
        stores := s.stores ++ [⟨add64 x2 (8 * x7), 8, s.x5⟩] }

def setPte (x0 x1 x2 : Nat) (x4 : BitVec 64) (s : State) : State :=
  let x7 := ubfx x0 12 36
  let x8 := sub64 (ubfx x1 12 36) x7
  setPteLoop x4 x2 (x8 + 1) (ubfx x7 0 9) (BitVec.ofNat 64 (x7 * 4096)) s

def pgTableInit (x0 x1 x2 : Nat) (x3 x4 : BitVec 64) (s : State) : State :=
  let (x6, s) := setPgd x0 x1 x2 x3 s
  let (x6, s) := setPud x0 x1 x6 x3 s
  let (x6, s) := setPmd x0 x1 x6 x3 s
  setPte x0 x1 x6 x4 s

/-! ### Sequences of calls -/

structure Call where
  x0 : Nat
  x1 : Nat
  x3 : BitVec 64
  x4 : BitVec 64
  deriving DecidableEq, Repr

def Call.run (root : Nat) (c : Call) (s : State) : State := pgTableInit c.x0 c.x1 root c.x3 c.x4 s

def runAll (root : Nat) (cs : List Call) (s : State) : State := cs.foldl (fun s c => c.run root s) s

def EntryBits (w : BitVec 64) : Prop := w &&& (addrMask ||| 3#64) = 3#64

instance (w : BitVec 64) : Decidable (EntryBits w) := inferInstanceAs (Decidable (_ = _))

structure Call.Valid (c : Call) : Prop where
  start_mod : c.x0 % 4096 = 0
  fin_mod : c.x1 % 4096 = 0
  le : c.x0 ≤ c.x1
  fin_le : c.x1 ≤ 2 ^ 48
  table : EntryBits c.x3
  page : EntryBits c.x4

def Store.Accounted (root base : Nat) (st : Store) : Prop :=
  root ≤ st.addr ∧ st.addr + st.size ≤ root + 4096 ∨ base ≤ st.addr ∧ st.addr + st.size ≤ st.x5

instance (root base : Nat) (st : Store) : Decidable (st.Accounted root base) := inferInstanceAs (Decidable (_ ∨ _))

def identity (cs : List Call) (a : Nat) : Option Leaf :=
  (cs.find? fun c => c.x0 ≤ a ∧ a < c.x1).map fun c => ⟨a, leafAttr c.x4⟩

/-- The tables map the ranges of the calls to themselves and nothing else, and every store was to a table. -/
structure IdentityMap (root base : Nat) (cs : List Call) (s : State) : Prop where
  walk : ∀ a < 2 ^ 48, walk s.mem 3 root a = identity cs a
  stores : ∀ st ∈ s.stores, st.Accounted root base

/-! ### Tables that follow one another -/

/-- An entry of the array at `x2` as the loop of its level finds it: the pages from `x5₀` to `x5` have been
taken, and cleared, since the memory was `m`. -/
def peek (m : Mem) (x5₀ x5 x2 i : Nat) : Entry :=
  if x5₀ ≤ x2 + 8 * i ∧ x2 + 8 * i < x5 then 0 else load64 m (x2 + 8 * i)

/-- The tables of `n` entries, from entry `i` on, are consecutive pages from `first` on; an entry that is not
present gets the page at `x5`. -/
def Consecutive (entry : Nat → Entry) : (n i x5 first : Nat) → Prop
  | 0, _, _, _ => True
  | n + 1, i, x5, first =>
    if entry i = 0 then x5 = first ∧ Consecutive entry n (i + 1) (x5 + 4096) (first + 4096)
    else outAddr (entry i) = first ∧ Consecutive entry n (i + 1) x5 (first + 4096)

instance decidableConsecutive (entry : Nat → Entry) : (n i x5 first : Nat) → Decidable (Consecutive entry n i x5 first)
  | 0, _, _, _ => .isTrue trivial
  | n + 1, i, x5, first =>
    have := decidableConsecutive entry n (i + 1) (x5 + 4096) (first + 4096)
    have := decidableConsecutive entry n (i + 1) x5 (first + 4096)
    inferInstanceAs (Decidable (if entry i = 0
      then x5 = first ∧ Consecutive entry n (i + 1) (x5 + 4096) (first + 4096)
      else outAddr (entry i) = first ∧ Consecutive entry n (i + 1) x5 (first + 4096)))

def bump (entry : Nat → Entry) : (n i x5 : Nat) → Nat
  | 0, _, x5 => x5
  | n + 1, i, x5 => bump entry n (i + 1) (if entry i = 0 then x5 + 4096 else x5)

def firstTable (entry : Nat → Entry) (i x5 : Nat) : Nat := if entry i = 0 then x5 else outAddr (entry i)

def Call.first (c : Call) (k : Nat) : Nat := c.x0 / span k % 512

def Call.more (c : Call) (k : Nat) : Nat := c.x1 / span k - c.x0 / span k

def Call.ContiguousFrom (c : Call) (m : Mem) (x5₀ : Nat) : (k x2 x5 : Nat) → Prop
  | 0, _, _ => True
  | k + 1, x2, x5 =>
    Consecutive (peek m x5₀ x5 x2) (c.more (k + 1) + 1) (c.first (k + 1)) x5
        (firstTable (peek m x5₀ x5 x2) (c.first (k + 1)) x5) ∧
      c.ContiguousFrom m x5₀ k (firstTable (peek m x5₀ x5 x2) (c.first (k + 1)) x5)
        (bump (peek m x5₀ x5 x2) (c.more (k + 1) + 1) (c.first (k + 1)) x5)

instance Call.decidableContiguousFrom (c : Call) (m : Mem) (x5₀ : Nat) :
    (k x2 x5 : Nat) → Decidable (c.ContiguousFrom m x5₀ k x2 x5)
  | 0, _, _ => .isTrue trivial
  | k + 1, _, _ =>
    have := fun x2 x5 => c.decidableContiguousFrom m x5₀ k x2 x5
    inferInstanceAs (Decidable (_ ∧ _))

/-- The tables that a call finds or takes at each level follow one another, and its end address has an entry
of its own at each level. -/
def Call.Contiguous (root : Nat) (c : Call) (s : State) : Prop :=
  c.x1 < 2 ^ 48 ∧ c.ContiguousFrom s.mem s.x5 3 root s.x5

instance (root : Nat) (c : Call) (s : State) : Decidable (c.Contiguous root s) := inferInstanceAs (Decidable (_ ∧ _))

def ContiguousRun (root : Nat) : List Call → State → Prop
  | [], _ => True
  | c :: cs, s => c.Contiguous root s ∧ ContiguousRun root cs (c.run root s)

instance decidableContiguousRun (root : Nat) : (cs : List Call) → (s : State) → Decidable (ContiguousRun root cs s)
  | [], _ => .isTrue trivial
  | c :: cs, s =>
    have := decidableContiguousRun root cs (c.run root s)
    inferInstanceAs (Decidable (_ ∧ _))

end QuestOS.Boot
