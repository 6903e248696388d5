import Mathlib.Data.List.Chain
import Mathlib.Data.List.Find
import QuestOS.Fdt.Ranges

/-!
# The address at the root

`fdt_translate_address` is the composition of the maps of the buses, from the bus of the node to the root.
-/

namespace QuestOS.Fdt

open Climb

variable {addr cs cells : List Fdt32} {bus parent node n : Node} {buses path : List Node} {na ns pna fuel a : Nat}

/-! ### The counts of a bus -/

/-- The value of a property of one cell, `d` if it is absent; `0` stands for a property of another length. -/
def declared (d : Nat) : Option Property → Nat
  | none => d
  | some p =>
    match p.bytes with
    | [b3, b2, b1, b0] => fdt32ToCpu ⟨b3, b2, b1, b0⟩
    | _ => 0

def Node.addrCells (n : Node) : Nat := declared 2 n.addressCells

def Node.szCells (n : Node) : Nat := declared 1 n.sizeCells

structure Node.Words (n : Node) : Prop where
  address : ∀ p, n.addressCells = some p → p.bytes.length = 4
  size : ∀ p, n.sizeCells = some p → p.bytes.length = 4

/-- The counts that `FDT_CHECK_COUNTS` accepts; the second one is an `int` there. -/
def Node.Counts (n : Node) : Prop :=
  0 < n.addrCells ∧ n.addrCells ≤ fdtMaxAddrCells ∧ 0 < n.szCells ∧ n.szCells < 2 ^ 31

instance (n : Node) : Decidable n.Counts := inferInstanceAs (Decidable (_ ∧ _))

theorem declared_lt (d : Nat) (hd : d < 2 ^ 32) (p : Option Property) : declared d p < 2 ^ 32 := by
  unfold declared
  split
  · exact hd
  · split
    · exact fdt32ToCpu_lt _
    · decide

theorem eq_quad {l : List UInt8} (h : l.length = 4) : ∃ b3 b2 b1 b0, l = [b3, b2, b1, b0] := by
  match l, h with
  | [b3, b2, b1, b0], _ => exact ⟨b3, b2, b1, b0, rfl⟩

theorem length_of_declared {d : Nat} {p : Property} (h : 0 < declared d (some p)) : p.bytes.length = 4 := by
  rw [declared] at h
  split at h
  · rename_i hbytes
    rw [hbytes]
    rfl
  · omega

theorem words_of_declared (haddr : 0 < n.addrCells) (hsize : 0 < n.szCells) : n.Words where
  address p hp := by
    rw [Node.addrCells, hp] at haddr
    exact length_of_declared haddr
  size p hp := by
    rw [Node.szCells, hp] at hsize
    exact length_of_declared hsize

theorem fdtCells_eq {name : Node → Option Property} (hw : ∀ p, name n = some p → p.bytes.length = 4) (d : Nat) :
    fdtCells name (n :: path) = if name n = none then -fdtErrNotfound
      else if fdtMaxNcells < declared d (name n) then -fdtErrBadncells else declared d (name n) := by
  rw [fdtCells]
  cases hp : name n with
  | none => rfl
  | some p =>
    obtain ⟨b3, b2, b1, b0, hbytes⟩ := eq_quad (hw p hp)
    simp only [declared, hbytes, reduceCtorEq, if_false]

theorem fdtAddressCells_eq (hw : n.Words) : fdtAddressCells (n :: path) =
    if 0 < n.addrCells ∧ n.addrCells ≤ fdtMaxAddrCells then (n.addrCells : Int) else -fdtErrBadncells := by
  have hmax : fdtMaxNcells = 4 := rfl
  have hmax' : fdtMaxAddrCells = 4 := rfl
  have hnot : fdtErrNotfound = 1 := rfl
  have hbad : fdtErrBadncells = 14 := rfl
  rw [fdtAddressCells, fdtCells_eq hw.address 2, Node.addrCells]
  cases hp : n.addressCells with
  | none => rfl
  | some p =>
    simp only [reduceCtorEq, if_false]
    generalize declared 2 (some p) = v
    split_ifs <;> omega

theorem fdtSizeCells_eq (hw : n.Words) : fdtSizeCells (n :: path) =
    if n.szCells ≤ fdtMaxNcells then (n.szCells : Int) else -fdtErrBadncells := by
  have hnot : fdtErrNotfound = 1 := rfl
  have hbad : fdtErrBadncells = 14 := rfl
  rw [fdtSizeCells, fdtCells_eq hw.size 1, Node.szCells]
  cases hp : n.sizeCells with
  | none => rfl
  | some p =>
    simp only [reduceCtorEq, if_false]
    generalize declared 1 (some p) = v
    split_ifs <;> omega

theorem fdtCountCells_eq (hw : n.Words) :
    fdtCountCells (n :: path) = some (fdtAddressCells (n :: path), i32 n.szCells) := by
  rw [fdtCountCells, Node.szCells, List.head?_cons, Option.bind_some]
  cases hp : n.sizeCells with
  | none => rfl
  | some p =>
    obtain ⟨b3, b2, b1, b0, hbytes⟩ := eq_quad (hw.size p hp)
    simp only [declared, hbytes]
    rfl

theorem fdtCountCells_counts (hw : n.Words) (hc : n.Counts) :
    fdtCountCells (n :: path) = some ((n.addrCells : Int), (n.szCells : Int)) := by
  obtain ⟨hpos, hle, hspos, hslt⟩ := hc
  rw [fdtCountCells_eq hw, fdtAddressCells_eq hw, if_pos ⟨hpos, hle⟩, i32_eq (by omega) (by omega)]

theorem fdtCheckCounts_eq_true (hc : n.Counts) : fdtCheckCounts n.addrCells n.szCells = true := by
  obtain ⟨hpos, hle, hspos, hslt⟩ := hc
  simp only [fdtCheckCounts, Bool.and_eq_true, decide_eq_true_eq]
  omega

theorem fdtCheckCounts_eq_false (hw : n.Words) (hc : ¬ n.Counts) :
    fdtCheckCounts (fdtAddressCells (n :: path)) (i32 n.szCells) = false := by
  have hlt : n.szCells < 2 ^ 32 := declared_lt 1 (by decide) _
  have hbad : fdtErrBadncells = 14 := rfl
  rw [Node.Counts] at hc
  rw [fdtAddressCells_eq hw, i32_word hlt, ← Bool.not_eq_true]
  simp only [fdtCheckCounts, Bool.and_eq_true, decide_eq_true_eq]
  split_ifs <;> omega

/-! ### The way to the root -/

/-- The map of a bus, given its parent; there is no way through a parent with bad counts. -/
def nextBus (bus parent : Node) (a : Nat) : Option Nat :=
  if parent.Counts then busMap64 bus bus.addrCells bus.szCells parent.addrCells a else none

/-- The number of cells of an entry is an `int`. -/
def EntryFits (bus parent : Node) : Prop :=
  rangeBytes bus = [] ∨ bus.addrCells + parent.addrCells + bus.szCells < 2 ^ 31

theorem translateLoop_step (hw : parent.Words) (hc : parent.Counts) :
    translateLoop fuel (bus :: parent :: buses) addr na ns =
      (fdtTranslateOne fuel bus addr na ns parent.addrCells).bind fun (addr, err) =>
        if err ≠ 0 then some ofBadAddr
        else translateLoop fuel (parent :: buses) addr parent.addrCells parent.szCells := by
  rw [translateLoop, fdtCountCells_counts hw hc, Option.bind_some]
  dsimp only
  rw [fdtCheckCounts_eq_true hc, if_pos rfl, Int.toNat_natCast, Int.toNat_natCast]

theorem translateLoop_refused (hw : parent.Words) (hc : ¬ parent.Counts) :
    translateLoop fuel (bus :: parent :: buses) addr na ns = some ofBadAddr := by
  rw [translateLoop, fdtCountCells_eq hw, Option.bind_some]
  dsimp only
  rw [fdtCheckCounts_eq_false hw hc, if_neg Bool.false_ne_true]

theorem translateLoop_climb (hfuel : 2 ^ 31 ≤ fuel) (hw : ∀ n ∈ bus :: buses, n.Words) (hc : bus.Counts)
    (h : Holds addr bus.addrCells a)
    (hfit : ∀ b q left x, Met nextBus (bus :: buses) a (b :: q :: left) x → q.Counts → EntryFits b q) :
    translateLoop fuel (bus :: buses) addr bus.addrCells bus.szCells =
      some ((climb nextBus (bus :: buses) a).getD ofBadAddr) := by
  induction buses generalizing bus addr a with
  | nil => exact h.readNumber hc.2.1
  | cons parent buses ih =>
    have hwp : parent.Words := hw parent (by simp)
    by_cases hp : parent.Counts
    · have hone := fdtTranslateOne_spec h hc.1 hc.2.1 hp.1 hp.2.1 (hfit _ _ _ _ .refl hp)
        (Nat.lt_of_lt_of_le (rangeBytes_lt bus) hfuel)
      have hnext : nextBus bus parent a = busMap64 bus bus.addrCells bus.szCells parent.addrCells a := if_pos hp
      rw [← hnext] at hone
      rw [translateLoop_step hwp hp, climb]
      cases hmap : nextBus bus parent a with
      | none =>
        rw [hmap] at hone
        rw [hone]
        rfl
      | some a' =>
        rw [hmap] at hone
        obtain ⟨addr', hone, hholds⟩ := hone
        rw [hone]
        exact ih (fun n hn => hw n (List.mem_cons_of_mem _ hn)) hp hholds
          fun b q left x hmet hq => hfit b q left x (hmet.cons hmap) hq
    · have hnext : nextBus bus parent a = none := if_neg hp
      rw [translateLoop_refused hwp hp, climb, hnext]
      rfl

theorem fdtTranslateAddress_eq (node : Node) (buses : List Node) (addr₀ : AddrArray) {inAddr : CellPtr} (hw : bus.Words) (hc : bus.Counts)
    (hreg : readCells inAddr bus.addrCells = some cs) :
    ∃ addr, Holds addr bus.addrCells (number cs % 2 ^ 64) ∧
      ∀ fuel, fdtTranslateAddress fuel addr₀ (node :: bus :: buses) inAddr =
        translateLoop fuel (bus :: buses) addr bus.addrCells bus.szCells := by
  have hlen : cs.length = bus.addrCells := length_readCells hreg
  obtain ⟨addr, hcopy, hholds⟩ := copyCells_holds addr₀.length_eq (hlen.trans_le hc.2.1)
  rw [hlen] at hholds
  refine ⟨addr, hholds, fun fuel => ?_⟩
  rw [fdtTranslateAddress, List.tail_cons]
  dsimp only
  rw [fdtCountCells_counts hw hc, Option.bind_some]
  dsimp only
  rw [fdtCheckCounts_eq_true hc, if_pos rfl, Int.toNat_natCast, Int.toNat_natCast, hreg]
  simp only [Option.bind_eq_bind, Option.bind_some, hcopy]

/-! ### The composition of the maps -/

def RangeEntry.Covers (e : RangeEntry) (a : Nat) : Prop := e.child ≤ a ∧ a < e.child + e.size

instance (e : RangeEntry) (a : Nat) : Decidable (e.Covers a) := inferInstanceAs (Decidable (_ ∧ _))

def Node.entries (bus parent : Node) : List RangeEntry :=
  rangeEntries bus bus.addrCells parent.addrCells bus.szCells

/-- The map of a bus: the address itself without `ranges`, and otherwise by the first entry that maps it; in as many
cells as the parent has. -/
def busMap (bus parent : Node) (a : Nat) : Option Nat :=
  if rangeBytes bus = [] then some (a % 2 ^ (32 * parent.addrCells))
  else ((bus.entries parent).find? fun e => e.Covers a).map fun e =>
    (e.parent + (a - e.child)) % 2 ^ (32 * parent.addrCells)

structure Node.SmallCells (n : Node) : Prop where
  address : n.addrCells = 1 ∨ n.addrCells = 2
  size : n.szCells = 1 ∨ n.szCells = 2

/-- No entry reaches the end of the 64-bit numbers. -/
def NoWrap (bus parent : Node) : Prop := ∀ e ∈ bus.entries parent, e.child + e.size < 2 ^ 64

theorem Node.SmallCells.words (h : n.SmallCells) : n.Words := by
  have haddr := h.address
  have hsize := h.size
  exact words_of_declared (by omega) (by omega)

theorem Node.SmallCells.counts (h : n.SmallCells) : n.Counts := by
  have haddr := h.address
  have hsize := h.size
  have hmax : fdtMaxAddrCells = 4 := rfl
  rw [Node.Counts]
  omega

theorem foldl_lt (cs : List Fdt32) (r : Nat) :
    cs.foldl (fun r c => r * 2 ^ 32 + fdt32ToCpu c) r < (r + 1) * 2 ^ (32 * cs.length) := by
  induction cs generalizing r with
  | nil => simp
  | cons c cs ih =>
    have hc := fdt32ToCpu_lt c
    calc cs.foldl (fun r c => r * 2 ^ 32 + fdt32ToCpu c) (r * 2 ^ 32 + fdt32ToCpu c)
        < (r * 2 ^ 32 + fdt32ToCpu c + 1) * 2 ^ (32 * cs.length) := ih _
      _ ≤ ((r + 1) * 2 ^ 32) * 2 ^ (32 * cs.length) := Nat.mul_le_mul_right _ (by omega)
      _ = (r + 1) * 2 ^ (32 * (cs.length + 1)) := by
        rw [Nat.mul_assoc, ← Nat.pow_add, Nat.mul_add, Nat.mul_one, Nat.add_comm 32]

theorem number_lt (h : cs.length ≤ 2) : number cs < 2 ^ 64 := by
  have hlt := foldl_lt cs 0
  rw [Nat.zero_add, Nat.one_mul] at hlt
  exact Nat.lt_of_lt_of_le hlt (Nat.pow_le_pow_right (by decide) (by omega))

theorem mem_entriesOf {e : RangeEntry} {k : Nat} (he : e ∈ entriesOf na pna ns k cs) :
    ∃ cs', e = entryOf na pna ns cs' := by
  induction k generalizing cs with
  | zero => cases he
  | succ k ih =>
    rcases List.mem_cons.mp he with rfl | he
    · exact ⟨cs, rfl⟩
    · exact ih he

theorem entries_lt (hb : bus.SmallCells) (hp : parent.SmallCells) {e : RangeEntry} (he : e ∈ bus.entries parent) :
    e.child < 2 ^ 64 ∧ e.parent < 2 ^ 64 ∧ e.size < 2 ^ 64 := by
  obtain ⟨cs, rfl⟩ := mem_entriesOf he
  have h₁ := hb.address
  have h₂ := hp.address
  have h₃ := hb.size
  refine ⟨number_lt ?_, number_lt ?_, number_lt ?_⟩ <;> rw [List.length_take] <;> omega

theorem nextBus_eq_busMap (hb : bus.SmallCells) (hp : parent.SmallCells) (hwrap : NoWrap bus parent) :
    nextBus bus parent a = busMap bus parent a := by
  rw [nextBus, if_pos hp.counts, busMap64, busMap]
  split
  · rfl
  · have hmatch : ∀ e ∈ bus.entries parent, decide (e.Matches a) = decide (e.Covers a) := by
      intro e he
      obtain ⟨hchild, -, hsize⟩ := entries_lt hb hp he
      have hsum := hwrap e he
      rw [decide_eq_decide, RangeEntry.Matches, RangeEntry.Covers, Nat.mod_eq_of_lt hchild, Nat.mod_eq_of_lt hsize,
        Nat.mod_eq_of_lt hsum]
    change ((bus.entries parent).find? _).map _ = _
    rw [List.find?_congr hmatch]
    refine Option.map_congr fun e he => ?_
    obtain ⟨hchild, hparent, -⟩ := entries_lt hb hp (List.mem_of_find?_eq_some he)
    have hdvd : 2 ^ (32 * parent.addrCells) ∣ 2 ^ 64 := by
      refine Nat.pow_dvd_pow 2 ?_
      have := hp.address
      omega
    rw [Nat.mod_eq_of_lt hchild, Nat.mod_eq_of_lt hparent, Nat.mod_mod_of_dvd _ hdvd]

/-- There is no address on the parent bus iff `ranges` has entries and none that maps the address. -/
theorem busMap_eq_none_iff : busMap bus parent a = none ↔
    rangeBytes bus ≠ [] ∧ ∀ e ∈ bus.entries parent, ¬ e.Covers a := by
  rw [busMap]
  split
  · simp_all
  · rename_i hne
    simp [hne]

/-- For one or two cells for addresses and sizes on every bus, and no entry of `ranges` that reaches the end of the
64-bit numbers, the address of a node is the composition of the maps of the buses; and it is the error value only if
there is an address on the way that `ranges` does not map, or that is this value.  The rest of a `ranges` whose length
is not a multiple of an entry's is never read. -/
theorem fdtTranslateAddress_fold (node bus : Node) (buses : List Node) (inAddr : CellPtr) (addr₀ : AddrArray)
    (hcells : ∀ n ∈ bus :: buses, n.SmallCells) (hwrap : (bus :: buses).IsChain NoWrap)
    (hreg : readCells inAddr bus.addrCells = some cs) (hfuel : 2 ^ 31 ≤ fuel) :
    fdtTranslateAddress fuel addr₀ (node :: bus :: buses) inAddr =
      some ((climb busMap (bus :: buses) (number cs)).getD ofBadAddr) ∧
    ((∀ left x, Met busMap (bus :: buses) (number cs) left x → x ≠ ofBadAddr) →
      (fdtTranslateAddress fuel addr₀ (node :: bus :: buses) inAddr = some ofBadAddr ↔
        ∃ b q left x, Met busMap (bus :: buses) (number cs) (b :: q :: left) x ∧ rangeBytes b ≠ [] ∧
          ∀ e ∈ b.entries q, ¬ e.Covers x)) := by
  have hb := hcells bus (by simp)
  have hlen : cs.length ≤ 2 := by
    have := hb.address
    rw [length_readCells hreg]
    omega
  have hrun : fdtTranslateAddress fuel addr₀ (node :: bus :: buses) inAddr =
      some ((climb busMap (bus :: buses) (number cs)).getD ofBadAddr) := by
    obtain ⟨addr, hholds, heq⟩ := fdtTranslateAddress_eq node buses addr₀ hb.words hb.counts hreg
    rw [Nat.mod_eq_of_lt (number_lt hlen)] at hholds
    have hchain : (bus :: buses).IsChain fun b q => b.SmallCells ∧ q.SmallCells ∧ NoWrap b q :=
      hwrap.imp_of_mem_imp fun b q hb hq h => ⟨hcells b hb, hcells q hq, h⟩
    have hclimb : climb nextBus (bus :: buses) (number cs) = climb busMap (bus :: buses) (number cs) :=
      climb_congr hchain fun b q x h => nextBus_eq_busMap h.1 h.2.1 h.2.2
    rw [heq fuel, ← hclimb]
    refine translateLoop_climb hfuel (fun n hn => (hcells n hn).words) hb.counts hholds ?_
    -- an entry has at most six cells
    intro b q left x hmet _
    have hbs := (hcells b (hmet.suffix.mem (by simp))).address
    have hsz := (hcells b (hmet.suffix.mem (by simp))).size
    have hqs := (hcells q (hmet.suffix.mem (by simp))).address
    exact .inr (by omega)
  refine ⟨hrun, fun hvalues => ?_⟩
  have hnone : climb busMap (bus :: buses) (number cs) = none ↔
      ∃ b q left x, Met busMap (bus :: buses) (number cs) (b :: q :: left) x ∧ rangeBytes b ≠ [] ∧
        ∀ e ∈ b.entries q, ¬ e.Covers x := by
    simp only [climb_eq_none_iff, busMap_eq_none_iff]
  rw [hrun, ← hnone, Option.some.injEq]
  cases hclimb : climb busMap (bus :: buses) (number cs) with
  | none => exact iff_of_true rfl rfl
  | some x =>
    obtain ⟨b, hmet⟩ := met_of_climb hclimb
    exact iff_of_false (hvalues _ _ hmet) (by simp)

/-! ### An example -/

def wordProperty (b3 b2 b1 b0 : UInt8) : Property := ⟨[b3, b2, b1, b0], show 4 < 2 ^ 31 by decide⟩

def rootNode : Node where
  addressCells := some (wordProperty 0 0 0 2)
  sizeCells := some (wordProperty 0 0 0 2)
  ranges := none
  reg := none

def socNode : Node where
  addressCells := some (wordProperty 0 0 0 1)
  sizeCells := some (wordProperty 0 0 0 1)
  ranges := some ⟨[0, 0, 0, 0, 0, 0, 0, 0, 0x40, 0, 0, 0, 0, 0, 0x10, 0], by decide⟩
  reg := none

def deviceNode : Node where
  addressCells := none
  sizeCells := none
  ranges := none
  reg := some ⟨[0, 0, 0, 0x10, 0, 0, 0, 4], by decide⟩

def zeroAddr : AddrArray := ⟨List.replicate 4 ⟨0, 0, 0, 0⟩, rfl⟩

theorem fdtTranslateAddress_fold_soc : fdtTranslateAddress (2 ^ 31) zeroAddr [deviceNode, socNode, rootNode]
    ⟨cellsOf [0, 0, 0, 0x10, 0, 0, 0, 4], 0⟩ = some 0x40000010 := by
  have hcells : ∀ n ∈ [socNode, rootNode], n.SmallCells := by
    intro n hn
    rcases List.mem_cons.mp hn with rfl | hn
    · exact ⟨.inl rfl, .inl rfl⟩
    · obtain rfl := List.mem_singleton.mp hn
      exact ⟨.inr rfl, .inr rfl⟩
  have hwrap : [socNode, rootNode].IsChain NoWrap := by
    refine List.isChain_cons_cons.mpr ⟨?_, .singleton _⟩
    intro e he
    obtain rfl : e = ⟨0, 0x40000000, 0x1000⟩ := List.mem_singleton.mp he
    decide
  rw [(fdtTranslateAddress_fold deviceNode socNode [rootNode] _ zeroAddr hcells hwrap rfl (Nat.le_refl _)).1]
  decide

end QuestOS.Fdt
