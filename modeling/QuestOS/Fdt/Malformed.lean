import QuestOS.Fdt.Fold

/-!
# Malformed trees

The counts come from the blob.  `FDT_CHECK_COUNTS` bounds the number of address cells and only asks the number of size
cells to be positive, so the number of cells of an entry can overflow an `int`; and the test of the index accepts `-1`.
All other requests stay inside of the properties and of the array, and end.
-/

namespace QuestOS.Fdt

open Climb

variable {addr cs cells : List Fdt32} {bus parent node n : Node} {buses path : List Node} {na ns pna fuel a : Nat}

/-! ### Fuel -/

theorem rangesLoop_mono {rone rlen : Int} {p : CellPtr} {offset fuel' : Nat} {r : CellPtr × Nat} (hle : fuel ≤ fuel')
    (h : rangesLoop addr na ns pna rone fuel rlen p offset = some r) :
    rangesLoop addr na ns pna rone fuel' rlen p offset = some r := by
  induction fuel generalizing fuel' rlen p offset with
  | zero => cases h
  | succ fuel ih =>
    obtain ⟨fuel', rfl⟩ := Nat.exists_eq_succ_of_ne_zero (show fuel' ≠ 0 by omega)
    rw [rangesLoop] at h ⊢
    split at h
    · rename_i hlen
      obtain ⟨off, hmap, hrest⟩ := Option.bind_eq_some_iff.mp h
      rw [if_pos hlen, hmap, Option.bind_some]
      split at hrest
      · rename_i hne
        rw [if_pos hne, hrest]
      · rename_i heq
        rw [if_neg heq]
        exact ih (by omega) hrest
    · rename_i hlen
      rw [if_neg hlen, h]

theorem fdtTranslateOne_mono {fuel' : Nat} {r : List Fdt32 × Int} (hle : fuel ≤ fuel')
    (h : fdtTranslateOne fuel bus addr na ns pna = some r) : fdtTranslateOne fuel' bus addr na ns pna = some r := by
  rw [fdtTranslateOne] at h ⊢
  dsimp only at h ⊢
  split at h
  · rename_i hlen
    rw [if_pos hlen, h]
  · rename_i hlen
    obtain ⟨q, hloop, hrest⟩ := Option.bind_eq_some_iff.mp h
    rw [if_neg hlen, rangesLoop_mono hle hloop, Option.bind_some, hrest]

/-! ### An entry that is too long -/

/-- The sum of the counts is negative, so the loop is entered, and the size of the first entry is behind the end. -/
theorem fdtTranslateOne_overflow (hna : na ≤ fdtMaxAddrCells) (hpna : pna ≤ fdtMaxAddrCells) (hns : ns < 2 ^ 31)
    (hne : rangeBytes bus ≠ []) (hover : 2 ^ 31 ≤ na + pna + ns) : fdtTranslateOne fuel bus addr na ns pna = none := by
  have hmax : fdtMaxAddrCells = 4 := rfl
  have hlt := rangeBytes_lt bus
  have hcells := length_cellsOf (rangeBytes bus)
  have hlen : (rangeBytes bus).length ≠ 0 := fun h0 => hne (List.length_eq_zero_iff.mp h0)
  have hrone : i32 (↑na + ↑pna + ↑ns) = ((na + pna + ns : Nat) : Int) - 2 ^ 32 := by
    have hword := i32_word (show na + pna + ns < 2 ^ 32 by omega)
    rw [if_neg (by omega)] at hword
    rw [← hword]
    push_cast
    rfl
  have hmap : fdtBusMap addr ⟨cellsOf (rangeBytes bus), ((0 : Nat) : Int)⟩ na ns pna = none :=
    fdtBusMap_eq_none (by omega) (by omega)
  rw [fdtTranslateOne]
  dsimp only
  rw [if_neg hlen]
  cases fuel with
  | zero => rfl
  | succ fuel =>
    rw [rangesLoop, if_pos (by omega), ← Int.natCast_zero, hmap]
    rfl

/-! ### The way to the root -/

def WayFits (path : List Node) (a : Nat) : Prop :=
  ∀ b q left x, Met nextBus path a (b :: q :: left) x → q.Counts → EntryFits b q

theorem translateLoop_iff (hw : ∀ n ∈ bus :: buses, n.Words) (hc : bus.Counts) (h : Holds addr bus.addrCells a) :
    (∃ fuel v, translateLoop fuel (bus :: buses) addr bus.addrCells bus.szCells = some v) ↔
      WayFits (bus :: buses) a := by
  constructor
  · rintro ⟨fuel, v, hrun⟩
    induction buses generalizing bus addr a with
    | nil =>
      intro b q left x hmet
      cases hmet.of_singleton.1
    | cons parent buses ih =>
      have hwp : parent.Words := hw parent (by simp)
      by_cases hp : parent.Counts
      · rw [translateLoop_step hwp hp] at hrun
        obtain ⟨⟨addr', err⟩, hone, hrest⟩ := Option.bind_eq_some_iff.mp hrun
        have hfit : EntryFits bus parent := by
          by_contra hover
          rw [EntryFits, not_or, Nat.not_lt] at hover
          rw [fdtTranslateOne_overflow hc.2.1 hp.2.1 hc.2.2.2 hover.1 hover.2] at hone
          cases hone
        intro b q left x hmet hq
        rcases hmet.cases_cons with ⟨heq, -⟩ | ⟨a', hnext, hmet⟩
        · cases heq
          exact hfit
        · -- with more fuel the result is the same, and it is the map of the bus
          have hmore := fdtTranslateOne_mono (Nat.le_add_right fuel (2 ^ 31)) hone
          have hspec := fdtTranslateOne_spec h hc.1 hc.2.1 hp.1 hp.2.1 hfit
            (show (rangeBytes bus).length < fuel + 2 ^ 31 from Nat.lt_add_left fuel (rangeBytes_lt bus))
          have hmap : busMap64 bus bus.addrCells bus.szCells parent.addrCells a = some a' := by
            rw [← hnext, nextBus, if_pos hp]
          rw [hmap] at hspec
          obtain ⟨addr₁, hspec, hholds⟩ := hspec
          obtain ⟨rfl, rfl⟩ := Prod.mk.inj (Option.some.inj (hmore.symm.trans hspec))
          exact ih (fun n hn => hw n (List.mem_cons_of_mem _ hn)) hp hholds hrest b q left x hmet hq
      · intro b q left x hmet hq
        rcases hmet.cases_cons with ⟨heq, -⟩ | ⟨a', hnext, -⟩
        · cases heq
          exact absurd hq hp
        · rw [nextBus, if_neg hp] at hnext
          cases hnext
  · intro hfit
    exact ⟨2 ^ 31, _, translateLoop_climb (Nat.le_refl _) hw hc h hfit⟩

/-! ### The index -/

variable {index : BitVec 32}

theorem toNat_lt_of_ne (hne : index ≠ -1) : index.toNat + 1 < 2 ^ 32 := by
  have hval : (-1 : BitVec 32).toNat = 2 ^ 32 - 1 := by decide
  have hlt := index.isLt
  by_contra hge
  exact hne (BitVec.eq_of_toNat_eq (by omega))

theorem toInt_add_one (hlt : index.toNat + 1 < 2 ^ 32) : (index + 1).toInt =
    if index.toNat + 1 < 2 ^ 31 then ((index.toNat + 1 : Nat) : Int) else -((2 ^ 32 - (index.toNat + 1) : Nat) : Int) := by
  have hadd : (index + 1).toNat = index.toNat + 1 := by
    rw [BitVec.toNat_add, show (1 : BitVec 32).toNat = 1 from rfl, Nat.mod_eq_of_lt hlt]
  rw [BitVec.toInt_eq_toNat_cond, hadd]
  split_ifs <;> omega

theorem lt_toUlong_iff {len m : Nat} (hlen : len < 2 ^ 31) (hpos : 0 < m) (hm : m ≤ 8)
    (hne : index ≠ -1) : len < toUlong ((index + 1).toInt * 4 * m) ↔ len < (index.toNat + 1) * (4 * m) := by
  have hlt := toNat_lt_of_ne hne
  have hcast : ∀ k : Nat, (k : Int) * 4 * m = ((k * (4 * m) : Nat) : Int) := by
    intro k
    push_cast
    rw [Int.mul_assoc]
  rw [toInt_add_one hlt]
  split
  · have hprod : (index.toNat + 1) * (4 * m) ≤ 2 ^ 31 * 32 := Nat.mul_le_mul (by omega) (by omega)
    rw [hcast, toUlong_natCast (by omega)]
  · -- a negative number of bytes is a large one
    have hbig : 2 ^ 31 * 1 ≤ (index.toNat + 1) * (4 * m) := Nat.mul_le_mul (by omega) (by omega)
    have hprod : (2 ^ 32 - (index.toNat + 1)) * (4 * m) ≤ 2 ^ 31 * 32 := Nat.mul_le_mul (by omega) (by omega)
    have hprodpos : 0 < (2 ^ 32 - (index.toNat + 1)) * (4 * m) := Nat.mul_pos (by omega) (by omega)
    have hneg := toUlong_neg hprodpos (by omega)
    rw [Int.neg_mul, Int.neg_mul, hcast]
    exact iff_of_true (by omega) (by omega)

/-! ### The request -/

def regCells (reg : Property) (bus : Node) (index : Nat) : List Fdt32 :=
  ((cellsOf reg.bytes).drop (index * (bus.addrCells + bus.szCells))).take bus.addrCells

/-- Of a node with `reg` whose bus has valid counts, the index is not `-1`; and if there is such an entry and its
address is to be translated, every entry of `ranges` on the way fits. -/
def RequestFits (index : BitVec 32) : List Node → Prop
  | node :: bus :: buses => ∀ reg, node.reg = some reg → 0 < bus.addrCells → bus.addrCells ≤ fdtMaxAddrCells →
      bus.szCells ≤ fdtMaxNcells → index ≠ -1 ∧
        ((index.toNat + 1) * (4 * (bus.addrCells + bus.szCells)) ≤ reg.bytes.length → 0 < bus.szCells →
          WayFits (bus :: buses) (number (regCells reg bus index.toNat) % 2 ^ 64))
  | _ => True

variable {reg : Property} {addr₀ : AddrArray}

theorem fdtGetAddrIndex_eq (hw : bus.Words)
    (hpos : 0 < bus.addrCells) (hle : bus.addrCells ≤ fdtMaxAddrCells) (hsz : bus.szCells ≤ fdtMaxNcells)
    (hreg : node.reg = some reg) : fdtGetAddrIndex fuel addr₀ (node :: bus :: buses) index =
      if reg.bytes.length < toUlong ((index + 1).toInt * 4 * ((bus.addrCells + bus.szCells : Nat) : Int)) then
        some fdtAddrTNone
      else if bus.szCells ≠ 0 then fdtTranslateAddress fuel addr₀ (node :: bus :: buses)
        ⟨cellsOf reg.bytes, index.toInt * ((bus.addrCells + bus.szCells : Nat) : Int)⟩
      else fdtReadNumber ⟨cellsOf reg.bytes, index.toInt * ((bus.addrCells + bus.szCells : Nat) : Int)⟩
        bus.addrCells := by
  have hna : fdtAddressCells (bus :: buses) = bus.addrCells := by rw [fdtAddressCells_eq hw, if_pos ⟨hpos, hle⟩]
  have hns : fdtSizeCells (bus :: buses) = bus.szCells := by rw [fdtSizeCells_eq hw, if_pos hsz]
  rw [fdtGetAddrIndex, fdtGetAddrIndexParent, List.tail_cons, List.head?_cons, Option.bind_some, hreg]
  dsimp only
  rw [hna, hns, if_neg (by omega), if_neg (by omega)]
  simp only [Int.natCast_add, Int.toNat_natCast, ne_eq, Int.natCast_eq_zero]

theorem fdtGetAddrIndex_neg_one (hw : bus.Words)
    (hpos : 0 < bus.addrCells) (hle : bus.addrCells ≤ fdtMaxAddrCells) (hsz : bus.szCells ≤ fdtMaxNcells)
    (hreg : node.reg = some reg) : fdtGetAddrIndex fuel addr₀ (node :: bus :: buses) (-1) = none := by
  have hcells : ∀ m : Nat, 0 < m → readCells ⟨cellsOf reg.bytes, (-1 : BitVec 32).toInt * (m : Int)⟩ bus.addrCells = none := by
    intro m hm
    refine readCells_of_neg ?_ hpos
    rw [show (-1 : BitVec 32).toInt = -1 from rfl]
    show -1 * (m : Int) < 0
    omega
  have htest : ¬ reg.bytes.length < toUlong ((-1 + 1 : BitVec 32).toInt * 4 *
      ((bus.addrCells + bus.szCells : Nat) : Int)) := by
    rw [show (-1 + 1 : BitVec 32).toInt = 0 from rfl, Int.zero_mul, Int.zero_mul]
    exact Nat.not_lt_zero _
  rw [fdtGetAddrIndex_eq hw hpos hle hsz hreg, if_neg htest]
  have hread := hcells (bus.addrCells + bus.szCells) (by omega)
  split
  · have hmax : fdtMaxNcells = 4 := rfl
    have hc : bus.Counts := ⟨hpos, hle, by omega, by omega⟩
    rw [fdtTranslateAddress, List.tail_cons]
    dsimp only
    rw [fdtCountCells_counts hw hc, Option.bind_some]
    dsimp only
    rw [fdtCheckCounts_eq_true hc, if_pos rfl, Int.toNat_natCast, hread]
    rfl
  · rw [fdtReadNumber_eq, hread]
    rfl

theorem fdtGetAddrIndex_refused (hw : bus.Words)
    (h : ¬ (0 < bus.addrCells ∧ bus.addrCells ≤ fdtMaxAddrCells ∧ bus.szCells ≤ fdtMaxNcells) ∨ node.reg = none) :
    fdtGetAddrIndex fuel addr₀ (node :: bus :: buses) index = some fdtAddrTNone := by
  have hbad : fdtErrBadncells = 14 := rfl
  rw [fdtGetAddrIndex, fdtGetAddrIndexParent, List.tail_cons, List.head?_cons, Option.bind_some,
    fdtAddressCells_eq hw, fdtSizeCells_eq hw]
  dsimp only
  by_cases hna : 0 < bus.addrCells ∧ bus.addrCells ≤ fdtMaxAddrCells
  · rw [if_pos hna, if_neg (by omega)]
    by_cases hsz : bus.szCells ≤ fdtMaxNcells
    · have hreg : node.reg = none := h.resolve_left (by simp [hna, hsz])
      rw [if_pos hsz, if_neg (by omega), hreg]
    · rw [if_neg hsz, if_pos (by omega)]
  · rw [if_neg hna, if_pos (by omega)]

theorem readCells_reg (hpos : 0 < bus.addrCells)
    (hin : (index.toNat + 1) * (4 * (bus.addrCells + bus.szCells)) ≤ reg.bytes.length) :
    readCells ⟨cellsOf reg.bytes, index.toInt * ((bus.addrCells + bus.szCells : Nat) : Int)⟩ bus.addrCells =
      some (regCells reg bus index.toNat) := by
  have hlen := reg.len_lt
  have hmul : (index.toNat + 1) * 1 ≤ (index.toNat + 1) * (4 * (bus.addrCells + bus.szCells)) :=
    Nat.mul_le_mul_left _ (by omega)
  have hint : index.toInt = index.toNat := by
    rw [BitVec.toInt_eq_toNat_cond, if_pos (by omega)]
  rw [hint, ← Int.natCast_mul]
  refine readCells_of_le ?_
  have hcells : (index.toNat + 1) * (bus.addrCells + bus.szCells) ≤ reg.bytes.length / 4 := by
    rw [Nat.le_div_iff_mul_le (by decide), Nat.mul_assoc, Nat.mul_comm _ 4]
    exact hin
  rw [length_cellsOf]
  rw [Nat.succ_mul] at hcells
  omega

theorem fdtGetAddrIndex_entry_iff
    (hw : ∀ n ∈ bus :: buses, n.Words) (hpos : 0 < bus.addrCells) (hle : bus.addrCells ≤ fdtMaxAddrCells)
    (hsz : bus.szCells ≤ fdtMaxNcells) (hreg : node.reg = some reg) (hone : index ≠ -1)
    (hin : (index.toNat + 1) * (4 * (bus.addrCells + bus.szCells)) ≤ reg.bytes.length) :
    (∃ fuel v, fdtGetAddrIndex fuel addr₀ (node :: bus :: buses) index = some v) ↔
      (0 < bus.szCells → WayFits (bus :: buses) (number (regCells reg bus index.toNat) % 2 ^ 64)) := by
  have hmax : fdtMaxAddrCells = 4 := rfl
  have hmax' : fdtMaxNcells = 4 := rfl
  have hwb : bus.Words := hw bus (by simp)
  have hread := readCells_reg hpos hin
  have htest : ¬ reg.bytes.length < toUlong ((index + 1).toInt * 4 * ((bus.addrCells + bus.szCells : Nat) : Int)) := by
    rw [lt_toUlong_iff reg.len_lt (by omega) (by omega) hone]
    omega
  simp only [fdtGetAddrIndex_eq hwb hpos hle hsz hreg, if_neg htest]
  by_cases hzero : bus.szCells = 0
  · refine iff_of_true ⟨0, number (regCells reg bus index.toNat) % 2 ^ 64, ?_⟩ fun h => absurd hzero (by omega)
    rw [if_neg (not_not.mpr hzero), fdtReadNumber_eq, hread]
    rfl
  · have hc : bus.Counts := ⟨hpos, hle, by omega, by omega⟩
    obtain ⟨addr, hholds, heq⟩ := fdtTranslateAddress_eq node buses addr₀ hwb hc hread
    simp only [ne_eq, hzero, not_false_eq_true, if_true, heq]
    rw [translateLoop_iff hw hc hholds]
    constructor
    · intro hfit _
      exact hfit
    · intro h
      exact h (Nat.pos_of_ne_zero hzero)

/-- A request reads and writes only inside of the properties and of the array and ends, iff its index is not `-1` and
no entry of `ranges` on its way is too long for an `int`. -/
theorem fdtGetAddrIndex_inside_iff (path : List Node) (hw : ∀ n ∈ path, n.Words) (index : BitVec 32)
    (addr₀ : AddrArray) :
    (∃ fuel v, fdtGetAddrIndex fuel addr₀ path index = some v) ↔ RequestFits index path := by
  match path with
  | [] => exact iff_of_true ⟨0, _, rfl⟩ trivial
  | [node] => exact iff_of_true ⟨0, _, rfl⟩ trivial
  | node :: bus :: buses =>
    have hwb : bus.Words := hw bus (by simp)
    by_cases hrefused : ¬ (0 < bus.addrCells ∧ bus.addrCells ≤ fdtMaxAddrCells ∧ bus.szCells ≤ fdtMaxNcells) ∨
        node.reg = none
    · refine iff_of_true ⟨0, _, fdtGetAddrIndex_refused hwb hrefused⟩ ?_
      intro reg hreg hpos hle hsz
      rcases hrefused with hcounts | hnone
      · exact absurd ⟨hpos, hle, hsz⟩ hcounts
      · rw [hreg] at hnone
        cases hnone
    · obtain ⟨hcounts, hreg⟩ := not_or.mp hrefused
      obtain ⟨hpos, hle, hsz⟩ := not_not.mp hcounts
      obtain ⟨reg, hreg⟩ := Option.ne_none_iff_exists'.mp hreg
      have hfits : RequestFits index (node :: bus :: buses) ↔ index ≠ -1 ∧
          ((index.toNat + 1) * (4 * (bus.addrCells + bus.szCells)) ≤ reg.bytes.length → 0 < bus.szCells →
            WayFits (bus :: buses) (number (regCells reg bus index.toNat) % 2 ^ 64)) := by
        constructor
        · intro h
          exact h reg hreg hpos hle hsz
        · intro h reg' hreg' _ _ _
          obtain rfl : reg = reg' := Option.some.inj (hreg.symm.trans hreg')
          exact h
      rw [hfits]
      by_cases hone : index = -1
      · refine iff_of_false ?_ fun h => h.1 hone
        rintro ⟨fuel, v, hrun⟩
        rw [hone, fdtGetAddrIndex_neg_one hwb hpos hle hsz hreg] at hrun
        cases hrun
      · by_cases hin : (index.toNat + 1) * (4 * (bus.addrCells + bus.szCells)) ≤ reg.bytes.length
        · rw [fdtGetAddrIndex_entry_iff (fun n hn => hw n (List.mem_cons_of_mem _ hn)) hpos hle hsz hreg hone hin]
          exact ⟨fun h => ⟨hone, fun _ => h⟩, fun h => h.2 hin⟩
        · -- the index is refused
          have hmax : fdtMaxAddrCells = 4 := rfl
          have hmax' : fdtMaxNcells = 4 := rfl
          refine iff_of_true ⟨0, fdtAddrTNone, ?_⟩ ⟨hone, fun h => absurd h hin⟩
          rw [fdtGetAddrIndex_eq hwb hpos hle hsz hreg,
            if_pos ((lt_toUlong_iff reg.len_lt (by omega) (by omega) hone).mpr (by omega))]

/-! ### Examples -/

/-- The request for the device on the bus of `0x1000` addresses. -/
theorem fdtGetAddrIndex_inside_iff_soc : RequestFits 0 [deviceNode, socNode, rootNode] := by
  have hw : ∀ n ∈ [deviceNode, socNode, rootNode], n.Words := by
    simp only [List.forall_mem_cons, List.not_mem_nil, false_imp_iff, implies_true, and_true]
    exact ⟨words_of_declared (by decide) (by decide), words_of_declared (by decide) (by decide),
      words_of_declared (by decide) (by decide)⟩
  refine (fdtGetAddrIndex_inside_iff _ hw 0 zeroAddr).mp ⟨2, 0x40000010, ?_⟩
  decide +kernel

def plainNode : Node where
  addressCells := some (wordProperty 0 0 0 1)
  sizeCells := some (wordProperty 0 0 0 1)
  ranges := none
  reg := none

def wideNode : Node where
  addressCells := some (wordProperty 0 0 0 1)
  sizeCells := some (wordProperty 0x7f 0xff 0xff 0xff)
  ranges := some (wordProperty 0 0 0 0)
  reg := none

/-- The loop over the one cell of `ranges` is entered, and the size of an entry is read behind it. -/
theorem wide_ranges_outside : ¬ ∀ (path : List Node) (index : BitVec 32) (addr₀ : AddrArray), (∀ n ∈ path, n.Words) →
    ∃ fuel v, fdtGetAddrIndex fuel addr₀ path index = some v := by
  intro hall
  have hw : ∀ n ∈ [plainNode, wideNode, rootNode], n.Words := by
    simp only [List.forall_mem_cons, List.not_mem_nil, false_imp_iff, implies_true, and_true]
    exact ⟨words_of_declared (by decide) (by decide), words_of_declared (by decide) (by decide),
      words_of_declared (by decide) (by decide)⟩
  have hdevice : deviceNode.Words := words_of_declared (by decide) (by decide)
  have hrun := hall [deviceNode, plainNode, wideNode, rootNode] 0 zeroAddr (List.forall_mem_cons.mpr ⟨hdevice, hw⟩)
  rw [fdtGetAddrIndex_entry_iff hw (by decide) (by decide) (by decide) rfl (by decide) (by decide)] at hrun
  have hmet : Met nextBus [plainNode, wideNode, rootNode] 0x10 [wideNode, rootNode] 0x10 := .step .refl (by decide)
  rcases hrun (by decide) _ _ _ _ hmet (by decide) with hnil | hlt
  · cases hnil
  · exact absurd hlt (by decide)

end QuestOS.Fdt
