import QuestOS.Fdt.Translate
import QuestOS.Lib.Climb

/-!
# Translation through `ranges`

An entry of `ranges` maps the addresses of a bus from `child` on to those of the parent bus from `parent` on.  Here
the map of one bus is stated on numbers, and `fdt_translate_one` is shown to compute it on the array `addr`.
-/

namespace QuestOS.Fdt

open Climb

variable {addr cs cells : List Fdt32} {p : CellPtr} {bus parent node : Node} {na ns pna n fuel a offset : Nat}

/-! ### The map of one bus -/

structure RangeEntry where
  child : Nat
  parent : Nat
  size : Nat

def entryOf (na pna ns : Nat) (cs : List Fdt32) : RangeEntry where
  child := number (cs.take na)
  parent := number ((cs.drop na).take pna)
  size := number ((cs.drop (na + pna)).take ns)

def entriesOf (na pna ns : Nat) : Nat → List Fdt32 → List RangeEntry
  | 0, _ => []
  | k + 1, cs => entryOf na pna ns cs :: entriesOf na pna ns k (cs.drop (na + pna + ns))

def rangeEntries (bus : Node) (na pna ns : Nat) : List RangeEntry :=
  let cs := cellsOf (rangeBytes bus)
  entriesOf na pna ns (cs.length / (na + pna + ns)) cs

def RangeEntry.Matches (e : RangeEntry) (a : Nat) : Prop :=
  e.child % 2 ^ 64 ≤ a ∧ a < (e.child % 2 ^ 64 + e.size % 2 ^ 64) % 2 ^ 64

instance (e : RangeEntry) (a : Nat) : Decidable (e.Matches a) := inferInstanceAs (Decidable (_ ∧ _))

def busMap64 (bus : Node) (na ns pna a : Nat) : Option Nat :=
  if rangeBytes bus = [] then some (a % 2 ^ (32 * pna))
  else ((rangeEntries bus na pna ns).find? fun e => e.Matches a).map fun e =>
    (e.parent % 2 ^ 64 + (a - e.child % 2 ^ 64)) % 2 ^ 64 % 2 ^ (32 * pna)

/-! ### `fdt_translate_one` -/

theorem number_zero_cons (cs : List Fdt32) : number (⟨0, 0, 0, 0⟩ :: cs) = number cs := rfl

theorem number_low (s : Nat) : number [cpuToFdt32 (s % 2 ^ 32)] % 2 ^ 64 = s % 2 ^ 32 := by
  simp only [number, List.foldl_cons, List.foldl_nil, fdt32ToCpu_cpuToFdt32]
  omega

theorem number_high_low {s : Nat} (hs : s < 2 ^ 64) :
    number [cpuToFdt32 (s / 2 ^ 32), cpuToFdt32 (s % 2 ^ 32)] % 2 ^ 64 = s := by
  simp only [number, List.foldl_cons, List.foldl_nil, fdt32ToCpu_cpuToFdt32]
  omega

theorem fdtBusTranslate_holds (h : Holds addr na a) (hpos : 0 < na) (hle : na ≤ fdtMaxAddrCells) :
    ∃ addr', fdtBusTranslate addr offset na = some addr' ∧ Holds addr' na ((a + offset) % 2 ^ 64 % 2 ^ (32 * na)) := by
  rw [fdtBusTranslate, h.readNumber hle]
  obtain ⟨w, x, y, z, rfl⟩ : ∃ w x y z, addr = [w, x, y, z] := by
    match addr, h.length_eq with
    | [w, x, y, z], _ => exact ⟨w, x, y, z, rfl⟩
  have hle : na ≤ 4 := hle
  have hs : (a + offset) % 2 ^ 64 < 2 ^ 64 := Nat.mod_lt _ (by decide)
  generalize hsum : (a + offset) % 2 ^ 64 = s at hs
  have hwide : ∀ k, 2 ≤ k → s % 2 ^ (32 * k) = s := by
    intro k hk
    refine Nat.mod_eq_of_lt (Nat.lt_of_lt_of_le hs ?_)
    exact Nat.pow_le_pow_right (by decide) (by omega)
  simp only [Option.bind_eq_bind, Option.bind_some, hsum]
  interval_cases na
  · exact ⟨[cpuToFdt32 (s % 2 ^ 32), x, y, z], rfl, rfl, number_low s⟩
  · refine ⟨[cpuToFdt32 (s / 2 ^ 32), cpuToFdt32 (s % 2 ^ 32), y, z], rfl, rfl, ?_⟩
    rw [hwide 2 (by decide)]
    exact number_high_low hs
  · refine ⟨[⟨0, 0, 0, 0⟩, cpuToFdt32 (s / 2 ^ 32), cpuToFdt32 (s % 2 ^ 32), z], rfl, rfl, ?_⟩
    rw [hwide 3 (by decide), List.take_succ_cons, number_zero_cons]
    exact number_high_low hs
  · refine ⟨[⟨0, 0, 0, 0⟩, ⟨0, 0, 0, 0⟩, cpuToFdt32 (s / 2 ^ 32), cpuToFdt32 (s % 2 ^ 32)], rfl, rfl, ?_⟩
    rw [hwide 4 (by decide), List.take_succ_cons, number_zero_cons, List.take_succ_cons, number_zero_cons]
    exact number_high_low hs

theorem rangeBytes_lt (bus : Node) : (rangeBytes bus).length < 2 ^ 31 := by
  rw [rangeBytes]
  cases bus.ranges with
  | none => decide
  | some p => exact p.len_lt

theorem copyCells_holds (h : addr.length = fdtMaxAddrCells) (hle : cs.length ≤ fdtMaxAddrCells) :
    ∃ addr', copyCells addr cs = some addr' ∧ Holds addr' cs.length (number cs % 2 ^ 64) := by
  refine ⟨cs ++ addr.drop cs.length, if_pos (h ▸ hle), ?_, ?_⟩
  · rw [List.length_append, List.length_drop]
    omega
  · rw [List.take_left]

theorem number_replicate_zero (n : Nat) : number (List.replicate n ⟨0, 0, 0, 0⟩) = 0 := by
  induction n with
  | zero => rfl
  | succ n ih => rw [List.replicate_succ, number_zero_cons, ih]

theorem zeroCells_holds (h : addr.length = fdtMaxAddrCells) (hle : n ≤ fdtMaxAddrCells) :
    ∃ addr', zeroCells addr n = some addr' ∧ Holds addr' n 0 := by
  have hlen : (List.replicate n (⟨0, 0, 0, 0⟩ : Fdt32)).length = n := List.length_replicate
  obtain ⟨addr', hcopy, hholds⟩ := copyCells_holds h (hlen.trans_le hle)
  rw [hlen, number_replicate_zero] at hholds
  exact ⟨addr', hcopy, hholds⟩

section Loop

variable {pos : Nat}

theorem fdtBusMap_eq (h : Holds addr na a) (hna : na ≤ fdtMaxAddrCells) (hfit : pos + (na + pna + ns) ≤ cells.length) :
    fdtBusMap addr ⟨cells, pos⟩ na ns pna = some (if (entryOf na pna ns (cells.drop pos)).Matches a then
      a - (entryOf na pna ns (cells.drop pos)).child % 2 ^ 64 else ofBadAddr) := by
  have hchild : readCells ⟨cells, pos⟩ na = some ((cells.drop pos).take na) := readCells_of_le (by omega)
  have hsize : readCells ⟨cells, ((pos + (na + pna) : Nat) : Int)⟩ ns = some ((cells.drop (pos + (na + pna))).take ns) :=
    readCells_of_le (by omega)
  have hadd : CellPtr.add ⟨cells, pos⟩ (na + pna) = ⟨cells, ((pos + (na + pna) : Nat) : Int)⟩ := by
    simp [CellPtr.add]
  have hentry : (entryOf na pna ns (cells.drop pos)).size = number ((cells.drop (pos + (na + pna))).take ns) := by
    change number (((cells.drop pos).drop (na + pna)).take ns) = _
    rw [List.drop_drop]
  have hmatches : (entryOf na pna ns (cells.drop pos)).Matches a ↔
      ¬ (a < number ((cells.drop pos).take na) % 2 ^ 64 ∨ (number ((cells.drop pos).take na) % 2 ^ 64 +
        number ((cells.drop (pos + (na + pna))).take ns) % 2 ^ 64) % 2 ^ 64 ≤ a) := by
    rw [RangeEntry.Matches, hentry, not_or, Nat.not_lt, Nat.not_le]
    rfl
  rw [fdtBusMap, h.readNumber hna, fdtReadNumber_eq, hadd, fdtReadNumber_eq, hchild, hsize]
  simp only [Option.map_some, Option.bind_eq_bind, Option.bind_some, hmatches]
  split_ifs <;> rfl

theorem fdtBusMap_eq_none (hns : 0 < ns) (hfit : cells.length < pos + (na + pna + ns)) :
    fdtBusMap addr ⟨cells, pos⟩ na ns pna = none := by
  have hsize : readCells ⟨cells, ((pos + (na + pna) : Nat) : Int)⟩ ns = none := readCells_of_lt (by omega) hns
  have hadd : CellPtr.add ⟨cells, pos⟩ (na + pna) = ⟨cells, ((pos + (na + pna) : Nat) : Int)⟩ := by
    simp [CellPtr.add]
  rw [fdtBusMap, hadd, fdtReadNumber_eq _ ns, hsize]
  cases fdtReadNumber ⟨cells, pos⟩ na <;> rfl

theorem RangeEntry.Matches.offset_ne {e : RangeEntry} (h : e.Matches a) : a - e.child % 2 ^ 64 ≠ ofBadAddr := by
  have hlt : (e.child % 2 ^ 64 + e.size % 2 ^ 64) % 2 ^ 64 < 2 ^ 64 := Nat.mod_lt _ (by decide)
  have hbad : ofBadAddr = 2 ^ 64 - 1 := rfl
  have hmax := h.2
  omega

/-- The loop stops at the first entry that matches; its parent cells are those behind the pointer. -/
theorem rangesLoop_spec (h : Holds addr na a) (hpos : 0 < na) (hna : na ≤ fdtMaxAddrCells)
    (hlen : cells.length < 2 ^ 31) {k : Nat} (hk : (cells.length - pos) / (na + pna + ns) = k) (hle : pos ≤ cells.length)
    (hfuel : k < fuel) :
    match (entriesOf na pna ns k (cells.drop pos)).find? fun e => e.Matches a with
    | none => ∃ q, rangesLoop addr na ns pna ↑(na + pna + ns) fuel ↑(cells.length - pos) ⟨cells, pos⟩ ofBadAddr =
        some (q, ofBadAddr)
    | some e => ∃ q cs, rangesLoop addr na ns pna ↑(na + pna + ns) fuel ↑(cells.length - pos) ⟨cells, pos⟩ ofBadAddr =
        some (q, a - e.child % 2 ^ 64) ∧ e.Matches a ∧ readCells (q.add na) pna = some cs ∧ cs.length = pna ∧
        number cs = e.parent := by
  obtain ⟨fuel, rfl⟩ := Nat.exists_eq_succ_of_ne_zero (show fuel ≠ 0 by omega)
  induction k generalizing pos fuel with
  | zero =>
    refine ⟨⟨cells, pos⟩, ?_⟩
    have hshort : cells.length - pos < na + pna + ns := by
      rcases Nat.div_eq_zero_iff.mp hk with h0 | hlt
      · omega
      · exact hlt
    rw [rangesLoop, if_neg (by omega)]
  | succ k ih =>
    have hentry : na + pna + ns ≤ cells.length - pos := by
      by_contra hshort
      rw [Nat.div_eq_of_lt (by omega)] at hk
      omega
    have hbus := fdtBusMap_eq h hna (show pos + (na + pna + ns) ≤ cells.length by omega)
    rw [rangesLoop, if_pos (by omega), hbus, Option.bind_some, entriesOf]
    by_cases hmatch : (entryOf na pna ns (cells.drop pos)).Matches a
    · rw [List.find?_cons_of_pos (by simpa using hmatch), if_pos hmatch]
      refine ⟨⟨cells, pos⟩, (cells.drop (pos + na)).take pna, if_pos hmatch.offset_ne, hmatch, ?_, ?_, ?_⟩
      · rw [show CellPtr.add ⟨cells, pos⟩ na = ⟨cells, ((pos + na : Nat) : Int)⟩ by simp [CellPtr.add]]
        exact readCells_of_le (by omega)
      · rw [List.length_take, List.length_drop]
        omega
      · rw [entryOf, List.drop_drop]
    · have hadd : CellPtr.add ⟨cells, pos⟩ ↑(na + pna + ns) = ⟨cells, ((pos + (na + pna + ns) : Nat) : Int)⟩ := by
        simp [CellPtr.add]
      have hleft : i32 (↑(cells.length - pos) - ↑(na + pna + ns)) = ↑(cells.length - (pos + (na + pna + ns))) := by
        rw [i32_eq (by omega) (by omega)]
        omega
      rw [List.find?_cons_of_neg (by simpa using hmatch), if_neg hmatch, if_neg (by simp), hadd, hleft,
        List.drop_drop]
      have hdiv : (cells.length - (pos + (na + pna + ns))) / (na + pna + ns) = k := by
        have hnext := Nat.div_eq_sub_div (show 0 < na + pna + ns by omega) hentry
        rw [hk, Nat.sub_sub] at hnext
        omega
      obtain ⟨fuel, rfl⟩ := Nat.exists_eq_succ_of_ne_zero (show fuel ≠ 0 by omega)
      exact ih hdiv (by omega) fuel (by omega)

end Loop

theorem fdtTranslateOne_spec (h : Holds addr na a) (hpos : 0 < na) (hna : na ≤ fdtMaxAddrCells) (hppos : 0 < pna)
    (hpna : pna ≤ fdtMaxAddrCells) (hfit : rangeBytes bus = [] ∨ na + pna + ns < 2 ^ 31)
    (hfuel : (rangeBytes bus).length < fuel) :
    match busMap64 bus na ns pna a with
    | none => fdtTranslateOne fuel bus addr na ns pna = some (addr, 1)
    | some a' => ∃ addr', fdtTranslateOne fuel bus addr na ns pna = some (addr', 0) ∧ Holds addr' pna a' := by
  rw [busMap64, fdtTranslateOne]
  by_cases hnil : rangeBytes bus = []
  · obtain ⟨addr₁, hzero, hholds⟩ := zeroCells_holds h.length_eq hpna
    obtain ⟨addr₂, htrans, hholds⟩ := fdtBusTranslate_holds hholds hppos hpna
    have ha : a % 2 ^ 64 = a := by rw [← h.value, Nat.mod_mod]
    rw [Nat.zero_add, ha] at hholds
    rw [if_pos hnil]
    refine ⟨addr₂, ?_, hholds⟩
    simp only [hnil, List.length_nil, if_true, h.readNumber hna, Option.bind_eq_bind, Option.bind_some, hzero, htrans,
      Option.map_some]
  · have hlen : (rangeBytes bus).length ≠ 0 := fun h0 => hnil (List.length_eq_zero_iff.mp h0)
    have hfit : na + pna + ns < 2 ^ 31 := hfit.resolve_left hnil
    have hrone : i32 (↑na + ↑pna + ↑ns) = ((na + pna + ns : Nat) : Int) := by
      rw [i32_eq (by omega) (by omega)]
      omega
    have hlt := rangeBytes_lt bus
    have hcells := length_cellsOf (rangeBytes bus)
    have hdiv := Nat.div_le_self (cellsOf (rangeBytes bus)).length (na + pna + ns)
    have hk : ((cellsOf (rangeBytes bus)).length - 0) / (na + pna + ns) =
        (cellsOf (rangeBytes bus)).length / (na + pna + ns) := rfl
    have hloop := rangesLoop_spec h hpos hna (by omega) hk (Nat.zero_le _) (show _ < fuel by omega)
    rw [if_neg hnil]
    simp only [hlen, if_false, hrone, ← hcells]
    rw [List.drop_zero, Nat.sub_zero] at hloop
    change match ((rangeEntries bus na pna ns).find? fun e => e.Matches a) with | none => _ | some e => _ at hloop
    generalize ((rangeEntries bus na pna ns).find? fun e => e.Matches a) = r at hloop ⊢
    cases r with
    | none =>
      obtain ⟨q, hq⟩ := hloop
      dsimp only [Option.map_none]
      rw [Int.natCast_zero] at hq
      rw [hq, Option.bind_some, if_pos rfl]
    | some e =>
      obtain ⟨q, cs, hq, hmatch, hread, hcs, hparent⟩ := hloop
      dsimp only [Option.map_some]
      obtain ⟨addr₁, hcopy, hholds⟩ := copyCells_holds h.length_eq (hcs.trans_le hpna)
      rw [hcs, hparent] at hholds
      obtain ⟨addr₂, htrans, hholds⟩ := fdtBusTranslate_holds hholds hppos hpna
      refine ⟨addr₂, ?_, hholds⟩
      rw [Int.natCast_zero] at hq
      rw [hq, Option.bind_some, if_neg hmatch.offset_ne]
      simp only [Option.bind_eq_bind, Option.bind_some, hread, hcopy, htrans, Option.map_some]

end QuestOS.Fdt
