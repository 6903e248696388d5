import QuestOS.Memblock.Cells

/-!
# Iterating over free memory

`__next_mem_range` and `__next_mem_range_rev` as the iteration macros call them: the two indices travel in one
`u64`, whose value `ULLONG_MAX` ends the iteration (and starts the reverse one), and an element of a region array
is read only if it is there.  `none` is a read outside the array.

The functions of `Memblock.Model` are the same loops on unpacked indices (`revLoop_eq`, `fwdLoop_eq`).  A whole
iteration is a sweep over the memory regions and the gaps between the reserved ones.
-/

namespace QuestOS

open Regions Sweep

/-! ### The packed iterators -/

def ullongMax : BitVec 64 := BitVec.allOnes 64

def packIdx (idxA idxB : Int) : BitVec 64 :=
  (BitVec.ofInt 32 idxA).zeroExtend 64 ||| (BitVec.ofInt 64 idxB) <<< 32

def unpackA (idx : BitVec 64) : Int := (idx.truncate 32).toInt

def unpackB (idx : BitVec 64) : Int := ((idx >>> 32).truncate 32).toInt

def regionAt (t : List MemblockRegion) (i : Int) : Option MemblockRegion := if 0 ≤ i then t[i.toNat]? else none

def gapStartAt (b : List MemblockRegion) (idxB : Int) : Option Nat :=
  if idxB ≠ 0 then (regionAt b (idxB - 1)).map Region.fin else some 0

def gapEndAt (b : List MemblockRegion) (idxB : Int) : Option Nat :=
  if idxB < b.length then (regionAt b idxB).map Region.base else some physAddrMax

structure RangeOut where
  start : Nat
  fin : Nat
  nid : Int
  deriving DecidableEq

/-- The inner loop of `__next_mem_range_rev`: a range with the index to go on from, or the `idx_b` it ends with. -/
def revScan (b : List MemblockRegion) (m : MemblockRegion) (idxA idxB : Int) :
    Option ((RangeOut × BitVec 64) ⊕ Int) :=
  if 0 ≤ idxB then do
    let rStart ← gapStartAt b idxB
    let rEnd ← gapEndAt b idxB
    if rEnd ≤ m.base then some (.inr idxB)
    else if rStart < m.fin then
      some (.inl (⟨max m.base rStart, min m.fin rEnd, m.tag.nid⟩,
        if rStart ≤ m.base then packIdx (idxA - 1) idxB else packIdx idxA (idxB - 1)))
    else revScan b m idxA (idxB - 1)
  else some (.inr idxB)
termination_by (idxB + 1).toNat

def revLoop (nid : Int) (flags : Nat) (a : List MemblockRegion) (b : Option (List MemblockRegion)) (idxA idxB : Int) :
    Option (Option RangeOut × BitVec 64) :=
  if 0 ≤ idxA then do
    let m ← regionAt a idxA
    if shouldSkipRegion nid flags m then revLoop nid flags a b (idxA - 1) idxB
    else
      match b with
      | none => some (some ⟨m.base, m.fin, m.tag.nid⟩, packIdx (idxA - 1) idxB)
      | some b' =>
        match ← revScan b' m idxA idxB with
        | .inl (out, idx) => some (some out, idx)
        | .inr idxB' => revLoop nid flags a b (idxA - 1) idxB'
  else some (none, ullongMax)
termination_by (idxA + 1).toNat

/-- `__next_mem_range_rev`: the range written, if any, and the new `*idx`. -/
def nextMemRangeRevPacked (nid : Int) (flags : Nat) (a : List MemblockRegion) (b : Option (List MemblockRegion))
    (idx : BitVec 64) : Option (Option RangeOut × BitVec 64) :=
  if idx = ullongMax then
    revLoop nid flags a b (BitVec.ofInt 32 (a.length - 1)).toInt (BitVec.ofNat 32 (b.getD []).length).toInt
  else revLoop nid flags a b (unpackA idx) (unpackB idx)

def fwdScan (b : List MemblockRegion) (m : MemblockRegion) (idxA idxB : Int) : Option ((RangeOut × BitVec 64) ⊕ Int) :=
  -- the comparison is one of unsigned numbers
  if 0 ≤ idxB ∧ idxB < b.length + 1 then do
    let rStart ← gapStartAt b idxB
    let rEnd ← gapEndAt b idxB
    if m.fin ≤ rStart then some (.inr idxB)
    else if m.base < rEnd then
      some (.inl (⟨max m.base rStart, min m.fin rEnd, m.tag.nid⟩,
        if m.fin ≤ rEnd then packIdx (idxA + 1) idxB else packIdx idxA (idxB + 1)))
    else fwdScan b m idxA (idxB + 1)
  else some (.inr idxB)
termination_by (b.length + 1 - idxB).toNat

def fwdLoop (nid : Int) (flags : Nat) (a : List MemblockRegion) (b : Option (List MemblockRegion)) (idxA idxB : Int) :
    Option (Option RangeOut × BitVec 64) :=
  if 0 ≤ idxA ∧ idxA < a.length then do
    let m ← regionAt a idxA
    if shouldSkipRegion nid flags m then fwdLoop nid flags a b (idxA + 1) idxB
    else
      match b with
      | none => some (some ⟨m.base, m.fin, m.tag.nid⟩, packIdx (idxA + 1) idxB)
      | some b' =>
        match ← fwdScan b' m idxA idxB with
        | .inl (out, idx) => some (some out, idx)
        | .inr idxB' => fwdLoop nid flags a b (idxA + 1) idxB'
  else some (none, ullongMax)
termination_by (a.length - idxA).toNat

def nextMemRangePacked (nid : Int) (flags : Nat) (a : List MemblockRegion) (b : Option (List MemblockRegion))
    (idx : BitVec 64) : Option (Option RangeOut × BitVec 64) :=
  fwdLoop nid flags a b (unpackA idx) (unpackB idx)

/-- The loops `__for_each_mem_range` and `__for_each_mem_range_rev`: the ranges the body sees, and what the call
that ended the loop wrote. -/
def forEachRange (next : BitVec 64 → Option (Option RangeOut × BitVec 64)) :
    (fuel : Nat) → BitVec 64 → Option (List RangeOut × Option RangeOut)
  | 0, _ => none
  | fuel + 1, idx => do
    let (out, idx') ← next idx
    if idx' = ullongMax then some ([], out)
    else do
      let (rest, last) ← forEachRange next fuel idx'
      some (out.toList ++ rest, last)

/-! ### The packed index -/

theorem toInt_ofInt_32 {n : Int} (h1 : -1 ≤ n) (h2 : n < 2 ^ 31) : (BitVec.ofInt 32 n).toInt = n := by
  rw [BitVec.toInt_ofInt]
  apply Int.bmod_eq_of_le <;> omega

theorem unpackA_packIdx {idxA idxB : Int} (h1 : -1 ≤ idxA) (h2 : idxA < 2 ^ 31) : unpackA (packIdx idxA idxB) = idxA := by
  have hbits : (packIdx idxA idxB).truncate 32 = BitVec.ofInt 32 idxA := by
    apply BitVec.eq_of_getElem_eq
    intro i hi
    simp [packIdx]
  rw [unpackA, hbits, toInt_ofInt_32 h1 h2]

theorem unpackB_packIdx {idxA idxB : Int} (h1 : 0 ≤ idxB) (h2 : idxB < 2 ^ 31) : unpackB (packIdx idxA idxB) = idxB := by
  obtain ⟨n, rfl⟩ := Int.eq_ofNat_of_zero_le h1
  have hbits : (packIdx idxA n >>> 32).truncate 32 = BitVec.ofInt 32 n := by
    apply BitVec.eq_of_getElem_eq
    intro i hi
    have hi' : 32 + i < 64 := by omega
    have hi'' : ¬ 32 + i < 32 := by omega
    simp [packIdx, hi', hi'', ← BitVec.getLsbD_eq_getElem, BitVec.getLsbD_ofNat, hi]
    omega
  rw [unpackB, hbits, toInt_ofInt_32 (by omega) h2]

theorem packIdx_ne_ullongMax {idxA idxB : Int} (h1 : 0 ≤ idxB) (h2 : idxB < 2 ^ 31) :
    packIdx idxA idxB ≠ ullongMax := by
  intro h
  have hb : unpackB (packIdx idxA idxB) = idxB := unpackB_packIdx h1 h2
  rw [h] at hb
  have hmax : unpackB ullongMax = -1 := by decide
  omega

/-! ### The packed iterators are the unpacked ones -/

variable {a b : List MemblockRegion} {m : MemblockRegion} {nid : Int} {flags : Nat}

theorem regionAt_natCast (t : List MemblockRegion) (i : Nat) : regionAt t i = t[i]? := by
  rw [regionAt, if_pos (Int.natCast_nonneg i), Int.toNat_natCast]

theorem gapStartAt_eq {j : Nat} (hj : j ≤ b.length) : gapStartAt b j = some (gapStart b j) := by
  cases j with
  | zero => rfl
  | succ k =>
    have hk : ((k + 1 : Nat) : Int) - 1 = k := by omega
    rw [gapStartAt, if_pos (by omega), hk, regionAt_natCast, List.getElem?_eq_getElem (by omega)]
    simp only [gapStart, List.getElem?_eq_getElem (show k < b.length by omega), Option.map_some, Option.getD_some]

theorem gapEndAt_eq {j : Nat} (hj : j ≤ b.length) : gapEndAt b j = some (gapEnd b j) := by
  rw [gapEndAt, gapEnd, regionAt_natCast]
  split
  · rw [List.getElem?_eq_getElem (by omega)]
    rfl
  · rw [List.getElem?_eq_none (by omega)]
    rfl

theorem revScan_eq (m : MemblockRegion) (i : Nat) {nb : Nat} (hnb : nb ≤ b.length + 1) :
    revScan b m i (nb - 1 : Int) = some (match nextRevInner b m (i + 1) nb with
      | .inl r => .inl (⟨r.start, r.fin, m.tag.nid⟩, packIdx (r.na - 1) (r.nb - 1))
      | .inr nb' => .inr (nb' - 1 : Int)) := by
  induction nb with
  | zero =>
    rw [revScan, if_neg (by omega)]
    rfl
  | succ j ih =>
    have hi : ((i + 1 : Nat) : Int) - 1 = i := by omega
    have hj : ((j + 1 : Nat) : Int) - 1 = j := by omega
    rw [hj, revScan, if_pos (Int.natCast_nonneg j), gapStartAt_eq (by omega), gapEndAt_eq (by omega), nextRevInner]
    dsimp only [Option.bind_eq_bind, Option.bind_some]
    by_cases h1 : gapEnd b j ≤ m.base
    · rw [if_pos h1, if_pos h1]
      exact congrArg (fun n : Int => some (Sum.inr n)) hj.symm
    · rw [if_neg h1, if_neg h1]
      by_cases h2 : gapStart b j < m.fin
      · rw [if_pos h2, if_pos h2]
        by_cases h3 : gapStart b j ≤ m.base
        · simp only [if_pos h3, Nat.add_sub_cancel, hj]
        · simp only [if_neg h3, hi]
      · rw [if_neg h2, if_neg h2]
        exact ih (by omega)

theorem revLoop_eq (nid : Int) (flags : Nat) {na nb : Nat} (hna : na ≤ a.length) (hnb : nb ≤ b.length + 1) :
    match nextMemRangeRev nid flags a b na nb with
    | none => revLoop nid flags a (some b) (na - 1 : Int) (nb - 1 : Int) = some (none, ullongMax)
    | some r => ∃ n, revLoop nid flags a (some b) (na - 1 : Int) (nb - 1 : Int) =
        some (some ⟨r.start, r.fin, n⟩, packIdx (r.na - 1) (r.nb - 1)) := by
  induction na generalizing nb with
  | zero =>
    show revLoop nid flags a (some b) (0 - 1) (nb - 1 : Int) = some (none, ullongMax)
    rw [revLoop, if_neg (by omega)]
  | succ i ih =>
    have hi : ((i + 1 : Nat) : Int) - 1 = i := by omega
    have hm : a[i]? = some a[i] := List.getElem?_eq_getElem (by omega)
    rw [hi, revLoop, if_pos (Int.natCast_nonneg i), regionAt_natCast, nextMemRangeRev, hm]
    dsimp only [Option.bind_eq_bind, Option.bind_some]
    by_cases hs : shouldSkipRegion nid flags a[i] = true
    · rw [if_pos hs, if_pos hs]
      exact ih (by omega) hnb
    · rw [if_neg hs, if_neg hs, revScan_eq a[i] i hnb]
      have hinner := nextRevInner_spec (m := a[i]) (Nat.succ_pos i) hnb
      cases hr : nextRevInner b a[i] (i + 1) nb with
      | inl r => exact ⟨_, rfl⟩
      | inr nb' =>
        rw [hr] at hinner
        exact ih (by omega) (Nat.le_trans hinner hnb)

theorem fwdScan_eq (m : MemblockRegion) (ia : Nat) {left idx : Nat} (hidx : idx + left = b.length + 1) :
    fwdScan b m ia idx = some (match nextInner b m ia left idx with
      | .inl r => .inl (⟨r.start, r.fin, m.tag.nid⟩, packIdx r.na r.nb)
      | .inr idx' => .inr (idx' : Int)) := by
  induction left generalizing idx with
  | zero =>
    rw [fwdScan, if_neg (by omega)]
    rfl
  | succ left ih =>
    rw [fwdScan, if_pos (by omega), gapStartAt_eq (by omega), gapEndAt_eq (by omega), nextInner]
    dsimp only [Option.bind_eq_bind, Option.bind_some]
    by_cases h1 : m.fin ≤ gapStart b idx
    · rw [if_pos h1, if_pos h1]
    · rw [if_neg h1, if_neg h1]
      by_cases h2 : m.base < gapEnd b idx
      · rw [if_pos h2, if_pos h2]
        by_cases h3 : m.fin ≤ gapEnd b idx
        · simp only [if_pos h3, Int.natCast_add, Int.natCast_one]
        · simp only [if_neg h3, Int.natCast_add, Int.natCast_one]
      · rw [if_neg h2, if_neg h2]
        have hnext : idx + 1 + left = b.length + 1 := by omega
        exact ih hnext

theorem fwdLoop_eq (nid : Int) (flags : Nat) {left ia ib : Nat} (hia : ia + left = a.length) (hib : ib ≤ b.length + 1) :
    match nextMemRange nid flags a b left ia ib with
    | none => fwdLoop nid flags a (some b) ia ib = some (none, ullongMax)
    | some r => ∃ n, fwdLoop nid flags a (some b) ia ib = some (some ⟨r.start, r.fin, n⟩, packIdx r.na r.nb) := by
  induction left generalizing ia ib with
  | zero =>
    show fwdLoop nid flags a (some b) ia ib = some (none, ullongMax)
    rw [fwdLoop, if_neg (by omega)]
  | succ left ih =>
    have hm : a[ia]? = some a[ia] := List.getElem?_eq_getElem (by omega)
    rw [fwdLoop, if_pos (by omega), regionAt_natCast, nextMemRange, hm]
    dsimp only [Option.bind_eq_bind, Option.bind_some]
    by_cases hs : shouldSkipRegion nid flags a[ia] = true
    · rw [if_pos hs, if_pos hs]
      exact ih (by omega) hib
    · rw [if_neg hs, if_neg hs, fwdScan_eq a[ia] ia (Nat.add_sub_cancel' hib)]
      have hinner := nextInner_spec b a[ia] ia (b.length + 1 - ib) ib (by omega)
      cases hr : nextInner b a[ia] ia (b.length + 1 - ib) ib with
      | inl r => exact ⟨_, rfl⟩
      | inr ib' =>
        rw [hr] at hinner
        dsimp only at hinner
        exact ih (by omega) (by omega)

/-! ### Whole iterations -/

def RangeOut.ivl (r : RangeOut) : Nat × Nat := (r.start, r.fin)

theorem Iterable.rev_run (h : Iterable nid flags a b) (hla : a.length < 2 ^ 31 - 1) (hlb : b.length < 2 ^ 31 - 1)
    {fuel na nb : Nat} {idx : BitVec 64} (hna : na ≤ a.length) (hnb : nb ≤ b.length + 1)
    (hidx : nextMemRangeRevPacked nid flags a (some b) idx = revLoop nid flags a (some b) (na - 1 : Int) (nb - 1 : Int))
    (hfuel : na + nb < fuel) :
    ∃ rs, forEachRange (nextMemRangeRevPacked nid flags a (some b)) fuel idx = some (rs, none) ∧
      Sweeps (memIvl a) (gapIvl b) Down (Box 0 na 0 nb) (rs.map RangeOut.ivl) := by
  induction fuel generalizing na nb idx with
  | zero => omega
  | succ fuel ih =>
    have hcall := revLoop_eq nid flags hna hnb
    have hstep := h.rev_step hna hnb
    rw [forEachRange, hidx]
    cases hr : nextMemRangeRev nid flags a b na nb with
    | none =>
      rw [hr] at hcall hstep
      dsimp only at hcall
      rw [hcall]
      exact ⟨[], rfl, .done hstep⟩
    | some r =>
      rw [hr] at hcall hstep
      obtain ⟨n, hcall⟩ := hcall
      obtain ⟨⟨p, htake⟩, hrna, hpos⟩ := hstep
      obtain ⟨-, hrnb, hlt⟩ := nextMemRangeRev_spec hnb hr
      have hne : packIdx (r.na - 1) (r.nb - 1) ≠ ullongMax := packIdx_ne_ullongMax (by omega) (by omega)
      have hnext : nextMemRangeRevPacked nid flags a (some b) (packIdx (r.na - 1) (r.nb - 1)) =
          revLoop nid flags a (some b) (r.na - 1 : Int) (r.nb - 1 : Int) := by
        rw [nextMemRangeRevPacked, if_neg hne, unpackA_packIdx (by omega) (by omega),
          unpackB_packIdx (by omega) (by omega)]
      obtain ⟨rs, hrun, hsweep⟩ := ih (by omega) hrnb hnext (by omega)
      rw [hcall]
      dsimp only [Option.bind_eq_bind, Option.bind_some]
      rw [if_neg hne, hrun]
      exact ⟨⟨r.start, r.fin, n⟩ :: rs, rfl, .take htake hsweep⟩

theorem Iterable.run (h : Iterable nid flags a b) (hla : a.length < 2 ^ 31 - 1) (hlb : b.length < 2 ^ 31 - 1)
    {fuel ia ib : Nat} {idx : BitVec 64} (hia : ia ≤ a.length) (hib : ib ≤ b.length + 1)
    (hidx : unpackA idx = ia ∧ unpackB idx = ib) (hfuel : a.length + (b.length + 1) < fuel + (ia + ib)) :
    ∃ rs, forEachRange (nextMemRangePacked nid flags a (some b)) fuel idx = some (rs, none) ∧
      Sweeps (memIvl a) (gapIvl b) Up (Box ia a.length ib (b.length + 1)) (rs.map RangeOut.ivl) := by
  induction fuel generalizing ia ib idx with
  | zero => omega
  | succ fuel ih =>
    have hleft : ia + (a.length - ia) = a.length := by omega
    have hcall := fwdLoop_eq nid flags hleft hib
    have hstep := h.step hleft hib
    rw [forEachRange, nextMemRangePacked, hidx.1, hidx.2]
    cases hr : nextMemRange nid flags a b (a.length - ia) ia ib with
    | none =>
      rw [hr] at hcall hstep
      dsimp only at hcall
      rw [hcall]
      exact ⟨[], rfl, .done hstep⟩
    | some r =>
      rw [hr] at hcall hstep
      obtain ⟨n, hcall⟩ := hcall
      obtain ⟨p, htake⟩ := hstep
      obtain ⟨-, hrnb, hrna, hlt⟩ := nextMemRange_spec hib hr
      have hne : packIdx r.na r.nb ≠ ullongMax := packIdx_ne_ullongMax (by omega) (by omega)
      have hnext : unpackA (packIdx r.na r.nb) = r.na ∧ unpackB (packIdx r.na r.nb) = r.nb :=
        ⟨unpackA_packIdx (by omega) (by omega), unpackB_packIdx (by omega) (by omega)⟩
      obtain ⟨rs, hrun, hsweep⟩ := ih hrna hrnb hnext (by omega)
      rw [hcall]
      dsimp only [Option.bind_eq_bind, Option.bind_some]
      rw [if_neg hne, hrun]
      exact ⟨⟨r.start, r.fin, n⟩ :: rs, rfl, .take htake hsweep⟩

/-- The ranges `rs` are the free memory, each in the relation `before` to the ones after it. -/
structure EnumeratesFree (a b : List MemblockRegion) (before : Nat × Nat → Nat × Nat → Prop) (rs : List RangeOut) :
    Prop where
  order : (rs.map RangeOut.ivl).Pairwise before
  le : ∀ r ∈ rs, r.start ≤ r.fin
  free : ∀ x, (∃ r ∈ rs, r.start ≤ x ∧ x < r.fin) ↔ (lookup a x).isSome ∧ lookup b x = none

theorem Iterable.enumerates (h : Iterable nid flags a b) (hmax : ∀ r ∈ a, r.fin ≤ physAddrMax)
    {later : Nat × Nat → Nat × Nat → Prop} {before : Nat × Nat → Nat × Nat → Prop} {rs : List RangeOut}
    (hsweep : Sweeps (memIvl a) (gapIvl b) later (Box 0 a.length 0 (b.length + 1)) (rs.map RangeOut.ivl))
    (hbefore : ∀ p q, Box 0 a.length 0 (b.length + 1) p → Box 0 a.length 0 (b.length + 1) q → later p q →
      before (cell (memIvl a) (gapIvl b) p) (cell (memIvl a) (gapIvl b) q)) :
    EnumeratesFree a b before rs where
  order := hsweep.pairwise hbefore
  le := fun r hr => (hsweep.mem (List.mem_map_of_mem hr)).2
  free := by
    intro x
    rw [← inside_box_iff h.reserved hmax, ← hsweep.inside_iff]
    simp only [List.mem_map, exists_exists_and_eq_and]
    rfl

/-- A memory region without flags is skipped only for flags that it would have to carry, `MEMBLOCK_MIRROR` and
`MEMBLOCK_KHO_SCRATCH`. -/
theorem shouldSkipRegion_unflagged (hflags : flags &&& 0x42 = 0) (hm : m.tag.flags = 0) :
    shouldSkipRegion numaNoNode flags m = false := by
  have h2 : flags &&& 0x2 = 0 := by
    rw [show 0x2 = 0x42 &&& 0x2 by rfl, ← Nat.and_assoc, hflags, Nat.zero_and]
  have h40 : flags &&& 0x40 = 0 := by
    rw [show 0x40 = 0x42 &&& 0x40 by rfl, ← Nat.and_assoc, hflags, Nat.zero_and]
  simp [shouldSkipRegion, hm, h2, h40, numaNoNode]

/-- Both iterations end without reading outside an array, and enumerate the free memory: the reverse one in
descending order, the other in ascending order.  The call that ends them has no range, so that no range is lost to
an index that looks like the end marker. -/
theorem free_range_iteration (a b : List MemblockRegion) (flags : Nat) (ha : SortedFrom 0 a) (hb : SortedFrom 0 b)
    (hamax : ∀ r ∈ a, r.fin ≤ physAddrMax) (hbmax : ∀ r ∈ b, r.fin ≤ physAddrMax) (hla : a.length < 2 ^ 31 - 1)
    (hlb : b.length < 2 ^ 31 - 1) (hunflagged : ∀ r ∈ a, r.tag.flags = 0) (hflags : flags &&& 0x42 = 0) :
    (∃ rs, forEachRange (nextMemRangeRevPacked numaNoNode flags a (some b)) (a.length + b.length + 2) ullongMax =
        some (rs, none) ∧ EnumeratesFree a b (fun r s => s.2 ≤ r.1) rs) ∧
      ∃ rs, forEachRange (nextMemRangePacked numaNoNode flags a (some b)) (a.length + b.length + 2) 0 =
        some (rs, none) ∧ EnumeratesFree a b (fun r s => r.2 ≤ s.1) rs := by
  have h : Iterable numaNoNode flags a b :=
    ⟨ha, hb, hbmax, fun r hr => shouldSkipRegion_unflagged hflags (hunflagged r hr)⟩
  have hA := ascending_memIvl ha
  have hG := ascending_gapIvl hb
  constructor
  · -- `ULLONG_MAX` stands for the last indices
    have hstart : nextMemRangeRevPacked numaNoNode flags a (some b) ullongMax =
        revLoop numaNoNode flags a (some b) (a.length - 1 : Int) ((b.length + 1 : Nat) - 1 : Int) := by
      have hcnt : (BitVec.ofNat 32 b.length).toInt = b.length := by
        rw [← BitVec.ofInt_natCast, toInt_ofInt_32 (by omega) (by omega)]
      rw [nextMemRangeRevPacked, if_pos rfl, toInt_ofInt_32 (by omega) (by omega), Option.getD_some, hcnt]
      congr 1
      omega
    obtain ⟨rs, hrun, hsweep⟩ := h.rev_run hla hlb (Nat.le_refl _) (Nat.le_refl _) hstart (Nat.lt_succ_self _)
    refine ⟨rs, hrun, h.enumerates hamax hsweep fun p q hp _ hlater => ?_⟩
    exact cell_le_cell hA hG hp.1.2 hp.2.2 hlater
  · have hzero : unpackA 0 = (0 : Nat) ∧ unpackB 0 = (0 : Nat) := by decide
    obtain ⟨rs, hrun, hsweep⟩ := h.run hla hlb (Nat.zero_le _) (Nat.zero_le _) hzero
      (show a.length + (b.length + 1) < a.length + b.length + 2 + (0 + 0) by omega)
    refine ⟨rs, hrun, h.enumerates hamax hsweep fun p q _ hq hlater => ?_⟩
    exact cell_le_cell hA hG hq.1.2 hq.2.2 hlater

def twoBanks : List MemblockRegion := [⟨0x1000, 0x2000, ⟨0, 0⟩⟩, ⟨0x8000, 0x1000, ⟨0, 0⟩⟩]

def twoBanksReserved : List MemblockRegion := [⟨0x1800, 0x800, ⟨0, 0⟩⟩, ⟨0x2000, 0x1000, ⟨memblockRsrvKern, 0⟩⟩]

theorem free_range_iteration_twoBanks :
    (∃ rs, forEachRange (nextMemRangeRevPacked numaNoNode 0 twoBanks (some twoBanksReserved)) 6 ullongMax =
        some (rs, none) ∧ EnumeratesFree twoBanks twoBanksReserved (fun r s => s.2 ≤ r.1) rs) ∧
      ∃ rs, forEachRange (nextMemRangePacked numaNoNode 0 twoBanks (some twoBanksReserved)) 6 0 =
        some (rs, none) ∧ EnumeratesFree twoBanks twoBanksReserved (fun r s => r.2 ≤ s.1) rs :=
  free_range_iteration _ _ 0 (by decide) (by decide) (by decide) (by decide) (by decide) (by decide) (by decide) rfl

end QuestOS
