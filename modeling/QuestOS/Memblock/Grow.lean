import Mathlib.Logic.Relation
import QuestOS.Memblock.Find
import QuestOS.Memblock.Remove

/-!
# Growing the array of reserved regions

`memblock_double_array` takes the new array from the memory it manages: it reserves the new array and
frees the old one through the functions that called it.  The addresses that are reserved for
anything else are not touched, and the inner calls find room, so that they never grow the array
again.
-/

namespace QuestOS

open Regions

/-! ### The state of the allocator -/

def Memblock.Reserved (mb : Memblock) (x : Nat) : Prop := (lookup mb.reserved.regions x).isSome

def Memblock.InMemory (mb : Memblock) (x : Nat) : Prop := (lookup mb.memory.regions x).isSome

def Memblock.InArray (mb : Memblock) (x : Nat) : Prop :=
  ∃ a, mb.reserved.array = some a ∧ a ≤ x ∧ x < a + pageAlign (mb.reserved.max * regionEntrySize)

def Memblock.Held (mb : Memblock) (x : Nat) : Prop := mb.Reserved x ∧ ¬ mb.InArray x

structure Memblock.Wf (mb : Memblock) : Prop where
  reserved : mb.reserved.Wf
  limit : mb.currentLimit ≤ physAddrMax
  array : ∀ x, mb.InArray x → mb.Reserved x ∧ mb.InMemory x

variable {mb mb' mb₁ : Memblock} {base size start x : Nat} {double : DoubleArray} {attr : RegionAttr}

theorem MemblockType.Wf.lt_of_lookup {t : MemblockType} (ht : t.Wf) (h : (lookup t.regions x).isSome) :
    x < physAddrMax := by
  obtain ⟨r, hr, -, hx⟩ := lookup_isSome_iff.mp h
  have h1 := ht.sorted.fin_le_finFrom hr
  have h2 := ht.bound
  omega

theorem memblockCapSize_eq (h : base + size ≤ physAddrMax) : memblockCapSize base size = size := by
  rw [memblockCapSize, Nat.min_def, if_pos (by omega)]

theorem le_pageAlign (n : Nat) : n ≤ pageAlign n := by
  simp only [pageAlign, pageSize]
  omega

@[simp] theorem Memblock.get_reserved (mb : Memblock) : mb.get .reserved = mb.reserved := rfl

@[simp] theorem Memblock.set_reserved (mb : Memblock) (t : MemblockType) :
    mb.set .reserved t = { mb with reserved := t } := rfl

@[simp] theorem Memblock.set_get (mb : Memblock) (k : TypeKind) : mb.set k (mb.get k) = mb := by
  cases k <;> rfl

@[simp] theorem Memblock.get_set (mb : Memblock) (k : TypeKind) (t : MemblockType) : (mb.set k t).get k = t := by
  cases k <;> rfl

@[simp] theorem Memblock.set_set (mb : Memblock) (k : TypeKind) (t t' : MemblockType) :
    (mb.set k t).set k t' = mb.set k t' := by
  cases k <;> rfl

/-! ### The two operations once there is room -/

theorem growWhile_room (mb : Memblock) {need fuel : Nat} (double : DoubleArray) (k : TypeKind)
    (h : (mb.get k).cnt + need ≤ (mb.get k).max) :
    growWhile double k need base size (fuel + 1) mb = some (mb, 0) := by
  rw [growWhile, if_neg (by omega)]

theorem addRange_cap (double : DoubleArray) (k : TypeKind) (base size : Nat) (attr : RegionAttr) (mb : Memblock) :
    addRange double k base size attr mb = addRange double k base (memblockCapSize base size) attr mb := by
  have h : memblockCapSize base (memblockCapSize base size) = memblockCapSize base size := by
    simp only [memblockCapSize]
    omega
  unfold addRange
  rw [h]

theorem removeRange_cap (double : DoubleArray) (k : TypeKind) (base size : Nat) (mb : Memblock) :
    removeRange double k base size mb = removeRange double k base (memblockCapSize base size) mb := by
  have h : memblockCapSize base (memblockCapSize base size) = memblockCapSize base size := by
    simp only [memblockCapSize]
    omega
  unfold removeRange isolateRange
  rw [h]

theorem addRange_zero (double : DoubleArray) (k : TypeKind) (base : Nat) (attr : RegionAttr) (mb : Memblock) :
    addRange double k base 0 attr mb = some (mb, 0) := by
  simp [addRange, memblockCapSize]

theorem addRange_nil (double : DoubleArray) (k : TypeKind) (attr : RegionAttr) (hsize : 0 < size)
    (hb : base + size ≤ physAddrMax) (hempty : (mb.get k).regions = []) :
    addRange double k base size attr mb =
      some (mb.set k { mb.get k with regions := [⟨base, size, attr⟩], totalSize := size }, 0) := by
  unfold addRange
  simp only [memblockCapSize_eq hb, hempty]
  rw [if_neg (Nat.pos_iff_ne_zero.mp hsize)]
  rfl

theorem addInsert_of_covered (attr : RegionAttr) {t : MemblockType} {fin : Nat} (ht : SortedFrom 0 t.regions)
    (hb : base ≤ fin) (hgap : gapsIn fin base t.regions = 0) (hcnt : t.cnt ≤ t.max) :
    addInsert attr base fin t = some t := by
  obtain ⟨l, p, h1, h2, -, -⟩ := addLoop_insert t.max attr 0 t.cnt ⟨base, 0, none, 0, t.totalSize⟩ ht
    (.inl (Nat.zero_le _)) hb (by dsimp only; omega)
  rw [addInsert, h1]
  dsimp only at h2 ⊢
  rw [if_pos (by omega)]

/-- `memblock_add_range` on an array that is not empty: it makes room for the gaps and fills them.  The
shortcut of an array that is at most half full does the same. -/
theorem addRange_eq (double : DoubleArray) (k : TypeKind) (attr : RegionAttr) (hsize : 0 < size)
    (hb : base + size ≤ physAddrMax) (hl : SortedFrom 0 (mb.get k).regions) (hne : (mb.get k).regions ≠ []) :
    addRange double k base size attr mb =
      if gapsIn (base + size) base (mb.get k).regions = 0 then some (mb, 0)
      else
        match growWhile double k (gapsIn (base + size) base (mb.get k).regions) base size 64 mb with
        | none => none
        | some (mb₁, ret) =>
          if ret < 0 then some (mb₁, ret)
          else (addInsert attr base (base + size) (mb₁.get k)).map fun t => (mb₁.set k t, 0) := by
  have hhead : ((mb.get k).regions.head?.map Region.size).getD 0 ≠ 0 := by
    obtain ⟨r, l, hr⟩ := List.exists_cons_of_ne_nil hne
    have := hl.size_pos (r := r) (by simp [hr])
    simp only [hr, List.head?_cons, Option.map_some, Option.getD_some]
    omega
  unfold addRange
  simp only [memblockCapSize_eq hb]
  rw [if_neg (Nat.pos_iff_ne_zero.mp hsize), if_neg hhead]
  have hgaps := gapsIn_le (base + size) base (mb.get k).regions
  split
  · rename_i hlarge
    simp only [MemblockType.cnt] at hlarge
    split
    · rename_i hgap
      rw [addInsert_of_covered attr hl (Nat.le_add_right _ _) hgap (by rw [MemblockType.cnt]; omega)]
      simp
    · rw [growWhile_room mb double k (by rw [MemblockType.cnt]; omega)]
      rfl
  · obtain ⟨l', p, h1, h2⟩ := addLoop_count (mb.get k).max attr (base + size) 0 (mb.get k).cnt
      ⟨base, 0, none, 0, (mb.get k).totalSize⟩ (mb.get k).regions
    dsimp only at h2
    rw [Nat.zero_add] at h2
    rw [h1]
    exact h2 ▸ rfl

theorem addRange_of_grow (attr : RegionAttr) (ht : mb.reserved.Wf) (hsize : 0 < size) (hb : base + size ≤ physAddrMax)
    (hfree : ∀ x, base ≤ x → x < base + size → lookup mb.reserved.regions x = none) {ret : Int}
    (hg : growWhile double .reserved 1 base size 64 mb = some (mb₁, ret)) (ht₁ : mb₁.reserved.Wf)
    (hfree₁ : ∀ x, base ≤ x → x < base + size → lookup mb₁.reserved.regions x = none)
    (hroom : 0 ≤ ret → mb₁.reserved.cnt + 1 ≤ mb₁.reserved.max) :
    (ret < 0 ∧ addRange double .reserved base size attr mb = some (mb₁, ret)) ∨
      0 ≤ ret ∧ ∃ t', addRange double .reserved base size attr mb = some ({ mb₁ with reserved := t' }, 0) ∧
        Added attr base (base + size) 1 mb₁.reserved t' := by
  have hgap := gapsIn_free ht.sorted (Nat.lt_add_of_pos_right hsize) hfree
  have hgap₁ := gapsIn_free ht₁.sorted (Nat.lt_add_of_pos_right hsize) hfree₁
  by_cases hempty : mb.reserved.regions = []
  · have hroom0 : mb.reserved.cnt + 1 ≤ mb.reserved.max := by
      have := ht.max_ge
      simp only [MemblockType.cnt, hempty, List.length_nil]
      omega
    obtain ⟨rfl, rfl⟩ : mb = mb₁ ∧ 0 = ret := by
      simpa using (growWhile_room mb double .reserved hroom0).symm.trans hg
    refine .inr ⟨Int.le_refl _, _, addRange_nil double .reserved attr hsize hb hempty, ?_⟩
    refine ⟨⟨⟨Nat.zero_le _, hsize, trivial⟩, hb, ?_, ht.max_ge⟩, rfl, rfl, ?_, fun x => ?_, ?_⟩
    · have := ht.max_ge
      simp only [MemblockType.cnt, List.length_singleton, Memblock.get_reserved]
      omega
    · simp [MemblockType.cnt]
    · rw [hempty, lookup_mk]
      rfl
    · simp
  · rw [addRange_eq double .reserved attr hsize hb ht.sorted hempty]
    simp only [Memblock.get_reserved, Memblock.set_reserved, hgap, hg, Nat.one_ne_zero, if_false]
    by_cases hret : ret < 0
    · exact .inl ⟨hret, by rw [if_pos hret]⟩
    · obtain ⟨t', h3, h4⟩ := addInsert_spec attr ht₁ (Nat.le_add_right base size) hb
        (by rw [hgap₁]; exact hroom (by omega))
      rw [if_neg hret, h3]
      exact .inr ⟨by omega, t', rfl, hgap₁ ▸ h4⟩

theorem removeRange_of_grow (hsize : 0 < size) (hb : base + size ≤ physAddrMax) {ret : Int}
    (hg : growWhile double .reserved 2 base size 64 mb = some (mb₁, ret)) (ht₁ : mb₁.reserved.Wf)
    (hroom : 0 ≤ ret → mb₁.reserved.cnt + 2 ≤ mb₁.reserved.max) :
    (ret < 0 ∧ removeRange double .reserved base size mb = some (mb₁, ret)) ∨
      0 ≤ ret ∧ ∃ t', removeRange double .reserved base size mb = some ({ mb₁ with reserved := t' }, 0) ∧
        Removed base (base + size) mb₁.reserved t' := by
  unfold removeRange isolateRange
  simp only [memblockCapSize_eq hb, Memblock.get_reserved, Memblock.set_reserved, hg]
  rw [if_neg (Nat.pos_iff_ne_zero.mp hsize)]
  by_cases hret : ret < 0
  · rw [if_pos hret]
    exact .inl ⟨hret, by simp [Int.ne_of_lt hret]⟩
  · obtain ⟨q, h1, h2⟩ := isolateLoop_removeLoop ht₁ (Nat.lt_add_of_pos_right (n := base) hsize)
      (hroom (by omega))
    rw [if_neg hret, h1]
    exact .inr ⟨by omega, _, by simp, h2⟩

/-! ### `memblock_double_array` -/

structure Memblock.Free (mb : Memblock) (c n : Nat) : Prop where
  le_max : c + n ≤ physAddrMax
  memory : ∀ x, c ≤ x → x < c + n → mb.InMemory x
  lookup : ∀ x, c ≤ x → x < c + n → lookup mb.reserved.regions x = none

theorem memblockFindInRangeNode_free {nid : Int} {flags align fin : Nat} (hmb : mb.Wf) (hfin : fin ≤ physAddrMax)
    (hstart : start ≤ physAddrMax) (ha : align ≤ 2 ^ 64)
    (h : memblockFindInRangeNode mb size align start fin nid flags ≠ 0) :
    mb.Free (memblockFindInRangeNode mb size align start fin nid flags) size ∧
      max start pageSize ≤ memblockFindInRangeNode mb size align start fin nid flags ∧
      memblockFindInRangeNode mb size align start fin nid flags + size ≤
        max (max start pageSize) (if fin = 0 ∨ fin = 1 then mb.currentLimit else fin) := by
  have hlim := hmb.limit
  have hle : max (max start pageSize) (if fin = 0 ∨ fin = 1 then mb.currentLimit else fin) ≤ physAddrMax := by
    refine Nat.max_le.mpr ⟨Nat.max_le.mpr ⟨hstart, by decide⟩, ?_⟩
    split <;> assumption
  have h64 : physAddrMax < 2 ^ 64 := by decide
  obtain ⟨e, he, hef⟩ := memblockFindInRangeNode_spec hmb.reserved.sorted (by omega) (by omega) (by omega) ha h
  have := he.le_fin
  exact ⟨⟨by omega, he.memory, he.notReserved⟩, he.start_le, by omega⟩

theorem findNewArray_spec {n : Nat} (hmb : mb.Wf) (hs : start + size ≤ physAddrMax)
    (h : findNewArray mb start size n ≠ 0) :
    mb.Free (findNewArray mb start size n) n ∧
      (pageSize ≤ start → findNewArray mb start size n + n ≤ start ∨
        start + size ≤ findNewArray mb start size n) := by
  have ha : pageSize ≤ 2 ^ 64 := by decide
  have hlim := hmb.limit
  unfold findNewArray at h ⊢
  dsimp only at h ⊢
  split at h
  · rename_i hfirst
    rw [if_pos hfirst]
    obtain ⟨h1, -, h2⟩ := memblockFindInRangeNode_free hmb (by omega) (Nat.zero_le _) ha h
    refine ⟨h1, fun hps => .inl (Nat.le_trans h2 ?_)⟩
    -- `min(new_area_start, current_limit)` is not one of the special values, unless the limit is
    split <;> simp only [pageSize] at hps ⊢ <;> omega
  · rename_i hfirst
    rw [if_neg hfirst]
    obtain ⟨h1, h2, -⟩ := memblockFindInRangeNode_free hmb hlim hs ha h
    exact ⟨h1, fun _ => .inr (Nat.le_trans (Nat.le_max_left _ _) h2)⟩

/-- The search below the range is not cut off at its start if that is 0 or 1, which stand for the
limit of all memory. -/
theorem findNewArray_apart {n : Nat} (hmb : mb.Wf) (hs : start + size ≤ physAddrMax) (hn : 0 < n)
    (hclear : 2 ≤ start ∨ start + size ≤ pageSize) (h : findNewArray mb start size n ≠ 0) :
    findNewArray mb start size n + n ≤ start ∨ start + size ≤ findNewArray mb start size n := by
  have ha : pageSize ≤ 2 ^ 64 := by decide
  have hlim := hmb.limit
  unfold findNewArray at h ⊢
  dsimp only at h ⊢
  split at h
  · rename_i hfirst
    rw [if_pos hfirst]
    obtain ⟨-, h1, h2⟩ := memblockFindInRangeNode_free hmb (by omega) (Nat.zero_le _) ha h
    rw [memblockFindInRange]
    generalize memblockFindInRangeNode mb n pageSize 0 (min start mb.currentLimit) numaNoNode 0 = c at h1 h2 ⊢
    simp only [pageSize] at *
    split at h2 <;> omega
  · rename_i hfirst
    rw [if_neg hfirst]
    obtain ⟨-, h2, -⟩ := memblockFindInRangeNode_free hmb hlim hs ha h
    exact .inr (Nat.le_trans (Nat.le_max_left _ _) h2)

structure Grows (start size : Nat) (mb mb' : Memblock) : Prop where
  wf : mb'.Wf
  memory : mb'.memory = mb.memory
  bottomUp : mb'.bottomUp = mb.bottomUp
  currentLimit : mb'.currentLimit = mb.currentLimit
  held : ∀ x, mb'.Held x ↔ mb.Held x
  lookup : ∀ x, mb.Held x → lookup mb'.reserved.regions x = lookup mb.reserved.regions x
  fresh : ∀ x, mb'.InArray x → mb.InArray x ∨
    ¬ mb.Reserved x ∧ (pageSize ≤ start → ¬ (start ≤ x ∧ x < start + size))

theorem Grows.refl (h : mb.Wf) : Grows start size mb mb :=
  ⟨h, rfl, rfl, rfl, fun _ => Iff.rfl, fun _ _ => rfl, fun _ hx => .inl hx⟩

theorem Grows.trans (h : Grows start size mb mb₁) (h' : Grows start size mb₁ mb') :
    Grows start size mb mb' where
  wf := h'.wf
  memory := h'.memory.trans h.memory
  bottomUp := h'.bottomUp.trans h.bottomUp
  currentLimit := h'.currentLimit.trans h.currentLimit
  held := fun x => (h'.held x).trans (h.held x)
  lookup := fun x hx => (h'.lookup x ((h.held x).mpr hx)).trans (h.lookup x hx)
  fresh := fun x hx => by
    rcases h'.fresh x hx with h1 | ⟨h1, h2⟩
    · exact h.fresh x h1
    · by_cases h3 : mb.InArray x
      · exact .inl h3
      · exact .inr ⟨fun h4 => h1 ((h.held x).mpr ⟨h4, h3⟩).1, h2⟩

structure Doubled (start size : Nat) (mb mb' : Memblock) : Prop where
  grows : Grows start size mb mb'
  max : mb'.reserved.max = mb.reserved.max * 2
  cnt_le : mb'.reserved.cnt ≤ mb.reserved.cnt + 2
  free : ∀ x, mb'.InArray x → mb.InMemory x ∧ ¬ mb.Reserved x
  apart : 2 ≤ start ∨ start + size ≤ pageSize → ∀ x, mb'.InArray x → ¬ (start ≤ x ∧ x < start + size)

theorem grows_of_doubled (hmb : mb.Wf) (h : Relation.ReflTransGen (Doubled start size) mb mb') :
    Grows start size mb mb' := by
  induction h with
  | refl => exact .refl hmb
  | tail _ hstep ih => exact ih.trans hstep.grows

structure Moved (mb : Memblock) (addr : Nat) (t : MemblockType) : Prop where
  wf : t.Wf
  max : t.max = mb.reserved.max * 2
  array : t.array = some addr
  cnt_le : t.cnt ≤ mb.reserved.cnt + 1
  lookup_array : ∀ x, mb.InArray x → lookup t.regions x = none
  lookup_other : ∀ x, ¬ mb.InArray x → lookup t.regions x = lookup mb.reserved.regions x

theorem Moved.inArray_iff {addr n : Nat} {t t' : MemblockType} (hm : Moved mb addr t)
    (hn : pageAlign (t.max * regionEntrySize) = n) (ha : Added attr addr (addr + n) 1 t t') (x : Nat) :
    ({ mb with reserved := t' } : Memblock).InArray x ↔ addr ≤ x ∧ x < addr + n := by
  simp [Memblock.InArray, ha.array, hm.array, ha.max, hn]

theorem Moved.grows {addr n : Nat} {t t' : MemblockType} (hm : Moved mb addr t) (hfree : mb.Free addr n)
    (hapart : pageSize ≤ start → addr + n ≤ start ∨ start + size ≤ addr) (hlimit : mb.currentLimit ≤ physAddrMax)
    (hn : pageAlign (t.max * regionEntrySize) = n) (ha : Added attr addr (addr + n) 1 t t') :
    Grows start size mb { mb with reserved := t' } := by
  have hin := hm.inArray_iff hn ha
  have hlookup : ∀ x, ¬ (addr ≤ x ∧ x < addr + n) → lookup t'.regions x = lookup t.regions x := by
    intro x hx
    rw [ha.lookup, if_neg hx, Option.or_none]
  have hold : ∀ x, mb.Held x → ¬ (addr ≤ x ∧ x < addr + n) := by
    intro x hx hx'
    have := hx.1
    rw [Memblock.Reserved, hfree.lookup x hx'.1 hx'.2] at this
    cases this
  have hother : ∀ x, mb.Held x → lookup t'.regions x = lookup mb.reserved.regions x := fun x hx => by
    rw [hlookup x (hold x hx), hm.lookup_other x hx.2]
  refine ⟨⟨ha.wf, hlimit, fun x hx => ?_⟩, rfl, rfl, rfl, fun x => ⟨fun hx => ?_, fun hx => ?_⟩, hother,
    fun x hx => .inr ?_⟩
  · obtain ⟨hx1, hx2⟩ := (hin x).mp hx
    refine ⟨?_, hfree.memory x hx1 hx2⟩
    simp only [Memblock.Reserved, ha.lookup, if_pos (And.intro hx1 hx2), Option.isSome_or, Option.isSome_some,
      Bool.or_true]
  · obtain ⟨hx1, hx2⟩ := hx
    rw [hin] at hx2
    rw [Memblock.Reserved, hlookup x hx2] at hx1
    have hx3 : ¬ mb.InArray x := by
      intro hx3
      rw [hm.lookup_array x hx3] at hx1
      cases hx1
    rw [hm.lookup_other x hx3] at hx1
    exact ⟨hx1, hx3⟩
  · refine ⟨?_, mt (hin x).mp (hold x hx)⟩
    rw [Memblock.Reserved, hother x hx]
    exact hx.1
  · obtain ⟨hx1, hx2⟩ := (hin x).mp hx
    refine ⟨?_, fun hps => ?_⟩
    · rw [Memblock.Reserved, hfree.lookup x hx1 hx2]
      nofun
    · have := hapart hps
      omega

/-- Freeing the old array needs two entries more at most, which the doubled array has. -/
theorem freeOldArray_spec (double : DoubleArray) (addr : Nat) (hmb : mb.Wf) :
    ∃ t, freeOldArray double mb.reserved.array (pageAlign (mb.reserved.max * regionEntrySize))
        { mb with reserved :=
          ⟨mb.reserved.regions, mb.reserved.max * 2, mb.reserved.totalSize, some addr⟩ } =
        some { mb with reserved := t } ∧ Moved mb addr t := by
  have hmax := hmb.reserved.max_ge
  have hcnt := hmb.reserved.cnt_le
  have hwf : (⟨mb.reserved.regions, mb.reserved.max * 2, mb.reserved.totalSize, some addr⟩ : MemblockType).Wf :=
    ⟨hmb.reserved.sorted, hmb.reserved.bound, by simp only [MemblockType.cnt] at *; omega, by dsimp only; omega⟩
  unfold freeOldArray
  split
  · rename_i harr
    refine ⟨_, rfl, hwf, rfl, rfl, Nat.le_succ _, fun x hx => ?_, fun x _ => rfl⟩
    obtain ⟨a, ha, -⟩ := hx
    rw [harr] at ha
    cases ha
  · rename_i old harr
    generalize hn : pageAlign (mb.reserved.max * regionEntrySize) = n
    have hpos : 0 < n := by
      have := le_pageAlign (mb.reserved.max * regionEntrySize)
      simp only [regionEntrySize] at *
      omega
    have hin : ∀ x, mb.InArray x ↔ old ≤ x ∧ x < old + n := by
      intro x
      simp [Memblock.InArray, harr, hn]
    -- the old array is reserved, so that its end is not capped
    have hle : old + n ≤ physAddrMax := by
      have hlast := (hmb.array (old + n - 1) ((hin _).mpr (by omega))).1
      have := hmb.reserved.lt_of_lookup hlast
      omega
    generalize hmoved : (⟨mb.reserved.regions, mb.reserved.max * 2, mb.reserved.totalSize, some addr⟩ :
      MemblockType) = t at hwf
    have hroom : t.cnt + 2 ≤ t.max := by
      subst hmoved
      simp only [MemblockType.cnt] at *
      omega
    rcases removeRange_of_grow hpos hle (growWhile_room { mb with reserved := t } double .reserved hroom) hwf
      (fun _ => hroom) with ⟨h, -⟩ | ⟨-, t', h1, h2⟩
    · cases h
    · subst hmoved
      refine ⟨t', by rw [h1]; rfl, h2.wf, h2.max, h2.array, h2.cnt_le, fun x hx => ?_, fun x hx => ?_⟩
      · rw [h2.lookup, if_pos ((hin x).mp hx)]
      · rw [h2.lookup, if_neg (mt (hin x).mpr hx)]

/-- `memblock_double_array` on the reserved regions finds no memory, or doubles the array and moves it
to free memory, whatever the nested calls it allows. -/
theorem memblockDoubleArray_spec (n : Nat) (hmb : mb.Wf) (hs : start + size ≤ physAddrMax) :
    memblockDoubleArray (n + 1) .reserved start size mb = some (mb, -1) ∨
    ∃ mb', memblockDoubleArray (n + 1) .reserved start size mb = some (mb', 0) ∧ Doubled start size mb mb' := by
  have hmax := hmb.reserved.max_ge
  have hcnt := hmb.reserved.cnt_le
  unfold memblockDoubleArray
  simp only [Memblock.get_reserved, Memblock.set_reserved, if_true]
  have hnew : mb.reserved.max * regionEntrySize * 2 = mb.reserved.max * 2 * regionEntrySize := by
    simp only [regionEntrySize]
    omega
  rw [hnew]
  generalize hN : pageAlign (mb.reserved.max * 2 * regionEntrySize) = N
  have hpos : 0 < N := by
    have := le_pageAlign (mb.reserved.max * 2 * regionEntrySize)
    simp only [regionEntrySize] at *
    omega
  split
  · exact .inl rfl
  · rename_i haddr
    right
    obtain ⟨hfree, hapart⟩ := findNewArray_spec hmb hs haddr
    have hclear := fun hc => findNewArray_apart hmb hs hpos hc haddr
    generalize findNewArray mb start size N = addr at hfree hapart hclear
    obtain ⟨t, h1, hm⟩ := freeOldArray_spec (memblockDoubleArray n) addr hmb
    rw [h1]
    have hfree' : ∀ x, addr ≤ x → x < addr + N → lookup t.regions x = none := by
      intro x hx1 hx2
      by_cases hx : mb.InArray x
      · exact hm.lookup_array x hx
      · rw [hm.lookup_other x hx]
        exact hfree.lookup x hx1 hx2
    have hroom : t.cnt + 1 ≤ t.max := by
      have h2 := hm.max
      have h3 := hm.cnt_le
      omega
    rcases addRange_of_grow ⟨memblockRsrvKern, numaNoNode⟩ hm.wf
      hpos hfree.le_max hfree' (growWhile_room { mb with reserved := t } (memblockDoubleArray n) .reserved hroom) hm.wf hfree'
      (fun _ => hroom) with ⟨h, -⟩ | ⟨-, t', h2, h3⟩
    · cases h
    have hn : pageAlign (t.max * regionEntrySize) = N := by rw [hm.max, hN]
    have hin := hm.inArray_iff hn h3
    refine ⟨{ mb with reserved := t' }, ?_, hm.grows hfree hapart hmb.limit hn h3, h3.max.trans hm.max, ?_,
      fun x hx => ?_, fun hc x hx => ?_⟩
    · dsimp only
      rw [h2]
      rfl
    · have h4 := hm.cnt_le
      have h5 : t'.cnt ≤ t.cnt + 1 := h3.cnt_le
      dsimp only
      omega
    · obtain ⟨hx1, hx2⟩ := (hin x).mp hx
      refine ⟨hfree.memory x hx1 hx2, ?_⟩
      rw [Memblock.Reserved, hfree.lookup x hx1 hx2]
      nofun
    · have h4 := hclear hc
      have h5 := (hin x).mp hx
      omega

/-- The loop around `memblock_double_array` ends after three rounds at most, with room if it succeeds.  If
one round makes enough room, then nothing has changed when it fails. -/
theorem growWhile_spec (n need : Nat) (hneed : need ≤ mb.reserved.cnt + 2) (hmb : mb.Wf)
    (hs : start + size ≤ physAddrMax) :
    ∃ mb' ret, growWhile (memblockDoubleArray (n + 1)) .reserved need start size 64 mb = some (mb', ret) ∧
      Relation.ReflTransGen (Doubled start size) mb mb' ∧
      (ret = negEnomem ∧ (mb.reserved.cnt + 2 + need ≤ mb.reserved.max * 2 → mb' = mb) ∨
        ret = 0 ∧ mb'.reserved.cnt + need ≤ mb'.reserved.max) := by
  have hstep : ∀ (fuel : Nat) (mb : Memblock), mb.Wf →
      (∃ ret, growWhile (memblockDoubleArray (n + 1)) .reserved need start size (fuel + 1) mb = some (mb, ret) ∧
        (ret = negEnomem ∧ mb.reserved.max < mb.reserved.cnt + need ∨
          ret = 0 ∧ mb.reserved.cnt + need ≤ mb.reserved.max)) ∨
      ∃ mb', growWhile (memblockDoubleArray (n + 1)) .reserved need start size (fuel + 1) mb =
        growWhile (memblockDoubleArray (n + 1)) .reserved need start size fuel mb' ∧ Doubled start size mb mb' ∧
        mb.reserved.max < mb.reserved.cnt + need := by
    intro fuel mb hmb
    by_cases hroom : mb.reserved.cnt + need ≤ mb.reserved.max
    · exact .inl ⟨0, growWhile_room mb _ .reserved hroom, .inr ⟨rfl, hroom⟩⟩
    · rw [growWhile, if_pos (by rw [Memblock.get_reserved]; omega)]
      rcases memblockDoubleArray_spec n hmb hs with h | ⟨mb', h, hd⟩
      · rw [h]
        exact .inl ⟨negEnomem, rfl, .inl ⟨rfl, by omega⟩⟩
      · rw [h]
        exact .inr ⟨mb', rfl, hd, by omega⟩
  have hmax := hmb.reserved.max_ge
  have hcnt := hmb.reserved.cnt_le
  rcases hstep 63 mb hmb with ⟨ret, h1, h2⟩ | ⟨mb₁, h1, hd1, -⟩
  · exact ⟨mb, ret, h1, .refl, h2.imp_left fun h => ⟨h.1, fun _ => rfl⟩⟩
  have hmax1 := hd1.max
  have hcnt1 := hd1.cnt_le
  rcases hstep 62 mb₁ hd1.grows.wf with ⟨ret, h2, h3⟩ | ⟨mb₂, h2, hd2, hmany⟩
  · exact ⟨mb₁, ret, h1.trans h2, .single hd1, h3.imp_left fun h => ⟨h.1, by omega⟩⟩
  have hmax2 := hd2.max
  have hcnt2 := hd2.cnt_le
  rcases hstep 61 mb₂ hd2.grows.wf with ⟨ret, h3, h4⟩ | ⟨mb₃, h3, hd3, -⟩
  · exact ⟨mb₂, ret, h1.trans (h2.trans h3), .head hd1 (.single hd2), h4.imp_left fun h => ⟨h.1, by omega⟩⟩
  have hroom : mb₃.reserved.cnt + need ≤ mb₃.reserved.max := by
    have := hd3.max
    have := hd3.cnt_le
    omega
  exact ⟨mb₃, 0, (h1.trans (h2.trans h3)).trans (growWhile_room mb₃ _ .reserved hroom),
    .head hd1 (.head hd2 (.single hd3)), .inr ⟨rfl, hroom⟩⟩

end QuestOS
