import QuestOS.Memblock.Alloc
import QuestOS.Memblock.Minimal

/-!
# Requests that grow the array of reserved regions

`memblock_add_range` counts the gaps of the range before the array grows and fills them after it.  The
count stays right if neither the old nor the new array meets the range, since then the range looks
the same before and after; `gapsOf` counts the gaps in terms of the covered addresses alone.

The search for the new array is told to stay below the start of the range.  If that start is 0 or 1 it
is taken for one of the two constants that stand for all of memory, and the new array may be placed
in the range.
-/

namespace QuestOS

open Regions

variable {mb mb' mb₁ : Memblock} {base size fin x : Nat} {attr : RegionAttr}

/-! ### Gaps as a property of the covered addresses -/

/-- The number of runs of addresses in `[base, base + n)` that `c` does not cover; `prev` says whether
a run may start at `base`. -/
def gapsOf (c : Nat → Bool) (prev : Bool) (base : Nat) : Nat → Nat
  | 0 => 0
  | n + 1 => (if prev && !c base then 1 else 0) + gapsOf c (c base) (base + 1) n

theorem gapsOf_congr {c c' : Nat → Bool} {n : Nat} (prev : Bool)
    (h : ∀ x, base ≤ x → x < base + n → c x = c' x) : gapsOf c prev base n = gapsOf c' prev base n := by
  induction n generalizing base prev with
  | zero => rfl
  | succ n ih =>
    rw [gapsOf, gapsOf, h base (by omega) (by omega), ih _ fun x h1 h2 => h x (by omega) (by omega)]

theorem gapsOf_covered {c : Nat → Bool} {m : Nat} (n : Nat) (prev : Bool) (hm : 0 < m)
    (h : ∀ x, base ≤ x → x < base + m → c x = true) :
    gapsOf c prev base (m + n) = gapsOf c true (base + m) n := by
  induction m generalizing base prev with
  | zero => omega
  | succ m ih =>
    rw [show m + 1 + n = m + n + 1 by omega, gapsOf, h base (by omega) (by omega)]
    simp only [Bool.not_true, Bool.and_false, Bool.false_eq_true, if_false, Nat.zero_add]
    rcases Nat.eq_zero_or_pos m with rfl | hpos
    · rw [Nat.zero_add]
    · rw [ih true hpos fun x h1 h2 => h x (by omega) (by omega), Nat.add_right_comm base 1 m]
      rfl

theorem gapsOf_uncovered {c : Nat → Bool} {m : Nat} (n : Nat) (prev : Bool) (hm : 0 < m)
    (h : ∀ x, base ≤ x → x < base + m → c x = false) :
    gapsOf c prev base (m + n) = (if prev then 1 else 0) + gapsOf c false (base + m) n := by
  induction m generalizing base prev with
  | zero => omega
  | succ m ih =>
    rw [show m + 1 + n = m + n + 1 by omega, gapsOf, h base (by omega) (by omega)]
    simp only [Bool.not_false, Bool.and_true]
    rcases Nat.eq_zero_or_pos m with rfl | hpos
    · rw [Nat.zero_add]
    · rw [ih false hpos fun x h1 h2 => h x (by omega) (by omega), Nat.add_right_comm base 1 m]
      simp only [Bool.false_eq_true, if_false, Nat.zero_add]
      rfl

theorem gapsOf_prev {c : Nat → Bool} {n : Nat} (h : 0 < n → c base = true) :
    gapsOf c false base n = gapsOf c true base n := by
  cases n with
  | zero => rfl
  | succ n => simp [gapsOf, h]

def covers (l : List MemblockRegion) (x : Nat) : Bool := (lookup l x).isSome

theorem gapsOf_free {l : List MemblockRegion} (h : ∀ x, base ≤ x → x < fin → covers l x = false) :
    gapsOf (covers l) true base (fin - base) = if base < fin then 1 else 0 := by
  split
  · have := gapsOf_uncovered (c := covers l) (m := fin - base) 0 true (by omega)
      fun x h1 h2 => h x h1 (by omega)
    rw [Nat.add_zero] at this
    rw [this]
    rfl
  · rw [show fin - base = 0 by omega]
    rfl

theorem gapsIn_eq_gapsOf {l : List MemblockRegion} {lo : Nat} (hl : SortedFrom lo l) (hb : base ≤ fin) :
    gapsIn fin base l = gapsOf (covers l) true base (fin - base) := by
  induction l generalizing base lo with
  | nil => exact (gapsOf_free fun _ _ _ => rfl).symm
  | cons rgn rest ih =>
    obtain ⟨-, hsize, hrest⟩ := hl
    have hfin : rgn.fin = rgn.base + rgn.size := rfl
    have hin : ∀ x, rgn.base ≤ x → x < rgn.fin → covers (rgn :: rest) x = true := by
      intro x h1 h2
      rw [covers, lookup_cons, if_pos ⟨h1, h2⟩]
      rfl
    have hbelow : ∀ x, x < rgn.base → covers (rgn :: rest) x = false := by
      intro x h1
      rw [covers, lookup_cons, if_neg (by omega), hrest.lookup_lt (by omega)]
      rfl
    have habove : ∀ x, rgn.fin ≤ x → covers (rgn :: rest) x = covers rest x := by
      intro x h1
      rw [covers, lookup_cons, if_neg (by omega), covers]
    rw [gapsIn]
    split
    · exact (gapsOf_free fun x _ h2 => hbelow x (by omega)).symm
    split
    · rw [ih hrest hb]
      exact gapsOf_congr true fun x h1 _ => (habove x (by omega)).symm
    -- the region covers the part of the range from `max base rgn.base` to `m`
    generalize hm : min rgn.fin fin = m
    have htail : gapsIn fin m rest = gapsOf (covers (rgn :: rest)) true m (fin - m) := by
      rw [ih hrest (by omega)]
      refine gapsOf_congr true fun x h1 h2 => (habove x ?_).symm
      omega
    rw [htail]
    split
    · rename_i h3
      rw [show fin - base = (rgn.base - base) + (fin - rgn.base) by omega,
        gapsOf_uncovered _ true (by omega) fun x _ h2 => hbelow x (by omega),
        show base + (rgn.base - base) = rgn.base by omega, gapsOf_prev fun _ => hin _ (by omega) (by omega),
        show fin - rgn.base = (m - rgn.base) + (fin - m) by omega,
        gapsOf_covered _ true (by omega) fun x h1 h2 => hin x h1 (by omega),
        show rgn.base + (m - rgn.base) = m by omega]
      rfl
    · rename_i h3
      rw [Nat.zero_add]
      rcases Nat.eq_or_lt_of_le hb with rfl | hlt
      · rw [show m = base by omega]
      · rw [show fin - base = (m - base) + (fin - m) by omega,
          gapsOf_covered _ true (by omega) fun x h1 h2 => hin x (by omega) (by omega),
          show base + (m - base) = m by omega]

theorem gapsIn_congr {l l' : List MemblockRegion} {lo lo' : Nat} (hl : SortedFrom lo l) (hl' : SortedFrom lo' l')
    (hb : base ≤ fin) (h : ∀ x, base ≤ x → x < fin → lookup l x = lookup l' x) :
    gapsIn fin base l = gapsIn fin base l' := by
  rw [gapsIn_eq_gapsOf hl hb, gapsIn_eq_gapsOf hl' hb]
  refine gapsOf_congr true fun x h1 h2 => ?_
  rw [covers, covers, h x h1 (by omega)]

theorem gapsIn_append_singleton_le (fin base : Nat) (l : List MemblockRegion) (r : MemblockRegion) :
    gapsIn fin base (l ++ [r]) ≤ gapsIn fin base l + 1 := by
  induction l generalizing base with
  | nil =>
    simp only [List.nil_append, gapsIn]
    split_ifs <;> omega
  | cons rgn rest ih =>
    have h1 := ih base
    have h2 := ih (min rgn.fin fin)
    simp only [List.cons_append, gapsIn]
    split_ifs <;> omega

/-! ### Any number of calls -/

def Grown : Memblock → Memblock → Prop :=
  Relation.ReflTransGen fun mb mb' => ∃ start size, Doubled start size mb mb'

theorem grown_of_doubled {start : Nat} (h : Relation.ReflTransGen (Doubled start size) mb mb') : Grown mb mb' :=
  h.lift id fun _ _ hd => ⟨start, size, hd⟩

theorem Grown.grows (h : Grown mb mb') (hmb : mb.Wf) : Grows 0 0 mb mb' := by
  induction h with
  | refl => exact .refl hmb
  | tail _ hstep ih =>
    obtain ⟨start, size, hd⟩ := hstep
    exact ih.trans hd.grows.forget

theorem Grown.max_le (h : Grown mb mb') : mb.reserved.max ≤ mb'.reserved.max := by
  induction h with
  | refl => exact Nat.le_refl _
  | tail _ hstep ih =>
    obtain ⟨start, size, hd⟩ := hstep
    have := hd.max
    omega

/-- The array lies in memory that was free when it was moved; that may be where the array was before,
if it was moved more than once. -/
theorem Grown.free (h : Grown mb mb') (hmb : mb.Wf) (hmax : mb'.reserved.max ≠ mb.reserved.max)
    (hx : mb'.InArray x) :
    mb.InMemory x ∧ (mb.Reserved x → mb.InArray x ∧ mb'.reserved.max ≠ mb.reserved.max * 2) := by
  rcases Relation.ReflTransGen.cases_tail h with rfl | ⟨mb₁, h₁, start, size, hd⟩
  · exact absurd rfl hmax
  have h₁ : Grown mb mb₁ := h₁
  have hg := h₁.grows hmb
  obtain ⟨hmem, hres⟩ := hd.free x hx
  rw [Memblock.InMemory, hg.memory] at hmem
  refine ⟨hmem, fun hx' => ?_⟩
  -- it is not reserved any more, so it was reserved for the array
  have harr : mb.InArray x := by
    by_contra hna
    exact hres ((hg.held x).mpr ⟨hx', hna⟩).1
  refine ⟨harr, fun heq => ?_⟩
  rcases Relation.ReflTransGen.cases_tail h₁ with rfl | ⟨mb₂, h₂, start₂, size₂, hd₂⟩
  · exact hres hx'
  · have h₂ : Grown mb mb₂ := h₂
    have h1 := h₂.max_le
    have h2 := hd₂.max
    have h3 := hd.max
    have h4 := hmb.reserved.max_ge
    omega

theorem Grows.lookup_eq {start : Nat} (hg : Grows start size mb mb') (h : ¬ mb.InArray x) (h' : ¬ mb'.InArray x) :
    Regions.lookup mb'.reserved.regions x = Regions.lookup mb.reserved.regions x := by
  by_cases hres : mb.Reserved x
  · exact hg.lookup x ⟨hres, h⟩
  · have hres' : ¬ mb'.Reserved x := fun hx => hres ((hg.held x).mp ⟨hx, h'⟩).1
    rw [Option.not_isSome_iff_eq_none.mp hres, Option.not_isSome_iff_eq_none.mp hres']

/-- A range that the searches stay away from, and that does not meet the array, stays away from it. -/
theorem not_inArray_of_doubled (h : Relation.ReflTransGen (Doubled base size) mb mb')
    (hclear : 2 ≤ base ∨ base + size ≤ pageSize) (havoid : ∀ x, base ≤ x → x < base + size → ¬ mb.InArray x) :
    ∀ x, base ≤ x → x < base + size → ¬ mb'.InArray x := by
  induction h with
  | refl => exact havoid
  | tail _ hstep _ => exact fun x h1 h2 hx => hstep.apart hclear x hx ⟨h1, h2⟩

/-! ### Requests -/

/-- The outcome of a request that has grown the array, where `after` is what the same request makes of
an array with spare room. -/
structure SafelyGrown (mb mb' : Memblock) (after : Nat → Option RegionAttr) : Prop where
  wf : mb'.Wf
  free : ∀ x, mb'.InArray x →
    mb.InMemory x ∧ (mb.Reserved x → mb.InArray x ∧ mb'.reserved.max ≠ mb.reserved.max * 2)
  reserved : ∀ x, mb'.InArray x → mb'.Reserved x
  old : ∀ x, mb.InArray x → ¬ mb'.InArray x → ¬ mb'.Reserved x
  other : ∀ x, ¬ mb.InArray x → ¬ mb'.InArray x → lookup mb'.reserved.regions x = after x

theorem Grown.safely (hg : Grown mb mb₁) (hmb : mb.Wf) (hmax : mb₁.reserved.max ≠ mb.reserved.max)
    {t : MemblockType} (ht : t.Wf) (htmax : t.max = mb₁.reserved.max) (htarr : t.array = mb₁.reserved.array)
    {f : Nat → Option RegionAttr → Option RegionAttr}
    (hf : ∀ x, lookup t.regions x = f x (lookup mb₁.reserved.regions x))
    (hkeep : ∀ x, mb₁.InArray x → (lookup t.regions x).isSome) (hold : ∀ x, mb.InArray x → f x none = none) :
    SafelyGrown mb { mb₁ with reserved := t } fun x => f x (lookup mb.reserved.regions x) := by
  have hin := inArray_congr htarr htmax
  have hgr := hg.grows hmb
  have hwf := hgr.wf
  refine ⟨⟨ht, hwf.limit, fun x hx => ?_⟩, fun x hx => ?_, fun x hx => ?_, fun x hx hx' hres => ?_,
    fun x hx hx' => ?_⟩
  · have hx := (hin x).mp hx
    exact ⟨hkeep x hx, (hwf.array x hx).2⟩
  · have := hg.free hmb hmax ((hin x).mp hx)
    rwa [← htmax] at this
  · exact hkeep x ((hin x).mp hx)
  · -- neither held nor part of the array
    rw [hin] at hx'
    have hnone : lookup mb₁.reserved.regions x = none := by
      rw [← Option.not_isSome_iff_eq_none]
      exact fun hres => ((hgr.held x).mp ⟨hres, hx'⟩).2 hx
    rw [Memblock.Reserved, hf, hnone, hold x hx] at hres
    cases hres
  · rw [hin] at hx'
    rw [hf, hgr.lookup_eq hx hx']

def cappedEnd (base size : Nat) : Nat := base + memblockCapSize base size

def ReserveSafe (base size : Nat) (nid : Int) (flags : Nat) (mb : Memblock) : Prop :=
  ∃ mb' ret, memblockReserve base size nid flags mb = some (mb', ret) ∧
    (ret = 0 → mb'.reserved.max ≠ mb.reserved.max →
      SafelyGrown mb mb' (addLookup mb.reserved base (cappedEnd base size) ⟨flags, nid⟩) ∧
      ∀ x, mb'.InArray x → ¬ (base ≤ x ∧ x < cappedEnd base size))

def FreeSafe (base size : Nat) (mb : Memblock) : Prop :=
  ∃ mb' ret, memblockPhysFree base size mb = some (mb', ret) ∧
    (ret = 0 → mb'.reserved.max ≠ mb.reserved.max →
      SafelyGrown mb mb' (removeLookup mb.reserved base (cappedEnd base size)))

def AllocSafe (size align start fin : Nat) (nid : Int) (exactNid : Bool) (mb : Memblock) : Prop :=
  ∃ mb' found, memblockAllocRangeNid size align start fin nid exactNid mb = some (mb', found) ∧
    (found ≠ 0 → mb'.reserved.max ≠ mb.reserved.max →
      ∃ n, (n = nid ∨ n = numaNoNode) ∧
        SafelyGrown mb mb' (addLookup mb.reserved found (found + size) ⟨memblockRsrvKern, n⟩) ∧
        ∀ x, mb'.InArray x → ¬ (found ≤ x ∧ x < found + size))

structure Applied (mb mb' : Memblock) (f : Nat → Option RegionAttr → Option RegionAttr) (t : MemblockType)
    (mb₁ : Memblock) : Prop where
  grown : Grown mb mb₁
  eq : mb' = { mb₁ with reserved := t }
  wf : t.Wf
  max : t.max = mb₁.reserved.max
  array : t.array = mb₁.reserved.array
  lookup : ∀ x, lookup t.regions x = f x (lookup mb₁.reserved.regions x)

def addTo (base fin : Nat) (attr : RegionAttr) (x : Nat) (o : Option RegionAttr) : Option RegionAttr :=
  o.or (if base ≤ x ∧ x < fin then some attr else none)

def removeFrom (base fin : Nat) (x : Nat) (o : Option RegionAttr) : Option RegionAttr :=
  if base ≤ x ∧ x < fin then none else o

/-- A reservation away from the arrays fails for want of memory, or does what it should. -/
theorem memblockReserve_applied (base size : Nat) (nid : Int) (flags : Nat) (hmb : mb.Wf)
    (hclear : 2 ≤ base ∨ cappedEnd base size ≤ pageSize)
    (havoid : ∀ x, base ≤ x → x < cappedEnd base size → ¬ mb.InArray x) :
    ∃ mb' ret, memblockReserve base size nid flags mb = some (mb', ret) ∧
      (ret = negEnomem ∧ (mb.reserved.cnt + 2 + gapsIn (cappedEnd base size) base mb.reserved.regions ≤
          mb.reserved.max * 2 → mb' = mb) ∨
        ret = 0 ∧ (∀ x, base ≤ x → x < cappedEnd base size → ¬ mb'.InArray x) ∧
          ∃ t mb₁, Applied mb mb' (addTo base (cappedEnd base size) ⟨flags, nid⟩) t mb₁) := by
  unfold memblockReserve memblockAddRange
  rw [addRange_cap]
  simp only [cappedEnd] at *
  by_cases hsize : memblockCapSize base size = 0
  · rw [hsize, addRange_zero]
    refine ⟨mb, 0, rfl, .inr ⟨rfl, by omega, mb.reserved, mb, .refl, rfl, hmb.reserved, rfl, rfl, fun x => ?_⟩⟩
    rw [addTo, if_neg (by omega), Option.or_none]
  have hcap := cap_le base size hsize
  generalize memblockCapSize base size = n at *
  have hpos : 0 < n := Nat.pos_of_ne_zero hsize
  by_cases hempty : mb.reserved.regions = []
  · rw [addRange_nil _ .reserved _ hpos hcap hempty]
    refine ⟨_, 0, rfl, .inr ⟨rfl, fun x h1 h2 => ?_, _, mb, .refl, rfl, ⟨⟨Nat.zero_le _, hpos, trivial⟩, hcap, ?_, hmb.reserved.max_ge⟩,
      rfl, rfl, fun x => ?_⟩⟩
    · exact havoid x h1 h2
    · have := hmb.reserved.max_ge
      simp only [MemblockType.cnt, List.length_singleton, Memblock.get_reserved]
      omega
    · rw [hempty]
      rfl
  rw [addRange_eq _ .reserved _ hpos hcap hmb.reserved.sorted hempty]
  have hgaps := gapsIn_le (base + n) base mb.reserved.regions
  by_cases hgap : gapsIn (base + n) base (mb.get .reserved).regions = 0
  · rw [if_pos hgap]
    rw [Memblock.get_reserved] at hgap
    obtain ⟨l, p, -, -, -, hfill⟩ := addLoop_insert mb.reserved.max ⟨flags, nid⟩ 0 mb.reserved.cnt
      ⟨base, 0, none, 0, 0⟩ hmb.reserved.sorted (.inl (Nat.zero_le _)) (Nat.le_add_right base n)
      (by have := hmb.reserved.cnt_le; dsimp only; omega)
    refine ⟨mb, 0, rfl, .inr ⟨rfl, havoid, mb.reserved, mb, .refl, rfl, hmb.reserved, rfl, rfl, fun x => ?_⟩⟩
    rw [addTo, ← hfill.lookup, hfill.eq_of_zero hgap]
  obtain ⟨mb₁, ret, h1, hd, h2⟩ := growWhile_spec 1 (gapsIn (base + n) base mb.reserved.regions)
    (by rw [MemblockType.cnt]; omega) hmb hcap
  rw [if_neg hgap, show memblockDoubleArray doubleDepth = memblockDoubleArray (1 + 1) from rfl,
    Memblock.get_reserved, h1]
  have hg := grows_of_doubled hmb hd
  have havoid₁ := not_inArray_of_doubled hd hclear havoid
  rcases h2 with ⟨rfl, hsame⟩ | ⟨rfl, hroom⟩
  · exact ⟨mb₁, negEnomem, rfl, .inl ⟨rfl, hsame⟩⟩
  -- the gaps are the ones that were counted
  have hsame := gapsIn_congr hmb.reserved.sorted hg.wf.reserved.sorted (Nat.le_add_right base n)
    fun x h1 h2 => (hg.lookup_eq (havoid x h1 h2) (havoid₁ x h1 h2)).symm
  obtain ⟨t, h3, h4⟩ := addInsert_spec ⟨flags, nid⟩ hg.wf.reserved (Nat.le_add_right base n) hcap (hsame ▸ hroom)
  refine ⟨{ mb₁ with reserved := t }, 0, by simp [h3], .inr ⟨rfl, fun x h1 h2 => ?_, t, mb₁, grown_of_doubled hd,
    rfl, h4.wf, h4.max, h4.array, h4.lookup⟩⟩
  rw [inArray_congr h4.array h4.max]
  exact havoid₁ x h1 h2

theorem Applied.safely {f : Nat → Option RegionAttr → Option RegionAttr} {t : MemblockType}
    (h : Applied mb mb' f t mb₁) (hmb : mb.Wf) (hmax : mb'.reserved.max ≠ mb.reserved.max)
    (hkeep : ∀ x a, mb'.InArray x → f x (some a) ≠ none) (hold : ∀ x, mb.InArray x → f x none = none) :
    SafelyGrown mb mb' fun x => f x (Regions.lookup mb.reserved.regions x) := by
  obtain ⟨hg, rfl, ht, htmax, htarr, hf⟩ := h
  refine hg.safely hmb (by rwa [← htmax]) ht htmax htarr hf (fun x hx => ?_) hold
  obtain ⟨a, ha⟩ := Option.isSome_iff_exists.mp ((hg.grows hmb).wf.array x hx).1
  rw [hf, ha, ← Option.ne_none_iff_isSome]
  exact hkeep x a ((inArray_congr htarr htmax x).mpr hx)

theorem addTo_some_ne_none (base fin : Nat) (attr : RegionAttr) (x : Nat) (a : RegionAttr) :
    addTo base fin attr x (some a) ≠ none := nofun

theorem addTo_none (h : ¬ (base ≤ x ∧ x < fin)) (attr : RegionAttr) : addTo base fin attr x none = none := by
  rw [addTo, if_neg h]
  rfl

theorem reserveSafe (nid : Int) (flags : Nat) (hmb : mb.Wf)
    (hclear : 2 ≤ base ∨ cappedEnd base size ≤ pageSize)
    (havoid : ∀ x, base ≤ x → x < cappedEnd base size → ¬ mb.InArray x) :
    ReserveSafe base size nid flags mb := by
  obtain ⟨mb', ret, h1, h2⟩ := memblockReserve_applied base size nid flags hmb hclear havoid
  refine ⟨mb', ret, h1, fun hret hmax => ?_⟩
  rcases h2 with ⟨rfl, -⟩ | ⟨-, hapart, t, mb₁, ha⟩
  · cases hret
  · refine ⟨ha.safely hmb hmax (fun x a _ => addTo_some_ne_none _ _ _ x a) fun x hx => ?_,
      fun x hx hr => hapart x hr.1 hr.2 hx⟩
    exact addTo_none (fun hr => havoid x hr.1 hr.2 hx) _

theorem freeSafe (hmb : mb.Wf) (hclear : 2 ≤ base ∨ cappedEnd base size ≤ pageSize) :
    FreeSafe base size mb := by
  unfold FreeSafe memblockPhysFree memblockRemoveRange
  by_cases hsize : memblockCapSize base size = 0
  · refine ⟨mb, 0, ?_, fun _ hne => absurd rfl hne⟩
    simp [removeRange, isolateRange, hsize, removeLoop]
  rw [removeRange_cap]
  simp only [cappedEnd] at *
  have hcap := cap_le base size hsize
  generalize memblockCapSize base size = n at *
  obtain ⟨mb₁, ret, h1, hd, h2⟩ := growWhile_spec 1 2 (by omega) hmb hcap
  have hg := grows_of_doubled hmb hd
  have hroom : 0 ≤ ret → mb₁.reserved.cnt + 2 ≤ mb₁.reserved.max := by
    intro hret
    rcases h2 with ⟨rfl, -⟩ | h2
    · exact absurd hret (by decide)
    · exact h2.2
  rcases removeRange_of_grow (Nat.pos_of_ne_zero hsize) hcap h1 hg.wf.reserved hroom with
    ⟨hret, h3⟩ | ⟨-, t, h3, h4⟩
  · exact ⟨mb₁, ret, h3, fun h0 => absurd h0 (Int.ne_of_lt hret)⟩
  refine ⟨_, 0, h3, fun _ hmax => ?_⟩
  have ha : Applied mb { mb₁ with reserved := t } (removeFrom base (base + n)) t mb₁ :=
    ⟨grown_of_doubled hd, rfl, h4.wf, h4.max, h4.array, h4.lookup⟩
  refine ha.safely hmb hmax (fun x a hx => ?_) fun x _ => by simp [removeFrom]
  -- the array was moved, and not into the range
  rcases Relation.ReflTransGen.cases_tail hd with rfl | ⟨mb₂, -, hlast⟩
  · exact absurd h4.max hmax
  rw [removeFrom, if_neg (hlast.apart hclear x ((inArray_congr h4.array h4.max x).mp hx))]
  intro hnone
  cases hnone

/-! ### The claims about the three requests -/

def initMemblockReservedRegions : Nat := 128

structure Memblock.Sound (mb : Memblock) : Prop extends mb.Wf where
  init_le : initMemblockReservedRegions ≤ mb.reserved.max

/-- One attempt of `memblock_alloc_range_nid` finds nothing and changes nothing, or reserves free memory. -/
theorem tryReserve_applied {align start : Nat} (size : Nat) (nid : Int) (hmb : mb.Sound) (ha : align ≤ 2 ^ 64)
    (hstart : start ≤ physAddrMax) (hfin : fin ≤ physAddrMax) :
    (memblockFindInRangeNode mb size align start fin nid 0 = 0 ∨
      ∃ ret, ret ≠ 0 ∧ memblockReserve (memblockFindInRangeNode mb size align start fin nid 0) size nid
        memblockRsrvKern mb = some (mb, ret)) ∨
    ∃ c mb' t mb₁, memblockFindInRangeNode mb size align start fin nid 0 = c ∧ c ≠ 0 ∧
      memblockReserve c size nid memblockRsrvKern mb = some (mb', 0) ∧
      (∀ x, c ≤ x → x < c + size → ¬ mb.InArray x ∧ ¬ mb'.InArray x) ∧
      Applied mb mb' (addTo c (c + size) ⟨memblockRsrvKern, nid⟩) t mb₁ := by
  generalize hc : memblockFindInRangeNode mb size align start fin nid 0 = c
  by_cases h0 : c = 0
  · exact .inl (.inl h0)
  obtain ⟨hfree, hge, -⟩ := memblockFindInRangeNode_free hmb.toWf hfin hstart ha (hc ▸ h0)
  rw [hc] at hfree hge
  have hend : cappedEnd c size = c + size := by rw [cappedEnd, memblockCapSize_eq hfree.le_max]
  have havoid : ∀ x, c ≤ x → x < c + size → ¬ mb.InArray x :=
    fun x h1 h2 hx => hfree.not_reserved h1 h2 (hmb.array x hx).1
  obtain ⟨mb', ret, h1, h2⟩ := memblockReserve_applied c size nid memblockRsrvKern hmb.toWf
    (.inl (by simp only [pageSize] at hge; omega)) (hend.symm ▸ havoid)
  rw [hend] at h2
  rcases h2 with ⟨rfl, hsame⟩ | ⟨rfl, hapart, t, mb₁, ha⟩
  · left; right
    have hgap : gapsIn (c + size) c mb.reserved.regions ≤ 1 := by
      rcases Nat.eq_zero_or_pos size with rfl | hpos
      · rw [Nat.add_zero, gapsIn_eq_gapsOf hmb.reserved.sorted (Nat.le_refl c), Nat.sub_self]
        exact Nat.zero_le _
      · exact Nat.le_of_eq (gapsIn_free hmb.reserved.sorted (by omega) hfree.lookup)
    have h3 := hmb.reserved.cnt_le
    have h4 := hmb.init_le
    rw [hsame (by simp only [initMemblockReservedRegions] at h4; omega)] at h1
    exact ⟨negEnomem, by decide, h1⟩
  · exact .inr ⟨c, mb', t, mb₁, rfl, h0, h1, fun x h1 h2 => ⟨havoid x h1 h2, hapart x h1 h2⟩, ha⟩

theorem allocSafe (size : Nat) {align start : Nat} (nid : Int) (exactNid : Bool) (hmb : mb.Sound)
    (ha : align ≤ 2 ^ 64) (hstart : start ≤ physAddrMax) (hfin : fin ≤ physAddrMax) :
    AllocSafe size align start fin nid exactNid mb := by
  unfold AllocSafe memblockAllocRangeNid
  generalize hal : (if align = 0 then smpCacheBytes else align) = al
  have hal64 : al ≤ 2 ^ 64 := by
    rw [← hal]
    split
    · decide
    · exact ha
  dsimp only
  have hsafe : ∀ (n : Int) (c : Nat) (mb' mb₁ : Memblock) (t : MemblockType),
      (∀ x, c ≤ x → x < c + size → ¬ mb.InArray x ∧ ¬ mb'.InArray x) →
      Applied mb mb' (addTo c (c + size) ⟨memblockRsrvKern, n⟩) t mb₁ →
      mb'.reserved.max ≠ mb.reserved.max →
      SafelyGrown mb mb' (addLookup mb.reserved c (c + size) ⟨memblockRsrvKern, n⟩) ∧
        ∀ x, mb'.InArray x → ¬ (c ≤ x ∧ x < c + size) := by
    intro n c mb' mb₁ t hap happ hmax
    refine ⟨happ.safely hmb.toWf hmax (fun x a _ => addTo_some_ne_none _ _ _ x a) fun x hx => ?_,
      fun x hx hr => (hap x hr.1 hr.2).2 hx⟩
    exact addTo_none (fun hr => (hap x hr.1 hr.2).1 hx) _
  have hfirst := tryReserve_applied size nid hmb hal64 hstart hfin
  have hsecond := tryReserve_applied size numaNoNode hmb hal64 hstart hfin
  rcases hfirst with hfail | ⟨c, mb', t, mb₁, hc, h0, hres, hap, happ⟩
  · -- the first attempt has changed nothing
    have hone : (if memblockFindInRangeNode mb size al start fin nid 0 = 0 then some (mb, 0)
        else (memblockReserve (memblockFindInRangeNode mb size al start fin nid 0) size nid memblockRsrvKern
          mb).map fun q => (q.1, if q.2 = 0 then memblockFindInRangeNode mb size al start fin nid 0 else 0)) =
        some (mb, 0) := by
      rcases hfail with h0 | ⟨ret, hret, hres⟩
      · rw [if_pos h0]
      · split
        · rfl
        · rw [hres, Option.map_some, if_neg hret]
    rw [hone]
    dsimp only
    rw [if_neg (by simp)]
    split
    · rcases hsecond with hfail | ⟨c, mb', t, mb₁, hc, h0, hres, hap, happ⟩
      · refine ⟨mb, 0, ?_, fun h => absurd rfl h⟩
        rcases hfail with h0 | ⟨ret, hret, hres⟩
        · rw [if_pos h0]
        · split
          · rfl
          · rw [hres, Option.map_some, if_neg hret]
      · refine ⟨mb', c, by rw [hc, if_neg h0, hres]; rfl, fun _ hmax => ⟨numaNoNode, .inr rfl, ?_⟩⟩
        exact hsafe numaNoNode c mb' mb₁ t hap happ hmax
    · exact ⟨mb, 0, rfl, fun h => absurd rfl h⟩
  · rw [hc, if_neg h0, hres]
    refine ⟨mb', c, by simp [h0], fun _ hmax => ⟨nid, .inl rfl, ?_⟩⟩
    exact hsafe nid c mb' mb₁ t hap happ hmax

/-! ### A range that starts at 0 or 1 -/

def fullBank : Memblock where
  bottomUp := false
  currentLimit := 0x3000
  memory := ⟨[⟨0x1000, 0x2000, ⟨0, 0⟩⟩], 128, 0x2000, none⟩
  reserved := ⟨(List.range 128).map fun i => ⟨i, 1, ⟨i % 2, 0⟩⟩, 128, 128, none⟩

def grownBank : Memblock where
  bottomUp := false
  currentLimit := 0x3000
  memory := ⟨[⟨0x1000, 0x2000, ⟨0, 0⟩⟩], 128, 0x2000, none⟩
  reserved := ⟨((List.range 128).map fun i => ⟨i, 1, ⟨i % 2, 0⟩⟩) ++ [⟨0x1000, 0x2000, ⟨memblockRsrvKern, numaNoNode⟩⟩],
    256, 128 + 0x2000, some 0x1000⟩

theorem fullBank_sound : fullBank.Sound where
  reserved := ⟨by decide +kernel, by decide +kernel, by decide +kernel, by decide⟩
  limit := by decide
  array := by
    rintro x ⟨a, ha, -⟩
    cases ha
  init_le := by decide

theorem grownBank_wf : grownBank.reserved.Wf :=
  ⟨by decide +kernel, by decide +kernel, by decide +kernel, by decide⟩

theorem grownBank_inArray : grownBank.InArray 0x1000 := ⟨0x1000, rfl, by decide, by decide⟩

/-- There is no room above the range, and the search below it finds the memory that is in it. -/
theorem findNewArray_fullBank (hb : base ≤ 1) (hs : 0x1000 < base + size) (hle : base + size ≤ physAddrMax) :
    findNewArray fullBank base size 0x2000 = 0x1000 := by
  have hfirst : memblockFindInRange fullBank (base + size) fullBank.currentLimit 0x2000 pageSize = 0 := by
    by_contra hne
    obtain ⟨hfree, hge, -⟩ := memblockFindInRangeNode_free fullBank_sound.toWf (by decide) hle (by decide) hne
    generalize memblockFindInRangeNode fullBank 0x2000 pageSize (base + size) fullBank.currentLimit numaNoNode 0 = c
      at hfree hge
    have hmem := hfree.memory (c + 0x1fff) (by omega) (by omega)
    obtain ⟨r, hr, -, hlt⟩ := lookup_isSome_iff.mp hmem
    obtain rfl : r = ⟨0x1000, 0x2000, ⟨0, 0⟩⟩ := by simpa [fullBank] using hr
    simp only [Region.fin_mk] at hlt
    omega
  rw [findNewArray, hfirst, if_pos ⟨rfl, by omega⟩]
  rcases Nat.le_one_iff_eq_zero_or_eq_one.mp hb with rfl | rfl <;> decide +kernel

theorem growWhile_fullBank {need : Nat} (hneed : 0 < need) (hneed2 : need ≤ 2) (hb : base ≤ 1)
    (hs : 0x1000 < base + size) (hle : base + size ≤ physAddrMax) :
    growWhile (memblockDoubleArray 2) .reserved need base size 64 fullBank = some (grownBank, 0) := by
  have hdouble : memblockDoubleArray 2 .reserved base size fullBank = some (grownBank, 0) := by
    have hfind := findNewArray_fullBank hb hs hle
    have halloc : pageAlign ((fullBank.get .reserved).max * regionEntrySize * 2) = 0x2000 := by decide
    rw [memblockDoubleArray]
    simp only [halloc, if_true, hfind]
    decide +kernel
  have hcnt : fullBank.reserved.cnt = 128 := by decide +kernel
  have hcnt' : grownBank.reserved.cnt = 129 := by decide +kernel
  have hmax : fullBank.reserved.max = 128 := rfl
  have hmax' : grownBank.reserved.max = 256 := rfl
  rw [growWhile, if_pos (by rw [Memblock.get_reserved]; omega), hdouble]
  dsimp only
  rw [if_neg (by decide), growWhile_room grownBank _ .reserved (by rw [Memblock.get_reserved]; omega)]

theorem gapsIn_fullBank (hb : base ≤ 1) (hs : 0x1000 < fin) : gapsIn fin base fullBank.reserved.regions = 1 := by
  have hcov : ∀ x, x < 128 → covers fullBank.reserved.regions x = true := by decide +kernel
  have hfree : ∀ x, 128 ≤ x → covers fullBank.reserved.regions x = false := by
    intro x hx
    rw [covers, Option.isSome_eq_false_iff, Option.isNone_iff_eq_none, lookup_eq_none_iff]
    intro r hr
    obtain ⟨i, hi, rfl⟩ := List.mem_map.mp hr
    have := List.mem_range.mp hi
    simp only [Region.fin_mk]
    omega
  rw [gapsIn_eq_gapsOf fullBank_sound.reserved.sorted (by omega),
    show fin - base = (128 - base) + ((fin - 128) + 0) by omega,
    gapsOf_covered _ true (by omega) fun x h1 h2 => hcov x (by omega),
    gapsOf_uncovered _ true (by omega) fun x h1 h2 => hfree x (by omega)]
  rfl

theorem memblockReserve_fullBank (base size : Nat) (nid : Int) (flags : Nat) (hb : base ≤ 1) (hs : 0x1000 < cappedEnd base size) :
    ∃ t, memblockReserve base size nid flags fullBank = some ({ grownBank with reserved := t }, 0) ∧
      t.max = grownBank.reserved.max ∧ t.array = grownBank.reserved.array := by
  unfold memblockReserve memblockAddRange
  rw [addRange_cap]
  have hsize : memblockCapSize base size ≠ 0 := by
    intro h0
    rw [cappedEnd, h0] at hs
    omega
  have hcap := cap_le base size hsize
  simp only [cappedEnd] at hs
  generalize memblockCapSize base size = n at *
  have hgap := gapsIn_fullBank hb hs
  have hgap' := gapsIn_append_singleton_le (base + n) base fullBank.reserved.regions
    ⟨0x1000, 0x2000, ⟨memblockRsrvKern, numaNoNode⟩⟩
  have hcnt' : grownBank.reserved.cnt = 129 := by decide +kernel
  have hmax' : grownBank.reserved.max = 256 := rfl
  rw [addRange_eq _ .reserved _ (Nat.pos_of_ne_zero hsize) hcap fullBank_sound.reserved.sorted (by decide +kernel),
    Memblock.get_reserved, hgap, if_neg Nat.one_ne_zero,
    show memblockDoubleArray doubleDepth = memblockDoubleArray 2 from rfl,
    growWhile_fullBank Nat.one_pos (by omega) hb hs hcap]
  obtain ⟨t, h1, h2⟩ := addInsert_spec (t := grownBank.reserved) ⟨flags, nid⟩ grownBank_wf
    (Nat.le_add_right base n) hcap (by
      have : grownBank.reserved.regions = fullBank.reserved.regions ++
        [⟨0x1000, 0x2000, ⟨memblockRsrvKern, numaNoNode⟩⟩] := rfl
      rw [this]
      omega)
  exact ⟨t, by simp [h1], h2.max, h2.array⟩

theorem memblockPhysFree_fullBank (hb : base ≤ 1) (hs : 0x1000 < cappedEnd base size) :
    ∃ t, memblockPhysFree base size fullBank = some ({ grownBank with reserved := t }, 0) ∧
      t.max = grownBank.reserved.max ∧ t.array = grownBank.reserved.array ∧
      lookup t.regions 0x1000 = none := by
  unfold memblockPhysFree memblockRemoveRange
  rw [removeRange_cap]
  have hsize : memblockCapSize base size ≠ 0 := by
    intro h0
    rw [cappedEnd, h0] at hs
    omega
  have hcap := cap_le base size hsize
  simp only [cappedEnd] at hs
  generalize memblockCapSize base size = n at *
  have hcnt' : grownBank.reserved.cnt = 129 := by decide +kernel
  have hmax' : grownBank.reserved.max = 256 := rfl
  rcases removeRange_of_grow (Nat.pos_of_ne_zero hsize) hcap
    (growWhile_fullBank Nat.two_pos (Nat.le_refl 2) hb hs hcap) grownBank_wf (fun _ => by omega) with
    ⟨h, -⟩ | ⟨-, t, h1, h2⟩
  · cases h
  · refine ⟨t, h1, h2.max, h2.array, ?_⟩
    rw [h2.lookup, if_pos (by omega)]

end QuestOS
