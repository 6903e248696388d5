import QuestOS.Memblock.Grow
import QuestOS.Lib.Trans

/-!
# A region array is the minimal list of its map

`memblock_add_range` merges only in a window around the regions it has inserted.  Outside of the
window nothing has changed, and inside of it `memblock_merge_regions` compares every pair of
neighbours; so an array without touching neighbours stays one.  `memblock_remove_range` does not
merge at all: the two places where it may have cut a region are the ends of what it removes.
-/

namespace QuestOS

open Regions

variable {max fin idx cnt base size : Nat} {attr : RegionAttr} {p p' : AddPass}
variable {l l' rest : List MemblockRegion} {rgn : MemblockRegion} {k : TypeKind}

/-! ### The window of the insertions -/

structure Window (l l' : List MemblockRegion) (a e : Nat) : Prop where
  lt : a < e
  le : e ≤ l'.length
  take : l'.take a = l.take a
  drop : l'.drop e <:+ l

theorem Window.cons {a e : Nat} (h : Window rest l' a e) (rgn : MemblockRegion) :
    Window (rgn :: rest) (rgn :: l') (a + 1) (e + 1) where
  lt := Nat.succ_lt_succ h.lt
  le := Nat.succ_le_succ h.le
  take := by rw [List.take_succ_cons, List.take_succ_cons, h.take]
  drop := h.drop.trans (List.suffix_cons rgn rest)

def Recorded (idx : Nat) (p p' : AddPass) (l l' : List MemblockRegion) : Prop :=
  (l' = l ∧ p'.nrNew = p.nrNew ∧ p'.startRgn = p.startRgn ∧ p'.endRgn = p.endRgn) ∨
    ∃ a e, p'.startRgn = p.startRgn.or (some (idx + a)) ∧ p'.endRgn = idx + e ∧ Window l l' a e

theorem Recorded.cons {p₁ : AddPass} (h : Recorded (idx + 1) p₁ p' rest l') (rgn : MemblockRegion)
    (hnew : p₁.nrNew = p.nrNew) (hstart : p₁.startRgn = p.startRgn) (hend : p₁.endRgn = p.endRgn) :
    Recorded idx p p' (rgn :: rest) (rgn :: l') := by
  rcases h with ⟨rfl, h1, h2, h3⟩ | ⟨a, e, h1, h2, hw⟩
  · exact .inl ⟨rfl, h1.trans hnew, h2.trans hstart, h3.trans hend⟩
  · refine .inr ⟨a + 1, e + 1, ?_, by omega, hw.cons rgn⟩
    rw [h1, hstart, Nat.add_right_comm, Nat.add_assoc]

theorem Recorded.insert {p₁ : AddPass} (h : Recorded (idx + 2) p₁ p' rest l') (new rgn : MemblockRegion)
    (hstart : p₁.startRgn = p.startRgn.or (some idx)) (hend : p₁.endRgn = idx + 1) :
    Recorded idx p p' (rgn :: rest) (new :: rgn :: l') := by
  rcases h with ⟨rfl, -, h2, h3⟩ | ⟨a, e, h1, h2, hw⟩
  · exact .inr ⟨0, 1, h2.trans hstart, h3.trans hend, Nat.one_pos, by simp, rfl, List.suffix_refl _⟩
  · refine .inr ⟨0, e + 2, ?_, by omega, by omega, ?_, rfl, hw.drop.trans (List.suffix_cons rgn rest)⟩
    · rw [h1, hstart, Option.or_assoc]
      rfl
    · exact Nat.succ_le_succ (Nat.succ_le_succ hw.le)

theorem addTail_recorded (h : addTail max true attr fin idx cnt p rest = some (l', p')) :
    Recorded idx p p' rest l' := by
  unfold addTail at h
  split at h
  · simp only [if_true] at h
    split at h
    · cases h
    · cases h
      exact .inr ⟨0, 1, rfl, rfl, Nat.one_pos, by simp, rfl, List.suffix_refl _⟩
  · cases h
    exact .inl ⟨rfl, rfl, rfl, rfl⟩

theorem addLoop_recorded (h : addLoop max true attr fin idx cnt p l = some (l', p')) :
    Recorded idx p p' l l' := by
  induction l generalizing idx cnt p l' with
  | nil => exact addTail_recorded h
  | cons rgn rest ih =>
    rw [addLoop] at h
    split at h
    · exact addTail_recorded h
    split at h
    · obtain ⟨⟨l₁, p₁⟩, h1, h2⟩ := Option.map_eq_some_iff.mp h
      cases h2
      exact (ih h1).cons rgn rfl rfl rfl
    split at h
    · simp only [if_true] at h
      split at h
      · cases h
      · obtain ⟨⟨l₁, p₁⟩, h1, h2⟩ := Option.map_eq_some_iff.mp h
        cases h2
        exact (ih h1).insert _ rgn rfl rfl
    · obtain ⟨⟨l₁, p₁⟩, h1, h2⟩ := Option.map_eq_some_iff.mp h
      cases h2
      exact (ih h1).cons rgn rfl rfl rfl

/-! ### Merging the window -/

/-- If the regions from index `n` on do not touch, then after `n` rounds none do. -/
theorem mergeLoop_minimal (n : Nat) (hmin : Minimal (l.drop n)) (h : mergeLoop n l = some l') :
    Minimal l' ∧ front l' = front l := by
  induction n generalizing l l' with
  | zero =>
    simp only [mergeLoop, Option.some.injEq] at h
    subst h
    exact ⟨hmin, rfl⟩
  | succ n ih =>
    rcases l with _ | ⟨this, _ | ⟨next, rest⟩⟩
    · cases h
      exact ⟨minimal_nil, rfl⟩
    · cases h
      exact ⟨minimal_singleton this, rfl⟩
    · rw [List.drop_succ_cons] at hmin
      rw [mergeLoop] at h
      split at h
      · rename_i hdiff
        split at h
        · cases h
        obtain ⟨l₁, h1, rfl⟩ := Option.map_eq_some_iff.mp h
        obtain ⟨h2, h3⟩ := ih hmin h1
        refine ⟨minimal_cons.mpr ⟨?_, h2⟩, rfl⟩
        rw [h3]
        intro heq
        simp only [front, List.head?_cons, Option.map_some, Option.some.injEq, Prod.mk.injEq] at heq
        rw [heq.1, heq.2] at hdiff
        simp at hdiff
      · rename_i hsame
        simp only [not_or, not_not] at hsame
        obtain ⟨hfin, hnid, hflags⟩ := hsame
        have htag : this.tag = next.tag := by
          cases ht : this.tag
          cases hn : next.tag
          simp_all
        -- the merged region ends like the second one, with its attributes
        have hend : ({ this with size := this.size + next.size } : MemblockRegion).fin = next.fin := by
          simp only [Region.fin] at *
          omega
        refine ih (l := { this with size := this.size + next.size } :: rest) ?_ h
        cases n with
        | zero =>
          rw [List.drop_zero, minimal_cons] at hmin ⊢
          rw [hend]
          exact ⟨by simpa only [htag] using hmin.1, hmin.2⟩
        | succ n => exact hmin

theorem memblockMergeRegions_minimal {a e : Nat} (hlt : a < e) (hle : e ≤ l.length)
    (htake : Minimal (l.take a)) (hdrop : Minimal (l.drop e))
    (h : memblockMergeRegions a e l = some l') : Minimal l' := by
  obtain ⟨l₁, h1, rfl⟩ := Option.map_eq_some_iff.mp h
  have hend : Minimal ((l.drop (a - 1)).drop (min e (l.length - 1) - (a - 1))) := by
    rw [List.drop_drop]
    by_cases he : e ≤ l.length - 1
    · rwa [Nat.min_eq_left he, show a - 1 + (e - (a - 1)) = e by omega]
    · rw [Nat.min_eq_right (by omega), show a - 1 + (l.length - 1 - (a - 1)) = l.length - 1 by omega]
      obtain ⟨r, hr⟩ : ∃ r, l.drop (l.length - 1) = [r] := by
        rw [← List.length_eq_one_iff, List.length_drop]
        omega
      rw [hr]
      exact minimal_singleton r
  obtain ⟨h2, h3⟩ := mergeLoop_minimal _ hend h1
  -- the region before the window is compared too, so it is enough to look at it alone
  have hbegin : Minimal (l.take (a - 1) ++ (l.drop (a - 1)).take 1) := by
    rw [← List.take_add]
    cases a with
    | zero =>
      cases l with
      | nil => exact minimal_nil
      | cons r l => exact minimal_singleton r
    | succ a => exact htake
  refine hbegin.append_congr ?_ h2
  rw [h3]
  cases l.drop (a - 1) with
  | nil => rfl
  | cons r l => rfl

theorem addInsert_minimal {t t' : MemblockType} (hmin : Minimal t.regions)
    (h : addInsert attr base fin t = some t') : Minimal t'.regions := by
  unfold addInsert at h
  split at h
  · cases h
  rename_i l p hloop
  split at h
  · cases h
    exact hmin
  rename_i hnew
  obtain ⟨l', h1, rfl⟩ := Option.map_eq_some_iff.mp h
  rcases addLoop_recorded hloop with ⟨-, h0, -, -⟩ | ⟨a, e, hstart, hend, hw⟩
  · exact absurd h0 hnew
  · simp only [Option.none_or, Nat.zero_add] at hstart hend
    rw [hstart, hend] at h1
    exact memblockMergeRegions_minimal hw.lt hw.le (hw.take ▸ hmin.take a) (hmin.suffix hw.drop) h1

/-! ### Removing -/

def StartsIn (base fin : Nat) (l : List MemblockRegion) (r : MemblockRegion) : Prop :=
  (∃ r' ∈ l, r'.base = r.base ∧ r'.tag = r.tag) ∨ r.base = base ∨ r.base = fin

theorem StartsIn.mono {r : MemblockRegion} (h : StartsIn base fin l r)
    (hl : ∀ r' ∈ l, StartsIn base fin l' r') : StartsIn base fin l' r := by
  rcases h with ⟨r', hr', hb, ht⟩ | h
  · rcases hl r' hr' with ⟨r₂, hr₂, hb₂, ht₂⟩ | h
    · exact .inl ⟨r₂, hr₂, hb₂.trans hb, ht₂.trans ht⟩
    · rw [hb] at h
      exact .inr h
  · exact .inr h

theorem startsIn_of_mem {r : MemblockRegion} (hr : r ∈ l) : StartsIn base fin l r :=
  .inl ⟨r, hr, rfl, rfl⟩

theorem isolateLoop_startsIn {fuel s e : Nat} {q : List MemblockRegion × Nat × Nat}
    (h : isolateLoop max base fin fuel idx cnt s e l = some q) : ∀ r ∈ q.1, StartsIn base fin l r := by
  induction fuel generalizing idx cnt s e l q with
  | zero => simp [isolateLoop] at h
  | succ fuel ih =>
    cases l with
    | nil =>
      cases h
      simp
    | cons rgn rest =>
      have hrest : ∀ r ∈ rest, StartsIn base fin (rgn :: rest) r :=
        fun r hr => startsIn_of_mem (List.mem_cons_of_mem _ hr)
      rw [isolateLoop] at h
      split at h
      · cases h
        exact fun r hr => startsIn_of_mem hr
      split at h
      · obtain ⟨q₁, h1, rfl⟩ := Option.map_eq_some_iff.mp h
        exact List.forall_mem_cons.mpr
          ⟨startsIn_of_mem List.mem_cons_self, fun r hr => (ih h1 r hr).mono hrest⟩
      split at h
      · split at h
        · cases h
        obtain ⟨q₁, h1, rfl⟩ := Option.map_eq_some_iff.mp h
        refine List.forall_mem_cons.mpr ⟨.inl ⟨rgn, List.mem_cons_self, rfl, rfl⟩, fun r hr => ?_⟩
        exact (ih h1 r hr).mono (List.forall_mem_cons.mpr ⟨.inr (.inl rfl), hrest⟩)
      split at h
      · split at h
        · cases h
        intro r hr
        refine (ih h r hr).mono (List.forall_mem_cons.mpr ⟨.inl ⟨rgn, List.mem_cons_self, rfl, rfl⟩, ?_⟩)
        exact List.forall_mem_cons.mpr ⟨.inr (.inr rfl), hrest⟩
      · obtain ⟨q₁, h1, rfl⟩ := Option.map_eq_some_iff.mp h
        exact List.forall_mem_cons.mpr
          ⟨startsIn_of_mem List.mem_cons_self, fun r hr => (ih h1 r hr).mono hrest⟩

theorem mem_of_mem_removeLoop {s n : Nat} {t : MemblockType} {r : MemblockRegion}
    (h : r ∈ (removeLoop s n t).regions) : r ∈ t.regions := by
  induction n generalizing t with
  | zero => exact h
  | succ n ih => exact List.mem_of_mem_eraseIdx (ih h)

/-- A region that is left starts where one started before, or else at the end of what was removed. -/
theorem Removed.minimal {t t' : MemblockType} (h : Removed base fin t t') (ht : SortedFrom 0 t.regions)
    (hmin : Minimal t.regions) (hbf : base < fin) (hstart : ∀ r ∈ t'.regions, StartsIn base fin t.regions r) :
    Minimal t'.regions := by
  rw [ht.minimal_iff] at hmin
  rw [h.wf.sorted.minimal_iff]
  intro s hs x hx hlook
  rw [h.lookup] at hlook
  split at hlook
  · cases hlook
  rename_i hout
  rcases hstart s hs with ⟨r, hr, hb, htag⟩ | hb | hb
  · exact hmin r hr x (by omega) (htag ▸ hlook)
  · -- it cannot start at `base`, which is not covered any more
    have hsome : (Regions.lookup t'.regions s.base).isSome := by
      refine lookup_isSome_iff.mpr ⟨s, hs, Nat.le_refl _, ?_⟩
      have := h.wf.sorted.size_pos hs
      simp only [Region.fin]
      omega
    rw [h.lookup, if_pos (by omega)] at hsome
    cases hsome
  · omega

/-! ### The two operations on a canonical array -/

/-- The array is the minimal list of its map, and `total_size` is its size. -/
structure MemblockType.Canonical (t : MemblockType) : Prop where
  sorted : SortedFrom 0 t.regions
  bound : finFrom 0 t.regions ≤ physAddrMax
  minimal : Minimal t.regions
  totalSize : t.totalSize = sizeSum t.regions

variable {mb : Memblock} {double : DoubleArray}

theorem cap_le (base size : Nat) (h : memblockCapSize base size ≠ 0) :
    base + memblockCapSize base size ≤ physAddrMax := by
  simp only [memblockCapSize] at *
  omega

def addLookup (t : MemblockType) (base fin : Nat) (attr : RegionAttr) (x : Nat) : Option RegionAttr :=
  (lookup t.regions x).or (if base ≤ x ∧ x < fin then some attr else none)

def removeLookup (t : MemblockType) (base fin : Nat) (x : Nat) : Option RegionAttr :=
  if base ≤ x ∧ x < fin then none else lookup t.regions x

theorem addInsert_canonical (attr : RegionAttr) {t : MemblockType} (ht : t.Canonical) (hb : base ≤ fin)
    (hfin : fin ≤ physAddrMax) (hmax : 2 ≤ t.max) (hroom : t.cnt + gapsIn fin base t.regions ≤ t.max) :
    ∃ t', addInsert attr base fin t = some t' ∧ t'.Canonical ∧ t'.max = t.max ∧ t'.array = t.array ∧
      ∀ x, lookup t'.regions x = addLookup t base fin attr x := by
  obtain ⟨t', h1, h2⟩ := addInsert_spec attr ⟨ht.sorted, ht.bound, by omega, hmax⟩ hb hfin hroom
  exact ⟨t', h1, ⟨h2.wf.sorted, h2.wf.bound, addInsert_minimal ht.minimal h1, h2.totalSize ht.totalSize⟩,
    h2.max, h2.array, h2.lookup⟩

theorem addRange_canonical (double : DoubleArray) (k : TypeKind) (attr : RegionAttr)
    (ht : (mb.get k).Canonical)
    (hroom : (mb.get k).cnt + gapsIn (base + memblockCapSize base size) base (mb.get k).regions ≤ (mb.get k).max) :
    ∃ t', addRange double k base size attr mb = some (mb.set k t', 0) ∧ t'.Canonical ∧
      t'.max = (mb.get k).max ∧ t'.array = (mb.get k).array ∧
      ∀ x, lookup t'.regions x = addLookup (mb.get k) base (base + memblockCapSize base size) attr x := by
  rw [addRange_cap]
  by_cases hsize : memblockCapSize base size = 0
  · refine ⟨mb.get k, by rw [hsize, addRange_zero, Memblock.set_get], ht, rfl, rfl, fun x => ?_⟩
    rw [addLookup, hsize, if_neg (by omega), Option.or_none]
  have hcap := cap_le base size hsize
  generalize memblockCapSize base size = n at *
  have hpos : 0 < n := Nat.pos_of_ne_zero hsize
  by_cases hempty : (mb.get k).regions = []
  · refine ⟨_, addRange_nil double k attr hpos hcap hempty, ?_, rfl, rfl, fun x => ?_⟩
    · exact ⟨⟨Nat.zero_le _, hpos, trivial⟩, hcap, minimal_singleton _, by simp⟩
    · rw [addLookup, hempty, lookup_mk]
      rfl
  rw [addRange_eq double k attr hpos hcap ht.sorted hempty]
  split
  · rename_i hgap
    -- the range is covered already
    refine ⟨mb.get k, by rw [Memblock.set_get], ht, rfl, rfl, fun x => ?_⟩
    obtain ⟨l₁, p₁, -, -, -, hfill⟩ := addLoop_insert (mb.get k).max attr 0 (mb.get k).cnt
      ⟨base, 0, none, 0, (mb.get k).totalSize⟩ ht.sorted (.inl (Nat.zero_le _)) (Nat.le_add_right base n) hroom
    rw [addLookup, ← hfill.lookup, hfill.eq_of_zero hgap]
  · rename_i hgap
    rw [growWhile_room mb double k hroom]
    have hcnt : 0 < (mb.get k).cnt := List.length_pos_iff.mpr hempty
    obtain ⟨t', h1, h2⟩ := addInsert_canonical attr ht (Nat.le_add_right base n) hcap (by omega) hroom
    exact ⟨t', by simp [h1], h2⟩

theorem removeRange_canonical (double : DoubleArray) (k : TypeKind) (ht : (mb.get k).Canonical)
    (hroom : memblockCapSize base size ≠ 0 → (mb.get k).cnt + 2 ≤ (mb.get k).max) :
    ∃ t', removeRange double k base size mb = some (mb.set k t', 0) ∧ t'.Canonical ∧
      t'.max = (mb.get k).max ∧ t'.array = (mb.get k).array ∧
      ∀ x, lookup t'.regions x = removeLookup (mb.get k) base (base + memblockCapSize base size) x := by
  unfold removeRange isolateRange
  dsimp only
  by_cases hsize : memblockCapSize base size = 0
  · refine ⟨mb.get k, by simp [hsize, removeLoop], ht, rfl, rfl, fun x => ?_⟩
    rw [removeLookup, hsize, if_neg (by omega)]
  have hcap := cap_le base size hsize
  replace hroom := hroom hsize
  have hbf : base < base + memblockCapSize base size := by omega
  generalize memblockCapSize base size = n at *
  rw [if_neg hsize, growWhile_room mb double k hroom]
  obtain ⟨q, h1, h2⟩ := isolateLoop_removeLoop ⟨ht.sorted, ht.bound, by omega, by omega⟩ hbf hroom
  refine ⟨removeLoop q.2.1 (q.2.2 - q.2.1) { mb.get k with regions := q.1 }, by simp [h1], ?_, h2.max,
    h2.array, h2.lookup⟩
  refine ⟨h2.wf.sorted, h2.wf.bound, h2.minimal ht.sorted ht.minimal hbf fun r hr => ?_,
    h2.totalSize ht.totalSize⟩
  exact isolateLoop_startsIn h1 r (mem_of_mem_removeLoop hr)

/-- An array with room is a finite map from addresses to attributes, kept as its minimal list: adding
and removing a range succeed and are the two operations on the map. -/
theorem memblock_range_operations (double : DoubleArray) (k : TypeKind) (mb : Memblock) (base size : Nat)
    (attr : RegionAttr) (ht : (mb.get k).Canonical) :
    ((mb.get k).cnt + gapsIn (base + memblockCapSize base size) base (mb.get k).regions ≤ (mb.get k).max →
      ∃ t', addRange double k base size attr mb = some (mb.set k t', 0) ∧ t'.Canonical ∧
        t'.max = (mb.get k).max ∧ t'.array = (mb.get k).array ∧
        ∀ x, lookup t'.regions x = addLookup (mb.get k) base (base + memblockCapSize base size) attr x) ∧
    ((memblockCapSize base size ≠ 0 → (mb.get k).cnt + 2 ≤ (mb.get k).max) →
      ∃ t', removeRange double k base size mb = some (mb.set k t', 0) ∧ t'.Canonical ∧
        t'.max = (mb.get k).max ∧ t'.array = (mb.get k).array ∧
        ∀ x, lookup t'.regions x = removeLookup (mb.get k) base (base + memblockCapSize base size) x) :=
  ⟨addRange_canonical double k attr ht, removeRange_canonical double k ht⟩

def threeBanks : Memblock where
  bottomUp := false
  currentLimit := physAddrMax
  memory := ⟨[⟨0x1000, 0x1000, ⟨0, 0⟩⟩, ⟨0x2000, 0x1000, ⟨0, 1⟩⟩, ⟨0x5000, 0x1000, ⟨0, 1⟩⟩], 8, 0x3000, none⟩
  reserved := ⟨[], 8, 0, none⟩

theorem threeBanks_canonical : (threeBanks.get .memory).Canonical where
  sorted := by simp [threeBanks, Memblock.get]
  bound := by decide
  minimal := by simp [threeBanks, Memblock.get, minimal_cons, minimal_nil, front]
  totalSize := by decide

/-- The range that closes the hole is merged with the two regions around it, and not with the first. -/
theorem threeBanks_range_operations :
    (∃ t', addRange (memblockDoubleArray 2) .memory 0x2800 0x2800 ⟨0, 1⟩ threeBanks =
        some (threeBanks.set .memory t', 0) ∧ t'.Canonical ∧
        t'.regions = [⟨0x1000, 0x1000, ⟨0, 0⟩⟩, ⟨0x2000, 0x4000, ⟨0, 1⟩⟩]) ∧
      ∃ t', removeRange (memblockDoubleArray 2) .memory 0x2800 0x2800 threeBanks =
        some (threeBanks.set .memory t', 0) ∧ t'.Canonical := by
  obtain ⟨hadd, hremove⟩ := memblock_range_operations (memblockDoubleArray 2) .memory threeBanks 0x2800 0x2800
    ⟨0, 1⟩ threeBanks_canonical
  obtain ⟨t', h1, h2, -⟩ := hadd (by decide)
  obtain ⟨t₂, h3, h4, -⟩ := hremove fun _ => by decide
  refine ⟨⟨t', h1, h2, ?_⟩, t₂, h3, h4⟩
  have hrun : (addRange (memblockDoubleArray 2) .memory 0x2800 0x2800 ⟨0, 1⟩ threeBanks).map
      (fun q => q.1.memory.regions) = some [⟨0x1000, 0x1000, ⟨0, 0⟩⟩, ⟨0x2000, 0x4000, ⟨0, 1⟩⟩] := by
    decide +kernel
  rw [h1] at hrun
  exact Option.some.inj hrun

/-! ### Runs of the two operations -/

inductive RangeOp
  | add (base size : Nat) (attr : RegionAttr)
  | remove (base size : Nat)

def RangeOp.run (double : DoubleArray) (k : TypeKind) (mb : Memblock) : RangeOp → Option (Memblock × Int)
  | add base size attr => addRange double k base size attr mb
  | remove base size => removeRange double k base size mb

def RangeOp.HasRoom (t : MemblockType) : RangeOp → Prop
  | add base size _ => t.cnt + gapsIn (base + memblockCapSize base size) base t.regions ≤ t.max
  | remove base size => memblockCapSize base size ≠ 0 → t.cnt + 2 ≤ t.max

def RangeOp.onMap (f : Nat → Option RegionAttr) (x : Nat) : RangeOp → Option RegionAttr
  | add base size attr => (f x).or (if base ≤ x ∧ x < base + memblockCapSize base size then some attr else none)
  | remove base size => if base ≤ x ∧ x < base + memblockCapSize base size then none else f x

def rangeSystem (double : DoubleArray) (k : TypeKind) (mb₀ : Memblock) : Trans.System Memblock RangeOp where
  init mb := mb = mb₀
  step mb op mb' := op.HasRoom (mb.get k) ∧ op.run double k mb = some (mb', 0)

def mapAfter (f : Nat → Option RegionAttr) (tr : List (Trans.Step Memblock RangeOp)) : Nat → Option RegionAttr :=
  tr.foldr (fun e f x => e.label.onMap f x) f

structure RangeInv (k : TypeKind) (mb₀ mb : Memblock) (f : Nat → Option RegionAttr) : Prop where
  canonical : (mb.get k).Canonical
  max : (mb.get k).max = (mb₀.get k).max
  array : (mb.get k).array = (mb₀.get k).array
  others : mb = mb₀.set k (mb.get k)
  lookup : ∀ x, lookup (mb.get k).regions x = f x

variable {mb₀ mb' : Memblock} {tr tr' : List (Trans.Step Memblock RangeOp)} {f : Nat → Option RegionAttr}

theorem RangeInv.step {op : RangeOp} (h : RangeInv k mb₀ mb f) (hroom : op.HasRoom (mb.get k))
    (hrun : op.run double k mb = some (mb', 0)) : RangeInv k mb₀ mb' fun x => op.onMap f x := by
  have hset : ∃ t', mb' = mb.set k t' ∧ t'.Canonical ∧ t'.max = (mb.get k).max ∧ t'.array = (mb.get k).array ∧
      ∀ x, Regions.lookup t'.regions x = op.onMap (Regions.lookup (mb.get k).regions) x := by
    cases op with
    | add base size attr =>
      obtain ⟨t', h', hspec⟩ := addRange_canonical double k attr h.canonical hroom
      cases hrun.symm.trans h'
      exact ⟨t', rfl, hspec⟩
    | remove base size =>
      obtain ⟨t', h', hspec⟩ := removeRange_canonical double k h.canonical hroom
      cases hrun.symm.trans h'
      exact ⟨t', rfl, hspec⟩
  obtain ⟨t', rfl, hcan, hmax, harray, hlookup⟩ := hset
  rw [funext h.lookup] at hlookup
  constructor
  · rwa [Memblock.get_set]
  · rw [Memblock.get_set, hmax, h.max]
  · rw [Memblock.get_set, harray, h.array]
  · rw [Memblock.get_set, h.others, Memblock.set_set]
  · rwa [Memblock.get_set]

theorem RangeInv.of_run (ht : (mb₀.get k).Canonical) (h : (rangeSystem double k mb₀).Run tr mb) :
    RangeInv k mb₀ mb (mapAfter (Regions.lookup (mb₀.get k).regions) tr) := by
  induction h with
  | nil hinit =>
    cases hinit
    exact ⟨ht, rfl, rfl, (Memblock.set_get ..).symm, fun _ => rfl⟩
  | cons _ hs ih => exact ih.step hs.1 hs.2

attribute [ext] MemblockType

/-- The state keeps nothing of the order in which ranges were added and removed: after two runs from the same canonical
array, with room for each operation, it is the same iff the operations on the map come to the same. -/
theorem memblock_run_eq_iff (ht : (mb₀.get k).Canonical) (h : (rangeSystem double k mb₀).Run tr mb)
    (h' : (rangeSystem double k mb₀).Run tr' mb') :
    mb = mb' ↔ ∀ x, mapAfter (lookup (mb₀.get k).regions) tr x = mapAfter (lookup (mb₀.get k).regions) tr' x := by
  have hI := RangeInv.of_run ht h
  have hI' := RangeInv.of_run ht h'
  simp only [← hI.lookup, ← hI'.lookup]
  constructor
  · rintro rfl x
    rfl
  · intro heq
    have hregions := hI.canonical.sorted.eq_of_lookup hI'.canonical.sorted hI.canonical.minimal hI'.canonical.minimal heq
    have hget : mb.get k = mb'.get k := MemblockType.ext hregions (hI.max.trans hI'.max.symm)
      (by rw [hI.canonical.totalSize, hI'.canonical.totalSize, hregions]) (hI.array.trans hI'.array.symm)
    rw [hI.others, hI'.others, hget]

/-- A range behind the banks is added and removed again. -/
theorem threeBanks_add_remove : ∃ tr mb, (rangeSystem (memblockDoubleArray 2) .memory threeBanks).Run tr mb ∧
    tr.length = 2 ∧ mb = threeBanks := by
  have run := ((Trans.System.Run.nil rfl).next (S := rangeSystem (memblockDoubleArray 2) .memory threeBanks)
    (.add 0x6000 0x1000 ⟨0, 1⟩) ⟨by simp only [RangeOp.HasRoom]; decide, rfl⟩).next (.remove 0x6000 0x1000)
    ⟨by simp only [RangeOp.HasRoom]; decide, rfl⟩
  refine ⟨_, _, run, rfl, (memblock_run_eq_iff threeBanks_canonical run (.nil rfl)).2 fun x => ?_⟩
  change ite _ none (Option.or _ (ite _ _ none)) = _
  split
  · rename_i hx
    refine (lookup_eq_none_iff.2 ?_).symm
    simp only [threeBanks, Memblock.get, List.forall_mem_cons, Region.fin]
    exact ⟨by omega, by omega, by omega, by simp⟩
  · exact Option.or_none

end QuestOS
