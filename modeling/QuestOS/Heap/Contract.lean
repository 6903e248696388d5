import QuestOS.Heap.Kmalloc
import QuestOS.Memblock.Growth
import QuestOS.Memblock.Highest

/-!
# What `kmalloc` promises its callers

Callers compare the result of `kmalloc` with `NULL`.  The code returns `NULL` for size 0 only: it uses the answer
of `memblock_phys_alloc_range` without a check, and lets the size wrap when it is rounded up and doubled.  The
contract therefore holds exactly where neither can happen.
-/

namespace QuestOS

open Regions

/-! ### When memblock serves a request -/

def Memblock.Serves (mb : Memblock) (size : Nat) : Prop :=
  ∃ mb' c, c ≠ 0 ∧ memblockPhysAllocRange size 0 0 0 mb = some (mb', c)

def Memblock.newArraySize (mb : Memblock) : Nat := pageAlign (mb.reserved.max * 2 * regionEntrySize)

def Memblock.CanGrow (mb : Memblock) (c size : Nat) : Prop :=
  (∃ a, mb.Allocatable mb.newArraySize pageSize (c + size) mb.currentLimit a) ∨
    ∃ a, mb.Allocatable mb.newArraySize pageSize 0 (min c mb.currentLimit) a

variable {mb : Memblock} {size c : Nat}

theorem memblockFindInRange_ne_zero {n start fin : Nat} (h : mb.TopDown) (hn : 0 < n) :
    memblockFindInRange mb start fin n pageSize ≠ 0 ↔ ∃ a, mb.Allocatable n pageSize start fin a := by
  have halign : pageSize = 0 ∨ ∃ k, pageSize = 2 ^ k := .inr ⟨12, rfl⟩
  rcases h.find_greatest hn start fin halign rfl with ⟨hgreat, hge⟩ | ⟨h0, hnone⟩
  · exact iff_of_true (Nat.lt_of_lt_of_le (by decide) hge).ne' ⟨_, hgreat.1⟩
  · exact iff_of_false (fun hne => hne h0) fun ⟨a, ha⟩ => hnone a ha

theorem findNewArray_ne_zero (h : mb.TopDown) (hsize : 0 < size) (hn : 0 < mb.newArraySize) :
    findNewArray mb c size mb.newArraySize ≠ 0 ↔ mb.CanGrow c size := by
  rw [Memblock.CanGrow, ← memblockFindInRange_ne_zero h hn, ← memblockFindInRange_ne_zero h hn]
  unfold findNewArray
  dsimp only
  split
  · rename_i h0
    rw [h0.1]
    simp
  · rename_i h0
    have hne : memblockFindInRange mb (c + size) mb.currentLimit mb.newArraySize pageSize ≠ 0 :=
      fun h1 => h0 ⟨h1, hsize.ne'⟩
    exact iff_of_true hne (.inl hne)

theorem memblockDoubleArray_fails (n : Nat) :
    memblockDoubleArray (n + 1) .reserved c size mb = some (mb, -1) ↔ findNewArray mb c size mb.newArraySize = 0 := by
  have hnew : mb.reserved.max * regionEntrySize * 2 = mb.reserved.max * 2 * regionEntrySize := by
    simp only [regionEntrySize]
    omega
  unfold memblockDoubleArray Memblock.newArraySize
  simp only [Memblock.get_reserved, if_true, hnew]
  split
  · rename_i h0
    exact iff_of_true rfl h0
  · rename_i h0
    refine iff_of_false ?_ h0
    split
    · nofun
    · split
      · simp
      · nofun

theorem memblockReserve_eq_zero (h : mb.TopDown) (hs : mb.Sound) (hsize : 0 < size) (hps : pageSize ≤ c)
    (hfree : mb.Free c size) :
    (∃ mb', memblockReserve c size numaNoNode memblockRsrvKern mb = some (mb', 0)) ↔
      mb.reserved.cnt < mb.reserved.max ∨ mb.CanGrow c size := by
  have hn : 0 < mb.newArraySize := by
    have h1 := le_pageAlign (mb.reserved.max * 2 * regionEntrySize)
    have h2 := hs.init_le
    simp only [Memblock.newArraySize, regionEntrySize, initMemblockReservedRegions] at *
    omega
  have hgap := gapsIn_free h.reserved.sorted (Nat.lt_add_of_pos_right hsize) hfree.lookup
  obtain ⟨mb₁, ret, hgrow, hd, hroom⟩ := growWhile_spec 1 1 (by omega) hs.toWf hfree.le_max
  have hg := grows_of_doubled hs.toWf hd
  have hfree₁ : ∀ x, c ≤ x → x < c + size → lookup mb₁.reserved.regions x = none :=
    fun x => hg.lookup_none hs.toWf hps hfree
  have hroom₁ : 0 ≤ ret → mb₁.reserved.cnt + 1 ≤ mb₁.reserved.max := by
    intro hret
    rcases hroom with ⟨rfl, -⟩ | hroom
    · exact absurd hret (by decide)
    · exact hroom.2
  -- the loop fails if and only if its first round does
  have hret : 0 ≤ ret ↔ mb.reserved.cnt < mb.reserved.max ∨ mb.CanGrow c size := by
    by_cases hfit : mb.reserved.cnt + 1 ≤ mb.reserved.max
    · rw [growWhile_room mb _ .reserved hfit] at hgrow
      obtain ⟨-, rfl⟩ := Prod.mk.inj (Option.some.inj hgrow)
      exact iff_of_true (Int.le_refl 0) (.inl hfit)
    · have hfull : (mb.get .reserved).max < (mb.get .reserved).cnt + 1 := Nat.lt_of_not_le hfit
      rw [growWhile, if_pos hfull] at hgrow
      rcases memblockDoubleArray_spec 1 hs.toWf hfree.le_max with hdouble | ⟨mb₂, hdouble, hdbl⟩
      · have hno := memblockDoubleArray_fails 1 |>.1 hdouble
        rw [hdouble] at hgrow
        obtain ⟨-, rfl⟩ := Prod.mk.inj (Option.some.inj hgrow)
        refine iff_of_false (by decide) ?_
        rintro (hlt | hcan)
        · exact hfit hlt
        · exact (findNewArray_ne_zero h hsize hn).2 hcan hno
      · have hyes : findNewArray mb c size mb.newArraySize ≠ 0 := by
          intro h0
          rw [(memblockDoubleArray_fails 1).2 h0] at hdouble
          cases (Prod.mk.inj (Option.some.inj hdouble)).2
        have hfit₂ : mb₂.reserved.cnt + 1 ≤ mb₂.reserved.max := by
          have h1 := hdbl.cnt_le
          have h2 := hdbl.max
          have h3 := hs.init_le
          have h4 := hs.reserved.cnt_le
          simp only [initMemblockReservedRegions] at h3
          omega
        rw [hdouble] at hgrow
        have hrest := (growWhile_room mb₂ (memblockDoubleArray 2) .reserved hfit₂).symm.trans hgrow
        obtain ⟨-, rfl⟩ := Prod.mk.inj (Option.some.inj hrest)
        exact iff_of_true (Int.le_refl 0) (.inr ((findNewArray_ne_zero h hsize hn).1 hyes))
  rw [← hret]
  rcases addRange_of_grow ⟨memblockRsrvKern, numaNoNode⟩ hs.reserved hsize hfree.le_max hfree.lookup hgrow hg.wf.reserved
    hfree₁ hroom₁ with ⟨hneg, hadd⟩ | ⟨hpos, t, hadd, -⟩
  · have hadd' : memblockReserve c size numaNoNode memblockRsrvKern mb = some (mb₁, ret) := hadd
    rw [hadd']
    refine iff_of_false ?_ (by omega)
    rintro ⟨mb', heq⟩
    have := (Prod.mk.inj (Option.some.inj heq)).2
    omega
  · exact iff_of_true ⟨_, hadd⟩ hpos

/-- In a state that is searched from the top, a request is served if and only if there is a free block for it and, when
the array of reserved regions is full, one for a longer array. -/
theorem Memblock.TopDown.serves_iff (h : mb.TopDown) (hs : mb.Sound) (hsize : 0 < size) :
    mb.Serves size ↔ ∃ c, IsGreatest {c | mb.Allocatable size 0 0 0 c} c ∧
      (mb.reserved.cnt < mb.reserved.max ∨ mb.CanGrow c size) := by
  have hphys : memblockPhysAllocRange size 0 0 0 mb = memblockAllocRangeNid size 0 0 0 numaNoNode false mb := rfl
  rcases h.greatest_or_none hsize (.inl rfl) 0 0 with ⟨c, hgreat, hne⟩ | hnone
  · have hfound : memblockFindInRangeNode mb size smpCacheBytes 0 0 numaNoNode 0 = c := h.find_eq hsize (.inl rfl) hgreat
    have hps : pageSize ≤ c := (Nat.le_max_right _ _).trans hgreat.1.2.start_le
    have hfree : mb.Free c size :=
      ⟨h.le_max hsize hgreat.1, hgreat.1.2.memory, hgreat.1.2.notReserved⟩
    have hserves : mb.Serves size ↔ ∃ mb', memblockReserve c size numaNoNode memblockRsrvKern mb = some (mb', 0) := by
      obtain ⟨mb', ret, hres, hcase⟩ := memblockReserve_spec numaNoNode memblockRsrvKern hs.toWf hps hfree
      have hnode : ¬ 0 ≤ numaNoNode := by decide
      simp only [Memblock.Serves, hphys, memblockAllocRangeNid, hnode, false_and, if_false, if_true, hfound, if_neg hne,
        hres, Option.map_some]
      rcases hcase with ⟨rfl, -⟩ | ⟨rfl, -⟩
      · simp [negEnomem]
      · simp [hne]
    rw [hserves, memblockReserve_eq_zero h hs hsize hps hfree]
    constructor
    · intro hroom
      exact ⟨c, hgreat, hroom⟩
    · rintro ⟨c', hgreat', hroom⟩
      rwa [← hgreat'.unique hgreat]
  · refine iff_of_false ?_ ?_
    · rintro ⟨mb', c, hc, halloc⟩
      rw [hphys, h.alloc_none hsize (.inl rfl) false hnone] at halloc
      exact hc (Prod.mk.inj (Option.some.inj halloc)).2.symm
    · rintro ⟨c, hc, -⟩
      exact hnone c hc.1

/-! ### The size of the buffer -/

def kmallocAlign (n : Nat) : Nat := if isPowerOf2 n then n else 2 ^ fls n

def DoublesWithin (n : Nat) : Prop := (n + kmallocAlign n - 1) / kmallocAlign n * kmallocAlign n * 2 < 2 ^ 64

theorem exists_kmallocAlign (n : Nat) : ∃ k, kmallocAlign n = 2 ^ k := by
  unfold kmallocAlign
  split
  · rename_i hp
    exact exists_two_pow_of_isPowerOf2 hp
  · exact ⟨_, rfl⟩

theorem le_kmallocBufSize {n : Nat} (h : DoublesWithin n) : n ≤ kmallocBufSize n := by
  obtain ⟨k, hk⟩ := exists_kmallocAlign n
  have hbuf : kmallocBufSize n = alignUp n (kmallocAlign n) * 2 % 2 ^ 64 := rfl
  rw [DoublesWithin, hk] at h
  rw [hbuf, hk, alignUp_eq]
  have hpos : 0 < 2 ^ k := Nat.two_pow_pos k
  have hle : n ≤ (n + 2 ^ k - 1) / 2 ^ k * 2 ^ k := by
    have h1 := Nat.div_add_mod' (n + 2 ^ k - 1) (2 ^ k)
    have h2 := Nat.mod_lt (n + 2 ^ k - 1) hpos
    omega
  rcases Nat.eq_zero_or_pos n with rfl | hn
  · exact Nat.zero_le _
  have hone : 1 ≤ (n + 2 ^ k - 1) / 2 ^ k := (Nat.one_le_div_iff hpos).2 (by omega)
  have hk1 : 2 ^ k ≤ (n + 2 ^ k - 1) / 2 ^ k * 2 ^ k := Nat.le_mul_of_pos_left _ hone
  rw [Nat.mod_eq_of_lt (show n + 2 ^ k - 1 < 2 ^ 64 by omega), Nat.mod_eq_of_lt h]
  omega

/-! ### The contract -/

/-- `kmalloc(n)` returns `NULL` and changes nothing, or a buffer of at least `n` bytes inside a block it took from
memblock; it returns `NULL` when memblock has nothing and when the size wraps. -/
def KmallocContract (n : Nat) (zero : Bool) (h : Heap) : Prop :=
  ∃ h' p, kmalloc n zero h = some (h', p) ∧ (p = none → h' = h) ∧
    (∀ ptr, p = some ptr → ∃ c m, Allocated c m h.mb h'.mb ∧ c ≤ ptr ∧ ptr + n ≤ c + m) ∧
    (n ≠ 0 → ¬ h.mb.Serves (structSize (kmallocBufSize n)) → p = none) ∧ (¬ DoublesWithin n → p = none)

theorem kmalloc_ne_null {n : Nat} {zero : Bool} {h h' : Heap} {p : Option Nat} (hn : n ≠ 0)
    (hk : kmalloc n zero h = some (h', p)) : p ≠ none := by
  rw [kmalloc, if_neg hn] at hk
  dsimp only at hk
  split at hk
  · cases hk
  · split at hk
    · cases hk
    · rw [← (Prod.mk.inj (Option.some.inj hk)).2]
      exact Option.some_ne_none _

/-! ### Alignment -/

theorem roundUp_cacheLine_mod (x : Nat) : roundUp x smpCacheBytes % 64 = 0 := by
  have hlow : ∀ z < 64, z ||| 63 = 63 := by decide
  have hor : ((x - 1) ||| 63) % 2 ^ 6 = 63 := by
    rw [Nat.or_mod_two_pow, show 63 % 2 ^ 6 = 63 from rfl]
    exact hlow _ (Nat.mod_lt _ (by decide))
  change (((x - 1) ||| 63) + 1) % 2 ^ 64 % 64 = 0
  omega

theorem findTopDownLoop_mod (nid : Int) (flags : Nat) (a b : List MemblockRegion) (start fin size fuel na nb : Nat) :
    findTopDownLoop nid flags a b start fin size smpCacheBytes fuel na nb % 64 = 0 := by
  induction fuel generalizing na nb with
  | zero => rfl
  | succ fuel ih =>
    rw [findTopDownLoop]
    split
    · rfl
    · dsimp only
      split
      · exact ih _ _
      · split
        · exact Nat.mod_eq_zero_of_dvd (roundDown_dvd _ 6)
        · exact ih _ _

theorem findBottomUpLoop_mod (nid : Int) (flags : Nat) (a b : List MemblockRegion) (start fin size fuel ia ib : Nat) :
    findBottomUpLoop nid flags a b start fin size smpCacheBytes fuel ia ib % 64 = 0 := by
  induction fuel generalizing ia ib with
  | zero => rfl
  | succ fuel ih =>
    rw [findBottomUpLoop]
    split
    · rfl
    · dsimp only
      split
      · exact roundUp_cacheLine_mod _
      · exact ih _ _

theorem memblockPhysAllocRange_mod {size start fin pa : Nat} {mb mb' : Memblock}
    (h : memblockPhysAllocRange size 0 start fin mb = some (mb', pa)) : pa % 64 = 0 := by
  have hfind : ∀ nid mb, memblockFindInRangeNode mb size smpCacheBytes start fin nid 0 % 64 = 0 := by
    intro nid mb
    unfold memblockFindInRangeNode
    dsimp only
    split
    · exact findBottomUpLoop_mod ..
    · exact findTopDownLoop_mod ..
  rw [memblockPhysAllocRange, memblockAllocRangeNid] at h
  simp only [if_true, numaNoNode, show ¬ (0 : Int) ≤ -1 by decide, false_and, if_false] at h
  split at h
  · cases h
  · rename_i mb₁ found htry
    have hfound : found % 64 = 0 := by
      split at htry
      · obtain ⟨-, rfl⟩ := Prod.mk.inj (Option.some.inj htry)
        rfl
      · obtain ⟨q, -, hq⟩ := Option.map_eq_some_iff.1 htry
        obtain ⟨-, rfl⟩ := Prod.mk.inj hq
        split
        · exact hfind (-1) mb
        · rfl
    split at h
    · obtain ⟨-, rfl⟩ := Prod.mk.inj (Option.some.inj h)
      exact hfound
    · obtain ⟨-, rfl⟩ := Prod.mk.inj (Option.some.inj h)
      rfl

theorem kmalloc_mod {n ptr : Nat} {zero : Bool} {h h' : Heap} (hk : kmalloc n zero h = some (h', some ptr)) :
    ptr % 64 = 16 := by
  rw [kmalloc] at hk
  split at hk
  · cases hk
  · dsimp only at hk
    split at hk
    · cases hk
    · rename_i mb pa halloc
      have hpa := memblockPhysAllocRange_mod halloc
      split at hk
      · cases hk
      · obtain ⟨-, hptr⟩ := Prod.mk.inj (Option.some.inj hk)
        rw [← Option.some.inj hptr, mallocHeaderSize]
        omega

theorem kmalloc_of_serves {n : Nat} {h : Heap} (zero : Bool) (hmb : h.mb.Wf) (hn : n ≠ 0)
    (hserves : h.mb.Serves (structSize (kmallocBufSize n))) :
    ∃ h' pa, kmalloc n zero h = some (h', some (pa + mallocHeaderSize)) ∧
      Allocated pa (mallocHeaderSize + kmallocBufSize n) h.mb h'.mb := by
  obtain ⟨mb', pa, hpa, halloc⟩ := hserves
  obtain ⟨mb'', pa', halloc', hcase⟩ := memblockPhysAllocRange_spec (structSize (kmallocBufSize n)) hmb
    (Nat.zero_le _) (Nat.zero_le _) (Nat.zero_le _)
  obtain ⟨rfl, rfl⟩ := Prod.mk.inj (Option.some.inj (halloc.symm.trans halloc'))
  rcases hcase with ⟨h0, -⟩ | ⟨-, hal⟩
  · exact absurd h0 hpa
  have hsize := hal.structSize_eq
  have hin : lookup mb'.memory.regions pa ≠ none := by
    rw [hal.memory]
    exact Option.ne_none_iff_isSome.2
      (hal.free.memory pa (Nat.le_refl _) (by rw [hsize, mallocHeaderSize]; omega))
  rw [kmalloc, if_neg hn]
  dsimp only
  rw [halloc]
  dsimp only
  rw [if_neg hin]
  exact ⟨_, pa, rfl, hsize ▸ hal⟩

theorem kmallocContract_zero (zero : Bool) (h : Heap) : KmallocContract 0 zero h := by
  refine ⟨h, none, if_pos rfl, fun _ => rfl, ?_, fun h0 => absurd rfl h0, fun _ => rfl⟩
  intro ptr hptr
  cases hptr

/-- The contract holds for size 0, and otherwise if and only if the size does not wrap and memblock serves the
request; for the states of this kernel the latter is that there is a free block (and room for its entry). -/
theorem kmalloc_contract_iff (n : Nat) (zero : Bool) (h : Heap) (hmb : h.mb.Wf) :
    (KmallocContract n zero h ↔ n = 0 ∨ DoublesWithin n ∧ h.mb.Serves (structSize (kmallocBufSize n))) ∧
      (h.mb.TopDown → h.mb.Sound → (h.mb.Serves (structSize (kmallocBufSize n)) ↔
        ∃ c, IsGreatest {c | h.mb.Allocatable (structSize (kmallocBufSize n)) 0 0 0 c} c ∧
          (h.mb.reserved.cnt < h.mb.reserved.max ∨ h.mb.CanGrow c (structSize (kmallocBufSize n))))) := by
  have hpos : 0 < structSize (kmallocBufSize n) := by
    simp only [structSize, mallocHeaderSize]
    omega
  refine ⟨?_, fun htop hsound => htop.serves_iff hsound hpos⟩
  constructor
  · rintro ⟨h', p, hk, -, -, hserves, hdouble⟩
    refine or_iff_not_imp_left.2 fun hn => ⟨?_, ?_⟩
    · by_contra hno
      exact kmalloc_ne_null hn hk (hdouble hno)
    · by_contra hno
      exact kmalloc_ne_null hn hk (hserves hn hno)
  · rintro (rfl | ⟨hdouble, hserves⟩)
    · exact kmallocContract_zero zero h
    · rcases Nat.eq_zero_or_pos n with rfl | hn
      · exact kmallocContract_zero zero h
      obtain ⟨h', pa, hk, hal⟩ := kmalloc_of_serves zero hmb hn.ne' hserves
      refine ⟨h', _, hk, ?_, ?_, fun _ hno => absurd hserves hno, fun hno => absurd hdouble hno⟩
      · intro hnull
        cases hnull
      · intro ptr hptr
        cases hptr
        have := le_kmallocBufSize hdouble
        exact ⟨pa, _, hal, Nat.le_add_right _ _, by omega⟩

def lowBank : Memblock where
  bottomUp := false
  currentLimit := physAddrMax
  memory := { regions := [⟨0, 0x2000, ⟨0, 0⟩⟩], max := 128, totalSize := 0x2000, array := none }
  reserved := { regions := [], max := 128, totalSize := 0, array := none }

theorem lowBank_wf : lowBank.Wf where
  reserved := ⟨trivial, by decide, by decide, by decide⟩
  limit := by decide
  array := fun x ⟨_, h, _⟩ => by cases h

theorem kmalloc_contract_lowBank : lowBank.Wf ∧
    (KmallocContract 8 true ⟨lowBank, fun _ => 0⟩ ↔
      8 = 0 ∨ DoublesWithin 8 ∧ lowBank.Serves (structSize (kmallocBufSize 8))) :=
  ⟨lowBank_wf, (kmalloc_contract_iff 8 true ⟨lowBank, fun _ => 0⟩ lowBank_wf).1⟩

/-- There is no block for a page and its alignment, and `kmalloc` returns the address 16. -/
theorem kmalloc_without_memory : memblockPhysAllocRange (structSize (kmallocBufSize 4096)) 0 0 0 lowBank = some (lowBank, 0) ∧
    (kmalloc 4096 false ⟨lowBank, fun _ => 0⟩).map (·.2) = some (some 16) ∧
    ¬ KmallocContract 4096 false ⟨lowBank, fun _ => 0⟩ := by
  have halloc : memblockPhysAllocRange (structSize (kmallocBufSize 4096)) 0 0 0 lowBank = some (lowBank, 0) := by
    decide +kernel
  refine ⟨halloc, ?_, ?_⟩
  · rw [kmalloc, if_neg (by decide)]
    dsimp only
    rw [halloc]
    rfl
  · rintro ⟨h', p, hk, -, -, hserves, -⟩
    refine kmalloc_ne_null (by decide) hk (hserves (by decide) ?_)
    rintro ⟨mb', c, hc, hal⟩
    exact hc (Prod.mk.inj (Option.some.inj (hal.symm.trans halloc))).2

end QuestOS
