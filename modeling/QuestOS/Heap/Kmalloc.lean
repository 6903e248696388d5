import Mathlib.Data.Nat.Bitwise
import QuestOS.Align
import QuestOS.Lib.Bytes
import QuestOS.Memblock.Alloc

/-!
# `kmalloc` and `kfree`

Every `kmalloc` takes a block of its own from memblock and keeps the size of the buffer in a header
in front of it, from which `kfree` computes the range to give back.  Kernel pointers of the linear
map are the physical addresses they stand for, and a store through the linear map faults outside
`memblock.memory`.  As in the allocator's model, `none` means that a call does not return.
-/

namespace QuestOS

open Bytes

def isPowerOf2 (n : Nat) : Bool := n ≠ 0 && n &&& (n - 1) = 0

def fls (x : Nat) : Nat := if x % 2 ^ 32 = 0 then 0 else Nat.log2 (x % 2 ^ 32) + 1

def mallocHeaderSize : Nat := 16

def structSize (count : Nat) : Nat := min (mallocHeaderSize + count) (2 ^ 64 - 1)

def kmallocBufSize (size : Nat) : Nat :=
  let align := if isPowerOf2 size then size else 2 ^ fls size
  alignUp size align * 2 % 2 ^ 64

structure Heap where
  mb : Memblock
  mem : Mem

/-- `kmalloc(size, flags)`, where `zero` is `flags & __GFP_ZERO`; the result is `NULL` for size 0. -/
def kmalloc (size : Nat) (zero : Bool) (h : Heap) : Option (Heap × Option Nat) :=
  if size = 0 then some (h, none)
  else
    let size := kmallocBufSize size
    match memblockPhysAllocRange (structSize size) 0 0 0 h.mb with
    | none => none
    | some (mb, pa) =>
      -- the result of the allocation is not checked, so that `pa` may be 0
      if Regions.lookup mb.memory.regions pa = none then none
      else
        let mem := store64 h.mem pa (BitVec.ofNat 64 size)
        let mem := if zero then fill mem (pa + mallocHeaderSize) size 0 else mem
        some (⟨mb, mem⟩, some (pa + mallocHeaderSize))

/-- `kfree(ptr)`, with the result of `memblock_phys_free`, which the code drops. -/
def kfree (ptr : Nat) (h : Heap) : Option (Heap × Int) :=
  let region := ptr - mallocHeaderSize
  (memblockPhysFree region (structSize (load64 h.mem region).toNat) h.mb).map fun q =>
    ({ h with mb := q.1 }, q.2)

/-! ### The size of the buffer -/

theorem exists_two_pow_of_isPowerOf2 {n : Nat} (h : isPowerOf2 n = true) : ∃ k, n = 2 ^ k := by
  simp only [isPowerOf2, Bool.and_eq_true, decide_eq_true_eq] at h
  exact (Nat.and_sub_one_eq_zero_iff_isPowerOfTwo h.1).mp h.2

theorem kmallocBufSize_spec {n : Nat} (h0 : 0 < n) (h31 : n < 2 ^ 31) :
    n * 2 ≤ kmallocBufSize n ∧ kmallocBufSize n ≤ 2 ^ 32 := by
  have hpow : ∃ k ≤ 31, n ≤ 2 ^ k ∧ (if isPowerOf2 n then n else 2 ^ fls n) = 2 ^ k := by
    split
    · rename_i hp
      obtain ⟨k, rfl⟩ := exists_two_pow_of_isPowerOf2 hp
      exact ⟨k, Nat.le_of_lt ((Nat.pow_lt_pow_iff_right (by decide)).mp h31), Nat.le_refl _, rfl⟩
    · have hmod : n % 2 ^ 32 = n := Nat.mod_eq_of_lt (by omega)
      have hlog : n.log2 < 31 := (Nat.log2_lt (by omega)).mpr h31
      refine ⟨n.log2 + 1, by omega, Nat.le_of_lt Nat.lt_log2_self, ?_⟩
      rw [fls, hmod, if_neg (by omega)]
  obtain ⟨k, hk, hle, heq⟩ := hpow
  have h2 : 2 ^ k ≤ 2 ^ 31 := Nat.pow_le_pow_right (by decide) hk
  unfold kmallocBufSize
  dsimp only
  rw [heq, alignUp_two_pow h0 hle (by omega), Nat.mod_eq_of_lt (by omega)]
  omega

/-! ### What the functions do -/

variable {h h' : Heap} {n pa : Nat} {zero : Bool}

structure Kmalloced (n : Nat) (zero : Bool) (pa : Nat) (h h' : Heap) : Prop where
  alloc : Allocated pa (mallocHeaderSize + kmallocBufSize n) h.mb h'.mb
  header : load64 h'.mem pa = BitVec.ofNat 64 (kmallocBufSize n)
  zeroed : zero = true → ∀ x, pa + mallocHeaderSize ≤ x →
    x < pa + mallocHeaderSize + kmallocBufSize n → h'.mem x = 0
  frame : ∀ x, ¬ (pa ≤ x ∧ x < pa + (mallocHeaderSize + kmallocBufSize n)) → h'.mem x = h.mem x

theorem Allocated.structSize_eq {c k : Nat} {mb mb' : Memblock} (ha : Allocated c (structSize k) mb mb') :
    structSize k = mallocHeaderSize + k := by
  have h1 := ha.ge
  have h2 := ha.free.le_max
  simp only [structSize, pageSize, physAddrMax] at *
  omega

private theorem kmalloc_mem (mem : Mem) (pa size : Nat) (zero : Bool) :
    let mem' := store64 mem pa (BitVec.ofNat 64 size)
    let mem' := if zero then fill mem' (pa + mallocHeaderSize) size 0 else mem'
    load64 mem' pa = BitVec.ofNat 64 size ∧
      (zero = true → ∀ x, pa + mallocHeaderSize ≤ x → x < pa + mallocHeaderSize + size → mem' x = 0) ∧
      ∀ x, ¬ (pa ≤ x ∧ x < pa + (mallocHeaderSize + size)) → mem' x = mem x := by
  have h16 : mallocHeaderSize = 16 := rfl
  cases zero with
  | false =>
    refine ⟨load64_store64 _ _ _, nofun, fun x hx => ?_⟩
    exact store64_of_not (by omega)
  | true =>
    refine ⟨?_, fun _ x h1 h2 => fill_of_mem ⟨h1, h2⟩, fun x hx => ?_⟩
    · refine (load64_congr fun x h1 h2 => ?_).trans (load64_store64 mem pa _)
      exact fill_of_not (by omega)
    · exact (fill_of_not (by omega)).trans (store64_of_not (by omega))

/-- `kmalloc` takes a fresh block, or the allocation failed and it works on physical address 0. -/
theorem kmalloc_spec (zero : Bool) (hmb : h.mb.Wf) (hn : n ≠ 0) :
    (kmalloc n zero h = none ∧ ¬ h.mb.InMemory 0) ∨
    ∃ h' pa, kmalloc n zero h = some (h', some (pa + mallocHeaderSize)) ∧
      (pa = 0 ∧ h.mb.InMemory 0 ∨ pa ≠ 0 ∧ Kmalloced n zero pa h h') := by
  obtain ⟨mb', pa, h1, h2⟩ := memblockPhysAllocRange_spec (structSize (kmallocBufSize n)) hmb
    (Nat.zero_le _) (Nat.zero_le _) (Nat.zero_le _)
  have hmem : mb'.memory = h.mb.memory := by
    rcases h2 with ⟨-, hg⟩ | ⟨-, ha⟩
    · exact hg.memory
    · exact ha.memory
  obtain ⟨h3, h4, h5⟩ := kmalloc_mem h.mem pa (kmallocBufSize n) zero
  unfold kmalloc
  rw [if_neg hn]
  simp only [h1, hmem]
  split
  · rename_i hnone
    left
    refine ⟨rfl, ?_⟩
    rcases h2 with ⟨rfl, -⟩ | ⟨hpa, ha⟩
    · simp [Memblock.InMemory, hnone]
    · -- an allocated block is memory
      have hin := ha.free.memory pa (Nat.le_refl _) (by rw [ha.structSize_eq, mallocHeaderSize]; omega)
      rw [Memblock.InMemory, hnone] at hin
      cases hin
  · rename_i hsome
    right
    refine ⟨_, pa, rfl, ?_⟩
    rcases h2 with ⟨rfl, -⟩ | ⟨hpa, ha⟩
    · exact .inl ⟨rfl, Option.ne_none_iff_isSome.mp hsome⟩
    · exact .inr ⟨hpa, ha.structSize_eq ▸ ha, h3, h4, h5⟩

theorem kfree_spec {size : Nat} (hmb : h.mb.Wf) (hheader : load64 h.mem pa = BitVec.ofNat 64 size)
    (hps : pageSize ≤ pa) (hle : pa + (mallocHeaderSize + size) ≤ physAddrMax)
    (hheld : ∀ x, pa ≤ x → x < pa + (mallocHeaderSize + size) → h.mb.Held x) :
    ∃ mb' ret, kfree (pa + mallocHeaderSize) h = some ({ h with mb := mb' }, ret) ∧
      (ret = negEnomem ∧ Grows 0 0 h.mb mb' ∨
        ret = 0 ∧ Freed pa (mallocHeaderSize + size) h.mb mb') := by
  have hsize : size < 2 ^ 64 := by
    simp only [physAddrMax] at hle
    omega
  have hstruct : structSize (load64 h.mem pa).toNat = mallocHeaderSize + size := by
    rw [hheader, BitVec.toNat_ofNat, Nat.mod_eq_of_lt hsize, structSize, Nat.min_def, if_pos]
    simp only [physAddrMax] at hle
    omega
  obtain ⟨mb', ret, h1, h2⟩ := memblockPhysFree_spec hmb hps hle fun x hx1 hx2 => (hheld x hx1 hx2).2
  refine ⟨mb', ret, ?_, h2⟩
  unfold kfree
  simp only [Nat.add_sub_cancel, hstruct, h1, Option.map_some]

end QuestOS
