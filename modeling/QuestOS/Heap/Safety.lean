import Mathlib.Data.List.Pairwise
import QuestOS.Heap.Kmalloc
import QuestOS.Lib.Trans

/-!
# Heap safety

The kernel as a client of the allocator: any sequence of `kmalloc`, `kfree`,
`memblock_phys_alloc_range` and `memblock_phys_free` in which every allocation succeeds, with the
owners of the blocks storing into their buffers in between.  The blocks that were handed out and not
yet freed are kept as a list beside the heap.
-/

namespace QuestOS

open Bytes

inductive BlockKind
  | kmalloc | phys
  deriving DecidableEq, Repr

structure Block where
  base : Nat
  size : Nat
  kind : BlockKind
  deriving DecidableEq, Repr

def Block.Has (b : Block) (x : Nat) : Prop := b.base ≤ x ∧ x < b.base + b.size

def Block.Disjoint (b c : Block) : Prop := ∀ x, b.Has x → ¬ c.Has x

theorem Block.Disjoint.symm {b c : Block} (h : b.Disjoint c) : c.Disjoint b := fun x h1 h2 => h x h2 h1

instance : Std.Symm Block.Disjoint := ⟨fun _ _ => Block.Disjoint.symm⟩

def Block.Buffer (b : Block) (x : Nat) : Prop :=
  b.Has x ∧ (b.kind = .kmalloc → b.base + mallocHeaderSize ≤ x)

structure HeapState where
  heap : Heap
  live : List Block

inductive HeapOp
  | kmalloc (n : Nat) (zero : Bool)
  | kfree (ptr : Nat)
  | physAlloc (size align start fin : Nat)
  | physFree (base size : Nat)
  | store (addr : Nat) (byte : UInt8)
  deriving DecidableEq, Repr

inductive HeapStep : HeapState → HeapOp → HeapState → Prop
  | kmalloc {s : HeapState} {h' : Heap} {n pa : Nat} {zero : Bool} : 0 < n → n < 2 ^ 31 →
      kmalloc n zero s.heap = some (h', some (pa + mallocHeaderSize)) → pa ≠ 0 →
      HeapStep s (.kmalloc n zero) ⟨h', ⟨pa, mallocHeaderSize + kmallocBufSize n, .kmalloc⟩ :: s.live⟩
  | kfree {s : HeapState} {h' : Heap} {b : Block} : b ∈ s.live → b.kind = .kmalloc →
      kfree (b.base + mallocHeaderSize) s.heap = some (h', 0) →
      HeapStep s (.kfree (b.base + mallocHeaderSize)) ⟨h', s.live.erase b⟩
  | physAlloc {s : HeapState} {mb' : Memblock} {size align start fin c : Nat} :
      align < 2 ^ 64 → start < 2 ^ 64 → fin < 2 ^ 64 →
      memblockPhysAllocRange size align start fin s.heap.mb = some (mb', c) → c ≠ 0 →
      HeapStep s (.physAlloc size align start fin) ⟨{ s.heap with mb := mb' }, ⟨c, size, .phys⟩ :: s.live⟩
  | physFree {s : HeapState} {mb' : Memblock} {b : Block} : b ∈ s.live → b.kind = .phys →
      memblockPhysFree b.base b.size s.heap.mb = some (mb', 0) →
      HeapStep s (.physFree b.base b.size) ⟨{ s.heap with mb := mb' }, s.live.erase b⟩
  | store {s : HeapState} {b : Block} {addr : Nat} {byte : UInt8} : b ∈ s.live → b.Buffer addr →
      HeapStep s (.store addr byte)
        { s with heap := { s.heap with mem := fill s.heap.mem addr 1 byte } }

def heapSystem (mb₀ : Memblock) : Trans.System HeapState HeapOp where
  init := fun s => s.heap.mb = mb₀ ∧ s.live = []
  step := HeapStep

variable {mb₀ : Memblock} {s s' : HeapState} {b : Block}

structure HeapInv (mb₀ : Memblock) (s : HeapState) : Prop where
  wf : s.heap.mb.Wf
  memory : s.heap.mb.memory = mb₀.memory
  held : ∀ x, s.heap.mb.Held x ↔ mb₀.Held x ∨ ∃ b ∈ s.live, b.Has x
  apart : s.live.Pairwise Block.Disjoint
  fresh : ∀ b ∈ s.live, ∀ x, b.Has x → ¬ mb₀.Held x
  inMemory : ∀ b ∈ s.live, ∀ x, b.Has x → mb₀.InMemory x
  bounds : ∀ b ∈ s.live, pageSize ≤ b.base ∧ b.base + b.size ≤ physAddrMax
  header : ∀ b ∈ s.live, b.kind = .kmalloc → ∃ size, b.size = mallocHeaderSize + size ∧
    load64 s.heap.mem b.base = BitVec.ofNat 64 size

theorem HeapInv.held_live (hI : HeapInv mb₀ s) (hb : b ∈ s.live) {x : Nat} (hx : b.Has x) :
    s.heap.mb.Held x := (hI.held x).mpr (.inr ⟨b, hb, hx⟩)

theorem HeapInv.alloc {h' : Heap} (hI : HeapInv mb₀ s) (ha : Allocated b.base b.size s.heap.mb h'.mb)
    (hframe : ∀ x, ¬ b.Has x → h'.mem x = s.heap.mem x)
    (hheader : b.kind = .kmalloc → ∃ size, b.size = mallocHeaderSize + size ∧
      load64 h'.mem b.base = BitVec.ofNat 64 size) :
    HeapInv mb₀ ⟨h', b :: s.live⟩ := by
  have hfree : ∀ x, b.Has x → ¬ s.heap.mb.Held x := fun x hx hheld =>
    ha.free.not_reserved hx.1 hx.2 hheld.1
  refine ⟨ha.wf, ha.memory.trans hI.memory, fun x => ?_, ?_, ?_, ?_, ?_, ?_⟩
  · simp only [ha.held, hI.held, List.mem_cons, exists_eq_or_imp, or_assoc]
    rw [or_comm (a := b.Has x)]
    rfl
  · exact List.pairwise_cons.mpr ⟨fun c hc x hx hcx => hfree x hx (hI.held_live hc hcx), hI.apart⟩
  · exact List.forall_mem_cons.mpr
      ⟨fun x hx h0 => hfree x hx ((hI.held x).mpr (.inl h0)), hI.fresh⟩
  · refine List.forall_mem_cons.mpr ⟨fun x hx => ?_, hI.inMemory⟩
    have := ha.free.memory x hx.1 hx.2
    rwa [Memblock.InMemory, hI.memory] at this
  · exact List.forall_mem_cons.mpr ⟨⟨ha.ge, ha.free.le_max⟩, hI.bounds⟩
  · refine List.forall_mem_cons.mpr ⟨hheader, fun c hc hk => ?_⟩
    obtain ⟨size, h1, h2⟩ := hI.header c hc hk
    refine ⟨size, h1, (load64_congr fun x hx1 hx2 => ?_).trans h2⟩
    -- the header of another block is held, so it is not part of the new block
    refine hframe x fun hx => hfree x hx (hI.held_live hc ⟨hx1, ?_⟩)
    rw [h1, mallocHeaderSize]
    omega

theorem HeapInv.free {mb' : Memblock} (hI : HeapInv mb₀ s) (hb : b ∈ s.live)
    (hf : Freed b.base b.size s.heap.mb mb') :
    HeapInv mb₀ ⟨{ s.heap with mb := mb' }, s.live.erase b⟩ := by
  have hperm : (b :: s.live.erase b).Perm s.live := (List.perm_cons_erase hb).symm
  have hmem : ∀ c ∈ s.live.erase b, c ∈ s.live := fun c => List.mem_of_mem_erase
  have happ : (b :: s.live.erase b).Pairwise Block.Disjoint :=
    (hperm.pairwise_iff Block.Disjoint.symm).mpr hI.apart
  obtain ⟨hb1, hb2⟩ := List.pairwise_cons.mp happ
  refine ⟨hf.wf, hf.memory.trans hI.memory, fun x => ?_, hb2, fun c hc => hI.fresh c (hmem c hc),
    fun c hc => hI.inMemory c (hmem c hc), fun c hc => hI.bounds c (hmem c hc), fun c hc => hI.header c (hmem c hc)⟩
  rw [hf.held, hI.held]
  constructor
  · rintro ⟨h0 | ⟨c, hc, hx⟩, hnot⟩
    · exact .inl h0
    · rcases List.mem_cons.mp (hperm.mem_iff.mpr hc) with rfl | hc
      · exact absurd hx hnot
      · exact .inr ⟨c, hc, hx⟩
  · rintro (h0 | ⟨c, hc, hx⟩)
    · exact ⟨.inl h0, fun hx => hI.fresh b hb x hx h0⟩
    · exact ⟨.inr ⟨c, hmem c hc, hx⟩, fun hbx => hb1 c hc x hbx hx⟩

/-- Every other live block keeps away from the buffer of a live block, headers included. -/
theorem HeapInv.store {addr : Nat} {byte : UInt8} (hI : HeapInv mb₀ s) (hb : b ∈ s.live) (haddr : b.Buffer addr) :
    HeapInv mb₀ { s with heap := { s.heap with mem := fill s.heap.mem addr 1 byte } } := by
  refine { hI with header := fun c hc hk => ?_ }
  obtain ⟨size, h1, h2⟩ := hI.header c hc hk
  refine ⟨size, h1, (load64_congr fun x hx1 hx2 => fill_of_not ?_).trans h2⟩
  rintro ⟨h3, h4⟩
  obtain rfl : addr = x := by omega
  have hcx : c.Has addr := ⟨hx1, by rw [h1, mallocHeaderSize]; omega⟩
  have hbc : b = c := by
    by_contra hne
    exact hI.apart.forall hb hc hne addr haddr.1 hcx
  subst hbc
  have := haddr.2 hk
  rw [mallocHeaderSize] at this
  omega

theorem HeapInv.step {op : HeapOp} (hI : HeapInv mb₀ s) (hs : HeapStep s op s') : HeapInv mb₀ s' := by
  cases hs with
  | kmalloc h0 h31 hk hpa =>
    rename_i h' n pa zero
    rcases kmalloc_spec zero hI.wf (Nat.pos_iff_ne_zero.mp h0) with ⟨h, -⟩ | ⟨h'', pa', h, hspec⟩
    · rw [h] at hk
      cases hk
    · obtain ⟨rfl, hptr⟩ : h'' = h' ∧ pa' + mallocHeaderSize = pa + mallocHeaderSize := by
        simpa using h.symm.trans hk
      obtain rfl : pa' = pa := by omega
      obtain ⟨-, hm⟩ := hspec.resolve_left fun h => hpa h.1
      exact hI.alloc (b := ⟨pa', _, .kmalloc⟩) hm.alloc hm.frame fun _ => ⟨_, rfl, hm.header⟩
  | kfree hb hkind hk =>
    rename_i h' b
    obtain ⟨size, h1, h2⟩ := hI.header b hb hkind
    obtain ⟨hge, hle⟩ := hI.bounds b hb
    obtain ⟨mb', ret, h3, h4⟩ := kfree_spec hI.wf h2 hge (h1 ▸ hle) fun x hx1 hx2 =>
      hI.held_live hb ⟨hx1, h1 ▸ hx2⟩
    obtain ⟨rfl, rfl⟩ : { s.heap with mb := mb' } = h' ∧ ret = 0 := by
      simpa using h3.symm.trans hk
    rcases h4 with ⟨h, -⟩ | ⟨-, hf⟩
    · cases h
    · exact hI.free hb (h1 ▸ hf)
  | physAlloc ha hs hf hk hc =>
    rename_i mb' size align start fin c
    have h64 : physAddrMax = 2 ^ 64 - 1 := rfl
    obtain ⟨mb'', c', h1, h2⟩ := memblockPhysAllocRange_spec size hI.wf (Nat.le_of_lt ha)
      (show start ≤ physAddrMax by omega) (show fin ≤ physAddrMax by omega)
    obtain ⟨rfl, rfl⟩ : mb'' = mb' ∧ c' = c := by simpa using h1.symm.trans hk
    obtain ⟨-, ha⟩ := h2.resolve_left fun h => hc h.1
    have hnew : HeapInv mb₀ ⟨{ s.heap with mb := mb'' }, ⟨c', size, .phys⟩ :: s.live⟩ := hI.alloc ha (fun _ _ => rfl) nofun
    exact hnew
  | physFree hb hkind hk =>
    rename_i mb' b
    obtain ⟨hge, hle⟩ := hI.bounds b hb
    obtain ⟨mb'', ret, h1, h2⟩ := memblockPhysFree_spec hI.wf hge hle fun x hx1 hx2 =>
      (hI.held_live hb ⟨hx1, hx2⟩).2
    obtain ⟨rfl, rfl⟩ : mb'' = mb' ∧ ret = 0 := by simpa using h1.symm.trans hk
    rcases h2 with ⟨h, -⟩ | ⟨-, hf⟩
    · cases h
    · exact hI.free hb hf
  | store hb haddr => exact hI.store hb haddr

theorem HeapInv.of_reachable (h₀ : mb₀.Wf) (hs : (heapSystem mb₀).Reachable s) : HeapInv mb₀ s := by
  refine hs.induction (fun s hinit => ?_) fun s op s' _ hI hstep => hI.step hstep
  obtain ⟨rfl, hlive⟩ := hinit
  exact ⟨h₀, rfl, by simp [hlive], by simp [hlive], by simp [hlive], by simp [hlive], by simp [hlive],
    by simp [hlive]⟩

/-- In every run the live blocks and the array of reserved regions are pairwise disjoint pieces of
memory that was not reserved at the start, and with nothing live the reserved addresses are those of
the start and the array.  `mb₀.Held` is everything that is reserved at the start but the array, so
everything when the array is the static one. -/
theorem heap_safety (h₀ : mb₀.Wf) (hs : (heapSystem mb₀).Reachable s) :
    s.live.Pairwise Block.Disjoint ∧
    (∀ b ∈ s.live, ∀ x, b.Has x → mb₀.InMemory x ∧ ¬ mb₀.Held x ∧ ¬ s.heap.mb.InArray x) ∧
    (∀ x, s.heap.mb.InArray x → mb₀.InMemory x ∧ ¬ mb₀.Held x) ∧
    (s.live = [] → ∀ x, s.heap.mb.Reserved x ↔ mb₀.Held x ∨ s.heap.mb.InArray x) := by
  have hI := HeapInv.of_reachable h₀ hs
  refine ⟨hI.apart, fun b hb x hx => ⟨hI.inMemory b hb x hx, hI.fresh b hb x hx, (hI.held_live hb hx).2⟩,
    fun x hx => ⟨?_, fun h => ((hI.held x).mpr (.inl h)).2 hx⟩, fun hnil x => ?_⟩
  · have := (hI.wf.array x hx).2
    rwa [Memblock.InMemory, hI.memory] at this
  · by_cases hx : s.heap.mb.InArray x
    · exact ⟨fun _ => .inr hx, fun _ => (hI.wf.array x hx).1⟩
    · have := hI.held x
      simp only [hnil, List.not_mem_nil, false_and, exists_false, or_false] at this
      rw [← this]
      exact ⟨fun h => .inl ⟨h, hx⟩, fun h => (h.resolve_right hx).1⟩

def virtMemblock : Memblock where
  bottomUp := false
  currentLimit := physAddrMax
  memory := ⟨[⟨0x40000000, 0x10000000, ⟨0, 0⟩⟩], 128, 0x10000000, none⟩
  reserved := ⟨[⟨0x40000000, 0x200000, ⟨0, 0⟩⟩], 128, 0x200000, none⟩

theorem virtMemblock_wf : virtMemblock.Wf where
  reserved := ⟨⟨by decide, by decide, trivial⟩, by decide, by decide, by decide⟩
  limit := Nat.le_refl _
  array := by
    rintro x ⟨a, ha, -⟩
    cases ha

private def virtAllocated : Memblock :=
  { virtMemblock with
    reserved := ⟨[⟨0x40000000, 0x200000, ⟨0, 0⟩⟩, ⟨0x4ffffec0, 272, ⟨memblockRsrvKern, numaNoNode⟩⟩], 128,
      0x200110, none⟩ }

private def virtMem : Mem :=
  fill (store64 (fun _ => 0) 0x4ffffec0 (BitVec.ofNat 64 256)) (0x4ffffec0 + mallocHeaderSize) 256 0

private theorem kmallocBufSize_hundred : kmallocBufSize 100 = 256 := by decide +kernel

private theorem kmalloc_virt : kmalloc 100 true ⟨virtMemblock, fun _ => 0⟩ =
    some (⟨virtAllocated, virtMem⟩, some (0x4ffffec0 + mallocHeaderSize)) := by
  have halloc : memblockPhysAllocRange (structSize 256) 0 0 0 virtMemblock = some (virtAllocated, 0x4ffffec0) := by
    decide +kernel
  have hmem : Regions.lookup virtAllocated.memory.regions 0x4ffffec0 ≠ none := by decide +kernel
  unfold kmalloc
  rw [if_neg (by decide)]
  simp only [kmallocBufSize_hundred, halloc, if_neg hmem, if_true]
  rfl

private theorem kfree_virt : kfree (0x4ffffec0 + mallocHeaderSize) ⟨virtAllocated, virtMem⟩ =
    some (⟨virtMemblock, virtMem⟩, 0) := by
  have hheader : load64 virtMem 0x4ffffec0 = BitVec.ofNat 64 256 := by decide +kernel
  have hfree : memblockPhysFree 0x4ffffec0 (structSize (BitVec.ofNat 64 256).toNat) virtAllocated =
      some (virtMemblock, 0) := by decide +kernel
  unfold kfree
  simp only [Nat.add_sub_cancel, hheader, hfree, Option.map_some]

/-- A `kmalloc` and the `kfree` of its pointer. -/
theorem heap_safety_kmalloc_kfree :
    ∃ s, (heapSystem virtMemblock).Reachable s ∧ s.live = [] ∧
      ∀ x, s.heap.mb.Reserved x ↔ virtMemblock.Held x ∨ s.heap.mb.InArray x := by
  have h0 : (heapSystem virtMemblock).Reachable ⟨⟨virtMemblock, fun _ => 0⟩, []⟩ := .of_init ⟨rfl, rfl⟩
  have h1 := h0.step (.kmalloc (by decide) (by decide) kmalloc_virt (by decide))
  have h2 := h1.step (.kfree (List.mem_cons_self ..) rfl kfree_virt)
  have hnil : ([⟨0x4ffffec0, mallocHeaderSize + kmallocBufSize 100, .kmalloc⟩] : List Block).erase
      ⟨0x4ffffec0, mallocHeaderSize + kmallocBufSize 100, .kmalloc⟩ = [] := List.erase_cons_head _ _
  exact ⟨_, h2, hnil, (heap_safety virtMemblock_wf h2).2.2.2 hnil⟩

/-- In every state that a run reaches, allocations return, and so do `kfree` and `memblock_phys_free` for live blocks: no
`BUG_ON` is met. -/
theorem heap_calls_return (h₀ : mb₀.Wf) (hs : (heapSystem mb₀).Reachable s) :
    (∀ size align start fin, align < 2 ^ 64 → start < 2 ^ 64 → fin < 2 ^ 64 →
      (memblockPhysAllocRange size align start fin s.heap.mb).isSome) ∧
    (∀ b ∈ s.live, b.kind = .kmalloc → (kfree (b.base + mallocHeaderSize) s.heap).isSome) ∧
    (∀ b ∈ s.live, b.kind = .phys → (memblockPhysFree b.base b.size s.heap.mb).isSome) := by
  have hI := HeapInv.of_reachable h₀ hs
  refine ⟨fun size align start fin ha hst hf => ?_, fun b hb hk => ?_, fun b hb _ => ?_⟩
  · have h64 : physAddrMax = 2 ^ 64 - 1 := rfl
    obtain ⟨mb', c, h1, -⟩ := memblockPhysAllocRange_spec size hI.wf (Nat.le_of_lt ha)
      (show start ≤ physAddrMax by omega) (show fin ≤ physAddrMax by omega)
    rw [h1]
    rfl
  · obtain ⟨size, h1, h2⟩ := hI.header b hb hk
    obtain ⟨hge, hle⟩ := hI.bounds b hb
    obtain ⟨mb', ret, h3, -⟩ := kfree_spec hI.wf h2 hge (h1 ▸ hle) fun x hx1 hx2 =>
      hI.held_live hb ⟨hx1, h1 ▸ hx2⟩
    rw [h3]
    rfl
  · obtain ⟨hge, hle⟩ := hI.bounds b hb
    obtain ⟨mb', ret, h1, -⟩ := memblockPhysFree_spec hI.wf hge hle fun x hx1 hx2 =>
      (hI.held_live hb ⟨hx1, hx2⟩).2
    rw [h1]
    rfl

theorem heap_calls_return_kmalloc : ∃ s : HeapState, s.live.length = 1 ∧
    ∀ b ∈ s.live, b.kind = .kmalloc → (kfree (b.base + mallocHeaderSize) s.heap).isSome := by
  have h0 : (heapSystem virtMemblock).Reachable ⟨⟨virtMemblock, fun _ => 0⟩, []⟩ := .of_init ⟨rfl, rfl⟩
  have h1 := h0.step (.kmalloc (by decide) (by decide) kmalloc_virt (by decide))
  exact ⟨_, rfl, (heap_calls_return virtMemblock_wf h1).2.1⟩

end QuestOS
