import QuestOS.Mmu.VmapPte

/-!
# The tables of a mapping and where they come from

A new table is a zeroed page inside a `kmalloc` buffer, so that it is memory nobody held before and
that the allocator holds from then on.  `Vmapped` is what a function of the walk does to the
translation and to the heap; it goes from the table that an entry points to up to the table of the entry.
-/

namespace QuestOS

open Bytes PageTable

namespace VmState

variable {s s₁ s' : VmState} {x : Nat}

def Loose (s : VmState) (x : Nat) : Prop := s.heap.mb.InMemory x ∧ ¬ s.heap.mb.Held x

/-- The allocator's data are well formed; memory has 48-bit addresses and does not begin at 0, where
the linear map is empty. -/
structure Ok (s : VmState) : Prop where
  wf : s.heap.mb.Wf
  zero : ¬ s.heap.mb.InMemory 0
  lt : ∀ x, s.heap.mb.InMemory x → x < 2 ^ 48

structure Grows (s s' : VmState) : Prop where
  ok : s'.Ok
  memory : s'.heap.mb.memory = s.heap.mb.memory
  held : ∀ x, s.heap.mb.Held x → s'.heap.mb.Held x

theorem Grows.refl (h : s.Ok) : Grows s s := ⟨h, rfl, fun _ hx => hx⟩

theorem Grows.trans (h : Grows s s₁) (h' : Grows s₁ s') : Grows s s' :=
  ⟨h'.ok, h'.memory.trans h.memory, fun x hx => h'.held x (h.held x hx)⟩

theorem Grows.loose (h : Grows s s') (hx : s'.Loose x) : s.Loose x := by
  refine ⟨?_, fun hh => hx.2 (h.held x hh)⟩
  have := hx.1
  rwa [Memblock.InMemory, h.memory] at this

def Taken (s s' : VmState) (x : Nat) : Prop := s.Loose x ∧ s'.heap.mb.Held x

theorem Grows.taken_left (h : Grows s₁ s') (hx : s.Taken s₁ x) : s.Taken s' x := ⟨hx.1, h.held x hx.2⟩

theorem Grows.taken_right (h : Grows s s₁) (hx : s₁.Taken s' x) : s.Taken s' x := ⟨h.loose hx.1, hx.2⟩

@[simp] theorem mem_setMem (s : VmState) (m : Mem) : (s.setMem m).mem = m := rfl

theorem Grows.setMem (h : s.Ok) (m : Mem) : Grows s (s.setMem m) := ⟨⟨h.wf, h.zero, h.lt⟩, rfl, fun _ hx => hx⟩

theorem Ok.kmalloc_cases (h : s.Ok) {n : Nat} (hn : n ≠ 0) (zero : Bool) :
    kmalloc n zero s.heap = none ∨
      ∃ h' pa, kmalloc n zero s.heap = some (h', some (pa + mallocHeaderSize)) ∧ Kmalloced n zero pa s.heap h' := by
  rcases kmalloc_spec zero h.wf hn with ⟨h1, -⟩ | ⟨h', pa, h1, h2⟩
  · exact .inl h1
  · rcases h2 with ⟨-, h3⟩ | ⟨-, h3⟩
    · exact absurd h3 h.zero
    · exact .inr ⟨h', pa, h1, h3⟩

end VmState

variable {s s₁ s' : VmState} {h h' : Heap} {n pa x : Nat} {zero : Bool}

theorem Kmalloced.loose (hk : Kmalloced n zero pa h h') (h1 : pa ≤ x)
    (h2 : x < pa + (mallocHeaderSize + kmallocBufSize n)) : h.mb.InMemory x ∧ ¬ h.mb.Held x :=
  ⟨hk.alloc.free.memory x h1 h2, fun hh => hk.alloc.free.not_reserved h1 h2 hh.1⟩

theorem Kmalloced.held (hk : Kmalloced n zero pa h h') (h1 : pa ≤ x)
    (h2 : x < pa + (mallocHeaderSize + kmallocBufSize n)) : h'.mb.Held x := (hk.alloc.held x).mpr (.inr ⟨h1, h2⟩)

theorem Kmalloced.grows {p p' : Nat} (hk : Kmalloced n zero pa h h') (hok : (⟨h, p⟩ : VmState).Ok) :
    VmState.Grows ⟨h, p⟩ ⟨h', p'⟩ where
  ok := by
    have hm : ∀ x, h'.mb.InMemory x ↔ h.mb.InMemory x := fun x => by
      rw [Memblock.InMemory, Memblock.InMemory, hk.alloc.memory]
    exact ⟨hk.alloc.wf, fun h0 => hok.zero ((hm 0).mp h0), fun x hx => hok.lt x ((hm x).mp hx)⟩
  memory := hk.alloc.memory
  held := fun x hx => (hk.alloc.held x).mpr (.inl hx)

structure NewTable (s : VmState) (c : Nat) (s' : VmState) : Prop where
  grows : s.Grows s'
  aligned : c % 4096 = 0
  loose : ∀ x, pageOf x = c → s.Loose x
  held : ∀ x, pageOf x = c → s'.heap.mb.Held x
  zero : ∀ x, pageOf x = c → s'.mem x = 0
  frame : ∀ x, ¬ s.Taken s' x → s'.mem x = s.mem x

theorem NewTable.lt {c : Nat} (h : NewTable s c s') : c < 2 ^ 48 := by
  have hl := h.loose c (pageOf_of_aligned h.aligned)
  have hm := hl.1
  rw [Memblock.InMemory, ← h.grows.memory] at hm
  exact h.grows.ok.lt c hm

theorem kmallocBufSize_page : kmallocBufSize 4096 = 8192 := by decide +kernel

theorem kmallocBufSize_record : kmallocBufSize pgtableMemSize = 32 := by decide +kernel

theorem mmRecordPgtable_spec (hok : s.Ok) (table : Nat) :
    mmRecordPgtable table s = none ∨ ∃ s', mmRecordPgtable table s = some (s', 0) ∧ s.Grows s' ∧
      ∀ x, ¬ s.Taken s' x → s'.mem x = s.mem x := by
  rcases hok.kmalloc_cases (n := pgtableMemSize) (by decide) false with h1 | ⟨h', pa, h1, h2⟩
  · left
    rw [mmRecordPgtable, h1]
  · right
    have hg : s.Grows ⟨h', pa + mallocHeaderSize⟩ := h2.grows hok
    refine ⟨⟨⟨h'.mb, store64 (store64 h'.mem (pa + mallocHeaderSize) (BitVec.ofNat 64 table))
      (pa + mallocHeaderSize + 8) (BitVec.ofNat 64 s.pgtableMem)⟩, pa + mallocHeaderSize⟩,
      by rw [mmRecordPgtable, h1], ⟨⟨hg.ok.wf, hg.ok.zero, hg.ok.lt⟩, hg.memory, hg.held⟩, fun x hx => ?_⟩
    have hout : ¬ (pa ≤ x ∧ x < pa + (mallocHeaderSize + 32)) := by
      rintro ⟨h3, h4⟩
      rw [← kmallocBufSize_record] at h4
      exact hx ⟨h2.loose h3 h4, h2.held h3 h4⟩
    have h16 : mallocHeaderSize = 16 := rfl
    have hframe := h2.frame x (by rw [kmallocBufSize_record]; exact hout)
    change store64 (store64 h'.mem (pa + mallocHeaderSize) _) (pa + mallocHeaderSize + 8) _ x = s.heap.mem x
    rw [store64_of_not (by omega), store64_of_not (by omega), hframe]

theorem tableAllocOne_spec (hok : s.Ok) :
    tableAllocOne s = none ∨ ∃ s' c, tableAllocOne s = some (s', some c) ∧ NewTable s c s' := by
  rcases hok.kmalloc_cases (n := 4096) (by decide) true with h1 | ⟨h', pa, h1, h2⟩
  · left
    rw [tableAllocOne, h1]
  have hg : s.Grows { s with heap := h' } := h2.grows hok
  rcases mmRecordPgtable_spec hg.ok (pa + mallocHeaderSize) with h3 | ⟨s', h3, hg', hframe⟩
  · left
    rw [tableAllocOne, h1]
    simp only [h3]
  right
  have h16 : mallocHeaderSize = 16 := rfl
  have hbuf := kmallocBufSize_page
  generalize hc : (if (pa + mallocHeaderSize) % 4096 = 0 then pa + mallocHeaderSize
    else alignUp (pa + mallocHeaderSize) 4096) = c
  have hmax : pa + (16 + 8192) ≤ 2 ^ 64 - 1 := by
    have hle := h2.alloc.free.le_max
    rwa [hbuf, h16] at hle
  have hcpos : c % 4096 = 0 ∧ pa + 16 ≤ c ∧ c < pa + 16 + 4096 := by
    rw [← hc]
    split
    · omega
    · rw [show (4096 : Nat) = 2 ^ 12 from rfl, alignUp_eq]
      omega
  -- the page is part of the buffer
  have hin : ∀ x, pageOf x = c → pa ≤ x ∧ x < pa + (mallocHeaderSize + kmallocBufSize 4096) ∧
      pa + mallocHeaderSize ≤ x := by
    intro x hx
    unfold pageOf at hx
    omega
  refine ⟨s', c, ?_, hg.trans hg', hcpos.1, fun x hx => ?_, fun x hx => ?_, fun x hx => ?_, fun x hx => ?_⟩
  · rw [tableAllocOne, h1]
    simp only [h3, hc, ne_eq, not_true_eq_false, if_false]
  · exact h2.loose (hin x hx).1 (hin x hx).2.1
  · exact hg'.held x (h2.held (hin x hx).1 (hin x hx).2.1)
  · have hheld : h'.mb.Held x := h2.held (hin x hx).1 (hin x hx).2.1
    rw [hframe x fun hl => hl.1.2 hheld]
    exact h2.zeroed rfl x (hin x hx).2.2 (by have := (hin x hx).2.1; omega)
  · rw [hframe x fun hl => hx (hg.taken_right hl)]
    exact h2.frame x fun h4 => hx ⟨h2.loose h4.1 h4.2, hg'.held x (h2.held h4.1 h4.2)⟩

namespace VmapRequest

variable {r : VmapRequest} {k t c a b va fin y : Nat} {m m' : Mem}

def UsesBlock (r : VmapRequest) (k x : Nat) : Prop :=
  (k = 1 ∨ k = 2) ∧ r.va ≤ spanStart k x ∧ spanEnd k x ≤ r.vaEnd ∧ r.va % span k = r.phys % span k

def Ready (r : VmapRequest) (m : Mem) : (k t x : Nat) → Prop
  | 0, _, _ => True
  | k + 1, t, x => slot m t (index (k + 1) x) = 0 ∨ ¬ r.UsesBlock (k + 1) x ∧
      isTable (slot m t (index (k + 1) x)) = true ∧ slot m t (index (k + 1) x) &&& 3#64 <<< 48 = 0 ∧
      r.Ready m k (outAddr (slot m t (index (k + 1) x))) x

theorem ready_of_path {t' : Nat} (h : path m' k t' x = path m k t x) : r.Ready m' k t' x ↔ r.Ready m k t x := by
  induction k generalizing t t' with
  | zero => exact Iff.rfl
  | succ k ih =>
    simp only [path, List.cons.injEq, Prod.mk.injEq] at h
    obtain ⟨⟨-, he⟩, hrest⟩ := h
    rw [Ready, Ready, he]
    refine or_congr_right (and_congr_right fun _ => and_congr_right fun htab => and_congr_right fun _ => ?_)
    rw [he, if_pos htab, if_pos htab] at hrest
    exact ih hrest

def TablesHeld (s : VmState) (k t : Nat) : Prop := ∀ x, Foot s.mem k t (pageOf x) → ¬ s.Loose x

/-- `__pte_to_phys` and the hardware see the same address in the entry of a table. -/
def LowEntry (e : Entry) : Prop := e &&& 3#64 <<< 48 = 0

structure Vmapped (r : VmapRequest) (k t a b : Nat) (s s' : VmState) : Prop where
  grows : s.Grows s'
  maps : Maps norm k t a b r.leaf (s.Taken s') s.mem s'.mem
  tidy : Tidy LowEntry s.mem k t → Tidy LowEntry s'.mem k t

theorem Vmapped.walk_ne_none (h : r.Vmapped k t a b s s') (hab : a < b) : walk s'.mem k t a ≠ none := by
  intro hnone
  have h1 := h.maps.walk a rfl
  rw [hnone, if_pos ⟨Nat.le_refl a, hab⟩] at h1
  cases h1

theorem Vmapped.tablesHeld (h : r.Vmapped k t a b s s') (ht : TablesHeld s k t) : TablesHeld s' k t := by
  intro x hx hl
  rcases h.maps.foot _ hx with h1 | h1
  · exact ht x h1 (h.grows.loose hl)
  · exact hl.2 (h1 x rfl).2

theorem Vmapped.trans (h : r.Vmapped k t a b s s₁) (h' : r.Vmapped k t b c s₁ s') (hab : a ≤ b) (hbc : b ≤ c)
    (hreg : b / span (k + 1) = a / span (k + 1)) : r.Vmapped k t a c s s' where
  grows := h.grows.trans h'.grows
  maps := (h.maps.mono fun _ hx => h'.grows.taken_left hx).trans
    (h'.maps.mono fun _ hx => h.grows.taken_right hx) hab hbc hreg
  tidy := fun ht => h'.tidy (h.tidy ht)

theorem Vmapped.child (h : r.Vmapped k (outAddr (slot s.mem t (index (k + 1) a))) a b s s')
    (ht : Tree s.mem (k + 1) t) (hheld : TablesHeld s (k + 1) t)
    (he : isTable (slot s.mem t (index (k + 1) a)) = true) (hab : a < b) (hb : b ≤ spanEnd (k + 1) a) :
    r.Vmapped (k + 1) t a b s s' := by
  have hmaps := Maps.child ht he hab hb (fun x hx hf => hheld x hf hx.1) h.maps
  refine ⟨h.grows, hmaps, fun htidy => hmaps.tidy hb htidy ?_⟩
  have hidx := index_lt (k + 1) a
  have hslot : slot s'.mem t (index (k + 1) a) = slot s.mem t (index (k + 1) a) :=
    slot_congr ht.aligned hidx fun x hx => h.maps.frame x (by rw [hx]; exact (ht.2.1 _ hidx he).2) fun hl =>
      hheld x (by rw [hx]; exact foot_self ..) hl.1
  rw [hslot]
  rcases htidy _ hidx with h1 | h1 | ⟨h1, h2, h3, -⟩
  · rw [h1] at he
    cases he
  · rw [h1.1] at he
    cases he
  · exact .inr (.inr ⟨h1, h2, h.tidy h3, a, h.walk_ne_none hab⟩)

theorem TablesHeld.not_loose (hheld : TablesHeld s k t) (hx : pageOf x = t) : ¬ s.Loose x :=
  hheld x (by rw [hx]; exact foot_self ..)

variable {e : Entry}

theorem NewTable.zero_linked (hnew : NewTable s c s₁) (ht : Tree s.mem (k + 1) t)
    (hheld : TablesHeld s (k + 1) t) (hx : pageOf x = c) : store64 s₁.mem (t + 8 * index (k + 1) a) e x = 0 := by
  have hxt : pageOf x ≠ t := fun hxt => hheld.not_loose hxt (hnew.loose x hx)
  rw [store64_slot_frame ht.aligned (index_lt (k + 1) a) hxt]
  exact hnew.zero x hx

/-- The translation after a new table was linked to an empty entry and a change was made below it. -/
theorem NewTable.maps_link {g : Leaf → Leaf} {f : Nat → Option Leaf} (hnew : NewTable s c s₁)
    (hg : (s₁.setMem (store64 s₁.mem (t + 8 * index (k + 1) a) e)).Grows s')
    (h : Maps g k c a b f ((s₁.setMem (store64 s₁.mem (t + 8 * index (k + 1) a) e)).Taken s')
      (store64 s₁.mem (t + 8 * index (k + 1) a) e) s'.mem)
    (ht : Tree s.mem (k + 1) t) (hheld : TablesHeld s (k + 1) t) (he : slot s.mem t (index (k + 1) a) = 0)
    (htab : isTable e = true) (hout : outAddr e = c) (hab : a < b) (hb : b ≤ spanEnd (k + 1) a) :
    Maps g (k + 1) t a b f (s.Taken s') s.mem s'.mem := by
  have hidx := index_lt (k + 1) a
  have hg₁ : s.Grows (s₁.setMem (store64 s₁.mem (t + 8 * index (k + 1) a) e)) :=
    hnew.grows.trans (.setMem hnew.grows.ok _)
  refine Maps.link (e := e) ht (by rw [he]; rfl) hab hb (fun x hx hf => hheld x hf hx.1) (fun j hj hne => ?_)
    (slot_store64 s₁.mem t (index (k + 1) a) e) htab ?_ ?_ ?_ ?_ ?_
  · refine (slot_store64_of_ne hne).trans (slot_congr ht.aligned hj fun x hx => ?_)
    exact hnew.frame x fun hl => hheld.not_loose hx hl.1
  · rw [hout]
    exact hnew.aligned
  · rw [hout]
    exact fun x hx => ⟨hnew.loose x hx, hg.held x (hnew.held x hx)⟩
  · rw [hout]
    exact fun x hx => NewTable.zero_linked hnew ht hheld hx
  · intro x hx1 hx2
    rw [store64_slot_frame ht.aligned hidx hx1]
    exact hnew.frame x fun hl => hx2 ⟨hl.1, hg.held x hl.2⟩
  · rw [hout]
    exact h.mono fun x hx => hg₁.taken_right hx

theorem Vmapped.link (hnew : NewTable s c s₁)
    (h : r.Vmapped k c a b (s₁.setMem (store64 s₁.mem (t + 8 * index (k + 1) a) e)) s')
    (ht : Tree s.mem (k + 1) t) (hheld : TablesHeld s (k + 1) t) (he : slot s.mem t (index (k + 1) a) = 0)
    (htab : isTable e = true) (hout : outAddr e = c) (hlow : LowEntry e) (hab : a < b) (hb : b ≤ spanEnd (k + 1) a) :
    r.Vmapped (k + 1) t a b s s' := by
  have hidx := index_lt (k + 1) a
  have hg₁ : s.Grows (s₁.setMem (store64 s₁.mem (t + 8 * index (k + 1) a) e)) :=
    hnew.grows.trans (.setMem hnew.grows.ok _)
  have hzero : ∀ x, pageOf x = c → store64 s₁.mem (t + 8 * index (k + 1) a) e x = 0 := fun x hx =>
    NewTable.zero_linked hnew ht hheld hx
  have hmaps := NewTable.maps_link hnew h.grows h.maps ht hheld he htab hout hab hb
  refine ⟨hg₁.trans h.grows, hmaps, fun htidy => hmaps.tidy hb htidy ?_⟩
  obtain ⟨-, hfoot, -⟩ := zero_table hnew.aligned hzero k
  have hslot : slot s'.mem t (index (k + 1) a) = e := by
    rw [← slot_store64 s₁.mem t (index (k + 1) a) e]
    refine slot_congr ht.aligned hidx fun x hx => h.maps.frame x (fun hf => ?_) fun hl => ?_
    · exact hheld.not_loose hx (hnew.loose x ((hfoot _).mp hf))
    · exact hheld.not_loose hx (hg₁.loose hl.1)
  rw [hslot]
  refine .inr (.inr ⟨htab, hlow, ?_, a, ?_⟩)
  · rw [hout]
    exact h.tidy (tidy_zero hnew.aligned hzero k)
  · rw [hout]
    exact h.walk_ne_none hab

structure Entered (r : VmapRequest) (k t va fin : Nat) (s s₁ : VmState) (c : Nat) : Prop where
  ok : s₁.Ok
  tree : Tree s₁.mem k c
  held : TablesHeld s₁ k c
  ready : ∀ x, va ≤ x → x < fin → r.Ready s₁.mem k c x
  fold : r.FoldSafe s₁.mem k c va
  lift : ∀ s', r.Vmapped k c va fin s₁ s' → r.Vmapped (k + 1) t va fin s s'

theorem spanStart_of_group (hk : 0 < k) (h : y / contPteSize = va / contPteSize) : y / span k = va / span k := by
  have hspan : ∃ q, span k = contPteSize * q := by
    refine ⟨2 ^ (9 * k - 4), ?_⟩
    rw [span, show contPteSize = 2 ^ 16 from rfl, ← Nat.pow_add]
    congr 1
    omega
  obtain ⟨q, hq⟩ := hspan
  rw [hq, ← Nat.div_div_eq_div_mul, ← Nat.div_div_eq_div_mul, h]

theorem pteToPhys_eq (h : e &&& 3#64 <<< 48 = 0) : pteToPhys e = outAddr e := by
  have hmask : pteAddrLow = addrMask ||| 3#64 <<< 48 := by decide
  rw [pteToPhys, outAddr, hmask, BitVec.and_or_distrib_left, h]
  exact congrArg BitVec.toNat BitVec.or_zero

theorem tableEntry {prot : Entry} (hprot : PageProt prot) (hc : c % 4096 = 0) (hlt : c < 2 ^ 48) :
    isTable (BitVec.ofNat 64 c ||| prot) = true ∧ outAddr (BitVec.ofNat 64 c ||| prot) = c ∧
      pteToPhys (BitVec.ofNat 64 c ||| prot) = c ∧ LowEntry (BitVec.ofNat 64 c ||| prot) := by
  have hpfn : c / 4096 * 4096 = c := by omega
  have hn : c / 4096 < 2 ^ 36 := by omega
  have hf := hprot.noAddr.fields hn
  have heq : BitVec.ofNat 64 c ||| prot = pfnPte (c / 4096) prot := by rw [pfnPte, hpfn]
  rw [heq]
  refine ⟨?_, ?_, (pteToPhys_pfnPte (frame_lt hn) hprot.noAddr).trans hpfn, ?_⟩
  · rw [pfnPte_eq_desc, hf.isTable, hprot.type]
    rfl
  · rw [pfnPte_eq_desc, hf.outAddr, hpfn]
  · apply BitVec.eq_of_getLsbD_eq
    intro i hi
    have hbit : ∀ i < 64, (3#64 <<< 48).getLsbD i = (decide (48 ≤ i) && decide (i < 50)) := by decide
    rw [BitVec.getLsbD_and, hbit i hi]
    by_cases h : 48 ≤ i ∧ i < 50
    · have haddr : (c / 4096 * 4096).testBit i = false := testBit_addr (Nat.mul_mod_left ..) (by omega) (.inr h.1)
      rw [pfnPte, BitVec.getLsbD_or, BitVec.getLsbD_ofNat, haddr, hprot.noAddr.bit (by omega) h.2]
      simp
    · have : (decide (48 ≤ i) && decide (i < 50)) = false := by simpa using h
      rw [this, Bool.and_false]
      simp

theorem NewTable.entered (hnew : NewTable s c s₁) (ht : Tree s.mem (k + 1) t)
    (hheld : TablesHeld s (k + 1) t) (he : slot s.mem t (index (k + 1) va) = 0)
    (htab : isTable e = true) (hout : outAddr e = c) (hlow : LowEntry e) (hlt : va < fin)
    (hfin : fin ≤ spanEnd (k + 1) va) :
    r.Entered k t va fin s (s₁.setMem (store64 s₁.mem (t + 8 * index (k + 1) va) e)) c := by
  have hzero : ∀ x, pageOf x = c → store64 s₁.mem (t + 8 * index (k + 1) va) e x = 0 := fun x hx =>
    NewTable.zero_linked hnew ht hheld hx
  obtain ⟨htree, hfoot, hwalk⟩ := zero_table hnew.aligned hzero k
  refine ⟨(VmState.Grows.setMem hnew.grows.ok _).ok, htree, fun x hx hl => ?_, fun x _ _ => ?_, fun y _ _ l hl => ?_,
    fun s' h => h.link hnew ht hheld he htab hout hlow hlt hfin⟩
  · exact hl.2 (hnew.held x ((hfoot _).mp hx))
  · cases k with
    | zero => trivial
    | succ k =>
      exact .inl (load64_zero fun y hy1 hy2 => hzero y (pageOf_slot hnew.aligned (index_lt _ _) hy1 hy2))
  · rw [VmState.mem_setMem, hwalk y] at hl
    cases hl

theorem tableAllocTrack_spec {prot : Entry} (hprot : PageProt prot) (hok : s.Ok) (ht : Tree s.mem (k + 1) t)
    (hheld : TablesHeld s (k + 1) t) (hlt : va < fin) (hfin : fin ≤ spanEnd (k + 1) va)
    (hready : ∀ x, va ≤ x → x < fin → r.Ready s.mem (k + 1) t x) (hfold : r.FoldSafe s.mem (k + 1) t va) :
    tableAllocTrack prot (t + 8 * index (k + 1) va) s = none ∨
      ∃ s₁ c, tableAllocTrack prot (t + 8 * index (k + 1) va) s = some (s₁, some c) ∧
        r.Entered k t va fin s s₁ c := by
  have hidx := index_lt (k + 1) va
  have hslotx : ∀ x, va ≤ x → x < fin → index (k + 1) x = index (k + 1) va := by
    intro x h1 h2
    have := spanStart_le (k + 1) va
    exact index_of_div_span (spanStart_of_mem (by omega) (by omega))
  have hload : load64 s.mem (t + 8 * index (k + 1) va) = slot s.mem t (index (k + 1) va) := rfl
  unfold tableAllocTrack
  rw [hload]
  by_cases he : slot s.mem t (index (k + 1) va) = 0
  · simp only [if_pos he]
    rcases tableAllocOne_spec hok with h1 | ⟨s₁, c, h1, hnew⟩
    · left
      simp only [h1]
    · right
      obtain ⟨htab, hout, hphys, hlow⟩ := tableEntry hprot hnew.aligned hnew.lt
      refine ⟨_, c, ?_, NewTable.entered hnew ht hheld he htab hout hlow hlt hfin⟩
      simp only [h1, VmState.mem_setMem, load64_store64, hphys]
  · right
    simp only [if_neg he]
    have hva := (hready va (Nat.le_refl _) hlt).resolve_left he
    obtain ⟨-, htab, hbits, -⟩ := hva
    have hchild := ht.2.1 _ hidx htab
    refine ⟨s, _, rfl, ?_⟩
    rw [pteToPhys_eq hbits]
    refine ⟨hok, hchild.1, fun x hx => hheld x (Foot.child hidx htab hx), fun x h1 h2 => ?_, fun y hy hlt' l hl => ?_,
      fun s' h => h.child ht hheld htab hlt hfin⟩
    · have hx := hready x h1 h2
      rw [Ready, hslotx x h1 h2] at hx
      exact (hx.resolve_left he).2.2.2
    · have hidxy := index_of_div_span (spanStart_of_group (k := k + 1) (Nat.succ_pos k) hy)
      refine hfold y hy hlt' l ?_
      rw [walk_of_table (by rw [hidxy]; exact htab), hidxy]
      exact hl

end VmapRequest

end QuestOS
