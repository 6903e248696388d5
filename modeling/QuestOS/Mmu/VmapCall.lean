import QuestOS.Heap.Safety
import QuestOS.Mmu.VmapSpec

/-!
# `vmap_phys_range_noflush` and the top-level index

Below the top level the walk uses the low bits of an address only, and the loop over the top-level
table counts its entries from 0.  A call therefore does the same for `virt` as for `virt` without its
top-level index, and it maps the range that it is asked for if and only if that index is 0.
-/

namespace QuestOS

open Bytes PageTable

structure Shifted (d addr fin : Nat) : Prop where
  mod : d % span 3 = 0
  lt : addr < fin
  fin_lt : fin + d < 2 ^ 64
  addr_mod : addr % 4096 = 0
  fin_mod : fin % 4096 = 0

namespace Shifted

variable {d k addr fin : Nat}

theorem mod_span (h : Shifted d addr fin) (hk : k ≤ 3) : d % span k = 0 :=
  mod_span_of_le hk h.mod

theorem mod_group (h : Shifted d addr fin) : d % contPteSize = 0 := by
  have h1 : d % 2097152 = 0 := h.mod_span (k := 1) (by decide)
  change d % 65536 = 0
  omega

theorem index (h : Shifted d addr fin) (hk : k ≤ 2) : index k (addr + d) = index k addr := by
  obtain ⟨q, hq⟩ := Nat.dvd_of_mod_eq_zero (h.mod_span (k := k + 1) (by omega))
  rw [hq, span_succ, Nat.mul_comm 512, Nat.mul_assoc]
  unfold PageTable.index
  rw [Nat.add_mul_div_left _ _ (span_pos k), Nat.add_mul_mod_self_left]

theorem spanEnd (h : Shifted d addr fin) (hk : k ≤ 3) : spanEnd k (addr + d) = spanEnd k addr + d := by
  obtain ⟨q, hq⟩ := Nat.dvd_of_mod_eq_zero (h.mod_span hk)
  unfold PageTable.spanEnd spanStart
  rw [hq, Nat.add_mul_div_left _ _ (span_pos k), Nat.add_mul, Nat.mul_comm q]
  omega

theorem addrEnd_le (h : Shifted d addr fin) (hk : k ≤ 3) : addr < addrEnd k addr fin ∧ addrEnd k addr fin ≤ fin := by
  have h1 := h.lt
  have h2 := h.fin_lt
  have h3 := lt_spanEnd k addr
  rw [addrEnd_eq (by omega) (by omega) (by omega) (by omega)]
  omega

theorem addrEnd (h : Shifted d addr fin) (hk : k ≤ 3) : addrEnd k (addr + d) (fin + d) = addrEnd k addr fin + d := by
  have h1 := h.lt
  have h2 := h.fin_lt
  rw [addrEnd_eq (by omega) (by omega) (by omega) h2, addrEnd_eq (by omega) (by omega) (by omega) (by omega),
    h.spanEnd hk]
  omega

theorem addrEnd_mod (h : Shifted d addr fin) (hk : k ≤ 3) : QuestOS.addrEnd k addr fin % 4096 = 0 := by
  have h1 := h.lt
  have h2 := h.fin_lt
  rw [addrEnd_eq (by omega) (by omega) (by omega) (by omega), Nat.min_def]
  split
  · exact h.fin_mod
  · exact spanEnd_mod_page k addr

theorem part (h : Shifted d addr fin) (hk : k ≤ 3) : Shifted d addr (QuestOS.addrEnd k addr fin) := by
  have h1 := h.fin_lt
  have h2 := h.addrEnd_le hk
  have h3 := h.addrEnd_mod hk
  generalize QuestOS.addrEnd k addr fin = next at *
  exact ⟨h.mod, h2.1, by omega, h.addr_mod, h3⟩

theorem rest (h : Shifted d addr fin) (hk : k ≤ 3) (hne : QuestOS.addrEnd k addr fin ≠ fin) :
    Shifted d (QuestOS.addrEnd k addr fin) fin := by
  have h2 := h.addrEnd_le hk
  have h3 := h.addrEnd_mod hk
  generalize QuestOS.addrEnd k addr fin = next at *
  exact ⟨h.mod, by omega, h.fin_lt, h3, h.fin_mod⟩

theorem sub64 (h : Shifted d addr fin) : sub64 (fin + d) (addr + d) = sub64 fin addr := by
  have h1 := h.lt
  have h2 := h.fin_lt
  unfold QuestOS.sub64
  omega

theorem add_mod {n : Nat} (hd : d % n = 0) (x : Nat) : (x + d) % n = x % n := by
  rw [Nat.add_mod, hd, Nat.add_zero, Nat.mod_mod]

theorem mapSize (h : Shifted d addr fin) (pfn : Nat) :
    archVmapPteRangeMapSize (addr + d) (fin + d) pfn = archVmapPteRangeMapSize addr fin pfn := by
  rw [archVmapPteRangeMapSize, archVmapPteRangeMapSize, h.sub64, add_mod h.mod_group]

end Shifted

def Shiftable {α : Type} (d : Nat) (f : Nat → Nat → Nat → Nat → VmState → α) : Prop :=
  ∀ entry addr fin phys s, Shifted d addr fin → f entry (addr + d) (fin + d) phys s = f entry addr fin phys s

section Shiftable

variable {d k addr fin : Nat} {prot : Entry}

theorem setPteAt_shifted (h : Shifted d addr fin) (ptep : Nat) (pte : Entry) (m : Mem) :
    setPteAt (addr + d) ptep pte m = setPteAt addr ptep pte m := by
  have hpage : (addr + d) / 4096 % contPtes = addr / 4096 % contPtes := by
    have h1 : d % 65536 = 0 := h.mod_group
    change (addr + d) / 4096 % 16 = addr / 4096 % 16
    omega
  rw [setPteAt, setPteAt, contpteTryFold, contpteTryFold, hpage]

theorem vmapPteLoop_shifted (fuel pte pfn : Nat) (m : Mem) (h : Shifted d addr fin) :
    vmapPteLoop prot (fin + d) fuel pte (addr + d) pfn m = vmapPteLoop prot fin fuel pte addr pfn m := by
  induction fuel generalizing pte addr pfn m with
  | zero => rfl
  | succ fuel ih =>
    have h1 := h.lt
    have h2 := h.fin_lt
    have h3 := h.addr_mod
    have h4 := h.fin_mod
    have hsize : archVmapPteRangeMapSize addr fin pfn % 4096 = 0 ∧ addr + archVmapPteRangeMapSize addr fin pfn ≤ fin := by
      rcases VmapRequest.mapSize_cases (Nat.le_of_lt h1) (by omega) pfn with hs | ⟨hs, hend, -⟩
      · omega
      · exact ⟨by rw [hs]; rfl, by omega⟩
    rw [vmapPteLoop, vmapPteLoop, h.mapSize pfn, setPteAt_shifted h]
    generalize archVmapPteRangeMapSize addr fin pfn = size at hsize ⊢
    have hadd : add64 (addr + d) size = addr + size + d ∧ add64 addr size = addr + size := by
      unfold add64
      omega
    simp only [hadd.1, hadd.2, Nat.add_lt_add_iff_right]
    by_cases hlt : addr + size < fin
    · simp only [if_pos hlt, ih _ _ _ ⟨h.mod, hlt, h2, by omega, h4⟩]
    · simp only [if_neg hlt]

theorem vmapPteRange_shifted (d : Nat) (prot : Entry) : Shiftable d (vmapPteRange prot) := by
  intro entry addr fin phys s h
  simp only [vmapPteRange, h.index (k := 0) (by decide), vmapPteLoop_shifted _ _ _ _ h]

theorem vmapTryHuge_shifted (prot : Entry) {freePage : FreePage} (hk : k ≤ 2)
    (hfree : ∀ entry addr fin s, Shifted d addr fin → freePage entry (addr + d) s = freePage entry addr s) :
    Shiftable d (vmapTryHuge k freePage prot) := by
  intro entry addr fin phys s h
  rw [vmapTryHuge, vmapTryHuge, h.sub64, Shifted.add_mod (h.mod_span (by omega)), hfree entry addr fin s h]

theorem vmapTableLoop_shifted {try_ : TryHuge} {range : VmapRange} (hk : k ≤ 3) (htry : Shiftable d try_)
    (hrange : Shiftable d range) (fuel entry phys : Nat) (s : VmState) (h : Shifted d addr fin) :
    vmapTableLoop k try_ range (fin + d) fuel entry (addr + d) phys s =
      vmapTableLoop k try_ range fin fuel entry addr phys s := by
  induction fuel generalizing entry addr phys s with
  | zero => rfl
  | succ fuel ih =>
    have hpart := h.part hk
    rw [vmapTableLoop, vmapTableLoop, h.addrEnd hk]
    simp only [htry _ _ _ _ _ hpart, hrange _ _ _ _ _ hpart, hpart.sub64]
    by_cases hne : addrEnd k addr fin = fin
    · simp only [hne, ne_eq, not_true_eq_false, if_false]
    · have hne' : addrEnd k addr fin + d ≠ fin + d := by omega
      simp only [ne_eq, hne, hne', not_false_eq_true, if_true, ih _ _ _ (h.rest hk hne)]

theorem vmapTableRange_shifted {freePage : FreePage} {range : VmapRange} {tableProt : Entry} (hk : k ≤ 2)
    (hfree : ∀ entry addr fin s, Shifted d addr fin → freePage entry (addr + d) s = freePage entry addr s)
    (hrange : Shiftable d range) : Shiftable d (vmapTableRange k tableProt freePage prot range) := by
  intro entry addr fin phys s h
  have hloop := fun (entry : Nat) (s : VmState) => vmapTableLoop_shifted (Nat.le_succ_of_le hk)
    (vmapTryHuge_shifted prot hk hfree) hrange 512 entry phys s h
  simp only [vmapTableRange, h.index hk, hloop]

theorem pmdFreePtePage_shifted (entry : Nat) (s : VmState) (h : Shifted d addr fin) :
    pmdFreePtePage entry (addr + d) s = pmdFreePtePage entry addr s := by
  rw [pmdFreePtePage, pmdFreePtePage, h.index (by decide)]

theorem pudFreePmdPage_shifted (entry : Nat) (s : VmState) (h : Shifted d addr fin) :
    pudFreePmdPage entry (addr + d) s = pudFreePmdPage entry addr s := by
  simp only [pudFreePmdPage, h.index (k := 1) (by decide), pmdFreePtePage_shifted _ _ h]

theorem vmapPudPhysRange_shifted (d : Nat) (prot : Entry) : Shiftable d (vmapPudPhysRange prot) :=
  vmapTableRange_shifted (by decide) (fun entry _ _ s h => pudFreePmdPage_shifted entry s h)
    (vmapTableRange_shifted (by decide) (fun entry _ _ s h => pmdFreePtePage_shifted entry s h)
      (vmapPteRange_shifted d prot))

theorem vmapPhysRangeNoflush_shifted {size : Nat} (prot : Entry) (root phys : Nat) (s : VmState)
    (h : Shifted d addr (addr + size)) :
    vmapPhysRangeNoflush root phys (addr + d) size prot s = vmapPhysRangeNoflush root phys addr size prot s := by
  have h1 := h.fin_lt
  have hadd : add64 (addr + d) size = addr + size + d ∧ add64 addr size = addr + size := by
    unfold add64
    omega
  rw [vmapPhysRangeNoflush, vmapPhysRangeNoflush, hadd.1, hadd.2]
  exact vmapTableLoop_shifted (by decide) (fun _ _ _ _ _ _ => rfl) (vmapPudPhysRange_shifted d prot) _ _ _ _ h

end Shiftable

/-- A call of `vmap_phys_range_noflush`.  Physical addresses have 48 bits, and the virtual range lies in
one of the windows that a four-level walk tells apart, before the end of the address space. -/
structure VmapCall where
  phys : Nat
  virt : Nat
  size : Nat
  prot : Entry
  phys_mod : phys % 4096 = 0
  virt_mod : virt % 4096 = 0
  size_mod : size % 4096 = 0
  pos : 0 < size
  phys_le : phys + size ≤ 2 ^ 48
  window : virt + size ≤ spanEnd 4 virt
  fin_lt : virt + size < 2 ^ 64
  page : PageProt prot
  clean : prot.getLsbD 51 = true → prot.getLsbD 7 = true → prot.getLsbD 55 = false

namespace VmapCall

variable {c : VmapCall} {root : Nat} {s s' : VmState}

def run (c : VmapCall) (root : Nat) (s : VmState) : Option (VmState × Int) :=
  vmapPhysRangeNoflush root c.phys c.virt c.size c.prot s

theorem window_eq (c : VmapCall) : c.virt % 2 ^ 48 + c.size ≤ 2 ^ 48 := by
  have h1 := c.window
  have h2 : spanEnd 4 c.virt = c.virt / 2 ^ 48 * 2 ^ 48 + 2 ^ 48 := rfl
  omega

theorem mapEnd_eq (c : VmapCall) : mapEnd (c.virt % 2 ^ 39) 0 (c.virt % 2 ^ 39 + c.size) = c.virt % 2 ^ 39 + c.size := by
  have h1 := c.virt_mod
  have h2 := c.size_mod
  have h3 := c.pos
  exact mapEnd_pages (by omega) (by omega) (by omega)

def request (c : VmapCall) : VmapRequest where
  phys := c.phys
  va := c.virt % 2 ^ 39
  off := 0
  fin := c.virt % 2 ^ 39 + c.size
  prot := c.prot
  phys_mod := c.phys_mod
  va_mod := by
    have := c.virt_mod
    omega
  off_lt := page_pos
  start_le := by omega
  fin_pos := by
    have := c.pos
    omega
  va_lt := by omega
  fin_le := by
    have := c.window_eq
    omega
  phys_le := by
    have := c.phys_le
    rw [c.mapEnd_eq]
    omega
  page := c.page
  clean := c.clean

theorem request_vaEnd (c : VmapCall) : c.request.vaEnd = c.request.va + c.size := c.mapEnd_eq

theorem run_eq (c : VmapCall) (root : Nat) (s : VmState) :
    c.run root s = vmapPhysRangeNoflush root (c.request.phys + c.request.off) (c.request.va + c.request.off)
      (c.request.fin - (c.request.va + c.request.off)) c.request.prot s := by
  have h1 := c.fin_lt
  have h2 := c.pos
  have h3 := c.request.va_mod
  have h4 := c.request.vaEnd_mod
  have hsize : c.request.fin - (c.request.va + c.request.off) = c.size := Nat.add_sub_cancel_left ..
  have hvirt : c.request.va + c.virt / 2 ^ 39 * 2 ^ 39 = c.virt := Nat.mod_add_div' c.virt (2 ^ 39)
  rw [c.request_vaEnd] at h4
  have hshift : Shifted (c.virt / 2 ^ 39 * 2 ^ 39) c.request.va (c.request.va + c.size) :=
    ⟨Nat.mul_mod_left _ _, by omega, by omega, h3, h4⟩
  have h := vmapPhysRangeNoflush_shifted c.prot root c.phys s hshift
  rw [hvirt] at h
  rw [run, h, hsize]
  rfl

/-- The range is translated as requested and every other address of the table's window as before. -/
structure Done (c : VmapCall) (root : Nat) (s s' : VmState) : Prop where
  mapped : ∀ x, c.virt ≤ x → x < c.virt + c.size →
    (walk s'.mem 3 root x).map norm = some (norm ⟨c.phys + (x - c.virt), protAttr c.prot⟩)
  others : ∀ x, x / span 4 = c.virt / span 4 → ¬ (c.virt ≤ x ∧ x < c.virt + c.size) →
    (walk s'.mem 3 root x).map norm = (walk s.mem 3 root x).map norm

theorem walk_run (h : c.request.Vmapped 3 root c.request.va c.request.vaEnd s s') (x : Nat) :
    (walk s'.mem 3 root x).map norm =
      if c.request.va ≤ x % 2 ^ 48 ∧ x % 2 ^ 48 < c.request.vaEnd then c.request.leaf (x % 2 ^ 48)
      else (walk s.mem 3 root x).map norm := by
  have hmod : x % 2 ^ 48 % span 4 = x % span 4 := Nat.mod_mod x (2 ^ 48)
  have h1 := h.maps.walk (x % 2 ^ 48) (by
    have hva : c.request.va < 2 ^ 48 := Nat.lt_of_lt_of_le c.request.lt c.request.vaEnd_le
    change x % 2 ^ 48 / 2 ^ 48 = c.request.va / 2 ^ 48
    omega)
  rwa [walk_congr_mod hmod, walk_congr_mod hmod] at h1

end VmapCall

/-- On well-formed tables with an empty range and no table in the way of a block, a call that returns 0
does what it is asked for if and only if the top-level index of `virt` is 0. -/
theorem vmapPhysRangeNoflush_done_iff (c : VmapCall) (root : Nat) (s s' : VmState) (hok : s.Ok)
    (ht : Tree s.mem 3 root) (hheld : VmapRequest.TablesHeld s 3 root)
    (hready : ∀ x, c.request.va ≤ x → x < c.request.vaEnd → c.request.Ready s.mem 3 root x)
    (hfold : c.request.FoldSafe s.mem 3 root c.request.va)
    (hun : ∀ x, c.virt ≤ x → x < c.virt + c.size → walk s.mem 3 root x = none)
    (hrun : c.run root s = some (s', 0)) : c.Done root s s' ↔ index 3 c.virt = 0 := by
  have hpos := c.pos
  have hidx : index 3 c.request.va = 0 := by
    change c.virt % 2 ^ 39 / 2 ^ 39 % 512 = 0
    omega
  rw [c.run_eq] at hrun
  have hwalk := VmapCall.walk_run
    (VmapRequest.vmapPhysRangeNoflush_spec hidx hok ht hheld hready hfold hrun).2
  have hlow : index 3 c.virt = 0 ↔ c.virt % 2 ^ 48 = c.request.va := by
    change c.virt / 2 ^ 39 % 512 = 0 ↔ c.virt % 2 ^ 48 = c.virt % 2 ^ 39
    omega
  rw [hlow]
  constructor
  · intro hdone
    have h1 := hdone.mapped c.virt (Nat.le_refl _) (by omega)
    rw [hwalk, hun c.virt (Nat.le_refl _) (by omega)] at h1
    split at h1
    · rename_i hin
      simp only [VmapRequest.leaf, norm, Option.some.injEq, Leaf.mk.injEq] at h1
      have h2 : c.request.phys = c.phys := rfl
      omega
    · cases h1
  · intro hva
    have hend := c.request_vaEnd
    have hwin := c.window_eq
    refine ⟨fun x h1 h2 => ?_, fun x hx hout => ?_⟩
    · have hmod : x % 2 ^ 48 = c.request.va + (x - c.virt) := by omega
      rw [hwalk, if_pos (by omega), VmapRequest.leaf, show x % 2 ^ 48 - c.request.va = x - c.virt by omega]
      rfl
    · have hx' : x / 2 ^ 48 = c.virt / 2 ^ 48 := hx
      rw [hwalk, if_neg (by omega)]

def pageKernel : Entry := 0x0068000000000703#64

theorem pageProt_kernel : PageProt pageKernel := ⟨by unfold NoAddr; decide, by decide⟩

def emptyKernel : VmState := ⟨⟨virtMemblock, fun _ => 0⟩, 0⟩

theorem emptyKernel_ok : emptyKernel.Ok where
  wf := virtMemblock_wf
  zero := by
    unfold Memblock.InMemory
    decide
  lt := by
    intro x hx
    obtain ⟨r, hr, -, h2⟩ := Regions.lookup_isSome_iff.mp hx
    rw [List.mem_singleton.mp hr] at h2
    exact Nat.lt_trans h2 (by decide)

theorem emptyKernel_tree : Tree emptyKernel.mem 3 0x40000000 := (zero_table rfl (fun _ _ => rfl) 3).1

theorem emptyKernel_walk (x : Nat) : walk emptyKernel.mem 3 0x40000000 x = none :=
  (zero_table (m := emptyKernel.mem) rfl (fun _ _ => rfl) 3).2.2 x

theorem emptyKernel_held : VmapRequest.TablesHeld emptyKernel 3 0x40000000 := by
  intro x hx hl
  rw [(zero_table (m := emptyKernel.mem) rfl (fun _ _ => rfl) 3).2.1] at hx
  refine hl.2 ⟨Regions.lookup_isSome_iff.mpr ⟨_, List.mem_singleton.mpr rfl, ?_⟩, ?_⟩
  · change 0x40000000 ≤ x ∧ x < 0x40000000 + 0x200000
    unfold pageOf at hx
    omega
  · rintro ⟨a, ha, -⟩
    cases ha

theorem emptyKernel_ready (r : VmapRequest) (x : Nat) : r.Ready emptyKernel.mem 3 0x40000000 x :=
  .inl (load64_zero fun _ _ _ => rfl)

theorem emptyKernel_fold (r : VmapRequest) (va : Nat) : r.FoldSafe emptyKernel.mem 3 0x40000000 va := by
  intro y _ _ l hl
  rw [emptyKernel_walk] at hl
  cases hl

def firstVmalloc : VmapCall where
  phys := 0x44000000
  virt := 0xffff800000000000
  size := 4096
  prot := pageKernel
  phys_mod := by decide
  virt_mod := by decide
  size_mod := page_mod
  pos := page_pos
  phys_le := by decide
  window := by decide
  fin_lt := by decide
  page := pageProt_kernel
  clean := by decide

/-- The page is mapped at address 0 of the window instead. -/
theorem firstVmalloc_elsewhere : emptyKernel.Ok ∧ Tree emptyKernel.mem 3 0x40000000 ∧
    VmapRequest.TablesHeld emptyKernel 3 0x40000000 ∧ (∀ x, walk emptyKernel.mem 3 0x40000000 x = none) ∧
    ∃ s', firstVmalloc.run 0x40000000 emptyKernel = some (s', 0) ∧ ¬ firstVmalloc.Done 0x40000000 emptyKernel s' := by
  have hrun : (firstVmalloc.run 0x40000000 emptyKernel).map
      (fun q => (q.2, walk q.1.mem 3 0x40000000 firstVmalloc.virt)) = some (0, none) := by decide +kernel
  obtain ⟨⟨s', err⟩, h1, h2⟩ := Option.map_eq_some_iff.mp hrun
  simp only [Prod.mk.injEq] at h2
  obtain ⟨rfl, h2⟩ := h2
  refine ⟨emptyKernel_ok, emptyKernel_tree, emptyKernel_held, emptyKernel_walk, s', h1, fun hdone => ?_⟩
  have h3 := hdone.mapped firstVmalloc.virt (Nat.le_refl _) (Nat.lt_add_of_pos_right firstVmalloc.pos)
  rw [h2] at h3
  cases h3

def firstImagePage : VmapCall where
  phys := 0x44000000
  virt := 0x40000000
  size := 4096
  prot := pageKernel
  phys_mod := by decide
  virt_mod := by decide
  size_mod := page_mod
  pos := page_pos
  phys_le := by decide
  window := by decide
  fin_lt := by decide
  page := pageProt_kernel
  clean := by decide

theorem firstImagePage_done : ∃ s', firstImagePage.run 0x40000000 emptyKernel = some (s', 0) ∧
    firstImagePage.Done 0x40000000 emptyKernel s' := by
  have hrun : (firstImagePage.run 0x40000000 emptyKernel).map Prod.snd = some 0 := by decide +kernel
  obtain ⟨⟨s', err⟩, h1, rfl⟩ := Option.map_eq_some_iff.mp hrun
  exact ⟨s', h1, (vmapPhysRangeNoflush_done_iff firstImagePage 0x40000000 emptyKernel s' emptyKernel_ok
    emptyKernel_tree emptyKernel_held (fun x _ _ => emptyKernel_ready _ x) (emptyKernel_fold _ _)
    (fun x _ _ => emptyKernel_walk x) h1).mpr (by decide +kernel)⟩

end QuestOS
