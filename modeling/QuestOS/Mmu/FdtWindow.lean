import QuestOS.Mmu.CreateLevels
import QuestOS.Mmu.Fixmap
import QuestOS.CInt

/-!
# The FDT window

`fixmap_remap_fdt` of `fdt.c` maps the flattened device tree into the fixmap, in two steps: the first page, to read
the size from the header, and then the rest.  The size is an unsigned word that is kept in an `int`.
-/

namespace QuestOS

open Bytes PageTable

/-! ### The device tree -/

def fdt32 (m : Mem) (a : Nat) : Nat :=
  (m a).toNat * 2 ^ 24 + (m (a + 1)).toNat * 2 ^ 16 + (m (a + 2)).toNat * 2 ^ 8 + (m (a + 3)).toNat

def readFdt32 (root va : Nat) (s : VmState) : Option Nat := (walk s.mem 3 root va).map fun l => fdt32 s.mem l.pa

def fdtMagic : Nat := 0xd00dfeed

/-- The pointer, `none` for `NULL`, and `*size`, which is `size` before. -/
def fixmapRemapFdt (root dtPhys : Nat) (prot : Entry) (size : Int) (s : VmState) :
    Option (VmState × Option Nat × Int) :=
  if dtPhys = 0 ∨ dtPhys % 8 ≠ 0 then some (s, none, size)
  else
    let dtVirtBase := fixToVirt fixFdt
    let dtPhysBase := dtPhys / 4096 * 4096
    let offset := dtPhys % 4096
    let dtVirt := dtVirtBase + offset
    match createMappingNoalloc root dtPhysBase dtVirtBase 4096 prot s with
    | none => none
    | some s =>
      match readFdt32 root dtVirt s with
      | none => none
      | some magic =>
        if magic ≠ fdtMagic then some (s, none, size)
        else
          match readFdt32 root (dtVirt + 4) s with
          | none => none
          | some totalsize =>
            let size := i32 totalsize
            if maxFdtSize < size then some (s, none, size)
            -- `PAGE_SIZE` is an `unsigned long`
            else if 4096 < toUlong (offset + size) then
              match createMappingNoalloc root dtPhysBase dtVirtBase (toUlong (offset + size)) prot s with
              | none => none
              | some s => some (s, some dtVirt, size)
            else some (s, some dtVirt, size)

/-! ### The window -/

structure FdtMapped (root dtPhys virt : Nat) (size : Int) (s s' : VmState) : Prop where
  nonneg : 0 ≤ size
  le_max : size ≤ maxFdtSize
  totalsize : size = fdt32 s.mem (dtPhys + 4)
  bytes : ∀ i : Nat, (i : Int) < size → (walk s'.mem 3 root (virt + i)).map Leaf.pa = some (dtPhys + i)
  window : ∀ x, pageOffset ≤ x → x < 2 ^ 64 → walk s'.mem 3 root x ≠ walk s.mem 3 root x →
    fixToVirt fixFdt ≤ x ∧ x < fixToVirt fixFdtEnd + 4096
  noTable : s'.heap.mb = s.heap.mb

namespace MapRequest

variable {r : MapRequest} {k t x root : Nat} {m : Mem} {s s' : VmState}

theorem refuses_of_noBlock (h : ∀ j, ¬ r.UsesBlock j x) : r.refuses m k t x = false := by
  induction k generalizing t with
  | zero => rfl
  | succ k ih => rw [refuses, if_neg (h (k + 1)), ih, Bool.and_false]

theorem open_of_tabled (h : Tabled m k t x) : r.Open m k t x := by
  induction k generalizing t with
  | zero => trivial
  | succ k ih => exact .inr (.inr ⟨h.1, h.2.1, ih h.2.2⟩)

theorem va_of_aligned (h : r.virt % 4096 = 0) : r.va = r.virt := by
  unfold va
  omega

theorem vaEnd_of_aligned (h : r.virt % 4096 = 0) : r.vaEnd = r.virt + (r.size + 4095) / 4096 * 4096 := by
  unfold vaEnd
  omega

structure InWindow (r : MapRequest) : Prop where
  va : r.va = fixToVirt fixFdt
  le : r.vaEnd ≤ fixToVirt fixFdtEnd

theorem InWindow.noBlock (h : r.InWindow) (j x : Nat) : ¬ r.UsesBlock j x := by
  rintro ⟨hj, h1, h2, -⟩
  have h3 := h.le
  rw [h.va] at h1
  have hbase := fixToVirt_fixFdt
  have hend := fixToVirt_fixFdtEnd
  have hmod := spanStart_mod j x
  rw [spanEnd] at h2
  rcases hj with rfl | rfl
  · rw [show span 1 = 0x200000 from rfl] at hmod h2
    omega
  · rw [show span 2 = 0x40000000 from rfl] at hmod h2
    omega

structure CreatedInWindow (r : MapRequest) (root : Nat) (s s' : VmState) : Prop where
  window : FdtWindow root s'
  pages : ∀ x, r.va ≤ x → x < r.vaEnd → walk s'.mem 3 root x = r.leaf x
  others : ∀ x, pageOffset ≤ x → x < 2 ^ 64 → ¬ (r.va ≤ x ∧ x < r.vaEnd) → walk s'.mem 3 root x = walk s.mem 3 root x
  mb : s'.heap.mb = s.heap.mb
  frame : ∀ y, ¬ Foot s.mem 3 root (pageOf y) → s'.mem y = s.mem y

theorem InWindow.created (hin : r.InWindow) (hreach : r.InReach) (hw : FdtWindow root s)
    (hrun : createMappingNoalloc root r.phys r.virt r.size r.prot s = some s') : r.CreatedInWindow root s s' := by
  have hva := hin.va
  have hle := hin.le
  have hge := r.pageOffset_le
  have hlt := r.lt
  have hbase := fixToVirt_fixFdt
  have hend := fixToVirt_fixFdtEnd
  have htab : ∀ x, r.va ≤ x → x < r.vaEnd → Tabled s.mem 3 root x := fun x h1 h2 => hw.tabled x (by omega) (by omega)
  have hp : r.Pending (r.result s.mem 3 root) 3 root r.va r.vaEnd s :=
    ⟨hw.ok, hw.tree, hw.held, fun x h1 h2 => open_of_tabled (htab x h1 h2), fun _ _ _ => rfl⟩
  obtain ⟨alloc, hpgd⟩ := createMapping_pgd (.inl hrun)
  have hc := createPgdMapping_created alloc hreach hp hpgd
  have hmb := hc.kept htab
  have hwalk := fun x => createMapping_walk (x := x) hreach hp (.inl hrun)
  have htaken : ∀ y, ¬ s.Taken s' y := by
    rintro y ⟨h1, h2⟩
    rw [hmb] at h2
    exact h1.2 h2
  refine ⟨⟨hc.grows.ok, hc.maps.tree, hc.held hw.held, fun x h1 h2 => ?_⟩, fun x h1 h2 => ?_, fun x h1 h2 h3 => ?_, hmb,
    fun y hy => hc.maps.frame y hy (htaken y)⟩
  · refine hc.tabled x ?_ (fun j => hin.noBlock j x) (hw.tabled x h1 h2)
    rw [show span (3 + 1) = 2 ^ 48 from rfl]
    omega
  · have h64 := r.vaEnd_le
    rw [hwalk x (by omega) (by omega), if_pos ⟨h1, h2⟩, result, refuses_of_noBlock fun j => hin.noBlock j x]
    rfl
  · rw [hwalk x h1 h2, if_neg h3]

end MapRequest

variable {root dtPhys virt x : Nat} {prot : Entry} {m : Mem} {s s₁ s' : VmState} {size size₀ : Int}

/-! ### A size that is negative -/

theorem initPte_runs_off {fin : Nat} (fuel : Nat) {ptep addr phys : Nat} (h : addr + 4096 * fuel < 2 ^ 64)
    (hfin : fin ≤ addr) : initPte prot fin fuel ptep addr phys m = none := by
  induction fuel generalizing ptep addr phys m with
  | zero => rfl
  | succ fuel ih =>
    have hadd : add64 addr 4096 = addr + 4096 := by
      unfold add64
      omega
    rw [initPte]
    split
    · rfl
    · rw [hadd, if_pos (by omega)]
      exact ih (by omega) (by omega)

theorem mapLoop_none {addrEnd : Nat → Nat → Nat} {advance : Nat → Nat → Nat → Nat} {part : MapPart}
    {fin entry addr phys : Nat} (hend : addrEnd addr fin = fin) (hpart : part entry addr fin phys s = none) (fuel : Nat) :
    mapLoop addrEnd advance part fin fuel entry addr phys s = none := by
  cases fuel with
  | zero => rfl
  | succ fuel => rw [mapLoop, hend, hpart]

theorem initTable_of_table {k t a : Nat} (flags : MapFlags) (h : Tabled s.mem (k + 1) t a) :
    initTable flags (t + 8 * index (k + 1) a) s = some (s, outAddr (slot s.mem t (index (k + 1) a))) := by
  have hload : load64 s.mem (t + 8 * index (k + 1) a) = slot s.mem t (index (k + 1) a) := rfl
  rw [initTable, hload, if_neg (fun h0 => ?_), VmapRequest.pteToPhys_eq h.2.1]
  have htab := h.1
  rw [h0] at htab
  cases htab

theorem createMappingNoalloc_negative {phys d : Nat} (hw : FdtWindow root s) (hphys : phys % 4096 = 0) (hd : 0 < d)
    (hd' : d ≤ 2 ^ 31) : createMappingNoalloc root phys (fixToVirt fixFdt) (2 ^ 64 - d) prot s = none := by
  obtain ⟨base, hb⟩ : ∃ base, base = fixToVirt fixFdt := ⟨_, rfl⟩
  have hbase : base = 0xffffffffff5fe000 := hb
  have htab := hw.tabled (fixToVirt fixFdt) (Nat.le_refl _) (by decide)
  rw [← hb] at htab ⊢
  -- the end of the range
  obtain ⟨fin, hfin, hfin0, hle⟩ : ∃ fin, alignUp (add64 base (2 ^ 64 - d)) 4096 = fin ∧ 0 < fin ∧ fin ≤ base := by
    refine ⟨_, rfl, ?_, ?_⟩
    · rw [show (4096 : Nat) = 2 ^ 12 from rfl, alignUp_eq]
      unfold add64
      omega
    · rw [show (4096 : Nat) = 2 ^ 12 from rfl, alignUp_eq]
      unfold add64
      omega
  have hnext : ∀ j ≤ 63, addrEndOf (2 ^ j) base fin = fin := by
    intro j hj
    have h1 := addrEndOf_eq hj (show base < 2 ^ 64 by omega) hfin0 (by omega)
    have h2 := lt_pieceEnd (Nat.two_pow_pos j) base
    rwa [Nat.min_eq_left (by omega), Nat.mod_eq_of_lt (by omega)] at h1
  have hmod1 : base % span 1 ≠ 0 := by rw [hbase]; decide
  have hmod2 : base % span 2 ≠ 0 := by rw [hbase]; decide
  have halign : ∀ k phys, base % span k ≠ 0 → allAligned (span k) base fin phys = false := by
    intro k phys hk
    rw [allAligned, decide_eq_false hk, Bool.false_and, Bool.false_and]
  have htab2 := htab.2.2
  have htab1 := htab2.2.2
  have hpte : ∀ c phys, c % 4096 = 0 →
      initContPteGroup noContMappings prot (c + 8 * index 0 base) base fin phys s = none := by
    intro c phys hc
    have hidx : index 0 base = 510 := by rw [hbase]; rfl
    rw [initContPteGroup, hidx, show (c + 8 * 510) % 4096 / 8 = 510 by omega,
      initPte_runs_off _ (by omega) hle]
    rfl
  have hcont : ∀ phys, initContPte noContMappings prot
      (outAddr (slot s.mem (outAddr (slot s.mem root (index 3 base))) (index 2 base)) + 8 * index 1 base) base fin
        phys s = none := by
    intro phys
    have hload : load64 s.mem (outAddr (slot s.mem (outAddr (slot s.mem root (index 3 base))) (index 2 base)) +
        8 * index 1 base) = slot s.mem (outAddr (slot s.mem (outAddr (slot s.mem root (index 3 base))) (index 2 base)))
        (index 1 base) := rfl
    rw [initContPte, hload, initTable_of_table noContMappings htab1, pmdSect, htab1.1]
    have hpage : outAddr (slot s.mem (outAddr (slot s.mem (outAddr (slot s.mem root (index 3 base))) (index 2 base)))
        (index 1 base)) % 4096 = 0 := outAddr_mod _
    simp only [Bool.not_true, Bool.and_false, Bool.false_eq_true, if_false]
    exact mapLoop_none (hnext 16 (by decide)) (hpte _ _ hpage) 512
  have hpud : ∀ phys, initPud noContMappings prot (root + 8 * index 3 base) base fin phys s = none := by
    intro phys
    rw [initPud, initTable_of_table noContMappings htab]
    refine mapLoop_none (hnext 30 (by decide)) ?_ 512
    rw [initPudEntry, halign 2 _ hmod2, Bool.false_and, if_neg Bool.false_ne_true, initContPmd,
      initTable_of_table noContMappings htab2]
    refine mapLoop_none (hnext 25 (by decide)) ?_ 512
    rw [initContPmdGroup, MapRequest.contProt_of_noCont rfl, initPmd]
    refine mapLoop_none (hnext 21 (by decide)) ?_ 512
    rw [initPmdEntry]
    simp only [halign 1 _ hmod1, Bool.false_and, Bool.false_eq_true, if_false, hcont]
  have hge : ¬ base < pageOffset := by rw [hbase]; decide
  have hoff : ¬ phys % 4096 ≠ base % 4096 := by omega
  have haddr : alignDown base 4096 = base := by
    rw [hbase]
    rfl
  rw [createMappingNoalloc, if_neg hge, createPgdMapping, if_neg hoff, hfin, haddr]
  exact mapLoop_none (hnext 39 (by decide)) (hpud _) 512

/-! ### The calls -/

def windowRequest (dtPhys size : Nat) (prot : Entry) (hphys : dtPhys < 2 ^ 48) (hpos : 0 < size) (hle : size ≤ 0x201000)
    (hprot : PageProt prot) : MapRequest where
  phys := dtPhys / 4096 * 4096
  virt := fixToVirt fixFdt
  size := size
  prot := prot
  phys_lt := by omega
  ge := by decide
  offset := (Nat.mul_mod_left _ _).trans fixToVirt_fixFdt_mod.symm
  pos := hpos
  fits := by rw [fixToVirt_fixFdt]; omega
  page := hprot

section windowRequest

variable {n : Nat} {hphys : dtPhys < 2 ^ 48} {hpos : 0 < n} {hle : n ≤ 0x201000} {hprot : PageProt prot}

theorem windowRequest_va : (windowRequest dtPhys n prot hphys hpos hle hprot).va = fixToVirt fixFdt :=
  MapRequest.va_of_aligned fixToVirt_fixFdt_mod

theorem windowRequest_pa : (windowRequest dtPhys n prot hphys hpos hle hprot).pa = dtPhys / 4096 * 4096 := by
  simp only [MapRequest.pa, windowRequest]
  omega

theorem windowRequest_vaEnd : (windowRequest dtPhys n prot hphys hpos hle hprot).vaEnd =
    fixToVirt fixFdt + (n + 4095) / 4096 * 4096 := MapRequest.vaEnd_of_aligned fixToVirt_fixFdt_mod

theorem windowRequest_inWindow : (windowRequest dtPhys n prot hphys hpos hle hprot).InWindow := by
  refine ⟨windowRequest_va, ?_⟩
  rw [windowRequest_vaEnd, fixToVirt_fixFdt, fixToVirt_fixFdtEnd]
  omega

theorem windowRequest_created (hw : FdtWindow root s) (hreach : dtPhys / 4096 * 4096 + n ≤ 2 ^ 48)
    (hrun : createMappingNoalloc root (dtPhys / 4096 * 4096) (fixToVirt fixFdt) n prot s = some s') :
    (windowRequest dtPhys n prot hphys hpos hle hprot).CreatedInWindow root s s' := by
  refine windowRequest_inWindow.created ?_ hw hrun
  rw [MapRequest.InReach, windowRequest_vaEnd, windowRequest_va, windowRequest_pa]
  omega

theorem windowRequest_bytes (h : (windowRequest dtPhys n prot hphys hpos hle hprot).CreatedInWindow root s s') {i : Nat}
    (hi : dtPhys % 4096 + i < (n + 4095) / 4096 * 4096) :
    (walk s'.mem 3 root (fixToVirt fixFdt + dtPhys % 4096 + i)).map Leaf.pa = some (dtPhys + i) := by
  rw [h.pages _ (by rw [windowRequest_va]; omega) (by rw [windowRequest_vaEnd]; omega), MapRequest.leaf, windowRequest_va,
    windowRequest_pa, Option.map_some]
  refine congrArg some ?_
  change dtPhys / 4096 * 4096 + (fixToVirt fixFdt + dtPhys % 4096 + i - fixToVirt fixFdt) = dtPhys + i
  omega

theorem windowRequest_window (h : (windowRequest dtPhys n prot hphys hpos hle hprot).CreatedInWindow root s s')
    (h1 : pageOffset ≤ x) (h2 : x < 2 ^ 64) (hne : walk s'.mem 3 root x ≠ walk s.mem 3 root x) :
    fixToVirt fixFdt ≤ x ∧ x < fixToVirt fixFdtEnd + 4096 := by
  have hin : (windowRequest dtPhys n prot hphys hpos hle hprot).InWindow := windowRequest_inWindow
  by_contra hout
  refine hne (h.others x h1 h2 fun h3 => hout ?_)
  have h4 := hin.le
  have h5 := h3.1
  rw [windowRequest_va] at h5
  omega

end windowRequest

theorem fdt32_lt (m : Mem) (a : Nat) : fdt32 m a < 2 ^ 32 := by
  have h0 := (m a).toNat_lt
  have h1 := (m (a + 1)).toNat_lt
  have h2 := (m (a + 2)).toNat_lt
  have h3 := (m (a + 3)).toNat_lt
  unfold fdt32
  omega

theorem fixmapRemapFdt_cases (hrun : fixmapRemapFdt root dtPhys prot size₀ s = some (s', some virt, size)) :
    ∃ s₁ totalsize, dtPhys % 8 = 0 ∧ virt = fixToVirt fixFdt + dtPhys % 4096 ∧
      createMappingNoalloc root (dtPhys / 4096 * 4096) (fixToVirt fixFdt) 4096 prot s = some s₁ ∧
      readFdt32 root (fixToVirt fixFdt + dtPhys % 4096 + 4) s₁ = some totalsize ∧ size = i32 totalsize ∧
      size ≤ maxFdtSize ∧ (4096 < toUlong (↑(dtPhys % 4096) + size) ∧
        createMappingNoalloc root (dtPhys / 4096 * 4096) (fixToVirt fixFdt) (toUlong (↑(dtPhys % 4096) + size)) prot s₁ =
          some s' ∨
        toUlong (↑(dtPhys % 4096) + size) ≤ 4096 ∧ s₁ = s') := by
  unfold fixmapRemapFdt at hrun
  split at hrun
  · cases hrun
  rename_i hargs
  dsimp only at hrun
  split at hrun
  · cases hrun
  rename_i s₁ hs₁
  split at hrun
  · cases hrun
  split at hrun
  · cases hrun
  split at hrun
  · cases hrun
  rename_i totalsize htotal
  split at hrun
  · cases hrun
  rename_i hmax
  have halign : dtPhys % 8 = 0 := by omega
  split at hrun
  · rename_i hlarge
    split at hrun
    · cases hrun
    · rename_i s₂ hs₂
      simp only [Option.some.injEq, Prod.mk.injEq] at hrun
      obtain ⟨rfl, rfl, rfl⟩ := hrun
      exact ⟨s₁, totalsize, halign, rfl, hs₁, htotal, rfl, by omega, .inl ⟨hlarge, hs₂⟩⟩
  · rename_i hsmall
    simp only [Option.some.injEq, Prod.mk.injEq] at hrun
    obtain ⟨rfl, rfl, rfl⟩ := hrun
    exact ⟨s₁, totalsize, halign, rfl, hs₁, htotal, rfl, by omega, .inr ⟨by omega, rfl⟩⟩

theorem readFdt32_totalsize {hphys : dtPhys < 2 ^ 48} {hpos : 0 < 4096} {hle : 4096 ≤ 0x201000} {hprot : PageProt prot}
    (h : (windowRequest dtPhys 4096 prot hphys hpos hle hprot).CreatedInWindow root s s₁)
    (hfdt : ¬ Foot s.mem 3 root (pageOf dtPhys)) (halign : dtPhys % 8 = 0) {totalsize : Nat}
    (hread : readFdt32 root (fixToVirt fixFdt + dtPhys % 4096 + 4) s₁ = some totalsize) :
    totalsize = fdt32 s.mem (dtPhys + 4) := by
  have hbytes := windowRequest_bytes h (i := 4) (by omega)
  obtain ⟨l, hl, hpa⟩ := Option.map_eq_some_iff.mp hbytes
  rw [readFdt32, hl, Option.map_some, hpa] at hread
  rw [← Option.some.inj hread]
  have hmem : ∀ i < 4, s₁.mem (dtPhys + 4 + i) = s.mem (dtPhys + 4 + i) := by
    intro i hi
    refine h.frame _ ?_
    rw [show pageOf (dtPhys + 4 + i) = pageOf dtPhys by unfold pageOf; omega]
    exact hfdt
  unfold fdt32
  rw [hmem 1 (by decide), hmem 2 (by decide), hmem 3 (by decide)]
  have h0 := hmem 0 (by decide)
  rw [Nat.add_zero] at h0
  rw [h0]

/-- A call that returns a pointer does what is expected if and only if the size and the offset in the page do not
overflow 32 bits and the device tree has addresses of 48 bits.  The window is ready for the next call then. -/
theorem fixmapRemapFdt_iff (root dtPhys : Nat) (prot : Entry) (size₀ : Int) (s s' : VmState) (virt : Nat) (size : Int)
    (hw : FdtWindow root s) (hphys : dtPhys < 2 ^ 48) (hprot : PageProt prot)
    (hfdt : ¬ Foot s.mem 3 root (pageOf dtPhys))
    (hrun : fixmapRemapFdt root dtPhys prot size₀ s = some (s', some virt, size)) :
    (FdtMapped root dtPhys virt size s s' ↔
      fdt32 s.mem (dtPhys + 4) + dtPhys % 4096 < 2 ^ 32 ∧ dtPhys + fdt32 s.mem (dtPhys + 4) ≤ 2 ^ 48) ∧
    (fdt32 s.mem (dtPhys + 4) + dtPhys % 4096 < 2 ^ 32 ∧ dtPhys + fdt32 s.mem (dtPhys + 4) ≤ 2 ^ 48 →
      FdtWindow root s') := by
  obtain ⟨s₁, totalsize, halign, rfl, hs₁, hread, hsize, hmax, hrest⟩ := fixmapRemapFdt_cases hrun
  have hc₁ : (windowRequest dtPhys 4096 prot hphys (by decide) (by decide) hprot).CreatedInWindow root s s₁ :=
    windowRequest_created hw (by omega) hs₁
  have htotal := readFdt32_totalsize hc₁ hfdt halign hread
  have hlt := fdt32_lt s.mem (dtPhys + 4)
  rw [← htotal] at hlt ⊢
  rw [i32_word hlt] at hsize
  have hmaxv : (maxFdtSize : Int) = 0x200000 := rfl
  have hmust : FdtMapped root dtPhys (fixToVirt fixFdt + dtPhys % 4096) size s s' →
      totalsize + dtPhys % 4096 < 2 ^ 32 ∧ dtPhys + totalsize ≤ 2 ^ 48 := by
    intro h
    have h0 := h.nonneg
    have hpos : totalsize < 2 ^ 31 := by
      by_contra hge
      rw [if_neg hge] at hsize
      omega
    rw [if_pos hpos] at hsize
    refine ⟨by omega, ?_⟩
    by_contra hgt
    obtain ⟨l, hl, hpa⟩ := Option.map_eq_some_iff.mp (h.bytes (totalsize - 1) (by omega))
    have := walk_pa_lt hl
    omega
  have hdone : totalsize + dtPhys % 4096 < 2 ^ 32 ∧ dtPhys + totalsize ≤ 2 ^ 48 →
      FdtWindow root s' ∧ FdtMapped root dtPhys (fixToVirt fixFdt + dtPhys % 4096) size s s' := by
    rintro ⟨hover, hreach⟩
    have hpos : totalsize < 2 ^ 31 := by
      by_contra hge
      rw [if_neg hge] at hsize
      -- the second mapping would end before it begins
      have hneg : toUlong (↑(dtPhys % 4096) + size) = 2 ^ 64 - (2 ^ 32 - totalsize - dtPhys % 4096) := by
        unfold toUlong
        omega
      rcases hrest with ⟨-, h1⟩ | ⟨h1, -⟩
      · rw [hneg, createMappingNoalloc_negative hc₁.window (by omega) (by omega) (by omega)] at h1
        cases h1
      · omega
    rw [if_pos hpos] at hsize
    have hlong : toUlong (↑(dtPhys % 4096) + size) = dtPhys % 4096 + totalsize := by
      unfold toUlong
      omega
    rw [hlong] at hrest
    rcases hrest with ⟨hlarge, h1⟩ | ⟨hsmall, rfl⟩
    · have hc₂ : (windowRequest dtPhys (dtPhys % 4096 + totalsize) prot hphys (by omega) (by omega) hprot).CreatedInWindow
          root s₁ s' := windowRequest_created hc₁.window (by omega) h1
      refine ⟨hc₂.window, by omega, by omega, by rw [hsize, htotal], fun i hi => windowRequest_bytes hc₂ (by omega),
        fun x h2 h3 hne => ?_, hc₂.mb.trans hc₁.mb⟩
      by_cases heq : walk s'.mem 3 root x = walk s₁.mem 3 root x
      · exact windowRequest_window hc₁ h2 h3 (by rw [← heq]; exact hne)
      · exact windowRequest_window hc₂ h2 h3 heq
    · exact ⟨hc₁.window, by omega, by omega, by rw [hsize, htotal], fun i hi => windowRequest_bytes hc₁ (by omega),
        fun x h2 h3 hne => windowRequest_window hc₁ h2 h3 hne, hc₁.mb⟩
  exact ⟨⟨hmust, fun h => (hdone h).2⟩, fun h => (hdone h).1⟩

/-! ### A kernel at boot -/

def pageKernelRo : Entry := 0x0060000000000783#64

theorem pageProt_kernelRo : PageProt pageKernelRo := ⟨by unfold NoAddr; decide, by decide⟩

def bootKernel (header : BitVec 64) : VmState := emptyKernel.setMem (store64 (fun _ => 0) 0x48000010 header)

theorem bootKernel_mem (header : BitVec 64) (h : x < 0x48000000) : (bootKernel header).mem x = 0 := by
  rw [bootKernel, VmState.mem_setMem, store64_of_not (by omega)]

theorem bootKernel_not_loose (header : BitVec 64) (h1 : 0x40000000 ≤ x) (h2 : x < 0x40200000) :
    ¬ (bootKernel header).Loose x := by
  intro hl
  refine hl.2 ⟨Regions.lookup_isSome_iff.mpr ⟨_, List.mem_singleton.mpr rfl, h1, h2⟩, ?_⟩
  rintro ⟨a, ha, -⟩
  cases ha

theorem bootKernel_pages (header : BitVec 64) :
    FixmapPages 0x40000000 0x40001000 0x40002000 0x40003000 (bootKernel header) := by
  have hzero : ∀ x, pageOf x = 0x40000000 → (bootKernel header).mem x = 0 := fun x hx =>
    bootKernel_mem header (by unfold pageOf at hx; omega)
  obtain ⟨htree, hfoot, -⟩ := zero_table (c := 0x40000000) rfl hzero 3
  refine ⟨(VmState.Grows.setMem emptyKernel_ok _).ok, htree, fun x hx => ?_, ?_, ?_, fun p hp => ?_⟩
  · have hx' := (hfoot _).mp hx
    exact bootKernel_not_loose header (by unfold pageOf at hx'; omega) (by unfold pageOf at hx'; omega)
  · refine not_isTable_zero (load64_zero fun y h1 h2 => hzero y ?_)
    exact pageOf_slot rfl (index_lt 3 _) h1 h2
  · refine ⟨by decide, fun j hj => ?_⟩
    omega
  · have hrange : p % 4096 = 0 ∧ 0x40001000 ≤ p ∧ p < 0x40008000 := by
      rcases hp with rfl | rfl | ⟨j, hj, rfl⟩ <;> omega
    refine ⟨hrange.1, by omega, fun hf => ?_, fun x hx => ?_⟩
    · have := (hfoot p).mp hf
      omega
    · unfold pageOf at hx
      exact ⟨bootKernel_mem header (by omega), bootKernel_not_loose header (by omega) (by omega)⟩

def fixmapKernel (header : BitVec 64) : VmState :=
  (bootKernel header).setMem (earlyFixmapInit 0x40000000 0x40001000 0x40002000 0x40003000 (bootKernel header).mem)

theorem fixmapKernel_window (header : BitVec 64) : FdtWindow 0x40000000 (fixmapKernel header) :=
  (bootKernel_pages header).window

theorem fixmapKernel_fdt (hw : FdtWindow 0x40000000 s) (hmb : s.heap.mb = virtMemblock) :
    ¬ Foot s.mem 3 0x40000000 (pageOf 0x48000010) := by
  refine fun hf => hw.held 0x48000010 hf ?_
  unfold VmState.Loose Memblock.InMemory Memblock.Held Memblock.Reserved
  rw [hmb]
  refine ⟨by decide, fun h => absurd h.1 (by decide)⟩

/-- Both calls of `setup_machine_fdt` map a device tree of 40 bytes. -/
theorem fixmapRemapFdt_twice : ∃ s₁ s₂,
    fixmapRemapFdt 0x40000000 0x48000010 pageKernel 0 (fixmapKernel 0x28000000edfe0dd0#64) =
      some (s₁, some 0xffffffffff5fe010, 40) ∧
    FdtMapped 0x40000000 0x48000010 0xffffffffff5fe010 40 (fixmapKernel 0x28000000edfe0dd0#64) s₁ ∧
    fixmapRemapFdt 0x40000000 0x48000010 pageKernelRo 40 s₁ = some (s₂, some 0xffffffffff5fe010, 40) ∧
    FdtMapped 0x40000000 0x48000010 0xffffffffff5fe010 40 s₁ s₂ := by
  have hrun : ((fixmapRemapFdt 0x40000000 0x48000010 pageKernel 0 (fixmapKernel 0x28000000edfe0dd0#64)).bind fun q =>
      (fixmapRemapFdt 0x40000000 0x48000010 pageKernelRo 40 q.1).map fun q' =>
        (q.2, fdt32 q.1.mem (0x48000010 + 4), q'.2)) =
      some ((some 0xffffffffff5fe010, 40), 40, some 0xffffffffff5fe010, 40) := by decide +kernel
  obtain ⟨⟨s₁, p₁, size₁⟩, h₁, hrest⟩ := Option.bind_eq_some_iff.mp hrun
  obtain ⟨⟨s₂, p₂, size₂⟩, h₂, heq⟩ := Option.map_eq_some_iff.mp hrest
  simp only [Prod.mk.injEq] at heq
  obtain ⟨⟨rfl, rfl⟩, htotal, rfl, rfl⟩ := heq
  have hw := fixmapKernel_window 0x28000000edfe0dd0#64
  have htotal₀ : fdt32 (fixmapKernel 0x28000000edfe0dd0#64).mem (0x48000010 + 4) = 40 := by decide +kernel
  obtain ⟨hiff₁, hnext⟩ := fixmapRemapFdt_iff 0x40000000 0x48000010 pageKernel 0 _ s₁ _ _ hw (by decide) pageProt_kernel
    (fixmapKernel_fdt hw rfl) h₁
  have hcond₁ : fdt32 (fixmapKernel 0x28000000edfe0dd0#64).mem (0x48000010 + 4) + 0x48000010 % 4096 < 2 ^ 32 ∧
      0x48000010 + fdt32 (fixmapKernel 0x28000000edfe0dd0#64).mem (0x48000010 + 4) ≤ 2 ^ 48 := by
    rw [htotal₀]
    decide
  have hm₁ := hiff₁.mpr hcond₁
  have hw₁ := hnext hcond₁
  refine ⟨s₁, s₂, h₁, hm₁, h₂, (fixmapRemapFdt_iff 0x40000000 0x48000010 pageKernelRo 40 s₁ s₂ _ _ hw₁ (by decide)
    pageProt_kernelRo (fixmapKernel_fdt hw₁ hm₁.noTable) h₂).1.mpr ?_⟩
  rw [htotal]
  decide

/-- A header with a total size of 2^32 - 8 gives a pointer and the size -8. -/
theorem fixmapRemapFdt_negative : ∃ s', FdtWindow 0x40000000 (fixmapKernel 0xf8ffffffedfe0dd0#64) ∧
    ¬ Foot (fixmapKernel 0xf8ffffffedfe0dd0#64).mem 3 0x40000000 (pageOf 0x48000010) ∧
    fixmapRemapFdt 0x40000000 0x48000010 pageKernel 0 (fixmapKernel 0xf8ffffffedfe0dd0#64) =
      some (s', some 0xffffffffff5fe010, -8) ∧
    ¬ FdtMapped 0x40000000 0x48000010 0xffffffffff5fe010 (-8) (fixmapKernel 0xf8ffffffedfe0dd0#64) s' := by
  have hrun : (fixmapRemapFdt 0x40000000 0x48000010 pageKernel 0 (fixmapKernel 0xf8ffffffedfe0dd0#64)).map Prod.snd =
      some (some 0xffffffffff5fe010, -8) := by decide +kernel
  obtain ⟨⟨s', q⟩, h1, rfl⟩ := Option.map_eq_some_iff.mp hrun
  have hw := fixmapKernel_window 0xf8ffffffedfe0dd0#64
  exact ⟨s', hw, fixmapKernel_fdt hw rfl, h1, fun h => absurd h.nonneg (by decide)⟩

end QuestOS
