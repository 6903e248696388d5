import QuestOS.Mmu.CreateTables
import QuestOS.Mmu.EarlyMap

/-!
# The fixmap

The layout of `fixmap.h` and `early_fixmap_init`, which links three levels of static tables to the top-level table, so
that the window for the device tree needs no other table.
-/

namespace QuestOS

open Bytes PageTable
open VmapRequest (TablesHeld LowEntry tableEntry)

/-! ### Layout -/

def fixaddrTop : Nat := 0xffffffffff800000

def maxFdtSize : Nat := 0x200000

def fixFdtEnd : Nat := 1

def fixFdt : Nat := fixFdtEnd + (maxFdtSize + 4095) / 4096 + 1

def endOfFixedAddresses : Nat := fixFdt + 3 + 7 * 256 + 4

def fixToVirt (x : Nat) : Nat := fixaddrTop - x * 4096

theorem fixToVirt_fixFdt : fixToVirt fixFdt = 0xffffffffff5fe000 := rfl

theorem fixToVirt_fixFdt_mod : fixToVirt fixFdt % 4096 = 0 := by decide

theorem fixToVirt_fixFdtEnd : fixToVirt fixFdtEnd = 0xffffffffff7ff000 := rfl

def fixaddrTotStart : Nat := fixToVirt endOfFixedAddresses

def fixmapTable (table : Nat) : Entry := BitVec.ofNat 64 table ||| (pgDescTypeTable ||| pgTableEntryRwx)

def fixmapInitPmd (pmd bmPte : Nat) : (n va : Nat) → Mem → Mem
  | 0, _, m => m
  | n + 1, va, m =>
    fixmapInitPmd pmd bmPte n (addrEnd 1 va fixaddrTop)
      (store64 m (pmd + 8 * index 1 va) (fixmapTable (bmPte + 4096 * (va / span 1 - fixaddrTotStart / span 1))))

def earlyFixmapInit (swapper bmPud bmPmd bmPte : Nat) (m : Mem) : Mem :=
  let m := store64 m (swapper + 8 * index 3 fixaddrTotStart) (fixmapTable bmPud)
  let m := store64 m (bmPud + 8 * index 2 fixaddrTotStart) (fixmapTable bmPmd)
  fixmapInitPmd bmPmd bmPte (index 1 (fixaddrTop - 1) - index 1 fixaddrTotStart + 1) fixaddrTotStart m

structure FdtWindow (root : Nat) (s : VmState) : Prop where
  ok : s.Ok
  tree : Tree s.mem 3 root
  held : TablesHeld s 3 root
  tabled : ∀ x, fixToVirt fixFdt ≤ x → x < fixToVirt fixFdtEnd + 4096 → Tabled s.mem 3 root x

variable {root bmPud bmPmd bmPte x : Nat} {m : Mem} {s : VmState}

/-! ### The window after `early_fixmap_init` -/

theorem fixmapInitPmd_frame {pmd bmPte : Nat} (hpmd : pmd % 4096 = 0) (n va : Nat) (hx : pageOf x ≠ pmd) :
    fixmapInitPmd pmd bmPte n va m x = m x := by
  induction n generalizing va m with
  | zero => rfl
  | succ n ih => rw [fixmapInitPmd, ih, store64_slot_frame hpmd (index_lt 1 va) hx]

theorem fixmapInitPmd_slot {pmd bmPte j : Nat} (n va : Nat) (hva : fixaddrTotStart ≤ va)
    (hn : va / span 1 + n = fixaddrTop / span 1) :
    slot (fixmapInitPmd pmd bmPte n va m) pmd j =
      if 508 - n ≤ j ∧ j < 508 then fixmapTable (bmPte + 4096 * (j - 503)) else slot m pmd j := by
  have hfirst : fixaddrTotStart / span 1 = 8796093022199 := rfl
  have htop : fixaddrTop / span 1 = 8796093022204 := rfl
  have hge : fixaddrTotStart / span 1 ≤ va / span 1 := Nat.div_le_div_right hva
  induction n generalizing va m with
  | zero => rw [if_neg (by omega), fixmapInitPmd]
  | succ n ih =>
    have hidx : index 1 va = 508 - (n + 1) := by
      unfold index
      omega
    have htable : va / span 1 - fixaddrTotStart / span 1 = 508 - (n + 1) - 503 := by omega
    rw [fixmapInitPmd, hidx, htable]
    cases n with
    | zero =>
      rw [fixmapInitPmd]
      by_cases hj : j = 507
      · rw [hj, if_pos (by omega), slot_store64]
      · rw [if_neg (by omega), slot_store64_of_ne (by omega)]
    | succ n =>
      have hend : spanEnd 1 va = (va / span 1 + 1) * span 1 := by rw [spanEnd, spanStart, Nat.succ_mul]
      have hdiv : spanEnd 1 va / span 1 = va / span 1 + 1 := by rw [hend, Nat.mul_div_cancel _ (span_pos 1)]
      have hle : spanEnd 1 va ≤ fixaddrTop := by
        rw [hend, show fixaddrTop = 8796093022204 * span 1 from rfl]
        exact Nat.mul_le_mul_right _ (by omega)
      have hlt := lt_spanEnd 1 va
      have hnext : addrEnd 1 va fixaddrTop = spanEnd 1 va := by
        rw [addrEnd_eq (by decide) (by omega) (by decide) (by decide), Nat.min_eq_right hle]
      rw [hnext, ih (spanEnd 1 va) (by omega) (by omega) (by omega)]
      by_cases hj : j = 508 - (n + 1 + 1)
      · rw [if_neg (by omega), if_pos (by omega), hj, slot_store64]
      · rw [slot_store64_of_ne hj]
        refine if_congr ?_ rfl rfl
        omega

def IsFixmapPage (bmPud bmPmd bmPte p : Nat) : Prop := p = bmPud ∨ p = bmPmd ∨ ∃ j < 5, p = bmPte + 4096 * j

structure FixmapPages (root bmPud bmPmd bmPte : Nat) (s : VmState) : Prop where
  ok : s.Ok
  tree : Tree s.mem 3 root
  held : TablesHeld s 3 root
  entry : isTable (slot s.mem root (index 3 fixaddrTotStart)) = false
  ne : bmPud ≠ bmPmd ∧ ∀ j < 5, bmPte + 4096 * j ≠ bmPud ∧ bmPte + 4096 * j ≠ bmPmd
  page : ∀ p, IsFixmapPage bmPud bmPmd bmPte p →
    p % 4096 = 0 ∧ p < 2 ^ 48 ∧ ¬ Foot s.mem 3 root p ∧ ∀ x, pageOf x = p → s.mem x = 0 ∧ ¬ s.Loose x

theorem fixmapTable_entry {c : Nat} (hc : c % 4096 = 0) (hlt : c < 2 ^ 48) :
    isTable (fixmapTable c) = true ∧ outAddr (fixmapTable c) = c ∧ LowEntry (fixmapTable c) := by
  have hprot : PageProt (pgDescTypeTable ||| pgTableEntryRwx) := ⟨by unfold NoAddr; decide, by decide⟩
  have h := tableEntry hprot hc hlt
  exact ⟨h.1, h.2.1, h.2.2.2⟩

structure FixmapLinked (root bmPud bmPmd bmPte : Nat) (m m' : Mem) : Prop where
  frame : ∀ x, pageOf x ≠ root → pageOf x ≠ bmPud → pageOf x ≠ bmPmd → m' x = m x
  root : ∀ j < 512, slot m' root j = if j = 511 then fixmapTable bmPud else slot m root j
  pud : ∀ j < 512, slot m' bmPud j = if j = 511 then fixmapTable bmPmd else 0
  pmd : ∀ j < 512, slot m' bmPmd j = if 503 ≤ j ∧ j < 508 then fixmapTable (bmPte + 4096 * (j - 503)) else 0

theorem FixmapPages.linked (h : FixmapPages root bmPud bmPmd bmPte s) :
    FixmapLinked root bmPud bmPmd bmPte s.mem (earlyFixmapInit root bmPud bmPmd bmPte s.mem) := by
  have hpud := h.page bmPud (.inl rfl)
  have hpmd := h.page bmPmd (.inr (.inl rfl))
  have hroot := h.tree.aligned
  have hne : bmPud ≠ root ∧ bmPmd ≠ root := by
    constructor
    · rintro rfl
      exact hpud.2.2.1 (foot_self ..)
    · rintro rfl
      exact hpmd.2.2.1 (foot_self ..)
  have h3 : index 3 fixaddrTotStart = 511 := rfl
  have h2 : index 2 fixaddrTotStart = 511 := rfl
  have hn : index 1 (fixaddrTop - 1) - index 1 fixaddrTotStart + 1 = 5 := rfl
  have hslot : ∀ (t : Nat) (m₁ m₂ : Mem), t % 4096 = 0 → (∀ x, pageOf x = t → m₁ x = m₂ x) → ∀ j < 512,
      slot m₁ t j = slot m₂ t j := fun t m₁ m₂ ht hm j hj => slot_congr ht hj hm
  rw [earlyFixmapInit, h3, h2, hn]
  refine ⟨fun x hx1 hx2 hx3 => ?_, fun j hj => ?_, fun j hj => ?_, fun j hj => ?_⟩
  · rw [fixmapInitPmd_frame hpmd.1 _ _ hx3, store64_slot_frame hpud.1 (by decide) hx2,
      store64_slot_frame hroot (by decide) hx1]
  · rw [hslot root _ (store64 s.mem (root + 8 * 511) (fixmapTable bmPud)) hroot (fun x hx => ?_) j hj]
    · by_cases hj' : j = 511
      · rw [hj', if_pos rfl, slot_store64]
      · rw [if_neg hj', slot_store64_of_ne hj']
    · rw [fixmapInitPmd_frame hpmd.1 _ _ (by rw [hx]; exact hne.2.symm),
        store64_slot_frame hpud.1 (by decide) (by rw [hx]; exact hne.1.symm)]
  · rw [hslot bmPud _ (store64 (store64 s.mem (root + 8 * 511) (fixmapTable bmPud)) (bmPud + 8 * 511)
      (fixmapTable bmPmd)) hpud.1 (fun x hx => fixmapInitPmd_frame hpmd.1 _ _ (by rw [hx]; exact h.ne.1)) j hj]
    by_cases hj' : j = 511
    · rw [hj', if_pos rfl, slot_store64]
    · rw [if_neg hj', slot_store64_of_ne hj', hslot bmPud _ s.mem hpud.1 (fun x hx => ?_) j hj]
      · exact load64_zero fun y hy1 hy2 => (hpud.2.2.2 y (pageOf_slot hpud.1 hj hy1 hy2)).1
      · exact store64_slot_frame hroot (by decide) (by rw [hx]; exact hne.1)
  · rw [fixmapInitPmd_slot 5 fixaddrTotStart (Nat.le_refl _) (by decide)]
    refine if_congr Iff.rfl rfl ?_
    rw [hslot bmPmd _ s.mem hpmd.1 (fun x hx => ?_) j hj]
    · exact load64_zero fun y hy1 hy2 => (hpmd.2.2.2 y (pageOf_slot hpmd.1 hj hy1 hy2)).1
    · rw [store64_slot_frame hpud.1 (by decide) (by rw [hx]; exact h.ne.1.symm),
        store64_slot_frame hroot (by decide) (by rw [hx]; exact hne.2)]

theorem not_isTable_zero {m' : Mem} {t j : Nat} (h : slot m' t j = 0) : isTable (slot m' t j) = false := by
  rw [h]
  rfl

theorem FixmapPages.pmd_entry {m' : Mem} (h : FixmapPages root bmPud bmPmd bmPte s)
    (hl : FixmapLinked root bmPud bmPmd bmPte s.mem m') {i : Nat} (hi : i < 512)
    (htab : isTable (slot m' bmPmd i) = true) : 503 ≤ i ∧ i < 508 ∧ outAddr (slot m' bmPmd i) = bmPte + 4096 * (i - 503) := by
  by_cases hin : 503 ≤ i ∧ i < 508
  · have hp := h.page (bmPte + 4096 * (i - 503)) (.inr (.inr ⟨i - 503, by omega, rfl⟩))
    rw [hl.pmd i hi, if_pos hin]
    exact ⟨hin.1, hin.2, (fixmapTable_entry hp.1 hp.2.1).2.1⟩
  · rw [not_isTable_zero (by rw [hl.pmd i hi, if_neg hin])] at htab
    cases htab

theorem FixmapPages.pmd_tree {m' : Mem} (h : FixmapPages root bmPud bmPmd bmPte s)
    (hl : FixmapLinked root bmPud bmPmd bmPte s.mem m') :
    Tree m' 1 bmPmd ∧ ∀ p, Foot m' 1 bmPmd p → p = bmPmd ∨ ∃ j < 5, p = bmPte + 4096 * j := by
  refine ⟨⟨(h.page bmPmd (.inr (.inl rfl))).1, fun i hi htab => ?_, fun i hi j hj hij hti htj p hpi hpj => ?_⟩,
    fun p hp => ?_⟩
  · obtain ⟨h1, h2, hout⟩ := h.pmd_entry hl hi htab
    rw [hout]
    refine ⟨(h.page _ (.inr (.inr ⟨i - 503, by omega, rfl⟩))).1, fun hf => ?_⟩
    exact (h.ne.2 (i - 503) (by omega)).2 hf.symm
  · obtain ⟨h1, h2, hout⟩ := h.pmd_entry hl hi hti
    obtain ⟨h3, h4, hout'⟩ := h.pmd_entry hl hj htj
    have h5 : p = bmPte + 4096 * (i - 503) := by rw [← hout]; exact hpi
    have h6 : p = bmPte + 4096 * (j - 503) := by rw [← hout']; exact hpj
    omega
  · rcases hp with hp | ⟨i, hi, htab, hp⟩
    · exact .inl hp
    · obtain ⟨h1, h2, hout⟩ := h.pmd_entry hl hi htab
      rw [hout] at hp
      exact .inr ⟨i - 503, by omega, hp⟩

theorem FixmapPages.pud_tree {m' : Mem} (h : FixmapPages root bmPud bmPmd bmPte s)
    (hl : FixmapLinked root bmPud bmPmd bmPte s.mem m') :
    Tree m' 2 bmPud ∧ ∀ p, Foot m' 2 bmPud p → IsFixmapPage bmPud bmPmd bmPte p := by
  have hpmd := h.page bmPmd (.inr (.inl rfl))
  obtain ⟨htree, hfoot⟩ := h.pmd_tree hl
  have hentry : ∀ i < 512, isTable (slot m' bmPud i) = true → i = 511 ∧ outAddr (slot m' bmPud i) = bmPmd := by
    intro i hi htab
    by_cases hi' : i = 511
    · rw [hl.pud i hi, if_pos hi']
      exact ⟨hi', (fixmapTable_entry hpmd.1 hpmd.2.1).2.1⟩
    · rw [not_isTable_zero (by rw [hl.pud i hi, if_neg hi'])] at htab
      cases htab
  refine ⟨⟨(h.page bmPud (.inl rfl)).1, fun i hi htab => ?_, fun i hi j hj hij hti htj => ?_⟩, fun p hp => ?_⟩
  · rw [(hentry i hi htab).2]
    refine ⟨htree, fun hf => ?_⟩
    rcases hfoot _ hf with h1 | ⟨j, hj, h1⟩
    · exact h.ne.1 h1
    · exact (h.ne.2 j hj).1 h1.symm
  · have h1 := (hentry i hi hti).1
    have h2 := (hentry j hj htj).1
    omega
  · rcases hp with hp | ⟨i, hi, htab, hp⟩
    · exact .inl hp
    · rw [(hentry i hi htab).2] at hp
      exact .inr (hfoot p hp)

theorem FixmapPages.window (h : FixmapPages root bmPud bmPmd bmPte s) :
    FdtWindow root (s.setMem (earlyFixmapInit root bmPud bmPmd bmPte s.mem)) := by
  have hl := h.linked
  generalize earlyFixmapInit root bmPud bmPmd bmPte s.mem = m' at hl
  obtain ⟨htree, hfoot⟩ := h.pud_tree hl
  have hpud := h.page bmPud (.inl rfl)
  have hpmd := h.page bmPmd (.inr (.inl rfl))
  obtain ⟨htab, hout, hlow⟩ := fixmapTable_entry hpud.1 hpud.2.1
  have h511 := hl.root 511 (by decide)
  rw [if_pos rfl] at h511
  -- the other entries of the top-level table lead to the same tables as before
  have hslot : ∀ j < 512, j ≠ 511 → slot m' root j = slot s.mem root j := fun j hj hne => by
    rw [hl.root j hj, if_neg hne]
  obtain ⟨htree', hfoot', -⟩ := h.tree.update hslot
    (fun j hj _ he x hx => by
      have hchild := Foot.child hj he hx
      refine hl.frame x (fun hr => ?_) (fun hr => ?_) (fun hr => ?_)
      · rw [hr] at hx
        exact (h.tree.2.1 j hj he).2 hx
      · exact hpud.2.2.1 (hr ▸ hchild)
      · exact hpmd.2.2.1 (hr ▸ hchild))
    (fun _ => by
      rw [h511, hout]
      exact ⟨htree, fun hf => (h.page _ (hfoot _ hf)).2.2.1 (foot_self ..),
        fun j hj _ he p hp hpj => (h.page p (hfoot p hp)).2.2.1 (Foot.child hj he hpj)⟩)
  refine ⟨(VmState.Grows.setMem h.ok m').ok, htree', fun x hx hloose => ?_, fun x h1 h2 => ?_⟩
  · rcases hfoot' _ hx with h1 | ⟨-, h1⟩
    · exact h.held x h1 hloose
    · rw [h511, hout] at h1
      exact ((h.page _ (hfoot _ h1)).2.2.2 x rfl).2 hloose
  · rw [fixToVirt_fixFdt] at h1
    rw [fixToVirt_fixFdtEnd] at h2
    have hi3 : index 3 x = 511 := by
      rw [index, show span 3 = 2 ^ 39 from rfl]
      omega
    have hi2 : index 2 x = 511 := by
      rw [index, show span 2 = 2 ^ 30 from rfl]
      omega
    have hi1 : 503 ≤ index 1 x ∧ index 1 x < 508 := by
      rw [index, show span 1 = 2 ^ 21 from rfl]
      omega
    obtain ⟨htab', hout', hlow'⟩ := fixmapTable_entry hpmd.1 hpmd.2.1
    have hpte := h.page (bmPte + 4096 * (index 1 x - 503)) (.inr (.inr ⟨index 1 x - 503, by omega, rfl⟩))
    obtain ⟨htab'', -, hlow''⟩ := fixmapTable_entry hpte.1 hpte.2.1
    have hs2 := hl.pud 511 (by decide)
    have hs1 := hl.pmd (index 1 x) (index_lt 1 x)
    rw [if_pos rfl] at hs2
    rw [if_pos hi1] at hs1
    simp only [Tabled, VmState.mem_setMem, hi3, h511, hout, hi2, hs2, hout', hs1]
    exact ⟨htab, hlow, htab', hlow', htab'', hlow'', trivial⟩

end QuestOS
