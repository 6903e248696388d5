import QuestOS.Mmu.EarlyReady

/-!
# Empty ranges

The loops of the early page-table builder test their condition at the end, so that an empty range is not left out.  A round
for it links a table and stays at the same address.  Where the address is not the first one of a table, `XXX_ENTRY` of the
byte before it ends the loop after that round; where it is, the byte before it has the last index of a table, and the loop
links a table to every entry (`tableMapLoop_links`).
-/

namespace QuestOS

open Bytes PageTable

namespace EarlyRequest

variable {attr : BitVec 64} {block : Bool} {k t i j n start va p q : Nat} {m : Mem} {s s₁ : EarlyState}
  {next : MapRange} {used : List Nat}

/-! ### One round -/

theorem linkTable_le (t i : Nat) (s : EarlyState) : (linkTable t i s).pnext ≤ s.pnext + 4096 := by
  unfold linkTable
  split
  · exact Nat.le_add_right _ _
  · exact Nat.le_refl _

theorem add64_empty (start : Nat) (hva : va < 2 ^ 64) : add64 va (sub64 start start) = va := by
  unfold add64 sub64
  omega

theorem tableMapLoop_empty (hk : k ≤ 3) (hva : va < 2 ^ 64) (hstart : start ≤ 2 ^ 48) (last fuel : Nat)
    (hblock : useBlock k block start va va = false)
    (hs₁ : s₁ = next (outAddr (slot (linkTable t i s).mem t i)) start start va (linkTable t i s)) :
    tableMapLoop k block attr next t last start va (fuel + 1) i start va s =
      if i + 1 ≤ last then tableMapLoop k block attr next t last start va fuel (i + 1) start va s₁ else s₁ := by
  have hspan := span_le hk
  have hle := spanStart_le k va
  have hend : spanEnd k va = spanStart k va + span k := rfl
  have hmap : min (add64 start (spanEnd k va - va)) start = start := by
    unfold add64
    omega
  rw [tableMapLoop, hblock]
  simp only [mapSize_eq hk hva, hmap, add64_empty start hva, getAddr_eq, Bool.false_eq_true, if_false]
  rw [hs₁]

theorem tableMapRange_empty (hk : k ≤ 3) (hva : va < 2 ^ 64) (hstart : start ≤ 2 ^ 48)
    (hblock : useBlock k block start va va = false) (hgrow : Grows next)
    (hs₁ : s₁ = next (outAddr (slot (linkTable t (index k va) s).mem t (index k va))) start start va
      (linkTable t (index k va) s)) : s₁.pnext ≤ (tableMapRange k block attr next t start start va s).pnext := by
  rw [tableMapRange, add64_empty start hva, tableMapLoop_empty hk hva hstart _ _ hblock hs₁]
  split
  · exact tableMapLoop_grows hgrow ..
  · exact Nat.le_refl _

/-! ### The last entry -/

theorem lastEntry_pred (hk : k ≤ 5) (hva : va < 2 ^ 64) (h0 : 0 < va) : lastEntry k va = index k (va - 1) := by
  rw [← lastEntry_eq hk h0 (Nat.le_of_lt hva), Nat.mod_eq_of_lt hva]

theorem lastEntry_le (hk : k ≤ 5) (hva : va < 2 ^ 64) (hmod : va % span (k + 1) ≠ 0) : lastEntry k va ≤ index k va := by
  have h0 : 0 < va := by
    rcases Nat.eq_zero_or_pos va with rfl | h
    · exact absurd (Nat.zero_mod _) hmod
    · exact h
  have hreg : (va - 1) / span (k + 1) = va / span (k + 1) := by
    have hlt := lt_spanEnd (k + 1) va
    have hstart := spanStart_le (k + 1) va
    have hne : spanStart (k + 1) va ≠ va := fun h => hmod (by rw [← h]; exact spanStart_mod _ _)
    exact spanStart_of_mem (by omega) (by omega)
  have hle : (va - 1) / span k ≤ va / span k := Nat.div_le_div_right (Nat.sub_le _ _)
  rw [lastEntry_pred hk hva h0]
  rw [div_span_succ, div_span_succ] at hreg
  unfold index
  omega

theorem lastEntry_first (hk : k ≤ 4) (hva : va < 2 ^ 64) (hmod : va % span (k + 1) = 0) : lastEntry k va = 511 := by
  obtain ⟨pe, hpos, hle, hpe, hmod'⟩ : ∃ pe, 0 < pe ∧ pe ≤ 2 ^ 64 ∧ pe % 2 ^ 64 = va ∧ pe % span (k + 1) = 0 := by
    rcases Nat.eq_zero_or_pos va with rfl | h
    · exact ⟨2 ^ 64, by decide, Nat.le_refl _, Nat.mod_self _, two_pow_mod_span (by omega)⟩
    · exact ⟨va, h, Nat.le_of_lt hva, Nat.mod_eq_of_lt hva, hmod⟩
  have hspan := span_pos k
  rw [← hpe, lastEntry_eq (by omega) hpos hle, index]
  obtain ⟨n, rfl⟩ := Nat.dvd_of_mod_eq_zero hmod'
  have hassoc : span (k + 1) * n = span k * (512 * n) := by rw [span_succ, Nat.mul_comm 512, Nat.mul_assoc]
  rw [hassoc] at hpos ⊢
  have hn : 0 < 512 * n := Nat.pos_of_mul_pos_left hpos
  rw [Nat.mul_sub_div 0 (span k) (512 * n) hpos, Nat.zero_div]
  omega

/-! ### Empty ranges inside a table -/

theorem tableMapLoop_block (last fuel : Nat) (hlast : last ≤ i) (hblock : useBlock k block start va va = true) :
    (tableMapLoop k block attr next t last start va (fuel + 1) i start va s).pnext = s.pnext := by
  rw [tableMapLoop, if_pos hblock]
  dsimp only
  rw [if_neg (by omega)]

theorem tableMapRange_block (hk : k ≤ 3) (hva : va < 2 ^ 64) (hmod : va % span (k + 1) ≠ 0)
    (hblock : useBlock k block start va va = true) :
    (tableMapRange k block attr next t start start va s).pnext = s.pnext := by
  rw [tableMapRange, add64_empty start hva]
  exact tableMapLoop_block _ 511 (lastEntry_le (by omega) hva hmod) hblock

theorem tableMapRange_once {d : Nat} (hk : k ≤ 3) (hva : va < 2 ^ 64) (hstart : start ≤ 2 ^ 48)
    (hmod : va % span (k + 1) ≠ 0) (hnext : ∀ t s, (next t start start va s).pnext ≤ s.pnext + d) :
    (tableMapRange k block attr next t start start va s).pnext ≤ s.pnext + (4096 + d) := by
  by_cases hblock : useBlock k block start va va = true
  · rw [tableMapRange_block hk hva hmod hblock]
    exact Nat.le_add_right _ _
  · have hlast := lastEntry_le (by omega) hva hmod
    rw [tableMapRange, add64_empty start hva,
      tableMapLoop_empty hk hva hstart _ 511 (Bool.eq_false_iff.2 hblock) rfl, if_neg (by omega)]
    rw [← Nat.add_assoc]
    exact Nat.le_trans (hnext _ _) (Nat.add_le_add_right (linkTable_le ..) d)

/-! ### Empty ranges at the first address of a table -/

/-- Every round links one more page: the pages that `pte_map_range` writes to are other ones than the table. -/
theorem tableMapLoop_links (hva : va < 2 ^ 64) (hstart : start ≤ 2 ^ 48) (hblock : useBlock 1 block start va va = false)
    (ht : t % 4096 = 0) (hq : q ≤ 2 ^ 48) (fuel : Nat) (hmod : s.pnext % 4096 = 0)
    (hapart : ∀ x, s.pnext ≤ x → x < q → pageOf x ≠ t)
    (hempty : ∀ j, i ≤ j → j < 512 → isValid (slot s.mem t j) = false) (hn : i + n ≤ 512) (hfuel : n ≤ fuel)
    (hpool : s.pnext + 4096 * n ≤ q) :
    s.pnext + 4096 * n ≤ (tableMapLoop 1 block attr (pteMapRange attr) t 511 start va fuel i start va s).pnext := by
  induction n generalizing i fuel s with
  | zero => exact tableMapLoop_grows (pteMapRange_grows attr) ..
  | succ n ih =>
    obtain ⟨fuel, rfl⟩ : ∃ f, fuel = f + 1 := ⟨fuel - 1, by omega⟩
    have hval := hempty i (Nat.le_refl _) (by omega)
    have hlt : s.pnext < 2 ^ 48 := by omega
    rw [tableMapLoop_empty (by decide) hva hstart _ _ hblock rfl, linkTable_eq hval hmod hlt]
    dsimp only
    rw [slot_store64, (linkFields hmod hlt).outAddr]
    split
    · -- the other entries are as before
      have hslot : ∀ j, i + 1 ≤ j → j < 512 → isValid (slot (pteMapRange attr s.pnext start start va
          ⟨store64 s.mem (t + 8 * i) (desc s.pnext pgTableEntryRwx pgDescTypeTable), s.pnext + 4096⟩).mem t j) = false := by
        intro j h1 h2
        have hkept : ∀ x, pageOf x = t → (pteMapRange attr s.pnext start start va
            ⟨store64 s.mem (t + 8 * i) (desc s.pnext pgTableEntryRwx pgDescTypeTable), s.pnext + 4096⟩).mem x =
            store64 s.mem (t + 8 * i) (desc s.pnext pgTableEntryRwx pgDescTypeTable) x := by
          rintro x rfl
          refine pteMapLoop_frame hmod (index_lt _ _) (fun heq => ?_) 512
          exact hapart s.pnext (Nat.le_refl _) (by omega) ((pageOf_of_aligned hmod).trans heq.symm)
        rw [slot_congr ht h2 hkept, slot_store64_of_ne (by omega)]
        exact hempty j (by omega) h2
      have hrest := ih fuel (s := pteMapRange attr s.pnext start start va
        ⟨store64 s.mem (t + 8 * i) (desc s.pnext pgTableEntryRwx pgDescTypeTable), s.pnext + 4096⟩) (i := i + 1)
        (show (s.pnext + 4096) % 4096 = 0 by omega) (fun x (hx : s.pnext + 4096 ≤ x) => hapart x (by omega)) hslot
        (by omega) (by omega) (show s.pnext + 4096 + 4096 * n ≤ q by omega)
      refine Nat.le_trans ?_ hrest
      change s.pnext + 4096 * (n + 1) ≤ s.pnext + 4096 + 4096 * n
      omega
    · change s.pnext + 4096 * (n + 1) ≤ s.pnext + 4096
      omega

end EarlyRequest

end QuestOS
