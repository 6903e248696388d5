import QuestOS.Mmu.EarlyLevels
import QuestOS.Boot.IdentityMap

/-!
# The tables that the bootloader builds

The tables are described by their entries: `ent k r` is the entry of level `k` for the range number `r` of
`span k` bytes, zero where there is none.  `Rep` says that the memory holds these entries, that the tables
are different pages of the pool and that every store so far was to one of them.  The walk reads the entry of
the page (`Rep.walk_root`); a round of the last level replaces such an entry (`Rep.page`), and a round of the
upper levels adds a table (`Rep.link`).
-/

namespace QuestOS.Boot

open Bytes PageTable

abbrev Entries := Nat → Nat → Entry

def Has (ent : Entries) (k q : Nat) : Prop := if k = 3 then q = 0 else ent (k + 1) q ≠ 0

def tableOf (root : Nat) (ent : Entries) (k q : Nat) : Nat := if k = 3 then root else outAddr (ent (k + 1) q)

def addrOf (root : Nat) (ent : Entries) (k r : Nat) : Nat := tableOf root ent k (r / 512) + 8 * (r % 512)

structure Layout (root base top : Nat) : Prop where
  root_mod : root % 4096 = 0
  root_le : root + 4096 ≤ 2 ^ 48
  top_le : top ≤ 2 ^ 48
  apart : root + 4096 ≤ base ∨ top ≤ root

structure Rep (root base top : Nat) (ent : Entries) (s : State) : Prop extends Layout root base top where
  x5_mod : s.x5 % 4096 = 0
  base_le : base ≤ s.x5
  x5_le : s.x5 ≤ top
  slot : ∀ k ≤ 3, ∀ r, Has ent k (r / 512) → load64 s.mem (addrOf root ent k r) = ent k r
  closed : ∀ k ≤ 3, ∀ r, ¬ Has ent k (r / 512) → ent k r = 0
  table : ∀ k, 1 ≤ k → k ≤ 3 → ∀ r, ent k r ≠ 0 → isTable (ent k r) = true ∧ outAddr (ent k r) % 4096 = 0 ∧
    base ≤ outAddr (ent k r) ∧ outAddr (ent k r) + 4096 ≤ s.x5
  inj : ∀ k r k' r', 1 ≤ k → k ≤ 3 → 1 ≤ k' → k' ≤ 3 → ent k r ≠ 0 → ent k' r' ≠ 0 →
    outAddr (ent k r) = outAddr (ent k' r') → k = k' ∧ r = r'
  stores : ∀ st ∈ s.stores, st.Accounted root base

variable {root base top : Nat} {ent ent' : Entries} {s s' : State} {k k' r r' q x2 x7 : Nat} {e : Entry}

theorem has_three : Has ent 3 q ↔ q = 0 := by rw [Has, if_pos rfl]

theorem has_of_ne (hk : k ≠ 3) : Has ent k q ↔ ent (k + 1) q ≠ 0 := by rw [Has, if_neg hk]

theorem tableOf_of_ne (hk : k ≠ 3) : tableOf root ent k q = outAddr (ent (k + 1) q) := if_neg hk

/-! ### The tables are different pages -/

theorem Rep.table_page (h : Rep root base top ent s) (hk : k ≤ 3) (hq : Has ent k q) :
    tableOf root ent k q % 4096 = 0 ∧ (tableOf root ent k q = root ∨
      base ≤ tableOf root ent k q ∧ tableOf root ent k q + 4096 ≤ s.x5) := by
  by_cases h3 : k = 3
  · rw [tableOf, if_pos h3]
    exact ⟨h.root_mod, .inl rfl⟩
  · rw [tableOf_of_ne h3]
    obtain ⟨-, h1, h2, h4⟩ := h.table (k + 1) (by omega) (by omega) q ((has_of_ne h3).1 hq)
    exact ⟨h1, .inr ⟨h2, h4⟩⟩

theorem Rep.table_inj (h : Rep root base top ent s) (hk : k ≤ 3) (hk' : k' ≤ 3) (hq : Has ent k q) {q' : Nat}
    (hq' : Has ent k' q') (heq : tableOf root ent k q = tableOf root ent k' q') : k = k' ∧ q = q' := by
  have hroot : ∀ {k q}, k ≤ 3 → k ≠ 3 → Has ent k q → tableOf root ent k q ≠ root := by
    intro k q hk h3 hq heq
    rw [tableOf_of_ne h3] at heq
    obtain ⟨-, -, h1, h2⟩ := h.table (k + 1) (by omega) (by omega) q ((has_of_ne h3).1 hq)
    have := h.apart
    have := h.x5_le
    omega
  by_cases h3 : k = 3
  · by_cases h3' : k' = 3
    · subst h3 h3'
      exact ⟨rfl, (has_three.1 hq).trans (has_three.1 hq').symm⟩
    · subst h3
      exact absurd heq.symm (hroot hk' h3' hq')
  · by_cases h3' : k' = 3
    · subst h3'
      exact absurd heq (hroot hk h3 hq)
    · rw [tableOf_of_ne h3, tableOf_of_ne h3'] at heq
      obtain ⟨h1, h2⟩ := h.inj (k + 1) q (k' + 1) q' (by omega) (by omega) (by omega) (by omega)
        ((has_of_ne h3).1 hq) ((has_of_ne h3').1 hq') heq
      exact ⟨by omega, h2⟩

theorem Rep.addr_disjoint (h : Rep root base top ent s) (hk : k ≤ 3) (hk' : k' ≤ 3) (hr : Has ent k (r / 512))
    (hr' : Has ent k' (r' / 512)) (hne : ¬ (k = k' ∧ r = r')) :
    addrOf root ent k r + 8 ≤ addrOf root ent k' r' ∨ addrOf root ent k' r' + 8 ≤ addrOf root ent k r := by
  have h1 := (h.table_page hk hr).1
  have h2 := (h.table_page hk' hr').1
  unfold addrOf
  by_cases heq : tableOf root ent k (r / 512) = tableOf root ent k' (r' / 512)
  · obtain ⟨rfl, hq⟩ := h.table_inj hk hk' hr hr' heq
    have : r ≠ r' := fun hrr => hne ⟨rfl, hrr⟩
    omega
  · omega

theorem Rep.addr_mem (h : Rep root base top ent s) (hk : k ≤ 3) (hr : Has ent k (r / 512)) :
    root ≤ addrOf root ent k r ∧ addrOf root ent k r + 8 ≤ root + 4096 ∨
      base ≤ addrOf root ent k r ∧ addrOf root ent k r + 8 ≤ s.x5 := by
  obtain ⟨-, h1⟩ := h.table_page hk hr
  unfold addrOf
  omega

theorem Rep.add64_addr (h : Rep root base top ent s) (hk : k ≤ 3) (hr : Has ent k (r / 512))
    (ha : addrOf root ent k r = x2 + 8 * x7) : add64 x2 (8 * x7) = addrOf root ent k r := by
  have h1 := h.addr_mem hk hr
  have h2 := h.root_le
  have h3 := h.top_le
  have h4 := h.x5_le
  rw [add64, ← ha]
  omega

/-! ### The walk -/

theorem div_span_succ (k a : Nat) : a / span (k + 1) = a / span k / 512 := by
  rw [span_succ, Nat.mul_comm, Nat.div_div_eq_div_mul]

theorem Rep.page_of_zero (h : Rep root base top ent s) (hk : k ≤ 3) {a : Nat} (hz : ent k (a / span k) = 0) :
    ent 0 (a / span 0) = 0 := by
  induction k with
  | zero => exact hz
  | succ k ih =>
    refine ih (by omega) (h.closed k (by omega) _ ?_)
    rw [has_of_ne (by omega), ← div_span_succ, hz]
    exact fun hne => hne rfl

theorem Rep.walk_table (h : Rep root base top ent s) (hk : k ≤ 3) {a : Nat} (hr : Has ent k (a / span (k + 1))) :
    walk s.mem k (tableOf root ent k (a / span (k + 1))) a = leafOf 0 (ent 0 (a / span 0)) a := by
  have hslot := h.slot k hk (a / span k) (by rwa [← div_span_succ])
  rw [addrOf, ← div_span_succ] at hslot
  change PageTable.slot s.mem _ (index k a) = _ at hslot
  induction k with
  | zero => rw [walk_zero, hslot]
  | succ k ih =>
    have h3 : k ≠ 3 := by omega
    by_cases hz : ent (k + 1) (a / span (k + 1)) = 0
    · rw [walk_of_not_valid (by rw [hslot, hz]; rfl), h.page_of_zero hk hz]
      rfl
    · have htab := (h.table (k + 1) (by omega) hk _ hz).1
      rw [walk_of_table (by rw [hslot]; exact htab), hslot]
      have hr' : Has ent k (a / span (k + 1)) := (has_of_ne h3).2 hz
      have htable : tableOf root ent k (a / span (k + 1)) = outAddr (ent (k + 1) (a / span (k + 1))) := tableOf_of_ne h3
      rw [← htable]
      refine ih (by omega) hr' ?_
      have := h.slot k (by omega) (a / span k) (by rwa [← div_span_succ])
      rwa [addrOf, ← div_span_succ] at this

theorem Rep.walk_root (h : Rep root base top ent s) {a : Nat} (ha : a < 2 ^ 48) :
    walk s.mem 3 root a = leafOf 0 (ent 0 (a / 4096)) a := by
  have hq : a / span (3 + 1) = 0 := Nat.div_eq_of_lt ha
  have := h.walk_table (k := 3) (Nat.le_refl 3) (has_three.2 hq)
  rwa [tableOf, if_pos rfl] at this

/-! ### One entry changes -/

def setEnt (ent : Entries) (k r : Nat) (e : Entry) : Entries :=
  fun k' r' => if k' = k ∧ r' = r then e else ent k' r'

theorem setEnt_self : setEnt ent k r e k r = e := if_pos ⟨rfl, rfl⟩

theorem setEnt_of_ne (h : ¬ (k' = k ∧ r' = r)) : setEnt ent k r e k' r' = ent k' r' := if_neg h

theorem Rep.page (h : Rep root base top ent s) (hr : Has ent 0 (r / 512)) (e : Entry) :
    Rep root base top (setEnt ent 0 r e) { s with
      mem := store64 s.mem (addrOf root ent 0 r) e
      stores := s.stores ++ [⟨addrOf root ent 0 r, 8, s.x5⟩] } := by
  have habove : ∀ k r', setEnt ent 0 r e (k + 1) r' = ent (k + 1) r' := fun k r' => setEnt_of_ne (by omega)
  have hhas : ∀ k q, Has (setEnt ent 0 r e) k q ↔ Has ent k q := by
    intro k q
    rw [Has, Has, habove]
  have haddr : ∀ k r', addrOf root (setEnt ent 0 r e) k r' = addrOf root ent k r' := by
    intro k r'
    rw [addrOf, addrOf, tableOf, tableOf, habove]
  have hup : ∀ k, 1 ≤ k → ∀ r', setEnt ent 0 r e k r' = ent k r' := fun k hk r' => setEnt_of_ne (by omega)
  refine { h.toLayout with
    x5_mod := h.x5_mod, base_le := h.base_le, x5_le := h.x5_le,
    slot := ?_, closed := ?_, table := ?_, inj := ?_, stores := ?_ }
  · intro k hk r' hr'
    rw [hhas] at hr'
    rw [haddr]
    by_cases heq : k = 0 ∧ r' = r
    · obtain ⟨rfl, rfl⟩ := heq
      rw [load64_store64, setEnt_self]
    · rw [load64_store64_of_disjoint (h.addr_disjoint (by omega) hk hr hr' (by omega)), h.slot k hk r' hr',
        setEnt_of_ne heq]
  · intro k hk r' hr'
    rw [hhas] at hr'
    rw [setEnt_of_ne, h.closed k hk r' hr']
    rintro ⟨rfl, rfl⟩
    exact hr' hr
  · intro k h1 hk r' hne
    rw [hup k h1] at hne ⊢
    exact h.table k h1 hk r' hne
  · intro k r₁ k' r₂ h1 hk h1' hk' hne hne' heq
    rw [hup k h1] at hne heq
    rw [hup k' h1'] at hne' heq
    exact h.inj k r₁ k' r₂ h1 hk h1' hk' hne hne' heq
  · intro st hst
    rcases List.mem_append.1 hst with hst | hst
    · exact h.stores st hst
    · rw [List.mem_singleton.1 hst]
      exact h.addr_mem (by omega) hr

theorem Rep.link (h : Rep root base top ent s) (h1 : 1 ≤ k) (hk : k ≤ 3) (hr : Has ent k (r / 512))
    (hz : ent k r = 0) (htop : s.x5 + 4096 ≤ top) (he : isTable e = true) (hout : outAddr e = s.x5) :
    Rep root base top (setEnt ent k r e)
      { mem := fill (store64 s.mem (addrOf root ent k r) e) s.x5 4096 0
        x5 := s.x5 + 4096
        stores := s.stores ++ [⟨addrOf root ent k r, 8, s.x5⟩, ⟨s.x5, 4096, s.x5 + 4096⟩] } := by
  have hene : e ≠ 0 := by
    rintro rfl
    cases he
  have hmem : ∀ {k' r'}, k' ≤ 3 → Has ent k' (r' / 512) →
      addrOf root ent k' r' + 8 ≤ s.x5 ∨ s.x5 + 4096 ≤ addrOf root ent k' r' := by
    intro k' r' hk' hr'
    have := h.addr_mem hk' hr'
    have := h.apart
    have := h.base_le
    omega
  -- the tables that were there have the same address, and one more is there
  have hhas : ∀ k' q, k' ≤ 3 → (Has (setEnt ent k r e) k' q ↔ Has ent k' q ∨ k' + 1 = k ∧ q = r) := by
    intro k' q hk'
    by_cases h3 : k' = 3
    · subst h3
      rw [has_three, has_three]
      omega
    · rw [has_of_ne h3, has_of_ne h3, setEnt]
      by_cases heq : k' + 1 = k ∧ q = r
      · rw [if_pos heq]
        exact iff_of_true hene (.inr heq)
      · rw [if_neg heq]
        exact ⟨.inl, fun h' => h'.resolve_right heq⟩
  have haddr : ∀ k' r', k' ≤ 3 → Has ent k' (r' / 512) → addrOf root (setEnt ent k r e) k' r' = addrOf root ent k' r' := by
    intro k' r' hk' hr'
    rw [addrOf, addrOf, tableOf, tableOf]
    by_cases h3 : k' = 3
    · rw [if_pos h3, if_pos h3]
    · rw [if_neg h3, if_neg h3, setEnt_of_ne]
      rintro ⟨rfl, hq⟩
      rw [has_of_ne h3, hq] at hr'
      exact hr' hz
  have hnew : ∀ k' r', k' + 1 = k → r' / 512 = r → addrOf root (setEnt ent k r e) k' r' = s.x5 + 8 * (r' % 512) ∧
      setEnt ent k r e k' r' = 0 := by
    intro k' r' hkk hrr
    refine ⟨?_, ?_⟩
    · rw [addrOf, tableOf_of_ne (by omega), hkk, hrr, setEnt_self, hout]
    · rw [setEnt_of_ne (by omega)]
      refine h.closed k' (by omega) r' ?_
      rw [has_of_ne (by omega), hkk, hrr, hz]
      exact fun hne => hne rfl
  refine { h.toLayout with
    x5_mod := ?_, base_le := ?_, x5_le := htop, slot := ?_, closed := ?_, table := ?_, inj := ?_, stores := ?_ }
  · have := h.x5_mod
    change (s.x5 + 4096) % 4096 = 0
    omega
  · exact Nat.le_trans h.base_le (Nat.le_add_right _ _)
  · intro k' hk' r' hr'
    change load64 (fill _ s.x5 4096 0) _ = _
    rcases (hhas k' _ hk').1 hr' with hold | ⟨hkk, hrr⟩
    · have hfar := hmem hk' hold
      have hfill : load64 (fill (store64 s.mem (addrOf root ent k r) e) s.x5 4096 0) (addrOf root ent k' r') =
          load64 (store64 s.mem (addrOf root ent k r) e) (addrOf root ent k' r') :=
        load64_congr fun x hx1 hx2 => fill_of_not (by omega)
      rw [haddr k' r' hk' hold, hfill]
      by_cases heq : k' = k ∧ r' = r
      · obtain ⟨rfl, rfl⟩ := heq
        rw [load64_store64, setEnt_self]
      · rw [load64_store64_of_disjoint (h.addr_disjoint hk hk' hr hold (by omega)), h.slot k' hk' r' hold,
          setEnt_of_ne heq]
    · obtain ⟨ha, hzero⟩ := hnew k' r' hkk hrr
      rw [ha, hzero]
      exact load64_zero fun x hx1 hx2 => fill_of_mem (by omega)
  · intro k' hk' r' hr'
    rw [hhas k' _ hk', not_or] at hr'
    rw [setEnt_of_ne, h.closed k' hk' r' hr'.1]
    rintro ⟨rfl, rfl⟩
    exact hr'.1 hr
  · intro k' h1' hk' r' hne
    change _ ∧ _ ∧ _ ∧ _ ≤ s.x5 + 4096
    by_cases heq : k' = k ∧ r' = r
    · obtain ⟨rfl, rfl⟩ := heq
      rw [setEnt_self, hout]
      exact ⟨he, h.x5_mod, h.base_le, Nat.le_refl _⟩
    · rw [setEnt_of_ne heq] at hne ⊢
      obtain ⟨h2, h3, h4, h5⟩ := h.table k' h1' hk' r' hne
      exact ⟨h2, h3, h4, by omega⟩
  · -- the new table lies behind the old ones
    have hbehind : ∀ k' r', 1 ≤ k' → k' ≤ 3 → ent k' r' ≠ 0 → outAddr (ent k' r') ≠ s.x5 := by
      intro k' r' h1' hk' hne heq
      have := (h.table k' h1' hk' r' hne).2.2.2
      omega
    intro k₁ r₁ k₂ r₂ h11 hk1 h12 hk2 hne1 hne2 heq
    by_cases e1 : k₁ = k ∧ r₁ = r
    · by_cases e2 : k₂ = k ∧ r₂ = r
      · exact ⟨e1.1.trans e2.1.symm, e1.2.trans e2.2.symm⟩
      · rw [setEnt_of_ne e2] at hne2 heq
        rw [e1.1, e1.2, setEnt_self, hout] at heq
        exact absurd heq.symm (hbehind k₂ r₂ h12 hk2 hne2)
    · rw [setEnt_of_ne e1] at hne1 heq
      by_cases e2 : k₂ = k ∧ r₂ = r
      · rw [e2.1, e2.2, setEnt_self, hout] at heq
        exact absurd heq (hbehind k₁ r₁ h11 hk1 hne1)
      · rw [setEnt_of_ne e2] at hne2 heq
        exact h.inj k₁ r₁ k₂ r₂ h11 hk1 h12 hk2 hne1 hne2 heq
  · intro st hst
    have hb := h.base_le
    rcases List.mem_append.1 hst with hst | hst
    · exact h.stores st hst
    · rcases List.mem_cons.1 hst with rfl | hst
      · exact h.addr_mem hk hr
      · rw [List.mem_singleton.1 hst]
        exact .inr ⟨hb, Nat.le_refl _⟩

end QuestOS.Boot
