import QuestOS.Mmu.EarlyMapSpec

/-!
# How many tables the early page-table builder takes

The pages that one call of the builder takes from `*pnext`, whatever the attributes of the mapping are.  A segment of the
image is mapped with both block flags and is aligned like its physical address up to the size of a level 1 entry, so that a
table of level 0 is only needed where an end of the range lies inside such an entry.  Above, one table is needed for every
entry of the range, except for the first one if it is linked already (`linked`).
-/

namespace QuestOS

open Bytes PageTable

namespace EarlyRequest

variable {r : EarlyRequest} {k j t a b c va : Nat} {m : Mem} {s s' : EarlyState} {next : MapRange}

def entries (k a b : Nat) : Nat := (b - 1) / span k - a / span k + 1

def looseEnds (a b : Nat) : Nat := (if a % span 1 = 0 then 0 else 1) + (if b % span 1 = 0 then 0 else 1)

def tablesAt : (k a b : Nat) → Nat
  | 0, _, _ => 0
  | 1, a, b => looseEnds a b
  | k + 2, a, b => entries (k + 2) a b

def tablesBelow : (k a b : Nat) → Nat
  | 0, _, _ => 0
  | k + 1, a, b => tablesAt (k + 1) a b + tablesBelow k a b

def upperTables (a b : Nat) : Nat := entries 3 a b + entries 2 a b

def linked (m : Mem) : (k t a : Nat) → Nat
  | 0, _, _ => 0
  | 1, _, _ => 0
  | k + 2, t, a =>
    if isValid (slot m t (index (k + 2) a)) then linked m (k + 1) (outAddr (slot m t (index (k + 2) a))) a + 1 else 0

structure OfSegment (r : EarlyRequest) : Prop where
  flags : r.flags = 3
  congr : r.va % span 1 = r.start % span 1
  top : r.vaEnd < 2 ^ 64

/-! ### Numbers of entries -/

theorem entries_add (hab : a < b) (hbc : b < c) (hb : b % span k = 0) :
    entries k a b + entries k b c = entries k a c := by
  have hpos := span_pos k
  obtain ⟨n, rfl⟩ := Nat.dvd_of_mod_eq_zero hb
  have h1 : a / span k < n := (Nat.div_lt_iff_lt_mul hpos).2 (by rwa [Nat.mul_comm])
  have h2 : n ≤ (c - 1) / span k := (Nat.le_div_iff_mul_le hpos).2 (by rw [Nat.mul_comm]; omega)
  have hbelow : (span k * n - 1) / span k = n - 1 := by
    rw [Nat.mul_sub_div 0 (span k) n (by omega), Nat.zero_div]
  rw [entries, entries, entries, hbelow, Nat.mul_div_cancel_left _ hpos]
  omega

theorem entries_join {d : Nat} (hab : a < b) (hbc : b ≤ c) (hcd : c < d) :
    entries k a b + entries k c d ≤ entries k a d + if c / span k = (b - 1) / span k then 1 else 0 := by
  have h1 : a / span k ≤ (b - 1) / span k := Nat.div_le_div_right (by omega)
  have h2 : (b - 1) / span k ≤ c / span k := Nat.div_le_div_right (by omega)
  have h3 : c / span k ≤ (d - 1) / span k := Nat.div_le_div_right (by omega)
  rw [entries, entries, entries]
  split <;> omega

theorem entries_mono {a' b' : Nat} (ha : a' ≤ a) (hb : b ≤ b') : entries k a b ≤ entries k a' b' := by
  have h1 : a' / span k ≤ a / span k := Nat.div_le_div_right ha
  have h2 : (b - 1) / span k ≤ (b' - 1) / span k := Nat.div_le_div_right (by omega)
  rw [entries, entries]
  omega

theorem upperTables_mono {a' b' : Nat} (ha : a' ≤ a) (hb : b ≤ b') : upperTables a b ≤ upperTables a' b' :=
  Nat.add_le_add (entries_mono ha hb) (entries_mono ha hb)

theorem looseEnds_le (a b : Nat) : looseEnds a b ≤ 2 := by
  rw [looseEnds]
  split <;> split <;> decide

theorem tablesBelow_le (a b : Nat) : tablesBelow 3 a b ≤ upperTables a b + 2 := by
  have h := looseEnds_le a b
  have hsum : tablesBelow 3 a b = entries 3 a b + (entries 2 a b + (looseEnds a b + 0)) := rfl
  rw [upperTables]
  omega

theorem looseEnds_add (hb : b % span 1 = 0) : looseEnds a b + looseEnds b c = looseEnds a c := by
  rw [looseEnds, looseEnds, looseEnds, if_pos hb, Nat.add_zero, Nat.zero_add]

theorem tablesBelow_add (hab : a < b) (hbc : b < c) (hb : b % span k = 0) :
    tablesBelow k a b + tablesBelow k b c = tablesBelow k a c := by
  induction k with
  | zero => rfl
  | succ k ih =>
    have hat : tablesAt (k + 1) a b + tablesAt (k + 1) b c = tablesAt (k + 1) a c := by
      cases k with
      | zero => exact looseEnds_add hb
      | succ k => exact entries_add hab hbc hb
    have := ih (mod_span_of_succ hb)
    rw [tablesBelow, tablesBelow, tablesBelow]
    omega

theorem linked_le (m : Mem) (k t a b : Nat) : linked m k t a ≤ tablesBelow k a b := by
  fun_induction linked m k t a with
  | case1 => exact Nat.zero_le _
  | case2 => exact Nat.zero_le _
  | case3 k t a _ ih =>
    rw [tablesBelow, tablesAt, entries]
    omega
  | case4 => exact Nat.zero_le _

theorem OfSegment.tablesAt_pos (hr : r.OfSegment) (hV : r.va ≤ va) (hE : va < r.vaEnd) (hb : ¬ r.MapsBlock (k + 1) va) :
    0 < tablesAt (k + 1) va (r.partEnd k va) := by
  cases k with
  | succ k => exact Nat.succ_pos _
  | zero =>
    change ¬ r.MapsBlock 1 va at hb
    rw [tablesAt, looseEnds]
    by_contra hzero
    have hstart : va % span 1 = 0 := by
      by_contra h
      rw [if_neg h] at hzero
      omega
    have hend : r.partEnd 0 va % span 1 = 0 := by
      by_contra h
      rw [if_neg h] at hzero
      omega
    -- both ends are aligned, so the whole entry is in the range
    have hva := spanStart_of_mod hstart
    have hlt := lt_partEnd (k := 0) hE
    have hle := spanEnd_le_of_lt hend (show spanStart 1 va < r.partEnd 0 va by omega)
    have hsucc := spanEnd_le_succ 1 va
    have htop := hr.top
    have h1 := r.partEnd_le 0 va
    have h2 := r.partEnd_le 1 va
    have hpart : spanEnd 1 va ≤ r.partEnd 1 va := Nat.le_min.2 ⟨by omega, hsucc⟩
    refine hb ⟨?_, by omega, hr.congr, ?_⟩
    · rw [blockFlag, hr.flags]
      decide
    · rw [Nat.mod_eq_of_lt (by omega), Nat.mod_eq_of_lt (by omega)]
      exact hpart

/-! ### The levels -/

def RestCount (r : EarlyRequest) (k t va : Nat) (s s' : EarlyState) : Prop :=
  s'.pnext + 4096 * linked s.mem k t va ≤ s.pnext + 4096 * tablesBelow k va (r.partEnd k va)

def LevelCount (r : EarlyRequest) (k : Nat) (next : MapRange) : Prop :=
  ∀ (t va : Nat) (s : EarlyState), r.Begins (k + 1) va → r.RestCount k t va s (r.callPart k next t va s)

/-- One round: no page for a block, or the page for the table of the entry, and those below. -/
theorem Round.count {attr : BitVec 64} (hnext : r.LevelCount k next) (hr : r.OfSegment) (hva : r.Begins (k + 1) va)
    (hround : r.Round attr next k t va s s') :
    s'.pnext + 4096 * linked s.mem (k + 1) t va ≤ s.pnext + 4096 * tablesBelow (k + 1) va (r.partEnd k va) := by
  obtain ⟨-, rfl⟩ | ⟨hb, hs'⟩ := hround
  · have := linked_le s.mem (k + 1) t va (r.partEnd k va)
    dsimp only
    omega
  have hpos := hr.tablesAt_pos hva.ge hva.lt hb
  have hcall : s'.pnext + _ ≤ _ := hs' ▸ hnext (outAddr (slot (linkTable t (index (k + 1) va) s).mem t (index (k + 1) va))) va
    (linkTable t (index (k + 1) va) s) hva
  rw [tablesBelow]
  by_cases hval : isValid (slot s.mem t (index (k + 1) va)) = true
  · have hlink : linkTable t (index (k + 1) va) s = s := by rw [linkTable, if_pos hval]
    rw [hlink] at hcall
    cases k with
    | zero =>
      have hnone : linked s.mem (0 + 1) t va = 0 := rfl
      omega
    | succ k =>
      have hsome : linked s.mem (k + 1 + 1) t va =
          linked s.mem (k + 1) (outAddr (slot s.mem t (index (k + 1 + 1) va))) va + 1 := if_pos hval
      omega
  · have hlink : (linkTable t (index (k + 1) va) s).pnext = s.pnext + 4096 := by rw [linkTable, if_neg hval]
    have hzero : linked s.mem (k + 1) t va = 0 := by
      cases k with
      | zero => rfl
      | succ k => rw [linked, if_neg hval]
    rw [hlink] at hcall
    omega

theorem tableMapRange_count (attr : BitVec 64) (hk : k + 1 ≤ 3) (hr : r.OfSegment) (hnext : r.LevelCount k next) :
    r.LevelCount (k + 1) (tableMapRange (k + 1) (r.blockFlag (k + 1)) attr next) := by
  intro t va s hva
  refine callPart_rounds (P := r.RestCount (k + 1) t) attr hk (fun va s s' hva hround hend => ?_)
    (fun va s s₂ s' hva hround hmore _ hrest => ?_) hva
  · rw [RestCount, ← partEnd_of_last hend]
    exact hround.count hnext hr hva
  · have hentry := hround.count hnext hr hva
    have hadd := tablesBelow_add (k := k + 1) (lt_spanEnd (k + 1) va) hmore (spanEnd_mod _ _)
    rw [RestCount, (partEnd_spanEnd hmore).2.1] at hrest
    rw [partEnd_of_more hmore] at hentry
    rw [RestCount]
    omega

theorem OfSegment.pgMapRange_count (hr : r.OfSegment) (attr : BitVec 64) (root : Nat) (s : EarlyState) :
    (tableMapRange 3 false attr (pudMapRange attr r.flags) root r.start (r.start + (r.vaEnd - r.va)) r.va s).pnext +
      4096 * linked s.mem 3 root r.va ≤ s.pnext + 4096 * tablesBelow 3 r.va r.vaEnd := by
  have h0 : r.LevelCount 0 (pteMapRange attr) := fun _ _ _ _ => Nat.le_refl _
  have h1 := tableMapRange_count attr (by decide) hr h0
  have h2 := tableMapRange_count attr (by decide) hr h1
  have h3 := tableMapRange_count attr (by decide) hr h2 root r.va s ⟨Nat.le_refl _, r.lt, .inl rfl⟩
  have hpart : r.partEnd (2 + 1) r.va = r.vaEnd := Nat.min_eq_left r.window
  rw [RestCount, callPart, hpart, Nat.sub_self, Nat.add_zero] at h3
  exact h3

end EarlyRequest

end QuestOS
