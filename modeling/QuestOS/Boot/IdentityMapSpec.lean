import QuestOS.Boot.Tables

/-!
# What the bootloader maps

`Stage` is where a call stands between two levels: the entries of the range at this level lie in one array, and
the entries below are those before the call.  Tables that follow one another bring it down to the pages
(`Stage.down`), where the loop writes the page of the end address like the others.  A sequence of such calls
maps each range with the page behind it, so it never maps just the ranges.
-/

namespace QuestOS.Boot

open Bytes PageTable

variable {root base top : Nat} {ent ent' : Entries} {s s' : State} {k r n x2 x7 first : Nat} {e : Entry}

/-! ### Entries -/

theorem EntryBits.eq_or {w : BitVec 64} (h : EntryBits w) : w = leafAttr w ||| 3#64 := by
  have hsplit : w = leafAttr w ||| w &&& (addrMask ||| 3#64) := by
    have hall : ~~~(addrMask ||| 3#64) ||| (addrMask ||| 3#64) = BitVec.allOnes 64 := by decide
    rw [leafAttr, ← BitVec.and_or_distrib_left, hall, BitVec.and_allOnes]
  rw [h] at hsplit
  exact hsplit

theorem EntryBits.fields {w : BitVec 64} {p : Nat} (h1 : p % 4096 = 0) (h2 : p < 2 ^ 48) :
    Fields p (leafAttr w) 3#64 where
  aligned := h1
  lt := h2
  attr := by
    rw [leafAttr, BitVec.and_assoc]
    simp
  type := by decide

theorem EntryBits.or_eq {w : BitVec 64} (h : EntryBits w) (p : Nat) :
    BitVec.ofNat 64 p ||| w = desc p (leafAttr w) 3#64 := by
  rw [desc, BitVec.or_assoc, ← h.eq_or]

theorem ubfx_eq_outAddr (w : BitVec 64) : ubfx w.toNat 12 36 * 4096 = outAddr w := by
  apply Nat.eq_of_testBit_eq
  intro i
  have hright : (outAddr w).testBit i = (w.getLsbD i && addrMask.getLsbD i) := by
    rw [outAddr, BitVec.testBit_toNat, BitVec.getLsbD_and]
  have hleft : (ubfx w.toNat 12 36 * 4096).testBit i = (decide (12 ≤ i) && (decide (i - 12 < 36) && w.getLsbD i)) := by
    rw [ubfx, show (4096 : Nat) = 2 ^ 12 from rfl, Nat.testBit_mul_two_pow, Nat.testBit_mod_two_pow,
      Nat.testBit_div_two_pow]
    by_cases h12 : 12 ≤ i
    · rw [show i - 12 + 12 = i by omega, BitVec.testBit_toNat]
    · simp [h12]
  rw [hleft, hright]
  by_cases hi : i < 64
  · rw [addrMask_bit i hi]
    by_cases h12 : 12 ≤ i
    · have : decide (i - 12 < 36) = decide (i < 48) := decide_eq_decide.2 (by omega)
      rw [this, decide_eq_true h12, Bool.true_and, Bool.true_and, Bool.and_comm]
    · simp [h12]
  · rw [BitVec.getLsbD_of_ge w i (by omega)]
    simp

/-! ### The loop of an upper level -/

theorem setEntry_x5_le (x3 : BitVec 64) (x9 : Nat) (s : State) : s.x5 ≤ (setEntry x3 x9 s).x5 := by
  unfold setEntry
  split
  · exact Nat.le_refl _
  · exact Nat.le_add_right _ _

theorem setEntries_x5_le (x3 : BitVec 64) (x2 n x7 : Nat) (s : State) : s.x5 ≤ (setEntries x3 x2 n x7 s).x5 := by
  induction n generalizing x7 s with
  | zero => exact Nat.le_refl _
  | succ n ih => exact Nat.le_trans (setEntry_x5_le x3 _ s) (ih _ _)

def Grown (k r n x5 : Nat) (ent ent' : Entries) : Prop :=
  ∀ k' r', ent' k' r' = ent k' r' ∨
    (k' = k ∧ r ≤ r' ∧ r' < r + n) ∧ ent k' r' = 0 ∧ x5 ≤ outAddr (ent' k' r')

theorem Rep.setEntry {x3 : BitVec 64} (h : Rep root base top ent s) (h1 : 1 ≤ k) (hk : k ≤ 3)
    (hr : Has ent k (r / 512)) (hx3 : EntryBits x3) (htop : (setEntry x3 (addrOf root ent k r) s).x5 ≤ top) :
    (ent k r ≠ 0 ∧ setEntry x3 (addrOf root ent k r) s = s) ∨
    (ent k r = 0 ∧ (setEntry x3 (addrOf root ent k r) s).x5 = s.x5 + 4096 ∧ ∃ e, isTable e = true ∧ outAddr e = s.x5 ∧
      Rep root base top (setEnt ent k r e) (setEntry x3 (addrOf root ent k r) s)) := by
  have hslot := h.slot k hk r hr
  by_cases hz : ent k r = 0
  · have hset : Boot.setEntry x3 (addrOf root ent k r) s =
        { mem := fill (store64 s.mem (addrOf root ent k r) (BitVec.ofNat 64 s.x5 ||| x3)) s.x5 4096 0
          x5 := s.x5 + 4096
          stores := s.stores ++ [⟨addrOf root ent k r, 8, s.x5⟩, ⟨s.x5, 4096, s.x5 + 4096⟩] } := by
      rw [Boot.setEntry, hslot, hz]
      exact if_neg (by decide)
    rw [hset] at htop ⊢
    change s.x5 + 4096 ≤ top at htop
    have hf : Fields s.x5 (leafAttr x3) 3#64 := EntryBits.fields h.x5_mod (by have := h.top_le; omega)
    have htab : isTable (BitVec.ofNat 64 s.x5 ||| x3) = true := by
      rw [hx3.or_eq, hf.isTable]
      rfl
    have hout : outAddr (BitVec.ofNat 64 s.x5 ||| x3) = s.x5 := by rw [hx3.or_eq, hf.outAddr]
    exact .inr ⟨hz, rfl, _, htab, hout, h.link h1 hk hr hz htop htab hout⟩
  · have htab := (h.table k h1 hk r hz).1
    have hval : isValid (ent k r) = true := by
      rw [isTable, Bool.and_eq_true] at htab
      exact htab.1
    refine .inl ⟨hz, ?_⟩
    rw [Boot.setEntry, hslot, if_pos hval]

theorem Rep.setEntries {x3 : BitVec 64} {entry : Nat → Entry} (h : Rep root base top ent s) (h1 : 1 ≤ k) (hk : k ≤ 3)
    (hx3 : EntryBits x3)
    (harr : ∀ j < n, Has ent k ((r + j) / 512) ∧ addrOf root ent k (r + j) = x2 + 8 * (x7 + j))
    (hent : ∀ j < n, entry (x7 + j) = ent k (r + j)) (hcons : Consecutive entry n x7 s.x5 first)
    (htop : (setEntries x3 x2 n x7 s).x5 ≤ top) :
    (setEntries x3 x2 n x7 s).x5 = bump entry n x7 s.x5 ∧
    ∃ ent', Rep root base top ent' (setEntries x3 x2 n x7 s) ∧ Grown k r n s.x5 ent ent' ∧
      ∀ j < n, ent' k (r + j) ≠ 0 ∧ outAddr (ent' k (r + j)) = first + 4096 * j := by
  induction n generalizing r x7 s ent first with
  | zero => exact ⟨rfl, ent, h, fun _ _ => .inl rfl, fun j hj => absurd hj (Nat.not_lt_zero j)⟩
  | succ n ih =>
    obtain ⟨hhas, haddr⟩ := harr 0 (by omega)
    have hfirst := hent 0 (by omega)
    simp only [Nat.add_zero] at hhas haddr hfirst
    have hadd := h.add64_addr hk hhas haddr
    rw [Boot.setEntries, hadd] at htop ⊢
    have hround := h.setEntry h1 hk hhas hx3 (Nat.le_trans (setEntries_x5_le x3 x2 n (x7 + 1) _) htop)
    generalize Boot.setEntry x3 (addrOf root ent k r) s = s₁ at htop hround ⊢
    have hent' : ∀ j < n, entry (x7 + 1 + j) = ent k (r + 1 + j) := by
      intro j hj
      have := hent (j + 1) (by omega)
      rwa [show x7 + (j + 1) = x7 + 1 + j by omega, show r + (j + 1) = r + 1 + j by omega] at this
    have harr' : ∀ j < n, Has ent k ((r + 1 + j) / 512) ∧ addrOf root ent k (r + 1 + j) = x2 + 8 * (x7 + 1 + j) := by
      intro j hj
      have := harr (j + 1) (by omega)
      rwa [show x7 + (j + 1) = x7 + 1 + j by omega, show r + (j + 1) = r + 1 + j by omega] at this
    rw [Consecutive, hfirst] at hcons
    rw [bump, hfirst]
    rcases hround with ⟨hne, rfl⟩ | ⟨hz, hx5, e, htab, hout, hrep⟩
    · rw [if_neg hne] at hcons ⊢
      obtain ⟨hx5, ent', hrep', hgrown, htabs⟩ := ih h harr' hent' hcons.2 htop
      refine ⟨hx5, ent', hrep', fun k' r' => ?_, fun j hj => ?_⟩
      · exact (hgrown k' r').imp_right fun ⟨hin, hrest⟩ => ⟨⟨hin.1, by omega, by omega⟩, hrest⟩
      · cases j with
        | zero =>
          rcases hgrown k r with hsame | ⟨⟨-, hlt, -⟩, -⟩
          · rw [Nat.add_zero, hsame]
            exact ⟨hne, by rw [hcons.1]; rfl⟩
          · omega
        | succ j =>
          have := htabs j (by omega)
          rw [show r + 1 + j = r + (j + 1) by omega] at this
          exact ⟨this.1, by omega⟩
    · rw [if_pos hz] at hcons ⊢
      -- the new entry leaves the later ones and their places alone
      have hlater : ∀ j, setEnt ent k r e k (r + 1 + j) = ent k (r + 1 + j) := fun j => setEnt_of_ne (by omega)
      have habove : ∀ q, setEnt ent k r e (k + 1) q = ent (k + 1) q := fun q => setEnt_of_ne (by omega)
      have harr'' : ∀ j < n, Has (setEnt ent k r e) k ((r + 1 + j) / 512) ∧
          addrOf root (setEnt ent k r e) k (r + 1 + j) = x2 + 8 * (x7 + 1 + j) := by
        intro j hj
        rw [Has, addrOf, tableOf, habove]
        exact harr' j hj
      rw [← hx5] at hcons ⊢
      obtain ⟨hx5', ent', hrep', hgrown, htabs⟩ :=
        ih hrep harr'' (fun j hj => (hent' j hj).trans (hlater j).symm) hcons.2 htop
      refine ⟨hx5', ent', hrep', fun k' r' => ?_, fun j hj => ?_⟩
      · by_cases heq : k' = k ∧ r' = r
        · obtain ⟨rfl, rfl⟩ := heq
          rcases hgrown k' r' with hsame | ⟨⟨-, hlt, -⟩, -⟩
          · rw [setEnt_self] at hsame
            exact .inr ⟨⟨rfl, Nat.le_refl _, by omega⟩, hz, Nat.le_of_eq (by rw [hsame, hout])⟩
          · omega
        · rcases hgrown k' r' with hsame | ⟨hin, hzero, hle⟩
          · exact .inl (hsame.trans (setEnt_of_ne heq))
          · rw [setEnt_of_ne heq] at hzero
            exact .inr ⟨⟨hin.1, by omega, by omega⟩, hzero, by omega⟩
      · cases j with
        | zero =>
          rcases hgrown k r with hsame | ⟨⟨-, hlt, -⟩, -⟩
          · rw [setEnt_self] at hsame
            rw [Nat.add_zero, hsame, hout]
            refine ⟨fun he => ?_, hcons.1⟩
            rw [he] at htab
            cases htab
          · omega
        | succ j =>
          have := htabs j (by omega)
          rw [show r + 1 + j = r + (j + 1) by omega] at this
          exact ⟨this.1, by omega⟩

/-! ### Down the levels -/

/-- A call before the loop of level `k`: the entries of its range at this level are an array at `x2`, and what
is new since `s₀` are tables of the levels above, in pages taken since. -/
structure Stage (root base top : Nat) (c : Call) (ent₀ : Entries) (s₀ : State) (k x2 : Nat) (ent : Entries) (s : State) :
    Prop where
  rep : Rep root base top ent s
  array : ∀ j ≤ c.more k, Has ent k ((c.x0 / span k + j) / 512) ∧
    addrOf root ent k (c.x0 / span k + j) = x2 + 8 * (c.first k + j)
  grown : ∀ k' r, ent k' r = ent₀ k' r ∨ k < k' ∧ ent₀ k' r = 0 ∧ s₀.x5 ≤ outAddr (ent k' r)
  le : s₀.x5 ≤ s.x5

variable {c : Call} {ent₀ : Entries} {s₀ : State}

theorem Stage.peek (h : Stage root base top c ent₀ s₀ k x2 ent s) (h₀ : Rep root base top ent₀ s₀) (hk : k ≤ 3) {j : Nat}
    (hj : j ≤ c.more k) : peek s₀.mem s₀.x5 s.x5 x2 (c.first k + j) = ent k (c.x0 / span k + j) := by
  obtain ⟨hhas, haddr⟩ := h.array j hj
  have hsame : ent k (c.x0 / span k + j) = ent₀ k (c.x0 / span k + j) :=
    (h.grown k _).resolve_right fun hlt => Nat.lt_irrefl _ hlt.1
  rw [Boot.peek, ← haddr, hsame]
  generalize c.x0 / span k + j = r at *
  -- a table that was there before the call
  have hold : Has ent₀ k (r / 512) → addrOf root ent k r = addrOf root ent₀ k r →
      (if s₀.x5 ≤ addrOf root ent k r ∧ addrOf root ent k r < s.x5 then 0 else load64 s₀.mem (addrOf root ent k r)) =
        ent₀ k r := by
    intro hhas₀ heq
    have hmem := h₀.addr_mem hk hhas₀
    have h1 := h₀.apart
    have h2 := h.rep.x5_le
    have h3 := h₀.base_le
    rw [heq, if_neg (by omega), h₀.slot k hk r hhas₀]
  by_cases h3 : k = 3
  · subst h3
    exact hold (has_three.2 (has_three.1 hhas)) (by rw [addrOf, addrOf, tableOf, tableOf, if_pos rfl, if_pos rfl])
  · have hne := (has_of_ne h3).1 hhas
    rcases h.grown (k + 1) (r / 512) with htab | ⟨-, hz, hle⟩
    · refine hold ((has_of_ne h3).2 (htab ▸ hne)) ?_
      rw [addrOf, addrOf, tableOf_of_ne h3, tableOf_of_ne h3, htab]
    · have hpage := (h.rep.table (k + 1) (by omega) (by omega) _ hne).2.2.2
      rw [addrOf, tableOf_of_ne h3, if_pos (by omega), h₀.closed k hk r]
      rw [has_of_ne h3, hz]
      exact fun hne => hne rfl

theorem array_of_tables (hk : k + 1 ≤ 3) (htabs : ∀ j < c.more (k + 1) + 1, ent (k + 1) (c.x0 / span (k + 1) + j) ≠ 0 ∧
      outAddr (ent (k + 1) (c.x0 / span (k + 1) + j)) = first + 4096 * j) {j : Nat} (hle : c.x0 ≤ c.x1) (hj : j ≤ c.more k) :
    Has ent k ((c.x0 / span k + j) / 512) ∧ addrOf root ent k (c.x0 / span k + j) = first + 8 * (c.first k + j) := by
  have hmono : c.x0 / span k ≤ c.x1 / span k := Nat.div_le_div_right hle
  have hlast : (c.x0 / span k + j) / 512 ≤ c.x1 / span k / 512 := by
    refine Nat.div_le_div_right ?_
    rw [Call.more] at hj
    omega
  have hj' : (c.first k + j) / 512 < c.more (k + 1) + 1 := by
    rw [Call.more, Call.first, div_span_succ, div_span_succ]
    omega
  have hq : (c.x0 / span k + j) / 512 = c.x0 / span (k + 1) + (c.first k + j) / 512 := by
    rw [Call.first, div_span_succ]
    omega
  obtain ⟨hne, hout⟩ := htabs _ hj'
  rw [has_of_ne (by omega), addrOf, tableOf_of_ne (by omega), hq]
  refine ⟨hne, ?_⟩
  rw [hout, Call.first]
  omega

theorem Stage.down (h : Stage root base top c ent₀ s₀ (k + 1) x2 ent s) (h₀ : Rep root base top ent₀ s₀) (hk : k + 1 ≤ 3)
    (hv : c.Valid) (hcont : c.ContiguousFrom s₀.mem s₀.x5 (k + 1) x2 s.x5)
    (htop : (setEntries c.x3 x2 (c.more (k + 1) + 1) (c.first (k + 1)) s).x5 ≤ top) :
    ∃ ent', Stage root base top c ent₀ s₀ k (nextTable x2 (c.first (k + 1)) s) ent'
        (setEntries c.x3 x2 (c.more (k + 1) + 1) (c.first (k + 1)) s) ∧
      c.ContiguousFrom s₀.mem s₀.x5 k (nextTable x2 (c.first (k + 1)) s)
        (setEntries c.x3 x2 (c.more (k + 1) + 1) (c.first (k + 1)) s).x5 := by
  have hpeek : ∀ j < c.more (k + 1) + 1, Boot.peek s₀.mem s₀.x5 s.x5 x2 (c.first (k + 1) + j) =
      ent (k + 1) (c.x0 / span (k + 1) + j) := fun j hj => h.peek h₀ hk (by omega)
  have hnext : nextTable x2 (c.first (k + 1)) s =
      firstTable (Boot.peek s₀.mem s₀.x5 s.x5 x2) (c.first (k + 1)) s.x5 := by
    obtain ⟨hhas, haddr⟩ := h.array 0 (Nat.zero_le _)
    have h1 := hpeek 0 (by omega)
    simp only [Nat.add_zero] at hhas haddr h1
    rw [firstTable, h1, nextTable, h.rep.add64_addr hk hhas haddr, h.rep.slot _ hk _ hhas]
    rw [ubfx_eq_outAddr]
  rw [Call.ContiguousFrom, ← hnext] at hcont
  obtain ⟨hx5, ent', hrep, hgrown, htabs⟩ := h.rep.setEntries (by omega) hk hv.table
    (fun j hj => h.array j (by omega)) hpeek hcont.1 htop
  refine ⟨ent', ⟨hrep, fun j hj => array_of_tables hk htabs hv.le hj, fun k' r => ?_, ?_⟩, hx5 ▸ hcont.2⟩
  · rcases hgrown k' r with hsame | ⟨⟨hkk, -⟩, hz, hle⟩
    · rw [hsame]
      exact (h.grown k' r).imp_right fun ⟨h1, h2⟩ => ⟨by omega, h2⟩
    · have hz₀ : ent₀ k' r = 0 := by
        rcases h.grown k' r with h1 | h1
        · rw [← h1, hz]
        · exact h1.2.1
      exact .inr ⟨by omega, hz₀, Nat.le_trans h.le hle⟩
  · exact Nat.le_trans h.le (setEntries_x5_le _ _ _ _ _)

/-! ### The pages -/

theorem desc_eq_add {p : Nat} {attr type : BitVec 64} (h : Fields p attr type) :
    desc p attr type = BitVec.ofNat 64 p + (attr ||| type) := by
  rw [desc, BitVec.or_assoc, BitVec.add_eq_or_of_and_eq_zero]
  apply BitVec.eq_of_getLsbD_eq
  intro i hi
  rw [BitVec.getLsbD_and, BitVec.getLsbD_or, BitVec.getLsbD_ofNat, decide_eq_true hi, Bool.true_and, BitVec.getLsbD_zero]
  by_cases hm : 12 ≤ i ∧ i < 48
  · rw [h.attr_bit hi (.inr hm), h.type_bit hi (by omega)]
    simp
  · rw [testBit_addr h.aligned h.lt (by omega)]
    rfl

theorem desc_add_page {p : Nat} {x4 : BitVec 64} (hx4 : EntryBits x4) (hp : p % 4096 = 0) (hlt : p + 4096 < 2 ^ 48) :
    (desc p (leafAttr x4) 3#64 + 4096#64) ||| x4 = desc (p + 4096) (leafAttr x4) 3#64 := by
  have h1 : Fields p (leafAttr x4) 3#64 := EntryBits.fields hp (by omega)
  have h2 : Fields (p + 4096) (leafAttr x4) 3#64 := EntryBits.fields (by omega) hlt
  have hstep : desc p (leafAttr x4) 3#64 + 4096#64 = desc (p + 4096) (leafAttr x4) 3#64 := by
    rw [desc_eq_add h1, desc_eq_add h2, BitVec.add_assoc, BitVec.add_comm _ 4096#64, ← BitVec.add_assoc,
      ← BitVec.ofNat_add]
  rw [hstep, ← hx4.or_eq, BitVec.or_assoc, BitVec.or_self]

theorem Rep.setPteLoop {x4 x10 : BitVec 64} (h : Rep root base top ent s) (hx4 : EntryBits x4)
    (harr : ∀ j < n, Has ent 0 ((r + j) / 512) ∧ addrOf root ent 0 (r + j) = x2 + 8 * (x7 + j))
    (hx10 : 0 < n → x10 ||| x4 = desc (r * 4096) (leafAttr x4) 3#64) (hlt : (r + n) * 4096 ≤ 2 ^ 48) :
    ∃ ent', Rep root base top ent' (setPteLoop x4 x2 n x7 x10 s) ∧
      ∀ p, ent' 0 p = if r ≤ p ∧ p < r + n then desc (p * 4096) (leafAttr x4) 3#64 else ent 0 p := by
  induction n generalizing r x7 x10 s ent with
  | zero => exact ⟨ent, h, fun p => by rw [if_neg (by omega)]⟩
  | succ n ih =>
    obtain ⟨hhas, haddr⟩ := harr 0 (by omega)
    simp only [Nat.add_zero] at hhas haddr
    rw [Boot.setPteLoop, h.add64_addr (by omega) hhas haddr, hx10 (by omega)]
    have hrep := h.page hhas (desc (r * 4096) (leafAttr x4) 3#64)
    have habove : ∀ q, setEnt ent 0 r (desc (r * 4096) (leafAttr x4) 3#64) 1 q = ent 1 q := fun q => setEnt_of_ne (by omega)
    have harr' : ∀ j < n, Has (setEnt ent 0 r (desc (r * 4096) (leafAttr x4) 3#64)) 0 ((r + 1 + j) / 512) ∧
        addrOf root (setEnt ent 0 r (desc (r * 4096) (leafAttr x4) 3#64)) 0 (r + 1 + j) = x2 + 8 * (x7 + 1 + j) := by
      intro j hj
      have := harr (j + 1) (by omega)
      rw [Has, addrOf, tableOf, habove]
      rwa [show x7 + (j + 1) = x7 + 1 + j by omega, show r + (j + 1) = r + 1 + j by omega] at this
    have hstep : 0 < n → (desc (r * 4096) (leafAttr x4) 3#64 + 4096#64) ||| x4 =
        desc ((r + 1) * 4096) (leafAttr x4) 3#64 := by
      intro hn
      have hlast : r * 4096 + 4096 < 2 ^ 48 := by omega
      rw [desc_add_page hx4 (Nat.mul_mod_left r 4096) hlast, Nat.add_mul, Nat.one_mul]
    obtain ⟨ent', hrep', hpages⟩ := ih hrep harr' hstep (by rwa [Nat.add_assoc, Nat.add_comm 1 n])
    refine ⟨ent', hrep', fun p => ?_⟩
    rw [hpages]
    by_cases hp : p = r
    · subst hp
      rw [if_neg (by omega), if_pos (by omega), setEnt_self]
    · rw [setEnt_of_ne (by omega)]
      by_cases hin : r + 1 ≤ p ∧ p < r + 1 + n
      · rw [if_pos hin, if_pos (by omega)]
      · rw [if_neg hin, if_neg (by omega)]

/-! ### A call -/

theorem ubfx_of_lt {x lsb width : Nat} (h : x < 2 ^ (lsb + width)) : ubfx x lsb width = x / 2 ^ lsb := by
  refine Nat.mod_eq_of_lt (Nat.div_lt_of_lt_mul ?_)
  rwa [← Nat.pow_add]

theorem sub64_of_le {a b : Nat} (h : b ≤ a) (ha : a < 2 ^ 64) : sub64 a b = a - b := by
  unfold sub64
  omega

theorem setPgd_eq (hv : c.Valid) (hlt : c.x1 < 2 ^ 48) (x2 : Nat) (s : State) : setPgd c.x0 c.x1 x2 c.x3 s =
    (nextTable x2 (c.first 3) s, setEntries c.x3 x2 (c.more 3 + 1) (c.first 3) s) := by
  have hle := hv.le
  have h0 : c.x0 / 2 ^ 39 = c.first 3 := (Nat.mod_eq_of_lt (by omega)).symm
  have h1 : c.x1 / 2 ^ 39 - c.first 3 = c.more 3 := by rw [← h0, Call.more]; rfl
  rw [setPgd, ubfx_of_lt (by omega), ubfx_of_lt (by omega), h0, h1]

theorem setLevel_eq (hv : c.Valid) (hlt : c.x1 < 2 ^ 48) (hk : k ≤ 3) (x2 : Nat) (s : State) :
    setLevel (12 + 9 * k) (9 * (4 - k)) c.x0 c.x1 x2 c.x3 s =
      (nextTable x2 (c.first k) s, setEntries c.x3 x2 (c.more k + 1) (c.first k) s) := by
  have hle := hv.le
  have hbits : 12 + 9 * k + 9 * (4 - k) = 48 := by omega
  have h1 : c.x1 / span k ≤ c.x1 := Nat.div_le_self _ _
  have h2 : c.x0 / span k ≤ c.x1 / span k := Nat.div_le_div_right hle
  have hx0 : ubfx c.x0 (12 + 9 * k) (9 * (4 - k)) = c.x0 / span k := ubfx_of_lt (by rw [hbits]; omega)
  have hx1 : ubfx c.x1 (12 + 9 * k) (9 * (4 - k)) = c.x1 / span k := ubfx_of_lt (by rw [hbits]; exact hlt)
  have hfirst : ubfx (c.x0 / span k) 0 9 = c.first k := by rw [ubfx, Nat.pow_zero, Nat.div_one, Call.first]; rfl
  rw [setLevel, hx0, hx1, hfirst, sub64_of_le h2 (by omega)]
  rfl

theorem setPteLoop_x5 (x4 : BitVec 64) (x2 n x7 : Nat) (x10 : BitVec 64) (s : State) :
    (setPteLoop x4 x2 n x7 x10 s).x5 = s.x5 := by
  induction n generalizing x7 x10 s with
  | zero => rfl
  | succ n ih => rw [setPteLoop, ih]

theorem Call.run_x5_le (root : Nat) (c : Call) (s : State) : s.x5 ≤ (c.run root s).x5 := by
  simp only [Call.run, pgTableInit, setPgd, setPud, setPmd, setLevel, setPte, setPteLoop_x5]
  exact Nat.le_trans (setEntries_x5_le _ _ _ _ _)
    (Nat.le_trans (setEntries_x5_le _ _ _ _ _) (setEntries_x5_le _ _ _ _ _))

/-- A call whose tables follow one another maps its range and the page behind it. -/
theorem Call.run_spec (h : Rep root base top ent s) (hv : c.Valid) (hcont : c.Contiguous root s)
    (htop : (c.run root s).x5 ≤ top) : ∃ ent', Rep root base top ent' (c.run root s) ∧
      ∀ p, ent' 0 p = if c.x0 / 4096 ≤ p ∧ p ≤ c.x1 / 4096 then desc (p * 4096) (leafAttr c.x4) 3#64 else ent 0 p := by
  obtain ⟨hlt, hcont⟩ := hcont
  have hle := hv.le
  have hrun : c.run root s =
      let x6 := nextTable root (c.first 3) s
      let s₁ := setEntries c.x3 root (c.more 3 + 1) (c.first 3) s
      let x6' := nextTable x6 (c.first 2) s₁
      let s₂ := setEntries c.x3 x6 (c.more 2 + 1) (c.first 2) s₁
      let x6'' := nextTable x6' (c.first 1) s₂
      let s₃ := setEntries c.x3 x6' (c.more 1 + 1) (c.first 1) s₂
      setPteLoop c.x4 x6'' (c.more 0 + 1) (c.first 0) (BitVec.ofNat 64 (c.x0 / 4096 * 4096)) s₃ := by
    have h2 : ∀ x2 s, setPud c.x0 c.x1 x2 c.x3 s = _ := fun x2 s => setLevel_eq hv hlt (k := 2) (by decide) x2 s
    have h1 : ∀ x2 s, setPmd c.x0 c.x1 x2 c.x3 s = _ := fun x2 s => setLevel_eq hv hlt (k := 1) (by decide) x2 s
    have hmono : c.x0 / 2 ^ 12 ≤ c.x1 / 2 ^ 12 := Nat.div_le_div_right hle
    rw [Call.run, pgTableInit, setPgd_eq hv hlt]
    dsimp only
    rw [h2]
    dsimp only
    rw [h1]
    dsimp only
    rw [setPte, ubfx_of_lt (by omega), ubfx_of_lt (by omega), sub64_of_le hmono (by omega), ubfx, Nat.pow_zero, Nat.div_one]
    rfl
  rw [hrun] at htop ⊢
  dsimp only at htop ⊢
  rw [setPteLoop_x5] at htop
  have hstage : Stage root base top c ent s 3 root ent s := by
    refine ⟨h, fun j hj => ?_, fun k' r => .inl rfl, Nat.le_refl _⟩
    have hsmall : c.x0 / span 3 + j < 512 := by
      have : c.x1 / span 3 < 512 := Nat.div_lt_of_lt_mul hlt
      have : c.x0 / span 3 ≤ c.x1 / span 3 := Nat.div_le_div_right hle
      rw [Call.more] at hj
      omega
    rw [has_three, addrOf, tableOf, if_pos rfl, Call.first]
    generalize c.x0 / span 3 = q at hsmall ⊢
    omega
  have htop₂ := Nat.le_trans (setEntries_x5_le _ _ _ _ _) htop
  have htop₁ := Nat.le_trans (setEntries_x5_le _ _ _ _ _) htop₂
  obtain ⟨ent₁, hstage₁, hcont₁⟩ := hstage.down h (by decide) hv hcont htop₁
  obtain ⟨ent₂, hstage₂, hcont₂⟩ := hstage₁.down h (by decide) hv hcont₁ htop₂
  obtain ⟨ent₃, hstage₃, -⟩ := hstage₂.down h (by decide) hv hcont₂ htop
  have hlast : c.x0 / span 0 + (c.more 0 + 1) = c.x1 / 4096 + 1 := by
    have : c.x0 / 4096 ≤ c.x1 / 4096 := Nat.div_le_div_right hle
    rw [Call.more, span_zero]
    omega
  have hfin := hv.fin_mod
  have hx10 : BitVec.ofNat 64 (c.x0 / 4096 * 4096) ||| c.x4 = desc (c.x0 / span 0 * 4096) (leafAttr c.x4) 3#64 := by
    rw [span_zero, hv.page.or_eq]
  obtain ⟨ent', hrep, hpages⟩ := hstage₃.rep.setPteLoop hv.page
    (fun j (hj : j < c.more 0 + 1) => hstage₃.array j (by omega)) (fun _ => hx10) (by rw [hlast]; omega)
  refine ⟨ent', hrep, fun p => ?_⟩
  have hsame : ent₃ 0 p = ent 0 p := (hstage₃.grown 0 p).resolve_right fun hlt => Nat.lt_irrefl _ hlt.1
  rw [hpages, hlast, hsame, span_zero]
  simp only [Nat.lt_succ_iff]

/-! ### Sequences of calls -/

/-- What the calls map: each range with the page of its end address; a later call overwrites an earlier one. -/
def closedIdentity (cs : List Call) (a : Nat) : Option Leaf :=
  (cs.reverse.find? fun c => c.x0 ≤ a ∧ a < c.x1 + 4096).map fun c => ⟨a, leafAttr c.x4⟩

theorem runAll_cons (root : Nat) (c : Call) (cs : List Call) (s : State) :
    runAll root (c :: cs) s = runAll root cs (c.run root s) := by
  rw [runAll, List.foldl_cons, runAll]

theorem runAll_x5_le (root : Nat) (cs : List Call) (s : State) : s.x5 ≤ (runAll root cs s).x5 := by
  induction cs generalizing s with
  | nil => exact Nat.le_refl _
  | cons c cs ih =>
    rw [runAll_cons]
    exact Nat.le_trans (c.run_x5_le root s) (ih (c.run root s))

theorem leafOf_desc_page {x4 : BitVec 64} {a : Nat} (ha : a < 2 ^ 48) :
    leafOf 0 (desc (a / 4096 * 4096) (leafAttr x4) 3#64) a = some ⟨a, leafAttr x4⟩ := by
  have hf : Fields (a / 4096 * 4096) (leafAttr x4) 3#64 := EntryBits.fields (Nat.mul_mod_left _ _) (by omega)
  have htab : isTable (desc (a / 4096 * 4096) (leafAttr x4) 3#64) = true := by
    rw [hf.isTable]
    rfl
  have haddr : a / 4096 * 4096 / span 0 * span 0 + a % span 0 = a := by
    rw [span_zero]
    omega
  simp only [leafOf, htab, if_true, hf.outAddr, hf.leafAttr, haddr]

variable {cs : List Call}

theorem Call.run_walk (h : Rep root base top ent s)
    (hent : ∀ a < 2 ^ 48, leafOf 0 (ent 0 (a / 4096)) a = closedIdentity cs a) (hv : c.Valid) (hcont : c.Contiguous root s) (htop : (c.run root s).x5 ≤ top) :
    ∃ ent', Rep root base top ent' (c.run root s) ∧
      ∀ a < 2 ^ 48, leafOf 0 (ent' 0 (a / 4096)) a = closedIdentity (cs ++ [c]) a := by
  obtain ⟨ent', hrep, hpages⟩ := Call.run_spec h hv hcont htop
  refine ⟨ent', hrep, fun a ha => ?_⟩
  have h0 := hv.start_mod
  have h1 := hv.fin_mod
  have hcover : (c.x0 / 4096 ≤ a / 4096 ∧ a / 4096 ≤ c.x1 / 4096) ↔ c.x0 ≤ a ∧ a < c.x1 + 4096 := by omega
  rw [hpages, closedIdentity, List.reverse_append, List.reverse_singleton, List.singleton_append, List.find?_cons]
  by_cases hin : c.x0 ≤ a ∧ a < c.x1 + 4096
  · rw [if_pos (hcover.2 hin), leafOf_desc_page ha, decide_eq_true hin]
    rfl
  · rw [if_neg (mt hcover.1 hin), hent a ha, decide_eq_false hin]
    rfl

theorem runAll_walk {cs done : List Call} (h : Rep root base top ent s)
    (hent : ∀ a < 2 ^ 48, leafOf 0 (ent 0 (a / 4096)) a = closedIdentity done a) (hv : ∀ c ∈ cs, c.Valid)
    (hcont : ContiguousRun root cs s) (htop : (runAll root cs s).x5 ≤ top) :
    ∃ ent', Rep root base top ent' (runAll root cs s) ∧
      ∀ a < 2 ^ 48, leafOf 0 (ent' 0 (a / 4096)) a = closedIdentity (done ++ cs) a := by
  induction cs generalizing ent s done with
  | nil => exact ⟨ent, h, by rwa [List.append_nil]⟩
  | cons c cs ih =>
    rw [runAll_cons] at htop ⊢
    obtain ⟨ent₁, hrep, hwalk⟩ := Call.run_walk h hent (hv c List.mem_cons_self) hcont.1
      (Nat.le_trans (runAll_x5_le root cs _) htop)
    have := ih hrep hwalk (fun d hd => hv d (List.mem_cons_of_mem c hd)) hcont.2 htop
    rwa [List.append_assoc, List.singleton_append] at this

theorem Rep.cleared {m : Mem} (hl : Layout root base top) (hbase : base % 4096 = 0) (hle : base ≤ top)
    (hclear : ∀ x, root ≤ x → x < root + 4096 → m x = 0) : Rep root base top (fun _ _ => 0) ⟨m, base, []⟩ where
  toLayout := hl
  x5_mod := hbase
  base_le := Nat.le_refl _
  x5_le := hle
  slot := by
    intro k hk r hr
    by_cases h3 : k = 3
    · subst h3
      rw [addrOf, tableOf, if_pos rfl]
      exact load64_zero fun x h1 h2 => hclear x (by omega) (by omega)
    · exact absurd rfl ((has_of_ne h3).1 hr)
  closed := fun _ _ _ _ => rfl
  table := fun _ _ _ _ hne => absurd rfl hne
  inj := fun _ _ _ _ _ _ _ _ hne => absurd rfl hne
  stores := fun st hst => absurd hst List.not_mem_nil

theorem exists_greatest_end (h : cs ≠ []) : ∃ c ∈ cs, ∀ d ∈ cs, d.x1 ≤ c.x1 := by
  induction cs with
  | nil => exact absurd rfl h
  | cons c cs ih =>
    by_cases hcs : cs = []
    · subst hcs
      exact ⟨c, List.mem_cons_self, fun d hd => Nat.le_of_eq (by rw [List.mem_singleton.1 hd])⟩
    · obtain ⟨d, hd, hmax⟩ := ih hcs
      rcases Nat.le_total c.x1 d.x1 with hle | hle
      · exact ⟨d, List.mem_cons_of_mem c hd, List.forall_mem_cons.2 ⟨hle, hmax⟩⟩
      · exact ⟨c, List.mem_cons_self, List.forall_mem_cons.2 ⟨Nat.le_refl _, fun e he => Nat.le_trans (hmax e he) hle⟩⟩

theorem closedIdentity_ne_identity (hne : cs ≠ []) (hv : ∀ c ∈ cs, c.Valid ∧ c.x1 < 2 ^ 48) :
    ∃ a < 2 ^ 48, closedIdentity cs a ≠ identity cs a := by
  obtain ⟨c, hc, hmax⟩ := exists_greatest_end hne
  refine ⟨c.x1, (hv c hc).2, fun heq => ?_⟩
  have hnone : identity cs c.x1 = none := by
    rw [identity, Option.map_eq_none_iff, List.find?_eq_none]
    intro d hd
    have := hmax d hd
    simp only [decide_eq_true_eq]
    omega
  rw [hnone, closedIdentity, Option.map_eq_none_iff, List.find?_eq_none] at heq
  have hle := (hv c hc).1.le
  refine heq c (List.mem_reverse.2 hc) ?_
  simp only [decide_eq_true_eq]
  omega

theorem lt_of_contiguousRun (h : ContiguousRun root cs s) : ∀ c ∈ cs, c.x1 < 2 ^ 48 := by
  induction cs generalizing s with
  | nil => exact fun c hc => absurd hc List.not_mem_nil
  | cons d cs ih => exact List.forall_mem_cons.2 ⟨h.1.1, ih h.2⟩

/-- `PG_DESC_TYPE_PAGE | PG_PAGE_ENTRY_NORMAL_CACHEABLE_RX`: `UXN`, `AF`, inner shareable, read-only. -/
def pageRx : BitVec 64 := 1 <<< 54 ||| 1 <<< 10 ||| 0b11 <<< 8 ||| 0b10 <<< 6 ||| pgDescTypePage

def pageRwx : BitVec 64 := 1 <<< 54 ||| 1 <<< 10 ||| 0b11 <<< 8 ||| pgDescTypePage

def pagesCall (x0 x1 : Nat) (x4 : BitVec 64) : Call := ⟨x0, x1, pgDescTypeTable ||| pgTableEntryRwx, x4⟩

def clearedStart : State := ⟨fun _ => 0, 0x101000, []⟩

end QuestOS.Boot
