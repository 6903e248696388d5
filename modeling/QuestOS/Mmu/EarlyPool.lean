import QuestOS.Mmu.EarlyEmpty
import QuestOS.Mmu.Segment

/-!
# The pool of early tables

`INIT_DIR_SIZE` reserves pages for the tables that `map_kernel` builds with one call of `map_segment` for each segment of
the image.  The pool is large enough if no segment is empty (`mapSegments_pool`): a segment needs at most two tables of
level 0, and above level 0 it shares the tables of its first entries with the segment before it.  An empty segment at the
beginning of a gigabyte takes a table for each of the 512 entries there (`SegmentCall.Overfull`).
-/

namespace QuestOS

open Bytes PageTable EarlyRequest

def spanNrEntries (vstart vend shift : Nat) : Nat := (vend >>> shift) - (vstart >>> shift) + 1

def earlyEntries (lvl vstart vend : Nat) : Nat := spanNrEntries vstart vend (21 + lvl * 9)

def earlyLevel (lvl lvls vstart vend add : Nat) : Nat := if lvls > lvl then earlyEntries lvl vstart vend + add else 0

/-- `EARLY_PAGES`: the root and the tables of the three levels below it. -/
def earlyPages (lvls vstart vend add : Nat) : Nat :=
  1 + earlyLevel 3 lvls vstart vend add + earlyLevel 2 lvls vstart vend add + earlyLevel 1 lvls vstart vend add

def kernelSegmentCount : Nat := 5

def earlySegmentExtraPages : Nat := kernelSegmentCount + 1

def initDirSize (vstart vend : Nat) : Nat := 4096 * (earlyPages 4 vstart vend 1 + earlySegmentExtraPages)

/-- A call of `map_segment` for whole pages whose virtual address is aligned like the physical one up to the size of a
level 1 entry.  The segment may be empty. -/
structure SegmentCall where
  start : Nat
  fin : Nat
  vaOffset : Nat
  prot : BitVec 64
  start_mod : start % 4096 = 0
  fin_mod : fin % 4096 = 0
  le : start ≤ fin
  fin_le : fin ≤ 2 ^ 48
  congr : add64 start vaOffset % span 1 = start % span 1

namespace SegmentCall

variable {c : SegmentCall} {root q : Nat} {s s' : EarlyState}

def va (c : SegmentCall) : Nat := add64 c.start c.vaOffset

def vaEnd (c : SegmentCall) : Nat := c.va + (c.fin - c.start)

def run (c : SegmentCall) (root : Nat) (s : EarlyState) : EarlyState :=
  mapSegment root c.vaOffset c.start c.fin c.prot s

theorem va_lt (c : SegmentCall) : c.va < 2 ^ 64 := Nat.mod_lt _ (by decide)

theorem va_mod (c : SegmentCall) : c.va % 4096 = 0 := by
  have h1 := c.congr
  have h2 := c.start_mod
  change c.va % 2 ^ 21 = c.start % 2 ^ 21 at h1
  omega

theorem alignDown_page {x : Nat} (h : x % 4096 = 0) : alignDown x 4096 = x :=
  Nat.div_mul_cancel (Nat.dvd_of_mod_eq_zero h)

theorem alignUp_fin (c : SegmentCall) : alignUp c.fin 4096 = c.fin := by
  have h1 := c.fin_le
  have h2 := c.fin_mod
  rw [show (4096 : Nat) = 2 ^ 12 from rfl, alignUp_eq]
  omega

theorem run_eq (c : SegmentCall) (root : Nat) (s : EarlyState) :
    c.run root s = tableMapRange 3 false c.prot (pudMapRange c.prot flagsMapBlock) root c.start c.fin c.va s := by
  rw [run, mapSegment, pgMapRange, alignDown_page c.start_mod, c.alignUp_fin, ← va, alignDown_page c.va_mod]

def request (c : SegmentCall) (hne : c.start < c.fin) (hwin : c.vaEnd < spanEnd 4 c.va) : EarlyRequest where
  start := c.start
  va := c.va
  vaEnd := c.vaEnd
  attr := 0
  flags := flagsMapBlock
  start_mod := c.start_mod
  va_mod := c.va_mod
  vaEnd_mod := by
    have h1 := c.va_mod
    have h2 := c.start_mod
    have h3 := c.fin_mod
    rw [vaEnd]
    omega
  lt := by
    rw [vaEnd]
    omega
  window := Nat.le_of_lt hwin
  vaEnd_le := Nat.le_trans (Nat.le_of_lt hwin) (spanEnd_le_two_pow (by decide) c.va_lt)
  phys_le := by
    have := c.fin_le
    rw [vaEnd]
    omega
  attr_free := noAttr_free

section Call

variable (hne : c.start < c.fin) (hwin : c.vaEnd < spanEnd 4 c.va)

include hne hwin

theorem request_ofSegment : (c.request hne hwin).OfSegment where
  flags := rfl
  congr := c.congr
  top := Nat.lt_of_lt_of_le hwin (spanEnd_le_two_pow (by decide) c.va_lt)

theorem run_request (root : Nat) (s : EarlyState) :
    c.run root s = tableMapRange 3 false c.prot (pudMapRange c.prot (c.request hne hwin).flags) root
      (c.request hne hwin).start ((c.request hne hwin).start + ((c.request hne hwin).vaEnd - (c.request hne hwin).va))
      (c.request hne hwin).va s := by
  have hfin : c.start + (c.vaEnd - c.va) = c.fin := by
    rw [vaEnd]
    omega
  change _ = tableMapRange 3 false c.prot _ root c.start (c.start + (c.vaEnd - c.va)) c.va s
  rw [run_eq, hfin]
  rfl

theorem run_count (hs' : s' = c.run root s) :
    s'.pnext + 4096 * linked s.mem 3 root c.va ≤ s.pnext + 4096 * tablesBelow 3 c.va c.vaEnd := by
  rw [hs', run_request hne hwin]
  exact (request_ofSegment hne hwin).pgMapRange_count c.prot root s

/-- A segment before the last gigabyte of the address space, and what it leaves for the next one. -/
theorem run_extends (htop : c.vaEnd ≤ 2 ^ 64 - span 2) (hq : q ≤ 2 ^ 48) (hmod : s.pnext % 4096 = 0)
    (hfree : FreePages s.mem s.pnext q []) (hready : Ready s.mem s.pnext q 3 root c.va [])
    (hs' : s' = c.run root s) (hle : s'.pnext ≤ q) : Extended q [] 3 root c.vaEnd (spanEnd 4 c.va) s s' :=
  pgMapRange_extends (r := c.request hne hwin) htop hq hmod hfree hready (hs'.trans (run_request hne hwin root s)) hle

end Call

theorem run_grows (c : SegmentCall) (root : Nat) (s : EarlyState) : s.pnext ≤ (c.run root s).pnext := by
  have h0 := pteMapRange_grows c.prot
  rw [run_eq]
  exact tableMapRange_grows (tableMapRange_grows (tableMapRange_grows h0)) ..

/-! ### Empty segments -/

/-- The segment is empty and lies at the beginning of a gigabyte.  In the last gigabyte of the address space the test for a
block wraps around, and a block is written if the physical address allows it. -/
def Overfull (c : SegmentCall) : Prop :=
  c.start = c.fin ∧ c.va % span 2 = 0 ∧ ¬ (c.va = 2 ^ 64 - span 2 ∧ c.start % span 2 = 0)

theorem run_eq_of_empty (h : c.start = c.fin) (root : Nat) (s : EarlyState) :
    c.run root s = tableMapRange 3 false c.prot (pudMapRange c.prot flagsMapBlock) root c.start c.start c.va s := by
  rw [run_eq, ← h]

theorem start_le (c : SegmentCall) : c.start ≤ 2 ^ 48 := Nat.le_trans c.le c.fin_le

theorem useBlock_empty (hmod : c.va % span 2 = 0) :
    useBlock 2 true c.start c.va c.va = true ↔ c.va = 2 ^ 64 - span 2 ∧ c.start % span 2 = 0 := by
  have hlt := c.va_lt
  have hspan : span 2 = 2 ^ 30 := rfl
  simp only [useBlock, add64, Bool.and_eq_true, decide_eq_true_eq, and_true, hspan] at hmod ⊢
  omega

theorem run_empty_le (h : c.start = c.fin) (hfull : ¬ c.Overfull) (root : Nat) (s : EarlyState) :
    (c.run root s).pnext ≤ s.pnext + 3 * 4096 := by
  have hva := c.va_lt
  have hstart := c.start_le
  rw [run_eq_of_empty h]
  by_cases hmod : c.va % span 2 = 0
  · have hlast : c.va = 2 ^ 64 - span 2 ∧ c.start % span 2 = 0 := by
      by_contra hnot
      exact hfull ⟨h, hmod, hnot⟩
    have hinside : ∀ k, 2 < k → k ≤ 4 → c.va % span k ≠ 0 := by
      intro k h1 h2 hzero
      have := mod_span_of_le (j := 3) (by omega) hzero
      rw [hlast.1] at this
      revert this
      decide
    refine Nat.le_trans (tableMapRange_once (d := 0) (by decide) hva hstart (hinside 4 (by decide) (by decide)) ?_)
      (by omega)
    intro t s
    exact Nat.le_of_eq
      (tableMapRange_block (by decide) hva (hinside 3 (by decide) (by decide)) ((useBlock_empty hmod).2 hlast))
  · have hinside : ∀ k, 2 ≤ k → c.va % span k ≠ 0 := fun k hk hzero => hmod (mod_span_of_le hk hzero)
    have hpmd : ∀ t s, (pmdMapRange c.prot flagsMapBlock t c.start c.start c.va s).pnext ≤ s.pnext + (4096 + 0) :=
      fun t s => tableMapRange_once (by decide) hva hstart (hinside 2 (by decide)) fun _ _ => Nat.le_refl _
    have hpud : ∀ t s, (pudMapRange c.prot flagsMapBlock t c.start c.start c.va s).pnext ≤ s.pnext + (4096 + (4096 + 0)) :=
      fun t s => tableMapRange_once (by decide) hva hstart (hinside 3 (by decide)) hpmd
    exact tableMapRange_once (by decide) hva hstart (hinside 4 (by decide)) hpud

/-- A table for the gigabyte, and as many below it as there are pages, up to 512. -/
theorem Overfull.le_run (h : c.Overfull) (hq : q ≤ 2 ^ 48) (hmod : s.pnext % 4096 = 0)
    (hfree : FreePages s.mem s.pnext q []) (hready : Ready s.mem s.pnext q 3 root c.va []) {n : Nat} (hn : n ≤ 512)
    (hpool : s.pnext + 4096 * n + 8192 ≤ q) : s.pnext + 4096 * n + 4096 ≤ (c.run root s).pnext := by
  obtain ⟨hempty, hva2, hlast⟩ := h
  have hva := c.va_lt
  have hstart := c.start_le
  have hva1 : c.va % span 1 = 0 := mod_span_of_succ hva2
  have h0 := pteMapRange_grows c.prot
  have hpmdGrows : EarlyRequest.Grows (pmdMapRange c.prot flagsMapBlock) := tableMapRange_grows h0
  have hpudGrows : EarlyRequest.Grows (pudMapRange c.prot flagsMapBlock) := tableMapRange_grows hpmdGrows
  rw [run_eq_of_empty hempty]
  -- the table of level 2, linked before or now
  obtain ⟨s₁, hs₁⟩ : ∃ s₁, s₁ = linkTable root (index 3 c.va) s := ⟨_, rfl⟩
  obtain ⟨pud, hpud⟩ : ∃ p, p = outAddr (slot s₁.mem root (index 3 c.va)) := ⟨_, rfl⟩
  have hle₁ : s₁.pnext ≤ s.pnext + 4096 := by
    rw [hs₁]
    exact linkTable_le ..
  obtain ⟨hmod₁, hge₁, -, -, -, hfree₁, hready₁⟩ := linkTable_ready hq hmod hfree hready hs₁ (by omega)
  rw [← hpud] at hready₁
  -- the table of level 1 is a new page
  obtain ⟨s₂, hs₂⟩ : ∃ s₂, s₂ = linkTable pud (index 2 c.va) s₁ := ⟨_, rfl⟩
  obtain ⟨pmd, hpmd⟩ : ∃ p, p = outAddr (slot s₂.mem pud (index 2 c.va)) := ⟨_, rfl⟩
  have hnew : s₂.pnext = s₁.pnext + 4096 := by
    have hinvalid : ¬ isValid (slot s₁.mem pud (index 2 c.va)) = true := fun hval => (hready₁.2.2 hval).1 hva2
    rw [hs₂, linkTable, if_neg hinvalid]
  obtain ⟨hmod₂, -, -, -, -, -, hready₂⟩ := linkTable_ready hq hmod₁ hfree₁ hready₁ hs₂ (by omega)
  rw [← hpmd] at hready₂
  obtain ⟨hapart, hlater, hhere⟩ := hready₂
  have hslots : ∀ j, index 1 c.va ≤ j → j < 512 → isValid (slot s₂.mem pmd j) = false := by
    intro j h1 h2
    rcases Nat.lt_or_eq_of_le h1 with hlt | rfl
    · exact hlater j hlt h2
    · exact Bool.eq_false_iff.2 fun hval => (hhere hval).1 hva1
  have hindex : index 1 c.va = 0 := by
    change c.va % 2 ^ 30 = 0 at hva2
    change c.va / 2 ^ 21 % 512 = 0
    omega
  have hblock : useBlock 1 true c.start c.va c.va = false := by
    refine Bool.eq_false_iff.2 fun huse => ?_
    have hspan : span 1 = 2 ^ 21 := rfl
    change c.va % 2 ^ 30 = 0 at hva2
    simp only [useBlock, add64, Bool.and_eq_true, decide_eq_true_eq, and_true, hspan] at huse
    omega
  have htwo : s.pnext + 4096 * n + 4096 ≤ s₂.pnext + 4096 * n := by omega
  have hlinks : s₂.pnext + 4096 * n ≤ (pmdMapRange c.prot flagsMapBlock pmd c.start c.start c.va s₂).pnext := by
    rw [pmdMapRange, tableMapRange, add64_empty c.start hva, lastEntry_first (by decide) hva hva2]
    exact tableMapLoop_links hva hstart hblock hapart.aligned hq 512 hmod₂ hapart.not_free hslots (by omega) hn (by omega)
  have hpmdLe : (pmdMapRange c.prot flagsMapBlock pmd c.start c.start c.va s₂).pnext ≤
      (pudMapRange c.prot flagsMapBlock pud c.start c.start c.va s₁).pnext :=
    tableMapRange_empty (by decide) hva hstart (Bool.eq_false_iff.2 (mt (useBlock_empty hva2).1 hlast)) hpmdGrows
      (by rw [← hs₂, ← hpmd])
  have hpudLe : (pudMapRange c.prot flagsMapBlock pud c.start c.start c.va s₁).pnext ≤ (tableMapRange 3 false c.prot
      (pudMapRange c.prot flagsMapBlock) root c.start c.start c.va s).pnext :=
    tableMapRange_empty (by decide) hva hstart (Bool.and_false _) hpudGrows (by rw [← hs₁, ← hpud])
  exact Nat.le_trans htwo (Nat.le_trans hlinks (Nat.le_trans hpmdLe hpudLe))

end SegmentCall

def mapSegments (root : Nat) (calls : List SegmentCall) (s : EarlyState) : EarlyState :=
  calls.foldl (fun s c => c.run root s) s

def Ascending : (a : Nat) → List SegmentCall → (b : Nat) → Prop
  | a, [], b => a ≤ b
  | a, c :: cs, b => a ≤ c.va ∧ Ascending c.vaEnd cs b

instance Ascending.decidable : (a : Nat) → (calls : List SegmentCall) → (b : Nat) → Decidable (Ascending a calls b)
  | a, [], b => inferInstanceAs (Decidable (a ≤ b))
  | a, c :: cs, b =>
    have := Ascending.decidable c.vaEnd cs b
    inferInstanceAs (Decidable (a ≤ c.va ∧ Ascending c.vaEnd cs b))

/-- The pages of the pool behind the root: what `INIT_DIR_SIZE` reserves, without the root. -/
def earlyCapacity (vstart vend : Nat) : Nat := earlyPages 4 vstart vend 1 - 1 + earlySegmentExtraPages

structure EmptyPool (root n : Nat) (s : EarlyState) : Prop where
  root_mod : root % 4096 = 0
  pnext_mod : s.pnext % 4096 = 0
  below : s.pnext + 4096 * n ≤ 2 ^ 48
  empty : ∀ i < 512, isValid (slot s.mem root i) = false
  zero : ∀ x, s.pnext ≤ x → x < s.pnext + 4096 * n → s.mem x = 0
  apart : ∀ x, s.pnext ≤ x → x < s.pnext + 4096 * n → pageOf x ≠ root

section Run

variable {root q first e vend n p : Nat} {calls : List SegmentCall} {s : EarlyState}

theorem EmptyPool.ready (h : EmptyPool root n s) (a : Nat) :
    Ready s.mem s.pnext (s.pnext + 4096 * n) 3 root a [] := by
  refine ⟨⟨h.root_mod, List.not_mem_nil, h.apart⟩, fun i _ hi => h.empty i hi, fun hval => ?_⟩
  rw [h.empty _ (index_lt _ _)] at hval
  cases hval

theorem EmptyPool.free (h : EmptyPool root n s) : FreePages s.mem s.pnext (s.pnext + 4096 * n) [] :=
  fun x h1 h2 => ⟨h.zero x h1 h2, List.not_mem_nil⟩

theorem Ascending.le (h : Ascending e calls vend) : e ≤ vend := by
  induction calls generalizing e with
  | nil => exact h
  | cons c cs ih =>
    have h1 := ih h.2
    have h2 := h.1
    rw [SegmentCall.vaEnd] at h1
    omega

theorem SegmentCall.run_le {c : SegmentCall} {s' : EarlyState} (hne : c.start < c.fin) (hwin : c.vaEnd < spanEnd 4 c.va)
    (hs' : s' = c.run root s) : s'.pnext ≤ s.pnext + 4096 * (upperTables c.va c.vaEnd + 2) := by
  have h1 := run_count hne hwin hs'
  have h2 := Nat.mul_le_mul_left 4096 (tablesBelow_le c.va c.vaEnd)
  omega

/-- The induction carries the pages that the segments up to `e` have taken at most, and what the last of them has left. -/
theorem mapSegments_le (hq : q ≤ 2 ^ 48) (hfirst : first ≤ e) (hwin : vend < spanEnd 4 first)
    (hasc : Ascending e calls vend) (hne : ∀ c ∈ calls, c.start < c.fin)
    (htop : ∀ c ∈ calls.dropLast, c.vaEnd ≤ 2 ^ 64 - span 2) (hmod : s.pnext % 4096 = 0)
    (hfree : FreePages s.mem s.pnext q []) (hready : Ready s.mem s.pnext q 3 root e [])
    (hpages : s.pnext ≤ p ∨ first < e ∧ Reached s.mem 3 root (e - 1) ∧ s.pnext ≤ p + 4096 * (upperTables first e + 2 * n))
    (hpool : p + 4096 * (upperTables first vend + 2 * (n + calls.length)) ≤ q) :
    (mapSegments root calls s).pnext ≤ p + 4096 * (upperTables first vend + 2 * (n + calls.length)) := by
  induction calls generalizing s e n with
  | nil =>
    have hmono := upperTables_mono (Nat.le_refl first) hasc
    change s.pnext ≤ _
    dsimp only [List.length_nil]
    omega
  | cons c cs ih =>
    obtain ⟨hbegin, hrest⟩ := hasc
    have hlast := hrest.le
    have hne' := hne c List.mem_cons_self
    have hlt : c.va < c.vaEnd := by
      rw [SegmentCall.vaEnd]
      omega
    have hreg : c.va / span 4 = first / span 4 := div_span_of_mem (by omega) (by omega)
    have hwin' : c.vaEnd < spanEnd 4 c.va := by
      rw [spanEnd_congr hreg]
      omega
    obtain ⟨s', hs'⟩ : ∃ s', s' = c.run root s := ⟨_, rfl⟩
    have hrun : mapSegments root (c :: cs) s = mapSegments root cs s' := by
      rw [hs']
      rfl
    rw [hrun]
    rw [List.length_cons] at hpool ⊢
    have hmono := upperTables_mono (Nat.le_refl first) hlast
    have hpages' : s'.pnext ≤ p + 4096 * (upperTables first c.vaEnd + 2 * (n + 1)) := by
      rcases hpages with hpages | ⟨hfirst, hreached, hpages⟩
      · have hone := SegmentCall.run_le hne' hwin' hs'
        have hmono := upperTables_mono (Nat.le_trans hfirst hbegin) (Nat.le_refl c.vaEnd)
        exact Nat.le_trans hone (Nat.add_le_add hpages (Nat.mul_le_mul_left _ (Nat.add_le_add hmono (by omega))))
      · have hcount := c.run_count hne' hwin' hs'
        have hshare := hreached.tablesBelow_le hfirst hbegin hlt
        omega
    have hbound : s'.pnext ≤ p + 4096 * (upperTables first vend + 2 * (n + (cs.length + 1))) :=
      Nat.le_trans hpages' (Nat.add_le_add_left (Nat.mul_le_mul_left _ (Nat.add_le_add hmono (by omega))) _)
    cases cs with
    | nil => exact hbound
    | cons d cs =>
      have hwin₃ : c.va / span (3 + 1) = e / span (3 + 1) := by
        rw [hreg]
        exact (div_span_of_mem hfirst (by omega)).symm
      have hext := c.run_extends hne' hwin' (htop c List.mem_cons_self) hq hmod hfree (hready.later hbegin hwin₃) hs'
        (Nat.le_trans hbound hpool)
      have hlen : n + ((d :: cs).length + 1) = n + 1 + (d :: cs).length := by omega
      rw [hlen] at hpool ⊢
      exact ih (by omega) hrest (fun x hx => hne x (List.mem_cons_of_mem _ hx))
        (fun x hx => htop x (List.mem_cons_of_mem _ hx)) hext.mod (fun x h1 h2 => ⟨hext.free x h1 h2, List.not_mem_nil⟩)
        (hext.ready hwin') (.inr ⟨by omega, hext.reached, hpages'⟩) hpool

/-- `EARLY_PAGES` counts one entry more than there are at each level, and a level more than is needed. -/
theorem upperTables_lt_earlyPages {vstart a b : Nat} (ha : vstart ≤ a) (hb : b ≤ vend) :
    upperTables a b + 4 ≤ earlyPages 4 vstart vend 1 - 1 := by
  have hentries : ∀ k, entries k a b ≤ vend / span k - vstart / span k + 1 := by
    intro k
    have h1 : vstart / span k ≤ a / span k := Nat.div_le_div_right ha
    have h2 : (b - 1) / span k ≤ vend / span k := Nat.div_le_div_right (by omega)
    rw [entries]
    omega
  have h3 : entries 3 a b ≤ earlyEntries 2 vstart vend := by
    rw [earlyEntries, spanNrEntries, Nat.shiftRight_eq_div_pow, Nat.shiftRight_eq_div_pow]
    exact hentries 3
  have h2 : entries 2 a b ≤ earlyEntries 1 vstart vend := by
    rw [earlyEntries, spanNrEntries, Nat.shiftRight_eq_div_pow, Nat.shiftRight_eq_div_pow]
    exact hentries 2
  have htop : 1 ≤ earlyEntries 3 vstart vend := Nat.le_add_left _ _
  have hpages : earlyPages 4 vstart vend 1 =
      1 + (earlyEntries 3 vstart vend + 1) + (earlyEntries 2 vstart vend + 1) + (earlyEntries 1 vstart vend + 1) := rfl
  rw [upperTables, hpages]
  omega

theorem earlyPages_empty (va : Nat) : earlyPages 4 va va 1 - 1 = 6 := by
  have hone : ∀ lvl, earlyEntries lvl va va = 1 := by
    intro lvl
    rw [earlyEntries, spanNrEntries, Nat.sub_self]
  rw [earlyPages, earlyLevel, earlyLevel, earlyLevel, hone, hone, hone]
  rfl

/-- The pool that `INIT_DIR_SIZE` reserves is large enough for up to five segments that lie one behind the other, none of
them empty and none but the last ending in the last gigabyte of the address space.  `EARLY_PAGES` is enough for a single
segment unless it is an empty one at the beginning of a gigabyte. -/
theorem mapSegments_pool (vstart vend root : Nat) (calls : List SegmentCall) (s : EarlyState)
    (hasc : Ascending vstart calls vend) (hlen : calls.length ≤ kernelSegmentCount) (htop : vend < spanEnd 4 vstart)
    (hpool : EmptyPool root (earlyCapacity vstart vend) s) :
    ((∀ c ∈ calls, c.start < c.fin) → (∀ c ∈ calls.dropLast, c.vaEnd ≤ 2 ^ 64 - span 2) →
      (mapSegments root calls s).pnext ≤ s.pnext + 4096 * earlyCapacity vstart vend) ∧
    ∀ c, calls = [c] → c.va = vstart → c.vaEnd = vend →
      ((mapSegments root calls s).pnext ≤ s.pnext + 4096 * (earlyPages 4 vstart vend 1 - 1) ↔ ¬ c.Overfull) := by
  have hcap : earlyCapacity vstart vend = earlyPages 4 vstart vend 1 - 1 + 6 := rfl
  constructor
  · intro hne hlast
    have hpages := upperTables_lt_earlyPages (Nat.le_refl vstart) (Nat.le_refl vend)
    have hroom : 4096 * (upperTables vstart vend + 2 * (0 + calls.length)) ≤ 4096 * earlyCapacity vstart vend := by
      have hlen' : calls.length ≤ 5 := hlen
      exact Nat.mul_le_mul_left _ (by omega)
    have hle := mapSegments_le hpool.below (Nat.le_refl vstart) htop hasc hne hlast hpool.pnext_mod hpool.free
      (hpool.ready vstart) (.inl (Nat.le_refl _)) (Nat.add_le_add_left hroom _)
    exact Nat.le_trans hle (Nat.add_le_add_left hroom _)
  · rintro c rfl rfl rfl
    have hrun : mapSegments root [c] s = c.run root s := rfl
    rw [hrun]
    constructor
    · intro hle hfull
      have hva : c.vaEnd = c.va := by
        rw [SegmentCall.vaEnd, hfull.1]
        omega
      rw [hva, earlyPages_empty] at hcap hle
      rw [hva, hcap] at hpool
      have hroom : s.pnext + 4096 * 6 + 8192 ≤ s.pnext + 4096 * (6 + 6) := by
        rw [Nat.add_assoc]
        exact Nat.add_le_add_left (by decide) _
      have hlow := hfull.le_run (n := 6) hpool.below hpool.pnext_mod hpool.free (hpool.ready c.va) (by decide) hroom
      generalize (c.run root s).pnext = p at hle hlow
      omega
    · intro hfull
      rcases Nat.lt_or_eq_of_le c.le with hne | hempty
      · have hle : (c.run root s).pnext ≤ _ := SegmentCall.run_le hne htop rfl
        have hpages := upperTables_lt_earlyPages (Nat.le_refl c.va) (Nat.le_refl c.vaEnd)
        exact Nat.le_trans hle (Nat.add_le_add_left (Nat.mul_le_mul_left _ (by omega)) _)
      · have hpages := upperTables_lt_earlyPages (Nat.le_refl c.va) (Nat.le_refl c.vaEnd)
        exact Nat.le_trans (SegmentCall.run_empty_le hempty hfull root s) (Nat.add_le_add_left (by omega) _)

end Run

def textPage : SegmentCall where
  start := 0x401ff000
  fin := 0x40200000
  vaOffset := 0xffff80007fe00000
  prot := 0
  start_mod := by decide
  fin_mod := by decide
  le := by decide
  fin_le := by decide
  congr := by decide

def emptySegment : SegmentCall where
  start := 0x40200000
  fin := 0x40200000
  vaOffset := 0xffff80007fe00000
  prot := 0
  start_mod := by decide
  fin_mod := by decide
  le := by decide
  fin_le := by decide
  congr := by decide

def dataPage : SegmentCall where
  start := 0x40200000
  fin := 0x40201000
  vaOffset := 0xffff80007fe00000
  prot := 0
  start_mod := by decide
  fin_mod := by decide
  le := by decide
  fin_le := by decide
  congr := by decide

theorem emptyRoot_emptyPool {n : Nat} (hn : 4096 + 4096 * n ≤ 2 ^ 48) : EmptyPool 0 n emptyRoot where
  root_mod := rfl
  pnext_mod := rfl
  below := hn
  empty := fun i _ => emptyRoot_invalid i
  zero := fun _ _ _ => rfl
  apart := by
    intro x (hx : 4096 ≤ x) _
    unfold pageOf
    omega

/-- The text and the data fit in the pool, and the text alone in `EARLY_PAGES`. -/
theorem mapSegments_pool_textData :
    (mapSegments 0 [textPage, dataPage] emptyRoot).pnext ≤
      4096 + 4096 * earlyCapacity 0xffff8000bffff000 0xffff8000c0001000 ∧
    ((mapSegments 0 [textPage] emptyRoot).pnext ≤ 4096 + 4096 * (earlyPages 4 0xffff8000bffff000 0xffff8000c0000000 1 - 1) ↔
      ¬ textPage.Overfull) := by
  constructor
  · refine (mapSegments_pool 0xffff8000bffff000 0xffff8000c0001000 0 [textPage, dataPage] emptyRoot (by decide)
      (by decide) (by decide) (emptyRoot_emptyPool (by decide))).1 ?_ ?_
    · decide
    · decide
  · exact (mapSegments_pool 0xffff8000bffff000 0xffff8000c0000000 0 [textPage] emptyRoot (by decide) (by decide)
      (by decide) (emptyRoot_emptyPool (by decide))).2 textPage rfl (by decide) (by decide)

/-- Three segments one behind the other, of which the second is empty, take more pages than the pool has. -/
theorem emptySegment_overflows :
    Ascending 0xffff8000bffff000 [textPage, emptySegment, dataPage] 0xffff8000c0001000 ∧
    [textPage, emptySegment, dataPage].length ≤ kernelSegmentCount ∧
    0xffff8000c0001000 < spanEnd 4 0xffff8000bffff000 ∧
    EmptyPool 0 (earlyCapacity 0xffff8000bffff000 0xffff8000c0001000) emptyRoot ∧
    ¬ (mapSegments 0 [textPage, emptySegment, dataPage] emptyRoot).pnext ≤
      emptyRoot.pnext + 4096 * earlyCapacity 0xffff8000bffff000 0xffff8000c0001000 := by
  refine ⟨by decide, by decide, by decide, emptyRoot_emptyPool (by decide), fun hle => ?_⟩
  have hwin : textPage.vaEnd < spanEnd 4 textPage.va := by decide
  have hne : textPage.start < textPage.fin := by decide
  have hpool : EmptyPool 0 (2 ^ 36 - 1) emptyRoot := emptyRoot_emptyPool (by decide)
  obtain ⟨s₁, hs₁⟩ : ∃ s₁, s₁ = textPage.run 0 emptyRoot := ⟨_, rfl⟩
  have hle₁ : s₁.pnext ≤ 4096 + 4096 * 4 := Nat.le_trans (SegmentCall.run_le hne hwin hs₁) (by decide)
  have hext := textPage.run_extends hne hwin (by decide) hpool.below hpool.pnext_mod hpool.free (hpool.ready textPage.va) hs₁
    (Nat.le_trans hle₁ (by decide))
  have hfull : emptySegment.Overfull := ⟨rfl, by decide, by decide⟩
  have hlow := hfull.le_run (n := 512) hpool.below hext.mod (fun x h1 h2 => ⟨hext.free x h1 h2, List.not_mem_nil⟩)
    (hext.ready hwin) (by decide) (Nat.le_trans (Nat.add_le_add_right (Nat.add_le_add_right hle₁ _) _) (by decide))
  have hgrow := dataPage.run_grows 0 (emptySegment.run 0 s₁)
  have hrun : mapSegments 0 [textPage, emptySegment, dataPage] emptyRoot = dataPage.run 0 (emptySegment.run 0 s₁) := by
    simp only [mapSegments, List.foldl_cons, List.foldl_nil, hs₁]
  rw [hrun] at hle
  have hbound := Nat.le_trans hlow (Nat.le_trans hgrow hle)
  exact absurd (Nat.le_trans (Nat.add_le_add_right (Nat.le_add_left (4096 * 512) s₁.pnext) 4096) hbound) (by decide)

end QuestOS
