import Mathlib.Order.Interval.Set.Nat
import QuestOS.Mmu.EarlyLevels

/-!
# What `pg_map_range` maps

A call is rounded to pages and becomes a request.  Where no existing block entry is in the way, the
tables translate the requested range as asked for and every other address as before, and `*pnext`
advances by the pages that were linked; the exception is a range that ends inside the last block of
the address space, where the whole block is mapped.
-/

namespace QuestOS

open Bytes PageTable

/-- A call of `pg_map_range`.  Physical addresses have 48 bits, and the virtual range lies in one of
the windows that a four-level walk tells apart. -/
structure EarlyCall where
  start : Nat
  fin : Nat
  va : Nat
  attr : BitVec 64
  flags : Nat
  lt : start < fin
  fin_le : fin ≤ 2 ^ 48
  congr : va % 4096 = start % 4096
  va_lt : va < 2 ^ 64
  window : va + (fin - start) ≤ spanEnd 4 va
  attr_free : attr &&& (addrMask ||| 3#64) = 0

theorem noAttr_free : (0 : BitVec 64) &&& (addrMask ||| 3#64) = 0 := by decide

namespace EarlyCall

theorem alignUp_fin (c : EarlyCall) : alignUp c.fin 4096 = (c.fin + 4095) / 4096 * 4096 := by
  have h := c.fin_le
  rw [show (4096 : Nat) = 2 ^ 12 from rfl, alignUp_eq]
  omega

def request (c : EarlyCall) : EarlyRequest where
  start := alignDown c.start 4096
  va := alignDown c.va 4096
  vaEnd := alignDown c.va 4096 + (alignUp c.fin 4096 - alignDown c.start 4096)
  attr := c.attr
  flags := c.flags
  start_mod := Nat.mul_mod_left _ _
  va_mod := Nat.mul_mod_left _ _
  vaEnd_mod := by
    rw [c.alignUp_fin, alignDown, alignDown]
    omega
  lt := by
    have := c.lt
    rw [c.alignUp_fin, alignDown, alignDown]
    omega
  window := by
    have h1 := c.congr
    have h2 := c.window
    have h3 := spanEnd_mod_page 4 c.va
    have h4 := c.lt
    have hva : spanEnd 4 (alignDown c.va 4096) = spanEnd 4 c.va := by
      refine spanEnd_congr ?_
      change c.va / 4096 * 4096 / 2 ^ 48 = c.va / 2 ^ 48
      omega
    rw [hva, c.alignUp_fin, alignDown, alignDown]
    omega
  vaEnd_le := by
    have h1 := c.congr
    have h2 := Nat.le_trans c.window (spanEnd_le_two_pow (by decide) c.va_lt)
    have h3 := c.lt
    rw [c.alignUp_fin, alignDown, alignDown]
    omega
  phys_le := by
    have h1 := c.fin_le
    have h2 := c.lt
    rw [c.alignUp_fin, alignDown, alignDown]
    omega
  attr_free := c.attr_free

def run (c : EarlyCall) (root : Nat) (s : EarlyState) : EarlyState :=
  pgMapRange c.attr c.flags root c.start c.fin c.va s

theorem partEnd_request (c : EarlyCall) : c.request.partEnd 3 c.request.va = c.request.vaEnd :=
  Nat.min_eq_left c.request.window

theorem run_eq (c : EarlyCall) (root : Nat) (s : EarlyState) :
    c.run root s = c.request.callPart 3 (tableMapRange 3 (c.request.blockFlag 3) c.request.attr
      (pudMapRange c.request.attr c.request.flags)) root c.request.va s := by
  have hfin : c.request.start + (c.request.vaEnd - c.request.va) = alignUp c.fin 4096 := by
    have h := c.lt
    change alignDown c.start 4096 + (alignDown c.va 4096 + (alignUp c.fin 4096 - alignDown c.start 4096) -
      alignDown c.va 4096) = _
    rw [c.alignUp_fin, alignDown, alignDown]
    omega
  rw [EarlyRequest.callPart, c.partEnd_request, hfin, Nat.sub_self, Nat.add_zero]
  rfl

theorem begins (c : EarlyCall) : c.request.Begins 4 c.request.va := ⟨Nat.le_refl _, c.request.lt, .inl rfl⟩

theorem run_mapped (c : EarlyCall) {root : Nat} {s : EarlyState} (ht : Tree s.mem 3 root) (hmod : s.pnext % 4096 = 0)
    (hun : ∀ x, c.request.va ≤ x → x < c.request.vaEnd → c.request.Unblocked s.mem 3 root x)
    (hp : EarlyRequest.Pool s.mem 3 root s.pnext (c.run root s).pnext) :
    c.request.Mapped 3 root c.request.va (c.request.stop 3 c.request.va) c.request.vaEnd s (c.run root s) := by
  obtain ⟨hspec, hgrow⟩ := c.request.pudMapRange_spec
  have h := EarlyRequest.tableMapRange_spec (by decide) hspec hgrow root c.request.va s ht c.begins hmod
    (by rw [c.partEnd_request]; exact hun) (by rw [← c.run_eq]; exact hp)
  rw [← c.run_eq, c.partEnd_request] at h
  exact h

end EarlyCall

structure EarlyMap (r : EarlyRequest) (root : Nat) (s s' : EarlyState) : Prop where
  mapped : ∀ x, r.va ≤ x → x < r.vaEnd → walk s'.mem 3 root x = r.leaf x
  others : ∀ x, x / span 4 = r.va / span 4 → ¬ (r.va ≤ x ∧ x < r.vaEnd) →
    walk s'.mem 3 root x = walk s.mem 3 root x
  taken : s'.pnext = s.pnext + 4096 * {p | Foot s'.mem 3 root p ∧ ¬ Foot s.mem 3 root p}.ncard

theorem ncard_pages {p q : Nat} (hp : p % 4096 = 0) (hq : q % 4096 = 0) (h : p ≤ q) :
    q = p + 4096 * {x | x % 4096 = 0 ∧ p ≤ x ∧ x < q}.ncard := by
  have himage : {x | x % 4096 = 0 ∧ p ≤ x ∧ x < q} = (fun i => p + 4096 * i) '' Set.Iio ((q - p) / 4096) := by
    ext x
    constructor
    · rintro ⟨h1, h2, h3⟩
      exact ⟨(x - p) / 4096, by simp only [Set.mem_Iio]; omega, by simp only; omega⟩
    · rintro ⟨i, hi, rfl⟩
      simp only [Set.mem_Iio] at hi
      change (p + 4096 * i) % 4096 = 0 ∧ p ≤ p + 4096 * i ∧ p + 4096 * i < q
      omega
  have hinj : Function.Injective fun i => p + 4096 * i := fun i j (hij : p + 4096 * i = p + 4096 * j) => by omega
  rw [himage, Set.ncard_image_of_injective _ hinj, Set.ncard_Iio_nat]
  omega

namespace EarlyRequest

variable {r : EarlyRequest} {root b : Nat} {s s' : EarlyState}

theorem Mapped.taken (h : r.Mapped 3 root r.va b r.vaEnd s s') (hmod : s.pnext % 4096 = 0)
    (hp : Pool s.mem 3 root s.pnext s'.pnext) :
    s'.pnext = s.pnext + 4096 * {p | Foot s'.mem 3 root p ∧ ¬ Foot s.mem 3 root p}.ncard := by
  have hset : {p | Foot s'.mem 3 root p ∧ ¬ Foot s.mem 3 root p} =
      {p | p % 4096 = 0 ∧ s.pnext ≤ p ∧ p < s'.pnext} := by
    ext p
    constructor
    · rintro ⟨h1, h2⟩
      have hal := h.maps.tree.foot_aligned h1
      exact ⟨hal, (h.maps.foot p h1).resolve_left h2 p (pageOf_of_aligned hal)⟩
    · rintro ⟨h1, h2, h3⟩
      obtain ⟨x, -, -, hx⟩ := h.linked p h1 h2 h3
      refine ⟨foot_of_mem_path hx, ?_⟩
      rw [← pageOf_of_aligned h1]
      exact (hp.2 p h2 h3).2
  rw [hset]
  exact ncard_pages hmod h.mod h.le

/-- A mapping that ends at `b` is the requested one if what lies above the range was mapped so before. -/
theorem Mapped.earlyMap_iff (h : r.Mapped 3 root r.va b r.vaEnd s s') (hmod : s.pnext % 4096 = 0)
    (hp : Pool s.mem 3 root s.pnext s'.pnext) (hb : r.vaEnd ≤ b) (hb' : b ≤ spanEnd 4 r.va) :
    EarlyMap r root s s' ↔ ∀ x, r.vaEnd ≤ x → x < b → walk s.mem 3 root x = r.leaf x := by
  have hlt := r.lt
  have hreg : ∀ x, r.va ≤ x → x < b → x / span 4 = r.va / span 4 := by
    intro x h1 h2
    exact div_span_of_mem (by omega) (by omega)
  have hwalk : ∀ x, x / span 4 = r.va / span 4 →
      walk s'.mem 3 root x = if r.va ≤ x ∧ x < b then r.leaf x else walk s.mem 3 root x := by
    intro x hx
    have := h.maps.walk x hx
    simpa only [Option.map_id, id] using this
  constructor
  · intro hmap x h1 h2
    have hx := hreg x (by omega) h2
    rw [← hmap.others x hx (by omega), hwalk x hx, if_pos ⟨by omega, h2⟩]
  · intro hold
    refine ⟨fun x h1 h2 => ?_, fun x hx hout => ?_, h.taken hmod hp⟩
    · rw [hwalk x (hreg x h1 (by omega)), if_pos ⟨h1, by omega⟩]
    · rw [hwalk x hx]
      split
      · exact (hold x (by omega) (by omega)).symm
      · rfl

theorem stop_window (r : EarlyRequest) : r.stop 3 r.va = if r.overrun 3 = true then 2 ^ 64 else r.vaEnd := by
  have hlt := r.lt
  have hle := r.vaEnd_le
  have hpart : r.partEnd 3 r.va = r.vaEnd := Nat.min_eq_left r.window
  rw [stop, hpart]
  by_cases hover : r.overrun 3 = true
  · have hend : spanEnd 4 r.va = 2 ^ 64 := by
      have h1 := (overrun_bounds hover).1
      have h2 := spanEnd_le_two_pow (k := 4) (by decide) (show r.va < 2 ^ 64 by omega)
      have h3 : span 3 ≤ span 4 := span_mono (by decide)
      have h4 := r.window
      by_contra hne
      have h5 := spanEnd_le_sub (k := 4) (x := r.va) (by decide) (by omega)
      omega
    rw [if_pos ⟨hend, hover⟩, if_pos hover]
  · rw [if_neg (fun h => hover h.2), if_neg hover]

end EarlyRequest

/-- Where no block entry is in the way that the builder would take for a table, a call does what it is
asked for if and only if it maps nothing above the range, or nothing that was not mapped so before. -/
theorem pgMapRange_earlyMap_iff (c : EarlyCall) (root : Nat) (s : EarlyState) (ht : Tree s.mem 3 root)
    (hmod : s.pnext % 4096 = 0) (hp : EarlyRequest.Pool s.mem 3 root s.pnext (c.run root s).pnext)
    (hun : ∀ x, c.request.va ≤ x → x < c.request.vaEnd → c.request.Unblocked s.mem 3 root x) :
    EarlyMap c.request root s (c.run root s) ↔
      (c.request.overrun 3 = true → ∀ x, c.request.vaEnd ≤ x → x < 2 ^ 64 →
        walk s.mem 3 root x = c.request.leaf x) := by
  have hm := c.run_mapped ht hmod hun hp
  have h1 := c.request.partEnd_le_stop 3 c.request.va
  rw [c.partEnd_request] at h1
  rw [hm.earlyMap_iff hmod hp h1 (c.request.stop_le_spanEnd 3 c.request.va), c.request.stop_window]
  by_cases hover : c.request.overrun 3 = true
  · rw [if_pos hover]
    exact ⟨fun h _ => h, fun h => h hover⟩
  · rw [if_neg hover]
    exact ⟨fun _ h => absurd h hover, fun _ x h2 h3 => absurd h2 (Nat.not_le.mpr h3)⟩

def emptyRoot : EarlyState := ⟨fun _ => 0, 4096⟩

theorem emptyRoot_tree : Tree emptyRoot.mem 3 0 := (zero_table rfl (fun _ _ => rfl) 3).1

theorem emptyRoot_pool {q : Nat} (hq : q ≤ 2 ^ 48) : EarlyRequest.Pool emptyRoot.mem 3 0 emptyRoot.pnext q := by
  refine ⟨hq, fun x (hx : 4096 ≤ x) _ => ⟨rfl, ?_⟩⟩
  rw [(zero_table (m := emptyRoot.mem) rfl (fun _ _ => rfl) 3).2.1]
  unfold pageOf
  omega

theorem emptyRoot_invalid (i : Nat) : isValid (slot emptyRoot.mem 0 i) = false := by
  rw [slot, load64_zero (m := emptyRoot.mem) fun _ _ _ => rfl]
  rfl

theorem emptyRoot_unblocked (r : EarlyRequest) (x : Nat) : r.Unblocked emptyRoot.mem 3 0 x :=
  .inr fun h => by
    rw [emptyRoot_invalid] at h
    cases h

def lastGigabyte : EarlyCall where
  start := 0
  fin := 4096
  va := 2 ^ 64 - 2 ^ 30
  attr := 0
  flags := 1
  lt := page_pos
  fin_le := by decide
  congr := by decide
  va_lt := by decide
  window := by decide
  attr_free := noAttr_free

/-- The whole gigabyte is mapped. -/
theorem lastGigabyte_over : Tree emptyRoot.mem 3 0 ∧ (∀ i, isValid (slot emptyRoot.mem 0 i) = false) ∧
    EarlyRequest.Pool emptyRoot.mem 3 0 emptyRoot.pnext (lastGigabyte.run 0 emptyRoot).pnext ∧
    ¬ EarlyMap lastGigabyte.request 0 emptyRoot (lastGigabyte.run 0 emptyRoot) := by
  refine ⟨emptyRoot_tree, emptyRoot_invalid, emptyRoot_pool (by decide +kernel), fun h => ?_⟩
  have hpage := h.others (2 ^ 64 - 2 ^ 30 + 4096) (by decide +kernel) (by decide +kernel)
  revert hpage
  decide +kernel

def beforeGigabyte : EarlyCall where
  start := 0
  fin := 4096
  va := 2 ^ 64 - 2 ^ 30 - 4096
  attr := 0
  flags := 3
  lt := page_pos
  fin_le := by decide
  congr := by decide
  va_lt := by decide
  window := by decide
  attr_free := noAttr_free

theorem beforeGigabyte_earlyMap : EarlyMap beforeGigabyte.request 0 emptyRoot (beforeGigabyte.run 0 emptyRoot) :=
  (pgMapRange_earlyMap_iff beforeGigabyte 0 emptyRoot emptyRoot_tree rfl (emptyRoot_pool (by decide +kernel))
    fun x _ _ => emptyRoot_unblocked _ x).mpr fun h => absurd h (by decide)

end QuestOS
