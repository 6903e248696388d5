import QuestOS.Mmu.EarlyMapSpec

/-!
# Segments of the kernel image

`map_segment` and `unmap_segment` of `map_kernel.c`.  Unmapping is mapping with the attribute 0, and every level of the
builder adds the type bits of its descriptor: the range stays mapped, with a valid descriptor and no attributes
(`unmapSegment_maps`).  What is true is that neither the unmapping nor a later mapping of the range needs a table.
-/

namespace QuestOS

open Bytes PageTable

namespace EarlyRequest

variable {r : EarlyRequest} {k t x va i : Nat} {s s' : EarlyState} {next : MapRange} {m : Mem}

/-! ### Calls that need no table -/

def Present (r : EarlyRequest) (m : Mem) : (k t x : Nat) → Prop
  | 0, _, _ => True
  | k + 1, t, x => r.MapsBlock (k + 1) x ∨
      isTable (slot m t (index (k + 1) x)) = true ∧ r.Present m k (outAddr (slot m t (index (k + 1) x))) x

theorem present_of_path {m' : Mem} {t' : Nat} (h : path m' k t' x = path m k t x) :
    r.Present m' k t' x ↔ r.Present m k t x := by
  induction k generalizing t t' with
  | zero => exact Iff.rfl
  | succ k ih =>
    simp only [path, List.cons.injEq, Prod.mk.injEq] at h
    obtain ⟨⟨-, he⟩, hrest⟩ := h
    rw [Present, Present, he]
    refine or_congr_right (and_congr_right fun htab => ?_)
    rw [he, if_pos htab, if_pos htab] at hrest
    exact ih hrest

theorem Present.unblocked (h : r.Present m k t x) : r.Unblocked m k t x := by
  induction k generalizing t with
  | zero => trivial
  | succ k ih => exact h.imp_right fun hrest _ => ⟨hrest.1, ih hrest.2⟩

theorem isValid_of_isTable {e : Entry} (h : isTable e = true) : isValid e = true := (Bool.and_eq_true_iff.1 h).1

def LevelStays (r : EarlyRequest) (k : Nat) (next : MapRange) : Prop :=
  ∀ (t va : Nat) (s : EarlyState), Tree s.mem k t → r.Begins (k + 1) va → s.pnext % 4096 = 0 → s.pnext ≤ 2 ^ 48 →
    (∀ x, va ≤ x → x < r.partEnd k va → r.Present s.mem k t x) → (r.callPart k next t va s).pnext = s.pnext

theorem pool_self {p : Nat} (h : p ≤ 2 ^ 48) : Pool m k t p p := ⟨h, fun x h1 h2 => by omega⟩

theorem Round.stays (hstays : r.LevelStays k next) (ht : Tree s.mem (k + 1) t) (hva : r.Begins (k + 1) va)
    (hmod : s.pnext % 4096 = 0) (hle : s.pnext ≤ 2 ^ 48)
    (hpres : ∀ x, va ≤ x → x < r.partEnd (k + 1) va → r.Present s.mem (k + 1) t x)
    (hround : r.Round r.attr next k t va s s') : s'.pnext = s.pnext := by
  obtain ⟨-, rfl⟩ | ⟨hb, rfl⟩ := hround
  · rfl
  · obtain ⟨htab, -⟩ := (hpres va (Nat.le_refl _) (lt_partEnd hva.lt)).resolve_left hb
    have hlink : linkTable t (index (k + 1) va) s = s := if_pos (isValid_of_isTable htab)
    rw [hlink]
    refine hstays _ va s (ht.2.1 _ (index_lt _ _) htab).1 hva hmod hle fun x hx1 hx2 => ?_
    have h1 := r.partEnd_le_spanEnd k va
    have h2 := r.partEnd_le_succ k va
    have hx : x / span (k + 1) = va / span (k + 1) := div_span_of_mem hx1 (by omega)
    have h := (hpres x hx1 (by omega)).resolve_left (mt (mapsBlock_congr hx).1 hb)
    rw [index_of_div_span hx] at h
    exact h.2

theorem tableMapRange_stays (hk : k + 1 ≤ 3) (hnext : r.LevelSpec k next) (hgrow : Grows next)
    (hstays : r.LevelStays k next) :
    r.LevelStays (k + 1) (tableMapRange (k + 1) (r.blockFlag (k + 1)) r.attr next) := by
  intro t va s ht hva hmod hle hpres
  refine callPart_rounds (P := fun va s s' => Tree s.mem (k + 1) t → s.pnext % 4096 = 0 → s.pnext ≤ 2 ^ 48 →
      (∀ x, va ≤ x → x < r.partEnd (k + 1) va → r.Present s.mem (k + 1) t x) → s'.pnext = s.pnext) r.attr hk
    (fun va s s' hva hround _ ht hmod hle hpres => hround.stays hstays ht hva hmod hle hpres)
    (fun va s s₂ s' hva hround hmore _ hrest ht hmod hle hpres => ?_) hva ht hmod hle hpres
  have hlt := lt_spanEnd (k + 1) va
  have hsame := hround.stays hstays ht hva hmod hle hpres
  have hm := Round.mapped hk hnext hgrow ht hmod (fun x hx1 hx2 => (hpres x hx1 hx2).unblocked) hva hround
    (by rw [hsame]; exact pool_self hle) hmore
  rw [← hsame]
  refine hrest hm.maps.tree hm.mod (by omega) fun x hx1 hx2 => ?_
  rw [(partEnd_spanEnd hmore).2.1] at hx2
  rw [present_of_path (hm.path_later hx1 hx2)]
  exact hpres x (by omega) hx2

theorem pudMapRange_stays (r : EarlyRequest) : r.LevelStays 2 (pudMapRange r.attr r.flags) := by
  have h0 := pteMapRange_grows r.attr
  have h0' : r.LevelStays 0 (pteMapRange r.attr) := fun _ _ _ _ _ _ _ _ => rfl
  have h1 : r.LevelSpec 1 (pmdMapRange r.attr r.flags) := tableMapRange_spec (by decide) r.pteMapRange_spec h0
  have h1' : r.LevelStays 1 (pmdMapRange r.attr r.flags) := tableMapRange_stays (by decide) r.pteMapRange_spec h0 h0'
  exact tableMapRange_stays (by decide) h1 (tableMapRange_grows h0) h1'

/-! ### A call leaves the tables that it needs -/

def RestBuilds (r : EarlyRequest) (k t va : Nat) (s s' : EarlyState) : Prop :=
  Tree s.mem k t → s.pnext % 4096 = 0 → (∀ x, va ≤ x → x < r.partEnd k va → r.Unblocked s.mem k t x) →
    Pool s.mem k t s.pnext s'.pnext → ∀ x, va ≤ x → x < r.partEnd k va → r.Present s'.mem k t x

def LevelBuilds (r : EarlyRequest) (k : Nat) (next : MapRange) : Prop :=
  ∀ (t va : Nat) (s : EarlyState), r.Begins (k + 1) va → r.RestBuilds k t va s (r.callPart k next t va s)

theorem Round.builds (hnext : r.LevelSpec k next) (hgrow : Grows next) (hbuilds : r.LevelBuilds k next)
    (hva : r.Begins (k + 1) va) (hround : r.Round r.attr next k t va s s') (ht : Tree s.mem (k + 1) t)
    (hmod : s.pnext % 4096 = 0) (hun : ∀ x, va ≤ x → x < r.partEnd (k + 1) va → r.Unblocked s.mem (k + 1) t x)
    (hp : Pool s.mem (k + 1) t s.pnext s'.pnext) (hx1 : va ≤ x) (hx2 : x < r.partEnd k va) :
    r.Present s'.mem (k + 1) t x := by
  have hpart := r.partEnd_le_succ k va
  have hend := r.partEnd_le_spanEnd k va
  have hx : x / span (k + 1) = va / span (k + 1) := div_span_of_mem hx1 (by omega)
  obtain ⟨hb, rfl⟩ | ⟨hb, hs'⟩ := hround
  · exact .inl ((mapsBlock_congr hx).2 hb)
  · obtain ⟨-, c, s₁, rfl, htree, hmod₁, hun₁, hpool, htab, hout⟩ :=
      hnext.entry hgrow ht hva hmod hb (fun x hx1 hx2 => hun x hx1 (by omega)) hs' hp
    rw [Present, index_of_div_span hx, hout]
    exact .inr ⟨htab, hbuilds c va s₁ hva htree hmod₁ hun₁ hpool x hx1 hx2⟩

theorem tableMapRange_builds (hk : k + 1 ≤ 3) (hnext : r.LevelSpec k next) (hgrow : Grows next)
    (hbuilds : r.LevelBuilds k next) :
    r.LevelBuilds (k + 1) (tableMapRange (k + 1) (r.blockFlag (k + 1)) r.attr next) := by
  intro t va s hva
  refine (callPart_rounds (P := fun va s s' => r.RestSpec (k + 1) t va s s' ∧ r.RestBuilds (k + 1) t va s s') r.attr hk
    (fun va s s' hva hround hend => ⟨.last hk hnext hgrow hva hround hend, fun ht hmod hun hp x hx1 hx2 => ?_⟩)
    (fun va s s₂ s' hva hround hmore hle hrest =>
      ⟨.more hk hnext hgrow hva hround hmore (hle hgrow) hrest.1, fun ht hmod hun hp x hx1 hx2 => ?_⟩) hva).2
  · exact hround.builds hnext hgrow hbuilds hva ht hmod hun hp hx1 (by rw [partEnd_of_last hend]; exact hx2)
  · have hp₂ := hp.mono (Nat.le_refl _) (hle hgrow)
    have hm := Round.mapped hk hnext hgrow ht hmod hun hva hround hp₂ hmore
    have hun' := hm.unblocked_later hmore hun
    obtain ⟨-, hpart, -, hreg⟩ := partEnd_spanEnd hmore
    by_cases hx : x < spanEnd (k + 1) va
    · -- the later entries leave the way to `x` alone
      have hafter := hrest.1 hm.maps.tree hm.mod hun' (hm.pool hp)
      have hlt : x / span (k + 1) < spanEnd (k + 1) va / span (k + 1) := by
        rw [Nat.div_lt_iff_lt_mul (span_pos _), Nat.div_mul_cancel (Nat.dvd_of_mod_eq_zero (spanEnd_mod _ _))]
        exact hx
      have hxreg : x / span (k + 1 + 1) = spanEnd (k + 1) va / span (k + 1 + 1) := by
        rw [hreg]
        exact region_of_div_span (div_span_of_mem hx1 hx)
      rw [present_of_path (hafter.maps.path x hxreg (.inl ⟨Nat.succ_ne_zero k, hlt⟩))]
      exact hround.builds hnext hgrow hbuilds hva ht hmod hun hp₂ hx1 (by rw [partEnd_of_more hmore]; exact hx)
    · exact hrest.2 hm.maps.tree hm.mod hun' (hm.pool hp) x (by omega) (by rw [hpart]; exact hx2)

theorem pudMapRange_builds (r : EarlyRequest) : r.LevelBuilds 2 (pudMapRange r.attr r.flags) := by
  have h0 := pteMapRange_grows r.attr
  have h0' : r.LevelBuilds 0 (pteMapRange r.attr) := fun _ _ _ _ _ _ _ _ _ _ _ => trivial
  have h1 : r.LevelSpec 1 (pmdMapRange r.attr r.flags) := tableMapRange_spec (by decide) r.pteMapRange_spec h0
  have h1' : r.LevelBuilds 1 (pmdMapRange r.attr r.flags) := tableMapRange_builds (by decide) r.pteMapRange_spec h0 h0'
  exact tableMapRange_builds (by decide) h1 (tableMapRange_grows h0) h1'

def withAttr (r : EarlyRequest) (attr : BitVec 64) (h : attr &&& (addrMask ||| 3#64) = 0) : EarlyRequest :=
  { r with attr, attr_free := h }

theorem present_withAttr (attr : BitVec 64) (h : attr &&& (addrMask ||| 3#64) = 0) :
    (r.withAttr attr h).Present m k t x ↔ r.Present m k t x := by
  induction k generalizing t with
  | zero => exact Iff.rfl
  | succ k ih => exact or_congr Iff.rfl (and_congr_right fun _ => ih)

end EarlyRequest

namespace EarlyCall

variable {c : EarlyCall} {root : Nat} {s : EarlyState}

theorem run_pnext (c : EarlyCall) (ht : Tree s.mem 3 root) (hmod : s.pnext % 4096 = 0) (hle : s.pnext ≤ 2 ^ 48)
    (hpres : ∀ x, c.request.va ≤ x → x < c.request.vaEnd → c.request.Present s.mem 3 root x) :
    (c.run root s).pnext = s.pnext := by
  obtain ⟨hspec, hgrow⟩ := c.request.pudMapRange_spec
  rw [c.run_eq]
  refine EarlyRequest.tableMapRange_stays (by decide) hspec hgrow c.request.pudMapRange_stays root c.request.va s ht
    c.begins hmod hle ?_
  rw [c.partEnd_request]
  exact hpres

theorem run_present (c : EarlyCall) (ht : Tree s.mem 3 root) (hmod : s.pnext % 4096 = 0)
    (hun : ∀ x, c.request.va ≤ x → x < c.request.vaEnd → c.request.Unblocked s.mem 3 root x)
    (hp : EarlyRequest.Pool s.mem 3 root s.pnext (c.run root s).pnext) :
    ∀ x, c.request.va ≤ x → x < c.request.vaEnd → c.request.Present (c.run root s).mem 3 root x := by
  obtain ⟨hspec, hgrow⟩ := c.request.pudMapRange_spec
  have h := EarlyRequest.tableMapRange_builds (by decide) hspec hgrow c.request.pudMapRange_builds root c.request.va s
    c.begins ht hmod (by rw [c.partEnd_request]; exact hun) (by rw [← c.run_eq]; exact hp)
  rw [← c.run_eq, c.partEnd_request] at h
  exact h

end EarlyCall

/-! ### Segments -/

def flagsMapBlock : Nat := 3

def mapSegment (pgd vaOffset start fin : Nat) (prot : BitVec 64) (s : EarlyState) : EarlyState :=
  pgMapRange prot flagsMapBlock pgd start fin (add64 start vaOffset) s

/-- `map_segment` with a null pointer for `pg_dir`; there is no result if it is dereferenced for a table. -/
def mapSegmentNull (pgd vaOffset start fin : Nat) (prot : BitVec 64) (m : Mem) : Option Mem :=
  let s := mapSegment pgd vaOffset start fin prot ⟨m, 0⟩
  if s.pnext = 0 then some s.mem else none

def unmapSegment (pgd vaOffset start fin : Nat) (m : Mem) : Option Mem := mapSegmentNull pgd vaOffset start fin 0 m

structure Segment where
  start : Nat
  fin : Nat
  vaOffset : Nat
  lt : start < fin
  fin_le : fin ≤ 2 ^ 48
  congr : add64 start vaOffset % 4096 = start % 4096
  window : add64 start vaOffset + (fin - start) ≤ spanEnd 4 (add64 start vaOffset)

namespace Segment

def call (g : Segment) (prot : BitVec 64) (h : prot &&& (addrMask ||| 3#64) = 0) : EarlyCall where
  start := g.start
  fin := g.fin
  va := add64 g.start g.vaOffset
  attr := prot
  flags := flagsMapBlock
  lt := g.lt
  fin_le := g.fin_le
  congr := g.congr
  va_lt := Nat.mod_lt _ (by decide)
  window := g.window
  attr_free := h

def unmapCall (g : Segment) : EarlyCall := g.call 0 noAttr_free

def Mem (g : Segment) (x : Nat) : Prop := g.unmapCall.request.va ≤ x ∧ x < g.unmapCall.request.vaEnd

structure Tables (g : Segment) (root : Nat) (m : Bytes.Mem) : Prop where
  tree : Tree m 3 root
  present : ∀ x, g.Mem x → g.unmapCall.request.Present m 3 root x

/-- Unmapped as it is meant: every address of the segment faults, every other one translates as before. -/
structure Unmapped (g : Segment) (root : Nat) (m m' : Bytes.Mem) : Prop where
  faults : ∀ x, g.Mem x → walk m' 3 root x = none
  others : ∀ x, x / span 4 = g.unmapCall.request.va / span 4 → ¬ g.Mem x → walk m' 3 root x = walk m 3 root x

variable {g : Segment} {root : Nat} {m m' : Bytes.Mem}

/-- The tables are there after `map_segment`, and stay there as long as no entry on the way to the segment is changed. -/
theorem tables_of_mapSegment {prot : BitVec 64} (h : prot &&& (addrMask ||| 3#64) = 0) {s : EarlyState}
    (ht : Tree s.mem 3 root) (hmod : s.pnext % 4096 = 0)
    (hun : ∀ x, g.Mem x → (g.call prot h).request.Unblocked s.mem 3 root x)
    (hp : EarlyRequest.Pool s.mem 3 root s.pnext (mapSegment root g.vaOffset g.start g.fin prot s).pnext)
    (htree : Tree m 3 root)
    (hpath : ∀ x, g.Mem x → path m 3 root x = path (mapSegment root g.vaOffset g.start g.fin prot s).mem 3 root x) :
    g.Tables root m := by
  refine ⟨htree, fun x hx => ?_⟩
  have hpres := (g.call prot h).run_present ht hmod (fun x h1 h2 => hun x ⟨h1, h2⟩) hp x hx.1 hx.2
  rw [EarlyRequest.present_of_path (hpath x hx)]
  exact (EarlyRequest.present_withAttr prot h).1 hpres

/-- With its tables there, the segment is mapped with any attributes and without a new table. -/
theorem mapSegmentNull_maps (h : g.Tables root m) (prot : BitVec 64) (hprot : prot &&& (addrMask ||| 3#64) = 0) :
    ∃ m', mapSegmentNull root g.vaOffset g.start g.fin prot m = some m' ∧ g.Tables root m' ∧
      (∀ x, g.Mem x → walk m' 3 root x = (g.call prot hprot).request.leaf x) ∧
      ∀ x, x / span 4 = g.unmapCall.request.va / span 4 →
        ¬ (g.unmapCall.request.va ≤ x ∧ x < g.unmapCall.request.stop 3 g.unmapCall.request.va) →
        walk m' 3 root x = walk m 3 root x := by
  have hpres : ∀ x, g.Mem x → (g.call prot hprot).request.Present m 3 root x := fun x hx =>
    (EarlyRequest.present_withAttr prot hprot).2 (h.present x hx)
  have hpnext : ((g.call prot hprot).run root ⟨m, 0⟩).pnext = 0 :=
    (g.call prot hprot).run_pnext h.tree rfl (Nat.zero_le _) fun x h1 h2 => hpres x ⟨h1, h2⟩
  have hpool : EarlyRequest.Pool m 3 root 0 ((g.call prot hprot).run root ⟨m, 0⟩).pnext := by
    rw [hpnext]
    exact EarlyRequest.pool_self (Nat.zero_le _)
  have hun : ∀ x, g.Mem x → (g.call prot hprot).request.Unblocked m 3 root x := fun x hx => (hpres x hx).unblocked
  have hm := (g.call prot hprot).run_mapped (s := ⟨m, 0⟩) h.tree rfl (fun x h1 h2 => hun x ⟨h1, h2⟩) hpool
  have hafter := (g.call prot hprot).run_present (s := ⟨m, 0⟩) h.tree rfl (fun x h1 h2 => hun x ⟨h1, h2⟩) hpool
  refine ⟨((g.call prot hprot).run root ⟨m, 0⟩).mem, if_pos hpnext, ⟨hm.maps.tree, fun x hx => ?_⟩, fun x hx => ?_,
    fun x hreg hout => ?_⟩
  · exact (EarlyRequest.present_withAttr prot hprot).1 (hafter x hx.1 hx.2)
  · have hreg : x / span 4 = g.unmapCall.request.va / span 4 :=
      div_span_of_mem hx.1 (Nat.lt_of_lt_of_le hx.2 g.unmapCall.request.window)
    have hle : g.unmapCall.request.vaEnd ≤ g.unmapCall.request.stop 3 g.unmapCall.request.va := by
      have := g.unmapCall.request.partEnd_le_stop 3 g.unmapCall.request.va
      rwa [g.unmapCall.partEnd_request] at this
    have hw := hm.maps.walk x hreg
    rw [Option.map_id] at hw
    exact hw.trans (if_pos ⟨hx.1, Nat.lt_of_lt_of_le hx.2 hle⟩)
  · have hw := hm.maps.walk x hreg
    rw [Option.map_id] at hw
    exact hw.trans (if_neg hout)

/-- Unmapping leaves the segment mapped: the attribute is 0, but the descriptors are valid. -/
theorem unmapSegment_maps (g : Segment) (root : Nat) (m : Bytes.Mem) (h : g.Tables root m) :
    (∃ m', unmapSegment root g.vaOffset g.start g.fin m = some m' ∧
      (∀ x, g.Mem x → walk m' 3 root x = g.unmapCall.request.leaf x) ∧
      ∀ prot : BitVec 64, prot &&& (addrMask ||| 3#64) = 0 →
        ∃ m'', mapSegmentNull root g.vaOffset g.start g.fin prot m' = some m'') ∧
    ¬ ∃ m', unmapSegment root g.vaOffset g.start g.fin m = some m' ∧ g.Unmapped root m m' := by
  obtain ⟨m', hm', htab, hwalk, -⟩ := mapSegmentNull_maps h 0 (by decide)
  refine ⟨⟨m', hm', hwalk, fun prot hprot => ?_⟩, ?_⟩
  · obtain ⟨m'', hm'', -⟩ := mapSegmentNull_maps htab prot hprot
    exact ⟨m'', hm''⟩
  · rintro ⟨m₂, hm₂, hun⟩
    obtain rfl : m' = m₂ := Option.some.inj (hm'.symm.trans hm₂)
    have hmem : g.Mem g.unmapCall.request.va := ⟨Nat.le_refl _, g.unmapCall.request.lt⟩
    have hnone := hun.faults _ hmem
    rw [hwalk _ hmem] at hnone
    cases hnone

def onePage : Segment where
  start := 0x100000
  fin := 0x101000
  vaOffset := 0x400000
  lt := by decide
  fin_le := by decide
  congr := by decide
  window := by decide

def onePageMem : Bytes.Mem := (mapSegment 0 onePage.vaOffset onePage.start onePage.fin (1 <<< 10) emptyRoot).mem

theorem onePage_tables : onePage.Tables 0 onePageMem := by
  have hp := emptyRoot_pool (q := (mapSegment 0 onePage.vaOffset onePage.start onePage.fin (1 <<< 10) emptyRoot).pnext)
    (by decide +kernel)
  have hm := (onePage.call (1 <<< 10) (by decide)).run_mapped emptyRoot_tree rfl
    (fun x _ _ => emptyRoot_unblocked _ x) hp
  exact tables_of_mapSegment (by decide) emptyRoot_tree rfl (fun x _ => emptyRoot_unblocked _ x) hp hm.maps.tree
    fun _ _ => rfl

theorem onePage_mem : onePage.Mem 0x500000 := ⟨by decide, by decide⟩

theorem unmapSegment_onePage : ∃ m', unmapSegment 0 0x400000 0x100000 0x101000 onePageMem = some m' ∧
    walk m' 3 0 0x500000 = some ⟨0x100000, 0⟩ := by
  obtain ⟨⟨m', hm', hwalk, -⟩, -⟩ := unmapSegment_maps onePage 0 onePageMem onePage_tables
  exact ⟨m', hm', hwalk 0x500000 onePage_mem⟩

/-- After unmapping it the page is still mapped. -/
theorem onePage_not_unmapped :
    ¬ ∃ m', unmapSegment 0 0x400000 0x100000 0x101000 onePageMem = some m' ∧ onePage.Unmapped 0 onePageMem m' := by
  rintro ⟨m', hm', hun⟩
  obtain ⟨m₂, hm₂, -, hwalk, -⟩ := mapSegmentNull_maps onePage_tables 0 (by decide)
  obtain rfl : m₂ = m' := Option.some.inj (hm₂.symm.trans hm')
  have hfault := hun.faults 0x500000 onePage_mem
  rw [hwalk 0x500000 onePage_mem] at hfault
  cases hfault

end Segment

end QuestOS
