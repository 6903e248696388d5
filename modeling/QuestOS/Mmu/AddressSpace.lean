import QuestOS.Mmu.VmapSpec

/-!
# Building an address space

Ranges whose pages do not overlap are mapped one after the other, from an empty top-level table on.
The tables stay tidy, so that no table is in the way when a range can be mapped by a block, and pages
of user mappings have attributes that are never folded into different ones.
-/

namespace QuestOS

open Bytes PageTable

/-- The attributes of a page of a process: accessed, and read-only if and only if it can be read at EL0
but not written. -/
def UserAttr (a : BitVec 64) : Prop := a.getLsbD 10 = true ∧ a.getLsbD 7 = (!a.getLsbD 51 && a.getLsbD 6)

theorem UserAttr.congr {a b : BitVec 64} (h : SameBits [52, 55] a b) (hb : UserAttr b) : UserAttr a := by
  unfold UserAttr at *
  rwa [h 10 (by decide) (by decide), h 7 (by decide) (by decide), h 51 (by decide) (by decide),
    h 6 (by decide) (by decide)]

theorem sameBits_norm (l : Leaf) : SameBits [52, 55] (norm l).attr l.attr := by
  intro i hi hex
  have hmask : (pteContBit ||| pteDirtyBit).getLsbD i = false := by
    rw [pteContBit, pteDirtyBit, BitVec.getLsbD_or, getLsbD_bit (by decide), getLsbD_bit (by decide)]
    simpa using hex
  rw [norm, BitVec.getLsbD_and, BitVec.getLsbD_not, hmask, decide_eq_true hi]
  exact Bool.and_true _

/-- Such attributes agree with each other if they differ in the young, the read-only, the contiguous and
the dirty bit only. -/
theorem UserAttr.agrees {p : Entry} {a : BitVec 64} (hp : UserAttr (protAttr p)) (ha : UserAttr a)
    (h : SameBits [7, 10, 52, 55] a (protAttr p)) : Agrees p a := by
  have hbit : ∀ i < 64, 2 ≤ i → (protAttr p).getLsbD i = p.getLsbD i := by
    intro i hi h2
    rw [protAttr, BitVec.getLsbD_and, BitVec.getLsbD_not, type_bit i hi, decide_eq_true hi, decide_eq_false (by omega)]
    exact Bool.and_true _
  have h51 := h 51 (by decide) (by decide)
  have h6 := h 6 (by decide) (by decide)
  refine ⟨?_, ?_, fun h1 h2 => ?_⟩
  · rw [ha.2, h51, h6, ← hp.2, hbit 7 (by decide) (by decide)]
  · rw [ha.1, ← hbit 10 (by decide) (by decide), hp.1]
  · -- a writable page is not marked read-only
    have h3 := hp.2
    rw [hbit 7 (by decide) (by decide), hbit 51 (by decide) (by decide), h1, h2] at h3
    cases h3

namespace VmapRequest

variable {r : VmapRequest} {m : Mem} {k t x : Nat}

theorem ready_of_tidy (ht : Tidy LowEntry m k t) (hnone : walk m k t x = none)
    (hblock : ∀ j ≤ k, r.UsesBlock j x → ∀ y, y / span j = x / span j → walk m k t y = none) : r.Ready m k t x := by
  induction k generalizing t with
  | zero => trivial
  | succ k ih =>
    have hidx := index_lt (k + 1) x
    rcases ht _ hidx with h | ⟨htab, hval, hk⟩ | ⟨htab, hlow, hsub, z, hz⟩
    · exact .inl h
    · -- a block translates `x`
      rw [walk_of_not_table htab, leafOf, if_neg (Nat.succ_ne_zero k), htab, hval, decide_eq_true hk] at hnone
      cases hnone
    · have hchild : ∀ y, y / span (k + 1) = x / span (k + 1) →
          walk m (k + 1) t y = walk m k (outAddr (slot m t (index (k + 1) x))) y := by
        intro y hy
        have hyx := index_of_div_span hy
        rw [walk_of_table (by rw [hyx]; exact htab), hyx]
      rw [hchild x rfl] at hnone
      refine .inr ⟨fun huses => hz ?_, htab, hlow, ih hsub hnone fun j hj huses y hy => ?_⟩
      · -- everything below the entry is unmapped
        obtain ⟨y, hy, hyz⟩ := exists_span_mod (k := k + 1) x z
        rw [← walk_congr_mod hyz, ← hchild y hy]
        exact hblock (k + 1) (Nat.le_refl _) huses y hy
      · rw [← hchild y (div_span_of_le (by omega) hy)]
        exact hblock j (by omega) huses y hy

end VmapRequest

structure AddressSpace (s₀ s : VmState) (root : Nat) (f : Nat → Option Leaf) : Prop where
  grows : s₀.Grows s
  tree : Tree s.mem 3 root
  foot : ∀ x, Foot s.mem 3 root (pageOf x) → s₀.Taken s x
  frame : ∀ x, ¬ s₀.Taken s x → s.mem x = s₀.mem x
  tidy : Tidy VmapRequest.LowEntry s.mem 3 root
  walk : ∀ x < 2 ^ 48, (walk s.mem 3 root x).map norm = f x
  user : ∀ x l, f x = some l → UserAttr l.attr

namespace AddressSpace

variable {s₀ s s' : VmState} {root : Nat} {f : Nat → Option Leaf} {r : VmapRequest} {err : Int}

theorem tablesHeld (h : AddressSpace s₀ s root f) : VmapRequest.TablesHeld s 3 root :=
  fun x hx hl => hl.2 (h.foot x hx).2

theorem walk_eq_none (h : AddressSpace s₀ s root f) {x : Nat} (hx : x < 2 ^ 48) (hf : f x = none) :
    PageTable.walk s.mem 3 root x = none := by
  have h1 := h.walk x hx
  rwa [hf, Option.map_eq_none_iff] at h1

theorem ready (h : AddressSpace s₀ s root f) (hfree : ∀ x, r.va ≤ x → x < r.vaEnd → f x = none) {x : Nat}
    (h1 : r.va ≤ x) (h2 : x < r.vaEnd) : r.Ready s.mem 3 root x := by
  have hle := r.vaEnd_le
  have hnone : ∀ y, r.va ≤ y → y < r.vaEnd → PageTable.walk s.mem 3 root y = none := fun y hy1 hy2 =>
    h.walk_eq_none (by omega) (hfree y hy1 hy2)
  refine VmapRequest.ready_of_tidy h.tidy (hnone x h1 h2) fun j _ huses y hy => ?_
  -- a block covers addresses of the range only
  have h3 := spanStart_le j y
  have h4 := lt_spanEnd j y
  rw [spanStart_eq_iff.mpr hy] at h3
  rw [spanEnd_congr hy] at h4
  have h5 := huses.2.1
  have h6 := huses.2.2.1
  exact hnone y (by omega) (by omega)

theorem foldSafe (h : AddressSpace s₀ s root f) (huser : UserAttr (protAttr r.prot)) :
    r.FoldSafe s.mem 3 root r.va := by
  intro y _ hlt l hl hsame
  have hy : y < 2 ^ 48 := Nat.lt_trans hlt (Nat.lt_of_lt_of_le r.lt r.vaEnd_le)
  have hf := h.walk y hy
  rw [hl] at hf
  exact huser.agrees ((h.user y _ hf.symm).congr (sameBits_norm l).symm) hsame

theorem map (h : AddressSpace s₀ s root f) (hidx : index 3 r.va = 0) (huser : UserAttr (protAttr r.prot))
    (hfree : ∀ x, r.va ≤ x → x < r.vaEnd → f x = none)
    (hrun : vmapPhysRangeNoflush root (r.phys + r.off) (r.va + r.off) (r.fin - (r.va + r.off)) r.prot s = some (s', err)) :
    err = 0 ∧ AddressSpace s₀ s' root fun x => if r.va ≤ x ∧ x < r.vaEnd then r.leaf x else f x := by
  obtain ⟨herr, hm⟩ := VmapRequest.vmapPhysRangeNoflush_spec hidx h.grows.ok h.tree h.tablesHeld
    (fun x h1 h2 => h.ready hfree h1 h2) (h.foldSafe huser) hrun
  refine ⟨herr, h.grows.trans hm.grows, hm.maps.tree, fun x hx => ?_, fun x hx => ?_, hm.tidy h.tidy,
    fun x hx => ?_, fun x l hl => ?_⟩
  · rcases hm.maps.foot _ hx with h1 | h1
    · exact hm.grows.taken_left (h.foot x h1)
    · exact h.grows.taken_right (h1 x rfl)
  · have h1 : ¬ s₀.Taken s x := fun h1 => hx (hm.grows.taken_left h1)
    rw [hm.maps.frame x (fun h2 => h1 (h.foot x h2)) fun h2 => hx (h.grows.taken_right h2), h.frame x h1]
  · have hreg : x / span (3 + 1) = r.va / span (3 + 1) := by
      have h1 := Nat.lt_of_lt_of_le r.lt r.vaEnd_le
      change x / 2 ^ 48 = r.va / 2 ^ 48
      omega
    rw [hm.maps.walk x hreg, h.walk x hx]
  · split at hl
    · obtain rfl := Option.some.inj hl
      exact huser.congr (sameBits_norm _)
    · exact h.user x l hl

theorem of_grows (h : AddressSpace s s' root f) (hgrows : s₀.Grows s)
    (hframe : ∀ x, ¬ s₀.Taken s x → s.mem x = s₀.mem x) : AddressSpace s₀ s' root f where
  grows := hgrows.trans h.grows
  tree := h.tree
  foot x hx := hgrows.taken_right (h.foot x hx)
  frame x hx :=
    (h.frame x fun h1 => hx (hgrows.taken_right h1)).trans (hframe x fun h1 => hx (h.grows.taken_left h1))
  tidy := h.tidy
  walk := h.walk
  user := h.user

end AddressSpace

end QuestOS
