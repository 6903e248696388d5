import QuestOS.Mmu.CreateTables
import QuestOS.Mmu.VmapCall

/-!
# What `create_mapping` maps

The loops over groups, entries and pages map their part of the range, each from the contract of the function for
one part.  Every page of the range gets the translation that was asked for, except below a block entry that was
refused, where nothing changes.
-/

namespace QuestOS

open Bytes PageTable
open VmapRequest (TablesHeld LowEntry)

namespace MapRequest

variable {r : MapRequest} {k t c a b e x y : Nat} {m m' : Mem} {s s₁ s' : VmState} {f : Nat → Option Leaf}

def partEnd (r : MapRequest) (k x : Nat) : Nat := min r.vaEnd (spanEnd (k + 1) x)

theorem lt_partEnd (h : a < r.vaEnd) : a < r.partEnd k a := Nat.lt_min.mpr ⟨h, lt_spanEnd (k + 1) a⟩

structure Begins (r : MapRequest) (k a : Nat) : Prop where
  ge : r.va ≤ a
  lt : a < r.vaEnd
  first : a = r.va ∨ a % span k = 0

theorem Begins.lower {j : Nat} (h : r.Begins k a) (hj : j ≤ k) : r.Begins j a :=
  ⟨h.ge, h.lt, h.first.imp_right (mod_span_of_le hj)⟩

theorem Begins.page_mod (h : r.Begins k a) : a % 4096 = 0 := by
  rcases h.first with rfl | h1
  · exact r.va_mod
  · exact mod_span_of_le (Nat.zero_le k) h1

/-! ### Loops -/

theorem mapLoop_created {addrEnd : Nat → Nat → Nat} {advance : Nat → Nat → Nat → Nat} {part : MapPart}
    {bound : Nat → Nat} (hreach : r.InReach) (he : e ≤ r.vaEnd)
    (hbound : ∀ a, a < bound a ∧ bound a % span k = 0)
    (hend : ∀ a < e, addrEnd a (e % 2 ^ 64) = min e (bound a) % 2 ^ 64)
    (hadv : ∀ a, bound a < e → e ≤ spanEnd (k + 1) a →
      advance (c + 8 * index k a) a (bound a) = c + 8 * index k (bound a))
    (hpart : ∀ a s s', r.Begins k a → a < e → e ≤ spanEnd (k + 1) a → r.Pending f k c a (min e (bound a)) s →
      part (c + 8 * index k a) a (min e (bound a) % 2 ^ 64) (r.pa + (a - r.va)) s = some s' →
      r.Created f k c a (min e (bound a)) s s')
    (fuel : Nat) (hst : r.Begins k a) (hlt : a < e) (hreg : e ≤ spanEnd (k + 1) a) (hp : r.Pending f k c a e s)
    (hrun : mapLoop addrEnd advance part (e % 2 ^ 64) fuel (c + 8 * index k a) a (r.pa + (a - r.va)) s = some s') :
    r.Created f k c a e s s' := by
  induction fuel generalizing a s with
  | zero => cases hrun
  | succ fuel ih =>
    have hb := hbound a
    have h64 := r.vaEnd_le
    rw [mapLoop, hend a hlt] at hrun
    split at hrun
    · cases hrun
    · rename_i s₁ hs₁
      have hc := hpart a s s₁ hst hlt hreg (hp.mono (Nat.min_le_left _ _)) hs₁
      by_cases hmore : bound a < e
      · have hmin : min e (bound a) = bound a := Nat.min_eq_right (Nat.le_of_lt hmore)
        rw [hmin] at hc hrun
        have hadd : add64 (r.pa + (a - r.va)) (sub64 (bound a) a) = r.pa + (bound a - r.va) := by
          have h1 := hst.ge
          have h2 : r.pa + (r.vaEnd - r.va) ≤ 2 ^ 48 := hreach
          unfold add64 sub64
          omega
        have hst' : r.Begins k (bound a) := ⟨Nat.le_trans hst.ge (Nat.le_of_lt hb.1), by omega, .inr hb.2⟩
        have hreg' : bound a / span (k + 1) = a / span (k + 1) := div_span_of_mem (by omega) (by omega)
        rw [Nat.mod_eq_of_lt (by omega), if_pos (by omega), hadd, hadv a hmore hreg] at hrun
        have hrest := ih hst' hmore (by rw [spanEnd_congr hreg']; exact hreg) (hp.next hc hb.2 hb.1 hreg) hrun
        exact hc.trans hrest hb.2 hb.1 hmore hreg
      · have hmin : min e (bound a) = e := Nat.min_eq_left (by omega)
        rw [hmin] at hc hrun
        rw [if_neg (not_not.mpr rfl)] at hrun
        cases hrun
        exact hc

theorem mapLoop_entries {part : MapPart} (hk : k ≤ 5) (hreach : r.InReach) (he : e ≤ r.vaEnd)
    (hpart : ∀ a s s', r.Begins k a → a < e → r.Pending f k c a (min e (spanEnd k a)) s →
      part (c + 8 * index k a) a (min e (spanEnd k a) % 2 ^ 64) (r.pa + (a - r.va)) s = some s' →
      r.Created f k c a (min e (spanEnd k a)) s s')
    (fuel : Nat) (hst : r.Begins k a) (hlt : a < e) (hreg : e ≤ spanEnd (k + 1) a) (hp : r.Pending f k c a e s)
    (hrun : mapLoop (addrEnd k) nextEntry part (e % 2 ^ 64) fuel (c + 8 * index k a) a (r.pa + (a - r.va)) s =
      some s') : r.Created f k c a e s s' := by
  have h64 := r.vaEnd_le
  have hbound : ∀ a, a < spanEnd k a ∧ spanEnd k a % span k = 0 := fun a => ⟨lt_spanEnd k a, spanEnd_mod k a⟩
  refine mapLoop_created hreach he hbound (fun a ha => ?_)
    (fun a h1 h2 => ?_) (fun a s s' h1 h2 _ h3 h4 => hpart a s s' h1 h2 h3 h4) fuel hst hlt hreg hp hrun
  · exact addrEndOf_eq (j := 12 + 9 * k) (by omega) (by omega) (by omega) (by omega)
  · rw [nextEntry, (index_spanEnd h1 h2).1]
    omega

theorem mapLoop_groups {part : MapPart} (hk : k ≤ 5) (hreach : r.InReach) (he : e ≤ r.vaEnd)
    (hpart : ∀ a s s', r.Begins k a → a < e → e ≤ spanEnd (k + 1) a →
      r.Pending f k c a (min e (pieceEnd (16 * span k) a)) s →
      part (c + 8 * index k a) a (min e (pieceEnd (16 * span k) a) % 2 ^ 64) (r.pa + (a - r.va)) s = some s' →
      r.Created f k c a (min e (pieceEnd (16 * span k) a)) s s')
    (fuel : Nat) (hst : r.Begins k a) (hlt : a < e) (hreg : e ≤ spanEnd (k + 1) a) (hp : r.Pending f k c a e s)
    (hrun : mapLoop (addrEndOf (16 * span k)) (contEntry k) part (e % 2 ^ 64) fuel (c + 8 * index k a) a
      (r.pa + (a - r.va)) s = some s') : r.Created f k c a e s s' := by
  have h64 := r.vaEnd_le
  have hpos := span_pos k
  have hsize : 16 * span k = 2 ^ (16 + 9 * k) := by
    rw [span, show 16 + 9 * k = 4 + (12 + 9 * k) by omega, Nat.pow_add 2 4]
  have hbound : ∀ a, a < pieceEnd (16 * span k) a ∧ pieceEnd (16 * span k) a % span k = 0 := by
    intro a
    have := Nat.dvd_of_mod_eq_zero (pieceEnd_mod (16 * span k) a)
    exact ⟨lt_pieceEnd (by omega) a, Nat.mod_eq_zero_of_dvd (Nat.dvd_trans (Nat.dvd_mul_left _ _) this)⟩
  refine mapLoop_created hreach he hbound (fun a ha => ?_) (fun a _ _ => ?_) hpart fuel hst hlt hreg hp hrun
  · rw [hsize]
    exact addrEndOf_eq (by omega) (by omega) (by omega) (by omega)
  · rw [contEntry]
    omega

/-! ### Pages -/

theorem leafOf_page (hreach : r.InReach) (h1 : r.va ≤ a) (h2 : a < r.vaEnd) (ha : a % 4096 = 0)
    (hx : x / span 0 = a / span 0) : r.leaf x = (leafOf 0 (pfnPte ((r.pa + (a - r.va)) / 4096) r.prot) x).map id := by
  have hr : r.pa + (r.vaEnd - r.va) ≤ 2 ^ 48 := hreach
  have h3 := r.pa_mod
  have h4 := r.va_mod
  have h5 := r.vaEnd_mod
  rw [leafOf_pfnPte r.page (by omega), Option.map_id, id, leaf]
  rw [span_zero] at hx
  rw [show r.pa + (x - r.va) = (r.pa + (a - r.va)) / 4096 * 4096 + x % 4096 by omega]

theorem initPte_maps {fresh : Nat → Prop} (hreach : r.InReach) (ht : t % 4096 = 0) (he : e ≤ r.vaEnd)
    (he' : e % 4096 = 0) (fuel : Nat) (h1 : r.va ≤ a) (ha : a % 4096 = 0) (hlt : a < e) (hreg : e ≤ spanEnd 1 a)
    (hrun : initPte r.prot (e % 2 ^ 64) fuel (t + 8 * index 0 a) a (r.pa + (a - r.va)) m = some m') :
    Maps id 0 t a e r.leaf fresh m m' := by
  induction fuel generalizing a m with
  | zero => cases hrun
  | succ fuel ih =>
    have h64 := r.vaEnd_le
    have hspan : spanEnd 0 a = a + 4096 := by rw [spanEnd, spanStart_of_mod ha, span_zero]
    have hpage : Maps id 0 t a (a + 4096) r.leaf fresh m
        (store64 m (t + 8 * index 0 a) (pfnPte ((r.pa + (a - r.va)) / 4096) r.prot)) :=
      Maps.page ht ha fun x hx => leafOf_page hreach h1 (by omega) ha hx
    rw [initPte] at hrun
    split at hrun
    · cases hrun
    · by_cases hmore : a + 4096 < e
      · obtain ⟨hidx, hdiv⟩ := index_spanEnd (k := 0) (by rw [hspan]; exact hmore) hreg
        rw [hspan] at hidx hdiv
        have hr : r.pa + (r.vaEnd - r.va) ≤ 2 ^ 48 := hreach
        have hadd : add64 a 4096 = a + 4096 := Nat.mod_eq_of_lt (by omega)
        have hphys : add64 (r.pa + (a - r.va)) 4096 = r.pa + (a + 4096 - r.va) := by
          unfold add64
          omega
        have hslot : t + 8 * index 0 a + 8 = t + 8 * index 0 (a + 4096) := by omega
        rw [hadd, if_pos (by omega), hphys, hslot] at hrun
        have hrest := ih (by omega) (by omega) hmore (by rw [spanEnd_congr hdiv]; exact hreg) hrun
        exact hpage.trans hrest (by omega) (by omega) hdiv
      · have hend : e = a + 4096 := by omega
        rw [if_neg (by unfold add64; omega)] at hrun
        cases hrun
        rw [hend]
        exact hpage

variable {flags : MapFlags}

theorem contProt_of_noCont (h : flags.noCont = true) (size addr next phys : Nat) (prot : Entry) :
    contProt flags size addr next phys prot = prot := by
  rw [contProt, h, Bool.not_true, Bool.and_false]
  rfl

theorem initContPteGroup_created (hflags : flags.noCont = true) (hreach : r.InReach)
    (he : e ≤ r.vaEnd) (he' : e % 4096 = 0) (hst : r.Begins 0 a) (hlt : a < e) (hreg : e ≤ spanEnd 1 a)
    (hp : r.Pending f 0 c a e s)
    (hrun : initContPteGroup flags r.prot (c + 8 * index 0 a) a (e % 2 ^ 64) (r.pa + (a - r.va)) s = some s') :
    r.Created f 0 c a e s s' := by
  rw [initContPteGroup, contProt_of_noCont hflags] at hrun
  obtain ⟨m', hm, rfl⟩ := Option.map_eq_some_iff.mp hrun
  have hmaps : Maps id 0 c a e r.leaf (s.Taken (s.setMem m')) s.mem m' :=
    initPte_maps hreach hp.tree he he' _ hst.ge hst.page_mod hlt hreg hm
  exact ⟨.setMem hp.ok m', hmaps.congr_leaf fun x h1 h2 => hp.result x h1 h2, fun _ => rfl, fun _ _ _ _ => trivial⟩

/-! ### Entries -/

def EntrySpec (r : MapRequest) (f : Nat → Option Leaf) (k : Nat) (part : MapPart) : Prop :=
  ∀ (t a : Nat) (s s' : VmState), r.Begins (k + 1) a → r.Pending f (k + 1) t a (r.partEnd k a) s →
    part (t + 8 * index (k + 1) a) a (r.partEnd k a % 2 ^ 64) (r.pa + (a - r.va)) s = some s' →
    r.Created f (k + 1) t a (r.partEnd k a) s s'

def TableSpec (r : MapRequest) (f : Nat → Option Leaf) (k : Nat) (part : MapPart) : Prop :=
  ∀ (t a : Nat) (s s' : VmState), r.Begins (k + 1) a → ¬ r.UsesBlock (k + 1) a →
    r.Pending f (k + 1) t a (r.partEnd k a) s →
    part (t + 8 * index (k + 1) a) a (r.partEnd k a % 2 ^ 64) (r.pa + (a - r.va)) s = some s' →
    r.Created f (k + 1) t a (r.partEnd k a) s s'

theorem partEnd_mod (r : MapRequest) (k x : Nat) : r.partEnd k x % 4096 = 0 := by
  rw [partEnd, Nat.min_def]
  split
  · exact r.vaEnd_mod
  · exact spanEnd_mod_page (k + 1) x

theorem initContPte_spec (hflags : flags.noCont = true) (hreach : r.InReach) :
    r.TableSpec f 0 (initContPte flags r.prot) := by
  intro t a s s' hst hno hp hrun
  have hlt := lt_partEnd (k := 0) hst.lt
  have hreg : r.partEnd 0 a ≤ spanEnd 1 a := Nat.min_le_right _ _
  rw [initContPte] at hrun
  split at hrun
  · cases hrun
  · split at hrun
    · cases hrun
    · split at hrun
      · cases hrun
      · rename_i s₁ c htable
        obtain ⟨hp₁, hlift⟩ := initTable_spec flags hp hno hlt hreg htable
        refine hlift s' (mapLoop_groups (k := 0) (by decide) hreach (Nat.min_le_left _ _) (fun a' s s' h1 h2 h3 h4 h5 => ?_)
          512 (hst.lower (Nat.zero_le 1)) hlt hreg hp₁ hrun)
        refine initContPteGroup_created hflags hreach
          (Nat.le_trans (Nat.min_le_left _ _) (Nat.min_le_left _ _)) ?_ h1 ?_ ?_ h4 h5
        · have h6 := r.partEnd_mod 0 a
          have h7 := pieceEnd_mod (16 * span 0) a'
          rw [span_zero] at *
          omega
        · exact Nat.lt_min.mpr ⟨h2, lt_pieceEnd (by decide) a'⟩
        · exact Nat.le_trans (Nat.min_le_left _ _) h3

theorem allAligned_iff (hk : k + 1 ≤ 2) (hst : r.Begins (k + 1) a) :
    allAligned (span (k + 1)) a (r.partEnd k a % 2 ^ 64) (r.pa + (a - r.va)) = true ↔ r.UsesBlock (k + 1) a := by
  have hpos := span_pos (k + 1)
  have hge := hst.ge
  have hlt := hst.lt
  have hmod : r.partEnd k a % 2 ^ 64 % span (k + 1) = r.partEnd k a % span (k + 1) :=
    Nat.mod_mod_of_dvd _ (Nat.dvd_of_mod_eq_zero (two_pow_mod_span (by omega)))
  simp only [allAligned, Bool.and_eq_true, decide_eq_true_eq, hmod]
  constructor
  · rintro ⟨⟨h1, h2⟩, h3⟩
    have hstart := spanStart_of_mod h1
    refine ⟨by omega, by rw [hstart]; exact hge, ?_, ?_⟩
    · have h4 := spanEnd_le_of_lt (k := k + 1) (x := a) h2 (by rw [hstart]; exact lt_partEnd hlt)
      exact Nat.le_trans h4 (Nat.min_le_left _ _)
    · exact mod_eq_of_add_eq (show r.pa + (a - r.va) + r.va = r.pa + a by omega) h3 h1
  · rintro ⟨-, h1, h2, h3⟩
    have ha : a % span (k + 1) = 0 := by
      rcases hst.first with rfl | h4
      · have h4 := spanStart_le (k + 1) r.va
        have h5 : spanStart (k + 1) r.va = r.va := by omega
        rw [← h5]
        exact spanStart_mod (k + 1) r.va
      · exact h4
    have hend : r.partEnd k a = spanEnd (k + 1) a := Nat.min_eq_right h2
    refine ⟨⟨ha, by rw [hend]; exact spanEnd_mod (k + 1) a⟩, ?_⟩
    have h4 : (a - r.va + r.va) % span (k + 1) = 0 := by rw [Nat.sub_add_cancel hge]; exact ha
    rw [Nat.add_comm, Nat.add_mod, ← h3, ← Nat.add_mod]
    exact h4

theorem leafOf_block (hreach : r.InReach) (hb : r.UsesBlock (k + 1) a) (hx : x / span (k + 1) = a / span (k + 1)) :
    isTable (r.block (k + 1) a) = false ∧ r.leaf x = (leafOf (k + 1) (r.block (k + 1) a) x).map id := by
  obtain ⟨hk, h1, h2, h3⟩ := hb
  have hr : r.pa + (r.vaEnd - r.va) ≤ 2 ^ 48 := hreach
  have hpos := span_pos (k + 1)
  have hend : spanEnd (k + 1) a = spanStart (k + 1) a + span (k + 1) := rfl
  have hstart := spanStart_mod (k + 1) a
  have hmod : (r.pa + (spanStart (k + 1) a - r.va)) % span (k + 1) = 0 := by
    rw [Nat.add_comm, Nat.add_mod, ← h3, ← Nat.add_mod, Nat.sub_add_cancel h1]
    exact hstart
  have h4096 : (r.pa + (spanStart (k + 1) a - r.va)) % 4096 = 0 := mod_span_of_le (Nat.zero_le _) hmod
  obtain ⟨htab, hval, hout, hattr⟩ := sectEntry r.page (n := (r.pa + (spanStart (k + 1) a - r.va)) / 4096) (by omega)
  refine ⟨htab, ?_⟩
  have hmul : (r.pa + (spanStart (k + 1) a - r.va)) / 4096 * 4096 = r.pa + (spanStart (k + 1) a - r.va) := by omega
  have hdiv : (r.pa + (spanStart (k + 1) a - r.va)) / span (k + 1) * span (k + 1) = r.pa + (spanStart (k + 1) a - r.va) :=
    spanStart_of_mod hmod
  have h5 := Nat.div_add_mod' x (span (k + 1))
  have h6 : x / span (k + 1) * span (k + 1) = spanStart (k + 1) a := by rw [hx]; rfl
  rw [Option.map_id, id, block, leafOf, if_neg (Nat.succ_ne_zero k), htab, hval, hout, hattr, hmul, hdiv,
    decide_eq_true (show k + 1 ≤ 2 by omega), leaf,
    show r.pa + (x - r.va) = r.pa + (spanStart (k + 1) a - r.va) + x % span (k + 1) by omega]
  rfl

theorem setHuge_created (hreach : r.InReach) (hst : r.Begins (k + 1) a) (hb : r.UsesBlock (k + 1) a)
    (hp : r.Pending f (k + 1) t a (r.partEnd k a) s) :
    r.Created f (k + 1) t a (r.partEnd k a) s
      (setHuge (t + 8 * index (k + 1) a) (r.pa + (a - r.va)) r.prot s).1 := by
  have hk : k + 1 ≤ 2 := by rcases hb.1 with h | h <;> omega
  have hal := (allAligned_iff hk hst).mpr hb
  simp only [allAligned, Bool.and_eq_true, decide_eq_true_eq] at hal
  have ha := hal.1.1
  have hstart := spanStart_of_mod ha
  have hend : r.partEnd k a = a + span (k + 1) := by
    rw [partEnd, Nat.min_eq_right hb.2.2.1, spanEnd, hstart]
  have hentry : pfnPte ((r.pa + (a - r.va)) / 4096) (mkSectProt r.prot) = r.block (k + 1) a := by rw [block, hstart]
  have hload : load64 s.mem (t + 8 * index (k + 1) a) = slot s.mem t (index (k + 1) a) := rfl
  have hin : ∀ x, x / span (k + 1) = a / span (k + 1) → a ≤ x ∧ x < r.partEnd k a := fun x hx => by
    rw [hend]
    exact (mem_span_iff ha).mpr hx
  have hout : ∀ x, a ≤ x → x < r.partEnd k a → x / span (k + 1) = a / span (k + 1) := fun x h1 h2 => by
    rw [hend] at h2
    exact (mem_span_iff ha).mp ⟨h1, h2⟩
  have hrefuse : ∀ x, x / span (k + 1) = a / span (k + 1) → r.refuses s.mem (k + 1) t x =
      !pgattrChangeIsSafe (slot s.mem t (index (k + 1) a)) (r.block (k + 1) a) := by
    intro x hx
    rw [refuses, if_pos ((usesBlock_congr hx).mpr hb), index_of_div_span hx, block, block, spanStart_eq_iff.mpr hx]
  rw [setHuge, hentry, hload]
  cases hsafe : pgattrChangeIsSafe (slot s.mem t (index (k + 1) a)) (r.block (k + 1) a) with
  | false =>
    refine ⟨.refl hp.ok, Maps.keep hp.tree fun x h1 h2 => ?_, fun _ => rfl, fun _ _ _ h => h⟩
    rw [hp.result x h1 h2, result, hrefuse x (hout x h1 h2), hsafe, Option.map_id, id]
    rfl
  | true =>
    have hmaps : Maps id (k + 1) t a (r.partEnd k a) f (s.Taken (s.setMem (store64 s.mem (t + 8 * index (k + 1) a)
        (r.block (k + 1) a)))) s.mem (store64 s.mem (t + 8 * index (k + 1) a) (r.block (k + 1) a)) := by
      rw [hend]
      refine Maps.block hp.tree ha (leafOf_block hreach hb rfl).1 (fun x hx => ?_) fun x hx hf => hp.held x hf hx.1
      rw [hp.result x (hin x hx).1 (hin x hx).2, result, hrefuse x hx, hsafe]
      exact (leafOf_block hreach hb hx).2
    refine ⟨.setMem hp.ok _, hmaps, fun _ => rfl, fun x hreg hno htab => ?_⟩
    refine tabled_other hmaps (Nat.min_le_right _ _) hreg (fun hx => ?_) htab
    exact hno (k + 1) ((usesBlock_congr hx).mpr hb)

theorem initPmdEntry_spec (hflags : flags.noCont = true) (hblock : flags.noBlock = false)
    (hreach : r.InReach) : r.EntrySpec f 0 (initPmdEntry flags r.prot) := by
  intro t a s s' hst hp hrun
  have hiff := allAligned_iff (k := 0) (by decide) hst
  rw [initPmdEntry, hblock] at hrun
  dsimp only at hrun
  by_cases hb : r.UsesBlock 1 a
  · rw [if_pos (by rw [hiff.mpr hb]; rfl)] at hrun
    split at hrun
    · cases hrun
    · cases hrun
      exact setHuge_created hreach hst hb hp
  · rw [if_neg (by rw [Bool.eq_false_iff.mpr (mt hiff.mp hb)]; decide)] at hrun
    split at hrun
    · cases hrun
    · rename_i hs₁
      split at hrun
      · cases hrun
      · cases hrun
        exact initContPte_spec hflags hreach t a s s' hst hb hp hs₁

/-- The end of an entry in a loop whose end is that of an entry, or of the range. -/
theorem min_partEnd (hb : b % span (k + 1) = 0) (hlt : a < min r.vaEnd b) :
    min (min r.vaEnd b) (spanEnd (k + 1) a) = r.partEnd k a := by
  have h1 := spanEnd_le_of_lt (k := k + 1) (x := a) hb (by have := spanStart_le (k + 1) a; omega)
  rw [partEnd]
  omega

theorem initContPmd_spec (hflags : flags.noCont = true) (hblock : flags.noBlock = false)
    (hreach : r.InReach) : r.TableSpec f 1 (initContPmd flags r.prot) := by
  intro t a s s' hst hno hp hrun
  have hlt := lt_partEnd (k := 1) hst.lt
  have hreg : r.partEnd 1 a ≤ spanEnd 2 a := Nat.min_le_right _ _
  rw [initContPmd] at hrun
  split at hrun
  · cases hrun
  · rename_i s₁ c htable
    obtain ⟨hp₁, hlift⟩ := initTable_spec flags hp hno hlt hreg htable
    refine hlift s' (mapLoop_groups (k := 1) (by decide) hreach (Nat.min_le_left _ _) (fun a' s s' h1 h2 h3 h4 h5 => ?_)
      512 (hst.lower (by decide)) hlt hreg hp₁ hrun)
    rw [initContPmdGroup, contProt_of_noCont hflags, initPmd] at h5
    -- a group ends with an entry
    obtain ⟨b, hb, hmin⟩ : ∃ b, b % span 1 = 0 ∧ min (r.partEnd 1 a) (pieceEnd (16 * span 1) a') = min r.vaEnd b := by
      have h6 := Nat.dvd_of_mod_eq_zero (pieceEnd_mod (16 * span 1) a')
      have h7 : pieceEnd (16 * span 1) a' % span 1 = 0 :=
        Nat.mod_eq_zero_of_dvd (Nat.dvd_trans (Nat.dvd_mul_left _ _) h6)
      have h8 : spanEnd 2 a % span 1 = 0 := mod_span_of_le (by decide) (spanEnd_mod 2 a)
      refine ⟨min (spanEnd 2 a) (pieceEnd (16 * span 1) a'), ?_, Nat.min_assoc _ _ _⟩
      rw [Nat.min_def]
      split
      · exact h8
      · exact h7
    have hlt' : a' < min (r.partEnd 1 a) (pieceEnd (16 * span 1) a') :=
      Nat.lt_min.mpr ⟨h2, lt_pieceEnd (by decide) a'⟩
    rw [hmin] at h4 h5 hlt' ⊢
    refine mapLoop_entries (by decide) hreach (Nat.min_le_left _ _) (fun a'' s s' h1' h2' h3' h4' => ?_) 512 h1 hlt'
      (by rw [← hmin]; omega) h4 h5
    rw [min_partEnd hb h2'] at h3' h4' ⊢
    exact initPmdEntry_spec hflags hblock hreach c a'' s s' h1' h3' h4'

theorem initPudEntry_spec (hflags : flags.noCont = true) (hblock : flags.noBlock = false)
    (hreach : r.InReach) : r.EntrySpec f 1 (initPudEntry flags r.prot) := by
  intro t a s s' hst hp hrun
  have hiff := allAligned_iff (k := 1) (by decide) hst
  rw [initPudEntry, hblock] at hrun
  by_cases hb : r.UsesBlock 2 a
  · rw [if_pos (by rw [hiff.mpr hb]; rfl)] at hrun
    cases hrun
    exact setHuge_created hreach hst hb hp
  · rw [if_neg (by rw [Bool.eq_false_iff.mpr (mt hiff.mp hb)]; decide)] at hrun
    exact initContPmd_spec hflags hblock hreach t a s s' hst hb hp hrun

theorem initPud_spec (hflags : flags.noCont = true) (hblock : flags.noBlock = false)
    (hreach : r.InReach) : r.EntrySpec f 2 (initPud flags r.prot) := by
  intro t a s s' hst hp hrun
  have hlt := lt_partEnd (k := 2) hst.lt
  have hreg : r.partEnd 2 a ≤ spanEnd 3 a := Nat.min_le_right _ _
  have hno : ¬ r.UsesBlock 3 a := fun h => absurd h.1 (by decide)
  rw [initPud] at hrun
  split at hrun
  · cases hrun
  · rename_i s₁ c htable
    obtain ⟨hp₁, hlift⟩ := initTable_spec flags hp hno hlt hreg htable
    refine hlift s' (mapLoop_entries (by decide) hreach (Nat.min_le_left _ _) (fun a' s s' h1 h2 h3 h4 => ?_) 512
      (hst.lower (by decide)) hlt hreg hp₁ hrun)
    have hb : spanEnd 3 a % span 2 = 0 := mod_span_of_le (by decide) (spanEnd_mod 3 a)
    rw [partEnd, min_partEnd hb h2] at h3 h4 ⊢
    exact initPudEntry_spec hflags hblock hreach c a' s s' h1 h3 h4

theorem createPgdMapping_created {root : Nat} (alloc : Bool) (hreach : r.InReach)
    (hp : r.Pending f 3 root r.va r.vaEnd s)
    (hrun : createPgdMapping root r.phys r.virt r.size r.prot noContMappings alloc s = some s') :
    r.Created f 3 root r.va r.vaEnd s s' := by
  have h64 := r.vaEnd_le
  have hge := r.pageOffset_le
  have hfits := r.fits
  have hwin : r.vaEnd ≤ spanEnd 4 r.va := by
    have : spanEnd 4 r.va = r.va / 2 ^ 48 * 2 ^ 48 + 2 ^ 48 := rfl
    unfold pageOffset at hge
    omega
  have hidx : index 3 r.virt = index 3 r.va := by
    have h1 : r.virt / span 0 = r.va / span 0 := by
      rw [va, span_zero]
      omega
    exact index_of_div_span (div_span_of_le (Nat.zero_le 3) h1)
  have hend : alignUp (add64 r.virt r.size) 4096 = r.vaEnd % 2 ^ 64 := by
    rw [show (4096 : Nat) = 2 ^ 12 from rfl, alignUp_eq, vaEnd]
    unfold add64
    omega
  rw [createPgdMapping, if_neg (not_not.mpr r.offset)] at hrun
  dsimp only at hrun
  rw [hend, hidx] at hrun
  have hpa : alignDown r.phys 4096 = r.pa + (r.va - r.va) := by
    rw [Nat.sub_self, Nat.add_zero]
    rfl
  rw [hpa] at hrun
  refine mapLoop_entries (by decide) hreach (Nat.le_refl _) (fun a s s' h1 h2 h3 h4 => ?_) 512
    ⟨Nat.le_refl _, r.lt, .inl rfl⟩ r.lt hwin hp hrun
  exact initPud_spec rfl rfl hreach root a s s' h1 h3 h4

/-! ### The request as a whole -/

/-- Every page of the range translates to its physical page with the attributes of the protection, and every other
kernel address as before. -/
structure Mapped (r : MapRequest) (root : Nat) (s s' : VmState) : Prop where
  pages : ∀ x, r.va ≤ x → x < r.vaEnd → walk s'.mem 3 root x = some ⟨r.pa + (x - r.va), protAttr r.prot⟩
  others : ∀ x, pageOffset ≤ x → x < 2 ^ 64 → ¬ (r.va ≤ x ∧ x < r.vaEnd) →
    walk s'.mem 3 root x = walk s.mem 3 root x

theorem createMapping_pgd {root : Nat}
    (h : createMappingNoalloc root r.phys r.virt r.size r.prot s = some s' ∨
      createMappingAlloc root r.phys r.virt r.size r.prot s = some s') :
    ∃ alloc, createPgdMapping root r.phys r.virt r.size r.prot noContMappings alloc s = some s' := by
  have hge : ¬ r.virt < pageOffset := Nat.not_lt.mpr r.ge
  rcases h with h | h
  · rw [createMappingNoalloc, if_neg hge] at h
    exact ⟨false, h⟩
  · rw [createMappingAlloc, if_neg hge] at h
    exact ⟨true, h⟩

theorem createMapping_walk {root : Nat} (hreach : r.InReach)
    (hp : r.Pending (r.result s.mem 3 root) 3 root r.va r.vaEnd s)
    (hrun : createMappingNoalloc root r.phys r.virt r.size r.prot s = some s' ∨
      createMappingAlloc root r.phys r.virt r.size r.prot s = some s')
    (h1 : pageOffset ≤ x) (h2 : x < 2 ^ 64) :
    walk s'.mem 3 root x = if r.va ≤ x ∧ x < r.vaEnd then r.result s.mem 3 root x else walk s.mem 3 root x := by
  obtain ⟨alloc, hrun⟩ := createMapping_pgd hrun
  have hc := createPgdMapping_created alloc hreach hp hrun
  have hge := r.pageOffset_le
  have hlt := r.lt
  have h64 := r.vaEnd_le
  have hreg : x / span 4 = r.va / span 4 := by
    rw [show span 4 = 2 ^ 48 from rfl]
    unfold pageOffset at *
    omega
  have h3 := hc.maps.walk x hreg
  rwa [Option.map_id, id, id] at h3

/-- A call that returns maps the range if and only if the physical range has addresses of 48 bits and the pages of
every block entry that may not be changed were mapped as requested before. -/
theorem createMapping_iff (r : MapRequest) (root : Nat) (s s' : VmState) (hok : s.Ok) (htree : Tree s.mem 3 root)
    (hheld : TablesHeld s 3 root) (hopen : ∀ x, r.va ≤ x → x < r.vaEnd → r.Open s.mem 3 root x)
    (hrun : createMappingNoalloc root r.phys r.virt r.size r.prot s = some s' ∨
      createMappingAlloc root r.phys r.virt r.size r.prot s = some s') :
    r.Mapped root s s' ↔ r.pa + (r.vaEnd - r.va) ≤ 2 ^ 48 ∧ ∀ x, r.va ≤ x → x < r.vaEnd →
      r.refuses s.mem 3 root x = true → walk s.mem 3 root x = some ⟨r.pa + (x - r.va), protAttr r.prot⟩ := by
  have hp : r.Pending (r.result s.mem 3 root) 3 root r.va r.vaEnd s :=
    ⟨hok, htree, hheld, hopen, fun _ _ _ => rfl⟩
  have hge := r.pageOffset_le
  have h64 := r.vaEnd_le
  constructor
  · intro hm
    have hreach : r.InReach := by
      have h1 := hm.pages (r.vaEnd - 4096) (by have := r.lt; have := r.va_mod; have := r.vaEnd_mod; omega)
        (by have := r.lt; omega)
      have h2 := walk_pa_lt h1
      have h3 := r.lt
      have h4 := r.va_mod
      have h5 := r.vaEnd_mod
      have h6 := r.pa_mod
      change r.pa + (r.vaEnd - 4096 - r.va) < 2 ^ 48 at h2
      unfold InReach
      omega
    refine ⟨hreach, fun x h1 h2 href => ?_⟩
    have h3 := createMapping_walk hreach hp hrun (Nat.le_trans hge h1) (Nat.lt_of_lt_of_le h2 h64)
    rw [if_pos ⟨h1, h2⟩, result, if_pos href, hm.pages x h1 h2] at h3
    exact h3.symm
  · rintro ⟨hreach, hrefused⟩
    have hwalk := fun x => createMapping_walk (x := x) hreach hp hrun
    refine ⟨fun x h1 h2 => ?_, fun x h1 h2 h3 => ?_⟩
    · rw [hwalk x (by omega) (by omega), if_pos ⟨h1, h2⟩, result]
      split
      · rename_i href
        exact hrefused x h1 h2 href
      · rfl
    · rw [hwalk x h1 h2, if_neg h3]

def firstBlock : MapRequest where
  phys := 0x80000000
  virt := 0xffff800000000000
  size := 0x200000
  prot := pageKernel
  phys_lt := by decide
  ge := by decide
  offset := by decide
  pos := by decide
  fits := by decide
  page := pageProt_kernel

theorem createMapping_firstBlock : ∃ s', createMappingAlloc 0x40000000 firstBlock.phys firstBlock.virt firstBlock.size
    firstBlock.prot emptyKernel = some s' ∧ firstBlock.Mapped 0x40000000 emptyKernel s' := by
  have hzero : ∀ x, slot emptyKernel.mem 0x40000000 (index 3 x) = 0 := fun x => load64_zero fun _ _ _ => rfl
  have hrun : (createMappingAlloc 0x40000000 firstBlock.phys firstBlock.virt firstBlock.size firstBlock.prot
      emptyKernel).isSome = true := by decide +kernel
  obtain ⟨s', hs'⟩ := Option.isSome_iff_exists.mp hrun
  refine ⟨s', hs', (createMapping_iff firstBlock 0x40000000 emptyKernel s' emptyKernel_ok emptyKernel_tree
    emptyKernel_held (fun x _ _ => .inr (.inl (hzero x))) (.inr hs')).mpr ⟨by decide, fun x _ _ href => ?_⟩⟩
  rw [refuses, if_neg (fun h => absurd h.1 (by decide)), hzero x] at href
  cases href

def secondBlock : MapRequest := { firstBlock with phys := 0x80200000, phys_lt := by decide, offset := by decide }

/-- The entry of the first block is not changed, and the call returns. -/
theorem secondBlock_not_mapped : ∃ s s', s.Ok ∧ Tree s.mem 3 0x40000000 ∧ TablesHeld s 3 0x40000000 ∧
    createMappingNoalloc 0x40000000 secondBlock.phys secondBlock.virt secondBlock.size secondBlock.prot s = some s' ∧
    createMappingAlloc 0x40000000 secondBlock.phys secondBlock.virt secondBlock.size secondBlock.prot s = some s' ∧
    ¬ secondBlock.Mapped 0x40000000 s s' := by
  have hrun : ((createMappingAlloc 0x40000000 firstBlock.phys firstBlock.virt firstBlock.size firstBlock.prot
      emptyKernel).bind fun s => (createMappingNoalloc 0x40000000 secondBlock.phys secondBlock.virt secondBlock.size
        secondBlock.prot s).map fun s' => (walk s'.mem 3 0x40000000 secondBlock.virt).map Leaf.pa) =
      some (some 0x80000000) := by decide +kernel
  obtain ⟨s, hs, hrest⟩ := Option.bind_eq_some_iff.mp hrun
  obtain ⟨s', hs', hwalk⟩ := Option.map_eq_some_iff.mp hrest
  have hzero : ∀ x, slot emptyKernel.mem 0x40000000 (index 3 x) = 0 := fun x => load64_zero fun _ _ _ => rfl
  have hp : firstBlock.Pending (firstBlock.result emptyKernel.mem 3 0x40000000) 3 0x40000000 firstBlock.va
      firstBlock.vaEnd emptyKernel :=
    ⟨emptyKernel_ok, emptyKernel_tree, emptyKernel_held, fun x _ _ => .inr (.inl (hzero x)), fun _ _ _ => rfl⟩
  obtain ⟨alloc, hpgd⟩ := createMapping_pgd (r := firstBlock) (.inr hs)
  have hc := createPgdMapping_created alloc (by unfold InReach; decide) hp hpgd
  refine ⟨s, s', hc.grows.ok, hc.maps.tree, hc.held emptyKernel_held, hs', hs', fun hm => ?_⟩
  rw [hm.pages secondBlock.virt (by decide) (by decide)] at hwalk
  exact absurd hwalk (by decide)

end MapRequest

end QuestOS
