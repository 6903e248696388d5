import QuestOS.Vmalloc.FreeTree

/-!
# The search for the lowest free area

`find_vmap_lowest_match` descends by `subtree_max_size`, climbs back through the parents when it was misled, and enters
right subtrees with a larger `vstart`.  `Outcome` says what the search does with one subtree: it ends at the first area of
the subtree in which the request fits, or it leaves the subtree upwards, where none fits, with a `vstart` that is at most
one above the start of some area of the subtree.  The latter bound is what the next parent's test depends on, and it makes
every second visit of a right subtree the last one.  `search_outcome` proves it by induction on the subtree.
-/

namespace QuestOS

theorem alignUp_isLeast {x k : Nat} (hx : x + 2 ^ k ≤ 2 ^ 64) :
    2 ^ k ∣ alignUp x (2 ^ k) ∧ x ≤ alignUp x (2 ^ k) ∧ ∀ a, 2 ^ k ∣ a → x ≤ a → alignUp x (2 ^ k) ≤ a := by
  have hpos : 0 < 2 ^ k := Nat.two_pow_pos k
  rw [alignUp_eq, Nat.mod_eq_of_lt (by omega)]
  refine ⟨Nat.dvd_mul_left _ _, ?_, ?_⟩
  · have hdiv := Nat.div_add_mod (x + 2 ^ k - 1) (2 ^ k)
    have hmod := Nat.mod_lt (x + 2 ^ k - 1) hpos
    rw [Nat.mul_comm]
    omega
  · rintro _ ⟨b, rfl⟩ hb
    rw [Nat.mul_comm (2 ^ k)]
    apply Nat.mul_le_mul_right
    apply Nat.le_of_lt_succ
    rw [Nat.div_lt_iff_lt_mul hpos, Nat.succ_mul, Nat.mul_comm b]
    omega

theorem alignUp_lt (x k : Nat) : alignUp x (2 ^ k) < 2 ^ 64 := by
  rw [alignUp_eq]
  exact lt_of_le_of_lt (Nat.div_mul_le_self _ _) (Nat.mod_lt _ (by decide))

theorem alignUp_wrap {x k : Nat} (hx : x < 2 ^ 64) (hwrap : 2 ^ 64 < x + 2 ^ k) (hk : k ≤ 12) : alignUp x (2 ^ k) = 0 := by
  have hpow : 2 ^ k ≤ 2 ^ 12 := Nat.pow_le_pow_right (by decide) hk
  have hmod : (x + 2 ^ k - 1) % 2 ^ 64 = x + 2 ^ k - 1 - 2 ^ 64 := by omega
  rw [alignUp_eq, hmod, Nat.div_eq_of_lt (by omega), Nat.zero_mul]

namespace Vmalloc

open RbTree

structure VmapArea.Valid (va : VmapArea) : Prop where
  lt : va.vaStart < va.vaEnd
  end_lt : va.vaEnd < 2 ^ 64
  start_le : va.vaStart + 4096 ≤ 2 ^ 64

structure Request where
  size : Nat
  align : Nat
  size_pos : 0 < size
  size_lt : size < 2 ^ 64
  size_mod : size % 4096 = 0
  align_pow : ∃ k ≤ 12, align = 2 ^ k

namespace Request

variable (R : Request) {va x : VmapArea} {v v' a : Nat}

theorem page_le : 4096 ≤ R.size := by
  have := R.size_pos
  have := R.size_mod
  omega

def FitsAt (va : VmapArea) (v a : Nat) : Prop := R.align ∣ a ∧ v ≤ a ∧ va.vaStart ≤ a ∧ a + R.size ≤ va.vaEnd

def FitsIn (va : VmapArea) (v : Nat) : Prop := ∃ a, R.FitsAt va v a

variable {R}

theorem FitsIn.mono (h : R.FitsIn va v') (hv : v ≤ v') : R.FitsIn va v := by
  obtain ⟨a, hdvd, hle, hrest⟩ := h
  exact ⟨a, hdvd, hv.trans hle, hrest⟩

theorem FitsIn.of_le_start (h : R.FitsIn va v) (hv : v' ≤ va.vaStart) : R.FitsIn va v' := by
  obtain ⟨a, hdvd, -, hstart, hend⟩ := h
  exact ⟨a, hdvd, hv.trans hstart, hstart, hend⟩

theorem FitsIn.lt_end (h : R.FitsIn va v) : v < va.vaEnd := by
  obtain ⟨a, -, hle, -, hend⟩ := h
  have := R.size_pos
  omega

theorem FitsIn.size_le (h : R.FitsIn va v) (hva : va.Valid) : R.size ≤ vaSize va := by
  obtain ⟨a, -, -, hstart, hend⟩ := h
  have := hva.end_lt
  rw [vaSize, sub64]
  omega

theorem nvaStartAddr_eq (va : VmapArea) (align v : Nat) : nvaStartAddr va align v = alignUp (max va.vaStart v) align := by
  unfold nvaStartAddr
  split_ifs with h
  · rw [Nat.max_eq_left (by omega)]
  · rw [Nat.max_eq_right (by omega)]

/-- Where the request fits, the lowest address for it is the one the code computes. -/
theorem FitsIn.isLeast (h : R.FitsIn va v) (hva : va.Valid) :
    R.FitsAt va v (nvaStartAddr va R.align v) ∧ ∀ a, R.FitsAt va v a → nvaStartAddr va R.align v ≤ a := by
  obtain ⟨k, hk, hpow⟩ := R.align_pow
  have hle : 2 ^ k ≤ 2 ^ 12 := Nat.pow_le_pow_right (by decide) hk
  obtain ⟨a, hdvd, hv, hstart, hend⟩ := h
  have hlt := hva.end_lt
  have hpage := R.page_le
  obtain ⟨hd, hge, hmin⟩ := alignUp_isLeast (x := max va.vaStart v) (k := k) (by omega)
  rw [← hpow, ← nvaStartAddr_eq] at hd hge hmin
  have ha := hmin a hdvd (by omega)
  exact ⟨⟨hd, by omega, by omega, by omega⟩, fun b hb => hmin b hb.1 (Nat.max_le.2 ⟨hb.2.2.1, hb.2.1⟩)⟩

theorem isWithinThisVa_eq_true {size align : Nat} : isWithinThisVa va size align v = true ↔
    ¬ (add64 (nvaStartAddr va align v) size < nvaStartAddr va align v ∨ nvaStartAddr va align v < v) ∧
      add64 (nvaStartAddr va align v) size ≤ va.vaEnd := by
  unfold isWithinThisVa
  dsimp only
  split_ifs with hbad <;> simp [hbad]

theorem isWithinThisVa_iff (hva : va.Valid) (hv : v < 2 ^ 64) :
    isWithinThisVa va R.size R.align v = true ↔ R.FitsIn va v := by
  obtain ⟨k, hk, hpow⟩ := R.align_pow
  have hle : 2 ^ k ≤ 2 ^ 12 := Nat.pow_le_pow_right (by decide) hk
  have hlt := hva.end_lt
  have hstart := hva.start_le
  have hsize := R.size_lt
  have hpage := R.page_le
  rw [isWithinThisVa_eq_true, add64]
  constructor
  · rintro ⟨hbad, h⟩
    rw [nvaStartAddr_eq, hpow] at h hbad
    by_cases hwrap : max va.vaStart v + 2 ^ k ≤ 2 ^ 64
    · obtain ⟨hd, hge, -⟩ := alignUp_isLeast hwrap
      refine ⟨alignUp (max va.vaStart v) (2 ^ k), ?_, by omega, by omega, by omega⟩
      rw [hpow]
      exact hd
    · rw [alignUp_wrap (by omega) (by omega) hk] at hbad
      omega
  · intro h
    obtain ⟨⟨-, hv', hs, hend⟩, -⟩ := h.isLeast hva
    rw [Nat.mod_eq_of_lt (by omega)]
    omega

theorem isWithinThisVa_eq_false (hva : va.Valid) (hv : v < 2 ^ 64) (h : ¬ R.FitsIn va v) :
    isWithinThisVa va R.size R.align v = false := by
  rw [← Bool.not_eq_true, isWithinThisVa_iff hva hv]
  exact h

end Request

/-! ### One subtree -/

structure Sound (t : FreeTree) : Prop where
  valid : ∀ va ∈ t.toList, va.Valid
  ordered : t.toList.Pairwise fun x y => x.vaEnd ≤ y.vaStart
  maxima : Augmented computeMax t

section

variable {c : Color} {l r t : FreeTree} {va x : VmapArea} {m v v' : Nat} {p : FreePath}

theorem Sound.left (h : Sound (.node c l va m r)) : Sound l :=
  ⟨fun x hx => h.valid x (by simp [hx]), (List.pairwise_append.1 h.ordered).1, h.maxima.2.1⟩

theorem Sound.right (h : Sound (.node c l va m r)) : Sound r :=
  ⟨fun x hx => h.valid x (by simp [hx]), (List.pairwise_cons.1 (List.pairwise_append.1 h.ordered).2.1).2, h.maxima.2.2⟩

theorem Sound.root (h : Sound (.node c l va m r)) : va.Valid := h.valid va (by simp)

theorem Sound.left_le (h : Sound (.node c l va m r)) (hx : x ∈ l.toList) : x.vaEnd ≤ va.vaStart :=
  (List.pairwise_append.1 h.ordered).2.2 x hx va (List.mem_cons_self ..)

theorem Sound.le_right (h : Sound (.node c l va m r)) (hx : x ∈ r.toList) : va.vaEnd ≤ x.vaStart :=
  (List.pairwise_cons.1 (List.pairwise_append.1 h.ordered).2.1).1 x hx

theorem vaSize_le_of_augmented (h : Augmented computeMax t) (hx : x ∈ t.toList) : vaSize x ≤ getSubtreeMaxSize t := by
  induction t with
  | nil => cases hx
  | node c l va m r ihl ihr =>
    have hm : m = max (max (vaSize va) (getSubtreeMaxSize l)) (getSubtreeMaxSize r) := h.1
    have hroot : getSubtreeMaxSize (.node c l va m r) = m := rfl
    rw [hroot, hm]
    rw [toList_node, List.mem_append, List.mem_cons] at hx
    rcases hx with hx | rfl | hx
    · have := ihl h.2.1 hx
      omega
    · omega
    · have := ihr h.2.2 hx
      omega

theorem Sound.vaSize_le (h : Sound t) (hx : x ∈ t.toList) : vaSize x ≤ getSubtreeMaxSize t :=
  vaSize_le_of_augmented h.maxima hx

theorem ne_nil_of_max (h : getSubtreeMaxSize t ≥ v) (hv : 0 < v) : t ≠ .nil := by
  rintro rfl
  have : getSubtreeMaxSize .nil = 0 := rfl
  omega

end

namespace Request

variable (R : Request) {c : Color} {l r t : FreeTree} {va x : VmapArea} {m v v' : Nat} {p : FreePath} {s s' : Search}

def step : Search → Search := Search.step R.size R.align R.size

def Reaches (s s' : Search) : Prop := ∃ n, R.step^[n] s = s'

def Outcome (t : FreeTree) (p : FreePath) (v : Nat) (s : Search) : Prop :=
  ((∀ va ∈ t.toList, ¬ R.FitsIn va v) ∧
    ∃ v', R.Reaches s (.up t p v') ∧ v ≤ v' ∧ (v' = v ∨ ∃ x ∈ t.toList, v' = x.vaStart + 1)) ∨
  ∃ s' : FreePlace, R.Reaches s (.done (some s')) ∧ s'.tree = plug t p ∧ s'.val ∈ t.toList ∧ R.FitsIn s'.val v ∧
    ∃ pre, before s'.path ++ s'.left.toList = before p ++ pre ∧ ∀ x ∈ pre, x ∈ t.toList ∧ ¬ R.FitsIn x v

variable {R}

theorem Reaches.refl (s : Search) : R.Reaches s s := ⟨0, rfl⟩

theorem Reaches.trans {s'' : Search} (h : R.Reaches s s') (h' : R.Reaches s' s'') : R.Reaches s s'' := by
  obtain ⟨n, rfl⟩ := h
  obtain ⟨n', rfl⟩ := h'
  exact ⟨n' + n, Function.iterate_add_apply _ _ _ _⟩

theorem Reaches.single (h : R.step s = s') : R.Reaches s s' := ⟨1, h⟩

theorem Outcome.of_reaches (h : R.Reaches s s') (ho : R.Outcome t p v s') : R.Outcome t p v s := by
  obtain ⟨hnone, v', hup, hv⟩ | ⟨s'', hdone, hrest⟩ := ho
  · exact .inl ⟨hnone, v', h.trans hup, hv⟩
  · exact .inr ⟨s'', h.trans hdone, hrest⟩

theorem not_fitsIn_of_max (hs : Sound t) (h : ¬ getSubtreeMaxSize t ≥ R.size) : ∀ x ∈ t.toList, ¬ R.FitsIn x v := by
  intro x hx hfit
  have := hfit.size_le (hs.valid x hx)
  have := hs.vaSize_le hx
  omega

theorem step_up {d : Dir} {o : FreeTree} (hva : va.Valid) (hv : v < 2 ^ 64) (hfit : ¬ R.FitsIn va v) :
    R.step (.up t (⟨d, c, va, m, o⟩ :: p) v) =
      if getSubtreeMaxSize (d.far t o) ≥ R.size ∧ v ≤ va.vaStart then
        .down (d.far t o) (⟨.right, c, va, m, d.near t o⟩ :: p) (va.vaStart + 1)
      else .up (.node c (d.near t o) va m (d.far t o)) p v := by
  have hadd : add64 va.vaStart 1 = va.vaStart + 1 := by
    have := hva.start_le
    rw [add64, Nat.mod_eq_of_lt (by omega)]
  simp [step, Search.step, isWithinThisVa_eq_false hva hv hfit, hadd]

theorem step_up_right (hva : va.Valid) (hv : v < 2 ^ 64) (hfit : ¬ R.FitsIn va v) :
    R.step (.up r (⟨.right, c, va, m, l⟩ :: p) v) =
      if getSubtreeMaxSize r ≥ R.size ∧ v ≤ va.vaStart then .down r (⟨.right, c, va, m, l⟩ :: p) (va.vaStart + 1)
      else .up (.node c l va m r) p v :=
  step_up hva hv hfit

theorem step_up_left (hva : va.Valid) (hv : v < 2 ^ 64) (hfit : ¬ R.FitsIn va v) :
    R.step (.up l (⟨.left, c, va, m, r⟩ :: p) v) =
      if getSubtreeMaxSize r ≥ R.size ∧ v ≤ va.vaStart then .down r (⟨.right, c, va, m, l⟩ :: p) (va.vaStart + 1)
      else .up (.node c l va m r) p v :=
  step_up hva hv hfit

theorem step_up_fits {d : Dir} {o : FreeTree} (hva : va.Valid) (hv : v < 2 ^ 64) (hfit : R.FitsIn va v) :
    R.step (.up t (⟨d, c, va, m, o⟩ :: p) v) = .done (some ⟨c, d.near t o, va, m, d.far t o, p⟩) := by
  simp [step, Search.step, (isWithinThisVa_iff hva hv).2 hfit]

theorem step_down_left (h : getSubtreeMaxSize l ≥ R.size ∧ v < va.vaStart) :
    R.step (.down (.node c l va m r) p v) = .down l (⟨.left, c, va, m, r⟩ :: p) v := by
  simp only [step, Search.step, if_pos h]

theorem step_down_fits (hva : va.Valid) (hv : v < 2 ^ 64) (h : ¬ (getSubtreeMaxSize l ≥ R.size ∧ v < va.vaStart))
    (hfit : R.FitsIn va v) : R.step (.down (.node c l va m r) p v) = .done (some ⟨c, l, va, m, r, p⟩) := by
  simp only [step, Search.step, if_neg h, (isWithinThisVa_iff hva hv).2 hfit, if_true]

theorem step_down (hva : va.Valid) (hv : v < 2 ^ 64) (h : ¬ (getSubtreeMaxSize l ≥ R.size ∧ v < va.vaStart))
    (hfit : ¬ R.FitsIn va v) :
    R.step (.down (.node c l va m r) p v) =
      if getSubtreeMaxSize r ≥ R.size then .down r (⟨.right, c, va, m, l⟩ :: p) v
      else .up (.node c l va m r) p v := by
  simp [step, Search.step, if_neg h, isWithinThisVa_eq_false hva hv hfit]

/-- A right subtree is searched from `w`, for a request from `v` that fits neither left of it nor at its parent.  If the
search comes back without result it may enter the subtree once more, from just above the parent's start. -/
theorem right_outcome {w : Nat} (hs : Sound (.node c l va m r))
    (ihr : ∀ p v, v < 2 ^ 64 → R.Outcome r p v (.down r p v)) (hw : w < 2 ^ 64) (hvw : v ≤ w)
    (hw' : w = v ∨ w = va.vaStart + 1) (hl : ∀ x ∈ l.toList, ¬ R.FitsIn x v) (hva : ¬ R.FitsIn va v)
    (hr : ∀ x ∈ r.toList, R.FitsIn x v → R.FitsIn x w) :
    R.Outcome (.node c l va m r) p v (.down r (⟨.right, c, va, m, l⟩ :: p) w) := by
  have hstart : ∀ x ∈ r.toList, va.vaStart < x.vaStart ∧ x.vaStart + 1 < 2 ^ 64 := by
    intro x hx
    have := hs.le_right hx
    have := hs.root.lt
    have := (hs.right.valid x hx).start_le
    omega
  have hvalt := hs.root.start_le
  obtain ⟨hnone, v₁, hup, hle, hv₁⟩ | ⟨s', hdone, htree, hmem, hfit, pre, hpre, hnot⟩ :=
    ihr (⟨.right, c, va, m, l⟩ :: p) w hw
  · have hall : ∀ x ∈ (.node c l va m r : FreeTree).toList, ¬ R.FitsIn x v := by
      intro x hx
      rw [toList_node, List.mem_append, List.mem_cons] at hx
      rcases hx with hx | rfl | hx
      · exact hl x hx
      · exact hva
      · exact fun h => hnone x hx (hr x hx h)
    have hv₁lt : v₁ < 2 ^ 64 := by
      rcases hv₁ with rfl | ⟨x, hx, rfl⟩
      · exact hw
      · exact (hstart x hx).2
    have hlater : ∀ {u}, v ≤ u → ¬ R.FitsIn va u := fun hu h => hva (h.mono hu)
    have hback := step_up_right (c := c) (l := l) (r := r) (m := m) (p := p) hs.root hv₁lt
      (hlater (hvw.trans hle))
    by_cases hagain : getSubtreeMaxSize r ≥ R.size ∧ v₁ ≤ va.vaStart
    · rw [if_pos hagain] at hback
      have hv' : v ≤ va.vaStart + 1 := by omega
      obtain ⟨-, v₃, hup₃, hle₃, hv₃⟩ | ⟨s', -, -, hmem, hfit, -⟩ :=
        ihr (⟨.right, c, va, m, l⟩ :: p) (va.vaStart + 1) (by omega)
      · have hv₃lt : v₃ < 2 ^ 64 := by
          rcases hv₃ with rfl | ⟨x, hx, rfl⟩
          · omega
          · exact (hstart x hx).2
        have hback₃ := step_up_right (c := c) (l := l) (r := r) (m := m) (p := p) hs.root hv₃lt
          (hlater (hv'.trans hle₃))
        rw [if_neg (by omega)] at hback₃
        refine .inl ⟨hall, v₃, hup.trans ((Reaches.single hback).trans (hup₃.trans (Reaches.single hback₃))), by omega, ?_⟩
        rcases hv₃ with rfl | ⟨x, hx, rfl⟩
        · exact .inr ⟨va, by simp, rfl⟩
        · exact .inr ⟨x, by simp [hx], rfl⟩
      · exact absurd (hfit.mono hv') (hall s'.val (by simp [hmem]))
    · rw [if_neg hagain] at hback
      refine .inl ⟨hall, v₁, hup.trans (Reaches.single hback), hvw.trans hle, ?_⟩
      rcases hv₁ with rfl | ⟨x, hx, rfl⟩
      · rcases hw' with rfl | rfl
        · exact .inl rfl
        · exact .inr ⟨va, by simp, rfl⟩
      · exact .inr ⟨x, by simp [hx], rfl⟩
  · refine .inr ⟨s', hdone, htree, by simp [hmem], hfit.mono hvw, l.toList ++ va :: pre, ?_, ?_⟩
    · rw [hpre]
      simp [before]
    · intro x hx
      rw [List.mem_append, List.mem_cons] at hx
      rcases hx with hx | rfl | hx
      · exact ⟨by simp [hx], hl x hx⟩
      · exact ⟨by simp, hva⟩
      · obtain ⟨hxr, hxw⟩ := hnot x hx
        exact ⟨by simp [hxr], fun h => hxw (hr x hxr h)⟩

theorem search_outcome (hs : Sound t) (ht : t ≠ .nil) (p : FreePath) (hv : v < 2 ^ 64) :
    R.Outcome t p v (.down t p v) := by
  induction t generalizing p v with
  | nil => exact absurd rfl ht
  | node c l va m r ihl ihr =>
    have hfound : ∀ {s}, R.Reaches s (.done (some ⟨c, l, va, m, r, p⟩)) → (∀ x ∈ l.toList, ¬ R.FitsIn x v) →
        R.FitsIn va v → R.Outcome (.node c l va m r) p v s := fun hdone hl hfit =>
      .inr ⟨_, hdone, rfl, by simp, hfit, l.toList, rfl, fun x hx => ⟨by simp [hx], hl x hx⟩⟩
    have hnone : (∀ x ∈ l.toList, ¬ R.FitsIn x v) → ¬ R.FitsIn va v → ¬ getSubtreeMaxSize r ≥ R.size →
        ∀ x ∈ (.node c l va m r : FreeTree).toList, ¬ R.FitsIn x v := by
      intro hl hva hr x hx
      rw [toList_node, List.mem_append, List.mem_cons] at hx
      rcases hx with hx | rfl | hx
      · exact hl x hx
      · exact hva
      · exact not_fitsIn_of_max hs.right hr x hx
    have hright : getSubtreeMaxSize r ≥ R.size → ∀ p v, v < 2 ^ 64 → R.Outcome r p v (.down r p v) :=
      fun hr p v hv => ihr hs.right (ne_nil_of_max hr R.size_pos) p hv
    by_cases hleft : getSubtreeMaxSize l ≥ R.size ∧ v < va.vaStart
    · refine .of_reaches (.single (step_down_left hleft)) ?_
      obtain ⟨hl, v₁, hup, hle, hv₁⟩ | ⟨s', hdone, htree, hmem, hfit, pre, hpre, hnot⟩ :=
        ihl hs.left (ne_nil_of_max hleft.1 R.size_pos) (⟨.left, c, va, m, r⟩ :: p) hv
      · -- back at the parent: `vstart` is still not above its start
        have hv₁va : v₁ ≤ va.vaStart := by
          rcases hv₁ with rfl | ⟨x, hx, rfl⟩
          · omega
          · have := hs.left_le hx
            have := (hs.left.valid x hx).lt
            omega
        have hvalt := hs.root.start_le
        by_cases hfit : R.FitsIn va v
        · have hdone := step_up_fits (d := .left) (c := c) (m := m) (t := l) (o := r) (p := p) hs.root (by omega)
            (hfit.of_le_start hv₁va)
          exact hfound (hup.trans (.single hdone)) hl hfit
        · have hback := step_up_left (c := c) (l := l) (r := r) (m := m) (p := p) hs.root (v := v₁) (by omega)
            fun h => hfit (h.mono hle)
          by_cases hr : getSubtreeMaxSize r ≥ R.size
          · rw [if_pos ⟨hr, hv₁va⟩] at hback
            refine .of_reaches (hup.trans (.single hback)) ?_
            refine right_outcome hs (hright hr) (by omega) (by omega) (.inr rfl) hl hfit fun x hx h => ?_
            have := hs.le_right hx
            have := hs.root.lt
            exact h.of_le_start (by omega)
          · rw [if_neg fun h => hr h.1] at hback
            refine .inl ⟨hnone hl hfit hr, v₁, hup.trans (.single hback), hle, ?_⟩
            rcases hv₁ with rfl | ⟨x, hx, rfl⟩
            · exact .inl rfl
            · exact .inr ⟨x, by simp [hx], rfl⟩
      · refine .inr ⟨s', hdone, htree, by simp [hmem], hfit, pre, hpre, fun x hx => ?_⟩
        exact ⟨by simp [(hnot x hx).1], (hnot x hx).2⟩
    · -- the left subtree is skipped: nothing in it is large enough, or all of it is below `vstart`
      have hl : ∀ x ∈ l.toList, ¬ R.FitsIn x v := by
        intro x hx hfit
        by_cases hmax : getSubtreeMaxSize l ≥ R.size
        · have := hs.left_le hx
          have := hfit.lt_end
          omega
        · exact not_fitsIn_of_max hs.left hmax x hx hfit
      by_cases hfit : R.FitsIn va v
      · exact hfound (.single (step_down_fits hs.root hv hleft hfit)) hl hfit
      · have hstep := step_down (c := c) (m := m) (r := r) (p := p) hs.root hv hleft hfit
        by_cases hr : getSubtreeMaxSize r ≥ R.size
        · rw [if_pos hr] at hstep
          exact .of_reaches (.single hstep) (right_outcome hs (hright hr) hv (Nat.le_refl v) (.inl rfl) hl hfit
            fun _ _ h => h)
        · rw [if_neg hr] at hstep
          exact .inl ⟨hnone hl hfit hr, v, .single hstep, Nat.le_refl v, .inl rfl⟩

theorem findVmapLowestMatch_of_iterate {n fuel : Nat} {res : Option FreePlace}
    (h : R.step^[n] (.down t [] v) = .done res) (hfuel : fuel ≥ n) :
    findVmapLowestMatch fuel t R.size R.align v false = some res := by
  have hfix : R.step^[fuel - n] (.done res) = .done res := Function.iterate_fixed rfl (fuel - n)
  have hrun : R.step^[fuel] (.down t [] v) = .done res := by
    rw [show fuel = (fuel - n) + n by omega, Function.iterate_add_apply, h, hfix]
  rw [step] at hrun
  simp only [findVmapLowestMatch, Bool.false_eq_true, if_false, hrun]

theorem findVmapLowestMatch_spec (R : Request) (hs : Sound t) (hv : v < 2 ^ 64) :
    ∃ n, (∀ fuel ≥ n, findVmapLowestMatch fuel t R.size R.align v false = some none) ∧
        (∀ x ∈ t.toList, ¬ R.FitsIn x v) ∨
      ∃ s : FreePlace, (∀ fuel ≥ n, findVmapLowestMatch fuel t R.size R.align v false = some (some s)) ∧ s.tree = t ∧
        R.FitsIn s.val v ∧ ∀ x ∈ before s.path ++ s.left.toList, ¬ R.FitsIn x v := by
  by_cases ht : t = .nil
  · subst ht
    exact ⟨1, .inl ⟨fun _ => findVmapLowestMatch_of_iterate rfl, by simp⟩⟩
  · obtain ⟨hnone, v', hup, -⟩ | ⟨s, ⟨n, hn⟩, htree, -, hfit, pre, hpre, hnot⟩ := search_outcome (R := R) hs ht [] hv
    · obtain ⟨n, hn⟩ := hup.trans (Reaches.single rfl : R.Reaches (.up t [] v') (.done none))
      exact ⟨n, .inl ⟨fun _ => findVmapLowestMatch_of_iterate hn, hnone⟩⟩
    · refine ⟨n, .inr ⟨s, fun _ => findVmapLowestMatch_of_iterate hn, htree, hfit, fun x hx => ?_⟩⟩
      rw [hpre, before_nil, List.nil_append] at hx
      exact (hnot x hx).2

end Request

end Vmalloc

end QuestOS
