import QuestOS.Mmu.CreateMapping

/-!
# Requests to `create_mapping`, and the tables below an entry

Each part of the range gets a block where it is a whole entry of level 1 or 2, and pages elsewhere.  A
block entry is written only if the change is safe (`refuses`); the loops go on in any case.  `Created` is
what a function of the walk does to the translation and to the allocator, and it goes from the table that an
entry points to up to the table of the entry.
-/

namespace QuestOS

open Bytes PageTable
open VmapRequest (TablesHeld LowEntry tableEntry pteToPhys_eq)

/-- A request with equal page offsets, a range that does not wrap and the protection of a page. -/
structure MapRequest where
  phys : Nat
  virt : Nat
  size : Nat
  prot : Entry
  phys_lt : phys < 2 ^ 64
  ge : pageOffset ≤ virt
  offset : phys % 4096 = virt % 4096
  pos : 0 < size
  fits : virt + size < 2 ^ 64
  page : PageProt prot

def Tabled (m : Mem) : (k t x : Nat) → Prop
  | 0, _, _ => True
  | k + 1, t, x => isTable (slot m t (index (k + 1) x)) = true ∧ LowEntry (slot m t (index (k + 1) x)) ∧
      Tabled m k (outAddr (slot m t (index (k + 1) x))) x

theorem tabled_of_path {m m' : Mem} {k t t' x : Nat} (h : path m' k t' x = path m k t x) :
    Tabled m' k t' x ↔ Tabled m k t x := by
  induction k generalizing t t' with
  | zero => exact Iff.rfl
  | succ k ih =>
    simp only [path, List.cons.injEq, Prod.mk.injEq] at h
    obtain ⟨⟨-, he⟩, hrest⟩ := h
    rw [Tabled, Tabled, he]
    refine and_congr_right fun htab => and_congr_right fun _ => ?_
    rw [he, if_pos htab, if_pos htab] at hrest
    exact ih hrest

namespace MapRequest

variable {r : MapRequest} {k t c a b e x y : Nat} {m m' : Mem} {s s₁ s' : VmState} {f : Nat → Option Leaf}

def va (r : MapRequest) : Nat := r.virt / 4096 * 4096

def pa (r : MapRequest) : Nat := r.phys / 4096 * 4096

def vaEnd (r : MapRequest) : Nat := (r.virt + r.size + 4095) / 4096 * 4096

theorem va_mod (r : MapRequest) : r.va % 4096 = 0 := Nat.mul_mod_left _ _

theorem pa_mod (r : MapRequest) : r.pa % 4096 = 0 := Nat.mul_mod_left _ _

theorem vaEnd_mod (r : MapRequest) : r.vaEnd % 4096 = 0 := Nat.mul_mod_left _ _

theorem lt (r : MapRequest) : r.va < r.vaEnd := by
  have := r.pos
  unfold va vaEnd
  omega

theorem vaEnd_le (r : MapRequest) : r.vaEnd ≤ 2 ^ 64 := by
  have := r.fits
  unfold vaEnd
  omega

theorem pageOffset_le (r : MapRequest) : pageOffset ≤ r.va := by
  have := r.ge
  unfold pageOffset at *
  unfold va
  omega

def leaf (r : MapRequest) (x : Nat) : Option Leaf := some ⟨r.pa + (x - r.va), protAttr r.prot⟩

def InReach (r : MapRequest) : Prop := r.pa + (r.vaEnd - r.va) ≤ 2 ^ 48

def UsesBlock (r : MapRequest) (k x : Nat) : Prop :=
  (k = 1 ∨ k = 2) ∧ r.va ≤ spanStart k x ∧ spanEnd k x ≤ r.vaEnd ∧ r.va % span k = r.pa % span k

instance (r : MapRequest) (k x : Nat) : Decidable (r.UsesBlock k x) := inferInstanceAs (Decidable (_ ∧ _))

def block (r : MapRequest) (k x : Nat) : Entry :=
  pfnPte ((r.pa + (spanStart k x - r.va)) / 4096) (mkSectProt r.prot)

def refuses (r : MapRequest) (m : Mem) : (k t x : Nat) → Bool
  | 0, _, _ => false
  | k + 1, t, x =>
    if r.UsesBlock (k + 1) x then !pgattrChangeIsSafe (slot m t (index (k + 1) x)) (r.block (k + 1) x)
    else isTable (slot m t (index (k + 1) x)) && r.refuses m k (outAddr (slot m t (index (k + 1) x))) x

def result (r : MapRequest) (m : Mem) (k t x : Nat) : Option Leaf :=
  if r.refuses m k t x then walk m k t x else r.leaf x

def Open (r : MapRequest) (m : Mem) : (k t x : Nat) → Prop
  | 0, _, _ => True
  | k + 1, t, x => r.UsesBlock (k + 1) x ∨ slot m t (index (k + 1) x) = 0 ∨
      isTable (slot m t (index (k + 1) x)) = true ∧ LowEntry (slot m t (index (k + 1) x)) ∧
        r.Open m k (outAddr (slot m t (index (k + 1) x))) x

theorem open_of_path {t' : Nat} (h : path m' k t' x = path m k t x) : r.Open m' k t' x ↔ r.Open m k t x := by
  induction k generalizing t t' with
  | zero => exact Iff.rfl
  | succ k ih =>
    simp only [path, List.cons.injEq, Prod.mk.injEq] at h
    obtain ⟨⟨-, he⟩, hrest⟩ := h
    rw [Open, Open, he]
    refine or_congr_right (or_congr_right (and_congr_right fun htab => and_congr_right fun _ => ?_))
    rw [he, if_pos htab, if_pos htab] at hrest
    exact ih hrest

theorem refuses_of_path {t' : Nat} (h : path m' k t' x = path m k t x) : r.refuses m' k t' x = r.refuses m k t x := by
  induction k generalizing t t' with
  | zero => rfl
  | succ k ih =>
    simp only [path, List.cons.injEq, Prod.mk.injEq] at h
    obtain ⟨⟨-, he⟩, hrest⟩ := h
    rw [refuses, refuses, he]
    cases htab : isTable (slot m t (index (k + 1) x)) with
    | false => rfl
    | true =>
      rw [he, if_pos htab, if_pos htab] at hrest
      rw [ih hrest]

theorem result_of_path {t' : Nat} (h : path m' k t' x = path m k t x) : r.result m' k t' x = r.result m k t x := by
  rw [result, result, refuses_of_path h, walk_of_path h]

theorem result_of_table (hno : ¬ r.UsesBlock (k + 1) x) (htab : isTable (slot m t (index (k + 1) x)) = true) :
    r.result m (k + 1) t x = r.result m k (outAddr (slot m t (index (k + 1) x))) x := by
  rw [result, result, refuses, if_neg hno, htab, Bool.true_and, walk_of_table htab]

theorem pgattrChangeIsSafe_zero (new : Entry) : pgattrChangeIsSafe 0 new = true := by
  rw [pgattrChangeIsSafe, show isValid (0 : Entry) = false from rfl]
  rfl

theorem result_of_zero (hz : slot m t (index k x) = 0) : r.result m k t x = r.leaf x := by
  have hno : r.refuses m k t x = false := by
    cases k with
    | zero => rfl
    | succ k =>
      rw [refuses, hz, pgattrChangeIsSafe_zero]
      split
      · rfl
      · rw [show isTable (0 : Entry) = false from rfl, Bool.false_and]
  rw [result, hno]
  rfl

theorem usesBlock_congr (h : x / span k = y / span k) : r.UsesBlock k x ↔ r.UsesBlock k y := by
  rw [UsesBlock, UsesBlock, spanStart_eq_iff.mpr h, spanEnd_congr h]

/-! ### The contract -/

structure Created (r : MapRequest) (f : Nat → Option Leaf) (k t a b : Nat) (s s' : VmState) : Prop where
  grows : s.Grows s'
  maps : Maps id k t a b f (s.Taken s') s.mem s'.mem
  kept : (∀ x, a ≤ x → x < b → Tabled s.mem k t x) → s'.heap.mb = s.heap.mb
  tabled : ∀ x, x / span (k + 1) = a / span (k + 1) → (∀ j, ¬ r.UsesBlock j x) → Tabled s.mem k t x →
    Tabled s'.mem k t x

structure Pending (r : MapRequest) (f : Nat → Option Leaf) (k t a e : Nat) (s : VmState) : Prop where
  ok : s.Ok
  tree : Tree s.mem k t
  held : TablesHeld s k t
  opened : ∀ x, a ≤ x → x < e → r.Open s.mem k t x
  result : ∀ x, a ≤ x → x < e → f x = r.result s.mem k t x

theorem Pending.mono {e' : Nat} (h : r.Pending f k t a e s) (he : e' ≤ e) : r.Pending f k t a e' s where
  ok := h.ok
  tree := h.tree
  held := h.held
  opened := fun x h1 h2 => h.opened x h1 (by omega)
  result := fun x h1 h2 => h.result x h1 (by omega)

theorem Created.held (h : r.Created f k t a b s s') (ht : TablesHeld s k t) : TablesHeld s' k t := by
  intro x hx hl
  rcases h.maps.foot _ hx with h1 | h1
  · exact ht x h1 (h.grows.loose hl)
  · exact hl.2 (h1 x rfl).2

theorem Created.path_behind (h : r.Created f k t a b s s') (hb : b % span k = 0) (hab : a < b)
    (he : e ≤ spanEnd (k + 1) a) (h1 : b ≤ x) (h2 : x < e) : path s'.mem k t x = path s.mem k t x := by
  have hreg : x / span (k + 1) = a / span (k + 1) := div_span_of_mem (by omega) (by omega)
  refine h.maps.path x hreg (.inr ?_)
  by_contra hlt
  have h3 := spanEnd_le_of_lt (k := k) (x := x) hb (by omega)
  have h4 := lt_spanEnd k x
  omega

theorem Pending.next (h : r.Pending f k t a e s) (hc : r.Created f k t a b s s') (hb : b % span k = 0) (hab : a < b)
    (he : e ≤ spanEnd (k + 1) a) : r.Pending f k t b e s' where
  ok := hc.grows.ok
  tree := hc.maps.tree
  held := hc.held h.held
  opened := fun x h1 h2 =>
    (open_of_path (hc.path_behind hb hab he h1 h2)).mpr (h.opened x (by omega) h2)
  result := fun x h1 h2 => by
    rw [result_of_path (hc.path_behind hb hab he h1 h2)]
    exact h.result x (by omega) h2

theorem Created.trans (h : r.Created f k t a b s s₁) (h' : r.Created f k t b e s₁ s') (hb : b % span k = 0)
    (hab : a < b) (hbe : b < e) (he : e ≤ spanEnd (k + 1) a) : r.Created f k t a e s s' := by
  have hreg : b / span (k + 1) = a / span (k + 1) := div_span_of_mem (by omega) (by omega)
  refine ⟨h.grows.trans h'.grows, (h.maps.mono fun _ hx => h'.grows.taken_left hx).trans
    (h'.maps.mono fun _ hx => h.grows.taken_right hx) (by omega) (by omega) hreg, fun htab => ?_, fun x hx hno htab => ?_⟩
  · rw [h'.kept fun x h1 h2 => (tabled_of_path (h.path_behind hb hab he h1 h2)).mpr (htab x (by omega) h2)]
    exact h.kept fun x h1 h2 => htab x h1 (by omega)
  · exact h'.tabled x (hx.trans hreg.symm) hno (h.tabled x hx hno htab)

theorem tabled_other (h : Maps id (k + 1) t a b f (s.Taken s') s.mem s'.mem) (hb : b ≤ spanEnd (k + 1) a)
    (hreg : x / span (k + 1 + 1) = a / span (k + 1 + 1)) (hne : x / span (k + 1) ≠ a / span (k + 1))
    (htab : Tabled s.mem (k + 1) t x) : Tabled s'.mem (k + 1) t x :=
  (tabled_of_path (h.path_other hb hreg hne)).mpr htab

/-! ### The table of an entry -/

theorem Created.child (h : r.Created f k (outAddr (slot s.mem t (index (k + 1) a))) a b s s')
    (hp : r.Pending f (k + 1) t a b s) (he : isTable (slot s.mem t (index (k + 1) a)) = true) (hab : a < b)
    (hb : b ≤ spanEnd (k + 1) a) : r.Created f (k + 1) t a b s s' := by
  have hidx := index_lt (k + 1) a
  have hmaps := Maps.child hp.tree he hab hb (fun x hx hf => hp.held x hf hx.1) h.maps
  have hslot : slot s'.mem t (index (k + 1) a) = slot s.mem t (index (k + 1) a) :=
    slot_congr hp.tree.aligned hidx fun x hx => h.maps.frame x (by rw [hx]; exact (hp.tree.2.1 _ hidx he).2) fun hl =>
      hp.held.not_loose hx hl.1
  refine ⟨h.grows, hmaps, fun htab => h.kept fun x h1 h2 => ?_, fun x hreg hno htab => ?_⟩
  · have hx : x / span (k + 1) = a / span (k + 1) := div_span_of_mem (by omega) (by omega)
    have h3 := (htab x h1 h2).2.2
    rwa [index_of_div_span hx] at h3
  · by_cases hx : x / span (k + 1) = a / span (k + 1)
    · rw [Tabled, index_of_div_span hx] at htab ⊢
      rw [hslot]
      exact ⟨htab.1, htab.2.1, h.tabled x hx hno htab.2.2⟩
    · exact tabled_other hmaps hb hreg hx htab

theorem Created.link {e : Entry} (hnew : NewTable s c s₁)
    (h : r.Created f k c a b (s₁.setMem (store64 s₁.mem (t + 8 * index (k + 1) a) e)) s')
    (hp : r.Pending f (k + 1) t a b s) (he : slot s.mem t (index (k + 1) a) = 0)
    (htab : isTable e = true) (hout : outAddr e = c) (hab : a < b) (hb : b ≤ spanEnd (k + 1) a) :
    r.Created f (k + 1) t a b s s' := by
  have hmaps := VmapRequest.NewTable.maps_link hnew h.grows h.maps hp.tree hp.held he htab hout hab hb
  have hnot : ∀ x, x / span (k + 1) = a / span (k + 1) → ¬ Tabled s.mem (k + 1) t x := by
    intro x hx htab'
    have h1 := htab'.1
    rw [index_of_div_span hx, he] at h1
    cases h1
  refine ⟨(hnew.grows.trans (.setMem hnew.grows.ok _)).trans h.grows, hmaps, fun htab' => ?_, fun x hreg _ htab' => ?_⟩
  · exact absurd (htab' a (Nat.le_refl a) hab) (hnot a rfl)
  · exact tabled_other hmaps hb hreg (fun hx => hnot x hx htab') htab'

theorem pageProt_initTable (flags : MapFlags) : PageProt (initTableProt flags) := by
  unfold initTableProt
  cases flags.noExec
  · exact ⟨by unfold NoAddr; decide, by decide⟩
  · exact ⟨by unfold NoAddr; decide, by decide⟩

theorem pgtableAlloc_spec (hok : s.Ok) {pa : Nat} (h : pgtableAlloc s = some (s₁, pa)) :
    NewTable s pa (s₁.setMem (fill s₁.mem pa 4096 0)) := by
  obtain ⟨mb', found, halloc, hcases⟩ := memblockPhysAllocRange_spec 4096 hok.wf
    (show 4096 ≤ 2 ^ 64 by decide) (show 0 ≤ physAddrMax by decide) (show 0 ≤ physAddrMax by decide)
  have hdvd : (2 ^ 12 : Nat) ∣ found := memblockPhysAllocRange_dvd (k := 12) (by decide) halloc
  rw [pgtableAlloc, halloc] at h
  dsimp only at h
  split at h
  · cases h
  · rename_i hne
    simp only [Option.some.injEq, Prod.mk.injEq] at h
    obtain ⟨rfl, rfl⟩ := h
    have hal := (hcases.resolve_left fun h => hne h.1).2
    have hpage : ∀ x, pageOf x = found → found ≤ x ∧ x < found + 4096 := by
      intro x hx
      unfold pageOf at hx
      omega
    have hin : ∀ x, mb'.InMemory x ↔ s.heap.mb.InMemory x := fun x => by
      rw [Memblock.InMemory, Memblock.InMemory, hal.memory]
    have hloose : ∀ x, found ≤ x → x < found + 4096 → s.Loose x := fun x h1 h2 =>
      ⟨hal.free.memory x h1 h2, fun hh => hal.free.not_reserved h1 h2 hh.1⟩
    refine ⟨⟨⟨hal.wf, fun h0 => hok.zero ((hin 0).mp h0), fun x hx => hok.lt x ((hin x).mp hx)⟩, hal.memory,
      fun x hx => (hal.held x).mpr (.inl hx)⟩, Nat.mod_eq_zero_of_dvd hdvd, fun x hx => ?_, fun x hx => ?_,
      fun x hx => ?_, fun x hx => ?_⟩
    · exact hloose x (hpage x hx).1 (hpage x hx).2
    · exact (hal.held x).mpr (.inr (hpage x hx))
    · exact fill_of_mem (hpage x hx)
    · exact fill_of_not fun h1 => hx ⟨hloose x h1.1 h1.2, (hal.held x).mpr (.inr h1)⟩

/-- The table of an entry is entered, and what is done below it is done below the entry. -/
theorem initTable_spec (flags : MapFlags) (hp : r.Pending f (k + 1) t a b s) (hno : ¬ r.UsesBlock (k + 1) a)
    (hab : a < b) (hb : b ≤ spanEnd (k + 1) a)
    (h : initTable flags (t + 8 * index (k + 1) a) s = some (s₁, c)) :
    r.Pending f k c a b s₁ ∧ ∀ s', r.Created f k c a b s₁ s' → r.Created f (k + 1) t a b s s' := by
  have hidx := index_lt (k + 1) a
  have hsame : ∀ x, a ≤ x → x < b → x / span (k + 1) = a / span (k + 1) := by
    intro x h1 h2
    exact div_span_of_mem (by omega) (by omega)
  have hnox : ∀ x, a ≤ x → x < b → ¬ r.UsesBlock (k + 1) x := fun x h1 h2 =>
    mt (usesBlock_congr (hsame x h1 h2)).mp hno
  have hload : load64 s.mem (t + 8 * index (k + 1) a) = slot s.mem t (index (k + 1) a) := rfl
  rw [initTable, hload] at h
  by_cases he : slot s.mem t (index (k + 1) a) = 0
  · rw [if_pos he] at h
    split at h
    · cases h
    · rename_i s₂ pa halloc
      simp only [Option.some.injEq, Prod.mk.injEq] at h
      obtain ⟨rfl, rfl⟩ := h
      have hnew := pgtableAlloc_spec hp.ok halloc
      obtain ⟨htab, hout, -, -⟩ := tableEntry (pageProt_initTable flags) hnew.aligned hnew.lt
      generalize hs₃ : s₂.setMem (fill s₂.mem pa 4096 0) = s₃ at *
      have hzero : ∀ x, pageOf x = pa →
          store64 s₃.mem (t + 8 * index (k + 1) a) (BitVec.ofNat 64 pa ||| initTableProt flags) x = 0 := fun x hx =>
        VmapRequest.NewTable.zero_linked hnew hp.tree hp.held hx
      obtain ⟨htree, hfoot, -⟩ := zero_table hnew.aligned hzero k
      have hslot : ∀ x, slot (store64 s₃.mem (t + 8 * index (k + 1) a) (BitVec.ofNat 64 pa ||| initTableProt flags)) pa
          (index k x) = 0 := fun x =>
        load64_zero fun y hy1 hy2 => hzero y (pageOf_slot hnew.aligned (index_lt k x) hy1 hy2)
      refine ⟨⟨(VmState.Grows.setMem hnew.grows.ok _).ok, htree, fun x hx hl => ?_, fun x _ _ => ?_, fun x h1 h2 => ?_⟩,
        fun s' h => h.link hnew hp he htab hout hab hb⟩
      · exact hl.2 (hnew.held x ((hfoot _).mp hx))
      · cases k with
        | zero => trivial
        | succ k => exact .inr (.inl (hslot x))
      · rw [hp.result x h1 h2, result_of_zero (by rw [index_of_div_span (hsame x h1 h2)]; exact he)]
        exact (result_of_zero (hslot x)).symm
  · rw [if_neg he] at h
    simp only [Option.some.injEq, Prod.mk.injEq] at h
    obtain ⟨rfl, rfl⟩ := h
    obtain ⟨htab, hlow, -⟩ := ((hp.opened a (Nat.le_refl a) hab).resolve_left hno).resolve_left he
    rw [pteToPhys_eq hlow]
    refine ⟨⟨hp.ok, (hp.tree.2.1 _ hidx htab).1, fun x hx => hp.held x (Foot.child hidx htab hx), fun x h1 h2 => ?_,
      fun x h1 h2 => ?_⟩, fun s' h => h.child hp htab hab hb⟩
    · have hx := hp.opened x h1 h2
      rw [Open, index_of_div_span (hsame x h1 h2)] at hx
      exact ((hx.resolve_left (hnox x h1 h2)).resolve_left he).2.2
    · have hi := index_of_div_span (hsame x h1 h2)
      rw [hp.result x h1 h2, result_of_table (hnox x h1 h2) (by rw [hi]; exact htab), hi]

end MapRequest

end QuestOS
