import QuestOS.Lib.Trans
import QuestOS.Mmu.FdtWindow

/-!
# `early_ioremap`

Seven slots of 256 pages in the fixmap serve as windows onto device memory.  A call takes the first
slot that was never used, writes one entry of the static page tables for each page of the range and
returns the address in the slot.  The number of pages is narrowed to 32 bits before it is compared
with the capacity of a slot, and the physical address goes into the entries as it is.
-/

namespace QuestOS

open Bytes PageTable

/-! ### Layout -/

def nrFixBtmaps : Nat := 256

def fixBtmapsSlots : Nat := 7

def fixBtmapEnd : Nat := fixFdt + 3

def fixBtmapBegin : Nat := fixBtmapEnd + nrFixBtmaps * fixBtmapsSlots - 1

def fixmapPageIo : Entry := 0x0068000000000713#64

/-! ### The functions of `fixmap.c` and `early_ioremap.c` -/

def fixmapPte (bmPte addr : Nat) : Nat :=
  bmPte + 4096 * (addr / span 1 - fixaddrTotStart / span 1) + 8 * index 0 addr

/-- `__set_fixmap`; `none` is its `BUG_ON`. -/
def setFixmap (bmPte idx phys : Nat) (flags : Entry) (m : Mem) : Option Mem :=
  let addr := fixToVirt idx
  if idx = 0 ∨ endOfFixedAddresses ≤ idx then none
  else if flags ≠ 0 then some (store64 m (fixmapPte bmPte addr) (pfnPte (phys / 4096) flags))
  else some (store64 m (fixmapPte bmPte addr) 0)

/-- The memory and the arrays of `early_ioremap.c`, where a `prev_map` of 0 is NULL. -/
structure Ioremap where
  mem : Mem
  prevMap : Nat → Nat
  prevSize : Nat → Nat
  slotVirt : Nat → Nat

def earlyIoremapSetup (s : Ioremap) : Ioremap :=
  { s with slotVirt := fun i =>
      if i < fixBtmapsSlots then fixToVirt (fixBtmapBegin - nrFixBtmaps * i) else s.slotVirt i }

def findSlot (prevMap : Nat → Nat) : (n i : Nat) → Option Nat
  | 0, _ => none
  | n + 1, i => if prevMap i = 0 then some i else findSlot prevMap n (i + 1)

def mapPages (bmPte : Nat) (prot : Entry) : (nrpages idx phys : Nat) → Mem → Option Mem
  | 0, _, _, m => some m
  | n + 1, idx, phys, m =>
    match setFixmap bmPte idx phys prot m with
    | none => none
    | some m => mapPages bmPte prot n (idx - 1) (add64 phys 4096) m

/-- `__early_ioremap` with `FIXMAP_PAGE_IO`: the state and the address returned, 0 for NULL. -/
def earlyIoremap (bmPte phys size : Nat) (s : Ioremap) : Option (Ioremap × Nat) :=
  match findSlot s.prevMap fixBtmapsSlots 0 with
  | none => some (s, 0)
  | some slot =>
    let lastAddr := sub64 (add64 phys size) 1
    if size = 0 ∨ lastAddr < phys then some (s, 0)
    else
      let s := { s with prevSize := Function.update s.prevSize slot size }
      let offset := phys % 4096
      let phys := phys / 4096 * 4096
      let size := sub64 (alignUp (add64 lastAddr 1) 4096) phys
      -- `nrpages` is an `unsigned int`
      let nrpages := size / 4096 % 2 ^ 32
      if nrFixBtmaps < nrpages then some (s, 0)
      else
        (mapPages bmPte fixmapPageIo nrpages (fixBtmapBegin - nrFixBtmaps * slot) phys s.mem).map fun m =>
          let addr := add64 offset (s.slotVirt slot)
          ({ s with mem := m, prevMap := Function.update s.prevMap slot addr }, addr)

variable {root bmPud bmPmd bmPte idx phys size : Nat} {m m' : Mem} {s s' : Ioremap}

/-! ### Entries of the fixmap -/

def fixEntry (bmPte : Nat) (m : Mem) (idx : Nat) : Entry := slot m bmPte (2560 - idx)

theorem fixToVirt_div (h : idx < endOfFixedAddresses) :
    fixToVirt idx / 4096 = 4503599627368448 - idx ∧ fixToVirt idx % 4096 = 0 := by
  have hend : endOfFixedAddresses = 2313 := rfl
  have htop : fixaddrTop = 4503599627368448 * 4096 := rfl
  rw [fixToVirt, htop]
  omega

theorem fixmapPte_eq (h : idx < endOfFixedAddresses) :
    fixmapPte bmPte (fixToVirt idx) = bmPte + 8 * (2560 - idx) := by
  have hend : endOfFixedAddresses = 2313 := rfl
  have hstart : fixaddrTotStart / span 1 = 8796093022199 := rfl
  obtain ⟨hdiv, -⟩ := fixToVirt_div h
  have hdiv' : fixToVirt idx / span 1 = (4503599627368448 - idx) / 512 := by
    rw [← hdiv, Nat.div_div_eq_div_mul]
    rfl
  rw [fixmapPte, hstart, hdiv', index, span_zero, hdiv]
  omega

theorem setFixmap_eq {flags : Entry} (h0 : idx ≠ 0) (h : idx < endOfFixedAddresses) (hf : flags ≠ 0) :
    setFixmap bmPte idx phys flags m =
      some (store64 m (bmPte + 8 * (2560 - idx)) (pfnPte (phys / 4096) flags)) := by
  rw [setFixmap, if_neg (by omega), if_pos hf, fixmapPte_eq h]

theorem mapPages_eq {prot : Entry} (hprot : prot ≠ 0) {n : Nat} (hn : n ≤ idx)
    (hidx : idx < endOfFixedAddresses) (hphys : phys + 4096 * n ≤ 2 ^ 64) :
    ∃ m', mapPages bmPte prot n idx phys m = some m' ∧
      (∀ j < endOfFixedAddresses, fixEntry bmPte m' j =
        if idx - n < j ∧ j ≤ idx then pfnPte (phys / 4096 + (idx - j)) prot else fixEntry bmPte m j) ∧
      ∀ x, x < bmPte ∨ bmPte + 4096 * 5 ≤ x → m' x = m x := by
  have hend : endOfFixedAddresses = 2313 := rfl
  induction n generalizing idx phys m with
  | zero => exact ⟨m, rfl, fun j _ => (if_neg (by omega)).symm, fun _ _ => rfl⟩
  | succ n ih =>
    rw [mapPages, setFixmap_eq (by omega) hidx hprot]
    dsimp only
    have hfirst : ∀ j < endOfFixedAddresses,
        fixEntry bmPte (store64 m (bmPte + 8 * (2560 - idx)) (pfnPte (phys / 4096) prot)) j =
          if j = idx then pfnPte (phys / 4096) prot else fixEntry bmPte m j := by
      intro j hj
      by_cases hji : j = idx
      · rw [hji, if_pos rfl]
        exact slot_store64 ..
      · rw [if_neg hji]
        exact slot_store64_of_ne (by omega)
    have hframe : ∀ x, x < bmPte ∨ bmPte + 4096 * 5 ≤ x →
        store64 m (bmPte + 8 * (2560 - idx)) (pfnPte (phys / 4096) prot) x = m x :=
      fun x hx => store64_of_not (by omega)
    cases n with
    | zero =>
      refine ⟨_, by rw [mapPages], fun j hj => ?_, hframe⟩
      rw [hfirst j hj]
      by_cases hji : j = idx
      · rw [if_pos hji, if_pos (by omega), hji, Nat.sub_self, Nat.add_zero]
      · rw [if_neg hji, if_neg (by omega)]
    | succ n =>
      have hadd : add64 phys 4096 = phys + 4096 := Nat.mod_eq_of_lt (by omega)
      have hbound : phys + 4096 + 4096 * (n + 1) ≤ 2 ^ 64 := by
        rwa [Nat.mul_succ 4096 (n + 1), Nat.add_comm (4096 * (n + 1)), ← Nat.add_assoc] at hphys
      rw [hadd]
      obtain ⟨m', hm', hentry, hout⟩ := @ih (idx - 1) (phys + 4096)
        (store64 m (bmPte + 8 * (2560 - idx)) (pfnPte (phys / 4096) prot)) (by omega) (by omega)
        hbound
      refine ⟨m', hm', fun j hj => ?_, fun x hx => (hout x hx).trans (hframe x hx)⟩
      rw [hentry j hj, hfirst j hj]
      by_cases hji : j = idx
      · rw [if_neg (by omega), if_pos hji, if_pos (by omega), hji, Nat.sub_self, Nat.add_zero]
      · by_cases hin : idx - 1 - (n + 1) < j ∧ j ≤ idx - 1
        · rw [if_pos hin, if_pos (by omega), show (phys + 4096) / 4096 + (idx - 1 - j) =
            phys / 4096 + (idx - j) by omega]
        · rw [if_neg hin, if_neg hji, if_neg (by omega)]

/-! ### Translation -/

structure FixmapTables (root bmPud bmPmd bmPte : Nat) (m : Mem) : Prop where
  aligned : root % 4096 = 0 ∧ bmPud % 4096 = 0 ∧ bmPmd % 4096 = 0 ∧ bmPte % 4096 = 0
  lt : bmPud < 2 ^ 48 ∧ bmPmd < 2 ^ 48 ∧ bmPte + 4096 * 5 ≤ 2 ^ 48
  apart : ∀ t, t = root ∨ t = bmPud ∨ t = bmPmd → t + 4096 ≤ bmPte ∨ bmPte + 4096 * 5 ≤ t
  root : slot m root 511 = fixmapTable bmPud
  pud : slot m bmPud 511 = fixmapTable bmPmd
  pmd : ∀ j < 5, slot m bmPmd (503 + j) = fixmapTable (bmPte + 4096 * j)

theorem FixmapTables.walk (h : FixmapTables root bmPud bmPmd bmPte m) (h0 : idx ≠ 0)
    (hidx : idx < endOfFixedAddresses) {o : Nat} (ho : o < 4096) :
    walk m 3 root (fixToVirt idx + o) = leafOf 0 (fixEntry bmPte m idx) o := by
  have hend : endOfFixedAddresses = 2313 := rfl
  obtain ⟨hdiv, hmod⟩ := fixToVirt_div hidx
  generalize fixToVirt idx = va at hdiv hmod
  have hpage : (va + o) / 4096 = 4503599627368448 - idx := by omega
  have hspan : ∀ k, (va + o) / span (k + 1) = (4503599627368448 - idx) / (2 ^ (9 * (k + 1))) := by
    intro k
    rw [← hpage, Nat.div_div_eq_div_mul, span, Nat.pow_add]
  have h3 : index 3 (va + o) = 511 := by
    rw [index, hspan 2]
    omega
  have h2 : index 2 (va + o) = 511 := by
    rw [index, hspan 1]
    omega
  have h1 : index 1 (va + o) = 503 + (2560 - idx) / 512 := by
    rw [index, hspan 0]
    omega
  have h0' : index 0 (va + o) = (2560 - idx) % 512 := by
    rw [index, span_zero, hpage]
    omega
  obtain ⟨ht3, ho3, -⟩ := fixmapTable_entry h.aligned.2.1 h.lt.1
  obtain ⟨ht2, ho2, -⟩ := fixmapTable_entry h.aligned.2.2.1 h.lt.2.1
  obtain ⟨ht1, ho1, -⟩ := fixmapTable_entry (c := bmPte + 4096 * ((2560 - idx) / 512))
    (by have := h.aligned.2.2.2; omega) (by have := h.lt.2.2; omega)
  rw [walk_of_table (by rw [h3, h.root]; exact ht3), h3, h.root, ho3,
    walk_of_table (by rw [h2, h.pud]; exact ht2), h2, h.pud, ho2,
    walk_of_table (by rw [h1, h.pmd _ (by omega)]; exact ht1), h1, h.pmd _ (by omega), ho1, walk_zero, h0']
  have hslot : slot m (bmPte + 4096 * ((2560 - idx) / 512)) ((2560 - idx) % 512) = fixEntry bmPte m idx := by
    rw [fixEntry, slot, slot]
    congr 1
    omega
  rw [hslot]
  exact leafOf_congr_mod (by rw [span_zero]; omega)

theorem FixmapTables.congr (h : FixmapTables root bmPud bmPmd bmPte m)
    (hm : ∀ x, x < bmPte ∨ bmPte + 4096 * 5 ≤ x → m' x = m x) :
    FixmapTables root bmPud bmPmd bmPte m' := by
  have hslot : ∀ t, t = root ∨ t = bmPud ∨ t = bmPmd → ∀ j < 512, slot m' t j = slot m t j := by
    intro t ht j hj
    have hap := h.apart t ht
    refine load64_congr fun x h1 h2 => hm x ?_
    omega
  refine ⟨h.aligned, h.lt, h.apart, ?_, ?_, fun j hj => ?_⟩
  · rw [hslot root (.inl rfl) 511 (by decide), h.root]
  · rw [hslot bmPud (.inr (.inl rfl)) 511 (by decide), h.pud]
  · rw [hslot bmPmd (.inr (.inr rfl)) (503 + j) (by omega), h.pmd j hj]

/-! ### One call -/

def pagesOf (phys size : Nat) : Nat := (phys + size - 1) / 4096 - phys / 4096 + 1

def slotAddr (k : Nat) : Nat := fixToVirt (fixBtmapBegin - nrFixBtmaps * k)

variable {k : Nat}

theorem slotAddr_eq (hk : k < 7) : slotAddr k = 0xffffffffff800000 - 2308 * 4096 + 2 ^ 20 * k := by
  have hbegin : fixBtmapBegin = 2308 := rfl
  rw [slotAddr, fixToVirt, hbegin, nrFixBtmaps, fixaddrTop]
  omega

theorem lastAddr_eq (hp : phys < 2 ^ 64) (hs : size < 2 ^ 64) (h0 : size ≠ 0) :
    sub64 (add64 phys size) 1 = (phys + size - 1) % 2 ^ 64 ∧
      (sub64 (add64 phys size) 1 < phys ↔ 2 ^ 64 < phys + size) := by
  have hlast : sub64 (add64 phys size) 1 = (phys + size - 1) % 2 ^ 64 := by
    rw [sub64, add64]
    omega
  refine ⟨hlast, ?_⟩
  rw [hlast]
  omega

theorem nrpages_eq (hp : phys < 2 ^ 64) (h0 : size ≠ 0) (hle : phys + size ≤ 2 ^ 64) :
    sub64 (alignUp (add64 ((phys + size - 1) % 2 ^ 64) 1) 4096) (phys / 4096 * 4096) / 4096 % 2 ^ 32 =
      pagesOf phys size % 2 ^ 32 := by
  have hlast : (phys + size - 1) % 2 ^ 64 = phys + size - 1 := Nat.mod_eq_of_lt (by omega)
  have halign : alignUp (add64 (phys + size - 1) 1) 4096 = ((phys + size - 1) / 4096 + 1) * 4096 % 2 ^ 64 := by
    rw [show (4096 : Nat) = 2 ^ 12 from rfl, alignUp_eq, add64]
    omega
  rw [hlast, halign, sub64, pagesOf]
  omega

structure IoInv (root bmPud bmPmd bmPte k : Nat) (s : Ioremap) : Prop where
  tables : FixmapTables root bmPud bmPmd bmPte s.mem
  slotVirt : ∀ i < fixBtmapsSlots, s.slotVirt i = slotAddr i
  le : k ≤ fixBtmapsSlots
  used : ∀ i < k, s.prevMap i ≠ 0
  free : ∀ i, k ≤ i → i < fixBtmapsSlots → s.prevMap i = 0

theorem findSlot_eq {prevMap : Nat → Nat} {k n i : Nat} (hi : i ≤ k) (hused : ∀ j < k, prevMap j ≠ 0)
    (hfree : k < i + n → prevMap k = 0) : findSlot prevMap n i = if k < i + n then some k else none := by
  induction n generalizing i with
  | zero => rw [findSlot, if_neg (by omega)]
  | succ n ih =>
    rw [findSlot]
    by_cases hik : i = k
    · subst hik
      rw [if_pos (hfree (by omega)), if_pos (by omega)]
    · rw [if_neg (hused i (by omega)), ih (by omega) (fun h => hfree (by omega))]
      refine if_congr ?_ rfl rfl
      omega

def SlotWritten (bmPte phys k n : Nat) (m m' : Mem) : Prop :=
  ∀ j < endOfFixedAddresses, fixEntry bmPte m' j =
    if fixBtmapBegin - nrFixBtmaps * k - n < j ∧ j ≤ fixBtmapBegin - nrFixBtmaps * k then
      pfnPte (phys / 4096 + (fixBtmapBegin - nrFixBtmaps * k - j)) fixmapPageIo
    else fixEntry bmPte m j

inductive IoMove (root bmPud bmPmd bmPte phys size k : Nat) (s : Ioremap) : Option (Ioremap × Nat) → Prop
  | refused {s' : Ioremap} : s'.mem = s.mem → IoInv root bmPud bmPmd bmPte k s' →
      (k < fixBtmapsSlots → size ≠ 0 → phys + size ≤ 2 ^ 64 → nrFixBtmaps < pagesOf phys size % 2 ^ 32) →
      IoMove root bmPud bmPmd bmPte phys size k s (some (s', 0))
  | mapped {s' : Ioremap} : k < fixBtmapsSlots → size ≠ 0 → phys + size ≤ 2 ^ 64 →
      pagesOf phys size % 2 ^ 32 ≤ nrFixBtmaps → IoInv root bmPud bmPmd bmPte (k + 1) s' →
      SlotWritten bmPte phys k (pagesOf phys size % 2 ^ 32) s.mem s'.mem →
      IoMove root bmPud bmPmd bmPte phys size k s (some (s', slotAddr k + phys % 4096))

theorem fixmap_constants :
    fixBtmapBegin = 2308 ∧ endOfFixedAddresses = 2313 ∧ fixBtmapsSlots = 7 ∧ nrFixBtmaps = 256 := ⟨rfl, rfl, rfl, rfl⟩

theorem IoInv.mapSlot {k n : Nat} (h : IoInv root bmPud bmPmd bmPte k s) (hk : k < fixBtmapsSlots)
    (hn : n ≤ nrFixBtmaps) (hpages : phys / 4096 * 4096 + 4096 * n ≤ 2 ^ 64) (prevSize : Nat → Nat) :
    ∃ m', mapPages bmPte fixmapPageIo n (fixBtmapBegin - nrFixBtmaps * k) (phys / 4096 * 4096) s.mem = some m' ∧
      IoInv root bmPud bmPmd bmPte (k + 1) { s with
        mem := m', prevMap := Function.update s.prevMap k (slotAddr k + phys % 4096), prevSize := prevSize } ∧
      SlotWritten bmPte phys k n s.mem m' := by
  have hconst := fixmap_constants
  have hmul : nrFixBtmaps * k = 256 * k := rfl
  obtain ⟨m', hm', hentry, hout⟩ := @mapPages_eq bmPte (fixBtmapBegin - nrFixBtmaps * k)
    (phys / 4096 * 4096) s.mem fixmapPageIo (by decide) n (by omega) (by omega) hpages
  refine ⟨m', hm', ⟨h.tables.congr hout, h.slotVirt, by omega, ?_, ?_⟩, fun j hj => ?_⟩
  · intro i hi
    change Function.update s.prevMap k (slotAddr k + phys % 4096) i ≠ 0
    by_cases hik : i = k
    · rw [hik, Function.update_self, slotAddr_eq (by omega)]
      omega
    · rw [Function.update_of_ne hik]
      exact h.used i (by omega)
  · intro i hi hi7
    change Function.update s.prevMap k (slotAddr k + phys % 4096) i = 0
    rw [Function.update_of_ne (by omega)]
    exact h.free i (by omega) hi7
  · rw [hentry j hj, Nat.mul_div_cancel _ (by decide)]

theorem pagesOf_le (h0 : size ≠ 0) (hle : phys + size ≤ 2 ^ 64) :
    phys / 4096 * 4096 + 4096 * (pagesOf phys size % 2 ^ 32) ≤ 2 ^ 64 := by
  have hmod := Nat.mod_le (pagesOf phys size) (2 ^ 32)
  have hpages : phys / 4096 * 4096 + 4096 * pagesOf phys size ≤ 2 ^ 64 := by
    unfold pagesOf
    omega
  omega

theorem add64_slotAddr (hk : k < fixBtmapsSlots) (x : Nat) :
    add64 (x % 4096) (slotAddr k) = slotAddr k + x % 4096 := by
  have hslots : fixBtmapsSlots = 7 := rfl
  rw [slotAddr_eq (by omega), add64]
  omega

theorem IoInv.call (h : IoInv root bmPud bmPmd bmPte k s) (hp : phys < 2 ^ 64)
    (hs : size < 2 ^ 64) : IoMove root bmPud bmPmd bmPte phys size k s (earlyIoremap bmPte phys size s) := by
  have hfind : findSlot s.prevMap fixBtmapsSlots 0 = if k < 0 + fixBtmapsSlots then some k else none :=
    findSlot_eq (Nat.zero_le k) h.used (fun hk => h.free k (Nat.le_refl k) (by omega))
  unfold earlyIoremap
  rw [hfind, Nat.zero_add]
  by_cases hk : k < fixBtmapsSlots
  · rw [if_pos hk]
    dsimp only
    by_cases h0 : size = 0
    · rw [if_pos (.inl h0)]
      exact .refused rfl h (fun _ hne => absurd h0 hne)
    obtain ⟨hlast, hwrap⟩ := lastAddr_eq hp hs h0
    by_cases hle : phys + size ≤ 2 ^ 64
    · have hno : ¬ (size = 0 ∨ sub64 (add64 phys size) 1 < phys) := by
        rw [hwrap]
        omega
      rw [if_neg hno, hlast, nrpages_eq hp h0 hle]
      by_cases hn : nrFixBtmaps < pagesOf phys size % 2 ^ 32
      · rw [if_pos hn]
        exact .refused rfl ⟨h.tables, h.slotVirt, h.le, h.used, h.free⟩ (fun _ _ _ => hn)
      · obtain ⟨m', hm', hinv, hwritten⟩ := h.mapSlot hk (Nat.le_of_not_lt hn) (pagesOf_le h0 hle)
          (Function.update s.prevSize k size)
        rw [if_neg hn, hm', Option.map_some, h.slotVirt k hk, add64_slotAddr hk]
        exact .mapped hk h0 hle (Nat.le_of_not_lt hn) hinv hwritten
    · rw [if_pos (.inr (hwrap.mpr (Nat.lt_of_not_le hle)))]
      exact .refused rfl h (fun _ _ hle' => absurd hle' hle)
  · rw [if_neg hk]
    exact .refused rfl h (fun hlt => absurd hlt hk)

/-! ### Runs -/

structure IoCall where
  phys : Nat
  size : Nat
  result : Nat

def ioremapSystem (root bmPud bmPmd bmPte : Nat) : Trans.System Ioremap IoCall where
  init s := ∃ s₀, s = earlyIoremapSetup s₀ ∧ (∀ i, s₀.prevMap i = 0) ∧
    FixmapTables root bmPud bmPmd bmPte s₀.mem
  step s call s' := call.phys < 2 ^ 64 ∧ call.size < 2 ^ 64 ∧
    earlyIoremap bmPte call.phys call.size s = some (s', call.result)

/-- Every byte of the range of a call is mapped at the address it returned, as device memory. -/
def Windowed (root : Nat) (m : Mem) (call : IoCall) : Prop :=
  ∀ i < call.size, walk m 3 root (call.result + i) = some ⟨call.phys + i, protAttr fixmapPageIo⟩

def InSlot (call : IoCall) (k : Nat) : Prop :=
  slotAddr k ≤ call.result ∧ call.result + call.size ≤ slotAddr k + nrFixBtmaps * 4096

structure IoremapOk (root bmPte : Nat) (tr : List (Trans.Step Ioremap IoCall)) (s : Ioremap) : Prop where
  returns : ∀ phys < 2 ^ 64, ∀ size < 2 ^ 64, earlyIoremap bmPte phys size s ≠ none
  null : ∀ st ∈ tr, st.label.result = 0 →
    ∀ j < endOfFixedAddresses, fixEntry bmPte st.post.mem j = fixEntry bmPte st.pre.mem j
  mapped : ∀ st ∈ tr, st.label.result ≠ 0 →
    Windowed root st.post.mem st.label ∧ ∃ k < fixBtmapsSlots, InSlot st.label k
  kept : ∀ st ∈ tr, st.label.result ≠ 0 → Windowed root s.mem st.label
  disjoint : tr.Pairwise fun st st' => st.label.result ≠ 0 → st'.label.result ≠ 0 →
    st.label.result + st.label.size ≤ st'.label.result ∨ st'.label.result + st'.label.size ≤ st.label.result
  area : ∀ st ∈ tr, st.label.result ≠ 0 → fixToVirt fixBtmapBegin ≤ st.label.result ∧
    st.label.result + st.label.size ≤ fixToVirt fixBtmapEnd + 4096
  others : ∀ st ∈ tr, ∀ j < endOfFixedAddresses, j < fixBtmapEnd ∨ fixBtmapBegin < j →
    fixEntry bmPte st.post.mem j = fixEntry bmPte st.pre.mem j
  count : tr.countP (fun st => st.label.result ≠ 0) ≤ fixBtmapsSlots

def IoCall.Admitted (call : IoCall) (s : Ioremap) : Prop :=
  (∃ i < fixBtmapsSlots, s.prevMap i = 0) ∧ call.size ≠ 0 ∧ call.phys + call.size ≤ 2 ^ 64 ∧
    pagesOf call.phys call.size % 2 ^ 32 ≤ nrFixBtmaps

def IoCall.Mappable (call : IoCall) : Prop :=
  pagesOf call.phys call.size ≤ nrFixBtmaps ∧ call.phys + call.size ≤ 2 ^ 48

variable {call : IoCall}

theorem pagesOf_mul (h0 : call.size ≠ 0) :
    call.phys % 4096 + call.size ≤ 4096 * pagesOf call.phys call.size ∧
      4096 * pagesOf call.phys call.size < call.phys % 4096 + call.size + 4096 := by
  unfold pagesOf
  omega

def HoldsSlot (bmPte phys k n : Nat) (m : Mem) : Prop :=
  ∀ page < n, fixEntry bmPte m (fixBtmapBegin - nrFixBtmaps * k - page) = pfnPte (phys / 4096 + page) fixmapPageIo

theorem SlotWritten.holds {k n : Nat} (h : SlotWritten bmPte phys k n m m') (hk : k < fixBtmapsSlots)
    (hn : n ≤ nrFixBtmaps) : HoldsSlot bmPte phys k n m' := by
  intro page hpage
  have hconst := fixmap_constants
  have hmul : nrFixBtmaps * k = 256 * k := rfl
  rw [h _ (by omega), if_pos (by omega),
    show fixBtmapBegin - nrFixBtmaps * k - (fixBtmapBegin - nrFixBtmaps * k - page) = page by omega]

theorem SlotWritten.holds_earlier {k n i l phys' : Nat} (h : SlotWritten bmPte phys k n m m')
    (hk : k < fixBtmapsSlots) (hi : i < k) (hl : l ≤ nrFixBtmaps) (hold : HoldsSlot bmPte phys' i l m) :
    HoldsSlot bmPte phys' i l m' := by
  intro page hpage
  have hconst := fixmap_constants
  have hmul : nrFixBtmaps * k = 256 * k := rfl
  have hmul' : nrFixBtmaps * i = 256 * i := rfl
  rw [h _ (by omega), if_neg (by omega)]
  exact hold page hpage

theorem SlotWritten.others {k n j : Nat} (h : SlotWritten bmPte phys k n m m') (hk : k < fixBtmapsSlots)
    (hn : n ≤ nrFixBtmaps) (hj : j < endOfFixedAddresses) (hout : j < fixBtmapEnd ∨ fixBtmapBegin < j) :
    fixEntry bmPte m' j = fixEntry bmPte m j := by
  have hconst := fixmap_constants
  have hend : fixBtmapEnd = 517 := rfl
  have hmul : nrFixBtmaps * k = 256 * k := rfl
  rw [h j hj, if_neg (by omega)]

structure IoCall.Placed (call : IoCall) (k : Nat) : Prop where
  result : call.result = slotAddr k + call.phys % 4096
  size : call.size ≠ 0
  mappable : call.Mappable

theorem IoCall.Placed.windowed (h : call.Placed k) (hk : k < fixBtmapsSlots)
    (ht : FixmapTables root bmPud bmPmd bmPte m)
    (hold : HoldsSlot bmPte call.phys k (pagesOf call.phys call.size) m) : Windowed root m call := by
  intro i hi
  have hconst := fixmap_constants
  have hmul : nrFixBtmaps * k = 256 * k := rfl
  obtain ⟨hmap1, hmap2⟩ := h.mappable
  -- the page of the byte, counted from the first page of the range
  obtain ⟨page, hpage⟩ : ∃ page, page = (call.phys + i) / 4096 - call.phys / 4096 := ⟨_, rfl⟩
  have hlt : page < pagesOf call.phys call.size := by
    unfold pagesOf
    omega
  have hidx : fixBtmapBegin - nrFixBtmaps * k - page < endOfFixedAddresses := by omega
  have hva : call.result + i = fixToVirt (fixBtmapBegin - nrFixBtmaps * k - page) + (call.phys + i) % 4096 := by
    rw [h.result, slotAddr_eq (by omega), fixToVirt, fixaddrTop]
    omega
  rw [hva, ht.walk (by omega) hidx (Nat.mod_lt _ (by decide)), hold page hlt,
    leafOf_pfnPte ⟨by unfold NoAddr; decide, by decide⟩ (by omega)]
  congr 2
  omega

theorem IoCall.Placed.inSlot (h : call.Placed k) : InSlot call k := by
  have hmul := pagesOf_mul h.size
  have hmap := h.mappable.1
  rw [InSlot, h.result]
  omega

theorem InSlot.disjoint {call call' : IoCall} {i k : Nat} (h : InSlot call i) (h' : InSlot call' k) (hik : i < k)
    (hk : k < fixBtmapsSlots) : call.result + call.size ≤ call'.result := by
  have hconst := fixmap_constants
  unfold InSlot at h h'
  rw [slotAddr_eq (by omega)] at h h'
  omega

theorem InSlot.area (h : InSlot call k) (hk : k < fixBtmapsSlots) :
    fixToVirt fixBtmapBegin ≤ call.result ∧ call.result + call.size ≤ fixToVirt fixBtmapEnd + 4096 := by
  have hconst := fixmap_constants
  have hfirst : fixToVirt fixBtmapBegin = 0xffffffffff800000 - 2308 * 4096 := rfl
  have hlast : fixToVirt fixBtmapEnd = 0xffffffffff800000 - 517 * 4096 := rfl
  unfold InSlot at h
  rw [slotAddr_eq (by omega)] at h
  omega

section Run

variable {tr : List (Trans.Step Ioremap IoCall)}

theorem slotAddr_ne_zero (hk : k < fixBtmapsSlots) (x : Nat) : slotAddr k + x ≠ 0 := by
  have hslots : fixBtmapsSlots = 7 := rfl
  rw [slotAddr_eq (by omega)]
  omega

theorem exists_ioInv (h : (ioremapSystem root bmPud bmPmd bmPte).Run tr s) :
    IoInv root bmPud bmPmd bmPte (tr.countP fun st => st.label.result ≠ 0) s := by
  induction h with
  | nil hinit =>
    obtain ⟨s₀, rfl, hfree, htab⟩ := hinit
    refine ⟨htab, fun i hi => ?_, Nat.zero_le _, fun i hi => absurd hi (Nat.not_lt_zero i), fun i _ _ => hfree i⟩
    exact if_pos hi
  | @cons tr s s' call _ hstep ih =>
    obtain ⟨hp, hs, hcall⟩ := hstep
    have hmove := ih.call hp hs
    generalize hr : earlyIoremap bmPte call.phys call.size s = r at hmove hcall
    cases hmove with
    | refused hmem hinv _ =>
      obtain ⟨rfl, h0⟩ := Prod.mk.inj (Option.some.inj hcall)
      rw [List.countP_cons_of_neg (by simp [← h0])]
      exact hinv
    | mapped hk _ _ _ hinv _ =>
      obtain ⟨rfl, h0⟩ := Prod.mk.inj (Option.some.inj hcall)
      have hne : call.result ≠ 0 := by
        rw [← h0]
        exact slotAddr_ne_zero hk _
      rw [List.countP_cons_of_pos (by simpa using hne)]
      exact hinv

/-- What one call does: it is refused and writes nothing, or it takes the next slot. -/
theorem ioremap_step_cases (h : (ioremapSystem root bmPud bmPmd bmPte).Run tr s)
    (hstep : (ioremapSystem root bmPud bmPmd bmPte).step s call s')
    (hk : k = tr.countP fun st => st.label.result ≠ 0) :
    call.result = 0 ∧ ¬ call.Admitted s ∧ s'.mem = s.mem ∨
      call.result = slotAddr k + call.phys % 4096 ∧ call.Admitted s ∧ k < fixBtmapsSlots ∧
        SlotWritten bmPte call.phys k (pagesOf call.phys call.size % 2 ^ 32) s.mem s'.mem := by
  have hI := exists_ioInv h
  rw [← hk] at hI
  have hmove := hI.call hstep.1 hstep.2.1
  generalize hr : earlyIoremap bmPte call.phys call.size s = r at hmove
  rw [hstep.2.2] at hr
  cases hmove with
  | refused hmem _ hno =>
    obtain ⟨rfl, h0⟩ := Prod.mk.inj (Option.some.inj hr)
    refine .inl ⟨h0, ?_, hmem⟩
    rintro ⟨⟨i, hi, hfree⟩, hsize, hle, hn⟩
    have hlt : k < fixBtmapsSlots := by
      by_contra hge
      exact hI.used i (by omega) hfree
    exact absurd hn (Nat.not_le.mpr (hno hlt hsize hle))
  | mapped hlt h0 hle hn _ hw =>
    obtain ⟨rfl, hres⟩ := Prod.mk.inj (Option.some.inj hr)
    exact .inr ⟨hres, ⟨⟨k, hlt, hI.free k (Nat.le_refl k) hlt⟩, h0, hle, hn⟩, hlt, hw⟩

theorem result_ne_zero_iff (h : (ioremapSystem root bmPud bmPmd bmPte).Run tr s)
    (hstep : (ioremapSystem root bmPud bmPmd bmPte).step s call s') : call.result ≠ 0 ↔ call.Admitted s := by
  rcases ioremap_step_cases h hstep rfl with ⟨h0, hno, -⟩ | ⟨hres, hadm, hk, -⟩
  · exact iff_of_false (not_not.mpr h0) hno
  · rw [hres]
    exact iff_of_true (slotAddr_ne_zero hk _) hadm

theorem placed_of_step (h : (ioremapSystem root bmPud bmPmd bmPte).Run tr s)
    (hstep : (ioremapSystem root bmPud bmPmd bmPte).step s call s') (hres : call.result ≠ 0)
    (hmap : call.Mappable) (hk : k = tr.countP fun st => st.label.result ≠ 0) :
    k < fixBtmapsSlots ∧ call.Placed k ∧ SlotWritten bmPte call.phys k (pagesOf call.phys call.size) s.mem s'.mem := by
  have hmod : pagesOf call.phys call.size % 2 ^ 32 = pagesOf call.phys call.size :=
    Nat.mod_eq_of_lt (Nat.lt_of_le_of_lt hmap.1 (by decide))
  rcases ioremap_step_cases h hstep hk with ⟨h0, -, -⟩ | ⟨hres', hadm, hlt, hw⟩
  · exact absurd h0 hres
  · rw [hmod] at hw
    exact ⟨hlt, ⟨hres', hadm.2.1, hmap⟩, hw⟩

theorem windows_of_run (h : (ioremapSystem root bmPud bmPmd bmPte).Run tr s)
    (hall : ∀ st ∈ tr, st.label.Admitted st.pre → st.label.Mappable) :
    (∀ st ∈ tr, st.label.result ≠ 0 → ∃ i < tr.countP fun st => st.label.result ≠ 0, st.label.Placed i ∧
      HoldsSlot bmPte st.label.phys i (pagesOf st.label.phys st.label.size) s.mem) ∧
    tr.Pairwise fun st st' => st.label.result ≠ 0 → st'.label.result ≠ 0 →
      st.label.result + st.label.size ≤ st'.label.result ∨ st'.label.result + st'.label.size ≤ st.label.result := by
  induction h with
  | nil _ => simp
  | @cons tr s s' call hrun hstep ih =>
    obtain ⟨hwin, hdis⟩ := ih fun st hst => hall st (List.mem_cons_of_mem _ hst)
    have hlast := hall ⟨s, call, s'⟩ List.mem_cons_self
    by_cases hres : call.result = 0
    · -- a call that is refused changes nothing
      have hmem : s'.mem = s.mem := by
        rcases ioremap_step_cases hrun hstep rfl with ⟨-, -, hmem⟩ | ⟨hres', -, hk, -⟩
        · exact hmem
        · exact absurd (hres'.symm.trans hres) (slotAddr_ne_zero hk _)
      rw [List.countP_cons_of_neg (by simp [hres]), hmem]
      refine ⟨fun st hst hne => ?_, List.pairwise_cons.mpr ⟨fun st _ hne => absurd hres hne, hdis⟩⟩
      rcases List.mem_cons.mp hst with rfl | hst
      · exact absurd hres hne
      · exact hwin st hst hne
    · obtain ⟨hk, hplaced, hw⟩ := placed_of_step hrun hstep hres
        (hlast ((result_ne_zero_iff hrun hstep).mp hres)) rfl
      rw [List.countP_cons_of_pos (by simpa using hres)]
      refine ⟨fun st hst hne => ?_, List.pairwise_cons.mpr ⟨fun st hst _ hne => ?_, hdis⟩⟩
      · rcases List.mem_cons.mp hst with rfl | hst
        · exact ⟨_, Nat.lt_succ_self _, hplaced, hw.holds hk hplaced.mappable.1⟩
        · obtain ⟨i, hi, hpl, hold⟩ := hwin st hst hne
          exact ⟨i, Nat.lt_succ_of_lt hi, hpl, hw.holds_earlier hk hi hpl.mappable.1 hold⟩
      · obtain ⟨i, hi, hpl, -⟩ := hwin st hst hne
        exact .inr (hpl.inSlot.disjoint hplaced.inSlot hi hk)

theorem mappable_of_windowed (h0 : call.size ≠ 0) {k i : Nat} (hk : k < fixBtmapsSlots)
    (hi : i < fixBtmapsSlots) (hres : call.result = slotAddr k + call.phys % 4096)
    (hwin : Windowed root m call) (hslot : InSlot call i) : call.Mappable := by
  have hconst := fixmap_constants
  have hmul := pagesOf_mul h0
  have hlast := walk_pa_lt (hwin (call.size - 1) (Nat.sub_lt (Nat.pos_of_ne_zero h0) Nat.one_pos))
  dsimp only at hlast
  unfold InSlot at hslot
  rw [hres, slotAddr_eq (by omega), slotAddr_eq (by omega)] at hslot
  constructor <;> omega

/-- In every sequence of calls, `early_ioremap` keeps its contract iff every range that it does not
refuse has at most `NR_FIX_BTMAPS` pages and ends within the 48-bit physical address space. -/
theorem earlyIoremap_ok_iff (h : (ioremapSystem root bmPud bmPmd bmPte).Run tr s) :
    IoremapOk root bmPte tr s ↔ ∀ st ∈ tr, st.label.Admitted st.pre → st.label.Mappable := by
  have hsteps : ∀ st ∈ tr, ∃ earlier, (ioremapSystem root bmPud bmPmd bmPte).Run earlier st.pre ∧
      (ioremapSystem root bmPud bmPmd bmPte).step st.pre st.label st.post := by
    intro st hst
    obtain ⟨later, earlier, rfl⟩ := List.append_of_mem hst
    exact ⟨earlier, h.of_append⟩
  constructor
  · intro hok st hst hadm
    obtain ⟨earlier, hrun, hstep⟩ := hsteps st hst
    have hne := (result_ne_zero_iff hrun hstep).mpr hadm
    obtain ⟨hwin, i, hi, hslot⟩ := hok.mapped st hst hne
    rcases ioremap_step_cases hrun hstep rfl with ⟨h0, -, -⟩ | ⟨hres, -, hk, -⟩
    · exact absurd h0 hne
    · exact mappable_of_windowed hadm.2.1 hk hi hres hwin hslot
  · intro hall
    have hI := exists_ioInv h
    obtain ⟨hwin, hdis⟩ := windows_of_run h hall
    have hslot : ∀ st ∈ tr, st.label.result ≠ 0 → ∃ k < fixBtmapsSlots, InSlot st.label k := by
      intro st hst hne
      obtain ⟨i, hi, hpl, -⟩ := hwin st hst hne
      exact ⟨i, Nat.lt_of_lt_of_le hi hI.le, hpl.inSlot⟩
    refine ⟨fun phys hp size hs hnone => ?_, fun st hst h0 j _ => ?_, fun st hst hne => ⟨?_, hslot st hst hne⟩,
      fun st hst hne => ?_, hdis, fun st hst hne => ?_, fun st hst j hj hout => ?_, hI.le⟩
    · have hmove := hI.call hp hs
      rw [hnone] at hmove
      cases hmove
    · obtain ⟨earlier, hrun, hstep⟩ := hsteps st hst
      rcases ioremap_step_cases hrun hstep rfl with ⟨-, -, hmem⟩ | ⟨hres, -, hk, -⟩
      · rw [hmem]
      · exact absurd (hres.symm.trans h0) (slotAddr_ne_zero hk _)
    · obtain ⟨earlier, hrun, hstep⟩ := hsteps st hst
      obtain ⟨hk, hpl, hw⟩ := placed_of_step hrun hstep hne
        (hall st hst ((result_ne_zero_iff hrun hstep).mp hne)) rfl
      exact hpl.windowed hk (exists_ioInv (hrun.next st.label hstep)).tables (hw.holds hk hpl.mappable.1)
    · obtain ⟨i, hi, hpl, hold⟩ := hwin st hst hne
      exact hpl.windowed (Nat.lt_of_lt_of_le hi hI.le) hI.tables hold
    · obtain ⟨k, hk, hin⟩ := hslot st hst hne
      exact hin.area hk
    · obtain ⟨earlier, hrun, hstep⟩ := hsteps st hst
      rcases ioremap_step_cases hrun hstep rfl with ⟨-, -, hmem⟩ | ⟨-, hadm, hk, hw⟩
      · rw [hmem]
      · exact hw.others hk hadm.2.2.2 hj hout

end Run

/-! ### The state in which the calls start -/

/-- `early_fixmap_init` leaves what the calls of `early_ioremap` start from. -/
theorem earlyFixmapInit_tables {s : VmState} (h : FixmapPages root bmPud bmPmd bmPte s) :
    FixmapTables root bmPud bmPmd bmPte (earlyFixmapInit root bmPud bmPmd bmPte s.mem) := by
  have hl := h.linked
  have hpage : ∀ j < 5, bmPte + 4096 * j ≠ root ∧ (bmPte + 4096 * j) % 4096 = 0 ∧ bmPte + 4096 * j < 2 ^ 48 := by
    intro j hj
    have hp := h.page _ (.inr (.inr ⟨j, hj, rfl⟩))
    refine ⟨?_, hp.1, hp.2.1⟩
    intro he
    exact hp.2.2.1 (he ▸ foot_self ..)
  have hpud := h.page bmPud (.inl rfl)
  have hpmd := h.page bmPmd (.inr (.inl rfl))
  have hroot := h.tree.aligned
  have h0 := hpage 0 (by decide)
  have h4 := hpage 4 (by decide)
  refine ⟨⟨hroot, hpud.1, hpmd.1, h0.2.1⟩, ⟨hpud.2.1, hpmd.2.1, ?_⟩, fun t ht => ?_, ?_, ?_, fun j hj => ?_⟩
  · omega
  · -- a page that is none of the five tables lies before or behind them
    have hne : t % 4096 = 0 ∧ ∀ j < 5, bmPte + 4096 * j ≠ t := by
      rcases ht with rfl | rfl | rfl
      · exact ⟨hroot, fun j hj => (hpage j hj).1⟩
      · exact ⟨hpud.1, fun j hj => (h.ne.2 j hj).1⟩
      · exact ⟨hpmd.1, fun j hj => (h.ne.2 j hj).2⟩
    have hj := hne.2 ((t - bmPte) / 4096)
    omega
  · rw [hl.root 511 (by decide), if_pos rfl]
  · rw [hl.pud 511 (by decide), if_pos rfl]
  · rw [hl.pmd (503 + j) (by omega), if_pos (by omega), Nat.add_sub_cancel_left]

theorem bootKernel_tables : FixmapTables 0x40000000 0x40001000 0x40002000 0x40003000
    (earlyFixmapInit 0x40000000 0x40001000 0x40002000 0x40003000 (bootKernel 0).mem) :=
  earlyFixmapInit_tables (bootKernel_pages 0)

def fixmapOnly : Ioremap where
  mem := earlyFixmapInit 0x1000 0x2000 0x3000 0x4000 (fun _ => 0)
  prevMap _ := 0
  prevSize _ := 0
  slotVirt _ := 0

theorem fixmapOnly_tables : FixmapTables 0x1000 0x2000 0x3000 0x4000 fixmapOnly.mem where
  aligned := by decide
  lt := by decide
  apart t ht := by omega
  root := by decide +kernel
  pud := by decide +kernel
  pmd := by decide +kernel

theorem fixmapOnly_run : (ioremapSystem 0x1000 0x2000 0x3000 0x4000).Run [] (earlyIoremapSetup fixmapOnly) :=
  .nil ⟨fixmapOnly, rfl, fun _ => rfl, fixmapOnly_tables⟩

theorem fixmapOnly_call {phys size : Nat} (hp : phys < 2 ^ 64) (hs : size < 2 ^ 64) (h0 : size ≠ 0)
    (hle : phys + size ≤ 2 ^ 64) (hn : pagesOf phys size % 2 ^ 32 ≤ nrFixBtmaps) :
    ∃ s', (ioremapSystem 0x1000 0x2000 0x3000 0x4000).Run
      [⟨earlyIoremapSetup fixmapOnly, ⟨phys, size, slotAddr 0 + phys % 4096⟩, s'⟩] s' := by
  have hmove := (exists_ioInv fixmapOnly_run).call hp hs
  generalize hr : earlyIoremap 0x4000 phys size (earlyIoremapSetup fixmapOnly) = r at hmove
  cases hmove with
  | refused _ _ hno => exact absurd hn (Nat.not_le.mpr (hno (by decide) h0 hle))
  | @mapped s' _ _ _ _ _ _ => exact ⟨s', fixmapOnly_run.next _ ⟨hp, hs, hr⟩⟩

/-- The registers of a serial port. -/
theorem earlyIoremap_ok_iff_uart : ∃ s', (ioremapSystem 0x1000 0x2000 0x3000 0x4000).Run
      [⟨earlyIoremapSetup fixmapOnly, ⟨0x9000000, 0x1000, slotAddr 0 + 0x9000000 % 4096⟩, s'⟩] s' ∧
    IoremapOk 0x1000 0x4000
      [⟨earlyIoremapSetup fixmapOnly, ⟨0x9000000, 0x1000, slotAddr 0 + 0x9000000 % 4096⟩, s'⟩] s' := by
  obtain ⟨s', hrun⟩ := @fixmapOnly_call 0x9000000 0x1000 (by decide) (by decide) (by decide) (by decide) (by decide)
  refine ⟨s', hrun, (earlyIoremap_ok_iff hrun).mpr fun st hst _ => ?_⟩
  rw [List.mem_singleton.mp hst]
  exact ⟨show pagesOf 0x9000000 0x1000 ≤ nrFixBtmaps by decide, show 0x9000000 + 0x1000 ≤ 2 ^ 48 by decide⟩

/-- For a range of 2^44 bytes the number of pages is narrowed to 0: an address is returned and
nothing is mapped there. -/
theorem earlyIoremap_narrowed : ¬ ∀ (root bmPud bmPmd bmPte : Nat) (tr : List (Trans.Step Ioremap IoCall))
    (s : Ioremap), (ioremapSystem root bmPud bmPmd bmPte).Run tr s → IoremapOk root bmPte tr s := by
  intro hall
  obtain ⟨s', hrun⟩ := @fixmapOnly_call 0 (2 ^ 44) (by decide) (by decide) (by decide) (by decide) (by decide)
  have hne : slotAddr 0 + 0 % 4096 ≠ 0 := slotAddr_ne_zero (by decide) _
  obtain ⟨hwin, i, hi, hslot⟩ := (hall _ _ _ _ _ _ hrun).mapped _ List.mem_cons_self hne
  have hmap := mappable_of_windowed (show 2 ^ 44 ≠ 0 by decide) (show 0 < fixBtmapsSlots by decide) hi rfl hwin hslot
  exact absurd hmap.1 (show ¬ pagesOf 0 (2 ^ 44) ≤ nrFixBtmaps by decide)

end QuestOS
