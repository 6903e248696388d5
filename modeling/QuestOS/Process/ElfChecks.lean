import QuestOS.Process.Loader

/-!
# What the checks of the ELF loader guarantee

The size of the table of program headers is checked by a sum that may wrap, so that the table can begin
before the image; without a wrap everything that the loader reads or points to lies in the image
(`elfBounds_iff`).

The overlap check compares with the size of a segment in place of its end.  `checkRegions_eq_zero` says
which tables of program headers pass the region checks, and `checkRegions_exact_iff` when these are the
ones whose ranges are disjoint.
-/

namespace QuestOS

open Bytes

variable {m : Mem} {elfBase size n p i : Nat}

/-! ### Bounds -/

def phdrAddr (m : Mem) (elfBase i : Nat) : Nat :=
  add64 (add64 elfBase (ElfHeader.load m elfBase).phoff) (i * sizeofElfPhdr)

theorem mem_loadHeaders {ph : ElfPhdr} (hp : p < 2 ^ 64) :
    ph ∈ loadHeaders m n p ↔ ∃ i < n, ph = ElfPhdr.load m (add64 p (i * sizeofElfPhdr)) ∧ ph.type = ptLoad := by
  induction n generalizing p with
  | zero => simp [loadHeaders]
  | succ n ih =>
    have hnext : add64 p sizeofElfPhdr < 2 ^ 64 := Nat.mod_lt _ (by decide)
    have hzero : add64 p (0 * sizeofElfPhdr) = p := by
      unfold add64
      omega
    have hsucc : ∀ i, add64 (add64 p sizeofElfPhdr) (i * sizeofElfPhdr) = add64 p ((i + 1) * sizeofElfPhdr) := by
      intro i
      unfold add64 sizeofElfPhdr
      omega
    have htail : (∃ i < n, ph = ElfPhdr.load m (add64 p ((i + 1) * sizeofElfPhdr)) ∧ ph.type = ptLoad) ↔
        ph ∈ loadHeaders m n (add64 p sizeofElfPhdr) := by
      rw [ih hnext]
      simp only [hsucc]
    rw [loadHeaders, Nat.exists_lt_succ_left, hzero, htail]
    split
    · rename_i htype
      rw [List.mem_cons]
      refine or_congr_left ⟨fun h => ⟨h, h ▸ htype⟩, fun h => h.1⟩
    · rename_i htype
      constructor
      · exact .inr
      · rintro (⟨rfl, h⟩ | h)
        · exact absurd h htype
        · exact h

/-- What the loader reads and points to lies in the image of `size` bytes, and no sum wraps. -/
structure ElfBounds (m : Mem) (elfBase size : Nat) : Prop where
  header : ∀ i < (ElfHeader.load m elfBase).phnum,
    phdrAddr m elfBase i = elfBase + (ElfHeader.load m elfBase).phoff + i * sizeofElfPhdr ∧
      phdrAddr m elfBase i + sizeofElfPhdr ≤ elfBase + size
  segment : ∀ ph ∈ imageHeaders m elfBase, checkElfPh ph size = 0 → ∀ self,
    (segmentOf elfBase self ph).pa = elfBase + ph.offset ∧
      (segmentOf elfBase self ph).zeroStart = elfBase + ph.offset + ph.filesz ∧
      elfBase + ph.offset + ph.filesz ≤ elfBase + size

/-- The segments of the headers that `check_elf_ph` accepts are inside in any case. -/
theorem segmentOf_bounds {ph : ElfPhdr} (hfit : elfBase + size < 2 ^ 64) (hcheck : checkElfPh ph size = 0) (self : Nat) :
    (segmentOf elfBase self ph).pa = elfBase + ph.offset ∧
      (segmentOf elfBase self ph).zeroStart = elfBase + ph.offset + ph.filesz ∧
      elfBase + ph.offset + ph.filesz ≤ elfBase + size := by
  obtain ⟨h1, h2, -, -⟩ := (checkElfPh_eq_zero ph).mp hcheck
  have hpa : add64 elfBase ph.offset = elfBase + ph.offset := Nat.mod_eq_of_lt (by omega)
  refine ⟨hpa, ?_, by omega⟩
  change add64 (add64 elfBase ph.offset) ph.filesz = _
  rw [hpa]
  exact Nat.mod_eq_of_lt (by omega)

theorem checkElf64Aarch64_eq_zero (hcheck : checkElf64Aarch64 m elfBase size = 0) :
    (ElfHeader.load m elfBase).phnum ≠ 0 ∧
      add64 (ElfHeader.load m elfBase).phoff ((ElfHeader.load m elfBase).phnum * sizeofElfPhdr) ≤ size := by
  simp only [checkElf64Aarch64, ite_negEinval_eq_zero, Nat.not_lt] at hcheck
  obtain ⟨-, -, -, -, -, -, h1, h2, -⟩ := hcheck
  exact ⟨h1, h2⟩

/-- An image whose header passes the check stays inside its bounds if and only if the size that the check
computes does not wrap. -/
theorem elfBounds_iff (m : Mem) (elfBase size : Nat) (hfit : elfBase + size < 2 ^ 64)
    (hcheck : checkElf64Aarch64 m elfBase size = 0) :
    ElfBounds m elfBase size ↔
      (ElfHeader.load m elfBase).phoff + (ElfHeader.load m elfBase).phnum * sizeofElfPhdr < 2 ^ 64 := by
  obtain ⟨hnum, hsize⟩ := checkElf64Aarch64_eq_zero hcheck
  constructor
  · intro hb
    -- the last header ends inside the image
    obtain ⟨h1, h2⟩ := hb.header ((ElfHeader.load m elfBase).phnum - 1) (by omega)
    unfold sizeofElfPhdr at *
    omega
  · intro hnowrap
    refine ⟨fun i hi => ?_, fun ph _ hph self => segmentOf_bounds hfit hph self⟩
    unfold phdrAddr add64 sizeofElfPhdr at *
    omega

def elfHeaderBytes (phoff phnum : Nat) : List UInt8 :=
  [0x7f, 0x45, 0x4c, 0x46, 2, 1, 1, 0, 0, 0, 0, 0, 0, 0, 0, 0] ++
    encodeFields [(2, 2), (2, emAarch64), (4, 1), (8, processImageStart), (8, phoff), (8, 0), (4, 0), (2, 64), (2, 56),
      (2, phnum), (2, 0), (2, 0), (2, 0)]

def elfPhdrBytes (ph : ElfPhdr) : List UInt8 :=
  encodeFields [(4, ph.type), (4, ph.flags), (8, ph.offset), (8, ph.vaddr), (8, ph.vaddr), (8, ph.filesz), (8, ph.memsz),
    (8, 4096)]

def memoryOf (bytes : List UInt8) : Mem := fun x => if x < 0x1000 then 0 else bytes.getD (x - 0x1000) 0

/-- The table of an image of one page begins before the image. -/
theorem elf_table_before_image : checkElf64Aarch64 (memoryOf (elfHeaderBytes (2 ^ 64 - 56) 1)) 0x1000 0x1000 = 0 ∧
    phdrAddr (memoryOf (elfHeaderBytes (2 ^ 64 - 56) 1)) 0x1000 0 = 0x1000 - 56 ∧
    ¬ ElfBounds (memoryOf (elfHeaderBytes (2 ^ 64 - 56) 1)) 0x1000 0x1000 := by
  have haddr : phdrAddr (memoryOf (elfHeaderBytes (2 ^ 64 - 56) 1)) 0x1000 0 = 0x1000 - 56 := by decide +kernel
  refine ⟨by decide +kernel, haddr, fun hb => ?_⟩
  have h1 := (hb.header 0 (by decide +kernel)).1
  rw [haddr] at h1
  omega

def onePage : List ElfPhdr := [⟨ptLoad, 5, 0, processImageStart, 0x1000, 0x1000⟩]

def elfImage (phs : List ElfPhdr) : List UInt8 := elfHeaderBytes 64 phs.length ++ phs.flatMap elfPhdrBytes

theorem elfBounds_onePage : ElfBounds (memoryOf (elfImage onePage)) 0x1000 0x1000 :=
  (elfBounds_iff _ 0x1000 0x1000 (by decide) (by decide +kernel)).mpr (by decide +kernel)

/-! ### Regions -/

def checkRegions (elfBase : Nat) : List VmemSegment → List ElfPhdr → Int
  | _, [] => 0
  | segs, ph :: phs =>
    if checkSectionRegionValid segs ph ≠ 0 then checkSectionRegionValid segs ph
    else checkRegions elfBase (segs ++ [segmentOf elfBase 0 ph]) phs

def PassesOverlap (a b : ElfPhdr) : Prop := b.memsz ≤ a.vaddr ∨ a.vaddr + a.memsz ≤ b.vaddr

theorem checkVmemRegionOverlap_eq_zero {segs : List VmemSegment} {start fin : Nat} :
    checkVmemRegionOverlap segs start fin = 0 ↔ ∀ seg ∈ segs, fin ≤ seg.vaStart ∨ seg.vaEnd ≤ start := by
  induction segs with
  | nil => simp [checkVmemRegionOverlap]
  | cons seg segs ih =>
    rw [checkVmemRegionOverlap, List.forall_mem_cons]
    split
    · rename_i h
      rw [ih]
      exact ⟨fun h' => ⟨h, h'⟩, fun h' => h'.2⟩
    · rename_i h
      exact ⟨fun h' => absurd h' (by decide), fun h' => absurd h'.1 h⟩

def ElfPhdr.Small (ph : ElfPhdr) : Prop := ph.vaddr < 2 ^ 64 ∧ ph.memsz < 2 ^ 64

theorem small_imageHeaders (m : Mem) (elfBase : Nat) : ∀ ph ∈ imageHeaders m elfBase, ph.Small := by
  intro ph hph
  obtain ⟨i, -, rfl, -⟩ := (mem_loadHeaders (Nat.mod_lt _ (by decide))).mp hph
  exact ElfPhdr.load_lt m _

theorem ElfPhdr.InWindow.vaEnd {ph : ElfPhdr} (h : ph.InWindow) (self : Nat) :
    (segmentOf elfBase self ph).vaEnd = ph.vaddr + ph.memsz := by
  have h1 := h.2
  have hend : processImageEnd = 0x140000000 := by decide
  exact Nat.mod_eq_of_lt (by omega)

theorem checkRegions_eq_zero {segs : List VmemSegment} {phs : List ElfPhdr} (hsmall : ∀ ph ∈ phs, ph.Small) :
    checkRegions elfBase segs phs = 0 ↔
      (∀ ph ∈ phs, ph.InWindow ∧ ∀ seg ∈ segs, ph.memsz ≤ seg.vaStart ∨ seg.vaEnd ≤ ph.vaddr) ∧
        phs.Pairwise PassesOverlap := by
  induction phs generalizing segs with
  | nil => simp [checkRegions]
  | cons ph phs ih =>
    rw [List.forall_mem_cons] at hsmall
    have hhead : checkSectionRegionValid segs ph = 0 ↔ ph.InWindow ∧ checkVmemRegionOverlap segs ph.vaddr ph.memsz = 0 :=
      checkSectionRegionValid_eq_zero hsmall.1.1 hsmall.1.2
    rw [checkVmemRegionOverlap_eq_zero] at hhead
    rw [checkRegions, List.forall_mem_cons, List.pairwise_cons]
    split
    · rename_i h
      exact ⟨fun h' => absurd h' h, fun h' => absurd (hhead.mpr h'.1.1) h⟩
    · rename_i h
      have hph := hhead.mp (not_not.mp h)
      have hnew : ∀ b : ElfPhdr, b.memsz ≤ (segmentOf elfBase 0 ph).vaStart ∨ (segmentOf elfBase 0 ph).vaEnd ≤ b.vaddr ↔
          PassesOverlap ph b := by
        intro b
        rw [hph.1.vaEnd]
        exact Iff.rfl
      rw [ih hsmall.2]
      simp only [List.forall_mem_append, List.forall_mem_singleton, hnew]
      constructor
      · rintro ⟨h1, h2⟩
        exact ⟨⟨hph, fun b hb => ⟨(h1 b hb).1, (h1 b hb).2.1⟩⟩, fun b hb => (h1 b hb).2.2, h2⟩
      · rintro ⟨⟨-, h1⟩, h2, h3⟩
        exact ⟨fun b hb => ⟨(h1 b hb).1, (h1 b hb).2, h2 b hb⟩, h3⟩

def ElfPhdr.Overlaps (a b : ElfPhdr) : Prop :=
  a.memsz ≠ 0 ∧ b.memsz ≠ 0 ∧ b.vaddr < a.vaddr + a.memsz ∧ a.vaddr < b.vaddr + b.memsz

/-- The ranges lie in the window of the image, and those that are not empty are disjoint. -/
def RegionsOk (phs : List ElfPhdr) : Prop :=
  (∀ ph ∈ phs, ph.InWindow) ∧ phs.Pairwise fun a b => ¬ a.Overlaps b

def SomeOverlap (phs : List ElfPhdr) : Prop := ∃ a b, [a, b].Sublist phs ∧ a.Overlaps b

def SomeCaught (phs : List ElfPhdr) : Prop :=
  ∃ a b, [a, b].Sublist phs ∧ a.vaddr < b.memsz ∧ b.vaddr < a.vaddr + a.memsz

theorem not_someOverlap_iff {phs : List ElfPhdr} : ¬ SomeOverlap phs ↔ phs.Pairwise fun a b => ¬ a.Overlaps b := by
  rw [List.pairwise_iff_forall_sublist]
  simp only [SomeOverlap, not_exists, not_and]

theorem not_someCaught_iff {phs : List ElfPhdr} : ¬ SomeCaught phs ↔ phs.Pairwise PassesOverlap := by
  rw [List.pairwise_iff_forall_sublist]
  simp only [SomeCaught, not_exists, not_and, Nat.not_lt, PassesOverlap]
  constructor
  · intro h a b hab
    have := h a b hab
    omega
  · intro h a b hab
    have := h hab
    omega

/-- The region checks accept an image if and only if its ranges are disjoint and in the window, exactly for
these images: one of the ranges leaves the window, or the check catches something if and only if there is
an overlap. -/
theorem checkRegions_exact_iff (m : Mem) (elfBase : Nat) :
    (checkRegions elfBase [] (imageHeaders m elfBase) = 0 ↔ RegionsOk (imageHeaders m elfBase)) ↔
      (∃ ph ∈ imageHeaders m elfBase, ¬ ph.InWindow) ∨
        (SomeOverlap (imageHeaders m elfBase) ↔ SomeCaught (imageHeaders m elfBase)) := by
  rw [checkRegions_eq_zero (small_imageHeaders m elfBase), RegionsOk, ← not_someOverlap_iff, ← not_someCaught_iff]
  generalize imageHeaders m elfBase = phs
  simp only [List.not_mem_nil, false_implies, implies_true, and_true]
  by_cases hwin : ∀ ph ∈ phs, ph.InWindow
  · have hno : ¬ ∃ ph ∈ phs, ¬ ph.InWindow := by
      rintro ⟨ph, hph, h⟩
      exact h (hwin ph hph)
    rw [and_iff_right hwin, and_iff_right hwin, or_iff_right hno, not_iff_not]
    exact iff_comm
  · have hsome : ∃ ph ∈ phs, ¬ ph.InWindow := by
      simpa only [not_forall, exists_prop] using hwin
    exact iff_of_true ⟨fun h => absurd h.1 hwin, fun h => absurd h.1 hwin⟩ (.inl hsome)

def twicePage : List ElfPhdr := onePage ++ onePage

/-- The loader accepts two segments at the same address. -/
theorem twicePage_accepted : imageHeaders (memoryOf (elfImage twicePage)) 0x1000 = twicePage ∧
    ¬ (checkRegions 0x1000 [] (imageHeaders (memoryOf (elfImage twicePage)) 0x1000) = 0 ↔
      RegionsOk (imageHeaders (memoryOf (elfImage twicePage)) 0x1000)) := by
  have hphs : imageHeaders (memoryOf (elfImage twicePage)) 0x1000 = twicePage := by decide +kernel
  refine ⟨hphs, ?_⟩
  rw [hphs]
  intro h
  have hok : RegionsOk twicePage := h.mp (by decide)
  have hapart := (List.pairwise_cons.mp hok.2).1 _ (List.mem_cons_self ..)
  exact hapart (by unfold ElfPhdr.Overlaps; decide)

theorem loadSegments_regions {k : KernelImage} {h h' : Heap} {segs segs' : List VmemSegment} {elfSize : Nat}
    (hok : (⟨h, 0⟩ : VmState).Ok) (hres : k.Reserved h) (hm : ∀ x, k.start ≤ x → x < k.fin → h.mem x = m x)
    (hrun : loadSegments k elfBase elfSize n p segs h = some (h', 0, segs')) :
    (∀ ph ∈ loadHeaders m n p, ∀ seg ∈ segs, ph.memsz ≤ seg.vaStart ∨ seg.vaEnd ≤ ph.vaddr) ∧
      (loadHeaders m n p).Pairwise PassesOverlap := by
  induction n generalizing p segs h with
  | zero => exact ⟨nofun, .nil⟩
  | succ n ih =>
    obtain ⟨⟨hp1, hp2⟩, hcases⟩ := loadSegments_succ hok hres hrun
    have hph : ElfPhdr.load h.mem p = ElfPhdr.load m p := ElfPhdr.load_congr fun x h1 h2 => hm x (by omega) (by omega)
    rw [hph] at hcases
    rw [loadHeaders]
    rcases hcases with ⟨htype, hrest⟩ | ⟨htype, -, h2, h₁, self, hkept, hrest⟩
    · rw [if_neg htype]
      exact ih hok hres hm hrest
    · rw [if_pos htype]
      obtain ⟨hv, hsz⟩ := ElfPhdr.load_lt m p
      obtain ⟨hwin, hover⟩ := (checkSectionRegionValid_eq_zero hv hsz).mp h2
      obtain ⟨ih1, ih2⟩ := ih hkept.ok hkept.reserved
        (fun x hx1 hx2 => (hkept.mem x hx1 hx2).trans (hm x hx1 hx2)) hrest
      rw [List.forall_mem_cons, List.pairwise_cons]
      refine ⟨⟨checkVmemRegionOverlap_eq_zero.mp hover, fun b hb seg hseg => ?_⟩, fun b hb => ?_, ih2⟩
      · exact ih1 b hb seg (List.mem_append_left _ hseg)
      · have hnew := ih1 b hb _ (List.mem_append_right _ (List.mem_singleton.mpr rfl))
        rwa [hwin.vaEnd] at hnew

theorem loadUserElf_checkRegions {k : KernelImage} {h h' : Heap} {proc : LoadedProcess} {elfSize : Nat}
    (hok : (⟨h, 0⟩ : VmState).Ok) (hres : k.Reserved h)
    (hrun : loadUserElf k elfBase elfSize h = some (h', .ok proc)) :
    checkRegions elfBase [] (imageHeaders h.mem elfBase) = 0 := by
  obtain ⟨-, h₁, hkept, hsegs⟩ := loadUserElf_cases hok hres hrun
  obtain ⟨-, -, hchecked, -⟩ := loadUserElf_ok hok hres hrun
  obtain ⟨-, hpass⟩ := loadSegments_regions hkept.ok hkept.reserved hkept.mem hsegs
  rw [checkRegions_eq_zero (small_imageHeaders h.mem elfBase)]
  exact ⟨fun ph hph => ⟨⟨(hchecked ph hph).start, (hchecked ph hph).fin⟩, nofun⟩, hpass⟩

end QuestOS
