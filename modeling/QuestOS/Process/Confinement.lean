import QuestOS.Process.PackageSpace

/-!
# What user code can reach

The pages of a segment are as many as `p_memsz` asks for, and nothing compares them with the size of the image.
So the memory that user code can reach lies in the slices and the stack of its process if and only if this
holds for the pages of each accessible header (`confined_iff`).
-/

namespace QuestOS

open Bytes PageTable ProcMem

def Accessible (l : Leaf) : Prop := l.attr.getLsbD 6 = true ∨ l.attr.getLsbD 54 = false

def UserWritable (l : Leaf) : Prop := l.attr.getLsbD 6 = true ∧ l.attr.getLsbD 51 = true

/-- The slices of a process in the package, that of the meta blob up to the end of its last page. -/
def InSlices (k : KernelImage) (d : ImageDesc) (y : Nat) : Prop :=
  k.blob + d.imageOffset ≤ y ∧ y < k.blob + d.imageOffset + d.imageSize ∨
    k.blob + d.metaOffset ≤ y ∧ y < k.blob + d.metaOffset + (d.metaSize + 4095) / 4096 * 4096

def InStack (mm : MemoryStruct) (y : Nat) : Prop := mm.stack ≤ y ∧ y < mm.stack + mm.stackSize

/-- User code reaches memory of its own process only. -/
def Confined (k : KernelImage) (d : ImageDesc) (mm : MemoryStruct) (m : Mem) : Prop :=
  ∀ x < 2 ^ 48, ∀ l, walk m 3 mm.pgDir x = some l → Accessible l → InSlices k d l.pa ∨ InStack mm l.pa

def WithinSlices (k : KernelImage) (d : ImageDesc) (phs : List ElfPhdr) : Prop :=
  ∀ ph ∈ phs, ph.flags % 8 ≠ 0 → ∀ i < ph.pageEnd - ph.pageStart,
    InSlices k d (k.blob + d.imageOffset + ph.offset / 4096 * 4096 + i)

def ImageDesc.Slice (d : ImageDesc) (i : Nat) : Prop :=
  d.imageOffset ≤ i ∧ i < d.imageOffset + d.imageSize ∨ d.metaOffset ≤ i ∧ i < d.metaOffset + d.metaSize

def MapsWritable (m : Mem) (root y : Nat) : Prop := ∃ x < 2 ^ 48, ∃ l, walk m 3 root x = some l ∧ UserWritable l ∧ l.pa = y

variable {k : KernelImage} {index : Nat} {h₀ h : Heap} {p : LoadedProcess} {s : VmState} {proc : UserProcess} {l : Leaf}

theorem accessible_norm : Accessible (norm l) ↔ Accessible l := by
  unfold Accessible
  rw [sameBits_norm l 6 (by decide) (by decide), sameBits_norm l 54 (by decide) (by decide)]

theorem accessible_segment (flags x : Nat) :
    Accessible (norm ⟨x, protAttr (processGetSegmentPgprot flags)⟩) ↔ flags % 8 ≠ 0 := by
  have hall : ∀ f < 8, ((protAttr (processGetSegmentPgprot f)).getLsbD 6 = true ∨
      (protAttr (processGetSegmentPgprot f)).getLsbD 54 = false) ↔ f ≠ 0 := by decide
  rw [accessible_norm, processGetSegmentPgprot_mod]
  exact hall _ (Nat.mod_lt _ (by decide))

theorem InSlices.in_package {d : ImageDesc} (hd : d.InPackage k) {y : Nat} (hy : InSlices k d y) :
    k.blob ≤ y ∧ y < (k.blob + k.blobSize + 4095) / 4096 * 4096 := by
  have h1 := hd.image_fin
  have h2 := hd.meta_fin
  have h3 := hd.meta_mod
  have h4 := k.blob_mod
  unfold InSlices at hy
  omega

namespace InitRun

theorem stack_outside (hrun : InitRun k index h₀ p h s proc) (hsep : SeparatePages (headers k index h₀)) {y : Nat}
    (hy : InStack proc.mm y) : ¬ (k.start ≤ y ∧ y < k.fin) := fun hk =>
  hrun.reserved y hk.1 hk.2 ((hrun.initialised hsep).stack.taken y hy.1 hy.2).1

theorem headerMapping_pa (hrun : InitRun k index h₀ p h s proc) (ph : ElfPhdr) :
    (headerMapping (k.blob + (imageDescAt h₀.mem k.blob index).imageOffset) ph).pa =
      k.blob + (imageDescAt h₀.mem k.blob index).imageOffset + ph.offset / 4096 * 4096 := by
  have h1 := hrun.inPackage.image_mod
  have h2 := k.blob_mod
  change (k.blob + (imageDescAt h₀.mem k.blob index).imageOffset + ph.offset) / 4096 * 4096 = _
  omega

theorem reaches_header (hrun : InitRun k index h₀ p h s proc) (hsep : SeparatePages (headers k index h₀)) {ph : ElfPhdr}
    (hph : ph ∈ headers k index h₀) (hflags : ph.flags % 8 ≠ 0) {i : Nat} (hi : i < ph.pageEnd - ph.pageStart) :
    ∃ x < 2 ^ 48, ∃ l, walk s.mem 3 proc.mm.pgDir x = some l ∧ Accessible l ∧
      l.pa = k.blob + (imageDescAt h₀.mem k.blob index).imageOffset + ph.offset / 4096 * 4096 + i := by
  have hwin := hsep.window ph hph
  have himg : processImageEnd = 0x140000000 := by decide
  have hx : ph.pageStart + i < 2 ^ 48 := by omega
  have hcover : (headerMapping (k.blob + (imageDescAt h₀.mem k.blob index).imageOffset) ph).Covers (ph.pageStart + i) :=
    ⟨Nat.le_add_right _ _, show ph.pageStart + i < ph.pageEnd by omega⟩
  have hwalk := (hrun.walk_iff hsep hx).mpr ⟨_, List.mem_append_left _ (List.mem_map_of_mem hph), hcover, rfl⟩
  obtain ⟨l, hl, hnorm⟩ := Option.map_eq_some_iff.mp hwalk
  refine ⟨_, hx, l, hl, ?_, ?_⟩
  · rw [← accessible_norm, hnorm]
    exact (accessible_segment _ _).mpr hflags
  · have hpa : l.pa = (headerMapping (k.blob + (imageDescAt h₀.mem k.blob index).imageOffset) ph).pa +
        (ph.pageStart + i - ph.pageStart) := congrArg Leaf.pa hnorm
    rw [hpa, hrun.headerMapping_pa, Nat.add_sub_cancel_left]

theorem confined_iff_within (hrun : InitRun k index h₀ p h s proc) (hsep : SeparatePages (headers k index h₀)) :
    Confined k (imageDescAt h₀.mem k.blob index) proc.mm s.mem ↔
      WithinSlices k (imageDescAt h₀.mem k.blob index) (headers k index h₀) := by
  have hd := hrun.inPackage
  constructor
  · intro hconf ph hph hflags i hi
    have hown : ∀ j < ph.pageEnd - ph.pageStart, InSlices k (imageDescAt h₀.mem k.blob index)
        (k.blob + (imageDescAt h₀.mem k.blob index).imageOffset + ph.offset / 4096 * 4096 + j) ∨
        InStack proc.mm (k.blob + (imageDescAt h₀.mem k.blob index).imageOffset + ph.offset / 4096 * 4096 + j) := by
      intro j hj
      obtain ⟨x, hx, l, hl, hacc, hpa⟩ := hrun.reaches_header hsep hph hflags hj
      rw [← hpa]
      exact hconf x hx l hl hacc
    refine (hown i hi).resolve_right fun hstack => ?_
    -- the page behind the package is in between, and belongs to nobody
    have hout := hrun.stack_outside hsep hstack
    have hfile := (hrun.accepted.checked ph hph).file
    have h1 := hd.image_fin
    have h2 := k.fin_ge
    have h3 := k.start_le
    obtain ⟨j, hj⟩ : ∃ j, k.blob + (imageDescAt h₀.mem k.blob index).imageOffset + ph.offset / 4096 * 4096 + j =
        (k.blob + k.blobSize + 4095) / 4096 * 4096 :=
      ⟨(k.blob + k.blobSize + 4095) / 4096 * 4096 -
        (k.blob + (imageDescAt h₀.mem k.blob index).imageOffset + ph.offset / 4096 * 4096), by omega⟩
    rcases hown j (by omega) with h | h
    · have := h.in_package hd
      omega
    · exact hrun.stack_outside hsep h (by omega)
  · intro hwithin x hx l hl hacc
    obtain ⟨w, hw, hcover, hleaf⟩ := (hrun.walk_iff hsep hx).mp (show _ = some (norm l) by rw [hl]; rfl)
    have hpa : l.pa = w.pa + (x - w.va) := congrArg Leaf.pa hleaf
    rw [← accessible_norm, hleaf] at hacc
    rw [calls, List.mem_append, List.mem_cons, List.mem_singleton] at hw
    rcases hw with hw | rfl | rfl
    · obtain ⟨ph, hph, rfl⟩ := List.mem_map.mp hw
      have hflags := (accessible_segment _ _).mp hacc
      rw [hrun.headerMapping_pa] at hpa
      rw [hpa]
      exact .inl (hwithin ph hph hflags _ (Nat.sub_lt_sub_right hcover.1 hcover.2))
    · obtain ⟨hva, hend⟩ := metaSliceMapping_pages (k := k) (imageDescAt h₀.mem k.blob index) hd.meta_pos
      have h1 : (metaSliceMapping k (imageDescAt h₀.mem k.blob index)).pa =
          (k.blob + (imageDescAt h₀.mem k.blob index).metaOffset) / 4096 * 4096 := rfl
      have h2 := hd.meta_mod
      have h3 := k.blob_mod
      have h4 := hcover.1
      have h5 := hcover.2
      refine .inl (.inr ?_)
      omega
    · obtain ⟨hva, hend, hstack, -⟩ := hrun.stackMapping_pages hsep
      have h1 := hcover.1
      have h2 := hcover.2
      refine .inr ?_
      unfold InStack
      omega

end InitRun

variable {index' : Nat} {h₀' h' : Heap} {q : LoadedProcess} {s' : VmState} {proc' : UserProcess}

/-- Slices that are disjoint have no page in common either, as they begin on page borders. -/
theorem slices_disjoint {d d' : ImageDesc} (hd : d.InPackage k) (hd' : d'.InPackage k)
    (hdisj : ∀ i, d.Slice i → ¬ d'.Slice i) {y : Nat} (hy : InSlices k d y) : ¬ InSlices k d' y := by
  -- the start of the page of `y` is in both
  have hpage : ∀ {d : ImageDesc}, d.InPackage k → InSlices k d y → d.Slice ((y - k.blob) / 4096 * 4096) := by
    intro d hd hy
    have h1 := hd.image_mod
    have h2 := hd.meta_mod
    unfold InSlices at hy
    unfold ImageDesc.Slice
    omega
  exact fun hy' => hdisj _ (hpage hd hy) (hpage hd' hy')

/-- The memory that the user code of two processes can reach lies in their slices and stacks, and disjoint
slices mean that they cannot write to the same memory, if and only if the pages of their accessible headers lie
in the slices. -/
theorem confined_iff (hrun : InitRun k index h₀ p h s proc) (hrun' : InitRun k index' h₀' q h' s' proc')
    (hsep : SeparatePages (InitRun.headers k index h₀)) (hsep' : SeparatePages (InitRun.headers k index' h₀'))
    (hheld : ∀ y, InStack proc.mm y → h'.mb.Held y) :
    (Confined k (imageDescAt h₀.mem k.blob index) proc.mm s.mem ∧
        Confined k (imageDescAt h₀'.mem k.blob index') proc'.mm s'.mem ∧
        ((∀ i, (imageDescAt h₀.mem k.blob index).Slice i → ¬ (imageDescAt h₀'.mem k.blob index').Slice i) →
          ∀ y, MapsWritable s.mem proc.mm.pgDir y → ¬ MapsWritable s'.mem proc'.mm.pgDir y)) ↔
      WithinSlices k (imageDescAt h₀.mem k.blob index) (InitRun.headers k index h₀) ∧
        WithinSlices k (imageDescAt h₀'.mem k.blob index') (InitRun.headers k index' h₀') := by
  rw [← hrun.confined_iff_within hsep, ← hrun'.confined_iff_within hsep']
  constructor
  · rintro ⟨h1, h2, -⟩
    exact ⟨h1, h2⟩
  · rintro ⟨h1, h2⟩
    refine ⟨h1, h2, ?_⟩
    rintro hdisj y ⟨x, hx, l, hl, hw, rfl⟩ ⟨x', hx', l', hl', hw', hpa⟩
    have hy := h1 x hx l hl (.inl hw.1)
    have hy' := h2 x' hx' l' hl' (.inl hw'.1)
    rw [hpa] at hy'
    have hkernel : ∀ {d : ImageDesc}, d.InPackage k → InSlices k d l.pa → k.start ≤ l.pa ∧ l.pa < k.fin := by
      intro d hd hin
      have h3 := hin.in_package hd
      have h4 := k.start_le
      have h5 := k.fin_ge
      omega
    rcases hy with hy | hy <;> rcases hy' with hy' | hy'
    · exact slices_disjoint hrun.inPackage hrun'.inPackage hdisj hy hy'
    · exact hrun'.stack_outside hsep' hy' (hkernel hrun.inPackage hy)
    · exact hrun.stack_outside hsep hy (hkernel hrun'.inPackage hy')
    · -- the second stack was free when the first was in use
      exact ((hrun'.initialised hsep').stack.taken l.pa hy'.1 hy'.2).1.2 (hheld l.pa hy)

def runTwice (phs : List ElfPhdr) (info : List UInt8) :
    Option ((LoadedProcess × Heap × VmState × UserProcess) × VmState × UserProcess) :=
  (runPackage phs info).bind fun q =>
    match ProcMem.processMemoryInit q.1 q.2.2.1.heap with
    | some (s', .ok proc') => some (q, s', proc')
    | _ => none

theorem runTwice_eq_some {phs : List ElfPhdr} {info : List UInt8}
    (hrun : runTwice phs info = some ((p, h, s, proc), s', proc')) :
    runPackage phs info = some (p, h, s, proc) ∧ ProcMem.processMemoryInit p s.heap = some (s', .ok proc') := by
  unfold runTwice at hrun
  obtain ⟨q, hq, hrest⟩ := Option.bind_eq_some_iff.mp hrun
  split at hrest
  · rename_i hinit
    cases hrest
    exact ⟨hq, hinit⟩
  · cases hrest

theorem confined_onePage : ∃ p h s proc s' proc',
    InitRun packageImage 0 (packageHeap onePage (metaBytes 0 0 0)) p h s proc ∧
      InitRun packageImage 0 (packageHeap onePage (metaBytes 0 0 0)) p s.heap s' proc' ∧
      Confined packageImage (imageDescAt (packageHeap onePage (metaBytes 0 0 0)).mem packageImage.blob 0) proc.mm s.mem := by
  obtain ⟨⟨⟨p, h, s, proc⟩, s', proc'⟩, htwice⟩ := Option.isSome_iff_exists.mp
    (show (runTwice onePage (metaBytes 0 0 0)).isSome = true by decide +kernel)
  obtain ⟨hrun, hagain⟩ := runTwice_eq_some htwice
  have hinit := initRun_of_package (by decide +kernel) hrun
  have hsep : SeparatePages (InitRun.headers packageImage 0 (packageHeap onePage (metaBytes 0 0 0))) :=
    ⟨by decide +kernel, by decide +kernel⟩
  have hdone := hinit.initialised hsep
  have hinit' : InitRun packageImage 0 (packageHeap onePage (metaBytes 0 0 0)) p s.heap s' proc' :=
    ⟨hinit.package, hinit.ok₀, hinit.reserved₀, hinit.loaded,
      ⟨hdone.space.grows.ok.wf, hdone.space.grows.ok.zero, hdone.space.grows.ok.lt⟩,
      fun x h1 h2 hl => hinit.reserved x h1 h2 (hdone.space.grows.loose hl), hagain⟩
  refine ⟨p, h, s, proc, s', proc', hinit, hinit', ?_⟩
  have hwithin : WithinSlices packageImage (imageDescAt (packageHeap onePage (metaBytes 0 0 0)).mem packageImage.blob 0)
      (InitRun.headers packageImage 0 (packageHeap onePage (metaBytes 0 0 0))) := by
    have hheaders : InitRun.headers packageImage 0 (packageHeap onePage (metaBytes 0 0 0)) = onePage := by decide +kernel
    have hsize : (imageDescAt (packageHeap onePage (metaBytes 0 0 0)).mem packageImage.blob 0).imageSize = 0x1000 := by
      decide +kernel
    intro ph hph _ i hi
    rw [hheaders] at hph
    obtain rfl := List.mem_singleton.mp hph
    have hpages : ElfPhdr.pageEnd ⟨ptLoad, 5, 0, processImageStart, 0x1000, 0x1000⟩ -
        ElfPhdr.pageStart ⟨ptLoad, 5, 0, processImageStart, 0x1000, 0x1000⟩ = 0x1000 := by decide +kernel
    refine .inl ⟨by omega, ?_⟩
    rw [hsize]
    dsimp only
    omega
  exact ((confined_iff hinit hinit' hsep hsep fun y hy => (hdone.stack.taken y hy.1 hy.2).2).mpr ⟨hwithin, hwithin⟩).1

def wideSegment : List ElfPhdr := [⟨ptLoad, 6, 0, processImageStart, 0x1000, 0x3000⟩]

/-- The third page lies behind the package. -/
theorem wideSegment_not_confined : ∃ p h s proc,
    InitRun packageImage 0 (packageHeap wideSegment (metaBytes 0 0 0)) p h s proc ∧
      ¬ Confined packageImage (imageDescAt (packageHeap wideSegment (metaBytes 0 0 0)).mem packageImage.blob 0) proc.mm s.mem := by
  obtain ⟨⟨p, h, s, proc⟩, hrun⟩ := Option.isSome_iff_exists.mp
    (show (runPackage wideSegment (metaBytes 0 0 0)).isSome = true by decide +kernel)
  have hinit := initRun_of_package (by decide +kernel) hrun
  refine ⟨p, h, s, proc, hinit, ?_⟩
  rw [hinit.confined_iff_within ⟨by decide +kernel, by decide +kernel⟩]
  intro hwithin
  have hthird := hwithin ⟨ptLoad, 6, 0, processImageStart, 0x1000, 0x3000⟩ (by decide +kernel) (by decide) 0x2000 (by decide +kernel)
  revert hthird
  unfold InSlices
  decide +kernel

end QuestOS
