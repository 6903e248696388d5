import QuestOS.Process.PackageSpace

/-!
# What a process finds in its memory

The segments of a process are mapped where they stand in the package.  `zero_start` and `zero_size` of a segment
are recorded and never used, so that the bytes behind the file part of a segment are those of the package, and
the last page of a segment that does not begin on a page border can be missing.  `faithful_iff` says for which
headers the process finds its image.
-/

namespace QuestOS

open Bytes PageTable ProcMem

/-- The permissions that the flags of a header ask for: what can be written can be read as well. -/
def Permits (flags : Nat) (l : Leaf) : Prop :=
  l.attr.getLsbD 54 = !flags.testBit 0 ∧ l.attr.getLsbD 51 = flags.testBit 1 ∧
    l.attr.getLsbD 6 = (flags.testBit 1 || flags.testBit 2)

/-- The end of the pages that a segment touches; one without bytes touches the page of its address. -/
def ElfPhdr.touchEnd (ph : ElfPhdr) : Nat := max (ph.pageStart + 4096) ((ph.vaddr + ph.memsz + 4095) / 4096 * 4096)

/-- No two segments touch the same page, and none begins behind the window of the image. -/
structure DistinctPages (phs : List ElfPhdr) : Prop where
  apart : phs.Pairwise fun a b => a.touchEnd ≤ b.pageStart ∨ b.touchEnd ≤ a.pageStart
  window : ∀ ph ∈ phs, ph.touchEnd ≤ processImageEnd

/-- The process `p` of image `index` is initialised in the state `h`, where the package is as it was when the image
was loaded; it is entered with the memory `h'`. -/
structure EntryRun (k : KernelImage) (index : Nat) (h₀ : Heap) (p : LoadedProcess) (h : Heap) (maxPid : Nat) (h' : Heap)
    (proc : UserProcess) : Prop where
  package : checkPkgHeader h₀.mem k.blob k.blobSize = 0
  ok₀ : (⟨h₀, 0⟩ : VmState).Ok
  reserved₀ : k.Reserved h₀
  loaded : ∃ h₁, loadOneImage k index h₀ = some (h₁, .ok p)
  ok : (⟨h, 0⟩ : VmState).Ok
  reserved : k.Reserved h
  kept : ∀ y, k.blob ≤ y → y < k.blob + k.blobSize → h.mem y = h₀.mem y
  init : initProcess maxPid p h = some (h', .ok proc)

def segmentByte (k : KernelImage) (d : ImageDesc) (ph : ElfPhdr) (j : Nat) : Nat := k.blob + d.imageOffset + ph.offset + j

/-- The image as the process finds it: each segment with the bytes of the file and zeros behind them, and no
other pages than those of the segments, the meta blob and the stack. -/
structure Faithful (k : KernelImage) (d : ImageDesc) (phs : List ElfPhdr) (file : Mem) (mm : MemoryStruct) (m : Mem) : Prop where
  bytes : ∀ ph ∈ phs, ∀ j < ph.memsz, ∃ l, walk m 3 mm.pgDir (ph.vaddr + j) = some l ∧ Permits ph.flags l ∧
    m l.pa = if j < ph.filesz then file (segmentByte k d ph j) else 0
  pages : ∀ x < 2 ^ 48, walk m 3 mm.pgDir x ≠ none →
    (∃ ph ∈ phs, ∃ j < ph.memsz, (ph.vaddr + j) / 4096 = x / 4096) ∨
      (∃ j < d.metaSize, (processMetaStart + j) / 4096 = x / 4096) ∨
      (∃ j < mm.stackSize, (processStackTop - mm.stackSize + j) / 4096 = x / 4096)

/-- A segment that is not empty, whose last page is mapped, and that is zero in the package behind its file part. -/
structure ElfPhdr.Loadable (ph : ElfPhdr) (k : KernelImage) (d : ImageDesc) (m : Mem) : Prop where
  nonempty : ph.memsz ≠ 0
  covered : ph.vaddr + ph.memsz ≤ ph.pageEnd
  zero : ∀ j, ph.filesz ≤ j → j < ph.memsz → m (segmentByte k d ph j) = 0

variable {k : KernelImage} {index maxPid : Nat} {h₀ h h' : Heap} {p : LoadedProcess} {s : VmState} {proc : UserProcess}

theorem ElfPhdr.pageEnd_le (ph : ElfPhdr) : ph.pageEnd ≤ ph.touchEnd := by
  have h1 : ph.pageEnd ≤ (ph.vaddr + ph.memsz + 4095) / 4096 * 4096 ∨ ph.memsz = 0 ∧ ph.pageEnd = ph.pageStart + 4096 :=
    (headerMapping 0 ph).vaEnd_le
  unfold touchEnd
  omega

variable {phs : List ElfPhdr}

theorem DistinctPages.separate (hd : DistinctPages phs) : SeparatePages phs where
  apart := hd.apart.imp fun {a b} hab => by
    have h1 := a.pageEnd_le
    have h2 := b.pageEnd_le
    omega
  window ph hph := Nat.le_trans ph.pageEnd_le (hd.window ph hph)

theorem DistinctPages.apart_of_ne (hd : DistinctPages phs) {a b : ElfPhdr} (ha : a ∈ phs) (hb : b ∈ phs)
    (hne : a ≠ b) : a.touchEnd ≤ b.pageStart ∨ b.touchEnd ≤ a.pageStart :=
  have : Std.Symm fun a b : ElfPhdr => a.touchEnd ≤ b.pageStart ∨ b.touchEnd ≤ a.pageStart := ⟨fun _ _ => Or.symm⟩
  hd.apart.forall ha hb hne

theorem permits_segment (flags x : Nat) : Permits flags (norm ⟨x, protAttr (processGetSegmentPgprot flags)⟩) := by
  have hall : ∀ f < 8, (protAttr (processGetSegmentPgprot f)).getLsbD 54 = !f.testBit 0 ∧
      (protAttr (processGetSegmentPgprot f)).getLsbD 51 = f.testBit 1 ∧
      (protAttr (processGetSegmentPgprot f)).getLsbD 6 = (f.testBit 1 || f.testBit 2) := by decide
  have hbit : ∀ i < 3, flags.testBit i = (flags % 8).testBit i := by
    intro i hi
    rw [show (8 : Nat) = 2 ^ 3 from rfl, Nat.testBit_mod_two_pow, decide_eq_true hi, Bool.true_and]
  unfold Permits
  rw [sameBits_norm _ 54 (by decide) (by decide), sameBits_norm _ 51 (by decide) (by decide),
    sameBits_norm _ 6 (by decide) (by decide), processGetSegmentPgprot_mod, hbit 0 (by decide), hbit 1 (by decide),
    hbit 2 (by decide)]
  exact hall _ (Nat.mod_lt _ (by decide))

theorem permits_norm {flags : Nat} {l : Leaf} : Permits flags (norm l) ↔ Permits flags l := by
  unfold Permits
  rw [sameBits_norm l 54 (by decide) (by decide), sameBits_norm l 51 (by decide) (by decide),
    sameBits_norm l 6 (by decide) (by decide)]

/-! ### The memory at the first entry -/

/-- What comes after `process_memory_init` writes to the stack and to a new block. -/
theorem initProcess_ok {proc' : UserProcess} (hrun : initProcess maxPid p h = some (h', .ok proc')) :
    ∃ s proc used m ptr, ProcMem.processMemoryInit p h = some (s, .ok proc) ∧ proc'.mm = proc.mm ∧
      processStackInit proc.mm proc.image s.mem = some (.ok (used, m)) ∧
      kmalloc threadSize true (s.setMem m).heap = some (h', some ptr) := by
  rw [initProcess] at hrun
  split at hrun
  · cases hrun
  · obtain ⟨_, hres⟩ := destroyAfter_error hrun
    cases hres
  · rename_i s proc hmem
    split at hrun
    · cases hrun
    · obtain ⟨q, -, hdestroy⟩ := Option.bind_eq_some_iff.mp hrun
      obtain ⟨_, hres⟩ := destroyAfter_error hdestroy
      cases hres
    · rename_i used m hinit
      dsimp only at hrun
      split at hrun
      · cases hrun
      · obtain ⟨q, -, hdestroy⟩ := Option.bind_eq_some_iff.mp hrun
        obtain ⟨_, hres⟩ := destroyAfter_error hdestroy
        cases hres
      · rename_i h₁ ptr hk
        obtain ⟨rfl, hproc⟩ := Prod.mk.inj (Option.some.inj hrun)
        obtain rfl := Except.ok.inj hproc
        exact ⟨s, proc, used, m, ptr, hmem, rfl, hinit, hk⟩

namespace EntryRun

theorem initRun (hrun : EntryRun k index h₀ p h maxPid h' proc) : ∃ s proc', InitRun k index h₀ p h s proc' ∧ proc.mm = proc'.mm ∧
    (s.Ok → ∀ x, ¬ (proc.mm.stack ≤ x ∧ x < proc.mm.stack + proc.mm.stackSize) → ¬ s.Loose x → h'.mem x = s.mem x) := by
  obtain ⟨s, proc', used, m, ptr, hmem, hmm, hinit, hk⟩ := initProcess_ok hrun.init
  refine ⟨s, proc', ⟨hrun.package, hrun.ok₀, hrun.reserved₀, hrun.loaded, hrun.ok, hrun.reserved, hmem⟩, hmm, ?_⟩
  intro hok x hstack hloose
  have hok' : (s.setMem m).Ok := (VmState.Grows.setMem hok m).ok
  rcases hok'.kmalloc_cases (n := threadSize) (by decide) true with hnone | ⟨h₁, pa, hsome, hk'⟩
  · rw [hnone] at hk
    cases hk
  · rw [hsome] at hk
    obtain ⟨rfl, -⟩ := Prod.mk.inj (Option.some.inj hk)
    have hframe := hk'.frame x fun h1 => hloose (hk'.loose h1.1 h1.2)
    rw [hmm] at hstack
    exact hframe.trans (processStackInit_frame hinit hstack)

end EntryRun

variable {ph : ElfPhdr}

/-- In the pages that a segment touches, the tables translate its own pages only. -/
theorem InitRun.walk_touched (hrun : InitRun k index h₀ p h s proc) (hd : DistinctPages (InitRun.headers k index h₀))
    (hph : ph ∈ InitRun.headers k index h₀) {x : Nat} (h1 : ph.pageStart ≤ x) (h2 : x < ph.touchEnd) {l : Leaf} :
    (walk s.mem 3 proc.mm.pgDir x).map norm = some l ↔
      x < ph.pageEnd ∧ l = (headerMapping (k.blob + (imageDescAt h₀.mem k.blob index).imageOffset) ph).leaf x := by
  have hwin := hd.window ph hph
  have himg : processImageEnd = 0x140000000 := by decide
  have htop : processStackTop = 0x41C0000000 := by decide
  have hmax : processMaxStackSize = 65536 := rfl
  rw [hrun.walk_iff hd.separate (by omega)]
  constructor
  · rintro ⟨w, hw, hcover, rfl⟩
    rw [calls, List.mem_append, List.mem_cons, List.mem_singleton] at hw
    rcases hw with hw | rfl | rfl
    · obtain ⟨ph', hph', rfl⟩ := List.mem_map.mp hw
      have h3 : ph'.pageStart ≤ x := hcover.1
      have h4 : x < ph'.pageEnd := hcover.2
      have h5 := ph'.pageEnd_le
      by_cases heq : ph = ph'
      · subst heq
        exact ⟨h4, rfl⟩
      · have := hd.apart_of_ne hph hph' heq
        omega
    · obtain ⟨hva, -⟩ := metaSliceMapping_pages (k := k) (imageDescAt h₀.mem k.blob index) hrun.inPackage.meta_pos
      have h3 := hcover.1
      have h4 : processMetaStart = processImageEnd := rfl
      omega
    · obtain ⟨hva, -, -, hle⟩ := hrun.stackMapping_pages hd.separate
      have h3 := hcover.1
      omega
  · rintro ⟨h3, rfl⟩
    exact ⟨_, List.mem_append_left _ (List.mem_map_of_mem hph), ⟨h1, h3⟩, rfl⟩

theorem InitRun.leaf_pa (hrun : InitRun k index h₀ p h s proc) (hph : ph ∈ InitRun.headers k index h₀) (j : Nat) :
    ((headerMapping (k.blob + (imageDescAt h₀.mem k.blob index).imageOffset) ph).leaf (ph.vaddr + j)).pa =
      segmentByte k (imageDescAt h₀.mem k.blob index) ph j := by
  have h1 := (hrun.accepted.checked ph hph).congr
  have h2 := hrun.inPackage.image_mod
  have h3 := k.blob_mod
  have h4 : ((headerMapping (k.blob + (imageDescAt h₀.mem k.blob index).imageOffset) ph).leaf (ph.vaddr + j)).pa =
    (k.blob + (imageDescAt h₀.mem k.blob index).imageOffset + ph.offset) / 4096 * 4096 + (ph.vaddr + j - ph.vaddr / 4096 * 4096) := rfl
  rw [h4, segmentByte]
  omega

/-- At the entry the tables are as `process_memory_init` left them, and memory that was not free is unchanged. -/
theorem EntryRun.entered (hrun : EntryRun k index h₀ p h maxPid h' proc) (hsep : SeparatePages (InitRun.headers k index h₀)) :
    ∃ s proc', InitRun k index h₀ p h s proc' ∧ proc.mm = proc'.mm ∧
      (∀ x, walk h'.mem 3 proc.mm.pgDir x = walk s.mem 3 proc.mm.pgDir x) ∧
      ∀ x, ¬ (⟨h, 0⟩ : VmState).Loose x → h'.mem x = h.mem x := by
  obtain ⟨s, proc', hinit, hmm, hframe⟩ := hrun.initRun
  have hdone := hinit.initialised hsep
  rw [hmm] at hframe ⊢
  refine ⟨s, proc', hinit, rfl, fun x => walk_of_path ((hdone.space.tree.congr fun y hy => ?_).2.2 x), fun x hx => ?_⟩
  · exact hframe hdone.space.grows.ok y (hdone.tables y hy) fun hl => hl.2 (hdone.space.foot y hy).2
  · have hs := hframe hdone.space.grows.ok x (fun hstack => hx (hdone.stack.taken x hstack.1 hstack.2).1)
      fun hl => hx (hdone.space.grows.loose hl)
    exact hs.trans (hdone.space.frame x fun ht => hx ht.1)

theorem ElfPhdr.pageStart_le (ph : ElfPhdr) (j : Nat) : ph.pageStart ≤ ph.vaddr + j := by
  unfold pageStart
  omega

theorem ElfPhdr.lt_touchEnd (ph : ElfPhdr) {j : Nat} (hj : j < ph.memsz) : ph.vaddr + j < ph.touchEnd := by
  unfold touchEnd
  omega

theorem ElfPhdr.exists_byte (hne : ph.memsz ≠ 0) {x : Nat} (h1 : ph.pageStart ≤ x) (h2 : x < ph.touchEnd) :
    ∃ j < ph.memsz, (ph.vaddr + j) / 4096 = x / 4096 := by
  unfold touchEnd at h2
  unfold pageStart at h1 h2
  rcases Nat.lt_or_ge (x / 4096 * 4096) ph.vaddr with h | h
  · exact ⟨0, by omega, by omega⟩
  · exact ⟨x / 4096 * 4096 - ph.vaddr, by omega, by omega⟩

theorem DistinctPages.memsz_ne_zero (hd : DistinctPages phs) (hph : ph ∈ phs)
    {metaSize stackSize : Nat} (hle : stackSize ≤ processMaxStackSize)
    (hpage : (∃ ph' ∈ phs, ∃ j < ph'.memsz, (ph'.vaddr + j) / 4096 = ph.pageStart / 4096) ∨
      (∃ j < metaSize, (processMetaStart + j) / 4096 = ph.pageStart / 4096) ∨
      (∃ j < stackSize, (processStackTop - stackSize + j) / 4096 = ph.pageStart / 4096)) : ph.memsz ≠ 0 := by
  have hwin := hd.window ph hph
  have hlt : ph.pageStart + 4096 ≤ ph.touchEnd := Nat.le_max_left _ _
  have himg : processImageEnd = 0x140000000 := by decide
  have hmeta : processMetaStart = processImageEnd := rfl
  have htop : processStackTop = 0x41C0000000 := by decide
  have hmax : processMaxStackSize = 65536 := rfl
  rcases hpage with ⟨ph', hph', j, hj, hpage⟩ | ⟨j, -, hpage⟩ | ⟨j, -, hpage⟩
  · by_cases heq : ph = ph'
    · subst heq
      omega
    · have h1 := hd.apart_of_ne hph hph' heq
      have h2 := ph'.pageStart_le j
      have h3 := ph'.lt_touchEnd hj
      have h4 : ph.pageStart % 4096 = 0 := Nat.mul_mod_left _ _
      have h5 : ph'.pageStart % 4096 = 0 := Nat.mul_mod_left _ _
      omega
  · omega
  · omega

theorem InitRun.page_cases (hrun : InitRun k index h₀ p h s proc) (hsep : SeparatePages (InitRun.headers k index h₀)) {x : Nat}
    (hx : x < 2 ^ 48) (hwalk : walk s.mem 3 proc.mm.pgDir x ≠ none) :
    (∃ ph ∈ InitRun.headers k index h₀, ph.pageStart ≤ x ∧ x < ph.pageEnd) ∨
      (∃ j < (imageDescAt h₀.mem k.blob index).metaSize, (processMetaStart + j) / 4096 = x / 4096) ∨
      (∃ j < proc.mm.stackSize, (processStackTop - proc.mm.stackSize + j) / 4096 = x / 4096) := by
  obtain ⟨l, hl⟩ := Option.ne_none_iff_exists'.mp hwalk
  obtain ⟨w, hw, hcover, -⟩ := (hrun.walk_iff hsep hx).mp (show _ = some (norm l) by rw [hl]; rfl)
  have h1 := hcover.1
  have h2 := hcover.2
  rw [calls, List.mem_append, List.mem_cons, List.mem_singleton] at hw
  rcases hw with hw | rfl | rfl
  · obtain ⟨ph, hph, rfl⟩ := List.mem_map.mp hw
    exact .inl ⟨ph, hph, hcover⟩
  · obtain ⟨hva, hend⟩ := metaSliceMapping_pages (k := k) (imageDescAt h₀.mem k.blob index) hrun.inPackage.meta_pos
    have h3 : processMetaStart = 0x140000000 := by decide
    exact .inr (.inl ⟨x / 4096 * 4096 - processMetaStart, by omega, by omega⟩)
  · obtain ⟨hva, hend, -, -⟩ := hrun.stackMapping_pages hsep
    exact .inr (.inr ⟨x - (processStackTop - proc.mm.stackSize), by omega, by rw [Nat.add_sub_cancel' (by omega)]⟩)

section

variable (hrun : EntryRun k index h₀ p h maxPid h' proc) (hd : DistinctPages (InitRun.headers k index h₀))
  (hheld : ∀ ph ∈ InitRun.headers k index h₀, ∀ j < ph.memsz,
    ¬ (⟨h, 0⟩ : VmState).Loose (segmentByte k (imageDescAt h₀.mem k.blob index) ph j))
include hrun hd hheld

theorem loadable_of_faithful
    (hf : Faithful k (imageDescAt h₀.mem k.blob index) (InitRun.headers k index h₀) h₀.mem proc.mm h'.mem)
    (hph : ph ∈ InitRun.headers k index h₀) : ph.Loadable k (imageDescAt h₀.mem k.blob index) h.mem := by
  obtain ⟨s, proc', hinit, hmm, hwalk, hmem⟩ := hrun.entered hd.separate
  rw [hmm] at hwalk hf
  have hne : ph.memsz ≠ 0 := by
    obtain ⟨-, -, -, hle⟩ := hinit.stackMapping_pages hd.separate
    have hlt : ph.pageStart < ph.pageEnd := (headerMapping 0 ph).va_lt_vaEnd
    have hsome := (hinit.walk_touched hd hph (Nat.le_refl _) (Nat.lt_of_lt_of_le hlt ph.pageEnd_le)).mpr ⟨hlt, rfl⟩
    obtain ⟨l, hl, -⟩ := Option.map_eq_some_iff.mp hsome
    have hwin := hd.window ph hph
    have himg : processImageEnd = 0x140000000 := by decide
    have hend := ph.pageEnd_le
    refine hd.memsz_ne_zero hph hle (hf.pages ph.pageStart (by omega) ?_)
    rw [hwalk, hl]
    exact Option.some_ne_none l
  have hleaf : ∀ {j l}, j < ph.memsz → walk h'.mem 3 proc'.mm.pgDir (ph.vaddr + j) = some l →
      ph.vaddr + j < ph.pageEnd ∧ l.pa = segmentByte k (imageDescAt h₀.mem k.blob index) ph j := by
    intro j l hj hl
    rw [hwalk] at hl
    obtain ⟨h1, h2⟩ := (hinit.walk_touched hd hph (ph.pageStart_le j) (ph.lt_touchEnd hj)).mp
      (show _ = some (norm l) by rw [hl]; rfl)
    exact ⟨h1, (congrArg Leaf.pa h2).trans (hinit.leaf_pa hph j)⟩
  refine ⟨hne, ?_, fun j h1 h2 => ?_⟩
  · obtain ⟨l, hl, -⟩ := hf.bytes ph hph (ph.memsz - 1) (by omega)
    have := (hleaf (by omega) hl).1
    omega
  · obtain ⟨l, hl, -, hbyte⟩ := hf.bytes ph hph j h2
    rw [(hleaf h2 hl).2, hmem _ (hheld ph hph j h2), if_neg (by omega)] at hbyte
    exact hbyte

theorem faithful_of_loadable
    (hload : ∀ ph ∈ InitRun.headers k index h₀, ph.Loadable k (imageDescAt h₀.mem k.blob index) h.mem) :
    Faithful k (imageDescAt h₀.mem k.blob index) (InitRun.headers k index h₀) h₀.mem proc.mm h'.mem := by
  obtain ⟨s, proc', hinit, hmm, hwalk, hmem⟩ := hrun.entered hd.separate
  rw [hmm] at hwalk ⊢
  refine ⟨fun ph hph j hj => ?_, fun x hx hx' => ?_⟩
  · have hcov := (hload ph hph).covered
    have hsome := (hinit.walk_touched hd hph (ph.pageStart_le j) (ph.lt_touchEnd hj)).mpr ⟨by omega, rfl⟩
    obtain ⟨l, hl, hleaf⟩ := Option.map_eq_some_iff.mp hsome
    have hpa : l.pa = segmentByte k (imageDescAt h₀.mem k.blob index) ph j :=
      (congrArg Leaf.pa hleaf).trans (hinit.leaf_pa hph j)
    refine ⟨l, by rw [hwalk, hl], ?_, ?_⟩
    · rw [← permits_norm, hleaf]
      exact permits_segment _ _
    · rw [hpa, hmem _ (hheld ph hph j hj)]
      split
      · have h1 := (hinit.accepted.checked ph hph).file
        have h2 := hinit.inPackage.image_fin
        unfold segmentByte
        exact hrun.kept _ (by omega) (by omega)
      · exact (hload ph hph).zero j (by omega) hj
  · rw [hwalk] at hx'
    rcases hinit.page_cases hd.separate hx hx' with ⟨ph, hph, h1, h2⟩ | h1 | h1
    · exact .inl ⟨ph, hph, ph.exists_byte (hload ph hph).nonempty h1 (Nat.lt_of_lt_of_le h2 ph.pageEnd_le)⟩
    · exact .inr (.inl h1)
    · exact .inr (.inr h1)

end

def runEntry (phs : List ElfPhdr) (info : List UInt8) : Option (LoadedProcess × Heap × Heap × UserProcess) :=
  match loadOneImage packageImage 0 (packageHeap phs info) with
  | some (h, .ok p) =>
    match initProcess 1 p h with
    | some (h', .ok proc) => some (p, h, h', proc)
    | _ => none
  | _ => none

theorem KernelImage.Kept.mem_package (hkept : k.Kept h h') {y : Nat} (h1 : k.blob ≤ y) (h2 : y < k.blob + k.blobSize) :
    h'.mem y = h.mem y := by
  have h3 := k.start_le
  have h4 := k.fin_ge
  exact hkept.mem y (by omega) (by omega)

theorem entryRun_of_package {info : List UInt8}
    (hpkg : checkPkgHeader (packageHeap phs info).mem packageImage.blob packageImage.blobSize = 0)
    (hrun : runEntry phs info = some (p, h, h', proc)) : EntryRun packageImage 0 (packageHeap phs info) p h 1 h' proc := by
  unfold runEntry at hrun
  split at hrun
  · rename_i h₁ p₁ hload
    obtain ⟨hkept, -⟩ := loadOneImage_ok (packageHeap_ok phs info) (packageHeap_reserved phs info) hload
    split at hrun
    · rename_i hinit
      cases hrun
      exact ⟨hpkg, packageHeap_ok phs info, packageHeap_reserved phs info, ⟨h, hload⟩, hkept.ok, hkept.reserved,
        fun y h1 h2 => hkept.mem_package h1 h2, hinit⟩
    · cases hrun
  · cases hrun

theorem package_not_loose {info : List UInt8}
    (hrun : EntryRun packageImage 0 (packageHeap [ph] info) p h maxPid h' proc)
    (hheaders : InitRun.headers packageImage 0 (packageHeap [ph] info) = [ph])
    (hoffset : (imageDescAt (packageHeap [ph] info).mem packageImage.blob 0).imageOffset = 0x1000)
    (hstart : ph.offset = 0) (hsize : ph.memsz = 0x1000) :
    ∀ ph' ∈ InitRun.headers packageImage 0 (packageHeap [ph] info), ∀ j < ph'.memsz,
      ¬ (⟨h, 0⟩ : VmState).Loose
        (segmentByte packageImage (imageDescAt (packageHeap [ph] info).mem packageImage.blob 0) ph' j) := by
  intro ph' hph' j hj
  rw [hheaders] at hph'
  obtain rfl := List.mem_singleton.mp hph'
  rw [segmentByte, hoffset, hstart]
  have hblob : packageImage.blob = 0x40100000 := rfl
  have hfin : packageImage.fin = 0x40200000 := rfl
  exact hrun.reserved _ (Nat.le_trans packageImage.start_le (by omega)) (by omega)

def headerSegment : List ElfPhdr := [⟨ptLoad, 6, 0, processImageStart, 0x40, 0x1000⟩]

end QuestOS
