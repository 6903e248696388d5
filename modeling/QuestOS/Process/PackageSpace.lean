import QuestOS.Mmu.VmapCall
import QuestOS.Process.Release
import QuestOS.Process.UserSpace

/-!
# The address space of a process of the package

A process whose image `load_one_image` accepts has one mapping for each `PT_LOAD` header, one for its meta slice
and one for its stack.  If no two headers have a page in common then the tables translate exactly these
(`InitRun.initialised`).
-/

namespace QuestOS

open Bytes PageTable ProcMem

/-- Image `index` of the package is loaded as `p` in the state `h₀`, and `process_memory_init` succeeds for it in
the state `h`. -/
structure InitRun (k : KernelImage) (index : Nat) (h₀ : Heap) (p : LoadedProcess) (h : Heap) (s : VmState)
    (proc : UserProcess) : Prop where
  package : checkPkgHeader h₀.mem k.blob k.blobSize = 0
  ok₀ : (⟨h₀, 0⟩ : VmState).Ok
  reserved₀ : k.Reserved h₀
  loaded : ∃ h₁, loadOneImage k index h₀ = some (h₁, .ok p)
  ok : (⟨h, 0⟩ : VmState).Ok
  reserved : k.Reserved h
  init : ProcMem.processMemoryInit p h = some (s, .ok proc)

structure ImageDesc.InPackage (d : ImageDesc) (k : KernelImage) : Prop where
  image_mod : d.imageOffset % 4096 = 0
  meta_mod : d.metaOffset % 4096 = 0
  image_pos : 0 < d.imageSize
  meta_pos : 0 < d.metaSize
  meta_le : d.metaSize ≤ 2 ^ 20
  image_fin : d.imageOffset + d.imageSize ≤ k.blobSize
  meta_fin : d.metaOffset + d.metaSize ≤ k.blobSize

theorem inPackage_of_checks {m : Mem} {k : KernelImage} {d : ImageDesc} (hpkg : checkPkgHeader m k.blob k.blobSize = 0)
    (hdesc : checkImageDesc (PkgHeader.load m k.blob) d = 0) : d.InPackage k := by
  have hmask : ∀ x : Nat, x &&& 0xfff = x % 4096 := fun x => Nat.and_two_pow_sub_one_eq_mod x 12
  simp only [checkPkgHeader, ite_negEinval_eq_zero] at hpkg
  obtain ⟨-, -, -, -, htotal, -⟩ := hpkg
  simp only [checkImageDesc, ite_negEinval_eq_zero, hmask] at hdesc
  obtain ⟨h1, -, h3, h4, h5, -⟩ := hdesc
  have hmax : processMaxMetaSize = 2 ^ 20 := rfl
  constructor <;> omega

def ElfPhdr.pageStart (ph : ElfPhdr) : Nat := ph.vaddr / 4096 * 4096

def ElfPhdr.pageEnd (ph : ElfPhdr) : Nat := mapEnd ph.pageStart (ph.vaddr % 4096) (ph.vaddr + ph.memsz)

/-- No two segments have a page in common, and none begins behind the window of the image. -/
structure SeparatePages (phs : List ElfPhdr) : Prop where
  apart : phs.Pairwise fun a b => a.pageEnd ≤ b.pageStart ∨ b.pageEnd ≤ a.pageStart
  window : ∀ ph ∈ phs, ph.pageEnd ≤ processImageEnd

def headerMapping (elfBase : Nat) (ph : ElfPhdr) : Mapping :=
  ⟨elfBase + ph.offset, ph.vaddr, ph.memsz, processGetSegmentPgprot ph.flags⟩

def metaSliceMapping (k : KernelImage) (d : ImageDesc) : Mapping :=
  ⟨k.blob + d.metaOffset, processMetaStart, (d.metaSize + 4095) / 4096 * 4096, pgprotUserRw⟩

theorem segmentMapping_segmentOf {elfBase elfSize self : Nat} {ph : ElfPhdr} (hph : ph.Checked elfSize)
    (hfit : elfBase + elfSize < 2 ^ 64) : segmentMapping (segmentOf elfBase self ph) = headerMapping elfBase ph := by
  have h1 := hph.file
  have h2 := hph.fin
  have h3 : processImageEnd = 0x140000000 := by decide
  have hpa : add64 elfBase ph.offset = elfBase + ph.offset := Nat.mod_eq_of_lt (by omega)
  have hsize : sub64 (add64 ph.vaddr ph.memsz) ph.vaddr = ph.memsz := by
    unfold sub64 add64
    omega
  simp only [segmentMapping, segmentOf, headerMapping, hpa, hsize]

theorem processGetSegmentPgprot_mod (flags : Nat) : processGetSegmentPgprot flags = processGetSegmentPgprot (flags % 8) := by
  have hbit : ∀ i < 3, flags.testBit i = (flags % 8).testBit i := by
    intro i hi
    rw [show (8 : Nat) = 2 ^ 3 from rfl, Nat.testBit_mod_two_pow, decide_eq_true hi, Bool.true_and]
  simp only [processGetSegmentPgprot, hbit 0 (by decide), hbit 1 (by decide), hbit 2 (by decide)]

theorem processGetSegmentPgprot_cases {P : Entry → Prop} (flags : Nat) (h : ∀ f < 8, P (processGetSegmentPgprot f)) :
    P (processGetSegmentPgprot flags) := by
  rw [processGetSegmentPgprot_mod]
  exact h _ (Nat.mod_lt _ (by decide))

theorem pageProt_segment (flags : Nat) : PageProt (processGetSegmentPgprot flags) :=
  ⟨processGetSegmentPgprot_cases (P := NoAddr) flags (by unfold NoAddr; decide),
    processGetSegmentPgprot_cases (P := fun prot => prot &&& 3#64 = 3#64) flags (by decide)⟩

theorem userAttr_segment (flags : Nat) : UserAttr (protAttr (processGetSegmentPgprot flags)) :=
  processGetSegmentPgprot_cases (P := fun prot => UserAttr (protAttr prot)) flags (by unfold UserAttr; decide)

variable {k : KernelImage} {index : Nat} {h₀ h : Heap} {p : LoadedProcess} {s : VmState} {proc : UserProcess}

namespace InitRun

theorem accepted (hrun : InitRun k index h₀ p h s proc) : Accepted k h₀.mem (imageDescAt h₀.mem k.blob index) p := by
  obtain ⟨h₁, hload⟩ := hrun.loaded
  exact (loadOneImage_ok hrun.ok₀ hrun.reserved₀ hload).2

theorem inPackage (hrun : InitRun k index h₀ p h s proc) : (imageDescAt h₀.mem k.blob index).InPackage k :=
  inPackage_of_checks hrun.package hrun.accepted.desc_ok

def headers (k : KernelImage) (index : Nat) (h₀ : Heap) : List ElfPhdr :=
  imageHeaders h₀.mem (k.blob + (imageDescAt h₀.mem k.blob index).imageOffset)

theorem segments_eq (hrun : InitRun k index h₀ p h s proc) : p.segments.map segmentMapping =
    (headers k index h₀).map (headerMapping (k.blob + (imageDescAt h₀.mem k.blob index).imageOffset)) := by
  have hdesc := hrun.inPackage.image_fin
  have hfin := k.fin_ge
  have hle := k.fin_le
  have hchecked := hrun.accepted.checked
  have hsegs := hrun.accepted.segments
  unfold headers
  generalize imageHeaders h₀.mem (k.blob + (imageDescAt h₀.mem k.blob index).imageOffset) = phs at *
  generalize p.segments = segs at *
  induction hsegs with
  | nil => rfl
  | cons hseg _ ih =>
    rw [List.forall_mem_cons] at hchecked
    rw [List.map_cons, List.map_cons, hseg, segmentMapping_segmentOf hchecked.1 (by omega), ih hchecked.2]

theorem meta_eq (hrun : InitRun k index h₀ p h s proc) :
    metaMapping p.user.image = metaSliceMapping k (imageDescAt h₀.mem k.blob index) := by
  have hle := hrun.inPackage.meta_le
  have hsize : alignUp p.user.image.metaSize pageSize = ((imageDescAt h₀.mem k.blob index).metaSize + 4095) / 4096 * 4096 := by
    rw [hrun.accepted.metaSize, show pageSize = 2 ^ 12 from rfl, alignUp_eq]
    omega
  rw [metaMapping, metaSliceMapping, hsize, hrun.accepted.metaData]

theorem headerMapping_valid (hrun : InitRun k index h₀ p h s proc) {ph : ElfPhdr} (hph : ph ∈ headers k index h₀) :
    (headerMapping (k.blob + (imageDescAt h₀.mem k.blob index).imageOffset) ph).Valid := by
  have hc := hrun.accepted.checked ph hph
  have hd := hrun.inPackage
  generalize imageDescAt h₀.mem k.blob index = d at *
  have h1 := k.fin_ge
  have h2 := k.fin_le
  have h3 := k.blob_mod
  have h4 : processImageStart = 0x40000000 := rfl
  have h5 : processImageEnd = 0x140000000 := by decide
  have h6 := hc.start
  have h7 := hc.fin
  have h8 := hc.file
  have h9 := hc.congr
  have h10 := hd.image_mod
  have h11 := hd.image_fin
  have hvirt : (headerMapping (k.blob + d.imageOffset) ph).virt = ph.vaddr := rfl
  have hsize : (headerMapping (k.blob + d.imageOffset) ph).size = ph.memsz := rfl
  have hphys : (headerMapping (k.blob + d.imageOffset) ph).phys = k.blob + d.imageOffset + ph.offset := rfl
  refine ⟨by omega, by omega, by omega, ?_, pageProt_segment _, userAttr_segment _⟩
  have hend := (headerMapping (k.blob + d.imageOffset) ph).vaEnd_le
  have hpa : (headerMapping (k.blob + d.imageOffset) ph).pa ≤ k.blob + d.imageOffset + ph.offset := Nat.div_mul_le_self _ _
  omega

theorem metaSliceMapping_pages (d : ImageDesc) (hpos : 0 < d.metaSize) : (metaSliceMapping k d).va = processMetaStart ∧
    (metaSliceMapping k d).vaEnd = processMetaStart + (d.metaSize + 4095) / 4096 * 4096 :=
  Mapping.vaEnd_of_pages (w := metaSliceMapping k d) (show processMetaStart % 4096 = 0 by decide) (Nat.mul_mod_left _ _) (by
    change 0 < (d.metaSize + 4095) / 4096 * 4096
    omega)

theorem metaSliceMapping_valid (hrun : InitRun k index h₀ p h s proc) :
    (metaSliceMapping k (imageDescAt h₀.mem k.blob index)).Valid := by
  have hd := hrun.inPackage
  generalize imageDescAt h₀.mem k.blob index = d at *
  obtain ⟨hva, hend⟩ := metaSliceMapping_pages (k := k) d hd.meta_pos
  have h1 := k.fin_ge
  have h2 := k.fin_le
  have h3 := k.blob_mod
  have h4 := hd.meta_mod
  have h5 := hd.meta_le
  have h6 := hd.meta_fin
  have h7 : processMetaStart = 0x140000000 := by decide
  have hvirt : (metaSliceMapping k d).virt = processMetaStart := rfl
  have hphys : (metaSliceMapping k d).phys = k.blob + d.metaOffset := rfl
  have hsize : (metaSliceMapping k d).size = (d.metaSize + 4095) / 4096 * 4096 := rfl
  have hpa : (metaSliceMapping k d).pa ≤ k.blob + d.metaOffset := Nat.div_mul_le_self _ _
  exact ⟨by omega, by omega, by omega, by omega, pageProt_userRw, userAttr_userRw⟩

theorem initialised (hrun : InitRun k index h₀ p h s proc) (hsep : SeparatePages (headers k index h₀)) :
    Initialised p h s proc := by
  obtain ⟨hva, hend⟩ := metaSliceMapping_pages (k := k) (imageDescAt h₀.mem k.blob index) hrun.inPackage.meta_pos
  have hle := hrun.inPackage.meta_le
  have htop : processStackTop = 0x41C0000000 := by decide
  have hmax : processMaxStackSize = 65536 := rfl
  have himg : processImageEnd = 0x140000000 := by decide
  have hmeta : processMetaStart = processImageEnd := rfl
  refine processMemoryInit_space hrun.ok hrun.accepted.stackSize ?_ ?_ ?_ hrun.init
  · rw [hrun.segments_eq, hrun.meta_eq, List.forall_mem_append, List.forall_mem_map, List.forall_mem_singleton]
    exact ⟨fun ph hph => hrun.headerMapping_valid hph, hrun.metaSliceMapping_valid⟩
  · rw [hrun.segments_eq, hrun.meta_eq, AllApart, List.pairwise_append, List.pairwise_map]
    refine ⟨hsep.apart.imp fun {a b} hab x ha hb => ?_, List.pairwise_singleton _ _, ?_⟩
    · have h1 : a.pageStart ≤ x ∧ x < a.pageEnd := ha
      have h2 : b.pageStart ≤ x ∧ x < b.pageEnd := hb
      omega
    · rintro v hv w hw x hvx hwx
      obtain ⟨ph, hph, rfl⟩ := List.mem_map.mp hv
      obtain rfl := List.mem_singleton.mp hw
      have h1 := hsep.window ph hph
      have h2 : x < ph.pageEnd := hvx.2
      have h3 := hwx.1
      omega
  · rw [hrun.segments_eq, hrun.meta_eq, List.forall_mem_append, List.forall_mem_map, List.forall_mem_singleton]
    refine ⟨fun ph hph => ?_, by omega⟩
    have h1 := hsep.window ph hph
    change ph.pageEnd ≤ _
    omega

theorem stackMapping_pages (hrun : InitRun k index h₀ p h s proc) (hsep : SeparatePages (headers k index h₀)) :
    (stackMapping proc.mm).va = processStackTop - proc.mm.stackSize ∧ (stackMapping proc.mm).vaEnd = processStackTop ∧
      (stackMapping proc.mm).pa = proc.mm.stack ∧ proc.mm.stackSize ≤ processMaxStackSize := by
  have hinit := hrun.initialised hsep
  obtain ⟨hmod, hge, hle⟩ := chooseStackSize_spec hrun.accepted.stackSize
  rw [← hinit.stackSize] at hmod hge hle
  have htop : processStackTop = 0x41C0000000 := by decide
  have hvirt : (stackMapping proc.mm).virt = 0x41C0000000 - proc.mm.stackSize := by rw [← htop]; rfl
  have hsize : (stackMapping proc.mm).size = proc.mm.stackSize := rfl
  obtain ⟨hva, hend⟩ := Mapping.vaEnd_of_pages (w := stackMapping proc.mm) (by omega) (by omega) (by omega)
  exact ⟨by omega, by omega, Nat.div_mul_cancel (Nat.dvd_of_mod_eq_zero hinit.stack.aligned), hle⟩

def calls (k : KernelImage) (index : Nat) (h₀ : Heap) (mm : MemoryStruct) : List Mapping :=
  (headers k index h₀).map (headerMapping (k.blob + (imageDescAt h₀.mem k.blob index).imageOffset)) ++
    [metaSliceMapping k (imageDescAt h₀.mem k.blob index), stackMapping mm]

theorem mappings_eq (hrun : InitRun k index h₀ p h s proc) (mm : MemoryStruct) : mappings p mm = calls k index h₀ mm := by
  rw [mappings, calls, hrun.segments_eq, hrun.meta_eq]

theorem walk_iff (hrun : InitRun k index h₀ p h s proc) (hsep : SeparatePages (headers k index h₀)) {x : Nat}
    (hx : x < 2 ^ 48) {l : Leaf} :
    (walk s.mem 3 proc.mm.pgDir x).map norm = some l ↔ ∃ w ∈ calls k index h₀ proc.mm, w.Covers x ∧ l = w.leaf x := by
  have hinit := hrun.initialised hsep
  rw [hinit.space.walk x hx, spaceOf_eq_some hinit.apart, hrun.mappings_eq]

end InitRun

/-! ### The package of one image -/

theorem packageHeap_ok (phs : List ElfPhdr) (info : List UInt8) : (⟨packageHeap phs info, 0⟩ : VmState).Ok :=
  ⟨emptyKernel_ok.wf, emptyKernel_ok.zero, emptyKernel_ok.lt⟩

theorem packageHeap_reserved (phs : List ElfPhdr) (info : List UInt8) : packageImage.Reserved (packageHeap phs info) := by
  intro x h1 h2 hl
  refine hl.2 ⟨Regions.lookup_isSome_iff.mpr ⟨_, List.mem_singleton.mpr rfl, h1, h2⟩, ?_⟩
  rintro ⟨a, ha, -⟩
  cases ha

def runPackage (phs : List ElfPhdr) (info : List UInt8) : Option (LoadedProcess × Heap × VmState × UserProcess) :=
  match loadOneImage packageImage 0 (packageHeap phs info) with
  | some (h, .ok p) =>
    match ProcMem.processMemoryInit p h with
    | some (s, .ok proc) => some (p, h, s, proc)
    | _ => none
  | _ => none

theorem initRun_of_package {phs : List ElfPhdr} {info : List UInt8}
    (hpkg : checkPkgHeader (packageHeap phs info).mem packageImage.blob packageImage.blobSize = 0)
    (hrun : runPackage phs info = some (p, h, s, proc)) : InitRun packageImage 0 (packageHeap phs info) p h s proc := by
  unfold runPackage at hrun
  split at hrun
  · rename_i h₁ p₁ hload
    obtain ⟨hkept, -⟩ := loadOneImage_ok (packageHeap_ok phs info) (packageHeap_reserved phs info) hload
    split at hrun
    · rename_i hinit
      cases hrun
      exact ⟨hpkg, packageHeap_ok phs info, packageHeap_reserved phs info, ⟨h, hload⟩, hkept.ok, hkept.reserved, hinit⟩
    · cases hrun
  · cases hrun

end QuestOS
