import QuestOS.Mmu.VmapTables
import QuestOS.Process.Package

/-!
# The ELF loader

`load_one_image` checks a descriptor of the process package, turns the `PT_LOAD` headers of its ELF image
into the list of segments of a new process and reads its meta blob.  The package is part of the kernel
image; pointers into the image are physical addresses, and a read outside of it faults.  The contents of
`struct process_struct` and `struct vmem_segment` are records of their own, while their blocks are
allocated and freed in the heap.

The loader writes to blocks of its own only, so that it sees one and the same image all the time
(`loadSegments_spec`).
-/

namespace QuestOS

open Bytes

/-! ### The kernel image -/

/-- Where the kernel image stands in memory, with the process package in it.  Behind the package come
`.bss`, the initial page tables and the early stack. -/
structure KernelImage where
  start : Nat
  fin : Nat
  blob : Nat
  blobSize : Nat
  start_le : start ≤ blob
  blob_mod : blob % 4096 = 0
  fin_ge : (blob + blobSize + 4095) / 4096 * 4096 + 4096 ≤ fin
  fin_le : fin ≤ 2 ^ 47

def KernelImage.Reserved (k : KernelImage) (h : Heap) : Prop :=
  ∀ x, k.start ≤ x → x < k.fin → ¬ (h.mb.InMemory x ∧ ¬ h.mb.Held x)

/-! ### ELF -/

structure ElfHeader where
  ident : Nat → UInt8
  machine : Nat
  entry : Nat
  phoff : Nat
  phentsize : Nat
  phnum : Nat

def ElfHeader.load (m : Mem) (p : Nat) : ElfHeader where
  ident i := m (p + i)
  machine := loadLE m (p + 18) 2
  entry := loadLE m (p + 24) 8
  phoff := loadLE m (p + 32) 8
  phentsize := loadLE m (p + 54) 2
  phnum := loadLE m (p + 56) 2

structure ElfPhdr where
  type : Nat
  flags : Nat
  offset : Nat
  vaddr : Nat
  filesz : Nat
  memsz : Nat
  deriving DecidableEq, Repr

def ElfPhdr.load (m : Mem) (p : Nat) : ElfPhdr where
  type := loadLE m p 4
  flags := loadLE m (p + 4) 4
  offset := loadLE m (p + 8) 8
  vaddr := loadLE m (p + 16) 8
  filesz := loadLE m (p + 32) 8
  memsz := loadLE m (p + 40) 8

def sizeofElfPhdr : Nat := 56

def ptLoad : Nat := 1

def emAarch64 : Nat := 183

/-- The sum of the offset and the size of the table of program headers may wrap. -/
def checkElf64Aarch64 (m : Mem) (base size : Nat) : Int :=
  let eh := ElfHeader.load m base
  if size < 64 then negEinval
  else if eh.ident 0 ≠ 0x7f ∨ eh.ident 1 ≠ 0x45 ∨ eh.ident 2 ≠ 0x4c ∨ eh.ident 3 ≠ 0x46 then negEinval
  else if eh.ident 4 ≠ 2 then negEinval
  else if eh.ident 5 ≠ 1 then negEinval
  else if eh.machine ≠ emAarch64 then negEinval
  else if eh.phentsize ≠ sizeofElfPhdr then negEinval
  else if eh.phnum = 0 then negEinval
  else if size < add64 eh.phoff (eh.phnum * sizeofElfPhdr) then negEinval
  else 0

def checkElfPh (ph : ElfPhdr) (elfSize : Nat) : Int :=
  if elfSize < ph.offset then negEinval
  else if elfSize - ph.offset < ph.filesz then negEinval
  else if ph.memsz < ph.filesz then negEinval
  else if ph.vaddr &&& 0xfff ≠ ph.offset &&& 0xfff then negEinval
  else 0

/-! ### Segments -/

structure VmemSegment where
  self : Nat
  pa : Nat
  vaStart : Nat
  vaEnd : Nat
  flags : Nat
  zeroStart : Nat
  zeroSize : Nat
  deriving DecidableEq, Repr

def vmemSegmentSize : Nat := 56

def processStructSize : Nat := 3416

def checkVmemRegionOverlap : List VmemSegment → (start fin : Nat) → Int
  | [], _, _ => 0
  | seg :: segs, start, fin =>
    if fin ≤ seg.vaStart ∨ seg.vaEnd ≤ start then checkVmemRegionOverlap segs start fin else negEinval

def checkSectionRegionValid (segs : List VmemSegment) (ph : ElfPhdr) : Int :=
  if ph.vaddr < processImageStart ∨ processImageEnd < add64 ph.vaddr ph.memsz ∨ add64 ph.vaddr ph.memsz < ph.vaddr then
    negEinval
  else checkVmemRegionOverlap segs ph.vaddr ph.memsz

def segmentOf (elfBase self : Nat) (ph : ElfPhdr) : VmemSegment where
  self := self
  pa := add64 elfBase ph.offset
  vaStart := ph.vaddr
  vaEnd := add64 ph.vaddr ph.memsz
  flags := ph.flags
  zeroStart := add64 (add64 elfBase ph.offset) ph.filesz
  zeroSize := sub64 ph.memsz ph.filesz

def loadSegments (k : KernelImage) (elfBase elfSize : Nat) :
    (n ph : Nat) → List VmemSegment → Heap → Option (Heap × Int × List VmemSegment)
  | 0, _, segs, h => some (h, 0, segs)
  | n + 1, p, segs, h =>
    if p < k.start ∨ k.fin < p + sizeofElfPhdr then none
    else
      let ph := ElfPhdr.load h.mem p
      if ph.type ≠ ptLoad then loadSegments k elfBase elfSize n (add64 p sizeofElfPhdr) segs h
      else if checkElfPh ph elfSize ≠ 0 then some (h, checkElfPh ph elfSize, segs)
      else if checkSectionRegionValid segs ph ≠ 0 then some (h, checkSectionRegionValid segs ph, segs)
      else
        match kmalloc vmemSegmentSize true h with
        | none => none
        -- the result is not checked, and a store to `NULL` faults
        | some (_, none) => none
        | some (h, some self) =>
          loadSegments k elfBase elfSize n (add64 p sizeofElfPhdr) (segs ++ [segmentOf elfBase self ph]) h

/-! ### Processes -/

structure LoadedProcess where
  self : Nat
  name : List UInt8
  user : UserProcess
  segments : List VmemSegment

def freeSegments : List VmemSegment → Heap → Option Heap
  | [], h => some h
  | seg :: segs, h => (kfree seg.self h).bind fun q => freeSegments segs q.1

def freeUserElf (process : Nat) (segs : List VmemSegment) (h : Heap) : Option Heap :=
  (freeSegments segs h).bind fun h => (kfree process h).map Prod.fst

def newProcess (entry regions : Nat) : UserProcess where
  image := ⟨0, 0, 0, [], 0, [], 0, [], 0, entry⟩
  mm := ⟨0, 0, 0, 0, 0, 0, regions⟩
  kernelStack := 0
  sp := 0
  frame := none
  pid := 0

def loadUserElf (k : KernelImage) (elfBase elfSize : Nat) (h : Heap) : Option (Heap × Except Int LoadedProcess) :=
  let err := checkElf64Aarch64 h.mem elfBase elfSize
  if err ≠ 0 then some (h, .error err)
  else
    let eh := ElfHeader.load h.mem elfBase
    match kmalloc processStructSize true h with
    | none => none
    | some (h, none) => some (h, .error negEnomem)
    | some (h, some process) =>
      match loadSegments k elfBase elfSize eh.phnum (add64 elfBase eh.phoff) [] h with
      | none => none
      | some (h, err, segs) =>
        if err ≠ 0 then (freeUserElf process segs h).map fun h => (h, .error err)
        else some (h, .ok ⟨process, [], newProcess eh.entry segs.length, segs⟩)

def loadOneImage (k : KernelImage) (index : Nat) (h : Heap) : Option (Heap × Except Int LoadedProcess) :=
  let header := PkgHeader.load h.mem k.blob
  let desc := imageDescAt h.mem k.blob index
  let err := checkImageDesc header desc
  if err ≠ 0 then some (h, .error err)
  else if desc.type ≠ procImgElf then some (h, .error negEinval)
  else
    match loadUserElf k (k.blob + desc.imageOffset) desc.imageSize h with
    | none => none
    | some (h, .error err) => some (h, .error err)
    | some (h, .ok proc) =>
      match loadUserMeta h.mem (k.blob + desc.metaOffset) desc.metaSize proc.user.image with
      | .error err => (freeUserElf proc.self proc.segments h).map fun h => (h, .error err)
      | .ok (name, image) => some (h, .ok { proc with name := name, user := { proc.user with image := image } })

/-! ### What is loaded -/

variable {k : KernelImage} {elfBase elfSize n p : Nat} {h h' : Heap} {segs segs' : List VmemSegment} {m m' : Mem}

def loadHeaders (m : Mem) : (n p : Nat) → List ElfPhdr
  | 0, _ => []
  | n + 1, p =>
    if (ElfPhdr.load m p).type = ptLoad then ElfPhdr.load m p :: loadHeaders m n (add64 p sizeofElfPhdr)
    else loadHeaders m n (add64 p sizeofElfPhdr)

def imageHeaders (m : Mem) (elfBase : Nat) : List ElfPhdr :=
  let eh := ElfHeader.load m elfBase
  loadHeaders m eh.phnum (add64 elfBase eh.phoff)

structure ElfPhdr.Checked (ph : ElfPhdr) (elfSize : Nat) : Prop where
  file : ph.offset + ph.filesz ≤ elfSize
  filesz_le : ph.filesz ≤ ph.memsz
  congr : ph.vaddr % 4096 = ph.offset % 4096
  start : processImageStart ≤ ph.vaddr
  fin : ph.vaddr + ph.memsz ≤ processImageEnd

theorem checkElfPh_eq_zero (ph : ElfPhdr) : checkElfPh ph elfSize = 0 ↔
    ph.offset ≤ elfSize ∧ ph.filesz ≤ elfSize - ph.offset ∧ ph.filesz ≤ ph.memsz ∧ ph.vaddr % 4096 = ph.offset % 4096 := by
  have hmask : ∀ x : Nat, x &&& 0xfff = x % 4096 := fun x => Nat.and_two_pow_sub_one_eq_mod x 12
  simp only [checkElfPh, hmask, ite_negEinval_eq_zero, Nat.not_lt, ne_eq, not_not, and_true]

def ElfPhdr.InWindow (ph : ElfPhdr) : Prop := processImageStart ≤ ph.vaddr ∧ ph.vaddr + ph.memsz ≤ processImageEnd

theorem checkSectionRegionValid_eq_zero {ph : ElfPhdr} (hv : ph.vaddr < 2 ^ 64) (hm : ph.memsz < 2 ^ 64) :
    checkSectionRegionValid segs ph = 0 ↔ ph.InWindow ∧ checkVmemRegionOverlap segs ph.vaddr ph.memsz = 0 := by
  have hend : processImageEnd = 0x140000000 := by decide
  rw [checkSectionRegionValid, ite_negEinval_eq_zero, ElfPhdr.InWindow, add64]
  refine and_congr_left fun _ => ?_
  omega

theorem ElfPhdr.load_lt (m : Mem) (p : Nat) : (ElfPhdr.load m p).vaddr < 2 ^ 64 ∧ (ElfPhdr.load m p).memsz < 2 ^ 64 :=
  ⟨loadLE_lt m (p + 16) 8, loadLE_lt m (p + 40) 8⟩

theorem checked_of_checks (h1 : checkElfPh (ElfPhdr.load m p) elfSize = 0)
    (h2 : checkSectionRegionValid segs (ElfPhdr.load m p) = 0) : (ElfPhdr.load m p).Checked elfSize := by
  obtain ⟨hv, hm⟩ := ElfPhdr.load_lt m p
  obtain ⟨h3, h4, h5, h6⟩ := (checkElfPh_eq_zero _).mp h1
  obtain ⟨⟨h7, h8⟩, -⟩ := (checkSectionRegionValid_eq_zero hv hm).mp h2
  exact ⟨by omega, h5, h6, h7, h8⟩

theorem ElfPhdr.load_congr (hm : ∀ x, p ≤ x → x < p + sizeofElfPhdr → m x = m' x) :
    ElfPhdr.load m p = ElfPhdr.load m' p := by
  have hfield : ∀ a n, p ≤ a → a + n ≤ p + sizeofElfPhdr → loadLE m a n = loadLE m' a n :=
    fun a n h1 h2 => loadLE_congr fun x h3 h4 => hm x (by omega) (by omega)
  have h56 : sizeofElfPhdr = 56 := rfl
  rw [ElfPhdr.load, ElfPhdr.load, hfield p 4 (by omega) (by omega), hfield (p + 4) 4 (by omega) (by omega),
    hfield (p + 8) 8 (by omega) (by omega), hfield (p + 16) 8 (by omega) (by omega),
    hfield (p + 32) 8 (by omega) (by omega), hfield (p + 40) 8 (by omega) (by omega)]

structure KernelImage.Kept (k : KernelImage) (h h' : Heap) : Prop where
  ok : (⟨h', 0⟩ : VmState).Ok
  reserved : k.Reserved h'
  mem : ∀ x, k.start ≤ x → x < k.fin → h'.mem x = h.mem x

theorem KernelImage.Kept.trans {h₁ : Heap} (h1 : k.Kept h h₁) (h2 : k.Kept h₁ h') : k.Kept h h' :=
  ⟨h2.ok, h2.reserved, fun x hx1 hx2 => (h2.mem x hx1 hx2).trans (h1.mem x hx1 hx2)⟩

theorem Kmalloced.kept {zero : Bool} {pa : Nat} (hk : Kmalloced n zero pa h h') (hok : (⟨h, 0⟩ : VmState).Ok)
    (hres : k.Reserved h) : k.Kept h h' := by
  have hg : VmState.Grows ⟨h, 0⟩ ⟨h', 0⟩ := hk.grows hok
  refine ⟨hg.ok, fun x h1 h2 hl => hres x h1 h2 (hg.loose hl), fun x h1 h2 => ?_⟩
  apply hk.frame
  rintro ⟨h3, h4⟩
  exact hres x h1 h2 (hk.loose h3 h4)

/-- A round of the loop: the header is skipped, or it passed the checks and became a segment. -/
theorem loadSegments_succ (hok : (⟨h, 0⟩ : VmState).Ok) (hres : k.Reserved h)
    (hrun : loadSegments k elfBase elfSize (n + 1) p segs h = some (h', 0, segs')) :
    (k.start ≤ p ∧ p + sizeofElfPhdr ≤ k.fin) ∧
      ((ElfPhdr.load h.mem p).type ≠ ptLoad ∧
          loadSegments k elfBase elfSize n (add64 p sizeofElfPhdr) segs h = some (h', 0, segs') ∨
        (ElfPhdr.load h.mem p).type = ptLoad ∧ checkElfPh (ElfPhdr.load h.mem p) elfSize = 0 ∧
          checkSectionRegionValid segs (ElfPhdr.load h.mem p) = 0 ∧
          ∃ h₁ self, k.Kept h h₁ ∧ loadSegments k elfBase elfSize n (add64 p sizeofElfPhdr)
            (segs ++ [segmentOf elfBase self (ElfPhdr.load h.mem p)]) h₁ = some (h', 0, segs')) := by
  rw [loadSegments] at hrun
  split at hrun
  · cases hrun
  refine ⟨by omega, ?_⟩
  dsimp only at hrun
  split at hrun
  · rename_i htype
    exact .inl ⟨htype, hrun⟩
  rename_i htype
  split at hrun
  · rename_i h1
    simp only [Option.some.injEq, Prod.mk.injEq] at hrun
    exact absurd hrun.2.1 h1
  rename_i h1
  split at hrun
  · rename_i h2
    simp only [Option.some.injEq, Prod.mk.injEq] at hrun
    exact absurd hrun.2.1 h2
  rename_i h2
  rcases hok.kmalloc_cases (n := vmemSegmentSize) (by decide) true with hk | ⟨h₁, pa, hk, hk'⟩
  · simp only [hk] at hrun
    cases hrun
  · simp only [hk] at hrun
    exact .inr ⟨not_not.mp htype, not_not.mp h1, not_not.mp h2, h₁, pa + mallocHeaderSize, hk'.kept hok hres, hrun⟩

/-- The segments are made of the `PT_LOAD` headers, which all passed the checks.  `m` is the memory when the
loader starts. -/
theorem loadSegments_spec (hok : (⟨h, 0⟩ : VmState).Ok) (hres : k.Reserved h)
    (hm : ∀ x, k.start ≤ x → x < k.fin → h.mem x = m x)
    (hrun : loadSegments k elfBase elfSize n p segs h = some (h', 0, segs')) :
    k.Kept h h' ∧ (∀ ph ∈ loadHeaders m n p, ph.Checked elfSize) ∧
      ∃ new, segs' = segs ++ new ∧
        List.Forall₂ (fun ph seg => seg = segmentOf elfBase seg.self ph) (loadHeaders m n p) new := by
  induction n generalizing p segs h with
  | zero =>
    simp only [loadSegments, Option.some.injEq, Prod.mk.injEq, true_and] at hrun
    obtain ⟨rfl, rfl⟩ := hrun
    exact ⟨⟨hok, hres, fun _ _ _ => rfl⟩, nofun, [], (List.append_nil _).symm, .nil⟩
  | succ n ih =>
    obtain ⟨⟨hp1, hp2⟩, hcases⟩ := loadSegments_succ hok hres hrun
    have hph : ElfPhdr.load h.mem p = ElfPhdr.load m p := ElfPhdr.load_congr fun x h1 h2 => hm x (by omega) (by omega)
    rw [hph] at hcases
    rw [loadHeaders]
    rcases hcases with ⟨htype, hrest⟩ | ⟨htype, h1, h2, h₁, self, hkept, hrest⟩
    · rw [if_neg htype]
      exact ih hok hres hm hrest
    · rw [if_pos htype]
      obtain ⟨ih1, ih2, new, rfl, ih3⟩ := ih hkept.ok hkept.reserved
        (fun x hx1 hx2 => (hkept.mem x hx1 hx2).trans (hm x hx1 hx2)) hrest
      refine ⟨hkept.trans ih1, ?_, _ :: new, List.append_assoc _ _ _, .cons rfl ih3⟩
      rw [List.forall_mem_cons]
      exact ⟨checked_of_checks h1 h2, ih2⟩

/-- What `load_one_image` leaves when it accepts the image that `desc` describes; `m` is the memory when it
starts. -/
structure Accepted (k : KernelImage) (m : Mem) (desc : ImageDesc) (proc : LoadedProcess) : Prop where
  desc_ok : checkImageDesc (PkgHeader.load m k.blob) desc = 0
  elf : desc.type = procImgElf
  header : checkElf64Aarch64 m (k.blob + desc.imageOffset) desc.imageSize = 0
  checked : ∀ ph ∈ imageHeaders m (k.blob + desc.imageOffset), ph.Checked desc.imageSize
  segments : List.Forall₂ (fun ph seg => seg = segmentOf (k.blob + desc.imageOffset) seg.self ph)
    (imageHeaders m (k.blob + desc.imageOffset)) proc.segments
  metaData : proc.user.image.metaData = k.blob + desc.metaOffset
  metaSize : proc.user.image.metaSize = desc.metaSize % 2 ^ 32
  stackSize : proc.user.image.stackSize % pageSize = 0

theorem loadUserMeta_ok {base size : Nat} {image image' : ProcessImage} {name : List UInt8}
    (hl : loadUserMeta m base size image = .ok (name, image')) :
    image'.metaData = base ∧ image'.metaSize = size % 2 ^ 32 ∧ image'.stackSize % pageSize = 0 := by
  unfold loadUserMeta at hl
  by_cases hc : checkImageMeta m base size = 0
  · rw [if_neg (not_not.mpr hc)] at hl
    cases hl
    exact ⟨rfl, rfl, (metaChecked_of_check hc).stackSize_mod⟩
  · rw [if_pos hc] at hl
    cases hl

variable {proc : LoadedProcess}

theorem loadUserElf_cases (hok : (⟨h, 0⟩ : VmState).Ok) (hres : k.Reserved h)
    (hrun : loadUserElf k elfBase elfSize h = some (h', .ok proc)) :
    checkElf64Aarch64 h.mem elfBase elfSize = 0 ∧ ∃ h₁, k.Kept h h₁ ∧
      loadSegments k elfBase elfSize (ElfHeader.load h.mem elfBase).phnum
        (add64 elfBase (ElfHeader.load h.mem elfBase).phoff) [] h₁ = some (h', 0, proc.segments) := by
  unfold loadUserElf at hrun
  dsimp only at hrun
  split at hrun
  · cases hrun
  rename_i hhdr
  rcases hok.kmalloc_cases (n := processStructSize) (by decide) true with hk | ⟨h₁, pa, hk, hk'⟩
  · simp only [hk] at hrun
    cases hrun
  · simp only [hk] at hrun
    split at hrun
    · cases hrun
    rename_i h₂ err segs hsegs
    split at hrun
    · simp only [Option.map_eq_some_iff, Prod.mk.injEq, reduceCtorEq, and_false, exists_false] at hrun
    rename_i herr
    simp only [Option.some.injEq, Prod.mk.injEq, Except.ok.injEq] at hrun
    obtain ⟨rfl, rfl⟩ := hrun
    rw [not_not.mp herr] at hsegs
    exact ⟨not_not.mp hhdr, h₁, hk'.kept hok hres, hsegs⟩

theorem loadUserElf_ok (hok : (⟨h, 0⟩ : VmState).Ok) (hres : k.Reserved h)
    (hrun : loadUserElf k elfBase elfSize h = some (h', .ok proc)) :
    k.Kept h h' ∧ checkElf64Aarch64 h.mem elfBase elfSize = 0 ∧
      (∀ ph ∈ imageHeaders h.mem elfBase, ph.Checked elfSize) ∧
      List.Forall₂ (fun ph seg => seg = segmentOf elfBase seg.self ph) (imageHeaders h.mem elfBase) proc.segments := by
  obtain ⟨hhdr, h₁, hkept, hsegs⟩ := loadUserElf_cases hok hres hrun
  obtain ⟨h1, h2, new, hnew, h3⟩ := loadSegments_spec hkept.ok hkept.reserved hkept.mem hsegs
  rw [List.nil_append] at hnew
  rw [hnew]
  exact ⟨hkept.trans h1, hhdr, h2, h3⟩

theorem loadOneImage_ok {index : Nat} (hok : (⟨h, 0⟩ : VmState).Ok) (hres : k.Reserved h)
    (hrun : loadOneImage k index h = some (h', .ok proc)) :
    k.Kept h h' ∧ Accepted k h.mem (imageDescAt h.mem k.blob index) proc := by
  unfold loadOneImage at hrun
  dsimp only at hrun
  split at hrun
  · cases hrun
  rename_i hdesc
  split at hrun
  · cases hrun
  rename_i htype
  split at hrun
  · cases hrun
  · cases hrun
  rename_i h₁ proc₁ helf
  obtain ⟨hkept, h1, h2, h3⟩ := loadUserElf_ok hok hres helf
  split at hrun
  · simp only [Option.map_eq_some_iff, Prod.mk.injEq, reduceCtorEq, and_false, exists_false] at hrun
  rename_i name image hmeta
  simp only [Option.some.injEq, Prod.mk.injEq, Except.ok.injEq] at hrun
  obtain ⟨rfl, rfl⟩ := hrun
  obtain ⟨h4, h5, h6⟩ := loadUserMeta_ok hmeta
  exact ⟨hkept, not_not.mp hdesc, not_not.mp htype, h1, h2, h3, h4, h5, h6⟩

end QuestOS
