import QuestOS.Lib.Regions
import QuestOS.Process.Meta

/-!
# The process package

The package tool lays out the images, writes header, descriptors and slices one after the other, and fills
the gaps with zeros; the loader reads header and descriptors back and checks them with its own arithmetic.

The slices of a package are a sorted list of regions, each tagged with its bytes.  The layout cursor only
moves up, so that the list is sorted (`layoutLoop_sorted`); a writer that meets sorted slices never has to go
back, and each slice stands where its region says (`writeImages_sorted`).
-/

namespace QuestOS

open Bytes Regions

namespace ProcPack

/-! ### The package tool -/

structure PackImage where
  type : Nat
  flags : Nat
  loadHint : Nat
  entryHint : Nat
  data : List UInt8
  blob : List UInt8
  built : ∃ spec, buildImageMeta spec = some blob

structure PlacedImage where
  image : PackImage
  imageOffset : Nat
  imageSize : Nat
  metaOffset : Nat
  metaSize : Nat

def layoutLoop (align : Nat) : (current : Nat) → List PackImage → List PlacedImage × Nat
  | current, [] => ([], current)
  | current, img :: imgs =>
    let imageOffset := alignUp current align
    let current := imageOffset + img.data.length
    let metaOffset := alignUp current align
    let current := metaOffset + img.blob.length
    let (placed, current) := layoutLoop align current imgs
    (⟨img, imageOffset, img.data.length, metaOffset, img.blob.length⟩ :: placed, current)

def layoutPackage (images : List PackImage) (align : Nat) : List PlacedImage × Nat :=
  let current := alignUp (headerSize + images.length * descSize) align
  let (placed, current) := layoutLoop align current images
  (placed, alignUp current align)

def descFields (p : PlacedImage) : List (Nat × Nat) :=
  [(4, p.image.type), (4, p.image.flags), (8, p.imageOffset), (8, p.imageSize), (8, p.metaOffset), (8, p.metaSize),
    (8, p.image.loadHint), (8, p.image.entryHint)]

def buildDescriptors : List PlacedImage → Option (List (List UInt8))
  | [] => some []
  | p :: ps => (pack (descFields p)).bind fun desc => (buildDescriptors ps).map (desc :: ·)

def writePadding (f : List UInt8) (target : Nat) : Option (List UInt8) :=
  if target < f.length then none else some (f ++ List.replicate (target - f.length) 0)

def writeImages (f : List UInt8) : List PlacedImage → Option (List UInt8)
  | [] => some f
  | p :: ps =>
    (writePadding f p.imageOffset).bind fun f =>
    (writePadding (f ++ p.image.data) p.metaOffset).bind fun f =>
    writeImages (f ++ p.image.blob) ps

def headerFields (imageCount descsSize totalSize : Nat) : List (Nat × Nat) :=
  [(4, 0x504B4750), (2, 1), (2, headerSize), (4, imageCount), (4, headerSize), (4, descsSize), (4, 0), (8, totalSize)]

def writePackage (descs : List (List UInt8)) (images : List PlacedImage) (totalSize : Nat) : Option (List UInt8) :=
  (pack (headerFields images.length (descs.length * descSize) totalSize)).bind fun header =>
  (writeImages (header ++ descs.flatten) images).bind fun f =>
  writePadding f totalSize

def packageFile (images : List PackImage) (align : Nat) : Option (List UInt8) :=
  let (placed, totalSize) := layoutPackage images align
  (buildDescriptors placed).bind fun descs => writePackage descs placed totalSize

end ProcPack

/-! ### The loader -/

structure PkgHeader where
  magic : Nat
  version : Nat
  headerSize : Nat
  imageCount : Nat
  descOffset : Nat
  descSize : Nat
  reserved : Nat
  totalSize : Nat

def PkgHeader.load (m : Mem) (p : Nat) : PkgHeader where
  magic := loadLE m p 4
  version := loadLE m (p + 4) 2
  headerSize := loadLE m (p + 6) 2
  imageCount := loadLE m (p + 8) 4
  descOffset := loadLE m (p + 12) 4
  descSize := loadLE m (p + 16) 4
  reserved := loadLE m (p + 20) 4
  totalSize := loadLE m (p + 24) 8

structure ImageDesc where
  type : Nat
  flags : Nat
  imageOffset : Nat
  imageSize : Nat
  metaOffset : Nat
  metaSize : Nat
  loadHint : Nat
  entryHint : Nat

def ImageDesc.load (m : Mem) (p : Nat) : ImageDesc where
  type := loadLE m p 4
  flags := loadLE m (p + 4) 4
  imageOffset := loadLE m (p + 8) 8
  imageSize := loadLE m (p + 16) 8
  metaOffset := loadLE m (p + 24) 8
  metaSize := loadLE m (p + 32) 8
  loadHint := loadLE m (p + 40) 8
  entryHint := loadLE m (p + 48) 8

def procPkgMagic : Nat := 0x504B4750

def alignPage32 (x : Nat) : Nat := (x + 4095) % 2 ^ 32 - ((x + 4095) % 2 ^ 32 &&& 4095)

def PkgHeader.descEnd (h : PkgHeader) : Nat := (h.descOffset + h.descSize) % 2 ^ 32

def checkPkgHeader (m : Mem) (base blobSize : Nat) : Int :=
  let h := PkgHeader.load m base
  if blobSize < 32 then negEinval
  else if h.magic ≠ procPkgMagic then negEinval
  else if h.version < 1 then negEinval
  else if h.headerSize < 32 ∨ blobSize < h.headerSize then negEinval
  else if h.totalSize < h.headerSize ∨ blobSize < h.totalSize then negEinval
  else if h.imageCount = 0 then negEinval
  else if (2 ^ 32 - 1) / 56 < h.imageCount ∨ h.descSize ≠ h.imageCount * 56 then negEinval
  else if h.descOffset < h.headerSize ∨ h.totalSize ≤ h.descOffset then negEinval
  else if h.totalSize - h.descOffset < h.descSize then negEinval
  else if h.totalSize < alignUp h.descEnd pageSize then negEinval
  else 0

def processMaxImageSize : Nat := 128 * 2 ^ 20

def processMaxMetaSize : Nat := 2 ^ 20

def procImgElf : Nat := 1

def procImgFlat : Nat := 2

def checkImageDesc (h : PkgHeader) (d : ImageDesc) : Int :=
  let payloadStart := alignPage32 h.descEnd
  if h.totalSize ≤ d.imageOffset ∨ h.totalSize ≤ d.metaOffset then negEinval
  else if d.imageOffset < payloadStart ∨ d.metaOffset < payloadStart then negEinval
  else if d.imageSize = 0 ∨ processMaxImageSize < d.imageSize ∨ d.metaSize = 0 ∨ processMaxMetaSize < d.metaSize then
    negEinval
  else if h.totalSize - d.imageOffset < d.imageSize ∨ h.totalSize - d.metaOffset < d.metaSize then negEinval
  else if d.imageOffset &&& 0xfff ≠ 0 ∨ d.metaOffset &&& 0xfff ≠ 0 then negEinval
  else if d.type = procImgElf ∨ d.type = procImgFlat then 0
  else negEinval

def imageDescAt (m : Mem) (base index : Nat) : ImageDesc :=
  ImageDesc.load m (base + (PkgHeader.load m base).descOffset + index * 56)

/-! ### Layout -/

namespace ProcPack

variable {k : Nat} {f file : List UInt8} {imgs : List PackImage} {placed : List PlacedImage}

theorem le_alignUp (x k : Nat) : x ≤ alignUp x (2 ^ k) := by
  rw [alignUp_two_pow]
  have hpos : 0 < 2 ^ k := Nat.two_pow_pos k
  have h1 := Nat.div_add_mod (x + 2 ^ k - 1) (2 ^ k)
  have h2 := Nat.mod_lt (x + 2 ^ k - 1) hpos
  rw [Nat.mul_comm] at h1
  omega

theorem dvd_alignUp (x k : Nat) : 2 ^ k ∣ alignUp x (2 ^ k) := by
  rw [alignUp_two_pow]
  exact Nat.dvd_mul_left _ _

def PlacedImage.slices (p : PlacedImage) : List (Region (List UInt8)) :=
  [⟨p.imageOffset, p.imageSize, p.image.data⟩, ⟨p.metaOffset, p.metaSize, p.image.blob⟩]

def slices (placed : List PlacedImage) : List (Region (List UInt8)) := placed.flatMap PlacedImage.slices

@[simp] theorem slices_cons (p : PlacedImage) (ps : List PlacedImage) :
    slices (p :: ps) = ⟨p.imageOffset, p.imageSize, p.image.data⟩ :: ⟨p.metaOffset, p.metaSize, p.image.blob⟩ :: slices ps := by
  simp [slices, PlacedImage.slices]

def Sized (l : List (Region (List UInt8))) : Prop := ∀ r ∈ l, r.size = r.tag.length

theorem PackImage.blob_pos (img : PackImage) : 0 < img.blob.length := by
  obtain ⟨spec, h⟩ := img.built
  obtain ⟨-, h⟩ := buildImageMeta_eq_some.1 h
  rw [h, length_metaBlob]
  have := (stringTable spec).name_in.1
  omega

theorem layoutLoop_sorted (cur : Nat) (hdata : ∀ img ∈ imgs, img.data ≠ []) :
    SortedFrom cur (slices (layoutLoop (2 ^ k) cur imgs).1) ∧
      finFrom cur (slices (layoutLoop (2 ^ k) cur imgs).1) = (layoutLoop (2 ^ k) cur imgs).2 := by
  induction imgs generalizing cur with
  | nil => exact ⟨trivial, rfl⟩
  | cons img imgs ih =>
    rw [List.forall_mem_cons] at hdata
    have hpos := List.length_pos_of_ne_nil hdata.1
    have h1 := le_alignUp cur k
    have h2 := le_alignUp (alignUp cur (2 ^ k) + img.data.length) k
    obtain ⟨ih1, ih2⟩ := ih (alignUp (alignUp cur (2 ^ k) + img.data.length) (2 ^ k) + img.blob.length) hdata.2
    rw [layoutLoop]
    dsimp only
    rw [slices_cons]
    exact ⟨⟨h1, hpos, h2, img.blob_pos, ih1⟩, ih2⟩

theorem layoutLoop_aligned (cur : Nat) :
    (∀ r ∈ slices (layoutLoop (2 ^ k) cur imgs).1, 2 ^ k ∣ r.base) ∧ Sized (slices (layoutLoop (2 ^ k) cur imgs).1) := by
  induction imgs generalizing cur with
  | nil => exact ⟨nofun, nofun⟩
  | cons img imgs ih =>
    obtain ⟨ih1, ih2⟩ := ih (alignUp (alignUp cur (2 ^ k) + img.data.length) (2 ^ k) + img.blob.length)
    rw [layoutLoop]
    dsimp only
    rw [slices_cons, Sized, List.forall_mem_cons, List.forall_mem_cons, List.forall_mem_cons, List.forall_mem_cons]
    exact ⟨⟨dvd_alignUp _ _, dvd_alignUp _ _, ih1⟩, rfl, rfl, ih2⟩

theorem layoutLoop_images (align cur : Nat) : (layoutLoop align cur imgs).1.map PlacedImage.image = imgs := by
  induction imgs generalizing cur with
  | nil => rfl
  | cons img imgs ih =>
    rw [layoutLoop]
    dsimp only
    rw [List.map_cons, ih]

/-! ### Writing -/

def InFile (file : List UInt8) (r : Region (List UInt8)) : Prop := r.fin ≤ file.length ∧ r.tag <+: file.drop r.base

variable {r : Region (List UInt8)}

theorem InFile.mono (h : InFile f r) (hp : f <+: file) : InFile file r := by
  obtain ⟨g, rfl⟩ := hp
  have hfin : r.base ≤ r.fin := Nat.le_add_right _ _
  refine ⟨by rw [List.length_append]; have := h.1; omega, ?_⟩
  rw [List.drop_append_of_le_length (Nat.le_trans hfin h.1)]
  exact h.2.trans (List.prefix_append _ _)

theorem writePadding_slice (h : f.length ≤ r.base) (hs : r.size = r.tag.length) :
    ∃ g, writePadding f r.base = some g ∧ f <+: g ++ r.tag ∧ (g ++ r.tag).length = r.fin ∧ InFile (g ++ r.tag) r := by
  refine ⟨f ++ List.replicate (r.base - f.length) 0, if_neg (by omega), ?_, ?_, ?_⟩
  · rw [List.append_assoc]
    exact List.prefix_append _ _
  · simp only [List.length_append, List.length_replicate, Region.fin]
    omega
  · constructor
    · simp only [List.length_append, List.length_replicate, Region.fin]
      omega
    · have hdrop : (f ++ List.replicate (r.base - f.length) 0 ++ r.tag).drop r.base = r.tag :=
        List.drop_left' (by simp only [List.length_append, List.length_replicate]; omega)
      simp only [hdrop, List.prefix_refl]

theorem writeImages_sorted (hsort : SortedFrom f.length (slices placed)) (hsize : Sized (slices placed)) :
    ∃ file, writeImages f placed = some file ∧ f <+: file ∧ file.length = finFrom f.length (slices placed) ∧
      ∀ r ∈ slices placed, InFile file r := by
  induction placed generalizing f with
  | nil => exact ⟨f, rfl, List.prefix_rfl, rfl, nofun⟩
  | cons p ps ih =>
    rw [slices_cons] at hsort hsize ⊢
    rw [Sized, List.forall_mem_cons, List.forall_mem_cons] at hsize
    obtain ⟨h1, -, h2, -, hrest⟩ := hsort
    obtain ⟨s1, s2, s3⟩ := hsize
    obtain ⟨g1, w1, p1, l1, i1⟩ := writePadding_slice h1 s1
    rw [← l1] at h2
    obtain ⟨g2, w2, p2, l2, i2⟩ := writePadding_slice h2 s2
    rw [← l2] at hrest
    obtain ⟨file, w3, p3, l3, i3⟩ := ih hrest s3
    refine ⟨file, ?_, p1.trans (p2.trans p3), ?_, ?_⟩
    · rw [writeImages, w1, Option.bind_some, w2, Option.bind_some, w3]
    · rw [l3, l2, finFrom, finFrom]
    · rw [List.forall_mem_cons, List.forall_mem_cons]
      exact ⟨i1.mono (p2.trans p3), i2.mono p3, i3⟩

theorem buildDescriptors_eq_some {descs : List (List UInt8)} :
    buildDescriptors placed = some descs ↔
      (∀ p ∈ placed, Fits (descFields p)) ∧ descs = placed.map fun p => encodeFields (descFields p) := by
  induction placed generalizing descs with
  | nil => simp [buildDescriptors, eq_comm]
  | cons p ps ih =>
    simp only [buildDescriptors, Option.bind_eq_some_iff, Option.map_eq_some_iff, pack_eq_some, ih, List.forall_mem_cons,
      List.map_cons]
    constructor
    · rintro ⟨_, ⟨h1, rfl⟩, _, ⟨h2, rfl⟩, rfl⟩
      exact ⟨⟨h1, h2⟩, rfl⟩
    · rintro ⟨⟨h1, h2⟩, rfl⟩
      exact ⟨_, ⟨h1, rfl⟩, _, ⟨h2, rfl⟩, rfl⟩

def preamble (placed : List PlacedImage) (totalSize : Nat) : List UInt8 :=
  encodeFields (headerFields placed.length (placed.length * descSize) totalSize) ++
    encodeFields (placed.flatMap descFields)

theorem length_preamble (placed : List PlacedImage) (totalSize : Nat) :
    (preamble placed totalSize).length = headerSize + placed.length * descSize := by
  have hdescs : (encodeFields (placed.flatMap descFields)).length = placed.length * descSize := by
    induction placed with
    | nil => rfl
    | cons p ps ih =>
      rw [List.flatMap_cons, encodeFields_append, List.length_append, ih, List.length_cons, Nat.succ_mul, Nat.add_comm]
      rfl
  rw [preamble, List.length_append, hdescs]
  rfl

structure Package (placed : List PlacedImage) (totalSize : Nat) (file : List UInt8) : Prop where
  preamble_prefix : preamble placed totalSize <+: file
  length_eq : file.length = totalSize
  inFile : ∀ r ∈ slices placed, InFile file r

theorem flatten_descs (placed : List PlacedImage) :
    (placed.map fun p => encodeFields (descFields p)).flatten = encodeFields (placed.flatMap descFields) := by
  induction placed with
  | nil => rfl
  | cons p ps ih => rw [List.map_cons, List.flatten_cons, ih, List.flatMap_cons, encodeFields_append]

theorem writePackage_sorted {total : Nat} (hsort : SortedFrom (headerSize + placed.length * descSize) (slices placed))
    (hsize : Sized (slices placed)) (hfin : finFrom (headerSize + placed.length * descSize) (slices placed) ≤ total)
    (hheader : Fits (headerFields placed.length (placed.length * descSize) total)) :
    ∃ file, writePackage (placed.map fun p => encodeFields (descFields p)) placed total = some file ∧
      Package placed total file := by
  have hpre : encodeFields (headerFields placed.length (placed.length * descSize) total) ++
      (placed.map fun p => encodeFields (descFields p)).flatten = preamble placed total := by rw [flatten_descs, preamble]
  rw [← length_preamble placed total] at hsort hfin
  obtain ⟨f, hw, hp, hl, hin⟩ := writeImages_sorted hsort hsize
  have hpad : writePadding f total = some (f ++ List.replicate (total - f.length) 0) := if_neg (by omega)
  refine ⟨f ++ List.replicate (total - f.length) 0, ?_, ?_, ?_, ?_⟩
  · rw [writePackage, List.length_map, pack_eq_some.2 ⟨hheader, rfl⟩, Option.bind_some, hpre, hw, Option.bind_some, hpad]
  · exact hp.trans (List.prefix_append _ _)
  · rw [List.length_append, List.length_replicate]
    omega
  · exact fun r hr => (hin r hr).mono (List.prefix_append _ _)

structure Layout (images : List PackImage) (k : Nat) (placed : List PlacedImage) (total : Nat) : Prop where
  images_eq : placed.map PlacedImage.image = images
  sorted : SortedFrom (headerSize + placed.length * descSize) (slices placed)
  fin_le : finFrom (headerSize + placed.length * descSize) (slices placed) ≤ total
  sized : Sized (slices placed)
  aligned : ∀ r ∈ slices placed, 2 ^ k ∣ r.base
  total_aligned : 2 ^ k ∣ total

theorem layoutPackage_layout {images : List PackImage} (hdata : ∀ img ∈ images, img.data ≠ []) (k : Nat) :
    Layout images k (layoutPackage images (2 ^ k)).1 (layoutPackage images (2 ^ k)).2 := by
  have hstart := le_alignUp (headerSize + images.length * descSize) k
  generalize hcur : alignUp (headerSize + images.length * descSize) (2 ^ k) = cur at hstart
  have himages : (layoutLoop (2 ^ k) cur images).1.map PlacedImage.image = images := layoutLoop_images _ _
  obtain ⟨hsort, hfin⟩ := layoutLoop_sorted (k := k) cur hdata
  have haligned : (∀ r ∈ slices (layoutLoop (2 ^ k) cur images).1, 2 ^ k ∣ r.base) ∧
      Sized (slices (layoutLoop (2 ^ k) cur images).1) := layoutLoop_aligned cur
  have hlen : (layoutLoop (2 ^ k) cur images).1.length = images.length := by
    rw [← List.length_map (f := PlacedImage.image), himages]
  have heq : layoutPackage images (2 ^ k) =
      ((layoutLoop (2 ^ k) cur images).1, alignUp (layoutLoop (2 ^ k) cur images).2 (2 ^ k)) := by
    rw [layoutPackage, hcur]
  rw [heq]
  refine ⟨himages, ?_, ?_, haligned.2, haligned.1, dvd_alignUp _ _⟩
  · rw [hlen]
    exact hsort.mono hstart
  · rw [hlen]
    have h1 := le_alignUp (layoutLoop (2 ^ k) cur images).2 k
    have h2 := finFrom_mono hstart (l := slices (layoutLoop (2 ^ k) cur images).1)
    dsimp only
    omega

theorem Layout.length_eq {images : List PackImage} {total : Nat} (h : Layout images k placed total) :
    placed.length = images.length := by
  rw [← h.images_eq, List.length_map]

theorem Layout.slice_bounds {images : List PackImage} {total : Nat} (h : Layout images k placed total)
    (hr : r ∈ slices placed) :
    headerSize + images.length * descSize ≤ r.base ∧ 0 < r.size ∧ r.base + r.size ≤ total := by
  rw [← h.length_eq]
  exact ⟨h.sorted.le_base hr, h.sorted.size_pos hr, Nat.le_trans (h.sorted.fin_le_finFrom hr) h.fin_le⟩

theorem mem_slices {p : PlacedImage} (hp : p ∈ placed) :
    (⟨p.imageOffset, p.imageSize, p.image.data⟩ : Region (List UInt8)) ∈ slices placed ∧
      (⟨p.metaOffset, p.metaSize, p.image.blob⟩ : Region (List UInt8)) ∈ slices placed := by
  constructor
  · exact List.mem_flatMap.2 ⟨p, hp, List.mem_cons_self⟩
  · exact List.mem_flatMap.2 ⟨p, hp, List.mem_cons_of_mem _ List.mem_cons_self⟩

theorem Layout.fits_iff {images : List PackImage} {total : Nat} (h : Layout images k placed total)
    (htype : ∀ img ∈ images, img.type = procImgElf ∨ img.type = procImgFlat) (htotal : total < 2 ^ 32) :
    (∀ p ∈ placed, Fits (descFields p)) ↔
      ∀ img ∈ images, img.flags < 2 ^ 32 ∧ img.loadHint < 2 ^ 64 ∧ img.entryHint < 2 ^ 64 := by
  rw [← h.images_eq] at htype ⊢
  rw [List.forall_mem_map] at htype ⊢
  refine forall₂_congr fun p hp => ?_
  have h1 := h.slice_bounds (mem_slices hp).1
  have h2 := h.slice_bounds (mem_slices hp).2
  have ht : p.image.type < 3 := by
    rcases htype p hp with ht | ht
    · rw [ht]; decide
    · rw [ht]; decide
  dsimp only at h1 h2
  simp only [descFields, fits_cons, Nat.reducePow]
  constructor
  · rintro ⟨-, h3, -, -, -, -, h4, h5, -⟩
    exact ⟨h3, h4, h5⟩
  · rintro ⟨h3, h4, h5⟩
    exact ⟨by omega, h3, by omega, by omega, by omega, by omega, h4, h5, nofun⟩

theorem Layout.header_fits {images : List PackImage} {total : Nat} (h : Layout images k placed total)
    (htotal : total < 2 ^ 32) : Fits (headerFields placed.length (placed.length * descSize) total) := by
  have h1 := h.sorted.le_finFrom
  have h2 := h.fin_le
  have h3 : headerSize = 32 ∧ descSize = 56 := ⟨rfl, rfl⟩
  rw [h3.1, h3.2] at h1 h2
  simp only [headerFields, fits_cons, Nat.reducePow, h3.1, h3.2]
  exact ⟨by omega, by omega, by omega, by omega, by omega, by omega, by omega, by omega, nofun⟩

theorem packageFile_eq {images : List PackImage} (hdata : ∀ img ∈ images, img.data ≠ [])
    (htype : ∀ img ∈ images, img.type = procImgElf ∨ img.type = procImgFlat)
    (htotal : (layoutPackage images (2 ^ k)).2 < 2 ^ 32) :
    ((packageFile images (2 ^ k)).isSome ↔
      ∀ img ∈ images, img.flags < 2 ^ 32 ∧ img.loadHint < 2 ^ 64 ∧ img.entryHint < 2 ^ 64) ∧
    ∀ file, packageFile images (2 ^ k) = some file →
      Package (layoutPackage images (2 ^ k)).1 (layoutPackage images (2 ^ k)).2 file ∧
        ∀ p ∈ (layoutPackage images (2 ^ k)).1, Fits (descFields p) := by
  have hlayout := layoutPackage_layout hdata k
  have heq : packageFile images (2 ^ k) = (buildDescriptors (layoutPackage images (2 ^ k)).1).bind fun descs =>
      writePackage descs (layoutPackage images (2 ^ k)).1 (layoutPackage images (2 ^ k)).2 := rfl
  rw [heq]
  generalize (layoutPackage images (2 ^ k)).1 = placed at hlayout
  generalize (layoutPackage images (2 ^ k)).2 = total at hlayout htotal
  obtain ⟨g, hg, hpkg⟩ := writePackage_sorted hlayout.sorted hlayout.sized hlayout.fin_le (hlayout.header_fits htotal)
  rw [← hlayout.fits_iff htype htotal]
  constructor
  · rw [Option.isSome_iff_exists]
    constructor
    · rintro ⟨file, hfile⟩
      obtain ⟨descs, hdescs, -⟩ := Option.bind_eq_some_iff.1 hfile
      exact (buildDescriptors_eq_some.1 hdescs).1
    · intro hfits
      exact ⟨g, by rw [buildDescriptors_eq_some.2 ⟨hfits, rfl⟩, Option.bind_some, hg]⟩
  · intro file hfile
    obtain ⟨descs, hdescs, hw⟩ := Option.bind_eq_some_iff.1 hfile
    obtain ⟨hfits, rfl⟩ := buildDescriptors_eq_some.1 hdescs
    rw [hg] at hw
    cases hw
    exact ⟨hpkg, hfits⟩

theorem loadsAs_descs {m : Mem} {a : Nat} (h : At m a (encodeFields (placed.flatMap descFields)))
    (hf : ∀ p ∈ placed, Fits (descFields p)) (i : Nat) (hi : i < placed.length) :
    LoadsAs m (a + i * 56) (descFields placed[i]) := by
  induction placed generalizing a i with
  | nil => cases hi
  | cons p ps ih =>
    rw [List.flatMap_cons, encodeFields_append, at_append] at h
    rw [List.forall_mem_cons] at hf
    cases i with
    | zero => simpa using loadsAs_of_at h.1 hf.1
    | succ i =>
      have hlen : (encodeFields (descFields p)).length = 56 := rfl
      rw [hlen] at h
      have := ih h.2 hf.2 i (by simpa using hi)
      rwa [Nat.add_assoc, show 56 + i * 56 = (i + 1) * 56 by omega] at this

end ProcPack

open ProcPack

/-! ### Reading the package back -/

variable {m : Mem} {base k total : Nat} {images : List PackImage} {placed : List PlacedImage} {file : List UInt8}

theorem pkgHeader_load (h : Layout images k placed total) (hp : Package placed total file) (htotal : total < 2 ^ 32)
    (hat : At m base file) : PkgHeader.load m base = ⟨procPkgMagic, 1, 32, images.length, 32, images.length * 56, 0, total⟩ := by
  obtain ⟨rest, hrest⟩ := hp.preamble_prefix
  rw [← hrest, at_append, preamble, at_append] at hat
  have hl := loadsAs_of_at hat.1.1 (h.header_fits htotal)
  simp only [headerFields, LoadsAs, Nat.add_assoc, Nat.reduceAdd, and_true] at hl
  obtain ⟨h1, h2, h3, h4, h5, h6, h7, h8⟩ := hl
  rw [PkgHeader.load, h1, h2, h3, h4, h5, h6, h7, h8, h.length_eq]
  rfl

theorem imageDescAt_eq (h : Layout images k placed total) (hp : Package placed total file) (htotal : total < 2 ^ 32)
    (hf : ∀ p ∈ placed, Fits (descFields p)) (hat : At m base file) (i : Nat) (hi : i < placed.length) :
    imageDescAt m base i = ⟨placed[i].image.type, placed[i].image.flags, placed[i].imageOffset, placed[i].imageSize,
      placed[i].metaOffset, placed[i].metaSize, placed[i].image.loadHint, placed[i].image.entryHint⟩ := by
  rw [imageDescAt, pkgHeader_load h hp htotal hat]
  obtain ⟨rest, hrest⟩ := hp.preamble_prefix
  rw [← hrest, at_append, preamble, at_append] at hat
  have hheader : (encodeFields (headerFields placed.length (placed.length * descSize) total)).length = 32 := rfl
  rw [hheader] at hat
  have hl := loadsAs_descs hat.1.2 hf i hi
  simp only [descFields, LoadsAs, Nat.add_assoc, Nat.reduceAdd, and_true] at hl
  obtain ⟨h1, h2, h3, h4, h5, h6, h7, h8⟩ := hl
  simp only [ImageDesc.load, Nat.add_assoc, h1, h2, h3, h4, h5, h6, h7, h8]

theorem alignPage32_eq {x : Nat} (h : x + 4095 < 2 ^ 32) : alignPage32 x = (x + 4095) / 4096 * 4096 := by
  rw [alignPage32, Nat.mod_eq_of_lt h, show (4095 : Nat) = 2 ^ 12 - 1 from rfl, Nat.and_two_pow_sub_one_eq_mod]
  omega

theorem mod_page_of_dvd {x : Nat} (hk : 4096 ≤ 2 ^ k) (h : 2 ^ k ∣ x) : x % 4096 = 0 := by
  have h12 : 12 ≤ k := (Nat.pow_le_pow_iff_right (by decide : 1 < 2)).1 (show 2 ^ 12 ≤ 2 ^ k from hk)
  exact Nat.mod_eq_zero_of_dvd (Nat.dvd_trans (pow_dvd_pow 2 h12) h)

/-- The end of the descriptor table, and where the loader expects the first slice at the earliest. -/
theorem Layout.descs_le (h : Layout images k placed total) (hk : 4096 ≤ 2 ^ k) (htotal : total < 2 ^ 32) :
    32 + images.length * 56 + 4095 < 2 ^ 32 ∧ (32 + images.length * 56 + 4095) / 4096 * 4096 ≤ total := by
  have h1 := h.sorted.le_finFrom
  have h2 := h.fin_le
  have h3 : headerSize + placed.length * descSize = 32 + images.length * 56 := by rw [h.length_eq]; rfl
  have h4 := mod_page_of_dvd hk h.total_aligned
  omega

theorem descEnd_package {n : Nat} (total : Nat) (h : 32 + n * 56 < 2 ^ 32) :
    (PkgHeader.mk procPkgMagic 1 32 n 32 (n * 56) 0 total).descEnd = 32 + n * 56 := Nat.mod_eq_of_lt h

theorem checkPkgHeader_package (h : Layout images k placed total) (hp : Package placed total file) (hne : images ≠ [])
    (hk : 4096 ≤ 2 ^ k) (htotal : total < 2 ^ 32) (hat : At m base file) : checkPkgHeader m base file.length = 0 := by
  have hpos := List.length_pos_of_ne_nil hne
  obtain ⟨h1, h2⟩ := Layout.descs_le h hk htotal
  have halign : QuestOS.alignUp (32 + images.length * 56) pageSize = (32 + images.length * 56 + 4095) / 4096 * 4096 := by
    rw [alignUp_pageSize, Nat.mod_eq_of_lt (by omega)]
  have hend := descEnd_package total (show 32 + images.length * 56 < 2 ^ 32 by omega)
  rw [checkPkgHeader, pkgHeader_load h hp htotal hat, hp.length_eq, hend, halign]
  dsimp only
  rw [if_neg (by omega), if_neg (by decide), if_neg (by decide), if_neg (by omega), if_neg (by omega), if_neg (by omega),
    if_neg (by omega), if_neg (by omega), if_neg (by omega), if_neg (by omega)]

theorem checkImageDesc_package (h : Layout images k placed total) (hp : Package placed total file)
    (hsize : ∀ img ∈ images, img.data.length ≤ processMaxImageSize ∧ img.blob.length ≤ processMaxMetaSize)
    (htype : ∀ img ∈ images, img.type = procImgElf ∨ img.type = procImgFlat)
    (hf : ∀ p ∈ placed, Fits (descFields p))
    (hk : 4096 ≤ 2 ^ k) (htotal : total < 2 ^ 32) (hat : At m base file) (i : Nat) (hi : i < placed.length) :
    checkImageDesc (PkgHeader.load m base) (imageDescAt m base i) = 0 := by
  obtain ⟨h1, h2⟩ := Layout.descs_le h hk htotal
  have hp1 := h.slice_bounds (mem_slices (List.getElem_mem hi)).1
  have hp2 := h.slice_bounds (mem_slices (List.getElem_mem hi)).2
  have ha1 := mod_page_of_dvd hk (h.aligned _ (mem_slices (List.getElem_mem hi)).1)
  have ha2 := mod_page_of_dvd hk (h.aligned _ (mem_slices (List.getElem_mem hi)).2)
  have hs1 := h.sized _ (mem_slices (List.getElem_mem hi)).1
  have hs2 := h.sized _ (mem_slices (List.getElem_mem hi)).2
  have hmem : placed[i].image ∈ images := by
    rw [← h.images_eq]
    exact List.mem_map_of_mem (List.getElem_mem hi)
  obtain ⟨hsz1, hsz2⟩ := hsize _ hmem
  have hD : headerSize + images.length * descSize = 32 + images.length * 56 := rfl
  dsimp only at hp1 hp2 ha1 ha2 hs1 hs2
  rw [hD] at hp1 hp2
  have hmask : ∀ x : Nat, x % 4096 = 0 → x &&& 0xfff = 0 := by
    intro x hx
    rw [show (0xfff : Nat) = 2 ^ 12 - 1 from rfl, Nat.and_two_pow_sub_one_eq_mod]
    exact hx
  have hend := descEnd_package total (show 32 + images.length * 56 < 2 ^ 32 by omega)
  rw [checkImageDesc, pkgHeader_load h hp htotal hat, imageDescAt_eq h hp htotal hf hat i hi, hend, alignPage32_eq h1]
  dsimp only
  rw [if_neg (by omega), if_neg (by omega), if_neg (by omega), if_neg (by omega),
    if_neg (by rw [hmask _ ha1, hmask _ ha2]; decide), if_pos (htype _ hmem)]

def ImageDesc.slices (d : ImageDesc) : List (Nat × Nat) := [(d.imageOffset, d.imageSize), (d.metaOffset, d.metaSize)]

def Apart (a b : Nat × Nat) : Prop := a.1 + a.2 ≤ b.1 ∨ b.1 + b.2 ≤ a.1

theorem pairwise_apart {b : Nat} {l : List (Region (List UInt8))} (h : SortedFrom b l) :
    (l.map fun r => (r.base, r.size)).Pairwise Apart := by
  induction l generalizing b with
  | nil => exact .nil
  | cons r l ih =>
    rw [List.map_cons, List.pairwise_cons, List.forall_mem_map]
    exact ⟨fun s hs => .inl (h.2.2.le_base hs), ih h.2.2⟩

private theorem flatMap_range_length {α β : Type*} (l : List α) (g : Nat → List β) (h : α → List β)
    (hg : ∀ i, (hi : i < l.length) → g i = h l[i]) : (List.range l.length).flatMap g = l.flatMap h := by
  induction l generalizing g with
  | nil => rfl
  | cons a l ih =>
    rw [List.length_cons, List.range_succ_eq_map, List.flatMap_cons, List.flatMap_map, List.flatMap_cons, hg 0 (by simp)]
    rw [ih (fun i => g (i + 1)) fun i hi => hg (i + 1) (by simpa using hi)]
    rfl

theorem imageDescAt_slices (h : Layout images k placed total) (hp : Package placed total file) (htotal : total < 2 ^ 32)
    (hf : ∀ p ∈ placed, Fits (descFields p)) (hat : At m base file) :
    (List.range images.length).flatMap (fun i => (imageDescAt m base i).slices) =
      (ProcPack.slices placed).map fun r => (r.base, r.size) := by
  rw [← h.length_eq, ProcPack.slices, List.map_flatMap]
  refine flatMap_range_length placed _ _ fun i hi => ?_
  rw [imageDescAt_eq h hp htotal hf hat i hi]
  rfl

/-- What the tool wrote passes the checks of the loader: header and descriptors are accepted, the slices that
the descriptors address hold the data and the meta blobs, and they lie on page boundaries, apart from each
other and behind the descriptor table.  The tool gives up only when the flags or the hints of an image do not
fit their fields. -/
theorem package_round_trip (images : List PackImage) (k : Nat) (hne : images ≠ [])
    (hdata : ∀ img ∈ images, img.data ≠ [])
    (hsize : ∀ img ∈ images, img.data.length ≤ processMaxImageSize ∧ img.blob.length ≤ processMaxMetaSize)
    (htype : ∀ img ∈ images, img.type = procImgElf ∨ img.type = procImgFlat)
    (hk : 4096 ≤ 2 ^ k) (htotal : (layoutPackage images (2 ^ k)).2 < 2 ^ 32) :
    ((packageFile images (2 ^ k)).isSome ↔
      ∀ img ∈ images, img.flags < 2 ^ 32 ∧ img.loadHint < 2 ^ 64 ∧ img.entryHint < 2 ^ 64) ∧
    ∀ (file : List UInt8) (m : Mem) (base : Nat), packageFile images (2 ^ k) = some file → At m base file →
      checkPkgHeader m base file.length = 0 ∧ (PkgHeader.load m base).imageCount = images.length ∧
      (∀ i, (hi : i < images.length) →
        checkImageDesc (PkgHeader.load m base) (imageDescAt m base i) = 0 ∧
        (file.drop (imageDescAt m base i).imageOffset).take (imageDescAt m base i).imageSize = images[i].data ∧
        (file.drop (imageDescAt m base i).metaOffset).take (imageDescAt m base i).metaSize = images[i].blob ∧
        ∀ s ∈ (imageDescAt m base i).slices, s.1 % pageSize = 0 ∧ 32 + images.length * 56 ≤ s.1) ∧
      ((List.range images.length).flatMap fun i => (imageDescAt m base i).slices).Pairwise Apart := by
  have hlayout := layoutPackage_layout hdata k
  obtain ⟨hsome, hpkg⟩ := packageFile_eq hdata htype htotal
  refine ⟨hsome, fun file m base hfile hat => ?_⟩
  obtain ⟨hp, hf⟩ := hpkg file hfile
  generalize (layoutPackage images (2 ^ k)).1 = placed at hlayout hp hf
  generalize (layoutPackage images (2 ^ k)).2 = total at hlayout hp htotal
  refine ⟨checkPkgHeader_package hlayout hp hne hk htotal hat, ?_, ?_, ?_⟩
  · rw [pkgHeader_load hlayout hp htotal hat]
  · intro i hi
    have hi' : i < placed.length := by rwa [hlayout.length_eq]
    have hget : images[i] = placed[i].image := by
      simp only [← hlayout.images_eq, List.getElem_map]
    obtain ⟨hm1, hm2⟩ := mem_slices (List.getElem_mem hi')
    refine ⟨checkImageDesc_package hlayout hp hsize htype hf hk htotal hat i hi', ?_⟩
    rw [imageDescAt_eq hlayout hp htotal hf hat i hi', hget]
    refine ⟨?_, ?_, ?_⟩
    · have := List.prefix_iff_eq_take.1 (hp.inFile _ hm1).2
      rw [← hlayout.sized _ hm1] at this
      exact this.symm
    · have := List.prefix_iff_eq_take.1 (hp.inFile _ hm2).2
      rw [← hlayout.sized _ hm2] at this
      exact this.symm
    · have hsingle : ∀ r ∈ ProcPack.slices placed, r.base % pageSize = 0 ∧ 32 + images.length * 56 ≤ r.base :=
        fun r hr => ⟨mod_page_of_dvd hk (hlayout.aligned r hr), (hlayout.slice_bounds hr).1⟩
      rw [ImageDesc.slices, List.forall_mem_cons, List.forall_mem_singleton]
      exact ⟨hsingle _ hm1, hsingle _ hm2⟩
  · rw [imageDescAt_slices hlayout hp htotal hf hat]
    exact pairwise_apart hlayout.sorted

def smallPack : PackImage := ⟨procImgElf, 3, 0, 0, [1], smallBlob, smallSpec, smallBlob_built⟩

theorem package_round_trip_small :
    ∃ file, packageFile [smallPack] (2 ^ 12) = some file ∧ checkPkgHeader (fun x => file.getD x 0) 0 file.length = 0 := by
  obtain ⟨hsome, hround⟩ := package_round_trip [smallPack] 12 (by simp) (by simp [smallPack])
    (by rw [List.forall_mem_singleton]; decide) (by rw [List.forall_mem_singleton]; decide) (by decide) (by decide +kernel)
  obtain ⟨file, hfile⟩ := Option.isSome_iff_exists.1 (hsome.2 (by rw [List.forall_mem_singleton]; decide))
  have hat : At (fun x => file.getD x 0) 0 file := by
    rw [at_iff_getElem]
    intro i hi
    rw [Nat.zero_add]
    exact List.getD_eq_getElem _ _ hi
  exact ⟨file, hfile, (hround file _ 0 hfile hat).1⟩

end QuestOS
