import QuestOS.Align
import QuestOS.Process.Image
import QuestOS.Process.Pack

/-!
# The loader's view of a meta blob

`check_image_meta` reads the blob at an address of kernel memory; `load_user_meta` turns its tables into
pointers into it.  For a blob that the package tool built, the check decides on the counts and on the size
of the stack alone (`checkImageMeta_built`).
-/

namespace QuestOS

open Bytes ProcPack

structure ImageMeta where
  argvCount : Nat
  envCount : Nat
  auxvCount : Nat
  stringTableSize : Nat
  nameOffset : Nat
  argvOffset : Nat
  envOffset : Nat
  auxvOffset : Nat
  stringTableOffset : Nat
  reserved : Nat
  stackSize : Nat

def ImageMeta.load (m : Mem) (p : Nat) : ImageMeta where
  argvCount := loadLE m p 4
  envCount := loadLE m (p + 4) 4
  auxvCount := loadLE m (p + 8) 4
  stringTableSize := loadLE m (p + 12) 4
  nameOffset := loadLE m (p + 16) 4
  argvOffset := loadLE m (p + 20) 4
  envOffset := loadLE m (p + 24) 4
  auxvOffset := loadLE m (p + 28) 4
  stringTableOffset := loadLE m (p + 32) 4
  reserved := loadLE m (p + 36) 4
  stackSize := loadLE m (p + 40) 8

def loadRefs (m : Mem) : (a n : Nat) → List Nat
  | _, 0 => []
  | a, n + 1 => loadLE m a 4 :: loadRefs m (a + 4) n

def strnlen (m : Mem) : (s count : Nat) → Nat
  | _, 0 => 0
  | s, count + 1 => if m s ≠ 0 then strnlen m (s + 1) count + 1 else 0

/-- The characters that `strscpy` copies in front of the final NUL, when `count + 1` bytes are free. -/
def strscpy (m : Mem) : (src count : Nat) → List UInt8
  | _, 0 => []
  | src, count + 1 => if m src = 0 then [] else m src :: strscpy m (src + 1) count

def processMaxNameLen : Nat := 128

/-! ### The check -/

def checkMetaArray (offset count elemSize metaSize : Nat) : Int :=
  if count = 0 then 0
  else if metaSize ≤ offset then negEinval
  else if metaSize - offset < count * elemSize then negEinval
  else 0

def checkStringRef (m : Mem) (stringTable stringTableSize strOff : Nat) : Int :=
  if stringTableSize ≤ strOff then negEinval
  else
    let remain := stringTableSize - strOff
    if strnlen m (stringTable + strOff) remain = remain then negEinval else 0

def checkStringRefs (m : Mem) (stringTable stringTableSize : Nat) : List Nat → Int
  | [] => 0
  | off :: offs =>
    if checkStringRef m stringTable stringTableSize off ≠ 0 then negEinval
    else checkStringRefs m stringTable stringTableSize offs

def checkImageMeta (m : Mem) (base size : Nat) : Int :=
  if size < 48 then negEinval
  else
    let info := ImageMeta.load m base
    if processMaxArgs < info.argvCount ∨ processMaxArgs < info.envCount ∨ processMaxArgs < info.auxvCount then negEinval
    else if checkMetaArray info.argvOffset info.argvCount 4 size ≠ 0 ∨
        checkMetaArray info.envOffset info.envCount 4 size ≠ 0 ∨
        checkMetaArray info.auxvOffset info.auxvCount 16 size ≠ 0 then negEinval
    else if info.auxvCount ≠ 0 ∧ info.auxvOffset &&& 7 ≠ 0 then negEinval
    else if size < info.stringTableOffset ∨ size - info.stringTableOffset < info.stringTableSize then negEinval
    else if (info.argvCount ≠ 0 ∨ info.envCount ≠ 0) ∧ info.stringTableSize = 0 then negEinval
    else
      let table := base + info.stringTableOffset
      if checkStringRef m table info.stringTableSize info.nameOffset ≠ 0 then negEinval
      else if checkStringRefs m table info.stringTableSize (loadRefs m (base + info.argvOffset) info.argvCount) ≠ 0 then
        negEinval
      else if checkStringRefs m table info.stringTableSize (loadRefs m (base + info.envOffset) info.envCount) ≠ 0 then
        negEinval
      -- a reserved field that is not zero only gives a warning
      else if info.stackSize &&& (pageSize - 1) ≠ 0 then negEinval
      else 0

/-! ### Loading -/

def loadUserMeta (m : Mem) (base size : Nat) (image : ProcessImage) : Except Int (List UInt8 × ProcessImage) :=
  let err := checkImageMeta m base size
  if err ≠ 0 then .error err
  else
    let info := ImageMeta.load m base
    let table := base + info.stringTableOffset
    .ok (strscpy m (table + info.nameOffset) (processMaxNameLen - 1),
      { image with
        metaData := base
        metaSize := size % 2 ^ 32
        argc := info.argvCount
        argv := (loadRefs m (base + info.argvOffset) info.argvCount).map (table + ·)
        envCount := info.envCount
        env := (loadRefs m (base + info.envOffset) info.envCount).map (table + ·)
        auxvCount := info.auxvCount
        auxv := (List.range info.auxvCount).map (base + info.auxvOffset + 16 * ·)
        stackSize := info.stackSize })

/-! ### What the check decides -/

variable {m : Mem} {base a n : Nat} {img : ImageSpec} {l : List UInt8}

theorem checkMetaArray_eq_zero {offset count elemSize size : Nat} : checkMetaArray offset count elemSize size = 0 ↔
    count = 0 ∨ offset < size ∧ count * elemSize ≤ size - offset := by
  unfold checkMetaArray
  by_cases h0 : count = 0
  · simp [h0]
  · rw [if_neg h0, ite_negEinval_eq_zero, ite_negEinval_eq_zero]
    simp only [h0, Nat.not_le, Nat.not_lt, and_true, false_or]

structure MetaChecked (m : Mem) (base size : Nat) (info : ImageMeta) : Prop where
  size_ge : 48 ≤ size
  argvCount_le : info.argvCount ≤ processMaxArgs
  envCount_le : info.envCount ≤ processMaxArgs
  auxvCount_le : info.auxvCount ≤ processMaxArgs
  argv : checkMetaArray info.argvOffset info.argvCount 4 size = 0
  env : checkMetaArray info.envOffset info.envCount 4 size = 0
  auxv : checkMetaArray info.auxvOffset info.auxvCount 16 size = 0
  auxv_mod : info.auxvCount = 0 ∨ info.auxvOffset % 8 = 0
  table_le : info.stringTableOffset ≤ size
  table_size : info.stringTableSize ≤ size - info.stringTableOffset
  name : checkStringRef m (base + info.stringTableOffset) info.stringTableSize info.nameOffset = 0
  argvRefs : checkStringRefs m (base + info.stringTableOffset) info.stringTableSize
    (loadRefs m (base + info.argvOffset) info.argvCount) = 0
  envRefs : checkStringRefs m (base + info.stringTableOffset) info.stringTableSize
    (loadRefs m (base + info.envOffset) info.envCount) = 0
  stackSize_mod : info.stackSize % pageSize = 0

theorem metaChecked_of_check {size : Nat} (h : checkImageMeta m base size = 0) :
    MetaChecked m base size (ImageMeta.load m base) := by
  unfold checkImageMeta at h
  rw [ite_negEinval_eq_zero] at h
  obtain ⟨hsize, h⟩ := h
  generalize ImageMeta.load m base = info at h ⊢
  dsimp only at h
  simp only [ite_negEinval_eq_zero, not_or, Nat.not_lt, ne_eq, not_not, not_and] at h
  obtain ⟨⟨h1, h2, h3⟩, ⟨h4, h5, h6⟩, h7, ⟨h8, h9⟩, -, h10, h11, h12, h13, -⟩ := h
  refine ⟨by omega, h1, h2, h3, h4, h5, h6, ?_, h8, h9, h10, h11, h12, ?_⟩
  · by_cases h0 : info.auxvCount = 0
    · exact .inl h0
    · exact .inr ((Nat.and_two_pow_sub_one_eq_mod _ 3).symm.trans (h7 h0))
  · exact (Nat.and_two_pow_sub_one_eq_mod _ 12).symm.trans h13

/-! ### Blobs of the package tool -/

theorem loadRefs_of_loadsAs {offs : List Nat} (h : LoadsAs m a (refFields offs)) : loadRefs m a offs.length = offs := by
  induction offs generalizing a with
  | nil => rfl
  | cons o os ih =>
    obtain ⟨h1, h2⟩ := h
    rw [List.length_cons, loadRefs, h1, ih h2]

theorem strnlen_lt {i : Nat} (hi : i < n) (h0 : m (a + i) = 0) : strnlen m a n < n := by
  induction n generalizing a i with
  | zero => omega
  | succ n ih =>
    rw [strnlen]
    split
    · cases i with
      | zero => contradiction
      | succ i =>
        have hnext : m (a + 1 + i) = 0 := by rwa [Nat.add_assoc, Nat.add_comm 1]
        have := ih (by omega) hnext
        omega
    · omega

theorem checkStringRef_closed {table : List UInt8} {off : Nat} (hat : At m a table) (hc : Closed table)
    (ho : off < table.length) : checkStringRef m a table.length off = 0 := by
  obtain ⟨init, rfl⟩ := hc
  rw [List.length_append, List.length_singleton] at ho ⊢
  rw [at_append] at hat
  have hnul : m (a + off + (init.length - off)) = 0 := by
    rw [show a + off + (init.length - off) = a + init.length by omega]
    exact hat.2.1
  have hlt := strnlen_lt (by omega : init.length - off < init.length + 1 - off) hnul
  rw [checkStringRef, if_neg (by omega)]
  exact if_neg (by omega)

theorem checkStringRefs_closed {table : List UInt8} {offs : List Nat} (hat : At m a table) (hc : Closed table)
    (ho : ∀ off ∈ offs, off < table.length) : checkStringRefs m a table.length offs = 0 := by
  induction offs with
  | nil => rfl
  | cons o os ih =>
    rw [List.forall_mem_cons] at ho
    rw [checkStringRefs, checkStringRef_closed hat hc ho.1, if_neg (by decide), ih ho.2]

theorem checkMetaArray_of_le {offset count elemSize size : Nat} (he : 0 < elemSize)
    (h : offset + count * elemSize ≤ size) : checkMetaArray offset count elemSize size = 0 := by
  rw [checkMetaArray]
  by_cases h0 : count = 0
  · exact if_pos h0
  · have := Nat.mul_pos (Nat.pos_of_ne_zero h0) he
    rw [if_neg h0, if_neg (by omega), if_neg (by omega)]

theorem offset_lt_of_forall₂ {table : List UInt8} {offs : List Nat} {values : List (List UInt8)}
    (h : List.Forall₂ (StringIn table) offs values) : ∀ off ∈ offs, off < table.length := by
  induction h with
  | nil => simp
  | cons h _ ih =>
    rw [List.forall_mem_cons]
    exact ⟨h.1, ih⟩

theorem imageMeta_load_built (h : MetaAt m base img) : ImageMeta.load m base =
    ⟨img.argv.length, img.env.length, img.auxv.length, (stringTable img).bytes.length, 0, ProcPack.metaSize,
      envOffset img, auxvOffset img, stringTableOffset img, 0, img.stackSize⟩ := by
  have hh := h.header
  simp only [metaFields, LoadsAs, Nat.add_assoc, Nat.reduceAdd, and_true] at hh
  obtain ⟨h1, h2, h3, h4, h5, h6, h7, h8, h9, h10, h11⟩ := hh
  rw [ImageMeta.load, h1, h2, h3, h4, h5, h6, h7, h8, h9, h10, h11]

theorem checkMetaArrays_built (img : ImageSpec) :
    checkMetaArray ProcPack.metaSize img.argv.length 4 (metaBlob img).length = 0 ∧
      checkMetaArray (envOffset img) img.env.length 4 (metaBlob img).length = 0 ∧
      checkMetaArray (auxvOffset img) img.auxv.length 16 (metaBlob img).length = 0 := by
  have hlen := length_metaBlob img
  have htable : stringTableOffset img = auxvOffset img + img.auxv.length * 16 := rfl
  have haux := auxvOffset_eq img
  have hend := envEnd_eq img
  have henv := envOffset_eq img
  refine ⟨checkMetaArray_of_le (by decide) ?_, checkMetaArray_of_le (by decide) ?_, checkMetaArray_of_le (by decide) ?_⟩
  all_goals omega

/-- For a blob of the package tool, the check decides on the counts and the stack size alone. -/
theorem checkImageMeta_built (h : MetaAt m base img) :
    checkImageMeta m base (metaBlob img).length = 0 ↔
      (img.argv.length ≤ processMaxArgs ∧ img.env.length ≤ processMaxArgs ∧ img.auxv.length ≤ processMaxArgs) ∧
        img.stackSize % pageSize = 0 := by
  have hlen := length_metaBlob img
  have hsize : 48 ≤ stringTableOffset img := by
    have := length_tables img
    have h48 : ProcPack.metaSize = 48 := rfl
    omega
  obtain ⟨harr1, harr2, harr3⟩ := checkMetaArrays_built img
  have halign : auxvOffset img &&& 7 = 0 := by
    rw [auxvOffset_eq, show (7 : Nat) = 2 ^ 3 - 1 from rfl, Nat.and_two_pow_sub_one_eq_mod]
    exact Nat.mul_mod_left _ _
  have hclosed := (stringTable img).closed
  have hpos : 0 < (stringTable img).bytes.length := (stringTable img).name_in.1
  have hname := checkStringRef_closed h.strings hclosed hpos
  have hargv := checkStringRefs_closed h.strings hclosed (offset_lt_of_forall₂ (stringTable img).argv_in)
  have henv := checkStringRefs_closed h.strings hclosed (offset_lt_of_forall₂ (stringTable img).env_in)
  have hstack : img.stackSize &&& (pageSize - 1) = img.stackSize % pageSize := Nat.and_two_pow_sub_one_eq_mod _ 12
  rw [checkImageMeta, if_neg (by omega), imageMeta_load_built h]
  dsimp only
  rw [← length_argv, ← length_env, loadRefs_of_loadsAs h.argv, loadRefs_of_loadsAs h.env, length_argv, length_env]
  by_cases hcount : processMaxArgs < img.argv.length ∨ processMaxArgs < img.env.length ∨ processMaxArgs < img.auxv.length
  · rw [if_pos hcount]
    constructor
    · intro h0
      exact absurd h0 (by decide)
    · rintro ⟨⟨h1, h2, h3⟩, -⟩
      omega
  rw [if_neg hcount, if_neg (by rw [harr1, harr2, harr3]; decide), if_neg (by rw [halign]; simp), if_neg (by omega),
    if_neg (by omega), if_neg (by rw [hname]; decide), if_neg (by rw [hargv]; decide), if_neg (by rw [henv]; decide), hstack]
  by_cases hs : img.stackSize % pageSize = 0
  · rw [if_neg (by rw [hs]; decide)]
    constructor
    · intro _
      exact ⟨⟨by omega, by omega, by omega⟩, hs⟩
    · intro _
      rfl
  · rw [if_pos hs]
    constructor
    · intro h0
      exact absurd h0 (by decide)
    · rintro ⟨-, h1⟩
      exact absurd h1 hs

theorem loadUserMeta_built (h : MetaAt m base img) {image image' : ProcessImage} {name : List UInt8}
    (hl : loadUserMeta m base (metaBlob img).length image = .ok (name, image')) :
    image'.Checked ∧ image'.metaData = base ∧
      image'.argc = img.argv.length ∧
      image'.argv = (stringTable img).argv.map (base + stringTableOffset img + ·) ∧
      image'.envCount = img.env.length ∧
      image'.env = (stringTable img).env.map (base + stringTableOffset img + ·) ∧
      image'.auxvCount = img.auxv.length ∧
      image'.auxv = (List.range img.auxv.length).map (base + auxvOffset img + 16 * ·) := by
  rw [loadUserMeta] at hl
  by_cases hc : checkImageMeta m base (metaBlob img).length = 0
  · rw [if_neg (by rw [hc]; decide), imageMeta_load_built h] at hl
    dsimp only at hl
    rw [← length_argv, ← length_env, loadRefs_of_loadsAs h.argv, loadRefs_of_loadsAs h.env, length_argv, length_env] at hl
    obtain ⟨⟨h1, h2, h3⟩, h4⟩ := (checkImageMeta_built h).1 hc
    cases hl
    exact ⟨⟨h1, h2, h3, h4⟩, rfl, rfl, rfl, rfl, rfl, rfl, rfl⟩
  · rw [if_pos hc] at hl
    cases hl

end QuestOS
