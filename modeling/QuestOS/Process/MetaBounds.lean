import QuestOS.Process.Meta

/-!
# `check_image_meta` stays inside the blob

The check is written down once more, now with reads that fail outside of the blob.  It never fails
(`checkImageMetaIn_window`), and what it accepts makes `load_user_meta` store pointers into the blob only.
-/

namespace QuestOS

open Bytes ProcPack

/-! ### The check with reads that may fail -/

abbrev View := Nat → Option UInt8

def ImageMeta.read (w : View) (p : Nat) : Option ImageMeta := do
  let argvCount ← readLE w p 4
  let envCount ← readLE w (p + 4) 4
  let auxvCount ← readLE w (p + 8) 4
  let stringTableSize ← readLE w (p + 12) 4
  let nameOffset ← readLE w (p + 16) 4
  let argvOffset ← readLE w (p + 20) 4
  let envOffset ← readLE w (p + 24) 4
  let auxvOffset ← readLE w (p + 28) 4
  let stringTableOffset ← readLE w (p + 32) 4
  let reserved ← readLE w (p + 36) 4
  let stackSize ← readLE w (p + 40) 8
  return ⟨argvCount, envCount, auxvCount, stringTableSize, nameOffset, argvOffset, envOffset, auxvOffset,
    stringTableOffset, reserved, stackSize⟩

def strnlenIn (w : View) : (s count : Nat) → Option Nat
  | _, 0 => some 0
  | s, count + 1 => do
    let c ← w s
    if c ≠ 0 then return (← strnlenIn w (s + 1) count) + 1 else return 0

def checkStringRefIn (w : View) (stringTable stringTableSize strOff : Nat) : Option Int :=
  if stringTableSize ≤ strOff then some negEinval
  else do
    let remain := stringTableSize - strOff
    let len ← strnlenIn w (stringTable + strOff) remain
    return if len = remain then negEinval else 0

def checkStringRefsIn (w : View) (stringTable stringTableSize : Nat) : (a count : Nat) → Option Int
  | _, 0 => some 0
  | a, count + 1 => do
    let off ← readLE w a 4
    let err ← checkStringRefIn w stringTable stringTableSize off
    if err ≠ 0 then return negEinval else checkStringRefsIn w stringTable stringTableSize (a + 4) count

def checkImageMetaIn (w : View) (base size : Nat) : Option Int :=
  if size < 48 then some negEinval
  else do
    let info ← ImageMeta.read w base
    if processMaxArgs < info.argvCount ∨ processMaxArgs < info.envCount ∨ processMaxArgs < info.auxvCount then
      return negEinval
    else if checkMetaArray info.argvOffset info.argvCount 4 size ≠ 0 ∨
        checkMetaArray info.envOffset info.envCount 4 size ≠ 0 ∨
        checkMetaArray info.auxvOffset info.auxvCount 16 size ≠ 0 then return negEinval
    else if info.auxvCount ≠ 0 ∧ info.auxvOffset &&& 7 ≠ 0 then return negEinval
    else if size < info.stringTableOffset ∨ size - info.stringTableOffset < info.stringTableSize then return negEinval
    else if (info.argvCount ≠ 0 ∨ info.envCount ≠ 0) ∧ info.stringTableSize = 0 then return negEinval
    else
      let table := base + info.stringTableOffset
      if (← checkStringRefIn w table info.stringTableSize info.nameOffset) ≠ 0 then return negEinval
      else if (← checkStringRefsIn w table info.stringTableSize (base + info.argvOffset) info.argvCount) ≠ 0 then
        return negEinval
      else if (← checkStringRefsIn w table info.stringTableSize (base + info.envOffset) info.envCount) ≠ 0 then
        return negEinval
      else if info.stackSize &&& (pageSize - 1) ≠ 0 then return negEinval
      else return 0

/-! ### No read fails -/

variable {m : Mem} {base size s count table tableSize a off : Nat}

theorem imageMeta_read_window (h : 48 ≤ size) : ImageMeta.read (window m base size) base = some (ImageMeta.load m base) := by
  have hread : ∀ i n, i + n ≤ 48 → readLE (window m base size) (base + i) n = some (loadLE m (base + i) n) :=
    fun i n hi => readLE_window (by omega) (by omega)
  have hfirst : readLE (window m base size) base 4 = some (loadLE m base 4) := hread 0 4 (by decide)
  rw [ImageMeta.read, hfirst, hread 4 4 (by decide), hread 8 4 (by decide), hread 12 4 (by decide),
    hread 16 4 (by decide), hread 20 4 (by decide), hread 24 4 (by decide), hread 28 4 (by decide),
    hread 32 4 (by decide), hread 36 4 (by decide), hread 40 8 (by decide)]
  rfl

theorem strnlenIn_window (h1 : base ≤ s) (h2 : s + count ≤ base + size) :
    strnlenIn (window m base size) s count = some (strnlen m s count) := by
  induction count generalizing s with
  | zero => rfl
  | succ count ih =>
    rw [strnlenIn, strnlen, window_of_mem h1 (by omega), ih (by omega) (by omega)]
    change (if m s ≠ 0 then _ else _) = _
    split <;> rfl

theorem checkStringRefIn_window (h1 : base ≤ table) (h2 : table + tableSize ≤ base + size) :
    checkStringRefIn (window m base size) table tableSize off = some (checkStringRef m table tableSize off) := by
  rw [checkStringRefIn, checkStringRef]
  split
  · rfl
  · dsimp only
    rw [strnlenIn_window (by omega) (by omega)]
    rfl

theorem checkStringRefsIn_window (h1 : base ≤ table) (h2 : table + tableSize ≤ base + size) (h3 : base ≤ a)
    (h4 : a + count * 4 ≤ base + size) :
    checkStringRefsIn (window m base size) table tableSize a count =
      some (checkStringRefs m table tableSize (loadRefs m a count)) := by
  induction count generalizing a with
  | zero => rfl
  | succ count ih =>
    rw [checkStringRefsIn, loadRefs, checkStringRefs, readLE_window h3 (by omega), ih (by omega) (by omega)]
    change (do let err ← checkStringRefIn _ _ _ _; _) = _
    rw [checkStringRefIn_window h1 h2]
    change (if checkStringRef m table tableSize (loadLE m a 4) ≠ 0 then _ else _) = _
    split <;> rfl

theorem array_le {offset elemSize : Nat} (h : checkMetaArray offset count elemSize size = 0) :
    count = 0 ∨ offset + count * elemSize ≤ size := by
  rcases checkMetaArray_eq_zero.mp h with h1 | ⟨h1, h2⟩
  · exact .inl h1
  · exact .inr (by omega)

theorem checkStringRefsIn_array {offset : Nat} (h1 : base ≤ table) (h2 : table + tableSize ≤ base + size)
    (h3 : checkMetaArray offset count 4 size = 0) :
    checkStringRefsIn (window m base size) table tableSize (base + offset) count =
      some (checkStringRefs m table tableSize (loadRefs m (base + offset) count)) := by
  rcases array_le h3 with rfl | h4
  · rfl
  · exact checkStringRefsIn_window h1 h2 (by omega) (by omega)

theorem checkImageMetaIn_window (m : Mem) (base size : Nat) :
    checkImageMetaIn (window m base size) base size = some (checkImageMeta m base size) := by
  unfold checkImageMetaIn checkImageMeta
  split
  · rfl
  rename_i hsize
  rw [imageMeta_read_window (by omega)]
  generalize ImageMeta.load m base = info
  change (if _ then _ else _) = some (if _ then _ else _)
  split
  · rfl
  split
  · rfl
  rename_i harr
  simp only [ne_eq, not_or, not_not] at harr
  split
  · rfl
  split
  · rfl
  rename_i htable
  have htab : base + info.stringTableOffset + info.stringTableSize ≤ base + size := by omega
  split
  · rfl
  dsimp only
  rw [checkStringRefIn_window (by omega) htab, checkStringRefsIn_array (by omega) htab harr.1,
    checkStringRefsIn_array (by omega) htab harr.2.1]
  change (if _ then _ else if _ then _ else if _ then _ else if _ then _ else _) = some (if _ then _ else _)
  split
  · rfl
  split
  · rfl
  split
  · rfl
  split <;> rfl

/-! ### What the accepted pointers point to -/

def PointsToString (m : Mem) (table tableSize p : Nat) : Prop :=
  table ≤ p ∧ ∃ e, p ≤ e ∧ e < table + tableSize ∧ m e = 0

theorem exists_nul_of_strnlen (h : strnlen m s count ≠ count) : ∃ i < count, m (s + i) = 0 := by
  induction count generalizing s with
  | zero => exact absurd rfl h
  | succ count ih =>
    rw [strnlen] at h
    split at h
    · obtain ⟨i, hi, hz⟩ := ih (s := s + 1) (by omega)
      exact ⟨i + 1, by omega, by rwa [Nat.add_right_comm, Nat.add_assoc] at hz⟩
    · rename_i h0
      exact ⟨0, by omega, not_not.mp h0⟩

theorem pointsToString_of_check (h : checkStringRef m table tableSize off = 0) :
    PointsToString m table tableSize (table + off) := by
  unfold checkStringRef at h
  rw [ite_negEinval_eq_zero] at h
  dsimp only at h
  rw [ite_negEinval_eq_zero] at h
  obtain ⟨h1, h2, -⟩ := h
  obtain ⟨i, hi, hz⟩ := exists_nul_of_strnlen h2
  exact ⟨by omega, table + off + i, by omega, by omega, hz⟩

theorem checkStringRefs_eq_zero {offs : List Nat} (h : checkStringRefs m table tableSize offs = 0) :
    ∀ off ∈ offs, checkStringRef m table tableSize off = 0 := by
  induction offs with
  | nil => nofun
  | cons off offs ih =>
    rw [checkStringRefs, ite_negEinval_eq_zero, not_not] at h
    rw [List.forall_mem_cons]
    exact ⟨h.1, ih h.2⟩

theorem length_loadRefs (m : Mem) (a count : Nat) : (loadRefs m a count).length = count := by
  induction count generalizing a with
  | zero => rfl
  | succ count ih => rw [loadRefs, List.length_cons, ih]

theorem strscpy_spec (m : Mem) (s count : Nat) : (strscpy m s count).length ≤ count ∧ 0 ∉ strscpy m s count := by
  induction count generalizing s with
  | zero => exact ⟨Nat.le_refl _, List.not_mem_nil⟩
  | succ count ih =>
    rw [strscpy]
    split
    · exact ⟨Nat.zero_le _, List.not_mem_nil⟩
    · rename_i h0
      obtain ⟨h1, h2⟩ := ih (s + 1)
      refine ⟨Nat.succ_le_succ h1, ?_⟩
      rw [List.mem_cons, not_or]
      exact ⟨fun h => h0 h.symm, h2⟩

structure InsideBlob (m : Mem) (base size : Nat) (info : ImageMeta) (name : List UInt8) (image : ProcessImage) : Prop where
  table : base + info.stringTableOffset + info.stringTableSize ≤ base + size
  argv : image.argv.length = image.argc ∧ image.argc ≤ processMaxArgs
  env : image.env.length = image.envCount ∧ image.envCount ≤ processMaxArgs
  auxv : image.auxv.length = image.auxvCount ∧ image.auxvCount ≤ processMaxArgs
  strings : ∀ p, p = base + info.stringTableOffset + info.nameOffset ∨ p ∈ image.argv ∨ p ∈ image.env →
    PointsToString m (base + info.stringTableOffset) info.stringTableSize p
  entries : ∀ p ∈ image.auxv, base ≤ p ∧ (p - base) % 8 = 0 ∧ p + 16 ≤ base + size
  name : name.length < processMaxNameLen ∧ 0 ∉ name

theorem MetaChecked.insideBlob (h : MetaChecked m base size (ImageMeta.load m base)) {image image' : ProcessImage}
    {name : List UInt8} (hl : loadUserMeta m base size image = .ok (name, image')) :
    InsideBlob m base size (ImageMeta.load m base) name image' := by
  have h1 := h.table_le
  have h2 := h.table_size
  unfold loadUserMeta at hl
  dsimp only at hl
  split at hl
  · cases hl
  · cases hl
    refine ⟨by omega, ⟨?_, h.argvCount_le⟩, ⟨?_, h.envCount_le⟩, ⟨?_, h.auxvCount_le⟩, ?_, ?_, ?_⟩
    · rw [List.length_map, length_loadRefs]
    · rw [List.length_map, length_loadRefs]
    · rw [List.length_map, List.length_range]
    · rintro p (rfl | hp | hp)
      · exact pointsToString_of_check h.name
      · obtain ⟨off, hoff, rfl⟩ := List.mem_map.mp hp
        exact pointsToString_of_check (checkStringRefs_eq_zero h.argvRefs off hoff)
      · obtain ⟨off, hoff, rfl⟩ := List.mem_map.mp hp
        exact pointsToString_of_check (checkStringRefs_eq_zero h.envRefs off hoff)
    · intro p hp
      obtain ⟨i, hi, rfl⟩ := List.mem_map.mp hp
      rw [List.mem_range] at hi
      have h3 := array_le h.auxv
      have h4 := h.auxv_mod
      omega
    · have hcopy := strscpy_spec m (base + (ImageMeta.load m base).stringTableOffset + (ImageMeta.load m base).nameOffset)
        (processMaxNameLen - 1)
      exact ⟨Nat.lt_succ_of_le hcopy.1, hcopy.2⟩

/-- The check reads bytes of the blob only, and for a blob that it accepts the loader succeeds and stores
pointers into the blob only. -/
theorem image_meta_inside (m : Mem) (base size : Nat) (image : ProcessImage) :
    checkImageMetaIn (window m base size) base size = some (checkImageMeta m base size) ∧
      (checkImageMeta m base size = 0 →
        ∃ name image', loadUserMeta m base size image = .ok (name, image') ∧
          InsideBlob m base size (ImageMeta.load m base) name image') := by
  refine ⟨checkImageMetaIn_window m base size, fun hcheck => ?_⟩
  obtain ⟨⟨name, image'⟩, hl⟩ : ∃ q, loadUserMeta m base size image = .ok q := by
    unfold loadUserMeta
    rw [hcheck]
    exact ⟨_, rfl⟩
  exact ⟨name, image', hl, (metaChecked_of_check hcheck).insideBlob hl⟩

def bareBlob : Mem := fun x => ([0, 0, 0, 0, 0, 0, 0, 0, 0, 0, 0, 0, 2, 0, 0, 0, 0, 0, 0, 0, 0, 0, 0, 0, 0, 0, 0, 0, 0, 0, 0, 0,
  48, 0, 0, 0, 0, 0, 0, 0, 0, 0, 0, 0, 0, 0, 0, 0, 97, 0] : List UInt8).getD x 0

theorem image_meta_inside_bare : checkImageMeta bareBlob 0 50 = 0 ∧
    ∃ name image', loadUserMeta bareBlob 0 50 ⟨0, 0, 0, [], 0, [], 0, [], 0, 0⟩ = .ok (name, image') ∧
      InsideBlob bareBlob 0 50 (ImageMeta.load bareBlob 0) name image' :=
  have hcheck : checkImageMeta bareBlob 0 50 = 0 := by decide +kernel
  ⟨hcheck, (image_meta_inside bareBlob 0 50 _).2 hcheck⟩

end QuestOS
