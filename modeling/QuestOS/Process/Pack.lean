import Mathlib.Data.List.Forall2
import Mathlib.Data.Nat.Bitwise
import QuestOS.Lib.Bytes

/-!
# The package tool

`proc_pack.py` writes the process package: a header, a table of descriptors, and for every image its data
and a meta blob.  Strings are the bytes of their UTF-8 encoding, a Python exception is `none`, and the file
is the list of bytes written so far.

`buildImageMeta_eq_some` says what a meta blob consists of.
-/

namespace QuestOS.ProcPack

open Bytes

def headerSize : Nat := 32

def descSize : Nat := 56

def metaSize : Nat := 48

def auxvEntrySize : Nat := 16

def stringRefSize : Nat := 4

def alignUp (value align : Nat) : Nat := (value + align - 1) - ((value + align - 1) &&& (align - 1))

theorem alignUp_two_pow (value k : Nat) : alignUp value (2 ^ k) = (value + 2 ^ k - 1) / 2 ^ k * 2 ^ k := by
  rw [alignUp, Nat.and_two_pow_sub_one_eq_mod]
  have := Nat.div_add_mod (value + 2 ^ k - 1) (2 ^ k)
  rw [Nat.mul_comm] at this
  omega

/-! ### The meta blob -/

structure ImageSpec where
  name : List UInt8
  argv : List (List UInt8)
  env : List (List UInt8)
  auxv : List (Nat × Nat)
  stackSize : Nat

def appendCString (table value : List UInt8) : List UInt8 × Nat := (table ++ value ++ [0], table.length)

def appendCStrings (table : List UInt8) : List (List UInt8) → List UInt8 × List Nat
  | [] => (table, [])
  | value :: values =>
    let (table, offset) := appendCString table value
    let (table, offsets) := appendCStrings table values
    (table, offset :: offsets)

def packRows : List (List (Nat × Nat)) → Option (List UInt8)
  | [] => some []
  | row :: rows => (pack row).bind fun l => (packRows rows).map (l ++ ·)

def buildImageMeta (img : ImageSpec) : Option (List UInt8) :=
  let (table, nameOffset) := appendCString [] img.name
  let (table, argvOffsets) := appendCStrings table img.argv
  let (table, envOffsets) := appendCStrings table img.env
  let argvOffset := metaSize
  let envOffset := argvOffset + argvOffsets.length * stringRefSize
  let auxvOffset := alignUp (envOffset + envOffsets.length * stringRefSize) 8
  let stringTableOffset := auxvOffset + img.auxv.length * auxvEntrySize
  (packRows (argvOffsets.map fun off => [(4, off)])).bind fun argvRefs =>
  (packRows (envOffsets.map fun off => [(4, off)])).bind fun envRefs =>
    let blob := List.replicate metaSize 0 ++ argvRefs ++ envRefs
    let blob := blob ++ List.replicate (auxvOffset - blob.length) 0
    (packRows (img.auxv.map fun aux => [(8, aux.1), (8, aux.2)])).bind fun auxv =>
      let blob := blob ++ auxv
      if blob.length ≠ stringTableOffset then none
      else
        let blob := blob ++ table
        let header := pack [(4, img.argv.length), (4, img.env.length), (4, img.auxv.length), (4, table.length),
          (4, nameOffset), (4, argvOffset), (4, envOffset), (4, auxvOffset), (4, stringTableOffset), (4, 0),
          (8, img.stackSize)]
        header.map (· ++ blob.drop metaSize)

/-! ### What the parts of a meta blob are -/

variable {img : ImageSpec} {l : List UInt8}

theorem packRows_eq_some {rows : List (List (Nat × Nat))} :
    packRows rows = some l ↔ Fits rows.flatten ∧ l = encodeFields rows.flatten := by
  induction rows generalizing l with
  | nil => simp [packRows, Fits, eq_comm]
  | cons row rows ih =>
    simp only [packRows, Option.bind_eq_some_iff, Option.map_eq_some_iff, pack_eq_some, ih, List.flatten_cons,
      fits_append, encodeFields_append]
    constructor
    · rintro ⟨_, ⟨h1, rfl⟩, _, ⟨h2, rfl⟩, rfl⟩
      exact ⟨⟨h1, h2⟩, rfl⟩
    · rintro ⟨⟨h1, h2⟩, rfl⟩
      exact ⟨_, ⟨h1, rfl⟩, _, ⟨h2, rfl⟩, rfl⟩

def StringIn (table : List UInt8) (offset : Nat) (value : List UInt8) : Prop :=
  offset < table.length ∧ value ++ [0] <+: table.drop offset

def Closed (table : List UInt8) : Prop := ∃ init, table = init ++ [0]

theorem StringIn.mono {table table' value : List UInt8} {offset : Nat} (h : StringIn table offset value)
    (hp : table <+: table') : StringIn table' offset value := by
  obtain ⟨r, rfl⟩ := hp
  refine ⟨by rw [List.length_append]; have := h.1; omega, ?_⟩
  rw [List.drop_append_of_le_length (Nat.le_of_lt h.1)]
  exact h.2.trans (List.prefix_append _ _)

theorem stringIn_appendCString (table value : List UInt8) : StringIn (appendCString table value).1 table.length value := by
  rw [appendCString, List.append_assoc]
  refine ⟨by simp, ?_⟩
  simp only [List.drop_left, List.prefix_rfl]

theorem prefix_appendCStrings (table : List UInt8) (values : List (List UInt8)) :
    table <+: (appendCStrings table values).1 := by
  induction values generalizing table with
  | nil => exact List.prefix_rfl
  | cons value values ih =>
    have hfirst : table <+: (appendCString table value).1 := by
      rw [appendCString, List.append_assoc]
      exact List.prefix_append _ _
    exact hfirst.trans (ih _)

theorem closed_appendCString (table value : List UInt8) : Closed (appendCString table value).1 := ⟨_, rfl⟩

theorem Closed.appendCStrings {table : List UInt8} (h : Closed table) (values : List (List UInt8)) :
    Closed (appendCStrings table values).1 := by
  induction values generalizing table with
  | nil => exact h
  | cons value values ih => exact ih (closed_appendCString table value)

/-- Every string of the list is in the final table, at the offset recorded for it. -/
theorem stringIn_appendCStrings (table : List UInt8) (values : List (List UInt8)) :
    List.Forall₂ (StringIn (appendCStrings table values).1) (appendCStrings table values).2 values := by
  induction values generalizing table with
  | nil => exact .nil
  | cons value values ih =>
    refine .cons ?_ (ih _)
    exact (stringIn_appendCString table value).mono (prefix_appendCStrings _ values)

structure StringTable (img : ImageSpec) where
  bytes : List UInt8
  argv : List Nat
  env : List Nat
  closed : Closed bytes
  name_in : StringIn bytes 0 img.name
  argv_in : List.Forall₂ (StringIn bytes) argv img.argv
  env_in : List.Forall₂ (StringIn bytes) env img.env

def stringTable (img : ImageSpec) : StringTable img where
  bytes := (appendCStrings (appendCStrings (appendCString [] img.name).1 img.argv).1 img.env).1
  argv := (appendCStrings (appendCString [] img.name).1 img.argv).2
  env := (appendCStrings (appendCStrings (appendCString [] img.name).1 img.argv).1 img.env).2
  closed := ((closed_appendCString [] img.name).appendCStrings img.argv).appendCStrings img.env
  name_in := (stringIn_appendCString [] img.name).mono ((prefix_appendCStrings _ _).trans (prefix_appendCStrings _ _))
  argv_in := (stringIn_appendCStrings _ _).imp fun _ _ h => h.mono (prefix_appendCStrings _ _)
  env_in := stringIn_appendCStrings _ _

def envOffset (img : ImageSpec) : Nat := metaSize + (stringTable img).argv.length * stringRefSize

def envEnd (img : ImageSpec) : Nat := envOffset img + (stringTable img).env.length * stringRefSize

def auxvOffset (img : ImageSpec) : Nat := alignUp (envEnd img) 8

def stringTableOffset (img : ImageSpec) : Nat := auxvOffset img + img.auxv.length * auxvEntrySize

def metaFields (img : ImageSpec) : List (Nat × Nat) :=
  [(4, img.argv.length), (4, img.env.length), (4, img.auxv.length), (4, (stringTable img).bytes.length),
    (4, 0), (4, metaSize), (4, envOffset img), (4, auxvOffset img), (4, stringTableOffset img), (4, 0),
    (8, img.stackSize)]

def refFields (offsets : List Nat) : List (Nat × Nat) := offsets.map (4, ·)

def auxvFields (auxv : List (Nat × Nat)) : List (Nat × Nat) := auxv.flatMap fun aux => [(8, aux.1), (8, aux.2)]

def auxvPadding (img : ImageSpec) : List UInt8 :=
  List.replicate (auxvOffset img - envEnd img) 0

@[simp] theorem length_encodeFields_refFields (offsets : List Nat) :
    (encodeFields (refFields offsets)).length = 4 * offsets.length := by
  induction offsets with
  | nil => rfl
  | cons o os ih =>
    rw [refFields] at ih
    simp only [refFields, List.map_cons, encodeFields_cons, List.length_append, length_encodeLE, ih, List.length_cons]
    omega

@[simp] theorem length_encodeFields_auxvFields (auxv : List (Nat × Nat)) :
    (encodeFields (auxvFields auxv)).length = 16 * auxv.length := by
  induction auxv with
  | nil => rfl
  | cons x xs ih =>
    rw [auxvFields] at ih
    simp only [auxvFields, List.flatMap_cons, encodeFields_append, encodeFields_cons, encodeFields_nil,
      List.length_append, length_encodeLE, ih, List.length_cons, List.length_nil]
    omega

theorem length_argv (img : ImageSpec) : (stringTable img).argv.length = img.argv.length :=
  (stringTable img).argv_in.length_eq

theorem length_env (img : ImageSpec) : (stringTable img).env.length = img.env.length :=
  (stringTable img).env_in.length_eq

theorem envOffset_eq (img : ImageSpec) : envOffset img = metaSize + 4 * img.argv.length := by
  rw [envOffset, length_argv, stringRefSize, Nat.mul_comm]

theorem envEnd_eq (img : ImageSpec) : envEnd img = envOffset img + 4 * img.env.length := by
  rw [envEnd, length_env, stringRefSize, Nat.mul_comm]

theorem auxvOffset_eq (img : ImageSpec) : auxvOffset img = (envEnd img + 7) / 8 * 8 := by
  rw [auxvOffset, show (8 : Nat) = 2 ^ 3 from rfl, alignUp_two_pow]
  rfl

theorem length_tables (img : ImageSpec) :
    metaSize + 4 * img.argv.length + 4 * img.env.length + (auxvPadding img).length + 16 * img.auxv.length =
      stringTableOffset img := by
  rw [auxvPadding, List.length_replicate, stringTableOffset, auxvEntrySize]
  have h1 := auxvOffset_eq img
  have h2 := envOffset_eq img
  have h3 := envEnd_eq img
  omega

theorem flatten_refRows (offsets : List Nat) : (offsets.map fun off => [((4 : Nat), off)]).flatten = refFields offsets := by
  rw [← List.flatMap_def, refFields, List.map_eq_flatMap]

def metaTail (img : ImageSpec) : List UInt8 :=
  encodeFields (refFields (stringTable img).argv) ++ (encodeFields (refFields (stringTable img).env) ++
    (auxvPadding img ++ (encodeFields (auxvFields img.auxv) ++ (stringTable img).bytes)))

def metaBlob (img : ImageSpec) : List UInt8 := encodeFields (metaFields img) ++ metaTail img

private def finishMeta (img : ImageSpec) (argvRefs envRefs auxv : List UInt8) : Option (List UInt8) :=
  let blob := List.replicate metaSize 0 ++ argvRefs ++ envRefs
  let blob := blob ++ List.replicate (auxvOffset img - blob.length) 0 ++ auxv
  if blob.length ≠ stringTableOffset img then none
  else (pack (metaFields img)).map (· ++ (blob ++ (stringTable img).bytes).drop metaSize)

private theorem buildImageMeta_eq (img : ImageSpec) : buildImageMeta img =
    (packRows ((stringTable img).argv.map fun off => [(4, off)])).bind fun argvRefs =>
    (packRows ((stringTable img).env.map fun off => [(4, off)])).bind fun envRefs =>
    (packRows (img.auxv.map fun aux => [(8, aux.1), (8, aux.2)])).bind fun auxv =>
      finishMeta img argvRefs envRefs auxv := rfl

private theorem finishMeta_eq (img : ImageSpec) :
    finishMeta img (encodeFields (refFields (stringTable img).argv)) (encodeFields (refFields (stringTable img).env))
      (encodeFields (auxvFields img.auxv)) = (pack (metaFields img)).map (· ++ metaTail img) := by
  have htables : (List.replicate metaSize (0 : UInt8) ++ encodeFields (refFields (stringTable img).argv) ++
      encodeFields (refFields (stringTable img).env)).length = envEnd img := by
    rw [envEnd_eq, envOffset_eq]
    simp only [List.length_append, List.length_replicate, length_encodeFields_refFields, length_argv, length_env]
  have hlen := length_tables img
  have hpad : List.replicate (auxvOffset img - envEnd img) 0 = auxvPadding img := rfl
  rw [finishMeta, htables, hpad, if_neg]
  · congr 1
    funext header
    simp only [List.append_assoc]
    rw [List.drop_left' List.length_replicate, metaTail]
  · rw [not_not, List.length_append, List.length_append, htables, length_encodeFields_auxvFields, ← hlen, envEnd_eq,
      envOffset_eq]

/-- The packer succeeds when every number fits its field, and then the blob has the six parts. -/
theorem buildImageMeta_eq_some :
    buildImageMeta img = some l ↔
      (Fits (refFields (stringTable img).argv) ∧ Fits (refFields (stringTable img).env) ∧
        Fits (auxvFields img.auxv) ∧ Fits (metaFields img)) ∧ l = metaBlob img := by
  have hauxv : (img.auxv.map fun aux => [((8 : Nat), aux.1), (8, aux.2)]).flatten = auxvFields img.auxv := by
    rw [← List.flatMap_def, auxvFields]
  simp only [buildImageMeta_eq, Option.bind_eq_some_iff, packRows_eq_some, flatten_refRows, hauxv]
  constructor
  · rintro ⟨_, ⟨h1, rfl⟩, _, ⟨h2, rfl⟩, _, ⟨h3, rfl⟩, h⟩
    rw [finishMeta_eq, Option.map_eq_some_iff] at h
    obtain ⟨header, h4, rfl⟩ := h
    rw [pack_eq_some] at h4
    exact ⟨⟨h1, h2, h3, h4.1⟩, by rw [h4.2, metaBlob]⟩
  · rintro ⟨⟨h1, h2, h3, h4⟩, rfl⟩
    refine ⟨_, ⟨h1, rfl⟩, _, ⟨h2, rfl⟩, _, ⟨h3, rfl⟩, ?_⟩
    rw [finishMeta_eq, pack_eq_some.2 ⟨h4, rfl⟩]
    rfl

/-! ### A meta blob in memory -/

structure MetaAt (m : Mem) (base : Nat) (img : ImageSpec) : Prop where
  header : LoadsAs m base (metaFields img)
  argv : LoadsAs m (base + metaSize) (refFields (stringTable img).argv)
  env : LoadsAs m (base + envOffset img) (refFields (stringTable img).env)
  auxv : At m (base + auxvOffset img) (encodeFields (auxvFields img.auxv))
  strings : At m (base + stringTableOffset img) (stringTable img).bytes

theorem length_metaBlob (img : ImageSpec) :
    (metaBlob img).length = stringTableOffset img + (stringTable img).bytes.length := by
  have h := length_tables img
  simp only [metaBlob, metaTail, List.length_append, length_encodeFields_refFields, length_encodeFields_auxvFields,
    length_argv, length_env]
  have hheader : (encodeFields (metaFields img)).length = metaSize := rfl
  omega

theorem metaAt_of_at {m : Mem} {base : Nat} (hb : buildImageMeta img = some l) (h : At m base l) :
    MetaAt m base img := by
  obtain ⟨⟨f1, f2, f3, f4⟩, rfl⟩ := buildImageMeta_eq_some.1 hb
  have hheader : (encodeFields (metaFields img)).length = metaSize := rfl
  have hpad : (auxvPadding img).length = auxvOffset img - envEnd img := List.length_replicate
  simp only [metaBlob, metaTail, at_append, hheader, length_encodeFields_refFields, length_encodeFields_auxvFields,
    length_argv, length_env] at h
  obtain ⟨h1, h2, h3, -, h5, h6⟩ := h
  have henv := envOffset_eq img
  have haux : base + metaSize + 4 * img.argv.length + 4 * img.env.length + (auxvPadding img).length =
      base + auxvOffset img := by
    have e1 := envEnd_eq img
    have e2 := auxvOffset_eq img
    omega
  rw [haux] at h5 h6
  rw [Nat.add_assoc base, ← henv] at h3
  refine ⟨loadsAs_of_at h1 f4, loadsAs_of_at h2 f1, loadsAs_of_at h3 f2, h5, ?_⟩
  rwa [stringTableOffset, auxvEntrySize, Nat.mul_comm, ← Nat.add_assoc]

def smallSpec : ImageSpec := ⟨[97], [[97]], [], [(0, 0)], 8192⟩

def smallBlob : List UInt8 := metaBlob smallSpec

theorem smallBlob_built : buildImageMeta smallSpec = some smallBlob := by decide +kernel

end QuestOS.ProcPack
