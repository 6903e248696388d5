import QuestOS.Print.Convert
import QuestOS.Print.Log
import QuestOS.Print.Number

/-!
# How much is written

`myprintf` never looks at the size of its buffer.  The length of its text can be read off the format and the
arguments (`formatLength`), and the text stays in the buffer if and only if that length does (`bounded_iff`).
-/

namespace QuestOS

/-! ### The length of a text -/

/-- `%c`; the counter of the padding loops may wrap. -/
def charLength (d : Directive) : Nat :=
  if d.flags.left then 1 + (i32 (d.fieldWidth - 1)).toNat
  else (i32 (d.fieldWidth - 1)).toNat + 1 + (i32 (min (i32 (d.fieldWidth - 1)) 0 - 1)).toNat

def stringLen (d : Directive) (a : Arg) : Int :=
  let len := i32 (stringBytes a).length
  if 0 ≤ d.precision ∧ d.precision < len then d.precision else len

/-- `%s`; a first padding loop leaves its counter below `len`, unless it wraps. -/
def stringLength (d : Directive) (a : Arg) : Nat :=
  let len := stringLen d a
  if d.flags.left then len.toNat + (d.fieldWidth - len).toNat
  else (d.fieldWidth - len).toNat + len.toNat + (i32 (min len d.fieldWidth - 1) - len).toNat

def numberLength (num : BitVec 64) (base : Nat) (width precision : Int) (type : Flags) : Nat :=
  let n := padCounts type (i32 (numberRoom num base width precision type))
  n.1 + n.2.1 + n.2.2 + (signText type num).length + (prefixText type base).length +
    (max precision (numeralLength base (numberValue type num))).toNat

def integerLength (d : Directive) (base : Int) (a : Arg) : Option Nat :=
  if base < 2 ∨ base > 36 then none
  else some (numberLength (numArg d a) base.toNat d.fieldWidth d.precision d.flags)

def pointerLength (d : Directive) (a : Arg) : Nat :=
  if d.fieldWidth = -1 then numberLength a.word 16 16 d.precision { d.flags with zeropad := true }
  else numberLength a.word 16 d.fieldWidth d.precision d.flags

def convertLength (c : UInt8) (d : Directive) (base : Int) (a : Arg) : Option Nat :=
  let signed : Directive := { d with flags.sign := true }
  let small : Directive := { d with flags.small := true }
  if c = ch 'c' then some (charLength d)
  else if c = ch 's' then some (stringLength d a)
  else if c = ch 'n' then some 0
  else if c = ch 'p' then some (pointerLength d a)
  else if c = ch 'o' then integerLength d 8 a
  else if c = ch 'x' then integerLength small 16 a
  else if c = ch 'X' then integerLength d 16 a
  else if c = ch 'd' ∨ c = ch 'i' then integerLength signed 10 a
  else if c = ch 'u' then integerLength d 10 a
  else (integerLength d base a).map ((if c ≠ ch '%' then 1 else 0) + (if c ≠ 0 then 1 else 0) + ·)

/-- The length of the text: one for each character outside of the directives, and what the directives write.
There is none if a directive finds no argument, or reaches the code for numbers before any `base` is set. -/
def formatLength (fmt : List UInt8) (base : Int) (args : List Arg) : Option Nat :=
  match fmt with
  | [] => some 0
  | c :: fmt =>
    if c ≠ ch '%' then (formatLength fmt base args).map (1 + ·)
    else
      match _h : scanDirective fmt { args } with
      | none => none
      | some (fmt', d, p) =>
        match p.args with
        | [] => none
        | a :: as =>
          (convertLength (peek fmt') d base a).bind fun n =>
            (formatLength fmt'.tail (convertBase (peek fmt') base) as).map (n + ·)
termination_by fmt.length
decreasing_by
  · exact Nat.lt_succ_self _
  · have := scanDirective_length _h
    simp only [List.length_tail, List.length_cons]
    omega

variable {fmt fmt' : List UInt8} {d : Directive} {p p' : Printer}

theorem charText_length (d : Directive) (a : Arg) : (charText d a).length = charLength d := by
  rw [charText, charLength]
  cases d.flags.left with
  | true =>
    simp only [Bool.not_true, Bool.false_eq_true, if_true, if_false, whilePreDec, List.length_append, List.length_replicate,
      List.length_singleton, List.length_nil, Nat.zero_add]
  | false =>
    simp only [Bool.not_false, Bool.false_eq_true, if_true, if_false, whilePreDec, List.length_append,
      List.length_replicate, List.length_singleton]

theorem stringLen_le (d : Directive) (a : Arg) : (stringLen d a).toNat ≤ (stringBytes a).length := by
  have hi : i32 (stringBytes a).length ≤ (stringBytes a).length := by
    unfold i32
    rw [Int.bmod_def]
    split <;> omega
  unfold stringLen
  dsimp only
  split <;> omega

theorem stringText_length (d : Directive) (a : Arg) : (stringText d a).length = stringLength d a := by
  have htake : ((stringBytes a).take (stringLen d a).toNat).length = (stringLen d a).toNat := by
    rw [List.length_take, Nat.min_eq_left (stringLen_le d a)]
  change (((if !d.flags.left then whilePostDec (ch ' ') (stringLen d a) d.fieldWidth else ([], d.fieldWidth)).1 ++
    (stringBytes a).take (stringLen d a).toNat) ++ _).length = _
  rw [List.length_append, List.length_append, htake, stringLength]
  cases d.flags.left with
  | true =>
    simp only [Bool.not_true, Bool.false_eq_true, if_true, if_false, whilePostDec, List.length_replicate, List.length_nil,
      Nat.zero_add]
    rfl
  | false =>
    simp only [Bool.not_false, Bool.false_eq_true, if_true, if_false, whilePostDec, List.length_replicate]
    rfl

def IsInt (n : Int) : Prop := -2 ^ 31 ≤ n ∧ n < 2 ^ 31

theorem isInt_i32 (n : Int) : IsInt (i32 n) := by
  have h1 := Int.le_bmod (x := n) (m := 2 ^ 32) (by decide)
  have h2 := Int.bmod_lt (x := n) (m := 2 ^ 32) (by decide)
  unfold IsInt i32
  omega

theorem isInt_int (a : Arg) : IsInt a.int :=
  ⟨BitVec.le_toInt (a.word.truncate 32), BitVec.toInt_lt⟩

theorem number_length {width : Int} (hw : IsInt width) (num : BitVec 64) (base precision : Int) (type : Flags) :
    (number num base width precision type).map List.length =
      if base < 2 ∨ base > 36 then none else some (numberLength num base.toNat width precision type) := by
  split
  · next hbase => rw [number, if_pos hbase, Option.map_none]
  · next hbase =>
    obtain ⟨b, rfl⟩ := Int.eq_ofNat_of_zero_le (show 0 ≤ base by omega)
    have hd := length_numberDigits num b precision type
    rw [number_eq num (by omega) (by omega) hw.1 hw.2, Option.map_some, numberParts_length, numberLength,
      List.length_append, List.length_append, Int.toNat_natCast]
    congr 1
    omega

theorem integerText_length (hw : IsInt d.fieldWidth) (base : Int) (a : Arg) :
    (integerText d base a).map List.length = integerLength d base a :=
  number_length hw (numArg d a) base d.precision d.flags

theorem pointerText_length (hw : IsInt d.fieldWidth) (a : Arg) :
    (pointerText d a).map List.length = some (pointerLength d a) := by
  rw [pointerText, pointerLength]
  split
  · rw [number_length (by unfold IsInt; decide), if_neg (by decide)]
    rfl
  · rw [number_length hw, if_neg (by decide)]
    rfl

theorem convertText_length (hw : IsInt d.fieldWidth) (c : UInt8) (base : Int) (a : Arg) :
    (convertText c d base a).map List.length = convertLength c d base a := by
  have hdefault : ((integerText d base a).map fun text =>
      (if c ≠ ch '%' then [ch '%'] else []) ++ (if c ≠ 0 then [c] else []) ++ text).map List.length =
      (integerLength d base a).map ((if c ≠ ch '%' then 1 else 0) + (if c ≠ 0 then 1 else 0) + ·) := by
    rw [← integerText_length hw, Option.map_map, Option.map_map]
    congr 1
    funext text
    simp only [Function.comp_apply, List.length_append]
    split_ifs <;> rfl
  rw [convertText, convertLength]
  simp only [apply_ite (Option.map List.length), Option.map_some, charText_length, stringText_length, List.length_nil,
    pointerText_length hw, hdefault]
  rw [integerText_length hw, integerText_length (d := { d with flags.small := true }) hw, integerText_length hw,
    integerText_length (d := { d with flags.sign := true }) hw, integerText_length hw]

/-! ### A whole run -/

theorem scanNumber_isInt {tmp : Int} (h : IsInt tmp) (fmt : List UInt8) : IsInt (scanNumber fmt tmp).2 := by
  induction fmt generalizing tmp with
  | nil => exact h
  | cons c fmt ih =>
    rw [scanNumber]
    split
    · exact ih (isInt_i32 _)
    · exact h

theorem scanWidth_isInt {flags flags' : Flags} {w : Int} (h : scanWidth fmt flags p = some (fmt', w, flags', p')) :
    IsInt w := by
  unfold scanWidth at h
  split at h
  · cases h
    exact scanNumber_isInt (by unfold IsInt; decide) fmt
  · split at h
    · obtain ⟨⟨a, q⟩, -, h⟩ := Option.bind_eq_some_iff.1 h
      dsimp only at h
      split at h
      · cases h
        exact isInt_i32 _
      · cases h
        exact isInt_int a
    · cases h
      unfold IsInt
      decide

theorem scanDirective_isInt (h : scanDirective fmt p = some (fmt', d, p')) : IsInt d.fieldWidth := by
  unfold scanDirective at h
  obtain ⟨⟨f1, w, flags, q⟩, h1, h⟩ := Option.bind_eq_some_iff.1 h
  obtain ⟨⟨f2, n, q'⟩, h2, h⟩ := Option.bind_eq_some_iff.1 h
  cases h
  exact scanWidth_isInt h1

theorem formatLength_char {c : UInt8} (hc : c ≠ ch '%') (fmt : List UInt8) (base : Int) (args : List Arg) :
    formatLength (c :: fmt) base args = (formatLength fmt base args).map (1 + ·) := by
  rw [formatLength, if_pos hc]

theorem formatLength_directive (fmt : List UInt8) (base : Int) (args : List Arg) :
    formatLength (ch '%' :: fmt) base args = (scanDirective fmt { args }).bind fun r =>
      match r.2.2.args with
      | [] => none
      | a :: as => (convertLength (peek r.1) r.2.1 base a).bind fun n =>
          (formatLength r.1.tail (convertBase (peek r.1) base) as).map (n + ·) := by
  rw [formatLength, if_neg (not_not_intro rfl)]
  split
  · next h => rw [h, Option.bind_none]
  · next fmt' d p h =>
    rw [h, Option.bind_some]

theorem myprintfLoop_length (fmt : List UInt8) (p : Printer) :
    (myprintfLoop fmt p).map (·.out.length) = (formatLength fmt p.base p.args).map (p.out.length + ·) := by
  induction h : fmt.length using Nat.strong_induction_on generalizing fmt p with
  | _ n ih =>
    subst h
    cases fmt with
    | nil =>
      rw [myprintfLoop, formatLength]
      rfl
    | cons c fmt =>
      by_cases hc : c = ch '%'
      · subst hc
        rw [myprintfLoop_directive, directive_eq, formatLength_directive]
        cases hscan : scanDirective fmt { args := p.args } with
        | none => rfl
        | some r =>
          obtain ⟨fmt', d, q⟩ := r
          simp only [Option.bind_some]
          cases q.args with
          | nil => rfl
          | cons a as =>
            -- the text of this directive, and the rest from the state it leaves
            have hlt : fmt'.tail.length < (ch '%' :: fmt).length := by
              have := scanDirective_length hscan
              simp only [List.length_tail, List.length_cons]
              omega
            have hlen := convertText_length (scanDirective_isInt hscan) (peek fmt') p.base a
            dsimp only
            rw [← hlen]
            cases convertText (peek fmt') d p.base a with
            | none => rfl
            | some text =>
              simp only [Option.map_some, Option.bind_some]
              rw [ih _ hlt _ _ rfl, Option.map_map]
              congr 1
              funext m
              simp only [Function.comp_apply, List.length_append, Nat.add_assoc]
      · rw [myprintfLoop_char hc, formatLength_char hc, ih fmt.length (Nat.lt_succ_self _) fmt _ rfl, Option.map_map]
        congr 1
        funext m
        simp only [Function.comp_apply, Printer.emit, List.length_append, List.length_singleton, Nat.add_assoc]

/-! ### The buffers -/

/-- `myprintf(string, size, fmt, arg)` stores its characters and the NUL in the `size` bytes from `string` on, and
returns the number of characters. -/
def WithinBuffer (string : Nat) (size : BitVec 32) (fmt : Text) (args : List Arg) : Prop :=
  ∃ p, myprintf fmt args = some p ∧
    (∀ a ∈ List.range' string (p.out ++ [0]).length, string ≤ a ∧ a < string + size.toNat) ∧
    i32 p.out.length = p.out.length

/-- The addresses that `printk` stores to for `myprintf`, and those it then copies to the log or prints.  The `int`
is converted to `size_t` for `memcpy`. -/
def printkAccesses (y : PrintkLayout) (status : PrintkStatus) (fmt : Text) (args : List Arg) : Option (List Nat) :=
  if status = .forbid then some []
  else do
    let p ← myprintf fmt args
    let len := i32 p.out.length
    let count := if status = .down then (len % 2 ^ 64).toNat else len.toNat
    some (List.range' y.printBuf (p.out ++ [0]).length ++ List.range' y.printBuf count)

def PrintkWithin (y : PrintkLayout) (status : PrintkStatus) (fmt : Text) (args : List Arg) : Prop :=
  ∃ l, printkAccesses y status fmt args = some l ∧ ∀ a ∈ l, y.printBuf ≤ a ∧ a < y.printBuf + consolePrintBufferSize

def TextFits (size : Nat) (fmt : Text) (args : List Arg) : Prop :=
  ∃ n, formatLength fmt.bytes 0 args = some n ∧ n + 1 ≤ size

theorem myprintf_length (fmt : Text) (args : List Arg) :
    (myprintf fmt args).map (·.out.length) = formatLength fmt.bytes 0 args := by
  rw [myprintf, myprintfLoop_length]
  simp only [List.length_nil, Nat.zero_add, Option.map_id']

theorem fits_iff {size : Nat} {fmt : Text} {args : List Arg} :
    TextFits size fmt args ↔ ∃ p, myprintf fmt args = some p ∧ p.out.length + 1 ≤ size := by
  rw [TextFits, ← myprintf_length]
  cases myprintf fmt args <;> simp

theorem forall_mem_range' {string n size : Nat} :
    (∀ a ∈ List.range' string n, string ≤ a ∧ a < string + size) ↔ n ≤ size := by
  simp only [List.mem_range'_1]
  constructor
  · intro h
    by_contra hn
    have := h (string + size) ⟨by omega, by omega⟩
    omega
  · intro h a ha
    omega

theorem i32_natCast {n : Nat} : i32 n = n ↔ n < 2 ^ 31 := by
  constructor
  · intro h
    have := (isInt_i32 n).2
    omega
  · intro h
    exact i32_eq (by omega) (by omega)

theorem withinBuffer_iff {string : Nat} {size : BitVec 32} {fmt : Text} {args : List Arg} :
    WithinBuffer string size fmt args ↔ TextFits (min size.toNat (2 ^ 31)) fmt args := by
  rw [fits_iff, WithinBuffer]
  refine exists_congr fun p => and_congr_right fun _ => ?_
  rw [forall_mem_range', List.length_append, List.length_singleton, i32_natCast]
  omega

theorem printkWithin_iff {y : PrintkLayout} {status : PrintkStatus} {fmt : Text} {args : List Arg} :
    PrintkWithin y status fmt args ↔ (status ≠ .forbid → TextFits consolePrintBufferSize fmt args) := by
  unfold PrintkWithin printkAccesses
  by_cases hf : status = .forbid
  · simp [hf]
  · rw [imp_iff_right hf, fits_iff, if_neg hf]
    cases myprintf fmt args with
    | none => simp
    | some p =>
      simp only [Option.bind_eq_bind, Option.bind_some, Option.some.injEq, exists_eq_left', List.forall_mem_append,
        forall_mem_range', List.length_append, List.length_singleton]
      constructor
      · intro h
        exact h.1
      · intro h
        -- a length that fits is not changed by the conversions
        have hlen : i32 p.out.length = p.out.length := i32_natCast.2 (by unfold consolePrintBufferSize at h; omega)
        unfold consolePrintBufferSize at h ⊢
        refine ⟨h, ?_⟩
        rw [hlen]
        split <;> omega

def wideFormat : Text where
  bytes := [ch '%', ch '1', ch '0', ch '2', ch '4', ch 'd']
  nul_free := by decide

def oneArg : Arg := { word := 1, text := ⟨[], nul_free_nil⟩ }

theorem formatLength_wide : formatLength wideFormat.bytes 0 [oneArg] = some 1024 := by
  have h : formatLength wideFormat.bytes 0 [oneArg] = _ := formatLength_directive _ _ _
  rw [h]
  decide +kernel

end QuestOS
