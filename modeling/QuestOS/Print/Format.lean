import Mathlib.Data.Nat.Digits.Defs
import QuestOS.CInt

/-!
# The formatter

`myprintf` and `number` of `kernel/printk.c`.  The characters a call writes are collected in a list; the
terminating NUL is added by the caller of the model.  The argument `size` of `myprintf` is never read by the
source and does not occur.

`none` stands for a call without a meaning: `va_arg` beyond the last argument, or an output position that
`number` set to the null pointer.  Arithmetic on `int` wraps.
-/

namespace QuestOS

def ch (c : Char) : UInt8 := c.val.toUInt8

structure Text where
  bytes : List UInt8
  nul_free : 0 ∉ bytes

theorem nul_free_nil : (0 : UInt8) ∉ ([] : List UInt8) := List.not_mem_nil

structure Flags where
  zeropad : Bool := false
  sign : Bool := false
  plus : Bool := false
  space : Bool := false
  left : Bool := false
  special : Bool := false
  small : Bool := false
  deriving DecidableEq

/-- A variadic argument: its word, and the string at that address, which only `%s` reads. -/
structure Arg where
  word : BitVec 64
  text : Text

/-! ### Numbers -/

/-- `while (lo < n--) *str++ = c;`: the characters written and the value left in `n`. -/
def whilePostDec (c : UInt8) (lo n : Int) : List UInt8 × Int :=
  (List.replicate (n - lo).toNat c, i32 (min lo n - 1))

/-- `while (--n > 0) *str++ = c;`: the characters written and the value left in `n`. -/
def whilePreDec (c : UInt8) (n : Int) : List UInt8 × Int :=
  (List.replicate (i32 (n - 1)).toNat c, min (i32 (n - 1)) 0)

def digitsAt (small : Bool) (d : Nat) : UInt8 :=
  if d < 10 then ch '0' + UInt8.ofNat d
  else (if small then ch 'a' else ch 'A') + UInt8.ofNat (d - 10)

def numberTmp (small : Bool) (base num : Nat) : List UInt8 :=
  if num = 0 then [ch '0'] else (Nat.digits base num).map (digitsAt small)

/-- The sign character, the magnitude and the width left for it.  A minus sign does not narrow the field. -/
def numberSign (type : Flags) (num : BitVec 64) (size : Int) : List UInt8 × BitVec 64 × Int :=
  if !type.sign then ([], num, size)
  else if num.toInt < 0 then ([ch '-'], -num, size)
  else if type.plus then ([ch '+'], num, i32 (size - 1))
  else if type.space then ([ch ' '], num, i32 (size - 1))
  else ([], num, size)

def numberSpecial (type : Flags) (base : Int) : List UInt8 :=
  if !type.special then []
  else if base = 16 then [ch '0', digitsAt type.small 33]
  else if base = 8 then [ch '0']
  else []

/-- `number`; `none` is the null pointer it returns for a base it does not know. -/
def number (num : BitVec 64) (base size precision : Int) (type : Flags) : Option (List UInt8) :=
  let zeropad := type.zeropad && !type.left
  if base < 2 ∨ base > 36 then none
  else
    let c := if zeropad then ch '0' else ch ' '
    let (sign, num, size) := numberSign type num size
    let special := numberSpecial type base
    let size := i32 (size - special.length)
    let tmp := numberTmp type.small base.toNat num.toNat
    let precision := max precision tmp.length
    let size := i32 (size - precision)
    let (spaces, size) := if !zeropad && !type.left then whilePostDec (ch ' ') 0 size else ([], size)
    let (pad, size) := if !type.left then whilePostDec c 0 size else ([], size)
    let zeros := List.replicate (precision - tmp.length).toNat (ch '0')
    let (trail, _) := whilePostDec (ch ' ') 0 size
    some (spaces ++ sign ++ special ++ pad ++ zeros ++ tmp.reverse ++ trail)

/-! ### Directives -/

/-- The variables that `myprintf` carries from one directive to the next: what it has written, `base`, the
arguments left, and the bytes that `%n` stored with their addresses. -/
structure Printer where
  out : List UInt8 := []
  base : Int := 0
  args : List Arg
  counts : List (BitVec 64 × UInt8) := []

def Printer.emit (p : Printer) (l : List UInt8) : Printer := { p with out := p.out ++ l }

def Printer.vaArg (p : Printer) : Option (Arg × Printer) :=
  match p.args with
  | [] => none
  | a :: as => some (a, { p with args := as })

def Arg.int (a : Arg) : Int := (a.word.truncate 32).toInt

inductive Qualifier where
  | none | h | l | L
  deriving DecidableEq

structure Directive where
  flags : Flags
  fieldWidth : Int
  precision : Int
  qualifier : Qualifier

def isDigit (c : UInt8) : Prop := ch '0' ≤ c ∧ c ≤ ch '9'

instance : DecidablePred isDigit := fun _ => inferInstanceAs (Decidable (_ ∧ _))

def scanNumber : List UInt8 → Int → List UInt8 × Int
  | [], tmp => ([], tmp)
  | c :: fmt, tmp =>
    if isDigit c then scanNumber fmt (i32 (i32 (tmp * 10) + (c - ch '0').toNat)) else (c :: fmt, tmp)

def setFlag (flags : Flags) (c : UInt8) : Option Flags :=
  if c = ch '-' then some { flags with left := true }
  else if c = ch '+' then some { flags with plus := true }
  else if c = ch ' ' then some { flags with space := true }
  else if c = ch '#' then some { flags with special := true }
  else if c = ch '0' then some { flags with zeropad := true }
  else none

def scanFlags : List UInt8 → Flags → List UInt8 × Flags
  | [], flags => ([], flags)
  | c :: fmt, flags =>
    match setFlag flags c with
    | some flags => scanFlags fmt flags
    | none => (c :: fmt, flags)

def peek (fmt : List UInt8) : UInt8 := fmt.headD 0

def scanWidth (fmt : List UInt8) (flags : Flags) (p : Printer) : Option (List UInt8 × Int × Flags × Printer) :=
  if isDigit (peek fmt) then
    let (fmt, w) := scanNumber fmt 0
    some (fmt, w, flags, p)
  else if peek fmt = ch '*' then do
    let (a, p) ← p.vaArg
    if a.int < 0 then some (fmt, i32 (-a.int), { flags with left := true }, p) else some (fmt, a.int, flags, p)
  else some (fmt, -1, flags, p)

def scanPrecision (fmt : List UInt8) (p : Printer) : Option (List UInt8 × Int × Printer) :=
  if peek fmt = ch '.' then
    let fmt := fmt.tail
    if isDigit (peek fmt) then
      let (fmt, n) := scanNumber fmt 0
      some (fmt, max n 0, p)
    else if peek fmt = ch '*' then do
      let (a, p) ← p.vaArg
      some (fmt, max a.int 0, p)
    else some (fmt, 0, p)
  else some (fmt, -1, p)

def scanQualifier (fmt : List UInt8) : List UInt8 × Qualifier :=
  if peek fmt = ch 'h' then (fmt.tail, .h)
  else if peek fmt = ch 'l' then
    if peek fmt.tail = ch 'l' then (fmt.tail.tail, .L) else (fmt.tail, .l)
  else if peek fmt = ch 'L' then (fmt.tail, .L)
  else (fmt, .none)

def scanDirective (fmt : List UInt8) (p : Printer) : Option (List UInt8 × Directive × Printer) := do
  let (fmt, flags) := scanFlags fmt {}
  let (fmt, fieldWidth, flags, p) ← scanWidth fmt flags p
  let (fmt, precision, p) ← scanPrecision fmt p
  let (fmt, qualifier) := scanQualifier fmt
  some (fmt, { flags, fieldWidth, precision, qualifier }, p)

/-! ### Conversions -/

def printChar (d : Directive) (p : Printer) : Option Printer := do
  let (before, w) := if !d.flags.left then whilePreDec (ch ' ') d.fieldWidth else ([], d.fieldWidth)
  let (a, p) ← p.vaArg
  some (p.emit (before ++ [UInt8.ofNat a.word.toNat] ++ (whilePreDec (ch ' ') w).1))

def nullText : List UInt8 := ("<NULL>".toList).map ch

def printString (d : Directive) (p : Printer) : Option Printer := do
  let (a, p) ← p.vaArg
  let s := if a.word = 0 then nullText else a.text.bytes
  let len := i32 s.length
  let len := if 0 ≤ d.precision ∧ d.precision < len then d.precision else len
  let (before, w) := if !d.flags.left then whilePostDec (ch ' ') len d.fieldWidth else ([], d.fieldWidth)
  some (p.emit (before ++ s.take len.toNat ++ (whilePostDec (ch ' ') len w).1))

def printCount (p : Printer) : Option Printer := do
  let n := UInt8.ofNat p.out.length
  let (a, p) ← p.vaArg
  some { p with counts := p.counts ++ [(a.word, n)] }

def printPointer (d : Directive) (p : Printer) : Option Printer := do
  let (a, p) ← p.vaArg
  let (fieldWidth, flags) :=
    if d.fieldWidth = -1 then (16, { d.flags with zeropad := true }) else (d.fieldWidth, d.flags)
  let text ← number a.word 16 fieldWidth d.precision flags
  some (p.emit text)

def numArg (d : Directive) (a : Arg) : BitVec 64 :=
  match d.qualifier with
  | .L | .l => a.word
  | .h =>
    if d.flags.sign then (a.word.truncate 16).signExtend 64 else (a.word.truncate 16).zeroExtend 64
  | .none =>
    if d.flags.sign then (a.word.truncate 32).signExtend 64 else (a.word.truncate 32).zeroExtend 64

/-- The statements behind the `switch`: every directive that leaves it by `break` ends here, with the `base`
that is then set. -/
def printNumber (d : Directive) (p : Printer) : Option Printer := do
  let (a, p) ← p.vaArg
  let text ← number (numArg d a) p.base d.fieldWidth d.precision d.flags
  some (p.emit text)

/-- The second `switch` and what follows it, at the conversion character `*fmt`.  The result has the format
behind that character. -/
def convert (fmt : List UInt8) (d : Directive) (p : Printer) : Option (List UInt8 × Printer) :=
  let c := peek fmt
  let signed : Directive := { d with flags.sign := true }
  let small : Directive := { d with flags.small := true }
  let printed : Option Printer :=
    if c = ch 'c' then printChar d p
    else if c = ch 's' then printString d p
    else if c = ch 'n' then printCount p
    else if c = ch 'p' then printPointer d p
    else if c = ch 'o' then printNumber d { p with base := 8 }
    else if c = ch 'x' then printNumber small { p with base := 16 }
    else if c = ch 'X' then printNumber d { p with base := 16 }
    else if c = ch 'd' ∨ c = ch 'i' then printNumber signed { p with base := 10 }
    else if c = ch 'u' then printNumber d { p with base := 10 }
    else
      -- the `default` case: at the end of the format `--fmt` undoes the step of the loop
      let p := if c ≠ ch '%' then p.emit [ch '%'] else p
      let p := if c ≠ 0 then p.emit [c] else p
      printNumber d p
  printed.map fun p => (fmt.tail, p)

/-! ### The loop -/

theorem scanFlags_length (fmt : List UInt8) (flags : Flags) : (scanFlags fmt flags).1.length ≤ fmt.length := by
  induction fmt generalizing flags with
  | nil => exact Nat.le_refl 0
  | cons c fmt ih =>
    rw [scanFlags]
    cases setFlag flags c with
    | none => exact Nat.le_refl _
    | some flags => exact (ih flags).trans (Nat.le_succ _)

theorem scanNumber_length (fmt : List UInt8) (tmp : Int) : (scanNumber fmt tmp).1.length ≤ fmt.length := by
  induction fmt generalizing tmp with
  | nil => exact Nat.le_refl 0
  | cons c fmt ih =>
    rw [scanNumber]
    split
    · exact (ih _).trans (Nat.le_succ _)
    · exact Nat.le_refl _

variable {fmt fmt' : List UInt8} {p p' : Printer}

theorem scanWidth_length {flags flags' : Flags} {w : Int}
    (h : scanWidth fmt flags p = some (fmt', w, flags', p')) : fmt'.length ≤ fmt.length := by
  unfold scanWidth at h
  split at h
  · obtain ⟨rfl, -⟩ := Prod.mk.inj (Option.some.inj h)
    exact scanNumber_length fmt 0
  · split at h
    · obtain ⟨⟨a, q⟩, -, h⟩ := Option.bind_eq_some_iff.1 h
      dsimp only at h
      split at h <;> obtain ⟨rfl, -⟩ := Prod.mk.inj (Option.some.inj h) <;> exact Nat.le_refl _
    · obtain ⟨rfl, -⟩ := Prod.mk.inj (Option.some.inj h)
      exact Nat.le_refl _

theorem scanPrecision_length {n : Int}
    (h : scanPrecision fmt p = some (fmt', n, p')) : fmt'.length ≤ fmt.length := by
  have htail : fmt.tail.length ≤ fmt.length := by simp
  unfold scanPrecision at h
  split at h
  · dsimp only at h
    split at h
    · obtain ⟨rfl, -⟩ := Prod.mk.inj (Option.some.inj h)
      exact (scanNumber_length _ 0).trans htail
    · split at h
      · obtain ⟨⟨a, q⟩, -, h⟩ := Option.bind_eq_some_iff.1 h
        obtain ⟨rfl, -⟩ := Prod.mk.inj (Option.some.inj h)
        exact htail
      · obtain ⟨rfl, -⟩ := Prod.mk.inj (Option.some.inj h)
        exact htail
  · obtain ⟨rfl, -⟩ := Prod.mk.inj (Option.some.inj h)
    exact Nat.le_refl _

theorem scanQualifier_length (fmt : List UInt8) : (scanQualifier fmt).1.length ≤ fmt.length := by
  unfold scanQualifier
  split_ifs <;> simp
  omega

theorem scanDirective_length {d : Directive}
    (h : scanDirective fmt p = some (fmt', d, p')) : fmt'.length ≤ fmt.length := by
  unfold scanDirective at h
  obtain ⟨⟨f1, w, flags, q⟩, h1, h⟩ := Option.bind_eq_some_iff.1 h
  obtain ⟨⟨f2, n, q'⟩, h2, h⟩ := Option.bind_eq_some_iff.1 h
  obtain ⟨rfl, -⟩ := Prod.mk.inj (Option.some.inj h)
  calc (scanQualifier f2).1.length ≤ f2.length := scanQualifier_length f2
    _ ≤ f1.length := scanPrecision_length h2
    _ ≤ (scanFlags fmt {}).1.length := scanWidth_length h1
    _ ≤ fmt.length := scanFlags_length fmt {}

def directive (fmt : List UInt8) (p : Printer) : Option (List UInt8 × Printer) := do
  let (fmt, d, p) ← scanDirective fmt p
  convert fmt d p

theorem directive_length (h : directive fmt p = some (fmt', p')) :
    fmt'.length ≤ fmt.length := by
  obtain ⟨⟨f1, d, q⟩, h1, h⟩ := Option.bind_eq_some_iff.1 h
  obtain ⟨r, -, h⟩ := Option.map_eq_some_iff.1 h
  obtain ⟨rfl, -⟩ := Prod.mk.inj h
  calc f1.tail.length ≤ f1.length := by simp
    _ ≤ fmt.length := scanDirective_length h1

def myprintfLoop (fmt : List UInt8) (p : Printer) : Option Printer :=
  match fmt with
  | [] => some p
  | c :: fmt =>
    if c ≠ ch '%' then myprintfLoop fmt (p.emit [c])
    else
      match _h : directive fmt p with
      | none => none
      | some (fmt', p') => myprintfLoop fmt' p'
termination_by fmt.length
decreasing_by
  · exact Nat.lt_succ_self _
  · exact Nat.lt_succ_of_le (directive_length _h)

def myprintf (fmt : Text) (args : List Arg) : Option Printer := myprintfLoop fmt.bytes { args }

theorem myprintfLoop_literal {fmt : List UInt8} (h : ch '%' ∉ fmt) (p : Printer) :
    myprintfLoop fmt p = some (p.emit fmt) := by
  induction fmt generalizing p with
  | nil =>
    rw [myprintfLoop, Printer.emit, List.append_nil]
  | cons c fmt ih =>
    have hc : c ≠ ch '%' := fun hc => h (hc ▸ List.mem_cons_self)
    rw [myprintfLoop, if_pos hc, ih (fun hm => h (List.mem_cons_of_mem c hm))]
    simp only [Printer.emit, List.append_assoc, List.singleton_append]

end QuestOS
