import QuestOS.Print.Format

/-!
# One directive at a time

The scan of a directive reads the arguments of its stars and leaves the rest of the printer alone
(`scanDirective_eq`); its conversion writes `convertText` for the next argument (`convert_cons`).  So a run of
`myprintf` depends on the format, the arguments and the `base` left by the last number.
-/

namespace QuestOS

variable {fmt fmt' : List UInt8} {d : Directive} {p p' : Printer}

/-! ### The texts -/

def charText (d : Directive) (a : Arg) : List UInt8 :=
  let (before, w) := if !d.flags.left then whilePreDec (ch ' ') d.fieldWidth else ([], d.fieldWidth)
  before ++ [UInt8.ofNat a.word.toNat] ++ (whilePreDec (ch ' ') w).1

def stringBytes (a : Arg) : List UInt8 := if a.word = 0 then nullText else a.text.bytes

def stringText (d : Directive) (a : Arg) : List UInt8 :=
  let s := stringBytes a
  let len := i32 s.length
  let len := if 0 ≤ d.precision ∧ d.precision < len then d.precision else len
  let (before, w) := if !d.flags.left then whilePostDec (ch ' ') len d.fieldWidth else ([], d.fieldWidth)
  before ++ s.take len.toNat ++ (whilePostDec (ch ' ') len w).1

def pointerText (d : Directive) (a : Arg) : Option (List UInt8) :=
  if d.fieldWidth = -1 then number a.word 16 16 d.precision { d.flags with zeropad := true }
  else number a.word 16 d.fieldWidth d.precision d.flags

def integerText (d : Directive) (base : Int) (a : Arg) : Option (List UInt8) :=
  number (numArg d a) base d.fieldWidth d.precision d.flags

def convertText (c : UInt8) (d : Directive) (base : Int) (a : Arg) : Option (List UInt8) :=
  let signed : Directive := { d with flags.sign := true }
  let small : Directive := { d with flags.small := true }
  if c = ch 'c' then some (charText d a)
  else if c = ch 's' then some (stringText d a)
  else if c = ch 'n' then some []
  else if c = ch 'p' then pointerText d a
  else if c = ch 'o' then integerText d 8 a
  else if c = ch 'x' then integerText small 16 a
  else if c = ch 'X' then integerText d 16 a
  else if c = ch 'd' ∨ c = ch 'i' then integerText signed 10 a
  else if c = ch 'u' then integerText d 10 a
  else (integerText d base a).map fun text =>
    (if c ≠ ch '%' then [ch '%'] else []) ++ (if c ≠ 0 then [c] else []) ++ text

def convertBase (c : UInt8) (base : Int) : Int :=
  if c = ch 'o' then 8
  else if c = ch 'x' ∨ c = ch 'X' then 16
  else if c = ch 'd' ∨ c = ch 'i' ∨ c = ch 'u' then 10
  else base

def convertCounts (c : UInt8) (p : Printer) (a : Arg) : List (BitVec 64 × UInt8) :=
  if c = ch 'n' then p.counts ++ [(a.word, UInt8.ofNat p.out.length)] else p.counts

/-! ### The conversion -/

theorem vaArg_cons {a : Arg} {as : List Arg} (ha : p.args = a :: as) : p.vaArg = some (a, { p with args := as }) := by
  rw [Printer.vaArg, ha]

theorem vaArg_nil (ha : p.args = []) : p.vaArg = none := by rw [Printer.vaArg, ha]

section
variable {a : Arg} {as : List Arg} (ha : p.args = a :: as)
include ha

theorem printChar_cons : printChar d p = some { p with args := as, out := p.out ++ charText d a } := by
  rw [printChar, vaArg_cons ha]
  rfl

theorem printString_cons : printString d p = some { p with args := as, out := p.out ++ stringText d a } := by
  rw [printString, vaArg_cons ha]
  rfl

theorem printCount_cons :
    printCount p = some { p with args := as, counts := p.counts ++ [(a.word, UInt8.ofNat p.out.length)] } := by
  rw [printCount, vaArg_cons ha]
  rfl

theorem printPointer_cons :
    printPointer d p = (pointerText d a).map fun text => { p with args := as, out := p.out ++ text } := by
  rw [printPointer, vaArg_cons ha, pointerText]
  by_cases hw : d.fieldWidth = -1
  · simp only [if_pos hw, Option.bind_eq_bind, Option.bind_some]
    cases number a.word 16 16 d.precision { d.flags with zeropad := true } <;> rfl
  · simp only [if_neg hw, Option.bind_eq_bind, Option.bind_some]
    cases number a.word 16 d.fieldWidth d.precision d.flags <;> rfl

theorem printNumber_cons :
    printNumber d p = (integerText d p.base a).map fun text => { p with args := as, out := p.out ++ text } := by
  rw [printNumber, vaArg_cons ha, integerText]
  simp only [Option.bind_eq_bind, Option.bind_some]
  cases number (numArg d a) p.base d.fieldWidth d.precision d.flags <;> rfl

/-- The shape of all number conversions: `base` is set, and the text follows what is already written. -/
theorem printNumber_map (fmt : List UInt8) (d : Directive) (base : Int) (before : List UInt8) :
    (printNumber d { p with base, out := p.out ++ before }).map (fun p => (fmt.tail, p)) =
      ((integerText d base a).map (before ++ ·)).map fun text =>
        (fmt.tail, { out := p.out ++ text, base, args := as, counts := p.counts }) := by
  rw [printNumber_cons (p := { p with base, out := p.out ++ before }) ha]
  simp only [Option.map_map, Function.comp_def, List.append_assoc]

theorem convert_cons : convert fmt d p = (convertText (peek fmt) d p.base a).map fun text =>
    (fmt.tail, { out := p.out ++ text, base := convertBase (peek fmt) p.base, args := as,
                 counts := convertCounts (peek fmt) p a }) := by
  have hnum := fun d base => printNumber_map ha fmt d base []
  simp only [List.append_nil, List.nil_append, Option.map_id'] at hnum
  unfold convert convertText convertBase convertCounts
  generalize peek fmt = c
  dsimp only
  by_cases hc : c = ch 'c'
  · subst hc
    simp +decide only [if_true, if_false, printChar_cons ha, Option.map_some]
  by_cases hs : c = ch 's'
  · subst hs
    simp +decide only [if_true, if_false, printString_cons ha, Option.map_some]
  by_cases hn : c = ch 'n'
  · subst hn
    simp +decide only [if_true, if_false, printCount_cons ha, Option.map_some, List.append_nil]
  by_cases hp : c = ch 'p'
  · subst hp
    simp +decide only [if_true, if_false, printPointer_cons ha, Option.map_map, Function.comp_def]
  simp only [if_neg hc, if_neg hs, if_neg hn, if_neg hp]
  by_cases ho : c = ch 'o'
  · subst ho
    simp +decide only [if_true, hnum]
  by_cases hx : c = ch 'x'
  · subst hx
    simp +decide only [if_true, if_false, hnum]
  by_cases hX : c = ch 'X'
  · subst hX
    simp +decide only [if_true, if_false, hnum]
  simp only [if_neg ho, if_neg hx, if_neg hX, if_neg (not_or.2 ⟨hx, hX⟩)]
  by_cases hd : c = ch 'd' ∨ c = ch 'i'
  · simp only [hnum, ← or_assoc, hd, true_or, if_true]
  by_cases hu : c = ch 'u'
  · subst hu
    simp +decide only [if_true, if_false, hnum]
  simp only [← or_assoc, hd, hu, or_self, if_false]
  rw [← printNumber_map ha fmt]
  congr 2
  unfold Printer.emit
  split_ifs <;> simp only [List.append_assoc, List.append_nil, List.nil_append]

end

theorem convert_nil (ha : p.args = []) : convert fmt d p = none := by
  have hnum (d : Directive) (q : Printer) (hq : q.args = p.args) : printNumber d q = none := by
    rw [printNumber, vaArg_nil (hq.trans ha)]
    rfl
  have hchar : printChar d p = none := by
    rw [printChar, vaArg_nil ha]
    rfl
  have hstring : printString d p = none := by
    rw [printString, vaArg_nil ha]
    rfl
  have hcount : printCount p = none := by
    rw [printCount, vaArg_nil ha]
    rfl
  have hpointer : printPointer d p = none := by
    rw [printPointer, vaArg_nil ha]
    rfl
  have hdefault (c : UInt8) : printNumber d (if c ≠ 0 then (if c ≠ ch '%' then p.emit [ch '%'] else p).emit [c]
      else if c ≠ ch '%' then p.emit [ch '%'] else p) = none := by
    apply hnum
    split_ifs <;> rfl
  unfold convert
  simp only [hchar, hstring, hcount, hpointer, hnum, hdefault, ite_self, Option.map_none]

/-! ### The scan -/

theorem scanWidth_eq (fmt : List UInt8) (flags : Flags) (p : Printer) :
    scanWidth fmt flags p = (scanWidth fmt flags { args := p.args }).map fun r =>
      (r.1, r.2.1, r.2.2.1, { p with args := r.2.2.2.args }) := by
  unfold scanWidth
  split
  · rfl
  · split
    · obtain ⟨out, base, args, counts⟩ := p
      cases args with
      | nil => rfl
      | cons a as =>
        rw [vaArg_cons rfl, vaArg_cons rfl]
        simp only [Option.bind_eq_bind, Option.bind_some]
        split <;> rfl
    · rfl

theorem scanPrecision_eq (fmt : List UInt8) (p : Printer) :
    scanPrecision fmt p = (scanPrecision fmt { args := p.args }).map fun r =>
      (r.1, r.2.1, { p with args := r.2.2.args }) := by
  unfold scanPrecision
  split
  · dsimp only
    split
    · rfl
    · split
      · obtain ⟨out, base, args, counts⟩ := p
        cases args with
        | nil => rfl
        | cons a as => rfl
      · rfl
  · rfl

theorem scanDirective_eq (fmt : List UInt8) (p : Printer) :
    scanDirective fmt p = (scanDirective fmt { args := p.args }).map fun r =>
      (r.1, r.2.1, { p with args := r.2.2.args }) := by
  unfold scanDirective
  dsimp only
  rw [scanWidth_eq _ _ p]
  cases scanWidth (scanFlags fmt {}).1 (scanFlags fmt {}).2 { args := p.args } with
  | none => rfl
  | some r =>
    obtain ⟨fmt', w, flags, q⟩ := r
    simp only [Option.bind_eq_bind, Option.bind_some, Option.map_some]
    rw [scanPrecision_eq _ { p with args := q.args }, scanPrecision_eq _ q]
    cases scanPrecision fmt' { args := q.args } <;> rfl

theorem directive_eq (fmt : List UInt8) (p : Printer) :
    directive fmt p = (scanDirective fmt { args := p.args }).bind fun r =>
      match r.2.2.args with
      | [] => none
      | a :: as => (convertText (peek r.1) r.2.1 p.base a).map fun text =>
          (r.1.tail, { out := p.out ++ text, base := convertBase (peek r.1) p.base, args := as,
                       counts := convertCounts (peek r.1) p a }) := by
  rw [directive, scanDirective_eq]
  cases scanDirective fmt { args := p.args } with
  | none => rfl
  | some r =>
    obtain ⟨fmt', d, q⟩ := r
    simp only [Option.bind_eq_bind, Option.map_some, Option.bind_some]
    cases hq : q.args with
    | nil => exact convert_nil rfl
    | cons a as => exact convert_cons rfl

theorem myprintfLoop_char {c : UInt8} (hc : c ≠ ch '%') (fmt : List UInt8) (p : Printer) :
    myprintfLoop (c :: fmt) p = myprintfLoop fmt (p.emit [c]) := by
  rw [myprintfLoop, if_pos hc]

theorem myprintfLoop_append {l : List UInt8} (h : ch '%' ∉ l) (fmt : List UInt8) (p : Printer) :
    myprintfLoop (l ++ fmt) p = myprintfLoop fmt (p.emit l) := by
  induction l generalizing p with
  | nil => rw [List.nil_append, Printer.emit, List.append_nil]
  | cons c l ih =>
    have hc : c ≠ ch '%' := fun hc => h (hc ▸ List.mem_cons_self)
    rw [List.cons_append, myprintfLoop_char hc, ih (fun hm => h (List.mem_cons_of_mem c hm))]
    simp only [Printer.emit, List.append_assoc, List.singleton_append]

theorem myprintfLoop_directive (fmt : List UInt8) (p : Printer) :
    myprintfLoop (ch '%' :: fmt) p = (directive fmt p).bind fun r => myprintfLoop r.1 r.2 := by
  rw [myprintfLoop, if_neg (not_not_intro rfl)]
  split
  · next h => rw [h, Option.bind_none]
  · next h => rw [h, Option.bind_some]

/-! ### Directives without flags, width and precision -/

def bareDirective : Directive := { flags := {}, fieldWidth := -1, precision := -1, qualifier := .none }

theorem stringText_bare {a : Arg} (h : (stringBytes a).length < 2 ^ 31) : stringText bareDirective a = stringBytes a := by
  have hlen : i32 (stringBytes a).length = (stringBytes a).length := by
    unfold i32
    rw [Int.bmod_def]
    split <;> omega
  have hpad : ∀ w : Int, w ≤ 0 → (whilePostDec (ch ' ') (stringBytes a).length w).1 = [] := by
    intro w hw
    rw [whilePostDec, Int.toNat_of_nonpos (by omega), List.replicate_zero]
  have hwidth : (whilePostDec (ch ' ') (stringBytes a).length (-1)).2 = -2 := by
    rw [whilePostDec, Int.min_eq_right (by omega)]
    rfl
  have hprecision : ¬ (0 ≤ bareDirective.precision ∧ bareDirective.precision < (stringBytes a).length) :=
    fun h => absurd h.1 (by decide)
  have hleft : (!bareDirective.flags.left) = true := rfl
  have hfield : bareDirective.fieldWidth = -1 := rfl
  rw [stringText]
  simp only [hlen, if_neg hprecision, if_pos hleft, hfield]
  rw [hpad _ (by decide), hwidth, hpad _ (by decide), Int.toNat_natCast, List.take_length, List.nil_append,
    List.append_nil]

theorem myprintfLoop_string {a : Arg} {as : List Arg} (ha : p.args = a :: as) (h : (stringBytes a).length < 2 ^ 31)
    (fmt : List UInt8) :
    myprintfLoop (ch '%' :: ch 's' :: fmt) p = myprintfLoop fmt { p with args := as, out := p.out ++ stringBytes a } := by
  have hscan : scanDirective (ch 's' :: fmt) { args := p.args } = some (ch 's' :: fmt, bareDirective, { args := p.args }) := rfl
  have htext : convertText (ch 's') bareDirective p.base a = some (stringText bareDirective a) := rfl
  rw [myprintfLoop_directive, directive_eq, hscan, Option.bind_some]
  simp only [ha]
  change ((convertText (ch 's') bareDirective p.base a).map _).bind _ = _
  rw [htext, Option.map_some, Option.bind_some, stringText_bare h]
  rfl

theorem myprintfLoop_decimal {a : Arg} {as : List Arg} (ha : p.args = a :: as) {text : List UInt8}
    (htext : integerText { bareDirective with flags.sign := true } 10 a = some text) (fmt : List UInt8) :
    myprintfLoop (ch '%' :: ch 'd' :: fmt) p =
      myprintfLoop fmt { p with args := as, base := 10, out := p.out ++ text } := by
  have hscan : scanDirective (ch 'd' :: fmt) { args := p.args } = some (ch 'd' :: fmt, bareDirective, { args := p.args }) := rfl
  have hconv : convertText (ch 'd') bareDirective p.base a = some text := htext
  rw [myprintfLoop_directive, directive_eq, hscan, Option.bind_some]
  simp only [ha]
  change ((convertText (ch 'd') bareDirective p.base a).map _).bind _ = _
  rw [hconv, Option.map_some, Option.bind_some]
  rfl

end QuestOS
