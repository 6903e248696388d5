import QuestOS.Print.Convert
import QuestOS.Print.Number

/-!
# The directive language

The formats that the comment above `myprintf` describes, as a list of items, and what such a format asks for: each
item its own text, from its own arguments.  The loop follows the items if and only if there is no `%%` and no `*`
among them (`follows_iff`): a `%%` takes an argument, and a `*` is read but not skipped.
-/

namespace QuestOS

/-! ### Formats -/

inductive Flag where
  | minus | plus | space | sharp | zero

def Flag.char : Flag → UInt8
  | minus => ch '-'
  | plus => ch '+'
  | space => ch ' '
  | sharp => ch '#'
  | zero => ch '0'

def Flag.set (flags : Flags) : Flag → Flags
  | minus => { flags with left := true }
  | plus => { flags with plus := true }
  | space => { flags with space := true }
  | sharp => { flags with special := true }
  | zero => { flags with zeropad := true }

def digitChar (d : Fin 10) : UInt8 := ch '0' + UInt8.ofNat d

/-- A field width; the digits start with `first + 1`, since a leading zero is a flag. -/
inductive Width where
  | none | digits (first : Fin 9) (rest : List (Fin 10)) | star

def Width.render : Width → List UInt8
  | none => []
  | digits first rest => (first.succ :: rest).map digitChar
  | star => [ch '*']

inductive Precision where
  | none | digits (ds : List (Fin 10)) | star

def Precision.render : Precision → List UInt8
  | none => []
  | digits ds => ch '.' :: ds.map digitChar
  | star => [ch '.', ch '*']

inductive Length where
  | none | h | l | ll

def Length.render : Length → List UInt8
  | none => []
  | h => [ch 'h']
  | l => [ch 'l']
  | ll => [ch 'l', ch 'l']

def Length.qualifier : Length → Qualifier
  | none => .none
  | h => .h
  | l => .l
  | ll => .L

inductive Conversion where
  | c | s | d | i | u | o | x | X | p

def Conversion.char : Conversion → UInt8
  | c => ch 'c'
  | s => ch 's'
  | d => ch 'd'
  | i => ch 'i'
  | u => ch 'u'
  | o => ch 'o'
  | x => ch 'x'
  | X => ch 'X'
  | p => ch 'p'

structure Spec where
  flags : List Flag
  width : Width
  precision : Precision
  length : Length
  conversion : Conversion

inductive Item where
  | lit (c : UInt8) (nul_free : c ≠ 0) (plain : c ≠ ch '%')
  | percent
  | conv (s : Spec)

def Spec.render (s : Spec) : List UInt8 :=
  s.flags.map Flag.char ++ (s.width.render ++ (s.precision.render ++ (s.length.render ++ [s.conversion.char])))

def Item.render : Item → List UInt8
  | lit c _ _ => [c]
  | percent => [ch '%', ch '%']
  | conv s => ch '%' :: s.render

def render (items : List Item) : List UInt8 := items.flatMap Item.render

/-! ### What a format asks for -/

def Spec.arity (s : Spec) : Nat :=
  (match s.width with | .star => 1 | _ => 0) + (match s.precision with | .star => 1 | _ => 0) + 1

def Item.arity : Item → Nat
  | conv s => s.arity
  | _ => 0

def arity (items : List Item) : Nat := (items.map Item.arity).sum

def decimalFrom : Nat → List (Fin 10) → Nat
  | n, [] => n
  | n, d :: ds => decimalFrom (n * 10 + d) ds

def decimal (ds : List (Fin 10)) : Int := i32 (decimalFrom 0 ds)

def Width.read (flags : Flags) : Width → List Arg → Option (Int × Flags × List Arg)
  | none, args => some (-1, flags, args)
  | digits first rest, args => some (decimal (first.succ :: rest), flags, args)
  | star, [] => .none
  | star, a :: as => some (if a.int < 0 then (i32 (-a.int), { flags with left := true }, as) else (a.int, flags, as))

def Precision.read : Precision → List Arg → Option (Int × List Arg)
  | none, args => some (-1, args)
  | digits ds, args => some (max (decimal ds) 0, args)
  | star, [] => .none
  | star, a :: as => some (max a.int (-1), as)

def Spec.text (s : Spec) (args : List Arg) : Option (List UInt8) := do
  let (fieldWidth, flags, args) ← s.width.read (s.flags.foldl Flag.set {}) args
  let (precision, args) ← s.precision.read args
  let a ← args.head?
  convertText s.conversion.char { flags, fieldWidth, precision, qualifier := s.length.qualifier } 0 a

def Item.text : Item → List Arg → Option (List UInt8)
  | lit c _ _, _ => some [c]
  | percent, _ => some [ch '%']
  | conv s, args => s.text args

def textOf : List Item → List Arg → Option (List UInt8)
  | [], _ => some []
  | item :: items, args => do
    let text ← item.text args
    let rest ← textOf items (args.drop item.arity)
    some (text ++ rest)

/-! ### What the loop does -/

def myprintfRound : List UInt8 × Printer → Option (List UInt8 × Printer)
  | ([], _) => none
  | (c :: fmt, p) => if c ≠ ch '%' then some (fmt, p.emit [c]) else directive fmt p

def myprintfRounds : Nat → List UInt8 × Printer → Option (List UInt8 × Printer)
  | 0, s => some s
  | n + 1, s => (myprintfRound s).bind (myprintfRounds n)

/-- The loop follows the items: after `k` rounds the first `k` items are read, their texts written, and their
arguments taken. -/
def Follows (items : List Item) (p : Printer) : Prop :=
  ∀ k ≤ items.length, ∃ q text, myprintfRounds k (render items, p) = some (render (items.drop k), q) ∧
    textOf (items.take k) p.args = some text ∧ q.out = p.out ++ text ∧ q.args = p.args.drop (arity (items.take k))

def Item.Plain : Item → Prop
  | lit _ _ _ => True
  | percent => False
  | conv s => s.width ≠ .star ∧ s.precision ≠ .star

variable {fmt fmt' : List UInt8} {p q : Printer} {item : Item} {items : List Item}

/-! ### Reading one directive -/

theorem scanFlags_render (flags : List Flag) (f : Flags) (h : ∀ f, setFlag f (peek fmt) = none) :
    scanFlags (flags.map Flag.char ++ fmt) f = (fmt, flags.foldl Flag.set f) := by
  induction flags generalizing f with
  | nil =>
    cases fmt with
    | nil => rfl
    | cons c fmt =>
      have hc : setFlag f c = none := h f
      rw [List.map_nil, List.nil_append, scanFlags, hc]
      rfl
  | cons x flags ih =>
    have hx : setFlag f x.char = some (Flag.set f x) := by cases x <;> rfl
    rw [List.map_cons, List.cons_append, scanFlags, hx]
    exact ih (Flag.set f x)

theorem isDigit_digitChar (d : Fin 10) : isDigit (digitChar d) := by
  revert d
  decide

theorem scanNumber_render (ds : List (Fin 10)) (n : Nat) (h : ¬ isDigit (peek fmt)) :
    scanNumber (ds.map digitChar ++ fmt) (i32 n) = (fmt, i32 (decimalFrom n ds)) := by
  induction ds generalizing n with
  | nil =>
    cases fmt with
    | nil => rfl
    | cons c fmt =>
      have hc : ¬ isDigit c := h
      rw [List.map_nil, List.nil_append, scanNumber, if_neg hc]
      rfl
  | cons d ds ih =>
    have hval : (digitChar d - ch '0').toNat = (d : Nat) := by revert d; decide
    have hstep : i32 (i32 (i32 n * 10) + (d : Nat)) = i32 ((n * 10 + d : Nat) : Int) := by
      unfold i32
      rw [Int.bmod_add_bmod, Int.add_bmod, Int.bmod_mul_bmod, ← Int.add_bmod]
      rfl
    rw [List.map_cons, List.cons_append, scanNumber, if_pos (isDigit_digitChar d), hval, hstep, ih]
    rfl

theorem scanNumber_digits (ds : List (Fin 10)) (h : ¬ isDigit (peek fmt)) :
    scanNumber (ds.map digitChar ++ fmt) 0 = (fmt, decimal ds) :=
  scanNumber_render ds 0 h

theorem scanWidth_render {w : Width} (hw : w ≠ .star) (hdigit : ¬ isDigit (peek fmt)) (hstar : peek fmt ≠ ch '*') :
    ∃ n, ∀ flags, (∀ args, w.read flags args = some (n, flags, args)) ∧
      ∀ p, scanWidth (w.render ++ fmt) flags p = some (fmt, n, flags, p) := by
  cases w with
  | none =>
    refine ⟨-1, fun flags => ⟨fun args => rfl, fun p => ?_⟩⟩
    rw [Width.render, List.nil_append, scanWidth, if_neg hdigit, if_neg hstar]
  | digits first rest =>
    have hpeek : isDigit (peek ((Width.digits first rest).render ++ fmt)) := isDigit_digitChar first.succ
    refine ⟨decimal (first.succ :: rest), fun flags => ⟨fun args => rfl, fun p => ?_⟩⟩
    rw [scanWidth, if_pos hpeek, Width.render, scanNumber_digits _ hdigit]
  | star => exact absurd rfl hw

theorem scanPrecision_render {n : Precision} (hn : n ≠ .star) (hdigit : ¬ isDigit (peek fmt)) (hstar : peek fmt ≠ ch '*')
    (hdot : peek fmt ≠ ch '.') :
    ∃ k, (∀ args, n.read args = some (k, args)) ∧ ∀ p, scanPrecision (n.render ++ fmt) p = some (fmt, k, p) := by
  cases n with
  | none =>
    refine ⟨-1, fun args => rfl, fun p => ?_⟩
    rw [Precision.render, List.nil_append, scanPrecision, if_neg hdot]
  | digits ds =>
    refine ⟨max (decimal ds) 0, fun args => rfl, fun p => ?_⟩
    have hpeek : peek ((Precision.digits ds).render ++ fmt) = ch '.' := rfl
    have htail : ((Precision.digits ds).render ++ fmt).tail = ds.map digitChar ++ fmt := rfl
    rw [scanPrecision, if_pos hpeek, htail]
    dsimp only
    cases ds with
    | nil =>
      rw [List.map_nil, List.nil_append, if_neg hdigit, if_neg hstar]
      rfl
    | cons d ds =>
      have hd : isDigit (peek ((d :: ds).map digitChar ++ fmt)) := isDigit_digitChar d
      rw [if_pos hd, scanNumber_digits _ hdigit]
  | star => exact absurd rfl hn

theorem scanQualifier_render (len : Length) (k : Conversion) :
    scanQualifier (len.render ++ (k.char :: fmt)) = (k.char :: fmt, len.qualifier) := by
  cases len <;> cases k <;> rfl

def lengthChars : List UInt8 := [ch 'h', ch 'l', ch 'c', ch 's', ch 'd', ch 'i', ch 'u', ch 'o', ch 'x', ch 'X', ch 'p']

def flagChars : List UInt8 := [ch '-', ch '+', ch ' ', ch '#', ch '0']

theorem peek_length (fmt : List UInt8) (len : Length) (k : Conversion) : peek (len.render ++ (k.char :: fmt)) ∈ lengthChars := by
  have hk : k.char ∈ lengthChars := by cases k <;> decide
  cases len with
  | none => exact hk
  | h => exact List.mem_cons_self
  | l | ll => exact List.mem_cons_of_mem _ List.mem_cons_self

theorem peek_precision (fmt : List UInt8) (n : Precision) (len : Length) (k : Conversion) :
    peek (n.render ++ (len.render ++ (k.char :: fmt))) ∈ ch '.' :: lengthChars := by
  cases n with
  | none => exact List.mem_cons_of_mem _ (peek_length fmt len k)
  | digits ds => exact List.mem_cons_self
  | star => exact List.mem_cons_self

theorem peek_width (w : Width) (n : Precision) (len : Length) (k : Conversion) :
    peek (w.render ++ (n.render ++ (len.render ++ (k.char :: fmt)))) ∉ flagChars := by
  cases w with
  | none =>
    have hchars : ∀ c ∈ ch '.' :: lengthChars, c ∉ flagChars := by decide +kernel
    exact hchars _ (peek_precision fmt n len k)
  | digits first rest =>
    have hfirst : ∀ d : Fin 9, digitChar d.succ ∉ flagChars := by decide
    exact hfirst first
  | star =>
    change ch '*' ∉ flagChars
    decide

theorem setFlag_eq_none {c : UInt8} (h : c ∉ flagChars) (f : Flags) : setFlag f c = none := by
  simp only [flagChars, List.mem_cons, List.not_mem_nil, or_false, not_or] at h
  rw [setFlag, if_neg h.1, if_neg h.2.1, if_neg h.2.2.1, if_neg h.2.2.2.1, if_neg h.2.2.2.2]

theorem scanDirective_flags (s : Spec) (fmt : List UInt8) (p : Printer) :
    scanDirective (s.render ++ fmt) p =
      (scanWidth (s.width.render ++ (s.precision.render ++ (s.length.render ++ (s.conversion.char :: fmt))))
        (s.flags.foldl Flag.set {}) p).bind fun r =>
          (scanPrecision r.1 r.2.2.2).map fun r' =>
            ((scanQualifier r'.1).1,
             { flags := r.2.2.1, fieldWidth := r.2.1, precision := r'.2.1, qualifier := (scanQualifier r'.1).2 }, r'.2.2) := by
  have hrender : s.render ++ fmt = s.flags.map Flag.char ++
      (s.width.render ++ (s.precision.render ++ (s.length.render ++ (s.conversion.char :: fmt)))) := by
    simp only [Spec.render, List.append_assoc, List.singleton_append]
  rw [hrender, scanDirective, scanFlags_render _ _ (setFlag_eq_none (peek_width _ _ _ _))]
  dsimp only
  cases scanWidth _ _ p with
  | none => rfl
  | some r =>
    obtain ⟨f1, w, flags, q⟩ := r
    simp only [Option.bind_eq_bind, Option.bind_some]
    cases scanPrecision f1 q <;> rfl

/-- Without a `*` the scan stops at the conversion character, with the directive that the text of `s` is about. -/
theorem scanDirective_plain {s : Spec} (hw : s.width ≠ .star) (hn : s.precision ≠ .star) (fmt : List UInt8) :
    ∃ d, (∀ p, scanDirective (s.render ++ fmt) p = some (s.conversion.char :: fmt, d, p)) ∧
      ∀ args, s.text args = args.head?.bind (convertText s.conversion.char d 0) := by
  have hafter : ∀ c ∈ ch '.' :: lengthChars, ¬ isDigit c ∧ c ≠ ch '*' := by decide +kernel
  have hbehind : ∀ c ∈ lengthChars, ¬ isDigit c ∧ c ≠ ch '*' ∧ c ≠ ch '.' := by decide +kernel
  obtain ⟨hd1, hs1⟩ := hafter _ (peek_precision fmt s.precision s.length s.conversion)
  obtain ⟨hd2, hs2, hdot⟩ := hbehind _ (peek_length fmt s.length s.conversion)
  obtain ⟨w, hwidth⟩ := scanWidth_render hw hd1 hs1
  obtain ⟨n, hread, hscan⟩ := scanPrecision_render hn hd2 hs2 hdot
  refine ⟨{ flags := s.flags.foldl Flag.set {}, fieldWidth := w, precision := n, qualifier := s.length.qualifier },
    fun p => ?_, fun args => ?_⟩
  · rw [scanDirective_flags, (hwidth _).2, Option.bind_some, hscan, Option.map_some, scanQualifier_render]
  · rw [Spec.text, (hwidth _).1, Option.bind_eq_bind, Option.bind_some]
    dsimp only
    rw [hread]
    rfl

theorem scanQualifier_star (fmt : List UInt8) : scanQualifier (ch '*' :: fmt) = (ch '*' :: fmt, .none) := rfl

theorem scanPrecision_star {n : Int} (h : scanPrecision (ch '.' :: ch '*' :: fmt) p = some (fmt', n, q)) :
    fmt' = ch '*' :: fmt := by
  obtain ⟨⟨a, r⟩, -, h⟩ := Option.bind_eq_some_iff.1 h
  cases h
  rfl

theorem scanWidth_star {flags flags' : Flags} {w : Int} (h : scanWidth (ch '*' :: fmt) flags p = some (fmt', w, flags', q)) :
    fmt' = ch '*' :: fmt := by
  obtain ⟨⟨a, r⟩, -, h⟩ := Option.bind_eq_some_iff.1 h
  dsimp only at h
  split at h <;> cases h <;> rfl

theorem scanDirective_star {s : Spec} (hs : ¬ (s.width ≠ .star ∧ s.precision ≠ .star)) {d : Directive}
    (h : scanDirective (s.render ++ fmt) p = some (fmt', d, q)) : fmt.length < fmt'.tail.length := by
  rw [scanDirective_flags] at h
  obtain ⟨⟨f1, w, flags, r⟩, h1, h⟩ := Option.bind_eq_some_iff.1 h
  obtain ⟨⟨f2, n, r'⟩, h2, h⟩ := Option.map_eq_some_iff.1 h
  obtain ⟨rfl, -⟩ := Prod.mk.inj h
  by_cases hw : s.width = .star
  · rw [hw, Width.render, List.singleton_append] at h1
    obtain rfl := scanWidth_star h1
    obtain ⟨rfl, -⟩ := Prod.mk.inj (Option.some.inj h2)
    rw [scanQualifier_star]
    simp only [List.tail_cons, List.length_append, List.length_cons]
    omega
  · have hn : s.precision = .star := by
      by_contra hn
      exact hs ⟨hw, hn⟩
    have hafter : ∀ c ∈ ch '.' :: lengthChars, ¬ isDigit c ∧ c ≠ ch '*' := by decide +kernel
    obtain ⟨hd1, hs1⟩ := hafter _ (peek_precision fmt s.precision s.length s.conversion)
    obtain ⟨w', hwidth⟩ := scanWidth_render hw hd1 hs1
    rw [(hwidth _).2] at h1
    obtain ⟨rfl, -⟩ := Prod.mk.inj (Option.some.inj h1)
    rw [hn, Precision.render, List.cons_append, List.singleton_append] at h2
    obtain rfl := scanPrecision_star h2
    rw [scanQualifier_star]
    simp only [List.tail_cons, List.length_append, List.length_cons]
    omega

/-! ### One round -/

/-- The texts of the conversions of the language do not depend on the `base` left by the last number. -/
theorem convertText_base (k : Conversion) (d : Directive) (base : Int) (a : Arg) :
    convertText k.char d base a = convertText k.char d 0 a := by
  cases k <;> rfl

theorem convertText_isSome (k : Conversion) (d : Directive) (base : Int) (a : Arg) :
    (convertText k.char d base a).isSome := by
  cases k with
  | c | s => rfl
  | d | i | u => exact number_isSome _ (.inr (.inl rfl)) _ _ _
  | o => exact number_isSome _ (.inl rfl) _ _ _
  | x | X => exact number_isSome _ (.inr (.inr rfl)) _ _ _
  | p =>
    change (pointerText d a).isSome
    unfold pointerText
    split <;> exact number_isSome _ (.inr (.inr rfl)) _ _ _

def Round (item : Item) (fmt : List UInt8) (p q : Printer) : Prop :=
  myprintfRound (item.render ++ fmt, p) = some (fmt, q) ∧
    ∃ text, item.text p.args = some text ∧ q.out = p.out ++ text ∧ q.args = p.args.drop item.arity

theorem myprintfRound_percent (fmt : List UInt8) (p : Printer) : myprintfRound (ch '%' :: fmt, p) = directive fmt p := by
  rw [myprintfRound, if_neg (not_not_intro rfl)]

theorem Spec.arity_plain {s : Spec} (hw : s.width ≠ .star) (hn : s.precision ≠ .star) : s.arity = 1 := by
  unfold Spec.arity
  split
  · contradiction
  · split
    · contradiction
    · rfl

theorem round_plain (h : item.Plain) (hargs : item.arity ≤ p.args.length) (fmt : List UInt8) : ∃ q, Round item fmt p q := by
  cases item with
  | lit c hnul hc => exact ⟨p.emit [c], if_pos hc, [c], rfl, rfl, rfl⟩
  | percent => exact h.elim
  | conv s =>
    obtain ⟨d, hscan, htext⟩ := scanDirective_plain h.1 h.2 fmt
    have harity : (Item.conv s).arity = 1 := Spec.arity_plain h.1 h.2
    rw [harity] at hargs
    obtain ⟨a, as, ha⟩ := List.exists_cons_of_length_pos hargs
    obtain ⟨text, hconv⟩ := Option.isSome_iff_exists.1 (convertText_isSome s.conversion d p.base a)
    have hround : myprintfRound ((Item.conv s).render ++ fmt, p) = directive (s.render ++ fmt) p :=
      myprintfRound_percent _ p
    rw [directive_eq, hscan, Option.bind_some] at hround
    simp only [ha] at hround
    have hpeek : peek (s.conversion.char :: fmt) = s.conversion.char := rfl
    rw [hpeek, hconv, Option.map_some] at hround
    refine ⟨_, hround, text, ?_, rfl, ?_⟩
    · rw [Item.text, htext, ha, ← hconv, convertText_base]
      rfl
    · rw [harity, ha]
      rfl

/-- A `%%` takes an argument that does not belong to it, or ends the call; behind a `*` the rest of the directive is
left over. -/
theorem round_not_plain (h : ¬ item.Plain) : ¬ Round item fmt p q := by
  rintro ⟨hround, text, -, -, hargs⟩
  cases item with
  | lit c hnul hc => exact h trivial
  | percent =>
    have hscan : scanDirective (ch '%' :: fmt) { args := p.args } = some (ch '%' :: fmt,
        { flags := {}, fieldWidth := -1, precision := -1, qualifier := .none }, { args := p.args }) := rfl
    change directive (ch '%' :: fmt) p = _ at hround
    rw [directive_eq, hscan, Option.bind_some] at hround
    cases ha : p.args with
    | nil =>
      simp only [ha] at hround
      cases hround
    | cons a as =>
      simp only [ha] at hround
      obtain ⟨text, -, hround⟩ := Option.map_eq_some_iff.1 hround
      obtain ⟨-, rfl⟩ := Prod.mk.inj hround
      rw [ha] at hargs
      exact absurd (congrArg List.length hargs) (Nat.ne_of_lt (Nat.lt_succ_self _))
  | conv s =>
    change directive (s.render ++ fmt) p = _ at hround
    obtain ⟨⟨f, d, r⟩, hscan, hround⟩ := Option.bind_eq_some_iff.1 hround
    obtain ⟨r', -, hround⟩ := Option.map_eq_some_iff.1 hround
    obtain ⟨rfl, -⟩ := Prod.mk.inj hround
    exact Nat.lt_irrefl _ (scanDirective_star h hscan)

/-! ### The whole format -/

theorem render_cons (item : Item) (items : List Item) : render (item :: items) = item.render ++ render items :=
  List.flatMap_cons

theorem arity_cons (item : Item) (items : List Item) : arity (item :: items) = item.arity + arity items := List.sum_cons

theorem follows_nil (p : Printer) : Follows [] p := by
  intro k hk
  obtain rfl : k = 0 := Nat.le_zero.1 hk
  exact ⟨p, [], rfl, rfl, (List.append_nil _).symm, rfl⟩

/-- The loop follows a format if its first round does what the first item asks for and the others follow. -/
theorem follows_cons : Follows (item :: items) p ↔ ∃ q, Round item (render items) p q ∧ Follows items q := by
  constructor
  · intro h
    obtain ⟨q, text, hrounds, htext, hout, hargs⟩ := h 1 (Nat.le_add_left 1 _)
    have hround : myprintfRound (item.render ++ render items, p) = some (render items, q) := by
      obtain ⟨s, hs, hs'⟩ := Option.bind_eq_some_iff.1 hrounds
      cases hs'
      rw [← render_cons]
      exact hs
    have htext : item.text p.args = some text := by
      obtain ⟨t, ht, htext⟩ := Option.bind_eq_some_iff.1 htext
      cases htext
      rw [List.append_nil]
      exact ht
    have hargs : q.args = p.args.drop item.arity := hargs
    refine ⟨q, ⟨hround, text, htext, hout, hargs⟩, fun k hk => ?_⟩
    obtain ⟨r, all, hrounds, hall, hout', hargs'⟩ := h (k + 1) (Nat.succ_le_succ hk)
    rw [myprintfRounds, render_cons, hround] at hrounds
    rw [List.take_succ_cons, textOf, htext, ← hargs, Option.bind_eq_bind, Option.bind_some] at hall
    obtain ⟨rest, hrest, hall⟩ := Option.bind_eq_some_iff.1 hall
    cases hall
    refine ⟨r, rest, hrounds, hrest, ?_, ?_⟩
    · rw [hout', hout, List.append_assoc]
    · rw [hargs', hargs, List.take_succ_cons, arity_cons, List.drop_drop]
  · rintro ⟨q, ⟨hround, text, htext, hout, hargs⟩, h⟩ k hk
    cases k with
    | zero => exact ⟨p, [], rfl, rfl, (List.append_nil _).symm, rfl⟩
    | succ k =>
      obtain ⟨r, rest, hrounds, hrest, hout', hargs'⟩ := h k (Nat.le_of_succ_le_succ hk)
      refine ⟨r, text ++ rest, ?_, ?_, ?_, ?_⟩
      · rw [myprintfRounds, render_cons, hround]
        exact hrounds
      · rw [List.take_succ_cons, textOf, htext, ← hargs, hrest]
        rfl
      · rw [hout', hout, List.append_assoc]
      · rw [hargs', hargs, List.take_succ_cons, arity_cons, List.drop_drop]

theorem follows_iff_plain (hargs : p.args.length = arity items) : Follows items p ↔ ∀ item ∈ items, item.Plain := by
  induction items generalizing p with
  | nil => exact ⟨fun _ _ h => absurd h List.not_mem_nil, fun _ => follows_nil p⟩
  | cons item items ih =>
    rw [arity_cons] at hargs
    rw [follows_cons, List.forall_mem_cons]
    constructor
    · rintro ⟨q, hround, h⟩
      have hplain : item.Plain := by
        by_contra hplain
        exact round_not_plain hplain hround
      obtain ⟨-, text, -, -, hq⟩ := hround
      refine ⟨hplain, (ih ?_).1 h⟩
      rw [hq, List.length_drop]
      omega
    · rintro ⟨hplain, h⟩
      obtain ⟨q, hround⟩ := round_plain (p := p) hplain (by omega) (render items)
      obtain ⟨-, text, -, -, hq⟩ := id hround
      refine ⟨q, hround, (ih ?_).2 h⟩
      rw [hq, List.length_drop]
      omega

theorem myprintfLoop_rounds {k : Nat} (h : myprintfRounds k (fmt, p) = some (fmt', q)) :
    myprintfLoop fmt p = myprintfLoop fmt' q := by
  induction k generalizing fmt p with
  | zero =>
    cases h
    rfl
  | succ k ih =>
    obtain ⟨⟨f, r⟩, hround, hrest⟩ := Option.bind_eq_some_iff.1 h
    cases fmt with
    | nil => cases hround
    | cons c fmt =>
      by_cases hc : c = ch '%'
      · subst hc
        rw [myprintfRound_percent] at hround
        rw [myprintfLoop_directive, hround, Option.bind_some, ih hrest]
      · rw [myprintfRound, if_pos hc] at hround
        cases hround
        rw [myprintfLoop_char hc, ih hrest]

theorem nul_not_mem_digits (ds : List (Fin 10)) : 0 ∉ ds.map digitChar := by
  have hdigit : ∀ d, digitChar d ≠ 0 := by decide
  intro hmem
  obtain ⟨d, -, hd⟩ := List.mem_map.1 hmem
  exact hdigit d hd

theorem Spec.nul_not_mem_render (s : Spec) : 0 ∉ s.render := by
  have hflags : 0 ∉ s.flags.map Flag.char := by
    intro hmem
    obtain ⟨x, -, hx⟩ := List.mem_map.1 hmem
    revert hx
    cases x <;> decide
  have hwidth : 0 ∉ s.width.render := by
    cases s.width with
    | none | star => decide
    | digits first rest => exact nul_not_mem_digits _
  have hprecision : 0 ∉ s.precision.render := by
    cases s.precision with
    | none | star => decide
    | digits ds => exact List.not_mem_cons_of_ne_of_not_mem (by decide) (nul_not_mem_digits ds)
  have hlength : 0 ∉ s.length.render := by cases s.length <;> decide
  have hconversion : 0 ∉ [s.conversion.char] := by cases s.conversion <;> decide
  simp only [Spec.render, List.mem_append, not_or]
  exact ⟨hflags, hwidth, hprecision, hlength, hconversion⟩

theorem nul_not_mem_render (items : List Item) : 0 ∉ render items := by
  intro hmem
  obtain ⟨item, -, hmem⟩ := List.mem_flatMap.1 hmem
  cases item with
  | lit c hnul hc => exact hnul (List.mem_singleton.1 hmem).symm
  | percent =>
    revert hmem
    decide
  | conv s => exact List.not_mem_cons_of_ne_of_not_mem (by decide) s.nul_not_mem_render hmem

def format (items : List Item) : Text := ⟨render items, nul_not_mem_render items⟩

/-- `myprintf` reads the format item by item, and its text is that of the format, with no argument left over. -/
structure Printed (items : List Item) (args : List Arg) : Prop where
  follows : Follows items { args }
  result : ∃ p, myprintf (format items) args = some p ∧ textOf items args = some p.out ∧ p.args = []

/-- For every format of the language and every matching argument list: the text is right if and only if the format has
neither `%%` nor `*`. -/
theorem printed_iff (items : List Item) (args : List Arg) (hargs : args.length = arity items) :
    Printed items args ↔ ∀ item ∈ items, item.Plain := by
  constructor
  · intro h
    exact (follows_iff_plain hargs).1 h.follows
  · intro h
    have hfollows : Follows items { args } := (follows_iff_plain hargs).2 h
    refine ⟨hfollows, ?_⟩
    obtain ⟨p, text, hrounds, htext, hout, hleft⟩ := hfollows items.length (Nat.le_refl _)
    rw [List.take_length] at htext hleft
    rw [List.drop_length] at hrounds
    refine ⟨p, ?_, ?_, ?_⟩
    · rw [myprintf, format, myprintfLoop_rounds hrounds, render, List.flatMap_nil, myprintfLoop]
    · rw [htext, hout]
      rfl
    · rw [hleft]
      exact List.drop_eq_nil_of_le (Nat.le_of_eq hargs)

def plainFormat : List Item := [.lit (ch '=') (by decide) (by decide), .conv ⟨[], .none, .none, .none, .d⟩]

def starDirective : Spec := ⟨[], .star, .none, .none, .d⟩

def numArgOf (n : BitVec 64) : Arg := { word := n, text := ⟨[], nul_free_nil⟩ }

theorem printed_plainFormat : Printed plainFormat [numArgOf 7] := by
  refine (printed_iff plainFormat [numArgOf 7] rfl).2 ?_
  intro item hitem
  obtain rfl | rfl := List.mem_pair.1 hitem
  · trivial
  · exact ⟨Width.noConfusion, Precision.noConfusion⟩

/-- `%%` alone asks for an argument; `%*d` with a width and a number is not read as one directive. -/
theorem percent_star_not_printed : ¬ Printed [.percent] [] ∧ ¬ Printed [.conv starDirective] [numArgOf 5, numArgOf 7] := by
  constructor
  · intro h
    obtain ⟨q, hround, -⟩ := follows_cons.1 h.follows
    exact round_not_plain id hround
  · intro h
    obtain ⟨q, hround, -⟩ := follows_cons.1 h.follows
    exact round_not_plain (fun hplain : (Item.conv starDirective).Plain => hplain.1 rfl) hround

end QuestOS
