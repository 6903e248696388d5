import Mathlib.Data.Nat.Digits.Lemmas
import QuestOS.Print.Format

/-!
# The text of a number

What `number` writes is padding, a sign, a prefix and digits (`NumberText`).  A minus sign does not narrow the
field, so that a negative number that is padded gets one character too many; and the padding loops count down
from an `int` that may wrap.  `numberText_iff` says that nothing else goes wrong.
-/

namespace QuestOS

/-! ### The text that is asked for -/

def digitVal (c : UInt8) : Nat :=
  if c ≤ ch '9' then (c - ch '0').toNat else if c ≤ ch 'Z' then (c - ch 'A').toNat + 10 else (c - ch 'a').toNat + 10

def readDigits (base : Nat) (l : List UInt8) : Nat := Nat.ofDigits base (l.reverse.map digitVal)

def numberValue (type : Flags) (num : BitVec 64) : Int := if type.sign then num.toInt else num.toNat

def signText (type : Flags) (num : BitVec 64) : List UInt8 :=
  if !type.sign then []
  else if numberValue type num < 0 then [ch '-']
  else if type.plus then [ch '+']
  else if type.space then [ch ' ']
  else []

def prefixText (type : Flags) (base : Nat) : List UInt8 :=
  if !type.special then []
  else if base = 16 then [ch '0', if type.small then ch 'x' else ch 'X']
  else if base = 8 then [ch '0']
  else []

def numeralLength (base : Nat) (v : Int) : Nat := max 1 (Nat.digits base v.natAbs).length

structure NumberParts where
  before : List UInt8
  sign : List UInt8
  special : List UInt8
  zeros : List UInt8
  digits : List UInt8
  after : List UInt8

def NumberParts.text (q : NumberParts) : List UInt8 :=
  q.before ++ q.sign ++ q.special ++ q.zeros ++ q.digits ++ q.after

structure NumberParts.Ok (q : NumberParts) (num : BitVec 64) (base : Nat) (width precision : Int) (type : Flags) : Prop where
  before : ∀ c ∈ q.before, c = ch ' '
  sign : q.sign = signText type num
  special : q.special = prefixText type base
  zeros : ∀ c ∈ q.zeros, c = ch '0'
  digits : ∀ c ∈ q.digits, ∃ d < base, c = digitsAt type.small d
  after : ∀ c ∈ q.after, c = ch ' '
  value : (if q.sign = [ch '-'] then -(readDigits base q.digits : Int) else readDigits base q.digits) = numberValue type num
  count : (q.digits.length : Int) = max precision (numeralLength base (numberValue type num))
  length : (q.text.length : Int) = max width ((q.sign ++ q.special ++ q.digits).length : Int)
  left : type.left = true → q.before = [] ∧ q.zeros = []
  right : type.left = false → q.after = []

def NumberText (num : BitVec 64) (base : Nat) (width precision : Int) (type : Flags) (text : List UInt8) : Prop :=
  ∃ q : NumberParts, text = q.text ∧ q.Ok num base width precision type

/-! ### When it comes out -/

def numberRoom (num : BitVec 64) (base : Nat) (width precision : Int) (type : Flags) : Int :=
  width - (if numberValue type num < 0 then 0 else (signText type num).length) - (prefixText type base).length -
    max precision (numeralLength base (numberValue type num))

def paddingLoops (type : Flags) : Nat := if type.left then 1 else if type.zeropad then 2 else 3

/-- A negative number is not padded, and where there is no room the counter does not wrap. -/
structure NumberFits (num : BitVec 64) (base : Nat) (width precision : Int) (type : Flags) : Prop where
  negative : numberValue type num < 0 → numberRoom num base width precision type ≤ 0
  noWrap : numberRoom num base width precision type ≤ 0 →
    ∀ i < paddingLoops type, i32 (numberRoom num base width precision type - i) ≤ 0

variable {num : BitVec 64} {base : Nat} {width precision : Int} {type : Flags}

/-! ### Digits -/

theorem digitVal_digitsAt (small : Bool) {d : Nat} (hd : d < 16) : digitVal (digitsAt small d) = d := by
  have hall : ∀ small : Bool, ∀ d < 16, digitVal (digitsAt small d) = d := by decide
  exact hall small d hd

theorem readDigits_append_zeros (n : Nat) (l : List UInt8) :
    readDigits base (List.replicate n (ch '0') ++ l) = readDigits base l := by
  have hzero : digitVal (ch '0') = 0 := by decide
  rw [readDigits, readDigits, List.reverse_append, List.reverse_replicate, List.map_append, List.map_replicate, hzero,
    Nat.ofDigits_append_replicate_zero]

theorem readDigits_tmp (small : Bool) (h2 : 2 ≤ base) (h16 : base ≤ 16) (n : Nat) :
    readDigits base (numberTmp small base n).reverse = n := by
  rw [readDigits, List.reverse_reverse, numberTmp]
  split
  · next h0 =>
    rw [h0]
    rfl
  · have hmap : ((Nat.digits base n).map (digitsAt small)).map digitVal = Nat.digits base n := by
      rw [List.map_map]
      refine (List.map_congr_left fun d hd => ?_).trans (List.map_id _)
      exact digitVal_digitsAt small (Nat.lt_of_lt_of_le (Nat.digits_lt_base h2 hd) h16)
    rw [hmap, Nat.ofDigits_digits]

theorem length_numberTmp (small : Bool) (n : Nat) : (numberTmp small base n).length = numeralLength base n := by
  rw [numberTmp, numeralLength, Int.natAbs_natCast]
  split
  · next h0 =>
    rw [h0, Nat.digits_zero]
    rfl
  · next h0 =>
    have hpos : 0 < (Nat.digits base n).length := List.length_pos_of_ne_nil (Nat.digits_ne_nil_iff_ne_zero.mpr h0)
    rw [List.length_map, Nat.max_eq_right hpos]

theorem mem_numberTmp (small : Bool) (h2 : 2 ≤ base) {n : Nat} {c : UInt8} (hc : c ∈ numberTmp small base n) :
    ∃ d < base, c = digitsAt small d := by
  rw [numberTmp] at hc
  split at hc
  · exact ⟨0, by omega, List.mem_singleton.mp hc⟩
  · obtain ⟨d, hd, rfl⟩ := List.mem_map.mp hc
    exact ⟨d, Nat.digits_lt_base h2 hd, rfl⟩

/-! ### Sign and prefix -/

theorem numberSign_eq (type : Flags) (num : BitVec 64) {size : Int} (h1 : -2 ^ 31 ≤ size) (h2 : size < 2 ^ 31) :
    ∃ mag : BitVec 64, mag.toNat = (numberValue type num).natAbs ∧
      numberSign type num size = (signText type num, mag,
        i32 (size - (if numberValue type num < 0 then 0 else (signText type num).length))) := by
  have hself : i32 size = size := i32_eq h1 h2
  have hcond := BitVec.toInt_eq_toNat_cond num
  have hlt := num.isLt
  unfold numberSign signText numberValue
  cases hs : type.sign with
  | false => exact ⟨num, by simp, by simp [hself, Int.not_lt.mpr (Int.natCast_nonneg num.toNat)]⟩
  | true =>
    by_cases hneg : num.toInt < 0
    · refine ⟨-num, ?_, by simp [hneg, hself]⟩
      rw [BitVec.toNat_neg, if_pos rfl]
      split at hcond <;> omega
    · refine ⟨num, ?_, ?_⟩
      · rw [if_pos rfl]
        split at hcond <;> omega
      · cases hp : type.plus with
        | true => simp [hneg]
        | false => cases hsp : type.space <;> simp [hneg, hself]

theorem numberSpecial_eq (type : Flags) (base : Nat) : numberSpecial type base = prefixText type base := by
  have hx : ∀ small : Bool, digitsAt small 33 = if small then ch 'x' else ch 'X' := by decide
  unfold numberSpecial prefixText
  simp only [hx]
  split
  · rfl
  · have h16 : (base : Int) = 16 ↔ base = 16 := by omega
    have h8 : (base : Int) = 8 ↔ base = 8 := by omega
    simp only [h16, h8]

theorem number_isSome (num : BitVec 64) {base : Int} (hbase : base = 8 ∨ base = 10 ∨ base = 16) (width precision : Int)
    (type : Flags) : (number num base width precision type).isSome := by
  unfold number
  dsimp only
  rw [if_neg (by omega)]
  rfl

/-! ### Padding -/

def countdown (n : Int) : Int := if 0 < n then -1 else i32 (n - 1)

theorem whilePostDec_zero (c : UInt8) (n : Int) : whilePostDec c 0 n = (List.replicate n.toNat c, countdown n) := by
  rw [whilePostDec, Int.sub_zero, countdown]
  split
  · next hn => rw [Int.min_eq_left (Int.le_of_lt hn), i32_eq (by decide) (by decide), Int.zero_sub]
  · next hn => rw [Int.min_eq_right (Int.not_lt.1 hn)]

def padCounts (type : Flags) (n : Int) : Nat × Nat × Nat :=
  if type.left then (0, 0, n.toNat)
  else if type.zeropad then (0, n.toNat, (countdown n).toNat)
  else (n.toNat, (countdown n).toNat, (countdown (countdown n)).toNat)

def numberDigits (num : BitVec 64) (base : Nat) (precision : Int) (type : Flags) : List UInt8 :=
  List.replicate (max precision (numeralLength base (numberValue type num)) - numeralLength base (numberValue type num)).toNat (ch '0') ++
    (numberTmp type.small base (numberValue type num).natAbs).reverse

def numberParts (num : BitVec 64) (base : Nat) (precision : Int) (type : Flags) (n : Nat × Nat × Nat) : NumberParts where
  before := List.replicate n.1 (ch ' ')
  sign := signText type num
  special := prefixText type base
  zeros := List.replicate n.2.1 (if type.zeropad && !type.left then ch '0' else ch ' ')
  digits := numberDigits num base precision type
  after := List.replicate n.2.2 (ch ' ')

theorem length_numberDigits (num : BitVec 64) (base : Nat) (precision : Int) (type : Flags) :
    ((numberDigits num base precision type).length : Int) = max precision (numeralLength base (numberValue type num)) := by
  have hlen : numeralLength base ((numberValue type num).natAbs : Int) = numeralLength base (numberValue type num) := by
    rw [numeralLength, numeralLength, Int.natAbs_natCast]
  rw [numberDigits, List.length_append, List.length_replicate, List.length_reverse, length_numberTmp, hlen]
  omega

theorem number_eq (num : BitVec 64) (h2 : 2 ≤ base) (h36 : base ≤ 36) (hw1 : -2 ^ 31 ≤ width) (hw2 : width < 2 ^ 31)
    (precision : Int) (type : Flags) :
    number num base width precision type =
      some (numberParts num base precision type (padCounts type (i32 (numberRoom num base width precision type)))).text := by
  obtain ⟨mag, hmag, hsign⟩ := numberSign_eq type num hw1 hw2
  have hlen : numeralLength base ((numberValue type num).natAbs : Int) = numeralLength base (numberValue type num) := by
    rw [numeralLength, numeralLength, Int.natAbs_natCast]
  have hroom : i32 (i32 (i32 (width - (if numberValue type num < 0 then 0 else (signText type num).length)) -
      (prefixText type base).length) - max precision (numeralLength base (numberValue type num))) =
      i32 (numberRoom num base width precision type) := by
    rw [i32_sub, numberRoom, Int.sub_sub, i32_sub, ← Int.sub_sub]
  unfold number
  dsimp only
  rw [if_neg (by omega), hsign]
  dsimp only
  rw [numberSpecial_eq, Int.toNat_natCast, length_numberTmp, hmag, hlen, hroom]
  generalize i32 (numberRoom num base width precision type) = t
  unfold numberParts NumberParts.text padCounts numberDigits
  cases hl : type.left <;> cases hz : type.zeropad <;>
    simp only [whilePostDec_zero, Bool.not_true, Bool.not_false, Bool.and_true, Bool.and_false, Bool.false_eq_true, if_true,
      if_false, List.nil_append, List.append_assoc, List.append_nil, List.replicate_zero]

theorem countdown_i32 {n : Int} (h : i32 n ≤ 0) : countdown (i32 n) = i32 (n - 1) := by
  rw [countdown, if_neg (by omega), i32_sub]

theorem padCounts_of_pos (type : Flags) {n : Int} (h : 0 < n) :
    padCounts type n =
      if type.left then (0, 0, n.toNat) else if type.zeropad then (0, n.toNat, 0) else (n.toNat, 0, 0) := by
  have h1 : countdown n = -1 := if_pos h
  have h2 : countdown (-1) = -2 := by
    rw [countdown, if_neg (by decide), i32_eq (by decide) (by decide)]
    rfl
  rw [padCounts, h1, h2]
  rfl

theorem padCounts_eq_zero_iff (type : Flags) (n : Int) :
    (padCounts type (i32 n)).1 + (padCounts type (i32 n)).2.1 + (padCounts type (i32 n)).2.2 = 0 ↔
      ∀ i < paddingLoops type, i32 (n - i) ≤ 0 := by
  have hzero : n - ((0 : Nat) : Int) = n := Int.sub_zero n
  have hone : n - ((1 : Nat) : Int) = n - 1 := rfl
  have htwo : n - ((2 : Nat) : Int) = n - 1 - 1 := by omega
  unfold paddingLoops padCounts
  cases type.left with
  | true =>
    simp only [if_true, Nat.lt_one_iff, forall_eq, hzero]
    omega
  | false =>
    by_cases h0 : i32 n ≤ 0
    · cases type.zeropad with
      | true =>
        simp only [Bool.false_eq_true, if_true, if_false, Nat.forall_lt_succ_right, Nat.not_lt_zero, false_implies,
          implies_true, true_and, hzero, hone, countdown_i32 h0]
        omega
      | false =>
        simp only [Bool.false_eq_true, if_false, Nat.forall_lt_succ_right, Nat.not_lt_zero, false_implies, implies_true,
          true_and, hzero, hone, htwo, countdown_i32 h0]
        by_cases h1 : i32 (n - 1) ≤ 0
        · rw [countdown_i32 h1]
          omega
        · omega
    · -- the first loop that runs writes something
      refine iff_of_false ?_ fun hall => h0 ?_
      · cases type.zeropad <;> simp only [Bool.false_eq_true, if_true, if_false] <;> omega
      · rw [← hzero]
        exact hall 0 (by cases type.zeropad <;> decide)

theorem numberParts_length (num : BitVec 64) (base : Nat) (precision : Int) (type : Flags) (n : Nat × Nat × Nat) :
    (numberParts num base precision type n).text.length =
      n.1 + n.2.1 + n.2.2 + (signText type num ++ prefixText type base ++ numberDigits num base precision type).length := by
  simp only [numberParts, NumberParts.text, List.length_append, List.length_replicate]
  omega

theorem length_signText_of_neg (h : numberValue type num < 0) : signText type num = [ch '-'] := by
  have hs : type.sign = true := by
    by_contra hs
    rw [numberValue, if_neg hs] at h
    omega
  rw [signText, if_neg (by rw [hs]; decide), if_pos h]

theorem numberRoom_eq (num : BitVec 64) (base : Nat) (width precision : Int) (type : Flags) :
    numberRoom num base width precision type =
      width - ((signText type num ++ prefixText type base ++ numberDigits num base precision type).length : Int) +
        if numberValue type num < 0 then 1 else 0 := by
  have hd := length_numberDigits num base precision type
  rw [numberRoom, List.length_append, List.length_append]
  split
  · next hneg =>
    rw [length_signText_of_neg hneg, List.length_singleton]
    omega
  · omega

theorem NumberText.length_eq {text : List UInt8} (h : NumberText num base width precision type text) :
    (text.length : Int) =
      max width ((signText type num ++ prefixText type base ++ numberDigits num base precision type).length : Int) := by
  obtain ⟨q, rfl, hq⟩ := h
  have hc := hq.count
  rw [← length_numberDigits] at hc
  rw [hq.length, hq.sign, hq.special]
  simp only [List.length_append] at hc ⊢
  omega

theorem signText_eq_minus_iff : signText type num = [ch '-'] ↔ numberValue type num < 0 := by
  refine ⟨fun h => ?_, length_signText_of_neg⟩
  by_contra hneg
  rw [signText, if_neg hneg] at h
  split at h
  · cases h
  · split at h
    · exact absurd (List.cons.inj h).1 (by decide)
    · split at h
      · exact absurd (List.cons.inj h).1 (by decide)
      · cases h

theorem readDigits_numberDigits (h2 : 2 ≤ base) (h16 : base ≤ 16) (num : BitVec 64) (precision : Int) (type : Flags) :
    readDigits base (numberDigits num base precision type) = (numberValue type num).natAbs := by
  rw [numberDigits, readDigits_append_zeros, readDigits_tmp type.small h2 h16]

theorem mem_numberDigits (h2 : 2 ≤ base) {c : UInt8} (hc : c ∈ numberDigits num base precision type) :
    ∃ d < base, c = digitsAt type.small d := by
  rcases List.mem_append.mp hc with hc | hc
  · exact ⟨0, by omega, List.eq_of_mem_replicate hc⟩
  · exact mem_numberTmp type.small h2 (List.mem_reverse.mp hc)

theorem numberParts_ok (h2 : 2 ≤ base) (h16 : base ≤ 16) {n : Nat × Nat × Nat}
    (hleft : type.left = true → n.1 = 0 ∧ n.2.1 = 0) (hright : type.left = false → n.2.2 = 0)
    (hzeros : n.2.1 ≠ 0 → (type.zeropad && !type.left) = true)
    (hsum : ((n.1 + n.2.1 + n.2.2 : Nat) : Int) = max 0
      (width - ((signText type num ++ prefixText type base ++ numberDigits num base precision type).length : Int))) :
    (numberParts num base precision type n).Ok num base width precision type where
  before _ hc := List.eq_of_mem_replicate hc
  sign := rfl
  special := rfl
  zeros c hc := by
    have hc' := List.eq_of_mem_replicate hc
    have hne : n.2.1 ≠ 0 := fun h0 => by
      change c ∈ List.replicate n.2.1 _ at hc
      rw [h0] at hc
      cases hc
    rwa [if_pos (hzeros hne)] at hc'
  digits _ hc := mem_numberDigits h2 hc
  after _ hc := List.eq_of_mem_replicate hc
  value := by
    change (if signText type num = [ch '-'] then -(readDigits base (numberDigits num base precision type) : Int)
      else readDigits base (numberDigits num base precision type)) = _
    rw [readDigits_numberDigits h2 h16]
    simp only [signText_eq_minus_iff]
    split <;> omega
  count := length_numberDigits num base precision type
  length := by
    rw [numberParts_length]
    change _ = max width ((signText type num ++ prefixText type base ++ numberDigits num base precision type).length : Int)
    omega
  left hl := by
    obtain ⟨h1, h3⟩ := hleft hl
    simp only [numberParts, h1, h3, List.replicate_zero, and_self]
  right hl := by simp only [numberParts, hright hl, List.replicate_zero]

theorem numberRoom_lt (num : BitVec 64) (base : Nat) (hw : width < 2 ^ 31) (precision : Int) (type : Flags) :
    numberRoom num base width precision type < 2 ^ 31 := by
  rw [numberRoom]
  omega

theorem numberText_of_fits (h2 : 2 ≤ base) (h16 : base ≤ 16) (hw : width < 2 ^ 31)
    (hfits : NumberFits num base width precision type) :
    NumberText num base width precision type
      (numberParts num base precision type (padCounts type (i32 (numberRoom num base width precision type)))).text := by
  refine ⟨_, rfl, ?_⟩
  have heq := numberRoom_eq num base width precision type
  have hlt := numberRoom_lt num base hw precision type
  by_cases hroom : 0 < numberRoom num base width precision type
  · have hneg : ¬ numberValue type num < 0 := fun hneg => absurd (hfits.negative hneg) (by omega)
    rw [if_neg hneg] at heq
    rw [i32_eq (by omega) hlt, padCounts_of_pos type hroom]
    cases hl : type.left with
    | true => exact numberParts_ok h2 h16 (fun _ => ⟨rfl, rfl⟩) (fun h => by rw [hl] at h; cases h) (fun h => absurd rfl h) (by
        simp only [if_true]
        omega)
    | false =>
      cases hz : type.zeropad with
      | true => exact numberParts_ok h2 h16 (fun h => by rw [hl] at h; cases h) (fun _ => rfl) (fun _ => by rw [hl, hz]; rfl) (by
          simp only [Bool.false_eq_true, if_true, if_false]
          omega)
      | false => exact numberParts_ok h2 h16 (fun h => by rw [hl] at h; cases h) (fun _ => rfl) (fun h => absurd rfl h) (by
          simp only [Bool.false_eq_true, if_false]
          omega)
  · have hnone := (padCounts_eq_zero_iff type _).mpr (hfits.noWrap (by omega))
    refine numberParts_ok h2 h16 (fun _ => by omega) (fun _ => by omega) (fun h => absurd h (by omega)) ?_
    split at heq <;> omega

/-- `number` writes the text that it is asked for if and only if a negative number is not padded and no counter
wraps. -/
theorem numberText_iff (num : BitVec 64) {base : Nat} (hbase : base = 8 ∨ base = 10 ∨ base = 16) (width precision : BitVec 32)
    (type : Flags) :
    ∃ text, number num base width.toInt precision.toInt type = some text ∧
      (NumberText num base width.toInt precision.toInt type text ↔
        NumberFits num base width.toInt precision.toInt type) := by
  have hw1 : -2 ^ 31 ≤ width.toInt := BitVec.le_toInt width
  have hw2 : width.toInt < 2 ^ 31 := BitVec.toInt_lt
  have hlt := numberRoom_lt num base hw2 precision.toInt type
  have heq := numberRoom_eq num base width.toInt precision.toInt type
  refine ⟨_, number_eq num (by omega) (by omega) hw1 hw2 precision.toInt type, fun h => ?_,
    numberText_of_fits (by omega) (by omega) hw2⟩
  have hlen := h.length_eq
  rw [numberParts_length] at hlen
  constructor
  · -- the minus sign makes a padded number one character too long
    intro hneg
    by_contra hroom
    rw [i32_eq (by omega) hlt, padCounts_of_pos type (by omega)] at hlen
    rw [if_pos hneg] at heq
    split at hlen
    · dsimp only at hlen
      omega
    · split at hlen <;> dsimp only at hlen <;> omega
  · intro hroom
    rw [← padCounts_eq_zero_iff]
    split at heq <;> omega

/-- A non-negative number fills its field. -/
theorem numberText_padded : ∃ text, number 42 (10 : Nat) (5#32).toInt (-1#32).toInt { sign := true } = some text ∧
    NumberText 42 10 (5#32).toInt (-1#32).toInt { sign := true } text := by
  obtain ⟨text, htext, hiff⟩ := numberText_iff 42 (.inr (.inl rfl)) 5#32 (-1#32) { sign := true }
  refine ⟨text, htext, hiff.mpr ⟨fun h => absurd h (by decide), fun h => absurd h ?_⟩⟩
  decide +kernel

/-- In a field of five characters -1 gets six. -/
theorem minusOne_too_long : number (-1#64) (10 : Nat) 5 (-1) { sign := true } = some ("    -1".toList.map ch) ∧
    ¬ NumberText (-1#64) 10 5 (-1) { sign := true } ("    -1".toList.map ch) := by
  refine ⟨by decide +kernel, fun h => ?_⟩
  have hlen := h.length_eq
  revert hlen
  decide +kernel

end QuestOS
