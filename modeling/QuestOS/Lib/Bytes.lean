import Mathlib.Algebra.Order.Ring.Nat

/-!
# Byte memory

A memory is a function from addresses to bytes.  Words are little-endian; what a store leaves
unchanged is stated once for a single byte, and once for a word that does not meet it.

`At m a l` says that the bytes `l` stand in `m` from `a` on, and `Wrote m m' a l` that `m'` comes from `m`
by writing them there.  A record is a list of fields, each a width and a value; `pack` encodes it and fails
when a value does not fit.
-/

namespace Bytes

abbrev Mem := Nat → UInt8

def loadLE (m : Mem) : (a n : Nat) → Nat
  | _, 0 => 0
  | a, n + 1 => (m a).toNat + 256 * loadLE m (a + 1) n

def storeLE (m : Mem) (a n v : Nat) : Mem :=
  fun x => if a ≤ x ∧ x < a + n then UInt8.ofNat (v / 256 ^ (x - a)) else m x

def load64 (m : Mem) (a : Nat) : BitVec 64 := BitVec.ofNat 64 (loadLE m a 8)

def store64 (m : Mem) (a : Nat) (v : BitVec 64) : Mem := storeLE m a 8 v.toNat

def fill (m : Mem) (a n : Nat) (v : UInt8) : Mem := fun x => if a ≤ x ∧ x < a + n then v else m x

variable {m m' : Mem} {a b n v x : Nat} {w : BitVec 64}

theorem loadLE_congr (h : ∀ x, a ≤ x → x < a + n → m x = m' x) : loadLE m a n = loadLE m' a n := by
  induction n generalizing a with
  | zero => rfl
  | succ n ih =>
    rw [loadLE, loadLE, h a (Nat.le_refl _) (by omega), ih fun x h1 h2 => h x (by omega) (by omega)]

theorem loadLE_lt (m : Mem) (a n : Nat) : loadLE m a n < 256 ^ n := by
  induction n generalizing a with
  | zero => exact Nat.one_pos
  | succ n ih =>
    have h1 := (m a).toNat_lt
    have h2 := ih (a + 1)
    rw [loadLE, Nat.pow_succ]
    omega

theorem storeLE_of_not (h : ¬ (a ≤ x ∧ x < a + n)) : storeLE m a n v x = m x := if_neg h

private theorem loadLE_storeLE_tail (m : Mem) (a n v k : Nat) :
    loadLE (storeLE m a (n + k) v) (a + k) n = v / 256 ^ k % 256 ^ n := by
  induction n generalizing k with
  | zero => rw [loadLE, Nat.pow_zero, Nat.mod_one]
  | succ n ih =>
    have hbyte : (storeLE m a (n + 1 + k) v (a + k)).toNat = v / 256 ^ k % 256 := by
      rw [storeLE, if_pos (by omega), Nat.add_sub_cancel_left, UInt8.toNat_ofNat']
    have htail := ih (k + 1)
    rw [show n + (k + 1) = n + 1 + k by omega, ← Nat.add_assoc a k 1, Nat.pow_succ,
      ← Nat.div_div_eq_div_mul] at htail
    rw [loadLE, hbyte, htail, Nat.pow_succ', Nat.mod_mul]

theorem loadLE_storeLE (m : Mem) (a n v : Nat) : loadLE (storeLE m a n v) a n = v % 256 ^ n := by
  simpa using loadLE_storeLE_tail m a n v 0

theorem load64_congr (h : ∀ x, a ≤ x → x < a + 8 → m x = m' x) : load64 m a = load64 m' a := by
  rw [load64, load64, loadLE_congr h]

@[simp] theorem load64_store64 (m : Mem) (a : Nat) (w : BitVec 64) : load64 (store64 m a w) a = w := by
  rw [load64, store64, loadLE_storeLE]
  apply BitVec.eq_of_toNat_eq
  have := w.isLt
  rw [BitVec.toNat_ofNat]
  omega

theorem store64_of_not (h : ¬ (a ≤ x ∧ x < a + 8)) : store64 m a w x = m x := storeLE_of_not h

theorem load64_store64_of_disjoint (h : a + 8 ≤ b ∨ b + 8 ≤ a) : load64 (store64 m a w) b = load64 m b :=
  load64_congr fun x h1 h2 => store64_of_not (by omega)

theorem fill_of_mem {c : UInt8} (h : a ≤ x ∧ x < a + n) : fill m a n c x = c := if_pos h

theorem fill_of_not {c : UInt8} (h : ¬ (a ≤ x ∧ x < a + n)) : fill m a n c x = m x := if_neg h

theorem load64_zero (h : ∀ x, a ≤ x → x < a + 8 → m x = 0) : load64 m a = 0 := by
  have hzero : load64 m a = load64 (fun _ => 0) a := load64_congr h
  rw [hzero]
  rfl

/-! ### Lists of bytes in memory -/

def At (m : Mem) : (a : Nat) → List UInt8 → Prop
  | _, [] => True
  | a, b :: l => m a = b ∧ At m (a + 1) l

structure Wrote (m m' : Mem) (a : Nat) (l : List UInt8) : Prop where
  at_ : At m' a l
  frame : ∀ x, ¬ (a ≤ x ∧ x < a + l.length) → m' x = m x

def encodeLE : (n v : Nat) → List UInt8
  | 0, _ => []
  | n + 1, v => UInt8.ofNat v :: encodeLE n (v / 256)

def copy (m : Mem) (dst src n : Nat) : Mem :=
  fun x => if dst ≤ x ∧ x < dst + n then m (src + (x - dst)) else m x

def write (m : Mem) (a : Nat) (l : List UInt8) : Mem :=
  fun x => if a ≤ x ∧ x < a + l.length then l.getD (x - a) 0 else m x

variable {m'' : Mem} {l l' : List UInt8} {c : UInt8}

theorem at_iff_getElem : At m a l ↔ ∀ i, (h : i < l.length) → m (a + i) = l[i] := by
  induction l generalizing a with
  | nil => simp [At]
  | cons b l ih =>
    rw [At, ih]
    constructor
    · rintro ⟨h0, h⟩ i hi
      cases i with
      | zero => exact h0
      | succ i =>
        have := h i (by simpa using hi)
        rwa [Nat.add_assoc, Nat.add_comm 1 i] at this
    · intro h
      refine ⟨h 0 (by simp), fun i hi => ?_⟩
      have := h (i + 1) (by simpa using hi)
      rwa [← Nat.add_assoc, Nat.add_right_comm] at this

theorem at_append : At m a (l ++ l') ↔ At m a l ∧ At m (a + l.length) l' := by
  induction l generalizing a with
  | nil => simp [At]
  | cons b l ih =>
    rw [List.cons_append, At, At, ih, and_assoc, List.length_cons, Nat.add_assoc, Nat.add_comm 1]

theorem At.congr (h : At m a l) (he : ∀ i < l.length, m' (b + i) = m (a + i)) : At m' b l := by
  rw [at_iff_getElem] at h ⊢
  intro i hi
  rw [he i hi, h i hi]

theorem At.slice (h : At m a l) (hp : l' <+: l.drop n) (hn : n ≤ l.length) : At m (a + n) l' := by
  obtain ⟨r, hr⟩ := hp
  have hsplit : l = l.take n ++ (l' ++ r) := by rw [hr, List.take_append_drop]
  rw [hsplit, at_append, at_append, List.length_take, Nat.min_eq_left hn] at h
  exact h.2.1

theorem Wrote.nil (m : Mem) (a : Nat) : Wrote m m a [] := ⟨trivial, fun _ _ => rfl⟩

theorem Wrote.append (h : Wrote m m' a l) (h' : Wrote m' m'' (a + l.length) l') : Wrote m m'' a (l ++ l') := by
  constructor
  · rw [at_append]
    refine ⟨h.at_.congr fun i hi => h'.frame _ (by omega), h'.at_⟩
  · intro x hx
    rw [List.length_append] at hx
    rw [h'.frame x (by omega), h.frame x (by omega)]

theorem Wrote.unique (h : Wrote m m' a l) (h' : Wrote m m'' a l) : m' = m'' := by
  funext x
  by_cases hx : a ≤ x ∧ x < a + l.length
  · obtain ⟨i, rfl⟩ := Nat.exists_eq_add_of_le hx.1
    have hi : i < l.length := by omega
    rw [at_iff_getElem.1 h.at_ i hi, at_iff_getElem.1 h'.at_ i hi]
  · rw [h.frame x hx, h'.frame x hx]

theorem Wrote.at_of_disjoint (h : Wrote m m' a l) (hat : At m b l') (hd : b + l'.length ≤ a ∨ a + l.length ≤ b) :
    At m' b l' :=
  hat.congr fun i hi => h.frame _ (by omega)

@[simp] theorem length_encodeLE (n v : Nat) : (encodeLE n v).length = n := by
  induction n generalizing v with
  | zero => rfl
  | succ n ih => rw [encodeLE, List.length_cons, ih]

theorem getElem_encodeLE (n v i : Nat) (h : i < (encodeLE n v).length) :
    (encodeLE n v)[i] = UInt8.ofNat (v / 256 ^ i) := by
  induction n generalizing v i with
  | zero => simp [encodeLE] at h
  | succ n ih =>
    cases i with
    | zero => simp [encodeLE]
    | succ i =>
      simp only [encodeLE, List.getElem_cons_succ]
      rw [ih, Nat.pow_succ', Nat.div_div_eq_div_mul]

theorem loadLE_of_at (h : At m a (encodeLE n v)) : loadLE m a n = v % 256 ^ n := by
  induction n generalizing a v with
  | zero => rw [loadLE, Nat.pow_zero, Nat.mod_one]
  | succ n ih =>
    rw [encodeLE, At] at h
    have hbyte : (m a).toNat = v % 256 := by rw [h.1, UInt8.toNat_ofNat']
    rw [loadLE, hbyte, ih h.2, Nat.pow_succ', Nat.mod_mul]

theorem storeLE_wrote (m : Mem) (a n v : Nat) : Wrote m (storeLE m a n v) a (encodeLE n v) := by
  constructor
  · rw [at_iff_getElem]
    intro i hi
    rw [getElem_encodeLE, storeLE, Nat.add_sub_cancel_left]
    rw [length_encodeLE] at hi
    exact if_pos (by omega)
  · intro x hx
    rw [length_encodeLE] at hx
    exact storeLE_of_not hx

theorem store64_wrote (m : Mem) (a : Nat) (w : BitVec 64) : Wrote m (store64 m a w) a (encodeLE 8 w.toNat) :=
  storeLE_wrote m a 8 w.toNat

theorem fill_wrote (m : Mem) (a n : Nat) (c : UInt8) : Wrote m (fill m a n c) a (List.replicate n c) := by
  constructor
  · rw [at_iff_getElem]
    intro i hi
    rw [List.getElem_replicate]
    rw [List.length_replicate] at hi
    exact fill_of_mem (by omega)
  · intro x hx
    rw [List.length_replicate] at hx
    exact fill_of_not hx

theorem write_wrote (m : Mem) (a : Nat) (l : List UInt8) : Wrote m (write m a l) a l := by
  constructor
  · rw [at_iff_getElem]
    intro i hi
    rw [write, if_pos (by omega), Nat.add_sub_cancel_left, List.getD_eq_getElem?_getD,
      List.getElem?_eq_getElem hi, Option.getD_some]
  · intro x hx
    exact if_neg hx

/-- Where `l'` is laid over `l`, from the offset `n` on, the two have the same bytes. -/
def Agree (l : List UInt8) (n : Nat) (l' : List UInt8) : Prop :=
  ∀ i (h : n + i < l.length) (h' : i < l'.length), l[n + i] = l'[i]

theorem agree_of_length_le (h : l.length ≤ n) : Agree l n l' := fun i hi _ => absurd hi (by omega)

theorem At.agree (h : At m a l) (h' : At m (a + n) l') : Agree l n l' := by
  rw [at_iff_getElem] at h h'
  intro i hi hi'
  rw [← h _ hi, ← h' _ hi', Nat.add_assoc]

theorem At.write_of_agree (h : At m a l) (hag : Agree l n l') : At (write m (a + n) l') a l := by
  rw [at_iff_getElem] at h ⊢
  intro i hi
  by_cases hin : a + n ≤ a + i ∧ a + i < a + n + l'.length
  · obtain ⟨j, rfl⟩ : ∃ j, i = n + j := ⟨i - n, by omega⟩
    have hj : j < l'.length := by omega
    rw [hag j hi hj, ← Nat.add_assoc]
    exact at_iff_getElem.1 (write_wrote m (a + n) l').at_ j hj
  · rw [(write_wrote m (a + n) l').frame _ hin]
    exact h i hi

/-- The C string at an address: a zero among the bytes ends it, or else the byte behind them has to. -/
theorem at_cString_iff (h : At m a l) : At m a (l.takeWhile (· ≠ 0) ++ [0]) ↔ 0 ∈ l ∨ m (a + l.length) = 0 := by
  induction l generalizing a with
  | nil => simp [At]
  | cons c l ih =>
    obtain ⟨hc, hl⟩ := h
    by_cases hzero : c = 0
    · simp [At, hc, hzero]
    · have hne : (0 : UInt8) ≠ c := Ne.symm hzero
      rw [List.takeWhile_cons_of_pos (by simpa using hzero), List.cons_append, At, ih hl, List.mem_cons, or_iff_right hne,
        List.length_cons, Nat.add_assoc, Nat.add_comm 1]
      exact and_iff_right hc

theorem write_offset (m : Mem) (a n : Nat) (l : List UInt8) : write m a l (a + n) = l[n]?.getD (m (a + n)) := by
  by_cases h : n < l.length
  · rw [List.getElem?_eq_getElem h, Option.getD_some]
    exact at_iff_getElem.1 (write_wrote m a l).at_ n h
  · rw [List.getElem?_eq_none (by omega), Option.getD_none]
    exact (write_wrote m a l).frame _ (by omega)

theorem At.map_range (h : At m a l) : (List.range l.length).map (fun i => m (a + i)) = l := by
  apply List.ext_getElem
  · rw [List.length_map, List.length_range]
  · intro i h1 h2
    rw [List.getElem_map, List.getElem_range]
    exact at_iff_getElem.1 h i h2

theorem copy_wrote (h : At m b l) (a : Nat) : Wrote m (copy m a b l.length) a l := by
  constructor
  · refine h.congr fun i hi => ?_
    rw [copy, if_pos (by omega), Nat.add_sub_cancel_left]
  · intro x hx
    exact if_neg hx

/-! ### Records -/

def encodeFields (fs : List (Nat × Nat)) : List UInt8 := fs.flatMap fun f => encodeLE f.1 f.2

def Fits (fs : List (Nat × Nat)) : Prop := ∀ f ∈ fs, f.2 < 256 ^ f.1

def pack : List (Nat × Nat) → Option (List UInt8)
  | [] => some []
  | f :: fs => if f.2 < 256 ^ f.1 then (pack fs).map (encodeLE f.1 f.2 ++ ·) else none

variable {fs : List (Nat × Nat)}

theorem pack_eq_some : pack fs = some l ↔ Fits fs ∧ l = encodeFields fs := by
  induction fs generalizing l with
  | nil => simp [pack, Fits, encodeFields, eq_comm]
  | cons f fs ih =>
    rw [pack]
    by_cases hf : f.2 < 256 ^ f.1
    · simp only [hf, if_true, Option.map_eq_some_iff, ih, Fits, List.forall_mem_cons, true_and, encodeFields,
        List.flatMap_cons]
      constructor
      · rintro ⟨l', ⟨h1, rfl⟩, rfl⟩
        exact ⟨h1, rfl⟩
      · rintro ⟨h1, rfl⟩
        exact ⟨_, ⟨h1, rfl⟩, rfl⟩
    · simp [hf, Fits]

@[simp] theorem encodeFields_nil : encodeFields [] = [] := rfl

@[simp] theorem encodeFields_cons (f : Nat × Nat) (fs : List (Nat × Nat)) :
    encodeFields (f :: fs) = encodeLE f.1 f.2 ++ encodeFields fs := List.flatMap_cons

@[simp] theorem encodeFields_append (fs gs : List (Nat × Nat)) :
    encodeFields (fs ++ gs) = encodeFields fs ++ encodeFields gs := List.flatMap_append

theorem fits_append {fs gs : List (Nat × Nat)} : Fits (fs ++ gs) ↔ Fits fs ∧ Fits gs := List.forall_mem_append

theorem fits_cons {f : Nat × Nat} : Fits (f :: fs) ↔ f.2 < 256 ^ f.1 ∧ Fits fs :=
  List.forall_mem_cons

def LoadsAs (m : Mem) : (a : Nat) → List (Nat × Nat) → Prop
  | _, [] => True
  | a, f :: fs => loadLE m a f.1 = f.2 ∧ LoadsAs m (a + f.1) fs

theorem loadsAs_of_at (h : At m a (encodeFields fs)) (hf : Fits fs) : LoadsAs m a fs := by
  induction fs generalizing a with
  | nil => trivial
  | cons f fs ih =>
    rw [encodeFields_cons, at_append, length_encodeLE] at h
    rw [fits_cons] at hf
    refine ⟨?_, ih h.2 hf.2⟩
    rw [loadLE_of_at h.1, Nat.mod_eq_of_lt hf.1]

/-! ### Reading from a part of memory -/

def window (m : Mem) (a n : Nat) : Nat → Option UInt8 := fun x => if a ≤ x ∧ x < a + n then some (m x) else none

def readLE (w : Nat → Option UInt8) : (a n : Nat) → Option Nat
  | _, 0 => some 0
  | a, n + 1 => (w a).bind fun c => (readLE w (a + 1) n).map fun v => c.toNat + 256 * v

theorem window_of_mem (h1 : a ≤ x) (h2 : x < a + n) : window m a n x = some (m x) := if_pos ⟨h1, h2⟩

theorem readLE_window {base size : Nat} (h1 : base ≤ a) (h2 : a + n ≤ base + size) :
    readLE (window m base size) a n = some (loadLE m a n) := by
  induction n generalizing a with
  | zero => rfl
  | succ n ih => rw [readLE, loadLE, window_of_mem h1 (by omega), ih (by omega) (by omega)]; rfl

end Bytes
