import Mathlib.Data.Nat.Bitwise

/-!
# Unsigned 64-bit arithmetic, the alignment macros and common constants
-/

namespace QuestOS

/-! ### Constants -/

def maxCpus : Nat := 4

theorem page_pos : 0 < 4096 := by decide

theorem page_mod : 4096 % 4096 = 0 := rfl

def negEnomem : Int := -12
def negEexist : Int := -17
def negEinval : Int := -22

theorem ite_negEinval_eq_zero {c : Prop} [Decidable c] {x : Int} : (if c then negEinval else x) = 0 ↔ ¬ c ∧ x = 0 := by
  by_cases hc : c
  · simp [hc, negEinval]
  · simp [hc]

/-! ### Arithmetic -/

def add64 (a b : Nat) : Nat := (a + b) % 2 ^ 64

def sub64 (a b : Nat) : Nat := (a + 2 ^ 64 - b) % 2 ^ 64

def alignUp (x size : Nat) : Nat :=
  (x + size - 1) % 2 ^ 64 - ((x + size - 1) % 2 ^ 64 &&& (size - 1))

def alignDown (x size : Nat) : Nat := x / size * size

variable {x k : Nat}

theorem alignUp_eq (x k : Nat) : alignUp x (2 ^ k) = (x + 2 ^ k - 1) % 2 ^ 64 / 2 ^ k * 2 ^ k := by
  rw [alignUp, Nat.and_two_pow_sub_one_eq_mod]
  have := Nat.div_add_mod ((x + 2 ^ k - 1) % 2 ^ 64) (2 ^ k)
  rw [Nat.mul_comm] at this
  omega

theorem alignUp_two_pow (hx : 0 < x) (hk : x ≤ 2 ^ k) (h64 : k < 63) : alignUp x (2 ^ k) = 2 ^ k := by
  have hpow : 2 ^ k ≤ 2 ^ 62 := Nat.pow_le_pow_right (by decide) (by omega)
  have hdiv : (x + 2 ^ k - 1) / 2 ^ k = 1 := Nat.div_eq_of_lt_le (by omega) (by omega)
  rw [alignUp_eq, Nat.mod_eq_of_lt (by omega), hdiv, Nat.one_mul]

theorem mod_eq_of_add_eq {a b c d n : Nat} (h : a + b = c + d) (ha : a % n = 0) (hd : d % n = 0) : b % n = c % n := by
  have := congrArg (· % n) h
  simpa [Nat.add_mod, ha, hd] using this

end QuestOS
