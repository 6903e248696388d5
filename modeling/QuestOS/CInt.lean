import Mathlib.Algebra.Order.Ring.Int

/-!
# Conversions of C integers

The value of an `int` expression and its conversion to `unsigned long`.  Arithmetic on `int` wraps.
-/

namespace QuestOS

def i32 (n : Int) : Int := n.bmod (2 ^ 32)

def toUlong (n : Int) : Nat := (n % 2 ^ 64).toNat

theorem i32_eq {n : Int} (h1 : -2 ^ 31 ≤ n) (h2 : n < 2 ^ 31) : i32 n = n := by
  rw [i32, Int.bmod_eq_of_le (by omega) (by omega)]

theorem i32_sub (a b : Int) : i32 (i32 a - b) = i32 (a - b) := Int.bmod_sub_bmod

theorem i32_word {n : Nat} (h : n < 2 ^ 32) : i32 n = if n < 2 ^ 31 then (n : Int) else (n : Int) - 2 ^ 32 := by
  rw [i32, Int.bmod_def, show ((2 ^ 32 : Nat) : Int) = 4294967296 from rfl]
  split <;> split <;> omega

theorem toUlong_natCast {n : Nat} (h : n < 2 ^ 64) : toUlong n = n := by
  rw [toUlong]
  omega

theorem toUlong_neg {n : Nat} (hpos : 0 < n) (h : n < 2 ^ 63) : 2 ^ 63 < toUlong (-n) := by
  rw [toUlong]
  omega

end QuestOS
