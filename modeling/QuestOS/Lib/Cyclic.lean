import Mathlib.Tactic.Common

/-!
# Scanning the slots of a growing ring

Slots are numbered from `0` and visited in increasing order, slot `0` after the last one.  A scan
starts at a cursor, stops at some slot and leaves the cursor behind it.  New slots are added at the
end only, so the order in which two existing slots are met from a cursor never depends on how many
slots there are: `Upto` and `Due` are stated without the length.
-/

namespace Cyclic

variable {n i j k m x : Nat}

def Upto (k x m : Nat) : Prop := if k ≤ x then k ≤ m ∧ m ≤ x else k ≤ m ∨ m ≤ x

/-- After slot `i` was visited the cursor stands at `k` and slot `j` is still to be met before slot
`i` is met again. -/
def Due (i j k : Nat) : Prop := if i < j then i < k ∧ k ≤ j else i < k ∨ k ≤ j

/-- Of two slots at distances `d ≤ e` from the cursor the first one is met first. -/
theorem upto_of_le {d e : Nat} (hk : k < n) (hde : d ≤ e) (he : e < n) :
    Upto k ((k + e) % n) ((k + d) % n) := by
  have hmod : ∀ a < n, (k + a) % n = if k + a < n then k + a else k + a - n := by
    intro a ha
    split
    · exact Nat.mod_eq_of_lt ‹_›
    · rw [Nat.mod_eq_sub_mod (by omega), Nat.mod_eq_of_lt (by omega)]
  rw [hmod d (by omega), hmod e he, Upto]
  split_ifs <;> omega

theorem exists_distance (hk : k < n) (hx : x < n) : ∃ e < n, (k + e) % n = x := by
  rcases Nat.lt_or_ge x k with h | h
  · refine ⟨x + n - k, by omega, ?_⟩
    rw [show k + (x + n - k) = x + n by omega, Nat.add_mod_right, Nat.mod_eq_of_lt hx]
  · exact ⟨x - k, by omega, by rw [Nat.add_sub_cancel' h, Nat.mod_eq_of_lt hx]⟩

theorem succ_mod (hm : m < n) : (m + 1) % n = if m + 1 = n then 0 else m + 1 := by
  split
  · rename_i h
    rw [h, Nat.mod_self]
  · exact Nat.mod_eq_of_lt (by omega)

theorem Due.start (hi : i < n) (hj : j < n) : Due i j ((i + 1) % n) := by
  rw [succ_mod hi, Due]
  split_ifs <;> omega

/-- A scan that had to stop at slot `j` at the latest and stopped before leaves it due. -/
theorem Due.scan (h : Due i j k) (hm : m < n) (hj : j < n) (hup : Upto k j m) (hmj : m ≠ j) :
    Due i j ((m + 1) % n) := by
  rw [succ_mod hm]
  unfold Due Upto at *
  split_ifs at * <;> omega

theorem Due.ne (h : Due i j k) (hij : i ≠ j) (hup : Upto k j m) : m ≠ i := by
  unfold Due Upto at *
  split_ifs at * <;> omega

end Cyclic
