import Mathlib.Algebra.Ring.Int.Defs
import Mathlib.Algebra.Ring.Nat
import Mathlib.Data.List.Basic
import Mathlib.Data.List.Induction

/-! Numbers written with a fixed number of digits, most significant digit first. -/

namespace ProcessChain.Lib

def fixedDigits (base : Nat) : Nat → Nat → List Nat
  | 0, _ => []
  | width + 1, value => fixedDigits base width (value / base) ++ [value % base]

def numeral (base : Nat) (digits : List Nat) : Nat :=
  digits.foldl (fun value digit => value * base + digit) 0

@[simp] theorem fixedDigits_length (base width value : Nat) : (fixedDigits base width value).length = width := by
  induction width generalizing value with
  | zero => rfl
  | succ width ih => simp [fixedDigits, ih]

theorem fixedDigits_lt {base : Nat} (positive : 0 < base) (width value : Nat) :
    ∀ digit ∈ fixedDigits base width value, digit < base := by
  induction width generalizing value with
  | zero => simp [fixedDigits]
  | succ width ih =>
    intro digit member
    rcases List.mem_append.mp member with earlier | last
    · exact ih _ digit earlier
    · rw [List.mem_singleton.mp last]
      exact Nat.mod_lt _ positive

private theorem numeral_append (base : Nat) (digits : List Nat) (last : Nat) :
    numeral base (digits ++ [last]) = numeral base digits * base + last := by
  simp [numeral, List.foldl_append]

/-- Reading back the digits gives the value, up to what the width can hold. -/
theorem numeral_fixedDigits (base width value : Nat) :
    numeral base (fixedDigits base width value) = value % base ^ width := by
  induction width generalizing value with
  | zero => simp [fixedDigits, numeral, Nat.mod_one]
  | succ width ih =>
    rw [fixedDigits, numeral_append, ih, Nat.pow_succ', Nat.mod_mul, Nat.mul_comm base, Nat.add_comm]

/-- Digits are what is written for the number that they spell. -/
theorem fixedDigits_numeral {base : Nat} (digits : List Nat) (small : ∀ digit ∈ digits, digit < base) :
    fixedDigits base digits.length (numeral base digits) = digits := by
  induction digits using List.reverseRecOn with
  | nil => rfl
  | append_singleton rest last ih =>
    have lastSmall := small last (by simp)
    have above : (numeral base rest * base + last) / base = numeral base rest := by
      rw [Nat.mul_comm, Nat.mul_add_div (by omega), Nat.div_eq_of_lt lastSmall, Nat.add_zero]
    have below : (numeral base rest * base + last) % base = last := by
      rw [Nat.mul_comm, Nat.mul_add_mod, Nat.mod_eq_of_lt lastSmall]
    rw [List.length_append, List.length_singleton, fixedDigits, numeral_append, above, below,
      ih fun digit member => small digit (by simp [member])]

end ProcessChain.Lib
