import Mathlib

set_option autoImplicit false

/-!
# Conversions between integer types of C

A number that is computed exactly is converted to the type of the variable that gets it.

## Main results

* `int_eq`, `uint_of_nonneg` — numbers in range are not changed.
* `int_add_int` — a sum may be converted at each step, or once.
-/

namespace CInt

/-- The value of a number in an `int`. -/
@[irreducible] def int (x : ℤ) : ℤ := x.bmod (2 ^ 32)

/-- The value of a number in an `unsigned int`. -/
@[irreducible] def uint (x : ℤ) : ℕ := (x % 2 ^ 32).toNat

variable {x : ℤ}

theorem int_eq (h₁ : -2 ^ 31 ≤ x) (h₂ : x < 2 ^ 31) : int x = x := by
  unfold int
  rw [Int.bmod_def]
  split_ifs <;> omega

theorem int_of_ge (h₁ : 2 ^ 31 ≤ x) (h₂ : x < 2 ^ 32) : int x = x - 2 ^ 32 := by
  unfold int
  rw [Int.bmod_def]
  split_ifs <;> omega

theorem int_add_int (x y : ℤ) : int (int x + y) = int (x + y) := by
  unfold int
  exact Int.bmod_add_bmod

theorem uint_of_nonneg (h₁ : 0 ≤ x) (h₂ : x < 2 ^ 32) : uint x = x.toNat := by
  unfold uint
  rw [Int.emod_eq_of_lt h₁ h₂]

theorem uint_int_add (x y : ℤ) : uint (int x + y) = uint (x + y) := by
  unfold uint int
  rw [Int.bmod_def]
  split_ifs <;> omega

end CInt
