import Mathlib.Algebra.Order.Ring.Nat
import Mathlib.Data.Nat.Basic
import Mathlib.Tactic.Ring
/-!
# Division by parts

Two digits divided one after the other, and the quotient estimated from the
leading digits of the operands, as in schoolbook division. `B` is the radix,
`d` the weight of what is dropped.
-/

namespace Lib

variable {B d x y u v q : Nat}

/-- A number of two digits less a multiple of the divisor. -/
theorem digits_eq (B u v y : Nat) : u * B + v = u % y * B + v + y * (u / y * B) := by
  calc u * B + v = (y * (u / y) + u % y) * B + v := by rw [Nat.div_add_mod]
    _ = u % y * B + v + y * (u / y * B) := by ring

/-- The quotient of two digits: that of the first, then that of its remainder with the second. -/
theorem div_digits (hy : 0 < y) : (u * B + v) / y = u / y * B + (u % y * B + v) / y := by
  rw [digits_eq B u v y, Nat.add_mul_div_left _ _ hy, Nat.add_comm]

theorem mod_digits : (u * B + v) % y = (u % y * B + v) % y := by
  rw [digits_eq B u v y, Nat.add_mul_mod_self_left]

/-- The quotient of a remainder and a digit is a digit. -/
theorem digit_lt (hu : u < y) (hv : v < B) : (u * B + v) / y < B := by
  apply Nat.div_lt_of_lt_mul
  calc u * B + v < (u + 1) * B := by
        rw [Nat.add_mul, Nat.one_mul]
        exact Nat.add_lt_add_left hv _
    _ ≤ y * B := Nat.mul_le_mul_right B hu

/-- The estimate from the leading digits is not too large. -/
theorem mul_estimate_le (hd : 0 < d) : y * (x / d / (y / d + 1)) ≤ x := by
  have hy : y ≤ (y / d + 1) * d := by
    rw [Nat.add_mul, Nat.one_mul]
    exact (Nat.lt_div_mul_add hd).le
  calc y * (x / d / (y / d + 1)) ≤ (y / d + 1) * d * (x / d / (y / d + 1)) := Nat.mul_le_mul_right _ hy
    _ = (y / d + 1) * (x / d / (y / d + 1)) * d := by ring
    _ ≤ x / d * d := Nat.mul_le_mul_right d (Nat.mul_div_le _ _)
    _ ≤ x := Nat.div_mul_le_self x d

/-- A quotient and the quotient of what is left make up the whole. -/
theorem add_div_rest (hy : 0 < y) (h : y * q ≤ x) : q + (x - y * q) / y = x / y := by
  have hx : x = x - y * q + y * q := by omega
  conv_rhs => rw [hx, Nat.add_mul_div_left _ _ hy, Nat.add_comm]

theorem rest_mod (h : y * q ≤ x) : (x - y * q) % y = x % y := by
  have hx : x = x - y * q + y * q := by omega
  conv_rhs => rw [hx, Nat.add_mul_mod_self_left]

end Lib
