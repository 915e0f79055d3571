import Mathlib.Data.Nat.Bitwise
/-!
# Bit fields

A word is its bits. `mask k s` has `k` ones from bit `s` on; `field x s k` is
the number in the `k` bits of `x` from bit `s` on. Every statement about fields
is a statement about bits.
-/

namespace Lib

variable {x y k s i n : Nat}

/-- `k` ones from bit `s` on. -/
def mask (k s : Nat) : Nat := (2 ^ k - 1) <<< s

/-- The `k` bits of `x` from bit `s` on. -/
def field (x s k : Nat) : Nat := (x >>> s) % 2 ^ k

@[simp] theorem testBit_mask : (mask k s).testBit i = (decide (s ≤ i) && decide (i < s + k)) := by
  rw [mask, Nat.testBit_shiftLeft, Nat.testBit_two_pow_sub_one]
  by_cases h : s ≤ i
  · simp only [h, decide_true, Bool.true_and]
    congr 1
    simp only [eq_iff_iff]
    omega
  · simp [h]

@[simp] theorem testBit_field : (field x s k).testBit i = (decide (i < k) && x.testBit (s + i)) := by
  rw [field, Nat.testBit_mod_two_pow, Nat.testBit_shiftRight]

theorem field_lt : field x s k < 2 ^ k := Nat.mod_lt _ (Nat.two_pow_pos k)

/-- A number below 2^n has no bit from `n` on. -/
theorem testBit_of_lt (hx : x < 2 ^ n) (hi : n ≤ i) : x.testBit i = false :=
  Nat.testBit_lt_two_pow (hx.trans_le (Nat.pow_le_pow_right (by decide) hi))

/-- Numbers below 2^n with the same `n` bits are equal. -/
theorem eq_of_bits (hx : x < 2 ^ n) (hy : y < 2 ^ n) (h : ∀ i < n, x.testBit i = y.testBit i) : x = y := by
  apply Nat.eq_of_testBit_eq
  intro i
  by_cases hi : i < n
  · exact h i hi
  · rw [testBit_of_lt hx (by omega), testBit_of_lt hy (by omega)]

/-- A field is the number whose bits are there. -/
theorem field_eq (hy : y < 2 ^ k) (h : ∀ i < k, x.testBit (s + i) = y.testBit i) : field x s k = y := by
  apply eq_of_bits field_lt hy
  intro i hi
  rw [testBit_field, decide_eq_true hi, Bool.true_and, h i hi]

/-! ## One bit -/

theorem testBit_set : (x ||| 1 <<< k).testBit i = (x.testBit i || decide (k = i)) := by
  rw [Nat.testBit_or, Nat.one_shiftLeft, Nat.testBit_two_pow]

theorem testBit_clear (hx : x < 2 ^ n) : (x &&& ((2 ^ n - 1) ^^^ 1 <<< k)).testBit i = (x.testBit i && !decide (k = i)) := by
  rw [Nat.testBit_and, Nat.testBit_xor, Nat.testBit_two_pow_sub_one, Nat.one_shiftLeft, Nat.testBit_two_pow]
  by_cases hi : i < n
  · simp [hi]
  · rw [testBit_of_lt hx (by omega)]
    simp

/-- A number without bits from `n` on is below 2^n. -/
theorem lt_of_bits (h : ∀ i, n ≤ i → x.testBit i = false) : x < 2 ^ n := Nat.lt_pow_two_of_testBit x h

/-! ## Fields at the ends of a word -/

theorem and_mask_zero : x &&& mask k 0 = x % 2 ^ k := by
  rw [mask, Nat.shiftLeft_zero, Nat.and_two_pow_sub_one_eq_mod]

/-- The leading bits of a number, in place. -/
theorem and_mask_top (hx : x < 2 ^ (s + k)) : x &&& mask k s = x / 2 ^ s * 2 ^ s := by
  apply Nat.eq_of_testBit_eq
  intro i
  rw [Nat.testBit_and, testBit_mask, Nat.testBit_mul_two_pow, Nat.testBit_div_two_pow]
  by_cases hs : s ≤ i
  · rw [Nat.sub_add_cancel hs]
    by_cases hi : i < s + k
    · simp [hs, hi]
    · rw [testBit_of_lt hx (by omega)]
      simp
  · simp [hs]

theorem mul_or (hy : y < 2 ^ s) (n : Nat) : n * 2 ^ s ||| y = n * 2 ^ s + y := by
  rw [← Nat.shiftLeft_eq, Nat.shiftLeft_add_eq_or_of_lt hy]

end Lib
