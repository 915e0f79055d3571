import Pcsea.Fault
import Pcsea.Lib.Division
import Mathlib.Data.Nat.Log
/-!
# `div64.c`: the division of 64-bit numbers

The processor divides a number of two words by one of one word, and traps when
the quotient has more than a word. A divisor of two words is shifted into one.
-/

namespace Pcsea

open Lib

variable {x y n r q x0 x1 y0 y1 : Nat}

/-- `bsr`. -/
def hardBsr (n : Nat) : Nat := Nat.log 2 n

/-- `shrdl`, `testb $32`: what is left in `x0`. -/
def rshift64_32 (x1 x0 n : Nat) : Nat :=
  let x0 := (x1 * 2 ^ 32 + x0) / 2 ^ (n % 32) % 2 ^ 32
  if n.testBit 5 then x1 else x0

/-- `shrdl`, `shrl`, `testb $32`: what is left in `x1` and in `x0`. -/
def rshift64 (x1 x0 n : Nat) : Nat × Nat :=
  let x0 := (x1 * 2 ^ 32 + x0) / 2 ^ (n % 32) % 2 ^ 32
  let x1 := x1 / 2 ^ (n % 32)
  if n.testBit 5 then (0, x1) else (x1, x0)

/-- `divl`: the remainder and the quotient. -/
def div64_32 (x1 x0 y : Nat) : Except Fault (Nat × Nat) :=
  if y = 0 ∨ 2 ^ 32 ≤ (x1 * 2 ^ 32 + x0) / y then .error .divByZero
  else .ok ((x1 * 2 ^ 32 + x0) % y, (x1 * 2 ^ 32 + x0) / y)

/-- `while (r >= y) { x0++; r -= y; }`. -/
def corrige (y : Nat) : Nat → Nat → Nat → Except Fault (Nat × Nat)
  | 0, _, _ => .error .diverge
  | n + 1, x0, r => if y ≤ r then corrige y n (succUint32 x0) (r - y) else .ok (x0, r)

/-- `do_div64`: the quotient and the remainder. -/
def doDiv64 (x y : Nat) : Except Fault (Nat × Nat) :=
  let y1 := y / 2 ^ 32
  let y0 := y % 2 ^ 32
  let x1 := x / 2 ^ 32
  let x0 := x % 2 ^ 32
  if y1 ≠ 0 then do
    let l := hardBsr y1 + 1
    let y0 := rshift64_32 y1 y0 l
    let (x1, x0) := rshift64 x1 x0 l
    let (_, x0) ← div64_32 x1 x0 (succUint32 y0)
    let r := (x + 2 ^ 64 - y * x0 % 2 ^ 64) % 2 ^ 64
    corrige y (r + 1) x0 r
  else if x1 < y0 then do
    let (x1, x0) ← div64_32 x1 x0 y0
    .ok (x0, x1)
  else if y0 ≠ 0 then do
    let (x2, x1) ← div64_32 0 x1 y0
    let (x2, x0) ← div64_32 x2 x0 y0
    .ok (x1 * 2 ^ 32 + x0, x2)
  else .ok (0, x)

theorem div64_32_ok (hx : x1 < y) (h0 : x0 < 2 ^ 32) :
    div64_32 x1 x0 y = .ok ((x1 * 2 ^ 32 + x0) % y, (x1 * 2 ^ 32 + x0) / y) := by
  have hq := digit_lt hx h0
  rw [div64_32, if_neg (by omega)]

theorem corrige_spec (hy : 0 < y) (hn : r < n) (hq : x0 + r / y < 2 ^ 32) : corrige y n x0 r = .ok (x0 + r / y, r % y) := by
  induction n generalizing x0 r with
  | zero => omega
  | succ n ih =>
    rw [corrige]
    split
    · next hr =>
      have hdiv : r / y = (r - y) / y + 1 := Nat.div_eq_sub_div hy hr
      have hlt : x0 + 1 + (r - y) / y < 2 ^ 32 := by
        rw [hdiv] at hq
        rwa [Nat.add_assoc, Nat.add_comm 1]
      have hs : succUint32 x0 = x0 + 1 := Nat.mod_eq_of_lt ((Nat.le_add_right _ _).trans_lt hlt)
      rw [hs, ih (by omega) hlt, ← Nat.mod_eq_sub_mod hr, hdiv, Nat.add_assoc, Nat.add_comm 1]
    · next hr =>
      rw [Nat.div_eq_of_lt (by omega), Nat.mod_eq_of_lt (by omega), Nat.add_zero]

/-! ## The shifts -/

theorem testBit_five {l : Nat} (h : l ≤ 32) : l.testBit 5 = decide (l = 32) := by
  rw [Nat.testBit_eq_decide_div_mod_eq]
  congr 1
  simp only [eq_iff_iff]
  omega

theorem words (x : Nat) : x / 2 ^ 32 * 2 ^ 32 + x % 2 ^ 32 = x := Nat.div_add_mod' x _

/-- A shift of one to 32 places, whose result is kept in one word. -/
theorem rshift64_32_eq {l : Nat} (hl : l ≤ 32) (h : x / 2 ^ l < 2 ^ 32) : rshift64_32 (x / 2 ^ 32) (x % 2 ^ 32) l = x / 2 ^ l := by
  unfold rshift64_32
  dsimp only
  rw [words, testBit_five hl]
  by_cases h32 : l = 32
  · simp [h32]
  · rw [if_neg (by simpa using h32), Nat.mod_eq_of_lt (by omega : l < 32), Nat.mod_eq_of_lt h]

theorem rshift64_eq {l : Nat} (hl : l ≤ 32) (hx : x < 2 ^ 64) :
    rshift64 (x / 2 ^ 32) (x % 2 ^ 32) l = (x / 2 ^ l / 2 ^ 32, x / 2 ^ l % 2 ^ 32) := by
  unfold rshift64
  dsimp only
  rw [words, testBit_five hl]
  by_cases h32 : l = 32
  · subst h32
    have hw : x / 2 ^ 32 < 2 ^ 32 := Nat.div_lt_of_lt_mul (by simpa using hx)
    rw [Nat.div_eq_of_lt hw, Nat.mod_eq_of_lt hw]
    simp
  · rw [if_neg (by simpa using h32), Nat.mod_eq_of_lt (by omega : l < 32), Nat.div_div_eq_div_mul, Nat.div_div_eq_div_mul,
      Nat.mul_comm (2 ^ l)]

/-! ## The division -/

/-- The number of places the divisor is shifted by brings its leading bit to the top of a word. -/
theorem shift_borne (hy : y < 2 ^ 64) (h : y / 2 ^ 32 ≠ 0) :
    hardBsr (y / 2 ^ 32) + 1 ≤ 32 ∧ 2 ^ 31 ≤ y / 2 ^ (hardBsr (y / 2 ^ 32) + 1) ∧ y / 2 ^ (hardBsr (y / 2 ^ 32) + 1) < 2 ^ 32 := by
  have hy1 : y / 2 ^ 32 < 2 ^ 32 := Nat.div_lt_of_lt_mul (by simpa using hy)
  have hlo : 2 ^ hardBsr (y / 2 ^ 32) ≤ y / 2 ^ 32 := Nat.pow_log_le_self 2 h
  have hhi : y / 2 ^ 32 < 2 ^ (hardBsr (y / 2 ^ 32) + 1) := Nat.lt_pow_succ_log_self (by decide) _
  have hl : hardBsr (y / 2 ^ 32) < 32 := Nat.log_lt_of_lt_pow h hy1
  generalize hardBsr (y / 2 ^ 32) = l at hlo hhi hl
  refine ⟨hl, ?_, ?_⟩
  · rw [Nat.le_div_iff_mul_le (Nat.two_pow_pos _)]
    calc 2 ^ 31 * 2 ^ (l + 1) = 2 ^ l * 2 ^ 32 := by ring
      _ ≤ y / 2 ^ 32 * 2 ^ 32 := Nat.mul_le_mul_right _ hlo
      _ ≤ y := Nat.div_mul_le_self y _
  · apply Nat.div_lt_of_lt_mul
    calc y < 2 ^ 32 * (y / 2 ^ 32 + 1) := Nat.lt_mul_div_succ y (Nat.two_pow_pos 32)
      _ ≤ 2 ^ 32 * 2 ^ (l + 1) := Nat.mul_le_mul_left _ hhi
      _ = 2 ^ (l + 1) * 2 ^ 32 := Nat.mul_comm _ _

/-- The divisor shifted into a word has all its bits set, so that one more is zero. -/
def Sature (y : Nat) : Prop := y / 2 ^ 32 ≠ 0 ∧ y / 2 ^ (hardBsr (y / 2 ^ 32) + 1) = 2 ^ 32 - 1

instance : Decidable (Sature y) := inferInstanceAs (Decidable (_ ∧ _))

/-- A divisor of two words. -/
theorem doDiv64_long (hx : x < 2 ^ 64) (hy : y < 2 ^ 64) (h : y / 2 ^ 32 ≠ 0) (hs : ¬Sature y) : doDiv64 x y = .ok (x / y, x % y) := by
  obtain ⟨hl, hlo, hhi⟩ := shift_borne hy h
  have hne : y / 2 ^ (hardBsr (y / 2 ^ 32) + 1) ≠ 2 ^ 32 - 1 := fun he => hs ⟨h, he⟩
  rw [doDiv64]
  dsimp only
  rw [if_pos h]
  have hl1 : 1 ≤ hardBsr (y / 2 ^ 32) + 1 := Nat.le_add_left 1 _
  generalize hardBsr (y / 2 ^ 32) + 1 = l at hl hl1 hlo hhi hne
  -- The dividend of `divl` is below the divisor, so the quotient fits.
  have hx1 : x / 2 ^ l / 2 ^ 32 < y / 2 ^ l + 1 := by
    have hhalf : x / 2 ^ l ≤ x / 2 ^ 1 := Nat.div_le_div_left (Nat.pow_le_pow_right (by decide) hl1) (by decide)
    omega
  have hx0 : x / 2 ^ l % 2 ^ 32 < 2 ^ 32 := Nat.mod_lt _ (Nat.two_pow_pos 32)
  have hsucc : succUint32 (y / 2 ^ l) = y / 2 ^ l + 1 := Nat.mod_eq_of_lt (by omega)
  rw [rshift64_32_eq hl hhi, rshift64_eq hl hx, hsucc]
  dsimp only
  rw [div64_32_ok hx1 hx0, words, ok_bind]
  dsimp only
  -- Dividing by one more than the shifted divisor never gives too much, and `corrige` adds what is missing.
  have hq : y * (x / 2 ^ l / (y / 2 ^ l + 1)) ≤ x := mul_estimate_le (Nat.two_pow_pos l)
  generalize x / 2 ^ l / (y / 2 ^ l + 1) = q at hq
  have hr : (x + 2 ^ 64 - y * q % 2 ^ 64) % 2 ^ 64 = x - y * q := by
    rw [Nat.mod_eq_of_lt (by omega : y * q < 2 ^ 64)]
    omega
  have hy0 : 0 < y := by
    by_contra h0
    exact h (by rw [Nat.eq_zero_of_not_pos h0, Nat.zero_div])
  have hquot : x / y < 2 ^ 32 := by
    apply Nat.div_lt_of_lt_mul
    have : 2 ^ 32 ≤ y := by omega
    calc x < 2 ^ 64 := hx
      _ = 2 ^ 32 * 2 ^ 32 := by decide
      _ ≤ y * 2 ^ 32 := Nat.mul_le_mul_right _ this
  rw [hr, corrige_spec hy0 (Nat.lt_succ_self _) (by rwa [add_div_rest hy0 hq]), add_div_rest hy0 hq, rest_mod hq]

/-- The divisor of two words that the shift fills with ones. -/
theorem doDiv64_sature (hx : x < 2 ^ 64) (hy : y < 2 ^ 64) (hs : Sature y) : doDiv64 x y = .error .divByZero := by
  obtain ⟨hl, -, hhi⟩ := shift_borne hy hs.1
  rw [doDiv64]
  dsimp only
  rw [if_pos hs.1, rshift64_32_eq hl hhi, rshift64_eq hl hx, hs.2]
  rfl

/-- A divisor of one word. -/
theorem doDiv64_court (hx : x < 2 ^ 64) (h : y / 2 ^ 32 = 0) : doDiv64 x y = .ok (x / y, x % y) := by
  have hy : y % 2 ^ 32 = y := Nat.mod_eq_of_lt (by omega)
  have hx0 : x % 2 ^ 32 < 2 ^ 32 := Nat.mod_lt _ (Nat.two_pow_pos 32)
  rw [doDiv64]
  dsimp only
  rw [if_neg (not_not.2 h), hy]
  split
  · next h₁ =>
    rw [div64_32_ok h₁ hx0, words, ok_bind]
  · split
    · next h₀ =>
      have hy0 : 0 < y := Nat.pos_of_ne_zero h₀
      have hx1 : x / 2 ^ 32 < 2 ^ 32 := Nat.div_lt_of_lt_mul (by simpa using hx)
      rw [div64_32_ok hy0 hx1, ok_bind]
      dsimp only
      rw [Nat.zero_mul, Nat.zero_add, div64_32_ok (Nat.mod_lt _ hy0) hx0, ok_bind]
      dsimp only
      rw [← div_digits hy0, ← mod_digits, words]
    · next h₀ =>
      obtain rfl : y = 0 := not_not.1 h₀
      rw [Nat.div_zero, Nat.mod_zero]

/-- `do_div64` gives the quotient and the remainder, those of a division by zero being 0 and the dividend; but it traps when the divisor,
shifted into a word, has all its bits set. -/
theorem doDiv64_spec (hx : x < 2 ^ 64) (hy : y < 2 ^ 64) :
    doDiv64 x y = if Sature y then .error .divByZero else .ok (x / y, x % y) := by
  split
  · next hs => exact doDiv64_sature hx hy hs
  · next hs =>
    by_cases h : y / 2 ^ 32 = 0
    · exact doDiv64_court hx h
    · exact doDiv64_long hx hy h hs

/-- 2^63 by 2^33 - 1, which is shifted into 2^32 - 1. -/
theorem doDiv64_spec_sature : doDiv64 (2 ^ 63) (2 ^ 33 - 1) =
    if Sature (2 ^ 33 - 1) then .error .divByZero else .ok (2 ^ 63 / (2 ^ 33 - 1), 2 ^ 63 % (2 ^ 33 - 1)) :=
  doDiv64_spec (by decide) (by decide)

end Pcsea
