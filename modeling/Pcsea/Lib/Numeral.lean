import Mathlib.Data.Nat.Digits.Defs
import Mathlib.Data.Nat.Digits.Lemmas
/-!
# Numerals

The digits of a number in a base, the most significant first; zero has one
digit. `value` reads them back, as a scanner does, one digit after the other.
-/

namespace Lib

variable {b u v n d : Nat} {l m : List Nat}

def numeral (b u : Nat) : List Nat := if u = 0 then [0] else (Nat.digits b u).reverse

/-- The last digit comes after those of the quotient. -/
theorem numeral_step (hb : 2 ≤ b) : numeral b u = (if u / b = 0 then [] else numeral b (u / b)) ++ [u % b] := by
  unfold numeral
  by_cases hu : u = 0
  · simp [hu]
  · rw [if_neg hu, Nat.digits_def' hb (by omega), List.reverse_cons]
    by_cases hq : u / b = 0
    · simp [hq]
    · rw [if_neg hq, if_neg hq]

theorem numeral_lt (hb : 2 ≤ b) (h : d ∈ numeral b u) : d < b := by
  unfold numeral at h
  split at h
  · rw [List.mem_singleton.1 h]
    omega
  · exact Nat.digits_lt_base hb (List.mem_reverse.1 h)

theorem numeral_ne_nil (b u : Nat) : numeral b u ≠ [] := by
  unfold numeral
  split
  · simp
  · next hu => simpa [Nat.digits_eq_nil_iff_eq_zero] using hu

theorem numeral_length_le (hb : 2 ≤ b) (hn : 0 < n) (h : u < b ^ n) : (numeral b u).length ≤ n := by
  unfold numeral
  split
  · exact hn
  · rw [List.length_reverse]
    exact (Nat.digits_length_le_iff hb u).2 h

/-! ## Reading -/

/-- The value of the digits `l` after those of value `v`. -/
def value (b v : Nat) (l : List Nat) : Nat := l.foldl (fun v d => v * b + d) v

@[simp] theorem value_nil (b v : Nat) : value b v [] = v := rfl

@[simp] theorem value_cons (b v d : Nat) (l : List Nat) : value b v (d :: l) = value b (v * b + d) l := rfl

theorem value_append (b v : Nat) (l m : List Nat) : value b v (l ++ m) = value b (value b v l) m := List.foldl_append

/-- Reading on never lowers the value. -/
theorem le_value (hb : 1 ≤ b) : v ≤ value b v l := by
  induction l generalizing v with
  | nil => exact le_rfl
  | cons d l ih =>
    have hv : v ≤ v * b := Nat.le_mul_of_pos_right v hb
    exact (hv.trans (Nat.le_add_right _ d)).trans ih

theorem value_zeros (b k : Nat) (l : List Nat) : value b 0 (List.replicate k 0 ++ l) = value b 0 l := by
  induction k with
  | zero => rfl
  | succ k ih =>
    rw [List.replicate_succ, List.cons_append, value_cons, Nat.zero_mul]
    exact ih

theorem value_numeral (hb : 2 ≤ b) (u : Nat) : value b 0 (numeral b u) = u := by
  induction u using Nat.strong_induction_on with
  | _ u ih =>
    rw [numeral_step hb, value_append]
    split
    · next hq =>
      have hlt : u < b := (Nat.div_eq_zero_iff.1 hq).resolve_left (by omega)
      simp [Nat.mod_eq_of_lt hlt]
    · next hq =>
      have hu : u ≠ 0 := by
        rintro rfl
        simp at hq
      rw [ih _ (Nat.div_lt_self (by omega) hb), value_cons, value_nil]
      exact Nat.div_add_mod' u b

end Lib
