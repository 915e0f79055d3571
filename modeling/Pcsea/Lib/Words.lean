import Mathlib.Algebra.Group.Nat.Defs
import Mathlib.Data.Nat.Basic
import Mathlib.Logic.Function.Basic
/-!
# Words in a memory of bytes

`word m a` is the 32-bit number in the four bytes from `a` on, the least
significant first; `putWord` stores one. `putWords` is a loop that stores one
word after the other.
-/

namespace Lib

variable {m : Nat → Nat} {a b v x n j : Nat} {f : Nat → Nat}

def word (m : Nat → Nat) (a : Nat) : Nat := m a + 2 ^ 8 * m (a + 1) + 2 ^ 16 * m (a + 2) + 2 ^ 24 * m (a + 3)

def putWord (m : Nat → Nat) (a v : Nat) : Nat → Nat := fun x =>
  if x = a then v % 2 ^ 8
  else if x = a + 1 then v / 2 ^ 8 % 2 ^ 8
  else if x = a + 2 then v / 2 ^ 16 % 2 ^ 8
  else if x = a + 3 then v / 2 ^ 24 % 2 ^ 8
  else m x

theorem putWord_of_not_mem (h : x < a ∨ a + 4 ≤ x) : putWord m a v x = m x := by
  unfold putWord
  rw [if_neg (by omega), if_neg (by omega), if_neg (by omega), if_neg (by omega)]

theorem word_putWord (hv : v < 2 ^ 32) : word (putWord m a v) a = v := by
  simp [word, putWord]
  omega

theorem putWord_word (h : ∀ x, m x < 2 ^ 8) : putWord m a (word m a) = m := by
  funext x
  have h₀ := h a
  have h₁ := h (a + 1)
  have h₂ := h (a + 2)
  have h₃ := h (a + 3)
  unfold putWord word
  split
  · rw [‹x = a›]
    omega
  split
  · rw [‹x = a + 1›]
    omega
  split
  · rw [‹x = a + 2›]
    omega
  split
  · rw [‹x = a + 3›]
    omega
  rfl

theorem word_congr {m' : Nat → Nat} (h : ∀ x, a ≤ x → x < a + 4 → m' x = m x) : word m' a = word m a := by
  rw [word, word, h a (by omega) (by omega), h (a + 1) (by omega) (by omega), h (a + 2) (by omega) (by omega),
    h (a + 3) (by omega) (by omega)]

theorem word_putWord_of_disjoint (h : b + 4 ≤ a ∨ a + 4 ≤ b) : word (putWord m a v) b = word m b :=
  word_congr fun _ hx hx' => putWord_of_not_mem (by omega)

/-! ## Loops -/

/-- `for (i = 0; i < n; i++) t[i] = f(i)`, where `t` is at `a`. -/
def putWords (a : Nat) (f : Nat → Nat) : Nat → (Nat → Nat) → Nat → Nat
  | 0, m => m
  | n + 1, m => putWord (putWords a f n m) (a + 4 * n) (f n)

theorem putWords_of_not_mem (h : x < a ∨ a + 4 * n ≤ x) : putWords a f n m x = m x := by
  induction n with
  | zero => rfl
  | succ n ih => rw [putWords, putWord_of_not_mem (by omega), ih (by omega)]

theorem word_putWords (hf : ∀ i < n, f i < 2 ^ 32) (hj : j < n) : word (putWords a f n m) (a + 4 * j) = f j := by
  induction n with
  | zero => omega
  | succ n ih =>
    rw [putWords]
    by_cases h : j = n
    · subst h
      exact word_putWord (hf j hj)
    · rw [word_putWord_of_disjoint (by omega), ih (fun i hi => hf i (by omega)) (by omega)]

theorem word_putWords_of_disjoint (h : b + 4 ≤ a ∨ a + 4 * n ≤ b) : word (putWords a f n m) b = word m b :=
  word_congr fun _ hx hx' => putWords_of_not_mem (by omega)

end Lib
