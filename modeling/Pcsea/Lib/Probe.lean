import Mathlib.RingTheory.ZMod.UnitsCyclic
/-!
# The probe `x ↦ 5 x + 1`

Modulo a power of two this map has one cycle: from any number, `2 ^ k` steps
go through every remainder. With `y = 4 x + 1` a step multiplies `y` by 5, and
the order of 5 modulo `2 ^ (k + 2)` is `2 ^ k`.
-/

namespace Lib

variable {k n m x y : Nat}

def probeStep (x : Nat) : Nat := 5 * x + 1

theorem probeStep_iterate (x n : Nat) : 4 * probeStep^[n] x + 1 = 5 ^ n * (4 * x + 1) := by
  induction n with
  | zero => simp
  | succ n ih =>
    rw [Function.iterate_succ_apply', probeStep, pow_succ]
    linear_combination 5 * ih

/-- Steps less than a turn apart end on different remainders. -/
theorem probeStep_inj (hn : n < 2 ^ k) (hm : m < 2 ^ k) (h : probeStep^[n] x ≡ probeStep^[m] x [MOD 2 ^ k]) : n = m := by
  have hy : 5 ^ n * (4 * x + 1) ≡ 5 ^ m * (4 * x + 1) [MOD 2 ^ (k + 2)] := by
    rw [← probeStep_iterate, ← probeStep_iterate, pow_add, mul_comm (2 ^ k)]
    exact (h.mul_left' 4).add_right 1
  have hcop : Nat.gcd (2 ^ (k + 2)) (4 * x + 1) = 1 := by
    refine Nat.Coprime.pow_left _ ?_
    exact Nat.coprime_two_left.2 ⟨2 * x, by ring⟩
  have h5 : ((5 : ZMod (2 ^ (k + 2))) ^ n) = 5 ^ m := by
    have := (ZMod.natCast_eq_natCast_iff _ _ _).2 (Nat.ModEq.cancel_right_of_coprime hcop hy)
    simpa using this
  have hord := ZMod.orderOf_five k
  exact pow_injOn_Iio_orderOf (Set.mem_Iio.2 (hord.symm ▸ hn)) (Set.mem_Iio.2 (hord.symm ▸ hm)) h5

/-- A turn goes through every remainder. -/
theorem probeStep_surj (k x : Nat) (hy : y < 2 ^ k) : ∃ n < 2 ^ k, probeStep^[n] x % 2 ^ k = y := by
  let f : Fin (2 ^ k) → Fin (2 ^ k) := fun n => ⟨probeStep^[n] x % 2 ^ k, Nat.mod_lt _ (by positivity)⟩
  have hf : Function.Injective f := by
    intro n m h
    exact Fin.ext (probeStep_inj n.2 m.2 (Fin.mk.inj h))
  obtain ⟨n, hn⟩ := (Finite.injective_iff_surjective.1 hf) ⟨y, hy⟩
  exact ⟨n, n.2, Fin.mk.inj hn⟩

end Lib
