import Mathlib.Data.List.Basic
import Mathlib.Data.List.ReduceOption
import Mathlib.Data.Nat.ModEq
import Mathlib.Logic.Function.Basic
import Pcsea.Lib.Refines
/-!
# Circular buffers

`Wraps buf k d l`: the places of the buffer from `d` on, modulo its size `k`,
hold the list `l`. `runFifo k`: what a queue of `k` places does.
-/

namespace Lib

universe u
variable {α : Type u} {buf : Nat → α} {k d : Nat} {l : List α} {x v : α}

/-- From place `d` on, around `k` places, `buf` holds `l`. -/
def Wraps (buf : Nat → α) (k d : Nat) (l : List α) : Prop := ∀ i (hi : i < l.length), buf ((d + i) % k) = l[i]

theorem Wraps.nil : Wraps buf k d [] := nofun

/-- Two places less than a turn apart are different. -/
theorem turn_inj {i j : Nat} (hi : i < k) (hj : j < k) (h : (d + i) % k = (d + j) % k) : i = j :=
  (Nat.ModEq.add_left_cancel' d h).eq_of_lt_of_lt hi hj

/-- A value is added in the first free place. -/
theorem Wraps.push (h : Wraps buf k d l) (hl : l.length < k) (v : α) :
    Wraps (Function.update buf ((d + l.length) % k) v) k d (l ++ [v]) := by
  intro i hi
  rw [List.length_append, List.length_singleton] at hi
  by_cases hil : i = l.length
  · subst hil
    rw [Function.update_self, List.getElem_append_right le_rfl]
    simp
  · have hlt : i < l.length := by omega
    rw [Function.update_of_ne fun he => hil (turn_inj (by omega) hl he), h i hlt, List.getElem_append_left hlt]

/-- The first value is read at `d`, and the rest starts at the next place. -/
theorem Wraps.pop (h : Wraps buf k d (x :: l)) (hd : d < k) :
    buf d = x ∧ Wraps buf k (if d + 1 = k then 0 else d + 1) l := by
  constructor
  · have h0 := h 0 (by simp)
    rwa [Nat.add_zero, Nat.mod_eq_of_lt hd] at h0
  · intro i hi
    have hs := h (i + 1) (by simpa using hi)
    rw [List.getElem_cons_succ] at hs
    rw [← hs]
    split
    · next he =>
      rw [Nat.zero_add, show d + (i + 1) = i + k by omega, Nat.add_mod_right]
    · rw [show d + 1 + i = d + (i + 1) by omega]

/-! ## Bounded queues -/

inductive FifoOp (α : Type u) where
  | push (v : α)
  | pop

/-- The value an operation gives out and the queue after it. A full queue takes nothing, and an empty one gives nothing. -/
def FifoOp.run (k : Nat) : FifoOp α → List α → Option (Option α × List α)
  | .push v, l => if l.length < k then some (none, l ++ [v]) else none
  | .pop, [] => none
  | .pop, v :: l => some (some v, l)

/-- A sequence of operations. -/
def runFifo (k : Nat) : List (FifoOp α) → List α → Option (List (Option α) × List α) := runAll (FifoOp.run k)

def FifoOp.pushed : FifoOp α → Option α
  | .push v => some v
  | .pop => none

/-- What goes in comes out, in order. -/
theorem runFifo_order {ops : List (FifoOp α)} {rs : List (Option α)} {l' : List α} (h : runFifo k ops l = some (rs, l')) :
    l ++ ops.filterMap FifoOp.pushed = rs.reduceOption ++ l' := by
  induction ops generalizing l rs with
  | nil =>
    cases h
    simp
  | cons op ops ih =>
    obtain ⟨r, l₁, rs', hop, hrun, rfl⟩ := runAll_cons.1 h
    have hi := ih hrun
    cases op with
    | push v =>
      rw [FifoOp.run] at hop
      split at hop
      · cases hop
        rw [List.reduceOption_cons_of_none, ← hi]
        simp [FifoOp.pushed]
      · cases hop
    | pop =>
      cases l with
      | nil => cases hop
      | cons x l =>
        cases hop
        show x :: (l₁ ++ ops.filterMap FifoOp.pushed) = (some x :: rs').reduceOption ++ l'
        rw [hi, List.reduceOption_cons_of_some, List.cons_append]

end Lib
