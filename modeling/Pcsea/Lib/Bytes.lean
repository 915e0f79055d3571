import Mathlib.Data.List.Basic
import Mathlib.Logic.Function.Basic
/-!
# Runs of cells in a memory

A memory gives the contents of the cells it has. `StandsAt m p l`: the cells
from `p` on hold the elements of `l`. `writeAt m p l` is the memory after a
loop that stores the elements of `l` one after the other from `p` on.
-/

namespace Lib

universe u
variable {α : Type u} {m : Nat → Option α} {p q a i : Nat} {l l' : List α} {c : α}

/-- The cells from `p` on hold `l`. -/
def StandsAt (m : Nat → Option α) (p : Nat) (l : List α) : Prop := ∀ i, ∀ h : i < l.length, m (p + i) = some l[i]

/-- `n` cells from `p` on are there. -/
def Mapped (m : Nat → Option α) (p n : Nat) : Prop := ∀ i < n, (m (p + i)).isSome

/-- `m` with `l` in the cells from `p` on. -/
def writeAt (m : Nat → Option α) (p : Nat) : List α → Nat → Option α
  | [] => m
  | c :: l => writeAt (Function.update m p (some c)) (p + 1) l

@[simp] theorem writeAt_nil : writeAt m p [] = m := rfl

@[simp] theorem writeAt_cons : writeAt m p (c :: l) = writeAt (Function.update m p (some c)) (p + 1) l := rfl

theorem writeAt_append : writeAt m p (l ++ l') = writeAt (writeAt m p l) (p + l.length) l' := by
  induction l generalizing m p with
  | nil => rfl
  | cons c l ih =>
    rw [List.cons_append, writeAt_cons, ih, writeAt_cons, List.length_cons, Nat.add_assoc, Nat.add_comm 1]

/-- The other cells are left alone. -/
theorem writeAt_of_not_mem (h : a < p ∨ p + l.length ≤ a) : writeAt m p l a = m a := by
  induction l generalizing m p with
  | nil => rfl
  | cons c l ih =>
    rw [List.length_cons] at h
    rw [writeAt_cons, ih (by omega), Function.update_of_ne (by omega)]

theorem writeAt_update (h : a < p ∨ p + l.length ≤ a) :
    writeAt (Function.update m a (some c)) p l = Function.update (writeAt m p l) a (some c) := by
  induction l generalizing m p with
  | nil => rfl
  | cons d l ih =>
    rw [List.length_cons] at h
    rw [writeAt_cons, Function.update_comm (by omega), ih (by omega), writeAt_cons]

theorem standsAt_nil : StandsAt m p [] := by
  intro i h
  simp at h

theorem standsAt_cons : StandsAt m p (c :: l) ↔ m p = some c ∧ StandsAt m (p + 1) l := by
  constructor
  · intro h
    refine ⟨h 0 (by simp), fun i hi => ?_⟩
    have := h (i + 1) (by simpa using hi)
    rwa [List.getElem_cons_succ, ← Nat.add_assoc, Nat.add_right_comm] at this
  · rintro ⟨hc, hl⟩ i hi
    cases i with
    | zero => exact hc
    | succ i =>
      have := hl i (by simpa using hi)
      rwa [Nat.add_right_comm, Nat.add_assoc] at this

theorem standsAt_append : StandsAt m p (l ++ l') ↔ StandsAt m p l ∧ StandsAt m (p + l.length) l' := by
  induction l generalizing p with
  | nil => simp [standsAt_nil]
  | cons c l ih =>
    rw [List.cons_append, standsAt_cons, ih, standsAt_cons, List.length_cons, Nat.add_assoc p 1, Nat.add_comm 1, and_assoc]

theorem standsAt_writeAt : StandsAt (writeAt m p l) p l := by
  induction l generalizing m p with
  | nil => exact standsAt_nil
  | cons c l ih =>
    refine standsAt_cons.2 ⟨?_, ih⟩
    rw [writeAt_cons, writeAt_of_not_mem (.inl (by omega)), Function.update_self]

theorem StandsAt.congr {m' : Nat → Option α} (h : StandsAt m p l) (hm : ∀ a, p ≤ a → a < p + l.length → m' a = m a) :
    StandsAt m' p l := by
  intro i hi
  rw [hm (p + i) (by omega) (by omega)]
  exact h i hi

theorem Mapped.mono {n k : Nat} (h : Mapped m p n) (hk : k ≤ n) : Mapped m p k := fun i hi => h i (by omega)

theorem mapped_succ {n : Nat} : Mapped m p (n + 1) ↔ (m p).isSome ∧ Mapped m (p + 1) n := by
  constructor
  · intro h
    refine ⟨h 0 (by omega), fun i hi => ?_⟩
    have := h (i + 1) (by omega)
    rwa [← Nat.add_assoc, Nat.add_right_comm] at this
  · rintro ⟨h₀, h⟩ i hi
    cases i with
    | zero => exact h₀
    | succ i =>
      have := h i (by omega)
      rwa [Nat.add_right_comm, Nat.add_assoc] at this

/-- Storing unmaps nothing. -/
theorem isSome_update (h : (m a).isSome) : (Function.update m p (some c) a).isSome := by
  by_cases hp : a = p
  · simp [hp]
  · rwa [Function.update_of_ne hp]

theorem isSome_writeAt (h : (m a).isSome) : (writeAt m p l a).isSome := by
  induction l generalizing m p with
  | nil => exact h
  | cons c l ih => exact ih (isSome_update h)

theorem Mapped.update {n : Nat} (h : Mapped m p n) : Mapped (Function.update m a (some c)) p n := fun i hi => isSome_update (h i hi)

/-! ## Memories without holes -/

/-- `m` with `l` in the cells from `a` on. -/
def storeAt (m : Nat → α) (a : Nat) (l : List α) : Nat → α := fun x => if h : a ≤ x ∧ x < a + l.length then l[x - a] else m x

section StoreAt

variable {m : Nat → α} {x : Nat}

theorem storeAt_of_mem (h₁ : a ≤ x) (h₂ : x < a + l.length) : storeAt m a l x = l[x - a] := dif_pos ⟨h₁, h₂⟩

theorem storeAt_of_not_mem (h : x < a ∨ a + l.length ≤ x) : storeAt m a l x = m x := dif_neg (by omega)

theorem storeAt_nil : storeAt m a [] = m := by
  funext x
  exact storeAt_of_not_mem (by rw [List.length_nil]; omega)

theorem storeAt_cons : storeAt (Function.update m a c) (a + 1) l = storeAt m a (c :: l) := by
  funext x
  by_cases h₁ : a + 1 ≤ x ∧ x < a + 1 + l.length
  · rw [storeAt_of_mem h₁.1 h₁.2, storeAt_of_mem (by omega) (by rw [List.length_cons]; omega), List.getElem_cons, dif_neg (by omega)]
    rfl
  · rw [storeAt_of_not_mem (by omega)]
    by_cases h₂ : x = a
    · subst h₂
      rw [Function.update_self, storeAt_of_mem (Nat.le_refl x) (by rw [List.length_cons]; omega)]
      simp only [Nat.sub_self, List.getElem_cons_zero]
    · rw [Function.update_of_ne h₂, storeAt_of_not_mem (by rw [List.length_cons]; omega)]

theorem storeAt_append : storeAt (storeAt m a l) (a + l.length) l' = storeAt m a (l ++ l') := by
  induction l generalizing m a with
  | nil => rw [storeAt_nil]; rfl
  | cons c l ih => rw [← storeAt_cons, List.length_cons, Nat.add_comm l.length, ← Nat.add_assoc, ih, storeAt_cons, List.cons_append]

theorem standsAt_some : StandsAt (fun x => some (m x)) a l ↔ ∀ i, ∀ h : i < l.length, m (a + i) = l[i] := by
  simp only [StandsAt, Option.some.injEq]

end StoreAt

/-! ## Loops that fill a table -/

/-- A loop that stores `v i` in the place `c + i`, for `i` below `n`. -/
theorem foldl_update_range {β : Type u} (n c : Nat) (v : Nat → β) (t : Nat → β) (j : Nat) :
    (List.range n).foldl (fun t i => Function.update t (c + i) (v i)) t j = if c ≤ j ∧ j < c + n then v (j - c) else t j := by
  induction n with
  | zero =>
    rw [if_neg (by omega)]
    rfl
  | succ n ih =>
    rw [List.range_succ, List.foldl_append, List.foldl_cons, List.foldl_nil]
    by_cases hj : j = c + n
    · subst hj
      rw [Function.update_self, if_pos (by omega), Nat.add_sub_cancel_left]
    · rw [Function.update_of_ne hj, ih]
      congr 1
      simp only [eq_iff_iff]
      omega

end Lib
