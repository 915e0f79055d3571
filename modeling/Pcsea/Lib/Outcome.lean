import Mathlib.Logic.Basic
/-!
# Outcomes of fallible computations

`Ensures E x Q`: the computation `x` either returns a value satisfying `Q` or
fails with an error satisfying `E`. With `E` false this is total correctness,
with `E` true partial correctness; in between it says which failures remain
possible.
-/

namespace Lib

universe u v
variable {ε : Type u} {α β : Type v} {E E' : ε → Prop} {Q Q' : α → Prop}

/-- `x` returns a value satisfying `Q`, or fails with an error satisfying `E`. -/
def Ensures (E : ε → Prop) (x : Except ε α) (Q : α → Prop) : Prop :=
  match x with
  | .ok a => Q a
  | .error e => E e

@[simp] theorem ensures_ok (a : α) : Ensures E (.ok a) Q ↔ Q a := Iff.rfl

@[simp] theorem ensures_pure (a : α) : Ensures E (pure a : Except ε α) Q ↔ Q a := Iff.rfl

@[simp] theorem ensures_error (e : ε) : Ensures E (.error e : Except ε α) Q ↔ E e := Iff.rfl

@[simp] theorem ok_bind (a : α) (f : α → Except ε β) : (Except.ok a >>= f) = f a := rfl

@[simp] theorem error_bind (e : ε) (f : α → Except ε β) : (Except.error e >>= f) = .error e := rfl

theorem bind_eq_ok {x : Except ε α} {f : α → Except ε β} {b : β} :
    (x >>= f) = .ok b ↔ ∃ a, x = .ok a ∧ f a = .ok b := by
  cases x with
  | ok a => simp
  | error e => simp

/-- A computation whose last step pairs the value with a fixed answer. -/
theorem bind_answer_eq_ok {γ : Type v} {x : Except ε α} {a : α} {b c : γ} :
    (x >>= fun a => .ok (b, a)) = .ok (c, a) ↔ x = .ok a ∧ b = c := by
  rw [bind_eq_ok]
  constructor
  · rintro ⟨a', hx, ha⟩
    obtain ⟨hb, rfl⟩ := Prod.mk.inj (Except.ok.inj ha)
    exact ⟨hx, hb⟩
  · rintro ⟨hx, rfl⟩
    exact ⟨a, hx, rfl⟩

theorem toOption_eq_some {x : Except ε α} {a : α} : x.toOption = some a ↔ x = .ok a := by
  cases x with
  | ok b => simp [Except.toOption]
  | error e => simp [Except.toOption]

/-- The answer of a computation is known, the value it is paired with is not. -/
theorem ok_of_answer {γ : Type v} {x : Except ε (γ × α)} {c : γ} (h : x.toOption.map Prod.fst = some c) :
    ∃ a, x = .ok (c, a) := by
  cases x with
  | ok r =>
    obtain rfl : r.1 = c := Option.some.inj h
    exact ⟨r.2, rfl⟩
  | error e => cases h

/-- Sequencing: what the first half ensures is what the second half may use. -/
theorem Ensures.bind {x : Except ε α} {f : α → Except ε β} {R : β → Prop}
    (hx : Ensures E x Q) (hf : ∀ a, Q a → Ensures E (f a) R) : Ensures E (x >>= f) R := by
  cases x with
  | ok a => exact hf a hx
  | error e => exact hx

theorem Ensures.mono {x : Except ε α} (h : Ensures E x Q) (hE : ∀ e, E e → E' e) (hQ : ∀ a, Q a → Q' a) :
    Ensures E' x Q' := by
  cases x with
  | ok a => exact hQ a h
  | error e => exact hE e h

theorem Ensures.post {x : Except ε α} (h : Ensures E x Q) (hQ : ∀ a, Q a → Q' a) : Ensures E x Q' :=
  h.mono (fun _ he => he) hQ

theorem Ensures.of_ok {x : Except ε α} {a : α} (h : Ensures E x Q) (hx : x = .ok a) : Q a := by
  subst hx; exact h

theorem Ensures.of_error {x : Except ε α} {e : ε} (h : Ensures E x Q) (hx : x = .error e) : E e := by
  subst hx; exact h

/-- A total computation returns. -/
theorem Ensures.returns {x : Except ε α} (h : Ensures (fun _ => False) x Q) : ∃ a, x = .ok a ∧ Q a := by
  cases x with
  | ok a => exact ⟨a, rfl, h⟩
  | error e => exact h.elim

/-- Total correctness is correctness whatever errors are allowed. -/
theorem Ensures.weaken {x : Except ε α} (h : Ensures (fun _ => False) x Q) : Ensures E x Q :=
  h.mono (fun _ he => he.elim) fun _ hq => hq

theorem Ensures.and {x : Except ε α} (h : Ensures E x Q) (h' : Ensures E x Q') :
    Ensures E x (fun a => Q a ∧ Q' a) := by
  cases x with
  | ok a => exact ⟨h, h'⟩
  | error e => exact h

/-- Partial correctness, read off the results. -/
theorem ensures_of_ok {x : Except ε α} (h : ∀ a, x = .ok a → Q a) : Ensures (fun _ => True) x Q := by
  cases x with
  | ok a => exact h a rfl
  | error e => exact trivial

end Lib
