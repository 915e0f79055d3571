import Mathlib.Algebra.Order.Ring.Int
import Mathlib.Logic.Function.Basic
import Pcsea.Lib.Outcome
/-!
# Faults

What stops a kernel computation: the C code would dereference NULL, fail an
`assert`, leave an array, use a freed block, overflow an `int`, divide by zero
or loop for ever. A modelled function returns `Except Fault`, so a fault is a
result one can reason about.
-/

namespace Pcsea

inductive Fault where
  | nullDeref
  | assertFailed
  | outOfBounds
  | useAfterFree
  | intOverflow
  | divByZero
  | diverge
  deriving DecidableEq, Repr

/-- How a computation failed, if it did. -/
def faute {α : Type} : Except Fault α → Option Fault
  | .ok _ => none
  | .error x => some x

theorem faute_eq_some {α : Type} {c : Except Fault α} {x : Fault} : faute c = some x ↔ c = .error x := by
  cases c <;> simp [faute]

/-- `*p`. -/
def deref {α : Type} : Option α → Except Fault α
  | some a => .ok a
  | none => .error .nullDeref

@[simp] theorem deref_some {α : Type} (a : α) : deref (some a) = .ok a := rfl

@[simp] theorem deref_none {α : Type} : deref (none : Option α) = .error .nullDeref := rfl

theorem deref_eq_ok {α : Type} {p : Option α} {a : α} : deref p = .ok a ↔ p = some a := by
  cases p with
  | none => simp
  | some b => simp

/-- `assert(b)`. -/
def assert (b : Bool) : Except Fault Unit := if b then .ok () else .error .assertFailed

@[simp] theorem assert_true : assert true = .ok () := rfl

@[simp] theorem assert_false : assert false = .error .assertFailed := rfl

/-- `a + b` on `int`. -/
def addInt (a b : Int) : Except Fault Int :=
  if -2 ^ 31 ≤ a + b ∧ a + b < 2 ^ 31 then .ok (a + b) else .error .intOverflow

theorem addInt_ok {a b : Int} (h₁ : 0 ≤ a + b) (h₂ : a + b < 2 ^ 31) : addInt a b = .ok (a + b) :=
  if_pos ⟨by omega, h₂⟩

/-- `a % b` on `int`. -/
def modInt (a b : Int) : Except Fault Int :=
  if b = 0 then .error .divByZero else .ok (a.tmod b)

/-- The bits of an `int` read as a `uint32_t`. -/
def toUint32 (a : Int) : Nat := (a % 2 ^ 32).toNat

/-- `n + 1` on `uint32_t`. -/
def succUint32 (n : Nat) : Nat := (n + 1) % 2 ^ 32

/-- `n - 1` on `uint32_t`. -/
def predUint32 (n : Nat) : Nat := (n + 2 ^ 32 - 1) % 2 ^ 32

/-- The bits of a `uint32_t` read as an `int`. -/
def toInt32 (n : Nat) : Int := if n < 2 ^ 31 then n else n - 2 ^ 32

end Pcsea
