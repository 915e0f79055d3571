import Pcsea.Doprnt
/-!
# `strtol.c`, `strtoul.c`: reading numbers

The result is the number read and what is left of the string, where `*out_p`
points.
-/

namespace Pcsea

def isspace (c : Int) : Bool := c = 32 ∨ c = 12 ∨ c = 10 ∨ c = 13 ∨ c = 9 ∨ c = 11

/-- The value of a digit, capital letters included. -/
def valeurChiffre (c base : Int) : Option Int :=
  if 48 ≤ c ∧ c ≤ 57 ∧ c - 48 < base then some (c - 48)
  else if 97 ≤ c ∧ c ≤ 122 ∧ c - 97 + 10 < base then some (c - 97 + 10)
  else if 65 ≤ c ∧ c ≤ 90 ∧ c - 65 + 10 < base then some (c - 65 + 10)
  else none

/-- The prefix `0x`, and the base it or a leading zero stands for. -/
def prefixeBase (p : List Int) (base : Int) : List Int × Int :=
  let (p, base) := if (base = 16 ∨ base = 0) ∧ car p = 48 ∧ (car p.tail = 120 ∨ car p.tail = 88) then (p.drop 2, 16) else (p, base)
  if base = 0 then (p, if car p = 48 then 8 else 10) else (p, base)

/-- The loop of `strtol`. -/
def strtolBoucle (base : Int) : List Int → Int → Except Fault (Int × List Int)
  | [], v => .ok (v, [])
  | c :: p, v =>
    match valeurChiffre c base with
    | none => .ok (v, c :: p)
    | some x => do
      let v ← addInt (v * base) x
      strtolBoucle base p v

/-- A `+` is seen, and left in the way. -/
def strtol (p : List Int) (base : Int) : Except Fault (Int × List Int) := do
  let p := p.dropWhile isspace
  let isNeg : Bool := car p = 45
  let p := if isNeg then p.tail else p
  let (p, base) := prefixeBase p base
  let (v, p) ← strtolBoucle base p 0
  let v ← if isNeg then addInt 0 (-v) else .ok v
  .ok (v, p)

/-- The loop of `strtoul`. -/
def strtoulBoucle (base : Int) : List Int → Nat → Nat × List Int
  | [], v => (v, [])
  | c :: p, v =>
    match valeurChiffre c base with
    | none => (v, c :: p)
    | some x => strtoulBoucle base p (toUint32 (v * base + x))

def strtoul (p : List Int) (base : Int) : Nat × List Int :=
  let (p, base) := prefixeBase (p.dropWhile isspace) base
  strtoulBoucle base p 0

end Pcsea
