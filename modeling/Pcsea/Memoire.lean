import Pcsea.Fault
import Pcsea.Lib.Bytes
/-!
# The memory of characters

A memory has the cells the program may use and no other, so an access outside
of a buffer is a fault. An address is a `Nat`, a `char` is an `Int`.
-/

namespace Pcsea

open Lib

abbrev Memoire := Nat → Option Int

/-- `*p`. -/
def lire (m : Memoire) (p : Nat) : Except Fault Int :=
  match m p with
  | some c => .ok c
  | none => .error .outOfBounds

/-- `*p = c`. -/
def ecrire (m : Memoire) (p : Nat) (c : Int) : Except Fault Memoire :=
  if (m p).isSome then .ok (Function.update m p (some c)) else .error .outOfBounds

/-- The value of an `int` kept in a `char`. -/
def toChar (v : Int) : Int := (v + 128) % 256 - 128

/-- The value of a `char` read as an `unsigned char`. -/
def toUchar (v : Int) : Nat := (v % 256).toNat

variable {m : Memoire} {p : Nat} {c : Int}

theorem lire_eq (h : m p = some c) : lire m p = .ok c := by rw [lire, h]

theorem ecrire_eq (h : (m p).isSome) : ecrire m p c = .ok (Function.update m p (some c)) := if_pos h

theorem ecrire_faute (h : m p = none) : ecrire m p c = .error .outOfBounds := if_neg (by simp [h])

/-- The string at `p`: its characters less the terminator. -/
structure Chaine (m : Memoire) (p : Nat) (l : List Int) : Prop where
  texte : StandsAt m p (l ++ [0])
  nonNul : ∀ c ∈ l, c ≠ 0
  char : ∀ c ∈ l, -128 ≤ c ∧ c ≤ 127

theorem chaine_nil : Chaine m p [] ↔ m p = some 0 := by
  constructor
  · intro h
    exact (standsAt_cons.1 h.texte).1
  · intro h
    exact ⟨standsAt_cons.2 ⟨h, standsAt_nil⟩, by simp, by simp⟩

theorem chaine_cons {l : List Int} : Chaine m p (c :: l) ↔ m p = some c ∧ c ≠ 0 ∧ (-128 ≤ c ∧ c ≤ 127) ∧ Chaine m (p + 1) l := by
  constructor
  · rintro ⟨h, hn, hb⟩
    obtain ⟨hc, hl⟩ := standsAt_cons.1 h
    exact ⟨hc, hn c (by simp), hb c (by simp), hl, fun c hc => hn c (by simp [hc]), fun c hc => hb c (by simp [hc])⟩
  · rintro ⟨hc, h0, hb, hl, hn, hr⟩
    exact ⟨standsAt_cons.2 ⟨hc, hl⟩, by simpa [h0] using hn, List.forall_mem_cons.2 ⟨hb, hr⟩⟩

end Pcsea
