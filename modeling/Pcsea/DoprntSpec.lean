import Pcsea.Doprnt
import Pcsea.Lib.Numeral
import Mathlib.Tactic.IntervalCases
/-!
# What `_doprnt` puts for a number
-/

namespace Pcsea

open Lib

variable {base u n : Nat} {buf l : List Int} {d : Directive} {v : Int}

/-- The character of a digit. -/
def chiffre (x : Nat) : Int := if x < 10 then 48 + x else 87 + x

/-- The bases of the conversions. -/
def Courante (base : Nat) : Prop := 2 ≤ base ∧ base ≤ 16

theorem digits_get {x : Nat} (h : x < 16) : digits[x]? = some (chiffre x) := by
  interval_cases x <;> rfl

theorem chiffres_spec (hb : Courante base) (hn : 0 < n) (hu : u < base ^ n) :
    chiffres base n u buf = .ok ((numeral base u).map chiffre ++ buf) := by
  obtain ⟨h₂, h₁₆⟩ := hb
  induction n generalizing u buf with
  | zero => omega
  | succ n ih =>
    have hx : u % base < 16 := (Nat.mod_lt u (by omega)).trans_le h₁₆
    rw [chiffres, if_neg (by omega), digits_get hx]
    dsimp only
    rw [numeral_step h₂]
    split
    · rfl
    · next hq =>
      have hn' : 0 < n := by
        by_contra h0
        obtain rfl : n = 0 := by omega
        rw [zero_add, pow_one] at hu
        exact hq (Nat.div_eq_of_lt hu)
      rw [ih hn' (Nat.div_lt_of_lt_mul (by rwa [pow_succ'] at hu))]
      simp

/-- The width and the precision are such that nothing overflows. -/
structure Directive.Petite (d : Directive) : Prop where
  length : 0 ≤ d.length ∧ d.length ≤ 2 ^ 30
  prec : -2 ^ 30 ≤ d.prec ∧ d.prec ≤ 2 ^ 30
  padc : d.padc = 32 ∨ d.padc = 48

theorem remplit_spec {c length : Int} (h : -2 ^ 31 < length) :
    remplit c length = .ok (List.replicate length.toNat c, min length 0 - 1) := by
  rw [remplit, addInt, if_pos (by omega)]
  rfl

theorem prefixe_length : (prefixe base u d).length ≤ 2 := by
  unfold prefixe
  split
  · split
    · simp
    · split <;> simp
  · simp

/-- A number stands between blanks, with zeros before its digits; the field is as wide as it was asked to be, and no wider than what it
shows needs. -/
theorem printNumChamp_spec (signChar : Int) (hb : Courante base) (hu : u < 2 ^ 32) (hd : d.Petite) :
    ∃ a z b, printNumChamp base u signChar d = .ok (List.replicate a 32 ++ signeDe signChar ++ prefixe base u d ++
        List.replicate z 48 ++ (numeral base u).map chiffre ++ List.replicate b 32) ∧
      a + (signeDe signChar).length + (prefixe base u d).length + z + (numeral base u).length + b =
        max d.length.toNat ((signeDe signChar).length + (prefixe base u d).length + max d.prec.toNat (numeral base u).length) := by
  obtain ⟨⟨hl₀, hl₁⟩, ⟨hp₀, hp₁⟩, hpad⟩ := hd
  have hpow : u < base ^ MAXBUF := hu.trans_le (Nat.pow_le_pow_left hb.1 32)
  have hlen : (numeral base u).length ≤ 32 := numeral_length_le hb.1 (by decide) hpow
  have hpre : (prefixe base u d).length ≤ 2 := prefixe_length
  have hsgn : (signeDe signChar).length ≤ 1 := by
    unfold signeDe
    split <;> simp
  unfold printNumChamp
  rw [chiffres_spec hb (by decide) hpow, List.append_nil, ok_bind]
  generalize prefixe base u d = P at hpre
  generalize signeDe signChar = S at hsgn
  rw [List.length_map]
  generalize (numeral base u).map chiffre = buf
  generalize (numeral base u).length = k at hlen
  rw [addInt, if_pos (by omega), ok_bind, addInt, if_pos (by omega), ok_bind]
  generalize hq : d.prec + -(k : Int) = prec
  generalize hL : d.length + -((k : Int) + S.length + P.length + max prec 0) = length
  have hlo : -2 ^ 31 < length := by omega
  have hzeros : remplit 48 prec = _ := remplit_spec (by omega)
  rcases hpad with hpad | hpad
  · cases hadj : d.ladjust with
    | false =>
      refine ⟨length.toNat, prec.toNat, 0, ?_, by omega⟩
      simp [remplitSi, hpad, hzeros, remplit_spec hlo]
    | true =>
      refine ⟨0, prec.toNat, length.toNat, ?_, by omega⟩
      simp [remplitSi, hpad, hzeros, remplit_spec hlo]
  -- Zeros fill the field whatever the adjustment, and leave nothing for the blanks.
  · refine ⟨0, prec.toNat + length.toNat, 0, ?_, by omega⟩
    have hrest : (min length 0 - 1).toNat = 0 := by omega
    rw [List.replicate_add]
    cases hadj : d.ladjust with
    | false => simp [remplitSi, hpad, hzeros, remplit_spec hlo, -List.replicate_append_replicate]
    | true =>
      simp [remplitSi, hpad, hzeros, remplit_spec hlo, -List.replicate_append_replicate, hrest,
        remplit_spec (by omega : -2 ^ 31 < min length 0 - 1)]

end Pcsea
