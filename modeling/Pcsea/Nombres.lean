import Pcsea.DoprntSpec
import Pcsea.Strtol
/-!
# Numbers put and read back

Whatever its flags, its width and its precision, what a conversion puts for a
number is read back as that number. A `+` is the exception: `strtol` sees it and
does not go past it.
-/

namespace Pcsea

open Lib

variable {base u b z k v : Nat} {l : List Nat} {p fmt out : List Int} {args : List Argument} {d : Directive} {n c : Int}

/-! ## The loops -/

theorem valeurChiffre_chiffre {x : Nat} (h : x < b) (hb : b ≤ 16) : valeurChiffre (chiffre x) b = some (x : Int) := by
  unfold chiffre
  split
  · rw [valeurChiffre, if_pos (by omega)]
    simp
  · rw [valeurChiffre, if_neg (by omega), if_pos (by omega)]
    congr 1
    omega

/-- `p` does not go on with a digit. -/
def Fini (b : Nat) (p : List Int) : Prop := ∀ c q, p = c :: q → valeurChiffre c b = none

theorem fini_blancs (b k : Nat) : Fini b (List.replicate k 32) := by
  intro c q h
  have hc : c = 32 := List.eq_of_mem_replicate (h ▸ List.mem_cons_self)
  rw [hc, valeurChiffre, if_neg (by omega), if_neg (by omega), if_neg (by omega)]

theorem strtolBoucle_fini (h : Fini b p) : strtolBoucle b p n = .ok (n, p) := by
  cases p with
  | nil => rfl
  | cons c q => rw [strtolBoucle, h c q rfl]

theorem strtolBoucle_spec (hb : 1 ≤ b) (hb' : b ≤ 16) (hl : ∀ x ∈ l, x < b) (hv : value b v l < 2 ^ 31) (hp : Fini b p) :
    strtolBoucle b (l.map chiffre ++ p) v = .ok (value b v l, p) := by
  induction l generalizing v with
  | nil => exact strtolBoucle_fini hp
  | cons x l ih =>
    have hx : v * b + x < 2 ^ 31 := (le_value hb).trans_lt hv
    rw [List.map_cons, List.cons_append, strtolBoucle, valeurChiffre_chiffre (hl x (by simp)) hb']
    dsimp only
    rw [addInt_ok (by positivity) (by exact_mod_cast hx), ok_bind]
    exact_mod_cast ih (fun y hy => hl y (by simp [hy])) hv

theorem strtoulBoucle_spec (hb : 1 ≤ b) (hb' : b ≤ 16) (hl : ∀ x ∈ l, x < b) (hv : value b v l < 2 ^ 32) (hp : Fini b p) :
    strtoulBoucle b (l.map chiffre ++ p) v = (value b v l, p) := by
  induction l generalizing v with
  | nil =>
    cases p with
    | nil => rfl
    | cons c q => rw [List.map_nil, List.nil_append, strtoulBoucle, hp c q rfl, value_nil]
  | cons x l ih =>
    have hx : v * b + x < 2 ^ 32 := (le_value hb).trans_lt hv
    rw [List.map_cons, List.cons_append, strtoulBoucle, valeurChiffre_chiffre (hl x (by simp)) hb']
    dsimp only
    have hw : toUint32 (v * b + x) = v * b + x := by
      rw [toUint32, Int.emod_eq_of_lt (by positivity) (by exact_mod_cast hx)]
      exact_mod_cast Int.toNat_natCast (v * b + x)
    rw [hw]
    exact ih (fun y hy => hl y (by simp [hy])) hv

/-! ## What comes before the digits -/

/-- The bases of the conversions that are read back. -/
def Lue (b : Nat) : Prop := b = 8 ∨ b = 10 ∨ b = 16

theorem Lue.courante (h : Lue b) : Courante b := by
  rcases h with rfl | rfl | rfl <;> exact ⟨by decide, by decide⟩

theorem map_chiffre_zeros : (List.replicate z 0).map chiffre = List.replicate z 48 := by
  rw [List.map_replicate]
  rfl

theorem chiffre_mem {c : Int} (hl : ∀ x ∈ l, x < 16) (h : c ∈ l.map chiffre) : 48 ≤ c ∧ c ≤ 102 ∧ (c ≤ 57 ∨ 97 ≤ c) := by
  obtain ⟨x, hx, rfl⟩ := List.mem_map.1 h
  have := hl x hx
  unfold chiffre
  split <;> omega

/-- Digits are not taken for a prefix. -/
theorem prefixeBase_chiffres (hl : ∀ x ∈ l, x < 16) (hn : l ≠ []) (hp : car p ≠ 120 ∧ car p ≠ 88) (hb : Lue b) :
    prefixeBase (l.map chiffre ++ p) b = (l.map chiffre ++ p, (b : Int)) := by
  have htail : car (l.map chiffre ++ p).tail ≠ 120 ∧ car (l.map chiffre ++ p).tail ≠ 88 := by
    match l, hn with
    | [_], _ => exact hp
    | _ :: x :: _, _ =>
      have := chiffre_mem (c := chiffre x) hl (by simp)
      show chiffre x ≠ 120 ∧ chiffre x ≠ 88
      omega
  rw [prefixeBase, if_neg (by tauto)]
  rcases hb with rfl | rfl | rfl <;> rfl

theorem car_blancs (k : Nat) : car (List.replicate k 32) ≠ 120 ∧ car (List.replicate k 32) ≠ 88 := by
  cases k with
  | zero => decide
  | succ k =>
    rw [List.replicate_succ, car, List.headD_cons]
    decide

/-- The prefix of a number in base 16 is skipped, that of a number in base 8 is a zero. -/
theorem prefixeBase_spec (hb : Lue b) : ∃ z', prefixeBase (prefixe b u d ++ List.replicate z 48 ++ (numeral b u).map chiffre ++
      List.replicate k 32) b = ((List.replicate z' 0 ++ numeral b u).map chiffre ++ List.replicate k 32, (b : Int)) := by
  have hlt : ∀ z', ∀ x ∈ List.replicate z' 0 ++ numeral b u, x < 16 := by
    intro z' x hx
    rcases List.mem_append.1 hx with hx | hx
    · rw [List.eq_of_mem_replicate hx]
      decide
    · exact (numeral_lt hb.courante.1 hx).trans_le hb.courante.2
  have hne : ∀ z', List.replicate z' 0 ++ numeral b u ≠ [] := fun z' h => numeral_ne_nil b u (List.append_eq_nil_iff.1 h).2
  have hnu : prefixeBase (List.replicate z 48 ++ (numeral b u).map chiffre ++ List.replicate k 32) b =
      ((List.replicate z 0 ++ numeral b u).map chiffre ++ List.replicate k 32, (b : Int)) := by
    rw [← map_chiffre_zeros, ← List.map_append]
    exact prefixeBase_chiffres (hlt z) (hne z) (car_blancs k) hb
  unfold prefixe
  split
  · rcases hb with rfl | rfl | rfl
    · refine ⟨z + 1, ?_⟩
      rw [← prefixeBase_chiffres (hlt (z + 1)) (hne (z + 1)) (car_blancs k) (.inl rfl), List.map_append, map_chiffre_zeros, List.replicate_succ]
      rfl
    · exact ⟨z, hnu⟩
    · refine ⟨z, ?_⟩
      rw [List.map_append, map_chiffre_zeros]
      rfl
  · exact ⟨z, by simpa using hnu⟩

theorem dropWhile_blancs (a : Nat) (p : List Int) : (List.replicate a 32 ++ p).dropWhile isspace = p.dropWhile isspace := by
  induction a with
  | zero => rfl
  | succ a ih =>
    rw [List.replicate_succ, List.cons_append, List.dropWhile_cons, if_pos (by decide)]
    exact ih

/-- The body of a number starts with a digit. -/
theorem corps_car : ∃ c q, prefixe b u d ++ List.replicate z 48 ++ (numeral b u).map chiffre ++ List.replicate k 32 =
    c :: q ∧ 48 ≤ c := by
  cases hP : prefixe b u d with
  | cons c q =>
    refine ⟨c, _, rfl, ?_⟩
    unfold prefixe at hP
    split at hP
    · split at hP
      · cases hP
        decide
      · split at hP
        · cases hP
          decide
        · cases hP
    · cases hP
  | nil =>
    cases z with
    | succ z => exact ⟨48, _, rfl, le_rfl⟩
    | zero =>
      cases hN : numeral b u with
      | nil => exact absurd hN (numeral_ne_nil b u)
      | cons x l =>
        refine ⟨chiffre x, _, rfl, ?_⟩
        unfold chiffre
        split <;> omega

theorem corps_dropWhile :
    (prefixe b u d ++ List.replicate z 48 ++ (numeral b u).map chiffre ++ List.replicate k 32).dropWhile isspace =
      prefixe b u d ++ List.replicate z 48 ++ (numeral b u).map chiffre ++ List.replicate k 32 := by
  obtain ⟨c, q, he, hc⟩ := corps_car (b := b) (u := u) (d := d) (z := z) (k := k)
  have hs : isspace c = false := by
    simp only [isspace, decide_eq_false_iff_not]
    omega
  rw [he, List.dropWhile_cons, hs]
  rfl

/-! ## Round trips -/

/-- The digits of a number, with zeros in front, have its value. -/
theorem value_champ (hb : Lue b) (z u : Nat) :
    value b 0 (List.replicate z 0 ++ numeral b u) = u ∧ ∀ x ∈ List.replicate z 0 ++ numeral b u, x < b := by
  obtain ⟨h₂, h₁₆⟩ := hb.courante
  refine ⟨by rw [value_zeros, value_numeral h₂], fun x hx => ?_⟩
  rcases List.mem_append.1 hx with hx | hx
  · rw [List.eq_of_mem_replicate hx]
    omega
  · exact numeral_lt h₂ hx

theorem strtoul_champ (hb : Lue b) (hu : u < 2 ^ 32) (a : Nat) :
    strtoul (List.replicate a 32 ++ (prefixe b u d ++ List.replicate z 48 ++ (numeral b u).map chiffre ++ List.replicate k 32)) b =
      (u, List.replicate k 32) := by
  obtain ⟨z', hz⟩ := prefixeBase_spec (u := u) (d := d) (z := z) (k := k) hb
  rw [strtoul, dropWhile_blancs, corps_dropWhile, hz]
  obtain ⟨hval, hlt⟩ := value_champ hb z' u
  dsimp only
  rw [strtoulBoucle_spec (by have := hb.courante.1; omega) hb.courante.2 hlt (by rwa [hval]) (fini_blancs b k), hval]

/-- What `strtol` does after the sign. -/
theorem strtol_corps (hb : Lue b) (hu : u < 2 ^ 31) : ∃ p, prefixeBase (prefixe b u d ++ List.replicate z 48 ++
      (numeral b u).map chiffre ++ List.replicate k 32) b = (p, (b : Int)) ∧
    strtolBoucle b p 0 = .ok ((u : Int), List.replicate k 32) := by
  obtain ⟨z', hz⟩ := prefixeBase_spec (u := u) (d := d) (z := z) (k := k) hb
  obtain ⟨hval, hlt⟩ := value_champ hb z' u
  have h := strtolBoucle_spec (v := 0) (by have := hb.courante.1; omega) hb.courante.2 hlt (by rwa [hval]) (fini_blancs b k)
  rw [hval] at h
  exact ⟨_, hz, h⟩

theorem strtol_positif (hb : Lue b) (hu : u < 2 ^ 31) (a : Nat) {s : List Int} (hs : s = [] ∨ s = [32]) :
    strtol (List.replicate a 32 ++ (s ++ (prefixe b u d ++ List.replicate z 48 ++ (numeral b u).map chiffre ++
      List.replicate k 32))) b = .ok ((u : Int), List.replicate k 32) := by
  have hdrop : (List.replicate a 32 ++ (s ++ (prefixe b u d ++ List.replicate z 48 ++ (numeral b u).map chiffre ++
      List.replicate k 32))).dropWhile isspace = prefixe b u d ++ List.replicate z 48 ++ (numeral b u).map chiffre ++
      List.replicate k 32 := by
    rw [dropWhile_blancs]
    rcases hs with rfl | rfl
    · exact corps_dropWhile
    · exact (List.dropWhile_cons_of_pos (by decide)).trans corps_dropWhile
  obtain ⟨p, hp, hv⟩ := strtol_corps (z := z) (k := k) (d := d) hb hu
  obtain ⟨c, q, he, hc⟩ := corps_car (b := b) (u := u) (d := d) (z := z) (k := k)
  have hcar : car (prefixe b u d ++ List.replicate z 48 ++ (numeral b u).map chiffre ++ List.replicate k 32) ≠ 45 := by
    rw [he]
    exact fun h => absurd h (by show c ≠ 45; omega)
  rw [strtol, hdrop]
  simp only [hcar, decide_false, Bool.false_eq_true, if_false, hp, hv, ok_bind]

theorem strtol_negatif (hb : Lue b) (hu : u < 2 ^ 31) (a : Nat) :
    strtol (List.replicate a 32 ++ (45 :: (prefixe b u d ++ List.replicate z 48 ++ (numeral b u).map chiffre ++
      List.replicate k 32))) b = .ok (-(u : Int), List.replicate k 32) := by
  obtain ⟨p, hp, hv⟩ := strtol_corps (z := z) (k := k) (d := d) hb hu
  rw [strtol, dropWhile_blancs, List.dropWhile_cons_of_neg (by decide)]
  simp only [car, List.headD_cons, decide_true, if_true, List.tail_cons, hp, hv, ok_bind]
  rw [addInt, if_pos (by omega), zero_add]
  rfl

/-- A `+` stops `strtol` before the first digit. -/
theorem strtol_plus (hb : Lue b) (a : Nat) (q : List Int) :
    strtol (List.replicate a 32 ++ (43 :: q)) b = .ok (0, 43 :: q) := by
  have hv : valeurChiffre 43 b = none := by
    rw [valeurChiffre, if_neg (by omega), if_neg (by omega), if_neg (by omega)]
  have hp : prefixeBase (43 :: q) b = (43 :: q, (b : Int)) := by
    rw [prefixeBase, if_neg (by simp [car])]
    rcases hb with rfl | rfl | rfl <;> rfl
  rw [strtol, dropWhile_blancs, List.dropWhile_cons_of_neg (by decide)]
  simp only [car, List.headD_cons, show (43 : Int) ≠ 45 by decide, decide_false, Bool.false_eq_true, if_false, hp, strtolBoucle, hv,
    ok_bind]

/-! ## Directives -/

/-- What any directive is like. -/
structure Directive.Forme (d : Directive) : Prop where
  length : 0 ≤ d.length
  padc : d.padc = 32 ∨ d.padc = 48
  plusSign : d.plusSign = 0 ∨ d.plusSign = 32 ∨ d.plusSign = 43

theorem drapeaux_forme (h : d.Forme) : (drapeaux fmt d).1.Forme := by
  induction fmt generalizing d with
  | nil => exact h
  | cons c fmt ih =>
    unfold drapeaux
    split
    · exact ih ⟨h.length, h.padc, h.plusSign⟩
    split
    · exact ih ⟨h.length, h.padc, h.plusSign⟩
    split
    · exact ih ⟨h.length, h.padc, .inr (.inr rfl)⟩
    split
    · refine ih ⟨h.length, h.padc, ?_⟩
      dsimp only
      split
      · exact .inr (.inl rfl)
      · exact h.plusSign
    · exact h

theorem entier_nonneg {length : Int} {r : Int × List Int} (h : 0 ≤ length) (ho : entier fmt length = .ok r) : 0 ≤ r.1 := by
  induction fmt generalizing length with
  | nil => exact Except.ok.inj ho ▸ h
  | cons c fmt ih =>
    unfold entier at ho
    split at ho
    · next hc =>
      obtain ⟨m, hm, ho⟩ := bind_eq_ok.1 ho
      refine ih ?_ ho
      simp only [isdigit, decide_eq_true_eq] at hc
      unfold addInt at hm
      split at hm
      · rw [← Except.ok.inj hm]
        omega
      · cases hm
    · exact Except.ok.inj ho ▸ h

theorem largeur_forme {r : Directive × List Int × List Argument} (h : d.Forme) (ho : largeur fmt args d = .ok r) : r.1.Forme := by
  unfold largeur at ho
  split at ho
  · obtain ⟨⟨m, fmt'⟩, hm, ho⟩ := bind_eq_ok.1 ho
    exact Except.ok.inj ho ▸ ⟨entier_nonneg h.length hm, h.padc, h.plusSign⟩
  split at ho
  · obtain ⟨⟨m, args'⟩, hm, ho⟩ := bind_eq_ok.1 ho
    dsimp only at ho
    split at ho
    · obtain ⟨w, hw, ho⟩ := bind_eq_ok.1 ho
      refine Except.ok.inj ho ▸ ⟨?_, h.padc, h.plusSign⟩
      unfold addInt at hw
      split at hw
      · rw [← Except.ok.inj hw]
        show 0 ≤ 0 + -m
        omega
      · cases hw
    · rename_i hneg
      exact Except.ok.inj ho ▸ ⟨Int.not_lt.1 hneg, h.padc, h.plusSign⟩
  · exact Except.ok.inj ho ▸ h

theorem precision_forme {r : Directive × List Int × List Argument} (h : d.Forme) (ho : precision fmt args d = .ok r) : r.1.Forme := by
  unfold precision at ho
  split at ho
  · split at ho
    · obtain ⟨m, -, ho⟩ := bind_eq_ok.1 ho
      exact Except.ok.inj ho ▸ ⟨h.length, h.padc, h.plusSign⟩
    split at ho
    · obtain ⟨m, -, ho⟩ := bind_eq_ok.1 ho
      exact Except.ok.inj ho ▸ ⟨h.length, h.padc, h.plusSign⟩
    · exact Except.ok.inj ho ▸ h
  · exact Except.ok.inj ho ▸ h

/-- A width read off a format or taken from the arguments is not negative. -/
theorem directive_forme {r : Directive × List Int × List Argument} (ho : directive fmt args = .ok r) : r.1.Forme := by
  unfold directive at ho
  have hdef : Directive.Forme .defaut := ⟨le_rfl, .inl rfl, .inl rfl⟩
  have h₁ : (drapeaux fmt .defaut).1.Forme := drapeaux_forme hdef
  generalize drapeaux fmt .defaut = x at h₁ ho
  obtain ⟨d, fmt⟩ := x
  have h₂ : (zeroFmt fmt d).1.Forme := by
    unfold zeroFmt
    split
    · exact ⟨h₁.length, .inr rfl, h₁.plusSign⟩
    · exact h₁
  dsimp only at ho
  generalize zeroFmt fmt d = x at h₂ ho
  obtain ⟨d, fmt⟩ := x
  obtain ⟨⟨d', fmt', args'⟩, h₃, ho⟩ := bind_eq_ok.1 ho
  obtain ⟨⟨d'', fmt'', args''⟩, h₄, ho⟩ := bind_eq_ok.1 ho
  have h₅ : d''.Forme := precision_forme (largeur_forme h₂ h₃) h₄
  exact Except.ok.inj ho ▸ h₅

/-- The width and the precision are reasonable. -/
def Directive.Raisonnable (d : Directive) : Prop := d.length ≤ 2 ^ 30 ∧ -2 ^ 30 ≤ d.prec ∧ d.prec ≤ 2 ^ 30

theorem Directive.Forme.petite (h : d.Forme) (hr : d.Raisonnable) : d.Petite := ⟨⟨h.length, hr.1⟩, hr.2, h.padc⟩

/-- A format that is one directive. -/
theorem doprnt_seul (hd : directive fmt args = .ok (d, [c], [.nombre n])) (ho : conversion 0 c d [.nombre n] = .ok (out, [])) :
    doprnt (37 :: fmt) args 0 = .ok (out, []) := by
  rw [doprnt, List.length_cons, doprntLoop, if_neg (by simp), hd, ok_bind]
  dsimp only
  rw [ho, ok_bind]
  simp [doprntLoop]

/-- The conversions of signed numbers. -/
def Signee (c : Int) (b : Nat) : Prop := (c = 100 ∨ c = 105 ∨ c = 68) ∧ b = 10 ∨ (c = 122 ∨ c = 90) ∧ b = 16

/-- The conversions of unsigned numbers. -/
def NonSignee (c : Int) (b : Nat) : Prop := (c = 111 ∨ c = 79) ∧ b = 8 ∨ (c = 117 ∨ c = 85) ∧ b = 10 ∨ (c = 120 ∨ c = 88) ∧ b = 16

theorem Signee.lue (h : Signee c b) : Lue b := by
  rcases h with ⟨-, rfl⟩ | ⟨-, rfl⟩
  · exact .inr (.inl rfl)
  · exact .inr (.inr rfl)

theorem NonSignee.lue (h : NonSignee c b) : Lue b := by
  rcases h with ⟨-, rfl⟩ | ⟨-, rfl⟩ | ⟨-, rfl⟩
  · exact .inl rfl
  · exact .inr (.inl rfl)
  · exact .inr (.inr rfl)

theorem conversion_signee (h : Signee c b) (ho : printSigned b n d = .ok out) : conversion 0 c d [.nombre n] = .ok (out, []) := by
  have hs : conversion 0 c d [.nombre n] = conversion.signe b d [.nombre n] := by
    rcases h with ⟨rfl | rfl | rfl, rfl⟩ | ⟨rfl | rfl, rfl⟩ <;> rfl
  rw [hs, conversion.signe, vaInt, ok_bind]
  dsimp only
  rw [ho, ok_bind]

theorem conversion_nonSignee (h : NonSignee c b) (ho : printUnsigned b n d = .ok out) :
    conversion 0 c d [.nombre n] = .ok (out, []) := by
  have hs : conversion 0 c d [.nombre n] = conversion.nonSigne b d [.nombre n] := by
    rcases h with ⟨rfl | rfl, rfl⟩ | ⟨rfl | rfl, rfl⟩ | ⟨rfl | rfl, rfl⟩ <;> rfl
  rw [hs, conversion.nonSigne, vaInt, ok_bind]
  dsimp only
  rw [ho, ok_bind]

theorem toUint32_lt (v : Int) : toUint32 v < 2 ^ 32 := by
  unfold toUint32
  omega

/-- Whatever the flags, the width and the precision, `strtol` reads back the `long` that a signed conversion put, unless there is a
`+` before it: then it reads 0, and stops at the `+`. -/
theorem strtol_doprnt (hd : directive fmt args = .ok (d, [c], [.nombre n])) (hr : d.Raisonnable) (hc : Signee c b)
    (h₁ : -2 ^ 31 < n) (h₂ : n < 2 ^ 31) :
    ∃ out, doprnt (37 :: fmt) args 0 = .ok (out, []) ∧
      (¬(0 ≤ n ∧ d.plusSign = 43) → ∃ k, strtol out b = .ok (n, List.replicate k 32)) ∧
      (0 ≤ n ∧ d.plusSign = 43 → ∃ q, strtol out b = .ok (0, 43 :: q)) := by
  have hf := directive_forme hd
  -- `printnum` gets the absolute value, and the sign is put before it.
  by_cases hn : 0 ≤ n
  · have hu : n.toNat < 2 ^ 31 := by omega
    obtain ⟨a, z, k, ho, -⟩ := printNumChamp_spec d.plusSign hc.lue.courante (show n.toNat < 2 ^ 32 by omega) (hf.petite hr)
    refine ⟨_, doprnt_seul hd (conversion_signee hc (by rw [printSigned, if_pos hn]; exact ho)), fun hplus => ?_, ?_⟩
    · have hs : signeDe d.plusSign = [] ∨ signeDe d.plusSign = [32] := by
        rcases hf.plusSign with hp | hp | hp
        · exact .inl (by rw [hp]; rfl)
        · exact .inr (by rw [hp]; rfl)
        · exact absurd ⟨hn, hp⟩ hplus
      have := strtol_positif (z := z) (k := k) (d := d) hc.lue hu a hs
      rw [Int.toNat_of_nonneg hn] at this
      exact ⟨k, by simpa only [List.append_assoc] using this⟩
    · rintro ⟨-, hp⟩
      have hs : signeDe d.plusSign = [43] := by rw [hp]; rfl
      have := strtol_plus hc.lue a (prefixe b n.toNat d ++ List.replicate z 48 ++ (numeral b n.toNat).map chiffre ++ List.replicate k 32)
      exact ⟨_, by simpa only [hs, List.append_assoc, List.singleton_append, List.cons_append, List.nil_append] using this⟩
  · have hu : (-n).toNat < 2 ^ 31 := by omega
    obtain ⟨a, z, k, ho, -⟩ := printNumChamp_spec 45 hc.lue.courante (show (-n).toNat < 2 ^ 32 by omega) (hf.petite hr)
    have hs : printSigned b n d = printNumChamp b (-n).toNat 45 d := by
      rw [printSigned, if_neg hn, addInt, if_pos (by omega), ok_bind, zero_add]
    refine ⟨_, doprnt_seul hd (conversion_signee hc (hs.trans ho)), fun _ => ?_, fun h => absurd h.1 hn⟩
    have := strtol_negatif (z := z) (k := k) (d := d) hc.lue hu a
    rw [show -((-n).toNat : Int) = n by omega] at this
    exact ⟨k, by simpa only [show signeDe 45 = [45] from rfl, List.append_assoc, List.singleton_append, List.cons_append, List.nil_append] using this⟩

/-- `%+08.3d` of a negative number. -/
theorem strtol_doprnt_five : ∃ out, doprnt (37 :: [43, 48, 56, 46, 51, 100]) [.nombre (-5)] 0 = .ok (out, []) ∧
    (¬((0 : Int) ≤ -5 ∧ (43 : Int) = 43) → ∃ k, strtol out (10 : Nat) = .ok (-5, List.replicate k 32)) ∧
    ((0 : Int) ≤ -5 ∧ (43 : Int) = 43 → ∃ q, strtol out (10 : Nat) = .ok (0, 43 :: q)) :=
  strtol_doprnt (d := ⟨8, 3, false, 48, 43, false⟩) (c := 100) rfl ⟨by decide, by decide, by decide⟩ (.inl ⟨.inl rfl, rfl⟩) (by decide)
    (by decide)

/-- `strtoul` reads back the `unsigned long` that an unsigned conversion put, in the same base. -/
theorem strtoul_doprnt (hd : directive fmt args = .ok (d, [c], [.nombre n])) (hr : d.Raisonnable) (hc : NonSignee c b) :
    ∃ out k, doprnt (37 :: fmt) args 0 = .ok (out, []) ∧ strtoul out b = (toUint32 n, List.replicate k 32) := by
  have hu := toUint32_lt n
  obtain ⟨a, z, k, ho, -⟩ := printNumChamp_spec 0 hc.lue.courante hu ((directive_forme hd).petite hr)
  refine ⟨_, k, doprnt_seul hd (conversion_nonSignee hc ho), ?_⟩
  have := strtoul_champ (z := z) (k := k) (d := d) hc.lue hu a
  simpa only [show signeDe 0 = [] from rfl, List.append_assoc, List.nil_append] using this

/-- `%#-12x` of -1. -/
theorem strtoul_doprnt_moins_un : ∃ out k, doprnt (37 :: [35, 45, 49, 50, 120]) [.nombre (-1)] 0 = .ok (out, []) ∧
    strtoul out (16 : Nat) = (toUint32 (-1), List.replicate k 32) :=
  strtoul_doprnt (d := ⟨12, -1, true, 32, 0, true⟩) (c := 120) rfl ⟨by decide, by decide, by decide⟩ (.inr (.inr ⟨.inl rfl, rfl⟩))

end Pcsea
