import Pcsea.DoprntSpec
import Pcsea.Impression
/-!
# Formats one after the other

What a format puts does not depend on what follows it, if it does not stop in
the middle of a directive. The text of the clock is formatted so.
-/

namespace Pcsea

open Lib

variable {fmt f g q : List Int} {args args' a b r : List Argument} {radix c v : Int} {d d' : Directive} {n k u : Nat} {l buf : List Int}
  {e : Ecran}

/-! ## Formats without their arguments -/

/-- The format after the width, or after the precision, that starts there. -/
def apresEntier (fmt : List Int) : List Int :=
  if isdigit (car fmt) then fmt.dropWhile (fun c => isdigit c) else if car fmt = 42 then fmt.tail else fmt

/-- The format after a directive, from its conversion on. -/
def apresDirective (fmt : List Int) : List Int :=
  let fmt := (drapeaux fmt .defaut).2
  let fmt := if car fmt = 48 then fmt.tail else fmt
  let fmt := apresEntier fmt
  let fmt := if car fmt = 46 then apresEntier fmt.tail else fmt
  if car fmt = 108 then fmt.tail else fmt

/-- No directive of the format is cut short by its end. -/
inductive Complet : List Int → Prop
  | vide : Complet []
  | ordinaire {x : Int} {p : List Int} : x ≠ 37 → Complet p → Complet (x :: p)
  | directive {x : Int} {p p' : List Int} : apresDirective p = x :: p' → Complet p' → Complet (37 :: p)

theorem drapeaux_append (h : (drapeaux f d).2 ≠ []) : drapeaux (f ++ g) d = ((drapeaux f d).1, (drapeaux f d).2 ++ g) := by
  fun_induction drapeaux f d with
  | case1 d => exact absurd rfl h
  | case2 f d ih => exact ih h
  | case3 f d _ ih => exact ih h
  | case4 f d _ _ ih => exact ih h
  | case5 f d _ _ _ ih => exact ih h
  | case6 c f d h₁ h₂ h₃ h₄ => rw [List.cons_append, drapeaux, if_neg h₁, if_neg h₂, if_neg h₃, if_neg h₄]

theorem car_append (h : f ≠ []) : car (f ++ g) = car f := by
  cases f with
  | nil => exact absurd rfl h
  | cons c f => rfl

theorem entier_ok {x : Int × List Int} (ho : entier f v = .ok x) : x.2 = f.dropWhile (fun c => isdigit c) := by
  induction f generalizing v with
  | nil => exact Except.ok.inj ho ▸ rfl
  | cons c f ih =>
    rw [entier] at ho
    split at ho
    · next hc =>
      obtain ⟨w, -, ho⟩ := bind_eq_ok.1 ho
      rw [List.dropWhile_cons_of_pos hc]
      exact ih ho
    · next hc =>
      rw [List.dropWhile_cons_of_neg hc, ← Except.ok.inj ho]

theorem entier_append {x : Int × List Int} (ho : entier f v = .ok x) (h : x.2 ≠ []) : entier (f ++ g) v = .ok (x.1, x.2 ++ g) := by
  induction f generalizing v with
  | nil =>
    rw [← Except.ok.inj ho] at h
    exact absurd rfl h
  | cons c f ih =>
    rw [List.cons_append]
    rw [entier] at ho ⊢
    split at ho
    · obtain ⟨w, hw, ho⟩ := bind_eq_ok.1 ho
      rw [if_pos ‹_›, hw, ok_bind]
      exact ih ho
    · rw [if_neg ‹_›, ← Except.ok.inj ho]
      rfl

theorem vaInt_append {x : Int × List Argument} (ho : vaInt a = .ok x) : vaInt (a ++ b) = .ok (x.1, x.2 ++ b) := by
  cases a with
  | nil => cases ho
  | cons y a =>
    cases y with
    | nombre v => exact Except.ok.inj ho ▸ rfl
    | chaine p => cases ho

theorem vaChaine_append {x : Option (List Int) × List Argument} (ho : vaChaine a = .ok x) :
    vaChaine (a ++ b) = .ok (x.1, x.2 ++ b) := by
  cases a with
  | nil => cases ho
  | cons y a =>
    cases y with
    | nombre v => cases ho
    | chaine p => exact Except.ok.inj ho ▸ rfl

theorem largeur_reste {x : Directive × List Int × List Argument} (ho : largeur f a d = .ok x) : x.2.1 = apresEntier f := by
  unfold largeur at ho
  unfold apresEntier
  split at ho
  · obtain ⟨y, hy, ho⟩ := bind_eq_ok.1 ho
    rw [if_pos ‹_›, ← Except.ok.inj ho]
    exact entier_ok hy
  rw [if_neg ‹_›]
  split at ho
  · obtain ⟨y, -, ho⟩ := bind_eq_ok.1 ho
    rw [if_pos ‹_›]
    dsimp only at ho
    split at ho
    · obtain ⟨w, -, ho⟩ := bind_eq_ok.1 ho
      rw [← Except.ok.inj ho]
    · rw [← Except.ok.inj ho]
  · rw [if_neg ‹_›, ← Except.ok.inj ho]

theorem precision_reste {x : Directive × List Int × List Argument} (ho : precision f a d = .ok x) :
    x.2.1 = if car f = 46 then apresEntier f.tail else f := by
  unfold precision at ho
  unfold apresEntier
  split at ho
  · rw [if_pos ‹_›]
    split at ho
    · obtain ⟨y, hy, ho⟩ := bind_eq_ok.1 ho
      rw [if_pos ‹_›, ← Except.ok.inj ho]
      exact entier_ok hy
    rw [if_neg ‹_›]
    split at ho
    · obtain ⟨y, -, ho⟩ := bind_eq_ok.1 ho
      rw [if_pos ‹_›, ← Except.ok.inj ho]
    · rw [if_neg ‹_›, ← Except.ok.inj ho]
  · rw [if_neg ‹_›, ← Except.ok.inj ho]

theorem zeroFmt_reste : (zeroFmt f d).2 = if car f = 48 then f.tail else f := by
  unfold zeroFmt
  split <;> rfl

/-- What a directive leaves of the format. -/
theorem directive_reste {x : Directive × List Int × List Argument} (ho : directive f a = .ok x) : x.2.1 = apresDirective f := by
  unfold directive at ho
  dsimp only at ho
  obtain ⟨y, hy, ho⟩ := bind_eq_ok.1 ho
  obtain ⟨z, hz, ho⟩ := bind_eq_ok.1 ho
  rw [← Except.ok.inj ho, apresDirective]
  dsimp only
  rw [← zeroFmt_reste (d := (drapeaux f .defaut).1), ← largeur_reste hy, ← precision_reste hz]

theorem largeur_append {x : Directive × List Int × List Argument} (ho : largeur f a d = .ok x) (h : x.2.1 ≠ []) :
    largeur (f ++ g) (a ++ b) d = .ok (x.1, x.2.1 ++ g, x.2.2 ++ b) := by
  have hf : f ≠ [] := by
    rintro rfl
    exact h (Except.ok.inj ho ▸ rfl)
  unfold largeur at ho ⊢
  rw [car_append hf]
  by_cases h₁ : isdigit (car f) = true
  · rw [if_pos h₁] at ho ⊢
    obtain ⟨y, hy, ho⟩ := bind_eq_ok.1 ho
    obtain rfl := Except.ok.inj ho
    rw [entier_append hy h, ok_bind]
  rw [if_neg h₁] at ho ⊢
  by_cases h₂ : car f = 42
  · rw [if_pos h₂] at ho ⊢
    obtain ⟨y, hy, ho⟩ := bind_eq_ok.1 ho
    rw [vaInt_append hy, ok_bind, List.tail_append_of_ne_nil hf]
    dsimp only at ho ⊢
    by_cases h₃ : y.1 < 0
    · rw [if_pos h₃] at ho ⊢
      obtain ⟨w, hw, ho⟩ := bind_eq_ok.1 ho
      obtain rfl := Except.ok.inj ho
      rw [hw, ok_bind]
    · rw [if_neg h₃] at ho ⊢
      exact Except.ok.inj ho ▸ rfl
  · rw [if_neg h₂] at ho ⊢
    exact Except.ok.inj ho ▸ rfl

theorem precision_append {x : Directive × List Int × List Argument} (ho : precision f a d = .ok x) (h : x.2.1 ≠ []) :
    precision (f ++ g) (a ++ b) d = .ok (x.1, x.2.1 ++ g, x.2.2 ++ b) := by
  have hf : f ≠ [] := by
    rintro rfl
    exact h (Except.ok.inj ho ▸ rfl)
  unfold precision at ho ⊢
  rw [car_append hf]
  by_cases h₀ : car f = 46
  · rw [if_pos h₀] at ho ⊢
    rw [List.tail_append_of_ne_nil hf]
    have ht : f.tail ≠ [] := by
      intro ht
      rw [ht] at ho
      exact h (Except.ok.inj ho ▸ rfl)
    rw [car_append ht]
    by_cases h₁ : isdigit (car f.tail) = true
    · rw [if_pos h₁] at ho ⊢
      obtain ⟨y, hy, ho⟩ := bind_eq_ok.1 ho
      obtain rfl := Except.ok.inj ho
      rw [entier_append hy h, ok_bind]
    rw [if_neg h₁] at ho ⊢
    by_cases h₂ : car f.tail = 42
    · rw [if_pos h₂] at ho ⊢
      obtain ⟨y, hy, ho⟩ := bind_eq_ok.1 ho
      obtain rfl := Except.ok.inj ho
      rw [vaInt_append hy, ok_bind, List.tail_append_of_ne_nil ht]
    · rw [if_neg h₂] at ho ⊢
      exact Except.ok.inj ho ▸ rfl
  · rw [if_neg h₀] at ho ⊢
    exact Except.ok.inj ho ▸ rfl

theorem zeroFmt_append (h : (zeroFmt f d).2 ≠ []) : zeroFmt (f ++ g) d = ((zeroFmt f d).1, (zeroFmt f d).2 ++ g) := by
  have hf : f ≠ [] := by
    rintro rfl
    exact h rfl
  unfold zeroFmt
  rw [car_append hf]
  split
  · rw [List.tail_append_of_ne_nil hf]
  · rfl

/-- A directive that has its conversion does not depend on what follows. -/
theorem directive_append {x : Directive × List Int × List Argument} (ho : directive f a = .ok x) (h : x.2.1 ≠ []) :
    directive (f ++ g) (a ++ b) = .ok (x.1, x.2.1 ++ g, x.2.2 ++ b) := by
  unfold directive at ho ⊢
  dsimp only at ho ⊢
  obtain ⟨y, hy, ho⟩ := bind_eq_ok.1 ho
  obtain ⟨z, hz, ho⟩ := bind_eq_ok.1 ho
  obtain rfl := Except.ok.inj ho
  dsimp only at hz h ⊢
  -- Nothing is left after an empty format.
  have h₄ : z.2.1 ≠ [] := by
    intro he
    rw [he] at h
    exact h rfl
  have h₃ : y.2.1 ≠ [] := by
    intro he
    rw [precision_reste hz, he] at h₄
    exact h₄ rfl
  have h₂ : (zeroFmt (drapeaux f .defaut).2 (drapeaux f .defaut).1).2 ≠ [] := by
    intro he
    rw [largeur_reste hy, he] at h₃
    exact h₃ rfl
  have h₁ : (drapeaux f .defaut).2 ≠ [] := by
    intro he
    rw [he] at h₂
    exact h₂ rfl
  rw [drapeaux_append h₁]
  dsimp only
  rw [zeroFmt_append h₂]
  dsimp only
  rw [largeur_append hy h₃, ok_bind]
  dsimp only
  rw [precision_append hz h₄, ok_bind]
  dsimp only
  rw [car_append h₄]
  split
  · rw [List.tail_append_of_ne_nil h₄]
  · rfl

/-! ## Conversions -/

theorem signe_append {x : List Int × List Argument} (ho : conversion.signe k d a = .ok x) :
    conversion.signe k d (a ++ b) = .ok (x.1, x.2 ++ b) := by
  obtain ⟨y, hy, ho⟩ := bind_eq_ok.1 ho
  obtain ⟨w, hw, ho⟩ := bind_eq_ok.1 ho
  obtain rfl := Except.ok.inj ho
  rw [conversion.signe, vaInt_append hy, ok_bind]
  dsimp only
  rw [hw, ok_bind]

theorem nonSigne_append {x : List Int × List Argument} (ho : conversion.nonSigne k d a = .ok x) :
    conversion.nonSigne k d (a ++ b) = .ok (x.1, x.2 ++ b) := by
  obtain ⟨y, hy, ho⟩ := bind_eq_ok.1 ho
  obtain ⟨w, hw, ho⟩ := bind_eq_ok.1 ho
  obtain rfl := Except.ok.inj ho
  rw [conversion.nonSigne, vaInt_append hy, ok_bind]
  dsimp only
  rw [hw, ok_bind]

/-- A conversion takes its arguments from the front. -/
theorem conversion_append {x : List Int × List Argument} (ho : conversion radix c d a = .ok x) :
    conversion radix c d (a ++ b) = .ok (x.1, x.2 ++ b) := by
  unfold conversion at ho ⊢
  by_cases h : c = 98 ∨ c = 66
  · rw [if_pos h] at ho ⊢
    -- Each conversion takes its arguments from the front.
    obtain ⟨y, hy, ho⟩ := bind_eq_ok.1 ho
    obtain ⟨z, hz, ho⟩ := bind_eq_ok.1 ho
    obtain ⟨w, hw, ho⟩ := bind_eq_ok.1 ho
    obtain rfl := Except.ok.inj ho
    rw [vaInt_append hy, ok_bind]
    dsimp only
    rw [vaChaine_append hz, ok_bind]
    dsimp only
    rw [hw, ok_bind]
  rw [if_neg h] at ho ⊢
  by_cases h : c = 99
  · rw [if_pos h] at ho ⊢
    obtain ⟨y, hy, ho⟩ := bind_eq_ok.1 ho
    obtain rfl := Except.ok.inj ho
    rw [vaInt_append hy, ok_bind]
  rw [if_neg h] at ho ⊢
  by_cases h : c = 115
  · rw [if_pos h] at ho ⊢
    obtain ⟨y, hy, ho⟩ := bind_eq_ok.1 ho
    obtain rfl := Except.ok.inj ho
    rw [vaChaine_append hy, ok_bind]
  rw [if_neg h] at ho ⊢
  by_cases h : c = 111 ∨ c = 79
  · rw [if_pos h] at ho ⊢
    exact nonSigne_append ho
  rw [if_neg h] at ho ⊢
  by_cases h : c = 100 ∨ c = 105 ∨ c = 68
  · rw [if_pos h] at ho ⊢
    exact signe_append ho
  rw [if_neg h] at ho ⊢
  by_cases h : c = 117 ∨ c = 85
  · rw [if_pos h] at ho ⊢
    exact nonSigne_append ho
  rw [if_neg h] at ho ⊢
  by_cases h : c = 112
  · rw [if_pos h] at ho ⊢
    obtain ⟨y, hy, ho⟩ := bind_eq_ok.1 ho
    obtain rfl := Except.ok.inj ho
    rw [nonSigne_append hy, ok_bind]
  rw [if_neg h] at ho ⊢
  by_cases h : c = 120 ∨ c = 88
  · rw [if_pos h] at ho ⊢
    exact nonSigne_append ho
  rw [if_neg h] at ho ⊢
  by_cases h : c = 122 ∨ c = 90
  · rw [if_pos h] at ho ⊢
    exact signe_append ho
  rw [if_neg h] at ho ⊢
  by_cases h : c = 114 ∨ c = 82
  · rw [if_pos h] at ho ⊢
    exact signe_append ho
  rw [if_neg h] at ho ⊢
  by_cases h : c = 110 ∨ c = 78
  · rw [if_pos h] at ho ⊢
    exact nonSigne_append ho
  rw [if_neg h] at ho ⊢
  exact Except.ok.inj ho ▸ rfl

/-! ## The loop -/

theorem drapeaux_suffix : (drapeaux f d).2 <:+ f := by
  fun_induction drapeaux f d with
  | case1 d => exact List.suffix_refl []
  | case2 f d ih => exact ih.trans (List.suffix_cons _ f)
  | case3 f d _ ih => exact ih.trans (List.suffix_cons _ f)
  | case4 f d _ _ ih => exact ih.trans (List.suffix_cons _ f)
  | case5 f d _ _ _ ih => exact ih.trans (List.suffix_cons _ f)
  | case6 c f d => exact List.suffix_refl (c :: f)

theorem apresEntier_suffix (f : List Int) : apresEntier f <:+ f := by
  unfold apresEntier
  split
  · exact List.dropWhile_suffix _
  · split
    · exact List.tail_suffix f
    · exact List.suffix_refl f

theorem ite_tail_suffix {p : Prop} [Decidable p] (f : List Int) : (if p then f.tail else f) <:+ f := by
  split
  · exact List.tail_suffix f
  · exact List.suffix_refl f

theorem apresDirective_suffix (f : List Int) : apresDirective f <:+ f := by
  have hprec : ∀ q : List Int, (if car q = 46 then apresEntier q.tail else q) <:+ q := by
    intro q
    split
    · exact (apresEntier_suffix _).trans (List.tail_suffix q)
    · exact List.suffix_refl q
  exact (ite_tail_suffix _).trans ((hprec _).trans ((apresEntier_suffix _).trans ((ite_tail_suffix _).trans drapeaux_suffix)))

theorem directive_length {x : Directive × List Int × List Argument} (ho : directive f a = .ok x) : x.2.1.length ≤ f.length := by
  rw [directive_reste ho]
  exact (apresDirective_suffix f).length_le

/-- More fuel than characters is enough. -/
theorem doprntLoop_fuel (hn : f.length < n) (hk : f.length < k) : doprntLoop radix n f a = doprntLoop radix k f a := by
  induction n generalizing k f a with
  | zero => omega
  | succ n ih =>
    obtain ⟨k, rfl⟩ : ∃ k', k = k' + 1 := ⟨k - 1, by omega⟩
    cases f with
    | nil => rfl
    | cons c f =>
      rw [List.length_cons] at hn hk
      rw [doprntLoop, doprntLoop]
      split
      · rw [ih (k := k) (by omega) (by omega)]
      · cases hd : directive f a with
        | error x => rfl
        | ok x =>
          have hx := directive_length hd
          obtain ⟨d, f', a'⟩ := x
          rw [ok_bind, ok_bind]
          dsimp only at hx ⊢
          cases f' with
          | nil => rfl
          | cons c f' =>
            rw [List.length_cons] at hx
            dsimp only
            congr 1
            funext o
            rw [ih (k := k) (by omega) (by omega)]

/-- `_doprnt`, one character at a time. -/
theorem doprnt_cons (hc : c ≠ 37) : doprnt (c :: f) a radix = (doprnt f a radix).map fun o => (c :: o.1, o.2) := by
  rw [doprnt, List.length_cons, doprntLoop, if_pos hc, doprnt]
  cases doprntLoop radix (f.length + 1) f a with
  | error x => rfl
  | ok o => rfl

/-- `_doprnt`, one directive at a time. -/
theorem doprnt_directive {x : Directive × List Int × List Argument} (ho : directive f a = .ok x) (h : x.2.1 = c :: q) :
    doprnt (37 :: f) a radix =
      (do
        let (l, a) ← conversion radix c x.1 x.2.2
        let (l', a) ← doprnt q a radix
        .ok (l ++ l', a)) := by
  have hlen := directive_length ho
  rw [h, List.length_cons] at hlen
  rw [doprnt, List.length_cons, doprntLoop, if_neg (by simp), ho, ok_bind]
  dsimp only
  rw [h]
  dsimp only
  congr 1
  funext o
  rw [doprntLoop_fuel (k := q.length + 1) (by omega) (by omega), doprnt]

theorem doprnt_directive_faute {x : Fault} (ho : directive f a = .error x) : doprnt (37 :: f) a radix = .error x := by
  rw [doprnt, List.length_cons, doprntLoop, if_neg (by simp), ho, error_bind]

/-- What follows a complete format is formatted as on its own, with the arguments that are left. -/
theorem doprnt_append (hf : Complet f) (ho : doprnt f a radix = .ok (l, r)) :
    doprnt (f ++ g) (a ++ b) radix = (doprnt g (r ++ b) radix).map fun o => (l ++ o.1, o.2) := by
  -- On the shape of the first format, directive by directive.
  induction hf generalizing a l with
  | vide =>
    obtain ⟨rfl, rfl⟩ := Prod.mk.inj (Except.ok.inj ho)
    rw [List.nil_append]
    cases doprnt g (a ++ b) radix with
    | error x => rfl
    | ok o => rfl
  | @ordinaire c p hc _ ih =>
    rw [doprnt_cons hc] at ho
    cases hp : doprnt p a radix with
    | error x =>
      rw [hp] at ho
      cases ho
    | ok o =>
      rw [hp] at ho
      obtain ⟨rfl, rfl⟩ := Prod.mk.inj (Except.ok.inj ho)
      rw [List.cons_append, doprnt_cons hc, ih hp]
      cases doprnt g (o.2 ++ b) radix with
      | error x => rfl
      | ok o' => rfl
  | @directive c p p' hp _ ih =>
    cases hd : directive p a with
    | error x =>
      rw [doprnt_directive_faute hd] at ho
      cases ho
    | ok x =>
      have hx : x.2.1 = c :: p' := (directive_reste hd).trans hp
      have hx' : x.2.1 ++ g = c :: (p' ++ g) := by rw [hx, List.cons_append]
      rw [doprnt_directive hd hx] at ho
      obtain ⟨o, ho₁, ho⟩ := bind_eq_ok.1 ho
      obtain ⟨o', ho₂, ho⟩ := bind_eq_ok.1 ho
      obtain ⟨rfl, rfl⟩ := Prod.mk.inj (Except.ok.inj ho)
      rw [List.cons_append, doprnt_directive (directive_append hd (by simp [hx])) hx', conversion_append ho₁, ok_bind]
      dsimp only
      rw [ih ho₂]
      cases doprnt g (o'.2 ++ b) radix with
      | error x => rfl
      | ok o'' => simp [Except.map]

/-- Two calls of `printf` show what one call with the two formats shows. -/
theorem vprintf_append (hf : Complet f) (ho : doprnt f a 0 = .ok (l, [])) :
    vprintf (f ++ g) (a ++ b) e = (vprintf f a e).bind fun e => vprintf g b e := by
  rw [vprintf_eq, vprintf_eq, doprnt_append hf ho, ho, List.nil_append]
  simp only [Except.map, Except.bind]
  rw [vprintf_eq]
  cases doprnt g b 0 with
  | error x => rfl
  | ok o =>
    simp only [Except.map, List.map_append]
    rw [consolePutbytes, List.foldl_append]
    rfl

/-- `%d,` and then `%s`. -/
theorem vprintf_append_virgule :
    vprintf ([37, 100, 44] ++ [37, 115]) ([.nombre 5] ++ [.chaine (some [65])]) (.boot fun _ => 0) =
      (vprintf [37, 100, 44] [.nombre 5] (.boot fun _ => 0)).bind fun e => vprintf [37, 115] [.chaine (some [65])] e :=
  vprintf_append (.directive rfl (.ordinaire (by decide) .vide)) rfl

/-! ## The clock -/

theorem printNum_eq (hn : 0 < n) (hu : u < 10 ^ n) : chiffres 10 n u buf = .ok (printNum n u buf) := by
  induction n generalizing u buf with
  | zero => omega
  | succ n ih =>
    have hx : u % 10 < 10 := Nat.mod_lt u (by decide)
    rw [chiffres, if_neg (by decide), digits_get (by omega), printNum]
    dsimp only
    rw [chiffre, if_pos hx, Nat.cast_add, Nat.cast_ofNat]
    by_cases hq : u / 10 = 0
    · rw [if_pos hq, if_pos hq]
    · rw [if_neg hq, if_neg hq]
      apply ih
      · by_contra h0
        obtain rfl : n = 0 := by omega
        omega
      · exact Nat.div_lt_of_lt_mul (by rwa [pow_succ'] at hu)

/-- A number in a field of two, with blanks on its left. -/
theorem printNumChamp_deux (sign : Int) (hu : u < 2 ^ 32) :
    printNumChamp 10 u sign ⟨2, -1, false, 32, 0, false⟩ =
      .ok (List.replicate (2 - (printNum 32 u []).length - (signeDe sign).length) 32 ++ signeDe sign ++ printNum 32 u []) := by
  have hpow : u < 10 ^ 32 := hu.trans_le (by decide)
  have hb : Courante 10 := ⟨by decide, by decide⟩
  have hc : chiffres 10 MAXBUF u [] = .ok (printNum 32 u []) := printNum_eq (n := 32) (by decide) hpow
  have hk : (printNum 32 u []).length ≤ 32 := by
    have he := hc.symm.trans (chiffres_spec hb (by decide) hpow)
    rw [Except.ok.inj he, List.append_nil, List.length_map]
    exact numeral_length_le hb.1 (by decide) hpow
  have hs : (signeDe sign).length ≤ 1 := by
    unfold signeDe
    split <;> simp
  have hp : prefixe 10 u ⟨2, -1, false, 32, 0, false⟩ = [] := by simp [prefixe]
  rw [printNumChamp, hc, ok_bind, hp]
  dsimp only
  generalize printNum 32 u [] = chiffres at hk
  generalize signeDe sign = sg at hs
  rw [addInt, if_pos (by omega), ok_bind, addInt, if_pos (by simp; omega), ok_bind]
  have hz : (-1 + -(chiffres.length : Int)).toNat = 0 := by omega
  have hl : ((2 : Int) + -((chiffres.length : Int) + sg.length + ([] : List Int).length + max (-1 + -(chiffres.length : Int)) 0)).toNat =
      2 - chiffres.length - sg.length := by
    rw [List.length_nil]
    omega
  simp only [remplitSi, and_self, decide_true, if_true]
  rw [remplit_spec (by rw [List.length_nil]; omega), ok_bind]
  dsimp only
  rw [remplit_spec (by omega), ok_bind]
  dsimp only
  rw [hz, hl]
  simp

theorem doprnt2d_eq (h₁ : -2 ^ 31 < v) (h₂ : v < 2 ^ 31) : printSigned 10 v ⟨2, -1, false, 32, 0, false⟩ = .ok (doprnt2d v) := by
  unfold printSigned doprnt2d
  by_cases hv : 0 ≤ v
  · rw [if_pos hv, if_pos hv, show v.natAbs = v.toNat by omega]
    exact printNumChamp_deux 0 (by omega)
  · rw [if_neg hv, if_neg hv, addInt, if_pos (by omega), ok_bind, zero_add, show v.natAbs = (-v).toNat by omega]
    exact printNumChamp_deux 45 (by omega)

/-- `%2d`, then the rest of the format. -/
theorem doprnt_2d (h₁ : -2 ^ 31 < v) (h₂ : v < 2 ^ 31) :
    doprnt (37 :: 50 :: 100 :: g) (.nombre v :: b) 0 = (doprnt g b 0).map fun o => (doprnt2d v ++ o.1, o.2) := by
  have hd : directive (50 :: 100 :: g) (.nombre v :: b) = .ok (⟨2, -1, false, 32, 0, false⟩, 100 :: g, .nombre v :: b) := rfl
  have hc : conversion 0 100 ⟨2, -1, false, 32, 0, false⟩ (.nombre v :: b) = .ok (doprnt2d v, b) := by
    show conversion.signe 10 _ _ = _
    rw [conversion.signe, vaInt, ok_bind]
    dsimp only
    rw [doprnt2d_eq h₁ h₂, ok_bind]
  rw [doprnt_directive hd rfl]
  dsimp only
  rw [hc, ok_bind]
  dsimp only
  cases doprnt g b 0 with
  | error x => rfl
  | ok o => rfl

/-- `"%2d:%2d:%2d"`. -/
def formatClock : List Int := [37, 50, 100, 58, 37, 50, 100, 58, 37, 50, 100]

theorem toInt32_borne (h : n < 2 ^ 32) (h' : n ≠ 2 ^ 31) : -2 ^ 31 < toInt32 n ∧ toInt32 n < 2 ^ 31 := by
  unfold toInt32
  split <;> omega

theorem doprnt_clock {hour min sec : Nat} (hh : hour < 2 ^ 32 ∧ hour ≠ 2 ^ 31) (hm : min < 2 ^ 32 ∧ min ≠ 2 ^ 31)
    (hs : sec < 2 ^ 32 ∧ sec ≠ 2 ^ 31) :
    doprnt formatClock [.nombre (toInt32 hour), .nombre (toInt32 min), .nombre (toInt32 sec)] 0 = .ok (texteClock hour min sec, []) := by
  obtain ⟨hh₁, hh₂⟩ := toInt32_borne hh.1 hh.2
  obtain ⟨hm₁, hm₂⟩ := toInt32_borne hm.1 hm.2
  obtain ⟨hs₁, hs₂⟩ := toInt32_borne hs.1 hs.2
  rw [formatClock, doprnt_2d hh₁ hh₂, doprnt_cons (by decide), doprnt_2d hm₁ hm₂, doprnt_cons (by decide), doprnt_2d hs₁ hs₂]
  simp [doprnt, doprntLoop, Except.map, texteClock]

theorem doprnt2d_toChar : ∀ n < 100, (doprnt2d (toInt32 n)).map toChar = doprnt2d (toInt32 n) := by decide +kernel

end Pcsea
