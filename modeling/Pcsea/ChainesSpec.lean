import Pcsea.Chaines
import Mathlib.Data.List.Induction
import Mathlib.Data.List.TakeWhile
/-!
# What `string.c` compares, finds and cuts

Blocks are compared as lists of bytes; a string is searched for a character or for
another string, and cut at its delimiters.
-/

namespace Pcsea

open Lib

variable {m m' : Memoire} {p q s n k dst src : Nat} {c : Int} {l l₁ l₂ : List Int} {L L₁ L₂ X Y : List Nat}

/-! ## Reading bytes -/

/-- The memory as bytes. -/
def uchars (m : Memoire) : Nat → Option Nat := fun a => (m a).map toUchar

theorem lireUchar_eq {x : Nat} (h : uchars m p = some x) : lireUchar m p = .ok x := by
  obtain ⟨c, hc, rfl⟩ := Option.map_eq_some_iff.1 h
  rw [lireUchar, lire_eq hc]
  rfl

theorem standsAt_uchars (h : StandsAt m p l) : StandsAt (uchars m) p (l.map toUchar) := by
  intro i hi
  rw [List.length_map] at hi
  rw [uchars, h i hi, Option.map_some, List.getElem_map]

theorem toUchar_zero_iff (h : -128 ≤ c ∧ c ≤ 127) : toUchar c = 0 ↔ c = 0 := by
  unfold toUchar
  omega

theorem toUchar_inj {d : Int} (h : -128 ≤ c ∧ c ≤ 127) (h' : -128 ≤ d ∧ d ≤ 127) : toUchar c = toUchar d ↔ c = d := by
  unfold toUchar
  omega

/-- The string at `p` as bytes. -/
theorem Chaine.uchars (h : Chaine m p l) : StandsAt (uchars m) p (l.map toUchar ++ [0]) ∧ ∀ x ∈ l.map toUchar, x ≠ 0 := by
  refine ⟨?_, fun x hx => ?_⟩
  · have := standsAt_uchars h.texte
    rwa [List.map_append] at this
  · obtain ⟨c, hc, rfl⟩ := List.mem_map.1 hx
    exact fun h0 => h.nonNul c hc ((toUchar_zero_iff (h.char c hc)).1 h0)

/-- `a,b,,c` at 0, `,` at 7, `b,` at 9 and eight characters of room at 12. -/
def memoireExemple : Memoire := fun a =>
  ([97, 44, 98, 44, 44, 99, 0, 44, 0, 98, 44, 0, 97, 0, 0, 0, 0, 0, 0, 0] : List Int)[a]?

theorem chaine_abc : Chaine memoireExemple 0 [97, 44, 98, 44, 44, 99] := by simp [chaine_cons, chaine_nil, memoireExemple]

theorem chaine_virgule : Chaine memoireExemple 7 [44] := by simp [chaine_cons, chaine_nil, memoireExemple]

theorem chaine_b : Chaine memoireExemple 9 [98, 44] := by simp [chaine_cons, chaine_nil, memoireExemple]

theorem chaine_a : Chaine memoireExemple 12 [97] := by simp [chaine_cons, chaine_nil, memoireExemple]

theorem mapped_exemple (h : p + n ≤ 20) : Mapped memoireExemple p n := by
  intro i hi
  simp [memoireExemple]
  omega

/-! ## Comparing -/

/-- The order of bytes, lexicographic, in the sign of a number. -/
def SigneDe (r : Int) (L₁ L₂ : List Nat) : Prop := (r < 0 ↔ L₁ < L₂) ∧ (r = 0 ↔ L₁ = L₂)

theorem signeDe_nil : SigneDe 0 [] [] := ⟨by simp, by simp⟩

theorem signeDe_ne {a b : Nat} (h : a ≠ b) : SigneDe ((a : Int) - b) (a :: L₁) (b :: L₂) := by
  constructor
  · rw [List.cons_lt_cons_iff]
    constructor
    · intro hlt
      exact .inl (by omega)
    · rintro (hlt | ⟨he, -⟩)
      · omega
      · exact absurd he h
  · constructor
    · intro h0
      omega
    · intro he
      exact absurd (List.cons.inj he).1 h

theorem signeDe_cons {r : Int} (a : Nat) (h : SigneDe r L₁ L₂) : SigneDe r (a :: L₁) (a :: L₂) := by
  refine ⟨?_, ?_⟩
  · rw [h.1, List.cons_lt_cons_iff]
    simp
  · rw [h.2]
    simp

theorem memcmp_spec (h₁ : StandsAt (uchars m) p L₁) (h₂ : StandsAt (uchars m) q L₂) (hl : L₁.length = L₂.length) :
    ∃ r, memcmp m p q L₁.length = .ok r ∧ SigneDe r L₁ L₂ := by
  induction L₁ generalizing p q L₂ with
  | nil =>
    obtain rfl := List.length_eq_zero_iff.1 hl.symm
    exact ⟨0, rfl, signeDe_nil⟩
  | cons a L₁ ih =>
    match L₂, hl with
    | b :: L₂, hl =>
      obtain ⟨ha, h₁⟩ := standsAt_cons.1 h₁
      obtain ⟨hb, h₂⟩ := standsAt_cons.1 h₂
      obtain ⟨r, hr, hs⟩ := ih h₁ h₂ (by simpa using hl)
      rw [List.length_cons, memcmp, lireUchar_eq ha, ok_bind, lireUchar_eq hb, ok_bind]
      dsimp only
      by_cases hab : a = b
      · subst hab
        rw [if_neg (by omega)]
        exact ⟨r, hr, signeDe_cons a hs⟩
      · rw [if_pos (by omega)]
        exact ⟨_, rfl, signeDe_ne hab⟩

theorem lireUchar_tete (h : StandsAt (uchars m) p (L ++ [0])) : lireUchar m p = .ok (L.headD 0) := by
  cases L with
  | nil => exact lireUchar_eq (standsAt_cons.1 h).1
  | cons a L => exact lireUchar_eq (standsAt_cons.1 h).1

/-- The first bytes decide, or there is the same one on both sides. -/
theorem signeDe_tete (h₁ : ∀ x ∈ L₁, x ≠ 0) (h₂ : ∀ x ∈ L₂, x ≠ 0) :
    if (L₁.headD 0 : Int) - L₂.headD 0 ≠ 0 ∨ L₁.headD 0 = 0 then SigneDe ((L₁.headD 0 : Int) - L₂.headD 0) L₁ L₂
    else ∃ a M₁ M₂, L₁ = a :: M₁ ∧ L₂ = a :: M₂ := by
  match L₁, L₂ with
  -- Both strings end: the terminators are equal.
  | [], [] =>
    rw [if_pos (.inr rfl)]
    exact signeDe_nil
  | [], b :: L₂ =>
    have hb := h₂ b List.mem_cons_self
    rw [if_pos (.inr rfl)]
    refine ⟨⟨fun _ => List.nil_lt_cons b L₂, fun _ => ?_⟩, ⟨fun h => ?_, fun h => nomatch h⟩⟩
    · simp
      omega
    · simp at h
      omega
  | a :: L₁, [] =>
    have ha := h₁ a List.mem_cons_self
    rw [if_pos (.inl (by simpa using ha))]
    refine ⟨⟨fun h => ?_, fun h => absurd h (List.not_lt_nil _)⟩, ⟨fun h => ?_, fun h => nomatch h⟩⟩
    · simp at h
      omega
    · simp at h
      omega
  | a :: L₁, b :: L₂ =>
    have ha := h₁ a List.mem_cons_self
    rw [List.headD_cons, List.headD_cons]
    by_cases hab : a = b
    · subst hab
      rw [if_neg (by omega)]
      exact ⟨a, L₁, L₂, rfl, rfl⟩
    · rw [if_pos (.inl (by omega))]
      exact signeDe_ne hab

/-- `strncmp` gives the order of the first `n` bytes. -/
theorem strncmp_spec (h₁ : StandsAt (uchars m) p (L₁ ++ [0])) (h₂ : StandsAt (uchars m) q (L₂ ++ [0])) (hn₁ : ∀ x ∈ L₁, x ≠ 0)
    (hn₂ : ∀ x ∈ L₂, x ≠ 0) (n : Nat) : ∃ r, strncmp m p q n = .ok r ∧ SigneDe r (L₁.take n) (L₂.take n) := by
  induction n generalizing p q L₁ L₂ with
  | zero => exact ⟨0, rfl, signeDe_nil⟩
  | succ n ih =>
    have ht := signeDe_tete (fun x (hx : x ∈ L₁.take (n + 1)) => hn₁ x (List.mem_of_mem_take hx))
      fun x (hx : x ∈ L₂.take (n + 1)) => hn₂ x (List.mem_of_mem_take hx)
    have hd : ∀ L : List Nat, (L.take (n + 1)).headD 0 = L.headD 0 := fun L => by cases L <;> rfl
    rw [hd, hd] at ht
    rw [strncmp, lireUchar_tete h₁, ok_bind, lireUchar_tete h₂, ok_bind]
    dsimp only
    split at ht
    · rename_i hc
      rw [if_pos hc]
      exact ⟨_, rfl, ht⟩
    · rename_i hc
      rw [if_neg hc]
      match L₁, L₂, ht with
      | a :: L₁, b :: L₂, ⟨_, _, _, he₁, he₂⟩ =>
        obtain rfl : a = b := (List.cons.inj he₁).1.trans (List.cons.inj he₂).1.symm
        obtain ⟨r, hr, hs⟩ := ih (standsAt_cons.1 h₁).2 (standsAt_cons.1 h₂).2 (fun x hx => hn₁ x (List.mem_cons_of_mem _ hx))
          fun x hx => hn₂ x (List.mem_cons_of_mem _ hx)
        exact ⟨r, hr, signeDe_cons a hs⟩
      | [], _, ⟨_, _, _, he₁, _⟩ => exact nomatch he₁
      | _ :: _, [], ⟨_, _, _, _, he₂⟩ => exact nomatch he₂

theorem strcmpBoucle_spec (h₁ : StandsAt (uchars m) p (L₁ ++ [0])) (h₂ : StandsAt (uchars m) q (L₂ ++ [0])) (hn₁ : ∀ x ∈ L₁, x ≠ 0)
    (hn₂ : ∀ x ∈ L₂, x ≠ 0) (hk : L₁.length < k) : ∃ r, strcmpBoucle m k p q = .ok r ∧ SigneDe r L₁ L₂ := by
  induction k generalizing p q L₁ L₂ with
  | zero => omega
  | succ k ih =>
    have ht := signeDe_tete hn₁ hn₂
    rw [strcmpBoucle, lireUchar_tete h₁, ok_bind, lireUchar_tete h₂, ok_bind]
    dsimp only
    split at ht
    · rename_i hc
      rw [if_pos hc]
      exact ⟨_, rfl, ht⟩
    · rename_i hc
      obtain ⟨a, M₁, M₂, rfl, rfl⟩ := ht
      obtain ⟨r, hr, hs⟩ := ih (standsAt_cons.1 h₁).2 (standsAt_cons.1 h₂).2 (fun x hx => hn₁ x (List.mem_cons_of_mem _ hx))
        (fun x hx => hn₂ x (List.mem_cons_of_mem _ hx)) (by simpa using hk)
      rw [if_neg hc]
      exact ⟨r, hr, signeDe_cons a hs⟩

/-- `strcmp` and `strncmp` give the order of the strings, or of their first `n` characters, as unsigned bytes. -/
theorem strcmp_ordre (h₁ : Chaine m p l₁) (h₂ : Chaine m q l₂) (hl : l₁.length < ESPACE) :
    (∃ r, strcmp m p q = .ok r ∧ SigneDe r (l₁.map toUchar) (l₂.map toUchar)) ∧
      ∀ n, ∃ r, strncmp m p q n = .ok r ∧ SigneDe r ((l₁.take n).map toUchar) ((l₂.take n).map toUchar) := by
  obtain ⟨hs₁, hn₁⟩ := h₁.uchars
  obtain ⟨hs₂, hn₂⟩ := h₂.uchars
  refine ⟨strcmpBoucle_spec hs₁ hs₂ hn₁ hn₂ (by simpa using hl), fun n => ?_⟩
  rw [List.map_take, List.map_take]
  exact strncmp_spec hs₁ hs₂ hn₁ hn₂ n

theorem strcmp_ordre_abc : (∃ r, strcmp memoireExemple 0 9 = .ok r ∧
      SigneDe r ([97, 44, 98, 44, 44, 99].map toUchar) ([98, 44].map toUchar)) ∧
    ∀ n, ∃ r, strncmp memoireExemple 0 9 n = .ok r ∧
      SigneDe r (([97, 44, 98, 44, 44, 99].take n).map toUchar) (([98, 44].take n).map toUchar) :=
  strcmp_ordre chaine_abc chaine_b (by decide)

/-! ## Searching -/

/-- `r` is where `X` first is in `Y`, which is at `y`. -/
def Premier {α : Type} (X Y : List α) (y : Nat) : Option Nat → Prop
  | some r => ∃ j, r = y + j ∧ X <+: Y.drop j ∧ ∀ i < j, ¬ X <+: Y.drop i
  | none => ∀ j, ¬ X <+: Y.drop j

theorem prefix_drop_le {j : Nat} (h : X <+: Y.drop j) : X.length ≤ Y.length - j := by
  have := h.length_le
  rwa [List.length_drop] at this

/-- The first two bytes and the others. -/
theorem prefix_drop_iff {a b j : Nat} (hj : j + 1 < Y.length) :
    a :: b :: X <+: Y.drop j ↔ a = Y[j] ∧ b = Y[j + 1] ∧ X <+: Y.drop (j + 2) := by
  rw [List.drop_eq_getElem_cons (by omega), List.drop_eq_getElem_cons hj, List.cons_prefix_cons, List.cons_prefix_cons]

theorem standsAt_drop {α : Type} {Y : List α} {j : Nat} {f : Nat → Option α} (h : StandsAt f p Y) : StandsAt f (p + j) (Y.drop j) := by
  intro i hi
  rw [List.length_drop] at hi
  rw [Nat.add_assoc, h (j + i) (by omega), List.getElem_drop]

theorem standsAt_take {α : Type} {Y : List α} {f : Nat → Option α} (h : StandsAt f p Y) : StandsAt f p (Y.take n) := by
  intro i hi
  rw [List.length_take] at hi
  rw [h i (by omega), List.getElem_take]

/-- Comparing `X` with what is at a place of `Y`. -/
theorem memcmp_prefix {j : Nat} (hx : StandsAt (uchars m) p X) (hy : StandsAt (uchars m) q Y) (hj : j + X.length ≤ Y.length) :
    ∃ r, memcmp m p (q + j) X.length = .ok r ∧ (r = 0 ↔ X <+: Y.drop j) := by
  have hlen : X.length = ((Y.drop j).take X.length).length := by
    rw [List.length_take, List.length_drop]
    omega
  obtain ⟨r, hr, -, hs⟩ := memcmp_spec hx (standsAt_take (n := X.length) (standsAt_drop (j := j) hy)) hlen
  exact ⟨r, hr, hs.trans List.prefix_iff_eq_take.symm⟩

/-- The steps `k` and `l` pass over no occurrence: with two equal bytes first, a second byte that is not there rules out two
places; with two different ones, a second byte that is there rules out the next place. -/
theorem memmemBoucle_spec {a b y x kk ll j fuel : Nat} (hx : StandsAt (uchars m) x (a :: b :: X)) (hy : StandsAt (uchars m) y Y)
    (hn : X.length + 2 ≤ Y.length) (hkl : if a = b then kk = 2 ∧ ll = 1 else kk = 1 ∧ ll = 2)
    (hf : Y.length - (X.length + 2) + 1 - j < fuel) (hpas : ∀ i < j, ¬ a :: b :: X <+: Y.drop i) :
    ∃ r, memmemBoucle m y x Y.length (X.length + 2) kk ll fuel j = .ok r ∧ Premier (a :: b :: X) Y y r := by
  obtain ⟨hxa, hx₁⟩ := standsAt_cons.1 hx
  obtain ⟨hxb, hx₂⟩ := standsAt_cons.1 hx₁
  induction fuel generalizing j with
  | zero => omega
  | succ fuel ih =>
    rw [memmemBoucle]
    by_cases hj : j ≤ Y.length - (X.length + 2)
    · have hj₁ : j + 1 < Y.length := by omega
      have hY : ∀ i, (h : j + i < Y.length) → lireUchar m (y + j + i) = .ok Y[j + i] := fun i h =>
        lireUchar_eq (by rw [Nat.add_assoc]; exact hy (j + i) h)
      have hY₀ : lireUchar m (y + j) = .ok Y[j] := hY 0 (by omega)
      -- What the next place of the loop needs.
      have hsuite : ∀ pas, 1 ≤ pas → pas ≤ 2 → (¬ a :: b :: X <+: Y.drop j) → (pas = 2 → ¬ a :: b :: X <+: Y.drop (j + 1)) →
          ∃ r, memmemBoucle m y x Y.length (X.length + 2) kk ll fuel (j + pas) = .ok r ∧ Premier (a :: b :: X) Y y r := by
        intro pas h₁ h₂ hno hno'
        refine ih (by omega) fun i hi => ?_
        rcases Nat.lt_trichotomy i j with h | rfl | h
        · exact hpas i h
        · exact hno
        · obtain rfl : i = j + 1 := by omega
          exact hno' (by omega)
      rw [if_pos hj, lireUchar_eq hxb, ok_bind, hY 1 hj₁, ok_bind]
      by_cases hb : b = Y[j + 1]
      · rw [if_neg (not_not.2 hb)]
        have hlen : j + 2 + X.length ≤ Y.length := by omega
        obtain ⟨r, hr, hr0⟩ := memcmp_prefix hx₂ hy hlen
        have hl : ∀ h : ¬ a :: b :: X <+: Y.drop j, ll = 2 → ¬ a :: b :: X <+: Y.drop (j + 1) := by
          intro _ hl2 hp
          have hne : a ≠ b := fun hab => by
            rw [if_pos hab] at hkl
            omega
          have hj₂ : j + 1 + 1 < Y.length := by
            have := prefix_drop_le hp
            simp only [List.length_cons] at this
            omega
          exact hne (((prefix_drop_iff hj₂).1 hp).1.trans hb.symm)
        have hll : 1 ≤ ll ∧ ll ≤ 2 := by
          split at hkl <;> omega
        have hm : memcmp m (x + 2) (y + j + 2) (X.length + 2 - 2) = .ok r := hr
        rw [hm, ok_bind]
        by_cases h0 : r = 0
        · rw [if_neg (not_not.2 h0), lireUchar_eq hxa, ok_bind, hY₀, ok_bind]
          by_cases ha : a = Y[j]
          · rw [if_pos ha]
            exact ⟨_, rfl, j, rfl, (prefix_drop_iff hj₁).2 ⟨ha, hb, hr0.1 h0⟩, hpas⟩
          · have hno : ¬ a :: b :: X <+: Y.drop j := fun hp => ha ((prefix_drop_iff hj₁).1 hp).1
            rw [if_neg ha]
            exact hsuite ll hll.1 hll.2 hno (hl hno)
        · have hno : ¬ a :: b :: X <+: Y.drop j := fun hp => h0 (hr0.2 ((prefix_drop_iff hj₁).1 hp).2.2)
          rw [if_pos h0]
          exact hsuite ll hll.1 hll.2 hno (hl hno)
      · have hno : ¬ a :: b :: X <+: Y.drop j := fun hp => hb ((prefix_drop_iff hj₁).1 hp).2.1
        have hk : kk = 2 → ¬ a :: b :: X <+: Y.drop (j + 1) := by
          intro hk2 hp
          have hab : a = b := by
            by_contra hne
            rw [if_neg hne] at hkl
            omega
          have hj₂ : j + 1 + 1 < Y.length := by
            have := prefix_drop_le hp
            simp only [List.length_cons] at this
            omega
          exact hb (hab.symm.trans ((prefix_drop_iff hj₂).1 hp).1)
        have hkk : 1 ≤ kk ∧ kk ≤ 2 := by
          split at hkl <;> omega
        rw [if_pos hb]
        exact hsuite kk hkk.1 hkk.2 hno hk
    · rw [if_neg hj]
      refine ⟨none, rfl, fun i hp => ?_⟩
      by_cases hi : i < j
      · exact hpas i hi hp
      · have := prefix_drop_le hp
        simp only [List.length_cons] at this
        omega

theorem premier_nil {α : Type} {a : α} {y : Nat} : Premier [a] [] y none := fun j hp => by simpa using hp.length_le

theorem premier_tete {α : Type} {a : α} {Y : List α} {y : Nat} : Premier [a] (a :: Y) y (some y) := ⟨0, rfl, by simp, nofun⟩

theorem Premier.suite {α : Type} {a b : α} {Y : List α} {y : Nat} {r : Option Nat} (h : Premier [a] Y (y + 1) r) (hba : b ≠ a) :
    Premier [a] (b :: Y) y r := by
  have h0 : ¬ [a] <+: (b :: Y).drop 0 := fun hp => hba (List.cons_prefix_cons.1 hp).1.symm
  cases r with
  | none =>
    intro j hj
    cases j with
    | zero => exact h0 hj
    | succ j => exact h j hj
  | some r =>
    obtain ⟨j, rfl, hpj, hno⟩ := h
    refine ⟨j + 1, by omega, hpj, fun i hi => ?_⟩
    cases i with
    | zero => exact h0
    | succ i => exact hno i (by omega)

theorem memmemUn_spec {a y x : Nat} (hx : uchars m x = some a) (hy : StandsAt (uchars m) y Y) :
    ∃ r, memmemUn m y x Y.length = .ok r ∧ Premier [a] Y y r := by
  induction Y generalizing y with
  | nil => exact ⟨none, rfl, premier_nil⟩
  | cons b Y ih =>
    obtain ⟨hb, hy⟩ := standsAt_cons.1 hy
    rw [List.length_cons, memmemUn, lireUchar_eq hb, ok_bind, lireUchar_eq hx, ok_bind]
    by_cases hba : b = a
    · subst hba
      rw [if_pos rfl]
      exact ⟨_, rfl, premier_tete⟩
    · obtain ⟨r, hr, hp⟩ := ih hy
      rw [if_neg hba]
      exact ⟨r, hr, hp.suite hba⟩

/-- `memmem` finds the first occurrence of a needle that is not empty. -/
theorem memmem_premier {y x : Nat} (hx : StandsAt (uchars m) x X) (hy : StandsAt (uchars m) y Y) (h0 : X ≠ []) :
    ∃ r, memmem m y Y.length x X.length = .ok r ∧ Premier X Y y r := by
  have hpos := List.length_pos_of_ne_nil h0
  rw [memmem]
  by_cases hlen : X.length > Y.length ∨ X.length = 0 ∨ Y.length = 0
  · rw [if_pos hlen]
    refine ⟨none, rfl, fun j hp => ?_⟩
    have := prefix_drop_le hp
    omega
  rw [if_neg hlen]
  match X, hx with
  | [a], hx =>
    rw [if_neg (by simp)]
    exact memmemUn_spec (standsAt_cons.1 hx).1 hy
  | a :: b :: X, hx =>
    have hx₁ := standsAt_cons.1 hx
    rw [if_pos (by simp), lireUchar_eq hx₁.1, ok_bind, lireUchar_eq (standsAt_cons.1 hx₁.2).1, ok_bind]
    simp only [List.length_cons] at hlen ⊢
    by_cases hab : a = b
    · rw [if_pos hab]
      exact memmemBoucle_spec hx hy (by omega) (by rw [if_pos hab]; exact ⟨rfl, rfl⟩) (by omega) nofun
    · rw [if_neg hab]
      exact memmemBoucle_spec hx hy (by omega) (by rw [if_neg hab]; exact ⟨rfl, rfl⟩) (by omega) nofun

theorem strlenBoucle_spec (h : Chaine m p l) (hk : l.length < k) (n : Nat) : strlenBoucle m k p n = .ok (n + l.length) := by
  induction l generalizing p k n with
  | nil =>
    obtain ⟨k, rfl⟩ := Nat.exists_eq_succ_of_ne_zero (Nat.ne_of_gt hk)
    rw [strlenBoucle, lire_eq (chaine_nil.1 h), ok_bind]
    rfl
  | cons c l ih =>
    obtain ⟨k, rfl⟩ := Nat.exists_eq_succ_of_ne_zero (show k ≠ 0 by omega)
    obtain ⟨hc, h0, -, hl⟩ := chaine_cons.1 h
    rw [strlenBoucle, lire_eq hc, ok_bind, if_neg h0, ih hl (by simpa using hk), List.length_cons, Nat.add_assoc, Nat.add_comm 1]

theorem strlen_spec (h : Chaine m p l) (hl : l.length < ESPACE) : strlen m p = .ok l.length := by
  rw [strlen, strlenBoucle_spec h hl, Nat.zero_add]

theorem prefix_map_toUchar (h₁ : ∀ c ∈ l₁, -128 ≤ c ∧ c ≤ 127) (h₂ : ∀ c ∈ l₂, -128 ≤ c ∧ c ≤ 127) :
    l₂.map toUchar <+: l₁.map toUchar ↔ l₂ <+: l₁ := by
  induction l₂ generalizing l₁ with
  | nil => simp
  | cons c l₂ ih =>
    cases l₁ with
    | nil => simp
    | cons d l₁ =>
      rw [List.forall_mem_cons] at h₁ h₂
      rw [List.map_cons, List.map_cons, List.cons_prefix_cons, List.cons_prefix_cons, ih h₁.2 h₂.2, toUchar_inj h₂.1 h₁.1]

/-- `strstr` finds the first occurrence of a string; the empty string is not found. -/
theorem strstr_premier (h₁ : Chaine m p l₁) (h₂ : Chaine m q l₂) (hl₁ : l₁.length < ESPACE) (hl₂ : l₂.length < ESPACE) :
    ∃ r, strstr m p q = .ok r ∧ (if l₂ = [] then r = none else Premier l₂ l₁ p r) := by
  rw [strstr, strlen_spec h₁ hl₁, ok_bind, strlen_spec h₂ hl₂, ok_bind]
  by_cases h0 : l₂ = []
  · subst h0
    exact ⟨none, if_pos (.inr (.inl rfl)), by rw [if_pos rfl]⟩
  have hu₁ := (standsAt_append.1 h₁.uchars.1).1
  have hu₂ := (standsAt_append.1 h₂.uchars.1).1
  obtain ⟨r, hr, hp⟩ := memmem_premier hu₂ hu₁ (by simpa using h0)
  rw [List.length_map, List.length_map] at hr
  refine ⟨r, hr, ?_⟩
  have hiff : ∀ j, l₂.map toUchar <+: (l₁.map toUchar).drop j ↔ l₂ <+: l₁.drop j := by
    intro j
    rw [← List.map_drop]
    exact prefix_map_toUchar (fun c hc => h₁.char c (List.mem_of_mem_drop hc)) h₂.char
  rw [if_neg h0]
  cases r with
  | none => exact fun j hj => hp j ((hiff j).2 hj)
  | some r =>
    obtain ⟨j, hj, hpj, hno⟩ := hp
    exact ⟨j, hj, (hiff j).1 hpj, fun i hi h => hno i hi ((hiff i).2 h)⟩

theorem strstr_premier_abc : ∃ r, strstr memoireExemple 0 9 = .ok r ∧
    (if ([98, 44] : List Int) = [] then r = none else Premier ([98, 44] : List Int) [97, 44, 98, 44, 44, 99] 0 r) :=
  strstr_premier chaine_abc chaine_b (by decide) (by decide)

/-! ## Characters -/

/-- `r` is where `x` last is in `L`, which is at `p`. -/
def Dernier {α : Type} (x : α) (L : List α) (p : Nat) : Option Nat → Prop
  | some r => ∃ a b, L = a ++ x :: b ∧ x ∉ b ∧ r = p + a.length
  | none => x ∉ L

theorem memchr_premier (h : StandsAt (uchars m) p L) (c : Int) :
    ∃ r, memchr m p c L.length = .ok r ∧ Premier [toUchar c] L p r := by
  induction L generalizing p with
  | nil => exact ⟨none, rfl, premier_nil⟩
  | cons b L ih =>
    obtain ⟨hb, h⟩ := standsAt_cons.1 h
    rw [List.length_cons, memchr, lireUchar_eq hb, ok_bind]
    by_cases hbc : b = toUchar c
    · subst hbc
      rw [if_pos rfl]
      exact ⟨_, rfl, premier_tete⟩
    · obtain ⟨r, hr, hp⟩ := ih h
      rw [if_neg hbc]
      exact ⟨r, hr, hp.suite hbc⟩

theorem memrchr_dernier (h : StandsAt (uchars m) p L) (c : Int) :
    ∃ r, memrchr m p c L.length = .ok r ∧ Dernier (toUchar c) L p r := by
  induction L using List.reverseRecOn with
  | nil => exact ⟨none, rfl, List.not_mem_nil⟩
  | append_singleton L b ih =>
    obtain ⟨h, hb⟩ := standsAt_append.1 h
    rw [List.length_append, List.length_singleton, memrchr, lireUchar_eq (standsAt_cons.1 hb).1, ok_bind]
    by_cases hbc : b = toUchar c
    · subst hbc
      rw [if_pos rfl]
      exact ⟨_, rfl, L, [], rfl, List.not_mem_nil, rfl⟩
    · obtain ⟨r, hr, hd⟩ := ih h
      rw [if_neg hbc]
      refine ⟨r, hr, ?_⟩
      cases r with
      | none => exact fun hm => (List.mem_append.1 hm).elim hd fun hm => hbc (List.mem_singleton.1 hm).symm
      | some r =>
        obtain ⟨a, b', rfl, hno, rfl⟩ := hd
        refine ⟨a, b' ++ [b], by simp, fun hm => ?_, rfl⟩
        exact (List.mem_append.1 hm).elim hno fun hm => hbc (List.mem_singleton.1 hm).symm

/-- The first character is looked at last. -/
theorem memrchr_cons {x : Nat} (hx : uchars m p = some x) (c : Int) (n : Nat) :
    memrchr m p c (n + 1) = (memrchr m (p + 1) c n).map fun r => r <|> if x = toUchar c then some p else none := by
  induction n with
  | zero =>
    have h₁ : memrchr m p c 1 = if x = toUchar c then .ok (some p) else .ok none := by
      rw [memrchr, Nat.add_zero, lireUchar_eq hx]
      rfl
    rw [h₁, memrchr]
    split <;> rfl
  | succ n ih =>
    have hpas : ∀ q i, memrchr m q c (i + 1) =
        lireUchar m (q + i) >>= fun y => if y = toUchar c then .ok (some (q + i)) else memrchr m q c i := fun q i => rfl
    rw [hpas p (n + 1), ih, hpas (p + 1) n, Nat.add_right_comm p 1 n, ← Nat.add_assoc]
    cases lireUchar m (p + n + 1) with
    | error e => rfl
    | ok y =>
      rw [ok_bind, ok_bind]
      split <;> rfl

theorem toUchar_eq_iff (h : -128 ≤ c ∧ c ≤ 127) (d : Int) : c = toChar d ↔ toUchar c = toUchar d := by
  unfold toUchar toChar
  omega

theorem strchrBoucle_memchr (h : Chaine m p l) (hk : l.length < k) (c : Int) :
    strchrBoucle m c k p = memchr m p c (l.length + 1) := by
  induction l generalizing p k with
  | nil =>
    obtain ⟨k, rfl⟩ := Nat.exists_eq_succ_of_ne_zero (Nat.ne_of_gt hk)
    have h0 := chaine_nil.1 h
    have hx : uchars m p = some (toUchar 0) := by rw [uchars, h0, Option.map_some]
    have hc := toUchar_eq_iff (c := 0) (by decide) c
    rw [strchrBoucle, memchr, lire_eq h0, ok_bind, lireUchar_eq hx, ok_bind]
    by_cases hz : 0 = toChar c
    · rw [if_pos hz, if_pos (hc.1 hz)]
    · rw [if_neg hz, if_pos rfl, if_neg fun h => hz (hc.2 h)]
      rfl
  | cons d l ih =>
    obtain ⟨k, rfl⟩ := Nat.exists_eq_succ_of_ne_zero (show k ≠ 0 by omega)
    obtain ⟨hd, h0, hr, hl⟩ := chaine_cons.1 h
    have hx : uchars m p = some (toUchar d) := by rw [uchars, hd, Option.map_some]
    have hc := toUchar_eq_iff hr c
    rw [strchrBoucle, memchr, lire_eq hd, ok_bind, lireUchar_eq hx, ok_bind]
    by_cases hz : d = toChar c
    · rw [if_pos hz, if_pos (hc.1 hz)]
    · rw [if_neg hz, if_neg h0, if_neg fun h => hz (hc.2 h), ih hl (by simpa using hk), List.length_cons]

theorem strrchrBoucle_memrchr (h : Chaine m p l) (hk : l.length < k) (c : Int) (found : Option Nat) :
    strrchrBoucle m c k p found = (memrchr m p c l.length).map fun r => r <|> found := by
  induction l generalizing p k found with
  | nil =>
    obtain ⟨k, rfl⟩ := Nat.exists_eq_succ_of_ne_zero (Nat.ne_of_gt hk)
    rw [strrchrBoucle, lire_eq (chaine_nil.1 h), ok_bind]
    rfl
  | cons d l ih =>
    obtain ⟨k, rfl⟩ := Nat.exists_eq_succ_of_ne_zero (show k ≠ 0 by omega)
    obtain ⟨hd, h0, hr, hl⟩ := chaine_cons.1 h
    have hx : uchars m p = some (toUchar d) := by rw [uchars, hd, Option.map_some]
    have hc : d = toChar c ↔ toUchar d = toUchar c := toUchar_eq_iff hr c
    rw [strrchrBoucle, lire_eq hd, ok_bind, if_neg h0, ih hl (by simpa using hk), List.length_cons, memrchr_cons hx]
    simp only [hc]
    -- A place that comes later is kept, else this one, else the one before.
    cases memrchr m (p + 1) c l.length with
    | error e => rfl
    | ok r =>
      cases r with
      | none => by_cases hz : toUchar d = toUchar c <;> simp [Except.map, hz]
      | some r => rfl

/-- `strchr` is `memchr` over the string and its terminator, `strrchr` is `memrchr` over the string alone: they give the first and
the last place of a character. -/
theorem strchr_memchr (h : Chaine m p l) (hl : l.length < ESPACE) (c : Int) :
    (∃ r, strchr m p c = .ok r ∧ memchr m p c (l.length + 1) = .ok r ∧ Premier [toUchar c] (l.map toUchar ++ [0]) p r) ∧
      ∃ r, strrchr m p c = .ok r ∧ memrchr m p c l.length = .ok r ∧ Dernier (toUchar c) (l.map toUchar) p r := by
  have hu := h.uchars.1
  obtain ⟨r, hr, hp⟩ := memchr_premier hu c
  obtain ⟨r', hr', hd⟩ := memrchr_dernier (standsAt_append.1 hu).1 c
  rw [List.length_append, List.length_map, List.length_singleton] at hr
  rw [List.length_map] at hr'
  refine ⟨⟨r, ?_, hr, hp⟩, r', ?_, hr', hd⟩
  · rw [strchr, strchrBoucle_memchr h hl, hr]
  · rw [strrchr, strrchrBoucle_memrchr h hl, hr']
    cases r' <;> rfl

theorem strchr_memchr_abc :
    (∃ r, strchr memoireExemple 0 44 = .ok r ∧ memchr memoireExemple 0 44 7 = .ok r ∧
      Premier [toUchar 44] ([97, 44, 98, 44, 44, 99].map toUchar ++ [0]) 0 r) ∧
    ∃ r, strrchr memoireExemple 0 44 = .ok r ∧ memrchr memoireExemple 0 44 6 = .ok r ∧
      Dernier (toUchar 44) ([97, 44, 98, 44, 44, 99].map toUchar) 0 r :=
  strchr_memchr chaine_abc (by decide) 44

/-! ## Sets of characters -/

variable {D : List Int}

/-- A set of characters in memory. -/
def Carte256 (f : Nat → Bool) (D : List Int) : Prop := ∀ c, -128 ≤ c → c ≤ 127 → (f (toUchar c) = true ↔ c ∈ D)

theorem matchmapBoucle_spec {f : Nat → Bool} {D' : List Int} (h : Chaine m q D) (hk : D.length < k) (hf : Carte256 f D') :
    ∃ g, matchmapBoucle m k q f = .ok g ∧ Carte256 g (D' ++ D) := by
  induction D generalizing q k f D' with
  | nil =>
    obtain ⟨k, rfl⟩ := Nat.exists_eq_succ_of_ne_zero (Nat.ne_of_gt hk)
    rw [matchmapBoucle, lire_eq (chaine_nil.1 h), ok_bind, List.append_nil]
    exact ⟨f, rfl, hf⟩
  | cons d D ih =>
    obtain ⟨k, rfl⟩ := Nat.exists_eq_succ_of_ne_zero (show k ≠ 0 by omega)
    obtain ⟨hd, h0, hr, hD⟩ := chaine_cons.1 h
    rw [matchmapBoucle, lire_eq hd, ok_bind, if_neg h0]
    have hg : Carte256 (Function.update f (toUchar d) true) (D' ++ [d]) := by
      intro c h₁ h₂
      rw [Function.update_apply, List.mem_append, List.mem_singleton]
      by_cases hc : toUchar c = toUchar d
      · rw [if_pos hc]
        exact ⟨fun _ => .inr ((toUchar_inj ⟨h₁, h₂⟩ hr).1 hc), fun _ => rfl⟩
      · rw [if_neg hc, hf c h₁ h₂]
        exact ⟨.inl, fun h => h.resolve_right fun hcd => hc (congrArg toUchar hcd)⟩
    obtain ⟨g, hg₁, hg₂⟩ := ih hD (by simpa using hk) hg
    exact ⟨g, hg₁, by rwa [List.append_assoc, List.singleton_append] at hg₂⟩

theorem spanBoucle_spec {f : Nat → Bool} {parity : Bool} (h : Chaine m p l) (hk : l.length < k) (h0 : f 0 = parity) (n : Nat) :
    spanBoucle m f parity k p n = .ok (n + (l.takeWhile fun c => f (toUchar c) ^^ parity).length) := by
  induction l generalizing p k n with
  | nil =>
    obtain ⟨k, rfl⟩ := Nat.exists_eq_succ_of_ne_zero (Nat.ne_of_gt hk)
    have hp : lireUchar m p = .ok 0 := by
      rw [lireUchar, lire_eq (chaine_nil.1 h)]
      rfl
    rw [spanBoucle, hp, ok_bind, h0, Bool.xor_self]
    rfl
  | cons c l ih =>
    obtain ⟨k, rfl⟩ := Nat.exists_eq_succ_of_ne_zero (show k ≠ 0 by omega)
    obtain ⟨hc, -, -, hl⟩ := chaine_cons.1 h
    have hp : lireUchar m p = .ok (toUchar c) := by
      rw [lireUchar, lire_eq hc]
      rfl
    rw [spanBoucle, hp, ok_bind, List.takeWhile_cons]
    split
    · rw [ih hl (by simpa using hk), List.length_cons, Nat.add_assoc, Nat.add_comm 1]
    · rfl

theorem takeWhile_congr {α : Type} {f g : α → Bool} {l : List α} (h : ∀ a ∈ l, f a = g a) : l.takeWhile f = l.takeWhile g := by
  induction l with
  | nil => rfl
  | cons a l ih =>
    rw [List.forall_mem_cons] at h
    rw [List.takeWhile_cons, List.takeWhile_cons, h.1, ih h.2]

/-- `strspn` counts the first characters that are in the set, `strcspn` those that are not. -/
theorem strxspn_spec (h : Chaine m p l) (hD : Chaine m q D) (hl : l.length < ESPACE) (hDl : D.length < ESPACE) (parity : Bool) :
    strxspn m p q parity = .ok (l.takeWhile fun c => decide (c ∈ D) ^^ parity).length := by
  obtain ⟨g, hg, hgD⟩ := matchmapBoucle_spec (f := fun _ => false) hD hDl (show Carte256 _ [] from fun c _ _ => by simp)
  rw [strxspn, hg, ok_bind, spanBoucle_spec h hl (Function.update_self _ _ _), Nat.zero_add]
  congr 2
  refine takeWhile_congr fun c hc => ?_
  obtain ⟨h₁, h₂⟩ := h.char c hc
  have h0 : toUchar c ≠ 0 := fun h0 => h.nonNul c hc ((toUchar_zero_iff ⟨h₁, h₂⟩).1 h0)
  rw [Function.update_of_ne h0]
  congr 1
  have hiff := hgD c h₁ h₂
  by_cases hcD : c ∈ D
  · rw [decide_eq_true hcD]
    exact hiff.2 hcD
  · rw [decide_eq_false hcD]
    exact Bool.eq_false_of_not_eq_true fun hg => hcD (hiff.1 hg)

theorem Chaine.lire_fin (h : Chaine m p l) : lire m (p + l.length) = .ok 0 :=
  lire_eq (standsAt_cons.1 (standsAt_append.1 h.texte).2).1

theorem Chaine.lire_dedans {i : Nat} (h : Chaine m p l) (hi : i < l.length) : ∃ c, lire m (p + i) = .ok c ∧ c ≠ 0 :=
  ⟨l[i], lire_eq ((standsAt_append.1 h.texte).1 i hi), h.nonNul _ (List.getElem_mem hi)⟩

theorem strnlen_spec (h : Chaine m p l) (n : Nat) : strnlen m p n = .ok (min l.length n) := by
  induction n generalizing p l with
  | zero => rw [Nat.min_zero, strnlen]
  | succ n ih =>
    cases l with
    | nil => rw [strnlen, lire_eq (chaine_nil.1 h), ok_bind, if_pos rfl, List.length_nil, Nat.zero_min]
    | cons c l =>
      obtain ⟨hc, h0, -, hl⟩ := chaine_cons.1 h
      rw [strnlen, lire_eq hc, ok_bind, if_neg h0, ih hl, ok_bind, List.length_cons, Nat.succ_min_succ]

/-- The first character that is in the set, or `NULL`. -/
theorem strpbrk_spec (h : Chaine m p l) (hD : Chaine m q D) (hl : l.length < ESPACE) (hDl : D.length < ESPACE) :
    strpbrk m p q = .ok (if (l.takeWhile fun c => decide (c ∉ D)).length < l.length
      then some (p + (l.takeWhile fun c => decide (c ∉ D)).length) else none) := by
  have hspan := strxspn_spec h hD hl hDl true
  simp only [Bool.xor_true, ← decide_not] at hspan
  rw [strpbrk, hspan, ok_bind]
  split
  · next hlt =>
    obtain ⟨c, hc, h0⟩ := h.lire_dedans hlt
    rw [hc, ok_bind, if_pos h0]
  · next hle =>
    have hlen : (l.takeWhile fun c => decide (c ∉ D)).length = l.length :=
      Nat.le_antisymm (List.takeWhile_sublist _).length_le (Nat.le_of_not_lt hle)
    rw [hlen, h.lire_fin]
    rfl

/-- The counts of `string.c`: the whole string, the string up to a bound, its first characters in a set and out of it; the
character after the last ones is what `strpbrk` finds. -/
theorem comptes_chaine (h : Chaine m p l) (hD : Chaine m q D) (hl : l.length < ESPACE) (hDl : D.length < ESPACE) :
    strlen m p = .ok l.length ∧ (∀ n, strnlen m p n = .ok (min l.length n)) ∧
      strspn m p q = .ok (l.takeWhile fun c => decide (c ∈ D)).length ∧
      ∃ n, n = (l.takeWhile fun c => decide (c ∉ D)).length ∧ strcspn m p q = .ok n ∧
        strpbrk m p q = .ok (if n < l.length then some (p + n) else none) := by
  refine ⟨strlen_spec h hl, strnlen_spec h, ?_, _, rfl, ?_, strpbrk_spec h hD hl hDl⟩
  · have hspan := strxspn_spec h hD hl hDl false
    simp only [Bool.xor_false] at hspan
    exact hspan
  · have hspan := strxspn_spec h hD hl hDl true
    simp only [Bool.xor_true, ← decide_not] at hspan
    exact hspan

theorem comptes_chaine_abc : strlen memoireExemple 0 = .ok 6 ∧ (∀ n, strnlen memoireExemple 0 n = .ok (min 6 n)) ∧
    strspn memoireExemple 0 7 = .ok 0 ∧
    ∃ n, n = ([97, 44, 98, 44, 44, 99].takeWhile fun c => decide (c ∉ ([44] : List Int))).length ∧
      strcspn memoireExemple 0 7 = .ok n ∧ strpbrk memoireExemple 0 7 = .ok (if n < 6 then some (0 + n) else none) :=
  comptes_chaine chaine_abc chaine_virgule (by decide) (by decide)

/-! ## Cutting a string -/

/-- The first part of a string when its terminator is put at `p + l₁.length`. -/
theorem Chaine.coupe (h : Chaine m p (l₁ ++ c :: l₂)) (hm : m' (p + l₁.length) = some 0)
    (hf : ∀ a, p ≤ a → a < p + l₁.length → m' a = m a) : Chaine m' p l₁ where
  texte := by
    have h₁ := (standsAt_append.1 (standsAt_append.1 h.texte).1).1
    exact standsAt_append.2 ⟨h₁.congr hf, standsAt_cons.2 ⟨hm, standsAt_nil⟩⟩
  nonNul c hc := h.nonNul c (List.mem_append_left _ hc)
  char c hc := h.char c (List.mem_append_left _ hc)

theorem Chaine.reste (h : Chaine m p (l₁ ++ c :: l₂)) : Chaine m (p + l₁.length + 1) l₂ where
  texte := by
    have h₁ := h.texte
    rw [List.append_assoc, standsAt_append, List.cons_append, standsAt_cons] at h₁
    exact h₁.2.2
  nonNul c hc := h.nonNul c (List.mem_append_right _ (List.mem_cons_of_mem _ hc))
  char c hc := h.char c (List.mem_append_right _ (List.mem_cons_of_mem _ hc))

theorem Chaine.congr (h : Chaine m p l) (hm : ∀ a, p ≤ a → a ≤ p + l.length → m' a = m a) : Chaine m' p l where
  texte := h.texte.congr fun a h₁ h₂ => hm a h₁ (by rw [List.length_append, List.length_singleton] at h₂; omega)
  nonNul := h.nonNul
  char := h.char

theorem Chaine.lire_milieu (h : Chaine m p (l₁ ++ c :: l₂)) : m (p + l₁.length) = some c := by
  have h₁ := h.texte
  rw [List.append_assoc, standsAt_append, List.cons_append, standsAt_cons] at h₁
  exact h₁.2.1

/-- No delimiter: the token is what is left. -/
theorem strsep_dernier (h : Chaine m p l) (hD : Chaine m q D) (hl : l.length < ESPACE) (hDl : D.length < ESPACE) (hn : ∀ c ∈ l, c ∉ D) :
    strsep m (some p) q = .ok (some p, m, none) := by
  have hall : l.takeWhile (fun c => decide (c ∉ D)) = l := List.takeWhile_eq_self_iff.2 fun c hc => by simp [hn c hc]
  unfold strsep
  dsimp only
  rw [strpbrk_spec h hD hl hDl, hall, if_neg (Nat.lt_irrefl _), ok_bind]

/-- The token ends at the first delimiter, which becomes its terminator. -/
theorem strsep_coupe (h : Chaine m p (l₁ ++ c :: l₂)) (hD : Chaine m q D) (hl : (l₁ ++ c :: l₂).length < ESPACE)
    (hDl : D.length < ESPACE) (hn : ∀ x ∈ l₁, x ∉ D) (hc : c ∈ D) :
    strsep m (some p) q = .ok (some p, Function.update m (p + l₁.length) (some 0), some (p + l₁.length + 1)) := by
  have hall : (l₁ ++ c :: l₂).takeWhile (fun c => decide (c ∉ D)) = l₁ := by
    rw [List.takeWhile_append_of_pos fun x hx => by simp [hn x hx], List.takeWhile_cons, if_neg (by simp [hc]), List.append_nil]
  have hlt : l₁.length < (l₁ ++ c :: l₂).length := by simp
  unfold strsep
  dsimp only
  rw [strpbrk_spec h hD hl hDl, hall, if_pos hlt, ok_bind]
  dsimp only
  rw [ecrire_eq (by rw [h.lire_milieu]; rfl), ok_bind]

/-! ## A run of `strtok` -/

/-- `strtok(NULL, delim)`, `n` times. -/
def strtokSuite (delim : Nat) : Nat → Memoire → Option Nat → Except Fault (List (Option Nat) × Memoire)
  | 0, m, _ => .ok ([], m)
  | n + 1, m, holder => do
    let (r, m, holder) ← strtok m none delim holder
    let (rs, m) ← strtokSuite delim n m holder
    .ok (r :: rs, m)

/-- `strtok(s, delim)`, and then `n` times `strtok(NULL, delim)`. -/
def strtokAppels (m : Memoire) (s delim : Nat) (holder : Option Nat) (n : Nat) : Except Fault (List (Option Nat) × Memoire) := do
  let (r, m, holder) ← strtok m (some s) delim holder
  let (rs, m) ← strtokSuite delim n m holder
  .ok (r :: rs, m)

/-- Where the pieces of a string at `p` start. -/
def debuts (p : Nat) : List (List Int) → List Nat
  | [] => []
  | l :: ls => p :: debuts (p + l.length + 1) ls

/-- Up to the first delimiter. -/
theorem premier_delimiteur (l D : List Int) : (∀ c ∈ l, c ∉ D) ∨ ∃ a c b, l = a ++ c :: b ∧ (∀ x ∈ a, x ∉ D) ∧ c ∈ D := by
  induction l with
  | nil => exact .inl (by simp)
  | cons c l ih =>
    by_cases hc : c ∈ D
    · exact .inr ⟨[], c, l, rfl, by simp, hc⟩
    · rcases ih with h | ⟨a, d, b, rfl, ha, hd⟩
      · exact .inl (List.forall_mem_cons.2 ⟨hc, h⟩)
      · exact .inr ⟨c :: a, d, b, rfl, List.forall_mem_cons.2 ⟨hc, ha⟩, hd⟩

theorem strtokSuite_none (k : Nat) : strtokSuite q k m none = .ok (List.replicate k none, m) := by
  induction k with
  | zero => rfl
  | succ k ih =>
    rw [strtokSuite]
    show (strtokSuite q k m none >>= fun x => .ok (none :: x.1, x.2)) = _
    rw [ih]
    rfl

theorem strtokSuite_succ {r holder h' : Option Nat} (h : strsep m holder q = .ok (r, m', h')) :
    strtokSuite q (n + 1) m holder = (strtokSuite q n m' h').map fun x => (r :: x.1, x.2) := by
  have ht : strtok m none q holder = .ok (r, m', h') := h
  rw [strtokSuite, ht]
  show (strtokSuite q n m' h' >>= fun x => .ok (r :: x.1, x.2)) = _
  cases strtokSuite q n m' h' <;> rfl

theorem strtokSuite_spec (h : Chaine m p l) (hD : Chaine m q D) (hdis : q + D.length < p ∨ p + l.length < q) (hl : l.length < ESPACE)
    (hDl : D.length < ESPACE) (k : Nat) :
    ∃ m', strtokSuite q ((l.splitOnP (· ∈ D)).length + k) m (some p) =
        .ok ((debuts p (l.splitOnP (· ∈ D))).map some ++ List.replicate k none, m') ∧
      List.Forall₂ (Chaine m') (debuts p (l.splitOnP (· ∈ D))) (l.splitOnP (· ∈ D)) ∧
      ∀ a, (a < p ∨ p + l.length ≤ a) → m' a = m a := by
  -- On the length: what is left after a delimiter is a shorter string, with its own pieces.
  induction hn : l.length using Nat.strong_induction_on generalizing m p l with
  | _ n ih =>
    subst hn
    rcases premier_delimiteur l D with hno | ⟨a, c, b, rfl, ha, hc⟩
    · rw [List.splitOnP_eq_singleton fun x hx => decide_eq_false (hno x hx)]
      refine ⟨m, ?_, .cons h .nil, fun _ _ => rfl⟩
      rw [List.length_singleton, Nat.add_comm, strtokSuite_succ (strsep_dernier h hD hl hDl hno), strtokSuite_none]
      rfl
    · have hlen : (a ++ c :: b).length = a.length + 1 + b.length := by simp; omega
      rw [List.splitOnP_append_cons_of_forall_mem (fun x hx => decide_eq_false (ha x hx)) c (decide_eq_true hc)]
      have hcoupe := strsep_coupe h hD hl hDl ha hc
      -- The delimiter is overwritten; the rest and the set of delimiters lie elsewhere.
      have hmod : ∀ x, x ≠ p + a.length → Function.update m (p + a.length) (some 0) x = m x := fun x hx => Function.update_of_ne hx _ _
      have hb : Chaine (Function.update m (p + a.length) (some 0)) (p + a.length + 1) b :=
        h.reste.congr fun x h₁ _ => hmod x (by omega)
      have hD' : Chaine (Function.update m (p + a.length) (some 0)) q D := hD.congr fun x h₁ h₂ => hmod x (by omega)
      obtain ⟨m', hm, hf, hframe⟩ := ih b.length (by omega) hb hD' (by omega) (by omega) rfl
      refine ⟨m', ?_, .cons (h.coupe ?_ fun x h₁ h₂ => ?_) hf, fun x hx => ?_⟩
      · rw [List.length_cons, Nat.add_right_comm, strtokSuite_succ hcoupe, hm]
        rfl
      · rw [hframe _ (.inl (Nat.lt_succ_self _)), Function.update_self]
      · rw [hframe _ (.inl (by omega)), hmod _ (by omega)]
      · rw [hframe _ (by omega), hmod _ (by omega)]

/-- Calls of `strtok` give the pieces of the string between its delimiters, the empty ones too, one after the other, each with its
terminator, and then `NULL`. -/
theorem strtok_morceaux (h : Chaine m p l) (hD : Chaine m q D) (hdis : q + D.length < p ∨ p + l.length < q) (hl : l.length < ESPACE)
    (hDl : D.length < ESPACE) (holder : Option Nat) (k : Nat) :
    ∃ m', strtokAppels m p q holder ((l.splitOnP (· ∈ D)).length - 1 + k) =
        .ok ((debuts p (l.splitOnP (· ∈ D))).map some ++ List.replicate k none, m') ∧
      List.Forall₂ (Chaine m') (debuts p (l.splitOnP (· ∈ D))) (l.splitOnP (· ∈ D)) ∧
      ∀ a, (a < p ∨ p + l.length ≤ a) → m' a = m a := by
  have hpos := List.length_pos_of_ne_nil (List.splitOnP_ne_nil (· ∈ D) l)
  have hs := strtokSuite_spec h hD hdis hl hDl k
  obtain ⟨n, hn⟩ := Nat.exists_eq_succ_of_ne_zero (Nat.ne_of_gt hpos)
  rw [hn, Nat.succ_add] at hs
  rw [hn, Nat.succ_sub_one]
  exact hs

theorem strtok_morceaux_abc : ∃ m', strtokAppels memoireExemple 0 7 none
      (([97, 44, 98, 44, 44, 99].splitOnP (· ∈ ([44] : List Int))).length - 1 + 2) =
      .ok ((debuts 0 ([97, 44, 98, 44, 44, 99].splitOnP (· ∈ ([44] : List Int)))).map some ++ List.replicate 2 none, m') ∧
    List.Forall₂ (Chaine m') (debuts 0 ([97, 44, 98, 44, 44, 99].splitOnP (· ∈ ([44] : List Int))))
      ([97, 44, 98, 44, 44, 99].splitOnP (· ∈ ([44] : List Int))) ∧
    ∀ a, (a < 0 ∨ 0 + 6 ≤ a) → m' a = memoireExemple a :=
  strtok_morceaux chaine_abc chaine_virgule (by decide) (by decide) (by decide) none 2

end Pcsea
