import Pcsea.ChainesSpec
/-!
# What `string.c` copies

A block is moved whatever the overlap, a string with its terminator. The functions
with a bound agree with those without when the string fits.
-/

namespace Pcsea

open Lib

variable {m m' : Memoire} {p q n k dst src : Nat} {c : Int} {l l₁ l₂ t : List Int}

/-! ## Blocks -/

theorem movsb_spec (h : StandsAt m p t) (hq : Mapped m q t.length) (hd : q ≤ p ∨ p + t.length ≤ q) :
    movsb m q p t.length = .ok (writeAt m q t) := by
  induction t generalizing m p q with
  | nil => rfl
  | cons c t ih =>
    obtain ⟨hc, ht⟩ := standsAt_cons.1 h
    obtain ⟨hq₀, hq₁⟩ := mapped_succ.1 hq
    rw [List.length_cons] at hd
    have ht' : StandsAt (Function.update m q (some c)) (p + 1) t := ht.congr fun a h₁ h₂ => Function.update_of_ne (by omega) _ _
    rw [List.length_cons, movsb, lire_eq hc, ok_bind, ecrire_eq hq₀, ok_bind, ih ht' hq₁.update (by omega), writeAt_cons]

theorem movsbArriere_spec (h : StandsAt m p t) (hq : Mapped m q t.length) (hd : p ≤ q ∨ q + t.length ≤ p) :
    movsbArriere m q p t.length = .ok (writeAt m q t) := by
  induction t using List.reverseRecOn generalizing m with
  | nil => rfl
  | append_singleton t c ih =>
    obtain ⟨ht, hc⟩ := standsAt_append.1 h
    have hc := (standsAt_cons.1 hc).1
    rw [List.length_append, List.length_singleton] at hd hq ⊢
    have hcell := hq t.length (Nat.lt_succ_self _)
    have ht' : StandsAt (Function.update m (q + t.length) (some c)) p t :=
      ht.congr fun a h₁ h₂ => Function.update_of_ne (by omega) _ _
    rw [movsbArriere, lire_eq hc, ok_bind, ecrire_eq hcell, ok_bind, ih ht' (hq.mono (Nat.le_succ _)).update (by omega),
      writeAt_update (.inr (Nat.le_refl _)), writeAt_append, writeAt_cons, writeAt_nil]

/-- The block is moved as it was, whatever the overlap, and the other cells are left alone. -/
theorem memmove_writeAt (h : StandsAt m src t) (hd : Mapped m dst t.length) : Memoire.memmove m dst src t.length = .ok (writeAt m dst t) := by
  unfold Memoire.memmove
  split
  · exact movsb_spec h hd (.inl (by omega))
  · exact movsbArriere_spec h hd (.inl (by omega))

theorem memmove_writeAt_abc : Memoire.memmove memoireExemple 1 0 3 = .ok (writeAt memoireExemple 1 [97, 44, 98]) :=
  memmove_writeAt (t := [97, 44, 98]) (by simp [standsAt_cons, standsAt_nil, memoireExemple]) (mapped_exemple (by decide))

theorem movsl_spec {nl : Nat} (h : StandsAt m p t) (hq : Mapped m q t.length) (hd : q ≤ p ∨ p + t.length ≤ q) (hn : t.length = 4 * nl) :
    movsl m q p nl = .ok (writeAt m q t) := by
  induction nl generalizing m p q t with
  | zero =>
    obtain rfl := List.length_eq_zero_iff.1 hn
    rfl
  | succ nl ih =>
    match t, hn with
    | c₀ :: c₁ :: c₂ :: c₃ :: t, hn =>
      simp only [List.length_cons] at hn hd hq
      obtain ⟨h₀, h⟩ := standsAt_cons.1 h
      obtain ⟨h₁, h⟩ := standsAt_cons.1 h
      obtain ⟨h₂, h⟩ := standsAt_cons.1 h
      obtain ⟨h₃, h⟩ := standsAt_cons.1 h
      obtain ⟨hq₀, hq⟩ := mapped_succ.1 hq
      obtain ⟨hq₁, hq⟩ := mapped_succ.1 hq
      obtain ⟨hq₂, hq⟩ := mapped_succ.1 hq
      obtain ⟨hq₃, hq⟩ := mapped_succ.1 hq
      have h' : StandsAt (writeAt m q [c₀, c₁, c₂, c₃]) (p + 1 + 1 + 1 + 1) t :=
        h.congr fun a h₁ h₂ => writeAt_of_not_mem (by simp only [List.length_cons, List.length_nil]; omega)
      have hq' : Mapped (writeAt m q [c₀, c₁, c₂, c₃]) (q + 1 + 1 + 1 + 1) t.length := hq.update.update.update.update
      rw [movsl, lire_eq h₀, ok_bind, lire_eq h₁, ok_bind, lire_eq h₂, ok_bind, lire_eq h₃, ok_bind, ecrire_eq hq₀, ok_bind,
        ecrire_eq (isSome_update hq₁), ok_bind, ecrire_eq (isSome_update (isSome_update hq₂)), ok_bind,
        ecrire_eq (isSome_update (isSome_update (isSome_update hq₃))), ok_bind]
      exact ih h' hq' (by omega) (by omega)

theorem memcpy_writeAt (h : StandsAt m src t) (hd : Mapped m dst t.length) (hov : dst ≤ src ∨ src + t.length ≤ dst) :
    memcpy m dst src t.length = .ok (writeAt m dst t) := by
  have hlen : (t.take (4 * (t.length / 4))).length = 4 * (t.length / 4) := by
    rw [List.length_take]
    omega
  have hlen' : (t.drop (4 * (t.length / 4))).length = t.length % 4 := by
    rw [List.length_drop]
    omega
  have hsplit := List.take_append_drop (4 * (t.length / 4)) t
  rw [← hsplit] at h
  obtain ⟨h₁, h₂⟩ := standsAt_append.1 h
  rw [hlen] at h₂
  have hm := movsl_spec h₁ (hd.mono (by omega)) (by omega) hlen
  have h₂' : StandsAt (writeAt m dst (t.take (4 * (t.length / 4)))) (src + 4 * (t.length / 4)) (t.drop (4 * (t.length / 4))) :=
    h₂.congr fun a h₁ h₂ => writeAt_of_not_mem (by omega)
  have hd' : Mapped (writeAt m dst (t.take (4 * (t.length / 4)))) (dst + 4 * (t.length / 4)) (t.drop (4 * (t.length / 4))).length := by
    intro i hi
    rw [Nat.add_assoc]
    exact isSome_writeAt (hd _ (by omega))
  have hb := movsb_spec h₂' hd' (by omega)
  rw [hlen'] at hb
  rw [memcpy, hm, ok_bind, hb]
  conv_rhs => rw [← hsplit, writeAt_append, hlen]

/-- Where both are used right, `memcpy` by words is `memmove` by characters. -/
theorem memcpy_memmove (h : StandsAt m src t) (hd : Mapped m dst t.length) (hov : dst ≤ src ∨ src + t.length ≤ dst) :
    memcpy m dst src t.length = Memoire.memmove m dst src t.length := by
  rw [memcpy_writeAt h hd hov, memmove_writeAt h hd]

theorem memcpy_memmove_abc : memcpy memoireExemple 0 1 5 = Memoire.memmove memoireExemple 0 1 5 :=
  memcpy_memmove (t := [44, 98, 44, 44, 99]) (by simp [standsAt_cons, standsAt_nil, memoireExemple])
    (mapped_exemple (by decide)) (.inl (by decide))

theorem stosb_spec (h : Mapped m q n) : stosb m q c n = .ok (writeAt m q (List.replicate n c)) := by
  induction n generalizing m q with
  | zero => rfl
  | succ n ih =>
    obtain ⟨h₀, h₁⟩ := mapped_succ.1 h
    rw [stosb, ecrire_eq h₀, ok_bind, ih h₁.update, List.replicate_succ, writeAt_cons]

theorem stosl_spec {nl : Nat} (h : Mapped m q (4 * nl)) : stosl m q c nl = .ok (writeAt m q (List.replicate (4 * nl) c)) := by
  induction nl generalizing m q with
  | zero => rfl
  | succ nl ih =>
    obtain ⟨h₀, h⟩ := mapped_succ.1 h
    obtain ⟨h₁, h⟩ := mapped_succ.1 h
    obtain ⟨h₂, h⟩ := mapped_succ.1 h
    obtain ⟨h₃, h⟩ := mapped_succ.1 h
    rw [stosl, ecrire_eq h₀, ok_bind, ecrire_eq (isSome_update h₁), ok_bind, ecrire_eq (isSome_update (isSome_update h₂)), ok_bind,
      ecrire_eq (isSome_update (isSome_update (isSome_update h₃))), ok_bind]
    exact ih h.update.update.update.update

/-- `memset` by words fills every character. -/
theorem memset_writeAt (h : Mapped m dst n) (c : Int) : memset m dst c n = .ok (writeAt m dst (List.replicate n (toChar c))) := by
  have hd : Mapped (writeAt m dst (List.replicate (4 * (n / 4)) (toChar c))) (dst + 4 * (n / 4)) (n % 4) := by
    intro i hi
    rw [Nat.add_assoc]
    exact isSome_writeAt (h _ (by omega))
  rw [memset, stosl_spec (h.mono (by omega)), ok_bind, stosb_spec hd]
  have hn : List.replicate n (toChar c) = List.replicate (4 * (n / 4)) (toChar c) ++ List.replicate (n % 4) (toChar c) := by
    rw [List.replicate_append_replicate, Nat.div_add_mod]
  conv_rhs => rw [hn, writeAt_append, List.length_replicate]

theorem memccpy_absent (h : StandsAt m src t) (hd : Mapped m dst t.length) (hov : dst ≤ src ∨ src + t.length ≤ dst)
    (hno : toChar c ∉ t) : memccpy m dst src c t.length = .ok (none, writeAt m dst t) := by
  induction t generalizing m dst src with
  | nil => rfl
  | cons d t ih =>
    obtain ⟨hc, ht⟩ := standsAt_cons.1 h
    obtain ⟨h₀, h₁⟩ := mapped_succ.1 hd
    rw [List.length_cons] at hov
    rw [List.mem_cons, not_or] at hno
    have ht' : StandsAt (Function.update m dst (some d)) (src + 1) t := ht.congr fun a _ _ => Function.update_of_ne (by omega) _ _
    rw [List.length_cons, memccpy, lire_eq hc, ok_bind, ecrire_eq h₀, ok_bind, if_neg (Ne.symm hno.1),
      ih ht' h₁.update (by omega) hno.2, writeAt_cons]

theorem memccpy_trouve (h : StandsAt m src (t ++ [toChar c])) (hd : Mapped m dst (t.length + 1))
    (hov : dst ≤ src ∨ src + t.length < dst) (hno : toChar c ∉ t) (hn : t.length < n) :
    memccpy m dst src c n = .ok (some (dst + t.length + 1), writeAt m dst (t ++ [toChar c])) := by
  induction t generalizing m dst src n with
  | nil =>
    obtain ⟨n, rfl⟩ := Nat.exists_eq_succ_of_ne_zero (Nat.ne_of_gt hn)
    rw [memccpy, lire_eq (standsAt_cons.1 h).1, ok_bind, ecrire_eq (mapped_succ.1 hd).1, ok_bind, if_pos rfl]
    rfl
  | cons d t ih =>
    obtain ⟨n, rfl⟩ := Nat.exists_eq_succ_of_ne_zero (Nat.ne_zero_of_lt hn)
    rw [List.cons_append] at h
    obtain ⟨hc, ht⟩ := standsAt_cons.1 h
    obtain ⟨h₀, h₁⟩ := mapped_succ.1 hd
    rw [List.length_cons] at hov hn
    rw [List.mem_cons, not_or] at hno
    have ht' : StandsAt (Function.update m dst (some d)) (src + 1) (t ++ [toChar c]) :=
      ht.congr fun a _ h₂ => Function.update_of_ne (by rw [List.length_append, List.length_singleton] at h₂; omega) _ _
    rw [memccpy, lire_eq hc, ok_bind, ecrire_eq h₀, ok_bind, if_neg (Ne.symm hno.1), ih ht' h₁.update (by omega) hno.2 (by omega),
      List.cons_append, writeAt_cons, List.length_cons, Nat.add_right_comm dst, Nat.add_assoc dst]

/-! ## Copies of strings -/

/-- The string at `src` is not in the `n` cells from `q` on. -/
def Ailleurs (src : Nat) (l : List Int) (q n : Nat) : Prop := src + l.length < q ∨ q + n ≤ src

theorem Chaine.memccpy_eq (h : Chaine m src l) (hd : Mapped m dst (l.length + 1)) (ha : Ailleurs src l dst (l.length + 1))
    (hn : l.length < n) : memccpy m dst src 0 n = .ok (some (dst + l.length + 1), writeAt m dst (l ++ [0])) := by
  unfold Ailleurs at ha
  exact memccpy_trouve h.texte hd (by omega) (fun h0 => h.nonNul 0 h0 rfl) hn

/-- `strcpy` is a `memccpy` that finds the terminator. -/
theorem strcpyBoucle_memccpy {r : Nat} (h : memccpy m q p 0 k = .ok (some r, m')) : strcpyBoucle k m q p = .ok m' := by
  induction k generalizing m q p with
  | zero => cases h
  | succ k ih =>
    obtain ⟨ch, hch, h⟩ := bind_eq_ok.1 h
    obtain ⟨m₁, hm, h⟩ := bind_eq_ok.1 h
    rw [strcpyBoucle, hch, ok_bind, hm, ok_bind]
    by_cases h0 : ch = 0
    · rw [if_pos (show ch = toChar 0 from h0)] at h
      cases h
      exact if_pos h0
    · rw [if_neg (show ch ≠ toChar 0 from h0)] at h
      rw [if_neg h0]
      exact ih h

theorem strcpy_writeAt (h : Chaine m src l) (hd : Mapped m dst (l.length + 1)) (ha : Ailleurs src l dst (l.length + 1))
    (hl : l.length < ESPACE) : strcpy m dst src = .ok (writeAt m dst (l ++ [0])) := strcpyBoucle_memccpy (h.memccpy_eq hd ha hl)

/-- `strncpy` writes `n` characters, a string of `n` or more without its terminator. -/
theorem strncpy_writeAt (h : Chaine m src l) (hd : Mapped m dst n) (ha : Ailleurs src l dst n) :
    strncpy m dst src n = .ok (writeAt m dst ((l ++ List.replicate n 0).take n)) := by
  induction n generalizing m dst src l with
  | zero => rfl
  | succ n ih =>
    obtain ⟨h₀, h₁⟩ := mapped_succ.1 hd
    unfold Ailleurs at ha
    cases l with
    | nil =>
      rw [strncpy, lire_eq (chaine_nil.1 h), ok_bind, ecrire_eq h₀, ok_bind, if_pos rfl, memset_writeAt h₁.update]
      rw [List.nil_append, List.take_of_length_le (by rw [List.length_replicate]), List.replicate_succ, writeAt_cons]
      rfl
    | cons c l =>
      obtain ⟨hc, h0, -, hl⟩ := chaine_cons.1 h
      rw [List.length_cons] at ha
      have hl' : Chaine (Function.update m dst (some c)) (src + 1) l := hl.congr fun a h₁ h₂ => Function.update_of_ne (by omega) _ _
      have ht : (l ++ List.replicate (n + 1) 0).take n = (l ++ List.replicate n (0 : Int)).take n := by
        rw [List.replicate_succ', ← List.append_assoc, List.take_append_of_le_length]
        rw [List.length_append, List.length_replicate]
        omega
      rw [strncpy, lire_eq hc, ok_bind, ecrire_eq h₀, ok_bind, if_neg h0, ih hl' h₁.update (by unfold Ailleurs; omega), List.cons_append,
        List.take_succ_cons, ht, writeAt_cons]

/-- With a bound that a string does not reach, `memccpy` of its terminator is `strcpy`, and `strncpy` is `strcpy` and then `memset` of
what is left. With a smaller one both copy the first `n` characters, and no terminator. -/
theorem strncpy_borne (h : Chaine m src l) (hd : Mapped m dst n) (ha : Ailleurs src l dst n) (hl : l.length < ESPACE) :
    (l.length < n → strcpy m dst src = .ok (writeAt m dst (l ++ [0])) ∧
        memccpy m dst src 0 n = .ok (some (dst + l.length + 1), writeAt m dst (l ++ [0])) ∧
        strncpy m dst src n = memset (writeAt m dst (l ++ [0])) (dst + l.length + 1) 0 (n - (l.length + 1))) ∧
      (n ≤ l.length → memccpy m dst src 0 n = .ok (none, writeAt m dst (l.take n)) ∧
        strncpy m dst src n = .ok (writeAt m dst (l.take n))) := by
  constructor
  · intro hn
    have hd' : Mapped m dst (l.length + 1) := hd.mono hn
    have ha' : Ailleurs src l dst (l.length + 1) := by
      unfold Ailleurs at ha ⊢
      omega
    have hfin : Mapped (writeAt m dst (l ++ [0])) (dst + l.length + 1) (n - (l.length + 1)) := by
      intro i hi
      rw [Nat.add_assoc, Nat.add_assoc]
      exact isSome_writeAt (hd _ (by omega))
    have hz : (l ++ List.replicate n 0).take n = (l ++ [0]) ++ List.replicate (n - (l.length + 1)) (toChar 0) := by
      rw [List.take_append, List.take_of_length_le (Nat.le_of_lt hn), List.take_replicate, List.append_assoc,
        show min (n - l.length) n = n - (l.length + 1) + 1 by omega, List.replicate_succ]
      rfl
    refine ⟨strcpy_writeAt h hd' ha' hl, h.memccpy_eq hd' ha' hn, ?_⟩
    rw [strncpy_writeAt h hd ha, memset_writeAt hfin, hz, writeAt_append, List.length_append, List.length_singleton, Nat.add_assoc]
  · intro hn
    have hlen : (l.take n).length = n := List.length_take_of_le hn
    have htexte : StandsAt m src (l.take n) := standsAt_take (standsAt_append.1 h.texte).1
    have hno : toChar 0 ∉ l.take n := fun h0 => h.nonNul _ (List.mem_of_mem_take h0) rfl
    constructor
    · have hm := memccpy_absent (c := 0) htexte (by rwa [hlen]) (by unfold Ailleurs at ha; rw [hlen]; omega) hno
      rwa [hlen] at hm
    · rw [strncpy_writeAt h hd ha, List.take_append_of_le_length hn]

theorem strncpy_borne_abc : (6 < 8 → strcpy memoireExemple 12 0 = .ok (writeAt memoireExemple 12 ([97, 44, 98, 44, 44, 99] ++ [0])) ∧
      memccpy memoireExemple 12 0 0 8 = .ok (some 19, writeAt memoireExemple 12 ([97, 44, 98, 44, 44, 99] ++ [0])) ∧
      strncpy memoireExemple 12 0 8 = memset (writeAt memoireExemple 12 ([97, 44, 98, 44, 44, 99] ++ [0])) 19 0 1) ∧
    (8 ≤ 6 → memccpy memoireExemple 12 0 0 8 = .ok (none, writeAt memoireExemple 12 [97, 44, 98, 44, 44, 99]) ∧
      strncpy memoireExemple 12 0 8 = .ok (writeAt memoireExemple 12 [97, 44, 98, 44, 44, 99])) :=
  strncpy_borne chaine_abc (mapped_exemple (by decide)) (by unfold Ailleurs; decide) (by decide)

/-! ## Concatenation -/

theorem strlcatSaut_strnlen (n : Nat) : strlcatSaut m p n = strnlen m p n := by
  induction n generalizing p with
  | zero => rfl
  | succ n ih => rw [strlcatSaut, strnlen, ih]

/-- Once there is only room for the terminator the source is only counted. -/
theorem strlcatBoucle_spec {bytes : Nat} (h : Chaine m p l) (hk : l.length < k) (hq : Mapped m q (n - 1 - bytes + 1))
    (ha : Ailleurs p l q (n - 1 - bytes + 1)) :
    strlcatBoucle n k m q p bytes = .ok (bytes + l.length, writeAt m q (l.take (n - 1 - bytes) ++ [0])) := by
  induction l generalizing m p q k bytes with
  | nil =>
    obtain ⟨k, rfl⟩ := Nat.exists_eq_succ_of_ne_zero (Nat.ne_of_gt hk)
    rw [strlcatBoucle, lire_eq (chaine_nil.1 h), ok_bind, if_pos rfl, ecrire_eq (mapped_succ.1 hq).1, ok_bind, List.take_nil]
    rfl
  | cons c l ih =>
    obtain ⟨k, rfl⟩ := Nat.exists_eq_succ_of_ne_zero (show k ≠ 0 by omega)
    obtain ⟨hc, h0, -, hl⟩ := chaine_cons.1 h
    unfold Ailleurs at ha
    rw [List.length_cons] at ha hk ⊢
    rw [strlcatBoucle, lire_eq hc, ok_bind, if_neg h0]
    by_cases hroom : bytes + 1 < n
    · have hl' : Chaine (Function.update m q (some c)) (p + 1) l := hl.congr fun a h₁ h₂ => Function.update_of_ne (by omega) _ _
      obtain ⟨hq₀, hq₁⟩ := mapped_succ.1 hq
      rw [show n - 1 - bytes = n - 1 - (bytes + 1) + 1 by omega] at hq₁
      rw [if_pos hroom, ecrire_eq hq₀, ok_bind, ih hl' (by omega) hq₁.update (by unfold Ailleurs; omega),
        show n - 1 - bytes = n - 1 - (bytes + 1) + 1 by omega, List.take_succ_cons, List.cons_append, writeAt_cons, Nat.add_assoc,
        Nat.add_comm 1]
    · have hr : n - 1 - bytes = 0 ∧ n - 1 - (bytes + 1) = 0 := by omega
      rw [hr.1] at hq ha ⊢
      rw [if_neg hroom, ih hl (by omega) (by rw [hr.2]; exact hq) (by rw [hr.2]; unfold Ailleurs; omega), hr.2, List.take_zero,
        List.take_zero, Nat.add_assoc, Nat.add_comm 1]

theorem Chaine.append (h : Chaine m p l₁) (hw : m' = writeAt m (p + l₁.length) (l₂ ++ [0])) (h₂ : ∀ c ∈ l₂, c ≠ 0 ∧ -128 ≤ c ∧ c ≤ 127) :
    Chaine m' p (l₁ ++ l₂) := by
  subst hw
  refine ⟨?_, fun c hc => ?_, fun c hc => ?_⟩
  · rw [List.append_assoc]
    refine standsAt_append.2 ⟨?_, standsAt_writeAt⟩
    exact (standsAt_append.1 h.texte).1.congr fun a h₁ h₂ => writeAt_of_not_mem (.inl h₂)
  · exact (List.mem_append.1 hc).elim (h.nonNul c) fun hc => (h₂ c hc).1
  · exact (List.mem_append.1 hc).elim (h.char c) fun hc => (h₂ c hc).2

/-- `strlcat` tells how long the whole string would have been, keeps what of it fits with its terminator, and writes nothing past
the `n` characters of the buffer. -/
theorem strlcat_borne (h₁ : Chaine m dst l₁) (h₂ : Chaine m src l₂) (hd : Mapped m dst n) (ha : Ailleurs src l₂ dst n)
    (hl₂ : l₂.length < ESPACE) : ∃ m', strlcat m dst src n = .ok (min l₁.length n + l₂.length, m') ∧
      (l₁.length < n → Chaine m' dst ((l₁ ++ l₂).take (n - 1))) ∧ ∀ a, (a < dst + l₁.length ∨ dst + n ≤ a) → m' a = m a := by
  unfold Ailleurs at ha
  rw [strlcat, strlcatSaut_strnlen, strnlen_spec h₁, ok_bind]
  by_cases hn : l₁.length < n
  · have hmin : min l₁.length n = l₁.length := Nat.min_eq_left (Nat.le_of_lt hn)
    have hd' : Mapped m (dst + l₁.length) (n - 1 - l₁.length + 1) := by
      intro i hi
      rw [Nat.add_assoc]
      exact hd _ (by omega)
    have hlen : (l₂.take (n - 1 - l₁.length) ++ [0]).length ≤ n - l₁.length := by
      rw [List.length_append, List.length_take, List.length_singleton]
      omega
    rw [hmin, if_neg (Nat.ne_of_lt hn), strlcatBoucle_spec h₂ hl₂ hd' (by unfold Ailleurs; omega)]
    refine ⟨_, rfl, fun _ => ?_, fun a hx => writeAt_of_not_mem (by omega)⟩
    rw [List.take_append, List.take_of_length_le (by omega : l₁.length ≤ n - 1)]
    exact h₁.append rfl fun c hc => ⟨h₂.nonNul c (List.mem_of_mem_take hc), h₂.char c (List.mem_of_mem_take hc)⟩
  · have hmin : min l₁.length n = n := Nat.min_eq_right (Nat.le_of_not_lt hn)
    rw [hmin, if_pos rfl, strlen_spec h₂ hl₂, ok_bind]
    exact ⟨m, rfl, fun h => absurd h hn, fun _ _ => rfl⟩

theorem strlcat_borne_abc : ∃ m', strlcat memoireExemple 12 0 4 = .ok (min 1 4 + 6, m') ∧
    (1 < 4 → Chaine m' 12 (([97] ++ [97, 44, 98, 44, 44, 99]).take 3)) ∧ ∀ a, (a < 12 + 1 ∨ 12 + 4 ≤ a) → m' a = memoireExemple a :=
  strlcat_borne chaine_a chaine_abc (mapped_exemple (by decide)) (by unfold Ailleurs; decide) (by decide)

theorem strncatBoucle_spec (h : Chaine m p l) (hq : Mapped m q (l.length + 1)) (ha : Ailleurs p l q (l.length + 1)) (n : Nat) :
    strncatBoucle m q p n = .ok (writeAt m q (l.take n ++ [0])) := by
  induction n generalizing m p q l with
  | zero => exact ecrire_eq (mapped_succ.1 hq).1
  | succ n ih =>
    obtain ⟨hq₀, hq₁⟩ := mapped_succ.1 hq
    cases l with
    | nil =>
      rw [strncatBoucle, lire_eq (chaine_nil.1 h), ok_bind, ecrire_eq hq₀, ok_bind, if_pos rfl]
      rfl
    | cons c l =>
      obtain ⟨hc, h0, -, hl⟩ := chaine_cons.1 h
      unfold Ailleurs at ha
      rw [List.length_cons] at ha
      have hl' : Chaine (Function.update m q (some c)) (p + 1) l := hl.congr fun a h₁ h₂ => Function.update_of_ne (by omega) _ _
      rw [strncatBoucle, lire_eq hc, ok_bind, ecrire_eq hq₀, ok_bind, if_neg h0, ih hl' hq₁.update (by unfold Ailleurs; omega),
        List.take_succ_cons, List.cons_append, writeAt_cons]

theorem strchrBoucle_fin (h : Chaine m p l) (hk : l.length < k) : strchrBoucle m 0 k p = .ok (some (p + l.length)) := by
  induction l generalizing p k with
  | nil =>
    obtain ⟨k, rfl⟩ := Nat.exists_eq_succ_of_ne_zero (Nat.ne_of_gt hk)
    rw [strchrBoucle, lire_eq (chaine_nil.1 h), ok_bind]
    rfl
  | cons c l ih =>
    obtain ⟨k, rfl⟩ := Nat.exists_eq_succ_of_ne_zero (Nat.ne_zero_of_lt hk)
    obtain ⟨hc, h0, -, hl⟩ := chaine_cons.1 h
    rw [List.length_cons] at hk ⊢
    rw [strchrBoucle, lire_eq hc, ok_bind, if_neg (show c ≠ toChar 0 from h0), if_neg h0, ih hl (by omega), Nat.add_right_comm,
      Nat.add_assoc]

theorem strcat_writeAt (h₁ : Chaine m dst l₁) (h₂ : Chaine m src l₂) (hd : Mapped m (dst + l₁.length) (l₂.length + 1))
    (ha : Ailleurs src l₂ (dst + l₁.length) (l₂.length + 1)) (hl₁ : l₁.length < ESPACE) (hl₂ : l₂.length < ESPACE) :
    strcat m dst src = .ok (writeAt m (dst + l₁.length) (l₂ ++ [0])) ∧
      ∀ k, strncat m dst src k = .ok (writeAt m (dst + l₁.length) (l₂.take k ++ [0])) := by
  have hfin : strchr m dst 0 = .ok (some (dst + l₁.length)) := strchrBoucle_fin h₁ hl₁
  constructor
  · rw [strcat, hfin, ok_bind]
    exact strcpy_writeAt h₂ hd ha hl₂
  · intro k
    rw [strncat, hfin, ok_bind]
    exact strncatBoucle_spec h₂ hd ha k

/-- Where the whole string fits, `strcat`, `strlcat`, and `strncat` with a bound that is not reached leave the same memory: the second
string follows the first. With a smaller bound `strncat` takes the first characters of the second string. -/
theorem strcat_accord (h₁ : Chaine m dst l₁) (h₂ : Chaine m src l₂) (hd : Mapped m dst n) (ha : Ailleurs src l₂ dst n)
    (hn : l₁.length + l₂.length < n) (hl : n ≤ ESPACE) :
    ∃ m', strcat m dst src = .ok m' ∧ strlcat m dst src n = .ok (l₁.length + l₂.length, m') ∧
      (∀ k, l₂.length ≤ k → strncat m dst src k = .ok m') ∧ Chaine m' dst (l₁ ++ l₂) ∧
      (∀ a, (a < dst + l₁.length ∨ dst + l₁.length + l₂.length < a) → m' a = m a) ∧
      ∀ k, ∃ m'', strncat m dst src k = .ok m'' ∧ Chaine m'' dst (l₁ ++ l₂.take k) := by
  unfold Ailleurs at ha
  have hd' : Mapped m (dst + l₁.length) (l₂.length + 1) := by
    intro i hi
    rw [Nat.add_assoc]
    exact hd _ (by omega)
  obtain ⟨hcat, hncat⟩ := strcat_writeAt h₁ h₂ hd' (by unfold Ailleurs; omega) (by omega) (by omega)
  have hlcat : strlcatBoucle n ESPACE m (dst + l₁.length) src l₁.length =
      .ok (l₁.length + l₂.length, writeAt m (dst + l₁.length) (l₂ ++ [0])) := by
    have hq : Mapped m (dst + l₁.length) (n - 1 - l₁.length + 1) := by
      intro i hi
      rw [Nat.add_assoc]
      exact hd _ (by omega)
    rw [strlcatBoucle_spec h₂ (by omega) hq (by unfold Ailleurs; omega), List.take_of_length_le (by omega)]
  refine ⟨_, hcat, ?_, fun k hk => ?_, h₁.append rfl fun c hc => ⟨h₂.nonNul c hc, h₂.char c hc⟩, fun a hx => ?_,
    fun k => ⟨_, hncat k, h₁.append rfl fun c hc => ?_⟩⟩
  · rw [strlcat, strlcatSaut_strnlen, strnlen_spec h₁, ok_bind, Nat.min_eq_left (by omega), if_neg (by omega), hlcat]
  · rw [hncat k, List.take_of_length_le hk]
  · exact writeAt_of_not_mem (by rw [List.length_append, List.length_singleton]; omega)
  · exact ⟨h₂.nonNul c (List.mem_of_mem_take hc), h₂.char c (List.mem_of_mem_take hc)⟩

theorem strcat_accord_abc : ∃ m', strcat memoireExemple 12 0 = .ok m' ∧ strlcat memoireExemple 12 0 8 = .ok (1 + 6, m') ∧
    (∀ k, 6 ≤ k → strncat memoireExemple 12 0 k = .ok m') ∧ Chaine m' 12 ([97] ++ [97, 44, 98, 44, 44, 99]) ∧
    (∀ a, (a < 12 + 1 ∨ 12 + 1 + 6 < a) → m' a = memoireExemple a) ∧
    ∀ k, ∃ m'', strncat memoireExemple 12 0 k = .ok m'' ∧ Chaine m'' 12 ([97] ++ [97, 44, 98, 44, 44, 99].take k) :=
  strcat_accord chaine_a chaine_abc (mapped_exemple (by decide)) (by unfold Ailleurs; decide) (by decide) (by decide)

end Pcsea
