import Pcsea.Gdb
import Mathlib.Data.List.TakeWhile
/-!
# Packets on the line

`getpacket` takes the first frame whose checksum is right and refuses those
before it. What `putfrags` sends reads back, runs included.
-/

namespace Pcsea

open Lib

variable {x : Lecture} {inbuf : Nat → Nat} {d s bruit p : List Nat} {prec : Option Nat} {n a b i ch : Nat} {hexify : Bool}

/-! ## Frames that come in -/

/-- The data of a frame: every `#` comes after a `}`, and the `#` after the data does not. -/
def Libre : Option Nat → List Nat → Prop
  | prec, [] => prec ≠ some 0x7d
  | prec, c :: d => (c = 35 → prec = some 0x7d) ∧ Libre (some c) d

/-- What comes in for one packet: noise, the data and two characters of checksum. -/
structure Trame where
  bruit : List Nat
  data : List Nat
  s1 : Nat
  s2 : Nat
  bruit_libre : ∀ c ∈ bruit, c % 128 ≠ 36
  data_libre : Libre none data
  data_length : data.length < BUFMAX

def Trame.octets (t : Trame) : List Nat := t.bruit ++ 36 :: (t.data ++ [35, t.s1, t.s2])

/-- The checksum is right. -/
def Trame.Juste (t : Trame) : Prop := t.data.sum % 256 = ((hex t.s1 * 16 + hex t.s2) % 256).toNat

instance (t : Trame) : Decidable t.Juste := inferInstanceAs (Decidable (_ = _))

theorem attendDollar_eq (h : ∀ c ∈ bruit, c % 128 ≠ 36) : attendDollar (bruit ++ 36 :: s) = some s := by
  induction bruit with
  | nil => rfl
  | cons c bruit ih =>
    rw [List.cons_append, attendDollar, if_neg (h c (by simp))]
    exact ih fun c hc => h c (by simp [hc])

/-- The character before the next place. -/
def Lecture.precedent (x : Lecture) : Option Nat := if x.count = 0 then none else some (x.buffer (x.count - 1))

theorem lisDonnees_cons (h : ch = 35 → x.precedent = some 0x7d) : lisDonnees (n + 1) x (ch :: s) =
    lisDonnees n ⟨Function.update x.buffer x.count ch, x.count + 1, (x.checksum + ch) % 256, ch⟩ s := by
  rw [lisDonnees, if_neg]
  rintro ⟨hc, hx⟩
  have hp := h hc
  unfold Lecture.precedent at hp
  split at hp
  · cases hp
  · rename_i h₀
    exact hx.elim h₀ fun h₁ => h₁ (Option.some.inj hp)

theorem lisDonnees_fin (h : x.precedent ≠ some 0x7d) : lisDonnees (n + 1) x (35 :: s) = some ({ x with ch := 35 }, s) := by
  rw [lisDonnees, if_pos]
  refine ⟨rfl, ?_⟩
  unfold Lecture.precedent at h
  split at h
  · exact .inl ‹_›
  · exact .inr fun h₁ => h (congrArg some h₁)

theorem lisDonnees_eq (hx : x.checksum < 256) (hd : Libre x.precedent d) (hn : d.length < n) :
    lisDonnees n x (d ++ 35 :: s) =
      some (⟨storeAt x.buffer x.count d, x.count + d.length, (x.checksum + d.sum) % 256, 35⟩, s) := by
  induction d generalizing n x with
  | nil =>
    obtain ⟨n, rfl⟩ := Nat.exists_eq_succ_of_ne_zero (Nat.ne_of_gt hn)
    rw [List.nil_append, lisDonnees_fin hd, storeAt_nil]
    simp [Nat.mod_eq_of_lt hx]
  | cons c d ih =>
    obtain ⟨n, rfl⟩ := Nat.exists_eq_succ_of_ne_zero (Nat.ne_of_gt (Nat.lt_of_le_of_lt (Nat.zero_le _) hn))
    rw [List.cons_append, lisDonnees_cons hd.1, ih (Nat.mod_lt _ (by decide)) ?_ (by simpa using hn)]
    · rw [storeAt_cons, Nat.mod_add_mod, List.sum_cons, List.length_cons, Nat.add_assoc, Nat.add_assoc, Nat.add_comm 1]
    · simpa [Lecture.precedent] using hd.2

/-- The buffer after a frame. -/
def tampon (inbuf : Nat → Nat) (d : List Nat) : Nat → Nat := Function.update (storeAt inbuf 0 d) d.length 0

/-- What is left of an accepted packet, and the answer to it. -/
def recu (b : Nat → Nat) : Nat → Nat := if b 2 = 58 then retireSequence b else b

def accuse (b : Nat → Nat) : List Nat := if b 2 = 58 then [43, b 0, b 1] else [43]

theorem lecture_trame (t : Trame) : (attendDollar (t.octets ++ s)).bind (lisDonnees BUFMAX ⟨inbuf, 0, 0, 36⟩) =
    some (⟨storeAt inbuf 0 t.data, t.data.length, t.data.sum % 256, 35⟩, t.s1 :: t.s2 :: s) := by
  have hl : t.octets ++ s = t.bruit ++ 36 :: (t.data ++ 35 :: t.s1 :: t.s2 :: s) := by simp [Trame.octets]
  have hd := lisDonnees_eq (x := ⟨inbuf, 0, 0, 36⟩) (s := t.s1 :: t.s2 :: s) (Nat.zero_lt_succ 255) t.data_libre t.data_length
  rw [hl, attendDollar_eq t.bruit_libre, Option.bind_some, hd]
  simp only [Nat.zero_add]

theorem essai_bind : essai inbuf s = ((attendDollar s).bind (lisDonnees BUFMAX ⟨inbuf, 0, 0, 36⟩)).bind fun x =>
    if x.1.ch = 35 then
      match x.2 with
      | a :: b :: s =>
        if x.1.checksum ≠ ((hex a * 16 + hex b) % 256).toNat then some (false, Function.update x.1.buffer x.1.count 0, [45], s)
        else if Function.update x.1.buffer x.1.count 0 2 = 58 then
          some (true, retireSequence (Function.update x.1.buffer x.1.count 0),
            [43, Function.update x.1.buffer x.1.count 0 0, Function.update x.1.buffer x.1.count 0 1], s)
        else some (true, Function.update x.1.buffer x.1.count 0, [43], s)
      | _ => none
    else some (x.1.checksum = 255, Function.update x.1.buffer x.1.count 0, [], x.2) := by
  unfold essai
  cases attendDollar s <;> rfl

/-- One turn of `getpacket` reads one frame. -/
theorem essai_juste {t : Trame} (ht : t.Juste) :
    essai inbuf (t.octets ++ s) = some (true, recu (tampon inbuf t.data), accuse (tampon inbuf t.data), s) := by
  have hc : ¬ t.data.sum % 256 ≠ ((hex t.s1 * 16 + hex t.s2) % 256).toNat := fun h => h ht
  rw [essai_bind, lecture_trame, Option.bind_some]
  dsimp only
  rw [if_pos rfl, if_neg hc]
  unfold recu accuse tampon
  by_cases h₂ : Function.update (storeAt inbuf 0 t.data) t.data.length 0 2 = 58
  · rw [if_pos h₂, if_pos h₂, if_pos h₂]
  · rw [if_neg h₂, if_neg h₂, if_neg h₂]

theorem essai_faux {t : Trame} (ht : ¬ t.Juste) : essai inbuf (t.octets ++ s) = some (false, tampon inbuf t.data, [45], s) := by
  have hc : t.data.sum % 256 ≠ ((hex t.s1 * 16 + hex t.s2) % 256).toNat := ht
  rw [essai_bind, lecture_trame, Option.bind_some]
  dsimp only
  rw [if_pos rfl, if_pos hc]
  rfl

theorem getpacketBoucle_pris {b : Nat → Nat} {e s' : List Nat} (h : essai inbuf s = some (true, b, e, s')) :
    getpacketBoucle (n + 1) inbuf s = some (b, e, s') := by
  rw [getpacketBoucle, h]
  rfl

theorem getpacketBoucle_refus {b : Nat → Nat} {e s' : List Nat} (h : essai inbuf s = some (false, b, e, s')) :
    getpacketBoucle (n + 1) inbuf s = (getpacketBoucle n b s').map fun x => (x.1, e ++ x.2.1, x.2.2) := by
  rw [getpacketBoucle, h]
  show (getpacketBoucle n b s').bind _ = _
  cases getpacketBoucle n b s' <;> rfl

theorem octets_length (t : Trame) : 0 < t.octets.length := by
  unfold Trame.octets
  simp only [List.length_append, List.length_cons]
  omega

/-- The frames with a wrong checksum leave their data in the buffer. -/
def apresRefus (inbuf : Nat → Nat) (mauvaises : List Trame) : Nat → Nat := mauvaises.foldl (fun b t => tampon b t.data) inbuf

theorem getpacketBoucle_trames {mauvaises : List Trame} {t : Trame} (h : ∀ x ∈ mauvaises, ¬ x.Juste) (ht : t.Juste)
    (hn : mauvaises.length < n) : getpacketBoucle n inbuf (mauvaises.flatMap Trame.octets ++ (t.octets ++ s)) = some
      (recu (tampon (apresRefus inbuf mauvaises) t.data),
        List.replicate mauvaises.length 45 ++ accuse (tampon (apresRefus inbuf mauvaises) t.data), s) := by
  induction mauvaises generalizing n inbuf with
  | nil =>
    obtain ⟨n, rfl⟩ := Nat.exists_eq_succ_of_ne_zero (Nat.ne_of_gt hn)
    exact getpacketBoucle_pris (essai_juste ht)
  | cons x m ih =>
    obtain ⟨n, rfl⟩ := Nat.exists_eq_succ_of_ne_zero (Nat.ne_of_gt (Nat.lt_of_le_of_lt (Nat.zero_le _) hn))
    rw [List.flatMap_cons, List.append_assoc, getpacketBoucle_refus (essai_faux (h x (by simp))),
      ih (fun y hy => h y (by simp [hy])) (by simpa using hn)]
    rfl

/-! ## What the buffer holds -/

/-- The string `d` is at the start of the buffer. -/
def Contient (b : Nat → Nat) (d : List Nat) : Prop := (∀ j, (h : j < d.length) → b j = d[j]) ∧ b d.length = 0

theorem contient_tampon (inbuf : Nat → Nat) (d : List Nat) : Contient (tampon inbuf d) d := by
  refine ⟨fun j hj => ?_, Function.update_self _ _ _⟩
  rw [tampon, Function.update_of_ne (Nat.ne_of_lt hj)]
  exact storeAt_of_mem (Nat.zero_le j) (by rwa [Nat.zero_add])

theorem tampon_au_dela {j : Nat} (hj : d.length < j) : tampon inbuf d j = inbuf j := by
  rw [tampon, Function.update_of_ne (Nat.ne_of_gt hj), storeAt_of_not_mem (by omega)]

theorem longueur_eq {b : Nat → Nat} (h : Contient b d) (h0 : 0 ∉ d) (hd : d.length < BUFMAX) : longueur b = d.length := by
  have hs : (List.range (BUFMAX + 1)).map b = d ++ 0 :: ((List.range (BUFMAX + 1)).map b).drop (d.length + 1) := by
    refine List.ext_getElem ?_ fun j h₁ h₂ => ?_
    · simp
      omega
    · rw [List.getElem_map, List.getElem_range, List.getElem_append]
      split
      · exact h.1 j ‹_›
      · rename_i hj
        obtain ⟨k, rfl⟩ := Nat.exists_eq_add_of_le (Nat.le_of_not_lt hj)
        cases k with
        | zero => simpa using h.2
        | succ k => simp [Nat.add_assoc, Nat.add_comm 1]
  have ht : (d ++ 0 :: ((List.range (BUFMAX + 1)).map b).drop (d.length + 1)).takeWhile (· ≠ 0) = d := by
    have hp : ∀ x ∈ d, decide (x ≠ 0) = true := fun x hx => decide_eq_true fun h => h0 (h ▸ hx)
    rw [List.takeWhile_append_of_pos hp]
    simp
  rw [longueur, hs, ht]

theorem contient_retireSequence {b : Nat → Nat} (h : Contient b d) (h0 : 0 ∉ d) (hd : d.length < BUFMAX) (h3 : 3 ≤ d.length) :
    Contient (retireSequence b) (d.drop 3) := by
  unfold retireSequence
  rw [longueur_eq h h0 hd]
  constructor
  · intro j hj
    rw [List.length_drop] at hj
    dsimp only
    rw [if_pos (by omega), h.1 (j + 3) (by omega), List.getElem_drop]
    simp only [Nat.add_comm]
  · dsimp only
    rw [List.length_drop, if_pos (by omega), Nat.sub_add_cancel h3]
    exact h.2

/-- A packet less its sequence characters. -/
def commande (d : List Nat) : List Nat := if d[2]? = some 58 then d.drop 3 else d

/-- What comes back for a packet. -/
def reponse (d : List Nat) : List Nat := if d[2]? = some 58 then 43 :: d.take 2 else [43]

theorem longueur_le {b : Nat → Nat} (h : Contient b d) : longueur b ≤ d.length := by
  by_contra hn
  have hlt : d.length < (((List.range (BUFMAX + 1)).map b).takeWhile (· ≠ 0)).length := Nat.lt_of_not_le hn
  have hmem := List.mem_takeWhile_imp (List.getElem_mem hlt)
  rw [(List.takeWhile_prefix _).getElem hlt, List.getElem_map, List.getElem_range, h.2] at hmem
  exact absurd hmem (by decide)

/-- A packet too short to have sequence characters is left alone, even if an older one has left a `:` in its place. -/
theorem retireSequence_court {b : Nat → Nat} (h : Contient b d) (h3 : d.length < 3) : retireSequence b = b := by
  have hl := longueur_le h
  funext j
  exact if_neg (by omega)

theorem recu_contient (inbuf : Nat → Nat) (hd : d.length < BUFMAX) (hs : d[2]? = some 58 → 0 ∉ d) : Contient (recu (tampon inbuf d)) (commande d) := by
  have hc := contient_tampon inbuf d
  unfold recu commande
  by_cases h : d[2]? = some 58
  · obtain ⟨hl, h58⟩ := List.getElem?_eq_some_iff.mp h
    rw [if_pos ((hc.1 2 hl).trans h58), if_pos h]
    exact contient_retireSequence hc (hs h) hd hl
  · rw [if_neg h]
    by_cases hl : 2 < d.length
    · rwa [if_neg fun h58 => h (List.getElem?_eq_some_iff.mpr ⟨hl, (hc.1 2 hl).symm.trans h58⟩)]
    · rwa [retireSequence_court hc (by omega), ite_self]

theorem accuse_eq (h2 : d.length < 2 → inbuf 2 ≠ 58) : accuse (tampon inbuf d) = reponse d := by
  have hc := contient_tampon inbuf d
  unfold accuse reponse
  by_cases h : d[2]? = some 58
  · obtain ⟨hl, h58⟩ := List.getElem?_eq_some_iff.mp h
    rw [if_pos ((hc.1 2 hl).trans h58), if_pos h, hc.1 0 (by omega), hc.1 1 (by omega)]
    match d, hl with
    | _ :: _ :: _, _ => rfl
  · have hb : tampon inbuf d 2 ≠ 58 := by
      rcases Nat.lt_trichotomy d.length 2 with hl | hl | hl
      · exact tampon_au_dela hl ▸ h2 hl
      · rw [← hl, hc.2]
        decide
      · rw [hc.1 2 hl]
        exact fun h58 => h (List.getElem?_eq_some_iff.mpr ⟨hl, h58⟩)
    rw [if_neg hb, if_neg h]

theorem trames_length (m : List Trame) : m.length ≤ (m.flatMap Trame.octets).length := by
  induction m with
  | nil => exact Nat.le_refl 0
  | cons t m ih =>
    have ht := octets_length t
    rw [List.flatMap_cons, List.length_append, List.length_cons]
    omega

theorem getpacket_eq (inbuf : Nat → Nat) {mauvaises : List Trame} {t : Trame} (h : ∀ x ∈ mauvaises, ¬ x.Juste) (ht : t.Juste) :
    getpacket inbuf (mauvaises.flatMap Trame.octets ++ (t.octets ++ s)) = some (recu (tampon (apresRefus inbuf mauvaises) t.data),
      List.replicate mauvaises.length 45 ++ accuse (tampon (apresRefus inbuf mauvaises) t.data), s) := by
  have := trames_length mauvaises
  exact getpacketBoucle_trames h ht (by rw [List.length_append]; omega)

/-- The frames whose checksum is wrong are refused one by one and the first right one is taken, whatever the noise between
them. A packet shorter than two characters does not write the place of the `:`, which must not be there already. -/
theorem getpacket_trames {mauvaises : List Trame} {t : Trame} (h : ∀ x ∈ mauvaises, ¬ x.Juste) (ht : t.Juste)
    (hs : t.data[2]? = some 58 → 0 ∉ t.data) (h2 : t.data.length < 2 → apresRefus inbuf mauvaises 2 ≠ 58) :
    ∃ b, getpacket inbuf (mauvaises.flatMap Trame.octets ++ (t.octets ++ s)) =
        some (b, List.replicate mauvaises.length 45 ++ reponse t.data, s) ∧ Contient b (commande t.data) :=
  ⟨_, by rw [getpacket_eq inbuf h ht, accuse_eq h2], recu_contient _ t.data_length hs⟩

/-- `$g#67` behind a `+`, with `s1` and `s2` for the checksum. -/
def trameG (s1 s2 : Nat) : Trame where
  bruit := [43]
  data := [103]
  s1 := s1
  s2 := s2
  bruit_libre := by decide
  data_libre := ⟨nofun, nofun⟩
  data_length := by decide

theorem getpacket_trames_g : ∃ b, getpacket (fun _ => 0) ([trameG 54 56].flatMap Trame.octets ++ ((trameG 54 55).octets ++ [])) =
    some (b, [45, 43], []) ∧ Contient b [103] :=
  getpacket_trames (t := trameG 54 55) (by decide) (by decide) (by decide) fun _ => by decide

/-! ## Packets that go out -/

/-- What gdb reads in a packet: `c*n` is `c` and `n - 29` more. -/
def deplie : List Nat → List Nat
  | [] => []
  | c :: 42 :: n :: s => List.replicate (n - 28) c ++ deplie s
  | c :: s => c :: deplie s

/-- The characters of a fragment, with its runs written out. -/
def caracteres (hexify : Bool) (p : List Nat) : List Nat :=
  if hexify then p.flatMap fun x => [hexchar (x / 16), hexchar (x % 16)] else p

theorem caracteres_cons (x : Nat) : caracteres hexify (x :: p) =
    (if hexify then [hexchar (x / 16), hexchar (x % 16)] else [x]) ++ caracteres hexify p := by
  cases hexify <;> rfl

theorem caracteres_replicate (x k : Nat) : caracteres hexify (List.replicate k x ++ p) =
    (List.replicate k (if hexify then [hexchar (x / 16), hexchar (x % 16)] else [x])).flatten ++ caracteres hexify p := by
  induction k with
  | zero => rfl
  | succ k ih => rw [List.replicate_succ, List.cons_append, caracteres_cons, ih, List.replicate_succ, List.flatten_cons, List.append_assoc]

theorem deplie_serie (c n : Nat) : deplie (c :: 42 :: n :: s) = List.replicate (n - 28) c ++ deplie s := by rw [deplie]

theorem deplie_cons {c : Nat} (h : s.head? ≠ some 42) : deplie (c :: s) = c :: deplie s := by
  rw [deplie]
  rintro n s' rfl
  exact h rfl

theorem take_serie {x k : Nat} (hk : k ≤ (p.takeWhile (· = x)).length) : p.take k = List.replicate k x := by
  have hp := List.takeWhile_prefix (fun y => decide (y = x)) (l := p)
  refine List.eq_replicate_iff.mpr ⟨?_, fun y hy => ?_⟩
  · rw [List.length_take]
    exact Nat.min_eq_left (hk.trans hp.length_le)
  · rw [List.prefix_iff_eq_take] at hp
    have hy' : y ∈ p.takeWhile (· = x) := by
      rw [hp]
      exact List.take_subset_take_left p hk hy
    simpa using List.mem_takeWhile_imp hy'

/-- A run is as many times its first byte. -/
theorem serie_split (x limit : Nat) (h : 0 < limit) :
    x :: p = List.replicate (serie x p limit) x ++ p.drop (serie x p limit - 1) := by
  have hk : serie x p limit - 1 ≤ (p.takeWhile (· = x)).length := by
    unfold serie
    omega
  have hs : serie x p limit = serie x p limit - 1 + 1 := by
    unfold serie
    omega
  rw [hs, Nat.add_sub_cancel, List.replicate_succ, List.cons_append, ← take_serie hk, List.take_append_drop]

theorem hexchar_ne (n : Nat) : hexchar n ≠ 42 ∧ hexchar n ≠ 35 := by
  unfold hexchar
  split <;> omega

theorem replicate_double (k c : Nat) : (List.replicate k [c, c]).flatten = List.replicate (2 * k) c := by
  induction k with
  | zero => rfl
  | succ k ih => rw [List.replicate_succ, List.flatten_cons, ih, Nat.mul_succ, Nat.add_comm, List.replicate_add]; rfl

theorem replicate_single (k c : Nat) : (List.replicate k [c]).flatten = List.replicate k c := by
  induction k with
  | zero => rfl
  | succ k ih => rw [List.replicate_succ, List.flatten_cons, ih, List.replicate_succ]; rfl

/-- No character of a fragment starts a run by itself. -/
theorem head_envoieFrag (h : hexify = false → 42 ∉ p) (hs : s.head? ≠ some 42) : (envoieFrag hexify p ++ s).head? ≠ some 42 := by
  have hx := fun n h => (hexchar_ne n).1 (Option.some.inj h)
  fun_cases envoieFrag hexify p with
  | case1 => exact hs
  | case2 | case3 => exact hx _
  | case4 _ _ hf | case5 _ _ hf =>
    intro h42
    rw [← Option.some.inj h42] at h
    exact h (Bool.eq_false_of_not_eq_true hf) List.mem_cons_self

/-- Writing the runs of a packet out gives its characters back. -/
theorem deplie_envoieFrag (h : hexify = false → 42 ∉ p) (hs : s.head? ≠ some 42) :
    deplie (envoieFrag hexify p ++ s) = caracteres hexify p ++ deplie s := by
  fun_induction envoieFrag hexify p with
  | case1 => cases hexify <;> rfl
  | case2 x p hx hr ih =>
    have hn : 29 + serie x p 49 * 2 - 1 - 28 = 2 * serie x p 49 := by omega
    rw [serie_split (p := p) x 49 (by decide), caracteres_replicate, if_pos hx, ← hr.2, hr.2, replicate_double, List.append_assoc,
      ← ih fun hf => absurd hx (hf ▸ Bool.false_ne_true), List.cons_append, List.cons_append, List.cons_append, deplie_serie, hn]
  | case3 x p hx hr ih =>
    have hp : (envoieFrag hexify p ++ s).head? ≠ some 42 := head_envoieFrag (fun hf => absurd hx (hf ▸ Bool.false_ne_true)) hs
    have hc : (hexchar (x % 16) :: (envoieFrag hexify p ++ s)).head? ≠ some 42 := fun h => (hexchar_ne _).1 (Option.some.inj h)
    rw [caracteres_cons, if_pos hx, List.append_assoc, ← ih fun hf => absurd hx (hf ▸ Bool.false_ne_true), List.cons_append,
      List.cons_append, deplie_cons hc, deplie_cons hp]
    rfl
  | case4 x p hx hr ih =>
    have hn : 29 + serie x p 98 - 1 - 28 = serie x p 98 := by omega
    have hp : hexify = false → 42 ∉ p.drop (serie x p 98 - 1) := fun hf hm =>
      h hf (List.mem_cons_of_mem x (List.mem_of_mem_drop hm))
    rw [serie_split (p := p) x 98 (by decide), caracteres_replicate, if_neg hx, replicate_single, List.append_assoc, ← ih hp,
      List.cons_append, List.cons_append, List.cons_append, deplie_serie, hn]
  | case5 x p hx hr ih =>
    have hp : hexify = false → 42 ∉ p := fun hf hm => h hf (List.mem_cons_of_mem x hm)
    rw [caracteres_cons, if_neg hx, List.append_assoc, ← ih hp, List.cons_append, deplie_cons (head_envoieFrag hp hs)]
    rfl

theorem deplie_corps {frags : List Outfrag} (h : ∀ f ∈ frags, f.hexify = false → 42 ∉ f.data) :
    deplie (frags.map fun f => envoieFrag f.hexify f.data).flatten = (frags.map fun f => caracteres f.hexify f.data).flatten ∧
      (frags.map fun f => envoieFrag f.hexify f.data).flatten.head? ≠ some 42 := by
  induction frags with
  | nil => exact ⟨rfl, nofun⟩
  | cons f frags ih =>
    obtain ⟨h₁, h₂⟩ := ih fun g hg => h g (List.mem_cons_of_mem f hg)
    have hf := h f List.mem_cons_self
    rw [List.map_cons, List.flatten_cons, List.map_cons, List.flatten_cons, deplie_envoieFrag hf h₂, h₁]
    exact ⟨rfl, head_envoieFrag hf h₂⟩

/-! ## A packet that goes out comes back in -/

/-- A fragment that sends neither `#` nor `}`. Seven times one character in a row would go out with a `#` for the count. -/
structure DonneesSaines (hexify : Bool) (p : List Nat) : Prop where
  octets : ∀ x ∈ p, x < 256
  texte : hexify = false → 35 ∉ p ∧ 42 ∉ p ∧ 125 ∉ p
  series : hexify = false → ∀ x, ¬ List.replicate 7 x <:+: p

theorem DonneesSaines.suffix {l : List Nat} (h : DonneesSaines hexify p) (hl : l <:+ p) : DonneesSaines hexify l where
  octets x hx := h.octets x (hl.subset hx)
  texte hf := ⟨fun hm => (h.texte hf).1 (hl.subset hm), fun hm => (h.texte hf).2.1 (hl.subset hm), fun hm => (h.texte hf).2.2 (hl.subset hm)⟩
  series hf x hx := h.series hf x (hx.trans hl.isInfix)

theorem hexchar_lt (h : n < 16) : hexchar n ≤ 102 := by
  unfold hexchar
  split <;> omega

theorem DonneesSaines.serie_lt {x : Nat} (h : DonneesSaines false (x :: p)) : serie x p 98 < 7 := by
  by_contra hn
  obtain ⟨k, hk⟩ := Nat.exists_eq_add_of_le (Nat.le_of_not_lt hn)
  have hs := serie_split (p := p) x 98 (by decide)
  rw [hk, List.replicate_add, List.append_assoc] at hs
  exact h.series rfl x ⟨[], _, hs.symm⟩

theorem DonneesSaines.mem_envoieFrag {c : Nat} (h : DonneesSaines hexify p) (hc : c ∈ envoieFrag hexify p) : c ≠ 35 ∧ c ≠ 125 := by
  have hh : ∀ {n}, n < 16 → hexchar n ≠ 35 ∧ hexchar n ≠ 125 := fun hn =>
    ⟨(hexchar_ne _).2, Nat.ne_of_lt (Nat.lt_of_le_of_lt (hexchar_lt hn) (by decide))⟩
  -- Along the encoder: a run is the character, a star and a count, none of which is special.
  fun_induction envoieFrag hexify p with
  | case1 => cases hc
  | case2 x p hx hr ih =>
    rcases List.mem_cons.mp hc with rfl | hc
    · exact hh (Nat.mod_lt _ (by decide))
    rcases List.mem_cons.mp hc with rfl | hc
    · decide
    rcases List.mem_cons.mp hc with rfl | hc
    · omega
    exact ih (h.suffix ((List.drop_suffix _ _).trans (List.suffix_cons x p))) hc
  | case3 x p hx hr ih =>
    have h256 := h.octets x List.mem_cons_self
    rcases List.mem_cons.mp hc with rfl | hc
    · exact hh (by omega)
    rcases List.mem_cons.mp hc with rfl | hc
    · exact hh (Nat.mod_lt _ (by decide))
    exact ih (h.suffix (List.suffix_cons x p)) hc
  | case4 x p hx hr ih =>
    obtain rfl : hexify = false := Bool.eq_false_of_not_eq_true hx
    have hk := h.serie_lt
    rcases List.mem_cons.mp hc with rfl | hc
    · exact ⟨fun h₁ => (h.texte rfl).1 (h₁ ▸ List.mem_cons_self), fun h₁ => (h.texte rfl).2.2 (h₁ ▸ List.mem_cons_self)⟩
    rcases List.mem_cons.mp hc with rfl | hc
    · decide
    rcases List.mem_cons.mp hc with rfl | hc
    · omega
    exact ih (h.suffix ((List.drop_suffix _ _).trans (List.suffix_cons x p))) hc
  | case5 x p hx hr ih =>
    obtain rfl : hexify = false := Bool.eq_false_of_not_eq_true hx
    rcases List.mem_cons.mp hc with rfl | hc
    · exact ⟨fun h₁ => (h.texte rfl).1 (h₁ ▸ List.mem_cons_self), fun h₁ => (h.texte rfl).2.2 (h₁ ▸ List.mem_cons_self)⟩
    exact ih (h.suffix (List.suffix_cons x p)) hc

theorem libre_of_mem (h : ∀ c ∈ d, c ≠ 35 ∧ c ≠ 125) (hp : prec ≠ some 0x7d) : Libre prec d := by
  induction d generalizing prec with
  | nil => exact hp
  | cons c d ih =>
    obtain ⟨h₁, h₂⟩ := h c List.mem_cons_self
    exact ⟨fun hc => absurd hc h₁, ih (fun c hc => h c (List.mem_cons_of_mem _ hc)) fun hc => h₂ (Option.some.inj hc)⟩

theorem hex_hexchar (h : n < 16) : hex (hexchar n) = n :=
  (by decide : ∀ n : Fin 16, hex (hexchar n) = (n : Nat)) ⟨n, h⟩

/-- The data of a packet. -/
def corps (frags : List Outfrag) : List Nat := (frags.map fun f => envoieFrag f.hexify f.data).flatten

theorem mem_corps {frags : List Outfrag} (h : ∀ f ∈ frags, DonneesSaines f.hexify f.data) {c : Nat} (hc : c ∈ corps frags) : c ≠ 35 ∧ c ≠ 125 := by
  obtain ⟨l, hl, hc⟩ := List.mem_flatten.mp hc
  obtain ⟨f, hf, rfl⟩ := List.mem_map.mp hl
  exact (h f hf).mem_envoieFrag hc

/-- The frame of some data, with its checksum. -/
def trame (bruit d : List Nat) (hb : ∀ c ∈ bruit, c % 128 ≠ 36) (hd : Libre none d) (hl : d.length < BUFMAX) : Trame where
  bruit := bruit
  data := d
  s1 := hexchar (d.sum % 256 / 16)
  s2 := hexchar (d.sum % 256 % 16)
  bruit_libre := hb
  data_libre := hd
  data_length := hl

theorem trame_juste (bruit : List Nat) (hb : ∀ c ∈ bruit, c % 128 ≠ 36) (hd : Libre none d) (hl : d.length < BUFMAX) : (trame bruit d hb hd hl).Juste := by
  show d.sum % 256 = ((hex (hexchar (d.sum % 256 / 16)) * 16 + hex (hexchar (d.sum % 256 % 16))) % 256).toNat
  have hc := Nat.mod_lt d.sum (show 0 < 256 by decide)
  generalize d.sum % 256 = c at hc
  rw [hex_hexchar (by omega), hex_hexchar (by omega)]
  omega

/-- Whatever gdb answers but a `+` has the packet sent once more. -/
theorem putfrags_refus {frags : List Outfrag} {refus : List Nat} (h : ∀ c ∈ refus, c % 128 ≠ 43) :
    putfrags frags (refus ++ 43 :: s) = some ((List.replicate (refus.length + 1) (paquet frags)).flatten, s) := by
  induction refus with
  | nil => simp [putfrags]
  | cons c refus ih =>
    rw [List.cons_append, putfrags, if_neg (h c List.mem_cons_self), ih fun c hc => h c (List.mem_cons_of_mem _ hc)]
    rfl

/-- Stop and wait. When the line spoils the first copies of a packet and lets the next one through, the receiver's answers are those
on which the sender sends one copy more for each refusal and then stops, and the receiver has the packet once. -/
theorem putfrags_getpacket {frags : List Outfrag} {mauvaises : List Trame} {r : List Nat} (h : ∀ f ∈ frags, DonneesSaines f.hexify f.data)
    (hl : (corps frags).length < BUFMAX) (hm : ∀ x ∈ mauvaises, ¬ x.Juste) (hs : (corps frags)[2]? ≠ some 58)
    (h2 : (corps frags).length < 2 → apresRefus inbuf mauvaises 2 ≠ 58) :
    ∃ b envoi, getpacket inbuf (mauvaises.flatMap Trame.octets ++ (paquet frags ++ s)) = some (b, envoi, s) ∧
      putfrags frags (envoi ++ r) = some ((List.replicate (mauvaises.length + 1) (paquet frags)).flatten, r) ∧
      Contient b (corps frags) ∧ deplie (corps frags) = (frags.map fun f => caracteres f.hexify f.data).flatten := by
  have hd : Libre none (corps frags) := libre_of_mem (fun _ hc => mem_corps h hc) nofun
  obtain ⟨b, hb, hc⟩ := getpacket_trames (s := s) hm (trame_juste [] nofun hd hl) (fun h58 => absurd h58 hs) h2
  have hr : reponse (corps frags) = [43] := if_neg hs
  have hcmd : commande (corps frags) = corps frags := if_neg hs
  refine ⟨b, _, hb, ?_, hcmd ▸ hc, (deplie_corps fun f hf h₀ => ((h f hf).texte h₀).2.1).1⟩
  have h45 : ∀ c ∈ List.replicate mauvaises.length 45, c % 128 ≠ 43 := by
    intro c hc
    rw [List.eq_of_mem_replicate hc]
    decide
  have hp : putfrags frags (List.replicate mauvaises.length 45 ++ 43 :: r) = _ := putfrags_refus h45
  rw [List.length_replicate] at hp
  show putfrags frags (List.replicate mauvaises.length 45 ++ reponse (corps frags) ++ r) = _
  rw [hr, List.append_assoc]
  exact hp

/-- `S05`, spoilt once on the line. -/
def fragsS05 : List Outfrag := [⟨[83], false⟩, ⟨[5], true⟩]

theorem fragsS05_sain : ∀ f ∈ fragsS05, DonneesSaines f.hexify f.data := by
  intro f hf
  rcases List.mem_cons.mp hf with rfl | hf
  · exact ⟨by decide, by decide, fun _ x hx => absurd hx.length_le (by rw [List.length_replicate]; decide)⟩
  · rw [List.mem_singleton.mp hf]
    exact ⟨by decide, nofun, nofun⟩

theorem corps_fragsS05 : corps fragsS05 = [83, 48, 53] := by
  simp [corps, fragsS05, envoieFrag, serie, hexchar]

theorem putfrags_getpacket_S05 : ∃ b envoi, getpacket (fun _ => 0) ([trameG 54 56].flatMap Trame.octets ++ (paquet fragsS05 ++ [])) = some (b, envoi, []) ∧
    putfrags fragsS05 (envoi ++ []) = some ((List.replicate 2 (paquet fragsS05)).flatten, []) ∧ Contient b (corps fragsS05) ∧
    deplie (corps fragsS05) = (fragsS05.map fun f => caracteres f.hexify f.data).flatten :=
  putfrags_getpacket fragsS05_sain (by rw [corps_fragsS05]; decide) (by decide)
    (by rw [corps_fragsS05]; decide) fun _ => by decide

end Pcsea
