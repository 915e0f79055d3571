import Pcsea.HashUpdate
import Pcsea.Lib.Refines
/-!
# Sequences of calls on a hash table

As long as `hash_update` gets the tables it asks for, the calls answer as a
finite map does. When it does not, `hash_set` and `hash_del` return -1 with
the slot already written.
-/

namespace Pcsea

open Lib

variable {π : Type} {k : Nat} {hfunc : π → Int} {cmp : π → π → Int} {map map' map₀ map₁ : HashT π}
  {m : π → Option π} {key v : π} {libre : Bool}

/-! ## Calls -/

inductive HashOp (π : Type) where
  | set (key value : π)
  | del (key : π)
  | get (key defaultValue : π)
  | isset (key : π)

/-- What a call returns. -/
inductive Reponse (π : Type) where
  | code (n : Int)
  | valeur (v : π)

section Appels
variable [DecidableEq π] [Zero π]

/-- A call, with the answer of `public_mALLOc`. -/
def appelleHash : HashOp π × Bool → Option (HashT π) → Except Fault (Reponse π × Option (HashT π))
  | (.set key value, libre), map => do
    let (code, map) ← hashSet libre map key value
    .ok (.code code, map)
  | (.del key, libre), map => do
    let (code, map) ← hashDel libre map key
    .ok (.code code, map)
  | (.get key defaultValue, _), map => do .ok (.valeur (← hashGet map key defaultValue), map)
  | (.isset key, _), map => do .ok (.code (← hashIsset map key), map)

/-- What the call writes before `hash_update`, and whether it calls it. -/
def HashOp.slot : HashOp π → HashT π → Except Fault (Bool × HashT π)
  | .set key value, map => hashSetSlot map key value
  | .del key, map => hashDelSlot map key
  | _, map => .ok (false, map)

end Appels

/-- What `hash_isset` says of a value. -/
def siPresent (o : Option π) : Int := if o.isSome then 1 else 0

/-- A call on a finite map. -/
def HashOp.carte (cmp : π → π → Int) : HashOp π → (π → Option π) → Reponse π × (π → Option π)
  | .set key value, m => (.code 0, assign (Egales cmp) m key (some value))
  | .del key, m => (.code 0, assign (Egales cmp) m key none)
  | .get key defaultValue, m => (.valeur ((m key).getD defaultValue), m)
  | .isset key, m => (.code (siPresent (m key)), m)

/-- The table of a finite map, less than two thirds full. -/
def PeuRemplie (hfunc : π → Int) (cmp : π → π → Int) (map : HashT π) (m : π → Option π) : Prop :=
  ∃ k, Hachage hfunc cmp k map m ∧ 3 * nonVides map.table < 2 * 2 ^ k

theorem PeuRemplie.pasPlein (h : Hachage hfunc cmp k map m) (hv : 3 * nonVides map.table < 2 * 2 ^ k) : nonVides map.table + 1 < 2 ^ k := by
  have := h.taille
  omega

/-- The table of `hash_init` is empty. -/
theorem hashInit_sain [Zero π] (hinit : hashInit libre map₀ hfunc cmp = .ok (0, map₁)) : PeuRemplie hfunc cmp map₁ fun _ => none := by
  have hsize := hashInitialize_eq libre map₀ (n := 8) (by decide) (by decide)
  rw [hashInit, HASH_MINSIZE, show (8 : Int) = (8 : Nat) from rfl, hsize, ok_bind] at hinit
  cases libre with
  | false => cases hinit
  | true =>
    cases hinit
    refine ⟨3, ?_, ?_⟩
    · exact neuve_etat { map₀ with hfunc := hfunc, cmp := cmp } (by decide) (by decide)
    · simp [HashT.neuve, nonVides, HashSlot.vide]

/-! ## Reading -/

section Lecture
variable [DecidableEq π]

theorem Hachage.lit (h : Hachage hfunc cmp k map m) (hk : CleOk hfunc cmp) (hv : nonVides map.table < 2 ^ k) (key : π) :
    hashIsset (some map) key = .ok (siPresent (m key)) ∧ ∀ d, hashGet (some map) key d = .ok ((m key).getD d) := by
  obtain ⟨i, s, hi, hs, ⟨ha, he⟩ | ⟨ha, habs, -⟩⟩ := h.lookup hk (hv.trans_eq h.length.symm) key
  · have hm : m key = some s.value := (h.carte.value key s.value).2 ⟨i, s.key, vue_active.2 ⟨s, hs, ha, rfl, rfl⟩, he⟩
    simp [hashIsset, hashGet, h.hfunc_eq, hi, litSlot_of_get hs, ha, hm, siPresent]
  · have hm := h.carte.eq_none habs
    simp [hashIsset, hashGet, h.hfunc_eq, hi, litSlot_of_get hs, ha, hm, siPresent]

/-- Every lookup ends. -/
theorem Hachage.termine (h : Hachage hfunc cmp k map m) (hv : nonVides map.table < 2 ^ k) (key : π) (hash : Int) :
    ∃ i, hashLookup map key hash = .ok i := by
  obtain ⟨i, -, -, hi, -⟩ := hashLookup_spec h.mask (h.max.trans (by decide)) h.length (hv.trans_eq h.length.symm) key hash
  exact ⟨i, hi⟩

end Lecture

/-! ## Writing -/

section Ecriture
variable [DecidableEq π]

/-- `hash_set` writes the slot, and calls `hash_update` for a new key. -/
theorem Hachage.hashSetSlot (h : Hachage hfunc cmp k map m) (hk : CleOk hfunc cmp) (hv : nonVides map.table < 2 ^ k) (key v : π) :
    ∃ neuf map₁, Pcsea.hashSetSlot map key v = .ok (neuf, map₁) ∧ Hachage hfunc cmp k map₁ (assign (Egales cmp) m key (some v)) ∧
      nonVides map₁.table ≤ nonVides map.table + 1 ∧
      (neuf = false ∧ nonVides map₁.table = nonVides map.table ∨ neuf = true ∧ m key = none) := by
  obtain ⟨hc, hcf, hf⟩ := h.compteurs
  obtain ⟨i, s, hi, hs, htrouve⟩ := h.lookup hk (hv.trans_eq h.length.symm) key
  obtain rfl := h.hfunc_eq
  rw [Pcsea.hashSetSlot]
  dsimp only
  rw [hi, ok_bind, litSlot_of_get hs, ok_bind]
  -- The key is there and its value changes, or it takes a slot that was free.
  obtain ⟨ha, he⟩ | ⟨ha, habs, hreach⟩ := htrouve
  · have hmod := h.modifie hk hs ha he v
    have hnv : nonVides (map.table.set i { s with value := v }) = nonVides map.table := by
      have hfill := hmod.fill
      rw [h.fill] at hfill
      exact_mod_cast hfill.symm
    rw [if_pos ha]
    exact ⟨false, _, rfl, hmod, by dsimp only; omega, .inl ⟨rfl, hnv⟩⟩
  · have hins := h.insere hk hs ha habs hreach rfl v
    have hnv : nonVides (map.table.set i ⟨key, v, map.hfunc key, .slActive⟩) ≤ nonVides map.table + 1 := by
      have hfill := hins.fill
      rw [h.fill] at hfill
      dsimp only at hfill
      split at hfill <;> omega
    rw [if_neg ha, addInt_ok (by omega) (by omega), ok_bind]
    refine ⟨true, _, ?_, hins, hnv, .inr ⟨rfl, h.carte.eq_none habs⟩⟩
    by_cases hvide : s.mode = .slEmpty
    · rw [if_pos hvide, if_pos hvide, addInt_ok (by omega) (by omega), ok_bind]
    · rw [if_neg hvide, if_neg hvide, ok_bind, Int.add_zero]

variable [Zero π]

/-- `hash_del` frees the slot, and calls `hash_update` for a key that was there. -/
theorem Hachage.hashDelSlot (h : Hachage hfunc cmp k map m) (hk : CleOk hfunc cmp) (hv : nonVides map.table < 2 ^ k) (key : π) :
    ∃ present map₁, Pcsea.hashDelSlot map key = .ok (present, map₁) ∧ Hachage hfunc cmp k map₁ (assign (Egales cmp) m key none) ∧
      nonVides map₁.table = nonVides map.table ∧ (present = true → m key ≠ none) := by
  obtain ⟨hc, hcf, hf⟩ := h.compteurs
  obtain ⟨i, s, hi, hs, htrouve⟩ := h.lookup hk (hv.trans_eq h.length.symm) key
  obtain rfl := h.hfunc_eq
  rw [Pcsea.hashDelSlot, hi, ok_bind, litSlot_of_get hs, ok_bind]
  obtain ⟨ha, he⟩ | ⟨ha, habs, hreach⟩ := htrouve
  · have hsup := h.supprime hk hs ha he
    have hact : 1 ≤ map.count := by
      rw [h.count]
      exact_mod_cast List.countP_pos_iff.2 ⟨s, List.mem_of_getElem? hs, by simp [ha]⟩
    have hsome : m key ≠ none := by
      rw [(h.carte.value key s.value).2 ⟨i, s.key, vue_active.2 ⟨s, hs, ha, rfl, rfl⟩, he⟩]
      simp
    rw [if_neg (by simp [ha]), addInt_ok (by omega) (by omega), ok_bind]
    refine ⟨true, _, rfl, hsup, ?_, fun _ => hsome⟩
    have hfill := hsup.fill
    rw [h.fill] at hfill
    exact_mod_cast hfill.symm
  · rw [if_pos ha]
    have hmap : assign (Egales cmp) m key none = m := by
      funext x
      rw [assign]
      split
      · next hx => rw [← h.carte.congr (hk.keyEq _) hx, h.carte.eq_none habs]
      · rfl
    exact ⟨false, map, rfl, hmap.symm ▸ h, rfl, by simp⟩

theorem Hachage.slot (h : Hachage hfunc cmp k map m) (hk : CleOk hfunc cmp) (hv : 3 * nonVides map.table < 2 * 2 ^ k)
    (op : HashOp π) : ∃ maj map₁, op.slot map = .ok (maj, map₁) ∧ Hachage hfunc cmp k map₁ (op.carte cmp m).2 ∧
      nonVides map₁.table < 2 ^ k ∧ (maj = false → 3 * nonVides map₁.table < 2 * 2 ^ k) ∧
      (maj = true → ∃ key, siPresent ((op.carte cmp m).2 key) ≠ siPresent (m key)) := by
  have hplein := PeuRemplie.pasPlein h hv
  cases op with
  | set key v =>
    obtain ⟨maj, map₁, ho, h₁, hle, hcas⟩ := h.hashSetSlot hk (by omega) key v
    refine ⟨maj, map₁, ho, h₁, by omega, fun hf => ?_, fun ht => ⟨key, ?_⟩⟩
    · rcases hcas with ⟨-, he⟩ | ⟨ht, -⟩
      · omega
      · simp [hf] at ht
    · have hnone : m key = none := by
        rcases hcas with ⟨hf, -⟩ | ⟨-, hnone⟩
        · simp [ht] at hf
        · exact hnone
      simp [HashOp.carte, assign, hk.equiv.refl key, hnone, siPresent]
  | del key =>
    obtain ⟨maj, map₁, ho, h₁, hle, hcas⟩ := h.hashDelSlot hk (by omega) key
    refine ⟨maj, map₁, ho, h₁, by omega, fun _ => by omega, fun ht => ⟨key, ?_⟩⟩
    obtain ⟨v, hv⟩ := Option.ne_none_iff_exists'.1 (hcas ht)
    simp [HashOp.carte, assign, hk.equiv.refl key, hv, siPresent]
  | get key d => exact ⟨false, map, rfl, h, by omega, fun _ => hv, by simp⟩
  | isset key => exact ⟨false, map, rfl, h, by omega, fun _ => hv, by simp⟩

/-- The call asks for a table, and gets NULL. -/
def EchoueAppel (op : HashOp π × Bool) (map : HashT π) : Prop := ∃ map₁, op.1.slot map = .ok (true, map₁) ∧ Echoue op.2 map₁

/-- The end of `hash_set` and `hash_del`. -/
theorem Hachage.fin (h : Hachage hfunc cmp k map m) (hk : CleOk hfunc cmp) (libre : Bool) {maj : Bool}
    (hv : maj = false → 3 * nonVides map.table < 2 * 2 ^ k) :
    (maj = true ∧ Echoue libre map) ∧ hashFin libre (maj, map) = .ok (-1, some map) ∨
      ¬(maj = true ∧ Echoue libre map) ∧ ∃ map', hashFin libre (maj, map) = .ok (0, some map') ∧ PeuRemplie hfunc cmp map' m := by
  cases maj with
  | false => exact .inr ⟨by simp, map, rfl, k, h, hv rfl⟩
  | true =>
    rcases h.update hk libre with ⟨he, ho⟩ | ⟨hne, k', map', ho, h', hv'⟩
    · exact .inl ⟨⟨rfl, he⟩, by simp [hashFin, ho]⟩
    · exact .inr ⟨fun hc => hne hc.2, map', by simp [hashFin, ho], k', h', hv'⟩

/-- A call that gets the table it asks for answers as the finite map. One that does not returns -1, and a key has come or gone. -/
def Repond (hfunc : π → Int) (cmp : π → π → Int) (op : HashOp π × Bool) (map : HashT π) (m : π → Option π) : Prop :=
  (EchoueAppel op map ∧ ∃ map' key, appelleHash op (some map) = .ok (.code (-1), some map') ∧
      hashIsset (some map') key ≠ hashIsset (some map) key) ∨
    ¬EchoueAppel op map ∧ ∃ map', appelleHash op (some map) = .ok ((op.1.carte cmp m).1, some map') ∧
      PeuRemplie hfunc cmp map' (op.1.carte cmp m).2

/-- `hash_set` and `hash_del`. -/
theorem PeuRemplie.ecrit (h : PeuRemplie hfunc cmp map m) (hk : CleOk hfunc cmp) {op : HashOp π}
    (hcode : (op.carte cmp m).1 = .code 0)
    (hcall : appelleHash (op, libre) (some map) = (do
      let (code, map) ← hashFin libre (← op.slot map)
      .ok (.code code, map))) : Repond hfunc cmp (op, libre) map m := by
  obtain ⟨k, h₀, hv₀⟩ := h
  obtain ⟨maj, map₁, hslot, h₁, hv₁, hmaj, hchange⟩ := h₀.slot hk hv₀ op
  have hplein := PeuRemplie.pasPlein h₀ hv₀
  have hechoue : EchoueAppel (op, libre) map ↔ maj = true ∧ Echoue libre map₁ := by
    simp [EchoueAppel, hslot]
  rw [Repond, hechoue]
  rcases h₁.fin hk libre hmaj with ⟨hec, ho⟩ | ⟨hec, map', ho, h'⟩
  · obtain ⟨key, hkey⟩ := hchange hec.1
    refine .inl ⟨hec, map₁, key, ?_, fun he => hkey ?_⟩
    · rw [hcall, hslot, ok_bind, ho]
      rfl
    · rw [(h₁.lit hk hv₁ key).1, (h₀.lit hk (by omega) key).1] at he
      exact Except.ok.inj he
  · refine .inr ⟨hec, map', ?_, h'⟩
    rw [hcall, hslot, ok_bind, ho, hcode]
    rfl

theorem PeuRemplie.appel (h : PeuRemplie hfunc cmp map m) (hk : CleOk hfunc cmp) (op : HashOp π × Bool) :
    Repond hfunc cmp op map m := by
  obtain ⟨op, libre⟩ := op
  obtain ⟨k, h₀, hv⟩ := id h
  have hlit := h₀.lit hk (by have := PeuRemplie.pasPlein h₀ hv; omega)
  cases op with
  | set key v => exact h.ecrit hk rfl (by simp [appelleHash, hashSet, HashOp.slot])
  | del key => exact h.ecrit hk rfl (by simp [appelleHash, hashDel, HashOp.slot])
  | get key d =>
    refine .inr ⟨?_, map, ?_, h⟩
    · rintro ⟨map₁, ⟨⟩, -⟩
    · rw [appelleHash, (hlit key).2 d]
      rfl
  | isset key =>
    refine .inr ⟨?_, map, ?_, h⟩
    · rintro ⟨map₁, ⟨⟩, -⟩
    · rw [appelleHash, (hlit key).1]
      rfl

/-! ## Runs -/

/-- The answers of the finite map to a sequence of calls from the empty map, and the map after them. -/
def cartes (cmp : π → π → Int) (run : List (HashOp π × Bool)) : List (Reponse π) × (π → Option π) :=
  runTotal (fun op m => op.1.carte cmp m) run fun _ => none

/-- A run whose calls get the tables they ask for does what the finite map does. -/
theorem PeuRemplie.run (h : PeuRemplie hfunc cmp map₁ fun _ => none) (hk : CleOk hfunc cmp) {run : List (HashOp π × Bool)}
    (hrun : ∀ avant op map, avant ++ [op] <+: run → execAll appelleHash avant (some map₁) = .ok ((cartes cmp avant).1, some map) →
      PeuRemplie hfunc cmp map (cartes cmp avant).2 → ¬EchoueAppel op map)
    {avant : List (HashOp π × Bool)} (ha : avant <+: run) :
    ∃ map, execAll appelleHash avant (some map₁) = .ok ((cartes cmp avant).1, some map) ∧
      PeuRemplie hfunc cmp map (cartes cmp avant).2 := by
  induction avant using List.reverseRecOn with
  | nil => exact ⟨map₁, rfl, h⟩
  | append_singleton avant op ih =>
    obtain ⟨map, ho, hmap⟩ := ih ((List.prefix_append avant [op]).trans ha)
    rcases hmap.appel hk op with ⟨hec, -⟩ | ⟨-, map', ho', hmap'⟩
    · exact absurd hec (hrun avant op map ha ho hmap)
    · refine ⟨map', ?_, ?_⟩
      · rw [cartes, runTotal_concat]
        exact execAll_concat ho ho'
      · rw [cartes, runTotal_concat]
        exact hmap'

end Ecriture

end Pcsea
