import Pcsea.Hash
import Pcsea.Lib.OpenTable
import Pcsea.Lib.Probe
/-!
# `hash_lookup`

`Hachage hfunc cmp k map m`: a table of `2 ^ k` slots that holds the finite map
`m`. A lookup in a table with an EMPTY slot ends, on the slot of the key or on
the one where the key can be put.
-/

namespace Pcsea

open Lib

variable {π : Type} {mask h i j k n y : Nat} {table : List (HashSlot π)} {s : HashSlot π} {hfunc : π → Int} {cmp : π → π → Int}
  {map : HashT π} {m : π → Option π} {key v : π} {hash : Int}

/-! ## The probe -/

/-- `index` and `perturb` after `n` turns. -/
def sonde (mask h : Nat) : Nat → Nat × Nat
  | 0 => (h &&& mask, h)
  | n + 1 => ((5 * (sonde mask h n).1 + (sonde mask h n).2 + 1) % 2 ^ 32, (sonde mask h n).2 >>> 5)

/-- The slot seen at turn `n`. -/
def place (mask h n : Nat) : Nat := (sonde mask h n).1 &&& mask

theorem place_zero : place mask h 0 = h &&& mask := by
  rw [place, sonde, Nat.and_assoc, Nat.and_self]

theorem place_lt (h n : Nat) : place (2 ^ k - 1) h n < 2 ^ k := by
  rw [place, Nat.and_two_pow_sub_one_eq_mod]
  exact Nat.mod_lt _ (Nat.two_pow_pos k)

theorem sonde_perturb (mask h n : Nat) : (sonde mask h n).2 = h >>> (5 * n) := by
  induction n with
  | zero => rfl
  | succ n ih => rw [sonde, ih, ← Nat.shiftRight_add, Nat.mul_succ]

/-- Once `perturb` is 0, the index goes round modulo the size. -/
theorem sonde_index (hh : h < 2 ^ 32) (hk : k ≤ 32) (n : Nat) :
    (sonde mask h (7 + n)).1 ≡ probeStep^[n] (sonde mask h 7).1 [MOD 2 ^ k] := by
  induction n with
  | zero => rfl
  | succ n ih =>
    have hz : (sonde mask h (7 + n)).2 = 0 := by
      rw [sonde_perturb, Nat.shiftRight_eq_div_pow]
      exact Nat.div_eq_of_lt (hh.trans_le (Nat.pow_le_pow_right (by decide) (by omega)))
    rw [Function.iterate_succ_apply', probeStep, ← Nat.add_assoc, sonde, hz]
    refine Nat.ModEq.trans ?_ ((ih.mul_left 5).add_right 1)
    exact (Nat.mod_modEq _ _).of_dvd (Nat.pow_dvd_pow 2 hk)

/-- Every slot is seen. -/
theorem place_surj (hh : h < 2 ^ 32) (hk : k ≤ 32) (hy : y < 2 ^ k) : ∃ n < 2 ^ k + 7, place (2 ^ k - 1) h n = y := by
  obtain ⟨n, hn, he⟩ := probeStep_surj k (sonde (2 ^ k - 1) h 7).1 hy
  refine ⟨7 + n, by omega, ?_⟩
  rw [place, Nat.and_two_pow_sub_one_eq_mod, ← he]
  exact sonde_index hh hk n

/-! ## The slots -/

def HashSlot.cell (s : HashSlot π) : Cell π π :=
  match s.mode with
  | .slEmpty => .empty
  | .slActive => .active s.key s.value
  | .slDeleted => .deleted

/-- The table, slot by slot. -/
def vue (table : List (HashSlot π)) (i : Nat) : Cell π π := (table[i]?).elim .empty HashSlot.cell

theorem HashSlot.cell_empty : s.cell = .empty ↔ s.mode = .slEmpty := by
  unfold HashSlot.cell
  cases s.mode <;> simp

theorem HashSlot.cell_active : s.cell = .active key v ↔ s.mode = .slActive ∧ s.key = key ∧ s.value = v := by
  unfold HashSlot.cell
  cases s.mode <;> simp

theorem vue_of_get (hs : table[i]? = some s) : vue table i = s.cell := by
  rw [vue, hs]
  rfl

theorem vue_active : vue table i = .active key v ↔ ∃ s, table[i]? = some s ∧ s.mode = .slActive ∧ s.key = key ∧ s.value = v := by
  rw [vue]
  cases table[i]? with
  | none => simp
  | some s => simp [HashSlot.cell_active]

theorem vue_set (hi : i < table.length) : vue (table.set i s) = Function.update (vue table) i s.cell := by
  funext j
  rw [vue, List.getElem?_set, Function.update_apply]
  by_cases hj : j = i
  · subst hj
    simp [hi]
  · rw [if_neg (Ne.symm hj), if_neg hj]
    rfl

/-- Keys that `cmp` takes for one. -/
def Egales (cmp : π → π → Int) (a b : π) : Prop := cmp a b ≠ 0

instance (cmp : π → π → Int) : DecidableRel (Egales cmp) := fun a b => inferInstanceAs (Decidable (cmp a b ≠ 0))

/-- `cmp` is an equality of keys, and equal keys have one hash. -/
structure CleOk (hfunc : π → Int) (cmp : π → π → Int) : Prop where
  equiv : Equivalence (Egales cmp)
  hash : ∀ a b, Egales cmp a b → hfunc a = hfunc b

/-- The slots where a key is looked for. -/
def sondeDe (hfunc : π → Int) (mask : Nat) (key : π) (n : Nat) : Nat := place mask (toUint32 (hfunc key)) n

theorem CleOk.keyEq (hk : CleOk hfunc cmp) (mask : Nat) : KeyEq (Egales cmp) (sondeDe hfunc mask) where
  equiv := hk.equiv
  probe := by
    intro a b hab
    funext n
    rw [sondeDe, sondeDe, hk.hash a b hab]

def nonVides (table : List (HashSlot π)) : Nat := table.countP fun s => decide (s.mode ≠ .slEmpty)

def actifs (table : List (HashSlot π)) : Nat := table.countP fun s => decide (s.mode = .slActive)

theorem actifs_le (table : List (HashSlot π)) : actifs table ≤ nonVides table := by
  refine List.countP_mono_left fun s _ hs => ?_
  rw [decide_eq_true_eq] at hs ⊢
  simp [hs]

/-- A table that is not full has an EMPTY slot. -/
theorem exists_vide (hn : nonVides table < table.length) : ∃ (i : Nat) (s : HashSlot π), table[i]? = some s ∧ s.mode = .slEmpty := by
  by_contra hno
  refine Nat.ne_of_lt hn (List.countP_eq_length.2 fun s hs => ?_)
  obtain ⟨i, hi⟩ := List.getElem?_of_mem hs
  rw [decide_eq_true_eq]
  exact fun hm => hno ⟨i, s, hi, hm⟩

structure Hachage (hfunc : π → Int) (cmp : π → π → Int) (k : Nat) (map : HashT π) (m : π → Option π) : Prop where
  hfunc_eq : map.hfunc = hfunc
  cmp_eq : map.cmp = cmp
  min : 3 ≤ k
  max : k ≤ 27
  mask : map.mask = 2 ^ k - 1
  length : map.table.length = 2 ^ k
  fill : map.fill = nonVides map.table
  count : map.count = actifs map.table
  hash : ∀ s ∈ map.table, s.mode = .slActive → s.hash = hfunc s.key
  carte : Holds (Egales cmp) (sondeDe hfunc map.mask) (vue map.table) m

/-! ## The loop -/

theorem litSlot_of_get (hs : table[i]? = some s) : litSlot table i = .ok s := by
  rw [litSlot, hs]

/-- The loop of `hash_lookup` ends on the slot `s`. -/
def Arrete (map : HashT π) (key : π) (hash : Int) (s : HashSlot π) : Prop :=
  s.mode = .slEmpty ∨ s.mode = .slActive ∧ (s.key = key ∨ s.hash = hash ∧ map.cmp s.key key ≠ 0)

/-- The slot is free, and is seen in the first `n` turns. -/
def LibreVu (map : HashT π) (h n i : Nat) : Prop :=
  ∃ j ≤ n, i = place map.mask h j ∧ ∃ s, map.table[i]? = some s ∧ s.mode ≠ .slActive

section Boucle
variable [DecidableEq π]

/-- The loop passes `d` slots and ends on the next. -/
theorem lookupLoop_spec {N : Nat} (hpass : ∀ i < N, ∃ s, map.table[place map.mask h i]? = some s ∧ ¬Arrete map key hash s)
    (hs : map.table[place map.mask h N]? = some s) (hstop : Arrete map key hash s) (d : Nat) {j n : Nat} {free : Option Nat}
    (hN : j + d = N) (hn : d < n) (hfree : ∀ f, free = some f → LibreVu map h N f) :
    ∃ r, lookupLoop map key hash n (sonde map.mask h j).1 (sonde map.mask h j).2 (place map.mask h j) free = .ok r ∧
      (s.mode = .slActive ∧ r = place map.mask h N ∨ s.mode = .slEmpty ∧ LibreVu map h N r) := by
  -- On the probes left before the one where the search stops.
  induction d generalizing j n free with
  | zero =>
    obtain ⟨n, rfl⟩ : ∃ m, n = m + 1 := ⟨n - 1, by omega⟩
    obtain rfl : j = N := hN
    rw [lookupLoop, litSlot_of_get hs, ok_bind]
    rcases hstop with he | ⟨ha, hkey⟩
    · rw [if_pos he]
      refine ⟨_, rfl, .inr ⟨he, ?_⟩⟩
      cases free with
      | none => exact ⟨j, le_rfl, rfl, s, hs, by simp [he]⟩
      | some f => exact hfree f rfl
    · rw [if_neg (by simp [ha]), if_pos ⟨ha, hkey⟩]
      exact ⟨_, rfl, .inl ⟨ha, rfl⟩⟩
  | succ d ih =>
    obtain ⟨n, rfl⟩ : ∃ m, n = m + 1 := ⟨n - 1, by omega⟩
    obtain ⟨t, ht, hgo⟩ := hpass j (by omega)
    rw [lookupLoop, litSlot_of_get ht, ok_bind, if_neg fun he => hgo (.inl he), if_neg fun ha => hgo (.inr ha)]
    refine ih (j := j + 1) (n := n) (by omega) (by omega) fun f hf => ?_
    split at hf
    · next hdel =>
      cases hf
      exact ⟨j, by omega, rfl, t, ht, by simp [hdel.1]⟩
    · exact hfree f hf

/-- The loop does not end where no slot ends it. -/
theorem lookupLoop_diverge {h : Nat} (hpass : ∀ i, ∃ s, map.table[place map.mask h i]? = some s ∧ ¬Arrete map key hash s)
    (n j : Nat) (free : Option Nat) :
    lookupLoop map key hash n (sonde map.mask h j).1 (sonde map.mask h j).2 (place map.mask h j) free = .error .diverge := by
  induction n generalizing j free with
  | zero => rfl
  | succ n ih =>
    obtain ⟨t, ht, hgo⟩ := hpass j
    rw [lookupLoop, litSlot_of_get ht, ok_bind, if_neg fun he => hgo (.inl he), if_neg fun ha => hgo (.inr ha)]
    exact ih (j + 1) _

/-- In a table without an EMPTY slot, the lookup of a key that no slot has goes on for ever. -/
theorem hashLookup_plein (hm : map.mask = 2 ^ k - 1) (hl : map.table.length = 2 ^ k)
    (hs : ∀ s ∈ map.table, ¬Arrete map key hash s) (n : Nat) :
    lookupLoop map key hash n (toUint32 hash &&& map.mask) (toUint32 hash) (toUint32 hash &&& map.mask) none = .error .diverge := by
  have hpass : ∀ i, ∃ s, map.table[place map.mask (toUint32 hash) i]? = some s ∧ ¬Arrete map key hash s := by
    intro i
    have hi : place map.mask (toUint32 hash) i < map.table.length := by
      rw [hm, hl]
      exact place_lt _ i
    exact ⟨_, List.getElem?_eq_getElem hi, hs _ (List.getElem_mem hi)⟩
  have := lookupLoop_diverge hpass n 0 none
  rwa [place_zero] at this

/-- A lookup in a table with an EMPTY slot ends: on an active slot that it takes for the key, or else where it has met an
EMPTY slot after slots that it passed. -/
theorem hashLookup_spec (hm : map.mask = 2 ^ k - 1) (hk : k ≤ 32) (hl : map.table.length = 2 ^ k)
    (hv : nonVides map.table < map.table.length) (key : π) (hash : Int) :
    ∃ r N, ∃ s : HashSlot π, hashLookup map key hash = .ok r ∧ map.table[place map.mask (toUint32 hash) N]? = some s ∧
      (∀ i < N, ∃ s, map.table[place map.mask (toUint32 hash) i]? = some s ∧ ¬Arrete map key hash s) ∧
      (s.mode = .slActive ∧ Arrete map key hash s ∧ r = place map.mask (toUint32 hash) N ∨
        s.mode = .slEmpty ∧ LibreVu map (toUint32 hash) N r) := by
  classical
  set h := toUint32 hash with hh
  have hlt : h < 2 ^ 32 := by
    rw [hh, toUint32]
    omega
  have hget : ∀ n, ∃ s, map.table[place map.mask h n]? = some s := by
    intro n
    rw [hm]
    exact ⟨_, List.getElem?_eq_getElem (hl.symm ▸ place_lt h n)⟩
  obtain ⟨y, t, ht, hte⟩ := exists_vide hv
  obtain ⟨hy, -⟩ := List.getElem?_eq_some_iff.1 ht
  obtain ⟨n, hn, hny⟩ := place_surj hlt hk (hl ▸ hy)
  -- The first slot that ends the loop.
  have hex : ∃ N, ∃ s : HashSlot π, map.table[place map.mask h N]? = some s ∧ Arrete map key hash s :=
    ⟨n, t, by rw [hm, hny, ht], .inl hte⟩
  obtain ⟨s, hs, hstop⟩ := Nat.find_spec hex
  have hmin : ∀ i < Nat.find hex, ∃ s, map.table[place map.mask h i]? = some s ∧ ¬Arrete map key hash s := by
    intro i hi
    obtain ⟨u, hu⟩ := hget i
    exact ⟨u, hu, fun ha => Nat.find_min hex hi ⟨u, hu, ha⟩⟩
  have hle : Nat.find hex ≤ n := Nat.find_min' hex ⟨t, by rw [hm, hny, ht], .inl hte⟩
  have hfuel : Nat.find hex < map.mask + 8 := hle.trans_lt (by rw [hm]; omega)
  have hfree : ∀ f, (none : Option Nat) = some f → LibreVu map h (Nat.find hex) f := by simp
  obtain ⟨r, hr, hcase⟩ := lookupLoop_spec hmin hs hstop (Nat.find hex) (Nat.zero_add _) hfuel hfree
  refine ⟨r, Nat.find hex, s, ?_, hs, hmin, hcase.imp_left fun hc => ⟨hc.1, hstop, hc.2⟩⟩
  rw [place_zero] at hr
  exact hr

end Boucle

/-! ## A lookup in a sound table -/

/-- What a lookup of `key` finds: its slot, or a free slot that its probe reaches where no slot has it. -/
inductive Trouve (hfunc : π → Int) (cmp : π → π → Int) (map : HashT π) (key : π) (i : Nat) (s : HashSlot π) : Prop where
  | present (hm : s.mode = .slActive) (hk : Egales cmp s.key key)
  | absent (hm : s.mode ≠ .slActive) (ha : Absent (Egales cmp) (vue map.table) key)
      (hr : Reached (sondeDe hfunc map.mask) (vue map.table) key i)

theorem Hachage.arrete (h : Hachage hfunc cmp k map m) (hk : CleOk hfunc cmp) (hs : map.table[i]? = some s)
    (ha : s.mode = .slActive) : Arrete map key (hfunc key) s ↔ Egales cmp s.key key := by
  have hh := h.hash s (List.mem_of_getElem? hs) ha
  rw [Arrete, h.cmp_eq]
  constructor
  · rintro (he | ⟨-, rfl | ⟨-, he⟩⟩)
    · simp [ha] at he
    · exact hk.equiv.refl _
    · exact he
  · intro he
    exact .inr ⟨ha, .inr ⟨by rw [hh, hk.hash _ _ he], he⟩⟩

theorem Hachage.lookup [DecidableEq π] (h : Hachage hfunc cmp k map m) (hk : CleOk hfunc cmp) (hv : nonVides map.table < map.table.length) (key : π) :
    ∃ i s, hashLookup map key (hfunc key) = .ok i ∧ map.table[i]? = some s ∧ Trouve hfunc cmp map key i s := by
  obtain ⟨r, N, s, hr, hs, hpass, ⟨ha, hstop, rfl⟩ | ⟨he, j, hj, rfl, t, ht, hta⟩⟩ :=
    hashLookup_spec h.mask (h.max.trans (by decide)) h.length hv key (hfunc key)
  · exact ⟨_, s, hr, hs, .present ha ((h.arrete hk hs ha).1 hstop)⟩
  · -- up to turn `N` the loop has seen neither the key nor an EMPTY slot
    have hvue : ∀ i < N, ∃ s : HashSlot π, vue map.table (sondeDe hfunc map.mask key i) = s.cell ∧
        s.mode ≠ .slEmpty ∧ (s.mode = .slActive → ¬Egales cmp s.key key) := by
      intro i hi
      obtain ⟨u, hu, hgo⟩ := hpass i hi
      exact ⟨u, vue_of_get hu, fun hue => hgo (.inl hue), fun hua => mt (h.arrete hk hu hua).2 hgo⟩
    refine ⟨_, t, hr, ht, .absent hta ?_ ⟨j, rfl, fun i hi => ?_⟩⟩
    · refine h.carte.absent (hk.keyEq _) (n := N) ?_ fun i hi k' v hv => ?_
      · rw [sondeDe, vue_of_get hs, HashSlot.cell_empty, he]
      · obtain ⟨u, hu, -, hne⟩ := hvue i hi
        rw [hu, HashSlot.cell_active] at hv
        obtain ⟨hua, rfl, -⟩ := hv
        exact hne hua
    · obtain ⟨u, hu, hue, -⟩ := hvue i (hi.trans_le hj)
      rw [hu]
      exact mt HashSlot.cell_empty.1 hue

end Pcsea
