import Pcsea.HashRun
/-!
# The hash table as a finite map

With the tables that it asks for, a hash table is a finite map from classes of
keys to values. A table refused is noticed after the slot has been written:
`hash_set` then returns -1 with the key in the table, and when this happens
again the last EMPTY slot goes, and with it the end of the loop of
`hash_lookup`.
-/

namespace Pcsea

open Lib

variable {π : Type} {k : Nat} {hfunc : π → Int} {cmp : π → π → Int} {map map' map₀ map₁ : HashT π}
  {m : π → Option π} {key v : π} {libre : Bool} {op : HashOp π × Bool} {run : List (HashOp π × Bool)}

section Lecture
variable [DecidableEq π]

/-- Lookups in the two tables have the same results. -/
def MemeCarte (map map' : HashT π) : Prop :=
  ∀ key, hashIsset (some map') key = hashIsset (some map) key ∧
    ∀ d, hashGet (some map') key d = hashGet (some map) key d

theorem MemeCarte.of_hachage {k' : Nat} (hk : CleOk hfunc cmp) (h : Hachage hfunc cmp k map m)
    (hv : nonVides map.table < 2 ^ k) (h' : Hachage hfunc cmp k' map' m) (hv' : nonVides map'.table < 2 ^ k') : MemeCarte map map' := by
  intro key
  obtain ⟨hi, hg⟩ := h.lit hk hv key
  obtain ⟨hi', hg'⟩ := h'.lit hk hv' key
  exact ⟨hi'.trans hi.symm, fun d => (hg' d).trans (hg d).symm⟩

/-- `key` has the value `o`, or none, and the other keys what they had. -/
def PrendEffet (cmp : π → π → Int) (key : π) (o : Option π) (map map' : HashT π) : Prop :=
  ∀ x, if Egales cmp key x then hashIsset (some map') x = .ok (siPresent o) ∧ ∀ d, hashGet (some map') x d = .ok (o.getD d)
    else hashIsset (some map') x = hashIsset (some map) x ∧ ∀ d, hashGet (some map') x d = hashGet (some map) x d

theorem PrendEffet.of_hachage {k' : Nat} {o : Option π} (hk : CleOk hfunc cmp) (h : Hachage hfunc cmp k map m)
    (hv : nonVides map.table < 2 ^ k) (h' : Hachage hfunc cmp k' map' (assign (Egales cmp) m key o))
    (hv' : nonVides map'.table < 2 ^ k') : PrendEffet cmp key o map map' := by
  intro x
  obtain ⟨hi, hg⟩ := h.lit hk hv x
  obtain ⟨hi', hg'⟩ := h'.lit hk hv' x
  rw [assign] at hi' hg'
  split
  · next hx =>
    rw [if_pos hx] at hi' hg'
    exact ⟨hi', hg'⟩
  · next hx =>
    rw [if_neg hx] at hi' hg'
    exact ⟨hi'.trans hi.symm, fun d => (hg' d).trans (hg d).symm⟩

/-- A call that returns -1 has changed nothing, one that returns 0 has taken effect. -/
def HashOp.Tenu (cmp : π → π → Int) (r : Reponse π) (map map' : HashT π) : HashOp π → Prop
  | .set key value => (r = .code (-1) → MemeCarte map map') ∧ (r = .code 0 → PrendEffet cmp key (some value) map map')
  | .del key => (r = .code (-1) → MemeCarte map map') ∧ (r = .code 0 → PrendEffet cmp key none map map')
  | _ => True

theorem PeuRemplie.survit (h : PeuRemplie hfunc cmp map m) (hk : CleOk hfunc cmp)
    (h' : PeuRemplie hfunc cmp map' (op.1.carte cmp m).2) : op.1.Tenu cmp (op.1.carte cmp m).1 map map' := by
  obtain ⟨k, h, hv⟩ := h
  obtain ⟨k', h', hv'⟩ := h'
  have hplein := PeuRemplie.pasPlein h hv
  have hplein' := PeuRemplie.pasPlein h' hv'
  obtain ⟨op, libre⟩ := op
  cases op with
  | set key v => exact ⟨by simp [HashOp.carte], fun _ => .of_hachage hk h (by omega) h' (by omega)⟩
  | del key => exact ⟨by simp [HashOp.carte], fun _ => .of_hachage hk h (by omega) h' (by omega)⟩
  | get key d => trivial
  | isset key => trivial

end Lecture

/-! ## With every allocation granted -/

theorem Hachage.lt_of_size (h : Hachage hfunc cmp k map m) (hsize : map.mask + 1 < 2 ^ 26) : k < 26 := by
  have ht := h.taille
  rw [h.mask, Nat.sub_add_cancel (by omega)] at hsize
  exact (Nat.pow_lt_pow_iff_right (by decide)).1 hsize

/-- Calls to which `mem_alloc` never refuses a table. -/
def accordes (ops : List (HashOp π)) : List (HashOp π × Bool) := ops.map fun op => (op, true)

theorem prefix_accordes {ops : List (HashOp π)} {avant : List (HashOp π × Bool)} (ha : avant <+: accordes ops) :
    ∃ ops', ops' <+: ops ∧ avant = accordes ops' := by
  refine ⟨ops.take avant.length, List.take_prefix _ _, ?_⟩
  rw [accordes, List.map_take]
  exact List.prefix_iff_eq_take.1 ha

section Appels
variable [DecidableEq π] [Zero π]

theorem PeuRemplie.not_echoueAppel (h : PeuRemplie hfunc cmp map m) (hk : CleOk hfunc cmp) (hsize : map.mask + 1 < 2 ^ 26)
    (op : HashOp π) : ¬EchoueAppel (op, true) map := by
  rintro ⟨map₁, hslot, he⟩
  obtain ⟨k, h, hv⟩ := h
  obtain ⟨maj, map₂, hslot', h₁, -⟩ := h.slot hk hv op
  rw [hslot'] at hslot
  cases hslot
  exact h₁.not_echoue ((h.lt_of_size hsize).trans (by decide)) he

/-- From `hash_init`, with every allocation granted and sizes below 2^26: the calls answer as the finite map, lookups end,
the counters are right, and each resize keeps the map. -/
theorem hash_refines_map (hk : CleOk hfunc cmp) (hinit : hashInit true map₀ hfunc cmp = .ok (0, map₁)) {ops : List (HashOp π)}
    (hsize : ∀ avant, avant <+: ops → ∀ rs map, execAll appelleHash (accordes avant) (some map₁) = .ok (rs, some map) →
      map.mask + 1 < 2 ^ 26) :
    ∃ map, execAll appelleHash (accordes ops) (some map₁) = .ok ((cartes cmp (accordes ops)).1, some map) ∧
      (∀ key hash, ∃ slot, hashLookup map key hash = .ok slot) ∧
      (∀ key, hashIsset (some map) key = .ok (siPresent ((cartes cmp (accordes ops)).2 key)) ∧
        ∀ d, hashGet (some map) key d = .ok (((cartes cmp (accordes ops)).2 key).getD d)) ∧
      map.count = actifs map.table ∧ map.fill = nonVides map.table ∧
      (∃ k ≥ 3, map.table.length = 2 ^ k ∧ map.mask + 1 = 2 ^ k) ∧ 3 * map.fill < 2 * map.table.length ∧
      ∀ (op : HashOp π) map', op.slot map = .ok (true, map') → ∃ map'', hashUpdate true map' = .ok (0, map'') ∧ MemeCarte map' map'' := by
  -- A table of less than 2 ^ 26 slots can always be allocated anew.
  have hrun : ∀ avant op map, avant ++ [op] <+: accordes ops →
      execAll appelleHash avant (some map₁) = .ok ((cartes cmp avant).1, some map) →
      PeuRemplie hfunc cmp map (cartes cmp avant).2 → ¬EchoueAppel op map := by
    intro avant op map ha ho hmap
    obtain ⟨ops', hops', hav⟩ := prefix_accordes ((List.prefix_append avant [op]).trans ha)
    subst hav
    obtain ⟨o, -, rfl⟩ := List.mem_map.1 (ha.subset (List.mem_append_right _ (List.mem_singleton_self op)))
    exact hmap.not_echoueAppel hk (hsize ops' hops' _ map ho) o
  obtain ⟨map, ho, k, h, hv⟩ := (hashInit_sain hinit).run hk hrun List.prefix_rfl
  have hplein := PeuRemplie.pasPlein h hv
  have ht := h.taille
  have hlt := h.lt_of_size (hsize ops List.prefix_rfl _ map ho)
  refine ⟨map, ho, fun key hash => h.termine (by omega) key hash, fun key => h.lit hk (by omega) key, h.count, h.fill,
    ⟨k, h.min, h.length, by rw [h.mask]; omega⟩, ?_, fun op map' hslot => ?_⟩
  · have hf := h.fill
    rw [h.length]
    omega
  · obtain ⟨maj, map₂, hslot', h₁, hv₁, -⟩ := h.slot hk hv op
    rw [hslot'] at hslot
    cases hslot
    rcases h₁.update hk true with ⟨he, -⟩ | ⟨-, k', map'', hu, h', hv'⟩
    · exact absurd he (h₁.not_echoue (hlt.trans (by decide)))
    · exact ⟨map'', hu, .of_hachage hk h₁ hv₁ h' (by have := PeuRemplie.pasPlein h' hv'; omega)⟩

/-! ## With allocations refused -/

/-- Every call of the run ends and keeps its word, and so does every lookup after it. -/
def Survit (cmp : π → π → Int) (map₁ : HashT π) (run : List (HashOp π × Bool)) : Prop :=
  (∀ avant, avant <+: run → ∃ rs map, execAll appelleHash avant (some map₁) = .ok (rs, some map) ∧
      ∀ key d, ∃ v, hashGet (some map) key d = .ok v) ∧
    ∀ avant op, avant ++ [op] <+: run → ∀ rs map, execAll appelleHash avant (some map₁) = .ok (rs, some map) →
      ∃ r map', appelleHash op (some map) = .ok (r, some map') ∧ op.1.Tenu cmp r map map'

/-- No call of the run asks for a table and gets NULL. -/
def AucunEchec (map₁ : HashT π) (run : List (HashOp π × Bool)) : Prop :=
  ∀ avant op, avant ++ [op] <+: run → ∀ rs map, execAll appelleHash avant (some map₁) = .ok (rs, some map) → ¬EchoueAppel op map

/-- A table refused: -1, and a key has come or gone. -/
theorem PeuRemplie.echoue (h : PeuRemplie hfunc cmp map m) (hk : CleOk hfunc cmp) (he : EchoueAppel op map) :
    ∃ map', appelleHash op (some map) = .ok (.code (-1), some map') ∧ ¬op.1.Tenu cmp (.code (-1)) map map' := by
  rcases h.appel hk op with ⟨-, map', key, ho, hne⟩ | ⟨hne, -⟩
  · refine ⟨map', ho, fun ht => ?_⟩
    obtain ⟨map₂, hslot, -⟩ := he
    obtain ⟨op, libre⟩ := op
    cases op with
    | set key' v => exact hne (ht.1 rfl key).1
    | del key' => exact hne (ht.1 rfl key).1
    | get key' d => cases hslot
    | isset key' => cases hslot
  · exact absurd he hne

theorem Survit.aucunEchec (hs : Survit cmp map₁ run) (h : PeuRemplie hfunc cmp map₁ fun _ => none) (hk : CleOk hfunc cmp) :
    AucunEchec map₁ run := by
  have hrun : ∀ avant op rs map, avant ++ [op] <+: run → execAll appelleHash avant (some map₁) = .ok (rs, some map) →
      PeuRemplie hfunc cmp map (cartes cmp avant).2 → ¬EchoueAppel op map := by
    intro avant op rs map ha ho hmap he
    obtain ⟨map', ho', hne⟩ := hmap.echoue hk he
    obtain ⟨r, map'', ho'', ht⟩ := hs.2 avant op ha rs map ho
    rw [ho'] at ho''
    cases ho''
    exact hne ht
  intro avant op ha rs map ho
  obtain ⟨map', ho', hmap⟩ := h.run hk (fun avant op map ha ho => hrun avant op _ map ha ho)
    ((List.prefix_append avant [op]).trans ha)
  rw [ho'] at ho
  cases ho
  exact hrun avant op _ map ha ho' hmap

/-- The hash table survives exactly the runs in which no table that it asks for is refused. -/
theorem hash_survives (hk : CleOk hfunc cmp) (hinit : hashInit libre map₀ hfunc cmp = .ok (0, map₁)) (run : List (HashOp π × Bool)) :
    Survit cmp map₁ run ↔ AucunEchec map₁ run := by
  have h := hashInit_sain hinit
  refine ⟨fun hs => hs.aucunEchec h hk, fun hrun => ?_⟩
  have hpas : ∀ avant, avant <+: run → ∃ map, execAll appelleHash avant (some map₁) = .ok ((cartes cmp avant).1, some map) ∧
      PeuRemplie hfunc cmp map (cartes cmp avant).2 :=
    fun avant ha => h.run hk (fun avant op map ha ho _ => hrun avant op ha _ map ho) ha
  refine ⟨fun avant ha => ?_, fun avant op ha rs map ho => ?_⟩
  · obtain ⟨map, ho, k, hmap, hv⟩ := hpas avant ha
    have hplein := PeuRemplie.pasPlein hmap hv
    exact ⟨_, map, ho, fun key d => ⟨_, (hmap.lit hk (by omega) key).2 d⟩⟩
  · obtain ⟨map', ho', hmap⟩ := hpas avant ((List.prefix_append avant [op]).trans ha)
    rw [ho'] at ho
    cases ho
    rcases hmap.appel hk op with ⟨hec, -⟩ | ⟨-, map'', ho'', hmap'⟩
    · exact absurd hec (hrun avant op ha _ map ho')
    · exact ⟨_, map'', ho'', hmap.survit hk hmap'⟩

end Appels

/-- The functions of `hash_init_direct` are sound. -/
theorem hashDirect_cleOk [DecidableEq π] (adresse : π → Int) : CleOk (hashDirectHfunc adresse) (hashDirectCmp : π → π → Int) := by
  have he : ∀ a b : π, Egales hashDirectCmp a b ↔ a = b := by
    intro a b
    simp [Egales, hashDirectCmp]
  refine ⟨⟨fun a => (he a a).2 rfl, fun h => ?_, fun h h' => ?_⟩, fun a b h => ?_⟩
  · exact (he _ _).2 ((he _ _).1 h).symm
  · exact (he _ _).2 (((he _ _).1 h).trans ((he _ _).1 h'))
  · rw [(he a b).1 h]

/-- A table after `hash_init_direct`. -/
def tableDirecte : HashT Int := ⟨0, 0, 7, List.replicate 8 .vide, hashDirectHfunc id, hashDirectCmp⟩

theorem hashInit_tableDirecte : hashInit true tableDirecte (hashDirectHfunc id) hashDirectCmp = .ok (0, tableDirecte) := rfl

theorem hash_refines_map_two : ∃ map, execAll appelleHash (accordes [.set 3 7, .set 11 8]) (some tableDirecte) =
    .ok ((cartes hashDirectCmp (accordes [.set 3 7, .set 11 8])).1, some map) ∧ hashGet (some map) 11 0 = .ok 8 := by
  have hsize : ∀ avant, avant <+: [HashOp.set 3 7, .set 11 8] → ∀ rs map,
      execAll appelleHash (accordes avant) (some tableDirecte) = .ok (rs, some map) → map.mask + 1 < 2 ^ 26 := by
    intro avant ha rs map ho
    simp only [List.prefix_cons_iff, List.prefix_nil] at ha
    rcases ha with rfl | ⟨_, rfl, rfl | ⟨_, rfl, rfl⟩⟩
    · cases ho
      decide
    · cases ho
      decide
    · cases ho
      decide
  obtain ⟨map, ho, -, hlit, -⟩ := hash_refines_map (hashDirect_cleOk id) hashInit_tableDirecte hsize
  exact ⟨map, ho, (hlit 11).2 0⟩

/-- The call `hash_set(map, i, 10 * i)`. -/
def pose (libre : Bool) (i : Int) : HashOp Int × Bool := (.set i (10 * i), libre)

/-- The sixth key asks for a table of 16 slots: with it every call keeps its word, without it the last does not. -/
theorem hash_survives_six : Survit hashDirectCmp tableDirecte ([1, 2, 3, 4, 5, 6].map (pose true)) ∧
    ¬Survit hashDirectCmp tableDirecte ([1, 2, 3, 4, 5].map (pose true) ++ [pose false 6]) := by
  constructor
  · refine (hash_survives (hashDirect_cleOk id) hashInit_tableDirecte _).2 fun avant op ha rs map ho => ?_
    have hn := ha.length_le
    have hop := List.prefix_iff_eq_take.1 ha
    rw [List.length_append, List.length_singleton] at hn hop
    obtain ⟨n, hlt, rfl, rfl⟩ : ∃ n, ∃ hlt : n < 6, avant = ([1, 2, 3, 4, 5, 6].map (pose true)).take n ∧
        op = ([1, 2, 3, 4, 5, 6].map (pose true))[n] := by
      refine ⟨avant.length, hn, List.append_singleton_inj.1 ?_⟩
      rw [hop, List.take_append_getElem]
    rintro ⟨map₁, hslot, size, hsize, hnull⟩
    -- Only the sixth call asks for a table.
    interval_cases n <;> cases ho <;> cases hslot <;> cases hsize
    cases hnull
  · intro hs
    have hech := (hash_survives (hashDirect_cleOk id) hashInit_tableDirecte _).1 hs _ _ List.prefix_rfl _ _ rfl
    exact hech ⟨_, rfl, 16, rfl, rfl⟩

/-- Eight keys in eight slots. -/
def tablePleine : HashT Int :=
  ⟨8, 8, 7, [8, 1, 2, 3, 4, 5, 6, 7].map fun i => ⟨i, 10 * i, i, .slActive⟩, hashDirectHfunc id, hashDirectCmp⟩

/-- A sixth key in a table of 8 slots is in it although `hash_set` has returned -1. With the eighth key the last EMPTY slot goes,
and the lookup of another key goes on for ever. -/
theorem hash_survives_fails : (¬∀ run, Survit hashDirectCmp tableDirecte run) ∧
    ∃ rs, execAll appelleHash ([1, 2, 3, 4, 5, 6, 7, 8].map (pose false)) (some tableDirecte) = .ok (rs, some tablePleine) ∧
      ∀ n, lookupLoop tablePleine 9 9 n (toUint32 9 &&& 7) (toUint32 9) (toUint32 9 &&& 7) none = .error .diverge := by
  constructor
  · intro h
    have hech := (h ([1, 2, 3, 4, 5].map (pose true) ++ [pose false 6])).aucunEchec (hashInit_sain hashInit_tableDirecte)
      (hashDirect_cleOk id) _ _ List.prefix_rfl _ _ rfl
    exact hech ⟨_, rfl, 16, rfl, rfl⟩
  · refine ⟨_, rfl, hashLookup_plein (k := 3) rfl rfl fun s hs => ?_⟩
    obtain ⟨i, hi, rfl⟩ := List.mem_map.1 hs
    have hne : i ≠ 9 := by
      rintro rfl
      exact absurd hi (by decide)
    rintro (he | ⟨-, he | ⟨he, -⟩⟩)
    · cases he
    · exact hne he
    · exact hne he

end Pcsea
