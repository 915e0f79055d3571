import Pcsea.HashSpec
/-!
# Writing slots, and `hash_update`

One lemma for each way the code writes a slot. `hash_copy` puts the active
slots of a table into a new one, which then holds the same map.
-/

namespace Pcsea

open Lib

variable {π : Type} {i k n : Nat} {table : List (HashSlot π)} {s s' : HashSlot π} {hfunc : π → Int} {cmp : π → π → Int}
  {map map' : HashT π} {m m' : π → Option π} {key v value : π} {hash : Int}

/-! ## Slots -/

theorem countP_set_add {α : Type} {p : α → Bool} {l : List α} {a b : α} (ha : l[i]? = some a) :
    (l.set i b).countP p + (if p a then 1 else 0) = l.countP p + if p b then 1 else 0 := by
  obtain ⟨hi, rfl⟩ := List.getElem?_eq_some_iff.1 ha
  rw [List.countP_set hi]
  have hpos : p l[i] = true → 0 < l.countP p := fun hp => List.countP_pos_iff.2 ⟨_, List.getElem_mem hi, hp⟩
  split
  · next hp =>
    have := hpos hp
    omega
  · omega

theorem Hachage.taille (h : Hachage hfunc cmp k map m) : 8 ≤ 2 ^ k ∧ 2 ^ k ≤ 2 ^ 27 :=
  ⟨Nat.pow_le_pow_right (n := 2) (by decide) h.min, Nat.pow_le_pow_right (by decide) h.max⟩

theorem Hachage.nonVides_le (h : Hachage hfunc cmp k map m) : nonVides map.table ≤ 2 ^ k := by
  rw [← h.length]
  exact List.countP_le_length

/-- The counters can be incremented and decremented. -/
theorem Hachage.compteurs (h : Hachage hfunc cmp k map m) : 0 ≤ map.count ∧ map.count ≤ map.fill ∧ map.fill ≤ 2 ^ 27 := by
  have hle := actifs_le map.table
  have hn := h.nonVides_le
  have ht := h.taille
  rw [h.fill, h.count]
  omega

/-- A slot is written. -/
theorem Hachage.ecrit (h : Hachage hfunc cmp k map m) (fill count : Int) (hs : map.table[i]? = some s)
    (hfill : fill + (if s.mode ≠ .slEmpty then 1 else 0) = map.fill + if s'.mode ≠ .slEmpty then 1 else 0)
    (hcount : count + (if s.mode = .slActive then 1 else 0) = map.count + if s'.mode = .slActive then 1 else 0)
    (hhash : s'.mode = .slActive → s'.hash = hfunc s'.key)
    (hcarte : Holds (Egales cmp) (sondeDe hfunc map.mask) (Function.update (vue map.table) i s'.cell) m') :
    Hachage hfunc cmp k { map with fill := fill, count := count, table := map.table.set i s' } m' where
  hfunc_eq := h.hfunc_eq
  cmp_eq := h.cmp_eq
  min := h.min
  max := h.max
  mask := h.mask
  length := by simpa using h.length
  fill := by
    have hset := countP_set_add (p := fun s : HashSlot π => decide (s.mode ≠ .slEmpty)) (b := s') hs
    simp only [decide_eq_true_eq] at hset
    zify at hset
    have hf := h.fill
    rw [nonVides] at hf ⊢
    linarith
  count := by
    have hset := countP_set_add (p := fun s : HashSlot π => decide (s.mode = .slActive)) (b := s') hs
    simp only [decide_eq_true_eq] at hset
    zify at hset
    have hc := h.count
    rw [actifs] at hc ⊢
    linarith
  hash := by
    intro t ht hta
    rcases List.mem_or_eq_of_mem_set ht with ht | rfl
    · exact h.hash t ht hta
    · exact hhash hta
  carte := by
    rw [vue_set (List.getElem?_eq_some_iff.1 hs).1]
    exact hcarte

/-- A key that no slot has is put in a free slot that its probe reaches. -/
theorem Hachage.insere (h : Hachage hfunc cmp k map m) (hk : CleOk hfunc cmp) (hs : map.table[i]? = some s) (hm : s.mode ≠ .slActive)
    (ha : Absent (Egales cmp) (vue map.table) key) (hr : Reached (sondeDe hfunc map.mask) (vue map.table) key i)
    (hhash : hash = hfunc key) (v : π) :
    Hachage hfunc cmp k
      { map with
        fill := map.fill + (if s.mode = .slEmpty then 1 else 0)
        count := map.count + 1
        table := map.table.set i ⟨key, v, hash, .slActive⟩ }
      (assign (Egales cmp) m key (some v)) := by
  refine h.ecrit _ _ hs ?_ (by simp [hm]) (fun _ => hhash) ?_
  · by_cases he : s.mode = .slEmpty <;> simp [he]
  · refine h.carte.insert (hk.keyEq _) ha (fun k' v' hv => hm ?_) hr v
    rw [vue_of_get hs, HashSlot.cell_active] at hv
    exact hv.1

/-- The value in the slot of a key is changed. -/
theorem Hachage.modifie (h : Hachage hfunc cmp k map m) (hk : CleOk hfunc cmp) (hs : map.table[i]? = some s) (hm : s.mode = .slActive)
    (he : Egales cmp s.key key) (v : π) :
    Hachage hfunc cmp k { map with table := map.table.set i { s with value := v } } (assign (Egales cmp) m key (some v)) := by
  refine h.ecrit map.fill map.count hs rfl rfl (h.hash s (List.mem_of_getElem? hs)) ?_
  have hcell : HashSlot.cell { s with value := v } = .active s.key v := HashSlot.cell_active.2 ⟨hm, rfl, rfl⟩
  rw [hcell]
  exact h.carte.modify (hk.keyEq _) (by rw [vue_of_get hs, HashSlot.cell_active.2 ⟨hm, rfl, rfl⟩]) he v

/-- The slot of a key is marked DELETED. -/
theorem Hachage.supprime [Zero π] (h : Hachage hfunc cmp k map m) (hk : CleOk hfunc cmp) (hs : map.table[i]? = some s)
    (hm : s.mode = .slActive) (he : Egales cmp s.key key) :
    Hachage hfunc cmp k { map with count := map.count + -1, table := map.table.set i ⟨0, 0, 0, .slDeleted⟩ }
      (assign (Egales cmp) m key none) := by
  refine h.ecrit map.fill _ hs (by simp [hm]) (by simp [hm]) (by simp) ?_
  exact h.carte.erase (hk.keyEq _) (by rw [vue_of_get hs, HashSlot.cell_active.2 ⟨hm, rfl, rfl⟩]) he

/-! ## The new size -/

theorem Hachage.size (h : Hachage hfunc cmp k map m) : map.size = (2 ^ k : Nat) := by
  have := h.taille
  rw [HashT.size, h.mask, succUint32, toInt32, Nat.sub_add_cancel (by omega), Nat.mod_eq_of_lt (by omega), if_pos (by omega)]

theorem mulInt_ok {a b : Int} (h₁ : 0 ≤ a * b) (h₂ : a * b < 2 ^ 31) : mulInt a b = .ok (a * b) :=
  if_pos ⟨by omega, h₂⟩

/-- A table that is two thirds full grows, and one with a quarter of active slots shrinks. -/
theorem Hachage.hashTaille (h : Hachage hfunc cmp k map m) :
    hashTaille map = .ok (
      if 2 * 2 ^ k ≤ 3 * nonVides map.table then .alloue (2 ^ (k + 1) : Nat)
      else if 3 < k ∧ 4 * actifs map.table ≤ 2 ^ k then .alloue (2 ^ (k - 1) : Nat)
      else .rend 0) := by
  have hn := h.nonVides_le
  have hle := actifs_le map.table
  have ht := h.taille
  have hbig : 8 < 2 ^ k ↔ 3 < k := Nat.pow_lt_pow_iff_right (a := 2) (n := 3) (by decide)
  rw [Pcsea.hashTaille, h.size, h.fill, h.count, mulInt_ok (by omega) (by omega), ok_bind, mulInt_ok (by omega) (by omega), ok_bind,
    mulInt_ok (by omega) (by omega), mulInt_ok (by omega) (by omega)]
  by_cases hgrow : 2 * 2 ^ k ≤ 3 * nonVides map.table
  · rw [if_pos (by omega), if_pos hgrow, ok_bind, if_neg (by omega), pow_succ]
    push_cast
    rfl
  · rw [if_neg (by omega), if_neg hgrow, HASH_MINSIZE]
    by_cases h3 : 3 < k
    · have h8 := hbig.2 h3
      rw [if_pos (by omega), ok_bind]
      by_cases h4 : 4 * actifs map.table ≤ 2 ^ k
      · have hhalf : 2 ^ k = 2 * 2 ^ (k - 1) := by
          rw [mul_comm, ← pow_succ, Nat.sub_add_cancel (by omega)]
        rw [if_pos (by omega), if_pos ⟨h3, h4⟩]
        congr 2
        omega
      · rw [if_neg (by omega), if_neg fun hc => h4 hc.2]
    · have h8 := mt hbig.1 h3
      rw [if_neg (by omega), if_neg fun hc => h3 hc.1]

/-! ## A new table -/

section Vide
variable [Zero π]

/-- `map` with a table of `n` EMPTY slots. -/
def HashT.neuve (map : HashT π) (n : Nat) : HashT π :=
  { map with fill := 0, count := 0, mask := n - 1, table := List.replicate n .vide }

theorem neuve_etat (map : HashT π) (h₁ : 3 ≤ k) (h₂ : k ≤ 27) :
    Hachage map.hfunc map.cmp k (map.neuve (2 ^ k)) fun _ => none where
  hfunc_eq := rfl
  cmp_eq := rfl
  min := h₁
  max := h₂
  mask := rfl
  length := List.length_replicate
  fill := by simp [HashT.neuve, nonVides, HashSlot.vide, List.countP_replicate]
  count := by simp [HashT.neuve, actifs, HashSlot.vide, List.countP_replicate]
  hash := by
    intro s hs ha
    rw [List.eq_of_mem_replicate hs] at ha
    cases ha
  carte := by
    refine Holds.blank fun i => ?_
    rw [vue]
    cases hi : (map.neuve (2 ^ k)).table[i]? with
    | none => rfl
    | some s =>
      rw [List.eq_of_mem_replicate (List.mem_of_getElem? hi)]
      rfl

/-- Below 2^28 slots a block is one slot for each 16 bytes. -/
theorem memAllocSlots_eq (libre : Bool) (h₁ : 8 ≤ n) (h₂ : n ≤ 2 ^ 27) :
    memAllocSlots libre (toUint32 (n * 16)) = if libre then some (List.replicate n (.vide : HashSlot π)) else none := by
  have hlen : toUint32 (n * 16) = 16 * n := by
    rw [toUint32]
    omega
  rw [hlen, memAllocSlots, if_neg (by omega), if_neg (by omega), Nat.mul_div_cancel_left n (by decide)]

/-- The length for 2^28 slots is 0 on 32 bits. -/
theorem memAllocSlots_trop (libre : Bool) : memAllocSlots libre (toUint32 (2 ^ 28 * 16)) = (none : Option (List (HashSlot π))) := by
  rfl

/-- `hash_update` asks `mem_alloc` for a table, and gets NULL. -/
def Echoue (libre : Bool) (map : HashT π) : Prop :=
  ∃ size, hashTaille map = .ok (.alloue size) ∧ memAllocSlots libre (toUint32 (size * 16)) = (none : Option (List (HashSlot π)))

/-- The allocator can give every table below 2^28 slots. -/
theorem Hachage.not_echoue (h : Hachage hfunc cmp k map m) (hk : k < 27) : ¬Echoue true map := by
  rintro ⟨size, hsize, hnull⟩
  rw [h.hashTaille] at hsize
  have h₁ := h.min
  obtain ⟨k', hk₁, hk₂, rfl⟩ : ∃ k', 3 ≤ k' ∧ k' ≤ 27 ∧ size = (2 ^ k' : Nat) := by
    split at hsize
    · cases hsize
      exact ⟨k + 1, by omega, by omega, rfl⟩
    · split at hsize
      · cases hsize
        exact ⟨k - 1, by omega, by omega, rfl⟩
      · cases hsize
  rw [memAllocSlots_eq true (Nat.pow_le_pow_right (n := 2) (by decide) hk₁) (Nat.pow_le_pow_right (by decide) hk₂)] at hnull
  cases hnull

theorem hashInitialize_boucle (l : List Nat) (hl : ∀ i ∈ l, i < n) :
    l.foldlM (fun table i => ecritSlot table i .vide) (List.replicate n (.vide : HashSlot π)) =
      .ok (List.replicate n .vide) := by
  induction l with
  | nil => rfl
  | cons i l ih =>
    have hi : ecritSlot (List.replicate n .vide) i (.vide : HashSlot π) = .ok (List.replicate n .vide) := by
      rw [ecritSlot, if_pos (by simpa using hl i (by simp)), List.set_replicate_self]
    rw [List.foldlM_cons, hi, ok_bind]
    exact ih fun j hj => hl j (List.mem_cons_of_mem _ hj)

theorem hashInitialize_eq (libre : Bool) (map : HashT π) (h₁ : 8 ≤ n) (h₂ : n ≤ 2 ^ 27) :
    hashInitialize libre map n = .ok (if libre then (0, map.neuve n) else (-1, map)) := by
  have hmask : toUint32 ((n : Int) - 1) = n - 1 := by
    rw [toUint32]
    omega
  rw [hashInitialize, memAllocSlots_eq libre h₁ h₂]
  cases libre with
  | false => rfl
  | true =>
    rw [if_pos rfl, if_pos rfl]
    dsimp only
    rw [hashInitialize_boucle _ fun i hi => by simpa using hi, ok_bind, hmask]
    rfl

end Vide

/-! ## Copying -/

theorem actifs_cons (s : HashSlot π) (l : List (HashSlot π)) :
    actifs (s :: l) = if s.mode = .slActive then actifs l + 1 else actifs l := by
  rw [actifs, List.countP_cons, actifs]
  split <;> simp_all

theorem foldlM_litSlot {σ : Type} (f : σ → HashSlot π → Except Fault σ) (p l : List (HashSlot π)) (a : σ) :
    (List.range' p.length l.length).foldlM (fun a i => do f a (← litSlot (p ++ l) i)) a = l.foldlM f a := by
  induction l generalizing p a with
  | nil => rfl
  | cons s l ih =>
    have hs : litSlot (p ++ s :: l) p.length = .ok s := litSlot_of_get (by simp)
    rw [List.length_cons, List.range'_succ, List.foldlM_cons, List.foldlM_cons, hs, ok_bind]
    cases hf : f a s with
    | error e => rfl
    | ok a' =>
      rw [ok_bind, ok_bind]
      have := ih (p ++ [s]) a'
      rwa [List.append_assoc, List.singleton_append, List.length_append, List.length_singleton] at this

section Copie
variable [DecidableEq π]

/-- No slot is DELETED. -/
def SansSupprime (table : List (HashSlot π)) : Prop := ∀ s ∈ table, s.mode ≠ .slDeleted

/-- A slot is copied to an EMPTY slot. -/
theorem Hachage.copie (h : Hachage hfunc cmp k map m) (hk : CleOk hfunc cmp) (hdel : SansSupprime map.table)
    (hv : nonVides map.table < 2 ^ k) (hm : s.mode = .slActive) (hh : s.hash = hfunc s.key) (ha : m s.key = none) :
    ∃ map', hashCopySlot map s = .ok map' ∧ Hachage hfunc cmp k map' (assign (Egales cmp) m s.key (some s.value)) ∧
      SansSupprime map'.table ∧ nonVides map'.table = nonVides map.table + 1 := by
  obtain ⟨i, t, hi, ht, htrouve⟩ := h.lookup hk (hv.trans_eq h.length.symm) s.key
  obtain ⟨hta, hpres⟩ | ⟨hta, habs, hreach⟩ := htrouve
  · have hsome : m t.key ≠ none := fun hn =>
      h.carte.absent_iff.2 hn i t.key t.value (vue_active.2 ⟨t, ht, hta, rfl, rfl⟩) (hk.equiv.refl _)
    exact absurd ((h.carte.congr (hk.keyEq _) hpres).trans ha) hsome
  -- The new table has no deleted slot, so the one that was found is empty.
  have hvide : t.mode = .slEmpty := by
    have := hdel t (List.mem_of_getElem? ht)
    cases hmode : t.mode with
    | slEmpty => rfl
    | slActive => exact absurd hmode hta
    | slDeleted => exact absurd hmode this
  have hins := h.insere hk ht hta habs hreach hh s.value
  rw [if_pos hvide] at hins
  obtain ⟨hc, hcf, hf⟩ := h.compteurs
  refine ⟨_, ?_, hins, ?_, ?_⟩
  · rw [hashCopySlot, if_neg (by simp [hm]), h.hfunc_eq, hi, ok_bind, ecritSlot, if_pos (List.getElem?_eq_some_iff.1 ht).1, ok_bind,
      addInt_ok (by omega) (by omega), ok_bind, addInt_ok (by omega) (by omega), ok_bind]
  · intro u hu
    rcases List.mem_or_eq_of_mem_set hu with hu | rfl
    · exact hdel u hu
    · simp
  · have hfill := hins.fill
    rw [h.fill] at hfill
    dsimp only at hfill ⊢
    omega

/-- The active slots of a list, of different keys, are copied. -/
theorem Hachage.copies (h : Hachage hfunc cmp k map m) (hk : CleOk hfunc cmp) (hdel : SansSupprime map.table) {l : List (HashSlot π)}
    (hroom : nonVides map.table + actifs l ≤ 2 ^ k) (hh : ∀ s ∈ l, s.mode = .slActive → s.hash = hfunc s.key)
    (hdiff : l.Pairwise fun s t => s.mode = .slActive → t.mode = .slActive → ¬Egales cmp s.key t.key)
    (ha : ∀ s ∈ l, s.mode = .slActive → m s.key = none) :
    ∃ map' m', l.foldlM hashCopySlot map = .ok map' ∧ Hachage hfunc cmp k map' m' ∧
      nonVides map'.table = nonVides map.table + actifs l ∧
      ∀ key v, m' key = some v ↔ m key = some v ∨ ∃ s ∈ l, s.mode = .slActive ∧ Egales cmp s.key key ∧ s.value = v := by
  induction l generalizing map m with
  | nil => exact ⟨map, m, rfl, h, rfl, by simp⟩
  | cons s l ih =>
    obtain ⟨hs, hl⟩ := List.pairwise_cons.1 hdiff
    have hh' : ∀ t ∈ l, t.mode = .slActive → t.hash = hfunc t.key := fun t ht => hh t (List.mem_cons_of_mem _ ht)
    rw [actifs_cons] at hroom ⊢
    by_cases hm : s.mode = .slActive
    · rw [if_pos hm] at hroom ⊢
      obtain ⟨map₁, ho, h₁, hdel₁, hn₁⟩ := h.copie hk hdel (by omega) hm (hh s (by simp) hm) (ha s (by simp) hm)
      have ha₁ : ∀ t ∈ l, t.mode = .slActive → assign (Egales cmp) m s.key (some s.value) t.key = none := by
        intro t ht hta
        rw [assign, if_neg (hs t ht hm hta)]
        exact ha t (List.mem_cons_of_mem _ ht) hta
      obtain ⟨map', m', hfold, h', hn', hval⟩ := ih h₁ hdel₁ (by omega) hh' hl ha₁
      refine ⟨map', m', by rw [List.foldlM_cons, ho, ok_bind, hfold], h', by omega, fun key v => ?_⟩
      rw [hval, assign]
      by_cases he : Egales cmp s.key key
      · -- the old map has no value for the key of `s`
        have hno : m key = none := (h.carte.congr (hk.keyEq _) he).symm.trans (ha s (by simp) hm)
        simp [he, hno, hm]
      · simp [he]
    · rw [if_neg hm] at hroom ⊢
      obtain ⟨map', m', hfold, h', hn', hval⟩ :=
        ih h hdel hroom hh' hl fun t ht => ha t (List.mem_cons_of_mem _ ht)
      refine ⟨map', m', ?_, h', hn', fun key v => ?_⟩
      · rw [List.foldlM_cons, hashCopySlot, if_pos hm, ok_bind, hfold]
      · rw [hval]
        simp [hm]

theorem hashCopy_eq (map : HashT π) (table : List (HashSlot π)) : hashCopy map table table.length = table.foldlM hashCopySlot map := by
  rw [hashCopy, Int.toNat_natCast, List.range_eq_range']
  exact foldlM_litSlot hashCopySlot [] table map

/-! ## Resizing -/

variable [Zero π]

/-- A table of another size with the same map. -/
theorem Hachage.recopie (h : Hachage hfunc cmp k map m) (hk : CleOk hfunc cmp) {k' : Nat} (h₁ : 3 ≤ k') (h₂ : k' ≤ 27)
    (hroom : actifs map.table ≤ 2 ^ k') :
    ∃ map', hashCopy (map.neuve (2 ^ k')) map.table (2 ^ k : Nat) = .ok map' ∧ Hachage hfunc cmp k' map' m ∧
      nonVides map'.table = actifs map.table := by
  have hneuve : Hachage hfunc cmp k' (map.neuve (2 ^ k')) fun _ => none := by
    have := neuve_etat map h₁ h₂
    rwa [h.hfunc_eq, h.cmp_eq] at this
  have hzero : nonVides (map.neuve (2 ^ k')).table = 0 := by
    simp [HashT.neuve, nonVides, HashSlot.vide, List.countP_replicate]
  have hdel : SansSupprime (map.neuve (2 ^ k')).table := by
    intro s hs
    rw [List.eq_of_mem_replicate hs]
    simp [HashSlot.vide]
  -- Two active slots never have the same key, so every copy finds a new one.
  have hdiff : map.table.Pairwise fun s t => s.mode = .slActive → t.mode = .slActive → ¬Egales cmp s.key t.key := by
    refine List.pairwise_iff_getElem.2 fun i j hi hj hij hs ht he => Nat.ne_of_lt hij ?_
    exact h.carte.unique i j _ _ _ _ (vue_active.2 ⟨_, List.getElem?_eq_getElem hi, hs, rfl, rfl⟩)
      (vue_active.2 ⟨_, List.getElem?_eq_getElem hj, ht, rfl, rfl⟩) he
  obtain ⟨map', m', hfold, h', hn, hval⟩ := hneuve.copies hk hdel (l := map.table) (by omega) h.hash hdiff fun _ _ _ => rfl
  obtain rfl : m' = m := by
    funext key
    refine Option.ext fun v => ?_
    rw [hval, h.carte.value key v]
    constructor
    · rintro (hno | ⟨s, hs, ha, he, hv⟩)
      · cases hno
      · obtain ⟨i, hi⟩ := List.getElem?_of_mem hs
        exact ⟨i, s.key, vue_active.2 ⟨s, hi, ha, rfl, hv⟩, he⟩
    · rintro ⟨i, a, hi, he⟩
      obtain ⟨s, hs, ha, rfl, hv⟩ := vue_active.1 hi
      exact .inr ⟨s, List.mem_of_getElem? hs, ha, he, hv⟩
  refine ⟨map', ?_, h', by omega⟩
  rw [← h.length, hashCopy_eq, hfold]

/-- A new size that can be allocated. -/
theorem Hachage.realloue (h : Hachage hfunc cmp k map m) (hk : CleOk hfunc cmp) {k' : Nat} {libre : Bool} (h₁ : 3 ≤ k')
    (h₂ : k' ≤ 27) (htaille : Pcsea.hashTaille map = .ok (.alloue (2 ^ k' : Nat))) (hroom : 3 * actifs map.table < 2 * 2 ^ k')
    (hle : actifs map.table ≤ 2 ^ k') :
    Echoue libre map ∧ hashUpdate libre map = .ok (-1, map) ∨
      ¬Echoue libre map ∧ ∃ k' map', hashUpdate libre map = .ok (0, map') ∧ Hachage hfunc cmp k' map' m ∧
        3 * nonVides map'.table < 2 * 2 ^ k' := by
  have hn₁ : 8 ≤ 2 ^ k' := Nat.pow_le_pow_right (n := 2) (by decide) h₁
  have hn₂ : 2 ^ k' ≤ 2 ^ 27 := Nat.pow_le_pow_right (by decide) h₂
  have hinit := hashInitialize_eq libre map hn₁ hn₂
  have halloc := memAllocSlots_eq (π := π) libre hn₁ hn₂
  -- Without memory the table is left as it was.
  cases libre with
  | false =>
    refine .inl ⟨⟨_, htaille, halloc⟩, ?_⟩
    rw [hashUpdate, htaille, ok_bind]
    dsimp only
    rw [hinit]
    rfl
  | true =>
    obtain ⟨map', hcopy, h', hn'⟩ := h.recopie hk h₁ h₂ hle
    refine .inr ⟨?_, k', map', ?_, h', by omega⟩
    · rintro ⟨size, hsize, hnull⟩
      rw [htaille] at hsize
      cases hsize
      rw [halloc] at hnull
      cases hnull
    · rw [hashUpdate, htaille, ok_bind]
      dsimp only
      rw [hinit, h.size, if_pos rfl, ok_bind]
      dsimp only
      rw [if_neg (by decide), hcopy]
      rfl

/-- Without a table of the new size `hash_update` returns -1 and changes nothing; else it keeps the map, and less than two thirds of
the slots are not EMPTY. -/
theorem Hachage.update (h : Hachage hfunc cmp k map m) (hk : CleOk hfunc cmp) (libre : Bool) :
    Echoue libre map ∧ hashUpdate libre map = .ok (-1, map) ∨
      ¬Echoue libre map ∧ ∃ k' map', hashUpdate libre map = .ok (0, map') ∧ Hachage hfunc cmp k' map' m ∧
        3 * nonVides map'.table < 2 * 2 ^ k' := by
  have hle := actifs_le map.table
  have hn := h.nonVides_le
  have h₁ := h.min
  have h₂ := h.max
  have ht := h.taille
  have htaille := h.hashTaille
  split at htaille
  · have hroom : actifs map.table ≤ 2 ^ k := hle.trans hn
    by_cases hmax : k = 27
    · -- 2^28 slots of 16 bytes are 2^32 bytes
      subst hmax
      refine .inl ⟨⟨_, htaille, memAllocSlots_trop libre⟩, ?_⟩
      rw [hashUpdate, htaille, ok_bind]
      dsimp only
      rw [hashInitialize, show ((2 ^ (27 + 1) : Nat) : Int) = 2 ^ 28 by norm_num, memAllocSlots_trop]
      rfl
    · have hpow : 2 ^ (k + 1) = 2 * 2 ^ k := by
        rw [pow_succ, mul_comm]
      exact h.realloue hk (by omega) (by omega) htaille (by omega) (by omega)
  split at htaille
  · next hshrink =>
    have hpow : 2 ^ k = 2 * 2 ^ (k - 1) := by
      rw [mul_comm, ← pow_succ, Nat.sub_add_cancel (by omega)]
    exact h.realloue hk (by omega) (by omega) htaille (by omega) (by omega)
  · next hgrow _ =>
    refine .inr ⟨?_, k, map, ?_, h, by omega⟩
    · rintro ⟨size, hsize, -⟩
      rw [htaille] at hsize
      cases hsize
    · rw [hashUpdate, htaille]
      rfl

end Copie

end Pcsea
