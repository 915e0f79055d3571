import Mathlib.Data.List.Sort
import Mathlib.Data.List.Induction
import Pcsea.Lib.Refines
/-!
# Stable priority queues

The queue is the list of its elements in the order of arrival. It gives out
`eldest`, the first of those with the greatest key. `byKey` lists the elements
by rising key, the newest in front of its equals: its last element is the
eldest, and adding or removing an element leaves the others in place.
`insertBehind` puts the newest behind its equals.
-/

namespace Lib

universe u v
variable {α : Type u} {β : Type v} [LinearOrder β] {key key' : α → β} {l l' q : List α} {t x y : α}

/-- The first element of the greatest key. -/
def eldest (key : α → β) (l : List α) : Option α :=
  l.foldl (fun t x => match t with | none => some x | some t => if key t < key x then some x else some t) none

theorem eldest_concat : eldest key (l ++ [x]) =
    match eldest key l with | none => some x | some t => if key t < key x then some x else some t := by
  rw [eldest, List.foldl_append]
  rfl

theorem eldest_eq_none : eldest key l = none ↔ l = [] := by
  induction l using List.reverseRecOn with
  | nil => simp [eldest]
  | append_singleton l x ih =>
    rw [eldest_concat]
    cases eldest key l with
    | none => simp
    | some t =>
      dsimp only
      split <;> simp

/-- All that arrived before it have a smaller key, and none has a greater one. -/
theorem eldest_spec (h : eldest key l = some t) :
    ∃ l₁ l₂, l = l₁ ++ t :: l₂ ∧ (∀ y ∈ l₁, key y < key t) ∧ ∀ y ∈ l₂, key y ≤ key t := by
  -- From the back, as the queue is scanned.
  induction l using List.reverseRecOn generalizing t with
  | nil => cases h
  | append_singleton l x ih =>
    rw [eldest_concat] at h
    cases hl : eldest key l with
    | none =>
      rw [hl] at h
      cases h
      rw [eldest_eq_none.1 hl]
      exact ⟨[], [], rfl, by simp, by simp⟩
    | some b =>
      rw [hl] at h
      obtain ⟨l₁, l₂, rfl, h₁, h₂⟩ := ih hl
      dsimp only at h
      split at h
      · next hlt =>
        cases h
        refine ⟨l₁ ++ b :: l₂, [], rfl, fun y hy => ?_, by simp⟩
        rcases List.mem_append.1 hy with hy | hy
        · exact (h₁ y hy).trans hlt
        · rcases List.mem_cons.1 hy with rfl | hy
          · exact hlt
          · exact (h₂ y hy).trans_lt hlt
      · next hge =>
        cases h
        refine ⟨l₁, l₂ ++ [x], by simp, h₁, fun y hy => ?_⟩
        rcases List.mem_append.1 hy with hy | hy
        · exact h₂ y hy
        · rw [List.mem_singleton.1 hy]
          exact not_lt.1 hge

theorem eldest_mem (h : eldest key l = some t) : t ∈ l := by
  obtain ⟨l₁, l₂, rfl, -⟩ := eldest_spec h
  simp

theorem eldest_le (h : eldest key l = some t) (hy : y ∈ l) : key y ≤ key t := by
  obtain ⟨l₁, l₂, rfl, h₁, h₂⟩ := eldest_spec h
  rcases List.mem_append.1 hy with hy | hy
  · exact (h₁ y hy).le
  · rcases List.mem_cons.1 hy with rfl | hy
    · exact le_rfl
    · exact h₂ y hy

/-! ## The elements by rising key -/

/-- `x` in front of the first element whose key is not smaller. -/
def insertByKey (key : α → β) (x : α) (q : List α) : List α := q.orderedInsert (fun a b => key a ≤ key b) x

/-- The elements that arrived in the order `l`. -/
def byKey (key : α → β) (l : List α) : List α := l.foldl (fun q x => insertByKey key x q) []

theorem byKey_concat : byKey key (l ++ [x]) = insertByKey key x (byKey key l) := by
  rw [byKey, List.foldl_append]
  rfl

theorem insertByKey_perm : (insertByKey key x q).Perm (x :: q) := List.perm_orderedInsert ..

theorem insertByKey_sorted (h : q.Pairwise fun a b => key a ≤ key b) : (insertByKey key x q).Pairwise fun a b => key a ≤ key b := by
  have : Std.Total fun a b : α => key a ≤ key b := ⟨fun a b => le_total _ _⟩
  have : IsTrans α fun a b => key a ≤ key b := ⟨fun a b c => le_trans⟩
  exact h.orderedInsert x

theorem byKey_perm : (byKey key l).Perm l := by
  induction l using List.reverseRecOn with
  | nil => exact .refl _
  | append_singleton l x ih =>
    rw [byKey_concat]
    exact insertByKey_perm.trans ((ih.cons x).trans (List.perm_append_singleton x l).symm)

theorem mem_byKey : x ∈ byKey key l ↔ x ∈ l := byKey_perm.mem_iff

theorem byKey_sorted : (byKey key l).Pairwise fun a b => key a ≤ key b := by
  induction l using List.reverseRecOn with
  | nil => exact .nil
  | append_singleton l x ih =>
    rw [byKey_concat]
    exact insertByKey_sorted ih

theorem insertByKey_congr (h : ∀ y ∈ x :: q, key' y = key y) : insertByKey key' x q = insertByKey key x q := by
  induction q with
  | nil => rfl
  | cons z q ih =>
    have hz := h z (by simp)
    have hx := h x (by simp)
    have ihq := ih fun y hy => h y (by rcases List.mem_cons.1 hy with rfl | hy <;> simp_all)
    unfold insertByKey at ihq ⊢
    rw [List.orderedInsert_cons, List.orderedInsert_cons, hz, hx, ihq]

/-- Only the keys of the elements count. -/
theorem byKey_congr (h : ∀ y ∈ l, key' y = key y) : byKey key' l = byKey key l := by
  induction l using List.reverseRecOn with
  | nil => rfl
  | append_singleton l x ih =>
    have ihl := ih fun y hy => h y (by simp [hy])
    rw [byKey_concat, byKey_concat, ihl]
    refine insertByKey_congr fun y hy => h y ?_
    rcases List.mem_cons.1 hy with rfl | hy
    · simp
    · simp [mem_byKey.1 hy]

/-- Every list by rising key comes from an order of arrival. -/
theorem byKey_reverse (h : q.Pairwise fun a b => key a ≤ key b) : byKey key q.reverse = q := by
  induction q with
  | nil => rfl
  | cons x q ih =>
    obtain ⟨hx, hq⟩ := List.pairwise_cons.1 h
    rw [List.reverse_cons, byKey_concat, ih hq]
    cases q with
    | nil => rfl
    | cons y q => exact List.orderedInsert_cons_of_le _ q (hx y (by simp))

/-! ## The last element -/

theorem insertByKey_of_lt (h : ∀ y ∈ q, key y < key x) : insertByKey key x q = q ++ [x] := by
  induction q with
  | nil => rfl
  | cons y q ih =>
    have hy := h y (by simp)
    have ihq := ih fun z hz => h z (by simp [hz])
    unfold insertByKey at ihq ⊢
    rw [List.orderedInsert_cons, if_neg (not_le.2 hy), ihq, List.cons_append]

theorem insertByKey_append (h : key x ≤ key t) : insertByKey key x (q ++ [t]) = insertByKey key x q ++ [t] := by
  induction q with
  | nil => exact List.orderedInsert_cons_of_le _ [] h
  | cons y q ih =>
    unfold insertByKey at ih ⊢
    rw [List.cons_append, List.orderedInsert_cons, List.orderedInsert_cons]
    split
    · rfl
    · rw [ih, List.cons_append]

theorem byKey_getLast? : (byKey key l).getLast? = eldest key l := by
  induction l using List.reverseRecOn with
  | nil => rfl
  | append_singleton l x ih =>
    rw [byKey_concat, eldest_concat, ← ih]
    rcases List.eq_nil_or_concat (byKey key l) with hq | ⟨q, t, hq⟩
    · rw [hq]
      rfl
    · have hs : (byKey key l).Pairwise fun a b => key a ≤ key b := byKey_sorted
      rw [hq, List.concat_eq_append] at hs ⊢
      rw [List.getLast?_concat]
      dsimp only
      split
      · next hlt =>
        have hall : ∀ y ∈ q ++ [t], key y < key x := by
          intro y hy
          rcases List.mem_append.1 hy with hy | hy
          · exact ((List.pairwise_append.1 hs).2.2 y hy t (by simp)).trans_lt hlt
          · rwa [List.mem_singleton.1 hy]
        rw [insertByKey_of_lt hall, List.getLast?_concat]
      · next hge => rw [insertByKey_append (not_lt.1 hge), List.getLast?_concat]

/-! ## Behind the equals -/

/-- `x` in front of the first element whose key is greater: it is the last of its equals. -/
def insertBehind (key : α → β) (x : α) (q : List α) : List α := q.orderedInsert (fun a b => key a < key b) x

/-- The place of the new element. -/
theorem insertBehind_split (h : q.Pairwise fun a b => key a ≤ key b) :
    ∃ q₁ q₂, q = q₁ ++ q₂ ∧ insertBehind key x q = q₁ ++ x :: q₂ ∧ (∀ y ∈ q₁, key y ≤ key x) ∧ ∀ y ∈ q₂, key x < key y := by
  induction q with
  | nil => exact ⟨[], [], rfl, rfl, by simp, by simp⟩
  | cons z q ih =>
    obtain ⟨hz, hq⟩ := List.pairwise_cons.1 h
    unfold insertBehind at ih ⊢
    rw [List.orderedInsert_cons]
    split
    · next hlt =>
      refine ⟨[], z :: q, rfl, rfl, by simp, fun y hy => ?_⟩
      rcases List.mem_cons.1 hy with rfl | hy
      · exact hlt
      · exact hlt.trans_le (hz y hy)
    · next hge =>
      obtain ⟨q₁, q₂, hsplit, hins, h₁, h₂⟩ := ih hq
      refine ⟨z :: q₁, q₂, by rw [hsplit]; rfl, by rw [hins]; rfl, fun y hy => ?_, h₂⟩
      rcases List.mem_cons.1 hy with rfl | hy
      · exact not_lt.1 hge
      · exact h₁ y hy

theorem insertBehind_perm : (insertBehind key x q).Perm (x :: q) := List.perm_orderedInsert ..

theorem insertBehind_sorted (h : q.Pairwise fun a b => key a ≤ key b) :
    (insertBehind key x q).Pairwise fun a b => key a ≤ key b := by
  obtain ⟨q₁, q₂, rfl, hins, h₁, h₂⟩ := insertBehind_split (x := x) h
  obtain ⟨hq₁, hq₂, h₁₂⟩ := List.pairwise_append.1 h
  rw [hins]
  refine List.pairwise_append.2 ⟨hq₁, List.pairwise_cons.2 ⟨fun y hy => (h₂ y hy).le, hq₂⟩, fun y hy z hz => ?_⟩
  rcases List.mem_cons.1 hz with rfl | hz
  · exact h₁ y hy
  · exact h₁₂ y hy z hz

/-- The place depends on the keys only. -/
theorem insertBehind_map {γ : Type*} {f : α → γ} {k : γ → β} (h : ∀ y ∈ x :: q, k (f y) = key y) :
    insertBehind k (f x) (q.map f) = (insertBehind key x q).map f := by
  induction q with
  | nil => rfl
  | cons z q ih =>
    have hx := h x (by simp)
    have hz := h z (by simp)
    have ihq := ih fun y hy => h y (by rcases List.mem_cons.1 hy with rfl | hy <;> simp_all)
    unfold insertBehind at ihq ⊢
    rw [List.map_cons, List.orderedInsert_cons, List.orderedInsert_cons, hx, hz, ihq]
    split <;> rfl

/-! ## Removal -/

section Erase
variable [DecidableEq α]

theorem insertByKey_erase (h : q.Pairwise fun a b => key a ≤ key b) (hxy : x ≠ y) :
    (insertByKey key y q).erase x = insertByKey key y (q.erase x) := by
  induction q with
  | nil => exact List.erase_of_not_mem (by simpa [insertByKey] using hxy)
  | cons z q ih =>
    obtain ⟨hz, hq⟩ := List.pairwise_cons.1 h
    have ihq := ih hq
    unfold insertByKey at ihq ⊢
    rw [List.orderedInsert_cons]
    split
    · next hle =>
      -- `y` comes first, whatever is removed behind it.
      rw [List.erase_cons_tail (by simpa using hxy.symm)]
      cases hw : (z :: q).erase x with
      | nil => rfl
      | cons w m =>
        have hmem : w ∈ z :: q := List.mem_of_mem_erase (hw ▸ List.mem_cons_self)
        have hyw : key y ≤ key w := by
          rcases List.mem_cons.1 hmem with rfl | hm
          · exact hle
          · exact hle.trans (hz w hm)
        exact (List.orderedInsert_cons_of_le _ m hyw).symm
    · next hlt =>
      by_cases hzx : z = x
      · subst hzx
        rw [List.erase_cons_head, List.erase_cons_head]
      · rw [List.erase_cons_tail (by simpa using hzx), List.erase_cons_tail (by simpa using hzx), ihq, List.orderedInsert_cons,
          if_neg hlt]

theorem byKey_erase (h : l.Nodup) : byKey key (l.erase x) = (byKey key l).erase x := by
  induction l using List.reverseRecOn with
  | nil => rfl
  | append_singleton l y ih =>
    obtain ⟨hl, -, hd⟩ := List.nodup_append.1 h
    have hy : y ∉ l := fun hm => hd y hm y (by simp) rfl
    by_cases hxy : x = y
    · subst hxy
      have : Std.Refl fun a b : α => key a ≤ key b := ⟨fun a => le_rfl⟩
      rw [List.erase_append_right _ hy, byKey_concat, insertByKey, List.erase_orderedInsert]
      simp
    · rw [byKey_concat, insertByKey_erase byKey_sorted hxy, ← ih hl, ← byKey_concat]
      by_cases hx : x ∈ l
      · rw [List.erase_append_left _ hx]
      · rw [List.erase_of_not_mem hx, List.erase_of_not_mem (by simp [hx, hxy])]

/-! ## Sequences of operations -/

/-- The operations of a queue. -/
inductive QueueOp (α : Type u) where
  | add (x : α)
  | take
  | remove (x : α)
  | top

/-- The result of an operation and the queue after it. An element is not added twice, and only an element is removed. -/
def QueueOp.run (key : α → β) : QueueOp α → List α → Option (Option α × List α)
  | .add x, l => if x ∈ l then none else some (none, l ++ [x])
  | .take, l =>
    match eldest key l with
    | none => some (none, l)
    | some t => some (some t, l.erase t)
  | .remove x, l => if x ∈ l then some (none, l.erase x) else none
  | .top, l => some (eldest key l, l)

/-- The results of a sequence of operations and the queue after it. -/
def runOps (key : α → β) : List (QueueOp α) → List α → Option (List (Option α) × List α) := runAll (QueueOp.run key)

end Erase

end Lib
