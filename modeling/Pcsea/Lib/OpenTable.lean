import Mathlib.Logic.Function.Basic
import Mathlib.Order.Basic
/-!
# Open addressing

A key `k` is looked for in the cells `probe k 0`, `probe k 1`, and so on up to
an empty one; keys that `r` relates are one key, with one probe. `Holds r probe
T m`: the cells `T` are a sound table for the finite map `m`. A cell that is
emptied is marked deleted, so that the keys behind it are still reached.
-/

namespace Lib

universe u v w

inductive Cell (α : Type u) (β : Type v) where
  | empty
  | deleted
  | active (k : α) (v : β)

variable {α : Type u} {β : Type v} {ι : Type w} {r : α → α → Prop} {probe : α → Nat → ι} {T T' : ι → Cell α β}
  {m : α → Option β} {k : α} {s : ι} {c : Cell α β} {o : Option β}

/-- The probe of `k` comes to `s` before it has met an empty cell. -/
def Reached (probe : α → Nat → ι) (T : ι → Cell α β) (k : α) (s : ι) : Prop :=
  ∃ n, probe k n = s ∧ ∀ i < n, T (probe k i) ≠ .empty

/-- No cell holds the key `k`. -/
def Absent (r : α → α → Prop) (T : ι → Cell α β) (k : α) : Prop := ∀ s k' v, T s = .active k' v → ¬r k' k

/-- `r` is an equality of keys, and equal keys have one probe. -/
structure KeyEq (r : α → α → Prop) (probe : α → Nat → ι) : Prop where
  equiv : Equivalence r
  probe : ∀ k k', r k k' → probe k = probe k'

structure Holds (r : α → α → Prop) (probe : α → Nat → ι) (T : ι → Cell α β) (m : α → Option β) : Prop where
  reach : ∀ s k v, T s = .active k v → Reached probe T k s
  unique : ∀ s s' k k' v v', T s = .active k v → T s' = .active k' v' → r k k' → s = s'
  value : ∀ k v, m k = some v ↔ ∃ s k', T s = .active k' v ∧ r k' k

/-- The map with another value, or none, for `k`. -/
def assign (r : α → α → Prop) [DecidableRel r] (m : α → Option β) (k : α) (o : Option β) : α → Option β :=
  fun x => if r k x then o else m x

theorem Holds.blank (hT : ∀ s, T s = .empty) : Holds r probe T fun _ => none := by
  constructor
  · intro s k v hs
    simp [hT] at hs
  · intro s s' k k' v v' hs
    simp [hT] at hs
  · simp [hT]

theorem Reached.mono (h : Reached probe T k s) (hT : ∀ a, T a ≠ .empty → T' a ≠ .empty) : Reached probe T' k s := by
  obtain ⟨n, hn, hi⟩ := h
  exact ⟨n, hn, fun i hlt => hT _ (hi i hlt)⟩

theorem Holds.eq_none (h : Holds r probe T m) (ha : Absent r T k) : m k = none := by
  refine Option.eq_none_iff_forall_ne_some.2 fun v hv => ?_
  obtain ⟨s, k', hs, hk⟩ := (h.value k v).1 hv
  exact ha s k' v hs hk

theorem Holds.absent_iff (h : Holds r probe T m) : Absent r T k ↔ m k = none := by
  refine ⟨h.eq_none, fun hm s k' v hs hr => ?_⟩
  have := (h.value k v).2 ⟨s, k', hs, hr⟩
  rw [hm] at this
  cases this

/-- Equal keys have one value. -/
theorem Holds.congr (h : Holds r probe T m) (hk : KeyEq r probe) {k' : α} (hr : r k k') : m k = m k' := by
  refine Option.ext fun v => ?_
  rw [h.value k v, h.value k' v]
  constructor
  · rintro ⟨s, a, hs, ha⟩
    exact ⟨s, a, hs, hk.equiv.trans ha hr⟩
  · rintro ⟨s, a, hs, ha⟩
    exact ⟨s, a, hs, hk.equiv.trans ha (hk.equiv.symm hr)⟩

/-- A probe that has come to an empty cell without `k` will not find it. -/
theorem Holds.absent (h : Holds r probe T m) (hk : KeyEq r probe) {n : Nat} (hn : T (probe k n) = .empty)
    (hi : ∀ i < n, ∀ k' v, T (probe k i) = .active k' v → ¬r k' k) : Absent r T k := by
  intro s k' v hs hr
  obtain ⟨j, hj, hempty⟩ := h.reach s k' v hs
  rw [hk.probe k' k hr] at hj hempty
  rcases Nat.lt_trichotomy j n with hlt | rfl | hlt
  · exact hi j hlt k' v (hj ▸ hs) hr
  · rw [hj, hs] at hn
    cases hn
  · exact hempty n hlt hn

/-- The cell of a key holds no other, and no other cell holds the key. -/
theorem Holds.cell (h : Holds r probe T m) (hk : KeyEq r probe) {k' : α} {v' : β} (hs : T s = .active k' v') (hr : r k' k) :
    (∀ a ka va, T a = .active ka va → r ka k → a = s) ∧ ∀ ka va, T s = .active ka va → r ka k := by
  refine ⟨fun a ka va ha hra => ?_, fun ka va ha => ?_⟩
  · exact h.unique a s ka k' va v' ha hs (hk.equiv.trans hra (hk.equiv.symm hr))
  · rw [hs] at ha
    cases ha
    exact hr

variable [DecidableEq ι]

theorem update_ne_empty (hc : c ≠ .empty) {a : ι} (ha : T a ≠ .empty) : Function.update T s c a ≠ .empty := by
  rw [Function.update_apply]
  split
  · exact hc
  · exact ha

variable [DecidableRel r]

/-- A cell that holds no other key than `k` gets a value for `k`, or loses it. -/
theorem Holds.write (h : Holds r probe T m) (hk : KeyEq r probe) (hne : c ≠ .empty)
    (hk₁ : ∀ s' k' v, T s' = .active k' v → r k' k → s' = s) (hk₂ : ∀ k' v, T s = .active k' v → r k' k)
    (hc : ∀ k' v, c = .active k' v → r k' k ∧ Reached probe T k' s) (ho : ∀ v, o = some v ↔ ∃ k', c = .active k' v) :
    Holds r probe (Function.update T s c) (assign r m k o) := by
  have hself : Function.update T s c s = c := Function.update_self ..
  have hother : ∀ a, a ≠ s → Function.update T s c a = T a := fun a ha => Function.update_of_ne ha ..
  constructor
  -- A key that stays is still reached, and the new one is by hypothesis.
  · intro a k' v ha
    refine Reached.mono (T := T) ?_ fun b hb => update_ne_empty hne hb
    by_cases has : a = s
    · subst has
      exact (hc k' v (hself ▸ ha)).2
    · exact h.reach a k' v (hother a has ▸ ha)
  -- Two slots of one key: the written one is the only one of its class.
  · intro a b ka kb va vb ha hb hr
    by_cases has : a = s
    · by_cases hbs : b = s
      · rw [has, hbs]
      · rw [has, hself] at ha
        rw [hother b hbs] at hb
        rw [has, hk₁ b kb vb hb (hk.equiv.trans (hk.equiv.symm hr) (hc ka va ha).1)]
    · rw [hother a has] at ha
      by_cases hbs : b = s
      · rw [hbs, hself] at hb
        rw [hbs, hk₁ a ka va ha (hk.equiv.trans hr (hc kb vb hb).1)]
      · rw [hother b hbs] at hb
        exact h.unique a b ka kb va vb ha hb hr
  -- The class of the key has the new value, and no other class had the slot.
  · intro x v
    by_cases hx : r k x
    · rw [assign, if_pos hx, ho]
      constructor
      · rintro ⟨k', rfl⟩
        exact ⟨s, k', hself, hk.equiv.trans (hc k' v rfl).1 hx⟩
      · rintro ⟨a, k', ha, hr⟩
        by_cases has : a = s
        · subst has
          exact ⟨k', hself.symm.trans ha⟩
        · exact absurd (hk₁ a k' v (hother a has ▸ ha) (hk.equiv.trans hr (hk.equiv.symm hx))) has
    · rw [assign, if_neg hx, h.value x v]
      constructor
      · rintro ⟨a, k', ha, hr⟩
        refine ⟨a, k', ?_, hr⟩
        rw [hother a, ha]
        rintro rfl
        exact hx (hk.equiv.trans (hk.equiv.symm (hk₂ k' v ha)) hr)
      · rintro ⟨a, k', ha, hr⟩
        refine ⟨a, k', ?_, hr⟩
        rw [← hother a, ha]
        rintro rfl
        exact hx (hk.equiv.trans (hk.equiv.symm (hc k' v (hself ▸ ha)).1) hr)

/-- A new key goes in the first free cell of its probe, or in any other that it reaches. -/
theorem Holds.insert (h : Holds r probe T m) (hk : KeyEq r probe) (ha : Absent r T k) (hs : ∀ k' v, T s ≠ .active k' v)
    (hr : Reached probe T k s) (v : β) : Holds r probe (Function.update T s (.active k v)) (assign r m k (some v)) := by
  refine h.write hk (by simp) (fun s' k' v' hs' hr' => absurd hr' (ha s' k' v' hs')) (fun k' v' hs' => absurd hs' (hs k' v'))
    ?_ fun v' => ⟨?_, ?_⟩
  · rintro k' v' ⟨⟩
    exact ⟨hk.equiv.refl k, hr⟩
  · rintro ⟨⟩
    exact ⟨k, rfl⟩
  · rintro ⟨k', ⟨⟩⟩
    rfl

/-- The value of a key is changed in its cell. -/
theorem Holds.modify (h : Holds r probe T m) (hk : KeyEq r probe) {k' : α} {v' : β} (hs : T s = .active k' v') (hr : r k' k)
    (v : β) : Holds r probe (Function.update T s (.active k' v)) (assign r m k (some v)) := by
  obtain ⟨hk₁, hk₂⟩ := h.cell hk hs hr
  refine h.write hk (by simp) hk₁ hk₂ ?_ fun w => ⟨?_, ?_⟩
  · rintro ka va ⟨⟩
    exact ⟨hr, h.reach s k' v' hs⟩
  · rintro ⟨⟩
    exact ⟨k', rfl⟩
  · rintro ⟨ka, ⟨⟩⟩
    rfl

/-- The cell of a key is marked deleted. -/
theorem Holds.erase (h : Holds r probe T m) (hk : KeyEq r probe) {k' : α} {v' : β} (hs : T s = .active k' v') (hr : r k' k) :
    Holds r probe (Function.update T s .deleted) (assign r m k none) := by
  obtain ⟨hk₁, hk₂⟩ := h.cell hk hs hr
  refine h.write hk (by simp) hk₁ hk₂ ?_ (by simp)
  rintro ka va ⟨⟩

end Lib
