import Mathlib.Data.List.Basic
import Mathlib.Data.List.Nodup
import Mathlib.Logic.Function.Basic
/-!
# Doubly linked rings

`Path next prev a l`: from the node `a` through the nodes `l`, each `next` is
matched by a `prev`. `DRing next prev h l`: the nodes `l` form a ring closed by
the list head `h`, and the links of every other node are NULL.
-/

namespace Lib

universe u
variable {ν : Type u}

/-- From `a` through `l`, forwards along `next` and backwards along `prev`. -/
def Path (next prev : ν → Option ν) : ν → List ν → Prop
  | _, [] => True
  | a, x :: l => next a = some x ∧ prev x = some a ∧ Path next prev x l

variable {next prev next' prev' : ν → Option ν} {a c h p x : ν} {l l₁ l₂ B : List ν}

@[simp] theorem path_nil : Path next prev a [] ↔ True := Iff.rfl

@[simp] theorem path_cons : Path next prev a (x :: l) ↔ next a = some x ∧ prev x = some a ∧ Path next prev x l :=
  Iff.rfl

theorem path_append : Path next prev a (l₁ ++ l₂) ↔ Path next prev a l₁ ∧ Path next prev (l₁.getLastD a) l₂ := by
  induction l₁ generalizing a with
  | nil => simp only [List.nil_append, path_nil, true_and, List.getLastD_nil]
  | cons x l₁ ih => simp only [List.cons_append, path_cons, ih, and_assoc, List.getLastD_cons]

/-- A path uses the `next` of its nodes but the last and the `prev` of its nodes but the first. -/
theorem path_congr (hn : ∀ y ∈ (a :: l).dropLast, next' y = next y) (hp : ∀ y ∈ l, prev' y = prev y) :
    Path next' prev' a l ↔ Path next prev a l := by
  induction l generalizing a with
  | nil => simp
  | cons x l ih =>
    simp only [List.dropLast_cons_cons, List.mem_cons, forall_eq_or_imp] at hn hp
    rw [path_cons, path_cons, hn.1, hp.1, ih hn.2 hp.2]

theorem getLastD_mem (l : List ν) (a : ν) : l.getLastD a ∈ a :: l := by
  induction l generalizing a with
  | nil => simp
  | cons x l ih => exact List.mem_cons_of_mem _ (by rw [List.getLastD_cons]; exact ih x)

/-- The last node of a list without repetition is not among the others. -/
theorem getLastD_notMem (hn : (a :: l).Nodup) : l.getLastD a ∉ (a :: l).dropLast := by
  induction l generalizing a with
  | nil => simp
  | cons x l ih =>
    rw [List.getLastD_cons, List.dropLast_cons_cons, List.mem_cons, not_or]
    exact ⟨fun he => (List.nodup_cons.1 hn).1 (he ▸ getLastD_mem l x), ih (List.nodup_cons.1 hn).2⟩

/-- A ring through the list head `h`. -/
structure DRing (next prev : ν → Option ν) (h : ν) (l : List ν) : Prop where
  path : Path next prev h (l ++ [h])
  nodup : (h :: l).Nodup
  off : ∀ x, x ∉ h :: l → next x = none ∧ prev x = none

/-- Around a place of the ring: the node before it, the node after it, and the two halves. -/
theorem DRing.split (hr : DRing next prev h l) (hl : l = l₁ ++ l₂) (hc : l₂ ++ [h] = c :: B) :
    Path next prev h l₁ ∧ next (l₁.getLastD h) = some c ∧ prev c = some (l₁.getLastD h) ∧ Path next prev c B := by
  have hp := hr.path
  rw [hl, List.append_assoc, hc, path_append, path_cons] at hp
  exact hp

/-- The nodes of the ring, cut anywhere. -/
theorem DRing.cut_nodup (hr : DRing next prev h l) (hl : l = l₁ ++ l₂) (hc : l₂ ++ [h] = c :: B) :
    (h :: l₁).Nodup ∧ (c :: B).Nodup ∧ (∀ y ∈ h :: l₁, y ∉ (c :: B).dropLast) ∧ c ∉ l₁ ∧
      ∀ y, y ∈ c :: B ↔ y = h ∨ y ∈ l₂ := by
  have hn := hr.nodup
  subst hl
  rw [List.nodup_cons, List.nodup_append, List.mem_append, not_or] at hn
  obtain ⟨⟨h₁, h₂⟩, hn₁, hn₂, hd⟩ := hn
  have hB : ∀ y, y ∈ c :: B ↔ y = h ∨ y ∈ l₂ := fun y => by rw [← hc]; simp [or_comm]
  refine ⟨List.nodup_cons.2 ⟨h₁, hn₁⟩, ?_, ?_, ?_, hB⟩
  · rw [← hc, List.nodup_append]
    exact ⟨hn₂, by simp, by rintro y hy _ hz rfl; rw [List.mem_singleton] at hz; exact h₂ (hz ▸ hy)⟩
  · rw [← hc, List.dropLast_concat]
    intro y hy hy₂
    rcases List.mem_cons.1 hy with rfl | hy
    · exact h₂ hy₂
    · exact hd y hy y hy₂ rfl
  · intro hc₁
    rcases (hB c).1 (by simp) with rfl | hc₂
    · exact h₁ hc₁
    · exact hd c hc₁ c hc₂ rfl

/-- Some node closes the cut. -/
theorem exists_cut (l₂ : List ν) (h : ν) : ∃ c B, l₂ ++ [h] = c :: B := by
  cases l₂ with
  | nil => exact ⟨h, [], rfl⟩
  | cons c l => exact ⟨c, l ++ [h], rfl⟩

theorem DRing.succ (hr : DRing next prev h l) (hx : x ∈ h :: l) : ∃ y, next x = some y ∧ prev y = some x := by
  rcases List.mem_cons.1 hx with rfl | hx
  · obtain ⟨c, B, hl⟩ := exists_cut l x
    obtain ⟨-, h₁, h₂, -⟩ := hr.split (List.nil_append l).symm hl
    exact ⟨c, h₁, h₂⟩
  · obtain ⟨l₁, l₂, rfl⟩ := List.append_of_mem hx
    obtain ⟨c, B, hl⟩ := exists_cut l₂ h
    obtain ⟨-, h₁, h₂, -⟩ := hr.split (List.append_cons l₁ x l₂) hl
    rw [List.getLastD_concat] at h₁ h₂
    exact ⟨c, h₁, h₂⟩

theorem DRing.pred (hr : DRing next prev h l) (hx : x ∈ h :: l) : ∃ y, prev x = some y ∧ next y = some x := by
  rcases List.mem_cons.1 hx with rfl | hx
  · obtain ⟨-, h₁, h₂, -⟩ := hr.split (List.append_nil l).symm rfl
    exact ⟨_, h₂, h₁⟩
  · obtain ⟨l₁, l₂, rfl⟩ := List.append_of_mem hx
    obtain ⟨-, h₁, h₂, -⟩ := hr.split (Eq.refl (l₁ ++ x :: l₂)) rfl
    exact ⟨_, h₂, h₁⟩

theorem DRing.linked (hr : DRing next prev h l) (hx : x ∈ h :: l) : (next x).isSome ∧ (prev x).isSome := by
  obtain ⟨y, hy, -⟩ := hr.succ hx
  obtain ⟨z, hz, -⟩ := hr.pred hx
  exact ⟨by rw [hy]; rfl, by rw [hz]; rfl⟩

/-- The two links are inverse of each other. -/
theorem DRing.inverse (hr : DRing next prev h l) {y : ν} : next x = some y ↔ prev y = some x := by
  constructor
  · intro hx
    have hm : x ∈ h :: l := by
      by_contra hm
      simp [(hr.off x hm).1] at hx
    obtain ⟨z, hz, hp⟩ := hr.succ hm
    rwa [Option.some.inj (hx.symm.trans hz)]
  · intro hy
    have hm : y ∈ h :: l := by
      by_contra hm
      simp [(hr.off y hm).2] at hy
    obtain ⟨z, hz, hn⟩ := hr.pred hm
    rwa [Option.some.inj (hy.symm.trans hz)]

section Update
variable [DecidableEq ν]

/-- Writing the links of new or moved nodes leaves a path alone that does not use them. -/
theorem path_update {u v w z : ν} {u' v' w' z' : Option ν}
    (hu : u ∉ (a :: l).dropLast) (hv : v ∉ (a :: l).dropLast) (hw : w ∉ l) (hz : z ∉ l) :
    Path (Function.update (Function.update next u u') v v') (Function.update (Function.update prev w w') z z') a l ↔
      Path next prev a l := by
  apply path_congr
  · intro y hy
    rw [Function.update_of_ne (ne_of_mem_of_not_mem hy hv), Function.update_of_ne (ne_of_mem_of_not_mem hy hu)]
  · intro y hy
    rw [Function.update_of_ne (ne_of_mem_of_not_mem hy hz), Function.update_of_ne (ne_of_mem_of_not_mem hy hw)]

/-- Inserting `x` at a place of the ring. -/
theorem DRing.insert (hr : DRing next prev h l) (hl : l = l₁ ++ l₂) (hc : l₂ ++ [h] = c :: B) (hx : x ∉ h :: l) :
    DRing (Function.update (Function.update next x (some c)) (l₁.getLastD h) (some x))
      (Function.update (Function.update prev x (some (l₁.getLastD h))) c (some x)) h (l₁ ++ x :: l₂) := by
  obtain ⟨h₁, -, -, h₂⟩ := hr.split hl hc
  obtain ⟨hn₁, hn₂, hd, hcl, hB⟩ := hr.cut_nodup hl hc
  have hp := getLastD_mem l₁ h
  have hx' : x ≠ h ∧ x ∉ l₁ ∧ x ∉ l₂ := by
    subst hl
    simpa only [List.mem_cons, List.mem_append, not_or] using hx
  have hxB : x ∉ c :: B := fun hm => ((hB x).1 hm).elim hx'.1 hx'.2.2
  have hxp : x ≠ l₁.getLastD h := by
    intro he
    rcases List.mem_cons.1 (he ▸ hp) with e | e
    · exact hx'.1 e
    · exact hx'.2.1 e
  have hxc : x ≠ c := fun he => hxB (by simp [he])
  refine ⟨?_, ?_, ?_⟩
  -- The ring is the part up to the node before `x`, the two new links, and the part from `c`.
  · rw [List.append_assoc, List.cons_append, hc, path_append, path_cons, path_cons]
    refine ⟨?_, ?_, ?_, ?_, ?_, ?_⟩
    · refine (path_update ?_ (getLastD_notMem hn₁) hx'.2.1 hcl).2 h₁
      exact fun hm => (List.mem_cons.1 (List.dropLast_subset _ hm)).elim hx'.1 hx'.2.1
    · rw [Function.update_self]
    · rw [Function.update_of_ne hxc, Function.update_self]
    · rw [Function.update_of_ne hxp, Function.update_self]
    · rw [Function.update_self]
    · refine (path_update ?_ (hd _ hp) ?_ (List.nodup_cons.1 hn₂).1).2 h₂
      · exact fun hm => hxB (List.dropLast_subset _ hm)
      · exact fun hm => hxB (List.mem_cons_of_mem _ hm)
  · have hn := hr.nodup
    subst hl
    rw [← List.cons_append] at hn ⊢
    exact List.nodup_middle.2 (List.nodup_cons.2 ⟨by simpa using hx, hn⟩)
  · intro y hy
    have hy' : y ∉ h :: l := by
      subst hl
      exact fun hm => hy (by simp only [List.mem_cons, List.mem_append] at hm ⊢; tauto)
    have hyp : y ≠ l₁.getLastD h := by
      rintro rfl
      subst hl
      exact hy (List.mem_cons.2 ((List.mem_cons.1 hp).imp_right (fun hm => List.mem_append_left _ hm)))
    have hyc : y ≠ c := by
      rintro rfl
      rcases (hB y).1 (by simp) with rfl | hm
      · exact hy (by simp)
      · exact hy (by simp [hm])
    have hyx : y ≠ x := fun he => hy (by simp [he])
    rw [Function.update_of_ne hyp, Function.update_of_ne hyx, Function.update_of_ne hyc, Function.update_of_ne hyx]
    exact hr.off y hy'

/-- Taking the node `x` out of the ring. -/
theorem DRing.remove (hr : DRing next prev h l) (hl : l = l₁ ++ x :: l₂) (hc : l₂ ++ [h] = c :: B) :
    DRing (Function.update (Function.update next (l₁.getLastD h) (some c)) x none)
      (Function.update (Function.update prev c (some (l₁.getLastD h))) x none) h (l₁ ++ l₂) := by
  -- The ring is cut twice: before `x` and after it.
  have hl' : l = (l₁ ++ [x]) ++ l₂ := by simp [hl]
  obtain ⟨h₁, -⟩ := hr.split hl rfl
  obtain ⟨-, -, -, h₂⟩ := hr.split hl' hc
  obtain ⟨hn₁, -, -, hx₁, -⟩ := hr.cut_nodup hl rfl
  obtain ⟨hn₁', hn₂, hd, hcl, hB⟩ := hr.cut_nodup hl' hc
  have hp := getLastD_mem l₁ h
  have hxh : x ≠ h := by
    rintro rfl
    simp at hn₁'
  have hx₂ : x ∉ l₂ := by
    have := (List.nodup_cons.1 hr.nodup).2
    rw [hl] at this
    exact (List.nodup_cons.1 (List.nodup_append.1 this).2.1).1
  have hxB : x ∉ c :: B := fun hm => ((hB x).1 hm).elim hxh hx₂
  have hxp : x ≠ l₁.getLastD h := by
    intro he
    rcases List.mem_cons.1 (he ▸ hp) with e | e
    · exact hxh e
    · exact hx₁ e
  have hxc : x ≠ c := fun he => hxB (by simp [he])
  have hp' : l₁.getLastD h ∈ h :: (l₁ ++ [x]) := by
    rcases List.mem_cons.1 hp with e | e
    · rw [e]; simp
    · exact List.mem_cons_of_mem _ (List.mem_append_left _ e)
  refine ⟨?_, ?_, ?_⟩
  · rw [List.append_assoc, hc, path_append, path_cons]
    refine ⟨?_, ?_, ?_, ?_⟩
    · refine (path_update (getLastD_notMem hn₁) ?_ (fun hm => hcl (List.mem_append_left _ hm)) hx₁).2 h₁
      exact fun hm => (List.mem_cons.1 (List.dropLast_subset _ hm)).elim hxh hx₁
    · rw [Function.update_of_ne hxp.symm, Function.update_self]
    · rw [Function.update_of_ne hxc.symm, Function.update_self]
    · refine (path_update (hd _ hp') ?_ (List.nodup_cons.1 hn₂).1 ?_).2 h₂
      · exact fun hm => hxB (List.dropLast_subset _ hm)
      · exact fun hm => hxB (List.mem_cons_of_mem _ hm)
  · have hn := hr.nodup
    rw [hl, ← List.cons_append] at hn
    exact (List.nodup_cons.1 (List.nodup_middle.1 hn)).2
  · intro y hy
    by_cases hyx : y = x
    · subst hyx
      rw [Function.update_self, Function.update_self]
      exact ⟨rfl, rfl⟩
    · have hyp : y ≠ l₁.getLastD h := by
        rintro rfl
        exact hy (List.mem_cons.2 ((List.mem_cons.1 hp).imp_right (fun hm => List.mem_append_left _ hm)))
      have hyc : y ≠ c := by
        rintro rfl
        rcases (hB y).1 (by simp) with rfl | hm
        · exact hy (by simp)
        · exact hy (by simp [hm])
      rw [Function.update_of_ne hyx, Function.update_of_ne hyp, Function.update_of_ne hyx, Function.update_of_ne hyc]
      refine hr.off y fun hm => hy ?_
      rw [hl] at hm
      simp only [List.mem_cons, List.mem_append] at hm ⊢
      tauto

end Update

end Lib
