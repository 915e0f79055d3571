import Pcsea.Lib.Chain
/-!
# Circular singly linked lists

`Loop next tail l`: a pointer on the last cell of a list whose last link leads
back to the first. The tail pointer is null when the list is empty.
-/

namespace Lib

universe u
variable {α : Type u} {next next' : α → Option α} {tail : Option α} {x t : α} {l : List α}

structure Loop (next : α → Option α) (tail : Option α) (l : List α) : Prop where
  last : tail = l.getLast?
  seg : Seg next l.head? l l.head?
  nodup : l.Nodup

theorem Loop.empty : Loop next none [] := ⟨rfl, rfl, List.nodup_nil⟩

theorem Loop.tail_none (h : Loop next tail l) : tail = none ↔ l = [] := by
  rw [h.last, List.getLast?_eq_none_iff]

/-- A list depends on the links of its own cells only. -/
theorem Loop.congr (h : Loop next tail l) (hn : ∀ y ∈ l, next' y = next y) : Loop next' tail l :=
  ⟨h.last, (seg_congr hn).2 h.seg, h.nodup⟩

/-- The last cell leads to the first. -/
theorem Loop.next_tail (h : Loop next (some t) l) : next t = l.head? := by
  obtain ⟨l', rfl⟩ := List.getLast?_eq_some_iff.1 h.last.symm
  obtain ⟨m, -, hm⟩ := seg_append.1 h.seg
  exact hm.2

theorem Loop.tail_mem (h : Loop next (some t) l) : t ∈ l := List.mem_of_getLast? h.last.symm

theorem Seg.next_mem {p r : Option α} (h : Seg next p l r) (hx : x ∈ l) : next x = r ∨ ∃ y ∈ l, next x = some y := by
  induction l generalizing p with
  | nil => simp at hx
  | cons z l ih =>
    obtain ⟨-, h⟩ := h
    rcases List.mem_cons.1 hx with rfl | hx
    · cases l with
      | nil => exact .inl h
      | cons y l => exact .inr ⟨y, by simp, h.1⟩
    · exact (ih h hx).imp_right fun ⟨y, hy, he⟩ => ⟨y, List.mem_cons_of_mem _ hy, he⟩

/-- Going on from a cell of the list, one stays in it. -/
theorem Loop.next_mem (h : Loop next tail l) (hx : x ∈ l) : ∃ y ∈ l, next x = some y := by
  rcases h.seg.next_mem hx with he | he
  · cases l with
    | nil => simp at hx
    | cons y l => exact ⟨y, by simp, he⟩
  · exact he

/-- A cell is added last. -/
theorem Loop.push (h : Loop next tail l) (hx : x ∉ l) (h₁ : next' x = some (l.headD x))
    (h₂ : ∀ t, tail = some t → next' t = some x) (h₃ : ∀ y ∈ l, tail ≠ some y → next' y = next y) :
    Loop next' (some x) (l ++ [x]) := by
  refine ⟨by simp, ?_, List.nodup_append.2 ⟨h.nodup, by simp, fun y hy z hz hyz => ?_⟩⟩
  · rcases List.eq_nil_or_concat l with rfl | ⟨l', t, rfl⟩
    · exact ⟨rfl, h₁⟩
    · rw [List.concat_eq_append] at *
      have ht : tail = some t := by rw [h.last, List.getLast?_concat]
      have htl : t ∉ l' := by
        have := h.nodup
        rw [List.nodup_append] at this
        exact fun hm => this.2.2 t hm t (by simp) rfl
      have hhead : (l' ++ [t] ++ [x]).head? = (l' ++ [t]).head? := by cases l' <;> rfl
      obtain ⟨m, hl', hm⟩ := seg_append.1 h.seg
      rw [hhead, List.append_assoc]
      refine seg_append.2 ⟨m, (seg_congr fun y hy => h₃ y (by simp [hy]) ?_).2 hl', hm.1, h₂ t ht, ?_⟩
      · rw [ht]
        rintro ⟨⟩
        exact htl hy
      · rw [h₁]
        cases l' <;> rfl
  · exact hx (List.mem_singleton.1 hz ▸ hyz ▸ hy)

/-- The first cell is taken out of a list of several cells. -/
theorem Loop.pop (h : Loop next (some t) (x :: l)) (hl : l ≠ []) (h₁ : next' t = next x)
    (h₂ : ∀ y ∈ l, y ≠ t → next' y = next y) : Loop next' (some t) l := by
  have hnd := (List.nodup_cons.1 h.nodup).2
  obtain ⟨l', rfl⟩ : ∃ l', l = l' ++ [t] := by
    have hlast := h.last
    rw [List.getLast?_cons_of_ne_nil hl] at hlast
    exact List.getLast?_eq_some_iff.1 hlast.symm
  have htl : t ∉ l' := by
    rw [List.nodup_append] at hnd
    exact fun hm => hnd.2.2 t hm t (by simp) rfl
  refine ⟨by simp, ?_, hnd⟩
  obtain ⟨m, hl', hm⟩ := seg_append.1 h.seg.2
  have hnx : next x = (l' ++ [t]).head? := by
    cases l' with
    | nil => exact h.seg.2.1
    | cons y l'' => exact h.seg.2.1
  refine seg_append.2 ⟨m, ?_, hm.1, ?_⟩
  · rw [← hnx]
    exact (seg_congr fun y hy => h₂ y (by simp [hy]) (ne_of_mem_of_not_mem hy htl)).2 hl'
  · rw [h₁, hnx]
    rfl

/-- A cell that leads to itself is alone. -/
theorem Loop.alone (h : Loop next (some t) l) (ht : next t = some t) : l = [t] := by
  obtain ⟨l', rfl⟩ := List.getLast?_eq_some_iff.1 h.last.symm
  have hhead := h.next_tail
  cases l' with
  | nil => rfl
  | cons y l' =>
    rw [ht] at hhead
    obtain rfl : t = y := Option.some.inj hhead
    have hnd := (List.nodup_cons.1 h.nodup).1
    exact absurd (by simp) hnd

end Lib
