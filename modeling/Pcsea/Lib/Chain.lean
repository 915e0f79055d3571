import Mathlib.Data.List.Basic
import Mathlib.Logic.Function.Basic
/-!
# Singly linked lists

`Seg next p l r`: following `next` from the pointer `p` goes through the cells
`l` and arrives at `r`. `Chain next hd tl l`: a list held by pointers on its
first and last cells.
-/

namespace Lib

universe u
variable {α : Type u}

/-- The cells `l`, in order, lead from `p` to `r`. -/
def Seg (next : α → Option α) : Option α → List α → Option α → Prop
  | p, [], r => p = r
  | p, x :: l, r => p = some x ∧ Seg next (next x) l r

variable {next next' : α → Option α} {p r hd tl : Option α} {x y t : α} {l l₁ l₂ : List α}

@[simp] theorem seg_nil : Seg next p [] r ↔ p = r := Iff.rfl

@[simp] theorem seg_cons : Seg next p (x :: l) r ↔ p = some x ∧ Seg next (next x) l r := Iff.rfl

theorem seg_append : Seg next p (l₁ ++ l₂) r ↔ ∃ m, Seg next p l₁ m ∧ Seg next m l₂ r := by
  induction l₁ generalizing p with
  | nil => simp
  | cons x l₁ ih => simp [ih, and_assoc]

/-- A segment depends on the links of its own cells only. -/
theorem seg_congr (h : ∀ x ∈ l, next' x = next x) : Seg next' p l r ↔ Seg next p l r := by
  induction l generalizing p with
  | nil => simp
  | cons x l ih =>
    rw [seg_cons, seg_cons, h x (by simp), ih (fun y hy => h y (by simp [hy]))]

section Update
variable [DecidableEq α]

theorem seg_update {v : Option α} (hx : x ∉ l) : Seg (Function.update next x v) p l r ↔ Seg next p l r :=
  seg_congr fun _ hy => Function.update_of_ne (ne_of_mem_of_not_mem hy hx) _ _

end Update

/-- A list that ends is determined by where it starts. -/
theorem Seg.unique (h₁ : Seg next p l₁ none) (h₂ : Seg next p l₂ none) : l₁ = l₂ := by
  induction l₁ generalizing p l₂ with
  | nil =>
    cases l₂ with
    | nil => rfl
    | cons y l₂ => simp_all
  | cons x l₁ ih =>
    cases l₂ with
    | nil => simp_all
    | cons y l₂ =>
      obtain ⟨rfl, h₁⟩ := h₁
      obtain ⟨hxy, h₂⟩ := h₂
      cases hxy
      rw [ih h₁ h₂]

/-- From a cell of a list that ends, the rest of the list ends too. -/
theorem Seg.from_mem (h : Seg next p l none) (hx : x ∈ l) :
    ∃ l₁ l₂, l = l₁ ++ x :: l₂ ∧ Seg next p l₁ (some x) ∧ Seg next (some x) (x :: l₂) none := by
  obtain ⟨l₁, l₂, rfl⟩ := List.append_of_mem hx
  obtain ⟨m, h₁, h₂⟩ := seg_append.1 h
  obtain rfl : m = some x := h₂.1
  exact ⟨l₁, l₂, rfl, h₁, h₂⟩

/-- A list that ends visits no cell twice. -/
theorem Seg.nodup (h : Seg next p l none) : l.Nodup := by
  induction l generalizing p with
  | nil => exact List.nodup_nil
  | cons x l ih =>
    refine List.nodup_cons.2 ⟨fun hx => ?_, ih h.2⟩
    obtain ⟨l₁, l₂, rfl, -, h₂⟩ := h.2.from_mem hx
    have he : l₁ ++ x :: l₂ = l₂ := h.2.unique h₂.2
    have := congrArg List.length he
    simp only [List.length_append, List.length_cons] at this
    omega

theorem Seg.isNone (h : Seg next p l none) : p = none ↔ l = [] := by
  cases l with
  | nil => simpa using h
  | cons x l => simp [h.1]

/-- `x` is met following `next` from the pointer. -/
inductive Met (next : α → Option α) : Option α → α → Prop
  | here {x : α} : Met next (some x) x
  | on {x y : α} : Met next (next x) y → Met next (some x) y

theorem Seg.met_iff (h : Seg next p l none) : Met next p x ↔ x ∈ l := by
  induction l generalizing p with
  | nil =>
    obtain rfl : p = none := h
    simp only [List.not_mem_nil, iff_false]
    nofun
  | cons y l ih =>
    obtain ⟨rfl, h⟩ := h
    rw [List.mem_cons, ← ih h]
    constructor
    · rintro (_ | hm)
      · exact .inl rfl
      · exact .inr hm
    · rintro (rfl | hm)
      · exact .here
      · exact .on hm

/-- The first `n` cells met from the pointer. -/
def walk (next : α → Option α) : Nat → Option α → List α
  | 0, _ => []
  | _, none => []
  | n + 1, some x => x :: walk next n (next x)

theorem Seg.walk {n : Nat} (h : Seg next p l none) (hn : l.length ≤ n) : walk next n p = l := by
  induction l generalizing p n with
  | nil =>
    obtain rfl : p = none := h
    cases n <;> rfl
  | cons x l ih =>
    obtain ⟨rfl, h⟩ := h
    obtain ⟨n, rfl⟩ : ∃ m, n = m + 1 := ⟨n - 1, by simp only [List.length_cons] at hn; omega⟩
    rw [Lib.walk, ih h (by simpa using hn)]

/-! ## Lists with a first and a last cell -/

structure Chain (next : α → Option α) (hd tl : Option α) (l : List α) : Prop where
  seg : Seg next hd l none
  last : tl = l.getLast?

theorem Chain.empty : Chain next none none [] := ⟨rfl, rfl⟩

theorem Chain.nodup (h : Chain next hd tl l) : l.Nodup := h.seg.nodup

theorem Chain.head_none (h : Chain next hd tl l) : hd = none ↔ l = [] := h.seg.isNone

theorem Chain.last_none (h : Chain next hd tl l) : tl = none ↔ l = [] := by
  rw [h.last, List.getLast?_eq_none_iff]

theorem Chain.head_eq (h : Chain next hd tl (x :: l)) : hd = some x := h.seg.1

theorem Chain.head (h : Chain next hd tl l) : hd = l.head? := by
  cases l with
  | nil => exact h.seg
  | cons x l => exact h.head_eq

/-- The first cell is the last one only when it is alone. -/
theorem Chain.head_eq_last (h : Chain next hd tl (x :: l)) : hd = tl ↔ l = [] := by
  have hx := (List.nodup_cons.1 h.nodup).1
  rw [h.head_eq, h.last]
  cases l with
  | nil => simp
  | cons y l =>
    simp only [List.getLast?_cons_cons, reduceCtorEq, iff_false]
    intro he
    exact hx (List.mem_of_getLast? he.symm)

theorem Chain.congr (h : Chain next hd tl l) (he : ∀ x ∈ l, next' x = next x) : Chain next' hd tl l :=
  ⟨(seg_congr he).2 h.seg, h.last⟩

/-- The cells of a list determine its links. -/
theorem Chain.agree {hd' tl' : Option α} (h : Chain next hd tl l) (h' : Chain next' hd' tl' l) :
    hd' = hd ∧ ∀ x ∈ l, next' x = next x := by
  refine ⟨by rw [h.head, h'.head], fun x hx => ?_⟩
  obtain ⟨l₁, l₂, rfl⟩ := List.append_of_mem hx
  obtain ⟨m, -, -, h₂⟩ := seg_append.1 h.seg
  obtain ⟨m', -, -, h₂'⟩ := seg_append.1 h'.seg
  cases l₂ with
  | nil => exact h₂'.trans h₂.symm
  | cons y l₂ => exact h₂'.1.trans h₂.1.symm

theorem Chain.tail (h : Chain next hd tl (x :: y :: l)) : Chain next (next x) tl (y :: l) :=
  ⟨h.seg.2, by rw [h.last, List.getLast?_cons_cons]⟩

theorem Chain.last_mem (h : Chain next hd (some t) l) : t ∈ l := List.mem_of_getLast? h.last.symm

/-- The link of the last cell is NULL. -/
theorem Chain.next_last (h : Chain next hd (some t) l) : next t = none := by
  obtain ⟨l', rfl⟩ := List.getLast?_eq_some_iff.1 h.last.symm
  obtain ⟨m, -, hm⟩ := seg_append.1 h.seg
  exact hm.2

/-- The cells behind `x` are cut off. -/
theorem Chain.cut (h : Chain next hd tl (l₁ ++ x :: l₂)) (hx : next' x = none) (hl : ∀ y ∈ l₁, next' y = next y) :
    Chain next' hd (some x) (l₁ ++ [x]) := by
  obtain ⟨m, h₁, rfl, -⟩ := seg_append.1 h.seg
  exact ⟨seg_append.2 ⟨_, (seg_congr hl).2 h₁, rfl, hx⟩, by simp⟩

section Update
variable [DecidableEq α]

theorem Chain.update {v : Option α} (h : Chain next hd tl l) (hx : x ∉ l) :
    Chain (Function.update next x v) hd tl l :=
  ⟨(seg_update hx).2 h.seg, h.last⟩

theorem Chain.singleton (next : α → Option α) (x : α) :
    Chain (Function.update next x none) (some x) (some x) [x] :=
  ⟨by simp, by simp⟩

/-- Writing NULL in the last cell changes nothing. -/
theorem Chain.update_last (h : Chain next hd (some t) l) : Chain (Function.update next t none) hd (some t) l := by
  rw [← h.next_last, Function.update_eq_self]
  exact h

/-- Linking a new cell behind the last one. -/
theorem Chain.append (h : Chain next hd (some t) l) (hx : x ∉ l) :
    Chain (Function.update (Function.update next t (some x)) x none) hd (some x) (l ++ [x]) := by
  refine ⟨?_, by simp⟩
  have ht : x ≠ t := fun e => hx (e ▸ h.last_mem)
  obtain ⟨l', rfl⟩ := List.getLast?_eq_some_iff.1 h.last.symm
  obtain ⟨m, h₁, h₂⟩ := seg_append.1 h.seg
  obtain ⟨rfl, -⟩ := seg_cons.1 h₂
  have ht' : t ∉ l' := by
    have hn := h.nodup
    rw [List.nodup_append] at hn
    exact fun hm => hn.2.2 t hm t (by simp) rfl
  have hx' : x ∉ l' := fun hm => hx (by simp [hm])
  rw [List.append_assoc, seg_append]
  refine ⟨some t, ?_, ?_⟩
  · rw [seg_update hx', seg_update ht']
    exact h₁
  · simp [Function.update_of_ne ht.symm]

/-- Linking a new cell `x` between `t` and `y`. -/
theorem Seg.insert (h : Seg next p (l₁ ++ t :: y :: l₂) none) (hx : x ∉ l₁ ++ t :: y :: l₂) :
    Seg (Function.update (Function.update next t (some x)) x (some y)) p (l₁ ++ t :: x :: y :: l₂) none := by
  have hn := h.nodup
  obtain ⟨m, h₁, h₂⟩ := seg_append.1 h
  obtain ⟨rfl, -, h₂⟩ := h₂
  simp only [List.mem_append, List.mem_cons, not_or] at hx
  obtain ⟨hx₁, hxt, hxy, hx₂⟩ := hx
  simp only [List.nodup_append, List.nodup_cons, List.mem_cons] at hn
  obtain ⟨-, ⟨ht, -, -⟩, hd⟩ := hn
  push Not at ht
  have ht₁ : t ∉ l₁ := fun hm => hd t hm t (.inl rfl) rfl
  refine seg_append.2 ⟨some t, ?_, ?_⟩
  · rw [seg_update hx₁, seg_update ht₁]
    exact h₁
  · simp only [seg_cons, true_and, Function.update_self, Function.update_of_ne (Ne.symm hxt),
      Function.update_of_ne (Ne.symm hxy), Function.update_of_ne (Ne.symm ht.1)]
    rw [seg_update hx₂, seg_update ht.2]
    exact h₂

/-- Unlinking the cell `x` behind `t`. -/
theorem Seg.remove (h : Seg next p (l₁ ++ t :: x :: l₂) none) :
    Seg (Function.update (Function.update next t (next x)) x none) p (l₁ ++ t :: l₂) none := by
  have hn := h.nodup
  obtain ⟨m, h₁, h₂⟩ := seg_append.1 h
  obtain ⟨rfl, -, h₂⟩ := h₂
  simp only [List.nodup_append, List.nodup_cons, List.mem_cons] at hn
  obtain ⟨-, ⟨ht, hx, -⟩, hd⟩ := hn
  push Not at ht
  have ht₁ : t ∉ l₁ := fun hm => hd t hm t (.inl rfl) rfl
  have hx₁ : x ∉ l₁ := fun hm => hd x hm x (.inr (.inl rfl)) rfl
  refine seg_append.2 ⟨some t, ?_, ?_⟩
  · rw [seg_update hx₁, seg_update ht₁]
    exact h₁
  · simp only [seg_cons, true_and, Function.update_self, Function.update_of_ne ht.1]
    rw [seg_update hx, seg_update ht.2]
    exact h₂

theorem Chain.remove_head (h : Chain next hd tl (x :: l)) :
    Chain (Function.update next x none) (next x) (if hd = tl then none else tl) l := by
  have hx := (List.nodup_cons.1 h.nodup).1
  refine ⟨(seg_update hx).2 h.seg.2, ?_⟩
  cases l with
  | nil => rw [if_pos (h.head_eq_last.2 rfl), List.getLast?_nil]
  | cons y l => rw [if_neg (mt h.head_eq_last.1 (by simp)), h.last, List.getLast?_cons_cons]

theorem Chain.remove (h : Chain next hd tl (l₁ ++ t :: x :: l₂)) :
    Chain (Function.update (Function.update next t (next x)) x none) hd (if tl = some x then some t else tl)
      (l₁ ++ t :: l₂) := by
  refine ⟨h.seg.remove, ?_⟩
  have hx : x ∉ l₂ := (List.nodup_cons.1 (List.nodup_cons.1 (List.nodup_append.1 h.nodup).2.1).2).1
  rw [h.last]
  cases l₂ with
  | nil => simp
  | cons y l₂ =>
    rw [List.getLast?_append_of_ne_nil _ (by simp), List.getLast?_append_of_ne_nil _ (by simp)]
    simp only [List.getLast?_cons_cons]
    rw [if_neg]
    exact fun he => hx (List.mem_of_getLast? he)

end Update

/-! ## Going round a list -/

/-- The cell after `x`, the first one again after the last. -/
def round (next : α → Option α) (hd : Option α) (x : α) : Option α := if next x = none then hd else next x

theorem Seg.start (h : Seg next p l (some y)) : p ≠ none := by
  cases l with
  | nil => simp [show p = some y from h]
  | cons x l => simp [h.1]

theorem Seg.round (h : Seg next p l (some y)) : Seg (round next hd) p l (some y) := by
  induction l generalizing p with
  | nil => exact h
  | cons x l ih =>
    refine ⟨h.1, ?_⟩
    rw [Lib.round, if_neg h.2.start]
    exact ih h.2

/-- After the last cell comes the first one. -/
theorem Seg.round_none (h : Seg next (some x) (x :: l) none) : Seg (Lib.round next hd) (some x) (x :: l) hd := by
  induction l generalizing x with
  | nil =>
    have hn : next x = none := h.2
    refine ⟨rfl, ?_⟩
    rw [Lib.round, if_pos hn]
    rfl
  | cons y l ih =>
    have hy : next x = some y := h.2.1
    refine ⟨rfl, ?_⟩
    rw [Lib.round, if_neg (by simp [hy]), hy]
    exact ih ⟨rfl, h.2.2⟩

theorem Chain.round_mem (h : Chain next hd tl l) (hx : x ∈ l) : ∃ y ∈ l, Lib.round next hd x = some y := by
  obtain ⟨l₁, l₂, rfl, -, h₂⟩ := h.seg.from_mem hx
  cases l₂ with
  | nil =>
    obtain ⟨y, hy⟩ : ∃ y, hd = some y := Option.ne_none_iff_exists'.1 fun hn => by simp [h.head_none.1 hn] at hx
    have hn : next x = none := h₂.2
    refine ⟨y, ?_, by rw [Lib.round, if_pos hn, hy]⟩
    rw [h.head] at hy
    exact List.mem_of_mem_head? hy
  | cons y l₂ =>
    have hy : next x = some y := h₂.2.1
    exact ⟨y, by simp, by rw [Lib.round, if_neg (by simp [hy]), hy]⟩

/-- Going round from a cell of the list, each cell of the list is met before the round is over. -/
theorem Chain.round_seg (h : Chain next hd tl l) (hx : x ∈ l) (hy : y ∈ l) :
    ∃ m, Seg (Lib.round next hd) (some x) m (some y) ∧ m.length < l.length ∧ ∀ z ∈ m, z ∈ l := by
  obtain ⟨l₁, l₂, rfl, h₁, h₂⟩ := h.seg.from_mem hx
  by_cases hy₂ : y ∈ x :: l₂
  · obtain ⟨m, l₃, he, hm, -⟩ := h₂.from_mem hy₂
    refine ⟨m, hm.round, ?_, fun z hz => ?_⟩
    · rw [he]
      simp only [List.length_append, List.length_cons]
      omega
    · rw [he]
      simp [hz]
  · have hy₁ : y ∈ l₁ := (List.mem_append.1 hy).resolve_right hy₂
    obtain ⟨m, l₃, rfl⟩ := List.append_of_mem hy₁
    obtain ⟨z, hm, rfl, -⟩ := seg_append.1 h₁
    refine ⟨x :: l₂ ++ m, seg_append.2 ⟨hd, h₂.round_none, hm.round⟩, ?_, fun z hz => ?_⟩
    · simp only [List.length_append, List.length_cons]
      omega
    · rcases List.mem_append.1 hz with hz | hz
      · exact List.mem_append_right _ hz
      · simp [hz]

end Lib
