import Mathlib.Data.List.Sort
import Mathlib.Data.Fintype.Basic
import Mathlib.Data.Fintype.Card
import Pcsea.ReadyQueue
import Pcsea.Lib.Ring
/-!
# What the macros of `queue.h` do

On a well-formed ring they return, fail no assertion, and compute the list
operations one expects.
-/

namespace Pcsea

open Lib

/-- `head_queue` is the ring of the processes `q`, the first to leave last. -/
def Ready (next prev : Maillon → Option Maillon) (q : List Slot) : Prop := DRing next prev .head (q.map .elem)

theorem slots_length {l : List Slot} (h : l.Nodup) : l.length ≤ PROCESS_TABLE_SIZE := by
  have := h.length_le_card
  rwa [Fintype.card_fin] at this

theorem map_elem_nodup {q : List Slot} : (Maillon.head :: q.map Maillon.elem).Nodup ↔ q.Nodup := by
  have hi : Function.Injective Maillon.elem := fun _ _ h => Maillon.elem.inj h
  simp [List.nodup_map_iff hi]

theorem mem_map_elem {q : List Slot} {i : Slot} : Maillon.elem i ∈ Maillon.head :: q.map Maillon.elem ↔ i ∈ q := by
  simp

variable {s : St} {next prev : Maillon → Option Maillon} {q l : List Slot} {e i : Slot} {cur : Maillon}

theorem Ready.distinct (h : Ready next prev q) : q.Nodup := map_elem_nodup.1 h.nodup

/-- The links of a process out of the ring are NULL. -/
theorem Ready.unlinked (h : Ready next prev q) (hi : i ∉ q) : next (.elem i) = none ∧ prev (.elem i) = none :=
  h.off _ (mt mem_map_elem.1 hi)

theorem Ready.linked (h : Ready next prev q) (hi : i ∈ q) :
    (next (.elem i)).isSome = true ∧ (prev (.elem i)).isSome = true :=
  DRing.linked h (mem_map_elem.2 hi)

theorem Ready.zero : Ready St.zero.next St.zero.prev [] := by
  refine ⟨by simp [St.zero], by simp, ?_⟩
  intro x hx
  simp only [List.map_nil, List.mem_singleton] at hx
  simp [St.zero, hx]

theorem queueEmpty_iff (h : Ready s.next s.prev q) : queueEmpty s = true ↔ q = [] := by
  obtain ⟨c, B, hc⟩ := exists_cut (q.map Maillon.elem) .head
  have hn := (DRing.split h (List.nil_append _).symm hc).2.1
  rw [List.getLastD_nil] at hn
  rw [queueEmpty, decide_eq_true_iff, hn]
  cases q with
  | nil =>
    obtain ⟨rfl, -⟩ := List.cons.inj hc
    simp
  | cons x q =>
    obtain ⟨rfl, -⟩ := List.cons.inj hc
    simp

/-! ## Insertion -/

/-- Place in front of the first process of the same priority or a higher one. -/
def parPrio (s : St) (e : Slot) (q : List Slot) : List Slot := q.orderedInsert (fun a b => s.prio a ≤ s.prio b) e

theorem parPrio_perm : (parPrio s e q).Perm (e :: q) := List.perm_orderedInsert ..

@[simp] theorem mem_parPrio : i ∈ parPrio s e q ↔ i = e ∨ i ∈ q := List.mem_orderedInsert ..

/-- The ring is kept by rising priority. -/
theorem parPrio_sorted (h : q.Pairwise fun i j => s.prio i ≤ s.prio j) :
    (parPrio s e q).Pairwise fun i j => s.prio i ≤ s.prio j := by
  have : Std.Total fun i j : Slot => s.prio i ≤ s.prio j := ⟨fun i j => Nat.le_total _ _⟩
  have : IsTrans Slot fun i j => s.prio i ≤ s.prio j := ⟨fun i j k => Nat.le_trans⟩
  exact h.orderedInsert e

theorem queueAddScan_spec (h : Path s.next s.prev cur (l.map .elem ++ [.head])) {n : Nat} (hn : l.length < n) :
    ∃ l₁ l₂ c B, l = l₁ ++ l₂ ∧ l₂.map Maillon.elem ++ [.head] = c :: B ∧ queueAddScan s (s.prio e) n cur = .ok c ∧
      parPrio s e l = l₁ ++ e :: l₂ := by
  induction l generalizing cur n with
  | nil =>
    obtain ⟨n, rfl⟩ := Nat.exists_eq_add_of_lt hn
    obtain ⟨h, -⟩ := h
    exact ⟨[], [], .head, [], rfl, rfl, by simp [queueAddScan, h], rfl⟩
  | cons x l ih =>
    cases n with
    | zero => omega
    | succ n =>
      obtain ⟨hx, -, h⟩ := h
      by_cases hp : s.prio x < s.prio e
      · obtain ⟨l₁, l₂, c, B, rfl, hc, hs, hi⟩ := ih h (by simpa using hn)
        refine ⟨x :: l₁, l₂, c, B, rfl, hc, by simp [queueAddScan, hx, hp, hs], ?_⟩
        unfold parPrio at hi ⊢
        rw [List.cons_append, List.orderedInsert_cons, if_neg (by omega), hi]
      · refine ⟨[], x :: l, .elem x, _, rfl, rfl, by simp [queueAddScan, hx, hp], ?_⟩
        unfold parPrio
        rw [List.orderedInsert_cons, if_pos (by omega)]
        rfl

theorem queueAdd_spec (h : Ready s.next s.prev q) (he : e ∉ q) :
    ∃ next prev, queueAdd e s = .ok { s with next, prev } ∧ Ready next prev (parPrio s e q) := by
  obtain ⟨hnext, hprev⟩ := h.unlinked he
  obtain ⟨l₁, l₂, c, B, rfl, hc, hs, hi⟩ :=
    queueAddScan_spec (e := e) h.path (Nat.lt_succ_of_le (slots_length h.distinct))
  have hl : (l₁ ++ l₂).map Maillon.elem = l₁.map .elem ++ l₂.map .elem := List.map_append
  obtain ⟨-, -, hpc, -⟩ := DRing.split h hl hc
  have hce : c ≠ .elem e := by
    rintro rfl
    have hm : Maillon.elem e ∈ l₂.map Maillon.elem ++ [.head] := by rw [hc]; simp
    simp only [List.mem_append, List.mem_map, Maillon.elem.injEq, exists_eq_right, List.mem_singleton,
      reduceCtorEq, or_false] at hm
    exact he (List.mem_append_right _ hm)
  have hr := DRing.insert h hl hc (mt mem_map_elem.1 he)
  rw [← List.map_cons, ← List.map_append, ← hi] at hr
  refine ⟨_, _, ?_, hr⟩
  simp [queueAdd, hnext, hprev, hs, St.setNext, St.setPrev, Function.update_of_ne hce, hpc]

/-! ## Removal -/

theorem queueDel_spec {q₁ q₂ : List Slot} (h : Ready s.next s.prev (q₁ ++ e :: q₂)) :
    ∃ next prev, queueDel e s = .ok { s with next, prev } ∧ Ready next prev (q₁ ++ q₂) := by
  obtain ⟨c, B, hc⟩ := exists_cut (q₂.map Maillon.elem) .head
  have hl : (q₁ ++ e :: q₂).map Maillon.elem = q₁.map .elem ++ .elem e :: q₂.map .elem := by simp
  have hl' : (q₁ ++ e :: q₂).map Maillon.elem = (q₁.map .elem ++ [.elem e]) ++ q₂.map .elem := by simp
  obtain ⟨-, -, hpe, -⟩ := DRing.split h hl rfl
  obtain ⟨-, hne, -⟩ := DRing.split h hl' hc
  rw [List.getLastD_concat] at hne
  have hr := DRing.remove h hl hc
  rw [← List.map_append] at hr
  refine ⟨_, _, ?_, hr⟩
  have hu : Function.update s.next ((q₁.map Maillon.elem).getLastD .head) (some c) (.elem e) = some c := by
    by_cases heq : Maillon.elem e = (q₁.map Maillon.elem).getLastD .head
    · rw [heq, Function.update_self]
    · rw [Function.update_of_ne heq, hne]
  simp only [queueDel, hpe, hne, St.setNext, St.setPrev, Option.isSome_some, Bool.and_self, assert_true, ok_bind,
    deref_some, hu]

/-- The last process of the list, taken out; NULL on the empty queue. -/
theorem queueOut_spec (h : Ready s.next s.prev (q ++ [e])) :
    ∃ next prev, queueOut s = .ok (some e, { s with next, prev }) ∧ Ready next prev q := by
  have hl : (q ++ [e]).map Maillon.elem = q.map .elem ++ .elem e :: [] := by simp
  have hl' : (q ++ [e]).map Maillon.elem = (q.map .elem ++ [.elem e]) ++ [] := by simp
  obtain ⟨-, -, hpe, -⟩ := DRing.split h hl rfl
  obtain ⟨-, -, hph, -⟩ := DRing.split h hl' rfl
  rw [List.getLastD_concat] at hph
  have hne : queueEmpty s = false := by
    rw [Bool.eq_false_iff, ne_eq, queueEmpty_iff h]
    simp
  have hr := DRing.remove h hl rfl
  rw [List.append_nil] at hr
  refine ⟨_, _, ?_, hr⟩
  simp [queueOut, hne, hph, hpe, St.setNext, St.setPrev, queueEntry]

theorem queueTop_nil (h : Ready s.next s.prev []) : queueTop s = .ok none := by
  simp [queueTop, (queueEmpty_iff h).2 rfl]

theorem queueTop_spec (h : Ready s.next s.prev (q ++ [e])) : queueTop s = .ok (some e) := by
  have hne : queueEmpty s = false := by
    rw [Bool.eq_false_iff, ne_eq, queueEmpty_iff h]
    simp
  have hl' : (q ++ [e]).map Maillon.elem = (q.map .elem ++ [.elem e]) ++ [] := by simp
  obtain ⟨-, -, hph, -⟩ := DRing.split h hl' rfl
  rw [List.getLastD_concat] at hph
  simp [queueTop, hne, hph, queueEntry]

/-! ## Search -/

theorem queueFind_path {pid : Int} {n : Nat} (h : Path s.next s.prev cur (l.map .elem ++ [.head])) (hn : l.length < n) :
    queueFind s pid n cur = .ok (l.find? (fun i => s.pid i = pid)) := by
  induction l generalizing cur n with
  | nil =>
    obtain ⟨n, rfl⟩ := Nat.exists_eq_add_of_lt hn
    simp [queueFind, h.1]
  | cons x l ih =>
    cases n with
    | zero => omega
    | succ n =>
      obtain ⟨hx, -, h⟩ := h
      by_cases hp : s.pid x = pid
      · simp [queueFind, hx, hp]
      · simp [queueFind, hx, hp, ih h (by simpa using hn)]

theorem queueFind_spec (h : Ready s.next s.prev q) (pid : Int) :
    queueFind s pid (PROCESS_TABLE_SIZE + 1) .head = .ok (q.find? (fun i => s.pid i = pid)) :=
  queueFind_path h.path (Nat.lt_succ_of_le (slots_length h.distinct))

end Pcsea
