import Mathlib.Data.List.Perm.Subperm
import Pcsea.Lib.Cycle
import Pcsea.WaitFifoSpec
/-!
# The waiting rings, exactly

`Ronde h fifo l xs`: the fifo goes round the cells `l`, which hold the
processes `xs`, oldest first. `add_process` adds last, `extract_process` takes
the first out.
-/

namespace Pcsea

open Lib

variable {π : Type} {h h' : Heap π} {fifo new : FifoProcess} {a b : Nat} {l : List Nat} {x : π} {xs : List π}

/-- `cell->next`. -/
def Heap.suiv (h : Heap π) (b : Nat) : Option Nat := (h.cell b).bind ForFifoProcess.next

structure Ronde (h : Heap π) (fifo : FifoProcess) (l : List Nat) (xs : List π) : Prop where
  loop : Loop h.suiv fifo l
  procs : l.map (fun b => (h.cell b).map ForFifoProcess.process) = xs.map some

theorem Ronde.empty (h : Heap π) : Ronde h none [] [] := ⟨.empty, rfl⟩

theorem Ronde.none_iff (hr : Ronde h fifo l xs) : fifo = none ↔ xs = [] := by
  rw [hr.loop.tail_none]
  have hlen := congrArg List.length hr.procs
  rw [List.length_map, List.length_map] at hlen
  rw [← List.length_eq_zero_iff, ← List.length_eq_zero_iff, hlen]

/-- The cells of the ring are allocated, and hold its processes. -/
theorem Ronde.cell (hr : Ronde h fifo l xs) (hb : b ∈ l) : ∃ c, h.cell b = some c ∧ c.process ∈ xs := by
  have hm : (h.cell b).map ForFifoProcess.process ∈ xs.map some := by
    rw [← hr.procs]
    exact List.mem_map_of_mem hb
  obtain ⟨x, hx, he⟩ := List.mem_map.1 hm
  obtain ⟨c, hc, rfl⟩ := Option.map_eq_some_iff.1 he.symm
  exact ⟨c, hc, hx⟩

theorem Ronde.lt (hr : Ronde h fifo l xs) (hb : b ∈ l) : b < h.length := by
  obtain ⟨c, hc, -⟩ := hr.cell hb
  exact Heap.cell_lt hc

theorem Ronde.congr (hr : Ronde h fifo l xs) (hc : ∀ b ∈ l, Heap.cell h' b = h.cell b) : Ronde h' fifo l xs := by
  refine ⟨hr.loop.congr fun b hb => by rw [Heap.suiv, Heap.suiv, hc b hb], ?_⟩
  rw [← hr.procs]
  exact List.map_congr_left fun b hb => by rw [hc b hb]

theorem Ronde.length_le (hr : Ronde h fifo l xs) : xs.length ≤ h.length := by
  have hlen := congrArg List.length hr.procs
  rw [List.length_map, List.length_map] at hlen
  rw [← hlen, ← List.length_range (n := h.length)]
  exact (hr.loop.nodup.subperm fun b hb => List.mem_range.2 (hr.lt hb)).length_le

/-- The first process of the ring is the one that has waited longest. -/
theorem Ronde.premier (hr : Ronde h fifo l xs) : premier h fifo = xs.head? := by
  cases fifo with
  | none =>
    rw [hr.none_iff.1 rfl]
    rfl
  | some t =>
    obtain ⟨c, hc, -⟩ := hr.cell hr.loop.tail_mem
    have hn : c.next = l.head? := by
      rw [← hr.loop.next_tail, Heap.suiv, hc]
      rfl
    cases l with
    | nil => exact absurd hr.loop.tail_mem (by simp)
    | cons b l =>
      cases xs with
      | nil => cases hr.procs
      | cons x xs =>
        have hp := (List.cons.inj hr.procs).1
        obtain ⟨d, hd, hx⟩ := Option.map_eq_some_iff.1 hp
        simp [Pcsea.premier, hc, hn, hd, hx]

/-- `add_process` on a ring. -/
theorem addProcess_ronde (hr : Ronde h fifo l xs) (x : π) :
    ∃ h', addProcess fifo x h = .ok (some h.length, h') ∧ h'.length = h.length + 1 ∧
      Ronde h' (some h.length) (l ++ [h.length]) (xs ++ [x]) ∧ ∀ b, b ≠ h.length → b ∉ l → Heap.cell h' b = h.cell b := by
  obtain ⟨⟨new, h'⟩, ho⟩ : ∃ r, addProcess fifo x h = .ok r := by
    cases fifo with
    | none => exact ⟨_, rfl⟩
    | some t =>
      obtain ⟨c, hc, -⟩ := hr.cell hr.loop.tail_mem
      have hread : Heap.read (h ++ [some ⟨x, none⟩]) t = .ok c := by
        rw [Heap.read_eq_ok, Heap.cell_append, if_neg (Nat.ne_of_lt (Heap.cell_lt hc)), hc]
      exact ⟨_, by simp only [addProcess, initElement, hread, ok_bind]; rfl⟩
  obtain ⟨rfl, hlen, hcell⟩ := addProcess_cell (fun t ht => hr.lt (by subst ht; exact hr.loop.tail_mem)) ho
  have hnew : h.length ∉ l := fun hm => Nat.lt_irrefl _ (hr.lt hm)
  refine ⟨h', ho, hlen, ?_⟩
  -- The first cell points to itself, the others go behind the tail.
  rcases hcell with ⟨rfl, hcell⟩ | ⟨t, c, rfl, hc, hcell⟩
  · obtain rfl := hr.loop.tail_none.1 rfl
    obtain rfl := hr.none_iff.1 rfl
    refine ⟨⟨⟨rfl, ⟨rfl, ?_⟩, by simp⟩, ?_⟩, fun b hb _ => by rw [hcell, if_neg hb]⟩
    · rw [Heap.suiv, hcell, if_pos rfl]
      rfl
    · simp [hcell]
  · have hne : ∀ b ∈ l, b ≠ h.length := fun b hb => ne_of_mem_of_not_mem hb hnew
    have htl := hr.loop.tail_mem
    refine ⟨⟨hr.loop.push hnew ?_ ?_ ?_, ?_⟩, fun b hb hbl => ?_⟩
    · rw [Heap.suiv, hcell, if_pos rfl]
      have hn := hr.loop.next_tail
      rw [Heap.suiv, hc] at hn
      cases l with
      | nil => simp at htl
      | cons b l => exact hn
    · rintro t' ⟨⟩
      rw [Heap.suiv, hcell, if_neg (hne t htl), if_pos rfl]
      rfl
    · intro b hb hbt
      rw [Heap.suiv, hcell, if_neg (hne b hb), if_neg (fun he => hbt (by rw [he])), Heap.suiv]
    · rw [List.map_append, List.map_append, ← hr.procs]
      congr 1
      · refine List.map_congr_left fun b hb => ?_
        rw [hcell, if_neg (hne b hb)]
        split
        · next he => rw [he, hc]; rfl
        · rfl
      · simp [hcell]
    · rw [hcell, if_neg hb, if_neg (ne_of_mem_of_not_mem htl hbl).symm]

/-- `extract_process` on a ring. -/
theorem extractProcess_ronde (hr : Ronde h fifo (a :: l) (x :: xs)) :
    ∃ new h', extractProcess fifo h = .ok (new, some x, h') ∧ h'.length = h.length ∧ Ronde h' new l xs ∧
      ∀ b, b ∉ a :: l → Heap.cell h' b = h.cell b := by
  obtain ⟨t, rfl⟩ : ∃ t, fifo = some t := by
    refine Option.ne_none_iff_exists'.1 fun hn => ?_
    cases hr.none_iff.1 hn
  obtain ⟨c, hc, -⟩ := hr.cell hr.loop.tail_mem
  have hn : c.next = some a := by
    have hn := hr.loop.next_tail
    rwa [Heap.suiv, hc] at hn
  obtain ⟨d, hd, rfl⟩ := Option.map_eq_some_iff.1 (List.cons.inj hr.procs).1
  have hprocs := (List.cons.inj hr.procs).2
  obtain ⟨hal, hnd⟩ := List.nodup_cons.1 hr.loop.nodup
  obtain ⟨r, ho, hnew⟩ : ∃ r, extractProcess (some t) h = .ok r ∧ r.1 = if a = t then none else some t := by
    simp only [extractProcess, Heap.read_eq_ok.2 hc, hn, Heap.read_eq_ok.2 hd, ok_bind, deref_some]
    split <;> exact ⟨_, rfl, rfl⟩
  obtain ⟨new, o, h'⟩ := r
  dsimp only at hnew
  rcases extractProcess_cell ho with ⟨ht, -⟩ | ⟨t', c', a', d', ht, hc', hn', hd', rfl, hlen, -, hcell⟩
  · cases ht
  obtain rfl := Option.some.inj ht
  obtain rfl : c = c' := Option.some.inj (hc.symm.trans hc')
  obtain rfl : a = a' := Option.some.inj (hn.symm.trans hn')
  obtain rfl : d = d' := Option.some.inj (hd.symm.trans hd')
  refine ⟨new, h', ho, hlen, ?_, fun b hb => ?_⟩
  -- The only cell is the tail and the head at once.
  · by_cases hl : l = []
    · subst hl
      obtain rfl : a = t := by
        have hlast := hr.loop.last
        simpa using hlast.symm
      rw [if_pos rfl] at hnew
      subst hnew
      obtain rfl : xs = [] := by simpa using hprocs.symm
      exact .empty h'
    · have hne : ∀ b ∈ l, b ≠ a := fun b hb => ne_of_mem_of_not_mem hb hal
      have hta : t ≠ a := by
        have hlast := hr.loop.last
        rw [List.getLast?_cons_of_ne_nil hl] at hlast
        exact hne t (List.mem_of_getLast? hlast.symm)
      have hsuiv : h'.suiv t = h.suiv a := by
        rw [Heap.suiv, hcell, if_neg hta, if_pos rfl, Heap.suiv, hd]
        rfl
      have hreste : ∀ b ∈ l, b ≠ t → h'.suiv b = h.suiv b := fun b hb hbt => by
        rw [Heap.suiv, hcell, if_neg (hne b hb), if_neg hbt, Heap.suiv]
      rw [if_neg hta.symm] at hnew
      subst hnew
      refine ⟨hr.loop.pop hl hsuiv hreste, ?_⟩
      rw [← hprocs]
      refine List.map_congr_left fun b hb => ?_
      rw [hcell, if_neg (hne b hb)]
      split
      · next he => rw [he, hc]; rfl
      · rfl
  · rw [hcell, if_neg (by rintro rfl; simp at hb), if_neg (by rintro rfl; exact hb hr.loop.tail_mem)]

end Pcsea
