import Mathlib.Data.List.ReduceOption
import Pcsea.Lib.Buffer
import Pcsea.Ronde
/-!
# Sequences of calls on one fifo

`add_process` and `extract_process` from `init_list()`, on the tail that the
call before gave back. `FileNoeuds` is the queue they make: the nodes in it with
their processes, oldest first. Nodes are numbered in the order of the calls to
`mem_alloc`. A fifo goes round without a NULL link, so `getSize` and `contains`
stop on it only where they need not come round.
-/

namespace Pcsea

open Lib

variable {π : Type} {h h₀ h' : Heap π} {fifo : FifoProcess} {a : Nat} {x : π} {l : List Nat} {xs : List π}
  {pid : π → Int} {p : Int} {ops : List (FifoOp π)} {rs : List (FifoProcess × Option π)}

/-! ## The queue -/

structure FileNoeuds (π : Type) where
  alloues : Nat
  noeuds : List (Nat × π)

/-- The newest node. -/
def FileNoeuds.dernier (q : FileNoeuds π) : FifoProcess := q.noeuds.getLast?.map Prod.fst

/-- The tail after a call on the queue, the process that comes out, and the queue. -/
def FileNoeuds.appel : FifoOp π → FileNoeuds π → (FifoProcess × Option π) × FileNoeuds π
  | .push x, q => ((some q.alloues, none), ⟨q.alloues + 1, q.noeuds ++ [(q.alloues, x)]⟩)
  | .pop, ⟨n, []⟩ => ((none, none), ⟨n, []⟩)
  | .pop, ⟨n, (_, x) :: q⟩ => ((FileNoeuds.dernier ⟨n, q⟩, some x), ⟨n, q⟩)

/-- What a sequence of calls gives back, and the queue after it. -/
def FileNoeuds.appels : List (FifoOp π) → FileNoeuds π → List (FifoProcess × Option π) × FileNoeuds π :=
  runTotal FileNoeuds.appel

/-- The queue of the calls `ops` from `init_list()` in the heap `h₀`. -/
def FileNoeuds.depuis (h₀ : Heap π) (ops : List (FifoOp π)) : FileNoeuds π := (appels ops ⟨h₀.length, []⟩).2

/-- The code of a call. -/
def appelFifo : FifoOp π → FifoProcess × Heap π → Except Fault ((FifoProcess × Option π) × FifoProcess × Heap π)
  | .push x, (fifo, h) => do
    let (fifo, h) ← addProcess fifo x h
    .ok ((fifo, none), fifo, h)
  | .pop, (fifo, h) => do
    let (fifo, r, h) ← extractProcess fifo h
    .ok ((fifo, r), fifo, h)

/-- What goes in comes out, in order. -/
theorem FileNoeuds.appels_ordre (ops : List (FifoOp π)) (q : FileNoeuds π) :
    q.noeuds.map Prod.snd ++ ops.filterMap FifoOp.pushed =
      (appels ops q).1.filterMap Prod.snd ++ (appels ops q).2.noeuds.map Prod.snd := by
  induction ops generalizing q with
  | nil => simp [appels, runTotal]
  | cons op ops ih =>
    have hi := ih (appel op q).2
    cases op with
    | push x => simpa [appels, runTotal, appel, FifoOp.pushed] using hi
    | pop =>
      obtain ⟨n, _ | ⟨⟨a, x⟩, q⟩⟩ := q
      · simpa [appels, runTotal, appel, List.filterMap_cons, FifoOp.pushed] using hi
      · simpa [appels, runTotal, appel, List.filterMap_cons, FifoOp.pushed] using hi

/-! ## The fifo is the queue -/

/-- The fifo goes round the nodes of the queue; the other nodes are freed, and the cells of `h₀` as they were. -/
structure Tient (h₀ : Heap π) (q : FileNoeuds π) (fifo : FifoProcess) (h : Heap π) : Prop where
  ronde : Ronde h fifo (q.noeuds.map Prod.fst) (q.noeuds.map Prod.snd)
  alloues : h.length = q.alloues
  debut : h₀.length ≤ h.length
  neufs : ∀ c ∈ q.noeuds, h₀.length ≤ c.1
  anciens : ∀ b, b < h₀.length → h.cell b = h₀.cell b
  libres : ∀ b, h₀.length ≤ b → b ∉ q.noeuds.map Prod.fst → h.cell b = none

variable {q : FileNoeuds π}

theorem Tient.init (h₀ : Heap π) : Tient h₀ ⟨h₀.length, []⟩ initList h₀ where
  ronde := .empty h₀
  alloues := rfl
  debut := le_rfl
  neufs := by simp
  anciens := fun _ _ => rfl
  libres := fun b hb _ => by simp [Heap.cell, List.getElem?_eq_none hb]

theorem Tient.tail (ht : Tient h₀ q fifo h) : fifo = q.dernier := by
  rw [ht.ronde.loop.last, FileNoeuds.dernier, List.getLast?_map]

theorem Tient.neuf (ht : Tient h₀ q fifo h) {b : Nat} (hb : b ∈ q.noeuds.map Prod.fst) : h₀.length ≤ b := by
  obtain ⟨c, hc, rfl⟩ := List.mem_map.1 hb
  exact ht.neufs c hc

theorem Tient.push (ht : Tient h₀ q fifo h) (x : π) :
    ∃ h', addProcess fifo x h = .ok (some q.alloues, h') ∧ Tient h₀ (q.appel (.push x)).2 (some q.alloues) h' := by
  obtain ⟨h', ho, hlen, hr, hc⟩ := addProcess_ronde ht.ronde x
  have hd := ht.debut
  rw [← ht.alloues]
  refine ⟨h', ho, ⟨?_, ?_, by omega, ?_, ?_, ?_⟩⟩
  · simpa [FileNoeuds.appel, ht.alloues] using hr
  · rw [hlen, ht.alloues]
    rfl
  · intro c hm
    rcases List.mem_append.1 hm with hm | hm
    · exact ht.neufs c hm
    · rw [List.mem_singleton.1 hm]
      exact ht.alloues ▸ hd
  · intro b hb
    rw [hc b (by omega) fun hm => Nat.not_lt.2 (ht.neuf hm) hb, ht.anciens b hb]
  · intro b hb hm
    simp only [FileNoeuds.appel, List.map_append, List.mem_append, not_or, ← ht.alloues] at hm
    rw [hc b (by simpa using hm.2) hm.1, ht.libres b hb hm.1]

theorem extractProcess_libre {fifo new : FifoProcess} {r : Option π} (hr : Ronde h fifo (a :: l) xs)
    (ho : extractProcess fifo h = .ok (new, r, h')) (b : Nat) : Heap.cell h' b = none ↔ b = a ∨ h.cell b = none := by
  rcases extractProcess_cell ho with ⟨rfl, -⟩ | ⟨f, c, t, d, rfl, hc, ht, hd, -, -, -, hcell⟩
  · cases hr.loop.tail_none.1 rfl
  · obtain rfl : a = t := by
      have hn := hr.loop.next_tail
      rw [Heap.suiv, hc] at hn
      exact Option.some.inj (hn.symm.trans ht)
    rw [hcell]
    by_cases hb : b = a
    · simp [hb]
    · rw [if_neg hb]
      by_cases hf : b = f
      · simp [hf, hc, hf ▸ hb]
      · simp [hb, hf]

/-- Exactly the oldest node is freed. -/
theorem Tient.pop {n : Nat} {q : List (Nat × π)} (ht : Tient h₀ ⟨n, (a, x) :: q⟩ fifo h) :
    ∃ h', extractProcess fifo h = .ok (FileNoeuds.dernier ⟨n, q⟩, some x, h') ∧
      Tient h₀ ⟨n, q⟩ (FileNoeuds.dernier ⟨n, q⟩) h' ∧ ∀ b, Heap.cell h' b = none ↔ b = a ∨ h.cell b = none := by
  obtain ⟨new, h', ho, hlen, hr, hc⟩ := extractProcess_ronde ht.ronde
  have hlib := extractProcess_libre ht.ronde ho
  have ht' : Tient h₀ ⟨n, q⟩ new h' := by
    refine ⟨hr, hlen.trans ht.alloues, hlen ▸ ht.debut, fun c hm => ht.neufs c (List.mem_cons_of_mem _ hm), ?_, ?_⟩
    · intro b hb
      rw [hc b fun hm => Nat.not_lt.2 (ht.neuf hm) hb, ht.anciens b hb]
    · intro b hb hm
      by_cases hba : b = a
      · exact (hlib b).2 (.inl hba)
      · exact (hlib b).2 (.inr (ht.libres b hb (by simp [hba, hm])))
  exact ⟨h', ht'.tail ▸ ho, ht'.tail ▸ ht', hlib⟩

theorem appelFifo_refines (h₀ : Heap π) :
    Refines (fun op (q : FileNoeuds π) => some (q.appel op)) appelFifo (fun q s => Tient h₀ q s.1 s.2) := by
  rintro op q r q' ⟨fifo, h⟩ ht ho
  cases op with
  | push x =>
    obtain ⟨h', ha, ht'⟩ := ht.push x
    cases ho
    exact ⟨(some q.alloues, h'), by simp [appelFifo, ha], ht'⟩
  | pop =>
    obtain ⟨n, _ | ⟨⟨a, x⟩, q⟩⟩ := q
    · obtain rfl := ht.tail
      cases ho
      exact ⟨(none, h), rfl, ht⟩
    · obtain ⟨h', he, ht', -⟩ := ht.pop
      cases ho
      exact ⟨(FileNoeuds.dernier ⟨n, q⟩, h'), by simp [appelFifo, he], ht'⟩

theorem appelFifo_appels (h₀ : Heap π) (ops : List (FifoOp π)) :
    ∃ fifo h, execAll appelFifo ops (initList, h₀) = .ok ((FileNoeuds.appels ops ⟨h₀.length, []⟩).1, fifo, h) ∧
      Tient h₀ (.depuis h₀ ops) fifo h := by
  have hinit : (fun q (s : FifoProcess × Heap π) => Tient h₀ q s.1 s.2) ⟨h₀.length, []⟩ (initList, h₀) := Tient.init h₀
  obtain ⟨⟨fifo, h⟩, ho, ht⟩ := (appelFifo_refines h₀).execAll hinit (runAll_runTotal ops _)
  exact ⟨fifo, h, ho, ht⟩

/-- Every sequence of calls gives back what the queue gives back. The fifo is NULL or a circular chain of
the nodes of the queue, held by the newest; the next extraction frees the oldest node, and no other. -/
theorem wait_fifo_refines (h₀ : Heap π) (ops : List (FifoOp π)) :
    ∃ fifo h, execAll appelFifo ops (initList, h₀) = .ok ((FileNoeuds.appels ops ⟨h₀.length, []⟩).1, fifo, h) ∧
      let q := (FileNoeuds.depuis h₀ ops).noeuds
      Ronde h fifo (q.map Prod.fst) (q.map Prod.snd) ∧ (fifo = none ↔ q = []) ∧
      fifo = (q.map Prod.fst).getLast? ∧ fifo.bind h.suiv = (q.map Prod.fst).head? ∧
      ops.filterMap FifoOp.pushed =
        (FileNoeuds.appels ops ⟨h₀.length, []⟩).1.filterMap Prod.snd ++ q.map Prod.snd ∧
      (∀ b, b < h₀.length → h.cell b = h₀.cell b) ∧ (∀ b, h₀.length ≤ b → (h.cell b ≠ none ↔ b ∈ q.map Prod.fst)) ∧
      ∀ a x q', q = (a, x) :: q' → ∃ new h', extractProcess fifo h = .ok (new, some x, h') ∧ (new = none ↔ q' = []) ∧
        a ∉ q'.map Prod.fst ∧ ∀ b, Heap.cell h' b = none ↔ b = a ∨ h.cell b = none := by
  obtain ⟨fifo, h, ho, ht⟩ := appelFifo_appels h₀ ops
  refine ⟨fifo, h, ho, ht.ronde, ?_, ht.ronde.loop.last, ?_, ?_, ht.anciens, fun b hb => ⟨fun hc => ?_, fun hm => ?_⟩, ?_⟩
  · simpa using ht.ronde.none_iff
  · have hl := ht.ronde.loop
    cases hf : fifo with
    | none =>
      rw [hl.tail_none.1 hf]
      rfl
    | some t =>
      rw [hf] at hl
      exact hl.next_tail
  · exact FileNoeuds.appels_ordre ops ⟨h₀.length, []⟩
  · by_contra hm
    exact hc (ht.libres b hb hm)
  · obtain ⟨c, hc, -⟩ := ht.ronde.cell hm
    simp [hc]
  -- The next process out is the one at the head.
  · intro a x q' hq
    generalize FileNoeuds.depuis h₀ ops = q at *
    obtain ⟨n, l⟩ := q
    obtain rfl : l = (a, x) :: q' := hq
    obtain ⟨h', he, ht', hlib⟩ := ht.pop
    refine ⟨_, h', he, by simpa using ht'.ronde.none_iff, ?_, hlib⟩
    exact (List.nodup_cons.1 ht.ronde.loop.nodup).1

/-! ## Traversals -/

theorem Ronde.suivant (hr : Ronde h fifo l xs) (ha : a ∈ l) :
    ∃ c b, h.cell a = some c ∧ c.process ∈ xs ∧ c.next = some b ∧ b ∈ l := by
  obtain ⟨c, hc, hx⟩ := hr.cell ha
  obtain ⟨b, hb, hn⟩ := hr.loop.next_mem ha
  rw [Heap.suiv, hc] at hn
  exact ⟨c, b, hc, hx, hn, hb⟩

theorem Ronde.getSizeLoop (hr : Ronde h fifo l xs) (n : Nat) (ha : a ∈ l) : getSizeLoop h n (some a) = .error .diverge := by
  induction n generalizing a with
  | zero => rfl
  | succ n ih =>
    obtain ⟨c, b, hc, -, hn, hb⟩ := hr.suivant ha
    rw [Pcsea.getSizeLoop, Heap.read_eq_ok.2 hc, ok_bind, hn, ih hb]
    rfl

theorem Ronde.containsLoop_absent (hr : Ronde h fifo l xs) (hp : ∀ x ∈ xs, pid x ≠ p) (n : Nat) (ha : a ∈ l) :
    containsLoop pid h p n (some a) = .error .diverge := by
  induction n generalizing a with
  | zero => rfl
  | succ n ih =>
    obtain ⟨c, b, hc, hx, hn, hb⟩ := hr.suivant ha
    rw [containsLoop, Heap.read_eq_ok.2 hc, ok_bind, if_neg (hp _ hx), hn, ih hb]

/-- The walk along a part of a fifo finds a process of that part. -/
theorem containsLoop_seg {s r : Option Nat} (hs : Seg h.suiv s l r)
    (hl : l.map (fun b => (h.cell b).map ForFifoProcess.process) = xs.map some) (hp : ∃ x ∈ xs, pid x = p) {n : Nat}
    (hn : l.length ≤ n) : containsLoop pid h p n s = .ok true := by
  induction l generalizing s n xs with
  | nil =>
    obtain ⟨x, hx, -⟩ := hp
    obtain rfl : xs = [] := by simpa using hl.symm
    cases hx
  | cons a l ih =>
    obtain ⟨rfl, hs⟩ := hs
    obtain ⟨n, rfl⟩ : ∃ m, n = m + 1 := ⟨n - 1, by simp at hn; omega⟩
    obtain _ | ⟨x, xs⟩ := xs
    · cases hl
    obtain ⟨c, hc, rfl⟩ := Option.map_eq_some_iff.1 (List.cons.inj hl).1
    rw [containsLoop, Heap.read_eq_ok.2 hc, ok_bind]
    split
    · rfl
    · next hne =>
      rw [Heap.suiv, hc] at hs
      refine ih hs (List.cons.inj hl).2 ?_ (by simpa using hn)
      obtain ⟨y, hy, hpy⟩ := hp
      rcases List.mem_cons.1 hy with rfl | hy
      · exact absurd hpy hne
      · exact ⟨y, hy, hpy⟩

theorem Ronde.contains_present (hr : Ronde h fifo l xs) (hp : ∃ x ∈ xs, pid x = p) : contains pid fifo p h = .ok true := by
  obtain ⟨x, hx, hpx⟩ := hp
  obtain ⟨t, rfl⟩ : ∃ t, fifo = some t := Option.ne_none_iff_exists'.1 fun hn => by simp [hr.none_iff.1 hn] at hx
  obtain ⟨c, hc, -⟩ := hr.cell hr.loop.tail_mem
  have hn : c.next = l.head? := by
    rw [← hr.loop.next_tail, Heap.suiv, hc]
    rfl
  rw [contains, containsLoop, Heap.read_eq_ok.2 hc, ok_bind]
  -- The newest node is seen first, then the others from the oldest on.
  split
  · rfl
  · have hlen := congrArg List.length hr.procs
    rw [List.length_map, List.length_map] at hlen
    rw [hn]
    exact containsLoop_seg hr.loop.seg hr.procs ⟨x, hx, hpx⟩ (hlen ▸ hr.length_le)

theorem Ronde.tail_mem_of_ne (hr : Ronde h fifo l xs) (hx : xs ≠ []) : ∃ t, fifo = some t ∧ t ∈ l := by
  obtain ⟨t, rfl⟩ := Option.ne_none_iff_exists'.1 (mt hr.none_iff.1 hx)
  exact ⟨t, rfl, hr.loop.tail_mem⟩

theorem Ronde.getSize_iff (hr : Ronde h fifo l xs) : getSize fifo h = .ok (xs.length : Int) ↔ xs = [] := by
  constructor
  · intro ho
    by_contra hx
    obtain ⟨t, rfl, ht⟩ := hr.tail_mem_of_ne hx
    rw [getSize, hr.getSizeLoop _ ht] at ho
    cases ho
  · rintro rfl
    rw [hr.none_iff.2 rfl]
    rfl

theorem Ronde.contains_iff (hr : Ronde h fifo l xs) (pid : π → Int) (p : Int) :
    contains pid fifo p h = .ok (decide (∃ x ∈ xs, pid x = p)) ↔ xs = [] ∨ ∃ x ∈ xs, pid x = p := by
  by_cases hp : ∃ x ∈ xs, pid x = p
  · simp [hp, hr.contains_present hp]
  · by_cases hx : xs = []
    · subst hx
      rw [hr.none_iff.2 rfl]
      simp [contains, containsLoop]
    · obtain ⟨t, rfl, ht⟩ := hr.tail_mem_of_ne hx
      rw [contains, hr.containsLoop_absent (fun x hm he => hp ⟨x, hm, he⟩) (h.length + 1) ht]
      simp [hp, hx]

/-- After every sequence of calls, `getSize` counts the processes of the empty fifo only, and goes round any other for
ever; `contains` finds every process of the fifo, and goes round for ever where the pid is absent. -/
theorem traversals_exact (h₀ : Heap π) (ops : List (FifoOp π)) :
    ∃ rs fifo h xs, execAll appelFifo ops (initList, h₀) = .ok (rs, fifo, h) ∧
      ops.filterMap FifoOp.pushed = rs.filterMap Prod.snd ++ xs ∧
      (getSize fifo h = .ok (xs.length : Int) ↔ xs = []) ∧ (xs ≠ [] → ∀ n, getSizeLoop h n fifo = .error .diverge) ∧
      ∀ (pid : π → Int) (p : Int),
        (contains pid fifo p h = .ok (decide (∃ x ∈ xs, pid x = p)) ↔ xs = [] ∨ ∃ x ∈ xs, pid x = p) ∧
        (xs ≠ [] → (∀ x ∈ xs, pid x ≠ p) → ∀ n, containsLoop pid h p n fifo = .error .diverge) := by
  obtain ⟨fifo, h, ho, ht⟩ := appelFifo_appels h₀ ops
  refine ⟨_, fifo, h, _, ho, FileNoeuds.appels_ordre ops ⟨h₀.length, []⟩, ht.ronde.getSize_iff, fun hx n => ?_,
    fun pid p => ⟨ht.ronde.contains_iff pid p, fun hx hp n => ?_⟩⟩
  · obtain ⟨t, rfl, hm⟩ := ht.ronde.tail_mem_of_ne hx
    exact ht.ronde.getSizeLoop n hm
  · obtain ⟨t, rfl, hm⟩ := ht.ronde.tail_mem_of_ne hx
    exact ht.ronde.containsLoop_absent hp n hm

/-- One process in the fifo: `getSize` does not return, nor `contains` with another pid. -/
theorem traversals_exact_fails : ¬∀ (h₀ : Heap Int) (ops : List (FifoOp Int)) rs fifo h,
    execAll appelFifo ops (initList, h₀) = .ok (rs, fifo, h) →
      getSize fifo h = .ok (((ops.filterMap FifoOp.pushed).length - (rs.filterMap Prod.snd).length : Nat) : Int) ∧
      ∀ p, ∃ b, contains id fifo p h = .ok b := by
  intro hall
  have hrun : execAll appelFifo [.push 5] (initList, ([] : Heap Int)) =
      .ok ([(some 0, none)], some 0, [some ⟨5, some 0⟩]) := rfl
  obtain ⟨hsize, -⟩ := hall _ _ _ _ _ hrun
  cases hsize

end Pcsea
