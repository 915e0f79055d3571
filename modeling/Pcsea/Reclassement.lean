import Pcsea.FilePrio
import Pcsea.ProcessSpec
/-!
# `chprio` moves a process while it goes round the ring

The traversal goes on from the new place of the process it has moved. Wherever
that is, what is left of the ring holds other processes only.
-/

namespace Pcsea

open Lib

variable {s s' : St} {q l : List Slot} {a x : Slot} {cur : Maillon} {n : Nat} {pid newprio : Int}

/-- The processes that the `queue_for_each` of `chprio` takes out and puts back, in order. -/
def deplaces (pid newprio : Int) : Nat → Maillon → St → List Slot
  | 0, _, _ => []
  | n + 1, cur, s =>
    match s.next cur with
    | none => []
    | some .head => []
    | some (.elem i) =>
      if s.pid i = pid then
        match queueDel i s >>= fun s => queueAdd i (s.setPrio i (toUint32 newprio)) with
        | .error _ => []
        | .ok s => i :: deplaces pid newprio n (.elem i) s
      else deplaces pid newprio n (.elem i) s

theorem deplaces_none (h : Path s.next s.prev cur (l.map .elem ++ [.head])) (hl : ∀ i ∈ l, s.pid i ≠ pid) :
    deplaces pid newprio n cur s = [] := by
  induction n generalizing cur l with
  | zero => rfl
  | succ n ih =>
    unfold deplaces
    cases l with
    | nil => rw [h.1]
    | cons y l =>
      obtain ⟨hy, -, h⟩ := h
      rw [hy]
      dsimp only
      rw [if_neg (hl y (by simp))]
      exact ih h fun i hi => hl i (by simp [hi])

theorem deplaces_some {l₁ l₂ : List Slot} (h : Path s.next s.prev cur ((l₁ ++ x :: l₂).map .elem ++ [.head])) (hx : s.pid x = pid)
    (hl : ∀ i ∈ l₁, s.pid i ≠ pid) (ho : (queueDel x s >>= fun s => queueAdd x (s.setPrio x (toUint32 newprio))) = .ok s') :
    deplaces pid newprio (l₁.length + (n + 1)) cur s = x :: deplaces pid newprio n (.elem x) s' := by
  induction l₁ generalizing cur with
  | nil =>
    obtain ⟨hy, -⟩ := h
    rw [List.length_nil, Nat.zero_add, deplaces, hy]
    dsimp only
    rw [if_pos hx, ho]
  | cons y l₁ ih =>
    obtain ⟨hy, -, h⟩ := h
    rw [List.length_cons, Nat.add_right_comm, deplaces, hy]
    dsimp only
    rw [if_neg (hl y (by simp))]
    exact ih h fun i hi => hl i (by simp [hi])

/-- The target is moved exactly once. -/
theorem deplaces_once {q₁ q₂ : List Slot} (h : Ready s.next s.prev (q₁ ++ x :: q₂)) (hne : ∀ i ∈ q₁ ++ q₂, s.pid i ≠ s.pid x) :
    deplaces (s.pid x) newprio (2 * PROCESS_TABLE_SIZE + 1) .head s = [x] := by
  have hlen := slots_length h.distinct
  simp only [List.length_append, List.length_cons] at hlen
  obtain ⟨next, prev, next', prev', m, ho, ho', -, hpath, hm, -⟩ := deplace_spec h (toUint32 newprio)
  have hfuel : 2 * PROCESS_TABLE_SIZE + 1 = q₁.length + ((2 * PROCESS_TABLE_SIZE - q₁.length) + 1) := by omega
  rw [hfuel, deplaces_some h.path rfl (fun i hi => hne i (by simp [hi])) (by rw [ho, ok_bind, ho'])]
  rw [deplaces_none (s := { s with next := next', prev := prev', prio := Function.update s.prio x (toUint32 newprio) }) hpath
    fun i hi => hne i (hm i hi)]

/-- `l` is any order of arrival in which the processes of `q` may have come: it is as if `x` had left and come back last. -/
theorem byKey_reclasse {v : Nat} (hq : q.Nodup) (hl : byKey s.prio l = q) :
    byKey (Function.update s.prio x v) (l.erase x ++ [x]) = parPrio (s.setPrio x v) x (q.erase x) := by
  have hln : l.Nodup := byKey_perm.nodup_iff.1 (hl ▸ hq)
  have hkey : byKey (Function.update s.prio x v) (l.erase x) = byKey s.prio (l.erase x) := by
    refine byKey_congr fun y hy => ?_
    exact Function.update_of_ne (fun he => (hln.mem_erase_iff.1 hy).1 he) ..
  rw [byKey_concat, parPrio_eq, hkey, byKey_erase hln, hl]
  rfl

/-- The traversal ends, moves `x` once and gives its old priority; the ring it leaves is that of the others with `x` as the newest
of its new priority. When no sleeper has that pid, this is all that `chprio` does before `ordonnance()`. -/
def Reclasse (s : St) (q : List Slot) (x : Slot) (newprio : Int) : Prop :=
  ∃ next prev q', chprioActivables (s.pid x) newprio (2 * PROCESS_TABLE_SIZE + 1) .head (-1) s = .ok (toInt32 (s.prio x),
      { s with next, prev, prio := Function.update s.prio x newprio.toNat }) ∧
    deplaces (s.pid x) newprio (2 * PROCESS_TABLE_SIZE + 1) .head s = [x] ∧
    Ready next prev q' ∧ q'.erase x = q.erase x ∧
    (q'.Pairwise fun i j => Function.update s.prio x newprio.toNat i ≤ Function.update s.prio x newprio.toNat j) ∧
    (∀ l, byKey s.prio l = q → q' = byKey (Function.update s.prio x newprio.toNat) (l.erase x ++ [x])) ∧
    ∀ e, Chain s.suiv s.endormiList s.endormiTail e → (∀ i ∈ e, s.pid i ≠ s.pid x) →
      chprioTable (s.pid x) newprio s =
        .ok (toInt32 (s.prio x), { s with next, prev, prio := Function.update s.prio x newprio.toNat })

/-- Whatever the ring, the target and the new priority, the target is treated once. -/
theorem chprio_loop_once (h : Ready s.next s.prev q) (hs : q.Pairwise fun i j => s.prio i ≤ s.prio j)
    (hp : q.Pairwise fun i j => s.pid i ≠ s.pid j) (hx : x ∈ q) (ha : s.actif = some a) (hax : s.pid a ≠ s.pid x)
    (h₁ : 1 ≤ newprio) (h₂ : newprio ≤ MAX_PRIO) : Reclasse s q x newprio := by
  have hv : toUint32 newprio = newprio.toNat := by
    unfold MAX_PRIO at h₂
    simp only [toUint32]
    omega
  obtain ⟨q₁, q₂, rfl⟩ := List.append_of_mem hx
  have hnd := h.distinct
  have hxn : x ∉ q₁ ++ q₂ := (List.nodup_cons.1 (List.nodup_middle.1 hnd)).1
  have herase : (q₁ ++ x :: q₂).erase x = q₁ ++ q₂ := by
    rw [List.erase_append_right _ fun hm => hxn (by simp [hm]), List.erase_cons_head]
  have hne : ∀ i ∈ q₁ ++ q₂, s.pid i ≠ s.pid x := by
    intro i hi
    obtain ⟨-, hp₂, hp₁⟩ := List.pairwise_append.1 hp
    rcases List.mem_append.1 hi with hi | hi
    · exact hp₁ i hi x (by simp)
    · exact ((List.pairwise_cons.1 hp₂).1 i hi).symm
  obtain ⟨next, prev, ho, hr⟩ := chprioActivables_deplace h hne newprio (-1)
  rw [hv] at ho hr
  refine ⟨next, prev, _, ho, deplaces_once h hne, hr, ?_, ?_, fun l hl => ?_, fun e he hpe => ?_⟩
  · have : Std.Refl fun i j => (s.setPrio x newprio.toNat).prio i ≤ (s.setPrio x newprio.toNat).prio j := ⟨fun _ => le_rfl⟩
    rw [herase]
    exact List.erase_orderedInsert x (q₁ ++ q₂)
  · exact parPrio_sorted (s := s.setPrio x newprio.toNat) (reclasse_sorted hs hxn)
  · rw [byKey_reclasse hnd hl, herase]
  · have hlen := slots_length he.nodup
    have hact : deref s.actif = .ok a := by rw [ha, deref_some]
    rw [chprioTable, hact, ok_bind, if_neg hax, ho, ok_bind]
    exact chprioEndormis_none (s := { s with next, prev, prio := Function.update s.prio x newprio.toNat }) newprio
      (toInt32 (s.prio x)) he.seg hpe (by omega)

/-- Process 1 runs; 3 and 2 are ready, in this order. -/
def deuxPrets : St :=
  { St.zero with
    actif := some 1
    pid := fun i => i.val
    prio := fun i => if i = 3 then 2 else 5
    next := fun m => match m with
      | .head => some (.elem 3)
      | .elem i => if i = 3 then some (.elem 2) else if i = 2 then some .head else none
    prev := fun m => match m with
      | .head => some (.elem 2)
      | .elem i => if i = 3 then some .head else if i = 2 then some (.elem 3) else none }

theorem ready_deuxPrets : Ready deuxPrets.next deuxPrets.prev [3, 2] := by
  refine ⟨⟨rfl, rfl, rfl, rfl, rfl, rfl, trivial⟩, by decide, fun m hm => ?_⟩
  cases m with
  | head => simp at hm
  | elem i =>
    simp only [List.map_cons, List.map_nil, List.mem_cons, Maillon.elem.injEq, reduceCtorEq, List.not_mem_nil, or_false, false_or,
      not_or] at hm
    simp [deuxPrets, hm.1, hm.2]

theorem chprio_loop_once_two : Reclasse deuxPrets [3, 2] 3 9 :=
  chprio_loop_once ready_deuxPrets (by decide) (by decide) (by decide) rfl (by decide) (by decide) (by decide)

end Pcsea
