import Pcsea.ListSpec
import Pcsea.Lib.StableQueue
/-!
# The ready queue as a stable priority queue

`head_queue` lists the ready processes by rising priority, the newest in front
of its equals, and gives out the last: among those of the highest priority, the
one that has waited longest.
-/

namespace Pcsea

open Lib

variable {s s' : St} {q l l' : List Slot} {e : Slot} {op : QueueOp Slot} {ops : List (QueueOp Slot)} {r : Option Slot}
  {rs : List (Option Slot)}

theorem parPrio_eq : parPrio s e q = insertByKey s.prio e q := rfl

/-- `head_queue` holds the processes `l`, in the order in which they arrived. -/
def Arrivees (s : St) (l : List Slot) : Prop := Ready s.next s.prev (byKey s.prio l) ∧ l.Nodup

theorem Arrivees.insere (h : Arrivees s l) (he : e ∉ l) :
    ∃ next prev, insertActivable e s = .ok { s with
        state := Function.update s.state e .activable, suiv := Function.update s.suiv e none, next, prev } ∧
      Arrivees { s with
        state := Function.update s.state e .activable, suiv := Function.update s.suiv e none, next, prev } (l ++ [e]) := by
  obtain ⟨next, prev, ho, hr⟩ := queueAdd_spec (s := (s.setState e .activable).setSuiv e none) h.1 (mt mem_byKey.1 he)
  refine ⟨next, prev, ho, ?_, List.nodup_append.2 ⟨h.2, by simp, ?_⟩⟩
  · show Ready next prev (byKey s.prio (l ++ [e]))
    rw [byKey_concat]
    exact hr
  · rintro x hx y hy rfl
    exact he (List.mem_singleton.1 hy ▸ hx)

/-- The last of the ring is the oldest of the highest priority. -/
theorem Arrivees.dernier (h : Arrivees s l) (he : eldest s.prio l = some e) : byKey s.prio l = byKey s.prio (l.erase e) ++ [e] := by
  rw [← byKey_getLast?] at he
  obtain ⟨q, hq⟩ := List.getLast?_eq_some_iff.1 he
  have hn : e ∉ q := by
    have := h.1.distinct
    rw [hq] at this
    exact fun hm => (List.nodup_append.1 this).2.2 e hm e (by simp) rfl
  rw [byKey_erase h.2, hq, List.erase_append_right _ hn]
  simp

theorem Arrivees.extrait (h : Arrivees s l) (he : eldest s.prio l = some e) :
    ∃ next prev, extractActivable s = .ok (some e, { s with next, prev, suiv := Function.update s.suiv e none }) ∧
      Arrivees { s with next, prev, suiv := Function.update s.suiv e none } (l.erase e) := by
  have hr := h.1
  rw [h.dernier he] at hr
  obtain ⟨next, prev, ho, hr'⟩ := queueOut_spec hr
  have hne : queueEmpty s = false := by
    rw [Bool.eq_false_iff, ne_eq, queueEmpty_iff hr]
    simp
  refine ⟨next, prev, ?_, hr', h.2.erase e⟩
  rw [extractActivable, hne, ho]
  rfl

theorem Arrivees.vide (h : Arrivees s []) : extractActivable s = .ok (none, s) := by
  rw [extractActivable, (queueEmpty_iff h.1).2 rfl]
  rfl

/-- `queue_del`, as `kill` calls it. -/
theorem Arrivees.ote (h : Arrivees s l) (he : e ∈ l) :
    ∃ s', queueDel e (s.setState e .zombie) = .ok s' ∧ Arrivees s' (l.erase e) ∧ s'.prio = s.prio := by
  have hr := h.1
  obtain ⟨q₁, q₂, hq⟩ := List.append_of_mem (mem_byKey.2 he : e ∈ byKey s.prio l)
  have hn : e ∉ q₁ := by
    have := h.1.distinct
    rw [hq] at this
    exact fun hm => (List.nodup_append.1 this).2.2 e hm e (by simp) rfl
  rw [hq] at hr
  obtain ⟨next, prev, ho, hr'⟩ := queueDel_spec (s := s.setState e .zombie) hr
  refine ⟨_, ho, ⟨?_, h.2.erase e⟩, rfl⟩
  show Ready next prev (byKey s.prio (l.erase e))
  rw [byKey_erase h.2, hq, List.erase_append_right _ hn]
  simpa using hr'

theorem Arrivees.sommet (h : Arrivees s l) : queueTop s = .ok (eldest s.prio l) := by
  cases he : eldest s.prio l with
  | none =>
    obtain rfl := eldest_eq_none.1 he
    exact queueTop_nil h.1
  | some e =>
    have hr := h.1
    rw [h.dernier he] at hr
    exact queueTop_spec hr

/-! ## Sequences of operations -/

/-- An operation on `head_queue`, with the process it gives out. -/
def applique : QueueOp Slot → St → Except Fault (Option Slot × St)
  | .add e, s => do
    let s ← insertActivable e s
    .ok (none, s)
  | .take, s => extractActivable s
  | .remove e, s => do
    let s ← queueDel e (s.setState e .zombie)
    .ok (none, s)
  | .top, s => do
    let t ← queueTop s
    .ok (t, s)

def appliqueTout : List (QueueOp Slot) → St → Except Fault (List (Option Slot) × St) := execAll applique

/-- Each operation does on the ring what it does on the queue. -/
theorem applique_spec (h : Arrivees s l) (hr : op.run s.prio l = some (r, l')) :
    ∃ s', applique op s = .ok (r, s') ∧ Arrivees s' l' ∧ s'.prio = s.prio := by
  cases op with
  | add e =>
    rw [QueueOp.run] at hr
    split at hr
    · cases hr
    · next he =>
      cases hr
      obtain ⟨next, prev, ho, ha⟩ := h.insere he
      exact ⟨_, by rw [applique, ho]; rfl, ha, rfl⟩
  | take =>
    rw [QueueOp.run] at hr
    split at hr
    · next he =>
      cases hr
      obtain rfl := eldest_eq_none.1 he
      exact ⟨s, h.vide, h, rfl⟩
    · next e he =>
      cases hr
      obtain ⟨next, prev, ho, ha⟩ := h.extrait he
      exact ⟨_, ho, ha, rfl⟩
  | remove e =>
    rw [QueueOp.run] at hr
    split at hr
    · next he =>
      cases hr
      obtain ⟨s', ho, ha⟩ := h.ote he
      exact ⟨s', by rw [applique, ho]; rfl, ha⟩
    · cases hr
  | top =>
    cases hr
    exact ⟨s, by rw [applique, h.sommet]; rfl, h, rfl⟩

theorem applique_refines (prio : Slot → Nat) :
    Refines (QueueOp.run prio) applique fun l s => Arrivees s l ∧ s.prio = prio := by
  rintro op l r l' s ⟨ha, rfl⟩ hr
  exact applique_spec ha hr

/-- The ring refines the queue: from the empty ring, any sequence of operations gives the results of the queue, and leaves a
ring of the processes of the queue by rising priority, with `next` and `prev` inverse of each other and both NULL elsewhere. -/
theorem ready_ring_refines (h : Ready s.next s.prev []) (hr : runOps s.prio ops [] = some (rs, l)) :
    ∃ s', appliqueTout ops s = .ok (rs, s') ∧ l.Nodup ∧ Ready s'.next s'.prev (byKey s.prio l) ∧
      (∀ m m', s'.next m = some m' ↔ s'.prev m' = some m) ∧
      (∀ i, i ∉ l → s'.next (.elem i) = none ∧ s'.prev (.elem i) = none) ∧
      ((byKey s.prio l).Perm l ∧ (byKey s.prio l).Pairwise fun i j => s.prio i ≤ s.prio j) := by
  obtain ⟨s', ho, ha, hp⟩ := (applique_refines s.prio).execAll ⟨⟨h, List.nodup_nil⟩, rfl⟩ hr
  have hready : Ready s'.next s'.prev (byKey s.prio l) := hp ▸ ha.1
  refine ⟨s', ho, ha.2, hready, fun m m' => DRing.inverse hready, fun i hi => ?_, byKey_perm, byKey_sorted⟩
  exact hready.unlinked (mt mem_byKey.1 hi)

/-- Of three processes, the two of the highest priority leave in the order in which they came. -/
theorem ready_ring_refines_three :
    let s : St := { St.zero with prio := fun i => if i = 2 then 4 else 7 }
    ∃ s', appliqueTout [.add 1, .add 2, .add 3, .top, .take, .remove 2, .add 1, .take] s =
        .ok ([none, none, none, some 1, some 1, none, none, some 3], s') ∧ ([1] : List Slot).Nodup ∧ Ready s'.next s'.prev (byKey s.prio [1]) ∧
      (∀ m m', s'.next m = some m' ↔ s'.prev m' = some m) ∧
      (∀ i, i ∉ [1] → s'.next (.elem i) = none ∧ s'.prev (.elem i) = none) ∧
      ((byKey s.prio [1]).Perm [1] ∧ (byKey s.prio [1]).Pairwise fun i j => s.prio i ≤ s.prio j) := by
  intro s
  refine ready_ring_refines (s := s) Ready.zero ?_
  decide

end Pcsea
