import Pcsea.Lib.StableQueue
import Mathlib.Logic.Function.Basic
/-!
# Scheduling in turn

A preemptive scheduler runs one element and keeps the others in the order of
their arrival. A `Round` may change one element, lets newcomers in behind the
others, and may hold an election: the `eldest` takes over unless the one that
runs is above it. `Overtaken` is what an element that waits sees of a run: it
lets every other pass at most once.
-/

namespace Lib

universe u v
variable {α : Type u} {β : Type v} [DecidableEq α] {l l' xs E : List α} {i t x y : α}

/-- The elements that arrived before `i`. -/
def ahead (i : α) (l : List α) : List α := l.takeWhile (· ≠ i)

theorem ahead_cons : ahead i (y :: l) = if y = i then [] else y :: ahead i l := by
  rw [ahead, List.takeWhile_cons]
  by_cases h : y = i <;> simp [h, ahead]

theorem ahead_append (h : i ∈ l) : ahead i (l ++ l') = ahead i l := by
  induction l with
  | nil => simp at h
  | cons y l ih =>
    rw [List.cons_append, ahead_cons, ahead_cons]
    split
    · rfl
    · next hy => rw [ih (List.mem_of_ne_of_mem (Ne.symm hy) h)]

theorem ahead_append_of_notMem (h : i ∉ l) : ahead i (l ++ l') = l ++ ahead i l' :=
  List.takeWhile_append_of_pos fun y hy => by
    have hyi : y ≠ i := by
      rintro rfl
      exact h hy
    simpa using hyi

theorem ahead_erase (h : x ≠ i) : ahead i (l.erase x) = (ahead i l).erase x := by
  induction l with
  | nil => rfl
  | cons y l ih =>
    by_cases hy : y = i
    · subst hy
      rw [List.erase_cons_tail (by simpa using h.symm), ahead_cons, ahead_cons, if_pos rfl, if_pos rfl]
      rfl
    · rw [ahead_cons, if_neg hy]
      by_cases hx : y = x
      · subst hx
        rw [List.erase_cons_head, List.erase_cons_head]
      · rw [List.erase_cons_tail (by simpa using hx), List.erase_cons_tail (by simpa using hx), ahead_cons, if_neg hy, ih]

theorem ahead_nodup (h : l.Nodup) : (ahead i l).Nodup := h.sublist (List.takeWhile_sublist _)

variable [LinearOrder β] {key : α → β}

/-- An element that is given out before one of its key or above was ahead of it. -/
theorem eldest_mem_ahead (h : eldest key l = some t) (hi : i ∈ l) (hti : t ≠ i) (hk : key t ≤ key i) : t ∈ ahead i l := by
  obtain ⟨l₁, l₂, rfl, h₁, -⟩ := eldest_spec h
  have hi₁ : i ∉ l₁ := fun hm => absurd (h₁ i hm) (not_lt.2 hk)
  rw [ahead_append_of_notMem hi₁, ahead_cons, if_neg hti]
  simp

/-! ## The scheduler -/

structure Sched (α : Type u) (β : Type v) where
  /-- those that wait, in the order of arrival -/
  queue : List α
  running : α
  key : α → β

/-- What may happen to one element. -/
inductive Shift (α : Type u) (β : Type v) where
  | none
  | leave (x : α)
  /-- a waiting element gets a new key, and goes behind all the others -/
  | requeue (x : α) (k : β)
  /-- an element that does not wait gets a new key -/
  | rekey (x : α) (k : β)

variable {c c' : Sched α β} {ch : Shift α β} {voted : Bool}

def Shift.run : Shift α β → Sched α β → Sched α β
  | .none, c => c
  | .leave x, c => { c with queue := c.queue.erase x }
  | .requeue x k, c => { c with queue := c.queue.erase x ++ [x], key := Function.update c.key x k }
  | .rekey x k, c => { c with key := Function.update c.key x k }

def Shift.Allowed (c : Sched α β) : Shift α β → Prop
  | .none => True
  | .leave x => x ∈ c.queue
  | .requeue x _ => x ∈ c.queue
  | .rekey x _ => x ∉ c.queue

/-- The change costs `i` its place. -/
def Shift.Moves (i : α) : Shift α β → Prop
  | .none => False
  | .leave x => x = i
  | .requeue x _ => x = i
  | .rekey _ _ => False

/-- Each element is at one place. -/
structure Sched.WF (c : Sched α β) : Prop where
  nodup : c.queue.Nodup
  apart : c.running ∉ c.queue

def Sched.arrive (xs : List α) (c : Sched α β) : Sched α β := { c with queue := c.queue ++ xs }

/-- An election. -/
inductive Elects (c : Sched α β) : Sched α β → Prop
  /-- those that wait are below -/
  | keep : (∀ t, eldest c.key c.queue = some t → c.key t < c.key c.running) → Elects c c
  /-- the one that ran goes behind the others -/
  | yield (t : α) : eldest c.key c.queue = some t → c.key c.running ≤ c.key t →
    Elects c { c with queue := c.queue.erase t ++ [c.running], running := t }
  /-- the one that ran no longer wants to -/
  | block (t : α) : eldest c.key c.queue = some t → Elects c { c with queue := c.queue.erase t, running := t }

structure Round (c : Sched α β) (e : Shift α β × Bool) (xs : List α) (c' : Sched α β) : Prop where
  allowed : e.1.Allowed c
  fresh : ∀ x ∈ xs, x ∉ c.queue ∧ x ≠ c.running
  nodup : xs.Nodup
  elects : if e.2 then Elects ((e.1.run c).arrive xs) c' else c' = (e.1.run c).arrive xs

omit [DecidableEq α] [LinearOrder β] in
/-- The newcomers are behind. -/
theorem Sched.WF.append (hw : c.WF) (hf : ∀ x ∈ xs, x ∉ c.queue ∧ x ≠ c.running) (hn : xs.Nodup) (hl : ∀ x ∈ l, x ∈ c.queue)
    (hln : l.Nodup) : (l ++ xs).Nodup ∧ c.running ∉ l ++ xs := by
  refine ⟨List.nodup_append.2 ⟨hln, hn, ?_⟩, fun hm => ?_⟩
  · rintro x hx y hy rfl
    exact (hf x hy).1 (hl x hx)
  · rcases List.mem_append.1 hm with hm | hm
    · exact hw.apart (hl _ hm)
    · exact (hf _ hm).2 rfl

/-- Before the election. -/
theorem Round.before {e : Shift α β × Bool} (h : Round c e xs c') (hw : c.WF) : ((e.1.run c).arrive xs).WF := by
  obtain ⟨ch, voted⟩ := e
  obtain ⟨ha, hf, hn, -⟩ := h
  cases ch with
  | none =>
    obtain ⟨h₁, h₂⟩ := hw.append hf hn (fun _ h => h) hw.nodup
    exact ⟨h₁, h₂⟩
  | leave x =>
    obtain ⟨h₁, h₂⟩ := hw.append hf hn (fun _ h => List.mem_of_mem_erase h) (hw.nodup.erase x)
    exact ⟨h₁, h₂⟩
  | requeue x k =>
    have hp : c.queue.Perm (c.queue.erase x ++ [x]) := (List.perm_cons_erase ha).trans (List.perm_append_singleton x _).symm
    obtain ⟨h₁, h₂⟩ := hw.append hf hn (fun _ h => hp.mem_iff.2 h) (hp.nodup_iff.1 hw.nodup)
    exact ⟨h₁, h₂⟩
  | rekey x k =>
    obtain ⟨h₁, h₂⟩ := hw.append hf hn (fun _ h => h) hw.nodup
    exact ⟨h₁, h₂⟩

theorem Elects.wf (h : Elects c c') (hw : c.WF) : c'.WF := by
  cases h with
  | keep _ => exact hw
  | yield t ht _ =>
    refine ⟨List.nodup_append.2 ⟨hw.nodup.erase t, by simp, ?_⟩, fun hm => ?_⟩
    · rintro x hx y hy rfl
      exact hw.apart (List.mem_singleton.1 hy ▸ List.mem_of_mem_erase hx)
    · rcases List.mem_append.1 hm with hm | hm
      · exact (hw.nodup.mem_erase_iff.1 hm).1 rfl
      · exact hw.apart (List.mem_singleton.1 hm ▸ eldest_mem ht)
  | block t ht => exact ⟨hw.nodup.erase t, fun hm => (hw.nodup.mem_erase_iff.1 hm).1 rfl⟩

/-- Each element stays at one place. -/
theorem Round.wf {e : Shift α β × Bool} (h : Round c e xs c') (hw : c.WF) : c'.WF := by
  have hb := h.before hw
  have he := h.elects
  split at he
  · exact he.wf hb
  · exact he ▸ hb

theorem Elects.key_eq (h : Elects c c') : c'.key = c.key := by cases h <;> rfl

theorem Round.key_eq {e : Shift α β × Bool} (h : Round c e xs c') : c'.key = (e.1.run c).key := by
  have he := h.elects
  split at he
  · exact he.key_eq
  · exact he ▸ rfl

/-- Only the one that ran joins those that wait. -/
theorem Elects.mem (h : Elects c c') (hx : x ∈ c'.queue) : x ∈ c.queue ∨ x = c.running := by
  cases h with
  | keep _ => exact .inl hx
  | yield t _ _ =>
    rcases List.mem_append.1 hx with hx | hx
    · exact .inl (List.mem_of_mem_erase hx)
    · exact .inr (List.mem_singleton.1 hx)
  | block t _ => exact .inl (List.mem_of_mem_erase hx)

/-- What leaves does not wait any more. -/
theorem Round.not_leave {v : Bool} (h : Round c (.leave i, v) xs c') (hw : c.WF) (hi : i ∈ c.queue) : i ∉ c'.queue := by
  have he := h.elects
  have hnot : i ∉ c.queue.erase i ++ xs := by
    rw [List.mem_append, not_or]
    exact ⟨fun hm => (hw.nodup.mem_erase_iff.1 hm).1 rfl, fun hm => (h.fresh i hm).1 hi⟩
  intro hm
  split at he
  · rcases he.mem hm with hm | hm
    · exact hnot hm
    · obtain rfl : i = c.running := hm
      exact hw.apart hi
  · rw [he] at hm
    exact hnot hm

/-! ## What an element that waits sees -/

/-- `c'` was reached from `c` while `i` waited. Those that took over, of a key not above that of `i`, are `E`. -/
structure Overtaken (i : α) (c : Sched α β) (E : List α) (c' : Sched α β) : Prop where
  sublist : (ahead i c'.queue).Sublist (ahead i c.queue)
  nodup : E.Nodup
  passed : ∀ t ∈ E, t ∈ ahead i c.queue ∧ t ∉ ahead i c'.queue

omit [LinearOrder β] in
theorem Overtaken.refl (i : α) (c : Sched α β) : Overtaken i c [] c := ⟨.refl _, by simp, by simp⟩

/-- Those that take over in a round. -/
def passing (i : α) (c c' : Sched α β) : List α :=
  if c'.running ≠ c.running ∧ c'.key c'.running ≤ c'.key i then [c'.running] else []

omit [LinearOrder β] in
theorem Overtaken.trans {c₁ c₂ : Sched α β} {E' : List α} (h : Overtaken i c E c₁) (h' : Overtaken i c₁ E' c₂) :
    Overtaken i c (E ++ E') c₂ := by
  refine ⟨h'.sublist.trans h.sublist, List.nodup_append.2 ⟨h.nodup, h'.nodup, ?_⟩, fun t ht => ?_⟩
  · rintro x hx y hy rfl
    exact (h.passed x hx).2 (h'.passed x hy).1
  · rcases List.mem_append.1 ht with ht | ht
    · exact ⟨(h.passed t ht).1, fun hm => (h.passed t ht).2 (h'.sublist.subset hm)⟩
    · exact ⟨h.sublist.subset (h'.passed t ht).1, (h'.passed t ht).2⟩

omit [LinearOrder β] in
/-- A change that does not move `i` lets nobody ahead of it. -/
theorem Shift.run_ahead (hi : i ∈ c.queue) (hm : ¬ch.Moves i) :
    i ∈ (ch.run c).queue ∧ (ahead i (ch.run c).queue).Sublist (ahead i c.queue) := by
  cases ch with
  | none => exact ⟨hi, .refl _⟩
  | leave x =>
    refine ⟨(List.mem_erase_of_ne (Ne.symm hm)).2 hi, ?_⟩
    rw [Shift.run, ahead_erase hm]
    exact List.erase_sublist
  | requeue x k =>
    have hi' : i ∈ c.queue.erase x := (List.mem_erase_of_ne (Ne.symm hm)).2 hi
    refine ⟨List.mem_append_left _ hi', ?_⟩
    rw [Shift.run, ahead_append hi', ahead_erase hm]
    exact List.erase_sublist
  | rekey x k => exact ⟨hi, .refl _⟩

/-- In an election that `i` does not win, those of a key not above its own were ahead of it. -/
theorem Elects.overtaken (h : Elects c c') (hw : c.WF) (hi : i ∈ c.queue) (hi' : i ∈ c'.queue) :
    Overtaken i c (passing i c c') c' := by
  have hw' := h.wf hw
  -- Whatever the round, it is the eldest that passes, and it leaves those ahead.
  have hgo {t : α} (ht : eldest c.key c.queue = some t) (hti : t ≠ i) (hr : c'.running = t) (hk : c'.key = c.key)
      (hq : ahead i c'.queue = (ahead i c.queue).erase t) : Overtaken i c (passing i c c') c' := by
    refine ⟨hq ▸ List.erase_sublist, ?_, ?_⟩
    · unfold passing
      split <;> simp
    · intro x hx
      unfold passing at hx
      split at hx
      · next hc =>
        obtain rfl := (List.mem_singleton.1 hx).trans hr
        rw [hr, hk] at hc
        refine ⟨eldest_mem_ahead ht hi hti hc.2, ?_⟩
        rw [hq]
        exact fun hm => ((ahead_nodup hw.nodup).mem_erase_iff.1 hm).1 rfl
      · simp at hx
  cases h with
  | keep _ =>
    rw [passing, if_neg (by simp)]
    exact .refl i c
  | yield t ht _ =>
    have hti : t ≠ i := by
      rintro rfl
      exact hw'.apart hi'
    have hie : i ∈ c.queue.erase t := (List.mem_erase_of_ne hti.symm).2 hi
    exact hgo ht hti rfl rfl (by rw [ahead_append hie, ahead_erase hti])
  | block t ht =>
    have hti : t ≠ i := by
      rintro rfl
      exact hw'.apart hi'
    exact hgo ht hti rfl rfl (ahead_erase hti)

/-- One round, while `i` waits. -/
theorem Round.overtaken {e : Shift α β × Bool} (h : Round c e xs c') (hw : c.WF) (hi : i ∈ c.queue) (hi' : i ∈ c'.queue)
    (hm : ¬e.1.Moves i) : Overtaken i c (passing i c c') c' := by
  have hb := h.before hw
  have he := h.elects
  obtain ⟨hir, hsub⟩ := Shift.run_ahead hi hm
  have hr : ((e.1.run c).arrive xs).running = c.running := by
    cases e.1 <;> rfl
  have hid : i ∈ ((e.1.run c).arrive xs).queue := List.mem_append_left _ hir
  have h₁ : Overtaken i c [] ((e.1.run c).arrive xs) := by
    refine ⟨?_, by simp, by simp⟩
    rw [Sched.arrive, ahead_append hir]
    exact hsub
  generalize (e.1.run c).arrive xs = d at *
  have hp : passing i c c' = passing i d c' := by rw [passing, passing, hr]
  rw [hp]
  split at he
  · exact h₁.trans (he.overtaken hb hid hi')
  · subst he
    rw [passing, if_neg (by simp)]
    exact h₁

/-- While none has a key above that of `i`, an election gives the processor to another. -/
theorem Round.passing_of_voted {e : Shift α β × Bool} (h : Round c e xs c') (hw : c.WF) (hi : i ∈ c.queue) (hm : ¬e.1.Moves i)
    (hv : e.2 = true) (hk : c'.key c'.running ≤ c'.key i) : passing i c c' = [c'.running] := by
  have hb := h.before hw
  have he := h.elects
  obtain ⟨hir, -⟩ := Shift.run_ahead hi hm
  have hr : ((e.1.run c).arrive xs).running = c.running := by
    cases e.1 <;> rfl
  have hid : i ∈ ((e.1.run c).arrive xs).queue := List.mem_append_left _ hir
  rw [if_pos hv] at he
  generalize (e.1.run c).arrive xs = d at hb he hr hid
  have hne : c'.running ≠ c.running := by
    rw [← hr]
    cases he with
    | keep hlt =>
      -- `i` itself would have had its turn.
      cases ht : eldest c'.key c'.queue with
      | none =>
        rw [eldest_eq_none.1 ht] at hid
        simp at hid
      | some t => exact absurd ((eldest_le ht hid).trans_lt (hlt t ht)) (not_lt.2 hk)
    | yield t ht _ =>
      intro htr
      exact hb.apart (htr ▸ eldest_mem ht)
    | block t ht =>
      intro htr
      exact hb.apart (htr ▸ eldest_mem ht)
  rw [passing, if_pos ⟨hne, hk⟩]

end Lib
