import Pcsea.ListSpec
import Pcsea.Scheduler
/-!
# The sleepers that are due

`wake_process` follows the link `suiv` of the process it has just made ready,
which `extract_endormi` has set to NULL: it wakes one sleeper at most.
-/

namespace Pcsea

open Lib

variable {s : St} {q e : List Slot} {x : Slot}

/-- The tick of process `x` has come. -/
def Arrive (s : St) (x : Slot) : Prop := s.timeToWake x ≤ s.nbTick

instance (s : St) : DecidablePred (Arrive s) := fun x => inferInstanceAs (Decidable (s.timeToWake x ≤ s.nbTick))

/-- A sleep list `e` in the order of the ticks, and a ready queue `q` that shares no process with it. -/
structure Sommeil (s : St) (q e : List Slot) : Prop where
  ready : Ready s.next s.prev q
  sleep : Chain s.suiv s.endormiList s.endormiTail e
  sorted : e.Pairwise fun x y => s.timeToWake x ≤ s.timeToWake y
  apart : ∀ x ∈ e, x ∉ q

/-- `wake_process` makes every sleeper that is due ready, and leaves the others asleep in the same order. -/
def ReveilleTous (s : St) (q e : List Slot) : Prop :=
  ∃ s' q', wakeProcess s = .ok s' ∧
    Chain s'.suiv s'.endormiList s'.endormiTail (e.filter fun x => ¬Arrive s x) ∧
    Ready s'.next s'.prev q' ∧ q'.Perm (e.filter (Arrive s ·) ++ q) ∧ ∀ x ∈ e, Arrive s x → s'.state x = .activable

/-- Nobody is due: nothing moves. -/
theorem wakeProcess_rien (h : Chain s.suiv s.endormiList s.endormiTail e) (hd : ∀ x, e.head? = some x → ¬Arrive s x) :
    wakeProcess s = .ok s := by
  have hl := h.head
  rw [wakeProcess, hl]
  cases e with
  | nil => rfl
  | cons x e =>
    have := hd x rfl
    rw [Arrive] at this
    simp [wakeProcessLoop, this]

/-- The first sleeper is due: it alone is made ready. -/
theorem wakeProcess_premier (h : Chain s.suiv s.endormiList s.endormiTail (x :: e)) (hq : Ready s.next s.prev q) (hx : x ∉ q)
    (hd : Arrive s x) :
    ∃ next prev endormiList endormiTail,
      wakeProcess s = .ok { s with
        state := Function.update s.state x .activable, next, prev, suiv := Function.update s.suiv x none, endormiList,
        endormiTail } ∧
      Chain (Function.update s.suiv x none) endormiList endormiTail e ∧ Ready next prev (parPrio s x q) := by
  have hl := h.head_eq
  have ht : s.endormiTail ≠ none := mt h.last_none.1 (by simp)
  obtain ⟨endormiList, endormiTail, ho, hc⟩ := extractEndormi_chain h
  obtain ⟨next, prev, ho', hr⟩ := queueAdd_spec
    (s := { s with
      endormiList, endormiTail, state := Function.update s.state x .activable, suiv := Function.update s.suiv x none })
    hq hx
  have ha : insertActivable x { s with endormiList, endormiTail, suiv := Function.update s.suiv x none } = .ok { s with
      state := Function.update s.state x .activable, next, prev, suiv := Function.update s.suiv x none, endormiList,
      endormiTail } := by
    rw [← ho', insertActivable, St.setState, St.setSuiv, Function.update_idem]
  refine ⟨next, prev, endormiList, endormiTail, ?_, hc, hr⟩
  rw [Arrive] at hd
  simp [wakeProcess, hl, wakeProcessLoop, hd, ht, ho, ha]

/-- The sleepers behind the first stay in the list. -/
theorem ReveilleTous.reste (h : Sommeil s q (x :: e)) (hd : Arrive s x) (hw : ReveilleTous s q (x :: e)) :
    ∀ y ∈ e, ¬Arrive s y := by
  obtain ⟨next, prev, endormiList, endormiTail, ho, hc, -⟩ := wakeProcess_premier h.sleep h.ready (h.apart x (by simp)) hd
  obtain ⟨s', q', ho', hc', -⟩ := hw
  obtain rfl := Except.ok.inj (ho.symm.trans ho')
  rw [List.filter_cons_of_neg (by simpa using hd)] at hc'
  have he : e = e.filter fun y => ¬Arrive s y := hc.seg.unique hc'.seg
  intro y hy
  rw [he] at hy
  simpa using (List.mem_filter.1 hy).2

theorem Sommeil.aucun (h : Sommeil s q e) (hd : ∀ x, e.head? = some x → ¬Arrive s x) : ∀ x ∈ e, ¬Arrive s x := by
  cases e with
  | nil => simp
  | cons x e =>
    have hx : s.nbTick < s.timeToWake x := not_le.1 (hd x rfl)
    intro y hy hay
    rcases List.mem_cons.1 hy with rfl | hy
    · exact hd y rfl hay
    · exact absurd (le_trans ((List.pairwise_cons.1 h.sorted).1 y hy) hay) (not_le.2 hx)

/-- `wake_process` wakes all who are due exactly when the second sleeper is not due. -/
theorem wake_process_complete (h : Sommeil s q e) : ReveilleTous s q e ↔ ∀ x y l, e = x :: y :: l → ¬Arrive s y := by
  by_cases hd : ∀ x, e.head? = some x → ¬Arrive s x
  · have hno := h.aucun hd
    refine ⟨fun _ x y l he => hno y (by simp [he]), fun _ => ⟨s, q, wakeProcess_rien h.sleep hd, ?_, h.ready, ?_, ?_⟩⟩
    · rw [List.filter_eq_self.2 (by simpa using hno)]
      exact h.sleep
    · rw [List.filter_eq_nil_iff.2 (by simpa using hno), List.nil_append]
    · exact fun x hx ha => absurd ha (hno x hx)
  -- The first one is due: it is the only one that `wake_process` takes.
  · push Not at hd
    obtain ⟨x, hx, hax⟩ := hd
    obtain ⟨e, rfl⟩ : ∃ l, e = x :: l := List.head?_eq_some_iff.1 hx
    constructor
    · rintro hw a y l he
      obtain ⟨rfl, rfl⟩ := List.cons.inj he
      exact hw.reste h hax y (by simp)
    · intro hy
      obtain ⟨next, prev, endormiList, endormiTail, ho, hc, hr⟩ := wakeProcess_premier h.sleep h.ready (h.apart x (by simp)) hax
      have hrest : Sommeil { s with suiv := Function.update s.suiv x none, endormiList, endormiTail } q e :=
        ⟨h.ready, hc, (List.pairwise_cons.1 h.sorted).2, fun y hy => h.apart y (by simp [hy])⟩
      have hno : ∀ y ∈ e, ¬Arrive s y := hrest.aucun fun y he => by
        obtain ⟨l, rfl⟩ := List.head?_eq_some_iff.1 he
        exact hy x y l rfl
      refine ⟨_, _, ho, ?_, hr, ?_, ?_⟩
      · rw [List.filter_cons_of_neg (by simpa using hax), List.filter_eq_self.2 (by simpa using hno)]
        exact hc
      · rw [List.filter_cons_of_pos (by simpa using hax), List.filter_eq_nil_iff.2 (by simpa using hno)]
        exact parPrio_perm
      · intro y hy hay
        rcases List.mem_cons.1 hy with rfl | hy
        · exact Function.update_self ..
        · exact absurd hay (hno y hy)

/-- Processes 1 and 2 sleep, until the present tick and until `time`. -/
def deuxDormeurs (time : ℚ) : St :=
  { St.zero with
    suiv := Function.update St.zero.suiv 1 (some 2)
    timeToWake := Function.update St.zero.timeToWake 2 time
    endormiList := some 1
    endormiTail := some 2 }

theorem sommeil_deuxDormeurs {time : ℚ} (h : 0 ≤ time) : Sommeil (deuxDormeurs time) [] [1, 2] := by
  refine ⟨Ready.zero, ⟨by simp [deuxDormeurs, St.zero], rfl⟩, ?_, by simp⟩
  simpa [deuxDormeurs, St.zero] using h

theorem wake_process_complete_one :
    (∀ x y l, [1, 2] = x :: y :: l → ¬Arrive (deuxDormeurs 1) y) ∧
      (ReveilleTous (deuxDormeurs 1) [] [1, 2] ↔ ∀ x y l, [1, 2] = x :: y :: l → ¬Arrive (deuxDormeurs 1) y) := by
  refine ⟨?_, wake_process_complete (sommeil_deuxDormeurs (by decide))⟩
  rintro x y l ⟨⟩
  decide

/-- Two processes wake at the same tick: the second is left asleep. -/
theorem wake_process_complete_fails : ¬∀ s q e, Sommeil s q e → ReveilleTous s q e := by
  intro h
  have hs := sommeil_deuxDormeurs (le_refl 0)
  exact (h _ _ _ hs).reste hs (by decide) 2 (by simp) (by decide)

end Pcsea
