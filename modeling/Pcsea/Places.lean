import Pcsea.ListSpec
/-!
# Where the processes are

The scheduler's view of the table: every slot is at exactly one `Place`. `Rep`
ties the places to the three lists, the states and the pids; each list
operation moves one process.
-/

namespace Pcsea

open Lib

/-- The places of a slot. -/
inductive Place where
  /-- never started -/
  | libre
  /-- `actif` -/
  | elu
  /-- in `head_queue` -/
  | pret
  /-- in the sleep list -/
  | endormi
  /-- waiting in `psend` or `preceive` -/
  | bloque
  | zombie
  /-- in the dead list -/
  | mort
  deriving DecidableEq, Repr

/-- The states a process has at a place. Process 0 is `ELU` until it first goes through the ready
queue. -/
def Place.admet : Place → Etat → Prop
  | .libre, x => x = .elu
  | .elu, x => x = .elu ∨ x = .activable
  | .pret, x => x = .activable
  | .endormi, x => x = .endormi
  | .bloque, x => x = .endormi
  | .zombie, x => x = .zombie
  | .mort, x => x = .mort

structure Rep (s : St) (p : Slot → Place) (q e d : List Slot) : Prop where
  lists : Lists s q e d
  sorted : q.Pairwise fun i j => s.prio i ≤ s.prio j
  ready : ∀ i, i ∈ q ↔ p i = .pret
  sleep : ∀ i, i ∈ e ↔ p i = .endormi
  dead : ∀ i, i ∈ d ↔ p i = .mort
  state : ∀ i, (p i).admet (s.state i)
  named : ∀ i, s.pid i = if p i = .libre then 0 else (i.val : Int)

/-- What `Rep` reads. -/
def St.listes (s : St) :=
  (s.next, s.prev, s.suiv, s.endormiList, s.endormiTail, s.deadList, s.deadTail, s.state, s.pid, s.prio)

variable {s s' : St} {p : Slot → Place} {q e d : List Slot} {x i : Slot} {P : Place}

theorem Rep.congr (h : Rep s p q e d) (he : s'.listes = s.listes) : Rep s' p q e d := by
  simp only [St.listes, Prod.mk.injEq] at he
  obtain ⟨h₁, h₂, h₃, h₄, h₅, h₆, h₇, h₈, h₉, h₁₀⟩ := he
  exact ⟨h.lists.congr h₁ h₂ h₃ h₄ h₅ h₆ h₇, h₁₀ ▸ h.sorted, h.ready, h.sleep, h.dead, h₈ ▸ h.state, h₉ ▸ h.named⟩

theorem Rep.setProcessAlive (h : Rep s p q e d) (n : Nat) : Rep { s with processAlive := n } p q e d := h.congr rfl

/-- A process of the table has the pid of its slot. -/
theorem Rep.pid (h : Rep s p q e d) (hi : p i ≠ .libre) : s.pid i = (i.val : Int) := by
  rw [h.named, if_neg hi]

theorem Rep.caseDe_pid (h : Rep s p q e d) (hi : p i ≠ .libre) : caseDe (s.pid i) = .ok i := by
  rw [h.pid hi, caseDe_val]

/-- Two processes of the table do not share a pid. -/
theorem Rep.pid_inj (h : Rep s p q e d) {j : Slot} (hi : p i ≠ .libre) (hj : p j ≠ .libre)
    (he : s.pid i = s.pid j) : i = j := by
  rw [h.pid hi, h.pid hj] at he
  exact Fin.ext (by exact_mod_cast he)

theorem Rep.state_eq_endormi (h : Rep s p q e d) : s.state i = .endormi ↔ p i = .endormi ∨ p i = .bloque := by
  have := h.state i
  cases hp : p i <;> rw [hp] at this <;> simp_all [Place.admet]
  rcases this with h | h <;> simp [h]

theorem Rep.state_eq_zombie (h : Rep s p q e d) : s.state i = .zombie ↔ p i = .zombie := by
  have := h.state i
  cases hp : p i <;> rw [hp] at this <;> simp_all [Place.admet]
  rcases this with h | h <;> simp [h]

theorem Rep.state_eq_mort (h : Rep s p q e d) : s.state i = .mort ↔ p i = .mort := by
  have := h.state i
  cases hp : p i <;> rw [hp] at this <;> simp_all [Place.admet]
  rcases this with h | h <;> simp [h]

/-- `i` is in `head_queue`. -/
def St.prete (s : St) (i : Slot) : Bool := (s.next (.elem i)).isSome

theorem Rep.prete (h : Rep s p q e d) : s.prete i = true ↔ p i = .pret := by
  rw [← h.ready]
  constructor
  · intro hi
    by_contra hq
    simp [St.prete, (h.lists.ready.unlinked hq).1] at hi
  · intro hi
    exact (h.lists.ready.linked hi).1

theorem Rep.queueEmpty (h : Rep s p q e d) : queueEmpty s = false ↔ ∃ i, p i = .pret := by
  rw [Bool.eq_false_iff, ne_eq, queueEmpty_iff h.lists.ready, List.eq_nil_iff_forall_not_mem]
  push Not
  simp only [h.ready]

/-! ## The moves -/

/-- Moving `x` to `P` when the lists and the states have followed. -/
theorem Rep.move {q' e' d' : List Slot} {y : Etat} (h : Rep s p q e d) (hl : Lists s' q' e' d')
    (hr : q'.Pairwise fun i j => s'.prio i ≤ s'.prio j) (hs : s'.state = Function.update s.state x y) (hn : s'.pid = s.pid) (hy : P.admet y)
    (hx : p x ≠ .libre) (hP : P ≠ .libre)
    (hq : ∀ i, i ∈ q' ↔ if i = x then P = .pret else i ∈ q)
    (he : ∀ i, i ∈ e' ↔ if i = x then P = .endormi else i ∈ e)
    (hd : ∀ i, i ∈ d' ↔ if i = x then P = .mort else i ∈ d) :
    Rep s' (Function.update p x P) q' e' d' := by
  refine ⟨hl, hr, fun i => ?_, fun i => ?_, fun i => ?_, fun i => ?_, fun i => ?_⟩
  · rw [hq, Function.update_apply, h.ready]; split <;> rfl
  · rw [he, Function.update_apply, h.sleep]; split <;> rfl
  · rw [hd, Function.update_apply, h.dead]; split <;> rfl
  · rw [hs, Function.update_apply, Function.update_apply]
    split
    · exact hy
    · exact h.state i
  · rw [hn, h.named]
    by_cases hi : i = x
    · rw [hi, Function.update_self, if_neg hx, if_neg hP]
    · rw [Function.update_of_ne hi]

theorem Rep.notMem (h : Rep s p q e d) (h₁ : p x ≠ .pret) (h₂ : p x ≠ .endormi) (h₃ : p x ≠ .mort) :
    x ∉ q ∧ x ∉ e ∧ x ∉ d :=
  ⟨mt (h.ready x).1 h₁, mt (h.sleep x).1 h₂, mt (h.dead x).1 h₃⟩

theorem Rep.insertMort (h : Rep s p q e d) (h₀ : p x ≠ .libre) (h₁ : p x ≠ .pret) (h₂ : p x ≠ .endormi) (h₃ : p x ≠ .mort) :
    ∃ suiv deadList deadTail,
      insertMort x s = .ok { s with state := Function.update s.state x .mort, suiv, deadList, deadTail } ∧
      Rep { s with state := Function.update s.state x .mort, suiv, deadList, deadTail }
        (Function.update p x .mort) q e (d ++ [x]) := by
  obtain ⟨hq, he, hd⟩ := h.notMem h₁ h₂ h₃
  obtain ⟨suiv, dl, dt, ho, hl⟩ := insertMort_spec h.lists hq he hd
  refine ⟨suiv, dl, dt, ho, h.move hl h.sorted rfl rfl rfl h₀ (by simp) ?_ ?_ ?_⟩
  all_goals
    intro i
    split <;> simp_all

theorem Rep.insertActivable (h : Rep s p q e d) (h₀ : p x ≠ .libre) (h₁ : p x ≠ .pret) (h₂ : p x ≠ .endormi)
    (h₃ : p x ≠ .mort) :
    ∃ next prev,
      insertActivable x s = .ok { s with
        state := Function.update s.state x .activable, suiv := Function.update s.suiv x none, next, prev } ∧
      Rep { s with
        state := Function.update s.state x .activable, suiv := Function.update s.suiv x none, next, prev }
        (Function.update p x .pret) (parPrio s x q) e d := by
  obtain ⟨hq, he, hd⟩ := h.notMem h₁ h₂ h₃
  obtain ⟨next, prev, ho, hl⟩ := insertActivable_spec h.lists hq he hd
  refine ⟨next, prev, ho, h.move hl (parPrio_sorted h.sorted) rfl rfl rfl h₀ (by simp) ?_ ?_ ?_⟩
  all_goals
    intro i
    split <;> simp_all

/-- `extract_activable` elects the last process of the ring. -/
theorem Rep.extractActivable (h : Rep s p (q ++ [x]) e d) :
    ∃ next prev, extractActivable s = .ok (some x, { s with next, prev, suiv := Function.update s.suiv x none }) ∧
      Rep { s with next, prev, suiv := Function.update s.suiv x none } (Function.update p x .elu) q e d := by
  obtain ⟨next, prev, ho, hl⟩ := extractActivable_spec h.lists
  have hx : p x = .pret := (h.ready x).1 (by simp)
  have hs := h.state x
  rw [hx] at hs
  have hq : x ∉ q := fun hm => by
    have := (List.nodup_append.1 h.lists.ready.distinct).2.2 x hm x
    simp at this
  obtain ⟨he, hd⟩ := h.lists.ready_apart (x := x) (by simp)
  refine ⟨next, prev, ho, h.move (y := .activable) hl (List.pairwise_append.1 h.sorted).1 ?_ rfl (.inr rfl) (by simp [hx]) (by simp) ?_ ?_ ?_⟩
  · exact (Function.update_eq_self_iff.2 hs.symm).symm
  all_goals
    intro i
    split <;> simp_all

theorem Rep.insertEndormi (h : Rep s p q e d) (h₀ : p x ≠ .libre) (h₁ : p x ≠ .pret) (h₂ : p x ≠ .endormi)
    (h₃ : p x ≠ .mort) (time : ℚ) :
    ∃ suiv endormiList endormiTail,
      insertEndormi x time s = .ok { s with
        timeToWake := Function.update s.timeToWake x time, state := Function.update s.state x .endormi,
        suiv, endormiList, endormiTail } ∧
      Rep { s with
        timeToWake := Function.update s.timeToWake x time, state := Function.update s.state x .endormi,
        suiv, endormiList, endormiTail } (Function.update p x .endormi) q
        (parTemps (Function.update s.timeToWake x time) x e) d := by
  obtain ⟨hq, he, hd⟩ := h.notMem h₁ h₂ h₃
  obtain ⟨suiv, hd', tl, ho, hl⟩ := insertEndormi_spec h.lists hq he hd time
  refine ⟨suiv, hd', tl, ho, h.move hl h.sorted rfl rfl rfl h₀ (by simp) ?_ ?_ ?_⟩
  all_goals
    intro i
    split <;> simp_all [(parTemps_perm _ _ _).mem_iff]

/-- The first sleeper is made ready. -/
theorem Rep.reveil (h : Rep s p q (x :: e) d) :
    ∃ next prev suiv endormiList endormiTail s₁,
      Pcsea.extractEndormi s = .ok (x, s₁) ∧
      Pcsea.insertActivable x s₁ = .ok { s with
        state := Function.update s.state x .activable, next, prev, suiv, endormiList, endormiTail } ∧
      suiv x = none ∧
      Rep { s with state := Function.update s.state x .activable, next, prev, suiv, endormiList, endormiTail }
        (Function.update p x .pret) (parPrio s x q) e d := by
  obtain ⟨hd', tl, ho, hl⟩ := extractEndormi_spec h.lists
  have hx : p x = .endormi := (h.sleep x).1 (by simp)
  have hxe : x ∉ e := (List.nodup_cons.1 h.lists.sleep.nodup).1
  obtain ⟨hxq, hxd⟩ := h.lists.sleep_apart (x := x) (by simp)
  obtain ⟨next, prev, ho', hl'⟩ := insertActivable_spec hl hxq hxe hxd
  refine ⟨next, prev, _, hd', tl, _, ho, ho', by simp, h.move hl' (parPrio_sorted h.sorted) rfl rfl rfl (by simp [hx]) (by simp) ?_ ?_ ?_⟩
  all_goals
    intro i
    split <;> simp_all

/-- A ready process that `kill` takes out of the ring. -/
theorem Rep.queueDel {q₁ q₂ : List Slot} (h : Rep s p (q₁ ++ x :: q₂) e d) :
    ∃ next prev,
      Pcsea.queueDel x (s.setState x .zombie) = .ok { s with state := Function.update s.state x .zombie, next, prev } ∧
      Rep { s with state := Function.update s.state x .zombie, next, prev }
        (Function.update p x .zombie) (q₁ ++ q₂) e d := by
  obtain ⟨next, prev, ho, hr⟩ := queueDel_spec (s := s.setState x .zombie) h.lists.ready
  have hx : p x = .pret := (h.ready x).1 (by simp)
  have hxq : x ∉ q₁ ++ q₂ := (List.nodup_cons.1 (List.nodup_middle.1 h.lists.ready.distinct)).1
  obtain ⟨he, hd⟩ := h.lists.ready_apart (x := x) (by simp)
  have hl : Lists { s with state := Function.update s.state x .zombie, next, prev } (q₁ ++ q₂) e d :=
    ⟨hr, h.lists.sleep, h.lists.dead,
      h.lists.distinct.sublist (((List.sublist_cons_self x q₂).append_left q₁).append_right _)⟩
  refine ⟨next, prev, ho, h.move hl (h.sorted.sublist ((List.sublist_cons_self x q₂).append_left q₁)) rfl rfl rfl
    (by simp [hx]) (by simp) ?_ ?_ ?_⟩
  all_goals
    intro i
    split <;> simp_all

/-- A sleeping process that `kill` takes out of the sleep list. -/
theorem Rep.sleepDel {e₁ e₂ : List Slot} (h : Rep s p q (e₁ ++ x :: e₂) d) :
    ∃ suiv endormiList endormiTail deadList deadTail,
      sleepDel (s.pid x) s = .ok (if e₁ = [] then 0 else -1, { s with
        state := Function.update s.state x .mort, suiv, endormiList, endormiTail, deadList, deadTail }) ∧
      Rep { s with
        state := Function.update s.state x .mort, suiv, endormiList, endormiTail, deadList, deadTail }
        (Function.update p x .mort) q (e₁ ++ e₂) (d ++ [x]) := by
  have hxe : x ∉ e₁ ++ e₂ := (List.nodup_cons.1 (List.nodup_middle.1 h.lists.sleep.nodup)).1
  have hs : ∀ i ∈ e₁ ++ x :: e₂, p i = .endormi := fun i hi => (h.sleep i).1 hi
  have hx := hs x (by simp)
  obtain ⟨hq, hd⟩ := h.lists.sleep_apart (x := x) (by simp)
  have hp : ∀ i ∈ e₁ ++ e₂, s.pid i ≠ s.pid x := by
    intro i hi he
    have hi' := hs i (by simp only [List.mem_append, List.mem_cons] at hi ⊢; tauto)
    exact hxe (h.pid_inj (by simp [hi']) (by simp [hx]) he ▸ hi)
  obtain ⟨suiv, hd', tl, dl, dt, ho, hl⟩ := sleepDel_spec h.lists rfl hp
  refine ⟨suiv, hd', tl, dl, dt, ho, h.move hl h.sorted rfl rfl rfl (by simp [hx]) (by simp) ?_ ?_ ?_⟩
  all_goals
    intro i
    split <;> simp_all

end Pcsea
