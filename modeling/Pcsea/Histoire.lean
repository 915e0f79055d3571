import Pcsea.StepSpec
/-!
# Runs and their traces

`parcours_spec` carries the invariant along a run, with what a proof adds to
it. `Lance` is read off the trace: the slots that were started.
-/

namespace Pcsea

open Lib

variable {s s' : St} {p : Slot → Place} {a i j : Slot} {e : Event} {r : Issue} {tr tr' : List (St × Event × Issue)}

/-- Labels that do not tell senders and receivers apart. -/
def melange : Fin NBQUEUE → Bool → Fin NBQUEUE := fun q _ => q

theorem separe_melange (s : St) (e : Event) : Separe melange s e := by
  unfold Separe
  split
  · exact fun _ _ _ => .inr rfl
  · trivial

/-- Slot `i` has been started; the boot starts slot 0. -/
def Lance (tr : List (St × Event × Issue)) (i : Slot) : Prop := i = 0 ∨ ∃ s e, (s, e, Issue.cree i) ∈ tr

theorem lance_snoc : Lance (tr ++ [(s, e, r)]) i ↔ Lance tr i ∨ r = .cree i := by
  simp only [Lance, List.mem_append, List.mem_singleton, Prod.mk.injEq]
  constructor
  · rintro (h | ⟨s₁, e₁, h | ⟨rfl, rfl, rfl⟩⟩)
    · exact .inl (.inl h)
    · exact .inl (.inr ⟨s₁, e₁, h⟩)
    · exact .inr rfl
  · rintro ((h | ⟨s₁, e₁, h⟩) | rfl)
    · exact .inl h
    · exact .inr ⟨s₁, e₁, .inl h⟩
    · exact .inr ⟨s, e, .inr ⟨rfl, rfl, rfl⟩⟩

/-- A slot leaves `libre` when it is started, and never comes back. -/
theorem Va.libre_iff {K : Type*} {f : Fin NBQUEUE → Bool → K} {P : Place} (h : Va f s p e r s' i P)
    (hc : r = .cree i → P = .pret) : P ≠ .libre ↔ p i ≠ .libre ∨ r = .cree i := by
  cases h with
  | reste =>
    by_cases hr : r = .cree i
    · simp [hr, hc hr]
    · simp [hr]
  | tourne h hP => rcases h with h | h <;> rcases hP with hP | hP <;> simp [h, hP]
  | echeance h _ _ hP => rcases hP with hP | hP <;> simp [h, hP]
  | libere k h => simp [h.1]
  | demarre _ h => simp [h]
  | _ => simp_all

/-- A process is blocked by a message call only. -/
theorem Va.bloque {K : Type*} {f : Fin NBQUEUE → Bool → K} {P : Place} (h : Va f s p e r s' i P) (hP : P = .bloque) :
    p i = .bloque ∨ e.echange = true := by
  cases h with
  | reste => exact .inl hP
  | attend _ he => exact .inr he
  | tourne _ h => rcases h with h | h <;> simp [h] at hP
  | echeance _ _ _ h => rcases h with h | h <;> simp [h] at hP
  | _ => cases hP

/-- A process goes to sleep by a sleeping call only. -/
theorem Va.endormi {K : Type*} {f : Fin NBQUEUE → Bool → K} {P : Place} (h : Va f s p e r s' i P) (hP : P = .endormi) :
    p i = .endormi ∨ e.reveil ≠ none := by
  cases h with
  | reste => exact .inl hP
  | dort time _ he => exact .inr (by simp [he])
  | tourne _ h => rcases h with h | h <;> simp [h] at hP
  | echeance _ _ _ h => rcases h with h | h <;> simp [h] at hP
  | _ => cases hP

/-- The invariant of the runs under a condition that implies `Sain`, with a further one on the trace, the state and the
places. -/
theorem parcours_spec {K : Type*} {f : Fin NBQUEUE → Bool → K} {C : St → Event → Prop}
    (hC : ∀ s e, C s e → Sain s e ∧ Separe f s e) (J : List (St × Event × Issue) → St → (Slot → Place) → Prop)
    (h0 : J [] boot placesBoot)
    (hJ : ∀ tr a s p e r s' n p', Inv f a s p → J tr s p → C s e → Effet f a s p e r s' n p' → J (tr ++ [(s, e, r)]) s' p')
    (hr : Parcours C tr s) : ∃ a p, Inv f a s p ∧ (∀ i, p i ≠ .libre ↔ Lance tr i) ∧ J tr s p := by
  refine hr.inv_trace (fun tr s => ∃ a p, Inv f a s p ∧ (∀ i, p i ≠ .libre ↔ Lance tr i) ∧ J tr s p) ?_ ?_
  · refine ⟨0, placesBoot, inv_boot _, fun i => ?_, h0⟩
    by_cases hi : i = 0 <;> simp [placesBoot, Lance, hi]
  · rintro tr s e r s' - ⟨a, p, hi, hl, hj⟩ ⟨hc, ho⟩
    obtain ⟨n, p', he⟩ := pas_spec hi (hC s e hc).1 (hC s e hc).2 ho
    refine ⟨n, p', he.inv, fun i => ?_, hJ _ _ _ _ _ _ _ _ _ hi hj hc he⟩
    rw [(he.va i).libre_iff fun hc => (he.cree i hc).2.1, lance_snoc, hl]

/-- Without labels to tell the roles apart, `Sain` is enough. -/
theorem sain_spec {C : St → Event → Prop} (hC : ∀ s e, C s e → Sain s e) (hr : Parcours C tr s) :
    ∃ a p, Inv melange a s p ∧ ∀ i, p i ≠ .libre ↔ Lance tr i := by
  obtain ⟨a, p, hi, hl, -⟩ := parcours_spec (fun s e h => ⟨hC s e h, separe_melange s e⟩) (fun _ _ _ => True) trivial
    (fun _ _ _ _ _ _ _ _ _ _ _ _ _ => trivial) hr
  exact ⟨a, p, hi, hl⟩

end Pcsea
