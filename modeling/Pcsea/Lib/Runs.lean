import Mathlib.Data.List.Basic
/-!
# Runs of a transition system

A `Run` starts in a given state and takes steps, each with an event and a
result. Its trace lists the steps in order, each with the state it was taken
in. Conditions on the steps are put with `Under`.
-/

namespace Lib

universe u v w
variable {σ : Type u} {ε : Type v} {ρ : Type w}

inductive Run (step : σ → ε → ρ → σ → Prop) (s₀ : σ) : List (σ × ε × ρ) → σ → Prop
  | nil : Run step s₀ [] s₀
  | snoc {tr s e r s'} : Run step s₀ tr s → step s e r s' → Run step s₀ (tr ++ [(s, e, r)]) s'

/-- The steps that meet a condition on the state before and the event. -/
def Under (P : σ → ε → Prop) (step : σ → ε → ρ → σ → Prop) (s : σ) (e : ε) (r : ρ) (s' : σ) : Prop :=
  P s e ∧ step s e r s'

variable {step step' : σ → ε → ρ → σ → Prop} {P : σ → ε → Prop} {s₀ s s' : σ} {e : ε} {r : ρ}
  {tr tr₁ tr₂ : List (σ × ε × ρ)}

/-- What holds at the start and is kept by every step holds after every run. -/
theorem Run.inv (I : σ → Prop) (h : Run step s₀ tr s) (h0 : I s₀)
    (hs : ∀ s e r s', I s → step s e r s' → I s') : I s := by
  induction h with
  | nil => exact h0
  | snoc _ hst ih => exact hs _ _ _ _ ih hst

theorem Run.mono (h : Run step s₀ tr s) (hs : ∀ s e r s', step s e r s' → step' s e r s') : Run step' s₀ tr s := by
  induction h with
  | nil => exact .nil
  | snoc _ hst ih => exact ih.snoc (hs _ _ _ _ hst)

/-- The trace of a run, with an invariant that ties it to the state reached. -/
theorem Run.inv_trace (I : List (σ × ε × ρ) → σ → Prop) (h : Run step s₀ tr s) (h0 : I [] s₀)
    (hs : ∀ tr s e r s', Run step s₀ tr s → I tr s → step s e r s' → I (tr ++ [(s, e, r)]) s') : I tr s := by
  induction h with
  | nil => exact h0
  | snoc hr hst ih => exact hs _ _ _ _ _ hr ih hst

/-- Every step of a run was taken in a state the run had reached. -/
theorem Run.cut (h : Run step s₀ tr s) (ht : tr = tr₁ ++ (s', e, r) :: tr₂) :
    ∃ s'', Run step s₀ tr₁ s' ∧ step s' e r s'' ∧ Run step s₀ (tr₁ ++ [(s', e, r)]) s'' ∧
      Run step s'' tr₂ s := by
  induction h generalizing tr₂ with
  | nil => simp at ht
  | @snoc tr t f q t' hr hst ih =>
    rcases List.eq_nil_or_concat tr₂ with rfl | ⟨tr₃, x, rfl⟩
    · obtain ⟨rfl, he⟩ := List.append_inj' ht rfl
      simp only [List.cons.injEq, Prod.mk.injEq, and_true] at he
      obtain ⟨rfl, rfl, rfl⟩ := he
      exact ⟨t', hr, hst, hr.snoc hst, .nil⟩
    · rw [List.concat_eq_append, ← List.cons_append, ← List.append_assoc] at ht
      obtain ⟨he, hx⟩ := List.append_inj' ht rfl
      simp only [List.cons.injEq, and_true] at hx
      obtain ⟨s'', h₁, h₂, h₃, h₄⟩ := ih he
      subst hx
      exact ⟨s'', h₁, h₂, h₃, by simpa using h₄.snoc hst⟩

/-- A step before a run. -/
theorem Run.cons (hst : step s e r s₀) (h : Run step s₀ tr s') : Run step s ((s, e, r) :: tr) s' := by
  induction h with
  | nil => exact Run.snoc .nil hst
  | snoc _ hst' ih => exact ih.snoc hst'

/-! ## Conditions on the trace -/

/-- Every step of the trace meets a condition on the steps before it, its state and its event. -/
def Along (C : List (σ × ε × ρ) → σ → ε → Prop) : List (σ × ε × ρ) → List (σ × ε × ρ) → Prop
  | _, [] => True
  | past, c :: tr => C past c.1 c.2.1 ∧ Along C (past ++ [c]) tr

variable {C C' : List (σ × ε × ρ) → σ → ε → Prop} {past : List (σ × ε × ρ)}

instance [∀ tr s e, Decidable (C tr s e)] : (past tr : List (σ × ε × ρ)) → Decidable (Along C past tr)
  | _, [] => inferInstanceAs (Decidable True)
  | past, c :: tr =>
    have : Decidable (Along C (past ++ [c]) tr) := instDecidableAlong (past ++ [c]) tr
    inferInstanceAs (Decidable (C past c.1 c.2.1 ∧ Along C (past ++ [c]) tr))

theorem along_append : Along C past (tr₁ ++ tr₂) ↔ Along C past tr₁ ∧ Along C (past ++ tr₁) tr₂ := by
  induction tr₁ generalizing past with
  | nil => simp [Along]
  | cons c tr₁ ih => simp [Along, ih, and_assoc]

theorem along_snoc : Along C past (tr ++ [(s, e, r)]) ↔ Along C past tr ∧ C (past ++ tr) s e := by
  simp [along_append, Along]

theorem Along.mono (h : Along C past tr) (hC : ∀ tr s e, C tr s e → C' tr s e) : Along C' past tr := by
  induction tr generalizing past with
  | nil => trivial
  | cons c tr ih => exact ⟨hC _ _ _ h.1, ih h.2⟩

/-- An invariant of the runs whose trace meets a condition. -/
theorem Run.inv_along (I : List (σ × ε × ρ) → σ → Prop) (h : Run step s₀ tr s) (hc : Along C past tr) (h0 : I [] s₀)
    (hs : ∀ tr s e r s', I tr s → C (past ++ tr) s e → step s e r s' → I (tr ++ [(s, e, r)]) s') : I tr s := by
  induction h with
  | nil => exact h0
  | snoc _ hst ih =>
    obtain ⟨hc, hce⟩ := along_snoc.1 hc
    exact hs _ _ _ _ _ (ih hc) hce hst

/-! ## Playing events -/

/-- The events one after the other, as long as `exec` takes a step. -/
def play (exec : σ → ε → Option (ρ × σ)) : List ε → List (σ × ε × ρ) × σ → Option (List (σ × ε × ρ) × σ)
  | [], c => some c
  | e :: es, (tr, s) =>
    match exec s e with
    | some (r, s') => play exec es (tr ++ [(s, e, r)], s')
    | none => none

theorem Run.of_play {exec : σ → ε → Option (ρ × σ)} {es : List ε} {c : List (σ × ε × ρ) × σ}
    (hx : ∀ s e r s', exec s e = some (r, s') → step s e r s') (h : Run step s₀ tr s) (hp : play exec es (tr, s) = some c) :
    Run step s₀ c.1 c.2 := by
  induction es generalizing tr s with
  | nil =>
    obtain rfl := Option.some.inj hp
    exact h
  | cons e es ih =>
    unfold play at hp
    split at hp
    · next r s' he => exact ih (h.snoc (hx _ _ _ _ he)) hp
    · cases hp

end Lib
