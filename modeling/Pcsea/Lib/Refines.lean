import Mathlib.Data.List.Basic
import Pcsea.Lib.Outcome
/-!
# Programs that do what a machine does

An abstract machine allows some operations in each of its states; the
operations of a program may fail. `Refines step exec R`: on states that `R`
relates, an operation that the machine allows does not fail, gives the same
result and keeps `R`. Sequences of operations then do the same.
-/

namespace Lib

universe u v w x
variable {ω : Type u} {σ : Type v} {ρ τ : Type w} {ε : Type x}

/-- The results of a sequence of operations and the state after it, if the machine allows them all. -/
def runAll (step : ω → σ → Option (ρ × σ)) : List ω → σ → Option (List ρ × σ)
  | [], a => some ([], a)
  | op :: ops, a =>
    match step op a with
    | none => none
    | some (r, a) => (runAll step ops a).map fun c => (r :: c.1, c.2)

def execAll (exec : ω → τ → Except ε (ρ × τ)) : List ω → τ → Except ε (List ρ × τ)
  | [], t => .ok ([], t)
  | op :: ops, t => do
    let (r, t) ← exec op t
    let (rs, t) ← execAll exec ops t
    .ok (r :: rs, t)

def Refines (step : ω → σ → Option (ρ × σ)) (exec : ω → τ → Except ε (ρ × τ)) (R : σ → τ → Prop) : Prop :=
  ∀ op a r a' t, R a t → step op a = some (r, a') → ∃ t', exec op t = .ok (r, t') ∧ R a' t'

variable {step : ω → σ → Option (ρ × σ)} {exec : ω → τ → Except ε (ρ × τ)} {R : σ → τ → Prop} {op : ω} {ops : List ω}
  {a a' : σ} {t : τ} {rs : List ρ}

@[simp] theorem runAll_nil : runAll step [] a = some (rs, a') ↔ rs = [] ∧ a' = a := by
  simp [runAll, eq_comm]

theorem runAll_cons : runAll step (op :: ops) a = some (rs, a') ↔
    ∃ r a₁ rs₁, step op a = some (r, a₁) ∧ runAll step ops a₁ = some (rs₁, a') ∧ rs = r :: rs₁ := by
  rw [runAll]
  cases hop : step op a with
  | none => simp
  | some c =>
    obtain ⟨r, a₁⟩ := c
    constructor
    · intro h
      obtain ⟨⟨rs₁, a₂⟩, hrun, hres⟩ := Option.map_eq_some_iff.1 h
      cases hres
      exact ⟨r, a₁, rs₁, rfl, hrun, rfl⟩
    · rintro ⟨r, a₁, rs₁, h₁, hrun, rfl⟩
      cases h₁
      simp [hrun]

theorem runAll_concat : runAll step (ops ++ [op]) a = some (rs, a') ↔
    ∃ rs₁ a₁ r, runAll step ops a = some (rs₁, a₁) ∧ step op a₁ = some (r, a') ∧ rs = rs₁ ++ [r] := by
  induction ops generalizing a rs with
  | nil =>
    rw [List.nil_append, runAll_cons]
    constructor
    · rintro ⟨r, a₁, rs₁, hop, hrun, rfl⟩
      obtain ⟨rfl, rfl⟩ := runAll_nil.1 hrun
      exact ⟨[], a, r, rfl, hop, rfl⟩
    · rintro ⟨rs₁, a₁, r, hrun, hop, rfl⟩
      obtain ⟨rfl, rfl⟩ := runAll_nil.1 hrun
      exact ⟨r, a', [], hop, rfl, rfl⟩
  | cons o ops ih =>
    rw [List.cons_append, runAll_cons]
    constructor
    · rintro ⟨r, a₁, rs₁, ho, hrun, rfl⟩
      obtain ⟨rs₂, a₂, r₂, hrun₂, hop, rfl⟩ := ih.1 hrun
      exact ⟨r :: rs₂, a₂, r₂, runAll_cons.2 ⟨r, a₁, rs₂, ho, hrun₂, rfl⟩, hop, rfl⟩
    · rintro ⟨rs₁, a₁, r, hrun, hop, rfl⟩
      obtain ⟨r₁, a₂, rs₂, ho, hrun₂, rfl⟩ := runAll_cons.1 hrun
      exact ⟨r₁, a₂, rs₂ ++ [r], ho, ih.2 ⟨rs₂, a₁, r, hrun₂, hop, rfl⟩, rfl⟩

/-- A sequence of operations does what it does on the machine. -/
theorem Refines.execAll (h : Refines step exec R) (hR : R a t) (hr : runAll step ops a = some (rs, a')) :
    ∃ t', execAll exec ops t = .ok (rs, t') ∧ R a' t' := by
  induction ops generalizing a t rs with
  | nil =>
    obtain ⟨rfl, rfl⟩ := runAll_nil.1 hr
    exact ⟨t, rfl, hR⟩
  | cons op ops ih =>
    obtain ⟨r, a₁, rs₁, hop, hrun, rfl⟩ := runAll_cons.1 hr
    obtain ⟨t₁, h₁, hR₁⟩ := h op a r a₁ t hR hop
    obtain ⟨t₂, h₂, hR₂⟩ := ih hR₁ hrun
    refine ⟨t₂, ?_, hR₂⟩
    rw [Lib.execAll, h₁, ok_bind]
    dsimp only
    rw [h₂]
    rfl

/-! ## Machines that allow every operation -/

/-- The results of a sequence of operations and the state after it. -/
def runTotal (act : ω → σ → ρ × σ) : List ω → σ → List ρ × σ
  | [], a => ([], a)
  | op :: ops, a => ((act op a).1 :: (runTotal act ops (act op a).2).1, (runTotal act ops (act op a).2).2)

variable {act : ω → σ → ρ × σ}

theorem runAll_runTotal (ops : List ω) (a : σ) : runAll (fun op a => some (act op a)) ops a = some (runTotal act ops a) := by
  induction ops generalizing a with
  | nil => rfl
  | cons op ops ih =>
    rw [runAll]
    dsimp only
    rw [ih]
    rfl

theorem runTotal_concat (ops : List ω) (op : ω) (a : σ) : runTotal act (ops ++ [op]) a =
    ((runTotal act ops a).1 ++ [(act op (runTotal act ops a).2).1], (act op (runTotal act ops a).2).2) := by
  induction ops generalizing a with
  | nil => rfl
  | cons o ops ih => simp [runTotal, ih]

theorem execAll_concat {t₁ t₂ : τ} {r : ρ} (h : execAll exec ops t = .ok (rs, t₁)) (ho : exec op t₁ = .ok (r, t₂)) :
    execAll exec (ops ++ [op]) t = .ok (rs ++ [r], t₂) := by
  induction ops generalizing t rs with
  | nil =>
    cases h
    rw [List.nil_append, execAll, ho]
    rfl
  | cons o ops ih =>
    rw [execAll] at h
    obtain ⟨⟨r', t'⟩, ho', h⟩ := bind_eq_ok.1 h
    obtain ⟨⟨rs', t''⟩, hrun, h⟩ := bind_eq_ok.1 h
    cases h
    rw [List.cons_append, execAll, ho', ok_bind]
    dsimp only
    rw [ih hrun]
    rfl

end Lib
