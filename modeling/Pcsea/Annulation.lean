import Pcsea.Echanges
/-!
# Calls cancelled by `pdelete` and `preset`

The processes they wake are put in a list whose tail is thrown away:
`shouldReceiveNegativeOne` stays NULL, and a call that goes on never learns
that its queue was deleted or reset.
-/

namespace Pcsea

open Lib

variable {s s' : St} {e : Event} {r : Issue} {tr : List (St × Event × Issue)} {q : Fin NBQUEUE} {x : Slot} {v : Int}

/-! ## The list of the cancelled calls -/

/-- No call is cancelled. -/
def Silencieux (s : St) : Prop := s.messages.shouldReceiveNegativeOne = none

/-- The list stays empty, whatever happens. -/
theorem parcours_silencieux {C : St → Event → Prop} (hr : Parcours C tr s) : Silencieux s :=
  parcours_garde maintient_silence rfl hr

/-! ## Cancelled calls -/

/-- The event deletes or resets the queue. -/
def Annulation (s : St) (e : Event) (q : Fin NBQUEUE) : Prop :=
  ∃ fid, (e = .appel (.pdelete fid) ∨ e = .appel (.preset fid)) ∧ s.messages.ouverte fid = some q

/-- `x` was blocked on a queue when it was deleted or reset, and has not run since. -/
def Annule (tr : List (St × Event × Issue)) (x : Slot) : Prop :=
  ∃ tr₁ t e r tr₂ q, tr = tr₁ ++ (t, e, r) :: tr₂ ∧ Annulation t e q ∧ Bloque t q x ∧ ∀ c ∈ tr₂, c.1.cpu.code ≠ x

/-- Cancelled calls, and no others, return -1, and leave the queues alone. -/
structure AnnulationExacte (tr : List (St × Event × Issue)) (s : St) (e : Event) (r : Issue) (s' : St) : Prop where
  annule : e = .suite → s.cpu.suite.transmet = true → Annule tr s.cpu.code → r = .rend (-1) ∧ s'.messages = s.messages
  autres : e = .suite → s.cpu.suite.transmet = true → ¬Annule tr s.cpu.code → r ≠ .rend (-1)
  appels : ∀ fid, (e = .appel (.preceive fid) ∨ ∃ v, e = .appel (.psend fid v)) → r = .rend (-1) →
    s.messages.ouverte fid = none

/-- A queue is deleted or reset only when no process is blocked on it. -/
def SansBloque (s : St) : Event → Prop
  | .appel (.pdelete fid) => ∀ q, s.messages.ouverte fid = some q → ∀ x, ¬Bloque s q x
  | .appel (.preset fid) => ∀ q, s.messages.ouverte fid = some q → ∀ x, ¬Bloque s q x
  | _ => True

theorem SansBloque.annulation (h : SansBloque s e) (ha : Annulation s e q) : ¬Bloque s q x := by
  obtain ⟨fid, rfl | rfl, hq⟩ := ha
  · exact h q hq x
  · exact h q hq x

theorem poursuit_silencieux (h : Silencieux s) (ht : s.cpu.suite.transmet = true) (ho : poursuit s = .ok (r, s')) :
    r ≠ .rend (-1) := by
  have hc : Silencieux (s.setSuite .code) := h
  unfold poursuit at ho
  split at ho
  · next hs => simp [Suite.transmet, hs] at ht
  · rw [(psendFin_ok hc ho).1]
    simp
  · obtain ⟨v, m, rfl, -⟩ := preceiveFin_ok hc ho
    simp
  · next hs => simp [Suite.transmet, hs] at ht
  · next hs => simp [Suite.transmet, hs] at ht
  · next hs => simp [Suite.transmet, hs] at ht
  · cases ho

theorem psend_refuse {fid : Int} (h : Silencieux s) (ho : psend fid v s = .ok (r, s')) (hr : r = .rend (-1)) :
    s.messages.ouverte fid = none := by
  rcases psend_ok ho with ⟨hq, -, -⟩ | ⟨a, k, -, -, -, hfin⟩ | ⟨a, k, consum, heap, -, -, -, -, rfl, -⟩
  · exact hq
  · rw [(psendFin_ok h hfin).1] at hr
    cases hr
  · cases hr

theorem preceive_refuse {fid : Int} (h : Silencieux s) (ho : preceive fid s = .ok (r, s')) (hr : r = .rend (-1)) :
    s.messages.ouverte fid = none := by
  rcases preceive_ok ho with ⟨hq, -, -⟩ | ⟨a, k, -, -, -, hfin⟩ | ⟨a, k, prod, heap, -, -, -, -, rfl, -⟩
  · exact hq
  · obtain ⟨w, m, rfl, -⟩ := preceiveFin_ok h hfin
    cases hr
  · cases hr

/-! ## Runs -/

/-- When no queue is deleted or reset while a process is blocked on it, every call on the queues ends as it should. -/
theorem cancelled_calls {s' : St} (hr : Parcours SansBloque tr s) (ho : Pas s e r s') : AnnulationExacte tr s e r s' := by
  have hs : Silencieux s := parcours_silencieux hr
  refine ⟨fun _ _ ha => ?_, fun he ht _ => ?_, fun fid he hr' => ?_⟩
  · obtain ⟨tr₁, t, e₁, r₁, tr₂, q, ht, hq, hb, -⟩ := ha
    obtain ⟨s₁, -, ⟨hc, -⟩, -⟩ := hr.cut ht
    exact absurd hb (hc.annulation hq)
  · subst he
    exact poursuit_silencieux hs ht ho.2
  · rcases he with rfl | ⟨v, rfl⟩
    · exact preceive_refuse hs ho.2 hr'
    · exact psend_refuse hs ho.2 hr'

instance (s : St) : (e : Event) → Decidable (SansBloque s e)
  | .appel (.pdelete fid) | .appel (.preset fid) =>
    inferInstanceAs (Decidable (∀ q, s.messages.ouverte fid = some q → ∀ x, ¬Bloque s q x))
  | .appel (.start _ _ _) | .appel (.exit _) | .appel (.retour _) | .appel (.kill _) | .appel (.chprio _ _)
  | .appel (.waitpid _ _) | .appel (.dors _) | .appel (.sleepUntil _) | .appel (.waitClock _) | .appel (.pcreate _ _)
  | .appel (.psend _ _) | .appel (.preceive _) | .suite | .tick => inferInstanceAs (Decidable True)

/-- A queue is reset while its only sender has been woken: the send goes on. -/
theorem cancelled_calls_run :
    ∃ tr s v s', Parcours SansBloque tr s ∧ Pas s .suite (.emis ⟨0, by decide⟩ v) s' ∧
      AnnulationExacte tr s .suite (.emis ⟨0, by decide⟩ v) s' := by
  obtain ⟨tr, s, hr, hq⟩ := deroule_any (P := SansBloque)
    (Q := fun _ s => ((tente s .suite).any fun c => c.1 = .emis ⟨0, by decide⟩ 8) = true) boot
    [.appel (.pcreate 1 (some fun _ => 0)), .appel (.psend 0 7), .appel (.start 512 1 "p"), .tick, .appel (.psend 0 8),
      .appel (.preceive 0), .appel (.preset 0), .tick] (by decide +kernel)
  obtain ⟨⟨r, s'⟩, hs', hr'⟩ := Option.any_eq_true .. |>.1 hq
  obtain rfl := of_decide_eq_true hr'
  have ho := tente_eq_some.1 hs'
  exact ⟨tr, s, 8, s', hr, ho, cancelled_calls hr ho⟩

/-- A sender blocked on a queue that is reset writes into it when it goes on, and returns 0. -/
theorem cancelled_calls_fails :
    ¬∀ tr s e r s', Parcours (fun _ _ => True) tr s → Pas s e r s' → AnnulationExacte tr s e r s' := by
  intro h
  obtain ⟨tr, t, hr, hq, hb, hx⟩ := deroule_any (P := fun _ _ => True)
    (Q := fun _ t => t.messages.ouverte 0 = some ⟨0, by decide⟩ ∧ Bloque t ⟨0, by decide⟩ 1 ∧
      ((tente t (.appel (.preset 0))).any fun c₁ => c₁.2.cpu.code ≠ 1 ∧
        ((tente c₁.2 .tick).any fun c₂ => c₂.2.cpu.code = 1 ∧ c₂.2.cpu.suite.transmet = true ∧
          ((tente c₂.2 .suite).any fun c₃ => c₃.1 = .emis ⟨0, by decide⟩ 8) = true) = true) = true) boot
    [.appel (.pcreate 1 (some fun _ => 0)), .appel (.psend 0 7), .appel (.start 512 1 "p"), .tick, .appel (.psend 0 8)]
    (by decide +kernel)
  simp only [Option.any_eq_true, decide_eq_true_eq] at hx
  obtain ⟨⟨r₁, s₁⟩, h₁, hne, ⟨r₂, s₂⟩, h₂, hc, ht, ⟨r₃, s₃⟩, h₃, rfl⟩ := hx
  have hr₂ := (hr.snoc ⟨trivial, tente_eq_some.1 h₁⟩).snoc ⟨trivial, tente_eq_some.1 h₂⟩
  have ha : Annule (tr ++ [(t, .appel (.preset 0), r₁)] ++ [(s₁, .tick, r₂)]) 1 := by
    refine ⟨tr, t, _, r₁, [(s₁, .tick, r₂)], ⟨0, by decide⟩, by simp, ⟨0, .inr rfl, hq⟩, hb, fun c hcm => ?_⟩
    rw [List.mem_singleton.1 hcm]
    exact hne
  have hres := (h _ s₂ .suite _ s₃ hr₂ (tente_eq_some.1 h₃)).annule rfl ht (by rw [hc]; exact ha)
  cases hres.1

end Pcsea
