import Pcsea.Histoire
import Pcsea.Fenetre
/-!
# Waking before time

`wait_clock(c)` asks for the tick `c / CLOCKFREQ`, and `wake_process` compares
it to `nb_tick`: the process may wake `CLOCKFREQ` times too early. It does when
it is the first sleeper at a call of `ordonnance` made between the two ticks,
and sleeps until `c` otherwise.
-/

namespace Pcsea

open Lib

variable {s s' : St} {p : Slot → Place} {a x : Slot} {e : Event} {r : Issue} {tr : List (St × Event × Issue)} {c : Nat}

/-- `wake_process`, when the step calls `ordonnance`, leaves asleep who sleeps and waits for a tick that has not come. -/
def JamaisTot (past : List (St × Event × Issue)) (s : St) (e : Event) : Prop :=
  ∀ s₁ s₂, Planifie s e s₁ → wakeProcess s₁ = .ok s₂ → ∀ x c, attendApres x (attendue x past) s e = some c →
    s₁.nbTick < c → s₁.state x = .endormi → s₂.state x = .endormi

theorem HorsFenetre.jamaisTot (h : HorsFenetre tr s e) (hr : Parcours (fun _ _ => True) tr s) : JamaisTot tr s e := by
  intro s₁ s₂ hp hw x c hc hlt hx
  rcases wakeProcess_etats hw with ⟨y, hy, hd, hst⟩ | ⟨-, hst⟩
  · have hxy : x ≠ y := by
      rintro rfl
      exact absurd (h.echu hr hp hy hd hc) (by omega)
    rw [hst, Function.update_of_ne hxy, hx]
  · rw [hst, hx]

/-- The first sleeper is asleep. -/
theorem premierDormeur_endormi (h : Inv melange a s p) (hx : premierDormeur s e = some x) :
    s.state x = .endormi ∨ s.actif = some x ∧ e.reveil ≠ none := by
  obtain ⟨q, l, d, hrep⟩ := h.rep
  have hmem (hx : s.endormiList = some x) : s.state x = .endormi :=
    hrep.state_eq_endormi.2 (.inl ((hrep.sleep x).1 (List.mem_of_head? (hrep.lists.sleep.head.symm.trans hx))))
  have hdormeur (hx : s.dormeur = some x) : s.state x = .endormi := by
    unfold St.dormeur at hx
    split at hx
    · cases hx
    · exact hmem hx
  unfold premierDormeur at hx
  split at hx
  · next b time hb hrev =>
    have hcaller (hbx : b = x) : s.actif = some x ∧ e.reveil ≠ none := ⟨hbx ▸ hb, by simp [hrev]⟩
    split at hx
    · exact .inr (hcaller (Option.some.inj hx))
    · obtain ⟨y, hy, hyx⟩ := Option.map_eq_some_iff.1 hx
      split at hyx
      · exact .inr (hcaller hyx)
      · exact .inl (hmem (hyx ▸ hy))
  · exact .inl (hdormeur hx)

theorem JamaisTot.horsFenetre (h : JamaisTot tr s e) (hr : Parcours (fun _ _ => True) tr s) (hi : Inv melange a s p)
    (ho : joue e s = .ok (r, s')) : HorsFenetre tr s e := by
  rintro he x hx c hc ⟨hle, hlt⟩
  obtain ⟨s₁, hp⟩ := planifie_of_appelle he ho
  obtain ⟨s₂, hw, -⟩ := bind_eq_ok.1 (hp.fin ho)
  have hst := h s₁ s₂ hp hw x c hc (hp.nbTick ▸ hlt) (hp.endormi (premierDormeur_endormi hi hx))
  rcases wakeProcess_etats hw with ⟨y, hy, -, hst'⟩ | ⟨hno, -⟩
  · obtain rfl : y = x := Option.some.inj (hy.symm.trans (hp.dormeur.trans hx))
    rw [hst', Function.update_self] at hst
    cases hst
  · have hlate := hno x (hp.dormeur.trans hx)
    rw [attendApres_echeance hr hp hc, hp.nbTick] at hlate
    exact absurd hle (not_le.2 (by exact_mod_cast hlate))

/-! ## The whole wait -/

/-- The pid that a call of `kill` names, when it does not refuse it. -/
def Event.vise : Event → Option Int
  | .appel (.kill pid) => if pid ≤ 0 then none else some pid
  | _ => none

/-- The tick until which process `x` is to sleep: it gave it to `wait_clock`, and since then it was neither killed nor replaced,
called to sleep no more, and no step has ended at that tick or later. -/
def dortJusque (x : Slot) (tr : List (St × Event × Issue)) : Option Nat :=
  tr.foldl (fun t y => if y.2.2 = .cree x ∨ y.2.1.vise = some (y.1.pid x) then none
    else (attendApres x t y.1 y.2.1).filter fun c => heure y.1 y.2.1 < c) none

theorem dortJusque_snoc : dortJusque x (tr ++ [(s, e, r)]) = some c ↔
    r ≠ .cree x ∧ e.vise ≠ some (s.pid x) ∧ attendApres x (dortJusque x tr) s e = some c ∧ heure s e < c := by
  simp only [dortJusque, List.foldl_append, List.foldl_cons, List.foldl_nil]
  split
  · next h => simp only [reduceCtorEq, false_iff, not_and_or, not_not]; tauto
  · next h =>
    rw [not_or] at h
    simp [Option.filter_eq_some_iff, h]

theorem attendApres_mono {t t' : Option Nat} (h : ∀ c, t = some c → t' = some c) (hc : attendApres x t s e = some c) :
    attendApres x t' s e = some c := by
  unfold attendApres at hc ⊢
  split
  · next ha => rwa [if_pos ha] at hc
  · next ha =>
    rw [if_neg ha] at hc
    exact h c hc

theorem attendue_of_dortJusque (h : dortJusque x tr = some c) : attendue x tr = some c := by
  induction tr using List.reverseRecOn generalizing c with
  | nil => cases h
  | append_singleton tr y ih =>
    obtain ⟨s, e, r⟩ := y
    obtain ⟨hr, -, hc, -⟩ := dortJusque_snoc.1 h
    rw [attendue_snoc, if_neg hr]
    exact attendApres_mono (fun c => ih) hc

/-- In a run of `Sain` steps outside the window, who is to sleep sleeps. -/
theorem dortJusque_endormi (hr : Parcours (fun _ _ => True) tr s) (hs : Along (fun _ => Sain) [] tr) (hf : Along HorsFenetre [] tr) :
    ∃ a p, Inv melange a s p ∧ ∀ x c, dortJusque x tr = some c → p x = .endormi := by
  induction hr with
  | nil => exact ⟨0, placesBoot, inv_boot _, nofun⟩
  | @snoc tr s e r s' hr hst ih =>
    obtain ⟨hs, hse⟩ := along_snoc.1 hs
    obtain ⟨hf, hfe⟩ := along_snoc.1 hf
    obtain ⟨a, p, hi, hd⟩ := ih hs hf
    obtain ⟨n, p', he⟩ := pas_spec hi hse (separe_melange s e) hst.2
    obtain ⟨q, l, d, hrep⟩ := hi.rep
    obtain ⟨q', l', d', hrep'⟩ := he.inv.rep
    refine ⟨n, p', he.inv, fun x c hc => ?_⟩
    obtain ⟨hcree, hvise, hc, hlt⟩ := dortJusque_snoc.1 hc
    have hdort (hord : AppelleOrdonnance s e) (hx : s.state x = .endormi ∨ s.actif = some x ∧ e.reveil ≠ none) :
        p' x = .endormi ∨ p' x = .bloque :=
      hrep'.state_eq_endormi.1
        (hfe.dort hr hst.2.2 hord hx (attendApres_mono (fun c => attendue_of_dortJusque) hc) hlt)
    have hva := he.va x
    by_cases ha : s.actif = some x ∧ e.reveil ≠ none
    -- The caller goes to sleep.
    · obtain ⟨time, htime⟩ := Option.ne_none_iff_exists'.1 ha.2
      refine (hdort (appelle_of_reveil htime) (.inr ha)).resolve_right fun hb => ?_
      rcases hva.bloque hb with hb' | hb'
      · rw [hi.actif_iff.1 ha.1] at hb'
        cases hb'
      · unfold Event.echange at hb'
        split at hb'
        · cases htime
        · cases htime
        · cases hb'
    -- Another one sleeps on.
    · rw [attendApres, if_neg ha] at hc
      have hpx := hd x c hc
      have hx : s.state x = .endormi := hrep.state_eq_endormi.2 (.inl hpx)
      have hmort (h : p' x = .mort) : (Event.appel (.kill (s.pid x))).vise = some (s.pid x) :=
        if_neg (not_le.2 (hi.pid_pos (by simp [hpx]) (he.inv.ne_zero (.inr h))))
      generalize p' x = P at hva hdort hmort ⊢
      cases hva with
      | reste => exact hpx
      | echeance _ _ hord hP => rcases hdort hord (.inl hx) with h | h <;> rcases hP with hP | hP <;> simp_all
      | tueEndormi _ hk => exact absurd (hk ▸ hmort rfl) hvise
      | tourne h _ => rcases h with h | h <;> simp [hpx] at h
      | libere k h _ => simp [h.1] at hpx
      | demarre h _ => rcases h.place with h | h | h <;> simp [hpx] at h
      | _ => simp_all

/-- `wait_clock` is early only when `ordonnance` is called while the first sleeper waits for a tick `c` that has not come, and
`c / CLOCKFREQ` has. In the runs whose steps are `Sain` too, this is exactly when it is, and otherwise the caller sleeps until
its tick has come. -/
theorem wait_clock_on_time (hr : Parcours (fun _ _ => True) tr s) :
    (Along HorsFenetre [] tr → Along JamaisTot [] tr) ∧
      (Along (fun _ => Sain) [] tr → (Along JamaisTot [] tr → Along HorsFenetre [] tr) ∧
        (Along HorsFenetre [] tr → ∀ x c, dortJusque x tr = some c →
          s.state x = .endormi ∧ s.actif ≠ some x ∧ s.cpu.code ≠ x)) := by
  refine ⟨fun hf => ?_, fun hs => ⟨fun hj => ?_, fun hf x c hc => ?_⟩⟩
  · induction hr with
    | nil => trivial
    | snoc hr hst ih =>
      obtain ⟨hf, hfe⟩ := along_snoc.1 hf
      exact along_snoc.2 ⟨ih hf, hfe.jamaisTot hr⟩
  · induction hr with
    | nil => trivial
    | @snoc tr s e r s' hr hst ih =>
      obtain ⟨hs, hse⟩ := along_snoc.1 hs
      obtain ⟨hj, hje⟩ := along_snoc.1 hj
      obtain ⟨a, p, hi, -⟩ := dortJusque_endormi hr hs (ih hs hj)
      exact along_snoc.2 ⟨ih hs hj, hje.horsFenetre hr hi hst.2.2⟩
  · obtain ⟨a, p, hi, hd⟩ := dortJusque_endormi hr hs hf
    obtain ⟨q, l, d, hrep⟩ := hi.rep
    have hp := hd x c hc
    have hxa : a ≠ x := by
      rintro rfl
      simp [hi.elu] at hp
    rw [hi.cpu_code, hi.actif]
    exact ⟨hrep.state_eq_endormi.2 (.inl hp), by simpa using hxa, hxa⟩

/-- A process sleeps until tick 300. -/
theorem wait_clock_on_time_run :
    ∃ tr s, Parcours (fun _ _ => True) tr s ∧
      (Along (fun _ => Sain) [] tr ∧ Along HorsFenetre [] tr ∧ dortJusque 1 tr = some 300) ∧
      (Along HorsFenetre [] tr → Along JamaisTot [] tr) ∧
      (Along (fun _ => Sain) [] tr → (Along JamaisTot [] tr → Along HorsFenetre [] tr) ∧
        (Along HorsFenetre [] tr → ∀ x c, dortJusque x tr = some c →
          s.state x = .endormi ∧ s.actif ≠ some x ∧ s.cpu.code ≠ x)) := by
  obtain ⟨tr, s, hr, h⟩ := deroule_any (P := fun _ _ => True)
    (Q := fun tr _ => Along (fun _ => Sain) [] tr ∧ Along HorsFenetre [] tr ∧ dortJusque 1 tr = some 300) boot
    [.appel (.start 512 5 "p"), .tick, .appel (.waitClock 300), .tick] (by decide +kernel)
  exact ⟨tr, s, hr, h, wait_clock_on_time hr⟩

/-- Process 0 asks for tick 50 at the start, and is made ready at once. -/
theorem wait_clock_on_time_fails : ¬∀ tr s, Parcours (fun _ _ => True) tr s → Along JamaisTot [] tr := by
  intro h
  obtain ⟨⟨r, s'⟩, hs⟩ := Option.isSome_iff_exists.1
    (by decide +kernel : (tente boot (.appel (.waitClock 50))).isSome = true)
  have hpas := tente_eq_some.1 hs
  have hjamais := h _ _ (Run.nil.snoc ⟨trivial, hpas⟩)
  have hfenetre : HorsFenetre [] boot (.appel (.waitClock 50)) := hjamais.1.horsFenetre .nil (inv_boot _) hpas.2
  exact absurd hfenetre (by decide +kernel)

end Pcsea
