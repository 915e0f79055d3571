import Pcsea.Histoire
import Pcsea.Fenetre
/-!
# Processes that sleep or wait

A process whose state is `ENDORMI` does not run, and leaves that state by what
it waits for only: its tick, or a call on the queue it waits for in the other
role. `demande` is the tick a process last asked to be woken at, which for
`wait_clock` is not the one that `wake_process` compares with the clock.
-/

namespace Pcsea

open Lib

variable {s s' : St} {p p' : Slot → Place} {a i n : Slot} {e : Event} {r : Issue} {tr : List (St × Event × Issue)}

/-- Labels that tell senders and receivers apart. -/
def role : Fin NBQUEUE → Bool → Fin NBQUEUE × Bool := fun q b => (q, b)

/-- No receiver blocks while senders wait. -/
def SansEmetteur (s : St) : Event → Prop
  | .appel (.preceive fid) => ∀ q, s.messages.ouverte fid = some q → (s.messages.fifoTab q).nbElement = 0 →
      (s.messages.fifoTab q).consum = none
  | _ => True

theorem separe_role (h : SansEmetteur s e) : Separe role s e := by
  unfold SansEmetteur at h
  unfold Separe
  split
  · exact fun q hq hn => .inl (h q hq hn)
  · trivial

/-- The wake-up tick process `i` last asked for. -/
def demande (i : Slot) (tr : List (St × Event × Issue)) : Option ℚ :=
  tr.foldl (fun t x => if x.1.actif = some i ∧ x.2.1.voulu ≠ none then x.2.1.voulu else t) none

theorem demande_snoc : demande i (tr ++ [(s, e, r)]) = if s.actif = some i ∧ e.voulu ≠ none then e.voulu else demande i tr := by
  simp [demande]

/-- The tick asked for is the one written, or that given to `wait_clock`. -/
theorem voulu_of_reveil {time : ℚ} (h : e.reveil = some time) :
    ∃ t, e.voulu = some t ∧ (time = t ∨ ∃ c : Nat, e.clock = some c ∧ t = c) := by
  cases e with
  | appel c =>
    cases c with
    | dors nbrSecs => exact ⟨_, rfl, .inl (Option.some.inj h).symm⟩
    | sleepUntil time' => exact ⟨_, rfl, .inl (Option.some.inj h).symm⟩
    | waitClock clock => exact ⟨_, rfl, .inr ⟨clock, rfl, rfl⟩⟩
    | _ => cases h
  | suite => cases h
  | tick => cases h

theorem reveil_of_voulu {t : ℚ} (h : e.voulu = some t) :
    ∃ time, e.reveil = some time ∧ (time = t ∨ ∃ c : Nat, e.clock = some c ∧ t = c) := by
  cases e with
  | appel c =>
    cases c with
    | dors nbrSecs => exact ⟨_, rfl, .inl (Option.some.inj h)⟩
    | sleepUntil time' => exact ⟨_, rfl, .inl (Option.some.inj h)⟩
    | waitClock clock => exact ⟨_, rfl, .inr ⟨clock, rfl, (Option.some.inj h).symm⟩⟩
    | _ => cases h
  | suite => cases h
  | tick => cases h

/-- `e` takes a message from queue `q`, or removes or empties the queue. -/
def Retire (s : St) (q : Fin NBQUEUE) : Event → Prop
  | .appel (.preceive fid) => s.messages.ouverte fid = some q
  | .appel (.pdelete fid) => s.messages.ouverte fid = some q
  | .appel (.preset fid) => s.messages.ouverte fid = some q
  | .suite => ∃ tmp, s.cpu.suite = .preceive q tmp
  | _ => False

/-- `e` puts a message in queue `q`. -/
def Depose (s : St) (q : Fin NBQUEUE) : Event → Prop
  | .appel (.psend fid _) => s.messages.ouverte fid = some q
  | .suite => ∃ message tmp, s.cpu.suite = .psend q message tmp
  | _ => False

theorem Libere.retire {q : Fin NBQUEUE} (h : Libere role s (q, true) e) : Retire s q e := by
  unfold Libere at h
  split at h
  · obtain ⟨q', -, h⟩ := h
    cases h
  · obtain ⟨q', hq, h⟩ := h
    cases h
    exact hq
  · obtain ⟨q', hq, h⟩ := h
    cases h
    exact hq
  · obtain ⟨q', hq, h⟩ := h
    cases h
    exact hq
  · rcases h with ⟨q', message, tmp, -, h⟩ | ⟨q', tmp, hs, h⟩
    · cases h
    · cases h
      exact ⟨tmp, hs⟩
  · exact h.elim

theorem Libere.depose {q : Fin NBQUEUE} (h : Libere role s (q, false) e) : Depose s q e := by
  unfold Libere at h
  split at h
  · obtain ⟨q', hq, h⟩ := h
    cases h
    exact hq
  · obtain ⟨q', hq, h⟩ := h
    cases h
  · obtain ⟨q', hq, h⟩ := h
    cases h
  · obtain ⟨q', hq, h⟩ := h
    cases h
  · rcases h with ⟨q', message, tmp, hs, h⟩ | ⟨q', tmp, -, h⟩
    · cases h
      exact ⟨message, tmp, hs⟩
    · cases h
  · exact h.elim

/-- What brings process `i` out of `ENDORMI`. -/
inductive Reveil (tr : List (St × Event × Issue)) (s : St) (e : Event) (s' : St) (i : Slot) : Prop
  | echeance (time : ℚ) : Met s.suiv s.endormiList i → demande i tr = some time → time ≤ s'.nbTick → Reveil tr s e s' i
  | place (q : Fin NBQUEUE) (message : Int) (tmp : Slot) :
    s.contexte i = some ⟨i, .psend q message tmp⟩ → Retire s q e → Reveil tr s e s' i
  | message (q : Fin NBQUEUE) (tmp : Slot) : s.contexte i = some ⟨i, .preceive q tmp⟩ → Depose s q e → Reveil tr s e s' i
  | tue : e = .appel (.kill (s.pid i)) → s'.state i = .mort → Reveil tr s e s' i

/-- The steps of a run in which blocked processes do wait. -/
def Patient (s : St) (e : Event) : Prop := Sain s e ∧ SansEmetteur s e

/-- A sleeper asked for the tick it is to be woken at, or gave it to `wait_clock`. -/
theorem patient_spec (hr : Parcours Patient tr s) :
    ∃ a p, Inv role a s p ∧ (∀ i, p i ≠ .libre ↔ Lance tr i) ∧
      ∀ i, p i = .endormi → ∃ t, demande i tr = some t ∧ (s.timeToWake i = t ∨ ∃ c : Nat, attendue i tr = some c ∧ t = c) := by
  refine parcours_spec (fun s e h => ⟨h.1, separe_role h.2⟩)
    (fun tr s p => ∀ i, p i = .endormi →
      ∃ t, demande i tr = some t ∧ (s.timeToWake i = t ∨ ∃ c : Nat, attendue i tr = some c ∧ t = c)) (fun i hi => ?_) ?_ hr
  · by_cases h0 : i = 0 <;> simp [placesBoot, h0] at hi
  · intro tr a s p e r s' n p' hinv hd _ he i hi
    have hcree : r ≠ .cree i := fun h => by
      have := (he.cree i h).2.1
      simp [hi] at this
    have hva := he.va i
    rw [demande_snoc, attendue_snoc, if_neg hcree]
    generalize p' i = P at hva hi
    cases hva with
    | reste =>
      have hne : i ≠ a := by
        rintro rfl
        simp [hinv.elu] at hi
      have hact : s.actif ≠ some i := by simpa [hinv.actif] using hne.symm
      rw [if_neg fun h => hact h.1, he.reveil i hne, attendApres, if_neg fun h => hact h.1]
      exact hd i hi
    | dort time hpi hrev htime =>
      obtain rfl := hinv.seul i hpi
      obtain ⟨t, ht, hor⟩ := voulu_of_reveil hrev
      rw [if_pos ⟨hinv.actif, by simp [ht]⟩, htime, attendApres, if_pos ⟨hinv.actif, by simp [hrev]⟩]
      exact ⟨t, ht, hor⟩
    | tourne _ hP => rcases hP with hP | hP <;> simp [hP] at hi
    | echeance _ _ _ hP => rcases hP with hP | hP <;> simp [hP] at hi
    | _ => cases hi

/-- A call that blocks leaves its process asleep. -/
theorem endort (h : Inv role a s p) (hs : Patient s e) (ho : Pas s e r s') (he : e.echange = true) (hen : r = .enCours) :
    s'.state a = .endormi := by
  -- A call that goes on after `ordonnance()` left the process asleep.
  have hbloque {suite : Suite} (hs : Suspendu role a suite s s' p) : s'.state a = .endormi := by
    obtain ⟨n, p', hi, -, hpa, -⟩ := hs
    obtain ⟨q, l, d, hr⟩ := hi.rep
    exact hr.state_eq_endormi.2 (.inr hpa)
  subst hen
  unfold Event.echange at he
  split at he
  · next fid message =>
    rcases (psend_spec fid message h hs.1).of_ok ho.2 with hr | ⟨q, -, -, -, hsu⟩ | ⟨q, p', -, -, -, -, hr⟩
    · cases hr
    · exact hbloque hsu
    · cases hr
  · next fid =>
    rcases (preceive_spec fid h hs.1 (separe_role hs.2)).of_ok ho.2 with hr | ⟨q, -, -, -, hsu⟩ | ⟨q, p', -, -, -, -, v, hr⟩
    · cases hr
    · exact hbloque hsu
    · cases hr
  · cases he

/-- A process that leaves its sleep at a call of `ordonnance` has waited for the tick `t` that it asked for. -/
theorem leve {t : ℚ} (hr : Parcours Patient tr s) (hf : HorsFenetre tr s e) (ho : joue e s = .ok (r, s'))
    (he : AppelleOrdonnance s e) (hi : s.state i = .endormi ∨ s.actif = some i ∧ e.reveil ≠ none) (hi' : s'.state i ≠ .endormi)
    (ht : (e.heures s).1 i = t ∨ ∃ c : Nat, attendApres i (attendue i tr) s e = some c ∧ t = c) : t ≤ s'.nbTick := by
  obtain ⟨s₁, hp⟩ := planifie_of_appelle he ho
  have hhor : s'.heures = s₁.heures := (joue_heures ho).trans hp.heures.symm
  have hnb : s'.nbTick = s₁.nbTick := congrArg (fun h => h.2.1) hhor
  have hdue : s₁.dormeur = some i ∧ s₁.timeToWake i ≤ s₁.nbTick := by
    by_contra hn
    exact hi' (ordonnance_dort (hp.fin ho) (hp.endormi hi) fun hd => not_le.1 fun hle => hn ⟨hd, hle⟩)
  rw [hnb]
  rcases ht with ht | ⟨c, hc, rfl⟩
  · rw [← ht, ← hp.heures]
    exact hdue.2
  · exact_mod_cast hf.echu (hr.mono fun _ _ _ _ h => ⟨trivial, h.2⟩) hp hdue.1 hdue.2 hc

/-- A blocked process does not run until it is woken: in every state of a run of `Patient` steps the processes that sleep
or wait do not run, and the next such step, when it finds no sleeper in the window of `wait_clock`, wakes none before its time. -/
theorem asleep_not_running (hr : Parcours Patient tr s) :
    (∀ i, s.state i = .endormi → s.cpu.code ≠ i ∧ s.charge ≠ i ∧ s.actif ≠ some i) ∧
      ∀ e r s', Patient s e → HorsFenetre tr s e → Pas s e r s' →
        (∀ a, s.actif = some a → (∀ time, e.voulu = some time → s'.state a = .endormi ∨ time ≤ s'.nbTick) ∧
          (e.echange = true → r = .enCours → s'.state a = .endormi)) ∧
        ∀ i, s.state i = .endormi → s'.state i ≠ .endormi → Reveil tr s e s' i := by
  obtain ⟨a, p, hi, -, hd⟩ := patient_spec hr
  obtain ⟨q, l, d, hrep⟩ := hi.rep
  refine ⟨fun i hsi => ?_, fun e r s' hc hf ho => ⟨fun a' ha' => ⟨fun time ht => ?_, ?_⟩, fun i hsi hsi' => ?_⟩⟩
  · have hia : a ≠ i := by
      rintro rfl
      have := hrep.state_eq_endormi.1 hsi
      simp [hi.elu] at this
    rw [hi.cpu_code, hi.charge, hi.actif]
    exact ⟨hia, hia, by simpa using hia⟩
  · obtain ⟨rev, hrev, hor⟩ := reveil_of_voulu ht
    have hact : s.actif = some a' ∧ e.reveil ≠ none := ⟨ha', by simp [hrev]⟩
    refine or_iff_not_imp_left.2 fun hn => leve hr hf ho.2 (appelle_of_reveil hrev) (.inr hact) hn ?_
    refine hor.imp (fun he => ?_) fun ⟨c, hc, he⟩ => ⟨c, by rw [attendApres, if_pos hact, hc], he⟩
    rw [heures_of_reveil ha' hrev, he]
  · obtain rfl : a = a' := hi.actif_eq ha'
    exact endort hi hc ho
  · obtain ⟨n, p', he⟩ := pas_spec hi hc.1 (separe_role hc.2) ho
    obtain ⟨q', l', d', hrep'⟩ := he.inv.rep
    have hnot := hsi'
    rw [ne_eq, hrep'.state_eq_endormi, not_or] at hsi'
    have hse := hsi
    rw [hrep.state_eq_endormi] at hsi
    have hmort : p' i = .mort → s'.state i = .mort := hrep'.state_eq_mort.2
    have hva := he.va i
    generalize p' i = P at hva hsi' hmort
    -- Only a tick that has come, a call on its queue or a kill takes it away from there.
    cases hva with
    | reste => exact absurd hsi (not_or.2 hsi')
    | echeance hp ht hord _ =>
      obtain ⟨t, hdem, hor⟩ := hd i hp
      have hact : ¬(s.actif = some i ∧ e.reveil ≠ none) := by
        rw [hi.actif_iff, hp]
        simp
      refine .echeance t ((hrep.lists.sleep.seg.met_iff).2 ((hrep.sleep i).2 hp)) hdem ?_
      refine leve hr hf ho.2 hord (.inl hse) hnot ?_
      rwa [heures_autre hact, attendApres, if_neg hact]
    | libere k hatt hk =>
      obtain ⟨hp, c, hc, hf⟩ := hatt
      obtain ⟨c', hc', hcode⟩ := hi.code i (by simp [hp])
      obtain rfl : c = c' := Option.some.inj (hc.symm.trans hc')
      obtain ⟨code, suite⟩ := c
      obtain rfl : code = i := hcode
      cases suite with
      | psend q message tmp =>
        cases hf
        exact .place q message tmp hc hk.retire
      | preceive q tmp =>
        cases hf
        exact .message q tmp hc hk.depose
      | _ => cases hf
    | tueEndormi hp hk => exact .tue hk (hmort rfl)
    | tourne h _ => rcases hsi with hsi | hsi <;> simp [hsi] at h
    | demarre h _ => rcases h.place with h | h | h <;> simp [h] at hsi
    | _ => rcases hsi with hsi | hsi <;> simp_all

instance (s : St) : (e : Event) → Decidable (SansEmetteur s e)
  | .appel (.preceive fid) => inferInstanceAs (Decidable (∀ q, s.messages.ouverte fid = some q →
      (s.messages.fifoTab q).nbElement = 0 → (s.messages.fifoTab q).consum = none))
  | .appel (.start _ _ _) | .appel (.exit _) | .appel (.retour _) | .appel (.kill _) | .appel (.chprio _ _)
  | .appel (.waitpid _ _) | .appel (.dors _) | .appel (.sleepUntil _) | .appel (.waitClock _) | .appel (.pcreate _ _)
  | .appel (.pdelete _) | .appel (.preset _) | .appel (.psend _ _) | .suite | .tick => inferInstanceAs (Decidable True)

instance (s : St) (e : Event) : Decidable (Patient s e) := inferInstanceAs (Decidable (_ ∧ _))

/-- One process waits for a message, another sleeps. -/
theorem asleep_not_running_run :
    ∃ tr s, Parcours Patient tr s ∧ (s.state 1 = .endormi ∧ s.state 2 = .endormi) ∧
      (∀ i, s.state i = .endormi → s.cpu.code ≠ i ∧ s.charge ≠ i ∧ s.actif ≠ some i) ∧
      ∀ e r s', Patient s e → HorsFenetre tr s e → Pas s e r s' →
        (∀ a, s.actif = some a → (∀ time, e.voulu = some time → s'.state a = .endormi ∨ time ≤ s'.nbTick) ∧
          (e.echange = true → r = .enCours → s'.state a = .endormi)) ∧
        ∀ i, s.state i = .endormi → s'.state i ≠ .endormi → Reveil tr s e s' i := by
  obtain ⟨tr, s, hr, h₁, h₂⟩ := deroule_any (P := Patient) (Q := fun _ s => s.state 1 = .endormi ∧ s.state 2 = .endormi) boot
    [.appel (.pcreate 1 (some fun _ => 0)), .appel (.start 512 5 "p"), .appel (.start 512 5 "q"), .tick,
      .appel (.preceive 0), .appel (.waitClock 900)] (by decide +kernel)
  exact ⟨tr, s, hr, ⟨h₁, h₂⟩, asleep_not_running hr⟩

/-- Process 0 alone goes to sleep and runs on. -/
theorem asleep_not_running_fails : ¬∀ tr s, Parcours (fun _ _ => True) tr s → ∀ i, s.state i = .endormi → s.cpu.code ≠ i := by
  intro h
  obtain ⟨tr, s, hr, hs, hc⟩ := deroule_any (P := fun _ _ => True) (Q := fun _ s => s.state 0 = .endormi ∧ s.cpu.code = 0) boot
    [.appel (.dors 5)] (by decide +kernel)
  exact h tr s hr 0 hs hc

end Pcsea
