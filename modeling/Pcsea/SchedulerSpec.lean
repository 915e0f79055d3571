import Pcsea.Invariant
/-!
# What `ordonnance` and `fin_processus` do

`wakeProcess_spec` and `elit_spec` say which of the two things each may do;
`ordonnance_spec` puts them together: from `Quasi` to `Inv`, with only the
places of `Tourne` changed. `ordonnance` fails an assertion only when it is
`Precoce`.
-/

namespace Pcsea

open Lib

universe u
variable {K : Type u} {f : Fin NBQUEUE → Bool → K} {s s' : St} {p p' : Slot → Place} {a b i x : Slot}
  {q e d : List Slot}

/-- A failed assertion is excused by `P` only. -/
def Echec (P : Prop) (x : Fault) : Prop := x = .assertFailed → P

@[simp] theorem echec_nullDeref (P : Prop) : Echec P .nullDeref := nofun
@[simp] theorem echec_outOfBounds (P : Prop) : Echec P .outOfBounds := nofun
@[simp] theorem echec_useAfterFree (P : Prop) : Echec P .useAfterFree := nofun
@[simp] theorem echec_intOverflow (P : Prop) : Echec P .intOverflow := nofun
@[simp] theorem echec_divByZero (P : Prop) : Echec P .divByZero := nofun
@[simp] theorem echec_diverge (P : Prop) : Echec P .diverge := nofun

/-- The first sleeper is due. -/
def Echu (s : St) (x : Slot) : Prop := s.endormiList = some x ∧ s.timeToWake x ≤ s.nbTick

/-! ## Waking a sleeper -/

/-- `wake_process` wakes the first sleeper when it is due, and no other. -/
theorem wakeProcess_spec (h : Rep s p q e d) :
    (wakeProcess s = .ok s ∧ ∀ x, ¬Echu s x) ∨
    ∃ x next prev suiv endormiList endormiTail, Echu s x ∧ p x = .endormi ∧
      wakeProcess s = .ok { s with
        state := Function.update s.state x .activable, next, prev, suiv, endormiList, endormiTail } ∧
      Rep { s with state := Function.update s.state x .activable, next, prev, suiv, endormiList, endormiTail }
        (Function.update p x .pret) (parPrio s x q) (e.erase x) d := by
  cases e with
  | nil =>
    have hl := h.lists.sleep.head_none.2 rfl
    exact .inl ⟨by simp [wakeProcess, hl, wakeProcessLoop], by simp [Echu, hl]⟩
  | cons x e =>
    have hl := h.lists.sleep.head_eq
    have ht : s.endormiTail ≠ none := mt h.lists.sleep.last_none.1 (by simp)
    have hx : p x = .endormi := (h.sleep x).1 (by simp)
    by_cases hd : s.timeToWake x ≤ s.nbTick
    · obtain ⟨next, prev, suiv, hd', tl, s₁, h₁, h₂, h₃, hr⟩ := h.reveil
      refine .inr ⟨x, next, prev, suiv, hd', tl, ⟨hl, hd⟩, hx, ?_, by simpa using hr⟩
      simp [wakeProcess, hl, wakeProcessLoop, hd, ht, h₁, h₂, h₃]
    · exact .inl ⟨by simp [wakeProcess, hl, wakeProcessLoop, hd], by simpa [Echu, hl] using hd⟩

/-! ## Election -/

theorem elit_spec (h : Rep s p q e d) :
    (elit a s = .ok (some a, s) ∧ (q = [] ∨ s.state a ≠ .endormi ∧ ∀ i ∈ q, s.prio i < s.prio a)) ∨
    ∃ t q' next prev, q = q' ++ [t] ∧ p t = .pret ∧ (s.prio a ≤ s.prio t ∨ s.state a = .endormi) ∧
      elit a s = .ok (some t, { s with next, prev, suiv := Function.update s.suiv t none }) ∧
      Rep { s with next, prev, suiv := Function.update s.suiv t none } (Function.update p t .elu) q' e d := by
  rcases List.eq_nil_or_concat q with rfl | ⟨q', t, rfl⟩
  · exact .inl ⟨by simp [elit, queueTop_nil h.lists.ready], .inl rfl⟩
  · rw [List.concat_eq_append] at *
    have ht := queueTop_spec h.lists.ready
    by_cases hc : s.prio a ≤ s.prio t ∨ s.state a = .endormi
    · obtain ⟨next, prev, ho, hr⟩ := h.extractActivable
      refine .inr ⟨t, q', next, prev, rfl, (h.ready t).1 (by simp), hc, ?_, hr⟩
      simp [elit, ht, hc, ho]
    · refine .inl ⟨by simp [elit, ht, hc], .inr ⟨fun he => hc (.inr he), fun i hi => ?_⟩⟩
      have hlt : s.prio t < s.prio a := by
        push Not at hc
        exact hc.1
      rcases List.mem_append.1 hi with hi | hi
      · exact lt_of_le_of_lt ((List.pairwise_append.1 h.sorted).2.2 i hi t (by simp)) hlt
      · rw [List.mem_singleton.1 hi]
        exact hlt

/-! ## `ordonnance` -/

/-- Places that only changed by election or by giving way. -/
def Tourne (p p' : Slot → Place) : Prop :=
  ∀ i, p' i = p i ∨ ((p i = .elu ∨ p i = .pret) ∧ (p' i = .elu ∨ p' i = .pret))

theorem Tourne.refl (p : Slot → Place) : Tourne p p := fun _ => .inl rfl

theorem Tourne.update (h : Tourne p p') {P : Place} (hx : p' x = .elu ∨ p' x = .pret) (hP : P = .elu ∨ P = .pret) :
    Tourne p (Function.update p' x P) := by
  intro i
  by_cases hi : i = x
  · subst hi
    rw [Function.update_self]
    rcases h i with he | ⟨he, -⟩
    · exact .inr ⟨he ▸ hx, hP⟩
    · exact .inr ⟨he, hP⟩
  · rw [Function.update_of_ne hi]
    exact h i

/-- A process of the ring cannot be made ready. -/
theorem insertActivable_fail (h : Ready s.next s.prev q) (hx : x ∈ q) : insertActivable x s = .error .assertFailed := by
  obtain ⟨hn, -⟩ := h.linked hx
  obtain ⟨m, hm⟩ := Option.isSome_iff_exists.1 hn
  simp [insertActivable, queueAdd, St.setState, St.setSuiv, hm]

theorem ordonnanceSuite_spec (h : Table f s p) (ha : s.actif = some a) (hc : s.charge = a) (hs : ∀ i, p i = .elu → i = a)
    (hp : p a = .elu ∨ p a = .pret ∨ (p a = .endormi ∨ p a = .bloque) ∧ ∃ i, p i = .pret) :
    Ensures (fun x => x = .assertFailed ∧ p a = .pret ∧ ∃ i, i ≠ a ∧ p i = .pret ∧ s.prio a ≤ s.prio i) (ordonnanceSuite s) fun s' =>
      ∃ n p', Inv f n s' p' ∧ Cadre s s' ∧ Tourne p p' := by
  obtain ⟨q, e, d, hr⟩ := h.rep
  have hal : p a ≠ .libre := by
    rcases hp with hp | hp | ⟨hp | hp, -⟩ <;> simp [hp]
  have hpid := hr.caseDe_pid hal
  rcases elit_spec (a := a) hr with ⟨ho, hstay⟩ | ⟨t, q', next, prev, rfl, ht, hpr, ho, hr'⟩
  · -- `actif` keeps the processor
    have hpa : p a = .elu := by
      rcases hstay with rfl | ⟨hne, hlt⟩
      · have hno : ∀ i, p i ≠ .pret := fun i hi => by simpa using (hr.ready i).2 hi
        rcases hp with hp | hp | ⟨-, i, hi⟩
        · exact hp
        · exact absurd hp (hno a)
        · exact absurd hi (hno i)
      · rcases hp with hp | hp | ⟨hp, -⟩
        · exact hp
        · exact absurd (hlt a ((hr.ready a).2 hp)) (lt_irrefl _)
        · exact absurd (hr.state_eq_endormi.2 hp) hne
    obtain ⟨s', hsw, hi, hcd⟩ := h.ctxSw hc hpa hs
    simp only [ordonnanceSuite, ha, deref_some, ok_bind, hpid, ho, ne_eq, not_true_eq_false, and_false, if_false, hsw,
      ensures_ok]
    exact ⟨a, p, hi, hcd, .refl p⟩
  · have htl : p t ≠ .libre := by simp [ht]
    have hpid' := hr.caseDe_pid htl
    set s₁ : St := { s with next, prev, suiv := Function.update s.suiv t none } with hs₁
    have hcd₁ : Cadre s s₁ := .of_eq rfl
    have h₁ := h.move_one (rfl : s₁.messages = s.messages) rfl id ⟨q', e, d, hr'⟩ htl (by simp [ht]) (by simp : Place.elu ≠ .libre ∧ _)
    have hto : Tourne p (Function.update p t .elu) := (Tourne.refl p).update (.inr ht) (.inl rfl)
    have hstart : ordonnanceSuite s = (do
        let s ← if s₁.state a ≠ .endormi ∧ a ≠ t then insertActivable a s₁ else .ok s₁
        ctxSw a t { s with actif := some t }) := by
      simp only [ordonnanceSuite, ha, deref_some, ok_bind, hpid, ho]
      rw [show caseDe (s₁.pid t) = .ok t from hpid']
      rfl
    rw [hstart]
    by_cases hat : a = t
    · -- `actif` had been woken, and is elected again
      subst hat
      obtain ⟨s', hsw, hi, hcd⟩ := h₁.ctxSw hc (Function.update_self ..) fun i hi => by
        by_contra hia
        rw [Function.update_of_ne hia] at hi
        exact hia (hs i hi)
      simp only [ne_eq, not_true_eq_false, and_false, if_false, ok_bind, hsw, ensures_ok]
      exact ⟨a, _, hi, hcd₁.trans hcd, hto⟩
    · rcases hp with hp | hp | ⟨hp, -⟩
      · -- `actif` gives way
        have hna : s₁.state a ≠ .endormi := mt hr.state_eq_endormi.1 (by simp [hp])
        have hp₁ : Function.update p t Place.elu a = .elu := by rw [Function.update_of_ne hat, hp]
        obtain ⟨next', prev', ho₂, hr₂⟩ := hr'.insertActivable (x := a) (by simp [hp₁]) (by simp [hp₁]) (by simp [hp₁])
          (by simp [hp₁])
        set s₂ : St := { s₁ with
          state := Function.update s₁.state a .activable, suiv := Function.update s₁.suiv a none,
          next := next', prev := prev' } with hs₂
        have hcd₂ : Cadre s₁ s₂ := .of_eq rfl
        have h₂ := h₁.move_one (rfl : s₂.messages = s₁.messages) rfl id ⟨_, e, d, hr₂⟩ (by simp [hp₁]) (by simp [hp₁]) (by simp : Place.pret ≠ .libre ∧ _)
        obtain ⟨s', hsw, hi, hcd⟩ := h₂.ctxSw hc (b := t) (by simp [Function.update_of_ne (Ne.symm hat)]) fun i hi => by
          by_contra hit
          by_cases hia : i = a
          · simp [hia] at hi
          · rw [Function.update_of_ne hia, Function.update_of_ne hit] at hi
            exact hia (hs i hi)
        rw [if_pos ⟨hna, hat⟩, ho₂]
        simp only [ok_bind, hsw, ensures_ok]
        exact ⟨t, _, hi, (hcd₁.trans hcd₂).trans hcd, hto.update (.inl hp₁) (.inr rfl)⟩
      · -- `actif` is in the ring already
        have hsa : s.state a = .activable := by
          have := hr.state a
          rwa [hp] at this
        have haq : a ∈ q' := by simpa [hat] using (hr.ready a).2 hp
        rw [if_pos ⟨by simp [hs₁, hsa], hat⟩, insertActivable_fail hr'.lists.ready haq, error_bind, ensures_error]
        exact ⟨rfl, hp, t, Ne.symm hat, ht, hpr.resolve_right (by simp [hsa])⟩
      · have hna : ¬(s₁.state a ≠ .endormi ∧ a ≠ t) := fun hn => hn.1 (hr.state_eq_endormi.2 hp)
        obtain ⟨s', hsw, hi, hcd⟩ := h₁.ctxSw hc (Function.update_self ..) fun i hi => by
          by_contra hit
          rw [Function.update_of_ne hit] at hi
          rcases hp with hp | hp <;> simp [hs i hi ▸ hp] at hi
        rw [if_neg hna]
        simp only [ok_bind, hsw, ensures_ok]
        exact ⟨t, _, hi, hcd₁.trans hcd, hto⟩

/-- Places that only changed by election, by giving way or by waking up in time. -/
def Ordonne (s : St) (p p' : Slot → Place) : Prop :=
  ∀ i, p' i = p i ∨ ((p i = .elu ∨ p i = .pret ∨ p i = .endormi ∧ Echu s i) ∧ (p' i = .elu ∨ p' i = .pret))

theorem Tourne.ordonne (h : Tourne p p') : Ordonne s p p' := fun i =>
  (h i).imp_right fun ⟨hp, hp'⟩ => ⟨hp.imp_right .inl, hp'⟩

theorem ordonnance_spec (h : Quasi f a s p) (hr : p a = .elu ∨ (∃ i, p i = .pret) ∨ ∃ x, Echu s x) :
    Ensures (fun x => x = .assertFailed ∧ Echu s a ∧ ∃ i, p i = .pret ∧ s.prio a ≤ s.prio i) (ordonnance s) fun s' =>
      ∃ n p', Inv f n s' p' ∧ Cadre s s' ∧ Ordonne s p p' := by
  obtain ⟨q, e, d, hrep⟩ := h.rep
  have hpa : p a ≠ .pret := by
    rcases h.place with hp | hp | hp <;> simp [hp]
  -- Nobody is due, or exactly one process is put back before the election.
  rcases wakeProcess_spec hrep with ⟨ho, hno⟩ | ⟨x, next, prev, suiv, hd, tl, hx, hpx, ho, hrep'⟩
  · rw [ordonnance, ho, ok_bind]
    have hp : p a = .elu ∨ p a = .pret ∨ (p a = .endormi ∨ p a = .bloque) ∧ ∃ i, p i = .pret := by
      rcases h.place with hp | hp
      · exact .inl hp
      · refine .inr (.inr ⟨hp, ?_⟩)
        rcases hr with he | hi | ⟨x, hx⟩
        · rcases hp with hp | hp <;> simp [he] at hp
        · exact hi
        · exact absurd hx (hno x)
    refine (ordonnanceSuite_spec h.toTable h.actif h.charge h.seul hp).mono (fun x hx => absurd hx.2.1 hpa) ?_
    rintro s' ⟨n, p', hi, hcd, hto⟩
    exact ⟨n, p', hi, hcd, hto.ordonne⟩
  · rw [ordonnance, ho, ok_bind]
    set s₁ : St := { s with
      state := Function.update s.state x .activable, next, prev, suiv, endormiList := hd, endormiTail := tl } with hs₁
    have hcd₁ : Cadre s s₁ := .of_eq rfl
    have h₁ := h.move_one (rfl : s₁.messages = s.messages) rfl id ⟨_, _, d, hrep'⟩ (by simp [hpx]) (by simp [hpx]) (by simp : Place.pret ≠ .libre ∧ _)
    have hp : Function.update p x Place.pret a = .elu ∨ Function.update p x Place.pret a = .pret ∨
        (Function.update p x Place.pret a = .endormi ∨ Function.update p x Place.pret a = .bloque) ∧
          ∃ i, Function.update p x Place.pret i = .pret := by
      by_cases hax : a = x
      · simp [hax]
      · rw [Function.update_of_ne hax]
        rcases h.place with hp | hp
        · exact .inl hp
        · exact .inr (.inr ⟨hp, x, Function.update_self ..⟩)
    refine (ordonnanceSuite_spec h₁ h.actif h.charge ?_ hp).mono ?_ ?_
    · intro i hi
      by_cases hix : i = x
      · simp [hix] at hi
      · rw [Function.update_of_ne hix] at hi
        exact h.seul i hi
    · rintro y ⟨rfl, hpa', i, hia, hpi, hpr⟩
      have hax : a = x := by
        by_contra hax
        rw [Function.update_of_ne hax] at hpa'
        exact hpa hpa'
      subst hax
      rw [Function.update_of_ne hia] at hpi
      exact ⟨rfl, hx, i, hpi, hpr⟩
    · rintro s' ⟨n, p', hi, hcd, hto⟩
      refine ⟨n, p', hi, hcd₁.trans hcd, fun i => ?_⟩
      by_cases hix : i = x
      · have := hto i
        rw [hix, Function.update_self] at this
        rw [hix]
        rcases this with hp' | ⟨-, hp'⟩
        · exact .inr ⟨.inr (.inr ⟨hpx, hx⟩), .inr hp'⟩
        · exact .inr ⟨.inr (.inr ⟨hpx, hx⟩), hp'⟩
      · have := hto.ordonne (s := s) i
        rwa [Function.update_of_ne hix] at this

/-! ## Sleeping -/

/-- Some process can run when `actif` goes to sleep until `time`. -/
def Repos (time : ℚ) (s : St) : Prop := queueEmpty s = false ∨ time ≤ s.nbTick ∨ ∃ x, Echu s x

/-- `actif` would be woken at once, before the other sleepers, while a process of its priority or a higher one is ready. -/
def Precoce (time : ℚ) (s : St) : Prop :=
  time ≤ s.nbTick ∧ (∀ x, s.endormiList = some x → time < s.timeToWake x) ∧
    ∃ a i, s.actif = some a ∧ s.prete i = true ∧ s.prio a ≤ s.prio i

/-- Another process is ready. -/
theorem Inv.autre_pret {P : Place} (h : Inv f a s p) (hq : queueEmpty s = false) : ∃ i, Function.update p a P i = .pret := by
  obtain ⟨q, e, d, hrep⟩ := h.rep
  obtain ⟨i, hi⟩ := hrep.queueEmpty.1 hq
  refine ⟨i, ?_⟩
  rwa [Function.update_of_ne]
  rintro rfl
  simp [h.elu] at hi

/-- What `ordonnance` does to the others, once `actif` has gone to a place where it does not run. -/
theorem Ordonne.autre {P : Place} {i : Slot} (hord : Ordonne s' (Function.update p a P) p') (h : Inv f a s p)
    (ht : ∀ i, i ≠ a → s'.timeToWake i = s.timeToWake i) (hn : s'.nbTick = s.nbTick) (hia : i ≠ a) :
    p' i = p i ∨ ((p i = .pret ∨ p i = .endormi ∧ s.timeToWake i ≤ s.nbTick) ∧ (p' i = .elu ∨ p' i = .pret)) := by
  have ho := hord i
  rw [Function.update_of_ne hia] at ho
  refine ho.imp_right fun ⟨hp, hp'⟩ => ⟨?_, hp'⟩
  rcases hp with hp | hp | ⟨hp, -, hle⟩
  · exact absurd (h.seul i hp) hia
  · exact .inl hp
  · rw [ht i hia, hn] at hle
    exact .inr ⟨hp, hle⟩

theorem sleepUntil_spec (time : ℚ) (h : Inv f a s p) (hr : Repos time s) :
    Ensures (Echec (Precoce time s)) (sleepUntil time s) fun s' =>
      ∃ n p', Inv f n s' p' ∧ Cadre { s with timeToWake := Function.update s.timeToWake a time } s' ∧
        (p' a = .endormi ∨ time ≤ s.nbTick ∧ (p' a = .elu ∨ p' a = .pret)) ∧
        ∀ i, i ≠ a → p' i = p i ∨ ((p i = .pret ∨ p i = .endormi ∧ s.timeToWake i ≤ s.nbTick) ∧ (p' i = .elu ∨ p' i = .pret)) := by
  obtain ⟨q, e, d, hrep⟩ := h.rep
  have hpa := h.elu
  obtain ⟨suiv, hd, tl, ho, hrep'⟩ := hrep.insertEndormi (x := a) (by simp [hpa]) (by simp [hpa]) (by simp [hpa])
    (by simp [hpa]) time
  set w := Function.update s.timeToWake a time with hw
  set s₁ : St := { s with
    timeToWake := w, state := Function.update s.state a .endormi, suiv, endormiList := hd, endormiTail := tl } with hs₁
  have ht := h.move_one (rfl : s₁.messages = s.messages) rfl id ⟨_, _, d, hrep'⟩ (by simp [hpa]) (by simp [hpa])
    (by simp : Place.endormi ≠ .libre ∧ _)
  have hq : Quasi f a s₁ (Function.update p a .endormi) := by
    refine ⟨ht, h.actif, h.charge, fun i hi => ?_, .inr (.inl (Function.update_self ..))⟩
    by_contra hia
    rw [Function.update_of_ne hia] at hi
    exact hia (h.seul i hi)
  have hea : a ∉ e := mt (hrep.sleep a).1 (by simp [hpa])
  have hl : s.endormiList = e.head? := hrep.lists.sleep.head
  have hl₁ : s₁.endormiList = (parTemps w a e).head? := hrep'.lists.sleep.head
  -- `a` is first in the sleep list only if its tick is before all the others.
  have hecha : Echu s₁ a → time ≤ s.nbTick ∧ ∀ x, s.endormiList = some x → time < s.timeToWake x := by
    rintro ⟨hla, hle⟩
    rw [hl₁] at hla
    rw [show s₁.timeToWake a = time from Function.update_self ..] at hle
    rw [hl]
    exact ⟨hle, (parTemps_first hea).1 hla⟩
  have hech (hor : time ≤ s.nbTick ∨ ∃ x, Echu s x) : ∃ x, Echu s₁ x := by
    simp only [Echu, hl] at hor
    obtain ⟨y, hy, hle⟩ := parTemps_due hea hor
    exact ⟨y, hl₁.trans hy, hle⟩
  have hgo : Function.update p a Place.endormi a = .elu ∨ (∃ i, Function.update p a Place.endormi i = .pret) ∨ ∃ x, Echu s₁ x := by
    rcases hr with hr | hr
    · exact .inr (.inl (h.autre_pret hr))
    · exact .inr (.inr (hech hr))
  rw [sleepUntil, h.actif, deref_some, ok_bind, ho, ok_bind]
  refine (ordonnance_spec hq hgo).mono ?_ ?_
  · rintro y ⟨-, hea', i, hi, hpr⟩ -
    obtain ⟨h₁, h₂⟩ := hecha hea'
    have hia : i ≠ a := by rintro rfl; simp at hi
    rw [Function.update_of_ne hia] at hi
    exact ⟨h₁, h₂, a, i, h.actif, hrep.prete.2 hi, hpr⟩
  · rintro s' ⟨n, p', hi, hcd, hord⟩
    refine ⟨n, p', hi, hcd.of_reste rfl, ?_, fun i hia => ?_⟩
    · have := hord a
      rw [Function.update_self] at this
      rcases this with he | ⟨hp, hp'⟩
      · exact .inl he
      · refine .inr ⟨(hecha ?_).1, hp'⟩
        simpa using hp
    · exact hord.autre h (fun j hj => Function.update_of_ne hj ..) rfl hia

/-- `ordonnance` for an `actif` that could go on. -/
theorem ordonnance_elu (h : Inv f a s p) :
    Ensures (fun _ => False) (ordonnance s) fun s' => ∃ n p', Inv f n s' p' ∧ Cadre s s' ∧ Ordonne s p p' := by
  obtain ⟨q, e, d, hrep⟩ := h.rep
  refine (ordonnance_spec h.toQuasi (.inl h.elu)).mono (fun y hy => ?_) fun _ hs => hs
  obtain ⟨-, ⟨hl, -⟩, -⟩ := hy
  have ha : a ∈ e := by
    rw [hrep.lists.sleep.head] at hl
    exact List.mem_of_head? hl
  have := (hrep.sleep a).1 ha
  simp [h.elu] at this

theorem changeClock_eq (s : St) : ∃ sec min hour, changeClock s = { s with sec, min, hour } := by
  unfold changeClock
  dsimp only
  split
  · exact ⟨_, _, _, rfl⟩
  · exact ⟨_, _, _, rfl⟩

theorem ticPitClock_eq (s : St) :
    ∃ sec min hour, ticPitClock s = ordonnance { s with nbTick := succUint32 s.nbTick, sec, min, hour } := by
  unfold ticPitClock
  dsimp only
  split
  · obtain ⟨sec, min, hour, hc⟩ :=
      changeClock_eq { s with nbTick := succUint32 s.nbTick, sec := succUint32 s.sec }
    exact ⟨sec, min, hour, by rw [hc]⟩
  · exact ⟨s.sec, s.min, s.hour, rfl⟩

theorem ticPitClock_spec (h : Inv f a s p) :
    Ensures (Echec False) (ticPitClock s) fun s' =>
      ∃ n p', Inv f n s' p' ∧ Cadre { s with nbTick := succUint32 s.nbTick } s' ∧
        ∀ i, p' i = p i ∨
          ((p i = .elu ∨ p i = .pret ∨ p i = .endormi ∧ s.timeToWake i ≤ s'.nbTick) ∧ (p' i = .elu ∨ p' i = .pret)) := by
  obtain ⟨sec, min, hour, he⟩ := ticPitClock_eq s
  rw [he]
  set s₁ : St := { s with nbTick := succUint32 s.nbTick, sec, min, hour }
  have h₁ : Inv f a s₁ p := h.congr rfl rfl rfl rfl rfl rfl
  refine (ordonnance_elu h₁).weaken.post ?_
  rintro s' ⟨n, p', hi, hcd, hord⟩
  refine ⟨n, p', hi, hcd.of_reste rfl, fun i => (hord i).imp_right fun ⟨hp, hp'⟩ => ⟨?_, hp'⟩⟩
  rw [hcd.nbTick]
  exact hp.imp_right (Or.imp_right fun ⟨h₁, _, h₂⟩ => ⟨h₁, h₂⟩)

end Pcsea
