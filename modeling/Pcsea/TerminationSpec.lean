import Pcsea.SchedulerSpec
/-!
# What termination does

`fin_processus` makes `actif` a zombie, takes their father from its children and
gives the processor to a ready process. A process without a father never
gets to the end of it.
-/

namespace Pcsea

open Lib

universe u
variable {K : Type u} {f : Fin NBQUEUE → Bool → K} {s s' : St} {p p' : Slot → Place} {a i x : Slot}
  {q e d : List Slot}

/-! ## What each function writes -/

theorem insertMort_eq (h : insertMort x s = .ok s') :
    ∃ suiv deadList deadTail, s' = { s with state := Function.update s.state x .mort, suiv, deadList, deadTail } := by
  unfold insertMort at h
  dsimp only at h
  split at h
  · obtain rfl := Except.ok.inj h
    exact ⟨_, _, _, rfl⟩
  · obtain ⟨t, -, h⟩ := bind_eq_ok.1 h
    obtain rfl := Except.ok.inj h
    exact ⟨_, _, _, rfl⟩

theorem finProcessusFils_eq {n : Nat} {ptr : Option Slot} (h : finProcessusFils n ptr s = .ok s') :
    ∃ state suiv deadList deadTail pere, s' = { s with state, suiv, deadList, deadTail, pere } := by
  induction n generalizing ptr s with
  | zero =>
    cases ptr with
    | none => exact ⟨_, _, _, _, _, (Except.ok.inj h).symm⟩
    | some y => cases h
  | succ n ih =>
    cases ptr with
    | none => exact ⟨_, _, _, _, _, (Except.ok.inj h).symm⟩
    | some y =>
      unfold finProcessusFils at h
      dsimp only at h
      split at h
      · obtain ⟨s₁, h₁, h₂⟩ := bind_eq_ok.1 h
        obtain ⟨suiv, dl, dt, rfl⟩ := insertMort_eq h₁
        obtain ⟨state, suiv, dl, dt, pere, rfl⟩ := ih h₂
        exact ⟨_, _, _, _, _, rfl⟩
      · obtain ⟨state, suiv, dl, dt, pere, rfl⟩ := ih (s := s.setPere y none) h
        exact ⟨_, _, _, _, _, rfl⟩

theorem finProcessusPere_eq {n : Nat} {prec ptr : Option Slot} (h : finProcessusPere a n prec ptr s = .ok s') :
    ∃ frereDroit, s' = { s with frereDroit } := by
  induction n generalizing prec ptr s with
  | zero =>
    cases ptr with
    | none => exact ⟨_, (Except.ok.inj h).symm⟩
    | some y => cases h
  | succ n ih =>
    cases ptr with
    | none => exact ⟨_, (Except.ok.inj h).symm⟩
    | some y =>
      unfold finProcessusPere at h
      split at h
      · exact ⟨_, (Except.ok.inj h).symm⟩
      · split at h
        · split at h
          · next p =>
            obtain ⟨fd, rfl⟩ := ih (s := s.setFrereDroit p (s.frereDroit y)) h
            exact ⟨fd, rfl⟩
          · obtain ⟨p, -, h⟩ := bind_eq_ok.1 h
            exact ih h
        · exact ih h

theorem finProcessusTable_eq (h : finProcessusTable a s = .ok s') :
    ∃ state suiv deadList deadTail pere frereDroit pidRetFils,
      s' = { s with state, suiv, deadList, deadTail, pere, frereDroit, pidRetFils } := by
  have hreste (s₁ : St) (h : (do
      let s ← finProcessusFils (PROCESS_TABLE_SIZE + 1) (s₁.premierFils a) s₁
      let p ← deref (s.pere a)
      finProcessusPere a (PROCESS_TABLE_SIZE + 1) none (s.premierFils p) s) = .ok s') :
      ∃ state suiv deadList deadTail pere frereDroit, s' = { s₁ with state, suiv, deadList, deadTail, pere, frereDroit } := by
    obtain ⟨s₂, h₂, h⟩ := bind_eq_ok.1 h
    obtain ⟨p, -, h⟩ := bind_eq_ok.1 h
    obtain ⟨state, suiv, dl, dt, pere, rfl⟩ := finProcessusFils_eq h₂
    obtain ⟨fd, rfl⟩ := finProcessusPere_eq h
    exact ⟨_, _, _, _, _, _, rfl⟩
  unfold finProcessusTable at h
  split at h
  · obtain ⟨s₁, h₁, h⟩ := bind_eq_ok.1 h
    obtain ⟨suiv, dl, dt, rfl⟩ := insertMort_eq h₁
    obtain ⟨state, suiv, dl, dt, pere, fd, rfl⟩ := hreste _ h
    exact ⟨_, _, _, _, _, _, _, rfl⟩
  · obtain ⟨state, suiv, dl, dt, pere, fd, rfl⟩ := hreste { s.setState a .zombie with pidRetFils := _ } h
    exact ⟨_, _, _, _, _, _, _, rfl⟩

/-! ## The children -/

/-- What `fin_processus` may do while it looks at the children, from `ptr` on: those it meets lose
their father, and may be reclaimed. -/
def Orphelins (s s' : St) (ptr : Option Slot) (p p' : Slot → Place) : Prop :=
  ∀ i, (s'.pere i = s.pere i ∧ p' i = p i) ∨
    (s'.pere i = none ∧ Met s.frereDroit ptr i ∧ (p' i = p i ∨ p i = .zombie ∧ p' i = .mort))

theorem Orphelins.cons {s₁ : St} {p₁ : Slot → Place} (h₁ : ∀ i, i ≠ x → s₁.pere i = s.pere i ∧ p₁ i = p i)
    (h₂ : s₁.pere x = none) (h₃ : p₁ x = p x ∨ p x = .zombie ∧ p₁ x = .mort) (hf : s₁.frereDroit = s.frereDroit)
    (h : Orphelins s₁ s' (s.frereDroit x) p₁ p') : Orphelins s s' (some x) p p' := by
  intro i
  by_cases hi : i = x
  · subst hi
    rcases h i with ⟨h₄, h₅⟩ | ⟨h₄, -, h₅⟩
    · exact .inr ⟨h₄.trans h₂, .here, h₅ ▸ h₃⟩
    · refine .inr ⟨h₄, .here, ?_⟩
      rcases h₃ with h₃ | ⟨h₃, h₆⟩
      · rwa [h₃] at h₅
      · rcases h₅ with h₅ | ⟨h₅, -⟩
        · exact .inr ⟨h₃, h₅.trans h₆⟩
        · simp [h₆] at h₅
  · obtain ⟨h₄, h₅⟩ := h₁ i hi
    rcases h i with ⟨h₆, h₇⟩ | ⟨h₆, hm, h₇⟩
    · exact .inl ⟨h₆.trans h₄, h₇.trans h₅⟩
    · rw [hf] at hm
      exact .inr ⟨h₆, .on hm, h₅ ▸ h₇⟩

/-- The loop fails only when the list is longer than it may be. -/
theorem finProcessusFils_spec {n : Nat} {ptr : Option Slot} (h : Rep s p q e d) :
    Ensures (fun y => y = .diverge ∧ ∀ l, Seg s.frereDroit ptr l none → n < l.length) (finProcessusFils n ptr s) fun s' =>
      ∃ state suiv deadList deadTail pere p' d', s' = { s with state, suiv, deadList, deadTail, pere } ∧
        Rep s' p' q e d' ∧ Orphelins s s' ptr p p' := by
  induction n generalizing ptr s p d with
  | zero =>
    cases ptr with
    | none => exact ⟨s.state, s.suiv, s.deadList, s.deadTail, s.pere, p, d, rfl, h, fun i => .inl ⟨rfl, rfl⟩⟩
    | some x =>
      refine ⟨rfl, fun l hl => ?_⟩
      cases l with
      | nil => cases hl
      | cons y l => exact Nat.succ_pos _
  | succ n ih =>
    cases ptr with
    | none => exact ⟨s.state, s.suiv, s.deadList, s.deadTail, s.pere, p, d, rfl, h, fun i => .inl ⟨rfl, rfl⟩⟩
    | some x =>
      have hlen : ∀ {y : Fault}, (y = .diverge ∧ ∀ l, Seg s.frereDroit (s.frereDroit x) l none → n < l.length) →
          y = .diverge ∧ ∀ l, Seg s.frereDroit (some x) l none → n + 1 < l.length := by
        rintro y ⟨hy, hl⟩
        refine ⟨hy, fun l hx => ?_⟩
        cases l with
        | nil => cases hx
        | cons z l =>
          obtain ⟨hz, hx⟩ := hx
          obtain rfl := Option.some.inj hz
          simpa using hl l hx
      have hr : Rep (s.setPere x none) p q e d := h.congr rfl
      have hpere : ∀ i, i ≠ x → (s.setPere x none).pere i = s.pere i := fun i hi => Function.update_of_ne hi ..
      have hx : (s.setPere x none).pere x = none := Function.update_self ..
      by_cases hz : (s.setPere x none).state x = .zombie
      · -- the zombie child is reclaimed
        have hpz : p x = .zombie := hr.state_eq_zombie.1 hz
        obtain ⟨suiv, dl, dt, ho, hr'⟩ := hr.insertMort (x := x) (by simp [hpz]) (by simp [hpz]) (by simp [hpz])
          (by simp [hpz])
        have hstep : finProcessusFils (n + 1) (some x) s = finProcessusFils n (s.frereDroit x)
            { s.setPere x none with state := Function.update s.state x .mort, suiv, deadList := dl, deadTail := dt } := by
          rw [finProcessusFils, if_pos hz, ho]
          rfl
        rw [hstep]
        refine (ih hr').mono (fun _ => hlen) ?_
        rintro s' ⟨state, suiv', dl', dt', pere, p', d', rfl, hr'', hor''⟩
        refine ⟨state, suiv', dl', dt', pere, p', d', rfl, hr'', .cons (fun i hi => ⟨hpere i hi, ?_⟩) hx (.inr ⟨hpz, ?_⟩) rfl hor''⟩
        · exact Function.update_of_ne hi ..
        · exact Function.update_self ..
      · have hstep : finProcessusFils (n + 1) (some x) s = finProcessusFils n (s.frereDroit x) (s.setPere x none) := by
          rw [finProcessusFils, if_neg hz]
          rfl
        rw [hstep]
        refine (ih hr).mono (fun _ => hlen) ?_
        rintro s' ⟨state, suiv', dl', dt', pere, p', d', rfl, hr'', hor''⟩
        exact ⟨state, suiv', dl', dt', pere, p', d', rfl, hr'', .cons (fun i hi => ⟨hpere i hi, rfl⟩) hx (.inl rfl) rfl hor''⟩

/-- The loop over the father's list stops at once: `actif` is a zombie. -/
theorem finProcessusPere_zombie {n : Nat} {prec ptr : Option Slot} (h : s.state a = .zombie) :
    finProcessusPere a (n + 1) prec ptr s = .ok s := by
  cases ptr with
  | none => rfl
  | some x =>
    unfold finProcessusPere
    simp [h]

/-- `fin_processus` up to the choice of the next process, for an `actif` out of the lists: it ends
for a process that has a father. -/
theorem finProcessusTable_spec (h : Rep s p q e d) (ha : p a = .elu) :
    Ensures (fun y => y = .nullDeref ∨ y = .diverge ∧ ∀ l, Seg s.frereDroit (s.premierFils a) l none → PROCESS_TABLE_SIZE + 1 < l.length)
      (finProcessusTable a s) fun s' =>
      s.pere a ≠ none ∧ ∃ state suiv deadList deadTail pere pidRetFils p' d',
        s' = { s with state, suiv, deadList, deadTail, pere, pidRetFils } ∧
        Rep s' p' q e d' ∧ p' a = .zombie ∧ s'.pere a = s.pere a ∧
        Orphelins s s' (s.premierFils a) (Function.update p a .zombie) p' := by
  cases hp : s.pere a with
  | none =>
    -- The father is read again after the loop.
    obtain ⟨suiv, dl, dt, ho, hr⟩ := h.insertMort (x := a) (by simp [ha]) (by simp [ha]) (by simp [ha]) (by simp [ha])
    simp only [finProcessusTable, hp, ho, ok_bind]
    refine Ensures.bind ((finProcessusFils_spec hr).mono (fun _ => .inr) fun _ hs => hs) ?_
    rintro s' ⟨state, suiv', dl', dt', pere, p', d', rfl, -, hor⟩
    have hpa : pere a = none := by
      rcases hor a with ⟨h₁, -⟩ | ⟨h₁, -⟩
      · exact h₁.trans hp
      · exact h₁
    simp [hpa]
  | some f =>
    set s₁ : St := { s.setState a .zombie with pidRetFils := Function.update s.pidRetFils f (s.pid a) } with hs₁
    have hr : Rep s₁ (Function.update p a .zombie) q e d := by
      obtain ⟨hq, he, hd⟩ := h.notMem (x := a) (by simp [ha]) (by simp [ha]) (by simp [ha])
      have hl : Lists s₁ q e d := h.lists.congr rfl rfl rfl rfl rfl rfl rfl
      refine h.move hl h.sorted rfl rfl rfl (by simp [ha]) (by simp) ?_ ?_ ?_
      all_goals
        intro i
        split <;> simp_all
    simp only [finProcessusTable, hp, ok_bind]
    refine Ensures.bind ((finProcessusFils_spec hr).mono (fun _ => .inr) fun _ hs => hs) ?_
    rintro s' ⟨state, suiv', dl', dt', pere, p', d', rfl, hr', hor⟩
    cases hpa : pere a with
    | none => simp [hpa]
    | some g =>
      have hza : pere a = s.pere a ∧ p' a = .zombie := by
        rcases hor a with ⟨h₁, h₂⟩ | ⟨h₁, -⟩
        · exact ⟨h₁, by rw [h₂, Function.update_self]⟩
        · rw [show pere a = none from h₁] at hpa
          cases hpa
      have hsa : state a = .zombie := hr'.state_eq_zombie.2 hza.2
      rw [show deref (({ s₁ with state, suiv := suiv', deadList := dl', deadTail := dt', pere } : St).pere a) = .ok g from
        by simp [hpa], ok_bind, finProcessusPere_zombie hsa]
      refine ⟨by simp, state, suiv', dl', dt', pere, _, p', d', rfl, hr', hza.2, ?_, hor⟩
      rw [← hp]
      exact hza.1

/-- Places after `actif` has ended: a ready process runs, and zombies may have been orphaned and reclaimed. -/
def Finit (s' : St) (a : Slot) (p p' : Slot → Place) : Prop :=
  p' a = .zombie ∧
    ∀ i, i ≠ a → p' i = p i ∨ (p i = .pret ∧ p' i = .elu) ∨ (p i = .zombie ∧ p' i = .mort ∧ s'.pere i = none)

/-- Process 0 sleeps or waits only while another process can take over when `actif` ends. -/
def Releve (s : St) : Prop := s.state 0 = .endormi → queueEmpty s = false

/-- Some process can take over: process 0, if no other. -/
theorem Inv.releve (h : Inv f a s p) (hs : Releve s) (h0 : (0 : Slot) ≠ a) (hrep : Rep s p q e d) : q ≠ [] := by
  rintro rfl
  have hno : ∀ i, p i ≠ .pret := fun i hi => by simpa using (hrep.ready i).2 hi
  have hemp : queueEmpty s = true := (queueEmpty_iff hrep.lists.ready).2 rfl
  have hst : ¬s.state 0 = .endormi := fun he => by simp [hs he] at hemp
  rw [hrep.state_eq_endormi] at hst
  have hidle := h.idle.2
  cases hc : p 0 with
  | elu => exact h0 (h.seul 0 hc)
  | pret => exact hno 0 hc
  | _ => simp_all

/-- The table after `actif` has ended. -/
theorem Finit.table (hf : Finit s' a p p') (h : Inv f a s p) (h0 : (0 : Slot) ≠ a) (hm : s'.messages = s.messages)
    (hc : s'.contexte = s.contexte) (hpere : s.pere 0 = none → s'.pere 0 = none) (hr : ∃ q e d, Rep s' p' q e d) :
    Table f s' p' := by
  refine h.move hm hc hpere hr ?_ ?_ ?_
  · intro i hi
    have hia : i ≠ a := by
      rintro rfl
      simp [h.elu] at hi
    rcases hf.2 i hia with h₁ | ⟨h₁, -⟩ | ⟨h₁, -⟩
    · rw [h₁, hi]
    · simp [hi] at h₁
    · simp [hi] at h₁
  · intro i hi
    by_cases hia : i = a
    · simp [hia, h.elu]
    · rcases hf.2 i hia with h₁ | ⟨h₁, -⟩ | ⟨h₁, -⟩
      · rwa [← h₁]
      · simp [h₁]
      · simp [h₁]
  · rcases hf.2 0 h0 with h₁ | ⟨-, h₁⟩ | ⟨h₁, -⟩
    · rw [h₁]
      exact h.idle.2
    · simp [h₁]
    · exact absurd h₁ h.idle.2.2.1

theorem finProcessus_spec (h : Inv f a s p) (hs : Releve s) :
    Ensures (fun y => y = .nullDeref ∨ y = .diverge ∧ ∀ l, Seg s.frereDroit (s.premierFils a) l none → PROCESS_TABLE_SIZE + 1 < l.length)
      (finProcessus s) fun s' =>
      ∃ n p', Inv f n s' p' ∧ Finit s' a p p' ∧ s.pere a ≠ none ∧ s'.pere a = s.pere a ∧
        Cadre { s with pere := s'.pere, processAlive := predUint32 s.processAlive } s' ∧
        ∀ i, s'.pere i = s.pere i ∨ s'.pere i = none ∧ Met s.frereDroit (s.premierFils a) i := by
  obtain ⟨q, e, d, hrep⟩ := h.rep
  rw [finProcessus, h.actif, deref_some, ok_bind]
  refine Ensures.bind (finProcessusTable_spec hrep h.elu) ?_
  rintro s' ⟨hpere, state, suiv, dl, dt, pere, prf, p', d', hs', hrep', hz, hpa, hor⟩
  have hor' : ∀ i, i ≠ a → p' i = p i ∨ (p i = .zombie ∧ p' i = .mort ∧ s'.pere i = none) := by
    intro i hi
    rcases hor i with ⟨-, h₂⟩ | ⟨h₁, -, h₂ | h₂⟩
    · exact .inl (by rw [h₂, Function.update_of_ne hi])
    · exact .inl (by rw [h₂, Function.update_of_ne hi])
    · rw [Function.update_of_ne hi] at h₂
      exact .inr ⟨h₂.1, h₂.2, h₁⟩
  have hfam : ∀ i, s'.pere i = s.pere i ∨ s'.pere i = none ∧ Met s.frereDroit (s.premierFils a) i :=
    fun i => (hor i).imp And.left fun h => ⟨h.1, h.2.1⟩
  have h0a : (0 : Slot) ≠ a := by
    rintro rfl
    exact hpere h.idle.1
  -- `extract_activable` takes the last of the ready queue.
  obtain ⟨q', t, hqt⟩ := List.eq_nil_or_concat q |>.resolve_left (h.releve hs h0a hrep)
  rw [List.concat_eq_append] at hqt
  subst hqt
  obtain ⟨next, prev, ho, hrep₂⟩ := hrep'.extractActivable
  have hpt : p' t = .pret := (hrep'.ready t).1 (by simp)
  have hta : t ≠ a := by rintro rfl; simp [hz] at hpt
  have hpt' : p t = .pret := by
    rcases hor' t hta with h₁ | ⟨-, h₁, -⟩
    · rw [← h₁, hpt]
    · simp [hpt] at h₁
  rw [hrep'.caseDe_pid (i := a) (by simp [hz]), ok_bind, ho, ok_bind]
  simp only
  rw [show caseDe (s'.pid t) = .ok t from hrep'.caseDe_pid (by simp [hpt]), ok_bind]
  have halive : s'.processAlive = s.processAlive := by rw [hs']
  rw [halive]
  set s₂ : St := { s' with next, prev, suiv := Function.update s'.suiv t none, processAlive := predUint32 s.processAlive } with hs₂
  have hfin : Finit s₂ a p (Function.update p' t .elu) := by
    refine ⟨by rw [Function.update_of_ne hta.symm, hz], fun i hi => ?_⟩
    by_cases hit : i = t
    · exact .inr (.inl (by simp [hit, hpt']))
    · rw [Function.update_of_ne hit]
      exact (hor' i hi).imp_right .inr
  have hm : s₂.messages = s.messages := by rw [hs₂, hs']
  have hctx : s₂.contexte = s.contexte := by rw [hs₂, hs']; rfl
  have ht : Table f s₂ (Function.update p' t .elu) :=
    hfin.table h h0a hm hctx (fun h0 => (hfam 0).elim (fun h₁ => h₁.trans h0) And.left) ⟨q', e, d', hrep₂.setProcessAlive _⟩
  have hch : s₂.charge = a := by rw [hs₂, hs']; exact h.charge
  obtain ⟨s₃, hsw, hi, hcd⟩ := ht.ctxSw hch (Function.update_self ..) fun i hi => by
    by_contra hit
    by_cases hia : i = a
    · simp [hia, hfin.1] at hi
    · rw [Function.update_of_ne hit] at hi
      rcases hor' i hia with h₂ | ⟨-, h₂, -⟩
      · exact hia (h.seul i (h₂ ▸ hi))
      · simp [hi] at h₂
  rw [hsw]
  have hpere₃ : s₃.pere = s'.pere := hcd.pere
  refine ⟨t, _, hi, ⟨hfin.1, fun i hi => by rw [hpere₃]; exact hfin.2 i hi⟩, hpere, by rw [hpere₃, hpa], hcd.of_reste ?_,
    fun i => by rw [hpere₃]; exact hfam i⟩
  rw [hpere₃, hs₂, hs']
  rfl

/-! ## `kill` of another process -/

/-- What belongs to process `i`, besides its links. -/
def St.vue (s : St) (i : Slot) :=
  (s.pid i, s.name i, s.state i, s.contexte i, s.timeToWake i, s.prio i, s.premierFils i, s.dernierFils i, s.pere i,
    s.frereDroit i, s.retval i, s.retvalFils i, s.pidRetFils i)

/-- Process `x` is terminated and out of its list; the other processes keep their places and their fields. -/
structure Tue (s s' : St) (x : Slot) : Prop where
  listes : ∃ q e d d', Lists s q e d ∧ Lists s' (q.erase x) (e.erase x) d' ∧
    (s'.state x = .zombie ∧ d' = d ∨ s'.state x = .mort ∧ d' = d ++ [x])
  vue : ∀ i, i ≠ x → s'.vue i = s.vue i
  actif : s'.actif = s.actif
  messages : s'.messages = s.messages

theorem erase_middle {l₁ l₂ : List Slot} (h : (l₁ ++ x :: l₂).Nodup) : (l₁ ++ x :: l₂).erase x = l₁ ++ l₂ := by
  have hx : x ∉ l₁ := fun hm => (List.nodup_cons.1 (List.nodup_middle.1 h)).1 (by simp [hm])
  rw [List.erase_append_right _ hx, List.erase_cons_head]

theorem vue_congr {state : Slot → Etat} (h : s' = { s with
      state := state, next := s'.next, prev := s'.prev, suiv := s'.suiv, endormiList := s'.endormiList,
      endormiTail := s'.endormiTail, deadList := s'.deadList, deadTail := s'.deadTail })
    (hs : ∀ i, i ≠ x → state i = s.state i) (hi : i ≠ x) : s'.vue i = s.vue i := by
  rw [h]
  simp only [St.vue, St.contexte, hs i hi]

/-- `kill` finds its victim among the ready and the sleeping processes, which have the pid of their slot. -/
theorem killAutre_spec (pid : Int) (h : Inv f a s p) (hpid : 0 < pid) :
    ∃ r s' p', killAutre pid s = .ok (r, s') ∧ Inv f a s' p' ∧ Cadre s s' ∧
      ((∃ x, s.pid x = pid ∧ p x = .pret ∧ r = 0 ∧ p' = Function.update p x .zombie ∧ Tue s s' x) ∨
        (∃ x, s.pid x = pid ∧ p x = .endormi ∧ r = (if s.endormiList = some x then 0 else -1) ∧
          p' = Function.update p x .mort ∧ Tue s s' x) ∨
        ((∀ x, s.pid x = pid → p x ≠ .pret ∧ p x ≠ .endormi) ∧ r = -1 ∧ s' = s ∧ p' = p)) := by
  obtain ⟨q, e, d, hrep⟩ := h.rep
  have hfind := queueFind_spec hrep.lists.ready pid
  have hx0 : ∀ x, s.pid x = pid → (0 : Slot) ≠ x := by
    rintro x hx rfl
    rw [hrep.pid h.idle.2.1] at hx
    simp at hx
    omega
  cases hq : q.find? (fun i => s.pid i = pid) with
  | some x =>
    have hx : s.pid x = pid := by simpa using List.find?_some hq
    have hxq := List.mem_of_find?_eq_some hq
    have hpx : p x = .pret := (hrep.ready x).1 hxq
    obtain ⟨q₁, q₂, rfl⟩ := List.append_of_mem hxq
    obtain ⟨next, prev, ho, hrep'⟩ := hrep.queueDel
    have hi := h.ote (.inl hpx) (hx0 x hx) (.inl rfl) ⟨_, e, d, hrep'⟩ rfl rfl rfl rfl rfl
    have hxe : x ∉ e := (hrep.lists.ready_apart hxq).1
    refine ⟨0, _, _, ?_, hi, .of_eq rfl, .inl ⟨x, hx, hpx, rfl, rfl, ⟨_, e, d, d, hrep.lists, ?_, .inl ⟨?_, rfl⟩⟩,
      fun i hix => vue_congr rfl (fun j hj => Function.update_of_ne hj ..) hix, rfl, rfl⟩⟩
    · simp [killAutre, hfind, hq, ho]
    · rw [erase_middle hrep.lists.ready.distinct, List.erase_of_not_mem hxe]
      exact hrep'.lists
    · exact Function.update_self ..
  | none =>
    -- Not among the ready processes: `sleep_del` searches the sleep list.
    have hnq : ∀ x, s.pid x = pid → p x ≠ .pret := by
      intro x hx hpx
      have := List.find?_eq_none.1 hq x ((hrep.ready x).2 hpx)
      simp [hx] at this
    by_cases he : ∃ x, s.pid x = pid ∧ p x = .endormi
    · obtain ⟨x, hx, hpx⟩ := he
      obtain ⟨e₁, e₂, rfl⟩ := List.append_of_mem ((hrep.sleep x).2 hpx)
      obtain ⟨suiv, hd, tl, dl, dt, ho, hrep'⟩ := hrep.sleepDel
      rw [hx] at ho
      have hi := h.ote (.inr (.inl hpx)) (hx0 x hx) (.inr rfl) ⟨q, _, _, hrep'⟩ rfl rfl rfl rfl rfl
      have hxq : x ∉ q := (hrep.lists.sleep_apart (by simp)).1
      have hhd : s.endormiList = some x ↔ e₁ = [] := by
        rw [hrep.lists.sleep.head]
        cases e₁ with
        | nil => simp
        | cons y e₁ =>
          have hxy : y ≠ x := by
            rintro rfl
            exact (List.nodup_cons.1 hrep.lists.sleep.nodup).1 (by simp)
          simp [hxy]
      refine ⟨if e₁ = [] then 0 else -1, _, _, ?_, hi, .of_eq rfl, .inr (.inl ⟨x, hx, hpx, by simp only [hhd], rfl,
        ⟨q, _, d, _, hrep.lists, ?_, .inr ⟨?_, rfl⟩⟩, fun i hix => vue_congr rfl (fun j hj => Function.update_of_ne hj ..) hix,
        rfl, rfl⟩)⟩
      · simp only [killAutre, hfind, hq, ho, ok_bind]
        split <;> simp_all
      · rw [erase_middle hrep.lists.sleep.nodup, List.erase_of_not_mem hxq]
        exact hrep'.lists
      · exact Function.update_self ..
    · push Not at he
      have ho : sleepDel pid s = .ok (-1, s) := sleepDel_none hrep.lists.sleepDead fun i hi hpi => he i hpi ((hrep.sleep i).1 hi)
      refine ⟨-1, s, p, ?_, h, .refl s, .inr (.inr ⟨fun x hx => ⟨hnq x hx, he x hx⟩, rfl, rfl, rfl⟩)⟩
      simp [killAutre, hfind, hq, ho]

end Pcsea
