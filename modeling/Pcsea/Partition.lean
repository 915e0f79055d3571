import Pcsea.Histoire
/-!
# Where the slots are, over runs

The partition of the slots, the safety of `start` and the end of the
terminated processes.
-/

namespace Pcsea

open Lib

variable {s s' : St} {p : Slot → Place} {a i j : Slot} {e : Event} {r : Issue} {tr tr' : List (St × Event × Issue)}

/-! ## The partition -/

/-- No call of the message queues. -/
def Event.sansMessage : Event → Bool
  | .appel (.pcreate _ _) | .appel (.pdelete _) | .appel (.preset _) | .appel (.psend _ _) | .appel (.preceive _) => false
  | _ => true

/-- The one place of a slot that was started. -/
inductive Range (s : St) (q e d : List Slot) (i : Slot) : Prop
  | actif : s.actif = some i → s.state i = .elu ∨ s.state i = .activable → i ∉ q → i ∉ e → i ∉ d → Range s q e d i
  | pret : s.actif ≠ some i → s.state i = .activable → i ∈ q → i ∉ e → i ∉ d → Range s q e d i
  | endormi : s.actif ≠ some i → s.state i = .endormi → i ∉ q → i ∈ e → i ∉ d → Range s q e d i
  | zombie : s.actif ≠ some i → s.state i = .zombie → i ∉ q → i ∉ e → i ∉ d → Range s q e d i
  | mort : s.actif ≠ some i → s.state i = .mort → i ∉ q → i ∉ e → i ∈ d → Range s q e d i

/-- The three lists are well formed and share no slot; a slot that was started is in its one place, the others in none. -/
def Partition (lance : Slot → Prop) (s : St) : Prop :=
  ∃ q e d, Lists s q e d ∧
    ∀ i, (lance i → Range s q e d i) ∧ (¬lance i → s.actif ≠ some i ∧ i ∉ q ∧ i ∉ e ∧ i ∉ d)

theorem Inv.partition {K : Type*} {f : Fin NBQUEUE → Bool → K} (h : Inv f a s p) (hb : ∀ i, p i ≠ .bloque) :
    Partition (fun i => p i ≠ .libre) s := by
  obtain ⟨q, e, d, hrep⟩ := h.rep
  have hact : ∀ i, p i ≠ .elu → s.actif ≠ some i := fun i hi ha => hi (h.actif_iff.1 ha)
  refine ⟨q, e, d, hrep.lists, fun i => ⟨fun hl => ?_, fun hl => ?_⟩⟩
  · have hst := hrep.state i
    have hq := hrep.ready i
    have he := hrep.sleep i
    have hd := hrep.dead i
    cases hp : p i <;> rw [hp] at hst hq he hd
    · exact absurd hp hl
    · obtain rfl := h.seul i hp
      exact .actif h.actif hst (by simp [hq]) (by simp [he]) (by simp [hd])
    · exact .pret (hact i (by simp [hp])) hst (by simp [hq]) (by simp [he]) (by simp [hd])
    · exact .endormi (hact i (by simp [hp])) hst (by simp [hq]) (by simp [he]) (by simp [hd])
    · exact absurd hp (hb i)
    · exact .zombie (hact i (by simp [hp])) hst (by simp [hq]) (by simp [he]) (by simp [hd])
    · exact .mort (hact i (by simp [hp])) hst (by simp [hq]) (by simp [he]) (by simp [hd])
  · have hp : p i = .libre := not_not.1 hl
    exact ⟨hact i (by simp [hp]), hrep.notMem (by simp [hp]) (by simp [hp]) (by simp [hp])⟩

/-- `e` is no message call, `Sain`, and no sleep that ends at once behind a ready process. -/
def Ordonnable (s : St) (e : Event) : Prop :=
  e.sansMessage = true ∧ Sain s e ∧ ∀ time, e.reveil = some time → ¬Precoce time s

/-- Without message calls no process is blocked. -/
theorem ordonnable_spec (hr : Parcours Ordonnable tr s) :
    ∃ a p, Inv melange a s p ∧ (∀ i, p i ≠ .libre ↔ Lance tr i) ∧ ∀ i, p i ≠ .bloque := by
  refine parcours_spec (fun s e h => ⟨h.2.1, separe_melange s e⟩) (fun _ _ p => ∀ i, p i ≠ .bloque) (fun i => ?_) ?_ hr
  · by_cases hi : i = 0 <;> simp [placesBoot, hi]
  · intro _ a s p e r s' n p' _ hb hc he i hi
    rcases (he.va i).bloque hi with h | h
    · exact hb i h
    · have := hc.1
      unfold Event.sansMessage at this
      unfold Event.echange at h
      split at h <;> simp_all

/-- Scheduler-list partition: in every state of a run of `Ordonnable` steps each slot is in its one place, and the next
such step fails no assertion. -/
theorem scheduler_partition (hr : Parcours Ordonnable tr s) :
    Partition (Lance tr) s ∧ ∀ e, Ordonnable s e → joue e s ≠ .error .assertFailed := by
  obtain ⟨a, p, hi, hl, hb⟩ := ordonnable_spec hr
  refine ⟨?_, fun e he hf => ?_⟩
  · obtain ⟨q, l, d, hlists, h⟩ := hi.partition hb
    refine ⟨q, l, d, hlists, fun i => ?_⟩
    rw [← hl]
    exact h i
  · have hm : ∀ fid, e ≠ .appel (.pdelete fid) ∧ e ≠ .appel (.preset fid) := by
      intro fid
      constructor <;> rintro rfl <;> exact absurd he.1 (by simp [Event.sansMessage])
    obtain ⟨time, ht, hp⟩ := (joue_spec hi he.2.1 (separe_melange s e) hm).of_error hf rfl
    exact he.2.2 time ht hp

instance (time : ℚ) (s : St) : Decidable (Precoce time s) := inferInstanceAs (Decidable (_ ∧ _ ∧ _))

instance (s : St) (e : Event) : Decidable (Ordonnable s e) :=
  match h : e.reveil with
  | none => decidable_of_iff (e.sansMessage = true ∧ Sain s e) (by simp [Ordonnable, h])
  | some time => decidable_of_iff (e.sansMessage = true ∧ Sain s e ∧ ¬Precoce time s) (by simp [Ordonnable, h])

/-- A process is started, sleeps, wakes up and ends. -/
theorem scheduler_partition_run :
    ∃ tr s, Parcours Ordonnable tr s ∧ (tr.length = 6 ∧ s.state 1 = .zombie) ∧ Partition (Lance tr) s ∧
      ∀ e, Ordonnable s e → joue e s ≠ .error .assertFailed := by
  obtain ⟨tr, s, hr, hq⟩ := deroule_any (P := Ordonnable) (Q := fun tr s => tr.length = 6 ∧ s.state 1 = .zombie)
    boot [.appel (.start 512 5 "p"), .tick, .appel (.sleepUntil 2), .tick, .tick, .appel (.exit 3)] (by decide +kernel)
  exact ⟨tr, s, hr, hq, scheduler_partition hr⟩

/-- A process sleeps until a tick that is past while another of its priority is ready: it is woken, then queued again. -/
theorem scheduler_partition_fails :
    ¬∀ tr s, Parcours (fun _ e => e.sansMessage = true) tr s →
      Partition (Lance tr) s ∧ ∀ e, e.sansMessage = true → joue e s ≠ .error .assertFailed := by
  intro h
  obtain ⟨tr, s, hr, hq⟩ := deroule_any (P := fun _ e => e.sansMessage = true)
    (Q := fun _ s => faute (joue (.appel (.dors 1)) s) = some .assertFailed)
    boot [.appel (.start 512 5 "p"), .appel (.start 512 5 "q"), .tick] (by decide +kernel)
  exact (h tr s hr).2 (.appel (.dors 1)) rfl (faute_eq_some.1 hq)

/-! ## The slot `start` takes -/

/-- Slot `process_alive` was never started, when no dead slot is left. -/
def Vierge (s : St) : Prop := s.deadList = none → ∀ i, caseDe (toInt32 s.processAlive) = .ok i → s.pid i ≠ i.val

/-- `Sain`, and `start` takes no zombie. -/
def Creable (s : St) (e : Event) : Prop := Sain s e ∧ (e.creation = true → Vierge s)

/-- Running, ready, asleep or blocked, or a zombie. -/
def EnUsage (s : St) (i : Slot) : Prop :=
  s.actif = some i ∨ s.prete i = true ∨ s.state i = .endormi ∨ s.state i = .zombie

theorem Inv.enUsage {K : Type*} {f : Fin NBQUEUE → Bool → K} (h : Inv f a s p) : EnUsage s i ↔ p i ≠ .libre ∧ p i ≠ .mort := by
  obtain ⟨q, e, d, hrep⟩ := h.rep
  rw [EnUsage, h.actif_iff, hrep.prete, hrep.state_eq_endormi, hrep.state_eq_zombie]
  cases p i <;> simp

theorem creation_sure (hr : Parcours Creable tr s) :
    (∀ i j, Lance tr i → Lance tr j → s.pid i = s.pid j → i = j) ∧
      ∀ e i s', Creable s e → Pas s e (.cree i) s' →
        (¬Lance tr i ∨ s.state i = .mort ∧ Met s.suiv s.deadList i) ∧ ¬EnUsage s i := by
  obtain ⟨a, p, hi, hl⟩ := sain_spec (fun _ _ h => h.1) hr
  obtain ⟨q, l, d, hrep⟩ := hi.rep
  refine ⟨fun i j hi' hj' => hrep.pid_inj ((hl i).2 hi') ((hl j).2 hj'), fun e i s' hc ho => ?_⟩
  obtain ⟨n, p', he⟩ := pas_spec hi hc.1 (separe_melange s e) ho
  rw [hi.enUsage, ← hl, hrep.state_eq_mort, hrep.lists.dead.seg.met_iff, hrep.dead]
  obtain ⟨hd, -, hst⟩ := he.cree i rfl
  rcases hd with ⟨hp, -⟩ | ⟨hp | hp, hn, hcase⟩
  · simp [hp]
  · simp [hp]
  · -- the slot of a zombie has been started
    exact absurd (hrep.pid (by simp [hp])) (hc.2 hst hn i hcase)

/-- A created process gets a slot that was never started or a dead one, and the pid of that slot alone. -/
theorem creation_safe (hr : Parcours Creable tr s) :
    (∀ i j, Lance tr i → Lance tr j → s.pid i = s.pid j → i = j) ∧
      ∀ e i s', Creable s e → Pas s e (.cree i) s' →
        (¬Lance tr i ∨ s.state i = .mort ∧ Met s.suiv s.deadList i) ∧ ¬EnUsage s i :=
  creation_sure hr

instance (s : St) : Decidable (Vierge s) := inferInstanceAs (Decidable (_ → _))

instance (s : St) (e : Event) : Decidable (Creable s e) := inferInstanceAs (Decidable (_ ∧ (_ → _)))

/-- Creation, termination, waiting for a child, and the clock. -/
def Event.vie : Event → Bool
  | .appel (.start _ _ _) | .appel (.exit _) | .appel (.retour _) | .appel (.kill _) | .appel (.waitpid _ _) => true
  | .suite | .tick => true
  | _ => false

/-- In the runs of these events the only condition is the one on `start`. -/
theorem vie_creable (hr : Parcours (fun s e => e.vie = true ∧ (e.creation = true → Vierge s)) tr s) : Parcours Creable tr s := by
  have hJ : Parcours Creable tr s ∧ ∃ a p, Inv melange a s p ∧ ∀ i, p i ≠ .endormi ∧ p i ≠ .bloque := by
    refine hr.inv_trace (fun tr s => Parcours Creable tr s ∧ ∃ a p, Inv melange a s p ∧ ∀ i, p i ≠ .endormi ∧ p i ≠ .bloque)
      ⟨.nil, 0, placesBoot, inv_boot _, fun i => ?_⟩ ?_
    · by_cases hi : i = 0 <;> simp [placesBoot, hi]
    · rintro tr s e r s' - ⟨hrun, a, p, hi, hp⟩ ⟨⟨hv, hc⟩, ho⟩
      obtain ⟨q, l, d, hrep⟩ := hi.rep
      have hrel : Releve s := fun h0 => by
        rcases hrep.state_eq_endormi.1 h0 with h0 | h0
        · exact absurd h0 (hp 0).1
        · exact absurd h0 (hp 0).2
      have hs : Sain s e := by
        unfold Event.vie at hv
        split at hv
        · exact fun hd i hi => .inl (hc rfl hd i hi)
        all_goals first | exact hrel | exact fun _ => hrel | trivial
      have hno : e.reveil = none ∧ e.echange = false := by
        unfold Event.vie at hv
        split at hv <;> first | exact ⟨rfl, rfl⟩ | cases hv
      obtain ⟨n, p', he⟩ := pas_spec hi hs (separe_melange s e) ho
      refine ⟨hrun.snoc ⟨⟨hs, hc⟩, ho⟩, n, p', he.inv, fun i => ⟨fun hpi => ?_, fun hpi => ?_⟩⟩
      · exact ((he.va i).endormi hpi).elim (hp i).1 fun h => h hno.1
      · exact ((he.va i).bloque hpi).elim (hp i).2 fun h => by simp [hno.2] at h
  exact hJ.1

/-- So there a process is created safely as long as `start` finds slot `process_alive` never started when no slot is dead. -/
theorem creation_vie (hr : Parcours (fun s e => e.vie = true ∧ (e.creation = true → Vierge s)) tr s) (hv : e.vie = true)
    (hc : e.creation = true → Vierge s) (ho : Pas s e (.cree i) s') :
    (∀ j k, Lance tr j → Lance tr k → s.pid j = s.pid k → j = k) ∧
      (¬Lance tr i ∨ s.state i = .mort ∧ Met s.suiv s.deadList i) ∧ ¬EnUsage s i := by
  obtain ⟨_, hrun, ⟨hcre, -⟩, -⟩ := (vie_creable (hr.snoc ⟨⟨hv, hc⟩, ho⟩)).cut rfl
  obtain ⟨hpid, hsure⟩ := creation_sure hrun
  exact ⟨hpid, hsure e i s' hcre ho⟩

/-- A slot is used again once its zombie was awaited. -/
theorem creation_safe_run :
    ∃ tr s, Parcours Creable tr s ∧ tr.length = 5 ∧ (tente s (.appel (.start 512 5 "q"))).map Prod.fst = some (.cree 1) ∧
      (∀ i j, Lance tr i → Lance tr j → s.pid i = s.pid j → i = j) ∧
      ∀ e i s', Creable s e → Pas s e (.cree i) s' →
        (¬Lance tr i ∨ s.state i = .mort ∧ Met s.suiv s.deadList i) ∧ ¬EnUsage s i := by
  obtain ⟨tr, s, hr, h₁, h₂⟩ := deroule_any (P := Creable)
    (Q := fun tr s => tr.length = 5 ∧ (tente s (.appel (.start 512 5 "q"))).map Prod.fst = some (.cree 1))
    boot [.appel (.start 512 5 "p"), .tick, .appel (.exit 3), .appel (.waitpid 1 true), .suite] (by decide +kernel)
  exact ⟨tr, s, hr, h₁, h₂, creation_safe hr⟩

/-- A process ends and is not awaited: `process_alive` is its pid again, and the next process is put over the zombie. -/
theorem creation_safe_fails :
    ¬∀ tr s, Parcours (fun _ e => e.vie = true) tr s → ∀ e i s', Pas s e (.cree i) s' →
      (¬Lance tr i ∨ s.state i = .mort ∧ Met s.suiv s.deadList i) ∧ ¬EnUsage s i := by
  intro h
  obtain ⟨tr, s, hr, hz, ht⟩ := deroule_any (P := fun _ e => e.vie = true)
    (Q := fun _ s => s.state 1 = .zombie ∧ (tente s (.appel (.start 512 5 "q"))).map Prod.fst = some (.cree 1))
    boot [.appel (.start 512 5 "p"), .tick, .appel (.exit 3)] (by decide +kernel)
  obtain ⟨⟨r, s'⟩, ho, rfl⟩ := Option.map_eq_some_iff.1 ht
  exact (h tr s hr _ _ _ (tente_eq_some.1 ho)).2 (.inr (.inr (.inr hz)))

/-! ## Terminated processes -/

/-- A terminated process moves from `zombie` to `mort` only. -/
theorem Va.termine {K : Type*} {f : Fin NBQUEUE → Bool → K} {P : Place} (h : Va f s p e r s' i P) (hr : r ≠ .cree i)
    (hz : p i = .zombie ∨ p i = .mort) : (P = .zombie ∨ P = .mort) ∧ (p i = .mort → P = .mort) := by
  cases h with
  | reste => exact ⟨hz, id⟩
  | libere k h => rcases hz with hz | hz <;> simp [h.1] at hz
  | demarre _ h => exact absurd h hr
  | _ => rcases hz with hz | hz <;> simp_all

theorem Inv.termine {K : Type*} {f : Fin NBQUEUE → Bool → K} (h : Inv f a s p) (hz : p i = .zombie ∨ p i = .mort) :
    s.prete i = false ∧ ¬Met s.suiv s.endormiList i ∧ s.actif ≠ some i ∧ s.charge ≠ i := by
  obtain ⟨q, e, d, hrep⟩ := h.rep
  have hia : a ≠ i := by
    rintro rfl
    rcases hz with hz | hz <;> simp [h.elu] at hz
  refine ⟨?_, ?_, by simpa [h.actif] using hia, by rwa [h.charge]⟩
  · rw [Bool.eq_false_iff, ne_eq, hrep.prete]
    rcases hz with hz | hz <;> simp [hz]
  · rw [hrep.lists.sleep.seg.met_iff, hrep.sleep]
    rcases hz with hz | hz <;> simp [hz]

/-- Under `Sain`: a slot that is a zombie or dead stays so, in no queue and not running, until `start` takes it. -/
theorem terminated_terminal (hr : Parcours Sain tr s) (hr' : Run (Under Sain Pas) s tr' s')
    (hi : s.state i = .zombie ∨ s.state i = .mort) (hc : ∀ t e, (t, e, .cree i) ∉ tr') :
    (s'.state i = .zombie ∨ s'.state i = .mort) ∧ (s.state i = .mort → s'.state i = .mort) ∧
      s'.prete i = false ∧ ¬Met s'.suiv s'.endormiList i ∧ s'.actif ≠ some i ∧ s'.charge ≠ i := by
  obtain ⟨a, p, hinv, -⟩ := sain_spec (fun _ _ h => h) hr
  obtain ⟨q, l, d, hrep⟩ := hinv.rep
  rw [hrep.state_eq_zombie, hrep.state_eq_mort] at hi
  obtain ⟨a', p', hinv', hz, hm⟩ := hr'.inv_trace
    (fun tr' s' => (∀ t e, (t, e, .cree i) ∉ tr') →
      ∃ a' p', Inv melange a' s' p' ∧ (p' i = .zombie ∨ p' i = .mort) ∧ (p i = .mort → p' i = .mort))
    (fun _ => ⟨a, p, hinv, hi, id⟩) (by
      rintro tr t e r t' - ih ⟨hs, ho⟩ hc
      obtain ⟨a₁, p₁, hinv₁, hz, hm⟩ := ih fun t e ht => hc t e (by simp [ht])
      obtain ⟨n, p₂, he⟩ := pas_spec hinv₁ hs (separe_melange t e) ho
      have hne : r ≠ .cree i := by
        rintro rfl
        exact hc t e (by simp)
      obtain ⟨h₁, h₂⟩ := (he.va i).termine hne hz
      exact ⟨n, p₂, he.inv, h₁, fun hp => h₂ (hm hp)⟩) hc
  obtain ⟨q', l', d', hrep'⟩ := hinv'.rep
  rw [hrep'.state_eq_zombie, hrep'.state_eq_mort, hrep.state_eq_mort]
  exact ⟨hz, hm, hinv'.termine hz⟩

/-- A process ends, then is awaited. -/
theorem terminated_terminal_run :
    ∃ tr s tr' s', Parcours Sain tr s ∧ Run (Under Sain Pas) s tr' s' ∧ s'.state 1 = .mort ∧
      ((s'.state 1 = .zombie ∨ s'.state 1 = .mort) ∧ (s.state 1 = .mort → s'.state 1 = .mort) ∧
        s'.prete 1 = false ∧ ¬Met s'.suiv s'.endormiList 1 ∧ s'.actif ≠ some 1 ∧ s'.charge ≠ 1) := by
  obtain ⟨tr, s, hr, hz, hp⟩ := deroule_any (P := Sain)
    (Q := fun _ s => s.state 1 = .zombie ∧
      (deroule Sain s [.appel (.waitpid 1 true), .suite, .tick]).any
        (fun c => decide (c.2.state 1 = .mort ∧ ∀ x ∈ c.1, x.2.2 ≠ .cree 1)) = true)
    boot [.appel (.start 512 5 "p"), .tick, .appel (.exit 3)] (by decide +kernel)
  obtain ⟨tr', s', hr', hm, hc⟩ := deroule_any (P := Sain) (Q := fun tr s => s.state 1 = .mort ∧ ∀ x ∈ tr, x.2.2 ≠ .cree 1) s _ hp
  exact ⟨tr, s, tr', s', hr, hr', hm, terminated_terminal hr hr' (.inl hz) fun t e ht => hc _ ht rfl⟩

/-- Process 0 sleeps when the last process ends: `actif` stays on the zombie, which the next tick makes ready. -/
theorem terminated_terminal_fails :
    ¬∀ tr s tr' s' i, Parcours (fun _ _ => True) tr s → Run (Under (fun _ _ => True) Pas) s tr' s' →
      s.state i = .zombie → (∀ t e, (t, e, .cree i) ∉ tr') → s'.state i = .zombie ∨ s'.state i = .mort := by
  intro h
  obtain ⟨tr, s, hr, hz, hp⟩ := deroule_any (P := fun _ _ => True)
    (Q := fun _ s => s.state 1 = .zombie ∧
      (deroule (fun _ _ => True) s [.tick]).any
        (fun c => decide (c.2.state 1 = .activable ∧ ∀ x ∈ c.1, x.2.2 ≠ .cree 1)) = true)
    boot [.appel (.start 512 1 "p"), .appel (.sleepUntil 1), .appel (.exit 3)] (by decide +kernel)
  obtain ⟨tr', s', hr', hm, hc⟩ := deroule_any (P := fun _ _ => True)
    (Q := fun tr s => s.state 1 = .activable ∧ ∀ x ∈ tr, x.2.2 ≠ .cree 1) s _ hp
  have := h tr s tr' s' 1 hr hr' hz fun t e ht => hc _ ht rfl
  simp [hm] at this

end Pcsea
