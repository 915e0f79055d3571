import Pcsea.Priorite
/-!
# `kill` of another process against `fin_processus`

`CommeExit`: the table after `kill` is the one `fin_processus` would have left,
had the victim been running. It never is: `kill` does not count the victim out
of `process_alive`. `KillVrai`: the result of `kill` says what it did. It does
not for a process blocked on a message queue, which `kill` does not find, nor
for a sleeper behind the first, whose deletion `sleep_del` does not report.
-/

namespace Pcsea

open Lib

variable {s s' t : St} {p : Slot → Place} {a c x : Slot} {tr : List (St × Event × Issue)}

/-- What running and terminating do not touch, besides the lists and the states. -/
def St.identite (s : St) := (s.pid, s.prio, s.premierFils, s.dernierFils, s.pere, s.frereDroit, s.processAlive)

/-- `t` is `s` with `c` out of the lists and running. -/
structure Courant (s : St) (c : Slot) (t : St) : Prop where
  lists : ∃ q e d, Lists s q e d ∧ Lists t (q.erase c) (e.erase c) d
  state : t.state = Function.update s.state c .elu
  actif : t.actif = some c
  identite : t.identite = s.identite

/-- `s'` is what `c` would leave by ending with value 0 in `s`, but for the process that runs next. -/
def CommeExit (s : St) (c : Slot) (s' : St) : Prop :=
  ∃ t₀ t q e d, Courant s c t₀ ∧ finProcessusTable c (t₀.setRetval c (some 0)) = .ok t ∧ Lists t q e d ∧ Lists s' q e d ∧
    s'.state = t.state ∧ s'.identite = { t with processAlive := predUint32 t.processAlive }.identite

/-! ## `process_alive` -/

theorem queueDel_processAlive (h : queueDel x s = .ok s') : s'.processAlive = s.processAlive := by
  simp only [queueDel, bind_eq_ok, Except.ok.injEq] at h
  obtain ⟨_, -, _, -, _, -, rfl⟩ := h
  rfl

theorem sleepDelLoop_processAlive {pid : Int} {n : Nat} {ptr : Option Slot} (h : sleepDelLoop pid n ptr x s = .ok s') :
    s'.processAlive = s.processAlive := by
  induction n generalizing ptr x s with
  | zero =>
    cases ptr with
    | none =>
      obtain rfl := Except.ok.inj h
      rfl
    | some y => cases h
  | succ n ih =>
    cases ptr with
    | none =>
      obtain rfl := Except.ok.inj h
      rfl
    | some y =>
      unfold sleepDelLoop at h
      dsimp only at h
      split at h
      · obtain ⟨t, -, h⟩ := bind_eq_ok.1 h
        obtain ⟨s₁, h₁, h₂⟩ := bind_eq_ok.1 h
        rw [ih h₂]
        obtain ⟨suiv, dl, dt, rfl⟩ := insertMort_eq h₁
        show St.processAlive (if s.pid y = s.pid t then { s with endormiTail := some x } else s) = _
        split <;> rfl
      · exact ih h

theorem sleepDel_processAlive {pid r : Int} (h : sleepDel pid s = .ok (r, s')) : s'.processAlive = s.processAlive := by
  unfold sleepDel at h
  split at h
  · obtain ⟨-, rfl⟩ := Prod.mk.inj (Except.ok.inj h)
    rfl
  · split at h
    · obtain ⟨h₁, -⟩ := bind_answer_eq_ok.1 h
      obtain ⟨suiv, dl, dt, rfl⟩ := insertMort_eq h₁
      show St.processAlive (if s.endormiList = s.endormiTail then { s with endormiTail := none } else s) = _
      split <;> rfl
    · obtain ⟨h₁, -⟩ := bind_answer_eq_ok.1 h
      exact sleepDelLoop_processAlive h₁

/-- `kill` of another process leaves `process_alive` as it is. -/
theorem killAutre_processAlive {pid r : Int} (h : killAutre pid s = .ok (r, s')) : s'.processAlive = s.processAlive := by
  unfold killAutre at h
  obtain ⟨o, -, h⟩ := bind_eq_ok.1 h
  split at h
  · obtain ⟨h₁, -⟩ := bind_answer_eq_ok.1 h
    exact (queueDel_processAlive h₁).trans rfl
  · obtain ⟨⟨v, s₁⟩, h₁, h₂⟩ := bind_eq_ok.1 h
    dsimp only at h₂
    have he : s' = s₁ := by
      split at h₂ <;> exact (Prod.mk.inj (Except.ok.inj h₂)).2.symm
    rw [he]
    exact sleepDel_processAlive h₁

theorem finProcessusTable_processAlive (h : finProcessusTable a s = .ok s') : s'.processAlive = s.processAlive := by
  obtain ⟨state, suiv, dl, dt, pere, fd, prf, rfl⟩ := finProcessusTable_eq h
  rfl

theorem predUint32_ne (n : Nat) : predUint32 n ≠ n := by
  unfold predUint32
  omega

theorem kill_processAlive {pid : Int} {r : Issue} (hc : ∀ a, s.actif = some a → s.pid a ≠ pid) (h : kill pid s = .ok (r, s')) :
    s'.processAlive = s.processAlive := by
  unfold kill at h
  split at h
  · obtain ⟨-, rfl⟩ := Prod.mk.inj (Except.ok.inj h)
    rfl
  · obtain ⟨a, ha, h⟩ := bind_eq_ok.1 h
    rw [if_neg (hc a (deref_eq_ok.1 ha))] at h
    obtain ⟨⟨v, s₁⟩, hk, hr⟩ := bind_eq_ok.1 h
    obtain ⟨-, rfl⟩ := Prod.mk.inj (Except.ok.inj hr)
    exact killAutre_processAlive hk

/-- `fin_processus` counts the process out. -/
theorem CommeExit.processAlive (h : CommeExit s c s') : s'.processAlive = predUint32 s.processAlive := by
  obtain ⟨t₀, t, q, e, d, hcour, ht, -, -, -, hid⟩ := h
  have h₀ := hcour.identite
  simp only [St.identite, Prod.mk.injEq] at h₀ hid
  rw [hid.2.2.2.2.2.2, finProcessusTable_processAlive ht]
  exact congrArg predUint32 h₀.2.2.2.2.2.2

/-- `kill` of a process other than `actif` never agrees with `fin_processus`. -/
theorem kill_disagrees (hc : ∀ a, s.actif = some a → s.pid a ≠ s.pid c) :
    ¬∃ r s', kill (s.pid c) s = .ok (r, s') ∧ CommeExit s c s' := by
  rintro ⟨r, s', hk, he⟩
  exact predUint32_ne _ (he.processAlive.symm.trans (kill_processAlive hc hk))

/-- A ready process with a father, killed by process 0. -/
theorem kill_disagrees_run :
    ∃ tr s, Parcours (fun _ _ => True) tr s ∧ (s.prete 1 = true ∧ s.pere 1 = some 0 ∧ s.actif = some 0) ∧
      (∃ s', kill (s.pid 1) s = .ok (.rend 0, s')) ∧ ¬∃ r s', kill (s.pid 1) s = .ok (r, s') ∧ CommeExit s 1 s' := by
  obtain ⟨tr, s, hr, h₁, h₂, h₃, h₄, hk⟩ := deroule_any (P := fun _ _ => True)
    (Q := fun _ s => s.prete 1 = true ∧ s.pere 1 = some 0 ∧ s.actif = some 0 ∧ s.pid 0 ≠ s.pid 1 ∧
      ((kill (s.pid 1) s).toOption.map Prod.fst = some (.rend 0)))
    boot [.appel (.start 512 1 "p")] (by decide +kernel)
  refine ⟨tr, s, hr, ⟨h₁, h₂, h₃⟩, ?_, kill_disagrees fun a ha => ?_⟩
  · exact ok_of_answer hk
  · rw [h₃, Option.some.injEq] at ha
    rwa [← ha]

/-- That run refutes the agreement of `kill` and `fin_processus`. -/
theorem kill_as_exit_fails :
    ¬∀ tr s c, Parcours (fun _ _ => True) tr s → c ≠ 0 → s.actif ≠ some c → s.prete c = true ∨ Met s.suiv s.endormiList c →
      ∃ r s', kill (s.pid c) s = .ok (r, s') ∧ CommeExit s c s' := by
  intro h
  obtain ⟨tr, s, hr, h₁, h₂, h₃⟩ := deroule_any (P := fun _ _ => True)
    (Q := fun _ s => s.prete 1 = true ∧ s.actif = some 0 ∧ s.pid 0 ≠ s.pid 1) boot [.appel (.start 512 1 "p")] (by decide +kernel)
  obtain ⟨r, s', hk, he⟩ := h tr s 1 hr (by decide) (by rw [h₂]; decide) (.inl h₁)
  have ha : ∀ a, s.actif = some a → s.pid a ≠ s.pid 1 := by
    rintro a ha
    rw [h₂, Option.some.injEq] at ha
    rwa [← ha]
  exact predUint32_ne _ (he.processAlive.symm.trans (kill_processAlive ha hk))

/-! ## What `kill` reports -/

/-- `kill(pid)` returns 0 and terminates the process of pid `pid`, when it is live and not process 0; otherwise it returns
-1 and changes nothing. -/
structure KillVrai (s : St) (pid : Int) : Prop where
  vivant : ∀ i, 1 ≤ pid → Vivant s i → s.pid i = pid →
    ∃ s', kill pid s = .ok (.rend 0, s') ∧ Tue s s' i ∧ ¬Vivant s' i
  autre : (∀ i, Vivant s i → s.pid i = pid → pid < 1) → kill pid s = .ok (.rend (-1), s)

/-- A process of pid `pid` that is not running is ready, or the first of the sleep list. -/
def Atteignable (s : St) (pid : Int) : Prop :=
  ∀ i, 1 ≤ pid → s.pid i = pid → s.state i = .endormi → s.endormiList = some i

theorem kill_hors {pid : Int} (h : pid ≤ 0 ∨ PROCESS_TABLE_SIZE - 1 < pid) : kill pid s = .ok (.rend (-1), s) := by
  rw [kill, if_pos h]

theorem Inv.killVrai {K : Type*} {f : Fin NBQUEUE → Bool → K} (h : Inv f a s p) {pid : Int} (hc : s.pid a ≠ pid) :
    KillVrai s pid ↔ Atteignable s pid := by
  obtain ⟨q, e, d, hrep⟩ := h.rep
  have hpos : ∀ i, 1 ≤ pid → s.pid i = pid → p i ≠ .libre := by
    intro i hpid hi hp
    have := hrep.named i
    rw [if_pos hp] at this
    omega
  by_cases hpid : pid ≤ 0 ∨ PROCESS_TABLE_SIZE - 1 < pid
  · have hno : ∀ i, 1 ≤ pid → s.pid i ≠ pid := by
      intro i h1 hi
      have := hrep.pid (hpos i h1 hi)
      have := i.isLt
      omega
    exact ⟨fun _ i h1 hi => absurd hi (hno i h1), fun _ => ⟨fun i h1 _ hi => absurd hi (hno i h1), fun _ => kill_hors hpid⟩⟩
  have h1 : 1 ≤ pid := by omega
  have huniq : ∀ i x, s.pid i = pid → s.pid x = pid → i = x := fun i x hi hx =>
    hrep.pid_inj (hpos i h1 hi) (hpos x h1 hx) (hi.trans hx.symm)
  obtain ⟨v, s', p', ho, hi', -, hcase⟩ := killAutre_spec pid h (by omega)
  have hk : kill pid s = .ok (.rend v, s') := by rw [kill, if_neg hpid, h.deref, ok_bind, if_neg hc, ho, ok_bind]
  -- The process of pid `pid` is in one of the two lists.
  have hfin : ∀ x, s.pid x = pid → Trouvable p x → p' x = .zombie ∨ p' x = .mort → Tue s s' x →
      (v = 0 ↔ Atteignable s pid) → (KillVrai s pid ↔ Atteignable s pid) := by
    intro x hx hp hp' ht hv
    have hnv : ¬Vivant s' x := by
      rw [hi'.vivant]
      rcases hp' with hp' | hp' <;> simp [Trouvable, hp']
    constructor
    · rintro hkv
      obtain ⟨s'', hs'', -⟩ := hkv.vivant x h1 (h.vivant.2 (.inl hp)) hx
      obtain ⟨hv0, -⟩ := Prod.mk.inj (Except.ok.inj (hk.symm.trans hs''))
      exact hv.1 (Issue.rend.inj hv0)
    · refine fun hat => ⟨fun i _ _ hi => ?_, fun hn => absurd (hn x (h.vivant.2 (.inl hp)) hx) (by omega)⟩
      obtain rfl := huniq i x hi hx
      exact ⟨s', by rw [hk, hv.2 hat], ht, hnv⟩
  rcases hcase with ⟨x, hx, hp, rfl, rfl, ht⟩ | ⟨x, hx, hp, hv, rfl, ht⟩ | ⟨hno, rfl, rfl, rfl⟩
  · refine hfin x hx (.inr (.inl hp)) (.inl (Function.update_self ..)) ht ⟨fun _ i _ hi hst => ?_, fun _ => rfl⟩
    rw [hrep.state_eq_endormi, huniq i x hi hx] at hst
    rcases hst with hst | hst <;> simp [hp] at hst
  · refine hfin x hx (.inr (.inr hp)) (.inr (Function.update_self ..)) ht ⟨fun h0 i _ hi _ => ?_, fun hat => ?_⟩
    · rw [huniq i x hi hx]
      by_contra hne
      rw [if_neg hne] at hv
      omega
    · rw [hv, if_pos (hat x h1 hx (hrep.state_eq_endormi.2 (.inl hp)))]
  · constructor
    · intro hkv i _ hi hst
      rcases hrep.state_eq_endormi.1 hst with hp | hp
      · exact absurd hp (hno i hi).2
      · obtain ⟨s'', hs'', -⟩ := hkv.vivant i h1 (h.vivant.2 (.inr hp)) hi
        obtain ⟨hv0, -⟩ := Prod.mk.inj (Except.ok.inj (hk.symm.trans hs''))
        cases hv0
    · refine fun hat => ⟨fun i _ hv hi => ?_, fun _ => hk⟩
      rcases h.vivant.1 hv with (hp | hp | hp) | hp
      · exact absurd hi (h.seul i hp ▸ hc)
      · exact absurd hp (hno i hi).1
      · exact absurd hp (hno i hi).2
      · have hl := hat i h1 hi (hrep.state_eq_endormi.2 (.inr hp))
        rw [hrep.lists.sleep.head] at hl
        have := (hrep.sleep i).1 (List.mem_of_head? hl)
        simp [hp] at this

/-- In the states of `Sain` runs, `kill` of another process is truthful and atomic exactly when that process is no sleeper
but the first and not blocked. -/
theorem kill_truthful {pid : Int} (hr : Parcours Sain tr s) (hc : ∀ a, s.actif = some a → s.pid a ≠ pid) :
    KillVrai s pid ↔ Atteignable s pid := by
  obtain ⟨a, p, hi, -⟩ := sain_spec (fun _ _ h => h) hr
  exact hi.killVrai (hc a hi.actif)

/-- Two processes sleep: the first can be killed, the second is killed too but -1 is returned. -/
theorem kill_truthful_run :
    ∃ tr s, Parcours Sain tr s ∧ (s.endormiList = some 1 ∧ s.suiv 1 = some 2) ∧ (KillVrai s 1 ↔ Atteignable s 1) ∧
      (KillVrai s 2 ↔ Atteignable s 2) := by
  obtain ⟨tr, s, hr, h₁, h₂, ha, hp₁, hp₂⟩ := deroule_any (P := Sain)
    (Q := fun _ s => s.endormiList = some 1 ∧ s.suiv 1 = some 2 ∧ s.actif = some 0 ∧ s.pid 0 ≠ 1 ∧ s.pid 0 ≠ 2) boot
    [.appel (.start 512 5 "p"), .tick, .appel (.start 512 5 "q"), .appel (.sleepUntil 10), .appel (.sleepUntil 20)]
    (by decide +kernel)
  refine ⟨tr, s, hr, ⟨h₁, h₂⟩, kill_truthful hr fun a h => ?_, kill_truthful hr fun a h => ?_⟩
  · obtain rfl : 0 = a := Option.some.inj (ha.symm.trans h)
    exact hp₁
  · obtain rfl : 0 = a := Option.some.inj (ha.symm.trans h)
    exact hp₂

/-- The second sleeper is killed, and `kill` returns -1. -/
theorem kill_truthful_fails :
    ¬∀ tr s (pid : Int), Parcours (fun _ _ => True) tr s → (∀ a, s.actif = some a → s.pid a ≠ pid) → KillVrai s pid := by
  intro h
  obtain ⟨tr, s, hr, hst, ha, hp₁, hp₂, hk⟩ := deroule_any (P := fun _ _ => True)
    (Q := fun _ s => s.state 2 = .endormi ∧ s.actif = some 0 ∧ s.pid 0 ≠ 2 ∧ s.pid 2 = 2 ∧
      (kill 2 s).toOption.map (fun c => (c.1, c.2.state 2)) = some (.rend (-1), .mort)) boot
    [.appel (.start 512 5 "p"), .tick, .appel (.start 512 5 "q"), .appel (.sleepUntil 10), .appel (.sleepUntil 20)]
    (by decide +kernel)
  obtain ⟨s', hs', -⟩ := (h tr s 2 hr fun a h => by
    obtain rfl : 0 = a := Option.some.inj (ha.symm.trans h)
    exact hp₁).vivant 2 (by decide) (.inr (.inr hst)) hp₂
  rw [hs'] at hk
  simp [Except.toOption] at hk

end Pcsea
