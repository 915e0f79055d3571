import Mathlib.Data.Fintype.Card
import Pcsea.Priorite
/-!
# Terminations and room for new processes

`process_alive` counts the live processes as long as `kill` meets none that is
ready or asleep. A process without a father does not get to the end of
`fin_processus`.
-/

namespace Pcsea

open Lib

variable {s s' : St} {p p' : Slot → Place} {a i n x : Slot} {e : Event} {r : Issue} {tr : List (St × Event × Issue)}

/-! ## The count of the live processes -/

section Compte
variable {K : Type*} {f : Fin NBQUEUE → Bool → K}

/-- The places of the live processes. -/
def Place.vif : Place → Bool
  | .elu | .pret | .endormi | .bloque => true
  | .libre | .zombie | .mort => false

/-- The slots of the live processes. -/
def vifs (p : Slot → Place) : Finset Slot := Finset.univ.filter fun i => (p i).vif = true

theorem mem_vifs : i ∈ vifs p ↔ (p i).vif = true := by simp [vifs]

theorem Inv.vivant_iff (h : Inv f a s p) : Vivant s i ↔ (p i).vif = true := by
  rw [h.vivant, Trouvable]
  cases p i <;> simp [Place.vif]

/-- `kill` finds neither a ready nor a sleeping process. -/
def Epargne (s : St) (e : Event) : Prop :=
  ∀ pid, e = .appel (.kill pid) → 0 < pid → ∀ i, s.pid i = pid → s.prete i = false ∧ ¬Met s.suiv s.endormiList i

/-- A process stays live, or stays dead, unless it is created or ends itself. -/
theorem Effet.vif (h : Inv f a s p) (hk : Epargne s e) (he : Effet f a s p e r s' n p') (hc : r ≠ .cree i)
    (hf : i = a → ¬Termine s e) : (p' i).vif = (p i).vif := by
  obtain ⟨q, l, d, hrep⟩ := h.rep
  -- A process killed while it waits is one that `kill` was told to spare.
  have hkill : (p' i = .zombie ∨ p' i = .mort) → (p i = .pret ∨ p i = .endormi) → e = .appel (.kill (s.pid i)) → False := by
    intro hz hp hei
    have hpid : 0 < s.pid i := h.pid_pos (by rcases hp with hp | hp <;> simp [hp]) (he.inv.ne_zero hz)
    obtain ⟨h₁, h₂⟩ := hk _ hei hpid i rfl
    rcases hp with hp | hp
    · rw [hrep.prete.2 hp] at h₁
      cases h₁
    · exact h₂ (hrep.lists.sleep.seg.met_iff.2 ((hrep.sleep i).2 hp))
  have hva := he.va i
  generalize hP : p' i = P at hva hkill ⊢
  cases hva with
  | reste => rfl
  | tourne h₁ h₂ => rcases h₁ with h₁ | h₁ <;> rcases h₂ with h₂ | h₂ <;> simp [h₁, h₂, Place.vif]
  | echeance h₁ _ _ h₂ => rcases h₂ with h₂ | h₂ <;> simp [h₁, h₂, Place.vif]
  | dort _ h₁ => simp [h₁, Place.vif]
  | attend h₁ => simp [h₁, Place.vif]
  | libere _ h₁ => simp [h₁.1, Place.vif]
  | finit h₁ =>
    have hia : i = a := h.seul i h₁
    exact absurd (he.fin.1 (hia ▸ hP)) (hf hia)
  | tue h₁ h₂ => exact (hkill (.inl rfl) (.inl h₁) h₂).elim
  | tueEndormi h₁ h₂ => exact (hkill (.inr rfl) (.inr h₁) h₂).elim
  | recolte _ _ _ h₁ => simp [h₁, Place.vif]
  | orphelin h₁ => simp [h₁, Place.vif]
  | demarre _ h₁ => exact absurd h₁ hc

theorem vifs_card_le (p : Slot → Place) : (vifs p).card ≤ PROCESS_TABLE_SIZE := by
  have := Finset.card_le_univ (vifs p)
  rwa [Fintype.card_fin] at this

/-- A step that spares the other processes keeps the count. -/
theorem Effet.compte_vifs (h : Inv f a s p) (hk : Epargne s e) (he : Effet f a s p e r s' n p')
    (hn : s.processAlive = (vifs p).card) : s'.processAlive = (vifs p').card := by
  have hle := vifs_card_le p
  have h30 : PROCESS_TABLE_SIZE = 30 := rfl
  by_cases hc : ∃ x, r = .cree x
  · -- one process more
    obtain ⟨x, rfl⟩ := hc
    obtain ⟨hd, hx, hcr⟩ := he.cree x rfl
    have hnt : ¬Termine s e := by
      unfold Event.creation at hcr
      split at hcr
      · exact id
      · cases hcr
    have hxp : x ∉ vifs p := by
      rw [mem_vifs]
      rcases hd.place with hp | hp | hp <;> simp [hp, Place.vif]
    have hset : vifs p' = insert x (vifs p) := by
      ext i
      rw [Finset.mem_insert, mem_vifs, mem_vifs]
      by_cases hi : i = x
      · simp [hi, hx, Place.vif]
      · rw [he.vif h hk (fun hc => hi (Issue.cree.inj hc).symm) fun _ => hnt]
        simp [hi]
    rw [he.compte.cree x rfl, hset, Finset.card_insert_of_notMem hxp, succUint32, hn]
    omega
  · push Not at hc
    by_cases ht : Termine s e
    · -- `actif` is counted out
      have ha : a ∈ vifs p := by simp [mem_vifs, h.elu, Place.vif]
      have hset : vifs p' = (vifs p).erase a := by
        ext i
        rw [Finset.mem_erase, mem_vifs, mem_vifs]
        by_cases hi : i = a
        · simp [hi, he.fin.2 ht, Place.vif]
        · rw [he.vif h hk (hc i) fun hia => absurd hia hi]
          simp [hi]
      have hpos := Finset.card_pos.2 ⟨a, ha⟩
      rw [he.compte.fin ht, hset, Finset.card_erase_of_mem ha, predUint32, hn]
      omega
    · rw [he.compte.meme ht hc, hn]
      congr 1
      ext i
      rw [mem_vifs, mem_vifs, he.vif h hk (hc i) fun _ => ht]

end Compte

/-- The slot is held by a live process, or by a zombie that a live father can await. -/
def Tenu (s : St) (i : Slot) : Prop := Vivant s i ∨ s.state i = .zombie ∧ ∃ j, s.pere i = some j ∧ Vivant s j

/-- A `Sain` step in which `kill` terminates nobody but the caller. -/
def Comptable (s : St) (e : Event) : Prop := Sain s e ∧ Epargne s e

/-- With a legal stack size, `start` returns -1 only when `process_alive` is the size of the table. -/
theorem start_plein {ssize : Nat} {prio : Int} {name : String} (hs : ssize < 0xffffffff)
    (h : start ssize prio name s = .ok (.rend (-1), s')) : s.processAlive = PROCESS_TABLE_SIZE := by
  unfold start at h
  split at h
  · omega
  split at h
  · next hp => exact absurd hp (by unfold MAX_PRIO; omega)
  split at h
  · assumption
  obtain ⟨⟨x, s₁⟩, -, h⟩ := bind_eq_ok.1 h
  dsimp only at h
  split at h
  · cases h
  obtain ⟨s₂, -, h⟩ := bind_eq_ok.1 h
  split at h
  · obtain ⟨s₃, -, h⟩ := bind_eq_ok.1 h
    cases (Prod.mk.inj (Except.ok.inj h)).1
  · cases (Prod.mk.inj (Except.ok.inj h)).1

/-- In the runs whose steps are `Comptable`, `start` fails for lack of room only when every slot is held. -/
theorem no_slot_leak {ssize : Nat} {prio : Int} {name : String} (hr : Parcours Comptable tr s) (hs : ssize < 0xffffffff)
    (ho : start ssize prio name s = .ok (.rend (-1), s')) : ∀ i, Tenu s i := by
  obtain ⟨a, p, hi, -, hn⟩ := parcours_spec (fun s e h => ⟨h.1, separe_melange s e⟩)
    (fun _ s p => s.processAlive = (vifs p).card) (by
      rw [show vifs placesBoot = {0} from by decide, boot_eq, Finset.card_singleton])
    (fun _ _ _ _ _ _ _ _ _ h hn hc he => he.compte_vifs h hc.2 hn) hr
  intro i
  have hfull : vifs p = Finset.univ := by
    rw [← Finset.card_eq_iff_eq_univ, Fintype.card_fin, ← hn]
    exact start_plein hs ho
  have hv : i ∈ vifs p := by simp [hfull]
  exact .inl (hi.vivant_iff.2 (mem_vifs.1 hv))

/-- Twenty-nine processes are started, which fills the table. -/
theorem no_slot_leak_run :
    ∃ tr s s', Parcours Comptable tr s ∧ start 512 1 "p" s = .ok (.rend (-1), s') ∧ ∀ i, Tenu s i := by
  obtain ⟨tr, s, hr, hq⟩ := deroule_any (P := fun s e => Sain s e ∧ e.creation = true)
    (Q := fun _ s => (start 512 1 "p" s).toOption.map Prod.fst = some (.rend (-1)))
    boot (List.replicate 29 (.appel (.start 512 1 "p"))) (by decide +kernel)
  have hr' : Parcours Comptable tr s := hr.mono fun s e r s' h =>
    ⟨⟨h.1.1, fun pid he => by rw [he] at h; exact absurd h.1.2 nofun⟩, h.2⟩
  obtain ⟨s', hx⟩ := ok_of_answer hq
  exact ⟨tr, s, s', hr', hx, no_slot_leak hr' (by decide) hx⟩

/-- Every process is killed as soon as it is started, and one of them is awaited: `start` fails, its slot is free. -/
theorem no_slot_leak_fails :
    ¬∀ tr s s', Parcours (fun _ _ => True) tr s → start 512 1 "p" s = .ok (.rend (-1), s') → ∀ i, Tenu s i := by
  intro h
  obtain ⟨tr, s, hr, ha, hp, hst, hq⟩ := deroule_any (P := fun _ _ => True)
    (Q := fun _ s => s.actif = some 0 ∧ s.prete 1 = false ∧ s.state 1 = .mort ∧
      (start 512 1 "p" s).toOption.map Prod.fst = some (.rend (-1)))
    boot ((List.range 29).flatMap (fun k => [.appel (.start 512 1 "p"), .appel (.kill (k + 1))]) ++
      [.appel (.waitpid 1 true), .suite]) (by decide +kernel)
  obtain ⟨s', hx⟩ := ok_of_answer hq
  rcases h tr s s' hr hx 1 with (h₁ | h₁ | h₁) | ⟨h₁, -⟩
  · exact absurd (Option.some.inj (ha.symm.trans h₁)) (by decide)
  · simp [hp] at h₁
  · simp [hst] at h₁
  · simp [hst] at h₁

/-! ## Processes without a father -/

/-- Who has no father gets none while `fin_processus` goes through the children. -/
theorem finProcessusFils_pere {k : Nat} {ptr : Option Slot} (h : finProcessusFils k ptr s = .ok s') (ha : s.pere a = none) :
    s'.pere a = none := by
  induction k generalizing ptr s with
  | zero =>
    cases ptr with
    | none =>
      obtain rfl := Except.ok.inj h
      exact ha
    | some y => cases h
  | succ k ih =>
    cases ptr with
    | none =>
      obtain rfl := Except.ok.inj h
      exact ha
    | some y =>
      have hset : (s.setPere y none).pere a = none := by
        by_cases hy : a = y
        · exact hy ▸ Function.update_self ..
        · exact (Function.update_of_ne hy ..).trans ha
      unfold finProcessusFils at h
      dsimp only at h
      split at h
      · obtain ⟨s₁, h₁, h₂⟩ := bind_eq_ok.1 h
        obtain ⟨suiv, dl, dt, rfl⟩ := insertMort_eq h₁
        exact ih h₂ hset
      · exact ih h hset

theorem finProcessus_orphelin (ha : s.actif = some a) (hp : s.pere a = none) : finProcessus s ≠ .ok s' := by
  intro h
  obtain ⟨b, hb, h⟩ := bind_eq_ok.1 h
  obtain rfl : a = b := Option.some.inj (ha.symm.trans (deref_eq_ok.1 hb))
  obtain ⟨s₁, h₁, -⟩ := bind_eq_ok.1 h
  rw [finProcessusTable, hp] at h₁
  obtain ⟨s₂, h₂, h₁⟩ := bind_eq_ok.1 h₁
  obtain ⟨suiv, dl, dt, rfl⟩ := insertMort_eq h₂
  obtain ⟨s₃, h₃, h₁⟩ := bind_eq_ok.1 h₁
  obtain ⟨y, hy, -⟩ := bind_eq_ok.1 h₁
  rw [finProcessusFils_pere h₃ hp] at hy
  cases hy

/-- A process without a father never gets to the end of `fin_processus`: it looks for itself among the children of its
father. -/
theorem orphan_termination (ha : s.actif = some a) (hp : s.pere a = none) (ht : Termine s e) :
    ¬∃ r s', joue e s = .ok (r, s') := by
  rintro ⟨r, s', h⟩
  unfold Termine at ht
  split at ht
  · next retval =>
    obtain ⟨h, -⟩ := sansIssue_eq_ok.1 h
    obtain ⟨b, hb, h⟩ := bind_eq_ok.1 h
    exact finProcessus_orphelin (s := (s.setRetval b (some retval)).setSuite .exit) ha hp h
  · obtain ⟨h, -⟩ := sansIssue_eq_ok.1 h
    exact finProcessus_orphelin (s := s.setSuite .retour) ha hp h
  · next pid =>
    obtain ⟨hin, b, hb, hpid⟩ := ht
    obtain rfl : a = b := Option.some.inj (ha.symm.trans hb)
    change kill pid s = _ at h
    rw [kill, if_neg hin, ha, deref_some, ok_bind, if_pos hpid] at h
    obtain ⟨s₁, h, -⟩ := bind_eq_ok.1 h
    exact finProcessus_orphelin (s := (s.setRetval a none).setSuite .kill) ha hp h
  · exact ht

/-- A father ends while its child is ready: the child runs, without a father. -/
theorem orphan_termination_run :
    ∃ tr s, Parcours Sain tr s ∧ (s.actif = some 2 ∧ s.pere 2 = none) ∧ ¬∃ r s', joue (.appel (.exit 3)) s = .ok (r, s') := by
  obtain ⟨tr, s, hr, ha, hp⟩ := deroule_any (P := Sain) (Q := fun _ s => s.actif = some 2 ∧ s.pere 2 = none) boot
    [.appel (.start 512 5 "p"), .tick, .appel (.start 512 5 "q"), .appel (.exit 0)] (by decide +kernel)
  exact ⟨tr, s, hr, ⟨ha, hp⟩, orphan_termination ha hp trivial⟩

/-- That child cannot end. -/
theorem orphan_termination_fails :
    ¬∀ tr s a e, Parcours (fun _ _ => True) tr s → s.actif = some a → a ≠ 0 → s.pere a = none → Termine s e →
      ∃ r s', joue e s = .ok (r, s') := by
  intro h
  obtain ⟨tr, s, hr, ha, hp, hf⟩ := deroule_any (P := fun _ _ => True)
    (Q := fun _ s => s.actif = some 2 ∧ s.pere 2 = none ∧ faute (joue (.appel (.exit 3)) s) = some .nullDeref) boot
    [.appel (.start 512 5 "p"), .tick, .appel (.start 512 5 "q"), .appel (.exit 0)] (by decide +kernel)
  obtain ⟨r, s', ho⟩ := h tr s 2 (.appel (.exit 3)) hr ha (by decide) hp trivial
  rw [faute_eq_some, ho] at hf
  cases hf

end Pcsea
