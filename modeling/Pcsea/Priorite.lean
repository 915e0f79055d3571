import Pcsea.Pointeurs
import Pcsea.Histoire
/-!
# Priorities

Which calls write `prio`, and what they write: `start` the priority it is given
for the slot it takes, `chprio` a priority it has checked. `start` checks
nothing: no priority is both 256 or more and negative.
-/

namespace Pcsea

open Lib

variable {R : Slot → Nat → Prop} {s s' : St} {a i x : Slot} {e : Event} {r : Issue} {tr : List (St × Event × Issue)}

/-- Every priority satisfies `R`. -/
def Borne (R : Slot → Nat → Prop) (s : St) : Prop := ∀ i, R i (s.prio i)

theorem Borne.pointeurs (h : Borne R s) : Pointeurs (fun _ => True) R s.noyau s :=
  ⟨rfl, h, fun _ _ _ => trivial, fun _ _ _ => trivial, fun _ _ _ => trivial, fun _ _ => trivial, fun _ _ => trivial,
    fun _ _ => trivial, fun _ _ => trivial, fun _ _ _ => trivial, fun _ _ _ => trivial, fun _ _ _ => trivial,
    fun _ _ _ => trivial⟩

/-! ## The calls that leave the priorities alone -/

theorem ctxSw_borne {b : Slot} (h : Borne R s) : Assure (ctxSw a b s) (Borne R) := by
  refine Ensures.bind (assure_any _) fun c _ => ?_
  exact h

theorem ordonnance_borne (h : Borne R s) : Assure (ordonnance s) (Borne R) := by
  refine Ensures.bind (wakeProcess_pointeurs h.pointeurs) fun s₁ h₁ => ?_
  refine Ensures.bind (assure_any _) fun b _ => Ensures.bind (assure_any _) fun oldPid _ => ?_
  refine Ensures.bind (elit_pointeurs h₁ trivial) ?_
  rintro ⟨o, s₂⟩ ⟨h₂, -⟩
  cases o with
  | none => exact h₂.prio
  | some n =>
    refine Ensures.bind (assure_any _) fun nextPid _ => ?_
    dsimp only
    split
    · exact Ensures.bind (insertActivable_pointeurs h₂ trivial) fun s₃ h₃ => ctxSw_borne h₃.prio
    · exact ctxSw_borne h₂.prio

theorem finProcessus_borne (h : Borne R s) : Assure (finProcessus s) (Borne R) := by
  refine Ensures.bind (assure_any _) fun b _ => ?_
  refine Ensures.bind (finProcessusTable_pointeurs h.pointeurs trivial) fun s₁ h₁ => ?_
  refine Ensures.bind (assure_any _) fun oldPid _ => ?_
  refine Ensures.bind (extractActivable_pointeurs h₁) ?_
  rintro ⟨o, s₂⟩ ⟨h₂, -, -⟩
  dsimp only
  split
  · exact ctxSw_borne h₂.prio
  · exact Ensures.bind (assure_any _) fun nextPid _ => ctxSw_borne h₂.prio

theorem sleepUntil_borne (h : Borne R s) (time : ℚ) : Assure (sleepUntil time s) (Borne R) := by
  refine Ensures.bind (assure_any _) fun b _ => ?_
  exact Ensures.bind (insertEndormi_pointeurs h.pointeurs trivial time) fun s₁ h₁ => ordonnance_borne h₁.prio

theorem tic_borne (h : Borne R s) : Assure (ticPitClock s) (Borne R) := by
  obtain ⟨sec, min, hour, he⟩ := ticPitClock_eq s
  rw [he]
  generalize succUint32 s.nbTick = n
  exact ordonnance_borne h

/-! ## `chprio` and `start` -/

/-- `R` allows the priorities `chprio` accepts. -/
def Permet (R : Slot → Nat → Prop) : Prop := ∀ i (v : Int), 1 ≤ v → v ≤ MAX_PRIO → R i (toUint32 v)

theorem chprio_borne (hR : Permet R) (h : Borne R s) (pid newprio : Int) :
    Assure (chprio pid newprio s) fun r => Borne R r.2 := by
  unfold chprio
  split
  · exact h
  next hv =>
  push Not at hv
  refine Ensures.bind (chprioTable_pointeurs h.pointeurs (fun _ _ => trivial) pid fun i => hR i newprio hv.2.2.1 hv.2.2.2) ?_
  rintro ⟨o, s₁⟩ h₁
  exact Ensures.bind (ordonnance_borne h₁.prio) fun s₂ h₂ => h₂

/-- A priority out of range is refused by `chprio`. -/
theorem chprio_refuse {pid newprio : Int} (h : newprio < 1 ∨ MAX_PRIO < newprio) : chprio pid newprio s = .ok (-1, s) := by
  rw [chprio, if_pos (by omega)]

theorem prendSlot_prio {r : Slot × St} (h : prendSlot s = .ok r) : r.2.prio = s.prio := by
  have hm : (extractMort s).2.prio = s.prio := by
    unfold extractMort
    split
    · rfl
    · split <;> rfl
  rw [prendSlot] at h
  generalize extractMort s = c at hm h
  obtain ⟨o, s₁⟩ := c
  cases o with
  | none =>
    obtain ⟨i, -, h⟩ := bind_eq_ok.1 h
    obtain rfl := Except.ok.inj h
    exact hm
  | some x =>
    obtain ⟨i, -, h⟩ := bind_eq_ok.1 h
    obtain rfl := Except.ok.inj h
    exact hm

theorem ajouteFils_prio (h : ajouteFils x s = .ok s') : s'.prio = s.prio := by
  unfold ajouteFils at h
  split at h
  · obtain rfl := Except.ok.inj h
    rfl
  split at h
  · obtain rfl := Except.ok.inj h
    rfl
  · obtain ⟨d, -, h⟩ := bind_eq_ok.1 h
    obtain rfl := Except.ok.inj h
    rfl

theorem insertActivable_prio (h : insertActivable x s = .ok s') : s'.prio = s.prio := by
  have hb : Borne (fun i n => n = s.prio i) s := fun _ => rfl
  exact funext ((insertActivable_pointeurs hb.pointeurs trivial).of_ok h).prio

/-- `start` gives the slot it takes the bits of `prio`, and touches no other priority. -/
theorem start_prio {ssize : Nat} {prio : Int} {name : String} (h : start ssize prio name s = .ok (r, s')) :
    (r = .rend (-1) ∧ s' = s) ∨ ∃ x, r = .cree x ∧ s'.prio = Function.update s.prio x (toUint32 prio) := by
  unfold start at h
  split at h
  · obtain ⟨rfl, rfl⟩ := Prod.mk.inj (Except.ok.inj h)
    exact .inl ⟨rfl, rfl⟩
  split at h
  · obtain ⟨rfl, rfl⟩ := Prod.mk.inj (Except.ok.inj h)
    exact .inl ⟨rfl, rfl⟩
  split at h
  · obtain ⟨rfl, rfl⟩ := Prod.mk.inj (Except.ok.inj h)
    exact .inl ⟨rfl, rfl⟩
  obtain ⟨⟨x, s₁⟩, h₁, h⟩ := bind_eq_ok.1 h
  have hp₁ : s₁.prio = s.prio := prendSlot_prio h₁
  dsimp only at h
  split at h
  · cases h
  obtain ⟨s₂, h₂, h⟩ := bind_eq_ok.1 h
  have hp₂ : s₂.prio = Function.update s.prio x (toUint32 prio) := by
    rw [ajouteFils_prio h₂, ← hp₁]
    rfl
  right
  split at h
  · obtain ⟨s₃, h₃, h⟩ := bind_eq_ok.1 h
    obtain ⟨rfl, rfl⟩ := Prod.mk.inj (Except.ok.inj h)
    exact ⟨x, rfl, (insertActivable_prio h₃).trans hp₂⟩
  · obtain ⟨rfl, rfl⟩ := Prod.mk.inj (Except.ok.inj h)
    exact ⟨x, rfl, hp₂⟩

/-! ## The step -/

/-- A step that creates no process, and leaves every priority in `R`. -/
def Conserve (R : Slot → Nat → Prop) (r : Issue × St) : Prop := Borne R r.2 ∧ ∀ i, r.1 ≠ .cree i

theorem sansIssue_borne {x : Except Fault St} (hx : Assure x (Borne R)) : Assure (sansIssue x) (Conserve R) :=
  Ensures.bind hx fun _ hs => ⟨hs, nofun⟩

theorem waitpidFin_borne (h : Borne R s) (pid : Int) (retvalp : Bool) (ret : Int) :
    Assure (waitpidFin pid retvalp ret s) (Conserve R) := by
  refine Ensures.bind (assure_any _) fun b _ => ?_
  split
  · exact ⟨h, nofun⟩
  split
  · exact ⟨h, nofun⟩
  · trivial

theorem waitpid_borne (h : Borne R s) (pid : Int) (retvalp : Bool) : Assure (waitpid pid retvalp s) (Conserve R) := by
  have hfin : ∀ (b : Bool) (o : Option Slot), Assure (if b then if pid = 0 then waitpidFin pid retvalp (-1) s
      else .ok (.enCours, s.setSuite (.attente pid retvalp o)) else .ok (.attendu pid retvalp (-1) none, s)) (Conserve R) := by
    intro b o
    split
    · split
      · exact waitpidFin_borne h pid retvalp (-1)
      · exact ⟨h, nofun⟩
    · exact ⟨h, nofun⟩
  refine Ensures.bind (assure_any _) fun b _ => ?_
  dsimp only
  by_cases hp : pid < 0 ∧ s.premierFils b ≠ none
  · rw [if_pos hp]
    exact hfin true _
  rw [if_neg hp]
  exact Ensures.bind (assure_any _) fun t _ => hfin t _

theorem attente_borne (hR : Permet R) (h : Borne R s) (pid : Int) (retvalp : Bool) (fils : Option Slot) :
    Assure (pidDunFilsTermine pid retvalp fils s) (Conserve R) := by
  rw [pidDunFilsTermine]
  dsimp only
  generalize (if pid < 0 then -1 else pid) = param
  refine Ensures.bind (assure_any _) fun b _ => Ensures.bind (assure_any _) fun f _ => ?_
  split
  · refine Ensures.bind (insertMort_pointeurs (h.pointeurs.setRetvalFils b (s.retval f)) trivial) fun s₁ h₁ => ?_
    split
    · exact ⟨h₁.prio, by simp⟩
    · have h₂ : Borne R (s₁.setSuite .code) := h₁.prio
      exact waitpidFin_borne h₂ pid retvalp _
  · generalize (if s.frereDroit f = none then s.premierFils b else s.frereDroit f) = suivant
    have h₁ : Borne R (s.setSuite (.attente pid retvalp suivant)) := h
    refine Ensures.bind (assure_any _) fun g _ => ?_
    split
    · refine Ensures.bind (assure_any _) fun v _ => ?_
      -- `getprio(param) + 1` may be 257 or 0, which `chprio` refuses.
      exact Ensures.bind (chprio_borne hR h₁ _ (v + 1)) fun r hr => ⟨hr, by simp⟩
    · exact ⟨h₁, by simp⟩

theorem psendFin_borne (h : Borne R s) (q : Fin NBQUEUE) (message : Int) (tmp : Slot) :
    Assure (psendFin q message tmp s) (Conserve R) := by
  refine Ensures.bind (assure_any _) ?_
  rintro ⟨v, o, m⟩ -
  have h₁ : Borne R { s with messages := m } := h
  refine Ensures.bind (reveille_pointeurs h₁.pointeurs fun _ _ => trivial) fun s₁ h₂ => ⟨h₂.prio, fun i => ?_⟩
  dsimp only
  split <;> nofun

theorem preceiveFin_borne (h : Borne R s) (q : Fin NBQUEUE) (tmp : Slot) :
    Assure (preceiveFin q tmp s) (Conserve R) := by
  refine Ensures.bind (assure_any _) ?_
  rintro ⟨v, o, m⟩ -
  have h₁ : Borne R { s with messages := m } := h
  refine Ensures.bind (reveille_pointeurs h₁.pointeurs fun _ _ => trivial) fun s₁ h₂ => ?_
  cases v with
  | none => exact ⟨h₂.prio, nofun⟩
  | some v => exact ⟨h₂.prio, nofun⟩

theorem bloque_borne (h : Borne R s) (tmp : Slot) (suite : Suite) : Assure (bloque tmp suite s) (Borne R) := by
  have h₁ : Borne R ((s.setState tmp .endormi).setSuite suite) := h
  exact ordonnance_borne h₁

theorem kill_borne (h : Borne R s) (pid : Int) : Assure (kill pid s) (Conserve R) := by
  unfold kill
  split
  · exact ⟨h, nofun⟩
  refine Ensures.bind (assure_any _) fun b _ => ?_
  split
  · have h₁ : Borne R ((s.setRetval b none).setSuite .kill) := h
    exact Ensures.bind (finProcessus_borne h₁) fun s₁ h₂ => ⟨h₂, nofun⟩
  refine Ensures.bind (Q := fun r => Borne R r.2) ?_ fun r hr => ⟨hr, nofun⟩
  refine Ensures.bind (assure_any _) fun o _ => ?_
  cases o with
  | some tmp => exact Ensures.bind (queueDel_pointeurs (h.pointeurs.setState tmp _) tmp) fun s₁ h₁ => h₁.prio
  | none =>
    refine Ensures.bind (sleepDel_pointeurs h.pointeurs) fun r hr => ?_
    dsimp only
    split <;> exact hr.prio

theorem videFifo_borne (h : Borne R s) (φ : FifoMessages → FifoMessages) (fid : Int) :
    Assure (videFifo φ fid s) (Conserve R) := by
  unfold videFifo
  split
  · exact ⟨h, nofun⟩
  · next q _ =>
    have h₁ : Borne R { s with messages := s.messages.set q (φ (s.messages.fifoTab q)) } := h
    exact Ensures.bind (reveilleTous_pointeurs h₁.pointeurs q) fun s₁ h₂ => ⟨h₂.prio, nofun⟩

/-- Apart from `start`, a step writes priorities that `chprio` accepts only. -/
theorem joue_borne (hR : Permet R) (h : Borne R s) (he : e.creation = false) : Assure (joue e s) (Conserve R) := by
  have hcode : Borne R (s.setSuite .code) := h
  cases e with
  | tick => exact sansIssue_borne (tic_borne h)
  | suite =>
    show Assure (poursuit s) _
    unfold poursuit
    split
    · exact ⟨h, nofun⟩
    · next q message tmp _ => exact psendFin_borne hcode q message tmp
    · next q tmp _ => exact preceiveFin_borne hcode q tmp
    · next pid retvalp fils _ => exact attente_borne hR h pid retvalp fils
    · exact ⟨h, nofun⟩
    · exact ⟨hcode, nofun⟩
    · trivial
  | appel c =>
    cases c with
    | start ssize prio name => cases he
    | exit retval =>
      refine sansIssue_borne (Ensures.bind (assure_any _) fun b _ => ?_)
      have h₁ : Borne R ((s.setRetval b (some retval)).setSuite .exit) := h
      exact finProcessus_borne h₁
    | retour v =>
      have h₁ : Borne R (s.setSuite .retour) := h
      exact sansIssue_borne (finProcessus_borne h₁)
    | kill pid => exact kill_borne h pid
    | chprio pid newprio => exact Ensures.bind (chprio_borne hR h pid newprio) fun r hr => ⟨hr, nofun⟩
    | waitpid pid retvalp => exact waitpid_borne h pid retvalp
    | dors nbrSecs => exact sansIssue_borne (sleepUntil_borne h _)
    | sleepUntil time => exact sansIssue_borne (sleepUntil_borne h _)
    | waitClock clock => exact sansIssue_borne (sleepUntil_borne h _)
    | pcreate count contenu =>
      have h₁ : Borne R { s with messages := (pcreate s.messages count contenu).2 } := h
      exact ⟨h₁, nofun⟩
    | pdelete fid => exact videFifo_borne h .efface fid
    | preset fid => exact videFifo_borne h .raz fid
    | psend fid message =>
      show Assure (psend fid message s) _
      refine Ensures.bind (assure_any _) fun tmp _ => Ensures.bind (assure_any _) ?_
      rintro ⟨o, m⟩ -
      have h₁ : Borne R { s with messages := m } := h
      cases o with
      | invalide => exact ⟨h₁, nofun⟩
      | bloque q => exact Ensures.bind (bloque_borne h₁ tmp _) fun s₁ hs => ⟨hs, nofun⟩
      | passe q => exact psendFin_borne h₁ q message tmp
    | preceive fid =>
      show Assure (preceive fid s) _
      refine Ensures.bind (assure_any _) fun tmp _ => Ensures.bind (assure_any _) ?_
      rintro ⟨o, m⟩ -
      have h₁ : Borne R { s with messages := m } := h
      cases o with
      | invalide => exact ⟨h₁, nofun⟩
      | bloque q => exact Ensures.bind (bloque_borne h₁ tmp _) fun s₁ hs => ⟨hs, nofun⟩
      | passe q => exact preceiveFin_borne h₁ q tmp

/-! ## The range -/

/-- A priority the comment at the head of `proc.c` allows. -/
def Legale (v : Int) : Prop := 1 ≤ v ∧ v ≤ MAX_PRIO

/-- `start` is given a legal priority, or refuses for another reason. -/
def Admise (s : St) (e : Event) : Prop :=
  ∀ ssize prio name, e = .appel (.start ssize prio name) →
    Legale prio ∨ 0xffffffff ≤ ssize ∨ s.processAlive = PROCESS_TABLE_SIZE

theorem toUint32_legale {v : Int} (h : Legale v) : Legale (toUint32 v) := by
  obtain ⟨h₁, h₂⟩ := h
  have h256 : MAX_PRIO = 256 := rfl
  rw [h256] at h₂
  rw [toUint32, Int.emod_eq_of_lt (by omega) (by omega), Int.toNat_of_nonneg (by omega)]
  exact ⟨h₁, h₂⟩

/-- `start` only refuses for the stack size and for lack of room. -/
theorem start_refuse {ssize : Nat} {prio : Int} {name : String} (h : 0xffffffff ≤ ssize ∨ s.processAlive = PROCESS_TABLE_SIZE) :
    start ssize prio name s = .ok (.rend (-1), s) := by
  unfold start
  split
  · rfl
  split
  · rfl
  · next h₁ _ => rw [if_pos (h.resolve_left h₁)]

/-- Under `Admise`: every slot that was started has a legal priority, and a call with another one changes nothing. -/
theorem priority_range (hr : Parcours Admise tr s) :
    (∀ i, Lance tr i → Legale (s.prio i)) ∧
      (∀ ssize prio name r s', ¬Legale prio → Admise s (.appel (.start ssize prio name)) →
        Pas s (.appel (.start ssize prio name)) r s' → r = .rend (-1) ∧ s' = s) ∧
      ∀ pid newprio, ¬Legale newprio → chprio pid newprio s = .ok (-1, s) := by
  -- The range holds in every run; a priority beyond it is refused by both calls.
  refine ⟨?_, fun ssize prio name r s' hp ha ho => ?_, fun pid newprio hp => chprio_refuse ?_⟩
  · refine hr.inv_trace (fun tr s => ∀ i, Lance tr i → Legale (s.prio i)) ?_ ?_
    · rintro i (rfl | ⟨_, _, hi⟩)
      · rw [boot_eq]
        exact ⟨le_refl _, by decide⟩
      · cases hi
    · rintro tr s e r s' - ih ⟨ha, -, ho⟩ i hi
      -- A new process has the priority it was given, and an old one a bounded one.
      by_cases he : e.creation = false
      · have hb : Borne (fun j n => Lance tr j → Legale n) s := ih
        have hR : Permet fun j n => Lance tr j → Legale n := fun _ v h₁ h₂ _ => toUint32_legale ⟨h₁, h₂⟩
        obtain ⟨h₁, h₂⟩ := (joue_borne hR hb he).of_ok ho
        exact h₁ i ((lance_snoc.1 hi).resolve_right (h₂ i))
      · unfold Event.creation at he
        split at he
        · next ssize prio name =>
          rcases start_prio ho with ⟨rfl, rfl⟩ | ⟨x, rfl, hs⟩
          · exact ih i ((lance_snoc.1 hi).resolve_right nofun)
          · rw [hs]
            by_cases hix : i = x
            · rw [hix, Function.update_self]
              rcases ha ssize prio name rfl with hl | hl
              · exact toUint32_legale hl
              · rw [show joue (.appel (.start ssize prio name)) s = _ from start_refuse hl] at ho
                cases (Prod.mk.inj (Except.ok.inj ho)).1
            · rw [Function.update_of_ne hix]
              refine ih i ((lance_snoc.1 hi).resolve_right fun hx => hix ?_)
              exact (Issue.cree.inj hx).symm
        · exact absurd rfl he
  · have hl := (ha ssize prio name rfl).resolve_left hp
    rw [Pas, show joue (.appel (.start ssize prio name)) s = _ from start_refuse hl] at ho
    obtain ⟨rfl, rfl⟩ := Prod.mk.inj (Except.ok.inj ho.2)
    exact ⟨rfl, rfl⟩
  · unfold Legale at hp
    omega

instance (v : Int) : Decidable (Legale v) := inferInstanceAs (Decidable (_ ∧ _))

instance (s : St) : (e : Event) → Decidable (Admise s e)
  | .appel (.start ssize prio name) =>
    decidable_of_iff (Legale prio ∨ 0xffffffff ≤ ssize ∨ s.processAlive = PROCESS_TABLE_SIZE)
      ⟨by rintro h _ _ _ ⟨⟩; exact h, fun h => h ssize prio name rfl⟩
  | .appel (.exit _) | .appel (.retour _) | .appel (.kill _) | .appel (.chprio _ _) | .appel (.waitpid _ _)
  | .appel (.dors _) | .appel (.sleepUntil _) | .appel (.waitClock _) | .appel (.pcreate _ _) | .appel (.pdelete _)
  | .appel (.preset _) | .appel (.psend _ _) | .appel (.preceive _) | .suite | .tick => isTrue nofun

/-- A process of the highest legal priority, which lowers its own. -/
theorem priority_range_run :
    ∃ tr s, Parcours Admise tr s ∧ (Lance tr 1 ∧ s.prio 1 = 2) ∧ (∀ i, Lance tr i → Legale (s.prio i)) ∧
      (∀ ssize prio name r s', ¬Legale prio → Admise s (.appel (.start ssize prio name)) →
        Pas s (.appel (.start ssize prio name)) r s' → r = .rend (-1) ∧ s' = s) ∧
      ∀ pid newprio, ¬Legale newprio → chprio pid newprio s = .ok (-1, s) := by
  obtain ⟨tr, s, hr, hp, hl⟩ := deroule_any (P := Admise) (Q := fun tr s => s.prio 1 = 2 ∧ ∃ x ∈ tr, x.2.2 = .cree 1) boot
    [.appel (.start 512 256 "p"), .tick, .appel (.chprio 1 2), .appel (.chprio 1 300)] (by decide +kernel)
  obtain ⟨⟨t, e, _⟩, hx, rfl⟩ := hl
  exact ⟨tr, s, hr, ⟨.inr ⟨t, e, hx⟩, hp⟩, priority_range hr⟩

/-- `start` takes any priority: -1 becomes the highest of all. -/
theorem priority_range_fails : ¬∀ tr s, Parcours (fun _ _ => True) tr s → ∀ i, Lance tr i → Legale (s.prio i) := by
  intro h
  obtain ⟨tr, s, hr, hp, hl⟩ := deroule_any (P := fun _ _ => True)
    (Q := fun tr s => s.prio 1 = 4294967295 ∧ ∃ x ∈ tr, x.2.2 = .cree 1) boot
    [.appel (.start 512 (-1) "p")] (by decide +kernel)
  obtain ⟨⟨t, e, _⟩, hx, rfl⟩ := hl
  have h1 := (h tr s hr 1 (.inr ⟨t, e, hx⟩)).2
  rw [hp] at h1
  exact absurd h1 (by decide)

/-! ## Reading and changing the priority of a process -/

section Lecture
variable {K : Type*} {f : Fin NBQUEUE → Bool → K} {p : Slot → Place}

/-- Running, ready, asleep or blocked. -/
def Vivant (s : St) (i : Slot) : Prop := s.actif = some i ∨ s.prete i = true ∨ s.state i = .endormi

/-- `pid` is the pid of a process blocked in `psend` or `preceive`. -/
def NommeBloque (s : St) (pid : Int) : Prop := ∃ i, s.state i = .endormi ∧ ¬Met s.suiv s.endormiList i ∧ s.pid i = pid

/-- `getprio` and `chprio` do what they should for the process of pid `pid`, if there is one. -/
structure PrioriteExacte (s : St) (pid : Int) : Prop where
  lue : ∀ i, Vivant s i → s.pid i = pid → getprio pid s = .ok (toInt32 (s.prio i))
  absente : (∀ i, Vivant s i → s.pid i ≠ pid) → getprio pid s = .ok (-1)
  changee : ∀ v, Legale v → ∃ r s', chprio pid v s = .ok (r, s') ∧
    (∀ i, Vivant s i → s.pid i = pid →
      r = toInt32 (s.prio i) ∧ getprio pid s' = .ok v ∧ ∀ j, j ≠ i → s'.prio j = s.prio j) ∧
    ((∀ i, Vivant s i → s.pid i ≠ pid) → r = -1 ∧ s'.prio = s.prio)

theorem Inv.bloque_iff (h : Inv f a s p) : s.state i = .endormi ∧ ¬Met s.suiv s.endormiList i ↔ p i = .bloque := by
  obtain ⟨q, e, d, hrep⟩ := h.rep
  rw [hrep.state_eq_endormi, hrep.lists.sleep.seg.met_iff, hrep.sleep]
  cases p i <;> simp

theorem Inv.vivant (h : Inv f a s p) : Vivant s i ↔ Trouvable p i ∨ p i = .bloque := by
  obtain ⟨q, e, d, hrep⟩ := h.rep
  rw [Vivant, h.actif_iff, hrep.prete, hrep.state_eq_endormi, Trouvable]
  tauto

theorem ordonnance_prio (h : ordonnance s = .ok s') : s'.prio = s.prio := by
  have hb : Borne (fun i n => n = s.prio i) s := fun _ => rfl
  exact funext ((ordonnance_borne hb).of_ok h)

/-- What `chprio` does with a legal priority. -/
theorem chprio_exact (pid : Int) {v : Int} (hv : Legale v) (h : Inv f a s p) :
    ∃ r s' n p', chprio pid v s = .ok (r, s') ∧ Inv f n s' p' ∧ s'.pid = s.pid ∧ ChangePrio s p pid v r s'.prio ∧
      ∀ i, p' i = p i ∨ (Trouvable p i ∧ Trouvable p' i) := by
  obtain ⟨q, e, d, hrep⟩ := h.rep
  by_cases hpid : pid < 0 ∨ PROCESS_TABLE_SIZE - 1 < pid
  · refine ⟨-1, s, a, p, by rw [chprio, if_pos (by tauto)], h, rfl, .inr ⟨fun x hx he => ?_, rfl, rfl⟩, fun i => .inl rfl⟩
    rw [hrep.pid hx.ne_libre] at he
    have := x.isLt
    omega
  · obtain ⟨r, s₁, ho, hi, hcd, hch⟩ := chprioTable_spec pid v h
    obtain ⟨s', ho', n, p', hi', hcd', hord⟩ := (ordonnance_elu hi).returns
    refine ⟨r, s', n, p', ?_, hi', hcd'.pid.trans hcd.pid, ordonnance_prio ho' ▸ hch, fun i => (hord i).imp_right ?_⟩
    · have hv' : ¬(pid < 0 ∨ PROCESS_TABLE_SIZE - 1 < pid ∨ v < 1 ∨ MAX_PRIO < v) := by
        unfold Legale at hv
        omega
      rw [chprio, if_neg hv', ho, ok_bind]
      dsimp only
      rw [ho', ok_bind]
    · rintro ⟨hp, hp'⟩
      refine ⟨?_, hp'.imp_right .inl⟩
      rcases hp with hp | hp | ⟨hp, -⟩
      · exact .inl hp
      · exact .inr (.inl hp)
      · exact .inr (.inr hp)

theorem toInt32_toUint32 {v : Int} (h : Legale v) : toInt32 (toUint32 v) = v := by
  obtain ⟨h₁, h₂⟩ := h
  have h256 : MAX_PRIO = 256 := rfl
  rw [h256] at h₂
  rw [toInt32, toUint32]
  omega

theorem Inv.prioriteExacte (h : Inv f a s p) (pid : Int) : PrioriteExacte s pid ↔ ¬NommeBloque s pid := by
  obtain ⟨q, e, d, hrep⟩ := h.rep
  constructor
  -- A blocked process is found by neither search: after `chprio` to 5, `getprio` still says -1.
  · rintro hx ⟨i, hst, hmet, hi⟩
    have hb : p i = .bloque := h.bloque_iff.1 ⟨hst, hmet⟩
    obtain ⟨r, s', n, p', ho, hi', hpid, -, hord⟩ := chprio_exact pid (v := 5) (by decide) h
    obtain ⟨r₁, s₁, ho₁, hc, -⟩ := hx.changee 5 (by decide)
    obtain ⟨rfl, rfl⟩ := Prod.mk.inj (Except.ok.inj (ho.symm.trans ho₁))
    obtain ⟨-, hg, -⟩ := hc i (h.vivant.2 (.inr hb)) hi
    have hb' : p' i = .bloque := by
      rcases hord i with hp | ⟨hp, -⟩
      · rw [hp, hb]
      · rcases hp with hp | hp | hp <;> simp [hb] at hp
    obtain ⟨q', e', d', hrep'⟩ := hi'.rep
    obtain ⟨g, hg', hgx⟩ := getprio_spec pid hi'
    obtain rfl := Except.ok.inj (hg.symm.trans hg')
    rcases hgx with ⟨x, hx, hxp, -⟩ | ⟨-, hg5⟩
    · have hxi : x = i := hrep'.pid_inj hx.ne_libre (by simp [hb']) (hxp.trans (by rw [hpid, hi]))
      rcases hx with hx | hx | hx <;> simp [hxi, hb'] at hx
    · simp at hg5
  · intro hno
    have hviv : ∀ i, Vivant s i → s.pid i = pid → Trouvable p i := fun i hv hi =>
      (h.vivant.1 hv).resolve_right fun hb => hno ⟨i, (h.bloque_iff.2 hb).1, (h.bloque_iff.2 hb).2, hi⟩
    have huniq : ∀ i x, Trouvable p i → Trouvable p x → s.pid i = pid → s.pid x = pid → i = x :=
      fun i x hi hx hip hxp => hrep.pid_inj hi.ne_libre hx.ne_libre (hip.trans hxp.symm)
    obtain ⟨g, hg, hgx⟩ := getprio_spec pid h
    refine ⟨fun i hv hi => ?_, fun hn => ?_, fun v hl => ?_⟩
    · have ht := hviv i hv hi
      rcases hgx with ⟨x, hx, hxp, rfl⟩ | ⟨hn, -⟩
      · rw [hg, huniq i x ht hx hi hxp]
      · exact absurd hi (hn i ht)
    · rcases hgx with ⟨x, hx, hxp, -⟩ | ⟨-, rfl⟩
      · exact absurd hxp (hn x (h.vivant.2 (.inl hx)))
      · exact hg
    · obtain ⟨r, s', n, p', ho, hi', hpid, hch, hord⟩ := chprio_exact pid hl h
      refine ⟨r, s', ho, fun i hv hi => ?_, fun hn => ?_⟩
      · have ht := hviv i hv hi
        rcases hch with ⟨x, hx, hxp, rfl, hprio⟩ | ⟨hn, -⟩
        · obtain rfl := huniq i x ht hx hi hxp
          refine ⟨rfl, ?_, fun j hj => by rw [hprio, Function.update_of_ne hj]⟩
          have ht' : Trouvable p' i := (hord i).elim (fun hp => by rwa [Trouvable, hp]) And.right
          obtain ⟨q', e', d', hrep'⟩ := hi'.rep
          obtain ⟨g', hg', ⟨y, hy, hyp, rfl⟩ | ⟨hn, -⟩⟩ := getprio_spec pid hi'
          · obtain rfl := hrep'.pid_inj ht'.ne_libre hy.ne_libre (by rw [hyp, hpid, hi])
            rw [hg', hprio, Function.update_self, toInt32_toUint32 hl]
          · exact absurd (by rw [hpid, hi]) (hn i ht')
        · exact absurd hi (hn i ht)
      · rcases hch with ⟨x, hx, hxp, -⟩ | ⟨-, hr, hp⟩
        · exact absurd hxp (hn x (h.vivant.2 (.inl hx)))
        · exact ⟨hr, hp⟩

end Lecture

/-- In the states of `Sain` runs, `getprio` and `chprio` are right about a pid exactly when it names no blocked process. -/
theorem priority_of_live (hr : Parcours Sain tr s) (pid : Int) : PrioriteExacte s pid ↔ ¬NommeBloque s pid := by
  obtain ⟨a, p, hi, -⟩ := sain_spec (fun _ _ h => h) hr
  exact hi.prioriteExacte pid

/-- A process waits for a message: its own pid is the only one that goes wrong. -/
theorem priority_of_live_run :
    ∃ tr s, Parcours Sain tr s ∧ (s.state 1 = .endormi ∧ s.endormiList = none ∧ s.pid 1 = 1) ∧
      (PrioriteExacte s 1 ↔ ¬NommeBloque s 1) ∧ (PrioriteExacte s 0 ↔ ¬NommeBloque s 0) := by
  obtain ⟨tr, s, hr, hq⟩ := deroule_any (P := Sain)
    (Q := fun _ s => s.state 1 = .endormi ∧ s.endormiList = none ∧ s.pid 1 = 1) boot
    [.appel (.start 512 5 "p"), .tick, .appel (.pcreate 1 (some fun _ => 0)), .appel (.preceive 0)] (by decide +kernel)
  exact ⟨tr, s, hr, hq, priority_of_live hr 1, priority_of_live hr 0⟩

/-- `getprio` does not find the process that waits for a message. -/
theorem priority_of_live_fails : ¬∀ tr s pid, Parcours (fun _ _ => True) tr s → PrioriteExacte s pid := by
  intro h
  obtain ⟨tr, s, hr, hst, hp, hprio, hg⟩ := deroule_any (P := fun _ _ => True)
    (Q := fun _ s => s.state 1 = .endormi ∧ s.pid 1 = 1 ∧ s.prio 1 = 5 ∧ (getprio 1 s).toOption = some (-1)) boot
    [.appel (.start 512 5 "p"), .tick, .appel (.pcreate 1 (some fun _ => 0)), .appel (.preceive 0)] (by decide +kernel)
  rw [(h tr s 1 hr).lue 1 (.inr (.inr hst)) hp, hprio] at hg
  exact absurd hg (by decide)

end Pcsea
