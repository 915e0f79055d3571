import Pcsea.Pointeurs
import Pcsea.TerminationSpec
import Pcsea.Step
/-!
# The calls that leave the message queues alone

All but `pcreate`, `pdelete`, `preset`, `psend` and `preceive`, whatever the
state. The lists and the scheduler also leave the clock and the wake-up ticks
alone, which only a tick and a call that sleeps write.
-/

namespace Pcsea

open Lib

variable {s s' : St} {a i x : Slot} {e : Event} {m : Messages Slot}
  {c : Messages Slot × (Slot → ℚ) × Nat × Nat × Nat × Nat}

/-- The message queues are `m`. -/
abbrev Tait (m : Messages Slot) (s : St) : Prop := s.messages = m

/-- The wake-up ticks and the clock. -/
def St.heures (s : St) : (Slot → ℚ) × Nat × Nat × Nat × Nat := (s.timeToWake, s.nbTick, s.sec, s.min, s.hour)

/-- What the lists and the scheduler leave alone. -/
def St.dehors (s : St) : Messages Slot × (Slot → ℚ) × Nat × Nat × Nat × Nat := (s.messages, s.heures)

abbrev Intact (c : Messages Slot × (Slot → ℚ) × Nat × Nat × Nat × Nat) (s : St) : Prop := s.dehors = c

theorem setNext_dehors (l : Maillon) (v : Option Maillon) : (s.setNext l v).dehors = s.dehors := rfl

theorem setElu_dehors (n : Nat) (o : Option Slot) : St.dehors { s with processAlive := n, actif := o } = s.dehors := rfl

theorem setPrev_dehors (l : Maillon) (v : Option Maillon) : (s.setPrev l v).dehors = s.dehors := rfl

/-! ## Lists -/

theorem insertMort_muet (h : Intact c s) : Assure (insertMort x s) (Intact c) := by
  unfold insertMort
  dsimp only
  split
  · exact h
  · exact Ensures.bind (assure_any _) fun t _ => h

theorem extractMort_muet (h : Intact c s) : Intact c (extractMort s).2 := by
  unfold extractMort
  split
  · exact h
  · split <;> exact h

theorem queueAdd_muet (h : Intact c s) : Assure (queueAdd x s) (Intact c) := by
  refine Ensures.bind (assure_any _) fun _ _ => Ensures.bind (assure_any _) fun cur _ => ?_
  refine Ensures.bind (assure_any _) fun p _ => (ensures_ok _).2 ?_
  simpa only [Intact, setPrev_dehors, setNext_dehors] using h

theorem insertActivable_muet (h : Intact c s) : Assure (insertActivable x s) (Intact c) := by
  have h₁ : Intact c ((s.setState x .activable).setSuiv x none) := h
  exact queueAdd_muet h₁

theorem insertActivable_tait (h : insertActivable x s = .ok s') : s'.messages = s.messages :=
  congrArg Prod.fst ((insertActivable_muet rfl).of_ok h)

theorem reveille_muet {o : Option Slot} (h : Intact c s) : Assure (reveille o s) (Intact c) := by
  cases o with
  | none => exact h
  | some y => exact insertActivable_muet h

theorem reveille_tait {o : Option Slot} (h : reveille o s = .ok s') : s'.messages = s.messages :=
  congrArg Prod.fst ((reveille_muet rfl).of_ok h)

theorem queueDel_muet (h : Intact c s) : Assure (queueDel x s) (Intact c) := by
  refine Ensures.bind (assure_any _) fun _ _ => Ensures.bind (assure_any _) fun p _ => ?_
  refine Ensures.bind (assure_any _) fun n _ => (ensures_ok _).2 ?_
  simpa only [Intact, setPrev_dehors, setNext_dehors] using h

theorem queueOut_muet (h : Intact c s) : Assure (queueOut s) fun r => Intact c r.2 := by
  unfold queueOut
  dsimp only
  split
  · exact h
  · refine Ensures.bind (assure_any _) fun p _ => Ensures.bind (assure_any _) fun p' _ => ?_
    refine Ensures.bind (assure_any _) fun e _ => (ensures_ok _).2 ?_
    simpa only [Intact, setPrev_dehors, setNext_dehors] using h

theorem extractActivable_muet (h : Intact c s) : Assure (extractActivable s) fun r => Intact c r.2 := by
  unfold extractActivable
  split
  · exact h
  · refine Ensures.bind (queueOut_muet h) fun r hr => ?_
    exact Ensures.bind (assure_any _) fun i _ => hr

theorem extractEndormi_muet (h : Intact c s) : Assure (extractEndormi s) fun r => Intact c r.2 := by
  unfold extractEndormi
  dsimp only
  have hsuite (s₁ : St) (h₁ : Intact c s₁) : Assure (do
      let e ← deref s.endormiList
      .ok (e, s₁.setSuiv e none)) fun r => Intact c r.2 :=
    Ensures.bind (assure_any _) fun e _ => h₁
  split
  · exact hsuite { s with endormiList := none, endormiTail := none } h
  · exact Ensures.bind (assure_any _) fun t _ => hsuite { s with endormiList := s.suiv t } h

theorem insertEndormiLoop_muet {n : Nat} {isHead : Bool} {ptr prec : Option Slot} (h : Intact c s) :
    Assure (insertEndormiLoop x n isHead ptr prec s) fun r => Intact c r.2 := by
  induction n generalizing isHead ptr prec with
  | zero => cases ptr <;> first | exact h | trivial
  | succ n ih =>
    cases ptr with
    | none => exact h
    | some t =>
      unfold insertEndormiLoop
      split
      · split
        · exact h
        · exact Ensures.bind (assure_any _) fun p _ => h
      · split
        · exact ih
        · exact Ensures.bind (assure_any _) fun p _ => ih

theorem insertEndormi_muet (time : ℚ) :
    Assure (insertEndormi x time s) (Intact (St.dehors { s with timeToWake := Function.update s.timeToWake x time })) := by
  unfold insertEndormi
  dsimp only
  set c := St.dehors { s with timeToWake := Function.update s.timeToWake x time }
  have h : Intact c (St.setState { s with timeToWake := Function.update s.timeToWake x time } x .endormi) := rfl
  split
  · exact h
  · refine Ensures.bind (insertEndormiLoop_muet h) ?_
    rintro ⟨b, s₁⟩ h₁
    have hfin (s₂ : St) (h₂ : Intact c s₂) : Assure (do
        let t ← deref s₂.endormiTail
        .ok (s₂.setSuiv t none)) (Intact c) :=
      Ensures.bind (assure_any _) fun t _ => h₂
    dsimp only at h₁ ⊢
    split
    · exact hfin s₁ h₁
    · exact Ensures.bind (assure_any _) fun t _ => hfin _ h₁

theorem sleepDelLoop_muet {pid : Int} {n : Nat} {ptr : Option Slot} (h : Intact c s) :
    Assure (sleepDelLoop pid n ptr x s) (Intact c) := by
  induction n generalizing s x ptr with
  | zero => cases ptr <;> first | exact h | trivial
  | succ n ih =>
    cases ptr with
    | none => exact h
    | some t =>
      unfold sleepDelLoop
      dsimp only
      split
      · refine Ensures.bind (assure_any _) fun l _ => Ensures.bind (insertMort_muet ?_) fun s₁ h₁ => ih h₁
        split <;> exact h
      · exact ih h

theorem sleepDel_muet {pid : Int} (h : Intact c s) : Assure (sleepDel pid s) fun r => Intact c r.2 := by
  unfold sleepDel
  split
  · exact h
  · split
    · refine Ensures.bind (insertMort_muet ?_) fun s₁ h₁ => h₁
      split <;> exact h
    · exact Ensures.bind (sleepDelLoop_muet h) fun s₁ h₁ => h₁

/-! ## The scheduler -/

theorem wakeProcess_muet (h : Intact c s) : Assure (wakeProcess s) (Intact c) := by
  have hloop (n : Nat) (ptr : Option Slot) (s : St) (h : Intact c s) : Assure (wakeProcessLoop n ptr s) (Intact c) := by
    induction n generalizing ptr s with
    | zero => cases ptr <;> first | exact h | trivial
    | succ n ih =>
      cases ptr with
      | none => exact h
      | some t =>
        unfold wakeProcessLoop
        split
        · refine Ensures.bind (extractEndormi_muet h) fun r hr => ?_
          exact Ensures.bind (insertActivable_muet hr) fun s₁ h₁ => ih _ _ h₁
        · exact h
  exact hloop _ _ s h

theorem ctxSw_muet {b : Slot} (h : Intact c s) : Assure (ctxSw a b s) (Intact c) :=
  Ensures.bind (assure_any _) fun _ _ => h

theorem elit_muet (h : Intact c s) : Assure (elit a s) fun r => Intact c r.2 := by
  refine Ensures.bind (assure_any _) fun top _ => ?_
  cases top with
  | none => exact h
  | some t =>
    dsimp only
    split
    · exact extractActivable_muet h
    · exact h

theorem ordonnance_muet (h : Intact c s) : Assure (ordonnance s) (Intact c) := by
  refine Ensures.bind (wakeProcess_muet h) fun s₁ h₁ => ?_
  refine Ensures.bind (assure_any _) fun b _ => Ensures.bind (assure_any _) fun oldPid _ => ?_
  refine Ensures.bind (elit_muet h₁) ?_
  rintro ⟨o, s₂⟩ h₂
  cases o with
  | none => exact h₂
  | some n =>
    refine Ensures.bind (assure_any _) fun nextPid _ => ?_
    dsimp only
    split
    · exact Ensures.bind (insertActivable_muet h₂) fun s₃ h₃ => ctxSw_muet h₃
    · exact ctxSw_muet h₂

theorem ordonnance_tait (h : ordonnance s = .ok s') : s'.messages = s.messages :=
  congrArg Prod.fst ((ordonnance_muet rfl).of_ok h)

theorem finProcessus_muet (h : Intact c s) : Assure (finProcessus s) (Intact c) := by
  refine Ensures.bind (assure_any _) fun b _ => ?_
  refine Ensures.bind (Q := Intact c) (ensures_of_ok fun s₁ h₁ => ?_) fun s₁ h₁ => ?_
  · obtain ⟨state, suiv, dl, dt, pere, fd, prf, rfl⟩ := finProcessusTable_eq h₁
    exact h
  refine Ensures.bind (assure_any _) fun oldPid _ => ?_
  refine Ensures.bind (extractActivable_muet h₁) ?_
  rintro ⟨o, s₂⟩ h₂
  have h₃ (o : Option Slot) : Intact c { s₂ with processAlive := predUint32 s₂.processAlive, actif := o } :=
    (setElu_dehors (s := s₂) _ o).trans h₂
  dsimp only
  split
  · exact ctxSw_muet (h₃ s₂.actif)
  · next n => exact Ensures.bind (assure_any _) fun nextPid _ => ctxSw_muet (h₃ (some n))

/-- A call that sleeps writes the tick of `actif`, and no other. -/
theorem sleepUntil_muet (time : ℚ) : Assure (sleepUntil time s) fun s' =>
    ∃ a, s.actif = some a ∧ Intact (St.dehors { s with timeToWake := Function.update s.timeToWake a time }) s' := by
  refine ensures_of_ok fun s' hs => ?_
  obtain ⟨a, ha, hs⟩ := bind_eq_ok.1 hs
  obtain ⟨s₁, h₁, h₂⟩ := bind_eq_ok.1 hs
  exact ⟨a, deref_eq_ok.1 ha, (ordonnance_muet ((insertEndormi_muet time).of_ok h₁)).of_ok h₂⟩

theorem chprioTable_muet (h : Intact c s) (pid newprio : Int) : Assure (chprioTable pid newprio s) fun r => Intact c r.2 := by
  have hact (n : Nat) (cur : Maillon) (oldprio : Int) (s : St) (h : Intact c s) :
      Assure (chprioActivables pid newprio n cur oldprio s) fun r => Intact c r.2 := by
    induction n generalizing cur oldprio s with
    | zero => trivial
    | succ n ih =>
      refine Ensures.bind (assure_any _) fun o _ => ?_
      cases o with
      | head => exact h
      | elem i =>
        dsimp only
        split
        · refine Ensures.bind (queueDel_muet h) fun s₁ h₁ => ?_
          have h₂ : Intact c (s₁.setPrio i (toUint32 newprio)) := h₁
          exact Ensures.bind (queueAdd_muet h₂) fun s₂ h₂ => ih _ _ _ h₂
        · exact ih _ _ _ h
  have hend (n : Nat) (ptr : Option Slot) (oldprio : Int) (s : St) (h : Intact c s) :
      Assure (chprioEndormis pid newprio n ptr oldprio s) fun r => Intact c r.2 := by
    induction n generalizing ptr oldprio s with
    | zero => cases ptr <;> first | exact h | trivial
    | succ n ih =>
      cases ptr with
      | none => exact h
      | some t =>
        unfold chprioEndormis
        split
        · exact ih _ _ _ h
        · exact ih _ _ _ h
  refine Ensures.bind (assure_any _) fun a _ => ?_
  split
  · exact h
  · exact Ensures.bind (hact _ _ _ _ h) fun r h₁ => hend _ _ _ _ h₁

theorem chprio_muet (h : Intact c s) (pid newprio : Int) : Assure (chprio pid newprio s) fun r => Intact c r.2 := by
  unfold chprio
  split
  · exact h
  · refine Ensures.bind (chprioTable_muet h pid newprio) fun r hr => ?_
    exact Ensures.bind (ordonnance_muet hr) fun s₁ h₁ => h₁

/-! ## The step -/

/-- A step that leaves the message queues alone and hands over no message. -/
def Muet (m : Messages Slot) (r : Issue × St) : Prop :=
  Tait m r.2 ∧ (∀ q v, r.1 ≠ .emis q v) ∧ ∀ q v, r.1 ≠ .recu q v

/-- The same, with the hours that it leaves. -/
def Sourd (c : Messages Slot × (Slot → ℚ) × Nat × Nat × Nat × Nat) (r : Issue × St) : Prop :=
  Intact c r.2 ∧ (∀ q v, r.1 ≠ .emis q v) ∧ ∀ q v, r.1 ≠ .recu q v

theorem Sourd.muet {r : Issue × St} (h : Sourd c r) : Muet c.1 r := ⟨congrArg Prod.fst h.1, h.2⟩

theorem sansIssue_muet {x : Except Fault St} (hx : Assure x (Intact c)) : Assure (sansIssue x) (Sourd c) :=
  Ensures.bind hx fun _ hs => ⟨hs, nofun, nofun⟩

theorem start_muet (h : Intact c s) (ssize : Nat) (prio : Int) (name : String) :
    Assure (start ssize prio name s) (Sourd c) := by
  have hajoute (i : Slot) (s : St) (h : Intact c s) : Assure (ajouteFils i s) (Intact c) := by
    unfold ajouteFils
    split
    · exact h
    · split
      · exact h
      · exact Ensures.bind (assure_any _) fun d _ => h
  have hprend : Assure (prendSlot s) fun r => Intact c r.2 := by
    have h₁ := extractMort_muet h
    rw [prendSlot]
    generalize extractMort s = c at h₁
    obtain ⟨o, s₁⟩ := c
    cases o with
    | none => exact Ensures.bind (assure_any _) fun i _ => h₁
    | some y => exact Ensures.bind (assure_any _) fun i _ => h₁
  unfold start
  split
  · exact ⟨h, by simp, by simp⟩
  split
  · exact ⟨h, by simp, by simp⟩
  split
  · exact ⟨h, by simp, by simp⟩
  refine Ensures.bind hprend ?_
  rintro ⟨i, s₁⟩ h₁
  dsimp only
  split
  · trivial
  · have h₂ : Intact c (initSlot i name prio s₁) := h₁
    refine Ensures.bind (hajoute i _ h₂) fun s₃ h₃ => ?_
    split
    · exact Ensures.bind (insertActivable_muet h₃) fun s₄ h₄ => ⟨h₄, by simp, by simp⟩
    · exact ⟨h₃, by simp, by simp⟩

theorem kill_muet (h : Intact c s) (pid : Int) : Assure (kill pid s) (Sourd c) := by
  unfold kill
  split
  · exact ⟨h, nofun, nofun⟩
  refine Ensures.bind (assure_any _) fun b _ => ?_
  split
  · have h₁ : Intact c ((s.setRetval b none).setSuite .kill) := h
    exact Ensures.bind (finProcessus_muet h₁) fun s₁ h₂ => ⟨h₂, nofun, nofun⟩
  refine Ensures.bind (Q := fun r => Intact c r.2) ?_ fun r hr => ⟨hr, nofun, nofun⟩
  refine Ensures.bind (assure_any _) fun o _ => ?_
  cases o with
  | some y =>
    have h₁ : Intact c (s.setState y .zombie) := h
    exact Ensures.bind (queueDel_muet h₁) fun s₁ h₂ => h₂
  | none =>
    refine Ensures.bind (sleepDel_muet h) fun r hr => ?_
    dsimp only
    split <;> exact hr

theorem waitpidFin_muet (h : Intact c s) (pid : Int) (retvalp : Bool) (ret : Int) :
    Assure (waitpidFin pid retvalp ret s) (Sourd c) := by
  refine Ensures.bind (assure_any _) fun b _ => ?_
  split
  · exact ⟨h, nofun, nofun⟩
  split
  · exact ⟨h, nofun, nofun⟩
  · trivial

theorem waitpid_muet (h : Intact c s) (pid : Int) (retvalp : Bool) : Assure (waitpid pid retvalp s) (Sourd c) := by
  have hfin : ∀ (b : Bool) (o : Option Slot), Assure (if b then if pid = 0 then waitpidFin pid retvalp (-1) s
      else .ok (.enCours, s.setSuite (.attente pid retvalp o)) else .ok (.attendu pid retvalp (-1) none, s)) (Sourd c) := by
    intro b o
    split
    · split
      · exact waitpidFin_muet h pid retvalp (-1)
      · exact ⟨h, nofun, nofun⟩
    · exact ⟨h, nofun, nofun⟩
  refine Ensures.bind (assure_any _) fun b _ => ?_
  dsimp only
  by_cases hp : pid < 0 ∧ s.premierFils b ≠ none
  · rw [if_pos hp]
    exact hfin true _
  · rw [if_neg hp]
    exact Ensures.bind (assure_any _) fun t _ => hfin t _

theorem attente_muet (h : Intact c s) (pid : Int) (retvalp : Bool) (fils : Option Slot) :
    Assure (pidDunFilsTermine pid retvalp fils s) (Sourd c) := by
  rw [pidDunFilsTermine]
  dsimp only
  generalize (if pid < 0 then -1 else pid) = param
  refine Ensures.bind (assure_any _) fun b _ => Ensures.bind (assure_any _) fun f _ => ?_
  split
  · have h₁ : Intact c (s.setRetvalFils b (s.retval f)) := h
    refine Ensures.bind (insertMort_muet h₁) fun s₁ h₂ => ?_
    split
    · exact ⟨h₂, by simp, by simp⟩
    · have h₃ : Intact c (s₁.setSuite .code) := h₂
      exact waitpidFin_muet h₃ pid retvalp _
  · generalize (if s.frereDroit f = none then s.premierFils b else s.frereDroit f) = suivant
    have h₁ : Intact c (s.setSuite (.attente pid retvalp suivant)) := h
    refine Ensures.bind (assure_any _) fun g _ => ?_
    split
    · refine Ensures.bind (assure_any _) fun v _ => ?_
      exact Ensures.bind (chprio_muet h₁ _ (v + 1)) fun r hr => ⟨hr, by simp, by simp⟩
    · exact ⟨h₁, by simp, by simp⟩

/-- The events that reach `message.c`. -/
def Suite.transmet : Suite → Bool
  | .psend _ _ _ => true
  | .preceive _ _ => true
  | _ => false

def Appel.transmet : Appel → Bool
  | .pcreate _ _ => true
  | .pdelete _ => true
  | .preset _ => true
  | .psend _ _ => true
  | .preceive _ => true
  | _ => false

def Event.transmet (s : St) : Event → Bool
  | .appel c => c.transmet
  | .suite => s.cpu.suite.transmet
  | .tick => false

/-- `tic_PIT_CLOCK` up to its call of `ordonnance`. -/
def tictac (s : St) : St :=
  let s := { s with nbTick := succUint32 s.nbTick }
  if s.nbTick % CLOCKFREQ = 0 then changeClock { s with sec := succUint32 s.sec } else s

theorem ticPitClock_tictac (s : St) : ticPitClock s = ordonnance (tictac s) := rfl

theorem tictac_messages (s : St) : (tictac s).messages = s.messages := by
  unfold tictac changeClock
  dsimp only
  split
  · split <;> rfl
  · rfl

theorem tictac_timeToWake (s : St) : (tictac s).timeToWake = s.timeToWake := by
  unfold tictac changeClock
  dsimp only
  split
  · split <;> rfl
  · rfl

theorem tictac_nbTick (s : St) : (tictac s).nbTick = succUint32 s.nbTick := by
  unfold tictac changeClock
  dsimp only
  split
  · split <;> rfl
  · rfl

/-- The wake-up ticks and the clock after `e`. -/
def Event.heures (s : St) : Event → (Slot → ℚ) × Nat × Nat × Nat × Nat
  | .tick => (tictac s).heures
  | .suite => s.heures
  | .appel c =>
    match s.actif, c.reveil with
    | some a, some time => St.heures { s with timeToWake := Function.update s.timeToWake a time }
    | _, _ => s.heures

theorem heures_sommeil {c : Appel} {time : ℚ} (hc : c.reveil = some time) :
    Assure (sansIssue (sleepUntil time s)) (Sourd (s.messages, Event.heures s (.appel c))) := by
  refine sansIssue_muet ((sleepUntil_muet time).post ?_)
  rintro s' ⟨a, ha, hs⟩
  rw [Intact, hs, St.dehors, Event.heures, ha, hc]

theorem heures_appel {c : Appel} (hc : c.reveil = none) : Event.heures s (.appel c) = s.heures := by
  rw [Event.heures, hc]
  cases s.actif <;> rfl

/-- The other events leave the message queues alone, and the hours but for a tick and a call that sleeps. -/
theorem joue_sourd (he : e.transmet s = false) : Assure (joue e s) (Sourd (s.messages, e.heures s)) := by
  have h : Intact (s.messages, s.heures) s := rfl
  cases e with
  | tick =>
    refine sansIssue_muet ?_
    rw [ticPitClock_tictac]
    exact ordonnance_muet (by rw [Intact, St.dehors, tictac_messages, Event.heures])
  | suite =>
    show Assure (poursuit s) (Sourd (s.messages, s.heures))
    unfold poursuit
    split
    · exact ⟨h, nofun, nofun⟩
    · next hs => simp [Event.transmet, Suite.transmet, hs] at he
    · next hs => simp [Event.transmet, Suite.transmet, hs] at he
    · exact attente_muet h _ _ _
    · exact ⟨h, nofun, nofun⟩
    · exact ⟨h, nofun, nofun⟩
    · trivial
  | appel c =>
    -- Only the three calls that sleep set an hour.
    by_cases hc : c.reveil = none
    · rw [heures_appel hc]
      cases c with
      | start ssize prio name => exact start_muet h ssize prio name
      | exit retval => exact sansIssue_muet (Ensures.bind (assure_any _) fun b _ => finProcessus_muet h)
      | retour v => exact sansIssue_muet (finProcessus_muet h)
      | kill pid => exact kill_muet h pid
      | chprio pid newprio => exact Ensures.bind (chprio_muet h pid newprio) fun r hr => ⟨hr, nofun, nofun⟩
      | waitpid pid retvalp => exact waitpid_muet h pid retvalp
      | dors _ => cases hc
      | sleepUntil _ => cases hc
      | waitClock _ => cases hc
      | pcreate _ _ => cases he
      | pdelete _ => cases he
      | preset _ => cases he
      | psend _ _ => cases he
      | preceive _ => cases he
    · cases c with
      | dors nbrSecs => exact heures_sommeil rfl
      | sleepUntil time => exact heures_sommeil rfl
      | waitClock clock => exact heures_sommeil rfl
      | _ => exact absurd rfl hc

theorem joue_muet (he : e.transmet s = false) : Assure (joue e s) (Muet s.messages) :=
  (joue_sourd he).post fun _ hr => hr.muet

end Pcsea
