import Pcsea.ProcessSpec
import Pcsea.ExchangeSpec
import Pcsea.Machine
import Pcsea.Lib.Runs
/-!
# What one step does

`Sain s e`: the event `e` does not run into one of the known defects: a slot
in use is not taken, and no process is left to run while `actif` sleeps, waits
or ends. Under `Sain` every step keeps `Inv`, moves the places as `Va` says and
changes the families as `Parente` says.
-/

namespace Pcsea

open Lib

universe u
variable {K : Type u} {f : Fin NBQUEUE → Bool → K} {s s' : St} {p p' : Slot → Place} {a i x : Slot} {e : Event} {r : Issue}

/-! ## The state after `init_process` -/

def boot : St :=
  match initProcess St.zero with
  | .ok s => s
  | .error _ => St.zero

theorem initProcess_zero :
    initProcess St.zero = .ok { initSlot 0 "idle" 1 St.zero with processAlive := 1, actif := some 0 } := by
  have hc : caseDe (toInt32 St.zero.processAlive) = .ok 0 := caseDe_val 0
  have hl : ¬14 < "idle".length := by decide
  have hp : St.zero.processAlive ≠ PROCESS_TABLE_SIZE := by decide
  have hs : start 512 1 "idle" St.zero = .ok (.cree 0, { initSlot 0 "idle" 1 St.zero with processAlive := 1 }) := by
    rw [start, if_neg (by decide), if_neg (by decide), if_neg hp, prendSlot,
      show extractMort St.zero = (none, St.zero) from rfl]
    simp only [hc, ok_bind, if_neg hl]
    rfl
  rw [initProcess, hs]
  rfl

theorem boot_eq : boot = { initSlot 0 "idle" 1 St.zero with processAlive := 1, actif := some 0 } := by
  rw [boot, initProcess_zero]

/-- Process 0 runs, no other slot was started. -/
def placesBoot : Slot → Place := Function.update (fun _ => .libre) 0 .elu

theorem inv_boot (f : Fin NBQUEUE → Bool → K) : Inv f 0 boot placesBoot := by
  have hne : ∀ i, i ≠ 0 → placesBoot i = .libre := fun i hi => Function.update_of_ne hi ..
  have h0 : placesBoot 0 = .elu := Function.update_self ..
  rw [boot_eq]
  refine ⟨⟨⟨⟨[], [], [], ⟨⟨Ready.zero, .empty, .empty, by simp⟩, .nil, ?_, ?_, ?_, ?_, ?_⟩⟩, ?_, ⟨rfl, by simp [h0]⟩, _,
    Files.boot f _⟩, rfl, rfl, ?_, .inl h0⟩, h0⟩
  all_goals
    intro i
    by_cases hi : i = 0
    · subst hi
      simp [h0, initSlot, St.zero, Place.admet, St.contexte]
    · simp [hne i hi, initSlot, St.zero, Place.admet, hi]

/-! ## Conditions -/

/-- The `time_to_wake` that a call which sleeps writes. -/
def Appel.reveil : Appel → Option ℚ
  | .dors nbrSecs => some nbrSecs
  | .sleepUntil time => some time
  | .waitClock clock => some (clock / CLOCKFREQ : Nat)
  | _ => none

def Event.reveil : Event → Option ℚ
  | .appel c => c.reveil
  | _ => none

/-- The tick before which the caller of a call which sleeps asks not to be woken. -/
def Appel.voulu : Appel → Option ℚ
  | .dors nbrSecs => some nbrSecs
  | .sleepUntil time => some time
  | .waitClock clock => some clock
  | _ => none

def Event.voulu : Event → Option ℚ
  | .appel c => c.voulu
  | _ => none

/-- A wait that goes on raises the priority of the child it looks at next. -/
def Suite.Eleve (s : St) : Suite → Prop
  | .attente pid retvalp (some x) => Pcsea.Eleve s pid retvalp x
  | _ => False

/-- The step calls `ordonnance`. -/
def AppelleOrdonnance (s : St) : Event → Prop
  | .tick => True
  | .appel (.chprio pid newprio) => Valable pid newprio
  | .appel (.psend fid _) => ∃ q, s.messages.ouverte fid = some q ∧ (s.messages.fifoTab q).nbElement = (s.messages.fifoTab q).size
  | .appel (.preceive fid) => ∃ q, s.messages.ouverte fid = some q ∧ (s.messages.fifoTab q).nbElement = 0
  | .appel c => c.reveil ≠ none
  | .suite => s.cpu.suite.Eleve s

def Event.creation : Event → Bool
  | .appel (.start _ _ _) => true
  | _ => false

/-- The calls that may wait for a message or for room. -/
def Event.echange : Event → Bool
  | .appel (.psend _ _) => true
  | .appel (.preceive _) => true
  | _ => false

/-- `kill` of the running process. -/
def SeTue (pid : Int) (s : St) : Prop := ∃ a, s.actif = some a ∧ s.pid a = pid

/-- The running process ends. -/
def Termine (s : St) : Event → Prop
  | .appel (.exit _) => True
  | .appel (.retour _) => True
  | .appel (.kill pid) => ¬(pid ≤ 0 ∨ PROCESS_TABLE_SIZE - 1 < pid) ∧ SeTue pid s
  | _ => False

def Sain (s : St) : Event → Prop
  | .appel (.start _ _ _) => SlotLibre s
  | .appel (.exit _) => Releve s
  | .appel (.retour _) => Releve s
  | .appel (.kill pid) => SeTue pid s → Releve s
  | .appel (.dors nbrSecs) => Repos nbrSecs s
  | .appel (.sleepUntil time) => Repos time s
  | .appel (.waitClock clock) => Repos (clock / CLOCKFREQ : Nat) s
  | .appel (.psend fid _) => ∀ q, s.messages.ouverte fid = some q →
      (s.messages.fifoTab q).nbElement = (s.messages.fifoTab q).size → PeutAttendre s
  | .appel (.preceive fid) => ∀ q, s.messages.ouverte fid = some q →
      (s.messages.fifoTab q).nbElement = 0 → PeutAttendre s
  | _ => True

/-- A receiver that blocks while senders wait is only allowed when the labels do not tell them apart. -/
def Separe (f : Fin NBQUEUE → Bool → K) (s : St) : Event → Prop
  | .appel (.preceive fid) => ∀ q, s.messages.ouverte fid = some q → (s.messages.fifoTab q).nbElement = 0 →
      (s.messages.fifoTab q).consum = none ∨ f q true = f q false
  | _ => True

/-- The event makes a process of a ring of label `k` ready. -/
def Libere (f : Fin NBQUEUE → Bool → K) (s : St) (k : K) : Event → Prop
  | .appel (.psend fid _) => ∃ q, s.messages.ouverte fid = some q ∧ k = f q false
  | .appel (.preceive fid) => ∃ q, s.messages.ouverte fid = some q ∧ k = f q true
  | .appel (.pdelete fid) => ∃ q, s.messages.ouverte fid = some q ∧ k = f q true
  | .appel (.preset fid) => ∃ q, s.messages.ouverte fid = some q ∧ k = f q true
  | .suite => (∃ q message tmp, s.cpu.suite = .psend q message tmp ∧ k = f q false) ∨
      ∃ q tmp, s.cpu.suite = .preceive q tmp ∧ k = f q true
  | _ => False

/-! ## Moves -/

/-- The life of a process: where slot `i` may go from its place. -/
inductive Va (f : Fin NBQUEUE → Bool → K) (s : St) (p : Slot → Place) (e : Event) (r : Issue) (s' : St) (i : Slot) :
    Place → Prop
  | reste : Va f s p e r s' i (p i)
  | tourne {P : Place} : p i = .elu ∨ p i = .pret → P = .elu ∨ P = .pret → Va f s p e r s' i P
  | echeance {P : Place} : p i = .endormi → s.timeToWake i ≤ s'.nbTick → AppelleOrdonnance s e → P = .elu ∨ P = .pret →
    Va f s p e r s' i P
  | dort (time : ℚ) : p i = .elu → e.reveil = some time → s'.timeToWake i = time → Va f s p e r s' i .endormi
  | attend : p i = .elu → e.echange = true → Va f s p e r s' i .bloque
  | libere (k : K) : Attend f s p i k → Libere f s k e → Va f s p e r s' i .pret
  | finit : p i = .elu → Va f s p e r s' i .zombie
  | tue : p i = .pret → e = .appel (.kill (s.pid i)) → Va f s p e r s' i .zombie
  | tueEndormi : p i = .endormi → e = .appel (.kill (s.pid i)) → Va f s p e r s' i .mort
  | recolte (pid : Int) (retvalp : Bool) (v : Option Int) :
    p i = .zombie → r = .attendu pid retvalp (s.pid i) v → Va f s p e r s' i .mort
  | orphelin : p i = .zombie → s'.pere i = none → Va f s p e r s' i .mort
  | demarre : Disponible s p i → r = .cree i → Va f s p e r s' i .pret

theorem Va.of_eq {P : Place} (h : P = p i) : Va f s p e r s' i P := h ▸ .reste

/-- `fils` is the child a waiting process will look at. -/
inductive Cherche (s : St) (a : Slot) (e : Event) (pid : Int) (retvalp : Bool) (fils : Option Slot) : Prop
  | meme : s.cpu.suite = .attente pid retvalp fils → Cherche s a e pid retvalp fils
  | debut : e = .appel (.waitpid pid retvalp) → pid ≠ 0 → fils ≠ none → fils = s.premierFils a →
    Cherche s a e pid retvalp fils
  | suit (x : Slot) : e = .suite → s.cpu.suite = .attente pid retvalp (some x) → fils ≠ none → fils = suivant s a x →
    Cherche s a e pid retvalp fils

/-- What a step does to the families of `actif`, `a`. -/
inductive Parente (s s' : St) (r : Issue) (a : Slot) (p' : Slot → Place) : Prop
  | meme : MemeFamille s s' → Parente s s' r a p'
  | naissance (x : Slot) : r = .cree x → Naissance s s' a x → Parente s s' r a p'
  | deuil : s.pere a ≠ none → s'.pere a = s.pere a → p' a = .zombie → s'.premierFils = s.premierFils →
      s'.dernierFils = s.dernierFils → s'.frereDroit = s.frereDroit →
      (∀ i, s'.pere i = s.pere i ∨ s'.pere i = none ∧ Met s.frereDroit (s.premierFils a) i) → Parente s s' r a p'

/-- The value a process that ends leaves. -/
def Event.valeur (v : Option Int) : Event → Option Int
  | .appel (.exit retval) => some retval
  | .appel (.kill _) => none
  | _ => v

/-- What a step does to `process_alive`. -/
structure Compte (s : St) (e : Event) (r : Issue) (s' : St) : Prop where
  fin : Termine s e → s'.processAlive = predUint32 s.processAlive
  cree : ∀ x, r = .cree x → s'.processAlive = succUint32 s.processAlive
  meme : ¬Termine s e → (∀ x, r ≠ .cree x) → s'.processAlive = s.processAlive

/-- What the step `e` of `a` does. -/
structure Effet (f : Fin NBQUEUE → Bool → K) (a : Slot) (s : St) (p : Slot → Place) (e : Event) (r : Issue) (s' : St)
    (n : Slot) (p' : Slot → Place) : Prop where
  inv : Inv f n s' p'
  va : ∀ i, Va f s p e r s' i (p' i)
  parente : Parente s s' r a p'
  reveil : ∀ i, i ≠ a → s'.timeToWake i = s.timeToWake i
  contexte : ∀ i, i ≠ a → s'.contexte i = if r = .cree i then some ⟨i, .code⟩ else s.contexte i
  retval : ∀ i, s'.retval i =
    if r = .cree i then none else if i = a ∧ p' a = .zombie then e.valeur (s.retval i) else s.retval i
  retvalFils : ∀ i, s'.retvalFils i = s.retvalFils i ∨ s'.retvalFils i = none
  cree : ∀ x, r = .cree x → Disponible s p x ∧ p' x = .pret ∧ e.creation = true
  fin : p' a = .zombie ↔ Termine s e
  compte : Compte s e r s'
  cherche : ∀ pid retvalp fils, s'.contexte a = some ⟨a, .attente pid retvalp fils⟩ → Cherche s a e pid retvalp fils
  attendu : ∀ pid retvalp ret ecrit, r = .attendu pid retvalp ret ecrit →
    (e = .appel (.waitpid pid retvalp) ∧ ret = -1 ∧ (ecrit = none ∨ ecrit = s.retvalFils a)) ∨
    ∃ x, e = .suite ∧ s.cpu.suite = .attente pid retvalp (some x) ∧ p x = .zombie ∧ p' x = .mort ∧
      (pid < 0 ∨ s.pid x = pid) ∧ ret = s.pid x ∧ ecrit = s.retval x ∧ (retvalp = false → ecrit = none)

/-- What a step leads to. -/
def Mene (f : Fin NBQUEUE → Bool → K) (a : Slot) (s : St) (p : Slot → Place) (e : Event) (r : Issue) (s' : St) : Prop :=
  ∃ n p', Effet f a s p e r s' n p'

end Pcsea
