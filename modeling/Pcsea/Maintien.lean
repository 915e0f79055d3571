import Pcsea.Muet
import Pcsea.StepSpec
/-!
# Invariants of the message queues

`Maintient I`: each function of `message.c` keeps `I`, a property of the
queues. Then every step of the system keeps it, whatever the state, and a run
never leaves it; the step also writes the clock and the wake-up ticks as
`Event.heures` says.
-/

namespace Pcsea

open Lib

variable {I : Messages Slot → Prop} {c : (Slot → ℚ) × Nat × Nat × Nat × Nat} {s s' : St} {e : Event} {q : Fin NBQUEUE}
  {r : Issue} {tr : List (St × Event × Issue)} {fifo : FifoProcess} {m : Messages Slot} {x : Slot}

structure Maintient (I : Messages Slot → Prop) : Prop where
  pcreate {m : Messages Slot} (count : Int) (contenu : Option (Nat → Int)) : I m → I (pcreate m count contenu).2
  psendEntree {m : Messages Slot} (fid : Int) (x : Slot) : I m → Assure (psendEntree m fid x) fun r => I r.2
  preceiveEntree {m : Messages Slot} (fid : Int) (x : Slot) : I m → Assure (preceiveEntree m fid x) fun r => I r.2
  psendSuite {m : Messages Slot} (pid : Slot → Int) (q : Fin NBQUEUE) (v : Int) (x : Slot) :
    I m → Assure (psendSuite pid m q v x) fun r => I r.2.2
  preceiveSuite {m : Messages Slot} (pid : Slot → Int) (q : Fin NBQUEUE) (x : Slot) :
    I m → Assure (preceiveSuite pid m q x) fun r => I r.2.2
  pdelete {m : Messages Slot} (q : Fin NBQUEUE) : I m → I (m.set q (m.fifoTab q).efface)
  preset {m : Messages Slot} (q : Fin NBQUEUE) : I m → I (m.set q (m.fifoTab q).raz)
  /-- The tail of either ring is stored in `consum`. -/
  extrait {m : Messages Slot} {fifo : FifoProcess} (q : Fin NBQUEUE) :
    fifo = (m.fifoTab q).consum ∨ fifo = (m.fifoTab q).prod → I m →
    Assure (extractProcess fifo m.heap) fun r => I { m.set q { m.fifoTab q with consum := r.1 } with heap := r.2.2 }
  annule {m : Messages Slot} (x : Slot) :
    I m → Assure (addProcess m.shouldReceiveNegativeOne x m.heap) fun r => I { m with heap := r.2 }

/-- The queues satisfy `I`, and the hours are `c`. -/
def Garde (I : Messages Slot → Prop) (c : (Slot → ℚ) × Nat × Nat × Nat × Nat) (s : St) : Prop :=
  I s.messages ∧ s.heures = c

theorem Garde.intact (h : Garde I c s) (h' : Intact s.dehors s') : Garde I c s' := by
  obtain ⟨hm, hc⟩ := Prod.mk.inj h'
  exact ⟨hm.symm ▸ h.1, Eq.trans hc h.2⟩

theorem Garde.setMessages (h : Garde I c s) (hm : I m) : Garde I c { s with messages := m } := ⟨hm, h.2⟩

/-! ## The calls -/

theorem psendFin_garde (hI : Maintient I) (h : Garde I c s) (v : Int) :
    Assure (psendFin q v x s) fun r => Garde I c r.2 := by
  refine Ensures.bind (hI.psendSuite s.pid q v x h.1) ?_
  rintro ⟨r, o, m⟩ hm
  exact Ensures.bind (reveille_muet rfl) fun s₁ h₁ => (h.setMessages hm).intact h₁

theorem preceiveFin_garde (hI : Maintient I) (h : Garde I c s) : Assure (preceiveFin q x s) fun r => Garde I c r.2 := by
  refine Ensures.bind (hI.preceiveSuite s.pid q x h.1) ?_
  rintro ⟨r, o, m⟩ hm
  refine Ensures.bind (reveille_muet rfl) fun s₁ h₁ => ?_
  have h₂ : Garde I c s₁ := (h.setMessages hm).intact h₁
  cases r <;> exact h₂

theorem psend_garde (hI : Maintient I) (h : Garde I c s) (fid v : Int) : Assure (psend fid v s) fun r => Garde I c r.2 := by
  refine Ensures.bind (assure_any _) fun x _ => Ensures.bind (hI.psendEntree fid x h.1) ?_
  rintro ⟨entree, m⟩ hm
  cases entree with
  | invalide => exact h.setMessages hm
  | bloque q => exact Ensures.bind (ordonnance_muet rfl) fun s₁ h₁ => (h.setMessages hm).intact h₁
  | passe q => exact psendFin_garde hI (h.setMessages hm) v

theorem preceive_garde (hI : Maintient I) (h : Garde I c s) (fid : Int) : Assure (preceive fid s) fun r => Garde I c r.2 := by
  refine Ensures.bind (assure_any _) fun x _ => Ensures.bind (hI.preceiveEntree fid x h.1) ?_
  rintro ⟨entree, m⟩ hm
  cases entree with
  | invalide => exact h.setMessages hm
  | bloque q => exact Ensures.bind (ordonnance_muet rfl) fun s₁ h₁ => (h.setMessages hm).intact h₁
  | passe q => exact preceiveFin_garde hI (h.setMessages hm)

theorem reveilleUn_garde (hI : Maintient I) (h : Garde I c s)
    (hf : fifo = (s.messages.fifoTab q).consum ∨ fifo = (s.messages.fifoTab q).prod) :
    Assure (reveilleUn q fifo s) (Garde I c) := by
  refine Ensures.bind (hI.extrait q hf h.1) ?_
  rintro ⟨consum, o, heap⟩ hm
  refine Ensures.bind (assure_any _) fun y _ => Ensures.bind (insertActivable_muet rfl) fun s₁ h₁ => ?_
  have h₂ : Garde I c s₁ := (h.setMessages hm).intact h₁
  exact Ensures.bind (hI.annule y h₂.1) fun r hr => h₂.setMessages hr

/-- Both loops, each by induction on its fuel. -/
theorem reveilleTous_garde (hI : Maintient I) (h : Garde I c s) : Assure (reveilleTous q s) (Garde I c) := by
  have hconsum (n : Nat) (s : St) (h : Garde I c s) : Assure (reveilleConsum q n s) (Garde I c) := by
    induction n generalizing s with
    | zero => trivial
    | succ n ih =>
      unfold reveilleConsum
      split
      · exact h
      · exact Ensures.bind (reveilleUn_garde hI h (.inl rfl)) fun s₁ h₁ => ih s₁ h₁
  have hprod (n : Nat) (s : St) (h : Garde I c s) : Assure (reveilleProd q n s) (Garde I c) := by
    induction n generalizing s with
    | zero => trivial
    | succ n ih =>
      unfold reveilleProd
      split
      · exact h
      · exact Ensures.bind (reveilleUn_garde hI h (.inr rfl)) fun s₁ h₁ => ih s₁ h₁
  exact Ensures.bind (hconsum _ s h) fun s₁ h₁ => hprod _ s₁ h₁

theorem videFifo_garde {φ : FifoMessages → FifoMessages} (hI : Maintient I) (h : Garde I c s)
    (hφ : ∀ {m : Messages Slot} (q : Fin NBQUEUE), I m → I (m.set q (φ (m.fifoTab q)))) (fid : Int) :
    Assure (videFifo φ fid s) fun r => Garde I c r.2 := by
  unfold videFifo
  split
  · exact h
  · next q _ => exact Ensures.bind (reveilleTous_garde hI (h.setMessages (hφ q h.1))) fun s₁ h₁ => h₁

/-! ## The step -/

/-- Whatever the state and the event. -/
theorem joue_garde (hI : Maintient I) (h : I s.messages) : Assure (joue e s) fun r => Garde I (e.heures s) r.2 := by
  -- Only the calls about messages can change what `I` speaks of.
  by_cases he : e.transmet s = false
  · refine (joue_sourd he).post fun r hr => ?_
    obtain ⟨hm, hc⟩ := Prod.mk.inj hr.1
    exact ⟨hm.symm ▸ h, hc⟩
  have hg : Garde I s.heures s := ⟨h, rfl⟩
  cases e with
  | tick => exact absurd rfl he
  | suite =>
    have hc : Garde I s.heures (s.setSuite .code) := hg
    show Assure (poursuit s) fun r => Garde I s.heures r.2
    unfold poursuit
    split
    · exact hg
    · next v _ _ => exact psendFin_garde hI hc v
    · exact preceiveFin_garde hI hc
    · next hs => simp [Event.transmet, Suite.transmet, hs] at he
    · exact hg
    · exact hg
    · trivial
  | appel a =>
    have ha : a.reveil = none := by
      cases a <;> first | rfl | exact absurd rfl he
    rw [heures_appel ha]
    cases a with
    | pcreate count contenu => exact hg.setMessages (hI.pcreate count contenu h)
    | pdelete fid => exact videFifo_garde hI hg hI.pdelete fid
    | preset fid => exact videFifo_garde hI hg hI.preset fid
    | psend fid v => exact psend_garde hI hg fid v
    | preceive fid => exact preceive_garde hI hg fid
    | _ => exact absurd rfl he

/-- At the end of every run. -/
theorem parcours_garde {C : St → Event → Prop} (hI : Maintient I) (h0 : I Messages.boot) (hr : Parcours C tr s) :
    I s.messages := by
  refine hr.inv (fun s => I s.messages) (by rw [boot_eq]; exact h0) ?_
  rintro s e r s' h ⟨-, -, ho⟩
  exact ((joue_garde hI h).of_ok ho).1

/-- The hours after a step, whatever the state. -/
theorem joue_heures (ho : joue e s = .ok (r, s')) : s'.heures = e.heures s := by
  have hI : Maintient fun _ => True :=
    ⟨fun _ _ _ => trivial, fun _ _ _ => assure_any _, fun _ _ _ => assure_any _, fun _ _ _ _ _ => assure_any _,
      fun _ _ _ _ => assure_any _, fun _ _ => trivial, fun _ _ => trivial, fun _ _ _ => assure_any _, fun _ _ => assure_any _⟩
  exact ((joue_garde hI trivial).of_ok ho).2

/-- The list of the cancelled calls stays empty: its new tail is thrown away. -/
theorem maintient_silence : Maintient fun m => m.shouldReceiveNegativeOne = none where
  pcreate count contenu h := by
    unfold pcreate
    split
    · exact h
    · split <;> exact h
  psendEntree fid x h := by
    refine ensures_of_ok fun r hr => ?_
    rcases psendEntree_ok hr with ⟨-, rfl⟩ | ⟨q, -, -, rfl⟩ | ⟨q, consum, heap, -, -, -, rfl⟩ <;> exact h
  preceiveEntree fid x h := by
    refine ensures_of_ok fun r hr => ?_
    rcases preceiveEntree_ok hr with ⟨-, rfl⟩ | ⟨q, -, -, rfl⟩ | ⟨q, prod, heap, -, -, -, rfl⟩ <;> exact h
  psendSuite pid q v x h := by
    refine ensures_of_ok fun r hr => ?_
    obtain ⟨tab, tab', prod, heap, -, -, -, -, rfl⟩ := psendSuite_ok h hr
    exact h
  preceiveSuite pid q x h := by
    refine ensures_of_ok fun r hr => ?_
    obtain ⟨tab, v, consum, heap, -, -, -, rfl⟩ := preceiveSuite_ok h hr
    exact h
  pdelete q h := h
  preset q h := h
  extrait q _ h := (assure_any _).post fun _ _ => h
  annule x h := (assure_any _).post fun _ _ => h

end Pcsea
