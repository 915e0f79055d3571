import Pcsea.Places
import Pcsea.Process
import Pcsea.MessageSpec
/-!
# The kernel invariant

`Rings`: the cells of the waiting rings that are still allocated name blocked
processes, each at most once. Every cell has a label of type `K`, given by `f`
from the queue and the role of the process (`true` for a sender, waiting in
`consum`, `false` for a receiver, waiting in `prod`): `f` says how much of the
two the invariant keeps apart.

`Quasi`: what `ordonnance()` starts from, when `actif` may have gone to sleep
or be blocked. `Inv`: what holds between the steps.
-/

namespace Pcsea

open Lib

universe u
variable {K : Type u}

/-- What process `i` goes on with when it runs. -/
def St.contexte (s : St) (i : Slot) : Option Contexte := if i = s.charge then some s.cpu else s.regs i

/-- The label of the ring a suspended call waits in. -/
def Suite.file (f : Fin NBQUEUE → Bool → K) : Suite → Option K
  | .psend q _ _ => some (f q true)
  | .preceive q _ => some (f q false)
  | _ => none

/-- Process `x` is blocked in a ring of label `k`. -/
def Attend (f : Fin NBQUEUE → Bool → K) (s : St) (p : Slot → Place) (x : Slot) (k : K) : Prop :=
  p x = .bloque ∧ ∃ c, s.contexte x = some c ∧ c.suite.file f = some k

/-- The rings of the message queues. -/
def Rings (f : Fin NBQUEUE → Bool → K) (s : St) (p : Slot → Place) (lab : Nat → Option K) : Prop :=
  Files f s.messages lab (Attend f s p)

variable {f : Fin NBQUEUE → Bool → K} {s s' : St} {p p' : Slot → Place} {lab : Nat → Option K} {a b i x : Slot}
  {q e d : List Slot}

/-- The rings only depend on the blocked processes. -/
theorem Rings.congr (h : Rings f s p lab) (hm : s'.messages = s.messages) (hp : ∀ i, p i = .bloque → p' i = .bloque)
    (hc : ∀ i, p i = .bloque → s'.contexte i = s.contexte i) : Rings f s' p' lab := by
  have hocc : ∀ x k, Attend f s p x k → Attend f s' p' x k := by
    rintro x k ⟨hx, c, hcx, hk⟩
    exact ⟨hp x hx, c, (hc x hx).trans hcx, hk⟩
  unfold Rings
  rw [hm]
  exact h.mono hocc

/-- What holds at every moment of a step. -/
structure Table (f : Fin NBQUEUE → Bool → K) (s : St) (p : Slot → Place) : Prop where
  rep : ∃ q e d, Rep s p q e d
  code : ∀ i, p i ≠ .libre → ∃ c, s.contexte i = some c ∧ c.code = i
  idle : s.pere 0 = none ∧ p 0 ≠ .libre ∧ p 0 ≠ .zombie ∧ p 0 ≠ .mort
  rings : ∃ lab, Rings f s p lab

structure Quasi (f : Fin NBQUEUE → Bool → K) (a : Slot) (s : St) (p : Slot → Place) : Prop extends Table f s p where
  actif : s.actif = some a
  charge : s.charge = a
  seul : ∀ i, p i = .elu → i = a
  place : p a = .elu ∨ p a = .endormi ∨ p a = .bloque

structure Inv (f : Fin NBQUEUE → Bool → K) (a : Slot) (s : St) (p : Slot → Place) : Prop extends Quasi f a s p where
  elu : p a = .elu

theorem Quasi.deref (h : Quasi f a s p) : deref s.actif = .ok a := by rw [h.actif, deref_some]

theorem Quasi.actif_eq (h : Quasi f a s p) (hb : s.actif = some b) : a = b := Option.some.inj (h.actif.symm.trans hb)

theorem Inv.actif_iff (h : Inv f a s p) : s.actif = some i ↔ p i = .elu := by
  rw [h.actif, Option.some.injEq]
  constructor
  · rintro rfl
    exact h.elu
  · exact fun hp => (h.seul i hp).symm

/-- The running code is that of `actif`. -/
theorem Inv.cpu_code (h : Inv f a s p) : s.cpu.code = a := by
  obtain ⟨c, hc, hca⟩ := h.code a (by simp [h.elu])
  rw [St.contexte, if_pos h.charge.symm, Option.some.injEq] at hc
  rw [hc, hca]

/-- Process 0 never ends. -/
theorem Table.ne_zero (h : Table f s p) (hz : p i = .zombie ∨ p i = .mort) : i ≠ 0 := by
  rintro rfl
  exact hz.elim h.idle.2.2.1 h.idle.2.2.2

theorem Table.pid_pos (h : Table f s p) (hi : p i ≠ .libre) (h0 : i ≠ 0) : 0 < s.pid i := by
  obtain ⟨q, e, d, hrep⟩ := h.rep
  have hne : i.val ≠ 0 := fun hv => h0 (Fin.ext hv)
  rw [hrep.pid hi]
  omega

theorem Inv.contexte_actif (h : Inv f a s p) : s.contexte a = some ⟨a, s.cpu.suite⟩ := by
  rw [St.contexte, if_pos h.charge.symm, ← h.cpu_code]

theorem Inv.suite_eq {suite : Suite} (h : Inv f a s p) (hx : s.contexte a = some ⟨a, suite⟩) : s.cpu.suite = suite := by
  rw [h.contexte_actif] at hx
  exact congrArg Contexte.suite (Option.some.inj hx)

/-- What a part of a step leaves alone, besides the lists and the states. -/
structure Cadre (s s' : St) : Prop where
  pid : s'.pid = s.pid
  premierFils : s'.premierFils = s.premierFils
  dernierFils : s'.dernierFils = s.dernierFils
  pere : s'.pere = s.pere
  frereDroit : s'.frereDroit = s.frereDroit
  retval : s'.retval = s.retval
  retvalFils : s'.retvalFils = s.retvalFils
  timeToWake : s'.timeToWake = s.timeToWake
  nbTick : s'.nbTick = s.nbTick
  processAlive : s'.processAlive = s.processAlive
  messages : s'.messages = s.messages
  contexte : s'.contexte = s.contexte

/-- What `Cadre` compares. -/
def St.reste (s : St) :=
  (s.pid, s.premierFils, s.dernierFils, s.pere, s.frereDroit, s.retval, s.retvalFils, s.timeToWake, s.nbTick,
    s.processAlive, s.messages, s.contexte)

theorem Cadre.of_eq (h : s'.reste = s.reste) : Cadre s s' := by
  simp only [St.reste, Prod.mk.injEq] at h
  obtain ⟨h₁, h₂, h₃, h₄, h₅, h₆, h₇, h₈, h₉, h₁₀, h₁₁, h₁₂⟩ := h
  exact ⟨h₁, h₂, h₃, h₄, h₅, h₆, h₇, h₈, h₉, h₁₀, h₁₁, h₁₂⟩

theorem Cadre.refl (s : St) : Cadre s s := .of_eq rfl

/-- `Cadre` does not see the lists and the states of the first state. -/
theorem Cadre.of_reste {s'' : St} (h : Cadre s s'') (he : s.reste = s'.reste) : Cadre s' s'' := by
  simp only [St.reste, Prod.mk.injEq] at he
  obtain ⟨h₁, h₂, h₃, h₄, h₅, h₆, h₇, h₈, h₉, h₁₀, h₁₁, h₁₂⟩ := he
  exact ⟨h₁ ▸ h.pid, h₂ ▸ h.premierFils, h₃ ▸ h.dernierFils, h₄ ▸ h.pere, h₅ ▸ h.frereDroit, h₆ ▸ h.retval,
    h₇ ▸ h.retvalFils, h₈ ▸ h.timeToWake, h₉ ▸ h.nbTick, h₁₀ ▸ h.processAlive, h₁₁ ▸ h.messages, h₁₂ ▸ h.contexte⟩

theorem Cadre.trans {s'' : St} (h : Cadre s s') (h' : Cadre s' s'') : Cadre s s'' :=
  ⟨h'.pid.trans h.pid, h'.premierFils.trans h.premierFils, h'.dernierFils.trans h.dernierFils, h'.pere.trans h.pere,
    h'.frereDroit.trans h.frereDroit, h'.retval.trans h.retval, h'.retvalFils.trans h.retvalFils,
    h'.timeToWake.trans h.timeToWake, h'.nbTick.trans h.nbTick, h'.processAlive.trans h.processAlive,
    h'.messages.trans h.messages, h'.contexte.trans h.contexte⟩

/-- No change in the families. -/
structure MemeFamille (s s' : St) : Prop where
  pere : s'.pere = s.pere
  premierFils : s'.premierFils = s.premierFils
  dernierFils : s'.dernierFils = s.dernierFils
  frereDroit : s'.frereDroit = s.frereDroit

theorem MemeFamille.refl (s : St) : MemeFamille s s := ⟨rfl, rfl, rfl, rfl⟩

/-- Moving processes that are not blocked. -/
theorem Table.move (h : Table f s p) (hm : s'.messages = s.messages) (hc : s'.contexte = s.contexte)
    (hf : s.pere 0 = none → s'.pere 0 = none) (hr : ∃ q e d, Rep s' p' q e d)
    (hb : ∀ i, p i = .bloque → p' i = .bloque) (hl : ∀ i, p' i ≠ .libre → p i ≠ .libre)
    (h0 : p' 0 ≠ .libre ∧ p' 0 ≠ .zombie ∧ p' 0 ≠ .mort) : Table f s' p' := by
  obtain ⟨lab, hlab⟩ := h.rings
  refine ⟨hr, ?_, ⟨hf h.idle.1, h0⟩, lab, hlab.congr hm hb fun i _ => by rw [hc]⟩
  intro i hi
  rw [hc]
  exact h.code i (hl i hi)

/-- Moving one process that is not blocked to a place of the living. -/
theorem Table.move_one {P : Place} (h : Table f s p) (hm : s'.messages = s.messages) (hc : s'.contexte = s.contexte)
    (hf : s.pere 0 = none → s'.pere 0 = none) (hr : ∃ q e d, Rep s' (Function.update p x P) q e d)
    (hx : p x ≠ .libre) (hb : p x ≠ .bloque) (hP : P ≠ .libre ∧ P ≠ .zombie ∧ P ≠ .mort) :
    Table f s' (Function.update p x P) := by
  refine h.move hm hc hf hr ?_ ?_ ?_
  · intro i hi
    rwa [Function.update_of_ne]
    rintro rfl
    exact hb hi
  · intro i hi
    by_cases hix : i = x
    · rwa [hix]
    · rwa [Function.update_of_ne hix] at hi
  · by_cases h0 : 0 = x
    · rw [h0, Function.update_self]
      exact hP
    · rw [Function.update_of_ne h0]
      exact h.idle.2

/-- The running code may go on elsewhere: `actif` is not blocked. -/
theorem Inv.setSuite (h : Inv f a s p) (x : Suite) : Inv f a (s.setSuite x) p := by
  obtain ⟨q, e, d, hr⟩ := h.rep
  obtain ⟨lab, hlab⟩ := h.rings
  have hne : ∀ i, i ≠ a → (s.setSuite x).contexte i = s.contexte i := by
    intro i hi
    simp [St.contexte, St.setSuite, h.charge, hi]
  refine ⟨⟨⟨⟨q, e, d, hr.congr rfl⟩, fun i hi => ?_, h.idle, lab, ?_⟩, h.actif, h.charge, h.seul, h.place⟩, h.elu⟩
  · by_cases hia : i = a
    · obtain ⟨c, hc, hcode⟩ := h.code i hi
      subst hia
      rw [St.contexte, if_pos h.charge.symm, Option.some.injEq] at hc
      subst hc
      exact ⟨{ s.cpu with suite := x }, by simp [St.contexte, St.setSuite, h.charge], hcode⟩
    · rw [hne i hia]
      exact h.code i hi
  · refine hlab.congr rfl (fun _ hi => hi) fun i hi => hne i ?_
    rintro rfl
    simp [h.elu] at hi

/-- The fields the invariant does not read. -/
theorem Inv.congr (h : Inv f a s p) (h₁ : s'.listes = s.listes) (h₂ : s'.messages = s.messages) (h₃ : s'.contexte = s.contexte)
    (h₄ : s'.pere = s.pere) (h₅ : s'.actif = s.actif) (h₆ : s'.charge = s.charge) : Inv f a s' p := by
  obtain ⟨q, e, d, hr⟩ := h.rep
  refine ⟨⟨?_, h₅ ▸ h.actif, h₆ ▸ h.charge, h.seul, h.place⟩, h.elu⟩
  exact h.move h₂ h₃ (fun h0 => h₄ ▸ h0) ⟨q, e, d, hr.congr h₁⟩ (fun _ hi => hi) (fun _ hi => hi) h.idle.2

/-- Taking a process that is not running out of the life of the others. -/
theorem Inv.ote {P : Place} (h : Inv f a s p) (hx : p x = .pret ∨ p x = .endormi ∨ p x = .zombie) (h0 : (0 : Slot) ≠ x)
    (hP : P = .zombie ∨ P = .mort) (hr : ∃ q e d, Rep s' (Function.update p x P) q e d) (hm : s'.messages = s.messages)
    (hc : s'.contexte = s.contexte) (hpere : s'.pere = s.pere) (ha : s'.actif = s.actif) (hch : s'.charge = s.charge) :
    Inv f a s' (Function.update p x P) := by
  have hxa : Function.update p x P a = p a := by
    refine Function.update_of_ne ?_ ..
    rintro rfl
    simp [h.elu] at hx
  refine ⟨⟨h.move hm hc (fun h0 => hpere ▸ h0) hr ?_ ?_ ?_, ha ▸ h.actif, hch ▸ h.charge, ?_, ?_⟩, ?_⟩
  · intro i hi
    rwa [Function.update_of_ne]
    rintro rfl
    simp [hi] at hx
  · intro i hi
    by_cases hix : i = x
    · rcases hx with hx | hx | hx <;> simp [hix, hx]
    · rwa [Function.update_of_ne hix] at hi
  · rw [Function.update_of_ne h0]
    exact h.idle.2
  · intro i hi
    by_cases hix : i = x
    · rcases hP with rfl | rfl <;> simp [hix] at hi
    · exact h.seul i (by rwa [Function.update_of_ne hix] at hi)
  · rw [hxa]
    exact h.place
  · rw [hxa]
    exact h.elu

/-! ## `ctx_sw` -/

/-- `ctx_sw` from the block of the running code runs what `b` goes on with. -/
theorem ctxSw_spec {c : Contexte} (hc : s.charge = a) (hb : s.contexte b = some c) :
    ctxSw a b s = .ok { s with
      regs := Function.update s.regs a (some s.cpu), cpu := c, charge := b, journal := ⟨a, s.cpu.code, b⟩ :: s.journal } := by
  subst hc
  unfold St.contexte at hb
  by_cases h : b = s.charge
  · subst h
    rw [if_pos rfl, Option.some.injEq] at hb
    subst hb
    simp [ctxSw]
  · rw [if_neg h] at hb
    simp [ctxSw, Function.update_of_ne h, hb]

/-- It changes what no process goes on with. -/
theorem contexte_ctxSw {c : Contexte} (actif : Option Slot) (journal : List Bascule) (hc : s.charge = a)
    (hb : s.contexte b = some c) (i : Slot) :
    St.contexte { s with regs := Function.update s.regs a (some s.cpu), cpu := c, charge := b, actif, journal } i =
      s.contexte i := by
  subst hc
  unfold St.contexte at hb ⊢
  dsimp only
  by_cases hi : i = b
  · rw [if_pos hi, hi, hb]
  · rw [if_neg hi]
    by_cases h : i = s.charge
    · rw [if_pos h, h, Function.update_self]
    · rw [if_neg h, Function.update_of_ne h]

/-- Handing the processor over to `b`. -/
theorem Table.ctxSw (h : Table f s p) (hc : s.charge = a) (hb : p b = .elu) (hs : ∀ i, p i = .elu → i = b) :
    ∃ s', Pcsea.ctxSw a b { s with actif := some b } = .ok s' ∧ Inv f b s' p ∧ Cadre s s' := by
  obtain ⟨c, hcb, -⟩ := h.code b (by simp [hb])
  have hctx : ∀ i, _ := contexte_ctxSw (some b) (⟨a, s.cpu.code, b⟩ :: s.journal) hc hcb
  have hcadre : Cadre s { s with
      actif := some b, regs := Function.update s.regs a (some s.cpu), cpu := c, charge := b,
      journal := ⟨a, s.cpu.code, b⟩ :: s.journal } :=
    ⟨rfl, rfl, rfl, rfl, rfl, rfl, rfl, rfl, rfl, rfl, rfl, funext hctx⟩
  obtain ⟨q, e, d, hr⟩ := h.rep
  have ht : Table f _ p := h.move hcadre.messages hcadre.contexte id ⟨q, e, d, by exact hr.congr rfl⟩
    (fun _ hi => hi) (fun _ hi => hi) h.idle.2
  exact ⟨_, ctxSw_spec (s := { s with actif := some b }) hc hcb, ⟨⟨ht, rfl, rfl, hs, .inl hb⟩, hb⟩, hcadre⟩

end Pcsea
