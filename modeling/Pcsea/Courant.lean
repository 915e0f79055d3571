import Pcsea.Pointeurs
import Pcsea.StepSpec
/-!
# The running process is `actif`

`Execute R a s`: `actif` is `a`, the block last loaded is `a`'s, and every
pointer of the table leads to a process that has its own pid and runs its own
code. Only a termination that finds no ready process breaks it, whatever else
goes wrong.
-/

namespace Pcsea

open Lib

variable {R R' : Slot → Nat → Prop} {s s' : St} {a i n x : Slot} {e : Event} {r : Issue} {tr : List (St × Event × Issue)}

/-- Slot `x` has its pid and its own code to run. -/
def Bon (s : St) (x : Slot) : Prop := s.pid x = x.val ∧ ∃ c, s.contexte x = some c ∧ c.code = x

structure Execute (R : Slot → Nat → Prop) (a : Slot) (s : St) : Prop where
  pointeurs : Pointeurs (Bon s) R s.noyau s
  actif : s.actif = some a
  charge : s.charge = a
  bon : Bon s a
  attente : ∀ x c pid retvalp f, s.contexte x = some c → c.suite = .attente pid retvalp (some f) → Bon s f
  journal : ∀ b ∈ s.journal, b.sauve = b.code

theorem contexte_congr (h : s'.noyau = s.noyau) : s'.contexte = s.contexte := by
  simp only [St.noyau, Prod.mk.injEq] at h
  obtain ⟨-, h₁, h₂, h₃, -⟩ := h
  funext i
  rw [St.contexte, St.contexte, h₁, h₂, h₃]

theorem bon_congr (h : s'.noyau = s.noyau) : Bon s' = Bon s := by
  have hp : s'.pid = s.pid := by
    simp only [St.noyau, Prod.mk.injEq] at h
    exact h.1
  funext x
  rw [Bon, Bon, contexte_congr h, hp]

/-- A part of a step that leaves the processor alone. -/
theorem Execute.of_pointeurs (h : Execute R a s) (h' : Pointeurs (Bon s) R' s.noyau s') : Execute R' a s' := by
  have hn := h'.noyau
  have hb := bon_congr hn
  have hc := contexte_congr hn
  refine ⟨by rw [hb, hn]; exact h', ?_, ?_, hb ▸ h.bon, by rw [hb, hc]; exact h.attente, ?_⟩
  all_goals simp only [St.noyau, Prod.mk.injEq] at hn
  · rw [hn.2.2.2.2.1, h.actif]
  · rw [hn.2.2.2.1, h.charge]
  · rw [hn.2.2.2.2.2]
    exact h.journal

theorem Execute.deref (h : Execute R a s) : deref s.actif = .ok a := by rw [h.actif, deref_some]

theorem Execute.caseDe_pid (hx : Bon s x) : caseDe (s.pid x) = .ok x := by rw [hx.1, caseDe_val]

/-- The pointers may be seen as leading to more processes, when only the processor part has changed. -/
theorem Pointeurs.rebase {G G' : Slot → Prop} {c c' : (Slot → Int) × (Slot → Option Contexte) × Contexte × Slot × Option Slot × List Bascule}
    (h : Pointeurs G R c s) (hg : ∀ i, G i → G' i) (hc : s.noyau = c') : Pointeurs G' R c' s :=
  ⟨hc, h.prio, fun m i hi => hg i (h.next m i hi), fun m i hi => hg i (h.prev m i hi), fun m i hi => hg i (h.suiv m i hi),
    fun i hi => hg i (h.endormiList i hi), fun i hi => hg i (h.endormiTail i hi), fun i hi => hg i (h.deadList i hi),
    fun i hi => hg i (h.deadTail i hi), fun x i hi => hg i (h.premierFils x i hi), fun x i hi => hg i (h.dernierFils x i hi),
    fun x i hi => hg i (h.frereDroit x i hi), fun b c hb => hg _ (h.cells b c hb)⟩

/-- The running code may go on elsewhere. -/
theorem Execute.setSuite (h : Execute R a s) {suite : Suite}
    (hs : ∀ pid retvalp f, suite = .attente pid retvalp (some f) → Bon s f) : Execute R a (s.setSuite suite) := by
  have hctx : ∀ i, (s.setSuite suite).contexte i = if i = s.charge then some ⟨s.cpu.code, suite⟩ else s.contexte i := by
    intro i
    show (if i = s.charge then some (⟨s.cpu.code, suite⟩ : Contexte) else s.regs i) = _
    by_cases hi : i = s.charge
    · rw [if_pos hi, if_pos hi]
    · rw [if_neg hi, if_neg hi, St.contexte, if_neg hi]
  have hcode : s.cpu.code = s.charge := by
    obtain ⟨-, c, hc, hcode⟩ := h.bon
    rw [St.contexte, if_pos h.charge.symm, Option.some.injEq] at hc
    rw [hc, hcode, h.charge]
  have hbon : ∀ x, Bon s x → Bon (s.setSuite suite) x := by
    rintro x ⟨hp, c, hc, hcx⟩
    refine ⟨hp, ?_⟩
    rw [hctx]
    by_cases hx : x = s.charge
    · exact ⟨_, if_pos hx, hcode.trans hx.symm⟩
    · exact ⟨c, by rw [if_neg hx, hc], hcx⟩
  refine ⟨?_, h.actif, h.charge, hbon a h.bon, fun x c pid retvalp f hc hsu => hbon f ?_, h.journal⟩
  · exact Pointeurs.rebase (s := s.setSuite suite) { h.pointeurs with noyau := rfl } hbon rfl
  · rw [hctx] at hc
    split at hc
    · obtain rfl := Option.some.inj hc
      exact hs pid retvalp f hsu
    · exact h.attente x c pid retvalp f hc hsu

/-- `ctx_sw` to a process of the table, with `actif` moved to it. -/
theorem Execute.ctxSw (h : Execute R a s) (hx : Bon s x) :
    Assure (ctxSw a x { s with actif := some x }) fun s' => Execute R x s' := by
  obtain ⟨hp, c, hc, hcode⟩ := hx
  have hcpu : s.cpu.code = a := by
    obtain ⟨-, c', hc', hcode'⟩ := h.bon
    rw [St.contexte, if_pos h.charge.symm, Option.some.injEq] at hc'
    rw [hc', hcode']
  rw [ctxSw_spec (s := { s with actif := some x }) h.charge hc]
  show Execute R x _
  have hctx := contexte_ctxSw (some x) (⟨a, s.cpu.code, x⟩ :: s.journal) h.charge hc
  have hbon : ∀ y, Bon s y → Bon { s with
      actif := some x, regs := Function.update s.regs a (some s.cpu), cpu := c, charge := x,
      journal := ⟨a, s.cpu.code, x⟩ :: s.journal } y := by
    rintro y ⟨hpy, d, hd, hdc⟩
    exact ⟨hpy, d, (hctx y).trans hd, hdc⟩
  refine ⟨?_, rfl, rfl, hbon x ⟨hp, c, hc, hcode⟩, fun y d pid retvalp f hd hsu => hbon f ?_, ?_⟩
  · exact Pointeurs.rebase { h.pointeurs with noyau := rfl } hbon rfl
  · exact h.attente y d pid retvalp f ((hctx y).symm.trans hd) hsu
  · intro b hb
    rcases List.mem_cons.1 hb with rfl | hb
    · exact hcpu.symm
    · exact h.journal b hb

/-! ## `ordonnance` and `fin_processus` -/

theorem ordonnance_execute (h : Execute R a s) : Assure (ordonnance s) fun s' => ∃ n, Execute R n s' := by
  refine Ensures.bind (wakeProcess_pointeurs h.pointeurs) fun s₁ h₁ => ?_
  have he₁ := h.of_pointeurs h₁
  rw [ordonnanceSuite, he₁.deref, ok_bind, Execute.caseDe_pid he₁.bon, ok_bind]
  refine Ensures.bind (elit_pointeurs he₁.pointeurs he₁.bon) ?_
  rintro ⟨o, s₂⟩ ⟨h₂, hg⟩
  have he₂ := he₁.of_pointeurs h₂
  have hb₂ : Bon s₂ = Bon s₁ := bon_congr h₂.noyau
  cases o with
  | none => exact ⟨a, he₂⟩
  | some n =>
    have hn : Bon s₂ n := hb₂ ▸ hg n rfl
    dsimp only
    rw [Execute.caseDe_pid hn, ok_bind]
    split
    · refine Ensures.bind (insertActivable_pointeurs he₂.pointeurs he₂.bon) fun s₃ h₃ => ?_
      have hb₃ : Bon s₃ = Bon s₂ := bon_congr h₃.noyau
      exact ((he₂.of_pointeurs h₃).ctxSw (hb₃ ▸ hn)).post fun s' hs' => ⟨n, hs'⟩
    · exact (he₂.ctxSw hn).post fun s' hs' => ⟨n, hs'⟩

/-- `fin_processus` once the next process is chosen. -/
def finProcessusSuite (oldPid : Slot) (newActif : Option Slot) (s : St) : Except Fault St :=
  match newActif with
  | none => ctxSw oldPid 0 s
  | some n => do
    let nextPid ← caseDe (s.pid n)
    ctxSw oldPid nextPid { s with actif := some n }

theorem finProcessus_eq (s : St) : finProcessus s = (do
    let a ← deref s.actif
    let s ← finProcessusTable a s
    let oldPid ← caseDe (s.pid a)
    let (newActif, s) ← extractActivable s
    finProcessusSuite oldPid newActif { s with processAlive := predUint32 s.processAlive }) := rfl

theorem Execute.passe (h : Execute R a s) (hn : Bon s n) :
    Assure (finProcessusSuite a (some n) s) fun s' => Execute R n s' := by
  rw [finProcessusSuite]
  rw [Execute.caseDe_pid hn, ok_bind]
  exact h.ctxSw hn

theorem finProcessus_execute (h : Execute R a s) (hq : queueEmpty s = false) :
    Assure (finProcessus s) fun s' => ∃ n, Execute R n s' := by
  rw [finProcessus_eq, h.deref, ok_bind]
  refine Ensures.bind (Q := fun s₁ => Pointeurs (Bon s) R s.noyau s₁ ∧ queueEmpty s₁ = false) ?_ ?_
  · refine (finProcessusTable_pointeurs h.pointeurs h.bon).and (ensures_of_ok fun s₁ h₁ => ?_)
    obtain ⟨state, suiv, dl, dt, pere, fd, prf, rfl⟩ := finProcessusTable_eq h₁
    exact hq
  rintro s₁ ⟨h₁, hq₁⟩
  have he₁ := h.of_pointeurs h₁
  rw [Execute.caseDe_pid he₁.bon, ok_bind]
  refine Ensures.bind (extractActivable_pointeurs he₁.pointeurs) ?_
  rintro ⟨o, s₂⟩ ⟨h₂, hg, hnone⟩
  have h₃ := h₂.setProcessAlive (predUint32 s₂.processAlive)
  cases o with
  | none =>
    rw [hnone rfl] at hq₁
    cases hq₁
  | some n =>
    refine ((he₁.of_pointeurs h₃).passe ?_).post fun s' hs' => ⟨n, hs'⟩
    rw [bon_congr h₃.noyau]
    exact hg n rfl

/-! ## The calls -/

theorem Execute.setRetval (h : Execute R a s) (i : Slot) (v : Option Int) : Execute R a (s.setRetval i v) :=
  have hp : Pointeurs (Bon s) R s.noyau (s.setRetval i v) := { h.pointeurs with noyau := rfl }
  h.of_pointeurs hp

/-- A call that may only move the pointers. -/
theorem Execute.apres {α : Type} {x : Except Fault (α × St)} (h : Execute R a s)
    (hx : Assure x fun r => Pointeurs (Bon s) R s.noyau r.2) : Assure x fun r => ∃ n, Execute R n r.2 :=
  hx.post fun _ hr => ⟨a, h.of_pointeurs hr⟩

theorem sansIssue_execute {x : Except Fault St} (hx : Assure x fun s' => ∃ n, Execute R n s') :
    Assure (sansIssue x) fun r => ∃ n, Execute R n r.2 :=
  Ensures.bind hx fun _ hs => hs

theorem Execute.cpu (h : Execute R a s) : s.cpu.code = a := by
  obtain ⟨-, c, hc, hcode⟩ := h.bon
  rw [St.contexte, if_pos h.charge.symm, Option.some.injEq] at hc
  rw [hc, hcode]

/-- `process[x]` as `start` fills it. -/
theorem Execute.initSlot (h : Execute R a s) (name : String) {prio : Int} (hp : R x (toUint32 prio)) :
    Execute R a (initSlot x name prio s) ∧ Bon (initSlot x name prio s) x := by
  have hctx : ∀ y, (Pcsea.initSlot x name prio s).contexte y =
      if y = x ∧ y ≠ a then some ⟨x, .code⟩ else s.contexte y := by
    intro y
    show (if y = s.charge then some s.cpu else Function.update s.regs x (some ⟨x, .code⟩) y) = _
    rw [h.charge, St.contexte, h.charge]
    by_cases ha : y = a
    · rw [if_pos ha, if_neg (fun hy => hy.2 ha), if_pos ha]
    · by_cases hy : y = x
      · rw [if_neg ha, if_pos ⟨hy, ha⟩, hy, Function.update_self]
      · rw [if_neg ha, if_neg (fun h' => hy h'.1), if_neg ha, Function.update_of_ne hy]
  have hpid : ∀ y, s.pid y = y.val → (Pcsea.initSlot x name prio s).pid y = y.val := by
    intro y hy
    show Function.update s.pid x (x.val : Int) y = _
    by_cases hyx : y = x
    · rw [hyx, Function.update_self]
    · rw [Function.update_of_ne hyx, hy]
  have hbon : ∀ y, Bon s y → Bon (Pcsea.initSlot x name prio s) y := by
    rintro y ⟨hy, c, hc, hcode⟩
    refine ⟨hpid y hy, ?_⟩
    rw [hctx]
    split
    · next hyx => exact ⟨_, rfl, hyx.1.symm⟩
    · exact ⟨c, hc, hcode⟩
  have hx : Bon (Pcsea.initSlot x name prio s) x := by
    refine ⟨Function.update_self .., ?_⟩
    rw [hctx]
    by_cases hxa : x = a
    · exact ⟨s.cpu, by rw [if_neg (fun h' => h'.2 hxa), St.contexte, if_pos (hxa.trans h.charge.symm)], h.cpu.trans hxa.symm⟩
    · exact ⟨_, if_pos ⟨rfl, hxa⟩, rfl⟩
  -- The slot may be that of `actif` itself, whose code goes on running.
  refine ⟨⟨Pointeurs.rebase (c := (Pcsea.initSlot x name prio s).noyau) ?_ hbon rfl, h.actif, h.charge, hbon a h.bon, ?_, h.journal⟩, hx⟩
  · have hpt := h.pointeurs
    refine ⟨rfl, ?_, hpt.next, hpt.prev, update_pointe (v := none) hpt.suiv (by simp), hpt.endormiList, hpt.endormiTail, hpt.deadList,
      hpt.deadTail, update_pointe (v := none) hpt.premierFils (by simp), update_pointe (v := none) hpt.dernierFils (by simp),
      update_pointe (v := none) hpt.frereDroit (by simp), hpt.cells⟩
    intro i
    show R i (Function.update s.prio x (toUint32 prio) i)
    by_cases hi : i = x
    · rw [hi, Function.update_self]
      exact hp
    · rw [Function.update_of_ne hi]
      exact hpt.prio i
  · intro y c pid retvalp f hc hsu
    rw [hctx] at hc
    split at hc
    · obtain rfl := Option.some.inj hc
      cases hsu
    · exact hbon f (h.attente y c pid retvalp f hc hsu)

theorem ajouteFils_execute (h : Execute R a s) (hx : Bon s x) : Assure (ajouteFils x s) fun s' => Execute R a s' ∧ Bon s' x := by
  have hfin : ∀ {s'}, Pointeurs (Bon s) R s.noyau s' → Execute R a s' ∧ Bon s' x :=
    fun h' => ⟨h.of_pointeurs h', by rw [bon_congr h'.noyau]; exact hx⟩
  have hpt := h.pointeurs
  have h₀ := And.intro h hx
  unfold ajouteFils
  split
  · exact h₀
  split
  · exact hfin { hpt with
      premierFils := update_pointe hpt.premierFils (by rintro i ⟨⟩; exact hx)
      dernierFils := update_pointe hpt.dernierFils (by rintro i ⟨⟩; exact hx) }
  · refine Ensures.bind (deref_assure fun d hd => hd) fun d hd => ?_
    have h₁ := hpt.setFrereDroit d (v := some x) (by rintro i ⟨⟩; exact hx)
    exact hfin { h₁ with dernierFils := update_pointe h₁.dernierFils fun i hi => h₁.frereDroit d i hi }

theorem start_execute (ssize : Nat) (prio : Int) (name : String) (h : Execute R a s) (hp : ∀ i, R i (toUint32 prio)) :
    Assure (start ssize prio name s) fun r => ∃ n, Execute R n r.2 := by
  unfold start
  split
  · exact ⟨a, h⟩
  split
  · exact ⟨a, h⟩
  split
  · exact ⟨a, h⟩
  refine Ensures.bind (Q := fun r => Execute R a r.2) ?_ ?_
  · have h₁ := h.of_pointeurs (extractMort_pointeurs h.pointeurs)
    rw [prendSlot]
    generalize extractMort s = r at h₁
    obtain ⟨o, s₁⟩ := r
    cases o with
    | none => exact Ensures.bind (Q := fun _ => True) (assure_any _) fun _ _ => h₁
    | some x => exact Ensures.bind (Q := fun _ => True) (assure_any _) fun _ _ => h₁
  rintro ⟨x, s₁⟩ h₁
  dsimp only
  split
  · trivial
  obtain ⟨h₂, hx⟩ := h₁.initSlot name (hp x)
  refine Ensures.bind (ajouteFils_execute h₂ hx) ?_
  rintro s₃ ⟨h₃, hx₃⟩
  -- A child is ready and not elected, so `actif` runs on.
  have hfin : ∀ s₄, Execute R a s₄ → ∃ n, Execute R n { s₄ with processAlive := succUint32 s₄.processAlive } :=
    fun s₄ h₄ => ⟨a, h₄.of_pointeurs (h₄.pointeurs.setProcessAlive _)⟩
  split
  · exact Ensures.bind (insertActivable_pointeurs h₃.pointeurs hx₃) fun s₄ h₄ => hfin s₄ (h₃.of_pointeurs h₄)
  · exact hfin s₃ h₃

theorem sleepUntil_execute (h : Execute R a s) (time : ℚ) : Assure (sleepUntil time s) fun s' => ∃ n, Execute R n s' := by
  rw [sleepUntil, h.deref, ok_bind]
  exact Ensures.bind (insertEndormi_pointeurs h.pointeurs h.bon time) fun s₁ h₁ => ordonnance_execute (h.of_pointeurs h₁)

theorem tic_execute (h : Execute R a s) : Assure (ticPitClock s) fun s' => ∃ n, Execute R n s' := by
  obtain ⟨sec, min, hour, he⟩ := ticPitClock_eq s
  rw [he]
  generalize succUint32 s.nbTick = n
  exact ordonnance_execute (h.of_pointeurs { h.pointeurs with noyau := rfl })

theorem chprio_execute (h : Execute R a s) (hR : ∀ i (v : Int), 1 ≤ v → v ≤ MAX_PRIO → R i (toUint32 v)) (pid newprio : Int) :
    Assure (chprio pid newprio s) fun r => ∃ n, Execute R n r.2 := by
  unfold chprio
  split
  · exact ⟨a, h⟩
  next hv =>
  push Not at hv
  refine Ensures.bind (chprioTable_pointeurs h.pointeurs (fun x hx => ?_) pid fun i => hR i newprio hv.2.2.1 hv.2.2.2) ?_
  · rw [h.actif, Option.some.injEq] at hx
    exact hx ▸ h.bon
  rintro ⟨o, s₁⟩ h₁
  exact Ensures.bind (ordonnance_execute (h.of_pointeurs h₁)) fun s₂ h₂ => h₂

/-- The end of the running process: the ready queue is not empty. -/
theorem termine_execute (h : Execute R a s) (hq : queueEmpty s = false) (v : Option Int) {suite : Suite}
    (hs : ∀ pid retvalp f, suite ≠ .attente pid retvalp f) :
    Assure (finProcessus ((s.setRetval a v).setSuite suite)) fun s' => ∃ n, Execute R n s' :=
  finProcessus_execute ((h.setRetval a v).setSuite fun pid retvalp f hf => absurd hf (hs pid retvalp (some f))) hq

theorem bloque_execute (h : Execute R a s) (tmp : Slot) {suite : Suite} (hs : ∀ pid retvalp f, suite ≠ .attente pid retvalp f) :
    Assure (bloque tmp suite s) fun s' => ∃ n, Execute R n s' :=
  ordonnance_execute
    ((h.of_pointeurs (h.pointeurs.setState tmp _)).setSuite fun pid retvalp f hf => absurd hf (hs pid retvalp (some f)))

/-! ## The step -/

theorem waitpidFin_execute (h : Execute R a s) (pid : Int) (retvalp : Bool) (ret : Int) :
    Assure (waitpidFin pid retvalp ret s) fun r => ∃ n, Execute R n r.2 := by
  rw [waitpidFin, h.deref, ok_bind]
  split
  · exact ⟨a, h⟩
  split
  · exact ⟨a, h.of_pointeurs (h.pointeurs.setRetvalFils a none)⟩
  · trivial

theorem waitpid_execute (h : Execute R a s) (pid : Int) (retvalp : Bool) :
    Assure (waitpid pid retvalp s) fun r => ∃ n, Execute R n r.2 := by
  have hsuite : Execute R a (s.setSuite (.attente pid retvalp (s.premierFils a))) :=
    h.setSuite fun pid' retvalp' f hf => by
      simp only [Suite.attente.injEq] at hf
      exact h.pointeurs.premierFils a f hf.2.2
  have hfin : ∀ b : Bool, Assure (if b then if pid = 0 then waitpidFin pid retvalp (-1) s
      else .ok (.enCours, s.setSuite (.attente pid retvalp (s.premierFils a))) else .ok (.attendu pid retvalp (-1) none, s))
      fun r => ∃ n, Execute R n r.2 := by
    intro b
    split
    · split
      · exact waitpidFin_execute h pid retvalp (-1)
      · exact ⟨a, hsuite⟩
    · exact ⟨a, h⟩
  rw [waitpid, h.deref, ok_bind]
  dsimp only
  by_cases hp : pid < 0 ∧ s.premierFils a ≠ none
  · rw [if_pos hp]
    exact hfin true
  rw [if_neg hp]
  exact Ensures.bind (assure_any _) fun b _ => hfin b

theorem attente_execute (h : Execute R a s) (hR : ∀ i (v : Int), 1 ≤ v → v ≤ MAX_PRIO → R i (toUint32 v)) {pid : Int} {retvalp : Bool}
    {fils : Option Slot} (hs : s.cpu.suite = .attente pid retvalp fils) :
    Assure (pidDunFilsTermine pid retvalp fils s) fun r => ∃ n, Execute R n r.2 := by
  -- The child it looks at was one when the process stopped, and slots are not moved.
  have hfils : ∀ f, fils = some f → Bon s f := by
    rintro f rfl
    exact h.attente a s.cpu pid retvalp f (if_pos h.charge.symm) hs
  rw [pidDunFilsTermine, h.deref, ok_bind]
  dsimp only
  generalize (if pid < 0 then -1 else pid) = param
  refine Ensures.bind (deref_assure hfils) fun f hf => ?_
  split
  · refine Ensures.bind (insertMort_pointeurs (h.pointeurs.setRetvalFils a (s.retval f)) hf) fun s₁ h₁ => ?_
    have he₁ := h.of_pointeurs h₁
    split
    · refine ⟨a, he₁.setSuite fun pid' retvalp' g hg => ?_⟩
      simp only [Suite.attente.injEq] at hg
      exact he₁.pointeurs.premierFils a g hg.2.2
    · have h₂ : Execute R a (s₁.setSuite .code) := he₁.setSuite (by simp)
      exact waitpidFin_execute h₂ pid retvalp _
  · have hsuiv : ∀ g, (if s.frereDroit f = none then s.premierFils a else s.frereDroit f) = some g → Bon s g := by
      intro g hg
      split at hg
      · exact h.pointeurs.premierFils a g hg
      · exact h.pointeurs.frereDroit f g hg
    generalize (if s.frereDroit f = none then s.premierFils a else s.frereDroit f) = suivant at hsuiv
    have h₁ : Execute R a (s.setSuite (.attente pid retvalp suivant)) := h.setSuite fun pid' retvalp' g hg => by
      simp only [Suite.attente.injEq] at hg
      exact hsuiv g hg.2.2
    refine Ensures.bind (deref_assure hsuiv) fun g hg => ?_
    split
    · refine Ensures.bind (assure_any _) fun v _ => ?_
      exact Ensures.bind (chprio_execute h₁ hR _ (v + 1)) fun r hr => hr
    · exact ⟨a, h₁⟩

/-- What the priorities written by the calls satisfy. -/
def Donne (R : Slot → Nat → Prop) (e : Event) : Prop :=
  (∀ i (v : Int), 1 ≤ v → v ≤ MAX_PRIO → R i (toUint32 v)) ∧
    ∀ ssize prio name, e = .appel (.start ssize prio name) → ∀ i, R i (toUint32 prio)

theorem appelle_execute {c : Appel} (h : Execute R a s) (hR : Donne R (.appel c))
    (hq : Termine s (.appel c) → queueEmpty s = false) : Assure (appelle c s) fun r => ∃ n, Execute R n r.2 := by
  cases c with
  | start ssize prio name => exact start_execute ssize prio name h (hR.2 ssize prio name rfl)
  | exit retval =>
    refine sansIssue_execute ?_
    rw [exit, h.deref, ok_bind]
    exact termine_execute h (hq trivial) _ (by simp)
  | retour v =>
    refine sansIssue_execute ?_
    have ht : Assure (finProcessus ((s.setRetval a (s.retval a)).setSuite .retour)) fun s' => ∃ n, Execute R n s' :=
      termine_execute h (hq trivial) (s.retval a) (by simp)
    rwa [St.setRetval, Function.update_eq_self] at ht
  | kill pid =>
    show Assure (kill pid s) _
    unfold kill
    split
    · exact ⟨a, h⟩
    next hin =>
    rw [h.deref, ok_bind]
    split
    · next hpid => exact Ensures.bind (termine_execute h (hq ⟨hin, a, h.actif, hpid⟩) none (by simp)) fun s₁ h₁ => h₁
    refine Ensures.bind (Q := fun r => Pointeurs (Bon s) R s.noyau r.2) ?_ fun r hr => ⟨a, h.of_pointeurs hr⟩
    refine Ensures.bind (assure_any _) fun o _ => ?_
    cases o with
    | some tmp => exact Ensures.bind (queueDel_pointeurs (h.pointeurs.setState tmp _) tmp) fun s₁ h₁ => h₁
    | none =>
      refine Ensures.bind (sleepDel_pointeurs h.pointeurs) fun r hr => ?_
      dsimp only
      split <;> exact hr
  | chprio pid newprio => exact Ensures.bind (chprio_execute h hR.1 pid newprio) fun r hr => hr
  | waitpid pid retvalp => exact waitpid_execute h pid retvalp
  | dors nbrSecs => exact sansIssue_execute (sleepUntil_execute h _)
  | sleepUntil time => exact sansIssue_execute (sleepUntil_execute h _)
  | waitClock clock => exact sansIssue_execute (sleepUntil_execute h _)
  | pcreate count contenu =>
    have hm : Cellees (Bon s) (Pcsea.pcreate s.messages count contenu).2.heap := by
      unfold Pcsea.pcreate
      split
      · exact h.pointeurs.cells
      split
      · exact h.pointeurs.cells
      · exact h.pointeurs.cells
    exact ⟨a, h.of_pointeurs (h.pointeurs.setMessages hm)⟩
  | pdelete fid => exact h.apres (videFifo_pointeurs h.pointeurs .efface fid)
  | preset fid => exact h.apres (videFifo_pointeurs h.pointeurs .raz fid)
  | psend fid message =>
    show Assure (psend fid message s) _
    rw [psend, h.deref, ok_bind]
    refine Ensures.bind (psendEntree_pointeurs h.pointeurs.cells fid h.bon) ?_
    rintro ⟨o, m⟩ hm
    have h₁ := h.of_pointeurs (h.pointeurs.setMessages hm)
    cases o with
    | invalide => exact ⟨a, h₁⟩
    | bloque q => exact Ensures.bind (bloque_execute h₁ a (by simp)) fun s₁ hs => hs
    | passe q => exact h₁.apres (psendFin_pointeurs h₁.pointeurs q message a)
  | preceive fid =>
    show Assure (preceive fid s) _
    rw [preceive, h.deref, ok_bind]
    refine Ensures.bind (preceiveEntree_pointeurs h.pointeurs.cells fid h.bon) ?_
    rintro ⟨o, m⟩ hm
    have h₁ := h.of_pointeurs (h.pointeurs.setMessages hm)
    cases o with
    | invalide => exact ⟨a, h₁⟩
    | bloque q => exact Ensures.bind (bloque_execute h₁ a (by simp)) fun s₁ hs => hs
    | passe q => exact h₁.apres (preceiveFin_pointeurs h₁.pointeurs q a)

/-- A step keeps `actif`, the loaded block and the running code together, unless the last ready process is gone when the
running one ends. -/
theorem joue_execute (h : Execute R a s) (hR : Donne R e) (hq : Termine s e → queueEmpty s = false) :
    Assure (joue e s) fun r => ∃ n, Execute R n r.2 := by
  cases e with
  | appel c => exact appelle_execute h hR hq
  | tick => exact sansIssue_execute (tic_execute h)
  | suite =>
    have hcode : Execute R a (s.setSuite .code) := h.setSuite nofun
    show Assure (poursuit s) _
    unfold poursuit
    split
    · exact ⟨a, h⟩
    · next q message tmp _ => exact hcode.apres (psendFin_pointeurs hcode.pointeurs q message tmp)
    · next q tmp _ => exact hcode.apres (preceiveFin_pointeurs hcode.pointeurs q tmp)
    · next pid retvalp fils hs => exact attente_execute h hR.1 hs
    · exact ⟨a, h⟩
    · exact ⟨a, hcode⟩
    · trivial

/-! ## Runs -/

/-- No process ends while the ready queue is empty. -/
def Relayable (s : St) (e : Event) : Prop := Termine s e → queueEmpty s = false

/-- `actif` is the process whose block was loaded last and whose code runs; every `ctx_sw` saved into the block of the
process whose code was running. -/
def Coherent (s : St) : Prop :=
  ∃ a, s.actif = some a ∧ caseDe (s.pid a) = .ok s.charge ∧ s.cpu.code = a ∧ ∀ b ∈ s.journal, b.sauve = b.code

theorem Execute.coherent (h : Execute R a s) : Coherent s :=
  ⟨a, h.actif, by rw [Execute.caseDe_pid h.bon, h.charge], h.cpu, h.journal⟩

theorem boot_execute (hR : ∀ i, R i (boot.prio i)) : Execute R 0 boot := by
  have h := inv_boot fun _ _ => ()
  have hb : Bon boot 0 := by
    obtain ⟨q, e, d, hrep⟩ := h.rep
    exact ⟨hrep.pid (by simp [h.elu]), h.code 0 (by simp [h.elu])⟩
  have hs : ∀ x c, boot.contexte x = some c → c.suite = .code := by
    intro x c hc
    rw [boot_eq] at hc
    by_cases hx : x = 0 <;> simp [St.contexte, initSlot, St.zero, hx] at hc
    rw [← hc]
  refine ⟨⟨rfl, hR, ?_, ?_, ?_, ?_, ?_, ?_, ?_, ?_, ?_, ?_, ?_⟩, h.actif, h.charge, hb, ?_, ?_⟩
  case refine_12 =>
    intro x c pid retvalp f hc hsu
    rw [hs x c hc] at hsu
    cases hsu
  all_goals
    rw [boot_eq]
    intros
    simp_all [initSlot, St.zero, Messages.boot, Heap.cell]

/-- The running process is `actif`, in every run in which no process ends while the ready queue is empty. -/
theorem running_is_actif (hr : Parcours Relayable tr s) : Coherent s := by
  obtain ⟨a, h⟩ : ∃ a, Execute (fun _ _ => True) a s := by
    refine hr.inv (fun s => ∃ a, Execute (fun _ _ => True) a s) ⟨0, boot_execute fun _ => trivial⟩ ?_
    rintro s e r s' ⟨a, h⟩ ⟨hq, -, ho⟩
    exact (joue_execute h ⟨fun _ _ _ _ => trivial, fun _ _ _ _ _ => trivial⟩ hq).of_ok ho
  exact h.coherent

instance (s : St) (e : Event) : Decidable (Relayable s e) := inferInstanceAs (Decidable (_ → _))

/-- A process runs, is interrupted, and ends while process 0 is ready. -/
theorem running_is_actif_run : ∃ tr s, Parcours Relayable tr s ∧ (tr.length = 4 ∧ s.journal.length = 3) ∧ Coherent s := by
  obtain ⟨tr, s, hr, hq⟩ := deroule_any (P := Relayable) (Q := fun tr s => tr.length = 4 ∧ s.journal.length = 3) boot
    [.appel (.start 512 5 "p"), .tick, .tick, .appel (.exit 3)] (by decide +kernel)
  exact ⟨tr, s, hr, hq, running_is_actif hr⟩

/-- Process 0 sleeps when the last process ends: its block is loaded, and `actif` is still the process that ended. -/
theorem running_is_actif_fails : ¬∀ tr s, Parcours (fun _ _ => True) tr s → Coherent s := by
  intro h
  obtain ⟨tr, s, hr, ha, hc⟩ := deroule_any (P := fun _ _ => True)
    (Q := fun _ s => s.actif = some 1 ∧ caseDe (s.pid 1) ≠ .ok s.charge) boot
    [.appel (.start 512 5 "p"), .appel (.sleepUntil 100), .appel (.exit 3)] (by decide +kernel)
  obtain ⟨a, ha', hc', -⟩ := h tr s hr
  obtain rfl : 1 = a := Option.some.inj (ha.symm.trans ha')
  exact hc hc'

end Pcsea
