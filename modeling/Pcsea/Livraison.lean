import Pcsea.Sondage
/-!
# What `waitpid` delivers

A process that ends leaves a value, and the process that started it gets the
pid and the value from one poll. The value is lost when the child was killed
or returned, and the child itself when it was killed in its sleep or its slot
was taken: `Livrable` excludes these steps.
-/

namespace Pcsea

open Lib

variable {K : Type*} {f : Fin NBQUEUE → Bool → K} {s s' : St} {p p' : Slot → Place} {a c i n w x : Slot} {e : Event}
  {r : Issue} {l : List Slot} {tr : List (St × Event × Issue)} {pid : Int} {retvalp : Bool} {fils : Option Slot} {v : Int}

/-! ## Values and fathers, read off the trace -/

/-- The value with which `c` ends in a step. -/
def St.finit (s : St) (e : Event) (c : Slot) : Option Int :=
  match e with
  | .appel (.exit retval) => if s.actif = some c then some retval else none
  | .appel (.retour v) => if s.actif = some c then some v else none
  | .appel (.kill pid) =>
    if 0 < pid ∧ s.pid c = pid ∧ (s.actif = some c ∨ s.prete c = true ∨ c ∈ s.endormis) then some 0 else none
  | _ => none

/-- The values of the processes that have ended. -/
def valeurs (tr : List (St × Event × Issue)) : Slot → Option Int :=
  tr.foldl (fun g t c => if t.2.2 = .cree c then none else (t.1.finit t.2.1 c).or (g c)) fun _ => none

/-- `actif` starts process `x`: what `x` itself had started is no child of the new process. -/
def Issue.createur (actif : Option Slot) (g : Slot → Option Slot) : Issue → Slot → Option Slot
  | .cree x => fun c => if c = x then actif else if g c = some x then none else g c
  | _ => g

/-- The process that started each process. -/
def createurs (tr : List (St × Event × Issue)) : Slot → Option Slot :=
  tr.foldl (fun g t => t.2.2.createur t.1.actif g) fun _ => none

theorem valeurs_snoc : valeurs (tr ++ [(s, e, r)]) c = if r = .cree c then none else (s.finit e c).or (valeurs tr c) := by
  simp [valeurs]

theorem createurs_snoc : createurs (tr ++ [(s, e, r)]) = r.createur s.actif (createurs tr) := by
  simp [createurs]

/-! ## Ends -/

theorem Termine.finit (h : Inv f a s p) (ht : Termine s e) : s.finit e a ≠ none := by
  unfold Termine at ht
  split at ht
  · simp [St.finit, h.actif]
  · simp [St.finit, h.actif]
  · next pid =>
    obtain ⟨hin, b, hb, hpid⟩ := ht
    obtain rfl : a = b := h.actif_eq hb
    have hpos : 0 < pid := by omega
    simp [St.finit, h.actif, hpid, hpos]
  · exact ht.elim

/-- A process that `kill` finds does not live on. -/
theorem kill_tue (h : Inv f a s p) (hi : Inv f n s' p') (hpid : 0 < s.pid c) (hc : p c = .pret ∨ p c = .endormi)
    (ho : kill (s.pid c) s = .ok (r, s')) : p' c = .zombie ∨ p' c = .mort := by
  obtain ⟨q, l, d, hrep⟩ := h.rep
  obtain ⟨q', l', d', hrep'⟩ := hi.rep
  have hne : ∀ {x}, p x = .pret ∨ p x = .endormi → p x ≠ .libre := by
    rintro x (hx | hx) <;> simp [hx]
  have hpc := hrep.pid (hne hc)
  have hca : s.pid a ≠ s.pid c := by
    intro he
    obtain rfl := hrep.pid_inj (by simp [h.elu]) (hne hc) he
    simp [h.elu] at hc
  have hin : ¬(s.pid c ≤ 0 ∨ PROCESS_TABLE_SIZE - 1 < s.pid c) := by
    have hlt := c.isLt
    omega
  obtain ⟨v, s₁, p₁, hk, -, -, hcase⟩ := killAutre_spec (s.pid c) h hpid
  rw [kill, if_neg hin, h.deref, ok_bind, if_neg hca, hk, ok_bind] at ho
  obtain ⟨-, rfl⟩ := Prod.mk.inj (Except.ok.inj ho)
  -- Pids are distinct, so the process that was found is `c`.
  have hfin : ∀ x, s.pid x = s.pid c → p x = .pret ∨ p x = .endormi → Tue s s₁ x → p' c = .zombie ∨ p' c = .mort := by
    intro x hx hpx ht
    obtain rfl := hrep.pid_inj (hne hpx) (hne hc) hx
    obtain ⟨_, _, _, _, -, -, ⟨hst, -⟩ | ⟨hst, -⟩⟩ := ht.listes
    · exact .inl (hrep'.state_eq_zombie.1 hst)
    · exact .inr (hrep'.state_eq_mort.1 hst)
  rcases hcase with ⟨x, hx, hpx, -, -, ht⟩ | ⟨x, hx, hpx, -, -, ht⟩ | ⟨hno, -⟩
  · exact hfin x hx (.inl hpx) ht
  · exact hfin x hx (.inr hpx) ht
  · rcases hc with hc | hc
    · exact absurd hc (hno c rfl).1
    · exact absurd hc (hno c rfl).2

/-- What `kill` finds ends with value 0. -/
theorem Inv.finit_tue (h : Inv f a s p) (h0 : c ≠ 0) (hc : p c = .pret ∨ p c = .endormi) :
    s.finit (.appel (.kill (s.pid c))) c = some 0 := by
  obtain ⟨q, l, d, hrep⟩ := h.rep
  have hpos : 0 < s.pid c := h.pid_pos (by rcases hc with hc | hc <;> simp [hc]) h0
  exact if_pos ⟨hpos, rfl, .inr (hc.imp hrep.prete.2 hrep.endormis.2)⟩

/-- The processes that are no more are those that ended in a step. -/
theorem Effet.fini (h : Inv f a s p) (he : Effet f a s p e r s' n p') (ho : Pas s e r s') (hr : r ≠ .cree c) :
    (p' c = .zombie ∨ p' c = .mort) ↔ s.finit e c ≠ none ∨ p c = .zombie ∨ p c = .mort := by
  obtain ⟨q, l, d, hrep⟩ := h.rep
  constructor
  · intro hz
    have h0 := he.inv.ne_zero hz
    have hva := he.va c
    generalize hP : p' c = P at hva hz
    cases hva with
    | reste => exact .inr hz
    | finit hpc =>
      obtain rfl := h.seul c hpc
      exact .inl ((he.fin.1 hP).finit h)
    | tue hpc hk => exact .inl (by simp [hk, h.finit_tue h0 (.inl hpc)])
    | tueEndormi hpc hk => exact .inl (by simp [hk, h.finit_tue h0 (.inr hpc)])
    | recolte _ _ _ hpc => exact .inr (.inl hpc)
    | orphelin hpc => exact .inr (.inl hpc)
    | tourne _ hP => rcases hP with rfl | rfl <;> simp at hz
    | echeance _ _ _ hP => rcases hP with rfl | rfl <;> simp at hz
    | _ => simp at hz
  -- `kill` leaves its victim nowhere else.
  · rintro (hf | hz)
    · have hact : s.actif = some c → Termine s e → p' c = .zombie ∨ p' c = .mort := by
        intro hac ht
        obtain rfl : a = c := h.actif_eq hac
        exact .inl (he.fin.2 ht)
      unfold St.finit at hf
      split at hf
      · exact hact (by simpa using hf) trivial
      · exact hact (by simpa using hf) trivial
      · next pid =>
        simp only [ne_eq, ite_eq_right_iff, reduceCtorEq, imp_false, not_not] at hf
        obtain ⟨hpos, rfl, hf⟩ := hf
        rcases hf with hac | hc
        · have hlt := c.isLt
          have hpc := hrep.pid (i := a) (by simp [h.elu])
          obtain rfl : a = c := h.actif_eq hac
          exact hact hac ⟨by omega, a, hac, rfl⟩
        · exact kill_tue h he.inv hpos (hc.imp hrep.prete.1 hrep.endormis.1) ho.2
      · exact absurd rfl hf
    · exact ((he.va c).termine hr hz).1

/-! ## The condition -/

/-- No live process is the father of `c`. -/
def Orphelin (s : St) (c : Slot) : Prop := ∀ w, s.pere c = some w → ¬Vivant s w

/-- The child looked at, if it is got, left a value with `exit` when there is a `retvalp`, and only then. -/
def Encaisse (s : St) : Suite → Prop
  | .attente pid retvalp (some x) => s.state x = .zombie → pid < 0 ∨ s.pid x = pid → (s.retval x).isSome = retvalp
  | _ => True

/-- No child is lost to its father, and the value of one that is got is stored as it should. -/
def Livrable (s : St) : Event → Prop
  | .appel (.start ssize prio name) => ∀ x, Prend s x (.appel (.start ssize prio name)) → s.state x = .zombie → Orphelin s x
  | .appel (.kill cible) => ∀ c ∈ s.endormis, s.pid c = cible → Orphelin s c
  | .suite => Encaisse s s.cpu.suite
  | _ => True

/-- The steps of a run in which no child is lost. -/
def Livre (tr : List (St × Event × Issue)) (s : St) (e : Event) : Prop := Reprend tr s e ∧ Livrable s e

/-! ## One step -/

/-- Who has ended and with which value, and who waits for whom. -/
structure Succession (tr : List (St × Event × Issue)) (s : St) (p : Slot → Place) : Prop where
  fini : ∀ c, (p c = .zombie ∨ p c = .mort) ↔ valeurs tr c ≠ none
  valeur : ∀ c v, s.retval c = some v → valeurs tr c = some v
  createur : ∀ c w, s.pere c = some w → recueillis tr c = false → createurs tr c = some w
  pere : ∀ c w, createurs tr c = some w → Vivant s w → s.pere c = some w
  remis : ∀ c w, s.pere c = some w → Vivant s w → p c = .mort → recueillis tr c = true

/-- Who started whom does not change unless a process is started. -/
theorem createurs_autre (hr : ∀ x, r ≠ .cree x) : createurs (tr ++ [(s, e, r)]) = createurs tr := by
  rw [createurs_snoc]
  cases r with
  | cree x => exact absurd rfl (hr x)
  | _ => rfl

theorem recueillis_false (hr : r ≠ .cree c) (hc : recueillis (tr ++ [(s, e, r)]) c = false) : recueillis tr c = false := by
  by_contra hn
  rw [recueillis_mono hr (by simpa using hn)] at hc
  cases hc

/-- A father is kept as long as he lives. -/
theorem Effet.pere (he : Effet f a s p e r s' n p') (ha : ∃ l, Fratrie tr s a l) (hr : ∀ x, r ≠ .cree x) :
    s'.pere c = s.pere c ∨ s'.pere c = none ∧ s.pere c = some a ∧ p' a = .zombie := by
  cases he.parente with
  | meme hm => exact .inl (congrFun hm.pere c)
  | naissance x hx => exact absurd hx (hr x)
  | deuil _ _ hz _ _ _ hpere =>
    rcases hpere c with hp | ⟨hp, hm⟩
    · exact .inl hp
    · obtain ⟨la, hla⟩ := ha
      exact .inr ⟨hp, hla.propre c (hla.chaine.seg.met_iff.1 hm), hz⟩

theorem Inv.finit_eq_none (h : Inv f a s p) (hz : p c = .zombie ∨ p c = .mort) : s.finit e c = none := by
  obtain ⟨q, l, d, hrep⟩ := h.rep
  obtain ⟨hprete, -, hactif, -⟩ := h.termine hz
  have hdort : c ∉ s.endormis := by
    rw [hrep.endormis]
    rcases hz with hz | hz <;> simp [hz]
  unfold St.finit
  split <;> simp [hactif, hprete, hdort]

/-- A child dies to its living father only when he gets it. -/
theorem Effet.mort_remis (h : Inv f a s p) (he : Effet f a s p e r s' n p') (hl : Livrable s e) (hpere : s.pere c = some w)
    (hpere' : s'.pere c = some w) (hw : Vivant s w) (hm : p' c = .mort) :
    p c = .mort ∨ ∃ pid retvalp v, p c = .zombie ∧ r = .attendu pid retvalp (s.pid c) v := by
  obtain ⟨q, l, d, hrep⟩ := h.rep
  have hva := he.va c
  generalize hP : p' c = P at hva hm
  cases hva with
  | reste => exact .inl hm
  | tueEndormi hpc hk =>
    subst hk
    exact absurd hw (hl c (hrep.endormis.2 hpc) rfl w hpere)
  | recolte pid retvalp v hpc hr => exact .inr ⟨pid, retvalp, v, hpc, hr⟩
  | orphelin _ hn => simp [hpere'] at hn
  | tourne _ hP => rcases hP with rfl | rfl <;> cases hm
  | echeance _ _ _ hP => rcases hP with rfl | rfl <;> cases hm
  | _ => cases hm

theorem Effet.fini_valeurs (h : Inv f a s p) (he : Effet f a s p e r s' n p') (ho : Pas s e r s') (hj : Succession tr s p)
    (c : Slot) : (p' c = .zombie ∨ p' c = .mort) ↔ valeurs (tr ++ [(s, e, r)]) c ≠ none := by
  rw [valeurs_snoc]
  by_cases hr : r = .cree c
  · simp [hr, (he.cree c hr).2.1]
  · rw [he.fini h ho hr, hj.fini, if_neg hr, ne_eq, ne_eq, ne_eq, Option.or_eq_none_iff, ← not_and_or]

theorem Effet.valeur (h : Inv f a s p) (he : Effet f a s p e r s' n p') (hj : Succession tr s p) (hv : s'.retval c = some v) :
    valeurs (tr ++ [(s, e, r)]) c = some v := by
  have hreste : r ≠ .cree c → s.retval c = some v → valeurs (tr ++ [(s, e, r)]) c = some v := by
    intro hr hv
    have hval := hj.valeur c v hv
    rw [valeurs_snoc, if_neg hr, h.finit_eq_none ((hj.fini c).2 (by simp [hval])), Option.none_or, hval]
  rw [he.retval] at hv
  split at hv
  · cases hv
  · next hr =>
    split at hv
    · next hca =>
      obtain ⟨rfl, hz⟩ := hca
      have ht := he.fin.1 hz
      unfold Event.valeur at hv
      split at hv
      · obtain rfl := Option.some.inj hv
        rw [valeurs_snoc, if_neg hr]
        simp [St.finit, h.actif]
      · cases hv
      · exact hreste hr hv
    · exact hreste hr hv

/-- The families when `a` starts `x`. -/
theorem Effet.succession_cree (h : Inv f a s p) (he : Effet f a s p e (.cree x) s' n p') (ho : Pas s e (.cree x) s')
    (hna : Naissance s s' a x) (hd : Reprise tr s a x) (hl : Livrable s e) (hj : Succession tr s p) :
    Succession (tr ++ [(s, e, .cree x)]) s' p' := by
  have hviv : ∀ {w}, w ≠ x → Vivant s' w → Vivant s w := fun hw => he.vivant h fun hx => hw (Issue.cree.inj hx).symm
  have hperex : s'.pere x = some a := by rw [hna.pere, Function.update_self]
  have hpere : ∀ {c}, c ≠ x → s'.pere c = s.pere c := fun hc => by rw [hna.pere, Function.update_of_ne hc]
  have hrec : ∀ {c}, c ≠ x → recueillis (tr ++ [(s, e, .cree x)]) c = recueillis tr c := fun hc => by
    rw [recueillis_snoc, Issue.recueille, Function.update_of_ne hc]
  have hcre : ∀ c, createurs (tr ++ [(s, e, .cree x)]) c =
      if c = x then some a else if createurs tr c = some x then none else createurs tr c := fun c => by
    rw [createurs_snoc, Issue.createur, h.actif]
  refine ⟨he.fini_valeurs h ho hj, fun c v => he.valeur h hj, fun c w hc hr => ?_, fun c w hc hw => ?_, fun c w hc hw hm => ?_⟩
  -- `pere` still names `x` in the children of the process that had the slot before, which were all awaited.
  · by_cases hcx : c = x
    · subst hcx
      rw [hcre, if_pos rfl, ← hperex, hc]
    · rw [hpere hcx] at hc
      rw [hrec hcx] at hr
      have hwx : createurs tr c ≠ some x := by
        rw [hj.createur c w hc hr]
        rintro ⟨⟩
        rw [hd.orphelins c hc] at hr
        cases hr
      rw [hcre, if_neg hcx, if_neg hwx, hj.createur c w hc hr]
  · rw [hcre] at hc
    split at hc
    · next hcx => rw [hcx, hperex, hc]
    · next hcx =>
      split at hc
      · cases hc
      · next hwx =>
        have hw' : w ≠ x := by
          rintro rfl
          exact hwx hc
        rw [hpere hcx]
        exact hj.pere c w hc (hviv hw' hw)
  · have hcx : c ≠ x := by
      rintro rfl
      rw [(he.cree c rfl).2.1] at hm
      cases hm
    rw [hrec hcx]
    have hc₀ := hc
    rw [hpere hcx] at hc₀
    by_cases hwx : w = x
    · exact hd.orphelins c (hwx ▸ hc₀)
    · rcases he.mort_remis h hl hc₀ hc (hviv hwx hw) hm with hm | ⟨_, _, _, -, hr⟩
      · exact hj.remis c w hc₀ (hviv hwx hw) hm
      · cases hr

theorem Effet.succession (h : Inv f a s p) (he : Effet f a s p e r s' n p') (ho : Pas s e r s')
    (hc : ∀ x, r = .cree x → Naissance s s' a x ∧ Reprise tr s a x) (hf : Familles tr s) (hl : Livrable s e)
    (hj : Succession tr s p) : Succession (tr ++ [(s, e, r)]) s' p' := by
  -- A process that is created has no history; the others keep theirs.
  by_cases hr : ∃ x, r = .cree x
  · obtain ⟨x, rfl⟩ := hr
    exact he.succession_cree h ho (hc x rfl).1 (hc x rfl).2 hl hj
  · have hr : ∀ x, r ≠ .cree x := fun x hx => hr ⟨x, hx⟩
    have hpere : ∀ {c w}, s'.pere c = some w → s.pere c = some w := by
      intro c w hcw
      rcases he.pere (c := c) (hf a (.inl h.actif)) hr with hp | ⟨hp, -⟩
      · rwa [hp] at hcw
      · simp [hp] at hcw
    refine ⟨he.fini_valeurs h ho hj, fun c v => he.valeur h hj, fun c w hcw hrec => ?_, fun c w hcw hw => ?_,
      fun c w hcw hw hm => ?_⟩
    · rw [createurs_autre hr]
      exact hj.createur c w (hpere hcw) (recueillis_false (hr c) hrec)
    · rw [createurs_autre hr] at hcw
      have hp := hj.pere c w hcw (he.vivant h (hr w) hw)
      rcases he.pere (c := c) (hf a (.inl h.actif)) hr with hp' | ⟨-, hpa, hz⟩
      · rw [hp', hp]
      · obtain rfl : a = w := Option.some.inj (hpa.symm.trans hp)
        have hv := he.inv.vivant_iff.1 hw
        rw [hz] at hv
        cases hv
    · have hws := he.vivant h (hr w) hw
      rcases he.mort_remis h hl (hpere hcw) hcw hws hm with hm | ⟨pid, retvalp, v, hz, rfl⟩
      · exact recueillis_mono (hr c) (hj.remis c w (hpere hcw) hws hm)
      · obtain ⟨q, l, d, hrep⟩ := h.rep
        rw [recueillis_snoc, Issue.recueille, hrep.pid (by simp [hz])]
        simp

/-! ## What the father meets -/

/-- A child that has ended and was not awaited is there to be got. -/
theorem Succession.recueillable (hj : Succession tr s p) (h : Inv f a s p) (hc : createurs tr c = some w) (hw : Vivant s w)
    (hv : valeurs tr c ≠ none) (hrec : recueillis tr c = false) (hpid : pid < 0 ∨ pid = c.val) :
    p c = .zombie ∧ Recueillable s w pid c := by
  have hpere := hj.pere c w hc hw
  have hz : p c = .zombie := by
    refine ((hj.fini c).2 hv).resolve_right fun hm => ?_
    rw [hj.remis c w hpere hw hm] at hrec
    cases hrec
  obtain ⟨q, l, d, hrep⟩ := h.rep
  have hpc := hrep.pid (i := c) (by simp [hz])
  exact ⟨hz, h.recueillable.2 ⟨hpere, hpid.imp_right fun hp => hpc.trans hp.symm, .inr hz⟩⟩

/-- Slots that were not started have pid 0. -/
theorem Inv.pid_eq (h : Inv f a s p) (hc : p c ≠ .libre) (h0 : c ≠ 0) : s.pid i = (c.val : Int) ↔ i = c := by
  obtain ⟨q, l, d, hrep⟩ := h.rep
  constructor
  · intro hi
    have hn := hrep.named i
    split at hn
    · have hv : c.val = 0 := by omega
      exact absurd (Fin.ext hv) h0
    · have hv : i.val = c.val := by omega
      exact Fin.ext hv
  · rintro rfl
    exact hrep.pid hc

theorem Inv.find_pid (h : Inv f a s p) (hc : p c ≠ .libre) (h0 : c ≠ 0) :
    (l.find? fun i => s.pid i = (c.val : Int)) = if c ∈ l then some c else none := by
  simp only [h.pid_eq hc h0]
  split
  · next hm =>
    cases hq : l.find? fun i => i = c with
    | none => simpa using List.find?_eq_none.1 hq c hm
    | some y => simpa using List.find?_some hq
  · next hm =>
    rw [List.find?_eq_none]
    rintro i hi hic
    exact hm (by simpa [of_decide_eq_true hic] using hi)

/-- A wait for a child that is there begins. -/
theorem Reperes.waitpid (hj : Reperes tr s p) (h : Inv f a s p) (hl : Fratrie tr s a l) (hc : Recueillable s a pid c)
    (hz : p c = .zombie) : waitpid pid retvalp s = .ok (.enCours, s.setSuite (.attente pid retvalp (s.premierFils a))) := by
  have hcl := hj.mem h hl hc
  have h0 := h.ne_zero (.inl hz)
  have hpc := h.pid_recueillable hc
  have hpid : pid < 0 ∨ pid = (c.val : Int) := hc.2.1.imp_right fun hp => hp.symm.trans hpc
  have hne : pid ≠ 0 := by
    have hpos : c.val ≠ 0 := fun hv => h0 (Fin.ext hv)
    omega
  rw [waitpid_eq h hl, if_pos, if_neg hne]
  rcases hpid with hpid | rfl
  · refine .inl ⟨hpid, fun hn => ?_⟩
    rw [hl.chaine.head_none.1 hn] at hcl
    cases hcl
  · obtain ⟨q, ls, d, hrep⟩ := h.rep
    have hst : s.state c ≠ .mort := fun hm => by
      rw [hrep.state_eq_mort.1 hm] at hz
      cases hz
    right
    rw [h.find_pid (by simp [hz]) h0, if_pos hcl]
    simp [hst]

/-- A child that was awaited is not found again. -/
theorem Reperes.waitpid_recueilli (hj : Reperes tr s p) (h : Inv f a s p) (hl : Fratrie tr s a l) (hrec : recueillis tr c = true) :
    Pcsea.waitpid c.val retvalp s = .ok (.attendu c.val retvalp (-1) none, s) := by
  have hm := hj.mort c hrec
  have h0 := h.ne_zero (.inr hm)
  obtain ⟨q, ls, d, hrep⟩ := h.rep
  rw [waitpid_eq h hl, if_neg]
  rintro (⟨hneg, -⟩ | hf)
  · omega
  · rw [h.find_pid (by simp [hm]) h0] at hf
    split at hf
    · simp [hrep.state_eq_mort.2 hm] at hf
    · cases hf

/-! ## Runs -/

/-- What holds after a run in which no child is lost. -/
def Livres (tr : List (St × Event × Issue)) (s : St) : Prop :=
  ∃ a p, Inv melange a s p ∧ Familles tr s ∧ Reperes tr s p ∧ Succession tr s p

theorem succession_boot : Succession [] boot placesBoot := by
  have hboot : boot.retval = (fun _ => none) ∧ boot.pere = fun _ => none := by
    rw [boot_eq]
    constructor <;> funext i <;> by_cases hi : i = 0 <;> simp [initSlot, St.zero, hi]
  refine ⟨fun c => ?_, fun c v hv => ?_, fun c w hc => ?_, fun c w hc => ?_, fun c w hc => ?_⟩
  · by_cases hc : c = 0 <;> simp [placesBoot, valeurs, hc]
  · simp [hboot.1] at hv
  · simp [hboot.2] at hc
  · simp [createurs] at hc
  · simp [hboot.2] at hc

theorem livres_spec (hr : Parcours Sain tr s) (hc : Along Livre [] tr) : Livres tr s := by
  refine hr.inv_along Livres hc ⟨0, _, inv_boot _, familles_boot, reperes_boot.1, succession_boot⟩ ?_
  rintro tr s e r s' ⟨a, p, hi, hf, hj, hsu⟩ hce ⟨hs, ho⟩
  obtain ⟨n, p', he, hn, hf'⟩ := reprend_pas hi hf hs hce.1 ho
  exact ⟨n, p', he.inv, hf', he.reperes hi ho hn hf hj, he.succession hi ho hn hf hce.2 hsu⟩

/-- What the processes of a run get from `waitpid`. -/
structure Livraison (tr : List (St × Event × Issue)) (s : St) : Prop where
  /-- a call that returns a pid returns that of a child of the caller that has ended, for the first time, and stores its value -/
  rendu : ∀ tr₁ t e pid retvalp ret ecrit tr₂, tr = tr₁ ++ (t, e, .attendu pid retvalp ret ecrit) :: tr₂ → ret ≠ -1 →
    ∃ w c v, t.actif = some w ∧ ret = (c.val : Int) ∧ (pid < 0 ∨ pid = ret) ∧ createurs tr₁ c = some w ∧
      valeurs tr₁ c = some v ∧ recueillis tr₁ c = false ∧ ecrit = if retvalp then some v else none
  /-- the slot of a child that has ended is not used again before -/
  garde : ∀ tr₁ t e x tr₂ w, tr = tr₁ ++ (t, e, .cree x) :: tr₂ → createurs tr₁ x = some w → Vivant t w →
    valeurs tr₁ x ≠ none → recueillis tr₁ x = true
  /-- a wait for it begins -/
  attend : ∀ w c (pid : Int) retvalp, s.actif = some w → createurs tr c = some w → valeurs tr c ≠ none → recueillis tr c = false →
    pid < 0 ∨ pid = c.val → waitpid pid retvalp s = .ok (.enCours, s.setSuite (.attente pid retvalp (s.premierFils w)))
  /-- and ends after as many polls as the table has slots, also one that had begun before the child ended -/
  aboutit : ∀ tr₁ t e r tr₂ w c (pid : Int) retvalp fils, tr = tr₁ ++ (t, e, r) :: tr₂ → createurs tr₁ c = some w → Vivant t w →
    valeurs tr₁ c ≠ none → recueillis tr₁ c = false → t.contexte w = some ⟨w, .attente pid retvalp fils⟩ →
    pid < 0 ∨ pid = c.val → (∀ t' e', (t', e', .cree w) ∉ (t, e, r) :: tr₂) →
    PROCESS_TABLE_SIZE ≤ sondages w ((t, e, r) :: tr₂) → Rendu w pid retvalp ((t, e, r) :: tr₂)
  /-- the calls after that find nothing -/
  epuise : ∀ w c retvalp, s.actif = some w → recueillis tr c = true →
    waitpid c.val retvalp s = .ok (.attendu c.val retvalp (-1) none, s)

/-- The poll of `a` that gets a child. -/
theorem Livres.rendu {ret : Int} {ecrit : Option Int} (h : Livres tr s) (hs : Sain s e) (hc : Livre tr s e)
    (ho : Pas s e (.attendu pid retvalp ret ecrit) s') (hret : ret ≠ -1) :
    ∃ w c v, s.actif = some w ∧ ret = (c.val : Int) ∧ (pid < 0 ∨ pid = ret) ∧ createurs tr c = some w ∧
      valeurs tr c = some v ∧ recueillis tr c = false ∧ ecrit = if retvalp then some v else none := by
  obtain ⟨a, p, hi, hf, hj, hsu⟩ := h
  obtain ⟨n, p', he⟩ := pas_spec hi hs (separe_melange s e) ho
  rcases he.attendu _ _ _ _ rfl with ⟨-, hm, -⟩ | ⟨c, rfl, hsuite, hz, -, hpid, hr, hecrit, -⟩
  · exact absurd hm hret
  obtain ⟨q, ls, d, hrep⟩ := hi.rep
  have hpc := hrep.pid (i := c) (by simp [hz])
  obtain ⟨l, hl⟩ := hf a (.inl hi.actif)
  obtain ⟨y, hy, hyl⟩ := hj.pointeur a _ _ _ (.inl hi.actif) (by rw [hi.contexte_actif, hsuite])
  obtain rfl := Option.some.inj hy
  rw [hl.fils] at hyl
  have hrec : recueillis tr c = false := by
    by_contra hn
    rw [hj.mort c (by simpa using hn)] at hz
    cases hz
  obtain ⟨v, hv⟩ := Option.ne_none_iff_exists'.1 ((hsu.fini c).1 (.inl hz))
  refine ⟨a, c, v, hi.actif, hr.trans hpc, ?_, hsu.createur c a (hl.propre c hyl) hrec, hv, hrec, ?_⟩
  · exact hpid.imp_right fun hp => by rw [hr, hp]
  · have hlivre := hc.2
    simp only [Livrable, Encaisse, hsuite] at hlivre
    have hsome := hlivre (hrep.state_eq_zombie.2 hz) hpid
    -- What is stored is `retval`, which only `exit` has set.
    rw [hecrit]
    cases hu : s.retval c with
    | none =>
      rw [hu] at hsome
      simp [← hsome]
    | some u =>
      rw [hu] at hsome
      have hval := hsu.valeur c u hu
      rw [hv] at hval
      simp [← hsome, hval]

/-- The slot that `start` takes. -/
theorem Livres.garde (h : Livres tr s) (hs : Sain s e) (hc : Livre tr s e) (ho : Pas s e (.cree x) s')
    (hcr : createurs tr x = some w) (hw : Vivant s w) (hv : valeurs tr x ≠ none) : recueillis tr x = true := by
  obtain ⟨a, p, hi, hf, hj, hsu⟩ := h
  obtain ⟨n, p', he⟩ := pas_spec hi hs (separe_melange s e) ho
  obtain ⟨-, hprend⟩ := pas_naissance hi hs (he.cree x rfl).2.2 ho
  have hpere := hsu.pere x w hcr hw
  rcases (hsu.fini x).2 hv with hz | hm
  · obtain ⟨q, ls, d, hrep⟩ := hi.rep
    have hlivre := hc.2
    unfold Prend at hprend
    split at hprend
    · exact absurd hw (hlivre x hprend (hrep.state_eq_zombie.2 hz) w hpere)
    · exact hprend.elim
  · exact hsu.remis x w hpere hw hm

/-- When slots are only used again where they may be and no child is lost, `waitpid` gives each process the children it
started that have ended, each once and with its value, and no other; and no poll fails that stores what it may. -/
theorem waitpid_delivers (hr : Parcours Sain tr s) (hc : Along Livre [] tr) :
    Livraison tr s ∧ (Livrable s .suite → ∀ w pid retvalp fils, s.actif = some w →
      s.contexte w = some ⟨w, .attente pid retvalp fils⟩ → ∃ r s', Pas s .suite r s') := by
  obtain ⟨a, p, hi, hf, hj, hsu⟩ := livres_spec hr hc
  obtain ⟨l, hl⟩ := hf a (.inl hi.actif)
  refine ⟨⟨fun tr₁ t e pid retvalp ret ecrit tr₂ ht hret => ?_, fun tr₁ t e x tr₂ w ht hcr hw hv => ?_,
    fun w c pid retvalp hw hcr hv hrec hpid => ?_,
    fun tr₁ t e r tr₂ w c pid retvalp fils ht hcr hw hv hrec hx hpid hno hn => ?_, fun w c retvalp hw hrec => ?_⟩,
    fun hls w pid retvalp fils hw hx => ?_⟩
  -- Each part is about one step, so about the run up to it.
  · obtain ⟨s'', hr₁, ⟨hs, ho⟩, -, -⟩ := hr.cut ht
    rw [ht, along_append] at hc
    exact (livres_spec hr₁ hc.1).rendu hs hc.2.1 ho hret
  · obtain ⟨s'', hr₁, ⟨hs, ho⟩, -, -⟩ := hr.cut ht
    rw [ht, along_append] at hc
    exact (livres_spec hr₁ hc.1).garde hs hc.2.1 ho hcr hw hv
  · obtain rfl : a = w := hi.actif_eq hw
    obtain ⟨hz, hcr'⟩ := hsu.recueillable hi hcr (.inl hw) hv hrec hpid
    exact hj.waitpid hi hl hcr' hz
  · obtain ⟨s'', hr₁, hst, -, hr₂⟩ := hr.cut ht
    rw [ht, along_append] at hc
    obtain ⟨b, p₁, hi₁, hf₁, hj₁, hsu₁⟩ := livres_spec hr₁ hc.1
    obtain ⟨q, ls, d, hrep⟩ := hi₁.rep
    obtain ⟨hz, hcr'⟩ := hsu₁.recueillable hi₁ hcr hw hv hrec hpid
    exact hj₁.rendu hi₁ hf₁ hw hx hcr' (hrep.state_eq_zombie.2 hz) (hr₂.cons hst) (hc.2.mono fun _ _ _ h => h.1) hno hn
  · obtain rfl : a = w := hi.actif_eq hw
    exact hj.waitpid_recueilli hi hl hrec
  · obtain rfl : a = w := hi.actif_eq hw
    refine (hj.sonde hi hf hx).resolve_right ?_
    rintro ⟨hret, x, rfl, hcr, hz, hv⟩
    have hsuite := hi.suite_eq hx
    simp only [Livrable, Encaisse, hsuite] at hls
    have hsome := hls hz hcr.2.1
    rw [hret, Option.isSome_eq_false_iff, Option.isNone_iff_eq_none] at hsome
    exact hv hsome

instance (s : St) (c : Slot) : Decidable (Orphelin s c) := inferInstanceAs (Decidable (∀ w, s.pere c = some w → ¬Vivant s w))

instance (s : St) : (u : Suite) → Decidable (Encaisse s u)
  | .attente pid retvalp (some x) => inferInstanceAs (Decidable (s.state x = .zombie → pid < 0 ∨ s.pid x = pid →
      (s.retval x).isSome = retvalp))
  | .attente _ _ none | .code | .psend _ _ _ | .preceive _ _ | .exit | .kill | .retour => inferInstanceAs (Decidable True)

instance (s : St) : (e : Event) → Decidable (Livrable s e)
  | .appel (.start ssize prio name) => inferInstanceAs (Decidable (∀ x, Prend s x (.appel (.start ssize prio name)) →
      s.state x = .zombie → Orphelin s x))
  | .appel (.kill cible) => inferInstanceAs (Decidable (∀ c ∈ s.endormis, s.pid c = cible → Orphelin s c))
  | .suite => inferInstanceAs (Decidable (Encaisse s s.cpu.suite))
  | .appel (.exit _) | .appel (.retour _) | .appel (.chprio _ _) | .appel (.waitpid _ _) | .appel (.dors _)
  | .appel (.sleepUntil _) | .appel (.waitClock _) | .appel (.pcreate _ _) | .appel (.pdelete _) | .appel (.preset _)
  | .appel (.psend _ _) | .appel (.preceive _) | .tick => inferInstanceAs (Decidable True)

instance (tr : List (St × Event × Issue)) (s : St) (e : Event) : Decidable (Livre tr s e) :=
  inferInstanceAs (Decidable (_ ∧ _))

/-- Two children, one that exits with a value and one that returns: process 0 gets both. -/
theorem waitpid_delivers_run :
    ∃ tr s, Parcours Sain tr s ∧ Along Livre [] tr ∧
      (tr.map fun t => t.2.2) = [.cree 1, .cree 2, .enCours, .enCours, .enCours, .enCours, .attendu 1 true 1 (some 3),
        .enCours, .enCours, .attendu 2 false 2 none] ∧
      Livraison tr s ∧ (Livrable s .suite → ∀ w pid retvalp fils, s.actif = some w →
        s.contexte w = some ⟨w, .attente pid retvalp fils⟩ → ∃ r s', Pas s .suite r s') := by
  obtain ⟨tr, s, hr, hc, hx⟩ := deroule_any (P := Sain)
    (Q := fun tr _ => Along Livre [] tr ∧ (tr.map fun t => t.2.2) = [.cree 1, .cree 2, .enCours, .enCours, .enCours, .enCours,
      .attendu 1 true 1 (some 3), .enCours, .enCours, .attendu 2 false 2 none]) boot
    [.appel (.start 512 5 "p"), .appel (.start 512 5 "q"), .tick, .appel (.exit 3), .appel (.retour 8),
      .appel (.waitpid 1 true), .suite, .appel (.waitpid 2 false), .suite, .suite] (by decide +kernel)
  exact ⟨tr, s, hr, hc, hx, waitpid_delivers hr hc⟩

/-- Process 0 kills a ready child and awaits it: nothing is stored. -/
theorem waitpid_delivers_fails : ¬∀ tr s, Parcours (fun _ _ => True) tr s → Livraison tr s := by
  intro h
  obtain ⟨tr, s, hr, hx⟩ := deroule_any (P := fun _ _ => True)
    (Q := fun tr _ => tr.getLast?.map (fun t => t.2.2) = some (.attendu 1 true 1 none)) boot
    [.appel (.start 512 1 "p"), .appel (.kill 1), .appel (.waitpid 1 true), .suite] (by decide +kernel)
  obtain ⟨⟨t, e, r⟩, ht, hrt⟩ := Option.map_eq_some_iff.1 hx
  obtain ⟨tr₁, rfl⟩ := List.getLast?_eq_some_iff.1 ht
  obtain rfl : r = .attendu 1 true 1 none := hrt
  obtain ⟨w, c, v, -, -, -, -, -, -, hecrit⟩ := (h _ s hr).rendu tr₁ t e 1 true 1 none [] rfl (by decide)
  cases hecrit

end Pcsea
