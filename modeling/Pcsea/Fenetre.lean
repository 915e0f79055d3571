import Pcsea.Maintien
/-!
# The calls of `ordonnance` and the sleeper they look at

A step calls `ordonnance` at most once, and `wake_process` then looks at the
first sleeper only. `wait_clock(c)` has it woken at `c / CLOCKFREQ`, a tick
before `c`: `HorsFenetre` says that no call falls between the two.
-/

namespace Pcsea

open Lib

variable {s s' s₁ : St} {a x : Slot} {e : Event} {r : Issue} {tr : List (St × Event × Issue)} {c : Nat}

/-! ## The calls of `ordonnance` -/

/-- Step `e` calls `ordonnance` in state `s₁`. -/
inductive Planifie (s : St) : Event → St → Prop
  | tick : Planifie s .tick (tictac s)
  | sommeil {c : Appel} {time : ℚ} {a : Slot} {s₁ : St} : c.reveil = some time → s.actif = some a →
    insertEndormi a time s = .ok s₁ → Planifie s (.appel c) s₁
  | chprio {pid newprio v : Int} {s₁ : St} : Valable pid newprio →
    chprioTable pid newprio s = .ok (v, s₁) → Planifie s (.appel (.chprio pid newprio)) s₁
  | psend {fid message : Int} {a : Slot} {q : Fin NBQUEUE} {messages : Messages Slot} : s.actif = some a →
    psendEntree s.messages fid a = .ok (.bloque q, messages) →
    Planifie s (.appel (.psend fid message)) ((St.setState { s with messages } a .endormi).setSuite (.psend q message a))
  | preceive {fid : Int} {a : Slot} {q : Fin NBQUEUE} {messages : Messages Slot} : s.actif = some a →
    preceiveEntree s.messages fid a = .ok (.bloque q, messages) →
    Planifie s (.appel (.preceive fid)) ((St.setState { s with messages } a .endormi).setSuite (.preceive q a))
  /-- `waitpid` raises the priority of the child it looks at -/
  | attente {pid param v w : Int} {retvalp : Bool} {a f g : Slot} {s₁ : St} :
    s.cpu.suite = .attente pid retvalp (some f) → s.actif = some a → param = (if pid < 0 then -1 else pid) →
    ¬(s.state f = .zombie ∧ (param = -1 ∨ s.pid f = param)) → suivant s a f = some g →
    param = s.pid g ∧ s.prio g < s.prio a →
    getprio param (s.setSuite (.attente pid retvalp (some g))) = .ok v → Valable param (v + 1) →
    chprioTable param (v + 1) (s.setSuite (.attente pid retvalp (some g))) = .ok (w, s₁) → Planifie s .suite s₁

theorem chprio_planifie {pid newprio v w : Int} (hv : Valable pid newprio)
    (ht : chprioTable pid newprio s = .ok (v, s₁)) (ho : chprio pid newprio s = .ok (w, s')) : ordonnance s₁ = .ok s' := by
  rw [Valable] at hv
  rw [chprio, if_neg hv, ht, ok_bind] at ho
  obtain ⟨h₂, -⟩ := bind_answer_eq_ok.1 ho
  exact h₂

theorem chprio_appelle {pid newprio : Int} {c : Int × St} (hv : Valable pid newprio) (ho : chprio pid newprio s = .ok c) :
    ∃ s₁, chprioTable pid newprio s = .ok (c.1, s₁) := by
  rw [Valable] at hv
  rw [chprio, if_neg hv] at ho
  obtain ⟨⟨v, s₁⟩, h₁, ho⟩ := bind_eq_ok.1 ho
  obtain ⟨s₂, -, ho⟩ := bind_eq_ok.1 ho
  obtain rfl := Except.ok.inj ho
  exact ⟨s₁, h₁⟩

/-- The step ends with that call. -/
theorem Planifie.fin (h : Planifie s e s₁) (ho : joue e s = .ok (r, s')) : ordonnance s₁ = .ok s' := by
  cases h with
  | tick => exact (sansIssue_eq_ok.1 ho).1
  -- `sleep_until` inserts the caller and schedules.
  | @sommeil c time a _ hc ha hi =>
    have hsleep : sleepUntil time s = .ok s' := by
      cases c <;> first | (cases hc; exact (sansIssue_eq_ok.1 ho).1) | cases hc
    rwa [sleepUntil, ha, deref_some, ok_bind, hi, ok_bind] at hsleep
  | chprio hv ht =>
    obtain ⟨⟨w, s₂⟩, h₂, hres⟩ := bind_eq_ok.1 ho
    obtain ⟨-, rfl⟩ := Prod.mk.inj (Except.ok.inj hres)
    exact chprio_planifie hv ht h₂
  | psend ha he =>
    change Pcsea.psend _ _ s = _ at ho
    obtain ⟨tmp, htmp, ho⟩ := bind_eq_ok.1 ho
    obtain rfl := Option.some.inj (ha.symm.trans (deref_eq_ok.1 htmp))
    rw [he, ok_bind] at ho
    obtain ⟨h₂, -⟩ := bind_answer_eq_ok.1 ho
    exact h₂
  | preceive ha he =>
    change Pcsea.preceive _ s = _ at ho
    obtain ⟨tmp, htmp, ho⟩ := bind_eq_ok.1 ho
    obtain rfl := Option.some.inj (ha.symm.trans (deref_eq_ok.1 htmp))
    rw [he, ok_bind] at ho
    obtain ⟨h₂, -⟩ := bind_answer_eq_ok.1 ho
    exact h₂
  -- The round over the children is not finished: `test_it()` is a `chprio` of the caller.
  | @attente pid param v w retvalp a f g _ hs ha hparam hz hg hpr hv hok ht =>
    change poursuit s = _ at ho
    unfold poursuit at ho
    rw [hs] at ho
    change pidDunFilsTermine pid retvalp (some f) s = _ at ho
    rw [pidDunFilsTermine, ha, ← hparam] at ho
    simp only [deref_some, ok_bind] at ho
    rw [if_neg hz, show (if s.frereDroit f = none then s.premierFils a else s.frereDroit f) = some g from hg, deref_some, ok_bind] at ho
    rw [if_pos (by exact hpr), hv, ok_bind] at ho
    obtain ⟨⟨w', s₂⟩, h₂, hres⟩ := bind_eq_ok.1 ho
    obtain ⟨-, rfl⟩ := Prod.mk.inj (Except.ok.inj hres)
    exact chprio_planifie hok ht h₂

/-- And every step that calls `ordonnance` has such a call. -/
theorem planifie_of_appelle (h : AppelleOrdonnance s e) (ho : joue e s = .ok (r, s')) : ∃ s₁, Planifie s e s₁ := by
  cases e with
  | tick => exact ⟨_, .tick⟩
  | suite =>
    change s.cpu.suite.Eleve s at h
    unfold Suite.Eleve at h
    split at h
    · next pid retvalp f hs =>
      obtain ⟨a, ha, g, hg, hz, hpr, v, hv, hok⟩ := h
      change poursuit s = _ at ho
      unfold poursuit at ho
      rw [hs] at ho
      change pidDunFilsTermine pid retvalp (some f) s = _ at ho
      rw [pidDunFilsTermine, show s.actif = some a from ha] at ho
      generalize hparam : (if pid < 0 then (-1 : Int) else pid) = param at hz hpr hv hok ho
      have hgp : getprio param (s.setSuite (.attente pid retvalp (some g))) = .ok v := toOption_eq_some.1 hv
      simp only [deref_some, ok_bind] at ho
      rw [if_neg hz, show (if s.frereDroit f = none then s.premierFils a else s.frereDroit f) = some g from hg, deref_some,
        ok_bind, if_pos (by exact hpr), hgp, ok_bind] at ho
      obtain ⟨c, hc, -⟩ := bind_eq_ok.1 ho
      obtain ⟨s₁, h₁⟩ := chprio_appelle hok hc
      exact ⟨s₁, .attente hs ha hparam.symm hz hg hpr hgp hok h₁⟩
    · exact h.elim
  | appel c =>
    have hsommeil {time : ℚ} (hc : c.reveil = some time) (hs : sansIssue (sleepUntil time s) = .ok (r, s')) :
        ∃ s₁, Planifie s (.appel c) s₁ := by
      obtain ⟨a, ha, hs⟩ := bind_eq_ok.1 (sansIssue_eq_ok.1 hs).1
      obtain ⟨s₁, h₁, -⟩ := bind_eq_ok.1 hs
      exact ⟨s₁, .sommeil hc (deref_eq_ok.1 ha) h₁⟩
    cases c with
    | dors nbrSecs => exact hsommeil rfl ho
    | sleepUntil time => exact hsommeil rfl ho
    | waitClock clock => exact hsommeil rfl ho
    | chprio pid newprio =>
      obtain ⟨c, hc, -⟩ := bind_eq_ok.1 ho
      obtain ⟨s₁, h₁⟩ := chprio_appelle h hc
      exact ⟨s₁, .chprio h h₁⟩
    | psend fid message =>
      obtain ⟨q, hq, hn⟩ := h
      change Pcsea.psend _ _ s = _ at ho
      obtain ⟨a, ha, ho⟩ := bind_eq_ok.1 ho
      obtain ⟨⟨entree, m⟩, he, -⟩ := bind_eq_ok.1 ho
      obtain rfl : entree = .bloque q := (psendEntree_bloque he).2 ⟨hq, hn⟩
      exact ⟨_, .psend (deref_eq_ok.1 ha) he⟩
    | preceive fid =>
      obtain ⟨q, hq, hn⟩ := h
      change Pcsea.preceive _ s = _ at ho
      obtain ⟨a, ha, ho⟩ := bind_eq_ok.1 ho
      obtain ⟨⟨entree, m⟩, he, -⟩ := bind_eq_ok.1 ho
      obtain rfl : entree = .bloque q := (preceiveEntree_bloque he).2 ⟨hq, hn⟩
      exact ⟨_, .preceive (deref_eq_ok.1 ha) he⟩
    | _ => exact absurd rfl h

/-- `ordonnance` is called with the hours of the end of the step. -/
theorem Planifie.heures (h : Planifie s e s₁) : s₁.heures = e.heures s := by
  cases h with
  | tick => rfl
  | sommeil hc ha hi =>
    rw [Event.heures, ha, hc]
    exact congrArg Prod.snd ((insertEndormi_muet _).of_ok hi)
  | chprio hv ht => exact (congrArg Prod.snd ((chprioTable_muet rfl _ _).of_ok ht)).trans (heures_appel rfl).symm
  | psend ha he => exact (heures_appel (c := .psend _ _) rfl).symm
  | preceive ha he => exact (heures_appel (c := .preceive _) rfl).symm
  | attente _ _ _ _ _ _ _ _ ht => exact congrArg Prod.snd ((chprioTable_muet rfl _ _).of_ok ht)

/-- `nb_tick` when step `e` calls `ordonnance`. -/
def heure (s : St) : Event → Nat
  | .tick => succUint32 s.nbTick
  | _ => s.nbTick

theorem heures_nbTick : (e.heures s).2.1 = heure s e := by
  cases e with
  | tick => exact tictac_nbTick s
  | suite => rfl
  | appel c =>
    simp only [Event.heures]
    split <;> rfl

theorem Planifie.nbTick (h : Planifie s e s₁) : s₁.nbTick = heure s e := by
  rw [← heures_nbTick, ← h.heures]
  rfl

theorem Planifie.appelle (h : Planifie s e s₁) : AppelleOrdonnance s e := by
  cases h with
  | tick => trivial
  | @sommeil c _ _ _ hc =>
    cases c <;> first | exact Option.some_ne_none _ | cases hc
  | chprio hv => exact hv
  | psend _ he => exact ⟨_, (psendEntree_bloque he).1 rfl⟩
  | preceive _ he => exact ⟨_, (preceiveEntree_bloque he).1 rfl⟩
  | attente hs ha hparam hz hg hpr hv hok =>
    rw [AppelleOrdonnance, hs]
    subst hparam
    exact ⟨_, ha, _, hg, hz, hpr, _, toOption_eq_some.2 hv, hok⟩

/-! ## The states and the sleep list -/

/-- The sleeper that `wake_process` looks at. -/
def St.dormeur (s : St) : Option Slot := if s.endormiTail = none then none else s.endormiList

/-- What the operations on the ready queue leave alone. -/
def St.couche (s : St) : (Slot → Etat) × Option Slot × Option Slot := (s.state, s.endormiList, s.endormiTail)

theorem dormeur_congr (h : s'.couche = s.couche) : s'.dormeur = s.dormeur := by
  simp only [St.couche, Prod.mk.injEq] at h
  rw [St.dormeur, St.dormeur, h.2.1, h.2.2]

theorem setNext_couche (l : Maillon) (v : Option Maillon) : (s.setNext l v).couche = s.couche := rfl

theorem setPrev_couche (l : Maillon) (v : Option Maillon) : (s.setPrev l v).couche = s.couche := rfl

theorem tictac_couche (s : St) : (tictac s).couche = s.couche := by
  unfold tictac changeClock
  dsimp only
  split
  · split <;> rfl
  · rfl

theorem queueAdd_couche : Assure (queueAdd x s) fun s' => s'.couche = s.couche := by
  refine Ensures.bind (assure_any _) fun _ _ => Ensures.bind (assure_any _) fun cur _ => ?_
  refine Ensures.bind (assure_any _) fun p _ => (ensures_ok _).2 ?_
  simp only [setPrev_couche, setNext_couche]

theorem queueDel_couche : Assure (queueDel x s) fun s' => s'.couche = s.couche := by
  refine Ensures.bind (assure_any _) fun _ _ => Ensures.bind (assure_any _) fun p _ => ?_
  refine Ensures.bind (assure_any _) fun n _ => (ensures_ok _).2 ?_
  simp only [setPrev_couche, setNext_couche]

theorem queueOut_couche : Assure (queueOut s) fun r => r.2.couche = s.couche := by
  unfold queueOut
  dsimp only
  split
  · exact rfl
  · refine Ensures.bind (assure_any _) fun p _ => Ensures.bind (assure_any _) fun p' _ => ?_
    refine Ensures.bind (assure_any _) fun e _ => (ensures_ok _).2 ?_
    simp only [setPrev_couche, setNext_couche]

/-- Neither of the loops of `chprio` puts anybody to sleep or wakes anybody. -/
theorem chprioTable_couche (pid newprio : Int) : Assure (chprioTable pid newprio s) fun r => r.2.couche = s.couche := by
  have hact (n : Nat) (cur : Maillon) (oldprio : Int) (s : St) :
      Assure (chprioActivables pid newprio n cur oldprio s) fun r => r.2.couche = s.couche := by
    induction n generalizing cur oldprio s with
    | zero => trivial
    | succ n ih =>
      refine Ensures.bind (assure_any _) fun o _ => ?_
      cases o with
      | head => exact rfl
      | elem i =>
        dsimp only
        split
        · refine Ensures.bind queueDel_couche fun s₁ h₁ => Ensures.bind queueAdd_couche fun s₂ h₂ => ?_
          exact (ih _ _ _).post fun r hr => hr.trans (h₂.trans h₁)
        · exact ih _ _ _
  have hend (n : Nat) (ptr : Option Slot) (oldprio : Int) (s : St) :
      Assure (chprioEndormis pid newprio n ptr oldprio s) fun r => r.2.couche = s.couche := by
    induction n generalizing ptr oldprio s with
    | zero => cases ptr <;> first | exact rfl | trivial
    | succ n ih =>
      cases ptr with
      | none => exact rfl
      | some t =>
        unfold chprioEndormis
        split
        · exact (ih _ _ _).post fun r hr => hr
        · exact ih _ _ _
  refine Ensures.bind (assure_any _) fun a _ => ?_
  split
  · exact rfl
  · exact Ensures.bind (hact _ _ _ _) fun r h₁ => (hend _ _ _ _).post fun r' hr => hr.trans h₁

/-! ## Who is woken -/

theorem insertActivable_state (h : insertActivable x s = .ok s') : s'.state = Function.update s.state x .activable :=
  congrArg Prod.fst (queueAdd_couche.of_ok h)

theorem insertActivable_suiv (h : insertActivable x s = .ok s') : s'.suiv x = none := by
  obtain ⟨u, -, h⟩ := bind_eq_ok.1 h
  obtain ⟨cur, -, h⟩ := bind_eq_ok.1 h
  obtain ⟨b, -, h⟩ := bind_eq_ok.1 h
  obtain rfl := Except.ok.inj h
  exact Function.update_self ..

theorem extractEndormi_premier {c : Slot × St} (h : extractEndormi s = .ok c) : s.endormiList = some c.1 ∧ c.2.state = s.state := by
  unfold extractEndormi at h
  dsimp only at h
  split at h
  · obtain ⟨s₁, h₁, h⟩ := bind_eq_ok.1 h
    obtain ⟨y, hy, h⟩ := bind_eq_ok.1 h
    obtain rfl := Except.ok.inj h
    obtain rfl := Except.ok.inj h₁
    exact ⟨deref_eq_ok.1 hy, rfl⟩
  · obtain ⟨y, hy, h⟩ := bind_eq_ok.1 h
    obtain ⟨s₁, h₁, h⟩ := bind_eq_ok.1 h
    obtain ⟨z, hz, h⟩ := bind_eq_ok.1 h
    obtain rfl := Except.ok.inj h
    obtain rfl := Except.ok.inj h₁
    exact ⟨deref_eq_ok.1 hz, rfl⟩

/-- In any state `wake_process` makes its sleeper ready when it is due, and nobody else. -/
theorem wakeProcess_etats (ho : wakeProcess s = .ok s') :
    (∃ x, s.dormeur = some x ∧ s.timeToWake x ≤ s.nbTick ∧ s'.state = Function.update s.state x .activable) ∨
      (∀ x, s.dormeur = some x → (s.nbTick : ℚ) < s.timeToWake x) ∧ s'.state = s.state := by
  unfold wakeProcess at ho
  cases hl : s.endormiList with
  | none =>
    rw [hl] at ho
    obtain rfl := Except.ok.inj ho
    exact .inr ⟨by simp [St.dormeur, hl], rfl⟩
  | some y =>
    rw [hl] at ho
    unfold wakeProcessLoop at ho
    by_cases hd : s.timeToWake y ≤ s.nbTick ∧ s.endormiTail ≠ none
    · rw [if_pos hd] at ho
      obtain ⟨⟨z, s₁⟩, h₁, hloop⟩ := bind_eq_ok.1 ho
      obtain ⟨s₂, h₂, hloop⟩ := bind_eq_ok.1 hloop
      obtain ⟨hz, hst⟩ := extractEndormi_premier h₁
      obtain rfl : z = y := Option.some.inj (hz.symm.trans hl)
      -- The link that the loop follows has been set to NULL.
      have hres : wakeProcessLoop PROCESS_TABLE_SIZE none s₂ = .ok s' := insertActivable_suiv h₂ ▸ hloop
      obtain rfl := Except.ok.inj hres
      refine .inl ⟨z, by rw [St.dormeur, if_neg hd.2, hl], hd.1, ?_⟩
      rw [insertActivable_state h₂, hst]
    · rw [if_neg hd] at ho
      obtain rfl := Except.ok.inj ho
      refine .inr ⟨fun x hx => ?_, rfl⟩
      rw [St.dormeur] at hx
      split at hx
      · cases hx
      · next ht =>
        obtain rfl := Option.some.inj (hl.symm.trans hx)
        exact not_le.1 fun hle => hd ⟨hle, ht⟩

theorem elit_state : Assure (elit a s) fun r => r.2.state = s.state := by
  refine Ensures.bind (assure_any _) fun top _ => ?_
  cases top with
  | none => exact rfl
  | some t =>
    dsimp only
    split
    · unfold extractActivable
      split
      · exact rfl
      · refine Ensures.bind queueOut_couche fun r hr => Ensures.bind (assure_any _) fun i _ => ?_
        exact congrArg Prod.fst hr
    · exact rfl

/-- The election makes nobody ready who sleeps. -/
theorem ordonnanceSuite_dort (ho : ordonnanceSuite s = .ok s') (hx : s.state x = .endormi) : s'.state x = .endormi := by
  obtain ⟨a, -, ho⟩ := bind_eq_ok.1 ho
  obtain ⟨oldPid, -, ho⟩ := bind_eq_ok.1 ho
  obtain ⟨⟨o, s₁⟩, h₁, ho⟩ := bind_eq_ok.1 ho
  replace h₁ : s₁.state = s.state := elit_state.of_ok h₁
  rw [← h₁] at hx
  cases o with
  | none =>
    obtain rfl := Except.ok.inj ho
    exact hx
  | some n =>
    obtain ⟨nextPid, -, ho⟩ := bind_eq_ok.1 ho
    have hfin {s₂ : St} (h₂ : s₂.state x = .endormi) (ho : ctxSw oldPid nextPid { s₂ with actif := some n } = .ok s') :
        s'.state x = .endormi := by
      obtain ⟨c, -, ho⟩ := bind_eq_ok.1 ho
      obtain rfl := Except.ok.inj ho
      exact h₂
    dsimp only at ho
    split at ho
    · next hc =>
      have hxa : x ≠ a := by
        rintro rfl
        exact hc.1 hx
      obtain ⟨s₂, h₂, ho⟩ := bind_eq_ok.1 ho
      exact hfin (by rwa [insertActivable_state h₂, Function.update_of_ne hxa]) ho
    · exact hfin hx ho

theorem ordonnance_dort (ho : ordonnance s = .ok s') (hx : s.state x = .endormi)
    (hd : s.dormeur = some x → (s.nbTick : ℚ) < s.timeToWake x) : s'.state x = .endormi := by
  obtain ⟨s₁, h₁, ho⟩ := bind_eq_ok.1 ho
  refine ordonnanceSuite_dort ho ?_
  rcases wakeProcess_etats h₁ with ⟨y, hy, hle, hst⟩ | ⟨-, hst⟩
  · have hxy : x ≠ y := by
      rintro rfl
      exact not_lt.2 hle (hd hy)
    rw [hst, Function.update_of_ne hxy, hx]
  · rw [hst, hx]

/-! ## The sleeper looked at, from the state before the step -/

/-- A caller that sleeps comes first when the list is empty or its first sleeper is to wake later. -/
def premierDormeur (s : St) (e : Event) : Option Slot :=
  match s.actif, e.reveil with
  | some a, some time =>
    if s.endormiTail = none then some a else s.endormiList.map fun x => if time < s.timeToWake x then a else x
  | _, _ => s.dormeur

theorem insertEndormiLoop_tete {n : Nat} {isHead : Bool} {ptr prec : Option Slot} (hp : isHead = true → ptr = s.endormiList) :
    Assure (insertEndormiLoop x n isHead ptr prec s) fun r => r.2.state = s.state ∧ r.2.endormiTail = s.endormiTail ∧
      r.2.endormiList = if isHead then s.endormiList.map fun y => if s.timeToWake x < s.timeToWake y then x else y
        else s.endormiList := by
  -- Past the head, the head is not written any more.
  have hpasse (n : Nat) (ptr prec : Option Slot) : Assure (insertEndormiLoop x n false ptr prec s) fun r =>
      r.2.state = s.state ∧ r.2.endormiTail = s.endormiTail ∧ r.2.endormiList = s.endormiList := by
    induction n generalizing ptr prec with
    | zero => cases ptr <;> first | exact ⟨rfl, rfl, rfl⟩ | trivial
    | succ n ih =>
      cases ptr with
      | none => exact ⟨rfl, rfl, rfl⟩
      | some t =>
        unfold insertEndormiLoop
        split
        · rw [if_neg (by simp)]
          exact Ensures.bind (assure_any _) fun p _ => ⟨rfl, rfl, rfl⟩
        · rw [if_neg (by simp)]
          exact Ensures.bind (assure_any _) fun p _ => ih _ _
  cases isHead with
  | false => simpa using hpasse n ptr prec
  | true =>
    obtain rfl := hp rfl
    cases hl : s.endormiList with
    | none => cases n <;> exact ⟨rfl, rfl, by simpa using hl⟩
    | some t =>
      cases n with
      | zero => trivial
      | succ n =>
        unfold insertEndormiLoop
        by_cases ht : s.timeToWake x < s.timeToWake t
        · rw [if_pos ht, if_pos rfl]
          exact ⟨rfl, rfl, by simp [ht, St.setSuiv]⟩
        · rw [if_neg ht, if_pos rfl]
          refine (hpasse _ _ _).post ?_
          rintro r ⟨h₁, h₂, h₃⟩
          exact ⟨h₁, h₂, by simp [h₃, hl, ht]⟩

/-- A caller that sleeps, in its place. -/
theorem insertEndormi_tete {time : ℚ} (h : insertEndormi x time s = .ok s') :
    s'.state = Function.update s.state x .endormi ∧
      s'.dormeur = if s.endormiTail = none then some x else s.endormiList.map fun y => if time < s.timeToWake y then x else y := by
  unfold insertEndormi at h
  dsimp only at h
  change (if s.endormiTail = none then _ else _) = _ at h
  split at h
  · next ht =>
    obtain rfl := Except.ok.inj h
    rw [if_pos ht]
    exact ⟨rfl, rfl⟩
  · next ht =>
    rw [if_neg ht]
    set s₀ : St := St.setState { s with timeToWake := Function.update s.timeToWake x time } x .endormi with hs₀
    obtain ⟨⟨b, s₁⟩, h₁, h⟩ := bind_eq_ok.1 h
    obtain ⟨hst, htl, hhd⟩ := (insertEndormiLoop_tete fun _ => rfl).of_ok h₁
    rw [if_pos rfl] at hhd
    have hhd' : s₁.endormiList = s.endormiList.map fun y => if time < s.timeToWake y then x else y := by
      rw [hhd]
      refine Option.map_congr fun y _ => ?_
      show (if Function.update s.timeToWake x time x < Function.update s.timeToWake x time y then x else y) = _
      rw [Function.update_self]
      by_cases hyx : y = x
      · simp [hyx]
      · rw [Function.update_of_ne hyx]
    -- The tail is not NULL at the end.
    have hfin {s₂ : St} (hc : s₂.state = s₁.state ∧ s₂.endormiList = s₁.endormiList) (h : (do
        let t ← deref s₂.endormiTail
        .ok (s₂.setSuiv t none)) = .ok s') : s'.state = Function.update s.state x .endormi ∧
          s'.dormeur = s.endormiList.map fun y => if time < s.timeToWake y then x else y := by
      obtain ⟨t, htt, h⟩ := bind_eq_ok.1 h
      obtain rfl := Except.ok.inj h
      refine ⟨hc.1.trans hst, ?_⟩
      show (if s₂.endormiTail = none then none else s₂.endormiList) = _
      rw [if_neg (by simp [deref_eq_ok.1 htt]), hc.2, hhd']
    dsimp only at h
    split at h
    · exact hfin ⟨rfl, rfl⟩ h
    · obtain ⟨t, -, h⟩ := bind_eq_ok.1 h
      rw [ok_bind] at h
      refine hfin ?_ h
      exact ⟨rfl, rfl⟩

theorem Planifie.dormeur (h : Planifie s e s₁) : s₁.dormeur = premierDormeur s e := by
  have hsans {c : Appel} (hc : c.reveil = none) : premierDormeur s (.appel c) = s.dormeur := by
    rw [premierDormeur, show (Event.appel c).reveil = none from hc]
    cases s.actif <;> rfl
  cases h with
  | tick =>
    rw [dormeur_congr (tictac_couche s), premierDormeur]
    cases s.actif <;> rfl
  | @sommeil c time a _ hc ha hi => rw [(insertEndormi_tete hi).2, premierDormeur, ha, show (Event.appel c).reveil = some time from hc]
  | chprio hv ht => rw [dormeur_congr ((chprioTable_couche _ _).of_ok ht), hsans rfl]
  | psend ha he => exact (hsans rfl).symm
  | preceive ha he => exact (hsans rfl).symm
  | attente hs ha hparam hz hg hpr hv hok ht =>
    rw [dormeur_congr ((chprioTable_couche _ _).of_ok ht), premierDormeur]
    cases s.actif <;> rfl

/-- Who sleeps, or calls to sleep, is asleep when `ordonnance` is called. -/
theorem Planifie.endormi (h : Planifie s e s₁) (hx : s.state x = .endormi ∨ s.actif = some x ∧ e.reveil ≠ none) :
    s₁.state x = .endormi := by
  have hmaj {a : Slot} (hx : s.state x = .endormi ∨ x = a) : Function.update s.state a .endormi x = .endormi := by
    by_cases hxa : x = a
    · rw [hxa, Function.update_self]
    · rw [Function.update_of_ne hxa]
      exact hx.resolve_right hxa
  have hsans (he : e.reveil = none) : s.state x = .endormi := hx.resolve_right fun h => h.2 he
  cases h with
  | tick =>
    rw [show (tictac s).state = s.state from congrArg Prod.fst (tictac_couche s)]
    exact hsans rfl
  | sommeil hc ha hi =>
    rw [(insertEndormi_tete hi).1]
    exact hmaj (hx.imp_right fun h => Option.some.inj (h.1.symm.trans ha))
  | chprio hv ht =>
    rw [show s₁.state = s.state from congrArg Prod.fst ((chprioTable_couche _ _).of_ok ht)]
    exact hsans rfl
  | psend ha he => exact hmaj (.inl (hsans rfl))
  | preceive ha he => exact hmaj (.inl (hsans rfl))
  | attente hs ha hparam hz hg hpr hv hok ht =>
    rw [show s₁.state = s.state from congrArg Prod.fst ((chprioTable_couche _ _).of_ok ht)]
    exact hsans rfl

/-! ## The wait -/

/-- The tick given to `wait_clock`. -/
def Event.clock : Event → Option Nat
  | .appel (.waitClock clock) => some clock
  | _ => none

/-- The tick `x` waits for once `e` is taken in `s`, when it waited for `t` before. -/
def attendApres (x : Slot) (t : Option Nat) (s : St) (e : Event) : Option Nat :=
  if s.actif = some x ∧ e.reveil ≠ none then e.clock else t

/-- The tick that process `x` gave to `wait_clock`, if that was the last call by which it went to sleep. -/
def attendue (x : Slot) (tr : List (St × Event × Issue)) : Option Nat :=
  tr.foldl (fun t y => if y.2.2 = .cree x then none else attendApres x t y.1 y.2.1) none

theorem attendue_snoc :
    attendue x (tr ++ [(s, e, r)]) = if r = .cree x then none else attendApres x (attendue x tr) s e := by
  simp [attendue]

theorem appelle_of_reveil {time : ℚ} (h : e.reveil = some time) : AppelleOrdonnance s e := by
  cases e with
  | appel c =>
    cases c <;> first | exact Option.some_ne_none _ | cases h
  | suite => cases h
  | tick => cases h

theorem heures_of_reveil {time : ℚ} (ha : s.actif = some x) (h : e.reveil = some time) : (e.heures s).1 x = time := by
  cases e with
  | appel c =>
    rw [Event.heures, ha, show c.reveil = some time from h]
    exact Function.update_self ..
  | suite => cases h
  | tick => cases h

theorem heures_autre (h : ¬(s.actif = some x ∧ e.reveil ≠ none)) : (e.heures s).1 x = s.timeToWake x := by
  cases e with
  | tick => exact congrFun (tictac_timeToWake s) x
  | suite => rfl
  | appel c =>
    simp only [Event.heures]
    split
    · next b time hb hrev =>
      have hxb : x ≠ b := by
        rintro rfl
        exact h ⟨hb, by simp [Event.reveil, hrev]⟩
      exact Function.update_of_ne hxb ..
    · rfl

theorem reveil_of_clock (h : e.clock = some c) : e.reveil = some (c / CLOCKFREQ : Nat) := by
  unfold Event.clock at h
  split at h
  · cases h
    rfl
  · cases h

/-- The tick written for `x`. -/
theorem attendApres_heures {t : Option Nat} (ht : ∀ c, t = some c → s.timeToWake x = (c / CLOCKFREQ : Nat))
    (h : attendApres x t s e = some c) : (e.heures s).1 x = (c / CLOCKFREQ : Nat) := by
  unfold attendApres at h
  split at h
  · next ha => exact heures_of_reveil ha.1 (reveil_of_clock h)
  · next ha => rw [heures_autre ha, ht c h]

/-- A process that `start` has not replaced since it called `wait_clock(c)` is to be woken at `c / CLOCKFREQ`. -/
theorem attendue_timeToWake (hr : Parcours (fun _ _ => True) tr s) (h : attendue x tr = some c) :
    s.timeToWake x = (c / CLOCKFREQ : Nat) := by
  have hinv := hr.inv_trace (fun tr s => ∀ c, attendue x tr = some c → s.timeToWake x = (c / CLOCKFREQ : Nat)) nofun ?_
  · exact hinv c h
  · rintro tr s e r s' - ih ⟨-, -, ho⟩ c hc
    rw [attendue_snoc] at hc
    split at hc
    · cases hc
    · rw [show s'.timeToWake = (e.heures s).1 from congrArg Prod.fst (joue_heures ho)]
      exact attendApres_heures ih hc

/-- When the step calls `ordonnance`, the sleeper looked at, if it waits for tick `c`, is not between `c / CLOCKFREQ` and `c`. -/
def HorsFenetre (past : List (St × Event × Issue)) (s : St) (e : Event) : Prop :=
  AppelleOrdonnance s e → ∀ x ∈ premierDormeur s e, ∀ c ∈ attendApres x (attendue x past) s e,
    ¬(c / CLOCKFREQ ≤ heure s e ∧ heure s e < c)

/-- Who waits for tick `c` is to be woken at `c / CLOCKFREQ`. -/
theorem attendApres_echeance (hr : Parcours (fun _ _ => True) tr s) (hp : Planifie s e s₁)
    (hc : attendApres x (attendue x tr) s e = some c) : s₁.timeToWake x = (c / CLOCKFREQ : Nat) := by
  rw [show s₁.timeToWake = (e.heures s).1 from congrArg Prod.fst hp.heures]
  exact attendApres_heures (fun _ h => attendue_timeToWake hr h) hc

/-- Then a sleeper that is due has waited for its tick. -/
theorem HorsFenetre.echu (h : HorsFenetre tr s e) (hr : Parcours (fun _ _ => True) tr s) (hp : Planifie s e s₁)
    (hx : s₁.dormeur = some x) (hd : s₁.timeToWake x ≤ s₁.nbTick) (hc : attendApres x (attendue x tr) s e = some c) :
    c ≤ s₁.nbTick := by
  have hno := h hp.appelle x (hp.dormeur ▸ hx) c hc
  rw [attendApres_echeance hr hp hc, hp.nbTick] at hd
  rw [hp.nbTick]
  by_contra hlt
  exact hno ⟨by exact_mod_cast hd, by omega⟩

/-- It sleeps on until then. -/
theorem HorsFenetre.dort (h : HorsFenetre tr s e) (hr : Parcours (fun _ _ => True) tr s) (ho : joue e s = .ok (r, s'))
    (he : AppelleOrdonnance s e) (hx : s.state x = .endormi ∨ s.actif = some x ∧ e.reveil ≠ none)
    (hc : attendApres x (attendue x tr) s e = some c) (hlt : heure s e < c) : s'.state x = .endormi := by
  obtain ⟨s₁, hp⟩ := planifie_of_appelle he ho
  refine ordonnance_dort (hp.fin ho) (hp.endormi hx) fun hd => ?_
  by_contra hle
  have := h.echu hr hp hd (not_lt.1 hle) hc
  rw [hp.nbTick] at this
  omega

instance (pid newprio : Int) : Decidable (Valable pid newprio) := inferInstanceAs (Decidable (¬_))

instance (s : St) (pid : Int) (retvalp : Bool) (x : Slot) : Decidable (Pcsea.Eleve s pid retvalp x) :=
  inferInstanceAs (Decidable (∃ a ∈ s.actif, ∃ g ∈ suivant s a x,
    ¬(s.state x = .zombie ∧ ((if pid < 0 then -1 else pid) = -1 ∨ s.pid x = if pid < 0 then -1 else pid)) ∧
      ((if pid < 0 then -1 else pid) = s.pid g ∧ s.prio g < s.prio a) ∧
      ∃ v ∈ (getprio (if pid < 0 then -1 else pid) (s.setSuite (.attente pid retvalp (some g)))).toOption,
        Valable (if pid < 0 then -1 else pid) (v + 1)))

instance (s : St) : (x : Suite) → Decidable (x.Eleve s)
  | .attente pid retvalp (some x) => inferInstanceAs (Decidable (Pcsea.Eleve s pid retvalp x))
  | .attente _ _ none | .code | .psend _ _ _ | .preceive _ _ | .exit | .kill | .retour => inferInstanceAs (Decidable False)

instance (s : St) : (e : Event) → Decidable (AppelleOrdonnance s e)
  | .tick => inferInstanceAs (Decidable True)
  | .suite => inferInstanceAs (Decidable (s.cpu.suite.Eleve s))
  | .appel (.chprio pid newprio) => inferInstanceAs (Decidable (Valable pid newprio))
  | .appel (.psend fid _) => inferInstanceAs (Decidable (∃ q, s.messages.ouverte fid = some q ∧
      (s.messages.fifoTab q).nbElement = (s.messages.fifoTab q).size))
  | .appel (.preceive fid) => inferInstanceAs (Decidable (∃ q, s.messages.ouverte fid = some q ∧
      (s.messages.fifoTab q).nbElement = 0))
  | .appel (.dors _) | .appel (.sleepUntil _) | .appel (.waitClock _) => .isTrue (Option.some_ne_none _)
  | .appel (.start _ _ _) | .appel (.exit _) | .appel (.retour _) | .appel (.kill _) | .appel (.waitpid _ _)
  | .appel (.pcreate _ _) | .appel (.pdelete _) | .appel (.preset _) => .isFalse fun h => h rfl

instance (past : List (St × Event × Issue)) (s : St) (e : Event) : Decidable (HorsFenetre past s e) :=
  inferInstanceAs (Decidable (_ → _))

end Pcsea
