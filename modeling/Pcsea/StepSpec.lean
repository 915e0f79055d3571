import Pcsea.Step
/-!
# Every step under `Sain`

One lemma for each group of events, then `joue_spec` and, for a step that is
taken, `pas_spec`. `Parcours` are the runs.
-/

namespace Pcsea

open Lib

universe u
variable {K : Type u} {f : Fin NBQUEUE → Bool → K} {s s' s₁ : St} {p p' : Slot → Place} {a i n x : Slot} {e : Event}
  {r : Issue}

/-- `s₁` is `s` after what `actif` itself wrote before the places changed. -/
structure Ecrit (a : Slot) (s s₁ : St) : Prop where
  famille : MemeFamille s s₁
  reveil : ∀ i, i ≠ a → s₁.timeToWake i = s.timeToWake i
  contexte : ∀ i, i ≠ a → s₁.contexte i = s.contexte i
  retval : s₁.retval = s.retval
  retvalFils : ∀ i, s₁.retvalFils i = s.retvalFils i ∨ s₁.retvalFils i = none
  alive : s₁.processAlive = s.processAlive

theorem Ecrit.refl (a : Slot) (s : St) : Ecrit a s s :=
  ⟨.refl s, fun _ _ => rfl, fun _ _ => rfl, rfl, fun _ => .inl rfl, rfl⟩

theorem Ecrit.setSuite (h : Inv f a s p) (suite : Suite) : Ecrit a s (s.setSuite suite) := by
  refine ⟨⟨rfl, rfl, rfl, rfl⟩, fun _ _ => rfl, fun i hi => ?_, rfl, fun _ => .inl rfl, rfl⟩
  have hic : i ≠ s.charge := by rwa [h.charge]
  show (if i = s.charge then some (⟨s.cpu.code, suite⟩ : Contexte) else s.regs i) = if i = s.charge then some s.cpu else s.regs i
  rw [if_neg hic, if_neg hic]

/-- `actif` has taken the value it was left. -/
theorem Ecrit.setRetvalFils {s₁ : St} (h : Ecrit a s s₁) : Ecrit a s (s₁.setRetvalFils a none) := by
  refine ⟨⟨h.famille.pere, h.famille.premierFils, h.famille.dernierFils, h.famille.frereDroit⟩, h.reveil, h.contexte, h.retval,
    fun i => ?_, h.alive⟩
  show Function.update s₁.retvalFils a none i = _ ∨ Function.update s₁.retvalFils a none i = none
  by_cases hi : i = a
  · exact .inr (hi ▸ Function.update_self ..)
  · rw [Function.update_of_ne hi]
    exact h.retvalFils i

theorem contexte_actif (h : Inv f a s p) (suite : Suite) : (s.setSuite suite).contexte a = some ⟨a, suite⟩ := by
  show (if a = s.charge then some (⟨s.cpu.code, suite⟩ : Contexte) else s.regs a) = _
  rw [if_pos h.charge.symm, h.cpu_code]

/-- The running process searches on. -/
theorem cherche_meme (h : Inv f a s p) {pid : Int} {retvalp : Bool} {fils : Option Slot}
    (hc : s.contexte a = some ⟨a, .attente pid retvalp fils⟩) : Cherche s a e pid retvalp fils := by
  exact .meme (h.suite_eq hc)

/-- A step that creates and ends no process. -/
theorem Effet.of_cadre (hi : Inv f n s' p') (hv : ∀ i, Va f s p e r s' i (p' i)) (he : Ecrit a s s₁) (hc : Cadre s₁ s')
    (hz : p' a ≠ .zombie) (ht : ¬Termine s e) (hr : ∀ i, r ≠ .cree i)
    (hs : ∀ pid retvalp fils, s₁.contexte a = some ⟨a, .attente pid retvalp fils⟩ → Cherche s a e pid retvalp fils)
    (hw : ∀ pid retvalp ret ecrit, r = .attendu pid retvalp ret ecrit →
      (e = .appel (.waitpid pid retvalp) ∧ ret = -1 ∧ (ecrit = none ∨ ecrit = s.retvalFils a)) ∨
      ∃ x, e = .suite ∧ s.cpu.suite = .attente pid retvalp (some x) ∧ p x = .zombie ∧ p' x = .mort ∧
        (pid < 0 ∨ s.pid x = pid) ∧ ret = s.pid x ∧ ecrit = s.retval x ∧ (retvalp = false → ecrit = none)) :
    Effet f a s p e r s' n p' where
  inv := hi
  va := hv
  parente := .meme ⟨hc.pere.trans he.famille.pere, hc.premierFils.trans he.famille.premierFils,
    hc.dernierFils.trans he.famille.dernierFils, hc.frereDroit.trans he.famille.frereDroit⟩
  reveil := fun i hi => by rw [hc.timeToWake, he.reveil i hi]
  contexte := fun i hi => by rw [if_neg (hr i), hc.contexte, he.contexte i hi]
  retval := fun i => by
    have hn : ¬(i = a ∧ p' a = .zombie) := fun hn => hz hn.2
    rw [if_neg (hr i), if_neg hn, hc.retval, he.retval]
  retvalFils := fun i => by
    rw [hc.retvalFils]
    exact he.retvalFils i
  cree := fun x hx => absurd hx (hr x)
  fin := ⟨fun h => absurd h hz, fun h => absurd h ht⟩
  compte := ⟨fun h => absurd h ht, fun x hx => absurd hx (hr x), fun _ _ => hc.processAlive.trans he.alive⟩
  cherche := fun pid retvalp fils hf => hs pid retvalp fils (by rwa [← hc.contexte])
  attendu := hw

/-- The places a step without blocking, waking or ending leads to. -/
theorem Va.of_tourne {P : Place} (h : P = p i ∨
    (p i = .elu ∨ p i = .pret ∨ p i = .endormi ∧ s.timeToWake i ≤ s'.nbTick ∧ AppelleOrdonnance s e) ∧ (P = .elu ∨ P = .pret)) :
    Va f s p e r s' i P := by
  rcases h with h | ⟨h | h | ⟨h, ht, ho⟩, hP⟩
  · exact .of_eq h
  · exact .tourne (.inl h) hP
  · exact .tourne (.inr h) hP
  · exact .echeance h ht ho hP

theorem ne_zombie_of_tourne {P : Place} {Q : Prop} (h : Inv f a s p) (hP : P = p a ∨ Q ∧ (P = .elu ∨ P = .pret)) :
    P ≠ .zombie := by
  rcases hP with hP | ⟨-, hP | hP⟩ <;> simp [hP, h.elu]

/-! ## Steps that only pass the processor on -/

theorem Effet.of_ordonnance (h : Inv f a s p) (hi : Inv f n s' p') (he : Ecrit a s s₁) (hc : Cadre s₁ s')
    (hx : s₁.contexte a = s.contexte a)
    (hp : ∀ i, p' i = p i ∨
      ((p i = .elu ∨ p i = .pret ∨ p i = .endormi ∧ s.timeToWake i ≤ s'.nbTick ∧ AppelleOrdonnance s e) ∧ (p' i = .elu ∨ p' i = .pret)))
    (ht : ¬Termine s e) (hr : r = .enCours ∨ ∃ v, r = .rend v) : Effet f a s p e r s' n p' := by
  refine .of_cadre hi (fun i => .of_tourne (hp i)) he hc (ne_zombie_of_tourne h (hp a)) ht ?_ (fun _ _ _ hf => cherche_meme h (hx ▸ hf)) ?_
  · intro i
    rcases hr with rfl | ⟨v, rfl⟩ <;> simp
  · intro pid retvalp ret ecrit hw
    rcases hr with rfl | ⟨v, rfl⟩ <;> cases hw

theorem tick_effet (h : Inv f a s p) :
    Ensures (Echec False) (joue .tick s) fun r => Mene f a s p .tick r.1 r.2 := by
  refine Ensures.bind (ticPitClock_spec h) ?_
  rintro s' ⟨n, p', hi, hcd, hp⟩
  have hex : Ecrit a s { s with nbTick := succUint32 s.nbTick } :=
    ⟨⟨rfl, rfl, rfl, rfl⟩, fun _ _ => rfl, fun _ _ => rfl, rfl, fun _ => .inl rfl, rfl⟩
  have hp' : ∀ i, p' i = p i ∨
      ((p i = .elu ∨ p i = .pret ∨ p i = .endormi ∧ s.timeToWake i ≤ s'.nbTick ∧ AppelleOrdonnance s .tick) ∧
        (p' i = .elu ∨ p' i = .pret)) :=
    fun i => (hp i).imp_right fun ⟨h₁, h₂⟩ => ⟨h₁.imp_right (Or.imp_right fun ⟨h₃, h₄⟩ => ⟨h₃, h₄, trivial⟩), h₂⟩
  exact ⟨n, p', .of_ordonnance h hi hex hcd rfl hp' id (.inl rfl)⟩

theorem chprio_effet (pid newprio : Int) (h : Inv f a s p) :
    Ensures (Echec False) (joue (.appel (.chprio pid newprio)) s) fun r =>
      Mene f a s p (.appel (.chprio pid newprio)) r.1 r.2 := by
  refine Ensures.bind (chprio_spec pid newprio h).weaken ?_
  rintro ⟨v, s'⟩ ⟨n, p', hi, hcd, hp⟩
  have hp' : ∀ i, p' i = p i ∨
      ((p i = .elu ∨ p i = .pret ∨ p i = .endormi ∧ s.timeToWake i ≤ s'.nbTick ∧ Valable pid newprio) ∧
        (p' i = .elu ∨ p' i = .pret)) := by
    rw [show s'.nbTick = s.nbTick from hcd.nbTick]
    exact hp
  exact ⟨n, p', .of_ordonnance h hi (.refl a s) hcd rfl hp' id (.inr ⟨v, rfl⟩)⟩

/-- The three sleeping calls. -/
theorem sommeil_effet (c : Appel) {time : ℚ} (hc : c.reveil = some time) (h : Inv f a s p) (hr : Repos time s) :
    Ensures (Echec (Precoce time s)) (sansIssue (sleepUntil time s)) fun r => Mene f a s p (.appel c) r.1 r.2 := by
  refine Ensures.bind (sleepUntil_spec time h hr) ?_
  rintro s' ⟨n, p', hi, hcd, hpa, hp⟩
  have hnb : s'.nbTick = s.nbTick := hcd.nbTick
  have hord : AppelleOrdonnance s (.appel c) := by
    cases c <;> first | exact Option.some_ne_none _ | cases hc
  have hex : Ecrit a s { s with timeToWake := Function.update s.timeToWake a time } :=
    ⟨⟨rfl, rfl, rfl, rfl⟩, fun i hi => Function.update_of_ne hi .., fun _ _ => rfl, rfl, fun _ => .inl rfl, rfl⟩
  refine ⟨n, p', .of_cadre hi (fun i => ?_) hex hcd ?_ ?_ nofun (fun _ _ _ hf => cherche_meme h hf) nofun⟩
  · by_cases hia : i = a
    · subst hia
      rcases hpa with hpa | ⟨-, hpa⟩
      · rw [hpa]
        refine .dort time h.elu hc ?_
        rw [hcd.timeToWake]
        exact Function.update_self ..
      · exact .tourne (.inl h.elu) hpa
    · refine .of_tourne ((hp i hia).imp_right fun ⟨h₁, h₂⟩ => ⟨.inr (h₁.imp_right fun ⟨h₃, h₄⟩ => ⟨h₃, ?_, hord⟩), h₂⟩)
      rwa [hnb]
  · rcases hpa with hpa | ⟨-, hpa | hpa⟩ <;> simp [hpa]
  · unfold Appel.reveil at hc
    split at hc <;> first | exact id | cases hc

/-! ## Message calls -/

/-- Who waits does not change when the running process goes on elsewhere. -/
theorem attend_setSuite (h : Inv f a s p) (suite : Suite) {y : Slot} {k : K} (hy : Attend f (s.setSuite suite) p y k) :
    Attend f s p y k := by
  obtain ⟨hp, c, hc, hk⟩ := hy
  have hya : y ≠ a := by rintro rfl; simp [h.elu] at hp
  exact ⟨hp, c, ((Ecrit.setSuite h suite).contexte y hya).symm.trans hc, hk⟩

theorem Debloque.va {k : K} (hd : Debloque f s k p p') (hk : Libere f s k e) (i : Slot) : Va f s p e r s' i (p' i) := by
  rcases hd with rfl | ⟨y, hy, rfl⟩
  · exact .reste
  · by_cases hi : i = y
    · rw [hi, Function.update_self]
      exact .libere k hy hk
    · exact .of_eq (Function.update_of_ne hi ..)

theorem Debloque.ne_zombie {k : K} (h : Inv f a s p) (hd : Debloque f s k p p') : p' a ≠ .zombie := by
  rcases hd with rfl | ⟨y, hy, rfl⟩
  · simp [h.elu]
  · have hya : a ≠ y := by
      rintro rfl
      exact absurd hy.1 (by simp [h.elu])
    rw [Function.update_of_ne hya]
    simp [h.elu]

/-- A message call that went through, from the state `s₁` in which it was reached. -/
theorem Effet.of_passe {k : K} (h : Inv f a s p) (he : Ecrit a s s₁) (hi : Inv f a s' p') (hd : Debloque f s k p p')
    (hk : Libere f s k e) (hc : CadreHorsFiles s₁ s') (hs : s₁.contexte a = s.contexte a ∨ s₁.contexte a = some ⟨a, .code⟩)
    (ht : ¬Termine s e) (hr : (∃ q v, r = .emis q v) ∨ ∃ q v, r = .recu q v) : Effet f a s p e r s' a p' := by
  have he' : Ecrit a s { s₁ with messages := s'.messages } :=
    ⟨⟨he.famille.pere, he.famille.premierFils, he.famille.dernierFils, he.famille.frereDroit⟩, he.reveil, he.contexte,
      he.retval, he.retvalFils, he.alive⟩
  refine .of_cadre hi (hd.va hk) he' hc (hd.ne_zombie h) ht ?_ ?_ ?_
  · intro i
    rcases hr with ⟨q, v, rfl⟩ | ⟨q, v, rfl⟩ <;> simp
  · intro pid retvalp fils hf
    rcases hs with hs | hs
    · exact cherche_meme h (hs ▸ hf)
    · rw [show St.contexte { s₁ with messages := s'.messages } a = s₁.contexte a from rfl, hs] at hf
      cases hf
  · intro pid retvalp ret ecrit hw
    rcases hr with ⟨q, v, rfl⟩ | ⟨q, v, rfl⟩ <;> cases hw

/-- A message call that blocks. -/
theorem Mene.of_suspendu {suite : Suite} {k : K} (h : Inv f a s p) (hk : suite.file f = some k) (he : e.echange = true)
    (ht : ¬Termine s e) (ho : AppelleOrdonnance s e) (hs : Suspendu f a suite s s' p) : Mene f a s p e .enCours s' := by
  obtain ⟨n, p', hi, hcd, hpa, hp⟩ := hs
  obtain ⟨h₁, h₂⟩ := contexte_enAttente h suite s'.messages
  have hnb : s'.nbTick = s.nbTick := hcd.nbTick
  have hex : Ecrit a s (enAttente a suite s'.messages s) :=
    ⟨⟨rfl, rfl, rfl, rfl⟩, fun _ _ => rfl, h₂, rfl, fun _ => .inl rfl, rfl⟩
  refine ⟨n, p', .of_cadre hi (fun i => ?_) hex hcd (by simp [hpa]) ht nofun ?_ nofun⟩
  · by_cases hia : i = a
    · rw [hia, hpa]
      exact .attend h.elu he
    · refine .of_tourne ((hp i hia).imp_right fun ⟨h₁, h₂⟩ => ⟨.inr (h₁.imp_right fun ⟨h₃, h₄⟩ => ⟨h₃, ?_, ho⟩), h₂⟩)
      rwa [hnb]
  · intro pid retvalp fils hf
    rw [h₁, Option.some.injEq, Contexte.mk.injEq] at hf
    rw [hf.2] at hk
    cases hk

theorem psend_effet (fid message : Int) (h : Inv f a s p) (hs : Sain s (.appel (.psend fid message))) :
    Ensures (Echec False) (joue (.appel (.psend fid message)) s) fun r =>
      Mene f a s p (.appel (.psend fid message)) r.1 r.2 := by
  refine (psend_spec fid message h hs).post ?_
  rintro ⟨r, s'⟩ (hr | ⟨q, hq, hn, rfl, hsu⟩ | ⟨q, p', hq, hi, hd, hc, rfl⟩)
  · obtain ⟨rfl, rfl⟩ := Prod.mk.inj hr
    exact ⟨a, p, .of_ordonnance h h (.refl a _) (.refl _) rfl (fun _ => .inl rfl) id (.inr ⟨_, rfl⟩)⟩
  · exact .of_suspendu h rfl rfl id ⟨q, hq, hn⟩ hsu
  · exact ⟨a, p', .of_passe h (.refl a s) hi hd ⟨q, hq, rfl⟩ hc (.inl rfl) id (.inl ⟨q, message, rfl⟩)⟩

theorem preceive_effet (fid : Int) (h : Inv f a s p) (hs : Sain s (.appel (.preceive fid)))
    (hf : Separe f s (.appel (.preceive fid))) :
    Ensures (Echec False) (joue (.appel (.preceive fid)) s) fun r => Mene f a s p (.appel (.preceive fid)) r.1 r.2 := by
  refine (preceive_spec fid h hs hf).post ?_
  rintro ⟨r, s'⟩ (hr | ⟨q, hq, hn, rfl, hsu⟩ | ⟨q, p', hq, hi, hd, hc, v, rfl⟩)
  · obtain ⟨rfl, rfl⟩ := Prod.mk.inj hr
    exact ⟨a, p, .of_ordonnance h h (.refl a _) (.refl _) rfl (fun _ => .inl rfl) id (.inr ⟨_, rfl⟩)⟩
  · exact .of_suspendu h rfl rfl id ⟨q, hq, hn⟩ hsu
  · exact ⟨a, p', .of_passe h (.refl a s) hi hd ⟨q, hq, rfl⟩ hc (.inl rfl) id (.inr ⟨q, v, rfl⟩)⟩

theorem pcreate_effet (count : Int) (contenu : Option (Nat → Int)) (h : Inv f a s p) :
    Ensures (Echec False) (joue (.appel (.pcreate count contenu)) s) fun r =>
      Mene f a s p (.appel (.pcreate count contenu)) r.1 r.2 := by
  obtain ⟨lab, hlab⟩ := h.rings
  have hex : Ecrit a s { s with messages := (pcreate s.messages count contenu).2 } :=
    ⟨⟨rfl, rfl, rfl, rfl⟩, fun _ _ => rfl, fun _ _ => rfl, rfl, fun _ => .inl rfl, rfl⟩
  exact ⟨a, p, .of_ordonnance h (h.setMessages (pcreate_spec hlab count contenu)) hex (.refl _) rfl (fun _ => .inl rfl)
    id (.inr ⟨_, rfl⟩)⟩

/-- `pdelete` and `preset`. -/
theorem Effet.of_liberes {k : K} (h : Inv f a s p) (hi : Inv f a s' p') (hc : CadreHorsFiles s s')
    (hl : Liberes f s k p p') (hk : Libere f s k e) (ht : ¬Termine s e) (v : Int) : Effet f a s p e (.rend v) s' a p' := by
  have hex : Ecrit a s { s with messages := s'.messages } :=
    ⟨⟨rfl, rfl, rfl, rfl⟩, fun _ _ => rfl, fun _ _ => rfl, rfl, fun _ => .inl rfl, rfl⟩
  refine .of_cadre hi (fun i => ?_) hex hc (by simp [hi.elu]) ht nofun (fun _ _ _ hf => cherche_meme h hf) nofun
  rcases hl i with he | ⟨hy, he⟩
  · exact .of_eq he
  · rw [he]
    exact .libere k hy hk

theorem pdelete_effet {fid : Int} (h : Inv f a s p) (ho : joue (.appel (.pdelete fid)) s = .ok (r, s')) :
    Mene f a s p (.appel (.pdelete fid)) r s' := by
  rcases videFifo_spec neutre_efface h ho with ⟨rfl, rfl⟩ | ⟨q, p', hq, rfl, hi, hc, hl⟩
  · exact ⟨a, p, .of_ordonnance h h (.refl a _) (.refl _) rfl (fun _ => .inl rfl) id (.inr ⟨_, rfl⟩)⟩
  · exact ⟨a, p', .of_liberes (e := .appel (.pdelete fid)) h hi hc hl ⟨q, hq, rfl⟩ id 0⟩

theorem preset_effet {fid : Int} (h : Inv f a s p) (ho : joue (.appel (.preset fid)) s = .ok (r, s')) :
    Mene f a s p (.appel (.preset fid)) r s' := by
  rcases videFifo_spec neutre_raz h ho with ⟨rfl, rfl⟩ | ⟨q, p', hq, rfl, hi, hc, hl⟩
  · exact ⟨a, p, .of_ordonnance h h (.refl a _) (.refl _) rfl (fun _ => .inl rfl) id (.inr ⟨_, rfl⟩)⟩
  · exact ⟨a, p', .of_liberes (e := .appel (.preset fid)) h hi hc hl ⟨q, hq, rfl⟩ id 0⟩

/-! ## Children -/

theorem waitpid_effet (pid : Int) (retvalp : Bool) (h : Inv f a s p) :
    Ensures (Echec False) (joue (.appel (.waitpid pid retvalp)) s) fun r =>
      Mene f a s p (.appel (.waitpid pid retvalp)) r.1 r.2 := by
  refine (waitpid_spec pid retvalp h).post ?_
  rintro ⟨r, s'⟩ (⟨ecrit, rfl, he, hs'⟩ | ⟨hp, hn, hr⟩)
  · dsimp only at hs' ⊢
    have hw : ∀ pid' retvalp' ret ecrit', Issue.attendu pid retvalp (-1) ecrit = .attendu pid' retvalp' ret ecrit' →
        (Event.appel (.waitpid pid retvalp) = .appel (.waitpid pid' retvalp') ∧ ret = -1 ∧
          (ecrit' = none ∨ ecrit' = s.retvalFils a)) ∨
        ∃ x, Event.appel (.waitpid pid retvalp) = .suite ∧ s.cpu.suite = .attente pid' retvalp' (some x) ∧ p x = .zombie ∧
          p x = .mort ∧ (pid' < 0 ∨ s.pid x = pid') ∧ ret = s.pid x ∧ ecrit' = s.retval x ∧ (retvalp' = false → ecrit' = none) := by
      intro pid' retvalp' ret ecrit' hw
      cases hw
      exact .inl ⟨rfl, rfl, he⟩
    rcases hs' with rfl | rfl
    · exact ⟨a, p, .of_cadre h (fun _ => .reste) (.refl a _) (.refl _) (by simp [h.elu]) id nofun (fun _ _ _ hf => cherche_meme h hf) hw⟩
    · exact ⟨a, p, .of_cadre (h.setRetvalFils ..) (fun _ => .reste) (Ecrit.refl a s).setRetvalFils (.refl _) (by simp [h.elu]) id
        nofun (fun _ _ _ hf => cherche_meme h hf) hw⟩
  · obtain ⟨rfl, rfl⟩ := Prod.mk.inj hr
    refine ⟨a, p, .of_cadre (h.setSuite _) (fun _ => .reste) (.setSuite h _) (.refl _) (by simp [h.elu]) id nofun ?_ nofun⟩
    intro pid' retvalp' fils hf
    rw [contexte_actif h, Option.some.injEq, Contexte.mk.injEq] at hf
    cases hf.2
    exact .debut rfl hp hn rfl

theorem attente_effet {pid : Int} {retvalp : Bool} {fils : Option Slot} (h : Inv f a s p)
    (hs : s.cpu.suite = .attente pid retvalp fils) :
    Ensures (Echec False) (joue .suite s) fun r => Mene f a s p .suite r.1 r.2 := by
  rw [joue, poursuit, hs]
  refine (pidDunFilsTermine_spec pid retvalp fils h).mono (fun _ hy => hy.1 ▸ echec_nullDeref False) ?_
  rintro ⟨r, s'⟩ ⟨x, rfl, ⟨hz, hpx, rfl, hv, hi, hcd⟩ | ⟨-, rfl, hn, n, p', hi, hcd, hp⟩⟩
  · have hxa : a ≠ x := by rintro rfl; simp [h.elu] at hz
    -- The call returns: the context of `a` no longer polls.
    refine ⟨a, _, .of_cadre hi (fun i => ?_) (Ecrit.setSuite h .code).setRetvalFils hcd (by simp [Function.update_of_ne hxa, h.elu]) id nofun ?_ ?_⟩
    · by_cases hix : i = x
      · rw [hix, Function.update_self]
        exact .recolte _ _ _ hz rfl
      · exact .of_eq (Function.update_of_ne hix ..)
    · intro pid' retvalp' fils hf
      have hc := contexte_actif h .code
      rw [show ((s.setSuite .code).setRetvalFils a none).contexte a = (s.setSuite .code).contexte a from rfl, hc] at hf
      cases hf
    · intro pid' retvalp' ret ecrit hw
      cases hw
      exact .inr ⟨x, rfl, hs, hz, Function.update_self .., hpx, rfl, rfl, hv⟩
  · have hnb : s'.nbTick = s.nbTick := hcd.nbTick
    have hord (hel : Eleve s pid retvalp x) : AppelleOrdonnance s .suite := by
      rw [AppelleOrdonnance, hs]
      exact hel
    have hp' : ∀ i, p' i = p i ∨
        ((p i = .elu ∨ p i = .pret ∨ p i = .endormi ∧ s.timeToWake i ≤ s'.nbTick ∧ AppelleOrdonnance s .suite) ∧
          (p' i = .elu ∨ p' i = .pret)) := by
      rw [hnb]
      exact fun i => (hp i).imp_right fun ⟨h₁, h₂⟩ =>
        ⟨h₁.imp_right (Or.imp_right fun ⟨h₃, h₄, h₅⟩ => ⟨h₃, h₄, hord h₅⟩), h₂⟩
    refine ⟨n, p', .of_cadre hi (fun i => .of_tourne (hp' i)) (.setSuite h _) hcd (ne_zombie_of_tourne h (hp' a)) id nofun ?_ nofun⟩
    intro pid' retvalp' fils hf
    rw [contexte_actif h, Option.some.injEq, Contexte.mk.injEq] at hf
    cases hf.2
    exact .suit x rfl hs hn rfl

/-! ## Termination -/

/-- `actif` ends, from `s₁`: `s` with its result and the place it stays at. -/
theorem fin_effet (suite : Suite) (h : Inv f a s p) (v : Option Int) (hs : Releve s)
    (ht : Termine s e) (hv : e.valeur (s.retval a) = v)
    (hn : ∀ pid retvalp fils, suite ≠ .attente pid retvalp fils) :
    Ensures (Echec False) (finProcessus ((s.setRetval a v).setSuite suite)) fun s' => Mene f a s p e .enCours s' := by
  have h₁ := (h.setRetval a v).setSuite suite
  refine (finProcessus_spec h₁ hs).mono ?_ ?_
  · rintro x (rfl | ⟨rfl, -⟩)
    · exact echec_nullDeref False
    · exact echec_diverge False
  rintro s' ⟨n, p', hi, ⟨hz, hp⟩, hpe, hpa, hcd, hf⟩
  have hvv : (s.setRetval a v).retval a = e.valeur (s.retval a) := by
    rw [hv]
    exact Function.update_self ..
  have hcx := (Ecrit.setSuite (h.setRetval a v) suite).contexte
  refine ⟨n, p', hi, fun i => ?_, .deuil hpe hpa hz hcd.premierFils hcd.dernierFils hcd.frereDroit hf, fun i _ => ?_, fun i hi => ?_,
    fun i => ?_, fun i => .inl ?_, nofun, ⟨fun _ => ht, fun _ => hz⟩, ⟨fun _ => hcd.processAlive, nofun, fun hn => absurd ht hn⟩, ?_,
    nofun⟩
  · by_cases hia : i = a
    · rw [hia, hz]
      exact .finit h.elu
    -- Another process is left alone, elected, or an orphan.
    · rcases hp i hia with he | ⟨h₁, h₂⟩ | ⟨h₁, h₂, h₃⟩
      · exact .of_eq he
      · exact .tourne (.inr h₁) (.inl h₂)
      · rw [h₂]
        exact .orphelin h₁ h₃
  · exact congrFun hcd.timeToWake i
  · rw [if_neg (by simp)]
    exact (congrFun hcd.contexte i).trans (hcx i hi)
  · rw [if_neg (by simp), show s'.retval i = (s.setRetval a v).retval i from congrFun hcd.retval i]
    by_cases hia : i = a
    · rw [if_pos ⟨hia, hz⟩, hia, hvv]
    · rw [if_neg (fun hn => hia hn.1)]
      exact Function.update_of_ne hia ..
  · exact congrFun hcd.retvalFils i
  · intro pid retvalp fils hf
    rw [show s'.contexte a = _ from congrFun hcd.contexte a,
      show St.contexte { (s.setRetval a v).setSuite suite with
        pere := s'.pere, processAlive := predUint32 ((s.setRetval a v).setSuite suite).processAlive } a =
          ((s.setRetval a v).setSuite suite).contexte a from rfl,
      contexte_actif (h.setRetval a v), Option.some.injEq, Contexte.mk.injEq] at hf
    exact absurd hf.2 (hn pid retvalp fils)

theorem exit_effet (retval : Int) (h : Inv f a s p) (hs : Releve s) :
    Ensures (Echec False) (joue (.appel (.exit retval)) s) fun r => Mene f a s p (.appel (.exit retval)) r.1 r.2 := by
  show Ensures _ (sansIssue (exit retval s)) _
  rw [exit, h.deref, ok_bind]
  exact Ensures.bind (fin_effet (e := .appel (.exit retval)) .exit h (some retval) hs trivial rfl nofun) fun s' hs' => hs'

theorem retour_effet (v : Int) (h : Inv f a s p) (hs : Releve s) :
    Ensures (Echec False) (joue (.appel (.retour v)) s) fun r => Mene f a s p (.appel (.retour v)) r.1 r.2 := by
  show Ensures _ (sansIssue (retourFonction s)) _
  have he : s.setRetval a (s.retval a) = s := by
    rw [St.setRetval, Function.update_eq_self]
  have hf := fin_effet (e := .appel (.retour v)) .retour h (s.retval a) hs trivial rfl nofun
  rw [he] at hf
  exact Ensures.bind hf fun s' hs' => hs'

theorem kill_effet (pid : Int) (h : Inv f a s p) (hs : SeTue pid s → Releve s) :
    Ensures (Echec False) (joue (.appel (.kill pid)) s) fun r => Mene f a s p (.appel (.kill pid)) r.1 r.2 := by
  show Ensures _ (kill pid s) _
  unfold kill
  split
  · next hpid =>
    exact ⟨a, p, .of_ordonnance h h (.refl a _) (.refl _) rfl (fun _ => .inl rfl) (fun hn => hn.1 hpid) (.inr ⟨_, rfl⟩)⟩
  next hpid =>
  have hpos : 0 < pid := by
    push Not at hpid
    exact hpid.1
  rw [h.deref, ok_bind]
  split
  -- The caller ends like with `exit`, but leaves no value.
  · next hpa =>
    exact Ensures.bind (fin_effet (e := .appel (.kill pid)) .kill h none (hs ⟨a, h.actif, hpa⟩) ⟨hpid, a, h.actif, hpa⟩ rfl nofun)
      fun s' hs' => hs'
  · next hpa =>
    obtain ⟨v, s', p', ho, hi, hcd, hcase⟩ := killAutre_spec pid h hpos
    rw [ho, ok_bind]
    have ht : ¬Termine s (.appel (.kill pid)) := by
      rintro ⟨-, b, hb, hpb⟩
      obtain rfl : a = b := h.actif_eq hb
      exact hpa hpb
    refine ⟨a, p', .of_cadre hi (fun i => ?_) (.refl a s) hcd (by simp [hi.elu]) ht nofun (fun _ _ _ hf => cherche_meme h hf) nofun⟩
    rcases hcase with ⟨x, hx, hpx, -, rfl, -⟩ | ⟨x, hx, hpx, -, rfl, -⟩ | ⟨-, -, -, rfl⟩
    · by_cases hix : i = x
      · rw [hix, Function.update_self]
        exact .tue hpx (by rw [hx])
      · exact .of_eq (Function.update_of_ne hix ..)
    · by_cases hix : i = x
      · rw [hix, Function.update_self]
        exact .tueEndormi hpx (by rw [hx])
      · exact .of_eq (Function.update_of_ne hix ..)
    · exact .reste

/-! ## Creation -/

theorem start_effet (ssize : Nat) (prio : Int) (name : String) (h : Inv f a s p) (hs : SlotLibre s) :
    Ensures (Echec False) (joue (.appel (.start ssize prio name)) s) fun r =>
      Mene f a s p (.appel (.start ssize prio name)) r.1 r.2 := by
  refine (start_spec ssize prio name h hs).post ?_
  rintro ⟨r, s'⟩ (hr | ⟨x, rfl, hi, hna, hd, hv, hvf, ht, hnb, hm, hal, hcx, hci⟩)
  · obtain ⟨rfl, rfl⟩ := Prod.mk.inj hr
    exact ⟨a, p, .of_ordonnance h h (.refl a _) (.refl _) rfl (fun _ => .inl rfl) id (.inr ⟨_, rfl⟩)⟩
  have hxa := (hd.apart h).1.symm
  have hpa : Function.update p x Place.pret a ≠ .zombie := by
    rw [Function.update_of_ne hxa]
    simp [h.elu]
  refine ⟨a, _, hi, fun i => ?_, .naissance x rfl hna, fun i _ => congrFun ht i, fun i hia => ?_, fun i => ?_,
    fun i => .inl (congrFun hvf i), ?_, ⟨fun hz => absurd hz hpa, nofun⟩, ⟨nofun, fun _ _ => hal, fun _ hn => absurd rfl (hn x)⟩, ?_,
    nofun⟩
  · by_cases hix : i = x
    · rw [hix, Function.update_self]
      exact .demarre hd rfl
    · exact .of_eq (Function.update_of_ne hix ..)
  · by_cases hix : i = x
    · rw [if_pos (by rw [hix]), hix]
      exact hcx
    · rw [if_neg (by simpa using Ne.symm hix)]
      exact hci i hix
  · show s'.retval i = _
    rw [hv]
    by_cases hix : i = x
    · rw [if_pos (by rw [hix]), hix, Function.update_self]
    · rw [if_neg (by simpa using Ne.symm hix), if_neg fun hn => hpa hn.2, Function.update_of_ne hix]
  · rintro y hy
    cases hy
    exact ⟨hd, Function.update_self .., rfl⟩
  · intro pid retvalp fils hf
    rw [show s'.contexte a = s.contexte a from hci a hxa] at hf
    exact cherche_meme h hf

/-! ## Suspended calls -/

theorem suite_effet (h : Inv f a s p) : Ensures (Echec False) (joue .suite s) fun r => Mene f a s p .suite r.1 r.2 := by
  cases hs : s.cpu.suite with
  | attente pid retvalp fils => exact attente_effet h hs
  | code =>
    rw [joue, poursuit, hs]
    exact ⟨a, p, .of_ordonnance h h (.refl a _) (.refl _) rfl (fun _ => .inl rfl) id (.inl rfl)⟩
  | exit =>
    rw [joue, poursuit, hs]
    exact ⟨a, p, .of_ordonnance h h (.refl a _) (.refl _) rfl (fun _ => .inl rfl) id (.inl rfl)⟩
  | kill =>
    rw [joue, poursuit, hs]
    refine ⟨a, p, .of_cadre (h.setSuite _) (fun _ => .reste) (.setSuite h _) (.refl _) (by simp [h.elu]) id nofun ?_ nofun⟩
    intro pid retvalp fils hf
    rw [contexte_actif h] at hf
    cases hf
  | retour =>
    rw [joue, poursuit, hs]
    exact echec_outOfBounds False
  | psend q message tmp =>
    rw [joue, poursuit, hs]
    refine (psendFin_spec (h.setSuite .code) q message tmp).post ?_
    rintro ⟨r, s'⟩ ⟨p', hi, hd, hc, rfl⟩
    have hd' : Debloque f s (f q false) p p' := hd.imp_right fun ⟨y, hy, he⟩ => ⟨y, attend_setSuite h _ hy, he⟩
    exact ⟨a, p', .of_passe h (.setSuite h .code) hi hd' (.inl ⟨q, message, tmp, hs, rfl⟩) hc
      (.inr (contexte_actif h .code)) id (.inl ⟨q, message, rfl⟩)⟩
  | preceive q tmp =>
    rw [joue, poursuit, hs]
    refine (preceiveFin_spec (h.setSuite .code) q tmp).post ?_
    rintro ⟨r, s'⟩ ⟨p', hi, hd, hc, v, rfl⟩
    have hd' : Debloque f s (f q true) p p' := hd.imp_right fun ⟨y, hy, he⟩ => ⟨y, attend_setSuite h _ hy, he⟩
    exact ⟨a, p', .of_passe h (.setSuite h .code) hi hd' (.inr ⟨q, tmp, hs, rfl⟩) hc
      (.inr (contexte_actif h .code)) id (.inr ⟨q, v, rfl⟩)⟩

/-! ## Any step -/

/-- An assertion only fails when a process goes to sleep in the past. -/
theorem joue_spec (h : Inv f a s p) (hs : Sain s e) (hf : Separe f s e)
    (hd : ∀ fid, e ≠ .appel (.pdelete fid) ∧ e ≠ .appel (.preset fid)) :
    Ensures (Echec (∃ time, e.reveil = some time ∧ Precoce time s)) (joue e s) fun r => Mene f a s p e r.1 r.2 := by
  have hfalse : ∀ {x : Except Fault (Issue × St)} {Q : Issue × St → Prop}, Ensures (Echec False) x Q →
      Ensures (Echec (∃ time, e.reveil = some time ∧ Precoce time s)) x Q :=
    fun hx => hx.mono (fun _ hy hz => (hy hz).elim) fun _ hr => hr
  cases e with
  | suite => exact hfalse (suite_effet h)
  | tick => exact hfalse (tick_effet h)
  | appel c =>
    cases c with
    | start ssize prio name => exact hfalse (start_effet ssize prio name h hs)
    | exit retval => exact hfalse (exit_effet retval h hs)
    | retour v => exact hfalse (retour_effet v h hs)
    | kill pid => exact hfalse (kill_effet pid h hs)
    | chprio pid newprio => exact hfalse (chprio_effet pid newprio h)
    | waitpid pid retvalp => exact hfalse (waitpid_effet pid retvalp h)
    | dors nbrSecs =>
      exact (sommeil_effet (.dors nbrSecs) rfl h hs).mono (fun _ hx hy => ⟨_, rfl, hx hy⟩) fun _ hr => hr
    | sleepUntil time =>
      exact (sommeil_effet (.sleepUntil time) rfl h hs).mono (fun _ hx hy => ⟨_, rfl, hx hy⟩) fun _ hr => hr
    | waitClock clock =>
      exact (sommeil_effet (.waitClock clock) rfl h hs).mono (fun _ hx hy => ⟨_, rfl, hx hy⟩) fun _ hr => hr
    | pcreate count contenu => exact hfalse (pcreate_effet count contenu h)
    | pdelete fid => exact absurd rfl (hd fid).1
    | preset fid => exact absurd rfl (hd fid).2
    | psend fid message => exact hfalse (psend_effet fid message h hs)
    | preceive fid => exact hfalse (preceive_effet fid h hs hf)

theorem pas_spec (h : Inv f a s p) (hs : Sain s e) (hf : Separe f s e) (ho : Pas s e r s') : Mene f a s p e r s' := by
  by_cases hd : ∀ fid, e ≠ .appel (.pdelete fid) ∧ e ≠ .appel (.preset fid)
  · exact (joue_spec h hs hf hd).of_ok ho.2
  · push Not at hd
    obtain ⟨fid, hd⟩ := hd
    by_cases he : e = .appel (.pdelete fid)
    · subst he
      exact pdelete_effet h ho.2
    · obtain rfl := hd he
      exact preset_effet h ho.2

/-! ## Runs -/

/-- The runs of the kernel whose steps meet `P`. -/
abbrev Parcours (P : St → Event → Prop) (tr : List (St × Event × Issue)) (s : St) : Prop := Run (Under P Pas) boot tr s

/-! ## Runs that can be played -/

instance : DecidableEq (Except Fault Slot) := fun
  | .ok i, .ok j => decidable_of_iff (i = j) (by simp)
  | .error x, .error y => decidable_of_iff (x = y) (by simp)
  | .ok _, .error _ => isFalse nofun
  | .error _, .ok _ => isFalse nofun

instance (s : St) : Decidable (SlotLibre s) := inferInstanceAs (Decidable (_ → _))
instance (s : St) : Decidable (Releve s) := inferInstanceAs (Decidable (_ → _))
instance (s : St) (x : Slot) : Decidable (Echu s x) := inferInstanceAs (Decidable (_ ∧ _))
instance (s : St) : Decidable (PeutAttendre s) := inferInstanceAs (Decidable (_ ∨ _))
instance (time : ℚ) (s : St) : Decidable (Repos time s) := inferInstanceAs (Decidable (_ ∨ _ ∨ _))
instance (pid : Int) (s : St) : Decidable (SeTue pid s) := inferInstanceAs (Decidable (∃ _, _))

instance (s : St) : (e : Event) → Decidable (Termine s e)
  | .appel (.exit _) | .appel (.retour _) => inferInstanceAs (Decidable True)
  | .appel (.kill pid) => inferInstanceAs (Decidable (¬(pid ≤ 0 ∨ PROCESS_TABLE_SIZE - 1 < pid) ∧ SeTue pid s))
  | .appel (.start _ _ _) | .appel (.chprio _ _) | .appel (.waitpid _ _) | .appel (.dors _) | .appel (.sleepUntil _)
  | .appel (.waitClock _) | .appel (.pcreate _ _) | .appel (.pdelete _) | .appel (.preset _) | .appel (.psend _ _)
  | .appel (.preceive _) | .suite | .tick => inferInstanceAs (Decidable False)

instance (s : St) : (e : Event) → Decidable (Sain s e)
  | .appel (.start _ _ _) => inferInstanceAs (Decidable (SlotLibre s))
  | .appel (.exit _) => inferInstanceAs (Decidable (Releve s))
  | .appel (.retour _) => inferInstanceAs (Decidable (Releve s))
  | .appel (.kill pid) => inferInstanceAs (Decidable (SeTue pid s → Releve s))
  | .appel (.dors nbrSecs) => inferInstanceAs (Decidable (Repos nbrSecs s))
  | .appel (.sleepUntil time) => inferInstanceAs (Decidable (Repos time s))
  | .appel (.waitClock clock) => inferInstanceAs (Decidable (Repos (clock / CLOCKFREQ : Nat) s))
  | .appel (.psend fid _) => inferInstanceAs (Decidable (∀ q, s.messages.ouverte fid = some q →
      (s.messages.fifoTab q).nbElement = (s.messages.fifoTab q).size → PeutAttendre s))
  | .appel (.preceive fid) => inferInstanceAs (Decidable (∀ q, s.messages.ouverte fid = some q →
      (s.messages.fifoTab q).nbElement = 0 → PeutAttendre s))
  | .appel (.chprio _ _) | .appel (.waitpid _ _) | .appel (.pcreate _ _) | .appel (.pdelete _) | .appel (.preset _)
  | .suite | .tick => inferInstanceAs (Decidable True)

/-- `tente`, under a condition that can be checked. -/
def tenteSous (P : St → Event → Prop) [∀ s e, Decidable (P s e)] (s : St) (e : Event) : Option (Issue × St) :=
  if P s e then tente s e else none

/-- The events from `s₀` on. -/
def deroule (P : St → Event → Prop) [∀ s e, Decidable (P s e)] (s₀ : St) (es : List Event) :
    Option (List (St × Event × Issue) × St) := play (tenteSous P) es ([], s₀)

/-- A run found by playing events. -/
theorem deroule_any {P : St → Event → Prop} [∀ s e, Decidable (P s e)] {Q : List (St × Event × Issue) → St → Prop}
    [∀ tr s, Decidable (Q tr s)] (s₀ : St) (es : List Event) (h : (deroule P s₀ es).any (fun c => Q c.1 c.2) = true) :
    ∃ tr s, Run (Under P Pas) s₀ tr s ∧ Q tr s := by
  obtain ⟨c, hc, hq⟩ := (Option.any_eq_true ..).1 h
  refine ⟨c.1, c.2, Run.of_play (fun s e r s' hx => ?_) .nil hc, of_decide_eq_true hq⟩
  unfold tenteSous at hx
  split at hx
  · next hp => exact ⟨hp, tente_eq_some.1 hx⟩
  · cases hx

end Pcsea
