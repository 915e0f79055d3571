import Pcsea.Famille
import Pcsea.Partition
/-!
# The polls of `waitpid`

`waitpid` decides once whether it waits, then goes round the child list until
it meets a zombie. It never asks again whether a child is left that may become
one: a child killed in its sleep does not.
-/

namespace Pcsea

open Lib

variable {K : Type*} {f : Fin NBQUEUE → Bool → K} {s s' : St} {p p' : Slot → Place} {a c i n w x : Slot} {e : Event}
  {r : Issue} {l : List Slot} {tr : List (St × Event × Issue)} {pid : Int} {retvalp : Bool} {fils : Option Slot}

/-! ## The calls, on a child list that ends -/

theorem waitpid_eq (h : Inv f a s p) (hl : Fratrie tr s a l) :
    waitpid pid retvalp s =
      if (pid < 0 ∧ s.premierFils a ≠ none) ∨ ((l.find? fun c => s.pid c = pid).any fun c => s.state c ≠ .mort) = true then
        if pid = 0 then waitpidFin pid retvalp (-1) s
        else .ok (.enCours, s.setSuite (.attente pid retvalp (s.premierFils a)))
      else .ok (.attendu pid retvalp (-1) none, s) := by
  have ht := trouveFils_eq pid hl.chaine.seg (Nat.le_succ_of_le (length_le_table hl.chaine.nodup))
  rw [waitpid, h.deref, ok_bind, ht]
  dsimp only
  by_cases hn : pid < 0 ∧ s.premierFils a ≠ none
  · rw [if_pos hn, ok_bind]
    exact (if_pos (.inl hn)).symm
  · rw [if_neg hn, ok_bind]
    simp only [hn, false_or]

/-- A call that goes on to poll has found a child that is not dead, unless it takes any. -/
theorem waitpid_sonde {pid' : Int} {retvalp' : Bool} (h : Inv f a s p) (hl : Fratrie tr s a l) (hcode : s.cpu.suite = .code)
    (ho : waitpid pid retvalp s = .ok (r, s')) (hx : s'.contexte a = some ⟨a, .attente pid' retvalp' fils⟩) :
    r = .enCours ∧ (pid < 0 ∨ ∃ c ∈ l, s.pid c = pid ∧ s.state c ≠ .mort) := by
  have hno : ∀ t : St, t.contexte a = s.contexte a → t.contexte a ≠ some ⟨a, .attente pid' retvalp' fils⟩ := by
    intro t ht he
    rw [ht, St.contexte, if_pos h.charge.symm, Option.some.injEq] at he
    rw [he] at hcode
    cases hcode
  rw [waitpid_eq h hl] at ho
  split at ho
  · next hf =>
    split at ho
    · have hs : s' = s.setRetvalFils a none := ((waitpidFin_spec h).of_ok ho).2.2
      refine absurd hx (hno s' ?_)
      rw [hs]
      rfl
    · obtain ⟨rfl, rfl⟩ := Prod.mk.inj (Except.ok.inj ho)
      refine ⟨rfl, hf.imp And.left fun hf => ?_⟩
      obtain ⟨c, hc, hst⟩ := Option.any_eq_true .. |>.1 hf
      exact ⟨c, List.mem_of_find?_eq_some hc, by simpa using List.find?_some hc, by simpa using hst⟩
  · obtain ⟨rfl, rfl⟩ := Prod.mk.inj (Except.ok.inj ho)
    exact absurd hx (hno _ rfl)

/-- A poll fails only when it stores the value of a child through a NULL `retvalp`. -/
theorem sonde_total (pid : Int) (retvalp : Bool) (h : Inv f a s p) (hx : suivant s a x ≠ none) :
    (∃ r s', pidDunFilsTermine pid retvalp (some x) s = .ok (r, s')) ∨
      retvalp = false ∧ p x = .zombie ∧ (pid < 0 ∨ s.pid x = pid) ∧ s.retval x ≠ none := by
  cases ho : pidDunFilsTermine pid retvalp (some x) s with
  | ok c => exact .inl ⟨c.1, c.2, rfl⟩
  | error y => exact .inr ((((pidDunFilsTermine_spec _ _ _ h).of_error ho).2 x rfl).resolve_left hx)

/-! ## What a wait waits for -/

/-- `c` is a child that a wait of `w` for `pid` may still get. -/
def Recueillable (s : St) (w : Slot) (pid : Int) (c : Slot) : Prop :=
  s.pere c = some w ∧ (pid < 0 ∨ s.pid c = pid) ∧ (Vivant s c ∨ s.state c = .zombie)

def Suite.sonde : Suite → Option Int
  | .attente pid _ _ => some pid
  | _ => none

/-- The pid `w` polls for. -/
def St.sonde (s : St) (w : Slot) : Option Int := (s.contexte w).bind fun c => c.suite.sonde

/-- The processes asleep, as the traversals meet them. -/
def St.endormis (s : St) : List Slot := walk s.suiv PROCESS_TABLE_SIZE s.endormiList

/-- A wait begins only when there is a child to get, and no sleeping process is killed that is the last one a wait may get. -/
def Aboutit (s : St) : Event → Prop
  | .appel (.waitpid pid _) => pid < 0 → ∀ a, s.actif = some a → s.premierFils a ≠ none → ∃ c, Recueillable s a pid c
  | .appel (.kill cible) => ∀ c ∈ s.endormis, s.pid c = cible → ∀ w, Vivant s w → ∀ pid ∈ s.sonde w, Recueillable s w pid c →
      ∃ c', c' ≠ c ∧ Recueillable s w pid c'
  | _ => True

theorem Rep.endormis {q e d : List Slot} (h : Rep s p q e d) : c ∈ s.endormis ↔ p c = .endormi := by
  rw [St.endormis, h.lists.sleep.seg.walk (length_le_table h.lists.sleep.nodup), h.sleep]

theorem Inv.recueillable (h : Inv f a s p) :
    Recueillable s w pid c ↔ s.pere c = some w ∧ (pid < 0 ∨ s.pid c = pid) ∧ ((p c).vif = true ∨ p c = .zombie) := by
  obtain ⟨q, e, d, hrep⟩ := h.rep
  rw [Recueillable, h.vivant_iff, hrep.state_eq_zombie]

/-- A process that may be awaited stays so, unless it is killed in its sleep, awaited or left without a father. -/
theorem Va.recueillable {P : Place} (h : Va f s p e r s' c P) (hc : (p c).vif = true ∨ p c = .zombie)
    (h₁ : p c = .endormi → e ≠ .appel (.kill (s.pid c))) (h₂ : ∀ pid retvalp v, r ≠ .attendu pid retvalp (s.pid c) v)
    (h₃ : s'.pere c ≠ none) : P.vif = true ∨ P = .zombie := by
  cases h with
  | reste => exact hc
  | tourne _ hP => rcases hP with hP | hP <;> simp [hP, Place.vif]
  | echeance _ _ _ hP => rcases hP with hP | hP <;> simp [hP, Place.vif]
  | tueEndormi hp he => exact absurd he (h₁ hp)
  | recolte pid retvalp v _ hr => exact absurd hr (h₂ pid retvalp v)
  | orphelin _ hp => exact absurd hp h₃
  | _ => simp [Place.vif]

theorem Effet.recueillable (h : Inv f a s p) (he : Effet f a s p e r s' n p') (hc : Recueillable s w pid c)
    (h₁ : p c = .endormi → e ≠ .appel (.kill (s.pid c))) (h₂ : ∀ pid retvalp v, r ≠ .attendu pid retvalp (s.pid c) v)
    (h₃ : s'.pere c = some w) : Recueillable s' w pid c := by
  obtain ⟨-, hpid, hp⟩ := h.recueillable.1 hc
  obtain ⟨q, l, d, hrep⟩ := h.rep
  obtain ⟨q', l', d', hrep'⟩ := he.inv.rep
  have hp' := (he.va c).recueillable hp h₁ h₂ (by simp [h₃])
  have hne : ∀ {P : Place}, P.vif = true ∨ P = .zombie → P ≠ .libre := by
    rintro P (hP | rfl)
    · rintro rfl
      cases hP
    · nofun
  refine he.inv.recueillable.2 ⟨h₃, ?_, hp'⟩
  rwa [hrep'.pid (hne hp'), ← hrep.pid (hne hp)]

/-- The pointer of a process that polls is in its child list. -/
structure Reperes (tr : List (St × Event × Issue)) (s : St) (p : Slot → Place) : Prop where
  mort : ∀ c, recueillis tr c = true → p c = .mort
  pointeur : ∀ w pid retvalp fils, Vivant s w → s.contexte w = some ⟨w, .attente pid retvalp fils⟩ →
    ∃ x, fils = some x ∧ x ∈ s.fils w

/-- A process that polls may still get some child. -/
structure Sondes (tr : List (St × Event × Issue)) (s : St) (p : Slot → Place) : Prop extends Reperes tr s p where
  but : ∀ w pid retvalp fils, Vivant s w → s.contexte w = some ⟨w, .attente pid retvalp fils⟩ → ∃ c, Recueillable s w pid c

theorem Reperes.mem (hj : Reperes tr s p) (h : Inv f a s p) (hl : Fratrie tr s w l) (hc : Recueillable s w pid c) : c ∈ l := by
  obtain ⟨hpere, -, hp⟩ := h.recueillable.1 hc
  refine hl.complete c hpere ?_
  by_contra hrec
  have hm := hj.mort c (by simpa using hrec)
  rw [hm] at hp
  simp [Place.vif] at hp

/-! ## One step -/

theorem Effet.mort (h : Inv f a s p) (he : Effet f a s p e r s' n p') (hm : ∀ c, recueillis tr c = true → p c = .mort) (c : Slot)
    (hc : recueillis (tr ++ [(s, e, r)]) c = true) : p' c = .mort := by
  have hreste : r ≠ .cree c → recueillis tr c = true → p' c = .mort := fun hr hrec =>
    ((he.va c).termine hr (.inr (hm c hrec))).2 (hm c hrec)
  rw [recueillis_snoc] at hc
  cases r with
  | cree x =>
    by_cases hcx : c = x
    · rw [Issue.recueille, hcx, Function.update_self] at hc
      cases hc
    · rw [Issue.recueille, Function.update_of_ne hcx] at hc
      exact hreste (fun hx => hcx (Issue.cree.inj hx).symm) hc
  | attendu pid retvalp ret ecrit =>
    simp only [Issue.recueille, Bool.or_eq_true, decide_eq_true_eq] at hc
    rcases hc with hc | hc
    · exact hreste (by simp) hc
    · rcases he.attendu _ _ _ _ rfl with ⟨-, hret, -⟩ | ⟨x, -, -, hz, hp', -, hret, -⟩
      · omega
      · obtain ⟨q, l, d, hrep⟩ := h.rep
        rw [hret, hrep.pid (by simp [hz])] at hc
        obtain rfl : c = x := Fin.ext (by exact_mod_cast hc)
        exact hp'
  | _ => exact hreste (by simp) hc

/-- A poll that gets a child is over. -/
theorem attendu_code {ret : Int} {ecrit : Option Int} {fils' : Option Slot} (h : Inv f a s p)
    (hs : s.cpu.suite = .attente pid retvalp fils) (ho : joue .suite s = .ok (.attendu pid retvalp ret ecrit, s')) :
    s'.contexte a ≠ some ⟨a, .attente pid retvalp fils'⟩ := by
  rw [joue, poursuit, hs] at ho
  obtain ⟨x, rfl, ⟨-, -, -, -, -, hcd⟩ | ⟨-, hr, -⟩⟩ := (pidDunFilsTermine_spec _ _ _ h).of_ok ho
  · have hc : s'.contexte a = (s.setSuite .code).contexte a := congrFun hcd.contexte a
    rw [hc, contexte_actif h .code]
    simp
  · cases hr

/-- Where a poll comes from. -/
inductive Origine (a : Slot) (s : St) (p : Slot → Place) (e : Event) (r : Issue) (w : Slot) (pid : Int) (retvalp : Bool)
    (fils : Option Slot) : Prop
  | garde (fils₀ : Option Slot) : s.contexte w = some ⟨w, .attente pid retvalp fils₀⟩ →
    (fils = fils₀ ∨ ∃ x, fils₀ = some x ∧ fils = suivant s w x) →
    (w = a → ∀ pid retvalp ret ecrit, r ≠ .attendu pid retvalp ret ecrit) → Origine a s p e r w pid retvalp fils
  | debut : w = a → e = .appel (.waitpid pid retvalp) → r = .enCours → fils = s.premierFils a → s.premierFils a ≠ none →
    (pid < 0 ∨ ∃ c, Recueillable s a pid c) → Origine a s p e r w pid retvalp fils

theorem Effet.origine (h : Inv f a s p) (he : Effet f a s p e r s' n p') (ho : Pas s e r s') (hf : Fratrie tr s a l)
    (hx : s'.contexte w = some ⟨w, .attente pid retvalp fils⟩) : Origine a s p e r w pid retvalp fils := by
  by_cases hwa : w = a
  · subst hwa
    have hpoll : ∀ {fils₀}, s.cpu.suite = .attente pid retvalp fils₀ → (∀ pid retvalp ret ecrit, r ≠ .attendu pid retvalp ret ecrit) ∧
        s.contexte w = some ⟨w, .attente pid retvalp fils₀⟩ := by
      intro fils₀ hs
      refine ⟨?_, by rw [h.contexte_actif, hs]⟩
      rintro pid' retvalp' ret ecrit rfl
      rcases he.attendu _ _ _ _ rfl with ⟨rfl, -⟩ | ⟨x, rfl, hs', -⟩
      · cases hs.symm.trans ho.code
      · obtain ⟨rfl, rfl, -⟩ := Suite.attente.inj (hs.symm.trans hs')
        exact attendu_code h hs ho.2 hx
    cases he.cherche pid retvalp fils hx with
    | meme hs => exact .garde fils (hpoll hs).2 (.inl rfl) fun _ => (hpoll hs).1
    | suit x _ hs _ hfils => exact .garde (some x) (hpoll hs).2 (.inr ⟨x, rfl, hfils⟩) fun _ => (hpoll hs).1
    | debut hev hpid hne hfils =>
      subst hev
      obtain ⟨rfl, hfound⟩ := waitpid_sonde h hf ho.code ho.2 hx
      refine .debut rfl rfl rfl hfils (hfils ▸ hne) ?_
      rcases hfound with hneg | ⟨c, hcl, hpc, hst⟩
      · exact .inl hneg
      · obtain ⟨q, l, d, hrep⟩ := h.rep
        refine .inr ⟨c, h.recueillable.2 ⟨hf.propre c hcl, .inr hpc, ?_⟩⟩
        -- A slot never started has pid 0, and a dead one is not found.
        have hn := hrep.named c
        have hm : p c ≠ .mort := fun hm => hst (hrep.state_eq_mort.2 hm)
        cases hpl : p c with
        | libre =>
          rw [if_pos hpl, hpc] at hn
          exact absurd hn hpid
        | mort => exact absurd hpl hm
        | zombie => exact .inr rfl
        | _ => exact .inl rfl
  · have hcx := he.contexte w hwa
    rw [hx] at hcx
    split at hcx
    · cases hcx
    · exact .garde fils hcx.symm (.inl rfl) fun h => absurd h hwa

theorem Inv.pid_recueillable (h : Inv f a s p) (hc : Recueillable s w pid c) : s.pid c = (c.val : Int) := by
  obtain ⟨-, -, hp⟩ := h.recueillable.1 hc
  obtain ⟨q, l, d, hrep⟩ := h.rep
  refine hrep.pid fun hl => ?_
  rw [hl] at hp
  simp [Place.vif] at hp

/-- A kill leaves a child to every wait it does not concern. -/
theorem Aboutit.reste (hab : Aboutit s e) (h : Inv f a s p) (hw : Vivant s w) (hx : s.contexte w = some ⟨w, .attente pid retvalp fils⟩)
    (hc : Recueillable s w pid c) :
    ∃ c', Recueillable s w pid c' ∧ (p c' = .endormi → e ≠ .appel (.kill (s.pid c'))) := by
  by_cases hk : p c = .endormi ∧ e = .appel (.kill (s.pid c))
  · obtain ⟨hpc, rfl⟩ := hk
    obtain ⟨q, l, d, hrep⟩ := h.rep
    obtain ⟨c', hne, hc'⟩ := hab c (hrep.endormis.2 hpc) rfl w hw pid (by rw [St.sonde, hx]; rfl) hc
    refine ⟨c', hc', fun _ he => hne ?_⟩
    have hpid : s.pid c = s.pid c' := Appel.kill.inj (Event.appel.inj he)
    rw [h.pid_recueillable hc, h.pid_recueillable hc'] at hpid
    exact Fin.ext (by exact_mod_cast hpid.symm)
  · exact ⟨c, hc, fun hpc he => hk ⟨hpc, he⟩⟩

/-- The polls of the others take nothing away. -/
theorem Reperes.autre {la : List Slot} {ecrit : Option Int} {pid' : Int} {retvalp' : Bool} (hj : Reperes tr s p) (h : Inv f a s p)
    (he : Effet f a s p e r s' n p') (hla : Fratrie tr s a la) (hl : Fratrie tr s w l) (hwa : w ≠ a) (hc : Recueillable s w pid c) :
    r ≠ .attendu pid' retvalp' (s.pid c) ecrit := by
  rintro rfl
  have hpc := h.pid_recueillable hc
  rcases he.attendu _ _ _ _ rfl with ⟨-, hret, -⟩ | ⟨x, -, hs, hz, -, -, hret, -⟩
  · omega
  -- What `a` gets is in its own list, and no child is in two.
  · obtain ⟨y, hy, hm⟩ := hj.pointeur a _ _ _ (.inl h.actif) (by rw [h.contexte_actif, hs])
    obtain rfl := Option.some.inj hy
    obtain ⟨q, l', d, hrep⟩ := h.rep
    rw [hpc, hrep.pid (by simp [hz])] at hret
    obtain rfl : c = x := Fin.ext (by exact_mod_cast hret)
    rw [hla.fils] at hm
    exact hl.disjoint hla hwa (hj.mem h hl hc) hm

/-- A process that polls after a step has kept its child list. -/
theorem Effet.poll (h : Inv f a s p) (he : Effet f a s p e r s' n p') (ho : Pas s e r s')
    (hc : ∀ x, r = .cree x → Naissance s s' a x ∧ Reprise tr s a x) (hf : Familles tr s) (hw : Vivant s' w)
    (hx : s'.contexte w = some ⟨w, .attente pid retvalp fils⟩) :
    Vivant s w ∧ (∃ l, Fratrie tr s w l ∧ Fratrie (tr ++ [(s, e, r)]) s' w l) ∧ Origine a s p e r w pid retvalp fils := by
  obtain ⟨la, hla⟩ := hf a (.inl h.actif)
  have horig := he.origine h ho hla hx
  -- A process that polls is not in the middle of `start`.
  have hia : w = a → ∀ x, r ≠ .cree x := by
    rintro rfl x rfl
    have hcr := (he.cree x rfl).2.2
    cases horig with
    | garde fils₀ hx₀ =>
      unfold Event.creation at hcr
      split at hcr
      · cases (h.suite_eq hx₀).symm.trans ho.code
      · cases hcr
    | debut _ hev =>
      rw [hev] at hcr
      cases hcr
  have hrw : r ≠ .cree w := by
    rintro rfl
    by_cases hwa : w = a
    · exact hia hwa w rfl
    · have hcx := he.contexte w hwa
      rw [hx, if_pos rfl] at hcx
      cases hcx
  have hws : Vivant s w := he.vivant h hrw hw
  obtain ⟨l, hl⟩ := hf w hws
  exact ⟨hws, ⟨l, hl, he.fratrie h hc ⟨la, hla⟩ hw hrw hia hl⟩, horig⟩

theorem Effet.reperes (h : Inv f a s p) (he : Effet f a s p e r s' n p') (ho : Pas s e r s')
    (hc : ∀ x, r = .cree x → Naissance s s' a x ∧ Reprise tr s a x) (hf : Familles tr s) (hj : Reperes tr s p) :
    Reperes (tr ++ [(s, e, r)]) s' p' := by
  refine ⟨he.mort h hj.mort, fun w pid retvalp fils hw hx => ?_⟩
  obtain ⟨hws, ⟨l, hl, hl'⟩, horig⟩ := he.poll h ho hc hf hw hx
  rw [hl'.fils]
  cases horig with
  | garde fils₀ hx₀ hsuiv =>
    obtain ⟨x, rfl, hxl⟩ := hj.pointeur w pid retvalp fils₀ hws hx₀
    rw [hl.fils] at hxl
    rcases hsuiv with rfl | ⟨y, hy, rfl⟩
    · exact ⟨x, rfl, hxl⟩
    · obtain rfl := Option.some.inj hy
      obtain ⟨z, hz, hzs⟩ := hl.chaine.round_mem hxl
      exact ⟨z, hzs, hz⟩
  | debut hwa _ _ hfp hne =>
    subst hwa
    obtain ⟨y, hy⟩ := Option.ne_none_iff_exists'.1 hne
    refine ⟨y, hfp.trans hy, ?_⟩
    rw [hl.chaine.head] at hy
    exact List.mem_of_mem_head? hy

/-- The polls under way go on, each with a child left to get. -/
theorem Effet.sondes (h : Inv f a s p) (he : Effet f a s p e r s' n p') (ho : Pas s e r s')
    (hc : ∀ x, r = .cree x → Naissance s s' a x ∧ Reprise tr s a x) (hf : Familles tr s) (hab : Aboutit s e)
    (hj : Sondes tr s p) : Sondes (tr ++ [(s, e, r)]) s' p' := by
  refine ⟨he.reperes h ho hc hf hj.toReperes, fun w pid retvalp fils hw hx => ?_⟩
  obtain ⟨hws, ⟨l, hl, hl'⟩, horig⟩ := he.poll h ho hc hf hw hx
  cases horig with
  | garde fils₀ hx₀ _ hno =>
    obtain ⟨c₀, hc₀⟩ := hj.but w pid retvalp _ hws hx₀
    obtain ⟨c, hcr, hk⟩ := hab.reste h hws hx₀ hc₀
    refine ⟨c, he.recueillable h hcr hk ?_ (hl'.propre c (hj.mem h hl hcr))⟩
    by_cases hwa : w = a
    · exact fun pid' retvalp' v => hno hwa _ _ _ _
    · obtain ⟨la, hla⟩ := hf a (.inl h.actif)
      exact fun pid' retvalp' v => hj.autre h he hla hl hwa hcr
  | debut hwa hev hr _ hne hcr =>
    subst hwa
    have hex : ∃ c, Recueillable s w pid c := by
      rcases hcr with hneg | hcr
      · subst hev
        exact hab hneg w h.actif hne
      · exact hcr
    obtain ⟨c, hcr⟩ := hex
    exact ⟨c, he.recueillable h hcr (by rw [hev]; nofun) (by rw [hr]; nofun) (hl'.propre c (hj.mem h hl hcr))⟩

/-- A poll of `a` ends, unless it stores through a NULL `retvalp`. -/
theorem Reperes.sonde (hj : Reperes tr s p) (hi : Inv f a s p) (hf : Familles tr s)
    (hx : s.contexte a = some ⟨a, .attente pid retvalp fils⟩) : (∃ r s', Pas s .suite r s') ∨
      retvalp = false ∧ ∃ x, fils = some x ∧ Recueillable s a pid x ∧ s.state x = .zombie ∧ s.retval x ≠ none := by
  obtain ⟨l, hl⟩ := hf a (.inl hi.actif)
  obtain ⟨x, rfl, hxl⟩ := hj.pointeur a pid retvalp fils (.inl hi.actif) hx
  rw [hl.fils] at hxl
  obtain ⟨y, -, hy⟩ := hl.chaine.round_mem hxl
  have hs := hi.suite_eq hx
  have hne : suivant s a x ≠ none := by
    rw [show suivant s a x = some y from hy]
    nofun
  rcases sonde_total pid retvalp hi hne with ⟨r, s', ho⟩ | ⟨hret, hz, hpid, hv⟩
  · refine .inl ⟨r, s', by simp [Event.possible, hs], ?_⟩
    rw [joue, poursuit, hs]
    exact ho
  · obtain ⟨q, ls, d, hrep⟩ := hi.rep
    exact .inr ⟨hret, x, rfl, hi.recueillable.2 ⟨hl.propre x hxl, hpid, .inr hz⟩, hrep.state_eq_zombie.2 hz, hv⟩

/-! ## The progress of one wait -/

def Event.reprise : Event → Bool
  | .suite => true
  | _ => false

/-- The polls of `w` in a trace. -/
def sondages (w : Slot) (tr : List (St × Event × Issue)) : Nat :=
  tr.countP fun t => decide (t.1.actif = some w) && t.2.1.reprise

theorem sondages_snoc : sondages w (tr ++ [(s, e, r)]) = sondages w tr + if s.actif = some w ∧ e.reprise = true then 1 else 0 := by
  simp [sondages, List.countP_append, List.countP_singleton]

/-- A child got by the wait of `w`. -/
def Rendu (w : Slot) (pid : Int) (retvalp : Bool) (tr : List (St × Event × Issue)) : Prop :=
  ∃ t e x v, (t, e, .attendu pid retvalp ((x : Slot).val : Int) v) ∈ tr ∧ t.actif = some w ∧ (pid < 0 ∨ (x.val : Int) = pid)

/-- How far the wait of `w` is from the zombie `c`, after `m` polls. -/
inductive Approche (w : Slot) (pid : Int) (retvalp : Bool) (c : Slot) (tr : List (St × Event × Issue)) (s : St) : Prop
  | rendu : Rendu w pid retvalp tr → Approche w pid retvalp c tr s
  | fini : ¬Vivant s w → sondages w tr < PROCESS_TABLE_SIZE → Approche w pid retvalp c tr s
  | guette (fils : Option Slot) (l : List Slot) : Vivant s w → s.contexte w = some ⟨w, .attente pid retvalp fils⟩ →
    Recueillable s w pid c → s.state c = .zombie → Seg (suivant s w) fils l (some c) → (∀ y ∈ l, y ∈ s.fils w) →
    sondages w tr + l.length < PROCESS_TABLE_SIZE → Approche w pid retvalp c tr s

/-- The list of `w` is the same after the step, and so is the traversal. -/
theorem Fratrie.suivant (h : Fratrie tr s w l) {tr' : List (St × Event × Issue)} (h' : Fratrie tr' s' w l) (hx : x ∈ l) :
    suivant s' w x = suivant s w x := by
  obtain ⟨hhd, hnext⟩ := h.chaine.agree h'.chaine
  rw [Pcsea.suivant, Pcsea.suivant, hhd, hnext x hx]

/-- A zombie stays one until it is awaited or left without a father. -/
theorem Va.zombie {P : Place} (h : Va f s p e r s' c P) (hc : p c = .zombie) (h₁ : ∀ pid retvalp v, r ≠ .attendu pid retvalp (s.pid c) v)
    (h₂ : s'.pere c ≠ none) (h₃ : r ≠ .cree c) : P = .zombie := by
  cases h with
  | reste => exact hc
  | libere k hk => simp [hk.1] at hc
  | demarre _ hr => exact absurd hr h₃
  | tourne hp => rcases hp with hp | hp <;> simp [hp] at hc
  | recolte pid retvalp v _ hr => exact absurd hr (h₁ pid retvalp v)
  | orphelin _ hp => exact absurd hp h₂
  | _ => simp_all

theorem tick_contexte (h : Inv f a s p) (ho : joue .tick s = .ok (r, s')) : s'.contexte = s.contexte := by
  obtain ⟨n, p', -, hcd, -⟩ := (ticPitClock_spec h).of_ok (sansIssue_eq_ok.1 ho).1
  exact hcd.contexte

/-- A poll that gets nothing looks at the next child. -/
theorem sonde_suit (h : Inv f a s p) (hs : s.cpu.suite = .attente pid retvalp fils) (ho : joue .suite s = .ok (r, s')) :
    ∃ x, fils = some x ∧ ((p x = .zombie ∧ (pid < 0 ∨ s.pid x = pid) ∧ r = .attendu pid retvalp (s.pid x) (s.retval x)) ∨
      ¬(p x = .zombie ∧ (pid < 0 ∨ s.pid x = pid)) ∧ r = .enCours ∧ s'.contexte a = some ⟨a, .attente pid retvalp (suivant s a x)⟩) := by
  rw [joue, poursuit, hs] at ho
  obtain ⟨x, rfl, ⟨hz, hpid, hr, -⟩ | ⟨hno, hr, -, n, p', -, hcd, -⟩⟩ := (pidDunFilsTermine_spec _ _ _ h).of_ok ho
  · exact ⟨x, rfl, .inl ⟨hz, hpid, hr⟩⟩
  · refine ⟨x, rfl, .inr ⟨hno, hr, ?_⟩⟩
    rw [← contexte_actif h]
    exact congrFun hcd.contexte a

theorem Rendu.snoc (h : Rendu w pid retvalp tr) : Rendu w pid retvalp (tr ++ [(s, e, r)]) := by
  obtain ⟨t, e', x, v, hm, h⟩ := h
  exact ⟨t, e', x, v, by simp [hm], h⟩

/-- The running process lives on, unless it ends. -/
theorem Effet.actif_vivant (h : Inv f a s p) (he : Effet f a s p e r s' n p') (ht : ¬Termine s e) (hcr : r ≠ .cree a) :
    Vivant s' a := by
  refine he.inv.vivant_iff.2 ?_
  have hva := he.va a
  have hfin : p' a ≠ .zombie := fun hz => ht (he.fin.1 hz)
  generalize p' a = P at hva hfin
  cases hva with
  | reste => simp [h.elu, Place.vif]
  | tourne _ hP => rcases hP with rfl | rfl <;> rfl
  | finit => exact absurd rfl hfin
  | demarre _ hr => exact absurd hr hcr
  | dort => rfl
  | attend => rfl
  | libere => rfl
  | echeance _ _ _ hP => rcases hP with rfl | rfl <;> rfl
  | tue => exact absurd rfl hfin
  | tueEndormi hp => simp [h.elu] at hp
  | recolte _ _ _ hp => simp [h.elu] at hp
  | orphelin hp => simp [h.elu] at hp

/-- The wait of `w` goes on after a step that leaves it the zombie `c`, with `m` to look at before. -/
theorem Effet.guette {tr' : List (St × Event × Issue)} {m : List Slot} (h : Inv f a s p) (he : Effet f a s p e r s' n p')
    (hc : ∀ x, r = .cree x → Naissance s s' a x ∧ Reprise tr s a x) (ha : ∃ la, Fratrie tr s a la) (hl : Fratrie tr s w l)
    (hcl : c ∈ l) (hcr : Recueillable s w pid c) (hz : p c = .zombie) (hcw : r ≠ .cree w) (hia : w = a → ∀ x, r ≠ .cree x)
    (hno : ∀ pid' retvalp' v, r ≠ .attendu pid' retvalp' (s.pid c) v) (hv : Vivant s' w)
    (hx : s'.contexte w = some ⟨w, .attente pid retvalp fils⟩) (hseg : Seg (suivant s w) fils m (some c)) (hm : ∀ y ∈ m, y ∈ l)
    (hlt : sondages w tr' + m.length < PROCESS_TABLE_SIZE) : Approche w pid retvalp c tr' s' := by
  obtain ⟨q, ls, d, hrep⟩ := he.inv.rep
  have hl' := he.fratrie h hc ha hv hcw hia hl
  have hpere := hl'.propre c hcl
  have hrc : r ≠ .cree c := by
    rintro rfl
    rw [(hc c rfl).1.pere, Function.update_self] at hpere
    exact hia (Option.some.inj hpere).symm c rfl
  have hz' := (he.va c).zombie hz hno (by simp [hpere]) hrc
  refine .guette fils m hv hx (he.recueillable h hcr (by simp [hz]) hno hpere) (hrep.state_eq_zombie.2 hz') ?_ (by rwa [hl'.fils]) hlt
  exact (seg_congr fun y hy => hl.suivant hl' (hm y hy)).2 hseg

theorem sondages_autre (h : s.actif = some w → e.reprise = false) : sondages w (tr ++ [(s, e, r)]) = sondages w tr := by
  rw [sondages_snoc, if_neg]
  · rfl
  · rintro ⟨ha, hr⟩
    simp [h ha] at hr

/-- Each poll of `w` comes closer to the zombie, and nothing else takes it further. -/
theorem Approche.pas {tr' : List (St × Event × Issue)} (h : Inv f a s p) (hf : Familles tr s) (hj : Reperes tr s p) (ho : Pas s e r s')
    (he : Effet f a s p e r s' n p') (hc : ∀ x, r = .cree x → Naissance s s' a x ∧ Reprise tr s a x) (hcw : r ≠ .cree w)
    (ha : Approche w pid retvalp c tr' s) : Approche w pid retvalp c (tr' ++ [(s, e, r)]) s' := by
  cases ha with
  | rendu hr => exact .rendu hr.snoc
  | fini hv hlt =>
    refine .fini (fun hv' => hv (he.vivant h hcw hv')) ?_
    rwa [sondages_autre fun ha => absurd (.inl ha) hv]
  | guette fils m hv hx hcr hz hseg hsub hlt =>
    -- The polls made and the children left before `c` add up to the same number, or less.
    obtain ⟨l, hl⟩ := hf w hv
    obtain ⟨la, hla⟩ := hf a (.inl h.actif)
    obtain ⟨q, ls, d, hrep⟩ := h.rep
    have hpz : p c = .zombie := hrep.state_eq_zombie.1 hz
    have hcl : c ∈ l := hj.mem h hl hcr
    rw [hl.fils] at hsub
    by_cases hwa : w = a
    · subst hwa
      have hs := h.suite_eq hx
      cases e with
      | appel x => cases hs.symm.trans ho.code
      | tick =>
        have hr : r = .enCours := (sansIssue_eq_ok.1 ho.2).2
        refine he.guette h hc ⟨l, hl⟩ hl hcl hcr hpz hcw (by simp [hr]) (by simp [hr]) (he.actif_vivant h id hcw) ?_ hseg hsub ?_
        · rw [tick_contexte h ho.2, hx]
        · rwa [sondages_autre fun _ => rfl]
      | suite =>
        obtain ⟨x, rfl, ⟨hzx, hpid, hr⟩ | ⟨hno, hr, hx'⟩⟩ := sonde_suit h hs ho.2
        · have hpx : s.pid x = (x.val : Int) := hrep.pid (by simp [hzx])
          rw [hpx] at hpid hr
          exact .rendu ⟨s, .suite, x, s.retval x, by simp [hr], h.actif, hpid⟩
        · cases m with
          | nil =>
            obtain rfl : x = c := Option.some.inj hseg
            exact absurd ⟨hpz, hcr.2.1⟩ hno
          | cons y m =>
            obtain ⟨hxy, hseg⟩ := hseg
            obtain rfl := Option.some.inj hxy
            refine he.guette h hc ⟨l, hl⟩ hl hcl hcr hpz hcw (by simp [hr]) (by simp [hr]) (he.actif_vivant h id hcw) hx' hseg
              (fun z hz => hsub z (by simp [hz])) ?_
            rw [sondages_snoc, if_pos ⟨h.actif, rfl⟩]
            simp only [List.length_cons] at hlt
            omega
    · have hsond : sondages w (tr' ++ [(s, e, r)]) = sondages w tr' := sondages_autre fun ha => absurd (h.actif_eq ha).symm hwa
      by_cases hv' : Vivant s' w
      · refine he.guette h hc ⟨la, hla⟩ hl hcl hcr hpz hcw (fun h => absurd h hwa)
          (fun _ _ _ => hj.autre h he hla hl hwa hcr) hv' ?_ hseg hsub (by rwa [hsond])
        rw [he.contexte w hwa, if_neg hcw, hx]
      · exact .fini hv' (by omega)

/-! ## Runs -/

/-- The steps of a run in which every wait may end. -/
def Attendable (tr : List (St × Event × Issue)) (s : St) (e : Event) : Prop := Reprend tr s e ∧ Aboutit s e

/-- What holds after a run of such steps. -/
def Attendus (tr : List (St × Event × Issue)) (s : St) : Prop := ∃ a p, Inv melange a s p ∧ Familles tr s ∧ Sondes tr s p

theorem reperes_boot : Reperes [] boot placesBoot ∧ ∀ w pid retvalp fils, boot.contexte w ≠ some ⟨w, .attente pid retvalp fils⟩ := by
  have hno : ∀ w pid retvalp fils, boot.contexte w ≠ some ⟨w, .attente pid retvalp fils⟩ := by
    intro w pid retvalp fils
    rw [boot_eq]
    by_cases hw : w = 0 <;> simp [St.contexte, initSlot, St.zero, hw]
  exact ⟨⟨fun c hc => absurd hc (by simp [recueillis]), fun w pid retvalp fils _ hx => absurd hx (hno _ _ _ _)⟩, hno⟩

theorem attendus_spec (hr : Parcours Sain tr s) (hc : Along Attendable [] tr) : Attendus tr s := by
  refine hr.inv_along Attendus hc ?_ ?_
  · exact ⟨0, _, inv_boot _, familles_boot, reperes_boot.1, fun w pid retvalp fils _ hx => absurd hx (reperes_boot.2 _ _ _ _)⟩
  · rintro tr s e r s' ⟨a, p, hi, hf, hj⟩ hce ⟨hs, ho⟩
    obtain ⟨n, p', he, hn, hf'⟩ := reprend_pas hi hf hs hce.1 ho
    exact ⟨n, p', he.inv, hf', he.sondes hi ho hn hf hce.2 hj⟩

/-- A wait ends once its child has: after as many polls as the table has slots. -/
theorem Reperes.rendu {tr' : List (St × Event × Issue)} (hj : Reperes tr s p) (hi : Inv melange a s p) (hf : Familles tr s)
    (hv : Vivant s w) (hx : s.contexte w = some ⟨w, .attente pid retvalp fils⟩) (hcr : Recueillable s w pid c)
    (hz : s.state c = .zombie) (hr' : Run (Under Sain Pas) s tr' s') (hc' : Along Reprend tr tr')
    (hw : ∀ t e, (t, e, .cree w) ∉ tr') (hn : PROCESS_TABLE_SIZE ≤ sondages w tr') : Rendu w pid retvalp tr' := by
  obtain ⟨l, hl⟩ := hf w hv
  obtain ⟨x, rfl, hxl⟩ := hj.pointeur w pid retvalp fils hv hx
  rw [hl.fils] at hxl
  obtain ⟨m, hseg, hlen, hsub⟩ := hl.chaine.round_seg hxl (hj.mem hi hl hcr)
  have hlt : m.length < PROCESS_TABLE_SIZE := lt_of_lt_of_le hlen (length_le_table hl.chaine.nodup)
  have hfin : (∃ a p, Inv melange a s' p ∧ Familles (tr ++ tr') s' ∧ Reperes (tr ++ tr') s' p) ∧
      ((∀ t e, (t, e, .cree w) ∉ tr') → Approche w pid retvalp c tr' s') := by
    refine hr'.inv_along (fun tr' s' => (∃ a p, Inv melange a s' p ∧ Familles (tr ++ tr') s' ∧ Reperes (tr ++ tr') s' p) ∧
      ((∀ t e, (t, e, .cree w) ∉ tr') → Approche w pid retvalp c tr' s')) hc' ?_ ?_
    · rw [List.append_nil]
      exact ⟨⟨a, p, hi, hf, hj⟩, fun _ => .guette (some x) m hv hx hcr hz hseg (by rwa [hl.fils]) (by simpa [sondages] using hlt)⟩
    · rintro tr' s e r s' ⟨⟨a, p, hi, hf, hj⟩, ha⟩ hce ⟨hs, ho⟩
      obtain ⟨n, p', he, hna, hf'⟩ := reprend_pas hi hf hs hce ho
      rw [← List.append_assoc]
      refine ⟨⟨n, p', he.inv, hf', he.reperes hi ho hna hf hj⟩, fun hw => ?_⟩
      exact (ha fun t e hm => hw t e (by simp [hm])).pas hi hf hj ho he hna fun hr => hw s e (by simp [hr])
  cases hfin.2 hw with
  | rendu hr => exact hr
  | fini _ hlt => omega
  | guette _ _ _ _ _ _ _ _ hlt => omega

/-- When slots are only used again where they may be, a wait for any child begins only if one is left, and the last child a
wait may get is not killed in its sleep: a process that polls has a child to get, which the traversal meets; a call on children
that were all awaited returns -1; a wait ends once the child has; and a poll ends, unless it stores through a NULL `retvalp`. -/
theorem waits_end (hr : Parcours Sain tr s) (hc : Along Attendable [] tr) :
    (∀ w pid retvalp fils, Vivant s w → s.contexte w = some ⟨w, .attente pid retvalp fils⟩ →
      ∃ c l, Recueillable s w pid c ∧ Seg (suivant s w) fils l (some c) ∧ l.length < PROCESS_TABLE_SIZE) ∧
    (∀ a pid retvalp, s.actif = some a → pid < 0 → (∀ c, s.pere c = some a → recueillis tr c = true) →
      Aboutit s (.appel (.waitpid pid retvalp)) → waitpid pid retvalp s = .ok (.attendu pid retvalp (-1) none, s)) ∧
    (∀ w pid retvalp fils c, Vivant s w → s.contexte w = some ⟨w, .attente pid retvalp fils⟩ → Recueillable s w pid c →
      s.state c = .zombie → ∀ tr' s', Run (Under Sain Pas) s tr' s' → Along Attendable tr tr' → (∀ t e, (t, e, .cree w) ∉ tr') →
      PROCESS_TABLE_SIZE ≤ sondages w tr' → Rendu w pid retvalp tr') ∧
    ∀ w pid retvalp fils, s.actif = some w → s.contexte w = some ⟨w, .attente pid retvalp fils⟩ → (∃ r s', Pas s .suite r s') ∨
      retvalp = false ∧ ∃ x, fils = some x ∧ Recueillable s w pid x ∧ s.state x = .zombie ∧ s.retval x ≠ none := by
  obtain ⟨a, p, hi, hf, hj⟩ := attendus_spec hr hc
  refine ⟨fun w pid retvalp fils hv hx => ?_, fun b pid retvalp ha hpid hrec hab => ?_,
    fun w pid retvalp fils c hv hx hcr hz tr' s' hr' hc' =>
      hj.rendu hi hf hv hx hcr hz hr' (hc'.mono fun _ _ _ h => h.1), fun w pid retvalp fils ha hx => ?_⟩
  · obtain ⟨l, hl⟩ := hf w hv
    obtain ⟨x, rfl, hxl⟩ := hj.pointeur w pid retvalp fils hv hx
    obtain ⟨c, hcr⟩ := hj.but w pid retvalp _ hv hx
    rw [hl.fils] at hxl
    obtain ⟨m, hseg, hlen, -⟩ := hl.chaine.round_seg hxl (hj.mem hi hl hcr)
    exact ⟨c, m, hcr, hseg, lt_of_lt_of_le hlen (length_le_table hl.chaine.nodup)⟩
  · obtain rfl : a = b := hi.actif_eq ha
    obtain ⟨l, hl⟩ := hf a (.inl ha)
    -- All its children were collected, so the chain is empty.
    have hnone : s.premierFils a = none := by
      by_contra hne
      obtain ⟨c, hcr⟩ := hab hpid a ha hne
      have hp := (hi.recueillable.1 hcr).2.2
      rw [hj.mort c (hrec c hcr.1)] at hp
      simp [Place.vif] at hp
    rw [waitpid_eq hi hl, hl.chaine.head_none.1 hnone, hnone]
    simp
  · obtain rfl : a = w := hi.actif_eq ha
    exact hj.sonde hi hf hx

instance (s : St) (w : Slot) (pid : Int) (c : Slot) : Decidable (Recueillable s w pid c) :=
  inferInstanceAs (Decidable (_ ∧ _ ∧ _))

instance (s : St) : (e : Event) → Decidable (Aboutit s e)
  | .appel (.waitpid pid _) => inferInstanceAs (Decidable (pid < 0 → ∀ a, s.actif = some a → s.premierFils a ≠ none →
      ∃ c, Recueillable s a pid c))
  | .appel (.kill cible) => inferInstanceAs (Decidable (∀ c ∈ s.endormis, s.pid c = cible → ∀ w, Vivant s w → ∀ pid ∈ s.sonde w,
      Recueillable s w pid c → ∃ c', c' ≠ c ∧ Recueillable s w pid c'))
  | .appel (.start _ _ _) | .appel (.exit _) | .appel (.retour _) | .appel (.chprio _ _) | .appel (.dors _)
  | .appel (.sleepUntil _) | .appel (.waitClock _) | .appel (.pcreate _ _) | .appel (.pdelete _) | .appel (.preset _)
  | .appel (.psend _ _) | .appel (.preceive _) | .suite | .tick => inferInstanceAs (Decidable True)

instance (tr : List (St × Event × Issue)) (s : St) (e : Event) : Decidable (Attendable tr s e) :=
  inferInstanceAs (Decidable (_ ∧ _))

/-- Process 0 waits for any of two children, one asleep and one that has ended. -/
theorem waits_end_run :
    ∃ tr s, Parcours Sain tr s ∧ Along Attendable [] tr ∧
      (s.state 1 = .endormi ∧ s.state 2 = .zombie ∧ s.contexte 0 = some ⟨0, .attente (-1) true (some 1)⟩) ∧
      (∀ w pid retvalp fils, Vivant s w → s.contexte w = some ⟨w, .attente pid retvalp fils⟩ →
        ∃ c l, Recueillable s w pid c ∧ Seg (suivant s w) fils l (some c) ∧ l.length < PROCESS_TABLE_SIZE) ∧
      (∀ a pid retvalp, s.actif = some a → pid < 0 → (∀ c, s.pere c = some a → recueillis tr c = true) →
        Aboutit s (.appel (.waitpid pid retvalp)) → waitpid pid retvalp s = .ok (.attendu pid retvalp (-1) none, s)) ∧
      (∀ w pid retvalp fils c, Vivant s w → s.contexte w = some ⟨w, .attente pid retvalp fils⟩ → Recueillable s w pid c →
        s.state c = .zombie → ∀ tr' s', Run (Under Sain Pas) s tr' s' → Along Attendable tr tr' → (∀ t e, (t, e, .cree w) ∉ tr') →
        PROCESS_TABLE_SIZE ≤ sondages w tr' → Rendu w pid retvalp tr') ∧
      ∀ w pid retvalp fils, s.actif = some w → s.contexte w = some ⟨w, .attente pid retvalp fils⟩ → (∃ r s', Pas s .suite r s') ∨
        retvalp = false ∧ ∃ x, fils = some x ∧ Recueillable s w pid x ∧ s.state x = .zombie ∧ s.retval x ≠ none := by
  obtain ⟨tr, s, hr, hc, hx⟩ := deroule_any (P := Sain)
    (Q := fun tr s => Along Attendable [] tr ∧
      s.state 1 = .endormi ∧ s.state 2 = .zombie ∧ s.contexte 0 = some ⟨0, .attente (-1) true (some 1)⟩) boot
    [.appel (.start 512 5 "p"), .appel (.start 512 5 "q"), .tick, .appel (.sleepUntil 9), .appel (.exit 4),
      .appel (.waitpid (-1) true)] (by decide +kernel)
  exact ⟨tr, s, hr, hc, hx, waits_end hr hc⟩

/-- Process 0 awaits its only child, then waits for any child: it polls, and there is none to get. -/
theorem waits_end_fails :
    ¬∀ tr s, Parcours (fun _ _ => True) tr s → ∀ w pid retvalp fils, Vivant s w →
      s.contexte w = some ⟨w, .attente pid retvalp fils⟩ →
      ∃ c l, Recueillable s w pid c ∧ Seg (suivant s w) fils l (some c) ∧ l.length < PROCESS_TABLE_SIZE := by
  intro h
  obtain ⟨tr, s, hr, hv, hx, hno⟩ := deroule_any (P := fun _ _ => True)
    (Q := fun _ s => Vivant s 0 ∧ s.contexte 0 = some ⟨0, .attente (-1) true (some 1)⟩ ∧ ∀ c, ¬Recueillable s 0 (-1) c) boot
    [.appel (.start 512 5 "p"), .tick, .appel (.exit 3), .appel (.waitpid 1 true), .suite, .appel (.waitpid (-1) true)]
    (by decide +kernel)
  obtain ⟨c, l, hc, -⟩ := h tr s hr 0 _ _ _ hv hx
  exact hno c hc

end Pcsea
