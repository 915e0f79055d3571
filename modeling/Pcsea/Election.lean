import Pcsea.Courant
import Pcsea.Priorite
/-!
# Who is elected

`ordonnance` and `fin_processus` elect a process of the highest priority.
`start`, the message calls, `pdelete` and `preset` make processes ready and
elect nobody.
-/

namespace Pcsea

open Lib

variable {s s' : St} {p : Slot → Place} {q : List Slot} {a i n x : Slot} {e : Event} {r : Issue}
  {tr : List (St × Event × Issue)}

/-- The ready queue is `q`, in the order of the priorities. -/
structure Tri (s : St) (q : List Slot) : Prop where
  ready : Ready s.next s.prev q
  sorted : q.Pairwise fun i j => s.prio i ≤ s.prio j

/-- No ready process has a higher priority than `a`. -/
def Domine (a : Slot) (s : St) : Prop := ∀ i, s.prete i = true → s.prio i ≤ s.prio a

/-- `actif` has the highest priority. -/
def Prioritaire (s : St) : Prop := ∃ a, s.actif = some a ∧ Domine a s

theorem Tri.mem (h : Tri s q) : s.prete i = true ↔ i ∈ q := by
  constructor
  · intro hi
    by_contra hn
    simp [St.prete, (h.ready.unlinked hn).1] at hi
  · exact fun hi => (h.ready.linked hi).1

theorem Tri.congr (h : Tri s q) (h₁ : s'.next = s.next) (h₂ : s'.prev = s.prev) (h₃ : s'.prio = s.prio) : Tri s' q :=
  ⟨by rw [h₁, h₂]; exact h.ready, by rw [h₃]; exact h.sorted⟩

theorem Domine.congr (h : Domine a s) (h₁ : s'.next = s.next) (h₃ : s'.prio = s.prio) : Domine a s' := by
  intro i hi
  rw [h₃]
  exact h i (by rwa [St.prete, h₁] at hi)

/-- The last process of the queue has the highest priority. -/
theorem Tri.le_last {t : Slot} (h : Tri s (q ++ [t])) (hi : i ∈ q) : s.prio i ≤ s.prio t :=
  (List.pairwise_append.1 h.sorted).2.2 i hi t (by simp)

/-! ## The moves of the queue -/

theorem insertActivable_tri (h : Tri s q) (ho : insertActivable x s = .ok s') :
    Tri s' (parPrio s x q) ∧ s'.prio = s.prio ∧ s'.actif = s.actif := by
  have hx : x ∉ q := fun hm => by
    rw [insertActivable_fail h.ready hm] at ho
    cases ho
  obtain ⟨next, prev, ho', hr⟩ := queueAdd_spec (s := (s.setState x .activable).setSuiv x none) h.ready hx
  obtain rfl := Except.ok.inj (ho'.symm.trans ho)
  exact ⟨⟨hr, parPrio_sorted h.sorted⟩, rfl, rfl⟩

theorem extractActivable_tri (h : Tri s q) :
    (q = [] ∧ extractActivable s = .ok (none, s)) ∨
    ∃ q' t next prev, q = q' ++ [t] ∧
      extractActivable s = .ok (some t, { s with next, prev, suiv := Function.update s.suiv t none }) ∧
      Tri { s with next, prev, suiv := Function.update s.suiv t none } q' := by
  rcases List.eq_nil_or_concat q with rfl | ⟨q', t, rfl⟩
  · exact .inl ⟨rfl, by simp [extractActivable, (queueEmpty_iff h.ready).2 rfl]⟩
  · rw [List.concat_eq_append] at *
    obtain ⟨next, prev, ho, hr⟩ := queueOut_spec h.ready
    have hne : queueEmpty s = false := by
      rw [Bool.eq_false_iff, ne_eq, queueEmpty_iff h.ready]
      simp
    refine .inr ⟨q', t, next, prev, rfl, by simp [extractActivable, hne, ho, St.setSuiv], hr, ?_⟩
    exact (List.pairwise_append.1 h.sorted).1

theorem extractEndormi_frame {r : Slot × St} (h : extractEndormi s = .ok r) :
    ∃ endormiList endormiTail suiv, r.2 = { s with endormiList, endormiTail, suiv } := by
  unfold extractEndormi at h
  dsimp only at h
  split at h
  · obtain ⟨s₁, hs₁, h⟩ := bind_eq_ok.1 h
    obtain ⟨x, -, h⟩ := bind_eq_ok.1 h
    obtain rfl := Except.ok.inj hs₁
    obtain rfl := Except.ok.inj h
    exact ⟨_, _, _, rfl⟩
  · obtain ⟨y, -, h⟩ := bind_eq_ok.1 h
    obtain ⟨s₁, hs₁, h⟩ := bind_eq_ok.1 h
    obtain ⟨x, -, h⟩ := bind_eq_ok.1 h
    obtain rfl := Except.ok.inj hs₁
    obtain rfl := Except.ok.inj h
    exact ⟨_, _, _, rfl⟩

theorem wakeProcess_tri (h : Tri s q) (ho : wakeProcess s = .ok s') : ∃ q', Tri s' q' ∧ s'.actif = s.actif := by
  -- The loop, whatever it has left to look at.
  have hloop : ∀ k ptr s q, Tri s q → wakeProcessLoop k ptr s = .ok s' → ∃ q', Tri s' q' ∧ s'.actif = s.actif := by
    intro k
    induction k with
    | zero =>
      intro ptr s q h ho
      cases ptr with
      | none =>
        obtain rfl := Except.ok.inj ho
        exact ⟨q, h, rfl⟩
      | some y => cases ho
    | succ k ih =>
      intro ptr s q h ho
      cases ptr with
      | none =>
        obtain rfl := Except.ok.inj ho
        exact ⟨q, h, rfl⟩
      | some y =>
        unfold wakeProcessLoop at ho
        split at ho
        · obtain ⟨⟨x, s₁⟩, h₁, ho⟩ := bind_eq_ok.1 ho
          obtain ⟨hd, tl, suiv, rfl⟩ : ∃ endormiList endormiTail suiv, s₁ = { s with endormiList, endormiTail, suiv } :=
            extractEndormi_frame h₁
          obtain ⟨s₂, h₂, ho⟩ := bind_eq_ok.1 ho
          have ht₁ : Tri { s with endormiList := hd, endormiTail := tl, suiv } q := h.congr rfl rfl rfl
          obtain ⟨ht, -, ha⟩ := insertActivable_tri ht₁ h₂
          obtain ⟨q', ht', ha'⟩ := ih _ _ _ ht ho
          exact ⟨q', ht', ha'.trans ha⟩
        · obtain rfl := Except.ok.inj ho
          exact ⟨q, h, rfl⟩
  exact hloop _ _ _ _ h ho

/-! ## Elections -/

theorem ctxSw_domine {b : Slot} (h : Domine n s) (ha : s.actif = some n) (ho : ctxSw a b s = .ok s') : Prioritaire s' := by
  obtain ⟨c, -, ho⟩ := bind_eq_ok.1 ho
  obtain rfl := Except.ok.inj ho
  exact ⟨n, ha, h⟩

/-- The process taken out of the queue is not below those left, nor below `a` when `a` joins them. -/
theorem Tri.elue {t : Slot} (h : Tri s (q ++ [t])) (h' : Tri s' q) (hp : s'.prio = s.prio) : Domine t s' := by
  intro i hi
  rw [hp]
  exact h.le_last (h'.mem.1 hi)

theorem ordonnance_prioritaire (h : Tri s q) (ho : ordonnance s = .ok s') : Prioritaire s' := by
  obtain ⟨s₁, h₁, ho⟩ := bind_eq_ok.1 ho
  obtain ⟨q₁, ht₁, -⟩ := wakeProcess_tri h h₁
  obtain ⟨a, ha, ho⟩ := bind_eq_ok.1 ho
  rw [deref_eq_ok] at ha
  obtain ⟨oldPid, -, ho⟩ := bind_eq_ok.1 ho
  obtain ⟨⟨o, s₂⟩, h₂, hfin⟩ := bind_eq_ok.1 ho
  -- `actif` goes on, or the last process of the queue is taken.
  have helit : (o = some a ∧ s₂ = s₁ ∧ Domine a s₁) ∨
      ∃ q' t next prev, q₁ = q' ++ [t] ∧ o = some t ∧ s₂ = { s₁ with next, prev, suiv := Function.update s₁.suiv t none } ∧
        Tri s₂ q' ∧ (s₁.prio a ≤ s₁.prio t ∨ s₁.state a = .endormi) := by
    obtain ⟨top, htop, h₂⟩ := bind_eq_ok.1 h₂
    rcases extractActivable_tri ht₁ with ⟨rfl, hx⟩ | ⟨q', t, next, prev, rfl, hx, ht⟩
    · rw [queueTop_nil ht₁.ready] at htop
      obtain rfl := Except.ok.inj htop
      obtain ⟨rfl, rfl⟩ := Prod.mk.inj (Except.ok.inj h₂)
      exact .inl ⟨rfl, rfl, fun i hi => by simpa using ht₁.mem.1 hi⟩
    · rw [queueTop_spec ht₁.ready] at htop
      obtain rfl := Except.ok.inj htop
      dsimp only at h₂
      split at h₂
      · next hc =>
        rw [hx] at h₂
        obtain ⟨rfl, rfl⟩ := Prod.mk.inj (Except.ok.inj h₂)
        exact .inr ⟨q', t, next, prev, rfl, rfl, rfl, ht, hc⟩
      · next hc =>
        obtain ⟨rfl, rfl⟩ := Prod.mk.inj (Except.ok.inj h₂)
        push Not at hc
        refine .inl ⟨rfl, rfl, fun i hi => ?_⟩
        rcases List.mem_append.1 (ht₁.mem.1 hi) with hi | hi
        · exact (ht₁.le_last hi).trans hc.1.le
        · rw [List.mem_singleton.1 hi]
          exact hc.1.le
  rcases helit with ⟨rfl, rfl, hd⟩ | ⟨q', t, next, prev, rfl, rfl, rfl, ht, hc⟩
  · dsimp only at hfin
    obtain ⟨nextPid, -, hfin⟩ := bind_eq_ok.1 hfin
    rw [if_neg (by simp)] at hfin
    exact ctxSw_domine (s := { s₂ with actif := some a }) hd rfl hfin
  · dsimp only at hfin
    obtain ⟨nextPid, -, hfin⟩ := bind_eq_ok.1 hfin
    split at hfin
    · next hna =>
      obtain ⟨s₃, h₃, hfin⟩ := bind_eq_ok.1 hfin
      obtain ⟨ht₃, hp₃, -⟩ := insertActivable_tri ht h₃
      refine ctxSw_domine (n := t) (s := { s₃ with actif := some t }) (fun i hi => ?_) rfl hfin
      show s₃.prio i ≤ s₃.prio t
      rw [hp₃]
      rcases mem_parPrio.1 (ht₃.mem.1 hi) with rfl | hi
      · exact hc.resolve_right hna.1
      · exact ht₁.le_last hi
    · rw [ok_bind] at hfin
      exact ctxSw_domine (n := t) (s := { s₁ with next, prev, suiv := Function.update s₁.suiv t none, actif := some t })
          (ht₁.elue (ht.congr rfl rfl rfl) rfl) rfl hfin

theorem finProcessusSuite_prioritaire {b : Slot} {o : Option Slot} (hn : ∀ t, o = some t → Domine t s)
    (h : o = none → Prioritaire s) (ho : finProcessusSuite b o s = .ok s') : Prioritaire s' := by
  cases o with
  | none =>
    obtain ⟨a, ha, hd⟩ := h rfl
    exact ctxSw_domine hd ha ho
  | some t =>
    obtain ⟨nextPid, -, ho⟩ := bind_eq_ok.1 ho
    exact ctxSw_domine (s := { s with actif := some t }) (hn t rfl) rfl ho

theorem finProcessus_prioritaire (h : Tri s q) (ho : finProcessus s = .ok s') : Prioritaire s' := by
  rw [finProcessus_eq] at ho
  obtain ⟨a, ha, ho⟩ := bind_eq_ok.1 ho
  rw [deref_eq_ok] at ha
  obtain ⟨s₁, h₁, ho⟩ := bind_eq_ok.1 ho
  obtain ⟨oldPid, -, ho⟩ := bind_eq_ok.1 ho
  obtain ⟨⟨o, s₂⟩, h₂, hfin⟩ := bind_eq_ok.1 ho
  have ht₁ : Tri s₁ q ∧ s₁.actif = s.actif := by
    obtain ⟨state, suiv, dl, dt, pere, fd, prf, rfl⟩ := finProcessusTable_eq h₁
    exact ⟨h.congr rfl rfl rfl, rfl⟩
  have helit : (∀ t, o = some t → Domine t s₂) ∧ (o = none → Prioritaire s₂) := by
    rcases extractActivable_tri ht₁.1 with ⟨rfl, hx⟩ | ⟨q', t, next, prev, rfl, hx, ht⟩
    · rw [hx] at h₂
      obtain ⟨rfl, rfl⟩ := Prod.mk.inj (Except.ok.inj h₂)
      refine ⟨nofun, fun _ => ⟨a, ht₁.2.trans ha, fun i hi => ?_⟩⟩
      simpa using ht₁.1.mem.1 hi
    · rw [hx] at h₂
      obtain ⟨rfl, rfl⟩ := Prod.mk.inj (Except.ok.inj h₂)
      refine ⟨?_, nofun⟩
      rintro t ⟨⟩
      exact ht₁.1.elue ht rfl
  refine finProcessusSuite_prioritaire ?_ ?_ hfin
  · intro t ht
    exact (helit.1 t ht).congr rfl rfl
  · intro hn
    obtain ⟨b, hb, hd⟩ := helit.2 hn
    exact ⟨b, hb, hd.congr rfl rfl⟩

/-! ## The calls -/

section Appels
variable {K : Type*} {f : Fin NBQUEUE → Bool → K}

theorem Inv.tri (h : Inv f a s p) : ∃ q, Tri s q := by
  obtain ⟨q, e, d, hrep⟩ := h.rep
  exact ⟨q, hrep.lists.ready, hrep.sorted⟩

/-- `actif` goes on, and what the call makes ready is not above it. -/
theorem Inv.prioritaire_reste (h : Inv f a s p) (hd : Domine a s) (h' : Inv f a s' p') (hp : ∀ i, p' i = .pret → s'.prio i = s.prio i)
    (ha : s'.prio a = s.prio a) (hn : ∀ i, p' i = .pret → p i = .pret ∨ s.prio i ≤ s.prio a) : Prioritaire s' := by
  obtain ⟨q, e, d, hrep⟩ := h.rep
  obtain ⟨q', e', d', hrep'⟩ := h'.rep
  refine ⟨a, h'.actif, fun i hi => ?_⟩
  have hpi := hrep'.prete.1 hi
  rw [hp i hpi, ha]
  exact (hn i hpi).elim (fun hpi => hd i (hrep.prete.2 hpi)) id

theorem sleepUntil_prioritaire {time : ℚ} (h : Inv f a s p) (ho : sleepUntil time s = .ok s') : Prioritaire s' := by
  rw [sleepUntil, h.deref, ok_bind] at ho
  obtain ⟨s₁, h₁, ho⟩ := bind_eq_ok.1 ho
  obtain ⟨q, e, d, hrep⟩ := h.rep
  obtain ⟨suiv, hd, tl, hi, hrep₁⟩ :=
    hrep.insertEndormi (x := a) (by simp [h.elu]) (by simp [h.elu]) (by simp [h.elu]) (by simp [h.elu]) time
  obtain rfl := Except.ok.inj (hi.symm.trans h₁)
  exact ordonnance_prioritaire ⟨hrep₁.lists.ready, hrep₁.sorted⟩ ho

theorem chprio_prioritaire {pid newprio : Int} {v : Int} (h : Inv f a s p) (hd : Domine a s)
    (ho : chprio pid newprio s = .ok (v, s')) : Prioritaire s' := by
  unfold chprio at ho
  split at ho
  · obtain ⟨rfl, rfl⟩ := Prod.mk.inj (Except.ok.inj ho)
    exact ⟨a, h.actif, hd⟩
  · obtain ⟨r, s₁, h₁, hi, -⟩ := chprioTable_spec pid newprio h
    rw [h₁, ok_bind] at ho
    obtain ⟨h₂, rfl⟩ := bind_answer_eq_ok.1 ho
    obtain ⟨q, hq⟩ := hi.tri
    exact ordonnance_prioritaire hq h₂

theorem bloque_prioritaire {suite : Suite} (h : Tri s q) (ho : bloque x suite s = .ok s') : Prioritaire s' := by
  have h' : Tri ((s.setState x .endormi).setSuite suite) q := h.congr rfl rfl rfl
  exact ordonnance_prioritaire h' ho

theorem reveille_prioritaire {o : Option Slot} (h : Tri s q) (ha : s.actif = some a) (hd : Domine a s)
    (hy : ∀ y, o = some y → s.prio y ≤ s.prio a) (ho : reveille o s = .ok s') : Prioritaire s' := by
  cases o with
  | none =>
    obtain rfl := Except.ok.inj ho
    exact ⟨a, ha, hd⟩
  | some y =>
    obtain ⟨h', hp, ha'⟩ := insertActivable_tri h ho
    refine ⟨a, ha'.trans ha, fun i hi => ?_⟩
    rw [hp]
    rcases mem_parPrio.1 (h'.mem.1 hi) with rfl | hi
    · exact hy i rfl
    · exact hd i (h.mem.2 hi)

theorem psendFin_prioritaire {q : Fin NBQUEUE} {message : Int} {tmp : Slot} (h : Inv f a s p) (hd : Domine a s)
    (hy : ∀ y, premier s.messages.heap (s.messages.fifoTab q).prod = some y → s.prio y ≤ s.prio a)
    (ho : psendFin q message tmp s = .ok (r, s')) : Prioritaire s' := by
  obtain ⟨lab, hr⟩ := h.rings
  obtain ⟨-, m, -, h₂⟩ := psendFin_ok hr.silent ho
  obtain ⟨l, hl⟩ := h.tri
  have hl' : Tri { s with messages := m } l := hl.congr rfl rfl rfl
  exact reveille_prioritaire hl' h.actif (hd.congr rfl rfl) hy h₂

theorem preceiveFin_prioritaire {q : Fin NBQUEUE} {tmp : Slot} (h : Inv f a s p) (hd : Domine a s)
    (hy : ∀ y, premier s.messages.heap (s.messages.fifoTab q).consum = some y → s.prio y ≤ s.prio a)
    (ho : preceiveFin q tmp s = .ok (r, s')) : Prioritaire s' := by
  obtain ⟨lab, hr⟩ := h.rings
  obtain ⟨w, m, -, -, h₂⟩ := preceiveFin_ok hr.silent ho
  obtain ⟨l, hl⟩ := h.tri
  have hl' : Tri { s with messages := m } l := hl.congr rfl rfl rfl
  exact reveille_prioritaire hl' h.actif (hd.congr rfl rfl) hy h₂

theorem waitpidFin_prioritaire {pid ret : Int} {retvalp : Bool} (ha : s.actif = some a) (hd : Domine a s)
    (ho : waitpidFin pid retvalp ret s = .ok (r, s')) : Prioritaire s' := by
  rw [waitpidFin, ha, deref_some, ok_bind] at ho
  split at ho
  · obtain ⟨rfl, rfl⟩ := Prod.mk.inj (Except.ok.inj ho)
    exact ⟨a, ha, hd⟩
  split at ho
  · obtain ⟨rfl, rfl⟩ := Prod.mk.inj (Except.ok.inj ho)
    exact ⟨a, ha, hd⟩
  · cases ho

theorem attente_prioritaire {pid : Int} {retvalp : Bool} {fils : Option Slot} (h : Inv f a s p) (hd : Domine a s)
    (ho : pidDunFilsTermine pid retvalp fils s = .ok (r, s')) : Prioritaire s' := by
  rw [pidDunFilsTermine, h.deref, ok_bind] at ho
  dsimp only at ho
  generalize (if pid < 0 then (-1 : Int) else pid) = param at ho
  obtain ⟨x, -, ho⟩ := bind_eq_ok.1 ho
  split at ho
  · obtain ⟨s₁, h₁, ho⟩ := bind_eq_ok.1 ho
    obtain ⟨suiv, dl, dt, rfl⟩ := insertMort_eq h₁
    split at ho
    · obtain ⟨rfl, rfl⟩ := Prod.mk.inj (Except.ok.inj ho)
      exact ⟨a, h.actif, hd⟩
    · refine waitpidFin_prioritaire (a := a) ?_ ?_ ho
      · exact h.actif
      · exact hd.congr rfl rfl
  · generalize (if s.frereDroit x = none then s.premierFils a else s.frereDroit x) = suivant at ho
    have h₁ := h.setSuite (.attente pid retvalp suivant)
    have hd₁ : Domine a (s.setSuite (.attente pid retvalp suivant)) := hd
    obtain ⟨y, -, ho⟩ := bind_eq_ok.1 ho
    split at ho
    · obtain ⟨pr, -, ho⟩ := bind_eq_ok.1 ho
      obtain ⟨⟨v, s₁⟩, hc, ho⟩ := bind_eq_ok.1 ho
      obtain ⟨rfl, rfl⟩ := Prod.mk.inj (Except.ok.inj ho)
      exact chprio_prioritaire h₁ hd₁ hc
    · obtain ⟨rfl, rfl⟩ := Prod.mk.inj (Except.ok.inj ho)
      exact ⟨a, h.actif, hd⟩

theorem killAutre_prioritaire {pid v : Int} (h : Inv f a s p) (hd : Domine a s) (hpid : 0 < pid)
    (ho : killAutre pid s = .ok (v, s')) : Prioritaire s' := by
  obtain ⟨v', s₁, p₁, h₁, hi, -, hx⟩ := killAutre_spec pid h hpid
  obtain ⟨rfl, rfl⟩ := Prod.mk.inj (Except.ok.inj (h₁.symm.trans ho))
  have hprio : ∀ {x}, Tue s s₁ x → ∀ i, i ≠ x → s₁.prio i = s.prio i := by
    intro x ht i hix
    have hv := ht.vue i hix
    simp only [St.vue, Prod.mk.injEq] at hv
    exact hv.2.2.2.2.2.1
  have hfin : ∀ {x P}, P ≠ Place.pret → a ≠ x → p₁ = Function.update p x P → Tue s s₁ x → Prioritaire s₁ := by
    rintro x P hP hax rfl ht
    have hne : ∀ i, Function.update p x P i = .pret → i ≠ x ∧ p i = .pret := by
      intro i hi
      by_cases hix : i = x
      · rw [hix, Function.update_self] at hi
        exact absurd hi hP
      · rw [Function.update_of_ne hix] at hi
        exact ⟨hix, hi⟩
    exact h.prioritaire_reste hd hi (fun i hi => hprio ht i (hne i hi).1) (hprio ht a hax) fun i hi => .inl (hne i hi).2
  rcases hx with ⟨x, -, hpx, -, hp', ht⟩ | ⟨x, -, hpx, -, hp', ht⟩ | ⟨-, -, rfl, -⟩
  · exact hfin (by simp) (by rintro rfl; simp [h.elu] at hpx) hp' ht
  · exact hfin (by simp) (by rintro rfl; simp [h.elu] at hpx) hp' ht
  · exact ⟨a, h.actif, hd⟩

end Appels

/-! ## Runs -/

/-- `actif` has priority `n` or more. -/
def Plafond (s : St) (n : Nat) : Prop := ∀ a, s.actif = some a → n ≤ s.prio a

/-- The process that has waited longest in the fifo is not above `actif`. -/
def PremierPlafonne (s : St) (fifo : FifoProcess) : Prop := ∀ y, premier s.messages.heap fifo = some y → Plafond s (s.prio y)

/-- `x` is blocked in a `psend` or a `preceive` on the queue. -/
def Bloque (s : St) (q : Fin NBQUEUE) (x : Slot) : Prop :=
  s.state x = .endormi ∧ (s.contexte x).bind (fun c => c.suite.file melange) = some q

/-- No process blocked on the queue is above `actif`. -/
def BloquesPlafonnes (s : St) (q : Fin NBQUEUE) : Prop := ∀ x, Bloque s q x → Plafond s (s.prio x)

/-- A suspended call that goes on wakes no process above `actif`. -/
def Suite.Moderee (s : St) : Suite → Prop
  | .psend q _ _ => PremierPlafonne s (s.messages.fifoTab q).prod
  | .preceive q _ => PremierPlafonne s (s.messages.fifoTab q).consum
  | _ => True

/-- What the event makes ready without an election is not above `actif`. -/
def Modere (s : St) : Event → Prop
  | .appel (.start ssize prio _) => ssize < 0xffffffff → s.processAlive ≠ PROCESS_TABLE_SIZE → Plafond s (toUint32 prio)
  | .appel (.psend fid _) => ∀ q, s.messages.ouverte fid = some q →
      (s.messages.fifoTab q).nbElement ≠ (s.messages.fifoTab q).size → PremierPlafonne s (s.messages.fifoTab q).prod
  | .appel (.preceive fid) => ∀ q, s.messages.ouverte fid = some q →
      (s.messages.fifoTab q).nbElement ≠ 0 → PremierPlafonne s (s.messages.fifoTab q).consum
  | .appel (.pdelete fid) => ∀ q, s.messages.ouverte fid = some q → BloquesPlafonnes s q
  | .appel (.preset fid) => ∀ q, s.messages.ouverte fid = some q → BloquesPlafonnes s q
  | .suite => s.cpu.suite.Moderee s
  | _ => True

theorem BloquesPlafonnes.attend {q : Fin NBQUEUE} {y : Slot} (h : Inv melange a s p) (hb : BloquesPlafonnes s q)
    (hy : Attend melange s p y q) : s.prio y ≤ s.prio a := by
  obtain ⟨hp, c, hc, hf⟩ := hy
  exact hb y ⟨(h.bloque_iff.2 hp).1, by simpa [hc] using hf⟩ a h.actif

theorem videFifo_prioritaire {φ : FifoMessages → FifoMessages} {fid : Int} (hφ : Neutre φ) (h : Inv melange a s p)
    (hd : Domine a s) (hm : ∀ q, s.messages.ouverte fid = some q → BloquesPlafonnes s q)
    (ho : videFifo φ fid s = .ok (r, s')) : Prioritaire s' := by
  rcases videFifo_spec hφ h ho with ⟨-, rfl⟩ | ⟨q, p', hq, -, hi, -, hl⟩
  · exact ⟨a, h.actif, hd⟩
  · have hb : Borne (fun i n => n = s.prio i) s := fun _ => rfl
    have hp := ((videFifo_pointeurs hb.pointeurs φ fid).of_ok ho).prio
    refine h.prioritaire_reste hd hi (fun i _ => hp i) (hp a) fun i hi => ?_
    rcases hl i with hi' | ⟨hb, -⟩
    · exact .inl (hi'.symm.trans hi)
    · exact .inr ((hm q hq).attend h hb)

theorem suite_prioritaire (h : Inv melange a s p) (hd : Domine a s) (hm : Modere s .suite) (ho : poursuit s = .ok (r, s')) :
    Prioritaire s' := by
  have hcode := h.setSuite .code
  have hdc : Domine a (s.setSuite .code) := hd
  unfold poursuit at ho
  split at ho
  · obtain ⟨rfl, rfl⟩ := Prod.mk.inj (Except.ok.inj ho)
    exact ⟨a, h.actif, hd⟩
  · next q message tmp hs =>
    simp only [Modere, Suite.Moderee, hs] at hm
    exact psendFin_prioritaire hcode hdc (fun y hy => hm y hy a h.actif) ho
  · next q tmp hs =>
    simp only [Modere, Suite.Moderee, hs] at hm
    exact preceiveFin_prioritaire hcode hdc (fun y hy => hm y hy a h.actif) ho
  · exact attente_prioritaire h hd ho
  · obtain ⟨rfl, rfl⟩ := Prod.mk.inj (Except.ok.inj ho)
    exact ⟨a, h.actif, hd⟩
  · obtain ⟨rfl, rfl⟩ := Prod.mk.inj (Except.ok.inj ho)
    exact ⟨a, h.actif, hd⟩
  · cases ho

theorem start_prioritaire {ssize : Nat} {prio : Int} {name : String} (h : Inv melange a s p) (hd : Domine a s)
    (hs : SlotLibre s) (hm : Modere s (.appel (.start ssize prio name))) (ho : start ssize prio name s = .ok (r, s')) :
    Prioritaire s' := by
  rcases (start_spec ssize prio name h hs).of_ok ho with he | ⟨x, hr, hi, -, hav, -⟩
  · obtain ⟨rfl, rfl⟩ := Prod.mk.inj he
    exact ⟨a, h.actif, hd⟩
  · obtain rfl : r = .cree x := hr
    have hpos : ssize < 0xffffffff ∧ s.processAlive ≠ PROCESS_TABLE_SIZE := by
      by_contra hn
      rw [start_refuse (by omega)] at ho
      cases (Prod.mk.inj (Except.ok.inj ho)).1
    have hax : a ≠ x := by
      rintro rfl
      rcases hav.place with hp | hp | hp <;> simp [h.elu] at hp
    obtain ⟨hc, -⟩ | ⟨y, hy, hprio⟩ := start_prio ho
    · cases hc
    obtain rfl := Issue.cree.inj hy
    obtain ⟨q, e, d, hrep⟩ := h.rep
    obtain ⟨q', e', d', hrep'⟩ := hi.rep
    refine ⟨a, hi.actif, fun i hi' => ?_⟩
    rw [hprio, Function.update_of_ne hax]
    by_cases hix : i = x
    · rw [hix, Function.update_self]
      exact hm hpos.1 hpos.2 a h.actif
    · have hp : Function.update p x .pret i = .pret := hrep'.prete.1 hi'
      rw [Function.update_of_ne hix] at hp ⊢
      exact hd i (hrep.prete.2 hp)

theorem appelle_prioritaire {c : Appel} (h : Inv melange a s p) (hd : Domine a s) (hs : Sain s (.appel c))
    (hm : Modere s (.appel c)) (ho : appelle c s = .ok (r, s')) : Prioritaire s' := by
  obtain ⟨q, hq⟩ := h.tri
  cases c with
  | start ssize prio name => exact start_prioritaire h hd hs hm ho
  | exit retval =>
    obtain ⟨ho, -⟩ := sansIssue_eq_ok.1 ho
    rw [exit, h.deref, ok_bind] at ho
    have hq' : Tri ((s.setRetval a (some retval)).setSuite .exit) q := hq.congr rfl rfl rfl
    exact finProcessus_prioritaire hq' ho
  | retour v =>
    obtain ⟨ho, -⟩ := sansIssue_eq_ok.1 ho
    have hq' : Tri (s.setSuite .retour) q := hq.congr rfl rfl rfl
    exact finProcessus_prioritaire hq' ho
  | kill pid =>
    change kill pid s = _ at ho
    unfold kill at ho
    split at ho
    · obtain ⟨rfl, rfl⟩ := Prod.mk.inj (Except.ok.inj ho)
      exact ⟨a, h.actif, hd⟩
    · next hpid =>
      rw [h.deref, ok_bind] at ho
      split at ho
      -- `kill` of itself elects as any other end does.
      · obtain ⟨h₁, rfl⟩ := bind_answer_eq_ok.1 ho
        have hq' : Tri ((s.setRetval a none).setSuite .kill) q := hq.congr rfl rfl rfl
        exact finProcessus_prioritaire hq' h₁
      · obtain ⟨⟨v, s₁⟩, h₁, ho⟩ := bind_eq_ok.1 ho
        obtain ⟨rfl, rfl⟩ := Prod.mk.inj (Except.ok.inj ho)
        exact killAutre_prioritaire h hd (by omega) h₁
  | chprio pid newprio =>
    obtain ⟨⟨v, s₁⟩, h₁, ho⟩ := bind_eq_ok.1 ho
    obtain ⟨rfl, rfl⟩ := Prod.mk.inj (Except.ok.inj ho)
    exact chprio_prioritaire h hd h₁
  | waitpid pid retvalp =>
    rcases (waitpid_spec pid retvalp h).of_ok ho with ⟨ecrit, -, -, rfl | rfl⟩ | ⟨-, -, he⟩
    · exact ⟨a, h.actif, hd⟩
    · exact ⟨a, h.actif, hd⟩
    · obtain ⟨rfl, rfl⟩ := Prod.mk.inj he
      exact ⟨a, h.actif, hd⟩
  | dors nbrSecs => exact sleepUntil_prioritaire h (sansIssue_eq_ok.1 ho).1
  | sleepUntil time => exact sleepUntil_prioritaire h (sansIssue_eq_ok.1 ho).1
  | waitClock clock => exact sleepUntil_prioritaire h (sansIssue_eq_ok.1 ho).1
  | pcreate count contenu =>
    obtain ⟨rfl, rfl⟩ := Prod.mk.inj (Except.ok.inj ho)
    exact ⟨a, h.actif, hd⟩
  | pdelete fid => exact videFifo_prioritaire neutre_efface h hd hm ho
  | preset fid => exact videFifo_prioritaire neutre_raz h hd hm ho
  | psend fid message =>
    rcases psend_ok ho with ⟨-, -, rfl⟩ | ⟨b, k, -, hk, hn, hfin⟩ | ⟨b, k, consum, heap, -, -, -, -, -, hb⟩
    · exact ⟨a, h.actif, hd⟩
    -- No election here: the receiver made ready must not be above `actif`.
    · exact psendFin_prioritaire h hd (fun y hy => hm k hk hn y hy a h.actif) hfin
    · refine bloque_prioritaire (q := q) ?_ hb
      exact hq.congr rfl rfl rfl
  | preceive fid =>
    rcases preceive_ok ho with ⟨-, -, rfl⟩ | ⟨b, k, -, hk, hn, hfin⟩ | ⟨b, k, prod, heap, -, -, -, -, -, hb⟩
    · exact ⟨a, h.actif, hd⟩
    · exact preceiveFin_prioritaire h hd (fun y hy => hm k hk hn y hy a h.actif) hfin
    · refine bloque_prioritaire (q := q) ?_ hb
      exact hq.congr rfl rfl rfl

/-- A step after which `actif` is again a process of the highest priority. -/
theorem joue_prioritaire (h : Inv melange a s p) (hd : Domine a s) (hs : Sain s e) (hm : Modere s e)
    (ho : joue e s = .ok (r, s')) : Prioritaire s' := by
  cases e with
  | appel c => exact appelle_prioritaire h hd hs hm ho
  | suite => exact suite_prioritaire h hd hm ho
  | tick =>
    obtain ⟨ho, -⟩ := sansIssue_eq_ok.1 ho
    obtain ⟨sec, min, hour, he⟩ := ticPitClock_eq s
    rw [he] at ho
    obtain ⟨q, hq⟩ := h.tri
    generalize succUint32 s.nbTick = n at ho
    have hq' : Tri { s with nbTick := n, sec, min, hour } q := hq.congr rfl rfl rfl
    exact ordonnance_prioritaire hq' ho

theorem boot_prioritaire : Prioritaire boot := by
  obtain ⟨q, e, d, hrep⟩ := (inv_boot melange).rep
  refine ⟨0, (inv_boot melange).actif, fun i hi => ?_⟩
  have hp := hrep.prete.1 hi
  by_cases h0 : i = 0 <;> simp [placesBoot, h0] at hp

/-- Under `Modere`: whenever control is given back, no ready process is above the one that runs. -/
theorem strict_priority (hr : Parcours (fun s e => Sain s e ∧ Modere s e) tr s) :
    ∀ i, s.prete i = true → s.prio i ≤ s.prio s.cpu.code := by
  obtain ⟨⟨a, p, hi⟩, b, hb, hd⟩ : (∃ a p, Inv melange a s p) ∧ Prioritaire s := by
    refine hr.inv (fun s => (∃ a p, Inv melange a s p) ∧ Prioritaire s) ⟨⟨0, _, inv_boot melange⟩, boot_prioritaire⟩ ?_
    rintro s e r s' ⟨⟨a, p, hi⟩, b, hb, hd⟩ ⟨⟨hs, hm⟩, ho⟩
    obtain rfl : a = b := hi.actif_eq hb
    obtain ⟨n, p', he⟩ := pas_spec hi hs (separe_melange s e) ho
    exact ⟨⟨n, p', he.inv⟩, joue_prioritaire hi hd hs hm ho.2⟩
  obtain rfl : a = b := hi.actif_eq hb
  rw [hi.cpu_code]
  exact hd

instance (s : St) (n : Nat) : Decidable (Plafond s n) := inferInstanceAs (Decidable (∀ _, _))

instance (s : St) (fifo : FifoProcess) : Decidable (PremierPlafonne s fifo) := inferInstanceAs (Decidable (∀ _, _))

instance (s : St) (q : Fin NBQUEUE) (x : Slot) : Decidable (Bloque s q x) := inferInstanceAs (Decidable (_ ∧ _))

instance (s : St) (q : Fin NBQUEUE) : Decidable (BloquesPlafonnes s q) := inferInstanceAs (Decidable (∀ _, _))

instance (s : St) : (x : Suite) → Decidable (x.Moderee s)
  | .psend q _ _ => inferInstanceAs (Decidable (PremierPlafonne s (s.messages.fifoTab q).prod))
  | .preceive q _ => inferInstanceAs (Decidable (PremierPlafonne s (s.messages.fifoTab q).consum))
  | .code | .attente _ _ _ | .exit | .kill | .retour => inferInstanceAs (Decidable True)

instance (s : St) : (e : Event) → Decidable (Modere s e)
  | .appel (.start ssize prio _) => inferInstanceAs (Decidable (ssize < 0xffffffff → s.processAlive ≠ PROCESS_TABLE_SIZE →
      Plafond s (toUint32 prio)))
  | .appel (.psend fid _) => inferInstanceAs (Decidable (∀ q, s.messages.ouverte fid = some q →
      (s.messages.fifoTab q).nbElement ≠ (s.messages.fifoTab q).size → PremierPlafonne s (s.messages.fifoTab q).prod))
  | .appel (.preceive fid) => inferInstanceAs (Decidable (∀ q, s.messages.ouverte fid = some q →
      (s.messages.fifoTab q).nbElement ≠ 0 → PremierPlafonne s (s.messages.fifoTab q).consum))
  | .appel (.pdelete fid) | .appel (.preset fid) =>
    inferInstanceAs (Decidable (∀ q, s.messages.ouverte fid = some q → BloquesPlafonnes s q))
  | .suite => inferInstanceAs (Decidable (s.cpu.suite.Moderee s))
  | .appel (.exit _) | .appel (.retour _) | .appel (.kill _) | .appel (.chprio _ _) | .appel (.waitpid _ _)
  | .appel (.dors _) | .appel (.sleepUntil _) | .appel (.waitClock _) | .appel (.pcreate _ _) | .tick =>
    inferInstanceAs (Decidable True)

/-- Process 0 wakes a receiver of its own priority. -/
theorem strict_priority_run :
    ∃ tr s, Parcours (fun s e => Sain s e ∧ Modere s e) tr s ∧ (s.cpu.code = 0 ∧ s.prete 1 = true) ∧
      ∀ i, s.prete i = true → s.prio i ≤ s.prio s.cpu.code := by
  obtain ⟨tr, s, hr, hq⟩ := deroule_any (P := fun s e => Sain s e ∧ Modere s e)
    (Q := fun _ s => s.cpu.code = 0 ∧ s.prete 1 = true) boot
    [.appel (.start 512 1 "p"), .appel (.pcreate 1 (some fun _ => 0)), .tick, .appel (.preceive 0), .appel (.psend 0 7)]
    (by decide +kernel)
  exact ⟨tr, s, hr, hq, strict_priority hr⟩

/-- Process 0, of priority 1, starts a process of priority 5 and goes on. -/
theorem strict_priority_fails :
    ¬∀ tr s, Parcours (fun _ _ => True) tr s → ∀ i, s.prete i = true → s.prio i ≤ s.prio s.cpu.code := by
  intro h
  obtain ⟨tr, s, hr, hc, hp, h₀, h₁⟩ := deroule_any (P := fun _ _ => True)
    (Q := fun _ s => s.cpu.code = 0 ∧ s.prete 1 = true ∧ s.prio 0 = 1 ∧ s.prio 1 = 5) boot
    [.appel (.start 512 5 "p")] (by decide +kernel)
  have hle := h tr s hr 1 hp
  rw [hc, h₀, h₁] at hle
  exact absurd hle (by decide)

end Pcsea
