import Pcsea.FilePrio
import Pcsea.Echeance
import Pcsea.Histoire
/-!
# The election of `ordonnance`

`ordonnance` wakes a sleeper, then gives the processor to the oldest ready
process of the highest priority when that is not below `actif`, which goes
behind its equals: among processes of one priority, each has its turn.
-/

namespace Pcsea

open Lib

variable {s s' : St} {q e l : List Slot} {a i j n t x : Slot}

/-- `x` can be given to `ctx_sw`: its pid is that of a slot with a context to load. -/
def Chargeable (s : St) (x : Slot) : Prop := ∃ i, caseDe (s.pid x) = .ok i ∧ (s.regs i).isSome = true

/-- The turn of `actif`, `a`, when the processes `l` are ready, in the order in which they arrived. -/
inductive Tour (s : St) (a : Slot) (l : List Slot) (s' : St) : Prop
  /-- the oldest of the highest priority takes the processor -/
  | cede (t : Slot) : eldest s.prio l = some t → s.prio a ≤ s.prio t ∨ s.state a = .endormi → s'.actif = some t →
    Arrivees s' (if s.state a = .endormi then l.erase t else l.erase t ++ [a]) → Tour s a l s'
  /-- nobody is to take it -/
  | garde : (∀ t, eldest s.prio l = some t → s.prio t < s.prio a ∧ s.state a ≠ .endormi) → s'.actif = some a → Arrivees s' l →
    Tour s a l s'

/-- The lists of sleeping and dead processes, and the processes that are neither ready nor `actif`, stay as they are. -/
structure Preserve (a : Slot) (l : List Slot) (s s' : St) : Prop where
  endormis : (s'.endormiList, s'.endormiTail) = (s.endormiList, s.endormiTail)
  morts : (s'.deadList, s'.deadTail) = (s.deadList, s.deadTail)
  autres : ∀ i, i ∉ l → (i = a → s.state a = .endormi) → s'.state i = s.state i ∧ s'.suiv i = s.suiv i

/-- `ctx_sw` cannot be called: the pid of `actif`, `a`, is not that of a slot, or `t` is elected and cannot be loaded. -/
def SansElu (s : St) (a : Slot) (t : Option Slot) : Prop :=
  (∀ i, caseDe (s.pid a) ≠ .ok i) ∨ ∃ x, t = some x ∧ (s.prio a ≤ s.prio x ∨ s.state a = .endormi) ∧ ¬Chargeable s x

/-! ## `wake_process` -/

/-- It may make the first sleeper ready, not `actif`. -/
theorem wakeProcess_tour (hq : Arrivees s l) (he : Chain s.suiv s.endormiList s.endormiTail e) (hd : ∀ x ∈ e, x ∉ l)
    (ha : a ∉ l) (hae : ¬(a ∈ e ∧ Arrive s a)) :
    ∃ s₁ l₁ e₁, wakeProcess s = .ok s₁ ∧ Arrivees s₁ l₁ ∧ a ∉ l₁ ∧ Chain s₁.suiv s₁.endormiList s₁.endormiTail e₁ ∧
      (s₁.prio, s₁.pid, s₁.regs, s₁.actif, s₁.deadList, s₁.deadTail) =
        (s.prio, s.pid, s.regs, s.actif, s.deadList, s.deadTail) ∧
      (∀ i, i ∉ l₁ → s₁.state i = s.state i ∧ s₁.suiv i = s.suiv i) ∧
      (l₁ = l ∧ e₁ = e ∨ ∃ x, e = x :: e₁ ∧ Arrive s x ∧ l₁ = l ++ [x]) := by
  by_cases hdue : ∀ x, e.head? = some x → ¬Arrive s x
  · exact ⟨s, l, e, wakeProcess_rien he hdue, hq, ha, he, rfl, fun _ _ => ⟨rfl, rfl⟩, .inl ⟨rfl, rfl⟩⟩
  · push Not at hdue
    obtain ⟨x, hx, hax⟩ := hdue
    obtain ⟨e, rfl⟩ := List.head?_eq_some_iff.1 hx
    have hxl := hd x (by simp)
    obtain ⟨next, prev, endormiList, endormiTail, ho, hc, hr⟩ := wakeProcess_premier he hq.1 (mt mem_byKey.1 hxl) hax
    have hax' : a ≠ x := by
      rintro rfl
      exact hae ⟨by simp, hax⟩
    refine ⟨_, l ++ [x], e, ho, ⟨?_, ?_⟩, by simp [ha, hax'], hc, rfl, fun i hi => ?_, .inr ⟨x, rfl, hax, rfl⟩⟩
    · show Ready next prev (byKey s.prio (l ++ [x]))
      rw [byKey_concat]
      exact hr
    · refine List.nodup_append.2 ⟨hq.2, by simp, ?_⟩
      rintro y hy z hz rfl
      exact hxl (List.mem_singleton.1 hz ▸ hy)
    · have hix : i ≠ x := fun h => hi (by simp [h])
      exact ⟨Function.update_of_ne hix .., Function.update_of_ne hix ..⟩

/-! ## The election -/

/-- The process left has just been saved, so `ctx_sw` can always go back to it. -/
theorem ctxSw_arrivees (h : Arrivees s l) : Ensures (fun _ => j ≠ i ∧ s.regs j = none) (ctxSw i j s) fun s' =>
    Arrivees s' l ∧ s'.actif = s.actif ∧ s'.prio = s.prio ∧ Preserve a [] s s' := by
  unfold ctxSw
  dsimp only
  cases hj : Function.update s.regs i (some s.cpu) j with
  | some c => exact ⟨h, rfl, rfl, rfl, rfl, fun _ _ _ => ⟨rfl, rfl⟩⟩
  | none =>
    by_cases hij : j = i
    · subst hij
      simp at hj
    · rw [Function.update_of_ne hij] at hj
      exact ⟨hij, hj⟩

/-- The choice between `actif` and the last of the ring. -/
theorem elit_tour (h : Arrivees s l) :
    (elit a s = .ok (some a, s) ∧ ∀ t, eldest s.prio l = some t → s.prio t < s.prio a ∧ s.state a ≠ .endormi) ∨
    ∃ t next prev, eldest s.prio l = some t ∧ (s.prio a ≤ s.prio t ∨ s.state a = .endormi) ∧
      elit a s = .ok (some t, { s with next, prev, suiv := Function.update s.suiv t none }) ∧
      Arrivees { s with next, prev, suiv := Function.update s.suiv t none } (l.erase t) := by
  unfold elit
  rw [h.sommet, ok_bind]
  cases ht : eldest s.prio l with
  | none => exact .inl ⟨rfl, nofun⟩
  | some t =>
    dsimp only
    by_cases hc : s.prio a ≤ s.prio t ∨ s.state a = .endormi
    · obtain ⟨next, prev, ho, hr⟩ := h.extrait ht
      exact .inr ⟨t, next, prev, rfl, hc, by rw [if_pos hc, ho], hr⟩
    · refine .inl ⟨by rw [if_neg hc], ?_⟩
      rintro u ⟨⟩
      push Not at hc
      exact hc

theorem not_chargeable {x : Fault} (h : caseDe (s.pid t) = .error x) : ¬Chargeable s t := by
  rintro ⟨i, hi, -⟩
  rw [h] at hi
  cases hi

theorem not_chargeable_of_regs (h : caseDe (s.pid t) = .ok i) (hr : s.regs i = none) : ¬Chargeable s t := by
  rintro ⟨j, hj, hs⟩
  obtain rfl := Except.ok.inj (h.symm.trans hj)
  simp [hr] at hs

theorem Tour.congr {s₁ : St} (h : Tour s₁ a l s') (hp : s₁.prio = s.prio) (hs : s₁.state a = s.state a) : Tour s a l s' := by
  cases h with
  | cede t ht hc hact hl =>
    rw [hs] at hc hl
    rw [hp] at ht hc
    exact .cede t ht hc hact hl
  | garde hg hact hl =>
    rw [hp, hs] at hg
    exact .garde hg hact hl

/-- What `ordonnance` does after `wake_process`. It fails only when `ctx_sw` cannot be called. -/
theorem ordonnanceSuite_tour (h : Arrivees s l) (ha : s.actif = some a) (hal : a ∉ l) :
    Ensures (fun _ => SansElu s a (eldest s.prio l)) (ordonnanceSuite s) fun s' =>
      Tour s a l s' ∧ s'.prio = s.prio ∧ Preserve a l s s' := by
  unfold ordonnanceSuite
  rw [ha, deref_some, ok_bind]
  cases hold : caseDe (s.pid a) with
  | error x => exact .inl fun i hi => by simp [hold] at hi
  | ok oldPid =>
    rw [ok_bind]
    rcases elit_tour (a := a) h with ⟨ho, hg⟩ | ⟨t, next, prev, ht, hc, ho, hr⟩
    · rw [ho, ok_bind]
      dsimp only
      rw [hold, ok_bind, if_neg (by simp), ok_bind]
      have h' : Arrivees { s with actif := some a } l := h
      refine (ctxSw_arrivees (a := a) h').mono (fun _ hn => absurd rfl hn.1) ?_
      rintro s' ⟨hl, hact, hprio, hep⟩
      exact ⟨.garde hg hact hl, hprio, hep.endormis, hep.morts, fun i _ => hep.autres i (by simp)⟩
    · rw [ho, ok_bind]
      dsimp only
      have htl := eldest_mem ht
      have hat : a ≠ t := by
        rintro rfl
        exact hal htl
      cases hnext : caseDe (s.pid t) with
      | error x => exact .inr ⟨t, ht, hc, not_chargeable hnext⟩
      | ok nextPid =>
        rw [ok_bind]
        have hfail {i : Slot} (_ : Fault) (hn : nextPid ≠ i ∧ s.regs nextPid = none) : SansElu s a (eldest s.prio l) :=
          .inr ⟨t, ht, hc, not_chargeable_of_regs hnext hn.2⟩
        by_cases hend : s.state a = .endormi
        · -- A sleeping `actif` is not put back.
          rw [if_neg (by simp [hend]), ok_bind]
          have h' : Arrivees { s with next, prev, suiv := Function.update s.suiv t none, actif := some t } (l.erase t) := hr
          refine (ctxSw_arrivees (a := a) h').mono hfail ?_
          rintro s' ⟨hl, hact, hprio, hep⟩
          refine ⟨.cede t ht hc hact (by rwa [if_pos hend]), hprio, hep.endormis, hep.morts, fun i hi _ => ?_⟩
          have hit : i ≠ t := by
            rintro rfl
            exact hi htl
          obtain ⟨hst, hsv⟩ := hep.autres i (by simp) fun _ => hend
          exact ⟨hst, hsv.trans (Function.update_of_ne hit ..)⟩
        · set s₁ : St := { s with next, prev, suiv := Function.update s.suiv t none } with hs₁
          rw [if_pos ⟨hend, hat⟩]
          obtain ⟨next', prev', ho', hr'⟩ := hr.insere (e := a) fun hm => hal (List.mem_of_mem_erase hm)
          rw [ho', ok_bind]
          have h' : Arrivees { s₁ with
              state := Function.update s₁.state a .activable, suiv := Function.update s₁.suiv a none, next := next',
              prev := prev', actif := some t } (l.erase t ++ [a]) := hr'
          refine (ctxSw_arrivees (a := t) h').mono hfail ?_
          rintro s' ⟨hl, hact, hprio, hep⟩
          refine ⟨.cede t ht hc hact (by rwa [if_neg hend]), hprio, hep.endormis, hep.morts, fun i hi hia => ?_⟩
          have hne : i ≠ a := fun hia' => hend (hia hia')
          have hit : i ≠ t := by
            rintro rfl
            exact hi htl
          obtain ⟨hst, hsv⟩ := hep.autres i (by simp) fun h => absurd h hit
          exact ⟨hst.trans (Function.update_of_ne hne ..),
            (hsv.trans (Function.update_of_ne hne ..)).trans (Function.update_of_ne hit ..)⟩

/-- No ready process is above the one that has its turn, and nobody is lost. -/
theorem Tour.domine (h : Tour s a l s') (hp : s'.prio = s.prio) :
    ∃ n l', s'.actif = some n ∧ Arrivees s' l' ∧ (∀ i ∈ l', s'.prio i ≤ s'.prio n) ∧
      (n :: l').Perm (if s.state a = .endormi ∧ l ≠ [] then l else a :: l) := by
  rw [hp]
  cases h with
  -- The eldest of the highest priority runs, and the one that ran goes behind it.
  | cede t ht hc hact hl =>
    have hmem := eldest_mem ht
    have hperm : (t :: l.erase t).Perm l := (List.perm_cons_erase hmem).symm
    have hne : l ≠ [] := List.ne_nil_of_mem hmem
    by_cases hend : s.state a = .endormi
    · rw [if_pos hend] at hl
      rw [if_pos ⟨hend, hne⟩]
      exact ⟨t, _, hact, hl, fun i hi => eldest_le ht (List.mem_of_mem_erase hi), hperm⟩
    · rw [if_neg hend] at hl
      rw [if_neg (by simp [hend])]
      refine ⟨t, _, hact, hl, fun i hi => ?_, ?_⟩
      · rcases List.mem_append.1 hi with hi | hi
        · exact eldest_le ht (List.mem_of_mem_erase hi)
        · rw [List.mem_singleton.1 hi]
          exact hc.resolve_right hend
      · exact (List.perm_append_singleton a (t :: l.erase t)).trans (hperm.cons a)
  | garde hg hact hl =>
    refine ⟨a, l, hact, hl, fun i hi => ?_, ?_⟩
    · cases ht : eldest s.prio l with
      | none =>
        rw [eldest_eq_none.1 ht] at hi
        simp at hi
      | some t => exact (eldest_le ht hi).trans (hg t ht).1.le
    · split
      · next hc =>
        cases ht : eldest s.prio l with
        | none => exact absurd (eldest_eq_none.1 ht) hc.2
        | some t => exact absurd hc.1 (hg t ht).2
      · exact .refl _

/-- The rule of `ordonnance`. The first sleeper may leave the sleep list `e` and join the ready queue; then, whatever the order
`l` in which the ready processes `R` came, `actif` has its turn among them, and the rest stays as it is. `ordonnance` fails only
when `ctx_sw` cannot be called. -/
def RegleOrdonnance (s : St) (q e : List Slot) (a : Slot) : Prop :=
  ∃ s₁ R e', wakeProcess s = .ok s₁ ∧ Ready s₁.next s₁.prev R ∧ R.Pairwise (fun i j => s.prio i ≤ s.prio j) ∧
    (R = q ∧ e' = e ∨ ∃ x, e = x :: e' ∧ Arrive s x ∧ R = parPrio s x q) ∧
    Ensures (fun _ => SansElu s a R.getLast?) (ordonnance s) fun s' =>
      s'.prio = s.prio ∧ (∀ l, byKey s.prio l = R → Tour s a l s') ∧
      Chain s'.suiv s'.endormiList s'.endormiTail e' ∧ (s'.deadList, s'.deadTail) = (s.deadList, s.deadTail) ∧
      (∀ i, i ∉ R → (i = a → s.state a = .endormi) → s'.state i = s.state i ∧ s'.suiv i = s.suiv i) ∧
      ∃ n R', s'.actif = some n ∧ Ready s'.next s'.prev R' ∧ R'.Pairwise (fun i j => s.prio i ≤ s.prio j) ∧
        (∀ i ∈ R', s.prio i ≤ s.prio n) ∧
        (n :: (R' ++ e')).Perm (if s.state a = .endormi ∧ R ≠ [] then q ++ e else a :: (q ++ e)) ∧ (R' ++ e').Nodup ∧ n ∉ R'

/-- `actif` and those who are ready or asleep, before and after. -/
theorem perm_tour {n : Slot} {c : Prop} [Decidable c] {l₁ l' e' R' : List Slot}
    (hl : l₁ = l ∧ e' = e ∨ ∃ x, e = x :: e' ∧ l₁ = l ++ [x]) (hR : R'.Perm l') (hq : l.Perm q)
    (hp : (n :: l').Perm (if c then l₁ else a :: l₁)) : (n :: (R' ++ e')).Perm (if c then q ++ e else a :: (q ++ e)) := by
  have hle : (l₁ ++ e').Perm (q ++ e) := by
    rcases hl with ⟨rfl, rfl⟩ | ⟨x, rfl, rfl⟩
    · exact hq.append_right _
    · rw [List.append_assoc]
      exact hq.append_right _
  have h : (n :: (R' ++ e')).Perm ((if c then l₁ else a :: l₁) ++ e') := ((hR.cons n).trans hp).append_right e'
  split at h
  · next hc =>
    rw [if_pos hc]
    exact h.trans hle
  · next hc =>
    rw [if_neg hc]
    exact h.trans (hle.cons a)

/-- The turn is the same whatever the order of arrival. -/
theorem ordonnance_tour {s₁ : St} {l₁ : List Slot} (hw : wakeProcess s = .ok s₁) (h₁ : Arrivees s₁ l₁) (ha : s₁.actif = some a)
    (hal : a ∉ l₁) (heq : (s₁.prio, s₁.pid, s₁.regs, s₁.state a) = (s.prio, s.pid, s.regs, s.state a))
    (hl : byKey s.prio l = byKey s.prio l₁) :
    Ensures (fun _ => SansElu s a (byKey s.prio l₁).getLast?) (ordonnance s) fun s' =>
      Tour s a l s' ∧ s'.prio = s.prio ∧ Preserve a l s₁ s' := by
  simp only [Prod.mk.injEq] at heq
  obtain ⟨hprio, hpid, hregs, hsta⟩ := heq
  have hlp : l.Perm l₁ := (hl ▸ byKey_perm.symm : l.Perm (byKey s.prio l₁)).trans byKey_perm
  have hl' : Arrivees s₁ l := ⟨by rw [hprio, hl, ← hprio]; exact h₁.1, hlp.nodup_iff.2 h₁.2⟩
  have hcharge : Chargeable s₁ = Chargeable s := by
    funext x
    rw [Chargeable, Chargeable, hpid, hregs]
  rw [ordonnance, hw, ok_bind]
  refine (ordonnanceSuite_tour hl' ha (mt hlp.mem_iff.1 hal)).mono ?_ ?_
  · intro _ hx
    rwa [SansElu, hpid, hprio, hsta, ← byKey_getLast?, hl, hcharge] at hx
  · rintro s' ⟨ht, hp, hep⟩
    exact ⟨ht.congr hprio hsta, hp.trans hprio, hep⟩

/-- Who sleeps after the turn is neither ready nor `actif`. -/
theorem dehors_tour {n : Slot} {l₁ l' e₁ : List Slot} (hel : ∀ y ∈ e₁, y ∉ l₁ ∧ (y = a → s.state a = .endormi))
    (hperm : (n :: l').Perm (if s.state a = .endormi ∧ l₁ ≠ [] then l₁ else a :: l₁)) : ∀ y ∈ l', y ∉ e₁ := by
  intro y hy hye
  obtain ⟨hyl, hya⟩ := hel y hye
  have hmem := hperm.mem_iff.1 (List.mem_cons_of_mem n hy)
  split at hmem
  · exact hyl hmem
  · next hc =>
    -- It is an `actif` that sleeps, and nobody was ready: nobody is.
    have hend := hya ((List.mem_cons.1 hmem).resolve_right hyl)
    obtain rfl : l₁ = [] := by simpa [hend] using hc
    have hlen := hperm.length_eq
    rw [if_neg hc, List.length_cons, List.length_singleton, Nat.add_eq_right, List.length_eq_zero_iff] at hlen
    rw [hlen] at hy
    exact List.not_mem_nil hy

/-- The oldest ready process of the highest priority takes the processor, unless it is below an `actif` that does not sleep; such
an `actif` goes behind the ready processes of its priority. -/
theorem ordonnance_rule (hq : Ready s.next s.prev q) (hsorted : q.Pairwise fun i j => s.prio i ≤ s.prio j)
    (he : Chain s.suiv s.endormiList s.endormiTail e) (hd : ∀ x ∈ e, x ∉ q) (ha : s.actif = some a) (haq : a ∉ q)
    (hend : a ∈ e → s.state a = .endormi) (hae : ¬(a ∈ e ∧ Arrive s a)) : RegleOrdonnance s q e a := by
  have hq₀ : byKey s.prio q.reverse = q := byKey_reverse hsorted
  have harr : Arrivees s q.reverse := ⟨hq₀.symm ▸ hq, List.nodup_reverse.2 hq.distinct⟩
  obtain ⟨s₁, l₁, e₁, hw, h₁, hal, he₁, heq, hst, hl₁⟩ :=
    wakeProcess_tour harr he (fun x hx => mt List.mem_reverse.1 (hd x hx)) (mt List.mem_reverse.1 haq) hae
  simp only [Prod.mk.injEq] at heq
  obtain ⟨hprio, hpid, hregs, hact, hdead⟩ := heq
  have hready : Ready s₁.next s₁.prev (byKey s.prio l₁) := hprio ▸ h₁.1
  -- The sleepers left are not ready, and were asleep before.
  have hel : ∀ y ∈ e₁, y ∉ l₁ ∧ (y = a → s.state a = .endormi) := by
    rcases hl₁ with ⟨rfl, rfl⟩ | ⟨x, rfl, -, rfl⟩
    · exact fun y hy => ⟨mt List.mem_reverse.1 (hd y hy), fun h => hend (h ▸ hy)⟩
    · have hx := (List.nodup_cons.1 he.nodup).1
      intro y hy
      refine ⟨?_, fun h => hend (h ▸ List.mem_cons_of_mem x hy)⟩
      simp only [List.mem_append, List.mem_reverse, List.mem_singleton, not_or]
      exact ⟨hd y (by simp [hy]), fun hyx => hx (hyx ▸ hy)⟩
  have htour (l : List Slot) (hl : byKey s.prio l = byKey s.prio l₁) :=
    ordonnance_tour hw h₁ (hact.trans ha) hal (by rw [hprio, hpid, hregs, (hst a hal).1]) hl
  refine ⟨s₁, byKey s.prio l₁, e₁, hw, hready, byKey_sorted, ?_, ?_⟩
  · rcases hl₁ with ⟨rfl, rfl⟩ | ⟨x, hx, hax, rfl⟩
    · exact .inl ⟨hq₀, rfl⟩
    · exact .inr ⟨x, hx, hax, by rw [byKey_concat, hq₀]; rfl⟩
  have hfirst := htour l₁ rfl
  cases ho : ordonnance s with
  | error x => exact hfirst.of_error ho
  | ok s' =>
    obtain ⟨ht, hp, hep⟩ := hfirst.of_ok ho
    obtain ⟨n, l', hn, hl', hle, hperm⟩ := ht.domine hp
    have hautres : ∀ i, i ∉ l₁ → (i = a → s.state a = .endormi) → s'.state i = s₁.state i ∧ s'.suiv i = s₁.suiv i :=
      fun i hi hia => hep.autres i hi fun h => (hst a hal).1.trans (hia h)
    have hnil : byKey s.prio l₁ ≠ [] ↔ l₁ ≠ [] := by
      rw [ne_eq, ne_eq, ← List.length_eq_zero_iff, byKey_perm.length_eq, List.length_eq_zero_iff]
    have hnd : (n :: l').Nodup := by
      refine hperm.nodup_iff.2 ?_
      split
      · exact h₁.2
      · exact List.nodup_cons.2 ⟨hal, h₁.2⟩
    obtain ⟨hnl, hnd⟩ := List.nodup_cons.1 hnd
    refine ⟨hp, fun l hl => ((htour l hl).of_ok ho).1, ?_, ?_, ?_, n, byKey s.prio l', hn, hp ▸ hl'.1, byKey_sorted, ?_, ?_, ?_,
      mt mem_byKey.1 hnl⟩
    · obtain ⟨h₂, h₃⟩ := Prod.mk.inj hep.endormis
      rw [h₂, h₃]
      exact he₁.congr fun y hy => (hautres y (hel y hy).1 (hel y hy).2).2
    · rw [hep.morts, hdead.1, hdead.2]
    · intro i hi hia
      have hil : i ∉ l₁ := mt mem_byKey.2 hi
      obtain ⟨h₂, h₃⟩ := hautres i hil hia
      exact ⟨h₂.trans (hst i hil).1, h₃.trans (hst i hil).2⟩
    · intro i hi
      rw [← hp]
      exact hle i (mem_byKey.1 hi)
    · refine perm_tour (hl₁.imp_right (Exists.imp fun _ h => ⟨h.1, h.2.2⟩)) byKey_perm (List.reverse_perm q) ?_
      simpa only [hnil] using hperm
    · refine List.nodup_append.2 ⟨byKey_perm.nodup_iff.2 hnd, he₁.nodup, fun y hy z hz hyz => ?_⟩
      exact dehors_tour hel hperm y (mem_byKey.1 hy) (hyz ▸ hz)

/-- Process 4 runs, 3 of the same priority is ready, and the sleeper 2 is due. -/
theorem ordonnance_rule_run :
    ∃ tr s q e, Parcours Sain tr s ∧ (s.actif = some 4 ∧ 3 ∈ q ∧ s.prio 3 = s.prio 4 ∧ 2 ∈ e ∧ Arrive s 2) ∧
      RegleOrdonnance s q e 4 := by
  obtain ⟨tr, s, hr, hact, h₃, hprio, h₂, harr⟩ := deroule_any (P := Sain)
    (Q := fun _ s => s.actif = some 4 ∧ s.prete 3 = true ∧ s.prio 3 = s.prio 4 ∧ s.endormiList = some 2 ∧ Arrive s 2) boot
    [.appel (.start 512 5 "p"), .appel (.start 512 5 "q"), .appel (.start 512 5 "r"), .tick, .appel (.sleepUntil 4),
      .appel (.sleepUntil 4), .appel (.start 512 5 "s"), .tick, .tick, .tick] (by decide +kernel)
  obtain ⟨a, p, hi, -⟩ := sain_spec (fun _ _ h => h) hr
  obtain ⟨q, e, d, hrep⟩ := hi.rep
  obtain rfl : a = 4 := hi.actif_eq hact
  obtain ⟨haq, hae, -⟩ := hrep.notMem (x := 4) (by simp [hi.elu]) (by simp [hi.elu]) (by simp [hi.elu])
  have hsleep : 2 ∈ e := List.mem_of_head? (hrep.lists.sleep.head.symm.trans h₂)
  refine ⟨tr, s, q, e, hr, ⟨hact, (hrep.ready 3).2 (hrep.prete.1 h₃), hprio, hsleep, harr⟩, ?_⟩
  exact ordonnance_rule hrep.lists.ready hrep.sorted hrep.lists.sleep (fun x hx => (hrep.lists.sleep_apart hx).1) hact haq
    (fun h => absurd h hae) fun h => hae h.1

end Pcsea
