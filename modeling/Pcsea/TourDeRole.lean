import Pcsea.Election
import Pcsea.Tour
import Pcsea.Reclassement
import Pcsea.Lib.RoundRobin
/-!
# Each in its turn

Seen from the ready queue, every step of the kernel is one `Round` of a
scheduler that serves the processes of a priority in the order in which they
arrived. A process that waits for its turn lets each of the others pass at most
once, as long as nobody has a higher priority and nobody takes it out of the
queue.
-/

namespace Pcsea

open Lib

universe u
variable {K : Type u} {f : Fin NBQUEUE → Bool → K} {s s₁ s' : St} {p p' : Slot → Place} {q q' l xs e d : List Slot} {a i n x : Slot}
  {ch : Shift Slot Nat} {r : Issue} {next prev : Maillon → Option Maillon}

/-! ## The ring -/

theorem path_unique {cur : Maillon} (h : Path next prev cur (q.map .elem ++ [.head])) (h' : Path next prev cur (q'.map .elem ++ [.head])) :
    q = q' := by
  induction q generalizing cur q' with
  | nil =>
    cases q' with
    | nil => rfl
    | cons y q' =>
      have he := h.1.symm.trans h'.1
      cases he
  | cons x q ih =>
    cases q' with
    | nil =>
      have he := h.1.symm.trans h'.1
      cases he
    | cons y q' =>
      obtain ⟨hx, -, h⟩ := h
      obtain ⟨hy, -, h'⟩ := h'
      obtain rfl : x = y := Maillon.elem.inj (Option.some.inj (hx.symm.trans hy))
      rw [ih h h']

/-- A ring lists its processes in one way. -/
theorem Ready.unique (h : Ready next prev q) (h' : Ready next prev q') : q = q' := path_unique h.path h'.path

theorem Arrivees.congr (h : Arrivees s l) (h₁ : s'.next = s.next) (h₂ : s'.prev = s.prev) (h₃ : ∀ i ∈ l, s'.prio i = s.prio i) :
    Arrivees s' l := by
  refine ⟨?_, h.2⟩
  rw [h₁, h₂, byKey_congr h₃]
  exact h.1

theorem Arrivees.mem (h : Arrivees s l) (hr : Rep s p q e d) : i ∈ l ↔ p i = .pret := by
  rw [← hr.ready, ← h.1.unique hr.lists.ready, mem_byKey]

theorem Arrivees.prete (h : Arrivees s l) : s.prete i = true ↔ i ∈ l := by
  have hb : i ∈ byKey s.prio l ↔ i ∈ l := mem_byKey
  rw [← hb]
  constructor
  · intro hi
    by_contra hn
    simp [St.prete, (h.1.unlinked hn).1] at hi
  · exact fun hi => (h.1.linked hi).1

/-- `actif` is not ready. -/
theorem Arrivees.apart (h : Arrivees s l) (hi : Inv f a s p) : a ∉ l := by
  obtain ⟨q, e, d, hr⟩ := hi.rep
  simp [h.mem hr, hi.elu]

/-- Making a process ready, when that goes well. -/
theorem insertActivable_arrivees (ho : insertActivable x s = .ok s') (h : Arrivees s l) :
    x ∉ l ∧ Arrivees s' (l ++ [x]) ∧ s'.prio = s.prio ∧ s'.actif = s.actif := by
  have hx : x ∉ l := by
    intro hm
    rw [insertActivable_fail h.1 (mem_byKey.2 hm)] at ho
    cases ho
  obtain ⟨next, prev, ho', h'⟩ := h.insere hx
  obtain rfl := Except.ok.inj (ho'.symm.trans ho)
  exact ⟨hx, h', rfl, rfl⟩

/-! ## Steps as rounds -/

/-- The state, as a scheduler. -/
def ordo (s : St) (l : List Slot) (a : Slot) : Sched Slot Nat := ⟨l, a, s.prio⟩

theorem ordo_congr (h : s'.prio = s.prio) : ordo s' l a = ordo s l a := by rw [ordo, ordo, h]

/-- From `s` on, where the processes `l` are ready, in the order in which they arrived. -/
def RondeActivables (s : St) (l : List Slot) (a : Slot) (c : Shift Slot Nat × Bool) (s' : St) : Prop :=
  ∃ xs l' n, s'.actif = some n ∧ Arrivees s' l' ∧ Round (ordo s l a) c xs (ordo s' l' n)

/-- Some become ready, nobody is elected. -/
def Rejoint (s : St) (l : List Slot) (s' : St) : Prop :=
  ∃ xs, Arrivees s' (l ++ xs) ∧ s'.prio = s.prio ∧ s'.actif = s.actif

/-- Some become ready, and there is an election. -/
def Vote (s : St) (l : List Slot) (a : Slot) (s' : St) : Prop :=
  ∃ xs l' n, s'.actif = some n ∧ Arrivees s' l' ∧ s'.prio = s.prio ∧ (l ++ xs).Nodup ∧ a ∉ xs ∧
    Elects (ordo s (l ++ xs) a) (ordo s' l' n)

theorem fresh_of_nodup (h : (l ++ xs).Nodup) (ha : a ∉ xs) : (∀ x ∈ xs, x ∉ l ∧ x ≠ a) ∧ xs.Nodup := by
  obtain ⟨-, hn, hd⟩ := List.nodup_append.1 h
  refine ⟨fun x hx => ⟨fun hl => hd x hl x hx rfl, ?_⟩, hn⟩
  rintro rfl
  exact ha hx

theorem Rejoint.refl (h : Arrivees s l) : Rejoint s l s := ⟨[], by rwa [List.append_nil], rfl, rfl⟩

theorem Rejoint.of_eq (h : Arrivees s l) (h₁ : s'.next = s.next) (h₂ : s'.prev = s.prev) (h₃ : s'.prio = s.prio)
    (h₄ : s'.actif = s.actif) : Rejoint s l s' :=
  ⟨[], by rw [List.append_nil]; exact h.congr h₁ h₂ fun _ _ => by rw [h₃], h₃, h₄⟩

theorem Rejoint.ronde (h : Rejoint s l s') (hi : Inv f a s p) (hi' : Inv f n s' p') :
    RondeActivables s l a (.none, false) s' := by
  obtain ⟨xs, hl', hp, ha⟩ := h
  obtain rfl : a = n := hi'.actif_eq (ha.trans hi.actif) |>.symm
  have hax : a ∉ xs := fun hm => hl'.apart hi' (List.mem_append_right _ hm)
  obtain ⟨hf, hn⟩ := fresh_of_nodup hl'.2 hax
  refine ⟨xs, l ++ xs, a, hi'.actif, hl', trivial, hf, hn, ?_⟩
  rw [if_neg (by simp), ordo_congr hp]
  rfl

/-- A process leaves, or takes another priority, and nobody is elected. -/
theorem ronde_change {l₁ : List Slot} (hi : Inv f a s p) (hc : ch.Allowed (ordo s l a)) (ho : ch.run (ordo s l a) = ordo s₁ l₁ a)
    (hl : Arrivees s₁ l₁) (ha : s₁.actif = s.actif) : RondeActivables s l a (ch, false) s₁ := by
  refine ⟨[], l₁, a, ha.trans hi.actif, hl, hc, by simp, List.nodup_nil, ?_⟩
  rw [if_neg (by simp), ho, Sched.arrive, List.append_nil]

/-- And then there is an election. -/
theorem Vote.ronde_change {l₁ : List Slot} (h : Vote s₁ l₁ a s') (hc : ch.Allowed (ordo s l a))
    (ho : ch.run (ordo s l a) = ordo s₁ l₁ a) (hm : ∀ y, y ∈ l ↔ y ∈ l₁) : RondeActivables s l a (ch, true) s' := by
  obtain ⟨xs, l', n, ha, hl', hp, hn, hax, he⟩ := h
  obtain ⟨hf, hn⟩ := fresh_of_nodup hn hax
  refine ⟨xs, l', n, ha, hl', hc, fun x hx => ⟨mt (hm x).1 (hf x hx).1, (hf x hx).2⟩, hn, ?_⟩
  simp only [if_true, ho]
  exact he

theorem Vote.congr (h : Vote s₁ l a s') (hp : s₁.prio = s.prio) : Vote s l a s' := by
  obtain ⟨xs, l', n, ha, hl', hp', hn, hax, he⟩ := h
  rw [ordo_congr hp] at he
  exact ⟨xs, l', n, ha, hl', hp'.trans hp, hn, hax, he⟩

theorem Vote.ronde (h : Vote s l a s') : RondeActivables s l a (.none, true) s' := h.ronde_change trivial rfl fun _ => .rfl

/-! ## `ordonnance` and `fin_processus` -/

theorem ctxSw_ok {i j : Slot} (ho : ctxSw i j s = .ok s') (h : Arrivees s l) :
    Arrivees s' l ∧ s'.actif = s.actif ∧ s'.prio = s.prio := by
  obtain ⟨hl, ha, hp, -⟩ := (ctxSw_arrivees (a := i) h).of_ok ho
  exact ⟨hl, ha, hp⟩

theorem Tour.elects (h : Tour s a l s') (hp : s'.prio = s.prio) :
    ∃ l' n, s'.actif = some n ∧ Arrivees s' l' ∧ Elects (ordo s l a) (ordo s' l' n) := by
  cases h with
  | cede t ht hc ha hl =>
    refine ⟨_, t, ha, hl, ?_⟩
    rw [ordo_congr hp]
    by_cases hend : s.state a = .endormi
    · rw [if_pos hend]
      exact .block (c := ordo s l a) t ht
    · rw [if_neg hend]
      exact .yield (c := ordo s l a) t ht (hc.resolve_right hend)
  | garde hg ha hl =>
    refine ⟨l, a, ha, hl, ?_⟩
    rw [ordo_congr hp]
    exact .keep fun t ht => (hg t ht).1

/-- `actif` has just been made ready, behind `l`: it goes on only if it is above them. -/
theorem ordonnanceSuite_rappel (h : Arrivees s (l ++ [a])) (ha : s.actif = some a) (hst : s.state a ≠ .endormi)
    (ho : ordonnanceSuite s = .ok s') :
    s'.actif = some a ∧ Arrivees s' l ∧ s'.prio = s.prio ∧ ∀ t, eldest s.prio l = some t → s.prio t < s.prio a := by
  have hal : a ∉ l := fun hm => (List.nodup_append.1 h.2).2.2 a hm a (by simp) rfl
  rw [ordonnanceSuite, ha, deref_some, ok_bind] at ho
  obtain ⟨old, -, ho⟩ := bind_eq_ok.1 ho
  rcases elit_tour (a := a) h with ⟨-, hg⟩ | ⟨t, next, prev, ht, -, hel, hr⟩
  · cases ht : eldest s.prio (l ++ [a]) with
    | none => simp [eldest_eq_none] at ht
    | some t => exact absurd (eldest_le ht (by simp : a ∈ l ++ [a])) (not_le.2 (hg t ht).1)
  rw [hel, ok_bind] at ho
  dsimp only at ho
  obtain ⟨nextPid, -, ho⟩ := bind_eq_ok.1 ho
  by_cases hat : a = t
  · subst hat
    rw [if_neg (by simp), ok_bind] at ho
    rw [List.erase_append_right _ hal, List.erase_cons_head, List.append_nil] at hr
    obtain ⟨h', ha', hp'⟩ := ctxSw_ok ho hr
    refine ⟨ha', h', hp', fun t ht' => ?_⟩
    rw [eldest_concat, ht'] at ht
    dsimp only at ht
    split at ht
    · next hlt => exact hlt
    · cases ht
      exact absurd (eldest_mem ht') hal
  -- It is still in the ring, and `insert_activable` refuses it.
  · rw [if_pos ⟨hst, hat⟩, insertActivable_fail hr.1 (mem_byKey.2 ?_)] at ho
    · cases ho
    · exact (List.mem_erase_of_ne hat).2 (by simp)

theorem ordonnance_vote (hrep : Rep s p q e d) (hact : s.actif = some a) (hpa : p a ≠ .pret) (hl : Arrivees s l)
    (ho : ordonnance s = .ok s') : Vote s l a s' := by
  have hal : a ∉ l := mt (hl.mem hrep).1 hpa
  have hq := hl.1.unique hrep.lists.ready
  rcases wakeProcess_spec hrep with ⟨hw, -⟩ | ⟨x, next, prev, suiv, hd, tl, -, hpx, hw, hrep'⟩
  · rw [ordonnance, hw, ok_bind] at ho
    obtain ⟨ht, hp, -⟩ := (ordonnanceSuite_tour hl hact hal).of_ok ho
    obtain ⟨l', n, ha, hl', he⟩ := ht.elects hp
    exact ⟨[], l', n, ha, hl', hp, by simpa using hl.2, by simp, by simpa using he⟩
  · rw [ordonnance, hw, ok_bind] at ho
    set s₁ : St := { s with
      state := Function.update s.state x .activable, next, prev, suiv, endormiList := hd, endormiTail := tl } with hs₁
    have hxl : x ∉ l := by
      rw [hl.mem hrep, hpx]
      simp
    have hl₁ : Arrivees s₁ (l ++ [x]) := by
      refine ⟨?_, List.nodup_append.2 ⟨hl.2, by simp, ?_⟩⟩
      · have hk : byKey s.prio (l ++ [x]) = parPrio s x q := by rw [byKey_concat, hq]; rfl
        show Ready next prev (byKey s.prio (l ++ [x]))
        rw [hk]
        exact hrep'.lists.ready
      · rintro y hy z hz rfl
        exact hxl (List.mem_singleton.1 hz ▸ hy)
    by_cases hax : a = x
    -- `actif` slept in the past.
    · subst hax
      obtain ⟨ha, hl', hp, hlt⟩ := ordonnanceSuite_rappel hl₁ hact (by simp [hs₁]) ho
      refine ⟨[], l, a, ha, hl', hp, by simpa using hl.2, by simp, ?_⟩
      rw [List.append_nil, ordo_congr hp]
      exact .keep hlt
    · have hal₁ : a ∉ l ++ [x] := by simp [hal, hax]
      obtain ⟨ht, hp, -⟩ := (ordonnanceSuite_tour hl₁ hact hal₁).of_ok ho
      obtain ⟨l', n, ha, hl', he⟩ := ht.elects hp
      exact ⟨[x], l', n, ha, hl', hp, hl₁.2, by simpa using hax, he⟩

theorem finProcessus_vote (ha : s.actif = some a) (hl : Arrivees s l) (ho : finProcessus s = .ok s') : Vote s l a s' := by
  rw [finProcessus_eq, ha, deref_some, ok_bind] at ho
  obtain ⟨s₁, h₁, ho⟩ := bind_eq_ok.1 ho
  obtain ⟨oldPid, -, ho⟩ := bind_eq_ok.1 ho
  obtain ⟨⟨o, s₂⟩, h₂, ho⟩ := bind_eq_ok.1 ho
  obtain ⟨state, suiv, dl, dt, pere, fd, prf, rfl⟩ := finProcessusTable_eq h₁
  have hl₁ : Arrivees { s with state, suiv, deadList := dl, deadTail := dt, pere, frereDroit := fd, pidRetFils := prf } l :=
    hl.congr rfl rfl fun _ _ => rfl
  cases ht : eldest s.prio l with
  | none =>
    obtain rfl := eldest_eq_none.1 ht
    rw [hl₁.vide] at h₂
    obtain ⟨rfl, rfl⟩ := Prod.mk.inj (Except.ok.inj h₂)
    obtain ⟨h', ha', hp'⟩ := ctxSw_ok ho (hl₁.congr rfl rfl fun _ _ => rfl)
    refine ⟨[], [], a, ha'.trans ha, h', hp', by simp, by simp, ?_⟩
    rw [List.append_nil, ordo_congr hp']
    exact .keep (by simp [ordo, eldest])
  | some t =>
    obtain ⟨next, prev, hex, hr⟩ := hl₁.extrait ht
    rw [hex] at h₂
    obtain ⟨rfl, rfl⟩ := Prod.mk.inj (Except.ok.inj h₂)
    obtain ⟨nextPid, -, ho⟩ := bind_eq_ok.1 ho
    obtain ⟨h', ha', hp'⟩ := ctxSw_ok ho (hr.congr rfl rfl fun _ _ => rfl)
    refine ⟨[], l.erase t, t, ha', h', hp', by simpa using hl.2, by simp, ?_⟩
    rw [List.append_nil, ordo_congr hp']
    exact .block (c := ordo s l a) t ht

/-! ## The calls -/

theorem sleepUntil_vote {time : ℚ} (h : Inv f a s p) (hl : Arrivees s l) (ho : sleepUntil time s = .ok s') : Vote s l a s' := by
  obtain ⟨q, e, d, hrep⟩ := h.rep
  obtain ⟨suiv, hd, tl, hi, hrep₁⟩ :=
    hrep.insertEndormi (x := a) (by simp [h.elu]) (by simp [h.elu]) (by simp [h.elu]) (by simp [h.elu]) time
  rw [sleepUntil, h.deref, ok_bind, hi, ok_bind] at ho
  exact (ordonnance_vote hrep₁ h.actif (by simp) (hl.congr rfl rfl fun _ _ => rfl) ho).congr rfl

/-- A process that waits for a message or for room is in no list. -/
theorem Rep.bloque (h : Rep s p q e d) (hx : p x = .elu) (suite : Suite) :
    Rep ((s.setState x .endormi).setSuite suite) (Function.update p x .bloque) q e d := by
  obtain ⟨hq, he, hd⟩ := h.notMem (x := x) (by simp [hx]) (by simp [hx]) (by simp [hx])
  have hl : Lists ((s.setState x .endormi).setSuite suite) q e d := h.lists.congr rfl rfl rfl rfl rfl rfl rfl
  refine h.move hl h.sorted rfl rfl rfl (by simp [hx]) (by simp) ?_ ?_ ?_
  all_goals
    intro i
    split <;> simp_all

theorem bloque_vote {suite : Suite} {m : Messages Slot} (h : Inv f a s p) (hl : Arrivees s l)
    (ho : bloque a suite { s with messages := m } = .ok s') : Vote s l a s' := by
  obtain ⟨q, e, d, hrep⟩ := h.rep
  have hrep' : Rep { s with messages := m } p q e d := hrep.congr rfl
  exact (ordonnance_vote (hrep'.bloque h.elu suite) h.actif (by simp) (hl.congr rfl rfl fun _ _ => rfl) ho).congr rfl

theorem reveille_rejoint {o : Option Slot} (hl : Arrivees s l) (ho : reveille o s = .ok s') : Rejoint s l s' := by
  cases o with
  | none =>
    obtain rfl := Except.ok.inj ho
    exact .refl hl
  | some y =>
    obtain ⟨-, h', hp, ha⟩ := insertActivable_arrivees ho hl
    exact ⟨[y], h', hp, ha⟩

theorem psendFin_rejoint {k : Fin NBQUEUE} {message : Int} {tmp : Slot} (h : Inv f a s p) (hl : Arrivees s l)
    (ho : psendFin k message tmp s = .ok (r, s')) : Rejoint s l s' := by
  obtain ⟨lab, hr⟩ := h.rings
  obtain ⟨-, m, -, h₂⟩ := psendFin_ok hr.silent ho
  exact reveille_rejoint (s := { s with messages := m }) (hl.congr rfl rfl fun _ _ => rfl) h₂

theorem preceiveFin_rejoint {k : Fin NBQUEUE} {tmp : Slot} (h : Inv f a s p) (hl : Arrivees s l)
    (ho : preceiveFin k tmp s = .ok (r, s')) : Rejoint s l s' := by
  obtain ⟨lab, hr⟩ := h.rings
  obtain ⟨v, m, -, -, h₂⟩ := preceiveFin_ok hr.silent ho
  exact reveille_rejoint (s := { s with messages := m }) (hl.congr rfl rfl fun _ _ => rfl) h₂

theorem Rejoint.trans (h : ∀ l', Arrivees s₁ l' → Rejoint s₁ l' s') (h₁ : Rejoint s l s₁) : Rejoint s l s' := by
  obtain ⟨xs, hl, hp, ha⟩ := h₁
  obtain ⟨ys, hl', hp', ha'⟩ := h _ hl
  exact ⟨xs ++ ys, by rwa [← List.append_assoc], hp'.trans hp, ha'.trans ha⟩

theorem reveilleUn_rejoint {k : Fin NBQUEUE} {fifo : FifoProcess} (hl : Arrivees s l) (ho : reveilleUn k fifo s = .ok s') :
    Rejoint s l s' := by
  simp only [reveilleUn, bind_eq_ok, Except.ok.injEq, deref_eq_ok] at ho
  obtain ⟨⟨consum, y', heap⟩, -, y, -, s₁, ha, ⟨new, heap'⟩, -, rfl⟩ := ho
  obtain ⟨-, h', hp, ha⟩ := insertActivable_arrivees ha (hl.congr rfl rfl fun _ _ => rfl)
  exact ⟨[y], h'.congr rfl rfl fun _ _ => rfl, hp, ha⟩

theorem reveilleConsum_rejoint {k : Fin NBQUEUE} {m : Nat} (hl : Arrivees s l) (ho : reveilleConsum k m s = .ok s') :
    Rejoint s l s' := by
  induction m generalizing s l with
  | zero => cases ho
  | succ m ih =>
    unfold reveilleConsum at ho
    split at ho
    · obtain rfl := Except.ok.inj ho
      exact .refl hl
    · obtain ⟨s₁, h₁, h₂⟩ := bind_eq_ok.1 ho
      exact .trans (fun l' hl' => ih hl' h₂) (reveilleUn_rejoint hl h₁)

theorem videFifo_rejoint {φ : FifoMessages → FifoMessages} {fid : Int} (hl : Arrivees s l) (ho : videFifo φ fid s = .ok (r, s')) :
    Rejoint s l s' := by
  unfold videFifo at ho
  split at ho
  · obtain ⟨rfl, rfl⟩ := Prod.mk.inj (Except.ok.inj ho)
    exact .refl hl
  · next k hk =>
    obtain ⟨h₁, rfl⟩ := bind_answer_eq_ok.1 ho
    obtain ⟨s₁, h₂, h₃⟩ := bind_eq_ok.1 h₁
    obtain ⟨-, rfl⟩ := reveilleProd_ok h₃
    exact reveilleConsum_rejoint (s := { s with messages := s.messages.set k (φ (s.messages.fifoTab k)) })
      (hl.congr rfl rfl fun _ _ => rfl) h₂

theorem waitpidFin_rejoint {pid ret : Int} {retvalp : Bool} (ho : waitpidFin pid retvalp ret s = .ok (r, s')) (hl : Arrivees s l) :
    Rejoint s l s' := by
  obtain ⟨b, -, ho⟩ := bind_eq_ok.1 ho
  split at ho
  · obtain ⟨rfl, rfl⟩ := Prod.mk.inj (Except.ok.inj ho)
    exact .refl hl
  split at ho
  · obtain ⟨rfl, rfl⟩ := Prod.mk.inj (Except.ok.inj ho)
    exact .of_eq hl rfl rfl rfl rfl
  · cases ho

/-- The change that `chprio` makes in the table. -/
def Modifie (s : St) (pid newprio : Int) (ch : Shift Slot Nat) : Prop :=
  ch = .none ∨ ∃ x, s.pid x = pid ∧ (ch = .requeue x (toUint32 newprio) ∨ ch = .rekey x (toUint32 newprio))

theorem chprioTable_change {pid newprio v : Int} (h : Inv f a s p) (hl : Arrivees s l)
    (ho : chprioTable pid newprio s = .ok (v, s₁)) :
    ∃ ch l₁, Modifie s pid newprio ch ∧ ch.Allowed (ordo s l a) ∧ ch.run (ordo s l a) = ordo s₁ l₁ a ∧ Arrivees s₁ l₁ ∧
      (∀ y, y ∈ l ↔ y ∈ l₁) := by
  obtain ⟨q, e, d, hrep⟩ := h.rep
  have hal := hl.apart h
  have hkey {y : Slot} (hy : y ∉ l) (w : Nat) : ∀ i ∈ l, Function.update s.prio y w i = s.prio i := by
    intro i hi
    exact Function.update_of_ne (ne_of_mem_of_not_mem hi hy) ..
  rw [chprioTable, h.deref, ok_bind] at ho
  split at ho
  · next ha =>
    obtain ⟨rfl, rfl⟩ := Prod.mk.inj (Except.ok.inj ho)
    exact ⟨.rekey a (toUint32 newprio), l, .inr ⟨a, ha, .inr rfl⟩, hal, rfl, hl.congr rfl rfl (hkey hal _), fun _ => .rfl⟩
  have hpq : ∀ i ∈ q, p i = .pret := fun i => (hrep.ready i).1
  have hpe : ∀ i ∈ e, p i = .endormi := fun i => (hrep.sleep i).1
  have hlen := slots_length hrep.lists.sleep.nodup
  by_cases hex : ∃ x ∈ q, s.pid x = pid
  -- A ready process is moved, and no sleeper has its pid.
  · obtain ⟨x, hxq, rfl⟩ := hex
    have hb := hl.1.unique hrep.lists.ready
    obtain ⟨q₁, q₂, rfl⟩ := List.append_of_mem hxq
    have hnd := hrep.lists.ready.distinct
    have hx : x ∉ q₁ ++ q₂ := (List.nodup_cons.1 (List.nodup_middle.1 hnd)).1
    have hne : ∀ i ∈ q₁ ++ q₂, s.pid i ≠ s.pid x := by
      intro i hi he
      have hi' : i ∈ q₁ ++ x :: q₂ := by
        rcases List.mem_append.1 hi with hi | hi <;> simp [hi]
      exact hx (hrep.pid_inj (by simp [hpq i hi']) (by simp [hpq x hxq]) he ▸ hi)
    obtain ⟨next, prev, h₁, hr⟩ := chprioActivables_deplace hrep.lists.ready hne newprio (-1)
    rw [h₁, ok_bind] at ho
    have hnone := chprioEndormis_none (s := { s with next, prev, prio := Function.update s.prio x (toUint32 newprio) }) newprio
      (toInt32 (s.prio x)) hrep.lists.sleep.seg (n := PROCESS_TABLE_SIZE + 1) (fun i hi (he : s.pid i = s.pid x) =>
        (hrep.lists.sleep_apart hi).1 (hrep.pid_inj (by simp [hpe i hi]) (by simp [hpq x hxq]) he ▸ hxq)) (by omega)
    obtain ⟨rfl, rfl⟩ := Prod.mk.inj (Except.ok.inj (hnone.symm.trans ho))
    have hxl : x ∈ l := (hl.mem hrep).2 (hpq x hxq)
    have hperm : l.Perm (l.erase x ++ [x]) := (List.perm_cons_erase hxl).trans (List.perm_append_singleton x _).symm
    refine ⟨.requeue x (toUint32 newprio), l.erase x ++ [x], .inr ⟨x, rfl, .inl rfl⟩, hxl, rfl, ⟨?_, hperm.nodup_iff.1 hl.2⟩,
      fun y => hperm.mem_iff⟩
    show Ready next prev (byKey (Function.update s.prio x (toUint32 newprio)) (l.erase x ++ [x]))
    rw [byKey_reclasse hnd hb, erase_middle hnd]
    exact hr
  · push Not at hex
    have hlq := slots_length hrep.lists.ready.distinct
    rw [chprioActivables_none newprio (-1) (n := 2 * PROCESS_TABLE_SIZE + 1) hrep.lists.ready.path hex (by omega), ok_bind] at ho
    obtain ⟨r', prio', ho', hc⟩ := chprioEndormis_spec pid newprio (-1) (s := s) (n := PROCESS_TABLE_SIZE + 1) hrep.lists.sleep.seg
      (fun i hi j hj => hrep.pid_inj (by simp [hpe i hi]) (by simp [hpe j hj])) (by omega)
    obtain ⟨rfl, rfl⟩ := Prod.mk.inj (Except.ok.inj (ho'.symm.trans ho))
    rcases hc with ⟨x, hx, hxp, -, rfl⟩ | ⟨-, -, rfl⟩
    · have hxl : x ∉ l := by simp [hl.mem hrep, hpe x hx]
      exact ⟨.rekey x (toUint32 newprio), l, .inr ⟨x, hxp, .inr rfl⟩, hxl, rfl, hl.congr rfl rfl (hkey hxl _), fun _ => .rfl⟩
    · exact ⟨.none, l, .inl rfl, trivial, rfl, hl, fun _ => .rfl⟩

/-- `chprio` ends with an election, unless it refuses its arguments. -/
theorem chprio_ronde {pid newprio v : Int} (h : Inv f a s p) (hl : Arrivees s l) (ho : chprio pid newprio s = .ok (v, s')) :
    Rejoint s l s' ∨ Legale newprio ∧ ∃ ch, Modifie s pid newprio ch ∧ RondeActivables s l a (ch, true) s' := by
  unfold chprio at ho
  split at ho
  · obtain ⟨rfl, rfl⟩ := Prod.mk.inj (Except.ok.inj ho)
    exact .inl (.refl hl)
  · next hpar =>
    obtain ⟨r, s₁, h₁, hi₁, -⟩ := chprioTable_spec pid newprio h
    rw [h₁, ok_bind] at ho
    obtain ⟨h₂, rfl⟩ := bind_answer_eq_ok.1 ho
    obtain ⟨ch, l₁, hm, hc, hrun, hl₁, hmem⟩ := chprioTable_change h hl h₁
    obtain ⟨q, e, d, hrep⟩ := hi₁.rep
    refine .inr ⟨⟨by omega, by omega⟩, ch, hm, ?_⟩
    exact (ordonnance_vote hrep hi₁.actif (by simp [hi₁.elu]) hl₁ h₂).ronde_change hc hrun hmem

theorem exit_vote {retval : Int} (h : Inv f a s p) (hl : Arrivees s l) (ho : exit retval s = .ok s') : Vote s l a s' := by
  rw [exit, h.deref, ok_bind] at ho
  have hl' : Arrivees ((s.setRetval a (some retval)).setSuite .exit) l := hl.congr rfl rfl fun _ _ => rfl
  exact (finProcessus_vote (s := (s.setRetval a (some retval)).setSuite .exit) h.actif hl' ho).congr rfl

/-- The slot that `start` takes was not ready. -/
theorem start_ronde {ssize : Nat} {prio : Int} {name : String} (h : Inv f a s p) (hl : Arrivees s l) (hs : SlotLibre s)
    (ho : start ssize prio name s = .ok (r, s')) :
    Rejoint s l s' ∨ ∃ x, r = .cree x ∧ RondeActivables s l a (.rekey x (toUint32 prio), false) s' := by
  rcases (start_spec ssize prio name h hs).of_ok ho with he | ⟨x, hr, hi, -, hav, -⟩
  · obtain ⟨rfl, rfl⟩ := Prod.mk.inj he
    exact .inl (.refl hl)
  obtain rfl : r = .cree x := hr
  obtain ⟨q, e, d, hrep⟩ := h.rep
  -- A slot that was free is not in the ready queue.
  have hxl : x ∉ l := by
    rw [hl.mem hrep]
    rcases hav.place with hp | hp | hp <;> simp [hp]
  obtain ⟨hxa, hx0, -⟩ := hav.apart h
  have hpos : 0 < x.val := by
    have hv : x.val ≠ 0 := fun hv => hx0 (Fin.ext hv)
    omega
  unfold start at ho
  split at ho
  · cases (Prod.mk.inj (Except.ok.inj ho)).1
  split at ho
  · cases (Prod.mk.inj (Except.ok.inj ho)).1
  split at ho
  · cases (Prod.mk.inj (Except.ok.inj ho)).1
  obtain ⟨⟨y, s₁⟩, h₁, ho⟩ := bind_eq_ok.1 ho
  dsimp only at ho
  split at ho
  · cases ho
  obtain ⟨s₂, h₂, ho⟩ := bind_eq_ok.1 ho
  obtain rfl : y = x := by
    split at ho
    · obtain ⟨s₃, -, ho⟩ := bind_eq_ok.1 ho
      exact Issue.cree.inj (Prod.mk.inj (Except.ok.inj ho)).1
    · exact Issue.cree.inj (Prod.mk.inj (Except.ok.inj ho)).1
  rw [if_pos hpos] at ho
  obtain ⟨s₃, h₃, ho⟩ := bind_eq_ok.1 ho
  obtain ⟨-, rfl⟩ := Prod.mk.inj (Except.ok.inj ho)
  obtain ⟨dl, dt, d', rfl, -⟩ := (prendSlot_spec hrep hs).of_ok h₁
  have h₂eq : ∃ premierFils dernierFils frereDroit,
      s₂ = { initSlot y name prio { s with deadList := dl, deadTail := dt } with premierFils, dernierFils, frereDroit } := by
    unfold ajouteFils at h₂
    split at h₂
    · exact ⟨_, _, _, (Except.ok.inj h₂).symm⟩
    split at h₂
    · exact ⟨_, _, _, (Except.ok.inj h₂).symm⟩
    · obtain ⟨w, -, h₂⟩ := bind_eq_ok.1 h₂
      exact ⟨_, _, _, (Except.ok.inj h₂).symm⟩
  obtain ⟨pf, df, fd, rfl⟩ := h₂eq
  obtain ⟨-, hl', hp, ha⟩ := insertActivable_arrivees h₃ (l := l)
    (hl.congr rfl rfl fun i hi => Function.update_of_ne (ne_of_mem_of_not_mem hi hxl) ..)
  refine .inr ⟨y, rfl, [y], l ++ [y], a, ha.trans h.actif, hl'.congr rfl rfl fun _ _ => rfl, hxl, ?_, by simp, ?_⟩
  · simp only [List.mem_singleton, forall_eq]
    exact ⟨hxl, hxa⟩
  · rw [if_neg (by simp)]
    show ordo s₃ (l ++ [y]) a = _
    rw [ordo, hp]
    rfl

/-- `kill` takes a ready process out of the queue, a sleeper out of the sleep list. -/
theorem killAutre_ronde {pid v : Int} (h : Inv f a s p) (hl : Arrivees s l) (hpid : 0 < pid) (ho : killAutre pid s = .ok (v, s')) :
    Rejoint s l s' ∨ ∃ x, s.pid x = pid ∧ RondeActivables s l a (.leave x, false) s' := by
  obtain ⟨q, e, d, hrep⟩ := h.rep
  have hfind := queueFind_spec hrep.lists.ready pid
  cases hq : q.find? (fun i => s.pid i = pid) with
  | some x =>
    have hx : s.pid x = pid := by simpa using List.find?_some hq
    have hxq := List.mem_of_find?_eq_some hq
    have hxl : x ∈ l := (hl.mem hrep).2 ((hrep.ready x).1 hxq)
    obtain ⟨q₁, q₂, rfl⟩ := List.append_of_mem hxq
    obtain ⟨next, prev, h₁, -⟩ := hrep.queueDel
    obtain ⟨s₂, h₂, hl', hp⟩ := hl.ote hxl
    obtain rfl := Except.ok.inj (h₂.symm.trans h₁)
    rw [killAutre, hfind, hq, ok_bind] at ho
    dsimp only at ho
    rw [h₁, ok_bind] at ho
    obtain ⟨-, rfl⟩ := Prod.mk.inj (Except.ok.inj ho)
    exact .inr ⟨x, hx, ronde_change h hxl (show _ = ordo _ (l.erase x) a from rfl) hl' rfl⟩
  | none =>
    rw [killAutre, hfind, hq, ok_bind] at ho
    dsimp only at ho
    obtain ⟨⟨w, s₁⟩, h₁, ho⟩ := bind_eq_ok.1 ho
    have hs : s' = s₁ := by
      dsimp only at ho
      split at ho
      · exact (Prod.mk.inj (Except.ok.inj ho)).2.symm
      · exact (Prod.mk.inj (Except.ok.inj ho)).2.symm
    subst hs
    by_cases he : ∃ x ∈ e, s.pid x = pid
    -- A sleeping process dies without the ready queue changing.
    · obtain ⟨x, hxe, rfl⟩ := he
      obtain ⟨e₁, e₂, rfl⟩ := List.append_of_mem hxe
      obtain ⟨suiv, hd, tl, dl, dt, h₂, -⟩ := hrep.sleepDel
      obtain ⟨-, rfl⟩ := Prod.mk.inj (Except.ok.inj (h₂.symm.trans h₁))
      exact .inl (.of_eq hl rfl rfl rfl rfl)
    · push Not at he
      rw [sleepDel_none hrep.lists.sleepDead he] at h₁
      obtain ⟨-, rfl⟩ := Prod.mk.inj (Except.ok.inj h₁)
      exact .inl (.refl hl)

/-- What an event may do to one process. -/
def Motif (s : St) (e : Event) : Shift Slot Nat → Prop
  | .none => True
  | .leave x => e = .appel (.kill (s.pid x))
  | .requeue x k => (∃ newprio, e = .appel (.chprio (s.pid x) newprio) ∧ k = toUint32 newprio) ∨ e = .suite ∧ k ≠ s.prio x
  | .rekey x _ => e.creation = true ∨ (∃ newprio, e = .appel (.chprio (s.pid x) newprio)) ∨ e = .suite

/-- A tick always ends with an election. -/
def Autorise (s : St) (e : Event) (c : Shift Slot Nat × Bool) : Prop := (e = .tick → c.2 = true) ∧ Motif s e c.1

/-- The step is a round that its event permits. -/
def EnRonde (s : St) (l : List Slot) (a : Slot) (e : Event) (s' : St) : Prop := ∃ c, Autorise s e c ∧ RondeActivables s l a c s'

theorem Rejoint.enRonde {ev : Event} (h : Rejoint s l s') (hi : Inv f a s p) (hi' : Inv f n s' p') (he : ev ≠ .tick) :
    EnRonde s l a ev s' :=
  ⟨(.none, false), ⟨fun h => absurd h he, trivial⟩, h.ronde hi hi'⟩

theorem Vote.enRonde {ev : Event} (h : Vote s l a s') : EnRonde s l a ev s' := ⟨(.none, true), ⟨fun _ => rfl, trivial⟩, h.ronde⟩

theorem RondeActivables.congr {c : Shift Slot Nat × Bool} (h : RondeActivables s₁ l a c s') (hp : s₁.prio = s.prio) : RondeActivables s l a c s' := by
  obtain ⟨xs, l', m, ha, hl', hr⟩ := h
  rw [ordo_congr hp] at hr
  exact ⟨xs, l', m, ha, hl', hr⟩

theorem suite_ne_tick : Event.suite ≠ .tick := by simp

/-- A wait raises the priority of a ready child by one. -/
theorem attente_ronde {pid : Int} {retvalp : Bool} {fils : Option Slot} (h : Inv f a s p) (hi' : Inv f n s' p') (hl : Arrivees s l)
    (ho : pidDunFilsTermine pid retvalp fils s = .ok (r, s')) : EnRonde s l a .suite s' := by
  rw [pidDunFilsTermine, h.deref, ok_bind] at ho
  dsimp only at ho
  generalize (if pid < 0 then (-1 : Int) else pid) = param at ho
  obtain ⟨x, -, ho⟩ := bind_eq_ok.1 ho
  split at ho
  · obtain ⟨s₁, h₁, ho⟩ := bind_eq_ok.1 ho
    obtain ⟨suiv, dl, dt, rfl⟩ := insertMort_eq h₁
    have hrejoint : Rejoint s l s' := by
      split at ho
      · obtain ⟨rfl, rfl⟩ := Prod.mk.inj (Except.ok.inj ho)
        exact .of_eq hl rfl rfl rfl rfl
      · obtain ⟨xs, hl', hp, ha⟩ := waitpidFin_rejoint ho (hl.congr rfl rfl fun _ _ => rfl)
        exact ⟨xs, hl', hp, ha⟩
    exact hrejoint.enRonde h hi' suite_ne_tick
  · generalize (if s.frereDroit x = none then s.premierFils a else s.frereDroit x) = suivant at ho
    have h₁ := h.setSuite (.attente pid retvalp suivant)
    have hl₁ : Arrivees (s.setSuite (.attente pid retvalp suivant)) l := hl.congr rfl rfl fun _ _ => rfl
    obtain ⟨y, -, ho⟩ := bind_eq_ok.1 ho
    split at ho
    · obtain ⟨v, hv, ho⟩ := bind_eq_ok.1 ho
      obtain ⟨⟨w, s₁⟩, hc, ho⟩ := bind_eq_ok.1 ho
      obtain ⟨rfl, rfl⟩ := Prod.mk.inj (Except.ok.inj ho)
      rcases chprio_ronde h₁ hl₁ hc with ⟨xs, hl', hp, ha⟩ | ⟨hleg, ch, hm, hr⟩
      · exact Rejoint.enRonde ⟨xs, hl', hp, ha⟩ h hi' suite_ne_tick
      refine ⟨(ch, true), ⟨fun _ => rfl, ?_⟩, hr.congr rfl⟩
      rcases hm with rfl | ⟨z, hz, rfl | rfl⟩
      · trivial
      · refine Or.inr ⟨rfl, fun hk => ?_⟩
        -- Only a process that `getprio` found is raised, so its priority changes.
        obtain ⟨xs, l', m, -, -, hround⟩ := hr
        have hzp : p z = .pret := by
          obtain ⟨q, e, d, hrep⟩ := h₁.rep
          exact (hl₁.mem hrep).1 hround.allowed
        obtain ⟨v', hv', hg⟩ := getprio_spec param h₁
        obtain rfl := Except.ok.inj (hv'.symm.trans hv)
        rcases hg with ⟨b, hb, hbp, hvb⟩ | ⟨hno, -⟩
        · obtain ⟨q, e, d, hrep⟩ := h₁.rep
          obtain rfl := hrep.pid_inj hb.ne_libre (by simp [hzp]) (hbp.trans hz.symm)
          have h₂ := toInt32_toUint32 hleg
          rw [hk] at h₂
          change toInt32 (s.prio b) = _ at h₂
          change v' = toInt32 (s.prio b) at hvb
          omega
        · exact hno z (.inr (.inl hzp)) hz
      · exact Or.inr (.inr rfl)
    · obtain ⟨rfl, rfl⟩ := Prod.mk.inj (Except.ok.inj ho)
      exact Rejoint.enRonde (.of_eq hl rfl rfl rfl rfl) h hi' suite_ne_tick

theorem suite_ronde (h : Inv f a s p) (hi' : Inv f n s' p') (hl : Arrivees s l) (ho : poursuit s = .ok (r, s')) :
    EnRonde s l a .suite s' := by
  have hcode := h.setSuite .code
  have hlc : Arrivees (s.setSuite .code) l := hl.congr rfl rfl fun _ _ => rfl
  unfold poursuit at ho
  split at ho
  · obtain ⟨rfl, rfl⟩ := Prod.mk.inj (Except.ok.inj ho)
    exact (Rejoint.refl hl).enRonde h hi' suite_ne_tick
  · obtain ⟨xs, hl', hp, ha⟩ := psendFin_rejoint hcode hlc ho
    exact Rejoint.enRonde ⟨xs, hl', hp, ha⟩ h hi' suite_ne_tick
  · obtain ⟨xs, hl', hp, ha⟩ := preceiveFin_rejoint hcode hlc ho
    exact Rejoint.enRonde ⟨xs, hl', hp, ha⟩ h hi' suite_ne_tick
  · exact attente_ronde h hi' hl ho
  · obtain ⟨rfl, rfl⟩ := Prod.mk.inj (Except.ok.inj ho)
    exact (Rejoint.refl hl).enRonde h hi' suite_ne_tick
  · obtain ⟨rfl, rfl⟩ := Prod.mk.inj (Except.ok.inj ho)
    exact Rejoint.enRonde (s := s) (.of_eq hl rfl rfl rfl rfl) h hi' suite_ne_tick
  · cases ho

theorem appelle_ronde {c : Appel} (h : Inv f a s p) (hi' : Inv f n s' p') (hs : Sain s (.appel c)) (hl : Arrivees s l)
    (ho : appelle c s = .ok (r, s')) : EnRonde s l a (.appel c) s' := by
  cases c with
  | start ssize prio name =>
    rcases start_ronde h hl hs ho with hr | ⟨x, -, hr⟩
    · exact hr.enRonde h hi' nofun
    · exact ⟨(.rekey x (toUint32 prio), false), ⟨nofun, Or.inl rfl⟩, hr⟩
  | exit retval => exact (exit_vote h hl (sansIssue_eq_ok.1 ho).1).enRonde
  | retour v =>
    have hl' : Arrivees (s.setSuite .retour) l := hl.congr rfl rfl fun _ _ => rfl
    have hv := finProcessus_vote (s := s.setSuite .retour) h.actif hl' (sansIssue_eq_ok.1 ho).1
    exact (hv.congr (s := s) rfl).enRonde
  | kill pid =>
    change kill pid s = _ at ho
    unfold kill at ho
    split at ho
    · obtain ⟨rfl, rfl⟩ := Prod.mk.inj (Except.ok.inj ho)
      exact (Rejoint.refl hl).enRonde h hi' nofun
    · next hpid =>
      rw [h.deref, ok_bind] at ho
      split at ho
      · obtain ⟨h₁, rfl⟩ := bind_answer_eq_ok.1 ho
        have hl' : Arrivees ((s.setRetval a none).setSuite .kill) l := hl.congr rfl rfl fun _ _ => rfl
        have hv := finProcessus_vote (s := (s.setRetval a none).setSuite .kill) h.actif hl' h₁
        exact (hv.congr (s := s) rfl).enRonde
      · obtain ⟨⟨v, s₁⟩, h₁, ho⟩ := bind_eq_ok.1 ho
        obtain ⟨rfl, rfl⟩ := Prod.mk.inj (Except.ok.inj ho)
        rcases killAutre_ronde h hl (by omega) h₁ with hr | ⟨x, hx, hr⟩
        · exact hr.enRonde h hi' nofun
        · exact ⟨(.leave x, false), ⟨nofun, congrArg (fun pid => Event.appel (.kill pid)) hx.symm⟩, hr⟩
  | chprio pid newprio =>
    obtain ⟨⟨v, s₁⟩, h₁, ho⟩ := bind_eq_ok.1 ho
    obtain ⟨rfl, rfl⟩ := Prod.mk.inj (Except.ok.inj ho)
    rcases chprio_ronde h hl h₁ with hr | ⟨-, ch, hm, hr⟩
    · exact hr.enRonde h hi' nofun
    · refine ⟨(ch, true), ⟨nofun, ?_⟩, hr⟩
      rcases hm with rfl | ⟨x, rfl, rfl | rfl⟩
      · trivial
      · exact Or.inl ⟨newprio, rfl, rfl⟩
      · exact Or.inr (.inl ⟨newprio, rfl⟩)
  | waitpid pid retvalp =>
    rcases (waitpid_spec pid retvalp h).of_ok ho with ⟨ecrit, -, -, rfl | rfl⟩ | ⟨-, -, he⟩
    · exact (Rejoint.refl hl).enRonde h hi' nofun
    · exact Rejoint.enRonde (s := s) (.of_eq hl rfl rfl rfl rfl) h hi' nofun
    · obtain ⟨rfl, rfl⟩ := Prod.mk.inj he
      exact Rejoint.enRonde (s := s) (.of_eq hl rfl rfl rfl rfl) h hi' nofun
  | dors nbrSecs => exact (sleepUntil_vote h hl (sansIssue_eq_ok.1 ho).1).enRonde
  | sleepUntil time => exact (sleepUntil_vote h hl (sansIssue_eq_ok.1 ho).1).enRonde
  | waitClock clock => exact (sleepUntil_vote h hl (sansIssue_eq_ok.1 ho).1).enRonde
  | pcreate count contenu =>
    obtain ⟨rfl, rfl⟩ := Prod.mk.inj (Except.ok.inj ho)
    exact Rejoint.enRonde (s := s) (.of_eq hl rfl rfl rfl rfl) h hi' nofun
  | pdelete fid => exact (videFifo_rejoint (φ := FifoMessages.efface) hl ho).enRonde h hi' nofun
  | preset fid => exact (videFifo_rejoint (φ := FifoMessages.raz) hl ho).enRonde h hi' nofun
  | psend fid message =>
    rcases psend_ok ho with ⟨-, -, rfl⟩ | ⟨b, k, -, -, -, hfin⟩ | ⟨b, k, consum, heap, hb, -, -, -, -, hw⟩
    · exact (Rejoint.refl hl).enRonde h hi' nofun
    · exact (psendFin_rejoint h hl hfin).enRonde h hi' nofun
    · obtain rfl := h.actif_eq hb
      exact (bloque_vote h hl hw).enRonde
  | preceive fid =>
    rcases preceive_ok ho with ⟨-, -, rfl⟩ | ⟨b, k, -, -, -, hfin⟩ | ⟨b, k, prod, heap, hb, -, -, -, -, hw⟩
    · exact (Rejoint.refl hl).enRonde h hi' nofun
    · exact (preceiveFin_rejoint h hl hfin).enRonde h hi' nofun
    · obtain rfl := h.actif_eq hb
      exact (bloque_vote h hl hw).enRonde

/-- Every step of the kernel is a round of the scheduler. -/
theorem pas_ronde {e : Event} (h : Inv f a s p) (hi' : Inv f n s' p') (hs : Sain s e) (hl : Arrivees s l) (ho : joue e s = .ok (r, s')) :
    EnRonde s l a e s' := by
  cases e with
  | appel c => exact appelle_ronde h hi' hs hl ho
  | suite => exact suite_ronde h hi' hl ho
  | tick =>
    obtain ⟨ho, -⟩ := sansIssue_eq_ok.1 ho
    obtain ⟨sec, min, hour, he⟩ := ticPitClock_eq s
    rw [he] at ho
    generalize succUint32 s.nbTick = k at ho
    obtain ⟨q, e, d, hrep⟩ := h.rep
    have hrep' : Rep { s with nbTick := k, sec, min, hour } p q e d := hrep.congr rfl
    exact ((ordonnance_vote hrep' h.actif (by simp [h.elu]) (hl.congr rfl rfl fun _ _ => rfl) ho).congr (s := s) rfl).enRonde

/-! ## Runs -/

/-- `c` is what the scheduler sees of `s`. -/
structure Simule (s : St) (c : Sched Slot Nat) : Prop where
  file : Arrivees s c.queue
  elu : s.actif = some c.running
  prio : s.prio = c.key

theorem Simule.eq {c : Sched Slot Nat} (h : Simule s c) : c = ordo s c.queue c.running := by rw [ordo, h.prio]

/-- The step is that round. -/
def RepondOrdo (c : St × Event × Issue) (d : Sched Slot Nat × (Shift Slot Nat × Bool) × List Slot) : Prop :=
  Simule c.1 d.1 ∧ Autorise c.1 c.2.1 d.2.1

theorem Inv.simule (h : Inv f a s p) (hl : Arrivees s l) : Simule s (ordo s l a) := ⟨hl, h.actif, rfl⟩

theorem Simule.wf {c : Sched Slot Nat} (h : Simule s c) (hi : Inv f a s p) : c.WF := by
  obtain rfl : a = c.running := hi.actif_eq h.elu
  exact ⟨h.file.2, h.file.apart hi⟩

/-- A step from a state that the scheduler sees as `c`. -/
theorem Simule.pas {e : Event} {c : Sched Slot Nat} (h : Simule s c) (hi : Inv f a s p) (hi' : Inv f n s' p') (hs : Sain s e)
    (ho : Pas s e r s') : ∃ m xs c', Autorise s e m ∧ Round c m xs c' ∧ Simule s' c' := by
  obtain rfl : a = c.running := hi.actif_eq h.elu
  obtain ⟨m, ha, xs, l', b, hb, hl', hr⟩ := pas_ronde hi hi' hs h.file ho.2
  rw [h.eq]
  exact ⟨m, xs, ordo s' l' b, ha, hr, hl', hb, rfl⟩

variable {tr tr₀ : List (St × Event × Issue)} {s₀ : St} {k : Nat}

/-- The kernel refines the scheduler: a run is a sequence of rounds, each permitted by the event, that starts with process 0
alone; at each step `actif` is the element that runs, and the ready queue holds those that wait, in their order of arrival. -/
theorem kernel_refines_sched (hr : Parcours Sain tr s) :
    ∃ rs c, Run Round ⟨[], 0, boot.prio⟩ rs c ∧ Simule s c ∧ c.WF ∧ List.Forall₂ RepondOrdo tr rs := by
  suffices h : ∃ a p, Inv melange a s p ∧ ∃ rs c, Run Round ⟨[], 0, boot.prio⟩ rs c ∧ Simule s c ∧ List.Forall₂ RepondOrdo tr rs by
    obtain ⟨a, p, hi, rs, c, hrun, hs, hf⟩ := h
    exact ⟨rs, c, hrun, hs, hs.wf hi, hf⟩
  refine hr.inv_trace (fun tr s => ∃ a p, Inv melange a s p ∧
    ∃ rs c, Run Round ⟨[], 0, boot.prio⟩ rs c ∧ Simule s c ∧ List.Forall₂ RepondOrdo tr rs) ?_ ?_
  · have hi := inv_boot melange
    obtain ⟨q, e, d, hrep⟩ := hi.rep
    have hq : q = [] := by
      refine List.eq_nil_iff_forall_not_mem.2 fun x hx => ?_
      have hp := (hrep.ready x).1 hx
      by_cases h0 : x = 0 <;> simp [placesBoot, h0] at hp
    subst hq
    exact ⟨0, placesBoot, hi, [], _, .nil, ⟨⟨hrep.lists.ready, List.nodup_nil⟩, hi.actif, rfl⟩, .nil⟩
  · rintro tr s e r s' - ⟨a, p, hi, rs, c, hrun, hs, hf⟩ ⟨hsain, ho⟩
    obtain ⟨n, p', he⟩ := pas_spec hi hsain (separe_melange s e) ho
    obtain ⟨m, xs, c', hm, hround, hs'⟩ := hs.pas hi he.inv hsain ho
    exact ⟨n, p', he.inv, _, c', hrun.snoc hround, hs', List.rel_append hf (.cons ⟨hs, hm⟩ .nil)⟩

/-- Three processes of one priority, and a tick. -/
theorem kernel_refines_sched_run :
    ∃ tr s, Parcours Sain tr s ∧ s.actif = some 2 ∧
      ∃ rs c, Run Round ⟨[], 0, boot.prio⟩ rs c ∧ Simule s c ∧ c.WF ∧ List.Forall₂ RepondOrdo tr rs := by
  obtain ⟨tr, s, hr, hq⟩ := deroule_any (P := Sain) (Q := fun _ s => s.actif = some 2) boot
    [.appel (.start 512 1 "p"), .appel (.start 512 1 "q"), .tick, .tick] (by decide +kernel)
  exact ⟨tr, s, hr, hq, kernel_refines_sched hr⟩

/-! ## Waiting for its turn -/

/-- Process `i` is ready, with priority `k`. -/
structure Patiente (i : Slot) (k : Nat) (s : St) : Prop where
  prete : s.prete i = true
  prio : s.prio i = k

/-- A step during which `i` waits, and is not put behind the others. -/
structure PasPatient (i : Slot) (k : Nat) (s : St) (e : Event) (r : Issue) (s' : St) : Prop where
  sain : Sain s e
  pas : Pas s e r s'
  avant : Patiente i k s
  apres : Patiente i k s'
  laisse : ∀ newprio, e ≠ .appel (.chprio (s.pid i) newprio)

/-- The process that runs after the step, unless its priority is above that of `i`. -/
def auRang (i : Slot) (c : St × Event × Issue) : Option Slot :=
  match joue c.2.1 c.1 with
  | .error _ => none
  | .ok (_, s') => s'.actif.filter fun t => s'.prio t ≤ s'.prio i

/-- The process that takes over, unless its priority is above that of `i`. -/
def passe (i : Slot) (c : St × Event × Issue) : Option Slot := (auRang i c).filter fun t => c.1.actif ≠ some t

/-- Those that passed before `i`, in order. -/
def passages (i : Slot) (tr : List (St × Event × Issue)) : List Slot := tr.filterMap (passe i)

def Event.estTick : Event → Bool
  | .tick => true
  | _ => false

/-- The ticks that did not leave the processor to a process above `i`. -/
def ticsAuRang (i : Slot) (tr : List (St × Event × Issue)) : Nat := tr.countP fun c => c.2.1.estTick && (auRang i c).isSome

theorem auRang_eq {e : Event} {c' : Sched Slot Nat} (ho : Pas s e r s') (hs' : Simule s' c') :
    auRang i (s, e, r) = if c'.key c'.running ≤ c'.key i then some c'.running else none := by
  rw [auRang, ho.2]
  dsimp only
  rw [hs'.elu, hs'.prio, Option.filter_some]
  simp

theorem passe_eq {e : Event} {c c' : Sched Slot Nat} (ho : Pas s e r s') (hs : Simule s c) (hs' : Simule s' c') :
    (passe i (s, e, r)).toList = passing i c c' := by
  rw [passe, auRang_eq ho hs', passing, hs.elu]
  by_cases hk : c'.key c'.running ≤ c'.key i
  · by_cases hr : c'.running = c.running
    · simp [hr]
    · simp [hk, hr, Ne.symm hr]
  · simp [hk]

/-- One step, while `i` waits. -/
theorem PasPatient.passe {e : Event} {c : Sched Slot Nat} (h : PasPatient i k s e r s') (hi : Inv f a s p) (hi' : Inv f n s' p')
    (hs : Simule s c) : ∃ c', Simule s' c' ∧ Overtaken i c (Pcsea.passe i (s, e, r)).toList c' ∧
      (e = .tick → auRang i (s, e, r) = Pcsea.passe i (s, e, r)) := by
  obtain ⟨m, xs, c', ⟨htick, hmotif⟩, hround, hs'⟩ := hs.pas hi hi' h.sain h.pas
  have hic : i ∈ c.queue := hs.file.prete.1 h.avant.prete
  have hic' : i ∈ c'.queue := hs'.file.prete.1 h.apres.prete
  have hprio : c'.key i = c.key i := by
    rw [← hs'.prio, ← hs.prio, h.apres.prio, h.avant.prio]
  -- The process stays ready at its priority, so no change of the round is about it.
  have hm : ¬m.1.Moves i := by
    obtain ⟨ch, v⟩ := m
    intro hmv
    cases ch with
    | none => exact hmv
    | leave x =>
      obtain rfl : x = i := hmv
      exact hround.not_leave (hs.wf hi) hic hic'
    | requeue x k' =>
      obtain rfl : x = i := hmv
      rcases hmotif with ⟨newprio, he, -⟩ | ⟨-, hk⟩
      · exact h.laisse newprio he
      · rw [hround.key_eq, show (Shift.run (.requeue x k') c).key x = k' from Function.update_self .., ← hs.prio] at hprio
        exact hk hprio
    | rekey x k' => exact hmv
  refine ⟨c', hs', ?_, fun he => ?_⟩
  · rw [passe_eq h.pas hs hs']
    exact hround.overtaken (hs.wf hi) hic hic' hm
  · by_cases hk : c'.key c'.running ≤ c'.key i
    · have hp := hround.passing_of_voted (hs.wf hi) hic hm (htick he) hk
      rw [← passe_eq h.pas hs hs'] at hp
      rw [auRang_eq h.pas hs', if_pos hk, Option.toList_eq_singleton_iff.1 hp]
    · rw [Pcsea.passe, auRang_eq h.pas hs', if_neg hk, Option.filter_none]

/-- What `i` has seen of a run while it waited. -/
theorem patience (hi₀ : Inv melange a s₀ p) (hl : Arrivees s₀ l) (hr : Run (PasPatient i k) s₀ tr s) :
    ∃ b p' c, Inv melange b s p' ∧ Simule s c ∧ Overtaken i (ordo s₀ l a) (passages i tr) c ∧ ticsAuRang i tr ≤ (passages i tr).length := by
  refine hr.inv_trace (fun tr s => ∃ b p' c, Inv melange b s p' ∧ Simule s c ∧ Overtaken i (ordo s₀ l a) (passages i tr) c ∧
    ticsAuRang i tr ≤ (passages i tr).length) ?_ ?_
  · exact ⟨a, p, _, hi₀, hi₀.simule hl, .refl i _, le_rfl⟩
  · rintro tr s e r s' - ⟨b, p', c, hi, hs, ho, ht⟩ hst
    obtain ⟨n, p₂, he⟩ := pas_spec hi hst.sain (separe_melange s e) hst.pas
    obtain ⟨c', hs', ho', htick⟩ := hst.passe hi he.inv hs
    have hsnoc : passages i (tr ++ [(s, e, r)]) = passages i tr ++ (passe i (s, e, r)).toList := by
      rw [passages, List.filterMap_append]
      cases hp : passe i (s, e, r) <;> simp [passages, hp]
    refine ⟨n, p₂, c', he.inv, hs', hsnoc ▸ ho.trans ho', ?_⟩
    rw [hsnoc, List.length_append, ticsAuRang, List.countP_append]
    refine Nat.add_le_add ht ?_
    cases e with
    | tick => cases hp : passe i (s, .tick, r) <;> simp [htick rfl, hp, Event.estTick]
    | appel x => simp [Event.estTick]
    | suite => simp [Event.estTick]

/-- The processes of the ring behind `i` are those it has to wait for. -/
theorem ahead_ring {q₁ q₂ : List Slot} (h : Ready s.next s.prev (q₁ ++ i :: q₂)) : ahead i (q₁ ++ i :: q₂).reverse = q₂.reverse := by
  have hn : i ∉ q₂.reverse := by
    have hnd := h.distinct
    rw [List.mem_reverse]
    exact (List.nodup_cons.1 (List.nodup_append.1 hnd).2.1).1
  rw [List.reverse_append, List.reverse_cons, List.append_assoc, ahead_append_of_notMem hn, List.singleton_append, ahead_cons,
    if_pos rfl, List.append_nil]

theorem patience_ring {q₁ q₂ : List Slot} (h₀ : Parcours Sain tr₀ s₀) (hq : Ready s₀.next s₀.prev (q₁ ++ i :: q₂))
    (hr : Run (PasPatient i k) s₀ tr s) :
    (passages i tr).Nodup ∧ passages i tr ⊆ q₂ ∧ ticsAuRang i tr ≤ (passages i tr).length := by
  obtain ⟨a, p, hi, -⟩ := sain_spec (fun _ _ h => h) h₀
  obtain ⟨q, e, d, hrep⟩ := hi.rep
  obtain rfl := hq.unique hrep.lists.ready
  have hl : Arrivees s₀ (q₁ ++ i :: q₂).reverse := ⟨(byKey_reverse hrep.sorted).symm ▸ hq, List.nodup_reverse.2 hq.distinct⟩
  obtain ⟨b, p', c, -, -, ho, ht⟩ := patience hi hl hr
  refine ⟨ho.nodup, fun t ht => ?_, ht⟩
  have hm := (ho.passed t ht).1
  rw [ordo, ahead_ring hq] at hm
  exact List.mem_reverse.1 hm

/-- A ready process `i` waits for those behind it in the ring only. From any state reached, and as long as `i` stays ready with
the same priority, whatever the other processes do: a process that passes before it without a higher priority was one of them,
and passes once. -/
theorem passed_once {q₁ q₂ : List Slot} (h₀ : Parcours Sain tr₀ s₀) (hq : Ready s₀.next s₀.prev (q₁ ++ i :: q₂))
    (hr : Run (PasPatient i k) s₀ tr s) : (passages i tr).Nodup ∧ passages i tr ⊆ q₂ := by
  obtain ⟨hn, hs, -⟩ := patience_ring h₀ hq hr
  exact ⟨hn, hs⟩

/-- Process 2 waits behind process 1, which has the next tick. -/
theorem attente_deux : ∃ tr₀ s₀ q₁ q₂ tr s, Parcours Sain tr₀ s₀ ∧ Ready s₀.next s₀.prev (q₁ ++ 2 :: q₂) ∧
    Run (PasPatient 2 1) s₀ tr s ∧ passages 2 tr = [1] ∧ ticsAuRang 2 tr = 1 := by
  obtain ⟨tr₀, s₀, h₀, hp, hk, ht⟩ := deroule_any (P := Sain) (Q := fun _ s => s.prete 2 = true ∧ s.prio 2 = 1 ∧
      (tente s .tick).any (fun c => c.2.prete 2 ∧ c.2.prio 2 = 1 ∧ passages 2 [(s, .tick, c.1)] = [1] ∧
        ticsAuRang 2 [(s, .tick, c.1)] = 1) = true) boot
    [.appel (.start 512 1 "p"), .appel (.start 512 1 "q")] (by decide +kernel)
  obtain ⟨⟨r, s⟩, htente, hc⟩ := (Option.any_eq_true ..).1 ht
  obtain ⟨hp', hk', hpass, htics⟩ := of_decide_eq_true hc
  obtain ⟨a, p, hi, -⟩ := sain_spec (fun _ _ h => h) h₀
  obtain ⟨q, e, d, hrep⟩ := hi.rep
  obtain ⟨q₁, q₂, rfl⟩ := List.append_of_mem ((hrep.ready 2).2 (hrep.prete.1 hp))
  have hpas : PasPatient 2 1 s₀ .tick r s := ⟨trivial, tente_eq_some.1 htente, ⟨hp, hk⟩, ⟨hp', hk'⟩, nofun⟩
  exact ⟨tr₀, s₀, q₁, q₂, _, s, h₀, hrep.lists.ready, .snoc .nil hpas, hpass, htics⟩

theorem passed_once_two : ∃ tr₀ s₀ q₁ q₂ tr s, (Parcours Sain tr₀ s₀ ∧ Ready s₀.next s₀.prev (q₁ ++ 2 :: q₂) ∧
    Run (PasPatient 2 1) s₀ tr s ∧ passages 2 tr = [1]) ∧ (passages 2 tr).Nodup ∧ passages 2 tr ⊆ q₂ := by
  obtain ⟨tr₀, s₀, q₁, q₂, tr, s, h₀, hq, hr, hp, -⟩ := attente_deux
  exact ⟨tr₀, s₀, q₁, q₂, tr, s, ⟨h₀, hq, hr, hp⟩, passed_once h₀ hq hr⟩

/-- A ready process waits at most as many ticks as there are processes behind it in the ring, not counting the ticks that leave the
processor to a process of a higher priority. -/
theorem wait_bounded {q₁ q₂ : List Slot} (h₀ : Parcours Sain tr₀ s₀) (hq : Ready s₀.next s₀.prev (q₁ ++ i :: q₂))
    (hr : Run (PasPatient i k) s₀ tr s) : ticsAuRang i tr ≤ q₂.length := by
  obtain ⟨hn, hs, ht⟩ := patience_ring h₀ hq hr
  exact ht.trans (List.subperm_of_subset hn hs).length_le

theorem wait_bounded_two : ∃ tr₀ s₀ q₁ q₂ tr s, (Parcours Sain tr₀ s₀ ∧ Ready s₀.next s₀.prev (q₁ ++ 2 :: q₂) ∧
    Run (PasPatient 2 1) s₀ tr s ∧ ticsAuRang 2 tr = 1) ∧ ticsAuRang 2 tr ≤ q₂.length := by
  obtain ⟨tr₀, s₀, q₁, q₂, tr, s, h₀, hq, hr, -, ht⟩ := attente_deux
  exact ⟨tr₀, s₀, q₁, q₂, tr, s, ⟨h₀, hq, hr, ht⟩, wait_bounded h₀ hq hr⟩

end Pcsea
