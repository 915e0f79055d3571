import Pcsea.TerminationSpec
/-!
# What the other calls of `proc.c` do

`chprio` moves a ready process inside the ring; `start` takes a slot that no
list holds; `waitpid` reclaims a zombie.
-/

namespace Pcsea

open Lib

universe u
variable {K : Type u} {f : Fin NBQUEUE → Bool → K} {s s' : St} {p p' : Slot → Place} {a i x : Slot}
  {q e d l : List Slot} {cur : Maillon}

/-! ## `chprio` -/

theorem chprioActivables_none {pid : Int} (newprio oldprio : Int) {n : Nat} (h : Path s.next s.prev cur (l.map .elem ++ [.head]))
    (hl : ∀ i ∈ l, s.pid i ≠ pid) (hn : l.length < n) :
    chprioActivables pid newprio n cur oldprio s = .ok (oldprio, s) := by
  induction l generalizing cur n with
  | nil =>
    cases n with
    | zero => simp at hn
    | succ n => simp [chprioActivables, h.1]
  | cons y l ih =>
    cases n with
    | zero => simp at hn
    | succ n =>
      obtain ⟨hy, -, h⟩ := h
      have hne := hl y (by simp)
      simpa [chprioActivables, hy, hne] using ih h (fun i hi => hl i (by simp [hi])) (by simpa using hn)

/-- The traversal up to the process looked for, which is moved. -/
theorem chprioActivables_some {pid newprio oldprio : Int} {l₁ l₂ : List Slot} {n : Nat}
    (h : Path s.next s.prev cur ((l₁ ++ x :: l₂).map .elem ++ [.head]))
    (hx : s.pid x = pid) (hl : ∀ i ∈ l₁, s.pid i ≠ pid) :
    chprioActivables pid newprio (l₁.length + (n + 1)) cur oldprio s = (do
      let s ← queueDel x s
      let oldprio := toInt32 (s.prio x)
      let s ← queueAdd x (s.setPrio x (toUint32 newprio))
      chprioActivables pid newprio n (.elem x) oldprio s) := by
  induction l₁ generalizing cur with
  | nil =>
    obtain ⟨hy, -⟩ := h
    simp [chprioActivables, hy, hx]
  | cons y l₁ ih =>
    obtain ⟨hy, -, h⟩ := h
    have hne := hl y (by simp)
    rw [← ih h (fun i hi => hl i (by simp [hi])), List.length_cons, Nat.add_right_comm, chprioActivables]
    simp [hy, hne]

/-- What a search for `pid` among the processes `l` finds and changes: the value `r` for the old priority, and the
priorities it leaves. -/
def Change (s : St) (l : List Slot) (pid newprio oldprio r : Int) (prio : Slot → Nat) : Prop :=
  (∃ x ∈ l, s.pid x = pid ∧ r = toInt32 (s.prio x) ∧ prio = Function.update s.prio x (toUint32 newprio)) ∨
    ((∀ x ∈ l, s.pid x ≠ pid) ∧ r = oldprio ∧ prio = s.prio)

theorem Change.of_notMem {pid newprio oldprio r : Int} {prio : Slot → Nat} (h : Change s l pid newprio oldprio r prio)
    (hi : i ∉ l) : prio i = s.prio i := by
  rcases h with ⟨x, hx, -, -, rfl⟩ | ⟨-, -, rfl⟩
  · exact Function.update_of_ne (by rintro rfl; exact hi hx) _ _
  · rfl

/-- What `chprio` does to a process of the ring: it goes to the place its new priority gives it, with others `m` behind. -/
theorem deplace_spec {q₁ q₂ : List Slot} (h : Ready s.next s.prev (q₁ ++ x :: q₂)) (v : Nat) :
    ∃ next prev next' prev', ∃ m : List Slot, queueDel x s = .ok { s with next, prev } ∧
      queueAdd x (St.setPrio { s with next, prev } x v) =
        .ok { s with next := next', prev := prev', prio := Function.update s.prio x v } ∧
      Ready next' prev' (parPrio (s.setPrio x v) x (q₁ ++ q₂)) ∧ Path next' prev' (.elem x) (m.map .elem ++ [.head]) ∧
      (∀ i ∈ m, i ∈ q₁ ++ q₂) ∧ m.length ≤ (q₁ ++ q₂).length := by
  have hx : x ∉ q₁ ++ q₂ := (List.nodup_cons.1 (List.nodup_middle.1 h.distinct)).1
  obtain ⟨next, prev, ho, hr⟩ := queueDel_spec h
  obtain ⟨next', prev', ho', hr'⟩ := queueAdd_spec (s := St.setPrio { s with next, prev } x v) hr hx
  have hxp : x ∈ parPrio (s.setPrio x v) x (q₁ ++ q₂) := mem_parPrio.2 (.inl rfl)
  obtain ⟨m₁, m₂, hm⟩ := List.append_of_mem hxp
  have hperm : (m₁ ++ x :: m₂).Perm (x :: (q₁ ++ q₂)) := hm ▸ parPrio_perm
  have hmid : (m₁ ++ m₂).Perm (q₁ ++ q₂) := (List.perm_middle.symm.trans hperm).cons_inv
  refine ⟨next, prev, next', prev', m₂, ho, ho', hr', ?_, fun i hi => hmid.mem_iff.1 (by simp [hi]), ?_⟩
  · have hpath := hr'.path
    rw [show parPrio (St.setPrio { s with next, prev } x v) x (q₁ ++ q₂) = m₁ ++ x :: m₂ from hm, List.map_append, List.map_cons,
      List.append_assoc, path_append] at hpath
    exact hpath.2.2.2
  · rw [← hmid.length_eq, List.length_append]
    omega

/-- A process of the ring is moved once. -/
theorem chprioActivables_deplace {q₁ q₂ : List Slot} (h : Ready s.next s.prev (q₁ ++ x :: q₂)) (hne : ∀ i ∈ q₁ ++ q₂, s.pid i ≠ s.pid x)
    (newprio oldprio : Int) :
    ∃ next prev, chprioActivables (s.pid x) newprio (2 * PROCESS_TABLE_SIZE + 1) .head oldprio s = .ok (toInt32 (s.prio x),
        { s with next, prev, prio := Function.update s.prio x (toUint32 newprio) }) ∧
      Ready next prev (parPrio (s.setPrio x (toUint32 newprio)) x (q₁ ++ q₂)) := by
  have hlen := slots_length h.distinct
  simp only [List.length_append, List.length_cons] at hlen
  obtain ⟨next, prev, next', prev', m, ho, ho', hr, hpath, hm, hml⟩ := deplace_spec h (toUint32 newprio)
  rw [List.length_append] at hml
  have hrest := chprioActivables_none newprio (toInt32 (s.prio x))
    (s := { s with next := next', prev := prev', prio := Function.update s.prio x (toUint32 newprio) })
    (n := 2 * PROCESS_TABLE_SIZE - q₁.length) hpath (fun i hi => hne i (hm i hi)) (by omega)
  refine ⟨next', prev', ?_, hr⟩
  have hfuel : 2 * PROCESS_TABLE_SIZE + 1 = q₁.length + ((2 * PROCESS_TABLE_SIZE - q₁.length) + 1) := by omega
  rw [hfuel, chprioActivables_some h.path rfl fun i hi => hne i (by simp [hi])]
  rw [ho, ok_bind, ho', ok_bind]
  exact hrest

/-- The others are still sorted when the priority of `x` changes. -/
theorem reclasse_sorted {q₁ q₂ : List Slot} {v : Nat} (hs : (q₁ ++ x :: q₂).Pairwise fun i j => s.prio i ≤ s.prio j) (hx : x ∉ q₁ ++ q₂) :
    (q₁ ++ q₂).Pairwise fun i j => Function.update s.prio x v i ≤ Function.update s.prio x v j := by
  refine (hs.sublist ((List.sublist_cons_self x q₂).append_left q₁)).imp_of_mem ?_
  intro i j hi hj hij
  rwa [Function.update_of_ne (ne_of_mem_of_not_mem hi hx), Function.update_of_ne (ne_of_mem_of_not_mem hj hx)]

theorem chprioActivables_spec (h : Ready s.next s.prev q) (hp : ∀ i ∈ q, ∀ j ∈ q, s.pid i = s.pid j → i = j)
    (hs : q.Pairwise fun i j => s.prio i ≤ s.prio j) (pid newprio oldprio : Int) :
    ∃ r next prev prio q', chprioActivables pid newprio (2 * PROCESS_TABLE_SIZE + 1) .head oldprio s =
        .ok (r, { s with next, prev, prio }) ∧
      Ready next prev q' ∧ q'.Perm q ∧ (q'.Pairwise fun i j => prio i ≤ prio j) ∧ Change s q pid newprio oldprio r prio := by
  by_cases hex : ∃ x ∈ q, s.pid x = pid
  · obtain ⟨x, hxq, rfl⟩ := hex
    obtain ⟨q₁, q₂, rfl⟩ := List.append_of_mem hxq
    have hx : x ∉ q₁ ++ q₂ := (List.nodup_cons.1 (List.nodup_middle.1 h.distinct)).1
    have hne : ∀ i ∈ q₁ ++ q₂, s.pid i ≠ s.pid x := by
      intro i hi he
      have := hp i (by simp only [List.mem_append, List.mem_cons] at hi ⊢; tauto) x (by simp) he
      exact hx (this ▸ hi)
    obtain ⟨next, prev, ho, hr⟩ := chprioActivables_deplace h hne newprio oldprio
    refine ⟨toInt32 (s.prio x), next, prev, _, _, ho, hr, parPrio_perm.trans List.perm_middle.symm, ?_,
      .inl ⟨x, hxq, rfl, rfl, rfl⟩⟩
    exact parPrio_sorted (s := s.setPrio x (toUint32 newprio)) (reclasse_sorted hs hx)
  · push Not at hex
    have hlen := slots_length h.distinct
    have ho := chprioActivables_none newprio oldprio (n := 2 * PROCESS_TABLE_SIZE + 1) h.path hex (by omega)
    exact ⟨oldprio, s.next, s.prev, s.prio, q, ho, h, .refl q, hs, .inr ⟨hex, rfl, rfl⟩⟩

theorem chprioEndormis_none {pid : Int} (newprio oldprio : Int) {n : Nat} {ptr : Option Slot} (h : Seg s.suiv ptr l none)
    (hl : ∀ i ∈ l, s.pid i ≠ pid) (hn : l.length ≤ n) : chprioEndormis pid newprio n ptr oldprio s = .ok (oldprio, s) := by
  induction l generalizing ptr n with
  | nil =>
    obtain rfl : ptr = none := h
    cases n <;> rfl
  | cons y l ih =>
    cases n with
    | zero => simp at hn
    | succ n =>
      obtain ⟨rfl, h⟩ := h
      rw [chprioEndormis, if_neg (hl y (by simp))]
      exact ih h (fun i hi => hl i (by simp [hi])) (by simpa using hn)

theorem chprioEndormis_spec (pid newprio oldprio : Int) {n : Nat} {ptr : Option Slot} (h : Seg s.suiv ptr l none)
    (hp : ∀ i ∈ l, ∀ j ∈ l, s.pid i = s.pid j → i = j) (hn : l.length ≤ n) :
    ∃ r prio, chprioEndormis pid newprio n ptr oldprio s = .ok (r, { s with prio }) ∧
      Change s l pid newprio oldprio r prio := by
  induction l generalizing ptr n with
  | nil =>
    obtain rfl : ptr = none := h
    exact ⟨oldprio, s.prio, by simp [chprioEndormis], .inr ⟨by simp, rfl, rfl⟩⟩
  | cons y l ih =>
    have hy := (List.nodup_cons.1 h.nodup).1
    cases n with
    | zero => simp at hn
    | succ n =>
      obtain ⟨rfl, h⟩ := h
      by_cases hyp : s.pid y = pid
      · refine ⟨toInt32 (s.prio y), Function.update s.prio y (toUint32 newprio), ?_, .inl ⟨y, by simp, hyp, rfl, rfl⟩⟩
        rw [chprioEndormis, if_pos hyp]
        refine (chprioEndormis_none newprio _ (s := s.setPrio y (toUint32 newprio)) h (fun i hi he => ?_) (by simpa using hn)).trans rfl
        exact hy (hp y (by simp) i (by simp [hi]) (hyp.trans he.symm) ▸ hi)
      · obtain ⟨r, prio, ho, hc⟩ := ih h (fun i hi j hj => hp i (by simp [hi]) j (by simp [hj])) (by simpa using hn)
        refine ⟨r, prio, by rw [chprioEndormis, if_neg hyp, ho], ?_⟩
        rcases hc with ⟨x, hx, hc⟩ | ⟨hno, hc⟩
        · exact .inl ⟨x, by simp [hx], hc⟩
        · exact .inr ⟨by simpa [hyp] using hno, hc⟩

/-- Priorities out of the ring do not matter. -/
theorem Rep.setPrio (h : Rep s p q e d) (prio : Slot → Nat) (hp : ∀ i ∈ q, prio i = s.prio i) :
    Rep { s with prio } p q e d := by
  refine ⟨h.lists.congr rfl rfl rfl rfl rfl rfl rfl, ?_, h.ready, h.sleep, h.dead, h.state, h.named⟩
  refine h.sorted.imp_of_mem fun {i j} hi hj hij => ?_
  show prio i ≤ prio j
  rwa [hp i hi, hp j hj]

/-- Process `x` is found by `getprio` and `chprio`. -/
def Trouvable (p : Slot → Place) (x : Slot) : Prop := p x = .elu ∨ p x = .pret ∨ p x = .endormi

theorem Trouvable.ne_libre (h : Trouvable p x) : p x ≠ .libre := by
  rcases h with h | h | h <;> simp [h]

/-- `Change`, over all the processes that can be found. -/
def ChangePrio (s : St) (p : Slot → Place) (pid newprio r : Int) (prio : Slot → Nat) : Prop :=
  (∃ x, Trouvable p x ∧ s.pid x = pid ∧ r = toInt32 (s.prio x) ∧ prio = Function.update s.prio x (toUint32 newprio)) ∨
    ((∀ x, Trouvable p x → s.pid x ≠ pid) ∧ r = -1 ∧ prio = s.prio)

/-- `chprio` before `ordonnance()` moves no process to another place. -/
theorem chprioTable_spec (pid newprio : Int) (h : Inv f a s p) :
    ∃ r s', chprioTable pid newprio s = .ok (r, s') ∧ Inv f a s' p ∧ Cadre s s' ∧ ChangePrio s p pid newprio r s'.prio := by
  obtain ⟨q, e, d, hrep⟩ := h.rep
  have hinv : ∀ s' : St, (∃ q e d, Rep s' p q e d) → s'.messages = s.messages → s'.contexte = s.contexte → s'.pere = s.pere →
      s'.actif = s.actif → s'.charge = s.charge → Inv f a s' p := by
    intro s' hr hm hc hf ha hch
    exact ⟨⟨h.move hm hc (fun h0 => hf ▸ h0) hr (fun _ hi => hi) (fun _ hi => hi) h.idle.2, ha ▸ h.actif, hch ▸ h.charge,
      h.seul, h.place⟩, h.elu⟩
  by_cases ha : s.pid a = pid
  · have haq : a ∉ q := mt (hrep.ready a).1 (by simp [h.elu])
    have hr : Rep (s.setPrio a (toUint32 newprio)) p q e d :=
      hrep.setPrio _ fun i hi => Function.update_of_ne (ne_of_mem_of_not_mem hi haq) _ _
    exact ⟨toInt32 (s.prio a), _, by simp [chprioTable, h.actif, ha], hinv _ ⟨q, e, d, hr⟩ rfl rfl rfl rfl rfl, .of_eq rfl,
      .inl ⟨a, .inl h.elu, ha, rfl, rfl⟩⟩
  · have hpq : ∀ i ∈ q, p i = .pret := fun i => (hrep.ready i).1
    have hpe : ∀ i ∈ e, p i = .endormi := fun i => (hrep.sleep i).1
    obtain ⟨r, next, prev, prio, q', ho, hr, hperm, hsort, hc⟩ := chprioActivables_spec hrep.lists.ready
      (fun i hi j hj => hrep.pid_inj (by simp [hpq i hi]) (by simp [hpq j hj])) hrep.sorted pid newprio (-1)
    have hrep₁ : Rep { s with next, prev, prio } p q' e d := by
      refine ⟨⟨hr, hrep.lists.sleep, hrep.lists.dead, ?_⟩, hsort, fun i => ?_, hrep.sleep, hrep.dead, hrep.state, hrep.named⟩
      · exact (List.Perm.nodup_iff (hperm.append_right _)).2 hrep.lists.distinct
      · rw [hperm.mem_iff]
        exact hrep.ready i
    have hlen := slots_length hrep.lists.sleep.nodup
    obtain ⟨r', prio', ho', hc'⟩ := chprioEndormis_spec pid newprio r (s := { s with next, prev, prio })
      (n := PROCESS_TABLE_SIZE + 1) hrep.lists.sleep.seg
      (fun i hi j hj => hrep.pid_inj (by simp [hpe i hi]) (by simp [hpe j hj])) (by omega)
    have hrep₂ := hrep₁.setPrio prio' fun i hi =>
      hc'.of_notMem (hrep.lists.ready_apart (hperm.mem_iff.1 hi)).1
    refine ⟨r', _, ?_, hinv _ ⟨q', e, d, hrep₂⟩ rfl rfl rfl rfl rfl, .of_eq rfl, ?_⟩
    · rw [chprioTable, h.deref, ok_bind, if_neg ha, ho, ok_bind]
      exact ho'
    · -- a pid found in the ring is not found again in the sleep list
      rcases hc with ⟨x, hx, hxp, rfl, rfl⟩ | ⟨hno, rfl, rfl⟩
      · rcases hc' with ⟨y, hy, hyp, -⟩ | ⟨-, rfl, rfl⟩
        · have hxy := hrep.pid_inj (by simp [hpq x hx]) (by simp [hpe y hy]) (hxp.trans hyp.symm)
          exact absurd (hxy ▸ hx) (hrep.lists.sleep_apart hy).1
        · exact .inl ⟨x, .inr (.inl (hpq x hx)), hxp, rfl, rfl⟩
      · rcases hc' with ⟨y, hy, hyp, rfl, rfl⟩ | ⟨hno', rfl, rfl⟩
        · exact .inl ⟨y, .inr (.inr (hpe y hy)), hyp, rfl, rfl⟩
        · refine .inr ⟨?_, rfl, rfl⟩
          rintro x (hx | hx | hx)
          · rwa [h.seul x hx]
          · exact hno x ((hrep.ready x).2 hx)
          · exact hno' x ((hrep.sleep x).2 hx)

/-- `chprio` goes past its tests. -/
def Valable (pid newprio : Int) : Prop := ¬(pid < 0 ∨ PROCESS_TABLE_SIZE - 1 < pid ∨ newprio < 1 ∨ MAX_PRIO < newprio)

theorem chprio_spec (pid newprio : Int) (h : Inv f a s p) :
    Ensures (fun _ => False) (chprio pid newprio s) fun r =>
      ∃ n p', Inv f n r.2 p' ∧ Cadre s r.2 ∧
        ∀ i, p' i = p i ∨
          ((p i = .elu ∨ p i = .pret ∨ p i = .endormi ∧ s.timeToWake i ≤ s.nbTick ∧ Valable pid newprio) ∧
            (p' i = .elu ∨ p' i = .pret)) := by
  unfold chprio
  split
  · exact ⟨a, p, h, .refl s, fun i => .inl rfl⟩
  · next hv =>
    obtain ⟨r, s₁, ho, hi, hcd, -⟩ := chprioTable_spec pid newprio h
    rw [ho, ok_bind]
    refine Ensures.bind (ordonnance_elu hi) ?_
    rintro s' ⟨n, p', hi', hcd', hord⟩
    refine ⟨n, p', hi', hcd.trans hcd', fun i => (hord i).imp_right fun ⟨hp, hp'⟩ => ⟨?_, hp'⟩⟩
    refine hp.imp_right (Or.imp_right fun ⟨hpe, he⟩ => ⟨hpe, ?_, hv⟩)
    rw [← hcd.timeToWake, ← hcd.nbTick]
    exact he.2

/-! ## `start` -/

/-- The slot `start` takes is not in use: it comes from the dead list, or slot `process_alive` was
never started or is a zombie's. -/
def SlotLibre (s : St) : Prop :=
  s.deadList = none → ∀ i, caseDe (toInt32 s.processAlive) = .ok i → s.pid i ≠ i.val ∨ s.state i = .zombie

/-- `Rep` for every slot but `x`, which is in no list. -/
structure Hors (s : St) (p : Slot → Place) (q e d : List Slot) (x : Slot) : Prop where
  lists : Lists s q e d
  sorted : q.Pairwise fun i j => s.prio i ≤ s.prio j
  out : x ∉ q ∧ x ∉ e ∧ x ∉ d
  ready : ∀ i, i ≠ x → (i ∈ q ↔ p i = .pret)
  sleep : ∀ i, i ≠ x → (i ∈ e ↔ p i = .endormi)
  dead : ∀ i, i ≠ x → (i ∈ d ↔ p i = .mort)
  state : ∀ i, i ≠ x → (p i).admet (s.state i)
  named : ∀ i, i ≠ x → s.pid i = if p i = .libre then 0 else (i.val : Int)

theorem Rep.hors (h : Rep s p q e d) (h₁ : p x ≠ .pret) (h₂ : p x ≠ .endormi) (h₃ : p x ≠ .mort) : Hors s p q e d x :=
  ⟨h.lists, h.sorted, h.notMem h₁ h₂ h₃, fun i _ => h.ready i, fun i _ => h.sleep i, fun i _ => h.dead i,
    fun i _ => h.state i, fun i _ => h.named i⟩

/-- The fields of the new process, then its insertion in the ready queue. -/
theorem Hors.initSlot (h : Hors s p q e d x) (name : String) (prio : Int) :
    Hors (initSlot x name prio s) p q e d x := by
  refine ⟨⟨h.lists.ready, h.lists.sleep.update h.out.2.1, h.lists.dead.update h.out.2.2, h.lists.distinct⟩, ?_, h.out,
    h.ready, h.sleep, h.dead, h.state, fun i hi => ?_⟩
  · refine h.sorted.imp_of_mem fun {i j} hi hj hij => ?_
    show Function.update s.prio x _ i ≤ Function.update s.prio x _ j
    rwa [Function.update_of_ne (ne_of_mem_of_not_mem hi h.out.1), Function.update_of_ne (ne_of_mem_of_not_mem hj h.out.1)]
  · show Function.update s.pid x _ i = _
    rw [Function.update_of_ne hi]
    exact h.named i hi

theorem Hors.insertActivable (h : Hors s p q e d x) (hx : s.pid x = (x.val : Int)) :
    ∃ next prev,
      insertActivable x s = .ok { s with
        state := Function.update s.state x .activable, suiv := Function.update s.suiv x none, next, prev } ∧
      Rep { s with
        state := Function.update s.state x .activable, suiv := Function.update s.suiv x none, next, prev }
        (Function.update p x .pret) (parPrio s x q) e d := by
  obtain ⟨hq, he, hd⟩ := h.out
  obtain ⟨next, prev, ho, hl⟩ := insertActivable_spec h.lists hq he hd
  refine ⟨next, prev, ho, hl, parPrio_sorted h.sorted, ?_, ?_, ?_, ?_, ?_⟩
  all_goals
    intro i
    by_cases hi : i = x
    · subst hi
      simp [hx, hq, he, hd, Place.admet]
  · simp [hi, h.ready i hi]
  · simp [hi, h.sleep i hi]
  · simp [hi, h.dead i hi]
  · simpa [hi] using h.state i hi
  · simpa [hi] using h.named i hi

/-- Where the slot comes from. -/
def Disponible (s : St) (p : Slot → Place) (x : Slot) : Prop :=
  (p x = .mort ∧ s.deadList = some x) ∨
    ((p x = .libre ∨ p x = .zombie) ∧ s.deadList = none ∧ caseDe (toInt32 s.processAlive) = .ok x)

theorem Disponible.place (h : Disponible s p x) : p x = .libre ∨ p x = .zombie ∨ p x = .mort := by
  rcases h with ⟨h, -⟩ | ⟨h | h, -⟩ <;> simp [h]

theorem prendSlot_spec (h : Rep s p q e d) (hs : SlotLibre s) :
    Ensures (· = .outOfBounds) (prendSlot s) fun r =>
      ∃ deadList deadTail d', r.2 = { s with deadList, deadTail } ∧ Hors r.2 p q e d' r.1 ∧
        Disponible s p r.1 := by
  cases d with
  | nil =>
    have hl := h.lists.dead.head_none.2 rfl
    rw [prendSlot, extractMort_nil h.lists]
    cases hc : caseDe (toInt32 s.processAlive) with
    | error x =>
      simp only [hc, error_bind, ensures_error]
      exact caseDe_error hc
    | ok i =>
      have hp : p i = .libre ∨ p i = .zombie := by
        rcases hs hl i hc with h₁ | h₁
        · refine .inl ?_
          by_contra hne
          exact h₁ (h.pid hne)
        · exact .inr (h.state_eq_zombie.1 h₁)
      simp only [hc, ok_bind, ensures_ok]
      refine ⟨s.deadList, s.deadTail, [], rfl, ?_, .inr ⟨hp, hl, hc⟩⟩
      rcases hp with hp | hp <;> exact h.hors (by simp [hp]) (by simp [hp]) (by simp [hp])
  | cons x d =>
    obtain ⟨dl, dt, ho, hl⟩ := extractMort_spec h.lists
    have hx : p x = .mort := (h.dead x).1 (by simp)
    have hout := h.lists.dead_apart (x := x) (by simp)
    have hxd : x ∉ d := (List.nodup_cons.1 h.lists.dead.nodup).1
    have hc : caseDe (s.pid x) = .ok x := h.caseDe_pid (by simp [hx])
    rw [prendSlot, ho]
    simp only [hc, ok_bind, ensures_ok]
    refine ⟨dl, dt, d, rfl, ⟨hl, h.sorted, ⟨hout.1, hout.2, hxd⟩, fun i _ => h.ready i, fun i _ => h.sleep i, fun i hi => ?_,
      fun i _ => h.state i, fun i _ => h.named i⟩, .inl ⟨hx, h.lists.dead.head_eq⟩⟩
    rw [← h.dead i]
    simp [hi]

/-- The family links after `actif`, `a`, created `x`. -/
structure Naissance (s s' : St) (a x : Slot) : Prop where
  pere : s'.pere = Function.update s.pere x (some a)
  premierFils : s'.premierFils =
    if s.premierFils a = none then Function.update (Function.update s.premierFils x none) a (some x)
    else Function.update s.premierFils x none
  dernierFils : s'.dernierFils = Function.update (Function.update s.dernierFils x none) a (some x)
  frereDroit : ∀ i, s'.frereDroit i =
    if s.premierFils a ≠ none ∧ s.dernierFils a = some i then some x else if i = x then none else s.frereDroit i

theorem ajouteFils_spec (ha : s.actif = some a) :
    Ensures (· = .nullDeref) (ajouteFils x s) fun s' =>
      ∃ premierFils dernierFils frereDroit, s' = { s with premierFils, dernierFils, frereDroit } ∧
        premierFils = (if s.premierFils a = none then Function.update s.premierFils a (some x) else s.premierFils) ∧
        dernierFils = Function.update s.dernierFils a (some x) ∧
        ∀ i, frereDroit i =
          if s.premierFils a ≠ none ∧ s.dernierFils a = some i then some x else s.frereDroit i := by
  unfold ajouteFils
  split
  · next hn => rw [ha] at hn; cases hn
  next b hb =>
  obtain rfl : a = b := Option.some.inj (ha.symm.trans hb)
  by_cases hp : s.premierFils a = none
  · rw [if_pos hp, ensures_ok]
    exact ⟨_, _, _, rfl, by rw [if_pos hp], rfl, fun i => by simp [hp]⟩
  · rw [if_neg hp]
    cases hd : s.dernierFils a with
    | none => rfl
    | some d =>
      rw [deref_some, ok_bind, ensures_ok]
      refine ⟨_, _, _, rfl, by rw [if_neg hp]; rfl, by simp [St.setFrereDroit], fun i => ?_⟩
      by_cases hi : i = d
      · simp [St.setFrereDroit, hi, hp]
      · simp [St.setFrereDroit, hi, hp, Ne.symm hi]

theorem Disponible.apart (hx : Disponible s p x) (h : Inv f a s p) : x ≠ a ∧ x ≠ 0 ∧ p x ≠ .bloque := by
  have hp := hx.place
  refine ⟨?_, ?_, ?_⟩
  · rintro rfl
    simp [h.elu] at hp
  · rintro rfl
    have hidle := h.idle.2
    simp [hidle] at hp
  · intro hb
    simp [hb] at hp

/-- The table with a new process `x` in the ready queue. -/
theorem Inv.peuple (h : Inv f a s p) (hx : Disponible s p x) (hr : ∃ q e d, Rep s' (Function.update p x .pret) q e d)
    (hcx : s'.contexte x = some ⟨x, .code⟩) (hci : ∀ i, i ≠ x → s'.contexte i = s.contexte i) (hm : s'.messages = s.messages)
    (hpere : ∀ i, i ≠ x → s'.pere i = s.pere i) (ha : s'.actif = s.actif) (hch : s'.charge = s.charge) :
    Inv f a s' (Function.update p x .pret) := by
  obtain ⟨hxa, hx0, hxb⟩ := hx.apart h
  obtain ⟨lab, hlab⟩ := h.rings
  have hpa : Function.update p x .pret a = p a := Function.update_of_ne hxa.symm ..
  have hbloque : ∀ i, p i = .bloque → i ≠ x := by
    rintro i hi rfl
    exact hxb hi
  refine ⟨⟨⟨hr, fun i hi => ?_, ⟨(hpere 0 hx0.symm).trans h.idle.1, ?_⟩, lab, ?_⟩, ha ▸ h.actif, hch ▸ h.charge, fun i hi => ?_, ?_⟩, ?_⟩
  · by_cases hix : i = x
    · rw [hix]
      exact ⟨_, hcx, rfl⟩
    · rw [Function.update_of_ne hix] at hi
      obtain ⟨c, hc, hcode⟩ := h.code i hi
      exact ⟨c, (hci i hix).trans hc, hcode⟩
  · rw [Function.update_of_ne hx0.symm]
    exact h.idle.2
  · refine hlab.congr hm (fun i hi => ?_) fun i hi => hci i (hbloque i hi)
    rwa [Function.update_of_ne (hbloque i hi)]
  · by_cases hix : i = x
    · simp [hix] at hi
    · exact h.seul i (by rwa [Function.update_of_ne hix] at hi)
  · rw [hpa]
    exact h.place
  · rw [hpa]
    exact h.elu

theorem start_spec (ssize : Nat) (prio : Int) (name : String) (h : Inv f a s p) (hs : SlotLibre s) :
    Ensures (Echec False) (start ssize prio name s) fun r =>
      r = (.rend (-1), s) ∨
      ∃ x, r.1 = .cree x ∧ Inv f a r.2 (Function.update p x .pret) ∧ Naissance s r.2 a x ∧
        Disponible s p x ∧ r.2.retval = Function.update s.retval x none ∧ r.2.retvalFils = s.retvalFils ∧ r.2.timeToWake = s.timeToWake ∧
        r.2.nbTick = s.nbTick ∧ r.2.messages = s.messages ∧ r.2.processAlive = succUint32 s.processAlive ∧
        r.2.contexte x = some ⟨x, .code⟩ ∧
        ∀ i, i ≠ x → r.2.contexte i = s.contexte i := by
  obtain ⟨q, e, d, hrep⟩ := h.rep
  unfold start
  split
  · exact .inl rfl
  split
  · exact .inl rfl
  split
  · exact .inl rfl
  refine Ensures.bind ((prendSlot_spec hrep hs).mono (fun _ hx => hx ▸ echec_outOfBounds False) fun _ hr => hr) ?_
  rintro ⟨x, s₁⟩ ⟨dl, dt, d', rfl, hh, hx⟩
  dsimp only at hh hx ⊢
  split
  · exact echec_outOfBounds False
  -- The slot is dead or was never used, so it is neither the caller nor idle.
  obtain ⟨hxa, hx0, -⟩ := hx.apart h
  have hh₁ := hh.initSlot name prio
  set s₁ := initSlot x name prio { s with deadList := dl, deadTail := dt } with hs₁
  have ha₁ : s₁.actif = some a := h.actif
  refine Ensures.bind ((ajouteFils_spec (x := x) ha₁).mono (fun _ hx => hx ▸ echec_nullDeref False) fun _ hr => hr) ?_
  rintro s₂ ⟨premierFils, dernierFils, frereDroit, rfl, hpf, hdf, hfd⟩
  have hh₂ : Hors { s₁ with premierFils, dernierFils, frereDroit } p q e d' x :=
    ⟨hh₁.lists.congr rfl rfl rfl rfl rfl rfl rfl, hh₁.sorted, hh₁.out, hh₁.ready, hh₁.sleep, hh₁.dead, hh₁.state, hh₁.named⟩
  have hpos : 0 < x.val := by
    by_contra hn
    exact hx0 (Fin.ext (by simpa using hn))
  obtain ⟨next, prev, ho, hrep'⟩ := hh₂.insertActivable (Function.update_self ..)
  rw [if_pos hpos, ho, ok_bind, ensures_ok]
  have hcx : ∀ n, St.contexte { s₁ with
      premierFils, dernierFils, frereDroit, state := Function.update s₁.state x .activable,
      suiv := Function.update s₁.suiv x none, next, prev, processAlive := n } x = some ⟨x, .code⟩ := by
    intro n
    have hc : x ≠ s.charge := by rw [h.charge]; exact hxa
    show (if x = s.charge then some s.cpu else Function.update s.regs x (some ⟨x, .code⟩) x) = _
    rw [if_neg hc, Function.update_self]
  have hci : ∀ n i, i ≠ x → St.contexte { s₁ with
      premierFils, dernierFils, frereDroit, state := Function.update s₁.state x .activable,
      suiv := Function.update s₁.suiv x none, next, prev, processAlive := n } i = s.contexte i := by
    intro n i hi
    show (if i = s.charge then some s.cpu else Function.update s.regs x (some ⟨x, .code⟩) i) = _
    rw [Function.update_of_ne hi]
    rfl
  refine .inr ⟨x, rfl, h.peuple hx ⟨_, e, d', hrep'.setProcessAlive _⟩ (hcx _) (hci _) rfl ?_ rfl rfl, ⟨?_, ?_, ?_, ?_⟩, hx,
    rfl, rfl, rfl, rfl, rfl, rfl, hcx _, hci _⟩
  · intro i hi
    show Function.update s.pere x s.actif i = _
    rw [Function.update_of_ne hi]
  · show Function.update s.pere x s.actif = _
    rw [h.actif]
  · rw [hpf]
    show (if Function.update s.premierFils x none a = none then _ else _) = _
    rw [Function.update_of_ne hxa.symm]
    rfl
  · exact hdf
  · intro i
    refine (hfd i).trans ?_
    show (if Function.update s.premierFils x none a ≠ none ∧ Function.update s.dernierFils x none a = some i then some x
      else Function.update s.frereDroit x none i) = _
    rw [Function.update_of_ne hxa.symm, Function.update_of_ne hxa.symm, Function.update_apply]

/-! ## `waitpid` -/

theorem endormiFind_spec (pid : Int) {n : Nat} {ptr : Option Slot} (h : Seg s.suiv ptr l none) (hn : l.length ≤ n) :
    endormiFind s pid n ptr = .ok (l.find? (fun i => s.pid i = pid)) := by
  induction l generalizing ptr n with
  | nil =>
    obtain rfl : ptr = none := h
    cases n <;> rfl
  | cons y l ih =>
    cases n with
    | zero => simp at hn
    | succ n =>
      obtain ⟨rfl, h⟩ := h
      by_cases hy : s.pid y = pid
      · simp [endormiFind, hy]
      · simp [endormiFind, hy, ih h (by simpa using hn)]

theorem getprio_spec (pid : Int) (h : Inv f a s p) :
    ∃ r, getprio pid s = .ok r ∧ ((∃ x, Trouvable p x ∧ s.pid x = pid ∧ r = toInt32 (s.prio x)) ∨
      (∀ x, Trouvable p x → s.pid x ≠ pid) ∧ r = -1) := by
  obtain ⟨q, e, d, hrep⟩ := h.rep
  have hlen := slots_length hrep.lists.sleep.nodup
  have hfind : ∀ (l : List Slot) x, l.find? (fun i => decide (s.pid i = pid)) = some x → x ∈ l ∧ s.pid x = pid :=
    fun l x hx => ⟨List.mem_of_find?_eq_some hx, by simpa using List.find?_some hx⟩
  unfold getprio
  split
  · next hr =>
    refine ⟨_, rfl, .inr ⟨fun x hx he => ?_, rfl⟩⟩
    rw [hrep.pid hx.ne_libre] at he
    have := x.isLt
    omega
  · rw [h.deref, ok_bind]
    split
    · next ha => exact ⟨_, rfl, .inl ⟨a, .inl h.elu, ha, rfl⟩⟩
    · next ha =>
      rw [queueFind_spec hrep.lists.ready, ok_bind]
      split
      · next x hx =>
        obtain ⟨hxq, hxp⟩ := hfind q x hx
        exact ⟨_, rfl, .inl ⟨x, .inr (.inl ((hrep.ready x).1 hxq)), hxp, rfl⟩⟩
      · next hq =>
        rw [endormiFind_spec pid (n := PROCESS_TABLE_SIZE + 1) hrep.lists.sleep.seg (by omega), ok_bind]
        split
        · next x hx =>
          obtain ⟨hxe, hxp⟩ := hfind e x hx
          exact ⟨_, rfl, .inl ⟨x, .inr (.inr ((hrep.sleep x).1 hxe)), hxp, rfl⟩⟩
        · next he =>
          simp only [List.find?_eq_none, decide_eq_true_eq] at hq he
          refine ⟨_, rfl, .inr ⟨?_, rfl⟩⟩
          rintro x (hx | hx | hx)
          · rwa [h.seul x hx]
          · exact hq x ((hrep.ready x).2 hx)
          · exact he x ((hrep.sleep x).2 hx)

theorem waitpidFin_spec {pid ret : Int} {retvalp : Bool} (h : Inv f a s p) :
    Ensures (fun y => y = .nullDeref ∧ retvalp = false ∧ s.retvalFils a ≠ none) (waitpidFin pid retvalp ret s) fun r =>
      r.1 = .attendu pid retvalp ret (s.retvalFils a) ∧ (retvalp = false → s.retvalFils a = none) ∧
        r.2 = s.setRetvalFils a none := by
  rw [waitpidFin, h.deref, ok_bind]
  split
  · next hn =>
    refine ⟨by rw [hn], fun _ => hn, ?_⟩
    rw [St.setRetvalFils, ← hn, Function.update_eq_self]
  · next v hv =>
    split
    · next hr => exact ⟨by rw [hv], by simp [hr], rfl⟩
    · next hr => exact ⟨rfl, by simpa using hr, by simp [hv]⟩

theorem Inv.setRetvalFils (h : Inv f a s p) (i : Slot) (v : Option Int) : Inv f a (s.setRetvalFils i v) p :=
  h.congr rfl rfl rfl rfl rfl rfl

theorem Inv.setRetval (h : Inv f a s p) (i : Slot) (v : Option Int) : Inv f a (s.setRetval i v) p :=
  h.congr rfl rfl rfl rfl rfl rfl

/-- The search for a child ends, or the list of children does not. -/
theorem trouveFils_spec (s : St) (pid : Int) (n : Nat) (ptr : Option Slot) :
    Ensures (· = .diverge) (trouveFils s pid n ptr) fun b => b = true → ptr ≠ none := by
  induction n generalizing ptr with
  | zero => cases ptr <;> simp [trouveFils]
  | succ n ih =>
    cases ptr with
    | none => simp [trouveFils]
    | some x =>
      unfold trouveFils
      split_ifs
      · simp
      · simp
      · simp
      · exact (ih _).post fun _ _ _ => by simp

/-- `waitpid` returns -1, or a child is there and the wait begins. -/
theorem waitpid_spec (pid : Int) (retvalp : Bool) (h : Inv f a s p) :
    Ensures (Echec False) (waitpid pid retvalp s) fun r =>
      (∃ ecrit, r.1 = .attendu pid retvalp (-1) ecrit ∧ (ecrit = none ∨ ecrit = s.retvalFils a) ∧
        (r.2 = s ∨ r.2 = s.setRetvalFils a none)) ∨
      pid ≠ 0 ∧ s.premierFils a ≠ none ∧ r = (.enCours, s.setSuite (.attente pid retvalp (s.premierFils a))) := by
  have hsuite (b : Bool) (hb : b = true → s.premierFils a ≠ none) : Ensures (Echec False)
      (if b then
        if pid = 0 then waitpidFin pid retvalp (-1) s
        else .ok (.enCours, s.setSuite (.attente pid retvalp (s.premierFils a)))
      else .ok (.attendu pid retvalp (-1) none, s)) fun r =>
      (∃ ecrit, r.1 = .attendu pid retvalp (-1) ecrit ∧ (ecrit = none ∨ ecrit = s.retvalFils a) ∧
        (r.2 = s ∨ r.2 = s.setRetvalFils a none)) ∨
      pid ≠ 0 ∧ s.premierFils a ≠ none ∧ r = (.enCours, s.setSuite (.attente pid retvalp (s.premierFils a))) := by
    split
    · next ht =>
      split
      · refine (waitpidFin_spec h).mono (fun _ hx => hx.1 ▸ echec_nullDeref False) ?_
        rintro r ⟨hr, -, hs⟩
        exact .inl ⟨_, hr, .inr rfl, .inr hs⟩
      · next hp => exact .inr ⟨hp, hb ht, rfl⟩
    · exact .inl ⟨none, rfl, .inl rfl, .inl rfl⟩
  rw [waitpid, h.deref, ok_bind]
  dsimp only
  split
  · next hp => exact hsuite true fun _ => hp.2
  · refine Ensures.bind ((trouveFils_spec ..).mono (fun _ hx => hx ▸ echec_diverge False) fun _ hs => hs) ?_
    exact hsuite

/-- The table after the zombie `x` was reclaimed. -/
theorem Inv.recolte (h : Inv f a s p) (hx : p x = .zombie) :
    ∃ suiv deadList deadTail,
      insertMort x s = .ok { s with state := Function.update s.state x .mort, suiv, deadList, deadTail } ∧
      Inv f a { s with state := Function.update s.state x .mort, suiv, deadList, deadTail } (Function.update p x .mort) := by
  obtain ⟨q, e, d, hrep⟩ := h.rep
  obtain ⟨suiv, dl, dt, ho, hr⟩ := hrep.insertMort (x := x) (by simp [hx]) (by simp [hx]) (by simp [hx]) (by simp [hx])
  have hx0 : (0 : Slot) ≠ x := by rintro rfl; exact h.idle.2.2.1 hx
  exact ⟨suiv, dl, dt, ho, h.ote (.inr (.inr hx)) hx0 (.inr rfl) ⟨q, e, _, hr⟩ rfl rfl rfl rfl rfl⟩

/-- The child `pid_dun_fils_termine` looks at after `x`. -/
def suivant (s : St) (a x : Slot) : Option Slot := if s.frereDroit x = none then s.premierFils a else s.frereDroit x

/-- `pid_dun_fils_termine`, which looks at `x`, calls `chprio` for the next child `g`. -/
def Eleve (s : St) (pid : Int) (retvalp : Bool) (x : Slot) : Prop :=
  let param := if pid < 0 then -1 else pid
  ∃ a ∈ s.actif, ∃ g ∈ suivant s a x,
    ¬(s.state x = .zombie ∧ (param = -1 ∨ s.pid x = param)) ∧ (param = s.pid g ∧ s.prio g < s.prio a) ∧
      ∃ v ∈ (getprio param (s.setSuite (.attente pid retvalp (some g)))).toOption, Valable param (v + 1)

/-- One round of the wait: a zombie child is reclaimed and `waitpid` returns, or the next child is looked at and another
process may run. It fails when there is no next child, or to store a value through a NULL `retvalp`. -/
theorem pidDunFilsTermine_spec (pid : Int) (retvalp : Bool) (fils : Option Slot) (h : Inv f a s p) :
    Ensures (fun y => y = .nullDeref ∧ ∀ x, fils = some x → suivant s a x = none ∨
        retvalp = false ∧ p x = .zombie ∧ (pid < 0 ∨ s.pid x = pid) ∧ s.retval x ≠ none)
      (pidDunFilsTermine pid retvalp fils s) fun r =>
      ∃ x, fils = some x ∧
        ((p x = .zombie ∧ (pid < 0 ∨ s.pid x = pid) ∧ r.1 = .attendu pid retvalp (s.pid x) (s.retval x) ∧
            (retvalp = false → s.retval x = none) ∧ Inv f a r.2 (Function.update p x .mort) ∧
            Cadre ((s.setSuite .code).setRetvalFils a none) r.2) ∨
          (¬(p x = .zombie ∧ (pid < 0 ∨ s.pid x = pid)) ∧ r.1 = .enCours ∧ suivant s a x ≠ none ∧
            ∃ n p', Inv f n r.2 p' ∧ Cadre (s.setSuite (.attente pid retvalp (suivant s a x))) r.2 ∧
              ∀ i, p' i = p i ∨
                ((p i = .elu ∨ p i = .pret ∨ p i = .endormi ∧ s.timeToWake i ≤ s.nbTick ∧ Eleve s pid retvalp x) ∧
                  (p' i = .elu ∨ p' i = .pret)))) := by
  obtain ⟨q, e, d, hrep⟩ := h.rep
  rw [pidDunFilsTermine, h.deref]
  have hparam : ∀ x, ((if pid < 0 then (-1 : Int) else pid) = -1 ∨ s.pid x = if pid < 0 then -1 else pid) ↔
      (pid < 0 ∨ s.pid x = pid) := by
    intro x
    split
    · next hp => simp [hp]
    · next hp =>
      have : pid ≠ -1 := by omega
      simp [hp, this]
  generalize hpar : (if pid < 0 then (-1 : Int) else pid) = param at hparam ⊢
  simp only [ok_bind]
  cases fils with
  | none => exact ⟨rfl, nofun⟩
  | some x =>
    rw [deref_some, ok_bind]
    simp only [hparam, hrep.state_eq_zombie]
    split
    · next hz =>
      obtain ⟨suiv, dl, dt, ho, hi⟩ := (h.setRetvalFils a (s.retval x)).recolte hz.1
      have hpid : s.pid x = (x.val : Int) := hrep.pid (by simp [hz.1])
      rw [ho, ok_bind]
      split
      · next hw =>
        -- The result is the one asked for.
        rcases hw with ⟨-, hw⟩ | ⟨h₁, h₂⟩
        · omega
        · rcases hz.2 with h₃ | h₃
          · omega
          · exact absurd h₃ h₂
      · have hv : Function.update s.retvalFils a (s.retval x) a = s.retval x := Function.update_self ..
        refine (waitpidFin_spec (hi.setSuite .code)).mono ?_ ?_
        · rintro y ⟨rfl, hr, hn⟩
          refine ⟨rfl, ?_⟩
          rintro x ⟨⟩
          exact .inr ⟨hr, hz.1, hz.2, hv ▸ hn⟩
        rintro r ⟨hr, hn, hs⟩
        refine ⟨x, rfl, .inl ⟨hz.1, hz.2, hr.trans ?_, fun hp => hv ▸ hn hp, ?_, ?_⟩⟩
        · show Issue.attendu pid retvalp (s.pid x) (Function.update s.retvalFils a (s.retval x) a) = _
          rw [hv]
        · rw [hs]
          exact (hi.setSuite .code).setRetvalFils ..
        · rw [hs]
          exact ⟨rfl, rfl, rfl, rfl, rfl, rfl, Function.update_idem .., rfl, rfl, rfl, rfl, rfl⟩
    · next hz =>
      rw [show (if s.frereDroit x = none then s.premierFils a else s.frereDroit x) = suivant s a x from rfl]
      cases hn : suivant s a x with
      | none =>
        refine ⟨rfl, ?_⟩
        rintro x ⟨⟩
        exact .inl hn
      | some g =>
        rw [deref_some, ok_bind]
        have h₁ := h.setSuite (.attente pid retvalp (some g))
        split
        · next hg =>
          obtain ⟨pr, hpr, -⟩ := getprio_spec param h₁
          rw [hpr, ok_bind]
          refine Ensures.bind (chprio_spec _ (pr + 1) h₁).weaken ?_
          rintro r ⟨n, p', hi, hcd, hpl⟩
          have hel (hv : Valable param (pr + 1)) : Eleve s pid retvalp x := by
            rw [Eleve, hpar]
            refine ⟨a, h.actif, g, hn, ?_, hg, pr, congrArg Except.toOption hpr, hv⟩
            rwa [hparam, hrep.state_eq_zombie]
          exact ⟨x, rfl, .inr ⟨hz, rfl, by simp [hn], n, p', hi, hn ▸ hcd, fun i => (hpl i).imp_right fun ⟨h₂, h₃⟩ =>
            ⟨h₂.imp_right (Or.imp_right fun ⟨h₄, h₅, h₆⟩ => ⟨h₄, h₅, hel h₆⟩), h₃⟩⟩⟩
        · exact ⟨x, rfl, .inr ⟨hz, rfl, by simp [hn], a, p, h₁, hn ▸ .refl _, fun i => .inl rfl⟩⟩

end Pcsea
