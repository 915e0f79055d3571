import Pcsea.Attente
import Pcsea.Echanges
import Pcsea.Ronde
/-!
# No waiter is lost

The two rings of each queue hold the processes that wait for it, senders and
receivers apart, in the order in which they blocked; a call that succeeds in
the other role makes the oldest ready. `preceive` adds a receiver behind
`consum` and stores the new tail in `prod`: this only works when both are empty.
-/

namespace Pcsea

open Lib

variable {s s' : St} {p p' : Slot → Place} {a n x y : Slot} {e : Event} {r : Issue} {tr : List (St × Event × Issue)}
  {q : Fin NBQUEUE} {v : Int} {k : Fin NBQUEUE × Bool} {R : Fin NBQUEUE × Bool → List Nat} {W : Fin NBQUEUE × Bool → List Slot}

/-- The ring of the senders, or of the receivers, of a queue. -/
def Messages.ronde (m : Messages Slot) (k : Fin NBQUEUE × Bool) : FifoProcess :=
  if k.2 then (m.fifoTab k.1).consum else (m.fifoTab k.1).prod

theorem ronde_set_prod {m : Messages Slot} {g : FifoMessages} (heap : Heap Slot) (hg : g.consum = (m.fifoTab q).consum)
    (k : Fin NBQUEUE × Bool) : Messages.ronde { m.set q g with heap } k = if k = (q, false) then g.prod else m.ronde k := by
  obtain ⟨q', b⟩ := k
  by_cases hq : q' = q
  · subst hq
    cases b <;> simp [Messages.ronde, Messages.set, hg]
  · simp [Messages.ronde, Messages.set, hq]

theorem ronde_set_consum {m : Messages Slot} {g : FifoMessages} (heap : Heap Slot) (hg : g.prod = (m.fifoTab q).prod)
    (k : Fin NBQUEUE × Bool) : Messages.ronde { m.set q g with heap } k = if k = (q, true) then g.consum else m.ronde k := by
  obtain ⟨q', b⟩ := k
  by_cases hq : q' = q
  · subst hq
    cases b <;> simp [Messages.ronde, Messages.set, hg]
  · simp [Messages.ronde, Messages.set, hq]

theorem used_set {m : Messages Slot} {g : FifoMessages} (heap : Heap Slot) (hg : g.used = (m.fifoTab q).used)
    (q' : Fin NBQUEUE) : (Messages.fifoTab { m.set q g with heap } q').used = (m.fifoTab q').used := by
  by_cases hq : q' = q
  · subst hq
    simp [Messages.set, hg]
  · simp [Messages.set, hq]

/-- `x` has blocked on the queue, in the role, and has not been made ready. -/
def EnAttente (s : St) (k : Fin NBQUEUE × Bool) (x : Slot) : Prop :=
  s.state x = .endormi ∧ ¬Met s.suiv s.endormiList x ∧ (s.contexte x).bind (fun c => c.suite.file role) = some k

theorem Inv.enAttente (h : Inv role a s p) : EnAttente s k x ↔ Attend role s p x k := by
  rw [EnAttente, ← and_assoc, h.bloque_iff, Attend, Option.bind_eq_some_iff]

theorem EnAttente.unique {k' : Fin NBQUEUE × Bool} (h : EnAttente s k x) (h' : EnAttente s k' x) : k = k' :=
  Option.some.inj (h.2.2.symm.trans h'.2.2)

/-- The rings go round the cells `R`, which hold the processes `W` that wait, oldest first. -/
structure Rondes (s : St) (R : Fin NBQUEUE × Bool → List Nat) (W : Fin NBQUEUE × Bool → List Slot) : Prop where
  ronde : ∀ k, Ronde s.messages.heap (s.messages.ronde k) (R k) (W k)
  attente : ∀ k x, x ∈ W k ↔ EnAttente s k x
  nodup : ∀ k, (W k).Nodup
  vierge : ∀ k, (s.messages.fifoTab k.1).used = false → W k = []

/-- Two rings share no cell. -/
theorem Rondes.disjoint (h : Rondes s R W) {k k' : Fin NBQUEUE × Bool} (hk : k ≠ k') : (R k).Disjoint (R k') := by
  intro b hb hb'
  obtain ⟨c, hc, hx⟩ := (h.ronde k).cell hb
  obtain ⟨c', hc', hx'⟩ := (h.ronde k').cell hb'
  obtain rfl : c = c' := Option.some.inj (hc.symm.trans hc')
  exact hk (((h.attente k _).1 hx).unique ((h.attente k' _).1 hx'))

/-- A step that leaves the rings and the waiting processes alone. -/
theorem Rondes.congr (h : Rondes s R W) (h₁ : s'.messages.heap = s.messages.heap)
    (h₂ : ∀ k, s'.messages.ronde k = s.messages.ronde k)
    (h₃ : ∀ q, (s'.messages.fifoTab q).used = false → (s.messages.fifoTab q).used = false)
    (h₄ : ∀ k x, EnAttente s' k x ↔ EnAttente s k x) : Rondes s' R W :=
  ⟨fun k => by rw [h₁, h₂]; exact h.ronde k, fun k x => by rw [h.attente, h₄], h.nodup, fun k hk => h.vierge k (h₃ _ hk)⟩

/-- A process blocks. -/
theorem Rondes.ajoute {new : FifoProcess} {heap : Heap Slot} (h : Rondes s R W) (ha : ∀ k, ¬EnAttente s k a)
    (ho : addProcess (s.messages.ronde k) a s.messages.heap = .ok (new, heap))
    (hu : (s.messages.fifoTab k.1).used = true) (h₁ : s'.messages.heap = heap)
    (h₂ : ∀ k', s'.messages.ronde k' = if k' = k then new else s.messages.ronde k')
    (h₃ : ∀ q, (s'.messages.fifoTab q).used = (s.messages.fifoTab q).used)
    (h₄ : ∀ k' x, EnAttente s' k' x ↔ EnAttente s k' x ∨ x = a ∧ k' = k) :
    Rondes s' (Function.update R k (R k ++ [s.messages.heap.length])) (Function.update W k (W k ++ [a])) := by
  obtain ⟨heap', ho', hlen, hr, hcell⟩ := addProcess_ronde (h.ronde k) a
  obtain ⟨rfl, rfl⟩ := Prod.mk.inj (Except.ok.inj (ho'.symm.trans ho))
  refine ⟨fun k' => ?_, fun k' x => ?_, fun k' => ?_, fun k' hk' => ?_⟩
  -- The cell is new, so the other rings do not have it.
  · rw [h₁, h₂]
    by_cases hk : k' = k
    · subst hk
      rw [if_pos rfl, Function.update_self, Function.update_self]
      exact hr
    · rw [if_neg hk, Function.update_of_ne hk, Function.update_of_ne hk]
      refine (h.ronde k').congr fun b hb => hcell b ?_ fun hb' => h.disjoint hk hb hb'
      exact ((h.ronde k').lt hb).ne
  · rw [h₄, ← h.attente]
    by_cases hk : k' = k
    · subst hk
      simp
    · simp [hk]
  · by_cases hk : k' = k
    · subst hk
      rw [Function.update_self]
      refine List.nodup_append.2 ⟨h.nodup k', by simp, fun x hx y hy hxy => ha k' ?_⟩
      rw [← h.attente, ← List.mem_singleton.1 hy, ← hxy]
      exact hx
    · rw [Function.update_of_ne hk]
      exact h.nodup k'
  · rw [h₃] at hk'
    have hk : k' ≠ k := by
      rintro rfl
      rw [hu] at hk'
      cases hk'
    rw [Function.update_of_ne hk]
    exact h.vierge k' hk'

/-- The oldest process of a ring is taken out. -/
theorem Rondes.retire {new : FifoProcess} {o : Option Slot} {heap : Heap Slot} (h : Rondes s R W)
    (ho : extractProcess (s.messages.ronde k) s.messages.heap = .ok (new, o, heap)) (h₁ : s'.messages.heap = heap)
    (h₂ : ∀ k', s'.messages.ronde k' = if k' = k then new else s.messages.ronde k')
    (h₃ : ∀ q, (s'.messages.fifoTab q).used = (s.messages.fifoTab q).used)
    (h₄ : ∀ k' x, EnAttente s' k' x ↔ EnAttente s k' x ∧ o ≠ some x) :
    o = (W k).head? ∧ ∃ l, Rondes s' (Function.update R k l) (Function.update W k (W k).tail) := by
  have hhead : o = (W k).head? := by rw [extractProcess_premier ho, (h.ronde k).premier]
  refine ⟨hhead, ?_⟩
  have hrk := h.ronde k
  cases hw : W k with
  | nil =>
    rw [hw] at hrk hhead
    obtain rfl : o = none := hhead
    have hnone := hrk.none_iff.2 rfl
    rw [hnone] at ho
    obtain ⟨rfl, hheap⟩ := Prod.mk.inj (Except.ok.inj ho)
    obtain rfl : s.messages.heap = heap := (Prod.mk.inj hheap).2
    refine ⟨R k, ?_⟩
    rw [Function.update_eq_self, List.tail_nil, ← hw, Function.update_eq_self]
    refine h.congr h₁ (fun k' => ?_) (fun q hq => by rwa [h₃] at hq) fun k' x => by rw [h₄]; simp
    rw [h₂]
    split
    · next he => rw [he, hnone]
    · rfl
  | cons y w =>
    rw [hw] at hrk hhead
    obtain rfl : o = some y := hhead
    have hcells : ∃ b l, R k = b :: l := by
      cases hR : R k with
      | nil =>
        rw [hR] at hrk
        cases hrk.none_iff.1 (hrk.loop.tail_none.2 rfl)
      | cons b l => exact ⟨b, l, rfl⟩
    obtain ⟨b, l, hR⟩ := hcells
    rw [hR] at hrk
    obtain ⟨new', heap', ho', -, hr, hcell⟩ := extractProcess_ronde hrk
    obtain ⟨rfl, hheap⟩ := Prod.mk.inj (Except.ok.inj (ho'.symm.trans ho))
    obtain rfl : heap' = heap := (Prod.mk.inj hheap).2
    have hnd := h.nodup k
    rw [hw] at hnd
    obtain ⟨hyw, hnd⟩ := List.nodup_cons.1 hnd
    -- The other rings share no cell with this one.
    refine ⟨l, fun k' => ?_, fun k' x => ?_, fun k' => ?_, fun k' hk' => ?_⟩
    · rw [h₁, h₂]
      by_cases hk : k' = k
      · subst hk
        rw [if_pos rfl, Function.update_self, Function.update_self]
        exact hr
      · rw [if_neg hk, Function.update_of_ne hk, Function.update_of_ne hk]
        refine (h.ronde k').congr fun b' hb' => hcell b' fun hm => h.disjoint hk hb' ?_
        rwa [hR]
    · rw [h₄, ← h.attente]
      by_cases hk : k' = k
      · subst hk
        rw [Function.update_self, hw, List.tail_cons, List.mem_cons]
        constructor
        · intro hx
          refine ⟨.inr hx, fun he => hyw ?_⟩
          rwa [Option.some.inj he]
        · rintro ⟨rfl | hx, hne⟩
          · exact absurd rfl hne
          · exact hx
      · rw [Function.update_of_ne hk]
        refine ⟨fun hx => ⟨hx, fun he => hk ?_⟩, And.left⟩
        obtain rfl := Option.some.inj he
        have hy : y ∈ W k := by rw [hw]; simp
        exact ((h.attente k' y).1 hx).unique ((h.attente k y).1 hy)
    · by_cases hk : k' = k
      · subst hk
        rw [Function.update_self]
        exact hnd
      · rw [Function.update_of_ne hk]
        exact h.nodup k'
    · rw [h₃] at hk'
      by_cases hk : k' = k
      · subst hk
        rw [h.vierge k' hk'] at hw
        cases hw
      · rw [Function.update_of_ne hk]
        exact h.vierge k' hk'

/-! ## The calls -/

theorem Inv.actif_libre (h : Inv role a s p) (k : Fin NBQUEUE × Bool) : ¬EnAttente s k a := fun hk => by
  have hp := (h.enAttente.1 hk).1
  simp [h.elu] at hp

/-- The running code may go on elsewhere. -/
theorem Inv.enAttente_setSuite (h : Inv role a s p) (suite : Suite) : EnAttente (s.setSuite suite) k x ↔ EnAttente s k x := by
  rw [(h.setSuite suite).enAttente, h.enAttente]
  refine ⟨attend_setSuite h suite, ?_⟩
  rintro ⟨hp, c, hc, hk⟩
  have hx : x ≠ s.charge := by
    rw [h.charge]
    rintro rfl
    simp [h.elu] at hp
  refine ⟨hp, c, ?_, hk⟩
  rw [St.contexte, if_neg hx] at hc
  show (if x = s.charge then some (⟨s.cpu.code, suite⟩ : Contexte) else s.regs x) = some c
  rw [if_neg hx, hc]

theorem Rondes.setSuite (h : Rondes s R W) (hi : Inv role a s p) (suite : Suite) : Rondes (s.setSuite suite) R W :=
  h.congr rfl (fun _ => rfl) (fun _ hq => hq) fun _ _ => hi.enAttente_setSuite suite

/-- What a call does to the processes that wait, when it wakes the first of the ring `k`. -/
structure Libere1 (s s' : St) (k : Fin NBQUEUE × Bool) (R : Fin NBQUEUE × Bool → List Nat)
    (W : Fin NBQUEUE × Bool → List Slot) : Prop where
  rondes : ∃ l, Rondes s' (Function.update R k l) (Function.update W k (W k).tail)
  prete : ∀ y, (W k).head? = some y → s'.prete y = true

/-- `reveille` of the process `extract_process` gave. -/
theorem reveille_rondes {m : Messages Slot} {new : FifoProcess} {o : Option Slot}
    (lab : Nat → Option (Fin NBQUEUE × Bool)) (h : Inv role a s p) (hr : Rondes s R W)
    (hm : (o = none ∧ Files role m lab (Attend role s p)) ∨
      ∃ y lab', o = some y ∧ Attend role s p y k ∧ Files role m lab' fun z k => Attend role s p z k ∧ z ≠ y)
    (hx : extractProcess (s.messages.ronde k) s.messages.heap = .ok (new, o, m.heap))
    (h₁ : ∀ k', m.ronde k' = if k' = k then new else s.messages.ronde k')
    (h₂ : ∀ q, (m.fifoTab q).used = (s.messages.fifoTab q).used) (ho : reveille o { s with messages := m } = .ok s') :
    Libere1 s s' k R W := by
  have hfin : ∀ {p'}, Inv role a s' p' → s'.messages = m → (∀ k' x, EnAttente s' k' x ↔ EnAttente s k' x ∧ o ≠ some x) →
      (∀ y, o = some y → p' y = .pret) → Libere1 s s' k R W := by
    intro p' hi hm' hatt hpret
    obtain ⟨ho', l, hl⟩ := hr.retire hx (by rw [hm']) (fun k' => by rw [hm', h₁]) (fun q => by rw [hm', h₂]) hatt
    refine ⟨⟨l, hl⟩, fun y hy => ?_⟩
    obtain ⟨q, e, d, hrep⟩ := hi.rep
    exact hrep.prete.2 (hpret y (ho'.trans hy))
  rcases hm with ⟨rfl, hm⟩ | ⟨y, lab', rfl, hy, hm⟩
  · obtain rfl := Except.ok.inj ho
    refine hfin (h.setMessages hm) rfl (fun k' x => ?_) nofun
    rw [(h.setMessages hm).enAttente, h.enAttente]
    exact ⟨fun hx => ⟨hx, nofun⟩, fun hx => hx.1⟩
  · obtain ⟨s'', ho', hi, hm', hcd⟩ := h.reveille hy.1 hm
    obtain rfl := Except.ok.inj (ho'.symm.trans ho)
    refine hfin hi hm' (fun k' x => ?_) ?_
    · rw [hi.enAttente, h.enAttente, Attend, Attend, hcd.contexte]
      by_cases hxy : x = y
      · subst hxy
        simp
      · rw [Function.update_of_ne hxy]
        refine ⟨fun hx => ⟨hx, fun he => hxy (Option.some.inj he).symm⟩, And.left⟩
    · rintro z ⟨⟩
      exact Function.update_self ..

/-- A send that succeeds wakes the oldest receiver. -/
theorem psendFin_rondes {tmp : Slot} (h : Inv role a s p) (hr : Rondes s R W) (ho : psendFin q v tmp s = .ok (r, s')) :
    r = .emis q v ∧ Libere1 s s' (q, false) R W := by
  obtain ⟨lab, hlab⟩ := h.rings
  obtain ⟨rfl, m, h₁, h₂⟩ := psendFin_ok hlab.silent ho
  have hm := ((psendSuite_spec hlab s.pid q v tmp).of_ok h₁).2
  obtain ⟨tab, tab', prod, heap, -, -, -, hx, he⟩ := psendSuite_ok hlab.silent h₁
  obtain ⟨-, -, rfl⟩ := Prod.mk.inj he |>.imp id Prod.mk.inj
  refine ⟨rfl, reveille_rondes lab h hr hm hx (fun k' => ?_) (fun q' => ?_) h₂⟩
  · exact ronde_set_prod heap (by rfl) k'
  · exact used_set heap (by rfl) q'

/-- A receipt that succeeds wakes the oldest sender. -/
theorem preceiveFin_rondes {tmp : Slot} (h : Inv role a s p) (hr : Rondes s R W) (ho : preceiveFin q tmp s = .ok (r, s')) :
    (∃ v, r = .recu q v) ∧ Libere1 s s' (q, true) R W := by
  obtain ⟨lab, hlab⟩ := h.rings
  obtain ⟨v, m, rfl, h₁, h₂⟩ := preceiveFin_ok hlab.silent ho
  have hm := ((preceiveSuite_spec hlab s.pid q tmp).of_ok h₁).2
  obtain ⟨tab, w, consum, heap, -, -, hx, he⟩ := preceiveSuite_ok hlab.silent h₁
  obtain ⟨-, -, rfl⟩ := Prod.mk.inj he |>.imp id Prod.mk.inj
  refine ⟨⟨v, rfl⟩, reveille_rondes lab h hr hm hx (fun k' => ?_) (fun q' => ?_) h₂⟩
  · exact ronde_set_consum heap (by rfl) k'
  · exact used_set heap (by rfl) q'

/-- Who waits once `actif` is blocked. -/
theorem Suspendu.enAttente {suite : Suite} (h : Inv role a s p) (hs : Suspendu role a suite s s' p)
    (hk : suite.file role = some k) (k' : Fin NBQUEUE × Bool) (x : Slot) :
    EnAttente s' k' x ↔ EnAttente s k' x ∨ x = a ∧ k' = k := by
  obtain ⟨n, p', hi, hcd, hpa, hp⟩ := hs
  obtain ⟨h₁, h₂⟩ := contexte_enAttente h suite s'.messages
  rw [hi.enAttente, h.enAttente, Attend, Attend, hcd.contexte]
  by_cases hxa : x = a
  · subst hxa
    rw [h₁]
    simp [hpa, h.elu, hk, eq_comm]
  · rw [h₂ x hxa]
    have hpx : p' x = .bloque ↔ p x = .bloque := by
      rcases hp x hxa with he | ⟨hpx, hpx'⟩
      · rw [he]
      · rcases hpx with hpx | ⟨hpx, -⟩ <;> rcases hpx' with hpx' | hpx' <;> simp [hpx, hpx']
    simp [hpx, hxa]

/-- A receiver that blocks waits alone. -/
def RecepteurSeul (s : St) : Event → Prop
  | .appel (.preceive fid) => ∀ q, s.messages.ouverte fid = some q → (s.messages.fifoTab q).nbElement = 0 →
      (s.messages.fifoTab q).consum = none ∧ (s.messages.fifoTab q).prod = none
  | _ => True

theorem RecepteurSeul.sansEmetteur (h : RecepteurSeul s e) : SansEmetteur s e := by
  unfold RecepteurSeul at h
  unfold SansEmetteur
  split
  · exact fun q hq hn => (h q hq hn).1
  · trivial

/-- What a step does to the processes that wait. -/
inductive Bouge (a : Slot) (s s' : St) (R : Fin NBQUEUE × Bool → List Nat)
    (W : Fin NBQUEUE × Bool → List Slot) : Issue → Prop
  | reste {r : Issue} : Rondes s' R W → (∀ q v, r ≠ .emis q v) → (∀ q v, r ≠ .recu q v) → Bouge a s s' R W r
  | attend (k : Fin NBQUEUE × Bool) (l : List Nat) :
    Rondes s' (Function.update R k l) (Function.update W k (W k ++ [a])) → Bouge a s s' R W .enCours
  | emis (q : Fin NBQUEUE) (v : Int) : Libere1 s s' (q, false) R W → Bouge a s s' R W (.emis q v)
  | recu (q : Fin NBQUEUE) (v : Int) : Libere1 s s' (q, true) R W → Bouge a s s' R W (.recu q v)

/-- A step that is no call on the queues leaves the processes that wait alone. -/
theorem Effet.enAttente (h : Inv role a s p) (he : Effet role a s p e r s' n p') (hl : ∀ k, ¬Libere role s k e)
    (hech : e.echange = false) (k : Fin NBQUEUE × Bool) (x : Slot) : EnAttente s' k x ↔ EnAttente s k x := by
  rw [he.inv.enAttente, h.enAttente, Attend, Attend]
  have hpx : p' x = .bloque ↔ p x = .bloque := by
    refine ⟨fun hx => ((he.va x).bloque hx).resolve_right (by simp [hech]), fun hx => ?_⟩
    have hva := he.va x
    generalize p' x = P at hva
    cases hva with
    | reste => exact hx
    | libere k _ hk => exact absurd hk (hl k)
    | demarre hav => rcases hav.place with hp | hp | hp <;> simp [hx] at hp
    | tourne hp => rcases hp with hp | hp <;> simp [hx] at hp
    | _ => simp_all
  rw [hpx]
  refine and_congr_right fun hx => ?_
  have hxa : x ≠ a := by
    rintro rfl
    simp [h.elu] at hx
  have hcree : r ≠ .cree x := fun hc => by
    rcases (he.cree x hc).1.place with hp | hp | hp <;> simp [hx] at hp
  rw [he.contexte x hxa, if_neg hcree]

theorem Event.transmet_libere (he : e.transmet s = false) : (∀ k, ¬Libere role s k e) ∧ e.echange = false := by
  unfold Event.transmet at he
  split at he
  · next c => cases c <;> first | exact ⟨fun _ hl => hl, rfl⟩ | cases he
  · refine ⟨fun k hl => ?_, rfl⟩
    rcases hl with ⟨q, message, tmp, hs, -⟩ | ⟨q, tmp, hs, -⟩ <;> simp [Suite.transmet, hs] at he
  · exact ⟨fun _ hl => hl, rfl⟩

/-- Creating a queue: its rings were empty. -/
theorem Rondes.pcreate (hr : Rondes s R W) (count : Int) (contenu : Option (Nat → Int)) (hm : s'.messages = (pcreate s.messages count contenu).2)
    (hatt : ∀ k x, EnAttente s' k x ↔ EnAttente s k x) : Rondes s' R W := by
  unfold Pcsea.pcreate at hm
  split at hm
  · exact hr.congr (by rw [hm]) (fun k => by rw [hm]) (fun q hq => by rwa [hm] at hq) hatt
  split at hm
  · exact hr.congr (by rw [hm]) (fun k => by rw [hm]) (fun q hq => by rwa [hm] at hq) hatt
  · next k hk =>
    have hu : (s.messages.fifoTab k).used = false := by simpa using List.find?_some hk
    have hnone : ∀ b, s.messages.ronde (k, b) = none := fun b => (hr.ronde (k, b)).none_iff.2 (hr.vierge (k, b) hu)
    refine hr.congr (by rw [hm]; rfl) (fun k' => ?_) (fun q hq => ?_) hatt
    · obtain ⟨q', b⟩ := k'
      by_cases hq : q' = k
      · subst hq
        rw [hnone b, hm]
        cases b <;> simp [Messages.ronde, Messages.set, initList]
      · rw [hm]
        simp [Messages.ronde, Messages.set, hq]
    · by_cases hqk : q = k
      · rw [hqk]
        exact hu
      · rw [hm] at hq
        simpa [Messages.set, hqk] using hq

theorem ouverte_used {m : Messages Slot} {fid : Int} (h : m.ouverte fid = some q) : (m.fifoTab q).used = true := by
  unfold Messages.ouverte at h
  split at h
  · dsimp only at h
    split at h
    · next hu =>
      obtain rfl := Option.some.inj h
      exact hu
    · cases h
  · cases h

theorem psend_rondes {fid : Int} (h : Inv role a s p) (hr : Rondes s R W) (hs : Sain s (.appel (.psend fid v)))
    (ho : psend fid v s = .ok (r, s')) : Bouge a s s' R W r := by
  have hspec := (psend_spec fid v h hs).of_ok ho
  rcases psend_ok ho with ⟨-, rfl, rfl⟩ | ⟨b, k, -, -, -, hfin⟩ | ⟨b, k, consum, heap, hb, hk, -, hadd, rfl, hbloque⟩
  · exact .reste hr (by simp) (by simp)
  · obtain ⟨rfl, hl⟩ := psendFin_rondes h hr hfin
    exact .emis k v hl
  · obtain rfl : a = b := Option.some.inj (h.actif.symm.trans hb)
    have hm := ordonnance_tait hbloque
    rcases hspec with hbad | ⟨k', hk', -, -, hsus⟩ | ⟨k', p', -, -, -, -, hbad⟩
    · cases (Prod.mk.inj hbad).1
    · obtain rfl : k = k' := Option.some.inj (hk.symm.trans hk')
      refine .attend (k, true) _ (hr.ajoute h.actif_libre hadd (ouverte_used hk) (by rw [hm]; rfl) (fun k' => ?_) (fun q' => ?_)
        (hsus.enAttente h rfl))
      · rw [hm]
        exact ronde_set_consum heap (by rfl) k'
      · rw [hm]
        exact used_set heap (by rfl) q'
    · cases hbad

theorem preceive_rondes {fid : Int} (h : Inv role a s p) (hr : Rondes s R W) (hs : Sain s (.appel (.preceive fid)))
    (hseul : RecepteurSeul s (.appel (.preceive fid))) (ho : preceive fid s = .ok (r, s')) : Bouge a s s' R W r := by
  have hspec := (preceive_spec fid h hs fun q hq hn => .inl (hseul q hq hn).1).of_ok ho
  rcases preceive_ok ho with ⟨-, rfl, rfl⟩ | ⟨b, k, -, -, -, hfin⟩ | ⟨b, k, prod, heap, hb, hk, hn, hadd, rfl, hbloque⟩
  · exact .reste hr (by simp) (by simp)
  · obtain ⟨⟨v, rfl⟩, hl⟩ := preceiveFin_rondes h hr hfin
    exact .recu k v hl
  · obtain rfl : a = b := Option.some.inj (h.actif.symm.trans hb)
    have hm := ordonnance_tait hbloque
    rcases hspec with hbad | ⟨k', hk', -, -, hsus⟩ | ⟨k', p', -, -, -, -, v, hbad⟩
    · cases (Prod.mk.inj hbad).1
    · obtain rfl : k = k' := Option.some.inj (hk.symm.trans hk')
      -- The ring added to is `consum`, and the one stored in is `prod`: both are NULL.
      obtain ⟨hcons, hprod⟩ := hseul k hk hn
      have hadd' : addProcess (s.messages.ronde (k, false)) a s.messages.heap = .ok (prod, heap) := by
        rw [← hadd, hcons]
        exact congrArg (addProcess · a s.messages.heap) hprod
      refine .attend (k, false) _ (hr.ajoute h.actif_libre hadd' (ouverte_used hk) (by rw [hm]; rfl) (fun k' => ?_) (fun q' => ?_)
        (hsus.enAttente h rfl))
      · rw [hm]
        exact ronde_set_prod heap (by rfl) k'
      · rw [hm]
        exact used_set heap (by rfl) q'
    · cases hbad

/-- What a step does to the processes that wait. -/
theorem joue_rondes (h : Inv role a s p) (hr : Rondes s R W) (hs : Sain s e) (hc : RecepteurSeul s e)
    (hd : e.annule = false) (ho : Pas s e r s') : Bouge a s s' R W r := by
  obtain ⟨n, p', heff⟩ := pas_spec h hs (separe_role hc.sansEmetteur) ho
  -- A step that does not touch the queues keeps them.
  by_cases he : e.transmet s = false
  · obtain ⟨hm, h₁, h₂⟩ := (joue_muet he).of_ok ho.2
    obtain ⟨hl, hech⟩ := Event.transmet_libere he
    have hm : s'.messages = s.messages := hm
    refine .reste (hr.congr (by rw [hm]) (fun k => by rw [hm]) (fun q hq => by rwa [hm] at hq) ?_) h₁ h₂
    exact heff.enAttente h hl hech
  obtain ⟨-, ho⟩ := ho
  cases e with
  | tick => exact absurd rfl he
  | suite =>
    have hcode := h.setSuite .code
    have hrcode := hr.setSuite h .code
    change poursuit s = _ at ho
    unfold poursuit at ho
    split at ho
    · next hsu => simp [Event.transmet, Suite.transmet, hsu] at he
    · next q v tmp hsu =>
      obtain ⟨rfl, hl⟩ := psendFin_rondes hcode hrcode ho
      exact .emis q v ⟨hl.rondes, hl.prete⟩
    · next q tmp hsu =>
      obtain ⟨⟨v, rfl⟩, hl⟩ := preceiveFin_rondes hcode hrcode ho
      exact .recu q v ⟨hl.rondes, hl.prete⟩
    · next hsu => simp [Event.transmet, Suite.transmet, hsu] at he
    · next hsu => simp [Event.transmet, Suite.transmet, hsu] at he
    · next hsu => simp [Event.transmet, Suite.transmet, hsu] at he
    · next hsu => simp [Event.transmet, Suite.transmet, hsu] at he
  | appel c =>
    cases c with
    | pcreate count contenu =>
      obtain ⟨rfl, rfl⟩ := Prod.mk.inj (Except.ok.inj ho)
      refine .reste (hr.pcreate count contenu rfl fun k x => ?_) (fun _ _ hv => by cases hv) fun _ _ hv => by cases hv
      exact Iff.rfl
    | pdelete fid => cases hd
    | preset fid => cases hd
    | psend fid v => exact psend_rondes h hr hs ho
    | preceive fid => exact preceive_rondes h hr hs hc ho
    | _ => exact absurd rfl he

/-! ## The order of the waits -/

/-- When `x` last ran, counted in steps. -/
def dernierPas (tr : List (St × Event × Issue)) (x : Slot) : Nat :=
  tr.length - tr.reverse.findIdx fun c => c.1.cpu.code = x

theorem dernierPas_le : dernierPas tr x ≤ tr.length := Nat.sub_le ..

theorem dernierPas_snoc :
    dernierPas (tr ++ [(s, e, r)]) x = if s.cpu.code = x then tr.length + 1 else dernierPas tr x := by
  simp only [dernierPas, List.reverse_append, List.reverse_singleton, List.singleton_append, List.findIdx_cons,
    List.length_append, List.length_singleton]
  by_cases hx : s.cpu.code = x
  · simp [hx]
  · simp [hx]

/-- The processes of each ring blocked one after the other. -/
def Ordonnees (tr : List (St × Event × Issue)) (W : Fin NBQUEUE × Bool → List Slot) : Prop :=
  ∀ k, (W k).Pairwise fun x y => dernierPas tr x < dernierPas tr y

/-- A process that waits does not run. -/
theorem Ordonnees.snoc (h : Inv role a s p) (hr : Rondes s R W) (ho : Ordonnees tr W) :
    Ordonnees (tr ++ [(s, e, r)]) W := by
  have hne : ∀ k, ∀ x ∈ W k, dernierPas (tr ++ [(s, e, r)]) x = dernierPas tr x := fun k x hx => by
    rw [dernierPas_snoc, h.cpu_code, if_neg]
    rintro rfl
    exact h.actif_libre k ((hr.attente k a).1 hx)
  intro k
  refine (ho k).imp_of_mem fun hx hy hxy => ?_
  rwa [hne k _ hx, hne k _ hy]

theorem Ordonnees.update (ho : Ordonnees tr W) {w : List Slot} (hw : w.Pairwise fun x y => dernierPas tr x < dernierPas tr y) :
    Ordonnees tr (Function.update W k w) := by
  intro k'
  by_cases hk : k' = k
  · subst hk
    rwa [Function.update_self]
  · rw [Function.update_of_ne hk]
    exact ho k'

theorem Bouge.ordonnees (hb : Bouge a s s' R W r) (h : Inv role a s p) (hr : Rondes s R W) (ho : Ordonnees tr W) :
    ∃ R' W', Rondes s' R' W' ∧ Ordonnees (tr ++ [(s, e, r)]) W' := by
  have ho' : Ordonnees (tr ++ [(s, e, r)]) W := ho.snoc h hr
  cases hb with
  | reste hr' => exact ⟨R, W, hr', ho'⟩
  | attend k l hr' =>
    refine ⟨_, _, hr', ho'.update (List.pairwise_append.2 ⟨ho' k, by simp, fun x hx y hy => ?_⟩)⟩
    obtain rfl := List.mem_singleton.1 hy
    have hxy : s.cpu.code ≠ x := by
      rw [h.cpu_code]
      rintro rfl
      exact h.actif_libre k ((hr.attente k _).1 hx)
    rw [dernierPas_snoc, dernierPas_snoc, if_neg hxy, if_pos h.cpu_code]
    exact Nat.lt_succ_of_le dernierPas_le
  | emis q v hl =>
    obtain ⟨l, hr'⟩ := hl.rondes
    exact ⟨_, _, hr', ho'.update ((ho' (q, false)).sublist (List.tail_sublist _))⟩
  | recu q v hl =>
    obtain ⟨l, hr'⟩ := hl.rondes
    exact ⟨_, _, hr', ho'.update ((ho' (q, true)).sublist (List.tail_sublist _))⟩

/-! ## Runs -/

/-- Each process that waits is in the ring of its role, once, and the rings share no cell. -/
def AttentesGardees (s : St) : Prop :=
  ∃ (R : Fin NBQUEUE × Bool → List Nat) (W : Fin NBQUEUE × Bool → List Slot),
    (∀ k, Ronde s.messages.heap (s.messages.ronde k) (R k) (W k)) ∧ (∀ k x, x ∈ W k ↔ EnAttente s k x) ∧
      (∀ k, (W k).Nodup) ∧ ∀ k k', k ≠ k' → (R k).Disjoint (R k')

/-- Of the processes that wait in a role, if any, the one that blocked first is made ready, and no other. -/
def ReveilExact (tr : List (St × Event × Issue)) (s : St) (k : Fin NBQUEUE × Bool) (s' : St) : Prop :=
  (∃ x, EnAttente s k x) → ∃ y, EnAttente s k y ∧ s'.prete y = true ∧
    ∀ x, EnAttente s k x → x ≠ y → EnAttente s' k x ∧ dernierPas tr y < dernierPas tr x

theorem Libere1.exact (hl : Libere1 s s' k R W) (hr : Rondes s R W) (ho : Ordonnees tr W) : ReveilExact tr s k s' := by
  rintro ⟨x, hx⟩
  obtain ⟨l, hr'⟩ := hl.rondes
  cases hw : W k with
  | nil =>
    have hx' := (hr.attente k x).2 hx
    rw [hw] at hx'
    cases hx'
  | cons y w =>
    have hok := ho k
    rw [hw] at hok
    refine ⟨y, (hr.attente k y).1 (by rw [hw]; simp), hl.prete y (by rw [hw]; rfl), fun z hz hzy => ?_⟩
    have hzw : z ∈ w := by
      have hz' := (hr.attente k z).2 hz
      rw [hw] at hz'
      exact (List.mem_cons.1 hz').resolve_left hzy
    refine ⟨(hr'.attente k z).1 ?_, (List.pairwise_cons.1 hok).1 z hzw⟩
    rw [Function.update_self, hw]
    exact hzw

/-- The steps of a run in which the rings are used as they should. -/
def Attentif (s : St) (e : Event) : Prop := Sain s e ∧ RecepteurSeul s e ∧ e.annule = false

theorem rondes_boot : Rondes boot (fun _ => []) (fun _ => []) := by
  have hatt : ∀ k x, ¬EnAttente boot k x := fun k x hx => by
    have hp := ((inv_boot role).enAttente.1 hx).1
    by_cases h0 : x = 0 <;> simp [placesBoot, h0] at hp
  refine ⟨fun k => ?_, fun k x => by simpa using hatt k x, fun _ => List.nodup_nil, fun _ _ => rfl⟩
  have hnone : boot.messages.ronde k = none := by
    rw [boot_eq]
    obtain ⟨q, b⟩ := k
    cases b <;> rfl
  rw [hnone]
  exact .empty _

theorem attentif_spec (hr : Parcours Attentif tr s) :
    ∃ a p R W, Inv role a s p ∧ Rondes s R W ∧ Ordonnees tr W := by
  refine hr.inv_trace (fun tr s => ∃ a p R W, Inv role a s p ∧ Rondes s R W ∧ Ordonnees tr W) ?_ ?_
  · exact ⟨0, _, _, _, inv_boot role, rondes_boot, fun _ => List.Pairwise.nil⟩
  · rintro tr s e r s' - ⟨a, p, R, W, hi, hron, hord⟩ ⟨⟨hs, hc, hd⟩, ho⟩
    obtain ⟨n, p', he⟩ := pas_spec hi hs (separe_role hc.sansEmetteur) ho
    obtain ⟨R', W', hron', hord'⟩ := (joue_rondes hi hron hs hc hd ho).ordonnees (e := e) hi hron hord
    exact ⟨n, p', R', W', he.inv, hron', hord'⟩

/-- When a receiver that blocks waits alone, no waiter is lost and the oldest is served first. -/
theorem waiters_kept (hr : Parcours Attentif tr s) :
    AttentesGardees s ∧ ∀ e r s', Attentif s e → Pas s e r s' →
      (∀ q v, r = .emis q v → ReveilExact tr s (q, false) s') ∧ ∀ q v, r = .recu q v → ReveilExact tr s (q, true) s' := by
  obtain ⟨a, p, R, W, hi, hron, hord⟩ := attentif_spec hr
  refine ⟨⟨R, W, hron.ronde, hron.attente, hron.nodup, fun k k' hk => hron.disjoint hk⟩, ?_⟩
  rintro e r s' ⟨hs, hc, hd⟩ ho
  have hb := joue_rondes hi hron hs hc hd ho
  constructor
  · rintro q v rfl
    cases hb with
    | reste _ h₁ => exact absurd rfl (h₁ q v)
    | emis _ _ hl => exact hl.exact hron hord
  · rintro q v rfl
    cases hb with
    | reste _ _ h₂ => exact absurd rfl (h₂ q v)
    | recu _ _ hl => exact hl.exact hron hord

instance (s : St) : (e : Event) → Decidable (RecepteurSeul s e)
  | .appel (.preceive fid) => inferInstanceAs (Decidable (∀ q, s.messages.ouverte fid = some q →
      (s.messages.fifoTab q).nbElement = 0 → (s.messages.fifoTab q).consum = none ∧ (s.messages.fifoTab q).prod = none))
  | .appel (.start _ _ _) | .appel (.exit _) | .appel (.retour _) | .appel (.kill _) | .appel (.chprio _ _)
  | .appel (.waitpid _ _) | .appel (.dors _) | .appel (.sleepUntil _) | .appel (.waitClock _) | .appel (.pcreate _ _)
  | .appel (.pdelete _) | .appel (.preset _) | .appel (.psend _ _) | .suite | .tick => inferInstanceAs (Decidable True)

instance (s : St) (e : Event) : Decidable (Attentif s e) := inferInstanceAs (Decidable (_ ∧ _ ∧ _))

/-- Two senders wait for room, and process 0 receives. -/
theorem waiters_kept_run :
    ∃ tr s s', Parcours Attentif tr s ∧
      (s.state 1 = .endormi ∧ s.state 2 = .endormi ∧ Pas s (.appel (.preceive 0)) (.recu ⟨0, by decide⟩ 7) s') ∧
      AttentesGardees s ∧ ReveilExact tr s (⟨0, by decide⟩, true) s' := by
  obtain ⟨tr, s, hr, h₁, h₂, hc, hx⟩ := deroule_any (P := Attentif)
    (Q := fun _ s => s.state 1 = .endormi ∧ s.state 2 = .endormi ∧ Attentif s (.appel (.preceive 0)) ∧
      ((tente s (.appel (.preceive 0))).any fun c => c.1 = .recu ⟨0, by decide⟩ 7) = true) boot
    [.appel (.pcreate 1 (some fun _ => 0)), .appel (.psend 0 7), .appel (.start 512 1 "p"), .appel (.start 512 1 "q"),
      .tick, .appel (.psend 0 8), .appel (.psend 0 9)] (by decide +kernel)
  simp only [Option.any_eq_true, decide_eq_true_eq] at hx
  obtain ⟨⟨r, s'⟩, hs', rfl⟩ := hx
  have ho := tente_eq_some.1 hs'
  obtain ⟨hg, hpas⟩ := waiters_kept hr
  exact ⟨tr, s, s', hr, ⟨h₁, h₂, ho⟩, hg, (hpas _ _ _ hc ho).2 _ _ rfl⟩

/-- Two receivers wait: the second takes the place of the first in `prod`. -/
theorem waiters_kept_fails : ¬∀ tr s, Parcours (fun _ e => e.annule = false) tr s → AttentesGardees s := by
  intro h
  obtain ⟨tr, s, hr, hl, hst, hctx, hprod, hsuiv, hproc⟩ := deroule_any (P := fun _ e => e.annule = false)
    (Q := fun _ s => s.endormiList = none ∧ s.state 1 = .endormi ∧
      (s.contexte 1).bind (fun c => c.suite.file role) = some (⟨0, by decide⟩, false) ∧
      s.messages.ronde (⟨0, by decide⟩, false) = some 1 ∧ s.messages.heap.suiv 1 = some 1 ∧
      (s.messages.heap.cell 1).map ForFifoProcess.process = some 2) boot
    [.appel (.pcreate 1 (some fun _ => 0)), .appel (.start 512 1 "p"), .appel (.start 512 1 "q"), .tick,
      .appel (.preceive 0), .appel (.preceive 0)] (by decide +kernel)
  obtain ⟨R, W, hron, hatt, -⟩ := h tr s hr
  have hr₁ := hron (⟨0, by decide⟩, false)
  have hw : (1 : Slot) ∈ W (⟨0, by decide⟩, false) := by
    refine (hatt _ 1).2 ⟨hst, ?_, hctx⟩
    rw [hl]
    nofun
  rw [hprod] at hr₁
  have hp := hr₁.procs
  rw [hr₁.loop.alone hsuiv, List.map_singleton, hproc] at hp
  have hm : some (1 : Slot) ∈ [some (2 : Slot)] := by
    rw [hp]
    exact List.mem_map_of_mem hw
  simp at hm

end Pcsea
