import Pcsea.SchedulerSpec
/-!
# What the message calls do to the processes

A sender or a receiver that finds the queue full or empty is blocked; a call
that goes through wakes at most one process, which waits on the same queue for
the other role, as far as the labels tell roles apart.
-/

namespace Pcsea

open Lib

universe u
variable {K : Type u} {f : Fin NBQUEUE → Bool → K} {s s' : St} {p p' : Slot → Place} {a i x y : Slot} {q : Fin NBQUEUE}
  {lab lab' : Nat → Option K} {m : Messages Slot}

/-- What a message call leaves alone. -/
abbrev CadreHorsFiles (s s' : St) : Prop := Cadre { s with messages := s'.messages } s'

theorem Cadre.setMessages (h : CadreHorsFiles s s') (m : Messages Slot) : CadreHorsFiles s { s' with messages := m } :=
  ⟨h.pid, h.premierFils, h.dernierFils, h.pere, h.frereDroit, h.retval, h.retvalFils, h.timeToWake, h.nbTick,
    h.processAlive, rfl, h.contexte⟩

theorem Cadre.trans_files {s'' : St} (h : CadreHorsFiles s s') (h' : CadreHorsFiles s' s'') : CadreHorsFiles s s'' :=
  (h.setMessages s''.messages).trans h'

/-- The queues have changed, and no process is waiting for them in a new ring. -/
theorem Inv.setMessages (h : Inv f a s p) (hm : Files f m lab (Attend f s p)) : Inv f a { s with messages := m } p := by
  obtain ⟨q, e, d, hr⟩ := h.rep
  exact ⟨⟨⟨⟨q, e, d, hr.congr rfl⟩, h.code, h.idle, lab, hm⟩, h.actif, h.charge, h.seul, h.place⟩, h.elu⟩

/-- `insert_activable` of a process taken out of a ring. -/
theorem Inv.reveille (h : Inv f a s p) (hy : p y = .bloque)
    (hm : Files f m lab fun z k => Attend f s p z k ∧ z ≠ y) :
    ∃ s', insertActivable y { s with messages := m } = .ok s' ∧ Inv f a s' (Function.update p y .pret) ∧
      s'.messages = m ∧ CadreHorsFiles s s' := by
  obtain ⟨q, e, d, hrep⟩ := h.rep
  have hrep' : Rep { s with messages := m } p q e d := hrep.congr rfl
  obtain ⟨next, prev, ho, hr⟩ := hrep'.insertActivable (x := y) (by simp [hy]) (by simp [hy]) (by simp [hy]) (by simp [hy])
  have hya : a ≠ y := by rintro rfl; simp [h.elu] at hy
  refine ⟨_, ho, ⟨⟨⟨⟨_, e, d, hr⟩, fun i hi => h.code i ?_, ⟨h.idle.1, ?_⟩, lab, ?_⟩, h.actif, h.charge, fun i hi => ?_, ?_⟩, ?_⟩,
    rfl, .of_eq rfl⟩
  · by_cases hiy : i = y
    · simp [hiy, hy]
    · rwa [Function.update_of_ne hiy] at hi
  · by_cases h0 : 0 = y
    · simp [h0]
    · rw [Function.update_of_ne h0]
      exact h.idle.2
  · refine hm.mono ?_
    rintro z k ⟨⟨hz, c, hc, hk⟩, hne⟩
    exact ⟨by rw [Function.update_of_ne hne, hz], c, hc, hk⟩
  · by_cases hiy : i = y
    · simp [hiy] at hi
    · exact h.seul i (by rwa [Function.update_of_ne hiy] at hi)
  · rw [Function.update_of_ne hya]
    exact h.place
  · rw [Function.update_of_ne hya]
    exact h.elu

/-- At most one process was woken, from a ring of label `k`. -/
def Debloque (f : Fin NBQUEUE → Bool → K) (s : St) (k : K) (p p' : Slot → Place) : Prop :=
  p' = p ∨ ∃ y, Attend f s p y k ∧ p' = Function.update p y .pret

theorem reveille_spec {r : Option Slot} {k : K} (h : Inv f a s p)
    (hm : (r = none ∧ Files f m lab (Attend f s p)) ∨
      ∃ y lab', r = some y ∧ Attend f s p y k ∧ Files f m lab' fun z k => Attend f s p z k ∧ z ≠ y) :
    ∃ s' p', reveille r { s with messages := m } = .ok s' ∧ Inv f a s' p' ∧ Debloque f s k p p' ∧ s'.messages = m ∧
      CadreHorsFiles s s' := by
  rcases hm with ⟨rfl, hm⟩ | ⟨y, lab', rfl, hy, hm⟩
  · exact ⟨_, p, rfl, h.setMessages hm, .inl rfl, rfl, .of_eq rfl⟩
  · obtain ⟨s', ho, hi, hm', hc⟩ := h.reveille hy.1 hm
    exact ⟨s', _, ho, hi, .inr ⟨y, hy, rfl⟩, hm', hc⟩

theorem psendFin_spec (h : Inv f a s p) (q : Fin NBQUEUE) (message : Int) (tmp : Slot) :
    Ensures (Echec False) (psendFin q message tmp s) fun r =>
      ∃ p', Inv f a r.2 p' ∧ Debloque f s (f q false) p p' ∧ CadreHorsFiles s r.2 ∧ r.1 = .emis q message := by
  obtain ⟨lab, hlab⟩ := h.rings
  refine Ensures.bind ((psendSuite_spec hlab s.pid q message tmp).mono (fun _ hx hf => hx hf) fun _ hr => hr) ?_
  rintro ⟨r, y, m⟩ ⟨hr, hm⟩
  obtain ⟨s', p', ho, hi, hd, -, hc⟩ := reveille_spec h hm
  dsimp only at hr ⊢
  rw [ho, ok_bind, ensures_ok, if_pos hr]
  exact ⟨p', hi, hd, hc, rfl⟩

theorem preceiveFin_spec (h : Inv f a s p) (q : Fin NBQUEUE) (tmp : Slot) :
    Ensures (Echec False) (preceiveFin q tmp s) fun r =>
      ∃ p', Inv f a r.2 p' ∧ Debloque f s (f q true) p p' ∧ CadreHorsFiles s r.2 ∧ ∃ v, r.1 = .recu q v := by
  obtain ⟨lab, hlab⟩ := h.rings
  refine Ensures.bind ((preceiveSuite_spec hlab s.pid q tmp).mono (fun _ hx hf => hx hf) fun _ hr => hr) ?_
  rintro ⟨r, y, m⟩ ⟨⟨v, hv⟩, hm⟩
  obtain ⟨s', p', ho, hi, hd, -, hc⟩ := reveille_spec h hm
  dsimp only at hv ⊢
  subst hv
  rw [ho, ok_bind]
  exact ⟨p', hi, hd, hc, v, rfl⟩

/-- What `psend` did after the wait, when it came back and no call is cancelled. -/
theorem psendFin_ok {message : Int} {tmp : Slot} {r : Issue} (hs : s.messages.shouldReceiveNegativeOne = none)
    (ho : psendFin q message tmp s = .ok (r, s')) :
    r = .emis q message ∧ ∃ m,
      psendSuite s.pid s.messages q message tmp = .ok (0, premier s.messages.heap (s.messages.fifoTab q).prod, m) ∧
      reveille (premier s.messages.heap (s.messages.fifoTab q).prod) { s with messages := m } = .ok s' := by
  obtain ⟨⟨w, o, m⟩, h₁, hfin⟩ := bind_eq_ok.1 ho
  obtain ⟨tab, tab', prod, heap, -, -, -, -, he⟩ := psendSuite_ok hs h₁
  obtain ⟨rfl, rfl, rfl⟩ := Prod.mk.inj he |>.imp id Prod.mk.inj
  obtain ⟨h₂, rfl⟩ := bind_answer_eq_ok.1 hfin
  exact ⟨rfl, _, h₁, h₂⟩

/-- And `preceive`. -/
theorem preceiveFin_ok {tmp : Slot} {r : Issue} (hs : s.messages.shouldReceiveNegativeOne = none)
    (ho : preceiveFin q tmp s = .ok (r, s')) :
    ∃ v m, r = .recu q v ∧
      preceiveSuite s.pid s.messages q tmp = .ok (some v, premier s.messages.heap (s.messages.fifoTab q).consum, m) ∧
      reveille (premier s.messages.heap (s.messages.fifoTab q).consum) { s with messages := m } = .ok s' := by
  obtain ⟨⟨w, o, m⟩, h₁, hfin⟩ := bind_eq_ok.1 ho
  obtain ⟨tab, v, consum, heap, -, -, -, he⟩ := preceiveSuite_ok hs h₁
  obtain ⟨rfl, rfl, rfl⟩ := Prod.mk.inj he |>.imp id Prod.mk.inj
  obtain ⟨h₂, rfl⟩ := bind_answer_eq_ok.1 hfin
  exact ⟨v, _, rfl, h₁, h₂⟩

/-! ## Blocking -/

/-- Another process can run while `actif` waits. -/
def PeutAttendre (s : St) : Prop := queueEmpty s = false ∨ ∃ x, Echu s x

/-- The state in which a blocking call calls `ordonnance()`. -/
def enAttente (a : Slot) (suite : Suite) (m : Messages Slot) (s : St) : St :=
  ({ s with messages := m }.setState a .endormi).setSuite suite

theorem contexte_enAttente (h : Inv f a s p) (suite : Suite) (m : Messages Slot) :
    (enAttente a suite m s).contexte a = some ⟨a, suite⟩ ∧ ∀ i, i ≠ a → (enAttente a suite m s).contexte i = s.contexte i := by
  obtain ⟨c, hc, hcode⟩ := h.code a (by simp [h.elu])
  rw [St.contexte, if_pos h.charge.symm, Option.some.injEq] at hc
  refine ⟨?_, fun i hi => ?_⟩
  · show (if a = s.charge then some (⟨s.cpu.code, suite⟩ : Contexte) else s.regs a) = _
    rw [if_pos h.charge.symm, hc, hcode]
  · have hi' : i ≠ s.charge := by rwa [h.charge]
    show (if i = s.charge then some (⟨s.cpu.code, suite⟩ : Contexte) else s.regs i) = _
    rw [St.contexte, if_neg hi', if_neg hi']

/-- Who waited still waits when `actif` is blocked, and `actif` waits too. -/
theorem attend_enAttente (h : Inv f a s p) (suite : Suite) (m : Messages Slot) {k : K} (hk : suite.file f = some k) :
    (∀ y k, Attend f s p y k → Attend f (enAttente a suite m s) (Function.update p a .bloque) y k) ∧
      Attend f (enAttente a suite m s) (Function.update p a .bloque) a k := by
  obtain ⟨h₁, h₂⟩ := contexte_enAttente h suite m
  refine ⟨?_, Function.update_self .., _, h₁, hk⟩
  rintro y k ⟨hy, c, hc, hk⟩
  have hya : y ≠ a := by rintro rfl; simp [h.elu] at hy
  exact ⟨by rw [Function.update_of_ne hya, hy], c, (h₂ y hya).trans hc, hk⟩

theorem bloque_spec {suite : Suite} (h : Inv f a s p) (hw : PeutAttendre s)
    (hm : Files f m lab (Attend f (enAttente a suite m s) (Function.update p a .bloque))) :
    Ensures (Echec False) (bloque a suite { s with messages := m }) fun s' =>
      ∃ n p', Inv f n s' p' ∧ Cadre (enAttente a suite m s) s' ∧ p' a = .bloque ∧
        ∀ i, i ≠ a → p' i = p i ∨ ((p i = .pret ∨ p i = .endormi ∧ s.timeToWake i ≤ s.nbTick) ∧ (p' i = .elu ∨ p' i = .pret)) := by
  obtain ⟨q, e, d, hrep⟩ := h.rep
  obtain ⟨h₁, h₂⟩ := contexte_enAttente h suite m
  obtain ⟨hq, he, hd⟩ := hrep.notMem (x := a) (by simp [h.elu]) (by simp [h.elu]) (by simp [h.elu])
  have hrep' : Rep (enAttente a suite m s) (Function.update p a .bloque) q e d := by
    have hl : Lists (enAttente a suite m s) q e d := hrep.lists.congr rfl rfl rfl rfl rfl rfl rfl
    refine hrep.move hl hrep.sorted rfl rfl rfl (by simp [h.elu]) (by simp) ?_ ?_ ?_
    all_goals
      intro i
      split <;> simp_all
  have hpi : ∀ i, i ≠ a → Function.update p a Place.bloque i = p i := fun i hi => Function.update_of_ne hi ..
  have hquasi : Quasi f a (enAttente a suite m s) (Function.update p a .bloque) := by
    refine ⟨⟨⟨q, e, d, hrep'⟩, fun i hi => ?_, ⟨h.idle.1, ?_⟩, lab, hm⟩, h.actif, h.charge, fun i hi => ?_,
      .inr (.inr (Function.update_self ..))⟩
    · by_cases hia : i = a
      · subst hia
        exact ⟨_, h₁, rfl⟩
      · obtain ⟨c, hc, hcode⟩ := h.code i (hpi i hia ▸ hi)
        exact ⟨c, (h₂ i hia).trans hc, hcode⟩
    · by_cases h0 : 0 = a
      · simp [h0]
      · rw [hpi 0 h0]
        exact h.idle.2
    · by_contra hia
      exact hia (h.seul i (hpi i hia ▸ hi))
  have hgo : Function.update p a Place.bloque a = .elu ∨ (∃ i, Function.update p a Place.bloque i = .pret) ∨
      ∃ x, Echu (enAttente a suite m s) x := by
    rcases hw with hw | hw
    · exact .inr (.inl (h.autre_pret hw))
    · exact .inr (.inr hw)
  refine (ordonnance_spec hquasi hgo).mono ?_ ?_
  -- A blocked process is in no list, so it cannot be woken and queued twice.
  · rintro y ⟨-, ⟨hl, -⟩, -⟩ -
    rw [hrep'.lists.sleep.head] at hl
    exact he (List.mem_of_head? hl)
  · rintro s' ⟨n, p', hi, hcd, hord⟩
    refine ⟨n, p', hi, hcd, ?_, fun i hia => ?_⟩
    · have := hord a
      rw [Function.update_self] at this
      simpa using this
    · exact hord.autre h (fun _ _ => rfl) rfl hia

/-- Blocked at `suite`, or gone through. -/
def Suspendu (f : Fin NBQUEUE → Bool → K) (a : Slot) (suite : Suite) (s s' : St) (p : Slot → Place) : Prop :=
  ∃ n p', Inv f n s' p' ∧ Cadre (enAttente a suite s'.messages s) s' ∧ p' a = .bloque ∧
    ∀ i, i ≠ a → p' i = p i ∨ ((p i = .pret ∨ p i = .endormi ∧ s.timeToWake i ≤ s.nbTick) ∧ (p' i = .elu ∨ p' i = .pret))

theorem psend_spec (fid message : Int) (h : Inv f a s p)
    (hw : ∀ q, s.messages.ouverte fid = some q → (s.messages.fifoTab q).nbElement = (s.messages.fifoTab q).size →
      PeutAttendre s) :
    Ensures (Echec False) (psend fid message s) fun r =>
      r = (.rend (-1), s) ∨
      (∃ q, s.messages.ouverte fid = some q ∧ (s.messages.fifoTab q).nbElement = (s.messages.fifoTab q).size ∧
        r.1 = .enCours ∧ Suspendu f a (.psend q message a) s r.2 p) ∨
      ∃ q p', s.messages.ouverte fid = some q ∧ Inv f a r.2 p' ∧ Debloque f s (f q false) p p' ∧ CadreHorsFiles s r.2 ∧
        r.1 = .emis q message := by
  obtain ⟨lab, hlab⟩ := h.rings
  have hnot : ∀ k, ¬Attend f s p a k := fun k hk => by simpa [h.elu] using hk.1
  rw [psend, h.deref, ok_bind]
  refine Ensures.bind ((psendEntree_spec hlab hnot fid).mono (fun _ hx hf => hx hf) fun _ hr => hr) ?_
  rintro ⟨e, m⟩ (hr | ⟨q, hq, hr⟩ | ⟨q, hq, rfl, hnb, hm⟩)
  · obtain ⟨rfl, rfl⟩ := Prod.mk.inj hr
    exact .inl rfl
  · obtain ⟨rfl, rfl⟩ := Prod.mk.inj hr
    refine (psendFin_spec h q message a).post ?_
    rintro r ⟨p', hi, hd, hc, hr⟩
    exact .inr (.inr ⟨q, p', hq, hi, hd, hc, hr⟩)
  · obtain ⟨h₁, h₂⟩ := attend_enAttente (f := f) h (.psend q message a) m (k := f q true) rfl
    obtain ⟨lab', hm'⟩ := hm _ h₁ h₂
    refine Ensures.bind (bloque_spec h (hw q hq hnb) hm') ?_
    rintro s' ⟨n, p', hi, hcd, hpa, hpi⟩
    refine .inr (.inl ⟨q, hq, hnb, rfl, n, p', hi, ?_, hpa, hpi⟩)
    rwa [show s'.messages = m from hcd.messages]

theorem preceive_spec (fid : Int) (h : Inv f a s p)
    (hw : ∀ q, s.messages.ouverte fid = some q → (s.messages.fifoTab q).nbElement = 0 → PeutAttendre s)
    (hf : ∀ q, s.messages.ouverte fid = some q → (s.messages.fifoTab q).nbElement = 0 →
      (s.messages.fifoTab q).consum = none ∨ f q true = f q false) :
    Ensures (Echec False) (preceive fid s) fun r =>
      r = (.rend (-1), s) ∨
      (∃ q, s.messages.ouverte fid = some q ∧ (s.messages.fifoTab q).nbElement = 0 ∧ r.1 = .enCours ∧
        Suspendu f a (.preceive q a) s r.2 p) ∨
      ∃ q p', s.messages.ouverte fid = some q ∧ Inv f a r.2 p' ∧ Debloque f s (f q true) p p' ∧ CadreHorsFiles s r.2 ∧
        ∃ v, r.1 = .recu q v := by
  obtain ⟨lab, hlab⟩ := h.rings
  have hnot : ∀ k, ¬Attend f s p a k := fun k hk => by simpa [h.elu] using hk.1
  rw [preceive, h.deref, ok_bind]
  refine Ensures.bind ((preceiveEntree_spec hlab hnot fid hf).mono (fun _ hx hf => hx hf) fun _ hr => hr) ?_
  rintro ⟨e, m⟩ (hr | ⟨q, hq, hr⟩ | ⟨q, hq, rfl, hnb, hm⟩)
  · obtain ⟨rfl, rfl⟩ := Prod.mk.inj hr
    exact .inl rfl
  · obtain ⟨rfl, rfl⟩ := Prod.mk.inj hr
    refine (preceiveFin_spec h q a).post ?_
    rintro r ⟨p', hi, hd, hc, hr⟩
    exact .inr (.inr ⟨q, p', hq, hi, hd, hc, hr⟩)
  · obtain ⟨h₁, h₂⟩ := attend_enAttente (f := f) h (.preceive q a) m (k := f q false) rfl
    obtain ⟨lab', hm'⟩ := hm _ h₁ h₂
    refine Ensures.bind (bloque_spec h (hw q hq hnb) hm') ?_
    rintro s' ⟨n, p', hi, hcd, hpa, hpi⟩
    refine .inr (.inl ⟨q, hq, hnb, rfl, n, p', hi, ?_, hpa, hpi⟩)
    rwa [show s'.messages = m from hcd.messages]

/-- What `psend` did when it came back: nothing, the send, or a wait that it begins. -/
theorem psend_ok {fid message : Int} {r : Issue} (ho : psend fid message s = .ok (r, s')) :
    (s.messages.ouverte fid = none ∧ r = .rend (-1) ∧ s' = s) ∨
    (∃ a q, s.actif = some a ∧ s.messages.ouverte fid = some q ∧ (s.messages.fifoTab q).nbElement ≠ (s.messages.fifoTab q).size ∧
      psendFin q message a s = .ok (r, s')) ∨
    ∃ a q consum heap, s.actif = some a ∧ s.messages.ouverte fid = some q ∧
      (s.messages.fifoTab q).nbElement = (s.messages.fifoTab q).size ∧
      addProcess (s.messages.fifoTab q).consum a s.messages.heap = .ok (consum, heap) ∧ r = .enCours ∧
      bloque a (.psend q message a)
        { s with messages := { s.messages.set q { s.messages.fifoTab q with consum } with heap } } = .ok s' := by
  obtain ⟨a, ha, ho⟩ := bind_eq_ok.1 ho
  obtain ⟨c, hc, hsuite⟩ := bind_eq_ok.1 ho
  rcases psendEntree_ok hc with ⟨hq, rfl⟩ | ⟨q, hq, hn, rfl⟩ | ⟨q, consum, heap, hq, hn, hadd, rfl⟩
  · obtain ⟨rfl, rfl⟩ := Prod.mk.inj (Except.ok.inj hsuite)
    exact .inl ⟨hq, rfl, rfl⟩
  · exact .inr (.inl ⟨a, q, deref_eq_ok.1 ha, hq, hn, hsuite⟩)
  · obtain ⟨hb, rfl⟩ := bind_answer_eq_ok.1 hsuite
    exact .inr (.inr ⟨a, q, consum, heap, deref_eq_ok.1 ha, hq, hn, hadd, rfl, hb⟩)

/-- And `preceive`. -/
theorem preceive_ok {fid : Int} {r : Issue} (ho : preceive fid s = .ok (r, s')) :
    (s.messages.ouverte fid = none ∧ r = .rend (-1) ∧ s' = s) ∨
    (∃ a q, s.actif = some a ∧ s.messages.ouverte fid = some q ∧ (s.messages.fifoTab q).nbElement ≠ 0 ∧
      preceiveFin q a s = .ok (r, s')) ∨
    ∃ a q prod heap, s.actif = some a ∧ s.messages.ouverte fid = some q ∧ (s.messages.fifoTab q).nbElement = 0 ∧
      addProcess (s.messages.fifoTab q).consum a s.messages.heap = .ok (prod, heap) ∧ r = .enCours ∧
      bloque a (.preceive q a)
        { s with messages := { s.messages.set q { s.messages.fifoTab q with prod } with heap } } = .ok s' := by
  obtain ⟨a, ha, ho⟩ := bind_eq_ok.1 ho
  obtain ⟨c, hc, hsuite⟩ := bind_eq_ok.1 ho
  rcases preceiveEntree_ok hc with ⟨hq, rfl⟩ | ⟨q, hq, hn, rfl⟩ | ⟨q, prod, heap, hq, hn, hadd, rfl⟩
  · obtain ⟨rfl, rfl⟩ := Prod.mk.inj (Except.ok.inj hsuite)
    exact .inl ⟨hq, rfl, rfl⟩
  · exact .inr (.inl ⟨a, q, deref_eq_ok.1 ha, hq, hn, hsuite⟩)
  · obtain ⟨hb, rfl⟩ := bind_answer_eq_ok.1 hsuite
    exact .inr (.inr ⟨a, q, prod, heap, deref_eq_ok.1 ha, hq, hn, hadd, rfl, hb⟩)

/-! ## `pdelete` and `preset` -/

/-- The loops leave `prod` alone. -/
theorem reveilleUn_prod {fifo : FifoProcess} (ho : reveilleUn q fifo s = .ok s') :
    (s'.messages.fifoTab q).prod = (s.messages.fifoTab q).prod := by
  simp only [reveilleUn, bind_eq_ok, Except.ok.injEq, deref_eq_ok] at ho
  obtain ⟨⟨consum, y, heap⟩, -, y, -, s₁, ha, ⟨new, heap'⟩, -, rfl⟩ := ho
  have hm : s₁.messages = { s.messages.set q { s.messages.fifoTab q with consum } with heap } := by
    simp only [insertActivable, queueAdd, bind_eq_ok, Except.ok.injEq] at ha
    obtain ⟨_, -, _, -, _, -, rfl⟩ := ha
    rfl
  show (s₁.messages.fifoTab q).prod = _
  rw [hm]
  simp [Messages.set]

/-- With a receiver waiting, the second loop never ends well. -/
theorem reveilleProd_ok {n : Nat} (ho : reveilleProd q n s = .ok s') : (s.messages.fifoTab q).prod = none ∧ s' = s := by
  induction n generalizing s with
  | zero => cases ho
  | succ n ih =>
    unfold reveilleProd at ho
    split at ho
    · next he =>
      simp only [isEmpty, Option.isNone_iff_eq_none] at he
      exact ⟨he, (Except.ok.inj ho).symm⟩
    · next he =>
      obtain ⟨s₁, h₁, h₂⟩ := bind_eq_ok.1 ho
      obtain ⟨hn, -⟩ := ih h₂
      rw [reveilleUn_prod h₁] at hn
      simp [isEmpty, hn] at he

/-- Some of the senders were woken. -/
def Liberes (f : Fin NBQUEUE → Bool → K) (s : St) (k : K) (p p' : Slot → Place) : Prop :=
  ∀ i, p' i = p i ∨ (Attend f s p i k ∧ p' i = .pret)

theorem reveilleUn_spec (h : Inv f a s p) (ho : reveilleUn q (s.messages.fifoTab q).consum s = .ok s') :
    ∃ p', Inv f a s' p' ∧ CadreHorsFiles s s' ∧ Liberes f s (f q true) p p' := by
  obtain ⟨lab, hlab⟩ := h.rings
  simp only [reveilleUn, bind_eq_ok, Except.ok.injEq, deref_eq_ok] at ho
  obtain ⟨⟨consum, y', heap⟩, he, y, rfl, s₁, ha, ⟨new, heap'⟩, hn, rfl⟩ := ho
  cases ht : (s.messages.fifoTab q).consum with
  | none =>
    rw [ht] at he
    cases he
  | some t =>
    rw [ht] at he
    obtain ⟨y', lab', hy', hy, hc, hs, hv⟩ := hlab.cells.extrait (hlab.consum q t ht) he
    cases hy'
    have hm : Files f { s.messages.set q { s.messages.fifoTab q with consum } with heap } lab'
        fun z k => Attend f s p z k ∧ z ≠ y :=
      hlab.set hc hs hv fun t ht => hs _ _ (hlab.prod q t ht)
    obtain ⟨s₂, ho₂, hi, hm₂, hcd⟩ := h.reveille hy.1 hm
    obtain rfl : s₁ = s₂ := Except.ok.inj (ha.symm.trans ho₂)
    obtain ⟨lab₂, hlab₂⟩ := hi.rings
    rw [hlab₂.silent] at hn
    refine ⟨_, hi.setMessages (hlab₂.fuite hn), hcd.setMessages _, fun i => ?_⟩
    by_cases hiy : i = y
    · exact .inr ⟨hiy ▸ hy, by rw [hiy, Function.update_self]⟩
    · exact .inl (Function.update_of_ne hiy ..)

theorem Liberes.trans {s₁ : St} {p₁ : Slot → Place} {k : K} (h : Liberes f s k p p₁) (hc : s₁.contexte = s.contexte)
    (h' : Liberes f s₁ k p₁ p') : Liberes f s k p p' := by
  intro i
  rcases h' i with he | ⟨⟨hb, c, hcx, hk⟩, he⟩
  · rw [he]
    exact h i
  · refine .inr ⟨⟨?_, c, hc ▸ hcx, hk⟩, he⟩
    rcases h i with h₁ | ⟨-, h₁⟩
    · rw [← h₁, hb]
    · simp [hb] at h₁

theorem reveilleConsum_spec {n : Nat} (h : Inv f a s p) (ho : reveilleConsum q n s = .ok s') :
    ∃ p', Inv f a s' p' ∧ CadreHorsFiles s s' ∧ Liberes f s (f q true) p p' := by
  induction n generalizing s p with
  | zero => cases ho
  | succ n ih =>
    unfold reveilleConsum at ho
    split at ho
    · obtain rfl := Except.ok.inj ho
      exact ⟨p, h, .refl s, fun i => .inl rfl⟩
    · obtain ⟨s₁, h₁, h₂⟩ := bind_eq_ok.1 ho
      obtain ⟨p₁, hi₁, hc₁, hl₁⟩ := reveilleUn_spec h h₁
      obtain ⟨p', hi, hc, hl⟩ := ih hi₁ h₂
      exact ⟨p', hi, hc₁.trans_files hc, hl₁.trans hc₁.contexte hl⟩

theorem reveilleTous_spec (h : Inv f a s p) (ho : reveilleTous q s = .ok s') :
    ∃ p', Inv f a s' p' ∧ CadreHorsFiles s s' ∧ Liberes f s (f q true) p p' := by
  obtain ⟨s₁, h₁, h₂⟩ := bind_eq_ok.1 ho
  obtain ⟨-, rfl⟩ := reveilleProd_ok h₂
  exact reveilleConsum_spec h h₁

theorem videFifo_spec {φ : FifoMessages → FifoMessages} (hφ : Neutre φ) {fid : Int} {r : Issue} (h : Inv f a s p)
    (ho : videFifo φ fid s = .ok (r, s')) :
    (r = .rend (-1) ∧ s' = s) ∨
      ∃ q p', s.messages.ouverte fid = some q ∧ r = .rend 0 ∧ Inv f a s' p' ∧ CadreHorsFiles s s' ∧ Liberes f s (f q true) p p' := by
  unfold videFifo at ho
  split at ho
  · obtain ⟨rfl, rfl⟩ := Prod.mk.inj (Except.ok.inj ho)
    exact .inl ⟨rfl, rfl⟩
  · next q hq =>
    obtain ⟨h₁, rfl⟩ := bind_answer_eq_ok.1 ho
    obtain ⟨lab, hlab⟩ := h.rings
    have hg : Inv f a { s with messages := s.messages.set q (φ (s.messages.fifoTab q)) } p :=
      h.setMessages (hlab.set_tails (hφ.consum _) (hφ.prod _))
    obtain ⟨p', hi, hc, hl⟩ := reveilleTous_spec hg h₁
    exact .inr ⟨q, p', hq, rfl, hi, hc.of_reste rfl, hl⟩

end Pcsea
