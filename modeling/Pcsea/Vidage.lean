import Pcsea.Annulation
import Pcsea.Rondes
/-!
# `pdelete` and `preset`

The first loop empties `consum`: it wakes the senders one by one. The second
reads `prod` and stores in `consum`, so it never empties `prod`: the calls end
when, and only when, no receiver waits.
-/

namespace Pcsea

open Lib

variable {s s' : St} {p p' : Slot → Place} {a x y : Slot} {e : Event} {r : Issue} {tr : List (St × Event × Issue)}
  {q : Fin NBQUEUE} {R R' : Fin NBQUEUE × Bool → List Nat} {W : Fin NBQUEUE × Bool → List Slot} {w : List Slot}

/-! ## The first loop -/

/-- A cell that no ring holds. -/
theorem Rondes.fuite {new : FifoProcess} {heap : Heap Slot} (hr : Rondes s R W)
    (ho : addProcess none y s.messages.heap = .ok (new, heap)) :
    Rondes { s with messages := { s.messages with heap } } R W := by
  obtain ⟨-, -, ⟨-, hcell⟩ | ⟨f, c, hf, -⟩⟩ := addProcess_cell (by rintro f ⟨⟩) ho
  · refine ⟨fun k => (hr.ronde k).congr fun b hb => ?_, hr.attente, hr.nodup, hr.vierge⟩
    rw [hcell, if_neg ((hr.ronde k).lt hb).ne]
  · cases hf

/-- One round of the loop on `consum`. -/
theorem reveilleUn_exact (h : Inv role a s p) (hr : Rondes s R W) (hw : W (q, true) = y :: w) :
    ∃ s' l consum, reveilleUn q (s.messages.fifoTab q).consum s = .ok s' ∧ Inv role a s' (Function.update p y .pret) ∧
      Rondes s' (Function.update R (q, true) l) (Function.update W (q, true) w) ∧
      s'.messages.fifoTab = Function.update s.messages.fifoTab q { s.messages.fifoTab q with consum } := by
  obtain ⟨lab, hlab⟩ := h.rings
  have hrk := hr.ronde (q, true)
  rw [hw] at hrk
  obtain ⟨t, ht⟩ : ∃ t, (s.messages.fifoTab q).consum = some t := by
    refine Option.ne_none_iff_exists'.1 fun hn => ?_
    cases hrk.none_iff.1 hn
  obtain ⟨b, l, hR⟩ : ∃ b l, R (q, true) = b :: l := by
    cases hR : R (q, true) with
    | nil =>
      rw [hR] at hrk
      cases hrk.none_iff.1 (hrk.loop.tail_none.2 rfl)
    | cons b l => exact ⟨b, l, rfl⟩
  rw [hR] at hrk
  obtain ⟨consum, heap, hx, -, -⟩ := extractProcess_ronde hrk
  have hx : extractProcess (s.messages.fifoTab q).consum s.messages.heap = .ok (consum, some y, heap) := hx
  rw [ht] at hx
  obtain ⟨y', lab', hy', hy, hc, hs, hv⟩ := hlab.cells.extrait (hlab.consum q t ht) hx
  obtain rfl := Option.some.inj hy'
  have hm : Files role { s.messages.set q { s.messages.fifoTab q with consum } with heap } lab'
      fun z k => Attend role s p z k ∧ z ≠ y :=
    hlab.set hc hs hv fun t ht => hs _ _ (hlab.prod q t ht)
  obtain ⟨s₁, ho₁, hi, hm₁, -⟩ := h.reveille hy.1 hm
  rw [← ht] at hx
  have hl := reveille_rondes (k := (q, true)) lab h hr (.inr ⟨y, lab', rfl, hy, hm⟩) hx
    (ronde_set_consum heap (by rfl)) (used_set heap (by rfl)) ho₁
  obtain ⟨l', hr₁⟩ := hl.rondes
  rw [hw, List.tail_cons] at hr₁
  obtain ⟨lab₁, hlab₁⟩ := hi.rings
  obtain ⟨⟨new, heap'⟩, hn⟩ : ∃ c, addProcess none y s₁.messages.heap = .ok c := ⟨_, rfl⟩
  have ho : reveilleUn q (s.messages.fifoTab q).consum s = .ok { s₁ with messages := { s₁.messages with heap := heap' } } := by
    rw [reveilleUn, hx, ok_bind]
    dsimp only
    rw [deref_some, ok_bind, ho₁, ok_bind, hlab₁.silent, hn]
    rfl
  -- The cell `add_process` allocates for the process is in no ring: it is lost.
  exact ⟨_, l', consum, ho, hi.setMessages (hlab₁.fuite hn), hr₁.fuite hn, by rw [hm₁]; rfl⟩

/-- The loop wakes all the senders. -/
theorem reveilleConsum_exact {n : Nat} (h : Inv role a s p) (hr : Rondes s R W) (hw : W (q, true) = w) (hn : w.length < n) :
    ∃ s' R', reveilleConsum q n s = .ok s' ∧ Inv role a s' (fun x => if x ∈ w then .pret else p x) ∧
      Rondes s' R' (Function.update W (q, true) []) ∧
      s'.messages.fifoTab = Function.update s.messages.fifoTab q { s.messages.fifoTab q with consum := none } := by
  -- On the waiters: each turn wakes the one at the head of the ring.
  induction w generalizing n s p R W with
  | nil =>
    obtain ⟨n, rfl⟩ := Nat.exists_eq_add_of_lt hn
    have hnone : (s.messages.fifoTab q).consum = none := by
      have hrk := hr.ronde (q, true)
      rw [hw] at hrk
      exact hrk.none_iff.2 rfl
    refine ⟨s, R, ?_, by simpa using h, ?_, ?_⟩
    · rw [reveilleConsum, hnone]
      rfl
    · rw [← hw, Function.update_eq_self]
      exact hr
    · rw [← hnone, Function.update_eq_self]
  | cons y w ih =>
    obtain ⟨n, rfl⟩ : ∃ m, n = m + 1 := ⟨n - 1, by omega⟩
    obtain ⟨s₁, l, consum, ho₁, hi₁, hr₁, hf₁⟩ := reveilleUn_exact h hr hw
    obtain ⟨s', R', ho, hi, hr', hf⟩ := ih (n := n) hi₁ hr₁ (Function.update_self ..) (by simpa using hn)
    have hne : isEmpty (s.messages.fifoTab q).consum = false := by
      have hrk := hr.ronde (q, true)
      rw [hw] at hrk
      rw [isEmpty, Option.isNone_eq_false_iff, Option.isSome_iff_ne_none]
      intro hnone
      cases hrk.none_iff.1 hnone
    refine ⟨s', R', ?_, ?_, ?_, ?_⟩
    · rw [reveilleConsum, hne, ho₁]
      exact ho
    · refine Eq.mp (congrArg _ ?_) hi
      funext x
      by_cases hxy : x = y
      · subst hxy
        simp
      · simp [hxy]
    · rw [Function.update_idem] at hr'
      exact hr'
    · rw [hf, hf₁, Function.update_idem, Function.update_self]

/-! ## The entry of the queue -/

/-- The entry of queue `q` rewritten. -/
def St.entree (s : St) (q : Fin NBQUEUE) (φ : FifoMessages → FifoMessages) : St :=
  { s with messages := s.messages.set q (φ (s.messages.fifoTab q)) }

theorem queueAddScan_messages {s : St} (m : Messages Slot) (P n : Nat) (cur : Maillon) :
    queueAddScan { s with messages := m } P n cur = queueAddScan s P n cur := by
  induction n generalizing cur with
  | zero => rfl
  | succ n ih =>
    unfold queueAddScan
    congr 1
    funext c
    cases c with
    | head => rfl
    | elem i => simp only [ih]

/-- Making a process ready does not look at the queues. -/
theorem insertActivable_messages {s : St} (m : Messages Slot) (ho : insertActivable x s = .ok s') :
    insertActivable x { s with messages := m } = .ok { s' with messages := m } := by
  obtain ⟨u, h₁, ho⟩ := bind_eq_ok.1 ho
  obtain ⟨cur, h₂, ho⟩ := bind_eq_ok.1 ho
  obtain ⟨b, h₃, ho⟩ := bind_eq_ok.1 ho
  obtain rfl := Except.ok.inj ho
  refine bind_eq_ok.2 ⟨u, h₁, bind_eq_ok.2 ⟨cur, ?_, bind_eq_ok.2 ⟨b, h₃, rfl⟩⟩⟩
  rw [← h₂]
  exact queueAddScan_messages (s := (s.setState x .activable).setSuiv x none) m ..

section Entree

variable {φ : FifoMessages → FifoMessages} {fid : Int} (hφ : Neutre φ)

include hφ in
theorem reveilleUn_entree {fifo : FifoProcess} (ho : reveilleUn q fifo s = .ok s') :
    reveilleUn q fifo (s.entree q φ) = .ok (s'.entree q φ) := by
  obtain ⟨⟨consum, o, heap⟩, h₁, ho⟩ := bind_eq_ok.1 ho
  obtain ⟨y, h₂, ho⟩ := bind_eq_ok.1 ho
  obtain ⟨s₁, h₃, ho⟩ := bind_eq_ok.1 ho
  obtain ⟨⟨new, heap'⟩, h₄, ho⟩ := bind_eq_ok.1 ho
  have hm : s₁.messages = _ := insertActivable_tait h₃
  obtain rfl := Except.ok.inj ho
  have h₃' := insertActivable_messages
    { (s.entree q φ).messages.set q { (s.entree q φ).messages.fifoTab q with consum } with heap } h₃
  rw [hm] at h₄
  refine bind_eq_ok.2 ⟨(consum, o, heap), h₁, bind_eq_ok.2 ⟨y, h₂, bind_eq_ok.2 ⟨_, h₃', bind_eq_ok.2 ⟨(new, heap'), h₄, ?_⟩⟩⟩⟩
  refine congrArg (fun m => Except.ok { s₁ with messages := m }) ?_
  rw [hm]
  simp only [Messages.set, St.entree, Function.update_self, Function.update_idem]
  rw [hφ.setConsum (s.messages.fifoTab q) consum]

include hφ in
theorem reveilleConsum_entree {n : Nat} (ho : reveilleConsum q n s = .ok s') :
    reveilleConsum q n (s.entree q φ) = .ok (s'.entree q φ) := by
  have hce : ∀ t : St, ((t.entree q φ).messages.fifoTab q).consum = (t.messages.fifoTab q).consum := fun t => by
    simp [St.entree, Messages.set, hφ.consum]
  induction n generalizing s with
  | zero => cases ho
  | succ n ih =>
    unfold reveilleConsum at ho ⊢
    rw [hce]
    split at ho
    · next he =>
      obtain rfl := Except.ok.inj ho
      rw [if_pos he]
    · next he =>
      obtain ⟨s₁, h₁, ho⟩ := bind_eq_ok.1 ho
      rw [if_neg he]
      exact bind_eq_ok.2 ⟨_, reveilleUn_entree hφ h₁, ih ho⟩

include hφ in
/-- An empty queue, its entry rewritten. -/
theorem Rondes.entree (hr : Rondes s R W) (hw : ∀ b, W (q, b) = []) : Rondes (s.entree q φ) R W := by
  refine ⟨fun k => ?_, hr.attente, hr.nodup, fun k hk => ?_⟩
  · have he : (s.entree q φ).messages.ronde k = s.messages.ronde k := by
      obtain ⟨q', b⟩ := k
      by_cases hq : q' = q
      · subst hq
        cases b <;> simp [Messages.ronde, St.entree, Messages.set, hφ.consum, hφ.prod]
      · simp [Messages.ronde, St.entree, Messages.set, hq]
    rw [he]
    exact hr.ronde k
  · obtain ⟨q', b⟩ := k
    by_cases hq : q' = q
    · rw [hq]
      exact hw b
    · refine hr.vierge _ ?_
      simpa [St.entree, Messages.set, hq] using hk

include hφ in
/-- Both loops end when no receiver waits. -/
theorem reveilleTous_exact (h : Inv role a s p) (hr : Rondes s R W) (hn : (s.messages.fifoTab q).prod = none) :
    ∃ s' R', reveilleTous q (s.entree q φ) = .ok s' ∧ Inv role a s' (fun x => if x ∈ W (q, true) then .pret else p x) ∧
      Rondes s' R' (Function.update W (q, true) []) ∧
      s'.messages.fifoTab = Function.update s.messages.fifoTab q { φ (s.messages.fifoTab q) with consum := none } := by
  obtain ⟨s₁, R', ho, hi, hr', hf⟩ := reveilleConsum_exact (q := q) (n := s.messages.heap.length + 1) h hr rfl
    (Nat.lt_succ_of_le (hr.ronde (q, true)).length_le)
  have hw : ∀ b, Function.update W (q, true) [] (q, b) = [] := by
    rintro (_ | _)
    · rw [Function.update_of_ne (by simp)]
      exact (hr.ronde (q, false)).none_iff.1 hn
    · exact Function.update_self ..
  have hprod : ((s₁.entree q φ).messages.fifoTab q).prod = none := by
    rw [show ((s₁.entree q φ).messages.fifoTab q) = φ (s₁.messages.fifoTab q) from Function.update_self .., hφ.prod, hf,
      Function.update_self]
    exact hn
  obtain ⟨lab, hlab⟩ := hi.rings
  refine ⟨s₁.entree q φ, R', ?_, hi.setMessages (hlab.set_tails (hφ.consum _) (hφ.prod _)), hr'.entree hφ hw, ?_⟩
  · refine bind_eq_ok.2 ⟨_, reveilleConsum_entree hφ ho, ?_⟩
    rw [reveilleProd, hprod]
    rfl
  · show Function.update s₁.messages.fifoTab q (φ (s₁.messages.fifoTab q)) = _
    rw [hf, Function.update_idem, Function.update_self, hφ.setConsum]

/-! ## The calls -/

include hφ in
theorem videFifo_exact (h : Inv role a s p) (hr : Rondes s R W) (hq : s.messages.ouverte fid = some q)
    (hn : (s.messages.fifoTab q).prod = none) :
    ∃ s' R', videFifo φ fid s = .ok (.rend 0, s') ∧ Inv role a s' (fun x => if x ∈ W (q, true) then .pret else p x) ∧
      Rondes s' R' (Function.update W (q, true) []) ∧
      s'.messages.fifoTab = Function.update s.messages.fifoTab q { φ (s.messages.fifoTab q) with consum := none } := by
  obtain ⟨s', R', ho, hi, hr', hf⟩ := reveilleTous_exact hφ h hr hn
  refine ⟨s', R', ?_, hi, hr', hf⟩
  rw [videFifo, hq]
  exact bind_eq_ok.2 ⟨s', ho, rfl⟩

theorem reveilleConsum_prod {n : Nat} (ho : reveilleConsum q n s = .ok s') :
    (s'.messages.fifoTab q).prod = (s.messages.fifoTab q).prod := by
  induction n generalizing s with
  | zero => cases ho
  | succ n ih =>
    unfold reveilleConsum at ho
    split at ho
    · obtain rfl := Except.ok.inj ho
      rfl
    · obtain ⟨s₁, h₁, ho⟩ := bind_eq_ok.1 ho
      rw [ih ho, reveilleUn_prod h₁]

/-- A call that ends found no receiver. -/
theorem reveilleTous_prod (ho : reveilleTous q s = .ok s') : (s.messages.fifoTab q).prod = none := by
  obtain ⟨s₁, h₁, ho⟩ := bind_eq_ok.1 ho
  rw [← reveilleConsum_prod h₁]
  exact (reveilleProd_ok ho).1

include hφ in
theorem videFifo_prod (hq : s.messages.ouverte fid = some q) (ho : videFifo φ fid s = .ok (r, s')) :
    (s.messages.fifoTab q).prod = none := by
  rw [videFifo, hq] at ho
  obtain ⟨s₁, h₁, -⟩ := bind_eq_ok.1 ho
  simpa [Messages.set, hφ.prod] using reveilleTous_prod h₁

include hφ in
theorem videFifo_rondes (h : Inv role a s p) (hr : Rondes s R W) (ho : videFifo φ fid s = .ok (r, s')) :
    ∃ R' W', Rondes s' R' W' := by
  cases hq : s.messages.ouverte fid with
  | none =>
    rw [videFifo, hq] at ho
    obtain ⟨rfl, rfl⟩ := Prod.mk.inj (Except.ok.inj ho)
    exact ⟨R, W, hr⟩
  | some q =>
    obtain ⟨s₁, R', ho₁, -, hr₁, -⟩ := videFifo_exact hφ h hr hq (videFifo_prod hφ hq ho)
    obtain ⟨-, rfl⟩ := Prod.mk.inj (Except.ok.inj (ho₁.symm.trans ho))
    exact ⟨_, _, hr₁⟩

end Entree

/-! ## The entries of the queues in use -/

/-- What no call changes in the entry of a queue in use. -/
def Solide (q : Fin NBQUEUE) (g : FifoMessages) : Prop :=
  g.used = true → g.fid = q ∧ 1 ≤ g.size ∧ ∀ b, g.tabMessages = some b → b.octets = toUint32 (4 * g.size) ∧ b.libere = false

theorem pcreate_solide {m : Messages Slot} {count : Int} {contenu : Option (Nat → Int)} (h : ∀ q, Solide q (m.fifoTab q))
    (q : Fin NBQUEUE) : Solide q ((pcreate m count contenu).2.fifoTab q) := by
  unfold pcreate
  split
  · exact h q
  · next hcount =>
    split
    · exact h q
    · next k _ =>
      by_cases hq : q = k
      · subst hq
        refine fun _ => ⟨by simp [Messages.set], by simpa [Messages.set] using hcount, fun b hb => ?_⟩
        obtain ⟨mots, -, rfl⟩ := Option.map_eq_some_iff.1 (show (contenu.map _) = some b by simpa [Messages.set, memAlloc] using hb)
        simp [Messages.set]
      · simpa [Messages.set, hq] using h q

/-- One entry has changed. -/
theorem solide_set {m : Messages Slot} {g : FifoMessages} (h : ∀ q, Solide q (m.fifoTab q)) (hg : Solide q g)
    (q' : Fin NBQUEUE) : Solide q' (Function.update m.fifoTab q g q') := by
  by_cases hq : q' = q
  · subst hq
    rwa [Function.update_self]
  · rw [Function.update_of_ne hq]
    exact h q'

theorem maintient_solide : Maintient fun m => ∀ q, Solide q (m.fifoTab q) where
  pcreate _ _ h := pcreate_solide h
  psendEntree fid x h := by
    refine ensures_of_ok fun r hr => ?_
    rcases psendEntree_ok hr with ⟨-, rfl⟩ | ⟨q, -, -, rfl⟩ | ⟨q, consum, heap, -, -, -, rfl⟩
    · exact h
    · exact h
    · exact solide_set (q := q) h (h q)
  preceiveEntree fid x h := by
    refine ensures_of_ok fun r hr => ?_
    rcases preceiveEntree_ok hr with ⟨-, rfl⟩ | ⟨q, -, -, rfl⟩ | ⟨q, prod, heap, -, -, -, rfl⟩
    · exact h
    · exact h
    · exact solide_set (q := q) h (h q)
  psendSuite {m} pid q v x h := by
    refine Ensures.bind (assure_any _) fun b _ => ?_
    split
    · exact h
    refine Ensures.bind (assure_any _) fun i _ => Ensures.bind (assure_any _) fun j _ => ?_
    refine Ensures.bind (ensures_of_ok fun _ ht => deref_eq_ok.1 ht) fun tab ht => ?_
    refine Ensures.bind (ensures_of_ok fun _ hw => Bloc.ecrit_ok hw) fun tab' hw => Ensures.bind (assure_any _) fun nb _ => ?_
    -- A message is stored in the same block.
    have hg (prod : FifoProcess) : Solide q { m.fifoTab q with tabMessages := some tab', nbElement := nb, prod } := by
      intro hu
      obtain ⟨hfid, hsize, hbloc⟩ := h q hu
      refine ⟨hfid, hsize, ?_⟩
      rintro b ⟨⟩
      rw [hw.2]
      exact hbloc tab ht
    dsimp only
    split
    · exact solide_set h (hg _)
    · exact Ensures.bind (assure_any _) fun r _ => solide_set h (hg r.1)
  preceiveSuite pid q x h := by
    refine Ensures.bind (assure_any _) fun b _ => ?_
    split
    · exact h
    refine Ensures.bind (assure_any _) fun tab _ => Ensures.bind (assure_any _) fun v _ => ?_
    refine Ensures.bind (assure_any _) fun nb _ => Ensures.bind (assure_any _) fun down _ => ?_
    dsimp only
    split
    · exact solide_set (q := q) h (h q)
    · exact Ensures.bind (assure_any _) fun r _ => solide_set (q := q) h (h q)
  pdelete q h := solide_set h nofun
  preset q h := solide_set h (h q)
  extrait q _ h := (assure_any _).post fun r _ => solide_set (q := q) h (h q)
  annule x h := (assure_any _).post fun r _ => h

/-! ## Runs -/

/-- The steps of a run in which a receiver that blocks waits alone. -/
def Seul (s : St) (e : Event) : Prop := Sain s e ∧ RecepteurSeul s e

theorem Bouge.rondes (hb : Bouge a s s' R W r) : ∃ R' W', Rondes s' R' W' := by
  cases hb with
  | reste hr => exact ⟨_, _, hr⟩
  | attend _ _ hr => exact ⟨_, _, hr⟩
  | emis _ _ hl => exact ⟨_, _, hl.rondes.choose_spec⟩
  | recu _ _ hl => exact ⟨_, _, hl.rondes.choose_spec⟩

/-- Deleting and resetting keep the rings as well. -/
theorem annule_rondes (h : Inv role a s p) (hr : Rondes s R W) (hd : e.annule = true) (ho : joue e s = .ok (r, s')) :
    ∃ R' W', Rondes s' R' W' := by
  unfold Event.annule at hd
  split at hd
  · exact videFifo_rondes neutre_efface h hr ho
  · exact videFifo_rondes neutre_raz h hr ho
  · cases hd

theorem seul_spec (hr : Parcours Seul tr s) : ∃ a p R W, Inv role a s p ∧ Rondes s R W := by
  refine hr.inv (fun s => ∃ a p R W, Inv role a s p ∧ Rondes s R W) ⟨0, _, _, _, inv_boot role, rondes_boot⟩ ?_
  rintro s e r s' ⟨a, p, R, W, hi, hron⟩ ⟨⟨hs, hc⟩, ho⟩
  obtain ⟨n, p', he⟩ := pas_spec hi hs (separe_role hc.sansEmetteur) ho
  by_cases hd : e.annule = false
  · obtain ⟨R', W', hron'⟩ := (joue_rondes hi hron hs hc hd ho).rondes
    exact ⟨n, p', R', W', he.inv, hron'⟩
  · obtain ⟨R', W', hron'⟩ := annule_rondes hi hron (by simpa using hd) ho.2
    exact ⟨n, p', R', W', he.inv, hron'⟩

/-- The processes blocked on the queue were made ready, each once, and no others; both rings are empty. -/
structure Vide (s : St) (q : Fin NBQUEUE) (s' : St) : Prop where
  prets : ∃ l l' w, Ready s.next s.prev l ∧ Ready s'.next s'.prev l' ∧ l'.Perm (w ++ l) ∧ w.Nodup ∧
    ∀ x, x ∈ w ↔ ∃ b, EnAttente s (q, b) x
  consum : (s'.messages.fifoTab q).consum = none
  prod : (s'.messages.fifoTab q).prod = none

/-- The entry of a queue that `pcreate` has just given. -/
def Neuve (q : Fin NBQUEUE) (count : Int) (g : FifoMessages) : Prop :=
  ∃ (m : Messages Slot) (contenu : Option (Nat → Int)), pcreate m count contenu = ((q : Int), m.set q g)

theorem find_libre (q : Fin NBQUEUE) : (List.finRange NBQUEUE).find? (fun i => !decide (i ≠ q)) = some q := by
  revert q
  decide

theorem Solide.neuve {g : FifoMessages} (h : Solide q g) (hu : g.used = true) (hp : g.prod = none) :
    Neuve q g.size { g with down := 0, nbElement := 0, consum := none } := by
  obtain ⟨hfid, hsize, hbloc⟩ := h hu
  have hcont : ∃ contenu, g.tabMessages = memAlloc contenu (toUint32 (4 * g.size)) := by
    cases ht : g.tabMessages with
    | none => exact ⟨none, rfl⟩
    | some b =>
      obtain ⟨hoct, hlib⟩ := hbloc b ht
      refine ⟨some b.mots, ?_⟩
      rw [memAlloc, ← hoct, ← hlib]
      rfl
  obtain ⟨contenu, hcont⟩ := hcont
  -- A table where `q` is the only free entry.
  let m : Messages Slot := ⟨fun i => ⟨none, none, none, 0, 0, 0, 0, decide (i ≠ q)⟩, none, []⟩
  refine ⟨m, contenu, ?_⟩
  rw [pcreate, if_neg (by omega), show (List.finRange NBQUEUE).find? (fun i => !(m.fifoTab i).used) = some q from find_libre q]
  dsimp only
  rw [← hcont, ← hfid, hu, hp]
  rfl

/-- The places after both loops. -/
theorem Rondes.vide (h : Inv role a s p) (hr : Rondes s R W) (hr' : Rondes s' R' (Function.update W (q, true) []))
    (hi : Inv role a s' fun x => if x ∈ W (q, true) then .pret else p x) (hn : (s.messages.fifoTab q).prod = none)
    (hn' : (s'.messages.fifoTab q).prod = none) : Vide s q s' := by
  obtain ⟨l, e, d, hl⟩ := h.rep
  obtain ⟨l', e', d', hl'⟩ := hi.rep
  have hnil : W (q, false) = [] := (hr.ronde (q, false)).none_iff.1 hn
  have hbloque : ∀ x ∈ W (q, true), p x = .bloque := fun x hx => (h.enAttente.1 ((hr.attente _ x).1 hx)).1
  have hnodup : (W (q, true) ++ l).Nodup := by
    refine List.nodup_append.2 ⟨hr.nodup _, hl.lists.ready.distinct, fun x hx y hy hxy => ?_⟩
    subst hxy
    have hpx := (hl.ready x).1 hy
    simp [hbloque x hx] at hpx
  refine ⟨⟨l, l', W (q, true), hl.lists.ready, hl'.lists.ready, ?_, hr.nodup _, fun x => ?_⟩, ?_, hn'⟩
  · refine (List.perm_ext_iff_of_nodup hl'.lists.ready.distinct hnodup).2 fun x => ?_
    rw [hl'.ready, List.mem_append, hl.ready]
    by_cases hx : x ∈ W (q, true) <;> simp [hx]
  · rw [hr.attente]
    refine ⟨fun hx => ⟨true, hx⟩, ?_⟩
    rintro ⟨_ | _, hx⟩
    · rw [← hr.attente, hnil] at hx
      cases hx
    · exact hx
  · exact (hr'.ronde (q, true)).none_iff.2 (Function.update_self ..)

/-- `pdelete` and `preset` drain a queue in use when, and only when, no process waits to receive from it. -/
theorem drain {fid : Int} (hr : Parcours Seul tr s) (hq : s.messages.ouverte fid = some q) :
    ((∃ s', pdelete fid s = .ok (.rend 0, s') ∧ Vide s q s') ↔ ∀ x, ¬EnAttente s (q, false) x) ∧
    ((∃ s', preset fid s = .ok (.rend 0, s') ∧ Vide s q s' ∧ Neuve q (s.messages.fifoTab q).size (s'.messages.fifoTab q)) ↔
      ∀ x, ¬EnAttente s (q, false) x) := by
  obtain ⟨a, p, R, W, hi, hron⟩ := seul_spec hr
  have hsol : ∀ q, Solide q (s.messages.fifoTab q) := parcours_garde maintient_solide (fun _ => nofun) hr
  have hprod : (s.messages.fifoTab q).prod = none ↔ ∀ x, ¬EnAttente s (q, false) x := by
    rw [← List.eq_nil_iff_forall_not_mem.trans (forall_congr' fun x => not_congr (hron.attente (q, false) x))]
    exact (hron.ronde (q, false)).none_iff
  simp only [← hprod, pdelete_eq, preset_eq]
  refine ⟨⟨?_, fun hn => ?_⟩, ⟨?_, fun hn => ?_⟩⟩
  · rintro ⟨s', ho, -⟩
    exact videFifo_prod neutre_efface hq ho
  · obtain ⟨s', R', ho, hi', hron', hf⟩ := videFifo_exact neutre_efface hi hron hq hn
    exact ⟨s', ho, hron.vide hi hron' hi' hn (by rw [hf, Function.update_self]; exact hn)⟩
  · rintro ⟨s', ho, -⟩
    exact videFifo_prod neutre_raz hq ho
  · obtain ⟨s', R', ho, hi', hron', hf⟩ := videFifo_exact neutre_raz hi hron hq hn
    refine ⟨s', ho, hron.vide hi hron' hi' hn (by rw [hf, Function.update_self]; exact hn), ?_⟩
    rw [hf, Function.update_self]
    exact (hsol q).neuve (ouverte_used hq) hn

instance (s : St) (e : Event) : Decidable (Seul s e) := inferInstanceAs (Decidable (_ ∧ _))

/-- Two senders are blocked on a queue. -/
theorem drain_run :
    ∃ tr s, Parcours Seul tr s ∧ s.messages.ouverte 0 = some ⟨0, by decide⟩ ∧
      (EnAttente s (⟨0, by decide⟩, true) 1 ∧ EnAttente s (⟨0, by decide⟩, true) 2) ∧
      ((∃ s', pdelete 0 s = .ok (.rend 0, s') ∧ Vide s ⟨0, by decide⟩ s') ↔ ∀ x, ¬EnAttente s (⟨0, by decide⟩, false) x) ∧
      ((∃ s', preset 0 s = .ok (.rend 0, s') ∧ Vide s ⟨0, by decide⟩ s' ∧
          Neuve ⟨0, by decide⟩ (s.messages.fifoTab ⟨0, by decide⟩).size (s'.messages.fifoTab ⟨0, by decide⟩)) ↔
        ∀ x, ¬EnAttente s (⟨0, by decide⟩, false) x) := by
  obtain ⟨tr, s, hr, hq, hl, h₁, h₂⟩ := deroule_any (P := Seul)
    (Q := fun _ s => s.messages.ouverte 0 = some ⟨0, by decide⟩ ∧ s.endormiList = none ∧
      (s.state 1 = .endormi ∧ (s.contexte 1).bind (fun c => c.suite.file role) = some (⟨0, by decide⟩, true)) ∧
      s.state 2 = .endormi ∧ (s.contexte 2).bind (fun c => c.suite.file role) = some (⟨0, by decide⟩, true)) boot
    [.appel (.pcreate 1 (some fun _ => 0)), .appel (.psend 0 7), .appel (.start 512 1 "p"), .appel (.start 512 1 "q"),
      .tick, .appel (.psend 0 8), .appel (.psend 0 9)] (by decide +kernel)
  refine ⟨tr, s, hr, hq, ⟨⟨h₁.1, ?_, h₁.2⟩, h₂.1, ?_, h₂.2⟩, drain hr hq⟩ <;> rw [hl] <;> nofun

/-- With a receiver blocked on the queue, `pdelete` and `preset` do not end well. -/
theorem drain_fails :
    ¬∀ tr s fid q, Parcours (fun _ _ => True) tr s → s.messages.ouverte fid = some q →
      (∃ s', pdelete fid s = .ok (.rend 0, s') ∧ Vide s q s') ∧
      ∃ s', preset fid s = .ok (.rend 0, s') ∧ Vide s q s' ∧
        Neuve q (s.messages.fifoTab q).size (s'.messages.fifoTab q) := by
  intro h
  obtain ⟨tr, s, hr, hq, hp⟩ := deroule_any (P := fun _ _ => True)
    (Q := fun _ s => s.messages.ouverte 0 = some ⟨0, by decide⟩ ∧ (s.messages.fifoTab ⟨0, by decide⟩).prod ≠ none) boot
    [.appel (.pcreate 1 (some fun _ => 0)), .appel (.start 512 1 "p"), .tick, .appel (.preceive 0)] (by decide +kernel)
  obtain ⟨⟨s', ho, -⟩, -⟩ := h tr s 0 _ hr hq
  exact hp (videFifo_prod neutre_efface hq ho)

end Pcsea
