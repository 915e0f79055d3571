import Pcsea.Lib.Buffer
import Pcsea.Election
import Pcsea.Maintien
/-!
# Messages

What a step does to the message queues, whatever the scheduler does. A queue
hands out what it was given, in order, as long as a `psend` that goes on after
its wait finds room and a `preceive` a message: nothing in the source makes
them look again.
-/

namespace Pcsea

open Lib

variable {s s' : St} {e : Event} {r : Issue} {tr : List (St × Event × Issue)} {q : Fin NBQUEUE} {v : Int} {l : List Int}
  {f : FifoMessages} {m : Messages Slot}

/-! ## Queues of messages -/

/-- The queue is well formed and holds the messages `l`. -/
def FifoMessages.Contient (f : FifoMessages) (l : List Int) : Prop :=
  ∃ k d : Nat, f.size = k ∧ f.down = d ∧ f.nbElement = l.length ∧ d < k ∧ l.length ≤ k ∧
    ∀ tab, f.tabMessages = some tab → Wraps tab.mots k d l

theorem FifoMessages.Contient.congr {g : FifoMessages} (h : f.Contient l) (h₁ : g.size = f.size) (h₂ : g.down = f.down)
    (h₃ : g.nbElement = f.nbElement) (h₄ : g.tabMessages = f.tabMessages) : g.Contient l := by
  unfold FifoMessages.Contient
  rw [h₁, h₂, h₃, h₄]
  exact h

/-- `nb_element` stays between 0 and `size`, and `down` is the index of a cell. -/
theorem FifoMessages.Contient.bornes (h : f.Contient l) :
    0 ≤ f.nbElement ∧ f.nbElement ≤ f.size ∧ 0 ≤ f.down ∧ f.down < f.size := by
  obtain ⟨k, d, hk, hd, hn, hdk, hlk, -⟩ := h
  omega

theorem Bloc.ecrit_ok {b b' : Bloc} {i v : Int} (h : b.ecrit i v = .ok b') :
    0 ≤ i ∧ b' = { b with mots := Function.update b.mots i.toNat v } := by
  obtain ⟨k, hk, h⟩ := bind_eq_ok.1 h
  obtain rfl := Except.ok.inj h
  unfold Bloc.acces at hk
  split at hk
  · cases hk
  split at hk
  · next hi =>
    obtain rfl := Except.ok.inj hk
    exact ⟨hi.1, rfl⟩
  · cases hk

theorem Bloc.lit_ok {b : Bloc} {i v : Int} (h : b.lit i = .ok v) : v = b.mots i.toNat := by
  obtain ⟨k, hk, h⟩ := bind_eq_ok.1 h
  obtain rfl := Except.ok.inj h
  unfold Bloc.acces at hk
  split at hk
  · cases hk
  split at hk
  · obtain rfl := Except.ok.inj hk
    rfl
  · cases hk

/-- The store of `psend` in a queue that is not full. -/
theorem FifoMessages.Contient.depose {tab tab' : Bloc} {prod : FifoProcess} (h : f.Contient l) (hn : f.nbElement < f.size)
    (ht : f.tabMessages = some tab) (hw : tab.ecrit ((f.down + f.nbElement).tmod f.size) v = .ok tab') :
    ({ f with tabMessages := some tab', nbElement := f.nbElement + 1, prod } : FifoMessages).Contient (l ++ [v]) := by
  obtain ⟨k, d, hk, hd, hl, hdk, hlk, hc⟩ := h
  obtain ⟨-, rfl⟩ := Bloc.ecrit_ok hw
  have hi : ((f.down + f.nbElement).tmod f.size).toNat = (d + l.length) % k := by
    rw [hk, hd, hl, ← Nat.cast_add, ← Int.ofNat_tmod, Int.toNat_natCast]
  refine ⟨k, d, hk, hd, ?_, hdk, ?_, ?_⟩
  · simp [hl]
  · rw [List.length_append, List.length_singleton]
    omega
  · rintro t ⟨⟩
    rw [hi]
    exact (hc tab ht).push (by omega) v

/-- The load of `preceive` in a queue that is not empty. -/
theorem FifoMessages.Contient.retire {tab : Bloc} (consum : FifoProcess) (h : f.Contient l) (hn : 0 < f.nbElement)
    (ht : f.tabMessages = some tab) (hr : tab.lit f.down = .ok v) :
    ∃ l', l = v :: l' ∧ ({ f with
      nbElement := f.nbElement - 1, down := if f.down + 1 = f.size then 0 else f.down + 1, consum } : FifoMessages).Contient l' := by
  obtain ⟨k, d, hk, hd, hl, hdk, hlk, hc⟩ := h
  obtain rfl := Bloc.lit_ok hr
  cases l with
  | nil =>
    rw [hl] at hn
    exact absurd hn (by simp)
  | cons x l' =>
    obtain ⟨hx, hw⟩ := (hc tab ht).pop hdk
    refine ⟨l', ?_, k, if d + 1 = k then 0 else d + 1, hk, ?_, ?_, ?_, ?_, ?_⟩
    · rw [hd, Int.toNat_natCast, hx]
    · show (if f.down + 1 = f.size then 0 else f.down + 1) = _
      rw [hd, hk]
      split <;> split <;> omega
    · simp [hl]
    · split <;> omega
    · rw [List.length_cons] at hlk
      omega
    · intro t htt
      obtain rfl : tab = t := Option.some.inj (ht.symm.trans htt)
      exact hw

/-! ## What a step does to the queues -/

/-- The event stores `v` in the queue. -/
def Emet (s : St) (e : Event) (q : Fin NBQUEUE) (v : Int) : Prop :=
  (∃ fid, e = .appel (.psend fid v) ∧ s.messages.ouverte fid = some q ∧
    (s.messages.fifoTab q).nbElement ≠ (s.messages.fifoTab q).size) ∨
  ∃ tmp, e = .suite ∧ s.cpu.suite = .psend q v tmp

/-- The event takes a message out of the queue. -/
def Recoit (s : St) (e : Event) (q : Fin NBQUEUE) : Prop :=
  (∃ fid, e = .appel (.preceive fid) ∧ s.messages.ouverte fid = some q ∧ (s.messages.fifoTab q).nbElement ≠ 0) ∨
  ∃ tmp, e = .suite ∧ s.cpu.suite = .preceive q tmp

/-- The result of a step, and the queues after it. -/
inductive Transmis (s : St) (e : Event) : Issue → Messages Slot → Prop
  | tait {r : Issue} : (∀ q v, r ≠ .emis q v) → (∀ q v, r ≠ .recu q v) → Transmis s e r s.messages
  | cree (count : Int) (contenu : Option (Nat → Int)) : e = .appel (.pcreate count contenu) →
    Transmis s e (.rend (pcreate s.messages count contenu).1) (pcreate s.messages count contenu).2
  | attend (q : Fin NBQUEUE) (consum prod : FifoProcess) (heap : Heap Slot) :
    Transmis s e .enCours { s.messages.set q { s.messages.fifoTab q with consum, prod } with heap }
  | depose {q : Fin NBQUEUE} {v : Int} {tab tab' : Bloc} (prod : FifoProcess) (heap : Heap Slot) : Emet s e q v →
    (s.messages.fifoTab q).size ≠ 0 → (s.messages.fifoTab q).tabMessages = some tab →
    tab.ecrit (((s.messages.fifoTab q).down + (s.messages.fifoTab q).nbElement).tmod (s.messages.fifoTab q).size) v = .ok tab' →
    Transmis s e (.emis q v) { s.messages.set q { s.messages.fifoTab q with
      tabMessages := some tab', nbElement := (s.messages.fifoTab q).nbElement + 1, prod } with heap }
  | retire {q : Fin NBQUEUE} {v : Int} {tab : Bloc} (consum : FifoProcess) (heap : Heap Slot) : Recoit s e q →
    (s.messages.fifoTab q).tabMessages = some tab → tab.lit (s.messages.fifoTab q).down = .ok v →
    Transmis s e (.recu q v) { s.messages.set q { s.messages.fifoTab q with
      nbElement := (s.messages.fifoTab q).nbElement - 1,
      down := if (s.messages.fifoTab q).down + 1 = (s.messages.fifoTab q).size then 0 else (s.messages.fifoTab q).down + 1,
      consum } with heap }

theorem psendFin_transmis {s₁ : St} {tmp : Slot} (hs : s.messages.shouldReceiveNegativeOne = none) (hd : Emet s e q v)
    (hm : s₁.messages = s.messages) (ho : psendFin q v tmp s₁ = .ok (r, s')) : Transmis s e r s'.messages := by
  obtain ⟨rfl, m, h₁, h₂⟩ := psendFin_ok (hm.symm ▸ hs) ho
  rw [hm] at h₁
  obtain ⟨tab, tab', prod, heap, ht, hsize, hw, -, he⟩ := psendSuite_ok hs h₁
  obtain ⟨-, -, rfl⟩ := Prod.mk.inj he |>.imp id Prod.mk.inj
  rw [reveille_tait h₂]
  exact .depose prod heap hd hsize ht hw

theorem preceiveFin_transmis {s₁ : St} {tmp : Slot} (hs : s.messages.shouldReceiveNegativeOne = none) (hd : Recoit s e q)
    (hm : s₁.messages = s.messages) (ho : preceiveFin q tmp s₁ = .ok (r, s')) : Transmis s e r s'.messages := by
  obtain ⟨v, m, rfl, h₁, h₂⟩ := preceiveFin_ok (hm.symm ▸ hs) ho
  rw [hm] at h₁
  obtain ⟨tab, w, consum, heap, ht, hv, -, he⟩ := preceiveSuite_ok hs h₁
  obtain ⟨⟨⟩, -, rfl⟩ := Prod.mk.inj he |>.imp id Prod.mk.inj
  rw [reveille_tait h₂]
  exact .retire consum heap hd ht hv

/-- `pdelete` or `preset`. -/
def Event.annule : Event → Bool
  | .appel (.pdelete _) => true
  | .appel (.preset _) => true
  | _ => false

/-- Without `pdelete` and `preset`, a step of any process does one of five things to the queues. -/
theorem joue_transmis (hs : s.messages.shouldReceiveNegativeOne = none)
    (hd : e.annule = false) (ho : joue e s = .ok (r, s')) : Transmis s e r s'.messages := by
  -- The calls that do not touch the queues first.
  by_cases he : e.transmet s = false
  · obtain ⟨hm, h₁, h₂⟩ := (joue_muet he).of_ok ho
    rw [show s'.messages = s.messages from hm]
    exact .tait h₁ h₂
  cases e with
  | tick => exact absurd rfl he
  | suite =>
    have hcode : (s.setSuite .code).messages = s.messages := rfl
    change poursuit s = _ at ho
    unfold poursuit at ho
    split at ho
    · next hc => simp [Event.transmet, Suite.transmet, hc] at he
    · next q v tmp hc => exact psendFin_transmis hs (.inr ⟨tmp, rfl, hc⟩) hcode ho
    · next q tmp hc => exact preceiveFin_transmis hs (.inr ⟨tmp, rfl, hc⟩) hcode ho
    · next hc => simp [Event.transmet, Suite.transmet, hc] at he
    · next hc => simp [Event.transmet, Suite.transmet, hc] at he
    · next hc => simp [Event.transmet, Suite.transmet, hc] at he
    · next hc => simp [Event.transmet, Suite.transmet, hc] at he
  | appel c =>
    cases c with
    | pcreate count contenu =>
      obtain ⟨rfl, rfl⟩ := Prod.mk.inj (Except.ok.inj ho)
      exact .cree count contenu rfl
    | pdelete fid => cases hd
    | preset fid => cases hd
    | psend fid v =>
      rcases psend_ok ho with ⟨-, rfl, rfl⟩ | ⟨a, k, -, hk, hn, hfin⟩ | ⟨a, k, consum, heap, -, -, -, -, rfl, hb⟩
      · exact .tait (by simp) (by simp)
      · exact psendFin_transmis hs (.inl ⟨fid, rfl, hk, hn⟩) rfl hfin
      · rw [ordonnance_tait hb]
        exact .attend k consum _ heap
    | preceive fid =>
      rcases preceive_ok ho with ⟨-, rfl, rfl⟩ | ⟨a, k, -, hk, hn, hfin⟩ | ⟨a, k, prod, heap, -, -, -, -, rfl, hb⟩
      · exact .tait (by simp) (by simp)
      · exact preceiveFin_transmis hs (.inl ⟨fid, rfl, hk, hn⟩) rfl hfin
      · rw [ordonnance_tait hb]
        exact .attend k _ prod heap
    | _ => exact absurd rfl he

/-! ## First in, first out -/

/-- The messages of the `psend` that returned 0, in order. -/
def emis (q : Fin NBQUEUE) (tr : List (St × Event × Issue)) : List Int :=
  tr.filterMap fun c =>
    match c.2.2 with
    | .emis q' v => if q' = q then some v else none
    | _ => none

/-- The messages of the `preceive` that returned 0, in order. -/
def recus (q : Fin NBQUEUE) (tr : List (St × Event × Issue)) : List Int :=
  tr.filterMap fun c =>
    match c.2.2 with
    | .recu q' v => if q' = q then some v else none
    | _ => none

theorem emis_depose : emis q (tr ++ [(s, e, .emis q v)]) = emis q tr ++ [v] := by simp [emis]

theorem recus_retire : recus q (tr ++ [(s, e, .recu q v)]) = recus q tr ++ [v] := by simp [recus]

theorem emis_tait (h : ∀ v, r ≠ .emis q v) : emis q (tr ++ [(s, e, r)]) = emis q tr := by
  cases r <;> simp_all [emis]

theorem recus_tait (h : ∀ v, r ≠ .recu q v) : recus q (tr ++ [(s, e, r)]) = recus q tr := by
  cases r <;> simp_all [recus]

/-- A call that goes on after its wait finds room, or a message. -/
def Suite.Servie (s : St) : Suite → Prop
  | .psend q _ _ => (s.messages.fifoTab q).nbElement < (s.messages.fifoTab q).size
  | .preceive q _ => 0 < (s.messages.fifoTab q).nbElement
  | _ => True

/-- No queue is deleted or reset, and a wait ends well. -/
def Servi (s : St) (e : Event) : Prop := e.annule = false ∧ ∀ _ : e = .suite, s.cpu.suite.Servie s

/-- A queue never created, or one that holds what was sent and not yet received. -/
def Suivie (tr : List (St × Event × Issue)) (q : Fin NBQUEUE) (f : FifoMessages) : Prop :=
  (f.used = false ∧ f.size = 0 ∧ f.tabMessages = none ∧ emis q tr = [] ∧ recus q tr = []) ∨
    f.used = true ∧ ∃ l, f.Contient l ∧ emis q tr = recus q tr ++ l

theorem Suivie.tait (h : Suivie tr q f) (h₁ : ∀ v, r ≠ .emis q v) (h₂ : ∀ v, r ≠ .recu q v) :
    Suivie (tr ++ [(s, e, r)]) q f := by
  unfold Suivie
  rw [emis_tait h₁, recus_tait h₂]
  exact h

theorem Emet.place (h : Emet s e q v) (hc : Servi s e)
    (hb : (s.messages.fifoTab q).nbElement ≤ (s.messages.fifoTab q).size) :
    (s.messages.fifoTab q).nbElement < (s.messages.fifoTab q).size := by
  rcases h with ⟨fid, rfl, -, hn⟩ | ⟨tmp, rfl, hs⟩
  · omega
  · simpa [Suite.Servie, hs] using hc.2 rfl

theorem Recoit.plein (h : Recoit s e q) (hc : Servi s e) (hb : 0 ≤ (s.messages.fifoTab q).nbElement) :
    0 < (s.messages.fifoTab q).nbElement := by
  rcases h with ⟨fid, rfl, -, hn⟩ | ⟨tmp, rfl, hs⟩
  · omega
  · simpa [Suite.Servie, hs] using hc.2 rfl

theorem pcreate_suivie {count : Int} {contenu : Option (Nat → Int)} (h : ∀ q, Suivie tr q (m.fifoTab q)) (q : Fin NBQUEUE) :
    Suivie tr q ((pcreate m count contenu).2.fifoTab q) := by
  unfold pcreate
  split
  · exact h q
  next hc =>
  split
  · exact h q
  · next k hk =>
    by_cases hq : q = k
    · subst hq
      have hu : (m.fifoTab q).used = false := by simpa using List.find?_some hk
      rcases h q with ⟨-, -, -, he, hr⟩ | ⟨hu', -⟩
      · dsimp only [Messages.set]
        rw [Function.update_self]
        refine .inr ⟨rfl, [], ⟨count.toNat, 0, ?_, rfl, rfl, by omega, by simp, fun _ _ => .nil⟩, by rw [he, hr]; rfl⟩
        dsimp only
        omega
      · simp [hu] at hu'
    · dsimp only [Messages.set]
      rw [Function.update_of_ne hq]
      exact h q

/-- What a step of a served run does to a queue and its history. -/
theorem Transmis.suivie (ht : Transmis s e r m) (hc : Servi s e) (h : ∀ q, Suivie tr q (s.messages.fifoTab q))
    (q : Fin NBQUEUE) : Suivie (tr ++ [(s, e, r)]) q (m.fifoTab q) := by
  cases ht with
  | tait h₁ h₂ => exact (h q).tait (h₁ q) (h₂ q)
  | cree count contenu _ => exact (pcreate_suivie h q).tait (fun _ hv => by cases hv) fun _ hv => by cases hv
  -- A process that starts to wait changes a list of waiters, not the buffer.
  | attend k consum prod heap =>
    refine Suivie.tait ?_ nofun nofun
    by_cases hq : q = k
    · subst hq
      dsimp only [Messages.set]
      rw [Function.update_self]
      rcases h q with hv | ⟨hu, l, hl, he⟩
      · exact .inl hv
      · exact .inr ⟨hu, l, hl.congr rfl rfl rfl rfl, he⟩
    · dsimp only [Messages.set]
      rw [Function.update_of_ne hq]
      exact h q
  -- The queue that gets the message has it at its end; the others are untouched.
  | @depose k v tab tab' prod heap hd hsize htab hw =>
    by_cases hq : q = k
    · subst hq
      dsimp only [Messages.set]
      rw [Function.update_self]
      rcases h q with ⟨-, h0, -⟩ | ⟨hu, l, hl, he⟩
      · exact absurd h0 hsize
      · refine .inr ⟨hu, l ++ [v], hl.depose (hd.place hc hl.bornes.2.1) htab hw, ?_⟩
        rw [emis_depose, recus_tait (fun _ hv => by cases hv), he, List.append_assoc]
    · dsimp only [Messages.set]
      rw [Function.update_of_ne hq]
      refine (h q).tait (fun v' hv => hq ?_) nofun
      exact (Issue.emis.inj hv).1.symm
  -- And the one that gives it has it at its head.
  | @retire k v tab consum heap hd htab hr =>
    by_cases hq : q = k
    · subst hq
      dsimp only [Messages.set]
      rw [Function.update_self]
      rcases h q with ⟨-, -, h0, -⟩ | ⟨hu, l, hl, he⟩
      · rw [h0] at htab
        cases htab
      · obtain ⟨l', rfl, hl'⟩ := hl.retire consum (hd.plein hc hl.bornes.1) htab hr
        refine .inr ⟨hu, l', hl', ?_⟩
        rw [recus_retire, emis_tait (fun _ hv => by cases hv), he, List.append_assoc, List.singleton_append]
    · dsimp only [Messages.set]
      rw [Function.update_of_ne hq]
      refine (h q).tait nofun fun v' hv => hq ?_
      exact (Issue.recu.inj hv).1.symm

/-- When every wait ends well, a queue keeps its bounds and hands out what was sent, in order. -/
theorem message_fifo (hr : Parcours Servi tr s) (hu : (s.messages.fifoTab q).used = true) :
    (0 ≤ (s.messages.fifoTab q).nbElement ∧ (s.messages.fifoTab q).nbElement ≤ (s.messages.fifoTab q).size ∧
      0 ≤ (s.messages.fifoTab q).down ∧ (s.messages.fifoTab q).down < (s.messages.fifoTab q).size) ∧
    recus q tr <+: emis q tr := by
  have h : ∀ q, Suivie tr q (s.messages.fifoTab q) := by
    refine hr.inv_trace (fun tr s => ∀ q, Suivie tr q (s.messages.fifoTab q)) ?_ ?_
    · rw [boot_eq]
      exact fun q => .inl ⟨rfl, rfl, rfl, rfl, rfl⟩
    · rintro tr s e r s' hr h ⟨hc, -, ho⟩
      exact (joue_transmis (parcours_garde maintient_silence rfl hr) hc.1 ho).suivie hc h
  rcases h q with ⟨hv, -⟩ | ⟨-, l, hl, he⟩
  · rw [hu] at hv
    cases hv
  · exact ⟨hl.bornes, l, he.symm⟩

instance (s : St) : (x : Suite) → Decidable (x.Servie s)
  | .psend q _ _ => inferInstanceAs (Decidable ((s.messages.fifoTab q).nbElement < (s.messages.fifoTab q).size))
  | .preceive q _ => inferInstanceAs (Decidable (0 < (s.messages.fifoTab q).nbElement))
  | .code | .attente _ _ _ | .exit | .kill | .retour => inferInstanceAs (Decidable True)

instance (s : St) : (e : Event) → Decidable (Servi s e)
  | .suite => decidable_of_iff (s.cpu.suite.Servie s) ⟨fun h => ⟨rfl, fun _ => h⟩, fun h => h.2 rfl⟩
  | .appel c => decidable_of_iff ((Event.appel c).annule = false) ⟨fun h => ⟨h, nofun⟩, fun h => h.1⟩
  | .tick => isTrue ⟨rfl, nofun⟩

/-- A sender waits for room in a queue of size 1, and finds it. -/
theorem message_fifo_run :
    ∃ tr s q, Parcours Servi tr s ∧ (s.messages.fifoTab q).used = true ∧ (emis q tr = [7, 8] ∧ recus q tr = [7]) ∧
      (0 ≤ (s.messages.fifoTab q).nbElement ∧ (s.messages.fifoTab q).nbElement ≤ (s.messages.fifoTab q).size ∧
        0 ≤ (s.messages.fifoTab q).down ∧ (s.messages.fifoTab q).down < (s.messages.fifoTab q).size) ∧
      recus q tr <+: emis q tr := by
  obtain ⟨tr, s, hr, hu, hq⟩ := deroule_any (P := Servi)
    (Q := fun tr s => (s.messages.fifoTab ⟨0, by decide⟩).used = true ∧
      emis ⟨0, by decide⟩ tr = [7, 8] ∧ recus ⟨0, by decide⟩ tr = [7]) boot
    [.appel (.pcreate 1 (some fun _ => 0)), .appel (.psend 0 7), .appel (.start 512 1 "p"), .tick, .appel (.psend 0 8),
      .appel (.preceive 0), .tick, .suite] (by decide +kernel)
  exact ⟨tr, s, _, hr, hu, hq, message_fifo hr hu⟩

/-- The receiver sends again before the sender it woke has run: that one writes into the full queue. -/
theorem message_fifo_fails :
    ¬∀ tr s q, Parcours (fun _ e => e.annule = false) tr s → (s.messages.fifoTab q).used = true →
      (0 ≤ (s.messages.fifoTab q).nbElement ∧ (s.messages.fifoTab q).nbElement ≤ (s.messages.fifoTab q).size ∧
        0 ≤ (s.messages.fifoTab q).down ∧ (s.messages.fifoTab q).down < (s.messages.fifoTab q).size) ∧
      recus q tr <+: emis q tr := by
  intro h
  obtain ⟨tr, s, hr, hu, hn⟩ := deroule_any (P := fun _ e => e.annule = false)
    (Q := fun _ s => (s.messages.fifoTab ⟨0, by decide⟩).used = true ∧
      ¬(s.messages.fifoTab ⟨0, by decide⟩).nbElement ≤ (s.messages.fifoTab ⟨0, by decide⟩).size) boot
    [.appel (.pcreate 1 (some fun _ => 0)), .appel (.psend 0 7), .appel (.start 512 1 "p"), .tick, .appel (.psend 0 8),
      .appel (.preceive 0), .appel (.psend 0 9), .tick, .suite] (by decide +kernel)
  exact hn (h tr s _ hr hu).1.2.1

end Pcsea
