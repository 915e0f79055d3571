import Mathlib.Logic.Function.Basic
import Pcsea.Message
import Pcsea.WaitFifoSpec
/-!
# The waiting rings of the message queues

`Files f m lab occ`: the tails `consum` and `prod` of each queue point into
rings with the labels `f q true` and `f q false`. What the parts of `psend` and
`preceive` do to the rings is said once, for any labels.
-/

namespace Pcsea

open Lib

universe u
variable {π : Type} {K : Type u} {f : Fin NBQUEUE → Bool → K} {m m' : Messages π} {lab : Nat → Option K}
  {occ occ' : π → K → Prop} {q : Fin NBQUEUE} {x : π}

structure Files (f : Fin NBQUEUE → Bool → K) (m : Messages π) (lab : Nat → Option K) (occ : π → K → Prop) : Prop where
  cells : Cellules m.heap lab occ
  consum : ∀ q t, (m.fifoTab q).consum = some t → Vise m.heap lab (f q true) t
  prod : ∀ q t, (m.fifoTab q).prod = some t → Vise m.heap lab (f q false) t
  silent : m.shouldReceiveNegativeOne = none

theorem Files.mono (h : Files f m lab occ) (ho : ∀ x k, occ x k → occ' x k) : Files f m lab occ' :=
  ⟨h.cells.mono ho, h.consum, h.prod, h.silent⟩

theorem Files.boot (f : Fin NBQUEUE → Bool → K) (occ : π → K → Prop) : Files f (Messages.boot : Messages π) (fun _ => none) occ :=
  ⟨.empty occ, nofun, nofun, rfl⟩

/-- The entry of queue `q` and the heap have changed. -/
theorem Files.set {heap : Heap π} {lab' : Nat → Option K} {g : FifoMessages} (h : Files f m lab occ)
    (hc : Cellules heap lab' occ') (hs : Suit m.heap lab heap lab')
    (h₁ : ∀ t, g.consum = some t → Vise heap lab' (f q true) t)
    (h₂ : ∀ t, g.prod = some t → Vise heap lab' (f q false) t) : Files f { m.set q g with heap } lab' occ' := by
  refine ⟨hc, fun r t ht => ?_, fun r t ht => ?_, h.silent⟩
  · by_cases hr : r = q
    · subst hr
      exact h₁ t (by simpa [Messages.set] using ht)
    · exact hs _ _ (h.consum r t (by simpa [Messages.set, hr] using ht))
  · by_cases hr : r = q
    · subst hr
      exact h₂ t (by simpa [Messages.set] using ht)
    · exact hs _ _ (h.prod r t (by simpa [Messages.set, hr] using ht))

/-- Only the fields of the queue that are no tails have changed. -/
theorem Files.set_tails {g : FifoMessages} (h : Files f m lab occ) (h₁ : g.consum = (m.fifoTab q).consum)
    (h₂ : g.prod = (m.fifoTab q).prod) : Files f (m.set q g) lab occ :=
  Files.set h h.cells (fun _ _ hv => hv) (fun t ht => h.consum q t (h₁ ▸ ht)) (fun t ht => h.prod q t (h₂ ▸ ht))

/-- A cell that no ring holds. -/
theorem Files.fuite {new : FifoProcess} {heap : Heap π} {x : π} (h : Files f m lab occ)
    (ho : addProcess none x m.heap = .ok (new, heap)) : Files f { m with heap } lab occ := by
  obtain ⟨hc, hs⟩ := h.cells.fuite ho
  exact ⟨hc, fun q t ht => hs _ _ (h.consum q t ht), fun q t ht => hs _ _ (h.prod q t ht), h.silent⟩

/-! ## Failures that are no failed assertions -/

theorem addInt_spec (a b : Int) : Ensures (· = .intOverflow) (addInt a b) (· = a + b) := by
  unfold addInt
  split
  · exact rfl
  · exact rfl

theorem modInt_spec (a b : Int) : Ensures (· = .divByZero) (modInt a b) (· = a.tmod b) := by
  unfold modInt
  split
  · exact rfl
  · exact rfl

theorem Bloc.acces_spec (b : Bloc) (i : Int) : Ensures (fun x => x = .useAfterFree ∨ x = .outOfBounds) (b.acces i) fun _ => True := by
  unfold Bloc.acces
  split
  · exact .inl rfl
  · split
    · trivial
    · exact .inr rfl

theorem addProcess_spec (fifo : FifoProcess) (x : π) (h : Heap π) :
    Ensures (· = .useAfterFree) (addProcess fifo x h) fun r => addProcess fifo x h = .ok r := by
  cases ho : addProcess fifo x h with
  | ok r => rfl
  | error e => exact addProcess_error ho

theorem extractProcess_spec (fifo : FifoProcess) (h : Heap π) :
    Ensures (fun x => x = .useAfterFree ∨ x = .nullDeref) (extractProcess fifo h) fun r => extractProcess fifo h = .ok r := by
  cases ho : extractProcess fifo h with
  | ok r => rfl
  | error e => exact extractProcess_error ho

/-! ## Before the wait -/

theorem psendEntree_spec (h : Files f m lab occ) (hx : ∀ k, ¬occ x k) (fid : Int) :
    Ensures (· ≠ .assertFailed) (psendEntree m fid x) fun r =>
      r = (.invalide, m) ∨ (∃ q, m.ouverte fid = some q ∧ r = (.passe q, m)) ∨
      ∃ q, m.ouverte fid = some q ∧ r.1 = .bloque q ∧ (m.fifoTab q).nbElement = (m.fifoTab q).size ∧
        ∀ occ', (∀ y k, occ y k → occ' y k) → occ' x (f q true) → ∃ lab', Files f r.2 lab' occ' := by
  unfold psendEntree
  split
  · exact .inl rfl
  · next q hq =>
    dsimp only
    split
    · next hnb =>
      refine Ensures.bind ((addProcess_spec ..).mono (fun _ hy => by simp [hy]) fun _ hr => hr) ?_
      rintro ⟨consum, heap⟩ ho
      refine .inr (.inr ⟨q, hq, rfl, hnb, fun occ' hocc hxk => ?_⟩)
      obtain ⟨hc, hs, hv⟩ := h.cells.ajoute hx (h.consum q) ho hocc hxk
      exact ⟨_, h.set hc hs hv fun t ht => hs _ _ (h.prod q t ht)⟩
    · exact .inr (.inl ⟨q, hq, rfl⟩)

/-- A receiver joins the ring of the senders: unless that is empty, the labels may not tell the two roles apart. -/
theorem preceiveEntree_spec (h : Files f m lab occ) (hx : ∀ k, ¬occ x k) (fid : Int)
    (hf : ∀ q, m.ouverte fid = some q → (m.fifoTab q).nbElement = 0 → (m.fifoTab q).consum = none ∨ f q true = f q false) :
    Ensures (· ≠ .assertFailed) (preceiveEntree m fid x) fun r =>
      r = (.invalide, m) ∨ (∃ q, m.ouverte fid = some q ∧ r = (.passe q, m)) ∨
      ∃ q, m.ouverte fid = some q ∧ r.1 = .bloque q ∧ (m.fifoTab q).nbElement = 0 ∧
        ∀ occ', (∀ y k, occ y k → occ' y k) → occ' x (f q false) → ∃ lab', Files f r.2 lab' occ' := by
  unfold preceiveEntree
  split
  · exact .inl rfl
  · next q hq =>
    dsimp only
    split
    · next hnb =>
      refine Ensures.bind ((addProcess_spec ..).mono (fun _ hy => by simp [hy]) fun _ hr => hr) ?_
      rintro ⟨prod, heap⟩ ho
      refine .inr (.inr ⟨q, hq, rfl, hnb, fun occ' hocc hxk => ?_⟩)
      have htail : ∀ t, (m.fifoTab q).consum = some t → Vise m.heap lab (f q false) t := by
        intro t ht
        rcases hf q hq hnb with hn | he
        · simp [hn] at ht
        · exact he ▸ h.consum q t ht
      obtain ⟨hc, hs, hv⟩ := h.cells.ajoute hx htail ho hocc hxk
      exact ⟨_, h.set hc hs (fun t ht => hs _ _ (h.consum q t ht)) hv⟩
    · exact .inr (.inl ⟨q, hq, rfl⟩)

/-! ## After the wait -/

theorem contains_none (pid : π → Int) (p : Int) (h : Heap π) : contains pid none p h = .ok false := by
  simp [contains, containsLoop]

/-- `psend` wakes at most one process, which waited in `prod`. -/
theorem psendSuite_spec (h : Files f m lab occ) (pid : π → Int) (q : Fin NBQUEUE) (message : Int) (tmp : π) :
    Ensures (· ≠ .assertFailed) (psendSuite pid m q message tmp) fun r =>
      r.1 = 0 ∧ ((r.2.1 = none ∧ Files f r.2.2 lab occ) ∨
        ∃ y lab', r.2.1 = some y ∧ occ y (f q false) ∧ Files f r.2.2 lab' fun z k => occ z k ∧ z ≠ y) := by
  rw [psendSuite, h.silent, contains_none, ok_bind]
  simp only [Bool.false_eq_true, if_false]
  refine Ensures.bind ((addInt_spec ..).mono (fun _ hy => by simp [hy]) fun _ hr => hr) fun i _ => ?_
  refine Ensures.bind ((modInt_spec ..).mono (fun _ hy => by simp [hy]) fun _ hr => hr) fun i _ => ?_
  cases (m.fifoTab q).tabMessages with
  | none => simp
  | some tab =>
    rw [deref_some, ok_bind, Bloc.ecrit]
    refine Ensures.bind (Ensures.bind ((Bloc.acces_spec ..).mono (fun _ hy => by rcases hy with rfl | rfl <;> simp)
      fun _ hr => hr) fun k _ => (Lib.ensures_ok (Q := fun _ => True) _).2 trivial) fun tab' _ => ?_
    refine Ensures.bind ((addInt_spec ..).mono (fun _ hy => by simp [hy]) fun _ hr => hr) fun nb _ => ?_
    split
    · exact ⟨rfl, .inl ⟨rfl, h.set_tails rfl rfl⟩⟩
    · next hp =>
      cases ht : (m.fifoTab q).prod with
      | none => simp [isEmpty, ht] at hp
      | some t =>
        refine Ensures.bind ((extractProcess_spec ..).mono (fun _ hy => by rcases hy with rfl | rfl <;> simp) fun _ hr => hr) ?_
        rintro ⟨prod, reveil, heap⟩ ho
        obtain ⟨y, lab', rfl, hy, hc, hs, hv⟩ := h.cells.extrait (h.prod q t ht) ho
        exact ⟨rfl, .inr ⟨y, lab', rfl, hy, h.set hc hs (fun t ht => hs _ _ (h.consum q t ht)) hv⟩⟩

/-- `preceive` wakes at most one process, which waited in `consum`. -/
theorem preceiveSuite_spec (h : Files f m lab occ) (pid : π → Int) (q : Fin NBQUEUE) (tmp : π) :
    Ensures (· ≠ .assertFailed) (preceiveSuite pid m q tmp) fun r =>
      (∃ v, r.1 = some v) ∧ ((r.2.1 = none ∧ Files f r.2.2 lab occ) ∨
        ∃ y lab', r.2.1 = some y ∧ occ y (f q true) ∧ Files f r.2.2 lab' fun z k => occ z k ∧ z ≠ y) := by
  rw [preceiveSuite, h.silent, contains_none, ok_bind]
  simp only [Bool.false_eq_true, if_false]
  cases (m.fifoTab q).tabMessages with
  | none => simp
  | some tab =>
    rw [deref_some, ok_bind, Bloc.lit]
    refine Ensures.bind (Ensures.bind ((Bloc.acces_spec ..).mono (fun _ hy => by rcases hy with rfl | rfl <;> simp)
      fun _ hr => hr) fun k _ => (Lib.ensures_ok (Q := fun _ => True) _).2 trivial) fun v _ => ?_
    refine Ensures.bind ((addInt_spec ..).mono (fun _ hy => by simp [hy]) fun _ hr => hr) fun nb _ => ?_
    refine Ensures.bind ((addInt_spec ..).mono (fun _ hy => by simp [hy]) fun _ hr => hr) fun down _ => ?_
    split
    · exact ⟨⟨v, rfl⟩, .inl ⟨rfl, h.set_tails rfl rfl⟩⟩
    · next hp =>
      cases ht : (m.fifoTab q).consum with
      | none => simp [isEmpty, ht] at hp
      | some t =>
        refine Ensures.bind ((extractProcess_spec ..).mono (fun _ hy => by rcases hy with rfl | rfl <;> simp) fun _ hr => hr) ?_
        rintro ⟨consum, reveil, heap⟩ ho
        obtain ⟨y, lab', rfl, hy, hc, hs, hv⟩ := h.cells.extrait (h.consum q t ht) ho
        exact ⟨⟨v, rfl⟩, .inr ⟨y, lab', rfl, hy, h.set hc hs hv fun t ht => hs _ _ (h.prod q t ht)⟩⟩

/-! ## What the code before the wait does -/

theorem psendEntree_ok {fid : Int} {r : Entree × Messages π} (ho : psendEntree m fid x = .ok r) :
    (m.ouverte fid = none ∧ r = (.invalide, m)) ∨
    (∃ q, m.ouverte fid = some q ∧ (m.fifoTab q).nbElement ≠ (m.fifoTab q).size ∧ r = (.passe q, m)) ∨
    ∃ q consum heap, m.ouverte fid = some q ∧ (m.fifoTab q).nbElement = (m.fifoTab q).size ∧
      addProcess (m.fifoTab q).consum x m.heap = .ok (consum, heap) ∧
      r = (.bloque q, { m.set q { m.fifoTab q with consum } with heap }) := by
  unfold psendEntree at ho
  split at ho
  · next hq => exact .inl ⟨hq, (Except.ok.inj ho).symm⟩
  · next q hq =>
    dsimp only at ho
    split at ho
    · next hn =>
      obtain ⟨⟨consum, heap⟩, ha, ho⟩ := bind_eq_ok.1 ho
      exact .inr (.inr ⟨q, consum, heap, hq, hn, ha, (Except.ok.inj ho).symm⟩)
    · next hn => exact .inr (.inl ⟨q, hq, hn, (Except.ok.inj ho).symm⟩)

/-- `psend` blocks when the queue is full. -/
theorem psendEntree_bloque {fid : Int} {q : Fin NBQUEUE} {r : Entree × Messages π} (ho : psendEntree m fid x = .ok r) :
    r.1 = .bloque q ↔ m.ouverte fid = some q ∧ (m.fifoTab q).nbElement = (m.fifoTab q).size := by
  rcases psendEntree_ok ho with ⟨hq, rfl⟩ | ⟨k, hk, hn, rfl⟩ | ⟨k, consum, heap, hk, hn, -, rfl⟩
  · simp [hq]
  · simp only [reduceCtorEq, hk, Option.some.injEq, false_iff, not_and]
    rintro rfl
    exact hn
  · simp only [Entree.bloque.injEq, hk, Option.some.injEq, iff_self_and]
    rintro rfl
    exact hn

theorem preceiveEntree_ok {fid : Int} {r : Entree × Messages π} (ho : preceiveEntree m fid x = .ok r) :
    (m.ouverte fid = none ∧ r = (.invalide, m)) ∨
    (∃ q, m.ouverte fid = some q ∧ (m.fifoTab q).nbElement ≠ 0 ∧ r = (.passe q, m)) ∨
    ∃ q prod heap, m.ouverte fid = some q ∧ (m.fifoTab q).nbElement = 0 ∧
      addProcess (m.fifoTab q).consum x m.heap = .ok (prod, heap) ∧
      r = (.bloque q, { m.set q { m.fifoTab q with prod } with heap }) := by
  unfold preceiveEntree at ho
  split at ho
  · next hq => exact .inl ⟨hq, (Except.ok.inj ho).symm⟩
  · next q hq =>
    dsimp only at ho
    split at ho
    · next hn =>
      obtain ⟨⟨prod, heap⟩, ha, ho⟩ := bind_eq_ok.1 ho
      exact .inr (.inr ⟨q, prod, heap, hq, hn, ha, (Except.ok.inj ho).symm⟩)
    · next hn => exact .inr (.inl ⟨q, hq, hn, (Except.ok.inj ho).symm⟩)

/-- `preceive` blocks when the queue is empty. -/
theorem preceiveEntree_bloque {fid : Int} {q : Fin NBQUEUE} {r : Entree × Messages π} (ho : preceiveEntree m fid x = .ok r) :
    r.1 = .bloque q ↔ m.ouverte fid = some q ∧ (m.fifoTab q).nbElement = 0 := by
  rcases preceiveEntree_ok ho with ⟨hq, rfl⟩ | ⟨k, hk, hn, rfl⟩ | ⟨k, prod, heap, hk, hn, -, rfl⟩
  · simp [hq]
  · simp only [reduceCtorEq, hk, Option.some.injEq, false_iff, not_and]
    rintro rfl
    exact hn
  · simp only [Entree.bloque.injEq, hk, Option.some.injEq, iff_self_and]
    rintro rfl
    exact hn

/-! ## What the code after the wait does -/

/-- `psend` after the wait, when no call is cancelled. -/
theorem psendSuite_ok {pid : π → Int} {message : Int} {tmp : π} {r : Int × Option π × Messages π}
    (hs : m.shouldReceiveNegativeOne = none) (ho : psendSuite pid m q message tmp = .ok r) :
    ∃ tab tab' prod heap, (m.fifoTab q).tabMessages = some tab ∧ (m.fifoTab q).size ≠ 0 ∧
      tab.ecrit (((m.fifoTab q).down + (m.fifoTab q).nbElement).tmod (m.fifoTab q).size) message = .ok tab' ∧
      extractProcess (m.fifoTab q).prod m.heap = .ok (prod, premier m.heap (m.fifoTab q).prod, heap) ∧
      r = (0, premier m.heap (m.fifoTab q).prod, { m.set q { m.fifoTab q with
        tabMessages := some tab', nbElement := (m.fifoTab q).nbElement + 1, prod } with heap }) := by
  rw [psendSuite, hs, contains_none, ok_bind] at ho
  simp only [Bool.false_eq_true, if_false] at ho
  obtain ⟨i, hi, ho⟩ := bind_eq_ok.1 ho
  obtain rfl := (addInt_spec _ _).of_ok hi
  obtain ⟨j, hj, ho⟩ := bind_eq_ok.1 ho
  have hsize : (m.fifoTab q).size ≠ 0 := by
    intro h0
    rw [modInt, if_pos h0] at hj
    cases hj
  obtain rfl := (modInt_spec _ _).of_ok hj
  obtain ⟨tab, ht, ho⟩ := bind_eq_ok.1 ho
  rw [deref_eq_ok] at ht
  obtain ⟨tab', ht', ho⟩ := bind_eq_ok.1 ho
  obtain ⟨nb, hn, ho⟩ := bind_eq_ok.1 ho
  obtain rfl := (addInt_spec _ _).of_ok hn
  split at ho
  · next he =>
    have hp : (m.fifoTab q).prod = none := by simpa [isEmpty] using he
    obtain rfl := Except.ok.inj ho
    refine ⟨tab, tab', none, m.heap, ht, hsize, ht', by rw [hp]; rfl, ?_⟩
    rw [hp, show premier m.heap none = none from rfl]
    simp [Messages.set, ← hp]
  · obtain ⟨⟨prod, reveil, heap⟩, hx, ho⟩ := bind_eq_ok.1 ho
    obtain rfl := extractProcess_premier hx
    obtain rfl := Except.ok.inj ho
    exact ⟨tab, tab', prod, heap, ht, hsize, ht', hx, rfl⟩

/-- `preceive` after the wait, when no call is cancelled. -/
theorem preceiveSuite_ok {pid : π → Int} {tmp : π} {r : Option Int × Option π × Messages π}
    (hs : m.shouldReceiveNegativeOne = none) (ho : preceiveSuite pid m q tmp = .ok r) :
    ∃ tab v consum heap, (m.fifoTab q).tabMessages = some tab ∧ tab.lit (m.fifoTab q).down = .ok v ∧
      extractProcess (m.fifoTab q).consum m.heap = .ok (consum, premier m.heap (m.fifoTab q).consum, heap) ∧
      r = (some v, premier m.heap (m.fifoTab q).consum, { m.set q { m.fifoTab q with
        nbElement := (m.fifoTab q).nbElement - 1,
        down := if (m.fifoTab q).down + 1 = (m.fifoTab q).size then 0 else (m.fifoTab q).down + 1, consum } with heap }) := by
  rw [preceiveSuite, hs, contains_none, ok_bind] at ho
  simp only [Bool.false_eq_true, if_false] at ho
  obtain ⟨tab, ht, ho⟩ := bind_eq_ok.1 ho
  rw [deref_eq_ok] at ht
  obtain ⟨v, hv, ho⟩ := bind_eq_ok.1 ho
  obtain ⟨nb, hn, ho⟩ := bind_eq_ok.1 ho
  obtain rfl := (addInt_spec _ _).of_ok hn
  obtain ⟨down, hd, ho⟩ := bind_eq_ok.1 ho
  obtain rfl := (addInt_spec _ _).of_ok hd
  split at ho
  · next he =>
    have hp : (m.fifoTab q).consum = none := by simpa [isEmpty] using he
    obtain rfl := Except.ok.inj ho
    refine ⟨tab, v, none, m.heap, ht, hv, by rw [hp]; rfl, ?_⟩
    rw [hp, show premier m.heap none = none from rfl]
    simp [Messages.set, ← hp, Int.sub_eq_add_neg]
  · obtain ⟨⟨consum, reveil, heap⟩, hx, ho⟩ := bind_eq_ok.1 ho
    obtain rfl := extractProcess_premier hx
    obtain rfl := Except.ok.inj ho
    exact ⟨tab, v, consum, heap, ht, hv, hx, rfl⟩

/-! ## Creation -/

theorem pcreate_spec (h : Files f m lab occ) (count : Int) (contenu : Option (Nat → Int)) :
    Files f (pcreate m count contenu).2 lab occ := by
  unfold pcreate
  split
  · exact h
  · split
    · exact h
    · exact Files.set h h.cells (fun _ _ hv => hv) nofun nofun

end Pcsea
