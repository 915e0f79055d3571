import Pcsea.Echanges
/-!
# The circular buffer of a message queue

While no call on a queue has to wait, `tab_messages` is a bounded queue: the
place written is computed modulo `size` and the place read wraps by a
comparison, and the two agree around the buffer. `pcreate` does not make sure
that there is one.
-/

namespace Pcsea

open Lib

variable {s s' s₁ : St} {f : FifoMessages} {q : Fin NBQUEUE} {k : Nat} {l l₁ l₂ : List Int} {v : Int} {a : Slot}
  {op : FifoOp Int} {ops : List (FifoOp Int)} {r : Issue} {rs : List Issue} {o : Option Int} {vs : List (Option Int)}

/-- A queue in use, of size `k`: its block is there, and the window of `nbElement` messages from `down` on holds `l`. -/
structure FifoMessages.EnService (f : FifoMessages) (k : Nat) (l : List Int) : Prop where
  used : f.used = true
  size : f.size = k
  bloc : ∃ tab, f.tabMessages = some tab ∧ tab.libere = false ∧ 4 * k ≤ tab.octets
  contient : f.Contient l

/-- Somebody waits on the queue. -/
def FifoMessages.Attendue (f : FifoMessages) : Prop := f.consum ≠ none ∨ f.prod ≠ none

/-- The places that `psend` and `preceive` compute are those of the buffer, and none of their sums overflows. -/
structure FifoMessages.Indices (f : FifoMessages) : Prop where
  somme : f.down + f.nbElement < 2 ^ 31
  compte : f.nbElement + 1 < 2 ^ 31
  lit : 0 ≤ f.down ∧ f.down < f.size ∧ f.down + 1 < 2 ^ 31
  ecrit : 0 ≤ (f.down + f.nbElement).tmod f.size ∧ (f.down + f.nbElement).tmod f.size < f.size

theorem FifoMessages.EnService.indices (h : f.EnService k l) (hk : k ≤ 2 ^ 29) : f.Indices := by
  have hb := h.contient.bornes
  have hs := h.size
  have hsum : 0 ≤ f.down + f.nbElement := by omega
  refine ⟨by omega, by omega, by omega, Int.tmod_nonneg _ hsum, ?_⟩
  rw [Int.tmod_eq_emod_of_nonneg hsum]
  exact Int.emod_lt_of_pos _ (by omega)

theorem ouverte_val (m : Messages Slot) (h : (m.fifoTab q).used = true) : m.ouverte (q.val : Int) = some q := by
  have hq : 0 ≤ (q.val : Int) ∧ (q.val : Int) < NBQUEUE := ⟨by omega, by exact_mod_cast q.isLt⟩
  rw [Messages.ouverte, dif_pos hq]
  simp [h]

/-! ## One call -/

/-- The call of an operation on queue `q`. -/
def appelleFile (q : Fin NBQUEUE) : FifoOp Int → St → Except Fault (Issue × St)
  | .push v, s => psend q v s
  | .pop, s => preceive q s

/-- Both return 0, and `preceive` stores the message it gives. -/
def issueFile (q : Fin NBQUEUE) : FifoOp Int → Option Int → Issue
  | .push v, _ => .emis q v
  | .pop, v => .recu q (v.getD 0)

theorem Bloc.acces_ok {b : Bloc} {i : Int} {n : Nat} (hl : b.libere = false) (hb : 4 * n ≤ b.octets) (h₀ : 0 ≤ i) (h₁ : i < n) :
    b.acces i = .ok i.toNat := by
  rw [Bloc.acces, hl, if_neg (by simp), if_pos ⟨h₀, by omega⟩]

theorem Bloc.ecrit_acces {b : Bloc} {i : Int} {n : Nat} (h : b.acces i = .ok n) (v : Int) :
    b.ecrit i v = .ok { b with mots := Function.update b.mots n v } := by
  rw [Bloc.ecrit, h]
  rfl

theorem Bloc.lit_acces {b : Bloc} {i : Int} {n : Nat} (h : b.acces i = .ok n) : b.lit i = .ok (b.mots n) := by
  rw [Bloc.lit, h]
  rfl

theorem FifoMessages.EnService.depose (h : f.EnService k l) (hk : k ≤ 2 ^ 29) (hl : l.length < k) (v : Int) :
    ∃ tab tab', f.tabMessages = some tab ∧ tab.ecrit ((f.down + f.nbElement).tmod f.size) v = .ok tab' ∧
      ∀ prod, ({ f with tabMessages := some tab', nbElement := f.nbElement + 1, prod } : FifoMessages).EnService k (l ++ [v]) := by
  obtain ⟨tab, ht, hlib, hb⟩ := h.bloc
  have hi := (h.indices hk).ecrit
  have hacc := Bloc.acces_ok hlib hb hi.1 (h.size ▸ hi.2)
  have hw := Bloc.ecrit_acces hacc v
  have hn : f.nbElement < f.size := by
    obtain ⟨k', d, hk', -, hn, -⟩ := h.contient
    rw [hn, h.size]
    exact_mod_cast hl
  exact ⟨tab, _, ht, hw, fun prod => ⟨h.used, h.size, ⟨_, rfl, hlib, hb⟩, h.contient.depose hn ht hw⟩⟩

theorem FifoMessages.EnService.retire (h : f.EnService k (v :: l)) (hk : k ≤ 2 ^ 29) :
    ∃ tab, f.tabMessages = some tab ∧ tab.lit f.down = .ok v ∧ ∀ consum, ({ f with
      nbElement := f.nbElement - 1, down := if f.down + 1 = f.size then 0 else f.down + 1, consum } : FifoMessages).EnService k l := by
  obtain ⟨tab, ht, hlib, hb⟩ := h.bloc
  have hi := (h.indices hk).lit
  have hacc := Bloc.acces_ok hlib hb hi.1 (h.size ▸ hi.2.1)
  have hr := Bloc.lit_acces hacc
  have hn : 0 < f.nbElement := by
    obtain ⟨k', d, -, -, hn, -⟩ := h.contient
    rw [hn, List.length_cons]
    omega
  have hout (consum : FifoProcess) := h.contient.retire consum hn ht hr
  obtain ⟨l', hl', -⟩ := hout none
  obtain ⟨hv, rfl⟩ := List.cons.inj hl'
  rw [← hv] at hr
  refine ⟨tab, ht, hr, fun consum => ⟨h.used, h.size, ⟨tab, ht, hlib, hb⟩, ?_⟩⟩
  obtain ⟨l', hl', hc⟩ := hout consum
  obtain ⟨-, rfl⟩ := List.cons.inj hl'
  exact hc

/-- The queue `q` holds `l` after a call, the others are as in `m`, and the call has made nobody wait. -/
structure Depot (m m' : Messages Slot) (q : Fin NBQUEUE) (k : Nat) (l : List Int) : Prop where
  enService : (m'.fifoTab q).EnService k l
  attendue : (m'.fifoTab q).Attendue → (m.fifoTab q).Attendue
  autres : ∀ j, j ≠ q → m'.fifoTab j = m.fifoTab j
  silent : m'.shouldReceiveNegativeOne = none

variable {m m' : Messages Slot} {pid : Slot → Int} {tmp : Slot}

/-- `psend` where it has not to wait. It fails only in the waking of a receiver. -/
theorem psendSuite_depot (hm : m.shouldReceiveNegativeOne = none) (h : (m.fifoTab q).EnService k l) (hk : k ≤ 2 ^ 29)
    (hl : l.length < k) (v : Int) :
    Ensures (fun _ => (m.fifoTab q).Attendue) (psendSuite pid m q v tmp) fun c => c.1 = 0 ∧ Depot m c.2.2 q k (l ++ [v]) ∧
      (¬(m.fifoTab q).Attendue → c.2.1 = none) := by
  have hi := h.indices hk
  have hb := h.contient.bornes
  obtain ⟨tab, tab', ht, hw, hs⟩ := h.depose hk hl v
  have hautres (g : FifoMessages) : ∀ j, j ≠ q → (m.set q g).fifoTab j = m.fifoTab j := fun j hj => by simp [Messages.set, hj]
  rw [psendSuite, hm, contains_none, ok_bind]
  simp only [Bool.false_eq_true, if_false]
  rw [addInt_ok (by omega) hi.somme, ok_bind, modInt, if_neg (by omega), ok_bind, ht, deref_some, ok_bind, hw, ok_bind,
    addInt_ok (by omega) hi.compte, ok_bind]
  cases hp : (m.fifoTab q).prod with
  | none =>
    rw [if_pos (by rfl)]
    refine ⟨rfl, ⟨?_, fun ha => ?_, hautres _, hm⟩, fun _ => rfl⟩
    · have := hs none
      simpa [Messages.set, hp] using this
    · simpa [Messages.set, FifoMessages.Attendue, hp] using ha
  | some t =>
    have ha : (m.fifoTab q).Attendue := .inr (by simp [hp])
    rw [if_neg (by simp [isEmpty])]
    refine Ensures.bind ((assure_any _).mono (fun _ _ => ha) fun _ hr => hr) ?_
    rintro ⟨prod, reveil, heap⟩ -
    refine ⟨rfl, ⟨?_, fun _ => ha, hautres _, hm⟩, absurd ha⟩
    simpa [Messages.set] using hs prod

/-- `preceive` where it has not to wait. It fails only in the waking of a sender. -/
theorem preceiveSuite_depot (hm : m.shouldReceiveNegativeOne = none) (h : (m.fifoTab q).EnService k (v :: l)) (hk : k ≤ 2 ^ 29) :
    Ensures (fun _ => (m.fifoTab q).Attendue) (preceiveSuite pid m q tmp) fun c => c.1 = some v ∧ Depot m c.2.2 q k l ∧
      (¬(m.fifoTab q).Attendue → c.2.1 = none) := by
  have hi := h.indices hk
  have hb := h.contient.bornes
  obtain ⟨tab, ht, hr, hs⟩ := h.retire hk
  have hautres (g : FifoMessages) : ∀ j, j ≠ q → (m.set q g).fifoTab j = m.fifoTab j := fun j hj => by simp [Messages.set, hj]
  have hn : 0 < (m.fifoTab q).nbElement := by
    obtain ⟨k', d, -, -, hn, -⟩ := h.contient
    rw [hn, List.length_cons]
    omega
  rw [preceiveSuite, hm, contains_none, ok_bind]
  simp only [Bool.false_eq_true, if_false]
  have hc := hi.compte
  rw [ht, deref_some, ok_bind, hr, ok_bind, addInt_ok (by omega) (by omega), ok_bind, addInt_ok (by omega) hi.lit.2.2, ok_bind]
  cases hp : (m.fifoTab q).consum with
  | none =>
    rw [if_pos (by rfl)]
    refine ⟨rfl, ⟨?_, fun ha => ?_, hautres _, hm⟩, fun _ => rfl⟩
    · have := hs none
      simpa [Messages.set, hp, ht, Int.sub_eq_add_neg] using this
    · simpa [Messages.set, FifoMessages.Attendue, hp] using ha
  | some t =>
    have ha : (m.fifoTab q).Attendue := .inl (by simp [hp])
    rw [if_neg (by simp [isEmpty])]
    refine Ensures.bind ((assure_any _).mono (fun _ _ => ha) fun _ hr => hr) ?_
    rintro ⟨consum, reveil, heap⟩ -
    refine ⟨rfl, ⟨?_, fun _ => ha, hautres _, hm⟩, absurd ha⟩
    simpa [Messages.set, ht, Int.sub_eq_add_neg] using hs consum

/-- Who is woken changes nothing in the queues. -/
theorem reveille_depot {o : Option Slot} (h : ¬(s.messages.fifoTab q).Attendue → o = none) :
    Ensures (fun _ => (s.messages.fifoTab q).Attendue) (reveille o { s with messages := m }) fun s' => s'.messages = m := by
  by_cases ha : (s.messages.fifoTab q).Attendue
  · cases ho : reveille o { s with messages := m } with
    | ok s' => exact reveille_tait ho
    | error x => exact ha
  · rw [h ha]
    rfl

/-- A call that has not to wait does on the buffer what it does on the queue. It fails only in the waking of somebody. -/
theorem appelleFile_spec (ha : s.actif = some a) (hm : s.messages.shouldReceiveNegativeOne = none)
    (h : (s.messages.fifoTab q).EnService k l) (hk : k ≤ 2 ^ 29) (hop : op.run k l = some (o, l₁)) :
    Ensures (fun _ => (s.messages.fifoTab q).Attendue) (appelleFile q op s) fun c => c.1 = issueFile q op o ∧
      Depot s.messages c.2.messages q k l₁ := by
  have hq := ouverte_val s.messages h.used
  -- The number of elements decides whether the call waits.
  have hn : (s.messages.fifoTab q).nbElement = l.length := by
    obtain ⟨k', d, -, -, hn, -⟩ := h.contient
    exact hn
  cases op with
  | push v =>
    rw [FifoOp.run] at hop
    split at hop
    · next hl =>
      cases hop
      have hne : (s.messages.fifoTab q).nbElement ≠ (s.messages.fifoTab q).size := by
        rw [hn, h.size]
        omega
      rw [appelleFile, psend, ha, deref_some, ok_bind, psendEntree, hq]
      dsimp only
      rw [if_neg hne, ok_bind]
      refine Ensures.bind (psendSuite_depot hm h hk hl v) ?_
      rintro ⟨r, p, m⟩ ⟨rfl, hd, hp⟩
      refine Ensures.bind (reveille_depot hp) fun s' hs => ⟨rfl, ?_⟩
      rw [hs]
      exact hd
    · cases hop
  | pop =>
    cases l with
    | nil => cases hop
    | cons v l =>
      cases hop
      have hne : (s.messages.fifoTab q).nbElement ≠ 0 := by
        rw [hn, List.length_cons]
        omega
      rw [appelleFile, preceive, ha, deref_some, ok_bind, preceiveEntree, hq]
      dsimp only
      rw [if_neg hne, ok_bind]
      refine Ensures.bind (preceiveSuite_depot hm h hk) ?_
      rintro ⟨r, p, m⟩ ⟨rfl, hd, hp⟩
      refine Ensures.bind (reveille_depot hp) fun s' hs => ⟨rfl, ?_⟩
      rw [hs]
      exact hd

/-! ## Sequences of calls -/

/-- The calls `ops` on queue `q` with their results. Between two of them the rest of the kernel runs and leaves this queue alone. -/
inductive Appels (q : Fin NBQUEUE) (s : St) : List (FifoOp Int) → List Issue → St → Prop
  | debut : Appels q s [] [] s
  | ailleurs {ops : List (FifoOp Int)} {rs : List Issue} {s₁ s₂ : St} : Appels q s ops rs s₁ →
      s₂.messages.fifoTab q = s₁.messages.fifoTab q → s₂.messages.shouldReceiveNegativeOne = none → Appels q s ops rs s₂
  | appel {ops : List (FifoOp Int)} {rs : List Issue} {s₁ s₂ : St} {op : FifoOp Int} {r : Issue} : Appels q s ops rs s₁ →
      appelleFile q op s₁ = .ok (r, s₂) → Appels q s (ops ++ [op]) (rs ++ [r]) s₂

/-- After the calls the queue is in use, nobody waits who did not, and the results are those of the queue. -/
theorem Appels.spec (hr : Appels q s ops rs s₁) (hm : s.messages.shouldReceiveNegativeOne = none)
    (h : (s.messages.fifoTab q).EnService k l) (hk : k ≤ 2 ^ 29) (hops : runFifo k ops l = some (vs, l₁)) :
    (s₁.messages.fifoTab q).EnService k l₁ ∧ s₁.messages.shouldReceiveNegativeOne = none ∧ rs = ops.zipWith (issueFile q) vs ∧
      ops.length = vs.length ∧ ((s₁.messages.fifoTab q).Attendue → (s.messages.fifoTab q).Attendue) := by
  induction hr generalizing vs l₁ with
  | debut =>
    cases hops
    exact ⟨h, hm, rfl, rfl, id⟩
  | ailleurs _ hq hm' ih =>
    obtain ⟨h₁, -, hrs, hlen, hatt⟩ := ih hops
    exact ⟨hq ▸ h₁, hm', hrs, hlen, hq ▸ hatt⟩
  | @appel ops rs s₁ s₂ op r _ ho ih =>
    obtain ⟨vs₁, l₂, o, hrun, hop, rfl⟩ := runAll_concat.1 hops
    obtain ⟨h₁, hm₁, rfl, hlen, hatt⟩ := ih hrun
    -- The call has run, so some process made it.
    obtain ⟨a, ha⟩ : ∃ a, s₁.actif = some a := by
      cases op <;> obtain ⟨a, hact, -⟩ := bind_eq_ok.1 ho <;> exact ⟨a, deref_eq_ok.1 hact⟩
    obtain ⟨rfl, hd⟩ := (appelleFile_spec ha hm₁ h₁ hk hop).of_ok ho
    refine ⟨hd.enService, hd.silent, ?_, by simp [hlen], hatt ∘ hd.attendue⟩
    rw [List.zipWith_append hlen]
    rfl

/-- The buffer of a queue of 1 to 2^29 places is a bounded queue. After any calls that had not to wait, whatever the rest of the
kernel did between them, the places computed are in the buffer, what was received is what was sent, in order, and the next call
that has not to wait adds its message behind the others or removes the first; it fails only in the waking of somebody. -/
theorem circular_buffer_refines (hm : s.messages.shouldReceiveNegativeOne = none) (h : (s.messages.fifoTab q).EnService k l)
    (hk : k ≤ 2 ^ 29) (hr : Appels q s ops rs s₁) (hops : runFifo k ops l = some (vs, l₁)) :
    (s₁.messages.fifoTab q).EnService k l₁ ∧ (s₁.messages.fifoTab q).Indices ∧
      rs = ops.zipWith (issueFile q) vs ∧ l ++ ops.filterMap FifoOp.pushed = vs.reduceOption ++ l₁ ∧
      ((s₁.messages.fifoTab q).Attendue → (s.messages.fifoTab q).Attendue) ∧
      ∀ op o l₂ a, op.run k l₁ = some (o, l₂) → s₁.actif = some a →
        Ensures (fun _ => (s₁.messages.fifoTab q).Attendue) (appelleFile q op s₁) fun c =>
          c.1 = issueFile q op o ∧ Depot s₁.messages c.2.messages q k l₂ := by
  obtain ⟨h₁, hm₁, hrs, -, hatt⟩ := hr.spec hm h hk hops
  exact ⟨h₁, h₁.indices hk, hrs, runFifo_order hops, hatt, fun op o l₂ a hop ha => appelleFile_spec ha hm₁ h₁ hk hop⟩

/-! ## A new queue -/

/-- `pcreate` gives an empty queue on which nobody waits. -/
theorem pcreate_enService {count : Nat} {mots : Nat → Int} (h₁ : 1 ≤ count) (h₂ : count ≤ 2 ^ 29)
    (hc : pcreate m count (some mots) = ((q.val : Int), m')) : (m'.fifoTab q).EnService count [] ∧ ¬(m'.fifoTab q).Attendue := by
  rw [pcreate, if_neg (by omega)] at hc
  split at hc
  · have := congrArg Prod.fst hc
    dsimp only at this
    omega
  · next p hp =>
    obtain ⟨hpq, rfl⟩ := Prod.mk.inj hc
    obtain rfl : p = q := Fin.ext (by exact_mod_cast hpq)
    have hoctets : toUint32 (4 * count) = 4 * count := by
      simp only [toUint32]
      omega
    simp only [Messages.set, Function.update_self, FifoMessages.Attendue, initList]
    refine ⟨⟨rfl, rfl, ⟨_, rfl, rfl, hoctets.ge⟩, count, 0, rfl, rfl, rfl, h₁, by simp, fun _ _ => .nil⟩, by simp⟩

/-- A queue of one place, around which two messages go. -/
theorem circular_buffer_refines_one :
    ∃ s q rs s₁, (s.messages.fifoTab q).EnService 1 [] ∧ Appels q s [.push 5, .pop, .push 6] rs s₁ ∧
      (s₁.messages.fifoTab q).EnService 1 [6] ∧ (s₁.messages.fifoTab q).Indices ∧
      rs = List.zipWith (issueFile q) [.push 5, .pop, .push 6] [none, some 5, none] ∧
      ([] : List Int) ++ [.push 5, .pop, .push 6].filterMap FifoOp.pushed = [none, some 5, none].reduceOption ++ [6] ∧
      ((s₁.messages.fifoTab q).Attendue → (s.messages.fifoTab q).Attendue) ∧
      ∀ op o l₂ a, op.run 1 [6] = some (o, l₂) → s₁.actif = some a →
        Ensures (fun _ => (s₁.messages.fifoTab q).Attendue) (appelleFile q op s₁) fun c =>
          c.1 = issueFile q op o ∧ Depot s₁.messages c.2.messages q 1 l₂ := by
  let s : St := { St.zero with actif := some 1, messages := (pcreate Messages.boot 1 (some fun _ => 0)).2 }
  let q : Fin NBQUEUE := ⟨0, by decide⟩
  have h : (s.messages.fifoTab q).EnService 1 [] := (pcreate_enService (m := Messages.boot) (by decide) (by decide) rfl).1
  obtain ⟨s₁, hr⟩ : ∃ s₁, Appels q s [.push 5, .pop, .push 6] [.emis q 5, .recu q 5, .emis q 6] s₁ :=
    ⟨_, .appel (.appel (.appel .debut rfl) rfl) rfl⟩
  exact ⟨s, q, _, s₁, h, hr, circular_buffer_refines rfl h (by decide) hr rfl⟩

/-- What is asked of `pcreate(count)`, when `mem_alloc` returns `contenu`: a queue whose buffer has room for `count` messages, or
-1 and nothing changed. -/
def CreationSure (m : Messages Slot) (count : Int) (contenu : Option (Nat → Int)) : Prop :=
  (0 ≤ (pcreate m count contenu).1 → 1 ≤ count ∧ 4 * count < 2 ^ 32 ∧ ∃ q : Fin NBQUEUE, (pcreate m count contenu).1 = q.val ∧
    (m.fifoTab q).used = false ∧ ∃ tab, ((pcreate m count contenu).2.fifoTab q).tabMessages = some tab ∧ 4 * count ≤ tab.octets ∧
      ((pcreate m count contenu).2.fifoTab q).size = count ∧ ∀ i, 0 ≤ i → i < count → ∃ n, tab.acces i = .ok n) ∧
  (count < 1 ∨ (∀ q, (m.fifoTab q).used = true) ∨ 2 ^ 32 ≤ 4 * count ∨ contenu = none → pcreate m count contenu = (-1, m))

theorem pcreate_refus {count : Int} {contenu : Option (Nat → Int)} (h : count < 1 ∨ ∀ q, (m.fifoTab q).used = true) :
    pcreate m count contenu = (-1, m) := by
  rw [pcreate]
  split
  · rfl
  · next hc =>
    have hu := h.resolve_left hc
    have hfind : (List.finRange NBQUEUE).find? (fun i => !(m.fifoTab i).used) = none := by
      rw [List.find?_eq_none]
      simp [hu]
    rw [hfind]

theorem pcreate_prend {count : Int} (h₁ : ¬count < 1) (h₂ : ∃ q, (m.fifoTab q).used = false) (contenu : Option (Nat → Int)) :
    ∃ q, (m.fifoTab q).used = false ∧ pcreate m count contenu = ((q.val : Int), m.set q
      { fid := q, down := 0, size := count, consum := none, prod := none, used := true, nbElement := 0,
        tabMessages := memAlloc contenu (toUint32 (4 * count)) }) := by
  rw [pcreate, if_neg h₁]
  split
  · next hn =>
    obtain ⟨q, hq⟩ := h₂
    have := List.find?_eq_none.1 hn q (List.mem_finRange q)
    simp [hq] at this
  · next q hq =>
    have := List.find?_some hq
    exact ⟨q, by simpa using this, rfl⟩

/-- `pcreate` neither looks at what `mem_alloc` returns nor at the size it asks for. -/
theorem pcreate_sure {count : Int} {contenu : Option (Nat → Int)} :
    CreationSure m count contenu ↔ count < 1 ∨ (∀ q, (m.fifoTab q).used = true) ∨ (4 * count < 2 ^ 32 ∧ contenu ≠ none) := by
  -- The two refusals come first; then the size must not wrap and the block must be there.
  by_cases h₁ : count < 1
  · have hr : pcreate m count contenu = (-1, m) := pcreate_refus (.inl h₁)
    refine iff_of_true ⟨fun h => ?_, fun _ => hr⟩ (.inl h₁)
    rw [hr] at h
    omega
  by_cases h₂ : ∀ q, (m.fifoTab q).used = true
  · have hr : pcreate m count contenu = (-1, m) := pcreate_refus (.inr h₂)
    refine iff_of_true ⟨fun h => ?_, fun _ => hr⟩ (.inr (.inl h₂))
    rw [hr] at h
    omega
  simp only [h₁, h₂, false_or]
  push Not at h₂
  obtain ⟨q, hq, hc⟩ := pcreate_prend h₁ (h₂.imp fun q hq => by simpa using hq) contenu
  have hpos : 0 ≤ (pcreate m count contenu).1 := by
    rw [hc]
    exact Int.natCast_nonneg _
  constructor
  · rintro ⟨h, -⟩
    obtain ⟨-, hlt, q', hq', -, tab, ht, -⟩ := h hpos
    refine ⟨hlt, ?_⟩
    rintro rfl
    rw [hc] at hq' ht
    have hval : (q.val : Int) = q'.val := hq'
    obtain rfl : q = q' := Fin.ext (by exact_mod_cast hval)
    simp [Messages.set, memAlloc] at ht
  · rintro ⟨hlt, hcont⟩
    obtain ⟨mots, rfl⟩ := Option.ne_none_iff_exists'.1 hcont
    have hoctets : (toUint32 (4 * count) : Int) = 4 * count := by
      simp only [toUint32]
      omega
    refine ⟨fun _ => ⟨by omega, hlt, q, by rw [hc], hq, ⟨toUint32 (4 * count), mots, false⟩, ?_, hoctets.ge, ?_, ?_⟩, ?_⟩
    · simp [hc, Messages.set, memAlloc]
    · simp [hc, Messages.set]
    · intro i hi hic
      exact ⟨i.toNat, Bloc.acces_ok (n := count.toNat) rfl (by dsimp only; omega) hi (by omega)⟩
    · rintro (h | h | h)
      · exact absurd h (not_lt.2 (by omega))
      · obtain ⟨j, hj⟩ := h₂
        exact absurd (h j) hj
      · rcases h with h | h
        · omega
        · cases h

/-- The size wraps around: a block of 12 bytes for 1073741827 messages. -/
theorem pcreate_sure_fails : ¬∀ (m : Messages Slot) count contenu, -2 ^ 31 ≤ count → count < 2 ^ 31 → CreationSure m count contenu := by
  intro h
  obtain ⟨-, h⟩ := h Messages.boot 1073741827 (some fun _ => 0) (by decide) (by decide)
  have := congrArg Prod.fst (h (.inr (.inr (.inl (by decide)))))
  revert this
  decide

end Pcsea
