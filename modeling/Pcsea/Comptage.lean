import Mathlib.Data.Set.Card
import Pcsea.Rondes
/-!
# `pcount`

`getSize` follows the links until NULL, and the links of a ring never come to
it: `pcount` returns only where both rings are empty. It does not look at
`used`, and leaves `*count` alone where the count is 0.
-/

namespace Pcsea

open Lib

variable {s : St} {tr : List (St × Event × Issue)} {q : Fin NBQUEUE} {x : Slot} {fid : Int} {m : Messages Slot} {h : Heap Slot}
  {fifo : FifoProcess}

/-! ## Rings have no end -/

/-- No allocated cell has a NULL link. -/
def Heap.SansFin (h : Heap Slot) : Prop := ∀ b c, h.cell b = some c → c.next ≠ none

theorem getSizeLoop_sansFin {n b : Nat} {k : Int} (hs : h.SansFin) : getSizeLoop h n (some b) ≠ .ok k := by
  induction n generalizing b k with
  | zero => nofun
  | succ n ih =>
    intro ho
    obtain ⟨c, hc, ho⟩ := bind_eq_ok.1 ho
    obtain ⟨t, ht⟩ := Option.ne_none_iff_exists'.1 (hs b c (Heap.read_eq_ok.1 hc))
    obtain ⟨k', hk, -⟩ := bind_eq_ok.1 ho
    rw [ht] at hk
    exact ih hk

/-- `getSize` stops on the empty list only. -/
theorem getSize_sansFin {k : Int} (hs : h.SansFin) : getSize fifo h = .ok k ↔ fifo = none ∧ k = 0 := by
  cases fifo with
  | none => simp [getSize, getSizeLoop, eq_comm]
  | some b => exact iff_of_false (getSizeLoop_sansFin hs) (by simp)

theorem addProcess_sansFin (hs : h.SansFin) (hf : ∀ t, fifo = some t → t < h.length) :
    Assure (addProcess fifo x h) fun r => Heap.SansFin r.2 ∧ h.length ≤ r.2.length ∧ ∀ t, r.1 = some t → t < r.2.length := by
  refine ensures_of_ok fun r ho => ?_
  obtain ⟨new, h'⟩ := r
  obtain ⟨rfl, hlen, hc⟩ := addProcess_cell hf ho
  refine ⟨fun b c hb => ?_, by dsimp only; omega, ?_⟩
  · rcases hc with ⟨-, hc⟩ | ⟨f, d, hfd, hd, hc⟩
    · rw [hc] at hb
      split at hb
      · cases hb
        nofun
      · exact hs b c hb
    · rw [hc] at hb
      split at hb
      · cases hb
        exact hs f d hd
      · split at hb
        · cases hb
          nofun
        · exact hs b c hb
  · rintro t ⟨⟩
    dsimp only
    omega

theorem extractProcess_sansFin (hs : h.SansFin) :
    Assure (extractProcess fifo h) fun r => r.2.2.SansFin ∧ r.2.2.length = h.length ∧ ∀ t, r.1 = some t → fifo = some t := by
  refine ensures_of_ok fun r ho => ?_
  obtain ⟨new, o, h'⟩ := r
  rcases extractProcess_cell ho with ⟨rfl, rfl, -, rfl⟩ | ⟨f, c, t, d, rfl, -, -, hd, -, hlen, hnew, hc⟩
  · exact ⟨hs, rfl, nofun⟩
  · refine ⟨fun b c' hb => ?_, hlen, ?_⟩
    · rw [hc] at hb
      split at hb
      · cases hb
      · split at hb
        · cases hb
          exact hs t d hd
        · exact hs b c' hb
    · rintro u rfl
      rcases hnew with hn | ⟨hn, -⟩
      · cases hn
      · exact hn.symm

/-- The rings go round, their tails are pointers on cells, and `nbElement` is an `int`. -/
structure Tournants (m : Messages Slot) : Prop where
  sansFin : m.heap.SansFin
  annules : ∀ t, m.shouldReceiveNegativeOne = some t → t < m.heap.length
  consum : ∀ q t, (m.fifoTab q).consum = some t → t < m.heap.length
  prod : ∀ q t, (m.fifoTab q).prod = some t → t < m.heap.length
  entier : ∀ q, -2 ^ 31 ≤ (m.fifoTab q).nbElement ∧ (m.fifoTab q).nbElement < 2 ^ 31

theorem Tournants.set {g : FifoMessages} (hm : Tournants m) (hs : h.SansFin) (hl : m.heap.length ≤ h.length)
    (h₁ : ∀ t, g.consum = some t → t < h.length) (h₂ : ∀ t, g.prod = some t → t < h.length)
    (h₃ : -2 ^ 31 ≤ g.nbElement ∧ g.nbElement < 2 ^ 31) : Tournants { m.set q g with heap := h } := by
  refine ⟨hs, fun t ht => (hm.annules t ht).trans_le hl, fun q' t ht => ?_, fun q' t ht => ?_, fun q' => ?_⟩ <;>
    by_cases hq : q' = q
  · subst hq
    exact h₁ t (by simpa [Messages.set] using ht)
  · exact (hm.consum q' t (by simpa [Messages.set, hq] using ht)).trans_le hl
  · subst hq
    exact h₂ t (by simpa [Messages.set] using ht)
  · exact (hm.prod q' t (by simpa [Messages.set, hq] using ht)).trans_le hl
  · subst hq
    simpa [Messages.set] using h₃
  · simpa [Messages.set, hq] using hm.entier q'

theorem addInt_entier (a b : Int) : Assure (addInt a b) fun c => -2 ^ 31 ≤ c ∧ c < 2 ^ 31 := by
  unfold addInt
  split
  · next h => exact h
  · trivial

/-! ## The calls -/

theorem psendEntree_tournants (hm : Tournants m) (fid : Int) (x : Slot) :
    Assure (psendEntree m fid x) fun r => Tournants r.2 := by
  unfold psendEntree
  split
  · exact hm
  · next q _ =>
    dsimp only
    split
    · refine Ensures.bind (addProcess_sansFin hm.sansFin (hm.consum q)) ?_
      rintro ⟨consum, heap⟩ ⟨hs, hl, ht⟩
      exact hm.set hs hl ht (fun t ht => (hm.prod q t ht).trans_le hl) (hm.entier q)
    · exact hm

theorem preceiveEntree_tournants (hm : Tournants m) (fid : Int) (x : Slot) :
    Assure (preceiveEntree m fid x) fun r => Tournants r.2 := by
  unfold preceiveEntree
  split
  · exact hm
  · next q _ =>
    dsimp only
    split
    · refine Ensures.bind (addProcess_sansFin hm.sansFin (hm.consum q)) ?_
      rintro ⟨prod, heap⟩ ⟨hs, hl, ht⟩
      exact hm.set hs hl (fun t ht => (hm.consum q t ht).trans_le hl) ht (hm.entier q)
    · exact hm

theorem psendSuite_tournants (hm : Tournants m) (pid : Slot → Int) (q : Fin NBQUEUE) (v : Int) (x : Slot) :
    Assure (psendSuite pid m q v x) fun r => Tournants r.2.2 := by
  refine Ensures.bind (assure_any _) fun b _ => ?_
  split
  · exact hm
  refine Ensures.bind (assure_any _) fun i _ => Ensures.bind (assure_any _) fun j _ => Ensures.bind (assure_any _) fun tab _ =>
    Ensures.bind (assure_any _) fun tab' _ => Ensures.bind (addInt_entier ..) fun nb hnb => ?_
  dsimp only
  split
  · exact hm.set hm.sansFin le_rfl (hm.consum q) (hm.prod q) hnb
  · refine Ensures.bind (extractProcess_sansFin hm.sansFin) ?_
    rintro ⟨prod, o, heap⟩ ⟨hs, hl, ht⟩
    dsimp only at hs hl ht
    exact hm.set hs hl.ge (fun t h => hl ▸ hm.consum q t h) (fun t h => hl ▸ hm.prod q t (ht t h)) hnb

theorem preceiveSuite_tournants (hm : Tournants m) (pid : Slot → Int) (q : Fin NBQUEUE) (x : Slot) :
    Assure (preceiveSuite pid m q x) fun r => Tournants r.2.2 := by
  refine Ensures.bind (assure_any _) fun b _ => ?_
  split
  · exact hm
  refine Ensures.bind (assure_any _) fun tab _ => Ensures.bind (assure_any _) fun w _ =>
    Ensures.bind (addInt_entier ..) fun nb hnb => Ensures.bind (assure_any _) fun down _ => ?_
  dsimp only
  split
  · exact hm.set hm.sansFin le_rfl (hm.consum q) (hm.prod q) hnb
  · refine Ensures.bind (extractProcess_sansFin hm.sansFin) ?_
    rintro ⟨consum, o, heap⟩ ⟨hs, hl, ht⟩
    dsimp only at hs hl ht
    exact hm.set hs hl.ge (fun t h => hl ▸ hm.consum q t (ht t h)) (fun t h => hl ▸ hm.prod q t h) hnb

theorem pcreate_tournants (hm : Tournants m) (count : Int) (contenu : Option (Nat → Int)) :
    Tournants (pcreate m count contenu).2 := by
  unfold pcreate
  split
  · exact hm
  · split
    · exact hm
    · exact hm.set hm.sansFin le_rfl nofun nofun (show (-2 ^ 31 : Int) ≤ 0 ∧ (0 : Int) < 2 ^ 31 by decide)

theorem maintient_tournants : Maintient Tournants where
  pcreate count contenu hm := pcreate_tournants hm count contenu
  psendEntree fid x hm := psendEntree_tournants hm fid x
  preceiveEntree fid x hm := preceiveEntree_tournants hm fid x
  psendSuite pid q v x hm := psendSuite_tournants hm pid q v x
  preceiveSuite pid q x hm := preceiveSuite_tournants hm pid q x
  pdelete q hm := hm.set hm.sansFin le_rfl (hm.consum q) (hm.prod q) (hm.entier q)
  preset q hm := hm.set hm.sansFin le_rfl (hm.consum q) (hm.prod q) (show (-2 ^ 31 : Int) ≤ 0 ∧ (0 : Int) < 2 ^ 31 by decide)
  extrait {m fifo} q hf hm := by
    have hlt : ∀ t, fifo = some t → t < m.heap.length := by
      rcases hf with rfl | rfl
      · exact hm.consum q
      · exact hm.prod q
    refine (extractProcess_sansFin hm.sansFin).post ?_
    rintro ⟨consum, o, heap⟩ ⟨hs, hl, ht⟩
    dsimp only at hs hl ht
    exact hm.set hs hl.ge (fun t h => hl ▸ hlt t (ht t h)) (fun t h => hl ▸ hm.prod q t h) (hm.entier q)
  annule x hm := by
    refine (addProcess_sansFin hm.sansFin hm.annules).post ?_
    rintro ⟨new, heap⟩ ⟨hs, hl, -⟩
    exact ⟨hs, fun t h => (hm.annules t h).trans_le hl, fun q t h => (hm.consum q t h).trans_le hl,
      fun q t h => (hm.prod q t h).trans_le hl, hm.entier⟩

theorem parcours_tournants {C : St → Event → Prop} (hr : Parcours C tr s) : Tournants s.messages :=
  parcours_garde maintient_tournants
    ⟨nofun, nofun, fun _ => nofun, fun _ => nofun, fun _ => show (-2 ^ 31 : Int) ≤ 0 ∧ (0 : Int) < 2 ^ 31 by decide⟩ hr

/-! ## What `pcount` returns -/

/-- The number of processes blocked in `psend` or in `preceive` on a queue. -/
noncomputable def nbEnAttente (s : St) (k : Fin NBQUEUE × Bool) : Nat := {x | EnAttente s k x}.ncard

theorem nbEnAttente_eq_zero {k : Fin NBQUEUE × Bool} : nbEnAttente s k = 0 ↔ ∀ x, ¬EnAttente s k x := by
  rw [nbEnAttente, Set.ncard_eq_zero]
  exact Set.eq_empty_iff_forall_notMem

/-- The occupancy of a queue: minus the number of receivers that wait if there are any, else the messages stored or about to be. -/
noncomputable def occupation (s : St) (q : Fin NBQUEUE) : Int :=
  if nbEnAttente s (q, false) ≠ 0 then -nbEnAttente s (q, false)
  else (s.messages.fifoTab q).nbElement + nbEnAttente s (q, true)

/-- `pcount(fid, &count)` reports the occupancy, whatever `count` was. -/
def CompteExact (s : St) (fid : Int) : Prop :=
  ∀ count, pcount s.messages fid count = .ok (match s.messages.ouverte fid with
    | none => (-1, count)
    | some q => (0, occupation s q))

/-- It returns where both rings are empty. -/
theorem pcount_ok (hm : Tournants m) (hfid : 0 ≤ fid ∧ fid < NBQUEUE) (hq : (q.val : Int) = fid) (count : Int) {c : Int × Int} :
    pcount m fid count = .ok c ↔ (m.fifoTab q).consum = none ∧ (m.fifoTab q).prod = none ∧
      c = (0, if (m.fifoTab q).nbElement ≠ 0 then (m.fifoTab q).nbElement else count) := by
  have hqf : (⟨fid.toNat, by omega⟩ : Fin NBQUEUE) = q := Fin.ext (by dsimp only; omega)
  rw [pcount, dif_pos hfid]
  dsimp only
  rw [hqf]
  constructor
  · intro ho
    obtain ⟨k, hk, ho⟩ := bind_eq_ok.1 ho
    obtain ⟨hc, rfl⟩ := (getSize_sansFin hm.sansFin).1 hk
    obtain ⟨k, hk, ho⟩ := bind_eq_ok.1 ho
    obtain ⟨hp, rfl⟩ := (getSize_sansFin hm.sansFin).1 hk
    obtain ⟨d, hd, ho⟩ := bind_eq_ok.1 ho
    obtain rfl := (addInt_spec _ _).of_ok hd
    rw [Int.zero_add] at ho
    exact ⟨hc, hp, (Except.ok.inj ho).symm⟩
  · rintro ⟨hc, hp, rfl⟩
    have hb := hm.entier q
    have hadd : addInt 0 (m.fifoTab q).nbElement = .ok (m.fifoTab q).nbElement := by
      rw [addInt, Int.zero_add, if_pos hb]
    rw [hc, hp, (getSize_sansFin hm.sansFin).2 ⟨rfl, rfl⟩, ok_bind, ok_bind, hadd, ok_bind]
    rfl

theorem ouverte_fid (ho : m.ouverte fid = some q) : (0 ≤ fid ∧ fid < NBQUEUE) ∧ (q.val : Int) = fid := by
  unfold Messages.ouverte at ho
  split at ho
  · next hfid =>
    dsimp only at ho
    split at ho
    · cases ho
      exact ⟨hfid, Int.toNat_of_nonneg hfid.1⟩
    · cases ho
  · cases ho

/-- A queue that is not in use is counted as if it were. -/
theorem compteExact_libre (hm : Tournants s.messages) (hfid : 0 ≤ fid ∧ fid < NBQUEUE) (hq : s.messages.ouverte fid = none) :
    ¬CompteExact s fid := by
  intro h
  have hc := h 0
  rw [hq] at hc
  have := ((pcount_ok (q := ⟨fid.toNat, by omega⟩) hm hfid (Int.toNat_of_nonneg hfid.1) 0).1 hc).2.2
  cases congrArg Prod.fst this

theorem occupation_eq_nb {k : Int} (hk : k = (s.messages.fifoTab q).nbElement) :
    k = occupation s q ↔ (∀ b x, ¬EnAttente s (q, b) x) ∨ (nbEnAttente s (q, false) ≠ 0 ∧ k = -nbEnAttente s (q, false)) := by
  unfold occupation
  by_cases hw : nbEnAttente s (q, false) = 0
  · rw [if_neg (by simp [hw]), ← hk]
    simp only [Bool.forall_bool, hw, ne_eq, not_true, false_and, or_false, true_and, ← nbEnAttente_eq_zero]
    omega
  · have hsome : ¬∀ b x, ¬EnAttente s (q, b) x := fun h => hw (nbEnAttente_eq_zero.2 (h false))
    rw [if_pos hw]
    simp only [hsome, false_or, hw, ne_eq, not_false_iff, true_and]

/-- Where a queue is in use. -/
theorem compteExact_ouverte (hm : Tournants s.messages) (hq : s.messages.ouverte fid = some q) :
    CompteExact s fid ↔ (s.messages.fifoTab q).consum = none ∧ (s.messages.fifoTab q).prod = none ∧
      (s.messages.fifoTab q).nbElement ≠ 0 ∧
      ((∀ b x, ¬EnAttente s (q, b) x) ∨ (s.messages.fifoTab q).nbElement = -nbEnAttente s (q, false)) := by
  obtain ⟨hfid, hqv⟩ := ouverte_fid hq
  have hexact : CompteExact s fid ↔ ∀ count, (s.messages.fifoTab q).consum = none ∧ (s.messages.fifoTab q).prod = none ∧
      occupation s q = if (s.messages.fifoTab q).nbElement ≠ 0 then (s.messages.fifoTab q).nbElement else count := by
    unfold CompteExact
    rw [hq]
    refine forall_congr' fun count => ?_
    rw [pcount_ok hm hfid hqv count]
    simp
  rw [hexact]
  by_cases hn : (s.messages.fifoTab q).nbElement = 0
  · -- `*count` is left as it was
    refine iff_of_false (fun h => ?_) fun h => h.2.2.1 hn
    have h₀ := (h 0).2.2
    have h₁ := (h 1).2.2
    simp only [hn, ne_eq, not_true, if_false] at h₀ h₁
    omega
  · simp only [hn, ne_eq, not_false_iff, if_true, true_and, forall_const, eq_comm (a := occupation s q)]
    rw [occupation_eq_nb rfl]
    refine and_congr_right fun _ => and_congr_right fun _ => or_congr_right ?_
    constructor
    · exact And.right
    · intro he
      refine ⟨fun hw => hn ?_, he⟩
      rw [he, hw]
      rfl

/-- In every state reached, `pcount` is right about a queue that does not exist, and about a queue in use with messages where nobody
has blocked (or where lost receivers happen to be as many as `nbElement` is below 0), and about no other. -/
theorem pcount_exact (hr : Parcours (fun _ _ => True) tr s) :
    CompteExact s fid ↔ ¬(0 ≤ fid ∧ fid < NBQUEUE) ∨ ∃ q, s.messages.ouverte fid = some q ∧
      (s.messages.fifoTab q).consum = none ∧ (s.messages.fifoTab q).prod = none ∧ (s.messages.fifoTab q).nbElement ≠ 0 ∧
      ((∀ b x, ¬EnAttente s (q, b) x) ∨ (s.messages.fifoTab q).nbElement = -nbEnAttente s (q, false)) := by
  have hm := parcours_tournants hr
  by_cases hfid : 0 ≤ fid ∧ fid < NBQUEUE
  · simp only [hfid, and_self, not_true, false_or]
    cases hq : s.messages.ouverte fid with
    | none => exact iff_of_false (compteExact_libre hm hfid hq) (by simp)
    | some q =>
      rw [compteExact_ouverte hm hq]
      simp
  · refine iff_of_true (fun count => ?_) (.inl hfid)
    rw [pcount, dif_neg hfid, Messages.ouverte, dif_neg hfid]

/-- A message waits in a queue of size 1. -/
theorem pcount_exact_run :
    ∃ tr s, Parcours (fun _ _ => True) tr s ∧ (s.messages.fifoTab ⟨0, by decide⟩).nbElement = 1 ∧
      (CompteExact s 0 ↔ ¬(0 ≤ (0 : Int) ∧ (0 : Int) < NBQUEUE) ∨ ∃ q, s.messages.ouverte 0 = some q ∧
        (s.messages.fifoTab q).consum = none ∧ (s.messages.fifoTab q).prod = none ∧ (s.messages.fifoTab q).nbElement ≠ 0 ∧
        ((∀ b x, ¬EnAttente s (q, b) x) ∨ (s.messages.fifoTab q).nbElement = -nbEnAttente s (q, false))) := by
  obtain ⟨tr, s, hr, hn⟩ := deroule_any (P := fun _ _ => True)
    (Q := fun _ s => (s.messages.fifoTab ⟨0, by decide⟩).nbElement = 1) boot
    [.appel (.pcreate 1 (some fun _ => 0)), .appel (.psend 0 7)] (by decide +kernel)
  exact ⟨tr, s, hr, hn, pcount_exact hr⟩

/-- A sender is blocked on the full queue: `pcount` goes round its ring for ever. -/
theorem pcount_exact_fails : ¬∀ tr s fid, Parcours (fun _ _ => True) tr s → CompteExact s fid := by
  intro h
  obtain ⟨tr, s, hr, hn⟩ := deroule_any (P := fun _ _ => True) (Q := fun _ s => faute (pcount s.messages 0 0) = some .diverge) boot
    [.appel (.pcreate 1 (some fun _ => 0)), .appel (.psend 0 7), .appel (.start 512 1 "p"), .tick, .appel (.psend 0 8)]
    (by decide +kernel)
  rw [faute_eq_some] at hn
  cases hn.symm.trans (h tr s 0 hr 0)

end Pcsea
