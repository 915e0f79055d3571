import Mathlib.Data.List.Basic
import Pcsea.WaitFifo
/-!
# The cells of the waiting lists

`Cellules h lab occ`: each allocated cell with a label names a process that
`occ`upies a place of that label, no process has two cells, and no cell
points into a ring of another label. The rings may be cut, and pointers may dangle; a
dangling pointer is never used without a fault.
-/

namespace Pcsea

open Lib

universe u
variable {π : Type} {K : Type u} {h h' : Heap π} {lab : Nat → Option K} {occ occ' : π → K → Prop} {k : K}
  {a b t : Nat} {x : π} {c : ForFifoProcess π}

/-! ## Cells -/

theorem Heap.cell_lt (hc : h.cell a = some c) : a < h.length := by
  by_contra hn
  simp [Heap.cell, List.getElem?_eq_none (Nat.not_lt.1 hn)] at hc

theorem Heap.cell_set (v : Option (ForFifoProcess π)) (ha : a < h.length) :
    Heap.cell (h.set a v) b = if a = b then v else h.cell b := by
  simp only [Heap.cell, List.getElem?_set]
  by_cases hb : a = b
  · simp [hb, hb ▸ ha]
  · simp [hb]

theorem Heap.cell_append (v : Option (ForFifoProcess π)) :
    Heap.cell (h ++ [v]) b = if b = h.length then v else h.cell b := by
  simp only [Heap.cell, List.getElem?_append]
  by_cases hb : b < h.length
  · simp [hb, Nat.ne_of_lt hb]
  · by_cases hbe : b = h.length
    · simp [hbe]
    · have : b - h.length ≠ 0 := by omega
      simp [hb, hbe, this]

theorem Heap.read_eq_ok : h.read a = .ok c ↔ h.cell a = some c := by
  unfold Heap.read
  cases h.cell a <;> simp

theorem Heap.read_error {x : Fault} (he : h.read a = .error x) : x = .useAfterFree := by
  unfold Heap.read at he
  split at he
  · cases he
  · exact (Except.error.inj he).symm

/-! ## Labels -/

/-- A pointer into a ring of label `k`: its cell was allocated, and is freed or carries the label. -/
def Vise (h : Heap π) (lab : Nat → Option K) (k : K) (t : Nat) : Prop :=
  t < h.length ∧ (h.cell t = none ∨ lab t = some k)

structure Cellules (h : Heap π) (lab : Nat → Option K) (occ : π → K → Prop) : Prop where
  next : ∀ a k c b, lab a = some k → h.cell a = some c → c.next = some b → Vise h lab k b
  live : ∀ a k, lab a = some k → ∃ c, h.cell a = some c ∧ occ c.process k
  inj : ∀ a b k k' c c', lab a = some k → lab b = some k' → h.cell a = some c → h.cell b = some c' →
    c.process = c'.process → a = b

theorem Cellules.mono (hl : Cellules h lab occ) (ho : ∀ x k, occ x k → occ' x k) : Cellules h lab occ' :=
  ⟨hl.next, fun a k ha => (hl.live a k ha).imp fun _ hc => ⟨hc.1, ho _ _ hc.2⟩, hl.inj⟩

theorem Cellules.lt (hl : Cellules h lab occ) (ha : lab a = some k) : a < h.length := by
  obtain ⟨c, hc, -⟩ := hl.live a k ha
  exact Heap.cell_lt hc

theorem Cellules.empty (occ : π → K → Prop) : Cellules ([] : Heap π) (fun _ => none) occ :=
  ⟨nofun, nofun, nofun⟩

/-- The pointers of the first heap are still good in the second one. -/
def Suit (h : Heap π) (lab : Nat → Option K) (h' : Heap π) (lab' : Nat → Option K) : Prop :=
  ∀ k t, Vise h lab k t → Vise h' lab' k t

/-- `add_process` makes a cell, and links it behind the tail. -/
theorem addProcess_cell {fifo new : FifoProcess} (hf : ∀ f, fifo = some f → f < h.length)
    (ho : addProcess fifo x h = .ok (new, h')) :
    new = some h.length ∧ h'.length = h.length + 1 ∧
      ((fifo = none ∧ ∀ b, Heap.cell h' b = if b = h.length then some ⟨x, some h.length⟩ else h.cell b) ∨
        ∃ f c, fifo = some f ∧ h.cell f = some c ∧
          ∀ b, Heap.cell h' b = if b = h.length then some ⟨x, c.next⟩
            else if b = f then some ⟨c.process, some h.length⟩ else h.cell b) := by
  cases fifo with
  | none =>
    simp only [addProcess, initElement, Except.ok.injEq, Prod.mk.injEq] at ho
    obtain ⟨rfl, rfl⟩ := ho
    refine ⟨rfl, by simp, .inl ⟨rfl, fun b => ?_⟩⟩
    rw [Heap.cell_set _ (by simp), Heap.cell_append]
    by_cases hb : b = h.length
    · simp [hb]
    · simp [hb, Ne.symm hb]
  | some f =>
    have hlt := hf f rfl
    have hne : f ≠ h.length := Nat.ne_of_lt hlt
    simp only [addProcess, initElement, bind_eq_ok, Heap.read_eq_ok, Except.ok.injEq, Prod.mk.injEq] at ho
    obtain ⟨c, hc, rfl, rfl⟩ := ho
    rw [Heap.cell_append, if_neg hne] at hc
    refine ⟨rfl, by simp, .inr ⟨f, c, rfl, hc, fun b => ?_⟩⟩
    rw [Heap.cell_set _ (by simp; omega), Heap.cell_set _ (by simp), Heap.cell_append]
    by_cases hb : b = h.length
    · simp [hb, hne]
    · simp [hb, Ne.symm hb, eq_comm]

theorem addProcess_error {fifo : FifoProcess} {e : Fault} (ho : addProcess fifo x h = .error e) : e = .useAfterFree := by
  cases fifo with
  | none => cases ho
  | some f =>
    simp only [addProcess, initElement] at ho
    cases hr : Heap.read (h ++ [some ⟨x, none⟩]) f with
    | ok c => rw [hr] at ho; cases ho
    | error y =>
      rw [hr, error_bind] at ho
      obtain rfl := Except.error.inj ho
      exact Heap.read_error hr

/-- `extract_process` frees the oldest cell. -/
theorem extractProcess_cell {fifo new : FifoProcess} {r : Option π} (ho : extractProcess fifo h = .ok (new, r, h')) :
    (fifo = none ∧ new = none ∧ r = none ∧ h' = h) ∨
      ∃ f c t d, fifo = some f ∧ h.cell f = some c ∧ c.next = some t ∧ h.cell t = some d ∧ r = some d.process ∧
        h'.length = h.length ∧ (new = none ∨ new = some f ∧ t ≠ f) ∧
        ∀ b, Heap.cell h' b = if b = t then none else if b = f then some ⟨c.process, d.next⟩ else h.cell b := by
  cases fifo with
  | none =>
    simp only [extractProcess, Except.ok.injEq, Prod.mk.injEq] at ho
    obtain ⟨rfl, rfl, rfl⟩ := ho
    exact .inl ⟨rfl, rfl, rfl, rfl⟩
  -- The tail points to the head: the head goes, and the tail with it when they are one cell.
  | some f =>
    simp only [extractProcess, bind_eq_ok, Heap.read_eq_ok, deref_eq_ok] at ho
    obtain ⟨c, hc, t, ht, d, hd, ho⟩ := ho
    have hft := Heap.cell_lt hc
    have htt := Heap.cell_lt hd
    refine .inr ⟨f, c, t, d, rfl, hc, ht, hd, ?_⟩
    split at ho
    · next htf =>
      simp only [Except.ok.injEq, Prod.mk.injEq] at ho
      obtain ⟨rfl, rfl, rfl⟩ := ho
      subst htf
      refine ⟨rfl, by simp [destroyElement], .inl rfl, fun b => ?_⟩
      rw [destroyElement, Heap.cell_set _ htt]
      by_cases hb : b = t
      · simp [hb]
      · simp [hb, Ne.symm hb]
    · next htf =>
      simp only [Except.ok.injEq, Prod.mk.injEq] at ho
      obtain ⟨rfl, rfl, rfl⟩ := ho
      refine ⟨rfl, by simp [destroyElement], .inr ⟨rfl, htf⟩, fun b => ?_⟩
      rw [destroyElement, Heap.cell_set _ (by simpa using htt), Heap.cell_set _ hft]
      by_cases hb : b = t
      · simp [hb]
      · simp [hb, Ne.symm hb, eq_comm]

theorem extractProcess_error {fifo : FifoProcess} {e : Fault} (ho : extractProcess fifo h = .error e) :
    e = .useAfterFree ∨ e = .nullDeref := by
  cases fifo with
  | none => cases ho
  | some f =>
    simp only [extractProcess] at ho
    cases hr : h.read f with
    | error y =>
      rw [hr, error_bind] at ho
      exact .inl (Except.error.inj ho ▸ Heap.read_error hr)
    | ok c =>
      rw [hr, ok_bind] at ho
      cases hn : c.next with
      | none =>
        rw [hn, deref_none, error_bind] at ho
        exact .inr (Except.error.inj ho).symm
      | some t =>
        rw [hn, deref_some, ok_bind] at ho
        cases ht : h.read t with
        | error y =>
          rw [ht, error_bind] at ho
          exact .inl (Except.error.inj ho ▸ Heap.read_error ht)
        | ok d =>
          rw [ht, ok_bind] at ho
          split at ho <;> cases ho

/-! ## The operations keep the labels -/

theorem Vise.live (hv : Vise h lab k t) (hc : h.cell t = some c) : lab t = some k :=
  hv.2.resolve_left (by simp [hc])

theorem Cellules.occupe (hl : Cellules h lab occ) (ha : lab a = some k) (hc : h.cell a = some c) : occ c.process k := by
  obtain ⟨c', hc', ho⟩ := hl.live a k ha
  rw [hc, Option.some.injEq] at hc'
  exact hc' ▸ ho

/-- Cell `b` was there with the same label and the same process. -/
def Ancienne (h : Heap π) (lab : Nat → Option K) (h' : Heap π) (lab' : Nat → Option K) (b : Nat) : Prop :=
  ∀ k c', lab' b = some k → Heap.cell h' b = some c' → ∃ c, lab b = some k ∧ h.cell b = some c ∧ c.process = c'.process

theorem Cellules.ancienne {lab' : Nat → Option K} (hl : Cellules h lab occ) (hlab : lab' b = lab b)
    (hold : ∀ c, h.cell b = some c → ∃ c', Heap.cell h' b = some c' ∧ c'.process = c.process) : Ancienne h lab h' lab' b := by
  intro k c' hk hc'
  rw [hlab] at hk
  obtain ⟨c, hc, -⟩ := hl.live b k hk
  obtain ⟨c'', hc'', hp⟩ := hold c hc
  rw [hc', Option.some.injEq] at hc''
  exact ⟨c, hk, hc, by rw [hc'', hp]⟩

theorem Cellules.inj_ancienne {lab' : Nat → Option K} {k₁ k₂ : K} {c' : ForFifoProcess π} (hl : Cellules h lab occ)
    (ha : Ancienne h lab h' lab' a) (hb : Ancienne h lab h' lab' b) (hka : lab' a = some k₁) (hkb : lab' b = some k₂)
    (hc : Heap.cell h' a = some c) (hc' : Heap.cell h' b = some c') (hp : c.process = c'.process) : a = b := by
  obtain ⟨c₁, h₁, hc₁, hp₁⟩ := ha k₁ c hka hc
  obtain ⟨c₂, h₂, hc₂, hp₂⟩ := hb k₂ c' hkb hc'
  exact hl.inj a b k₁ k₂ c₁ c₂ h₁ h₂ hc₁ hc₂ (hp₁.trans (hp.trans hp₂.symm))

/-- A process that waits nowhere gets a cell. -/
theorem Cellules.ajoute {fifo new : FifoProcess} (hl : Cellules h lab occ) (hx : ∀ k, ¬occ x k)
    (hf : ∀ t, fifo = some t → Vise h lab k t) (ho : addProcess fifo x h = .ok (new, h'))
    (hocc : ∀ y k, occ y k → occ' y k) (hxk : occ' x k) :
    Cellules h' (Function.update lab h.length (some k)) occ' ∧
      Suit h lab h' (Function.update lab h.length (some k)) ∧
      ∀ t, new = some t → Vise h' (Function.update lab h.length (some k)) k t := by
  obtain ⟨rfl, hlen, hcell⟩ := addProcess_cell (fun f hf' => (hf f hf').1) ho
  set N := h.length with hN
  set lab' := Function.update lab N (some k) with hlab'
  have hlabN : lab' N = some k := Function.update_self ..
  have hlab : ∀ b, b ≠ N → lab' b = lab b := fun b hb => Function.update_of_ne hb ..
  have hcN : ∃ c, Heap.cell h' N = some c ∧ c.process = x := by
    rcases hcell with ⟨-, hcell⟩ | ⟨f, c, -, -, hcell⟩
    · exact ⟨_, by rw [hcell, if_pos rfl], rfl⟩
    · exact ⟨_, by rw [hcell, if_pos rfl], rfl⟩
  -- An old cell stays where it is, with its process.
  have hold : ∀ b c, h.cell b = some c → ∃ c', Heap.cell h' b = some c' ∧ c'.process = c.process := by
    intro b c hc
    have hbN : b ≠ N := Nat.ne_of_lt (Heap.cell_lt hc)
    rcases hcell with ⟨-, hcell⟩ | ⟨f, cf, -, hcf, hcell⟩
    · exact ⟨c, by rw [hcell, if_neg hbN, hc], rfl⟩
    · by_cases hbf : b = f
      · subst hbf
        rw [hcf, Option.some.injEq] at hc
        exact ⟨_, by rw [hcell, if_neg hbN, if_pos rfl], by rw [hc]⟩
      · exact ⟨c, by rw [hcell, if_neg hbN, if_neg hbf, hc], rfl⟩
  have hfree : ∀ b, b < N → h.cell b = none → Heap.cell h' b = none := by
    intro b hb hc
    rcases hcell with ⟨-, hcell⟩ | ⟨f, cf, -, hcf, hcell⟩
    · rw [hcell, if_neg (Nat.ne_of_lt hb), hc]
    · rw [hcell, if_neg (Nat.ne_of_lt hb), if_neg, hc]
      rintro rfl
      simp [hc] at hcf
  have hsuit : Suit h lab h' lab' := by
    rintro k' t ⟨hlt, hv⟩
    refine ⟨by omega, hv.imp (hfree t hlt) fun hv => ?_⟩
    rw [hlab t (Nat.ne_of_lt hlt), hv]
  have hvN : Vise h' lab' k N := ⟨by omega, .inr hlabN⟩
  refine ⟨⟨?_, ?_, ?_⟩, hsuit, fun t ht => Option.some.inj ht ▸ hvN⟩
  · intro a k' c b ha hc hb
    rcases hcell with ⟨-, hcell⟩ | ⟨f, cf, hff, hcf, hcell⟩
    · rw [hcell] at hc
      by_cases haN : a = N
      · rw [if_pos haN, Option.some.injEq] at hc
        subst hc haN
        rw [hlabN, Option.some.injEq] at ha
        rw [Option.some.injEq] at hb
        exact ha ▸ hb ▸ hvN
      · rw [if_neg haN] at hc
        exact hsuit _ _ (hl.next a k' c b (hlab a haN ▸ ha) hc hb)
    · have hlf : lab f = some k := (hf f hff).live hcf
      rw [hcell] at hc
      by_cases haN : a = N
      · rw [if_pos haN, Option.some.injEq] at hc
        subst hc haN
        rw [hlabN, Option.some.injEq] at ha
        subst ha
        exact hsuit _ _ (hl.next f _ cf b hlf hcf hb)
      · rw [if_neg haN] at hc
        rw [hlab a haN] at ha
        by_cases haf : a = f
        · rw [if_pos haf, Option.some.injEq] at hc
          subst hc haf
          rw [hlf, Option.some.injEq] at ha
          rw [Option.some.injEq] at hb
          exact ha ▸ hb ▸ hvN
        · rw [if_neg haf] at hc
          exact hsuit _ _ (hl.next a k' c b ha hc hb)
  · intro a k' ha
    by_cases haN : a = N
    · subst haN
      rw [hlabN, Option.some.injEq] at ha
      subst ha
      obtain ⟨c, hc, hp⟩ := hcN
      exact ⟨c, hc, hp ▸ hxk⟩
    · obtain ⟨c, hc, hp⟩ := hl.live a k' (hlab a haN ▸ ha)
      obtain ⟨c', hc', hp'⟩ := hold a c hc
      exact ⟨c', hc', hp' ▸ hocc _ _ hp⟩
  · have hanc : ∀ b, b ≠ N → Ancienne h lab h' lab' b := fun b hb => hl.ancienne (hlab b hb) (hold b)
    -- The new process is in no other cell.
    have hnew : ∀ b k' c, b ≠ N → lab' b = some k' → Heap.cell h' b = some c → c.process ≠ x := by
      rintro b k' c hb hk hc rfl
      obtain ⟨c₀, hk₀, hc₀, hp⟩ := hanc b hb k' c hk hc
      exact hx k' (hp ▸ hl.occupe hk₀ hc₀)
    obtain ⟨cN, hcN, hpN⟩ := hcN
    intro a b k₁ k₂ c c' ha hb hc hc' hp
    by_cases haN : a = N
    · by_cases hbN : b = N
      · rw [haN, hbN]
      · subst haN
        rw [hcN, Option.some.injEq] at hc
        subst hc
        exact absurd (hp ▸ hpN) (hnew b k₂ c' hbN hb hc')
    · by_cases hbN : b = N
      · subst hbN
        rw [hcN, Option.some.injEq] at hc'
        subst hc'
        exact absurd (hp.trans hpN) (hnew a k₁ c haN ha hc)
      · exact hl.inj_ancienne (hanc a haN) (hanc b hbN) ha hb hc hc' hp

/-- The oldest cell of a ring is freed, and its process waits nowhere any more. -/
theorem Cellules.extrait {f : Nat} {new : FifoProcess} {r : Option π} (hl : Cellules h lab occ) (hf : Vise h lab k f)
    (ho : extractProcess (some f) h = .ok (new, r, h')) :
    ∃ x lab', r = some x ∧ occ x k ∧ Cellules h' lab' (fun y k => occ y k ∧ y ≠ x) ∧ Suit h lab h' lab' ∧
      ∀ t, new = some t → Vise h' lab' k t := by
  rcases extractProcess_cell ho with ⟨hn, -⟩ | ⟨f', c, t, d, hff, hc, ht, hd, rfl, hlen, hnew, hcell⟩
  · cases hn
  obtain rfl : f = f' := Option.some.inj hff
  have hlf : lab f = some k := hf.live hc
  have hlt : lab t = some k := (hl.next f k c t hlf hc ht).live hd
  -- The head loses its label, and no other cell points to it any more.
  set lab' := Function.update lab t none with hlab'
  have hlabt : lab' t = none := Function.update_self ..
  have hlab : ∀ b, b ≠ t → lab' b = lab b := fun b hb => Function.update_of_ne hb ..
  have hne : ∀ b k', lab' b = some k' → b ≠ t := by
    rintro b k' hb rfl
    simp [hlabt] at hb
  have hod := hl.occupe hlt hd
  have hold : ∀ b c₀, b ≠ t → h.cell b = some c₀ → ∃ c', Heap.cell h' b = some c' ∧ c'.process = c₀.process := by
    intro b c₀ hbt hc₀
    by_cases hbf : b = f
    · subst hbf
      rw [hc, Option.some.injEq] at hc₀
      exact ⟨_, by rw [hcell, if_neg hbt, if_pos rfl], by rw [hc₀]⟩
    · exact ⟨c₀, by rw [hcell, if_neg hbt, if_neg hbf, hc₀], rfl⟩
  have hsuit : Suit h lab h' lab' := by
    rintro k' u ⟨hlt', hv⟩
    refine ⟨by omega, ?_⟩
    by_cases hut : u = t
    · exact .inl (by rw [hcell, if_pos hut])
    · refine hv.imp (fun hv => ?_) fun hv => ?_
      · rw [hcell, if_neg hut, if_neg, hv]
        rintro rfl
        simp [hv] at hc
      · rw [hlab u hut, hv]
  refine ⟨d.process, lab', rfl, hod, ⟨?_, ?_, ?_⟩, hsuit, ?_⟩
  · intro a k' ca b ha hca hb
    have hat := hne a k' ha
    rw [hlab a hat] at ha
    rw [hcell, if_neg hat] at hca
    by_cases haf : a = f
    · rw [if_pos haf, Option.some.injEq] at hca
      subst hca haf
      rw [hlf, Option.some.injEq] at ha
      subst ha
      exact hsuit _ _ (hl.next t _ d b hlt hd hb)
    · rw [if_neg haf] at hca
      exact hsuit _ _ (hl.next a k' ca b ha hca hb)
  · intro a k' ha
    have hat := hne a k' ha
    rw [hlab a hat] at ha
    obtain ⟨ca, hca, hoa⟩ := hl.live a k' ha
    obtain ⟨c', hc', hp'⟩ := hold a ca hat hca
    refine ⟨c', hc', hp' ▸ hoa, fun he => hat ?_⟩
    exact hl.inj a t k' k ca d ha hlt hca hd (hp' ▸ he)
  · intro a b k₁ k₂ ca cb ha hb hca hcb hp
    have hanc : ∀ b, b ≠ t → Ancienne h lab h' lab' b := fun b hb => hl.ancienne (hlab b hb) fun c₀ => hold b c₀ hb
    exact hl.inj_ancienne (hanc a (hne a k₁ ha)) (hanc b (hne b k₂ hb)) ha hb hca hcb hp
  · rintro u hu
    rcases hnew with hn | ⟨hn, htf⟩
    · simp [hn] at hu
    · obtain rfl : f = u := Option.some.inj (hn.symm.trans hu)
      exact hsuit _ _ hf

/-- A cell without a label, out of every ring. -/
theorem Cellules.fuite {new : FifoProcess} (hl : Cellules h lab occ) (ho : addProcess none x h = .ok (new, h')) :
    Cellules h' lab occ ∧ Suit h lab h' lab := by
  obtain ⟨-, hlen, hcell⟩ := addProcess_cell (by simp) ho
  rcases hcell with ⟨-, hcell⟩ | ⟨f, c, hf, -⟩
  · have hsame : ∀ b, b < h.length → Heap.cell h' b = h.cell b := fun b hb => by
      rw [hcell, if_neg (Nat.ne_of_lt hb)]
    have hsuit : Suit h lab h' lab := fun k t hv =>
      ⟨hlen ▸ Nat.lt_succ_of_lt hv.1, hv.2.imp_left (by rw [hsame t hv.1]; exact id)⟩
    refine ⟨⟨?_, ?_, ?_⟩, hsuit⟩
    · intro a k c b ha hc hb
      exact hsuit _ _ (hl.next a k c b ha (hsame a (hl.lt ha) ▸ hc) hb)
    · intro a k ha
      rw [hsame a (hl.lt ha)]
      exact hl.live a k ha
    · intro a b k k' c c' ha hb hc hc'
      exact hl.inj a b k k' c c' ha hb (hsame a (hl.lt ha) ▸ hc) (hsame b (hl.lt hb) ▸ hc')
  · cases hf

/-- The process that has waited longest in a fifo. -/
def premier (h : Heap π) (fifo : FifoProcess) : Option π :=
  (((fifo.bind h.cell).bind ForFifoProcess.next).bind h.cell).map ForFifoProcess.process

theorem extractProcess_premier {fifo new : FifoProcess} {r : Option π} (ho : extractProcess fifo h = .ok (new, r, h')) :
    r = premier h fifo := by
  rcases extractProcess_cell ho with ⟨rfl, -, rfl, -⟩ | ⟨f, c, t, d, rfl, hc, ht, hd, rfl, -⟩
  · rfl
  · simp [premier, hc, ht, hd]

end Pcsea
