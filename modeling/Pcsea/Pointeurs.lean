import Pcsea.Machine
/-!
# What the pointers of the table point to

`Pointeurs G R c s`: every link, list head and wait cell names a process
satisfying `G`, the priority of `i` satisfies `R i`, and what the processor uses
is `c`. It holds through every function of `proc.c` and `message.c` up to its
`ctx_sw`, whatever the lists look like.
-/

namespace Pcsea

open Lib

variable {G : Slot → Prop} {R : Slot → Nat → Prop} {s s' : St} {x : Slot}

/-- What the processor and the pids are read from. -/
def St.noyau (s : St) := (s.pid, s.regs, s.cpu, s.charge, s.actif, s.journal)

/-- A computation that, if it ends well, gives `Q`. -/
abbrev Assure {α : Type} (c : Except Fault α) (Q : α → Prop) : Prop := Ensures (fun _ => True) c Q

structure Pointeurs (G : Slot → Prop) (R : Slot → Nat → Prop)
    (c : (Slot → Int) × (Slot → Option Contexte) × Contexte × Slot × Option Slot × List Bascule) (s : St) : Prop where
  noyau : s.noyau = c
  prio : ∀ i, R i (s.prio i)
  next : ∀ m i, s.next m = some (.elem i) → G i
  prev : ∀ m i, s.prev m = some (.elem i) → G i
  suiv : ∀ x i, s.suiv x = some i → G i
  endormiList : ∀ i, s.endormiList = some i → G i
  endormiTail : ∀ i, s.endormiTail = some i → G i
  deadList : ∀ i, s.deadList = some i → G i
  deadTail : ∀ i, s.deadTail = some i → G i
  premierFils : ∀ x i, s.premierFils x = some i → G i
  dernierFils : ∀ x i, s.dernierFils x = some i → G i
  frereDroit : ∀ x i, s.frereDroit x = some i → G i
  cells : ∀ a c, s.messages.heap.cell a = some c → G c.process

variable {c : (Slot → Int) × (Slot → Option Contexte) × Contexte × Slot × Option Slot × List Bascule}

/-- One link written. -/
theorem update_pointe {α β : Type} [DecidableEq α] {g : α → Option β} {P : β → Prop} {t : α} {v : Option β}
    (hg : ∀ x i, g x = some i → P i) (hv : ∀ i, v = some i → P i) : ∀ x i, Function.update g t v x = some i → P i := by
  intro x i hx
  by_cases h : x = t
  · rw [h, Function.update_self] at hx
    exact hv i hx
  · rw [Function.update_of_ne h] at hx
    exact hg x i hx

/-- One link of the ready queue written. -/
theorem update_maillon {g : Maillon → Option Maillon} {t : Maillon} {v : Option Maillon}
    (hg : ∀ m i, g m = some (.elem i) → G i) (hv : ∀ i, v = some (.elem i) → G i) :
    ∀ m i, Function.update g t v m = some (.elem i) → G i := by
  intro m i hm
  by_cases h : m = t
  · rw [h, Function.update_self] at hm
    exact hv i hm
  · rw [Function.update_of_ne h] at hm
    exact hg m i hm

theorem assure_any {α : Type} (x : Except Fault α) : Assure x fun _ => True := ensures_of_ok fun _ _ => trivial

theorem deref_assure {α : Type} {p : Option α} {Q : α → Prop} (h : ∀ i, p = some i → Q i) : Assure (deref p) Q := by
  cases p with
  | none => trivial
  | some i => exact h i rfl

section Setters
variable (h : Pointeurs G R c s)
include h

theorem Pointeurs.setState (i : Slot) (v : Etat) : Pointeurs G R c (s.setState i v) := { h with }

theorem Pointeurs.setSuiv (i : Slot) {v : Option Slot} (hv : ∀ i, v = some i → G i) : Pointeurs G R c (s.setSuiv i v) :=
  { h with suiv := update_pointe h.suiv hv }

theorem Pointeurs.setNext (m : Maillon) {v : Option Maillon} (hv : ∀ i, v = some (.elem i) → G i) :
    Pointeurs G R c (s.setNext m v) :=
  { h with next := update_maillon h.next hv }

theorem Pointeurs.setPrev (m : Maillon) {v : Option Maillon} (hv : ∀ i, v = some (.elem i) → G i) :
    Pointeurs G R c (s.setPrev m v) :=
  { h with prev := update_maillon h.prev hv }

theorem Pointeurs.setPere (i : Slot) (v : Option Slot) : Pointeurs G R c (s.setPere i v) := { h with }

theorem Pointeurs.setRetvalFils (i : Slot) (v : Option Int) : Pointeurs G R c (s.setRetvalFils i v) := { h with }

theorem Pointeurs.setProcessAlive (n : Nat) : Pointeurs G R c { s with processAlive := n } := { h with }

theorem Pointeurs.setFrereDroit (i : Slot) {v : Option Slot} (hv : ∀ i, v = some i → G i) :
    Pointeurs G R c (s.setFrereDroit i v) :=
  { h with frereDroit := update_pointe h.frereDroit hv }

theorem Pointeurs.setMorts {deadList deadTail : Option Slot} (h₁ : ∀ i, deadList = some i → G i)
    (h₂ : ∀ i, deadTail = some i → G i) : Pointeurs G R c { s with deadList, deadTail } :=
  { h with deadList := h₁, deadTail := h₂ }

theorem Pointeurs.setEndormis {endormiList endormiTail : Option Slot} (h₁ : ∀ i, endormiList = some i → G i)
    (h₂ : ∀ i, endormiTail = some i → G i) : Pointeurs G R c { s with endormiList, endormiTail } :=
  { h with endormiList := h₁, endormiTail := h₂ }

theorem Pointeurs.setPrio (i : Slot) {v : Nat} (hv : R i v) : Pointeurs G R c (s.setPrio i v) := by
  refine { h with prio := fun j => ?_ }
  show R j (Function.update s.prio i v j)
  by_cases hj : j = i
  · rw [hj, Function.update_self]
    exact hv
  · rw [Function.update_of_ne hj]
    exact h.prio j

end Setters

/-! ## Lists -/

theorem insertMort_pointeurs (h : Pointeurs G R c s) (hx : G x) : Assure (insertMort x s) (Pointeurs G R c) := by
  have hs : ∀ i, some x = some i → G i := fun i hi => Option.some.inj hi ▸ hx
  unfold insertMort
  dsimp only
  split
  · exact ((h.setState x .mort).setMorts hs hs).setSuiv x nofun
  · refine Ensures.bind (deref_assure h.deadTail) fun t ht => ?_
    have h₁ := (h.setState x .mort).setSuiv t hs
    exact (h₁.setMorts h₁.deadList (h₁.suiv t)).setSuiv x nofun

theorem extractMort_pointeurs (h : Pointeurs G R c s) : Pointeurs G R c (extractMort s).2 := by
  unfold extractMort
  split
  · exact h
  · split
    · exact h.setMorts nofun nofun
    · exact h.setMorts (h.suiv _) h.deadTail

theorem queueAddScan_pointeurs (h : Pointeurs G R c s) (p n : Nat) (cur : Maillon) :
    Assure (queueAddScan s p n cur) fun m => ∀ i, m = .elem i → G i := by
  induction n generalizing cur with
  | zero => trivial
  | succ n ih =>
    refine Ensures.bind (deref_assure (Q := fun m => ∀ i, m = .elem i → G i) fun m hm i hi => h.next cur i (hi ▸ hm)) ?_
    intro m hm
    cases m with
    | head => exact fun i hi => by cases hi
    | elem i =>
      dsimp only
      split
      · exact ih _
      · exact hm

theorem queueAdd_pointeurs (h : Pointeurs G R c s) (hx : G x) : Assure (queueAdd x s) (Pointeurs G R c) := by
  have hs : ∀ i, some (Maillon.elem x) = some (.elem i) → G i := by
    intro i hi
    obtain rfl := Maillon.elem.inj (Option.some.inj hi)
    exact hx
  refine Ensures.bind (assure_any _) fun _ _ => ?_
  refine Ensures.bind (queueAddScan_pointeurs h ..) fun cur hcur => ?_
  have h₁ := h.setNext (.elem x) (v := some cur) fun i hi => hcur i (Option.some.inj hi)
  have h₂ := h₁.setPrev (.elem x) (h₁.prev cur)
  refine Ensures.bind (assure_any _) fun p _ => ?_
  exact (h₂.setNext p hs).setPrev cur hs

theorem insertActivable_pointeurs (h : Pointeurs G R c s) (hx : G x) : Assure (insertActivable x s) (Pointeurs G R c) :=
  queueAdd_pointeurs ((h.setState x .activable).setSuiv x nofun) hx

theorem queueDel_pointeurs (h : Pointeurs G R c s) (x : Slot) : Assure (queueDel x s) (Pointeurs G R c) := by
  refine Ensures.bind (assure_any _) fun _ _ => ?_
  refine Ensures.bind (assure_any _) fun p _ => ?_
  have h₁ := h.setNext p (h.next (.elem x))
  refine Ensures.bind (assure_any _) fun n _ => ?_
  have h₂ := h₁.setPrev n (h₁.prev (.elem x))
  exact (h₂.setNext (.elem x) (v := none) nofun).setPrev (.elem x) nofun

/-- `queue_out` gives a process of the queue, or leaves an empty queue alone. -/
theorem queueOut_pointeurs (h : Pointeurs G R c s) :
    Assure (queueOut s) fun r => Pointeurs G R c r.2 ∧ (∀ i, r.1 = some i → G i) ∧ (r.1 = none → queueEmpty s = true) := by
  unfold queueOut
  dsimp only
  split
  · next he => exact ⟨h, nofun, fun _ => he⟩
  · refine Ensures.bind (deref_assure (Q := fun m => ∀ i, m = .elem i → G i) fun m hm i hi => h.prev .head i (hi ▸ hm)) ?_
    intro p hp
    have h₁ := h.setPrev .head (h.prev p)
    refine Ensures.bind (assure_any _) fun p' _ => ?_
    have h₂ := ((h₁.setNext p' (v := some .head) fun i hi => by cases hi).setPrev p (v := none) nofun).setNext p (v := none) nofun
    cases p with
    | head => trivial
    | elem i =>
      refine ⟨h₂, fun j hj => ?_, nofun⟩
      exact hp j (by rw [Option.some.inj hj])

theorem extractActivable_pointeurs (h : Pointeurs G R c s) :
    Assure (extractActivable s) fun r => Pointeurs G R c r.2 ∧ (∀ i, r.1 = some i → G i) ∧ (r.1 = none → queueEmpty s = true) := by
  unfold extractActivable
  split
  · next he => exact ⟨h, nofun, fun _ => he⟩
  · refine Ensures.bind (queueOut_pointeurs h) fun r hr => ?_
    refine Ensures.bind (deref_assure hr.2.1) fun i hi => ?_
    exact ⟨hr.1.setSuiv i nofun, fun j hj => Option.some.inj hj ▸ hi, nofun⟩

theorem extractEndormi_pointeurs (h : Pointeurs G R c s) :
    Assure (extractEndormi s) fun r => Pointeurs G R c r.2 ∧ G r.1 := by
  have hsuite (s₁ : St) (h₁ : Pointeurs G R c s₁) : Assure (do
      let e ← deref s.endormiList
      .ok (e, s₁.setSuiv e none)) fun r => Pointeurs G R c r.2 ∧ G r.1 :=
    Ensures.bind (deref_assure h.endormiList) fun i hi => ⟨h₁.setSuiv i nofun, hi⟩
  unfold extractEndormi
  dsimp only
  split
  · exact hsuite { s with endormiList := none, endormiTail := none } (h.setEndormis nofun nofun)
  · exact Ensures.bind (deref_assure h.endormiList) fun t _ => hsuite _ (h.setEndormis (h.suiv t) h.endormiTail)

theorem insertEndormiLoop_pointeurs {n : Nat} {isHead : Bool} {ptr prec : Option Slot} (h : Pointeurs G R c s) (hx : G x)
    (hp : ∀ i, ptr = some i → G i) : Assure (insertEndormiLoop x n isHead ptr prec s) fun r => Pointeurs G R c r.2 := by
  have hs : ∀ i, some x = some i → G i := fun i hi => Option.some.inj hi ▸ hx
  induction n generalizing isHead ptr prec with
  | zero => cases ptr <;> first | exact h | trivial
  | succ n ih =>
    cases ptr with
    | none => exact h
    | some t =>
      unfold insertEndormiLoop
      split
      · split
        · exact (h.setEndormis hs h.endormiTail).setSuiv x hp
        · refine Ensures.bind (assure_any _) fun p _ => ?_
          exact (h.setSuiv p hs).setSuiv x hp
      · split
        · exact ih (h.suiv t)
        · exact Ensures.bind (assure_any _) fun p _ => ih (h.suiv t)

theorem insertEndormi_pointeurs (h : Pointeurs G R c s) (hx : G x) (time : ℚ) : Assure (insertEndormi x time s) (Pointeurs G R c) := by
  have hs : ∀ i, some x = some i → G i := fun i hi => Option.some.inj hi ▸ hx
  have h₁ : Pointeurs G R c { s with timeToWake := Function.update s.timeToWake x time } := { h with }
  have h₂ := h₁.setState x .endormi
  unfold insertEndormi
  dsimp only
  split
  · exact (h₂.setSuiv x (v := none) nofun).setEndormis hs hs
  · refine Ensures.bind (insertEndormiLoop_pointeurs h₂ hx h₂.endormiList) ?_
    rintro ⟨b, s₃⟩ h₃
    have hfin (s₄ : St) (h₄ : Pointeurs G R c s₄) : Assure (do
        let t ← deref s₄.endormiTail
        .ok (s₄.setSuiv t none)) (Pointeurs G R c) :=
      Ensures.bind (assure_any _) fun t _ => h₄.setSuiv t nofun
    dsimp only at h₃ ⊢
    split
    · exact hfin s₃ h₃
    · refine Ensures.bind (assure_any _) fun t _ => hfin _ ?_
      have h₄ := h₃.setSuiv t hs
      exact h₄.setEndormis h₄.endormiList (h₄.suiv t)

theorem sleepDelLoop_pointeurs {pid : Int} {n : Nat} {ptr : Option Slot} (h : Pointeurs G R c s) (hx : G x)
    (hp : ∀ i, ptr = some i → G i) : Assure (sleepDelLoop pid n ptr x s) (Pointeurs G R c) := by
  induction n generalizing s x ptr with
  | zero => cases ptr <;> first | exact h | trivial
  | succ n ih =>
    cases ptr with
    | none => exact h
    | some t =>
      have ht : G t := hp t rfl
      have hs : ∀ i, some x = some i → G i := fun i hi => Option.some.inj hi ▸ hx
      unfold sleepDelLoop
      dsimp only
      split
      · refine Ensures.bind (assure_any _) fun l _ => ?_
        have h₁ : Pointeurs G R c (if s.pid t = s.pid l then { s with endormiTail := some x } else s) := by
          split
          · exact h.setEndormis h.endormiList hs
          · exact h
        have h₂ := (h₁.setSuiv x (h₁.suiv t)).setSuiv t (v := none) nofun
        exact Ensures.bind (insertMort_pointeurs h₂ ht) fun s₃ h₃ => ih h₃ ht (h₃.suiv t)
      · exact ih h ht (h.suiv t)

theorem sleepDel_pointeurs {pid : Int} (h : Pointeurs G R c s) : Assure (sleepDel pid s) fun r => Pointeurs G R c r.2 := by
  unfold sleepDel
  split
  · exact h
  · next x hx =>
    have hgx : G x := h.endormiList x hx
    split
    · have h₁ : Pointeurs G R c (if s.endormiList = s.endormiTail then { s with endormiTail := none } else s) := by
        split
        · exact h.setEndormis h.endormiList nofun
        · exact h
      have h₂ := (h₁.setEndormis (h₁.suiv x) h₁.endormiTail).setSuiv x (v := none) nofun
      exact Ensures.bind (insertMort_pointeurs h₂ hgx) fun s₃ h₃ => h₃
    · exact Ensures.bind (sleepDelLoop_pointeurs h hgx (h.suiv x)) fun s₃ h₃ => h₃

/-! ## The scheduler -/

theorem wakeProcess_pointeurs (h : Pointeurs G R c s) : Assure (wakeProcess s) (Pointeurs G R c) := by
  have hloop (n : Nat) (ptr : Option Slot) (s : St) (h : Pointeurs G R c s) : Assure (wakeProcessLoop n ptr s) (Pointeurs G R c) := by
    induction n generalizing ptr s with
    | zero => cases ptr <;> first | exact h | trivial
    | succ n ih =>
      cases ptr with
      | none => exact h
      | some t =>
        unfold wakeProcessLoop
        split
        · refine Ensures.bind (extractEndormi_pointeurs h) fun r hr => ?_
          exact Ensures.bind (insertActivable_pointeurs hr.1 hr.2) fun s₂ h₂ => ih _ _ h₂
        · exact h
  exact hloop _ _ s h

theorem elit_pointeurs {a : Slot} (h : Pointeurs G R c s) (ha : G a) :
    Assure (elit a s) fun r => Pointeurs G R c r.2 ∧ ∀ i, r.1 = some i → G i := by
  have hs : Assure (.ok (some a, s) : Except Fault (Option Slot × St)) fun r => Pointeurs G R c r.2 ∧ ∀ i, r.1 = some i → G i :=
    ⟨h, fun i hi => Option.some.inj hi ▸ ha⟩
  refine Ensures.bind (assure_any _) fun top _ => ?_
  cases top with
  | none => exact hs
  | some t =>
    dsimp only
    split
    · exact (extractActivable_pointeurs h).post fun r hr => ⟨hr.1, hr.2.1⟩
    · exact hs

theorem finProcessusTable_pointeurs {a : Slot} (h : Pointeurs G R c s) (ha : G a) :
    Assure (finProcessusTable a s) (Pointeurs G R c) := by
  -- By induction on the rounds left, for any list the pointers form.
  have hfils (n : Nat) (ptr : Option Slot) (s : St) (h : Pointeurs G R c s) (hp : ∀ i, ptr = some i → G i) :
      Assure (finProcessusFils n ptr s) (Pointeurs G R c) := by
    induction n generalizing ptr s with
    | zero => cases ptr <;> first | exact h | trivial
    | succ n ih =>
      cases ptr with
      | none => exact h
      | some t =>
        have h₁ := h.setPere t none
        unfold finProcessusFils
        dsimp only
        split
        · exact Ensures.bind (insertMort_pointeurs h₁ (hp t rfl)) fun s₂ h₂ => ih _ _ h₂ (h₁.frereDroit t)
        · exact ih _ _ h₁ (h₁.frereDroit t)
  have hpere (n : Nat) (prec ptr : Option Slot) (s : St) (h : Pointeurs G R c s) :
      Assure (finProcessusPere a n prec ptr s) (Pointeurs G R c) := by
    induction n generalizing prec ptr s with
    | zero => cases ptr <;> first | exact h | trivial
    | succ n ih =>
      cases ptr with
      | none => exact h
      | some t =>
        unfold finProcessusPere
        split
        · exact h
        · split
          · split
            · exact ih _ _ _ (h.setFrereDroit _ (h.frereDroit t))
            · exact Ensures.bind (assure_any _) fun p _ => ih _ _ _ h
          · exact ih _ _ _ h
  have hreste (s₁ : St) (h₁ : Pointeurs G R c s₁) : Assure (do
      let s ← finProcessusFils (PROCESS_TABLE_SIZE + 1) (s₁.premierFils a) s₁
      let p ← deref (s.pere a)
      finProcessusPere a (PROCESS_TABLE_SIZE + 1) none (s.premierFils p) s) (Pointeurs G R c) :=
    Ensures.bind (hfils _ _ _ h₁ (h₁.premierFils a)) fun s₂ h₂ => Ensures.bind (assure_any _) fun p _ => hpere _ _ _ _ h₂
  unfold finProcessusTable
  dsimp only
  split
  · exact Ensures.bind (insertMort_pointeurs h ha) fun s₁ h₁ => hreste s₁ h₁
  · exact hreste _ { h.setState a .zombie with }

theorem chprioTable_pointeurs (h : Pointeurs G R c s) (hin : ∀ x, s.actif = some x → G x) (pid : Int) {newprio : Int}
    (hr : ∀ i, R i (toUint32 newprio)) : Assure (chprioTable pid newprio s) fun r => Pointeurs G R c r.2 := by
  have hact (n : Nat) (cur : Maillon) (oldprio : Int) (s : St) (h : Pointeurs G R c s) :
      Assure (chprioActivables pid newprio n cur oldprio s) fun r => Pointeurs G R c r.2 := by
    induction n generalizing cur oldprio s with
    | zero => trivial
    | succ n ih =>
      refine Ensures.bind (deref_assure (Q := fun m => ∀ i, m = .elem i → G i) fun m hm i hi => h.next cur i (hi ▸ hm)) ?_
      intro m hm
      cases m with
      | head => exact h
      | elem i =>
        dsimp only
        split
        · refine Ensures.bind (queueDel_pointeurs h i) fun s₁ h₁ => ?_
          exact Ensures.bind (queueAdd_pointeurs (h₁.setPrio i (hr i)) (hm i rfl)) fun s₂ h₂ => ih _ _ _ h₂
        · exact ih _ _ _ h
  have hend (n : Nat) (ptr : Option Slot) (oldprio : Int) (s : St) (h : Pointeurs G R c s) :
      Assure (chprioEndormis pid newprio n ptr oldprio s) fun r => Pointeurs G R c r.2 := by
    induction n generalizing ptr oldprio s with
    | zero => cases ptr <;> first | exact h | trivial
    | succ n ih =>
      cases ptr with
      | none => exact h
      | some t =>
        unfold chprioEndormis
        split
        · exact ih _ _ _ (h.setPrio t (hr t))
        · exact ih _ _ _ h
  refine Ensures.bind (deref_assure hin) fun a ha => ?_
  split
  · exact h.setPrio a (hr a)
  · exact Ensures.bind (hact _ _ _ _ h) fun r h₁ => hend _ _ _ _ h₁

/-! ## Message queues -/

/-- The cells of a heap. -/
def Cellees (G : Slot → Prop) (h : Heap Slot) : Prop := ∀ a c, h.cell a = some c → G c.process

theorem Cellees.set {h : Heap Slot} (hc : Cellees G h) (a : Nat) {v : Option (ForFifoProcess Slot)}
    (hv : ∀ c, v = some c → G c.process) : Cellees G (h.set a v) := by
  intro b c hb
  simp only [Heap.cell, List.getElem?_set] at hb
  split at hb
  · split at hb
    · exact hv c hb
    · cases hb
  · exact hc b c hb

theorem Cellees.append {h : Heap Slot} (hc : Cellees G h) {v : Option (ForFifoProcess Slot)}
    (hv : ∀ c, v = some c → G c.process) : Cellees G (h ++ [v]) := by
  intro b c hb
  simp only [Heap.cell, List.getElem?_append] at hb
  split at hb
  · exact hc b c hb
  · cases hk : b - h.length with
    | zero =>
      rw [hk] at hb
      exact hv c hb
    | succ k => simp [hk] at hb

theorem Cellees.read {h : Heap Slot} (hc : Cellees G h) (a : Nat) : Assure (h.read a) fun c => G c.process := by
  unfold Heap.read
  split
  · next c he => exact hc a c he
  · trivial

theorem addProcess_pointeurs {h : Heap Slot} (hc : Cellees G h) (fifo : FifoProcess) (hx : G x) :
    Assure (addProcess fifo x h) fun r => Cellees G r.2 := by
  have hcell (n : Option Nat) : ∀ c, some (⟨x, n⟩ : ForFifoProcess Slot) = some c → G c.process :=
    fun c hc => Option.some.inj hc ▸ hx
  have h₁ : Cellees G (initElement x h).2 := hc.append (hcell none)
  cases fifo with
  | none => exact h₁.set _ (hcell _)
  | some f =>
    refine Ensures.bind (h₁.read f) fun c hcp => ?_
    exact (h₁.set _ (hcell c.next)).set f fun d hd => Option.some.inj hd ▸ hcp

theorem extractProcess_pointeurs {h : Heap Slot} (hc : Cellees G h) (fifo : FifoProcess) :
    Assure (extractProcess fifo h) fun r => (∀ i, r.2.1 = some i → G i) ∧ Cellees G r.2.2 := by
  cases fifo with
  | none => exact ⟨nofun, hc⟩
  | some f =>
    refine Ensures.bind (hc.read f) fun c hcp => ?_
    refine Ensures.bind (assure_any _) fun t _ => ?_
    refine Ensures.bind (hc.read t) fun d hd => ?_
    have hp : ∀ i, some d.process = some i → G i := fun i hi => Option.some.inj hi ▸ hd
    split
    · exact ⟨hp, hc.set t nofun⟩
    · have h₁ := hc.set f (v := some { c with next := d.next }) fun e he => Option.some.inj he ▸ hcp
      exact ⟨hp, h₁.set t nofun⟩

theorem Pointeurs.setMessages {m : Messages Slot} (h : Pointeurs G R c s) (hm : Cellees G m.heap) :
    Pointeurs G R c { s with messages := m } := { h with cells := hm }

theorem psendEntree_pointeurs {m : Messages Slot} (hm : Cellees G m.heap) (fid : Int) (hx : G x) :
    Assure (psendEntree m fid x) fun r => Cellees G r.2.heap := by
  unfold psendEntree
  split
  · exact hm
  · dsimp only
    split
    · exact Ensures.bind (addProcess_pointeurs hm _ hx) fun r hr => hr
    · exact hm

theorem preceiveEntree_pointeurs {m : Messages Slot} (hm : Cellees G m.heap) (fid : Int) (hx : G x) :
    Assure (preceiveEntree m fid x) fun r => Cellees G r.2.heap := by
  unfold preceiveEntree
  split
  · exact hm
  · dsimp only
    split
    · exact Ensures.bind (addProcess_pointeurs hm _ hx) fun r hr => hr
    · exact hm

theorem psendSuite_pointeurs {m : Messages Slot} (hm : Cellees G m.heap) (pid : Slot → Int) (q : Fin NBQUEUE) (message : Int)
    (tmp : Slot) : Assure (psendSuite pid m q message tmp) fun r => (∀ i, r.2.1 = some i → G i) ∧ Cellees G r.2.2.heap := by
  unfold psendSuite
  refine Ensures.bind (assure_any _) fun b _ => ?_
  split
  · exact ⟨nofun, hm⟩
  · iterate 5 refine Ensures.bind (assure_any _) fun _ _ => ?_
    dsimp only
    split
    · exact ⟨nofun, hm⟩
    · exact Ensures.bind (extractProcess_pointeurs hm _) fun r hr => hr

theorem preceiveSuite_pointeurs {m : Messages Slot} (hm : Cellees G m.heap) (pid : Slot → Int) (q : Fin NBQUEUE)
    (tmp : Slot) : Assure (preceiveSuite pid m q tmp) fun r => (∀ i, r.2.1 = some i → G i) ∧ Cellees G r.2.2.heap := by
  unfold preceiveSuite
  refine Ensures.bind (assure_any _) fun b _ => ?_
  split
  · exact ⟨nofun, hm⟩
  · iterate 3 refine Ensures.bind (assure_any _) fun _ _ => ?_
    refine Ensures.bind (assure_any _) fun down _ => ?_
    dsimp only
    generalize (if down = (m.fifoTab q).size then (0 : Int) else down) = down
    split
    · exact ⟨nofun, hm⟩
    · exact Ensures.bind (extractProcess_pointeurs hm _) fun r hr => hr

theorem reveille_pointeurs {p : Option Slot} (h : Pointeurs G R c s) (hp : ∀ i, p = some i → G i) :
    Assure (reveille p s) (Pointeurs G R c) := by
  cases p with
  | none => exact h
  | some i => exact insertActivable_pointeurs h (hp i rfl)

theorem psendFin_pointeurs (h : Pointeurs G R c s) (q : Fin NBQUEUE) (message : Int) (tmp : Slot) :
    Assure (psendFin q message tmp s) fun r => Pointeurs G R c r.2 := by
  refine Ensures.bind (psendSuite_pointeurs h.cells s.pid q message tmp) fun r hr => ?_
  exact Ensures.bind (reveille_pointeurs (h.setMessages hr.2) hr.1) fun s₁ h₁ => h₁

theorem preceiveFin_pointeurs (h : Pointeurs G R c s) (q : Fin NBQUEUE) (tmp : Slot) :
    Assure (preceiveFin q tmp s) fun r => Pointeurs G R c r.2 := by
  refine Ensures.bind (preceiveSuite_pointeurs h.cells s.pid q tmp) ?_
  rintro ⟨v, p, m⟩ ⟨hp, hm⟩
  refine Ensures.bind (reveille_pointeurs (h.setMessages hm) hp) fun s₁ h₁ => ?_
  cases v with
  | none => exact h₁
  | some v => exact h₁

theorem reveilleUn_pointeurs (h : Pointeurs G R c s) (q : Fin NBQUEUE) (fifo : FifoProcess) :
    Assure (reveilleUn q fifo s) (Pointeurs G R c) := by
  refine Ensures.bind (extractProcess_pointeurs h.cells fifo) ?_
  rintro ⟨consum, p, heap⟩ ⟨hp, hm⟩
  refine Ensures.bind (deref_assure hp) fun i hi => ?_
  refine Ensures.bind (insertActivable_pointeurs (h.setMessages hm) hi) fun s₁ h₁ => ?_
  refine Ensures.bind (addProcess_pointeurs h₁.cells _ hi) fun r hr => ?_
  exact h₁.setMessages (m := { s₁.messages with heap := r.2 }) hr

theorem reveilleTous_pointeurs (h : Pointeurs G R c s) (q : Fin NBQUEUE) : Assure (reveilleTous q s) (Pointeurs G R c) := by
  have hconsum (n : Nat) (s : St) (h : Pointeurs G R c s) : Assure (reveilleConsum q n s) (Pointeurs G R c) := by
    induction n generalizing s with
    | zero => trivial
    | succ n ih =>
      unfold reveilleConsum
      split
      · exact h
      · exact Ensures.bind (reveilleUn_pointeurs h q _) fun s₁ h₁ => ih s₁ h₁
  have hprod (n : Nat) (s : St) (h : Pointeurs G R c s) : Assure (reveilleProd q n s) (Pointeurs G R c) := by
    induction n generalizing s with
    | zero => trivial
    | succ n ih =>
      unfold reveilleProd
      split
      · exact h
      · exact Ensures.bind (reveilleUn_pointeurs h q _) fun s₁ h₁ => ih s₁ h₁
  exact Ensures.bind (hconsum _ s h) fun s₁ h₁ => hprod _ s₁ h₁

theorem videFifo_pointeurs (h : Pointeurs G R c s) (φ : FifoMessages → FifoMessages) (fid : Int) :
    Assure (videFifo φ fid s) fun r => Pointeurs G R c r.2 := by
  unfold videFifo
  split
  · exact h
  · next q _ =>
    have h₁ := h.setMessages (m := s.messages.set q (φ (s.messages.fifoTab q))) h.cells
    exact Ensures.bind (reveilleTous_pointeurs h₁ q) fun s₁ h₁ => h₁

end Pcsea
