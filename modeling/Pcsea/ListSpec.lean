import Pcsea.Lists
import Pcsea.ReadyQueueSpec
import Pcsea.Lib.Chain
/-!
# What the list operations of `proc.c` do

`Lists s q e d`: the ready ring holds `q`, the sleep list `e` and the dead list
`d`, and no process is in two of them. Each operation returns on such a state
and changes the three lists as its name says.
-/

namespace Pcsea

open Lib

structure Lists (s : St) (q e d : List Slot) : Prop where
  ready : Ready s.next s.prev q
  sleep : Chain s.suiv s.endormiList s.endormiTail e
  dead : Chain s.suiv s.deadList s.deadTail d
  distinct : (q ++ (e ++ d)).Nodup

variable {s : St} {q e d : List Slot} {x : Slot}

theorem Lists.ready_apart (h : Lists s q e d) (hx : x ∈ q) : x ∉ e ∧ x ∉ d := by
  have := (List.nodup_append.1 h.distinct).2.2 x hx
  exact ⟨fun hm => this x (by simp [hm]) rfl, fun hm => this x (by simp [hm]) rfl⟩

theorem Lists.sleep_apart (h : Lists s q e d) (hx : x ∈ e) : x ∉ q ∧ x ∉ d :=
  ⟨fun hm => (h.ready_apart hm).1 hx,
    fun hm => (List.nodup_append.1 (List.nodup_append.1 h.distinct).2.1).2.2 x hx x hm rfl⟩

theorem Lists.dead_apart (h : Lists s q e d) (hx : x ∈ d) : x ∉ q ∧ x ∉ e :=
  ⟨fun hm => (h.ready_apart hm).2 hx, fun hm => (h.sleep_apart hm).2 hx⟩

/-- Three lists without repetition or common member. -/
theorem distinct_iff : (q ++ (e ++ d)).Nodup ↔
    q.Nodup ∧ e.Nodup ∧ d.Nodup ∧ (∀ x ∈ q, x ∉ e ∧ x ∉ d) ∧ ∀ x ∈ e, x ∉ d := by
  simp only [List.nodup_append', List.disjoint_left, List.mem_append, not_or]
  tauto

/-- The lists only depend on the links and on the list heads. -/
theorem Lists.congr {s' : St} (h : Lists s q e d) (h₁ : s'.next = s.next) (h₂ : s'.prev = s.prev) (h₃ : s'.suiv = s.suiv)
    (h₄ : s'.endormiList = s.endormiList) (h₅ : s'.endormiTail = s.endormiTail) (h₆ : s'.deadList = s.deadList)
    (h₇ : s'.deadTail = s.deadTail) : Lists s' q e d := by
  refine ⟨?_, ?_, ?_, h.distinct⟩
  · rw [h₁, h₂]; exact h.ready
  · rw [h₃, h₄, h₅]; exact h.sleep
  · rw [h₃, h₆, h₇]; exact h.dead

/-- The sleep list holds `e` and the dead list `d`, whatever the ready ring. -/
structure SleepDead (s : St) (e d : List Slot) : Prop where
  sleep : Chain s.suiv s.endormiList s.endormiTail e
  dead : Chain s.suiv s.deadList s.deadTail d
  apart : ∀ x ∈ e, x ∉ d

theorem Lists.sleepDead (h : Lists s q e d) : SleepDead s e d := ⟨h.sleep, h.dead, fun _ hx => (h.sleep_apart hx).2⟩

theorem SleepDead.lists (h : SleepDead s e d) (hr : Ready s.next s.prev q) (hq : ∀ x ∈ q, x ∉ e ∧ x ∉ d) : Lists s q e d :=
  ⟨hr, h.sleep, h.dead, distinct_iff.2 ⟨hr.distinct, h.sleep.nodup, h.dead.nodup, hq, h.apart⟩⟩

/-! ## The dead list -/

theorem insertMort_dead (h : SleepDead s e d) (he : x ∉ e) (hd : x ∉ d) :
    ∃ suiv deadList deadTail,
      insertMort x s = .ok { s with state := Function.update s.state x .mort, suiv, deadList, deadTail } ∧
      SleepDead { s with state := Function.update s.state x .mort, suiv, deadList, deadTail } e (d ++ [x]) := by
  have hapart : ∀ y ∈ e, y ∉ d ++ [x] := by
    intro y hy hm
    rcases List.mem_append.1 hm with hm | hm
    · exact h.apart y hy hm
    · exact he (List.mem_singleton.1 hm ▸ hy)
  cases hl : s.deadList with
  | none =>
    obtain rfl := h.dead.head_none.1 hl
    refine ⟨Function.update s.suiv x none, some x, some x, by simp [insertMort, hl, St.setState, St.setSuiv], ?_⟩
    exact ⟨h.sleep.update he, .singleton _ _, hapart⟩
  | some y =>
    have hne : d ≠ [] := by
      rintro rfl
      rw [h.dead.head_none.2 rfl] at hl
      cases hl
    obtain ⟨t, ht⟩ := Option.ne_none_iff_exists'.1 (mt h.dead.last_none.1 hne)
    have hdead := h.dead
    rw [ht, hl] at hdead
    have het : t ∉ e := fun hm => h.apart t hm hdead.last_mem
    refine ⟨Function.update (Function.update s.suiv t (some x)) x none, some y, some x, ?_, ?_⟩
    · simp [insertMort, hl, ht, St.setState, St.setSuiv]
    · exact ⟨(h.sleep.update het).update he, hdead.append hd, hapart⟩

theorem insertMort_spec (h : Lists s q e d) (hq : x ∉ q) (he : x ∉ e) (hd : x ∉ d) :
    ∃ suiv deadList deadTail,
      insertMort x s = .ok { s with state := Function.update s.state x .mort, suiv, deadList, deadTail } ∧
      Lists { s with state := Function.update s.state x .mort, suiv, deadList, deadTail } q e (d ++ [x]) := by
  obtain ⟨suiv, deadList, deadTail, ho, hs⟩ := insertMort_dead h.sleepDead he hd
  refine ⟨suiv, deadList, deadTail, ho, hs.lists h.ready fun y hy => ⟨(h.ready_apart hy).1, fun hm => ?_⟩⟩
  rcases List.mem_append.1 hm with hm | hm
  · exact (h.ready_apart hy).2 hm
  · exact hq (List.mem_singleton.1 hm ▸ hy)

theorem extractMort_nil (h : Lists s q e []) : extractMort s = (none, s) := by
  simp [extractMort, h.dead.head_none.2 rfl]

theorem extractMort_spec (h : Lists s q e (x :: d)) :
    ∃ deadList deadTail, extractMort s = (some x, { s with deadList, deadTail }) ∧
      Lists { s with deadList, deadTail } q e d := by
  have hdist : (q ++ (e ++ d)).Nodup := by
    have := h.distinct
    rw [distinct_iff] at this ⊢
    simp only [List.nodup_cons, List.mem_cons, not_or] at this
    obtain ⟨h₁, h₂, h₃, h₄, h₅⟩ := this
    exact ⟨h₁, h₂, h₃.2, fun y hy => ⟨(h₄ y hy).1, (h₄ y hy).2.2⟩, fun y hy => (h₅ y hy).2⟩
  have hx := h.dead.head_eq
  cases d with
  | nil =>
    have ht := h.dead.head_eq_last.2 rfl
    exact ⟨none, none, by simp [extractMort, hx, ← ht], h.ready, h.sleep, .empty, hdist⟩
  | cons y d =>
    have ht : s.deadList ≠ s.deadTail := mt h.dead.head_eq_last.1 (by simp)
    rw [hx] at ht
    exact ⟨s.suiv x, s.deadTail, by simp [extractMort, hx, ht], h.ready, h.sleep, h.dead.tail, hdist⟩

/-! ## The ready ring -/

theorem extractActivable_spec (h : Lists s (q ++ [x]) e d) :
    ∃ next prev, extractActivable s = .ok (some x, { s with next, prev, suiv := Function.update s.suiv x none }) ∧
      Lists { s with next, prev, suiv := Function.update s.suiv x none } q e d := by
  obtain ⟨next, prev, ho, hr⟩ := queueOut_spec h.ready
  obtain ⟨hxe, hxd⟩ := h.ready_apart (x := x) (by simp)
  have hne : queueEmpty s = false := by
    rw [Bool.eq_false_iff, ne_eq, queueEmpty_iff h.ready]
    simp
  refine ⟨next, prev, by simp [extractActivable, hne, ho, St.setSuiv], hr, h.sleep.update hxe, h.dead.update hxd, ?_⟩
  have := h.distinct
  rw [List.append_assoc] at this
  exact this.sublist (by simp)

theorem insertActivable_spec (h : Lists s q e d) (hq : x ∉ q) (he : x ∉ e) (hd : x ∉ d) :
    ∃ next prev,
      insertActivable x s = .ok { s with
        state := Function.update s.state x .activable, suiv := Function.update s.suiv x none, next, prev } ∧
      Lists { s with
        state := Function.update s.state x .activable, suiv := Function.update s.suiv x none, next, prev }
        (parPrio s x q) e d := by
  obtain ⟨next, prev, ho, hr⟩ := queueAdd_spec (s := (s.setState x .activable).setSuiv x none) h.ready hq
  refine ⟨next, prev, ho, hr, h.sleep.update he, h.dead.update hd, ?_⟩
  refine (List.Perm.nodup_iff ((parPrio_perm (s := s) (e := x) (q := q)).append_right (e ++ d))).2 ?_
  rw [List.cons_append, List.nodup_cons]
  exact ⟨by simp [hq, he, hd], h.distinct⟩

/-! ## The sleep list -/

theorem extractEndormi_chain (h : Chain s.suiv s.endormiList s.endormiTail (x :: e)) :
    ∃ endormiList endormiTail,
      extractEndormi s = .ok (x, { s with endormiList, endormiTail, suiv := Function.update s.suiv x none }) ∧
      Chain (Function.update s.suiv x none) endormiList endormiTail e := by
  have hx : x ∉ e := (List.nodup_cons.1 h.nodup).1
  have hl := h.head_eq
  cases e with
  | nil =>
    have ht := h.head_eq_last.2 rfl
    exact ⟨none, none, by simp [extractEndormi, hl, ← ht, St.setSuiv], .empty⟩
  | cons y e =>
    have ht : s.endormiList ≠ s.endormiTail := mt h.head_eq_last.1 (by simp)
    rw [hl] at ht
    exact ⟨s.suiv x, s.endormiTail, by simp [extractEndormi, hl, ht, St.setSuiv], h.tail.update hx⟩

theorem extractEndormi_spec (h : Lists s q (x :: e) d) :
    ∃ endormiList endormiTail,
      extractEndormi s =
        .ok (x, { s with endormiList, endormiTail, suiv := Function.update s.suiv x none }) ∧
      Lists { s with endormiList, endormiTail, suiv := Function.update s.suiv x none } q e d := by
  obtain ⟨endormiList, endormiTail, ho, hc⟩ := extractEndormi_chain h.sleep
  exact ⟨endormiList, endormiTail, ho, h.ready, hc, h.dead.update (h.sleep_apart (by simp)).2, h.distinct.sublist (by simp)⟩

/-- Place in front of the first process that wakes later. -/
def parTemps (time : Slot → ℚ) (x : Slot) (e : List Slot) : List Slot :=
  e.orderedInsert (fun a b => time a < time b) x

theorem parTemps_perm (time : Slot → ℚ) (x : Slot) (e : List Slot) : (parTemps time x e).Perm (x :: e) :=
  List.perm_orderedInsert ..

theorem parTemps_head (time : Slot → ℚ) (x : Slot) (e : List Slot) :
    (parTemps time x e).head? = e.head?.elim (some x) fun y => if time x < time y then some x else some y := by
  cases e with
  | nil => rfl
  | cons y e =>
    unfold parTemps
    rw [List.orderedInsert_cons]
    split <;> rename_i h <;> simp [h]

/-- The new sleeper comes first when it wakes before the first one. -/
theorem parTemps_first {w : Slot → ℚ} {time : ℚ} (hx : x ∉ e) :
    (parTemps (Function.update w x time) x e).head? = some x ↔ ∀ y, e.head? = some y → time < w y := by
  rw [parTemps_head]
  cases e with
  | nil => simp
  | cons y e =>
    have hyx : y ≠ x := fun he => hx (by simp [he])
    simp only [List.head?_cons, Option.elim_some, Function.update_self, Function.update_of_ne hyx, Option.some.injEq,
      forall_eq']
    by_cases h : time < w y
    · simp [h]
    · simp [h, hyx]

/-- The first sleeper is due after the insertion when it was before, or when the new one is. -/
theorem parTemps_due {w : Slot → ℚ} {time n : ℚ} (hx : x ∉ e) (h : time ≤ n ∨ ∃ y, e.head? = some y ∧ w y ≤ n) :
    ∃ y, (parTemps (Function.update w x time) x e).head? = some y ∧ Function.update w x time y ≤ n := by
  rw [parTemps_head]
  cases e with
  | nil => exact ⟨x, rfl, by simpa using h⟩
  | cons y e =>
    have hyx : y ≠ x := fun he => hx (by simp [he])
    simp only [List.head?_cons, Option.elim_some, Function.update_self, Function.update_of_ne hyx, Option.some.injEq,
      exists_eq_left'] at h ⊢
    by_cases hlt : time < w y
    · exact ⟨x, by simp [hlt], by rw [Function.update_self]; exact h.elim id hlt.le.trans⟩
    · refine ⟨y, by simp [hlt], ?_⟩
      rw [Function.update_of_ne hyx]
      exact h.elim (not_lt.1 hlt).trans id

/-- The loop of `insert_endormi` past the head, with `t` behind the cursor. -/
theorem insertEndormiLoop_spec {l₁ l₂ : List Slot} {t : Slot} {n : Nat} (h : Seg s.suiv s.endormiList (l₁ ++ t :: l₂) none)
    (hx : x ∉ l₁ ++ t :: l₂) (hn : l₂.length < n) :
    (insertEndormiLoop x n false (s.suiv t) (some t) s = .ok (false, s) ∧
        parTemps s.timeToWake x l₂ = l₂ ++ [x]) ∨
      ∃ suiv, insertEndormiLoop x n false (s.suiv t) (some t) s = .ok (true, { s with suiv }) ∧
        Seg suiv s.endormiList (l₁ ++ t :: parTemps s.timeToWake x l₂) none ∧
        (∀ y, y ≠ x → y ∉ l₁ ++ t :: l₂ → suiv y = s.suiv y) ∧
        (parTemps s.timeToWake x l₂).getLast? = l₂.getLast? := by
  induction l₂ generalizing l₁ t n with
  | nil =>
    obtain ⟨n, rfl⟩ := Nat.exists_eq_add_of_lt hn
    obtain ⟨m, -, -, ht⟩ := seg_append.1 h
    rw [seg_nil] at ht
    exact .inl ⟨by simp [insertEndormiLoop, ht], rfl⟩
  | cons y l₂ ih =>
    cases n with
    | zero => omega
    | succ n =>
      obtain ⟨m, -, -, ht⟩ := seg_append.1 h
      obtain ⟨ht, -⟩ := ht
      -- The comparison is strict: `x` goes behind the sleepers with the same tick.
      by_cases hlt : s.timeToWake x < s.timeToWake y
      · have hp : parTemps s.timeToWake x (y :: l₂) = x :: y :: l₂ := by
          unfold parTemps
          rw [List.orderedInsert_cons, if_pos hlt]
        refine .inr ⟨_, by simp [insertEndormiLoop, ht, hlt, St.setSuiv]; rfl, ?_, ?_, ?_⟩
        · rw [hp]
          exact h.insert hx
        · intro z hz hzl
          simp only [List.mem_append, List.mem_cons, not_or] at hzl
          rw [Function.update_of_ne hz, Function.update_of_ne hzl.2.1]
        · rw [hp, List.getLast?_cons_cons]
      · have hp : parTemps s.timeToWake x (y :: l₂) = y :: parTemps s.timeToWake x l₂ := by
          unfold parTemps
          rw [List.orderedInsert_cons, if_neg hlt]
        have hl : insertEndormiLoop x (n + 1) false (s.suiv t) (some t) s =
            insertEndormiLoop x n false (s.suiv y) (some y) s := by
          simp [insertEndormiLoop, ht, hlt]
        rw [hl, hp]
        rw [List.append_cons] at h hx
        rcases ih h hx (by simpa using hn) with ⟨h₁, h₂⟩ | ⟨suiv, h₁, h₂, h₃, h₄⟩
        · exact .inl ⟨h₁, by rw [h₂]; rfl⟩
        · refine .inr ⟨suiv, h₁, by simpa using h₂, by simpa using h₃, ?_⟩
          obtain ⟨z, l₃, hz⟩ := List.exists_cons_of_ne_nil
            (show parTemps s.timeToWake x l₂ ≠ [] from fun he => by
              have := (parTemps_perm s.timeToWake x l₂).length_eq
              simp [he] at this)
          cases l₂ with
          | nil =>
            rw [List.getLast?_nil, List.getLast?_eq_none_iff, hz] at h₄
            cases h₄
          | cons w l₂ =>
            rw [List.getLast?_cons_cons, ← h₄, hz, List.getLast?_cons_cons]

/-- The whole loop of `insert_endormi`, on a list that is not empty. -/
theorem insertEndormiLoop_head {l : List Slot} {tl : Option Slot} (h : Chain s.suiv s.endormiList tl l) (hl : l ≠ [])
    (hx : x ∉ l) :
    (insertEndormiLoop x (PROCESS_TABLE_SIZE + 1) true s.endormiList s.endormiList s = .ok (false, s) ∧
        parTemps s.timeToWake x l = l ++ [x]) ∨
      ∃ suiv endormiList,
        insertEndormiLoop x (PROCESS_TABLE_SIZE + 1) true s.endormiList s.endormiList s =
          .ok (true, { s with suiv, endormiList }) ∧
        Chain suiv endormiList tl (parTemps s.timeToWake x l) ∧ ∀ y, y ≠ x → y ∉ l → suiv y = s.suiv y := by
  obtain ⟨y, l, rfl⟩ := List.exists_cons_of_ne_nil hl
  have hy := h.head_eq
  have hlen := slots_length h.nodup
  -- The first turn may change the head of the list; the others never do.
  by_cases hlt : s.timeToWake x < s.timeToWake y
  · have hp : parTemps s.timeToWake x (y :: l) = x :: y :: l := by
      unfold parTemps
      rw [List.orderedInsert_cons, if_pos hlt]
    refine .inr ⟨Function.update s.suiv x (some y), some x, by simp [insertEndormiLoop, hy, hlt, St.setSuiv], ?_, ?_⟩
    · have hs := (seg_update (v := some y) hx).2 h.seg
      rw [hy] at hs
      rw [hp]
      exact ⟨⟨rfl, by simpa using hs⟩, by rw [h.last, List.getLast?_cons_cons]⟩
    · intro z hz _
      rw [Function.update_of_ne hz]
  · have hp : parTemps s.timeToWake x (y :: l) = y :: parTemps s.timeToWake x l := by
      unfold parTemps
      rw [List.orderedInsert_cons, if_neg hlt]
    have hstep : insertEndormiLoop x (PROCESS_TABLE_SIZE + 1) true s.endormiList s.endormiList s =
        insertEndormiLoop x PROCESS_TABLE_SIZE false (s.suiv y) (some y) s := by
      simp [insertEndormiLoop, hy, hlt]
    rw [hstep, hp]
    rcases insertEndormiLoop_spec (List.nil_append (y :: l) ▸ h.seg) (List.nil_append (y :: l) ▸ hx) hlen with
      ⟨h₁, h₂⟩ | ⟨suiv, h₁, h₂, h₃, h₄⟩
    · exact .inl ⟨h₁, by rw [h₂]; rfl⟩
    · refine .inr ⟨suiv, s.endormiList, h₁, ⟨by simpa using h₂, ?_⟩, by simpa using h₃⟩
      rw [h.last, List.getLast?_cons, List.getLast?_cons, h₄]

theorem insertEndormi_sleep (h : SleepDead s e d) (he : x ∉ e) (hd : x ∉ d) (time : ℚ) :
    ∃ suiv endormiList endormiTail,
      insertEndormi x time s = .ok { s with
        timeToWake := Function.update s.timeToWake x time, state := Function.update s.state x .endormi,
        suiv, endormiList, endormiTail } ∧
      SleepDead { s with
        timeToWake := Function.update s.timeToWake x time, state := Function.update s.state x .endormi,
        suiv, endormiList, endormiTail } (parTemps (Function.update s.timeToWake x time) x e) d := by
  set w := Function.update s.timeToWake x time with hw
  have hapart : ∀ y ∈ parTemps w x e, y ∉ d := by
    intro y hy
    rcases List.mem_cons.1 ((parTemps_perm w x e).mem_iff.1 hy) with rfl | hy
    · exact hd
    · exact h.apart y hy
  cases ht : s.endormiTail with
  | none =>
    obtain rfl := h.sleep.last_none.1 ht
    refine ⟨Function.update s.suiv x none, some x, some x, ?_, .singleton _ _, h.dead.update hd, hapart⟩
    simp [insertEndormi, ht, St.setState, St.setSuiv, hw]
  | some t =>
    have hsleep := h.sleep
    rw [ht] at hsleep
    have hne : e ≠ [] := by
      rintro rfl
      cases hsleep.last
    have htd : t ∉ d := h.apart t hsleep.last_mem
    have hloop := insertEndormiLoop_head (s := { s with timeToWake := w, state := Function.update s.state x .endormi })
      hsleep hne he
    simp only [ht] at hloop
    -- It goes behind the last one, or the loop finds its place before it.
    rcases hloop with ⟨hl, hp⟩ | ⟨suiv, endormiList, hl, hc, hf⟩
    · refine ⟨Function.update (Function.update s.suiv t (some x)) x none, s.endormiList, some x, ?_, ?_,
        (h.dead.update htd).update hd, hapart⟩
      · simp [insertEndormi, ht, St.setState, St.setSuiv, ← hw, hl]
      · rw [show parTemps w x e = e ++ [x] from hp]
        exact hsleep.append he
    · refine ⟨Function.update suiv t none, endormiList, some t, ?_, hc.update_last, ?_, hapart⟩
      · simp [insertEndormi, ht, St.setState, St.setSuiv, ← hw, hl]
      · refine (h.dead.congr fun y hy => hf y ?_ ?_).update htd
        · exact fun hyx => hd (hyx ▸ hy)
        · exact fun hm => h.apart y hm hy

theorem insertEndormi_spec (h : Lists s q e d) (hq : x ∉ q) (he : x ∉ e) (hd : x ∉ d) (time : ℚ) :
    ∃ suiv endormiList endormiTail,
      insertEndormi x time s = .ok { s with
        timeToWake := Function.update s.timeToWake x time, state := Function.update s.state x .endormi,
        suiv, endormiList, endormiTail } ∧
      Lists { s with
        timeToWake := Function.update s.timeToWake x time, state := Function.update s.state x .endormi,
        suiv, endormiList, endormiTail } q (parTemps (Function.update s.timeToWake x time) x e) d := by
  obtain ⟨suiv, endormiList, endormiTail, ho, hs⟩ := insertEndormi_sleep h.sleepDead he hd time
  refine ⟨suiv, endormiList, endormiTail, ho, hs.lists h.ready fun y hy => ⟨fun hm => ?_, (h.ready_apart hy).2⟩⟩
  rcases List.mem_cons.1 ((parTemps_perm _ x e).mem_iff.1 hm) with rfl | hm
  · exact hq hy
  · exact (h.ready_apart hy).1 hm

/-! ## Deletion from the sleep list -/

theorem sleepDelLoop_none {l₁ l₂ : List Slot} {t : Slot} {n : Nat} {pid : Int}
    (h : Seg s.suiv s.endormiList (l₁ ++ t :: l₂) none) (hp : ∀ i ∈ l₂, s.pid i ≠ pid) (hn : l₂.length < n) :
    sleepDelLoop pid n (s.suiv t) t s = .ok s := by
  induction l₂ generalizing l₁ t n with
  | nil =>
    obtain ⟨m, -, -, ht⟩ := seg_append.1 h
    rw [seg_nil] at ht
    simp [sleepDelLoop, ht]
  | cons y l₂ ih =>
    cases n with
    | zero => simp at hn
    | succ n =>
      obtain ⟨m, -, -, ht, -⟩ := seg_append.1 h
      have hy := hp y (by simp)
      rw [List.append_cons] at h
      simpa [sleepDelLoop, ht, hy] using ih h (fun i hi => hp i (by simp [hi])) (by simpa using hn)

theorem sleepDel_none {pid : Int} (h : SleepDead s e d) (hp : ∀ i ∈ e, s.pid i ≠ pid) :
    sleepDel pid s = .ok (-1, s) := by
  cases e with
  | nil => simp [sleepDel, h.sleep.head_none.2 rfl]
  | cons y e =>
    have hy := hp y (by simp)
    have hlen := slots_length h.sleep.nodup
    have hl := sleepDelLoop_none (n := PROCESS_TABLE_SIZE + 1) (List.nil_append (y :: e) ▸ h.sleep.seg)
      (fun i hi => hp i (by simp [hi])) (by simp at hlen; omega)
    simp [sleepDel, h.sleep.head_eq, hy, hl]

/-- `x` leaves the sleep list for the dead list. -/
theorem sleepDel_mort {e₁ e₂ : List Slot} {suiv : Slot → Option Slot} {endormiList endormiTail : Option Slot}
    (h : SleepDead s (e₁ ++ x :: e₂) d) (hc : Chain suiv endormiList endormiTail (e₁ ++ e₂))
    (hf : ∀ y, y ∉ e₁ ++ x :: e₂ → suiv y = s.suiv y) :
    ∃ suiv' deadList deadTail,
      insertMort x { s with suiv, endormiList, endormiTail } = .ok { s with
        state := Function.update s.state x .mort, suiv := suiv', endormiList, endormiTail, deadList, deadTail } ∧
      SleepDead { s with
        state := Function.update s.state x .mort, suiv := suiv', endormiList, endormiTail, deadList, deadTail }
        (e₁ ++ e₂) (d ++ [x]) := by
  have hd := h.apart x (by simp)
  have hx : x ∉ e₁ ++ e₂ := (List.nodup_cons.1 (List.nodup_middle.1 h.sleep.nodup)).1
  have hl : SleepDead { s with suiv, endormiList, endormiTail } (e₁ ++ e₂) d := by
    refine ⟨hc, h.dead.congr fun y hy => hf y fun hm => h.apart y hm hy, fun y hy => h.apart y ?_⟩
    simp only [List.mem_append, List.mem_cons] at hy ⊢
    tauto
  exact insertMort_dead hl hx hd

theorem sleepDelLoop_spec {l₁ l₂ l₃ : List Slot} {t : Slot} {n : Nat} {pid : Int}
    (h : SleepDead s (l₁ ++ t :: (l₂ ++ x :: l₃)) d) (hx : s.pid x = pid)
    (hp : ∀ i ∈ l₂ ++ l₃, s.pid i ≠ pid) (hn : l₂.length < n) :
    ∃ suiv endormiTail deadList deadTail,
      sleepDelLoop pid n (s.suiv t) t s = .ok { s with
        state := Function.update s.state x .mort, suiv, endormiTail, deadList, deadTail } ∧
      SleepDead { s with state := Function.update s.state x .mort, suiv, endormiTail, deadList, deadTail }
        (l₁ ++ t :: (l₂ ++ l₃)) (d ++ [x]) := by
  cases n with
  | zero => simp at hn
  | succ n =>
  induction l₂ generalizing l₁ t n with
  | nil =>
    obtain ⟨m, -, -, ht, -⟩ := seg_append.1 h.sleep.seg
    obtain ⟨z, hz⟩ : ∃ z, s.endormiTail = some z := by
      rw [h.sleep.last]
      exact ⟨_, List.getLast?_eq_some_getLast (by simp)⟩
    -- The source compares the pid of the tail, which is that of `x` only if `x` is the tail.
    have hzx : s.pid z = pid ↔ z = x := by
      refine ⟨fun he => ?_, fun he => he ▸ hx⟩
      have hm : z ∈ x :: l₃ := by
        have := h.sleep.last
        simp only [List.nil_append] at this
        rw [hz, List.getLast?_append_of_ne_nil _ (by simp), List.getLast?_cons_cons] at this
        exact List.mem_of_getLast? this.symm
      exact (List.mem_cons.1 hm).resolve_right fun hm => hp z (by simpa using hm) he
    have hc := h.sleep.remove
    obtain ⟨suiv, dl, dt, h₁, h₂⟩ := sleepDel_mort
      (show SleepDead s ((l₁ ++ [t]) ++ x :: l₃) d by simpa using h) (by simpa using hc)
      (fun y hy => by
        simp only [List.append_assoc, List.mem_append, List.mem_cons, not_or] at hy
        rw [Function.update_of_ne hy.2.2.1, Function.update_of_ne hy.2.1.1])
    -- `insert_mort` has cut the link the loop follows: it stops there.
    have hsx : suiv x = none := by
      have hd := h₂.dead
      have ht := hd.last
      simp only [List.getLast?_concat] at ht
      rw [ht] at hd
      exact hd.next_last
    refine ⟨suiv, _, dl, dt, ?_, by simpa using h₂⟩
    by_cases hzx' : z = x
    · subst hzx'
      simp only [hz, if_true] at h₁
      simp [sleepDelLoop, ht, hx, hz, St.setSuiv, h₁, hsx]
    · simp only [hz, Option.some.injEq, hzx', if_false] at h₁
      have hne : pid ≠ s.pid z := fun he => hzx' (hzx.1 he.symm)
      simp [sleepDelLoop, ht, hx, hz, hne, hzx', St.setSuiv, h₁, hsx]
  | cons y l₂ ih =>
    obtain ⟨m, -, -, ht, -⟩ := seg_append.1 h.sleep.seg
    have hy := hp y (by simp)
    rw [List.cons_append, List.append_cons] at h
    cases n with
    | zero => simp at hn
    | succ n =>
      obtain ⟨suiv, tl, dl, dt, h₁, h₂⟩ := ih h (fun i hi => hp i (List.mem_cons_of_mem _ hi)) n (by simpa using hn)
      refine ⟨suiv, tl, dl, dt, ?_, by simpa using h₂⟩
      rw [← h₁, sleepDelLoop.eq_def]
      simp [ht, hy]

/-- `sleep_del` of the sleeping process `x`: it is reclaimed at once, and only the head gives 0. -/
theorem sleepDel_sleep {e₁ e₂ : List Slot} {pid : Int} (h : SleepDead s (e₁ ++ x :: e₂) d) (hx : s.pid x = pid)
    (hp : ∀ i ∈ e₁ ++ e₂, s.pid i ≠ pid) :
    ∃ suiv endormiList endormiTail deadList deadTail,
      sleepDel pid s = .ok (if e₁ = [] then 0 else -1, { s with
        state := Function.update s.state x .mort, suiv, endormiList, endormiTail, deadList, deadTail }) ∧
      SleepDead { s with
        state := Function.update s.state x .mort, suiv, endormiList, endormiTail, deadList, deadTail }
        (e₁ ++ e₂) (d ++ [x]) := by
  cases e₁ with
  -- The head is removed apart, and only then is 0 returned.
  | nil =>
    have hh := h.sleep.head_eq
    obtain ⟨suiv, dl, dt, h₁, h₂⟩ := sleepDel_mort (show SleepDead s ([] ++ x :: e₂) d from h) h.sleep.remove_head
      (fun y hy => Function.update_of_ne (fun he => hy (by simp [he])) _ _)
    refine ⟨suiv, _, _, dl, dt, ?_, h₂⟩
    by_cases ht : s.endormiList = s.endormiTail
    · rw [if_pos ht] at h₁ ⊢
      rw [hh] at ht
      simp [sleepDel, hh, hx, ← ht, St.setSuiv, h₁]
    · rw [if_neg ht] at h₁ ⊢
      rw [hh] at ht
      simp [sleepDel, hh, hx, ht, St.setSuiv, h₁]
  | cons y e₁ =>
    have hy := hp y (by simp)
    have hlen := slots_length h.sleep.nodup
    obtain ⟨suiv, tl, dl, dt, h₁, h₂⟩ := sleepDelLoop_spec (n := PROCESS_TABLE_SIZE + 1)
      (show SleepDead s ([] ++ y :: (e₁ ++ x :: e₂)) d from h) hx (fun i hi => hp i (List.mem_cons_of_mem _ hi)) (by simp at hlen; omega)
    refine ⟨suiv, s.endormiList, tl, dl, dt, ?_, h₂⟩
    simp [sleepDel, h.sleep.head_eq, hy, h₁]

theorem sleepDel_spec {e₁ e₂ : List Slot} {pid : Int} (h : Lists s q (e₁ ++ x :: e₂) d) (hx : s.pid x = pid)
    (hp : ∀ i ∈ e₁ ++ e₂, s.pid i ≠ pid) :
    ∃ suiv endormiList endormiTail deadList deadTail,
      sleepDel pid s = .ok (if e₁ = [] then 0 else -1, { s with
        state := Function.update s.state x .mort, suiv, endormiList, endormiTail, deadList, deadTail }) ∧
      Lists { s with
        state := Function.update s.state x .mort, suiv, endormiList, endormiTail, deadList, deadTail }
        q (e₁ ++ e₂) (d ++ [x]) := by
  obtain ⟨suiv, endormiList, endormiTail, deadList, deadTail, ho, hs⟩ := sleepDel_sleep h.sleepDead hx hp
  refine ⟨suiv, endormiList, endormiTail, deadList, deadTail, ho, hs.lists h.ready fun y hy => ?_⟩
  obtain ⟨hye, hyd⟩ := h.ready_apart hy
  simp only [List.mem_append, List.mem_cons, List.not_mem_nil, or_false, not_or] at hye ⊢
  exact ⟨⟨hye.1, hye.2.2⟩, hyd, hye.2.1⟩

end Pcsea
