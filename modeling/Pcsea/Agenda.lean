import Pcsea.ListSpec
import Pcsea.Lib.StableQueue
/-!
# The sleep list as an agenda

`endormi_list` lists the sleepers by wake-up time, the last inserted behind its
equals, and `dead_list` those that `sleep_del` has taken out of it.
-/

namespace Pcsea

open Lib

/-- The sleepers with their wake-up times, and the dead processes. -/
structure Agenda (pid : Slot → Int) where
  dormeurs : List (ℚ × Slot)
  morts : List Slot
  trie : dormeurs.Pairwise fun a b => a.1 ≤ b.1
  distincts : dormeurs.Pairwise fun a b => pid a.2 ≠ pid b.2
  morts_nodup : morts.Nodup
  apart : ∀ a ∈ dormeurs, a.2 ∉ morts

variable {s s' : St} {pid : Slot → Int} {A A' : Agenda pid} {e d : List Slot} {x : Slot} {a : ℚ × Slot} {e₁ e₂ : List (ℚ × Slot)}

namespace Agenda

def vide (pid : Slot → Int) : Agenda pid := ⟨[], [], .nil, .nil, .nil, by simp⟩

/-- `x` may be inserted: no sleeper has its pid, and it is not dead. -/
def Libre (A : Agenda pid) (x : Slot) : Prop := x ∉ A.morts ∧ ∀ a ∈ A.dormeurs, pid a.2 ≠ pid x

instance : Decidable (A.Libre x) := inferInstanceAs (Decidable (_ ∧ _))

def insere (A : Agenda pid) (x : Slot) (time : ℚ) (h : A.Libre x) : Agenda pid where
  dormeurs := insertBehind Prod.fst (time, x) A.dormeurs
  morts := A.morts
  trie := insertBehind_sorted A.trie
  distincts := by
    obtain ⟨e₁, e₂, he, hins, -, -⟩ := insertBehind_split (x := (time, x)) A.trie
    rw [hins]
    refine (List.pairwise_middle (R := fun a b : ℚ × Slot => pid a.2 ≠ pid b.2) fun h => h.symm).2 ?_
    rw [← he]
    exact List.pairwise_cons.2 ⟨fun a ha => (h.2 a ha).symm, A.distincts⟩
  morts_nodup := A.morts_nodup
  apart := by
    intro a ha
    rcases List.mem_cons.1 (insertBehind_perm.mem_iff.1 ha) with rfl | ha
    · exact h.1
    · exact A.apart a ha

/-- The agenda without its first entry. -/
def suite (A : Agenda pid) : Agenda pid where
  dormeurs := A.dormeurs.tail
  morts := A.morts
  trie := A.trie.tail
  distincts := A.distincts.tail
  morts_nodup := A.morts_nodup
  apart := fun a ha => A.apart a (List.mem_of_mem_tail ha)

@[simp] theorem suite_dormeurs : A.suite.dormeurs = A.dormeurs.tail := rfl

theorem apart_erase (A : Agenda pid) {b : ℚ × Slot} (ha : a ∈ A.dormeurs) (hb : b ∈ A.dormeurs.erase a) : b.2 ≠ a.2 := by
  obtain ⟨e₁, e₂, -, he, herase⟩ := List.exists_erase_eq ha
  rw [herase] at hb
  have hd := A.distincts
  rw [he, List.pairwise_middle (R := fun a b : ℚ × Slot => pid a.2 ≠ pid b.2) fun h => h.symm] at hd
  exact fun hba => (List.pairwise_cons.1 hd).1 b hb (congrArg pid hba.symm)

/-- The sleeper of the entry `a` is dead. -/
def meurt (A : Agenda pid) (a : ℚ × Slot) (ha : a ∈ A.dormeurs) : Agenda pid where
  dormeurs := A.dormeurs.erase a
  morts := A.morts ++ [a.2]
  trie := A.trie.sublist List.erase_sublist
  distincts := A.distincts.sublist List.erase_sublist
  morts_nodup := List.nodup_append.2 ⟨A.morts_nodup, by simp, fun b hb c hc => by
    rw [List.mem_singleton.1 hc]
    exact fun hba => A.apart a ha (hba ▸ hb)⟩
  apart := by
    intro b hb hm
    rcases List.mem_append.1 hm with hm | hm
    · exact A.apart b (List.mem_of_mem_erase hb) hm
    · exact A.apart_erase ha hb (List.mem_singleton.1 hm)

@[simp] theorem meurt_dormeurs (ha : a ∈ A.dormeurs) : (A.meurt a ha).dormeurs = A.dormeurs.erase a := rfl

end Agenda

/-- The calls on the sleep list. -/
inductive OpSommeil where
  | insere (x : Slot) (time : ℚ)
  | extrait
  | supprime (pid : Int)

/-- The agenda after a call, and the process given out. `insert_endormi` is not called on a process that cannot be inserted, nor
`extract_endormi` on the empty list. -/
def Agenda.apres (A : Agenda pid) : OpSommeil → Option (Option Slot × Agenda pid)
  | .insere x time => if h : A.Libre x then some (none, A.insere x time h) else none
  | .extrait =>
    match A.dormeurs.head? with
    | none => none
    | some a => some (some a.2, A.suite)
  | .supprime p =>
    match h : A.dormeurs.find? fun a => pid a.2 = p with
    | none => some (none, A)
    | some a => some (none, A.meurt a (List.mem_of_find?_eq_some h))

/-- What a call is to do. -/
inductive Agenda.Loi (A : Agenda pid) : OpSommeil → Option Slot → Agenda pid → Prop
  /-- after the equals -/
  | insere {x : Slot} {time : ℚ} {A' : Agenda pid} (e₁ e₂ : List (ℚ × Slot)) : A.dormeurs = e₁ ++ e₂ →
      A'.dormeurs = e₁ ++ (time, x) :: e₂ → (∀ a ∈ e₁, a.1 ≤ time) → (∀ a ∈ e₂, time < a.1) → A'.morts = A.morts →
      A.Loi (.insere x time) none A'
  /-- the earliest -/
  | extrait {a : ℚ × Slot} {A' : Agenda pid} : A.dormeurs = a :: A'.dormeurs → (∀ b ∈ A'.dormeurs, a.1 ≤ b.1) → A'.morts = A.morts →
      A.Loi .extrait (some a.2) A'
  /-- the process of that pid, which goes behind the dead -/
  | supprime {p : Int} {a : ℚ × Slot} {A' : Agenda pid} (e₁ e₂ : List (ℚ × Slot)) : A.dormeurs = e₁ ++ a :: e₂ → pid a.2 = p →
      A'.dormeurs = e₁ ++ e₂ → A'.morts = A.morts ++ [a.2] → A.Loi (.supprime p) none A'
  /-- nobody -/
  | absent {p : Int} : (∀ a ∈ A.dormeurs, pid a.2 ≠ p) → A.Loi (.supprime p) none A

theorem Agenda.apres_loi {op : OpSommeil} {r : Option Slot} (h : A.apres op = some (r, A')) : A.Loi op r A' := by
  cases op with
  | insere x time =>
    rw [Agenda.apres] at h
    split at h
    · cases h
      obtain ⟨e₁, e₂, he, hins, h₁, h₂⟩ := insertBehind_split (x := (time, x)) A.trie
      exact .insere e₁ e₂ he hins h₁ h₂ rfl
    · cases h
  | extrait =>
    rw [Agenda.apres] at h
    split at h
    · cases h
    · next a ha =>
      cases h
      obtain ⟨e, he⟩ := List.head?_eq_some_iff.1 ha
      have hs := A.trie
      rw [he] at hs
      refine .extrait (a := a) ?_ ?_ rfl <;> rw [Agenda.suite_dormeurs, he]
      · rfl
      · exact (List.pairwise_cons.1 hs).1
  | supprime p =>
    rw [Agenda.apres] at h
    split at h
    · next ha =>
      cases h
      exact .absent fun a hm => by simpa using List.find?_eq_none.1 ha a hm
    · next a ha =>
      cases h
      obtain ⟨e₁, e₂, -, he, herase⟩ := List.exists_erase_eq (List.mem_of_find?_eq_some ha)
      exact .supprime e₁ e₂ he (by simpa using List.find?_some ha) herase rfl

/-! ## The lists of `proc.c` -/

/-- The two lists hold the agenda. -/
structure Agenda.Dans (A : Agenda pid) (s : St) : Prop where
  pid : s.pid = pid
  sleep : Chain s.suiv s.endormiList s.endormiTail (A.dormeurs.map Prod.snd)
  dead : Chain s.suiv s.deadList s.deadTail A.morts
  reveil : ∀ a ∈ A.dormeurs, s.timeToWake a.2 = a.1

theorem Agenda.Dans.sleepDead (h : A.Dans s) : SleepDead s (A.dormeurs.map Prod.snd) A.morts := by
  refine ⟨h.sleep, h.dead, fun x hx => ?_⟩
  obtain ⟨a, ha, rfl⟩ := List.mem_map.1 hx
  exact A.apart a ha

/-- Both pointers are NULL, or the links lead from the first to the last process through the others, by wake-up time. -/
def BienForme (s : St) : Prop :=
  (s.endormiList = none ∧ s.endormiTail = none) ∨
    ∃ e t, Seg s.suiv s.endormiList (e ++ [t]) none ∧ s.endormiTail = some t ∧ s.suiv t = none ∧ (e ++ [t]).Nodup ∧
      (e ++ [t]).Pairwise fun i j => s.timeToWake i ≤ s.timeToWake j

theorem Agenda.Dans.bienForme (h : A.Dans s) : BienForme s := by
  rcases List.eq_nil_or_concat (A.dormeurs.map Prod.snd) with he | ⟨e, t, he⟩
  · have hs := h.sleep
    rw [he] at hs
    exact .inl ⟨hs.head_none.2 rfl, hs.last_none.2 rfl⟩
  · rw [List.concat_eq_append] at he
    have hs := h.sleep
    have hsorted : (A.dormeurs.map Prod.snd).Pairwise fun i j => s.timeToWake i ≤ s.timeToWake j := by
      refine List.pairwise_map.2 (A.trie.imp_of_mem ?_)
      intro a b ha hb hab
      rwa [h.reveil a ha, h.reveil b hb]
    rw [he] at hs hsorted
    have htail : s.endormiTail = some t := by rw [hs.last, List.getLast?_concat]
    have hend := hs
    rw [htail] at hend
    exact .inr ⟨e, t, hs.seg, htail, hend.next_last, hs.nodup, hsorted⟩

/-- The call itself. What `sleep_del` returns is not looked at. -/
def appelleSommeil : OpSommeil → St → Except Fault (Option Slot × St)
  | .insere x time, s => do
    let s ← insertEndormi x time s
    .ok (none, s)
  | .extrait, s => do
    let (x, s) ← extractEndormi s
    .ok (some x, s)
  | .supprime pid, s => do
    let (_, s) ← sleepDel pid s
    .ok (none, s)

theorem Agenda.Dans.insere (h : A.Dans s) (hx : A.Libre x) (time : ℚ) :
    ∃ s', insertEndormi x time s = .ok s' ∧ (A.insere x time hx).Dans s' := by
  have hne : ∀ a ∈ A.dormeurs, a.2 ≠ x := fun a ha hax => hx.2 a ha (by rw [hax])
  have hxe : x ∉ A.dormeurs.map Prod.snd := by
    rintro hm
    obtain ⟨a, ha, rfl⟩ := List.mem_map.1 hm
    exact hne a ha rfl
  obtain ⟨suiv, endormiList, endormiTail, ho, hs⟩ := insertEndormi_sleep h.sleepDead hxe hx.1 time
  have hkey : ∀ a ∈ (time, x) :: A.dormeurs, Function.update s.timeToWake x time a.2 = a.1 := by
    intro a ha
    rcases List.mem_cons.1 ha with rfl | ha
    · exact Function.update_self ..
    · rw [Function.update_of_ne (hne a ha), h.reveil a ha]
  have hmap : parTemps (Function.update s.timeToWake x time) x (A.dormeurs.map Prod.snd) =
      (A.insere x time hx).dormeurs.map Prod.snd := insertBehind_map (x := (time, x)) hkey
  refine ⟨_, ho, h.pid, ?_, hs.dead, fun a ha => hkey a (insertBehind_perm.mem_iff.1 ha)⟩
  rw [← hmap]
  exact hs.sleep

theorem Agenda.Dans.extrait (h : A.Dans s) (ha : A.dormeurs.head? = some a) :
    ∃ s', extractEndormi s = .ok (a.2, s') ∧ A.suite.Dans s' := by
  obtain ⟨e, he⟩ := List.head?_eq_some_iff.1 ha
  have hs := h.sleep
  rw [he] at hs
  obtain ⟨endormiList, endormiTail, ho, hc⟩ := extractEndormi_chain hs
  refine ⟨_, ho, h.pid, ?_, h.dead.update (A.apart a (List.mem_of_mem_head? ha)), fun b hb => h.reveil b (List.mem_of_mem_tail hb)⟩
  rw [Agenda.suite_dormeurs, he]
  exact hc

theorem Agenda.Dans.supprime (h : A.Dans s) (ha : a ∈ A.dormeurs) :
    ∃ r s', sleepDel (pid a.2) s = .ok (r, s') ∧ (A.meurt a ha).Dans s' := by
  obtain ⟨e₁, e₂, -, he, herase⟩ := List.exists_erase_eq ha
  have hs := h.sleepDead
  rw [he, List.map_append, List.map_cons] at hs
  have hp : ∀ i ∈ e₁.map Prod.snd ++ e₂.map Prod.snd, s.pid i ≠ pid a.2 := by
    intro i hi
    rw [← List.map_append] at hi
    obtain ⟨b, hb, rfl⟩ := List.mem_map.1 hi
    have hd := A.distincts
    rw [he, List.pairwise_middle (R := fun a b : ℚ × Slot => pid a.2 ≠ pid b.2) fun h => h.symm] at hd
    rw [h.pid]
    exact ((List.pairwise_cons.1 hd).1 b hb).symm
  obtain ⟨suiv, endormiList, endormiTail, deadList, deadTail, ho, hs'⟩ := sleepDel_sleep hs (by rw [h.pid]) hp
  refine ⟨_, _, ho, h.pid, ?_, hs'.dead, fun b hb => h.reveil b (List.mem_of_mem_erase hb)⟩
  rw [Agenda.meurt_dormeurs, herase, List.map_append]
  exact hs'.sleep

/-- Each call does on the lists what it does on the agenda. -/
theorem Agenda.Dans.appelleSommeil {op : OpSommeil} {r : Option Slot} (h : A.Dans s) (hr : A.apres op = some (r, A')) :
    ∃ s', appelleSommeil op s = .ok (r, s') ∧ A'.Dans s' := by
  cases op with
  | insere x time =>
    rw [Agenda.apres] at hr
    split at hr
    · next hx =>
      cases hr
      obtain ⟨s', ho, hd⟩ := h.insere hx time
      exact ⟨s', by rw [Pcsea.appelleSommeil, ho]; rfl, hd⟩
    · cases hr
  | extrait =>
    rw [Agenda.apres] at hr
    split at hr
    · cases hr
    · next a ha =>
      cases hr
      obtain ⟨s', ho, hd⟩ := h.extrait ha
      exact ⟨s', by rw [Pcsea.appelleSommeil, ho]; rfl, hd⟩
  | supprime p =>
    rw [Agenda.apres] at hr
    split at hr
    · next ha =>
      cases hr
      have hp : ∀ i ∈ A.dormeurs.map Prod.snd, s.pid i ≠ p := by
        intro i hi
        obtain ⟨a, hm, rfl⟩ := List.mem_map.1 hi
        rw [h.pid]
        simpa using List.find?_eq_none.1 ha a hm
      exact ⟨s, by rw [Pcsea.appelleSommeil, sleepDel_none h.sleepDead hp]; rfl, h⟩
    · next a ha =>
      cases hr
      obtain ⟨r, s', ho, hd⟩ := h.supprime (List.mem_of_find?_eq_some ha)
      have hap : pid a.2 = p := by simpa using List.find?_some ha
      rw [hap] at ho
      exact ⟨s', by rw [Pcsea.appelleSommeil, ho]; rfl, hd⟩

/-! ## Sequences of calls -/

def Agenda.apresTout (A : Agenda pid) (ops : List OpSommeil) : Option (List (Option Slot) × Agenda pid) :=
  runAll (fun op A => A.apres op) ops A

def appelleSommeils : List OpSommeil → St → Except Fault (List (Option Slot) × St) := execAll appelleSommeil

theorem agenda_refines (pid : Slot → Int) : Refines (fun op (A : Agenda pid) => A.apres op) appelleSommeil fun A s => A.Dans s :=
  fun _ _ _ _ _ h hr => h.appelleSommeil hr

/-- From the empty lists, after any sequence of calls the sleep list is well formed and the two lists hold the agenda; the next
call returns and does to it what it is to do. -/
theorem sleep_list_refines {ops : List OpSommeil} {op : OpSommeil} {rs : List (Option Slot)} {r : Option Slot} {A A' : Agenda s.pid}
    (he : s.endormiList = none ∧ s.endormiTail = none) (hd : s.deadList = none ∧ s.deadTail = none)
    (hrs : (Agenda.vide s.pid).apresTout ops = some (rs, A)) (hr : A.apres op = some (r, A')) :
    ∃ s₁ s₂, appelleSommeils ops s = .ok (rs, s₁) ∧ BienForme s₁ ∧ A.Dans s₁ ∧
      appelleSommeil op s₁ = .ok (r, s₂) ∧ BienForme s₂ ∧ A'.Dans s₂ ∧ A.Loi op r A' := by
  have hvide : (Agenda.vide s.pid).Dans s := by
    refine ⟨rfl, ?_, ?_, by simp [Agenda.vide]⟩
    · rw [he.1, he.2]
      exact .empty
    · rw [hd.1, hd.2]
      exact .empty
  obtain ⟨s₁, ho₁, h₁⟩ := (agenda_refines s.pid).execAll hvide hrs
  obtain ⟨s₂, ho₂, h₂⟩ := h₁.appelleSommeil hr
  exact ⟨s₁, s₂, ho₁, h₁.bienForme, h₁, ho₂, h₂.bienForme, h₂, Agenda.apres_loi hr⟩

/-- Processes 1, 2 and 4 sleep until 3, 3 and 1 and 2 is deleted: 4 comes first. -/
theorem sleep_list_refines_four :
    let s : St := { St.zero with pid := fun i => i.val }
    let A : Agenda s.pid := ⟨[(1, 4), (3, 1)], [2], by decide, by decide, by decide, by decide⟩
    let A' : Agenda s.pid := ⟨[(3, 1)], [2], by decide, by decide, by decide, by decide⟩
    ∃ s₁ s₂, appelleSommeils [.insere 1 3, .insere 2 3, .insere 4 1, .supprime 2] s = .ok ([none, none, none, none], s₁) ∧ BienForme s₁ ∧
      A.Dans s₁ ∧ appelleSommeil .extrait s₁ = .ok (some 4, s₂) ∧ BienForme s₂ ∧ A'.Dans s₂ ∧ A.Loi .extrait (some 4) A' := by
  intro s A A'
  exact sleep_list_refines ⟨rfl, rfl⟩ ⟨rfl, rfl⟩ rfl rfl

end Pcsea
