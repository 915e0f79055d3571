import Pcsea.Capacite
/-!
# The child lists

`start` adds the new process behind `dernier_fils`, and nothing ever takes a
child out: awaited children stay in the list until their slot is used again.
`Reprise` says which slots may be.
-/

namespace Pcsea

open Lib

variable {K : Type*} {f : Fin NBQUEUE → Bool → K} {s s' : St} {p p' : Slot → Place} {a c i n x : Slot} {e : Event}
  {r : Issue} {l : List Slot} {tr : List (St × Event × Issue)}

/-! ## Awaited processes -/

def Issue.recueille (f : Slot → Bool) : Issue → Slot → Bool
  | .cree x => Function.update f x false
  | .attendu _ _ ret _ => fun i => f i || decide ((i.val : Int) = ret)
  | _ => f

/-- The processes that a `waitpid` returned after they were started. -/
def recueillis (tr : List (St × Event × Issue)) : Slot → Bool := tr.foldl (fun f c => c.2.2.recueille f) fun _ => false

theorem recueillis_snoc : recueillis (tr ++ [(s, e, r)]) = r.recueille (recueillis tr) := by
  simp [recueillis]

/-- A process that was awaited stays so until its slot is used again. -/
theorem recueillis_mono (hr : r ≠ .cree i) (hi : recueillis tr i = true) : recueillis (tr ++ [(s, e, r)]) i = true := by
  rw [recueillis_snoc]
  cases r with
  | cree x =>
    rw [Issue.recueille, Function.update_of_ne (fun he => hr (by rw [he]))]
    exact hi
  | attendu => simp [Issue.recueille, hi]
  | _ => exact hi

/-! ## Child lists -/

/-- `l` is the child list of `i`. -/
structure Fratrie (tr : List (St × Event × Issue)) (s : St) (i : Slot) (l : List Slot) : Prop where
  chaine : Chain s.frereDroit (s.premierFils i) (s.dernierFils i) l
  complete : ∀ c, s.pere c = some i → recueillis tr c = false → c ∈ l
  propre : ∀ c ∈ l, s.pere c = some i

def Familles (tr : List (St × Event × Issue)) (s : St) : Prop := ∀ i, Vivant s i → ∃ l, Fratrie tr s i l

theorem length_le_table (h : l.Nodup) : l.length ≤ PROCESS_TABLE_SIZE := by
  have hc := h.length_le_card
  rwa [Fintype.card_fin] at hc

/-- The children of `i`, as the traversals meet them. -/
def St.fils (s : St) (i : Slot) : List Slot := walk s.frereDroit PROCESS_TABLE_SIZE (s.premierFils i)

/-- The children that follow `x` in the list it is in. -/
def St.cadets (s : St) (x : Slot) : List Slot := walk s.frereDroit PROCESS_TABLE_SIZE (s.frereDroit x)

theorem Fratrie.fils (h : Fratrie tr s i l) : s.fils i = l := h.chaine.seg.walk (length_le_table h.chaine.nodup)

theorem Fratrie.cadets {l₁ l₂ : List Slot} (h : Fratrie tr s i (l₁ ++ x :: l₂)) : s.cadets x = l₂ := by
  obtain ⟨m, -, hm⟩ := seg_append.1 h.chaine.seg
  have hn := (List.nodup_cons.1 (List.nodup_append.1 h.chaine.nodup).2.1).2
  exact hm.2.walk (length_le_table hn)

/-- Two processes share no child. -/
theorem Fratrie.disjoint {j : Slot} {l' : List Slot} (h : Fratrie tr s i l) (h' : Fratrie tr s j l') (hij : i ≠ j) :
    l.Disjoint l' := fun c hc hc' => by
  have he := (h.propre c hc).symm.trans (h'.propre c hc')
  exact hij (Option.some.inj he)

/-! ## What `start` may take -/

/-- The slot `start` takes. -/
def Prend (s : St) (x : Slot) : Event → Prop
  | .appel (.start ssize _ _) => ssize < 0xffffffff ∧ s.processAlive ≠ PROCESS_TABLE_SIZE ∧
      ((prendSlot s).toOption.map Prod.fst) = some x
  | _ => False

/-- When `a` takes slot `x`: no process that was not awaited still has it for father, it is in the child list of no other
process, and in that of `a` only before processes that were all awaited. -/
structure Reprise (tr : List (St × Event × Issue)) (s : St) (a x : Slot) : Prop where
  orphelins : ∀ c, s.pere c = some x → recueillis tr c = true
  autres : ∀ i, i ≠ a → Vivant s i → x ∉ s.fils i
  propre : x ∈ s.fils a → s.frereDroit x ≠ none ∧ ∀ c ∈ s.cadets x, recueillis tr c = true

/-- The steps of a run that take slots as they may. -/
def Reprend (tr : List (St × Event × Issue)) (s : St) (e : Event) : Prop :=
  ∀ a x, s.actif = some a → Prend s x e → Reprise tr s a x

theorem start_prend {ssize : Nat} {prio : Int} {name : String} (h : start ssize prio name s = .ok (.cree x, s')) :
    Prend s x (.appel (.start ssize prio name)) := by
  unfold start at h
  split at h
  · cases h
  · next hs =>
    split at h
    · cases h
    · split at h
      · cases h
      · next hp =>
        obtain ⟨⟨index, s₁⟩, h₁, h⟩ := bind_eq_ok.1 h
        refine ⟨by omega, hp, ?_⟩
        dsimp only at h
        split at h
        · cases h
        · obtain ⟨s₂, -, h⟩ := bind_eq_ok.1 h
          have hx : index = x := by
            split at h
            · obtain ⟨s₃, -, h⟩ := bind_eq_ok.1 h
              exact Issue.cree.inj (Prod.mk.inj (Except.ok.inj h)).1
            · exact Issue.cree.inj (Prod.mk.inj (Except.ok.inj h)).1
          rw [h₁, ← hx]
          rfl

/-! ## One step -/

/-- A process comes to life when it is started. -/
theorem Va.vif {P : Place} (h : Va f s p e r s' i P) (hP : P.vif = true) : (p i).vif = true ∨ r = .cree i := by
  cases h with
  | reste => exact .inl hP
  | tourne hp => rcases hp with hp | hp <;> simp [hp, Place.vif]
  | libere k hk => simp [hk.1, Place.vif]
  | demarre _ hr => exact .inr hr
  | finit => cases hP
  | tue => cases hP
  | tueEndormi => cases hP
  | recolte => cases hP
  | orphelin => cases hP
  | _ => simp_all [Place.vif]

theorem Effet.vivant (h : Inv f a s p) (he : Effet f a s p e r s' n p') (hr : r ≠ .cree i) (hi : Vivant s' i) :
    Vivant s i :=
  h.vivant_iff.2 (((he.va i).vif (he.inv.vivant_iff.1 hi)).resolve_right hr)

/-- A step that creates no process and lets no family go. -/
theorem Fratrie.congr (h : Fratrie tr s i l) (hr : ∀ x, r ≠ .cree x) (h₁ : s'.premierFils = s.premierFils)
    (h₂ : s'.dernierFils = s.dernierFils) (h₃ : s'.frereDroit = s.frereDroit)
    (h₄ : ∀ c, s'.pere c = some i → s.pere c = some i) (h₅ : ∀ c ∈ l, s'.pere c = s.pere c) :
    Fratrie (tr ++ [(s, e, r)]) s' i l := by
  refine ⟨by rw [h₁, h₂, h₃]; exact h.chaine, fun c hc hrec => h.complete c (h₄ c hc) ?_, fun c hc => ?_⟩
  · by_contra hne
    simp [recueillis_mono (hr c) (by simpa using hne)] at hrec
  · rw [h₅ c hc]
    exact h.propre c hc

/-- The other families when `a` starts `x`. -/
theorem Naissance.autre (hna : Naissance s s' a x) (hd : Reprise tr s a x) (ha : ∃ l, Fratrie tr s a l)
    (h : Fratrie tr s i l) (hi : Vivant s i) (hia : i ≠ a) (hix : i ≠ x) : Fratrie (tr ++ [(s, e, .cree x)]) s' i l := by
  have hxl : x ∉ l := by
    rw [← h.fils]
    exact hd.autres i hia hi
  have hpere : ∀ c, c ≠ x → s'.pere c = s.pere c := fun c hc => by rw [hna.pere, Function.update_of_ne hc]
  refine ⟨?_, fun c hc hrec => ?_, fun c hc => ?_⟩
  -- The link written is that of the last child of `a`, which is in no other list.
  · have hprem : s'.premierFils i = s.premierFils i := by
      rw [hna.premierFils]
      split <;> simp [hia, hix]
    have hdern : s'.dernierFils i = s.dernierFils i := by
      rw [hna.dernierFils, Function.update_of_ne hia, Function.update_of_ne hix]
    rw [hprem, hdern]
    refine h.chaine.congr fun c hc => ?_
    rw [hna.frereDroit, if_neg, if_neg (ne_of_mem_of_not_mem hc hxl)]
    rintro ⟨-, ht⟩
    obtain ⟨la, hla⟩ := ha
    have hca : c ∈ la := List.mem_of_getLast? (hla.chaine.last.symm.trans ht)
    exact h.disjoint hla hia hc hca
  · have hcx : c ≠ x := by
      rintro rfl
      rw [hna.pere, Function.update_self] at hc
      exact hia (Option.some.inj hc).symm
    rw [hpere c hcx] at hc
    rw [recueillis_snoc, Issue.recueille, Function.update_of_ne hcx] at hrec
    exact h.complete c hc hrec
  · rw [hpere c (ne_of_mem_of_not_mem hc hxl)]
    exact h.propre c hc

/-- The new process has no child. -/
theorem Naissance.neuf (hna : Naissance s s' a x) (hd : Reprise tr s a x) (hxa : x ≠ a) :
    Fratrie (tr ++ [(s, e, .cree x)]) s' x [] := by
  have hprem : s'.premierFils x = none := by
    rw [hna.premierFils]
    split <;> simp [hxa]
  have hdern : s'.dernierFils x = none := by
    rw [hna.dernierFils, Function.update_of_ne hxa, Function.update_self]
  refine ⟨by rw [hprem, hdern]; exact .empty, fun c hc hrec => ?_, nofun⟩
  have hcx : c ≠ x := by
    rintro rfl
    rw [hna.pere, Function.update_self] at hc
    exact hxa (Option.some.inj hc).symm
  rw [hna.pere, Function.update_of_ne hcx] at hc
  rw [recueillis_snoc, Issue.recueille, Function.update_of_ne hcx, hd.orphelins c hc] at hrec
  cases hrec

/-- The family `x` is born into. -/
theorem Naissance.pere_fratrie (hna : Naissance s s' a x) (hd : Reprise tr s a x) (hxa : x ≠ a) (h : Fratrie tr s a l) :
    ∃ l', Fratrie (tr ++ [(s, e, .cree x)]) s' a l' := by
  have hpere : ∀ c, c ≠ x → s'.pere c = s.pere c := fun c hc => by rw [hna.pere, Function.update_of_ne hc]
  have hperex : s'.pere x = some a := by rw [hna.pere, Function.update_self]
  have hdern : s'.dernierFils a = some x := by rw [hna.dernierFils, Function.update_self]
  -- The new list keeps the children of the old one that were not awaited.
  have hfin : ∀ l', Chain s'.frereDroit (s'.premierFils a) (some x) l' → x ∈ l' → (∀ c ∈ l', c = x ∨ c ∈ l) →
      (∀ c ∈ l, recueillis tr c = false → c ∈ l' ∨ c = x) → Fratrie (tr ++ [(s, e, .cree x)]) s' a l' := by
    intro l' hchain hx hsub hsup
    refine ⟨by rw [hdern]; exact hchain, fun c hc hrec => ?_, fun c hc => ?_⟩
    · by_cases hcx : c = x
      · rwa [hcx]
      · rw [hpere c hcx] at hc
        rw [recueillis_snoc, Issue.recueille, Function.update_of_ne hcx] at hrec
        exact (hsup c (h.complete c hc hrec) hrec).resolve_right hcx
    · by_cases hcx : c = x
      · rw [hcx, hperex]
      · rw [hpere c hcx]
        exact h.propre c ((hsub c hc).resolve_left hcx)
  cases hp : s.premierFils a with
  | none =>
    obtain rfl := h.chaine.head_none.1 hp
    have hprem : s'.premierFils a = some x := by rw [hna.premierFils, if_pos hp, Function.update_self]
    have hx : s'.frereDroit x = none := by
      rw [hna.frereDroit, if_neg (by simp [hp]), if_pos rfl]
    refine ⟨[x], hfin _ ?_ (by simp) (by simp) (by simp)⟩
    rw [hprem]
    exact ⟨⟨rfl, hx⟩, rfl⟩
  | some y =>
    have hne : s.premierFils a ≠ none := by simp [hp]
    have hprem : s'.premierFils a = s.premierFils a := by
      rw [hna.premierFils, if_neg hne, Function.update_of_ne hxa.symm]
    obtain ⟨t, ht⟩ : ∃ t, s.dernierFils a = some t := by
      refine Option.ne_none_iff_exists'.1 fun hn => hne ?_
      rw [h.chaine.head_none, ← h.chaine.last_none, hn]
    have hchain := h.chaine
    rw [ht] at hchain
    by_cases hxl : x ∈ l
    -- The slot was in the list already: the list is cut behind it.
    · obtain ⟨hlast, hcad⟩ := hd.propre (by rwa [h.fils])
      obtain ⟨l₁, l₂, rfl⟩ := List.append_of_mem hxl
      rw [h.cadets] at hcad
      have htx : t ≠ x := by
        rintro rfl
        exact hlast hchain.next_last
      have hnd := hchain.nodup
      have htl : t ∈ l₂ := by
        have hlast' := hchain.last
        rw [List.getLast?_append_of_ne_nil _ (by simp)] at hlast'
        exact (List.mem_cons.1 (List.mem_of_getLast? hlast'.symm)).resolve_left htx
      refine ⟨l₁ ++ [x], hfin _ ?_ (by simp) (fun c hc => ?_) fun c hc hrec => ?_⟩
      · rw [hprem]
        refine hchain.cut ?_ fun c hc => ?_
        · rw [hna.frereDroit, ht, if_neg (by simp [htx]), if_pos rfl]
        · have hcx : c ≠ x := fun he => (List.nodup_append.1 hnd).2.2 c hc x (by simp) he
          have hct : t ≠ c := fun he => (List.nodup_append.1 hnd).2.2 c hc t (by simp [htl]) he.symm
          rw [hna.frereDroit, ht, if_neg (by simp [hct]), if_neg hcx]
      · rcases List.mem_append.1 hc with hc | hc
        · exact .inr (by simp [hc])
        · exact .inl (by simpa using hc)
      · rcases List.mem_append.1 hc with hc | hc
        · exact .inl (by simp [hc])
        · rcases List.mem_cons.1 hc with hc | hc
          · exact .inr hc
          · rw [hcad c hc] at hrec
            cases hrec
    · refine ⟨l ++ [x], hfin _ ?_ (by simp) (fun c hc => ?_) fun c hc _ => .inl (by simp [hc])⟩
      · rw [hprem]
        refine (hchain.append hxl).congr fun c _ => ?_
        rw [hna.frereDroit, ht]
        by_cases hcx : c = x
        · have htx : t ≠ x := fun he => hxl (he ▸ hchain.last_mem)
          rw [hcx, if_neg (by simp [htx]), if_pos rfl, Function.update_self]
        · rw [Function.update_of_ne hcx]
          by_cases hct : c = t
          · rw [hct, if_pos ⟨hne, rfl⟩, Function.update_self]
          · rw [if_neg (by simp [Ne.symm hct]), if_neg hcx, Function.update_of_ne hct]
      · rcases List.mem_append.1 hc with hc | hc
        · exact .inr hc
        · exact .inl (by simpa using hc)

/-- A step changes no child list, but that of a process that starts another. -/
theorem Effet.fratrie (h : Inv f a s p) (he : Effet f a s p e r s' n p')
    (hc : ∀ x, r = .cree x → Naissance s s' a x ∧ Reprise tr s a x) (ha : ∃ l, Fratrie tr s a l) (hi : Vivant s' i)
    (hri : r ≠ .cree i) (hia : i = a → ∀ x, r ≠ .cree x) (hl : Fratrie tr s i l) : Fratrie (tr ++ [(s, e, r)]) s' i l := by
  -- A birth adds one sibling at the end of one chain; a death only cuts the links to the father.
  by_cases hr : ∃ x, r = .cree x
  · obtain ⟨x, rfl⟩ := hr
    obtain ⟨hna, hd⟩ := hc x rfl
    refine hna.autre hd ha hl (he.vivant h hri hi) (fun hn => hia hn x rfl) ?_
    rintro rfl
    exact hri rfl
  · have hr : ∀ x, r ≠ .cree x := fun x hx => hr ⟨x, hx⟩
    cases he.parente with
    | meme hm =>
      exact hl.congr hr hm.premierFils hm.dernierFils hm.frereDroit (fun c hc => by rwa [hm.pere] at hc)
        fun c _ => by rw [hm.pere]
    | naissance x hx => exact absurd hx (hr x)
    | deuil _ _ hz h₁ h₂ h₃ hpere =>
      have hne : i ≠ a := by
        rintro rfl
        have hv := he.inv.vivant_iff.1 hi
        rw [hz] at hv
        cases hv
      refine hl.congr hr h₁ h₂ h₃ (fun c hc => ?_) fun c hc => ?_
      · rcases hpere c with hp | ⟨hp, -⟩
        · rwa [hp] at hc
        · rw [hp] at hc
          cases hc
      · rcases hpere c with hp | ⟨-, hm⟩
        · exact hp
        · obtain ⟨la, hla⟩ := ha
          exact absurd ((hla.chaine.seg.met_iff).1 hm) (hl.disjoint hla hne hc)

/-- A step that takes a slot as it may keeps the child lists. -/
theorem Effet.familles (h : Inv f a s p) (he : Effet f a s p e r s' n p')
    (hc : ∀ x, r = .cree x → Naissance s s' a x ∧ Reprise tr s a x) (hf : Familles tr s) : Familles (tr ++ [(s, e, r)]) s' := by
  intro i hi
  have ha : ∃ l, Fratrie tr s a l := hf a (.inl h.actif)
  by_cases hri : r = .cree i
  · obtain ⟨hna, hd⟩ := hc i hri
    rw [hri]
    exact ⟨[], hna.neuf hd ((he.cree i hri).1.apart h).1⟩
  · by_cases hia : i = a ∧ ∃ x, r = .cree x
    · obtain ⟨rfl, x, rfl⟩ := hia
      obtain ⟨hna, hd⟩ := hc x rfl
      obtain ⟨l, hl⟩ := ha
      exact hna.pere_fratrie hd (fun hx => hri (by rw [hx])) hl
    · obtain ⟨l, hl⟩ := hf i (he.vivant h hri hi)
      exact ⟨l, he.fratrie h hc ha hi hri (fun he x hx => hia ⟨he, x, hx⟩) hl⟩

/-- `start` in a step: who is born, and where. -/
theorem pas_naissance (h : Inv f a s p) (hs : Sain s e) (hcr : e.creation = true) (ho : Pas s e (.cree x) s') :
    Naissance s s' a x ∧ Prend s x e := by
  obtain ⟨-, ho⟩ := ho
  unfold Event.creation at hcr
  split at hcr
  · next ssize prio name =>
    change start ssize prio name s = _ at ho
    refine ⟨?_, start_prend ho⟩
    rcases (start_spec ssize prio name h hs).of_ok ho with hr | ⟨y, hy, -, hna, -⟩
    · cases hr
    · obtain rfl := Issue.cree.inj hy
      exact hna
  · cases hcr

/-! ## The traversals -/

/-- The search of `waitpid` in a list that ends: the first child of that pid decides. -/
theorem trouveFils_eq (pid : Int) {m : Nat} {ptr : Option Slot} (hl : Seg s.frereDroit ptr l none) (hm : l.length ≤ m) :
    trouveFils s pid m ptr = .ok ((l.find? fun c => s.pid c = pid).any fun c => s.state c ≠ .mort) := by
  induction l generalizing ptr m with
  | nil =>
    obtain rfl : ptr = none := hl
    cases m <;> rfl
  | cons x l ih =>
    have hx := (List.nodup_cons.1 hl.nodup).1
    obtain ⟨rfl, hl⟩ := hl
    obtain ⟨m, rfl⟩ : ∃ k, m = k + 1 := ⟨m - 1, by simp only [List.length_cons] at hm; omega⟩
    have hself : s.frereDroit x ≠ some x := by
      intro he
      rw [he] at hl
      cases l with
      | nil => cases hl
      | cons y l => exact hx (by simp [Option.some.inj hl.1])
    rw [trouveFils, if_neg hself, ih hl (by simpa using hm)]
    by_cases hp : s.pid x = pid <;> by_cases hst : s.state x = .mort <;> simp [hp, hst]

theorem waitpid_termine {pid : Int} {retvalp : Bool} (h : Inv f a s p) (hl : Fratrie tr s a l) :
    waitpid pid retvalp s ≠ .error .diverge := by
  have ht := trouveFils_eq pid hl.chaine.seg (Nat.le_succ_of_le (length_le_table hl.chaine.nodup))
  have hfin : ∀ b : Bool, Ensures (· ≠ .diverge) (if b = true then if pid = 0 then waitpidFin pid retvalp (-1) s else
      .ok (.enCours, s.setSuite (.attente pid retvalp (s.premierFils a))) else .ok (.attendu pid retvalp (-1) none, s))
      fun _ => True := by
    intro b
    split
    · split
      · exact (waitpidFin_spec h).mono (fun _ hy => by simp [hy.1]) fun _ _ => trivial
      · trivial
    · trivial
  have hspec : Ensures (· ≠ .diverge) (waitpid pid retvalp s) fun _ => True := by
    rw [waitpid, h.deref, ok_bind, ht]
    dsimp only
    split
    · exact hfin true
    · exact hfin _
  exact fun he => hspec.of_error he rfl

/-- The events that traverse a child list. -/
def Traverse (s : St) (e : Event) : Prop := Termine s e ∨ ∃ pid retvalp, e = .appel (.waitpid pid retvalp)

theorem Termine.joue (h : Inv f a s p) (ht : Termine s e) :
    ∃ v suite, joue e s = sansIssue (finProcessus ((s.setRetval a v).setSuite suite)) := by
  unfold Termine at ht
  split at ht
  · next retval =>
    refine ⟨some retval, .exit, ?_⟩
    show sansIssue (exit retval s) = _
    rw [exit, h.deref, ok_bind]
  · refine ⟨s.retval a, .retour, ?_⟩
    rw [St.setRetval, Function.update_eq_self]
    rfl
  · next pid =>
    obtain ⟨hin, b, hb, hpid⟩ := ht
    obtain rfl : a = b := h.actif_eq hb
    refine ⟨none, .kill, ?_⟩
    show kill pid s = _
    rw [kill, if_neg hin, h.deref, ok_bind, if_pos hpid]
    rfl
  · exact ht.elim

theorem Termine.releve (hs : Sain s e) (ht : Termine s e) : Releve s := by
  unfold Termine at ht
  split at ht
  · exact hs
  · exact hs
  · exact hs ht.2
  · exact ht.elim

/-- No traversal goes round. -/
theorem traverse_termine (h : Inv f a s p) (hs : Sain s e) (hl : Fratrie tr s a l) (ht : Traverse s e) :
    joue e s ≠ .error .diverge := by
  rcases ht with ht | ⟨pid, retvalp, rfl⟩
  · obtain ⟨v, suite, ho⟩ := ht.joue h
    have hi := (h.setRetval a v).setSuite suite
    have hspec : Ensures (· ≠ .diverge) (joue e s) fun _ => True := by
      rw [ho]
      refine Ensures.bind ((finProcessus_spec hi (Termine.releve hs ht)).mono ?_ fun _ hq => hq) fun _ _ => trivial
      rintro y (rfl | ⟨rfl, hlen⟩)
      · nofun
      · have hlt := hlen l hl.chaine.seg
        have hle := length_le_table hl.chaine.nodup
        omega
    exact fun he => hspec.of_error he rfl
  · exact waitpid_termine h hl

/-! ## Runs -/

theorem familles_boot : Familles [] boot := by
  intro i hi
  have hlib : ∀ c, boot.pere c ≠ some i := by
    intro c
    rw [boot_eq]
    by_cases hc : c = 0 <;> simp [initSlot, St.zero, hc]
  refine ⟨[], ⟨?_, fun c hc => absurd hc (hlib c), by simp⟩⟩
  have hnil : boot.premierFils i = none ∧ boot.dernierFils i = none := by
    rw [boot_eq]
    by_cases hc : i = 0 <;> simp [initSlot, St.zero, hc]
  rw [hnil.1, hnil.2]
  exact .empty

/-- A step that takes a slot as it may, with what it does. -/
theorem reprend_pas (h : Inv melange a s p) (hf : Familles tr s) (hs : Sain s e) (hc : Reprend tr s e) (ho : Pas s e r s') :
    ∃ n p', Effet melange a s p e r s' n p' ∧ (∀ x, r = .cree x → Naissance s s' a x ∧ Reprise tr s a x) ∧
      Familles (tr ++ [(s, e, r)]) s' := by
  obtain ⟨n, p', he⟩ := pas_spec h hs (separe_melange s e) ho
  have hn : ∀ x, r = .cree x → Naissance s s' a x ∧ Reprise tr s a x := by
    rintro x rfl
    obtain ⟨hna, hp⟩ := pas_naissance h hs (he.cree x rfl).2.2 ho
    exact ⟨hna, hc a x h.actif hp⟩
  exact ⟨n, p', he, hn, he.familles h hn hf⟩

theorem familles_spec {C : St → Event → Prop} (hC : ∀ s e, C s e → Sain s e) (hr : Parcours C tr s) (hc : Along Reprend [] tr) :
    ∃ a p, Inv melange a s p ∧ Familles tr s := by
  refine hr.inv_along (fun tr s => ∃ a p, Inv melange a s p ∧ Familles tr s) hc ⟨0, _, inv_boot _, familles_boot⟩ ?_
  rintro tr s e r s' ⟨a, p, hi, hf⟩ hrep ⟨hcs, ho⟩
  obtain ⟨n, p', he, -, hf'⟩ := reprend_pas hi hf (hC s e hcs) hrep ho
  exact ⟨n, p', he.inv, hf'⟩

/-- When slots are only used again where they may be, the child list of every live process ends, visits each process once, and
holds the processes it started that were not awaited, and no other process's; and no traversal goes round. -/
theorem family_lists (hr : Parcours Sain tr s) (hc : Along Reprend [] tr) :
    (∀ i, Vivant s i → ∃ l, Chain s.frereDroit (s.premierFils i) (s.dernierFils i) l ∧ l.Nodup ∧
      (∀ c, s.pere c = some i → recueillis tr c = false → c ∈ l) ∧ ∀ c ∈ l, s.pere c = some i) ∧
    ∀ e, Sain s e → Traverse s e → joue e s ≠ .error .diverge := by
  obtain ⟨a, p, hi, hf⟩ := familles_spec (fun _ _ h => h) hr hc
  refine ⟨fun i hv => ?_, fun e hs ht => ?_⟩
  · obtain ⟨l, hl⟩ := hf i hv
    exact ⟨l, hl.chaine, hl.chaine.nodup, hl.complete, hl.propre⟩
  · obtain ⟨l, hl⟩ := hf a (.inl hi.actif)
    exact traverse_termine hi hs hl ht

instance (s : St) (i : Slot) : Decidable (Vivant s i) := inferInstanceAs (Decidable (_ ∨ _ ∨ _))

instance (s : St) (x : Slot) : (e : Event) → Decidable (Prend s x e)
  | .appel (.start ssize _ _) => inferInstanceAs (Decidable (ssize < 0xffffffff ∧ s.processAlive ≠ PROCESS_TABLE_SIZE ∧
      ((prendSlot s).toOption.map Prod.fst) = some x))
  | .appel (.exit _) | .appel (.retour _) | .appel (.kill _) | .appel (.chprio _ _) | .appel (.waitpid _ _) | .appel (.dors _)
  | .appel (.sleepUntil _) | .appel (.waitClock _) | .appel (.pcreate _ _) | .appel (.pdelete _) | .appel (.preset _)
  | .appel (.psend _ _) | .appel (.preceive _) | .suite | .tick => inferInstanceAs (Decidable False)

instance (tr : List (St × Event × Issue)) (s : St) (a x : Slot) : Decidable (Reprise tr s a x) :=
  decidable_of_iff ((∀ c, s.pere c = some x → recueillis tr c = true) ∧ (∀ i, i ≠ a → Vivant s i → x ∉ s.fils i) ∧
      (x ∈ s.fils a → s.frereDroit x ≠ none ∧ ∀ c ∈ s.cadets x, recueillis tr c = true))
    ⟨fun h => ⟨h.1, h.2.1, h.2.2⟩, fun h => ⟨h.orphelins, h.autres, h.propre⟩⟩

instance (tr : List (St × Event × Issue)) (s : St) (e : Event) : Decidable (Reprend tr s e) :=
  inferInstanceAs (Decidable (∀ a x, s.actif = some a → Prend s x e → Reprise tr s a x))

/-- Process 0 awaits two children and starts a third in the slot of the first. -/
theorem family_lists_run :
    ∃ tr s, Parcours Sain tr s ∧ Along Reprend [] tr ∧ (tr.length = 11 ∧ s.pere 1 = some 0 ∧ s.state 1 = .activable) ∧
      (∀ i, Vivant s i → ∃ l, Chain s.frereDroit (s.premierFils i) (s.dernierFils i) l ∧ l.Nodup ∧
        (∀ c, s.pere c = some i → recueillis tr c = false → c ∈ l) ∧ ∀ c ∈ l, s.pere c = some i) ∧
      ∀ e, Sain s e → Traverse s e → joue e s ≠ .error .diverge := by
  obtain ⟨tr, s, hr, hc, hx⟩ := deroule_any (P := Sain)
    (Q := fun tr s => Along Reprend [] tr ∧ tr.length = 11 ∧ s.pere 1 = some 0 ∧ s.state 1 = .activable) boot
    [.appel (.start 512 5 "p"), .appel (.start 512 5 "q"), .tick, .appel (.exit 3), .appel (.exit 4),
      .appel (.waitpid 1 true), .suite, .appel (.waitpid 2 true), .suite, .suite, .appel (.start 512 5 "r")]
    (by decide +kernel)
  exact ⟨tr, s, hr, hc, hx, family_lists hr hc⟩

/-- A list that meets a cell whose link is the cell itself does not end. -/
theorem seg_boucle {ptr : Option Slot} (hx : s.frereDroit x = some x) (hl : Seg s.frereDroit ptr l none) : x ∉ l := by
  intro hm
  obtain ⟨l₁, l₂, rfl, -, -, h₂⟩ := hl.from_mem hm
  have hn := (List.nodup_append.1 hl.nodup).2.1
  rw [hx] at h₂
  cases l₂ with
  | nil => cases h₂
  | cons y l₂ => exact (List.nodup_cons.1 hn).1 (by simp [Option.some.inj h₂.1])

/-- A process starts a child, awaits it and starts another: the slot is linked behind itself. -/
theorem family_lists_fails :
    ¬∀ tr s, Parcours (fun _ _ => True) tr s → ∀ i, Vivant s i →
      ∃ l, Chain s.frereDroit (s.premierFils i) (s.dernierFils i) l ∧ l.Nodup ∧
        (∀ c, s.pere c = some i → recueillis tr c = false → c ∈ l) ∧ ∀ c ∈ l, s.pere c = some i := by
  intro h
  obtain ⟨tr, s, hr, hv, hd, hx⟩ := deroule_any (P := fun _ _ => True)
    (Q := fun _ s => Vivant s 0 ∧ s.dernierFils 0 = some 1 ∧ s.frereDroit 1 = some 1) boot
    [.appel (.start 512 5 "p"), .tick, .appel (.exit 3), .appel (.waitpid 1 true), .suite, .appel (.start 512 5 "q")]
    (by decide +kernel)
  obtain ⟨l, hl, -⟩ := h tr s hr 0 hv
  rw [hd] at hl
  exact seg_boucle hx hl.seg hl.last_mem

end Pcsea
