import Pcsea.Console
import Pcsea.Lib.Page
/-!
# The console as a terminal

After a form feed, rows 1 to 24 should show the last 24 rows of the text.
They do while the text has 24 rows at most: a newline on the last row scrolls
and `defilement` takes the cursor one row too high, and a row that gets full
there does not scroll.
-/

namespace Pcsea

open Lib

variable {e : Ecran} {c : Int} {texte : List Int} {ts : List (List Int)} {p : Page Int NB_COL} {a v : Nat}

/-! ## The text on the screen -/

/-- The rows below the clock. -/
def NB_TEXTE : Nat := NB_LIG - POSI_L_INIT

/-- What a byte is on a page. -/
def lettre (c : Int) : Option Int := if c = 10 then none else some c

/-- The text in rows of 80 columns. -/
def pageDe (texte : List Int) : Page Int NB_COL := (Page.blank (by decide)).write (texte.map lettre)

/-- The cell of a place of the page, a space where there is no text. -/
def caseVideo (o : Option Int) : Nat := attribut (o.getD 32) 15 0 0

/-- Rows 1 to 24 show the end of the page, and the next character goes where the page goes on. -/
structure Montre (p : Page Int NB_COL) (e : Ecran) : Prop where
  cases : ∀ i < NB_TEXTE, ∀ j < NB_COL, e.cellule (ptrMem (POSI_L_INIT + i) j) = caseVideo (p.cell NB_TEXTE i j)
  lig : e.cursLigPos = POSI_L_INIT + min p.rows.length (NB_TEXTE - 1)
  col : e.cursColPos = p.current.length

/-- Calls of `console_putbytes`. -/
def consoleAppels (ts : List (List Int)) (e : Ecran) : Ecran := ts.foldl (fun e t => consolePutbytes t e) e

/-- As the text is written after a form feed, however it is split into calls, the screen shows its page. -/
def CommeTerminal (e : Ecran) (texte : List Int) : Prop :=
  ∀ ts : List (List Int), ts.flatten <+: texte → Montre (pageDe ts.flatten) (consoleAppels ts (consolePutbytes [12] e))

theorem consoleAppels_flatten : consoleAppels ts e = consolePutbytes ts.flatten e := by
  simp only [consoleAppels, consolePutbytes, List.foldl_flatten]

theorem pageDe_concat : pageDe (texte ++ [c]) = (pageDe texte).put (lettre c) := by
  rw [pageDe, List.map_append, List.map_singleton, Page.write_concat]
  rfl

/-! ## A form feed -/

/-- A loop that makes `P` true in one of its steps, and keeps it in the others. -/
theorem foldl_of_mem {σ β : Type} {P : σ → Prop} {f : σ → β → σ} {l : List β} {b : β} (hb : b ∈ l) (hf : ∀ s, P (f s b))
    (hk : ∀ s b, P s → P (f s b)) (s : σ) : P (l.foldl f s) := by
  induction l generalizing s with
  | nil => simp at hb
  | cons d l ih =>
    rcases List.mem_cons.1 hb with rfl | hb
    · rw [List.foldl_cons]
      exact List.foldlRecOn _ _ (hf s) fun s hs b _ => hk s b hs
    · exact ih hb (f s d)

theorem effaceEcran_cellule {lig col : Nat} (hl : lig < NB_LIG) (hc : col < NB_COL) (e : Ecran) :
    (effaceEcran e).cellule (ptrMem lig col) = caseVideo none := by
  have hkeep : ∀ (e : Ecran) (l c : Nat), e.cellule (ptrMem lig col) = caseVideo none →
      (ecritCar l c 32 15 0 0 e).cellule (ptrMem lig col) = caseVideo none := by
    intro e l c he
    rw [cellule_ecritCar]
    split
    · rfl
    · exact he
  refine foldl_of_mem (P := fun e : Ecran => e.cellule (ptrMem lig col) = caseVideo none) (List.mem_range.2 hl) ?_ ?_ e
  · refine foldl_of_mem (P := fun e : Ecran => e.cellule (ptrMem lig col) = caseVideo none) (List.mem_range.2 hc) ?_ ?_
    · intro e
      rw [cellule_ecritCar, if_pos rfl]
      rfl
    · intro e col' he
      exact hkeep e _ _ he
  · intro e lig' he
    refine List.foldlRecOn (motive := fun e : Ecran => e.cellule (ptrMem lig col) = caseVideo none) _ _ he ?_
    intro e he col' _
    exact hkeep e _ _ he

theorem montre_formFeed (e : Ecran) : Montre (pageDe []) (consolePutbytes [12] e) where
  cases := by
    intro i hi j hj
    have hl : POSI_L_INIT + i < NB_LIG := by
      simp only [NB_TEXTE, NB_LIG, POSI_L_INIT] at *
      omega
    have he : (consolePutbytes [12] e).cellule = (effaceEcran e).cellule := rfl
    rw [he, effaceEcran_cellule hl hj, Page.cell, pageDe, List.map_nil, Page.write, List.foldl_nil, Page.get_blank]
  lig := rfl
  col := rfl

/-! ## Text that does not scroll -/

/-- The places of the screen have different addresses. -/
theorem ptrMem_inj {lig lig' col col' : Nat} (hl : lig < NB_LIG) (hc : col < NB_COL) (hl' : lig' < NB_LIG) (hc' : col' < NB_COL) :
    ptrMem lig col = ptrMem lig' col' ↔ lig = lig' ∧ col = col' := by
  rw [ptrMem_eq hl hc, ptrMem_eq hl' hc']
  simp only [NB_COL] at *
  omega

theorem traiteCar_newline (h : e.cursLigPos < NB_LIG - 1) :
    traiteCar 10 e = { e with cursLigPos := e.cursLigPos + 1, cursColPos := POSI_C_INIT } := by
  rw [traiteCar_eq, traiteCarCorps, if_neg (by decide), if_neg (by decide), if_neg (by decide), if_pos rfl, if_pos (Nat.ne_of_lt h),
    succUint32_lt h (by decide)]

/-- A newline on the last row. -/
theorem traiteCar_defile (h : e.cursLigPos = NB_LIG - 1) :
    traiteCar 10 e = { defilement e with cursColPos := POSI_C_INIT } := by
  rw [traiteCar_eq, traiteCarCorps, if_neg (by decide), if_neg (by decide), if_neg (by decide), if_pos rfl, if_neg (by simp [h])]

/-- A printed character. On the screen the source compares the row with a number that no row reaches. -/
theorem traiteCar_imprime (hc : 32 ≤ c ∧ c ≤ 126) (hlig : e.cursLigPos < NB_LIG) (hcol : e.cursColPos < NB_COL) :
    traiteCar c e =
      if e.cursColPos + 1 = NB_COL then
        { ecritCar e.cursLigPos e.cursColPos c 15 0 0 e with cursLigPos := e.cursLigPos + 1, cursColPos := POSI_C_INIT }
      else { ecritCar e.cursLigPos e.cursColPos c 15 0 0 e with cursColPos := e.cursColPos + 1 } := by
  have hne : e.cursLigPos ≠ NB_COL - 1 := by
    simp only [NB_LIG, NB_COL] at *
    omega
  rw [← succUint32_lt hcol (by decide), ← succUint32_lt hlig (by decide), traiteCar_eq, traiteCarCorps, if_pos hc]
  dsimp only [ecritCar, Ecran.ecrit]
  rw [if_pos hne]

/-- The cursor is on the row of the page that is being written. -/
theorem Montre.cursLig (hm : Montre p e) (hp : p.rows.length < NB_TEXTE) :
    e.cursLigPos = POSI_L_INIT + p.rows.length ∧ e.cursLigPos < NB_LIG := by
  have hlig := hm.lig
  rw [Nat.min_eq_left (Nat.le_sub_one_of_lt hp)] at hlig
  refine ⟨hlig, ?_⟩
  simp only [NB_TEXTE, NB_LIG, POSI_L_INIT] at *
  omega

theorem Montre.newline (hm : Montre p e) (hp : p.rows.length + 1 < NB_TEXTE) : Montre (p.put none) (traiteCar 10 e) := by
  have hp₀ : p.rows.length < NB_TEXTE := Nat.lt_of_succ_lt hp
  obtain ⟨hlig, -⟩ := hm.cursLig hp₀
  have hlt : e.cursLigPos < NB_LIG - 1 := by
    simp only [NB_TEXTE, NB_LIG, POSI_L_INIT] at *
    omega
  rw [traiteCar_newline hlt]
  refine ⟨fun i hi j hj => ?_, ?_, rfl⟩
  · rw [Page.cell_eq_get (by rwa [Page.rows_newline]), Page.get_newline, ← Page.cell_eq_get hp₀]
    exact hm.cases i hi j hj
  · rw [Page.rows_newline, Nat.min_eq_left (Nat.le_sub_one_of_lt hp), hlig, Nat.add_assoc]

theorem Montre.imprime (hm : Montre p e) (hc : 32 ≤ c ∧ c ≤ 126) (hp : (p.put (some c)).rows.length < NB_TEXTE) :
    Montre (p.put (some c)) (traiteCar c e) := by
  have hp₀ : p.rows.length < NB_TEXTE := Page.rows_le_put.1.trans_lt hp
  obtain ⟨hlig, hle⟩ := hm.cursLig hp₀
  have hcol : e.cursColPos < NB_COL := hm.col ▸ p.fits
  have hcar := traiteCar_imprime hc hle hcol
  have hcell : (traiteCar c e).cellule = (ecritCar e.cursLigPos e.cursColPos c 15 0 0 e).cellule := by
    rw [hcar]
    split <;> rfl
  refine ⟨fun i hi j hj => ?_, ?_, ?_⟩
  · have hil : POSI_L_INIT + i < NB_LIG := by
      simp only [NB_TEXTE, NB_LIG, POSI_L_INIT] at *
      omega
    rw [hcell, cellule_ecritCar, Page.cell_eq_get hp, Page.get_put, hm.cases i hi j hj, Page.cell_eq_get hp₀]
    -- The only cell that is written is the one at the cursor.
    have hpos : ptrMem (POSI_L_INIT + i) j = ptrMem e.cursLigPos e.cursColPos ↔ i = p.rows.length ∧ j = p.current.length := by
      rw [ptrMem_inj hil hj hle hcol, hlig, hm.col]
      exact and_congr_left' Nat.add_left_cancel_iff
    by_cases h : i = p.rows.length ∧ j = p.current.length
    · rw [if_pos (hpos.2 h), if_pos h]
      rfl
    · rw [if_neg (mt hpos.1 h), if_neg h]
  · rw [Nat.min_eq_left (Nat.le_sub_one_of_lt hp), Page.rows_put, hcar, ← hm.col]
    split
    · dsimp only
      rw [hlig, Nat.add_assoc]
    · exact hlig
  · rw [Page.current_put, hcar, ← hm.col]
    split <;> rfl

/-! ## Text that scrolls -/

theorem defilement_cursLigPos (h : POSI_L_INIT < e.cursLigPos) : (defilement e).cursLigPos = e.cursLigPos - 1 := by
  unfold defilement
  dsimp only
  refine List.foldlRecOn (motive := fun d : Ecran => d.cursLigPos = e.cursLigPos - 1) _ _ ?_ fun d hd i _ => hd
  exact congrArg Ecran.cursLigPos (if_pos h)

/-- On the last row of the screen. -/
theorem Montre.derniereLigne (hm : Montre p e) (hp : p.rows.length + 1 = NB_TEXTE) : e.cursLigPos = NB_LIG - 1 := by
  rw [(hm.cursLig (Nat.lt_of_succ_le (Nat.le_of_eq hp))).1, show p.rows.length = 23 from Nat.succ.inj hp]
  rfl

/-- The screen shows a page of 25 rows only with the cursor on the last row. -/
theorem Montre.lig_eq (hm : Montre p e) (hp : p.rows.length = NB_TEXTE) : e.cursLigPos = NB_LIG - 1 := by
  rw [hm.lig, hp]
  rfl

/-- A newline on the last row: the cursor is taken one row too high. -/
theorem Montre.newline_derniere (hm : Montre p e) (hp : p.rows.length + 1 = NB_TEXTE) : ¬Montre (p.put none) (traiteCar 10 e) := by
  intro h
  have hlig := hm.derniereLigne hp
  have he : (traiteCar 10 e).cursLigPos = NB_LIG - 2 := by
    rw [traiteCar_defile hlig]
    dsimp only
    rw [defilement_cursLigPos (by rw [hlig]; decide), hlig]
    rfl
  have hl := h.lig_eq (by rw [Page.rows_newline, hp])
  exact absurd (he.symm.trans hl) (by decide)

/-- The end of the last row: no scroll, and the cursor leaves the screen. -/
theorem Montre.imprime_derniere (hm : Montre p e) (hc : 32 ≤ c ∧ c ≤ 126) (hp : p.rows.length + 1 = NB_TEXTE)
    (hw : p.current.length + 1 = NB_COL) : ¬Montre (p.put (some c)) (traiteCar c e) := by
  intro h
  have hlig := hm.derniereLigne hp
  have he : (traiteCar c e).cursLigPos = NB_LIG := by
    rw [traiteCar_imprime hc (by rw [hlig]; decide) (hm.col ▸ p.fits), hm.col, if_pos hw]
    dsimp only
    rw [hlig]
    rfl
  have hl := h.lig_eq (by rw [Page.rows_put, if_pos hw, hp])
  exact absurd (he.symm.trans hl) (by decide)

/-! ## Every text -/

/-- A printable character or a newline. -/
def Affichable (c : Int) : Prop := 32 ≤ c ∧ c ≤ 126 ∨ c = 10

theorem Montre.traiteCar (hm : Montre p e) (hc : Affichable c) (hp : (p.put (lettre c)).rows.length < NB_TEXTE) :
    Montre (p.put (lettre c)) (traiteCar c e) := by
  rcases hc with hc | rfl
  · have hl : lettre c = some c := if_neg (by omega)
    rw [hl] at hp ⊢
    exact hm.imprime hc hp
  · have hp' := hp
    rw [show lettre 10 = none from rfl, Page.rows_newline] at hp'
    exact hm.newline hp'

theorem Montre.derniere (hm : Montre p e) (hc : Affichable c) (hp : p.rows.length < NB_TEXTE)
    (hp' : NB_TEXTE ≤ (p.put (lettre c)).rows.length) : ¬Montre (p.put (lettre c)) (Pcsea.traiteCar c e) := by
  have hle := (Page.rows_le_put (p := p) (o := lettre c)).2
  rcases hc with hc | rfl
  · have hl : lettre c = some c := if_neg (by omega)
    rw [hl] at hp' hle ⊢
    rw [Page.rows_put] at hp'
    by_cases hw : p.current.length + 1 = NB_COL
    · rw [if_pos hw] at hp'
      exact hm.imprime_derniere hc (by omega) hw
    · rw [if_neg hw] at hp'
      omega
  · exact hm.newline_derniere (by omega)

theorem pageDe_rows_mono {s : List Int} (hs : s <+: texte) : (pageDe s).rows.length ≤ (pageDe texte).rows.length := by
  obtain ⟨t, rfl⟩ := hs
  rw [pageDe, pageDe, List.map_append, Page.write, Page.write, List.foldl_append]
  exact Page.rows_le_write _ _

/-- Up to 24 rows the screen shows the page. -/
theorem montre_pageDe (ht : ∀ c ∈ texte, Affichable c) (hp : (pageDe texte).rows.length < NB_TEXTE) :
    Montre (pageDe texte) (consolePutbytes texte (consolePutbytes [12] e)) := by
  induction texte using List.reverseRecOn with
  | nil => exact montre_formFeed e
  | append_singleton s c ih =>
    have hp' := (pageDe_rows_mono (List.prefix_append s [c])).trans_lt hp
    rw [pageDe_concat] at hp ⊢
    rw [consolePutbytes_concat]
    exact (ih (fun d hd => ht d (List.mem_append_left _ hd)) hp').traiteCar (ht c (by simp)) hp

/-- The console never scrolls as a terminal does. -/
theorem CommeTerminal.rows (h : CommeTerminal e texte) (ht : ∀ c ∈ texte, Affichable c) :
    (pageDe texte).rows.length < NB_TEXTE := by
  have hm : ∀ s, s <+: texte → Montre (pageDe s) (consolePutbytes s (consolePutbytes [12] e)) := by
    intro s hs
    have := h [s] (by simpa using hs)
    rwa [consoleAppels_flatten, List.flatten_singleton] at this
  suffices hall : ∀ s, s <+: texte → (pageDe s).rows.length < NB_TEXTE from hall _ List.prefix_rfl
  intro s hs
  induction s using List.reverseRecOn with
  | nil => decide
  | append_singleton s c ih =>
    have hs' := (List.prefix_append s [c]).trans hs
    by_contra hn
    rw [pageDe_concat, Nat.not_lt] at hn
    refine (hm s hs').derniere (ht c (hs.subset (by simp))) (ih hs') hn ?_
    rw [← pageDe_concat, ← consolePutbytes_concat]
    exact hm _ hs

/-- The console shows a text as a terminal does exactly when the text takes 24 rows at most, the current one included. -/
theorem console_terminal (e : Ecran) (ht : ∀ c ∈ texte, Affichable c) :
    CommeTerminal e texte ↔ (pageDe texte).rows.length + 1 ≤ NB_TEXTE := by
  refine ⟨fun h => h.rows ht, fun hp ts hts => ?_⟩
  rw [consoleAppels_flatten]
  exact montre_pageDe (fun c hc => ht c (hts.subset hc)) ((pageDe_rows_mono hts).trans_lt hp)

theorem console_terminal_hello : (∀ c ∈ [72, 105, 10, 33], Affichable c) ∧ CommeTerminal (.boot fun _ => 0) [72, 105, 10, 33] := by
  have ht : ∀ c ∈ [72, 105, 10, 33], Affichable c := by
    simp [Affichable]
  exact ⟨ht, (console_terminal _ ht).2 (by decide)⟩

/-- An `a` on the last row, a newline, a `b`: the `b` is written on the `a`. -/
theorem console_terminal_fails : ¬∀ e texte, (∀ c ∈ texte, Affichable c) → CommeTerminal e texte := by
  intro h
  have ht : ∀ c ∈ List.replicate 23 10 ++ [97, 10, 98], Affichable c := by
    intro c hc
    simp only [List.mem_append, List.mem_replicate] at hc
    rcases hc with ⟨-, rfl⟩ | hc
    · exact .inr rfl
    · revert hc
      simp only [List.mem_cons, List.not_mem_nil, or_false]
      rintro (rfl | rfl | rfl) <;> simp [Affichable]
  exact absurd ((h (.boot fun _ => 0) _ ht).rows ht) (by decide)

end Pcsea
