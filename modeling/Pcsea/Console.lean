import Mathlib.Data.List.Induction
import Mathlib.Data.List.Infix
import Pcsea.Display
/-!
# What the console writes on

The first character that goes past the last row breaks the console: at the end
of row 24 `traite_car` compares the row with `NB_COL - 1`, and `defilement`
copies one row too many.
-/

namespace Pcsea

variable {e e' : Ecran} {c : Int} {bs : List Int} {a lig col : Nat} {cellule : Nat → Nat}

/-! ## The screen -/

/-- The address is that of a cell of the screen. -/
def DansEcran (a : Nat) : Prop := ∃ lig < NB_LIG, ∃ col < NB_COL, a = 0xB8000 + 2 * (lig * NB_COL + col)

theorem ptrMem_eq (hl : lig < NB_LIG) (hc : col < NB_COL) : ptrMem lig col = 0xB8000 + 2 * (lig * NB_COL + col) := by
  simp only [ptrMem, NB_LIG, NB_COL] at *
  omega

theorem dansEcran_ptrMem (hl : lig < NB_LIG) (hc : col < NB_COL) : DansEcran (ptrMem lig col) :=
  ⟨lig, hl, col, hc, ptrMem_eq hl hc⟩

/-- The cursor is on the screen, and so was every access. -/
structure SurEcran (e : Ecran) : Prop where
  lig : e.cursLigPos < NB_LIG
  col : e.cursColPos < NB_COL
  acces : ∀ a ∈ e.acces, DansEcran a

/-- The first row is as it was. -/
def MemeLigne0 (e e' : Ecran) : Prop := ∀ col < NB_COL, e'.cellule (ptrMem 0 col) = e.cellule (ptrMem 0 col)

/-- After each byte of `chaine` the console is on the screen, and only a form feed has changed the first row. -/
def ConsoleSure (cellule : Nat → Nat) (chaine : List Int) : Prop :=
  ∀ bs, bs <+: chaine → SurEcran (consolePutbytes bs (.boot cellule)) ∧
    ∀ c, bs ++ [c] <+: chaine → c ≠ 12 →
      MemeLigne0 (consolePutbytes bs (.boot cellule)) (consolePutbytes (bs ++ [c]) (.boot cellule))

/-- `c` makes the screen scroll: a newline on the last row, or a character printed in its last column. -/
def Deborde (e : Ecran) (c : Int) : Prop :=
  e.cursLigPos = NB_LIG - 1 ∧ (c = 10 ∨ 32 ≤ c ∧ c ≤ 126 ∧ e.cursColPos = NB_COL - 1)

/-! ## A byte that does not scroll -/

/-- The console is below the row of the clock. -/
structure SousClock (e : Ecran) : Prop extends SurEcran e where
  clock : POSI_L_INIT ≤ e.cursLigPos

theorem SurEcran.ecritCar (h : SurEcran e) (hl : lig < NB_LIG) (hc : col < NB_COL) (v : Int) (ct cf cl : Nat) :
    SurEcran (ecritCar lig col v ct cf cl e) := by
  refine ⟨h.lig, h.col, fun a ha => ?_⟩
  rcases List.mem_cons.1 ha with rfl | ha
  · exact dansEcran_ptrMem hl hc
  · exact h.acces a ha

theorem SurEcran.effaceEcran (h : SurEcran e) : SurEcran (effaceEcran e) := by
  refine List.foldlRecOn _ _ h fun e h lig hl => ?_
  refine List.foldlRecOn _ _ h fun e h col hc => ?_
  exact h.ecritCar (List.mem_range.1 hl) (List.mem_range.1 hc) ..

theorem nextTab_lt (h : e.cursColPos < NB_COL) : nextTab e < NB_COL ∧ nextTab e ≠ 0 := by
  rw [NB_COL] at *
  unfold nextTab
  grind

theorem cellule_ecritCar (ct cf cl : Nat) : (ecritCar lig col c ct cf cl e).cellule a =
    if a = ptrMem lig col then attribut c ct cf cl else e.cellule a := by
  simp [ecritCar, Ecran.ecrit, Function.update_apply]

@[simp] theorem ecritCar_cursLigPos (ct cf cl : Nat) : (ecritCar lig col c ct cf cl e).cursLigPos = e.cursLigPos := rfl

@[simp] theorem ecritCar_cursColPos (ct cf cl : Nat) : (ecritCar lig col c ct cf cl e).cursColPos = e.cursColPos := rfl

/-- A character is not written on the first row from below it. -/
theorem memeLigne0_ecritCar (hl : POSI_L_INIT ≤ lig) (hl' : lig < NB_LIG) (hc : col < NB_COL) (v : Int) (ct cf cl : Nat) :
    MemeLigne0 e (ecritCar lig col v ct cf cl e) := by
  intro col' hc'
  have hne : ptrMem 0 col' ≠ ptrMem lig col := by
    rw [ptrMem_eq hl' hc, ptrMem_eq (by decide) hc']
    simp only [POSI_L_INIT, NB_COL] at *
    omega
  rw [cellule_ecritCar, if_neg hne]

theorem posi_lt : POSI_L_INIT < NB_LIG ∧ POSI_C_INIT < NB_COL := by decide

theorem MemeLigne0.of_cellule (h : e'.cellule = e.cellule) : MemeLigne0 e e' := fun _ _ => by rw [h]

theorem succUint32_lt {n k : Nat} (h : n < k) (hk : k < 2 ^ 32) : succUint32 n = n + 1 := by
  rw [succUint32, Nat.mod_eq_of_lt (by omega)]

/-- `place_curseur` puts the cursor where it is. -/
theorem traiteCar_eq (c : Int) (e : Ecran) : traiteCar c e = traiteCarCorps c e := rfl

/-- A printed character: the cursor goes to the next cell. -/
theorem imprime_sure (h : SousClock e) (hc : 32 ≤ c ∧ c ≤ 126) (hd : ¬Deborde e c) :
    SousClock (traiteCarCorps c e) ∧ MemeLigne0 e (traiteCarCorps c e) := by
  have hw := h.toSurEcran.ecritCar h.lig h.col c 15 0 0
  have hrow := memeLigne0_ecritCar (e := e) h.clock h.lig h.col c 15 0 0
  have hlig : e.cursLigPos < 25 := h.lig
  have hcol : e.cursColPos < 80 := h.col
  have hclock : 1 ≤ e.cursLigPos := h.clock
  have hscol : succUint32 e.cursColPos = e.cursColPos + 1 := succUint32_lt hcol (by decide)
  have hslig : succUint32 e.cursLigPos = e.cursLigPos + 1 := succUint32_lt hlig (by decide)
  rw [traiteCarCorps, if_pos hc]
  dsimp only
  split
  · next he =>
    have he : e.cursColPos + 1 = 80 := hscol ▸ he
    have hne : e.cursLigPos ≠ 24 := fun hl => hd ⟨hl, .inr ⟨hc.1, hc.2, by rw [NB_COL]; omega⟩⟩
    -- The source compares with the number of columns, which no row reaches.
    have hlast : (ecritCar e.cursLigPos e.cursColPos c 15 0 0 e).cursLigPos ≠ NB_COL - 1 := by
      rw [ecritCar_cursLigPos, NB_COL]
      omega
    rw [if_pos hlast]
    refine ⟨⟨⟨?_, posi_lt.2, hw.acces⟩, ?_⟩, hrow⟩
    · show succUint32 e.cursLigPos < 25
      omega
    · show 1 ≤ succUint32 e.cursLigPos
      omega
  · next he =>
    have he : e.cursColPos + 1 ≠ 80 := hscol ▸ he
    refine ⟨⟨⟨hlig, ?_, hw.acces⟩, hclock⟩, hrow⟩
    show succUint32 e.cursColPos < 80
    omega

theorem traiteCar_sure (h : SousClock e) (hd : ¬Deborde e c) :
    SousClock (traiteCar c e) ∧ (c ≠ 12 → MemeLigne0 e (traiteCar c e)) := by
  have hlig : e.cursLigPos < 25 := h.lig
  have hcol : e.cursColPos < 80 := h.col
  have hclock : 1 ≤ e.cursLigPos := h.clock
  rw [traiteCar_eq]
  by_cases hc : 32 ≤ c ∧ c ≤ 126
  · exact (imprime_sure h hc hd).imp_right fun hm _ => hm
  rw [traiteCarCorps, if_neg hc]
  split
  · -- backspace
    split
    · next hz =>
      have hp : predUint32 e.cursColPos < NB_COL := by
        rw [predUint32, NB_COL]
        omega
      exact ⟨⟨⟨hlig, hp, h.acces⟩, hclock⟩, fun _ => .of_cellule rfl⟩
    · exact ⟨h, fun _ => .of_cellule rfl⟩
  split
  · -- tab
    obtain ⟨ht, hz⟩ := nextTab_lt h.col
    dsimp only
    rw [if_neg hz]
    exact ⟨⟨⟨hlig, ht, h.acces⟩, hclock⟩, fun _ => .of_cellule rfl⟩
  split
  · -- newline
    next hn =>
    have hne : e.cursLigPos ≠ 24 := fun hl => hd ⟨hl, .inl hn⟩
    have hs : succUint32 e.cursLigPos = e.cursLigPos + 1 := succUint32_lt hlig (by decide)
    rw [if_pos (show e.cursLigPos ≠ NB_LIG - 1 from hne)]
    refine ⟨⟨⟨?_, posi_lt.2, h.acces⟩, ?_⟩, fun _ => .of_cellule rfl⟩
    · show succUint32 e.cursLigPos < 25
      omega
    · show 1 ≤ succUint32 e.cursLigPos
      omega
  split
  · -- form feed
    next hf => exact ⟨⟨⟨posi_lt.1, posi_lt.2, h.toSurEcran.effaceEcran.acces⟩, le_rfl⟩, fun hn => absurd hf hn⟩
  split
  · exact ⟨⟨⟨hlig, posi_lt.2, h.acces⟩, hclock⟩, fun _ => .of_cellule rfl⟩
  · exact ⟨h, fun _ => .of_cellule rfl⟩

/-! ## A byte that scrolls -/

/-- The first address behind the screen. -/
def horsEcran : Nat := 0xB8000 + 2 * (NB_LIG * NB_COL)

theorem not_dansEcran_horsEcran : ¬DansEcran horsEcran := by
  rintro ⟨lig, hl, col, hc, he⟩
  simp only [horsEcran, NB_LIG, NB_COL] at *
  omega

/-- The last row copied is the one behind the screen. -/
theorem horsEcran_mem_defilement (e : Ecran) : horsEcran ∈ (defilement e).acces := by
  have hmove : horsEcran ∈ (memmove (ptrMem POSI_L_INIT 0) (ptrMem (POSI_L_INIT + 1) 0) ((NB_LIG - 1) * NB_COL * 2) e).acces := by
    refine List.mem_append_left _ (List.mem_append_right _ (List.mem_map.2 ⟨(NB_LIG - 2) * NB_COL, ?_, rfl⟩))
    exact List.mem_range.2 (by decide)
  unfold defilement
  dsimp only
  refine List.foldlRecOn (motive := fun e : Ecran => horsEcran ∈ e.acces) _ _ ?_ fun e h i _ => List.mem_cons_of_mem _ h
  split
  · exact hmove
  · exact hmove

theorem deborde_hors (hd : Deborde e c) : ¬SurEcran (traiteCar c e) := by
  obtain ⟨hl, rfl | ⟨h₁, h₂, hc⟩⟩ := hd
  · -- the access behind the screen
    intro h
    have hcorps : traiteCarCorps 10 e = { defilement e with cursColPos := POSI_C_INIT } := by
      rw [traiteCarCorps, if_neg (by decide), if_neg (by decide), if_neg (by decide), if_pos rfl, if_neg (by simp [hl])]
    have hmem : horsEcran ∈ (traiteCar 10 e).acces := by
      rw [traiteCar_eq, hcorps]
      exact horsEcran_mem_defilement e
    exact not_dansEcran_horsEcran (h.acces _ hmem)
  · -- the row behind the screen
    intro h
    have hlig : (traiteCar c e).cursLigPos = NB_LIG := by
      have hcol : succUint32 (ecritCar e.cursLigPos e.cursColPos c 15 0 0 e).cursColPos = NB_COL := by
        rw [ecritCar_cursColPos, hc]
        rfl
      have hlast : (ecritCar e.cursLigPos e.cursColPos c 15 0 0 e).cursLigPos ≠ NB_COL - 1 := by
        rw [ecritCar_cursLigPos, hl]
        decide
      rw [traiteCar_eq, traiteCarCorps, if_pos ⟨h₁, h₂⟩]
      dsimp only
      rw [if_pos hcol, if_pos hlast]
      show succUint32 e.cursLigPos = NB_LIG
      rw [hl]
      rfl
    exact absurd h.lig (by rw [hlig]; exact lt_irrefl _)

/-! ## Sequences of bytes -/

theorem consolePutbytes_concat : consolePutbytes (bs ++ [c]) e = traiteCar c (consolePutbytes bs e) := by
  simp [consolePutbytes]

theorem sousClock_boot (cellule : Nat → Nat) : SousClock (.boot cellule) :=
  ⟨⟨posi_lt.1, posi_lt.2, nofun⟩, le_rfl⟩

/-- The console stays where it should as long as no byte makes the screen scroll. -/
theorem consolePutbytes_sousClock {chaine : List Int}
    (hd : ∀ bs c, bs ++ [c] <+: chaine → ¬Deborde (consolePutbytes bs (.boot cellule)) c) (h : bs <+: chaine) :
    SousClock (consolePutbytes bs (.boot cellule)) := by
  induction bs using List.reverseRecOn with
  | nil => exact sousClock_boot cellule
  | append_singleton bs c ih =>
    rw [consolePutbytes_concat]
    exact (traiteCar_sure (ih ((List.prefix_append bs [c]).trans h)) (hd bs c h)).1

/-- The first byte that makes the screen scroll takes the console off the screen, and nothing else does. -/
theorem console_on_screen {chaine : List Int} :
    ConsoleSure cellule chaine ↔ ∀ bs c, bs ++ [c] <+: chaine → ¬Deborde (consolePutbytes bs (.boot cellule)) c := by
  constructor
  · intro h bs c hp hd
    refine deborde_hors hd ?_
    rw [← consolePutbytes_concat]
    exact (h _ hp).1
  · intro hd bs hp
    refine ⟨(consolePutbytes_sousClock hd hp).toSurEcran, fun c hc hne => ?_⟩
    rw [consolePutbytes_concat]
    exact (traiteCar_sure (consolePutbytes_sousClock hd hp) (hd bs c hc)).2 hne

/-- The 24th newline. -/
theorem console_on_screen_fails : ¬∀ cellule chaine, ConsoleSure cellule chaine := by
  intro h
  have hp := ((h (fun _ => 0) (List.replicate 24 10)) _ (List.prefix_rfl)).1
  rw [List.replicate_succ', consolePutbytes_concat] at hp
  exact deborde_hors ⟨rfl, .inl rfl⟩ hp

end Pcsea
