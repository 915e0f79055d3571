import Mathlib.Data.List.Basic
/-!
# Text on rows

`Page α w`: text laid out in rows of `w` places. A newline ends the row being
written, and so does the character that fills it. A screen of `h` rows shows
the last `h` rows of the page.
-/

namespace Lib

universe u
variable {α : Type u} {w h i j : Nat}

/-- The rows that have ended, oldest first, and the row being written. -/
structure Page (α : Type u) (w : Nat) where
  rows : List (List α)
  current : List α
  fits : current.length < w

variable {p : Page α w} {o : Option α} {t : List (Option α)} {c : α}

def Page.blank (hw : 0 < w) : Page α w := ⟨[], [], hw⟩

/-- A character, or a newline. -/
def Page.put (p : Page α w) : Option α → Page α w
  | none => ⟨p.rows ++ [p.current], [], Nat.zero_lt_of_lt p.fits⟩
  | some c =>
    if hw : (p.current ++ [c]).length < w then ⟨p.rows, p.current ++ [c], hw⟩
    else ⟨p.rows ++ [p.current ++ [c]], [], Nat.zero_lt_of_lt p.fits⟩

def Page.write (p : Page α w) (t : List (Option α)) : Page α w := t.foldl Page.put p

/-- The character in place `j` of row `i`. -/
def Page.get (p : Page α w) (i j : Nat) : Option α := ((p.rows ++ [p.current])[i]?).bind fun r => r[j]?

/-- The same on a screen of `h` rows. -/
def Page.cell (h : Nat) (p : Page α w) (i j : Nat) : Option α := p.get (p.rows.length + 1 - h + i) j

theorem Page.write_concat : p.write (t ++ [o]) = (p.write t).put o := by
  simp [Page.write]

/-- A page that is not longer than the screen is shown whole. -/
theorem Page.cell_eq_get (hp : p.rows.length < h) : p.cell h i j = p.get i j := by
  rw [Page.cell, Nat.sub_eq_zero_of_le hp, Nat.zero_add]

@[simp] theorem Page.get_blank (hw : 0 < w) : (Page.blank hw : Page α w).get i j = none := by
  cases i <;> simp [Page.blank, Page.get]

theorem getElem?_rows {R R' : List (List α)} {r : List α} (hR : R' = [] ∨ R' = [[]]) :
    ((R ++ r :: R')[i]?).bind (fun r => r[j]?) = if i = R.length then r[j]? else (R[i]?).bind fun r => r[j]? := by
  rcases Nat.lt_trichotomy i R.length with hi | rfl | hi
  · rw [List.getElem?_append_left hi, if_neg (Nat.ne_of_lt hi)]
  · simp
  · rw [if_neg (Nat.ne_of_gt hi), List.getElem?_append_right (Nat.le_of_lt hi), List.getElem?_eq_none (Nat.le_of_lt hi)]
    obtain ⟨k, hk⟩ : ∃ k, i - R.length = k + 1 := ⟨i - R.length - 1, by omega⟩
    rw [hk, List.getElem?_cons_succ]
    rcases hR with rfl | rfl
    · rfl
    · cases k <;> simp

/-- A newline leaves every character where it is. -/
theorem Page.get_newline : (p.put none).get i j = p.get i j := by
  simp only [Page.put, Page.get, List.append_assoc, List.singleton_append]
  rw [getElem?_rows (.inr rfl), getElem?_rows (.inl rfl)]

/-- A character goes to the place behind the last one. -/
theorem Page.get_put : (p.put (some c)).get i j = if i = p.rows.length ∧ j = p.current.length then some c else p.get i j := by
  have hget : (p.put (some c)).get i j = if i = p.rows.length then (p.current ++ [c])[j]? else (p.rows[i]?).bind fun r => r[j]? := by
    rw [Page.put]
    split
    · exact getElem?_rows (.inl rfl)
    · simp only [Page.get, List.append_assoc, List.singleton_append]
      exact getElem?_rows (.inr rfl)
  rw [hget, Page.get, getElem?_rows (.inl rfl)]
  by_cases hi : i = p.rows.length
  · rw [if_pos hi, if_pos hi]
    by_cases hj : j = p.current.length
    · simp [hi, hj]
    · rw [if_neg fun hc => hj hc.2, List.getElem?_append]
      split
      · rfl
      · rw [List.getElem?_eq_none (l := p.current) (by omega), List.getElem?_eq_none]
        simp
        omega
  · rw [if_neg hi, if_neg hi, if_neg fun hc => hi hc.1]

theorem Page.rows_newline : (p.put none).rows.length = p.rows.length + 1 := by
  simp [Page.put]

theorem Page.rows_put : (p.put (some c)).rows.length =
    if p.current.length + 1 = w then p.rows.length + 1 else p.rows.length := by
  have hf := p.fits
  rw [Page.put]
  split
  · next hw =>
    rw [List.length_append, List.length_singleton] at hw
    rw [if_neg (by omega)]
  · next hw =>
    rw [List.length_append, List.length_singleton] at hw
    rw [if_pos (by omega)]
    simp

theorem Page.current_put : (p.put (some c)).current.length =
    if p.current.length + 1 = w then 0 else p.current.length + 1 := by
  have hf := p.fits
  rw [Page.put]
  split
  · next hw =>
    rw [List.length_append, List.length_singleton] at hw
    rw [if_neg (by omega)]
    simp
  · next hw =>
    rw [List.length_append, List.length_singleton] at hw
    rw [if_pos (by omega)]
    rfl

theorem Page.rows_le_put : p.rows.length ≤ (p.put o).rows.length ∧ (p.put o).rows.length ≤ p.rows.length + 1 := by
  cases o with
  | none => simp [Page.rows_newline]
  | some c =>
    rw [Page.rows_put]
    split <;> simp

theorem Page.rows_le_write (p : Page α w) (t : List (Option α)) : p.rows.length ≤ (p.write t).rows.length := by
  induction t generalizing p with
  | nil => exact Nat.le_refl _
  | cons o t ih => exact Nat.le_trans Page.rows_le_put.1 (ih (p.put o))

end Lib
