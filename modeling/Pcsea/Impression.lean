import Pcsea.Doprnt
import Pcsea.Terminal
/-!
# `sprintf.c`, `printf.c`: where the formatted characters go

`sprintf` stores them in memory. `printf` keeps them in a buffer of 128
characters, and hands it to `console_putbytes` when it is full, at a newline
and at the end.
-/

namespace Pcsea

open Lib

variable {m : Memoire} {s n size max len : Nat} {fmt l buf : List Int} {args r : List Argument} {c : Int} {e : Ecran}

/-! ## `sprintf.c` -/

structure SprintfState where
  buf : Nat
  len : Nat
  max : Nat

def SPRINTF_UNLIMITED : Nat := 0xFFFFFFF

def savechar (c : Int) (m : Memoire) (state : SprintfState) : Except Fault (Memoire × SprintfState) :=
  if state.max ≠ SPRINTF_UNLIMITED ∧ state.len = state.max then .ok (m, state)
  else do
    let m ← ecrire m state.buf (toChar c)
    .ok (m, { state with len := succUint32 state.len, buf := state.buf + 1 })

def savechars : List Int → Memoire → SprintfState → Except Fault (Memoire × SprintfState)
  | [], m, state => .ok (m, state)
  | c :: l, m, state => do
    let (m, state) ← savechar c m state
    savechars l m state

/-- What `vsprintf` and `vsnprintf` do, `max` apart. -/
def formateDans (s max : Nat) (fmt : List Int) (args : List Argument) (m : Memoire) : Except Fault (Int × Memoire) := do
  let (l, _) ← doprnt fmt args 0
  let (m, state) ← savechars l m ⟨s, 0, max⟩
  let m ← ecrire m state.buf 0
  .ok (toInt32 state.len, m)

def vsprintf (s : Nat) (fmt : List Int) (args : List Argument) (m : Memoire) : Except Fault (Int × Memoire) :=
  formateDans s SPRINTF_UNLIMITED fmt args m

def vsnprintf (s size : Nat) (fmt : List Int) (args : List Argument) (m : Memoire) : Except Fault (Int × Memoire) :=
  formateDans s size fmt args m

/-! ## `printf.c` -/

def PRINTF_BUFMAX : Nat := 128

/-- The calls of `console_putbytes`, and the `index` first characters of the buffer. -/
def printfChar (c : Int) (buf : List Int) : List (List Int) × List Int :=
  if c = 0 ∨ c = 10 ∨ PRINTF_BUFMAX ≤ buf.length then ([buf, [toChar c]], []) else ([], buf ++ [toChar c])

def printfChars : List Int → List Int → List (List Int) × List Int
  | [], buf => ([], buf)
  | c :: l, buf =>
    let (appels, buf) := printfChar c buf
    let (appels', buf) := printfChars l buf
    (appels ++ appels', buf)

/-- The calls of `console_putbytes` for the characters `l`. -/
def appelsPrintf (l : List Int) : List (List Int) :=
  let (appels, buf) := printfChars l []
  if buf.length ≠ 0 then appels ++ [buf] else appels

def vprintf (fmt : List Int) (args : List Argument) (e : Ecran) : Except Fault Ecran := do
  let (l, _) ← doprnt fmt args 0
  .ok (consoleAppels (appelsPrintf l) e)

/-! ## What is stored -/

/-- What `savechar` keeps of the characters it is given, when `len` are there. -/
def garde (max len : Nat) (l : List Int) : List Int := if max = SPRINTF_UNLIMITED then l else l.take (max - len)

theorem garde_nil : garde max len [] = [] := by simp [garde]

theorem garde_plein (h : max ≠ SPRINTF_UNLIMITED ∧ len = max) : garde max len l = [] := by simp [garde, h]

theorem garde_cons (h : ¬(max ≠ SPRINTF_UNLIMITED ∧ len = max)) (hl : len ≤ max ∨ max = SPRINTF_UNLIMITED) :
    garde max len (c :: l) = c :: garde max (len + 1) l := by
  unfold garde
  by_cases hm : max = SPRINTF_UNLIMITED
  · rw [if_pos hm, if_pos hm]
  · rw [if_neg hm, if_neg hm, show max - len = max - (len + 1) + 1 by omega, List.take_succ_cons]

/-- The characters kept are stored, if there are cells for them. -/
theorem savechars_spec (hm : Mapped m s n) (hfin : m (s + n) = none) (hn : len + n < 2 ^ 32)
    (hl : len ≤ max ∨ max = SPRINTF_UNLIMITED) :
    savechars l m ⟨s, len, max⟩ =
      if (garde max len l).length ≤ n then
        .ok (writeAt m s ((garde max len l).map toChar),
          ⟨s + (garde max len l).length, len + (garde max len l).length, max⟩)
      else .error .outOfBounds := by
  induction l generalizing m s len n with
  | nil => simp [savechars, garde_nil]
  | cons c l ih =>
    rw [savechars, savechar]
    -- The count is full and nothing more is stored, or the cell is written.
    by_cases hp : max ≠ SPRINTF_UNLIMITED ∧ len = max
    · rw [if_pos hp, ok_bind]
      dsimp only
      rw [ih hm hfin hn hl, garde_plein hp, garde_plein hp]
    · rw [if_neg hp, garde_cons hp hl]
      cases n with
      | zero =>
        rw [ecrire_faute (p := s) hfin]
        simp
      | succ n =>
        obtain ⟨h₀, hm⟩ := mapped_succ.1 hm
        have hm' : Mapped (Function.update m s (some (toChar c))) (s + 1) n := fun i hi => by
          rw [Function.update_of_ne (by omega)]
          exact hm i hi
        have hfin' : Function.update m s (some (toChar c)) (s + 1 + n) = none := by
          rw [Function.update_of_ne (by omega), Nat.add_assoc, Nat.add_comm 1]
          exact hfin
        have hsucc : succUint32 len = len + 1 := Nat.mod_eq_of_lt (by omega)
        rw [ecrire_eq h₀, ok_bind, ok_bind]
        dsimp only
        rw [hsucc, ih hm' hfin' (by omega) (by omega)]
        simp only [List.length_cons, List.map_cons, writeAt_cons, Nat.add_le_add_iff_right, Nat.add_assoc, Nat.add_comm 1]

/-- In a buffer of `n` characters, `vsprintf` and `vsnprintf` store the characters they keep and the terminator, and return their
number, if there are less than `n` of them; else they write past the end. A limit of `n` lets `n` of them through. -/
theorem formateDans_spec (hm : Mapped m s n) (hfin : m (s + n) = none) (hn : n < 2 ^ 32) (ho : doprnt fmt args 0 = .ok (l, r)) :
    formateDans s max fmt args m =
      if (garde max 0 l).length < n then
        .ok (toInt32 (garde max 0 l).length, writeAt m s ((garde max 0 l).map toChar ++ [0]))
      else .error .outOfBounds := by
  rw [formateDans, ho, ok_bind]
  dsimp only
  rw [savechars_spec hm hfin (by omega) (.inl (Nat.zero_le _))]
  generalize garde max 0 l = t
  split
  · rw [ok_bind]
    dsimp only
    split
    · next hlt =>
      rw [ecrire_eq (isSome_writeAt (hm _ hlt)), ok_bind, writeAt_append, List.length_map, Nat.zero_add]
      rfl
    · have ht : t.length = n := by omega
      rw [ecrire_faute, error_bind]
      rw [writeAt_of_not_mem (by simp), ht, hfin]
  · rw [if_neg (by omega), error_bind]

theorem garde_length (h : size ≠ SPRINTF_UNLIMITED) : (garde size 0 l).length = min size l.length := by
  rw [garde, if_neg h, Nat.sub_zero, List.length_take]

theorem toInt32_ofNat (h : n < 2 ^ 31) : toInt32 n = n := if_pos h

/-- `vsnprintf` in a buffer of `n` characters: it stores what `_doprnt` puts, cut to `size` characters, with a terminator, and touches
nothing else; but the terminator comes on top of `size`, and a buffer of `size` characters is left when the text is that long. -/
theorem vsnprintf_tampon (hm : Mapped m s n) (hfin : m (s + n) = none) (hn : n < 2 ^ 31) (hs : size ≠ SPRINTF_UNLIMITED)
    (ho : doprnt fmt args 0 = .ok (l, r)) :
    (min size l.length < n → ∃ m', vsnprintf s size fmt args m = .ok ((min size l.length : Nat), m') ∧
      StandsAt m' s ((l.take size).map toChar ++ [0]) ∧ ∀ a, a < s ∨ s + min size l.length < a → m' a = m a) ∧
    (n ≤ min size l.length → vsnprintf s size fmt args m = .error .outOfBounds) := by
  rw [vsnprintf, formateDans_spec hm hfin (by omega) ho, garde_length hs]
  constructor
  · intro hlt
    refine ⟨_, by rw [if_pos hlt, toInt32_ofNat (by omega)], ?_, fun a ha => writeAt_of_not_mem ?_⟩
    · rw [garde, if_neg hs]
      exact standsAt_writeAt
    · rw [List.length_append, List.length_map, garde_length hs, List.length_singleton]
      omega
  · intro hle
    exact if_neg (by omega)

/-- A number of five digits in a buffer of four characters. -/
theorem vsnprintf_tampon_quatre : let m : Memoire := fun a => if a < 4 then some 0 else none
    (min 4 5 < 4 → ∃ m', vsnprintf 0 4 [37, 100] [.nombre 12345] m = .ok ((min 4 5 : Nat), m') ∧
      StandsAt m' 0 (([49, 50, 51, 52, 53].take 4).map toChar ++ [0]) ∧ ∀ a, a < 0 ∨ 0 + min 4 5 < a → m' a = m a) ∧
    (4 ≤ min 4 5 → vsnprintf 0 4 [37, 100] [.nombre 12345] m = .error .outOfBounds) :=
  vsnprintf_tampon (n := 4) (l := [49, 50, 51, 52, 53]) (r := []) (by unfold Mapped; decide) rfl (by decide) (by decide) rfl

/-! ## What is printed -/

/-- The buffer goes out, and the character on its own after it. -/
theorem printfChars_flush (h : c = 0 ∨ c = 10 ∨ PRINTF_BUFMAX ≤ buf.length) :
    printfChars (c :: l) buf = (buf :: [toChar c] :: (printfChars l []).1, (printfChars l []).2) := by
  rw [printfChars, printfChar, if_pos h]
  rfl

theorem printfChars_garde (h : ¬(c = 0 ∨ c = 10 ∨ PRINTF_BUFMAX ≤ buf.length)) :
    printfChars (c :: l) buf = printfChars l (buf ++ [toChar c]) := by
  rw [printfChars, printfChar, if_neg h]
  rfl

theorem printfChars_spec (hb : buf.length ≤ PRINTF_BUFMAX) :
    (printfChars l buf).1.flatten ++ (printfChars l buf).2 = buf ++ l.map toChar ∧
      (∀ t ∈ (printfChars l buf).1, t.length ≤ PRINTF_BUFMAX) ∧ (printfChars l buf).2.length ≤ PRINTF_BUFMAX := by
  induction l generalizing buf with
  | nil => exact ⟨by simp [printfChars], by simp [printfChars], hb⟩
  | cons c l ih =>
    by_cases hc : c = 0 ∨ c = 10 ∨ PRINTF_BUFMAX ≤ buf.length
    · obtain ⟨h₁, h₂, h₃⟩ := @ih [] (Nat.zero_le _)
      rw [printfChars_flush hc]
      refine ⟨by simpa using h₁, fun t ht => ?_, h₃⟩
      rcases List.mem_cons.1 ht with rfl | ht
      · exact hb
      rcases List.mem_cons.1 ht with rfl | ht
      · show 1 ≤ PRINTF_BUFMAX
        decide
      · exact h₂ t ht
    · have hlt : (buf ++ [toChar c]).length ≤ PRINTF_BUFMAX := by
        rw [List.length_append, List.length_singleton]
        omega
      obtain ⟨h₁, h₂, h₃⟩ := ih hlt
      rw [printfChars_garde hc]
      exact ⟨by simpa using h₁, h₂, h₃⟩

/-- The calls hand over the characters in order, and none has more of them than the buffer. -/
theorem appelsPrintf_spec : (appelsPrintf l).flatten = l.map toChar ∧ ∀ t ∈ appelsPrintf l, t.length ≤ PRINTF_BUFMAX := by
  obtain ⟨h₁, h₂, h₃⟩ := printfChars_spec (l := l) (List.length_nil.trans_le (Nat.zero_le PRINTF_BUFMAX))
  rw [List.nil_append] at h₁
  unfold appelsPrintf
  dsimp only
  split
  · refine ⟨by simpa using h₁, fun t ht => ?_⟩
    rcases List.mem_append.1 ht with ht | ht
    · exact h₂ t ht
    · rwa [List.mem_singleton.1 ht]
  · next h0 =>
    rw [List.length_eq_zero_iff.1 (not_not.1 h0), List.append_nil] at h₁
    exact ⟨h₁, h₂⟩

/-- The console gets what `_doprnt` puts, as by one call. -/
theorem vprintf_eq : vprintf fmt args e = (doprnt fmt args 0).map fun o => consolePutbytes (o.1.map toChar) e := by
  rw [vprintf]
  cases doprnt fmt args 0 with
  | error x => rfl
  | ok o =>
    rw [ok_bind]
    dsimp only
    rw [consoleAppels_flatten, appelsPrintf_spec.1]
    rfl

end Pcsea
