import Pcsea.Clavier
import Pcsea.Lib.BitField
import Mathlib.Data.Nat.Count
/-!
# What the keyboard driver keeps

`cadre` is what no handler changes and `tenu` what only the modifiers and the
locks change. From the first, the driver works key by key: what it does with
bytes is what `evenement` does with the keys they decode to.
-/

namespace Pcsea

open Lib

namespace Clavier

variable {T : Keymap} {s s' : Clavier} {k v n type value scancode prev : Nat} {up raw : Bool}

/-- What only the keys that hold or lock something change. -/
def tenu (s : Clavier) : Clavier :=
  { s with
    deadKeyNext := false, npadch := none, diacr := 0, ledflagstate := 0, stopped := false, ledstate := 0, sortie := [], leds := [] }

/-- What no key changes. -/
def cadre (s : Clavier) : Clavier := { s.tenu with kDown := fun _ => 0, shiftState := 0, lockstate := 0, slockstate := 0 }

theorem cadre_of_tenu (h : s'.tenu = s.tenu) : s'.cadre = s.cadre := by
  unfold cadre
  rw [h]

@[simp] theorem keyboardData_tenu (str : List Nat) : (keyboardData str s).tenu = s.tenu := rfl

@[simp] theorem putQueue_tenu (c : Nat) : (putQueue c s).tenu = s.tenu := rfl

@[simp] theorem applkey_tenu (c : Nat) (mode : Bool) : (applkey c mode s).tenu = s.tenu := rfl

@[simp] theorem toUtf8_tenu (c : Nat) : (toUtf8 c s).tenu = s.tenu := by
  unfold toUtf8
  split
  · rfl
  split <;> rfl

@[simp] theorem videNpadch_tenu : (videNpadch s).tenu = s.tenu := by
  unfold videNpadch
  cases s.npadch with
  | none => rfl
  | some n =>
    dsimp only
    split
    · exact toUtf8_tenu (s := s) (n % 0x10000)
    · rfl

@[simp] theorem handleDiacr_tenu (c : Nat) : (handleDiacr T c s).2.tenu = s.tenu := by
  unfold handleDiacr
  dsimp only
  split
  · rfl
  split <;> rfl

theorem doSelf_tenu : (doSelf T value up s).tenu = s.tenu := by
  unfold doSelf
  split
  · rfl
  by_cases hd : s.diacr ≠ 0
  · rw [if_pos hd]
    dsimp only
    split
    · exact handleDiacr_tenu (T := T) value
    · rw [putQueue_tenu, handleDiacr_tenu]
  · rw [if_neg hd]
    dsimp only
    split <;> rfl

theorem doDead2_tenu : (doDead2 T value up s).tenu = s.tenu := by
  unfold doDead2
  split
  · rfl
  by_cases hd : s.diacr ≠ 0
  · rw [if_pos hd]
    exact handleDiacr_tenu (T := T) value
  · rw [if_neg hd]
    rfl

theorem doFn_tenu : (doFn T value up s).tenu = s.tenu := by
  unfold doFn
  split
  · rfl
  split <;> rfl

theorem doMeta_tenu : (doMeta value up s).tenu = s.tenu := by
  unfold doMeta
  split
  · rfl
  split <;> rfl

/-! ## One handler at a time -/

theorem lisConstante_ok {str : List Nat} {i : Nat} (h : i ≤ str.length) : lisConstante str i = .ok (str.getD i 0) := if_pos h

theorem doCur_tenu (h : value ≤ 4) : ∃ s', doCur value up s = .ok s' ∧ s'.tenu = s.tenu := by
  unfold doCur
  split
  · exact ⟨s, rfl, rfl⟩
  · rw [lisConstante_ok h, ok_bind]
    exact ⟨_, rfl, rfl⟩

theorem curseurPad_tenu {r : Except Fault Clavier} (h : curseurPad T value s = some r) : ∃ s', r = .ok s' ∧ s'.tenu = s.tenu := by
  unfold curseurPad at h
  split at h <;> cases h
  all_goals first
    | exact ⟨_, rfl, doFn_tenu⟩
    | exact doCur_tenu (by decide)
    | exact ⟨_, rfl, rfl⟩

theorem doPad_tenu (h : value ≤ 20) : ∃ s', doPad T value up s = .ok s' ∧ s'.tenu = s.tenu := by
  unfold doPad
  split
  · exact ⟨s, rfl, rfl⟩
  split
  · rw [lisConstante_ok h, ok_bind]
    exact ⟨_, rfl, rfl⟩
  split
  · next hr =>
    split at hr
    · cases hr
    · exact curseurPad_tenu hr
  · rw [lisConstante_ok h, ok_bind]
    dsimp only
    split <;> exact ⟨_, rfl, rfl⟩

theorem doDead_tenu (h : value < 6) : ∃ s', doDead T value up s = .ok s' ∧ s'.tenu = s.tenu := by
  unfold doDead
  rw [List.getElem?_eq_getElem (show value < retDiacr.length from h)]
  exact ⟨_, rfl, doDead2_tenu⟩

theorem enter_tenu : (enter s).tenu = s.tenu := by
  unfold enter
  dsimp only
  split <;> split <;> rfl

/-- `do_null` apart, the special keys leave the modifiers alone. -/
theorem doSpec_tenu (h : value ≠ 0) : ∃ s', doSpec T value up s = .ok s' ∧ s'.tenu = s.tenu := by
  unfold doSpec
  split
  · exact ⟨s, rfl, rfl⟩
  split
  · exact ⟨s, rfl, rfl⟩
  unfold specFn
  split
  · exact absurd rfl h
  · exact ⟨_, rfl, enter_tenu⟩
  · refine ⟨_, rfl, ?_⟩
    unfold capsToggle
    split <;> rfl
  · refine ⟨_, rfl, ?_⟩
    unfold num bareNum
    split
    · rfl
    split <;> rfl
  · refine ⟨_, rfl, ?_⟩
    unfold hold
    split <;> rfl
  · refine ⟨_, rfl, ?_⟩
    unfold capsOn
    split <;> rfl
  · exact ⟨_, rfl, rfl⟩
  · refine ⟨_, rfl, ?_⟩
    unfold bareNum
    split <;> rfl
  · exact ⟨s, rfl, rfl⟩

/-- One more digit does not fit in the `int` where the number is put together. -/
def DebordeAscii (value : Nat) (up : Bool) (s : Clavier) : Prop :=
  up = false ∧ ∃ n ∈ s.npadch, 2 ^ 31 ≤ n * (chiffreAscii value).1 + (chiffreAscii value).2

theorem doAscii_deborde (h : DebordeAscii value up s) : doAscii value up s = .error .intOverflow := by
  obtain ⟨rfl, n, hn, h⟩ := h
  unfold doAscii
  rw [if_neg Bool.false_ne_true, Option.mem_def.1 hn]
  exact if_neg (Nat.not_lt.2 h)

theorem doAscii_tenu (h : ¬ DebordeAscii value up s) : ∃ s', doAscii value up s = .ok s' ∧ s'.tenu = s.tenu := by
  unfold doAscii
  split
  · exact ⟨s, rfl, rfl⟩
  · next hup =>
    dsimp only
    split
    · exact ⟨_, rfl, rfl⟩
    · next n hn =>
      rw [if_pos (Nat.lt_of_not_le fun hle => h ⟨by simpa using hup, n, hn, hle⟩)]
      exact ⟨_, rfl, rfl⟩

/-- A key whose handler does not read beyond its table, and that does not lock a modifier. -/
def legal (type value : Nat) : Bool :=
  match type with
  | 3 => value ≤ 20
  | 4 => value < 6
  | 6 => value ≤ 4
  | 7 => value < 8
  | 10 | 12 => false
  | _ => true

theorem keyHandler_tenu (hl : legal type value = true) (h₇ : type ≠ 7) (h₂ : ¬(type = 2 ∧ value = 0))
    (h₉ : ¬(type = 9 ∧ DebordeAscii value up s)) : ∃ s', keyHandler T type value up s = .ok s' ∧ s'.tenu = s.tenu := by
  unfold keyHandler
  split
  · exact ⟨_, rfl, doSelf_tenu⟩
  · exact ⟨_, rfl, doFn_tenu⟩
  · exact doSpec_tenu fun hv => h₂ ⟨rfl, hv⟩
  · exact doPad_tenu (by simpa [legal] using hl)
  · exact doDead_tenu (by simpa [legal] using hl)
  · exact doCur_tenu (by simpa [legal] using hl)
  · exact absurd rfl h₇
  · exact ⟨_, rfl, doMeta_tenu⟩
  · exact doAscii_tenu fun hd => h₉ ⟨rfl, hd⟩
  · cases hl
  · cases hl
  · exact ⟨_, rfl, doDead2_tenu⟩
  · exact ⟨s, rfl, rfl⟩

/-! ## The modifiers -/

/-- The modifier that a key is. -/
def modifieur (keysym : Nat) : Option Nat := if keysym / 256 = 0xf7 then some (keysym % 256) else none

def modDe (T : Keymap) (k : Nat) : Option Nat := (T.keyMaps 0).bind fun m => modifieur (m k)

/-- A keymap that its handlers can follow, where a key is the same modifier under any modifiers. -/
structure Reguliere (T : Keymap) : Prop where
  plain : (T.keyMaps 0).isSome
  sens : ∀ i m k, T.keyMaps i = some m → legal (m k / 256 - 0xf0) (m k % 256) = true
  mods : ∀ i m k, T.keyMaps i = some m → modifieur (m k) = modDe T k

theorem Reguliere.lt (hT : Reguliere T) (h : modDe T k = some v) : v < 8 := by
  obtain ⟨m, hm, hv⟩ := Option.bind_eq_some_iff.1 h
  have hl := hT.sens 0 m k hm
  unfold modifieur at hv
  split at hv
  · next h₇ =>
    rw [h₇] at hl
    rw [← Option.some.inj hv]
    simpa [legal] using hl
  · cases hv

/-- How many of the keys that are down are the modifier `v`. -/
def compte (T : Keymap) (d : Nat → Bool) (v n : Nat) : Nat := Nat.count (fun k => d k = true ∧ modDe T k = some v) n

theorem compte_succ (d : Nat → Bool) :
    compte T d v (n + 1) = compte T d v n + if d n = true ∧ modDe T n = some v then 1 else 0 := Nat.count_succ _ n

/-- Keys from 128 on do not exist. -/
theorem compte_le {d : Nat → Bool} (h : ∀ k, d k = true → k < 128) : compte T d v n ≤ 128 := by
  have hle : ∀ n, compte T d v n ≤ min n 128 := by
    intro n
    induction n with
    | zero => exact (Nat.count_zero _).le
    | succ n ih =>
      rw [compte_succ]
      split
      · next hd =>
        have := h n hd.1
        omega
      · omega
  exact (hle n).trans (Nat.min_le_right n 128)

theorem compte_muette {d : Nat → Bool} {b : Bool} (h : modDe T k ≠ some v) :
    compte T (Function.update d k b) v n = compte T d v n := by
  unfold compte
  congr 1
  funext i
  by_cases hi : i = k
  · subst hi
    simp [h]
  · rw [Function.update_of_ne hi]

theorem compte_presse {d : Nat → Bool} (h : modDe T k = some v) (hd : d k = false) :
    compte T (Function.update d k true) v n = compte T d v n + if k < n then 1 else 0 := by
  induction n with
  | zero => rfl
  | succ n ih =>
    rw [compte_succ, compte_succ, ih]
    by_cases hn : n = k
    · subst hn
      simp [hd, h]
    · rw [Function.update_of_ne hn]
      split <;> split <;> split <;> omega

theorem compte_relache {d : Nat → Bool} (h : modDe T k = some v) (hd : d k = true) (hk : k < n) :
    compte T (Function.update d k false) v n + 1 = compte T d v n := by
  have hp := compte_presse (n := n) h (Function.update_self k false d)
  rw [Function.update_idem, if_pos hk, ← hd, Function.update_eq_self] at hp
  exact hp.symm

theorem ktyp_eq {x t : Nat} : (x ^^^ 0xf000) / 256 = t ↔ x / 256 = t ^^^ 0xf0 := by
  have h : (x ^^^ 0xf000) / 256 = x / 256 ^^^ 0xf0 := Nat.xor_div_two_pow (n := 8)
  rw [h]
  constructor
  · intro ht
    rw [← ht, Nat.xor_xor_cancel_right]
  · intro ht
    rw [ht, Nat.xor_xor_cancel_right]

theorem kval_eq {x : Nat} : (x ^^^ 0xf000) % 256 = x % 256 := by
  have h : (x ^^^ 0xf000) % 256 = x % 256 ^^^ 0 := Nat.xor_mod_two_pow (n := 8)
  rw [h, Nat.xor_zero]

theorem compteTouche_some (hT : Reguliere T) (hd : s.keyDown k = true) (h : modDe T k = some v) :
    compteTouche T s k = .ok { s with
      kDown := Function.update s.kDown v ((s.kDown v + 1) % 256), shiftState := s.shiftState ||| 1 <<< v } := by
  have hv := hT.lt h
  obtain ⟨m, hm⟩ := Option.isSome_iff_exists.1 hT.plain
  rw [← hT.mods 0 m k hm] at h
  unfold modifieur at h
  split at h
  · next h₇ =>
    obtain rfl := Option.some.inj h
    have h₈ : m k % 256 ≠ KG_CAPSSHIFT := fun he => by
      rw [he] at hv
      exact absurd hv (by decide)
    rw [compteTouche, if_pos hd, hm, deref_some, ok_bind]
    dsimp only
    rw [kval_eq, if_pos (.inl (ktyp_eq.2 h₇)), if_neg h₈, if_pos (hv.trans (by decide))]
  · cases h

theorem compteTouche_none (hT : Reguliere T) (h : s.keyDown k = true → modDe T k = none) : compteTouche T s k = .ok s := by
  unfold compteTouche
  split
  · next hd =>
    obtain ⟨m, hm⟩ := Option.isSome_iff_exists.1 hT.plain
    have hmod := hT.mods 0 m k hm
    rw [h hd] at hmod
    have hl := hT.sens 0 m k hm
    rw [hm, deref_some, ok_bind]
    dsimp only
    rw [if_neg]
    rintro (h₇ | h₁₂)
    · have h₇ : m k / 256 = 0xf7 := ktyp_eq.1 h₇
      rw [modifieur, if_pos h₇] at hmod
      cases hmod
    · have h₁₂ : m k / 256 = 0xfc := ktyp_eq.1 h₁₂
      rw [h₁₂] at hl
      cases hl
  · rfl

theorem computeShiftstate_fold (hT : Reguliere T) (hd : ∀ k, s.keyDown k = true → k < 128) (n : Nat) :
    ∃ st, (List.range n).foldlM (compteTouche T) { s with shiftState := 0, kDown := fun _ => 0 } =
        .ok { s with kDown := fun v => compte T s.keyDown v n, shiftState := st } ∧
      ∀ v, st.testBit v = decide (compte T s.keyDown v n ≠ 0) := by
  induction n with
  | zero => exact ⟨0, rfl, fun v => by simp [compte]⟩
  | succ n ih =>
    obtain ⟨st, hf, hst⟩ := ih
    rw [List.range_succ, List.foldlM_append, hf, ok_bind, List.foldlM_cons]
    -- The key is down and a modifier, or it is passed over.
    by_cases h : s.keyDown n = true ∧ (modDe T n).isSome
    · obtain ⟨hn, hw⟩ := h
      obtain ⟨w, hw⟩ := Option.isSome_iff_exists.1 hw
      have hc : ∀ v, compte T s.keyDown v (n + 1) = compte T s.keyDown v n + if v = w then 1 else 0 := by
        intro v
        rw [compte_succ, hw]
        simp [hn, eq_comm]
      have hstep := compteTouche_some (s := { s with kDown := fun v => compte T s.keyDown v n, shiftState := st }) hT hn hw
      rw [hstep, ok_bind]
      refine ⟨st ||| 1 <<< w, ?_, fun v => ?_⟩
      · have hk : Function.update (fun v => compte T s.keyDown v n) w ((compte T s.keyDown w n + 1) % 256) =
            fun v => compte T s.keyDown v (n + 1) := by
          funext v
          rw [hc]
          by_cases hv : v = w
          · subst hv
            have hle := compte_le (T := T) (v := v) (n := n) hd
            rw [Function.update_self, if_pos rfl, Nat.mod_eq_of_lt (by omega)]
          · rw [Function.update_of_ne hv, if_neg hv, Nat.add_zero]
        show Except.ok _ = _
        rw [hk]
      · rw [testBit_set, hst, hc]
        by_cases hv : v = w
        · simp [hv]
        · simp [hv, Ne.symm hv]
    · have hstep := compteTouche_none (s := { s with kDown := fun v => compte T s.keyDown v n, shiftState := st }) (k := n) hT
        fun hn => Option.not_isSome_iff_eq_none.1 fun hs => h ⟨hn, hs⟩
      rw [hstep, ok_bind]
      have hc : ∀ v, compte T s.keyDown v (n + 1) = compte T s.keyDown v n := by
        intro v
        rw [compte_succ, if_neg, Nat.add_zero]
        exact fun hn => h ⟨hn.1, Option.isSome_iff_exists.2 ⟨v, hn.2⟩⟩
      refine ⟨st, ?_, fun v => ?_⟩
      · simp only [hc]
        rfl
      · rw [hc]
        exact hst v

/-- A modifier goes up or down. -/
def bascule (v n : Nat) (s : Clavier) : Clavier :=
  { s with
    kDown := Function.update s.kDown v n
    shiftState := if n ≠ 0 then s.shiftState ||| 1 <<< v else s.shiftState &&& (0xffffffff ^^^ 1 <<< v) }

theorem doShift_rep (h : s.rep = true) : doShift v up s = .ok s := if_pos h

theorem doShift_eq (up : Bool) (h : s.rep = false) (hv : v < 8) : doShift v up s =
    .ok (if up = true ∧ (bascule v (if up then s.kDown v - 1 else (s.kDown v + 1) % 256) s).shiftState ≠ s.shiftState then
        videNpadch (bascule v (if up then s.kDown v - 1 else (s.kDown v + 1) % 256) s)
      else bascule v (if up then s.kDown v - 1 else (s.kDown v + 1) % 256) s) := by
  have h₈ : ¬ v = KG_CAPSSHIFT := fun he => by
    rw [he] at hv
    exact absurd hv (by decide)
  unfold doShift
  rw [if_neg (by simp [h])]
  dsimp only
  rw [if_neg h₈]
  dsimp only
  rw [if_neg (Nat.not_le.2 (hv.trans (by decide)))]
  rfl

theorem doShift_tenu (up : Bool) (h : s.rep = false) (hv : v < 8) : ∃ s', doShift v up s = .ok s' ∧
    s'.tenu = (bascule v (if up then s.kDown v - 1 else (s.kDown v + 1) % 256) s).tenu := by
  refine ⟨_, doShift_eq up h hv, ?_⟩
  rw [apply_ite Clavier.tenu, videNpadch_tenu, ite_self]

/-! ## What a key does -/

/-- The key is a digit typed with Alt held, one too many. -/
def PaveDeborde (T : Keymap) (k : Nat) (up : Bool) (s : Clavier) : Prop :=
  ∃ m, T.keyMaps s.shiftState = some m ∧ m k / 256 = 0xf9 ∧ DebordeAscii (m k % 256) up s

/-- Nothing is locked, and there are eight modifiers and 128 keys. -/
structure Borne (s : Clavier) : Prop where
  touches : ∀ k, s.keyDown k = true → k < 128
  shift : s.shiftState < 256
  lock : s.lockstate = 0
  slock : s.slockstate = 0

/-- Apart from a modifier itself, a key leaves the modifiers alone, or they are counted afresh. -/
def Agi (T : Keymap) (k : Nat) (up : Bool) (s s' : Clavier) : Prop :=
  modDe T k = none ∧ s'.tenu = s.tenu ∨ computeShiftstate T s = .ok s' ∨ ∃ v, modDe T k = some v ∧ doShift v up s = .ok s'

theorem computeShiftstate_returns (hT : Reguliere T) (hs : Borne s) : ∃ s', computeShiftstate T s = .ok s' := by
  obtain ⟨st, hc, -⟩ := computeShiftstate_fold hT hs.touches NR_KEYS
  exact ⟨_, hc⟩

theorem doShift_returns (hv : v < 8) : ∃ s', doShift v up s = .ok s' := by
  cases hr : s.rep with
  | true => exact ⟨s, doShift_rep hr⟩
  | false =>
    obtain ⟨s', h, -⟩ := doShift_tenu up hr hv
    exact ⟨s', h⟩

/-- The handler that a key has in some keymap. -/
theorem handler_cases (up : Bool) (hT : Reguliere T) (hs : Borne s) {i : Nat} {m : Nat → Nat} (hm : T.keyMaps i = some m)
    (hf : 0xf0 ≤ m k / 256) :
    (m k / 256 = 0xf9 ∧ DebordeAscii (m k % 256) up s) ∧
      keyHandler T (m k / 256 - 0xf0) (m k % 256) up s = .error .intOverflow ∨
    ¬(m k / 256 = 0xf9 ∧ DebordeAscii (m k % 256) up s) ∧
      ∃ s', keyHandler T (m k / 256 - 0xf0) (m k % 256) up s = .ok s' ∧ Agi T k up s s' := by
  have hmod := hT.mods i m k hm
  have hl := hT.sens i m k hm
  -- A modifier, then the recomputation at Enter, then the digits with Alt; all other handlers leave the modifiers alone.
  by_cases h₇ : m k / 256 - 0xf0 = 7
  · have hv : modDe T k = some (m k % 256) := by rw [← hmod, modifieur, if_pos (by omega)]
    obtain ⟨s', hs'⟩ : ∃ s', doShift (m k % 256) up s = .ok s' := doShift_returns (hT.lt hv)
    rw [h₇]
    exact .inr ⟨by omega, s', hs', .inr (.inr ⟨_, hv, hs'⟩)⟩
  have hnone : modDe T k = none := by rw [← hmod, modifieur, if_neg (by omega)]
  by_cases h₂ : m k / 256 - 0xf0 = 2 ∧ m k % 256 = 0
  · refine .inr ⟨by omega, ?_⟩
    rw [h₂.1, h₂.2, keyHandler, doSpec]
    split
    · exact ⟨s, rfl, .inl ⟨hnone, rfl⟩⟩
    split
    · exact ⟨s, rfl, .inl ⟨hnone, rfl⟩⟩
    · obtain ⟨s', hc⟩ := computeShiftstate_returns hT hs
      exact ⟨s', hc, .inr (.inl hc)⟩
  by_cases h₉ : m k / 256 - 0xf0 = 9 ∧ DebordeAscii (m k % 256) up s
  · refine .inl ⟨⟨by omega, h₉.2⟩, ?_⟩
    rw [h₉.1]
    exact doAscii_deborde h₉.2
  · obtain ⟨s', hk, ht⟩ := keyHandler_tenu (T := T) hl h₇ h₂ h₉
    exact .inr ⟨fun h => h₉ ⟨by omega, h.2⟩, s', hk, .inl ⟨hnone, ht⟩⟩

theorem shiftFinal_eq (hs : Borne s) : (s.shiftState ||| s.slockstate) ^^^ s.lockstate = s.shiftState := by
  rw [hs.lock, hs.slock, Nat.or_zero, Nat.xor_zero]

/-- A key that has a handler. -/
theorem agit_map {m : Nat → Nat} (hs : Borne s) (hm : T.keyMaps s.shiftState = some m) (hf : 0xf0 ≤ m k / 256) :
    agit T k up false s =
      keyHandler T (sensDe T m s.shiftState k s).1 ((sensDe T m s.shiftState k s).2 % 256) up s >>= fun s' =>
        .ok (if (sensDe T m s.shiftState k s).1 ≠ KT_SLOCK then { s' with slockstate := 0 } else s') := by
  have hmax : ¬ MAX_NR_KEYMAPS ≤ s.shiftState := Nat.not_le.2 hs.shift
  unfold agit
  dsimp only
  rw [shiftFinal_eq hs, if_neg hmax, hm]
  dsimp only
  rw [if_pos hf, if_neg (by simp)]

theorem agit_cases (hT : Reguliere T) (hs : Borne s) :
    PaveDeborde T k up s ∧ agit T k up false s = .error .intOverflow ∨
    ¬ PaveDeborde T k up s ∧ ∃ s', agit T k up false s = .ok { s' with slockstate := 0 } ∧ Agi T k up s s' := by
  have hmax : ¬ MAX_NR_KEYMAPS ≤ s.shiftState := Nat.not_le.2 hs.shift
  cases hm : T.keyMaps s.shiftState with
  | none =>
    obtain ⟨s', hc⟩ := computeShiftstate_returns hT hs
    refine .inr ⟨fun ⟨m, hm', _⟩ => (nomatch hm.symm.trans hm'), s', ?_, .inr (.inl hc)⟩
    unfold agit
    dsimp only
    rw [shiftFinal_eq hs, if_neg hmax, hm]
    dsimp only
    rw [hc, ok_bind]
  | some m =>
    have hdeb : PaveDeborde T k up s ↔ m k / 256 = 0xf9 ∧ DebordeAscii (m k % 256) up s := by
      unfold PaveDeborde
      rw [hm]
      exact ⟨fun ⟨m', hm', h⟩ => Option.some.inj hm' ▸ h, fun h => ⟨m, rfl, h⟩⟩
    have hmod := hT.mods _ m k hm
    rw [hdeb]
    by_cases hf : 0xf0 ≤ m k / 256
    · rw [agit_map hs hm hf]
      have hlet : KT_LETTER = 11 := rfl
      -- A letter goes to `do_self` whatever CapsLock makes of it.
      by_cases h₁₁ : m k / 256 - 0xf0 = KT_LETTER
      · obtain ⟨c, hc⟩ : ∃ c, sensDe T m s.shiftState k s = (KT_LATIN, c) := by
          unfold sensDe
          exact ⟨_, if_pos h₁₁⟩
        simp only [hc]
        refine .inr ⟨by omega, doSelf T (c % 256) up s, rfl, .inl ⟨?_, doSelf_tenu⟩⟩
        rw [← hmod, modifieur, if_neg (by omega)]
      have h₁₂ : m k / 256 - 0xf0 ≠ KT_SLOCK := fun h => by
        have hl := hT.sens _ m k hm
        rw [h] at hl
        cases hl
      have hsens : sensDe T m s.shiftState k s = (m k / 256 - 0xf0, m k) := by
        unfold sensDe
        exact if_neg h₁₁
      simp only [hsens, if_pos h₁₂]
      rcases handler_cases up hT hs hm hf with ⟨h, he⟩ | ⟨h, s', hk, ha⟩
      · exact .inl ⟨h, by rw [he, error_bind]⟩
      · exact .inr ⟨h, s', by rw [hk, ok_bind], ha⟩
    · have hnone : modDe T k = none := by rw [← hmod, modifieur, if_neg (by omega)]
      have hself : ∀ s' : Clavier, s'.tenu = s.tenu → s' = { s' with slockstate := 0 } := by
        intro s' h
        have h0 : s'.slockstate = 0 := (congrArg Clavier.slockstate h).trans hs.slock
        rw [← h0]
      unfold agit
      dsimp only
      rw [shiftFinal_eq hs, if_neg hmax, hm]
      dsimp only
      rw [if_neg hf]
      refine .inr ⟨by omega, _, congrArg Except.ok (hself _ ?_), .inl ⟨hnone, ?_⟩⟩ <;>
      · split
        · exact toUtf8_tenu (m k)
        · rfl

theorem bascule_testBit (hs : s.shiftState < 2 ^ 32) (i : Nat) :
    (bascule v n s).shiftState.testBit i = if v = i then decide (n ≠ 0) else s.shiftState.testBit i := by
  unfold bascule
  dsimp only
  by_cases hn : n ≠ 0
  · rw [if_pos hn, testBit_set]
    split <;> simp [*]
  · have hc := testBit_clear (k := v) (i := i) hs
    rw [if_neg hn]
    refine hc.trans ?_
    split <;> simp [*]

/-- What is left of the modifiers: as they were, counted again, or one of them up or down. -/
theorem Agi.effet (hT : Reguliere T) (hs : Borne s) (h : Agi T k up s s') :
    modDe T k = none ∧ s'.tenu = s.tenu ∨
    (∃ st, s' = { s with kDown := fun v => compte T s.keyDown v NR_KEYS, shiftState := st } ∧
      ∀ v, st.testBit v = decide (compte T s.keyDown v NR_KEYS ≠ 0)) ∨
    ∃ v, modDe T k = some v ∧ (s.rep = true ∧ s' = s ∨
      s.rep = false ∧ s'.tenu = (bascule v (if up then s.kDown v - 1 else (s.kDown v + 1) % 256) s).tenu) := by
  rcases h with h | hc | ⟨v, hv, hd⟩
  · exact .inl h
  · obtain ⟨st, hf, hst⟩ := computeShiftstate_fold hT hs.touches NR_KEYS
    exact .inr (.inl ⟨st, (Except.ok.inj (hc.symm.trans hf)), hst⟩)
  · refine .inr (.inr ⟨v, hv, ?_⟩)
    cases hr : s.rep with
    | true => exact .inl ⟨rfl, (Except.ok.inj (hd.symm.trans (doShift_rep hr)))⟩
    | false =>
      obtain ⟨s₁, hd₁, ht⟩ := doShift_tenu up hr (hT.lt hv)
      obtain rfl := Except.ok.inj (hd.symm.trans hd₁)
      exact .inr ⟨rfl, ht⟩

/-- The lights, the number that is put together and the characters are apart from the modifiers. -/
theorem Agi.cadre (hT : Reguliere T) (hs : Borne s) (h : Agi T k up s s') : s'.cadre = s.cadre := by
  rcases h.effet hT hs with ⟨-, h⟩ | ⟨st, rfl, -⟩ | ⟨v, -, ⟨-, rfl⟩ | ⟨-, h⟩⟩
  · exact cadre_of_tenu h
  · rfl
  · rfl
  · exact (cadre_of_tenu h :)

theorem Agi.borne (hT : Reguliere T) (hs : Borne s) (h : Agi T k up s s') : Borne { s' with slockstate := 0 } := by
  have hkeys : s'.keyDown = s.keyDown := (congrArg Clavier.keyDown (h.cadre hT hs) :)
  have hmods : s'.shiftState < 256 ∧ s'.lockstate = 0 := by
    rcases h.effet hT hs with ⟨-, h⟩ | ⟨st, rfl, hst⟩ | ⟨v, hv, ⟨-, rfl⟩ | ⟨-, h⟩⟩
    · exact ⟨(congrArg Clavier.shiftState h :) ▸ hs.shift, (congrArg Clavier.lockstate h :).trans hs.lock⟩
    · -- a key is one of the eight modifiers, so the other bits are not set
      refine ⟨lt_of_bits (n := 8) fun i hi => ?_, hs.lock⟩
      rw [hst, decide_eq_false_iff_not, not_not]
      refine Nat.count_of_forall_not fun k _ hk => ?_
      have := hT.lt hk.2
      omega
    · exact ⟨hs.shift, hs.lock⟩
    · have hv := hT.lt hv
      refine ⟨lt_of_bits (n := 8) fun i hi => ?_, (congrArg Clavier.lockstate h :).trans hs.lock⟩
      rw [show s'.shiftState = (bascule v _ s).shiftState from (congrArg Clavier.shiftState h :),
        bascule_testBit (hs.shift.trans (by decide)), if_neg (by omega)]
      exact testBit_of_lt (n := 8) hs.shift hi
  exact ⟨fun k hk => hs.touches k (hkeys ▸ hk), hmods.1, hmods.2, rfl⟩

/-! ## One key after the other -/

/-- A key has just gone down or up. -/
def presse (s : Clavier) (k : Nat) (up : Bool) : Clavier :=
  { s with rep := !up && s.keyDown k, keyDown := Function.update s.keyDown k (!up) }

/-- The release of a key that was not down may pass for its being pressed. -/
def relacheVu (s : Clavier) (k : Nat) (up : Bool) : Bool := up && (s.keyDown k || kbdUnexpectedUp k)

theorem recoit_eq (hm : s.kbdmode = .xlate) : recoit T k up false s =
    if !(s.presse k up).rep || s.vcKbdMode VC_REPEAT then agit T k (s.relacheVu k up) false (s.presse k up)
    else .ok (s.presse k up) := by
  unfold recoit
  cases up with
  | false =>
    dsimp only
    rw [if_neg Bool.false_ne_true]
    dsimp only
    rw [if_neg (show ¬ s.kbdmode = .mediumraw by rw [hm]; simp)]
    rfl
  | true =>
    rw [if_pos rfl]
    dsimp only
    rw [if_neg (show ¬ s.kbdmode = .mediumraw by rw [hm]; simp)]
    rfl

theorem Borne.presse (hs : Borne s) (up : Bool) (hk : k < 128) : Borne (s.presse k up) := by
  refine ⟨fun i hi => ?_, hs.shift, hs.lock, hs.slock⟩
  by_cases h : i = k
  · rw [h]
    exact hk
  · refine hs.touches i ?_
    rw [← hi]
    exact (Function.update_of_ne h (!up) s.keyDown).symm

/-- What a key does, one too many digits apart. -/
theorem recoit_cases (up : Bool) (hT : Reguliere T) (hs : Borne s) (hm : s.kbdmode = .xlate) (hrep : s.vcKbdMode VC_REPEAT = true)
    (hk : k < 128) :
    PaveDeborde T k (s.relacheVu k up) (s.presse k up) ∧ recoit T k up false s = .error .intOverflow ∨
    ¬ PaveDeborde T k (s.relacheVu k up) (s.presse k up) ∧ ∃ s', recoit T k up false s = .ok { s' with slockstate := 0 } ∧
      Agi T k (s.relacheVu k up) (s.presse k up) s' := by
  rw [recoit_eq hm, if_pos (by rw [hrep, Bool.or_true])]
  exact agit_cases hT (hs.presse up hk)

/-- The driver waits for a key: it is started, no prefix has come, the lights are as the flags, and nobody has changed its mode. -/
structure Pret (s : Clavier) : Prop extends Borne s where
  initialise : s.initialise = true
  prefixe : s.prevScancode = 0
  lumieres : s.ledstate = s.ledflagstate
  mode : s.kbdmode = .xlate
  repete : s.vcKbdMode VC_REPEAT = true

/-- A key goes down or up. -/
def evenement (T : Keymap) (s : Clavier) (e : Nat × Bool) : Except Fault Clavier := (recoit T e.1 e.2 false s).map kbdBh

/-- The key is a digit that does not fit. -/
def Depasse (T : Keymap) (e : Nat × Bool) (s : Clavier) : Prop := PaveDeborde T e.1 (s.relacheVu e.1 e.2) (s.presse e.1 e.2)

theorem kbdBh_tenu : (kbdBh s).tenu = s.tenu := by
  unfold kbdBh
  split <;> rfl

theorem kbdBh_lumieres : (kbdBh s).ledstate = (kbdBh s).ledflagstate := by
  unfold kbdBh
  split
  · rfl
  · next h => exact (not_not.1 h).symm

theorem kbdBh_self (h : s.ledstate = s.ledflagstate) : kbdBh s = s := if_neg (not_not.2 h.symm)

theorem Borne.of_tenu (hs : Borne s) (h : s'.tenu = s.tenu) : Borne s' where
  touches k hk := hs.touches k ((congrFun (congrArg Clavier.keyDown h) k :).symm.trans hk)
  shift := (congrArg Clavier.shiftState h :).trans_lt hs.shift
  lock := (congrArg Clavier.lockstate h :).trans hs.lock
  slock := (congrArg Clavier.slockstate h :).trans hs.slock

theorem Pret.of_cadre (hs : Pret s) (hb : Borne s') (hl : s'.ledstate = s'.ledflagstate) (h : s'.cadre = (s.presse k up).cadre) :
    Pret s' where
  toBorne := hb
  initialise := (congrArg Clavier.initialise h :).trans hs.initialise
  prefixe := (congrArg Clavier.prevScancode h :).trans hs.prefixe
  lumieres := hl
  mode := (congrArg Clavier.kbdmode h :).trans hs.mode
  repete := (congrArg (fun c => c.modeflags.testBit VC_REPEAT) h :).trans hs.repete

theorem evenement_cases {e : Nat × Bool} (hT : Reguliere T) (hs : Pret s) (hk : e.1 < 128) :
    Depasse T e s ∧ evenement T s e = .error .intOverflow ∨
    ¬ Depasse T e s ∧ ∃ s₁ s', evenement T s e = .ok s' ∧ Pret s' ∧
      Agi T e.1 (s.relacheVu e.1 e.2) (s.presse e.1 e.2) s₁ ∧ s'.tenu = { s₁ with slockstate := 0 }.tenu := by
  rcases recoit_cases e.2 hT hs.toBorne hs.mode hs.repete hk with ⟨h, he⟩ | ⟨h, s₁, he, ha⟩
  · exact .inl ⟨h, by rw [evenement, he]; rfl⟩
  · have hpresse : Borne (s.presse e.1 e.2) := hs.toBorne.presse e.2 hk
    have ht : (kbdBh { s₁ with slockstate := 0 }).tenu = { s₁ with slockstate := 0 }.tenu := kbdBh_tenu
    have hcadre : (kbdBh { s₁ with slockstate := 0 }).cadre = s₁.cadre := (cadre_of_tenu ht :)
    refine .inr ⟨h, s₁, kbdBh { s₁ with slockstate := 0 }, by rw [evenement, he]; rfl, ?_, ha, ht⟩
    exact hs.of_cadre ((ha.borne hT hpresse).of_tenu ht) kbdBh_lumieres (hcadre.trans (ha.cadre hT hpresse))

end Clavier

end Pcsea
