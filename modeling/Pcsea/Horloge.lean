import Pcsea.Maintien
import Pcsea.Formats
/-!
# The clock

Only a tick writes the clock, in any run. The display counts the seconds up to
99:59:59 and stays there, long before `nb_tick` wraps.
-/

namespace Pcsea

open Lib

variable {s s' : St} {e : Event} {r : Issue} {n : Nat} {tr : List (St × Event × Issue)}

/-! ## What is displayed -/

/-- The last time shown, 99:59:59. -/
def SEC_MAX : Nat := 99 * 3600 + 59 * 60 + 59

/-- The clock shows the seconds `t`. -/
def Affiche (t : Nat) (s : St) : Prop := s.hour = t / 3600 ∧ s.min = t / 60 % 60 ∧ s.sec = t % 60

/-- The clock after `n` ticks. -/
def AHeure (n : Nat) (s : St) : Prop := s.nbTick = n % 2 ^ 32 ∧ Affiche (min (n / CLOCKFREQ) SEC_MAX) s

theorem AHeure.congr (h : AHeure n s) (hs : s'.heures.2 = s.heures.2) : AHeure n s' := by
  simp only [St.heures, Prod.mk.injEq] at hs
  obtain ⟨h₁, h₂, h₃, h₄⟩ := hs
  rw [AHeure, Affiche, h₁, h₂, h₃, h₄]
  exact h

/-- A second more is carried over, up to the last time. -/
theorem changeClock_affiche {t : Nat} (h : Affiche t s) (ht : t ≤ SEC_MAX) :
    Affiche (min (t + 1) SEC_MAX) (changeClock { s with sec := succUint32 s.sec }) := by
  obtain ⟨hh, hm, hs⟩ := h
  have hmax : SEC_MAX = 359999 := rfl
  have hsec : succUint32 s.sec = t % 60 + 1 := by
    rw [hs, succUint32, Nat.mod_eq_of_lt (by omega)]
  have hmin : (s.min + (t % 60 + 1) / 60) % 2 ^ 32 = t / 60 % 60 + (t % 60 + 1) / 60 := by
    rw [hm, Nat.mod_eq_of_lt (by omega)]
  have hhour : (s.hour + (t / 60 % 60 + (t % 60 + 1) / 60) / 60) % 2 ^ 32 = (t + 1) / 3600 := by
    rw [hh, Nat.mod_eq_of_lt (by omega)]
    omega
  unfold changeClock Affiche
  rw [hsec]
  dsimp only
  rw [hmin, hhour]
  split
  · rw [min_eq_right (by omega)]
    exact ⟨rfl, rfl, rfl⟩
  · rw [min_eq_left (by omega)]
    refine ⟨rfl, ?_, ?_⟩
    · show t / 60 % 60 + (t % 60 + 1) / 60 - (t / 60 % 60 + (t % 60 + 1) / 60) / 60 * 60 = _
      omega
    · show t % 60 + 1 - (t % 60 + 1) / 60 * 60 = _
      omega

theorem changeClock_nbTick (s : St) : (changeClock s).nbTick = s.nbTick := by
  unfold changeClock
  dsimp only
  split <;> rfl

/-- When `nb_tick` wraps, the last time has been shown for long. -/
theorem tictac_aHeure (h : AHeure n s) : AHeure (n + 1) (tictac s) := by
  obtain ⟨ht, ha⟩ := h
  have hmax : SEC_MAX = 359999 := rfl
  have hn : succUint32 s.nbTick = (n + 1) % 2 ^ 32 := by
    rw [ht, succUint32, Nat.mod_add_mod]
  unfold tictac
  rw [hn]
  dsimp only
  unfold CLOCKFREQ at ha ⊢
  split
  -- A second goes by, unless the clock is at its end.
  · next hd =>
    refine ⟨changeClock_nbTick _, ?_⟩
    have he : min ((n + 1) / 100) SEC_MAX = min (min (n / 100) SEC_MAX + 1) SEC_MAX := by
      rcases Nat.lt_or_ge (n + 1) (2 ^ 32) with hlt | hge
      · rw [Nat.mod_eq_of_lt hlt] at hd
        rw [show (n + 1) / 100 = n / 100 + 1 by omega]
        rcases Nat.le_total (n / 100) SEC_MAX with hle | hle
        · rw [min_eq_left hle]
        · rw [min_eq_right hle, min_eq_right (by omega), min_eq_right (by omega)]
      · rw [min_eq_right (a := (n + 1) / 100) (by omega), min_eq_right (a := n / 100) (by omega), min_eq_right (by omega)]
    rw [CLOCKFREQ, he]
    exact changeClock_affiche (s := { s with nbTick := (n + 1) % 2 ^ 32 }) ha (min_le_right _ _)
  · next hd =>
    refine ⟨rfl, ?_⟩
    have he : min ((n + 1) / 100) SEC_MAX = min (n / 100) SEC_MAX := by
      rcases Nat.lt_or_ge (n + 1) (2 ^ 32) with hlt | hge
      · rw [Nat.mod_eq_of_lt hlt] at hd
        rw [show (n + 1) / 100 = n / 100 by omega]
      · rw [min_eq_right (by omega), min_eq_right (by omega)]
    rw [CLOCKFREQ, he]
    exact ha

/-! ## The text -/

theorem doprnt2d_length : ∀ n < 100, (doprnt2d (toInt32 n)).length = 2 := by decide +kernel

/-- The text of the clock fits its buffer. -/
theorem texteClock_length {t : Nat} (h : Affiche t s) (ht : t ≤ SEC_MAX) :
    (texteClock s.hour s.min s.sec).length = 8 ∧ ∀ ecran, ∃ ecran', afficheClock s.hour s.min s.sec ecran = .ok ecran' := by
  obtain ⟨hh, hm, hs⟩ := h
  have hmax : SEC_MAX = 359999 := rfl
  have hl : (texteClock s.hour s.min s.sec).length = 8 := by
    simp only [texteClock, List.length_append, List.length_cons]
    rw [doprnt2d_length _ (by omega), doprnt2d_length _ (by omega), doprnt2d_length _ (by omega)]
  refine ⟨hl, fun ecran => ?_⟩
  unfold afficheClock
  rw [if_neg (by simp [hl])]
  exact ⟨_, rfl⟩

/-- `sprintf` writes the text, which is what `_doprnt` puts, and a terminator. -/
theorem texteClock_sprintf {t time : Nat} {m : Memoire} (h : Affiche t s) (ht : t ≤ SEC_MAX) (htime : Mapped m time 9)
    (hfin : m (time + 9) = none) :
    vsprintf time formatClock [.nombre (toInt32 s.hour), .nombre (toInt32 s.min), .nombre (toInt32 s.sec)] m =
      .ok (8, writeAt m time (texteClock s.hour s.min s.sec ++ [0])) := by
  have hlen := (texteClock_length h ht).1
  obtain ⟨hh, hm, hs⟩ := h
  have hmax : SEC_MAX = 359999 := rfl
  have hh' : s.hour < 100 := by omega
  have hm' : s.min < 100 := by omega
  have hs' : s.sec < 100 := by omega
  have hd := doprnt_clock (⟨by omega, by omega⟩ : s.hour < 2 ^ 32 ∧ s.hour ≠ 2 ^ 31) (⟨by omega, by omega⟩ : s.min < 2 ^ 32 ∧ s.min ≠ 2 ^ 31)
    (⟨by omega, by omega⟩ : s.sec < 2 ^ 32 ∧ s.sec ≠ 2 ^ 31)
  have hchar : (texteClock s.hour s.min s.sec).map toChar = texteClock s.hour s.min s.sec := by
    have hsep : toChar 58 = 58 := by decide
    simp only [texteClock, List.map_append, List.map_cons, doprnt2d_toChar _ hh', doprnt2d_toChar _ hm', doprnt2d_toChar _ hs', hsep]
  rw [vsprintf, formateDans_spec htime hfin (by decide) hd, garde, if_pos rfl, if_pos (by omega), hlen, hchar]
  rfl

def Event.bat : Event → Bool
  | .tick => true
  | _ => false

/-- The ticks handled since the boot. -/
def tics (tr : List (St × Event × Issue)) : Nat := tr.countP fun c => c.2.1.bat

theorem tics_snoc : tics (tr ++ [(s, e, r)]) = if e.bat then tics tr + 1 else tics tr := by
  rw [tics, List.countP_append, List.countP_singleton]
  split <;> rfl

/-- What a step does to the clock. -/
theorem pas_aHeure (h : AHeure n s) (ho : joue e s = .ok (r, s')) : AHeure (if e.bat then n + 1 else n) s' := by
  have hh := congrArg Prod.snd (joue_heures ho)
  cases e with
  | tick => exact (tictac_aHeure h).congr hh
  | suite => exact h.congr hh
  | appel c =>
    refine h.congr (hh.trans ?_)
    simp only [Event.heures]
    split <;> rfl

theorem parcours_aHeure (hr : Parcours (fun _ _ => True) tr s) : AHeure (tics tr) s := by
  refine hr.inv_trace (fun tr s => AHeure (tics tr) s) ?_ ?_
  · rw [boot_eq]
    exact ⟨rfl, rfl, rfl, rfl⟩
  · rintro tr s e r s' - ih ⟨-, -, ho⟩
    rw [tics_snoc]
    exact pas_aHeure ih ho

/-- The clock is exact until it shows 99:59:59, and shows it ever after: in every state of every run, with `n` the ticks handled
so far, it shows `min (n / CLOCKFREQ) 359999` seconds, in eight characters, which `sprintf` writes with a terminator in the nine
bytes of its buffer. -/
theorem clock_exact (hr : Parcours (fun _ _ => True) tr s) :
    (s.nbTick = tics tr % 2 ^ 32 ∧
      s.hour = min (tics tr / CLOCKFREQ) (99 * 3600 + 59 * 60 + 59) / 3600 ∧
      s.min = min (tics tr / CLOCKFREQ) (99 * 3600 + 59 * 60 + 59) / 60 % 60 ∧
      s.sec = min (tics tr / CLOCKFREQ) (99 * 3600 + 59 * 60 + 59) % 60) ∧
    (s.sec < 60 ∧ s.min < 60 ∧ s.hour ≤ 99) ∧
    (texteClock s.hour s.min s.sec).length = 8 ∧ (∀ ecran, ∃ ecran', afficheClock s.hour s.min s.sec ecran = .ok ecran') ∧
    ∀ time m, Mapped m time 9 → m (time + 9) = none →
      vsprintf time formatClock [.nombre (toInt32 s.hour), .nombre (toInt32 s.min), .nombre (toInt32 s.sec)] m =
        .ok (8, writeAt m time (texteClock s.hour s.min s.sec ++ [0])) := by
  have hle := min_le_right (tics tr / CLOCKFREQ) SEC_MAX
  obtain ⟨ht, ha⟩ := parcours_aHeure hr
  obtain ⟨hl, haff⟩ := texteClock_length ha hle
  refine ⟨⟨ht, ha⟩, ?_, hl, haff, fun time m htime hfin => texteClock_sprintf ha hle htime hfin⟩
  have hmax : SEC_MAX = 359999 := rfl
  obtain ⟨hh, hm, hs⟩ := ha
  refine ⟨?_, ?_, ?_⟩
  · rw [hs]
    exact Nat.mod_lt _ (by decide)
  · rw [hm]
    exact Nat.mod_lt _ (by decide)
  · rw [hh]
    omega

/-- The first second. -/
theorem clock_exact_run : ∃ tr s, Parcours (fun _ _ => True) tr s ∧ tics tr = 100 ∧
    (s.nbTick = tics tr % 2 ^ 32 ∧
      s.hour = min (tics tr / CLOCKFREQ) (99 * 3600 + 59 * 60 + 59) / 3600 ∧
      s.min = min (tics tr / CLOCKFREQ) (99 * 3600 + 59 * 60 + 59) / 60 % 60 ∧
      s.sec = min (tics tr / CLOCKFREQ) (99 * 3600 + 59 * 60 + 59) % 60) ∧
    (s.sec < 60 ∧ s.min < 60 ∧ s.hour ≤ 99) ∧
    (texteClock s.hour s.min s.sec).length = 8 ∧ (∀ ecran, ∃ ecran', afficheClock s.hour s.min s.sec ecran = .ok ecran') ∧
    ∀ time m, Mapped m time 9 → m (time + 9) = none →
      vsprintf time formatClock [.nombre (toInt32 s.hour), .nombre (toInt32 s.min), .nombre (toInt32 s.sec)] m =
        .ok (8, writeAt m time (texteClock s.hour s.min s.sec ++ [0])) := by
  obtain ⟨tr, s, hr, hn⟩ := deroule_any (P := fun _ _ => True) (Q := fun tr _ => tics tr = 100) boot
    (List.replicate 100 .tick) (by decide +kernel)
  exact ⟨tr, s, hr, hn, clock_exact hr⟩

end Pcsea
