import Pcsea.GdbCommandes
import Pcsea.Nombres
/-!
# What a packet can break

Every packet is done within the buffers of the stub, but for three: a register
number and two lengths that get past their checks by going round.
-/

namespace Pcsea

open Lib

variable {z : Client} {s : Stub} {m : Ram} {cr0 cr3 k n dest va i : Nat} {b : Nat → Nat} {d : List Nat}

/-! ## Numbers -/

theorem strtoulBoucle_lt {base : Int} {p : List Int} {v : Nat} (hv : v < 2 ^ 32) : (strtoulBoucle base p v).1 < 2 ^ 32 := by
  induction p generalizing v with
  | nil => exact hv
  | cons c p ih =>
    rw [strtoulBoucle]
    cases valeurChiffre c base with
    | none => exact hv
    | some x => exact ih (toUint32_lt _)

theorem nombre_lt (b : Nat → Nat) (i : Nat) : (nombre b i).1 < 2 ^ 32 := strtoulBoucle_lt (by decide)

/-! ## Copies -/

/-- A copy from memory leaves `inbuf` when it is too long and the bytes that fit, and one more, are all mapped. -/
theorem copyinDans_deborde (hva : va < 2 ^ 32) (hk : n < k) (hd : dest ≤ BUFMAX + 1) :
    copyinDans m cr0 cr3 k b dest va n = .error .outOfBounds ↔
      BUFMAX + 1 < dest + n ∧ (octets m cr0 cr3 (BUFMAX + 2 - dest) va).isSome := by
  -- Page by page: it stops at the first page that is not there, or that does not fit.
  induction k generalizing b dest va n with
  | zero => omega
  | succ k ih =>
    rw [copyinDans]
    by_cases hn : n = 0
    · rw [if_pos hn]
      exact iff_of_false (by simp) (by omega)
    rw [if_neg hn]
    cases hl : physAddrLookup m cr0 cr3 va with
    | none =>
      have ht : traduit m cr0 cr3 va = none := by rw [traduit, hl, Option.map_none]
      rw [octets_succ_none ht (by omega)]
      exact iff_of_false (by simp) (by simp)
    | some x =>
      obtain ⟨pa, len⟩ := x
      obtain ⟨hpos, hrun⟩ := lookup_page hva hl
      dsimp only
      generalize hsz : (if len > n then n else len) = sz
      have hsz' : 0 < sz ∧ sz ≤ len ∧ sz ≤ n := by
        rw [← hsz]
        split <;> omega
      by_cases hout : dest + sz > BUFMAX + 1
      · rw [if_pos hout]
        obtain ⟨q, hq⟩ := Nat.exists_eq_add_of_le (show BUFMAX + 2 - dest ≤ sz by omega)
        have ho : octets m cr0 cr3 (BUFMAX + 2 - dest + 0) va = _ := octets_run hva fun i hi => hrun i (by omega)
        rw [Nat.add_zero] at ho
        rw [ho]
        exact ⟨fun _ => ⟨by omega, rfl⟩, fun _ => rfl⟩
      · rw [if_neg hout, ih (Nat.mod_lt _ (by decide)) (by omega) (by omega)]
        have ho : octets m cr0 cr3 (sz + (BUFMAX + 2 - (dest + sz))) va = _ := octets_run hva fun i hi => hrun i (by omega)
        rw [show sz + (BUFMAX + 2 - (dest + sz)) = BUFMAX + 2 - dest by omega] at ho
        rw [ho, Option.isSome_map, show dest + sz + (n - sz) = dest + n by omega]

theorem copyoutBoucle_returns (hva : va < 2 ^ 32) (hk : d.length < k) : ∃ r, copyoutBoucle cr0 cr3 k d va m = .ok r := by
  induction k generalizing d va m with
  | zero => omega
  | succ k ih =>
    rw [copyoutBoucle]
    by_cases hn : d.length = 0
    · rw [if_pos hn]
      exact ⟨_, rfl⟩
    rw [if_neg hn]
    cases hl : physAddrLookup m cr0 cr3 va with
    | none => exact ⟨_, rfl⟩
    | some x =>
      obtain ⟨pa, len⟩ := x
      have hpos := (lookup_page hva hl).1
      dsimp only
      refine ih (Nat.mod_lt _ (by decide)) ?_
      rw [List.length_drop]
      split <;> omega

/-- A copy to memory returns. -/
theorem gdbCopyout_returns (hva : va < 2 ^ 32) : ∃ r, gdbCopyout m cr0 cr3 d va = .ok r :=
  copyoutBoucle_returns hva (Nat.lt_succ_self d.length)

/-- A copy from memory that does not leave the buffer returns. -/
theorem copyinDans_ensures (hva : va < 2 ^ 32) (hk : n < k) :
    Ensures (fun e => e = .outOfBounds) (copyinDans m cr0 cr3 k b dest va n) fun _ => True := by
  induction k generalizing b dest va n with
  | zero => omega
  | succ k ih =>
    rw [copyinDans]
    split
    · trivial
    cases hl : physAddrLookup m cr0 cr3 va with
    | none => trivial
    | some x =>
      obtain ⟨pa, len⟩ := x
      have hpos := (lookup_page hva hl).1
      dsimp only
      generalize hsz : (if len > n then n else len) = sz
      have hsz' : 0 < sz := by
        rw [← hsz]
        split <;> omega
      split
      · rfl
      · exact ih (Nat.mod_lt _ (by decide)) (by omega)

/-! ## Commands -/

/-- The register is just before the structure, and there is a byte to put in it. -/
def DebordeP (s : Stub) : Prop :=
  let (reg, eqp) := nombre s.inbuf 1
  eqp ≠ 1 ∧ s.inbuf eqp = 61 ∧ reg % 2 ^ 30 = 2 ^ 30 - 1 ∧ 0 ≤ deuxHex (s.inbuf (eqp + 1)) (s.inbuf (eqp + 2))

/-- Twice the length goes round to something small, and the memory asked for fills the buffer. -/
def Debordem (z : Client) (s : Stub) : Prop :=
  let (addr, ptr) := nombre s.inbuf 1
  let (len, ptr2) := nombre s.inbuf (ptr + 1)
  (ptr ≠ 1 ∧ s.inbuf ptr = 44 ∧ ptr2 ≠ ptr + 1) ∧ 2 ^ 31 ≤ len ∧ len ≤ 2 ^ 31 + 200 ∧
    (octets s.ram z.cr0 z.cr3 (BUFMAX + 2) addr).isSome

/-- The end of the data goes round to somewhere before the end of the buffer. -/
def DebordeM (z : Client) (s : Stub) : Prop :=
  let (_, ptr) := nombre s.inbuf 1
  let (len, ptr2) := nombre s.inbuf (ptr + 1)
  (ptr ≠ 1 ∧ s.inbuf ptr = 44 ∧ ptr2 ≠ ptr + 1 ∧ s.inbuf ptr2 = 58) ∧ BUFMAX < len ∧
    (z.adr + (ptr2 + 1) + len * 2) % 2 ^ 32 ≤ z.adr + BUFMAX

def DebordeTampon (z : Client) (s : Stub) : Prop :=
  s.inbuf 0 = 80 ∧ DebordeP s ∨ s.inbuf 0 = 109 ∧ Debordem z s ∨ s.inbuf 0 = 77 ∧ DebordeM z s

theorem hex2bin_length (b : Nat → Nat) (i n : Nat) : (hex2bin b i n).2.length ≤ n := by
  induction n generalizing i with
  | zero => exact Nat.le_refl 0
  | succ n ih =>
    rw [hex2bin]
    dsimp only
    split
    · exact Nat.zero_le _
    · exact Nat.succ_le_succ (ih (i + 2))

theorem hex2bin_ne_nil : (hex2bin b i (n + 1)).2 ≠ [] ↔ 0 ≤ deuxHex (b i) (b (i + 1)) := by
  rw [hex2bin]
  dsimp only
  split
  · exact ⟨fun h => absurd rfl h, fun h => by omega⟩
  · exact ⟨fun _ => by omega, fun _ => List.cons_ne_nil _ _⟩

/-- A result or a buffer overrun, the latter just when `P` says. -/
def Exact (x : Except Fault SuitePaquet) (P : Prop) : Prop := (∃ r, x = .ok r) ∧ ¬ P ∨ x = .error .outOfBounds ∧ P

theorem commandeP_exact (s : Stub) : Exact (commandeP s) (DebordeP s) := by
  have hlt := nombre_lt s.inbuf 1
  unfold commandeP DebordeP
  generalize nombre s.inbuf 1 = x at hlt ⊢
  obtain ⟨reg, eqp⟩ := x
  dsimp only at hlt ⊢
  split
  · exact .inl ⟨⟨_, rfl⟩, fun h => by omega⟩
  split
  · exact .inl ⟨⟨_, rfl⟩, fun h => by omega⟩
  split
  · refine .inl ⟨⟨_, rfl⟩, fun h => ?_⟩
    rename_i hreg
    rw [SIZEOF_GDB_STATE] at hreg
    omega
  rename_i h61 _ hcheck
  rw [SIZEOF_GDB_STATE] at hcheck ⊢
  have hlen := hex2bin_length s.inbuf (eqp + 1) 4
  have hne : (hex2bin s.inbuf (eqp + 1) 4).2 ≠ [] ↔ 0 ≤ deuxHex (s.inbuf (eqp + 1)) (s.inbuf (eqp + 2)) := hex2bin_ne_nil
  rw [← hne]
  generalize hex2bin s.inbuf (eqp + 1) 4 = y at hlen ⊢
  obtain ⟨r, out⟩ := y
  dsimp only at hlen ⊢
  have ha : reg * 4 % 2 ^ 32 = 4 * (reg % 2 ^ 30) := by omega
  rw [ha]
  by_cases hr : reg % 2 ^ 30 = 2 ^ 30 - 1
  · by_cases ho : out = []
    · rw [if_neg fun h => h.1 ho]
      exact .inl ⟨⟨_, rfl⟩, fun h => h.2.2.2 ho⟩
    · rw [if_pos ⟨ho, by omega⟩]
      exact .inr ⟨rfl, by omega, by omega, hr, ho⟩
  · rw [if_neg fun h => by omega]
    exact .inl ⟨⟨_, rfl⟩, fun h => hr h.2.2.1⟩

/-- `P3fffffff=00`. -/
example (s : Stub) : DebordeP { s with inbuf := fun i => [80, 51, 102, 102, 102, 102, 102, 102, 102, 61, 48, 48].getD i 0 } := by
  have h : nombre (fun i => [80, 51, 102, 102, 102, 102, 102, 102, 102, 61, 48, 48].getD i 0) 1 = (2 ^ 30 - 1, 9) := by decide +kernel
  unfold DebordeP
  rw [h]
  exact ⟨by decide, rfl, rfl, show 0 ≤ deuxHex 48 48 by decide⟩

theorem commandem_exact (z : Client) (s : Stub) : Exact (commandem z s) (Debordem z s) := by
  have hlt := nombre_lt s.inbuf 1
  unfold commandem Debordem
  generalize nombre s.inbuf 1 = x at hlt ⊢
  obtain ⟨addr, ptr⟩ := x
  have hlt' := nombre_lt s.inbuf (ptr + 1)
  dsimp only at hlt ⊢
  generalize nombre s.inbuf (ptr + 1) = y at hlt' ⊢
  obtain ⟨len, ptr2⟩ := y
  have hB : BUFMAX = 400 := rfl
  dsimp only at hlt' ⊢
  split
  · exact .inl ⟨⟨_, rfl⟩, fun h => by omega⟩
  split
  · exact .inl ⟨⟨_, rfl⟩, fun h => by omega⟩
  -- Only the copy can leave the buffer.
  have hdeb : copyinDans s.ram z.cr0 z.cr3 (len + 1) s.inbuf 0 addr len = _ ↔ _ :=
    copyinDans_deborde hlt (Nat.lt_add_one len) (Nat.zero_le (BUFMAX + 1))
  have hens : Ensures _ (copyinDans s.ram z.cr0 z.cr3 (len + 1) s.inbuf 0 addr len) _ := copyinDans_ensures hlt (Nat.lt_add_one len)
  rw [Nat.zero_add, Nat.sub_zero] at hdeb
  cases hc : copyinDans s.ram z.cr0 z.cr3 (len + 1) s.inbuf 0 addr len with
  | error e =>
    rw [hc] at hdeb hens
    obtain rfl : e = .outOfBounds := hens
    obtain ⟨h₁, h₂⟩ := hdeb.1 rfl
    exact .inr ⟨rfl, by omega, by omega, by omega, h₂⟩
  | ok r =>
    rw [hc] at hdeb
    refine .inl ⟨?_, fun h => ?_⟩
    · rw [ok_bind]
      split <;> exact ⟨_, rfl⟩
    · exact absurd (hdeb.2 ⟨by omega, h.2.2.2⟩) nofun

theorem commandeM_exact (z : Client) (s : Stub) : Exact (commandeM z s) (DebordeM z s) := by
  have hlt := nombre_lt s.inbuf 1
  unfold commandeM DebordeM
  generalize nombre s.inbuf 1 = x at hlt ⊢
  obtain ⟨addr, ptr⟩ := x
  dsimp only at hlt ⊢
  obtain ⟨len, ptr2⟩ := nombre s.inbuf (ptr + 1)
  dsimp only
  split
  · exact .inl ⟨⟨_, rfl⟩, fun h => by omega⟩
  split
  · exact .inl ⟨⟨_, rfl⟩, fun h => by omega⟩
  split
  · exact .inl ⟨⟨_, rfl⟩, fun h => by omega⟩
  split
  · exact .inr ⟨rfl, by omega, by omega, by omega⟩
  refine .inl ⟨?_, fun h => by omega⟩
  obtain ⟨r, out⟩ := hex2bin s.inbuf (ptr2 + 1) len
  dsimp only
  split
  · exact ⟨_, rfl⟩
  obtain ⟨r', hr'⟩ : ∃ r, gdbCopyout s.ram z.cr0 z.cr3 out addr = .ok r := gdbCopyout_returns hlt
  rw [hr', ok_bind]
  exact ⟨_, rfl⟩

theorem commandeX_returns (z : Client) (s : Stub) : ∃ r, commandeX z s = .ok r := by
  have hlt := nombre_lt s.inbuf 1
  unfold commandeX
  generalize nombre s.inbuf 1 = x at hlt ⊢
  obtain ⟨addr, ptr⟩ := x
  dsimp only at hlt ⊢
  obtain ⟨len, ptr2⟩ := nombre s.inbuf (ptr + 1)
  dsimp only
  generalize (if z.adr + (ptr2 + 1) + len < 2 ^ 32 then len else 0) = n
  obtain ⟨fini, out⟩ := dequote ((List.range n).map fun j => s.inbuf (ptr2 + 1 + j))
  dsimp only
  split
  · exact ⟨_, rfl⟩
  split
  · exact ⟨_, rfl⟩
  split
  · exact ⟨_, rfl⟩
  split
  · exact ⟨_, rfl⟩
  · obtain ⟨r', hr'⟩ : ∃ r, gdbCopyout s.ram z.cr0 z.cr3 out addr = .ok r := gdbCopyout_returns hlt
    rw [hr', ok_bind]
    exact ⟨_, rfl⟩

theorem strtolBoucle_ensures (base : Int) (p : List Int) (v : Int) :
    Ensures (fun e => e = .intOverflow) (strtolBoucle base p v) fun _ => True := by
  induction p generalizing v with
  | nil => trivial
  | cons c p ih =>
    rw [strtolBoucle]
    cases valeurChiffre c base with
    | none => trivial
    | some x =>
      dsimp only
      unfold addInt
      split
      · exact ih _
      · rfl

theorem strtol_ensures (p : List Int) (base : Int) : Ensures (fun e => e = .intOverflow) (strtol p base) fun _ => True := by
  unfold strtol
  dsimp only
  refine (strtolBoucle_ensures _ _ _).bind fun v _ => ?_
  split
  · unfold addInt
    split
    · trivial
    · rfl
  · trivial

theorem sansNombre_ensures (b : Nat → Nat) (i : Nat) : Ensures (fun e => e = .intOverflow) (sansNombre b i) fun _ => True :=
  (strtol_ensures _ _).bind fun _ _ => trivial

theorem traite_returns (hH : s.inbuf 0 ≠ 72) (hT : s.inbuf 0 ≠ 84) (hP : s.inbuf 0 ≠ 80) (hm : s.inbuf 0 ≠ 109) (hM : s.inbuf 0 ≠ 77) :
    ∃ r, traite z s = .ok r := by
  unfold traite
  split
  case h_1 h => exact absurd h hH
  case h_2 h => exact absurd h hT
  case h_5 h => exact absurd h hP
  case h_6 h => exact absurd h hm
  case h_7 h => exact absurd h hM
  case h_8 => exact commandeX_returns z s
  all_goals exact ⟨_, rfl⟩

theorem deborde_of_ne (hP : s.inbuf 0 ≠ 80) (hm : s.inbuf 0 ≠ 109) (hM : s.inbuf 0 ≠ 77) : ¬ DebordeTampon z s := by
  rintro (⟨h, -⟩ | ⟨h, -⟩ | ⟨h, -⟩)
  · exact hP h
  · exact hm h
  · exact hM h

theorem deborde_P (h : s.inbuf 0 = 80) : DebordeTampon z s ↔ DebordeP s := by
  unfold DebordeTampon
  rw [h]
  simp only [true_and, false_and, or_false, Nat.reduceEqDiff]

theorem deborde_m (h : s.inbuf 0 = 109) : DebordeTampon z s ↔ Debordem z s := by
  unfold DebordeTampon
  rw [h]
  simp only [true_and, false_and, or_false, false_or, Nat.reduceEqDiff]

theorem deborde_M (h : s.inbuf 0 = 77) : DebordeTampon z s ↔ DebordeM z s := by
  unfold DebordeTampon
  rw [h]
  simp only [true_and, false_and, false_or, Nat.reduceEqDiff]

theorem traite_exact (hH : s.inbuf 0 ≠ 72) (hT : s.inbuf 0 ≠ 84) : Exact (traite z s) (DebordeTampon z s) := by
  by_cases hP : s.inbuf 0 = 80
  · have ht : traite z s = commandeP s := by
      rw [traite, hP]
      rfl
    rw [ht, deborde_P hP]
    exact commandeP_exact s
  by_cases hm : s.inbuf 0 = 109
  · have ht : traite z s = commandem z s := by
      rw [traite, hm]
      rfl
    rw [ht, deborde_m hm]
    exact commandem_exact z s
  by_cases hM : s.inbuf 0 = 77
  · have ht : traite z s = commandeM z s := by
      rw [traite, hM]
      rfl
    rw [ht, deborde_M hM]
    exact commandeM_exact z s
  · exact .inl ⟨traite_returns hH hT hP hm hM, deborde_of_ne hP hm hM⟩

theorem traite_thread (h : s.inbuf 0 = 72 ∨ s.inbuf 0 = 84) : Ensures (fun e => e = .intOverflow) (traite z s) fun _ => True := by
  rcases h with h | h
  · have ht : traite z s = commandeH s := by
      rw [traite, h]
      rfl
    rw [ht]
    exact (sansNombre_ensures _ _).bind fun _ _ => trivial
  · have ht : traite z s = commandeT s := by
      rw [traite, h]
      rfl
    rw [ht]
    exact (sansNombre_ensures _ _).bind fun _ _ => trivial

/-- A packet has the stub leave its buffers just when it is one of the three, and only a thread number that does not fit in an `int`
can do other harm. -/
theorem traite_deborde (z : Client) (s : Stub) : (traite z s = .error .outOfBounds ↔ DebordeTampon z s) ∧
    ∀ e, traite z s = .error e → e = .outOfBounds ∨ e = .intOverflow ∧ (s.inbuf 0 = 72 ∨ s.inbuf 0 = 84) := by
  by_cases h : s.inbuf 0 = 72 ∨ s.inbuf 0 = 84
  · have hens := traite_thread (z := z) h
    have hn : ¬ DebordeTampon z s := by
      apply deborde_of_ne <;> omega
    refine ⟨⟨fun he => ?_, fun hd => absurd hd hn⟩, fun e he => .inr ⟨hens.of_error he, h⟩⟩
    exact absurd (hens.of_error he) (by decide)
  · rw [not_or] at h
    rcases traite_exact (z := z) h.1 h.2 with ⟨⟨r, hr⟩, hn⟩ | ⟨he, hd⟩
    · rw [hr]
      exact ⟨⟨fun h => (nomatch h), fun hd => absurd hd hn⟩, fun e h => (nomatch h)⟩
    · rw [he]
      exact ⟨⟨fun _ => hd, fun _ => rfl⟩, fun e h => .inl (Except.error.inj h).symm⟩

end Pcsea
