import Pcsea.Pagination
import Pcsea.Lib.Bytes
import Pcsea.Lib.Outcome
/-!
# `gdb_serial_support.c`: the debugger's copies

With paging off, the stub copies to and from the memory of the program page by
page, through the tables of the program.
-/

namespace Pcsea

open Lib

variable {l : Liens} {m m' m₀ : Ram} {cr0 cr3 va n len pa i : Nat} {d : List Nat} {c : Carte}

/-- `memcpy` from physical memory. -/
def lireRam (m : Ram) (pa n : Nat) : List Nat := (List.range n).map fun i => m ((pa + i) % 2 ^ 32)

/-- `memcpy` to physical memory. -/
def ecrireRam (m : Ram) (pa : Nat) : List Nat → Ram
  | [] => m
  | x :: d => ecrireRam (Function.update m (pa % 2 ^ 32) x) (pa + 1) d

/-- `gdb_copyin(src_va, dest_buf, size)`: what is copied, when it returns 0. -/
def copyinBoucle (m : Ram) (cr0 cr3 : Nat) : Nat → Nat → Nat → Except Fault (Option (List Nat))
  | 0, _, _ => .error .diverge
  | k + 1, srcVa, size =>
    if size = 0 then .ok (some [])
    else
      match physAddrLookup m cr0 cr3 srcVa with
      | none => .ok none
      | some (pa, sz) => do
        let sz := if sz > size then size else sz
        let reste ← copyinBoucle m cr0 cr3 k ((srcVa + sz) % 2 ^ 32) (size - sz)
        .ok (reste.map fun d => lireRam m pa sz ++ d)

def gdbCopyin (m : Ram) (cr0 cr3 srcVa size : Nat) : Except Fault (Option (List Nat)) :=
  copyinBoucle m cr0 cr3 (size + 1) srcVa size

/-- `gdb_copyout(src_buf, dest_va, size)`: the value returned and the memory, some of which may be written before a failure. -/
def copyoutBoucle (cr0 cr3 : Nat) : Nat → List Nat → Nat → Ram → Except Fault (Int × Ram)
  | 0, _, _, _ => .error .diverge
  | k + 1, srcBuf, destVa, m =>
    if srcBuf.length = 0 then .ok (0, m)
    else
      match physAddrLookup m cr0 cr3 destVa with
      | none => .ok (-1, m)
      | some (pa, sz) =>
        let sz := if sz > srcBuf.length then srcBuf.length else sz
        copyoutBoucle cr0 cr3 k (srcBuf.drop sz) ((destVa + sz) % 2 ^ 32) (ecrireRam m pa (srcBuf.take sz))

def gdbCopyout (m : Ram) (cr0 cr3 : Nat) (srcBuf : List Nat) (destVa : Nat) : Except Fault (Int × Ram) :=
  copyoutBoucle cr0 cr3 (srcBuf.length + 1) srcBuf destVa m

/-! ## Byte by byte -/

/-- The physical address of one byte. -/
def traduit (m : Ram) (cr0 cr3 va : Nat) : Option Nat := (physAddrLookup m cr0 cr3 va).map fun x => x.1 % 2 ^ 32

/-- The bytes from `va` on, each of them looked up. -/
def octets (m : Ram) (cr0 cr3 : Nat) : Nat → Nat → Option (List Nat)
  | 0, _ => some []
  | n + 1, va =>
    (traduit m cr0 cr3 va).bind fun pa => (octets m cr0 cr3 n ((va + 1) % 2 ^ 32)).map fun d => m pa :: d

theorem and_offset4M (x : Nat) : x &&& 0x3fffff = x % 2 ^ 22 := and_mask_zero (k := 22)

/-- Bytes of one small page have the same entries, bytes of one large page the same entry of the directory. -/
theorem index_page (hi : va % 4096 + i < 4096) : (va + i) >>> 12 = va >>> 12 ∧ (va + i) >>> 22 = va >>> 22 := by
  simp only [Nat.shiftRight_eq_div_pow]
  omega

theorem index_page4M (hi : va % 2 ^ 22 + i < 2 ^ 22) : (va + i) >>> 22 = va >>> 22 := by
  simp only [Nat.shiftRight_eq_div_pow]
  omega

/-- The walk is the same for every byte of a page, and there is a byte at least. -/
theorem lookup_page (hva : va < 2 ^ 32) (h : physAddrLookup m cr0 cr3 va = some (pa, len)) :
    0 < len ∧ ∀ i < len, traduit m cr0 cr3 ((va + i) % 2 ^ 32) = some ((pa + i) % 2 ^ 32) := by
  unfold traduit
  unfold physAddrLookup at h ⊢
  dsimp only at h ⊢
  -- Without paging the address is physical.
  by_cases hpg : cr0 &&& 0x80000000 = 0
  · rw [if_pos hpg] at h
    obtain ⟨rfl, rfl⟩ := Prod.mk.inj (Option.some.inj h)
    refine ⟨by decide, fun i _ => ?_⟩
    rw [if_pos hpg, Option.map_some, Nat.mod_mod]
  rw [if_neg hpg] at h
  simp only [if_neg hpg]
  generalize hpd : cr3 &&& 0xfffff000 = pd at h ⊢
  by_cases hv : word m (pd + 4 * (va >>> 22 &&& 0x3ff)) &&& 1 = 0
  · rw [if_pos hv] at h
    cases h
  rw [if_neg hv] at h
  -- A page of 4 KiB, else one of 4 MiB: the offset stays below its size, so the upper bits do not change.
  by_cases hs : word m (pd + 4 * (va >>> 22 &&& 0x3ff)) &&& 0x80 = 0
  · rw [if_pos hs, and_offset] at h
    generalize hpt : word m (pd + 4 * (va >>> 22 &&& 0x3ff)) &&& 0xfffff000 = pt at h
    by_cases hp : word m (pt + 4 * (va >>> 12 &&& 0x3ff)) &&& 1 = 0
    · rw [if_pos hp] at h
      cases h
    rw [if_neg hp] at h
    obtain ⟨rfl, rfl⟩ := Prod.mk.inj (Option.some.inj h)
    refine ⟨Nat.sub_pos_of_lt (Nat.mod_lt _ (by decide)), fun i hi => ?_⟩
    have hr : va % 4096 < 4096 := Nat.mod_lt _ (by decide)
    have hin : va % 4096 + i < 4096 := by clear hp hs hv hpt; omega
    have hw : (va + i) % 2 ^ 32 = va + i := Nat.mod_eq_of_lt (by clear hp hs hv hpt; omega)
    have hoff : (va + i) % 4096 = va % 4096 + i := by clear hp hs hv hpt; omega
    rw [hw, (index_page hin).1, (index_page hin).2, if_neg hv, if_pos hs, hpt, if_neg hp, Option.map_some, and_offset, hoff,
      Nat.add_assoc]
  · rw [if_neg hs, and_offset4M] at h
    obtain ⟨rfl, rfl⟩ := Prod.mk.inj (Option.some.inj h)
    refine ⟨Nat.sub_pos_of_lt (Nat.mod_lt _ (by decide)), fun i hi => ?_⟩
    have hr : va % 2 ^ 22 < 2 ^ 22 := Nat.mod_lt _ (by decide)
    have hin : va % 2 ^ 22 + i < 2 ^ 22 := by clear hs hv; omega
    have hw : (va + i) % 2 ^ 32 = va + i := Nat.mod_eq_of_lt (by clear hs hv; omega)
    have hoff : (va + i) % 2 ^ 22 = va % 2 ^ 22 + i := by clear hs hv; omega
    rw [hw, index_page4M hin, if_neg hv, if_neg hs, Option.map_some, and_offset4M, hoff, Nat.add_assoc]

theorem octets_succ_none (h : traduit m cr0 cr3 va = none) (hn : 0 < n) : octets m cr0 cr3 n va = none := by
  cases n with
  | zero => omega
  | succ n => rw [octets, h, Option.bind_none]

theorem lireRam_succ (m : Ram) (pa n : Nat) : lireRam m pa (n + 1) = m (pa % 2 ^ 32) :: lireRam m (pa + 1) n := by
  unfold lireRam
  rw [List.range_succ_eq_map, List.map_cons, List.map_map]
  congr 1
  apply List.map_congr_left
  intro i _
  dsimp only [Function.comp]
  rw [Nat.add_assoc, Nat.add_comm 1]

/-- A run of bytes that are all looked up. -/
theorem octets_run (hva : va < 2 ^ 32) (h : ∀ i < len, traduit m cr0 cr3 ((va + i) % 2 ^ 32) = some ((pa + i) % 2 ^ 32)) :
    octets m cr0 cr3 (len + n) va = (octets m cr0 cr3 n ((va + len) % 2 ^ 32)).map fun d => lireRam m pa len ++ d := by
  induction len generalizing va pa with
  | zero =>
    rw [Nat.zero_add, Nat.add_zero, Nat.mod_eq_of_lt hva]
    exact Option.map_id'.symm
  | succ len ih =>
    have h₀ : traduit m cr0 cr3 va = some (pa % 2 ^ 32) := by
      have := h 0 (Nat.succ_pos len)
      rwa [Nat.add_zero, Nat.add_zero, Nat.mod_eq_of_lt hva] at this
    have h₁ : ∀ i < len, traduit m cr0 cr3 (((va + 1) % 2 ^ 32 + i) % 2 ^ 32) = some ((pa + 1 + i) % 2 ^ 32) := by
      intro i hi
      rw [Nat.mod_add_mod, Nat.add_assoc, Nat.add_assoc, Nat.add_comm 1 i]
      exact h (i + 1) (by omega)
    rw [Nat.add_right_comm, octets, h₀, Option.bind_some, ih (Nat.mod_lt _ (by decide)) h₁, Nat.mod_add_mod, Nat.add_assoc va,
      Nat.add_comm 1, lireRam_succ, Option.map_map]
    rfl

theorem copyinBoucle_octets {k : Nat} (hva : va < 2 ^ 32) (hk : n < k) : copyinBoucle m cr0 cr3 k va n = .ok (octets m cr0 cr3 n va) := by
  induction k generalizing va n with
  | zero => omega
  | succ k ih =>
    rw [copyinBoucle]
    by_cases hn : n = 0
    · rw [if_pos hn, hn]
      rfl
    rw [if_neg hn]
    cases hl : physAddrLookup m cr0 cr3 va with
    | none =>
      have ht : traduit m cr0 cr3 va = none := by rw [traduit, hl, Option.map_none]
      rw [octets_succ_none ht (Nat.pos_of_ne_zero hn)]
    | some x =>
      obtain ⟨pa, len⟩ := x
      obtain ⟨hpos, hrun⟩ := lookup_page hva hl
      dsimp only
      generalize hsz : (if len > n then n else len) = sz
      have hsz' : 0 < sz ∧ sz ≤ len ∧ sz ≤ n := by
        rw [← hsz]
        split <;> omega
      obtain ⟨r, rfl⟩ : ∃ r, n = sz + r := ⟨n - sz, by omega⟩
      rw [Nat.add_sub_cancel_left, ih (Nat.mod_lt _ (by decide)) (by omega), ok_bind,
        octets_run hva fun i hi => hrun i (by omega)]

/-- Page by page or byte by byte, the same bytes are read, and the same requests refused. -/
theorem gdbCopyin_octets (hva : va < 2 ^ 32) : gdbCopyin m cr0 cr3 va n = .ok (octets m cr0 cr3 n va) :=
  copyinBoucle_octets hva (Nat.lt_succ_self n)

/-! ## Under the kernel's map -/

theorem ecrireRam_eq (h : pa + d.length ≤ 2 ^ 32) : ecrireRam m pa d = storeAt m pa d := by
  induction d generalizing m pa with
  | nil => exact storeAt_nil.symm
  | cons y d ih =>
    rw [List.length_cons] at h
    rw [ecrireRam, ih (by omega), Nat.mod_eq_of_lt (by omega), storeAt_cons]

/-- A byte that the kernel's map has. -/
def Projete (l : Liens) (a : Nat) : Prop := LectureSeule l a ∨ LectureEcriture l a

instance (l : Liens) (a : Nat) : Decidable (Projete l a) := inferInstanceAs (Decidable (_ ∨ _))

/-- The bytes from `va` on are mapped, and the tables are not among them. -/
structure Accessible (l : Liens) (va n : Nat) : Prop where
  projete : ∀ a, va ≤ a → a < va + n → Projete l a
  horsTables : va + n ≤ l.pgdir ∨ l.pgtab + 0x40000 ≤ va

theorem Projete.lt (h : Projete l va) : va < 2 ^ 28 := by
  have h₁ := l.text
  have h₂ := l.multiboot
  have h₃ := l.bootstrapStack
  have h₄ := l.rodata
  have h₅ := l.data
  have h₆ := l.fin_le
  have h₇ := l.memEnd_eq
  unfold Projete LectureSeule LectureEcriture at h
  omega

theorem carteNoyau_isSome (ha : Alignes l) : (carteNoyau l (va / 4096)).isSome ↔ Projete l va := by
  obtain ⟨hro, hrw, hno⟩ := carteNoyau_cas ha (va / 4096)
  simp only [lectureSeule_page ha, lectureEcriture_page ha] at hro hrw hno
  unfold Projete
  by_cases hs : LectureSeule l va
  · simp [(hro hs).2, hs]
  · by_cases hw : LectureEcriture l va
    · simp [hrw hw, hw]
    · simp [hno hs hw, hs, hw]

theorem lookup_noyau (ha : Alignes l) (hpg : cr0 &&& 0x80000000 ≠ 0) (h : Represente l m₀ m (carteNoyau l)) (hva : va < 2 ^ 32) :
    physAddrLookup m cr0 l.pgdir va = if Projete l va then some (va, 0x1000 - va % 4096) else none := by
  rw [h.lookup hva hpg]
  by_cases hp : Projete l va
  · rw [if_pos ⟨hp.lt, (carteNoyau_isSome ha).2 hp⟩, if_pos hp]
  · rw [if_neg fun hc => hp ((carteNoyau_isSome ha).1 hc.2), if_neg hp]

/-- Outside of the tables, memory may change without the map changing. -/
theorem Represente.congr (h : Represente l m₀ m c) (hm : ∀ a, l.pgdir ≤ a → a < l.pgtab + 0x40000 → m' a = m a) :
    Represente l m' m' c := by
  have hdt : l.pgtab = l.pgdir + 0x1000 := by
    rw [l.pgtab_eq, l.pgdir_eq]
  refine ⟨fun i hi => ?_, fun i hi hi' => ?_, fun q hq => ?_, h.drapeaux, fun a _ => rfl⟩
  · rw [word_congr fun x hx hx' => hm x (by omega) (by omega), h.dir i hi]
  · rw [word_congr fun x hx hx' => hm x (by omega) (by omega), h.vide i hi hi']
  · rw [word_congr fun x hx hx' => hm x (by omega) (by omega), h.tab q hq]

theorem Represente.storeAt (h : Represente l m₀ m c) (hd : va + d.length ≤ l.pgdir ∨ l.pgtab + 0x40000 ≤ va) :
    Represente l (Lib.storeAt m va d) (Lib.storeAt m va d) c :=
  h.congr fun a ha ha' => storeAt_of_not_mem (by omega)

theorem octets_noyau (ha : Alignes l) (hpg : cr0 &&& 0x80000000 ≠ 0) (h : Represente l m₀ m (carteNoyau l))
    (hp : ∀ a, va ≤ a → a < va + n → Projete l a) : octets m cr0 l.pgdir n va = some (lireRam m va n) := by
  induction n generalizing va with
  | zero => rfl
  | succ n ih =>
    have h₀ : Projete l va := hp va le_rfl (by omega)
    have hlt := h₀.lt
    have ht : traduit m cr0 l.pgdir va = some va := by
      rw [traduit, lookup_noyau ha hpg h (by omega), if_pos h₀, Option.map_some, Nat.mod_eq_of_lt (by omega)]
    rw [octets, ht, Option.bind_some, Nat.mod_eq_of_lt (by omega : va + 1 < 2 ^ 32),
      ih fun a h₁ h₂ => hp a (by omega) (by omega), lireRam_succ, Nat.mod_eq_of_lt (by omega : va < 2 ^ 32)]
    rfl

theorem copyoutBoucle_noyau {k : Nat} (ha : Alignes l) (hpg : cr0 &&& 0x80000000 ≠ 0) (h : Represente l m₀ m (carteNoyau l))
    (hacc : Accessible l va d.length) (hk : d.length < k) : copyoutBoucle cr0 l.pgdir k d va m = .ok (0, storeAt m va d) := by
  -- One page at a time; the tables are not in what is written, so the map is the same afterwards.
  induction k generalizing d va m m₀ with
  | zero => omega
  | succ k ih =>
    rw [copyoutBoucle]
    by_cases hn : d.length = 0
    · rw [if_pos hn]
      obtain rfl := List.length_eq_zero_iff.1 hn
      rw [storeAt_nil]
    have h₀ : Projete l va := hacc.projete va le_rfl (by omega)
    have hlast : Projete l (va + d.length - 1) := hacc.projete _ (by omega) (by omega)
    have hlt := hlast.lt
    have hpos : va % 4096 < 4096 := Nat.mod_lt _ (by decide)
    rw [if_neg hn, lookup_noyau ha hpg h (by omega), if_pos h₀]
    dsimp only
    generalize hsz : (if 0x1000 - va % 4096 > d.length then d.length else 0x1000 - va % 4096) = sz
    have hsz' : 0 < sz ∧ sz ≤ d.length := by
      rw [← hsz]
      split <;> omega
    have htake : (d.take sz).length = sz := List.length_take_of_le hsz'.2
    have hdrop : (d.drop sz).length = d.length - sz := List.length_drop
    have hrest : Represente l (storeAt m va (d.take sz)) (storeAt m va (d.take sz)) (carteNoyau l) := by
      apply h.storeAt
      rw [htake]
      exact hacc.horsTables.imp (fun h => by omega) id
    have hacc' : Accessible l (va + sz) (d.drop sz).length := by
      refine ⟨fun a h₁ h₂ => hacc.projete a (by omega) (by omega), ?_⟩
      rw [hdrop]
      exact hacc.horsTables.imp (fun h => by omega) (fun h => by omega)
    rw [ecrireRam_eq (by omega), Nat.mod_eq_of_lt (by omega : va + sz < 2 ^ 32), ih hrest hacc' (by omega)]
    congr 2
    have hs : storeAt (storeAt m va (d.take sz)) (va + (d.take sz).length) (d.drop sz) = _ := storeAt_append
    rwa [htake, List.take_append_drop] at hs

/-- A copy to memory writes its bytes where it is told to, in the code too, and nothing else. -/
theorem gdbCopyout_noyau (ha : Alignes l) (hpg : cr0 &&& 0x80000000 ≠ 0) (h : Represente l m₀ m (carteNoyau l))
    (hacc : Accessible l va d.length) : gdbCopyout m cr0 l.pgdir d va = .ok (0, storeAt m va d) :=
  copyoutBoucle_noyau ha hpg h hacc (Nat.lt_succ_self _)

theorem gdbCopyin_noyau (ha : Alignes l) (hpg : cr0 &&& 0x80000000 ≠ 0) (h : Represente l m₀ m (carteNoyau l)) (hva : va < 2 ^ 32)
    (hp : ∀ a, va ≤ a → a < va + n → Projete l a) : gdbCopyin m cr0 l.pgdir va n = .ok (some (lireRam m va n)) := by
  rw [gdbCopyin_octets hva, octets_noyau ha hpg h hp]

/-- A byte that is not mapped has the whole copy refused. -/
theorem octets_refuse {a : Nat} (ha : Alignes l) (hpg : cr0 &&& 0x80000000 ≠ 0) (h : Represente l m₀ m (carteNoyau l))
    (h₁ : va ≤ a) (h₂ : a < va + n) (ha' : a < 2 ^ 32) (hno : ¬Projete l a) : octets m cr0 l.pgdir n va = none := by
  induction n generalizing va with
  | zero => omega
  | succ n ih =>
    by_cases hp : Projete l va
    · have hne : va ≠ a := fun he => hno (he ▸ hp)
      have hlt := hp.lt
      rw [octets, Nat.mod_eq_of_lt (by omega : va + 1 < 2 ^ 32), ih (by omega) (by omega)]
      cases traduit m cr0 l.pgdir va with
      | none => rfl
      | some pa => rfl
    · have ht : traduit m cr0 l.pgdir va = none := by
        rw [traduit, lookup_noyau ha hpg h (by omega), if_neg hp, Option.map_none]
      exact octets_succ_none ht (Nat.succ_pos n)

/-- Copies to memory, one after the other. -/
def copies (cr0 cr3 : Nat) (ws : List (Nat × List Nat)) (m : Ram) : Except Fault Ram :=
  ws.foldlM (fun m w => (gdbCopyout m cr0 cr3 w.2 w.1).map fun r => r.2) m

theorem copies_noyau {ws : List (Nat × List Nat)} (ha : Alignes l) (hpg : cr0 &&& 0x80000000 ≠ 0)
    (h : Represente l m₀ m (carteNoyau l)) (hws : ∀ w ∈ ws, Accessible l w.1 w.2.length) :
    copies cr0 l.pgdir ws m = .ok (ws.foldl (fun m w => storeAt m w.1 w.2) m) ∧
      ∃ m₁, Represente l m₁ (ws.foldl (fun m w => storeAt m w.1 w.2) m) (carteNoyau l) := by
  induction ws generalizing m m₀ with
  | nil => exact ⟨rfl, m₀, h⟩
  | cons w ws ih =>
    have hw := hws w (by simp)
    rw [copies, List.foldlM_cons, gdbCopyout_noyau ha hpg h hw]
    exact ih (h.storeAt hw.horsTables) fun w' hw' => hws w' (by simp [hw'])

/-- The debugger sees the memory of the kernel as an array of bytes: after any copies to it, a copy from it gives the bytes last put
there, and is refused if one of them is not mapped. -/
theorem memoire_debogueur {ws : List (Nat × List Nat)} (hc : earlyMmCheck l = true) (hpg : cr0 &&& 0x80000000 ≠ 0)
    (hws : ∀ w ∈ ws, Accessible l w.1 w.2.length) (hn : va + n ≤ 2 ^ 32) :
    ∃ m', copies cr0 l.pgdir ws (earlyMmMapKernel l m) = .ok m' ∧
      ((∀ i < n, Projete l (va + i)) → gdbCopyin m' cr0 l.pgdir va n =
        .ok (some (lireRam (ws.foldl (fun m w => storeAt m w.1 w.2) (earlyMmMapKernel l m)) va n))) ∧
      (∀ i < n, ¬Projete l (va + i) → gdbCopyin m' cr0 l.pgdir va n = .ok none) := by
  have ha := alignes_of_check hc
  obtain ⟨he, m₁, hr⟩ := copies_noyau ha hpg (represente_noyau (m := m)) hws
  refine ⟨_, he, fun hp => ?_, fun i hi hno => ?_⟩
  · by_cases h0 : n = 0
    · rw [h0]
      rfl
    apply gdbCopyin_noyau ha hpg hr (by omega)
    intro a h₁ h₂
    have := hp (a - va) (by omega)
    rwa [Nat.add_sub_cancel' h₁] at this
  · rw [gdbCopyin_octets (by omega), octets_refuse ha hpg hr (Nat.le_add_right va i) (by omega) (by omega) hno]

/-- A breakpoint put in the code, and read back with the byte after it. -/
theorem memoire_debogueur_point : let m : Ram := fun _ => 0
    ∃ m', copies 0x80010011 liensExemple.pgdir [(0x142abc, [0xcc])] (earlyMmMapKernel liensExemple m) = .ok m' ∧
      ((∀ i < 2, Projete liensExemple (0x142abc + i)) → gdbCopyin m' 0x80010011 liensExemple.pgdir 0x142abc 2 =
        .ok (some (lireRam ([(0x142abc, [0xcc])].foldl (fun m w => storeAt m w.1 w.2) (earlyMmMapKernel liensExemple m)) 0x142abc 2))) ∧
      (∀ i < 2, ¬Projete liensExemple (0x142abc + i) → gdbCopyin m' 0x80010011 liensExemple.pgdir 0x142abc 2 = .ok none) := by
  apply memoire_debogueur (by decide) (by decide) _ (by decide)
  intro w hw
  rw [List.mem_singleton.1 hw]
  refine ⟨fun a h₁ h₂ => .inl (.inl ?_), .inr (by decide)⟩
  have h₃ : a < 0x142abc + 1 := h₂
  show 0x142000 ≤ a ∧ a < 0x150000
  omega

end Pcsea
