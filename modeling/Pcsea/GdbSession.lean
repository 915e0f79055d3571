import Pcsea.GdbCommandes
import Pcsea.GdbSpec
import Pcsea.Nombres
/-!
# A session with gdb

`Vue` is what gdb works on, 64 bytes of registers and a flat memory, and
`Demande` what it may ask. The stub does and answers what is asked, whatever the
line does to the packets on their way.
-/

namespace Pcsea

open Lib

variable {b : Nat → Nat} {i c v n a : Nat} {d q : List Nat}

/-! ## Numbers in a command -/

def hexnum (v : Nat) : List Nat := (numeral 16 v).map hexchar

/-- What comes after a number. -/
def Separateur (c : Nat) : Prop := c = 0 ∨ c = 44 ∨ c = 58 ∨ c = 61

theorem toChar_hexchar (h : n < 16) : toChar (hexchar n) = chiffre n :=
  (by decide : ∀ n : Fin 16, toChar (hexchar n) = chiffre n) ⟨n, h⟩

theorem hexchar_pos (n : Nat) : hexchar n ≠ 0 := by
  unfold hexchar
  split <;> omega

theorem hexnum_chiffre (v : Nat) : ((hexnum v).map fun c : Nat => toChar c) = (numeral 16 v).map chiffre := by
  rw [hexnum, List.map_map]
  exact List.map_congr_left fun x hx => toChar_hexchar (numeral_lt (by decide) hx)

theorem hexnum_ne_nil (v : Nat) : hexnum v ≠ [] := fun h => numeral_ne_nil 16 v (List.map_eq_nil_iff.1 h)

theorem hexnum_length (hv : v < 2 ^ 32) : (hexnum v).length ≤ 8 := by
  rw [hexnum, List.length_map]
  exact numeral_length_le (b := 16) (n := 8) (by decide) (by decide) hv

/-- A number is read up to what is not a digit. -/
theorem strtoul_hexnum {p : List Int} (hv : v < 2 ^ 32) (hf : Fini 16 p) (hp : car p ≠ 120 ∧ car p ≠ 88) :
    strtoul ((numeral 16 v).map chiffre ++ p) 16 = (v, p) := by
  have hlt : ∀ x ∈ numeral 16 v, x < 16 := fun x hx => numeral_lt (by decide) hx
  have hw : ((numeral 16 v).map chiffre ++ p).dropWhile isspace = (numeral 16 v).map chiffre ++ p := by
    match hn : numeral 16 v, numeral_ne_nil 16 v with
    | x :: l, _ =>
      have hx := chiffre_mem (c := chiffre x) hlt (List.mem_map_of_mem (hn ▸ List.mem_cons_self))
      rw [List.map_cons, List.cons_append, List.dropWhile_cons, if_neg]
      simp only [isspace, decide_eq_true_eq]
      omega
  have hval := value_numeral (b := 16) (by decide) v
  rw [strtoul, hw]
  have hpre : prefixeBase ((numeral 16 v).map chiffre ++ p) 16 = ((numeral 16 v).map chiffre ++ p, 16) :=
    prefixeBase_chiffres hlt (numeral_ne_nil 16 v) hp (.inr (.inr rfl))
  have hb : strtoulBoucle 16 ((numeral 16 v).map chiffre ++ p) 0 = (value 16 0 (numeral 16 v), p) :=
    strtoulBoucle_spec (b := 16) (by decide) (by decide) hlt (by rwa [hval]) hf
  rw [hpre]
  dsimp only
  rw [hb, hval]

/-- The string in the buffer goes on after `d` with `c`, or ends there. -/
theorem texteEn_append (h : StandsAt (fun x => some (b x)) i (d ++ [c])) (hd : 0 ∉ d) (hi : i + d.length ≤ BUFMAX) :
    ∃ q, texteEn b i = d ++ q ∧ (q = [] ∨ c ≠ 0 ∧ ∃ r, q = c :: r) := by
  obtain ⟨h₁, h₂⟩ := standsAt_append.1 h
  rw [standsAt_some] at h₁ h₂
  have hc : b (i + d.length) = c := h₂ 0 (by simp)
  obtain ⟨k, hk⟩ := Nat.exists_eq_add_of_le (show d.length + 1 ≤ BUFMAX + 1 - i by omega)
  have hmap : (List.range d.length).map (fun j => b (i + j)) = d := by
    refine List.ext_getElem (by simp) fun j hj hj' => ?_
    rw [List.getElem_map, List.getElem_range]
    exact h₁ j hj'
  have hpos : ∀ x ∈ d, decide (x ≠ 0) = true := fun x hx => decide_eq_true fun h => hd (h ▸ hx)
  rw [texteEn, hk, List.range_add, List.range_succ, List.append_assoc, List.map_append, hmap, List.takeWhile_append_of_pos hpos,
    List.singleton_append, List.map_cons, hc]
  refine ⟨_, rfl, ?_⟩
  by_cases h0 : c = 0
  · left
    rw [List.takeWhile_cons, if_neg (by simpa using h0)]
  · right
    rw [List.takeWhile_cons, if_pos (by simpa using h0)]
    exact ⟨h0, _, rfl⟩

theorem Separateur.fini {r : List Nat} (h : Separateur c) : Fini 16 ((c :: r).map fun c : Nat => toChar c) := by
  rintro x q hq
  obtain ⟨rfl, -⟩ := List.cons.inj hq
  rcases h with rfl | rfl | rfl | rfl <;> rfl

theorem Separateur.car {r : List Nat} (h : Separateur c) :
    car ((c :: r).map fun c : Nat => toChar c) ≠ 120 ∧ car ((c :: r).map fun c : Nat => toChar c) ≠ 88 := by
  rw [List.map_cons, Pcsea.car, List.headD_cons]
  rcases h with rfl | rfl | rfl | rfl <;> decide

theorem nombre_eq (h : StandsAt (fun x => some (b x)) i (hexnum v ++ [c])) (hv : v < 2 ^ 32) (hc : Separateur c)
    (hi : i + (hexnum v).length ≤ BUFMAX) : nombre b i = (v, i + (hexnum v).length) := by
  have h0 : 0 ∉ hexnum v := fun hm => by
    obtain ⟨x, -, hx⟩ := List.mem_map.1 hm
    exact hexchar_pos x hx
  obtain ⟨q, hq, hqc⟩ := texteEn_append h h0 hi
  have hs : strtoul ((texteEn b i).map fun c : Nat => toChar c) 16 = (v, q.map fun c : Nat => toChar c) := by
    rw [hq, List.map_append, hexnum_chiffre]
    rcases hqc with rfl | ⟨-, r, rfl⟩
    · exact strtoul_hexnum hv (fun _ _ h => nomatch h) (by decide)
    · exact strtoul_hexnum hv hc.fini hc.car
  unfold nombre
  dsimp only
  rw [hs]
  dsimp only
  rw [hq, List.length_map, List.length_map, List.length_append, Nat.add_sub_cancel]

/-! ## Bytes in hexadecimal -/

theorem deuxHex_octet {x : Nat} (h : x < 256) : deuxHex (hexchar (x / 16)) (hexchar (x % 16)) = x := by
  rw [deuxHex, hex_hexchar (by omega), hex_hexchar (by omega), if_neg (by omega)]
  omega

theorem hex2bin_caracteres (h : StandsAt (fun x => some (b x)) i (caracteres true d)) (hd : ∀ x ∈ d, x < 256) :
    hex2bin b i d.length = (0, d) := by
  induction d generalizing i with
  | nil => rfl
  | cons x d ih =>
    have hx := hd x List.mem_cons_self
    rw [caracteres_cons, if_pos rfl, standsAt_append, standsAt_cons, standsAt_cons] at h
    obtain ⟨⟨h₀, h₁, -⟩, h₂⟩ := h
    rw [show i + [hexchar (x / 16), hexchar (x % 16)].length = i + 2 from rfl] at h₂
    rw [List.length_cons, hex2bin, Option.some.inj h₀, Option.some.inj h₁, deuxHex_octet hx]
    dsimp only
    rw [if_neg (by omega), ih h₂ fun y hy => hd y (List.mem_cons_of_mem x hy)]
    rfl

/-! ## What gdb asks for -/

inductive Demande where
  | lireRegs
  | ecrireRegs (r : List Nat)
  | ecrireReg (reg : Nat) (d : List Nat)
  | lire (addr len : Nat)
  | ecrire (addr : Nat) (d : List Nat)
  | ecrireBin (addr : Nat) (d : List Nat)
  | raison
  | etendu
  deriving DecidableEq, Repr

/-- The bytes that go out with an escape. -/
def Reserve (x : Nat) : Prop := x = 35 ∨ x = 36 ∨ x = 42 ∨ x = 125

instance (x : Nat) : Decidable (Reserve x) := inferInstanceAs (Decidable (_ ∨ _))

def echappe (d : List Nat) : List Nat := d.flatMap fun x => if Reserve x then [125, x ^^^ 32] else [x]

/-- The packet of a request. -/
def Demande.texte : Demande → List Nat
  | lireRegs => [103]
  | ecrireRegs r => 71 :: caracteres true r
  | ecrireReg reg d => 80 :: (hexnum reg ++ 61 :: caracteres true d)
  | lire addr len => 109 :: (hexnum addr ++ 44 :: hexnum len)
  | ecrire addr d => 77 :: (hexnum addr ++ 44 :: (hexnum d.length ++ 58 :: caracteres true d))
  | ecrireBin addr d => 88 :: (hexnum addr ++ 44 :: (hexnum (echappe d).length ++ 58 :: echappe d))
  | raison => [63]
  | etendu => [33]

/-- The machine as gdb sees it. -/
structure Vue where
  regs : Nat → Nat
  mem : Nat → Nat
  signo : Nat

/-- `OK`, and an error as its two digits. -/
def texteOk : List Nat := [79, 75]

def texteErreur (code : Nat) : List Nat := 69 :: caracteres true [code]

/-- What a request does, and its answer. -/
def Demande.fait (l : Liens) (v : Vue) : Demande → Vue × List Nat
  | lireRegs => (v, caracteres true ((List.range 64).map v.regs))
  | ecrireRegs r => ({ v with regs := storeAt v.regs 0 r }, texteOk)
  | ecrireReg reg d => ({ v with regs := storeAt v.regs (4 * reg) d }, texteOk)
  | lire addr len =>
    (v, if ∀ i < len, Projete l (addr + i) then caracteres true (lireRam v.mem addr len) else texteErreur 3)
  | ecrire addr d => ({ v with mem := storeAt v.mem addr d }, texteOk)
  | ecrireBin addr d => ({ v with mem := storeAt v.mem addr d }, texteOk)
  | raison => (v, 83 :: caracteres true [v.signo])
  | etendu => (v, texteOk)

/-- The bytes are bytes, the registers are there, what is written may be, and the answer fits. -/
def Demande.Valide (l : Liens) : Demande → Prop
  | ecrireRegs r => r.length = 64 ∧ ∀ x ∈ r, x < 256
  | ecrireReg reg d => reg < 16 ∧ d.length = 4 ∧ ∀ x ∈ d, x < 256
  | lire addr len => 0 < len ∧ len ≤ 200 ∧ addr + len ≤ 2 ^ 32
  | ecrire addr d => (∀ x ∈ d, x < 256) ∧ addr < 2 ^ 32 ∧ Accessible l addr d.length
  | ecrireBin addr d => (∀ x ∈ d, x < 256) ∧ addr < 2 ^ 32 ∧ Accessible l addr d.length
  | _ => True

/-! ## Copies into the buffer -/

theorem length_lireRam (m : Ram) (pa n : Nat) : (lireRam m pa n).length = n := by
  rw [lireRam, List.length_map, List.length_range]

/-- What `gdb_copyin` gets is put in the buffer. -/
theorem copyinDans_ok {m : Ram} {cr0 cr3 k dest : Nat} (h : copyinBoucle m cr0 cr3 k v n = .ok (some d)) (hn : dest + n ≤ BUFMAX + 1) :
    copyinDans m cr0 cr3 k b dest v n = .ok (0, storeAt b dest d) := by
  induction k generalizing b dest v n d with
  | zero => cases h
  | succ k ih =>
    rw [copyinBoucle] at h
    rw [copyinDans]
    by_cases h0 : n = 0
    · rw [if_pos h0] at h ⊢
      cases h
      rw [storeAt_nil]
    rw [if_neg h0] at h ⊢
    cases hl : physAddrLookup m cr0 cr3 v with
    | none =>
      rw [hl] at h
      cases h
    | some x =>
      obtain ⟨pa, len⟩ := x
      rw [hl] at h
      dsimp only at h ⊢
      generalize hsz : (if len > n then n else len) = sz at h ⊢
      have hle : sz ≤ n := by
        rw [← hsz]
        split <;> omega
      obtain ⟨r, hr, ho⟩ := bind_eq_ok.1 h
      obtain ⟨d', rfl, rfl⟩ := Option.map_eq_some_iff.1 (Except.ok.inj ho)
      rw [if_neg (by omega), ih hr (by omega)]
      have hs : storeAt (storeAt b dest (lireRam m pa sz)) (dest + (lireRam m pa sz).length) d' = _ := storeAt_append
      rw [← hs, length_lireRam]

theorem copyinDans_refus {m : Ram} {cr0 cr3 k dest : Nat} (h : copyinBoucle m cr0 cr3 k v n = .ok none) (hn : dest + n ≤ BUFMAX + 1) :
    ∃ b', copyinDans m cr0 cr3 k b dest v n = .ok (-1, b') := by
  induction k generalizing b dest v n with
  | zero => cases h
  | succ k ih =>
    rw [copyinBoucle] at h
    rw [copyinDans]
    by_cases h0 : n = 0
    · rw [if_pos h0] at h
      cases h
    rw [if_neg h0] at h ⊢
    cases hl : physAddrLookup m cr0 cr3 v with
    | none => exact ⟨b, rfl⟩
    | some x =>
      obtain ⟨pa, len⟩ := x
      rw [hl] at h
      dsimp only at h ⊢
      generalize hsz : (if len > n then n else len) = sz at h ⊢
      have hle : sz ≤ n := by
        rw [← hsz]
        split <;> omega
      obtain ⟨r, hr, ho⟩ := bind_eq_ok.1 h
      obtain rfl := Option.map_eq_none_iff.1 (Except.ok.inj ho)
      rw [if_neg (by omega)]
      exact ih hr (by omega)

/-! ## One request -/

variable {l : Liens} {z : Client} {s : Stub}

/-- The stub under the kernel's map, where `inbuf` does not reach the end of memory. -/
structure Noyau (l : Liens) (z : Client) (ram : Ram) : Prop where
  alignes : Alignes l
  pagination : z.cr0 &&& 0x80000000 ≠ 0
  cr3 : z.cr3 = l.pgdir
  adr : z.adr + BUFMAX < 2 ^ 32
  carte : ∃ m₀, Represente l m₀ ram (carteNoyau l)

def Stub.vue (s : Stub) : Vue := ⟨s.regs, s.ram, s.signo⟩

/-- The request is done and its answer is ready. -/
def RepondVue (l : Liens) (z : Client) (s : Stub) (d : Demande) : Prop :=
  ∃ s' frags, traite z s = .ok (s', .more, some frags) ∧ s'.vue = (d.fait l s.vue).1 ∧
    deplie (corps frags) = (d.fait l s.vue).2 ∧ Noyau l z s'.ram

theorem deplie_frags {frags : List Outfrag} (h : ∀ f ∈ frags, f.hexify = false → 42 ∉ f.data) :
    deplie (corps frags) = (frags.map fun f => caracteres f.hexify f.data).flatten := (deplie_corps h).1

theorem deplie_ok : deplie (corps [⟨[79, 75], false⟩]) = texteOk := deplie_frags (by decide)

theorem deplie_erreur (code : Nat) : deplie (corps [⟨[69], false⟩, ⟨[code], true⟩]) = texteErreur code := by
  rw [deplie_frags (by simp)]
  simp [caracteres, texteErreur]

theorem deplie_report (s : Stub) : deplie (corps (report s)) = 83 :: caracteres true [s.signo] := by
  rw [report, deplie_frags (by simp)]
  simp [caracteres]

theorem deplie_hex (d : List Nat) : deplie (corps [⟨d, true⟩]) = caracteres true d := by
  rw [deplie_frags (by simp)]
  exact List.append_nil _

theorem Contient.standsAt (h : Contient b d) : StandsAt (fun x => some (b x)) 0 (d ++ [0]) := by
  refine standsAt_append.2 ⟨standsAt_some.2 fun i hi => ?_, standsAt_some.2 fun i hi => ?_⟩
  · rw [Nat.zero_add]
    exact h.1 i hi
  · obtain rfl : i = 0 := by simpa using hi
    rw [Nat.zero_add]
    exact h.2

/-- An address, a comma and a length. -/
theorem entete {e len : Nat} {r : List Nat} (h : StandsAt (fun x => some (b x)) 1 (hexnum a ++ 44 :: (hexnum len ++ e :: r)))
    (ha : a < 2 ^ 32) (hl : len < 2 ^ 32) (he : Separateur e) (hn : (hexnum a).length + (hexnum len).length + 2 ≤ BUFMAX) :
    ∃ p p', nombre b 1 = (a, p) ∧ p ≠ 1 ∧ b p = 44 ∧ nombre b (p + 1) = (len, p') ∧ p' ≠ p + 1 ∧ b p' = e ∧
      p' + 1 = (hexnum a).length + (hexnum len).length + 3 ∧ StandsAt (fun x => some (b x)) (p' + 1) r := by
  have hpos : ∀ v, 0 < (hexnum v).length := fun v => List.length_pos_of_ne_nil (hexnum_ne_nil v)
  obtain ⟨h₁, h₂⟩ := standsAt_append.1 h
  obtain ⟨hv, h₃⟩ := standsAt_cons.1 h₂
  obtain ⟨h₄, h₅⟩ := standsAt_append.1 h₃
  obtain ⟨he', h₆⟩ := standsAt_cons.1 h₅
  have hs : ∀ {i v c}, StandsAt (fun x => some (b x)) i (hexnum v) → some (b (i + (hexnum v).length)) = some c →
      StandsAt (fun x => some (b x)) i (hexnum v ++ [c]) := fun h hc => standsAt_append.2 ⟨h, standsAt_cons.2 ⟨hc, standsAt_nil⟩⟩
  have := hpos a
  have := hpos len
  refine ⟨1 + (hexnum a).length, 1 + (hexnum a).length + 1 + (hexnum len).length, nombre_eq (hs h₁ hv) ha (.inr (.inl rfl)) (by omega),
    by omega, Option.some.inj hv, nombre_eq (hs h₄ he') hl he (by omega), by omega, Option.some.inj he', by omega, h₆⟩

theorem length_caracteres (d : List Nat) : (caracteres true d).length = d.length * 2 := by
  induction d with
  | nil => rfl
  | cons x d ih =>
    rw [caracteres_cons, if_pos rfl, List.length_append, ih]
    simp only [List.length_cons, List.length_nil]
    omega

theorem repond_lireRegs (hk : Noyau l z s.ram) (h : s.inbuf 0 = 103) : RepondVue l z s .lireRegs := by
  refine ⟨s, _, ?_, rfl, deplie_hex _, hk⟩
  rw [traite, h]
  rfl

theorem repond_raison (hk : Noyau l z s.ram) (h : s.inbuf 0 = 63) : RepondVue l z s .raison := by
  refine ⟨s, _, ?_, rfl, deplie_report s, hk⟩
  rw [traite, h]
  rfl

theorem repond_etendu (hk : Noyau l z s.ram) (h : s.inbuf 0 = 33) : RepondVue l z s .etendu := by
  refine ⟨s, _, ?_, rfl, deplie_ok, hk⟩
  rw [traite, h]
  rfl

theorem repond_ecrireRegs {r : List Nat} (hk : Noyau l z s.ram) (hv : (Demande.ecrireRegs r).Valide l)
    (h : StandsAt (fun x => some (s.inbuf x)) 0 (71 :: (caracteres true r ++ [0]))) : RepondVue l z s (.ecrireRegs r) := by
  obtain ⟨h₀, h₁⟩ := standsAt_cons.1 h
  have hb : hex2bin s.inbuf 1 64 = (0, r) := hv.1 ▸ hex2bin_caracteres (standsAt_append.1 h₁).1 hv.2
  refine ⟨{ s with regs := storeAt s.regs 0 r, regsChanged := true }, _, ?_, rfl, deplie_ok, hk⟩
  rw [traite, Option.some.inj h₀]
  dsimp only
  rw [commandeG, SIZEOF_GDB_STATE, hb]
  rfl

theorem repond_ecrireReg {reg : Nat} (hk : Noyau l z s.ram) (hv : (Demande.ecrireReg reg d).Valide l)
    (h : StandsAt (fun x => some (s.inbuf x)) 0 (80 :: (hexnum reg ++ 61 :: (caracteres true d ++ [0]))))
    (hn : (hexnum reg).length + 1 ≤ BUFMAX) : RepondVue l z s (.ecrireReg reg d) := by
  obtain ⟨hreg, hd, hx⟩ := hv
  obtain ⟨h₀, h₁⟩ := standsAt_cons.1 h
  obtain ⟨h₂, h₃⟩ := standsAt_append.1 h₁
  obtain ⟨h61, h₄⟩ := standsAt_cons.1 h₃
  have hnum : nombre s.inbuf 1 = (reg, 1 + (hexnum reg).length) :=
    nombre_eq (standsAt_append.2 ⟨h₂, standsAt_cons.2 ⟨h61, standsAt_nil⟩⟩) (by omega) (.inr (.inr (.inr rfl))) (by omega)
  have hpos := List.length_pos_of_ne_nil (hexnum_ne_nil reg)
  have hb : hex2bin s.inbuf (1 + (hexnum reg).length + 1) 4 = (0, d) := hd ▸ hex2bin_caracteres (standsAt_append.1 h₄).1 hx
  refine ⟨{ s with regs := storeAt s.regs (4 * reg) d, regsChanged := true }, _, ?_, rfl, deplie_ok, hk⟩
  rw [traite, Option.some.inj h₀]
  dsimp only
  rw [commandeP, hnum]
  dsimp only
  rw [if_neg (by rw [Option.some.inj h61]; omega), if_neg (by omega), if_neg (by rw [SIZEOF_GDB_STATE]; omega), hb]
  dsimp only
  rw [if_neg (by rw [SIZEOF_GDB_STATE]; omega), Nat.mod_eq_of_lt (by omega), Nat.mul_comm reg]
  rfl

theorem Noyau.storeAt {m : Ram} (hk : Noyau l z m) (hacc : Accessible l a d.length) : Noyau l z (storeAt m a d) := by
  obtain ⟨m₀, hr⟩ := hk.carte
  exact ⟨hk.alignes, hk.pagination, hk.cr3, hk.adr, _, hr.storeAt hacc.horsTables⟩

theorem Noyau.copyin {m : Ram} (hk : Noyau l z m) (hn : n ≤ BUFMAX + 1) (ha : a + n ≤ 2 ^ 32) (hpos : 0 < n) :
    ((∀ i < n, Projete l (a + i)) → copyinDans m z.cr0 z.cr3 (n + 1) b 0 a n = .ok (0, Lib.storeAt b 0 (lireRam m a n))) ∧
      ((¬ ∀ i < n, Projete l (a + i)) → ∃ b', copyinDans m z.cr0 z.cr3 (n + 1) b 0 a n = .ok (-1, b')) := by
  obtain ⟨m₀, hr⟩ := hk.carte
  rw [hk.cr3]
  constructor
  · intro hp
    refine copyinDans_ok (gdbCopyin_noyau hk.alignes hk.pagination hr (by omega) fun x h₁ h₂ => ?_) (by omega)
    obtain ⟨i, rfl⟩ := Nat.exists_eq_add_of_le h₁
    exact hp i (by omega)
  · intro hp
    push Not at hp
    obtain ⟨i, hi, hno⟩ := hp
    have hr : gdbCopyin m z.cr0 l.pgdir a n = _ := gdbCopyin_octets (show a < 2 ^ 32 by omega)
    rw [octets_refuse hk.alignes hk.pagination ‹_› (Nat.le_add_right a i) (by omega) (by omega) hno] at hr
    exact copyinDans_refus hr (by omega)

theorem range_storeAt (b : Nat → Nat) (d : List Nat) : (List.range d.length).map (storeAt b 0 d) = d := by
  refine List.ext_getElem (by simp) fun i _ hi => ?_
  rw [List.getElem_map, List.getElem_range, storeAt_of_mem (Nat.zero_le i) (by omega)]
  rfl

theorem repond_lire {len : Nat} (hk : Noyau l z s.ram) (hv : (Demande.lire a len).Valide l)
    (h : StandsAt (fun x => some (s.inbuf x)) 0 (109 :: (hexnum a ++ 44 :: (hexnum len ++ 0 :: []))))
    (hn : (hexnum a).length + (hexnum len).length + 2 ≤ BUFMAX) : RepondVue l z s (.lire a len) := by
  obtain ⟨hpos, hlen, hend⟩ := hv
  obtain ⟨h₀, h₁⟩ := standsAt_cons.1 h
  obtain ⟨p, p', hp, hp1, h44, hp', hp1', -⟩ := entete h₁ (by omega) (by omega) (.inl rfl) hn
  obtain ⟨houi, hnon⟩ := hk.copyin (b := s.inbuf) (a := a) (n := len) (by rw [BUFMAX]; omega) hend hpos
  have ht : traite z s = commandem z s := by
    rw [traite, Option.some.inj h₀]
    rfl
  rw [RepondVue, ht, commandem, hp]
  dsimp only
  rw [if_neg (by omega), hp']
  dsimp only
  rw [if_neg (by rw [BUFMAX]; omega)]
  by_cases hproj : ∀ i < len, Projete l (a + i)
  · rw [houi hproj, ok_bind]
    dsimp only
    rw [if_neg (by decide), if_neg (by omega)]
    refine ⟨_, _, rfl, rfl, ?_, hk⟩
    rw [deplie_hex, Demande.fait, if_pos hproj]
    have hr := range_storeAt s.inbuf (lireRam s.ram a len)
    rw [length_lireRam] at hr
    rw [hr]
    rfl
  · obtain ⟨b', hb'⟩ := hnon hproj
    rw [hb', ok_bind]
    dsimp only
    rw [if_pos (by decide)]
    refine ⟨_, _, rfl, rfl, ?_, hk⟩
    rw [deplie_erreur, Demande.fait, if_neg hproj]

theorem Noyau.copyout {m : Ram} (hk : Noyau l z m) (hacc : Accessible l a d.length) :
    gdbCopyout m z.cr0 z.cr3 d a = .ok (0, Lib.storeAt m a d) := by
  obtain ⟨m₀, hr⟩ := hk.carte
  rw [hk.cr3]
  exact gdbCopyout_noyau hk.alignes hk.pagination hr hacc

theorem repond_ecrire (hk : Noyau l z s.ram) (hv : (Demande.ecrire a d).Valide l)
    (h : StandsAt (fun x => some (s.inbuf x)) 0
      (77 :: (hexnum a ++ 44 :: (hexnum d.length ++ 58 :: (caracteres true d ++ [0])))))
    (hn : (hexnum a).length + (hexnum d.length).length + d.length * 2 + 3 ≤ BUFMAX) : RepondVue l z s (.ecrire a d) := by
  obtain ⟨hx, ha, hacc⟩ := hv
  obtain ⟨h₀, h₁⟩ := standsAt_cons.1 h
  have hB : BUFMAX = 400 := rfl
  have hadr := hk.adr
  obtain ⟨p, p', hp, hp1, h44, hp', hp1', h58, hlen, h₂⟩ := entete h₁ ha (by omega) (.inr (.inr (.inl rfl))) (by omega)
  have hb := hex2bin_caracteres (standsAt_append.1 h₂).1 hx
  refine ⟨{ s with ram := Lib.storeAt s.ram a d }, _, ?_, rfl, deplie_ok, hk.storeAt hacc⟩
  rw [traite, Option.some.inj h₀]
  dsimp only
  rw [commandeM, hp]
  dsimp only
  rw [if_neg (by omega), hp']
  dsimp only
  rw [if_neg (by omega), Nat.mod_eq_of_lt (by omega), if_neg (by omega), if_neg (by omega), hb]
  dsimp only
  rw [if_neg (by decide), hk.copyout hacc]
  rfl

theorem echappe_cons (x : Nat) (d : List Nat) : echappe (x :: d) = (if Reserve x then [125, x ^^^ 32] else [x]) ++ echappe d := rfl

theorem dequote_cons {x : Nat} (hx : x ≠ 0x7d) (d : List Nat) : dequote (x :: d) = ((dequote d).1, x :: (dequote d).2) := by
  cases d with
  | nil => exact if_neg hx
  | cons y d => rw [dequote, if_neg hx]

/-- Taking the escapes out gives the data back. -/
theorem dequote_echappe (d : List Nat) : dequote (echappe d) = (true, d) := by
  induction d with
  | nil => rfl
  | cons x d ih =>
    rw [echappe_cons]
    by_cases hx : Reserve x
    · rw [if_pos hx, List.cons_append, List.cons_append, List.nil_append, dequote, if_pos rfl, ih]
      dsimp only
      rw [Nat.xor_assoc, Nat.xor_self, Nat.xor_zero]
    · have h125 : x ≠ 0x7d := fun h => hx (.inr (.inr (.inr h)))
      rw [if_neg hx, List.singleton_append, dequote_cons h125, ih]

theorem range_standsAt (h : StandsAt (fun x => some (b x)) i d) : (List.range d.length).map (fun j => b (i + j)) = d := by
  refine List.ext_getElem (by simp) fun j _ hj => ?_
  rw [List.getElem_map, List.getElem_range]
  exact standsAt_some.1 h j hj

theorem repond_ecrireBin (hk : Noyau l z s.ram) (hv : (Demande.ecrireBin a d).Valide l)
    (h : StandsAt (fun x => some (s.inbuf x)) 0
      (88 :: (hexnum a ++ 44 :: (hexnum (echappe d).length ++ 58 :: (echappe d ++ [0])))))
    (hn : (hexnum a).length + (hexnum (echappe d).length).length + (echappe d).length + 3 ≤ BUFMAX) :
    RepondVue l z s (.ecrireBin a d) := by
  obtain ⟨-, ha, hacc⟩ := hv
  obtain ⟨h₀, h₁⟩ := standsAt_cons.1 h
  have hB : BUFMAX = 400 := rfl
  have hadr := hk.adr
  obtain ⟨p, p', hp, hp1, h44, hp', hp1', h58, hlen, h₂⟩ := entete h₁ ha (by omega) (.inr (.inr (.inl rfl))) (by omega)
  have hb := range_standsAt (standsAt_append.1 h₂).1
  refine ⟨{ s with inbuf := Lib.storeAt s.inbuf 0 d, ram := Lib.storeAt s.ram a d }, _, ?_, rfl, deplie_ok, hk.storeAt hacc⟩
  have ht : traite z s = commandeX z s := by
    rw [traite, Option.some.inj h₀]
    rfl
  have hdedans : z.adr + (p' + 1) + (echappe d).length < 2 ^ 32 := by omega
  rw [ht, commandeX, hp]
  dsimp only
  rw [if_neg (by omega), hp']
  dsimp only
  rw [if_neg (by omega), Nat.mod_eq_of_lt hdedans, if_pos hdedans, hb, dequote_echappe]
  dsimp only
  rw [if_neg (by omega), if_neg (by decide), hk.copyout hacc]
  rfl

/-- A request in the buffer is done as it says. -/
theorem repond {d : Demande} (hk : Noyau l z s.ram) (hv : d.Valide l) (hb : Contient s.inbuf d.texte) (hl : d.texte.length < BUFMAX) :
    RepondVue l z s d := by
  have h := hb.standsAt
  cases d with
  | lireRegs => exact repond_lireRegs hk (Option.some.inj (standsAt_cons.1 h).1)
  | raison => exact repond_raison hk (Option.some.inj (standsAt_cons.1 h).1)
  | etendu => exact repond_etendu hk (Option.some.inj (standsAt_cons.1 h).1)
  | ecrireRegs r => exact repond_ecrireRegs hk hv h
  | ecrireReg reg d =>
    simp only [Demande.texte, List.cons_append, List.append_assoc] at h
    refine repond_ecrireReg hk hv h ?_
    simp only [Demande.texte, List.length_cons, List.length_append] at hl
    omega
  | lire a n =>
    simp only [Demande.texte, List.cons_append, List.append_assoc] at h
    refine repond_lire hk hv h ?_
    simp only [Demande.texte, List.length_cons, List.length_append] at hl
    omega
  | ecrire a d =>
    simp only [Demande.texte, List.cons_append, List.append_assoc] at h
    refine repond_ecrire hk hv h ?_
    simp only [Demande.texte, List.length_cons, List.length_append, length_caracteres] at hl
    omega
  | ecrireBin a d =>
    simp only [Demande.texte, List.cons_append, List.append_assoc] at h
    refine repond_ecrireBin hk hv h ?_
    simp only [Demande.texte, List.length_cons, List.length_append] at hl
    omega

/-! ## On the line -/

variable {prec : Option Nat}

theorem libre_append {l : List Nat} (h : ∀ c ∈ l, c ≠ 35 ∧ c ≠ 125) (hd : ∀ {prec}, prec ≠ some 0x7d → Libre prec d)
    (hp : prec ≠ some 0x7d) : Libre prec (l ++ d) := by
  induction l generalizing prec with
  | nil => exact hd hp
  | cons c l ih =>
    obtain ⟨h₁, h₂⟩ := h c List.mem_cons_self
    exact ⟨fun hc => absurd hc h₁, ih (fun c hc => h c (List.mem_cons_of_mem _ hc)) fun hc => h₂ (Option.some.inj hc)⟩

/-- Escaped data does not end a packet. -/
theorem libre_echappe (hp : prec ≠ some 0x7d) : Libre prec (echappe d) := by
  induction d generalizing prec with
  | nil => exact hp
  | cons x d ih =>
    rw [echappe_cons]
    by_cases hx : Reserve x
    · rw [if_pos hx]
      refine ⟨fun h => absurd h (by decide), fun _ => rfl, ih fun h => ?_⟩
      rcases hx with rfl | rfl | rfl | rfl <;> exact absurd (Option.some.inj h) (by decide)
    · rw [if_neg hx]
      exact ⟨fun h => absurd (.inl h) hx, ih fun h => hx (.inr (.inr (.inr (Option.some.inj h))))⟩

theorem hexnum_mem (hc : c ∈ hexnum v) : c ≠ 35 ∧ c ≠ 125 := by
  obtain ⟨x, hx, rfl⟩ := List.mem_map.1 hc
  have := hexchar_lt (numeral_lt (by decide) hx)
  exact ⟨(hexchar_ne x).2, by omega⟩

theorem caracteres_mem (hd : ∀ x ∈ d, x < 256) (hc : c ∈ caracteres true d) : c ≠ 35 ∧ c ≠ 125 := by
  obtain ⟨x, hx, hc⟩ := List.mem_flatMap.1 hc
  have h256 := hd x hx
  have h₁ := hexchar_lt (show x / 16 < 16 by omega)
  have h₂ := hexchar_lt (show x % 16 < 16 by omega)
  simp only [List.mem_cons, List.not_mem_nil, or_false] at hc
  rcases hc with rfl | rfl
  · exact ⟨(hexchar_ne _).2, by omega⟩
  · exact ⟨(hexchar_ne _).2, by omega⟩

/-- No request ends its packet early. -/
theorem Demande.libre {d : Demande} (hv : d.Valide l) : Libre none d.texte := by
  -- `m`, `M` and `X` have the same head: two numbers and their separators.
  have hentete : ∀ {k a len : Nat}, k ≠ 35 ∧ k ≠ 125 → ∀ c ∈ k :: (hexnum a ++ 44 :: (hexnum len ++ [58])), c ≠ 35 ∧ c ≠ 125 := by
    intro k a len hk c hc
    simp only [List.mem_cons, List.mem_append, List.not_mem_nil, or_false] at hc
    rcases hc with rfl | hc | rfl | hc | rfl
    · exact hk
    · exact hexnum_mem hc
    · decide
    · exact hexnum_mem hc
    · decide
  cases d with
  | lireRegs | raison | etendu => exact libre_of_mem (by simp [texte]) nofun
  | ecrireRegs r =>
    refine libre_of_mem (fun c hc => ?_) nofun
    rcases List.mem_cons.1 hc with rfl | hc
    · decide
    · exact caracteres_mem hv.2 hc
  | ecrireReg reg d =>
    refine libre_of_mem (fun c hc => ?_) nofun
    simp only [texte, List.mem_cons, List.mem_append] at hc
    rcases hc with rfl | hc | rfl | hc
    · decide
    · exact hexnum_mem hc
    · decide
    · exact caracteres_mem hv.2.2 hc
  | lire a n =>
    refine libre_of_mem (fun c hc => ?_) nofun
    simp only [texte, List.mem_cons, List.mem_append] at hc
    rcases hc with rfl | hc | rfl | hc
    · decide
    · exact hexnum_mem hc
    · decide
    · exact hexnum_mem hc
  | ecrire a d =>
    have ht : (ecrire a d).texte = (77 :: (hexnum a ++ 44 :: (hexnum d.length ++ [58]))) ++ caracteres true d := by simp [texte]
    rw [ht]
    refine libre_of_mem (fun c hc => ?_) nofun
    rcases List.mem_append.1 hc with hc | hc
    · exact hentete (by decide) c hc
    · exact caracteres_mem hv.1 hc
  | ecrireBin a d =>
    have ht : (ecrireBin a d).texte = (88 :: (hexnum a ++ 44 :: (hexnum (echappe d).length ++ [58]))) ++ echappe d := by simp [texte]
    rw [ht]
    exact libre_append (hentete (by decide)) libre_echappe nofun

theorem hexchar_ne_deuxPoints (n : Nat) : hexchar n ≠ 58 := by
  unfold hexchar
  split <;> omega

theorem hexnum_deuxPoints {k : Nat} (hc : c ≠ 58) : (k :: (hexnum v ++ c :: d))[2]? ≠ some 58 := by
  rw [hexnum]
  match numeral 16 v, numeral_ne_nil 16 v with
  | [_], _ => simpa using hc
  | _ :: y :: _, _ => simpa using hexchar_ne_deuxPoints y

/-- No request looks as if it had sequence characters. -/
theorem Demande.sansSequence {d : Demande} (hv : d.Valide l) : d.texte[2]? ≠ some 58 := by
  cases d with
  | lireRegs | raison | etendu => exact nofun
  | ecrireRegs r =>
    match r, hv.1 with
    | x :: _, _ =>
      rw [texte, caracteres_cons, if_pos rfl]
      simpa using hexchar_ne_deuxPoints (x % 16)
  | ecrireReg reg d => exact hexnum_deuxPoints (by decide)
  | lire a n => exact hexnum_deuxPoints (by decide)
  | ecrire a d => exact hexnum_deuxPoints (by decide)
  | ecrireBin a d => exact hexnum_deuxPoints (by decide)

/-- A request and what the line does to it: the copies it spoils, the noise before the good one, and what gdb answers before it
gets the reply right. -/
structure Echange where
  demande : Demande
  mauvaises : List Trame
  bruit : List Nat
  refus : List Nat
  mauvaises_fausses : ∀ x ∈ mauvaises, ¬ x.Juste
  bruit_libre : ∀ c ∈ bruit, c % 128 ≠ 36
  refus_refuse : ∀ c ∈ refus, c % 128 ≠ 43
  texte_length : demande.texte.length < BUFMAX

/-- What comes in for a packet. -/
def arrive (mauvaises : List Trame) (bruit d : List Nat) : List Nat :=
  mauvaises.flatMap Trame.octets ++ (bruit ++ 36 :: (d ++ [35, hexchar (d.sum % 256 / 16), hexchar (d.sum % 256 % 16)]))

def Echange.ligne (e : Echange) : List Nat := arrive e.mauvaises e.bruit e.demande.texte ++ (e.refus ++ [43])

/-- What goes out is a refusal for each spoilt copy, a `+`, and the answer as many times as gdb wants it. Two characters may come
after the `+`, when there was a `:` in the buffer. -/
def Echange.Repondu (e : Echange) (reponse out : List Nat) : Prop :=
  ∃ frags suite, suite.length ≤ 2 ∧ deplie (corps frags) = reponse ∧
    out = List.replicate e.mauvaises.length 45 ++ 43 :: suite ++ (List.replicate (e.refus.length + 1) (paquet frags)).flatten

theorem accuse_suite (b : Nat → Nat) : ∃ suite, suite.length ≤ 2 ∧ accuse b = 43 :: suite := by
  unfold accuse
  split
  · exact ⟨[b 0, b 1], Nat.le_refl 2, rfl⟩
  · exact ⟨[], Nat.zero_le 2, rfl⟩

/-- A command arrives in the buffer. -/
theorem getpacket_arrive {mauvaises : List Trame} {bruit : List Nat} (hm : ∀ x ∈ mauvaises, ¬ x.Juste)
    (hb : ∀ c ∈ bruit, c % 128 ≠ 36) (hd : Libre none d) (hl : d.length < BUFMAX) (hs : d[2]? ≠ some 58) (q : List Nat) :
    ∃ b' suite, suite.length ≤ 2 ∧ Contient b' d ∧
      getpacket b (arrive mauvaises bruit d ++ q) = some (b', List.replicate mauvaises.length 45 ++ 43 :: suite, q) := by
  obtain ⟨suite, hlen, ha⟩ := accuse_suite (tampon (apresRefus b mauvaises) d)
  have hc := recu_contient (apresRefus b mauvaises) hl fun h => absurd h hs
  rw [commande, if_neg hs] at hc
  have hg := getpacket_eq b (s := q) hm (trame_juste bruit hb hd hl)
  refine ⟨_, suite, hlen, hc, ?_⟩
  rw [arrive, List.append_assoc, ← ha]
  exact hg

/-- A turn does one request. -/
theorem tour_echange {e : Echange} (hk : Noyau l z s.ram) (hv : e.demande.Valide l) (q : List Nat) :
    ∃ s' out, tour z s (e.ligne ++ q) = .ok (some (s', .more, out, q)) ∧ s'.vue = (e.demande.fait l s.vue).1 ∧
      e.Repondu (e.demande.fait l s.vue).2 out ∧ Noyau l z s'.ram := by
  obtain ⟨b', suite, hlen, hc, hg⟩ := getpacket_arrive (b := s.inbuf) e.mauvaises_fausses e.bruit_libre (Demande.libre hv)
    e.texte_length (Demande.sansSequence hv) (e.refus ++ 43 :: q)
  have hq : e.ligne ++ q = arrive e.mauvaises e.bruit e.demande.texte ++ (e.refus ++ 43 :: q) := by
    rw [Echange.ligne, List.append_assoc, List.append_assoc]
    rfl
  obtain ⟨s', frags, ht, hvue, hd, hk'⟩ := repond (s := { s with inbuf := b', connected := true }) hk hv hc e.texte_length
  refine ⟨s', _, ?_, hvue, ⟨frags, suite, hlen, hd, rfl⟩, hk'⟩
  rw [hq, tour, hg]
  dsimp only
  rw [ht, ok_bind]
  dsimp only
  rw [putfrags_refus e.refus_refuse]
  rfl

/-! ## A whole session -/

/-- Requests one after the other: the machine after them and the answers. -/
def Vue.session (l : Liens) (v : Vue) : List Demande → Vue × List (List Nat)
  | [] => (v, [])
  | d :: ds => ((session l (d.fait l v).1 ds).1, (d.fait l v).2 :: (session l (d.fait l v).1 ds).2)

/-- What goes out over several turns. -/
def Repondus : List Echange → List (List Nat) → List Nat → Prop
  | [], [], out => out = []
  | e :: es, r :: rs, out => ∃ o out', out = o ++ out' ∧ e.Repondu r o ∧ Repondus es rs out'
  | _, _, _ => False

/-- What a run of the loop adds to what comes after it. -/
def ajoute (out : List Nat) (r : Option (Stub × GdbAction × List Nat × List Nat)) : Option (Stub × GdbAction × List Nat × List Nat) :=
  r.map fun x => (x.1, x.2.1, out ++ x.2.2.1, x.2.2.2)

theorem ajoute_append (out out' : List Nat) (r : Option (Stub × GdbAction × List Nat × List Nat)) :
    ajoute out (ajoute out' r) = ajoute (out ++ out') r := by
  cases r with
  | none => rfl
  | some x =>
    simp only [ajoute, Option.map_some, List.append_assoc]

theorem converseBoucle_more {s' : Stub} {ligne ligne' out : List Nat} (h : tour z s ligne = .ok (some (s', .more, out, ligne'))) :
    converseBoucle z (n + 1) s ligne = (converseBoucle z n s' ligne').map (ajoute out) := by
  rw [converseBoucle, h]
  show (converseBoucle z n s' ligne' >>= fun r => .ok (ajoute out r)) = _
  cases converseBoucle z n s' ligne' <;> rfl

theorem converseBoucle_echanges {es : List Echange} (hk : Noyau l z s.ram) (hv : ∀ e ∈ es, e.demande.Valide l) (q : List Nat) :
    ∃ s' out, (∀ n, converseBoucle z (es.length + n) s (es.flatMap Echange.ligne ++ q) =
        (converseBoucle z n s' q).map (ajoute out)) ∧
      s'.vue = (s.vue.session l (es.map Echange.demande)).1 ∧
      Repondus es (s.vue.session l (es.map Echange.demande)).2 out ∧ Noyau l z s'.ram := by
  induction es generalizing s with
  | nil =>
    refine ⟨s, [], fun n => ?_, rfl, rfl, hk⟩
    rw [List.length_nil, Nat.zero_add, List.flatMap_nil, List.nil_append]
    match converseBoucle z n s q with
    | .error _ => rfl
    | .ok none => rfl
    | .ok (some _) => rfl
  | cons e es ih =>
    obtain ⟨s₁, o, ht, hvue, hr, hk₁⟩ := tour_echange hk (hv e List.mem_cons_self) (es.flatMap Echange.ligne ++ q)
    obtain ⟨s', out, hs, hvue', hr', hk'⟩ := ih hk₁ fun e he => hv e (List.mem_cons_of_mem _ he)
    rw [hvue] at hvue' hr'
    refine ⟨s', o ++ out, fun n => ?_, hvue', ⟨o, out, rfl, hr, hr'⟩, hk'⟩
    rw [List.length_cons, Nat.add_right_comm, List.flatMap_cons, List.append_assoc, converseBoucle_more ht, hs]
    match converseBoucle z n s' q with
    | .error _ => rfl
    | .ok r => exact congrArg Except.ok (ajoute_append o out r)

/-! ## The program goes on -/

/-- `c` or `s`, from `addr` if there is one. -/
structure RepriseGdb where
  pas : Bool
  addr : Option Nat
  mauvaises : List Trame
  bruit : List Nat
  addr_lt : ∀ a ∈ addr, a < 2 ^ 32
  mauvaises_fausses : ∀ x ∈ mauvaises, ¬ x.Juste
  bruit_libre : ∀ c ∈ bruit, c % 128 ≠ 36

def RepriseGdb.texte (r : RepriseGdb) : List Nat := (if r.pas then 115 else 99) :: (r.addr.map hexnum).getD []

/-- The registers the program goes on with. -/
def RepriseGdb.regs (r : RepriseGdb) (regs : Nat → Nat) : Nat → Nat :=
  gdbSetTraceFlag r.pas (match r.addr with
    | some a => putWord regs 32 a
    | none => regs)

theorem nombre_vide (h : b i = 0) : nombre b i = (0, i) := by
  have ht : texteEn b i = [] := by
    rw [texteEn]
    cases BUFMAX + 1 - i with
    | zero => rfl
    | succ k => rw [List.range_succ_eq_map, List.map_cons, Nat.add_zero, h, List.takeWhile_cons, if_neg (by decide)]
  rw [nombre, ht]
  rfl

theorem Demande.fait_octets {v : Vue} {d : Demande} (h : ∀ i, v.regs i < 256) (hv : d.Valide l) (i : Nat) : (d.fait l v).1.regs i < 256 := by
  have hstore : ∀ {a r}, (∀ x ∈ r, x < 256) → storeAt v.regs a r i < 256 := by
    intro a r hr
    unfold storeAt
    split
    · exact hr _ (List.getElem_mem _)
    · exact h i
  cases d with
  | ecrireRegs r => exact hstore hv.2
  | ecrireReg reg d => exact hstore hv.2.2
  | lireRegs | lire | ecrire | ecrireBin | raison | etendu => exact h i

theorem Vue.session_octets {v : Vue} {ds : List Demande} (h : ∀ i, v.regs i < 256) (hv : ∀ d ∈ ds, d.Valide l) (i : Nat) :
    (v.session l ds).1.regs i < 256 := by
  induction ds generalizing v with
  | nil => exact h i
  | cons d ds ih =>
    exact ih (fun j => Demande.fait_octets h (hv d List.mem_cons_self) j) fun d hd => hv d (List.mem_cons_of_mem _ hd)

theorem reprend_eq {r : RepriseGdb} (hreg : ∀ i, s.regs i < 256) (hb : Contient s.inbuf r.texte) :
    ∃ s', reprend s r.pas 1 0 = (s', .cont, none) ∧ s'.vue = ⟨r.regs s.regs, s.ram, 0⟩ := by
  have h₁ := (standsAt_cons.1 hb.standsAt).2
  unfold reprend RepriseGdb.regs
  cases ha : r.addr with
  | none =>
    rw [ha] at h₁
    rw [nombre_vide (Option.some.inj (standsAt_cons.1 h₁).1)]
    exact ⟨_, rfl, rfl⟩
  | some a =>
    rw [ha] at h₁
    have hlt := r.addr_lt a ha
    have hlen := hexnum_length hlt
    rw [nombre_eq h₁ hlt (.inl rfl) (by rw [BUFMAX]; omega)]
    have hpos := List.length_pos_of_ne_nil (hexnum_ne_nil a)
    dsimp only
    by_cases he : a = word s.regs 32
    · rw [if_neg fun h => h.2 he, he, putWord_word hreg]
      exact ⟨_, rfl, rfl⟩
    · rw [if_pos ⟨by omega, he⟩]
      exact ⟨_, rfl, rfl⟩

theorem traite_reprise {pas : Bool} (h : s.inbuf 0 = if pas then 115 else 99) : traite z s = .ok (reprend s pas 1 0) := by
  have hc : commandec s = reprend s pas 1 0 := by
    rw [commandec, h]
    cases pas <;> rfl
  rw [← hc, traite, h]
  cases pas <;> rfl

theorem tour_reprise {r : RepriseGdb} (hreg : ∀ i, s.regs i < 256) (q : List Nat) :
    ∃ s' suite, suite.length ≤ 2 ∧ tour z s (arrive r.mauvaises r.bruit r.texte ++ q) =
        .ok (some (s', .cont, List.replicate r.mauvaises.length 45 ++ 43 :: suite, q)) ∧
      s'.vue = ⟨r.regs s.regs, s.ram, 0⟩ := by
  have hmem : ∀ c ∈ (r.addr.map hexnum).getD [], c ≠ 35 ∧ c ≠ 125 ∧ c ≠ 58 := by
    cases r.addr with
    | none => exact nofun
    | some a =>
      intro c hc
      obtain ⟨x, -, rfl⟩ := List.mem_map.1 hc
      exact ⟨(hexnum_mem hc).1, (hexnum_mem hc).2, hexchar_ne_deuxPoints x⟩
  have hlibre : Libre none r.texte := by
    refine libre_of_mem (fun c hc => ?_) nofun
    rcases List.mem_cons.1 hc with rfl | hc
    · split <;> decide
    · exact ⟨(hmem c hc).1, (hmem c hc).2.1⟩
  have hlen : r.texte.length < BUFMAX := by
    rw [RepriseGdb.texte, List.length_cons]
    cases ha : r.addr with
    | none => decide
    | some a =>
      have := hexnum_length (r.addr_lt a ha)
      rw [Option.map_some, Option.getD_some, BUFMAX]
      omega
  -- What follows the letter is a number, so no sequence number is read.
  have hseq : r.texte[2]? ≠ some 58 := fun h => (hmem 58 (List.mem_of_getElem? (i := 1) h)).2.2 rfl
  obtain ⟨b', suite, hs, hc, hg⟩ := getpacket_arrive (b := s.inbuf) r.mauvaises_fausses r.bruit_libre hlibre hlen hseq q
  obtain ⟨s', hr, hvue⟩ := reprend_eq (s := { s with inbuf := b', connected := true }) hreg hc
  have h₀ : b' 0 = if r.pas then 115 else 99 := hc.1 0 (Nat.succ_pos _)
  refine ⟨s', suite, hs, ?_, hvue⟩
  rw [tour, hg]
  dsimp only
  rw [traite_reprise h₀, hr]
  rfl

theorem converseBoucle_fin {s' : Stub} {action : GdbAction} {ligne ligne' out : List Nat}
    (h : tour z s ligne = .ok (some (s', action, out, ligne'))) (ha : action ≠ .more) :
    converseBoucle z (n + 1) s ligne = .ok (some (s', action, out, ligne')) := by
  rw [converseBoucle, h]
  exact if_neg ha

theorem echanges_length (es : List Echange) : es.length ≤ (es.flatMap Echange.ligne).length := by
  induction es with
  | nil => exact Nat.le_refl 0
  | cons e es ih =>
    rw [List.flatMap_cons, List.length_append, List.length_cons, Echange.ligne, List.length_append, List.length_append,
      List.length_singleton]
    omega

/-- The stub reports the stop, does the requests one after the other on the registers and the memory of the program, answers each of
them, and lets the program go on, whatever the line does to the packets. -/
theorem gdbSerialConverse_session {es : List Echange} {r : RepriseGdb} {refus : List Nat} (hk : Noyau l z s.ram) (hreg : ∀ i, s.regs i < 256)
    (hv : ∀ e ∈ es, e.demande.Valide l) (hr : ∀ c ∈ refus, c % 128 ≠ 43) (q : List Nat) :
    ∃ s' frags out suite, suite.length ≤ 2 ∧ deplie (corps frags) = 83 :: caracteres true [s.signo] ∧
      Repondus es (s.vue.session l (es.map Echange.demande)).2 out ∧
      gdbSerialConverse z s (refus ++ 43 :: (es.flatMap Echange.ligne ++ (arrive r.mauvaises r.bruit r.texte ++ q))) =
        .ok (some (s', .cont, (List.replicate (refus.length + 1) (paquet frags)).flatten ++ (out ++
          (List.replicate r.mauvaises.length 45 ++ 43 :: suite)), q)) ∧
      s'.vue = ⟨r.regs (s.vue.session l (es.map Echange.demande)).1.regs, (s.vue.session l (es.map Echange.demande)).1.mem, 0⟩ := by
  obtain ⟨s₁, out, hb, hvue, hout, hk₁⟩ := converseBoucle_echanges (s := { s with regsChanged := false }) hk hv
    (arrive r.mauvaises r.bruit r.texte ++ q)
  replace hvue : s₁.vue = (s.vue.session l (es.map Echange.demande)).1 := hvue
  have hreg₁ : ∀ i, s₁.regs i < 256 := by
    intro i
    show s₁.vue.regs i < 256
    rw [hvue]
    refine Vue.session_octets (v := s.vue) hreg (fun d hd => ?_) i
    obtain ⟨e, he, rfl⟩ := List.mem_map.1 hd
    exact hv e he
  obtain ⟨s', suite, hs, ht, hvue'⟩ := tour_reprise (z := z) hreg₁ q
  refine ⟨s', report s, out, suite, hs, deplie_report s, hout, ?_, ?_⟩
  -- The loop has as many turns as bytes, and each exchange takes at least one byte.
  · obtain ⟨k, hk⟩ := Nat.exists_eq_add_of_le (echanges_length es)
    have hlen : (es.flatMap Echange.ligne ++ (arrive r.mauvaises r.bruit r.texte ++ q)).length + 1 =
        es.length + (k + (arrive r.mauvaises r.bruit r.texte ++ q).length + 1) := by
      rw [List.length_append, hk]
      omega
    rw [gdbSerialConverse, putfrags_refus hr]
    dsimp only
    rw [hlen, hb, converseBoucle_fin ht nofun]
    rfl
  · rw [hvue', ← hvue]
    rfl

/-! A breakpoint is put in the code, one copy of the packet being spoilt, and read back; the program goes on. -/

def clientExemple : Client := ⟨0x80010011, liensExemple.pgdir, 0x104f00⟩

def ramExemple : Ram := earlyMmMapKernel liensExemple fun _ => 0

def stubExemple : Stub := ⟨fun _ => 0, fun _ => 0, true, 5, false, false, ramExemple⟩

theorem stubExemple_ram : stubExemple.ram = ramExemple := by simp only [stubExemple]

theorem noyau_exemple : Noyau liensExemple clientExemple stubExemple.ram where
  alignes := alignes_of_check (by decide)
  pagination := by
    show 0x80010011 &&& 0x80000000 ≠ 0
    decide
  cr3 := rfl
  adr := by
    show 0x104f00 + 400 < 2 ^ 32
    omega
  carte := by
    rw [stubExemple_ram, ramExemple]
    exact ⟨_, represente_noyau⟩

theorem mauvaises_exemple : ∀ x ∈ [trameG 54 56], ¬ x.Juste := by decide

theorem bruit_exemple : ∀ c ∈ [43], c % 128 ≠ 36 := by decide

theorem refus_exemple : ∀ c ∈ [45], c % 128 ≠ 43 := by decide

theorem texte_ecrire_exemple : (Demande.ecrire 0x142abc [0xcc]).texte.length < BUFMAX := by
  have h₁ := hexnum_length (v := 0x142abc) (by decide)
  have h₂ := hexnum_length (v := [0xcc].length) (by decide)
  simp only [Demande.texte, List.length_cons, List.length_append, length_caracteres, List.length_nil, BUFMAX] at h₂ ⊢
  omega

theorem texte_lire_exemple : (Demande.lire 0x142abc 2).texte.length < BUFMAX := by
  have h₁ := hexnum_length (v := 0x142abc) (by decide)
  have h₂ := hexnum_length (v := 2) (by decide)
  simp only [Demande.texte, List.length_cons, List.length_append, BUFMAX]
  omega

theorem addr_exemple : ∀ a ∈ (none : Option Nat), a < 2 ^ 32 := nofun

def sessionExemple : List Echange :=
  [⟨.ecrire 0x142abc [0xcc], [trameG 54 56], [43], [45], mauvaises_exemple, bruit_exemple, refus_exemple, texte_ecrire_exemple⟩,
   ⟨.lire 0x142abc 2, [], [], [], List.forall_mem_nil _, List.forall_mem_nil _, List.forall_mem_nil _, texte_lire_exemple⟩]

def repriseExemple : RepriseGdb :=
  ⟨false, none, [], [], addr_exemple, List.forall_mem_nil _, List.forall_mem_nil _⟩

theorem sessionExemple_valide : ∀ e ∈ sessionExemple, e.demande.Valide liensExemple := by
  intro e he
  rcases List.mem_cons.1 he with rfl | he
  · refine ⟨by decide, by decide, fun a h₁ h₂ => .inl (.inl ?_), .inr (by decide)⟩
    have h₃ : a < 0x142abc + 1 := h₂
    show 0x142000 ≤ a ∧ a < 0x150000
    omega
  · rw [List.mem_singleton.1 he]
    exact ⟨by decide, by decide, by decide⟩

theorem gdbSerialConverse_session_point : ∃ s' frags out suite, suite.length ≤ 2 ∧ deplie (corps frags) = 83 :: caracteres true [5] ∧
    Repondus sessionExemple (stubExemple.vue.session liensExemple (sessionExemple.map Echange.demande)).2 out ∧
    gdbSerialConverse clientExemple stubExemple
        ([] ++ 43 :: (sessionExemple.flatMap Echange.ligne ++ (arrive [] [] repriseExemple.texte ++ []))) =
      .ok (some (s', .cont, (List.replicate 1 (paquet frags)).flatten ++ (out ++ (List.replicate 0 45 ++ 43 :: suite)), [])) ∧
    s'.vue = ⟨repriseExemple.regs (stubExemple.vue.session liensExemple (sessionExemple.map Echange.demande)).1.regs,
      (stubExemple.vue.session liensExemple (sessionExemple.map Echange.demande)).1.mem, 0⟩ :=
  gdbSerialConverse_session (r := repriseExemple) noyau_exemple (fun _ => Nat.zero_lt_succ 255) sessionExemple_valide
    (fun _ h => absurd h List.not_mem_nil) []

end Pcsea
