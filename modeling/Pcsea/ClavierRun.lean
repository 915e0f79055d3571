import Pcsea.CarteClavier
import Pcsea.ClavierSpec
/-!
# The keyboard over whole runs

From the start of the kernel, a modifier is on while a key that is this modifier
is held, no byte leads the driver out of its tables, and a text typed on the
keyboard of `defkeymap.c` is the text that is read.
-/

namespace Pcsea

open Lib

namespace Clavier

variable {T : Keymap} {s s' : Clavier} {k v n c scancode prev : Nat} {up : Bool}

/-! ## The keyboard of the kernel -/

def cartes : List (List Nat) := [plainMap, shiftMap, altgrMap, ctrlMap, altgrCtrlMap, altMap, ctrlAltMap]

theorem keyMaps_mem {i : Nat} {l : List Nat} (h : keyMaps i = some l) : l ∈ cartes := by
  unfold keyMaps at h
  split at h <;> cases h <;> simp [cartes]

theorem cartes_length : ∀ l ∈ cartes, l.length = 128 := by decide +kernel

/-- Every entry of the seven tables can be followed, and is the modifier that it is in the first of them. -/
theorem cartes_regulieres : ∀ l ∈ cartes, ∀ k < 128,
    legal (l.getD k K_HOLE / 256 - 0xf0) (l.getD k K_HOLE % 256) = true ∧
      modifieur (l.getD k K_HOLE) = modifieur (plainMap.getD k K_HOLE) := by decide +kernel

theorem defkeymap_entree {i : Nat} {m : Nat → Nat} (h : defkeymap.keyMaps i = some m) (k : Nat) :
    legal (m k / 256 - 0xf0) (m k % 256) = true ∧ modifieur (m k) = modDe defkeymap k := by
  obtain ⟨l, hl, rfl⟩ := Option.map_eq_some_iff.1 h
  have hmem := keyMaps_mem hl
  by_cases hk : k < 128
  · exact cartes_regulieres l hmem k hk
  · have hhole : ∀ l ∈ cartes, l.getD k K_HOLE = K_HOLE := fun l hl =>
      List.getD_eq_default _ _ (by rw [cartes_length l hl]; omega)
    show legal (l.getD k K_HOLE / 256 - 0xf0) (l.getD k K_HOLE % 256) = true ∧
      modifieur (l.getD k K_HOLE) = modifieur (plainMap.getD k K_HOLE)
    rw [hhole l hmem, hhole plainMap (by simp [cartes])]
    decide

theorem defkeymap_reguliere : Reguliere defkeymap where
  plain := rfl
  sens _ _ k h := (defkeymap_entree h k).1
  mods _ _ k h := (defkeymap_entree h k).2

/-! ## The modifiers are the keys that are held -/

/-- The modifiers are those of the keys that are down, each counted. -/
structure Juste (T : Keymap) (s : Clavier) : Prop where
  kDown : ∀ v, s.kDown v = compte T s.keyDown v NR_KEYS
  bits : ∀ v, s.shiftState.testBit v = decide (s.kDown v ≠ 0)

theorem Juste.of_tenu (h : Juste T s) (ht : s'.tenu = s.tenu) : Juste T s' := by
  have h₁ : s'.kDown = s.kDown := (congrArg Clavier.kDown ht :)
  have h₂ : s'.keyDown = s.keyDown := (congrArg Clavier.keyDown ht :)
  have h₃ : s'.shiftState = s.shiftState := (congrArg Clavier.shiftState ht :)
  constructor
  · rw [h₁, h₂]
    exact h.kDown
  · rw [h₁, h₃]
    exact h.bits

theorem relacheVu_eq (h : up = true → s.keyDown k = true) : s.relacheVu k up = up := by
  cases up with
  | false => rfl
  | true => simp [relacheVu, h rfl]

/-- The count that a modifier gets is that of the keys that are down after it. -/
theorem compte_shift (hs : Borne s) (hj : Juste T s) (hk : k < 128) (hup : up = true → s.keyDown k = true)
    (hr : (s.presse k up).rep = false) (hv : modDe T k = some v) :
    (if up then s.kDown v - 1 else (s.kDown v + 1) % 256) = compte T (s.presse k up).keyDown v NR_KEYS := by
  have hn : NR_KEYS = 256 := rfl
  rw [hj.kDown]
  cases up with
  | true =>
    have hc := compte_relache (n := NR_KEYS) hv (hup rfl) (by omega)
    show compte T s.keyDown v NR_KEYS - 1 = compte T (Function.update s.keyDown k false) v NR_KEYS
    omega
  | false =>
    have hd : s.keyDown k = false := by simpa [presse] using hr
    have hc := compte_presse (n := NR_KEYS) hv hd
    have hle := compte_le (T := T) (v := v) (n := NR_KEYS) hs.touches
    rw [if_pos (by omega)] at hc
    show (compte T s.keyDown v NR_KEYS + 1) % 256 = compte T (Function.update s.keyDown k true) v NR_KEYS
    omega

theorem Agi.juste (hT : Reguliere T) (hs : Borne s) (hj : Juste T s) (hk : k < 128) (hup : up = true → s.keyDown k = true)
    (h : Agi T k up (s.presse k up) s') : Juste T s' := by
  rcases h.effet hT (hs.presse up hk) with ⟨hnone, ht⟩ | ⟨st, rfl, hst⟩ | ⟨v, hv, ⟨hr, rfl⟩ | ⟨hr, ht⟩⟩
  · refine Juste.of_tenu (s := s.presse k up) ⟨fun v => ?_, hj.bits⟩ ht
    exact (hj.kDown v).trans (compte_muette (by rw [hnone]; simp)).symm
  · exact ⟨fun v => rfl, hst⟩
  · -- a key that repeats was down already
    obtain ⟨h₁, h₂⟩ : up = false ∧ s.keyDown k = true := by simpa [presse] using hr
    have hkeys : (s.presse k up).keyDown = s.keyDown := by
      have he := Function.update_eq_self k s.keyDown
      rw [h₂] at he
      rw [h₁]
      exact he
    exact ⟨fun v => by rw [hkeys]; exact hj.kDown v, hj.bits⟩
  · refine Juste.of_tenu ?_ ht
    have hn := compte_shift hs hj hk hup hr hv
    change (if up then (s.presse k up).kDown v - 1 else ((s.presse k up).kDown v + 1) % 256) = _ at hn
    rw [hn]
    constructor
    · intro i
      by_cases hi : i = v
      · rw [hi]
        exact Function.update_self v _ _
      · refine (Function.update_of_ne hi _ _).trans ((hj.kDown i).trans (compte_muette ?_).symm)
        rw [hv]
        exact fun he => hi (Option.some.inj he).symm
    · intro i
      rw [bascule_testBit ((hs.presse up hk).shift.trans (by decide))]
      by_cases hi : v = i
      · subst hi
        rw [if_pos rfl]
        show _ = decide (Function.update (s.presse k up).kDown v _ v ≠ 0)
        rw [Function.update_self]
      · rw [if_neg hi]
        show (s.presse k up).shiftState.testBit i = decide (Function.update (s.presse k up).kDown v _ i ≠ 0)
        rw [Function.update_of_ne (Ne.symm hi)]
        exact hj.bits i

/-! ## From bytes to keys -/

/-- The keys go down and up in this order. -/
def joue (T : Keymap) (s : Clavier) (es : List (Nat × Bool)) : Except Fault Clavier := es.foldlM (evenement T) s

/-- The bytes that `do_scancode` does not drop. -/
def utiles (octets : List Nat) : List Nat := octets.filter fun b => b ≠ 0 ∧ b ≠ 0xff

theorem translate_some {t : Codes} (h : kbdTranslate t scancode prev = (some k, n)) : k < 128 ∧ n = 0 := by
  have hm : scancode % 128 < 128 := Nat.mod_lt _ (by decide)
  unfold kbdTranslate at h
  split at h
  · cases h
  split at h
  · cases h
  dsimp only at h
  split at h
  · split at h
    · split at h
      · cases h
      split at h
      · cases h
        exact ⟨by decide, rfl⟩
      · cases h
    split at h
    · cases h
    split at h
    · cases h
      exact ⟨t.e0_lt _, rfl⟩
    · cases h
  split at h
  · split at h
    · cases h
    · cases h
      exact ⟨t.high_lt _, rfl⟩
  · cases h
    exact ⟨hm, rfl⟩

theorem decode_lt {t : Codes} {l : List Nat} : ∀ e ∈ (decode t prev l).1, e.1 < 128 := by
  induction l generalizing prev with
  | nil => exact fun e he => nomatch he
  | cons b l ih =>
    rcases ht : kbdTranslate t b prev with ⟨_ | k, n⟩
    · rw [decode_none ht]
      exact ih
    · rw [decode_some ht]
      exact List.forall_mem_cons.2 ⟨(translate_some ht).1, ih⟩

theorem Pret.sansPrefixe (hs : Pret s) : { s with prevScancode := 0 } = s := by
  rw [← hs.prefixe]

theorem Pret.pasBrut (hs : Pret s) : decide (s.kbdmode = .raw) = false := by
  rw [hs.mode]
  rfl

theorem doScancode_drop (hs : Pret s) (h : n = 0 ∨ n = 0xff) (p : Nat) :
    doScancode T { s with prevScancode := p } n = .ok { s with prevScancode := p } := by
  unfold doScancode
  rw [if_pos hs.initialise]
  exact if_neg (by omega)

theorem doScancode_none (hs : Pret s) (hb : n < 256) (h0 : n ≠ 0) (h255 : n ≠ 0xff) {p p' : Nat}
    (ht : kbdTranslate T.codes n p = (none, p')) :
    doScancode T { s with prevScancode := p } n = .ok { s with prevScancode := p' } := by
  unfold doScancode
  rw [if_pos hs.initialise]
  dsimp only
  rw [if_pos ⟨h0, h255⟩, Nat.mod_eq_of_lt hb, handleScancode]
  dsimp only
  rw [hs.pasBrut, if_neg Bool.false_ne_true, ht]
  exact congrArg Except.ok (kbdBh_self hs.lumieres)

theorem doScancode_some (hs : Pret s) (hb : n < 256) (h0 : n ≠ 0) (h255 : n ≠ 0xff) {p p' : Nat}
    (ht : kbdTranslate T.codes n p = (some k, p')) :
    doScancode T { s with prevScancode := p } n = evenement T s (k, decide (128 ≤ n)) := by
  obtain ⟨-, rfl⟩ := translate_some ht
  have hd : (!decide (n < 128)) = decide (128 ≤ n) := by
    rw [← decide_not]
    simp
  unfold doScancode
  rw [if_pos hs.initialise]
  dsimp only
  rw [if_pos ⟨h0, h255⟩, Nat.mod_eq_of_lt hb, handleScancode]
  dsimp only
  rw [hs.pasBrut, if_neg Bool.false_ne_true, ht, hd]
  dsimp only
  rw [evenement, hs.sansPrefixe]

/-- What the driver does with bytes is what it does with the keys they decode to. -/
theorem doScancodes_decode {l : List Nat} (hT : Reguliere T) (hs : Pret s) (hl : ∀ b ∈ l, b < 256) (p : Nat) :
    doScancodes T { s with prevScancode := p } l = (joue T s (decode T.codes p (utiles l)).1).map fun s' =>
      { s' with prevScancode := (decode T.codes p (utiles l)).2 } := by
  -- Byte by byte; a byte that gives no key only changes the prefix.
  induction l generalizing s p with
  | nil => rfl
  | cons b l ih =>
    rw [List.forall_mem_cons] at hl
    unfold doScancodes at ih ⊢
    rw [List.foldlM_cons]
    by_cases hb : b = 0 ∨ b = 0xff
    · have hu : utiles (b :: l) = utiles l := List.filter_cons_of_neg (by simpa using fun h => hb.resolve_left h)
      rw [doScancode_drop hs hb, ok_bind, hu]
      exact ih hs hl.2 p
    · have hu : utiles (b :: l) = b :: utiles l := List.filter_cons_of_pos (by simpa [not_or] using hb)
      rw [not_or] at hb
      rw [hu]
      rcases ht : kbdTranslate T.codes b p with ⟨_ | k, p'⟩
      · rw [doScancode_none hs hl.1 hb.1 hb.2 ht, ok_bind, decode_none ht]
        exact ih hs hl.2 p'
      · obtain ⟨hk, rfl⟩ := translate_some ht
        rw [doScancode_some hs hl.1 hb.1 hb.2 ht, decode_some ht]
        dsimp only
        unfold joue at ih ⊢
        rw [List.foldlM_cons]
        rcases evenement_cases (e := (k, decide (128 ≤ b))) hT hs hk with ⟨-, he⟩ | ⟨-, s₁, s', he, hs', -⟩
        · rw [he]
          rfl
        · rw [he, ok_bind, ok_bind]
          have h := ih hs' hl.2 0
          rwa [hs'.sansPrefixe] at h

theorem joue_cons {e : Nat × Bool} {es : List (Nat × Bool)} : joue T s (e :: es) = evenement T s e >>= fun s => joue T s es := rfl

/-- Between two keys the driver is ready for the next. -/
theorem joue_pret {es : List (Nat × Bool)} (hT : Reguliere T) (hs : Pret s) (hes : ∀ e ∈ es, e.1 < 128) (ho : joue T s es = .ok s') :
    Pret s' := by
  induction es generalizing s with
  | nil =>
    obtain rfl := Except.ok.inj ho
    exact hs
  | cons e es ih =>
    rw [List.forall_mem_cons] at hes
    obtain ⟨s₁, h₁, ho⟩ := bind_eq_ok.1 (joue_cons ▸ ho)
    rcases evenement_cases hT hs hes.1 with ⟨-, he⟩ | ⟨-, s₂, s₃, he, hs', -⟩
    · rw [he] at h₁
      cases h₁
    · rw [he] at h₁
      obtain rfl := Except.ok.inj h₁
      exact ih hs' hes.2 ho

theorem evenements_lt {fs : List Frappe} (hf : ∀ f ∈ fs, f.Valide T.codes) : ∀ e ∈ fs.flatMap (Frappe.evenements T.codes), e.1 < 128 := by
  intro e he
  obtain ⟨f, hfm, he⟩ := List.mem_flatMap.1 he
  cases f with
  | touche k up =>
    rw [List.mem_singleton.1 he]
    exact (Touche.keycode_pos (hf _ hfm)).2
  | fauxShift droit up => cases he

/-- The driver once `keyboard_init` has run. -/
def depart : Clavier := kbdInit { boot with initialise := true }

theorem depart_pret : Pret depart where
  touches k hk := nomatch hk
  shift := by decide
  lock := rfl
  slock := rfl
  initialise := rfl
  prefixe := rfl
  lumieres := rfl
  mode := rfl
  repete := by decide

/-- The bytes of a keyboard, among which there may be zeros and 0xff, do what its keys do. -/
theorem doScancodes_frappes {octets : List Nat} {fs : List Frappe} (hT : Reguliere T) (hs : Pret s) (ho : ∀ b ∈ octets, b < 256)
    (hf : ∀ f ∈ fs, f.Valide T.codes) (h : utiles octets = fs.flatMap Frappe.octets) :
    doScancodes T s octets = joue T s (fs.flatMap (Frappe.evenements T.codes)) := by
  have hd := doScancodes_decode hT hs ho 0
  rw [hs.sansPrefixe, h, decode_frappes hf] at hd
  rw [hd]
  cases hj : joue T s (fs.flatMap (Frappe.evenements T.codes)) with
  | error e => rfl
  | ok s' => exact congrArg Except.ok (joue_pret hT hs (evenements_lt hf) hj).sansPrefixe

theorem doScancodes_frappes_pause :
    doScancodes defkeymap depart [0, 0xe0, 0x2a, 0xe0, 0x48, 0xff, 0xe1, 0x1d, 0x45] = joue defkeymap depart [(103, false), (119, false)] :=
  @doScancodes_frappes defkeymap depart [0, 0xe0, 0x2a, 0xe0, 0x48, 0xff, 0xe1, 0x1d, 0x45]
    [.fauxShift false false, .touche (.etendue 0x48) false, .touche .pause false] defkeymap_reguliere depart_pret (by decide)
    (by
      intro f hf
      simp only [List.mem_cons, List.not_mem_nil, or_false] at hf
      rcases hf with rfl | rfl | rfl
      · trivial
      · exact ⟨by decide, by decide, by decide, by decide, by decide, by decide, show e0Keys.getD 0x48 0 ≠ 0 by decide⟩
      · trivial)
    (by decide)

/-! ## From the start -/

theorem depart_juste (T : Keymap) : Juste T depart where
  kDown _ := (Nat.count_of_forall_not fun _ _ hk => nomatch hk.1).symm
  bits := Nat.zero_testBit

/-- The first byte starts the driver. -/
theorem doScancodes_boot {octets : List Nat} (h : octets ≠ []) : doScancodes T boot octets = doScancodes T depart octets := by
  cases octets with
  | nil => exact absurd rfl h
  | cons b l => rfl

/-! ## Whole runs -/

/-- The keys that are down after these events. -/
def tenues (es : List (Nat × Bool)) (d : Nat → Bool) : Nat → Bool := es.foldl (fun d e => Function.update d e.1 (!e.2)) d

/-- A key is released when it is down. -/
def Suivie : (Nat → Bool) → List (Nat × Bool) → Prop
  | _, [] => True
  | d, e :: es => (e.2 = true → d e.1 = true) ∧ Suivie (Function.update d e.1 (!e.2)) es

theorem evenement_juste {e : Nat × Bool} (hT : Reguliere T) (hs : Pret s) (hj : Juste T s) (hk : e.1 < 128)
    (hup : e.2 = true → s.keyDown e.1 = true) (ho : evenement T s e = .ok s') :
    Pret s' ∧ Juste T s' ∧ s'.keyDown = Function.update s.keyDown e.1 (!e.2) := by
  rcases evenement_cases hT hs hk with ⟨-, he⟩ | ⟨-, s₁, s₂, he, hs', ha, ht⟩
  · rw [he] at ho
    cases ho
  · obtain rfl := Except.ok.inj (he.symm.trans ho)
    rw [relacheVu_eq hup] at ha
    have hc := ha.cadre hT (hs.toBorne.presse e.2 hk)
    have h₁ : s₂.keyDown = s₁.keyDown := (congrArg Clavier.keyDown ht :)
    have h₂ : s₁.keyDown = (s.presse e.1 e.2).keyDown := (congrArg Clavier.keyDown hc :)
    have hj₁ := ha.juste hT hs.toBorne hj hk hup
    exact ⟨hs', Juste.of_tenu (s := { s₁ with slockstate := 0 }) ⟨hj₁.kDown, hj₁.bits⟩ ht, h₁.trans h₂⟩

theorem joue_juste {es : List (Nat × Bool)} (hT : Reguliere T) (hs : Pret s) (hj : Juste T s) (hes : ∀ e ∈ es, e.1 < 128)
    (hsuivi : Suivie s.keyDown es) (ho : joue T s es = .ok s') : Juste T s' ∧ s'.keyDown = tenues es s.keyDown := by
  induction es generalizing s with
  | nil =>
    obtain rfl := Except.ok.inj ho
    exact ⟨hj, rfl⟩
  | cons e es ih =>
    rw [List.forall_mem_cons] at hes
    obtain ⟨s₁, h₁, ho⟩ := bind_eq_ok.1 (joue_cons ▸ ho)
    obtain ⟨hs₁, hj₁, hd⟩ := evenement_juste hT hs hj hes.1 hsuivi.1 h₁
    obtain ⟨hj', hd'⟩ := ih hs₁ hj₁ hes.2 (by rw [hd]; exact hsuivi.2) ho
    exact ⟨hj', by rw [hd', hd]; rfl⟩

/-- From the start of the kernel, and as long as the keyboard releases the keys it pressed, a modifier is on just when a key that is this
modifier is down, and `k_down` counts these keys: whatever the keymaps under which they went down and up. -/
theorem modificateurs_tenus {octets : List Nat} {fs : List Frappe} (hT : Reguliere T) (ho : ∀ b ∈ octets, b < 256)
    (hf : ∀ f ∈ fs, f.Valide T.codes) (h : utiles octets = fs.flatMap Frappe.octets)
    (hsuivi : Suivie (fun _ => false) (fs.flatMap (Frappe.evenements T.codes))) (hr : doScancodes T boot octets = .ok s) (v : Nat) :
    s.kDown v = compte T (tenues (fs.flatMap (Frappe.evenements T.codes)) fun _ => false) v NR_KEYS ∧
      (s.shiftState.testBit v = true ↔
        ∃ k < NR_KEYS, tenues (fs.flatMap (Frappe.evenements T.codes)) (fun _ => false) k = true ∧ modDe T k = some v) := by
  have hj : ∀ d, Juste T s → s.keyDown = d → s.kDown v = compte T d v NR_KEYS ∧
      (s.shiftState.testBit v = true ↔ ∃ k < NR_KEYS, d k = true ∧ modDe T k = some v) := by
    intro d hj hd
    rw [hj.bits, hj.kDown, hd, decide_eq_true_iff]
    exact ⟨rfl, Nat.count_ne_iff_exists⟩
  by_cases hnil : octets = []
  · subst hnil
    obtain rfl := Except.ok.inj hr
    have he : fs.flatMap (Frappe.evenements T.codes) = [] := by
      have hd := decode_frappes hf
      rw [← h] at hd
      exact (congrArg Prod.fst hd).symm
    rw [he]
    exact hj _ ⟨(depart_juste T).kDown, (depart_juste T).bits⟩ rfl
  · rw [doScancodes_boot hnil, doScancodes_frappes hT depart_pret ho hf h] at hr
    obtain ⟨hjuste, hd⟩ := joue_juste hT depart_pret (depart_juste T) (evenements_lt hf) hsuivi hr
    exact hj _ hjuste hd

theorem modificateurs_tenus_shift : ∃ s, doScancodes defkeymap boot [0x1d, 0x2a, 0x9d] = .ok s ∧
    s.kDown 0 = compte defkeymap (tenues [(29, false), (42, false), (29, true)] fun _ => false) 0 NR_KEYS ∧
    (s.shiftState.testBit 0 = true ↔
      ∃ k < NR_KEYS, tenues [(29, false), (42, false), (29, true)] (fun _ => false) k = true ∧ modDe defkeymap k = some 0) := by
  have hok : (doScancodes defkeymap boot [0x1d, 0x2a, 0x9d]).isOk = true := by decide +kernel
  cases hr : doScancodes defkeymap boot [0x1d, 0x2a, 0x9d] with
  | error x =>
    rw [hr] at hok
    cases hok
  | ok s =>
    refine ⟨s, rfl, @modificateurs_tenus defkeymap s [0x1d, 0x2a, 0x9d]
      [.touche (.simple 0x1d) false, .touche (.simple 0x2a) false, .touche (.simple 0x1d) true] defkeymap_reguliere (by decide) ?_
      (by decide) ⟨nofun, nofun, fun _ => rfl, trivial⟩ hr 0⟩
    intro f hf
    simp only [List.mem_cons, List.not_mem_nil, or_false] at hf
    rcases hf with rfl | rfl | rfl <;> exact ⟨by decide, by decide⟩

/-! ## What can go wrong -/

theorem joue_eq_error {es : List (Nat × Bool)} {x : Fault} : joue T s es = .error x ↔
    ∃ avant e apres s', es = avant ++ e :: apres ∧ joue T s avant = .ok s' ∧ evenement T s' e = .error x := by
  -- The first event that faults, or one after it.
  induction es generalizing s with
  | nil => exact ⟨fun h => (nomatch h), fun ⟨avant, e, apres, s', h, _⟩ => by cases avant <;> cases h⟩
  | cons e es ih =>
    rw [joue_cons]
    cases he : evenement T s e with
    | error y =>
      rw [error_bind]
      constructor
      · intro h
        exact ⟨[], e, es, s, rfl, rfl, he.trans h⟩
      · rintro ⟨_ | ⟨e', avant⟩, f, apres, s', h, h₁, h₂⟩
        · obtain ⟨rfl, -⟩ := List.cons.inj h
          obtain rfl := Except.ok.inj h₁
          exact he.symm.trans h₂
        · obtain ⟨rfl, -⟩ := List.cons.inj h
          rw [joue_cons, he] at h₁
          cases h₁
    | ok s₁ =>
      rw [ok_bind, ih]
      constructor
      · rintro ⟨avant, f, apres, s', rfl, h₁, h₂⟩
        exact ⟨e :: avant, f, apres, s', rfl, by rw [joue_cons, he, ok_bind, h₁], h₂⟩
      · rintro ⟨_ | ⟨e', avant⟩, f, apres, s', h, h₁, h₂⟩
        · obtain ⟨rfl, -⟩ := List.cons.inj h
          obtain rfl := Except.ok.inj h₁
          rw [he] at h₂
          cases h₂
        · obtain ⟨rfl, rfl⟩ := List.cons.inj h
          rw [joue_cons, he, ok_bind] at h₁
          exact ⟨avant, f, apres, s', rfl, h₁, h₂⟩

/-- Whatever bytes come, from the start of the kernel, the driver does not read beyond a table: it stops only at a digit typed with Alt
held that takes the number beyond an `int`, and there it does. -/
theorem doScancodes_sures {octets : List Nat} {x : Fault} (hT : Reguliere T) (ho : ∀ b ∈ octets, b < 256) :
    doScancodes T boot octets = .error x ↔ x = .intOverflow ∧ ∃ avant e apres s,
      (decode T.codes 0 (utiles octets)).1 = avant ++ e :: apres ∧ joue T depart avant = .ok s ∧ Depasse T e s := by
  have hd := doScancodes_decode hT depart_pret ho 0
  rw [depart_pret.sansPrefixe] at hd
  have hboot : doScancodes T boot octets = .error x ↔ joue T depart (decode T.codes 0 (utiles octets)).1 = .error x := by
    by_cases hnil : octets = []
    · subst hnil
      exact ⟨fun h => (nomatch h), fun h => (nomatch h)⟩
    · rw [doScancodes_boot hnil, hd]
      cases joue T depart (decode T.codes 0 (utiles octets)).1 with
      | error y => exact Iff.rfl
      | ok s' => exact ⟨fun h => (nomatch h), fun h => (nomatch h)⟩
  have hlt : ∀ e ∈ (decode T.codes 0 (utiles octets)).1, e.1 < 128 := decode_lt
  -- A run stops at its first event that faults, from a state that is still in order.
  rw [hboot, joue_eq_error]
  constructor
  · rintro ⟨avant, e, apres, s, h, h₁, h₂⟩
    rw [h] at hlt
    have hs := joue_pret hT depart_pret (fun e he => hlt e (List.mem_append_left _ he)) h₁
    rcases evenement_cases hT hs (hlt e (by simp)) with ⟨hdep, he⟩ | ⟨-, s₁, s', he, -⟩
    · exact ⟨Except.error.inj (h₂.symm.trans he), avant, e, apres, s, h, h₁, hdep⟩
    · rw [he] at h₂
      cases h₂
  · rintro ⟨rfl, avant, e, apres, s, h, h₁, hdep⟩
    rw [h] at hlt
    have hs := joue_pret hT depart_pret (fun e he => hlt e (List.mem_append_left _ he)) h₁
    rcases evenement_cases hT hs (hlt e (by simp)) with ⟨-, he⟩ | ⟨hno, -⟩
    · exact ⟨avant, e, apres, s, h, h₁, he⟩
    · exact absurd hdep hno

/-- Alt goes down, then `n` times the key 9 of the keypad goes down and up. -/
def neufs (n : Nat) : List Nat := 0x38 :: (List.replicate n [0x49, 0xc9]).flatten

/-- Nine digits 9 are an `int`, ten are not. -/
theorem doScancodes_sures_pave : (∃ s, doScancodes defkeymap boot (neufs 9) = .ok s) ∧
    doScancodes defkeymap boot (neufs 10) = .error .intOverflow ∧
    ∃ avant e apres s, (decode codesInit 0 (utiles (neufs 10))).1 = avant ++ e :: apres ∧
      joue defkeymap depart avant = .ok s ∧ Depasse defkeymap e s := by
  refine ⟨⟨_, rfl⟩, rfl, ?_⟩
  exact ((doScancodes_sures defkeymap_reguliere (by decide)).1 rfl).2

/-! ## Typing -/

/-- Nothing is held, locked or pending. -/
structure Repos (s : Clavier) : Prop extends Pret s where
  levees : s.keyDown = fun _ => false
  compteurs : s.kDown = fun _ => 0
  plain : s.shiftState = 0
  rep : s.rep = false
  pave : s.npadch = none
  accent : s.diacr = 0
  morte : s.deadKeyNext = false
  caps : s.vcKbdLed VC_CAPSLOCK = false

/-- The entry of a character. -/
def Latin (keysym c : Nat) : Prop := (keysym / 256 = 0xf0 ∨ keysym / 256 = 0xfb) ∧ keysym % 256 = c

/-- A character key, when CapsLock is off. -/
theorem agit_latin {m : Nat → Nat} (hs : Borne s) (hcaps : s.vcKbdLed VC_CAPSLOCK = false) (hm : T.keyMaps s.shiftState = some m)
    (h : Latin (m k) c) : agit T k up false s = .ok { doSelf T c up s with slockstate := 0 } := by
  have hsens : sensDe T m s.shiftState k s = (KT_LATIN, m k) := by
    unfold sensDe
    dsimp only
    rcases h.1 with h₀ | h₁₁
    · rw [h₀]
      rfl
    · rw [h₁₁, hcaps]
      rfl
  have hf : 0xf0 ≤ m k / 256 := by
    have := h.1
    omega
  rw [agit_map hs hm hf, hsens, ← h.2]
  rfl

theorem doSelf_presse (hacc : s.diacr = 0) (hm : s.deadKeyNext = false) (hc : c ≠ 0) (h : c < 256) :
    doSelf T c false s = { s with sortie := s.sortie ++ [c] } := by
  have hk : List.takeWhile (fun x : Nat => decide (x ≠ 0)) [c % 256] = [c] := by
    rw [Nat.mod_eq_of_lt h]
    simp [hc]
  unfold doSelf
  rw [if_neg Bool.false_ne_true, if_neg (not_not.2 hacc)]
  dsimp only
  rw [if_neg (by simp [hm]), putQueue, keyboardData, hk]

theorem evenement_agit (hs : Pret s) : evenement T s (k, up) = (agit T k (s.relacheVu k up) false (s.presse k up)).map kbdBh := by
  rw [evenement, recoit_eq hs.mode, hs.repete, Bool.or_true, if_pos rfl]

theorem Pret.presse (hs : Pret s) (up : Bool) (hk : k < 128) (l : List Nat) : Pret { s.presse k up with sortie := l } where
  toBorne := (hs.toBorne.presse up hk).of_tenu rfl
  initialise := hs.initialise
  prefixe := hs.prefixe
  lumieres := hs.lumieres
  mode := hs.mode
  repete := hs.repete

theorem presse_touche {m : Nat → Nat} (hs : Pret s) (hk : k < 128) (hacc : s.diacr = 0) (hmort : s.deadKeyNext = false)
    (hcaps : s.vcKbdLed VC_CAPSLOCK = false) (hm : T.keyMaps s.shiftState = some m) (h : Latin (m k) c) (hc : c ≠ 0) :
    evenement T s (k, false) = .ok { s.presse k false with sortie := s.sortie ++ [c] } := by
  have hlt : c < 256 := by
    rw [← h.2]
    exact Nat.mod_lt _ (by decide)
  have ha : agit T k false false (s.presse k false) = _ := agit_latin (hs.toBorne.presse false hk) hcaps hm h
  rw [evenement_agit hs]
  show Except.map kbdBh (agit T k false false (s.presse k false)) = _
  rw [ha, doSelf_presse (s := s.presse k false) hacc hmort hc hlt]
  refine congrArg Except.ok ((kbdBh_self ?_).trans ?_)
  · exact hs.lumieres
  · simp [Clavier.presse, hs.slock]

theorem relache_touche {m : Nat → Nat} (hs : Pret s) (hk : k < 128) (hd : s.keyDown k = true)
    (hcaps : s.vcKbdLed VC_CAPSLOCK = false) (hm : T.keyMaps s.shiftState = some m) (h : Latin (m k) c) :
    evenement T s (k, true) = .ok (s.presse k true) := by
  have ha : agit T k true false (s.presse k true) = _ := agit_latin (hs.toBorne.presse true hk) hcaps hm h
  rw [evenement_agit hs, relacheVu_eq fun _ => hd, ha, doSelf, if_pos rfl]
  refine congrArg Except.ok ((kbdBh_self ?_).trans ?_)
  · exact hs.lumieres
  · simp [Clavier.presse, hs.slock]

/-- A character key that is pressed and released. -/
theorem joue_touche {m : Nat → Nat} (hs : Pret s) (hk : k < 128) (hd : s.keyDown k = false) (hrep : s.rep = false)
    (hacc : s.diacr = 0) (hmort : s.deadKeyNext = false) (hcaps : s.vcKbdLed VC_CAPSLOCK = false)
    (hm : T.keyMaps s.shiftState = some m) (h : Latin (m k) c) (hc : c ≠ 0) (es : List (Nat × Bool)) :
    joue T s ((k, false) :: (k, true) :: es) = joue T { s with sortie := s.sortie ++ [c] } es := by
  have hself : Function.update s.keyDown k false = s.keyDown := by
    rw [← hd, Function.update_eq_self]
  have hdown : (s.presse k false).keyDown k = true := by simp [Clavier.presse]
  have hb := relache_touche (T := T) (hs.presse false hk (s.sortie ++ [c])) hk hdown hcaps hm h
  rw [joue_cons, presse_touche hs hk hacc hmort hcaps hm h hc, ok_bind, joue_cons, hb, ok_bind]
  simp [Clavier.presse, hrep, hself]

/-! A modifier is held around them. -/

theorem agit_modifieur {m : Nat → Nat} (hs : Borne s) (hm : T.keyMaps s.shiftState = some m) (h : modifieur (m k) = some v) :
    agit T k up false s = (doShift v up s).map fun s' => { s' with slockstate := 0 } := by
  unfold modifieur at h
  split at h
  · next h₇ =>
    have hsens : sensDe T m s.shiftState k s = (KT_SHIFT, m k) := by
      unfold sensDe
      dsimp only
      rw [h₇]
      rfl
    rw [agit_map hs hm (by omega), hsens, Option.some.inj h]
    rfl
  · cases h

/-- The driver at rest, but for a modifier. -/
def maintenu (s : Clavier) (k v : Nat) (l : List Nat) : Clavier :=
  { s with
    keyDown := Function.update s.keyDown k true, kDown := Function.update s.kDown v 1, shiftState := 1 <<< v, sortie := l }

theorem presse_modifieur {m : Nat → Nat} (hs : Repos s) (hk : k < 128) (hv : v < 8) (hm : T.keyMaps 0 = some m)
    (h : modifieur (m k) = some v) : evenement T s (k, false) = .ok (s.maintenu k v s.sortie) := by
  have hm' : T.keyMaps (s.presse k false).shiftState = some m := by
    rw [← hm]
    exact congrArg T.keyMaps hs.plain
  have hr : (s.presse k false).rep = false := by simp [Clavier.presse, hs.levees]
  rw [evenement_agit hs.toPret]
  show Except.map kbdBh (agit T k false false (s.presse k false)) = _
  rw [agit_modifieur (hs.toBorne.presse false hk) hm' h, doShift_eq false hr hv]
  refine congrArg Except.ok ((kbdBh_self ?_).trans ?_)
  · exact hs.lumieres
  · simp [maintenu, bascule, Clavier.presse, hs.levees, hs.compteurs, hs.plain, hs.rep, hs.slock]

theorem relache_modifieur {m : Nat → Nat} (hs : Repos s) (hk : k < 128) (hv : v < 8) (hm : T.keyMaps (1 <<< v) = some m)
    (h : modifieur (m k) = some v) (l : List Nat) (hp : Pret (s.maintenu k v l)) :
    evenement T (s.maintenu k v l) (k, true) = .ok { s with sortie := l } := by
  have hbits : ∀ v < 8, (1 <<< v) &&& (0xffffffff ^^^ 1 <<< v) = 0 := by decide
  have hbit := hbits v hv
  have hd : (s.maintenu k v l).keyDown k = true := by simp [Clavier.maintenu]
  have hself : Function.update s.keyDown k false = s.keyDown := by
    rw [hs.levees]
    exact Function.update_eq_self k fun _ => false
  have hself' : Function.update s.kDown v 0 = s.kDown := by
    rw [hs.compteurs]
    exact Function.update_eq_self v fun _ => 0
  have hb : bascule v 0 ((s.maintenu k v l).presse k true) = { s with sortie := l } := by
    simp [bascule, maintenu, Clavier.presse, hbit, hself, hself', hs.rep, hs.plain]
  have hn : ((s.maintenu k v l).presse k true).kDown v - 1 = 0 := by simp [maintenu, Clavier.presse]
  have hvide : videNpadch { s with sortie := l } = { s with sortie := l } := by
    unfold videNpadch
    rw [hs.pave]
  rw [evenement_agit hp, relacheVu_eq fun _ => hd, agit_modifieur (hp.toBorne.presse true hk) hm h,
    doShift_eq true rfl hv, if_pos rfl, hn, hb, hvide, ite_self]
  refine congrArg Except.ok ((kbdBh_self ?_).trans ?_)
  · exact hs.lumieres
  · simp [hs.slock]

theorem Repos.maintenu (hs : Repos s) (hk : k < 128) (hv : v < 8) (l : List Nat) : Pret (s.maintenu k v l) where
  touches i hi := (hs.toBorne.presse false hk).touches i hi
  shift := by
    show 1 <<< v < 256
    rw [Nat.one_shiftLeft]
    exact Nat.pow_lt_pow_right (by decide) hv
  lock := hs.lock
  slock := hs.slock
  initialise := hs.initialise
  prefixe := hs.prefixe
  lumieres := hs.lumieres
  mode := hs.mode
  repete := hs.repete

/-- A character under a modifier. -/
theorem joue_accord {m m' : Nat → Nat} {j : Nat} (hT : Reguliere T) (hs : Repos s) (hj : j < 128) (hk : k < 128) (hjk : k ≠ j)
    (hv : modDe T j = some v) (hm : T.keyMaps 0 = some m) (hm' : T.keyMaps (1 <<< v) = some m') (h : Latin (m' k) c) (hc : c ≠ 0) :
    joue T s [(j, false), (k, false), (k, true), (j, true)] = .ok { s with sortie := s.sortie ++ [c] } := by
  have hv8 := hT.lt hv
  have hd : (s.maintenu j v s.sortie).keyDown k = false := by
    simp [Clavier.maintenu, Function.update_of_ne hjk, hs.levees]
  rw [joue_cons, presse_modifieur hs hj hv8 hm ((hT.mods _ _ j hm).trans hv), ok_bind,
    joue_touche (hs.maintenu hj hv8 s.sortie) hk hd hs.rep hs.accent hs.morte hs.caps hm' h hc, joue_cons]
  have hr := relache_modifieur hs hj hv8 hm' ((hT.mods _ _ j hm').trans hv) (s.sortie ++ [c]) (hs.maintenu hj hv8 _)
  refine (congrArg (· >>= fun s => joue T s []) hr).trans ?_
  rfl

/-! ## A text -/

/-- The key below 89 that has this character in a keymap. -/
def cherche (m : List Nat) (c : Nat) : Option Nat :=
  (List.range SC_LIM).find? fun k =>
    decide (0 < k) && ((m.getD k K_HOLE / 256 == 0xf0 || m.getD k K_HOLE / 256 == 0xfb) && m.getD k K_HOLE % 256 == c)

/-- A key that is pressed and released, with another one held if need be. -/
def tape (tenue : Option Touche) (k : Nat) : List Frappe :=
  match tenue with
  | none => [.touche (.simple k) false, .touche (.simple k) true]
  | some j => [.touche j false, .touche (.simple k) false, .touche (.simple k) true, .touche j true]

/-- How a character is typed: on its own, with the left Shift, or with AltGr. -/
def frappesDe (c : Nat) : List Frappe :=
  match cherche plainMap c, cherche shiftMap c, cherche altgrMap c with
  | some k, _, _ => tape none k
  | none, some k, _ => tape (some (.simple 42)) k
  | none, none, some k => tape (some (.etendue 0x38)) k
  | none, none, none => []

/-- The bytes of the keyboard for a text. -/
def saisie (texte : List Nat) : List Nat := (texte.flatMap frappesDe).flatMap Frappe.octets

/-- The visible characters of ASCII and the blank are all there. -/
theorem cherche_ascii : ∀ c < 127, 32 ≤ c →
    (cherche plainMap c).isSome || (cherche shiftMap c).isSome || (cherche altgrMap c).isSome := by decide +kernel

theorem cherche_some {m : List Nat} (h : cherche m c = some k) : 0 < k ∧ k < SC_LIM ∧ Latin (m.getD k K_HOLE) c := by
  have hmem := List.mem_range.1 (List.mem_of_find?_eq_some h)
  have hp := List.find?_some h
  simp only [Bool.and_eq_true, Bool.or_eq_true, beq_iff_eq, decide_eq_true_eq] at hp
  exact ⟨hp.1, hmem, hp.2.1, hp.2.2⟩

theorem Repos.tape (hs : Repos s) (l : List Nat) : Repos { s with sortie := l } where
  touches := hs.touches
  shift := hs.shift
  lock := hs.lock
  slock := hs.slock
  initialise := hs.initialise
  prefixe := hs.prefixe
  lumieres := hs.lumieres
  mode := hs.mode
  repete := hs.repete
  levees := hs.levees
  compteurs := hs.compteurs
  plain := hs.plain
  rep := hs.rep
  pave := hs.pave
  accent := hs.accent
  morte := hs.morte
  caps := hs.caps

theorem depart_repos : Repos depart where
  toPret := depart_pret
  levees := rfl
  compteurs := rfl
  plain := rfl
  rep := rfl
  pave := rfl
  accent := rfl
  morte := rfl
  caps := by decide

theorem etendue_valide : Touche.Valide codesInit (.etendue 0x38) := by
  refine ⟨by decide, by decide, by decide, by decide, by decide, by decide, ?_⟩
  show e0Keys.getD 0x38 0 ≠ 0
  decide

/-- The keys of a character exist, and the driver reads it. -/
theorem frappesDe_spec (hs : Repos s) (h : 32 ≤ c ∧ c < 127) : (∀ f ∈ frappesDe c, f.Valide defkeymap.codes) ∧
    joue defkeymap s ((frappesDe c).flatMap (Frappe.evenements defkeymap.codes)) = .ok { s with sortie := s.sortie ++ [c] } := by
  have hlim : SC_LIM = 89 := rfl
  have hall := cherche_ascii c h.2 h.1
  have hplain : defkeymap.keyMaps s.shiftState = some fun k => plainMap.getD k K_HOLE := by
    rw [hs.plain]
    rfl
  unfold frappesDe
  -- On the keymap that has the character: no modifier, the left Shift (42) or AltGr (100).
  cases h₀ : cherche plainMap c with
  | some k =>
    obtain ⟨h₁, h₂, hl⟩ := cherche_some h₀
    refine ⟨by simpa [tape, Frappe.Valide, Touche.Valide] using ⟨h₁, h₂⟩, ?_⟩
    exact joue_touche hs.toPret (by omega) (congrFun hs.levees k) hs.rep hs.accent hs.morte hs.caps hplain hl (by omega) []
  | none =>
    cases h₁ : cherche shiftMap c with
    | some k =>
      obtain ⟨h₂, h₃, hl⟩ := cherche_some h₁
      have hne : k ≠ 42 := by
        rintro rfl
        exact absurd hl.1 (by decide)
      refine ⟨by simpa [tape, Frappe.Valide, Touche.Valide, hlim] using ⟨h₂, h₃⟩, ?_⟩
      have hk : k < 128 := by omega
      exact joue_accord (j := 42) defkeymap_reguliere hs (by decide) hk hne (show modDe defkeymap 42 = some 0 by decide) rfl rfl hl
        (by omega)
    | none =>
      cases h₂ : cherche altgrMap c with
      | some k =>
        obtain ⟨h₃, h₄, hl⟩ := cherche_some h₂
        refine ⟨fun f hf => ?_, ?_⟩
        · simp only [tape, List.mem_cons, List.not_mem_nil, or_false] at hf
          rcases hf with rfl | rfl | rfl | rfl
          · exact etendue_valide
          · exact ⟨h₃, h₄⟩
          · exact ⟨h₃, h₄⟩
          · exact etendue_valide
        · have hk : k < 128 := by omega
          have hne : k ≠ 100 := by omega
          exact joue_accord (j := 100) defkeymap_reguliere hs (by decide) hk hne (show modDe defkeymap 100 = some 1 by decide) rfl rfl hl
            (by omega)
      | none =>
        rw [h₀, h₁, h₂] at hall
        cases hall

theorem octets_utiles {t : Codes} {f : Frappe} (h : f.Valide t) : ∀ b ∈ f.octets, 0 < b ∧ b < 255 := by
  have hlim : SC_LIM = 89 := rfl
  cases f with
  | fauxShift droit up => cases droit <;> cases up <;> decide
  | touche k up =>
    cases k with
    | simple c =>
      obtain ⟨h₁, h₂⟩ := h
      cases up <;> simp [Frappe.octets, Touche.octets] <;> omega
    | haute c =>
      obtain ⟨h₁, h₂, -⟩ := h
      cases up <;> simp [Frappe.octets, Touche.octets] <;> omega
    | etendue c =>
      obtain ⟨h₁, h₂, -⟩ := h
      cases up <;> simp [Frappe.octets, Touche.octets] <;> omega
    | pause => cases up <;> simp [Frappe.octets, Touche.octets]

/-- A text of visible characters and blanks, typed on the keyboard while nothing else is held, is what the program reads, and the driver is
then as it was. -/
theorem saisie_texte {texte : List Nat} (hs : Repos s) (h : ∀ c ∈ texte, 32 ≤ c ∧ c < 127) :
    doScancodes defkeymap s (saisie texte) = .ok { s with sortie := s.sortie ++ texte } := by
  have hf : ∀ f ∈ texte.flatMap frappesDe, f.Valide defkeymap.codes := by
    intro f hf
    obtain ⟨c, hc, hf⟩ := List.mem_flatMap.1 hf
    exact (frappesDe_spec hs (h c hc)).1 f hf
  have ho : ∀ b ∈ saisie texte, 0 < b ∧ b < 255 := by
    intro b hb
    obtain ⟨f, hfm, hb⟩ := List.mem_flatMap.1 hb
    exact octets_utiles (hf f hfm) b hb
  have hu : utiles (saisie texte) = (texte.flatMap frappesDe).flatMap Frappe.octets := by
    refine List.filter_eq_self.2 fun b hb => ?_
    have := ho b hb
    simp only [decide_eq_true_eq]
    omega
  rw [doScancodes_frappes defkeymap_reguliere hs.toPret (fun b hb => (ho b hb).2.trans (by decide)) hf hu]
  clear hf ho hu
  induction texte generalizing s with
  | nil =>
    rw [List.append_nil]
    rfl
  | cons c texte ih =>
    rw [List.forall_mem_cons] at h
    rw [List.flatMap_cons, List.flatMap_append, joue, List.foldlM_append]
    refine (congrArg (· >>= _) (frappesDe_spec hs h.1).2).trans ((ih (hs.tape _) h.2).trans ?_)
    simp

theorem saisie_texte_bonjour :
    doScancodes defkeymap depart (saisie [66, 111, 110, 106, 111, 117, 114, 32, 123, 126, 125]) =
      .ok { depart with sortie := depart.sortie ++ [66, 111, 110, 106, 111, 117, 114, 32, 123, 126, 125] } :=
  saisie_texte depart_repos (by decide)

end Clavier

end Pcsea
