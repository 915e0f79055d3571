import Mathlib.Logic.Function.Basic
import Mathlib.Data.List.Basic
/-!
# `scancode.c`: from the bytes of the keyboard to keys

A key sends one byte, or a prefix and one byte, or for Pause three of them.
`kbdTranslate` takes them one at a time and says of which key the last one was.
-/

namespace Pcsea

def SC_LIM : Nat := 89

def E1_PAUSE : Nat := 119

/-- The two tables, whose entries fit in seven bits. -/
structure Codes where
  highKeys : Nat → Nat
  e0Keys : Nat → Nat
  high_lt : ∀ i, highKeys i < 128
  e0_lt : ∀ i, e0Keys i < 128

def highKeys : List Nat :=
  [124, 125, 126, 127, 0, 0, 0,
   0, 0, 0, 0, 0, 0, 0, 0,
   0, 0, 0, 0, 0, 122, 0, 123,
   0, 0, 0, 89, 120, 0, 0, 90,
   91, 92, 93, 94,
   95, 124, 121, 0]

def e0Keys : List Nat :=
  [0, 0, 0, 0, 0, 0, 0, 0,
   0, 0, 0, 0, 0, 0, 0, 0,
   0, 0, 0, 0, 0, 0, 0, 0,
   0, 0, 0, 0, 96, 97, 0, 0,
   0, 0, 0, 0, 0, 0, 0, 0,
   0, 0, 0, 0, 0, 0, 0, 0,
   0, 0, 0, 0, 0, 98, 0, 99,
   100, 0, 0, 0, 0, 113, 114, 115,
   116, 117, 0, 0, 0, 0, 101, 102,
   103, 104, 0, 105, 124, 106, 118, 107,
   108, 109, 110, 111, 0, 0, 0, 0,
   0, 0, 0, 125, 126, 127, 0, 0,
   0, 0, 0, 0, 0, 0, 0, 0,
   0, 0, 0, 0, 0, 0, 0, 112,
   0, 0, 0, 0, 0, 0, 0, 0,
   0, 0, 0, 0, 0, 0, 0, 0]

theorem getD_lt {l : List Nat} {n i : Nat} (h : ∀ x ∈ l, x < n) (h0 : 0 < n) : l.getD i 0 < n := by
  rw [List.getD_eq_getElem?_getD]
  cases hx : l[i]? with
  | none => exact h0
  | some x => exact h x (List.mem_of_getElem? hx)

theorem highKeys_lt (i : Nat) : highKeys.getD i 0 < 128 := getD_lt (by decide) (by decide)

theorem e0Keys_lt (i : Nat) : e0Keys.getD i 0 < 128 := getD_lt (by decide +kernel) (by decide)

/-- The tables as they are at first. -/
def codesInit : Codes := ⟨fun i => highKeys.getD i 0, fun i => e0Keys.getD i 0, highKeys_lt, e0Keys_lt⟩

/-- `static int prev_scancode` is 0, a prefix, or 0x100 after the first two bytes of Pause. -/
def kbdTranslate (t : Codes) (scancode prevScancode : Nat) : Option Nat × Nat :=
  if scancode = 0xe0 ∨ scancode = 0xe1 then (none, scancode)
  else if scancode = 0x00 ∨ scancode = 0xff then (none, 0)
  else
    let scancode := scancode % 128
    if prevScancode ≠ 0 then
      if prevScancode ≠ 0xe0 then
        -- Pause is e1 1d 45.
        if prevScancode = 0xe1 ∧ scancode = 0x1d then (none, 0x100)
        else if prevScancode = 0x100 ∧ scancode = 0x45 then (some E1_PAUSE, 0)
        else (none, 0)
      -- The keyboard's own shifts around a key are dropped.
      else if scancode = 0x2a ∨ scancode = 0x36 then (none, 0)
      else if t.e0Keys scancode ≠ 0 then (some (t.e0Keys scancode), 0)
      else (none, 0)
    else if SC_LIM ≤ scancode then
      if t.highKeys (scancode - SC_LIM) = 0 then (none, 0) else (some (t.highKeys (scancode - SC_LIM)), 0)
    else (some scancode, 0)

/-- Whether the release of a key that was not down still counts as a release. -/
def kbdUnexpectedUp (keycode : Nat) : Bool := !(decide (SC_LIM ≤ keycode) || keycode == 85)

/-- The keys that come out of a sequence of bytes, each with whether it was released, and what is left in `prev_scancode`. -/
def decode (t : Codes) : Nat → List Nat → List (Nat × Bool) × Nat
  | prev, [] => ([], prev)
  | prev, b :: l =>
    match kbdTranslate t b prev with
    | (none, prev) => decode t prev l
    | (some k, prev) => ((k, decide (128 ≤ b)) :: (decode t prev l).1, (decode t prev l).2)

/-! ## What a keyboard sends -/

/-- A key, by the byte it sends. -/
inductive Touche where
  | simple (c : Nat)
  | haute (c : Nat)
  | etendue (c : Nat)
  | pause

namespace Touche

/-- A key that the tables know. A byte that is a prefix, or the last of all, when the key is released cannot be told from it. -/
def Valide (t : Codes) : Touche → Prop
  | simple c => 0 < c ∧ c < SC_LIM
  | haute c => SC_LIM ≤ c ∧ c < 127 ∧ c ≠ 0x60 ∧ c ≠ 0x61 ∧ t.highKeys (c - SC_LIM) ≠ 0
  | etendue c => 0 < c ∧ c < 127 ∧ c ≠ 0x60 ∧ c ≠ 0x61 ∧ c ≠ 0x2a ∧ c ≠ 0x36 ∧ t.e0Keys c ≠ 0
  | pause => True

def keycode (t : Codes) : Touche → Nat
  | simple c => c
  | haute c => t.highKeys (c - SC_LIM)
  | etendue c => t.e0Keys c
  | pause => E1_PAUSE

def octets (up : Bool) : Touche → List Nat
  | simple c => [c + if up then 128 else 0]
  | haute c => [c + if up then 128 else 0]
  | etendue c => [0xe0, c + if up then 128 else 0]
  | pause => [0xe1, 0x1d + if up then 128 else 0, 0x45 + if up then 128 else 0]

theorem keycode_pos {t : Codes} {k : Touche} (h : k.Valide t) : 0 < k.keycode t ∧ k.keycode t < 128 := by
  cases k with
  | simple c => exact ⟨h.1, Nat.lt_trans h.2 (by decide)⟩
  | haute c => exact ⟨Nat.pos_of_ne_zero h.2.2.2.2, t.high_lt _⟩
  | etendue c => exact ⟨Nat.pos_of_ne_zero h.2.2.2.2.2.2, t.e0_lt _⟩
  | pause =>
    show 0 < E1_PAUSE ∧ E1_PAUSE < 128
    decide

end Touche

/-- A key goes down or up, or the keyboard sends a shift of its own around one. -/
inductive Frappe where
  | touche (k : Touche) (up : Bool)
  | fauxShift (droit up : Bool)

namespace Frappe

def Valide (t : Codes) : Frappe → Prop
  | touche k _ => k.Valide t
  | fauxShift _ _ => True

def octets : Frappe → List Nat
  | touche k up => k.octets up
  | fauxShift droit up => [0xe0, (if droit then 0x36 else 0x2a) + if up then 128 else 0]

def evenements (t : Codes) : Frappe → List (Nat × Bool)
  | touche k up => [(k.keycode t, up)]
  | fauxShift _ _ => []

end Frappe

section Decode

variable {t : Codes} {c prev : Nat} {up : Bool} {l : List Nat}

theorem translate_prefixe (h : c = 0xe0 ∨ c = 0xe1) : kbdTranslate t c prev = (none, c) := if_pos h

/-- Any other byte is read by its low seven bits. -/
theorem translate_octet (h : 0 < c ∧ c < 128) (hup : up = true → c ≠ 0x60 ∧ c ≠ 0x61 ∧ c ≠ 127) :
    kbdTranslate t (c + if up then 128 else 0) prev =
      if prev ≠ 0 then
        if prev ≠ 0xe0 then
          if prev = 0xe1 ∧ c = 0x1d then (none, 0x100)
          else if prev = 0x100 ∧ c = 0x45 then (some E1_PAUSE, 0)
          else (none, 0)
        else if c = 0x2a ∨ c = 0x36 then (none, 0)
        else if t.e0Keys c ≠ 0 then (some (t.e0Keys c), 0)
        else (none, 0)
      else if SC_LIM ≤ c then
        if t.highKeys (c - SC_LIM) = 0 then (none, 0) else (some (t.highKeys (c - SC_LIM)), 0)
      else (some c, 0) := by
  -- The byte is neither a prefix nor dropped, and loses its top bit.
  have hc : (c + if up then 128 else 0) % 128 = c := by
    split <;> omega
  have h₁ : ¬((c + if up then 128 else 0) = 0xe0 ∨ (c + if up then 128 else 0) = 0xe1) := by
    split
    · have := hup ‹_›
      omega
    · omega
  have h₂ : ¬((c + if up then 128 else 0) = 0x00 ∨ (c + if up then 128 else 0) = 0xff) := by
    split
    · have := hup ‹_›
      omega
    · omega
  rw [kbdTranslate, if_neg h₁, if_neg h₂]
  dsimp only
  rw [hc]

theorem relache (h : c < 128) : decide (128 ≤ c + if up then 128 else 0) = up := by
  cases up <;> simp
  omega

theorem decode_none {n : Nat} (h : kbdTranslate t c prev = (none, n)) : decode t prev (c :: l) = decode t n l := by
  rw [decode, h]

theorem decode_some {k n : Nat} (h : kbdTranslate t c prev = (some k, n)) :
    decode t prev (c :: l) = ((k, decide (128 ≤ c)) :: (decode t n l).1, (decode t n l).2) := by
  rw [decode, h]

/-- One key, whatever comes after it. -/
theorem decode_touche {k : Touche} (h : k.Valide t) : decode t 0 (k.octets up ++ l) =
    ((k.keycode t, up) :: (decode t 0 l).1, (decode t 0 l).2) := by
  cases k with
  | simple c =>
    obtain ⟨h₁, h₂⟩ := h
    have hlim : SC_LIM = 89 := rfl
    have ht : kbdTranslate t (c + if up then 128 else 0) 0 = (some c, 0) := by
      rw [translate_octet ⟨h₁, by omega⟩ fun _ => by omega, if_neg (by simp), if_neg (by omega)]
    rw [Touche.octets, List.singleton_append, decode_some ht, relache (by omega)]
    rfl
  | haute c =>
    obtain ⟨h₁, h₂, h₃, h₄, h₅⟩ := h
    have hlim : SC_LIM = 89 := rfl
    have ht : kbdTranslate t (c + if up then 128 else 0) 0 = (some (t.highKeys (c - SC_LIM)), 0) := by
      rw [translate_octet ⟨by omega, by omega⟩ fun _ => ⟨h₃, h₄, by omega⟩, if_neg (by simp), if_pos h₁, if_neg h₅]
    rw [Touche.octets, List.singleton_append, decode_some ht, relache (by omega)]
    rfl
  | etendue c =>
    obtain ⟨h₁, h₂, h₃, h₄, h₅, h₆, h₇⟩ := h
    have ht : kbdTranslate t (c + if up then 128 else 0) 0xe0 = (some (t.e0Keys c), 0) := by
      rw [translate_octet ⟨by omega, by omega⟩ fun _ => ⟨h₃, h₄, by omega⟩, if_pos (by decide), if_neg (by simp),
        if_neg (by omega), if_pos h₇]
    rw [Touche.octets, List.cons_append, List.singleton_append, decode_none (translate_prefixe (.inl rfl)), decode_some ht,
      relache (by omega)]
    rfl
  | pause =>
    have h₁ : kbdTranslate t (0x1d + if up then 128 else 0) 0xe1 = (none, 0x100) := by
      rw [translate_octet (by decide) fun _ => by decide]
      rfl
    have h₂ : kbdTranslate t (0x45 + if up then 128 else 0) 0x100 = (some E1_PAUSE, 0) := by
      rw [translate_octet (by decide) fun _ => by decide]
      rfl
    rw [Touche.octets, List.cons_append, List.cons_append, List.singleton_append, decode_none (translate_prefixe (.inr rfl)),
      decode_none h₁, decode_some h₂, relache (by decide)]
    rfl

/-- The shifts of the keyboard are passed over. -/
theorem decode_fauxShift (droit : Bool) : decode t 0 ((Frappe.fauxShift droit up).octets ++ l) = decode t 0 l := by
  have h : kbdTranslate t ((if droit then 0x36 else 0x2a) + if up then 128 else 0) 0xe0 = (none, 0) := by
    rw [translate_octet (by split <;> decide) fun _ => by split <;> decide, if_pos (by decide), if_neg (by simp),
      if_pos (by cases droit <;> simp)]
  rw [Frappe.octets, List.cons_append, List.singleton_append, decode_none (translate_prefixe (.inl rfl)), decode_none h]

/-- What was sent comes out, key by key, and nothing is left over. -/
theorem decode_frappes {fs : List Frappe} (h : ∀ f ∈ fs, f.Valide t) :
    decode t 0 (fs.flatMap Frappe.octets) = (fs.flatMap (Frappe.evenements t), 0) := by
  induction fs with
  | nil => rfl
  | cons f fs ih =>
    rw [List.forall_mem_cons] at h
    rw [List.flatMap_cons, List.flatMap_cons]
    cases f with
    | touche k up =>
      rw [Frappe.octets, decode_touche h.1, ih h.2]
      rfl
    | fauxShift droit up =>
      rw [decode_fauxShift, ih h.2]
      rfl

end Decode

end Pcsea
