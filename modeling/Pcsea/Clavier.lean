import Pcsea.Fault
import Pcsea.Scancodes
import Mathlib.Data.Nat.Bitwise
/-!
# `keyboard.c`: from keys to characters

`handleScancode` finds the key of a byte, looks it up in the keymap of the
modifiers that are held, and runs the handler of the kind of key it finds there.
What the handlers give to `keyboard_data` is in `sortie`, what they give to
`kbd_leds` in `leds`.
-/

namespace Pcsea

open Lib

inductive KbdMode where
  | xlate
  | mediumraw
  | raw
  | unicode
  deriving DecidableEq

def KG_SHIFT : Nat := 0
def KG_CAPSSHIFT : Nat := 8
def NR_SHIFT : Nat := 9
def MAX_NR_KEYMAPS : Nat := 256
def NR_KEYS : Nat := 256

def KT_LATIN : Nat := 0
def KT_SPEC : Nat := 2
def KT_SHIFT : Nat := 7
def KT_LETTER : Nat := 11
def KT_SLOCK : Nat := 12

def VC_APPLIC : Nat := 0
def VC_CKMODE : Nat := 1
def VC_REPEAT : Nat := 2
def VC_CRLF : Nat := 3
def VC_META : Nat := 4

def VC_NUMLOCK : Nat := 1
def VC_CAPSLOCK : Nat := 2

/-- The keymaps, with the strings of the function keys and the accents. -/
structure Keymap where
  codes : Codes
  keyMaps : Nat → Option (Nat → Nat)
  funcTable : Nat → Option (List Nat)
  accentTable : List (Nat × Nat × Nat)

/-- The variables of the driver. `npadch` is `none` when it is -1. -/
structure Clavier where
  initialise : Bool
  prevScancode : Nat
  kDown : Nat → Nat
  keyDown : Nat → Bool
  deadKeyNext : Bool
  shiftState : Nat
  npadch : Option Nat
  diacr : Nat
  rep : Bool
  lockstate : Nat
  slockstate : Nat
  ledflagstate : Nat
  kbdmode : KbdMode
  modeflags : Nat
  stopped : Bool
  ledstate : Nat
  sortie : List Nat
  leds : List Nat

namespace Clavier

/-- As the kernel is loaded. -/
def boot : Clavier :=
  ⟨false, 0, fun _ => 0, fun _ => false, false, 0, none, 0, false, 0, 0, 0, .xlate, 0, false, 0xff, [], []⟩

def vcKbdMode (s : Clavier) (flag : Nat) : Bool := s.modeflags.testBit flag

def vcKbdLed (s : Clavier) (flag : Nat) : Bool := s.ledflagstate.testBit flag

def chgVcKbdLed (flag : Nat) (s : Clavier) : Clavier := { s with ledflagstate := s.ledflagstate ^^^ 1 <<< flag }

def setVcKbdLed (flag : Nat) (s : Clavier) : Clavier := { s with ledflagstate := s.ledflagstate ||| 1 <<< flag }

def clrVcKbdLed (flag : Nat) (s : Clavier) : Clavier := { s with ledflagstate := s.ledflagstate &&& (0xff ^^^ 1 <<< flag) }

/-! ## What goes out -/

/-- The string ends at its first NUL. -/
def keyboardData (str : List Nat) (s : Clavier) : Clavier := { s with sortie := s.sortie ++ str.takeWhile (· ≠ 0) }

def putQueue (ch : Nat) (s : Clavier) : Clavier := keyboardData [ch % 256] s

def toUtf8 (c : Nat) (s : Clavier) : Clavier :=
  if c < 0x80 then putQueue c s
  else if c < 0x800 then putQueue (0x80 ||| (c &&& 0x3f)) (putQueue (0xc0 ||| c >>> 6) s)
  else putQueue (0x80 ||| (c &&& 0x3f)) (putQueue (0x80 ||| (c >>> 6 &&& 0x3f)) (putQueue (0xe0 ||| c >>> 12) s))

def applkey (key : Nat) (mode : Bool) (s : Clavier) : Clavier := keyboardData [0x1b, if mode then 79 else 91, key] s

/-- A character of a string constant, the NUL included. -/
def lisConstante (str : List Nat) (i : Nat) : Except Fault Nat := if i ≤ str.length then .ok (str.getD i 0) else .error .outOfBounds

/-! ## Modifiers -/

/-- What `compute_shiftstate` does with one key: it counts, if it is down and a modifier in the first keymap. -/
def compteTouche (T : Keymap) (s : Clavier) (k : Nat) : Except Fault Clavier :=
  if s.keyDown k then do
    let map ← deref (T.keyMaps 0)
    let sym := map k ^^^ 0xf000
    if sym / 256 = KT_SHIFT ∨ sym / 256 = KT_SLOCK then
      let val := if sym % 256 = KG_CAPSSHIFT then KG_SHIFT else sym % 256
      if val < NR_SHIFT then
        .ok { s with
          kDown := Function.update s.kDown val ((s.kDown val + 1) % 256)
          shiftState := s.shiftState ||| 1 <<< val }
      else .error .outOfBounds
    else .ok s
  else .ok s

def computeShiftstate (T : Keymap) (s : Clavier) : Except Fault Clavier :=
  (List.range NR_KEYS).foldlM (compteTouche T) { s with shiftState := 0, kDown := fun _ => 0 }

/-- The number typed with Alt held goes out when Alt does. -/
def videNpadch (s : Clavier) : Clavier :=
  match s.npadch with
  | none => s
  | some n =>
    let s := if s.kbdmode = .unicode then toUtf8 (n % 0x10000) s else putQueue (n % 256) s
    { s with npadch := none }

def doShift (value : Nat) (up : Bool) (s : Clavier) : Except Fault Clavier :=
  if s.rep then .ok s
  else
    let oldState := s.shiftState
    let (value, s) :=
      if value = KG_CAPSSHIFT then (KG_SHIFT, if up then s else clrVcKbdLed VC_CAPSLOCK s) else (value, s)
    if NR_SHIFT ≤ value then .error .outOfBounds
    else
      -- An `unsigned char`, which does not go below 0.
      let n := if up then s.kDown value - 1 else (s.kDown value + 1) % 256
      let s := { s with
        kDown := Function.update s.kDown value n
        shiftState := if n ≠ 0 then s.shiftState ||| 1 <<< value else s.shiftState &&& (0xffffffff ^^^ 1 <<< value) }
      .ok (if up ∧ s.shiftState ≠ oldState then videNpadch s else s)

/-- `1 << n` on `int`. -/
def decale (n : Nat) : Except Fault Nat := if n < 31 then .ok (1 <<< n) else .error .intOverflow

def doLock (value : Nat) (up : Bool) (s : Clavier) : Except Fault Clavier :=
  if up ∨ s.rep then .ok s
  else do
    let b ← decale value
    .ok { s with lockstate := (s.lockstate ^^^ b) % 256 }

def doSlock (T : Keymap) (value : Nat) (up : Bool) (s : Clavier) : Except Fault Clavier := do
  let s ← doShift value up s
  if up ∨ s.rep then .ok s
  else
    let b ← decale value
    let slockstate := (s.slockstate ^^^ b) % 256
    .ok { s with slockstate := if (T.keyMaps (s.lockstate ^^^ slockstate)).isNone then b % 256 else slockstate }

/-! ## Characters -/

/-- An accent and the character after it. -/
def handleDiacr (T : Keymap) (ch : Nat) (s : Clavier) : Nat × Clavier :=
  let d := s.diacr
  let s := { s with diacr := 0 }
  match T.accentTable.find? fun e => e.1 = d ∧ e.2.1 = ch with
  | some e => (e.2.2, s)
  | none => if ch = 32 ∨ ch = d then (d, s) else (ch, putQueue d s)

def doSelf (T : Keymap) (value : Nat) (up : Bool) (s : Clavier) : Clavier :=
  if up then s
  else
    let (value, s) := if s.diacr ≠ 0 then handleDiacr T value s else (value, s)
    -- After Compose the character is an accent for the next one.
    if s.deadKeyNext then { s with deadKeyNext := false, diacr := value } else putQueue value s

def doDead2 (T : Keymap) (value : Nat) (up : Bool) (s : Clavier) : Clavier :=
  if up then s
  else
    let (value, s) := if s.diacr ≠ 0 then handleDiacr T value s else (value, s)
    { s with diacr := value }

def retDiacr : List Nat := [96, 39, 94, 126, 34, 44]

def doDead (T : Keymap) (value : Nat) (up : Bool) (s : Clavier) : Except Fault Clavier :=
  match retDiacr[value]? with
  | some value => .ok (doDead2 T value up s)
  | none => .error .outOfBounds

def doMeta (value : Nat) (up : Bool) (s : Clavier) : Clavier :=
  if up then s
  else if s.vcKbdMode VC_META then putQueue value (putQueue 0x1b s)
  else putQueue (value ||| 0x80) s

/-- The base of a digit typed with Alt held, and what it is worth. -/
def chiffreAscii (value : Nat) : Nat × Nat := if value < 10 then (10, value) else (16, value - 10)

def doAscii (value : Nat) (up : Bool) (s : Clavier) : Except Fault Clavier :=
  if up then .ok s
  else
    let (base, value) := chiffreAscii value
    match s.npadch with
    | none => .ok { s with npadch := some value }
    | some n => if n * base + value < 2 ^ 31 then .ok { s with npadch := some (n * base + value) } else .error .intOverflow

def doFn (T : Keymap) (value : Nat) (up : Bool) (s : Clavier) : Clavier :=
  if up then s
  else
    match T.funcTable value with
    | some str => keyboardData str s
    | none => s

def doCur (value : Nat) (up : Bool) (s : Clavier) : Except Fault Clavier :=
  if up then .ok s
  else do
    let c ← lisConstante [66, 68, 67, 65] value
    .ok (applkey c (s.vcKbdMode VC_CKMODE) s)

def padChars : List Nat := [48, 49, 50, 51, 52, 53, 54, 55, 56, 57, 43, 45, 42, 47, 13, 44, 46, 63, 40, 41]

def appMap : List Nat := [112, 113, 114, 115, 116, 117, 118, 119, 120, 121, 108, 83, 82, 81, 77, 110, 110, 109, 80, 81]

/-- The keypad without NumLock: the cursor keys and the function keys it has instead of digits. -/
def curseurPad (T : Keymap) (value : Nat) (s : Clavier) : Option (Except Fault Clavier) :=
  match value with
  -- The comma and the point are Delete, and the digits are as engraved.
  | 15 | 16 => some (.ok (doFn T 22 false s))
  | 0 => some (.ok (doFn T 21 false s))
  | 1 => some (.ok (doFn T 23 false s))
  | 2 => some (doCur 0 false s)
  | 3 => some (.ok (doFn T 25 false s))
  | 4 => some (doCur 1 false s)
  | 6 => some (doCur 2 false s)
  | 7 => some (.ok (doFn T 20 false s))
  | 8 => some (doCur 3 false s)
  | 9 => some (.ok (doFn T 24 false s))
  | 5 => some (.ok (applkey 71 (s.vcKbdMode VC_APPLIC) s))
  | _ => none

def doPad (T : Keymap) (value : Nat) (up : Bool) (s : Clavier) : Except Fault Clavier :=
  if up then .ok s
  else if s.vcKbdMode VC_APPLIC ∧ s.kDown KG_SHIFT = 0 then do
    let c ← lisConstante appMap value
    .ok (applkey c true s)
  else
    match if s.vcKbdLed VC_NUMLOCK then none else curseurPad T value s with
    | some r => r
    | none => do
      let c ← lisConstante padChars value
      let s := putQueue c s
      .ok (if value = 14 ∧ s.vcKbdMode VC_CRLF then putQueue 10 s else s)

/-! ## Special keys -/

def enter (s : Clavier) : Clavier :=
  let s := if s.diacr ≠ 0 then { putQueue s.diacr s with diacr := 0 } else s
  let s := putQueue 13 s
  if s.vcKbdMode VC_CRLF then putQueue 10 s else s

def capsToggle (s : Clavier) : Clavier := if s.rep then s else chgVcKbdLed VC_CAPSLOCK s

def capsOn (s : Clavier) : Clavier := if s.rep then s else setVcKbdLed VC_CAPSLOCK s

def hold (s : Clavier) : Clavier := if s.rep then s else { s with stopped := !s.stopped }

def bareNum (s : Clavier) : Clavier := if s.rep then s else chgVcKbdLed VC_NUMLOCK s

def num (s : Clavier) : Clavier := if s.vcKbdMode VC_APPLIC then applkey 80 true s else bareNum s

def compose (s : Clavier) : Clavier := { s with deadKeyNext := true }

/-- The other functions of `spec_fn_table` only call functions of the glue that do nothing. -/
def specFn (T : Keymap) (value : Nat) (s : Clavier) : Except Fault Clavier :=
  match value with
  -- `do_null` recomputes the modifiers.
  | 0 => computeShiftstate T s
  | 1 => .ok (enter s)
  | 7 => .ok (capsToggle s)
  | 8 => .ok (num s)
  | 9 => .ok (hold s)
  | 13 => .ok (capsOn s)
  | 14 => .ok (compose s)
  | 19 => .ok (bareNum s)
  | _ => .ok s

/-- In the raw modes only the key 15, which does nothing here, is let through. -/
def doSpec (T : Keymap) (value : Nat) (up : Bool) (s : Clavier) : Except Fault Clavier :=
  if up then .ok s
  else if (s.kbdmode = .raw ∨ s.kbdmode = .mediumraw) ∧ value ≠ 15 then .ok s
  else specFn T value s

/-! ## Keys -/

def keyHandler (T : Keymap) (type value : Nat) (up : Bool) (s : Clavier) : Except Fault Clavier :=
  match type with
  | 0 => .ok (doSelf T value up s)
  | 1 => .ok (doFn T value up s)
  | 2 => doSpec T value up s
  | 3 => doPad T value up s
  | 4 => doDead T value up s
  | 6 => doCur value up s
  | 7 => doShift value up s
  | 8 => .ok (doMeta value up s)
  | 9 => doAscii value up s
  | 10 => doLock value up s
  | 12 => doSlock T value up s
  | 13 => .ok (doDead2 T value up s)
  -- `do_cons`, `do_lowercase` and `do_ignore`.
  | _ => .ok s

/-- The kind of a key and its symbol: a letter is a character, and CapsLock takes it from the other keymap. -/
def sensDe (T : Keymap) (keyMap : Nat → Nat) (shiftFinal keycode : Nat) (s : Clavier) : Nat × Nat :=
  let keysym := keyMap keycode
  let type := keysym / 256 - 0xf0
  if type = KT_LETTER then
    (KT_LATIN,
      if s.vcKbdLed VC_CAPSLOCK then
        match T.keyMaps (shiftFinal ^^^ 1 <<< KG_SHIFT) with
        | some keyMap => keyMap keycode
        | none => keysym
      else keysym)
  else (type, keysym)

/-- What a key does, once it is known to be acted upon. -/
def agit (T : Keymap) (keycode : Nat) (up rawMode : Bool) (s : Clavier) : Except Fault Clavier :=
  let shiftFinal := (s.shiftState ||| s.slockstate) ^^^ s.lockstate
  if MAX_NR_KEYMAPS ≤ shiftFinal then .error .outOfBounds
  else
    match T.keyMaps shiftFinal with
    -- No keymap for these modifiers: they may have to be counted afresh.
    | none => do
      let s ← computeShiftstate T s
      .ok { s with slockstate := 0 }
    | some keyMap =>
      let keysym := keyMap keycode
      if 0xf0 ≤ keysym / 256 then
        if rawMode ∧ keysym / 256 - 0xf0 ≠ KT_SPEC ∧ keysym / 256 - 0xf0 ≠ KT_SHIFT then .ok s
        else do
          let (type, keysym) := sensDe T keyMap shiftFinal keycode s
          let s ← keyHandler T type (keysym % 256) up s
          .ok (if type ≠ KT_SLOCK then { s with slockstate := 0 } else s)
      -- Below 0xf000 a symbol is a character of Unicode.
      else .ok (if !up && !rawMode then toUtf8 keysym s else s)

/-- `handle_scancode`, from where the key is known. -/
def recoit (T : Keymap) (keycode : Nat) (up rawMode : Bool) (s : Clavier) : Except Fault Clavier :=
  let (up, s) :=
    if up then
      (s.keyDown keycode || kbdUnexpectedUp keycode, { s with rep := false, keyDown := Function.update s.keyDown keycode false })
    else (false, { s with rep := s.keyDown keycode, keyDown := Function.update s.keyDown keycode true })
  let (rawMode, s) :=
    if s.kbdmode = .mediumraw then (true, putQueue (keycode + if up then 128 else 0) s) else (rawMode, s)
  if !s.rep || s.vcKbdMode VC_REPEAT then agit T keycode up rawMode s else .ok s

def handleScancode (T : Keymap) (scancode : Nat) (down : Bool) (s : Clavier) : Except Fault Clavier :=
  let rawMode : Bool := s.kbdmode = .raw
  let s := if rawMode then putQueue (scancode ||| if down then 0 else 128) s else s
  match kbdTranslate T.codes scancode s.prevScancode with
  | (none, prev) => .ok { s with prevScancode := prev }
  | (some keycode, prev) => recoit T keycode (!down) rawMode { s with prevScancode := prev }

/-- The lights follow the flags. -/
def kbdBh (s : Clavier) : Clavier :=
  if s.ledflagstate ≠ s.ledstate then { s with ledstate := s.ledflagstate, leds := s.leds ++ [s.ledflagstate] } else s

/-- `KBD_DEFMODE` is repeat and meta. -/
def kbdInit (s : Clavier) : Clavier :=
  kbdBh { s with
    ledflagstate := 0, lockstate := 0, slockstate := 0, modeflags := 1 <<< VC_REPEAT ||| 1 <<< VC_META, kbdmode := .xlate }

def doScancode (T : Keymap) (s : Clavier) (scancode : Nat) : Except Fault Clavier :=
  let s := if s.initialise then s else kbdInit { s with initialise := true }
  if scancode ≠ 0x00 ∧ scancode ≠ 0xff then
    (handleScancode T (scancode % 256) (scancode % 256 < 128) s).map kbdBh
  else .ok s

def doScancodes (T : Keymap) (s : Clavier) (octets : List Nat) : Except Fault Clavier := octets.foldlM (doScancode T) s

end Clavier

end Pcsea
