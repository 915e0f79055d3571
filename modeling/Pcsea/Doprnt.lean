import Pcsea.Memoire
/-!
# `doprnt.c`: formats

A character is an `Int`, a format is the list of its characters less the
terminator. `doprnt` gives the characters handed to `putc`, in order, and the
arguments left over. `_doprnt_truncates` is never set and `DOPRNT_FLOATS` is not
defined.
-/

namespace Pcsea

/-- An argument: an `int` or a `long`, or a string. -/
inductive Argument where
  | nombre (v : Int)
  | chaine (p : Option (List Int))

/-- `va_arg(args, int)`, `va_arg(args, long)`. -/
def vaInt : List Argument → Except Fault (Int × List Argument)
  | .nombre v :: args => .ok (v, args)
  | _ => .error .outOfBounds

/-- `va_arg(args, char *)`. -/
def vaChaine : List Argument → Except Fault (Option (List Int) × List Argument)
  | .chaine p :: args => .ok (p, args)
  | _ => .error .outOfBounds

/-- `*p`. -/
def car (p : List Int) : Int := p.headD 0

def isdigit (c : Int) : Bool := 48 ≤ c ∧ c ≤ 57

/-- `0123456789abcdef`, with its terminator. -/
def digits : List Int := [48, 49, 50, 51, 52, 53, 54, 55, 56, 57, 97, 98, 99, 100, 101, 102, 0]

def MAXBUF : Nat := 32

/-- `do { *p-- = digits[u % base]; u /= base; } while (u != 0)`, with room for `n` characters in front of `buf`. -/
def chiffres (base : Nat) : Nat → Nat → List Int → Except Fault (List Int)
  | 0, _, _ => .error .outOfBounds
  | n + 1, u, buf =>
    if base = 0 then .error .divByZero
    else
      match digits[u % base]? with
      | none => .error .outOfBounds
      | some c => if u / base = 0 then .ok (c :: buf) else chiffres base n (u / base) (c :: buf)

def printnum (u base : Nat) : Except Fault (List Int) := chiffres base MAXBUF u []

/-! ## Directives -/

/-- What stands between `%` and the conversion. -/
structure Directive where
  length : Int
  prec : Int
  ladjust : Bool
  padc : Int
  plusSign : Int
  altfmt : Bool

def Directive.defaut : Directive := ⟨0, -1, false, 32, 0, false⟩

def drapeaux : List Int → Directive → Directive × List Int
  | [], d => (d, [])
  | c :: fmt, d =>
    -- `#`, `-`, `+` and the blank, in any order.
    if c = 35 then drapeaux fmt { d with altfmt := true }
    else if c = 45 then drapeaux fmt { d with ladjust := true }
    else if c = 43 then drapeaux fmt { d with plusSign := 43 }
    else if c = 32 then drapeaux fmt { d with plusSign := if d.plusSign = 0 then 32 else d.plusSign }
    else (d, c :: fmt)

/-- `while (isdigit(*fmt)) length = 10 * length + Ctod(*fmt++)`. -/
def entier : List Int → Int → Except Fault (Int × List Int)
  | [], length => .ok (length, [])
  | c :: fmt, length =>
    if isdigit c then do
      let length ← addInt (10 * length) (c - 48)
      entier fmt length
    else .ok (length, c :: fmt)

def zeroFmt (fmt : List Int) (d : Directive) : Directive × List Int :=
  if car fmt = 48 then ({ d with padc := 48 }, fmt.tail) else (d, fmt)

def largeur (fmt : List Int) (args : List Argument) (d : Directive) : Except Fault (Directive × List Int × List Argument) :=
  if isdigit (car fmt) then do
    let (length, fmt) ← entier fmt d.length
    .ok ({ d with length }, fmt, args)
  else if car fmt = 42 then do
    let (length, args) ← vaInt args
    -- A negative width adjusts to the other side.
    if length < 0 then do
      let length ← addInt 0 (-length)
      .ok ({ d with length, ladjust := !d.ladjust }, fmt.tail, args)
    else .ok ({ d with length }, fmt.tail, args)
  else .ok (d, fmt, args)

def precision (fmt : List Int) (args : List Argument) (d : Directive) : Except Fault (Directive × List Int × List Argument) :=
  if car fmt = 46 then
    if isdigit (car fmt.tail) then do
      let (prec, fmt) ← entier fmt.tail 0
      .ok ({ d with prec }, fmt, args)
    else if car fmt.tail = 42 then do
      let (prec, args) ← vaInt args
      .ok ({ d with prec }, fmt.tail.tail, args)
    -- A point alone leaves the precision as it was.
    else .ok (d, fmt.tail, args)
  else .ok (d, fmt, args)

/-- What stands before the conversion. -/
def directive (fmt : List Int) (args : List Argument) : Except Fault (Directive × List Int × List Argument) := do
  let (d, fmt) := drapeaux fmt .defaut
  let (d, fmt) := zeroFmt fmt d
  let (d, fmt, args) ← largeur fmt args d
  let (d, fmt, args) ← precision fmt args d
  .ok (d, if car fmt = 108 then fmt.tail else fmt, args)

/-! ## Conversions -/

/-- `while (--length >= 0) (*putc)(putc_arg, c)`: what is put, and `length` after it. -/
def remplit (c length : Int) : Except Fault (List Int × Int) := do
  let reste ← addInt (min length 0) (-1)
  .ok (List.replicate length.toNat c, reste)

/-- The same, under a condition. -/
def remplitSi (b : Bool) (c length : Int) : Except Fault (List Int × Int) := if b then remplit c length else .ok ([], length)

def signeDe (signChar : Int) : List Int := if signChar ≠ 0 then [signChar] else []

def prefixe (base u : Nat) (d : Directive) : List Int :=
  if u ≠ 0 ∧ d.altfmt then (if base = 8 then [48] else if base = 16 then [48, 120] else []) else []

/-- The code at `print_num`. -/
def printNumChamp (base u : Nat) (signChar : Int) (d : Directive) : Except Fault (List Int) := do
  let buf ← chiffres base MAXBUF u []
  let prec ← addInt d.prec (-buf.length)
  let length ← addInt d.length (-(buf.length + (signeDe signChar).length + (prefixe base u d).length + max prec 0))
  -- Blanks go before the prefix, zeros after it.
  let (blancs, length) ← remplitSi (d.padc = 32 ∧ d.ladjust = false) 32 length
  let (zeros, _) ← remplit 48 prec
  let (zeros', length) ← remplitSi (d.padc = 48) 48 length
  let (blancs', _) ← remplitSi d.ladjust 32 length
  .ok (blancs ++ signeDe signChar ++ prefixe base u d ++ zeros ++ zeros' ++ buf ++ blancs')

/-- The code at `print_signed`. -/
def printSigned (base : Nat) (n : Int) (d : Directive) : Except Fault (List Int) :=
  if 0 ≤ n then printNumChamp base n.toNat d.plusSign d
  else do
    let u ← addInt 0 (-n)
    printNumChamp base u.toNat 45 d

/-- The code at `print_unsigned`. -/
def printUnsigned (base : Nat) (u : Int) (d : Directive) : Except Fault (List Int) := printNumChamp base (toUint32 u) 0 d

/-- `%s`. The count `n` goes one further when the precision cuts the string. -/
def printString (p : Option (List Int)) (d : Directive) : List Int :=
  let prec := if d.prec = -1 then 0x7fffffff else d.prec
  let p := p.getD []
  let texte := p.take prec.toNat
  let n := if texte.length < p.length then texte.length + 1 else texte.length
  let avant := if 0 < d.length ∧ d.ladjust = false then List.replicate (d.length - texte.length).toNat 32 else []
  let apres := if d.ladjust then List.replicate (d.length - n).toNat 32 else []
  avant ++ texte ++ apres

/-- `u & (1 << (i - 1))`. -/
def bit (u : Nat) (i : Int) : Except Fault Bool :=
  if 1 ≤ i ∧ i ≤ 32 then .ok (u.testBit (i - 1).toNat) else .error .outOfBounds

/-- `(u >> (j - 1)) & ((2 << (i - j)) - 1)`. -/
def champBits (u : Nat) (i j : Int) : Except Fault Nat :=
  if 1 ≤ j ∧ j ≤ 32 ∧ j ≤ i ∧ i - j < 30 then .ok (u / 2 ^ (j - 1).toNat % 2 ^ (i - j + 1).toNat) else .error .outOfBounds

/-- The names of the bits of `u`, from `p` on: the loop of `%b`. -/
def printBits (u base : Nat) : Nat → List Int → Bool → Except Fault (List Int)
  | 0, _, _ => .error .diverge
  | _ + 1, [], any => .ok (if any then [62] else [])
  | n + 1, i :: p, any =>
    let ouvre : Int := if any then 44 else 60
    -- A second control character makes it a field, from bit `i` down to bit `j`.
    if car p ≤ 32 then
      match p with
      | [] => .error .outOfBounds
      | j :: p => do
        let v ← champBits u i j
        let champ ← printnum v base
        let reste ← printBits u base n (p.dropWhile (32 < ·)) true
        .ok (ouvre :: p.takeWhile (32 < ·) ++ champ ++ reste)
    else do
      if ← bit u i then
        let reste ← printBits u base n (p.dropWhile (32 < ·)) true
        .ok (ouvre :: p.takeWhile (32 < ·) ++ reste)
      else printBits u base n (p.dropWhile (32 < ·)) any

/-- `%b`. -/
def printRegister (u : Nat) (p : Option (List Int)) : Except Fault (List Int) := do
  let p ← deref p
  let base := toUint32 (car p)
  let nombre ← printnum u base
  if u = 0 then .ok nombre
  else
    let bits ← printBits u base p.length p.tail false
    .ok (nombre ++ bits)

/-- The `switch`, on a character other than the terminator. -/
def conversion (radix : Int) (c : Int) (d : Directive) (args : List Argument) : Except Fault (List Int × List Argument) :=
  -- `%b`.
  if c = 98 ∨ c = 66 then do
    let (u, args) ← vaInt args
    let (p, args) ← vaChaine args
    let l ← printRegister (toUint32 u) p
    .ok (l, args)
  -- `%c`.
  else if c = 99 then do
    let (v, args) ← vaInt args
    .ok ([toChar v], args)
  -- `%s`.
  else if c = 115 then do
    let (p, args) ← vaChaine args
    .ok (printString p d, args)
  -- `%o`, then `%d` and `%i`, then `%u`.
  else if c = 111 ∨ c = 79 then nonSigne 8 d args
  else if c = 100 ∨ c = 105 ∨ c = 68 then signe 10 d args
  else if c = 117 ∨ c = 85 then nonSigne 10 d args
  -- `%p` is `0x` and eight digits.
  else if c = 112 then do
    let (l, args) ← nonSigne 16 { d with padc := 48, length := 8 } args
    .ok (48 :: 120 :: l, args)
  -- `%x`, then its signed form `%z`.
  else if c = 120 ∨ c = 88 then nonSigne 16 d args
  else if c = 122 ∨ c = 90 then signe 16 d args
  -- `%r` and `%n` take the base from the caller.
  else if c = 114 ∨ c = 82 then signe (toUint32 radix) d args
  else if c = 110 ∨ c = 78 then nonSigne (toUint32 radix) d args
  -- Any other character is put as it is.
  else .ok ([c], args)
where
  signe (base : Nat) (d : Directive) (args : List Argument) : Except Fault (List Int × List Argument) := do
    let (n, args) ← vaInt args
    let l ← printSigned base n d
    .ok (l, args)
  nonSigne (base : Nat) (d : Directive) (args : List Argument) : Except Fault (List Int × List Argument) := do
    let (u, args) ← vaInt args
    let l ← printUnsigned base u d
    .ok (l, args)

/-- The loop of `_doprnt`. A directive cut short by the terminator puts nothing. -/
def doprntLoop (radix : Int) : Nat → List Int → List Argument → Except Fault (List Int × List Argument)
  | 0, _, _ => .error .diverge
  | _ + 1, [], args => .ok ([], args)
  | n + 1, c :: fmt, args =>
    if c ≠ 37 then do
      let (l, args) ← doprntLoop radix n fmt args
      .ok (c :: l, args)
    else do
      let (d, fmt, args) ← directive fmt args
      match fmt with
      | [] => .ok ([], args)
      | c :: fmt => do
        let (l, args) ← conversion radix c d args
        let (l', args) ← doprntLoop radix n fmt args
        .ok (l ++ l', args)

/-- `_doprnt(fmt, args, radix, putc, putc_arg)`. -/
def doprnt (fmt : List Int) (args : List Argument) (radix : Int) : Except Fault (List Int × List Argument) :=
  doprntLoop radix (fmt.length + 1) fmt args

end Pcsea
