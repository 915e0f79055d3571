import Pcsea.Memoire
/-!
# `string.c`

The functions work on a memory and return what they return in C, with the memory
when they write. `rep movsl` and `rep stosl` go by words of four characters. A
loop that only a terminator stops is given as many turns as there are addresses.
-/

namespace Pcsea

def ESPACE : Nat := 2 ^ 32

/-- `*p`, where `p` is an `unsigned char *`. -/
def lireUchar (m : Memoire) (p : Nat) : Except Fault Nat := (lire m p).map toUchar

/-! ## Blocks -/

def memccpy (m : Memoire) (dst src : Nat) (c : Int) : Nat → Except Fault (Option Nat × Memoire)
  | 0 => .ok (none, m)
  | n + 1 => do
    let ch ← lire m src
    let m ← ecrire m dst ch
    if ch = toChar c then .ok (some (dst + 1), m) else memccpy m (dst + 1) (src + 1) c n

def memchr (m : Memoire) (s : Nat) (c : Int) : Nat → Except Fault (Option Nat)
  | 0 => .ok none
  | n + 1 => do
    let x ← lireUchar m s
    if x = toUchar c then .ok (some s) else memchr m (s + 1) c n

/-- From the last character down. -/
def memrchr (m : Memoire) (s : Nat) (c : Int) : Nat → Except Fault (Option Nat)
  | 0 => .ok none
  | n + 1 => do
    let x ← lireUchar m (s + n)
    if x = toUchar c then .ok (some (s + n)) else memrchr m s c n

def memcmp (m : Memoire) (c1 c2 : Nat) : Nat → Except Fault Int
  | 0 => .ok 0
  | n + 1 => do
    let x1 ← lireUchar m c1
    let x2 ← lireUchar m c2
    let d : Int := x1 - x2
    if d ≠ 0 then .ok d else memcmp m (c1 + 1) (c2 + 1) n

/-- `rep movsb`, upwards. -/
def movsb (m : Memoire) (q p : Nat) : Nat → Except Fault Memoire
  | 0 => .ok m
  | n + 1 => do
    let ch ← lire m p
    let m ← ecrire m q ch
    movsb m (q + 1) (p + 1) n

/-- `rep movsb` with the direction flag set: `p + n` and `q + n` are next. -/
def movsbArriere (m : Memoire) (q p : Nat) : Nat → Except Fault Memoire
  | 0 => .ok m
  | n + 1 => do
    let ch ← lire m (p + n)
    let m ← ecrire m (q + n) ch
    movsbArriere m q p n

/-- `rep movsl`: a word is read before it is written. -/
def movsl (m : Memoire) (q p : Nat) : Nat → Except Fault Memoire
  | 0 => .ok m
  | nl + 1 => do
    let ch₀ ← lire m p
    let ch₁ ← lire m (p + 1)
    let ch₂ ← lire m (p + 2)
    let ch₃ ← lire m (p + 3)
    let m ← ecrire m q ch₀
    let m ← ecrire m (q + 1) ch₁
    let m ← ecrire m (q + 2) ch₂
    let m ← ecrire m (q + 3) ch₃
    movsl m (q + 4) (p + 4) nl

def memcpy (m : Memoire) (dst src n : Nat) : Except Fault Memoire := do
  let m ← movsl m dst src (n / 4)
  movsb m (dst + 4 * (n / 4)) (src + 4 * (n / 4)) (n % 4)

def Memoire.memmove (m : Memoire) (dst src n : Nat) : Except Fault Memoire :=
  if dst < src then movsb m dst src n else movsbArriere m dst src n

/-- `rep stosb`. -/
def stosb (m : Memoire) (q : Nat) (ch : Int) : Nat → Except Fault Memoire
  | 0 => .ok m
  | n + 1 => do
    let m ← ecrire m q ch
    stosb m (q + 1) ch n

/-- `rep stosl` of four times the same character. -/
def stosl (m : Memoire) (q : Nat) (ch : Int) : Nat → Except Fault Memoire
  | 0 => .ok m
  | nl + 1 => do
    let m ← ecrire m q ch
    let m ← ecrire m (q + 1) ch
    let m ← ecrire m (q + 2) ch
    let m ← ecrire m (q + 3) ch
    stosl m (q + 4) ch nl

def memset (m : Memoire) (dst : Nat) (c : Int) (n : Nat) : Except Fault Memoire := do
  let m ← stosl m dst (toChar c) (n / 4)
  stosb m (dst + 4 * (n / 4)) (toChar c) (n % 4)

/-! ## Strings -/

def strlenBoucle (m : Memoire) : Nat → Nat → Nat → Except Fault Nat
  | 0, _, _ => .error .diverge
  | k + 1, ss, n => do
    let ch ← lire m ss
    if ch = 0 then .ok n else strlenBoucle m k (ss + 1) (n + 1)

def strlen (m : Memoire) (s : Nat) : Except Fault Nat := strlenBoucle m ESPACE s 0

def strnlen (m : Memoire) (ss : Nat) : Nat → Except Fault Nat
  | 0 => .ok 0
  | maxlen + 1 => do
    let ch ← lire m ss
    if ch = 0 then .ok 0
    else do
      let n ← strnlen m (ss + 1) maxlen
      .ok (n + 1)

def strchrBoucle (m : Memoire) (c : Int) : Nat → Nat → Except Fault (Option Nat)
  | 0, _ => .error .diverge
  | k + 1, s => do
    let ch ← lire m s
    if ch = toChar c then .ok (some s)
    else if ch = 0 then .ok none
    else strchrBoucle m c k (s + 1)

def strchr (m : Memoire) (s : Nat) (c : Int) : Except Fault (Option Nat) := strchrBoucle m c ESPACE s

def strrchrBoucle (m : Memoire) (c : Int) : Nat → Nat → Option Nat → Except Fault (Option Nat)
  | 0, _, _ => .error .diverge
  | k + 1, s, found => do
    let ch ← lire m s
    if ch = 0 then .ok found else strrchrBoucle m c k (s + 1) (if ch = toChar c then some s else found)

def strrchr (m : Memoire) (s : Nat) (c : Int) : Except Fault (Option Nat) := strrchrBoucle m c ESPACE s none

def strcmpBoucle (m : Memoire) : Nat → Nat → Nat → Except Fault Int
  | 0, _, _ => .error .diverge
  | k + 1, c1, c2 => do
    let x1 ← lireUchar m c1
    let x2 ← lireUchar m c2
    let d : Int := x1 - x2
    if d ≠ 0 ∨ x1 = 0 then .ok d else strcmpBoucle m k (c1 + 1) (c2 + 1)

def strcmp (m : Memoire) (s1 s2 : Nat) : Except Fault Int := strcmpBoucle m ESPACE s1 s2

def strncmp (m : Memoire) (c1 c2 : Nat) : Nat → Except Fault Int
  | 0 => .ok 0
  | n + 1 => do
    let x1 ← lireUchar m c1
    let x2 ← lireUchar m c2
    let d : Int := x1 - x2
    if d ≠ 0 ∨ x1 = 0 then .ok d else strncmp m (c1 + 1) (c2 + 1) n

def strcpyBoucle : Nat → Memoire → Nat → Nat → Except Fault Memoire
  | 0, _, _, _ => .error .diverge
  | k + 1, m, q, p => do
    let ch ← lire m p
    let m ← ecrire m q ch
    if ch = 0 then .ok m else strcpyBoucle k m (q + 1) (p + 1)

def strcpy (m : Memoire) (dst src : Nat) : Except Fault Memoire := strcpyBoucle ESPACE m dst src

def strcat (m : Memoire) (dst src : Nat) : Except Fault Memoire := do
  let q ← strchr m dst 0
  let q ← deref q
  strcpy m q src

def strncatBoucle (m : Memoire) (q p : Nat) : Nat → Except Fault Memoire
  | 0 => ecrire m q 0
  | n + 1 => do
    let ch ← lire m p
    let m ← ecrire m q ch
    if ch = 0 then .ok m else strncatBoucle m (q + 1) (p + 1) n

def strncat (m : Memoire) (dst src n : Nat) : Except Fault Memoire := do
  let q ← strchr m dst 0
  let q ← deref q
  strncatBoucle m q src n

/-- The first loop of `strlcat`: how far `q` goes. -/
def strlcatSaut (m : Memoire) (q : Nat) : Nat → Except Fault Nat
  | 0 => .ok 0
  | size + 1 => do
    let ch ← lire m q
    if ch = 0 then .ok 0
    else do
      let bytes ← strlcatSaut m (q + 1) size
      .ok (bytes + 1)

/-- The second loop, and the terminator. -/
def strlcatBoucle (size : Nat) : Nat → Memoire → Nat → Nat → Nat → Except Fault (Nat × Memoire)
  | 0, _, _, _, _ => .error .diverge
  | k + 1, m, q, p, bytes => do
    let ch ← lire m p
    if ch = 0 then do
      let m ← ecrire m q 0
      .ok (bytes, m)
    else if bytes + 1 < size then do
      let m ← ecrire m q ch
      strlcatBoucle size k m (q + 1) (p + 1) (bytes + 1)
    -- No room left: the characters are only counted.
    else strlcatBoucle size k m q (p + 1) (bytes + 1)

def strlcat (m : Memoire) (dst src size : Nat) : Except Fault (Nat × Memoire) := do
  let bytes ← strlcatSaut m dst size
  -- No terminator within `size`: nothing is written.
  if bytes = size then do
    let n ← strlen m src
    .ok (bytes + n, m)
  else strlcatBoucle size ESPACE m (dst + bytes) src bytes

/-- The rest of the buffer is filled with NUL. -/
def strncpy (m : Memoire) (q p : Nat) : Nat → Except Fault Memoire
  | 0 => memset m q 0 0
  | n + 1 => do
    let ch ← lire m p
    let m ← ecrire m q ch
    if ch = 0 then memset m (q + 1) 0 n else strncpy m (q + 1) (p + 1) n

/-! ## Sets of characters -/

/-- `matchmap`, from the string `map`. -/
def matchmapBoucle (m : Memoire) : Nat → Nat → (Nat → Bool) → Except Fault (Nat → Bool)
  | 0, _, _ => .error .diverge
  | k + 1, map, matchmap => do
    let ch ← lire m map
    if ch = 0 then .ok matchmap else matchmapBoucle m k (map + 1) (Function.update matchmap (toUchar ch) true)

def spanBoucle (m : Memoire) (matchmap : Nat → Bool) (parity : Bool) : Nat → Nat → Nat → Except Fault Nat
  | 0, _, _ => .error .diverge
  | k + 1, s, n => do
    let ch ← lireUchar m s
    if matchmap ch ^^ parity then spanBoucle m matchmap parity k (s + 1) (n + 1) else .ok n

def strxspn (m : Memoire) (s map : Nat) (parity : Bool) : Except Fault Nat := do
  let matchmap ← matchmapBoucle m ESPACE map fun _ => false
  -- The terminator ends both loops.
  spanBoucle m (Function.update matchmap 0 parity) parity ESPACE s 0

def strspn (m : Memoire) (s accept : Nat) : Except Fault Nat := strxspn m s accept false

def strcspn (m : Memoire) (s reject : Nat) : Except Fault Nat := strxspn m s reject true

def strpbrk (m : Memoire) (s accept : Nat) : Except Fault (Option Nat) := do
  let n ← strxspn m s accept true
  let ch ← lire m (s + n)
  .ok (if ch ≠ 0 then some (s + n) else none)

/-- `strsep(stringp, delim)`: what it returns, the memory and `*stringp`. -/
def strsep (m : Memoire) (stringp : Option Nat) (delim : Nat) : Except Fault (Option Nat × Memoire × Option Nat) :=
  match stringp with
  | none => .ok (none, m, none)
  | some s => do
    let e ← strpbrk m s delim
    match e with
    | none => .ok (some s, m, none)
    | some e => do
      let m ← ecrire m e 0
      .ok (some s, m, some (e + 1))

/-- `holder` is static. -/
def strtok (m : Memoire) (s : Option Nat) (delim : Nat) (holder : Option Nat) : Except Fault (Option Nat × Memoire × Option Nat) :=
  strsep m (s <|> holder) delim

/-! ## Searching -/

/-- The loop for a needle of two characters at least. -/
def memmemBoucle (mem : Memoire) (y x n m k l : Nat) : Nat → Nat → Except Fault (Option Nat)
  | 0, _ => .error .diverge
  | fuel + 1, j =>
    if j ≤ n - m then do
      let x1 ← lireUchar mem (x + 1)
      let y1 ← lireUchar mem (y + j + 1)
      if x1 ≠ y1 then memmemBoucle mem y x n m k l fuel (j + k)
      else do
        let d ← memcmp mem (x + 2) (y + j + 2) (m - 2)
        if d ≠ 0 then memmemBoucle mem y x n m k l fuel (j + l)
        else do
          let x0 ← lireUchar mem x
          let y0 ← lireUchar mem (y + j)
          if x0 = y0 then .ok (some (y + j)) else memmemBoucle mem y x n m k l fuel (j + l)
    else .ok none

/-- `do ... while (--n)`. -/
def memmemUn (mem : Memoire) (y x : Nat) : Nat → Except Fault (Option Nat)
  | 0 => .ok none
  | n + 1 => do
    let y0 ← lireUchar mem y
    let x0 ← lireUchar mem x
    if y0 = x0 then .ok (some y) else memmemUn mem (y + 1) x n

def memmem (mem : Memoire) (y n x m : Nat) : Except Fault (Option Nat) :=
  if m > n ∨ m = 0 ∨ n = 0 then .ok none
  else if m ≠ 1 then do
    let x0 ← lireUchar mem x
    let x1 ← lireUchar mem (x + 1)
    -- How far a mismatch at the second character, or after it, lets the needle move.
    if x0 = x1 then memmemBoucle mem y x n m 2 1 (n - m + 2) 0 else memmemBoucle mem y x n m 1 2 (n - m + 2) 0
  else memmemUn mem y x n

def strstr (mem : Memoire) (haystack needle : Nat) : Except Fault (Option Nat) := do
  let n ← strlen mem haystack
  let m ← strlen mem needle
  memmem mem haystack n needle m

end Pcsea
