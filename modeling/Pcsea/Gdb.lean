import Pcsea.Memoire
/-!
# `gdb_serial.c`: packets

A byte is a `Nat`, the serial line is the list of the bytes that come in, and
nothing is returned while the stub waits for more. `inbuf` is a function of the
index, and keeps what earlier packets left in it.
-/

namespace Pcsea

def BUFMAX : Nat := 400

/-- `hexchars[n]`. -/
def hexchar (n : Nat) : Nat := if n < 10 then 48 + n else 87 + n

def hex (ch : Nat) : Int :=
  if 48 ≤ ch ∧ ch ≤ 57 then ch - 48
  else if 97 ≤ ch ∧ ch ≤ 102 then ch - 97 + 10
  else if 65 ≤ ch ∧ ch ≤ 70 then ch - 65 + 10
  else -1

/-- `(hex(a) << 4) | hex(b)`, which is negative as soon as one of them is. -/
def deuxHex (a b : Nat) : Int := if hex a < 0 ∨ hex b < 0 then -1 else hex a * 16 + hex b

/-- `hex2bin(&in[i], out, len)`: the value returned and the bytes stored. -/
def hex2bin (inbuf : Nat → Nat) (i : Nat) : Nat → Int × List Nat
  | 0 => (0, [])
  | len + 1 =>
    let ch := deuxHex (inbuf i) (inbuf (i + 1))
    if ch < 0 then (-1, [])
    else
      let (r, out) := hex2bin inbuf (i + 2) len
      (r, ch.toNat :: out)

/-! ## `getpacket` -/

/-- The line after the next `$`. -/
def attendDollar : List Nat → Option (List Nat)
  | [] => none
  | c :: s => if c % 128 = 36 then some s else attendDollar s

/-- What `getpacket` has read. -/
structure Lecture where
  buffer : Nat → Nat
  count : Nat
  checksum : Nat
  ch : Nat

/-- The loop that reads up to a `#`, with `n` places left. -/
def lisDonnees : Nat → Lecture → List Nat → Option (Lecture × List Nat)
  | 0, x, s => some (x, s)
  | _ + 1, _, [] => none
  | n + 1, x, ch :: s =>
    -- A `#` after an escape is data.
    if ch = 35 ∧ (x.count = 0 ∨ x.buffer (x.count - 1) ≠ 0x7d) then some ({ x with ch }, s)
    else lisDonnees n ⟨Function.update x.buffer x.count ch, x.count + 1, (x.checksum + ch) % 256, ch⟩ s

/-- `strlen(inbuf)`, which has a terminator. -/
def longueur (inbuf : Nat → Nat) : Nat := (((List.range (BUFMAX + 1)).map inbuf).takeWhile (· ≠ 0)).length

/-- The sequence characters are taken out of the buffer. -/
def retireSequence (inbuf : Nat → Nat) : Nat → Nat := fun j => if j + 3 ≤ longueur inbuf then inbuf (j + 3) else inbuf j

/-- One turn of `getpacket`: whether the packet is taken, the buffer, what is sent and what is left of the line. -/
def essai (inbuf : Nat → Nat) (s : List Nat) : Option (Bool × (Nat → Nat) × List Nat × List Nat) := do
  let s ← attendDollar s
  let (x, s) ← lisDonnees BUFMAX ⟨inbuf, 0, 0, 36⟩ s
  let buffer := Function.update x.buffer x.count 0
  if x.ch = 35 then
    match s with
    | a :: b :: s =>
      let xmitcsum := ((hex a * 16 + hex b) % 256).toNat
      if x.checksum ≠ xmitcsum then some (false, buffer, [45], s)
      else if buffer 2 = 58 then some (true, retireSequence buffer, [43, buffer 0, buffer 1], s)
      else some (true, buffer, [43], s)
    | _ => none
  -- The buffer is full, and `xmitcsum` is still -1.
  else some (x.checksum = 255, buffer, [], s)

/-- A turn reads a byte at least, so that there are no more turns than bytes. -/
def getpacketBoucle : Nat → (Nat → Nat) → List Nat → Option ((Nat → Nat) × List Nat × List Nat)
  | 0, _, _ => none
  | n + 1, inbuf, s => do
    let (pris, inbuf, envoi, s) ← essai inbuf s
    if pris then some (inbuf, envoi, s)
    else
      let (inbuf, envoi', s) ← getpacketBoucle n inbuf s
      some (inbuf, envoi ++ envoi', s)

/-- The buffer, what is sent and what is left of the line. -/
def getpacket (inbuf : Nat → Nat) (s : List Nat) : Option ((Nat → Nat) × List Nat × List Nat) :=
  getpacketBoucle (s.length + 1) inbuf s

/-! ## `putfrags` -/

/-- A fragment: its bytes, less the terminator of a string, and whether they go out in hexadecimal. -/
structure Outfrag where
  data : List Nat
  hexify : Bool

/-- The number of bytes equal to the first one, itself included, up to `limit`. -/
def serie (x : Nat) (p : List Nat) (limit : Nat) : Nat := min (1 + (p.takeWhile (· = x)).length) limit

/-- The characters of a fragment, with its runs encoded. -/
def envoieFrag (hexify : Bool) : List Nat → List Nat
  | [] => []
  | x :: p =>
    if hexify then
      -- A run of bytes is a run of digits when both digits of the byte are the same.
      if 2 ≤ serie x p 49 ∧ x / 16 = x % 16 then
        hexchar (x % 16) :: 42 :: (29 + serie x p 49 * 2 - 1) :: envoieFrag hexify (p.drop (serie x p 49 - 1))
      else hexchar (x / 16) :: hexchar (x % 16) :: envoieFrag hexify p
    else if 4 ≤ serie x p 98 then x :: 42 :: (29 + serie x p 98 - 1) :: envoieFrag hexify (p.drop (serie x p 98 - 1))
    else x :: envoieFrag hexify p
termination_by p => p.length
decreasing_by all_goals simp; try omega

/-- The packet, with its checksum. -/
def paquet (frags : List Outfrag) : List Nat :=
  let corps := (frags.map fun f => envoieFrag f.hexify f.data).flatten
  let checksum := corps.sum % 256
  36 :: corps ++ [35, hexchar (checksum / 16), hexchar (checksum % 16)]

/-- `putfrags`: the packet goes out until gdb likes it. -/
def putfrags (frags : List Outfrag) : List Nat → Option (List Nat × List Nat)
  | [] => none
  | c :: s =>
    if c % 128 = 43 then some (paquet frags, s)
    else (putfrags frags s).map fun x => (paquet frags ++ x.1, x.2)

end Pcsea
