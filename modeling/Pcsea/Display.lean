import Pcsea.Fault
/-!
# `display.c`: the console

The video memory is a function of the address, so that an access outside of
the screen is one that can be seen: `acces` lists the addresses read and
written. The ports of the cursor are not modelled. A `char` is an `Int`.
-/

namespace Pcsea

def NB_COL : Nat := 80
def NB_LIG : Nat := 25
def POSI_L_INIT : Nat := 1
def POSI_C_INIT : Nat := 0

structure Ecran where
  /-- the 16-bit cell at an address -/
  cellule : Nat → Nat
  cursLigPos : Nat
  cursColPos : Nat
  /-- the addresses read or written, newest first -/
  acces : List Nat

/-- The console at start-up, on a video memory with any contents. -/
def Ecran.boot (cellule : Nat → Nat) : Ecran := ⟨cellule, POSI_L_INIT, POSI_C_INIT, []⟩

/-- The address of a cell, computed on `uint32_t`. -/
def ptrMem (lig col : Nat) : Nat := (0xB8000 + 2 * (lig * NB_COL + col)) % 2 ^ 32

def Ecran.ecrit (e : Ecran) (adresse valeur : Nat) : Ecran :=
  { e with cellule := Function.update e.cellule adresse valeur, acces := adresse :: e.acces }

/-- The cell of a character, as a `uint16_t`. -/
def attribut (c : Int) (ct cf cl : Nat) : Nat := (toUint32 c ||| cl <<< 15 ||| cf <<< 12 ||| ct <<< 8) % 2 ^ 16

def ecritCar (lig col : Nat) (c : Int) (ct cf cl : Nat) (e : Ecran) : Ecran :=
  e.ecrit (ptrMem lig col) (attribut c ct cf cl)

def effaceEcran (e : Ecran) : Ecran :=
  (List.range NB_LIG).foldl (fun e lig => (List.range NB_COL).foldl (fun e col => ecritCar lig col 32 15 0 0 e) e) e

def placeCurseur (lig col : Nat) (e : Ecran) : Ecran := { e with cursLigPos := lig, cursColPos := col }

def nextTab (e : Ecran) : Nat :=
  if e.cursColPos < 8 then 8
  else if e.cursColPos < 16 then 16
  else if e.cursColPos < 24 then 24
  else if e.cursColPos < 32 then 32
  else if e.cursColPos < 40 then 40
  else if e.cursColPos < 48 then 48
  else if e.cursColPos < 56 then 56
  else if e.cursColPos < 64 then 64
  else if e.cursColPos < 72 then 72
  else if e.cursColPos ≤ 79 then 79
  else 0

/-- `memmove` of `n` bytes, two by two. -/
def memmove (dst src n : Nat) (e : Ecran) : Ecran :=
  { e with
    cellule := fun a => if dst ≤ a ∧ a < dst + n then e.cellule (src + (a - dst)) else e.cellule a
    acces := (List.range (n / 2)).map (fun i => dst + 2 * i) ++ (List.range (n / 2)).map (fun i => src + 2 * i) ++ e.acces }

def defilement (e : Ecran) : Ecran :=
  let e := memmove (ptrMem POSI_L_INIT 0) (ptrMem (POSI_L_INIT + 1) 0) ((NB_LIG - 1) * NB_COL * 2) e
  let e := if POSI_L_INIT < e.cursLigPos then placeCurseur (e.cursLigPos - 1) e.cursColPos e else e
  (List.range NB_COL).foldl (fun e i => ecritCar 24 i 32 15 0 0 e) e

/-- `traite_car` before `place_curseur`. -/
def traiteCarCorps (c : Int) (e : Ecran) : Ecran :=
  if 32 ≤ c ∧ c ≤ 126 then
    let e := ecritCar e.cursLigPos e.cursColPos c 15 0 0 e
    let e := { e with cursColPos := succUint32 e.cursColPos }
    if e.cursColPos = NB_COL then
      let e := { e with cursColPos := POSI_C_INIT }
      if e.cursLigPos ≠ NB_COL - 1 then { e with cursLigPos := succUint32 e.cursLigPos } else defilement e
    else e
  else if c = 8 then
    if e.cursColPos ≠ 0 then { e with cursColPos := predUint32 e.cursColPos } else e
  else if c = 9 then
    let e := { e with cursColPos := nextTab e }
    if e.cursColPos = 0 then { e with cursLigPos := POSI_L_INIT } else e
  else if c = 10 then
    let e := if e.cursLigPos ≠ NB_LIG - 1 then { e with cursLigPos := succUint32 e.cursLigPos } else defilement e
    { e with cursColPos := POSI_C_INIT }
  else if c = 12 then
    let e := effaceEcran e
    { e with cursLigPos := POSI_L_INIT, cursColPos := POSI_C_INIT }
  else if c = 13 then { e with cursColPos := POSI_C_INIT }
  else e

def traiteCar (c : Int) (e : Ecran) : Ecran :=
  let e := traiteCarCorps c e
  placeCurseur e.cursLigPos e.cursColPos e

/-- `console_putbytes(chaine, taille)`, where `taille` is the length of `chaine`. -/
def consolePutbytes (chaine : List Int) (e : Ecran) : Ecran := chaine.foldl (fun e c => traiteCar c e) e

/-! ## The clock on the first row -/

/-- The digits of `u` in base 10 in front of `buf`, `n` of them at most: the loop of `_doprnt`. -/
def printNum : Nat → Nat → List Int → List Int
  | 0, _, buf => buf
  | n + 1, u, buf =>
    let buf := ((48 + u % 10 : Nat) : Int) :: buf
    if u / 10 = 0 then buf else printNum n (u / 10) buf

/-- What `_doprnt` puts for `%2d`. -/
def doprnt2d (n : Int) : List Int :=
  let chiffres := printNum 32 n.natAbs []
  let signe : List Int := if 0 ≤ n then [] else [45]
  List.replicate (2 - chiffres.length - signe.length) 32 ++ signe ++ chiffres

/-- `sprintf(time, "%2d:%2d:%2d", hour, min, sec)`, less the terminator. -/
def texteClock (hour min sec : Nat) : List Int :=
  doprnt2d (toInt32 hour) ++ 58 :: doprnt2d (toInt32 min) ++ 58 :: doprnt2d (toInt32 sec)

/-- `affiche_clock`: `time` has nine bytes. -/
def afficheClock (hour min sec : Nat) (e : Ecran) : Except Fault Ecran :=
  let time := texteClock hour min sec ++ [0]
  if 9 < time.length then .error .outOfBounds
  else .ok ((List.range 9).foldl (fun e i => ecritCar 0 (71 + i) (time.getD i 0) 15 0 0 e) e)

end Pcsea
