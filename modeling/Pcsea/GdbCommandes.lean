import Pcsea.Debogueur
import Pcsea.Gdb
import Pcsea.Strtol
/-!
# `gdb_serial.c`: commands

One command at a time, as `debugger()` runs the stub: without callbacks. `regs`
is the 64 bytes of the `struct gdb_state`, eight registers, then `eip` at 32 and
`eflags` at 36.
-/

namespace Pcsea

open Lib

inductive GdbAction where
  | more
  | cont
  | run
  | kill
  | detach
  deriving DecidableEq, Repr

def NSIG : Nat := 32

/-- `sizeof(struct gdb_state)`. -/
def SIZEOF_GDB_STATE : Nat := 64

/-- `struct gdb_params` and the variables of the stub, with the memory it works on. -/
structure Stub where
  inbuf : Nat → Nat
  regs : Nat → Nat
  regsChanged : Bool
  signo : Nat
  connected : Bool
  serialDebug : Bool
  ram : Ram

/-- What does not change: the paging registers of the program, and where `inbuf` is. -/
structure Client where
  cr0 : Nat
  cr3 : Nat
  adr : Nat

/-- The stub after a command, what to do next and the packet to send. -/
abbrev SuitePaquet := Stub × GdbAction × Option (List Outfrag)

/-! ## What the labels `ok`, `errpacket` and `unknown` send -/

def ok (s : Stub) : SuitePaquet := (s, .more, some [⟨[79, 75], false⟩])

def puterr (s : Stub) (code : Nat) : SuitePaquet := (s, .more, some [⟨[69], false⟩, ⟨[code], true⟩])

def unknown (s : Stub) : SuitePaquet := (s, .more, some [⟨[], false⟩])

/-- `report`, without threads. -/
def report (s : Stub) : List Outfrag := [⟨[83], false⟩, ⟨[s.signo], true⟩]

/-! ## Reading the command -/

/-- The string at `&inbuf[i]`. -/
def texteEn (inbuf : Nat → Nat) (i : Nat) : List Nat := ((List.range (BUFMAX + 1 - i)).map fun j => inbuf (i + j)).takeWhile (· ≠ 0)

/-- `strtoul(&inbuf[i], &ptr, 16)`: the value and the place of `ptr`. -/
def nombre (inbuf : Nat → Nat) (i : Nat) : Nat × Nat :=
  let s := (texteEn inbuf i).map fun c : Nat => toChar c
  let (v, p) := strtoul s 16
  (v, i + (s.length - p.length))

/-- `strtol(&inbuf[i], &endth, 16)`, of which only `endth == &inbuf[i]` matters here. -/
def sansNombre (inbuf : Nat → Nat) (i : Nat) : Except Fault Bool := do
  let s := (texteEn inbuf i).map fun c : Nat => toChar c
  let (_, p) ← strtol s 16
  .ok (p.length = s.length)

/-! ## Registers -/

/-- `gdb_set_trace_flag`. -/
def gdbSetTraceFlag (traceEnable : Bool) (regs : Nat → Nat) : Nat → Nat :=
  putWord regs 36 (if traceEnable then word regs 36 ||| 0x100 else word regs 36 &&& 0xfffffeff)

def commandeH (s : Stub) : Except Fault SuitePaquet := do
  let sans ← sansNombre s.inbuf 2
  .ok (if sans then puterr s 4 else unknown s)

def commandeT (s : Stub) : Except Fault SuitePaquet := do
  let sans ← sansNombre s.inbuf 1
  .ok (if sans then puterr s 1 else unknown s)

def commandeg (s : Stub) : SuitePaquet := (s, .more, some [⟨(List.range SIZEOF_GDB_STATE).map s.regs, true⟩])

/-- The bytes before a character that is not a digit are stored all the same. -/
def commandeG (s : Stub) : SuitePaquet :=
  let (r, out) := hex2bin s.inbuf 1 SIZEOF_GDB_STATE
  let s := { s with regs := storeAt s.regs 0 out }
  if r ≠ 0 then puterr s 4 else ok { s with regsChanged := true }

/-- `(reg + 1) * sizeof (oskit_addr_t)` goes round, and `&regs[reg]` may then be before the structure. -/
def commandeP (s : Stub) : Except Fault SuitePaquet :=
  let (reg, eqp) := nombre s.inbuf 1
  if eqp = 1 ∨ s.inbuf eqp ≠ 61 then .ok (puterr s 4)
  else if reg = 0x29 then .ok (ok s)
  else if (reg + 1) * 4 % 2 ^ 32 > SIZEOF_GDB_STATE then .ok (puterr s 4)
  else
    let (r, out) := hex2bin s.inbuf (eqp + 1) 4
    let a := reg * 4 % 2 ^ 32
    if out ≠ [] ∧ SIZEOF_GDB_STATE < a + out.length then .error .outOfBounds
    else
      let s := { s with regs := storeAt s.regs a out }
      .ok (if r ≠ 0 then puterr s 4 else ok { s with regsChanged := true })

/-! ## Memory -/

/-- `gdb_copyin(src_va, &inbuf[dest], size)`. -/
def copyinDans (m : Ram) (cr0 cr3 : Nat) : Nat → (Nat → Nat) → Nat → Nat → Nat → Except Fault (Int × (Nat → Nat))
  | 0, _, _, _, _ => .error .diverge
  | k + 1, inbuf, dest, srcVa, size =>
    if size = 0 then .ok (0, inbuf)
    else
      match physAddrLookup m cr0 cr3 srcVa with
      | none => .ok (-1, inbuf)
      | some (pa, sz) =>
        let sz := if sz > size then size else sz
        if dest + sz > BUFMAX + 1 then .error .outOfBounds
        else copyinDans m cr0 cr3 k (storeAt inbuf dest (lireRam m pa sz)) (dest + sz) ((srcVa + sz) % 2 ^ 32) (size - sz)

/-- `len*2` goes round. A fragment of length 0 is sent up to its terminator. -/
def commandem (z : Client) (s : Stub) : Except Fault SuitePaquet :=
  let (addr, ptr) := nombre s.inbuf 1
  if ptr = 1 ∨ s.inbuf ptr ≠ 44 then .ok (puterr s 2)
  else
    let (len, ptr2) := nombre s.inbuf (ptr + 1)
    if ptr2 = ptr + 1 ∨ len * 2 % 2 ^ 32 > BUFMAX then .ok (puterr s 2)
    else do
      let (r, inbuf) ← copyinDans s.ram z.cr0 z.cr3 (len + 1) s.inbuf 0 addr len
      let s := { s with inbuf }
      if r ≠ 0 then .ok (puterr s 3)
      else .ok (s, .more, some [⟨if len = 0 then texteEn inbuf 0 else (List.range len).map inbuf, true⟩])

/-- A length that gets past the check by going round has no room on the stack for its `outbuf`. -/
def commandeM (z : Client) (s : Stub) : Except Fault SuitePaquet :=
  let (addr, ptr) := nombre s.inbuf 1
  if ptr = 1 ∨ s.inbuf ptr ≠ 44 then .ok (puterr s 2)
  else
    let (len, ptr2) := nombre s.inbuf (ptr + 1)
    if ptr2 = ptr + 1 ∨ s.inbuf ptr2 ≠ 58 then .ok (puterr s 2)
    else if (z.adr + (ptr2 + 1) + len * 2) % 2 ^ 32 > z.adr + BUFMAX then .ok (puterr s 2)
    else if len > BUFMAX then .error .outOfBounds
    else
      let (r, outbuf) := hex2bin s.inbuf (ptr2 + 1) len
      if r ≠ 0 then .ok (puterr s 2)
      else do
        let (r, ram) ← gdbCopyout s.ram z.cr0 z.cr3 outbuf addr
        .ok (if r ≠ 0 then puterr { s with ram } 3 else ok { s with ram })

/-- The loop that takes the escapes out: what it has written, and whether it got to the end. -/
def dequote : List Nat → Bool × List Nat
  | [] => (true, [])
  | [c] => if c = 0x7d then (false, []) else (true, [c])
  | c :: x :: l =>
    if c = 0x7d then
      let (r, out) := dequote l
      (r, (x ^^^ 0x20) :: out)
    else
      let (r, out) := dequote (x :: l)
      (r, c :: out)

/-- `len` counts the bytes of the packet, escapes included. `end` is before `in` when the sum goes round. -/
def commandeX (z : Client) (s : Stub) : Except Fault SuitePaquet :=
  let (addr, ptr) := nombre s.inbuf 1
  if ptr = 1 ∨ s.inbuf ptr ≠ 44 then .ok (puterr s 2)
  else
    let (len, ptr2) := nombre s.inbuf (ptr + 1)
    if ptr2 = ptr + 1 ∨ s.inbuf ptr2 ≠ 58 then .ok (puterr s 2)
    else if (z.adr + (ptr2 + 1) + len) % 2 ^ 32 > z.adr + BUFMAX then .ok (puterr s 2)
    else
      let n := if z.adr + (ptr2 + 1) + len < 2 ^ 32 then len else 0
      let (fini, out) := dequote ((List.range n).map fun j => s.inbuf (ptr2 + 1 + j))
      let s := { s with inbuf := storeAt s.inbuf 0 out }
      if fini = false then .ok (puterr s 2)
      else do
        let (r, ram) ← gdbCopyout s.ram z.cr0 z.cr3 out addr
        .ok (if r ≠ 0 then puterr { s with ram } 3 else ok { s with ram })

/-! ## Running -/

/-- `eip` is set when there is an address at `&inbuf[i]`, and the program goes on with the signal `sig`. -/
def reprend (s : Stub) (pas : Bool) (i sig : Nat) : SuitePaquet :=
  let (newEip, ptr) := nombre s.inbuf i
  let s := if ptr > i ∧ newEip ≠ word s.regs 32 then { s with regs := putWord s.regs 32 newEip, regsChanged := true } else s
  ({ s with regs := gdbSetTraceFlag pas s.regs, signo := sig }, .cont, none)

def commandec (s : Stub) : SuitePaquet := reprend s (s.inbuf 0 = 115) 1 0

def commandeC (s : Stub) : SuitePaquet :=
  let nsig := deuxHex (s.inbuf 1) (s.inbuf 2)
  if nsig ≤ 0 ∨ nsig ≥ NSIG then puterr s 5 else reprend s (s.inbuf 0 = 83) 3 nsig.toNat

/-- The `switch`. -/
def traite (z : Client) (s : Stub) : Except Fault SuitePaquet :=
  match s.inbuf 0 with
  -- The threads, the registers, the memory.
  | 72 => commandeH s
  | 84 => commandeT s
  | 103 => .ok (commandeg s)
  | 71 => .ok (commandeG s)
  | 80 => commandeP s
  | 109 => commandem z s
  | 77 => commandeM z s
  | 88 => commandeX z s
  -- `c` and `s`, then the same with a signal.
  | 99 | 115 => .ok (commandec s)
  | 67 | 83 => .ok (commandeC s)
  -- `?`, `D`, `R`, `k`, `d` and `!`.
  | 63 => .ok (s, .more, some (report s))
  | 68 => let (s, _, p) := ok { s with connected := false }; .ok (s, .detach, p)
  | 82 => .ok ({ s with connected := false }, .run, none)
  | 107 => .ok ({ s with connected := false }, .kill, none)
  | 100 => .ok (ok { s with serialDebug := !s.serialDebug })
  | 33 => .ok (ok s)
  | _ => .ok (unknown s)

/-! ## The loop -/

/-- One turn: the command is read, done and answered. -/
def tour (z : Client) (s : Stub) (ligne : List Nat) : Except Fault (Option (Stub × GdbAction × List Nat × List Nat)) :=
  match getpacket s.inbuf ligne with
  | none => .ok none
  | some (inbuf, envoi, ligne) => do
    let (s, action, paquet) ← traite z { s with inbuf, connected := true }
    match paquet with
    | none => .ok (some (s, action, envoi, ligne))
    | some frags => .ok ((putfrags frags ligne).map fun x => (s, action, envoi ++ x.1, x.2))

/-- A turn reads a byte at least. -/
def converseBoucle (z : Client) : Nat → Stub → List Nat → Except Fault (Option (Stub × GdbAction × List Nat × List Nat))
  | 0, _, _ => .ok none
  | n + 1, s, ligne => do
    match ← tour z s ligne with
    | none => .ok none
    | some (s, action, envoi, ligne) =>
      if action = .more then
        let r ← converseBoucle z n s ligne
        .ok (r.map fun x => (x.1, x.2.1, envoi ++ x.2.2.1, x.2.2.2))
      else .ok (some (s, action, envoi, ligne))

/-- The stub and the action it returns, what it has sent and what is left of the line. -/
def gdbSerialConverse (z : Client) (s : Stub) (ligne : List Nat) : Except Fault (Option (Stub × GdbAction × List Nat × List Nat)) :=
  match putfrags (report s) ligne with
  | none => .ok none
  | some (envoi, ligne) => do
    let r ← converseBoucle z (ligne.length + 1) { s with regsChanged := false } ligne
    .ok (r.map fun x => (x.1, x.2.1, envoi ++ x.2.2.1, x.2.2.2))

end Pcsea
