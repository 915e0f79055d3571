import Pcsea.WaitFifo
/-!
# `message.c`: message queues

`psend` and `preceive` are cut where they call `ordonnance()`: `psendEntree`
is the code up to that call, `psendSuite` the code after it, reached at once
when the queue is not full. Making a process ready (`insert_activable`) is the
caller's: the functions here return the process to wake. The loops of `pdelete`
and `preset` are in `Pcsea.Process`.
-/

namespace Pcsea

def NBQUEUE : Nat := 10

variable {π : Type}

/-- A block of `mem_alloc`, seen as an array of `int`. -/
structure Bloc where
  octets : Nat
  mots : Nat → Int
  libere : Bool

def Bloc.acces (b : Bloc) (i : Int) : Except Fault Nat :=
  if b.libere then .error .useAfterFree
  else if 0 ≤ i ∧ 4 * i + 4 ≤ b.octets then .ok i.toNat
  else .error .outOfBounds

def Bloc.lit (b : Bloc) (i : Int) : Except Fault Int := do
  let k ← b.acces i
  .ok (b.mots k)

def Bloc.ecrit (b : Bloc) (i v : Int) : Except Fault Bloc := do
  let k ← b.acces i
  .ok { b with mots := Function.update b.mots k v }

structure FifoMessages where
  consum : FifoProcess
  prod : FifoProcess
  tabMessages : Option Bloc
  size : Int
  nbElement : Int
  down : Int
  fid : Int
  used : Bool

/-- `fifo_tab`, `shouldReceiveNegativeOne` and the cells of the waiting rings. -/
structure Messages (π : Type) where
  fifoTab : Fin NBQUEUE → FifoMessages
  shouldReceiveNegativeOne : FifoProcess
  heap : Heap π

/-- After `initialisation_fifo_tab`, on zeroed memory. -/
def Messages.boot : Messages π where
  fifoTab := fun _ => ⟨none, none, none, 0, 0, 0, 0, false⟩
  shouldReceiveNegativeOne := none
  heap := []

def Messages.set (m : Messages π) (q : Fin NBQUEUE) (f : FifoMessages) : Messages π :=
  { m with fifoTab := Function.update m.fifoTab q f }

/-- `fid < 0 || fid >= NBQUEUE || fifo_tab[fid].used == false`, or the entry of `fifo_tab`. -/
def Messages.ouverte (m : Messages π) (fid : Int) : Option (Fin NBQUEUE) :=
  if h : 0 ≤ fid ∧ fid < NBQUEUE then
    let q : Fin NBQUEUE := ⟨fid.toNat, by omega⟩
    if (m.fifoTab q).used then some q else none
  else none

/-- `mem_alloc(n)`: NULL, or a block of `n` bytes with some contents. -/
def memAlloc (contenu : Option (Nat → Int)) (n : Nat) : Option Bloc :=
  contenu.map fun mots => ⟨n, mots, false⟩

/-- `contenu` is what `mem_alloc` returns for the buffer. -/
def pcreate (m : Messages π) (count : Int) (contenu : Option (Nat → Int)) : Int × Messages π :=
  if count < 1 then (-1, m)
  else
    match (List.finRange NBQUEUE).find? (fun i => !(m.fifoTab i).used) with
    | none => (-1, m)
    | some q =>
      (q, m.set q
        { fid := q
          down := 0
          size := count
          consum := initList
          prod := initList
          used := true
          nbElement := 0
          tabMessages := memAlloc contenu (toUint32 (4 * count)) })

/-- What the code before `ordonnance()` decides. -/
inductive Entree where
  | invalide
  | bloque (q : Fin NBQUEUE)
  | passe (q : Fin NBQUEUE)
  deriving DecidableEq, Repr

def psendEntree (m : Messages π) (fid : Int) (tmp : π) : Except Fault (Entree × Messages π) :=
  match m.ouverte fid with
  | none => .ok (.invalide, m)
  | some q =>
    let f := m.fifoTab q
    if f.nbElement = f.size then do
      let (consum, heap) ← addProcess f.consum tmp m.heap
      .ok (.bloque q, { m.set q { f with consum } with heap })
    else .ok (.passe q, m)

/-- `psend` after the wait: its return value and the process it wakes. -/
def psendSuite (pid : π → Int) (m : Messages π) (q : Fin NBQUEUE) (message : Int) (tmp : π) :
    Except Fault (Int × Option π × Messages π) := do
  -- The queue was emptied while the process waited.
  if ← contains pid m.shouldReceiveNegativeOne (pid tmp) m.heap then .ok (-1, none, m)
  else
    let f := m.fifoTab q
    let i ← addInt f.down f.nbElement
    let i ← modInt i f.size
    let tab ← deref f.tabMessages
    let tab ← tab.ecrit i message
    let nbElement ← addInt f.nbElement 1
    let f := { f with tabMessages := some tab, nbElement }
    if isEmpty f.prod then .ok (0, none, m.set q f)
    else
      let (prod, reveil, heap) ← extractProcess f.prod m.heap
      .ok (0, reveil, { m.set q { f with prod } with heap })

/-- The waiting receiver is added behind `f->consum`, as the source does. -/
def preceiveEntree (m : Messages π) (fid : Int) (tmp : π) : Except Fault (Entree × Messages π) :=
  match m.ouverte fid with
  | none => .ok (.invalide, m)
  | some q =>
    let f := m.fifoTab q
    if f.nbElement = 0 then do
      let (prod, heap) ← addProcess f.consum tmp m.heap
      .ok (.bloque q, { m.set q { f with prod } with heap })
    else .ok (.passe q, m)

/-- `preceive` after the wait: the message stored in `*message` (none when it
returns -1) and the process it wakes. -/
def preceiveSuite (pid : π → Int) (m : Messages π) (q : Fin NBQUEUE) (tmp : π) :
    Except Fault (Option Int × Option π × Messages π) := do
  if ← contains pid m.shouldReceiveNegativeOne (pid tmp) m.heap then .ok (none, none, m)
  else
    let f := m.fifoTab q
    let tab ← deref f.tabMessages
    let message ← tab.lit f.down
    let nbElement ← addInt f.nbElement (-1)
    let down ← addInt f.down 1
    let f := { f with nbElement, down := if down = f.size then 0 else down }
    if isEmpty f.consum then .ok (some message, none, m.set q f)
    else
      let (consum, reveil, heap) ← extractProcess f.consum m.heap
      .ok (some message, reveil, { m.set q { f with consum } with heap })

/-- `pcount(fid, &n)` where `n` is `count`: its return value and the new `n`. -/
def pcount (m : Messages π) (fid count : Int) : Except Fault (Int × Int) :=
  if h : 0 ≤ fid ∧ fid < NBQUEUE then do
    let f := m.fifoTab ⟨fid.toNat, by omega⟩
    let consum ← getSize f.consum m.heap
    let data ← getSize f.prod m.heap
    let data ← addInt data f.nbElement
    -- With nothing to count `*count` is not written.
    .ok (0, if consum ≠ 0 then -consum else if data ≠ 0 then data else count)
  else .ok (-1, count)

end Pcsea
