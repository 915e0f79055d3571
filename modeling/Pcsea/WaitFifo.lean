import Pcsea.Fault
/-!
# `fifo_process.c`: circular lists of waiting processes

A `Fifo_process` is NULL or points on the newest cell of a circular list,
whose `next` is the oldest. The cells come from `mem_alloc`: the heap keeps a
cell for each allocation, `none` once freed, and never gives an allocation the
identity of an earlier one, so a use after free is always seen. `π` is the type
of process pointers.
-/

namespace Pcsea

variable {π : Type}

/-- `struct For_fifo_process`. -/
structure ForFifoProcess (π : Type) where
  process : π
  next : Option Nat

/-- `Fifo_process`: a pointer on the tail. -/
abbrev FifoProcess := Option Nat

/-- The cells of `mem_alloc`. -/
abbrev Heap (π : Type) := List (Option (ForFifoProcess π))

/-- The cell at `a`, while it is allocated. -/
def Heap.cell (h : Heap π) (a : Nat) : Option (ForFifoProcess π) := (h[a]?).join

def Heap.read (h : Heap π) (a : Nat) : Except Fault (ForFifoProcess π) :=
  match h.cell a with
  | some c => .ok c
  | none => .error .useAfterFree

def initList : FifoProcess := none

def isEmpty (fifo : FifoProcess) : Bool := fifo.isNone

def initElement (process : π) (h : Heap π) : Nat × Heap π :=
  (h.length, h ++ [some ⟨process, none⟩])

def addProcess (fifo : FifoProcess) (process : π) (h : Heap π) : Except Fault (FifoProcess × Heap π) :=
  let (new, h) := initElement process h
  match fifo with
  | none => .ok (some new, h.set new (some ⟨process, some new⟩))
  | some f => do
    let c ← h.read f
    let h := h.set new (some ⟨process, c.next⟩)
    .ok (some new, h.set f (some { c with next := some new }))

def destroyElement (element : Nat) (h : Heap π) : Heap π := h.set element none

/-- `extract_process`: the new tail, the process extracted (none when the fifo
is NULL and `*process_extracted` is left alone) and the heap. -/
def extractProcess (fifo : FifoProcess) (h : Heap π) :
    Except Fault (FifoProcess × Option π × Heap π) :=
  match fifo with
  | none => .ok (none, none, h)
  | some f => do
    let c ← h.read f
    let temp ← deref c.next
    let t ← h.read temp
    if temp = f then .ok (none, some t.process, destroyElement temp h)
    else .ok (some f, some t.process, destroyElement temp (h.set f (some { c with next := t.next })))

/-- The loop of `contains`, for `n` cells at most. -/
def containsLoop (pid : π → Int) (h : Heap π) (p : Int) : Nat → FifoProcess → Except Fault Bool
  | _, none => .ok false
  | 0, some _ => .error .diverge
  | n + 1, some a => do
    let c ← h.read a
    if pid c.process = p then .ok true else containsLoop pid h p n c.next

def contains (pid : π → Int) (fifo : FifoProcess) (p : Int) (h : Heap π) : Except Fault Bool :=
  containsLoop pid h p (h.length + 1) fifo

/-- The loop of `getSize`, for `n` cells at most. -/
def getSizeLoop (h : Heap π) : Nat → FifoProcess → Except Fault Int
  | _, none => .ok 0
  | 0, some _ => .error .diverge
  | n + 1, some a => do
    let c ← h.read a
    let size ← getSizeLoop h n c.next
    .ok (size + 1)

def getSize (fifo : FifoProcess) (h : Heap π) : Except Fault Int := getSizeLoop h (h.length + 1) fifo

end Pcsea
