import Mathlib.Data.Rat.Defs
import Mathlib.Algebra.Order.Ring.Rat
import Pcsea.Message
/-!
# The kernel state

`struct Process` is kept field by field: `s.state i` is `process[i].state`. The
links `my_link` and `head_queue` are the `next` and `prev` of a `Maillon`. A
pointer to a process is the slot it points to.

Not modelled: the stacks and the register values. A register block holds a
`Contexte`, that is whose code runs when the block is loaded and where it goes
on. `retval` and `retval_fils` are the `int` pointed to.
-/

namespace Pcsea

def PROCESS_TABLE_SIZE : Nat := 30
def MAX_PRIO : Int := 256
def CLOCKFREQ : Nat := 100

instance : NeZero PROCESS_TABLE_SIZE := ⟨by decide⟩

/-- A pointer into `process`. -/
abbrev Slot := Fin PROCESS_TABLE_SIZE

instance : LawfulBEq Slot := inferInstance

/-- `enum process_state`. -/
inductive Etat where
  | elu
  | activable
  | endormi
  | mort
  | zombie
  | semaphore
  deriving DecidableEq, Repr

/-- A `link`: `head_queue`, or the `my_link` of a process. -/
inductive Maillon where
  | head
  | elem (i : Slot)
  deriving DecidableEq, Repr

/-- Where a context goes on. -/
inductive Suite where
  /-- in the process's own code -/
  | code
  /-- in `psend`, after `ordonnance()` -/
  | psend (q : Fin NBQUEUE) (message : Int) (tmp : Slot)
  /-- in `preceive`, after `ordonnance()` -/
  | preceive (q : Fin NBQUEUE) (tmp : Slot)
  /-- in `waitpid(pid, retvalp)`, at `test_it()` in `pid_dun_fils_termine`; `retvalp` says whether
  the pointer is not NULL -/
  | attente (pid : Int) (retvalp : Bool) (fils : Option Slot)
  /-- in `exit`, after `fin_processus()` -/
  | exit
  /-- in `kill`, after `fin_processus()` -/
  | kill
  /-- at the end of `fin_processus`, entered by returning from the process's function -/
  | retour
  deriving DecidableEq

structure Contexte where
  code : Slot
  suite : Suite
  deriving DecidableEq

/-- A call of `ctx_sw`: the block saved into, whose code was running, the block loaded. -/
structure Bascule where
  sauve : Slot
  code : Slot
  charge : Slot
  deriving DecidableEq

structure St where
  pid : Slot → Int
  name : Slot → String
  state : Slot → Etat
  regs : Slot → Option Contexte
  timeToWake : Slot → ℚ
  prio : Slot → Nat
  suiv : Slot → Option Slot
  premierFils : Slot → Option Slot
  dernierFils : Slot → Option Slot
  pere : Slot → Option Slot
  frereDroit : Slot → Option Slot
  retval : Slot → Option Int
  retvalFils : Slot → Option Int
  pidRetFils : Slot → Int
  next : Maillon → Option Maillon
  prev : Maillon → Option Maillon
  endormiList : Option Slot
  endormiTail : Option Slot
  deadList : Option Slot
  deadTail : Option Slot
  processAlive : Nat
  actif : Option Slot
  nbTick : Nat
  sec : Nat
  min : Nat
  hour : Nat
  messages : Messages Slot
  /-- what the processor runs, and the block it was loaded from -/
  cpu : Contexte
  charge : Slot
  /-- the calls of `ctx_sw`, newest first -/
  journal : List Bascule

/-- Zeroed memory and `LIST_HEAD(head_queue)`. The code of `kernel_start` runs
as process 0, which it is about to create. -/
def St.zero : St where
  pid := fun _ => 0
  name := fun _ => ""
  state := fun _ => .elu
  regs := fun _ => none
  timeToWake := fun _ => 0
  prio := fun _ => 0
  suiv := fun _ => none
  premierFils := fun _ => none
  dernierFils := fun _ => none
  pere := fun _ => none
  frereDroit := fun _ => none
  retval := fun _ => none
  retvalFils := fun _ => none
  pidRetFils := fun _ => 0
  next := fun m => if m = .head then some .head else none
  prev := fun m => if m = .head then some .head else none
  endormiList := none
  endormiTail := none
  deadList := none
  deadTail := none
  processAlive := 0
  actif := none
  nbTick := 0
  sec := 0
  min := 0
  hour := 0
  messages := .boot
  cpu := ⟨0, .code⟩
  charge := 0
  journal := []

/-- `&process[i]`, for an `int` or `uint32_t` index. -/
def caseDe (i : Int) : Except Fault Slot :=
  if h : 0 ≤ i ∧ i < PROCESS_TABLE_SIZE then .ok ⟨i.toNat, by omega⟩ else .error .outOfBounds

theorem caseDe_val (i : Slot) : caseDe (i.val : Int) = .ok i := by
  have h : (0 : Int) ≤ i.val ∧ (i.val : Int) < PROCESS_TABLE_SIZE := ⟨by omega, by exact_mod_cast i.isLt⟩
  simp [caseDe, h]

theorem caseDe_error {n : Int} {x : Fault} (h : caseDe n = .error x) : x = .outOfBounds := by
  unfold caseDe at h
  split at h
  · cases h
  · exact (Except.error.inj h).symm

namespace St

def setState (s : St) (i : Slot) (x : Etat) : St := { s with state := Function.update s.state i x }
def setSuiv (s : St) (i : Slot) (x : Option Slot) : St := { s with suiv := Function.update s.suiv i x }
def setNext (s : St) (m : Maillon) (x : Option Maillon) : St := { s with next := Function.update s.next m x }
def setPrev (s : St) (m : Maillon) (x : Option Maillon) : St := { s with prev := Function.update s.prev m x }
def setPere (s : St) (i : Slot) (x : Option Slot) : St := { s with pere := Function.update s.pere i x }
def setFrereDroit (s : St) (i : Slot) (x : Option Slot) : St := { s with frereDroit := Function.update s.frereDroit i x }
def setPrio (s : St) (i : Slot) (x : Nat) : St := { s with prio := Function.update s.prio i x }
def setRetval (s : St) (i : Slot) (x : Option Int) : St := { s with retval := Function.update s.retval i x }
def setRetvalFils (s : St) (i : Slot) (x : Option Int) : St := { s with retvalFils := Function.update s.retvalFils i x }

/-- The running code has reached `x`. -/
def setSuite (s : St) (x : Suite) : St := { s with cpu := { s.cpu with suite := x } }

end St

end Pcsea
