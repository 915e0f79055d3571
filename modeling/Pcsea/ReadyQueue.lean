import Pcsea.State
/-!
# `queue.h` on `head_queue`

The macros as the kernel uses them: on `&head_queue`, `my_link` and `prio`.
-/

namespace Pcsea

/-- `queue_entry`: NULL and the list head are no processes. -/
def queueEntry : Maillon → Except Fault Slot
  | .elem i => .ok i
  | .head => .error .outOfBounds

/-- The scan of `queue_add`: from `cur`, on while the process there has a lower priority. -/
def queueAddScan (s : St) (p : Nat) : Nat → Maillon → Except Fault Maillon
  | 0, _ => .error .diverge
  | n + 1, cur => do
    let cur ← deref (s.next cur)
    match cur with
    | .head => .ok .head
    | .elem i => if s.prio i < p then queueAddScan s p n (.elem i) else .ok (.elem i)

def queueAdd (e : Slot) (s : St) : Except Fault St := do
  assert ((s.prev (.elem e)).isNone && (s.next (.elem e)).isNone)
  let cur ← queueAddScan s (s.prio e) (PROCESS_TABLE_SIZE + 1) .head
  let s := s.setNext (.elem e) (some cur)
  let s := s.setPrev (.elem e) (s.prev cur)
  let p ← deref (s.prev cur)
  let s := s.setNext p (some (.elem e))
  .ok (s.setPrev cur (some (.elem e)))

def queueEmpty (s : St) : Bool := s.next .head = some .head

/-- `queue_out`: NULL when the queue is empty. -/
def queueOut (s : St) : Except Fault (Option Slot × St) := do
  let ptr := s.prev .head
  if queueEmpty s then .ok (none, s)
  else
    let p ← deref ptr
    let s := s.setPrev .head (s.prev p)
    let p' ← deref (s.prev .head)
    let s := s.setNext p' (some .head)
    let s := s.setPrev p none
    let s := s.setNext p none
    let e ← queueEntry p
    .ok (some e, s)

def queueDel (e : Slot) (s : St) : Except Fault St := do
  assert ((s.prev (.elem e)).isSome && (s.next (.elem e)).isSome)
  let p ← deref (s.prev (.elem e))
  let s := s.setNext p (s.next (.elem e))
  let n ← deref (s.next (.elem e))
  let s := s.setPrev n (s.prev (.elem e))
  let s := s.setNext (.elem e) none
  .ok (s.setPrev (.elem e) none)

/-- `queue_top`: NULL when the queue is empty. -/
def queueTop (s : St) : Except Fault (Option Slot) := do
  if queueEmpty s then .ok none
  else
    let p ← deref (s.prev .head)
    let e ← queueEntry p
    .ok (some e)

/-- `queue_for_each` stopping at the process of pid `pid`; `n` links at most. -/
def queueFind (s : St) (pid : Int) : Nat → Maillon → Except Fault (Option Slot)
  | 0, _ => .error .diverge
  | n + 1, cur => do
    match ← deref (s.next cur) with
    | .head => .ok none
    | .elem i => if s.pid i = pid then .ok (some i) else queueFind s pid n (.elem i)

end Pcsea
