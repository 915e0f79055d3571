import Pcsea.ReadyQueue
/-!
# The dead, ready and sleep lists of `proc.c`
-/

namespace Pcsea

def insertMort (element : Slot) (s : St) : Except Fault St := do
  let s := s.setState element .mort
  let s ←
    if s.deadList = none then .ok { s with deadList := some element, deadTail := some element }
    else do
      let t ← deref s.deadTail
      let s := s.setSuiv t (some element)
      .ok { s with deadTail := s.suiv t }
  .ok (s.setSuiv element none)

/-- NULL when `dead_list` is; the link `suiv` of the process taken is left as it is. -/
def extractMort (s : St) : Option Slot × St :=
  match s.deadList with
  | none => (none, s)
  | some tmp =>
    if s.deadList = s.deadTail then (some tmp, { s with deadList := none, deadTail := none })
    else (some tmp, { s with deadList := s.suiv tmp })

def extractActivable (s : St) : Except Fault (Option Slot × St) := do
  if queueEmpty s then .ok (none, s)
  else
    let (tmp, s) ← queueOut s
    let e ← deref tmp
    .ok (some e, s.setSuiv e none)

def insertActivable (element : Slot) (s : St) : Except Fault St :=
  let s := s.setState element .activable
  let s := s.setSuiv element none
  queueAdd element s

def extractEndormi (s : St) : Except Fault (Slot × St) := do
  let tmp := s.endormiList
  let s ←
    if s.endormiList = s.endormiTail then .ok { s with endormiList := none, endormiTail := none }
    else do
      let h ← deref s.endormiList
      .ok { s with endormiList := s.suiv h }
  let e ← deref tmp
  .ok (e, s.setSuiv e none)

/-- The loop of `insert_endormi`, with its two cursors; the result says whether
the element was placed. -/
def insertEndormiLoop (element : Slot) :
    Nat → Bool → Option Slot → Option Slot → St → Except Fault (Bool × St)
  | _, _, none, _, s => .ok (false, s)
  | 0, _, some _, _, _ => .error .diverge
  | n + 1, isHead, some tmp, prec, s =>
    if s.timeToWake element < s.timeToWake tmp then
      if isHead then
        .ok (true, { s with endormiList := some element }.setSuiv element (some tmp))
      else do
        let p ← deref prec
        .ok (true, (s.setSuiv p (some element)).setSuiv element (some tmp))
    else if isHead then insertEndormiLoop element n false (s.suiv tmp) prec s
    else do
      let p ← deref prec
      insertEndormiLoop element n false (s.suiv tmp) (s.suiv p) s

def insertEndormi (element : Slot) (time : ℚ) (s : St) : Except Fault St := do
  let s := { s with timeToWake := Function.update s.timeToWake element time }
  let s := s.setState element .endormi
  if s.endormiTail = none then
    .ok { s.setSuiv element none with endormiList := some element, endormiTail := some element }
  else do
    let (alreadyAdd, s) ←
      insertEndormiLoop element (PROCESS_TABLE_SIZE + 1) true s.endormiList s.endormiList s
    let s ←
      if alreadyAdd then .ok s
      else do
        let t ← deref s.endormiTail
        let s := s.setSuiv t (some element)
        .ok { s with endormiTail := s.suiv t }
    let t ← deref s.endormiTail
    .ok (s.setSuiv t none)

/-- The loop of `sleep_del` past the head of the list. -/
def sleepDelLoop (pid : Int) : Nat → Option Slot → Slot → St → Except Fault St
  | _, none, _, s => .ok s
  | 0, some _, _, _ => .error .diverge
  | n + 1, some tmp, prec, s => do
    let s ←
      if s.pid tmp = pid then do
        let t ← deref s.endormiTail
        let s := if s.pid tmp = s.pid t then { s with endormiTail := some prec } else s
        let s := s.setSuiv prec (s.suiv tmp)
        let s := s.setSuiv tmp none
        insertMort tmp s
      else .ok s
    sleepDelLoop pid n (s.suiv tmp) tmp s

/-- `sleep_del`: only the deletion of the head returns 0. -/
def sleepDel (pid : Int) (s : St) : Except Fault (Int × St) :=
  match s.endormiList with
  | none => .ok (-1, s)
  | some h =>
    if s.pid h = pid then do
      let s := if s.endormiList = s.endormiTail then { s with endormiTail := none } else s
      let s := { s with endormiList := s.suiv h }
      let s ← insertMort h (s.setSuiv h none)
      .ok (0, s)
    else do
      let s ← sleepDelLoop pid (PROCESS_TABLE_SIZE + 1) (s.suiv h) h s
      .ok (-1, s)

end Pcsea
