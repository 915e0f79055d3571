import Pcsea.Lists
/-!
# `ordonnance`, sleeping and termination
-/

namespace Pcsea

/-- `ctx_sw(process[a].regs, process[b].regs)`. -/
def ctxSw (a b : Slot) (s : St) : Except Fault St := do
  let regs := Function.update s.regs a (some s.cpu)
  let c ← deref (regs b)
  .ok { s with regs, cpu := c, charge := b, journal := ⟨a, s.cpu.code, b⟩ :: s.journal }

/-- The loop of `wake_process`, from `tmp`. -/
def wakeProcessLoop : Nat → Option Slot → St → Except Fault St
  | _, none, s => .ok s
  | 0, some _, _ => .error .diverge
  | n + 1, some tmp, s =>
    if s.timeToWake tmp ≤ s.nbTick ∧ s.endormiTail ≠ none then do
      let (e, s) ← extractEndormi s
      let s ← insertActivable e s
      wakeProcessLoop n (s.suiv tmp) s
    else .ok s

def wakeProcess (s : St) : Except Fault St := wakeProcessLoop (PROCESS_TABLE_SIZE + 1) s.endormiList s

/-- The process `ordonnance` elects: the head of the ready queue, or `actif`. -/
def elit (a : Slot) (s : St) : Except Fault (Option Slot × St) := do
  let top ← queueTop s
  match top with
  | none => .ok (some a, s)
  | some t =>
    if s.prio a ≤ s.prio t ∨ s.state a = .endormi then extractActivable s else .ok (some a, s)

/-- `ordonnance` after `wake_process`. -/
def ordonnanceSuite (s : St) : Except Fault St := do
  let a ← deref s.actif
  let oldPid ← caseDe (s.pid a)
  let (newActif, s) ← elit a s
  match newActif with
  | none => .ok s
  | some n => do
    let nextPid ← caseDe (s.pid n)
    -- The one that runs goes to the ready queue unless it has just gone to sleep.
    let s ← if s.state a ≠ .endormi ∧ a ≠ n then insertActivable a s else .ok s
    ctxSw oldPid nextPid { s with actif := some n }

def ordonnance (s : St) : Except Fault St := do
  let s ← wakeProcess s
  ordonnanceSuite s

/-- The loop of `fin_processus` over the children: none keeps its father, the zombies die. -/
def finProcessusFils : Nat → Option Slot → St → Except Fault St
  | _, none, s => .ok s
  | 0, some _, _ => .error .diverge
  | n + 1, some fils, s => do
    let s := s.setPere fils none
    let frere := s.frereDroit fils
    let s ← if s.state fils = .zombie then insertMort fils s else .ok s
    finProcessusFils n frere s

/-- The loop of `fin_processus` that takes `actif` out of its father's list. -/
def finProcessusPere (actif : Slot) : Nat → Option Slot → Option Slot → St → Except Fault St
  | _, _, none, s => .ok s
  | 0, _, some _, _ => .error .diverge
  | n + 1, prec, some fils, s =>
    -- A zombie stays in the list, for `waitpid`.
    if s.state actif = .zombie then .ok s
    else if fils = actif then
      match prec with
      | some p =>
        let s := s.setFrereDroit p (s.frereDroit fils)
        finProcessusPere actif n (some fils) (s.frereDroit fils) s
      | none => do
        let prec := s.frereDroit fils
        let p ← deref prec
        finProcessusPere actif n prec (s.frereDroit p) s
    else finProcessusPere actif n (some fils) (s.frereDroit fils) s

/-- `fin_processus` up to the choice of the next process. -/
def finProcessusTable (a : Slot) (s : St) : Except Fault St := do
  let s ←
    match s.pere a with
    | none => insertMort a s
    | some p =>
      let s := s.setState a .zombie
      .ok { s with pidRetFils := Function.update s.pidRetFils p (s.pid a) }
  let s ← finProcessusFils (PROCESS_TABLE_SIZE + 1) (s.premierFils a) s
  let p ← deref (s.pere a)
  finProcessusPere a (PROCESS_TABLE_SIZE + 1) none (s.premierFils p) s

def finProcessus (s : St) : Except Fault St := do
  let a ← deref s.actif
  let s ← finProcessusTable a s
  let oldPid ← caseDe (s.pid a)
  let (newActif, s) ← extractActivable s
  let s := { s with processAlive := predUint32 s.processAlive }
  match newActif with
  -- Nobody is ready: idle, without changing `actif`.
  | none => ctxSw oldPid 0 s
  | some n => do
    let nextPid ← caseDe (s.pid n)
    ctxSw oldPid nextPid { s with actif := some n }

/-! ## Sleeping and the clock -/

def sleepUntil (time : ℚ) (s : St) : Except Fault St := do
  let a ← deref s.actif
  let s ← insertEndormi a time s
  ordonnance s

def dors (nbrSecs : Nat) (s : St) : Except Fault St := sleepUntil nbrSecs s

def waitClock (clock : Nat) (s : St) : Except Fault St := sleepUntil (clock / CLOCKFREQ : Nat) s

/-- `change_clock`, less the display. -/
def changeClock (s : St) : St :=
  let newMinute := s.sec / 60
  let sec := s.sec - newMinute * 60
  let min := (s.min + newMinute) % 2 ^ 32
  let newHour := min / 60
  let min := min - newHour * 60
  let hour := (s.hour + newHour) % 2 ^ 32
  -- The display has two digits.
  if 99 < hour then { s with hour := 99, min := 59, sec := 59 } else { s with hour, min, sec }

def ticPitClock (s : St) : Except Fault St :=
  let s := { s with nbTick := succUint32 s.nbTick }
  let s := if s.nbTick % CLOCKFREQ = 0 then changeClock { s with sec := succUint32 s.sec } else s
  ordonnance s

end Pcsea
