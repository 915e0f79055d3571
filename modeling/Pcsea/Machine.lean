import Pcsea.Process
/-!
# The kernel as a transition system

Interrupts are masked inside the kernel: a step is one kernel call up to its
end or to the next `ordonnance()` or `test_it()` that suspends it, the rest of
a suspended call, or a tick of the clock taken where interrupts are enabled.
-/

namespace Pcsea

/-- A kernel call of the running code. -/
inductive Appel where
  | start (ssize : Nat) (prio : Int) (name : String)
  | exit (retval : Int)
  /-- the function of the process returns `v` -/
  | retour (v : Int)
  | kill (pid : Int)
  | chprio (pid newprio : Int)
  | waitpid (pid : Int) (retvalp : Bool)
  | dors (nbrSecs : Nat)
  | sleepUntil (time : ℚ)
  | waitClock (clock : Nat)
  | pcreate (count : Int) (contenu : Option (Nat → Int))
  | pdelete (fid : Int)
  | preset (fid : Int)
  | psend (fid message : Int)
  | preceive (fid : Int)

inductive Event where
  | appel (a : Appel)
  /-- a suspended call goes on -/
  | suite
  | tick

/-- A call without a result to return. -/
def sansIssue (x : Except Fault St) : Except Fault (Issue × St) := do
  let s ← x
  .ok (.enCours, s)

theorem sansIssue_eq_ok {x : Except Fault St} {r : Issue} {s : St} : sansIssue x = .ok (r, s) ↔ x = .ok s ∧ r = .enCours := by
  rw [sansIssue, Lib.bind_answer_eq_ok, eq_comm (b := r)]

def appelle : Appel → St → Except Fault (Issue × St)
  | .start ssize prio name, s => start ssize prio name s
  | .exit retval, s => sansIssue (exit retval s)
  | .retour _, s => sansIssue (retourFonction s)
  | .kill pid, s => kill pid s
  | .chprio pid newprio, s => do
    let (r, s) ← chprio pid newprio s
    .ok (.rend r, s)
  | .waitpid pid retvalp, s => waitpid pid retvalp s
  | .dors nbrSecs, s => sansIssue (dors nbrSecs s)
  | .sleepUntil time, s => sansIssue (sleepUntil time s)
  | .waitClock clock, s => sansIssue (waitClock clock s)
  | .pcreate count contenu, s =>
    let (r, messages) := pcreate s.messages count contenu
    .ok (.rend r, { s with messages })
  | .pdelete fid, s => pdelete fid s
  | .preset fid, s => preset fid s
  | .psend fid message, s => psend fid message s
  | .preceive fid, s => preceive fid s

/-- The suspended call of the running context goes on. -/
def poursuit (s : St) : Except Fault (Issue × St) :=
  match s.cpu.suite with
  | .code => .ok (.enCours, s)
  | .psend q message tmp => psendFin q message tmp (s.setSuite .code)
  | .preceive q tmp => preceiveFin q tmp (s.setSuite .code)
  | .attente pid retvalp fils => pidDunFilsTermine pid retvalp fils s
  | .exit => .ok (.enCours, s)
  | .kill => .ok (.rend 0, s.setSuite .code)
  -- `ret` takes the argument of the process for its return address.
  | .retour => .error .outOfBounds

def joue : Event → St → Except Fault (Issue × St)
  | .appel a, s => appelle a s
  | .suite, s => poursuit s
  | .tick, s => sansIssue (ticPitClock s)

/-- Calls are made by a process's own code, and only there, at `test_it()` and
in the last loop of `exit` can a tick come. -/
def Event.possible (e : Event) (s : St) : Bool :=
  match e, s.cpu.suite with
  | .appel _, .code => true
  | .appel _, _ => false
  | .suite, .code => false
  | .suite, _ => true
  | .tick, .code => true
  | .tick, .attente _ _ _ => true
  | .tick, .exit => true
  | .tick, _ => false

/-- The step relation. -/
def Pas (s : St) (e : Event) (r : Issue) (s' : St) : Prop :=
  e.possible s = true ∧ joue e s = .ok (r, s')

/-- Only a process's own code makes calls. -/
theorem Pas.code {s s' : St} {c : Appel} {r : Issue} (h : Pas s (.appel c) r s') : s.cpu.suite = .code := by
  obtain ⟨hp, -⟩ := h
  cases hs : s.cpu.suite with
  | code => rfl
  | _ => simp [Event.possible, hs] at hp

/-- The step on `e`, if it is possible and ends well. -/
def tente (s : St) (e : Event) : Option (Issue × St) := if e.possible s then (joue e s).toOption else none

theorem tente_eq_some {s s' : St} {e : Event} {r : Issue} : tente s e = some (r, s') ↔ Pas s e r s' := by
  unfold tente Pas
  rw [← Lib.toOption_eq_some]
  split <;> simp_all

end Pcsea
