import Pcsea.Scheduler
/-!
# The kernel calls of `proc.c` and `message.c`

A call that ends hands `Issue` to the caller; a call that `ordonnance()` or
`test_it()` interrupts goes on later, from the `Suite` it left in the context.
-/

namespace Pcsea

/-- What a step gives the running code. -/
inductive Issue where
  /-- nothing yet -/
  | enCours
  /-- the call returned -/
  | rend (v : Int)
  /-- `start` returned the pid of this slot -/
  | cree (i : Slot)
  /-- `psend` stored the message and returned 0 -/
  | emis (q : Fin NBQUEUE) (message : Int)
  /-- `preceive` stored the message in `*message` and returned 0 -/
  | recu (q : Fin NBQUEUE) (message : Int)
  /-- `waitpid(pid, retvalp)` returned `ret`, after storing `ecrit` in `*retvalp` -/
  | attendu (pid : Int) (retvalp : Bool) (ret : Int) (ecrit : Option Int)
  deriving DecidableEq

/-! ## Creation -/

/-- The slot `start` takes: the oldest dead one, or number `process_alive`. -/
def prendSlot (s : St) : Except Fault (Slot × St) :=
  let (newP, s) := extractMort s
  do
    let index ←
      match newP with
      | none => caseDe (toInt32 s.processAlive)
      | some p => caseDe (s.pid p)
    .ok (index, s)

/-- The child list of `actif` after `start` has created `i`. -/
def ajouteFils (i : Slot) (s : St) : Except Fault St :=
  match s.actif with
  | none => .ok s
  | some a =>
    if s.premierFils a = none then
      .ok { s with
        premierFils := Function.update s.premierFils a (some i)
        dernierFils := Function.update s.dernierFils a (some i) }
    else do
      let d ← deref (s.dernierFils a)
      let s := s.setFrereDroit d (some i)
      .ok { s with dernierFils := Function.update s.dernierFils a (s.frereDroit d) }

/-- The fields `start` sets in `process[i]`. -/
def initSlot (i : Slot) (name : String) (prio : Int) (s : St) : St :=
  { s with
    pid := Function.update s.pid i i.val
    name := Function.update s.name i name
    prio := Function.update s.prio i (toUint32 prio)
    regs := Function.update s.regs i (some ⟨i, .code⟩)
    pere := Function.update s.pere i s.actif
    dernierFils := Function.update s.dernierFils i none
    frereDroit := Function.update s.frereDroit i none
    premierFils := Function.update s.premierFils i none
    suiv := Function.update s.suiv i none
    retval := Function.update s.retval i none
    pidRetFils := Function.update s.pidRetFils i (-1) }

/-- The stack size, an `unsigned long`, is only checked. `strcpy` into `char name[15]` takes 14
characters. -/
def start (ssize : Nat) (prio : Int) (name : String) (s : St) : Except Fault (Issue × St) :=
  if 0xffffffff ≤ ssize then .ok (.rend (-1), s)
  -- No priority meets this test.
  else if MAX_PRIO ≤ prio ∧ prio < 0 then .ok (.rend (-1), s)
  else if s.processAlive = PROCESS_TABLE_SIZE then .ok (.rend (-1), s)
  else do
    let (index, s) ← prendSlot s
    if 14 < name.length then .error .outOfBounds
    else
      let s ← ajouteFils index (initSlot index name prio s)
      -- Idle, in slot 0, is not queued.
      let s ← if 0 < index.val then insertActivable index s else .ok s
      .ok (.cree index, { s with processAlive := succUint32 s.processAlive })

/-- `init_process`. -/
def initProcess (s : St) : Except Fault St := do
  let (_, s) ← start 512 1 "idle" s
  .ok { s with actif := some 0 }

/-! ## Termination -/

def exit (retval : Int) (s : St) : Except Fault St := do
  let a ← deref s.actif
  finProcessus ((s.setRetval a (some retval)).setSuite .exit)

/-- The function of the process returned: `fin_processus` is its return address. -/
def retourFonction (s : St) : Except Fault St := finProcessus (s.setSuite .retour)

/-- `kill` of another process. -/
def killAutre (pid : Int) (s : St) : Except Fault (Int × St) := do
  -- Nobody is elected, and a process that waits for a message is in neither list.
  match ← queueFind s pid (PROCESS_TABLE_SIZE + 1) .head with
  | some tmp =>
    let s ← queueDel tmp (s.setState tmp .zombie)
    .ok (0, s)
  | none => do
    let (r, s) ← sleepDel pid s
    if r = 0 then .ok (0, s) else .ok (-1, s)

def kill (pid : Int) (s : St) : Except Fault (Issue × St) :=
  if pid ≤ 0 ∨ PROCESS_TABLE_SIZE - 1 < pid then .ok (.rend (-1), s)
  else do
    let a ← deref s.actif
    if s.pid a = pid then
      let s ← finProcessus ((s.setRetval a none).setSuite .kill)
      .ok (.enCours, s)
    else
      let (r, s) ← killAutre pid s
      .ok (.rend r, s)

/-! ## Priorities -/

/-- The search of the sleep list, for `n` processes at most. -/
def endormiFind (s : St) (pid : Int) : Nat → Option Slot → Except Fault (Option Slot)
  | _, none => .ok none
  | 0, some _ => .error .diverge
  | n + 1, some tmp => if s.pid tmp = pid then .ok (some tmp) else endormiFind s pid n (s.suiv tmp)

def getprio (pid : Int) (s : St) : Except Fault Int :=
  if pid < 0 ∨ PROCESS_TABLE_SIZE - 1 < pid then .ok (-1)
  else do
    let a ← deref s.actif
    if s.pid a = pid then .ok (toInt32 (s.prio a))
    else
      match ← queueFind s pid (PROCESS_TABLE_SIZE + 1) .head with
      | some tmp => .ok (toInt32 (s.prio tmp))
      | none =>
        match ← endormiFind s pid (PROCESS_TABLE_SIZE + 1) s.endormiList with
        | some tmp => .ok (toInt32 (s.prio tmp))
        | none => .ok (-1)

/-- The `queue_for_each` of `chprio`, which moves the process and goes on from its new place. -/
def chprioActivables (pid newprio : Int) : Nat → Maillon → Int → St → Except Fault (Int × St)
  | 0, _, _, _ => .error .diverge
  | n + 1, cur, oldprio, s => do
    match ← deref (s.next cur) with
    | .head => .ok (oldprio, s)
    | .elem i =>
      if s.pid i = pid then do
        let s ← queueDel i s
        let oldprio := toInt32 (s.prio i)
        let s ← queueAdd i (s.setPrio i (toUint32 newprio))
        chprioActivables pid newprio n (.elem i) oldprio s
      else chprioActivables pid newprio n (.elem i) oldprio s

/-- The loop of `chprio` over the sleep list. -/
def chprioEndormis (pid newprio : Int) : Nat → Option Slot → Int → St → Except Fault (Int × St)
  | _, none, oldprio, s => .ok (oldprio, s)
  | 0, some _, _, _ => .error .diverge
  | n + 1, some tmp, oldprio, s =>
    if s.pid tmp = pid then
      let oldprio := toInt32 (s.prio tmp)
      let s := s.setPrio tmp (toUint32 newprio)
      chprioEndormis pid newprio n (s.suiv tmp) oldprio s
    else chprioEndormis pid newprio n (s.suiv tmp) oldprio s

/-- `chprio` before `ordonnance()`. -/
def chprioTable (pid newprio : Int) (s : St) : Except Fault (Int × St) := do
  let a ← deref s.actif
  if s.pid a = pid then .ok (toInt32 (s.prio a), s.setPrio a (toUint32 newprio))
  else
    let (oldprio, s) ← chprioActivables pid newprio (2 * PROCESS_TABLE_SIZE + 1) .head (-1) s
    chprioEndormis pid newprio (PROCESS_TABLE_SIZE + 1) s.endormiList oldprio s

def chprio (pid newprio : Int) (s : St) : Except Fault (Int × St) :=
  if pid < 0 ∨ PROCESS_TABLE_SIZE - 1 < pid ∨ newprio < 1 ∨ MAX_PRIO < newprio then .ok (-1, s)
  else do
    let (oldprio, s) ← chprioTable pid newprio s
    let s ← ordonnance s
    .ok (oldprio, s)

/-! ## Waiting for a child -/

/-- The search of `waitpid` for a child of pid `pid`: the value of `trouve_fils`. -/
def trouveFils (s : St) (pid : Int) : Nat → Option Slot → Except Fault Bool
  | _, none => .ok false
  | 0, some _ => .error .diverge
  | n + 1, some tmp =>
    if s.pid tmp = pid ∧ s.state tmp = .mort then .ok false
    else if s.pid tmp = pid then .ok true
    -- A process that is its own brother would be the last one.
    else if s.frereDroit tmp = some tmp then .ok false
    else trouveFils s pid n (s.frereDroit tmp)

/-- The end of `waitpid` once a child was found: `pid_fils_termine` is `ret`. The source tests
`retval_fils` a second time, when it is NULL already. -/
def waitpidFin (pid : Int) (retvalp : Bool) (ret : Int) (s : St) : Except Fault (Issue × St) := do
  let a ← deref s.actif
  match s.retvalFils a with
  | none => .ok (.attendu pid retvalp ret none, s)
  | some v =>
    if retvalp then .ok (.attendu pid retvalp ret (some v), s.setRetvalFils a none)
    else .error .nullDeref

def waitpid (pid : Int) (retvalp : Bool) (s : St) : Except Fault (Issue × St) := do
  let a ← deref s.actif
  let trouve ←
    if pid < 0 ∧ s.premierFils a ≠ none then .ok true
    else trouveFils s pid (PROCESS_TABLE_SIZE + 1) (s.premierFils a)
  if trouve then
    if pid = 0 then waitpidFin pid retvalp (-1) s
    else .ok (.enCours, s.setSuite (.attente pid retvalp (s.premierFils a)))
  else .ok (.attendu pid retvalp (-1) none, s)

/-- `pid_dun_fils_termine` from one `test_it()` to the next, called by `waitpid(pid, retvalp)`
with `fils` as the child looked at. -/
def pidDunFilsTermine (pid : Int) (retvalp : Bool) (fils : Option Slot) (s : St) :
    Except Fault (Issue × St) := do
  let param := if pid < 0 then -1 else pid
  let a ← deref s.actif
  let f ← deref fils
  if s.state f = .zombie ∧ (param = -1 ∨ s.pid f = param) then
    let pidFils := s.pid f
    let s ← insertMort f (s.setRetvalFils a (s.retval f))
    -- The loops of `waitpid` call again on a result they do not want.
    if (pid < 0 ∧ pidFils < 0) ∨ (0 < pid ∧ pidFils ≠ pid) then
      .ok (.enCours, s.setSuite (.attente pid retvalp (s.premierFils a)))
    else waitpidFin pid retvalp pidFils (s.setSuite .code)
  else
    let suivant := if s.frereDroit f = none then s.premierFils a else s.frereDroit f
    let f ← deref suivant
    let s := s.setSuite (.attente pid retvalp suivant)
    -- The child it waits for climbs by one each time, until it runs first.
    if param = s.pid f ∧ s.prio f < s.prio a then
      let p ← getprio param s
      let (_, s) ← chprio param (p + 1) s
      .ok (.enCours, s)
    else .ok (.enCours, s)

/-! ## Messages -/

/-- `tmp->state = ENDORMI; ordonnance();`, to go on at `suite`. -/
def bloque (tmp : Slot) (suite : Suite) (s : St) : Except Fault St :=
  ordonnance ((s.setState tmp .endormi).setSuite suite)

def reveille (p : Option Slot) (s : St) : Except Fault St :=
  match p with
  | none => .ok s
  | some p => insertActivable p s

/-- `psend` after the wait. -/
def psendFin (q : Fin NBQUEUE) (message : Int) (tmp : Slot) (s : St) : Except Fault (Issue × St) := do
  let (r, p, messages) ← psendSuite s.pid s.messages q message tmp
  let s ← reveille p { s with messages }
  .ok (if r = 0 then .emis q message else .rend r, s)

def psend (fid message : Int) (s : St) : Except Fault (Issue × St) := do
  let tmp ← deref s.actif
  let (e, messages) ← psendEntree s.messages fid tmp
  let s := { s with messages }
  match e with
  | .invalide => .ok (.rend (-1), s)
  | .bloque q => do
    let s ← bloque tmp (.psend q message tmp) s
    .ok (.enCours, s)
  | .passe q => psendFin q message tmp s

/-- `preceive` after the wait. -/
def preceiveFin (q : Fin NBQUEUE) (tmp : Slot) (s : St) : Except Fault (Issue × St) := do
  let (r, p, messages) ← preceiveSuite s.pid s.messages q tmp
  let s ← reveille p { s with messages }
  match r with
  | none => .ok (.rend (-1), s)
  | some v => .ok (.recu q v, s)

def preceive (fid : Int) (s : St) : Except Fault (Issue × St) := do
  let tmp ← deref s.actif
  let (e, messages) ← preceiveEntree s.messages fid tmp
  let s := { s with messages }
  match e with
  | .invalide => .ok (.rend (-1), s)
  | .bloque q => do
    let s ← bloque tmp (.preceive q tmp) s
    .ok (.enCours, s)
  | .passe q => preceiveFin q tmp s

/-- The body of the two loops of `pdelete` and `preset`, on the ring `fifo`: the new tail, always
stored in `consum`. -/
def reveilleUn (q : Fin NBQUEUE) (fifo : FifoProcess) (s : St) : Except Fault St := do
  let (consum, p, heap) ← extractProcess fifo s.messages.heap
  let messages := { s.messages.set q { s.messages.fifoTab q with consum } with heap }
  let p ← deref p
  let s ← insertActivable p { s with messages }
  -- The tail it returns is not stored.
  let (_, heap) ← addProcess s.messages.shouldReceiveNegativeOne p s.messages.heap
  .ok { s with messages := { s.messages with heap } }

/-- `while (!is_empty(fifo_tab[fid].consum))`. -/
def reveilleConsum (q : Fin NBQUEUE) : Nat → St → Except Fault St
  | 0, _ => .error .diverge
  | n + 1, s =>
    if isEmpty (s.messages.fifoTab q).consum then .ok s
    else do
      let s ← reveilleUn q (s.messages.fifoTab q).consum s
      reveilleConsum q n s

/-- `while (!is_empty(fifo_tab[fid].prod))`. -/
def reveilleProd (q : Fin NBQUEUE) : Nat → St → Except Fault St
  | 0, _ => .error .diverge
  | n + 1, s =>
    if isEmpty (s.messages.fifoTab q).prod then .ok s
    else do
      let s ← reveilleUn q (s.messages.fifoTab q).prod s
      reveilleProd q n s

/-- Both loops; each round frees a cell that was there at the start. -/
def reveilleTous (q : Fin NBQUEUE) (s : St) : Except Fault St := do
  let n := s.messages.heap.length + 1
  let s ← reveilleConsum q n s
  reveilleProd q n s

def pdelete (fid : Int) (s : St) : Except Fault (Issue × St) :=
  match s.messages.ouverte fid with
  | none => .ok (.rend (-1), s)
  | some q => do
    let f := s.messages.fifoTab q
    let f := { f with used := false, tabMessages := f.tabMessages.map fun b => { b with libere := true } }
    let s ← reveilleTous q { s with messages := s.messages.set q f }
    .ok (.rend 0, s)

def preset (fid : Int) (s : St) : Except Fault (Issue × St) :=
  match s.messages.ouverte fid with
  | none => .ok (.rend (-1), s)
  | some q => do
    let f := { s.messages.fifoTab q with down := 0, nbElement := 0 }
    let s ← reveilleTous q { s with messages := s.messages.set q f }
    .ok (.rend 0, s)

/-! ## What `pdelete` and `preset` share -/

def FifoMessages.efface (f : FifoMessages) : FifoMessages :=
  { f with used := false, tabMessages := f.tabMessages.map fun b => { b with libere := true } }

def FifoMessages.raz (f : FifoMessages) : FifoMessages := { f with down := 0, nbElement := 0 }

/-- `φ` on the entry of the queue, then both loops. -/
def videFifo (φ : FifoMessages → FifoMessages) (fid : Int) (s : St) : Except Fault (Issue × St) :=
  match s.messages.ouverte fid with
  | none => .ok (.rend (-1), s)
  | some q => do
    let s ← reveilleTous q { s with messages := s.messages.set q (φ (s.messages.fifoTab q)) }
    .ok (.rend 0, s)

theorem pdelete_eq (fid : Int) (s : St) : pdelete fid s = videFifo FifoMessages.efface fid s := rfl

theorem preset_eq (fid : Int) (s : St) : preset fid s = videFifo FifoMessages.raz fid s := rfl

/-- `φ` leaves the rings alone. -/
structure Neutre (φ : FifoMessages → FifoMessages) : Prop where
  consum (g : FifoMessages) : (φ g).consum = g.consum
  prod (g : FifoMessages) : (φ g).prod = g.prod
  setConsum (g : FifoMessages) (consum : FifoProcess) : φ { g with consum } = { φ g with consum }

theorem neutre_efface : Neutre FifoMessages.efface := ⟨fun _ => rfl, fun _ => rfl, fun _ _ => rfl⟩

theorem neutre_raz : Neutre FifoMessages.raz := ⟨fun _ => rfl, fun _ => rfl, fun _ _ => rfl⟩

end Pcsea
