import RiscvOs.Param
import RiscvOs.Lib.Machine

set_option autoImplicit false

/-!
# Processes on several harts

The scheduler, sleeping and waking, `kfork`, `kexit`, `kwait` and `kkill` of `kernel/proc/proc.c`, for any
number of harts and every interleaving of their steps. A hart executes either its scheduler or the kernel code
of a process. What is left of that code is a list of operations; an operation that is a loop or a branch of
the source puts the operations of its next round in front of the list. `sched` saves the rest of the list in
the process and goes on with the list of the scheduler.

## Implementation notes

`allocproc` and `uvmcopy` fail when there is no memory, and `copyout` can fail: these are choices of the event.
`held`, `tested`, `ended`, `inc` and `log` are history: the locks that a hart has taken, how many sections of
wakers had ended when a process last tested a condition, how many have ended, how often a slot of the table
has been taken, and what has happened. Of a process, its memory, its files and its name are left out.
-/

namespace RiscvOs.Proc

open Function

/-- `enum procstate`. -/
inductive PState where
  | unused | used | sleeping | runnable | running | zombie
  deriving DecidableEq

/-- A process that sleeps is woken up. -/
def PState.woken : PState → PState
  | .sleeping => .runnable
  | st => st

theorem PState.woken_of_ne {st : PState} (h : st ≠ .sleeping) : st.woken = st := by
  cases st <;> first | rfl | exact (h rfl).elim

theorem PState.woken_ne (st : PState) : st.woken ≠ .sleeping := by
  cases st <;> decide

/-- The spin locks: those of the processes, `wait_lock`, `pid_lock`, and all others. -/
inductive Lock (N : ℕ) (L : Type) where
  | pcb (p : Fin N)
  | wait
  | pid
  | user (l : L)
  deriving DecidableEq

/-- What a process sleeps on: the address of a process, or something else. -/
inductive Chan (N : ℕ) (K : Type) where
  | proc (p : Fin N)
  | other (c : K)
  deriving DecidableEq

/-- The operations of the kernel. A channel that is `none` is the null pointer. -/
inductive Op (N : ℕ) (L K : Type) where
  | acquire (l : Lock N L)
  | release (l : Lock N L)
  -- `scheduler`
  | schedLoop (i : ℕ)
  | dispatch (p : Fin N)
  -- `sched`, `yield`, `sleep`, `wakeup`
  | sched
  | setRunnable
  | setSleeping (c : Chan N K)
  | clearChan
  | wakeLoop (i : ℕ) (c : Option (Chan N K))
  | wake (p : Fin N) (c : Option (Chan N K))
  -- `kkill`, `setkilled`
  | killScan (i : ℕ) (pid : ℤ)
  | kill (p : Fin N) (pid : ℤ)
  | markKilled
  -- `kfork`
  | forkScan (i : ℕ)
  | claim (p : Fin N)
  | takePid (p : Fin N)
  | setUp (p : Fin N)
  | forkCopy (p : Fin N)
  | setParent (p : Fin N)
  | setReady (p : Fin N)
  -- `kexit`
  | reparent (i : ℕ)
  | wakeParent
  | zombie (status : ℤ)
  | panic
  -- `kwait`
  | waitScan (i : ℕ) (havekids addr : Bool)
  | check (p : Fin N) (addr : Bool)
  | readKilled (addr : Bool)
  -- a condition that is protected by a lock
  | test (c : K)
  | setCond (c : K) (v : Bool)
  | noteSignal (c : K)
  deriving DecidableEq

/-- `struct PCB`. `ctx` is the code that the saved registers continue with, and `none` if they are not those
of the process. -/
structure Pcb (N : ℕ) (L K : Type) where
  state : PState
  chan : Option (Chan N K)
  parent : Option (Fin N)
  pid : ℤ
  xstate : ℤ
  killed : Bool
  ctx : Option (List (Op N L K))
  inc : ℕ

/-- `struct cpu`: the process on whose stack the hart executes, the code that it executes, the saved code of
the scheduler, and the depth of `push_off`. -/
structure Cpu (N : ℕ) (L K : Type) where
  proc : Option (Fin N)
  code : List (Op N L K)
  back : List (Op N L K)
  noff : ℕ
  held : List (Lock N L)

/-- A process: a slot of the table, and how often the slot had been taken. -/
abbrev Id (N : ℕ) : Type := Fin N × ℕ

/-- What is recorded. -/
inductive Happening (N : ℕ) where
  | born (p : Id N) (pid : ℤ)
  | forked (parent child : Id N)
  | reparented (p : Id N)
  | exited (p : Id N) (status : ℤ)
  | waited (parent child : Id N) (pid : ℤ) (copied : Option ℤ)

structure State (H : Type) (N : ℕ) (L K : Type) where
  pcb : Fin N → Pcb N L K
  lock : Lock N L → Option H
  cpu : H → Cpu N L K
  nextpid : ℤ
  cond : K → Bool
  tested : Fin N → K → ℕ
  ended : K → ℕ
  log : List (Happening N)

/-- Why a step is not taken: a call of `panic`, saved registers that are not those of the process, or it is
not the turn of this step. -/
inductive Stop where
  | acquire | release | schedLock | schedLocks | schedRunning | exit | stale | elsewhere
  deriving DecidableEq

/-- What is done to a condition in a critical section: it changes, or those who wait for it are woken up. -/
inductive Act (K : Type) where
  | update (c : K) (v : Bool)
  | wakeup (c : K)

/-- The calls of a process. `await` waits for a condition, under the lock of the condition, and goes on in the
same critical section; `inside` is a critical section that waits for nothing. -/
inductive Call (N : ℕ) (L K : Type) where
  | yield
  | await (c : K) (acts : List (Act K))
  | inside (l : L) (acts : List (Act K))
  | wakeup (c : Chan N K)
  | fork
  | exit (status : ℤ)
  | wait (addr : Bool)
  | kill (pid : ℤ)
  | setkilled

/-- An event: a hart executes its next operation, a process makes a call, the timer makes a process yield, or
the handler of an interrupt runs. -/
inductive Event (H : Type) (N : ℕ) (L K : Type) where
  | step (h : H) (ok : Bool)
  | start (h : H) (call : Call N L K)
  | timer (h : H)
  | intr (h : H) (l : L) (acts : List (Act K))

/-- The lock of a condition, and `initproc`. -/
structure Config (N : ℕ) (L K : Type) where
  lockOf : K → L
  initproc : Fin N

/-! ## Code -/

section Code

variable {N : ℕ} {L K : Type}

/-- `yield`. -/
def yieldCode (p : Fin N) : List (Op N L K) :=
  [.acquire (.pcb p), .setRunnable, .sched, .release (.pcb p)]

/-- `sleep`. -/
def sleepCode (p : Fin N) (c : Chan N K) (lk : Lock N L) : List (Op N L K) :=
  [.acquire (.pcb p), .release lk, .setSleeping c, .sched, .clearChan, .release (.pcb p), .acquire lk]

/-- What a new process does first, in `forkret`. -/
def forkret (p : Fin N) : List (Op N L K) := [.release (.pcb p)]

def Act.op : Act K → Op N L K
  | .update c v => .setCond c v
  | .wakeup c => .wakeLoop 0 (some (.other c))

variable [DecidableEq L]

/-- A section of the lock of a condition that wakes up those who wait for it is counted when it ends. -/
def Act.note (g : Config N L K) (l : L) : Act K → Option (Op N L K)
  | .update _ _ => none
  | .wakeup c => if g.lockOf c = l then some (.noteSignal c) else none

/-- The rest of a critical section. -/
def sectionCode (g : Config N L K) (l : L) (acts : List (Act K)) : List (Op N L K) :=
  acts.map Act.op ++ acts.filterMap (Act.note g l) ++ [.release (.user l)]

/-- The end of `kexit`. -/
def exitCode (p : Fin N) (status : ℤ) : List (Op N L K) :=
  [.acquire (.pcb p), .zombie status, .release .wait, .sched, .panic]

/-- The functions of the source. -/
def Call.code (g : Config N L K) (p : Fin N) : Call N L K → List (Op N L K)
  | .yield => yieldCode p
  | .await c acts => .acquire (.user (g.lockOf c)) :: .test c :: sectionCode g (g.lockOf c) acts
  | .inside l acts => .acquire (.user l) :: sectionCode g l acts
  | .wakeup c => [.wakeLoop 0 (some c)]
  | .fork => [.forkScan 0]
  | .exit status => .acquire .wait :: .reparent 0 :: .wakeParent :: exitCode p status
  | .wait addr => [.acquire .wait, .waitScan 0 false addr]
  | .kill pid => [.killScan 0 pid]
  | .setkilled => [.acquire (.pcb p), .markKilled, .release (.pcb p)]

/-- `acquiresleep` for the condition that a sleep lock is free. -/
def acquiresleep (c : K) : Call N L K := .await c [.update c false]

/-- `releasesleep` for the condition that a sleep lock is free. -/
def releasesleep (g : Config N L K) (c : K) : Call N L K := .inside (g.lockOf c) [.update c true, .wakeup c]

end Code

/-! ## Steps -/

section Steps

variable {H : Type} {N : ℕ} {L K : Type} [DecidableEq H] [DecidableEq L] [DecidableEq K]

def State.setPcb (s : State H N L K) (p : Fin N) (v : Pcb N L K) : State H N L K :=
  { s with pcb := update s.pcb p v }

def State.setCpu (s : State H N L K) (h : H) (v : Cpu N L K) : State H N L K :=
  { s with cpu := update s.cpu h v }

def State.setCode (s : State H N L K) (h : H) (c : List (Op N L K)) : State H N L K :=
  s.setCpu h { s.cpu h with code := c }

def State.note (s : State H N L K) (e : Happening N) : State H N L K := { s with log := s.log ++ [e] }

/-- The process that is in a slot. -/
def State.idOf (s : State H N L K) (p : Fin N) : Id N := (p, (s.pcb p).inc)

/-- A number as an `int`. -/
def toInt (n : ℤ) : ℤ := Int.bmod n (2 ^ 32)

/-- A slot after `uFreeProc`, which leaves the saved registers as they are. -/
def Pcb.freed (v : Pcb N L K) : Pcb N L K :=
  { v with state := .unused, chan := none, parent := none, pid := 0, xstate := 0, killed := false }

/-- `uFreeProc`. -/
def State.uFreeProc (s : State H N L K) (p : Fin N) : State H N L K := s.setPcb p (s.pcb p).freed

/-- What `kwait` does for the child `q` when the status, if it is asked for, has been copied. -/
def State.reap (s : State H N L K) (p q : Fin N) (addr : Bool) : State H N L K :=
  (s.uFreeProc q).note (.waited (s.idOf p) (s.idOf q) (s.pcb q).pid
    (if addr then some (s.pcb q).xstate else none))

/-- `pid = nextpid++`, for a slot. -/
def State.allocpid (s : State H N L K) (p : Fin N) : State H N L K :=
  let t := s.setPcb p { s.pcb p with pid := s.nextpid, inc := (s.pcb p).inc + 1 }
  ({ t with nextpid := toInt (s.nextpid + 1) }).note (.born (t.idOf p) s.nextpid)

/-- What an operation does that an interrupt handler executes as well, on the hart of the process `self`: the
operations to go on with, and the new state. -/
def serve (self : Option (Fin N)) (s : State H N L K) : Op N L K → List (Op N L K) × State H N L K
  | .wakeLoop i c =>
    if h : i < N then
      if self = some ⟨i, h⟩ then ([.wakeLoop (i + 1) c], s)
      else
        ([.acquire (.pcb ⟨i, h⟩), .wake ⟨i, h⟩ c, .release (.pcb ⟨i, h⟩), .wakeLoop (i + 1) c], s)
    else ([], s)
  | .wake q c =>
    if (s.pcb q).state = .sleeping ∧ (s.pcb q).chan = c then
      ([], s.setPcb q { s.pcb q with state := .runnable })
    else ([], s)
  | .setCond c v => ([], { s with cond := update s.cond c v })
  | .noteSignal c => ([], { s with ended := update s.ended c (s.ended c + 1) })
  | _ => ([], s)

/-- What an operation of the process `p` does: the operations to go on with, and the new state. -/
def exec (g : Config N L K) (p : Fin N) (ok : Bool) (s : State H N L K) :
    Op N L K → List (Op N L K) × State H N L K
  | .setRunnable => ([], s.setPcb p { s.pcb p with state := .runnable })
  | .setSleeping c => ([], s.setPcb p { s.pcb p with state := .sleeping, chan := some c })
  | .clearChan => ([], s.setPcb p { s.pcb p with chan := none })
  | .killScan i pid => if h : i < N then ([.acquire (.pcb ⟨i, h⟩), .kill ⟨i, h⟩ pid], s) else ([], s)
  | .kill q pid =>
    if (s.pcb q).pid = pid then
      ([.release (.pcb q)], s.setPcb q { s.pcb q with killed := true, state := (s.pcb q).state.woken })
    else ([.release (.pcb q), .killScan (q.val + 1) pid], s)
  | .markKilled => ([], s.setPcb p { s.pcb p with killed := true })
  | .forkScan i => if h : i < N then ([.acquire (.pcb ⟨i, h⟩), .claim ⟨i, h⟩], s) else ([], s)
  | .claim q =>
    if (s.pcb q).state = .unused then ([.acquire .pid, .takePid q, .release .pid, .setUp q], s)
    else ([.release (.pcb q), .forkScan (q.val + 1)], s)
  | .takePid q => ([], s.allocpid q)
  | .setUp q =>
    if ok then
      ([.forkCopy q], s.setPcb q { s.pcb q with state := .used, ctx := some (forkret q) })
    else ([.release (.pcb q)], s.uFreeProc q)
  | .forkCopy q =>
    if ok then
      ([.release (.pcb q), .acquire .wait, .setParent q, .release .wait, .acquire (.pcb q), .setReady q,
        .release (.pcb q)], s)
    else ([.release (.pcb q)], s.uFreeProc q)
  | .setParent q =>
    ([], (s.setPcb q { s.pcb q with parent := some p }).note (.forked (s.idOf p) (s.idOf q)))
  | .setReady q => ([], s.setPcb q { s.pcb q with state := .runnable })
  | .reparent i =>
    if h : i < N then
      if (s.pcb ⟨i, h⟩).parent = some p then
        ([.wakeLoop 0 (some (.proc g.initproc)), .reparent (i + 1)],
          (s.setPcb ⟨i, h⟩ { s.pcb ⟨i, h⟩ with parent := some g.initproc }).note
            (.reparented (s.idOf ⟨i, h⟩)))
      else ([.reparent (i + 1)], s)
    else ([], s)
  | .wakeParent => ([.wakeLoop 0 ((s.pcb p).parent.map .proc)], s)
  | .zombie status =>
    ([], (s.setPcb p { s.pcb p with state := .zombie, xstate := status }).note (.exited (s.idOf p) status))
  | .waitScan i kids addr =>
    if h : i < N then
      if (s.pcb ⟨i, h⟩).parent = some p then ([.acquire (.pcb ⟨i, h⟩), .check ⟨i, h⟩ addr], s)
      else ([.waitScan (i + 1) kids addr], s)
    else if kids then ([.acquire (.pcb p), .readKilled addr], s)
    else ([.release .wait], s)
  | .check q addr =>
    if (s.pcb q).state = .zombie then
      -- `ok` is false if `copyout` fails
      if addr = true ∧ ok = false then ([.release (.pcb q), .release .wait], s)
      else ([.release (.pcb q), .release .wait], s.reap p q addr)
    else ([.release (.pcb q), .waitScan (q.val + 1) true addr], s)
  | .readKilled addr =>
    if (s.pcb p).killed then ([.release (.pcb p), .release .wait], s)
    else (.release (.pcb p) :: (sleepCode p (.proc p) .wait ++ [.waitScan 0 false addr]), s)
  | .test c =>
    let t := { s with
      tested := update s.tested p (update (s.tested p) c (s.ended c)) }
    if s.cond c then ([], t) else (sleepCode p (.other c) (.user (g.lockOf c)) ++ [.test c], t)
  | _ => ([], s)

/-- A round of the loop of `scheduler`. -/
def schedRound (i : ℕ) : List (Op N L K) :=
  if h : i < N then
    [.acquire (.pcb ⟨i, h⟩), .dispatch ⟨i, h⟩, .release (.pcb ⟨i, h⟩), .schedLoop (i + 1)]
  else [.schedLoop 0]

def State.acquire (s : State H N L K) (h : H) (l : Lock N L) (rest : List (Op N L K)) : State H N L K :=
  { s.setCpu h { s.cpu h with code := rest, noff := (s.cpu h).noff + 1, held := l :: (s.cpu h).held } with
    lock := update s.lock l (some h) }

def State.release (s : State H N L K) (h : H) (l : Lock N L) (rest : List (Op N L K)) : State H N L K :=
  { s.setCpu h { s.cpu h with code := rest, noff := (s.cpu h).noff - 1, held := (s.cpu h).held.erase l } with
    lock := update s.lock l none }

def State.serve (s : State H N L K) (h : H) (op : Op N L K) (rest : List (Op N L K)) : State H N L K :=
  let r := Proc.serve (s.cpu h).proc s op
  r.2.setCode h (r.1 ++ rest)

def State.exec (g : Config N L K) (s : State H N L K) (h : H) (p : Fin N) (ok : Bool) (op : Op N L K)
    (rest : List (Op N L K)) : State H N L K :=
  let r := Proc.exec g p ok s op
  r.2.setCode h (r.1 ++ rest)

/-- `swtch` to the scheduler. -/
def State.switchOut (s : State H N L K) (h : H) (p : Fin N) (rest : List (Op N L K)) : State H N L K :=
  (s.setPcb p { s.pcb p with ctx := some rest }).setCpu h
    { s.cpu h with proc := none, code := (s.cpu h).back, back := [] }

/-- `swtch` to a process. -/
def State.switchIn (s : State H N L K) (h : H) (p : Fin N) (c rest : List (Op N L K)) : State H N L K :=
  (s.setPcb p { s.pcb p with state := .running, ctx := none }).setCpu h
    { s.cpu h with proc := some p, code := c, back := rest }

/-- One step. -/
def next (g : Config N L K) (s : State H N L K) : Event H N L K → Except Stop (State H N L K)
  | .step h ok =>
    match (s.cpu h).code with
    | [] => .error .elsewhere
    | .acquire l :: rest =>
      if s.lock l = none then .ok (s.acquire h l rest)
      else if s.lock l = some h then .error .acquire
      else .error .elsewhere
    | .release l :: rest => if s.lock l = some h then .ok (s.release h l rest) else .error .release
    | .schedLoop i :: rest => .ok (s.setCode h (schedRound i ++ rest))
    | .dispatch p :: rest =>
      if (s.pcb p).state = .runnable then
        match (s.pcb p).ctx with
        | none => .error .stale
        | some c => .ok (s.switchIn h p c rest)
      else .ok (s.setCode h rest)
    | .sched :: rest =>
      match (s.cpu h).proc with
      | none => .error .elsewhere
      | some p =>
        if s.lock (.pcb p) ≠ some h then .error .schedLock
        else if (s.cpu h).noff ≠ 1 then .error .schedLocks
        else if (s.pcb p).state = .running then .error .schedRunning
        else .ok (s.switchOut h p rest)
    | .panic :: _ => .error .exit
    | .wakeLoop i c :: rest => .ok (s.serve h (.wakeLoop i c) rest)
    | .wake q c :: rest => .ok (s.serve h (.wake q c) rest)
    | .setCond c v :: rest => .ok (s.serve h (.setCond c v) rest)
    | .noteSignal c :: rest => .ok (s.serve h (.noteSignal c) rest)
    | op :: rest =>
      match (s.cpu h).proc with
      | none => .error .elsewhere
      | some p => .ok (s.exec g h p ok op rest)
  | .start h call =>
    match (s.cpu h).proc, (s.cpu h).code with
    | some p, [] => .ok (s.setCode h (call.code g p))
    | _, _ => .error .elsewhere
  | .timer h =>
    match (s.cpu h).proc with
    | none => .error .elsewhere
    | some p =>
      if (s.cpu h).noff = 0 then .ok (s.setCode h (yieldCode p ++ (s.cpu h).code))
      else .error .elsewhere
  | .intr h l acts =>
    if (s.cpu h).noff = 0 then
      .ok (s.setCode h (.acquire (.user l) :: (sectionCode g l acts ++ (s.cpu h).code)))
    else .error .elsewhere

/-- The state after `userinit`: `initproc` is ready to run, the other slots are free, and the harts are about
to look for a process. -/
structure Boot (g : Config N L K) (s : State H N L K) : Prop where
  init : s.pcb g.initproc = ⟨.runnable, none, none, 1, 0, false, some (forkret g.initproc), 1⟩
  others : ∀ p, p ≠ g.initproc → s.pcb p = ⟨.unused, none, none, 0, 0, false, none, 0⟩
  lock : ∀ l, s.lock l = none
  cpu : ∀ h, s.cpu h = ⟨none, [.schedLoop 0], [], 0, []⟩
  nextpid : s.nextpid = 2
  tested : ∀ p c, s.tested p c = 0
  ended : ∀ c, s.ended c = 0
  log : s.log = [.born (g.initproc, 1) 1]

/-- Such a state, with conditions that are all false. -/
def Config.boot (g : Config N L K) : State H N L K where
  pcb p :=
    if p = g.initproc then ⟨.runnable, none, none, 1, 0, false, some (forkret p), 1⟩
    else ⟨.unused, none, none, 0, 0, false, none, 0⟩
  lock _ := none
  cpu _ := ⟨none, [.schedLoop 0], [], 0, []⟩
  nextpid := 2
  cond _ := false
  tested _ _ := 0
  ended _ := 0
  log := [.born (g.initproc, 1) 1]

omit [DecidableEq H] [DecidableEq L] [DecidableEq K] in
theorem boot_boot (g : Config N L K) : Boot g (g.boot : State H N L K) where
  init := if_pos rfl
  others _ hp := if_neg hp
  lock _ := rfl
  cpu _ := rfl
  nextpid := rfl
  tested _ _ := rfl
  ended _ := rfl
  log := rfl

end Steps

/-! ## Updates -/

section Updates

variable {H : Type} {N : ℕ} {L K : Type} [DecidableEq H] (s : State H N L K) (h h' : H)
  (c : List (Op N L K))

@[simp] theorem setCode_pcb : (s.setCode h c).pcb = s.pcb := rfl

@[simp] theorem setCode_tested : (s.setCode h c).tested = s.tested := rfl

@[simp] theorem setCode_ended : (s.setCode h c).ended = s.ended := rfl

@[simp] theorem setCode_self : (s.setCode h c).cpu h = { s.cpu h with code := c } :=
  update_self ..

variable {h h'} in
theorem setCode_of_ne (he : h' ≠ h) : (s.setCode h c).cpu h' = s.cpu h' := update_of_ne he ..

@[simp] theorem setCode_proc : ((s.setCode h c).cpu h').proc = (s.cpu h').proc := by
  by_cases he : h' = h
  · subst he
    rw [setCode_self]
  · rw [setCode_of_ne s c he]

end Updates

section Slots

variable {H : Type} {N : ℕ} {L K : Type} (s : State H N L K) (p q : Fin N) (v : Pcb N L K)

@[simp] theorem setPcb_self : (s.setPcb p v).pcb p = v := update_self ..

variable {p q} in
@[simp] theorem setPcb_of_ne (he : q ≠ p) : (s.setPcb p v).pcb q = s.pcb q := update_of_ne he ..

variable [DecidableEq K] (g : Config N L K) (ok : Bool) (self : Option (Fin N))
  (op : Op N L K)

@[simp] theorem exec_cpu : (exec g p ok s op).2.cpu = s.cpu := by
  cases op <;> simp only [exec] <;> (try split_ifs) <;> rfl

@[simp] theorem exec_lock : (exec g p ok s op).2.lock = s.lock := by
  cases op <;> simp only [exec] <;> (try split_ifs) <;> rfl

@[simp] theorem serve_cpu : (serve self s op).2.cpu = s.cpu := by
  cases op <;> simp only [serve] <;> (try split_ifs) <;> rfl

@[simp] theorem serve_lock : (serve self s op).2.lock = s.lock := by
  cases op <;> simp only [serve] <;> (try split_ifs) <;> rfl

/-- What an operation of the process `p` can do to a slot. -/
inductive Change (g : Config N L K) (s : State H N L K) (p : Fin N) :
    Op N L K → Fin N → Pcb N L K → Prop where
  | same {op : Op N L K} {q : Fin N} : Change g s p op q (s.pcb q)
  | yields : Change g s p .setRunnable p { s.pcb p with state := .runnable }
  | sleeps {c : Chan N K} : Change g s p (.setSleeping c) p { s.pcb p with state := .sleeping, chan := some c }
  | resumes : Change g s p .clearChan p { s.pcb p with chan := none }
  | marked : Change g s p .markKilled p { s.pcb p with killed := true }
  | exits {status : ℤ} :
    Change g s p (.zombie status) p { s.pcb p with state := .zombie, xstate := status }
  | killed {q : Fin N} {pid : ℤ} :
    Change g s p (.kill q pid) q { s.pcb q with killed := true, state := (s.pcb q).state.woken }
  | named {q : Fin N} :
    Change g s p (.takePid q) q { s.pcb q with pid := s.nextpid, inc := (s.pcb q).inc + 1 }
  | used {q : Fin N} :
    Change g s p (.setUp q) q { s.pcb q with state := .used, ctx := some (forkret q) }
  | noMemory {q : Fin N} : Change g s p (.setUp q) q (s.pcb q).freed
  | noCopy {q : Fin N} : Change g s p (.forkCopy q) q (s.pcb q).freed
  | adopted {q : Fin N} : Change g s p (.setParent q) q { s.pcb q with parent := some p }
  | ready {q : Fin N} : Change g s p (.setReady q) q { s.pcb q with state := .runnable }
  | orphaned {q : Fin N} (hq : (s.pcb q).parent = some p) :
    Change g s p (.reparent q.val) q { s.pcb q with parent := some g.initproc }
  | reaped {q : Fin N} {addr : Bool} (hq : (s.pcb q).state = .zombie) :
    Change g s p (.check q addr) q (s.pcb q).freed

theorem exec_change : Change g s p op q ((exec g p ok s op).2.pcb q) := by
  have hset : ∀ (r : Fin N) (v : Pcb N L K), Change g s p op r v →
      Change g s p op q ((s.setPcb r v).pcb q) := by
    intro r v hv
    by_cases hr : q = r
    · subst hr
      rwa [setPcb_self]
    · rw [setPcb_of_ne s v hr]
      exact .same
  cases op <;> simp only [exec]
  case setRunnable => exact hset p _ .yields
  case setSleeping c => exact hset p _ .sleeps
  case clearChan => exact hset p _ .resumes
  case markKilled => exact hset p _ .marked
  case zombie status => exact hset p _ .exits
  case kill r pid =>
    split_ifs
    · exact hset r _ .killed
    · exact .same
  case takePid r => exact hset r _ .named
  case setUp r =>
    split_ifs
    · exact hset r _ .used
    · exact hset r _ .noMemory
  case forkCopy r =>
    split_ifs
    · exact .same
    · exact hset r _ .noCopy
  case setParent r => exact hset r _ .adopted
  case setReady r => exact hset r _ .ready
  case reparent i =>
    split_ifs with hi hr
    · exact hset ⟨i, hi⟩ _ (.orphaned hr)
    · exact .same
    · exact .same
  case check r addr =>
    split_ifs with hz
    · exact .same
    · exact hset r _ (.reaped hz)
    · exact .same
  all_goals (try split_ifs) <;> exact .same

variable {s q g p ok op} in
theorem exec_sleeping {ch : Chan N K} (ho : ∀ c, op ≠ .setSleeping c)
    (hst : ((exec g p ok s op).2.pcb q).state = .sleeping)
    (hch : ((exec g p ok s op).2.pcb q).chan = some ch) :
    (s.pcb q).state = .sleeping ∧ (s.pcb q).chan = some ch := by
  have hc := exec_change s p q g ok op
  generalize (exec g p ok s op).2.pcb q = v at hc hst hch
  cases hc with
  | same | marked | named | adopted | orphaned => exact ⟨hst, hch⟩
  | sleeps => exact (ho _ rfl).elim
  | killed => exact (PState.woken_ne _ hst).elim
  | resumes => cases hch
  | yields | exits | used | noMemory | noCopy | ready | reaped => cases hst

theorem serve_change : (serve self s op).2.pcb q = s.pcb q ∨ ∃ ch, op = .wake q ch ∧
    (s.pcb q).state = .sleeping ∧ (s.pcb q).chan = ch ∧
    (serve self s op).2.pcb q = { s.pcb q with state := .runnable } := by
  cases op
  case wakeLoop =>
    simp only [serve]
    split_ifs <;> exact .inl rfl
  case wake r ch =>
    simp only [serve]
    split_ifs with hw
    · by_cases hr : q = r
      · subst hr
        exact .inr ⟨ch, rfl, hw.1, hw.2, setPcb_self ..⟩
      · exact .inl (setPcb_of_ne s _ hr)
    · exact .inl rfl
  all_goals exact .inl rfl

variable {s q} in
theorem serve_state (hq : (s.pcb q).state ≠ .sleeping) :
    ((serve self s op).2.pcb q).state = (s.pcb q).state := by
  rcases serve_change s q self op with h | ⟨ch, -, hst, -⟩
  · rw [h]
  · exact (hq hst).elim

end Slots

/-! ## The steps that are taken -/

section Inversion

variable {H : Type} {N : ℕ} {L K : Type} [DecidableEq H] [DecidableEq L] [DecidableEq K]

/-- The operations of a process that `exec` performs. -/
def Op.plain : Op N L K → Bool
  | .acquire _ | .release _ | .schedLoop _ | .dispatch _ | .sched | .panic | .wakeLoop _ _ | .wake _ _
  | .setCond _ _ | .noteSignal _ => false
  | _ => true

/-- The operations that an interrupt handler executes as well. -/
def Op.served : Op N L K → Bool
  | .wakeLoop _ _ | .wake _ _ | .setCond _ _ | .noteSignal _ => true
  | _ => false

/-- What the step of an event does. -/
inductive Step (g : Config N L K) (s : State H N L K) : Event H N L K → State H N L K → Prop where
  | acquire {h : H} {ok : Bool} {l : Lock N L} {rest : List (Op N L K)}
    (hc : (s.cpu h).code = .acquire l :: rest) (hl : s.lock l = none) :
    Step g s (.step h ok) (s.acquire h l rest)
  | release {h : H} {ok : Bool} {l : Lock N L} {rest : List (Op N L K)}
    (hc : (s.cpu h).code = .release l :: rest) (hl : s.lock l = some h) :
    Step g s (.step h ok) (s.release h l rest)
  | look {h : H} {ok : Bool} {i : ℕ} {rest : List (Op N L K)}
    (hc : (s.cpu h).code = .schedLoop i :: rest) :
    Step g s (.step h ok) (s.setCode h (schedRound i ++ rest))
  | pass {h : H} {ok : Bool} {p : Fin N} {rest : List (Op N L K)}
    (hc : (s.cpu h).code = .dispatch p :: rest) (hst : (s.pcb p).state ≠ .runnable) :
    Step g s (.step h ok) (s.setCode h rest)
  | switchIn {h : H} {ok : Bool} {p : Fin N} {c rest : List (Op N L K)}
    (hc : (s.cpu h).code = .dispatch p :: rest) (hst : (s.pcb p).state = .runnable)
    (hx : (s.pcb p).ctx = some c) : Step g s (.step h ok) (s.switchIn h p c rest)
  | switchOut {h : H} {ok : Bool} {p : Fin N} {rest : List (Op N L K)}
    (hc : (s.cpu h).code = .sched :: rest) (hp : (s.cpu h).proc = some p)
    (hl : s.lock (.pcb p) = some h) (hn : (s.cpu h).noff = 1) (hst : (s.pcb p).state ≠ .running) :
    Step g s (.step h ok) (s.switchOut h p rest)
  | serve {h : H} {ok : Bool} {op : Op N L K} {rest : List (Op N L K)}
    (hc : (s.cpu h).code = op :: rest) (ho : op.served = true) :
    Step g s (.step h ok) (s.serve h op rest)
  | exec {h : H} {ok : Bool} {p : Fin N} {op : Op N L K} {rest : List (Op N L K)}
    (hc : (s.cpu h).code = op :: rest) (hp : (s.cpu h).proc = some p) (ho : op.plain = true) :
    Step g s (.step h ok) (s.exec g h p ok op rest)
  | start {h : H} {p : Fin N} {call : Call N L K} (hc : (s.cpu h).code = [])
    (hp : (s.cpu h).proc = some p) : Step g s (.start h call) (s.setCode h (call.code g p))
  | timer {h : H} {p : Fin N} (hp : (s.cpu h).proc = some p) (hn : (s.cpu h).noff = 0) :
    Step g s (.timer h) (s.setCode h (yieldCode p ++ (s.cpu h).code))
  | intr {h : H} {l : L} {acts : List (Act K)} (hn : (s.cpu h).noff = 0) :
    Step g s (.intr h l acts)
      (s.setCode h (.acquire (.user l) :: (sectionCode g l acts ++ (s.cpu h).code)))

theorem step_of_next {g : Config N L K} {s t : State H N L K} {e : Event H N L K}
    (hn : next g s e = .ok t) : Step g s e t := by
  cases e with
  | step h ok =>
    cases hc : (s.cpu h).code with
    | nil =>
      simp only [next, hc] at hn
      cases hn
    | cons op rest =>
      cases op <;> simp only [next, hc] at hn
      case acquire l =>
        split at hn
        case isTrue hl =>
          cases hn
          exact .acquire hc hl
        case isFalse =>
          split at hn <;> cases hn
      case release l =>
        split at hn
        case isTrue hl =>
          cases hn
          exact .release hc hl
        case isFalse => cases hn
      case schedLoop i =>
        cases hn
        exact .look hc
      case dispatch p =>
        split at hn
        case isTrue hst =>
          split at hn
          case h_1 => cases hn
          case h_2 c hx =>
            cases hn
            exact .switchIn hc hst hx
        case isFalse hst =>
          cases hn
          exact .pass hc hst
      case sched =>
        split at hn
        case h_1 => cases hn
        case h_2 p hp =>
          split_ifs at hn with hl hf hst
          cases hn
          exact .switchOut hc hp (not_not.mp hl) (not_not.mp hf) hst
      case panic => cases hn
      case wakeLoop | wake | setCond | noteSignal =>
        cases hn
        exact .serve hc rfl
      all_goals
        split at hn
        · cases hn
        · next p hp =>
          cases hn
          exact .exec hc hp rfl
  | start h call =>
    simp only [next] at hn
    split at hn
    case h_1 p hp hc =>
      cases hn
      exact .start hc hp
    case h_2 => cases hn
  | timer h =>
    simp only [next] at hn
    split at hn
    case h_1 => cases hn
    case h_2 p hp =>
      split_ifs at hn with hf
      cases hn
      exact .timer hp hf
  | intr h l acts =>
    simp only [next] at hn
    split_ifs at hn with hf
    cases hn
    exact .intr hf

end Inversion

end RiscvOs.Proc
