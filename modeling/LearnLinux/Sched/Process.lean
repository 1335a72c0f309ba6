/-
The process table: `fork`, `exit` and `wait` (`kernel/fork.c`,
`kernel/exit.c`).

A task knows its father by pid only. `do_exit` hands its children to the
task with pid 1 before it does anything that can sleep (it closes files
and puts inodes), and only after that becomes a zombie and tells its
father, so an exit is two steps of the model, with the steps of other
tasks between them. `sys_waitpid` is one step for each scan of the table.

Everything else that happens to a task (it sleeps, is woken, is stopped)
is one step that changes its state and nothing else.
-/
import LearnLinux.Sched.Sleep

namespace LearnLinux.Process

open Sched (TaskState)

def NR_TASKS : Nat := 64

def EINTR : Int := 4

def ECHILD : Int := 10

def EAGAIN : Int := 11

/-- What a task is in the middle of. -/
inductive Phase where
  | user
  /-- In `do_exit`, past the loop over its children. -/
  | exiting
  /-- In `sys_waitpid`, asleep. -/
  | waiting (pid : Int) (wnohang wuntraced : Bool)
  deriving DecidableEq

structure Task where
  /-- The page the task structure stands in. -/
  page : Nat
  pid : Int
  father : Int
  pgrp : Int
  state : TaskState
  exitCode : Int
  /-- `SIGCHLD` is pending. -/
  sigchld : Bool
  phase : Phase
  deriving DecidableEq

/-- What a system call gave its caller: the value it returned, and what it
stored at `stat_addr`. -/
structure Return where
  caller : Nat
  value : Int
  stat : Option Int
  deriving DecidableEq

structure System where
  task : Nat → Option Task
  lastPid : Int
  /-- The pages handed to `free_page`, in order. -/
  freed : List Nat
  /-- What the last step returned, if it did. -/
  ret : Option Return
  /-- `tell_father` has found no father. -/
  noFather : Bool

variable (s : System)

def System.set (i : Nat) (p : Option Task) : System :=
  { s with task := Function.update s.task i p }

def System.returns (t : Nat) (value : Int) (stat : Option Int) : System :=
  { s with ret := some ⟨t, value, stat⟩ }

-- ======== fork

/-- `if ((++last_pid)<0) last_pid=1;` -/
def nextPid (last : Int) : Int := if last + 1 < 2 ^ 31 then last + 1 else 1

def System.usesPid (pid : Int) : Bool :=
  (List.range NR_TASKS).any fun i =>
    match s.task i with
    | some p => p.pid == pid
    | none => false

/-- The `repeat` loop of `find_empty_process`. There are at most
`NR_TASKS` pids to skip. -/
def searchPid : Nat → Int → Option Int
  | 0, _ => none
  | n + 1, last =>
    if s.usesPid (nextPid last) then searchPid n (nextPid last)
    else some (nextPid last)

/-- The first free slot, from 1 on. -/
def System.freeSlot : Option Nat :=
  (List.range NR_TASKS).find? fun i => i ≠ 0 && (s.task i).isNone

/-- `copy_process`. `page` is what `get_free_page` returns, and `mem` says
that `copy_mem` succeeds. -/
def copyProcess (t : Nat) (current : Task) (nr : Nat) (page : Option Nat) (mem : Bool) : System :=
  match page with
  | none => s.returns t (-EAGAIN) none
  | some p =>
    if mem then
      (s.set nr (some { current with
        page := p, pid := s.lastPid, father := current.pid,
        state := .running, sigchld := false })).returns t s.lastPid none
    else
      -- `task[nr]` was set and is cleared again
      ({ s.set nr none with freed := s.freed ++ [p] }).returns t (-EAGAIN) none

/-- `find_empty_process` and `copy_process`. -/
def sysFork (t : Nat) (current : Task) (page : Option Nat) (mem : Bool) : Option System := do
  let pid ← searchPid s (NR_TASKS + 1) s.lastPid
  let s := { s with lastPid := pid }
  match s.freeSlot with
  | none => some (s.returns t (-EAGAIN) none)
  | some nr => some (copyProcess s t current nr page mem)

-- ======== exit

/-- `release`, for the task in slot `i`. Slot 0 is not looked at. -/
def release (i : Nat) (p : Task) : Option System :=
  if i = 0 then none
  else some { s.set i none with freed := s.freed ++ [p.page] }

/-- A child of the exiting task is a zombie already. -/
def System.zombieChild (pid : Int) : Bool :=
  (List.range NR_TASKS).any fun i =>
    match s.task i with
    | some q => q.father == pid && q.state == .zombie
    | none => false

/-- What the loop of `do_exit` makes of the task in slot `i`: the children
go to the task with pid 1, and `task[1]` gets a `SIGCHLD` if one of them
is a zombie. -/
def orphan (t : Nat) (pid : Int) (zombie : Bool) (i : Nat) (q : Task) :
    Task :=
  { q with
    father := if q.father = pid then 1 else q.father
    sigchld := q.sigchld || i == 1 && zombie
    phase := if i = t then .exiting else q.phase }

/-- `do_exit` up to its first sleep. -/
def exitBegin (t : Nat) (current : Task) : System :=
  let zombie := s.zombieChild current.pid
  { s with task := fun i => (s.task i).map (orphan t current.pid zombie i) }

/-- The slot of a father. -/
def System.slotOf (pid : Int) : Option Nat :=
  (List.range NR_TASKS).find? fun i =>
    match s.task i with
    | some p => p.pid == pid
    | none => false

/-- `tell_father`. -/
def tellFather (t : Nat) (current : Task) (pid : Int) : Option System :=
  let bad := release { s with noFather := true } t current
  if pid = 0 then bad
  else
    match s.slotOf pid with
    | some i =>
      some (s.set i ((s.task i).map fun q => { q with sigchld := true }))
    | none => bad

/-- The rest of `do_exit`. -/
def exitEnd (t : Nat) (current : Task) (code : Int) : Option System :=
  let current := { current with state := .zombie, exitCode := code }
  tellFather (s.set t (some current)) t current current.father

-- ======== wait

/-- The child is one of those `sys_waitpid` asks for. -/
def selects (pid : Int) (current q : Task) : Bool :=
  if 0 < pid then q.pid == pid
  else if pid = 0 then q.pgrp == current.pgrp
  else if pid ≠ -1 then q.pgrp == -pid
  else true

inductive Scan where
  | stopped (pid : Int)
  | zombie (i : Nat) (q : Task)
  | none (flag : Bool)

/-- The loop over the slots, from the last one down to 1. -/
def scan (t : Nat) (current : Task) (pid : Int) (wuntraced : Bool) : Nat → Bool → Scan
  | 0, flag => .none flag
  | i + 1, flag =>
    match s.task (i + 1) with
    | none => scan t current pid wuntraced i flag
    | some q =>
      if i + 1 = t ∨ q.father ≠ current.pid ∨ selects pid current q = false then
        scan t current pid wuntraced i flag
      else
        match q.state with
        | .stopped =>
          if wuntraced then .stopped q.pid
          else scan t current pid wuntraced i flag
        | .zombie => .zombie (i + 1) q
        | _ => scan t current pid wuntraced i true

/-- `sys_waitpid` up to its return or its sleep. -/
def sysWaitpid (t : Nat) (current : Task) (pid : Int) (wnohang wuntraced : Bool) : Option System :=
  let current := { current with phase := .user }
  let s := s.set t (some current)
  match scan s t current pid wuntraced (NR_TASKS - 1) false with
  | .stopped p => some (s.returns t p (some 0x7f))
  | .zombie i q => do
    let s ← release s i q
    some (s.returns t q.pid (some q.exitCode))
  | .none flag =>
    if flag = false then some (s.returns t (-ECHILD) none)
    else if wnohang then some (s.returns t 0 none)
    else some (s.set t (some { current with
      state := .interruptible, phase := .waiting pid wnohang wuntraced }))

/-- `sys_waitpid` after its sleep. `intr` says that another signal than
`SIGCHLD` is pending. -/
def waitAgain (t : Nat) (current : Task) (pid : Int)
    (wnohang wuntraced intr : Bool) : Option System :=
  let current := { current with sigchld := false, phase := .user }
  if intr then some ((s.set t (some current)).returns t (-EINTR) none)
  else sysWaitpid s t current pid wnohang wuntraced

-- ======== the system

inductive Op where
  | fork (t : Nat) (page : Option Nat) (mem : Bool)
  | exitBegin (t : Nat)
  | exitEnd (t : Nat) (code : Int)
  | waitpid (t : Nat) (pid : Int) (wnohang wuntraced : Bool)
  | waitAgain (t : Nat) (intr : Bool)
  /-- The task is woken, stopped, or goes to sleep. -/
  | other (t : Nat) (state : TaskState)
  deriving DecidableEq

/-- The slot of the task that takes the step. -/
def Op.task : Op → Nat
  | .fork t _ _ | .exitBegin t | .exitEnd t _ | .waitpid t _ _ _
  | .waitAgain t _ | .other t _ => t

/-- The page belongs to no task. -/
def System.Unused (page : Nat) : Prop :=
  ∀ i < NR_TASKS, ∀ p, s.task i = some p → p.page ≠ page

instance (page : Nat) : Decidable (s.Unused page) :=
  decidable_of_iff (∀ i < NR_TASKS, (s.task i).all (·.page ≠ page) = true) (by
      refine forall_congr' fun i => imp_congr_right fun _ => ?_
      cases s.task i with
      | none => simp
      | some p => simp)

/-- What the task `p` in slot `t` does. Only a running task makes calls,
and `get_free_page` returns a page that nobody has. -/
def act (t : Nat) (p : Task) : Op → Option System
  | .fork _ page mem =>
    if p.state = .running ∧ p.phase = .user ∧ ∀ q ∈ page, s.Unused q then
      sysFork s t p page mem
    else none
  | .exitBegin _ =>
    if p.state = .running ∧ p.phase = .user then some (exitBegin s t p)
    else none
  | .exitEnd _ code =>
    if p.state = .running ∧ p.phase = .exiting then exitEnd s t p code
    else none
  | .waitpid _ pid wnohang wuntraced =>
    if p.state = .running ∧ p.phase = .user then
      sysWaitpid s t p pid wnohang wuntraced
    else none
  | .waitAgain _ intr =>
    match p.state, p.phase with
    | .running, .waiting pid wnohang wuntraced =>
      waitAgain s t p pid wnohang wuntraced intr
    | _, _ => none
  | .other _ state =>
    if p.state ≠ .zombie ∧ state ≠ .zombie then
      some (s.set t (some { p with state := state }))
    else none

def step (o : Op) (s : System) : Option System :=
  match s.task o.task with
  | some p => act { s with ret := none } o.task p o
  | none => none

/-- There is `task[0]` only. -/
def System.boot : System :=
  ⟨fun i => if i = 0 then some ⟨0, 0, -1, 0, .running, 0, false, .user⟩
    else none, 0, [], none, false⟩

-- ======== the purpose

/-- The pids of the occupied slots are distinct, and every task but 0 and 1
has a father that is not a zombie. -/
structure System.Intact : Prop where
  distinct : ∀ i j p q, s.task i = some p → s.task j = some q → p.pid = q.pid → i = j
  father : ∀ i p, s.task i = some p → p.pid ≠ 0 → p.pid ≠ 1 →
    ∃ j q, s.task j = some q ∧ q.pid = p.father ∧ q.state ≠ .zombie

/-- What a step does to the zombie in slot `i`: it stays, with its pid and
its exit code and its page (its father may have become 1), or the step is
the `sys_waitpid` of its father, which empties the slot, frees the page
and returns the pid and the exit code. -/
def Reaps (o : Op) (s s' : System) (i : Nat) (p : Task) : Prop :=
  (∃ father sigchld, s'.task i = some { p with father := father, sigchld := sigchld } ∧
    p.page ∉ s'.freed.drop s.freed.length) ∨
  (∃ f, s.task o.task = some f ∧ f.pid = p.father ∧
    s'.task i = none ∧ s'.freed = s.freed ++ [p.page] ∧
    s'.ret = some ⟨o.task, p.pid, some p.exitCode⟩ ∧
    ((∃ pid wnohang wuntraced, o = .waitpid o.task pid wnohang wuntraced) ∨
      o = .waitAgain o.task false))

/-- The task with pid 1 does not exit. -/
def SparesInit (o : Op) (s : System) : Prop :=
  match o with
  | .exitBegin t => ∀ p, s.task t = some p → p.pid ≠ 1
  | _ => True

/-- Also, `task[0]` forks once, when there has been no fork before, and
does not exit. -/
def Ok (o : Op) (s : System) : Prop :=
  match o with
  | .exitBegin t => ∀ p, s.task t = some p → p.pid ≠ 0 ∧ p.pid ≠ 1
  | .fork t _ _ => ∀ p, s.task t = some p → p.pid = 0 → s.lastPid = 0
  | _ => True

end LearnLinux.Process
