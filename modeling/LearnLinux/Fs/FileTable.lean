/-
The file table and the calls that count references in it: `sys_open` and
`sys_close` (`fs/open.c`), `dupfd` and its callers (`fs/fcntl.c`),
`sys_pipe` (`fs/pipe.c`), `copy_process` (`kernel/fork.c`), the
close-on-exec loop of `do_execve` (`fs/exec.c`) and the close loop of
`do_exit` (`kernel/exit.c`).

A task's `filp[fd]` is NULL or points to an entry of `file_table`. A call
runs without interruption up to the next place where it may sleep, and a
step of the model is one such stretch. `sys_open` sleeps in `open_namei`
and `sys_pipe` in `get_pipe_inode`, with entries reserved; `sys_close`
sleeps in `iput`, when its own work is done, so `sys_dup2` and the two
loops may be interrupted after each close. Where a call stands is the
`Phase` of its task. A task may be made to exit in the middle of a call.

What becomes of the inodes is not part of this model; the step only notes
what it hands to `iput`. Left out of an entry are its mode, flags and
position, which no count depends on.
-/
import LearnLinux.Lib.Refs
import LearnLinux.Lib.Run

namespace LearnLinux.FileTable

open Function (update)

def NR_OPEN : Nat := 20

def NR_FILE : Nat := 64

def NR_TASKS : Nat := 64

def EPERM : Int := 1

def EBADF : Int := 9

def EINVAL : Int := 22

def EMFILE : Int := 24

/-- `struct file`. `f_count` is an `unsigned short`. -/
structure File where
  fCount : Nat
  fInode : Nat
  deriving DecidableEq

/-- Where a task stands. -/
inductive Phase where
  | user
  /-- In `open_namei`, with the entry `f` reserved at `fd`. -/
  | opening (fd f : Nat)
  /-- In `get_pipe_inode`, with two entries reserved. -/
  | piping (fd₀ fd₁ f₀ f₁ : Nat)
  /-- In `sys_dup2`, after the close. -/
  | dup2 (oldfd newfd : Nat)
  /-- In the loop of `do_execve`, at `i`. -/
  | execing (i : Nat)
  /-- In the loop of `do_exit`, at `i`. -/
  | exiting (i : Nat)
  | zombie
  deriving DecidableEq

structure Task where
  filp : Nat → Option Nat
  /-- The bits of `close_on_exec`. -/
  closeOnExec : Nat → Bool
  phase : Phase

structure System where
  file : Nat → File
  task : Nat → Option Task
  /-- What the last step handed to `iput`: the entry, and its inode. -/
  iput : Option (Nat × Nat)
  panicked : Bool

variable (s : System) (t : Nat) (p : Task)

def System.setTask : System :=
  { s with task := update s.task t (some p) }

/-- `f->f_count = n`, in 16 bits. -/
def System.setCount (f n : Nat) : System :=
  { s with
    file := update s.file f { s.file f with fCount := n % 65536 } }

def System.setInode (f i : Nat) : System :=
  { s with
    file := update s.file f { s.file f with fInode := i } }

/-- `f->f_count++`. -/
def System.grab (f : Nat) : System :=
  s.setCount f ((s.file f).fCount + 1)

def Task.setFilp (fd : Nat) (f : Option Nat) : Task :=
  { p with filp := update p.filp fd f }

/-- `close_on_exec &= ~(1<<fd)`. -/
def Task.keepOnExec (fd : Nat) : Task :=
  { p with closeOnExec := update p.closeOnExec fd false }

/-- The first free descriptor from `arg` on. -/
def freeFd (arg : Nat) : Option Nat :=
  (List.range NR_OPEN).find? fun fd => arg ≤ fd ∧ p.filp fd = none

-- ======== close

/-- `sys_close`. -/
def sysClose (fd : Nat) : Int × System :=
  if NR_OPEN ≤ fd then (-EINVAL, s.setTask t p)
  else
    let p := p.keepOnExec fd
    match p.filp fd with
    | none => (-EINVAL, s.setTask t p)
    | some f =>
      let s := s.setTask t (p.setFilp fd none)
      if (s.file f).fCount = 0 then (0, { s with panicked := true })
      else
        let s := s.setCount f ((s.file f).fCount - 1)
        if (s.file f).fCount ≠ 0 then (0, s)
        else (0, { s with iput := some (f, (s.file f).fInode) })

-- ======== dup

def dupfd (fd arg : Nat) : Int × System :=
  if NR_OPEN ≤ fd then (-EBADF, s.setTask t p)
  else
    match p.filp fd with
    | none => (-EBADF, s.setTask t p)
    | some f =>
      if NR_OPEN ≤ arg then (-EINVAL, s.setTask t p)
      else
        match freeFd p arg with
        | none => (-EMFILE, s.setTask t p)
        | some a =>
          (a, (s.setTask t ((p.keepOnExec a).setFilp a (some f))).grab f)

/-- `sys_dup2`, when nothing comes between the close and the search. -/
def sysDup2 (oldfd newfd : Nat) : Int × System :=
  let s := (sysClose s t p newfd).2
  dupfd s t ((s.task t).getD p) oldfd newfd

-- ======== open

/-- `sys_open` up to `open_namei`. -/
def openBegin : Int × System :=
  match freeFd p 0 with
  | none => (-EINVAL, s)
  | some fd =>
    let p := p.keepOnExec fd
    match (List.range NR_FILE).find? fun f => (s.file f).fCount = 0 with
    | none => (-EINVAL, s.setTask t p)
    | some f =>
      (0, (s.setTask t { p.setFilp fd (some f) with phase := .opening fd f }).grab f)

/-- What `sys_open` finds after `open_namei`: an error, a terminal the task
cannot have, or an inode. -/
inductive Opened where
  | error (code : Int)
  | noTty
  | inode (i : Nat)
  deriving DecidableEq

/-- `sys_open` after `open_namei`. -/
def openEnd (fd f : Nat) : Opened → Int × System
  | .error code =>
    (code, (s.setTask t { p.setFilp fd none with phase := .user }).setCount f 0)
  | .noTty =>
    (-EPERM, (s.setTask t { p.setFilp fd none with phase := .user }).setCount f 0)
  | .inode i =>
    (fd, ((s.setTask t { p with phase := .user }).setCount f 1).setInode f i)

-- ======== pipe

/-- `sys_pipe` up to `get_pipe_inode`. -/
def pipeBegin : Int × System :=
  match (List.range NR_FILE).filter fun f => (s.file f).fCount = 0 with
  | f₀ :: f₁ :: _ =>
    let s := (s.grab f₀).grab f₁
    match (List.range NR_OPEN).filter fun fd => p.filp fd = none with
    | fd₀ :: fd₁ :: _ =>
      (0, s.setTask t
        { (p.setFilp fd₀ (some f₀)).setFilp fd₁ (some f₁) with
          phase := .piping fd₀ fd₁ f₀ f₁ })
    | _ => (-1, (s.setCount f₀ 0).setCount f₁ 0)
  | [f₀] => (-1, (s.grab f₀).setCount f₀ 0)
  | [] => (-1, s)

/-- `sys_pipe` after `get_pipe_inode`. -/
def pipeEnd (fd₀ fd₁ f₀ f₁ : Nat) : Option Nat → Int × System
  | none =>
    (-1, ((s.setTask t
      { (p.setFilp fd₀ none).setFilp fd₁ none with
        phase := .user }).setCount f₀ 0).setCount f₁ 0)
  | some i =>
    (0, ((s.setTask t { p with phase := .user }).setInode f₀ i).setInode f₁ i)

-- ======== fork

/-- `if (f=p->filp[i]) f->f_count++`. -/
def grabFilp (s : System) (i : Nat) : System :=
  match p.filp i with
  | some f => s.grab f
  | none => s

/-- `copy_process`, as far as files go, where `copy_mem` succeeds. -/
def copyProcess (nr : Nat) : System :=
  (List.range NR_OPEN).foldl (grabFilp p) (s.setTask nr p)

-- ======== the system

inductive Op where
  | openBegin (t : Nat)
  | openEnd (t : Nat) (r : Opened)
  | close (t fd : Nat)
  | dup (t fildes : Nat)
  /-- `fcntl(F_DUPFD)`. -/
  | dupfd (t fd arg : Nat)
  /-- `fcntl(F_SETFD)`. -/
  | setfd (t fd : Nat) (arg : Bool)
  | dup2 (t oldfd newfd : Nat)
  | dup2End (t : Nat)
  | pipeBegin (t : Nat)
  | pipeEnd (t : Nat) (inode : Option Nat)
  /-- `ok` says that `copy_mem` finds the memory. -/
  | fork (t nr : Nat) (ok : Bool)
  /-- `do_execve` is past the point of no return. -/
  | exec (t : Nat)
  | execLoop (t : Nat)
  | exit (t : Nat)
  | exitLoop (t : Nat)
  /-- The parent has waited for the task: `release`. -/
  | release (t : Nat)
  deriving DecidableEq

/-- What the task does next, by where it stands; `none` if it cannot. -/
def act (o : Op) : Option System :=
  match o, p.phase with
  | .openBegin _, .user => some (openBegin s t p).2
  | .openEnd _ r, .opening fd f => some (openEnd s t p fd f r).2
  | .close _ fd, .user => some (sysClose s t p fd).2
  | .dup _ fildes, .user => some (dupfd s t p fildes 0).2
  | .dupfd _ fd arg, .user => some (dupfd s t p fd arg).2
  | .setfd _ fd arg, .user =>
    if fd < NR_OPEN ∧ p.filp fd ≠ none then
      some (s.setTask t { p with
        closeOnExec := update p.closeOnExec fd arg })
    else some s
  | .dup2 _ oldfd newfd, .user =>
    some (sysClose s t { p with phase := .dup2 oldfd newfd } newfd).2
  | .dup2End _, .dup2 oldfd newfd =>
    some (dupfd s t { p with phase := .user } oldfd newfd).2
  | .pipeBegin _, .user => some (pipeBegin s t p).2
  | .pipeEnd _ inode, .piping fd₀ fd₁ f₀ f₁ =>
    some (pipeEnd s t p fd₀ fd₁ f₀ f₁ inode).2
  | .fork _ nr ok, .user =>
    if nr < NR_TASKS ∧ (s.task nr).isNone then
      some (if ok then copyProcess s p nr else s)
    else none
  | .exec _, .user => some (s.setTask t { p with phase := .execing 0 })
  | .execLoop _, .execing i =>
    if i < NR_OPEN then
      let p' := { p with phase := .execing (i + 1) }
      if p.closeOnExec i then some (sysClose s t p' i).2
      else some (s.setTask t p')
    else some (s.setTask t { p with closeOnExec := fun _ => false, phase := .user })
  | .exit _, .exiting _ => none
  | .exit _, .zombie => none
  | .exit _, _ => some (s.setTask t { p with phase := .exiting 0 })
  | .exitLoop _, .exiting i =>
    if i < NR_OPEN then
      let p' := { p with phase := .exiting (i + 1) }
      if p.filp i ≠ none then some (sysClose s t p' i).2
      else some (s.setTask t p')
    else some (s.setTask t { p with phase := .zombie })
  | .release _, .zombie =>
    some { s with task := update s.task t none }
  | _, _ => none

/-- The task that takes the step. -/
def Op.task : Op → Nat
  | .openBegin t | .openEnd t _ | .close t _ | .dup t _ | .dupfd t _ _
  | .setfd t _ _ | .dup2 t _ _ | .dup2End t | .pipeBegin t | .pipeEnd t _
  | .fork t _ _ | .exec t | .execLoop t | .exit t | .exitLoop t
  | .release t => t

def step (o : Op) (s : System) : Option System :=
  match s.task o.task with
  | some p => act { s with iput := none } o.task p o
  | none => none

/-- No file is open, and there is one task. -/
def System.boot : System :=
  ⟨fun _ => ⟨0, 0⟩, fun t => if t = 0 then some ⟨fun _ => none, fun _ => false, .user⟩
      else none, none, false⟩

-- ======== the purpose

/-- The slots that hold references: every descriptor of every task. -/
@[irreducible] def slots : Finset (Nat × Nat) :=
  Finset.range NR_TASKS ×ˢ Finset.range NR_OPEN

/-- `task[t]->filp[fd]`. -/
def System.slot (x : Nat × Nat) : Option Nat :=
  (s.task x.1).bind fun p => p.filp x.2

/-- The counts are exact: each is the number of slots that point to the
entry, a count of 0 means that none does, and no close has found a count
of 0. -/
structure System.Exact (s : System) : Prop where
  count : ∀ f, (s.file f).fCount = Lib.refs slots s.slot f
  unused : ∀ f, (s.file f).fCount = 0 →
    ∀ t p fd, s.task t = some p → fd < NR_OPEN → p.filp fd ≠ some f
  calm : s.panicked = false

/-- The step is a `sys_close`, called by the user or by one of the
loops. -/
def Op.Closes : Op → Prop
  | .close _ _ | .dup2 _ _ _ | .execLoop _ | .exitLoop _ => True
  | _ => False

/-- `iput` gets the inode of an entry exactly when the count of the entry
goes to 0. -/
def PutsAtZero (s s' : System) : Prop :=
  ∀ f i, s'.iput = some (f, i) ↔
    i = (s.file f).fInode ∧ 0 < (s.file f).fCount ∧ (s'.file f).fCount = 0

/-- The same where the step closes; no other step calls `iput` for an
entry. -/
def PutsOnClose (o : Op) (s s' : System) : Prop :=
  (o.Closes → PutsAtZero s s') ∧ (s'.iput ≠ none → o.Closes)

/-- What a caller expects of `sys_dup2`. A call that cannot succeed returns
an error and changes nothing; any other makes `newfd` refer to what `oldfd`
refers to, where each file counts the reference it lost or got. -/
def Dup2Atomic (oldfd newfd : Nat) : Prop :=
  let r := sysDup2 s t p oldfd newfd
  ∃ q, r.2.task = update s.task t (some q) ∧
    if oldfd < NR_OPEN ∧ p.filp oldfd ≠ none ∧ newfd < NR_OPEN then
      r.1 = newfd ∧ q.filp = update p.filp newfd (p.filp oldfd) ∧
        (∀ f, (r.2.file f).fCount + (if p.filp newfd = some f then 1 else 0)
          = (s.file f).fCount + (if p.filp oldfd = some f then 1 else 0)) ∧
        (oldfd = newfd → r.2.iput = s.iput)
    else r.1 < 0 ∧ q.filp = p.filp ∧ q.closeOnExec = p.closeOnExec ∧ r.2.file = s.file

end LearnLinux.FileTable
