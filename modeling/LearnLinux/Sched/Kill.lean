/-
`sys_kill` and `send_sig` (`kernel/exit.c`).

The four loops go over the task table from its end down to `task[1]`; a
loop that starts where another one stands goes over the slots that are
left. The text of the third branch is

    else if (pid == -1) while (--p > &FIRST_TASK)
        if (err = send_sig(sig,*p,0))
            retval = err;
    else while (--p > &FIRST_TASK)
        ...

where the last `else` belongs to the `if` just above it: the fourth loop
is part of the third one, and for a pid below -1 there is no branch at
all.
-/
import LearnLinux.Sched.Signal

namespace LearnLinux.Kill

abbrev NR_TASKS : Nat := 64

instance : NeZero NR_TASKS := ⟨by decide⟩

def EPERM : Int := 1

def EINVAL : Int := 22

structure Task where
  pid : Int
  pgrp : Int
  euid : UInt16
  signal : BitVec 32
  deriving DecidableEq

/-- What is read of `current`. -/
structure Caller where
  pid : Int
  pgrp : Int
  euid : UInt16
  deriving DecidableEq

abbrev Table := Fin NR_TASKS → Option Task

/-- `p->signal |= (1<<(sig-1))`. -/
def Task.send (p : Task) (sig : Int) : Task :=
  { p with signal := p.signal ||| Signal.bit sig.toNat }

/-- `(current->euid==p->euid) || suser()`. -/
def Caller.may (c : Caller) (p : Task) : Bool :=
  c.euid = p.euid || c.euid = 0

variable (c : Caller)

/-- `send_sig(sig,task[q],priv)`. -/
def sendSig (sig : Int) (q : Fin NR_TASKS) (priv : Bool) (t : Table) : Int × Table :=
  match t q with
  | none => (-EINVAL, t)
  | some p =>
    if sig < 1 ∨ 32 < sig then (-EINVAL, t)
    else if priv || c.may p then
      (0, Function.update t q (some (p.send sig)))
    else (-EPERM, t)

/-- The loops over `qs` that send the signal to the tasks that `sel`
picks; `r` is `retval`. -/
def sendTo (sig : Int) (priv : Bool) (sel : Task → Bool) :
    List (Fin NR_TASKS) → Int → Table → Int × Table
  | [], r, t => (r, t)
  | q :: qs, r, t =>
    if (t q).any sel then
      let (err, t) := sendSig c sig q priv t
      sendTo sig priv sel qs (if err = 0 then r else err) t
    else sendTo sig priv sel qs r t

/-- The loop for pid -1. A task that was signalled hands the slots that
are left to the fourth loop, after which none is. -/
def sendAll (pid sig : Int) : List (Fin NR_TASKS) → Int → Table → Int × Table
  | [], r, t => (r, t)
  | q :: qs, r, t =>
    let (err, t) := sendSig c sig q false t
    if err = 0 then sendTo c sig false (fun p => p.pgrp = -pid) qs r t
    else sendAll pid sig qs err t

/-- The slots from the end of the table down to `task[1]`. -/
def slots : List (Fin NR_TASKS) := (List.finRange NR_TASKS).reverse.dropLast

/-- `sys_kill(pid,sig)`: what it returns, and the table after it. -/
def sysKill (pid sig : Int) (t : Table) : Int × Table :=
  if pid = 0 then sendTo c sig true (fun p => p.pgrp = c.pid) slots 0 t
  else if 0 < pid then sendTo c sig false (fun p => p.pid = pid) slots 0 t
  else if pid = -1 then sendAll c pid sig slots 0 t
  else (0, t)

-- ======== what is wanted

/-- The tasks that a pid addresses. -/
def Addressed (pid : Int) (p : Task) : Prop :=
  if pid = 0 then p.pgrp = c.pgrp
  else if 0 < pid then p.pid = pid
  else if pid = -1 then True
  else p.pgrp = -pid

instance (pid : Int) (p : Task) : Decidable (Addressed c pid p) := by
  unfold Addressed
  infer_instance

/-- The caller may signal the task; its own group it always may. -/
def Permitted (pid : Int) (p : Task) : Prop := pid = 0 ∨ c.may p = true

instance (pid : Int) (p : Task) : Decidable (Permitted c pid p) := by
  unfold Permitted
  infer_instance

/-- Exactly the addressed tasks other than task 0 that the caller may
signal get the signal; if that is all of those addressed, the result is
0. -/
structure Right (pid sig : Int) (t : Table) : Prop where
  table : ∀ q, (sysKill c pid sig t).2 q = (t q).map fun p =>
    if q ≠ 0 ∧ Addressed c pid p ∧ Permitted c pid p then p.send sig else p
  ret : (∀ q ≠ 0, ∀ p ∈ t q, Addressed c pid p → Permitted c pid p) → (sysKill c pid sig t).1 = 0

/-- The signal is pending. -/
def Task.Pending (p : Task) (sig : Int) : Prop :=
  p.signal.getLsbD (sig.toNat - 1) = true

instance (p : Task) (sig : Int) : Decidable (p.Pending sig) :=
  inferInstanceAs (Decidable (_ = _))

/-- A task that the caller may signal is in the slot. -/
def Open (t : Table) (q : Fin NR_TASKS) : Prop := ∃ p ∈ t q, c.may p = true

instance (t : Table) (q : Fin NR_TASKS) : Decidable (Open c t q) := by
  unfold Open
  infer_instance

/-- When the code does what is wanted. -/
def Reached (pid sig : Int) (t : Table) : Prop :=
  if pid = 0 then
    -- the group that is compared is the caller's pid
    ∀ q ≠ 0, ∀ p ∈ t q, ¬ p.Pending sig → (p.pgrp = c.pid ↔ p.pgrp = c.pgrp)
  else if 0 < pid then True
  else if pid = -1 then
    -- behind the first task that is signalled, only group 1 is
    (∀ q ≠ 0, ∀ p ∈ t q, c.may p = true → (∃ q', q < q' ∧ Open c t q') →
      ¬ p.Pending sig → p.pgrp = 1) ∧
    -- an empty slot is an error
    ((∀ q ≠ 0, ∀ p ∈ t q, c.may p = true) → (t (Fin.last 63)).isSome)
  else
    -- nothing is done
    ∀ q ≠ 0, ∀ p ∈ t q, p.pgrp = -pid → c.may p = true → p.Pending sig

end LearnLinux.Kill
