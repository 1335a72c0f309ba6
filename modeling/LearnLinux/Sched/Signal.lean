/-
Signals: the mask, the handler table and the delivery
(`kernel/signal.c`, and `ret_from_sys_call` of `kernel/system_call.s`).

A task carries three things that signals touch: the word of pending
signals, the word of blocked ones, and a table of 32 `sigaction`s. Only
the task itself changes its mask and its table; anybody may add a pending
signal. `ret_from_sys_call` picks the lowest pending signal that is not
blocked and hands it to `do_signal`, which may kill the task, ignore the
signal, or divert the task into a handler, with the handler's own
`sa_mask` added to the blocked signals.

What the handler's frame looks like on the user's stack is computed as
the code does, but the user's memory itself is outside this model: what
the user does with the frame comes back as further system calls.
-/
import LearnLinux.Lib.Run

namespace LearnLinux.Signal

def SIGKILL : Nat := 9

def SIGCHLD : Nat := 17

def SA_NOMASK : BitVec 32 := 0x40000000#32

def SA_ONESHOT : BitVec 32 := 0x80000000#32

/-- `1<<(signum-1)`. -/
def bit (signum : Nat) : BitVec 32 := 1#32 <<< (signum - 1)

/-- `struct sigaction`. -/
structure Sigaction where
  saHandler : BitVec 32
  saMask : BitVec 32
  saFlags : BitVec 32
  saRestorer : BitVec 32
  deriving DecidableEq

/-- What signals touch in a task. `sigaction` is indexed by the signal's
number less one. -/
structure Task where
  signal : BitVec 32
  sigaction : Nat → Sigaction
  blocked : BitVec 32
  /-- The task has gone through `do_exit` and never runs again. -/
  zombie : Bool

/-- The registers of the interrupted user code that `do_signal` reads and
changes. -/
structure Regs where
  eax : BitVec 32
  ecx : BitVec 32
  edx : BitVec 32
  eflags : BitVec 32
  eip : BitVec 32
  esp : BitVec 32
  deriving DecidableEq

variable (p : Task)

def Task.setAction (i : Nat) (sa : Sigaction) : Task :=
  { p with sigaction := Function.update p.sigaction i sa }

-- ======== system calls

/-- The old mask is the value returned. -/
def sysSsetmask (newmask : BitVec 32) : BitVec 32 × Task :=
  (p.blocked, { p with blocked := newmask &&& ~~~ bit SIGKILL })

/-- The signal numbers that both calls below refuse. -/
def Refused (signum : Int) : Prop :=
  signum < 1 ∨ signum > 32 ∨ signum = SIGKILL

instance (signum : Int) : Decidable (Refused signum) :=
  inferInstanceAs (Decidable (_ ∨ _))

def sysSignal (signum : Int) (handler restorer : BitVec 32) : BitVec 32 × Task :=
  if Refused signum then (-1, p)
  else
    let i := (signum - 1).toNat
    ((p.sigaction i).saHandler, p.setAction i ⟨handler, 0, SA_ONESHOT ||| SA_NOMASK, restorer⟩)

/-- What `sys_sigaction` keeps of the user's `sigaction`. -/
def normalise (signum : Nat) (new : Sigaction) : Sigaction :=
  if new.saFlags &&& SA_NOMASK ≠ 0 then { new with saMask := 0 }
  else { new with saMask := new.saMask ||| bit signum }

/-- The second component is what is stored at `oldaction`, where the
caller gave one. -/
def sysSigaction (signum : Int) (action : Sigaction) (oldaction : Bool) :
    BitVec 32 × Option Sigaction × Task :=
  if Refused signum then (-1, none, p)
  else
    let i := (signum - 1).toNat
    (0, if oldaction then some (p.sigaction i) else none,
      p.setAction i (normalise signum.toNat action))

-- ======== delivery

/-- The outcome of a delivery: the task, the registers it returns to user
code with, and the words pushed on the user's stack, the lowest address
first. -/
structure Delivery where
  task : Task
  regs : Regs
  frame : List (BitVec 32)

/-- `do_signal`. -/
def doSignal (signr : Nat) (r : Regs) : Delivery :=
  let sa := p.sigaction (signr - 1)
  if sa.saHandler = 1 then ⟨p, r, []⟩
  else if sa.saHandler = 0 then
    if signr = SIGCHLD then ⟨p, r, []⟩
    else ⟨{ p with zombie := true }, r, []⟩
  else
    let sa' := if sa.saFlags &&& SA_ONESHOT ≠ 0 then
      { sa with saHandler := 0 } else sa
    let noMask := sa.saFlags &&& SA_NOMASK ≠ 0
    let longs : BitVec 32 := if noMask then 7 else 8
    ⟨{ p.setAction (signr - 1) sa' with blocked := p.blocked ||| sa.saMask },
      { r with eip := sa.saHandler, esp := r.esp - 4 * longs },
      [sa.saRestorer, BitVec.ofNat 32 signr] ++ (if noMask then [] else [p.blocked])
        ++ [r.eax, r.ecx, r.edx, r.eflags, r.eip]⟩

/-- The signals that can be delivered: pending and not blocked. -/
def Task.deliverable : BitVec 32 := ~~~ p.blocked &&& p.signal

/-- `bsfl`: the lowest bit that is set. -/
def lowest (w : BitVec 32) : Option Nat :=
  (List.range 32).find? fun i => w.getLsbD i

/-- `ret_from_sys_call` of task `t`. `user` says that the code to return to
is the user's (the tests of the saved `CS` and `SS`). -/
def retFromSysCall (t : Nat) (user : Bool) (r : Regs) : Delivery :=
  if t = 0 ∨ user = false then ⟨p, r, []⟩
  else
    match lowest p.deliverable with
    | none => ⟨p, r, []⟩
    | some i =>
      doSignal { p with signal := p.signal &&& ~~~ bit (i + 1) } (i + 1) r

-- ======== the system

/-- The tasks, by number. -/
abbrev System := Nat → Option Task

inductive Op where
  | ssetmask (t : Nat) (newmask : BitVec 32)
  | signal (t : Nat) (signum : Int) (handler restorer : BitVec 32)
  | sigaction (t : Nat) (signum : Int) (action : Sigaction) (oldaction : Bool)
  /-- Somebody sends signals: `p->signal |= bits`. -/
  | send (t : Nat) (bits : BitVec 32)
  | ret (t : Nat) (user : Bool) (r : Regs)
  /-- `copy_process` into the slot `nr`. -/
  | fork (t nr : Nat)
  deriving DecidableEq

/-- The living task `t` becomes what `f` makes of it. -/
def change (s : System) (t : Nat) (f : Task → Task) : Option System :=
  match s t with
  | some p => if p.zombie then none else some (Function.update s t (f p))
  | none => none

/-- `*p = *current`, as far as signals go: no signal is pending for the
child. The slot must be free. -/
def copyProcess (s : System) (t nr : Nat) : Option System :=
  match s t, s nr with
  | some p, none =>
    if p.zombie then none
    else some (Function.update s nr (some { p with signal := 0 }))
  | _, _ => none

def step : Op → System → Option System
  | .ssetmask t newmask, s => change s t fun p => (sysSsetmask p newmask).2
  | .signal t signum handler restorer, s =>
    change s t fun p => (sysSignal p signum handler restorer).2
  | .sigaction t signum action oldaction, s =>
    change s t fun p => (sysSigaction p signum action oldaction).2.2
  | .send t bits, s =>
    change s t fun p => { p with signal := p.signal ||| bits }
  | .ret t user r, s => change s t fun p => (retFromSysCall p t user r).task
  | .fork t nr, s => copyProcess s t nr

-- ======== the purpose

/-- Bit `SIGKILL-1` of the mask is 0, and a pending `SIGKILL` is among the
signals that can be delivered. -/
def Task.KillOpen : Prop :=
  p.blocked.getLsbD (SIGKILL - 1) = false ∧ (p.signal.getLsbD (SIGKILL - 1) = true →
      p.deliverable.getLsbD (SIGKILL - 1) = true)

/-- No task blocks `SIGKILL`. -/
def System.KillOpen (s : System) : Prop :=
  ∀ t p, s t = some p → p.KillOpen

/-- A return to user code diverts the task into a handler whose `sa_mask`
names `SIGKILL`. -/
def Task.DivertedByMask (t : Nat) (user : Bool) : Prop :=
  t ≠ 0 ∧ user = true ∧ ∃ i, lowest p.deliverable = some i ∧
    (p.sigaction i).saHandler ≠ 0 ∧ (p.sigaction i).saHandler ≠ 1 ∧
    (p.sigaction i).saMask.getLsbD (SIGKILL - 1) = true

/-- The condition on a step: no such diversion. -/
def Spares : Op → System → Prop
  | .ret t user _, s => ∀ p, s t = some p → ¬ p.DivertedByMask t user
  | _, _ => True

end LearnLinux.Signal
