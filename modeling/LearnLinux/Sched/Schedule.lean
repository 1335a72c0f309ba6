/-
`schedule`, `do_timer` and `sys_nice` (`kernel/sched.c`), and what
`copy_process` does to the time slice.

`task[]` is a function of the index; of a task there are the fields that
these routines read or write. `w` is how a sum is stored: as it is, or in
the 32 bits of a `long`. The `while (1)` of `schedule` is counted down.
-/
import Mathlib

namespace LearnLinux.Schedule

open Function (update)

def NR_TASKS : Nat := 64

def SIGKILL : Nat := 9

def SIGALRM : Nat := 14

def SIGSTOP : Nat := 19

/-- `_S`. -/
def sigBit (nr : Nat) : BitVec 32 := 1#32 <<< (nr - 1)

/-- `_BLOCKABLE`. -/
def BLOCKABLE : BitVec 32 := ~~~(sigBit SIGKILL ||| sigBit SIGSTOP)

inductive State where
  | running
  | interruptible
  | uninterruptible
  | zombie
  | stopped
  deriving DecidableEq

structure Task where
  state : State
  counter : Int
  priority : Int
  signal : BitVec 32
  blocked : BitVec 32
  alarm : Int
  deriving DecidableEq

abbrev Table := Nat → Option Task

/-- A loop from `LAST_TASK` down to, but not including, `FIRST_TASK`, with
a body that sees one task. -/
def Table.mapRest (t : Table) (f : Task → Task) : Table := fun i =>
  if 1 ≤ i ∧ i < NR_TASKS then (t i).map f else t i

/-- The alarm of a task, and its waking up by a signal. -/
def Task.alarmed (jiffies : Int) (p : Task) : Task :=
  let p :=
    if p.alarm ≠ 0 ∧ p.alarm < jiffies then
      { p with signal := p.signal ||| sigBit SIGALRM, alarm := 0 }
    else p
  if p.signal &&& ~~~(BLOCKABLE &&& p.blocked) ≠ 0 ∧ p.state = .interruptible then
    { p with state := .running }
  else p

/-- The search looks at task `i`; `r` is `c` and `next`. -/
def look (t : Table) (i : Nat) (r : Int × Nat) : Int × Nat :=
  match t i with
  | some p => if p.state = .running ∧ r.1 < p.counter then (p.counter, i) else r
  | none => r

/-- `while (--i)`, from `i` on. -/
def scan (t : Table) : Nat → Int × Nat → Int × Nat
  | 0, r => r
  | i + 1, r => scan t i (look t (i + 1) r)

/-- One round of the search. -/
def search (t : Table) : Int × Nat := scan t (NR_TASKS - 1) (-1, 0)

variable (w : Int → Int)

/-- The counters are set again. -/
def recalculate (t : Table) : Table :=
  t.mapRest fun p => { p with counter := w (p.counter / 2 + p.priority) }

/-- The scheduler proper, for `n` rounds at most. -/
def choose : Nat → Table → Option (Nat × Table)
  | 0, _ => none
  | n + 1, t =>
    if (search t).1 ≠ 0 then some ((search t).2, t)
    else choose n (recalculate w t)

/-- `schedule`: the task that is switched to, and the table. -/
def schedule (n : Nat) (jiffies : Int) (t : Table) : Option (Nat × Table) :=
  choose w n (t.mapRest (Task.alarmed jiffies))

-- ======== the system

structure System where
  task : Table
  current : Nat

/-- `sys_nice`. -/
def Task.nice (increment : Int) (p : Task) : Task :=
  if 0 < w (p.priority - increment) then { p with priority := w (p.priority - increment) } else p

/-- `current->counter` in `do_timer`. -/
def Task.tick (p : Task) : Task := { p with counter := max 0 (w (p.counter - 1)) }

/-- The child of `copy_process`. -/
def Task.child (p : Task) : Task :=
  { p with state := .running, counter := p.priority, signal := 0, alarm := 0 }

inductive Op where
  | nice (increment : Int)
  | tick (cpl : Bool) (jiffies : Int)
  | schedule (jiffies : Int)
  | fork (nr : Nat)
  /-- A task goes to sleep, is woken up, stops or ends. -/
  | setState (i : Nat) (state : State)

def System.change (s : System) (i : Nat) (f : Task → Task) : System :=
  { s with task := update s.task i ((s.task i).map f) }

/-- `schedule` and `switch_to`. -/
def System.reschedule (s : System) (jiffies : Int) : Option System :=
  (Schedule.schedule w 2 jiffies s.task).map fun r => ⟨r.2, r.1⟩

/-- `do_timer` up to its call of `schedule`, and whether it calls it. -/
def System.ticked (s : System) (cpl : Bool) : System × Bool :=
  (s.change s.current (Task.tick w),
    cpl && ((s.task s.current).all fun p => w (p.counter - 1) ≤ 0))

def step (o : Op) (s : System) : Option System :=
  match o with
  | .nice increment => some (s.change s.current (Task.nice w increment))
  | .tick cpl jiffies =>
    let (s, again) := s.ticked w cpl
    if again then s.reschedule w jiffies else some s
  | .schedule jiffies => s.reschedule w jiffies
  | .fork nr =>
    if nr < NR_TASKS ∧ s.task nr = none then
      some { s with task := update s.task nr ((s.task s.current).map Task.child) }
    else none
  | .setState i state => some (s.change i fun p => { p with state := state })

/-- A `long`. -/
def long (x : Int) : Int := x.bmod (2 ^ 32)

/-- `INIT_TASK`: priority 15, counter 15. -/
def System.boot : System :=
  ⟨fun i => if i = 0 then some ⟨.running, 15, 15, 0, 0, 0⟩ else none, 0⟩

end LearnLinux.Schedule
