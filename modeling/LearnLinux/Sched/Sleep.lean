/-
The two wait queues of `kernel/sched.c`.

A wait queue is ONE pointer `*p`. The rest of the queue stands on the
kernel stacks of the sleeping tasks: `sleep_on` saves the old `*p` in its
local variable `tmp`, and the task that leaves wakes the task it saved.
`Queue` holds the pointer together with those frames.

The kernel is not preemptive, so a task runs from one `schedule` to the
next without interruption, and a step of the model is one such stretch: a
call up to its `schedule`, or the part after it up to the return (or to
the next `schedule`, for the repeat loop of `interruptible_sleep_on`).
`wake_up` is one step, and may come from anywhere. A task outside the
queue may do anything else with its own state (`elsewhere`): sleep on
another queue, stop, run.
-/
import LearnLinux.Lib.Run

namespace LearnLinux.Sched

open Function (update)

/-- The states of a task. -/
inductive TaskState where
  | running
  | interruptible
  | uninterruptible
  | zombie
  | stopped
  deriving DecidableEq

/-- A wait queue `p` and the tasks (`task[0]` is the idle task, which may
not sleep). -/
structure Queue where
  /-- The pointer `*p`. -/
  head : Option Nat
  /-- The local `tmp` of a task inside its call on `p`, `none` outside. -/
  frame : Nat → Option (Option Nat)
  state : Nat → TaskState
  /-- The task has a signal that it does not block. -/
  signal : Nat → Bool

variable (s : Queue) (t : Nat)

/-- The task is in a call on the queue that has not returned. -/
def Queue.Inside : Prop := (s.frame t).isSome = true

/-- `tmp->state = 0`, where there is a task to wake. -/
def Queue.wake : Option Nat → Queue
  | none => s
  | some a => { s with state := update s.state a .running }

/-- The first half of `sleep_on` and `interruptible_sleep_on`, up to
`schedule`: only a running task that is not in the queue can call it, and
`task[0]` panics. -/
def enter (how : TaskState) : Option Queue :=
  if t ≠ 0 ∧ s.frame t = none ∧ s.state t = .running then
    some { s with
      head := some t
      frame := update s.frame t (some s.head)
      state := update s.state t how }
  else none

/-- `wake_up`. -/
def wakeUp : Queue := { s.wake s.head with head := none }

/-- The second half of `sleep_on`: the task was scheduled again, so it is
running. -/
def leave : Option Queue :=
  match s.frame t, s.state t with
  | some tmp, .running =>
    some { s.wake tmp with frame := update s.frame t none }
  | _, _ => none

/-- `interruptible_sleep_on` after `schedule`. With someone else at `*p`
the task wakes that one and sleeps again WITHOUT queueing; otherwise it
clears `*p`, wakes the task it saved, and returns. -/
def interruptibleResume : Option Queue :=
  match s.frame t, s.state t with
  | some tmp, .running =>
    match s.head with
    | some q =>
      if q ≠ t then
        some { s.wake (some q) with
          state := update (s.wake (some q)).state t .interruptible }
      else
        some { s.wake tmp with
          head := none, frame := update s.frame t none }
    | none =>
      some { s.wake tmp with
        head := none, frame := update s.frame t none }
  | _, _ => none

/-- A task outside the queue does something else. -/
def elsewhere (how : TaskState) : Option Queue :=
  if s.frame t = none then
    some { s with state := update s.state t how }
  else none

-- ======== the two systems

/-- The steps on a queue used through `sleep_on`. -/
inductive Op where
  | sleepOn (t : Nat)
  | resume (t : Nat)
  | wakeUp
  | elsewhere (t : Nat) (how : TaskState)
  deriving DecidableEq

/-- One step on a queue used through `sleep_on`. -/
def step : Op → Queue → Option Queue
  | .sleepOn t, s => enter s t .uninterruptible
  | .resume t, s => leave s t
  | .wakeUp, s => some (wakeUp s)
  | .elsewhere t how, s => elsewhere s t how

/-- The steps on a queue used through `interruptible_sleep_on`. -/
inductive IntOp where
  | sleepOn (t : Nat)
  | resume (t : Nat)
  | wakeUp
  | elsewhere (t : Nat) (how : TaskState)
  /-- A signal arrives, or the task has taken it. -/
  | signal (t : Nat) (pending : Bool)
  /-- `schedule` finds an interruptible task with a signal. -/
  | notice (t : Nat)
  deriving DecidableEq

/-- One step on a queue used through `interruptible_sleep_on`. -/
def intStep : IntOp → Queue → Option Queue
  | .sleepOn t, s => enter s t .interruptible
  | .resume t, s => interruptibleResume s t
  | .wakeUp, s => some (wakeUp s)
  | .elsewhere t how, s => elsewhere s t how
  | .signal t pending, s =>
    some { s with signal := update s.signal t pending }
  | .notice t, s =>
    if s.signal t = true ∧ s.state t = .interruptible then
      some (s.wake (some t))
    else none

/-- An empty queue: nobody has called, whatever the tasks do. -/
def Queue.empty (state : Nat → TaskState) (signal : Nat → Bool) : Queue :=
  ⟨none, fun _ => none, state, signal⟩

-- ======== the purpose

/-- The task is in its call, in the given state. -/
def Queue.Sleeps (how : TaskState) : Prop := s.Inside t ∧ s.state t = how

instance (how : TaskState) : Decidable (s.Sleeps t how) :=
  inferInstanceAs (Decidable ((s.frame t).isSome = true ∧ _))

/-- The task is `TASK_UNINTERRUPTIBLE` inside `sleep_on(p)`. -/
abbrev Queue.Asleep : Prop := s.Sleeps t .uninterruptible

/-- The task is `TASK_INTERRUPTIBLE` inside `interruptible_sleep_on(p)`. -/
abbrev Queue.Dozing : Prop := s.Sleeps t .interruptible

/-- The task whose state the step sets to 0. -/
def wakes : Op → Queue → Option Nat
  | .wakeUp, s => s.head
  | .resume t, s => (s.frame t).join
  | _, _ => none

/-- How often the run sets the state of `a` to 0. -/
def wakings (a : Nat) : List Op → Queue → Nat
  | [], _ => 0
  | o :: os, s => (if wakes o s = some a then 1 else 0) + ((step o s).elim 0 (wakings a os))

/-- A sleeper that can still be reached: it is `*p`, or a task in the call
has it saved, or a runnable task is about to set its state. -/
def Queue.CanBeReached : Prop :=
  s.head = some t ∨ (∃ u, u ≠ t ∧ s.frame u = some (some t)) ∨
    ∃ u s', u ≠ t ∧ s.Inside u ∧ s.state u = .running ∧
      interruptibleResume s u = some s' ∧ s'.state t = .running

/-- A sleeper that `*p` or another task in the call refers to. -/
def Queue.Referenced : Prop :=
  s.head = some t ∨ ∃ u, u ≠ t ∧ s.frame u = some (some t)

/-- No sleeper is lost. -/
def Queue.NoneLost : Prop :=
  ∀ t, s.Dozing t → s.CanBeReached t ∧ s.Referenced t

/-- The condition under which a step loses nobody: a task that is resumed
while somebody else stands at `*p` is still saved by another task in the
call. -/
def Careful : IntOp → Queue → Prop
  | .resume t, s => ∀ q, s.head = some q → q ≠ t → s.Inside t →
      s.state t = .running → ∃ u, u ≠ t ∧ s.frame u = some (some t)
  | _, _ => True

end LearnLinux.Sched
