/-
The kernel timers of `kernel/sched.c`: `add_timer`, and the part of
`do_timer` that runs them.

The timers stand in an array of 64 cells, linked from `next_timer` in the
order of their dates; each cell holds the ticks between the timer before
it and its own. A cell whose `fn` is NULL is free. `add_timer` takes a
free cell to the front of the list and lets the new timer sink by
exchanging the CONTENTS of neighbouring cells. Pointers are the indices of
the cells, and the index behind the array stands for NULL.

`do_timer` calls the functions of the timers that have run out, and such
a function may call `add_timer`. So a tick is not one step but several:
the decrement (`doTimer`), one round of the loop for each timer that is
due (`fire`), and the end of the loop (`leave`); calls of `add_timer` may
come anywhere. What the functions do besides is no concern of the list.
-/
import LearnLinux.Lib.Delta
import LearnLinux.Lib.Links
import LearnLinux.Lib.Run

namespace LearnLinux.Timer

open Function (update)

def TIME_REQUESTS : Nat := 64

/-- The pointer that is no cell. -/
def NULL : Nat := TIME_REQUESTS

/-- `struct timer_list`. -/
structure Cell (F : Type) where
  jiffies : Int
  fn : Option F
  next : Nat

/-- `timer_list` and `next_timer`. -/
structure Kernel (F : Type) where
  timerList : Nat → Cell F
  nextTimer : Nat

variable {F : Type}

-- ======== add_timer

/-- One round of the loop of `add_timer`: the cell `p` and the one after it
exchange what they hold, less the ticks that pass before. -/
def exchange (c : Nat → Cell F) (p : Nat) : Nat → Cell F :=
  let n := (c p).next
  update (update c p { c p with jiffies := (c n).jiffies, fn := (c n).fn }) n
    { c n with jiffies := (c p).jiffies - (c n).jiffies, fn := (c p).fn }

/-- The loop of `add_timer`. The list has no more cells than the array, so
that many rounds are enough (`sink_spec`). -/
def sink : Nat → (Nat → Cell F) → Nat → Option (Nat → Cell F)
  | 0, _, _ => none
  | k + 1, c, p =>
    if (c p).next ≠ NULL ∧ (c (c p).next).jiffies < (c p).jiffies then
      sink k (exchange c p) (c p).next
    else some c

/-- The first cell without a function. -/
def freeCell (c : Nat → Cell F) : Option Nat :=
  (List.range TIME_REQUESTS).find? fun p => (c p).fn.isNone

/-- `add_timer`, for `jiffies > 0` and a function. With no free cell it
panics. -/
def addTimer (k : Kernel F) (jiffies : Int) (fn : F) : Option (Kernel F) :=
  (freeCell k.timerList).bind fun p =>
    (sink TIME_REQUESTS (update k.timerList p ⟨jiffies, some fn, k.nextTimer⟩) p).map
      fun c => ⟨c, p⟩

-- ======== do_timer

/-- `if (next_timer) next_timer->jiffies--`. -/
def countDown (k : Kernel F) : Kernel F :=
  if k.nextTimer = NULL then k
  else
    let c := k.timerList k.nextTimer
    ⟨update k.timerList k.nextTimer { c with jiffies := c.jiffies - 1 }, k.nextTimer⟩

/-- The condition of the loop of `do_timer`. -/
def AnyDue (k : Kernel F) : Prop :=
  k.nextTimer ≠ NULL ∧ (k.timerList k.nextTimer).jiffies ≤ 0

instance (k : Kernel F) : Decidable (AnyDue k) :=
  inferInstanceAs (Decidable (_ ∧ _))

/-- The first timer leaves the list and its cell is free again; its
function is the one to call. -/
def unlink (k : Kernel F) : Option F × Kernel F :=
  let c := k.timerList k.nextTimer
  (c.fn, ⟨update k.timerList k.nextTimer { c with fn := none }, c.next⟩)

-- ======== the system

/-- The timers, with what an observer writes down: the ticks so far, the
calls with the tick they were made in, and the timers ever added with the
tick they are to be called in. -/
structure System (F : Type) where
  kernel : Kernel F
  /-- `do_timer` is in its loop. -/
  inTick : Bool
  ticks : Nat
  called : List (F × Int)
  added : List (F × Int)

inductive Op (F : Type) where
  | addTimer (jiffies : Int) (fn : Option F)
  | doTimer
  | fire
  | leave

/-- A call of `add_timer`: without a function nothing happens, and with no
time to wait the function is called at once. -/
def add (s : System F) (jiffies : Int) : Option F → Option (System F)
  | none => some s
  | some f =>
    if jiffies ≤ 0 then
      some { s with
        called := s.called ++ [(f, (s.ticks : Int))]
        added := s.added ++ [(f, (s.ticks : Int))] }
    else
      (addTimer s.kernel jiffies f).map fun k =>
        { s with
          kernel := k
          added := s.added ++ [(f, s.ticks + jiffies)] }

/-- One round of the loop of `do_timer`. A NULL function would be a wild
jump. -/
def fire (s : System F) : Option (System F) :=
  if s.inTick = true ∧ AnyDue s.kernel then
    (unlink s.kernel).1.map fun f =>
      { s with
        kernel := (unlink s.kernel).2
        called := s.called ++ [(f, (s.ticks : Int))] }
  else none

def step : Op F → System F → Option (System F)
  | .addTimer jiffies fn, s => add s jiffies fn
  | .doTimer, s =>
    if s.inTick = true then none
    else some { s with
      kernel := countDown s.kernel, inTick := true, ticks := s.ticks + 1 }
  | .fire, s => fire s
  | .leave, s =>
    if s.inTick = true ∧ ¬ AnyDue s.kernel then
      some { s with inTick := false }
    else none

/-- No timer, nothing done: `next_timer = NULL` and every `fn` is NULL. -/
def System.boot : System F :=
  ⟨⟨fun _ => ⟨0, none, 0⟩, NULL⟩, false, 0, [], []⟩

-- ======== the purpose

/-- The timers from the cell `p` on, in the order of the links. -/
def pendingFrom (c : Nat → Cell F) : Nat → Nat → List (Int × F)
  | 0, _ => []
  | k + 1, p =>
    if p = NULL then []
    else
      match (c p).fn with
      | some f => ((c p).jiffies, f) :: pendingFrom c k (c p).next
      | none => pendingFrom c k (c p).next

/-- The timers in the list. -/
def Kernel.pending (k : Kernel F) : List (Int × F) :=
  pendingFrom k.timerList TIME_REQUESTS k.nextTimer

/-- The timers in the list with the tick they will be called in: the ticks
so far and the sum of the `jiffies` up to each. -/
def System.scheduled (s : System F) : List (F × Int) :=
  Lib.deadlines s.ticks s.kernel.pending

/-- Timers fire on time. What was called, and what the list will call,
each with its tick, is what was added, each with the tick it is for; and
between ticks nothing in the list is overdue. -/
def System.OnTime (s : System F) : Prop :=
  (s.called ++ s.scheduled).Perm s.added ∧
    (s.inTick = false → ∀ e ∈ s.scheduled, (s.ticks : Int) < e.2)

/-- The condition on a step: a new timer is due after all that are
pending. -/
def Latest : Op F → System F → Prop
  | .addTimer jiffies (some _), s =>
    0 < jiffies → Lib.total s.kernel.pending < jiffies
  | _, _ => True

end LearnLinux.Timer
