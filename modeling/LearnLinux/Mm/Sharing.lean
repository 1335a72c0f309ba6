/-
Several tasks, one executable: the system in which demand sharing runs.

The steps are the events that touch a task's pages, cut where another
task can run: a user store and the write-protect fault before it are
two steps, and so are `write_verify` (one turn of `verify_area`) and
each byte the system call stores afterwards, since the call may sleep
in between. A kernel store ignores the W bit — the 80386 does not check
it in supervisor mode — and sets the dirty bit like any store.

# The ghost

`laundered i j` marks the page in slot `(i, j)` when `un_wp_page` has
replaced a DIRTY entry by a clean one (`new_page | 7`) and no store has
gone through the new entry since. Fork copies the mark with the entry.
Nothing reads it; it only serves to say which runs are well behaved.
-/
import LearnLinux.Mm.System

namespace LearnLinux.Mm

/-- Memory, the task table, and the ghost marks. -/
structure Sys where
  mem : Mem
  tasks : Tasks
  laundered : Nat → Nat → Bool

/-- What can happen next. Addresses are linear. -/
inductive SysOp where
  | fork (parent child size : Nat)
  | wpFault (address : Nat)
  | userStore (address value : Nat)
  | writeVerify (address : Nat)
  | kernelStore (address value : Nat)
  | noPage (cur address : Nat)

/-- The child's entry in the task table: the parent's, moved to its own
64 Mb; the executable's inode gains a user. -/
def Tasks.spawn (T : Tasks) (child : Nat) (parent : Task) : Tasks :=
  { T with
    task := Function.update T.task child (some { parent with startCode := child * taskSize })
    iCount := fun x => if parent.executable = some x then T.iCount x + 1
      else T.iCount x }

/-- `un_wp_page` for an address, with its mark. -/
def Sys.unWp (address : Nat) (s : Sys) : Option Sys :=
  match doWpPage address s.mem with
  | .error _ => none
  | .ok m => some
      { s with
        mem := m
        laundered := fun i j =>
          if i = dirNr address ∧ j = pageNr address
              ∧ dirty (entryOf s.mem address) ∧ ¬ dirty (entryOf m address)
          then true else s.laundered i j }

/-- The slot of `address` is no longer marked. -/
def Sys.unmark (address : Nat) (m : Mem) (s : Sys) : Sys :=
  { s with
    mem := m
    laundered := fun i j =>
      if i = dirNr address ∧ j = pageNr address then false
      else s.laundered i j }

/-- One step. -/
def SysOp.step : SysOp → Sys → Option Sys
  | .fork parent child size, s =>
    match s.tasks.task parent, copyPageTables (parent * taskSize) (child * taskSize) size s.mem with
    | some p, .ok (0, m) => some
        { mem := m
          tasks := s.tasks.spawn child p
          laundered := fun i j =>
            if i / 16 = child then s.laundered (16 * parent + i % 16) j
            else s.laundered i j }
    | _, _ => none
  | .wpFault address, s => s.unWp address
  | .userStore address value, s =>
    some (s.unmark address (userPut address value s.mem))
  | .writeVerify address, s =>
    if present (entryOf s.mem address) ∧ ¬ writable (entryOf s.mem address) then s.unWp address
    else some s
  | .kernelStore address value, s =>
    some (s.unmark address (userPut address value s.mem))
  | .noPage cur address, s =>
    match s.tasks.task cur with
    | none => none
    | some p =>
      match doNoPage s.tasks cur p address s.mem with
      | .error _ => none
      | .ok m => some (s.unmark address m)

/-- When a step can happen: the processor's conditions for the faults
and stores, `find_empty_process` and the segment limits for fork (64 Mb
once a task runs an executable), and that a task faults inside its own
64 Mb. -/
def SysOp.ready : SysOp → Sys → Prop
  | .fork parent child size, s =>
    parent < nrTasks ∧ child < nrTasks ∧ child ≠ 0 ∧ parent ≠ child
      ∧ size ≤ taskSize ∧ (parent = 0 → size ≤ 0xA0000) ∧ s.tasks.task child = none
      ∧ ((s.tasks.task parent).bind Task.executable ≠ none → size = taskSize)
  | .wpFault address, s =>
    address < 2 ^ 32 ∧ present (entryOf s.mem address) ∧ ¬ writable (entryOf s.mem address)
  | .userStore address _, s =>
    0x1000000 ≤ address ∧ address < 2 ^ 32
      ∧ present (entryOf s.mem address) ∧ writable (entryOf s.mem address)
  | .writeVerify address, _ => address < 2 ^ 32
  | .kernelStore address _, s =>
    0x1000000 ≤ address ∧ address < 2 ^ 32 ∧ present (entryOf s.mem address)
  | .noPage cur address, s =>
    cur < nrTasks ∧ address < 2 ^ 32 ∧ address / taskSize = cur ∧ ¬ present (entryOf s.mem address)

instance : ∀ (o : SysOp) (s : Sys), Decidable (o.ready s)
  | .fork .., _ => inferInstanceAs (Decidable (_ ∧ _))
  | .wpFault .., _ => inferInstanceAs (Decidable (_ ∧ _))
  | .userStore .., _ => inferInstanceAs (Decidable (_ ∧ _))
  | .writeVerify .., _ => inferInstanceAs (Decidable (_ < _))
  | .kernelStore .., _ => inferInstanceAs (Decidable (_ ∧ _))
  | .noPage .., _ => inferInstanceAs (Decidable (_ ∧ _))

/-- The well-behaved steps: a not-present fault finds no clean page of
its executable that is laundered, and a kernel store goes to a page
that has one reference. -/
def SysOp.careful : SysOp → Sys → Prop
  | .noPage cur address, s =>
    ∀ n p q, n < nrTasks → n ≠ cur → s.tasks.task n = some p →
      s.tasks.task cur = some q → p.executable = q.executable →
      let a := n * taskSize + faultOffset q address
      present (entryOf s.mem a) → ¬ dirty (entryOf s.mem a) →
      s.laundered (dirNr a) (pageNr a) = false
  | .kernelStore address _, s =>
    lowMem ≤ pageAddr (entryOf s.mem address)
      ∧ s.mem.memMap (mapNr (pageAddr (entryOf s.mem address))) = 1
  | _, _ => True

end LearnLinux.Mm
