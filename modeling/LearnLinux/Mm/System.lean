/-
The memory manager as a system: its entry points as operations, each
with what its callers promise.

`ready` is what the callers guarantee before a call, and nothing else:
`do_no_page` and `get_empty_page` are entered by page.s for an address
without a present entry, `un_wp_page` for a present one without W,
`copy_page_tables` by `copy_mem` with the bases `nr * 0x4000000` of two
different tasks, `free_page_tables` by `release` with a base and a
limit of the task. The first task's limit is the 640 kB of INIT_TASK;
any other is at most the 64 Mb of an address space.
-/
import LearnLinux.Mm.Access
import LearnLinux.Mm.Demand

namespace LearnLinux.Mm

/-- The task table as `copy_mem` and `do_execve` leave it: task `n`
starts at `n * 64 Mb` and its data ends inside its 64 Mb. -/
structure TaskSpaces (T : Tasks) : Prop where
  base : ∀ n p, n < nrTasks → T.task n = some p → p.startCode = n * taskSize
  ends : ∀ n p, n < nrTasks → T.task n = some p → p.endData ≤ taskSize

/-- The entry points of the memory manager. -/
inductive MmOp where
  | getEmptyPage (address : Nat)
  | doNoPage (T : Tasks) (cur : Nat) (current : Task) (address : Nat)
  | copyPageTables (parent child size : Nat)
  | unWpPage (address : Nat)
  | freePageTables (task size : Nat)

/-- The call. What `copy_page_tables` returns is dropped: with 0 or -1,
it has returned. -/
def MmOp.exec : MmOp → Mem → Except Trap Mem
  | .getEmptyPage address, s => Mm.getEmptyPage address s
  | .doNoPage T cur current address, s =>
    Mm.doNoPage T cur current address s
  | .copyPageTables parent child size, s => do
    let (_, s) ← Mm.copyPageTables (parent * taskSize) (child * taskSize) size s
    .ok s
  | .unWpPage address, s => doWpPage address s
  | .freePageTables task size, s =>
    Mm.freePageTables (task * taskSize) size s

/-- What the caller promises. -/
def MmOp.ready : MmOp → Mem → Prop
  | .getEmptyPage address, s =>
    address < 2 ^ 32 ∧ ¬ present (entryOf s address)
  | .doNoPage T cur current address, s =>
    TaskSpaces T ∧ cur < nrTasks ∧ T.task cur = some current
      ∧ address < 2 ^ 32 ∧ ¬ present (entryOf s address)
  | .copyPageTables parent child size, _ =>
    parent < nrTasks ∧ child < nrTasks ∧ child ≠ 0 ∧ parent ≠ child
      ∧ size ≤ taskSize ∧ (parent = 0 → size ≤ 0xA0000)
  | .unWpPage address, s =>
    address < 2 ^ 32 ∧ present (entryOf s address) ∧ ¬ writable (entryOf s address)
  | .freePageTables task size, _ =>
    task < nrTasks ∧ task ≠ 0 ∧ size ≤ taskSize

/-- A call that returns. -/
def MmOp.step (o : MmOp) (s : Mem) : Option Mem := (o.exec s).toOption

end LearnLinux.Mm
