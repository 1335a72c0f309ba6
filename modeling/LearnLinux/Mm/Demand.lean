/-
Not-present faults: demand loading and demand sharing
(mm/memory.c, `try_to_share` to `do_no_page`).

A task is what these routines read of a `task_struct`: where its code
starts (`nr * 0x4000000`, set by `copy_mem`), where its data ends, and
the inode it executes. The inode of an executable enters in two ways
only: its `i_count`, which `share_page` tests, and the blocks that
`bmap` and `bread_page` find for it. Those live in fs/, so here they
are the functions `iCount` and `fileBlock`; `fileBlock x n` is `none`
where `bmap` returns 0, and otherwise the 256 longs of the block.
-/
import LearnLinux.Mm.Memory

namespace LearnLinux.Mm

-- ======== tasks

/-- `NR_TASKS`. -/
def nrTasks : Nat := 64

/-- The linear space of one task, 64 Mb. -/
def taskSize : Nat := 0x4000000

/-- The fields of a `task_struct` that the fault handlers read. -/
structure Task where
  startCode : Nat
  endData : Nat
  executable : Option Nat
  deriving Repr, DecidableEq

/-- The task table, with what the executables' inodes say. -/
structure Tasks where
  task : Nat → Option Task
  iCount : Nat → Nat
  fileBlock : Nat → Nat → Option (Nat → Nat)

-- ======== sharing

/-- The page table behind directory entry `dir`, made if it is not
there. -/
def ensureTable (dir : Nat) (s : Mem) : Except Trap Mem :=
  if present (s.word dir) then .ok s
  else match getFreePage s with
    | none => .error .oom
    | some (tab, s) => .ok (s.store dir (entry7 tab))

/-- "share them: write-protect": the entry at `fromPage` loses its W
bit, the one at `toPage` becomes its copy, count `nr` goes up. -/
def shareInto (fromPage toPage nr : Nat) (s : Mem) : Except Trap Mem :=
  if present (s.word toPage) then
    .error (.panic "try_to_share: to_page already exists")
  else
    let s := s.store fromPage (clearW (s.word fromPage))
    let s := s.store toPage (s.word fromPage)
    .ok (s.incMap nr)

/-- `try_to_share(address,p)`: `true` when the page was shared. The two
tests on `phys_addr` are the source's "clean and present" and "in main
memory". -/
def tryToShare (address : Nat) (current p : Task) (s : Mem) : Except Trap (Bool × Mem) :=
  let fromDir := dirNr address + dirNr p.startCode
  let toDir := dirNr address + dirNr current.startCode
  if present (s.word fromDir) then
    let fromPage := tablePtr (s.word fromDir) + pageNr address
    let physAddr := s.word fromPage
    if present physAddr ∧ ¬ dirty physAddr then
      if s.highMemory ≤ pageAddr physAddr ∨ pageAddr physAddr < lowMem then
        .ok (false, s)
      else do
        let s ← ensureTable toDir s
        let toPage := tablePtr (s.word toDir) + pageNr address
        let s ← shareInto fromPage toPage (mapNr (pageAddr physAddr)) s
        .ok (true, s)
    else .ok (false, s)
  else .ok (false, s)

/-- The loop of `share_page`: slots `n`, `n - 1`, ..., 1 of the task
table (slot 0 is never tried). -/
def shareLoop (T : Tasks) (cur : Nat) (current : Task) (address : Nat) :
    Nat → Mem → Except Trap (Bool × Mem)
  | 0, s => .ok (false, s)
  | n + 1, s =>
    match T.task (n + 1) with
    | none => shareLoop T cur current address n s
    | some p =>
      if n + 1 = cur ∨ p.executable ≠ current.executable then
        shareLoop T cur current address n s
      else do
        let (shared, s) ← tryToShare address current p s
        if shared then .ok (true, s)
        else shareLoop T cur current address n s

/-- `share_page(address)` of task `cur`. -/
def sharePage (T : Tasks) (cur : Nat) (current : Task) (address : Nat)
    (s : Mem) : Except Trap (Bool × Mem) :=
  match current.executable with
  | none => .ok (false, s)
  | some x =>
    if T.iCount x < 2 then .ok (false, s)
    else shareLoop T cur current address (nrTasks - 1) s

-- ======== demand loading

/-- `bread_page` into the page at address `page`: the four blocks
behind each other, a block that is not there leaving its quarter of
the page alone. -/
def breadPage (page : Nat) (blk : Nat → Option (Nat → Nat)) (s : Mem) :
    Mem :=
  { s with word := fun k =>
    if k / 1024 = page / 4096 then
      match blk (k % 1024 / 256) with
      | some d => d (k % 256)
      | none => s.word k
    else s.word k }

/-- The `while (i-- > 0)` loop of `do_no_page`: `n` bytes below address
`a` are cleared. -/
def clearTail : Nat → Nat → Mem → Mem
  | 0, _, s => s
  | n + 1, a, s => clearTail n (a - 1) (s.storeByte (a - 1) 0)

/-- The part of `do_no_page` that fills the fresh page at address
`page`: one block is the header, and the bytes past the end of data
are cleared again. -/
def loadPage (T : Tasks) (x tmp endData page : Nat) (s : Mem) : Mem :=
  let blk := fun i => T.fileBlock x (1 + tmp / 1024 + i)
  clearTail (tmp + 4096 - endData) (page + 4096) (breadPage page blk s)

/-- `tmp = address - current->start_code`, after
`address &= 0xfffff000`. -/
def faultOffset (current : Task) (address : Nat) : Nat :=
  (pageAddr address + 2 ^ 32 - current.startCode) % 2 ^ 32

/-- `do_no_page(error_code,address)`, run by task `cur`. -/
def doNoPage (T : Tasks) (cur : Nat) (current : Task) (address : Nat) (s : Mem) : Except Trap Mem :=
  let tmp := faultOffset current address
  match current.executable with
  | none => getEmptyPage (pageAddr address) s
  | some x =>
    if current.endData ≤ tmp then getEmptyPage (pageAddr address) s
    else do
      let (shared, s) ← sharePage T cur current tmp s
      if shared then .ok s
      else
        match getFreePage s with
        | none => .error .oom
        | some (page, s) =>
          let s := loadPage T x tmp current.endData page s
          match putPage page (pageAddr address) s with
          | some s => .ok s
          | none => do
            let _ ← freePage page s
            .error .oom

end LearnLinux.Mm
