/-
Open files on a device: the file table of `FileTable` and the inodes of
`Namei`, with the calls that tie them together.

`sys_open` reserves an entry, sleeps in `open_namei`, and then stores the
inode, to which the entry holds a reference from there on. `sys_close`
hands the inode to `iput` when the count of the entry goes to 0. `dupfd`
and `fork` share entries, and `fork` also takes references to the inodes
that the task itself holds. `sys_unlink` and `sys_link` change the links
and leave the references as they are.
-/
import LearnLinux.Fs.FileTable
import LearnLinux.Fs.Links

namespace LearnLinux.Fs

open Lib

/-- The file table, and a device. -/
structure OpenSys where
  table : FileTable.System
  dev : Dev

variable (s : OpenSys)

inductive OpenOp where
  /-- `sys_open` up to `open_namei`. -/
  | openBegin (t : Nat)
  /-- `open_namei` and what follows it. `noTty` says that the inode is
  `/dev/tty` and the task has no terminal. -/
  | openEnd (t : Nat) (c : Caller) (pathname : Name) (flags : OpenFlags) (noTty : Bool)
  | close (t fd : Nat)
  | dupfd (t fd arg : Nat)
  /-- `inodes` are those the task itself holds: its root, its working
  directory and its executable. -/
  | fork (t nr : Nat) (inodes : List Nat)
  | sysUnlink (c : Caller) (pathname : Name)
  | sysLink (c : Caller) (oldname newname : Name)

/-- A step of the file table that puts no inode. -/
def OpenSys.onTable (o : FileTable.Op) : Option OpenSys := do
  let table ← FileTable.step o s.table
  some { s with table := table }

/-- A call that changes the device only. -/
def OpenSys.onDev (r : Except Crash (Int × Dev)) : Option OpenSys :=
  match r with
  | .ok (_, dev) => some { s with dev := dev }
  | .error _ => none

/-- `sys_open` from `open_namei` on. -/
def OpenSys.openEnd (t : Nat) (c : Caller) (pathname : Name)
    (flags : OpenFlags) (noTty : Bool) : Option OpenSys :=
  match openNamei s.dev c pathname flags with
  | .error _ => none
  | .ok (.error code, dev) =>
    ({ s with dev := dev } : OpenSys).onTable (.openEnd t (.error code))
  | .ok (.ok n, dev) =>
    if noTty then do
      let dev ← (iput dev n).toOption
      ({ s with dev := dev } : OpenSys).onTable (.openEnd t .noTty)
    else ({ s with dev := dev } : OpenSys).onTable (.openEnd t (.inode n))

/-- `sys_close`. -/
def OpenSys.close (t fd : Nat) : Option OpenSys := do
  let table ← FileTable.step (.close t fd) s.table
  match table.iput with
  | none => some { s with table := table }
  | some (_, n) =>
    let dev ← (iput s.dev n).toOption
    some { table := table, dev := dev }

/-- `fork`. The inodes are held by the task, so they have references. -/
def OpenSys.fork (t nr : Nat) (inodes : List Nat) : Option OpenSys :=
  if ∀ n ∈ inodes, s.dev.count n ≠ 0 then
    ({ s with dev := inodes.foldl iget s.dev } : OpenSys).onTable (.fork t nr true)
  else none

/-- A call that panics has no next state. -/
def OpenOp.step : OpenOp → OpenSys → Option OpenSys
  | .openBegin t, s => s.onTable (.openBegin t)
  | .openEnd t c pathname flags noTty, s =>
    s.openEnd t c pathname flags noTty
  | .close t fd, s => s.close t fd
  | .dupfd t fd arg, s => s.onTable (.dupfd t fd arg)
  | .fork t nr inodes, s => s.fork t nr inodes
  | .sysUnlink c pathname, s => s.onDev (Fs.sysUnlink s.dev c pathname)
  | .sysLink c oldname newname, s =>
    s.onDev (Fs.sysLink s.dev c oldname newname)

/-- Links are made to inodes with fewer than 255. -/
def OpenOp.Fits : OpenOp → OpenSys → Prop
  | .sysLink c oldname newname, s =>
    LinkOp.Fits (.sysLink c oldname newname) s.dev
  | _, _ => True

-- ======== the purpose

/-- A task is in `open_namei` with the entry. -/
def OpenSys.Reserved (f : Nat) : Prop :=
  ∃ t p fd, s.table.task t = some p ∧ p.phase = .opening fd f

open Classical in
/-- The inode of an entry that is open. -/
noncomputable def OpenSys.inodeOf (f : Nat) : Option Nat :=
  if 0 < (s.table.file f).fCount ∧ ¬ s.Reserved f then
    some (s.table.file f).fInode
  else none

/-- The inode of every open file is in use; and an inode is in use exactly
as long as it has a link or a reference in core. -/
structure OpenSys.Alive : Prop where
  file : ∀ f n, s.inodeOf f = some n → s.dev.live n = true
  inode : ∀ n, s.dev.live n = true ↔ 0 < s.dev.nlinks n ∨ 0 < s.dev.count n

/-- The step opens the inode with `O_TRUNC`. -/
def OpenOp.Truncates : OpenOp → OpenSys → Nat → Prop
  | .openEnd _ c pathname flags _, s, n => flags.trunc = true ∧
      ∃ dev, openNamei s.dev c pathname flags = .ok (.ok n, dev)
  | _, _, _ => False

/-- Where a system of open files may start: the links are honest, the
counts of the file table exact, and every open file has its reference. -/
structure OpenSys.Started : Prop where
  good : Good s.dev
  table : s.table.Exact
  user : ∀ t p, s.table.task t = some p → t < FileTable.NR_TASKS ∧ p.phase = .user
  small : ∀ f, 0 < (s.table.file f).fCount → f < FileTable.NR_FILE
  refs : ∀ n, Lib.refs (Finset.range FileTable.NR_FILE) s.inodeOf n ≤ s.dev.count n

end LearnLinux.Fs
