/-
The calls on names (`fs/namei.c`), and those that give a block, an inode
or a buffer back, for one task.

A directory entry that is found or made is the buffer that holds it and
its index there; its bytes are read and written in the buffer, when the
source does. `find_entry` may exchange the directory for the one that it
is mounted on, so it returns the directory too.

A pathname is cut at the slashes at once. The loop of `get_dir` goes over
all parts but the last, which is the name that `dir_namei` finds behind
the last slash.
-/
import LearnLinux.Fs.Machine

namespace LearnLinux.Kernel

open LearnLinux.Lib
open LearnLinux.InodeTable (Slot ROOT_INO)
open LearnLinux.Fs (Block Name NAME_LEN dirEntriesPerBlock EPERM
  ENOENT EACCES EEXIST ENOTDIR EISDIR ENOSPC ENOTEMPTY)

def EXDEV : Int := 18

def ERROR : Int := 99

def SUPER_MAGIC : UInt16 := 0x137F

def MAY_EXEC : UInt16 := 1

def MAY_WRITE : UInt16 := 2

variable {n : Nat} (fuel : Nat)

-- ======== permissions

/-- `permission`. -/
def Machine.permission (s : Machine n) (j : Slot) (mask : UInt16) : Bool :=
  let d := s.dinode j
  let mode :=
    if s.task.euid = d.uid then d.mode >>> 6
    else if s.task.egid = d.gid.toUInt16 then d.mode >>> 3
    else d.mode
  if (s.ino j).dev ≠ 0 && d.nlinks = 0 then false
  else mode &&& mask &&& 7 = mask || s.task.euid = 0

/-- `suser()`. -/
def Machine.suser (s : Machine n) : Bool := s.task.euid = 0

-- ======== entries

/-- The bytes of an entry's buffer change. -/
def store (b : Fin n) (f : Block → Block) : K n Unit := do
  modify fun s => s.setData b (f (s.data b))
  modify fun s => s.setHead b fun h => { h with dirt := true }

/-- `de->inode = nr`. -/
def setEntry (de : Fin n × Nat) (nr : UInt16) : K n Unit :=
  store de.1 fun d => d.setInodeNr de.2 nr.toNat

/-- The loop of `find_entry` from entry `i` on: `k` is the place of the
entry in the buffer. There are `entries` rounds at most. Without a buffer
the next block is looked for, as at the end of one. -/
def findLoop (dir : Slot) (entries : Nat) (name : Name) :
    Nat → Nat → Nat → Option (Fin n) → K n (Option (Fin n × Nat))
  | 0, _, _, bh => do
    brelse bh
    pure none
  | m + 1, i, k, bh =>
    if entries ≤ i then do
      brelse bh
      pure none
    else
      match (if k < dirEntriesPerBlock then bh else none) with
      | some b => do
        let s ← get
        if (s.data b).Matches k name then pure (some (b, k))
        else findLoop dir entries name m (i + 1) (k + 1) (some b)
      | none => do
        brelse bh
        let block ← bmap fuel dir (i / dirEntriesPerBlock)
        if block = 0 then
          findLoop dir entries name m (i + dirEntriesPerBlock) k none
        else do
          let s ← get
          match ← bread fuel (s.ino dir).dev (UInt32.ofInt block) with
          | none =>
            findLoop dir entries name m (i + dirEntriesPerBlock) k none
          | some b => do
            let s ← get
            if (s.data b).Matches 0 name then pure (some (b, 0))
            else findLoop dir entries name m (i + 1) 1 (some b)

/-- `..` in a directory that another one is mounted on, or in the root of
the task. -/
def dotDot (dir : Slot) (name : Name) : K n (Slot × Name) := do
  let s ← get
  if name = [46, 46] then
    if s.root = some dir then pure (dir, [46])
    else if (s.ino dir).num = ROOT_INO then do
      match ← getSuper (s.ino dir).dev with
      | none => throw .wild
      | some i =>
        match (s.mnt i).imount with
        | none => pure (dir, name)
        | some m => do
          iput fuel (some dir)
          modify fun s => s.take m
          pure (m, name)
    else pure (dir, name)
  else pure (dir, name)

/-- `find_entry`. The number of entries is that of the directory it is
called with. -/
def findEntry (dir : Slot) (name : Name) : K n (Slot × Option (Fin n × Nat)) := do
  let s ← get
  let entries := (s.dinode dir).size.toNat / 16
  if name = [] then pure (dir, none)
  else do
    let (dir, name) ← dotDot fuel dir (name.take NAME_LEN)
    let s ← get
    if (s.dinode dir).zone 0 = 0 then pure (dir, none)
    else do
      match ← bread fuel (s.ino dir).dev ((s.dinode dir).zone 0).toUInt32 with
      | none => pure (dir, none)
      | some b => do
        let de ← findLoop fuel dir entries name entries 0 0 (some b)
        pure (dir, de)

/-- Where the directory ends, the entry is made and the size grows. -/
def extendDir (dir : Slot) (b : Fin n) (i k : Nat) : K n Unit := do
  let s ← get
  if (s.dinode dir).size.toNat ≤ 16 * i then do
    modify fun s => s.setData b ((s.data b).setInodeNr k 0)
    modify fun s => s.setDInode dir fun d =>
      { d with size := UInt32.ofNat (16 * (i + 1)) }
    modify fun s => s.setDirt dir true
  else pure ()

/-- The loop of `add_entry` from entry `i` on. -/
def addLoop (dir : Slot) (name : Name) :
    Nat → Nat → Nat → Option (Fin n) → K n (Option (Fin n × Nat))
  | 0, _, _, _ => throw .fuel
  | m + 1, i, k, bh =>
    match (if k < dirEntriesPerBlock then bh else none) with
    | some b => do
      extendDir dir b i k
      let s ← get
      if (s.data b).inodeNr k = 0 then do
        store b fun d => d.putName k name
        pure (some (b, k))
      else addLoop dir name m (i + 1) (k + 1) (some b)
    | none => do
      brelse bh
      let block ← createBlock fuel dir (i / dirEntriesPerBlock)
      if block = 0 then pure none
      else do
        let s ← get
        match ← bread fuel (s.ino dir).dev (UInt32.ofInt block) with
        | none => addLoop dir name m (i + dirEntriesPerBlock) k none
        | some b => do
          extendDir dir b i 0
          let s ← get
          if (s.data b).inodeNr 0 = 0 then do
            store b fun d => d.putName 0 name
            pure (some (b, 0))
          else addLoop dir name m (i + 1) 1 (some b)

/-- `add_entry`. -/
def addEntry (dir : Slot) (name : Name) : K n (Option (Fin n × Nat)) := do
  let s ← get
  if name = [] then pure none
  else if (s.dinode dir).zone 0 = 0 then pure none
  else do
    match ← bread fuel (s.ino dir).dev ((s.dinode dir).zone 0).toUInt32 with
    | none => pure none
    | some b => addLoop fuel dir (name.take NAME_LEN) fuel 0 0 (some b)

-- ======== pathnames

/-- The loop of `get_dir`. -/
def walk : List Name → Slot → K n (Option (Slot × Name))
  | [], _ => pure none
  | name :: rest, j => do
    let s ← get
    if S_ISDIR (s.dinode j).mode && s.permission j MAY_EXEC then
      if rest = [] then pure (some (j, name))
      else do
        match ← findEntry fuel j name with
        | (j, none) => do
          iput fuel (some j)
          pure none
        | (j, some de) => do
          let s ← get
          let inr := UInt16.ofNat ((s.data de.1).inodeNr de.2)
          let idev := (s.ino j).dev
          brelse (some de.1)
          iput fuel (some j)
          let j ← iget fuel idev inr
          walk rest j
    else do
      iput fuel (some j)
      pure none

/-- `dir_namei`. -/
def dirNamei (pathname : Name) : K n (Option (Slot × Name)) := do
  let s ← get
  match s.root, s.pwd with
  | none, _ => throw (.panic .noRootInode)
  | some root, pwd =>
    if (s.ino root).count = 0 then throw (.panic .noRootInode)
    else
      match pwd with
      | none => throw (.panic .noCwdInode)
      | some pwd =>
        if (s.ino pwd).count = 0 then throw (.panic .noCwdInode)
        else
          match pathname with
          | [] => pure none
          | 47 :: rest => do
            modify fun s => s.take root
            walk fuel (rest.splitOn 47) root
          | c :: rest => do
            modify fun s => s.take pwd
            walk fuel ((c :: rest).splitOn 47) pwd

/-- `namei`. -/
def namei (pathname : Name) : K n (Option Slot) := do
  match ← dirNamei fuel pathname with
  | none => pure none
  | some (dir, name) =>
    if name = [] then pure (some dir)
    else do
      match ← findEntry fuel dir name with
      | (dir, none) => do
        iput fuel (some dir)
        pure none
      | (dir, some de) => do
        let s ← get
        let inr := UInt16.ofNat ((s.data de.1).inodeNr de.2)
        let dev := (s.ino dir).dev
        brelse (some de.1)
        iput fuel (some dir)
        let j ← iget fuel dev inr
        modify fun s => s.setDirt j true
        pure (some j)

-- ======== open_namei

def O_ACCMODE : Nat := 3

def O_CREAT : Nat := 0o100

def O_EXCL : Nat := 0o200

def O_TRUNC : Nat := 0o1000

/-- `ACC_MODE`. -/
def accMode (flag : Nat) : UInt16 :=
  [4, 2, 6, 255].getD (flag &&& O_ACCMODE) 0

/-- A name is made in the directory for a new inode: `open_namei` from
where the name was not found. -/
def openNew (dir : Slot) (name : Name) (mode : UInt16) : K n (Int × Option Slot) := do
  let s ← get
  match ← newInode fuel (s.ino dir).dev with
  | none => do
    iput fuel (some dir)
    pure (-ENOSPC, none)
  | some j => do
    modify fun s => s.setDInode j fun d =>
      { d with uid := s.task.euid, mode := mode }
    modify fun s => s.setDirt j true
    match ← addEntry fuel dir name with
    | none => do
      modify fun s => s.setDInode j fun d =>
        { d with nlinks := d.nlinks - 1 }
      iput fuel (some j)
      iput fuel (some dir)
      pure (-ENOSPC, none)
    | some de => do
      let s ← get
      setEntry de (s.ino j).num
      brelse (some de.1)
      iput fuel (some dir)
      pure (0, some j)

/-- `open_namei` from where the name was found. -/
def openOld (dev inr : UInt16) (flag : Nat) : K n (Int × Option Slot) :=
  if flag &&& O_EXCL ≠ 0 then pure (-EEXIST, none)
  else do
    let j ← iget fuel dev inr
    let s ← get
    if (S_ISDIR (s.dinode j).mode && flag &&& O_ACCMODE ≠ 0) ||
        !s.permission j (accMode flag) then do
      iput fuel (some j)
      pure (-EPERM, none)
    else if flag &&& O_TRUNC ≠ 0 then do
      truncate fuel j
      pure (0, some j)
    else pure (0, some j)

/-- `open_namei`: the result, and what it stores in `res_inode`. -/
def openNamei (pathname : Name) (flag : Nat) (mode : UInt16) : K n (Int × Option Slot) := do
  let s ← get
  let flag := if flag &&& O_TRUNC ≠ 0 ∧ flag &&& O_ACCMODE = 0 then
    flag ||| 1 else flag
  let mode := (mode &&& 0o777 &&& ~~~ s.task.umask) ||| 0o100000
  match ← dirNamei fuel pathname with
  | none => pure (-ENOENT, none)
  | some (dir, name) =>
    if name = [] then
      if flag &&& (O_ACCMODE ||| O_CREAT ||| O_TRUNC) = 0 then
        pure (0, some dir)
      else do
        iput fuel (some dir)
        pure (-EISDIR, none)
    else do
      match ← findEntry fuel dir name with
      | (dir, none) =>
        if flag &&& O_CREAT = 0 then do
          iput fuel (some dir)
          pure (-ENOENT, none)
        else do
          let s ← get
          if s.permission dir MAY_WRITE then openNew fuel dir name mode
          else do
            iput fuel (some dir)
            pure (-EACCES, none)
      | (dir, some de) => do
        let s ← get
        let inr := UInt16.ofNat ((s.data de.1).inodeNr de.2)
        let dev := (s.ino dir).dev
        brelse (some de.1)
        iput fuel (some dir)
        openOld fuel dev inr flag

-- ======== mknod and mkdir

/-- The end of `sys_mknod`, with the new inode. -/
def mknodNew (dir j : Slot) (name : Name) (mode dev : UInt16) : K n Int := do
  modify fun s => s.setDInode j fun d => { d with mode := mode }
  modify fun s =>
    if S_ISBLK mode || S_ISCHR mode then s.setZone j 0 dev else s
  modify fun s => s.setDirt j true
  match ← addEntry fuel dir name with
  | none => do
    iput fuel (some dir)
    modify fun s => s.setDInode j fun d => { d with nlinks := 0 }
    iput fuel (some j)
    pure (-ENOSPC)
  | some de => do
    let s ← get
    setEntry de (s.ino j).num
    iput fuel (some dir)
    iput fuel (some j)
    brelse (some de.1)
    pure 0

/-- `mknod` and `mkdir` up to the new inode: with a directory that may be
written and does not have the name, `f` goes on. -/
def create (pathname : Name) (f : Slot → Slot → Name → K n Int) : K n Int := do
  let s ← get
  if s.suser then do
    match ← dirNamei fuel pathname with
    | none => pure (-ENOENT)
    | some (dir, name) => do
      let s ← get
      if name = [] then do
        iput fuel (some dir)
        pure (-ENOENT)
      else if s.permission dir MAY_WRITE then do
        match ← findEntry fuel dir name with
        | (dir, some de) => do
          brelse (some de.1)
          iput fuel (some dir)
          pure (-EEXIST)
        | (dir, none) => do
          let s ← get
          match ← newInode fuel (s.ino dir).dev with
          | none => do
            iput fuel (some dir)
            pure (-ENOSPC)
          | some j => f dir j name
      else do
        iput fuel (some dir)
        pure (-EPERM)
  else pure (-EPERM)

def sysMknod (filename : Name) (mode dev : UInt16) : K n Int :=
  create fuel filename fun dir j name => mknodNew fuel dir j name mode dev

/-- `mkdir` with the entries `.` and `..` made: the name is made in the
directory. -/
def mkdirName (dir j : Slot) (name : Name) (mode : UInt16) : K n Int := do
  modify fun s => s.setDInode j fun d =>
    { d with mode := 0o040000 ||| (mode &&& 0o777 &&& ~~~ s.task.umask) }
  modify fun s => s.setDirt j true
  match ← addEntry fuel dir name with
  | none => do
    iput fuel (some dir)
    let s ← get
    freeBlock (s.ino j).dev ((s.dinode j).zone 0).toNat
    modify fun s => s.setDInode j fun d => { d with nlinks := 0 }
    iput fuel (some j)
    pure (-ENOSPC)
  | some de => do
    let s ← get
    setEntry de (s.ino j).num
    modify fun s => s.setDInode dir fun d =>
      { d with nlinks := d.nlinks + 1 }
    modify fun s => s.setDirt dir true
    iput fuel (some dir)
    iput fuel (some j)
    brelse (some de.1)
    pure 0

/-- The end of `sys_mkdir`, with the new inode. -/
def mkdirNew (dir j : Slot) (name : Name) (mode : UInt16) : K n Int := do
  modify fun s => s.setDInode j fun d => { d with size := 32 }
  modify fun s => s.setDirt j true
  let s ← get
  let z ← newBlock fuel (s.ino j).dev
  modify fun s => s.setZone j 0 (UInt16.ofInt z)
  if UInt16.ofInt z = 0 then do
    iput fuel (some dir)
    modify fun s => s.setDInode j fun d => { d with nlinks := d.nlinks - 1 }
    iput fuel (some j)
    pure (-ENOSPC)
  else do
    modify fun s => s.setDirt j true
    let s ← get
    match ← bread fuel (s.ino j).dev ((s.dinode j).zone 0).toUInt32 with
    | none => do
      iput fuel (some dir)
      let s ← get
      freeBlock (s.ino j).dev ((s.dinode j).zone 0).toNat
      modify fun s => s.setDInode j fun d =>
        { d with nlinks := d.nlinks - 1 }
      iput fuel (some j)
      pure (-ERROR)
    | some b => do
      let s ← get
      store b fun d =>
        (((d.setInodeNr 0 (s.ino j).num.toNat).put 2 [46, 0]).setInodeNr
          1 (s.ino dir).num.toNat).put 18 [46, 46, 0]
      modify fun s => s.setDInode j fun d => { d with nlinks := 2 }
      brelse (some b)
      mkdirName fuel dir j name mode

def sysMkdir (pathname : Name) (mode : UInt16) : K n Int :=
  create fuel pathname fun dir j name => mkdirNew fuel dir j name mode

-- ======== rmdir and unlink

/-- The loop of `empty_dir` from entry `nr` on, with the place of the
entry in the buffer `b`. Behind a hole it still has the buffer it has
released, and releases it once more. -/
def emptyLoop (j : Slot) (len : Nat) : Nat → Nat → Nat → Fin n → K n Bool
  | 0, _, _, b => do
    brelse (some b)
    pure true
  | m + 1, nr, k, b =>
    if len ≤ nr then do
      brelse (some b)
      pure true
    else if k < dirEntriesPerBlock then do
      let s ← get
      if (s.data b).inodeNr k = 0 then
        emptyLoop j len m (nr + 1) (k + 1) b
      else do
        brelse (some b)
        pure false
    else do
      brelse (some b)
      let block ← bmap fuel j (nr / dirEntriesPerBlock)
      if block = 0 then do
        modify fun s => s.note (.hole b)
        emptyLoop j len m (nr + dirEntriesPerBlock) k b
      else do
        let s ← get
        match ← bread fuel (s.ino j).dev (UInt32.ofInt block) with
        | none => pure false
        | some b => do
          let s ← get
          if (s.data b).inodeNr 0 = 0 then
            emptyLoop j len m (nr + 1) 1 b
          else do
            brelse (some b)
            pure false

/-- `empty_dir`. A directory that does not start with `.` and `..` is
reported, and its first block is not released. -/
def emptyDir (j : Slot) : K n Bool := do
  let s ← get
  let len := (s.dinode j).size.toNat / 16
  if len < 2 ∨ (s.dinode j).zone 0 = 0 then pure false
  else do
    match ← bread fuel (s.ino j).dev ((s.dinode j).zone 0).toUInt32 with
    | none => pure false
    | some b => do
      let s ← get
      let d := s.data b
      if d.inodeNr 0 ≠ (s.ino j).num.toNat ∨ d.inodeNr 1 = 0 ∨
          ¬ (d.nameByte 0 0 = 46 ∧ d.nameByte 0 1 = 0) ∨
          ¬ (d.nameByte 1 0 = 46 ∧ d.nameByte 1 1 = 46 ∧ d.nameByte 1 2 = 0) then do
        modify fun s => s.note (.badDirectory b)
        pure false
      else emptyLoop fuel j len len 2 2 b

/-- `rmdir` and `unlink` up to the inode that is named: with a directory
that may be written, the entry and the inode, `f` goes on. -/
def remove (pathname : Name) (f : Slot → Fin n × Nat → Slot → K n Int) : K n Int := do
  match ← dirNamei fuel pathname with
  | none => pure (-ENOENT)
  | some (dir, name) => do
    let s ← get
    if name = [] then do
      iput fuel (some dir)
      pure (-ENOENT)
    else if s.permission dir MAY_WRITE then do
      match ← findEntry fuel dir name with
      | (dir, none) => do
        iput fuel (some dir)
        pure (-ENOENT)
      | (dir, some de) => do
        let s ← get
        let j ← iget fuel (s.ino dir).dev (UInt16.ofNat ((s.data de.1).inodeNr de.2))
        f dir de j
    else do
      iput fuel (some dir)
      pure (-EPERM)

/-- An error of `rmdir` or `unlink`: the two inodes are put, the buffer is
released. -/
def giveUp (j j' : Slot) (de : Fin n × Nat) (err : Int) : K n Int := do
  iput fuel (some j)
  iput fuel (some j')
  brelse (some de.1)
  pure (-err)

/-- The sticky bit. -/
def isVtx (mode : UInt16) : Bool := mode &&& 0o1000 ≠ 0

/-- `sys_rmdir` with the inode. -/
def rmdirInode (dir : Slot) (de : Fin n × Nat) (j : Slot) : K n Int := do
  let s ← get
  if isVtx (s.dinode dir).mode && s.task.euid ≠ 0 && (s.dinode j).uid ≠ s.task.euid then
    giveUp fuel dir j de EPERM
  else if (s.ino j).dev ≠ (s.ino dir).dev ∨ 1 < (s.ino j).count then
    giveUp fuel dir j de EPERM
  else if j = dir then giveUp fuel j dir de EPERM
  else if S_ISDIR (s.dinode j).mode then do
    match ← emptyDir fuel j with
    | false => giveUp fuel j dir de ENOTEMPTY
    | true => do
      setEntry de 0
      brelse (some de.1)
      modify fun s => s.setDInode j fun d => { d with nlinks := 0 }
      modify fun s => s.setDirt j true
      modify fun s => s.setDInode dir fun d =>
        { d with nlinks := d.nlinks - 1 }
      modify fun s => s.setDirt dir true
      iput fuel (some dir)
      iput fuel (some j)
      pure 0
  else giveUp fuel j dir de ENOTDIR

def sysRmdir (pathname : Name) : K n Int := do
  let s ← get
  if s.suser then remove fuel pathname (rmdirInode fuel) else pure (-EPERM)

/-- `sys_unlink` with the inode. -/
def unlinkInode (dir : Slot) (de : Fin n × Nat) (j : Slot) : K n Int := do
  let s ← get
  if isVtx (s.dinode dir).mode && !s.suser &&
      s.task.euid ≠ (s.dinode j).uid && s.task.euid ≠ (s.dinode dir).uid then
    giveUp fuel dir j de EPERM
  else if S_ISDIR (s.dinode j).mode then giveUp fuel j dir de EPERM
  else do
    -- of a deleted file the link count is taken to be 1
    modify fun s => s.setDInode j fun d =>
      { d with nlinks := if d.nlinks = 0 then 1 else d.nlinks }
    setEntry de 0
    brelse (some de.1)
    modify fun s => s.setDInode j fun d => { d with nlinks := d.nlinks - 1 }
    modify fun s => s.setDirt j true
    iput fuel (some j)
    iput fuel (some dir)
    pure 0

def sysUnlink (pathname : Name) : K n Int :=
  remove fuel pathname (unlinkInode fuel)

-- ======== link

/-- `sys_link` with the old inode and the directory of the new name. -/
def linkInode (old dir : Slot) (name : Name) : K n Int := do
  let s ← get
  if name = [] then do
    iput fuel (some old)
    iput fuel (some dir)
    pure (-EPERM)
  else if (s.ino dir).dev ≠ (s.ino old).dev then do
    iput fuel (some dir)
    iput fuel (some old)
    pure (-EXDEV)
  else if s.permission dir MAY_WRITE then do
    match ← findEntry fuel dir name with
    | (dir, some de) => do
      brelse (some de.1)
      iput fuel (some dir)
      iput fuel (some old)
      pure (-EEXIST)
    | (dir, none) => do
      match ← addEntry fuel dir name with
      | none => do
        iput fuel (some dir)
        iput fuel (some old)
        pure (-ENOSPC)
      | some de => do
        let s ← get
        setEntry de (s.ino old).num
        brelse (some de.1)
        iput fuel (some dir)
        modify fun s => s.setDInode old fun d =>
          { d with nlinks := d.nlinks + 1 }
        modify fun s => s.setDirt old true
        iput fuel (some old)
        pure 0
  else do
    iput fuel (some dir)
    iput fuel (some old)
    pure (-EACCES)

def sysLink (oldname newname : Name) : K n Int := do
  match ← namei fuel oldname with
  | none => pure (-ENOENT)
  | some old => do
    let s ← get
    if S_ISDIR (s.dinode old).mode then do
      iput fuel (some old)
      pure (-EPERM)
    else do
      match ← dirNamei fuel newname with
      | none => do
        iput fuel (some old)
        pure (-EACCES)
      | some (dir, name) => linkInode fuel old dir name

-- ======== calls that give back

/-- The calls that are to give back every reference they take, other than
to the inode that `open_namei` hands out. -/
inductive Call where
  | mknod (filename : Name) (mode dev : UInt16)
  | mkdir (pathname : Name) (mode : UInt16)
  | rmdir (pathname : Name)
  | unlink (pathname : Name)
  | link (oldname newname : Name)
  | openNamei (pathname : Name) (flag : Nat) (mode : UInt16)
  | truncate (j : Slot)
  | freeBlock (dev : UInt16) (block : Int)

/-- The call, with the inode that it hands out. -/
def Call.run : Call → K n (Option Slot)
  | .mknod filename mode dev => do
    let _ ← sysMknod fuel filename mode dev
    pure none
  | .mkdir pathname mode => do
    let _ ← sysMkdir fuel pathname mode
    pure none
  | .rmdir pathname => do
    let _ ← sysRmdir fuel pathname
    pure none
  | .unlink pathname => do
    let _ ← sysUnlink fuel pathname
    pure none
  | .link oldname newname => do
    let _ ← sysLink fuel oldname newname
    pure none
  | .openNamei pathname flag mode => do
    let r ← Kernel.openNamei fuel pathname flag mode
    pure r.2
  | .truncate j => do
    Kernel.truncate fuel j
    pure none
  | .freeBlock dev block => do
    Kernel.freeBlock dev block
    pure none

/-- The call in a state, with a trace of its own. -/
def Call.exec (o : Call) (s : Machine n) : Except Halt (Option Slot) × Machine n :=
  (o.run fuel).exec { s with trace := [] }

/-- How often the buffer was left without `brelse`: in use in
`free_block`, or the first block of a bad directory in `empty_dir`. -/
def Machine.missing (s : Machine n) (b : Fin n) : Nat :=
  s.trace.count (.busy b) + s.trace.count (.badDirectory b)

/-- How often the buffer was released once more: behind a hole in
`empty_dir`. -/
def Machine.extra (s : Machine n) (b : Fin n) : Nat :=
  s.trace.count (.hole b)

end LearnLinux.Kernel
