/-
Names and links: directories (`fs/namei.c`), and the life of an inode
(`iget` and `iput` of `fs/inode.c`, `new_inode` and `free_inode` of
`fs/bitmap.c`).

# What a state holds

One mounted device, with nothing mounted on it. Its zones, and the mode,
size and zones of its inodes, are those of `Vol`; here an inode also has its
count of links, a byte, and the number of references that the kernel holds
to it in core. (That is `i_count`, a short; files and tasks are too few to
fill it.) An inode is seen as `iget` sees it, whether it is in core or was
written back; of a number that is not in use the inode is empty, as
`free_inode` leaves it and `get_empty_inode` starts with. No reads or
writes of the device fail, and the table of inodes in core has room.

A directory is a file of entries of 16 bytes: the number of an inode, two
bytes, 0 for a free entry, and a name of 14.

Who may do what (owners, groups, permission bits) is the business of the
caller, a table of answers; that a deleted file can be used by nobody is
checked here as in `permission`.
-/
import LearnLinux.Fs.Files

namespace LearnLinux.Fs

open Lib

def NAME_LEN : Nat := 14

/-- `DIR_ENTRIES_PER_BLOCK`. -/
def dirEntriesPerBlock : Nat := 64

def MAY_EXEC : Nat := 1

def MAY_WRITE : Nat := 2

def EPERM : Int := 1

def ENOENT : Int := 2

def EACCES : Int := 13

def EEXIST : Int := 17

def ENOTDIR : Int := 20

def EISDIR : Int := 21

def ENOSPC : Int := 28

def ENOTEMPTY : Int := 39

/-- A name, without the byte that ends it. -/
abbrev Name := List UInt8

-- ======== directory blocks

/-- The inode number of entry `k` of a directory block. -/
def Block.inodeNr (b : Block) (k : Nat) : Nat := b.entry (8 * k)

/-- `de->inode = n`. -/
def Block.setInodeNr (b : Block) (k n : Nat) : Block := b.setEntry (8 * k) n

/-- Byte `j` of the name of entry `k`. -/
def Block.nameByte (b : Block) (k j : Nat) : UInt8 := b (16 * k + 2 + j)

/-- `match`: the entry is in use and has the name, which has at most
`NAME_LEN` bytes. -/
def Block.Matches (b : Block) (k : Nat) (name : Name) : Prop :=
  b.inodeNr k ≠ 0 ∧ (name.length < NAME_LEN → b.nameByte k name.length = 0)
    ∧ ∀ j < name.length, b.nameByte k j = name.getD j 0

instance (b : Block) (k : Nat) (name : Name) : Decidable (b.Matches k name) :=
  inferInstanceAs (Decidable (_ ∧ _))

/-- The name of entry `k`, filled up with zeros. -/
def Block.putName (b : Block) (k : Nat) (name : Name) : Block :=
  b.put (16 * k + 2) ((List.range NAME_LEN).map fun j => name.getD j 0)

-- ======== state

/-- A mounted device with the links and references of its inodes. -/
structure Dev where
  vol : Vol
  ninodes : Nat
  imap : Nat → Option (Nat → Bool)
  nlinks : Nat → Nat
  count : Nat → Nat

/-- Where the routines below panic. -/
inductive Crash where
  | vol (p : Panic)
  | freeFreeInode
  | freeInodeLinks
  | freeInodeNumber
  | freeInodeMap
  | newInodeBitSet
  | noRootInode
  | noCwdInode
  | freeFreeBuffer
  deriving Repr, DecidableEq

variable (d : Dev)

def Dev.setVol (v : Vol) : Dev := { d with vol := v }

/-- A routine on the zones is called. -/
def onVol {α : Type} : Except Panic α → Except Crash α
  | .ok a => .ok a
  | .error p => .error (.vol p)

/-- `inode->i_nlinks = n`, in 8 bits. -/
def Dev.setLinks (ino n : Nat) : Dev :=
  { d with nlinks := Function.update d.nlinks ino (n % 256) }

def Dev.setCount (ino n : Nat) : Dev :=
  { d with count := Function.update d.count ino n }

def Vol.setInode (v : Vol) (ino : Nat) (i : Inode) : Vol :=
  { v with inode := Function.update v.inode ino i }

def Dev.setInode (ino : Nat) (i : Inode) : Dev :=
  d.setVol (d.vol.setInode ino i)

/-- Bit `n` of the inode map. -/
def Dev.inodeBit (n : Nat) : Bool :=
  match d.imap (n / 8192) with
  | none => false
  | some bits => bits (n % 8192)

def Dev.setInodeBit (n : Nat) (b : Bool) : Dev :=
  { d with imap := fun i =>
    if i = n / 8192 then
      (d.imap i).map fun bits => fun j => if j = n % 8192 then b else bits j
    else d.imap i }

/-- What `memset` leaves of an inode: a mode that is neither of a file nor
of a directory, and no zones. -/
def Inode.blank : Inode := ⟨.other, 0, fun _ => 0⟩

/-- A task that calls: the inodes of its root and working directory, and
what it may do. -/
structure Caller where
  root : Nat
  pwd : Nat
  suser : Bool
  /-- The permission bits allow the access. -/
  may : Nat → Nat → Bool
  /-- The sticky bit of the directory forbids to remove the inode. -/
  sticky : Nat → Nat → Bool

variable (c : Caller)

/-- `permission(inode,mask)`. -/
def permission (ino mask : Nat) : Bool :=
  if d.nlinks ino = 0 then false else c.may ino mask

-- ======== inodes in core

/-- `iget(dev,nr)`. -/
def iget (ino : Nat) : Dev := d.setCount ino (d.count ino + 1)

/-- `free_inode(inode)`, with one reference. A bit that is clear already is
only reported. -/
def freeInode (ino : Nat) : Except Crash Dev :=
  if d.nlinks ino ≠ 0 then .error .freeInodeLinks
  else if ino < 1 ∨ d.ninodes < ino then .error .freeInodeNumber
  else if (d.imap (ino / 8192)).isNone then .error .freeInodeMap
  else .ok (((d.setInodeBit ino false).setCount ino 0).setInode ino .blank)

/-- `iput(inode)`. To write the inode back changes nothing here. -/
def iput (ino : Nat) : Except Crash Dev :=
  if d.count ino = 0 then .error .freeFreeInode
  else if 1 < d.count ino then .ok (d.setCount ino (d.count ino - 1))
  else if d.nlinks ino = 0 then do
    let v ← onVol (truncate ino d.vol)
    freeInode (d.setVol v) ino
  else .ok (d.setCount ino (d.count ino - 1))

/-- What `new_inode` makes of a free inode. -/
def Dev.fresh (n : Nat) : Dev :=
  (((d.setInodeBit n true).setInode n .blank).setCount n 1).setLinks n 1

/-- `new_inode(dev)`: the number, or `none` when there is none. -/
def newInode : Except Crash (Option Nat × Dev) :=
  match scanZmap d.imap 8 0 with
  | none => .ok (none, d)
  | some (i, j) =>
    if d.ninodes < j + i * 8192 then .ok (none, d)
    else if d.inodeBit (j + i * 8192) then .error .newInodeBitSet
    else .ok (some (j + i * 8192), d.fresh (j + i * 8192))

-- ======== entries of a directory

/-- The block with entry `i`: the first is taken from the inode, the others
from `bmap`. -/
def entryBlock (dir i : Nat) : Except Crash Nat :=
  if i < dirEntriesPerBlock then .ok ((d.vol.inode dir).zone 0)
  else do
    let (z, _) ← onVol (bmap dir (i / dirEntriesPerBlock) d.vol)
    .ok z

/-- The loop of `find_entry`: `n` entries from `i` on. Where there is no
block, none of its entries matches. -/
def findLoop (dir : Nat) (name : Name) : Nat → Nat → Except Crash (Option Nat)
  | 0, _ => .ok none
  | n + 1, i => do
    let z ← entryBlock d dir i
    if z ≠ 0 ∧ (d.vol.data z).Matches (i % dirEntriesPerBlock) name then
      .ok (some i)
    else findLoop dir name n (i + 1)

/-- The name `find_entry` looks for: cut, and `..` in the task's root is
`.`. -/
def lookedUp (dir : Nat) (name : Name) : Name :=
  if name.take NAME_LEN = [46, 46] ∧ dir = c.root then [46]
  else name.take NAME_LEN

/-- `find_entry(dir,name)`: the index of the entry. -/
def findEntry (dir : Nat) (name : Name) : Except Crash (Option Nat) :=
  if name = [] then .ok none
  else if (d.vol.inode dir).zone 0 = 0 then .ok none
  else findLoop d dir (lookedUp c dir name) ((d.vol.inode dir).size / 16) 0

/-- The inode number of the entry that was found. -/
def entryInode (dir i : Nat) : Except Crash Nat := do
  let z ← entryBlock d dir i
  .ok ((d.vol.data z).inodeNr (i % dirEntriesPerBlock))

/-- Where the directory ends, the entry is made and the size grows. -/
def extendDir (dir z i : Nat) (v : Vol) : Vol :=
  if (v.inode dir).size ≤ 16 * i then
    (v.setData z ((v.data z).setInodeNr (i % dirEntriesPerBlock) 0)).setInode
      dir { v.inode dir with size := 16 * (i + 1) }
  else v

/-- The block of entry `i` for `add_entry`, which has been in block `z`:
where a new block begins, it is made. -/
def nextBlock (dir z i : Nat) (v : Vol) : Except Panic (Nat × Vol) :=
  if i ≠ 0 ∧ i % dirEntriesPerBlock = 0 then
    createBlock dir (i / dirEntriesPerBlock) v
  else .ok (z, v)

/-- The loop of `add_entry` from entry `i` on. The size ends it: `n` is
enough for that. The result is the block and the index of the entry, named
but still free. -/
def addLoop (dir : Nat) (name : Name) :
    Nat → Nat → Nat → Vol → Except Panic (Option (Nat × Nat) × Vol)
  | 0, _, _, v => .ok (none, v)
  | n + 1, z, i, v => do
    let (z, v) ← nextBlock dir z i v
    if z = 0 then .ok (none, v)
    else
      let v := extendDir dir z i v
      let k := i % dirEntriesPerBlock
      if (v.data z).inodeNr k = 0 then
        .ok (some (z, i), v.setData z ((v.data z).putName k name))
      else addLoop dir name n z (i + 1) v

/-- `add_entry(dir,name)`. -/
def addEntry (dir : Nat) (name : Name) (v : Vol) : Except Panic (Option (Nat × Nat) × Vol) :=
  if name = [] then .ok (none, v)
  else if (v.inode dir).zone 0 = 0 then .ok (none, v)
  else addLoop dir (name.take NAME_LEN) ((v.inode dir).size / 16 + 2) ((v.inode dir).zone 0) 0 v

/-- `de->inode = n`, for entry `i` in block `z`. -/
def Vol.setDirEntry (v : Vol) (z i n : Nat) : Vol :=
  v.setData z ((v.data z).setInodeNr (i % dirEntriesPerBlock) n)

-- ======== pathnames

/-- The loop of `get_dir` over the components of a pathname, from the
directory `ino` on. The last component is not looked up. -/
def walk : List Name → Nat → Dev → Except Crash (Option (Nat × Name) × Dev)
  | [], _, d => .ok (none, d)
  | name :: rest, ino, d =>
    if (d.vol.inode ino).mode ≠ .dir ∨ permission d c ino MAY_EXEC = false
    then do
      let d ← iput d ino
      .ok (none, d)
    else if rest = [] then .ok (some (ino, name), d)
    else do
      match ← findEntry d c ino name with
      | none => do
        let d ← iput d ino
        .ok (none, d)
      | some i => do
        let inr ← entryInode d ino i
        let d ← iput d ino
        walk rest inr (iget d inr)

/-- `dir_namei(pathname)`: the directory, and the name in it. -/
def dirNamei (pathname : Name) : Except Crash (Option (Nat × Name) × Dev) :=
  if d.count c.root = 0 then .error .noRootInode
  else if d.count c.pwd = 0 then .error .noCwdInode
  else
    match pathname with
    | [] => .ok (none, d)
    | 47 :: rest => walk c (rest.splitOn 47) c.root (iget d c.root)
    | _ => walk c (pathname.splitOn 47) c.pwd (iget d c.pwd)

/-- `namei(pathname)`. -/
def namei (pathname : Name) : Except Crash (Option Nat × Dev) := do
  match ← dirNamei d c pathname with
  | (none, d) => .ok (none, d)
  | (some (dir, name), d) =>
    if name = [] then .ok (some dir, d)
    else
      match ← findEntry d c dir name with
      | none => do
        let d ← iput d dir
        .ok (none, d)
      | some i => do
        let inr ← entryInode d dir i
        let d ← iput d dir
        .ok (some inr, iget d inr)

-- ======== system calls

/-- The start that `sys_mknod`, `sys_mkdir`, `sys_rmdir` and `sys_unlink`
share: the directory, which may be written to, the name and its entry; or
an error, with nothing held. -/
def parent (pathname : Name) : Except Crash (Except Int (Nat × Name × Option Nat) × Dev) := do
  match ← dirNamei d c pathname with
  | (none, d) => .ok (.error (-ENOENT), d)
  | (some (dir, name), d) =>
    if name = [] then do
      let d ← iput d dir
      .ok (.error (-ENOENT), d)
    else if permission d c dir MAY_WRITE = false then do
      let d ← iput d dir
      .ok (.error (-EPERM), d)
    else do
      let e ← findEntry d c dir name
      .ok (.ok (dir, name, e), d)

/-- An inode and then another are put, and the call returns. -/
def putBoth (a b : Nat) (code : Int) : Except Crash (Int × Dev) := do
  let d ← iput d a
  let d ← iput d b
  .ok (code, d)

/-- Inode `n` is entered in the directory as `name`: whether there was
room for the entry. -/
def enter (dir n : Nat) (name : Name) : Except Crash (Bool × Dev) := do
  match ← onVol (addEntry dir name d.vol) with
  | (none, v) => .ok (false, d.setVol v)
  | (some (z, i), v) => .ok (true, d.setVol (v.setDirEntry z i n))

/-- The inode that `sys_mknod` makes: `dev` is stored for the special files
of devices. -/
def nodInode (mode : Mode) (dev : Option Nat) : Inode :=
  ⟨mode, 0, fun k => if k = 0 ∧ mode = .other then dev.getD 0 % 2 ^ 16 else 0⟩

def sysMknod (pathname : Name) (mode : Mode) (dev : Option Nat) : Except Crash (Int × Dev) :=
  if c.suser = false then .ok (-EPERM, d)
  else do
    match ← parent d c pathname with
    | (.error code, d) => .ok (code, d)
    | (.ok (dir, _, some _), d) => do
      let d ← iput d dir
      .ok (-EEXIST, d)
    | (.ok (dir, name, none), d) => do
      match ← newInode d with
      | (none, d) => do
        let d ← iput d dir
        .ok (-ENOSPC, d)
      | (some n, d) => do
        let d := d.setInode n (nodInode mode dev)
        match ← enter d dir n name with
        | (false, d) => do
          let d ← iput d dir
          let d ← iput (d.setLinks n 0) n
          .ok (-ENOSPC, d)
        | (true, d) => putBoth d dir n 0

/-- The block of a new directory: itself and its parent. -/
def dotBlock (b : Block) (n dir : Nat) : Block :=
  ((((b.setInodeNr 0 n).put 2 [46, 0]).setInodeNr 1 dir).put 18 [46, 46, 0])

/-- The zones once `sys_mkdir` has filled its block `z` and the inode `n`,
before it enters the new directory in `dir`. -/
def mkdirVol (v : Vol) (z n dir : Nat) : Vol :=
  let v := v.setInode n ⟨.other, 32, fun k => if k = 0 then z else 0⟩
  let v := v.setData z (dotBlock (v.data z) n dir)
  v.setInode n { v.inode n with mode := .dir }

/-- `sys_mkdir` from `add_entry` on. -/
def mkdirEnter (dir n z : Nat) (name : Name) : Except Crash (Int × Dev) := do
  match ← enter d dir n name with
  | (false, d) => do
    let d ← iput d dir
    let v ← onVol (freeBlock z d.vol)
    let d ← iput ((d.setVol v).setLinks n 0) n
    .ok (-ENOSPC, d)
  | (true, d) => putBoth (d.setLinks dir (d.nlinks dir + 1)) dir n 0

/-- `sys_mkdir` from its `new_block` on, with the new inode `n`. -/
def mkdirBlock (dir n : Nat) (name : Name) : Except Crash (Int × Dev) := do
  let (block, v) ← onVol (newBlock d.vol)
  let z := block % 2 ^ 16
  if z = 0 then do
    let d := (d.setVol v).setInode n ⟨.other, 32, fun _ => 0⟩
    let d ← iput d dir
    let d ← iput (d.setLinks n (d.nlinks n - 1)) n
    .ok (-ENOSPC, d)
  else mkdirEnter ((d.setLinks n 2).setVol (mkdirVol v z n dir)) dir n z name

/-- `sys_mkdir`, where the directory is found and the name is free. -/
def mkdirIn (dir : Nat) (name : Name) : Except Crash (Int × Dev) := do
  match ← newInode d with
  | (none, d) => do
    let d ← iput d dir
    .ok (-ENOSPC, d)
  | (some n, d) => mkdirBlock d dir n name

def sysMkdir (pathname : Name) : Except Crash (Int × Dev) :=
  if c.suser = false then .ok (-EPERM, d)
  else do
    match ← parent d c pathname with
    | (.error code, d) => .ok (code, d)
    | (.ok (dir, _, some _), d) => do
      let d ← iput d dir
      .ok (-EEXIST, d)
    | (.ok (dir, name, none), d) => mkdirIn d dir name

/-- The loop of `empty_dir`: `n` entries from `i` on are free. Where there
is no block, the one before it is released twice. -/
def emptyLoop (dir : Nat) : Nat → Nat → Except Crash Bool
  | 0, _ => .ok true
  | n + 1, i => do
    let z ← entryBlock d dir i
    if z = 0 then .error .freeFreeBuffer
    else if (d.vol.data z).inodeNr (i % dirEntriesPerBlock) ≠ 0 then
      .ok false
    else emptyLoop dir n (i + 1)

/-- `empty_dir(inode)`. -/
def emptyDir (ino : Nat) : Except Crash Bool :=
  let z := (d.vol.inode ino).zone 0
  let b := d.vol.data z
  let len := (d.vol.inode ino).size / 16
  if len < 2 ∨ z = 0 then .ok false
  else if b.inodeNr 0 ≠ ino ∨ b.inodeNr 1 = 0 ∨ ¬ (b.nameByte 0 0 = 46 ∧ b.nameByte 0 1 = 0) ∨
      ¬ (b.nameByte 1 0 = 46 ∧ b.nameByte 1 1 = 46 ∧ b.nameByte 1 2 = 0)
    then .ok false
  else emptyLoop d ino (len - 2) 2

/-- `sys_rmdir`, where the entry is found. -/
def rmdirAt (dir i : Nat) : Except Crash (Int × Dev) := do
  let z ← entryBlock d dir i
  let ino := (d.vol.data z).inodeNr (i % dirEntriesPerBlock)
  let d := iget d ino
  if c.sticky dir ino = true then putBoth d dir ino (-EPERM)
  else if 1 < d.count ino then putBoth d dir ino (-EPERM)
  else if ino = dir then putBoth d ino dir (-EPERM)
  else if (d.vol.inode ino).mode ≠ .dir then putBoth d ino dir (-ENOTDIR)
  else do
    let empty ← emptyDir d ino
    if empty = false then putBoth d ino dir (-ENOTEMPTY)
    else
      let d := (d.setVol (d.vol.setDirEntry z i 0)).setLinks ino 0
      putBoth (d.setLinks dir (d.nlinks dir + 255)) dir ino 0

def sysRmdir (pathname : Name) : Except Crash (Int × Dev) :=
  if c.suser = false then .ok (-EPERM, d)
  else do
    match ← parent d c pathname with
    | (.error code, d) => .ok (code, d)
    | (.ok (dir, _, none), d) => do
      let d ← iput d dir
      .ok (-ENOENT, d)
    | (.ok (dir, _, some i), d) => rmdirAt d c dir i

/-- `sys_unlink`, where the entry is found. -/
def unlinkAt (dir i : Nat) : Except Crash (Int × Dev) := do
  let z ← entryBlock d dir i
  let ino := (d.vol.data z).inodeNr (i % dirEntriesPerBlock)
  let d := iget d ino
  if c.sticky dir ino = true then putBoth d dir ino (-EPERM)
  else if (d.vol.inode ino).mode = .dir then putBoth d ino dir (-EPERM)
  else
    let d := if d.nlinks ino = 0 then d.setLinks ino 1 else d
    let d := d.setVol (d.vol.setDirEntry z i 0)
    putBoth (d.setLinks ino (d.nlinks ino - 1)) ino dir 0

def sysUnlink (pathname : Name) : Except Crash (Int × Dev) := do
  match ← parent d c pathname with
  | (.error code, d) => .ok (code, d)
  | (.ok (dir, _, none), d) => do
    let d ← iput d dir
    .ok (-ENOENT, d)
  | (.ok (dir, _, some i), d) => unlinkAt d c dir i

/-- `sys_link`, where the old inode is found and is no directory, and the
new name's directory is found. -/
def linkIn (old dir : Nat) (name : Name) : Except Crash (Int × Dev) :=
  if name = [] then putBoth d old dir (-EPERM)
  else if permission d c dir MAY_WRITE = false then
    putBoth d dir old (-EACCES)
  else do
    match ← findEntry d c dir name with
    | some _ => putBoth d dir old (-EEXIST)
    | none => do
      match ← enter d dir old name with
      | (false, d) => putBoth d dir old (-ENOSPC)
      | (true, d) => do
        let d ← iput d dir
        let d ← iput (d.setLinks old (d.nlinks old + 1)) old
        .ok (0, d)

def sysLink (oldname newname : Name) : Except Crash (Int × Dev) := do
  match ← namei d c oldname with
  | (none, d) => .ok (-ENOENT, d)
  | (some old, d) =>
    if (d.vol.inode old).mode = .dir then do
      let d ← iput d old
      .ok (-EPERM, d)
    else
      match ← dirNamei d c newname with
      | (none, d) => do
        let d ← iput d old
        .ok (-EACCES, d)
      | (some (dir, name), d) => linkIn d c old dir name

/-- The flags of `open_namei`; `accmode` is `flag & O_ACCMODE`. -/
structure OpenFlags where
  accmode : Nat
  creat : Bool
  excl : Bool
  trunc : Bool
  deriving DecidableEq

/-- `O_TRUNC` implies `O_WRONLY`. -/
def OpenFlags.access (f : OpenFlags) : Nat :=
  if f.trunc = true ∧ f.accmode = 0 then 1 else f.accmode

/-- `ACC_MODE`. -/
def accMode (accmode : Nat) : Nat := [4, 2, 6, 255].getD accmode 0

/-- `open_namei`, where the name is not found. -/
def openNew (dir : Nat) (name : Name) (flags : OpenFlags) : Except Crash (Except Int Nat × Dev) :=
  if flags.creat = false then do
    let d ← iput d dir
    .ok (.error (-ENOENT), d)
  else if permission d c dir MAY_WRITE = false then do
    let d ← iput d dir
    .ok (.error (-EACCES), d)
  else do
    match ← newInode d with
    | (none, d) => do
      let d ← iput d dir
      .ok (.error (-ENOSPC), d)
    | (some n, d) => do
      let d := d.setInode n ⟨.reg, 0, fun _ => 0⟩
      match ← enter d dir n name with
      | (false, d) => do
        let d ← iput (d.setLinks n (d.nlinks n - 1)) n
        let d ← iput d dir
        .ok (.error (-ENOSPC), d)
      | (true, d) => do
        let d ← iput d dir
        .ok (.ok n, d)

/-- `open_namei`, where the name is found. -/
def openOld (dir i : Nat) (flags : OpenFlags) : Except Crash (Except Int Nat × Dev) := do
  let inr ← entryInode d dir i
  let d ← iput d dir
  if flags.excl then .ok (.error (-EEXIST), d)
  else
    let d := iget d inr
    if ((d.vol.inode inr).mode = .dir ∧ flags.access ≠ 0) ∨
        permission d c inr (accMode flags.access) = false then do
      let d ← iput d inr
      .ok (.error (-EPERM), d)
    else if flags.trunc then do
      let v ← onVol (truncate inr d.vol)
      .ok (.ok inr, d.setVol v)
    else .ok (.ok inr, d)

/-- `open_namei`: the inode, to which the file holds the reference. -/
def openNamei (pathname : Name) (flags : OpenFlags) : Except Crash (Except Int Nat × Dev) := do
  match ← dirNamei d c pathname with
  | (none, d) => .ok (.error (-ENOENT), d)
  | (some (dir, name), d) =>
    if name = [] then
      if flags.access = 0 ∧ flags.creat = false ∧ flags.trunc = false then
        .ok (.ok dir, d)
      else do
        let d ← iput d dir
        .ok (.error (-EISDIR), d)
    else
      match ← findEntry d c dir name with
      | none => openNew d c dir name flags
      | some i => openOld d c dir i flags

end LearnLinux.Fs
