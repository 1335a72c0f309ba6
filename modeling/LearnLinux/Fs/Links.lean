/-
What the names on a device are: a graph of directory entries that name
inodes, with the inodes' own counts of links.

`Dev.graph` is that graph, read off the blocks of the directories. That
the counts are honest is a property of the graph alone; that an empty
directory can be removed with all its names rests on the directories being
a tree (`Tree`), each with `.` and `..` as its first two entries. `Good`
adds what is needed of the device itself.
-/
import LearnLinux.Lib.LinkGraph
import LearnLinux.Fs.Namei

namespace LearnLinux.Fs

open Lib

-- ======== the graph

/-- The inode number in entry `i` of a directory, 0 in a hole. -/
def Vol.dirSlot (v : Vol) (dir i : Nat) : Nat :=
  Block.inodeNr (v.byteAt (blockPath dir (i / dirEntriesPerBlock))) (i % dirEntriesPerBlock)

/-- How many entries the largest directory has. -/
def maxEntries : Nat := maxBlocks * dirEntriesPerBlock

/-- All the entries there can be: a directory, and an index in it. -/
@[irreducible] def entries : Finset (Nat × Nat) :=
  Finset.range (2 ^ 16) ×ˢ Finset.range maxEntries

variable (d : Dev)

/-- The inode is allocated. -/
def Dev.live (n : Nat) : Bool :=
  decide (1 ≤ n ∧ n ≤ d.ninodes) && d.inodeBit n

/-- The entry is one of an allocated directory, within its size, and in
use. -/
def Dev.Lists (x : Nat × Nat) : Prop :=
  d.live x.1 = true ∧ (d.vol.inode x.1).mode = .dir
    ∧ 16 * (x.2 + 1) ≤ (d.vol.inode x.1).size ∧ d.vol.dirSlot x.1 x.2 ≠ 0

instance (x : Nat × Nat) : Decidable (d.Lists x) :=
  inferInstanceAs (Decidable (_ ∧ _))

/-- The inode that a directory entry names. -/
def Dev.names (x : Nat × Nat) : Option Nat :=
  if d.Lists x then some (d.vol.dirSlot x.1 x.2) else none

def Dev.graph : LinkGraph (Nat × Nat) Nat := ⟨d.live, d.names, d.nlinks⟩

/-- Link counts do not lie: `i_nlinks` of an allocated inode is the number
of directory entries that name it, and what an entry names is allocated. -/
abbrev Dev.Honest : Prop := d.graph.Honest entries

-- ======== the tree

/-- The directories are a tree with inode 1 as its root. The first two
entries are `.` and `..`; an entry after them names a directory only once,
and from there `..` leads back. -/
structure Tree (dir : Nat → Prop) (names : Nat × Nat → Option Nat) : Prop where
  root : names (1, 1) = some 1
  top : ∀ x, 2 ≤ x.2 → names x ≠ some 1
  dots : ∀ x n, names x = some n → names (x.1, 0) = some x.1 ∧ names (x.1, 1) ≠ none
  once : ∀ x y n, dir n → 2 ≤ x.2 → 2 ≤ y.2 → names x = some n → names y = some n → x = y
  parent : ∀ n p, n ≠ 1 → names (n, 1) = some p → ∃ i, 2 ≤ i ∧ names (p, i) = some n

-- ======== sound directories

/-- What the routines on inodes and directories rely on. -/
structure Readable (d : Dev) : Prop where
  sound : Sound d.vol
  first : 0 < d.vol.firstdatazone
  short : d.ninodes < 2 ^ 16
  /-- `read_super` has set bit 0. -/
  zero : d.inodeBit 0 = true
  unused : ∀ n, d.live n = false → (d.vol.inode n).mode = .other ∧ d.count n = 0 ∧ d.nlinks n = 0
  size : ∀ n, d.live n = true → (d.vol.inode n).mode = .dir → (d.vol.inode n).size ≤ 16 * maxEntries
  named : ∀ x n, d.names x = some n → d.live n = true ∧ d.nlinks n ≠ 0

/-- A file system with honest links, as it is between two calls. -/
structure Good (d : Dev) : Prop where
  readable : Readable d
  honest : d.Honest
  tree : Tree (fun n => (d.vol.inode n).mode = .dir) d.names
  byte : ∀ n, d.nlinks n < 256
  aligned : ∀ n, d.live n = true → (d.vol.inode n).mode = .dir → (d.vol.inode n).size % 16 = 0
  listed : ∀ n, d.live n = true → (d.vol.inode n).mode = .dir →
    (d.vol.inode n).zone 0 ≠ 0 → d.names (n, 0) ≠ none
  /-- An inode without a name is in use. -/
  held : ∀ n, d.live n = true → d.nlinks n = 0 → 0 < d.count n

-- ======== runs

/-- The calls that change links, and the drop of a reference, as in
`sys_close`. -/
inductive LinkOp where
  | openNamei (c : Caller) (pathname : Name) (flags : OpenFlags)
  | sysMknod (c : Caller) (pathname : Name) (mode : Mode) (dev : Option Nat)
  | sysMkdir (c : Caller) (pathname : Name)
  | sysRmdir (c : Caller) (pathname : Name)
  | sysUnlink (c : Caller) (pathname : Name)
  | sysLink (c : Caller) (oldname newname : Name)
  | iput (ino : Nat)

def LinkOp.exec : LinkOp → Dev → Except Crash Dev
  | .openNamei c pathname flags, d => do
    let (_, d) ← Fs.openNamei d c pathname flags
    .ok d
  | .sysMknod c pathname mode dev, d => do
    let (_, d) ← Fs.sysMknod d c pathname mode dev
    .ok d
  | .sysMkdir c pathname, d => do
    let (_, d) ← Fs.sysMkdir d c pathname
    .ok d
  | .sysRmdir c pathname, d => do
    let (_, d) ← Fs.sysRmdir d c pathname
    .ok d
  | .sysUnlink c pathname, d => do
    let (_, d) ← Fs.sysUnlink d c pathname
    .ok d
  | .sysLink c oldname newname, d => do
    let (_, d) ← Fs.sysLink d c oldname newname
    .ok d
  | .iput ino, d => Fs.iput d ino

/-- A call that panics has no next state. -/
def LinkOp.step (o : LinkOp) (d : Dev) : Option Dev := (o.exec d).toOption

/-- The byte of the link count holds one more: a link is not made to an
inode, nor a directory in a directory, that has 255 links. -/
def LinkOp.Fits : LinkOp → Dev → Prop
  | .sysLink c oldname newname, d => ∀ n d₁ d₂, namei d c oldname = .ok (some n, d₁) →
      Fs.sysLink d c oldname newname = .ok (0, d₂) → d.nlinks n ≠ 255
  | .sysMkdir c pathname, d => ∀ dir name d₁ d₂,
      parent d c pathname = .ok (.ok (dir, name, none), d₁) →
      Fs.sysMkdir d c pathname = .ok (0, d₂) → d.nlinks dir ≠ 255
  | _, _ => True

-- ======== failed creations

/-- No task holds a buffer. -/
def Vol.Quiet (v : Vol) : Prop := ∀ n, v.held n = 0

/-- The calls that create a file. -/
inductive Creation where
  | openNamei (flags : OpenFlags)
  | sysMknod (mode : Mode) (dev : Option Nat)
  | sysMkdir

/-- What the call returns, with the inode that was opened left out. -/
def Creation.exec (o : Creation) (d : Dev) (c : Caller) (pathname : Name) :
    Except Crash (Int × Dev) :=
  match o with
  | .openNamei flags => do
    match ← Fs.openNamei d c pathname { flags with creat := true } with
    | (.ok _, d) => .ok (0, d)
    | (.error code, d) => .ok (code, d)
  | .sysMknod mode dev => Fs.sysMknod d c pathname mode dev
  | .sysMkdir => Fs.sysMkdir d c pathname

/-- Nothing has been created: the inode map, the directory entries, the
link counts and the references are as before, and a zone that was free and
is marked now hangs on the directory of the pathname. -/
structure Restored (d : Dev) (c : Caller) (pathname : Name) (d' : Dev) : Prop where
  imap : d'.inodeBit = d.inodeBit
  names : d'.names = d.names
  nlinks : d'.nlinks = d.nlinks
  count : d'.count = d.count
  marks : ∀ z, d.vol.Marked z → d'.vol.Marked z
  new : ∀ z, d'.vol.Marked z → d.vol.Marked z ∨
    ∃ dir name d₁ p, dirNamei d c pathname = .ok (some (dir, name), d₁) ∧
      Counts d'.vol p ∧ p.base.1 = dir ∧ d'.vol.zoneAt p = z ∧ z ≠ 0

/-- The call returns, and if it returns an error it has created nothing. -/
def RollsBack (d : Dev) (c : Caller) (pathname : Name) : Except Crash (Int × Dev) → Prop
  | .ok (code, d') => code < 0 → Restored d c pathname d'
  | .error _ => False

/-- `sys_mkdir` gets an inode and a block for the new directory, but then
there is no room for its name. -/
def Creation.Stuck (o : Creation) (d : Dev) (c : Caller) (pathname : Name) :
    Prop :=
  o = .sysMkdir ∧ c.suser = true ∧ ∃ dir name d₁ n d₂ z v w,
    parent d c pathname = .ok (.ok (dir, name, none), d₁) ∧
    newInode d₁ = .ok (some n, d₂) ∧ newBlock d₂.vol = .ok (z, v) ∧ z ≠ 0 ∧
    addEntry dir name (mkdirVol v z n dir) = .ok (none, w)

end LearnLinux.Fs
