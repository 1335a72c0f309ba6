/-
The in-core inodes (`fs/inode.c`): `iget` and `iput`, with what they call.

A task runs without interruption up to the next place where it may sleep:
`wait_on_inode`, `lock_inode`, and `bread` in `read_inode` and
`write_inode`. Where it stands is its `Pc`, and a step of the model takes
it from one such place to the next. `bread` is always a place to stop, as
the block may have to be read. A task may also stop where one of the
loops goes round again (`do ... while` of `get_empty_inode`, `repeat:` of
`iput`, the restart of `iget` behind a mount point); that adds runs and
takes none away.

`iput` of a block special file calls `sync_dev`, which writes every dirty
inode. Other than by these calls, the fields of an inode that are not in
the way of `iget` and `iput` may change at any time (`Op.change`), and so
may the table of the super blocks.

There are no pipes among the inodes, since `iget` makes none. Of the
contents of an inode only the link count and the type are kept.
-/
import LearnLinux.Lib.Refs
import LearnLinux.Lib.Run

namespace LearnLinux.InodeTable

open Function (update)

abbrev NR_INODE : Nat := 32

abbrev NR_SUPER : Nat := 8

instance : NeZero NR_INODE := ⟨by decide⟩

instance : NeZero NR_SUPER := ⟨by decide⟩

def ROOT_INO : UInt16 := 1

/-- A slot of `inode_table`. -/
abbrev Slot := Fin NR_INODE

/-- `struct m_inode`. -/
structure MInode where
  /-- `S_ISBLK(i_mode)`. -/
  isBlk : Bool
  nlinks : UInt8
  dev : UInt16
  num : UInt16
  count : UInt16
  lock : Bool
  dirt : Bool
  mount : Bool
  deriving DecidableEq

/-- `memset(inode,0,sizeof(*inode))`. -/
def MInode.zero : MInode := ⟨false, 0, 0, 0, 0, false, false, false⟩

/-- Where `iput` goes when it is done. -/
inductive After where
  /-- It was a call of its own. -/
  | ret
  /-- `iget` has put its empty inode, and returns this one. -/
  | found (inode : Slot)
  /-- `iget` has put a mounted inode, and goes on behind the mount. -/
  | cross (empty : Slot) (sb : Fin NR_SUPER)
  deriving DecidableEq

/-- What `write_inode` was called for. -/
inductive Writer where
  | empty (dev nr : UInt16)
  | put (k : After)
  /-- The loop of `sync_inodes`, to go on at `next`, in an `iput`. -/
  | sync (inode : Slot) (k : After) (next : Nat)
  deriving DecidableEq

/-- Where a task stands. -/
inductive Pc where
  | user
  /-- In `get_empty_inode`, in `wait_on_inode`. -/
  | emptyWait (dev nr : UInt16) (inode : Slot)
  /-- In `get_empty_inode`, to search again. -/
  | emptyAgain (dev nr : UInt16)
  /-- In `iget`, in `wait_on_inode` for an inode that matches. -/
  | scanWait (dev nr : UInt16) (empty inode : Slot)
  /-- In `iget`, to search again behind a mount point. -/
  | cross (empty : Slot) (sb : Fin NR_SUPER)
  | readLock (inode : Slot)
  /-- In `read_inode`, in `bread`. -/
  | reading (inode : Slot)
  /-- In `iput`, in the first `wait_on_inode`. -/
  | putWait (inode : Slot) (k : After)
  /-- In `iput`, in one of the `wait_on_inode` before `repeat:`. -/
  | putRepeat (inode : Slot) (k : After)
  /-- In `iput`, in `sync_dev`. -/
  | sync (inode : Slot) (k : After) (next : Nat)
  /-- In `iput`, in `truncate`. -/
  | truncating (inode : Slot) (k : After)
  | writeLock (inode : Slot) (w : Writer)
  /-- In `write_inode`, in `bread`. -/
  | writing (inode : Slot) (w : Writer)
  deriving DecidableEq

/-- The tables and the tasks. Two things are written down besides: the
references that `iget` has returned and nobody has put, and the inodes
that `get_empty_inode` has handed out, as it found them. -/
structure System (τ : Type) where
  inode : Slot → MInode
  lastInode : Slot
  sDev : Fin NR_SUPER → UInt16
  sImount : Fin NR_SUPER → Option Slot
  pc : τ → Pc
  held : Slot → Nat
  handed : List MInode

variable {τ : Type} [DecidableEq τ]

-- ======== the parts

def go (s : System τ) (t : τ) (p : Pc) : System τ :=
  { s with pc := update s.pc t p }

def setInode (s : System τ) (j : Slot) (m : MInode) : System τ :=
  { s with inode := update s.inode j m }

/-- `inode->i_count++`. -/
def incr (s : System τ) (j : Slot) : System τ :=
  setInode s j { s.inode j with count := (s.inode j).count + 1 }

/-- `inode->i_count--`. -/
def decr (s : System τ) (j : Slot) : System τ :=
  setInode s j { s.inode j with count := (s.inode j).count - 1 }

/-- The caller has the reference. -/
def hold (s : System τ) (j : Slot) : System τ :=
  { s with held := update s.held j (s.held j + 1) }

/-- `get_super`. -/
def getSuper (s : System τ) (dev : UInt16) : Option (Fin NR_SUPER) :=
  if dev = 0 then none
  else (List.finRange NR_SUPER).find? fun i => s.sDev i = dev

/-- The super block that is mounted on the inode. -/
def mountedOn (s : System τ) (inode : Slot) : Option (Fin NR_SUPER) :=
  (List.finRange NR_SUPER).find? fun i => s.sImount i = some inode

/-- `iput` is done. -/
def after (s : System τ) (t : τ) : After → System τ
  | .ret => go s t .user
  | .found i => hold (go s t .user) i
  | .cross e sb => go s t (.cross e sb)

-- ======== write_inode

/-- `write_inode` is done. -/
def written (s : System τ) (t : τ) (j : Slot) : Writer → System τ
  | .empty dev nr => go s t (.emptyWait dev nr j)
  | .put k => go s t (.putRepeat j k)
  | .sync i k next => go s t (.sync i k next)

/-- `write_inode`, with the inode free to be locked. -/
def writeLocked (s : System τ) (t : τ) (j : Slot) (w : Writer) : Option (System τ) :=
  if (s.inode j).dirt = false ∨ (s.inode j).dev = 0 then
    some (written s t j w)
  else
    -- without a super block it panics
    (getSuper s (s.inode j).dev).map fun _ =>
      go (setInode s j { s.inode j with lock := true }) t (.writing j w)

def writeInode (s : System τ) (t : τ) (j : Slot) (w : Writer) : Option (System τ) :=
  if (s.inode j).lock then some (go s t (.writeLock j w))
  else writeLocked s t j w

-- ======== iput

/-- `iput` from `repeat:` on. -/
def putRepeat (s : System τ) (t : τ) (j : Slot) (k : After) : Option (System τ) :=
  if 1 < (s.inode j).count then some (after (decr s j) t k)
  else if (s.inode j).nlinks = 0 then some (go s t (.truncating j k))
  else if (s.inode j).dirt then writeInode s t j (.put k)
  else some (after (decr s j) t k)

/-- `iput` behind its first `wait_on_inode`. To put an inode without
references is a panic. -/
def putBody (s : System τ) (t : τ) (j : Slot) (k : After) : Option (System τ) :=
  if (s.inode j).count = 0 then none
  else if (s.inode j).dev = 0 then some (after (decr s j) t k)
  else if (s.inode j).isBlk then some (go s t (.sync j k 0))
  else putRepeat s t j k

def iput (s : System τ) (t : τ) (j : Slot) (k : After) : Option (System τ) :=
  if (s.inode j).lock then some (go s t (.putWait j k))
  else putBody s t j k

/-- `free_inode`, behind `truncate` in `iput`. -/
def freeInode (s : System τ) (t : τ) (j : Slot) (k : After) : Option (System τ) :=
  if (s.inode j).dev = 0 then some (after (setInode s j .zero) t k)
  else if 1 < (s.inode j).count then none
  else if (s.inode j).nlinks ≠ 0 then none
  else if (s.inode j).num = 0 then none
  else
    (getSuper s (s.inode j).dev).map fun _ =>
      after (setInode s j .zero) t k

/-- The loop of `sync_inodes` at the inode `next`, in `iput`. -/
def syncInodes (s : System τ) (t : τ) (j : Slot) (k : After) (next : Nat) : Option (System τ) :=
  if h : next < NR_INODE then
    if (s.inode ⟨next, h⟩).lock then none
    else if (s.inode ⟨next, h⟩).dirt then
      writeInode s t ⟨next, h⟩ (.sync j k (next + 1))
    else some (go s t (.sync j k (next + 1)))
  else some (go s t (.putRepeat j k))

-- ======== iget

/-- `read_inode`, with the inode free to be locked. -/
def readLocked (s : System τ) (t : τ) (e : Slot) : Option (System τ) :=
  (getSuper s (s.inode e).dev).map fun _ =>
    go (setInode s e { s.inode e with lock := true }) t (.reading e)

def readInode (s : System τ) (t : τ) (e : Slot) : Option (System τ) :=
  if (s.inode e).lock then some (go s t (.readLock e))
  else readLocked s t e

/-- The end of `read_inode`, and of `iget`: the inode on the disk has this
type and this number of links. -/
def readDone (s : System τ) (t : τ) (e : Slot) (isBlk : Bool) (nlinks : UInt8) : System τ :=
  hold (go (setInode s e { s.inode e with
    isBlk := isBlk, nlinks := nlinks, lock := false }) t .user) e

/-- `iget` at an inode that matches and is not locked. -/
def foundInode (s : System τ) (t : τ) (e i : Slot) : Option (System τ) :=
  if (s.inode i).mount then
    match mountedOn s i with
    | none => iput (incr s i) t e (.found i)
    | some sb => iput (incr s i) t i (.cross e sb)
  else iput (incr s i) t e (.found i)

/-- The first inode that matches. -/
def lookup (s : System τ) (dev nr : UInt16) : Option Slot :=
  (List.finRange NR_INODE).find? fun i =>
    (s.inode i).dev = dev ∧ (s.inode i).num = nr

/-- The loop of `iget` from the start of the table, with the inode `e`
reserved. -/
def scan (s : System τ) (t : τ) (dev nr : UInt16) (e : Slot) : Option (System τ) :=
  match lookup s dev nr with
  | some i =>
    if (s.inode i).lock then some (go s t (.scanWait dev nr e i))
    else foundInode s t e i
  | none =>
    readInode (setInode s e { s.inode e with dev := dev, num := nr }) t e

/-- The search of `get_empty_inode`, with `i` inodes to go. -/
def search (f : Slot → MInode) : Nat → Slot → Option Slot → Slot × Option Slot
  | 0, last, inode => (last, inode)
  | i + 1, last, inode =>
    let last := last + 1
    if (f last).count = 0 then
      if (f last).dirt = false ∧ (f last).lock = false then
        (last, some last)
      else search f i last (some last)
    else search f i last inode

/-- The end of `get_empty_inode`. -/
def handOut (s : System τ) (j : Slot) : System τ :=
  { setInode s j { MInode.zero with count := 1 } with
    handed := s.handed ++ [s.inode j] }

/-- `get_empty_inode` behind `wait_on_inode`. -/
def emptyBody (s : System τ) (t : τ) (dev nr : UInt16) (j : Slot) : Option (System τ) :=
  if (s.inode j).dirt then writeInode s t j (.empty dev nr)
  else if (s.inode j).count ≠ 0 then some (go s t (.emptyAgain dev nr))
  else scan (handOut s j) t dev nr j

/-- `get_empty_inode`. With no free inode it panics. -/
def getEmpty (s : System τ) (t : τ) (dev nr : UInt16) : Option (System τ) :=
  let (last, inode) := search s.inode NR_INODE s.lastInode none
  inode.bind fun j =>
    let s := { s with lastInode := last }
    if (s.inode j).lock then some (go s t (.emptyWait dev nr j))
    else emptyBody s t dev nr j

/-- `iget`. -/
def iget (s : System τ) (t : τ) (dev nr : UInt16) : Option (System τ) :=
  if dev = 0 then none else getEmpty s t dev nr

-- ======== steps

/-- A sleeping task goes on; at a locked inode it cannot. The type and the
link count are those that `read_inode` finds, if it is in there. -/
def resume (s : System τ) (t : τ) (isBlk : Bool) (nlinks : UInt8) : Option (System τ) :=
  match s.pc t with
  | .user => none
  | .emptyWait dev nr j =>
    if (s.inode j).lock then none else emptyBody s t dev nr j
  | .emptyAgain dev nr => getEmpty s t dev nr
  | .scanWait dev nr e i =>
    if (s.inode i).lock then none
    else if (s.inode i).dev = dev ∧ (s.inode i).num = nr then
      foundInode s t e i
    else scan s t dev nr e
  | .cross e sb => scan s t (s.sDev sb) ROOT_INO e
  | .readLock e => if (s.inode e).lock then none else readLocked s t e
  | .reading e => some (readDone s t e isBlk nlinks)
  | .putWait j k => if (s.inode j).lock then none else putBody s t j k
  | .putRepeat j k => if (s.inode j).lock then none else putRepeat s t j k
  | .sync j k next => syncInodes s t j k next
  | .truncating j k => freeInode s t j k
  | .writeLock j w => if (s.inode j).lock then none else writeLocked s t j w
  | .writing j w =>
    some (written (setInode s j { s.inode j with dirt := false, lock := false }) t j w)

inductive Op (τ : Type) where
  | iget (t : τ) (dev nr : UInt16)
  | iput (t : τ) (inode : Slot)
  /-- A holder of the inode makes a second reference, as `fork` does. -/
  | dup (inode : Slot)
  | resume (t : τ) (isBlk : Bool) (nlinks : UInt8)
  /-- The rest of the kernel changes an inode. -/
  | change (inode : Slot) (isBlk : Bool) (nlinks : UInt8) (mount : Bool)
  | setDirty (inode : Slot)
  /-- The super block of a device is mounted, or is no longer. -/
  | setSuper (sb : Fin NR_SUPER) (dev : UInt16) (imount : Option Slot)

def step : Op τ → System τ → Option (System τ)
  | .iget t dev nr, s => if s.pc t = .user then iget s t dev nr else none
  | .iput t j, s =>
    if s.pc t = .user ∧ 0 < s.held j then
      iput { s with held := update s.held j (s.held j - 1) } t j .ret
    else none
  | .dup j, s => if 0 < s.held j then some (hold (incr s j) j) else none
  | .resume t isBlk nlinks, s => resume s t isBlk nlinks
  | .change j isBlk nlinks mount, s =>
    some (setInode s j { s.inode j with isBlk := isBlk, nlinks := nlinks, mount := mount })
  | .setDirty j, s => some (setInode s j { s.inode j with dirt := true })
  | .setSuper sb dev imount, s =>
    if dev = 0 then none
    else some { s with
      sDev := update s.sDev sb dev
      sImount := update s.sImount sb imount }

/-- The state at boot. -/
def System.boot (τ : Type) : System τ where
  inode := fun _ => .zero
  lastInode := 0
  sDev := fun _ => 0
  sImount := fun _ => none
  pc := fun _ => .user
  held := fun _ => 0
  handed := []

-- ======== references

/-- One reference, to the inode `j`. -/
def one (j i : Slot) : Nat := if i = j then 1 else 0

/-- The references that a task in `iput` has besides the one it puts. -/
def After.refs : After → Slot → Nat
  | .ret => fun _ => 0
  | .found i => one i
  | .cross e _ => one e

/-- The references of a task in `write_inode`. -/
def Writer.refs (j : Slot) : Writer → Slot → Nat
  | .empty _ _ => fun _ => 0
  | .put k => one j + k.refs
  | .sync i k _ => one i + k.refs

/-- The references of a task. -/
def Pc.refs : Pc → Slot → Nat
  | .user | .emptyWait _ _ _ | .emptyAgain _ _ => fun _ => 0
  | .scanWait _ _ e _ | .cross e _ | .readLock e | .reading e => one e
  | .putWait j k | .putRepeat j k | .sync j k _ | .truncating j k =>
    one j + k.refs
  | .writeLock j w | .writing j w => w.refs j

/-- The outstanding references to an inode. -/
def references [Fintype τ] (s : System τ) (j : Slot) : Nat :=
  s.held j + ∑ t, (s.pc t).refs j

end LearnLinux.InodeTable
