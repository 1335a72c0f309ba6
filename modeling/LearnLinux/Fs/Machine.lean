/-
One task in the file system of the kernel: the buffer cache, the table of
the inodes in core and the table of the super blocks together, with the
routines that take and give back references to buffers and inodes
(`fs/buffer.c`, `fs/bitmap.c`, `fs/truncate.c`, `fs/inode.c`).

# What a state holds

The heads and lists of the buffer cache are those of `Buffer.Cache`. Of an
inode in core, `DInode` is what it has in common with the inode on the
disk, and `MInode` what is "in memory also". Of a super block, `Super` is
what was read from the disk, with the buffers of its maps, and `Mnt` is
what `mount` and `umount` work with. Times are left out: nothing here
reads one.

No other task runs. A task that would have to wait for another one (a
locked inode, a locked super block, no free buffer) does not return
(`sleeps`). It does wait for the disk: a transfer is over when it is
waited for, and whether it succeeded is the next answer of `io`. A block
that cannot be read is one whose transfers fail.

`getblk` writes back what is in its way, which may call `getblk` again.
The routines count down how often that, or a `goto repeat`, may still
happen (`fuel`); whatever returns, returns with some number.

A NULL pointer that is followed, or an array index out of range, ends the
run (`wild`).

`trace` is no variable of the kernel. It records the places that the
proofs ask about: where a message is printed, where a count starts again
from 0, and where a buffer is left without `brelse` or released once more.
-/
import LearnLinux.Lib.Wp
import LearnLinux.Fs.Buffer
import LearnLinux.Fs.InodeTable
import LearnLinux.Fs.Namei

namespace LearnLinux.Kernel

open Function (update)
open LearnLinux.Lib
open LearnLinux.InodeTable (Slot NR_INODE NR_SUPER ROOT_INO)
open LearnLinux.Fs (Block)

-- ======== state

/-- `struct d_inode`, as far as an inode in core has it. -/
structure DInode where
  mode : UInt16
  uid : UInt16
  size : UInt32
  gid : UInt8
  nlinks : UInt8
  zone : Nat → UInt16

/-- What an inode has in memory only; its lock is in `Machine`. -/
structure MInode where
  dev : UInt16
  num : UInt16
  count : UInt16
  dirt : Bool
  pipe : Bool
  mount : Bool
  deriving DecidableEq

/-- `memset(inode,0,sizeof(*inode))`. -/
def DInode.zero : DInode := ⟨0, 0, 0, 0, 0, fun _ => 0⟩

namespace MInode

variable (m : MInode)

def setCount (count : UInt16) : MInode := { m with count := count }

def setDirt (dirt : Bool) : MInode := { m with dirt := dirt }

def setName (dev num : UInt16) : MInode := { m with dev := dev, num := num }

/-- A pipe that nobody has open any more. -/
def unpipe : MInode := { m with count := 0, dirt := false, pipe := false }

/-- An inode that has nothing but a count. -/
def blank (count : UInt16) : MInode := ⟨0, 0, count, false, false, false⟩

end MInode

/-- `struct d_super_block`, and the buffers of the maps. -/
structure Super (n : Nat) where
  ninodes : UInt16
  nzones : UInt16
  imapBlocks : UInt16
  zmapBlocks : UInt16
  firstdatazone : UInt16
  magic : UInt16
  imap : Nat → Option (Fin n)
  zmap : Nat → Option (Fin n)

/-- The device of a super block and the two inodes it refers to. -/
structure Mnt where
  dev : UInt16
  isup : Option Slot
  imount : Option Slot
  deriving DecidableEq

namespace Mnt

variable (m : Mnt)

end Mnt

/-- What `trace` records. -/
inductive Note (n : Nat) where
  /-- `free_block` found the buffer in use, and returns. -/
  | busy (b : Fin n)
  /-- `empty_dir` returns as the directory is bad, with its first block. -/
  | badDirectory (b : Fin n)
  /-- `empty_dir` goes on behind a hole, with a block it has released. -/
  | hole (b : Fin n)
  /-- `i_count++` of 65535. -/
  | wrapped (j : Slot)
  /-- `Mounted inode hasn't got sb`. -/
  | noSb (j : Slot)
  deriving DecidableEq

inductive Panic where
  | cache (p : Buffer.Panic)
  | freeBlockDevice
  | notInDatazone
  | freeBlockBit
  | newBlockDevice
  | newBlockBit
  | newBlockCount
  | freeInodeCount
  | freeInodeLinks
  | freeInodeDevice
  | freeInodeNumber
  | freeInodeMap
  | newInodeDevice
  | newInodeBit
  | bmapBig
  | iputFree
  | noFreeInodes
  | igetDev
  | readInodeDev
  | writeInodeDev
  | inodeBlock
  | noRootInode
  | noCwdInode
  | mountRoot
  deriving DecidableEq

/-- Why a call does not return. -/
inductive Halt where
  | panic (p : Panic)
  | sleeps
  | wild
  | fuel
  /-- `iget` has met more mount points than it was given. -/
  | restarts
  deriving DecidableEq

/-- What is read of the current task, apart from its directories. -/
structure Task where
  euid : UInt16
  egid : UInt16
  umask : UInt16
  deriving DecidableEq

structure Machine (n : Nat) where
  cache : Buffer.Cache n
  data : Fin n → Block
  disk : UInt16 → UInt32 → Block
  /-- The device has a driver. -/
  driver : UInt16 → Bool
  /-- Whether the transfers succeed, one after the other. -/
  io : Nat → Bool
  ticks : Nat
  dinode : Slot → DInode
  ino : Slot → MInode
  lock : Slot → Bool
  lastInode : Slot
  super : Fin NR_SUPER → Super n
  mnt : Fin NR_SUPER → Mnt
  slock : Fin NR_SUPER → Bool
  rootDev : UInt16
  /-- `current->root` and `current->pwd`. -/
  root : Option Slot
  pwd : Option Slot
  task : Task
  trace : List (Note n)

/-- A routine of the kernel. -/
abbrev K (n : Nat) (α : Type) := Prog Halt (Machine n) α

variable {n : Nat}

-- ======== small changes

namespace Machine

variable (s : Machine n)

def head (b : Fin n) : Buffer.Head := s.cache.head b

def setHead (b : Fin n) (f : Buffer.Head → Buffer.Head) : Machine n :=
  { s with cache := s.cache.setHead b f }

def setData (b : Fin n) (d : Block) : Machine n :=
  { s with data := update s.data b d }

def setDInode (j : Slot) (f : DInode → DInode) : Machine n :=
  { s with dinode := update s.dinode j (f (s.dinode j)) }

def setIno (j : Slot) (m : MInode) : Machine n :=
  { s with ino := update s.ino j m }

def setLock (j : Slot) (l : Bool) : Machine n :=
  { s with lock := update s.lock j l }

def note (x : Note n) : Machine n := { s with trace := x :: s.trace }

/-- `inode->i_count++`, in 16 bits. -/
def take (j : Slot) : Machine n :=
  let s' := s.setIno j ((s.ino j).setCount ((s.ino j).count + 1))
  if (s.ino j).count = 65535 then s'.note (.wrapped j) else s'

/-- `inode->i_count--`. -/
def drop (j : Slot) : Machine n :=
  s.setIno j ((s.ino j).setCount ((s.ino j).count - 1))

/-- `inode->i_dirt = d`. -/
def setDirt (j : Slot) (d : Bool) : Machine n :=
  s.setIno j ((s.ino j).setDirt d)

/-- `memset(inode,0,sizeof(*inode))`, and then the count. -/
def wipe (j : Slot) (count : UInt16) : Machine n :=
  ((s.setDInode j fun _ => .zero).setIno j (.blank count)).setLock j false

def setZone (j : Slot) (k : Nat) (z : UInt16) : Machine n :=
  s.setDInode j fun d => { d with zone := update d.zone k z }

end Machine

-- ======== buffer.c

/-- `wait_on_buffer`: the transfer that holds the buffer comes to its
end. -/
def waitOnBuffer (b : Fin n) : K n Unit := do
  let s ← get
  if (s.head b).lock then
    set { s.setHead b (fun h =>
      { h with lock := false, uptodate := s.io s.ticks }) with
      ticks := s.ticks + 1 }
  else pure ()

/-- A transfer of the buffer. -/
def Machine.transfer (s : Machine n) (write : Bool) (b : Fin n) : Machine n :=
  let ok := s.io s.ticks
  let at_ := s.disk (s.head b).dev (s.head b).blocknr
  { s.setHead b (fun h => { h with dirt := false, uptodate := ok }) with
    ticks := s.ticks + 1
    data := if ok && !write then update s.data b at_ else s.data
    disk := if ok && write then
        update s.disk (s.head b).dev
          (update (s.disk (s.head b).dev) (s.head b).blocknr (s.data b))
      else s.disk }

/-- `ll_rw_block`. Without a driver, nothing is done. -/
def llRwBlock (write : Bool) (b : Fin n) : K n Unit := do
  let s ← get
  if s.driver (s.head b).dev then do
    waitOnBuffer b
    let s ← get
    if (if write then (s.head b).dirt else !(s.head b).uptodate) then
      set (s.transfer write b)
    else pure ()
  else pure ()

/-- `find_buffer`, on the lists. -/
def findBuffer (dev : UInt16) (block : UInt32) : K n (Option (Fin n)) := do
  let s ← get
  match Buffer.findBuffer s.cache dev block with
  | .ok r => pure r
  | .error p => throw (.panic (.cache p))

/-- `get_hash_table`. The buffer is still that of the block when it has
been waited for. -/
def getHashTable (dev : UInt16) (block : UInt32) : K n (Option (Fin n)) := do
  match ← findBuffer dev block with
  | none => pure none
  | some b => do
    modify fun s => { s with cache := s.cache.inc b }
    waitOnBuffer b
    pure (some b)

/-- The `do` loop of `getblk` over the free list. -/
def scan : K n (Option (Fin n)) := do
  let s ← get
  match Buffer.scan s.cache with
  | .ok r => pure r
  | .error p => throw (.panic (.cache p))

/-- The end of `getblk`. -/
def recycle (dev : UInt16) (block : UInt32) (b : Fin n) : K n Unit := do
  let s ← get
  match Buffer.recycle s.cache dev block b with
  | .ok c => set { s with cache := c }
  | .error p => throw (.panic (.cache p))

/-- `brelse`. -/
def brelse : Option (Fin n) → K n Unit
  | none => pure ()
  | some b => do
    waitOnBuffer b
    let s ← get
    if (s.head b).count = 0 then throw (.panic (.cache .freeFree))
    else set { s with cache := s.cache.dec b }

/-- The loop of `sync_dev` over the buffers. -/
def syncBuffers (dev : UInt16) : K n Unit :=
  (List.finRange n).forM fun b => do
    let s ← get
    if (s.head b).dev = dev then do
      waitOnBuffer b
      let s ← get
      if (s.head b).dirt then llRwBlock true b else pure ()
    else pure ()

/-- `bread`, with the `getblk` it calls. -/
def breadBy (getblk : UInt16 → UInt32 → K n (Fin n)) (dev : UInt16)
    (block : UInt32) : K n (Option (Fin n)) := do
  let b ← getblk dev block
  let s ← get
  if (s.head b).uptodate then pure (some b)
  else do
    llRwBlock false b
    waitOnBuffer b
    let s ← get
    if (s.head b).uptodate then pure (some b)
    else do
      brelse (some b)
      pure none

-- ======== get_super, write_inode

/-- The super block of a device. -/
def superOf (mnt : Fin NR_SUPER → Mnt) (dev : UInt16) : Option (Fin NR_SUPER) :=
  if dev = 0 then none
  else (List.finRange NR_SUPER).find? fun i => (mnt i).dev = dev

/-- `get_super`. -/
def getSuper (dev : UInt16) : K n (Option (Fin NR_SUPER)) := do
  let s ← get
  match superOf s.mnt dev with
  | none => pure none
  | some i => if s.slock i then throw .sleeps else pure (some i)

/-- `wait_on_inode`. -/
def waitOnInode (j : Slot) : K n Unit := do
  let s ← get
  if s.lock j then throw .sleeps else pure ()

/-- `lock_inode`. -/
def lockInode (j : Slot) : K n Unit := do
  waitOnInode j
  modify fun s => s.setLock j true

/-- `unlock_inode`. -/
def unlockInode (j : Slot) : K n Unit :=
  modify fun s => s.setLock j false

/-- Inode `k` of a block of inodes. -/
def getDInode (b : Block) (k : Nat) : DInode where
  mode := UInt16.ofNat (b.entry (16 * k))
  uid := UInt16.ofNat (b.entry (16 * k + 1))
  size := UInt32.ofNat (b.entry (16 * k + 2) + 65536 * b.entry (16 * k + 3))
  gid := b (32 * k + 12)
  nlinks := b (32 * k + 13)
  zone l := if l < 9 then UInt16.ofNat (b.entry (16 * k + 7 + l)) else 0

/-- The inode is stored; its time is left as it is. -/
def putDInode (b : Block) (k : Nat) (d : DInode) : Block := fun p =>
  let b := b.setEntry (16 * k) d.mode.toNat
  let b := b.setEntry (16 * k + 1) d.uid.toNat
  let b := b.setEntry (16 * k + 2) (d.size.toNat % 65536)
  let b := b.setEntry (16 * k + 3) (d.size.toNat / 65536)
  let b := (List.range 9).foldl (fun b l => b.setEntry (16 * k + 7 + l) (d.zone l).toNat) b
  if p = 32 * k + 12 then d.gid
  else if p = 32 * k + 13 then d.nlinks
  else b p

/-- The block that holds an inode, by its number. -/
def Super.inodeBlock (sb : Super n) (num : UInt16) : UInt32 :=
  2 + sb.imapBlocks.toUInt32 + sb.zmapBlocks.toUInt32 + (num.toUInt32 - 1) / 32

/-- Its place there. -/
def inodeIndex (num : UInt16) : Nat := ((num.toUInt32 - 1) % 32).toNat

/-- `write_inode`, with the `bread` it calls. -/
def writeInode (bread : UInt16 → UInt32 → K n (Option (Fin n))) (j : Slot) : K n Unit := do
  lockInode j
  let s ← get
  let m := s.ino j
  if m.dirt = false ∨ m.dev = 0 then unlockInode j
  else do
    match ← getSuper m.dev with
    | none => throw (.panic .writeInodeDev)
    | some i => do
      match ← bread m.dev ((s.super i).inodeBlock m.num) with
      | none => throw (.panic .inodeBlock)
      | some b => do
        modify fun s => s.setData b (putDInode (s.data b) (inodeIndex m.num) (s.dinode j))
        modify fun s => s.setHead b fun h => { h with dirt := true }
        modify fun s => s.setDirt j false
        brelse (some b)
        unlockInode j

/-- `sync_inodes`. -/
def syncInodes (bread : UInt16 → UInt32 → K n (Option (Fin n))) : K n Unit :=
  (List.finRange NR_INODE).forM fun j => do
    waitOnInode j
    let s ← get
    if (s.ino j).dirt && !(s.ino j).pipe then writeInode bread j
    else pure ()

/-- `sync_dev`. -/
def syncDevBy (bread : UInt16 → UInt32 → K n (Option (Fin n))) (dev : UInt16) : K n Unit := do
  syncBuffers dev
  syncInodes bread
  syncBuffers dev

/-- `while (bh->b_dirt)` of `getblk`; false is `goto repeat`. -/
def cleaned (sync : UInt16 → K n Unit) (b : Fin n) : Nat → K n Bool
  | 0 => throw .fuel
  | f + 1 => do
    let s ← get
    if (s.head b).dirt then do
      sync (s.head b).dev
      waitOnBuffer b
      let s ← get
      if (s.head b).count = 0 then cleaned sync b f else pure false
    else pure true

/-- `getblk`. -/
def getblk : Nat → UInt16 → UInt32 → K n (Fin n)
  | 0, _, _ => throw .fuel
  | f + 1, dev, block => do
    match ← getHashTable dev block with
    | some b => pure b
    | none => do
      match ← scan with
      | none => throw .sleeps
      | some b => do
        waitOnBuffer b
        let s ← get
        if (s.head b).count = 0 then do
          match ← cleaned (syncDevBy (breadBy (getblk f))) b f with
          | false => getblk f dev block
          | true => do
            match ← findBuffer dev block with
            | some _ => getblk f dev block
            | none => do
              recycle dev block b
              pure b
        else getblk f dev block

variable (fuel : Nat)

def bread (dev : UInt16) (block : UInt32) : K n (Option (Fin n)) :=
  breadBy (getblk fuel) dev block

def syncDev (dev : UInt16) : K n Unit := syncDevBy (bread fuel) dev

-- ======== bitmap.c

/-- Bit `t` of a block. -/
def bitOf (b : Block) (t : Nat) : Bool := (b (t / 8)).toNat.testBit (t % 8)

/-- `set_bit` and `clear_bit`. -/
def putBit (b : Block) (t : Nat) (v : Bool) : Block := fun p =>
  if p = t / 8 then
    if v then b p ||| (1 <<< UInt8.ofNat (t % 8))
    else b p &&& ~~~ (1 <<< UInt8.ofNat (t % 8))
  else b p

/-- A bit of a map is changed, in its buffer. -/
def markBit (b : Fin n) (t : Nat) (v : Bool) : K n Unit := do
  modify fun s => s.setData b (putBit (s.data b) t v)
  modify fun s => s.setHead b fun h => { h with dirt := true }

/-- The end of `free_block`: the bit of the zone. -/
def clearZone (i : Fin NR_SUPER) (t : Nat) : K n Unit := do
  let s ← get
  match (s.super i).zmap (t / 8192) with
  | none => throw .wild
  | some b =>
    if bitOf (s.data b) (t % 8192) then markBit b (t % 8192) false
    else throw (.panic .freeBlockBit)

/-- `free_block`. When someone else has the buffer it returns with the
reference that `get_hash_table` took. -/
def freeBlock (dev : UInt16) (block : Int) : K n Unit := do
  match ← getSuper dev with
  | none => throw (.panic .freeBlockDevice)
  | some i => do
    let s ← get
    let first := (s.super i).firstdatazone.toNat
    if block < first ∨ (s.super i).nzones.toNat ≤ block then
      throw (.panic .notInDatazone)
    else do
      match ← getHashTable dev (UInt32.ofInt block) with
      | none => clearZone i (block.toNat + 1 - first)
      | some b => do
        let s ← get
        if (s.head b).count = 1 then do
          modify fun s => s.setHead b fun h =>
            { h with dirt := false, uptodate := false }
          brelse (some b)
          clearZone i (block.toNat + 1 - first)
        else modify fun s => s.note (.busy b)

/-- The loops of `new_block` and `new_inode` over the map blocks. -/
def Machine.freeBit (s : Machine n) (map : Nat → Option (Fin n)) : Option (Nat × Nat) :=
  Fs.scanZmap (fun i => (map i).map fun b => bitOf (s.data b)) 8 0

/-- `new_block`, 0 when there is no block. The check for a block number
that is too large comes when the bit is set already. -/
def newBlock (dev : UInt16) : K n Int := do
  match ← getSuper dev with
  | none => throw (.panic .newBlockDevice)
  | some i => do
    let s ← get
    match s.freeBit (s.super i).zmap with
    | none => pure 0
    | some (k, j) =>
      match (s.super i).zmap k with
      | none => pure 0
      | some m =>
        if bitOf (s.data m) j then throw (.panic .newBlockBit)
        else do
          markBit m j true
          let z : Int := j + k * 8192 + (s.super i).firstdatazone.toNat - 1
          if ((s.super i).nzones.toNat : Int) ≤ z then pure 0
          else do
            let b ← getblk fuel dev (UInt32.ofInt z)
            let s ← get
            if (s.head b).count = 1 then do
              modify fun s => s.setData b Block.zero
              modify fun s => s.setHead b fun h =>
                { h with uptodate := true, dirt := true }
              brelse (some b)
              pure z
            else throw (.panic .newBlockCount)

/-- `free_inode`. -/
def freeInode (j : Slot) : K n Unit := do
  let s ← get
  let m := s.ino j
  if m.dev = 0 then set (s.wipe j 0)
  else if 1 < m.count then throw (.panic .freeInodeCount)
  else if (s.dinode j).nlinks ≠ 0 then throw (.panic .freeInodeLinks)
  else do
    match ← getSuper m.dev with
    | none => throw (.panic .freeInodeDevice)
    | some i =>
      if m.num < 1 ∨ (s.super i).ninodes < m.num then
        throw (.panic .freeInodeNumber)
      else
        match (s.super i).imap (m.num.toNat / 8192) with
        | none => throw (.panic .freeInodeMap)
        | some b => do
          -- a bit that is clear already is only reported
          markBit b (m.num.toNat % 8192) false
          modify fun s => s.wipe j 0

-- ======== inode.c, _bmap

/-- `i_zone[k]`, allocated when it is asked for and not there. -/
def zoneOrNew (create : Bool) (j : Slot) (k : Nat) : K n UInt16 := do
  let s ← get
  if create && (s.dinode j).zone k = 0 then do
    let z ← newBlock fuel (s.ino j).dev
    modify fun s => s.setZone j k (UInt16.ofInt z)
    if UInt16.ofInt z = 0 then pure 0
    else do
      modify fun s => s.setDirt j true
      pure (UInt16.ofInt z)
  else pure ((s.dinode j).zone k)

/-- Entry `e` of block `block`, allocated when it is asked for and not
there. -/
def entryOrNew (create : Bool) (dev : UInt16) (block : UInt32) (e : Nat) : K n Int := do
  match ← bread fuel dev block with
  | none => pure 0
  | some b => do
    let s ← get
    if create && (s.data b).entry e = 0 then do
      let i ← newBlock fuel dev
      if i = 0 then do
        brelse (some b)
        pure 0
      else do
        modify fun s => s.setData b ((s.data b).setEntry e (UInt16.ofInt i).toNat)
        modify fun s => s.setHead b fun h => { h with dirt := true }
        brelse (some b)
        pure i
    else do
      brelse (some b)
      pure ((s.data b).entry e)

/-- `_bmap`. -/
def innerBmap (create : Bool) (j : Slot) (block : Nat) : K n Int :=
  if Fs.maxBlocks ≤ block then throw (.panic .bmapBig)
  else if block < 7 then do
    let z ← zoneOrNew fuel create j block
    pure z.toNat
  else if block - 7 < 512 then do
    let z ← zoneOrNew fuel create j 7
    if z = 0 then pure 0
    else do
      let s ← get
      entryOrNew fuel create (s.ino j).dev z.toUInt32 (block - 7)
  else do
    let z ← zoneOrNew fuel create j 8
    if z = 0 then pure 0
    else do
      let s ← get
      let i ← entryOrNew fuel create (s.ino j).dev z.toUInt32 ((block - 7 - 512) / 512)
      if i = 0 then pure 0
      else do
        let s ← get
        entryOrNew fuel create (s.ino j).dev (UInt32.ofInt i) ((block - 7 - 512) % 512)

def bmap (j : Slot) (block : Nat) : K n Int := innerBmap fuel false j block

def createBlock (j : Slot) (block : Nat) : K n Int :=
  innerBmap fuel true j block

-- ======== truncate.c

def S_IFMT : UInt16 := 0o170000

def S_ISREG (m : UInt16) : Bool := m &&& S_IFMT = 0o100000

def S_ISBLK (m : UInt16) : Bool := m &&& S_IFMT = 0o060000

def S_ISDIR (m : UInt16) : Bool := m &&& S_IFMT = 0o040000

def S_ISCHR (m : UInt16) : Bool := m &&& S_IFMT = 0o020000

/-- The loop over the 512 entries of a block: `f` of each that is not 0. An
entry is read when its turn comes. -/
def freeEntries (f : Int → K n Unit) (b : Fin n) : K n Unit :=
  forUp (fun i => do
    let s ← get
    if (s.data b).entry i = 0 then pure () else f ((s.data b).entry i)) 512 0

/-- `free_ind` and `free_dind`: the entries of the block, each with `f`,
and then the block. -/
def freeTree (f : Int → K n Unit) (dev : UInt16) (block : Int) : K n Unit :=
  if block = 0 then pure ()
  else do
    match ← bread fuel dev (UInt32.ofInt block) with
    | none => freeBlock dev block
    | some b => do
      freeEntries f b
      brelse (some b)
      freeBlock dev block

def freeInd (dev : UInt16) (block : Int) : K n Unit :=
  freeTree fuel (freeBlock dev) dev block

def freeDind (dev : UInt16) (block : Int) : K n Unit :=
  freeTree fuel (freeInd fuel dev) dev block

/-- The loop of `truncate` over `i_zone[0..6]`. -/
def freeDirect (j : Slot) : K n Unit :=
  forUp (fun i => do
    let s ← get
    if (s.dinode j).zone i = 0 then pure ()
    else do
      freeBlock (s.ino j).dev ((s.dinode j).zone i).toNat
      modify fun s => s.setZone j i 0) 7 0

def truncate (j : Slot) : K n Unit := do
  let s ← get
  if S_ISREG (s.dinode j).mode || S_ISDIR (s.dinode j).mode then do
    freeDirect j
    let s ← get
    freeInd fuel (s.ino j).dev ((s.dinode j).zone 7).toNat
    let s ← get
    freeDind fuel (s.ino j).dev ((s.dinode j).zone 8).toNat
    modify fun s => (s.setZone j 7 0).setZone j 8 0
    modify fun s => s.setDInode j fun d => { d with size := 0 }
    modify fun s => s.setDirt j true
  else pure ()

-- ======== inode.c, the rest

/-- `iput` from `repeat:`. -/
def iputRepeat (j : Slot) : Nat → K n Unit
  | 0 => throw .fuel
  | f + 1 => do
    let s ← get
    if 1 < (s.ino j).count then set (s.drop j)
    else if (s.dinode j).nlinks = 0 then do
      truncate fuel j
      freeInode j
    else if (s.ino j).dirt then do
      writeInode (bread fuel) j
      waitOnInode j
      iputRepeat j f
    else set (s.drop j)

/-- `iput`. The page of a pipe, which is freed here too, is left out. -/
def iput : Option Slot → K n Unit
  | none => pure ()
  | some j => do
    waitOnInode j
    let s ← get
    let m := s.ino j
    if m.count = 0 then throw (.panic .iputFree)
    else if m.pipe then
      if 1 < m.count then set (s.drop j)
      else set (s.setIno j m.unpipe)
    else if m.dev = 0 then set (s.drop j)
    else if S_ISBLK (s.dinode j).mode then do
      syncDev fuel ((s.dinode j).zone 0)
      waitOnInode j
      iputRepeat fuel j fuel
    else iputRepeat fuel j fuel

/-- The `for` loop of `get_empty_inode`: `k` slots behind `last`, with the
last free one so far. -/
def searchEmpty (free good : Slot → Bool) : Nat → Slot → Option Slot → Slot × Option Slot
  | 0, last, found => (last, found)
  | k + 1, last, found =>
    if free (last + 1) then
      if good (last + 1) then (last + 1, some (last + 1))
      else searchEmpty free good k (last + 1) (some (last + 1))
    else searchEmpty free good k (last + 1) found

/-- What the loop makes of the table. -/
def Machine.emptySlot (s : Machine n) : Slot × Option Slot :=
  searchEmpty (fun j => (s.ino j).count = 0)
    (fun j => !(s.ino j).dirt && !s.lock j) NR_INODE s.lastInode none

/-- `while (inode->i_dirt)` of `get_empty_inode`. -/
def writeOut (j : Slot) : Nat → K n Unit
  | 0 => throw .fuel
  | f + 1 => do
    let s ← get
    if (s.ino j).dirt then do
      writeInode (bread fuel) j
      waitOnInode j
      writeOut j f
    else pure ()

/-- `get_empty_inode`, with the rounds of its `do ... while`. -/
def emptyInode : Nat → K n Slot
  | 0 => throw .fuel
  | f + 1 => do
    let s ← get
    set { s with lastInode := s.emptySlot.1 }
    match s.emptySlot.2 with
    | none => throw (.panic .noFreeInodes)
    | some j => do
      waitOnInode j
      writeOut fuel j fuel
      let s ← get
      if (s.ino j).count = 0 then do
        set (s.wipe j 1)
        pure j
      else emptyInode f

def getEmptyInode : K n Slot := emptyInode fuel fuel

/-- `read_inode`. -/
def readInode (j : Slot) : K n Unit := do
  lockInode j
  let s ← get
  let m := s.ino j
  match ← getSuper m.dev with
  | none => throw (.panic .readInodeDev)
  | some i => do
    match ← bread fuel m.dev ((s.super i).inodeBlock m.num) with
    | none => throw (.panic .inodeBlock)
    | some b => do
      modify fun s => s.setDInode j fun _ =>
        getDInode (s.data b) (inodeIndex m.num)
      brelse (some b)
      unlockInode j

/-- The inode `dev`, `nr` in the table. -/
def Machine.lookup (s : Machine n) (dev nr : UInt16) : Option Slot :=
  (List.finRange NR_INODE).find? fun j =>
    (s.ino j).dev = dev && (s.ino j).num = nr

/-- The super block that is mounted on the inode. -/
def Machine.mountedOn (s : Machine n) (j : Slot) : Option (Fin NR_SUPER) :=
  (List.finRange NR_SUPER).find? fun i => (s.mnt i).imount = some j

/-- The loop of `iget`, with `restarts` mount points ahead of it at
most. -/
def igetScan (empty : Slot) : Nat → UInt16 → UInt16 → K n Slot
  | restarts, dev, nr => do
    let s ← get
    match s.lookup dev nr with
    | none => do
      set (s.setIno empty ((s.ino empty).setName dev nr))
      readInode fuel empty
      pure empty
    | some j => do
      waitOnInode j
      modify fun s => s.take j
      if (s.ino j).mount then
        match s.mountedOn j with
        | none => do
          modify fun s => s.note (.noSb j)
          iput fuel (some empty)
          pure j
        | some i =>
          match restarts with
          | 0 => throw .restarts
          | restarts + 1 => do
            iput fuel (some j)
            let s ← get
            igetScan empty restarts (s.mnt i).dev ROOT_INO
      else do
        iput fuel (some empty)
        pure j

/-- `iget`. -/
def iget (dev nr : UInt16) : K n Slot :=
  if dev = 0 then throw (.panic .igetDev)
  else do
    let empty ← getEmptyInode fuel
    igetScan fuel empty (fuel + 1) dev nr

/-- `new_inode`. -/
def newInode (dev : UInt16) : K n (Option Slot) := do
  let j ← getEmptyInode fuel
  match ← getSuper dev with
  | none => throw (.panic .newInodeDevice)
  | some i => do
    let s ← get
    match s.freeBit (s.super i).imap with
    | none => do
      iput fuel (some j)
      pure none
    | some (k, t) =>
      if (s.super i).ninodes.toNat < t + k * 8192 then do
        iput fuel (some j)
        pure none
      else
        match (s.super i).imap k with
        | none => throw .wild
        | some b =>
          if bitOf (s.data b) t then throw (.panic .newInodeBit)
          else do
            markBit b t true
            modify fun s => s.setDInode j fun d =>
              { d with
                nlinks := 1
                uid := s.task.euid
                gid := s.task.egid.toUInt8 }
            modify fun s => s.setIno j ((((s.ino j).setCount 1).setName dev
                (UInt16.ofNat (t + k * 8192))).setDirt true)
            pure (some j)

end LearnLinux.Kernel
