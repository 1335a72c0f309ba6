/-
The zones of a mounted file system: the bitmap allocator (fs/bitmap.c,
`free_block` and `new_block`), the block map of an inode (fs/inode.c,
`_bmap`) and its release (fs/truncate.c).

# What a state holds

One mounted device. The zone map is the array `s_zmap` of up to eight
bitmap blocks of 8192 bits; bit 0 of the whole map stands for block
`s_firstdatazone - 1`. The bitmap blocks and the inode table lie below
`s_firstdatazone`, so they are fields of their own here, apart from the
blocks.

A block is seen as `bread` sees it: `data n` is what a task that reads
block `n` gets, from the cache or from the device, and `disk n` is what
the device itself holds. They differ while a write is waiting in the
cache; `free_block` throws such a write away. `held n` is the count of
references that tasks have on the buffer of block `n`, which two of the
routines look at. All reads succeed.

The times and the dirty flag of an inode, which nothing here reads, are
left out.
-/
import LearnLinux.Lib.Fallible

namespace LearnLinux.Fs

open Lib

-- ======== blocks

/-- The bytes of a block of `BLOCK_SIZE`, 1024. -/
abbrev Block := Nat → UInt8

/-- What `clear_block` leaves. -/
def Block.zero : Block := fun _ => 0

/-- Entry `i` of a block of zone numbers, an `unsigned short`. -/
def Block.entry (b : Block) (i : Nat) : Nat :=
  (b (2 * i)).toNat + 256 * (b (2 * i + 1)).toNat

/-- The block with entry `i` set. -/
def Block.setEntry (b : Block) (i v : Nat) : Block := fun n =>
  if n = 2 * i then UInt8.ofNat v
  else if n = 2 * i + 1 then UInt8.ofNat (v / 256)
  else b n

-- ======== state

/-- What `S_ISREG` and `S_ISDIR` tell apart. -/
inductive Mode where
  | reg
  | dir
  | other
  deriving Repr, DecidableEq

/-- The fields of an `m_inode` that the block map and the file routines
read. -/
structure Inode where
  mode : Mode
  size : Nat
  zone : Nat → Nat

/-- A mounted device and its inodes. -/
structure Vol where
  firstdatazone : Nat
  nzones : Nat
  zmap : Nat → Option (Nat → Bool)
  inode : Nat → Inode
  data : Nat → Block
  disk : Nat → Block
  held : Nat → Nat

/-- Where the allocator and the block map panic. -/
inductive Panic where
  | notInDatazone
  | bitCleared
  | bitSet
  | count
  | tooBig
  deriving Repr, DecidableEq

/-- Bit `t` of the zone map: bit `t & 8191` of `s_zmap[t / 8192]`. -/
def Vol.bit (v : Vol) (t : Nat) : Bool :=
  match v.zmap (t / 8192) with
  | none => false
  | some bits => bits (t % 8192)

/-- `set_bit` and `clear_bit`. -/
def Vol.setBit (v : Vol) (t : Nat) (b : Bool) : Vol :=
  { v with zmap := fun i =>
    if i = t / 8192 then
      (v.zmap i).map fun bits => fun j => if j = t % 8192 then b else bits j
    else v.zmap i }

/-- The contents of block `n` are replaced. -/
def Vol.setData (v : Vol) (n : Nat) (b : Block) : Vol :=
  { v with data := fun m => if m = n then b else v.data m }

/-- `i_zone[k] = z`. -/
def Vol.setZone (v : Vol) (ino k z : Nat) : Vol :=
  { v with inode := fun i =>
    if i = ino then
      { v.inode i with zone := fun l =>
        if l = k then z else (v.inode i).zone l }
    else v.inode i }

/-- A reference to the buffer of block `n` is taken. -/
def Vol.hold (v : Vol) (n : Nat) : Vol :=
  { v with held := fun m => if m = n then v.held m + 1 else v.held m }

/-- `brelse`. -/
def Vol.brelse (v : Vol) (n : Nat) : Vol :=
  { v with held := fun m => if m = n then v.held m - 1 else v.held m }

-- ======== bitmap.c

/-- `free_block(dev,block)`. When someone else has the buffer, the
message is printed and the routine returns, with the reference that
`get_hash_table` took. -/
def freeBlock (block : Nat) (v : Vol) : Except Panic Vol :=
  if block < v.firstdatazone ∨ v.nzones ≤ block then .error .notInDatazone
  else if v.held block ≠ 0 then .ok (v.hold block)
  else
    -- not dirty and not up to date: the next read goes to the device
    let v := v.setData block (v.disk block)
    let t := block + 1 - v.firstdatazone
    if v.bit t then .ok (v.setBit t false) else .error .bitCleared

/-- `find_first_zero` from bit `j` on, `n` bits; the end if there is
none. -/
def zeroFrom (bits : Nat → Bool) : Nat → Nat → Nat
  | 0, j => j
  | n + 1, j => if bits j then zeroFrom bits n (j + 1) else j

def findFirstZero (bits : Nat → Bool) : Nat := zeroFrom bits 8192 0

/-- The scan of `new_block`: `n` map blocks from `i` on. -/
def scanZmap (zmap : Nat → Option (Nat → Bool)) : Nat → Nat → Option (Nat × Nat)
  | 0, _ => none
  | n + 1, i =>
    match zmap i with
    | none => scanZmap zmap n (i + 1)
    | some bits =>
      if findFirstZero bits < 8192 then some (i, findFirstZero bits)
      else scanZmap zmap n (i + 1)

/-- `new_block(dev)`: the block, or 0 when there is none. -/
def newBlock (v : Vol) : Except Panic (Nat × Vol) :=
  match scanZmap v.zmap 8 0 with
  | none => .ok (0, v)
  | some (i, j) =>
    if v.bit (j + i * 8192) then .error .bitSet
    else
      let v := v.setBit (j + i * 8192) true
      let z := j + i * 8192 + v.firstdatazone - 1
      if v.nzones ≤ z then .ok (0, v)
      else if v.held z ≠ 0 then .error .count
      else .ok (z, v.setData z Block.zero)

-- ======== inode.c

/-- `i_zone[k]`, allocated when it is asked for and not there. -/
def zoneOrNew (create : Bool) (ino k : Nat) (v : Vol) : Except Panic (Nat × Vol) :=
  if create ∧ (v.inode ino).zone k = 0 then do
    let (z, v) ← newBlock v
    let v := v.setZone ino k (z % 2 ^ 16)
    .ok ((v.inode ino).zone k, v)
  else .ok ((v.inode ino).zone k, v)

/-- Entry `e` of block `t`, allocated when it is asked for and not
there. The buffer of `t` is held meanwhile. -/
def entryOrNew (create : Bool) (t e : Nat) (v : Vol) : Except Panic (Nat × Vol) :=
  if create ∧ (v.data t).entry e = 0 then do
    let (i, v) ← newBlock (v.hold t)
    if i ≠ 0 then
      .ok (i, (v.setData t ((v.data t).setEntry e i)).brelse t)
    else .ok (0, v.brelse t)
  else .ok ((v.data t).entry e, v)

/-- The number of blocks a file can have. -/
def maxBlocks : Nat := 7 + 512 + 512 * 512

/-- `_bmap(inode,block,create)`. -/
def innerBmap (create : Bool) (ino block : Nat) (v : Vol) : Except Panic (Nat × Vol) :=
  if maxBlocks ≤ block then .error .tooBig
  else if block < 7 then zoneOrNew create ino block v
  else if block - 7 < 512 then do
    let (t, v) ← zoneOrNew create ino 7 v
    if t = 0 then .ok (0, v) else entryOrNew create t (block - 7) v
  else do
    let (t, v) ← zoneOrNew create ino 8 v
    if t = 0 then .ok (0, v)
    else do
      let (i, v) ← entryOrNew create t ((block - 7 - 512) / 512) v
      if i = 0 then .ok (0, v)
      else entryOrNew create i ((block - 7 - 512) % 512) v

/-- `bmap(inode,block)`. -/
def bmap (ino block : Nat) (v : Vol) : Except Panic (Nat × Vol) :=
  innerBmap false ino block v

/-- `create_block(inode,block)`. -/
def createBlock (ino block : Nat) (v : Vol) : Except Panic (Nat × Vol) :=
  innerBmap true ino block v

-- ======== truncate.c

/-- The loop over the 512 entries of a block: `f` of each that is not
0. -/
def freeEntries (f : Nat → Vol → Except Panic Vol) (b : Block) (v : Vol) : Except Panic Vol :=
  forLoop 512 (fun i v => if b.entry i ≠ 0 then f (b.entry i) v else .ok v) v

/-- `free_ind(dev,block)` and `free_dind(dev,block)`: the entries of the
block, each with `f`, and then the block. -/
def freeTree (f : Nat → Vol → Except Panic Vol) (block : Nat) (v : Vol) : Except Panic Vol :=
  if block = 0 then .ok v
  else do
    let v ← freeEntries f (v.data block) (v.hold block)
    freeBlock block (v.brelse block)

def freeInd : Nat → Vol → Except Panic Vol := freeTree freeBlock

def freeDind : Nat → Vol → Except Panic Vol := freeTree freeInd

/-- The loop of `truncate` over `i_zone[0..6]`. -/
def freeDirect (ino : Nat) (v : Vol) : Except Panic Vol :=
  forLoop 7 (fun i v =>
    if (v.inode ino).zone i ≠ 0 then do
      let v ← freeBlock ((v.inode ino).zone i) v
      .ok (v.setZone ino i 0)
    else .ok v) v

/-- The last lines of `truncate`: `i_zone[7]` and `i_zone[8]` are
cleared, and the size. -/
def Vol.emptied (v : Vol) (ino : Nat) : Vol :=
  let v := (v.setZone ino 7 0).setZone ino 8 0
  { v with inode := fun i =>
    if i = ino then { v.inode i with size := 0 } else v.inode i }

/-- `truncate(inode)`. -/
def truncate (ino : Nat) (v : Vol) : Except Panic Vol :=
  if (v.inode ino).mode = .other then .ok v
  else do
    let v ← freeDirect ino v
    let v ← freeInd ((v.inode ino).zone 7) v
    let v ← freeDind ((v.inode ino).zone 8) v
    .ok (v.emptied ino)

end LearnLinux.Fs
