/-
Reading and writing files (fs/file_dev.c `file_read` and `file_write`,
and the regular-file branch of `sys_read`).

A round of either loop handles what one block holds of the range. The
counters are those of the source: `pos` is the position, and the user's
buffer is a list of bytes, the part still to be written being the list
that is left. A loop makes at most one round per byte, so the length of
the buffer is enough rounds; the model counts them down.

Positions, sizes and counts are numbers; where `sys_read` compares and
subtracts, it does so modulo `2 ^ 32`, as `unsigned long`.
-/
import LearnLinux.Fs.Consistent

namespace LearnLinux.Fs

open Lib

/-- `BLOCK_SIZE`. -/
def blockSize : Nat := 1024

/-- The fields of a `struct file` that are used here: `O_APPEND` in
`f_flags`, and `f_pos`. -/
structure Filp where
  append : Bool
  pos : Nat
  deriving Repr, DecidableEq

/-- The block with `bs` stored from byte `off` on. -/
def Block.put (b : Block) (off : Nat) (bs : List UInt8) : Block := fun k =>
  if off ≤ k ∧ k < off + bs.length then bs.getD (k - off) 0 else b k

/-- `if (pos > inode->i_size) inode->i_size = pos`. -/
def Vol.growTo (v : Vol) (ino pos : Nat) : Vol :=
  { v with inode := fun i =>
    if i = ino ∧ (v.inode i).size < pos then
      { v.inode i with size := pos }
    else v.inode i }

-- ======== write

/-- The loop of `file_write`: `n` rounds at most. It ends when all is
written, or when `create_block` finds no block. -/
def writeLoop (ino : Nat) : Nat → Nat → List UInt8 → Vol → Except Panic (Nat × Vol)
  | 0, _, _, v => .ok (0, v)
  | n + 1, pos, bs, v =>
    if bs = [] then .ok (0, v)
    else do
      let (block, v) ← createBlock ino (pos / blockSize) v
      if block = 0 then .ok (0, v)
      else do
        let c := min (blockSize - pos % blockSize) bs.length
        let v := v.growTo ino (pos + c)
        let v := v.setData block ((v.data block).put (pos % blockSize) (bs.take c))
        let (i, v) ← writeLoop ino n (pos + c) (bs.drop c) v
        .ok (c + i, v)

/-- Where `file_write` starts. -/
def writePos (ino : Nat) (filp : Filp) (v : Vol) : Nat :=
  if filp.append then (v.inode ino).size else filp.pos

/-- `file_write(inode,filp,buf,count)`: how many bytes were written, and
the file pointer. (The value returned is that number, or -1 for 0.) -/
def fileWrite (ino : Nat) (filp : Filp) (bs : List UInt8) (v : Vol) :
    Except Panic (Nat × Filp × Vol) := do
  let pos := writePos ino filp v
  let (i, v) ← writeLoop ino bs.length pos bs v
  .ok (i, if filp.append then filp else { filp with pos := pos + i }, v)

-- ======== read

/-- The loop of `file_read`: `n` rounds at most, `left` bytes. -/
def readLoop (ino : Nat) (v : Vol) : Nat → Nat → Nat → Except Panic (List UInt8)
  | 0, _, _ => .ok []
  | n + 1, pos, left =>
    if left = 0 then .ok []
    else do
      let (nr, _) ← bmap ino (pos / blockSize) v
      let chars := min (blockSize - pos % blockSize) left
      let bs := (List.range chars).map fun k =>
        if nr = 0 then 0 else v.data nr (pos % blockSize + k)
      let rest ← readLoop ino v n (pos + chars) (left - chars)
      .ok (bs ++ rest)

/-- `file_read(inode,filp,buf,count)`: the bytes put, and the file
pointer. -/
def fileRead (ino : Nat) (filp : Filp) (count : Nat) (v : Vol) :
    Except Panic (List UInt8 × Filp) := do
  let bs ← readLoop ino v count filp.pos count
  .ok (bs, { filp with pos := filp.pos + bs.length })

/-- How `sys_read` cuts the count at the end of the file. A difference
that is negative as an `int` is a count of nothing. -/
def clipCount (count pos size : Nat) : Nat :=
  if size < (count + pos) % 2 ^ 32 then
    if (size + 2 ^ 32 - pos) % 2 ^ 32 < 2 ^ 31 then
      (size + 2 ^ 32 - pos) % 2 ^ 32
    else 0
  else count

/-- `sys_read` of a file, from its inode and file pointer on. -/
def sysRead (ino : Nat) (filp : Filp) (count : Nat) (v : Vol) : Except Panic (List UInt8 × Filp) :=
  let c := clipCount count filp.pos (v.inode ino).size
  if c = 0 then .ok ([], filp) else fileRead ino filp c v

-- ======== files as sparse arrays

/-- The first offset no file has: the limit of `_bmap`, in bytes. -/
def maxSize : Nat := maxBlocks * blockSize

/-- Byte `off` of a file: what `bmap` and the block say, 0 in a hole. -/
def Vol.fileByte (v : Vol) (ino off : Nat) : UInt8 :=
  v.byteAt (blockPath ino (off / blockSize)) (off % blockSize)

/-- No file has a byte other than 0 at or past its end. -/
def ZeroPastEnd (v : Vol) : Prop :=
  ∀ ino off, v.IsFile ino → (v.inode ino).size ≤ off → off < maxSize → v.fileByte ino off = 0

/-- A consistent file system whose sizes are `unsigned long`s. -/
structure FilesOk (v : Vol) : Prop where
  sound : Sound v
  long : ∀ ino, (v.inode ino).size < 2 ^ 32

/-- What a write of `n` of the bytes `bs` at `pos` is to a file system
of sparse arrays. -/
structure WriteSpec (v : Vol) (ino pos n : Nat) (bs : List UInt8) (v' : Vol) : Prop where
  files : ∀ i, v'.IsFile i ↔ v.IsFile i
  le : n ≤ bs.length
  bytes : ∀ i off, v.IsFile i → off < maxSize → v'.fileByte i off
    = if i = ino ∧ pos ≤ off ∧ off < pos + n then bs.getD (off - pos) 0
      else v.fileByte i off
  size : ∀ i, (v'.inode i).size = if i = ino ∧ 0 < n then max (v.inode ino).size (pos + n)
      else (v.inode i).size

-- ======== runs

/-- What happens to the files: writes and reads, and what other tasks do
to the buffers. -/
inductive FileOp where
  | write (ino : Nat) (filp : Filp) (bs : List UInt8)
  | read (ino : Nat) (filp : Filp) (count : Nat)
  | writeBack (n : Nat)
  | setHeld (n c : Nat)

def FileOp.exec : FileOp → Vol → Except Panic Vol
  | .write ino filp bs, v => do
    let (_, _, v) ← fileWrite ino filp bs v
    .ok v
  | .read ino filp count, v => do
    let _ ← sysRead ino filp count v
    .ok v
  | .writeBack n, v => ZoneOp.exec (.writeBack n) v
  | .setHeld n c, v => ZoneOp.exec (.setHeld n c) v

/-- Writes are of regular files, reads of files, and the bytes they
touch lie below the limit; a count is an `int`. -/
def FileOp.ready : FileOp → Vol → Prop
  | .write ino filp bs, v => (v.inode ino).mode = .reg ∧ writePos ino filp v + bs.length ≤ maxSize
  | .read ino filp count, v => v.IsFile ino ∧ count < 2 ^ 31 ∧ filp.pos < maxSize
      ∧ filp.pos + min count ((v.inode ino).size - filp.pos) ≤ maxSize
  | .writeBack _, _ => True
  | .setHeld _ _, _ => True

def FileOp.step (o : FileOp) (v : Vol) : Option Vol := (o.exec v).toOption

-- ======== the file position

/-- `sys_lseek` of a file of `size` bytes: what it returns, and the file
pointer. The sums have 32 bits and a sign. -/
def sysLseek (size : Nat) (filp : Filp) (offset : Int32) (origin : Nat) : Int × Filp :=
  let seek (tmp : Int) : Int × Filp :=
    if tmp < 0 then (-22, filp) else (tmp, { filp with pos := tmp.toNat })
  match origin with
  | 0 => seek offset.toInt
  | 1 => seek (Int.bmod (filp.pos + offset.toInt) (2 ^ 32))
  | 2 => seek (Int.bmod (size + offset.toInt) (2 ^ 32))
  | _ => (-22, filp)

/-- The calls on one open file that use or move its position. -/
inductive SeekOp where
  | lseek (offset : Int32) (origin : Nat)
  | read (count : Int32)
  | write (bs : List UInt8)

/-- A call, as far as `f_pos` and the file system go. The panics of `_bmap`
are one, `tooBig`: a position is a number, so a block below 0 is one that
is too big. -/
def SeekOp.exec (ino : Nat) : SeekOp → Filp × Vol → Except Panic (Filp × Vol)
  | .lseek offset origin, (filp, v) =>
    .ok ((sysLseek (v.inode ino).size filp offset origin).2, v)
  | .read count, (filp, v) => do
    let (_, filp) ← sysRead ino filp count.toInt.toNat v
    .ok (filp, v)
  | .write bs, (filp, v) => do
    let (_, filp, v) ← fileWrite ino filp bs v
    .ok (filp, v)

/-- The bytes a call is to read or write lie below the limit of `_bmap`. -/
def SeekOp.Below (ino : Nat) : SeekOp → Filp × Vol → Prop
  | .lseek .., _ => True
  | .read count, (filp, v) =>
    filp.pos + clipCount count.toInt.toNat filp.pos (v.inode ino).size ≤ maxSize
  | .write bs, (filp, v) => writePos ino filp v + bs.length ≤ maxSize

def SeekOp.step (ino : Nat) (o : SeekOp) (s : Filp × Vol) : Option (Filp × Vol) :=
  (o.exec ino s).toOption

end LearnLinux.Fs
