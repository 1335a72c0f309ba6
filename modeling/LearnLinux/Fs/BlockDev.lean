/-
Raw reads and writes of a block device through the buffer cache
(fs/block_dev.c, with `breada` of fs/buffer.c and the flags as
kernel/blk_drv/ll_rw_blk.c sets them).

# The cache of one device

A buffer has its bytes and two flags. `getblk` finds the buffer of a
block or gives it one; the bytes of a buffer just given are those of the
block it had before, and it is neither up to date nor dirty. A READ that
is not up to date clears the dirty flag when it is queued
(`add_request`), fills the buffer from the device and leaves it up to
date (`end_request`). A WRITE of a dirty buffer stores it on the device
and leaves it clean and, since `end_request` is the same, up to date.
There are no I/O errors, and a request is finished before anything else
looks at its buffer.

# Runs

A call is its rounds, one per block. Between any two rounds, of the same
call or not, buffers may be written back, and buffers that are clean may
be given to other blocks. A history is a list of both kinds of step.
-/
import LearnLinux.Fs.Files

namespace LearnLinux.Fs

/-- The parts of a `buffer_head` that count here. -/
structure Buf where
  data : Block
  uptodate : Bool
  dirt : Bool

/-- The buffers of one device, by block, and the device. `junk n` is
what the buffer that block `n` is given will hold. -/
structure Cache where
  buf : Nat → Option Buf
  dev : Nat → Block
  junk : Nat → Block

def Cache.setBuf (c : Cache) (n : Nat) (b : Option Buf) : Cache :=
  { c with buf := fun m => if m = n then b else c.buf m }

/-- The buffer of block `n`, or the one it would be given. -/
def Cache.bufOf (c : Cache) (n : Nat) : Buf :=
  (c.buf n).getD ⟨c.junk n, false, false⟩

/-- `getblk(dev,n)`. -/
def getblk (n : Nat) (c : Cache) : Cache := c.setBuf n (some (c.bufOf n))

/-- `ll_rw_block(READ,bh)` for the buffer of block `n`, to its end. -/
def llRead (n : Nat) (c : Cache) : Cache :=
  if (c.bufOf n).uptodate then c
  else c.setBuf n (some ⟨c.dev n, true, false⟩)

/-- One turn of the loop of `breada`: block `next` gets a buffer, and if
it is not up to date the request is made for `first`'s. -/
def readAhead (first next : Nat) (c : Cache) : Cache :=
  let c := getblk next c
  if (c.bufOf next).uptodate then c else llRead first c

/-- `breada(dev,first,first+1,first+2,-1)`. -/
def breada (first : Nat) (c : Cache) : Cache :=
  readAhead first (first + 2) (readAhead first (first + 1) (llRead first (getblk first c)))

-- ======== rounds

/-- What happens to the cache: a round of `block_write` (the bytes `bs`
into block `n` from `off` on), a round of `block_read`, a buffer written
back, a clean buffer given to another block. -/
inductive BlockOp where
  | store (n off : Nat) (bs : List UInt8)
  | fetch (n off chars : Nat)
  | writeBack (n : Nat)
  | evict (n : Nat)
  deriving DecidableEq

/-- The buffer a round of `block_write` stores into: a full block does
not need its old contents. -/
def storeBuf (n : Nat) (bs : List UInt8) (c : Cache) : Cache :=
  if bs.length = blockSize then getblk n c else breada n c

def BlockOp.exec : BlockOp → Cache → Cache
  | .store n off bs, c =>
    let c := storeBuf n bs c
    c.setBuf n (some { c.bufOf n with
      data := (c.bufOf n).data.put off bs, dirt := true })
  | .fetch n _ _, c => breada n c
  | .writeBack n, c =>
    match c.buf n with
    | some b => if b.dirt then
        { c with
          dev := fun m => if m = n then b.data else c.dev m
          buf := fun m => if m = n then some ⟨b.data, true, false⟩
            else c.buf m }
        else c
    | none => c
  | .evict n, c =>
    match c.buf n with
    | some b => if b.dirt then c else c.setBuf n none
    | none => c

/-- The bytes that a step puts into the user's buffer. -/
def BlockOp.put : BlockOp → Cache → List UInt8
  | .fetch n off chars, c =>
    (List.range chars).map fun k => ((breada n c).bufOf n).data (off + k)
  | _, _ => []

/-- The state after a history. -/
def Cache.after (c : Cache) : List BlockOp → Cache
  | [] => c
  | o :: os => (o.exec c).after os

/-- The bytes a history puts into the user's buffer. -/
def bytesPut : List BlockOp → Cache → List UInt8
  | [], _ => []
  | o :: os, c => o.put c ++ bytesPut os (o.exec c)

/-- The loop of `block_write`, `fuel` rounds at most. -/
def writeRounds : Nat → Nat → Nat → List UInt8 → List BlockOp
  | 0, _, _, _ => []
  | fuel + 1, block, offset, buf =>
    if buf = [] then []
    else
      let chars := min (blockSize - offset) buf.length
      .store block offset (buf.take chars) :: writeRounds fuel (block + 1) 0 (buf.drop chars)

/-- The loop of `block_read`, `fuel` rounds at most. -/
def readRounds : Nat → Nat → Nat → Nat → List BlockOp
  | 0, _, _, _ => []
  | fuel + 1, block, offset, count =>
    if count = 0 then []
    else
      let chars := min (blockSize - offset) count
      .fetch block offset chars :: readRounds fuel (block + 1) 0 (count - chars)

/-- `block_write(dev,&pos,buf,|buf|)`. -/
def blockWrite (pos : Nat) (buf : List UInt8) : List BlockOp :=
  writeRounds buf.length (pos / blockSize) (pos % blockSize) buf

/-- `block_read(dev,&pos,..,count)`. -/
def blockRead (pos count : Nat) : List BlockOp :=
  readRounds count (pos / blockSize) (pos % blockSize) count

def BlockOp.isRound : BlockOp → Bool
  | .store _ _ _ => true
  | .fetch _ _ _ => true
  | _ => false

/-- A history of a write of `buf` at `pos` and then a read of as many
bytes there, with anything that the cache does in between. -/
def WriteThenRead (pos : Nat) (buf : List UInt8) (hist : List BlockOp) :
    Prop :=
  hist.filter BlockOp.isRound = blockWrite pos buf ++ blockRead pos buf.length

/-- Why the full block `bs` written to `n` would be read back: its
buffer was up to date when it was stored into, or it was written back
before the read came to it, or the device held these bytes already. -/
def Lasts (c : Cache) (hist : List BlockOp) (n : Nat) (bs : List UInt8) :
    Prop :=
  ∀ A B C, hist = A ++ .store n 0 bs :: (B ++ .fetch n 0 blockSize :: C) →
    ((c.after A).bufOf n).uptodate = true ∨ .writeBack n ∈ B
      ∨ ∀ k, k < blockSize → (c.after A).dev n k = bs.getD k 0

end LearnLinux.Fs
