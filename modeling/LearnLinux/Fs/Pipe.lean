/-
Pipes: `read_pipe` and `write_pipe` of `fs/pipe.c`.

A pipe is an inode with a page for a ring of 4096 bytes. The two indices
stand in 16-bit fields of the inode (`PIPE_HEAD` in `i_zone[0]`,
`PIPE_TAIL` in `i_zone[1]`). A call moves its bytes in chunks: it tests
for something to do, CLAIMS a contiguous stretch of the ring by advancing
its index, and then copies the stretch byte by byte. `round` is the first
part of that, up to the copy loop; `copyOut` and `copyIn` are one byte of
the loop.

Two systems are made of these parts. In `System` a whole chunk is one
step, for any number of readers and writers: the tasks switch only in
`sleep_on`. (A switch between two chunks is also allowed here, which the
kernel does not do.) In `ByteSystem` each byte is a step of its own, for
one reader and one writer, since a copy from or to user memory may fault
and sleep.

A task that sleeps may be woken at any time: each call tests again.
-/
import LearnLinux.Lib.RingLog
import LearnLinux.Lib.Run

namespace LearnLinux.Pipe

open Function (update)

def PAGE_SIZE : Nat := 4096

/-- The inode of a pipe. -/
structure Inode where
  /-- `PIPE_HEAD`. -/
  head : Nat
  /-- `PIPE_TAIL`. -/
  tail : Nat
  /-- The page at `i_size`. -/
  page : Nat → UInt8
  iCount : Nat
  /-- An access was made outside the page. -/
  wild : Bool

variable (p : Inode)

/-- `PIPE_SIZE`. The mask on a difference in two's complement is the
remainder. -/
def Inode.size : Int := ((p.head : Int) - p.tail) % PAGE_SIZE

/-- `index += chars; index &= (PAGE_SIZE-1)`, on a 16-bit field. -/
def advance (index : Nat) (chars : Int) : Nat :=
  ((index + chars) % 65536).toNat % PAGE_SIZE

inductive Kind where
  | read
  | write
  deriving DecidableEq

/-- The variables of a call. -/
structure Call where
  kind : Kind
  buf : Nat
  count : Int
  /-- `read` or `written`. -/
  done : Int
  deriving DecidableEq

/-- What a call does next. -/
inductive Round where
  /-- It returns the value; `sigpipe` says that the task gets `SIGPIPE`. -/
  | returns (value : Int) (sigpipe : Bool)
  /-- It calls `sleep_on`. -/
  | sleeps
  /-- It has claimed `chars` bytes of the ring from the index `size` on. -/
  | claims (p : Inode) (c : Call) (size : Nat) (chars : Int)

/-- `chars`: up to the end of the page, the end of the request and the end
of what there is. -/
def chunk (index : Nat) (count avail : Int) : Int :=
  min (min (PAGE_SIZE - index) count) avail

/-- The outer loop of `read_pipe`, from its test to the copy loop. -/
def readRound (c : Call) : Round :=
  if c.count ≤ 0 then .returns c.done false
  else if p.size = 0 then
    if p.iCount ≠ 2 then .returns c.done false else .sleeps
  else
    let chars := chunk p.tail c.count p.size
    .claims { p with tail := advance p.tail chars }
      { c with count := c.count - chars, done := c.done + chars } p.tail chars

/-- The outer loop of `write_pipe`, from its test to the copy loop. -/
def writeRound (c : Call) : Round :=
  if c.count ≤ 0 then .returns c.done false
  else if (PAGE_SIZE - 1 : Int) - p.size = 0 then
    if p.iCount ≠ 2 then
      .returns (if c.done ≠ 0 then c.done else -1) true
    else .sleeps
  else
    let chars := chunk p.head c.count ((PAGE_SIZE - 1 : Int) - p.size)
    .claims { p with head := advance p.head chars }
      { c with count := c.count - chars, done := c.done + chars } p.head chars

def round (c : Call) : Round :=
  match c.kind with
  | .read => readRound p c
  | .write => writeRound p c

/-- The page is accessed at the index. -/
def Inode.touch (i : Nat) : Inode :=
  { p with wild := p.wild || decide (PAGE_SIZE ≤ i) }

/-- `put_fs_byte(((char *)inode->i_size)[size++],buf++)`. -/
def copyOut (size : Nat) : UInt8 × Inode := (p.page size, p.touch size)

/-- `((char *)inode->i_size)[size++]=get_fs_byte(buf++)`. -/
def copyIn (size : Nat) (b : UInt8) : Inode :=
  { p.touch size with page := update p.page size b }

/-- The copy loop of `read_pipe`, with the bytes stored in the buffer. -/
def copyOutLoop : Nat → Nat → Inode → List UInt8 × Inode
  | 0, _, p => ([], p)
  | chars + 1, size, p =>
    let r := copyOut p size
    let rest := copyOutLoop chars (size + 1) r.2
    (r.1 :: rest.1, rest.2)

/-- The copy loop of `write_pipe`, for the bytes found in the buffer. -/
def copyInLoop : List UInt8 → Nat → Inode → Inode
  | [], _, p => p
  | b :: bs, size, p => copyInLoop bs (size + 1) (copyIn p size b)

-- ======== readers and writers

/-- A call in progress, with the bytes it has moved so far. -/
structure Running where
  call : Call
  asleep : Bool
  moved : List UInt8

/-- A call that has returned. -/
structure Returned where
  kind : Kind
  value : Int
  moved : List UInt8

/-- A pipe and the calls on it. `taken` and `delivered` are the bytes taken
from the writers and stored for the readers, in the order of the chunks. -/
structure System where
  inode : Inode
  calls : Nat → Option Running
  taken : List UInt8
  delivered : List UInt8
  returned : List Returned

inductive Op where
  /-- Task `t` calls. -/
  | call (t : Nat) (kind : Kind) (buf : Nat) (count : Int)
  /-- The call of `t` goes on to its next chunk, with `mem` in the user's
  memory. -/
  | round (t : Nat) (mem : Nat → UInt8)
  | wake (t : Nat)
  /-- A file is opened or closed on the inode. -/
  | refs (iCount : Nat)

/-- A chunk, from the claim to the end of its copy loop. -/
def transfer (s : System) (t : Nat) (r : Running) (mem : Nat → UInt8)
    (p : Inode) (c : Call) (size : Nat) (chars : Nat) : System :=
  match c.kind with
  | .read =>
    let out := copyOutLoop chars size p
    { s with
      inode := out.2
      calls := update s.calls t
        (some ⟨{ c with buf := c.buf + chars }, false, r.moved ++ out.1⟩)
      delivered := s.delivered ++ out.1 }
  | .write =>
    let bytes := (List.range chars).map fun i => mem (c.buf + i)
    { s with
      inode := copyInLoop bytes size p
      calls := update s.calls t
        (some ⟨{ c with buf := c.buf + chars }, false, r.moved ++ bytes⟩)
      taken := s.taken ++ bytes }

def goOn (s : System) (t : Nat) (r : Running) (mem : Nat → UInt8) :
    System :=
  match round s.inode r.call with
  | .returns value _ =>
    { s with
      calls := update s.calls t none
      returned := s.returned ++ [⟨r.call.kind, value, r.moved⟩] }
  | .sleeps =>
    { s with
      calls := update s.calls t (some { r with asleep := true }) }
  | .claims p c size chars => transfer s t r mem p c size chars.toNat

def step : Op → System → Option System
  | .call t kind buf count, s =>
    match s.calls t with
    | none => some { s with
        calls := update s.calls t (some ⟨⟨kind, buf, count, 0⟩, false, []⟩) }
    | some _ => none
  | .round t mem, s =>
    match s.calls t with
    | some r => if r.asleep then none else some (goOn s t r mem)
    | none => none
  | .wake t, s =>
    match s.calls t with
    | some r => some { s with
        calls := update s.calls t (some { r with asleep := false }) }
    | none => none
  | .refs iCount, s => some { s with inode := { s.inode with iCount } }

/-- `get_pipe_inode`: both indices 0, a reader and a writer, and whatever
was in the page. -/
def Inode.fresh (page : Nat → UInt8) : Inode := ⟨0, 0, page, 2, false⟩

def System.boot (page : Nat → UInt8) : System :=
  ⟨Inode.fresh page, fun _ => none, [], [], []⟩

/-- The bytes at the ring positions from `tail` to `head-1`. -/
def Inode.pending : List UInt8 :=
  (List.range p.size.toNat).map fun i => p.page ((p.tail + i) % PAGE_SIZE)

/-- A call returned the number of bytes it moved; only `write_pipe` may
return -1, if it moved none. -/
def Returned.Honest (r : Returned) : Prop :=
  r.value = r.moved.length ∨ (r.kind = .write ∧ r.value = -1 ∧ r.moved = [])

/-- The pipe is a queue of at most 4095 bytes. What was taken from the
writers was delivered, in order, or is pending; the pending bytes are
those in the ring; the size tells an empty pipe from every other; no
access leaves the page; the calls return what they did. -/
structure System.IsFifo (s : System) : Prop where
  queue : s.delivered ++ s.inode.pending = s.taken
  capacity : s.inode.size ≤ PAGE_SIZE - 1
  count : s.inode.size = (s.taken.length : Int) - s.delivered.length
  empty : s.inode.size = 0 ↔ s.delivered = s.taken
  inPage : s.inode.wild = false
  honest : ∀ r ∈ s.returned, r.Honest

-- ======== byte by byte

/-- A call in its copy loop: `chars` bytes are left from the index
`size`. -/
structure Copying where
  size : Nat
  chars : Nat
  deriving DecidableEq

/-- One of the two tasks: its call, if it is in one, with the copy loop it
is in, if it is. -/
structure Party where
  call : Option Call
  copying : Option Copying
  asleep : Bool
  deriving DecidableEq

/-- A reader and a writer. `stored` are the bytes the reader has put into
its buffers, `supplied` those the writer has put into the ring: byte `n`
of either is the one for position `n` of the stream. -/
structure ByteSystem where
  inode : Inode
  reader : Party
  writer : Party
  stored : List UInt8
  supplied : List UInt8

def ByteSystem.party (s : ByteSystem) : Kind → Party
  | .read => s.reader
  | .write => s.writer

def ByteSystem.setParty (s : ByteSystem) (k : Kind) (q : Party) :
    ByteSystem :=
  match k with
  | .read => { s with reader := q }
  | .write => { s with writer := q }

inductive ByteOp where
  | call (k : Kind) (buf : Nat) (count : Int)
  /-- Up to the copy loop, the sleep or the return. -/
  | round (k : Kind)
  /-- One byte; `mem` is the user's memory. -/
  | copy (k : Kind) (mem : Nat → UInt8)
  | wake (k : Kind)
  | refs (iCount : Nat)

/-- The test of the outer loop, where the task is not in its copy loop. -/
def roundByte (s : ByteSystem) (k : Kind) : Option ByteSystem :=
  let q := s.party k
  match q.call, q.copying with
  | some c, none =>
    if q.asleep then none
    else
      match round s.inode c with
      | .returns _ _ => some (s.setParty k ⟨none, none, false⟩)
      | .sleeps => some (s.setParty k { q with asleep := true })
      | .claims p c' size chars =>
        some { s.setParty k ⟨some c', some ⟨size, chars.toNat⟩, false⟩
          with inode := p }
  | _, _ => none

/-- A pass of the copy loop: one byte, or its end. -/
def copyByte (s : ByteSystem) (k : Kind) (mem : Nat → UInt8) : Option ByteSystem :=
  let q := s.party k
  match q.call, q.copying with
  | some _, some ⟨_, 0⟩ => some (s.setParty k { q with copying := none })
  | some c, some ⟨size, chars + 1⟩ =>
    let q' := { q with
      call := some { c with buf := c.buf + 1 }
      copying := some ⟨size + 1, chars⟩ }
    match k with
    | .read =>
      let out := copyOut s.inode size
      some { s.setParty .read q' with
        inode := out.2, stored := s.stored ++ [out.1] }
    | .write =>
      some { s.setParty .write q' with
        inode := copyIn s.inode size (mem c.buf)
        supplied := s.supplied ++ [mem c.buf] }
  | _, _ => none

def byteStep : ByteOp → ByteSystem → Option ByteSystem
  | .call k buf count, s =>
    match (s.party k).call with
    | none => some (s.setParty k ⟨some ⟨k, buf, count, 0⟩, none, false⟩)
    | some _ => none
  | .round k, s => roundByte s k
  | .copy k mem, s => copyByte s k mem
  | .wake k, s => some (s.setParty k { s.party k with asleep := false })
  | .refs iCount, s => some { s with inode := { s.inode with iCount } }

def ByteSystem.boot (page : Nat → UInt8) : ByteSystem :=
  ⟨Inode.fresh page, ⟨none, none, false⟩, ⟨none, none, false⟩, [], []⟩

/-- Every byte the reader has stored is the one the writer supplied for
that position, before it was read; and the writer has not come round to a
cell the reader still has to copy. -/
def ByteSystem.InOrder (s : ByteSystem) : Prop :=
  s.stored <+: s.supplied ∧ s.supplied.length ≤ s.stored.length + PAGE_SIZE

/-- The condition on a step. The reader copies a byte when the writer is
ahead of it; the writer copies one when it is less than a whole ring
ahead. -/
def InTurn : ByteOp → ByteSystem → Prop
  | .copy .read _, s => ∀ cp, s.reader.copying = some cp → 0 < cp.chars →
      s.stored.length < s.supplied.length
  | .copy .write _, s => ∀ cp, s.writer.copying = some cp → 0 < cp.chars →
      s.supplied.length < s.stored.length + PAGE_SIZE
  | _, _ => True

/-- Neither task is disturbed in its copy loop: a task takes a step only
while the other is not copying. -/
def Undisturbed : ByteOp → ByteSystem → Prop
  | .call k _ _, s => (s.party (other k)).copying = none
  | .round k, s => (s.party (other k)).copying = none
  | .copy k _, s => (s.party (other k)).copying = none
  | _, _ => True
where
  other : Kind → Kind
    | .read => .write
    | .write => .read

end LearnLinux.Pipe
