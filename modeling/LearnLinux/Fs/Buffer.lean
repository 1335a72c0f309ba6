/-
The buffer heads of `fs/buffer.c`: `getblk`, `get_hash_table`, `bread` and
`brelse`, by tasks that sleep.

The link fields of the heads are one function each, NULL being `none`; the
other fields of a head stand in `Head`. A store through a NULL pointer
changes no head. A device number has the type of `b_dev`, a block number
that of `b_blocknr`.

A task switches only where it sleeps. `At` lists those places with what
the task has in its local variables there, and a step of a task runs from
one of them (or from the start of a call) to the next one or to the
return. While a task sleeps, drivers and the users of the buffers may
change the flags of any head (`io`). `sync_dev` writes buffers and sleeps,
and changes no list: a task is inside it until it goes on (`syncing`), the
writes are steps of `io`, and the blocks that `sync_inodes` reads and
releases on the way are calls like any others.

`taken` is no field of the kernel: it records each head that `getblk`
gives to another block, as it was at that moment.
-/
import LearnLinux.Lib.Links
import LearnLinux.Lib.Fallible
import LearnLinux.Lib.Refs
import LearnLinux.Lib.Run

namespace LearnLinux.Buffer

open Function (update)
open LearnLinux.Lib

/-- What ends the system: the two panics, and a walk along the lists that
meets NULL or does not end. -/
inductive Panic where
  | freeListCorrupted
  | freeFree
  | lost
  deriving DecidableEq

structure Head where
  dev : UInt16
  blocknr : UInt32
  count : UInt8
  lock : Bool
  dirt : Bool
  uptodate : Bool
  deriving DecidableEq

structure Cache (n : Nat) where
  head : Fin n → Head
  next : Fin n → Option (Fin n)
  prev : Fin n → Option (Fin n)
  nextFree : Fin n → Option (Fin n)
  prevFree : Fin n → Option (Fin n)
  hashTable : Nat → Option (Fin n)
  freeList : Option (Fin n)
  taken : List (Fin n × Head)

def nrHash : Nat := 307

def hashfn (dev : UInt16) (block : UInt32) : Nat :=
  (dev.toUInt32 ^^^ block).toNat % nrHash

variable {n : Nat}

/-- The bucket a head hashes to. -/
def Cache.bucket (c : Cache n) (bh : Fin n) : Nat :=
  hashfn (c.head bh).dev (c.head bh).blocknr

def Cache.setHead (c : Cache n) (bh : Fin n) (f : Head → Head) : Cache n :=
  { c with head := update c.head bh (f (c.head bh)) }

/-- `b_count++`, a byte. -/
def Cache.inc (c : Cache n) (bh : Fin n) : Cache n :=
  c.setHead bh fun h => { h with count := h.count + 1 }

/-- `b_count--`. -/
def Cache.dec (c : Cache n) (bh : Fin n) : Cache n :=
  c.setHead bh fun h => { h with count := h.count - 1 }

-- ======== the lists

def removeFromQueues (c : Cache n) (bh : Fin n) : Except Panic (Cache n) :=
  -- remove from hash-queue
  let c := { c with prev := setAt (c.next bh) (c.prev bh) c.prev }
  let c := { c with next := setAt (c.prev bh) (c.next bh) c.next }
  let c := if c.hashTable (c.bucket bh) = some bh then
      { c with
        hashTable := update c.hashTable (c.bucket bh) (c.next bh) }
    else c
  -- remove from free list
  if c.prevFree bh = none ∨ c.nextFree bh = none then
    .error .freeListCorrupted
  else
    let c := { c with
      nextFree := setAt (c.prevFree bh) (c.nextFree bh) c.nextFree }
    let c := { c with
      prevFree := setAt (c.nextFree bh) (c.prevFree bh) c.prevFree }
    .ok (if c.freeList = some bh then
      { c with freeList := c.nextFree bh } else c)

def insertIntoQueues (c : Cache n) (bh : Fin n) : Cache n :=
  -- put at end of free list
  let c := { c with nextFree := update c.nextFree bh c.freeList }
  let c := { c with
    prevFree := update c.prevFree bh (c.freeList.bind c.prevFree) }
  let c := { c with
    nextFree := setAt (c.freeList.bind c.prevFree) (some bh) c.nextFree }
  let c := { c with prevFree := setAt c.freeList (some bh) c.prevFree }
  -- put the buffer in new hash-queue if it has a device
  let c := { c with prev := update c.prev bh none }
  let c := { c with next := update c.next bh none }
  if (c.head bh).dev = 0 then c
  else
    let c := { c with
      next := update c.next bh (c.hashTable (c.bucket bh)) }
    let c := { c with
      hashTable := update c.hashTable (c.bucket bh) (some bh) }
    { c with prev := setAt (c.next bh) (some bh) c.prev }

/-- The loop of `find_buffer` from `tmp`, over `k` heads at most. -/
def findFrom (c : Cache n) (dev : UInt16) (block : UInt32) :
    Nat → Option (Fin n) → Except Panic (Option (Fin n))
  | _, none => .ok none
  | 0, some _ => .error .lost
  | k + 1, some tmp =>
    if (c.head tmp).dev = dev ∧ (c.head tmp).blocknr = block then
      .ok (some tmp)
    else findFrom c dev block k (c.next tmp)

def findBuffer (c : Cache n) (dev : UInt16) (block : UInt32) : Except Panic (Option (Fin n)) :=
  findFrom c dev block n (c.hashTable (hashfn dev block))

/-- `BADNESS`. -/
def Head.badness (h : Head) : Nat :=
  (if h.dirt then 2 else 0) + (if h.lock then 1 else 0)

/-- The `do` loop of `getblk` from `tmp`, with the best head so far. -/
def scanFrom (c : Cache n) : Nat → Fin n → Option (Fin n) → Except Panic (Option (Fin n))
  | 0, _, _ => .error .lost
  | k + 1, tmp, bh =>
    let better := (c.head tmp).count = 0 ∧ ∀ b ∈ bh, (c.head tmp).badness < (c.head b).badness
    let bh := if better then some tmp else bh
    if better ∧ (c.head tmp).badness = 0 then .ok bh
    else
      match c.nextFree tmp with
      | none => .error .lost
      | some tmp' =>
        if c.freeList = some tmp' then .ok bh else scanFrom c k tmp' bh

def scan (c : Cache n) : Except Panic (Option (Fin n)) :=
  match c.freeList with
  | none => .error .lost
  | some tmp => scanFrom c n tmp none

/-- `getblk` makes the head its own. -/
def Cache.claim (c : Cache n) (bh : Fin n) : Cache n :=
  Cache.setHead { c with taken := (bh, c.head bh) :: c.taken } bh fun h =>
    { h with count := 1, dirt := false, uptodate := false }

/-- The end of `getblk`: the head gets the new block. -/
def recycle (c : Cache n) (dev : UInt16) (block : UInt32) (bh : Fin n) :
    Except Panic (Cache n) := do
  let c ← removeFromQueues (c.claim bh) bh
  let c := c.setHead bh fun h => { h with dev := dev, blocknr := block }
  pure (insertIntoQueues c bh)

/-- `getblk` right before its `insert_into_queues`. -/
def detached (c : Cache n) (dev : UInt16) (block : UInt32) (bh : Fin n) :
    Except Panic (Cache n) := do
  let c ← removeFromQueues (c.claim bh) bh
  pure (c.setHead bh fun h => { h with dev := dev, blocknr := block })

/-- The head pointers that `insert_into_queues` stores through, in its
order. -/
def insertStores (c : Cache n) (bh : Fin n) : List (Option (Fin n)) :=
  [some bh, some bh, c.freeList.bind (update c.prevFree bh (c.freeList.bind c.prevFree)),
    c.freeList, some bh, some bh] ++
  if (c.head bh).dev = 0 then [] else [some bh, c.hashTable (c.bucket bh)]

-- ======== the calls

/-- Who looks a block up: `get_hash_table` itself, `getblk`, or the
`getblk` in `bread`. -/
inductive Caller where
  | table
  | block
  | read
  deriving DecidableEq

/-- Where a task sleeps. -/
inductive At (n : Nat) where
  /-- `wait_on_buffer` in `get_hash_table`. -/
  | lookup (k : Caller) (dev : UInt16) (block : UInt32) (bh : Fin n)
  /-- `sleep_on(&buffer_wait)`. -/
  | noBuffer (k : Caller) (dev : UInt16) (block : UInt32)
  /-- The first `wait_on_buffer` of `getblk`. -/
  | chosen (k : Caller) (dev : UInt16) (block : UInt32) (bh : Fin n)
  | syncing (k : Caller) (dev : UInt16) (block : UInt32) (bh : Fin n)
  /-- The `wait_on_buffer` after `sync_dev`. -/
  | synced (k : Caller) (dev : UInt16) (block : UInt32) (bh : Fin n)
  /-- `wait_on_buffer` in `bread`. -/
  | reading (bh : Fin n)
  /-- `wait_on_buffer` in `brelse`. -/
  | releasing (bh : Fin n)
  deriving DecidableEq

/-- How a stretch of a task ends. -/
inductive Now (n : Nat) where
  | asleep (a : At n)
  | returned (bh : Option (Fin n))
  deriving DecidableEq

/-- A task has the head it looked for: `bread` starts to read it, unless
it is up to date. -/
def finish (k : Caller) (bh : Fin n) (c : Cache n) : Cache n × Now n :=
  if k = .read ∧ (c.head bh).uptodate = false then
    (c.setHead bh fun h => { h with lock := true, dirt := false }, .asleep (.reading bh))
  else (c, .returned (some bh))

/-- The loop of `get_hash_table` from its top; `none` where it returns
NULL. When it does not sleep, the check after `wait_on_buffer` is the one
`find_buffer` has just made. -/
def getHashTable (k : Caller) (dev : UInt16) (block : UInt32)
    (c : Cache n) : Except Panic (Option (Cache n × Now n)) := do
  match ← findBuffer c dev block with
  | none => pure none
  | some bh =>
    let c := c.inc bh
    if (c.head bh).lock then
      pure (some (c, .asleep (.lookup k dev block bh)))
    else pure (some (finish k bh c))

/-- `getblk` after a `wait_on_buffer(bh)` that is over; `again` is
`goto repeat`. -/
def afterWait (again : Cache n → Except Panic (Cache n × Now n))
    (k : Caller) (dev : UInt16) (block : UInt32) (bh : Fin n)
    (c : Cache n) : Except Panic (Cache n × Now n) :=
  if (c.head bh).count ≠ 0 then again c
  else if (c.head bh).dirt then
    .ok (c, .asleep (.syncing k dev block bh))
  else do
    match ← findBuffer c dev block with
    | some _ => again c
    | none =>
      let c ← recycle c dev block bh
      pure (finish k bh c)

/-- `getblk` from `repeat`, with at most `f` rounds before it sleeps. -/
def getblk (k : Caller) (dev : UInt16) (block : UInt32) :
    Nat → Cache n → Except Panic (Cache n × Now n)
  | 0, _ => .error .lost
  | f + 1, c => do
    match ← getHashTable k dev block c with
    | some r => pure r
    | none =>
      match ← scan c with
      | none => pure (c, .asleep (.noBuffer k dev block))
      | some bh =>
        if (c.head bh).lock then
          pure (c, .asleep (.chosen k dev block bh))
        else afterWait (getblk k dev block f) k dev block bh c

/-- `brelse` after its `wait_on_buffer`. -/
def release (bh : Fin n) (c : Cache n) : Except Panic (Cache n × Now n) :=
  if (c.head bh).count = 0 then .error .freeFree
  else .ok (c.dec bh, .returned none)

/-- A task that slept goes on; one that waits for a buffer sleeps again
while the buffer is locked. -/
def resume (c : Cache n) : At n → Except Panic (Cache n × Now n)
  | .lookup k dev block bh =>
    if (c.head bh).lock then
      .ok (c, .asleep (.lookup k dev block bh))
    else if (c.head bh).dev = dev ∧ (c.head bh).blocknr = block then
      .ok (finish k bh c)
    else if k = .table then do
      match ← getHashTable .table dev block (c.dec bh) with
      | some r => pure r
      | none => pure (c.dec bh, .returned none)
    else getblk k dev block 1 (c.dec bh)
  | .noBuffer k dev block => getblk k dev block 1 c
  | .chosen k dev block bh =>
    if (c.head bh).lock then
      .ok (c, .asleep (.chosen k dev block bh))
    else afterWait (getblk k dev block 1) k dev block bh c
  | .syncing k dev block bh | .synced k dev block bh =>
    if (c.head bh).lock then
      .ok (c, .asleep (.synced k dev block bh))
    else afterWait (getblk k dev block 1) k dev block bh c
  | .reading bh =>
    if (c.head bh).lock then .ok (c, .asleep (.reading bh))
    else if (c.head bh).uptodate then .ok (c, .returned (some bh))
    else release bh c
  | .releasing bh =>
    if (c.head bh).lock then .ok (c, .asleep (.releasing bh))
    else release bh c

-- ======== the system

inductive Call (n : Nat) where
  | getHashTable (dev : UInt16) (block : UInt32)
  | getblk (dev : UInt16) (block : UInt32)
  | bread (dev : UInt16) (block : UInt32)
  | brelse (bh : Fin n)
  deriving DecidableEq

def start (c : Cache n) : Call n → Except Panic (Cache n × Now n)
  | .getHashTable dev block => do
    match ← getHashTable .table dev block c with
    | some r => pure r
    | none => pure (c, .returned none)
  | .getblk dev block => getblk .block dev block 1 c
  | .bread dev block => getblk .read dev block 1 c
  | .brelse bh => resume c (.releasing bh)

/-- A task: where it sleeps inside a call, and the heads that calls gave it
and that it has not released. -/
structure Task (n : Nat) where
  place : Option (At n)
  held : List (Fin n)

structure Sys (n : Nat) (T : Type) where
  cache : Cache n
  task : T → Task n

inductive Op (n : Nat) (T : Type) where
  | call (t : T) (what : Call n)
  | resume (t : T)
  | io (bh : Fin n) (lock dirt uptodate : Bool)
  deriving DecidableEq

variable {T : Type} [DecidableEq T]

/-- The task after a stretch of it. -/
def Task.settle (held : List (Fin n)) : Now n → Task n
  | .asleep a => ⟨some a, held⟩
  | .returned bh => ⟨none, bh.toList ++ held⟩

def Sys.settle (s : Sys n T) (t : T) (held : List (Fin n)) (r : Cache n × Now n) : Sys n T :=
  ⟨r.1, update s.task t (Task.settle held r.2)⟩

/-- What a task holds once it has called: `brelse` gives a head back. -/
def Call.keeps (held : List (Fin n)) : Call n → List (Fin n)
  | .brelse bh => held.erase bh
  | _ => held

/-- One step. A task inside a call makes no other, and one outside has
nothing to go on with. -/
def exec : Op n T → Sys n T → Except Panic (Sys n T)
  | .call t what, s =>
    match (s.task t).place with
    | some _ => .ok s
    | none => do
      let r ← start s.cache what
      pure (s.settle t (what.keeps (s.task t).held) r)
  | .resume t, s =>
    match (s.task t).place with
    | none => .ok s
    | some a => do
      let r ← resume s.cache a
      pure (s.settle t (s.task t).held r)
  | .io bh lock dirt uptodate, s =>
    .ok { s with cache := s.cache.setHead bh fun h =>
      { h with lock := lock, dirt := dirt, uptodate := uptodate } }

def step (o : Op n T) (s : Sys n T) : Option (Sys n T) :=
  (exec o s).toOption

/-- `buffer_init` with `n + 1` heads. The block numbers are what the memory
held. -/
def bufferInit (blocknr : Fin (n + 1) → UInt32) : Cache (n + 1) where
  head bh := ⟨0, blocknr bh, 0, false, false, false⟩
  next _ := none
  prev _ := none
  nextFree bh := some (bh + 1)
  prevFree bh := some (bh - 1)
  hashTable _ := none
  freeList := some 0
  taken := []

/-- The system before the first call. -/
def Sys.init (T : Type) (blocknr : Fin (n + 1) → UInt32) : Sys (n + 1) T :=
  ⟨bufferInit blocknr, fun _ => ⟨none, []⟩⟩

-- ======== the purpose

/-- The bucket a head must be in: a head without a device is in none. -/
def Cache.key (c : Cache n) (bh : Fin n) : Option Nat :=
  if (c.head bh).dev = 0 then none else some (c.bucket bh)

/-- What the lists must be. -/
structure Integrity (c : Cache n) : Prop where
  /-- The free list is one ring of all heads. -/
  free : ∃ l : List (Fin n), l ≠ [] ∧ l.Nodup ∧ (∀ bh, bh ∈ l) ∧
    Ring c.nextFree c.prevFree c.freeList l
  /-- Each hash chain ends in NULL and holds the heads with a device that
  hash to it; the others have no hash links. -/
  hash : Table c.next c.prev c.hashTable c.key
  /-- No block has two heads. -/
  unique : ∀ a b, (c.head a).dev ≠ 0 → (c.head a).dev = (c.head b).dev →
    (c.head a).blocknr = (c.head b).blocknr → a = b

/-- The references to `bh` of a task that sleeps: it has raised the count
and not yet returned or lowered it. -/
def At.refs (bh : Fin n) : At n → Nat
  | .lookup _ _ _ b | .reading b | .releasing b => if b = bh then 1 else 0
  | _ => 0

/-- The references of a task to `bh`. -/
def Task.refs (bh : Fin n) (t : Task n) : Nat :=
  t.held.count bh + t.place.elim 0 (At.refs bh)

/-- All references to `bh`. -/
def Sys.refs [Fintype T] (s : Sys n T) (bh : Fin n) : Nat :=
  ∑ t, (s.task t).refs bh

/-- The head has another block than before. -/
def Renamed (c c' : Cache n) (bh : Fin n) : Prop :=
  (c'.head bh).dev ≠ (c.head bh).dev ∨ (c'.head bh).blocknr ≠ (c.head bh).blocknr

/-- The step does not release a head that its caller does not hold, and no
head has more references than `b_count` can count. -/
def Fair [Fintype T] (o : Op n T) (s : Sys n T) : Prop :=
  (∀ t bh, o = .call t (.brelse bh) → (s.task t).place = none →
    bh ∈ (s.task t).held) ∧ ∀ bh, s.refs bh ≤ 255

end LearnLinux.Buffer
