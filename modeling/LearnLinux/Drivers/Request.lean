/-
Requests to the block devices (`kernel/blk_drv/ll_rw_blk.c`, and
`end_request` of `kernel/blk_drv/blk.h`).

The requests stand in an array of 32 slots; a slot whose `dev` is negative
is free. The slots of one device are linked from its `current_request`,
which the driver is working on. Pointers are the indices of the slots, and
the index behind the array stands for NULL.

`make_request` may sleep in two places: in `lock_buffer`, and on
`wait_for_request` when there is no slot. Between those places no other
task runs, but an interrupt may come at any time, and with it the end of a
request. That makes a difference only after a slot has been filled and
before `add_request` has disabled interrupts, so the rest of the call from
there on is a step of its own (`Op.add`).
-/
import LearnLinux.Lib.Links
import LearnLinux.Lib.Locks
import LearnLinux.Lib.Run

namespace LearnLinux.Blk

open Function (update)

def NR_BLK_DEV : Nat := 7

def NR_REQUEST : Nat := 32

/-- The pointer that is no slot. -/
def NULL : Nat := NR_REQUEST

/-- What `ll_rw_block` is asked for. -/
inductive Rw where
  | READ
  | WRITE
  | READA
  | WRITEA
  deriving DecidableEq

/-- What a request asks the driver for, in the order of the numbers. -/
inductive Cmd where
  | READ
  | WRITE
  deriving DecidableEq

def Cmd.toNat : Cmd → Nat
  | .READ => 0
  | .WRITE => 1

/-- `struct request`. -/
structure Request (β : Type) where
  dev : Int
  cmd : Cmd
  errors : Nat
  sector : Nat
  nrSectors : Nat
  bh : Option β
  next : Nat

/-- The parts of a `buffer_head` that count here. -/
structure Buffer where
  dev : Nat
  blocknr : Nat
  uptodate : Bool
  dirt : Bool
  lock : Bool

/-- `request`, the `current_request` of `blk_dev`, and the buffers. -/
structure Kernel (β : Type) where
  request : Nat → Request β
  currentRequest : Fin NR_BLK_DEV → Nat
  buf : β → Buffer

variable {β τ : Type} [DecidableEq β] [DecidableEq τ]

-- ======== the parts

def setLock (k : Kernel β) (b : β) (v : Bool) : Kernel β :=
  { k with buf := update k.buf b { k.buf b with lock := v } }

def setNext (f : Nat → Request β) (r n : Nat) : Nat → Request β :=
  update f r { f r with next := n }

/-- `IN_ORDER`. -/
def InOrder (s₁ s₂ : Request β) : Prop :=
  s₁.cmd.toNat < s₂.cmd.toNat ∨ s₁.cmd = s₂.cmd ∧ (s₁.dev < s₂.dev ∨
      s₁.dev = s₂.dev ∧ s₁.sector < s₂.sector)

instance (s₁ s₂ : Request β) : Decidable (InOrder s₁ s₂) :=
  inferInstanceAs (Decidable (_ ∨ _))

/-- The loop of `add_request`: the request behind which the new one goes.
A queue has no more slots than the array, so that many rounds are enough
(`findPlace_spec`). -/
def findPlace (f : Nat → Request β) (req : Nat) : Nat → Nat → Option Nat
  | 0, _ => none
  | k + 1, tmp =>
    let n := (f tmp).next
    if n = NULL then some tmp
    else if (InOrder (f tmp) (f req) ∨ ¬InOrder (f tmp) (f n)) ∧ InOrder (f req) (f n) then some tmp
    else findPlace f req k n

/-- `if (req->bh) req->bh->b_dirt = 0`. -/
def cleanBuffer (k : Kernel β) : Option β → β → Buffer
  | none => k.buf
  | some b => update k.buf b { k.buf b with dirt := false }

/-- `add_request`, without the call of `request_fn`: what the driver does
with the queue is end requests. -/
def addRequest (k : Kernel β) (dev : Fin NR_BLK_DEV) (req : Nat) : Option (Kernel β) :=
  let f := setNext k.request req NULL
  let buf := cleanBuffer k (f req).bh
  if k.currentRequest dev = NULL then
    some ⟨f, update k.currentRequest dev req, buf⟩
  else
    (findPlace f req NR_REQUEST (k.currentRequest dev)).map fun tmp =>
      ⟨setNext (setNext f req (f tmp).next) tmp req, k.currentRequest, buf⟩

/-- The slots a request may take. -/
def slots : Cmd → Nat
  | .READ => NR_REQUEST
  | .WRITE => NR_REQUEST * 2 / 3

/-- The search for an empty request, from the last slot down. -/
def emptyRequest (k : Kernel β) (rw : Cmd) : Option Nat :=
  (List.range (slots rw)).reverse.find? fun r => (k.request r).dev < 0

/-- The request-info is filled up. -/
def fill (k : Kernel β) (req : Nat) (rw : Cmd) (b : β) : Kernel β :=
  { k with
    request := update k.request req
      { dev := (k.buf b).dev
        cmd := rw
        errors := 0
        sector := (k.buf b).blocknr * 2 % 2 ^ 32
        nrSectors := 2
        bh := some b
        next := NULL } }

/-- `end_request`, for the request at the head of the queue. -/
def endRequest (k : Kernel β) (dev : Fin NR_BLK_DEV) (uptodate : Bool) : Kernel β :=
  let r := k.currentRequest dev
  { request := update k.request r { k.request r with dev := -1 }
    currentRequest :=
      update k.currentRequest dev (k.request r).next
    buf :=
      match (k.request r).bh with
      | none => k.buf
      | some b =>
        update k.buf b { k.buf b with uptodate := uptodate, lock := false } }

-- ======== the system

/-- Where a task is. -/
inductive Place (β : Type) where
  /-- In no `make_request`. -/
  | idle
  /-- Asleep in `lock_buffer`. -/
  | locking (major : Fin NR_BLK_DEV) (rw : Cmd) (ahead : Bool) (bh : β)
  /-- Asleep on `wait_for_request`, with the buffer locked. -/
  | waiting (major : Fin NR_BLK_DEV) (rw : Cmd) (bh : β)

/-- The tasks and what they work on, with a record of the requests: each
has a number, in the order in which they were accepted. -/
structure System (β τ : Type) where
  kernel : Kernel β
  place : τ → Place β
  /-- The slot that the running task has filled and not yet added. -/
  filled : Option (Fin NR_BLK_DEV × Nat)
  accepted : Nat
  /-- The number of the request in a slot. -/
  number : Nat → Nat
  completed : List Nat

/-- `repeat:` in `make_request`, up to the point where the slot is
filled. -/
def takeSlot (s : System β τ) (t : τ) (major : Fin NR_BLK_DEV) (rw : Cmd)
    (ahead : Bool) (b : β) : System β τ :=
  match emptyRequest s.kernel rw with
  | some r =>
    { s with
      kernel := fill s.kernel r rw b
      place := update s.place t .idle
      filled := some (major, r) }
  | none =>
    if ahead then
      { s with
        kernel := setLock s.kernel b false
        place := update s.place t .idle }
    else
      { s with place := update s.place t (.waiting major rw b) }

/-- There is nothing to read or write. -/
def Needless (rw : Cmd) (b : Buffer) : Prop :=
  rw = .WRITE ∧ b.dirt = false ∨ rw = .READ ∧ b.uptodate = true

instance (rw : Cmd) (b : Buffer) : Decidable (Needless rw b) :=
  inferInstanceAs (Decidable (_ ∨ _))

/-- `make_request` from `lock_buffer` on. -/
def lockBuffer (s : System β τ) (t : τ) (major : Fin NR_BLK_DEV)
    (rw : Cmd) (ahead : Bool) (b : β) : System β τ :=
  if (s.kernel.buf b).lock then
    { s with
      place := update s.place t (.locking major rw ahead b) }
  else if Needless rw (s.kernel.buf b) then
    -- locked, and unlocked again
    { s with
      kernel := setLock (setLock s.kernel b true) b false
      place := update s.place t .idle }
  else
    takeSlot { s with kernel := setLock s.kernel b true } t major rw ahead b

def makeRequest (s : System β τ) (t : τ) (major : Fin NR_BLK_DEV) (rw : Rw) (b : β) : System β τ :=
  match rw with
  | .READ => lockBuffer s t major .READ false b
  | .WRITE => lockBuffer s t major .WRITE false b
  | .READA =>
    if (s.kernel.buf b).lock then s
    else lockBuffer s t major .READ true b
  | .WRITEA =>
    if (s.kernel.buf b).lock then s
    else lockBuffer s t major .WRITE true b

inductive Op (β τ : Type) where
  /-- A task calls `make_request`. -/
  | make (t : τ) (major : Fin NR_BLK_DEV) (rw : Rw) (bh : β)
  /-- A sleeping task runs again. -/
  | resume (t : τ)
  /-- The running task goes on to `add_request`. -/
  | add
  /-- A driver ends its current request. -/
  | endRequest (dev : Fin NR_BLK_DEV) (uptodate : Bool)
  /-- What the rest of the kernel does to a buffer: it is given to another
  block, written into, found to be invalid. -/
  | touch (bh : β) (dev blocknr : Nat) (uptodate dirt : Bool)

/-- The task goes on where it fell asleep. -/
def resume (s : System β τ) (t : τ) : Option (System β τ) :=
  match s.place t with
  | .idle => none
  | .locking major rw ahead b => some (lockBuffer s t major rw ahead b)
  | .waiting major rw b => some (takeSlot s t major rw false b)

/-- `add_request` of the slot just filled, which is what accepting a
request is. -/
def add (s : System β τ) : Option (System β τ) :=
  s.filled.bind fun p =>
    (addRequest s.kernel p.1 p.2).map fun k =>
      { s with
        kernel := k
        filled := none
        accepted := s.accepted + 1
        number := update s.number p.2 s.accepted }

/-- A driver ends a request only if it has one. -/
def complete (s : System β τ) (dev : Fin NR_BLK_DEV) (uptodate : Bool) : Option (System β τ) :=
  if s.kernel.currentRequest dev = NULL then none
  else some
    { s with
      kernel := endRequest s.kernel dev uptodate
      completed :=
        s.completed ++ [s.number (s.kernel.currentRequest dev)] }

def touch (k : Kernel β) (b : β) (dev blocknr : Nat) (uptodate dirt : Bool) : Kernel β :=
  { k with
    buf := update k.buf b ⟨dev, blocknr, uptodate, dirt, (k.buf b).lock⟩ }

/-- A step. While one task is on its way to `add_request` no other one
runs. -/
def step : Op β τ → System β τ → Option (System β τ)
  | .make t major rw b, s =>
    if s.filled = none then
      match s.place t with
      | .idle => some (makeRequest s t major rw b)
      | _ => none
    else none
  | .resume t, s => if s.filled = none then resume s t else none
  | .add, s => add s
  | .endRequest dev uptodate, s => complete s dev uptodate
  | .touch b dev blocknr uptodate dirt, s =>
    some { s with kernel := touch s.kernel b dev blocknr uptodate dirt }

/-- The state after `blk_dev_init`, with no buffer locked. -/
def System.Boot (s : System β τ) : Prop :=
  (∀ r < NR_REQUEST, (s.kernel.request r).dev = -1) ∧ (∀ dev, s.kernel.currentRequest dev = NULL)
    ∧ (∀ b, (s.kernel.buf b).lock = false) ∧ (∀ t, s.place t = .idle)
    ∧ s.filled = none ∧ s.accepted = 0 ∧ s.completed = []

end LearnLinux.Blk
