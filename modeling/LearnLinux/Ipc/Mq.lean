/-
The message queues of `my_pxmsg_mmap`.

A queue is a mapped file: a header, and behind it `mq_maxmsg` slots of one
size, each with a message header and room for a message. Slots are named
by their offsets in the file. Two lists link them, the free list and the
list of messages. Of the header, `mqh_head` lies in the bytes of the file
at its offset: `mymq_send` takes it for the `msg_next` of a message
header. The other fields are fields of `Queue`. Offsets, lengths and
counts are not negative and below `LONG_MAX`, so they are numbers here.

The functions hold `mqh_lock`, except in `pthread_cond_wait`; senders and
receivers wait on the one condition variable `mqh_wait`. A step is what a
thread does with the lock held. `none` stands for `err_dump`, for a walk
along a list that does not end, and for a step that does not apply.
-/
import LearnLinux.Lib.Monitor
import LearnLinux.Lib.PrioQueue
import LearnLinux.Lib.Region
import LearnLinux.Lib.Run

namespace LearnLinux.Mq

open Function (update)
open LearnLinux.Lib

-- ======== the region

def LONG_MAX : Nat := 2 ^ 63 - 1
def INT_MAX : Nat := 2 ^ 31 - 1

/-- `sizeof(struct mymq_hdr)`, and the offset of `mqh_head` in it. -/
def sizeofHdr : Nat := 216
def headOff : Nat := 32

/-- `sizeof(struct mymsg_hdr)`, and the offsets of `msg_len` and `msg_prio`
in it; `msg_next` is at its start. -/
def sizeofMsgHdr : Nat := 24
def lenOff : Nat := 8
def prioOff : Nat := 16

/-- `MSGSIZE`: the room for a message is rounded up to whole longs. -/
def MSGSIZE (i : Nat) : Nat := (i + 8 - 1) / 8 * 8

/-- The distance from one slot to the next. -/
def stride (msgsize : Nat) : Nat := sizeofMsgHdr + MSGSIZE msgsize

/-- The size of the file, from `mymq_open`. -/
def filesize (maxmsg msgsize : Nat) : Nat :=
  sizeofHdr + maxmsg * stride msgsize

/-- A message: its priority and its bytes. -/
structure Msg where
  prio : UInt32
  text : List UInt8
  deriving DecidableEq

/-- The values of `sigev_notify`. -/
inductive Notify where
  | none
  | signal
  | thread
  deriving DecidableEq

/-- `struct sigevent`. -/
structure Event where
  notify : Notify
  signo : Nat
  value : Int
  deriving DecidableEq

structure Queue where
  maxmsg : Nat
  msgsize : Nat
  curmsgs : Nat
  free : Nat
  nwait : Nat
  pid : Nat
  event : Event
  mem : Nat → UInt8

/-- The fields of the message header at an offset. For `headOff` the first
one is `mqh_head`. -/
def msgNext (mem : Nat → UInt8) (off : Nat) : Nat := load 8 mem off
def msgLen (mem : Nat → UInt8) (off : Nat) : Nat := load 8 mem (off + lenOff)
def msgPrio (mem : Nat → UInt8) (off : Nat) : UInt32 :=
  UInt32.ofNat (load 4 mem (off + prioOff))

def setNext (mem : Nat → UInt8) (off v : Nat) : Nat → UInt8 :=
  store 8 mem off v

/-- The message in a slot. -/
def msgAt (mem : Nat → UInt8) (off : Nat) : Msg :=
  ⟨msgPrio mem off, peek mem (off + sizeofMsgHdr) (msgLen mem off)⟩

-- ======== mymq_open

/-- The loop of `mymq_open` that links the slots, for the `n` rounds that
are left. Its counter is an `int`. -/
def linkSlots (stride : Nat) : Nat → Nat → Nat → (Nat → UInt8) → Option (Nat × (Nat → UInt8))
  | 0, _, index, mem => some (index, mem)
  | n + 1, i, index, mem =>
    if i = INT_MAX then none
    else linkSlots stride n (i + 1) (index + stride) (setNext mem index (index + stride))

/-- The initialisation in `mymq_open`: the file is all zeros, then the
header is filled in and all slots are put on the free list. It fails with
`EINVAL` unless both attributes are positive. -/
def mymqOpen (maxmsg msgsize : Nat) : Option Queue :=
  if maxmsg = 0 ∨ msgsize = 0 then none
  else if LONG_MAX < filesize maxmsg msgsize then none
  else
    (linkSlots (stride msgsize) (maxmsg - 1) 0 sizeofHdr
      (setNext (fun _ => 0) headOff 0)).map fun (index, mem) =>
        { maxmsg := maxmsg, msgsize := msgsize, curmsgs := 0
          free := sizeofHdr, nwait := 0, pid := 0
          event := ⟨.none, 0, 0⟩, mem := setNext mem index 0 }

-- ======== the lists

/-- The loop of `mymq_send` that finds the place for the new message at
`freeindex`: `index` is the next one to look at, `pmsg` the header before
it. The first argument bounds the rounds. -/
def insertLoop (prio : UInt32) (freeindex : Nat) :
    Nat → (Nat → UInt8) → Nat → Nat → Option (Nat → UInt8)
  | 0, _, _, _ => none
  | fuel + 1, mem, index, pmsg =>
    if index ≠ 0 then
      if prio > msgPrio mem index then
        some (setNext (setNext mem freeindex index) pmsg freeindex)
      else insertLoop prio freeindex fuel mem (msgNext mem index) index
    else some (setNext (setNext mem pmsg freeindex) freeindex 0)

/-- A message is written into a slot. -/
def fill (off : Nat) (m : Msg) (mem : Nat → UInt8) : Nat → UInt8 :=
  poke (store 8 (store 4 mem (off + prioOff) m.prio.toNat) (off + lenOff)
    m.text.length) (off + sizeofMsgHdr) m.text

/-- The second half of `mymq_send`: the message is copied into the first
free slot, which is linked into the list of messages. -/
def insert (m : Msg) (q : Queue) : Option Queue :=
  if q.free = 0 then none
  else
    let mem := fill q.free m q.mem
    (insertLoop m.prio q.free (q.maxmsg + 1) mem (msgNext mem headOff) headOff).map fun mem' =>
      { q with
        free := msgNext mem q.free
        mem := mem'
        curmsgs := q.curmsgs + 1 }

/-- The second half of `mymq_receive`: the first message is unlinked, its
bytes, length and priority are returned, and its slot is put at the front
of the free list. -/
def take (q : Queue) : Option (Msg × Queue) :=
  let index := msgNext q.mem headOff
  if index = 0 then none
  else
    let mem := setNext q.mem headOff (msgNext q.mem index)
    some (msgAt mem index,
      { q with
        free := index
        mem := setNext mem index q.free
        curmsgs := q.curmsgs - 1 })

-- ======== the threads

/-- What a thread in `pthread_cond_wait` came for. -/
inductive Wait where
  | send (m : Msg)
  | receive
  deriving DecidableEq

@[simp] def Wait.isSend : Wait → Bool
  | .send _ => true
  | .receive => false

@[simp] def Wait.isReceive : Wait → Bool
  | .send _ => false
  | .receive => true

/-- `mqh_wait`: whoever waits. -/
def mqhWait (_ : Wait) : Bool := true

inductive Errno where
  | EMSGSIZE
  | EAGAIN
  deriving DecidableEq

/-- What a call returned. -/
inductive Outcome where
  | sent (m : Msg)
  | received (m : Msg)
  | failed (e : Errno)
  deriving DecidableEq

/-- A signal queued by `sigqueue`. -/
structure Signal where
  pid : Nat
  signo : Nat
  value : Int
  deriving DecidableEq

/-- The queue, its threads, what the calls have returned and what signals
were queued, both oldest first. Of the processes that may be notified:
which ones exist, and which ones called `mymq_notify` with success and
were neither notified nor unregistered since. -/
structure Sys (T : Type) where
  q : Queue
  thread : T → Status Wait
  returned : List (T × Outcome)
  signals : List Signal
  alive : Nat → Bool
  registered : Nat → Bool

inductive Op (T : Type) where
  /-- `mymq_send`, with the thread that its signal wakes. -/
  | send (t : T) (m : Msg) (nonblock : Bool) (woken : Option T)
  /-- `mymq_receive`, with the thread that its signal wakes. -/
  | receive (t : T) (maxlen : Nat) (nonblock : Bool) (woken : Option T)
  /-- A thread comes back from `pthread_cond_wait`. -/
  | resume (t : T) (woken : Option T)
  /-- A wakeup that no signal caused. -/
  | spurious (t : T)
  /-- `mymq_notify`, called by a process. -/
  | notify (pid : Nat) (notification : Option Event)
  /-- A process ends, and one begins. -/
  | exit (pid : Nat)
  | start (pid : Nat)
  deriving DecidableEq

variable {T : Type} [DecidableEq T]

/-- The call returns -1 with `errno` set. -/
def fail (t : T) (e : Errno) (s : Sys T) : Sys T :=
  { s with returned := s.returned ++ [(t, .failed e)] }

/-- The thread blocks in `pthread_cond_wait`. -/
def block (t : T) (k : Wait) (s : Sys T) : Sys T :=
  { s with thread := update s.thread t (.waiting k) }

/-- A registered process is notified of a message that comes to the empty
queue, unless a receiver waits for it. -/
def alarm (s : Sys T) : Sys T :=
  if s.q.pid ≠ 0 ∧ s.q.nwait = 0 then
    { s with
      q := { s.q with pid := 0 }
      signals :=
        if s.q.event.notify = .signal then
          s.signals ++ [⟨s.q.pid, s.q.event.signo, s.q.event.value⟩]
        else s.signals
      registered := update s.registered s.q.pid false }
  else s

variable [Fintype T]

/-- The rest of `mymq_send`, from where there is room: a message on the
empty queue is signalled. -/
def finishSend (t : T) (m : Msg) (woken : Option T) (s : Sys T) : Option (Sys T) :=
  (insert m s.q).bind fun q =>
    (signalIf (s.q.curmsgs = 0) mqhWait (update s.thread t .out) woken).map fun thread =>
      { s with
        q := q
        thread := thread
        returned := s.returned ++ [(t, .sent m)] }

/-- The rest of `mymq_receive`, from where there is a message: room on the
full queue is signalled. -/
def finishReceive (t : T) (woken : Option T) (s : Sys T) : Option (Sys T) :=
  (take s.q).bind fun (m, q) =>
    (signalIf (s.q.curmsgs = s.q.maxmsg) mqhWait
      (update s.thread t .out) woken).map fun thread =>
        { s with
          q := q
          thread := thread
          returned := s.returned ++ [(t, .received m)] }

/-- A step that signals nobody. -/
def quiet (woken : Option T) (s : Sys T) : Option (Sys T) :=
  if woken = none then some s else none

/-- `mymq_send` up to its return or its wait. -/
def mymqSend (t : T) (m : Msg) (nonblock : Bool) (woken : Option T) (s : Sys T) : Option (Sys T) :=
  if m.text.length > s.q.msgsize then quiet woken (fail t .EMSGSIZE s)
  else if s.q.curmsgs = 0 then finishSend t m woken (alarm s)
  else if s.q.curmsgs ≥ s.q.maxmsg then
    if nonblock then quiet woken (fail t .EAGAIN s)
    else quiet woken (block t (.send m) s)
  else finishSend t m woken s

/-- `mymq_receive` up to its return or its wait. -/
def mymqReceive (t : T) (maxlen : Nat) (nonblock : Bool) (woken : Option T)
    (s : Sys T) : Option (Sys T) :=
  if maxlen < s.q.msgsize then quiet woken (fail t .EMSGSIZE s)
  else if s.q.curmsgs = 0 then
    if nonblock then quiet woken (fail t .EAGAIN s)
    else quiet woken (block t .receive { s with q := { s.q with nwait := s.q.nwait + 1 } })
  else finishReceive t woken s

/-- A thread is back from `pthread_cond_wait` and tests the condition of
its loop. -/
def resume (t : T) (woken : Option T) (s : Sys T) : Option (Sys T) :=
  match s.thread t with
  | .woken (.send m) =>
    if s.q.curmsgs ≥ s.q.maxmsg then quiet woken (block t (.send m) s)
    else finishSend t m woken s
  | .woken .receive =>
    if s.q.curmsgs = 0 then quiet woken (block t .receive s)
    else finishReceive t woken { s with q := { s.q with nwait := s.q.nwait - 1 } }
  | _ => none

/-- `mymq_notify`. A registered process that exists is not displaced: the
call fails with `EBUSY`. -/
def mymqNotify (pid : Nat) (notification : Option Event) (s : Sys T) : Sys T :=
  match notification with
  | none =>
    if s.q.pid = pid then
      { s with
        q := { s.q with pid := 0 }
        registered := update s.registered pid false }
    else s
  | some event =>
    if s.q.pid ≠ 0 ∧ s.alive s.q.pid = true then s
    else
      { s with
        q := { s.q with pid := pid, event := event }
        registered := update s.registered pid true }

/-- One step of the system. -/
def step : Op T → Sys T → Option (Sys T)
  | .send t m nonblock woken, s =>
    if s.thread t = .out then mymqSend t m nonblock woken s else none
  | .receive t maxlen nonblock woken, s =>
    if s.thread t = .out then mymqReceive t maxlen nonblock woken s
    else none
  | .resume t woken, s => resume t woken s
  | .spurious t, s =>
    (stir s.thread t).map fun thread => { s with thread := thread }
  | .notify pid notification, s =>
    if pid ≠ 0 ∧ s.alive pid = true then
      some (mymqNotify pid notification s)
    else none
  | .exit pid, s =>
    some { s with alive := update s.alive pid false }
  | .start pid, s =>
    if s.alive pid = true then none
    else some { s with
      alive := update s.alive pid true
      registered := update s.registered pid false }

/-- A queue that was just initialised. -/
def Sys.init (T : Type) (q : Queue) (alive : Nat → Bool) : Sys T :=
  ⟨q, fun _ => .out, [], [], alive, fun _ => false⟩

end LearnLinux.Mq
