/-
The read-write locks of `my_rwlock` and `my_rwlock_cancel`.

Both are a mutex with two condition variables, one for readers and one for
writers, and three counters: `rw_refcount` (-1 for a writer, else the
number of read locks), and the numbers of readers and of writers that
wait. The `pthread` calls return 0, and the lock is initialised (its magic
number is right). `reads` and `writes` are no fields of the source: they
say which thread holds what, and only a holder unlocks.

The two locks differ in `unlock`: the one of `my_rwlock` signals a waiting
writer only when the lock has become free, the one of `my_rwlock_cancel`
always. In the latter a thread inside `pthread_cond_wait` may be
cancelled, before or after it was woken; its cleanup handler takes it off
the count of waiters and releases the mutex, and does no more.
-/
import LearnLinux.Lib.Monitor
import LearnLinux.Lib.Run

namespace LearnLinux.Rwlock

open Function (update)
open LearnLinux.Lib

/-- Which loop a thread waits in, and so on which condition variable. -/
inductive Kind where
  | reader
  | writer
  deriving DecidableEq

/-- `rw_condreaders`. -/
@[simp] def condreaders : Kind → Bool
  | .reader => true
  | .writer => false

/-- `rw_condwriters`. -/
@[simp] def condwriters : Kind → Bool
  | .reader => false
  | .writer => true

structure Rw (T : Type) where
  refcount : Int
  nwaitreaders : Int
  nwaitwriters : Int
  thread : T → Status Kind
  reads : T → Nat
  writes : T → Bool

inductive Op (T : Type) where
  | rdlock (t : T)
  | wrlock (t : T)
  | tryrdlock (t : T)
  | trywrlock (t : T)
  /-- `unlock`, with the thread that its signal wakes. -/
  | unlock (t : T) (woken : Option T)
  /-- A thread comes back from `pthread_cond_wait`. -/
  | resume (t : T)
  /-- A wakeup that no signal caused. -/
  | spurious (t : T)
  | cancel (t : T)
  deriving DecidableEq

variable {T : Type} [DecidableEq T]

-- ======== the operations

/-- A read lock is granted. -/
def takeRead (t : T) (s : Rw T) : Rw T :=
  { s with
    refcount := s.refcount + 1
    reads := update s.reads t (s.reads t + 1) }

/-- The write lock is granted. -/
def takeWrite (t : T) (s : Rw T) : Rw T :=
  { s with
    refcount := -1
    writes := update s.writes t true }

/-- The thread is counted and blocks in `pthread_cond_wait`. -/
def block (k : Kind) (t : T) (s : Rw T) : Rw T :=
  match k with
  | .reader => { s with
      nwaitreaders := s.nwaitreaders + 1
      thread := update s.thread t (.waiting .reader) }
  | .writer => { s with
      nwaitwriters := s.nwaitwriters + 1
      thread := update s.thread t (.waiting .writer) }

/-- The thread is out of `pthread_cond_wait`, with the mutex, and no longer
counted. -/
def leaveWait (k : Kind) (t : T) (s : Rw T) : Rw T :=
  match k with
  | .reader => { s with
      nwaitreaders := s.nwaitreaders - 1
      thread := update s.thread t .out }
  | .writer => { s with
      nwaitwriters := s.nwaitwriters - 1
      thread := update s.thread t .out }

/-- A reader must wait: a writer holds the lock, or writers wait. -/
def Busy (s : Rw T) : Prop := s.refcount < 0 ∨ s.nwaitwriters > 0

instance (s : Rw T) : Decidable (Busy s) := inferInstanceAs (Decidable (_ ∨ _))

/-- `pthread_rwlock_rdlock` from the test of its loop. -/
def rdlock (t : T) (s : Rw T) : Rw T :=
  if Busy s then block .reader t s else takeRead t s

/-- `pthread_rwlock_wrlock` from the test of its loop. -/
def wrlock (t : T) (s : Rw T) : Rw T :=
  if s.refcount ≠ 0 then block .writer t s else takeWrite t s

/-- `pthread_rwlock_tryrdlock`; it fails with `EBUSY`. -/
def tryrdlock (t : T) (s : Rw T) : Rw T :=
  if Busy s then s else takeRead t s

/-- `pthread_rwlock_trywrlock`; it fails with `EBUSY`. -/
def trywrlock (t : T) (s : Rw T) : Rw T :=
  if s.refcount ≠ 0 then s else takeWrite t s

/-- A thread that was woken goes on in its loop. -/
def resume (t : T) (s : Rw T) : Option (Rw T) :=
  match s.thread t with
  | .woken .reader => some (rdlock t (leaveWait .reader t s))
  | .woken .writer => some (wrlock t (leaveWait .writer t s))
  | _ => none

/-- `rwlock_cancelrdwait` and `rwlock_cancelwrwait`. -/
def cancel (t : T) (s : Rw T) : Option (Rw T) :=
  match s.thread t with
  | .waiting k | .woken k => some (leaveWait k t s)
  | .out => none

/-- The first half of `unlock`: a lock that the thread holds is released.
With another `rw_refcount` it dumps core. -/
def release (t : T) (s : Rw T) : Option (Rw T) :=
  if s.refcount > 0 then
    if 0 < s.reads t then
      some { s with
        refcount := s.refcount - 1
        reads := update s.reads t (s.reads t - 1) }
    else none
  else if s.refcount = -1 then
    if s.writes t then
      some { s with
        refcount := 0
        writes := update s.writes t false }
    else none
  else none

variable [Fintype T]

/-- The second half of `unlock`. `onlyFree`: a writer is signalled only
when the lock is free. -/
def handOver (onlyFree : Bool) (woken : Option T) (s : Rw T) : Option (Rw T) :=
  if s.nwaitwriters > 0 then
    (signalIf (onlyFree = false ∨ s.refcount = 0) condwriters s.thread
      woken).map fun thread => { s with thread := thread }
  else if woken ≠ none then none
  else if s.nwaitreaders > 0 then
    some { s with thread := broadcast condreaders s.thread }
  else some s

/-- `pthread_rwlock_unlock`, of either lock. -/
def unlock (onlyFree : Bool) (t : T) (woken : Option T) (s : Rw T) : Option (Rw T) :=
  (release t s).bind (handOver onlyFree woken)

/-- A call by a thread that is outside. -/
def call (s : Rw T) (t : T) (s' : Rw T) : Option (Rw T) :=
  if s.thread t = .out then some s' else none

/-- One step of `my_rwlock`, in which no thread is cancelled. -/
def step : Op T → Rw T → Option (Rw T)
  | .rdlock t, s => call s t (rdlock t s)
  | .wrlock t, s => call s t (wrlock t s)
  | .tryrdlock t, s => call s t (tryrdlock t s)
  | .trywrlock t, s => call s t (trywrlock t s)
  | .unlock t woken, s =>
    if s.thread t = .out then unlock true t woken s else none
  | .resume t, s => resume t s
  | .spurious t, s =>
    (stir s.thread t).map fun thread => { s with thread := thread }
  | .cancel _, _ => none

/-- One step of `my_rwlock_cancel`, without its try operations. -/
def cancelStep : Op T → Rw T → Option (Rw T)
  | .unlock t woken, s =>
    if s.thread t = .out then unlock false t woken s else none
  | .cancel t, s => cancel t s
  | .tryrdlock _, _ | .trywrlock _, _ => none
  | o, s => step o s

/-- `pthread_rwlock_init`. -/
def Rw.init (T : Type) : Rw T :=
  ⟨0, 0, 0, fun _ => .out, fun _ => 0, fun _ => false⟩

-- ======== the purpose

/-- The read locks that are held. -/
def Rw.readers (s : Rw T) : Nat := ∑ t, s.reads t

/-- The threads that hold the write lock. -/
def Rw.writers (s : Rw T) : Nat := ∑ t, (s.writes t).toNat

/-- The readers and the writers blocked with no wakeup pending, and those
with one. -/
def Rw.blockedR (s : Rw T) : Nat := num (Status.isWaiting condreaders) s.thread
def Rw.blockedW (s : Rw T) : Nat := num (Status.isWaiting condwriters) s.thread
def Rw.pendingR (s : Rw T) : Nat := num (Status.isWoken condreaders) s.thread
def Rw.pendingW (s : Rw T) : Nat := num (Status.isWoken condwriters) s.thread

/-- The lock is free and no writer is counted, yet a reader is blocked, no
wakeup is pending, and nobody holds a lock that could be unlocked. -/
def Stranded (s : Rw T) : Prop :=
  s.refcount = 0 ∧ s.nwaitwriters = 0 ∧ 0 < s.blockedR ∧
    s.pendingR = 0 ∧ s.pendingW = 0 ∧ s.readers = 0 ∧ s.writers = 0

instance (s : Rw T) : Decidable (Stranded s) :=
  inferInstanceAs (Decidable (_ ∧ _ ∧ _ ∧ _ ∧ _ ∧ _ ∧ _))

/-- A cancellation that strands nobody: if the lock is free, no other
writer waits and another reader is blocked, then another thread has a
wakeup pending. -/
def Careful : Op T → Rw T → Prop
  | .cancel t, s =>
    s.refcount = 0 →
    (∀ u, u ≠ t → s.thread u ≠ .waiting .writer ∧ s.thread u ≠ .woken .writer) →
    (∃ u, u ≠ t ∧ s.thread u = .waiting .reader) →
    ∃ u, u ≠ t ∧ (s.thread u = .woken .reader ∨ s.thread u = .woken .writer)
  | _, _ => True

instance : (o : Op T) → (s : Rw T) → Decidable (Careful o s)
  | .cancel t, s => inferInstanceAs (Decidable (s.refcount = 0 →
      (∀ u, u ≠ t → s.thread u ≠ .waiting .writer ∧ s.thread u ≠ .woken .writer) →
      (∃ u, u ≠ t ∧ s.thread u = .waiting .reader) → ∃ u, u ≠ t ∧ (s.thread u = .woken .reader ∨
        s.thread u = .woken .writer)))
  | .rdlock _, _ => .isTrue trivial
  | .wrlock _, _ => .isTrue trivial
  | .tryrdlock _, _ => .isTrue trivial
  | .trywrlock _, _ => .isTrue trivial
  | .unlock _ _, _ => .isTrue trivial
  | .resume _, _ => .isTrue trivial
  | .spurious _, _ => .isTrue trivial

end LearnLinux.Rwlock
