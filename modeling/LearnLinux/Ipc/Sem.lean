/-
The semaphore of `my_pxsem_mmap`: a counter, a mutex and one condition
variable in a mapped file.

The three operations on an open semaphore (its magic number is right, and
`pthread_mutex_lock` returns 0). `mysem_post` signals only when it finds
the counter at 0, and `sem_count` is an unsigned int. `posts` and `takes`
are no fields of the source: they count the operations completed.
-/
import LearnLinux.Lib.Monitor
import LearnLinux.Lib.Run

namespace LearnLinux.Semaphore

open LearnLinux.Lib

structure Sem (T : Type) where
  /-- `sem_count`. -/
  count : Nat
  thread : T → Status Unit
  posts : Nat
  takes : Nat

/-- One past `UINT_MAX`. -/
def uintMod : Nat := 2 ^ 32

inductive Op (T : Type) where
  /-- `mysem_post`, with the thread that its signal wakes. -/
  | post (t : T) (woken : Option T)
  | wait (t : T)
  | trywait (t : T)
  /-- A thread comes back from `pthread_cond_wait`. -/
  | resume (t : T)
  /-- A wakeup that no signal caused. -/
  | spurious (t : T)
  deriving DecidableEq

variable {T : Type} [Fintype T] [DecidableEq T]

/-- The test all waiters wait for: there is one condition variable. -/
def sem_cond : Unit → Bool := fun _ => true

/-- The loop of `mysem_wait` from its test, by a thread with the mutex. -/
def waitLoop (t : T) (s : Sem T) : Sem T :=
  if s.count = 0 then
    { s with thread := Function.update s.thread t (.waiting ()) }
  else
    { s with
      count := s.count - 1
      thread := Function.update s.thread t .out
      takes := s.takes + 1 }

/-- `mysem_post`: the signal is sent when the count is 0. -/
def post (woken : Option T) (s : Sem T) : Option (Sem T) :=
  (signalIf (s.count = 0) sem_cond s.thread woken).map fun thread =>
    { s with
      count := (s.count + 1) % uintMod
      thread := thread
      posts := s.posts + 1 }

/-- `mysem_trywait`; with the count at 0 it fails with `EAGAIN`. -/
def trywait (s : Sem T) : Sem T :=
  if 0 < s.count then
    { s with count := s.count - 1, takes := s.takes + 1 }
  else s

/-- One step. Only a thread that is outside can call, and only a woken one
can come back. -/
def step : Op T → Sem T → Option (Sem T)
  | .post t woken, s => if s.thread t = .out then post woken s else none
  | .wait t, s => if s.thread t = .out then some (waitLoop t s) else none
  | .trywait t, s => if s.thread t = .out then some (trywait s) else none
  | .resume t, s =>
    if s.thread t = .woken () then some (waitLoop t s) else none
  | .spurious t, s =>
    (stir s.thread t).map fun thread => { s with thread := thread }

/-- The semaphore as `mysem_open` makes it. -/
def Sem.init (T : Type) (value : Nat) : Sem T :=
  ⟨value, fun _ => .out, 0, 0⟩

/-- The threads blocked in `pthread_cond_wait` with no wakeup pending. -/
def Sem.blocked (s : Sem T) : Nat := num (Status.isWaiting sem_cond) s.thread

/-- The wakeups that are pending. -/
def Sem.pending (s : Sem T) : Nat := num (Status.isWoken sem_cond) s.thread

/-- The count is positive, some thread is blocked, and no wakeup is
pending: all threads that have not finished are blocked for good. -/
def Stranded (s : Sem T) : Prop :=
  0 < s.count ∧ 0 < s.blocked ∧ s.pending = 0

instance (s : Sem T) : Decidable (Stranded s) :=
  inferInstanceAs (Decidable (_ ∧ _ ∧ _))

/-- A post that the semaphore can take: the counter does not overflow. -/
def NoOverflow : Op T → Sem T → Prop
  | .post _ _, s => s.count + 1 < uintMod
  | _, _ => True

/-- A post that loses no wakeup: it finds the count at 0 and signals, or
nobody is blocked, or the pending wakeups exceed the count. -/
def Careful : Op T → Sem T → Prop
  | .post _ _, s =>
    s.count + 1 < uintMod ∧ (s.count = 0 ∨ s.blocked = 0 ∨ s.count < s.pending)
  | _, _ => True

instance : (o : Op T) → (s : Sem T) → Decidable (Careful o s)
  | .post _ _, _ => inferInstanceAs (Decidable (_ ∧ (_ ∨ _ ∨ _)))
  | .wait _, _ => .isTrue trivial
  | .trywait _, _ => .isTrue trivial
  | .resume _, _ => .isTrue trivial
  | .spurious _, _ => .isTrue trivial

end LearnLinux.Semaphore
