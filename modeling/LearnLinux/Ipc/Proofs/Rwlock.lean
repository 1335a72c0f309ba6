/-
`my_rwlock` is a read-write lock, and strands nobody.

`Acct` ties the three counters to the threads, for both locks: it is kept
by each of the moves an operation is made of (a lock granted or released,
a thread blocked or back from its wait, a wakeup), so every operation
keeps it. On top of it, what the wakeups guarantee: in `my_rwlock`, a free
lock that writers wait for has a writer woken, and no reader is left
blocked when none waits (`Lively`).
-/
import LearnLinux.Ipc.Rwlock

set_option linter.unusedSectionVars false

namespace LearnLinux.Rwlock

open Function (update update_self update_of_ne)
open LearnLinux.Lib

variable {T : Type} [DecidableEq T] [Fintype T]
variable {s s' : Rw T} {t : T} {k : Kind} {onlyFree : Bool} {woken : Option T} {o : Op T}

-- ======== the counts

/-- The four numbers of waiting threads, where one thread changes from `x`
to `y`. -/
theorem counts_of_update (s' : Rw T) {x y : Status Kind} (hx : s.thread t = x)
    (h : s'.thread = update s.thread t y) : s'.blockedR + (x.isWaiting condreaders).toNat
      = s.blockedR + (y.isWaiting condreaders).toNat ∧ s'.blockedW + (x.isWaiting condwriters).toNat
      = s.blockedW + (y.isWaiting condwriters).toNat ∧ s'.pendingR + (x.isWoken condreaders).toNat
      = s.pendingR + (y.isWoken condreaders).toNat ∧ s'.pendingW + (x.isWoken condwriters).toNat
      = s.pendingW + (y.isWoken condwriters).toNat := by
  unfold Rw.blockedR Rw.blockedW Rw.pendingR Rw.pendingW
  rw [h, ← hx]
  exact ⟨num_update _ s.thread t y, num_update _ s.thread t y,
    num_update _ s.thread t y, num_update _ s.thread t y⟩

theorem readers_update (reads : T → Nat) (t : T) (n : Nat) :
    ∑ u, update reads t n u + reads t = ∑ u, reads u + n := by
  have h := sum_swap t fun u hu => update_of_ne hu n reads
  rwa [update_self] at h

theorem writers_update (writes : T → Bool) (t : T) (b : Bool) :
    ∑ u, (update writes t b u).toNat + (writes t).toNat = ∑ u, (writes u).toNat + b.toNat := by
  have h := sum_swap (f := fun u => (update writes t b u).toNat) t fun u hu => by
      rw [update_of_ne hu]
  simpa using h

/-- The counters say what the threads do. -/
structure Acct (s : Rw T) : Prop where
  held : (s.writers = 0 ∧ s.refcount = s.readers) ∨
    (s.writers = 1 ∧ s.readers = 0 ∧ s.refcount = -1)
  nreaders : s.nwaitreaders = s.blockedR + s.pendingR
  nwriters : s.nwaitwriters = s.blockedW + s.pendingW

theorem acct_init : Acct (Rw.init T) where
  held := .inl ⟨by simp [Rw.init, Rw.writers], by simp [Rw.init, Rw.readers]⟩
  nreaders := by
    simp [Rw.init, Rw.blockedR, Rw.pendingR, num, Status.isWaiting, Status.isWoken]
  nwriters := by
    simp [Rw.init, Rw.blockedW, Rw.pendingW, num, Status.isWaiting, Status.isWoken]

-- ======== the moves

theorem Acct.takeRead (ha : Acct s) (hfree : ¬ Busy s) : Acct (takeRead t s) := by
  unfold Busy at hfree
  refine ⟨.inl ?_, ha.nreaders, ha.nwriters⟩
  have hup := readers_update s.reads t (s.reads t + 1)
  rcases ha.held with ⟨hw, hr⟩ | ⟨-, -, hr⟩
  · refine ⟨hw, ?_⟩
    show s.refcount + 1 = ((∑ u, update s.reads t (s.reads t + 1) u : Nat) : Int)
    unfold Rw.readers at hr
    omega
  · omega

theorem Acct.takeWrite (ha : Acct s) (hfree : s.refcount = 0) : Acct (takeWrite t s) := by
  refine ⟨.inr ?_, ha.nreaders, ha.nwriters⟩
  have hup := writers_update s.writes t true
  rcases ha.held with ⟨hw, hr⟩ | ⟨-, -, hr⟩
  · have ht : s.writes t = false := by
      have := Finset.sum_eq_zero_iff.mp hw t (Finset.mem_univ t)
      cases hwt : s.writes t with
      | false => rfl
      | true =>
        rw [hwt] at this
        cases this
    rw [ht] at hup
    refine ⟨?_, ?_, rfl⟩
    · show ∑ u, (update s.writes t true u).toNat = 1
      unfold Rw.writers at hw
      simp only [Bool.toNat_false, Bool.toNat_true] at hup
      omega
    · show s.readers = 0
      omega
  · omega

/-- A thread that blocks is one more that waits in its loop. -/
theorem block_counts (ht : s.thread t = .out) :
    (block k t s).blockedR = s.blockedR + (condreaders k).toNat ∧
    (block k t s).blockedW = s.blockedW + (condwriters k).toNat ∧
    (block k t s).pendingR = s.pendingR ∧ (block k t s).pendingW = s.pendingW := by
  have hc := counts_of_update (block k t s) (y := .waiting k) ht (by cases k <;> rfl)
  simpa using hc

/-- What blocking and leaving the wait do to the counters. -/
theorem block_nwait (k : Kind) (t : T) (s : Rw T) :
    (block k t s).nwaitreaders = s.nwaitreaders + (condreaders k).toNat ∧
    (block k t s).nwaitwriters = s.nwaitwriters + (condwriters k).toNat ∧
    (leaveWait k t s).nwaitreaders = s.nwaitreaders - (condreaders k).toNat ∧
    (leaveWait k t s).nwaitwriters = s.nwaitwriters - (condwriters k).toNat := by
  cases k <;> simp [block, leaveWait]

theorem Acct.block (ha : Acct s) (ht : s.thread t = .out) : Acct (block k t s) := by
  obtain ⟨h1, h2, h3, h4⟩ := block_counts (k := k) ht
  obtain ⟨hnr, hnw, -⟩ := block_nwait k t s
  have hr := ha.nreaders
  have hw := ha.nwriters
  refine ⟨?_, by omega, by omega⟩
  cases k <;> exact ha.held

/-- A woken thread that leaves its wait takes its wakeup with it. -/
theorem leaveWait_counts (ht : s.thread t = .woken k) : (leaveWait k t s).blockedR = s.blockedR ∧
    (leaveWait k t s).blockedW = s.blockedW ∧
    (leaveWait k t s).pendingR + (condreaders k).toNat = s.pendingR ∧
    (leaveWait k t s).pendingW + (condwriters k).toNat = s.pendingW := by
  have hc := counts_of_update (leaveWait k t s) (y := .out) ht (by cases k <;> rfl)
  simpa using hc

/-- A thread that is cancelled before it is woken. -/
theorem leaveWait_counts_waiting (ht : s.thread t = .waiting k) :
    (leaveWait k t s).blockedR + (condreaders k).toNat = s.blockedR ∧
    (leaveWait k t s).blockedW + (condwriters k).toNat = s.blockedW ∧
    (leaveWait k t s).pendingR = s.pendingR ∧ (leaveWait k t s).pendingW = s.pendingW := by
  have hc := counts_of_update (leaveWait k t s) (y := .out) ht (by cases k <;> rfl)
  simpa using hc

theorem Acct.leaveWait (ha : Acct s) (ht : s.thread t = .woken k ∨ s.thread t = .waiting k) :
    Acct (leaveWait k t s) := by
  have hr := ha.nreaders
  have hw := ha.nwriters
  have hsum : (Rwlock.leaveWait k t s).blockedR
        + (Rwlock.leaveWait k t s).pendingR + (condreaders k).toNat = s.blockedR + s.pendingR ∧
      (Rwlock.leaveWait k t s).blockedW + (Rwlock.leaveWait k t s).pendingW + (condwriters k).toNat
      = s.blockedW + s.pendingW := by
    rcases ht with ht | ht
    · have := leaveWait_counts ht
      omega
    · have := leaveWait_counts_waiting ht
      omega
  obtain ⟨-, -, hnr, hnw⟩ := block_nwait k t s
  refine ⟨?_, by omega, by omega⟩
  cases k <;> exact ha.held

/-- The state with one thread woken. -/
abbrev wake (k : Kind) (t : T) (s : Rw T) : Rw T :=
  { s with thread := update s.thread t (.woken k) }

/-- A wakeup turns a blocked thread into a pending one. -/
theorem wake_counts (ht : s.thread t = .waiting k) :
    (wake k t s).blockedR + (condreaders k).toNat = s.blockedR ∧
    (wake k t s).blockedW + (condwriters k).toNat = s.blockedW ∧
    (wake k t s).pendingR = s.pendingR + (condreaders k).toNat ∧
    (wake k t s).pendingW = s.pendingW + (condwriters k).toNat := by
  simpa using counts_of_update (wake k t s) ht rfl

theorem Acct.wake (ha : Acct s) (ht : s.thread t = .waiting k) : Acct (wake k t s) := by
  have hc := wake_counts ht
  have hr := ha.nreaders
  have hw := ha.nwriters
  refine ⟨ha.held, ?_, ?_⟩
  · show s.nwaitreaders = _
    omega
  · show s.nwaitwriters = _
    omega

/-- A broadcast wakes all readers, and leaves the writers alone. -/
theorem broadcast_counts : Rw.blockedR { s with thread := broadcast condreaders s.thread } = 0 ∧
    Rw.blockedW { s with thread := broadcast condreaders s.thread } = s.blockedW ∧
    Rw.pendingR { s with thread := broadcast condreaders s.thread } = s.blockedR + s.pendingR ∧
    Rw.pendingW { s with thread := broadcast condreaders s.thread } = s.pendingW := by
  unfold Rw.blockedR Rw.blockedW Rw.pendingR Rw.pendingW num
  rw [← Finset.sum_add_distrib, Finset.sum_eq_zero_iff]
  refine ⟨fun u _ => ?_, Finset.sum_congr rfl fun u _ => ?_, Finset.sum_congr rfl fun u _ => ?_,
    Finset.sum_congr rfl fun u _ => ?_⟩ <;>
  · simp only [broadcast]
    cases s.thread u with
    | out => rfl
    | woken k | waiting k => cases k <;> rfl

theorem Acct.broadcast (ha : Acct s) :
    Acct { s with thread := broadcast condreaders s.thread } := by
  obtain ⟨h1, h2, h3, h4⟩ := broadcast_counts (s := s)
  have hr := ha.nreaders
  have hw := ha.nwriters
  refine ⟨ha.held, ?_, ?_⟩
  · show s.nwaitreaders = _
    omega
  · show s.nwaitwriters = _
    omega

/-- The release of a lock that the caller holds. -/
theorem release_cases (h : release t s = some s') :
    s'.thread = s.thread ∧ s'.nwaitreaders = s.nwaitreaders ∧ s'.nwaitwriters = s.nwaitwriters ∧
      ((s.refcount > 0 ∧ 0 < s.reads t ∧ s'.refcount = s.refcount - 1 ∧
        s'.reads = update s.reads t (s.reads t - 1) ∧ s'.writes = s.writes) ∨
       (s.refcount = -1 ∧ s.writes t = true ∧ s'.refcount = 0 ∧ s'.reads = s.reads ∧
        s'.writes = update s.writes t false)) := by
  unfold release at h
  split at h
  · rename_i hpos
    split at h
    · rename_i hread
      cases h
      exact ⟨rfl, rfl, rfl, .inl ⟨hpos, hread, rfl, rfl, rfl⟩⟩
    · cases h
  · split at h
    · rename_i hone
      split at h
      · rename_i hwrite
        cases h
        exact ⟨rfl, rfl, rfl, .inr ⟨hone, hwrite, rfl, rfl, rfl⟩⟩
      · cases h
    · cases h

theorem Acct.release (ha : Acct s) (h : release t s = some s') : Acct s' := by
  obtain ⟨hthread, hnr, hnw, hcase⟩ := release_cases h
  have hr := ha.nreaders
  have hw := ha.nwriters
  refine ⟨?_, ?_, ?_⟩
  · rcases hcase with ⟨hpos, hread, hrc, hreads, hwrites⟩ | ⟨hone, hwrite, hrc, hreads, hwrites⟩
    · have hup := readers_update s.reads t (s.reads t - 1)
      rcases ha.held with ⟨hwz, hrr⟩ | ⟨-, -, hrr⟩
      · left
        unfold Rw.writers Rw.readers at *
        rw [hwrites, hreads, hrc]
        omega
      · omega
    · have hup := writers_update s.writes t false
      rw [hwrite] at hup
      rcases ha.held with ⟨-, hrr⟩ | ⟨hwz, hrz, -⟩
      · omega
      · left
        unfold Rw.writers Rw.readers at *
        rw [hwrites, hreads, hrc]
        simp only [Bool.toNat_true, Bool.toNat_false] at hup
        omega
  · rw [hnr, Rw.blockedR, Rw.pendingR, hthread]
    exact hr
  · rw [hnw, Rw.blockedW, Rw.pendingW, hthread]
    exact hw

-- ======== the operations

theorem Acct.rdlock (ha : Acct s) (ht : s.thread t = .out) : Acct (rdlock t s) := by
  unfold Rwlock.rdlock
  split
  · exact ha.block ht
  · exact ha.takeRead ‹_›

theorem Acct.wrlock (ha : Acct s) (ht : s.thread t = .out) : Acct (wrlock t s) := by
  unfold Rwlock.wrlock
  split
  · exact ha.block ht
  · rename_i hfree
    exact ha.takeWrite (not_not.mp hfree)

theorem leaveWait_thread : (leaveWait k t s).thread t = .out := by
  cases k <;> exact update_self ..

theorem resume_cases (h : resume t s = some s') : (s.thread t = .woken .reader ∧
      s' = rdlock t (leaveWait .reader t s)) ∨ (s.thread t = .woken .writer ∧
      s' = wrlock t (leaveWait .writer t s)) := by
  unfold resume at h
  split at h
  · rename_i ht
    exact .inl ⟨ht, (Option.some.inj h).symm⟩
  · rename_i ht
    exact .inr ⟨ht, (Option.some.inj h).symm⟩
  · cases h

theorem Acct.resume (ha : Acct s) (h : resume t s = some s') : Acct s' := by
  rcases resume_cases h with ⟨ht, rfl⟩ | ⟨ht, rfl⟩
  · exact (ha.leaveWait (.inl ht)).rdlock leaveWait_thread
  · exact (ha.leaveWait (.inl ht)).wrlock leaveWait_thread

/-- Who is woken when a lock was released. -/
theorem handOver_cases (h : handOver onlyFree woken s = some s') :
    (s.nwaitwriters > 0 ∧ onlyFree = true ∧ s.refcount ≠ 0 ∧ s' = s) ∨
    (s.nwaitwriters > 0 ∧ s.blockedW = 0 ∧ s' = s) ∨
    (s.nwaitwriters > 0 ∧ ∃ u, s.thread u = .waiting .writer ∧
      s' = { s with
        thread := update s.thread u (.woken .writer) }) ∨
    (s.nwaitwriters ≤ 0 ∧ s.nwaitreaders > 0 ∧
      s' = { s with thread := broadcast condreaders s.thread }) ∨
    (s.nwaitwriters ≤ 0 ∧ s.nwaitreaders ≤ 0 ∧ s' = s) := by
  unfold handOver at h
  split at h
  · rename_i hpos
    obtain ⟨thread, hsig, rfl⟩ := Option.map_eq_some_iff.mp h
    rcases signalIf_cases hsig with ⟨hno, rfl⟩ | ⟨-, hsig⟩
    · left
      simp only [not_or, Bool.not_eq_false] at hno
      exact ⟨hpos, hno.1, hno.2, rfl⟩
    · rcases signal_cases hsig with ⟨hnone, rfl⟩ | ⟨u, k, hu, hk, rfl⟩
      · exact .inr (.inl ⟨hpos, hnone, rfl⟩)
      · cases k with
        | reader => cases hk
        | writer => exact .inr (.inr (.inl ⟨hpos, u, hu, rfl⟩))
  · rename_i hpos
    split at h
    · cases h
    · split at h
      · rename_i hread
        cases h
        exact .inr (.inr (.inr (.inl ⟨by omega, hread, rfl⟩)))
      · rename_i hread
        cases h
        exact .inr (.inr (.inr (.inr ⟨by omega, by omega, rfl⟩)))

theorem Acct.handOver (ha : Acct s) (h : handOver onlyFree woken s = some s') : Acct s' := by
  rcases handOver_cases h with ⟨-, -, -, rfl⟩ | ⟨-, -, rfl⟩ | ⟨-, u, hu, rfl⟩ |
    ⟨-, -, rfl⟩ | ⟨-, -, rfl⟩
  · exact ha
  · exact ha
  · exact ha.wake hu
  · exact ha.broadcast
  · exact ha

/-- A call is made by a thread from outside. -/
theorem call_cases {r : Rw T} (h : call s t r = some s') : s.thread t = .out ∧ s' = r := by
  unfold call at h
  split at h
  · rename_i ht
    exact ⟨ht, (Option.some.inj h).symm⟩
  · cases h

theorem unlock_cases
    (h : (if s.thread t = .out then unlock onlyFree t woken s else none) = some s') :
    s.thread t = .out ∧ ∃ s1, release t s = some s1 ∧ handOver onlyFree woken s1 = some s' := by
  split at h
  · rename_i ht
    exact ⟨ht, Option.bind_eq_some_iff.mp h⟩
  · cases h

theorem Acct.step (ha : Acct s) (h : step o s = some s') : Acct s' := by
  cases o with
  | rdlock t =>
    obtain ⟨ht, rfl⟩ := call_cases h
    exact ha.rdlock ht
  | wrlock t =>
    obtain ⟨ht, rfl⟩ := call_cases h
    exact ha.wrlock ht
  | tryrdlock t =>
    obtain ⟨ht, rfl⟩ := call_cases h
    unfold tryrdlock
    split
    · exact ha
    · exact ha.takeRead ‹_›
  | trywrlock t =>
    obtain ⟨ht, rfl⟩ := call_cases h
    unfold trywrlock
    split
    · exact ha
    · rename_i hfree
      exact ha.takeWrite (not_not.mp hfree)
  | unlock t woken =>
    obtain ⟨-, s1, h1, h2⟩ := unlock_cases h
    exact (ha.release h1).handOver h2
  | resume t => exact ha.resume h
  | spurious t =>
    obtain ⟨thread, hst, rfl⟩ := Option.map_eq_some_iff.mp h
    obtain ⟨k, hk, rfl⟩ := stir_cases hst
    exact ha.wake hk
  | cancel t => cases h

-- ======== the wakeups

/-- A free lock that writers wait for has a writer woken, and readers are
blocked only while a writer holds the lock or waits. -/
structure Lively (s : Rw T) : Prop where
  writer : s.refcount = 0 → 0 < s.nwaitwriters → 0 < s.pendingW
  reader : 0 ≤ s.refcount → s.nwaitwriters = 0 → s.blockedR = 0

theorem lively_init : Lively (Rw.init T) where
  writer _ h := absurd h (Int.lt_irrefl 0)
  reader _ _ := num_eq_zero_iff.mpr fun _ => rfl

theorem Lively.takeRead (hl : Lively s) (hfree : ¬ Busy s) (ha : Acct s) :
    Lively (takeRead t s) := by
  unfold Busy at hfree
  have hw := ha.nwriters
  refine ⟨fun hrc => ?_, fun _ hnw => hl.reader (by omega) hnw⟩
  have : s.refcount + 1 = 0 := hrc
  omega

/-- With a writer in possession nothing is asked. -/
theorem lively_takeWrite : Lively (takeWrite t s) := by
  refine ⟨fun hrc => ?_, fun hrc => ?_⟩
  · have : (-1 : Int) = 0 := hrc
    omega
  · have : (0 : Int) ≤ -1 := hrc
    omega

theorem Lively.rdlock (hl : Lively s) (ha : Acct s)
    (ht : s.thread t = .out) : Lively (rdlock t s) := by
  unfold Rwlock.rdlock
  split
  · rename_i hbusy
    obtain ⟨-, -, -, h4⟩ := block_counts ht
    refine ⟨fun hrc hnw => ?_, fun hrc hnw => ?_⟩
    · rw [h4]
      exact hl.writer hrc hnw
    · have hrc' : 0 ≤ s.refcount := hrc
      have hnw' : s.nwaitwriters = 0 := hnw
      unfold Busy at hbusy
      omega
  · rename_i hfree
    exact hl.takeRead hfree ha

/-- A writer that blocks finds the lock taken, and is counted. -/
theorem lively_wrlock (ha : Acct s) : Lively (wrlock t s) := by
  unfold Rwlock.wrlock
  split
  · rename_i hrc
    have hw := ha.nwriters
    refine ⟨fun hrc' => absurd hrc' hrc, fun _ hnw => ?_⟩
    have : s.nwaitwriters + 1 = 0 := hnw
    omega
  · exact lively_takeWrite

/-- After an unlock the right threads are woken, whatever was before. -/
theorem lively_handOver (ha : Acct s) (h : handOver true woken s = some s') : Lively s' := by
  have hr := ha.nreaders
  have hw := ha.nwriters
  rcases handOver_cases h with ⟨hpos, -, hrc, rfl⟩ | ⟨hpos, hb, rfl⟩ |
    ⟨hpos, u, hu, rfl⟩ | ⟨hpos, hread, rfl⟩ | ⟨hpos, hread, rfl⟩
  · exact ⟨fun hrc' => absurd hrc' hrc, fun _ hnw => by omega⟩
  · exact ⟨fun _ _ => by omega, fun _ hnw => by omega⟩
  · refine ⟨fun _ _ => ?_, fun _ hnw => ?_⟩
    · exact num_pos_iff.mpr ⟨u, by simp⟩
    · have : s.nwaitwriters = 0 := hnw
      omega
  · refine ⟨fun _ hnw => ?_, fun _ _ => broadcast_counts.1⟩
    have : 0 < s.nwaitwriters := hnw
    omega
  · exact ⟨fun _ hnw => by omega, fun _ _ => by omega⟩

/-- A wakeup harms nothing. -/
theorem Lively.wake (hl : Lively s) (ht : s.thread t = .waiting k) : Lively (wake k t s) := by
  have hc := wake_counts ht
  refine ⟨fun hrc hnw => ?_, fun hrc hnw => ?_⟩
  · have := hl.writer hrc hnw
    omega
  · have := hl.reader hrc hnw
    omega

theorem Lively.step (hl : Lively s) (ha : Acct s) (h : step o s = some s') : Lively s' := by
  cases o with
  | rdlock t =>
    obtain ⟨ht, rfl⟩ := call_cases h
    exact hl.rdlock ha ht
  | wrlock t =>
    obtain ⟨-, rfl⟩ := call_cases h
    exact lively_wrlock ha
  | tryrdlock t =>
    obtain ⟨ht, rfl⟩ := call_cases h
    unfold tryrdlock
    split
    · exact hl
    · rename_i hfree
      exact hl.takeRead hfree ha
  | trywrlock t =>
    obtain ⟨ht, rfl⟩ := call_cases h
    unfold trywrlock
    split
    · exact hl
    · exact lively_takeWrite
  | unlock t woken =>
    obtain ⟨-, s1, h1, h2⟩ := unlock_cases h
    exact lively_handOver (ha.release h1) h2
  | resume t =>
    rcases resume_cases h with ⟨ht, rfl⟩ | ⟨ht, rfl⟩
    · have hleave := ha.leaveWait (.inl ht)
      obtain ⟨h1, -, -, h4⟩ := leaveWait_counts ht
      refine Lively.rdlock ⟨fun hrc hnw => ?_, fun hrc hnw => ?_⟩ hleave leaveWait_thread
      · have := hl.writer hrc hnw
        simp only [condwriters, Bool.toNat_false] at h4
        omega
      · have := hl.reader hrc hnw
        omega
    · exact lively_wrlock (ha.leaveWait (.inl ht))
  | spurious t =>
    obtain ⟨thread, hst, rfl⟩ := Option.map_eq_some_iff.mp h
    obtain ⟨k, hk, rfl⟩ := stir_cases hst
    exact hl.wake hk
  | cancel t => cases h

/-- A blocked thread that the state of the lock could let go on is not
forgotten: a writer is woken that will get the lock. -/
theorem Lively.progress (hl : Lively s) (ha : Acct s) (ht : s.thread t = .waiting k)
    (hfree : s.refcount = 0 ∨ (s.nwaitwriters = 0 ∧ 0 ≤ s.refcount)) :
    ∃ u s', s.thread u = .woken .writer ∧ Rwlock.step (.resume u) s = some s' ∧
      s'.writes u = true := by
  have hw := ha.nwriters
  have hrc : s.refcount = 0 ∧ 0 < s.nwaitwriters := by
    cases k with
    | reader =>
      have hb : 0 < s.blockedR := num_pos_iff.mpr ⟨t, by simp [ht]⟩
      have := hl.reader
      omega
    | writer =>
      have hb : 0 < s.blockedW := num_pos_iff.mpr ⟨t, by simp [ht]⟩
      omega
  obtain ⟨u, hu⟩ := num_pos_iff.mp (hl.writer hrc.1 hrc.2)
  obtain ⟨k', hk', hkw⟩ := Status.isWoken_iff.mp hu
  cases k' with
  | reader => cases hkw
  | writer =>
    have hres : Rwlock.step (.resume u) s = some (wrlock u (leaveWait .writer u s)) := by
      simp only [Rwlock.step, Rwlock.resume, hk']
    have hz : ¬ (leaveWait .writer u s).refcount ≠ 0 :=
      not_not.mpr hrc.1
    refine ⟨u, _, hk', hres, ?_⟩
    rw [Rwlock.wrlock, if_neg hz]
    exact update_self ..

/-- A holder can always unlock. -/
theorem Acct.can_unlock (ha : Acct s) (ht : s.thread t = .out)
    (hold : 0 < s.reads t ∨ s.writes t = true) :
    ∃ woken s', Rwlock.step (.unlock t woken) s = some s' := by
  have hle : s.reads t ≤ s.readers :=
    Finset.single_le_sum (fun _ _ => Nat.zero_le _) (Finset.mem_univ t)
  have hlew : (s.writes t).toNat ≤ s.writers :=
    Finset.single_le_sum (f := fun t => (s.writes t).toNat)
      (fun _ _ => Nat.zero_le _) (Finset.mem_univ t)
  have hrel : ∃ s1, Rwlock.release t s = some s1 := by
    unfold Rwlock.release
    rcases ha.held with ⟨hw, hr⟩ | ⟨-, hr, hrc⟩
    · rcases hold with hread | hwrite
      · rw [if_pos (by omega), if_pos hread]
        exact ⟨_, rfl⟩
      · rw [hwrite, hw] at hlew
        cases hlew
    · rcases hold with hread | hwrite
      · omega
      · rw [if_neg (by omega), if_pos hrc, if_pos hwrite]
        exact ⟨_, rfl⟩
  obtain ⟨s1, h1⟩ := hrel
  have hhand : ∃ woken s', Rwlock.handOver true woken s1 = some s' := by
    unfold Rwlock.handOver
    by_cases hpos : s1.nwaitwriters > 0
    · obtain ⟨u, thread, hsig⟩ :=
        exists_signalIf (true = false ∨ s1.refcount = 0) condwriters s1.thread
      refine ⟨u, { s1 with thread := thread }, ?_⟩
      rw [if_pos hpos, hsig]
      rfl
    · refine ⟨none, ?_⟩
      simp only [if_neg hpos, ne_eq, not_true_eq_false, if_false]
      split
      · exact ⟨_, rfl⟩
      · exact ⟨_, rfl⟩
  obtain ⟨woken, s', h2⟩ := hhand
  refine ⟨woken, s', ?_⟩
  simp only [Rwlock.step, if_pos ht, unlock, h1, Option.bind_some, h2]

-- ======== the result

/-- In every state of every run of `my_rwlock`: `rw_refcount` is -1 exactly
with one writer and no reader, and else the number of read locks; the
counts of waiters are the numbers of threads in the two loops; a holder
can unlock; and while a thread is blocked with the lock free, or held by
readers with no writer waiting, a writer is woken that will get the
lock. -/
theorem rwlock_correct {os : List (Op T)} (h : runOps step os (Rw.init T) = some s) :
    (s.refcount = -1 ↔ s.writers = 1 ∧ s.readers = 0) ∧
    (s.refcount ≠ -1 → s.writers = 0 ∧ s.refcount = s.readers) ∧
    s.nwaitreaders = s.blockedR + s.pendingR ∧ s.nwaitwriters = s.blockedW + s.pendingW ∧
    (∀ t, s.thread t = .out → (0 < s.reads t ∨ s.writes t = true) →
      ∃ woken s', step (.unlock t woken) s = some s') ∧ ∀ t k, s.thread t = .waiting k →
      (s.refcount = 0 ∨ (s.nwaitwriters = 0 ∧ 0 ≤ s.refcount)) →
      ∃ u s', s.thread u = .woken .writer ∧ step (.resume u) s = some s' ∧ s'.writes u = true := by
  obtain ⟨ha, hl⟩ := runOps_invariant_all (I := fun s => Acct s ∧ Lively s)
    (fun _ _ _ hs hstep => ⟨hs.1.step hstep, hs.2.step hs.1 hstep⟩) h ⟨acct_init, lively_init⟩
  refine ⟨?_, ?_, ha.nreaders, ha.nwriters, fun t ht hold => ha.can_unlock ht hold,
    fun t k ht hfree => hl.progress ha ht hfree⟩
  · rcases ha.held with ⟨hw, hr⟩ | ⟨hw, hr, hrc⟩
    · constructor
      · intro hrc
        omega
      · intro hone
        omega
    · exact ⟨fun _ => ⟨hw, hr⟩, fun _ => hrc⟩
  · intro hne
    rcases ha.held with hheld | ⟨-, -, hrc⟩
    · exact hheld
    · exact absurd hrc hne

/-- A reader holds the lock, a writer and another reader wait, the reader
unlocks: the writer is woken and will get the lock. -/
theorem rwlock_correct_three : ∃ s,
    runOps step [.rdlock 0, .wrlock 1, .rdlock 2, .unlock 0 (some 1)]
      (Rw.init (Fin 3)) = some s ∧ s.thread 2 = .waiting .reader ∧
    ∃ u s', s.thread u = .woken .writer ∧ step (.resume u) s = some s' ∧ s'.writes u = true := by
  have hrun : ∃ s, runOps step [.rdlock 0, .wrlock 1, .rdlock 2,
      .unlock 0 (some 1)] (Rw.init (Fin 3)) = some s ∧
      s.thread 2 = .waiting .reader ∧ s.refcount = 0 := by
    refine ⟨_, rfl, ?_, ?_⟩ <;> decide
  obtain ⟨s, h, ht, hrc⟩ := hrun
  exact ⟨s, h, ht, (rwlock_correct h).2.2.2.2.2 2 .reader ht (.inl hrc)⟩

end LearnLinux.Rwlock
