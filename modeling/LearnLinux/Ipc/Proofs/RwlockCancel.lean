/-
Cancellation in `my_rwlock_cancel`.

The counters stay right (`Acct`), and every operation but a cancellation
leaves the lock handed over: it is held, or a writer is counted, or no
reader is blocked, or a wakeup is pending. A cancelled thread takes itself
off the count and passes nothing on. So a state with a stranded reader is
reached exactly by a cancellation that leaves one.
-/
import LearnLinux.Ipc.Proofs.Rwlock

set_option linter.unusedSectionVars false

namespace LearnLinux.Rwlock

open LearnLinux.Lib

variable {T : Type} [DecidableEq T] [Fintype T]
variable {s s' : Rw T} {t : T} {o : Op T} {x : Status Kind}

-- ======== the counters

theorem cancel_cases (h : cancel t s = some s') :
    ∃ k, (s.thread t = .woken k ∨ s.thread t = .waiting k) ∧ s' = leaveWait k t s := by
  unfold cancel at h
  split at h
  · rename_i k hk
    exact ⟨k, .inr hk, (Option.some.inj h).symm⟩
  · rename_i k hk
    exact ⟨k, .inl hk, (Option.some.inj h).symm⟩
  · cases h

theorem Acct.cancelStep (ha : Acct s) (h : cancelStep o s = some s') : Acct s' := by
  cases o with
  | unlock t woken =>
    obtain ⟨-, s1, h1, h2⟩ := unlock_cases h
    exact (ha.release h1).handOver h2
  | cancel t =>
    obtain ⟨k, hk, rfl⟩ := cancel_cases h
    exact ha.leaveWait hk
  | rdlock t => exact Acct.step (o := .rdlock t) ha h
  | wrlock t => exact Acct.step (o := .wrlock t) ha h
  | resume t => exact Acct.step (o := .resume t) ha h
  | spurious t => exact Acct.step (o := .spurious t) ha h
  | tryrdlock t | trywrlock t => cases h

-- ======== handing over

theorem isWaiting_condreaders : x.isWaiting condreaders = true ↔ x = .waiting .reader := by
  rcases x with _ | ⟨_ | _⟩ | k <;> simp

theorem isWaiting_condwriters : x.isWaiting condwriters = true ↔ x = .waiting .writer := by
  rcases x with _ | ⟨_ | _⟩ | k <;> simp

theorem isWoken_condreaders : x.isWoken condreaders = true ↔ x = .woken .reader := by
  rcases x with _ | k | ⟨_ | _⟩ <;> simp

theorem isWoken_condwriters : x.isWoken condwriters = true ↔ x = .woken .writer := by
  rcases x with _ | k | ⟨_ | _⟩ <;> simp

/-- A free lock with no writer counted has no blocked reader, or a thread
with a wakeup. -/
def Handed (s : Rw T) : Prop :=
  s.refcount = 0 → s.nwaitwriters = 0 → 0 < s.blockedR → 0 < s.pendingR ∨ 0 < s.pendingW

theorem not_stranded_iff (ha : Acct s) : ¬ Stranded s ↔ Handed s := by
  have hheld := ha.held
  unfold Stranded Handed
  omega

theorem handed_rdlock : Handed (rdlock t s) := by
  unfold rdlock
  split
  · rename_i hbusy
    intro hrc hnw
    have hrc' : s.refcount = 0 := hrc
    have hnw' : s.nwaitwriters = 0 := hnw
    unfold Busy at hbusy
    omega
  · rename_i hfree
    intro hrc
    have hrc' : s.refcount + 1 = 0 := hrc
    unfold Busy at hfree
    omega

theorem handed_wrlock : Handed (wrlock t s) := by
  unfold wrlock
  split
  · rename_i hrc
    exact fun hrc' => absurd hrc' hrc
  · intro hrc
    have : (-1 : Int) = 0 := hrc
    omega

theorem handed_handOver {woken : Option T} (ha : Acct s)
    (h : handOver false woken s = some s') : Handed s' := by
  have hr := ha.nreaders
  rcases handOver_cases h with ⟨-, hf, -⟩ | ⟨hpos, -, rfl⟩ |
    ⟨hpos, u, -, rfl⟩ | ⟨-, -, rfl⟩ | ⟨-, hread, rfl⟩
  · cases hf
  · intro _ hnw
    omega
  · intro _ hnw
    have : s.nwaitwriters = 0 := hnw
    omega
  · intro _ _ hb
    rw [broadcast_counts.1] at hb
    cases hb
  · intro _ _ hb
    omega

theorem handed_wake {k : Kind} (ht : s.thread t = .waiting k) :
    Handed { s with thread := Function.update s.thread t (.woken k) } := by
  intro _ _ _
  cases k with
  | reader => exact .inl (num_pos_iff.mpr ⟨t, by simp⟩)
  | writer => exact .inr (num_pos_iff.mpr ⟨t, by simp⟩)

/-- A cancellation leaves the lock handed over exactly if it is careful:
the counts after it are those of the other threads. -/
theorem handed_cancel_iff (ha : Acct s) (h : cancel t s = some s') :
    Handed s' ↔ Careful (.cancel t) s := by
  obtain ⟨k, hk, rfl⟩ := cancel_cases h
  have hnw := (ha.leaveWait hk).nwriters
  have hrc : (leaveWait k t s).refcount = s.refcount := by cases k <;> rfl
  have hth : (leaveWait k t s).thread = Function.update s.thread t .out := by
    cases k <;> rfl
  unfold Handed Careful
  have hpos : ∀ {p : Status Kind → Bool}, p .out = false →
      (0 < num p (leaveWait k t s).thread ↔ ∃ u, u ≠ t ∧ p (s.thread u) = true) := by
    intro p hp
    rw [hth, num_out_pos_iff hp]
  have hbR : 0 < (leaveWait k t s).blockedR ↔ _ := hpos rfl
  have hpR : 0 < (leaveWait k t s).pendingR ↔ _ := hpos rfl
  have hbW : 0 < (leaveWait k t s).blockedW ↔ _ := hpos rfl
  have hpW : 0 < (leaveWait k t s).pendingW ↔ _ := hpos rfl
  simp only [isWaiting_condreaders, isWoken_condreaders, isWaiting_condwriters,
    isWoken_condwriters] at hbR hpR hbW hpW
  have hz : (leaveWait k t s).nwaitwriters = 0 ↔ ∀ u, u ≠ t → s.thread u ≠ .waiting .writer ∧
        s.thread u ≠ .woken .writer := by
    have hsum : (leaveWait k t s).nwaitwriters = 0 ↔ ¬ 0 < (leaveWait k t s).blockedW ∧
        ¬ 0 < (leaveWait k t s).pendingW := by omega
    rw [hsum, hbW, hpW]
    simp only [not_exists, not_and, ← forall_and]
  rw [hrc, hz, hbR, hpR, hpW, ← exists_or]
  simp only [← and_or_left]

theorem handed_iff (ha : Acct s) (h : cancelStep o s = some s') : Handed s' ↔ Careful o s := by
  cases o with
  | rdlock t =>
    obtain ⟨-, rfl⟩ := call_cases h
    exact iff_of_true handed_rdlock trivial
  | wrlock t =>
    obtain ⟨-, rfl⟩ := call_cases h
    exact iff_of_true handed_wrlock trivial
  | tryrdlock t | trywrlock t => cases h
  | unlock t woken =>
    obtain ⟨-, s1, h1, h2⟩ := unlock_cases h
    exact iff_of_true (handed_handOver (ha.release h1) h2) trivial
  | resume t =>
    refine iff_of_true ?_ trivial
    rcases resume_cases h with ⟨-, rfl⟩ | ⟨-, rfl⟩
    · exact handed_rdlock
    · exact handed_wrlock
  | spurious t =>
    obtain ⟨thread, hst, rfl⟩ := Option.map_eq_some_iff.mp h
    obtain ⟨k, hk, rfl⟩ := stir_cases hst
    exact iff_of_true (handed_wake hk) trivial
  | cancel t => exact handed_cancel_iff ha h

-- ======== the result

/-- Over any run with cancellations, no state has a stranded reader exactly
when every cancellation is careful. -/
theorem cancel_strands_nobody_iff {os : List (Op T)}
    (h : runOps cancelStep os (Rw.init T) = some s') : Meets cancelStep Careful os (Rw.init T) ↔
      ∀ os₁ os₂ s, os = os₁ ++ os₂ → runOps cancelStep os₁ (Rw.init T) = some s → ¬ Stranded s := by
  have hinit : Handed (Rw.init T) := by
    intro _ _ hb
    obtain ⟨t, ht⟩ := num_pos_iff.mp hb
    cases ht
  refine meets_iff_states (I := fun s => Acct s ∧ Handed s) (fun _ _ _ hI hg hstep =>
    ⟨hI.1.cancelStep hstep, (handed_iff hI.1 hstep).mpr hg⟩)
    (fun _ hI => (not_stranded_iff hI.1).mpr hI.2)
    (fun o s s' hI hstep hP => ?_) h ⟨acct_init, hinit⟩
  exact (handed_iff hI.1 hstep).mp ((not_stranded_iff (hI.1.cancelStep hstep)).mp hP)

/-- A writer is cancelled while it waits and another one waits too. -/
theorem cancel_strands_nobody_iff_four : ∃ s',
    runOps cancelStep [.rdlock 0, .wrlock 1, .wrlock 2, .rdlock 3,
      .cancel 1, .unlock 0 (some 2), .resume 2, .unlock 2 none, .resume 3]
      (Rw.init (Fin 4)) = some s' ∧
    ∀ os₁ os₂ s, [.rdlock 0, .wrlock 1, .wrlock 2, .rdlock 3, .cancel 1,
        .unlock 0 (some 2), .resume 2, .unlock 2 none, .resume 3] = os₁ ++ os₂ →
      runOps cancelStep os₁ (Rw.init (Fin 4)) = some s → ¬ Stranded s := by
  exact exists_checked Careful (fun _ => True) (by decide +kernel)
    fun s hm hrun _ => (cancel_strands_nobody_iff hrun).mp hm

/-- A reader holds the lock, a writer and another reader wait. The reader
unlocks and signals the writer, which is cancelled: the other reader stays
blocked, and nobody is left to wake it. -/
theorem cancelled_writer_strands_reader : ¬ ∀ (os : List (Op (Fin 3))) (s : Rw (Fin 3)),
      runOps cancelStep os (Rw.init (Fin 3)) = some s → ¬ Stranded s := by
  intro hall
  exact hall [.rdlock 0, .wrlock 1, .rdlock 2, .unlock 0 (some 1), .cancel 1]
    _ rfl (by decide +kernel)

end LearnLinux.Rwlock
