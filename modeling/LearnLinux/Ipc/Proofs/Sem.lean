/-
The mapped semaphore counts right, and loses a wakeup at a post that finds
the count positive.

The threads that will take the count are those with a wakeup pending. As
long as somebody is blocked, `Covered` asks that there are at least as
many of them as the count says. Every step keeps it, except a post that
raises the count over the pending wakeups without a signal; from there the
woken threads run, one unit each, and the last unit is left with the
blocked threads (`stranded_of_careless`).
-/
import LearnLinux.Ipc.Sem

set_option linter.unusedSectionVars false

namespace LearnLinux.Semaphore

open Function (update)
open LearnLinux.Lib

variable {T : Type} [Fintype T] [DecidableEq T]
variable {s s' : Sem T} {t : T} {woken : Option T} {value : Nat} {o : Op T}

-- ======== what a step does

/-- The loop of `mysem_wait`: one more is blocked, or one unit is taken. -/
theorem waitLoop_cases (t : T) (s : Sem T) : (s.count = 0 ∧ waitLoop t s
      = { s with thread := update s.thread t (.waiting ()) }) ∨ (0 < s.count ∧ waitLoop t s
      = { s with
          count := s.count - 1
          thread := update s.thread t .out
          takes := s.takes + 1 }) := by
  by_cases hc : s.count = 0
  · exact .inl ⟨hc, if_pos hc⟩
  · exact .inr ⟨Nat.pos_of_ne_zero hc, if_neg hc⟩

/-- A post raises the count, and signals when it was 0. -/
theorem post_cases (h : post woken s = some s') :
    ∃ thread, s' = { s with
        count := (s.count + 1) % uintMod
        thread := thread
        posts := s.posts + 1 } ∧
      ((0 < s.count ∧ thread = s.thread) ∨
       (s.count = 0 ∧ signal sem_cond s.thread woken = some thread)) := by
  obtain ⟨thread, hthread, hs'⟩ := Option.map_eq_some_iff.mp h
  refine ⟨thread, hs'.symm, ?_⟩
  rcases signalIf_cases hthread with ⟨hc, rfl⟩ | hsig
  · exact .inl ⟨Nat.pos_of_ne_zero hc, rfl⟩
  · exact .inr hsig

/-- What one thread adds to the blocked and to the pending ones. -/
theorem blocked_update (thread : T → Status Unit) (t : T) (x : Status Unit) :
    num (Status.isWaiting sem_cond) (update thread t x)
        + ((thread t).isWaiting sem_cond).toNat = num (Status.isWaiting sem_cond) thread
        + (x.isWaiting sem_cond).toNat ∧ num (Status.isWoken sem_cond) (update thread t x)
        + ((thread t).isWoken sem_cond).toNat = num (Status.isWoken sem_cond) thread
        + (x.isWoken sem_cond).toNat :=
  ⟨num_update _ thread t x, num_update _ thread t x⟩

/-- A signal turns a blocked thread into a pending wakeup. -/
theorem signal_counts {thread thread' : T → Status Unit}
    (h : signal sem_cond thread woken = some thread') :
    (num (Status.isWaiting sem_cond) thread = 0 ∧ thread' = thread) ∨
    (num (Status.isWaiting sem_cond) thread' + 1 = num (Status.isWaiting sem_cond) thread ∧
      num (Status.isWoken sem_cond) thread' = num (Status.isWoken sem_cond) thread + 1) := by
  rcases signal_cases h with hnone | ⟨t, k, hk, -, rfl⟩
  · exact .inl hnone
  · right
    have hup := blocked_update thread t (.woken k)
    rw [hk] at hup
    exact hup

-- ======== the counter

/-- The count is what was there and posted and has not been taken. -/
def Balanced (value : Nat) (s : Sem T) : Prop :=
  s.count + s.takes = value + s.posts

theorem Balanced.waitLoop (hb : Balanced value s) : Balanced value (waitLoop t s) := by
  unfold Balanced at *
  rcases waitLoop_cases t s with ⟨-, h⟩ | ⟨hc, h⟩
  · rw [h]
    exact hb
  · rw [h]
    show s.count - 1 + (s.takes + 1) = value + s.posts
    omega

theorem Balanced.step (hb : Balanced value s)
    (hgood : NoOverflow o s) (h : step o s = some s') : Balanced value s' := by
  cases o with
  | post t woken =>
    simp only [Semaphore.step] at h
    split at h
    · obtain ⟨thread, rfl, -⟩ := post_cases h
      unfold Balanced at *
      show (s.count + 1) % uintMod + s.takes = value + (s.posts + 1)
      rw [Nat.mod_eq_of_lt hgood]
      omega
    · cases h
  | wait t | resume t =>
    simp only [Semaphore.step] at h
    split at h
    · cases h
      exact hb.waitLoop
    · cases h
  | trywait t =>
    simp only [Semaphore.step, trywait] at h
    split at h
    · split at h
      · cases h
        unfold Balanced at *
        show s.count - 1 + (s.takes + 1) = value + s.posts
        omega
      · cases h
        exact hb
    · cases h
  | spurious t =>
    obtain ⟨thread, -, rfl⟩ := Option.map_eq_some_iff.mp h
    exact hb

-- ======== the wakeups

/-- While somebody is blocked, the pending wakeups cover the count. -/
def Covered (s : Sem T) : Prop := 0 < s.blocked → s.count ≤ s.pending

theorem Covered.not_stranded (hc : Covered s) : ¬ Stranded s := by
  rintro ⟨hcount, hblocked, hpending⟩
  have := hc hblocked
  omega

/-- A thread from outside, or a woken one, at the test of the loop. -/
theorem Covered.waitLoop (hc : Covered s) (ht : (s.thread t).isWaiting sem_cond = false) :
    Covered (waitLoop t s) := by
  have hle := Bool.toNat_le ((s.thread t).isWoken sem_cond)
  unfold Covered Sem.blocked Sem.pending at *
  rcases waitLoop_cases t s with ⟨hz, h⟩ | ⟨hpos, h⟩
  · rw [h]
    intro _
    show s.count ≤ _
    omega
  · rw [h]
    intro hb
    obtain ⟨h1, h2⟩ := blocked_update s.thread t .out
    rw [ht] at h1
    have hb' : 0 < num (Status.isWaiting sem_cond) s.thread := by
      rw [← Nat.add_zero (num _ s.thread)]
      exact h1 ▸ hb
    show s.count - 1 ≤ num (Status.isWoken sem_cond) (update s.thread t .out)
    omega

theorem Covered.step (hc : Covered s) (hgood : Careful o s)
    (h : step o s = some s') : Covered s' := by
  cases o with
  | post t woken =>
    simp only [Semaphore.step] at h
    split at h
    · obtain ⟨hlt, hcare⟩ := hgood
      obtain ⟨thread, rfl, hcase⟩ := post_cases h
      intro hb
      show (s.count + 1) % uintMod ≤ num (Status.isWoken sem_cond) thread
      rw [Nat.mod_eq_of_lt hlt]
      have hb' : 0 < num (Status.isWaiting sem_cond) thread := hb
      rcases hcase with ⟨hpos, rfl⟩ | ⟨hz, hsig⟩
      · rcases hcare with hcare | hcare | hcare
        · omega
        · exact absurd hcare (Nat.ne_of_gt hb')
        · exact hcare
      · rcases signal_counts hsig with ⟨hnone, rfl⟩ | ⟨-, hw⟩
        · omega
        · omega
    · cases h
  | wait t | resume t =>
    simp only [Semaphore.step] at h
    split at h
    · rename_i ht
      cases h
      exact hc.waitLoop (by rw [ht]; rfl)
    · cases h
  | trywait t =>
    simp only [Semaphore.step, trywait] at h
    split at h
    · split at h
      · cases h
        intro hb
        have := hc hb
        show s.count - 1 ≤ s.pending
        omega
      · cases h
        exact hc
    · cases h
  | spurious t =>
    obtain ⟨thread, hst, rfl⟩ := Option.map_eq_some_iff.mp h
    obtain ⟨k, hk, rfl⟩ := stir_cases hst
    obtain ⟨h1, h2⟩ := blocked_update s.thread t (.woken k)
    rw [hk] at h1 h2
    simp only [Status.isWaiting, Status.isWoken, sem_cond,
      Bool.toNat_true, Bool.toNat_false] at h1 h2
    unfold Covered Sem.blocked Sem.pending at *
    intro hb
    show s.count ≤ num (Status.isWoken sem_cond) (update s.thread t (.woken k))
    omega

-- ======== a post that is not careful

/-- With one unit more than pending wakeups, the woken threads run and one
unit is left. -/
theorem runs_to_stranded : ∀ (m : Nat) {s : Sem T}, s.pending = m →
    s.count = m + 1 → 0 < s.blocked → ∃ os s', runOps step os s = some s' ∧ Stranded s' := by
  intro m
  induction m with
  | zero =>
    intro s hp hc hb
    exact ⟨[], s, rfl, by omega, hb, hp⟩
  | succ m ih =>
    intro s hp hc hb
    obtain ⟨t, ht⟩ := num_pos_iff.mp (show 0 < s.pending by omega)
    have hwoken : s.thread t = .woken () := by
      cases hk : s.thread t with
      | woken k => rfl
      | out | waiting k =>
        rw [hk] at ht
        cases ht
    have hstep : step (.resume t) s = some (waitLoop t s) := if_pos hwoken
    obtain ⟨h1, h2⟩ := blocked_update s.thread t .out
    rw [hwoken] at h1 h2
    rcases waitLoop_cases t s with ⟨hz, -⟩ | ⟨-, hloop⟩
    · omega
    · rw [hloop] at hstep
      have hpend : num (Status.isWoken sem_cond) (update s.thread t .out) + 1
          = num (Status.isWoken sem_cond) s.thread + 0 := h2
      have hblk : num (Status.isWaiting sem_cond) (update s.thread t .out) + 0
          = num (Status.isWaiting sem_cond) s.thread + 0 := h1
      unfold Sem.pending at hp
      unfold Sem.blocked at hb
      obtain ⟨os, s', hrun, hstr⟩ := ih
        (s := { s with
          count := s.count - 1
          thread := update s.thread t .out
          takes := s.takes + 1 })
        (show num (Status.isWoken sem_cond) (update s.thread t .out) = m by omega)
        (show s.count - 1 = m + 1 by omega)
        (show 0 < num (Status.isWaiting sem_cond) (update s.thread t .out) by omega)
      refine ⟨.resume t :: os, s', ?_, hstr⟩
      rw [runOps, hstep]
      exact hrun

/-- A post that is not careful leads to a stranded thread. -/
theorem stranded_of_careless (hc : Covered s)
    (hover : NoOverflow o s) (h : step o s = some s') (hbad : ¬ Careful o s) :
    ∃ os s'', runOps step os s' = some s'' ∧ Stranded s'' := by
  cases o with
  | wait t | trywait t | resume t | spurious t => exact absurd trivial hbad
  | post t woken =>
    have hlt : s.count + 1 < uintMod := hover
    have hnot : ¬ (s.count = 0 ∨ s.blocked = 0 ∨ s.count < s.pending) :=
      fun hcare => hbad ⟨hlt, hcare⟩
    have hblocked : 0 < s.blocked := by omega
    have hcover := hc hblocked
    simp only [Semaphore.step] at h
    split at h
    · obtain ⟨thread, rfl, hcase⟩ := post_cases h
      rcases hcase with ⟨-, rfl⟩ | ⟨hz, -⟩
      · refine runs_to_stranded s.pending rfl ?_ hblocked
        show (s.count + 1) % uintMod = s.pending + 1
        rw [Nat.mod_eq_of_lt hlt]
        omega
      · exact absurd (.inl hz) hnot
    · cases h

-- ======== the result

/-- Over every run of the semaphore: the count is the initial value with
the completed posts and without the completed waits, as long as it does
not overflow; and as long as every post is careful no state strands a
thread, while from the first post that is not a stranded state is
reached. -/
theorem semaphore_wakeups {value : Nat} {os : List (Op T)}
    (h : runOps step os (Sem.init T value) = some s) :
    (Meets step NoOverflow os (Sem.init T value) → s.count + s.takes = value + s.posts) ∧
    (Meets step Careful os (Sem.init T value) → ¬ Stranded s ∧
      ∀ o s', NoOverflow o s → step o s = some s' → ¬ Careful o s →
        ∃ os' s'', runOps step os' s' = some s'' ∧ Stranded s'') := by
  refine ⟨fun hm => ?_, fun hm => ?_⟩
  · exact runOps_invariant (I := Balanced value)
      (fun _ _ _ hb hg hstep => hb.step hg hstep) hm h rfl
  · have hinit : Covered (Sem.init T value) := by
      intro hb
      obtain ⟨t, ht⟩ := num_pos_iff.mp hb
      cases ht
    have hc := runOps_invariant
      (fun _ _ _ hc hg hstep => hc.step hg hstep) hm h hinit
    exact ⟨hc.not_stranded, fun o s' hover hstep hbad =>
      stranded_of_careless hc hover hstep hbad⟩

/-- A thread waits, is woken by a post and takes the unit. -/
theorem semaphore_wakeups_one : ∃ s, runOps step [.wait 0, .post 1 (some 0), .resume 0]
      (Sem.init (Fin 2) 0) = some s ∧ s.takes = 1 ∧ ¬ Stranded s := by
  exact exists_checked Careful (Sem.takes · = 1) (by decide +kernel)
    fun s hm hrun hval => ⟨hval, ((semaphore_wakeups hrun).2 hm).1⟩

/-- Threads 0 and 1 wait; the first post wakes thread 0, the second finds
the count at 1 and signals nobody; thread 0 takes one unit, and thread 1
stays blocked on a count of 1. -/
theorem semaphore_loses_wakeup : ¬ ∀ (os : List (Op (Fin 4)))
    (s : Sem (Fin 4)), runOps step os (Sem.init (Fin 4) 0) = some s → ¬ Stranded s := by
  intro hall
  have heval : ((runOps step [.wait 0, .wait 1, .post 2 (some 0),
      .post 3 none, .resume 0] (Sem.init (Fin 4) 0)).map fun s =>
        decide (Stranded s)) = some true := by decide +kernel
  obtain ⟨s, hrun, hstr⟩ := Option.map_eq_some_iff.mp heval
  exact hall _ s hrun (of_decide_eq_true hstr)

end LearnLinux.Semaphore
