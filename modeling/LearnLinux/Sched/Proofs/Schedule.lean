/-
What `schedule` chooses, and for how long the time slices stay what they
are meant to be.

The search keeps the best counter seen so far (`scan_spec`); a counter
that is set again is at least the priority, so one round after that is
enough (`choose_two`). With exact sums this is all there is to it.

In 32 bits half a counter and a priority may be more than a `long` holds,
since `sys_nice` takes the priority as far as `2 ^ 31 - 1`. Such a sum is
stored as a negative number, at the next recalculation and at no other
place: `InLong` asks that there be none.
-/
import LearnLinux.Lib.Run
import LearnLinux.Sched.Schedule

namespace LearnLinux.Schedule

open Lib

variable {w : Int → Int} {t : Table} {p q : Task} {i n : Nat} {f : Task → Task} {x : Int}
variable {s : System}

-- ======== the search

/-- A task the search looks at. -/
def Runs (t : Table) (i : Nat) (p : Task) : Prop :=
  1 ≤ i ∧ i < NR_TASKS ∧ t i = some p ∧ p.state = .running

/-- `r` is the best among the tasks `1 .. n`, or none is better than `r₀`.
Ties go to the higher index. -/
structure Best (t : Table) (n : Nat) (r₀ r : Int × Nat) : Prop where
  le : r₀.1 ≤ r.1
  above : ∀ i p, i ≤ n → Runs t i p → p.counter ≤ r.1
  found : r = r₀ ∨ r₀.1 < r.1 ∧ r.2 ≤ n ∧ ∃ p, Runs t r.2 p ∧ p.counter = r.1 ∧
    ∀ i q, i ≤ n → r.2 < i → Runs t i q → q.counter < r.1

theorem look_cases (hi : 1 ≤ i) (hn : i < NR_TASKS) (r : Int × Nat) :
    (look t i r = r ∧ ∀ q, Runs t i q → q.counter ≤ r.1) ∨
      ∃ p, Runs t i p ∧ r.1 < p.counter ∧ look t i r = (p.counter, i) := by
  unfold look
  split
  · rename_i p hp
    split
    · rename_i hc
      exact .inr ⟨p, ⟨hi, hn, hp, hc.1⟩, hc.2, rfl⟩
    · rename_i hc
      refine .inl ⟨rfl, fun q hq => ?_⟩
      obtain rfl := Option.some.inj (hp.symm.trans hq.2.2.1)
      exact not_lt.mp fun h => hc ⟨hq.2.2.2, h⟩
  · rename_i hp
    exact .inl ⟨rfl, fun q hq => absurd (hp.symm.trans hq.2.2.1) nofun⟩

theorem scan_spec (hn : n < NR_TASKS) (r : Int × Nat) : Best t n r (scan t n r) := by
  induction n generalizing r with
  | zero => exact ⟨Int.le_refl _, fun i p hi hr => absurd hr.1 (by omega), .inl rfl⟩
  | succ n ih =>
    rw [scan]
    obtain ⟨hle, habove, hfound⟩ := ih (by omega) (look t (n + 1) r)
    have hlook := look_cases (t := t) (by omega) hn r
    have hge : r.1 ≤ (look t (n + 1) r).1 := by
      rcases hlook with ⟨h, -⟩ | ⟨p, -, hlt, h⟩
      · rw [h]
      · rw [h]
        exact hlt.le
    have hself : ∀ q, Runs t (n + 1) q → q.counter ≤ (look t (n + 1) r).1 := by
      rcases hlook with ⟨h, hall⟩ | ⟨p, hp, -, h⟩
      · rw [h]
        exact hall
      · intro q hq
        rw [h, Option.some.inj (hq.2.2.1.symm.trans hp.2.2.1)]
    refine ⟨hge.trans hle, fun i q hi hq => ?_, ?_⟩
    · rcases Nat.le_succ_iff.mp hi with hi | rfl
      · exact habove i q hi hq
      · exact (hself q hq).trans hle
    · rcases hfound with hr | ⟨hlt, hn', q, hq, hqc, htop⟩
      · rw [hr]
        rcases hlook with ⟨h, -⟩ | ⟨p, hp, hlt, h⟩
        · exact .inl h
        · rw [h]
          exact .inr ⟨hlt, Nat.le_refl _, p, hp, rfl, fun i q hi hlt => absurd hlt (by omega)⟩
      · refine .inr ⟨by omega, by omega, q, hq, hqc, fun i q' hi hlt' hq' => ?_⟩
        rcases Nat.le_succ_iff.mp hi with hi | rfl
        · exact htop i q' hi hlt' hq'
        · exact Int.lt_of_le_of_lt (hself q' hq') hlt

theorem search_spec (t : Table) : Best t (NR_TASKS - 1) (-1, 0) (search t) :=
  scan_spec (by decide) _

/-- The tasks that a recalculation is meant for. -/
def Fair (t : Table) : Prop :=
  ∀ i p, t i = some p → 0 ≤ p.counter ∧ 1 ≤ p.priority

theorem mapRest_eq_some : t.mapRest f i = some q ↔
    ∃ p, t i = some p ∧ q = if 1 ≤ i ∧ i < NR_TASKS then f p else p := by
  unfold Table.mapRest
  split <;> simp [eq_comm]

theorem alarmed_counter (jiffies : Int) : (p.alarmed jiffies).counter = p.counter ∧
    (p.alarmed jiffies).priority = p.priority := by
  unfold Task.alarmed
  dsimp only
  split <;> split <;> exact ⟨rfl, rfl⟩

/-- The pass over the alarms leaves the time slices alone. -/
theorem mapRest_alarmed {P : Int → Int → Prop} (jiffies : Int)
    (h : ∀ i p, t i = some p → P p.counter p.priority) (i : Nat) (p : Task)
    (hp : t.mapRest (Task.alarmed jiffies) i = some p) : P p.counter p.priority := by
  obtain ⟨q, hq, rfl⟩ := mapRest_eq_some.mp hp
  split
  · rw [(alarmed_counter jiffies).1, (alarmed_counter jiffies).2]
    exact h i q hq
  · exact h i q hq

/-- Where no counter of a running task is 0, the search is over. -/
theorem search_ne_zero (h : ∀ i p, Runs t i p → p.counter ≠ 0) : (search t).1 ≠ 0 := by
  rcases (search_spec t).found with hr | ⟨-, -, p, hp, hc, -⟩
  · rw [hr]
    decide
  · rw [← hc]
    exact h _ p hp

/-- If the counters set again are not 0, two rounds are enough. -/
theorem choose_two (h : ∀ i p, Runs (recalculate w t) i p → p.counter ≠ 0) (hn : 2 ≤ n) :
    choose w n t = some (if (search t).1 = 0 then
      ((search (recalculate w t)).2, recalculate w t) else ((search t).2, t)) := by
  obtain ⟨n, rfl⟩ := Nat.exists_eq_add_of_le hn
  rw [Nat.add_comm, choose, choose]
  by_cases h0 : (search t).1 = 0
  · simp [h0, search_ne_zero h]
  · simp [h0]

/-- A slice and a priority, as `long`s. -/
def InRange (counter priority : Int) : Prop :=
  (0 ≤ counter ∧ counter < 2 ^ 31) ∧ 1 ≤ priority ∧ priority < 2 ^ 31

def Sliced (t : Table) : Prop := ∀ i p, t i = some p → InRange p.counter p.priority

/-- The sums that a recalculation stores are `long`s, if there is one. -/
def InLong (t : Table) : Prop :=
  (search t).1 = 0 → ∀ i p, 1 ≤ i → i < NR_TASKS → t i = some p →
    p.counter / 2 + p.priority < 2 ^ 31

/-- The condition on a step: where it calls `schedule`. -/
def SumsFit (o : Op) (s : System) : Prop :=
  match o with
  | .tick cpl jiffies => (s.ticked long cpl).2 = true →
      InLong ((s.ticked long cpl).1.task.mapRest (Task.alarmed jiffies))
  | .schedule jiffies => InLong (s.task.mapRest (Task.alarmed jiffies))
  | _ => True

theorem long_of_bounds (h1 : -2 ^ 31 ≤ x) (h2 : x < 2 ^ 31) : long x = x := by
  unfold long
  rw [Int.bmod_eq_of_le] <;> omega

theorem long_neg (h1 : 2 ^ 31 ≤ x) (h2 : x < 2 ^ 32) : long x = x - 2 ^ 32 := by
  unfold long
  rw [Int.bmod_def]
  omega

theorem long_lt : long x < 2 ^ 31 := by
  unfold long
  have := Int.bmod_lt (x := x) (m := 2 ^ 32) (by decide)
  omega

theorem Sliced.fair (h : Sliced t) : Fair t := fun i p hp => ⟨(h i p hp).1.1, (h i p hp).2.1⟩

/-- One entry of the table changes. -/
theorem Sliced.update (h : Sliced t) {o : Option Task}
    (ho : ∀ p, o = some p → InRange p.counter p.priority) (i : Nat) :
    Sliced (Function.update t i o) := by
  intro j p hp
  rcases Lib.update_cases hp with ⟨-, hp⟩ | ⟨-, hp⟩
  · exact ho p hp
  · exact h j p hp

theorem Sliced.change (h : Sliced s.task)
    (hf : ∀ p, InRange p.counter p.priority → InRange (f p).counter (f p).priority) (i : Nat) :
    Sliced (s.change i f).task := by
  refine h.update (fun q hq => ?_) i
  obtain ⟨p, hp, rfl⟩ := Option.map_eq_some_iff.mp hq
  exact hf p (h i p hp)

theorem Sliced.ticked (h : Sliced s.task) (cpl : Bool) : Sliced (s.ticked long cpl).1.task := by
  refine h.change (fun p hp => ?_) _
  unfold InRange at hp ⊢
  simp only [Task.tick]
  rw [long_of_bounds] <;> omega

/-- `schedule` keeps the slices if and only if its sums fit. -/
theorem reschedule_iff {s' : System} {jiffies : Int} (hs : Sliced s.task)
    (h : s.reschedule long jiffies = some s') :
    (InLong (s.task.mapRest (Task.alarmed jiffies)) → Sliced s'.task) ∧
      (Fair s'.task → InLong (s.task.mapRest (Task.alarmed jiffies))) := by
  have hs1 : Sliced (s.task.mapRest (Task.alarmed jiffies)) := mapRest_alarmed jiffies hs
  unfold System.reschedule schedule at h
  generalize s.task.mapRest (Task.alarmed jiffies) = t at hs1 h ⊢
  rw [choose_two (fun i q hq => ?_) (le_refl 2)] at h
  · cases h
    split
    · rename_i h0
      refine ⟨fun hin i q hq => ?_, fun hfair _ i p h1 h2 hp => not_le.mp fun hbig => ?_⟩
      · obtain ⟨p, hp, rfl⟩ := mapRest_eq_some.mp hq
        have hr := hs1 i p hp
        split
        · rename_i hi
          have hsum := hin h0 i p hi.1 hi.2 hp
          unfold InRange at hr ⊢
          dsimp only
          rw [long_of_bounds] <;> omega
        · exact hr
      · have hr := hs1 i p hp
        have hq := (hfair i _ (mapRest_eq_some.mpr ⟨p, hp, rfl⟩)).1
        rw [if_pos ⟨h1, h2⟩] at hq
        unfold InRange at hr
        dsimp only at hq
        rw [long_neg] at hq <;> omega
    · rename_i h0
      exact ⟨fun _ => hs1, fun _ hc => absurd hc h0⟩
  · obtain ⟨p, hp, rfl⟩ := mapRest_eq_some.mp hq.2.2.1
    have hr := hs1 i p hp
    rw [if_pos ⟨hq.1, hq.2.1⟩]
    unfold InRange at hr
    dsimp only
    by_cases hbig : p.counter / 2 + p.priority < 2 ^ 31
    · rw [long_of_bounds] <;> omega
    · rw [long_neg] <;> omega

theorem sliced_step (o : Op) (s s' : System) (hs : Sliced s.task) (h : step long o s = some s') :
    (SumsFit o s → Sliced s'.task) ∧ (Fair s'.task → SumsFit o s) := by
  cases o with
  | nice increment =>
    cases h
    refine ⟨fun _ => hs.change (fun p hp => ?_) _, fun _ => trivial⟩
    unfold Task.nice
    split
    · rename_i hpos
      exact ⟨hp.1, hpos, long_lt⟩
    · exact hp
  | tick cpl jiffies =>
    simp only [step] at h
    split at h
    · rename_i hagain
      have := reschedule_iff (hs.ticked cpl) h
      exact ⟨fun hfit => this.1 (hfit hagain), fun hfair _ => this.2 hfair⟩
    · rename_i hagain
      cases h
      exact ⟨fun _ => hs.ticked cpl, fun _ hc => absurd hc hagain⟩
  | schedule jiffies => exact reschedule_iff hs h
  | fork nr =>
    rw [step] at h
    split at h
    · cases h
      refine ⟨fun _ => hs.update (fun q hq => ?_) nr, fun _ => trivial⟩
      obtain ⟨p, hp, rfl⟩ := Option.map_eq_some_iff.mp hq
      have hr := hs _ p hp
      exact ⟨⟨by have := hr.2.1; exact (by omega : 0 ≤ p.priority), hr.2.2⟩, hr.2⟩
    · cases h
  | setState i state =>
    cases h
    refine ⟨fun _ => hs.change (fun p hp => ?_) i, fun _ => trivial⟩
    exact hp

theorem sliced_boot : Sliced System.boot.task := by
  intro i p hp
  simp only [System.boot] at hp
  split at hp
  · cases hp
    exact ⟨by decide, by decide⟩
  · cases hp

/-- In 32 bits, from the first task on: every priority stays at least 1 and
every counter at least 0, in every state of a run, if and only if each
recalculation in it adds up to less than `2 ^ 31`, for every task. -/
theorem slices_stay_iff {os : List Op} {s' : System}
    (h : runOps (step long) os System.boot = some s') :
    Meets (step long) SumsFit os System.boot ↔ ∀ os₁ os₂ s₁, os = os₁ ++ os₂ →
      runOps (step long) os₁ System.boot = some s₁ → Fair s₁.task :=
  meets_iff_states
    (fun o s s' hs hfit h => (sliced_step o s s' hs h).1 hfit) (fun _ hs => hs.fair)
    (fun o s s' hs h hfair => (sliced_step o s s' hs h).2 hfair) h sliced_boot

/-- Without a recalculation nothing has to fit. -/
theorem slices_stay_iff_ticks : ∃ s, runOps (step long)
    [.fork 1, .nice (-100), .tick false 0] System.boot = some s ∧ Fair s.task := by
  have hm : Meets (step long) SumsFit [.fork 1, .nice (-100), .tick false 0] System.boot :=
    meets_of_forall (by simp [SumsFit, System.ticked]) _
  exact ⟨_, rfl, (slices_stay_iff rfl).mp hm _ [] _ (List.append_nil _).symm rfl⟩

/-- A task forks another, is given the highest priority and sleeps; the
other one uses up its slice. -/
def highPriority : List Op :=
  [.fork 1, .schedule 0, .fork 2, .nice (15 - (2 ^ 31 - 1)), .setState 1 .interruptible,
    .schedule 0] ++ List.replicate 15 (.tick false 0) ++ [.schedule 0]

/-- At the recalculation the counter of the sleeping task gets negative. -/
theorem slice_negative : ∃ s, runOps (step long) highPriority System.boot = some s ∧
    ¬ Fair s.task := by
  have hrun : ((runOps (step long) highPriority System.boot).bind fun s => s.task 1).map
      Task.counter = some (6 - 2 ^ 31) := by
    decide +kernel
  obtain ⟨p, hp, hc⟩ := Option.map_eq_some_iff.mp hrun
  obtain ⟨s, hs, hp⟩ := Option.bind_eq_some_iff.mp hp
  refine ⟨s, hs, fun hfair => ?_⟩
  have := (hfair 1 p hp).1
  omega

end LearnLinux.Schedule
