/-
`sleep_on` loses nobody.

The queue of `sleep_on` is a set of chains: each starts at `*p` or at a
task that was woken and has not run yet, and goes on through the saved
`tmp`s. `Chained` says so pointwise, over the pointers: they name sleepers
only, no two of them the same one, and every sleeper is named. A new
arrival takes over the chain of `*p`; `wake_up` and a returning task cut
the first link of a chain and make its target runnable.

What one `wake_up` does to the rest of the run is `Due`: a task that was
asleep at the `wake_up` is saved by another task that was in the call at
that time, so its waking never depends on a later arrival.
-/
import LearnLinux.Sched.Sleep

namespace LearnLinux.Sched

open Function (update update_self update_of_ne)
open LearnLinux.Lib

variable {s s' : Queue} {t a : Nat} {how : TaskState}
variable {x : Option Nat}

-- ======== what a step does

/-- What `sleep_on` up to `schedule` has done. -/
theorem enter_cases (h : enter s t how = some s') :
    t ≠ 0 ∧ s.frame t = none ∧ s.state t = .running ∧
      s' = { s with
        head := some t
        frame := update s.frame t (some s.head)
        state := update s.state t how } := by
  unfold enter at h
  split at h
  · rename_i hc
    exact ⟨hc.1, hc.2.1, hc.2.2, (Option.some.inj h).symm⟩
  · cases h

/-- What the rest of `sleep_on` has done. -/
theorem leave_cases (h : leave s t = some s') : ∃ tmp, s.frame t = some tmp ∧ s.state t = .running ∧
      s' = { s.wake tmp with frame := update s.frame t none } := by
  unfold leave at h
  split at h
  · rename_i tmp hf hr
    exact ⟨tmp, hf, hr, (Option.some.inj h).symm⟩
  · cases h

theorem elsewhere_cases (h : elsewhere s t how = some s') : s.frame t = none ∧
      s' = { s with state := update s.state t how } := by
  obtain ⟨hf, h⟩ := Option.ite_none_right_eq_some.mp h
  exact ⟨hf, (Option.some.inj h).symm⟩

theorem wake_frame : (s.wake x).frame = s.frame := by
  cases x <;> rfl

theorem wake_head : (s.wake x).head = s.head := by
  cases x <;> rfl

/-- Setting one state to 0 leaves the other states alone. -/
theorem wake_state : (s.wake x).state a = if x = some a then .running else s.state a := by
  cases x with
  | none => rfl
  | some b =>
    by_cases hb : a = b
    · subst hb
      simp [Queue.wake]
    · simp [Queue.wake, hb, Ne.symm hb]

variable {how : TaskState} {tmp : Option Nat} {o : Op} {os : List Op} {O : Nat → Prop}

theorem wake_sleeps (s : Queue) (x : Option Nat) (a : Nat) (hhow : how ≠ .running) :
    (s.wake x).Sleeps a how ↔ s.Sleeps a how ∧ x ≠ some a := by
  unfold Queue.Sleeps Queue.Inside
  rw [wake_frame, wake_state]
  by_cases hx : x = some a
  · simp [hx, hhow.symm]
  · simp [hx]

/-- After the first half of the call the caller sleeps too, and has saved
the old `*p`. -/
theorem enter_sleeps (h : enter s t how = some s') (a : Nat) :
    s'.Sleeps a how ↔ a = t ∨ s.Sleeps a how := by
  obtain ⟨-, hf, -, rfl⟩ := enter_cases h
  unfold Queue.Sleeps Queue.Inside
  by_cases ha : a = t
  · subst ha
    simp
  · simp [ha]

theorem enter_saved (h : enter s t how = some s') (u a : Nat) : s'.frame u = some (some a) ↔
      (u = t ∧ s.head = some a) ∨ s.frame u = some (some a) := by
  obtain ⟨-, hf, -, rfl⟩ := enter_cases h
  by_cases hu : u = t
  · subst hu
    simp [hf]
  · simp [hu]

/-- A task that returns wakes the task it saved, and no other. -/
theorem return_sleeps {x : Option Nat} (hr : s.state t = .running)
    (hhow : how ≠ .running) (a : Nat) :
    Queue.Sleeps { s.wake tmp with
      head := x, frame := update s.frame t none } a how ↔
      s.Sleeps a how ∧ tmp ≠ some a := by
  rw [← wake_sleeps s tmp a hhow]
  unfold Queue.Sleeps Queue.Inside
  by_cases ha : a = t
  · subst ha
    simp [wake_state, hr, hhow.symm]
  · simp [ha, wake_frame]

theorem leave_asleep (hf : s.frame t = some tmp)
    (hr : s.state t = .running) (h : leave s t = some s') (a : Nat) :
    s'.Asleep a ↔ s.Asleep a ∧ tmp ≠ some a := by
  obtain ⟨tmp', hf', -, rfl⟩ := leave_cases h
  rw [hf] at hf'
  cases hf'
  exact return_sleeps hr (by decide) a

theorem leave_saved (h : leave s t = some s') (u a : Nat) :
    s'.frame u = some (some a) ↔ u ≠ t ∧ s.frame u = some (some a) := by
  obtain ⟨tmp, -, -, rfl⟩ := leave_cases h
  by_cases hu : u = t
  · subst hu
    simp
  · simp [hu]

theorem wakeUp_sleeps (hhow : how ≠ .running) :
    (wakeUp s).Sleeps a how ↔ s.Sleeps a how ∧ s.head ≠ some a :=
  wake_sleeps s s.head a hhow

theorem wakeUp_frame (s : Queue) : (wakeUp s).frame = s.frame :=
  wake_frame

theorem elsewhere_sleeps {st : TaskState} (h : elsewhere s t st = some s') (a : Nat) :
    s'.Sleeps a how ↔ s.Sleeps a how := by
  obtain ⟨hf, rfl⟩ := elsewhere_cases h
  unfold Queue.Sleeps Queue.Inside
  by_cases ha : a = t
  · subst ha
    simp [hf]
  · simp [ha]

-- ======== the invariant

/-- The pointers of the queue name sleepers, each sleeper is named, and by
one pointer only. -/
structure Chained (s : Queue) : Prop where
  head_asleep : ∀ a, s.head = some a → s.Asleep a
  saved_asleep : ∀ t a, s.frame t = some (some a) → s.Asleep a
  saved_once : ∀ t u a, s.frame t = some (some a) → s.frame u = some (some a) → t = u
  head_alone : ∀ t a, s.head = some a → s.frame t ≠ some (some a)
  named : ∀ a, s.Asleep a → s.head = some a ∨ ∃ t, s.frame t = some (some a)
  /-- A task in the call is asleep or was woken. -/
  inside_state : ∀ t, s.Inside t → s.state t = .running ∨ s.state t = .uninterruptible
  /-- A task saved a task that came before it. -/
  ranked : ∃ rank : Nat → Nat, ∀ t a, s.frame t = some (some a) → rank a < rank t
  finite : {t | s.Inside t}.Finite

theorem chained_empty (state : Nat → TaskState) (signal : Nat → Bool) :
    Chained (Queue.empty state signal) where
  head_asleep a h := by cases h
  saved_asleep t a h := by cases h
  saved_once t u a h := by cases h
  head_alone t a h := by cases h
  named a h := absurd h.1 Bool.false_ne_true
  inside_state t h := absurd h Bool.false_ne_true
  ranked := ⟨fun _ => 0, fun t a h => by cases h⟩
  finite := by
    refine (Set.finite_empty).subset fun t h => ?_
    exact absurd h Bool.false_ne_true

section

variable (hc : Chained s)
include hc

/-- A new arrival heads the chain of `*p`. -/
theorem Chained.enter (h : enter s t .uninterruptible = some s') : Chained s' := by
  have hasleep := enter_sleeps h
  have hsaved := enter_saved h
  obtain ⟨-, hf, hr, rfl⟩ := enter_cases h
  -- nobody refers to a task outside the queue
  have hnot : ¬ s.Asleep t := by
    intro ht
    exact absurd ht.1 (by simp [Queue.Inside, hf])
  refine ⟨fun a ha => ?_, fun u a hu => ?_, fun u v a hu hv => ?_,
    fun u a ha hu => ?_, fun a ha => ?_, fun u hu => ?_, ?_, ?_⟩
  · cases ha
    exact (hasleep t).mpr (.inl rfl)
  · refine (hasleep a).mpr (.inr ?_)
    rcases (hsaved u a).mp hu with ⟨-, hh⟩ | hs
    · exact hc.head_asleep a hh
    · exact hc.saved_asleep u a hs
  · rcases (hsaved u a).mp hu with ⟨rfl, hh⟩ | hs
    · rcases (hsaved v a).mp hv with ⟨rfl, -⟩ | hs'
      · rfl
      · exact absurd hs' (hc.head_alone v a hh)
    · rcases (hsaved v a).mp hv with ⟨rfl, hh⟩ | hs'
      · exact absurd hs (hc.head_alone u a hh)
      · exact hc.saved_once u v a hs hs'
  · cases ha
    rcases (hsaved u t).mp hu with ⟨-, hh⟩ | hs
    · exact hnot (hc.head_asleep t hh)
    · exact hnot (hc.saved_asleep u t hs)
  · rcases (hasleep a).mp ha with rfl | ha
    · exact .inl rfl
    · rcases hc.named a ha with hh | ⟨u, hu⟩
      · exact .inr ⟨t, (hsaved t a).mpr (.inl ⟨rfl, hh⟩)⟩
      · exact .inr ⟨u, (hsaved u a).mpr (.inr hu)⟩
  · by_cases hut : u = t
    · subst hut
      exact .inr (update_self ..)
    · have hin : s.Inside u := by
        simpa [Queue.Inside, hut] using hu
      simpa [hut] using hc.inside_state u hin
  · -- the caller gets a rank above the task it saves
    obtain ⟨rank, hrank⟩ := hc.ranked
    refine ⟨update rank t (s.head.elim 0 rank + 1), ?_⟩
    intro u a hu
    have hat : a ≠ t := by
      rintro rfl
      rcases (hsaved u a).mp hu with ⟨-, hh⟩ | hs
      · exact hnot (hc.head_asleep a hh)
      · exact hnot (hc.saved_asleep u a hs)
    rw [update_of_ne hat]
    rcases (hsaved u a).mp hu with ⟨rfl, hh⟩ | hs
    · rw [update_self, hh]
      exact Nat.lt_succ_self _
    · have hut : u ≠ t := by
        rintro rfl
        rw [hf] at hs
        cases hs
      rw [update_of_ne hut]
      exact hrank u a hs
  · refine (hc.finite.insert t).subset fun u hu => ?_
    by_cases hut : u = t
    · exact Set.mem_insert_iff.mpr (.inl hut)
    · refine Set.mem_insert_iff.mpr (.inr ?_)
      simpa [Queue.Inside, hut] using hu

/-- A returning task cuts its own link. -/
theorem Chained.leave (h : leave s t = some s') : Chained s' := by
  have hsaved := leave_saved h
  obtain ⟨tmp, hf, hr, hs'⟩ := leave_cases h
  have hasleep := leave_asleep hf hr h
  subst hs'
  refine ⟨fun a ha => ?_, fun u a hu => ?_, fun u v a hu hv => ?_,
    fun u a ha hu => ?_, fun a ha => ?_, fun u hu => ?_, ?_, ?_⟩
  · have hh : s.head = some a := by rwa [← wake_head]
    refine (hasleep a).mpr ⟨hc.head_asleep a hh, ?_⟩
    rintro rfl
    exact hc.head_alone t a hh hf
  · obtain ⟨hut, hu'⟩ := (hsaved u a).mp hu
    refine (hasleep a).mpr ⟨hc.saved_asleep u a hu', ?_⟩
    rintro rfl
    exact hut (hc.saved_once u t a hu' hf)
  · exact hc.saved_once u v a ((hsaved u a).mp hu).2 ((hsaved v a).mp hv).2
  · have hh : s.head = some a := by rwa [← wake_head]
    exact hc.head_alone u a hh ((hsaved u a).mp hu).2
  · obtain ⟨ha, hne⟩ := (hasleep a).mp ha
    rcases hc.named a ha with hh | ⟨u, hu⟩
    · exact .inl (wake_head.trans hh)
    · refine .inr ⟨u, (hsaved u a).mpr ⟨?_, hu⟩⟩
      rintro rfl
      rw [hf] at hu
      exact hne (Option.some.inj hu)
  · have hut : u ≠ t := by
      rintro rfl
      exact absurd hu (by simp [Queue.Inside])
    have hin : s.Inside u := by simpa [Queue.Inside, hut] using hu
    rw [wake_state]
    split
    · exact .inl rfl
    · exact hc.inside_state u hin
  · obtain ⟨rank, hrank⟩ := hc.ranked
    exact ⟨rank, fun u a hu => hrank u a ((hsaved u a).mp hu).2⟩
  · refine hc.finite.subset fun u hu => ?_
    by_cases hut : u = t
    · subst hut
      exact absurd hu (by simp [Queue.Inside])
    · simpa [Queue.Inside, hut] using hu

/-- `wake_up` cuts the link of `*p`. -/
theorem Chained.wakeUp : Chained (wakeUp s) := by
  have hasleep : ∀ a, (Sched.wakeUp s).Asleep a ↔ _ :=
    fun a => wakeUp_sleeps (by decide)
  have hframe := wakeUp_frame s
  refine ⟨fun a ha => ?_, fun u a hu => ?_, fun u v a hu hv => ?_,
    fun u a ha => ?_, fun a ha => ?_, fun u hu => ?_, ?_, ?_⟩
  · cases ha
  · rw [hframe] at hu
    refine (hasleep a).mpr ⟨hc.saved_asleep u a hu, fun hh => ?_⟩
    exact hc.head_alone u a hh hu
  · rw [hframe] at hu hv
    exact hc.saved_once u v a hu hv
  · cases ha
  · obtain ⟨ha, hne⟩ := (hasleep a).mp ha
    rw [hframe]
    exact .inr ((hc.named a ha).resolve_left hne)
  · unfold Queue.Inside at hu
    rw [hframe] at hu
    show (s.wake s.head).state u = _ ∨ (s.wake s.head).state u = _
    rw [wake_state]
    split
    · exact .inl rfl
    · exact hc.inside_state u hu
  · rw [hframe]
    exact hc.ranked
  · unfold Queue.Inside
    rw [hframe]
    exact hc.finite

theorem Chained.elsewhere (h : elsewhere s t how = some s') : Chained s' := by
  have hasleep : ∀ a, s'.Asleep a ↔ s.Asleep a := elsewhere_sleeps h
  obtain ⟨hf, rfl⟩ := elsewhere_cases h
  refine ⟨fun a ha => (hasleep a).mpr (hc.head_asleep a ha),
    fun u a hu => (hasleep a).mpr (hc.saved_asleep u a hu), hc.saved_once,
    hc.head_alone, fun a ha => hc.named a ((hasleep a).mp ha), fun u hu => ?_, hc.ranked, hc.finite⟩
  have hut : u ≠ t := by
    rintro rfl
    exact absurd hu (by simp [Queue.Inside, hf])
  simpa [hut] using hc.inside_state u hu

theorem Chained.step (h : step o s = some s') : Chained s' := by
  cases o with
  | sleepOn t => exact hc.enter h
  | resume t => exact hc.leave h
  | wakeUp =>
    cases h
    exact hc.wakeUp
  | elsewhere t how => exact hc.elsewhere h

theorem Chained.run (h : runOps Sched.step os s = some s') : Chained s' :=
  runOps_invariant_all (fun _ _ _ hs hstep => hs.step hstep) h hc

/-- What the chains say of one sleeper: it is `*p`, or the saved task of
exactly one other task in the call, and not both. -/
theorem Chained.sleeper (ha : s.Asleep a) : (s.head = some a ∧ ∀ t, s.frame t ≠ some (some a)) ∨
      (s.head ≠ some a ∧ ∃ t, t ≠ a ∧ s.frame t = some (some a) ∧
        ∀ u, s.frame u = some (some a) → u = t) := by
  rcases hc.named a ha with hh | ⟨t, ht⟩
  · exact .inl ⟨hh, fun t => hc.head_alone t a hh⟩
  · refine .inr ⟨fun hh => hc.head_alone t a hh ht, t, ?_, ht,
      fun u hu => hc.saved_once u t a hu ht⟩
    rintro rfl
    obtain ⟨rank, hrank⟩ := hc.ranked
    exact absurd (hrank t t ht) (Nat.lt_irrefl _)

end

-- ======== the end of one wake_up

/-- `O` are tasks that have been in the call since a `wake_up`: each of
them that sleeps is saved by another of them. -/
structure Due (O : Nat → Prop) (s : Queue) : Prop where
  inside : ∀ t, O t → s.Inside t
  saved : ∀ a, O a → s.Asleep a → ∃ t, O t ∧ s.frame t = some (some a)

/-- At the `wake_up` these are all tasks in the call. -/
theorem Chained.due (hc : Chained s) : Due s.Inside (Sched.wakeUp s) where
  inside t ht := by
    unfold Queue.Inside
    rw [wakeUp_frame]
    exact ht
  saved a _ ha := by
    obtain ⟨ha', hne⟩ := (wakeUp_sleeps (by decide)).mp ha
    obtain ⟨t, ht⟩ := (hc.named a ha').resolve_left hne
    refine ⟨t, by simp [Queue.Inside, ht], ?_⟩
    rw [wakeUp_frame]
    exact ht

/-- The tasks of `O` that the step does not resume are still due. -/
theorem Due.step (hd : Due O s)
    (h : step o s = some s') : Due (fun t => O t ∧ o ≠ .resume t) s' := by
  cases o with
  | sleepOn t =>
    have hasleep := enter_sleeps h
    have hsaved := enter_saved h
    obtain ⟨-, hf, -, rfl⟩ := enter_cases h
    have hne : ∀ u, O u → u ≠ t := by
      rintro u hu rfl
      exact absurd (hd.inside u hu) (by simp [Queue.Inside, hf])
    refine ⟨fun u hu => ?_, fun a ha hs => ?_⟩
    · simpa [Queue.Inside, hne u hu.1] using hd.inside u hu.1
    · obtain ⟨u, hu, hua⟩ := hd.saved a ha.1 (((hasleep a).mp hs).resolve_left (hne a ha.1))
      exact ⟨u, ⟨hu, nofun⟩, (hsaved u a).mpr (.inr hua)⟩
  | resume t =>
    have hsaved := leave_saved h
    obtain ⟨tmp, hf, hr, hs'⟩ := leave_cases h
    have hasleep := leave_asleep hf hr h
    subst hs'
    refine ⟨fun u hu => ?_, fun a ha hs => ?_⟩
    · have hut : u ≠ t := by
        rintro rfl
        exact hu.2 rfl
      simpa [Queue.Inside, hut] using hd.inside u hu.1
    · obtain ⟨hs, hne⟩ := (hasleep a).mp hs
      obtain ⟨u, hu, hua⟩ := hd.saved a ha.1 hs
      have hut : u ≠ t := by
        rintro rfl
        rw [hf] at hua
        exact hne (Option.some.inj hua)
      refine ⟨u, ⟨hu, fun he => ?_⟩, (hsaved u a).mpr ⟨hut, hua⟩⟩
      cases he
      exact hut rfl
  | wakeUp =>
    cases h
    refine ⟨fun u hu => ?_, fun a ha hs => ?_⟩
    · unfold Queue.Inside
      rw [wakeUp_frame]
      exact hd.inside u hu.1
    · obtain ⟨u, hu, hua⟩ := hd.saved a ha.1 ((wakeUp_sleeps (by decide)).mp hs).1
      refine ⟨u, ⟨hu, nofun⟩, ?_⟩
      rw [wakeUp_frame]
      exact hua
  | elsewhere t how =>
    have hasleep : ∀ a, s'.Asleep a ↔ s.Asleep a := elsewhere_sleeps h
    obtain ⟨-, rfl⟩ := elsewhere_cases h
    refine ⟨fun u hu => hd.inside u hu.1, fun a ha hs => ?_⟩
    obtain ⟨u, hu, hua⟩ := hd.saved a ha.1 ((hasleep a).mp hs)
    exact ⟨u, ⟨hu, nofun⟩, hua⟩

theorem Due.congr {O' : Nat → Prop} (hd : Due O s) (h : ∀ t, O' t ↔ O t) : Due O' s := by
  rwa [show O' = O from funext fun t => propext (h t)]

theorem Due.run : ∀ {os : List Op} {s s' : Queue} {O : Nat → Prop},
    Due O s → runOps Sched.step os s = some s' → Due (fun t => O t ∧ .resume t ∉ os) s' := by
  intro os
  induction os with
  | nil =>
    intro s s' O hd h
    cases h
    exact hd.congr fun t => by simp
  | cons o os ih =>
    intro s s' O hd h
    obtain ⟨s1, h1, h2⟩ := runOps_cons h
    refine (ih (hd.step h1) h2).congr fun t => ?_
    rw [List.mem_cons, not_or, and_assoc]
    constructor
    · rintro ⟨hO, hne, hnot⟩
      exact ⟨hO, fun he => hne he.symm, hnot⟩
    · rintro ⟨hO, hne, hnot⟩
      exact ⟨hO, fun he => hne he.symm, hnot⟩

/-- When no due task is runnable, none is left: the last of them to arrive
would be saved by nobody. -/
theorem Due.done (hc : Chained s) (hd : Due O s)
    (hrun : ∀ t, O t → s.state t ≠ .running) : ∀ t, ¬ O t := by
  intro t0 ht0
  obtain ⟨rank, hrank⟩ := hc.ranked
  have hfin : {t | O t}.Finite := hc.finite.subset fun t ht => hd.inside t ht
  obtain ⟨t, ht, hmax⟩ := Set.exists_max_image _ rank hfin ⟨t0, ht0⟩
  have hasleep : s.Asleep t := ⟨hd.inside t ht,
    (hc.inside_state t (hd.inside t ht)).resolve_left (hrun t ht)⟩
  obtain ⟨u, hu, hut⟩ := hd.saved t ht hasleep
  exact absurd (hrank u t hut) (Nat.not_lt.mpr (hmax u hu))

/-- Once every task that was in the call at a `wake_up` and has become
runnable was resumed, every one of them was. -/
theorem Chained.all_resumed (hc : Chained s) (h : runOps Sched.step (.wakeUp :: os) s = some s')
    (hran : ∀ t, s.Inside t → s'.state t = .running → .resume t ∈ os) :
    ∀ t, s.Inside t → .resume t ∈ os := by
  obtain ⟨s1, h1, h2⟩ := runOps_cons h
  cases h1
  have hnone := (hc.due.run h2).done (hc.wakeUp.run h2) fun t ht hr => ht.2 (hran t ht.1 hr)
  intro t ht
  by_contra hnot
  exact hnone t ⟨ht, hnot⟩

/-- The woken tasks can be run to the end of their `sleep_on`, one after
the other. -/
theorem Chained.run_out (hc : Chained s) : ∃ os s',
    (∀ o ∈ os, ∃ t, o = .resume t) ∧ runOps Sched.step os s = some s' ∧
      ∀ t, s'.Inside t → s'.state t ≠ .running := by
  obtain ⟨n, hn⟩ : ∃ n, {t | s.Inside t}.ncard = n := ⟨_, rfl⟩
  induction n generalizing s with
  | zero =>
    have hempty := (Set.ncard_eq_zero hc.finite).mp hn
    refine ⟨[], s, fun o ho => (List.not_mem_nil ho).elim, rfl, fun t ht => ?_⟩
    have : t ∈ {t | s.Inside t} := ht
    rw [hempty] at this
    exact this.elim
  | succ n ih =>
    by_cases hex : ∃ t, s.Inside t ∧ s.state t = .running
    · obtain ⟨t, ht, hr⟩ := hex
      obtain ⟨tmp, hf⟩ := Option.isSome_iff_exists.mp ht
      have hleave : Sched.leave s t = some { s.wake tmp with
          frame := update s.frame t none } := by
        unfold Sched.leave
        rw [hf, hr]
      have hin : {u | ({ s.wake tmp with
          frame := update s.frame t none } : Queue).Inside u}
          = {u | s.Inside u} \ {t} := by
        ext u
        by_cases hut : u = t
        · subst hut
          simp [Queue.Inside]
        · simp [Queue.Inside, hut]
      obtain ⟨os, s', hos, hrun, hdone⟩ := ih (hc.leave hleave) (by
        rw [hin, Set.ncard_sdiff_singleton_of_mem (show t ∈ {u | s.Inside u} from ht), hn]
        rfl)
      refine ⟨.resume t :: os, s', fun o ho => ?_, ?_, hdone⟩
      · rcases List.mem_cons.mp ho with rfl | ho
        · exact ⟨t, rfl⟩
        · exact hos o ho
      · rw [runOps, show Sched.step (.resume t) s = _ from hleave]
        exact hrun
    · refine ⟨[], s, fun o ho => (List.not_mem_nil ho).elim, rfl, fun t ht hr => hex ⟨t, ht, hr⟩⟩

-- ======== one waking for one sleep

/-- A state is set to 0 only when the task sleeps. -/
theorem Chained.wakes_asleep (hc : Chained s) (h : wakes o s = some a) : s.Asleep a := by
  cases o with
  | sleepOn t | elsewhere t how => cases h
  | resume t => exact hc.saved_asleep t a (Option.join_eq_some_iff.mp h)
  | wakeUp => exact hc.head_asleep a h

/-- A step puts a task to sleep by its own call only, and wakes it by
setting its state only. -/
theorem Chained.asleep_step (hc : Chained s) (h : Sched.step o s = some s') (a : Nat) :
    (if wakes o s = some a then 1 else 0) + (if s'.Asleep a then 1 else 0)
      = (if o = .sleepOn a then 1 else 0) + (if s.Asleep a then 1 else 0) := by
  cases o with
  | sleepOn t =>
    have hasleep := enter_sleeps h a
    obtain ⟨-, hf, -, -⟩ := enter_cases h
    by_cases hat : a = t
    · subst hat
      have hnot : ¬ s.Asleep a := fun ha =>
        absurd ha.1 (by simp [Queue.Inside, hf])
      simp [wakes, hasleep, hnot]
    · simp [wakes, hasleep, hat, Ne.symm hat]
  | resume t =>
    obtain ⟨tmp, hf, hr, -⟩ := leave_cases h
    have hasleep := leave_asleep hf hr h a
    by_cases htmp : tmp = some a
    · have ha := hc.saved_asleep t a (hf.trans (congrArg some htmp))
      simp [wakes, hf, hasleep, htmp, ha]
    · simp [wakes, hf, hasleep, htmp]
  | wakeUp =>
    cases h
    have hasleep : (Sched.wakeUp s).Asleep a ↔ _ :=
      wakeUp_sleeps (by decide)
    by_cases hh : s.head = some a
    · simp [wakes, hasleep, hh, hc.head_asleep a hh]
    · simp [wakes, hasleep, hh]
  | elsewhere t how => simp [wakes, elsewhere_sleeps h a]

/-- Over a run a task is woken once for each of its sleeps that is over. -/
theorem Chained.wakings (a : Nat) : ∀ {os : List Op} {s s' : Queue},
    Chained s → runOps Sched.step os s = some s' →
      Sched.wakings a os s + (if s'.Asleep a then 1 else 0)
        = os.count (.sleepOn a) + (if s.Asleep a then 1 else 0) := by
  intro os
  induction os with
  | nil =>
    intro s s' _ h
    cases h
    rfl
  | cons o os ih =>
    intro s s' hc h
    obtain ⟨s1, h1, h2⟩ := runOps_cons h
    have hhere := hc.asleep_step h1 a
    have hrest := ih (hc.step h1) h2
    rw [Sched.wakings, h1, Option.elim_some, List.count_cons]
    simp only [beq_iff_eq]
    omega

-- ======== the result

/-- No sleeper is lost on a queue used through `sleep_on` and `wake_up`.
In every state that any interleaving reaches: each sleeper is `*p` or the
saved `tmp` of exactly one other task in the call; after one more
`wake_up`, however the run goes on, once the tasks it made runnable have
run to their end every task that slept has run to its end, and they can
all be run; and each task was woken exactly once for each of its sleeps
that is over. -/
theorem sleep_on_loses_nobody {state : Nat → TaskState} {signal : Nat → Bool} {os : List Op}
    (h : runOps step os (Queue.empty state signal) = some s) : (∀ a, s.Asleep a →
      (s.head = some a ∧ ∀ t, s.frame t ≠ some (some a)) ∨
      (s.head ≠ some a ∧ ∃ t, t ≠ a ∧ s.frame t = some (some a) ∧
        ∀ u, s.frame u = some (some a) → u = t)) ∧
    (∀ os' s', runOps step (.wakeUp :: os') s = some s' →
      (∀ t, s.Inside t → s'.state t = .running → .resume t ∈ os') →
      ∀ a, s.Asleep a → .resume a ∈ os') ∧ (∃ os' s', (∀ o ∈ os', ∃ t, o = .resume t) ∧
      runOps step (.wakeUp :: os') s = some s' ∧ ∀ a, s.Asleep a → .resume a ∈ os') ∧
    (∀ o a, wakes o s = some a → s.Asleep a) ∧ ∀ a, wakings a os (Queue.empty state signal)
      + (if s.Asleep a then 1 else 0) = os.count (.sleepOn a) := by
  have hempty := chained_empty state signal
  have hc := hempty.run h
  refine ⟨fun a ha => hc.sleeper ha, fun os' s' hrun hran a ha =>
    hc.all_resumed hrun hran a ha.1, ?_, fun o a => hc.wakes_asleep,
    fun a => ?_⟩
  · obtain ⟨os', s', hos, hrun, hdone⟩ := hc.wakeUp.run_out
    have hall : runOps step (.wakeUp :: os') s = some s' := hrun
    refine ⟨os', s', hos, hall, fun a ha => hc.all_resumed hall ?_ a ha.1⟩
    intro t ht hr
    by_contra hnot
    exact hdone t ((hc.due.run hrun).inside t ⟨ht, hnot⟩) hr
  · have hcount := Chained.wakings a hempty h
    have hnot : ¬ (Queue.empty state signal).Asleep a :=
      fun ha => absurd ha.1 Bool.false_ne_true
    rw [if_neg hnot] at hcount
    exact hcount

/-- Two tasks sleep, the second is woken, and a third arrives before the
second runs: the first is woken by the second, not by the third. -/
theorem sleep_on_loses_nobody_three : ∃ s, runOps step [.sleepOn 1, .sleepOn 2, .wakeUp, .sleepOn 3]
      (Queue.empty (fun _ => .running) (fun _ => false)) = some s ∧
    s.Asleep 1 ∧ s.head = some 3 ∧ s.frame 2 = some (some 1) ∧
    ∃ os' s', (∀ o ∈ os', ∃ t, o = .resume t) ∧ runOps step (.wakeUp :: os') s = some s' ∧
      ∀ a, s.Asleep a → .resume a ∈ os' := by
  refine exists_run (fun s => s.Asleep 1 ∧ s.head = some 3 ∧ s.frame 2 = some (some 1))
    (by decide +kernel) fun s h hv => ?_
  obtain ⟨ha, hh, hf⟩ := hv
  exact ⟨ha, hh, hf, (sleep_on_loses_nobody h).2.2.1⟩

end LearnLinux.Sched
