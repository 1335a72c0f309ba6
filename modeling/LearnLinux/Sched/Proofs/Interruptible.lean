/-
`interruptible_sleep_on` loses a sleeper exactly when a task that nobody
refers to finds somebody else at `*p`.

A task that is resumed wakes the task at `*p`, if that is another one, and
sleeps again without queueing: it relies on the pointer that named it
before. A task that was at `*p` at a `wake_up`, or that was saved by a
task that has returned, is named by no pointer any more; if a new task
has called in the meantime, the sleep of the `repeat` loop is one that
nothing but a signal ends.
-/
import LearnLinux.Sched.Proofs.Sleep

namespace LearnLinux.Sched

open LearnLinux.Lib

variable {s s' : Queue} {t a : Nat} {o : IntOp}

/-- What `interruptible_sleep_on` does after `schedule`: it sleeps again,
or returns. -/
theorem interruptibleResume_cases (h : interruptibleResume s t = some s') :
    ∃ tmp, s.frame t = some tmp ∧ s.state t = .running ∧
      ((∃ q, s.head = some q ∧ q ≠ t ∧ s' = { s.wake (some q) with
          state := Function.update (s.wake (some q)).state t .interruptible }) ∨
       ((∀ q, s.head = some q → q = t) ∧ s' = { s.wake tmp with
          head := none, frame := Function.update s.frame t none })) := by
  unfold interruptibleResume at h
  split at h
  · rename_i tmp hf hr
    refine ⟨tmp, hf, hr, ?_⟩
    split at h
    · rename_i q hq
      split at h
      · rename_i hqt
        exact .inl ⟨q, hq, hqt, (Option.some.inj h).symm⟩
      · rename_i hqt
        refine .inr ⟨fun q' hq' => ?_, (Option.some.inj h).symm⟩
        rw [hq] at hq'
        cases hq'
        exact not_not.mp hqt
    · rename_i hnone
      refine .inr ⟨fun q hq => ?_, (Option.some.inj h).symm⟩
      rw [hnone] at hq
      cases hq
  · cases h

/-- After the `repeat` the caller sleeps, and the task at `*p` does not. -/
theorem repeat_dozing {q : Nat} (hf : s.Inside t) (a : Nat) : Queue.Dozing { s.wake (some q) with
      state := Function.update (s.wake (some q)).state t .interruptible } a
      ↔ a = t ∨ (s.Dozing a ∧ q ≠ a) := by
  have hwake := wake_sleeps s (some q) a (show TaskState.interruptible ≠ .running by decide)
  unfold Queue.Dozing Queue.Sleeps Queue.Inside at *
  by_cases ha : a = t
  · subst ha
    simpa [wake_frame] using hf
  · simpa [ha] using hwake

/-- What a careful run keeps: every sleeper is referenced, and `*p` is in
the call. -/
structure Kept (s : Queue) : Prop where
  referenced : ∀ a, s.Dozing a → s.Referenced a
  head_inside : ∀ a, s.head = some a → s.Inside a

theorem kept_empty (state : Nat → TaskState) (signal : Nat → Bool) :
    Kept (Queue.empty state signal) where
  referenced a h := absurd h.1 Bool.false_ne_true
  head_inside a h := by cases h

theorem Kept.noneLost (hk : Kept s) : s.NoneLost := by
  intro a ha
  have href := hk.referenced a ha
  refine ⟨?_, href⟩
  rcases href with hh | hu
  · exact .inl hh
  · exact .inr (.inl hu)

theorem Kept.enter (hk : Kept s) (h : enter s t .interruptible = some s') : Kept s' := by
  have hdoz := enter_sleeps h
  have hsaved := enter_saved h
  obtain ⟨-, hf, -, rfl⟩ := enter_cases h
  refine ⟨fun a ha => ?_, fun a ha => ?_⟩
  · rcases (hdoz a).mp ha with rfl | ha
    · exact .inl rfl
    · -- the caller is not in the queue, so it is not the task it saves
      have hne : t ≠ a := by
        rintro rfl
        exact absurd ha.1 (by simp [Queue.Inside, hf])
      rcases hk.referenced a ha with hh | ⟨u, hu, hs⟩
      · exact .inr ⟨t, hne, (hsaved t a).mpr (.inl ⟨rfl, hh⟩)⟩
      · exact .inr ⟨u, hu, (hsaved u a).mpr (.inr hs)⟩
  · cases ha
    simp [Queue.Inside]

theorem Kept.resume (hk : Kept s) (hgood : Careful (.resume t) s)
    (h : interruptibleResume s t = some s') : Kept s' := by
  obtain ⟨tmp, hf, hr, hcase⟩ := interruptibleResume_cases h
  have hin : s.Inside t := by simp [Queue.Inside, hf]
  rcases hcase with ⟨q, hq, hqt, rfl⟩ | ⟨hhead, rfl⟩
  · refine ⟨fun a ha => ?_, hk.head_inside⟩
    rcases (repeat_dozing hin a).mp ha with rfl | ⟨ha, -⟩
    · exact .inr (hgood q hq hqt hin hr)
    · exact hk.referenced a ha
  · refine ⟨fun a ha => ?_, fun a ha => by cases ha⟩
    obtain ⟨hdoz, hne⟩ := (return_sleeps hr (by decide) a).mp ha
    rcases hk.referenced a hdoz with hh | ⟨u, hu, hs⟩
    · -- the returning task is at `*p`, and it runs
      obtain rfl := hhead a hh
      exact absurd (hr.symm.trans hdoz.2) (by decide)
    · refine .inr ⟨u, hu, ?_⟩
      have hut : u ≠ t := by
        rintro rfl
        rw [hf] at hs
        exact hne (Option.some.inj hs)
      simpa [hut] using hs

theorem Kept.wakeUp (hk : Kept s) : Kept (wakeUp s) := by
  refine ⟨fun a ha => ?_, nofun⟩
  obtain ⟨ha, hne⟩ := (wakeUp_sleeps (by decide)).mp ha
  obtain ⟨u, hu, hs⟩ := (hk.referenced a ha).resolve_left hne
  refine .inr ⟨u, hu, ?_⟩
  rw [wakeUp_frame]
  exact hs

theorem Kept.step (hk : Kept s) (hgood : Careful o s) (h : intStep o s = some s') : Kept s' := by
  cases o with
  | sleepOn t => exact hk.enter h
  | resume t => exact hk.resume hgood h
  | wakeUp =>
    cases h
    exact hk.wakeUp
  | elsewhere t st =>
    have hdoz : ∀ a, s'.Dozing a ↔ s.Dozing a := elsewhere_sleeps h
    obtain ⟨-, rfl⟩ := elsewhere_cases h
    exact ⟨fun a ha => hk.referenced a ((hdoz a).mp ha), hk.head_inside⟩
  | signal t pending =>
    cases h
    exact ⟨hk.referenced, hk.head_inside⟩
  | notice t =>
    simp only [intStep] at h
    split at h
    · cases h
      refine ⟨fun a ha => hk.referenced a ?_, hk.head_inside⟩
      exact ((wake_sleeps s (some t) a (by decide)).mp ha).1
    · cases h

/-- A step that is not careful loses its task at once. -/
theorem lost_of_not_careful (h : intStep o s = some s') (hbad : ¬ Careful o s) : ¬ s'.NoneLost := by
  cases o with
  | sleepOn t | wakeUp | elsewhere t st | signal t pending | notice t => exact absurd trivial hbad
  | resume t =>
    simp only [Careful, not_forall] at hbad
    obtain ⟨q, hq, hqt, hin, -, hnone⟩ := hbad
    obtain ⟨tmp, -, -, hcase⟩ := interruptibleResume_cases h
    rcases hcase with ⟨q', -, -, rfl⟩ | ⟨hhead, -⟩
    · intro hall
      rcases (hall t ((repeat_dozing hin t).mpr (.inl rfl))).2 with
        hh | hu
      · have : s.head = some t := hh
        rw [hq] at this
        exact hqt (Option.some.inj this)
      · exact hnone hu
    · exact absurd (hhead q hq) hqt

/-- Over any run on an interruptible queue, no state has a lost sleeper
exactly when every step is careful: a task that is resumed while another
one stands at `*p` is still saved by a third. -/
theorem interruptible_none_lost_iff {state : Nat → TaskState}
    {signal : Nat → Bool} {os : List IntOp}
    (h : runOps intStep os (Queue.empty state signal) = some s') :
    Meets intStep Careful os (Queue.empty state signal) ↔ ∀ os₁ os₂ s, os = os₁ ++ os₂ →
        runOps intStep os₁ (Queue.empty state signal) = some s →
        s.NoneLost := by
  refine meets_iff_states (fun _ _ _ hk hg hstep => hk.step hg hstep)
    (fun _ hk => hk.noneLost) (fun o s s' _ hstep hP => ?_) h (kept_empty state signal)
  by_contra hbad
  exact lost_of_not_careful hstep hbad hP

/-- Two tasks sleep, one is woken, and both run. -/
theorem interruptible_none_lost_iff_two :
    (runOps intStep [.sleepOn 1, .sleepOn 2, .wakeUp, .resume 2, .resume 1]
      (Queue.empty (fun _ => .running) (fun _ => false))).isSome = true ∧ ∀ os₁ os₂ s,
      [.sleepOn 1, .sleepOn 2, .wakeUp, .resume 2, .resume 1] = os₁ ++ os₂ →
      runOps intStep os₁ (Queue.empty (fun _ => .running) (fun _ => false))
        = some s → s.NoneLost := by
  refine ⟨rfl, (interruptible_none_lost_iff rfl).mp ?_⟩
  refine ⟨trivial, fun s1 h1 => ⟨trivial, fun s2 h2 => ⟨trivial,
    fun s3 h3 => ⟨?_, fun s4 h4 => ⟨?_, fun _ _ => trivial⟩⟩⟩⟩⟩
  · cases h3
    exact nofun
  · cases h1
    cases h2
    cases h3
    cases h4
    exact nofun

/-- Task 1 is woken, task 2 calls before task 1 runs, task 1 wakes task 2
and sleeps again, and task 2 returns: nothing refers to task 1. -/
theorem interruptible_loses_sleeper : ¬ ∀ (os : List IntOp) (s : Queue),
    runOps intStep os (Queue.empty (fun _ => .running) (fun _ => false)) = some s → s.NoneLost := by
  intro hall
  have hlost := (hall [.sleepOn 1, .wakeUp, .sleepOn 2, .resume 1, .resume 2]
    _ rfl 1 (by decide)).1
  rcases hlost with hh | ⟨u, -, hu⟩ | ⟨u, s', hne, hin, -⟩
  · cases hh
  · by_cases h2 : u = 2
    · subst h2
      cases hu
    · by_cases h1 : u = 1
      · subst h1
        cases hu
      · simp [Queue.wake, Queue.empty, wakeUp, h1, h2] at hu
  · by_cases h2 : u = 2
    · subst h2
      cases hin
    · simp [Queue.Inside, Queue.wake, Queue.empty, wakeUp, hne, h2] at hin

end LearnLinux.Sched
