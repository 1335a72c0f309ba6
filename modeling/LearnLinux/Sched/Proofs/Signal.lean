/-
When `SIGKILL` can be blocked.

`sys_ssetmask` filters the bit, and `sys_signal` and `sys_sigaction`
refuse the signal itself. But `do_signal` adds the handler's `sa_mask` to
the mask, and `sys_sigaction` stores that word as the user gave it. So
the mask of a task has the bit in exactly the runs in which some task was
diverted into a handler whose `sa_mask` names `SIGKILL`; with it a pending
`SIGKILL` is not among the signals `ret_from_sys_call` looks at.

The argument has one lemma for each call that says what becomes of the
one bit, and the run rule of `Lib.Run`. Last comes a condition on the
calls alone: nobody installs such a mask.
-/
import LearnLinux.Sched.Signal

namespace LearnLinux.Signal

open Function (update update_self update_of_ne)
open Lib (runOps exists_run Meets)

variable {p : Task} {s s' : System} {t : Nat} {o : Op} {signum : Int}

-- ======== one call

/-- The bit alone decides: what is pending and not blocked can be
delivered. -/
theorem Task.killOpen_iff : p.KillOpen ↔ p.blocked.getLsbD (SIGKILL - 1) = false := by
  refine ⟨And.left, fun h => ⟨h, fun hs => ?_⟩⟩
  rw [Task.deliverable, BitVec.getLsbD_and, BitVec.getLsbD_not, h, hs]
  rfl

theorem sysSsetmask_open (newmask : BitVec 32) :
    (sysSsetmask p newmask).2.blocked.getLsbD (SIGKILL - 1) = false := by
  have hbit : (bit SIGKILL).getLsbD (SIGKILL - 1) = true := by decide
  simp only [sysSsetmask, BitVec.getLsbD_and, BitVec.getLsbD_not, hbit]
  simp

theorem sysSignal_blocked (handler restorer : BitVec 32) :
    (sysSignal p signum handler restorer).2.blocked = p.blocked := by
  unfold sysSignal
  split <;> rfl

theorem sysSigaction_blocked (action : Sigaction) (oldaction : Bool) :
    (sysSigaction p signum action oldaction).2.2.blocked = p.blocked := by
  unfold sysSigaction
  split <;> rfl

/-- What a delivery does to the mask: a handler adds its own. -/
theorem doSignal_blocked (signr : Nat) (r : Regs) : (doSignal p signr r).task.blocked
      = if (p.sigaction (signr - 1)).saHandler = 0 ∨
          (p.sigaction (signr - 1)).saHandler = 1 then p.blocked
        else p.blocked ||| (p.sigaction (signr - 1)).saMask := by
  unfold doSignal
  by_cases h1 : (p.sigaction (signr - 1)).saHandler = 1
  · rw [if_pos h1, if_pos (.inr h1)]
  · by_cases h0 : (p.sigaction (signr - 1)).saHandler = 0
    · rw [if_neg h1, if_pos h0, if_pos (Or.inl h0)]
      split <;> rfl
    · rw [if_neg h1, if_neg h0, if_neg (not_or.mpr ⟨h0, h1⟩)]

/-- A return to user code closes the bit in one way only. -/
theorem retFromSysCall_closed (user : Bool) (r : Regs) :
    (retFromSysCall p t user r).task.blocked.getLsbD (SIGKILL - 1) = true
      ↔ p.blocked.getLsbD (SIGKILL - 1) = true ∨ p.DivertedByMask t user := by
  unfold retFromSysCall
  by_cases hu : t = 0 ∨ user = false
  · rw [if_pos hu]
    refine ⟨.inl, Or.rec id ?_⟩
    rintro ⟨ht, huser, -⟩
    rcases hu with hu | hu
    · exact absurd hu ht
    · rw [hu] at huser
      cases huser
  · rw [if_neg hu]
    obtain ⟨ht, huser⟩ := not_or.mp hu
    cases hl : lowest p.deliverable with
    | none =>
      refine ⟨.inl, Or.rec id ?_⟩
      rintro ⟨-, -, i, hi, -⟩
      rw [hl] at hi
      cases hi
    | some i =>
      have hd : p.DivertedByMask t user ↔
          (p.sigaction i).saHandler ≠ 0 ∧ (p.sigaction i).saHandler ≠ 1 ∧
            (p.sigaction i).saMask.getLsbD (SIGKILL - 1) = true := by
        refine ⟨fun ⟨_, _, j, hj, h⟩ => ?_, fun h =>
          ⟨ht, by simpa using huser, i, hl, h⟩⟩
        rw [hl] at hj
        cases hj
        exact h
      rw [hd]
      rw [doSignal_blocked, Nat.add_sub_cancel]
      split
      · rename_i h
        exact ⟨.inl, Or.rec id fun ⟨h0, h1, _⟩ =>
          absurd h (not_or.mpr ⟨h0, h1⟩)⟩
      · rename_i h
        obtain ⟨h0, h1⟩ := not_or.mp h
        rw [BitVec.getLsbD_or, Bool.or_eq_true]
        exact or_congr_right ⟨fun hm => ⟨h0, h1, hm⟩, fun h => h.2.2⟩

-- ======== one step

theorem change_eq_some {f : Task → Task} (h : change s t f = some s') :
    ∃ p, s t = some p ∧ p.zombie = false ∧ s' = update s t (some (f p)) := by
  unfold change at h
  cases hp : s t with
  | none =>
    rw [hp] at h
    cases h
  | some p =>
    simp only [hp] at h
    by_cases hz : p.zombie = true
    · rw [if_pos hz] at h
      cases h
    · rw [if_neg hz] at h
      exact ⟨p, rfl, by simpa using hz, (Option.some.inj h).symm⟩

theorem copyProcess_eq_some {nr : Nat} (h : copyProcess s t nr = some s') :
    ∃ p, s t = some p ∧ s nr = none ∧ s' = update s nr (some { p with signal := 0 }) := by
  unfold copyProcess at h
  cases hp : s t with
  | none =>
    rw [hp] at h
    cases h
  | some p =>
    cases hn : s nr with
    | some q =>
      rw [hp, hn] at h
      cases h
    | none =>
      simp only [hp, hn] at h
      by_cases hz : p.zombie = true
      · rw [if_pos hz] at h
        cases h
      · rw [if_neg hz] at h
        exact ⟨p, rfl, rfl, (Option.some.inj h).symm⟩

/-- A property of every task survives the replacement of one. -/
theorem forall_update {P : Task → Prop} {q : Task} (hs : ∀ u p, s u = some p → P p) (hq : P q) :
    ∀ u p, update s t (some q) u = some p → P p := by
  intro u p hu
  rcases Lib.update_cases hu with ⟨-, ⟨⟩⟩ | ⟨-, hu⟩
  · exact hq
  · exact hs u p hu

theorem forall_change {P : Task → Prop} {f : Task → Task} (hs : ∀ u p, s u = some p → P p)
    (h : change s t f = some s') (hf : ∀ p, s t = some p → P p → P (f p)) :
    ∀ u p, s' u = some p → P p := by
  obtain ⟨p, hp, -, rfl⟩ := change_eq_some h
  exact forall_update hs (hf p hp (hs t p hp))

/-- A step that diverts nobody into such a handler leaves the bit open in
every task. -/
theorem System.KillOpen.step (hs : s.KillOpen) (hg : Spares o s)
    (h : Signal.step o s = some s') : s'.KillOpen := by
  cases o with
  | ssetmask t newmask =>
    exact forall_change hs h fun p _ _ => Task.killOpen_iff.mpr (sysSsetmask_open _)
  | signal t signum handler restorer =>
    refine forall_change hs h fun p _ ho => Task.killOpen_iff.mpr ?_
    rw [sysSignal_blocked]
    exact ho.1
  | sigaction t signum action oldaction =>
    refine forall_change hs h fun p _ ho => Task.killOpen_iff.mpr ?_
    rw [sysSigaction_blocked]
    exact ho.1
  | send t bits =>
    exact forall_change hs h fun p _ ho => Task.killOpen_iff.mpr ho.1
  | ret t user r =>
    refine forall_change hs h fun p hp ho => Task.killOpen_iff.mpr ?_
    rw [← Bool.not_eq_true, retFromSysCall_closed, ho.1]
    exact not_or.mpr ⟨Bool.false_ne_true, hg p hp⟩
  | fork t nr =>
    obtain ⟨p, hp, -, rfl⟩ := copyProcess_eq_some h
    exact forall_update hs (Task.killOpen_iff.mpr (hs t p hp).1)

/-- A step after which the bit is open everywhere diverted nobody. -/
theorem spares_of_killOpen (h : Signal.step o s = some s') (hs' : s'.KillOpen) : Spares o s := by
  cases o with
  | ret t user r =>
    intro p hp hd
    obtain ⟨q, hq, -, rfl⟩ := change_eq_some h
    rw [hp] at hq
    cases hq
    have hopen := (hs' t _ (update_self ..)).1
    rw [(retFromSysCall_closed user r).mpr (.inr hd)] at hopen
    cases hopen
  | _ => trivial

-- ======== the runs

/-- From tasks that block nothing, whatever their handlers: no task blocks
`SIGKILL` in any state of the run exactly if no return to user code
diverts a task into a handler whose `sa_mask` names `SIGKILL`. -/
theorem sigkill_open_iff {os : List Op} (h0 : ∀ t p, s t = some p → p.blocked = 0)
    (h : runOps step os s = some s') :
    (∀ os₁ os₂ s₁, os = os₁ ++ os₂ → runOps step os₁ s = some s₁ →
      s₁.KillOpen) ↔ Meets step Spares os s := by
  refine (Lib.meets_iff_states
    (fun _ _ _ hs hg hstep => hs.step hg hstep) (fun _ hs => hs)
    (fun _ _ _ _ hstep hs' => spares_of_killOpen hstep hs') h ?_).symm
  intro t p hp
  refine Task.killOpen_iff.mpr ?_
  rw [h0 t p hp]
  rfl

/-- A task with empty tables, alone. -/
def lone : System := fun t => if t = 1 then
  some ⟨0, fun _ => ⟨0, 0, 0, 0⟩, 0, false⟩ else none

theorem lone_blocked : ∀ t p, lone t = some p → p.blocked = 0 := by
  intro t p hp
  unfold lone at hp
  split at hp
  · cases hp
    rfl
  · cases hp

/-- Task 1 handles signal 2 with the mask `mask`, and takes one. -/
def handleOne (mask : BitVec 32) : List Op :=
  [.sigaction 1 2 ⟨0x1000, mask, 0, 0x2000⟩ false, .send 1 (bit 2),
    .ret 1 true ⟨0, 0, 0, 0, 0x400, 0x8000⟩]

/-- A mask without `SIGKILL`: the handler runs, with `SIGTERM` and its own
signal blocked, and `SIGKILL` stays open. -/
theorem sigkill_open_iff_handler : ∃ s', runOps step (handleOne (bit 15)) lone = some s' ∧
      (s' 1).map Task.blocked = some (bit 15 ||| bit 2) ∧
      ((∀ os₁ os₂ s₁, handleOne (bit 15) = os₁ ++ os₂ →
        runOps step os₁ lone = some s₁ → s₁.KillOpen) ↔
        Meets step Spares (handleOne (bit 15)) lone) := by
  exact exists_run (fun s => (s 1).map Task.blocked = some (bit 15 ||| bit 2)) (by decide +kernel)
    fun s' h hb => ⟨hb, sigkill_open_iff lone_blocked h⟩

/-- With `SIGKILL` in the user's mask the handler runs with `SIGKILL`
blocked: the one that arrives then cannot be delivered. -/
theorem sigkill_blocked_by_handler :
    ∃ s' p, runOps step (handleOne (bit SIGKILL) ++ [.send 1 (bit SIGKILL)])
        lone = some s' ∧ s' 1 = some p ∧ p.blocked.getLsbD (SIGKILL - 1) = true ∧
      p.signal.getLsbD (SIGKILL - 1) = true ∧ p.deliverable = 0 := by
  have hrun : (runOps step (handleOne (bit SIGKILL) ++ [.send 1 (bit SIGKILL)]) lone).bind
      (fun s => (s 1).map fun p => (p.blocked, p.signal))
      = some (bit SIGKILL ||| bit 2, bit SIGKILL) := by
    decide +kernel
  obtain ⟨s', h, hb⟩ := Option.bind_eq_some_iff.mp hrun
  obtain ⟨p, hp, hpb⟩ := Option.map_eq_some_iff.mp hb
  obtain ⟨hb', hs'⟩ := Prod.mk.inj hpb
  refine ⟨s', p, h, hp, ?_, ?_, ?_⟩
  · rw [hb']
    decide
  · rw [hs']
    decide
  · rw [Task.deliverable, hb', hs']
    decide

-- ======== a condition on the calls

/-- No entry of the task's table names `SIGKILL`. -/
def Task.MasksOpen (p : Task) : Prop :=
  ∀ i, (p.sigaction i).saMask.getLsbD (SIGKILL - 1) = false

theorem Task.MasksOpen.setAction {i : Nat} {sa : Sigaction}
    (hp : p.MasksOpen) (hsa : sa.saMask.getLsbD (SIGKILL - 1) = false) :
    (p.setAction i sa).MasksOpen :=
  (Function.forall_update_iff p.sigaction fun _ a => a.saMask.getLsbD (SIGKILL - 1) = false).mpr
    ⟨hsa, fun j _ => hp j⟩

/-- The call installs no mask with `SIGKILL`. -/
def Op.Polite : Op → Prop
  | .sigaction _ _ action _ =>
    action.saFlags &&& SA_NOMASK ≠ 0 ∨ action.saMask.getLsbD (SIGKILL - 1) = false
  | _ => True

theorem normalise_open {action : Sigaction} (h : ¬ Refused signum)
    (ha : action.saFlags &&& SA_NOMASK ≠ 0 ∨ action.saMask.getLsbD (SIGKILL - 1) = false) :
    (normalise signum.toNat action).saMask.getLsbD (SIGKILL - 1) = false := by
  unfold normalise
  split
  · exact BitVec.getLsbD_zero
  · rename_i hn
    rw [BitVec.getLsbD_or, ha.resolve_left hn, Bool.false_or]
    -- bit `SIGKILL-1` is not the bit of another signal
    unfold Refused SIGKILL at h
    rw [bit, show SIGKILL - 1 = 8 from rfl, BitVec.getLsbD_shiftLeft, BitVec.getLsbD_one]
    simp only [Bool.and_eq_false_iff, decide_eq_false_iff_not, Bool.not_eq_false',
      decide_eq_true_iff]
    omega

theorem doSignal_masksOpen {signr : Nat} {r : Regs} (hp : p.MasksOpen) :
    (doSignal p signr r).task.MasksOpen := by
  unfold doSignal
  dsimp only
  split
  · exact hp
  · split
    · split <;> exact hp
    · refine Task.MasksOpen.setAction hp ?_
      split <;> exact hp _

/-- The tables stay free of `SIGKILL` if nobody puts it there. -/
theorem masksOpen_step (ho : o.Polite) (hs : ∀ t p, s t = some p → p.MasksOpen)
    (h : Signal.step o s = some s') : ∀ t p, s' t = some p → p.MasksOpen := by
  cases o with
  | ssetmask t newmask | send t bits => exact forall_change hs h fun p _ hm => hm
  | signal t signum handler restorer =>
    refine forall_change hs h fun p _ hm => ?_
    unfold sysSignal
    split
    · exact hm
    · exact hm.setAction BitVec.getLsbD_zero
  | sigaction t signum action oldaction =>
    refine forall_change hs h fun p _ hm => ?_
    unfold sysSigaction
    split
    · exact hm
    · rename_i hr
      exact hm.setAction (normalise_open hr ho)
  | ret t user r =>
    refine forall_change hs h fun p _ hm => ?_
    unfold retFromSysCall
    split
    · exact hm
    · split
      · exact hm
      · exact doSignal_masksOpen hm
  | fork t nr =>
    obtain ⟨p, hp, -, rfl⟩ := copyProcess_eq_some h
    exact forall_update hs (hs t p hp)

/-- A run in which no `sys_sigaction` is given a mask with `SIGKILL`, from
tables without one, blocks `SIGKILL` in no state. -/
theorem killOpen_of_polite {os : List Op} (ho : ∀ o ∈ os, o.Polite)
    (h0 : ∀ t p, s t = some p → p.KillOpen ∧ p.MasksOpen)
    (h : runOps step os s = some s') : s'.KillOpen := by
  have hm : Meets step (fun o _ => o.Polite) os s :=
    Lib.meets_of_forall (fun o hos _ => ho o hos) s
  refine (Lib.runOps_invariant (I := fun s => s.KillOpen ∧ ∀ t p, s t = some p → p.MasksOpen)
    (fun o s s' hs hg hstep => ?_) hm h
    ⟨fun t p hp => (h0 t p hp).1, fun t p hp => (h0 t p hp).2⟩).1
  refine ⟨hs.1.step ?_ hstep, masksOpen_step hg hs.2 hstep⟩
  cases o with
  | ret t user r =>
    rintro p hp ⟨-, -, i, -, -, -, hi⟩
    rw [hs.2 t p hp i] at hi
    cases hi
  | _ => trivial

end LearnLinux.Signal
