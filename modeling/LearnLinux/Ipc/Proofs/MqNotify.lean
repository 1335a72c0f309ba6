/-
Notification by the message queues.

`mymq_send` decides about the notification where it finds the queue empty,
before it puts its message on. A sender that finds the queue full waits,
and does not decide again when there is room: if the queue has run empty
and a process has registered in the meantime, its message comes to the
empty queue and nobody is notified. Every other send does what it should.
-/
import LearnLinux.Ipc.Proofs.MqOrder

set_option linter.unusedSectionVars false

namespace LearnLinux.Mq

open Function (update update_of_ne)
open LearnLinux.Lib

variable {T : Type} [DecidableEq T] [Fintype T]
variable {s s' : Sys T} {t : T} {woken : Option T} {m : Msg} {o : Op T} {st : T → Status Wait}

-- ======== the purpose

/-- A message that comes now is one to notify a process of: the queue is
empty, a process is registered for a signal, and no receiver waits. -/
def Due (s : Sys T) : Prop :=
  s.q.curmsgs = 0 ∧ s.q.pid ≠ 0 ∧ s.q.event.notify = .signal ∧ s.q.nwait = 0

/-- The step puts a message on the queue. -/
def Sends (s s' : Sys T) : Prop :=
  ∃ t m, s'.returned = s.returned ++ [(t, .sent m)]

/-- A message that is due to be notified of queues one signal, to the
registered process, which is then not registered any more; nothing else
queues a signal. -/
def Delivers (s s' : Sys T) : Prop :=
  (Sends s s' → Due s → s'.signals = s.signals ++ [⟨s.q.pid, s.q.event.signo, s.q.event.value⟩] ∧
    s'.q.pid = 0) ∧
  (¬ (Sends s s' ∧ Due s) → s'.signals = s.signals)

/-- No sender comes back from its wait to a queue that has run empty, with
a notification due. -/
def Prompt : Op T → Sys T → Prop
  | .resume t _, s => (s.thread t).isWoken Wait.isSend = true → ¬ Due s
  | _, _ => True

instance (s : Sys T) : Decidable (Due s) :=
  inferInstanceAs (Decidable (_ ∧ _ ∧ _ ∧ _))

instance : (o : Op T) → (s : Sys T) → Decidable (Prompt o s)
  | .resume t _, s =>
    inferInstanceAs (Decidable ((s.thread t).isWoken Wait.isSend = true → ¬ Due s))
  | .send .., _ => .isTrue trivial
  | .receive .., _ => .isTrue trivial
  | .spurious _, _ => .isTrue trivial
  | .notify .., _ => .isTrue trivial
  | .exit _, _ => .isTrue trivial
  | .start _, _ => .isTrue trivial

-- ======== the delivery

theorem not_sends_of_other {o : Outcome} (ho : ∀ m, o ≠ .sent m)
    (h : s'.returned = s.returned ++ [(t, o)]) : ¬ Sends s s' := by
  rintro ⟨u, m, hs⟩
  rw [h] at hs
  have := List.append_cancel_left hs
  simp only [List.cons.injEq, Prod.mk.injEq, and_true] at this
  exact ho m this.2

/-- A step that sends nothing and queues no signal. -/
theorem delivers_of_not_sends (hsends : ¬ Sends s s')
    (h : s'.signals = s.signals) : Delivers s s' :=
  ⟨fun hs => absurd hs hsends, fun _ => h⟩

/-- A step in which no call returns. -/
theorem delivers_of_same (hret : s'.returned = s.returned)
    (h : s'.signals = s.signals) : Delivers s s' := by
  refine delivers_of_not_sends ?_ h
  rintro ⟨t, m, hs⟩
  rw [hret] at hs
  exact absurd hs.symm (by simp)

/-- A message is sent without a look at the registration. -/
theorem finishSend_delivers (h : finishSend t m woken s = some s') : Delivers s s' ↔ ¬ Due s := by
  obtain ⟨q', thread, -, -, rfl⟩ := finishSend_cases h
  constructor
  · intro hd hdue
    have := (hd.1 ⟨t, m, rfl⟩ hdue).1
    exact absurd this.symm (by simp)
  · intro hno
    exact ⟨fun _ hdue => absurd hdue hno, fun _ => rfl⟩

/-- A message is sent to the empty queue by a call that found it so. -/
theorem finishSend_alarm_delivers (hz : s.q.curmsgs = 0)
    (h : finishSend t m woken (alarm s) = some s') : Delivers s s' := by
  obtain ⟨q', thread, hq, -, rfl⟩ := finishSend_cases h
  have hret : (alarm s).returned = s.returned := by
    obtain ⟨_, _, _, heq⟩ := alarm_frame s
    rw [heq]
  have hsends : Sends s { alarm s with
      q := q'
      thread := thread
      returned := (alarm s).returned ++ [(t, .sent m)] } :=
    ⟨t, m, by rw [hret]⟩
  constructor
  · rintro - ⟨-, hpid, hsig, hwait⟩
    have hal : alarm s = { s with
        q := { s.q with pid := 0 }
        signals :=
          s.signals ++ [⟨s.q.pid, s.q.event.signo, s.q.event.value⟩]
        registered := update s.registered s.q.pid false } := by
      unfold alarm
      rw [if_pos ⟨hpid, hwait⟩, if_pos hsig]
    refine ⟨by rw [hal], ?_⟩
    rw [insert_frame hq, hal]
  · intro hno
    have hnot : ¬ Due s := fun hdue => hno ⟨hsends, hdue⟩
    unfold alarm
    split
    · rename_i hreg
      rw [if_neg]
      exact fun hsig => hnot ⟨hz, hreg.1, hsig, hreg.2⟩
    · rfl

theorem finishReceive_delivers (h : finishReceive t woken s = some s') :
    s'.signals = s.signals ∧ ¬ Sends s s' := by
  obtain ⟨m, q', thread, -, -, rfl⟩ := finishReceive_cases h
  exact ⟨rfl, not_sends_of_other (fun _ h => by cases h) rfl⟩

theorem fail_delivers {e : Errno} : Delivers s (fail t e s) :=
  delivers_of_not_sends (not_sends_of_other (fun _ h => by cases h) rfl) rfl

/-- A step delivers what is due exactly if it is prompt. -/
theorem delivers_iff (hpos : 0 < s.q.maxmsg)
    (h : step o s = some s') : Delivers s s' ↔ Prompt o s := by
  cases o with
  | send t m nonblock woken =>
    obtain ⟨-, h⟩ := call_cases h
    refine iff_of_true ?_ trivial
    rcases mymqSend_cases h with ⟨-, rfl⟩ | ⟨-, hz, h⟩ |
      ⟨-, -, -, -, rfl⟩ | ⟨-, -, -, -, rfl⟩ | ⟨-, hsome, -, h⟩
    · exact fail_delivers
    · exact finishSend_alarm_delivers hz h
    · exact fail_delivers
    · exact delivers_of_same rfl rfl
    · exact (finishSend_delivers h).mpr fun hdue => hsome hdue.1
  | receive t maxlen nonblock woken =>
    obtain ⟨-, h⟩ := call_cases h
    refine iff_of_true ?_ trivial
    rcases mymqReceive_cases h with ⟨-, rfl⟩ | ⟨-, -, rfl⟩ | ⟨-, -, rfl⟩ | ⟨-, h⟩
    · exact fail_delivers
    · exact fail_delivers
    · exact delivers_of_same rfl rfl
    · obtain ⟨hsig, hno⟩ := finishReceive_delivers h
      exact delivers_of_not_sends hno hsig
  | resume t woken =>
    show Delivers s s' ↔ ((s.thread t).isWoken Wait.isSend = true → ¬ Due s)
    rcases resume_cases h with ⟨m, hm, hfull, rfl⟩ | ⟨m, hm, -, h⟩ | ⟨hr, -, rfl⟩ | ⟨hr, -, h⟩
    · refine iff_of_true (delivers_of_same rfl rfl) ?_
      rintro - ⟨hz, -⟩
      omega
    · rw [finishSend_delivers h, hm]
      simp
    · refine iff_of_true (delivers_of_same rfl rfl) ?_
      rw [hr]
      exact nofun
    · obtain ⟨hsig, hno⟩ := finishReceive_delivers h
      refine iff_of_true (delivers_of_not_sends hno hsig) ?_
      rw [hr]
      exact nofun
  | spurious t =>
    obtain ⟨thread, -, rfl⟩ := Option.map_eq_some_iff.mp h
    exact iff_of_true (delivers_of_same rfl rfl) trivial
  | notify pid notification =>
    obtain ⟨-, -, rfl⟩ := notify_cases h
    obtain ⟨pid', event, registered, heq⟩ :=
      mymqNotify_frame pid notification s
    rw [heq]
    exact iff_of_true (delivers_of_same rfl rfl) trivial
  | exit pid =>
    cases h
    exact iff_of_true (delivers_of_same rfl rfl) trivial
  | start pid =>
    obtain rfl := start_cases h
    exact iff_of_true (delivers_of_same rfl rfl) trivial

-- ======== the registration

/-- A process that exists and is registered is the one in `mqh_pid`. -/
structure OneRegistered (s : Sys T) : Prop where
  in_pid : ∀ p, s.registered p = true → s.alive p = true → s.q.pid = p
  not_zero : s.registered 0 = false

theorem update_unset {f : Nat → Bool} {p : Nat} (h : f p = false) (q : Nat) :
    update f q false p = false := by
  rw [Function.update_apply, h, ite_self]

theorem OneRegistered.alarm (h : OneRegistered s) : OneRegistered (alarm s) := by
  unfold Mq.alarm
  split
  · refine ⟨fun p hp ha => ?_, ?_⟩
    · rcases Lib.update_cases hp with ⟨-, ⟨⟩⟩ | ⟨hps, hp⟩
      exact absurd (h.in_pid p hp ha).symm hps
    · exact update_unset h.not_zero ..
  · exact h

theorem OneRegistered.notify {pid : Nat} {notification : Option Event}
    (h : OneRegistered s) (hpid : pid ≠ 0) : OneRegistered (mymqNotify pid notification s) := by
  unfold mymqNotify
  split
  · split
    · rename_i heq
      refine ⟨fun p hp ha => ?_, ?_⟩
      · rcases Lib.update_cases hp with ⟨-, ⟨⟩⟩ | ⟨hps, hp⟩
        exact absurd ((h.in_pid p hp ha).symm.trans heq) hps
      · exact update_unset h.not_zero ..
    · exact h
  · split
    · exact h
    · rename_i hfree
      refine ⟨fun p hp ha => ?_, ?_⟩
      · rcases Lib.update_cases hp with ⟨rfl, -⟩ | ⟨-, hp⟩
        · rfl
        · -- The one that was registered before exists: the call failed.
          have hold := h.in_pid p hp ha
          refine absurd ⟨fun h0 => ?_, hold ▸ ha⟩ hfree
          rw [h0] at hold
          rw [← hold, h.not_zero] at hp
          cases hp
      · show update s.registered pid true 0 = false
        rw [update_of_ne hpid.symm]
        exact h.not_zero

theorem OneRegistered.step (h : OneRegistered s) (hs : step o s = some s') : OneRegistered s' := by
  cases moves hs with
  | sends t m woken s1 _ found _ rest =>
    have h1 : OneRegistered s1 := by
      rcases found with ⟨rfl, -⟩ | ⟨rfl, -⟩
      · exact h.alarm
      · exact h
    obtain ⟨q', thread, hq, -, rfl⟩ := finishSend_cases rest
    refine ⟨fun p hp ha => ?_, h1.not_zero⟩
    rw [insert_frame hq]
    exact h1.in_pid p hp ha
  | receives t woken n _ _ _ rest =>
    obtain ⟨m, q', thread, hq, -, rfl⟩ := finishReceive_cases rest
    refine ⟨fun p hp ha => ?_, h.not_zero⟩
    rw [take_frame hq]
    exact h.in_pid p hp ha
  | notifies pid notification hpid => exact h.notify hpid
  | exits pid =>
    refine ⟨fun p hp ha => h.in_pid p hp ?_, h.not_zero⟩
    rcases Lib.update_cases ha with ⟨-, ⟨⟩⟩ | ⟨-, ha⟩
    exact ha
  | starts pid =>
    refine ⟨fun p hp ha => ?_, ?_⟩
    · rcases Lib.update_cases hp with ⟨-, ⟨⟩⟩ | ⟨hpp, hp⟩
      exact h.in_pid p hp ((update_of_ne hpp ..).symm.trans ha)
    · exact update_unset h.not_zero ..
  | fails | blocks | stirs => exact ⟨h.in_pid, h.not_zero⟩

-- ======== the waiters

/-- The receivers inside their wait. -/
def waitingReceivers (st : T → Status Wait) : Nat :=
  num (Status.isWaiting Wait.isReceive) st + num (Status.isWoken Wait.isReceive) st

/-- One thread changes its status. -/
theorem waitingReceivers_update (st : T → Status Wait) (t : T) (x : Status Wait) :
    waitingReceivers (update st t x) + ((st t).isWaiting Wait.isReceive).toNat
        + ((st t).isWoken Wait.isReceive).toNat
      = waitingReceivers st + (x.isWaiting Wait.isReceive).toNat
        + (x.isWoken Wait.isReceive).toNat := by
  have h1 := num_update (Status.isWaiting Wait.isReceive) st t x
  have h2 := num_update (Status.isWoken Wait.isReceive) st t x
  unfold waitingReceivers
  omega

theorem waitingReceivers_wake {k : Wait} (ht : st t = .waiting k) :
    waitingReceivers (update st t (.woken k)) = waitingReceivers st := by
  have h := waitingReceivers_update st t (.woken k)
  simp only [ht, Status.isWaiting_waiting, Status.isWoken_waiting,
    Status.isWaiting_woken, Status.isWoken_woken, Bool.toNat_false] at h
  omega

theorem waitingReceivers_signalIf {c : Prop} [Decidable c] {st' : T → Status Wait}
    (h : signalIf c mqhWait st woken = some st') : waitingReceivers st' = waitingReceivers st := by
  rcases signalIf_cases h with ⟨-, rfl⟩ | ⟨-, h⟩
  · rfl
  · rcases signal_cases h with ⟨-, rfl⟩ | ⟨u, k, hu, -, rfl⟩
    · rfl
    · exact waitingReceivers_wake hu

/-- `mqh_nwait` is the number of receivers inside their wait. -/
theorem nwait_step (h : s.q.nwait = waitingReceivers s.thread)
    (hs : step o s = some s') : s'.q.nwait = waitingReceivers s'.thread := by
  cases moves hs with
  | blocks t k n _ was =>
    have hwait := waitingReceivers_update s.thread t (.waiting k)
    show n = waitingReceivers (update s.thread t (.waiting k))
    rcases was with ⟨ht, rfl⟩ | ⟨ht, rfl⟩
    · simp only [ht, Status.isWaiting_out, Status.isWoken_out, Status.isWaiting_waiting,
        Status.isWoken_waiting, Bool.toNat_false] at hwait
      omega
    · simp only [ht, Status.isWaiting_woken, Status.isWoken_woken, Status.isWaiting_waiting,
        Status.isWoken_waiting, Bool.toNat_false] at hwait
      omega
  | sends t m woken s1 _ found was rest =>
    have hs1 : s1.q.nwait = s.q.nwait ∧ s1.thread = s.thread := by
      obtain ⟨_, _, _, heq⟩ := alarm_frame s
      rcases found with ⟨rfl, -⟩ | ⟨rfl, -⟩
      · rw [heq]
        exact ⟨rfl, rfl⟩
      · exact ⟨rfl, rfl⟩
    have hout := waitingReceivers_update s.thread t .out
    obtain ⟨q', thread, hq, hthread, rfl⟩ := finishSend_cases rest
    rw [insert_frame hq, waitingReceivers_signalIf hthread, hs1.2]
    show s1.q.nwait = waitingReceivers (update s.thread t .out)
    rcases was with ⟨ht, -⟩ | ht
    all_goals
      simp [ht] at hout
      omega
  | receives t woken n _ _ was rest =>
    have hout := waitingReceivers_update s.thread t .out
    obtain ⟨m, q', thread, hq, hthread, rfl⟩ := finishReceive_cases rest
    rw [take_frame hq, waitingReceivers_signalIf hthread]
    show n = waitingReceivers (update s.thread t .out)
    rcases was with ⟨ht, rfl⟩ | ⟨ht, rfl⟩
    all_goals
      simp [ht] at hout
      omega
  | stirs t k was => exact h.trans (waitingReceivers_wake was).symm
  | notifies pid notification =>
    obtain ⟨_, _, _, heq⟩ := mymqNotify_frame pid notification s
    rw [heq]
    exact h
  | fails | exits | starts => exact h

-- ======== the result

/-- Over any run on a queue: every step delivers the notification that is
due, and no other, exactly when no sender comes back from its wait to a
queue that has run empty with a notification due. In the state reached,
`mqh_nwait` is the number of receivers inside their wait, and at most one
process that exists is registered. -/
theorem mymq_notification_iff {maxmsg msgsize : Nat} {q : Queue}
    {alive : Nat → Bool} {os : List (Op T)} (hopen : mymqOpen maxmsg msgsize = some q)
    (h : runOps step os (Sys.init T q alive) = some s) :
    (Meets step Prompt os (Sys.init T q alive) ↔ ∀ os₁ o os₂ s₁ s₂, os = os₁ ++ o :: os₂ →
        runOps step os₁ (Sys.init T q alive) = some s₁ → step o s₁ = some s₂ → Delivers s₁ s₂) ∧
    s.q.nwait = waitingReceivers s.thread ∧ ∀ p p', s.registered p = true → s.alive p = true →
      s.registered p' = true → s.alive p' = true → p = p' := by
  refine ⟨?_, ?_, ?_⟩
  · rw [meets_iff h]
    constructor
    · intro hall os₁ o os₂ s₁ s₂ hos hs1 hs2
      exact (delivers_iff (sound_run hopen hs1).1.pos hs2).mpr (hall os₁ o os₂ s₁ hos hs1)
    · intro hall os₁ o os₂ s₁ hos hs1
      -- The run goes on from there, so the step is taken.
      rw [hos, runOps_append, hs1, Option.bind_some] at h
      obtain ⟨s₂, hs2, -⟩ := runOps_cons h
      exact (delivers_iff (sound_run hopen hs1).1.pos hs2).mp (hall os₁ o os₂ s₁ s₂ hos hs1 hs2)
  · refine runOps_invariant_all (I := fun s => s.q.nwait = waitingReceivers s.thread)
      (fun _ _ _ hI hs => nwait_step hI hs) h ?_
    obtain ⟨-, -, -, -, hwait, -⟩ := wf_mymqOpen hopen
    have hzero : waitingReceivers (fun _ : T => Status.out) = 0 := by
      unfold waitingReceivers
      rw [num_eq_zero_iff.mpr fun _ => rfl, num_eq_zero_iff.mpr fun _ => rfl]
    exact hwait.trans hzero.symm
  · have hone := runOps_invariant_all (I := OneRegistered)
      (fun _ _ _ hI hs => hI.step hs) h ⟨fun p hp => (nomatch hp), rfl⟩
    intro p p' hp ha hp' ha'
    exact (hone.in_pid p hp ha).symm.trans (hone.in_pid p' hp' ha')

/-- A process registers and is notified of the next message. -/
theorem mymq_notification_iff_one : ∃ q s, mymqOpen 1 8 = some q ∧
    runOps step [.notify 5 (some ⟨.signal, 10, 0⟩), .send 0 ⟨0, [1]⟩ false none]
      (Sys.init (Fin 1) q fun _ => true) = some s ∧ s.signals = [⟨5, 10, 0⟩] ∧
    ∀ os₁ o os₂ s₁ s₂, [.notify 5 (some ⟨.signal, 10, 0⟩),
        .send 0 ⟨0, [1]⟩ false none] = os₁ ++ o :: os₂ →
      runOps step os₁ (Sys.init (Fin 1) q fun _ => true) = some s₁ →
      step o s₁ = some s₂ → Delivers s₁ s₂ := by
  have hrun : ((mymqOpen 1 8).bind fun q => (runChecked step Prompt
      [.notify 5 (some ⟨.signal, 10, 0⟩), .send 0 ⟨0, [1]⟩ false none]
      (Sys.init (Fin 1) q fun _ => true)).map Sys.signals) = some [⟨5, 10, 0⟩] := by decide +kernel
  obtain ⟨q, hq, hs⟩ := Option.bind_eq_some_iff.mp hrun
  obtain ⟨s, hs, hsig⟩ := Option.map_eq_some_iff.mp hs
  obtain ⟨hm, hrun⟩ := runChecked_eq_some hs
  exact ⟨q, s, hq, hrun, hsig, (mymq_notification_iff hq hrun).1.mp hm⟩

/-- A sender waits at the full queue, the message is received, a process
registers, and the sender puts its message on the empty queue: no signal
is queued. -/
theorem mymq_misses_notification : ¬ ∀ (q : Queue)
    (os : List (Op (Fin 3))) (s s' : Sys (Fin 3)) (o : Op (Fin 3)), mymqOpen 1 8 = some q →
      runOps step os (Sys.init (Fin 3) q fun _ => true) = some s →
      step o s = some s' → Delivers s s' := by
  intro hall
  have hrun : ((mymqOpen 1 8).bind fun q => (runOps step
      [.send 0 ⟨0, [1]⟩ false none, .send 1 ⟨0, [2]⟩ false none,
        .receive 2 8 false (some 1), .notify 5 (some ⟨.signal, 10, 0⟩)]
      (Sys.init (Fin 3) q fun _ => true)).bind fun s =>
        (step (.resume 1 none) s).map fun s' =>
          decide (Due s ∧ s'.signals = s.signals ∧
            s'.returned = s.returned ++ [(1, .sent ⟨0, [2]⟩)]))
      = some true := by decide +kernel
  obtain ⟨q, hq, hs⟩ := Option.bind_eq_some_iff.mp hrun
  obtain ⟨s, hs, hs'⟩ := Option.bind_eq_some_iff.mp hs
  obtain ⟨s', hs', hbad⟩ := Option.map_eq_some_iff.mp hs'
  obtain ⟨hdue, hsig, hret⟩ := of_decide_eq_true hbad
  have hd := ((hall q _ s s' _ hq hs hs').1 ⟨1, _, hret⟩ hdue).1
  rw [hsig] at hd
  exact absurd hd.symm (by simp)

end LearnLinux.Mq
