/-
Lost wakeups of the message queues.

Senders and receivers share one condition variable, and are signalled only
when the queue was empty or was full. A call that does not block leaves
nobody behind who was not left behind before. A thread that comes back
from its wait may: it used up a wakeup, and the queue it leaves can be
neither empty nor full, or it goes back to sleep while the wakeup was
needed by one of the other side. `HandsOn` is the condition under which
the last thread with a wakeup leaves nobody behind, and it is exact.
-/
import LearnLinux.Ipc.Proofs.MqOrder

set_option linter.unusedSectionVars false

namespace LearnLinux.Mq

open Function (update update_self update_of_ne)
open LearnLinux.Lib

variable {T : Type} [DecidableEq T] [Fintype T]
variable {s s' : Sys T} {t : T} {woken : Option T}

-- ======== the purpose

/-- Every thread is outside, or blocked with no wakeup pending. -/
def NoneWoken (st : T → Status Wait) : Prop :=
  ∀ u, (st u).isWoken mqhWait = false

/-- Some thread of a kind is blocked with no wakeup pending. -/
def Blocked (p : Wait → Bool) (st : T → Status Wait) : Prop :=
  ∃ u, (st u).isWaiting p = true

/-- No wakeup is pending, yet a receiver is blocked with a message on the
queue, or a sender with room on it. -/
def Stuck (s : Sys T) : Prop :=
  NoneWoken s.thread ∧ ((Blocked Wait.isReceive s.thread ∧ 0 < s.q.curmsgs) ∨
      (Blocked Wait.isSend s.thread ∧ s.q.curmsgs < s.q.maxmsg))

/-- A receiver that comes back from its wait finds the queue full and
signals, or leaves nobody blocked who could go on. -/
def ReceiverLeaves (s : Sys T) : Prop :=
  (s.q.curmsgs = 0 → ¬ Blocked Wait.isSend s.thread) ∧
  (0 < s.q.curmsgs → s.q.curmsgs < s.q.maxmsg → ¬ Blocked Wait.isSend s.thread ∧
    (1 < s.q.curmsgs → ¬ Blocked Wait.isReceive s.thread))

/-- A sender that comes back from its wait finds the queue empty and
signals, or leaves nobody blocked who could go on. -/
def SenderLeaves (s : Sys T) : Prop :=
  (s.q.curmsgs = s.q.maxmsg → ¬ Blocked Wait.isReceive s.thread) ∧
  (0 < s.q.curmsgs → s.q.curmsgs < s.q.maxmsg → ¬ Blocked Wait.isReceive s.thread ∧
    (s.q.curmsgs + 1 < s.q.maxmsg → ¬ Blocked Wait.isSend s.thread))

/-- The same for a thread that is the only one with a wakeup. -/
def LeavesNobody (t : T) (s : Sys T) : Prop :=
  (∀ u, u ≠ t → (s.thread u).isWoken mqhWait = false) →
  ((s.thread t).isWoken Wait.isReceive = true → ReceiverLeaves s) ∧
  ((s.thread t).isWoken Wait.isSend = true → SenderLeaves s)

/-- The condition on the steps. -/
def HandsOn : Op T → Sys T → Prop
  | .resume t _, s => LeavesNobody t s
  | _, _ => True

instance (p : Wait → Bool) (st : T → Status Wait) : Decidable (Blocked p st) :=
  inferInstanceAs (Decidable (∃ u, (st u).isWaiting p = true))

instance (s : Sys T) : Decidable (Stuck s) :=
  inferInstanceAs (Decidable ((∀ u, (s.thread u).isWoken mqhWait = false) ∧
    ((Blocked Wait.isReceive s.thread ∧ 0 < s.q.curmsgs) ∨
      (Blocked Wait.isSend s.thread ∧ s.q.curmsgs < s.q.maxmsg))))

instance (s : Sys T) : Decidable (ReceiverLeaves s) :=
  inferInstanceAs (Decidable ((_ → _) ∧ (_ → _ → _ ∧ (_ → _))))

instance (s : Sys T) : Decidable (SenderLeaves s) :=
  inferInstanceAs (Decidable ((_ → _) ∧ (_ → _ → _ ∧ (_ → _))))

instance (t : T) (s : Sys T) : Decidable (LeavesNobody t s) :=
  inferInstanceAs (Decidable ((∀ u, u ≠ t → (s.thread u).isWoken mqhWait = false) → _ ∧ _))

instance : (o : Op T) → (s : Sys T) → Decidable (HandsOn o s)
  | .resume t _, s => inferInstanceAs (Decidable (LeavesNobody t s))
  | .send .., _ => .isTrue trivial
  | .receive .., _ => .isTrue trivial
  | .spurious _, _ => .isTrue trivial
  | .notify .., _ => .isTrue trivial
  | .exit _, _ => .isTrue trivial
  | .start _, _ => .isTrue trivial

-- ======== the threads

variable {st : T → Status Wait} {p : Wait → Bool} {x : Status Wait} {m : Msg} {nonblock : Bool}

theorem noneWoken_update (hx : x.isWoken mqhWait = false) :
    NoneWoken (update st t x) ↔ ∀ u, u ≠ t → (st u).isWoken mqhWait = false := by
  constructor
  · intro h u hut
    have := h u
    rwa [update_of_ne hut] at this
  · intro h u
    by_cases hut : u = t
    · rw [hut, update_self]
      exact hx
    · rw [update_of_ne hut]
      exact h u hut

theorem blocked_update (ht : (st t).isWaiting p = false) :
    Blocked p (update st t x) ↔ x.isWaiting p = true ∨ Blocked p st := by
  constructor
  · rintro ⟨u, hu⟩
    by_cases hut : u = t
    · rw [hut, update_self] at hu
      exact .inl hu
    · rw [update_of_ne hut] at hu
      exact .inr ⟨u, hu⟩
  · rintro (hx | ⟨u, hu⟩)
    · exact ⟨t, by rwa [update_self]⟩
    · refine ⟨u, ?_⟩
      rw [update_of_ne]
      · exact hu
      · rintro rfl
        rw [ht] at hu
        cases hu

/-- After a signal nobody waits, or somebody has a wakeup. -/
theorem not_stuck_of_signal (h : signal mqhWait st woken = some s'.thread) : ¬ Stuck s' := by
  rintro ⟨hnone, hblocked⟩
  rcases signal_cases h with ⟨hzero, heq⟩ | ⟨u, k, -, -, heq⟩
  · have hno : ∀ p, ¬ Blocked p s'.thread := by
      rintro p ⟨u, hu⟩
      obtain ⟨k, hk, -⟩ := Status.isWaiting_iff.mp hu
      have := num_eq_zero_iff.mp hzero u
      rw [← heq, hk] at this
      cases this
    rcases hblocked with ⟨hb, -⟩ | ⟨hb, -⟩
    · exact hno _ hb
    · exact hno _ hb
  · have := hnone u
    rw [heq, update_self] at this
    cases this

theorem finishSend_stuck (h : finishSend t m woken s = some s')
    (ht : ∀ p, (s.thread t).isWaiting p = false) : Stuck s' ↔ 0 < s.q.curmsgs ∧
      (∀ u, u ≠ t → (s.thread u).isWoken mqhWait = false) ∧ (Blocked Wait.isReceive s.thread ∨
        (Blocked Wait.isSend s.thread ∧ s.q.curmsgs + 1 < s.q.maxmsg)) := by
  obtain ⟨q', thread, hq, hthread, rfl⟩ := finishSend_cases h
  have hcur : q'.curmsgs = s.q.curmsgs + 1 := by rw [insert_frame hq]
  have hmax : q'.maxmsg = s.q.maxmsg := by rw [insert_frame hq]
  rcases signalIf_cases hthread with ⟨hc, rfl⟩ | ⟨hc, hsig⟩
  · unfold Stuck
    rw [noneWoken_update rfl, blocked_update (ht _), blocked_update (ht _), hcur, hmax]
    have hpos : 0 < s.q.curmsgs := Nat.pos_of_ne_zero hc
    simp [hpos]
  · refine iff_of_false (not_stuck_of_signal hsig) ?_
    rintro ⟨hpos, -⟩
    omega

theorem finishReceive_stuck (h : finishReceive t woken s = some s')
    (ht : ∀ p, (s.thread t).isWaiting p = false)
    (hle : s.q.curmsgs ≤ s.q.maxmsg) (hpos : 0 < s.q.curmsgs) :
    Stuck s' ↔ s.q.curmsgs < s.q.maxmsg ∧ (∀ u, u ≠ t → (s.thread u).isWoken mqhWait = false) ∧
      ((Blocked Wait.isReceive s.thread ∧ 1 < s.q.curmsgs) ∨ Blocked Wait.isSend s.thread) := by
  obtain ⟨m, q', thread, hq, hthread, rfl⟩ := finishReceive_cases h
  have hcur : q'.curmsgs = s.q.curmsgs - 1 := by rw [take_frame hq]
  have hmax : q'.maxmsg = s.q.maxmsg := by rw [take_frame hq]
  rcases signalIf_cases hthread with ⟨hc, rfl⟩ | ⟨hc, hsig⟩
  · unfold Stuck
    rw [noneWoken_update rfl, blocked_update (ht _), blocked_update (ht _), hcur, hmax]
    have hlt : s.q.curmsgs < s.q.maxmsg := by omega
    have h1 : 0 < s.q.curmsgs - 1 ↔ 1 < s.q.curmsgs := by omega
    have h2 : s.q.curmsgs - 1 < s.q.maxmsg := by omega
    simp [hlt, h1, h2]
  · refine iff_of_false (not_stuck_of_signal hsig) ?_
    rintro ⟨hlt, -⟩
    omega

theorem block_stuck {k : Wait} (ht : ∀ p, (s.thread t).isWaiting p = false) : Stuck (block t k s) ↔
      (∀ u, u ≠ t → (s.thread u).isWoken mqhWait = false) ∧
      (((k.isReceive = true ∨ Blocked Wait.isReceive s.thread) ∧ 0 < s.q.curmsgs) ∨
        ((k.isSend = true ∨ Blocked Wait.isSend s.thread) ∧ s.q.curmsgs < s.q.maxmsg)) := by
  unfold Stuck block
  rw [noneWoken_update rfl, blocked_update (ht _), blocked_update (ht _)]
  exact Iff.rfl

-- ======== the steps

section

variable (hle : s.q.curmsgs ≤ s.q.maxmsg) (hmax : 0 < s.q.maxmsg)
include hle hmax

/-- A sender back from its wait leaves the queue stuck exactly if it was
the last one with a wakeup and does not leave it well. -/
theorem sender_stuck (hm : s.thread t = .woken (.send m)) (h : resume t woken s = some s') :
    Stuck s' ↔ (∀ u, u ≠ t → (s.thread u).isWoken mqhWait = false) ∧ ¬ SenderLeaves s := by
  have ht : ∀ p, (s.thread t).isWaiting p = false := by simp [hm]
  unfold SenderLeaves
  rcases resume_cases h with ⟨m, -, hfull, rfl⟩ | ⟨m, -, hroom, h⟩ | ⟨hr, -⟩ | ⟨hr, -⟩
  · have hcur : s.q.curmsgs = s.q.maxmsg := by omega
    rw [block_stuck ht]
    simp [hcur, hmax]
  · rw [finishSend_stuck h ht]
    have hne : s.q.curmsgs ≠ s.q.maxmsg := by omega
    by_cases hpos : 0 < s.q.curmsgs
    · simp only [hne, hroom, hpos, true_and, false_imp_iff, true_imp_iff,
        not_and_or, not_not, Classical.not_imp]
      rw [and_comm (a := s.q.curmsgs + 1 < s.q.maxmsg)]
    · simp [hne, hpos]
  · rw [hm] at hr
    cases hr
  · rw [hm] at hr
    cases hr

/-- The same for a receiver. -/
theorem receiver_stuck (hr : s.thread t = .woken .receive) (h : resume t woken s = some s') :
    Stuck s' ↔ (∀ u, u ≠ t → (s.thread u).isWoken mqhWait = false) ∧ ¬ ReceiverLeaves s := by
  have ht : ∀ p, (s.thread t).isWaiting p = false := by simp [hr]
  unfold ReceiverLeaves
  rcases resume_cases h with ⟨m, hm, -⟩ | ⟨m, hm, -⟩ | ⟨-, hz, rfl⟩ | ⟨-, hsome, h⟩
  · rw [hm] at hr
    cases hr
  · rw [hm] at hr
    cases hr
  · rw [block_stuck ht]
    simp [hz, hmax]
  · have hpos : 0 < s.q.curmsgs := Nat.pos_of_ne_zero hsome
    have hst := finishReceive_stuck h ht hle hpos
    rw [hst]
    by_cases hlt : s.q.curmsgs < s.q.maxmsg
    · simp only [hsome, hlt, hpos, true_and, false_imp_iff, true_imp_iff,
        not_and_or, not_not, Classical.not_imp]
      rw [and_comm (a := 1 < s.q.curmsgs), or_comm]
    · simp [hsome, hlt]

/-- A thread that comes back from its wait leaves the queue stuck exactly
if it does not hand on. -/
theorem resume_stuck (h : resume t woken s = some s') : Stuck s' ↔ ¬ LeavesNobody t s := by
  unfold LeavesNobody
  have hcase : (∃ m, s.thread t = .woken (.send m)) ∨ s.thread t = .woken .receive := by
    rcases resume_cases h with ⟨m, hm, -⟩ | ⟨m, hm, -⟩ | ⟨hr, -⟩ | ⟨hr, -⟩
    · exact .inl ⟨m, hm⟩
    · exact .inl ⟨m, hm⟩
    · exact .inr hr
    · exact .inr hr
  rcases hcase with ⟨m, hm⟩ | hr
  · rw [sender_stuck hle hmax hm h]
    simp [hm]
  · rw [receiver_stuck hle hmax hr h]
    simp [hr]

end

/-- With the calling thread outside, the others are all there are. -/
theorem noneWoken_of_others (ht : s.thread t = .out)
    (h : ∀ u, u ≠ t → (s.thread u).isWoken mqhWait = false) : NoneWoken s.thread := by
  intro u
  by_cases hut : u = t
  · rw [hut, ht]
    rfl
  · exact h u hut

theorem mymqSend_not_stuck (hnot : ¬ Stuck s)
    (ht : s.thread t = .out) (h : mymqSend t m nonblock woken s = some s') : ¬ Stuck s' := by
  have hw : ∀ p, (s.thread t).isWaiting p = false := by simp [ht]
  rcases mymqSend_cases h with ⟨-, rfl⟩ | ⟨-, hz, h⟩ | ⟨-, -, -, -, rfl⟩ |
    ⟨-, -, hfull, -, rfl⟩ | ⟨-, hsome, hroom, h⟩
  · exact hnot
  · obtain ⟨_, _, _, heq⟩ := alarm_frame s
    rw [finishSend_stuck h (by rw [heq]; exact hw), heq]
    rintro ⟨hpos, -⟩
    exact absurd hz (Nat.ne_of_gt hpos)
  · exact hnot
  · rw [block_stuck hw]
    rintro ⟨hnone, ⟨hb, hpos⟩ | ⟨-, hlt⟩⟩
    · exact hnot ⟨noneWoken_of_others ht hnone, .inl ⟨hb.resolve_left (by simp), hpos⟩⟩
    · omega
  · rw [finishSend_stuck h hw]
    rintro ⟨hpos, hnone, hb | ⟨hb, -⟩⟩
    · exact hnot ⟨noneWoken_of_others ht hnone, .inl ⟨hb, hpos⟩⟩
    · exact hnot ⟨noneWoken_of_others ht hnone, .inr ⟨hb, hroom⟩⟩

theorem mymqReceive_not_stuck {maxlen : Nat}
    (hnot : ¬ Stuck s) (hle : s.q.curmsgs ≤ s.q.maxmsg) (ht : s.thread t = .out)
    (h : mymqReceive t maxlen nonblock woken s = some s') : ¬ Stuck s' := by
  have hw : ∀ p, (s.thread t).isWaiting p = false := by simp [ht]
  rcases mymqReceive_cases h with ⟨-, rfl⟩ | ⟨-, -, rfl⟩ | ⟨hz, -, rfl⟩ | ⟨hsome, h⟩
  · exact hnot
  · exact hnot
  · intro hstuck
    obtain ⟨hnone, ⟨-, hpos⟩ | ⟨hb, hlt⟩⟩ := (block_stuck hw).mp hstuck
    · omega
    · exact hnot ⟨noneWoken_of_others ht hnone, .inr ⟨hb.resolve_left (by simp), hlt⟩⟩
  · have hpos := Nat.pos_of_ne_zero hsome
    rw [finishReceive_stuck h hw hle hpos]
    rintro ⟨hlt, hnone, ⟨hb, -⟩ | hb⟩
    · exact hnot ⟨noneWoken_of_others ht hnone, .inl ⟨hb, hpos⟩⟩
    · exact hnot ⟨noneWoken_of_others ht hnone, .inr ⟨hb, hlt⟩⟩

theorem step_not_stuck {o : Op T} (hnot : ¬ Stuck s) (hsound : Sound s)
    (hgood : HandsOn o s) (h : step o s = some s') : ¬ Stuck s' := by
  cases o with
  | send t m nonblock woken =>
    obtain ⟨ht, h⟩ := call_cases h
    exact mymqSend_not_stuck hnot ht h
  | receive t maxlen nonblock woken =>
    obtain ⟨ht, h⟩ := call_cases h
    exact mymqReceive_not_stuck hnot hsound.room ht h
  | resume t woken =>
    rw [resume_stuck hsound.room hsound.pos h]
    exact not_not.mpr hgood
  | spurious t =>
    obtain ⟨thread, hst, rfl⟩ := Option.map_eq_some_iff.mp h
    obtain ⟨k, -, rfl⟩ := stir_cases hst
    rintro ⟨hnone, -⟩
    have hwoken : (update s.thread t (.woken k) t).isWoken mqhWait = false := hnone t
    rw [update_self] at hwoken
    cases hwoken
  | notify pid notification =>
    obtain ⟨-, -, rfl⟩ := notify_cases h
    obtain ⟨pid', event, registered, heq⟩ :=
      mymqNotify_frame pid notification s
    rw [heq]
    exact hnot
  | exit pid =>
    cases h
    exact hnot
  | start pid =>
    obtain rfl := start_cases h
    exact hnot

-- ======== the result

/-- Over any run on a queue, no state is stuck exactly when every thread
that comes back from its wait, as the last one with a wakeup, signals or
leaves nobody blocked who could go on. -/
theorem mymq_wakeups_iff {maxmsg msgsize : Nat} {q : Queue} {alive : Nat → Bool} {os : List (Op T)}
    (hopen : mymqOpen maxmsg msgsize = some q) (h : runOps step os (Sys.init T q alive) = some s') :
    Meets step HandsOn os (Sys.init T q alive) ↔ ∀ os₁ os₂ s, os = os₁ ++ os₂ →
        runOps step os₁ (Sys.init T q alive) = some s → ¬ Stuck s := by
  have hinit : ¬ Stuck (Sys.init T q alive) := by
    rintro ⟨-, ⟨⟨u, hu⟩, -⟩ | ⟨⟨u, hu⟩, -⟩⟩ <;> cases hu
  refine meets_iff_states (I := fun s => ¬ Stuck s ∧ Sound s) (fun o s s' hI hg hstep =>
    ⟨step_not_stuck hI.1 hI.2 hg hstep, hI.2.step hstep⟩)
    (fun _ hI => hI.1) (fun o s s' hI hstep hP => ?_) h
    ⟨hinit, sound_init hopen⟩
  cases o with
  | resume t woken =>
    by_contra hbad
    exact hP ((resume_stuck hI.2.room hI.2.pos hstep).mpr hbad)
  | send t m nonblock woken | receive t maxlen nonblock woken | spurious t
  | notify pid notification | exit pid | start pid => trivial

/-- A receiver waits, a message is sent, the receiver takes it. -/
theorem mymq_wakeups_iff_one : ∃ q, mymqOpen 1 8 = some q ∧ ∀ os₁ os₂ s, [.receive 0 8 false none,
        .send 1 ⟨0, [1]⟩ false (some 0), .resume 0 none] = os₁ ++ os₂ →
      runOps step os₁ (Sys.init (Fin 2) q fun _ => true) = some s → ¬ Stuck s := by
  have hrun : ((mymqOpen 1 8).bind fun q => runChecked step HandsOn
      [.receive 0 8 false none, .send 1 ⟨0, [1]⟩ false (some 0),
        .resume 0 none] (Sys.init (Fin 2) q fun _ => true)).isSome = true := by decide +kernel
  obtain ⟨s, hs⟩ := Option.isSome_iff_exists.mp hrun
  obtain ⟨q, hq, hs⟩ := Option.bind_eq_some_iff.mp hs
  obtain ⟨hm, hrun⟩ := runChecked_eq_some hs
  exact ⟨q, hq, (mymq_wakeups_iff hq hrun).mp hm⟩

/-- Two receivers wait; two messages are sent, and only the first send
signals; the receiver that was woken takes one message and signals nobody:
the other one stays blocked, with a message on the queue. -/
theorem mymq_loses_wakeup : ¬ ∀ (q : Queue) (os : List (Op (Fin 3)))
    (s : Sys (Fin 3)), mymqOpen 3 8 = some q →
      runOps step os (Sys.init (Fin 3) q fun _ => true) = some s → ¬ Stuck s := by
  intro hall
  have hrun : ((mymqOpen 3 8).bind fun q => (runOps step
      [.receive 0 8 false none, .receive 1 8 false none,
        .send 2 ⟨0, [1]⟩ false (some 0), .send 2 ⟨0, [2]⟩ false none,
        .resume 0 none] (Sys.init (Fin 3) q fun _ => true)).map
      fun s => decide (Stuck s)) = some true := by decide +kernel
  obtain ⟨q, hq, hs⟩ := Option.bind_eq_some_iff.mp hrun
  obtain ⟨s, hs, hstuck⟩ := Option.map_eq_some_iff.mp hs
  exact hall q _ s hq hs (of_decide_eq_true hstuck)

end LearnLinux.Mq
