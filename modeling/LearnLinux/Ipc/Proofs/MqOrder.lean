/-
A message queue is a bounded stable priority queue.

What the calls returned, in the order they returned, is a history. It is
replayed on the queue as a user sees it, a list of messages in the order
they were sent: a receive may only return the oldest message of the
highest priority (`serve`). `Ordered` ties the replayed queue to the list
of messages in the file, over every run.
-/
import LearnLinux.Ipc.Proofs.Mq

set_option linter.unusedSectionVars false

namespace LearnLinux.Mq

open Function (update)
open LearnLinux.Lib

-- ======== the purpose

/-- The priority of a message, as a number. -/
def Msg.rank (m : Msg) : Nat := m.prio.toNat

/-- The messages of a queue in the order they were sent, after one more
call has returned. A receive returns the oldest message of the highest
priority. -/
def serve (A : List Msg) : Outcome → Option (List Msg)
  | .sent m => some (A ++ [m])
  | .received m =>
    if foremost Msg.rank A = some m then some (A.erase m) else none
  | .failed _ => some A

/-- The messages on a queue that started empty, in the order they were
sent, after a history of calls. -/
def replay (outcomes : List Outcome) : Option (List Msg) :=
  outcomes.foldlM serve []

theorem replay_concat {outcomes : List Outcome} {o : Outcome}
    {A : List Msg} (h : replay outcomes = some A) : replay (outcomes ++ [o]) = serve A o := by
  unfold replay at h ⊢
  rw [List.foldlM_append, h]
  exact bind_pure (serve A o)

-- ======== the steps

variable {T : Type} [DecidableEq T] [Fintype T]
variable {s s' : Sys T} {t : T} {m : Msg} {woken : Option T} {q q' : Queue}
variable {maxmsg msgsize pid : Nat} {nonblock : Bool} {o : Op T}

theorem quiet_cases (h : quiet woken s = some s') : woken = none ∧ s' = s := by
  unfold quiet at h
  split at h
  · rename_i hw
    exact ⟨hw, (Option.some.inj h).symm⟩
  · cases h

theorem mymqSend_cases (h : mymqSend t m nonblock woken s = some s') :
    (s.q.msgsize < m.text.length ∧ s' = fail t .EMSGSIZE s) ∨
    (m.text.length ≤ s.q.msgsize ∧ s.q.curmsgs = 0 ∧ finishSend t m woken (alarm s) = some s') ∨
    (m.text.length ≤ s.q.msgsize ∧ s.q.curmsgs ≠ 0 ∧ s.q.maxmsg ≤ s.q.curmsgs ∧ nonblock = true ∧
      s' = fail t .EAGAIN s) ∨ (m.text.length ≤ s.q.msgsize ∧ s.q.curmsgs ≠ 0 ∧
      s.q.maxmsg ≤ s.q.curmsgs ∧ nonblock = false ∧ s' = block t (.send m) s) ∨
    (m.text.length ≤ s.q.msgsize ∧ s.q.curmsgs ≠ 0 ∧
      s.q.curmsgs < s.q.maxmsg ∧ finishSend t m woken s = some s') := by
  unfold mymqSend at h
  split at h
  · rename_i hlen
    exact .inl ⟨hlen, (quiet_cases h).2⟩
  · rename_i hlen
    have hle := Nat.le_of_not_lt hlen
    split at h
    · rename_i hz
      exact .inr (.inl ⟨hle, hz, h⟩)
    · rename_i hz
      split at h
      · rename_i hfull
        cases nonblock with
        | true =>
          exact .inr (.inr (.inl ⟨hle, hz, hfull, rfl, (quiet_cases h).2⟩))
        | false =>
          exact .inr (.inr (.inr (.inl ⟨hle, hz, hfull, rfl, (quiet_cases h).2⟩)))
      · rename_i hfull
        exact .inr (.inr (.inr (.inr ⟨hle, hz, Nat.lt_of_not_le hfull, h⟩)))

theorem mymqReceive_cases {maxlen : Nat} (h : mymqReceive t maxlen nonblock woken s = some s') :
    (maxlen < s.q.msgsize ∧ s' = fail t .EMSGSIZE s) ∨
    (s.q.curmsgs = 0 ∧ nonblock = true ∧ s' = fail t .EAGAIN s) ∨
    (s.q.curmsgs = 0 ∧ nonblock = false ∧ s' = block t .receive
      { s with q := { s.q with nwait := s.q.nwait + 1 } }) ∨
    (s.q.curmsgs ≠ 0 ∧ finishReceive t woken s = some s') := by
  unfold mymqReceive at h
  split at h
  · rename_i hlen
    exact .inl ⟨hlen, (quiet_cases h).2⟩
  · split at h
    · rename_i hz
      cases nonblock with
      | true => exact .inr (.inl ⟨hz, rfl, (quiet_cases h).2⟩)
      | false => exact .inr (.inr (.inl ⟨hz, rfl, (quiet_cases h).2⟩))
    · rename_i hz
      exact .inr (.inr (.inr ⟨hz, h⟩))

theorem resume_cases (h : resume t woken s = some s') :
    (∃ m, s.thread t = .woken (.send m) ∧ s.q.maxmsg ≤ s.q.curmsgs ∧ s' = block t (.send m) s) ∨
    (∃ m, s.thread t = .woken (.send m) ∧ s.q.curmsgs < s.q.maxmsg ∧
      finishSend t m woken s = some s') ∨ (s.thread t = .woken .receive ∧ s.q.curmsgs = 0 ∧
      s' = block t .receive s) ∨ (s.thread t = .woken .receive ∧ s.q.curmsgs ≠ 0 ∧
      finishReceive t woken { s with q := { s.q with nwait := s.q.nwait - 1 } } = some s') := by
  unfold resume at h
  split at h
  · rename_i m hm
    split at h
    · rename_i hfull
      exact .inl ⟨m, hm, hfull, (quiet_cases h).2⟩
    · rename_i hfull
      exact .inr (.inl ⟨m, hm, Nat.lt_of_not_le hfull, h⟩)
  · rename_i hr
    split at h
    · rename_i hz
      exact .inr (.inr (.inl ⟨hr, hz, (quiet_cases h).2⟩))
    · rename_i hz
      exact .inr (.inr (.inr ⟨hr, hz, h⟩))
  · cases h

theorem finishSend_cases (h : finishSend t m woken s = some s') :
    ∃ q thread, insert m s.q = some q ∧
      signalIf (s.q.curmsgs = 0) mqhWait (update s.thread t .out) woken = some thread ∧
      s' = { s with
        q := q
        thread := thread
        returned := s.returned ++ [(t, .sent m)] } := by
  obtain ⟨q, hq, h⟩ := Option.bind_eq_some_iff.mp h
  obtain ⟨thread, hthread, rfl⟩ := Option.map_eq_some_iff.mp h
  exact ⟨q, thread, hq, hthread, rfl⟩

theorem finishReceive_cases (h : finishReceive t woken s = some s') :
    ∃ m q thread, take s.q = some (m, q) ∧ signalIf (s.q.curmsgs = s.q.maxmsg) mqhWait
        (update s.thread t .out) woken = some thread ∧
      s' = { s with
        q := q
        thread := thread
        returned := s.returned ++ [(t, .received m)] } := by
  obtain ⟨⟨m, q⟩, hq, h⟩ := Option.bind_eq_some_iff.mp h
  obtain ⟨thread, hthread, rfl⟩ := Option.map_eq_some_iff.mp h
  exact ⟨m, q, thread, hq, hthread, rfl⟩

theorem insert_frame (h : insert m q = some q') : q' = { q with
      free := q'.free
      mem := q'.mem
      curmsgs := q.curmsgs + 1 } := by
  unfold insert at h
  split at h
  · cases h
  · obtain ⟨mem', -, rfl⟩ := Option.map_eq_some_iff.mp h
    rfl

theorem take_frame (h : take q = some (m, q')) : q' = { q with
      free := q'.free
      mem := q'.mem
      curmsgs := q.curmsgs - 1 } := by
  simp only [take] at h
  split at h
  · cases h
  · rw [← (Prod.mk.inj (Option.some.inj h)).2]

theorem alarm_frame (s : Sys T) : ∃ pid signals registered, alarm s = { s with
      q := { s.q with pid := pid }
      signals := signals
      registered := registered } := by
  unfold alarm
  split
  · exact ⟨_, _, _, rfl⟩
  · exact ⟨s.q.pid, s.signals, s.registered, rfl⟩

theorem call_cases {c : Option (Sys T)} (h : (if s.thread t = .out then c else none) = some s') :
    s.thread t = .out ∧ c = some s' := by
  split at h
  · rename_i ht
    exact ⟨ht, h⟩
  · cases h

theorem mymqNotify_frame (pid : Nat) (notification : Option Event)
    (s : Sys T) : ∃ pid' event registered,
      mymqNotify pid notification s = { s with
        q := { s.q with pid := pid', event := event }
        registered := registered } := by
  unfold mymqNotify
  split
  · split
    · exact ⟨_, s.q.event, _, rfl⟩
    · exact ⟨s.q.pid, s.q.event, s.registered, rfl⟩
  · split
    · exact ⟨s.q.pid, s.q.event, s.registered, rfl⟩
    · exact ⟨_, _, _, rfl⟩

theorem notify_cases {notification : Option Event}
    (h : step (.notify pid notification) s = some s') : pid ≠ 0 ∧ s.alive pid = true ∧
      s' = mymqNotify pid notification s := by
  obtain ⟨hp, h⟩ := Option.ite_none_right_eq_some.mp h
  exact ⟨hp.1, hp.2, (Option.some.inj h).symm⟩

theorem start_cases (h : step (.start pid) s = some s') : s' = { s with
      alive := update s.alive pid true
      registered := update s.registered pid false } := by
  simp only [step] at h
  split at h
  · cases h
  · exact (Option.some.inj h).symm

/-- What a step may do. A thread that makes a call is outside, one that
comes back from its wait was woken. -/
inductive Moves (s : Sys T) : Sys T → Prop where
  | fails (t : T) (e : Errno) : Moves s (fail t e s)
  | blocks (t : T) (k : Wait) (n : Nat)
      (fits : s.thread t = .out → ∀ m, k = .send m → m.text.length ≤ s.q.msgsize)
      (was : s.thread t = .out ∧ n = s.q.nwait + k.isReceive.toNat ∨
        s.thread t = .woken k ∧ n = s.q.nwait) :
      Moves s (block t k { s with q := { s.q with nwait := n } })
  | sends (t : T) (m : Msg) (woken : Option T) (s₁ s' : Sys T)
      (found : s₁ = alarm s ∧ s.q.curmsgs = 0 ∨ s₁ = s ∧ s.q.curmsgs < s.q.maxmsg)
      (was : s.thread t = .out ∧ m.text.length ≤ s.q.msgsize ∨ s.thread t = .woken (.send m))
      (rest : finishSend t m woken s₁ = some s') : Moves s s'
  | receives (t : T) (woken : Option T) (n : Nat) (s' : Sys T) (found : s.q.curmsgs ≠ 0)
      (was : s.thread t = .out ∧ n = s.q.nwait ∨
        s.thread t = .woken .receive ∧ n = s.q.nwait - 1)
      (rest : finishReceive t woken { s with q := { s.q with nwait := n } } = some s') : Moves s s'
  | stirs (t : T) (k : Wait) (was : s.thread t = .waiting k) :
      Moves s { s with thread := update s.thread t (.woken k) }
  | notifies (pid : Nat) (notification : Option Event) (hpid : pid ≠ 0) :
      Moves s (mymqNotify pid notification s)
  | exits (pid : Nat) : Moves s { s with alive := update s.alive pid false }
  | starts (pid : Nat) : Moves s { s with
      alive := update s.alive pid true
      registered := update s.registered pid false }

theorem moves (h : step o s = some s') : Moves s s' := by
  cases o with
  | send t m nonblock woken =>
    obtain ⟨ht, h⟩ := call_cases h
    rcases mymqSend_cases h with ⟨-, rfl⟩ | ⟨hlen, hz, h⟩ | ⟨-, -, -, -, rfl⟩ |
      ⟨hlen, -, -, -, rfl⟩ | ⟨hlen, -, hroom, h⟩
    · exact .fails t _
    · exact .sends t m woken _ _ (.inl ⟨rfl, hz⟩) (.inl ⟨ht, hlen⟩) h
    · exact .fails t _
    · refine .blocks t (.send m) _ (fun _ m' hm => ?_) (.inl ⟨ht, rfl⟩)
      cases hm
      exact hlen
    · exact .sends t m woken _ _ (.inr ⟨rfl, hroom⟩) (.inl ⟨ht, hlen⟩) h
  | receive t maxlen nonblock woken =>
    obtain ⟨ht, h⟩ := call_cases h
    rcases mymqReceive_cases h with ⟨-, rfl⟩ | ⟨-, -, rfl⟩ | ⟨-, -, rfl⟩ | ⟨hsome, h⟩
    · exact .fails t _
    · exact .fails t _
    · exact .blocks t .receive _ nofun (.inl ⟨ht, rfl⟩)
    · exact .receives t woken _ _ hsome (.inl ⟨ht, rfl⟩) h
  | resume t woken =>
    rcases resume_cases h with ⟨m, hm, -, rfl⟩ | ⟨m, hm, hroom, h⟩ | ⟨hr, -, rfl⟩ | ⟨hr, hsome, h⟩
    · exact .blocks t (.send m) _ (fun ht => by rw [ht] at hm; cases hm) (.inr ⟨hm, rfl⟩)
    · exact .sends t m woken _ _ (.inr ⟨rfl, hroom⟩) (.inr hm) h
    · exact .blocks t .receive _ nofun (.inr ⟨hr, rfl⟩)
    · exact .receives t woken _ _ hsome (.inr ⟨hr, rfl⟩) h
  | spurious t =>
    obtain ⟨thread, hst, rfl⟩ := Option.map_eq_some_iff.mp h
    obtain ⟨k, hk, rfl⟩ := stir_cases hst
    exact .stirs t k hk
  | notify pid notification =>
    obtain ⟨hpid, -, rfl⟩ := notify_cases h
    exact .notifies pid notification hpid
  | exit pid =>
    cases h
    exact .exits pid
  | start pid =>
    obtain rfl := start_cases h
    exact .starts pid

/-- A call that fails changes nothing but `errno`. -/
theorem eq_of_failed {e : Errno} (h : step o s = some s')
    (hfail : s'.returned = s.returned ++ [(t, .failed e)]) : s' = fail t e s := by
  have hsame : ¬ s.returned = s.returned ++ [(t, .failed e)] := by simp
  cases moves h with
  | fails u e' =>
    have := List.append_cancel_left hfail
    simp only [List.cons.injEq, Prod.mk.injEq, Outcome.failed.injEq, and_true] at this
    rw [this.1, this.2]
  | sends u m woken s1 _ found _ rest =>
    have hret : s1.returned = s.returned := by
      obtain ⟨_, _, _, heq⟩ := alarm_frame s
      rcases found with ⟨rfl, -⟩ | ⟨rfl, -⟩
      · rw [heq]
      · rfl
    obtain ⟨q', thread, -, -, rfl⟩ := finishSend_cases rest
    simp [hret] at hfail
  | receives u woken n _ _ _ rest =>
    obtain ⟨m, q', thread, -, -, rfl⟩ := finishReceive_cases rest
    simp at hfail
  | notifies pid notification =>
    obtain ⟨_, _, _, heq⟩ := mymqNotify_frame pid notification s
    rw [heq] at hfail
    exact absurd hfail hsame
  | blocks | stirs | exits | starts => exact absurd hfail hsame

-- ======== the invariant

/-- The free list is `F`, the list of messages is `L`, and by the history
the queue holds `A`. -/
structure Ordered (s : Sys T) (F L : List Nat) (A : List Msg) : Prop where
  wf : Wf s.q F L
  history : replay (s.returned.map Prod.snd) = some A
  order : StablySorted Msg.rank (contents s.q L) A
  fitting : ∀ t m, InWait s.thread t (.send m) → m.text.length ≤ s.q.msgsize

variable {F L : List Nat} {A : List Msg} {k : Wait}

/-- The other fields of the header do not matter. -/
theorem Wf.header (h : Wf q F L) (nwait pid : Nat) (event : Event) :
    Wf { q with nwait := nwait, pid := pid, event := event } F L :=
  ⟨h.bound, h.cover, h.free, h.msgs, h.count, h.fits⟩

section

variable (h : Ordered s F L A)
include h

theorem Ordered.header (nwait pid : Nat)
    (event : Event) (signals : List Signal) (alive registered : Nat → Bool) :
    Ordered { s with
      q := { s.q with nwait := nwait, pid := pid, event := event }
      signals := signals
      alive := alive
      registered := registered } F L A :=
  ⟨h.wf.header nwait pid event, h.history, h.order, h.fitting⟩

theorem Ordered.alarm : Ordered (alarm s) F L A := by
  obtain ⟨pid, signals, registered, heq⟩ := alarm_frame s
  rw [heq]
  exact h.header s.q.nwait pid s.q.event signals s.alive registered

theorem Ordered.fail (t : T) (e : Errno) : Ordered (fail t e s) F L A := by
  refine ⟨h.wf, ?_, h.order, h.fitting⟩
  show replay ((s.returned ++ [(t, Outcome.failed e)]).map Prod.snd) = some A
  rw [List.map_append]
  exact replay_concat h.history

theorem Ordered.block
    (hk : ∀ m, k = .send m → m.text.length ≤ s.q.msgsize) : Ordered (block t k s) F L A := by
  refine ⟨h.wf, h.history, h.order, fun u m hu => ?_⟩
  rcases inWait_block hu with ⟨-, hm⟩ | hu
  · exact hk m hm.symm
  · exact h.fitting u m hu

theorem Ordered.room : s.q.curmsgs ≤ s.q.maxmsg := by
  have h1 := h.wf.count
  have h2 := h.wf.length
  omega

theorem Ordered.finishSend (hroom : s.q.curmsgs < s.q.maxmsg)
    (hlen : m.text.length ≤ s.q.msgsize) (hs : finishSend t m woken s = some s') :
    ∃ F' L', Ordered s' F' L' (A ++ [m]) := by
  obtain ⟨q', thread, hq, hthread, rfl⟩ := finishSend_cases hs
  obtain ⟨q'', F', L', M1, M2, hq', hwf, hold, hnew, hge, hlt⟩ :=
    h.wf.insert hroom hlen
  rw [hq] at hq'
  cases hq'
  refine ⟨F', L', hwf, ?_, ?_, ?_⟩
  · rw [List.map_append]
    exact replay_concat h.history
  · rw [hnew]
    refine StablySorted.insert (hold ▸ h.order) (fun a ha => ?_) fun a ha => ?_
    · exact UInt32.le_iff_toNat_le.mp (hge a ha)
    · exact UInt32.lt_iff_toNat_lt.mp (hlt a ha)
  · intro u m' hu
    have hmsg : q'.msgsize = s.q.msgsize := by rw [insert_frame hq]
    rw [hmsg]
    exact h.fitting u m' (inWait_update_out.mp ((inWait_signalIf hthread).mp hu)).2

theorem Ordered.finishReceive (hsome : s.q.curmsgs ≠ 0) (hs : finishReceive t woken s = some s') :
    ∃ F' L' A', Ordered s' F' L' A' := by
  obtain ⟨m, q', thread, hq, hthread, rfl⟩ := finishReceive_cases hs
  have hcount := h.wf.count
  cases L with
  | nil => exact absurd hcount hsome
  | cons f L =>
    obtain ⟨q'', hq', hwf, hsame⟩ := h.wf.take
    rw [hq] at hq'
    obtain ⟨rfl, rfl⟩ := Prod.mk.inj (Option.some.inj hq')
    have horder : StablySorted Msg.rank (msgAt s.q.mem f :: contents s.q L) A := h.order
    refine ⟨f :: F, L, A.erase (msgAt s.q.mem f), hwf, ?_, ?_, ?_⟩
    · rw [List.map_append]
      refine (replay_concat h.history).trans ?_
      exact if_pos horder.foremost_eq
    · rw [hsame]
      exact horder.tail
    · intro u m' hu
      have hmsg : q'.msgsize = s.q.msgsize := by rw [take_frame hq]
      rw [hmsg]
      exact h.fitting u m' (inWait_update_out.mp ((inWait_signalIf hthread).mp hu)).2

theorem Ordered.step
    (hpos : 0 < s.q.maxmsg) (hs : step o s = some s') : ∃ F' L' A', Ordered s' F' L' A' := by
  cases moves hs with
  | fails t e => exact ⟨F, L, A, h.fail t e⟩
  | blocks t k n fits was =>
    refine ⟨F, L, A, (h.header n s.q.pid s.q.event s.signals s.alive s.registered).block
      fun m hm => ?_⟩
    rcases was with ⟨ht, -⟩ | ⟨ht, -⟩
    · exact fits ht m hm
    · exact h.fitting t m (.inr (hm ▸ ht))
  | sends t m woken s1 _ found was rest =>
    have hlen : m.text.length ≤ s.q.msgsize := by
      rcases was with ⟨-, hlen⟩ | hm
      · exact hlen
      · exact h.fitting t m (.inr hm)
    rcases found with ⟨rfl, hz⟩ | ⟨rfl, hroom⟩
    · obtain ⟨_, _, _, heq⟩ := alarm_frame s
      obtain ⟨F', L', h'⟩ := h.alarm.finishSend (by rw [heq, hz]; exact hpos)
        (by rw [heq]; exact hlen) rest
      exact ⟨F', L', _, h'⟩
    · obtain ⟨F', L', h'⟩ := h.finishSend hroom hlen rest
      exact ⟨F', L', _, h'⟩
  | receives t woken n _ found _ rest =>
    exact (h.header n s.q.pid s.q.event s.signals s.alive s.registered).finishReceive found rest
  | stirs t k was =>
    exact ⟨F, L, A, h.wf, h.history, h.order, fun u m hu => h.fitting u m ((inWait_wake was).mp hu)⟩
  | notifies pid notification =>
    obtain ⟨pid', event, registered, heq⟩ := mymqNotify_frame pid notification s
    rw [heq]
    exact ⟨F, L, A, h.header s.q.nwait pid' event s.signals s.alive registered⟩
  | exits | starts => exact ⟨F, L, A, h.header s.q.nwait s.q.pid s.q.event s.signals _ _⟩

end

/-- The attributes of a queue stay. -/
theorem step_attr (h : step o s = some s') :
    s'.q.maxmsg = s.q.maxmsg ∧ s'.q.msgsize = s.q.msgsize := by
  cases moves h with
  | sends t m woken s1 _ found _ rest =>
    obtain ⟨q', thread, hq, -, rfl⟩ := finishSend_cases rest
    rw [insert_frame hq]
    obtain ⟨_, _, _, heq⟩ := alarm_frame s
    rcases found with ⟨rfl, -⟩ | ⟨rfl, -⟩
    · rw [heq]
      exact ⟨rfl, rfl⟩
    · exact ⟨rfl, rfl⟩
  | receives t woken n _ _ _ rest =>
    obtain ⟨m, q', thread, hq, -, rfl⟩ := finishReceive_cases rest
    rw [take_frame hq]
    exact ⟨rfl, rfl⟩
  | notifies pid notification =>
    obtain ⟨_, _, _, heq⟩ := mymqNotify_frame pid notification s
    rw [heq]
    exact ⟨rfl, rfl⟩
  | fails | blocks | stirs | exits | starts => exact ⟨rfl, rfl⟩

-- ======== calls go through

theorem Ordered.exists_finishSend (h : Ordered s F L A)
    (hroom : s.q.curmsgs < s.q.maxmsg) (hlen : m.text.length ≤ s.q.msgsize) : ∃ woken s', Mq.finishSend t m woken s = some s' := by
  obtain ⟨q', -, -, -, -, hq, -⟩ := h.wf.insert hroom hlen
  obtain ⟨woken, thread, hsig⟩ := exists_signalIf (s.q.curmsgs = 0) mqhWait (update s.thread t .out)
  refine ⟨woken, ?_⟩
  simp only [Mq.finishSend, hq, Option.bind_some, hsig, Option.map_some]
  exact ⟨_, rfl⟩

theorem Ordered.exists_finishReceive (h : Ordered s F L A) (hsome : s.q.curmsgs ≠ 0) :
    ∃ woken s', Mq.finishReceive t woken s = some s' := by
  have hcount := h.wf.count
  cases L with
  | nil => exact absurd hcount hsome
  | cons f L =>
    obtain ⟨q', hq, -⟩ := h.wf.take
    obtain ⟨woken, thread, hsig⟩ :=
      exists_signalIf (s.q.curmsgs = s.q.maxmsg) mqhWait (update s.thread t .out)
    refine ⟨woken, ?_⟩
    simp only [Mq.finishReceive, hq, Option.bind_some, hsig, Option.map_some]
    exact ⟨_, rfl⟩

theorem exists_quiet : ∃ woken s', quiet woken s = some s' :=
  ⟨none, s, if_pos rfl⟩

/-- `mymq_send` never dumps core and never loops: it returns or blocks. -/
theorem Ordered.can_send (h : Ordered s F L A) (hpos : 0 < s.q.maxmsg) (ht : s.thread t = .out) :
    ∃ woken s', Mq.step (.send t m nonblock woken) s = some s' := by
  simp only [Mq.step, if_pos ht, mymqSend]
  by_cases hlen : m.text.length > s.q.msgsize
  · simp only [if_pos hlen]
    exact exists_quiet
  · simp only [if_neg hlen]
    by_cases hz : s.q.curmsgs = 0
    · simp only [if_pos hz]
      obtain ⟨_, _, _, heq⟩ := alarm_frame s
      exact h.alarm.exists_finishSend (by rw [heq, hz]; exact hpos)
        (by rw [heq]; exact Nat.le_of_not_lt hlen)
    · simp only [if_neg hz]
      by_cases hfull : s.q.curmsgs ≥ s.q.maxmsg
      · simp only [if_pos hfull]
        cases nonblock with
        | true | false => exact exists_quiet
      · simp only [if_neg hfull]
        exact h.exists_finishSend (by omega) (by omega)

/-- `mymq_receive` never dumps core: it returns or blocks. -/
theorem Ordered.can_receive (h : Ordered s F L A) (ht : s.thread t = .out) {maxlen : Nat} :
    ∃ woken s', Mq.step (.receive t maxlen nonblock woken) s = some s' := by
  simp only [Mq.step, if_pos ht, mymqReceive]
  by_cases hlen : maxlen < s.q.msgsize
  · simp only [if_pos hlen]
    exact exists_quiet
  · simp only [if_neg hlen]
    by_cases hz : s.q.curmsgs = 0
    · simp only [if_pos hz]
      cases nonblock with
      | true | false => exact exists_quiet
    · simp only [if_neg hz]
      exact h.exists_finishReceive hz

/-- Nor does a call that goes on after its wait. -/
theorem Ordered.can_resume (h : Ordered s F L A) (ht : s.thread t = .woken k) :
    ∃ woken s', Mq.step (.resume t woken) s = some s' := by
  simp only [Mq.step, resume, ht]
  cases k with
  | send m =>
    by_cases hfull : s.q.curmsgs ≥ s.q.maxmsg
    · simp only [if_pos hfull]
      exact exists_quiet
    · simp only [if_neg hfull]
      exact h.exists_finishSend (by omega) (h.fitting t m (.inr ht))
  | receive =>
    by_cases hz : s.q.curmsgs = 0
    · simp only [if_pos hz]
      exact exists_quiet
    · simp only [if_neg hz]
      exact (h.header (s.q.nwait - 1) s.q.pid s.q.event s.signals s.alive
        s.registered).exists_finishReceive hz

-- ======== the result

theorem ordered_init (h : mymqOpen maxmsg msgsize = some q) {alive : Nat → Bool} :
    Ordered (Sys.init T q alive) (slots maxmsg msgsize) [] [] :=
  ⟨(wf_mymqOpen h).1, rfl, stablySorted_nil, by
    rintro t m (ht | ht) <;> cases ht⟩

/-- A queue for at least one message, in order. -/
structure Sound (s : Sys T) : Prop where
  ordered : ∃ F L A, Ordered s F L A
  pos : 0 < s.q.maxmsg

theorem sound_init (h : mymqOpen maxmsg msgsize = some q)
    {alive : Nat → Bool} : Sound (Sys.init T q alive) := by
  obtain ⟨-, hmax, -, hpos, -⟩ := wf_mymqOpen h
  exact ⟨⟨_, _, _, ordered_init h⟩, Nat.lt_of_lt_of_eq hpos hmax.symm⟩

theorem Sound.step (hs : Sound s) (h : step o s = some s') : Sound s' := by
  obtain ⟨F, L, A, hO⟩ := hs.ordered
  exact ⟨hO.step hs.pos h, Nat.lt_of_lt_of_eq hs.pos (step_attr h).1.symm⟩

theorem Sound.room (hs : Sound s) : s.q.curmsgs ≤ s.q.maxmsg := by
  obtain ⟨F, L, A, hO⟩ := hs.ordered
  exact hO.room

/-- What holds in every state of every run. -/
theorem sound_run {os : List (Op T)} {alive : Nat → Bool} (hopen : mymqOpen maxmsg msgsize = some q)
    (h : runOps step os (Sys.init T q alive) = some s) :
    Sound s ∧ s.q.maxmsg = maxmsg ∧ s.q.msgsize = msgsize := by
  obtain ⟨-, hmax, hsize, -⟩ := wf_mymqOpen hopen
  refine runOps_invariant_all (I := fun s => Sound s ∧ s.q.maxmsg = maxmsg ∧ s.q.msgsize = msgsize)
    (fun o s s' hI hs => ?_) h ⟨sound_init hopen, hmax, hsize⟩
  obtain ⟨hsound, hM, hS⟩ := hI
  have hattr := step_attr hs
  exact ⟨hsound.step hs, hattr.1.trans hM, hattr.2.trans hS⟩

/-- A queue is a bounded stable priority queue. In every state of every
run: the free list `F` and the list of messages `L` go together through
each slot once; `mq_curmsgs` is the number of messages; the history of the
calls that returned is one of a queue that gives out the oldest message of
the highest priority, and leaves it with `A`; the messages on the list are
those of `A` by falling priority, and in the order they were sent where
the priority is the same; a call that fails changes nothing but `errno`;
and no call dumps core or loops. -/
theorem mymq_is_priority_queue {os : List (Op T)} {alive : Nat → Bool}
    (hopen : mymqOpen maxmsg msgsize = some q) (h : runOps step os (Sys.init T q alive) = some s) :
    (∃ F L A, Walk (msgNext s.q.mem) s.q.free F 0 ∧
      Walk (msgNext s.q.mem) (msgNext s.q.mem headOff) L 0 ∧
      (F ++ L).Perm (slots maxmsg msgsize) ∧ (F ++ L).Nodup ∧ s.q.curmsgs = L.length ∧
      replay (s.returned.map Prod.snd) = some A ∧ StablySorted Msg.rank (L.map (msgAt s.q.mem)) A) ∧
    (∀ o s' t e, step o s = some s' →
      s'.returned = s.returned ++ [(t, .failed e)] → s' = fail t e s) ∧
    (∀ t m nonblock, s.thread t = .out → ∃ woken s', step (.send t m nonblock woken) s = some s') ∧
    (∀ t maxlen nonblock, s.thread t = .out →
      ∃ woken s', step (.receive t maxlen nonblock woken) s = some s') ∧
    ∀ t k, s.thread t = .woken k → ∃ woken s', step (.resume t woken) s = some s' := by
  obtain ⟨⟨⟨F, L, A, hO⟩, hpos⟩, hmax, hsize⟩ := sound_run hopen h
  refine ⟨⟨F, L, A, hO.wf.free, hO.wf.msgs, ?_, hO.wf.nodup, hO.wf.count,
    hO.history, hO.order⟩, fun o s' t e hs hf => eq_of_failed hs hf,
    fun t m nonblock ht => hO.can_send hpos ht,
    fun t maxlen nonblock ht => hO.can_receive ht, fun t k ht => hO.can_resume ht⟩
  have := hO.wf.cover
  rwa [hmax, hsize] at this

/-- Two messages are sent to a queue for two, and the one sent second is
received: its priority is higher. -/
theorem mymq_is_priority_queue_two : ∃ q s, mymqOpen 2 8 = some q ∧
    runOps step [.send 0 ⟨1, [7]⟩ false none, .send 0 ⟨5, [8, 9]⟩ false none,
      .receive 0 8 false none] (Sys.init (Fin 1) q fun _ => true) = some s ∧
    s.returned = [(0, .sent ⟨1, [7]⟩), (0, .sent ⟨5, [8, 9]⟩), (0, .received ⟨5, [8, 9]⟩)] ∧
    ∃ F L A, Walk (msgNext s.q.mem) s.q.free F 0 ∧
      Walk (msgNext s.q.mem) (msgNext s.q.mem headOff) L 0 ∧
      (F ++ L).Perm (slots 2 8) ∧ (F ++ L).Nodup ∧ s.q.curmsgs = L.length ∧
      replay (s.returned.map Prod.snd) = some A ∧
      StablySorted Msg.rank (L.map (msgAt s.q.mem)) A := by
  have hrun : ((mymqOpen 2 8).bind fun q => (runOps step
      [.send 0 ⟨1, [7]⟩ false none, .send 0 ⟨5, [8, 9]⟩ false none, .receive 0 8 false none]
      (Sys.init (Fin 1) q fun _ => true)).map Sys.returned)
      = some [(0, .sent ⟨1, [7]⟩), (0, .sent ⟨5, [8, 9]⟩),
        (0, .received ⟨5, [8, 9]⟩)] := by decide +kernel
  obtain ⟨q, hq, hs⟩ := Option.bind_eq_some_iff.mp hrun
  obtain ⟨s, hs, hret⟩ := Option.map_eq_some_iff.mp hs
  exact ⟨q, s, hq, hs, hret, (mymq_is_priority_queue hq hs).1⟩

end LearnLinux.Mq
