/-
Threads under one mutex, with condition variables.

Every operation holds the mutex from its start to its end, except inside
`pthread_cond_wait`. So what a thread does between two such points is one
step, and between the steps a thread is outside (`out`), or inside
`pthread_cond_wait`: not woken yet (`waiting`), or woken and on its way to
the mutex (`woken`). The thread carries what it needs to go on, `k`, from
which its condition variable is told too (`p k`).

`signal` takes the thread that is woken as an argument: it is any one of
those that wait, and none only if none waits. A wakeup without a signal is
`stir`.
-/
import LearnLinux.Lib.Refs

namespace LearnLinux.Lib

open Function (update update_self update_of_ne)

inductive Status (κ : Type*) where
  | out
  | waiting (k : κ)
  | woken (k : κ)
  deriving DecidableEq

variable {T κ : Type*}

namespace Status

/-- In `pthread_cond_wait` on the condition variable, with no wakeup
pending. -/
def isWaiting (p : κ → Bool) : Status κ → Bool
  | .waiting k => p k
  | _ => false

/-- In `pthread_cond_wait`, with a wakeup pending. -/
def isWoken (p : κ → Bool) : Status κ → Bool
  | .woken k => p k
  | _ => false

variable {p : κ → Bool} {k : κ} {x : Status κ}

@[simp] theorem isWaiting_out : isWaiting p .out = false := rfl
@[simp] theorem isWaiting_waiting : isWaiting p (.waiting k) = p k := rfl
@[simp] theorem isWaiting_woken : isWaiting p (.woken k) = false := rfl
@[simp] theorem isWoken_out : isWoken p .out = false := rfl
@[simp] theorem isWoken_waiting : isWoken p (.waiting k) = false := rfl
@[simp] theorem isWoken_woken : isWoken p (.woken k) = p k := rfl

theorem isWaiting_iff : x.isWaiting p = true ↔ ∃ k, x = .waiting k ∧ p k = true := by
  cases x <;> simp

theorem isWoken_iff : x.isWoken p = true ↔ ∃ k, x = .woken k ∧ p k = true := by
  cases x <;> simp

end Status

/-- `pthread_cond_broadcast`. -/
def broadcast (p : κ → Bool) (st : T → Status κ) (t : T) : Status κ :=
  match st t with
  | .waiting k => if p k then .woken k else .waiting k
  | x => x

variable [Fintype T] {P : Status κ → Bool} {st st' : T → Status κ}

-- ======== counting

/-- The number of threads with a status. -/
def num (P : Status κ → Bool) (st : T → Status κ) : Nat :=
  ∑ t, (P (st t)).toNat

theorem num_eq_zero_iff : num P st = 0 ↔ ∀ t, P (st t) = false := by
  unfold num
  rw [Finset.sum_eq_zero_iff]
  constructor
  · intro h t
    have := h t (Finset.mem_univ t)
    cases hp : P (st t) with
    | false => rfl
    | true =>
      rw [hp] at this
      cases this
  · intro h t _
    rw [h t]
    rfl

theorem num_pos_iff : 0 < num P st ↔ ∃ t, P (st t) = true := by
  rw [Nat.pos_iff_ne_zero, Ne, num_eq_zero_iff]
  simp

variable [DecidableEq T]

/-- One thread changes its status. -/
theorem num_update (P : Status κ → Bool) (st : T → Status κ) (t : T) (x : Status κ) :
    num P (update st t x) + (P (st t)).toNat = num P st + (P x).toNat := by
  have hswap := sum_swap (f := fun u => (P (update st t x u)).toNat) t fun u hu => by
      rw [update_of_ne hu]
  simp only [update_self] at hswap
  exact hswap

/-- Who is counted once a thread is outside. -/
theorem num_out_pos_iff (hP : P .out = false) (t : T) :
    0 < num P (update st t .out) ↔ ∃ u, u ≠ t ∧ P (st u) = true := by
  rw [num_pos_iff]
  constructor
  · rintro ⟨u, hu⟩
    by_cases hut : u = t
    · rw [hut, update_self, hP] at hu
      cases hu
    · rw [update_of_ne hut] at hu
      exact ⟨u, hut, hu⟩
  · rintro ⟨u, hut, hu⟩
    exact ⟨u, by rwa [update_of_ne hut]⟩

-- ======== wakeups

/-- `pthread_cond_signal`, waking the given thread. -/
def signal (p : κ → Bool) (st : T → Status κ) : Option T → Option (T → Status κ)
  | some u =>
    match st u with
    | .waiting k =>
      if p k then some (update st u (.woken k)) else none
    | _ => none
  | none => if num (Status.isWaiting p) st = 0 then some st else none

/-- A signal that is sent only if the test holds. -/
def signalIf (c : Prop) [Decidable c] (p : κ → Bool) (st : T → Status κ)
    (u : Option T) : Option (T → Status κ) :=
  if c then signal p st u else if u = none then some st else none

/-- A wakeup that no signal caused. -/
def stir (st : T → Status κ) (t : T) : Option (T → Status κ) :=
  match st t with
  | .waiting k => some (update st t (.woken k))
  | _ => none

variable {p : κ → Bool} {u : Option T} {c : Prop}

omit [Fintype T] in
theorem stir_cases {t : T} (h : stir st t = some st') :
    ∃ k, st t = .waiting k ∧ st' = update st t (.woken k) := by
  unfold stir at h
  split at h
  · rename_i k hk
    exact ⟨k, hk, (Option.some.inj h).symm⟩
  · cases h

/-- A signal wakes one of those that wait, if there are any. -/
theorem signal_cases (h : signal p st u = some st') : (num (Status.isWaiting p) st = 0 ∧ st' = st) ∨
    ∃ t k, st t = .waiting k ∧ p k = true ∧ st' = update st t (.woken k) := by
  cases u with
  | none =>
    obtain ⟨hn, h⟩ := Option.ite_none_right_eq_some.mp h
    exact .inl ⟨hn, (Option.some.inj h).symm⟩
  | some t =>
    simp only [signal] at h
    split at h
    · rename_i k hk
      split at h
      · rename_i hp
        exact .inr ⟨t, k, hk, hp, (Option.some.inj h).symm⟩
      · cases h
    · cases h

theorem signalIf_cases [Decidable c] (h : signalIf c p st u = some st') :
    (¬ c ∧ st' = st) ∨ (c ∧ signal p st u = some st') := by
  unfold signalIf at h
  split at h
  · rename_i hc
    exact .inr ⟨hc, h⟩
  · rename_i hc
    split at h
    · exact .inl ⟨hc, (Option.some.inj h).symm⟩
    · cases h

/-- Some thread, or none, can be given to `signal`. -/
theorem exists_signal : ∃ u st', signal p st u = some st' := by
  by_cases hn : num (Status.isWaiting p) st = 0
  · exact ⟨none, st, if_pos hn⟩
  · obtain ⟨t, ht⟩ := num_pos_iff.mp (Nat.pos_of_ne_zero hn)
    cases hk : st t with
    | out | woken k =>
      rw [hk] at ht
      cases ht
    | waiting k =>
      rw [hk] at ht
      refine ⟨some t, update st t (.woken k), ?_⟩
      simp only [signal, hk]
      exact if_pos ht

theorem exists_signalIf (c : Prop) [Decidable c] (p : κ → Bool)
    (st : T → Status κ) : ∃ u st', signalIf c p st u = some st' := by
  unfold signalIf
  by_cases hc : c
  · simp only [if_pos hc]
    exact exists_signal
  · simp only [if_neg hc]
    exact ⟨none, st, if_pos rfl⟩

-- ======== what for

/-- The thread is in `pthread_cond_wait`, woken or not, for `k`. -/
def InWait (st : T → Status κ) (t : T) (k : κ) : Prop :=
  st t = .waiting k ∨ st t = .woken k

variable {t : T} {k k' : κ} {x : Status κ} {v : T}

omit [Fintype T] in
theorem inWait_update_out : InWait (update st v .out) t k ↔ t ≠ v ∧ InWait st t k := by
  unfold InWait
  by_cases htv : t = v
  · subst htv
    simp
  · simp [htv]

omit [Fintype T] in
/-- A wakeup changes nothing of what a thread waits for. -/
theorem inWait_wake (hv : st v = .waiting k') :
    InWait (update st v (.woken k')) t k ↔ InWait st t k := by
  unfold InWait
  by_cases htv : t = v
  · subst htv
    simp [hv]
  · simp [htv]

theorem inWait_signalIf [Decidable c]
    (h : signalIf c p st u = some st') : InWait st' t k ↔ InWait st t k := by
  rcases signalIf_cases h with ⟨-, rfl⟩ | ⟨-, h⟩
  · exact Iff.rfl
  · rcases signal_cases h with ⟨-, rfl⟩ | ⟨v, k', hv, -, rfl⟩
    · exact Iff.rfl
    · exact inWait_wake hv

omit [Fintype T] in
theorem inWait_block (h : InWait (update st v (.waiting k')) t k) :
    (t = v ∧ k = k') ∨ InWait st t k := by
  unfold InWait at h
  by_cases htv : t = v
  · subst htv
    simp only [update_self, Status.waiting.injEq, reduceCtorEq, or_false] at h
    exact .inl ⟨rfl, h.symm⟩
  · rw [update_of_ne htv] at h
    exact .inr h

end LearnLinux.Lib
