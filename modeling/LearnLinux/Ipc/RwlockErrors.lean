/-
What `pthread_rwlock_rdlock` and `pthread_rwlock_wrlock` of
`my_rwlock_cancel` return.

A call is followed through the results of its library calls. A wait comes
with the fields as other threads have left them. Beside the fields a call
carries whether it holds the mutex, whether it did at each access to the
counters so far, and whether it has been counted in.

Both functions end with `return (0)`, whatever the last wait returned, and
`wrlock` takes a mutex that could not be locked for a locked one.
-/
import Mathlib

namespace LearnLinux.RwlockErrors

structure Rw where
  magic : Nat
  refcount : Int
  nwaitreaders : Int
  nwaitwriters : Int
  deriving DecidableEq

def RW_MAGIC : Nat := 0x19283746
def EINVAL : Nat := 22

/-- A call under way; `result` is the error number at hand. -/
structure Call where
  rw : Rw
  result : Nat
  held : Bool
  safe : Bool := true
  counted : Bool := false
  deriving DecidableEq

/-- An access to the counters. -/
def Call.access (f : Rw → Rw) (c : Call) : Call :=
  { c with rw := f c.rw, safe := c.safe && c.held }

/-- `pthread_cond_wait`; one that fails has not touched the mutex. -/
def Call.condWait (result : Nat) (rw : Rw) (c : Call) : Call :=
  { c with rw := rw, result := result, held := c.held || result == 0 }

/-- What readers and writers do differently. -/
structure Side where
  busy : Rw → Bool
  waiters : Int → Rw → Rw
  count : Rw → Rw

def reader : Side where
  busy rw := rw.refcount < 0 || rw.nwaitwriters > 0
  waiters d rw := { rw with nwaitreaders := rw.nwaitreaders + d }
  count rw := { rw with refcount := rw.refcount + 1 }

def writer : Side where
  busy rw := rw.refcount ≠ 0
  waiters d rw := { rw with nwaitwriters := rw.nwaitwriters + d }
  count rw := { rw with refcount := -1 }

/-- The loop; without a further wait to come it does not return. -/
def waitLoop (k : Side) : List (Nat × Rw) → Call → Option Call
  | [], c => if k.busy c.rw then none else some (c.access id)
  | (e, rw) :: waits, c =>
    if k.busy c.rw then
      let c := (((c.access id).access (k.waiters 1)).condWait e rw).access (k.waiters (-1))
      if e ≠ 0 then some c else waitLoop k waits c
    else some (c.access id)

/-- A call, `fails` being the test of what `pthread_mutex_lock` returned:
what it returns, and how it ends. -/
def lock (fails : Nat → Bool) (k : Side) (rw : Rw) (m : Nat) (waits : List (Nat × Rw)) :
    Option (Nat × Call) :=
  if rw.magic ≠ RW_MAGIC then some (EINVAL, { rw := rw, result := EINVAL, held := false })
  else if fails m then some (m, { rw := rw, result := m, held := false })
  else (waitLoop k waits { rw := rw, result := m, held := m == 0 }).map fun c =>
    let c := if c.result = 0 then { c.access k.count with counted := true } else c
    (0, { c with held := false })

def rdlock : Rw → Nat → List (Nat × Rw) → Option (Nat × Call) := lock (fun m => m ≠ 0) reader

def wrlock : Rw → Nat → List (Nat × Rw) → Option (Nat × Call) :=
  lock (fun m => (m : Int) = -1) writer

-- ======== what is reported

/-- Success is reported to a caller that is counted and to no other, the
error number to the others, and the mutex was held. -/
def Reports (r : Nat × Call) : Prop :=
  (r.1 = 0 ↔ r.2.counted) ∧ (r.2.counted = false → r.1 = r.2.result) ∧ r.2.safe

/-- The results of the waits that a call makes. -/
def made (k : Side) : List (Nat × Rw) → Rw → List Nat
  | [], _ => []
  | (e, rw') :: waits, rw =>
    if k.busy rw then e :: (if e ≠ 0 then [] else made k waits (k.waiters (-1) rw')) else []

variable {k : Side} {rw : Rw} {m : Nat} {waits : List (Nat × Rw)} {c c' : Call} {r : Nat × Call}

/-- How the loop ends. The mutex is neither lost nor, where it was not
held, is the access made up for. -/
theorem waitLoop_spec (h : waitLoop k waits c = some c') :
    c'.counted = c.counted ∧ c'.safe = (c.safe && c.held) ∧ (c.held → c'.held)
      ∧ (c.result = 0 → (c'.result = 0 ↔ ∀ e ∈ made k waits c.rw, e = 0)) := by
  induction waits generalizing c with
  | nil =>
    rw [waitLoop] at h
    split at h
    · cases h
    · cases h
      exact ⟨rfl, rfl, id, fun h0 => by simp [Call.access, made, h0]⟩
  | cons w waits ih =>
    obtain ⟨e, rw'⟩ := w
    rw [waitLoop] at h
    rw [made]
    split at h
    · rename_i hb
      rw [if_pos hb]
      dsimp only at h
      split at h
      · rename_i he
        cases h
        simp +contextual [Call.access, Call.condWait, he]
      · rename_i he
        obtain ⟨h1, h2, h3, h4⟩ := ih h
        have he := not_not.mp he
        refine ⟨h1, ?_, fun hc => h3 (by simp [Call.access, Call.condWait, hc]), fun _ => ?_⟩
        · rw [h2]
          simp [Call.access, Call.condWait, he]
        · rw [h4 he, if_neg (by simp [he])]
          simp [Call.access, Call.condWait, he]
    · rename_i hb
      cases h
      rw [if_neg hb]
      exact ⟨rfl, rfl, id, fun h0 => by simp [Call.access, h0]⟩

/-- A call that has gone past its tests reports what happened exactly if the mutex was
locked and no wait failed. -/
theorem lock_reports {fails : Nat → Bool} (hm : rw.magic = RW_MAGIC) (hf : fails m = false)
    (h : lock fails k rw m waits = some r) :
    Reports r ↔ m = 0 ∧ ∀ e ∈ made k waits rw, e = 0 := by
  rw [lock, if_neg (not_not.mpr hm), if_neg (by simp [hf])] at h
  obtain ⟨c, hc, rfl⟩ := Option.map_eq_some_iff.mp h
  obtain ⟨h1, h2, h3, h4⟩ := waitLoop_spec hc
  rcases eq_or_ne m 0 with rfl | hne
  · rw [← h4 rfl]
    by_cases hr : c.result = 0
    · simp [Reports, Call.access, hr, h2, h3]
    · simp [Reports, hr, h1]
  · have hs : c.safe = false := by simp [h2, hne]
    refine iff_of_false (fun hR => ?_) fun hR => hne hR.1
    have := hR.2.2
    split at this <;> simp [Call.access, hs] at this

theorem lock_magic {fails : Nat → Bool} (hm : rw.magic ≠ RW_MAGIC)
    (h : lock fails k rw m waits = some r) : Reports r := by
  rw [lock, if_pos hm] at h
  cases h
  simp [Reports, EINVAL]

/-- For every lock and all results of the library calls: `rdlock` reports
what happened unless a wait has failed, `wrlock` unless a wait or locking
the mutex has. -/
theorem lock_reports_iff (rw : Rw) (m : Nat) (waits : List (Nat × Rw)) (r : Nat × Call) :
    (rdlock rw m waits = some r → (Reports r ↔
      rw.magic ≠ RW_MAGIC ∨ m ≠ 0 ∨ ∀ e ∈ made reader waits rw, e = 0))
    ∧ (wrlock rw m waits = some r → (Reports r ↔
      rw.magic ≠ RW_MAGIC ∨ m = 0 ∧ ∀ e ∈ made writer waits rw, e = 0)) := by
  by_cases hm : rw.magic = RW_MAGIC
  · refine ⟨fun h => ?_, fun h => ?_⟩
    · by_cases h0 : m = 0
      · rw [lock_reports hm (by simp [h0]) h]
        simp [hm, h0]
      · rw [rdlock, lock, if_neg (not_not.mpr hm), if_pos (by simp [h0])] at h
        cases h
        simp [Reports, h0]
    · rw [lock_reports hm (decide_eq_false (by omega)) h]
      simp [hm]
  · exact ⟨fun h => iff_of_true (lock_magic hm h) (.inl hm),
      fun h => iff_of_true (lock_magic hm h) (.inl hm)⟩

theorem lock_reports_iff_free :
    ∃ r, wrlock ⟨RW_MAGIC, 0, 0, 0⟩ 0 [] = some r ∧ Reports r :=
  ⟨_, rfl, ((lock_reports_iff ⟨RW_MAGIC, 0, 0, 0⟩ 0 [] _).2 rfl).mpr (.inr ⟨rfl, nofun⟩)⟩

/-- A reader whose wait fails is told that it has the lock, and so is a
writer that could not lock the mutex. -/
theorem failure_reported_as_success :
    (rdlock ⟨RW_MAGIC, -1, 0, 0⟩ 0 [(EINVAL, ⟨RW_MAGIC, -1, 1, 0⟩)]).map
      (fun r => (r.1, r.2.counted)) = some (0, false)
    ∧ (wrlock ⟨RW_MAGIC, 0, 0, 0⟩ 35 []).map (fun r => (r.1, r.2.counted)) = some (0, false) := by
  decide

end LearnLinux.RwlockErrors
