/-
The process table stays intact.

Every step is one of a few shapes, or two of them in a row: the fields of
a task change that do not matter here (`Touched`), a child gets a slot, a
task hands its children to pid 1, a task without children becomes a
zombie, a zombie is released. `Inv` is kept by each shape. What makes it
inductive is that a father is not only no zombie, but not in `do_exit`
either: a task that is has no children left, and cannot get new ones.
-/
import LearnLinux.Sched.Process

namespace LearnLinux.Process

open Function (update_self update_of_ne update_idem update_eq_self)
open Lib

variable {s s' : System} {t i j n nr : Nat} {p q current : Task} {o : Op} {pid code last : Int}
variable {wuntraced : Bool}
variable {x : Option Task}

theorem set_self : (s.set i x).task i = x :=
  update_self ..

theorem set_of_ne (h : j ≠ i) : (s.set i x).task j = s.task j :=
  update_of_ne h ..

theorem set_cases {x : Option Task} (h : (s.set i x).task j = some q) :
    (j = i ∧ x = some q) ∨ (j ≠ i ∧ s.task j = some q) :=
  Lib.update_cases h

/-- A slot that is filled is not the empty one. -/
theorem set_keeps (hnone : s.task nr = none) (hq : s.task i = some q) :
    (s.set nr x).task i = some q := by
  refine (set_of_ne ?_).trans hq
  rintro rfl
  cases hnone.symm.trans hq

/-- Different tasks are in different slots. -/
theorem slot_ne (hp : s.task i = some p) (hq : s.task j = some q) (hne : q ≠ p) : j ≠ i := by
  rintro rfl
  exact hne (Option.some.inj (hq.symm.trans hp))

-- ======== the invariant

/-- The pid belongs to a task that can still wait for children. -/
def System.Live (s : System) (pid : Int) : Prop :=
  ∃ j q, s.task j = some q ∧ q.pid = pid ∧ q.state ≠ .zombie ∧ q.phase ≠ .exiting

structure Inv (s : System) : Prop where
  range : ∀ i p, s.task i = some p → i < NR_TASKS
  distinct : ∀ i j p q, s.task i = some p → s.task j = some q → p.pid = q.pid → i = j
  pages : ∀ i j p q, s.task i = some p → s.task j = some q → p.page = q.page → i = j
  /-- `task[0]` is the task with pid 0, and stays. -/
  idle : ∀ i p, s.task i = some p → (i = 0 ↔ p.pid = 0)
  awake : ∀ p, s.task 0 = some p → p.state ≠ .zombie ∧ p.phase ≠ .exiting
  init : ∀ i p, s.task i = some p → p.pid ≠ 0 → s.Live 1
  father : ∀ i p, s.task i = some p → p.pid ≠ 0 → p.pid ≠ 1 → p.father ≠ 0 ∧ s.Live p.father
  last : 0 ≤ s.lastPid ∧ s.lastPid < 2 ^ 31
  fresh : s.lastPid = 0 → ∀ i p, s.task i = some p → p.pid = 0
  good : s.noFather = false

theorem Inv.intact (h : Inv s) : s.Intact := by
  refine ⟨h.distinct, fun i p hp h0 h1 => ?_⟩
  obtain ⟨-, j, q, hq, hpid, hz, -⟩ := h.father i p hp h0 h1
  exact ⟨j, q, hq, hpid, hz⟩

/-- The task with pid 1 is not a zombie and not on its way to be one. -/
theorem Inv.init_live (h : Inv s) (hp : s.task i = some p)
    (h1 : p.pid = 1) : p.state ≠ .zombie ∧ p.phase ≠ .exiting := by
  obtain ⟨j, q, hq, hpid, hz, he⟩ := h.init i p hp (by rw [h1]; decide)
  obtain rfl := h.distinct i j p q hp hq (h1.trans hpid.symm)
  rw [hp] at hq
  cases hq
  exact ⟨hz, he⟩

/-- Every task was there before, with its pid and its page, and its father
can still wait for it. -/
theorem Inv.of_back (h : Inv s) (hl : s'.lastPid = s.lastPid) (hn : s'.noFather = s.noFather)
    (hback : ∀ i q, s'.task i = some q → ∃ p, s.task i = some p ∧ q.pid = p.pid ∧ q.page = p.page ∧
      (p.pid ≠ 0 → p.father ≠ 0 ∧ s.Live p.father → q.father ≠ 0 ∧ s'.Live q.father))
    (hawake : ∀ q, s'.task 0 = some q → q.state ≠ .zombie ∧ q.phase ≠ .exiting)
    (hone : s.Live 1 → s'.Live 1) : Inv s' := by
  refine ⟨fun i q hq => ?_, fun i j a b ha hb hab => ?_, fun i j a b ha hb hab => ?_,
    fun i q hq => ?_, hawake, fun i q hq h0 => ?_, fun i q hq h0 h1 => ?_,
    by rw [hl]; exact h.last, fun h0 i q hq => ?_, by rw [hn]; exact h.good⟩
  · obtain ⟨p, hp, -⟩ := hback i q hq
    exact h.range i p hp
  · obtain ⟨a', ha', hpa, -⟩ := hback i a ha
    obtain ⟨b', hb', hpb, -⟩ := hback j b hb
    exact h.distinct i j a' b' ha' hb' (by rw [← hpa, hab, hpb])
  · obtain ⟨a', ha', -, hpa, -⟩ := hback i a ha
    obtain ⟨b', hb', -, hpb, -⟩ := hback j b hb
    exact h.pages i j a' b' ha' hb' (by rw [← hpa, hab, hpb])
  · obtain ⟨p, hp, hpid, -⟩ := hback i q hq
    rw [hpid]
    exact h.idle i p hp
  · obtain ⟨p, hp, hpid, -⟩ := hback i q hq
    exact hone (h.init i p hp (hpid ▸ h0))
  · obtain ⟨p, hp, hpid, -, hf⟩ := hback i q hq
    exact hf (hpid ▸ h0) (h.father i p hp (hpid ▸ h0) (hpid ▸ h1))
  · obtain ⟨p, hp, hpid, -⟩ := hback i q hq
    rw [hpid]
    exact h.fresh (hl ▸ h0) i p hp

-- ======== the small changes

/-- What the invariant says of a task has not changed. -/
structure Same (p q : Task) : Prop where
  page : q.page = p.page
  pid : q.pid = p.pid
  father : q.father = p.father
  zombie : q.state = .zombie ↔ p.state = .zombie
  exiting : q.phase = .exiting ↔ p.phase = .exiting

/-- The task in slot `t` has made a small change to itself, and others may
have got a signal. -/
structure Touched (t : Nat) (s s' : System) : Prop where
  self : ∀ p, s.task t = some p → ∃ q, s'.task t = some q ∧ Same p q
  other : ∀ i p, i ≠ t → s.task i = some p → ∃ c, s'.task i = some { p with sigchld := c }
  none : ∀ i, s.task i = none → s'.task i = none

theorem Touched.congr (h : Touched t s s') {x : System}
    (hx : x.task = s'.task) : Touched t s x := by
  refine ⟨fun p hp => ?_, fun i p hi hp => ?_, fun i hi => ?_⟩
  · rw [hx]
    exact h.self p hp
  · rw [hx]
    exact h.other i p hi hp
  · rw [hx]
    exact h.none i hi

theorem Touched.refl (t : Nat) (s : System) : Touched t s s :=
  ⟨fun p hp => ⟨p, hp, ⟨rfl, rfl, rfl, Iff.rfl, Iff.rfl⟩⟩,
    fun _ p _ hp => ⟨p.sigchld, hp⟩, fun _ hi => hi⟩

theorem Touched.task (h : Touched t s s') (hp : s.task i = some p) :
    ∃ q, s'.task i = some q ∧ Same p q := by
  by_cases hit : i = t
  · subst hit
    exact h.self p hp
  · obtain ⟨c, hc⟩ := h.other i p hit hp
    exact ⟨_, hc, ⟨rfl, rfl, rfl, Iff.rfl, Iff.rfl⟩⟩

theorem Touched.back (h : Touched t s s') (hq : s'.task i = some q) :
    ∃ p, s.task i = some p ∧ Same p q := by
  cases hp : s.task i with
  | none =>
    rw [h.none i hp] at hq
    cases hq
  | some p =>
    obtain ⟨q', hq', hs⟩ := h.task hp
    rw [hq] at hq'
    cases hq'
    exact ⟨p, rfl, hs⟩

theorem Touched.live (h : Touched t s s') (hl : s.Live pid) : s'.Live pid := by
  obtain ⟨j, q, hq, hpid, hz, he⟩ := hl
  obtain ⟨q', hq', hs⟩ := h.task hq
  exact ⟨j, q', hq', hs.pid.trans hpid, fun hc => hz (hs.zombie.mp hc),
    fun hc => he (hs.exiting.mp hc)⟩

theorem touched_set (hp : s.task t = some p) (h : Same p q) : Touched t s (s.set t (some q)) := by
  refine ⟨fun p' hp' => ?_, fun i p' hi hp' => ?_, fun i hi => ?_⟩
  · rw [hp] at hp'
    cases hp'
    exact ⟨q, set_self .., h⟩
  · exact ⟨p'.sigchld, (set_of_ne hi).trans hp'⟩
  · have hne : i ≠ t := by
      rintro rfl
      rw [hp] at hi
      cases hi
    exact (set_of_ne hne).trans hi

/-- `SIGCHLD` for the task in slot `j`. -/
theorem touched_signal (s : System) (t j : Nat) : Touched t s
    (s.set j ((s.task j).map fun q => { q with sigchld := true })) := by
  have hat : ∀ i q, s.task i = some q → ∃ c,
      (s.set j ((s.task j).map fun q => { q with sigchld := true })).task i
        = some { q with sigchld := c } := by
    intro i q hq
    by_cases hij : i = j
    · subst hij
      refine ⟨true, (set_self ..).trans ?_⟩
      rw [hq]
      rfl
    · exact ⟨q.sigchld, (set_of_ne hij).trans hq⟩
  refine ⟨fun p' hp' => ?_, fun i p' _ hp' => hat i p' hp', fun i hi => ?_⟩
  · obtain ⟨c, hc⟩ := hat t p' hp'
    exact ⟨_, hc, ⟨rfl, rfl, rfl, Iff.rfl, Iff.rfl⟩⟩
  · by_cases hij : i = j
    · subst hij
      refine (set_self ..).trans ?_
      rw [hi]
      rfl
    · exact (set_of_ne hij).trans hi

theorem Inv.touched (h : Inv s) (ht : Touched t s s')
    (hl : s'.lastPid = s.lastPid) (hn : s'.noFather = s.noFather) : Inv s' := by
  refine h.of_back hl hn (fun i q hq => ?_) (fun q hq => ?_) ht.live
  · obtain ⟨p, hp, hs⟩ := ht.back hq
    refine ⟨p, hp, hs.pid, hs.page, fun _ hf => ?_⟩
    rw [hs.father]
    exact ⟨hf.1, ht.live hf.2⟩
  · obtain ⟨p, hp, hs⟩ := ht.back hq
    rw [Ne, hs.zombie, Ne, hs.exiting]
    exact h.awake p hp

/-- What is not in the table is no part of the invariant. -/
theorem Inv.congr (h : Inv s) (ht : s'.task = s.task)
    (hl : s'.lastPid = s.lastPid) (hn : s'.noFather = s.noFather) : Inv s' :=
  h.touched ((Touched.refl 0 s).congr ht) hl hn

-- ======== exit and release

/-- A task past its children becomes a zombie. -/
theorem Inv.becomes_zombie (h : Inv s) (hp : s.task t = some p)
    (he : p.phase = .exiting) (code : Int) :
    Inv (s.set t (some { p with state := .zombie, exitCode := code })) := by
  have hne : t ≠ 0 := by
    rintro rfl
    exact (h.awake p hp).2 he
  have hlive : ∀ {pid}, s.Live pid → (s.set t (some { p with
      state := .zombie, exitCode := code })).Live pid := by
    rintro pid ⟨j, q, hq, hpid, hz, hx⟩
    have hjt : j ≠ t := slot_ne hp hq fun hqp => hx (hqp ▸ he)
    exact ⟨j, q, (set_of_ne hjt).trans hq, hpid, hz, hx⟩
  refine h.of_back rfl rfl (fun i q hq => ?_) (fun q hq => ?_) hlive
  · -- every slot keeps what it says, but for the state of this one
    rcases set_cases hq with ⟨rfl, ⟨⟩⟩ | ⟨-, hq⟩
    · exact ⟨p, hp, rfl, rfl, fun _ hf => ⟨hf.1, hlive hf.2⟩⟩
    · exact ⟨q, hq, rfl, rfl, fun _ hf => ⟨hf.1, hlive hf.2⟩⟩
  · exact h.awake q ((set_of_ne hne.symm).symm.trans hq)

/-- A zombie's slot is emptied. -/
theorem Inv.removed (h : Inv s) (hp : s.task i = some p)
    (hz : p.state = .zombie) (ht : s'.task = (s.set i none).task)
    (hl : s'.lastPid = s.lastPid) (hn : s'.noFather = s.noFather) : Inv s' := by
  have hback : ∀ j q, s'.task j = some q → s.task j = some q := by
    intro j q hq
    rw [ht] at hq
    rcases set_cases hq with ⟨-, ⟨⟩⟩ | ⟨-, hq⟩
    exact hq
  have hlive : ∀ {pid}, s.Live pid → s'.Live pid := by
    rintro pid ⟨j, q, hq, hpid, hzq, hx⟩
    have hji : j ≠ i := slot_ne hp hq fun hqp => hzq (hqp ▸ hz)
    refine ⟨j, q, ?_, hpid, hzq, hx⟩
    rw [ht, set_of_ne hji]
    exact hq
  exact h.of_back hl hn (fun j q hq =>
    ⟨q, hback j q hq, rfl, rfl, fun _ hf => ⟨hf.1, hlive hf.2⟩⟩)
    (fun q hq => h.awake q (hback 0 q hq)) hlive

theorem exitBegin_back (hq : (exitBegin s t p).task i = some q) : ∃ q', s.task i = some q' ∧
      q = orphan t p.pid (s.zombieChild p.pid) i q' := by
  obtain ⟨q', hq', rfl⟩ := Option.map_eq_some_iff.mp hq
  exact ⟨q', hq', rfl⟩

/-- The children of an exiting task go to the task with pid 1. -/
theorem Inv.exitBegin (h : Inv s) (hp : s.task t = some p)
    (h0 : p.pid ≠ 0) (h1 : p.pid ≠ 1) : Inv (exitBegin s t p) := by
  have hlive : ∀ pid, pid ≠ p.pid → s.Live pid → (Process.exitBegin s t p).Live pid := by
    rintro pid hpid ⟨j, q, hq, hqp, hz, he⟩
    have hjt : j ≠ t := slot_ne hp hq fun h => hpid (h ▸ hqp).symm
    refine ⟨j, orphan t p.pid (s.zombieChild p.pid) j q, ?_, hqp, hz, ?_⟩
    · exact Option.map_eq_some_iff.mpr ⟨q, hq, rfl⟩
    · simp [orphan, hjt, he]
  refine h.of_back rfl rfl (fun i q hq => ?_) (fun q hq => ?_) (hlive 1 h1.symm)
  · obtain ⟨q', hq', rfl⟩ := exitBegin_back hq
    refine ⟨q', hq', rfl, rfl, fun hq0 ⟨hf, hl⟩ => ?_⟩
    by_cases hfp : q'.father = p.pid
    · have : (orphan t p.pid (s.zombieChild p.pid) i q').father = 1 :=
        if_pos hfp
      rw [this]
      exact ⟨by decide, hlive 1 h1.symm (h.init i q' hq' hq0)⟩
    · have : (orphan t p.pid (s.zombieChild p.pid) i q').father = q'.father :=
        if_neg hfp
      rw [this]
      exact ⟨hf, hlive _ hfp hl⟩
  · obtain ⟨q', hq', rfl⟩ := exitBegin_back hq
    have ht : 0 ≠ t := by
      rintro rfl
      exact h0 ((h.idle 0 p hp).mp rfl)
    obtain ⟨hz, he⟩ := h.awake q' hq'
    refine ⟨hz, ?_⟩
    simpa [orphan, ht] using he

theorem usesPid_iff : s.usesPid pid = true ↔
    ∃ i p, i < NR_TASKS ∧ s.task i = some p ∧ p.pid = pid := by
  unfold System.usesPid
  rw [List.any_eq_true]
  constructor
  · rintro ⟨i, hi, h⟩
    cases hp : s.task i with
    | none =>
      rw [hp] at h
      cases h
    | some p =>
      rw [hp] at h
      exact ⟨i, p, List.mem_range.mp hi, hp, beq_iff_eq.mp h⟩
  · rintro ⟨i, p, hi, hp, rfl⟩
    refine ⟨i, List.mem_range.mpr hi, ?_⟩
    rw [hp]
    exact beq_self_eq_true _

/-- `tell_father` finds a father that is there. -/
theorem tellFather_live (hr : ∀ i p, s.task i = some p →
    i < NR_TASKS) (h0 : pid ≠ 0) (hl : s.Live pid) : ∃ j, tellFather s t p pid =
      some (s.set j ((s.task j).map fun q => { q with sigchld := true })) := by
  obtain ⟨j, q, hq, rfl, -⟩ := hl
  unfold tellFather
  rw [if_neg h0]
  cases hs : s.slotOf q.pid with
  | some i => exact ⟨i, rfl⟩
  | none =>
    have := List.find?_eq_none.mp hs j (List.mem_range.mpr (hr j q hq))
    rw [hq] at this
    exact absurd (beq_self_eq_true _) this

theorem Inv.exitEnd (h : Inv s) (hp : s.task t = some p) (he : p.phase = .exiting)
    (hs : exitEnd s t p code = some s') :
    Inv s' ∧ s'.freed = s.freed ∧ ∃ q, Touched t (s.set t (some q)) s' := by
  have hi := h.becomes_zombie hp he code
  have hne : p.pid ≠ 0 ∧ p.pid ≠ 1 := by
    refine ⟨fun hc => ?_, fun hc => (h.init_live hp hc).2 he⟩
    obtain rfl := (h.idle t p hp).mpr hc
    exact (h.awake p hp).2 he
  have ht : (s.set t (some { p with state := .zombie, exitCode := code })).task t
      = some { p with state := .zombie, exitCode := code } :=
    set_self ..
  obtain ⟨hf, hl⟩ := hi.father t _ ht hne.1 hne.2
  obtain ⟨j, hj⟩ := tellFather_live hi.range hf hl
  have hs : tellFather _ t _ _ = some s' := hs
  rw [hj] at hs
  cases hs
  exact ⟨hi.touched (touched_signal _ t j) rfl rfl, rfl, _, touched_signal _ t j⟩

-- ======== fork

theorem nextPid_bound (h : 0 ≤ last ∧ last < 2 ^ 31) :
    1 ≤ nextPid last ∧ nextPid last < 2 ^ 31 := by
  unfold nextPid
  split
  · omega
  · omega

theorem searchPid_spec (hl : 0 ≤ last ∧ last < 2 ^ 31) (h : searchPid s n last = some pid) :
    s.usesPid pid = false ∧ 1 ≤ pid ∧ pid < 2 ^ 31 := by
  induction n generalizing last with
  | zero => cases h
  | succ n ih =>
    have hb := nextPid_bound hl
    rw [searchPid] at h
    split at h
    · exact ih ⟨by omega, hb.2⟩ h
    · rename_i hu
      cases h
      exact ⟨Bool.eq_false_iff.mpr hu, hb⟩

/-- A search without result has tried the pids after `last`. -/
theorem searchPid_none (hl : 0 ≤ last ∧ last < 2 ^ 31) (h : searchPid s n last = none) :
    ∀ k < n, s.usesPid ((last + k) % (2 ^ 31 - 1) + 1) = true := by
  induction n generalizing last with
  | zero => exact fun k hk => absurd hk (Nat.not_lt_zero k)
  | succ n ih =>
    have hnext : nextPid last = last % (2 ^ 31 - 1) + 1 := by
      unfold nextPid
      split <;> omega
    rw [searchPid, hnext] at h
    split at h
    · rename_i hu
      intro k hk
      cases k with
      | zero => rwa [Nat.cast_zero, add_zero]
      | succ k =>
        have := ih (by omega) h k (by omega)
        rwa [show (last + (k + 1 : Nat)) % (2 ^ 31 - 1)
          = (last % (2 ^ 31 - 1) + 1 + k) % (2 ^ 31 - 1) by omega]
    · cases h

/-- `find_empty_process` ends, whatever the table: one of the first 65 pids
it tries belongs to none of the 64 tasks. -/
theorem searchPid_ends (hl : 0 ≤ s.lastPid ∧ s.lastPid < 2 ^ 31) :
    ∃ pid, searchPid s (NR_TASKS + 1) s.lastPid = some pid ∧ s.usesPid pid = false ∧
      1 ≤ pid ∧ pid < 2 ^ 31 := by
  cases h : searchPid s (NR_TASKS + 1) s.lastPid with
  | some pid => exact ⟨pid, rfl, searchPid_spec hl h⟩
  | none =>
    -- each of the 65 would be the pid of one of the 64 tasks
    choose! slot p hlt hp hpid using fun k hk => usesPid_iff.mp (searchPid_none hl h k hk)
    obtain ⟨j, hj, k, hk, hne, heq⟩ := Finset.exists_ne_map_eq_of_card_lt_of_maps_to
      (s := Finset.range (NR_TASKS + 1)) (t := Finset.range NR_TASKS) (f := slot) (by decide)
      fun k hk => Finset.mem_range.mpr (hlt k (Finset.mem_range.mp hk))
    rw [Finset.mem_range, NR_TASKS] at hj hk
    have hsame := hp j hj
    rw [heq, hp k hk, Option.some.injEq] at hsame
    have := hpid j hj
    rw [← hsame, hpid k hk] at this
    omega

theorem searchPid_ends_boot : ∃ pid, searchPid System.boot (NR_TASKS + 1) 0 = some pid ∧
    System.boot.usesPid pid = false ∧ 1 ≤ pid ∧ pid < 2 ^ 31 :=
  searchPid_ends (by decide)

theorem Inv.lastPid (h : Inv s) (hb : 1 ≤ pid ∧ pid < 2 ^ 31) : Inv { s with lastPid := pid } :=
  ⟨h.range, h.distinct, h.pages, h.idle, h.awake, h.init, h.father,
    ⟨by show 0 ≤ pid; omega, hb.2⟩, fun h0 => by
      have h0 : pid = 0 := h0
      omega, h.good⟩

theorem freeSlot_spec (h : s.freeSlot = some nr) : nr < NR_TASKS ∧ nr ≠ 0 ∧ s.task nr = none := by
  have hmem := List.mem_of_find?_eq_some h
  have hp := List.find?_some h
  simp only [ne_eq, Bool.and_eq_true, decide_not, Bool.not_eq_eq_eq_not,
    Bool.not_true, decide_eq_false_iff_not, Option.isNone_iff_eq_none] at hp
  exact ⟨List.mem_range.mp hmem, hp.1, hp.2⟩

/-- A child gets a slot. -/
theorem Inv.child (h : Inv s) (hp : s.task t = some p)
    (hrun : p.state = .running) (huser : p.phase = .user)
    (hnr : nr < NR_TASKS ∧ nr ≠ 0 ∧ s.task nr = none) {page : Nat}
    (hpage : s.Unused page) (hpid : s.usesPid s.lastPid = false)
    (hlast : 1 ≤ s.lastPid) (hfirst : p.pid = 0 → s.lastPid = 1) :
    Inv (s.set nr (some { p with
      page := page, pid := s.lastPid, father := p.pid,
      state := .running, sigchld := false })) := by
  obtain ⟨hlt, hne0, hnone⟩ := hnr
  generalize hc : ({ p with
    page := page, pid := s.lastPid, father := p.pid,
    state := .running, sigchld := false } : Task) = c
  have hcpid : c.pid = s.lastPid := by rw [← hc]
  have hcpage : c.page = page := by rw [← hc]
  have hlive : ∀ pid, s.Live pid → (s.set nr (some c)).Live pid := by
    rintro pid ⟨j, q, hq, hrest⟩
    exact ⟨j, q, set_keeps hnone hq, hrest⟩
  have hfresh : ∀ i q, s.task i = some q → q.pid ≠ c.pid := by
    intro i q hq hpq
    refine Bool.eq_false_iff.mp hpid (usesPid_iff.mpr ?_)
    exact ⟨i, q, h.range i q hq, hq, hpq.trans hcpid⟩
  -- the child is what it takes to have a task with pid 1
  have hone : (s.set nr (some c)).Live 1 := by
    by_cases h0 : p.pid = 0
    · refine ⟨nr, c, set_self .., hcpid.trans (hfirst h0), ?_, ?_⟩
      · rw [← hc]
        nofun
      · rw [← hc]
        intro hx
        rw [huser] at hx
        cases hx
    · exact hlive 1 (h.init t p hp h0)
  refine ⟨fun i q hq => ?_, fun i j a b ha hb hab => ?_,
    fun i j a b ha hb hab => ?_, fun i q hq => ?_, fun q hq => ?_,
    fun i q hq h0 => hone, fun i q hq h0 h1 => ?_, h.last, fun h0 => ?_, h.good⟩
  · rcases set_cases hq with ⟨rfl, -⟩ | ⟨-, hq⟩
    · exact hlt
    · exact h.range i q hq
  · rcases set_cases ha with ⟨rfl, ⟨⟩⟩ | ⟨-, ha'⟩
    · rcases set_cases hb with ⟨rfl, -⟩ | ⟨-, hb⟩
      · rfl
      · exact absurd hab.symm (hfresh j b hb)
    · rcases set_cases hb with ⟨rfl, ⟨⟩⟩ | ⟨-, hb⟩
      · exact absurd hab (hfresh i a ha')
      · exact h.distinct i j a b ha' hb hab
  · rcases set_cases ha with ⟨rfl, ⟨⟩⟩ | ⟨-, ha'⟩
    · rcases set_cases hb with ⟨rfl, -⟩ | ⟨-, hb⟩
      · rfl
      · exact absurd (hab.symm.trans hcpage) (hpage j (h.range j b hb) b hb)
    · rcases set_cases hb with ⟨rfl, ⟨⟩⟩ | ⟨-, hb⟩
      · exact absurd (hab.trans hcpage) (hpage i (h.range i a ha') a ha')
      · exact h.pages i j a b ha' hb hab
  · rcases set_cases hq with ⟨rfl, ⟨⟩⟩ | ⟨-, hq⟩
    · rw [hcpid]
      exact iff_of_false hne0 (by omega)
    · exact h.idle i q hq
  · rcases set_cases hq with ⟨hc0, -⟩ | ⟨-, hq⟩
    · exact absurd hc0.symm hne0
    · exact h.awake q hq
  · rcases set_cases hq with ⟨rfl, ⟨⟩⟩ | ⟨-, hq⟩
    · have hp0 : p.pid ≠ 0 := fun hp0 => h1 (hcpid.trans (hfirst hp0))
      have hf : c.father = p.pid := by rw [← hc]
      rw [hf]
      refine ⟨hp0, hlive _ ⟨t, p, hp, rfl, ?_, ?_⟩⟩
      · rw [hrun]
        nofun
      · rw [huser]
        nofun
    · obtain ⟨hf, hl⟩ := h.father i q hq h0 h1
      exact ⟨hf, hlive _ hl⟩
  · have h0 : s.lastPid = 0 := h0
    omega

-- ======== the steps

theorem scan_zombie : ∀ {n : Nat} {flag : Bool},
      scan s t current pid wuntraced n flag = .zombie i q →
        i ≠ 0 ∧ i ≠ t ∧ s.task i = some q ∧ q.father = current.pid ∧ q.state = .zombie := by
  intro n
  induction n with
  | zero =>
    intro flag h
    cases h
  | succ n ih =>
    intro flag h
    rw [scan] at h
    split at h
    · exact ih h
    · rename_i q' hq'
      split at h
      · exact ih h
      · rename_i hsel
        rw [not_or, not_or, not_not] at hsel
        split at h
        · split at h
          · cases h
          · exact ih h
        · rename_i hz
          cases h
          exact ⟨by omega, hsel.1, hq', hsel.2.1, hz⟩
        · exact ih h

/-- A zombie stays where only other pages are freed. -/
theorem reaps_of_stays {father : Int} {c : Bool} {l : List Nat}
    (h : s'.task i = some { p with father := father, sigchld := c })
    (hf : s'.freed = s.freed ++ l) (hl : p.page ∉ l) : Reaps o s s' i p := by
  refine .inl ⟨father, c, h, ?_⟩
  rwa [hf, List.drop_left]

/-- The zombies are untouched. -/
theorem Touched.reaps (h : Touched t s s') (hp : s.task i = some p)
    (hit : i ≠ t) (hf : s'.freed = s.freed) : Reaps o s s' i p := by
  obtain ⟨c, hc⟩ := h.other i p hit hp
  exact reaps_of_stays hc (hf.trans (List.append_nil _).symm) List.not_mem_nil

/-- What a step is to do: keep the invariant, and treat every zombie as it
should be treated. -/
def Upholds (o : Op) (s s' : System) : Prop :=
  Inv s' ∧ ∀ i p, s.task i = some p → p.state = .zombie → Reaps o s s' i p

section

variable (h : Inv s) (hp : s.task t = some p)
include h hp

/-- A step of a task that is no zombie and only changes small things. -/
theorem Inv.upholds_touched (hz : p.state ≠ .zombie) (ht : Touched t s s')
    (hl : s'.lastPid = s.lastPid) (hn : s'.noFather = s.noFather)
    (hf : s'.freed = s.freed) : Upholds o s s' := by
  exact ⟨h.touched ht hl hn, fun i q hq hqz =>
    ht.reaps hq (slot_ne hp hq fun hqp => hz (hqp ▸ hqz)) hf⟩

theorem Inv.upholds_fork (hrun : p.state = .running) (huser : p.phase = .user)
    {page : Option Nat} {mem : Bool} (hpage : ∀ q ∈ page, s.Unused q)
    (hok : p.pid = 0 → s.lastPid = 0) (hs : sysFork s t p page mem = some s') : Upholds o s s' := by
  obtain ⟨pid, hpid, hs⟩ := Option.bind_eq_some_iff.mp hs
  obtain ⟨hfree, hb⟩ := searchPid_spec h.last hpid
  have hi := h.lastPid hb
  -- the first fork makes the task with pid 1
  have hfirst : p.pid = 0 → pid = 1 := by
    intro h0
    have hl := hok h0
    rw [hl, searchPid] at hpid
    split at hpid
    · rename_i hu
      obtain ⟨i, q, -, hq, hq1⟩ := usesPid_iff.mp hu
      rw [h.fresh hl i q hq] at hq1
      exact absurd hq1 (by decide)
    · cases hpid
      rfl
  dsimp only at hs
  split at hs
  · cases hs
    exact ⟨hi.congr rfl rfl rfl, fun i q hq _ =>
      reaps_of_stays hq (List.append_nil _).symm List.not_mem_nil⟩
  · rename_i nr hnr
    obtain ⟨hlt, hne0, hnone⟩ := freeSlot_spec hnr
    cases hs
    cases page with
    | none =>
      exact ⟨hi.congr rfl rfl rfl, fun i q hq _ =>
        reaps_of_stays hq (List.append_nil _).symm List.not_mem_nil⟩
    | some pg =>
      have hunused := hpage pg rfl
      cases mem with
      | true =>
        refine ⟨?_, fun i q hq _ => reaps_of_stays (set_keeps hnone hq)
          (List.append_nil _).symm List.not_mem_nil⟩
        exact (hi.child hp hrun huser ⟨hlt, hne0, hnone⟩ hunused hfree hb.1 hfirst).congr rfl rfl rfl
      | false =>
        have hnil : (s.set nr none).task = s.task := by
          rw [System.set, ← show s.task nr = none from hnone, update_eq_self]
        refine ⟨hi.congr hnil rfl rfl, fun i q hq _ =>
          reaps_of_stays (set_keeps hnone hq) rfl ?_⟩
        rw [List.mem_singleton]
        exact hunused i (h.range i q hq) q hq

theorem Inv.upholds_waitpid (hz : p.state ≠ .zombie) (he : p.phase ≠ .exiting)
    (hsame : Same p { current with phase := .user }) {wnohang : Bool} (ht : o.task = t)
    (ho : (∃ pid wnohang wuntraced, o = .waitpid t pid wnohang wuntraced) ∨ o = .waitAgain t false)
    (hs : sysWaitpid s t current pid wnohang wuntraced = some s') : Upholds o s s' := by
  unfold sysWaitpid at hs
  have hset := touched_set hp hsame
  generalize hc : ({ current with phase := .user } : Task) = c at hs hsame hset
  have hti : Inv (s.set t (some c)) := h.touched hset rfl rfl
  have hsmall : ∀ x : System, x.task = (s.set t (some c)).task →
      x.lastPid = s.lastPid → x.noFather = s.noFather → x.freed = s.freed → Upholds o s x := by
    intro x hx hl hn hf
    exact h.upholds_touched hp hz (hset.congr hx) hl hn hf
  dsimp only at hs
  split at hs
  · cases hs
    exact hsmall _ rfl rfl rfl rfl
  · -- a zombie is reaped
    rename_i i q hscan
    obtain ⟨hi0, hit, hq, hqf, hqz⟩ := scan_zombie hscan
    unfold release at hs
    rw [if_neg hi0] at hs
    cases hs
    have hq' : s.task i = some q := (set_of_ne hit).symm.trans hq
    refine ⟨hti.removed hq hqz rfl rfl rfl, fun j r hr hrz => ?_⟩
    by_cases hji : j = i
    · subst hji
      rw [hq'] at hr
      cases hr
      refine .inr ⟨p, by rw [ht]; exact hp, ?_, update_self .., rfl, by rw [ht]; rfl, ?_⟩
      · rw [← hsame.pid]
        exact hqf.symm
      · rw [ht]
        exact ho
    · have hjt : j ≠ t := slot_ne hp hr fun hrp => hz (hrp ▸ hrz)
      refine reaps_of_stays ((set_of_ne hji).trans ((set_of_ne hjt).trans hr)) rfl ?_
      rw [List.mem_singleton]
      exact fun hpg => hji (h.pages j i r q hr hq' hpg)
  · split at hs
    · cases hs
      exact hsmall _ rfl rfl rfl rfl
    · split at hs
      · cases hs
        exact hsmall _ rfl rfl rfl rfl
      · cases hs
        refine h.upholds_touched hp hz ?_ rfl rfl rfl
        have hsleep : Same p { c with
            state := .interruptible,
            phase := .waiting pid wnohang wuntraced } :=
          ⟨hsame.page, hsame.pid, hsame.father, iff_of_false nofun hz, iff_of_false nofun he⟩
        exact (touched_set hp hsleep).congr (update_idem ..)

theorem Inv.upholds_exitBegin (hrun : p.state = .running) (h0 : p.pid ≠ 0) (h1 : p.pid ≠ 1) :
    Upholds o s (Process.exitBegin s t p) := by
  refine ⟨h.exitBegin hp h0 h1, fun i q hq hqz => ?_⟩
  have hit : i ≠ t := slot_ne hp hq fun hqp => by
    rw [hqp, hrun] at hqz
    cases hqz
  have horphan : orphan t p.pid (s.zombieChild p.pid) i q = { q with
      father := if q.father = p.pid then 1 else q.father
      sigchld := q.sigchld || i == 1 && s.zombieChild p.pid } := by
    simp [orphan, hit]
  exact reaps_of_stays (Option.map_eq_some_iff.mpr ⟨q, hq, horphan⟩) (List.append_nil _).symm
    List.not_mem_nil

theorem Inv.upholds_exitEnd (hrun : p.state = .running) (he : p.phase = .exiting)
    (hs : Process.exitEnd s t p code = some s') : Upholds o s s' := by
  obtain ⟨hi, hf, z, ht⟩ := h.exitEnd hp he hs
  refine ⟨hi, fun i q hq hqz => ?_⟩
  have hit : i ≠ t := slot_ne hp hq fun hqp => by
    rw [hqp, hrun] at hqz
    cases hqz
  obtain ⟨c, hc⟩ := ht.other i q hit ((set_of_ne hit).trans hq)
  exact reaps_of_stays hc (hf.trans (List.append_nil _).symm) List.not_mem_nil

end

theorem Inv.act (h : Inv s) (hp : s.task o.task = some p) (hok : Ok o s)
    (hs : act s o.task p o = some s') : Upholds o s s' := by
  cases o with
  | fork t page mem =>
    obtain ⟨hrun, hs⟩ := Option.ite_none_right_eq_some.mp hs
    exact h.upholds_fork hp hrun.1 hrun.2.1 hrun.2.2 (hok p hp) hs
  | exitBegin t =>
    obtain ⟨hrun, hs⟩ := Option.ite_none_right_eq_some.mp hs
    cases hs
    obtain ⟨h0, h1⟩ := hok p hp
    exact h.upholds_exitBegin hp hrun.1 h0 h1
  | exitEnd t code =>
    obtain ⟨hrun, hs⟩ := Option.ite_none_right_eq_some.mp hs
    exact h.upholds_exitEnd hp hrun.1 hrun.2 hs
  | waitpid t pid wnohang wuntraced =>
    obtain ⟨hrun, hs⟩ := Option.ite_none_right_eq_some.mp hs
    refine h.upholds_waitpid hp (by rw [hrun.1]; nofun)
      (by rw [hrun.2]; nofun) ⟨rfl, rfl, rfl, Iff.rfl, ?_⟩ rfl
      (.inl ⟨pid, wnohang, wuntraced, rfl⟩) hs
    rw [hrun.2]
  | waitAgain t intr =>
    dsimp only [Process.act] at hs
    split at hs
    · rename_i hst hph
      have hz : p.state ≠ .zombie := by
        rw [hst]
        nofun
      have he : p.phase ≠ .exiting := by
        rw [hph]
        nofun
      have hsame : Same p { p with sigchld := false, phase := .user } :=
        ⟨rfl, rfl, rfl, Iff.rfl, iff_of_false nofun he⟩
      cases intr with
      | true =>
        cases hs
        exact h.upholds_touched hp hz ((touched_set hp hsame).congr rfl) rfl rfl rfl
      | false => exact h.upholds_waitpid hp hz he hsame rfl (.inr rfl) hs
    · cases hs
  | other t state =>
    obtain ⟨hz, hs⟩ := Option.ite_none_right_eq_some.mp hs
    cases hs
    exact h.upholds_touched hp hz.1 (touched_set hp ⟨rfl, rfl, rfl,
      iff_of_false hz.2 hz.1, Iff.rfl⟩) rfl rfl rfl

/-- The step lemma. -/
theorem Inv.step (h : Inv s) (hok : Ok o s) (hs : step o s = some s') : Upholds o s s' := by
  unfold Process.step at hs
  cases hp : s.task o.task with
  | none =>
    rw [hp] at hs
    cases hs
  | some p =>
    rw [hp] at hs
    have h0 : Inv { s with ret := none } := h.congr rfl rfl rfl
    exact h0.act hp hok hs

theorem inv_boot : Inv System.boot := by
  have hone : ∀ i p, System.boot.task i = some p →
      i = 0 ∧ p = ⟨0, 0, -1, 0, .running, 0, false, .user⟩ := by
    intro i p hp
    by_cases h0 : i = 0
    · subst h0
      exact ⟨rfl, (Option.some.inj hp).symm⟩
    · simp only [System.boot, if_neg h0] at hp
      cases hp
  refine ⟨fun i p hp => ?_, fun i j p q hp hq _ => ?_,
    fun i j p q hp hq _ => ?_, fun i p hp => ?_, fun p hp => ?_,
    fun i p hp h0 => ?_, fun i p hp h0 => ?_, by decide, fun _ i p hp => ?_, rfl⟩
  · rw [(hone i p hp).1]
    decide
  · rw [(hone i p hp).1, (hone j q hq).1]
  · rw [(hone i p hp).1, (hone j q hq).1]
  · rw [(hone i p hp).1, (hone i p hp).2]
    exact iff_of_true rfl rfl
  · rw [(hone 0 p hp).2]
    exact ⟨nofun, nofun⟩
  · rw [(hone i p hp).2] at h0
    exact absurd rfl h0
  · rw [(hone i p hp).2] at h0
    exact absurd rfl h0
  · rw [(hone i p hp).2]

/-- In every state that any sequence of forks, exits and waits reaches, in
which neither the task with pid 1 nor `task[0]` exits and `task[0]` forks
only the first time, the table is intact and no father has been missed;
and in the step after it every zombie is kept, or released by its
father. -/
theorem process_table_intact {os : List Op} (hok : Meets step Ok os System.boot)
    (hrun : runOps step os System.boot = some s) :
    s.Intact ∧ s.noFather = false ∧ ∀ o s', Ok o s → step o s = some s' →
      ∀ i p, s.task i = some p → p.state = .zombie → Reaps o s s' i p := by
  have hi : Inv s := runOps_invariant (fun _ _ _ hi ho hs => (hi.step ho hs).1) hok hrun inv_boot
  exact ⟨hi.intact, hi.good, fun o s' ho hs => (hi.step ho hs).2⟩

instance (o : Op) (s : System) : Decidable (Ok o s) := by
  unfold Ok
  split
  · exact inferInstanceAs (Decidable (∀ p ∈ s.task _, _))
  · exact inferInstanceAs (Decidable (∀ p ∈ s.task _, _))
  · exact .isTrue trivial

/-- The init task has a child, which has one and exits; the grandchild
exits too, and init reaps the child. -/
def family : List Op :=
  [.fork 0 (some 1) true, .fork 1 (some 2) true, .fork 2 (some 3) true,
    .exitBegin 2, .exitBegin 3, .exitEnd 2 7, .exitEnd 3 8, .waitpid 1 2 false false]

theorem process_table_intact_family : ∃ s, runOps step family System.boot = some s ∧
    s.ret = some ⟨1, 2, some 7⟩ ∧
    (s.Intact ∧ s.noFather = false ∧ ∀ o s', Ok o s → step o s = some s' →
      ∀ i p, s.task i = some p → p.state = .zombie → Reaps o s s' i p) := by
  exact exists_checked Ok (fun s => s.ret = some ⟨1, 2, some 7⟩) (by decide +kernel)
    fun s hok hs hret => ⟨hret, process_table_intact hok hs⟩

instance (o : Op) (s : System) : Decidable (SparesInit o s) := by
  unfold SparesInit
  split
  · exact inferInstanceAs (Decidable (∀ p ∈ s.task _, _))
  · exact .isTrue trivial

/-- A second child of `task[0]` has the father 0, which `tell_father` does
not look for. -/
theorem second_child_of_idle_has_no_father : ¬ ∀ (os : List Op) (s : System),
    Meets step SparesInit os System.boot →
      runOps step os System.boot = some s → s.noFather = false := by
  intro hall
  -- the task in slot 2 has pid 2
  have hbad : ∃ s, runOps step [.fork 0 (some 1) true, .fork 0 (some 2) true, .exitBegin 2,
      .exitEnd 2 0] System.boot = some s ∧ false = true :=
    exists_checked SparesInit (fun s => s.noFather = true) (by decide +kernel)
      fun s hspare hs hbad => (hall _ s hspare hs).symm.trans hbad
  simp at hbad

end LearnLinux.Process
