/-
The counts of the file table are exact.

Every call changes slots one at a time, and with each slot the count of
one entry, so the count invariant is the one-slot law of `Lib.Refs`. The
calls that put a count back by assignment (`f_count = 0` after a failed
open, `f_count = 1` after a successful one) rely on nobody else having got
hold of the entry while they slept. That is so because a reference is
passed on only by a task that has one (`Inv.sole`): whoever slept with an
entry reserved still has the only reference to it.
-/
import LearnLinux.Fs.FileTable

namespace LearnLinux.FileTable

open Function (update update_self update_of_ne update_idem update_eq_self)
open Lib (refs runOps exists_run)

variable {s s' : System} {t fd f nr u : Nat} {p r q : Task} {o : Op}
variable {g n : Nat}

-- ======== small lemmas

theorem setCount_count : ((s.setCount f n).file g).fCount
      = if g = f then n % 65536 else (s.file g).fCount := by
  show (update s.file f ⟨n % 65536, _⟩ g).fCount = _
  by_cases h : g = f
  · rw [if_pos h, h, update_self]
  · rw [if_neg h, update_of_ne h]

theorem setInode_count (f i g : Nat) : ((s.setInode f i).file g).fCount = (s.file g).fCount := by
  show (update s.file f ⟨(s.file f).fCount, i⟩ g).fCount = _
  by_cases h : g = f
  · rw [h, update_self]
  · rw [update_of_ne h]

theorem setCount_inode : ((s.setCount f n).file g).fInode = (s.file g).fInode := by
  show (update s.file f ⟨n % 65536, (s.file f).fInode⟩ g).fInode = _
  by_cases h : g = f
  · rw [h, update_self]
  · rw [update_of_ne h]

theorem setTask_setTask : (s.setTask t p).setTask t q = s.setTask t q := by
  unfold System.setTask
  rw [update_idem]

theorem setCount_setTask : (s.setCount f n).setTask t p = (s.setTask t p).setCount f n := rfl

theorem grab_setTask : (s.grab f).setTask t p = (s.setTask t p).grab f := rfl

theorem setTask_task_self : (s.setTask t p).task t = some p :=
  update_self ..

theorem slot_setTask (x : Nat × Nat) :
    (s.setTask t p).slot x = if x.1 = t then p.filp x.2 else s.slot x := by
  show ((update s.task t (some p)) x.1).bind _ = _
  by_cases h : x.1 = t
  · rw [if_pos h, h, update_self]
    rfl
  · rw [if_neg h, update_of_ne h]
    rfl

theorem slot_of_task (h : s.task t = some p) : s.slot (t, fd) = p.filp fd := by
  rw [System.slot, h]
  rfl

theorem mem_slots {x : Nat × Nat} : x ∈ slots ↔ x.1 < NR_TASKS ∧ x.2 < NR_OPEN := by
  unfold slots
  rw [Finset.mem_product, Finset.mem_range, Finset.mem_range]

/-- There are few slots, so no count comes near the limit of its type. -/
theorem refs_lt (slot : Nat × Nat → Option Nat) (f : Nat) : refs slots slot f < 65536 := by
  have hc : slots.card = 1280 := by
    unfold slots
    rw [Finset.card_product, Finset.card_range, Finset.card_range]
    rfl
  have h : refs slots slot f ≤ slots.card := by
    exact Finset.card_filter_le _ _
  omega

-- ======== the counts

/-- Every count is the number of slots. -/
def System.Counted (s : System) : Prop :=
  ∀ f, (s.file f).fCount = refs slots s.slot f

/-- A task that keeps its slots. -/
theorem System.Counted.setTask (h : s.Counted) (hp : s.task t = some p)
    (hf : r.filp = p.filp) : (s.setTask t r).Counted := by
  intro f
  rw [show (s.setTask t r).file = s.file from rfl, h f]
  refine Lib.refs_congr fun x _ => ?_
  rw [slot_setTask]
  split
  · rename_i hx
    rw [hf, System.slot, hx, hp]
    rfl
  · rfl

/-- One slot of one task changes. -/
theorem refs_setTask (ht : t < NR_TASKS) (hp : s.task t = some p)
    (hfd : fd < NR_OPEN) {v : Option Nat}
    (hf : r.filp = update p.filp fd v) (g : Nat) : refs slots (s.setTask t r).slot g
        + (if p.filp fd = some g then 1 else 0)
      = refs slots s.slot g + (if v = some g then 1 else 0) := by
  have hx : (t, fd) ∈ slots := mem_slots.mpr ⟨ht, hfd⟩
  have hswap := Lib.refs_swap (t := s.slot) (u := (s.setTask t r).slot)
    (f := g) hx fun y _ hne => by
      rw [slot_setTask]
      split
      · rename_i hy
        have hy2 : y.2 ≠ fd := fun h2 => hne (Prod.ext hy h2)
        rw [hf, update_of_ne hy2, System.slot, hy, hp]
        rfl
      · rfl
  have hnew : (s.setTask t r).slot (t, fd) = v := by
    rw [slot_setTask, if_pos rfl, hf, update_self]
  rwa [slot_of_task hp, hnew] at hswap

/-- Counts that are exact but for one, and that one is set. -/
theorem counted_setCount {n : Nat} (h : ∀ g, g ≠ f → (s.file g).fCount = refs slots s.slot g)
    (hn : n = refs slots s.slot f) : (s.setCount f n).Counted := by
  intro g
  rw [setCount_count]
  split
  · rename_i hg
    rw [hg, hn, Nat.mod_eq_of_lt (refs_lt _ f)]
    rfl
  · exact h g ‹_›

/-- A slot that was free is pointed to `f`, and `f` counts it. -/
theorem System.Counted.acquire (h : s.Counted) (ht : t < NR_TASKS)
    (hp : s.task t = some p) (hfd : fd < NR_OPEN) (hfree : p.filp fd = none)
    (hf : r.filp = update p.filp fd (some f)) : ((s.setTask t r).grab f).Counted := by
  have hr := refs_setTask ht hp hfd hf
  simp only [hfree, reduceCtorEq, if_false, Nat.add_zero, ← h _] at hr
  refine counted_setCount (fun g hg => ?_) ?_
  · rw [hr g, if_neg fun h => hg (Option.some.inj h).symm]
    rfl
  · rw [hr f, if_pos rfl]
    rfl

/-- A slot gives up its reference, and the entry counts one less. -/
theorem System.Counted.release (h : s.Counted) (ht : t < NR_TASKS)
    (hp : s.task t = some p) (hfd : fd < NR_OPEN) (href : p.filp fd = some f)
    (hf : r.filp = update p.filp fd none) :
    ((s.setTask t r).setCount f ((s.file f).fCount - 1)).Counted := by
  have hr := refs_setTask ht hp hfd hf
  simp only [href, reduceCtorEq, if_false, Nat.add_zero, ← h _] at hr
  refine counted_setCount (fun g hg => ?_) ?_
  · show (s.file g).fCount = _
    rw [← hr g, if_neg fun h => hg (Option.some.inj h).symm]
    rfl
  · rw [← hr f, if_pos rfl]
    rfl

/-- The child as far as the first `k` rounds have counted its slots. -/
def Task.upTo (p : Task) (k : Nat) : Task :=
  { p with filp := fun fd => if fd < k then p.filp fd else none }

theorem upTo_succ (k : Nat) : (p.upTo (k + 1)).filp = update (p.upTo k).filp k (p.filp k) := by
  funext fd
  show (if fd < k + 1 then _ else _) = _
  by_cases hfd : fd = k
  · rw [hfd, update_self, if_pos (Nat.lt_succ_self k)]
  · rw [update_of_ne hfd]
    exact if_congr (by omega) rfl rfl

/-- The loop of `copy_process`: each round is an `acquire` by the child. -/
theorem counted_forkLoop (h : s.Counted) (hnr : nr < NR_TASKS) (hfree : s.task nr = none) :
    ∀ k ≤ NR_OPEN, (((List.range k).foldl (grabFilp p) (s.setTask nr p)).setTask nr
      (p.upTo k)).Counted := by
  intro k
  induction k with
  | zero =>
    intro _ f
    refine (h f).trans (Lib.refs_congr fun x _ => ?_)
    rw [slot_setTask]
    split
    · rename_i hx
      rw [System.slot, hx, hfree]
      rfl
    · rename_i hx
      exact (slot_setTask x).trans (if_neg hx) |>.symm
  | succ k ih =>
    intro hk
    have hih := ih (by omega)
    rw [List.range_succ, List.foldl_append, List.foldl_cons, List.foldl_nil]
    generalize (List.range k).foldl (grabFilp p) (s.setTask nr p) = s1 at hih ⊢
    have hfd : (p.upTo k).filp k = none := if_neg (Nat.lt_irrefl k)
    have hnew := upTo_succ (p := p) k
    unfold grabFilp
    cases hpk : p.filp k with
    | none =>
      rw [hpk, ← hfd, update_eq_self] at hnew
      exact setTask_setTask ▸ hih.setTask setTask_task_self hnew
    | some g =>
      rw [hpk] at hnew
      have hgrab := hih.acquire hnr setTask_task_self hk hfd hnew
      rwa [setTask_setTask] at hgrab

theorem forkLoop_task (l : List Nat) : (l.foldl (grabFilp p) s).task = s.task ∧
      (l.foldl (grabFilp p) s).panicked = s.panicked ∧ (l.foldl (grabFilp p) s).iput = s.iput := by
  induction l generalizing s with
  | nil => exact ⟨rfl, rfl, rfl⟩
  | cons i l ih =>
    have hone : (grabFilp p s i).task = s.task ∧ (grabFilp p s i).panicked = s.panicked ∧
        (grabFilp p s i).iput = s.iput := by
      unfold grabFilp
      split <;> exact ⟨rfl, rfl, rfl⟩
    rw [List.foldl_cons]
    obtain ⟨h1, h2, h3⟩ := ih
    exact ⟨h1.trans hone.1, h2.trans hone.2.1, h3.trans hone.2.2⟩

theorem System.Counted.fork (h : s.Counted)
    (hnr : nr < NR_TASKS) (hfree : s.task nr = none) : (copyProcess s p nr).Counted := by
  intro f
  refine (counted_forkLoop h hnr hfree NR_OPEN le_rfl f).trans (Lib.refs_congr fun x hx => ?_)
  have hslot : (copyProcess s p nr).slot x = (s.setTask nr p).slot x := by
    unfold System.slot copyProcess
    rw [(forkLoop_task _).1]
  rw [hslot, slot_setTask, slot_setTask]
  split
  · exact if_pos (mem_slots.mp hx).2
  · rename_i hx
    show (System.task _ _).bind _ = _
    rw [(forkLoop_task _).1]
    exact (slot_setTask x).trans (if_neg hx)

-- ======== invariant

/-- A task asleep in a call has what it reserved, and nobody else does; a
task that exits has closed what it has passed. -/
def PhaseOk (s : System) (p : Task) : Prop :=
  match p.phase with
  | .opening fd f => fd < NR_OPEN ∧ p.filp fd = some f ∧ (s.file f).fCount = 1
  | .piping fd₀ fd₁ f₀ f₁ => (fd₀ < NR_OPEN ∧ p.filp fd₀ = some f₀ ∧
      (s.file f₀).fCount = 1) ∧ (fd₁ < NR_OPEN ∧ p.filp fd₁ = some f₁ ∧
      (s.file f₁).fCount = 1) ∧ f₀ ≠ f₁ ∧ fd₀ ≠ fd₁
  | .exiting i => ∀ fd < i, p.filp fd = none
  | .zombie => ∀ fd < NR_OPEN, p.filp fd = none
  | _ => True

theorem phaseOk_of_filp (hph : q.phase = .user ∨
    (∃ a b, q.phase = .dup2 a b) ∨ ∃ i, q.phase = .execing i) : PhaseOk s q := by
  unfold PhaseOk
  rcases hph with h | ⟨a, b, h⟩ | ⟨i, h⟩ <;> rw [h] <;> trivial

structure Inv (s : System) : Prop where
  counts : s.Counted
  inTable : ∀ t p, s.task t = some p → t < NR_TASKS
  phases : ∀ t p, s.task t = some p → PhaseOk s p
  calm : s.panicked = false

/-- An entry with one reference belongs to the task that has it. -/
theorem Inv.sole (hi : Inv s) {fd' : Nat}
    (hu : s.task u = some q) (hfd : fd < NR_OPEN) (hf : q.filp fd = some f)
    (hone : (s.file f).fCount = 1) (ht : s.task t = some p)
    (hfd' : fd' < NR_OPEN) (hf' : p.filp fd' = some f) : t = u := by
  have h := Lib.refs_one_unique (hi.counts f ▸ hone) (mem_slots.mpr ⟨hi.inTable t p ht, hfd'⟩)
    (mem_slots.mpr ⟨hi.inTable u q hu, hfd⟩) ((slot_of_task ht).trans hf')
    ((slot_of_task hu).trans hf)
  exact congrArg Prod.fst h

/-- An entry has a count exactly if some descriptor refers to it. -/
theorem Inv.pos_iff (hi : Inv s) : 0 < (s.file f).fCount ↔
      ∃ t p fd, s.task t = some p ∧ fd < NR_OPEN ∧ p.filp fd = some f := by
  rw [hi.counts f]
  constructor
  · intro hpos
    by_contra hno
    have hzero : refs slots s.slot f = 0 := by
      refine Lib.refs_eq_zero_iff.mpr fun y hy hc => hno ?_
      obtain ⟨r, hr, hf⟩ := Option.bind_eq_some_iff.mp hc
      exact ⟨y.1, r, y.2, hr, (mem_slots.mp hy).2, hf⟩
    omega
  · rintro ⟨t, p, fd, ht, hfd, hf⟩
    exact Lib.refs_pos (x := (t, fd)) (mem_slots.mpr ⟨hi.inTable t p ht, hfd⟩)
      ((slot_of_task ht).trans hf)

/-- A task in `open_namei` has its entry for itself. -/
theorem Inv.opening (hi : Inv s) (ht : s.task t = some p) (hph : p.phase = .opening fd f) :
    fd < NR_OPEN ∧ p.filp fd = some f ∧ (s.file f).fCount = 1 := by
  have hok := hi.phases t p ht
  unfold PhaseOk at hok
  rwa [hph] at hok

/-- The step of task `t` with descriptors `p` moved no count but of entries
nobody had, or that the task itself refers to. -/
def Moved (s s' : System) (p : Task) : Prop :=
  ∀ f, (s'.file f).fCount = (s.file f).fCount ∨ (s.file f).fCount = 0 ∨
    ∃ fd < NR_OPEN, p.filp fd = some f

theorem Moved.refl (h : s'.file = s.file) : Moved s s' p :=
  fun f => .inl (by rw [h])

theorem Moved.setCount (h : (s.file f).fCount = 0 ∨ ∃ fd < NR_OPEN, p.filp fd = some f) :
    Moved s ((s.setTask t r).setCount f n) p := by
  intro g
  by_cases hg : g = f
  · exact .inr (hg ▸ h)
  · refine .inl ?_
    rw [setCount_count, if_neg hg]
    rfl

/-- What a call leaves behind: exact counts, no count moved that is not the
task's own business, no panic. -/
structure Clean (s s' : System) (p : Task) : Prop where
  counts : s'.Counted
  moved : Moved s s' p
  calm : s'.panicked = false

/-- A sleeper's reservations outlast the steps of others. -/
theorem Inv.phase_of_moved (hi : Inv s) (ht : s.task t = some p)
    (hm : Moved s s' p) (hu : s.task u = some q) (hne : u ≠ t) : PhaseOk s' q := by
  have hkeep : ∀ {fd f : Nat}, fd < NR_OPEN → q.filp fd = some f →
      (s.file f).fCount = 1 → (s'.file f).fCount = 1 := by
    intro fd f hfd hf hone
    rcases hm f with h | h | ⟨fd', hfd', hf'⟩
    · exact h.trans hone
    · rw [hone] at h
      cases h
    · exact absurd (hi.sole hu hfd hf hone ht hfd' hf').symm hne
  have hq := hi.phases u q hu
  unfold PhaseOk at hq ⊢
  cases hph : q.phase with
  | opening fd f =>
    rw [hph] at hq
    exact ⟨hq.1, hq.2.1, hkeep hq.1 hq.2.1 hq.2.2⟩
  | piping fd0 fd1 f0 f1 =>
    rw [hph] at hq
    obtain ⟨⟨h1, h2, h3⟩, ⟨h4, h5, h6⟩, h7⟩ := hq
    exact ⟨⟨h1, h2, hkeep h1 h2 h3⟩, ⟨h4, h5, hkeep h4 h5 h6⟩, h7⟩
  | exiting i | zombie =>
    rw [hph] at hq
    exact hq
  | user | dup2 _ _ | execing _ => trivial

/-- A step that replaces the acting task: what has to be shown of it. -/
theorem Inv.replace (hi : Inv s) (ht : s.task t = some p)
    (htask : s'.task = update s.task t (some r)) (hc : Clean s s' p) (hph : PhaseOk s' r) :
    Inv s' := by
  refine ⟨hc.counts, fun u q hu => ?_, fun u q hu => ?_, hc.calm⟩ <;>
  · rw [htask] at hu
    rcases Lib.update_cases hu with ⟨rfl, ⟨⟩⟩ | ⟨hut, hu⟩
    · first
        | exact hi.inTable u p ht
        | exact hph
    · first
        | exact hi.inTable u q hu
        | exact hi.phase_of_moved ht hc.moved hu hut

/-- No count changes, and of the task only its variables. -/
theorem Inv.keep (hi : Inv s) (ht : s.task t = some p)
    (htask : s'.task = (s.setTask t r).task) (hsame : ∀ g, (s'.file g).fCount = (s.file g).fCount)
    (hf : r.filp = p.filp) (hph : PhaseOk s' r) (hcalm : s'.panicked = s.panicked) : Inv s' := by
  refine hi.replace ht htask ⟨fun g => ?_, fun g => .inl (hsame g), hcalm.trans hi.calm⟩ hph
  have hslot : s'.slot = (s.setTask t r).slot := by
    unfold System.slot
    rw [htask]
  rw [hsame g, hslot]
  exact hi.counts.setTask ht hf g

/-- Only the variables of the task change. -/
theorem Inv.setTask (hi : Inv s) (ht : s.task t = some p)
    (hf : r.filp = p.filp) (hph : PhaseOk s r) : Inv (s.setTask t r) :=
  hi.keep ht rfl (fun _ => rfl) hf hph rfl

-- ======== the calls

theorem freeFd_spec {arg : Nat} (h : freeFd p arg = some fd) : fd < NR_OPEN ∧ p.filp fd = none := by
  have hp := List.find?_some h
  simp only [decide_eq_true_eq] at hp
  exact ⟨List.mem_range.mp (List.mem_of_find?_eq_some h), hp.2⟩

/-- The task after a call: its place in the code is as given, and of its
descriptors only `fd` has changed. -/
structure Became (s s' : System) (t : Nat) (p q : Task) (fd : Nat) : Prop where
  task : s'.task = update s.task t (some q)
  phase : q.phase = p.phase
  others : ∀ d, d ≠ fd → q.filp d = p.filp d

/-- Without a reference to give up, nothing is put. -/
theorem putsAtZero_setTask (hput : s.iput = none) : PutsAtZero s (s.setTask t r) := by
  intro f i
  show s.iput = _ ↔ _
  rw [hput]
  refine iff_of_false nofun ?_
  rintro ⟨-, hpos, hz⟩
  have hz : (s.file f).fCount = 0 := hz
  omega

section

variable (hi : Inv s) (ht : s.task t = some p)
include hi ht

/-- A call that changed nothing but the task's variables. -/
theorem Inv.clean_setTask (hf : r.filp = p.filp) : Clean s (s.setTask t r) p :=
  ⟨hi.counts.setTask ht hf, Moved.refl rfl, hi.calm⟩

/-- The reference of one descriptor is given up. -/
theorem Inv.clean_release (hfd : fd < NR_OPEN) (hf : p.filp fd = some f)
    (hr : r.filp = update p.filp fd none) :
    Clean s ((s.setTask t r).setCount f ((s.file f).fCount - 1)) p :=
  ⟨hi.counts.release (hi.inTable t p ht) ht hfd hf hr, .setCount (.inr ⟨fd, hfd, hf⟩), hi.calm⟩

/-- `sys_close` by a task whose place in the code may already be marked. -/
theorem sysClose_spec (hf : r.filp = p.filp) (hput : s.iput = none) (fd : Nat) : Clean s
    (sysClose s t r fd).2 p ∧
      PutsAtZero s (sysClose s t r fd).2 ∧ ∃ q, Became s (sysClose s t r fd).2 t r q fd ∧
        (fd < NR_OPEN → q.filp fd = none) := by
  unfold sysClose
  by_cases hfd : NR_OPEN ≤ fd
  · rw [if_pos hfd]
    exact ⟨hi.clean_setTask ht hf, putsAtZero_setTask hput, r,
      ⟨rfl, rfl, fun _ _ => rfl⟩, fun h => absurd hfd (not_le.mpr h)⟩
  · rw [if_neg hfd]
    have hfd' : fd < NR_OPEN := not_le.mp hfd
    dsimp only
    cases href : (r.keepOnExec fd).filp fd with
    | none =>
      exact ⟨hi.clean_setTask ht hf, putsAtZero_setTask hput, r.keepOnExec fd,
        ⟨rfl, rfl, fun _ _ => rfl⟩, fun _ => href⟩
    | some f =>
      have hpf : p.filp fd = some f := by
        rw [← hf]
        exact href
      have hpos : 0 < (s.file f).fCount := hi.pos_iff.mpr ⟨t, p, fd, ht, hfd', hpf⟩
      have hq : ((r.keepOnExec fd).setFilp fd none).filp = update p.filp fd none := by
        rw [← hf]
        rfl
      have hclean := hi.clean_release ht hfd' hpf hq
      have hbecame : ∀ d, d ≠ fd → ((r.keepOnExec fd).setFilp fd none).filp d = r.filp d :=
        fun d hd => update_of_ne hd ..
      have hlt : (s.file f).fCount - 1 < 65536 := by
        have := hi.counts f
        have := refs_lt s.slot f
        omega
      have hcount : ∀ g, (((s.setTask t ((r.keepOnExec fd).setFilp fd none)).setCount f
          ((s.file f).fCount - 1)).file g).fCount = if g = f then (s.file f).fCount - 1
            else (s.file g).fCount := by
        intro g
        rw [setCount_count, Nat.mod_eq_of_lt hlt]
        rfl
      have hfile : ((s.setTask t ((r.keepOnExec fd).setFilp fd none)).file f).fCount
          = (s.file f).fCount := rfl
      dsimp only
      rw [hfile, if_neg hpos.ne']
      split
      · rename_i hne
        rw [hcount f, if_pos rfl] at hne
        refine ⟨hclean, fun g i => ?_, _, ⟨rfl, rfl, hbecame⟩, fun _ => update_self ..⟩
        show s.iput = _ ↔ _
        rw [hput, hcount g]
        refine iff_of_false nofun ?_
        rintro ⟨-, hg, hz⟩
        split at hz <;> omega
      · rename_i hz
        rw [hcount f, if_pos rfl, not_not] at hz
        refine ⟨⟨hclean.counts, hclean.moved, hclean.calm⟩, fun g i => ?_, _, ⟨rfl, rfl, hbecame⟩,
          fun _ => update_self ..⟩
        rw [hcount g, setCount_inode]
        show some (f, (s.file f).fInode) = some (g, i) ↔ _
        constructor
        · intro h
          obtain ⟨rfl, rfl⟩ := Prod.mk.inj (Option.some.inj h)
          exact ⟨rfl, hpos, by rw [if_pos rfl]; exact hz⟩
        · rintro ⟨rfl, hg, hg0⟩
          by_cases hgf : g = f
          · rw [hgf]
          · rw [if_neg hgf] at hg0
            omega

/-- `dupfd` by a task whose place in the code may already be marked. -/
theorem dupfd_spec (hf : r.filp = p.filp) (fd arg : Nat) :
    Clean s (dupfd s t r fd arg).2 p ∧ (dupfd s t r fd arg).2.iput = s.iput ∧
      ∃ q a, Became s (dupfd s t r fd arg).2 t r q a := by
  have hsame : Clean s (s.setTask t r) p ∧ (s.setTask t r).iput = s.iput ∧
      ∃ q a, Became s (s.setTask t r) t r q a :=
    ⟨hi.clean_setTask ht hf, rfl, r, 0, rfl, rfl, fun _ _ => rfl⟩
  unfold dupfd
  split
  · exact hsame
  · rename_i hfd
    split
    · exact hsame
    · rename_i f href
      split
      · exact hsame
      · split
        · exact hsame
        · rename_i a ha
          obtain ⟨hlt, hfree⟩ := freeFd_spec ha
          have hq : ((r.keepOnExec a).setFilp a (some f)).filp = update p.filp a (some f) := by
            rw [← hf]
            rfl
          exact ⟨⟨hi.counts.acquire (hi.inTable t p ht) ht hlt (hf ▸ hfree) hq,
            .setCount (.inr ⟨fd, not_le.mp hfd, hf ▸ href⟩), hi.calm⟩, rfl, _, a, rfl, rfl,
            fun d hd => update_of_ne hd ..⟩

/-- A new reference to an entry nobody had. -/
theorem Inv.reserve (hfd : fd < NR_OPEN) (hfree : p.filp fd = none) (hf : (s.file f).fCount = 0)
    (hr : r.filp = update p.filp fd (some f)) : Clean s ((s.setTask t r).grab f) p ∧
      (((s.setTask t r).grab f).file f).fCount = 1 := by
  refine ⟨⟨hi.counts.acquire (hi.inTable t p ht) ht hfd hfree hr, .setCount (.inl hf), hi.calm⟩, ?_⟩
  rw [System.grab, setCount_count, if_pos rfl]
  show ((s.file f).fCount + 1) % 65536 = 1
  rw [hf]

theorem openBegin_inv (hph : p.phase = .user) : Inv (openBegin s t p).2 := by
  unfold openBegin
  split
  · exact hi
  · rename_i fd hfd
    obtain ⟨hlt, hfree⟩ := freeFd_spec hfd
    split
    · exact hi.setTask ht rfl (phaseOk_of_filp (.inl hph))
    · rename_i f hf
      have hf0 : (s.file f).fCount = 0 := by
        simpa using List.find?_some hf
      have hq : (({ (p.keepOnExec fd).setFilp fd (some f) with
          phase := .opening fd f } : Task)).filp
          = update p.filp fd (some f) := rfl
      obtain ⟨hc, hone⟩ := hi.reserve ht hlt hfree hf0 hq
      exact hi.replace ht rfl hc ⟨hlt, update_self .., hone⟩

theorem openEnd_inv (hph : p.phase = .opening fd f) (r : Opened) : Inv
    (openEnd s t p fd f r).2 := by
  obtain ⟨hfd, hf, hone⟩ := hi.opening ht hph
  have hfail : Inv ((s.setTask t { p.setFilp fd none with phase := .user }).setCount f 0) := by
    have hc := hi.clean_release ht hfd hf (r := { p.setFilp fd none with phase := .user }) rfl
    rw [hone] at hc
    exact hi.replace ht rfl hc trivial
  cases r with
  | error code | noTty => exact hfail
  | inode i =>
    -- the count is 1 already
    have hsame : ∀ g, ((((s.setTask t { p with phase := .user }).setCount f
        1).setInode f i).file g).fCount = (s.file g).fCount := by
      intro g
      rw [setInode_count, setCount_count]
      by_cases hg : g = f
      · rw [if_pos hg, hg, hone]
      · rw [if_neg hg]
        rfl
    exact hi.keep ht rfl hsame rfl trivial rfl

end

/-- The two entries `sys_pipe` finds are different and free. -/
theorem filter_two {P : Nat → Prop} [DecidablePred P] {n a b : Nat}
    {l : List Nat} (h : (List.range n).filter (fun x => P x) = a :: b :: l) :
    (a < n ∧ P a) ∧ (b < n ∧ P b) ∧ a ≠ b := by
  have hmem : ∀ x ∈ a :: b :: l, x < n ∧ P x := by
    intro x hx
    rw [← h, List.mem_filter] at hx
    exact ⟨List.mem_range.mp hx.1, by simpa using hx.2⟩
  have hnd : (a :: b :: l).Nodup := h ▸ List.nodup_range.filter _
  refine ⟨hmem a (by simp), hmem b (by simp), fun hab => ?_⟩
  exact (List.nodup_cons.mp hnd).1 (hab ▸ List.mem_cons_self ..)

section

variable (hi : Inv s) (ht : s.task t = some p)
include hi ht

theorem pipeBegin_inv (hph : p.phase = .user) : Inv (pipeBegin s t p).2 := by
  have huser : ∀ {s1 : System}, PhaseOk s1 p := phaseOk_of_filp (.inl hph)
  have htask : s.task = (s.setTask t p).task := by
    rw [System.setTask, ← ht, update_eq_self]
  unfold pipeBegin
  split
  · rename_i f0 f1 l hl
    obtain ⟨⟨-, hf0⟩, ⟨-, hf1⟩, hne⟩ := filter_two hl
    split
    · rename_i fd0 fd1 l' hl'
      obtain ⟨⟨hfd0, hfree0⟩, ⟨hfd1, hfree1⟩, hfd⟩ := filter_two hl'
      -- one reservation after the other
      obtain ⟨hc0, hone0⟩ := hi.reserve ht hfd0 hfree0 hf0 (r := p.setFilp fd0 (some f0)) rfl
      have hi0 : Inv ((s.setTask t (p.setFilp fd0 (some f0))).grab f0) :=
        hi.replace ht rfl hc0 (phaseOk_of_filp (.inl hph))
      have hf1' : (((s.setTask t (p.setFilp fd0 (some f0))).grab f0).file f1).fCount = 0 := by
        rw [System.grab, setCount_count, if_neg hne.symm]
        exact hf1
      obtain ⟨hc1, hone1⟩ := hi0.reserve setTask_task_self hfd1
        (show (p.setFilp fd0 (some f0)).filp fd1 = none from
          (update_of_ne hfd.symm ..).trans hfree1) hf1'
        (r := { (p.setFilp fd0 (some f0)).setFilp fd1 (some f1) with
          phase := .piping fd0 fd1 f0 f1 }) rfl
      rw [grab_setTask, setTask_setTask] at hc1 hone1
      show Inv (((s.grab f0).grab f1).setTask t _)
      rw [grab_setTask, grab_setTask]
      refine hi0.replace setTask_task_self (update_idem ..).symm hc1
        ⟨⟨hfd0, ?_, ?_⟩, ⟨hfd1, update_self .., hone1⟩, hne, hfd⟩
      · exact (update_of_ne hfd ..).trans (update_self ..)
      · rw [System.grab, setCount_count, if_neg hne]
        exact hone0
    · -- no two free descriptors: both counts go back
      refine hi.keep ht htask (fun g => ?_) rfl huser rfl
      simp only [System.grab, setCount_count]
      grind
  · rename_i f0 hl
    have hf0 : (s.file f0).fCount = 0 := by
      have : f0 ∈ (List.range NR_FILE).filter fun f => (s.file f).fCount = 0 := by
        rw [hl]
        exact List.mem_singleton_self f0
      simpa using (List.mem_filter.mp this).2
    refine hi.keep ht htask (fun g => ?_) rfl huser rfl
    simp only [System.grab, setCount_count]
    grind
  · exact hi

theorem pipeEnd_inv {fd0 fd1 f0 f1 : Nat} (hph : p.phase = .piping fd0 fd1 f0 f1)
    (r : Option Nat) : Inv (pipeEnd s t p fd0 fd1 f0 f1 r).2 := by
  have hok := hi.phases t p ht
  unfold PhaseOk at hok
  rw [hph] at hok
  obtain ⟨⟨hfd0, hf0, hone0⟩, ⟨hfd1, hf1, hone1⟩, hne, hfd⟩ := hok
  cases r with
  | none =>
    have hc0 := hi.clean_release ht hfd0 hf0 (r := { p.setFilp fd0 none with phase := .user }) rfl
    rw [hone0] at hc0
    have hi0 : Inv ((s.setTask t { p.setFilp fd0 none with phase := .user }).setCount f0 0) :=
      hi.replace ht rfl hc0 trivial
    have hone1' : (((s.setTask t { p.setFilp fd0 none with
        phase := .user }).setCount f0 0).file f1).fCount = 1 := by
      rw [setCount_count, if_neg hne.symm]
      exact hone1
    have hc1 := hi0.clean_release setTask_task_self hfd1
      (show (p.setFilp fd0 none).filp fd1 = some f1 from (update_of_ne hfd.symm ..).trans hf1)
      (r := { (p.setFilp fd0 none).setFilp fd1 none with
        phase := .user }) rfl
    rw [setCount_setTask, setTask_setTask, hone1'] at hc1
    exact hi0.replace setTask_task_self (update_idem ..).symm hc1 trivial
  | some i =>
    have hsame : ∀ g, ((((s.setTask t { p with phase := .user }).setInode
        f0 i).setInode f1 i).file g).fCount = (s.file g).fCount := by
      intro g
      rw [setInode_count, setInode_count]
      rfl
    exact hi.keep ht rfl hsame rfl trivial rfl

theorem fork_inv (hph : p.phase = .user) (hnr : nr < NR_TASKS)
    (hfree : s.task nr = none) : Inv (copyProcess s p nr) := by
  have htask : (copyProcess s p nr).task = update s.task nr (some p) := (forkLoop_task _).1
  have hmoved : Moved s (copyProcess s p nr) p := by
    intro f
    by_cases hex : ∃ fd < NR_OPEN, p.filp fd = some f
    · exact .inr (.inr hex)
    · refine .inl ?_
      have hno : ∀ fd ∈ List.range NR_OPEN, p.filp fd ≠ some f :=
        fun fd hfd h => hex ⟨fd, List.mem_range.mp hfd, h⟩
      have hfold : ∀ (l : List Nat) (s1 : System), (∀ fd ∈ l, p.filp fd ≠ some f) →
          ((l.foldl (grabFilp p) s1).file f).fCount = (s1.file f).fCount := by
        intro l
        induction l with
        | nil => exact fun _ _ => rfl
        | cons i l ih =>
          intro s1 hl
          rw [List.foldl_cons, ih _ fun fd hfd =>
            hl fd (List.mem_cons_of_mem i hfd)]
          unfold grabFilp
          split
          · rename_i g hg
            have hfg : f ≠ g := by
              rintro rfl
              exact hl i (List.mem_cons_self ..) hg
            rw [System.grab, setCount_count, if_neg hfg]
          · rfl
      exact hfold _ _ hno
  refine ⟨hi.counts.fork hnr hfree, fun u q hu => ?_, fun u q hu => ?_,
    (forkLoop_task _).2.1.trans hi.calm⟩
  · rw [htask] at hu
    rcases Lib.update_cases hu with ⟨rfl, -⟩ | ⟨-, hu⟩
    · exact hnr
    · exact hi.inTable u q hu
  · rw [htask] at hu
    have huser : PhaseOk (copyProcess s p nr) p := phaseOk_of_filp (.inl hph)
    rcases Lib.update_cases hu with ⟨-, ⟨⟩⟩ | ⟨-, hu⟩
    · exact huser
    · by_cases hut : u = t
      · rw [hut, ht] at hu
        exact Option.some.inj hu ▸ huser
      · exact hi.phase_of_moved ht hmoved hu hut

/-- A zombie has no references, so it can go. -/
theorem release_inv (hph : p.phase = .zombie) : Inv { s with task := update s.task t none } := by
  have hok := hi.phases t p ht
  unfold PhaseOk at hok
  rw [hph] at hok
  have hstay : ∀ u q, update s.task t none u = some q → s.task u = some q := by
    intro u q hu
    rcases Lib.update_cases hu with ⟨-, ⟨⟩⟩ | ⟨-, hu⟩
    exact hu
  refine ⟨fun f => ?_, fun u q hu => hi.inTable u q (hstay u q hu),
    fun u q hu => hi.phases u q (hstay u q hu), hi.calm⟩
  rw [show (s.file f).fCount = _ from hi.counts f]
  refine Lib.refs_congr fun x hx => ?_
  show _ = (update s.task t none x.1).bind _
  by_cases hxt : x.1 = t
  · rw [hxt, update_self, System.slot, hxt, ht]
    exact hok x.2 (mem_slots.mp hx).2
  · rw [update_of_ne hxt]
    rfl

end

-- ======== the steps

/-- Only `sys_close` calls `iput` for an entry. -/
theorem openBegin_iput : (openBegin s t p).2.iput = s.iput := by
  unfold openBegin
  split
  · rfl
  · split <;> rfl

theorem openEnd_iput (r : Opened) : (openEnd s t p fd f r).2.iput = s.iput := by
  cases r <;> rfl

theorem pipeBegin_iput : (pipeBegin s t p).2.iput = s.iput := by
  unfold pipeBegin
  split
  · split <;> rfl
  · rfl
  · rfl

theorem pipeEnd_iput (fd0 fd1 f0 f1 : Nat) (r : Option Nat) :
    (pipeEnd s t p fd0 fd1 f0 f1 r).2.iput = s.iput := by
  cases r <;> rfl

/-- `sys_close` and `fork` leave the inodes of the entries alone. -/
theorem sysClose_inode (fd g : Nat) :
    ((sysClose s t p fd).2.file g).fInode = (s.file g).fInode := by
  unfold sysClose
  split
  · rfl
  simp only
  split
  · rfl
  split
  · rfl
  split
  · exact setCount_inode
  · exact setCount_inode

theorem forkLoop_inode (l : List Nat) :
    ((l.foldl (grabFilp p) s).file g).fInode = (s.file g).fInode := by
  induction l generalizing s with
  | nil => rfl
  | cons i l ih =>
    rw [List.foldl_cons, ih]
    unfold grabFilp
    split
    · exact setCount_inode
    · rfl

/-- A step that closes nothing. -/
theorem putsOnClose_of_none (ho : ¬ o.Closes) (h : s'.iput = none) : PutsOnClose o s s' :=
  ⟨fun hc => absurd hc ho, fun hn => absurd h hn⟩

section

variable (hi : Inv s) (ht : s.task t = some p) (hput : s.iput = none) (hf : r.filp = p.filp)
include hi ht hput hf

/-- A step that is a `sys_close`, to a place in the code that needs no more
than the close. -/
theorem close_step (ho : o.Closes)
    (fd : Nat) (hph : ∀ q : Task, q.phase = r.phase → (∀ d, d ≠ fd → q.filp d = r.filp d) →
      (fd < NR_OPEN → q.filp fd = none) → PhaseOk (sysClose s t r fd).2 q) :
    Inv (sysClose s t r fd).2 ∧ PutsOnClose o s (sysClose s t r fd).2 := by
  obtain ⟨hc, hz, q, hb, hnone⟩ := sysClose_spec hi ht hf hput fd
  exact ⟨hi.replace ht hb.task hc (hph q hb.phase hb.others hnone), fun _ => hz, fun _ => ho⟩

theorem dupfd_step (ho : ¬ o.Closes) (hph : r.phase = .user) (fd arg : Nat) :
    Inv (dupfd s t r fd arg).2 ∧ PutsOnClose o s (dupfd s t r fd arg).2 := by
  obtain ⟨hc, hz, q, a, hb⟩ := dupfd_spec hi ht hf fd arg
  exact ⟨hi.replace ht hb.task hc (phaseOk_of_filp (.inl (hb.phase.trans hph))),
    putsOnClose_of_none ho (hz.trans hput)⟩

/-- A task of which only the place in the code changes, to one that needs
nothing. -/
theorem setTask_step (hph : PhaseOk s r) : Inv (s.setTask t r) ∧ PutsOnClose o s (s.setTask t r) :=
  ⟨hi.setTask ht hf hph, fun _ => putsAtZero_setTask hput, fun hn => absurd hput hn⟩

end

theorem act_spec (hi : Inv s) (ht : s.task t = some p)
    (hput : s.iput = none) (h : act s t p o = some s') : Inv s' ∧ PutsOnClose o s s' := by
  unfold act at h
  split at h
  case h_1 hph =>
    cases h
    exact ⟨openBegin_inv hi ht hph, putsOnClose_of_none id (openBegin_iput.trans hput)⟩
  case h_2 r fd f hph =>
    cases h
    exact ⟨openEnd_inv hi ht hph r, putsOnClose_of_none id ((openEnd_iput r).trans hput)⟩
  case h_3 u fd hph =>
    cases h
    exact close_step (o := .close u fd) hi ht hput rfl trivial fd fun q hq _ _ =>
      phaseOk_of_filp (.inl (hq.trans hph))
  case h_4 u fildes hph =>
    cases h
    exact dupfd_step hi ht hput rfl id hph fildes 0
  case h_5 u fd arg hph =>
    cases h
    exact dupfd_step hi ht hput rfl id hph fd arg
  case h_6 fd arg hph =>
    split at h
    · cases h
      exact setTask_step hi ht hput rfl (phaseOk_of_filp (.inl hph))
    · cases h
      exact ⟨hi, putsOnClose_of_none id hput⟩
  case h_7 u oldfd newfd hph =>
    cases h
    exact close_step (r := { p with phase := .dup2 oldfd newfd })
      (o := .dup2 u oldfd newfd) hi ht hput rfl trivial newfd fun q hq _ _ =>
      phaseOk_of_filp (.inr (.inl ⟨oldfd, newfd, hq⟩))
  case h_8 u oldfd newfd hph =>
    cases h
    exact dupfd_step (r := { p with phase := .user }) hi ht hput rfl id rfl oldfd newfd
  case h_9 hph =>
    cases h
    exact ⟨pipeBegin_inv hi ht hph, putsOnClose_of_none id (pipeBegin_iput.trans hput)⟩
  case h_10 r fd0 fd1 f0 f1 hph =>
    cases h
    exact ⟨pipeEnd_inv hi ht hph r, putsOnClose_of_none id
      ((pipeEnd_iput fd0 fd1 f0 f1 r).trans hput)⟩
  case h_11 nr ok hph =>
    split at h
    · rename_i hnr
      cases h
      cases ok with
      | true =>
        exact ⟨fork_inv hi ht hph hnr.1 (Option.isNone_iff_eq_none.mp hnr.2),
          putsOnClose_of_none id ((forkLoop_task _).2.2.trans hput)⟩
      | false => exact ⟨hi, putsOnClose_of_none id hput⟩
    · cases h
  case h_12 hph =>
    cases h
    exact setTask_step hi ht hput rfl (phaseOk_of_filp (.inr (.inr ⟨0, rfl⟩)))
  case h_13 u i hph =>
    split at h
    · split at h
      · cases h
        exact close_step (r := { p with phase := .execing (i + 1) })
          (o := .execLoop u) hi ht hput rfl trivial i fun q hq _ _ =>
          phaseOk_of_filp (.inr (.inr ⟨i + 1, hq⟩))
      · cases h
        exact setTask_step hi ht hput rfl (phaseOk_of_filp (.inr (.inr ⟨i + 1, rfl⟩)))
    · cases h
      exact setTask_step hi ht hput rfl (phaseOk_of_filp (.inl rfl))
  case h_14 => cases h
  case h_15 => cases h
  case h_16 =>
    cases h
    exact setTask_step hi ht hput rfl fun fd hfd => absurd hfd (Nat.not_lt_zero fd)
  case h_17 u i hph =>
    have hok := hi.phases t p ht
    unfold PhaseOk at hok
    rw [hph] at hok
    split at h
    · rename_i hlt
      split at h
      · cases h
        refine close_step (r := { p with phase := .exiting (i + 1) })
          (o := .exitLoop u) hi ht hput rfl trivial i fun q hq hoth hnone => ?_
        unfold PhaseOk
        rw [hq]
        intro fd hfd
        by_cases hfi : fd = i
        · rw [hfi]
          exact hnone hlt
        · rw [hoth fd hfi]
          exact hok fd (by omega)
      · rename_i hnone
        cases h
        refine setTask_step hi ht hput rfl fun fd hfd => ?_
        by_cases hfi : fd = i
        · rw [hfi]
          exact not_not.mp hnone
        · exact hok fd (by omega)
    · rename_i hge
      cases h
      exact setTask_step hi ht hput rfl fun fd hfd => hok fd (by omega)
  case h_18 hph =>
    cases h
    exact ⟨release_inv hi ht hph, putsOnClose_of_none id hput⟩
  case h_19 => cases h

/-- The note about `iput` is no part of the invariant. -/
theorem Inv.forget (hi : Inv s) : Inv { s with iput := none } :=
  ⟨hi.counts, hi.inTable, hi.phases, hi.calm⟩

theorem step_spec (hi : Inv s) (h : step o s = some s') : Inv s' ∧ PutsOnClose o s s' := by
  unfold step at h
  cases ht : s.task o.task with
  | none =>
    rw [ht] at h
    cases h
  | some p =>
    rw [ht] at h
    have hact := act_spec hi.forget ht rfl h
    exact hact

theorem inv_boot : Inv System.boot := by
  have hone : ∀ t p, System.boot.task t = some p →
      t = 0 ∧ p = ⟨fun _ => none, fun _ => false, .user⟩ := by
    intro t p h
    by_cases ht : t = 0
    · refine ⟨ht, ?_⟩
      subst ht
      exact (Option.some.inj h).symm
    · simp only [System.boot, if_neg ht] at h
      cases h
  refine ⟨fun f => ?_, fun t p h => ?_, fun t p h => ?_, rfl⟩
  · refine (Lib.refs_eq_zero_iff.mpr fun x _ => ?_).symm
    unfold System.slot
    cases hx : System.boot.task x.1 with
    | none => nofun
    | some p =>
      rw [(hone x.1 p hx).2]
      nofun
  · rw [(hone t p h).1]
    decide
  · rw [(hone t p h).2]
    trivial

theorem Inv.exact (hi : Inv s) : s.Exact := by
  refine ⟨hi.counts, fun f hf t p fd ht hfd href => ?_, hi.calm⟩
  rw [hi.counts f, Lib.refs_eq_zero_iff] at hf
  exact hf (t, fd) (mem_slots.mpr ⟨hi.inTable t p ht, hfd⟩) ((slot_of_task ht).trans href)

/-- In every state that any sequence of the calls reaches, by any tasks,
with all their exits and interleaved wherever they may sleep, the counts
are exact; and in the step after it the inode of an entry is handed to
`iput` exactly if the step closes and the count of the entry goes to 0. -/
theorem file_counts_exact {os : List Op} (h : runOps step os System.boot = some s) :
    s.Exact ∧ ∀ o s', step o s = some s' → PutsOnClose o s s' := by
  have hi : Inv s := Lib.runOps_invariant_all (fun _ _ _ hI hs => (step_spec hI hs).1) h inv_boot
  exact ⟨hi.exact, fun o s' hs => (step_spec hi hs).2⟩

/-- A file is opened, its descriptor is duplicated, the task forks, and the
child exits: two references are left. -/
def share : List Op :=
  [.openBegin 0, .openEnd 0 (.inode 5), .dup 0 0, .fork 0 1 true, .exit 1]
    ++ List.replicate 21 (.exitLoop 1)

theorem file_counts_exact_shared : ∃ s, runOps step share System.boot = some s ∧
      (s.file 0).fCount = 2 ∧ (s.Exact ∧ ∀ o s', step o s = some s' → PutsOnClose o s s') := by
  exact exists_run (fun s => (s.file 0).fCount = 2) (by decide +kernel)
    fun s h hc => ⟨hc, file_counts_exact h⟩

/-- A failed open gives its entry back by assignment: the count goes to 0
and nothing is handed to `iput`. -/
theorem failed_open_puts_nothing : ∃ s s', runOps step [.openBegin 0] System.boot = some s ∧
      step (.openEnd 0 (.error (-2))) s = some s' ∧ (s.file 0).fCount = 1 ∧ (s'.file 0).fCount = 0 ∧
      s'.iput = none ∧ ¬ PutsAtZero s s' := by
  have hrun : (runOps step [.openBegin 0] System.boot).bind (fun s =>
    (step (.openEnd 0 (.error (-2))) s).map fun s' =>
      ((s.file 0).fCount, (s'.file 0).fCount, s'.iput))
    = some (1, 0, none) := by
    decide +kernel
  obtain ⟨s, h, hs⟩ := Option.bind_eq_some_iff.mp hrun
  obtain ⟨s', hs', heq⟩ := Option.map_eq_some_iff.mp hs
  simp only [Prod.mk.injEq] at heq
  obtain ⟨h1, h2, h3⟩ := heq
  refine ⟨s, s', h, hs', h1, h2, h3, fun hp => ?_⟩
  have := (hp 0 (s.file 0).fInode).mpr ⟨rfl, by rw [h1]; decide, h2⟩
  rw [h3] at this
  cases this

-- ======== dup2

variable {oldfd newfd : Nat}

theorem dupfd_fails (h : ¬ (oldfd < NR_OPEN ∧ p.filp oldfd ≠ none ∧ newfd < NR_OPEN)) :
    (dupfd s t p oldfd newfd).1 < 0 ∧ (dupfd s t p oldfd newfd).2 = s.setTask t p := by
  unfold dupfd
  split
  · exact ⟨(by decide : -EBADF < 0), rfl⟩
  · rename_i hold
    cases hf : p.filp oldfd with
    | none => exact ⟨(by decide : -EBADF < 0), rfl⟩
    | some f =>
      have hnew : NR_OPEN ≤ newfd := by
        by_contra hc
        exact h ⟨not_le.mp hold, by rw [hf]; nofun, not_le.mp hc⟩
      simp only [if_pos hnew]
      exact ⟨by decide, trivial⟩

/-- A slot that has just been closed is the one the search finds. -/
theorem dupfd_closed (hold : oldfd < NR_OPEN) (hf : p.filp oldfd = some f) (hnew : newfd < NR_OPEN)
    (hfree : p.filp newfd = none) : dupfd s t p oldfd newfd
      = ((newfd : Int), (s.setTask t ((p.keepOnExec newfd).setFilp newfd (some f))).grab f) := by
  have hfind : freeFd p newfd = some newfd := by
    refine List.find?_range_eq_some.mpr ⟨by simp [hfree], List.mem_range.mpr hnew, fun j hj => ?_⟩
    simp [not_le.mpr hj]
  unfold dupfd
  rw [if_neg (not_le.mpr hold), hf, hfind]
  simp only [if_neg (not_le.mpr hnew)]

/-- The second half of the call works on what the close has left. -/
theorem sysDup2_eq (oldfd : Nat) (h : (sysClose s t p newfd).2.task = update s.task t (some q)) :
    sysDup2 s t p oldfd newfd = dupfd (sysClose s t p newfd).2 t q oldfd newfd := by
  unfold sysDup2
  simp only [h, update_self, Option.getD_some]

/-- Where the search fails, what the close has done is all. -/
theorem dup2Atomic_of_fails (h : (sysClose s t p newfd).2.task = update s.task t (some q))
    (hq : ¬ (oldfd < NR_OPEN ∧ q.filp oldfd ≠ none ∧ newfd < NR_OPEN)) :
    Dup2Atomic s t p oldfd newfd ↔ ¬ (oldfd < NR_OPEN ∧ p.filp oldfd ≠ none ∧ newfd < NR_OPEN) ∧
      q.filp = p.filp ∧ q.closeOnExec = p.closeOnExec ∧ (sysClose s t p newfd).2.file = s.file := by
  obtain ⟨hneg, heq⟩ := dupfd_fails (s := (sysClose s t p newfd).2) (t := t) hq
  have htask : ((sysClose s t p newfd).2.setTask t q).task = update s.task t (some q) := by
    show update (sysClose s t p newfd).2.task t (some q) = _
    rw [h, update_idem]
  unfold Dup2Atomic
  simp only [sysDup2_eq oldfd h, heq, htask]
  constructor
  · rintro ⟨r, hr, hc⟩
    obtain rfl : q = r := by
      have := congrFun hr t
      rw [update_self, update_self] at this
      exact Option.some.inj this
    split at hc
    · omega
    · rename_i hbad
      exact ⟨hbad, hc.2⟩
  · rintro ⟨hbad, hc⟩
    refine ⟨q, rfl, ?_⟩
    rw [if_neg hbad]
    exact ⟨hneg, hc⟩

/-- The call that closes `newfd` and finds it again. -/
theorem dup2Atomic_of_open (hi : Inv s) (ht : s.task t = some p) (hph : p.phase = .user)
    (hput : s.iput = none) (hold : oldfd < NR_OPEN) (hf : p.filp oldfd = some f)
    (hnew : newfd < NR_OPEN) (hne : oldfd ≠ newfd) : Dup2Atomic s t p oldfd newfd := by
  obtain ⟨hc, -, q, hb, hnone⟩ := sysClose_spec hi ht rfl hput newfd
  have heq := sysDup2_eq oldfd hb.task
  have hclosed := dupfd_closed (s := (sysClose s t p newfd).2) (t := t) hold
    ((hb.others oldfd hne).trans hf) hnew (hnone hnew)
  have hi1 : Inv (sysClose s t p newfd).2 := hi.replace ht hb.task hc
    (phaseOk_of_filp (.inl (hb.phase.trans hph)))
  have hc1 := (dupfd_spec hi1 (by rw [hb.task, update_self]) rfl oldfd newfd).1
  rw [← heq] at hclosed hc1
  generalize hq1 : (q.keepOnExec newfd).setFilp newfd (some f) = q1 at hclosed
  have hfilp : q1.filp = update p.filp newfd (some f) := by
    rw [← hq1]
    funext d
    show update q.filp newfd (some f) d = _
    by_cases hd : d = newfd
    · rw [hd, update_self, update_self]
    · rw [update_of_ne hd, update_of_ne hd, hb.others d hd]
  have htask : (sysDup2 s t p oldfd newfd).2.task = update s.task t (some q1) := by
    rw [hclosed]
    show update (sysClose s t p newfd).2.task t (some q1) = _
    rw [hb.task, update_idem]
  refine ⟨q1, htask, ?_⟩
  rw [if_pos ⟨hold, by rw [hf]; nofun, hnew⟩, hf]
  refine ⟨by rw [hclosed], hfilp, fun g => ?_, fun h => absurd h hne⟩
  have hslot : (sysDup2 s t p oldfd newfd).2.slot = (s.setTask t q1).slot := by
    unfold System.slot
    rw [htask]
    rfl
  rw [hc1.counts g, hi.counts g, hslot]
  exact refs_setTask (hi.inTable t p ht) ht hnew hfilp g

/-- `sys_dup2` is atomic exactly if `newfd` is out of range, or `oldfd` is
open and another descriptor, or neither is open and `newfd` is not marked
for closing: the close comes before every check. -/
theorem dup2_atomic_iff (hi : Inv s) (ht : s.task t = some p) (hph : p.phase = .user)
    (hput : s.iput = none) : Dup2Atomic s t p oldfd newfd ↔ NR_OPEN ≤ newfd ∨
      (if oldfd < NR_OPEN ∧ p.filp oldfd ≠ none then oldfd ≠ newfd
        else p.filp newfd = none ∧ p.closeOnExec newfd = false) := by
  by_cases hnew : NR_OPEN ≤ newfd
  · have hclose : sysClose s t p newfd = (-EINVAL, s.setTask t p) := if_pos hnew
    have hbad : ¬ (oldfd < NR_OPEN ∧ p.filp oldfd ≠ none ∧ newfd < NR_OPEN) :=
      fun h => absurd h.2.2 (not_lt.mpr hnew)
    rw [dup2Atomic_of_fails (by rw [hclose]; rfl) hbad, hclose]
    exact iff_of_true ⟨hbad, rfl, rfl, rfl⟩ (.inl hnew)
  have hlt : newfd < NR_OPEN := not_le.mp hnew
  rw [or_iff_right hnew]
  obtain ⟨-, -, q, hb, hnone⟩ := sysClose_spec hi ht rfl hput newfd
  split
  · rename_i hopen
    obtain ⟨f, hf⟩ := Option.ne_none_iff_exists'.mp hopen.2
    by_cases hne : oldfd = newfd
    · rw [dup2Atomic_of_fails hb.task fun h => h.2.1 (by rw [hne]; exact hnone hlt)]
      exact iff_of_false (fun h => h.1 ⟨hopen.1, hopen.2, hlt⟩) (absurd hne)
    · exact iff_of_true (dup2Atomic_of_open hi ht hph hput hopen.1 hf hlt hne) hne
  · rename_i hbad
    have hq : ¬ (oldfd < NR_OPEN ∧ q.filp oldfd ≠ none ∧ newfd < NR_OPEN) := by
      rintro ⟨hold, hfq, -⟩
      by_cases hne : oldfd = newfd
      · exact hfq (by rw [hne]; exact hnone hlt)
      · exact hbad ⟨hold, by rw [← hb.others oldfd hne]; exact hfq⟩
    rw [dup2Atomic_of_fails hb.task hq]
    cases hf : p.filp newfd with
    | some f =>
      refine iff_of_false (fun h => ?_) (fun h => by cases h.1)
      rw [← h.2.1, hnone hlt] at hf
      cases hf
    | none =>
      have hclose : sysClose s t p newfd = (-EINVAL, s.setTask t (p.keepOnExec newfd)) := by
        unfold sysClose
        rw [if_neg hnew]
        simp only [Task.keepOnExec, hf]
      obtain rfl : p.keepOnExec newfd = q := by
        have htask := congrFun hb.task t
        rw [hclose, setTask_task_self, update_self] at htask
        exact Option.some.inj htask
      rw [hclose]
      constructor
      · intro h
        refine ⟨rfl, ?_⟩
        rw [← h.2.2.1]
        exact update_self ..
      · rintro ⟨-, hbit⟩
        refine ⟨fun h => hbad ⟨h.1, h.2.1⟩, rfl, ?_, rfl⟩
        show update p.closeOnExec newfd false = _
        rw [← hbit, update_eq_self]

/-- After its first open, task 0 has descriptor 0. -/
theorem firstOpen : ∃ s p, runOps step [.openBegin 0, .openEnd 0 (.inode 5)] System.boot = some s ∧
      s.task 0 = some p ∧ Inv s ∧ s.iput = none ∧ p.phase = .user ∧ p.filp 0 = some 0 ∧
      (sysDup2 s 0 p 0 0).1 = -EBADF := by
  have hrun : (runOps step [.openBegin 0, .openEnd 0 (.inode 5)] System.boot).bind (fun s =>
    (s.task 0).map fun p => (s.iput, p.phase, p.filp 0, (sysDup2 s 0 p 0 0).1))
    = some (none, .user, some 0, -EBADF) := by
    decide +kernel
  obtain ⟨s, h, hs⟩ := Option.bind_eq_some_iff.mp hrun
  obtain ⟨p, hp, heq⟩ := Option.map_eq_some_iff.mp hs
  simp only [Prod.mk.injEq] at heq
  have hi : Inv s := Lib.runOps_invariant_all (fun _ _ _ hI hs => (step_spec hI hs).1) h inv_boot
  exact ⟨s, p, h, hp, hi, heq⟩

theorem dup2_atomic_iff_first :
    ∃ s p, s.task 0 = some p ∧ p.filp 0 = some 0 ∧ Dup2Atomic s 0 p 0 1 := by
  obtain ⟨s, p, -, hp, hi, hput, hph, hf, -⟩ := firstOpen
  refine ⟨s, p, hp, hf, (dup2_atomic_iff hi hp hph hput).mpr (.inr ?_)⟩
  rw [if_pos ⟨by decide, by rw [hf]; nofun⟩]
  decide

/-- `dup2(0, 0)` closes the descriptor and then finds it closed. -/
theorem dup2_closes_itself :
    ∃ s p, runOps step [.openBegin 0, .openEnd 0 (.inode 5)] System.boot = some s ∧
      s.task 0 = some p ∧ p.filp 0 = some 0 ∧ (sysDup2 s 0 p 0 0).1 = -EBADF ∧
      ¬ Dup2Atomic s 0 p 0 0 := by
  obtain ⟨s, p, h, hp, -, -, -, hf, hr⟩ := firstOpen
  refine ⟨s, p, h, hp, hf, hr, fun ⟨q, _, hc⟩ => ?_⟩
  rw [if_pos ⟨by decide, by rw [hf]; nofun, by decide⟩, hr] at hc
  exact absurd hc.1 (by decide)

end LearnLinux.FileTable
