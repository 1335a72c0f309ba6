/-
When the rings of a terminal line are overrun.

Each routine that puts a character into a ring either tests the ring right
there, or tested it some steps before, or does not test it at all. The
interrupt routines are of the first kind and never overrun `read_q`. The
PUTCH of `tty_write` into `write_q` and that of `copy_to_cooked` into
`secondary` are of the second: between the test and the PUTCH an interrupt
may come, `get_fs_byte` may sleep, or the echo may contain a query, and
then another activation may put into the same ring. The echo and `respond`
do not test.

So `Room` asks for room only before an echo, before a `respond`, and before
a PUTCH whose test is out of date. That is exactly what is needed: a run
meets it if and only if no ring is overrun in it.
-/
import LearnLinux.Drivers.Proofs.Queue
import LearnLinux.Lib.Run

namespace LearnLinux.Tty

open Console Lib Queue

variable {g : Screen} {o : Outside} {τ : Type} [DecidableEq τ] {tty tty' : TtyStruct} {f : Frame}
variable {fs : List Frame} {s : Line τ}

/-- No character was put into a full ring. -/
structure NoOverrun (tty : TtyStruct) : Prop where
  readQ : tty.readQ.overrun = false
  writeQ : tty.writeQ.overrun = false
  secondary : tty.secondary.overrun = false

/-- The room that the next step of a frame needs and does not test. -/
def roomFor (tty : TtyStruct) : Frame → Prop
  | .echo (_ :: _) _ => tty.writeQ.isFull = false
  | .respond => RESPONSE.length ≤ tty.readQ.left
  | .after (.store _ seen) =>
    seen ≠ tty.secondary.grown → tty.secondary.isFull = false
  | .take _ _ seen => seen ≠ tty.writeQ.grown → tty.writeQ.isFull = false
  | _ => True

/-- The condition on a step of a line. -/
def Room (op : Op τ) (s : Line τ) : Prop :=
  match op with
  | .run t =>
    match s.stack t with
    | [] => True
    | f :: _ => roomFor s.tty f
  | _ => True

/-- What a frame that has tested a ring knows of it. -/
def testedBy (tty : TtyStruct) : Frame → Prop
  | .fetch seen => Tested tty.secondary seen
  | .echo _ (.store _ seen) => Tested tty.secondary seen
  | .after (.store _ seen) => Tested tty.secondary seen
  | .take _ _ seen => Tested tty.writeQ seen
  | _ => True

structure Inv (s : Line τ) : Prop where
  noOverrun : NoOverrun s.tty
  tested : ∀ t, ∀ f ∈ s.stack t, testedBy s.tty f

-- ======== the queues

/-- The rings have changed as a step changes them. -/
structure Moved (tty tty' : TtyStruct) : Prop where
  writeQ : Since tty.writeQ tty'.writeQ
  secondary : Since tty.secondary tty'.secondary

theorem Moved.refl (tty : TtyStruct) : Moved tty tty :=
  ⟨Since.refl _, Since.refl _⟩

theorem testedBy_moved (h : Moved tty tty') (hf : testedBy tty f) : testedBy tty' f := by
  cases f with
  | fetch seen => exact hf.since h.secondary
  | echo cs next | after next =>
    cases next with
    | store c seen => exact hf.since h.secondary
    | erase | kill => trivial
  | take c buf seen => exact hf.since h.writeQ
  | conWrite nr | respond | cooked | killLine | ttyWrite buf | sleeping buf | fill buf => trivial

/-- What the step of a frame does: it keeps the rings free of overruns if
and only if it has the room it needs, and the frames that take its place
know of their tests. -/
structure StepOk (tty : TtyStruct) (f : Frame) (r : TtyStruct × List Frame) : Prop where
  moved : Moved tty r.1
  keeps : NoOverrun tty → testedBy tty f → roomFor tty f → NoOverrun r.1
  needs : NoOverrun r.1 → roomFor tty f
  tested : testedBy tty f → ∀ f' ∈ r.2, testedBy r.1 f'

/-- A step that leaves `write_q` and `secondary` alone and needs no room. -/
theorem StepOk.idle (hr : tty.readQ.overrun = false → tty'.readQ.overrun = false)
    (hw : tty'.writeQ = tty.writeQ) (hs : tty'.secondary = tty.secondary) (hroom : roomFor tty f)
    (ht : testedBy tty f → ∀ f' ∈ fs, testedBy tty' f') : StepOk tty f (tty', fs) where
  moved := ⟨hw ▸ Since.refl _, hs ▸ Since.refl _⟩
  keeps h _ _ := ⟨hr h.readQ, hw ▸ h.writeQ, hs ▸ h.secondary⟩
  needs _ := hroom
  tested := ht

/-- The frame is replaced by one other. -/
theorem StepOk.next {f' : Frame} (hr : tty.readQ.overrun = false → tty'.readQ.overrun = false)
    (hw : tty'.writeQ = tty.writeQ) (hs : tty'.secondary = tty.secondary) (hroom : roomFor tty f)
    (ht : testedBy tty f → testedBy tty' f') : StepOk tty f (tty', [f']) :=
  .idle hr hw hs hroom fun hf _ hf' => List.mem_singleton.mp hf' ▸ ht hf

/-- The stack of one process changes; what is new on it knows of its
tests. -/
theorem Inv.update {t : τ} (h : Inv s) (hm : Moved s.tty tty) (hno : NoOverrun tty)
    (hfs : ∀ f ∈ fs, testedBy tty f ∨ f ∈ s.stack t) : Inv ⟨tty, Function.update s.stack t fs⟩ where
  noOverrun := hno
  tested := by
    intro t' f hf
    by_cases ht : t' = t
    · subst ht
      dsimp only at hf
      rw [Function.update_self] at hf
      rcases hfs f hf with hf | hf
      · exact hf
      · exact testedBy_moved hm (h.tested t' f hf)
    · dsimp only at hf
      rw [Function.update_of_ne ht] at hf
      exact testedBy_moved hm (h.tested t' f hf)

theorem step_eq_some {s r : Call} (h : step g o s = some r) :
    ∃ f rest p, s.stack = f :: rest ∧ stepFrame g o s.tty f = some p ∧ r = ⟨p.1, p.2 ++ rest⟩ := by
  unfold step at h
  split at h
  · cases h
  · rename_i f rest hs
    obtain ⟨p, hp, rfl⟩ := Option.map_eq_some_iff.1 h
    exact ⟨f, rest, p, hs, hp, rfl⟩

omit [DecidableEq τ] in
theorem inv_boot (w : WriteRoutine) (t : Termios) (con : Con) : Inv (boot w t con : Line τ) where
  noOverrun := ⟨rfl, rfl, rfl⟩
  tested _ _ hf := absurd hf List.not_mem_nil

instance (tty : TtyStruct) (f : Frame) : Decidable (roomFor tty f) := by
  unfold roomFor
  split <;> infer_instance

instance (op : Op τ) (s : Line τ) : Decidable (Room op s) := by
  unfold Room
  split
  · split <;> infer_instance
  · infer_instance

/-- A raw line that echoes, translates nothing and sends no signals. -/
def rawEcho : Termios :=
  ⟨false, false, false, false, false, false, false, false, false, false,
    false, true, false, 3, 28, 127, 21, 4, 17, 19⟩

/-- A display, and a table without bits before it. -/
def display : Screen := ⟨.EGAC, 80, 25⟩

def blank : Outside := ⟨fun _ => false, fun _ => false⟩

end LearnLinux.Tty
