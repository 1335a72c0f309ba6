/-
When kernel timers fire on time.

The cells of the list, read along their links, are a difference list
(`Lib.Delta`), and `add_timer` does to it what `Lib.bubble` does: the
contents of the cells change, the links do not. The new timer's own date
comes out right, but the timer it stops in front of keeps its `jiffies`,
so it and all behind it are put off. The sum of all dates tells: it can
only grow beyond what it should be, and it grows at exactly the calls of
`add_timer` for a timer that is not the latest.
-/
import LearnLinux.Sched.Timer

namespace LearnLinux.Timer

open Function (update update_self update_of_ne)
open Lib (Walk runOps exists_run Meets deadlines bubble dateSum Ascending due)

variable {F : Type} {k k' : Kernel F} {s s' : System F} {c : Nat → Cell F} {ps : List Nat}
variable {l : List (Int × F)} {o : Op F}

-- ======== the linked list

/-- The cell holds the entry of the difference list. -/
def Holds (c : Nat → Cell F) (p : Nat) (e : Int × F) : Prop :=
  (c p).jiffies = e.1 ∧ (c p).fn = some e.2

/-- The cells `ps` hold the entries `l`. -/
abbrev HoldAll (c : Nat → Cell F) : List Nat → List (Int × F) → Prop :=
  List.Forall₂ (Holds c)

theorem HoldAll.congr {c' : Nat → Cell F}
    (h : HoldAll c ps l) (heq : ∀ p ∈ ps, c' p = c p) : HoldAll c' ps l := by
  induction h with
  | nil => exact List.Forall₂.nil
  | @cons p e ps l hp _ ih =>
    refine List.Forall₂.cons ?_ (ih fun q hq =>
      heq q (List.mem_cons_of_mem p hq))
    unfold Holds at hp ⊢
    rw [heq p (List.mem_cons_self ..)]
    exact hp

theorem HoldAll.fn_isSome (h : HoldAll c ps l) : ∀ p ∈ ps, (c p).fn ≠ none := by
  induction h with
  | nil => exact fun p hp => absurd hp List.not_mem_nil
  | cons hp _ ih =>
    intro q hq
    rcases List.mem_cons.mp hq with rfl | hq
    · rw [hp.2]
      nofun
    · exact ih q hq

/-- The list from `next_timer` runs through the cells `ps` and holds the
entries `l`; the cells outside it are free. -/
structure Lists (k : Kernel F) (ps : List Nat) (l : List (Int × F)) : Prop where
  walk : Walk (fun p => (k.timerList p).next) k.nextTimer ps NULL
  nodup : ps.Nodup
  inArray : ∀ p ∈ ps, p < TIME_REQUESTS
  holds : HoldAll k.timerList ps l
  free : ∀ p < TIME_REQUESTS, p ∉ ps → (k.timerList p).fn = none

theorem pendingFrom_eq (h : HoldAll c ps l) : ∀ {n a : Nat}, Walk (fun p => (c p).next) a ps NULL →
      (∀ p ∈ ps, p < TIME_REQUESTS) → ps.length ≤ n → pendingFrom c n a = l := by
  induction h with
  | nil =>
    intro n a hw _ _
    obtain rfl : a = NULL := hw
    cases n with
    | zero => rfl
    | succ n => rw [pendingFrom, if_pos rfl]
  | @cons p e ps l hp _ ih =>
    intro n a hw hlt hn
    obtain ⟨rfl, hw⟩ := hw
    have hne : a ≠ NULL := (hlt a (List.mem_cons_self ..)).ne
    cases n with
    | zero => exact absurd hn (by simp)
    | succ n =>
      rw [pendingFrom, if_neg hne, hp.2, hp.1]
      rw [ih hw (fun q hq => hlt q (List.mem_cons_of_mem a hq)) (by simpa using hn)]

theorem Lists.pending_eq (h : Lists k ps l) : k.pending = l :=
  pendingFrom_eq h.holds h.walk h.inArray (Lib.length_le_of_lt h.nodup h.inArray)

-- ======== add_timer

theorem exchange_next (p q : Nat) : (exchange c p q).next = (c q).next := by
  unfold exchange
  by_cases hn : q = (c p).next
  · rw [hn, update_self]
  · rw [update_of_ne hn]
    by_cases hp : q = p
    · rw [hp, update_self]
    · rw [update_of_ne hp]

theorem exchange_of_ne {p q : Nat} (hp : q ≠ p) (hn : q ≠ (c p).next) : exchange c p q = c q := by
  unfold exchange
  rw [update_of_ne hn, update_of_ne hp]

/-- The loop ends, and the contents of the cells are then those of the
difference list with the new entry moved down. The induction is on the
cells behind the one that holds the new entry. -/
theorem sink_spec : ∀ {n p : Nat} {c : Nat → Cell F} {j : Int} {f : F}
      {l : List (Int × F)}, ps.length < n →
      Walk (fun q => (c q).next) p (p :: ps) NULL → (p :: ps).Nodup →
      (∀ q ∈ ps, q < TIME_REQUESTS) → HoldAll c (p :: ps) ((j, f) :: l) →
      ∃ c', sink n c p = some c' ∧ (∀ q, (c' q).next = (c q).next) ∧ (∀ q ∉ p :: ps, c' q = c q) ∧
        HoldAll c' (p :: ps) (bubble j f l) := by
  induction ps with
  | nil =>
    intro n p c j f l hn hw _ _ hh
    cases n with
    | zero => exact absurd hn (by simp)
    | succ n =>
      have hnext : (c p).next = NULL := hw.2
      cases hh with
      | cons hp hl =>
        cases hl
        refine ⟨c, ?_, fun _ => rfl, fun _ _ => rfl, List.Forall₂.cons hp List.Forall₂.nil⟩
        rw [sink, if_neg (fun h => h.1 hnext)]
  | cons q ps ih =>
    intro n p c j f l hn hw hnd hlt hh
    cases n with
    | zero => exact absurd hn (by simp)
    | succ n =>
      obtain ⟨-, hnext, hw⟩ := hw
      have hnext : (c p).next = q := hnext
      have hq : q ≠ NULL := (hlt q (List.mem_cons_self ..)).ne
      obtain ⟨hpq, hnd'⟩ := List.nodup_cons.mp hnd
      have hpq' : p ≠ q := fun h => hpq (h ▸ List.mem_cons_self ..)
      cases hh with
      | @cons _ _ _ l hp hl =>
        cases hl with
        | @cons _ e _ l hq' hl =>
          unfold sink
          rw [hnext, hq'.1, hp.1]
          by_cases hlt' : e.1 < j
          · -- the two cells exchange what they hold
            rw [if_pos ⟨hq, hlt'⟩]
            have hsame : ∀ x, x ≠ p → x ≠ q → exchange c p x = c x := fun x h1 h2 =>
              exchange_of_ne h1 (hnext ▸ h2)
            have hxq : exchange c p q = { c q with jiffies := j - e.1, fn := some f } := by
              unfold exchange
              rw [hnext, update_self, hp.1, hp.2, hq'.1]
            have hxp : exchange c p p = { c p with jiffies := e.1, fn := some e.2 } := by
              unfold exchange
              rw [hnext, update_of_ne hpq', update_self, hq'.1, hq'.2]
            have hw' : Walk (fun x => (exchange c p x).next) q (q :: ps) NULL :=
              ⟨rfl, Lib.Walk.congr (by
                show Walk _ ((exchange c p q).next) ps NULL
                rw [exchange_next]
                exact hw) fun x _ => exchange_next p x⟩
            have hps : ∀ x ∈ ps, x ≠ p ∧ x ≠ q := fun x hx =>
              ⟨fun h => hpq (h ▸ List.mem_cons_of_mem q hx),
                fun h => (List.nodup_cons.mp hnd').1 (h ▸ hx)⟩
            have hh' : HoldAll (exchange c p) (q :: ps) ((j - e.1, f) :: l) :=
              List.Forall₂.cons ⟨by rw [hxq], by rw [hxq]⟩ (HoldAll.congr hl fun x hx =>
                hsame x (hps x hx).1 (hps x hx).2)
            obtain ⟨c', hc', hn', hout, hin⟩ := ih (by simpa using hn) hw' hnd'
              (fun x hx => hlt x (List.mem_cons_of_mem q hx)) hh'
            refine ⟨c', hc', fun x => (hn' x).trans (exchange_next p x), fun x hx => ?_, ?_⟩
            · have hxp' : x ≠ p := fun h =>
                hx (h ▸ List.mem_cons_self ..)
              have hxq' : x ∉ q :: ps := fun h =>
                hx (List.mem_cons_of_mem p h)
              rw [hout x hxq', hsame x hxp' fun h =>
                hxq' (h ▸ List.mem_cons_self ..)]
            · have hcp : c' p = exchange c p p := hout p hpq
              unfold bubble
              rw [if_pos hlt']
              exact List.Forall₂.cons ⟨by rw [hcp, hxp], by rw [hcp, hxp]⟩ hin
          · rw [if_neg fun h => hlt' h.2]
            unfold bubble
            rw [if_neg hlt']
            exact ⟨c, rfl, fun _ => rfl, fun _ _ => rfl,
              List.Forall₂.cons hp (List.Forall₂.cons hq' hl)⟩

/-- `add_timer` on a well-formed list: it panics only if every cell is
taken, and otherwise bubbles the new timer in. -/
theorem addTimer_spec (h : Lists k ps l) (j : Int) (f : F) :
    (ps.length = TIME_REQUESTS ∧ addTimer k j f = none) ∨
    ∃ p k', p ∉ ps ∧ addTimer k j f = some k' ∧ Lists k' (p :: ps) (bubble j f l) := by
  unfold addTimer
  cases hf : freeCell k.timerList with
  | none =>
    refine .inl ⟨le_antisymm (Lib.length_le_of_lt h.nodup h.inArray) ?_, rfl⟩
    have hall := List.find?_eq_none.mp hf
    have hsub : List.range TIME_REQUESTS ⊆ ps := by
      intro p hp
      by_contra hps
      refine hall p hp ?_
      rw [h.free p (List.mem_range.mp hp) hps]
      rfl
    simpa using (List.nodup_range.subperm hsub).length_le
  | some p =>
    have hp : (k.timerList p).fn = none := by
      simpa using List.find?_some hf
    have hlt : p < TIME_REQUESTS :=
      List.mem_range.mp (List.mem_of_find?_eq_some hf)
    have hps : p ∉ ps := fun h' => h.holds.fn_isSome p h' hp
    have hne : ∀ q ∈ ps, q ≠ p := fun q hq h' => hps (h' ▸ hq)
    have hw : Walk (fun q => (update k.timerList p
        ⟨j, some f, k.nextTimer⟩ q).next) p (p :: ps) NULL := by
      refine ⟨rfl, ?_⟩
      show Walk _ (update k.timerList p ⟨j, some f, k.nextTimer⟩ p).next ps NULL
      rw [update_self]
      exact h.walk.congr fun q hq => by
        rw [update_of_ne (hne q hq)]
    have hh : HoldAll (update k.timerList p ⟨j, some f, k.nextTimer⟩) (p :: ps) ((j, f) :: l) := by
      refine List.Forall₂.cons ?_ (h.holds.congr fun q hq =>
        update_of_ne (hne q hq) ..)
      unfold Holds
      rw [update_self]
      exact ⟨rfl, rfl⟩
    have hnd : (p :: ps).Nodup := List.nodup_cons.mpr ⟨hps, h.nodup⟩
    have hin' : ∀ q ∈ p :: ps, q < TIME_REQUESTS := by
      intro q hq
      rcases List.mem_cons.mp hq with rfl | hq
      · exact hlt
      · exact h.inArray q hq
    obtain ⟨c', hc', hn, hout, hin⟩ := sink_spec (Lib.length_le_of_lt hnd hin') hw hnd h.inArray hh
    refine .inr ⟨p, ⟨c', p⟩, hps, ?_, ?_⟩
    · rw [Option.bind_some, hc']
      rfl
    · refine ⟨hw.congr fun q _ => hn q, hnd, hin', hin, fun q hq hq' => ?_⟩
      obtain ⟨hqp, hqps⟩ := not_or.mp (fun h' => hq' (List.mem_cons.mpr h'))
      show (c' q).fn = none
      rw [hout q hq', update_of_ne hqp]
      exact h.free q hq hqps

-- ======== do_timer

/-- The decrement reaches the first timer only. -/
def tickList : List (Int × F) → List (Int × F)
  | [] => []
  | (d, f) :: l => (d - 1, f) :: l

theorem countDown_lists (h : Lists k ps l) : Lists (countDown k) ps (tickList l) := by
  unfold countDown
  cases h.holds with
  | nil =>
    have hw : k.nextTimer = NULL := h.walk
    rw [if_pos hw]
    exact h
  | @cons p e ps l hp hl =>
    obtain ⟨rfl, hw⟩ := h.walk
    have hne : k.nextTimer ≠ NULL :=
      (h.inArray _ (List.mem_cons_self ..)).ne
    have hps := (List.nodup_cons.mp h.nodup).1
    have hnext : ∀ q, (update k.timerList k.nextTimer
        { k.timerList k.nextTimer with
          jiffies := (k.timerList k.nextTimer).jiffies - 1 } q).next
        = (k.timerList q).next := by
      intro q
      by_cases hq : q = k.nextTimer
      · rw [hq, update_self]
      · rw [update_of_ne hq]
    rw [if_neg hne]
    refine ⟨h.walk.congr fun q _ => hnext q, h.nodup, h.inArray, ?_, fun q hq hq' => ?_⟩
    · refine List.Forall₂.cons ?_ (HoldAll.congr hl fun q hq => ?_)
      · unfold Holds
        dsimp only
        rw [update_self]
        exact ⟨by rw [← hp.1], hp.2⟩
      · have hqk : q ≠ k.nextTimer := by
          rintro rfl
          exact hps hq
        exact update_of_ne hqk ..
    · show (update k.timerList k.nextTimer _ q).fn = none
      have hqk : q ≠ k.nextTimer := by
        rintro rfl
        exact hq' (List.mem_cons_self ..)
      rw [update_of_ne hqk]
      exact h.free q hq hq'

/-- The loop goes on while the first entry is due. -/
theorem anyDue_iff (h : Lists k ps l) : AnyDue k ↔ 0 < due l := by
  cases h.holds with
  | nil =>
    have hw : k.nextTimer = NULL := h.walk
    exact iff_of_false (fun hd => hd.1 hw) (by simp [due])
  | @cons p e ps l hp hl =>
    obtain ⟨rfl, hw⟩ := h.walk
    have hne : k.nextTimer ≠ NULL :=
      (h.inArray _ (List.mem_cons_self ..)).ne
    unfold AnyDue due
    rw [hp.1]
    by_cases he : e.1 ≤ 0
    · rw [List.takeWhile_cons_of_pos (by simpa using he)]
      exact iff_of_true ⟨hne, he⟩ (Nat.succ_pos _)
    · rw [List.takeWhile_cons_of_neg (by simpa using he)]
      exact iff_of_false (fun hd => he hd.2) (Nat.lt_irrefl 0)

theorem unlink_lists (h : Lists k ps l) (hd : AnyDue k) :
    ∃ d f l' ps', l = (d, f) :: l' ∧ d ≤ 0 ∧ (unlink k).1 = some f ∧ Lists (unlink k).2 ps' l' := by
  cases h.holds with
  | nil => exact absurd h.walk hd.1
  | @cons p e ps l hp hl =>
    obtain ⟨rfl, hw⟩ := h.walk
    obtain ⟨hps, hnd⟩ := List.nodup_cons.mp h.nodup
    have hsame : ∀ q ∈ ps, (unlink k).2.timerList q = k.timerList q := by
      intro q hq
      have hqk : q ≠ k.nextTimer := by
        rintro rfl
        exact hps hq
      exact update_of_ne hqk ..
    refine ⟨e.1, e.2, l, ps, rfl, ?_, hp.2, ?_⟩
    · rw [← hp.1]
      exact hd.2
    · refine ⟨Lib.Walk.congr hw fun q hq => by rw [hsame q hq], hnd,
        fun q hq => h.inArray q (List.mem_cons_of_mem _ hq),
        HoldAll.congr hl hsame, fun q hq hq' => ?_⟩
      show (update k.timerList k.nextTimer _ q).fn = none
      by_cases hqk : q = k.nextTimer
      · rw [hqk, update_self]
      · rw [update_of_ne hqk]
        refine h.free q hq fun h' => ?_
        rcases List.mem_cons.mp h' with h' | h'
        · exact hqk h'
        · exact hq' h'

-- ======== invariant

/-- What holds in every run: the list is well formed and its differences
are not negative, between ticks the first one is not 0, and no timer is
called or scheduled earlier, in sum, than it was added for. -/
structure Inv (s : System F) : Prop where
  lists : ∃ ps, Lists s.kernel ps s.kernel.pending
  ascending : Ascending s.kernel.pending
  rested : s.inTick = false → due s.kernel.pending = 0
  late : dateSum s.added ≤ dateSum (s.called ++ s.scheduled)

theorem inv_boot : Inv (System.boot : System F) := by
  have hl : Lists (System.boot : System F).kernel [] [] :=
    ⟨rfl, List.nodup_nil, fun _ h => absurd h List.not_mem_nil, List.Forall₂.nil, fun _ _ _ => rfl⟩
  have hp := hl.pending_eq
  refine ⟨⟨[], hp ▸ hl⟩, ?_, fun _ => ?_, ?_⟩
  · rw [hp]
    exact fun _ h => absurd h List.not_mem_nil
  · rw [hp]
    rfl
  · unfold System.scheduled
    rw [hp]
    exact le_rfl

theorem onTime_boot : (System.boot : System F).OnTime := by
  have hp : (System.boot : System F).scheduled = [] := rfl
  refine ⟨?_, fun _ => ?_⟩
  · rw [hp]
    exact List.Perm.refl _
  · rw [hp]
    exact fun _ h => absurd h List.not_mem_nil

/-- What a call of `add_timer` that waits does: the list is bubbled into,
and the addition is noted. -/
theorem add_cases {j : Int} {fn : Option F} (hi : Inv s) (h : add s j fn = some s') : s' = s ∨
    (∃ f, fn = some f ∧ j ≤ 0 ∧ s' = { s with
      called := s.called ++ [(f, (s.ticks : Int))]
      added := s.added ++ [(f, (s.ticks : Int))] }) ∨
    (∃ f ps k', fn = some f ∧ 0 < j ∧
      Lists k' ps (bubble j f s.kernel.pending) ∧ s' = { s with
      kernel := k'
      added := s.added ++ [(f, s.ticks + j)] }) := by
  cases fn with
  | none => exact .inl (Option.some.inj h).symm
  | some f =>
    simp only [add] at h
    by_cases hj : j ≤ 0
    · rw [if_pos hj] at h
      exact .inr (.inl ⟨f, rfl, hj, (Option.some.inj h).symm⟩)
    · rw [if_neg hj] at h
      obtain ⟨k', hk', hs'⟩ := Option.map_eq_some_iff.mp h
      obtain ⟨ps, hl⟩ := hi.lists
      rcases addTimer_spec hl j f with ⟨-, hn⟩ | ⟨p, k1, -, hk1, hl1⟩
      · rw [hn] at hk'
        cases hk'
      · rw [hk1] at hk'
        cases hk'
        exact .inr (.inr ⟨f, p :: ps, k', rfl, by omega, hl1, hs'.symm⟩)

theorem fire_cases (hi : Inv s) (h : fire s = some s') :
    ∃ f l ps, s.inTick = true ∧ s.kernel.pending = (0, f) :: l ∧
      Lists (unlink s.kernel).2 ps l ∧ s' = { s with
        kernel := (unlink s.kernel).2
        called := s.called ++ [(f, (s.ticks : Int))] } := by
  unfold fire at h
  by_cases hg : s.inTick = true ∧ AnyDue s.kernel
  · rw [if_pos hg] at h
    obtain ⟨ps, hl⟩ := hi.lists
    obtain ⟨d, f, l, ps', hp, hd, hf, hl'⟩ := unlink_lists hl hg.2
    rw [hf] at h
    have hd0 : 0 ≤ d := hi.ascending (d, f) (hp ▸ List.mem_cons_self ..)
    obtain rfl : d = 0 := le_antisymm hd hd0
    exact ⟨f, l, ps', hg.1, hp, hl', (Option.some.inj h).symm⟩
  · rw [if_neg hg] at h
    cases h

/-- The tick that begins is counted in the list: no date moves. -/
theorem countDown_scheduled (hi : Inv s) :
    deadlines ((s.ticks + 1 : Nat) : Int) (countDown s.kernel).pending = s.scheduled := by
  obtain ⟨ps, hl⟩ := hi.lists
  rw [(countDown_lists hl).pending_eq]
  unfold System.scheduled
  cases s.kernel.pending with
  | nil => rfl
  | cons e l =>
    rw [Nat.cast_add, Nat.cast_one]
    exact Lib.deadlines_tick

/-- The first entry of a difference list is what can be due. -/
theorem due_eq_zero {e : Int × F} (h : due (e :: l) = 0) : 0 < e.1 := by
  by_contra he
  unfold due at h
  rw [List.takeWhile_cons_of_pos (by simpa using he)] at h
  cases h

/-- One step keeps the invariant, whatever is added. -/
theorem Inv.step (hi : Inv s) (h : Timer.step o s = some s') : Inv s' := by
  cases o with
  | addTimer j fn =>
    rcases add_cases hi h with rfl | ⟨f, -, -, rfl⟩ | ⟨f, ps, k', -, hj, hl, rfl⟩
    · exact hi
    · refine ⟨hi.lists, hi.ascending, hi.rested, ?_⟩
      have := hi.late
      show dateSum (s.added ++ _) ≤ dateSum (s.called ++ _ ++ s.scheduled)
      simp only [Lib.dateSum_append] at this ⊢
      linarith
    · have hp := hl.pending_eq
      refine ⟨⟨ps, hp ▸ hl⟩, ?_, fun hin => ?_, ?_⟩
      · rw [hp]
        exact Lib.bubble_ascending hi.ascending hj
      · rw [hp, Lib.due_bubble hi.ascending hj]
        exact hi.rested hin
      · have := hi.late
        have hle := Lib.dateSum_bubble_le s.ticks (f := f) hi.ascending hj
        show dateSum (s.added ++ _) ≤ dateSum (s.called ++ deadlines s.ticks k'.pending)
        rw [hp]
        unfold System.scheduled at this
        simp only [Lib.dateSum_append, Lib.dateSum_cons, Lib.dateSum_nil] at this ⊢
        linarith
  | doTimer =>
    simp only [Timer.step] at h
    by_cases hin : s.inTick = true
    · rw [if_pos hin] at h
      cases h
    · rw [if_neg hin] at h
      cases h
      obtain ⟨ps, hl⟩ := hi.lists
      have hl' := countDown_lists hl
      have hp := hl'.pending_eq
      have hdue := hi.rested (by simpa using hin)
      refine ⟨⟨ps, hp ▸ hl'⟩, ?_, nofun, ?_⟩
      · rw [hp]
        have hasc := hi.ascending
        cases hpe : s.kernel.pending with
        | nil => exact fun _ h => absurd h List.not_mem_nil
        | cons e l =>
          rw [hpe] at hasc hdue
          intro e' he'
          rcases List.mem_cons.mp he' with rfl | he'
          · -- the first entry was not due before the tick
            have := due_eq_zero hdue
            omega
          · exact hasc e' (List.mem_cons_of_mem e he')
      · show dateSum s.added ≤ dateSum (s.called
          ++ deadlines ((s.ticks + 1 : Nat) : Int) (countDown s.kernel).pending)
        rw [countDown_scheduled hi]
        exact hi.late
  | fire =>
    obtain ⟨f, l, ps, hin, hpe, hl, rfl⟩ := fire_cases hi h
    have hp := hl.pending_eq
    have hasc := hi.ascending
    rw [hpe] at hasc
    refine ⟨⟨ps, hp ▸ hl⟩, ?_, fun hin' => ?_, ?_⟩
    · rw [hp]
      exact hasc.tail
    · exact absurd (hin.symm.trans hin') (by decide)
    · have := hi.late
      unfold System.scheduled at this
      rw [hpe, deadlines, Int.add_zero] at this
      show dateSum s.added ≤ dateSum (s.called ++ _
        ++ deadlines s.ticks (unlink s.kernel).2.pending)
      rw [hp]
      simp only [Lib.dateSum_append, Lib.dateSum_cons, Lib.dateSum_nil] at this ⊢
      linarith
  | leave =>
    simp only [Timer.step] at h
    by_cases hg : s.inTick = true ∧ ¬ AnyDue s.kernel
    · rw [if_pos hg] at h
      cases h
      obtain ⟨ps, hl⟩ := hi.lists
      refine ⟨⟨ps, hl⟩, hi.ascending, fun _ => ?_, hi.late⟩
      exact Nat.eq_zero_of_not_pos fun hd => hg.2 ((anyDue_iff hl).mpr hd)
    · rw [if_neg hg] at h
      cases h

-- ======== on time

/-- With no timer due, nothing is scheduled for the present tick. -/
theorem Inv.scheduled_later (hi : Inv s) (hd : due s.kernel.pending = 0) :
    ∀ e ∈ s.scheduled, (s.ticks : Int) < e.2 := by
  have hasc := hi.ascending
  unfold System.scheduled
  cases hp : s.kernel.pending with
  | nil => exact fun _ h => absurd h List.not_mem_nil
  | cons e l =>
    rw [hp] at hd hasc
    have he := due_eq_zero hd
    intro e' he'
    rcases List.mem_cons.mp he' with rfl | he'
    · omega
    · have := Lib.deadlines_later hasc.tail e' he'
      omega

/-- A step that adds nothing but at the end keeps the timers on time. -/
theorem System.OnTime.step (hi : Inv s) (ht : s.OnTime)
    (hg : Latest o s) (h : Timer.step o s = some s') : s'.OnTime := by
  refine ⟨?_, fun hin => (hi.step h).scheduled_later ((hi.step h).rested hin)⟩
  have hperm := ht.1
  cases o with
  | addTimer j fn =>
    rcases add_cases hi h with rfl | ⟨f, -, -, rfl⟩ | ⟨f, ps, k', rfl, hj, hl, rfl⟩
    · exact hperm
    · rw [List.append_assoc, List.singleton_append]
      exact (List.perm_middle.trans (hperm.cons _)).trans (List.perm_append_singleton _ _).symm
    · show (s.called ++ deadlines s.ticks k'.pending).Perm (s.added ++ [_])
      rw [hl.pending_eq, Lib.deadlines_bubble_of_last hi.ascending (hg hj), ← List.append_assoc]
      exact hperm.append_right _
  | doTimer =>
    simp only [Timer.step] at h
    by_cases hin : s.inTick = true
    · rw [if_pos hin] at h
      cases h
    · rw [if_neg hin] at h
      cases h
      show (s.called ++ deadlines ((s.ticks + 1 : Nat) : Int)
        (countDown s.kernel).pending).Perm s.added
      rw [countDown_scheduled hi]
      exact hperm
  | fire =>
    obtain ⟨f, l, ps, hin, hpe, hl, rfl⟩ := fire_cases hi h
    show (s.called ++ [_] ++ deadlines s.ticks (unlink s.kernel).2.pending).Perm s.added
    unfold System.scheduled at hperm
    rw [hpe, deadlines, Int.add_zero] at hperm
    rw [hl.pending_eq, List.append_assoc, List.singleton_append]
    exact hperm
  | leave =>
    simp only [Timer.step] at h
    by_cases hg' : s.inTick = true ∧ ¬ AnyDue s.kernel
    · rw [if_pos hg'] at h
      cases h
      exact hperm
    · rw [if_neg hg'] at h
      cases h

/-- A timer added in front of another puts that one off, and the sum of
the dates shows it. -/
theorem latest_of_onTime (hi : Inv s)
    (h : Timer.step o s = some s') (ht : s'.OnTime) : Latest o s := by
  cases o with
  | addTimer j fn =>
    cases fn with
    | none => trivial
    | some f =>
      intro hj
      by_contra hlt
      have h : add s j (some f) = some s' := h
      rcases add_cases hi h with rfl | ⟨f', -, hj', -⟩ | ⟨f', ps, k', hf, -, hl, rfl⟩
      · -- a call that waits does note an addition
        simp only [add, if_neg (not_le.mpr hj)] at h
        obtain ⟨k', -, hk'⟩ := Option.map_eq_some_iff.mp h
        have hadd := congrArg (fun s => s.added.length) hk'
        simp at hadd
      · omega
      · cases hf
        have hsum := Lib.dateSum_perm ht.1
        have hlate := hi.late
        have hb := Lib.bubble_late s.ticks (f := f) hi.ascending hj hlt
        have hpe : (k'.pending) = _ := hl.pending_eq
        unfold System.scheduled at hsum hlate
        simp only [hpe, Lib.dateSum_append, Lib.dateSum_cons, Lib.dateSum_nil] at hsum hlate
        linarith
  | _ => trivial

/-- In a run of ticks and calls of `add_timer`, by anybody and from any of
the functions called, every timer is called exactly once and in the tick
it was added for, and the list shows the ticks that remain, in every state
the run goes through, exactly if each timer added is due after all that
are pending at that moment. -/
theorem timers_on_time_iff {os : List (Op F)} (h : runOps step os System.boot = some s') :
    (∀ os₁ os₂ s₁, os = os₁ ++ os₂ → runOps step os₁ System.boot = some s₁ → s₁.OnTime) ↔
      Meets step Latest os System.boot := by
  exact (Lib.meets_iff_states (I := fun s => Inv s ∧ s.OnTime)
    (fun _ _ _ hI hg hs => ⟨hI.1.step hs, hI.2.step hI.1 hg hs⟩)
    (fun _ hI => hI.2) (fun _ _ _ hI hs ht => latest_of_onTime hI.1 hs ht) h
    ⟨inv_boot, onTime_boot⟩).symm

/-- Two timers, the later one added last, and the first tick. -/
def inOrder : List (Op Nat) :=
  [.addTimer 1 (some 7), .addTimer 3 (some 8), .doTimer, .fire, .leave]

theorem timers_on_time_iff_two : ∃ s', runOps step inOrder System.boot = some s' ∧
      s'.called = [(7, 1)] ∧ s'.scheduled = [(8, 3)] ∧ ((∀ os₁ os₂ s₁, inOrder = os₁ ++ os₂ →
        runOps step os₁ System.boot = some s₁ → s₁.OnTime) ↔
        Meets step Latest inOrder System.boot) := by
  exact exists_run (fun s => s.called = [(7, 1)] ∧ s.scheduled = [(8, 3)]) (by decide +kernel)
    fun s' h hv => ⟨hv.1, hv.2, timers_on_time_iff h⟩

/-- The other way round, a timer for tick 10 and then one for tick 3: the
list now has the first one at tick 13. -/
theorem earlier_timer_delays_later : ∃ s' : System Nat,
      runOps step [.addTimer 10 (some 7), .addTimer 3 (some 8)] System.boot = some s' ∧
      s'.added = [(7, 10), (8, 3)] ∧ s'.scheduled = [(8, 3), (7, 13)] ∧ ¬ s'.OnTime := by
  refine exists_run (fun s => s.called = [] ∧ s.added = [(7, 10), (8, 3)] ∧
    s.scheduled = [(8, 3), (7, 13)]) (by decide +kernel) fun s' h hv => ?_
  obtain ⟨hc, ha, hd⟩ := hv
  refine ⟨ha, hd, fun ht => ?_⟩
  have hperm := ht.1
  rw [hc, ha, hd] at hperm
  exact absurd hperm (by decide)

-- ======== what returns

/-- The rounds of the loop of `do_timer` in a run. -/
def rounds (os : List (Op F)) : Nat :=
  os.countP fun o => match o with
    | .fire => true
    | _ => false

/-- The step belongs to the loop of `do_timer`: a round, or a function it
calls adds a timer. -/
def Op.InLoop : Op F → Prop
  | .addTimer _ _ => True
  | .fire => True
  | _ => False

/-- One step of the loop: a round takes one timer that is due, and no
addition makes another due. -/
theorem due_step (hi : Inv s) (ho : o.InLoop) (h : Timer.step o s = some s') :
    rounds [o] + due s'.kernel.pending = due s.kernel.pending := by
  cases o with
  | addTimer j fn =>
    rcases add_cases hi h with rfl | ⟨f, -, -, rfl⟩ | ⟨f, ps, k', -, hj, hl, rfl⟩
    · exact Nat.zero_add _
    · exact Nat.zero_add _
    · rw [hl.pending_eq, Lib.due_bubble hi.ascending hj]
      exact Nat.zero_add _
  | fire =>
    obtain ⟨f, l, ps, hin, hpe, hl, rfl⟩ := fire_cases hi h
    rw [hl.pending_eq, hpe]
    unfold due
    rw [List.takeWhile_cons_of_pos (by simp), List.length_cons, Nat.add_comm]
    rfl
  | doTimer | leave => exact absurd ho id

/-- The loop of `do_timer` goes through as many rounds as timers were due
when it began, whatever the functions add: it ends. -/
theorem loop_rounds {os : List (Op F)} (hi : Inv s)
    (ho : ∀ o ∈ os, o.InLoop) (h : runOps step os s = some s') :
    rounds os + due s'.kernel.pending = due s.kernel.pending := by
  induction os generalizing s with
  | nil =>
    cases h
    exact Nat.zero_add _
  | cons o os ih =>
    obtain ⟨s1, h1, h2⟩ := Lib.runOps_cons h
    have hstep := due_step hi (ho o (List.mem_cons_self ..)) h1
    have hrest := ih (hi.step h1) (fun o' ho' => ho o' (List.mem_cons_of_mem o ho')) h2
    have hsplit : rounds (o :: os) = rounds [o] + rounds os := by
      unfold rounds
      rw [← List.singleton_append, List.countP_append]
    omega

/-- Each round can be taken while a timer is due, and the loop left when
none is. -/
theorem loop_goes_on (hi : Inv s) (hin : s.inTick = true) :
    (step .fire s).isSome = true ∨ (step .leave s).isSome = true := by
  obtain ⟨ps, hl⟩ := hi.lists
  by_cases hd : AnyDue s.kernel
  · obtain ⟨d, f, l, ps', -, -, hf, -⟩ := unlink_lists hl hd
    refine .inl ?_
    show (fire s).isSome = true
    unfold fire
    rw [if_pos ⟨hin, hd⟩, hf]
    rfl
  · refine .inr ?_
    simp only [Timer.step]
    rw [if_pos ⟨hin, hd⟩]
    rfl

/-- `add_timer` returns while fewer than 64 timers are pending. -/
theorem add_returns (hi : Inv s) (hlen : s.kernel.pending.length < TIME_REQUESTS) (j : Int)
    (fn : Option F) : (step (.addTimer j fn) s).isSome = true := by
  cases fn with
  | none => rfl
  | some f =>
    simp only [Timer.step, add]
    split
    · rfl
    · obtain ⟨ps, hl⟩ := hi.lists
      rcases addTimer_spec hl j f with ⟨hfull, -⟩ | ⟨p, k', -, hk', -⟩
      · rw [← hl.holds.length_eq, hfull] at hlen
        exact absurd hlen (Nat.lt_irrefl _)
      · rw [hk']
        rfl

/-- In every state that is reached a round can be taken or the loop left,
and from there it takes as many rounds as timers are due. -/
theorem timer_loop_ends {os₀ os : List (Op F)} (h₀ : runOps step os₀ System.boot = some s)
    (ho : ∀ o ∈ os, o.InLoop) (h : runOps step os s = some s') :
    rounds os + due s'.kernel.pending = due s.kernel.pending ∧
      (s.inTick = true → (step .fire s).isSome = true ∨ (step .leave s).isSome = true) := by
  have hi : Inv s := Lib.runOps_invariant_all (fun _ _ _ hi hs => hi.step hs) h₀ inv_boot
  exact ⟨loop_rounds hi ho h, loop_goes_on hi⟩

/-- One timer is due, and its function adds another. -/
theorem timer_loop_ends_one : ∃ s : System Nat,
    runOps step [.addTimer 1 (some 7), .doTimer] System.boot = some s ∧ ∃ s',
      runOps step [.fire, .addTimer 1 (some 7)] s = some s' ∧
        1 + due s'.kernel.pending = due s.kernel.pending := by
  refine exists_run (fun s => (runOps step [.fire, .addTimer 1 (some 7)] s).isSome = true)
    (by decide +kernel) fun s h hs => ?_
  obtain ⟨s', hs'⟩ := Option.isSome_iff_exists.mp hs
  exact ⟨s', hs', (timer_loop_ends h (by simp [Op.InLoop]) hs').1⟩

end LearnLinux.Timer
