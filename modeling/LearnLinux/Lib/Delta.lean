/-
Difference lists: a queue of events in which each entry holds the time
between the event before it and its own. The date of an entry is the sum
of the differences up to it.

`bubble` puts an event in by moving it down the list past every entry
that is due before it, taking each difference off its own. The entry it
stops in front of keeps its difference, so the dates of everything behind
the new entry are put off; only at the end of the list is nothing put off
(`deadlines_bubble_of_last`, `bubble_late`).
-/
import Mathlib

namespace LearnLinux.Lib

variable {F : Type*}

/-- The events with their dates, where the first difference counts from
`now`. -/
def deadlines (now : Int) : List (Int × F) → List (F × Int)
  | [] => []
  | (d, f) :: l => (f, now + d) :: deadlines (now + d) l

/-- The time to the last event. -/
def total (l : List (Int × F)) : Int := (l.map Prod.fst).sum

/-- The sum of all dates, by which a list that puts events off is told from
one that does not. -/
def dateSum (l : List (F × Int)) : Int := (l.map Prod.snd).sum

/-- The event `f`, due in `j`, moved down past the events due before it. -/
def bubble (j : Int) (f : F) : List (Int × F) → List (Int × F)
  | [] => [(j, f)]
  | (d, g) :: l =>
    if d < j then (d, g) :: bubble (j - d) f l else (j, f) :: (d, g) :: l

/-- No difference is negative. -/
def Ascending (l : List (Int × F)) : Prop := ∀ e ∈ l, 0 ≤ e.1

/-- The entries at the front that are due now. -/
def due (l : List (Int × F)) : Nat := (l.takeWhile fun e => e.1 ≤ 0).length

variable {l : List (Int × F)} {now j d : Int} {f : F}

@[simp] theorem total_nil : total ([] : List (Int × F)) = 0 := rfl

@[simp] theorem total_cons (e : Int × F) : total (e :: l) = e.1 + total l := by
  simp [total]

@[simp] theorem dateSum_nil : dateSum ([] : List (F × Int)) = 0 := rfl

@[simp] theorem dateSum_cons (e : F × Int) (L : List (F × Int)) :
    dateSum (e :: L) = e.2 + dateSum L := by
  simp [dateSum]

theorem dateSum_append (L L' : List (F × Int)) : dateSum (L ++ L') = dateSum L + dateSum L' := by
  simp [dateSum]

theorem dateSum_perm {L L' : List (F × Int)} (h : L.Perm L') : dateSum L = dateSum L' :=
  (h.map Prod.snd).sum_eq

theorem Ascending.tail {e : Int × F} (h : Ascending (e :: l)) :
    Ascending l := fun e' he' => h e' (List.mem_cons_of_mem e he')

theorem Ascending.total_nonneg (h : Ascending l) : 0 ≤ total l := by
  induction l with
  | nil => exact le_rfl
  | cons e l ih =>
    rw [total_cons]
    have := h e (List.mem_cons_self ..)
    have := ih h.tail
    omega

/-- One unit of time passes: the first difference shrinks, and no date
moves. -/
theorem deadlines_tick : deadlines (now + 1) ((d - 1, f) :: l) = deadlines now ((d, f) :: l) := by
  have h : now + 1 + (d - 1) = now + d := by omega
  rw [deadlines, deadlines, h]

/-- What is behind a first difference above 0 is due later. -/
theorem deadlines_later (h : Ascending l) : ∀ e ∈ deadlines now l, now ≤ e.2 := by
  induction l generalizing now with
  | nil => exact fun e he => absurd he List.not_mem_nil
  | cons e l ih =>
    have he0 := h e (List.mem_cons_self ..)
    intro e' he'
    rcases List.mem_cons.mp he' with rfl | he'
    · omega
    · have := ih h.tail e' he'
      omega

-- ======== insertion

theorem bubble_ascending (hl : Ascending l) (hj : 0 < j) : Ascending (bubble j f l) := by
  induction l generalizing j with
  | nil =>
    intro e he
    rw [List.mem_singleton.mp he]
    exact hj.le
  | cons e l ih =>
    unfold bubble
    split
    · rename_i hd
      intro e' he'
      rcases List.mem_cons.mp he' with rfl | he'
      · exact hl _ (List.mem_cons_self ..)
      · exact ih hl.tail (by omega) e' he'
    · intro e' he'
      rcases List.mem_cons.mp he' with rfl | he'
      · exact hj.le
      · exact hl e' he'

/-- An event due after all the others is put at the end. -/
theorem bubble_of_last (hl : Ascending l) (h : total l < j) :
    bubble j f l = l ++ [(j - total l, f)] := by
  induction l generalizing j with
  | nil =>
    rw [bubble, total_nil, Int.sub_zero]
    rfl
  | cons e l ih =>
    rw [total_cons] at h
    have h0 := hl.tail.total_nonneg
    rw [bubble, if_pos (by omega), ih hl.tail (by omega), total_cons, List.cons_append, Int.sub_sub]

theorem deadlines_snoc : deadlines now (l ++ [(d, f)])
    = deadlines now l ++ [(f, now + total l + d)] := by
  induction l generalizing now with
  | nil =>
    rw [total_nil, Int.add_zero]
    rfl
  | cons e l ih =>
    rw [List.cons_append, deadlines, ih, total_cons, deadlines, List.cons_append, Int.add_assoc now]

/-- Put at the end, the new event has its date and no other moves. -/
theorem deadlines_bubble_of_last (hl : Ascending l) (h : total l < j) :
    deadlines now (bubble j f l) = deadlines now l ++ [(f, now + j)] := by
  rw [bubble_of_last hl h, deadlines_snoc,
    show now + total l + (j - total l) = now + j by omega]

theorem dateSum_deadlines_add (now k : Int) : dateSum (deadlines (now + k) l)
      = dateSum (deadlines now l) + l.length * k := by
  induction l generalizing now with
  | nil => simp [deadlines]
  | cons e l ih =>
    have hk : now + k + e.1 = now + e.1 + k := by omega
    rw [deadlines, deadlines, dateSum_cons, dateSum_cons, hk, ih, List.length_cons]
    push_cast
    linarith

/-- In front of another event, it puts that one and all behind it off. -/
theorem bubble_late (now : Int) (hl : Ascending l) (hj : 0 < j) (h : ¬ total l < j) :
    dateSum (deadlines now l) + (now + j) < dateSum (deadlines now (bubble j f l)) := by
  induction l generalizing j now with
  | nil =>
    rw [total_nil] at h
    exact absurd hj h
  | cons e l ih =>
    rw [total_cons] at h
    unfold bubble
    split
    · rename_i hd
      have hrec := ih (j := j - e.1) (now + e.1) hl.tail (by omega) (by omega)
      rw [deadlines, deadlines, dateSum_cons, dateSum_cons]
      linarith
    · have hs := dateSum_deadlines_add now j (l := e :: l)
      have hlen : (0 : Int) < ((e :: l).length : Int) * j :=
        mul_pos (by simp) hj
      show _ < dateSum ((f, now + j) :: deadlines (now + j) (e :: l))
      rw [dateSum_cons]
      linarith

theorem dateSum_bubble_le (now : Int) (hl : Ascending l) (hj : 0 < j) :
    dateSum (deadlines now l) + (now + j) ≤ dateSum (deadlines now (bubble j f l)) := by
  by_cases h : total l < j
  · rw [deadlines_bubble_of_last hl h, dateSum_append]
    simp
  · exact (bubble_late now hl hj h).le

/-- A new event is never due at once, nor in front of those that are. -/
theorem due_bubble (hl : Ascending l) (hj : 0 < j) : due (bubble j f l) = due l := by
  induction l generalizing j with
  | nil =>
    unfold due bubble
    rw [List.takeWhile_cons_of_neg (by simpa using hj)]
    rfl
  | cons e l ih =>
    unfold bubble
    split
    · rename_i hd
      by_cases he : e.1 ≤ 0
      · have hrec := ih (j := j - e.1) hl.tail (by omega)
        unfold due at hrec ⊢
        rw [List.takeWhile_cons_of_pos (by simpa using he),
          List.takeWhile_cons_of_pos (by simpa using he), List.length_cons, List.length_cons, hrec]
      · unfold due
        rw [List.takeWhile_cons_of_neg (by simpa using he),
          List.takeWhile_cons_of_neg (by simpa using he)]
    · rename_i hd
      have he : ¬ e.1 ≤ 0 := by
        intro h
        have : e.1 < j := by omega
        exact hd this
      unfold due
      rw [List.takeWhile_cons_of_neg (by simpa using hj),
        List.takeWhile_cons_of_neg (by simpa using he)]

end LearnLinux.Lib
