/-
Stable priority queues.

Seen from outside, a priority queue holds its elements in the order they
came in, and gives out the oldest one of those with the highest key
(`foremost`). An implementation keeps another list, sorted by key and
stable: the elements of one key stand there in the order they came in
(`StablySorted`). A new element goes before the first one with a smaller
key, and the head of the sorted list is the foremost element.
-/
import Mathlib

namespace LearnLinux.Lib

variable {α κ : Type*} [LinearOrder κ] {key : α → κ} {a : α} {l A : List α}

/-- The oldest element of those with the highest key, in a list in the
order the elements came in. -/
def foremost (key : α → κ) (A : List α) : Option α :=
  A.find? fun a => A.all fun b => decide (key b ≤ key a)

/-- `l` has the elements of `A` sorted from the highest key to the lowest,
those of one key in the order of `A`. -/
structure StablySorted (key : α → κ) (l A : List α) : Prop where
  sorted : l.Pairwise fun a b => key b ≤ key a
  stable : ∀ k, (l.filter fun a => key a = k) = A.filter fun a => key a = k

theorem stablySorted_nil : StablySorted key [] [] :=
  ⟨List.Pairwise.nil, fun _ => rfl⟩

theorem StablySorted.mem_iff (h : StablySorted key l A) {b : α} : b ∈ l ↔ b ∈ A := by
  have hb : b ∈ (l.filter fun a => key a = key b) ↔
      b ∈ A.filter fun a => key a = key b := by rw [h.stable]
  simpa using hb

/-- A new element goes behind those whose key is not smaller. -/
theorem StablySorted.insert {l1 l2 : List α}
    (h : StablySorted key (l1 ++ l2) A) (hfront : ∀ b ∈ l1, key a ≤ key b)
    (hnext : ∀ b, l2.head? = some b → key b < key a) :
    StablySorted key (l1 ++ a :: l2) (A ++ [a]) := by
  obtain ⟨h1, h2, h12⟩ := List.pairwise_append.mp h.sorted
  have hback : ∀ b ∈ l2, key b < key a := by
    cases l2 with
    | nil => exact fun b hb => absurd hb List.not_mem_nil
    | cons c l2 =>
      intro b hb
      have hc := hnext c rfl
      rcases List.mem_cons.mp hb with rfl | hb
      · exact hc
      · exact lt_of_le_of_lt ((List.pairwise_cons.mp h2).1 b hb) hc
  refine ⟨List.pairwise_append.mpr ⟨h1, List.pairwise_cons.mpr
    ⟨fun b hb => (hback b hb).le, h2⟩, fun b hb c hc => ?_⟩, fun k => ?_⟩
  · rcases List.mem_cons.mp hc with rfl | hc
    · exact hfront b hb
    · exact h12 b hb c hc
  · have hst := h.stable k
    rw [List.filter_append] at hst
    rw [List.filter_append, List.filter_append, ← hst, List.append_assoc]
    congr 1
    by_cases hk : key a = k
    · -- None of those behind has the key of the new element.
      have hnil : (l2.filter fun b => key b = k) = [] := by
        rw [List.filter_eq_nil_iff]
        intro b hb
        have := hback b hb
        rw [hk] at this
        simpa using this.ne
      simp [hk, hnil]
    · simp [hk]

/-- The head of the sorted list is the foremost element. -/
theorem StablySorted.foremost_eq (h : StablySorted key (a :: l) A) : foremost key A = some a := by
  have hmax : ∀ b ∈ A, key b ≤ key a := by
    intro b hb
    rcases List.mem_cons.mp (h.mem_iff.mpr hb) with rfl | hb
    · exact le_rfl
    · exact (List.pairwise_cons.mp h.sorted).1 b hb
  have ha : a ∈ A := h.mem_iff.mp (List.mem_cons_self ..)
  have hkey : ∀ b ∈ A, (A.all fun c => decide (key c ≤ key b)) = decide (key b = key a) := by
    intro b hb
    rw [Bool.eq_iff_iff, List.all_eq_true, decide_eq_true_iff]
    constructor
    · intro hall
      exact le_antisymm (hmax b hb) (decide_eq_true_iff.mp (hall a ha))
    · intro hb c hc
      rw [hb]
      exact decide_eq_true (hmax c hc)
  have hst := h.stable (key a)
  rw [List.filter_cons_of_pos (by simp)] at hst
  unfold foremost
  rw [← List.head?_filter, List.filter_congr hkey, ← hst]
  rfl

/-- The head is taken out. -/
theorem StablySorted.tail [DecidableEq α]
    (h : StablySorted key (a :: l) A) : StablySorted key l (A.erase a) := by
  refine ⟨(List.pairwise_cons.mp h.sorted).2, fun k => ?_⟩
  rw [← List.erase_filter, ← h.stable k]
  by_cases hk : key a = k
  · rw [List.filter_cons_of_pos (by simpa using hk), List.erase_cons_head]
  · rw [List.filter_cons_of_neg (by simpa using hk), List.erase_of_not_mem (by simp [hk])]

end LearnLinux.Lib
