/-
The rings of a terminal line, by the number of their characters.

The two indices are numbers of ten bits, so `chars` and `left` add up to
1023: one cell is always free. A ring that is not full gets one character
more by PUTCH, and a full one is empty after it; a ring that is not empty
loses one by GETCH, and an empty one is full after it.
-/
import LearnLinux.Drivers.Tty

namespace LearnLinux.Tty.Queue

open Function (update update_self update_of_ne)

variable {q : Queue} {c : Int}
variable {cs : List Int}

-- ======== the numbers

theorem chars_le (q : Queue) : q.chars ≤ 1023 := by
  unfold chars
  omega

theorem left_add_chars (q : Queue) : q.left + q.chars = 1023 := by
  unfold left chars
  bv_omega

theorem isEmpty_iff : q.isEmpty = true ↔ q.chars = 0 := by
  rw [isEmpty, beq_iff_eq, chars]
  constructor
  · intro h
    rw [h]
    bv_omega
  · intro h
    bv_omega

theorem isEmpty_eq_false_iff : q.isEmpty = false ↔ 0 < q.chars := by
  rw [Nat.pos_iff_ne_zero, ne_eq, ← isEmpty_iff, Bool.not_eq_true]

theorem isFull_iff : q.isFull = true ↔ q.chars = 1023 := by
  have h := q.left_add_chars
  rw [isFull, beq_iff_eq]
  omega

theorem isFull_eq_false_iff : q.isFull = false ↔ q.chars < 1023 := by
  have h := q.chars_le
  rw [← Bool.not_eq_true, isFull_iff]
  omega

theorem chars_put (h : q.chars < 1023) : (q.put c).chars = q.chars + 1 := by
  unfold chars at h ⊢
  simp only [put]
  bv_omega

theorem chars_put_full (h : q.chars = 1023) : (q.put c).chars = 0 := by
  unfold chars at h ⊢
  simp only [put]
  bv_omega

theorem chars_get (h : 0 < q.chars) : q.get.chars + 1 = q.chars := by
  unfold chars at h ⊢
  simp only [get]
  bv_omega

theorem chars_dec (h : 0 < q.chars) : q.dec.chars + 1 = q.chars := by
  unfold chars at h ⊢
  simp only [dec]
  bv_omega

-- ======== the contents

theorem length_contents (q : Queue) : q.contents.length = q.chars := by
  rw [contents, List.length_map, List.length_range]

theorem contents_eq_nil (h : q.chars = 0) : q.contents = [] := by
  rw [← List.length_eq_zero_iff, length_contents, h]

/-- GETCH takes the first character. -/
theorem contents_get (h : 0 < q.chars) : q.contents = q.first :: q.get.contents := by
  rw [contents, ← chars_get h, List.range_succ_eq_map, List.map_cons, List.map_map, contents]
  congr 1
  · show q.buf (q.tail + 0#10) = q.buf q.tail
    rw [BitVec.add_zero]
  · refine List.map_congr_left fun i _ => ?_
    show q.buf (q.tail + BitVec.ofNat 10 (i + 1)) = q.buf (q.tail + 1 + BitVec.ofNat 10 i)
    congr 1
    bv_omega

/-- PUTCH adds a character at the end. -/
theorem contents_put (h : q.chars < 1023) : (q.put c).contents = q.contents ++ [c] := by
  rw [contents, chars_put h, List.range_succ, List.map_append, List.map_singleton, contents]
  congr 1
  · refine List.map_congr_left fun i hi => ?_
    show update q.buf q.head c (q.tail + BitVec.ofNat 10 i) = q.buf (q.tail + BitVec.ofNat 10 i)
    refine update_of_ne ?_ _ _
    have hi := List.mem_range.1 hi
    unfold chars at hi
    bv_omega
  · show [update q.buf q.head c (q.tail + BitVec.ofNat 10 q.chars)] = [c]
    rw [show q.tail + BitVec.ofNat 10 q.chars = q.head by
      unfold chars; bv_omega, update_self]

/-- A character that is put gets at most itself into the ring. -/
theorem countP_put_le (p : Int → Bool) (q : Queue) (c : Int) : (q.put c).contents.countP p ≤
      q.contents.countP p + if p c then 1 else 0 := by
  have hle := q.chars_le
  by_cases h : q.chars < 1023
  · apply Nat.le_of_eq
    rw [contents_put h, List.countP_append, List.countP_singleton]
  · rw [contents_eq_nil (chars_put_full (show q.chars = 1023 by omega)), List.countP_nil]
    exact Nat.zero_le _

theorem countP_putAll_le (p : Int → Bool) (q : Queue) (cs : List Int) :
    (q.putAll cs).contents.countP p ≤ q.contents.countP p + cs.countP p := by
  induction cs generalizing q with
  | nil => exact Nat.le_refl _
  | cons c cs ih =>
    have h1 := ih (q.put c)
    have h2 := countP_put_le p q c
    rw [List.countP_cons]
    exact Nat.le_trans h1 (by omega)

/-- What is put into an empty ring is all that is in it. -/
theorem contents_putAll (h : q.chars + cs.length ≤ 1023) :
    (q.putAll cs).contents = q.contents ++ cs := by
  induction cs generalizing q with
  | nil => exact (List.append_nil _).symm
  | cons c cs ih =>
    rw [List.length_cons] at h
    have hlt : q.chars < 1023 := by omega
    have hput : (q.put c).chars + cs.length ≤ 1023 := by
      rw [chars_put hlt]
      omega
    rw [show q.putAll (c :: cs) = (q.put c).putAll cs from rfl, ih hput,
      contents_put hlt, List.append_assoc, List.singleton_append]

-- ======== the overruns

/-- Since the one state of the ring and the other, its characters have
become more at some time, or they are not more than they were. -/
def Since (q q' : Queue) : Prop :=
  q.grown < q'.grown ∨ q'.grown = q.grown ∧ q'.chars ≤ q.chars

theorem Since.refl (q : Queue) : Since q q := .inr ⟨rfl, Nat.le_refl _⟩

/-- The ring was tested not to be full when its `grown` was `seen`. -/
def Tested (q : Queue) (seen : Nat) : Prop :=
  seen ≤ q.grown ∧ (seen = q.grown → q.isFull = false)

theorem Tested.since {q' : Queue} {seen : Nat} (h : Tested q seen)
    (hs : Since q q') : Tested q' seen := by
  rcases hs with hlt | ⟨heq, hle⟩
  · exact ⟨Nat.le_trans h.1 (Nat.le_of_lt hlt), fun hseen => by have := h.1; omega⟩
  · refine ⟨heq ▸ h.1, fun hseen => ?_⟩
    have := isFull_eq_false_iff.1 (h.2 (hseen.trans heq))
    exact isFull_eq_false_iff.2 (by omega)

end LearnLinux.Tty.Queue
