/-
Fallible steps, and the loops made of them. A step that panics is an
`Except` error; what a sequence of steps did is read off its parts, and
what a counted loop did by an invariant on the counter.
-/
import Mathlib

namespace LearnLinux.Lib

variable {ε α β σ : Type} {x : Except ε α} {k : α → Except ε β} {a : α} {f : Nat → σ → Except ε σ}
variable {I : Nat → σ → Prop}

-- ======== sequences

/-- A sequence that returns: both parts did. -/
theorem bind_eq_ok {b : β} (h : x >>= k = .ok b) : ∃ a, x = .ok a ∧ k a = .ok b := by
  cases x with
  | error t => cases h
  | ok a => exact ⟨a, rfl, h⟩

/-- A sequence that traps: one of its parts did. -/
theorem bind_eq_error {t : ε} (h : x >>= k = .error t) :
    x = .error t ∨ ∃ a, x = .ok a ∧ k a = .error t := by
  cases x with
  | error t' =>
    cases h
    exact .inl rfl
  | ok a => exact .inr ⟨a, rfl, h⟩

/-- A sequence whose first part returns. -/
theorem bind_of_ok (h : x = .ok a) : x >>= k = k a := by
  rw [h]
  rfl

theorem ok_of_toOption (h : x.toOption = some a) : x = .ok a := by
  cases x with
  | error t => cases h
  | ok b =>
    cases h
    rfl

-- ======== counted loops

/-- `for (i = start; n > 0; i++, n--) f(i)`. -/
def forFrom (f : Nat → σ → Except ε σ) : Nat → Nat → σ → Except ε σ
  | 0, _, s => .ok s
  | n + 1, i, s => do
    let s ← f i s
    forFrom f n (i + 1) s

/-- `for (i = 0; i < n; i++) f(i)`. -/
def forLoop (n : Nat) (f : Nat → σ → Except ε σ) (s : σ) : Except ε σ :=
  forFrom f n 0 s

/-- A loop whose every round returns and keeps the invariant. -/
theorem forFrom_ok {m : Nat} (hstep : ∀ i s, i < m → I i s → ∃ s', f i s = .ok s' ∧ I (i + 1) s') :
    ∀ {n i : Nat} {s : σ}, i + n = m → I i s → ∃ s', forFrom f n i s = .ok s' ∧ I m s' := by
  intro n
  induction n with
  | zero =>
    intro i s hi h
    obtain rfl : i = m := hi
    exact ⟨s, rfl, h⟩
  | succ n ih =>
    intro i s hi h
    obtain ⟨s1, hs1, h1⟩ := hstep i s (by omega) h
    obtain ⟨s2, hs2, h2⟩ := ih (by omega) h1
    exact ⟨s2, (bind_of_ok hs1).trans hs2, h2⟩

theorem forLoop_ok {n : Nat} {s : σ} (h0 : I 0 s)
    (hstep : ∀ i s, i < n → I i s → ∃ s', f i s = .ok s' ∧ I (i + 1) s') :
    ∃ s', forLoop n f s = .ok s' ∧ I n s' :=
  forFrom_ok hstep (Nat.zero_add n) h0

end LearnLinux.Lib
