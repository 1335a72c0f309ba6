/-
A ring that is written in order.

Positions in a stream are counted from its start and never wrap; position
`n` stands in cell `n % cap` of the ring. So a ring written in order holds
the last `cap` values of the stream (`Carries`), whoever reads it, and the
two indices of the ring are counters taken modulo `cap`.
-/
import Mathlib

namespace LearnLinux.Lib

variable {α : Type*} {cap m n : Nat} {page : Nat → α} {stream : List α}

/-- The ring holds the last `cap` values of the stream. -/
def Carries (cap : Nat) (page : Nat → α) (stream : List α) : Prop :=
  ∀ n, n < stream.length → stream.length ≤ n + cap → stream[n]? = some (page (n % cap))

theorem carries_nil : Carries cap page [] := fun _ h => absurd h (by simp)

/-- Positions less than `cap` apart have different cells. -/
theorem cell_ne (h1 : m < n) (h2 : n < m + cap) : m % cap ≠ n % cap := by
  intro h
  have hd : cap ∣ n - m := (Nat.modEq_iff_dvd' h1.le).mp h
  have := Nat.le_of_dvd (by omega) hd
  omega

/-- The next value goes into the next cell. -/
theorem Carries.push (h : Carries cap page stream) (b : α) :
    Carries cap (Function.update page (stream.length % cap) b) (stream ++ [b]) := by
  intro n hn hlast
  rw [List.length_append, List.length_singleton] at hn hlast
  by_cases hne : n = stream.length
  · rw [hne, Function.update_self, List.getElem?_concat_length]
  · have hlt : n < stream.length := by omega
    rw [Function.update_of_ne (cell_ne hlt (by omega)), List.getElem?_append_left hlt]
    exact h n hlt (by omega)

/-- Cells up to the end of the ring are those of consecutive positions. -/
theorem cell_add {i : Nat} (h : n % cap + i < cap) : n % cap + i = (n + i) % cap := by
  rw [Nat.add_mod, Nat.mod_eq_of_lt (show i < cap by omega), Nat.mod_eq_of_lt h]

/-- The distance of two indices is that of their counters, while the ring
has a cell to spare. -/
theorem cell_distance (h1 : m ≤ n) (h2 : n < m + cap) :
    ((n % cap : Nat) - (m % cap : Nat) : Int) % cap = (n - m : Nat) := by
  rw [Int.natCast_mod, Int.natCast_mod, ← Int.sub_emod, ← Int.ofNat_sub h1,
    ← Int.natCast_mod, Nat.mod_eq_of_lt (by omega)]

end LearnLinux.Lib
