/-
Locks with owners.

A lock is a flag, and whoever sets it is its owner until it is cleared.
The code keeps the flags only. `Owned` says that there is someone behind
each flag that is set, and one only: `holds` gives what each holder has
locked, if anything. The three lemmas are the things that can happen to a
lock: it is taken, given back, or handed from one holder to another.
-/
import Mathlib

namespace LearnLinux.Lib

open Function (update update_self update_of_ne update_idem update_eq_self)

variable {α η : Type*}

/-- The flags `lock` are those that `holds` accounts for. -/
structure Owned (lock : α → Bool) (holds : η → Option α) : Prop where
  held : ∀ a, lock a = true ↔ ∃ h, holds h = some a
  unique : ∀ {h h' a}, holds h = some a → holds h' = some a → h = h'

variable {lock : α → Bool} {holds : η → Option α} {h h' : η} {a : α}

theorem Owned.locked (ho : Owned lock holds) (ha : holds h = some a) : lock a = true :=
  (ho.held a).mpr ⟨h, ha⟩

theorem Owned.not_held (ho : Owned lock holds) (ha : lock a = false) : holds h ≠ some a := by
  intro hh
  rw [ho.locked hh] at ha
  cases ha

variable [DecidableEq α] [DecidableEq η]

theorem Owned.take (ho : Owned lock holds) (ha : lock a = false) (hh : holds h = none) :
    Owned (update lock a true) (update holds h (some a)) := by
  have hne : ∀ {g b}, g ≠ h → update holds h (some a) g = some b → b ≠ a := by
    rintro g b hg hb rfl
    rw [update_of_ne hg] at hb
    exact ho.not_held ha hb
  refine ⟨fun b => ?_, fun {g g' b} hg hg' => ?_⟩
  · rcases eq_or_ne b a with rfl | hb
    · exact iff_of_true (update_self ..) ⟨h, update_self ..⟩
    · rw [update_of_ne hb, ho.held]
      refine exists_congr fun g => ?_
      rcases eq_or_ne g h with rfl | hg
      · rw [update_self, hh]
        exact iff_of_false (by simp) (by simpa using hb.symm)
      · rw [update_of_ne hg]
  · rcases eq_or_ne g h with rfl | hgh
    · rcases eq_or_ne g' g with rfl | hgh'
      · rfl
      · rw [update_self] at hg
        exact absurd (Option.some.inj hg).symm (hne hgh' hg')
    · rcases eq_or_ne g' h with rfl | hgh'
      · rw [update_self] at hg'
        exact absurd (Option.some.inj hg').symm (hne hgh hg)
      · rw [update_of_ne hgh] at hg
        rw [update_of_ne hgh'] at hg'
        exact ho.unique hg hg'

theorem Owned.drop (ho : Owned lock holds) (hh : holds h = some a) :
    Owned (update lock a false) (update holds h none) := by
  have hof : ∀ {g b}, update holds h none g = some b → g ≠ h ∧ holds g = some b := by
    intro g b hb
    rcases eq_or_ne g h with rfl | hg
    · rw [update_self] at hb
      cases hb
    · rw [update_of_ne hg] at hb
      exact ⟨hg, hb⟩
  refine ⟨fun b => ?_, fun {g g' b} hg hg' => ?_⟩
  · rcases eq_or_ne b a with rfl | hb
    · rw [update_self]
      refine iff_of_false (by simp) ?_
      rintro ⟨g, hg⟩
      obtain ⟨hne, hg⟩ := hof hg
      exact hne (ho.unique hg hh)
    · rw [update_of_ne hb, ho.held]
      constructor
      · rintro ⟨g, hg⟩
        refine ⟨g, ?_⟩
        rw [update_of_ne]
        · exact hg
        · rintro rfl
          rw [hh] at hg
          exact hb (Option.some.inj hg).symm
      · rintro ⟨g, hg⟩
        exact ⟨g, (hof hg).2⟩
  · exact ho.unique (hof hg).2 (hof hg').2

theorem Owned.hand (ho : Owned lock holds) (hh : holds h = some a) (hh' : holds h' = none) :
    Owned lock (update (update holds h none) h' (some a)) := by
  have hne : h ≠ h' := by
    rintro rfl
    rw [hh] at hh'
    cases hh'
  have h1 := (ho.drop hh).take (update_self ..) (by rw [update_of_ne hne.symm, hh'])
  rw [update_idem, ← ho.locked hh, update_eq_self] at h1
  exact h1

end LearnLinux.Lib
