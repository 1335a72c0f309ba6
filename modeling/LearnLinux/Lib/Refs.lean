/-
Reference counting over a finite set of slots. A slot either refers to
one object or to none (`t x = some f`, `t x = none`); `refs S t f` is
the number of slots of `S` that refer to `f`. Page-table entries that
refer to page frames are one instance, and nothing here names it.

The one law the users need is `refs_swap`: when two slot functions
differ at a single slot, their counts differ by what that slot gives
up and takes on. Allocation, sharing, retargeting and release are all
single-slot changes, so every count invariant is this equation plus
arithmetic. `sum_swap` is the same law for a total over all members of a
finite type, where one of them changes its share.
-/
import Mathlib

namespace LearnLinux.Lib

variable {ι φ : Type*} [DecidableEq φ]
variable {S S' : Finset ι} {t u : ι → Option φ} {f : φ} {x : ι}

/-- The number of slots of `S` that refer to `f`. -/
def refs (S : Finset ι) (t : ι → Option φ) (f : φ) : Nat :=
  (S.filter fun x => t x = some f).card

-- ======== membership

/-- Counts read the slot function on `S` only. -/
theorem refs_congr (h : ∀ x ∈ S, t x = u x) : refs S t f = refs S u f := by
  unfold refs
  congr 1
  refine Finset.filter_congr fun x hx => ?_
  rw [h x hx]

/-- A referring slot makes the count positive. -/
theorem refs_pos (hx : x ∈ S) (hf : t x = some f) : 0 < refs S t f :=
  Finset.card_pos.mpr ⟨x, Finset.mem_filter.mpr ⟨hx, hf⟩⟩

/-- Count zero is the absence of referring slots. -/
theorem refs_eq_zero_iff : refs S t f = 0 ↔ ∀ x ∈ S, t x ≠ some f := by
  unfold refs
  rw [Finset.card_eq_zero, Finset.filter_eq_empty_iff]

/-- A count read off an explicit set of slots. -/
theorem refs_eq_card {T : Finset ι}
    (hT : ∀ x, x ∈ T ↔ x ∈ S ∧ t x = some f) : refs S t f = T.card := by
  unfold refs
  congr 1
  ext x
  rw [Finset.mem_filter, hT]

/-- A count of one names its slot: two referring slots coincide. -/
theorem refs_one_unique (h1 : refs S t f = 1) {y : ι} (hx : x ∈ S)
    (hy : y ∈ S) (hfx : t x = some f) (hfy : t y = some f) : x = y := by
  obtain ⟨z, hz⟩ := Finset.card_eq_one.mp h1
  have hx' : x ∈ S.filter fun x => t x = some f :=
    Finset.mem_filter.mpr ⟨hx, hfx⟩
  have hy' : y ∈ S.filter fun x => t x = some f :=
    Finset.mem_filter.mpr ⟨hy, hfy⟩
  rw [hz, Finset.mem_singleton] at hx' hy'
  rw [hx', hy']

-- ======== one-slot changes

/-- One more slot adds its own reference. -/
theorem refs_insert [DecidableEq ι] (hx : x ∉ S) : refs (insert x S) t f
      = refs S t f + (if t x = some f then 1 else 0) := by
  unfold refs
  rw [Finset.filter_insert]
  split
  · rw [Finset.card_insert_of_notMem]
    simp [hx]
  · rfl

/-- The one-slot law: off `x` the two slot functions agree, so their
counts differ by exactly what `x` gives up and takes on. -/
theorem refs_swap [DecidableEq ι] (hx : x ∈ S) (hoff : ∀ y ∈ S, y ≠ x → u y = t y) :
    refs S u f + (if t x = some f then 1 else 0)
      = refs S t f + (if u x = some f then 1 else 0) := by
  have hsplit : ∀ u : ι → Option φ, refs S u f = refs (S.erase x) u f
        + (if u x = some f then 1 else 0) := by
    intro u
    conv_lhs => rw [← Finset.insert_erase hx]
    exact refs_insert (Finset.notMem_erase x S)
  have hrest : refs (S.erase x) u f = refs (S.erase x) t f := by
    refine refs_congr fun y hy => ?_
    rw [Finset.mem_erase] at hy
    exact hoff y hy.2 hy.1
  rw [hsplit u, hsplit t, hrest]
  omega

/-- A free slot takes a reference to `g`; read from right to left, it gives
one up. -/
theorem refs_taken [DecidableEq ι] {g : φ} (hx : x ∈ S) (ht : t x = none)
    (hu : u x = some g) (hoff : ∀ y ∈ S, y ≠ x → u y = t y) :
    refs S u f = refs S t f + if f = g then 1 else 0 := by
  have h := refs_swap (f := f) hx hoff
  rw [ht, hu, if_neg nofun] at h
  simp only [Option.some_inj, eq_comm (a := g)] at h
  exact h

/-- Disjoint sets of slots count separately. -/
theorem refs_union [DecidableEq ι] (hd : Disjoint S S') :
    refs (S ∪ S') t f = refs S t f + refs S' t f := by
  unfold refs
  rw [Finset.filter_union, Finset.card_union_of_disjoint]
  exact Finset.disjoint_filter_filter hd

/-- Fewer slots, fewer references. -/
theorem refs_mono (hS : S ⊆ S') : refs S t f ≤ refs S' t f :=
  Finset.card_le_card (Finset.filter_subset_filter _ hS)

/-- Referring slots that inject into `n` places number at most `n`. -/
theorem refs_le_of_injOn (g : ι → Nat) {n : Nat} (hlt : ∀ x ∈ S, t x = some f → g x < n)
    (hinj : ∀ x ∈ S, ∀ y ∈ S, t x = some f → t y = some f → g x = g y → x = y) :
    refs S t f ≤ n := by
  have hcard := Finset.card_le_card_of_injOn (s := S.filter fun x => t x = some f) g (by
      intro x hx
      rw [Finset.mem_coe, Finset.mem_filter] at hx
      exact Finset.mem_coe.mpr (Finset.mem_range.mpr (hlt x hx.1 hx.2)))
    (by
      intro x hx y hy hxy
      rw [Finset.mem_coe, Finset.mem_filter] at hx hy
      exact hinj x hx.1 y hy.1 hx.2 hy.2 hxy)
  rw [Finset.card_range] at hcard
  exact hcard

-- ======== totals

/-- Two totals that differ in the share of `a` only. -/
theorem sum_swap {α : Type*} [Fintype α] [DecidableEq α] {f g : α → Nat}
    (a : α) (h : ∀ b, b ≠ a → f b = g b) : ∑ b, f b + g a = ∑ b, g b + f a := by
  rw [← Finset.add_sum_erase _ f (Finset.mem_univ a),
    ← Finset.add_sum_erase _ g (Finset.mem_univ a)]
  have hrest : ∑ b ∈ Finset.univ.erase a, f b = ∑ b ∈ Finset.univ.erase a, g b :=
    Finset.sum_congr rfl fun b hb => h b (Finset.ne_of_mem_erase hb)
  omega

end LearnLinux.Lib
