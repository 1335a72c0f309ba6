/-
Forests of pointers. A root slot holds a block number, and a block holds
an array of block numbers; 0 points nowhere. A PATH says how a block is
reached — a root slot, then one index per block passed through — and
`Path.at` is what the last slot of the path holds.

Which paths count is a parameter, a predicate closed under dropping the
last index: a file system gives every slot its depth, and the data
blocks at the bottom hold no pointers. Among the paths that count, a
forest is SEPARATE when no block is reached by two of them. In a
separate forest a store to one slot moves one path: that is
`Path.at_store`, and with it an allocator keeps the forest separate
(`Separate.store`).
-/
import Mathlib

namespace LearnLinux.Lib

/-- How a block is reached. -/
inductive Path (κ ι : Type) where
  | root (k : κ)
  | child (p : Path κ ι) (i : ι)
  deriving DecidableEq

variable {κ ι : Type}

/-- The root slots, and the entries of each block. -/
structure Forest (κ ι : Type) where
  root : κ → Nat
  ent : Nat → ι → Nat

/-- What the last slot of a path holds: 0 behind a 0. -/
def Path.at (F : Forest κ ι) : Path κ ι → Nat
  | .root k => F.root k
  | .child p i => if p.at F = 0 then 0 else F.ent (p.at F) i

variable {F G : Forest κ ι} {L : Path κ ι → Prop} {p : Path κ ι} {i : ι} {z : Nat}

theorem Path.at_child_of_zero (h : p.at F = 0) : (p.child i).at F = 0 :=
  if_pos h

theorem Path.at_child (h : p.at F ≠ 0) : (p.child i).at F = F.ent (p.at F) i :=
  if_neg h

theorem Path.at_of_child (h : (p.child i).at F ≠ 0) : p.at F ≠ 0 :=
  fun h0 => h (Path.at_child_of_zero h0)

/-- Dropping the last index of a path that counts gives one that
counts. -/
def ParentClosed (L : Path κ ι → Prop) : Prop :=
  ∀ p i, L (.child p i) → L p

/-- No block is reached twice. -/
def Separate (L : Path κ ι → Prop) (F : Forest κ ι) : Prop :=
  ∀ p q, L p → L q → p.at F ≠ 0 → p.at F = q.at F → p = q

-- ======== frame

/-- The blocks passed through are as before: so is what is reached. -/
theorem Path.at_congr (hL : ParentClosed L) (hroot : ∀ k, L (.root k) → G.root k = F.root k)
    (hent : ∀ p i, L (.child p i) → p.at F ≠ 0 → G.ent (p.at F) i = F.ent (p.at F) i) :
    ∀ p, L p → p.at G = p.at F := by
  intro p
  induction p with
  | root k => exact hroot k
  | child p i ih =>
    intro hp
    have hpar := ih (hL p i hp)
    by_cases h0 : p.at F = 0
    · rw [Path.at_child_of_zero h0, Path.at_child_of_zero (hpar.trans h0)]
    · rw [Path.at_child h0, Path.at_child (by rw [hpar]; exact h0), hpar, hent p i hp h0]

-- ======== one store

/-- Between `F` and `G` the last slot of `p` has been set to `z`, and no
other slot has moved. -/
def StoredAt (F : Forest κ ι) (z : Nat) (G : Forest κ ι) : Path κ ι → Prop
  | .root k => G.root k = z ∧ (∀ k', k' ≠ k → G.root k' = F.root k') ∧ ∀ n i, G.ent n i = F.ent n i
  | .child q i => G.ent (q.at F) i = z ∧ (∀ k, G.root k = F.root k)
      ∧ ∀ n j, ¬ (n = q.at F ∧ j = i) → G.ent n j = F.ent n j

/-- The slot at the end of `p` exists. -/
def HasSlot (F : Forest κ ι) : Path κ ι → Prop
  | .root _ => True
  | .child q _ => q.at F ≠ 0

section

variable (hL : ParentClosed L) (hp : L p) (hslot : HasSlot F p)
  (hfresh : ∀ q, L q → q.at F ≠ 0 → q.at F ≠ z) (hzero : ∀ i, F.ent z i = 0)
  (hst : StoredAt F z G p)
include hL hp hslot hfresh hzero hst

/-- The new block's entries are still empty after the store. -/
theorem StoredAt.entries_zero : G.ent z i = 0 := by
  cases p with
  | root k =>
    obtain ⟨-, -, hent⟩ := hst
    rw [hent, hzero]
  | child q j =>
    obtain ⟨-, -, hent⟩ := hst
    rw [hent z i fun hc => hfresh q (hL q j hp) hslot hc.1.symm, hzero]

variable (hsep : Separate L F) (hempty : p.at F = 0)
include hsep hempty

/-- A store of an unreached block with empty entries into an empty slot
moves the path of that slot, and nothing else. -/
theorem Path.at_store : ∀ r, L r → (r = p → r.at G = z) ∧ (r ≠ p → r.at G = r.at F) := by
  intro r
  induction r with
  | root k =>
    intro _
    cases p with
    | root k' =>
      obtain ⟨hself, hother, -⟩ := hst
      constructor
      · rintro ⟨⟩
        exact hself
      · intro h
        exact hother k fun hk => h (by rw [hk])
    | child q i =>
      obtain ⟨-, hroot, -⟩ := hst
      constructor
      · rintro ⟨⟩
      · intro _
        exact hroot k
  | child q i ih =>
    intro hr
    have hq := hL q i hr
    obtain ⟨ihself, ihother⟩ := ih hq
    by_cases hqp : q = p
    · -- below the new block there is nothing, as before
      subst hqp
      constructor
      · intro h
        have := congrArg sizeOf h
        simp at this
      · intro _
        rw [Path.at_child_of_zero hempty]
        by_cases hz : z = 0
        · exact Path.at_child_of_zero ((ihself rfl).trans hz)
        · rw [Path.at_child (by rw [ihself rfl]; exact hz), ihself rfl]
          exact hst.entries_zero hL hp hslot hfresh hzero
    · have hsame := ihother hqp
      by_cases h0 : q.at F = 0
      · have hno : q.child i ≠ p := by
          rintro rfl
          exact hslot h0
        refine ⟨fun h => absurd h hno, fun _ => ?_⟩
        rw [Path.at_child_of_zero h0, Path.at_child_of_zero (hsame.trans h0)]
      · rw [Path.at_child (by rw [hsame]; exact h0), hsame, Path.at_child h0]
        cases p with
        | root k =>
          obtain ⟨-, -, hent⟩ := hst
          refine ⟨?_, fun _ => hent _ i⟩
          rintro ⟨⟩
        | child q' i' =>
          obtain ⟨hself, -, hent⟩ := hst
          constructor
          · rintro ⟨⟩
            exact hself
          · -- the block of the slot is reached by its own path only
            intro hne
            refine hent _ i fun hc => hne ?_
            rw [hsep q q' hq (hL q' i' hp) h0 hc.1, hc.2]

/-- So the forest stays separate. -/
theorem Separate.store : Separate L G := by
  have hat := Path.at_store hL hp hslot hfresh hzero hst hsep hempty
  intro q r hq hr hne hqr
  by_cases hqp : q = p
  · by_cases hrp : r = p
    · rw [hqp, hrp]
    · rw [(hat q hq).1 hqp] at hne hqr
      rw [(hat r hr).2 hrp] at hqr
      exact absurd hqr.symm (hfresh r hr (by rw [← hqr]; exact hne))
  · rw [(hat q hq).2 hqp] at hne hqr
    by_cases hrp : r = p
    · rw [(hat r hr).1 hrp] at hqr
      exact absurd hqr (hfresh q hq hne)
    · rw [(hat r hr).2 hrp] at hqr
      exact hsep q r hq hr hne hqr

end

-- ======== subtrees

/-- `r` is `p` or passes through it. -/
def Path.Under (p : Path κ ι) : Path κ ι → Prop
  | .root k => .root k = p
  | .child r i => .child r i = p ∨ p.Under r

/-- How many blocks a path passes through. -/
def Path.depth : Path κ ι → Nat
  | .root _ => 0
  | .child p _ => p.depth + 1

/-- The root slot of a path. -/
def Path.base : Path κ ι → κ
  | .root k => k
  | .child p _ => p.base

theorem Path.under_self (p : Path κ ι) : p.Under p := by
  cases p with
  | root k => exact rfl
  | child p i => exact .inl rfl

theorem Path.Under.depth_le : ∀ {r : Path κ ι}, p.Under r → p.depth ≤ r.depth := by
  intro r
  induction r with
  | root k =>
    intro h
    obtain rfl : .root k = p := h
    exact Nat.le_refl _
  | child r i ih =>
    rintro (rfl | h)
    · exact Nat.le_refl _
    · exact Nat.le_succ_of_le (ih h)

/-- A path is not below its own children. -/
theorem Path.not_under_child (p : Path κ ι) : ¬ (p.child i).Under p := by
  intro h
  have : p.depth + 1 ≤ p.depth := h.depth_le
  omega

/-- A subtree is its top and the subtrees of its children. -/
theorem Path.under_iff : ∀ {r : Path κ ι}, p.Under r ↔ r = p ∨ ∃ i, (p.child i).Under r := by
  intro r
  induction r with
  | root k =>
    constructor
    · exact .inl
    · rintro (h | ⟨i, h⟩)
      · exact h
      · exact nomatch (h : Path.root k = p.child i)
  | child r j ih =>
    constructor
    · rintro (h | h)
      · exact .inl h
      · rcases ih.mp h with rfl | ⟨i, h⟩
        · exact .inr ⟨j, .inl rfl⟩
        · exact .inr ⟨i, .inr h⟩
    · rintro (h | ⟨i, h | h⟩)
      · exact .inl h
      · cases h
        exact .inr (p.under_self)
      · exact .inr (ih.mpr (.inr ⟨i, h⟩))

/-- The subtrees of two children are disjoint. -/
theorem Path.Under.child_inj {j : ι} :
    ∀ {r : Path κ ι}, (p.child i).Under r → (p.child j).Under r → i = j := by
  intro r
  induction r with
  | root k =>
    intro h
    exact nomatch (h : Path.root k = p.child i)
  | child r l ih =>
    rintro (h | h) (h' | h')
    · rw [h] at h'
      cases h'
      rfl
    · cases h
      exact absurd h' p.not_under_child
    · cases h'
      exact absurd h p.not_under_child
    · exact ih h h'

theorem Path.under_root {k : κ} : ∀ {r : Path κ ι}, (Path.root k).Under r ↔ r.base = k := by
  intro r
  induction r with
  | root k' => exact ⟨fun h => by cases h; rfl, fun h => by cases h; rfl⟩
  | child r i ih =>
    constructor
    · rintro (h | h)
      · cases h
      · exact ih.mp h
    · intro h
      exact .inr (ih.mpr h)

end LearnLinux.Lib
