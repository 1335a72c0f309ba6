/-
Counted names. Some slots name objects, and every object carries a count
that is meant to be the number of slots that name it; an object that is
out of use is named by none. Directory entries that name inodes are one
instance, and nothing here says so.

Four small changes are all there is: an object comes into use without a
name, a name is added, a name is taken away, an object without names goes
out of use. Each keeps the counts honest on its own, so whatever is
composed of them does.
-/
import LearnLinux.Lib.Refs
import LearnLinux.Lib.Run

namespace LearnLinux.Lib

open Function (update update_apply)

variable {ι φ : Type*} [DecidableEq φ]

/-- Slots that name objects, and the objects' own counts. -/
@[ext] structure LinkGraph (ι φ : Type*) where
  live : φ → Bool
  names : ι → Option φ
  links : φ → Nat

variable (g : LinkGraph ι φ)

/-- Every count is right, no slot names an object out of use, and the
slots in use are among `S`. -/
structure LinkGraph.Honest (S : Finset ι) : Prop where
  count : ∀ f, g.live f = true → g.links f = refs S g.names f
  alive : ∀ x f, g.names x = some f → g.live f = true
  inside : ∀ x f, g.names x = some f → x ∈ S

/-- The object comes into use. -/
def LinkGraph.enroll (f : φ) : LinkGraph ι φ :=
  { g with
    live := update g.live f true
    links := update g.links f 0 }

/-- The object goes out of use. -/
def LinkGraph.retire (f : φ) : LinkGraph ι φ :=
  { g with live := update g.live f false }

-- ======== objects come and go

theorem LinkGraph.enroll_live (f k : φ) : (g.enroll f).live k = if k = f then true else g.live k :=
  update_apply ..

theorem LinkGraph.enroll_links (f k : φ) : (g.enroll f).links k = if k = f then 0 else g.links k :=
  update_apply ..

theorem LinkGraph.retire_live (f k : φ) : (g.retire f).live k = if k = f then false else g.live k :=
  update_apply ..

section
variable {g} {S : Finset ι} {x : ι} {f : φ}

/-- An object out of use has no names. -/
theorem LinkGraph.Honest.refs_zero (h : g.Honest S)
    (hf : g.live f = false) : refs S g.names f = 0 := by
  refine refs_eq_zero_iff.mpr fun x _ hx => ?_
  rw [h.alive x f hx] at hf
  cases hf

theorem LinkGraph.Honest.links_pos (h : g.Honest S) (hx : g.names x = some f) : 0 < g.links f := by
  rw [h.count f (h.alive x f hx)]
  exact refs_pos (h.inside x f hx) hx

theorem LinkGraph.Honest.enroll (h : g.Honest S)
    (hf : g.live f = false) : (g.enroll f).Honest S where
  count k hk := by
    rw [g.enroll_live] at hk
    rw [g.enroll_links]
    show _ = refs S g.names k
    by_cases hkf : k = f
    · rw [if_pos hkf, hkf, h.refs_zero hf]
    · rw [if_neg hkf] at hk ⊢
      exact h.count k hk
  alive x k hx := by
    rw [g.enroll_live]
    split
    · rfl
    · exact h.alive x k hx
  inside := h.inside

theorem LinkGraph.Honest.retire (h : g.Honest S)
    (hf : ∀ x, g.names x ≠ some f) : (g.retire f).Honest S where
  count k hk := by
    rw [g.retire_live] at hk
    split at hk
    · cases hk
    · exact h.count k hk
  alive y k hy := by
    have hkf : k ≠ f := by
      rintro rfl
      exact hf y hy
    rw [g.retire_live, if_neg hkf]
    exact h.alive y k hy
  inside := h.inside

end

-- ======== names come and go

variable [DecidableEq ι]

/-- The slot names the object. -/
def LinkGraph.bind (x : ι) (f : φ) : LinkGraph ι φ :=
  { g with
    names := update g.names x (some f)
    links := update g.links f (g.links f + 1) }

/-- The slot no longer names the object. -/
def LinkGraph.unbind (x : ι) (f : φ) : LinkGraph ι φ :=
  { g with
    names := update g.names x none
    links := update g.links f (g.links f - 1) }

theorem LinkGraph.bind_names (x : ι) (f : φ) (y : ι) :
    (g.bind x f).names y = if y = x then some f else g.names y :=
  update_apply ..

theorem LinkGraph.bind_links (x : ι) (f k : φ) :
    (g.bind x f).links k = if k = f then g.links f + 1 else g.links k :=
  update_apply ..

theorem LinkGraph.unbind_names (x : ι) (f : φ) (y : ι) :
    (g.unbind x f).names y = if y = x then none else g.names y :=
  update_apply ..

theorem LinkGraph.unbind_links (x : ι) (f k : φ) :
    (g.unbind x f).links k = if k = f then g.links f - 1 else g.links k :=
  update_apply ..

variable {g} {S : Finset ι} {x y : ι} {f k : φ}

theorem LinkGraph.of_bind_names (h : (g.bind x f).names y = some k) :
    (y = x ∧ k = f) ∨ (y ≠ x ∧ g.names y = some k) := by
  rcases update_cases h with ⟨hyx, ⟨⟩⟩ | h
  · exact .inl ⟨hyx, rfl⟩
  · exact .inr h

theorem LinkGraph.of_unbind_names (h : (g.unbind x f).names y = some k) :
    y ≠ x ∧ g.names y = some k := by
  rcases update_cases h with ⟨-, ⟨⟩⟩ | h
  exact h

theorem LinkGraph.Honest.bind (h : g.Honest S) (hx : x ∈ S)
    (hfree : g.names x = none) (hf : g.live f = true) : (g.bind x f).Honest S where
  count k hk := by
    have href := refs_taken (u := (g.bind x f).names) (f := k) hx hfree
      (by rw [g.bind_names, if_pos rfl]) fun y _ hy => by rw [g.bind_names, if_neg hy]
    rw [g.bind_links, href, ← h.count k hk]
    split
    · rename_i hkf
      rw [hkf]
    · rfl
  alive y k hy := by
    rcases of_bind_names hy with ⟨-, rfl⟩ | ⟨-, hy⟩
    · exact hf
    · exact h.alive y k hy
  inside y k hy := by
    rcases of_bind_names hy with ⟨rfl, -⟩ | ⟨-, hy⟩
    · exact hx
    · exact h.inside y k hy

theorem LinkGraph.Honest.unbind (h : g.Honest S)
    (hx : g.names x = some f) : (g.unbind x f).Honest S where
  count k hk := by
    have hcount := h.count k hk
    rw [refs_taken (t := (g.unbind x f).names) (h.inside x f hx) (by rw [g.unbind_names, if_pos rfl])
      hx fun y _ hy => by rw [g.unbind_names, if_neg hy]] at hcount
    rw [g.unbind_links]
    split at hcount
    · rename_i hkf
      rw [if_pos hkf, ← hkf, hcount]
      rfl
    · rename_i hkf
      rw [if_neg hkf, hcount]
      rfl
  alive y k hy := h.alive y k (of_unbind_names hy).2
  inside y k hy := h.inside y k (of_unbind_names hy).2

end LearnLinux.Lib
