/-
Sharing a page: one slot takes over the entry of another, both lose the
W bit, and the frame gains a count. `try_to_share` does this to one
page and the inner loop of `copy_page_tables` to a whole table; a page
of the first megabyte is entered without a count and without touching
its owner (`Paging.alias`).
-/
import LearnLinux.Mm.Proofs.Faults

namespace LearnLinux.Mm

open Lib

variable {lo hi i j : Nat} {H : Finset Nat} {s s' : Mem}

-- ======== one page

/-- Slot `(i', j')` now shows what slot `(i, j)` shows, no other view
changed, and the two entries are `e` and its read-only form. -/
structure Shared (lo hi : Nat) (H : Finset Nat) (s : Mem) (i j i' j' : Nat) (s' : Mem) : Prop where
  paging : Paging lo hi H s'
  src : pteAt s' i j = clearW (pteAt s i j)
  dst : pteAt s' i' j' = clearW (pteAt s i j)
  other : ∀ a b, UserDir a → b < 1024 → ¬ (a = i ∧ b = j) →
    ¬ (a = i' ∧ b = j') → pteAt s' a b = pteAt s a b
  low : ∀ k, k < 256 * 1024 → s'.word k = s.word k
  high : s'.highMemory = s.highMemory
  map : ∀ f, InMain lo hi f → s'.memMap (f - 256) = s.memMap (f - 256)
    + (if f = frame (pteAt s i j) then 1 else 0)
  view : ∀ a b k, UserDir a → b < 1024 → k < 1024 →
    ¬ (a = i' ∧ b = j') → pageWord s' a b k = pageWord s a b k
  copy : ∀ k, k < 1024 → pageWord s' i' j' k = pageWord s i j k

/-- The share step: the source slot holds a page of main memory, the
destination slot is absent, and the count has room. -/
theorem Paging.share (h : Paging lo hi H s) {i' j' : Nat}
    (hi' : UserDir i) (hj : j < 1024) (hp : present (pteAt s i j)) (hge : 256 ≤ frame (pteAt s i j))
    (hi'' : UserDir i') (hj' : j' < 1024) (hd' : present (s.word i'))
    (ha : ¬ present (pteAt s i' j')) (hroom : s.memMap (frame (pteAt s i j) - 256) + 1 < 256)
    (hw : s'.word = ((s.store (frame (s.word i) * 1024 + j)
        (clearW (pteAt s i j))).store (frame (s.word i') * 1024 + j') (clearW (pteAt s i j))).word)
    (hm : s'.memMap = (s.incMap (frame (pteAt s i j) - 256)).memMap)
    (hh : s'.highMemory = s.highMemory) : Shared lo hi H s i j i' j' s' := by
  have hd := dir_present_of_pte hp
  have htge := h.main_ge (h.table i hi' hd).1
  have htge' := h.main_ge (h.table i' hi'' hd').1
  have hne : ¬ (i' = i ∧ j' = j) := by
    rintro ⟨rfl, rfl⟩
    exact ha hp
  have hin := h.main_of_ge hi' hj hp hge
  generalize he : pteAt s i j = e at *
  have hpe : present (clearW e) := present_clearW.mpr hp
  -- first the source loses its W bit
  generalize hs1 : s.store (frame (s.word i) * 1024 + j) (clearW e) = s1 at hw
  have hr : Reflagged lo hi H s i j (clearW e) s1 := by
    rw [← hs1]
    exact h.reflagged hi' hj (by rw [he]; exact hp) hpe (by rw [he, frame_clearW])
      fun hwr => absurd hwr (not_writable_clearW e)
  have h₁ := hr.paging
  have hsrc1 := hr.self
  have hdir1 : ∀ a, UserDir a → s1.word a = s.word a := fun a ha' =>
    hr.low a (by have := ha'.2; omega)
  have hd1 : present (s1.word i') := by
    rw [hdir1 i' hi'']
    exact hd'
  have ha1 : ¬ present (pteAt s1 i' j') := by
    rw [hr.other i' j' hi'' hj' hne]
    exact ha
  -- then the destination takes the entry over
  have hw2 : s'.word = (s1.store (frame (s1.word i') * 1024 + j')
      (clearW e)).word := by rw [hw, hdir1 i' hi'']
  have hmap : ∀ f, InMain lo hi f → s'.memMap (f - 256)
      = s.memMap (f - 256) + (if f = frame e then 1 else 0) := by
    intro f hf
    have hfge := h.main_ge hf
    rw [hm, Mem.incMap_memMap]
    by_cases hfe : f = frame e
    · subst hfe
      rw [if_pos rfl, if_pos rfl]
      omega
    · rw [if_neg (by omega), if_neg hfe, Nat.add_zero]
  have hm1 : s1.memMap = s.memMap := by rw [← hs1]; rfl
  have hnew : entryTarget (clearW e) = some (frame e) := by
    rw [entryTarget_of_present hpe, frame_clearW]
  have h2 : Paging lo hi H s' := by
    refine h₁.storePte hi'' hd1 hj' hw2 (Finset.Subset.refl H) ?_ ?_ ?_ ?_ ?_ ?_
    · intro f hf
      rw [hmap f hf, entryTarget_of_absent ha1, hnew, hm1]
      by_cases hfe : f = frame e
      · subst hfe
        simp
      · have hef : frame e ≠ f := fun hc => hfe hc.symm
        simp [hfe, hef]
    · intro f hf
      rw [hmap f hf]
      split
      · rename_i hfe
        subst hfe
        exact hroom
      · exact h.byte f hf
    · intro f hf1 hf2 hf3
      rw [hm, Mem.incMap_memMap, if_neg, hm1]
      intro hc
      have hfe : f = frame e := by omega
      exact hf3 (by rw [hfe]; exact hin)
    · intro _
      rw [frame_clearW]
      exact .inr hin
    · intro _ _
      rw [frame_clearW]
      refine ⟨?_, ?_, ?_⟩
      · intro hH
        exact h.held_ne_page hH hi' hj (by rw [he]; exact hp) (by rw [he])
      · intro a ha' hpa hc
        rw [hdir1 a ha'] at hpa hc
        refine h.page_ne_table hi' hj (by rw [he]; exact hp) ha' hpa ?_
        rw [he]
        exact hc
      · -- a writable entry for the frame would be its only reference,
        -- but the source slot refers to it, read-only
        intro a b ha' hb _ hpa hwa hc
        have h1 := (h₁.sole a b ha' hb hpa hwa).2
        have hx := frameRefs_one_unique h1 (mem_userSlots_page ha' hb) (mem_userSlots_page hi' hj)
          (by rw [target_page s1 hb, entryTarget_of_present hpa])
          (by rw [target_page s1 hj, hsrc1, hnew, hc])
        obtain ⟨rfl, rfl⟩ : a = i ∧ b = j :=
          ⟨congrArg Prod.fst hx, congrArg Prod.snd hx⟩
        rw [hsrc1] at hwa
        exact not_writable_clearW e hwa
    · intro _ hwr
      exact absurd hwr (not_writable_clearW e)
  have hpte2 := fun a b (ha' : UserDir a) (hb : b < 1024) =>
    h₁.pteAt_storePte hi'' hd1 hj' hw2 ha' hb
  have hdst : pteAt s' i' j' = clearW e := by
    rw [hpte2 i' j' hi'' hj', if_pos ⟨rfl, rfl⟩]
  have hsrc : pteAt s' i j = clearW e := by
    rw [hpte2 i j hi' hj, if_neg (fun hc => hne ⟨hc.1.symm, hc.2.symm⟩), hsrc1]
  -- the frame's own longs are in no table
  have hword : ∀ k, k < 1024 → s'.word (frame e * 1024 + k) = s.word (frame e * 1024 + k) := by
    intro k hk
    have hn1 : frame (s.word i) ≠ frame e := fun hc =>
      h.page_ne_table hi' hj (by rw [he]; exact hp) hi' hd (by rw [he]; exact hc.symm)
    have hn2 : frame (s.word i') ≠ frame e := fun hc =>
      h.page_ne_table hi' hj (by rw [he]; exact hp) hi'' hd' (by rw [he]; exact hc.symm)
    rw [hw, Mem.store_other _ hj' hk hn2, ← hs1, Mem.store_other _ hj hk hn1]
  refine ⟨h2, ?_, ?_, ?_, ?_, hh, ?_, ?_, ?_⟩
  · rw [hsrc, he]
  · rw [hdst, he]
  · intro a b ha' hb hn1 hn2
    rw [hpte2 a b ha' hb, if_neg hn2, hr.other a b ha' hb hn1]
  · intro k hk
    rw [hw, Mem.store_word, if_neg (by omega), ← hs1, Mem.store_word, if_neg (by omega)]
  · intro f hf
    rw [hmap f hf, he]
  · intro a b k ha' hb hk hn
    rw [h₁.pageWord_storePte hi'' hd1 hj' hw2 ha' hb hk hn, hr.view a b k ha' hb hk]
  · intro k hk
    rw [pageWord_of_present (by rw [hdst]; exact hpe),
      pageWord_of_present (by rw [he]; exact hp), hdst, he, frame_clearW, hword k hk]

/-- A page of the first megabyte is entered read-only, without a
count. -/
theorem Paging.alias (h : Paging lo hi H s) {e : Nat}
    (hi' : UserDir i) (hj : j < 1024) (hd : present (s.word i))
    (ha : ¬ present (pteAt s i j)) (hlow : frame e < 256) (hro : ¬ writable e)
    (hw : s'.word = (s.store (frame (s.word i) * 1024 + j) e).word)
    (hm : s'.memMap = s.memMap) : Paging lo hi H s' := by
  have hnot : ∀ f, InMain lo hi f → entryTarget e ≠ some f := by
    intro f hf hc
    have hge := h.main_ge hf
    have := (entryTarget_eq_some.mp hc).2
    omega
  refine h.storePte hi' hd hj hw (Finset.Subset.refl H) ?_ ?_ ?_ ?_ ?_ ?_
  · intro f hf
    rw [hm, entryTarget_of_absent ha, if_neg (by simp), if_neg (hnot f hf)]
  · rw [hm]
    exact h.byte
  · intro f _ _ _
    rw [hm]
  · intro _
    exact .inl hlow
  · intro _ _
    refine ⟨?_, ?_, ?_⟩
    · intro hH
      have := h.main_ge (h.held _ hH).1
      omega
    · intro a ha' hpa hc
      have := h.main_ge (h.table a ha' hpa).1
      omega
    · intro a b ha' hb _ hpa hwa hc
      have := h.main_ge (h.sole a b ha' hb hpa hwa).1
      omega
  · intro _ hwr
    exact absurd hwr hro

end LearnLinux.Mm
