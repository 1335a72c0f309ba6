/-
`copy_page_tables`, row by row.

The inner loop copies one page table into another that is empty: each
turn is a share step (Share.lean), an alias of a low page, or nothing,
so the loop's specification is an induction on the entries left, with
the room in the counts as its budget — the entries still to be copied
are the counts still to come. The outer loop adds a page table per
directory entry and runs the inner one on it.
-/
import LearnLinux.Mm.Proofs.Share

namespace LearnLinux.Mm

open Function (update update_apply update_comm)
open Lib

variable {lo hi i j n i' iF iT : Nat} {H : Finset Nat} {s s' s₁ s₂ : Mem} {x : Nat × Nat}

-- ======== one page table

/-- The slots of entries `j .. j + n - 1` of table `i`. -/
def rowSlots (i j n : Nat) : Finset (Nat × Nat) :=
  {i} ×ˢ Finset.Ico j (j + n)

/-- References to `f` from entries `j .. j + n - 1` of table `i`. -/
def rowRefs (s : Mem) (i j n f : Nat) : Nat :=
  refs (rowSlots i j n) (target s) f

theorem mem_rowSlots : x ∈ rowSlots i j n ↔ x.1 = i ∧ j ≤ x.2 ∧ x.2 < j + n := by
  unfold rowSlots
  simp only [Finset.mem_product, Finset.mem_singleton, Finset.mem_Ico]

theorem rowRefs_zero (i j f : Nat) : rowRefs s i j 0 f = 0 := by
  unfold rowRefs
  rw [refs_eq_zero_iff]
  intro x hx
  have := mem_rowSlots.mp hx
  omega

/-- The first entry of a row, split off. -/
theorem rowRefs_succ (hj : j < 1024) (f : Nat) : rowRefs s i j (n + 1) f = rowRefs s i (j + 1) n f
      + (if entryTarget (pteAt s i j) = some f then 1 else 0) := by
  have hins : rowSlots i j (n + 1) = insert (i, j) (rowSlots i (j + 1) n) := by
    ext x
    rw [Finset.mem_insert, mem_rowSlots, mem_rowSlots, Prod.ext_iff]
    simp only
    omega
  have hnot : (i, j) ∉ rowSlots i (j + 1) n := by
    rw [mem_rowSlots]
    simp only
    omega
  unfold rowRefs
  rw [hins, refs_insert hnot, target_page s hj]

theorem rowRefs_congr (hn : j + n ≤ 1024)
    (hpte : ∀ b, j ≤ b → b < j + n → pteAt s' i b = pteAt s i b) (f : Nat) :
    rowRefs s' i j n f = rowRefs s i j n f := by
  unfold rowRefs
  refine refs_congr fun x hx => ?_
  obtain ⟨h1, h2, h3⟩ := mem_rowSlots.mp hx
  obtain ⟨a, b⟩ := x
  simp only at h1 h2 h3
  subst h1
  rw [target_page _ (by omega), target_page _ (by omega), hpte b h2 h3]

/-- Entries `j .. j + n - 1` of table `i` have been shared into table
`i'`. -/
structure RowCopied (lo hi : Nat) (H : Finset Nat) (s : Mem)
    (i i' j n : Nat) (s' : Mem) : Prop where
  paging : Paging lo hi H s'
  src : ∀ b, j ≤ b → b < j + n → pteAt s' i b = pteAt s i b ∨ pteAt s' i b = clearW (pteAt s i b)
  dst : ∀ b, j ≤ b → b < j + n → pteAt s' i' b
    = if present (pteAt s i b) then clearW (pteAt s i b) else pteAt s i' b
  other : ∀ a b, UserDir a → b < 1024 → ¬ (a = i ∧ j ≤ b ∧ b < j + n) →
    ¬ (a = i' ∧ j ≤ b ∧ b < j + n) → pteAt s' a b = pteAt s a b
  low : ∀ k, k < 256 * 1024 → s'.word k = s.word k
  high : s'.highMemory = s.highMemory
  map : ∀ f, InMain lo hi f → s'.memMap (f - 256) = s.memMap (f - 256) + rowRefs s i j n f
  view : ∀ a b k, UserDir a → b < 1024 → k < 1024 →
    ¬ (a = i' ∧ j ≤ b ∧ b < j + n) → pageWord s' a b k = pageWord s a b k
  copy : ∀ b k, j ≤ b → b < j + n → k < 1024 → pageWord s' i' b k = pageWord s i b k

/-- The empty row. -/
theorem Paging.rowCopied_zero (h : Paging lo hi H s) : RowCopied lo hi H s i i' j 0 s := by
  refine ⟨h, fun b _ _ => .inl rfl, fun b h1 h2 => by omega,
    fun a b _ _ _ _ => rfl, fun k _ => rfl, rfl, fun f _ => ?_,
    fun a b k _ _ _ _ => rfl, fun b k h1 h2 => by omega⟩
  rw [rowRefs_zero, Nat.add_zero]

/-- One turn of the inner loop: slot `j` alone. -/
theorem Paging.copyPte_turn (h : Paging lo hi H s)
    (hi' : UserDir i) (hi'' : UserDir i') (hne : i ≠ i') (hj : j < 1024)
    (hd' : present (s.word i')) (hp : present (pteAt s i j)) (ha : ¬ present (pteAt s i' j))
    (hroom : ∀ f, InMain lo hi f → s.memMap (f - 256) + rowRefs s i j 1 f < 256) :
    RowCopied lo hi H s i i' j 1 (if lowMem < clearW (pteAt s i j) then
        ((s.store (frame (s.word i') * 1024 + j) (clearW (pteAt s i j))).store
          (frame (s.word i) * 1024 + j) (clearW (pteAt s i j))).incMap
            (mapNr (clearW (pteAt s i j)))
      else s.store (frame (s.word i') * 1024 + j) (clearW (pteAt s i j))) := by
  have hd := dir_present_of_pte hp
  have htge' := h.main_ge (h.table i' hi'' hd').1
  have hpc : present (clearW (pteAt s i j)) := present_clearW.mpr hp
  have htne : frame (s.word i) ≠ frame (s.word i') := fun hc =>
    hne (h.table_inj hi' hi'' hd hd' hc)
  have hrow : ∀ f, rowRefs s i j 1 f = if f = frame (pteAt s i j) then 1 else 0 := by
    intro f
    rw [rowRefs_succ hj, rowRefs_zero, Nat.zero_add, entryTarget_of_present hp]
    by_cases hf : f = frame (pteAt s i j)
    · subst hf
      simp
    · have hf' : frame (pteAt s i j) ≠ f := fun hc => hf hc.symm
      simp [hf, hf']
  have hone : ∀ b, j ≤ b → b < j + 1 → b = j := fun b h1 h2 => by omega
  simp only [lowMem_lt_of_present hpc, frame_clearW, mapNr_entry]
  split
  · -- a page of main memory: the share step
    rename_i hge
    have hin := h.main_of_ge hi' hj hp hge
    have hr := hroom _ hin
    rw [hrow, if_pos rfl] at hr
    have hsh : Shared lo hi H s i j i' j (((s.store (frame (s.word i') * 1024 + j)
          (clearW (pteAt s i j))).store (frame (s.word i) * 1024 + j)
          (clearW (pteAt s i j))).incMap (frame (pteAt s i j) - 256)) :=
      h.share hi' hj hp hge hi'' hj hd' ha hr
      (by
        show update (update s.word _ _) _ _ = update (update s.word _ _) _ _
        exact update_comm (by omega) _ _ _)
      rfl rfl
    refine ⟨hsh.paging, ?_, ?_, ?_, hsh.low, hsh.high, ?_, ?_, ?_⟩
    · intro b h1 h2
      rw [hone b h1 h2]
      exact .inr hsh.src
    · intro b h1 h2
      rw [hone b h1 h2, if_pos hp]
      exact hsh.dst
    · intro a b ha' hb hn1 hn2
      exact hsh.other a b ha' hb (fun hc => hn1 ⟨hc.1, by omega⟩) (fun hc => hn2 ⟨hc.1, by omega⟩)
    · intro f hf
      rw [hsh.map f hf, hrow]
    · intro a b k ha' hb hk hn
      exact hsh.view a b k ha' hb hk fun hc => hn ⟨hc.1, by omega⟩
    · intro b k h1 h2 hk
      rw [hone b h1 h2]
      exact hsh.copy k hk
  · -- a low page: entered without a count
    rename_i hlow
    have hpg : Paging lo hi H (s.store (frame (s.word i') * 1024 + j)
        (clearW (pteAt s i j))) := h.alias hi'' hj hd' ha
      (by rw [frame_clearW]; omega) (not_writable_clearW _) rfl rfl
    have hpte := fun a b (ha' : UserDir a) (hb : b < 1024) =>
      h.pteAt_storePte (e := clearW (pteAt s i j)) hi'' hd' hj rfl ha' hb
    have hself : pteAt (s.store (frame (s.word i') * 1024 + j)
        (clearW (pteAt s i j))) i' j = clearW (pteAt s i j) := by
      rw [hpte i' j hi'' hj, if_pos ⟨rfl, rfl⟩]
    refine ⟨hpg, ?_, ?_, ?_, ?_, rfl, ?_, ?_, ?_⟩
    · intro b h1 h2
      rw [hone b h1 h2, hpte i j hi' hj, if_neg fun hc => hne hc.1]
      exact .inl rfl
    · intro b h1 h2
      rw [hone b h1 h2, if_pos hp]
      exact hself
    · intro a b ha' hb _ hn2
      rw [hpte a b ha' hb, if_neg fun hc => hn2 ⟨hc.1, by omega⟩]
    · intro k hk
      rw [Mem.store_word, if_neg (by omega)]
    · intro f hf
      have hge := h.main_ge hf
      rw [hrow, if_neg (by omega)]
      rfl
    · intro a b k ha' hb hk hn
      exact h.pageWord_storePte hi'' hd' hj rfl ha' hb hk fun hc => hn ⟨hc.1, by omega⟩
    · intro b k h1 h2 hk
      rw [hone b h1 h2, pageWord_of_present (by rw [hself]; exact hpc),
        pageWord_of_present hp, hself, frame_clearW, s.store_other hj hk]
      omega

/-- Two adjoining rows make one. -/
theorem RowCopied.trans (hn : j + 1 + n ≤ 1024)
    (hi' : UserDir i) (hi'' : UserDir i') (hne : i ≠ i') (h₁ : RowCopied lo hi H s i i' j 1 s₁)
    (h₂ : RowCopied lo hi H s₁ i i' (j + 1) n s₂) : RowCopied lo hi H s i i' j (n + 1) s₂ := by
  -- the first turn left the rest of both rows alone
  have hsrc : ∀ b, j + 1 ≤ b → b < j + 1 + n → pteAt s₁ i b = pteAt s i b := by
    intro b h1 h2
    refine h₁.other i b hi' (by omega) (by omega) ?_
    exact fun hc => hne hc.1
  have hdst : ∀ b, j + 1 ≤ b → b < j + 1 + n → pteAt s₁ i' b = pteAt s i' b := by
    intro b h1 h2
    refine h₁.other i' b hi'' (by omega) ?_ (by omega)
    exact fun hc => hne hc.1.symm
  refine ⟨h₂.paging, ?_, ?_, ?_, ?_, ?_, ?_, ?_, ?_⟩
  · intro b h1 h2
    by_cases hb : b = j
    · subst hb
      rw [h₂.other i b hi' (by omega) (by omega) (fun hc => hne hc.1)]
      exact h₁.src b (le_refl _) (by omega)
    · have := h₂.src b (by omega) (by omega)
      rwa [hsrc b (by omega) (by omega)] at this
  · intro b h1 h2
    by_cases hb : b = j
    · subst hb
      rw [h₂.other i' b hi'' (by omega) (fun hc => hne hc.1.symm) (by omega)]
      exact h₁.dst b (le_refl _) (by omega)
    · rw [h₂.dst b (by omega) (by omega), hsrc b (by omega) (by omega),
        hdst b (by omega) (by omega)]
  · intro a b ha hb hn1 hn2
    rw [h₂.other a b ha hb (fun hc => hn1 ⟨hc.1, by omega, by omega⟩)
        (fun hc => hn2 ⟨hc.1, by omega, by omega⟩),
      h₁.other a b ha hb (fun hc => hn1 ⟨hc.1, by omega, by omega⟩)
        (fun hc => hn2 ⟨hc.1, by omega, by omega⟩)]
  · intro k hk
    rw [h₂.low k hk, h₁.low k hk]
  · rw [h₂.high, h₁.high]
  · intro f hf
    rw [h₂.map f hf, h₁.map f hf, rowRefs_congr (by omega) hsrc,
      rowRefs_succ (by omega : j < 1024) f, rowRefs_succ (by omega : j < 1024) f, rowRefs_zero]
    omega
  · intro a b k ha hb hk hn
    rw [h₂.view a b k ha hb hk fun hc => hn ⟨hc.1, by omega, by omega⟩,
      h₁.view a b k ha hb hk fun hc => hn ⟨hc.1, by omega, by omega⟩]
  · intro b k h1 h2 hk
    by_cases hb : b = j
    · subst hb
      rw [h₂.view i' b k hi'' (by omega) hk (by omega)]
      exact h₁.copy b k (le_refl _) (by omega) hk
    · rw [h₂.copy b k (by omega) (by omega) hk]
      refine h₁.view i b k hi' (by omega) hk ?_
      exact fun hc => hne hc.1

/-- A turn over an absent entry copies a row of one without doing
anything. -/
theorem Paging.rowCopied_absent (h : Paging lo hi H s)
    (hj : j < 1024) (hp : ¬ present (pteAt s i j)) (ha : ¬ present (pteAt s i' j)) :
    RowCopied lo hi H s i i' j 1 s := by
  have hone : ∀ b, j ≤ b → b < j + 1 → b = j := fun b h1 h2 => by omega
  refine ⟨h, fun b _ _ => .inl rfl, ?_, fun a b _ _ _ _ => rfl,
    fun k _ => rfl, rfl, ?_, fun a b k _ _ _ _ => rfl, ?_⟩
  · intro b h1 h2
    rw [hone b h1 h2, if_neg hp]
  · intro f _
    rw [rowRefs_succ hj, rowRefs_zero, entryTarget_of_absent hp]
    simp
  · intro b k h1 h2 _
    rw [hone b h1 h2, pageWord_of_absent hp, pageWord_of_absent ha]

/-- The inner loop of `copy_page_tables` between two user tables. -/
theorem copyPtes_user (hi' : UserDir i) (hi'' : UserDir i') (hne : i ≠ i') :
    ∀ (n j : Nat) (s : Mem), Paging lo hi H s → present (s.word i) →
      present (s.word i') → j + n ≤ 1024 → (∀ b, j ≤ b → b < j + n → ¬ present (pteAt s i' b)) →
      (∀ f, InMain lo hi f → s.memMap (f - 256) + rowRefs s i j n f < 256) →
      RowCopied lo hi H s i i' j n (copyPtes n (frame (s.word i) * 1024 + j)
          (frame (s.word i') * 1024 + j) s) := by
  intro n
  induction n with
  | zero =>
    intro j s h _ _ _ _ _
    exact h.rowCopied_zero
  | succ n ih =>
    intro j s h hd hd' hn hempty hroom
    have hj : j < 1024 := by omega
    have hpte : s.word (frame (s.word i) * 1024 + j) = pteAt s i j :=
      (pteAt_of_present hd).symm
    have ha := hempty j (le_refl _) (by omega)
    -- whatever the turn does, the loop goes on from its result
    have hgo : ∀ s₁, RowCopied lo hi H s i i' j 1 s₁ → RowCopied lo hi H s i i' j (n + 1)
          (copyPtes n (frame (s.word i) * 1024 + j + 1) (frame (s.word i') * 1024 + j + 1) s₁) := by
      intro s₁ h₁
      have hdi : s₁.word i = s.word i :=
        h₁.low i (by have := hi'.2; omega)
      have hdi' : s₁.word i' = s.word i' :=
        h₁.low i' (by have := hi''.2; omega)
      have hsrc : ∀ b, j + 1 ≤ b → b < j + 1 + n → pteAt s₁ i b = pteAt s i b := fun b h1 h2 =>
        h₁.other i b hi' (by omega) (by omega) fun hc => hne hc.1
      have h₂ := ih (j + 1) s₁ h₁.paging (by rw [hdi]; exact hd)
        (by rw [hdi']; exact hd') (by omega) (by
          intro b h1 h2
          rw [h₁.other i' b hi'' (by omega) (fun hc => hne hc.1.symm) (by omega)]
          exact hempty b (by omega) (by omega))
        (by
          intro f hf
          have hr := hroom f hf
          rw [rowRefs_succ hj] at hr
          rw [h₁.map f hf, rowRefs_congr (by omega) hsrc, rowRefs_succ hj, rowRefs_zero]
          omega)
      rw [hdi, hdi', ← Nat.add_assoc, ← Nat.add_assoc] at h₂
      exact h₁.trans (by omega) hi' hi'' hne h₂
    simp only [copyPtes, hpte]
    split
    · rename_i hp
      refine hgo _ (h.copyPte_turn hi' hi'' hne hj hd' hp ha fun f hf => ?_)
      have hr := hroom f hf
      rw [rowRefs_succ hj] at hr
      rw [rowRefs_succ hj, rowRefs_zero]
      omega
    · rename_i hp
      exact hgo _ (h.rowCopied_absent hj hp ha)

-- ======== a run of directory entries

/-- The page slots of `n` directory entries from `i` on. -/
@[irreducible] def rectSlots (i n : Nat) : Finset (Nat × Nat) :=
  Finset.Ico i (i + n) ×ˢ Finset.range 1024

/-- References to `f` from the pages of `n` directory entries. -/
def rectRefs (s : Mem) (i n f : Nat) : Nat :=
  refs (rectSlots i n) (target s) f

theorem mem_rectSlots : x ∈ rectSlots i n ↔ (i ≤ x.1 ∧ x.1 < i + n) ∧ x.2 < 1024 := by
  unfold rectSlots
  simp only [Finset.mem_product, Finset.mem_Ico, Finset.mem_range]

/-- The first directory entry of a run, split off. -/
theorem rectRefs_succ (i n f : Nat) :
    rectRefs s i (n + 1) f = rowRefs s i 0 1024 f + rectRefs s (i + 1) n f := by
  have hun : rectSlots i (n + 1) = rowSlots i 0 1024 ∪ rectSlots (i + 1) n := by
    ext x
    rw [Finset.mem_union, mem_rectSlots, mem_rowSlots, mem_rectSlots]
    omega
  have hdis : Disjoint (rowSlots i 0 1024) (rectSlots (i + 1) n) := by
    rw [Finset.disjoint_left]
    intro x hx hx'
    rw [mem_rowSlots] at hx
    rw [mem_rectSlots] at hx'
    omega
  unfold rectRefs rowRefs
  rw [hun, refs_union hdis]

theorem rectRefs_zero (i f : Nat) : rectRefs s i 0 f = 0 := by
  unfold rectRefs
  rw [refs_eq_zero_iff]
  intro x hx
  have := mem_rectSlots.mp hx
  omega

theorem rectRefs_congr (hpte : ∀ d b, d < n → b < 1024 → pteAt s' (i + d) b = pteAt s (i + d) b)
    (f : Nat) : rectRefs s' i n f = rectRefs s i n f := by
  unfold rectRefs
  refine refs_congr fun x hx => ?_
  obtain ⟨⟨h1, h2⟩, h3⟩ := mem_rectSlots.mp hx
  obtain ⟨a, b⟩ := x
  simp only at h1 h2 h3
  have := hpte (a - i) b (by omega) h3
  rw [Nat.add_sub_cancel' h1] at this
  rw [target_page _ h3, target_page _ h3, this]

/-- The rows are user slots, so they are counted. -/
theorem rectRefs_le_frameRefs (s : Mem) (hi : 4 ≤ i)
    (hn : i + n ≤ 1024) (f : Nat) : rectRefs s i n f ≤ frameRefs s f := by
  refine refs_mono fun x hx => ?_
  obtain ⟨⟨h1, h2⟩, h3⟩ := mem_rectSlots.mp hx
  obtain ⟨a, b⟩ := x
  exact mem_userSlots_page ⟨by simp only at h1; omega, by simp only at h2; omega⟩ h3

/-- The pages of directory entries `iF .. iF + n - 1` have been shared
into the entries from `iT` on. -/
structure DirsCopied (lo hi : Nat) (H : Finset Nat) (s : Mem)
    (iF iT n : Nat) (s' : Mem) : Prop where
  paging : Paging lo hi H s'
  src : ∀ d b, d < n → b < 1024 → pteAt s' (iF + d) b = pteAt s (iF + d) b
    ∨ pteAt s' (iF + d) b = clearW (pteAt s (iF + d) b)
  dst : ∀ d b, d < n → b < 1024 → pteAt s' (iT + d) b
    = if present (pteAt s (iF + d) b) then clearW (pteAt s (iF + d) b)
      else 0
  empty : ∀ d b, d < n → b < 1024 → pteAt s (iT + d) b = 0
  other : ∀ a b, UserDir a → b < 1024 → ¬ (iF ≤ a ∧ a < iF + n) →
    ¬ (iT ≤ a ∧ a < iT + n) → pteAt s' a b = pteAt s a b
  low : ∀ k, k < 256 * 1024 → ¬ (iT ≤ k ∧ k < iT + n) → s'.word k = s.word k
  high : s'.highMemory = s.highMemory
  map : ∀ f, InMain lo hi f → s'.memMap (f - 256) ≤ max 1 (s.memMap (f - 256) + rectRefs s iF n f)
  view : ∀ a b k, UserDir a → b < 1024 → k < 1024 → ¬ (iT ≤ a ∧ a < iT + n) → OffDir (pteAt s a b) →
    pageWord s' a b k = pageWord s a b k

/-- References counted in a range are counted in `mem_map`. -/
theorem Paging.rectRefs_le_map (h : Paging lo hi H s) {f : Nat}
    (hi' : 4 ≤ i) (hn : i + n ≤ 1024) (hf : InMain lo hi f) :
    rectRefs s i n f ≤ s.memMap (f - 256) := by
  have := rectRefs_le_frameRefs s hi' hn f
  have := h.count f hf
  omega

theorem Paging.dirsCopied_zero (h : Paging lo hi H s) : DirsCopied lo hi H s iF iT 0 s := by
  refine ⟨h, fun d b hd => by omega, fun d b hd => by omega,
    fun d b hd => by omega, fun a b _ _ _ _ => rfl, fun k _ _ => rfl, rfl,
    fun f _ => by omega, fun a b k _ _ _ _ _ => rfl⟩

/-- A turn over an absent source directory entry. -/
theorem Paging.dirsCopied_absent (h : Paging lo hi H s)
    (hF : ¬ present (s.word iF)) (hT : ¬ present (s.word iT)) : DirsCopied lo hi H s iF iT 1 s := by
  have hzero : ∀ d, d < 1 → d = 0 := fun d hd => by omega
  refine ⟨h, fun d b _ _ => .inl rfl, ?_, ?_, fun a b _ _ _ _ => rfl,
    fun k _ _ => rfl, rfl, fun f _ => by omega, fun a b k _ _ _ _ _ => rfl⟩
  · intro d b hd _
    rw [hzero d hd, Nat.add_zero, Nat.add_zero, pteAt_of_absent hF,
      pteAt_of_absent hT, if_neg not_present_zero]
  · intro d b hd _
    rw [hzero d hd, Nat.add_zero, pteAt_of_absent hT]

/-- A turn over a present source directory entry: a new table, filled
row by row. -/
theorem Paging.dirsCopied_one (h : Paging lo hi H s) {page : Nat}
    (hF : UserDir iF) (hT : UserDir iT) (hne : iF ≠ iT)
    (hp : present (s.word iF)) (ha : ¬ present (s.word iT)) (hroom : ∀ f, InMain lo hi f →
      s.memMap (f - 256) + rectRefs s iF 1 f < 256) (hg : getFreePage s = some (page, s₁)) :
    DirsCopied lo hi H s iF iT 1 (copyPtes 1024 (tablePtr (s.word iF)) (page / 4)
        (s₁.store iT (entry7 page))) := by
  obtain ⟨ht, hpage⟩ := h.tableAdded hT ha hg
  generalize s₁.store iT (entry7 page) = s₂ at ht hpage
  have hltF := hF.2
  have hdF : s₂.word iF = s.word iF := ht.low iF (by omega) hne
  have hempty : ∀ b, pteAt s iT b = 0 := fun _ => pteAt_of_absent ha
  have hrect : ∀ f, rectRefs s iF 1 f = rowRefs s iF 0 1024 f := by
    intro f
    rw [rectRefs_succ, rectRefs_zero, Nat.add_zero]
  have hrow : ∀ f, rowRefs s₂ iF 0 1024 f = rowRefs s iF 0 1024 f :=
    rowRefs_congr (by omega) fun b _ hb => ht.pte iF b hF (by omega)
  -- the new table's own frame: no entry of the range points at it
  have hmap : ∀ f, InMain lo hi f → s₂.memMap (f - 256) ≤ max 1 (s.memMap (f - 256)) := by
    intro f _
    rw [ht.map, update_apply]
    split <;> omega
  have hr := copyPtes_user hF hT hne 1024 0 s₂ ht.paging (by rw [hdF]; exact hp) ht.dir (by omega)
    (fun b _ hb => by
      rw [ht.pte iT b hT (by omega), hempty]
      exact not_present_zero)
    (fun f hf => by
      have h1 := hmap f hf
      have h2 := hroom f hf
      have h3 := h.rectRefs_le_map hF.1 (by omega : iF + 1 ≤ 1024) hf
      rw [hrect] at h2 h3
      rw [hrow]
      omega)
  rw [hdF, Nat.add_zero, Nat.add_zero,
    show frame (s₂.word iT) * 1024 = page / 4 by omega, ← tablePtr_eq] at hr
  generalize copyPtes 1024 (tablePtr (s.word iF)) (page / 4) s₂ = s3 at hr
  have hzero : ∀ d, d < 1 → d = 0 := fun d hd => by omega
  refine ⟨hr.paging, ?_, ?_, ?_, ?_, ?_, ?_, ?_, ?_⟩
  · intro d b hd hb
    rw [hzero d hd, Nat.add_zero, ← ht.pte iF b hF hb]
    exact hr.src b (by omega) (by omega)
  · intro d b hd hb
    rw [hzero d hd, Nat.add_zero, Nat.add_zero, hr.dst b (by omega) (by omega),
      ht.pte iF b hF hb, ht.pte iT b hT hb, hempty]
  · intro d b hd _
    rw [hzero d hd, Nat.add_zero, hempty]
  · intro a b ha' hb hn1 hn2
    rw [hr.other a b ha' hb (fun hc => hn1 (by omega))
      (fun hc => hn2 (by omega)), ht.pte a b ha' hb]
  · intro k hk hn
    rw [hr.low k hk, ht.low k hk (by omega)]
  · rw [hr.high, ht.high]
  · intro f hf
    have h1 := hmap f hf
    have h3 := h.rectRefs_le_map hF.1 (by omega : iF + 1 ≤ 1024) hf
    rw [hr.map f hf, hrow, hrect]
    rw [hrect] at h3
    omega
  · intro a b k ha' hb hk hn hnz
    rw [hr.view a b k ha' hb hk (by omega), ht.view a b k ha' hb hk hnz]

/-- A directory entry and the run behind it make a longer run. -/
theorem DirsCopied.trans (h : Paging lo hi H s)
    (hF : 4 ≤ iF) (hF' : iF + (n + 1) ≤ 1024) (hT : 4 ≤ iT)
    (hT' : iT + (n + 1) ≤ 1024) (hne : iF + (n + 1) ≤ iT ∨ iT + (n + 1) ≤ iF)
    (h₁ : DirsCopied lo hi H s iF iT 1 s₁) (h₂ : DirsCopied lo hi H s₁ (iF + 1) (iT + 1) n s₂) :
    DirsCopied lo hi H s iF iT (n + 1) s₂ := by
  -- the first entry leaves the rest of both runs alone
  have hsrc : ∀ d b, d < n → b < 1024 →
      pteAt s₁ (iF + 1 + d) b = pteAt s (iF + 1 + d) b := fun d b hd hb =>
    h₁.other _ b ⟨by omega, by omega⟩ hb (by omega) (by omega)
  have hdst : ∀ d b, d < n → b < 1024 →
      pteAt s₁ (iT + 1 + d) b = pteAt s (iT + 1 + d) b := fun d b hd hb =>
    h₁.other _ b ⟨by omega, by omega⟩ hb (by omega) (by omega)
  have hFF : ∀ d, iF + (d + 1) = iF + 1 + d := fun d => by omega
  have hTT : ∀ d, iT + (d + 1) = iT + 1 + d := fun d => by omega
  refine ⟨h₂.paging, ?_, ?_, ?_, ?_, ?_, ?_, ?_, ?_⟩
  · rintro (_ | d) b hd hb
    · rw [h₂.other _ b ⟨by omega, by omega⟩ hb (by omega) (by omega)]
      exact h₁.src 0 b (by omega) hb
    · rw [hFF, ← hsrc d b (by omega) hb]
      exact h₂.src d b (by omega) hb
  · rintro (_ | d) b hd hb
    · rw [h₂.other _ b ⟨by omega, by omega⟩ hb (by omega) (by omega)]
      exact h₁.dst 0 b (by omega) hb
    · rw [hFF, hTT, ← hsrc d b (by omega) hb]
      exact h₂.dst d b (by omega) hb
  · rintro (_ | d) b hd hb
    · exact h₁.empty 0 b (by omega) hb
    · rw [hTT, ← hdst d b (by omega) hb]
      exact h₂.empty d b (by omega) hb
  · intro a b ha hb hn1 hn2
    rw [h₂.other a b ha hb (by omega) (by omega), h₁.other a b ha hb (by omega) (by omega)]
  · intro k hk hn
    rw [h₂.low k hk (by omega), h₁.low k hk (by omega)]
  · rw [h₂.high, h₁.high]
  · intro f hf
    have h1 := h₁.map f hf
    have h2 := h₂.map f hf
    have h3 := h.rectRefs_le_map (by omega : 4 ≤ iF + 1) (by omega : iF + 1 + n ≤ 1024) hf
    rw [rectRefs_congr hsrc] at h2
    rw [rectRefs_succ, rectRefs_zero, Nat.add_zero] at h1
    rw [rectRefs_succ]
    omega
  · intro a b k ha hb hk hn hoff
    have hoff1 : OffDir (pteAt s₁ a b) := by
      by_cases haF : iF ≤ a ∧ a < iF + 1
      · have ha0 : a = iF + 0 := by omega
        rw [ha0] at hoff ⊢
        obtain ⟨hp, -, hf⟩ := kept_of_clearW (h₁.src 0 b (by omega) hb)
        unfold OffDir
        rw [hp, hf]
        exact hoff
      · rw [h₁.other a b ha hb haF (by omega)]
        exact hoff
    rw [h₂.view a b k ha hb hk (by omega) hoff1, h₁.view a b k ha hb hk (by omega) hoff]

/-- Both sides of a copied slot map the same frame, so they read the
same. -/
theorem DirsCopied.copy
    (h : DirsCopied lo hi H s iF iT n s') {d b : Nat} (hd : d < n) (hb : b < 1024) (k : Nat) :
    pageWord s' (iT + d) b k = pageWord s' (iF + d) b k := by
  have hdst := h.dst d b hd hb
  obtain ⟨hpF, -, hfr⟩ := kept_of_clearW (h.src d b hd hb)
  by_cases hp : present (pteAt s (iF + d) b)
  · rw [if_pos hp] at hdst
    rw [pageWord_of_present (hpF.mpr hp), hfr,
      pageWord_of_present (by rw [hdst, present_clearW]; exact hp), hdst, frame_clearW]
  · rw [if_neg hp] at hdst
    rw [pageWord_of_absent fun hc => hp (hpF.mp hc),
      pageWord_of_absent (by rw [hdst]; exact not_present_zero)]

/-- The outer loop between two user ranges: it copies all of them, or
stops short with −1 when no page is left for a table. -/
theorem copyDirs_user : ∀ (n iF iT : Nat) (s : Mem) (r : Int) (s' : Mem), Paging lo hi H s →
      4 ≤ iF → iF + n ≤ 1024 → 4 ≤ iT → iT + n ≤ 1024 → (iF + n ≤ iT ∨ iT + n ≤ iF) →
      (∀ f, InMain lo hi f → s.memMap (f - 256) + rectRefs s iF n f < 256) →
      copyDirs 1024 n iF iT s = .ok (r, s') →
      ∃ m, m ≤ n ∧ (r = 0 → m = n) ∧ DirsCopied lo hi H s iF iT m s' := by
  intro n
  induction n with
  | zero =>
    intro iF iT s r s' h _ _ _ _ _ _ hc
    cases hc
    exact ⟨0, le_refl _, fun _ => rfl, h.dirsCopied_zero⟩
  | succ n ih =>
    intro iF iT s r s' h hF hF' hT hT' hne hroom hc
    have huF : UserDir iF := ⟨hF, by omega⟩
    have huT : UserDir iT := ⟨hT, by omega⟩
    -- whatever the first entry does, the loop goes on from its result
    have hgo : ∀ s₁, DirsCopied lo hi H s iF iT 1 s₁ →
        copyDirs 1024 n (iF + 1) (iT + 1) s₁ = .ok (r, s') → ∃ m, m ≤ n + 1 ∧ (r = 0 → m = n + 1)
          ∧ DirsCopied lo hi H s iF iT m s' := by
      intro s₁ h1 hc1
      have hroom1 : ∀ f, InMain lo hi f → s₁.memMap (f - 256) + rectRefs s₁ (iF + 1) n f < 256 := by
        intro f hf
        have hr := hroom f hf
        have hm := h1.map f hf
        have hle := h.rectRefs_le_map (by omega : 4 ≤ iF + 1) (by omega : iF + 1 + n ≤ 1024) hf
        rw [rectRefs_congr fun d b hd hb => h1.other (iF + 1 + d) b
          ⟨by omega, by omega⟩ hb (by omega) (by omega)]
        rw [rectRefs_succ] at hr
        rw [rectRefs_succ, rectRefs_zero] at hm
        omega
      obtain ⟨m, hm, hr0, h2⟩ := ih (iF + 1) (iT + 1) s₁ r s' h1.paging
        (by omega) (by omega) (by omega) (by omega) (by omega) hroom1 hc1
      exact ⟨m + 1, by omega, fun hr => by rw [hr0 hr],
        h1.trans h hF (by omega) hT (by omega) (by omega) h2⟩
    simp only [copyDirs] at hc
    split at hc
    · cases hc
    rename_i haT
    split at hc
    · rename_i hpF
      split at hc
      · cases hc
        exact ⟨0, by omega, by omega, h.dirsCopied_zero⟩
      · rename_i page s₁ hg
        refine hgo _ (h.dirsCopied_one huF huT (by omega) hpF haT ?_ hg) hc
        intro f hf
        have hr := hroom f hf
        rw [rectRefs_succ] at hr
        rw [rectRefs_succ, rectRefs_zero]
        omega
    · rename_i haF
      exact hgo _ (h.dirsCopied_absent haF haT) hc

-- ======== the first fork

/-- The kernel's own page table as `setup_paging` left it: the low
640 kB map to themselves. -/
def KernelTable (s : Mem) : Prop :=
  ∀ k, k < 160 → s.word (1024 + k) = entry7 (k * 4096)

/-- Entries `j .. j + n - 1` of table `i'` have become read-only maps of
the low pages of the same numbers. -/
structure RowAliased (lo hi : Nat) (H : Finset Nat) (s : Mem) (i' j n : Nat) (s' : Mem) : Prop where
  paging : Paging lo hi H s'
  dst : ∀ b, j ≤ b → b < j + n → frame (pteAt s' i' b) < 256
  other : ∀ a b, UserDir a → b < 1024 → ¬ (a = i' ∧ j ≤ b ∧ b < j + n) → pteAt s' a b = pteAt s a b
  low : ∀ k, k < 256 * 1024 → s'.word k = s.word k
  high : s'.highMemory = s.highMemory
  view : ∀ a b k, UserDir a → b < 1024 → k < 1024 → a ≠ i' → pageWord s' a b k = pageWord s a b k

/-- One turn of the inner loop over a kernel entry: no count, and the
kernel's own entry keeps its W bit. -/
theorem Paging.aliasPte_turn (h : Paging lo hi H s)
    (hi'' : UserDir i') (hd' : present (s.word i')) (ha : ¬ present (pteAt s i' j)) (hj : j < 160) :
    RowAliased lo hi H s i' j 1 (s.store (frame (s.word i') * 1024 + j)
        (clearW (entry7 (j * 4096)))) := by
  have hj' : j < 1024 := by omega
  have htge := h.main_ge (h.table i' hi'' hd').1
  have hlow : frame (clearW (entry7 (j * 4096))) < 256 := by
    rw [frame_clearW, frame_entry7]
    omega
  have hpte := fun a b (ha' : UserDir a) (hb : b < 1024) =>
    h.pteAt_storePte (e := clearW (entry7 (j * 4096))) hi'' hd' hj' rfl ha' hb
  refine ⟨h.alias hi'' hj' hd' ha hlow (not_writable_clearW _) rfl rfl, ?_, ?_, ?_, rfl, ?_⟩
  · intro b h1 h2
    rw [show b = j by omega, hpte i' j hi'' hj', if_pos ⟨rfl, rfl⟩]
    exact hlow
  · intro a b ha' hb hn
    rw [hpte a b ha' hb, if_neg fun hc => hn ⟨hc.1, by omega⟩]
  · intro k hk
    rw [Mem.store_word, if_neg (by omega)]
  · intro a b k ha' hb hk hne
    exact h.pageWord_storePte hi'' hd' hj' rfl ha' hb hk fun hc => hne hc.1

/-- The inner loop of `copy_page_tables` over the kernel's table. -/
theorem copyPtes_kernel (hi'' : UserDir i') :
    ∀ (n j : Nat) (s : Mem), Paging lo hi H s → KernelTable s → present (s.word i') → j + n ≤ 160 →
      (∀ b, j ≤ b → b < j + n → ¬ present (pteAt s i' b)) → RowAliased lo hi H s i' j n
        (copyPtes n (1024 + j) (frame (s.word i') * 1024 + j) s) := by
  intro n
  induction n with
  | zero =>
    intro j s h _ _ _ _
    exact ⟨h, fun b h1 h2 => by omega, fun a b _ _ _ => rfl,
      fun k _ => rfl, rfl, fun a b k _ _ _ _ => rfl⟩
  | succ n ih =>
    intro j s h hk hd' hn hempty
    have hcount : ¬ lowMem < clearW (entry7 (j * 4096)) := by
      rw [lowMem_lt_of_present (present_clearW.mpr (present_entry7 j)), frame_clearW, frame_entry7]
      omega
    have h₁ := h.aliasPte_turn hi'' hd' (hempty j (le_refl _) (by omega)) (by omega)
    rw [copyPtes, hk j (by omega)]
    simp only [present_entry7, if_true, hcount, if_false]
    generalize s.store (frame (s.word i') * 1024 + j) (clearW (entry7 (j * 4096))) = s₁ at h₁
    have hdi : s₁.word i' = s.word i' :=
      h₁.low i' (by have := hi''.2; omega)
    have h₂ := ih (j + 1) s₁ h₁.paging (fun k hlt => by rw [h₁.low _ (by omega), hk k hlt])
      (by rw [hdi]; exact hd') (by omega) (by
        intro b h1 h2
        rw [h₁.other i' b hi'' (by omega) (by omega)]
        exact hempty b (by omega) (by omega))
    rw [hdi, ← Nat.add_assoc, ← Nat.add_assoc] at h₂
    refine ⟨h₂.paging, ?_, ?_, ?_, ?_, ?_⟩
    · intro b h1 h2
      by_cases hb : b = j
      · subst hb
        rw [h₂.other i' b hi'' (by omega) (by omega)]
        exact h₁.dst b (le_refl _) (by omega)
      · exact h₂.dst b (by omega) (by omega)
    · intro a b ha hb hnot
      rw [h₂.other a b ha hb (by omega), h₁.other a b ha hb (by omega)]
    · intro k hk'
      rw [h₂.low k hk', h₁.low k hk']
    · rw [h₂.high, h₁.high]
    · intro a b k ha hb hk' hne
      rw [h₂.view a b k ha hb hk' hne, h₁.view a b k ha hb hk' hne]

/-- What the first fork leaves: a new page table for the child whose
entries are low pages, everything else as it was. -/
structure FirstFork (lo hi : Nat) (H : Finset Nat) (s : Mem) (i' : Nat) (s' : Mem) : Prop where
  paging : Paging lo hi H s'
  dst : ∀ b, b < 1024 → present (pteAt s' i' b) → frame (pteAt s' i' b) < 256
  other : ∀ a b, UserDir a → b < 1024 → a ≠ i' → pteAt s' a b = pteAt s a b
  low : ∀ k, k < 256 * 1024 → k ≠ i' → s'.word k = s.word k
  high : s'.highMemory = s.highMemory
  view : ∀ a b k, UserDir a → b < 1024 → k < 1024 → a ≠ i' →
    OffDir (pteAt s a b) → pageWord s' a b k = pageWord s a b k

/-- `copy_page_tables(0,to,size)` of the first task, whose 640 kB take
one directory entry. -/
theorem Paging.firstFork (h : Paging lo hi H s) (hk : KernelTable s)
    (hk0 : s.word 0 = entry7 4096) {dst size : Nat} {r : Int}
    (hi'' : UserDir (dirNr dst)) (hsize : dirCount size ≤ 1)
    (hc : copyPageTables 0 dst size s = .ok (r, s')) :
    s' = s ∨ FirstFork lo hi H s (dirNr dst) s' := by
  unfold copyPageTables at hc
  split at hc
  · cases hc
  rw [if_pos rfl, show dirNr 0 = 0 by decide] at hc
  generalize dirNr dst = i' at hi'' hc ⊢
  have hcases : dirCount size = 0 ∨ dirCount size = 1 := by omega
  rcases hcases with hn | hn <;> rw [hn] at hc
  · cases hc
    exact .inl rfl
  simp only [copyDirs] at hc
  split at hc
  · cases hc
  rename_i ha
  rw [if_pos (by rw [hk0]; exact present_entry7 1), hk0] at hc
  split at hc
  · cases hc
    exact .inl rfl
  rename_i page s₁ hg
  cases hc
  obtain ⟨ht, hpage⟩ := h.tableAdded hi'' ha hg
  generalize s₁.store i' (entry7 page) = s₂ at ht hpage
  have hlt := hi''.2
  have habs : ∀ b, b < 1024 → ¬ present (pteAt s₂ i' b) := by
    intro b hb
    rw [ht.pte i' b hi'' hb, pteAt_of_absent ha]
    exact not_present_zero
  have hal := copyPtes_kernel hi'' 160 0 s₂ ht.paging
    (fun k hk' => by rw [ht.low _ (by omega) (by omega), hk k hk'])
    ht.dir (by omega) (fun b _ hb => habs b (by omega))
  rw [Nat.add_zero, Nat.add_zero,
    show frame (s₂.word i') * 1024 = page / 4 by omega] at hal
  rw [show tablePtr (entry7 4096) = 1024 by decide]
  refine .inr ⟨hal.paging, ?_, ?_, ?_, ?_, ?_⟩
  · intro b hb hp
    by_cases hb' : b < 160
    · exact hal.dst b (by omega) (by omega)
    · rw [hal.other i' b hi'' hb (by omega)] at hp
      exact absurd hp (habs b hb)
  · intro a b ha' hb hne
    rw [hal.other a b ha' hb (fun hc => hne hc.1), ht.pte a b ha' hb]
  · intro k hk' hne
    rw [hal.low k hk', ht.low k hk' hne]
  · rw [hal.high, ht.high]
  · intro a b k ha' hb hk' hne hoff
    rw [hal.view a b k ha' hb hk' hne, ht.view a b k ha' hb hk' hoff]

end LearnLinux.Mm
