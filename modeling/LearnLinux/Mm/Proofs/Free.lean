/-
`free_page_tables` always succeeds and leaves the range empty.

Freeing an entry gives its frame's count back, and the invariant says
the count was there to give: neither panic of `free_page` is reachable
from a page-table entry. The loops are inductions over the entries
left, as in Fork.lean; here the specifications also say that the loop
RETURNS, which for the copying loops is up to the allocator.
-/
import LearnLinux.Mm.Proofs.Faults

namespace LearnLinux.Mm

open Lib

variable {lo hi f i j n : Nat} {H : Finset Nat} {s s' s₁ s₂ : Mem}

-- ======== one frame

theorem Mem.decMap_store_word (s : Mem) (i p e : Nat) :
    ((s.decMap i).store p e).word = (s.store p e).word := rfl

/-- `free_page` of a frame of main memory with a count to give. -/
theorem freePage_main (h : Paging lo hi H s)
    (hhigh : s.highMemory = hi * 4096) (hf : InMain lo hi f)
    (hpos : 0 < s.memMap (f - 256)) : freePage (f * 4096) s = .ok (s.decMap (f - 256)) := by
  have hge := h.main_ge hf
  have hlt := hf.2
  have hmap : mapNr (f * 4096) = f - 256 := by
    unfold mapNr lowMem
    omega
  unfold freePage
  rw [if_neg (by unfold lowMem; omega), if_neg (by omega), hmap, if_neg (by omega)]

/-- `free_page` of a low frame does nothing. -/
theorem freePage_low (hf : f < 256) : freePage (f * 4096) s = .ok s := by
  unfold freePage
  rw [if_pos (by unfold lowMem; omega)]

-- ======== one entry

/-- The present slot `(i, j)` is cleared, its frame's count given
back. -/
theorem Paging.unmap (h : Paging lo hi H s)
    (hi' : UserDir i) (hj : j < 1024) (hp : present (pteAt s i j))
    (hw : s'.word = (s.store (frame (s.word i) * 1024 + j) 0).word)
    (hm : s'.memMap = if 256 ≤ frame (pteAt s i j) then
      (s.decMap (frame (pteAt s i j) - 256)).memMap else s.memMap) :
    Paging lo hi H s' := by
  -- the counts move only at the slot's frame
  obtain ⟨hmap, hoff⟩ := h.givenBack hi' hj hp hm
  refine h.storePte hi' (dir_present_of_pte hp) hj hw (Finset.Subset.refl H) ?_ ?_ hoff
    (fun hc => absurd hc not_present_zero) (fun hc => absurd hc not_present_zero)
    (fun hc => absurd hc not_present_zero)
  · intro f hf
    rw [hmap f hf, entryTarget_zero]
    rfl
  · intro f hf
    have := hmap f hf
    have := h.byte f hf
    omega

/-- Entries `j .. j + n - 1` of table `i` have been freed. -/
structure RowFreed (lo hi : Nat) (H : Finset Nat) (s : Mem) (i j n : Nat) (s' : Mem) : Prop where
  paging : Paging lo hi H s'
  row : ∀ b, j ≤ b → b < j + n → pteAt s' i b = 0
  other : ∀ a b, UserDir a → b < 1024 → ¬ (a = i ∧ j ≤ b ∧ b < j + n) → pteAt s' a b = pteAt s a b
  low : ∀ k, k < 256 * 1024 → s'.word k = s.word k
  high : s'.highMemory = s.highMemory
  view : ∀ a b k, UserDir a → b < 1024 → k < 1024 →
    ¬ (a = i ∧ j ≤ b ∧ b < j + n) → pageWord s' a b k = pageWord s a b k

/-- One turn of the inner loop: the entry is freed if present, and
cleared. -/
theorem Paging.freePte_turn (h : Paging lo hi H s)
    (hhigh : s.highMemory = hi * 4096) (hi' : UserDir i) (hd : present (s.word i)) (hj : j < 1024) :
    ∃ s₁, (if present (pteAt s i j) then freePage (pageAddr (pteAt s i j)) s
        else .ok s) = .ok s₁ ∧ RowFreed lo hi H s i j 1
        (s₁.store (frame (s.word i) * 1024 + j) 0) := by
  have htge := h.main_ge (h.table i hi' hd).1
  have hone : ∀ b, j ≤ b → b < j + 1 → b = j := fun b h1 h2 => by omega
  -- everything but the invariant depends on the one store only
  have hrest : ∀ e : Mem, e.word = (s.store (frame (s.word i) * 1024 + j) 0).word →
      e.highMemory = s.highMemory → Paging lo hi H e → RowFreed lo hi H s i j 1 e := by
    intro e hw hh hpg
    have hpte := fun a b (ha : UserDir a) (hb : b < 1024) => h.pteAt_storePte hi' hd hj hw ha hb
    refine ⟨hpg, ?_, ?_, ?_, hh, ?_⟩
    · intro b h1 h2
      rw [hone b h1 h2, hpte i j hi' hj, if_pos ⟨rfl, rfl⟩]
    · intro a b ha hb hn
      rw [hpte a b ha hb, if_neg fun hc => hn ⟨hc.1, by omega⟩]
    · intro k hk
      rw [hw, Mem.store_word, if_neg (by omega)]
    · intro a b k ha hb hk hn
      exact h.pageWord_storePte hi' hd hj hw ha hb hk fun hc => hn ⟨hc.1, by omega⟩
  split
  · rename_i hp
    rcases h.page i j hi' hj hp with hlow | hin
    · refine ⟨s, freePage_low hlow, hrest _ rfl rfl ?_⟩
      refine h.unmap hi' hj hp rfl ?_
      rw [if_neg (by omega)]
      rfl
    · have hge := h.main_ge hin
      have hpos : 0 < s.memMap (frame (pteAt s i j) - 256) := by
        have := h.count _ hin
        have := frameRefs_page_pos hi' hj hp
        omega
      refine ⟨s.decMap (frame (pteAt s i j) - 256), ?_, hrest _ (Mem.decMap_store_word ..) rfl ?_⟩
      · rw [pageAddr_eq]
        exact freePage_main h hhigh hin hpos
      refine h.unmap hi' hj hp (Mem.decMap_store_word ..) ?_
      rw [if_pos hge, Mem.store_memMap]
  · rename_i hp
    refine ⟨s, rfl, hrest _ rfl rfl ?_⟩
    -- an absent entry becomes the zero entry
    refine h.storePte hi' hd hj rfl (Finset.Subset.refl H) ?_ h.byte
      (fun _ _ _ _ => rfl) (fun hc => absurd hc not_present_zero)
      (fun hc => absurd hc not_present_zero) (fun hc => absurd hc not_present_zero)
    intro f _
    rw [entryTarget_of_absent hp, entryTarget_zero]
    rfl

/-- Two adjoining rows make one. -/
theorem RowFreed.trans (hn : j + 1 + n ≤ 1024)
    (hi' : UserDir i) (h₁ : RowFreed lo hi H s i j 1 s₁) (h₂ : RowFreed lo hi H s₁ i (j + 1) n s₂) :
    RowFreed lo hi H s i j (n + 1) s₂ := by
  refine ⟨h₂.paging, ?_, ?_, ?_, ?_, ?_⟩
  · intro b h1 h2
    by_cases hb : b = j
    · subst hb
      rw [h₂.other i b hi' (by omega) (by omega)]
      exact h₁.row b (le_refl _) (by omega)
    · exact h₂.row b (by omega) (by omega)
  · intro a b ha hb hnot
    rw [h₂.other a b ha hb (by omega), h₁.other a b ha hb (by omega)]
  · intro k hk
    rw [h₂.low k hk, h₁.low k hk]
  · rw [h₂.high, h₁.high]
  · intro a b k ha hb hk hnot
    rw [h₂.view a b k ha hb hk (by omega), h₁.view a b k ha hb hk (by omega)]

/-- The inner loop of `free_page_tables`. -/
theorem freePtes_user (hi' : UserDir i) : ∀ (n j : Nat) (s : Mem), Paging lo hi H s →
      s.highMemory = hi * 4096 → present (s.word i) → j + n ≤ 1024 →
      ∃ s', freePtes n (frame (s.word i) * 1024 + j) s = .ok s' ∧ RowFreed lo hi H s i j n s' := by
  intro n
  induction n with
  | zero =>
    intro j s h _ _ _
    exact ⟨s, rfl, h, fun b h1 h2 => by omega, fun a b _ _ _ => rfl,
      fun k _ => rfl, rfl, fun a b k _ _ _ _ => rfl⟩
  | succ n ih =>
    intro j s h hhigh hd hn
    have hpte : s.word (frame (s.word i) * 1024 + j) = pteAt s i j :=
      (pteAt_of_present hd).symm
    obtain ⟨s₁, hs1, h₁⟩ := h.freePte_turn hhigh hi' hd (j := j) (by omega)
    have hdi := h₁.low i (by have := hi'.2; omega)
    obtain ⟨s₂, hs2, h₂⟩ := ih (j + 1) _ h₁.paging
      (by rw [h₁.high, hhigh]) (by rw [hdi]; exact hd) (by omega)
    rw [hdi, ← Nat.add_assoc] at hs2
    refine ⟨s₂, ?_, h₁.trans (by omega) hi' h₂⟩
    rw [freePtes, hpte]
    by_cases hp : present (pteAt s i j)
    · rw [if_pos hp] at hs1 ⊢
      rw [hs1]
      exact hs2
    · rw [if_neg hp] at hs1 ⊢
      cases hs1
      exact hs2

-- ======== one directory entry

/-- The page tables of directory entries `i .. i + n - 1`, and the pages
in them, have been freed. -/
structure DirsFreed (lo hi : Nat) (H : Finset Nat) (s : Mem) (i n : Nat) (s' : Mem) : Prop where
  paging : Paging lo hi H s'
  gone : ∀ a, i ≤ a → a < i + n → ¬ present (s'.word a)
  other : ∀ a b, UserDir a → b < 1024 → ¬ (i ≤ a ∧ a < i + n) → pteAt s' a b = pteAt s a b
  low : ∀ k, k < 256 * 1024 → ¬ (i ≤ k ∧ k < i + n) → s'.word k = s.word k
  high : s'.highMemory = s.highMemory
  view : ∀ a b k, UserDir a → b < 1024 → k < 1024 → ¬ (i ≤ a ∧ a < i + n) → OffDir (pteAt s a b) →
    pageWord s' a b k = pageWord s a b k

/-- One turn of the outer loop over a present entry. -/
theorem Paging.freeDir_turn (h : Paging lo hi H s)
    (hhigh : s.highMemory = hi * 4096) (hi' : UserDir i) (hd : present (s.word i)) :
    ∃ s₁ s₂, freePtes 1024 (tablePtr (s.word i)) s = .ok s₁
      ∧ freePage (pageAddr (s₁.word i)) s₁ = .ok s₂ ∧ DirsFreed lo hi H s i 1 (s₂.store i 0) := by
  have hlt := hi'.2
  obtain ⟨s₁, hs1, hr⟩ := freePtes_user hi' 1024 0 s h hhigh hd (by omega)
  have hdi := hr.low i (by omega)
  have hd1 : present (s₁.word i) := by
    rw [hdi]
    exact hd
  obtain ⟨hin, h1⟩ := hr.paging.table i hi' hd1
  have hmap := hr.paging.count_eq_one hin h1
  have hempty : ∀ j, j < 1024 → ¬ present (pteAt s₁ i j) := by
    intro j hj
    rw [hr.row j (by omega) (by omega)]
    exact not_present_zero
  have hw : ((s₁.decMap (frame (s₁.word i) - 256)).store i 0).word
      = (s₁.store i 0).word := Mem.decMap_store_word ..
  have hdec := fun g (hg : 256 ≤ g) =>
    hr.paging.decMap_main hin (by omega) hg
  have hpg : Paging lo hi H ((s₁.decMap (frame (s₁.word i) - 256)).store i 0) := by
    refine hr.paging.removeTable hi' hd1 hempty hw ?_ ?_
    · intro g hg
      rw [Mem.store_memMap]
      exact hdec g (hr.paging.main_ge hg)
    · intro g hg _ hn
      have := hdec g hg
      rw [if_neg (by rintro rfl; exact hn hin)] at this
      rw [Mem.store_memMap]
      omega
  have hpte : ∀ a b, UserDir a → b < 1024 → ¬ (i ≤ a ∧ a < i + 1) →
      pteAt ((s₁.decMap (frame (s₁.word i) - 256)).store i 0) a b = pteAt s a b := by
    intro a b ha hb hn
    rw [hr.paging.pteAt_storeDir hi' hw ha (by omega) b, hr.other a b ha hb (by omega)]
  refine ⟨s₁, s₁.decMap (frame (s₁.word i) - 256), ?_, ?_, hpg, ?_, hpte, ?_, hr.high, ?_⟩
  · rw [Nat.add_zero] at hs1
    rw [tablePtr_eq, hs1]
  · rw [pageAddr_eq]
    exact freePage_main hr.paging (by rw [hr.high, hhigh]) hin (by omega)
  · intro a h1 h2
    rw [hw, Mem.store_word, if_pos (by omega)]
    exact not_present_zero
  · intro k hk hn
    rw [hw, Mem.store_word, if_neg (by omega), hr.low k hk]
  · intro a b k ha hb hk hn hoff
    rw [← hr.view a b k ha hb hk (by omega)]
    refine pageWord_congr ?_ fun hp => ?_
    · rw [hpte a b ha hb hn, hr.other a b ha hb (by omega)]
    · rw [hr.other a b ha hb (by omega)] at hp ⊢
      have := hoff hp
      rw [hw, Mem.store_word, if_neg (by omega)]

/-- A directory entry and the run behind it make a longer run. -/
theorem DirsFreed.trans (hn : i + (n + 1) ≤ 1024) (h₁ : DirsFreed lo hi H s i 1 s₁)
    (h₂ : DirsFreed lo hi H s₁ (i + 1) n s₂) : DirsFreed lo hi H s i (n + 1) s₂ := by
  refine ⟨h₂.paging, ?_, ?_, ?_, ?_, ?_⟩
  · intro a h1 h2
    by_cases ha : a = i
    · rw [h₂.low a (by omega) (by omega)]
      exact h₁.gone a h1 (by omega)
    · exact h₂.gone a (by omega) (by omega)
  · intro a b ha hb hnot
    rw [h₂.other a b ha hb (by omega), h₁.other a b ha hb (by omega)]
  · intro k hk hnot
    rw [h₂.low k hk (by omega), h₁.low k hk (by omega)]
  · rw [h₂.high, h₁.high]
  · intro a b k ha hb hk hnot hoff
    rw [h₂.view a b k ha hb hk (by omega) (by rw [h₁.other a b ha hb (by omega)]; exact hoff),
      h₁.view a b k ha hb hk (by omega) hoff]

/-- The outer loop of `free_page_tables`. -/
theorem freeDirs_user : ∀ (n i : Nat) (s : Mem), Paging lo hi H s → s.highMemory = hi * 4096 →
      4 ≤ i → i + n ≤ 1024 → ∃ s', freeDirs n i s = .ok s' ∧ DirsFreed lo hi H s i n s' := by
  intro n
  induction n with
  | zero =>
    intro i s h _ _ _
    exact ⟨s, rfl, h, fun a h1 h2 => by omega, fun a b _ _ _ => rfl,
      fun k _ _ => rfl, rfl, fun a b k _ _ _ _ _ => rfl⟩
  | succ n ih =>
    intro i s h hhigh h4 hn
    have hi' : UserDir i := ⟨h4, by omega⟩
    rw [freeDirs]
    split
    · rename_i hd
      obtain ⟨s₁, s₂, hs1, hs2, h₁⟩ := h.freeDir_turn hhigh hi' hd
      obtain ⟨s3, hs3, h₂⟩ := ih (i + 1) _ h₁.paging (by rw [h₁.high, hhigh]) (by omega) (by omega)
      refine ⟨s3, ?_, h₁.trans hn h₂⟩
      rw [hs1]
      show (freePage (pageAddr (s₁.word i)) s₁ >>= _) = _
      rw [hs2]
      exact hs3
    · rename_i ha
      have h₁ : DirsFreed lo hi H s i 1 s := by
        refine ⟨h, ?_, fun a b _ _ _ => rfl, fun k _ _ => rfl, rfl, fun a b k _ _ _ _ _ => rfl⟩
        intro a h1 h2
        rw [show a = i by omega]
        exact ha
      obtain ⟨s₂, hs2, h₂⟩ := ih (i + 1) s h hhigh (by omega) (by omega)
      exact ⟨s₂, hs2, h₁.trans hn h₂⟩

/-- `free_page_tables` of a user range returns, with the range
empty. -/
theorem Paging.freePageTables_user (h : Paging lo hi H s)
    (hhigh : s.highMemory = hi * 4096) {src size : Nat}
    (hal : src % 0x400000 = 0) (huser : 0x1000000 ≤ src)
    (hend : src + dirCount size * 0x400000 ≤ 2 ^ 32) (hlt : src < 2 ^ 32) :
    ∃ s', freePageTables src size s = .ok s'
      ∧ DirsFreed lo hi H s (dirNr src) (dirCount size) s' := by
  have hdir : dirNr src = src / 0x400000 := by
    unfold dirNr
    omega
  unfold freePageTables
  rw [if_neg (by omega), if_neg (by omega)]
  exact freeDirs_user _ _ s h hhigh (by omega) (by omega)

end LearnLinux.Mm
