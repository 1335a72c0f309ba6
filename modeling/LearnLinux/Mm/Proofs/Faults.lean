/-
What the fault handlers do to the page tables and to what the tasks
read.

`pageWord s i j k` is long `k` of the page mapped in slot `(i, j)`: the
user's view, through the tables. Each routine's specification says
three things at once — the invariant holds afterwards, which entries
changed and to what, and that no OTHER page reads differently — because
every later result needs all three and re-deriving one from another
means walking the stores again.
-/
import LearnLinux.Mm.Proofs.Paging

namespace LearnLinux.Mm

open Lib

variable {lo hi i j k g e page address : Nat} {H : Finset Nat} {s s' s₁ : Mem}

-- ======== the user's view

/-- Long `k` of the page mapped in slot `(i, j)`. -/
def pageWord (s : Mem) (i j k : Nat) : Option Nat :=
  if present (pteAt s i j) then
    some (s.word (frame (pteAt s i j) * 1024 + k))
  else none

theorem pageWord_congr (hpte : pteAt s' i j = pteAt s i j)
    (hw : present (pteAt s i j) → s'.word (frame (pteAt s i j) * 1024 + k)
        = s.word (frame (pteAt s i j) * 1024 + k)) : pageWord s' i j k = pageWord s i j k := by
  unfold pageWord
  rw [hpte]
  split
  · rw [hw ‹_›]
  · rfl

theorem pageWord_of_present (hp : present (pteAt s i j)) :
    pageWord s i j k = some (s.word (frame (pteAt s i j) * 1024 + k)) := by
  unfold pageWord
  rw [if_pos hp]

theorem pageWord_of_absent (hp : ¬ present (pteAt s i j)) : pageWord s i j k = none := by
  unfold pageWord
  rw [if_neg hp]

/-- A change inside page `g` shows only where `g` is mapped. -/
theorem DataChange.view (hc : DataChange g s s')
    (hg : NotTable s g) (hi' : UserDir i) (hj : j < 1024)
    (hk : k < 1024) (hne : present (pteAt s i j) → frame (pteAt s i j) ≠ g) :
    pageWord s' i j k = pageWord s i j k := by
  refine pageWord_congr (hc.pte_eq hg hi' hj) fun hp => hc.out _ ?_
  have := hne hp
  omega

/-- A store into one page leaves the longs of every other alone. -/
theorem Mem.store_other (s : Mem) {t : Nat} (hj : j < 1024) (hk : k < 1024) (hne : t ≠ g) :
    (s.store (t * 1024 + j) e).word (g * 1024 + k) = s.word (g * 1024 + k) := by
  rw [Mem.store_word, if_neg (by omega)]

/-- A store into slot `(i, j)` leaves the view of every other slot
alone. -/
theorem Paging.pageWord_storePte (h : Paging lo hi H s)
    (hi' : UserDir i) (hp : present (s.word i)) (hj : j < 1024)
    (hw : s'.word = (s.store (frame (s.word i) * 1024 + j) e).word)
    {i' j' : Nat} (hi'' : UserDir i') (hj' : j' < 1024) (hk : k < 1024)
    (hne : ¬ (i' = i ∧ j' = j)) : pageWord s' i' j' k = pageWord s i' j' k := by
  have hpte := h.pteAt_storePte hi' hp hj hw hi'' hj'
  rw [if_neg hne] at hpte
  refine pageWord_congr hpte fun hpp => ?_
  rw [hw]
  refine s.store_other hj hk ?_
  exact fun hc => h.page_ne_table hi'' hj' hpp hi' hp hc.symm

-- ======== allocation

section Fresh

variable {page f k i j : Nat}

section

variable (hf : Fresh lo hi H s page s' f)
include hf

/-- The first megabyte is never allocated. -/
theorem Fresh.low (hk : k < 256 * 1024) : s'.word k = s.word k := by
  have hge := hf.paging.main_ge hf.main
  exact hf.out k (by omega)

theorem Fresh.dir (hi' : UserDir i) : s'.word i = s.word i :=
  hf.low (by have := hi'.2; omega)

theorem Fresh.pte_eq (hi' : UserDir i) (hj : j < 1024) : pteAt s' i j = pteAt s i j := by
  refine pteAt_congr (hf.dir hi') fun hp => hf.out _ ?_
  have := hf.notTable.2 i hi' hp
  omega

/-- Nothing maps the fresh page yet. -/
theorem Fresh.ne_page
    (hi' : UserDir i) (hj : j < 1024) (hp : present (pteAt s i j)) : frame (pteAt s i j) ≠ f := by
  intro hc
  have hpos := frameRefs_page_pos hi' hj hp
  rw [hc, hf.refs] at hpos
  omega

theorem Fresh.view
    (hi' : UserDir i) (hj : j < 1024) (hk : k < 1024) : pageWord s' i j k = pageWord s i j k := by
  refine pageWord_congr (hf.pte_eq hi' hj) fun hp => hf.out _ ?_
  have := hf.ne_page hi' hj hp
  omega

end

end Fresh

-- ======== write-protect faults

/-- The specification of `un_wp_page` on the present slot `(i, j)`: the
slot ends writable, on the old frame or on a fresh one, and nobody's
view changes. -/
structure UnWp (lo hi : Nat) (H : Finset Nat) (s : Mem) (i j : Nat) (s' : Mem) : Prop where
  paging : Paging lo hi H s'
  low : ∀ k, k < 256 * 1024 → s'.word k = s.word k
  high : s'.highMemory = s.highMemory
  other : ∀ i' j', UserDir i' → j' < 1024 → ¬ (i' = i ∧ j' = j) → pteAt s' i' j' = pteAt s i' j'
  self : (256 ≤ frame (pteAt s i j) ∧ s.memMap (frame (pteAt s i j) - 256) = 1
        ∧ pteAt s' i j = setW (pteAt s i j)) ∨ (¬ (256 ≤ frame (pteAt s i j)
        ∧ s.memMap (frame (pteAt s i j) - 256) = 1) ∧ ∃ f, InMain lo hi f ∧ frameRefs s f = 0
          ∧ pteAt s' i j = entry7 (f * 4096))
  view : ∀ i' j' k, UserDir i' → j' < 1024 → k < 1024 → pageWord s' i' j' k = pageWord s i' j' k

theorem UnWp.isPresent (hu : UnWp lo hi H s i j s')
    (hp : present (pteAt s i j)) : present (pteAt s' i j) := by
  rcases hu.self with ⟨-, -, he⟩ | ⟨-, f, -, -, he⟩
  · rw [he, present_setW]
    exact hp
  · rw [he]
    exact present_entry7 f

theorem UnWp.isWritable (hu : UnWp lo hi H s i j s') : writable (pteAt s' i j) := by
  rcases hu.self with ⟨-, -, he⟩ | ⟨-, f, -, -, he⟩
  · rw [he]
    exact writable_setW _
  · rw [he]
    exact writable_entry7 f

section

variable (h : Paging lo hi H s) (hi' : UserDir i) (hj : j < 1024) (hp : present (pteAt s i j))
include h hi' hj hp

/-- Sole owner: the count is one, so the slot is the only reference. -/
theorem Paging.sole_of_count (hge : 256 ≤ frame (pteAt s i j))
    (h1 : s.memMap (frame (pteAt s i j) - 256) = 1) : InMain lo hi (frame (pteAt s i j))
      ∧ frameRefs s (frame (pteAt s i j)) = 1 := by
  have hin := h.main_of_ge hi' hj hp hge
  refine ⟨hin, ?_⟩
  have hc := h.count _ hin
  have hpos := frameRefs_page_pos hi' hj hp
  omega

/-- The flags of slot `(i, j)` have changed, its entry is `e`. -/
structure Reflagged (lo hi : Nat) (H : Finset Nat) (s : Mem) (i j e : Nat) (s' : Mem) : Prop where
  paging : Paging lo hi H s'
  self : pteAt s' i j = e
  other : ∀ i' j', UserDir i' → j' < 1024 → ¬ (i' = i ∧ j' = j) → pteAt s' i' j' = pteAt s i' j'
  low : ∀ k, k < 256 * 1024 → s'.word k = s.word k
  view : ∀ i' j' k, UserDir i' → j' < 1024 → k < 1024 → pageWord s' i' j' k = pageWord s i' j' k

/-- The flags of an entry may change as long as W is only set by a sole
owner. -/
theorem Paging.reflagged (hpe : present e) (hfe : frame e = frame (pteAt s i j))
    (hsole : writable e → InMain lo hi (frame e) ∧ frameRefs s (frame e) = 1) :
    Reflagged lo hi H s i j e (s.store (frame (s.word i) * 1024 + j) e) := by
  have hd := dir_present_of_pte hp
  have htge := h.main_ge (h.table i hi' hd).1
  have hpte := fun i' j' (hi'' : UserDir i') (hj' : j' < 1024) =>
    h.pteAt_storePte (e := e) hi' hd hj rfl hi'' hj'
  have hself := hpte i j hi' hj
  rw [if_pos ⟨rfl, rfl⟩] at hself
  have hold : entryTarget (pteAt s i j) = some (frame e) := by
    rw [entryTarget_of_present hp, hfe]
  refine ⟨h.storePte hi' hd hj rfl (Finset.Subset.refl H) ?_ h.byte (fun _ _ _ _ => rfl)
    ?_ ?_ ?_, hself, ?_, ?_, ?_⟩
  · intro f _
    rw [hold, entryTarget_of_present hpe]
    rfl
  · intro _
    rw [hfe]
    exact h.page i j hi' hj hp
  · intro _ hne
    exact absurd hold hne
  · intro _ hwr
    rw [if_pos hold]
    exact hsole hwr
  · intro i' j' hi'' hj' hne
    rw [hpte i' j' hi'' hj', if_neg hne]
  · intro k hk
    rw [Mem.store_word, if_neg (by omega)]
  · intro i' j' k hi'' hj' hk
    by_cases hij : i' = i ∧ j' = j
    · obtain ⟨rfl, rfl⟩ := hij
      rw [pageWord_of_present (by rw [hself]; exact hpe),
        pageWord_of_present hp, hself, hfe, s.store_other hj hk]
      exact fun hc => h.page_ne_table hi' hj hp hi' hd hc.symm
    · exact h.pageWord_storePte hi' hd hj rfl hi'' hj' hk hij

/-- The sole-owner path of `un_wp_page`. -/
theorem Paging.unWp_fast (hge : 256 ≤ frame (pteAt s i j))
    (h1 : s.memMap (frame (pteAt s i j) - 256) = 1) : UnWp lo hi H s i j
      (s.store (frame (s.word i) * 1024 + j) (setW (pteAt s i j))) := by
  have hr := h.reflagged hi' hj hp (present_setW.mpr hp) (frame_setW _) fun _ => by
    rw [frame_setW]
    exact h.sole_of_count hi' hj hp hge h1
  exact ⟨hr.paging, hr.low, rfl, hr.other, .inl ⟨hge, h1, hr.self⟩, hr.view⟩

end

/-- Copying a page is a change inside the destination. -/
theorem Mem.copyPage_dataChange (s : Mem) (src f : Nat) :
    DataChange f s (s.copyPage src (f * 4096)) := by
  refine ⟨fun k hk => ?_, rfl, rfl⟩
  unfold Mem.copyPage
  rw [Nat.mul_div_cancel _ (by omega)]
  exact if_neg hk

theorem Mem.copyPage_word (s : Mem) {f : Nat} (hk : k < 1024) :
    (s.copyPage (g * 4096) (f * 4096)).word (f * 1024 + k) = s.word (g * 1024 + k) := by
  have h1 : (f * 1024 + k) / 1024 = f := by omega
  have h2 : (f * 1024 + k) % 1024 = k := by omega
  unfold Mem.copyPage
  rw [Nat.mul_div_cancel _ (by omega), Nat.mul_div_cancel _ (by omega)]
  simp only [h1, h2, if_true]

section

variable (h : Paging lo hi H s) (hi' : UserDir i)
include h hi'

omit hi' in
/-- One count less, inside `mem_map`. -/
theorem Paging.decMap_main {f g : Nat}
    (hf : InMain lo hi f) (hpos : 0 < s.memMap (f - 256)) (hg : 256 ≤ g) :
    (s.decMap (f - 256)).memMap (g - 256) + (if g = f then 1 else 0) = s.memMap (g - 256) := by
  have hge := h.main_ge hf
  have hb := h.byte f hf
  rw [Mem.decMap_memMap]
  by_cases hgf : g = f
  · subst hgf
    rw [if_pos rfl, if_pos rfl]
    omega
  · rw [if_neg (by omega), if_neg hgf, Nat.add_zero]

/-- Entering the held frame `f` in slot `(i, j)`, with the count of the
frame that was there, if any, following. -/
theorem Paging.enterHeld {f : Nat} (hd : present (s.word i)) (hj : j < 1024) (hf : f ∈ H)
    (hw : s'.word = (s.store (frame (s.word i) * 1024 + j) (entry7 (f * 4096))).word)
    (hmap : ∀ g, InMain lo hi g → s'.memMap (g - 256)
      + (if entryTarget (pteAt s i j) = some g then 1 else 0) = s.memMap (g - 256))
    (hoff : ∀ g, 256 ≤ g → g < 4096 → ¬ InMain lo hi g → s'.memMap (g - 256) = s.memMap (g - 256)) :
    Paging lo hi (H.erase f) s' := by
  obtain ⟨hfin, hf0⟩ := h.held f hf
  have hold : entryTarget (pteAt s i j) ≠ some f := by
    intro hc
    obtain ⟨hp, he⟩ := entryTarget_eq_some.mp hc
    exact h.held_ne_page hf hi' hj hp he.symm
  have hnew : entryTarget (entry7 (f * 4096)) = some f := by
    rw [entryTarget_of_present (present_entry7 f), frame_entry7]
  refine h.storePte hi' hd hj hw (Finset.erase_subset f H) ?_ ?_ hoff ?_ ?_ ?_
  · intro g hg
    rw [hmap g hg, hnew]
    by_cases hgf : g = f
    · subst hgf
      simp [hf]
    · have hfg : f ≠ g := fun hc => hgf hc.symm
      simp [hgf, hfg]
  · intro g hg
    have h1 := hmap g hg
    have hb := h.byte g hg
    omega
  · intro _
    rw [frame_entry7]
    exact .inr hfin
  · intro _ _
    rw [frame_entry7]
    refine ⟨Finset.notMem_erase f H, ?_, ?_⟩
    · intro i' hi'' hp'
      exact h.held_ne_table hf hi'' hp'
    · intro i' j' hi'' hj' _ hp' _ hc
      exact h.held_ne_page hf hi'' hj' hp' hc.symm
  · intro _ _
    rw [frame_entry7, if_neg hold]
    exact ⟨hfin, hf0⟩

section

variable (hj : j < 1024) (hp : present (pteAt s i j))
include hj hp

/-- The count of the frame behind slot `(i, j)` is given back, unless it
is a low one. -/
theorem Paging.givenBack (hm : s'.memMap = if 256 ≤ frame (pteAt s i j) then
        (s.decMap (frame (pteAt s i j) - 256)).memMap else s.memMap) :
    (∀ g, InMain lo hi g → s'.memMap (g - 256)
      + (if entryTarget (pteAt s i j) = some g then 1 else 0) = s.memMap (g - 256)) ∧
    ∀ g, 256 ≤ g → g < 4096 → ¬ InMain lo hi g → s'.memMap (g - 256) = s.memMap (g - 256) := by
  rw [hm, entryTarget_of_present hp]
  split
  · rename_i hge
    have hin := h.main_of_ge hi' hj hp hge
    have hpos : 0 < s.memMap (frame (pteAt s i j) - 256) := by
      have := h.count _ hin
      have := frameRefs_page_pos hi' hj hp
      omega
    refine ⟨fun g hg => ?_, fun g hg _ hn => ?_⟩
    · rw [← h.decMap_main hin hpos (h.main_ge hg)]
      simp only [Option.some.injEq, eq_comm]
    · rw [← h.decMap_main hin hpos hg, if_neg, Nat.add_zero]
      rintro rfl
      exact hn hin
  · refine ⟨fun g hg => ?_, fun _ _ _ _ => rfl⟩
    have hge := h.main_ge hg
    rw [if_neg fun hc => by have := Option.some.inj hc; omega, Nat.add_zero]

/-- Moving slot `(i, j)` from its frame to the held frame `f`: the middle
of the copying path of `un_wp_page`. -/
theorem Paging.retarget {f : Nat} (hf : f ∈ H) (hw : s'.word
      = (s.store (frame (s.word i) * 1024 + j) (entry7 (f * 4096))).word)
    (hm : s'.memMap = if 256 ≤ frame (pteAt s i j) then
        (s.decMap (frame (pteAt s i j) - 256)).memMap else s.memMap) :
    Paging lo hi (H.erase f) s' :=
  have hback := h.givenBack hi' hj hp hm
  h.enterHeld hi' (dir_present_of_pte hp) hj hf hw hback.1 hback.2

/-- The copying path of `un_wp_page`. -/
theorem Paging.unWp_slow
    (hslow : ¬ (256 ≤ frame (pteAt s i j) ∧ s.memMap (frame (pteAt s i j) - 256) = 1))
    (hg : getFreePage s = some (page, s₁)) : UnWp lo hi H s i j (((if 256 ≤ frame (pteAt s i j) then
            s₁.decMap (frame (pteAt s i j) - 256) else s₁).store
          (frame (s.word i) * 1024 + j) (entry7 page)).copyPage
        (frame (pteAt s i j) * 4096) page) := by
  obtain ⟨f, hf⟩ := h.fresh_of_getFreePage hg
  have hd := dir_present_of_pte hp
  have hfne := hf.ne_page hi' hj hp
  have hfge := h.main_ge hf.main
  have htge := h.main_ge (h.table i hi' hd).1
  rw [hf.addr]
  -- `s₁` reads like `s`
  have hp1 : present (pteAt s₁ i j) := by
    rw [hf.pte_eq hi' hj]
    exact hp
  generalize hs2 : (if 256 ≤ frame (pteAt s i j) then
      s₁.decMap (frame (pteAt s i j) - 256) else s₁).store
    (frame (s.word i) * 1024 + j) (entry7 (f * 4096)) = s2
  have hw2 : s2.word = (s₁.store (frame (s₁.word i) * 1024 + j) (entry7 (f * 4096))).word := by
    rw [← hs2, hf.dir hi']
    split <;> rfl
  have hm2 : s2.memMap = if 256 ≤ frame (pteAt s₁ i j) then
      (s₁.decMap (frame (pteAt s₁ i j) - 256)).memMap else s₁.memMap := by
    rw [← hs2, hf.pte_eq hi' hj]
    split <;> rfl
  have hh2 : s2.highMemory = s.highMemory := by
    rw [← hs2, ← hf.high]
    split <;> rfl
  have hpg2 : Paging lo hi H s2 := by
    have := hf.paging.retarget hi' hj hp1 (Finset.mem_insert_self f H) hw2 hm2
    rwa [Finset.erase_insert hf.notHeld] at this
  have hd1 : present (s₁.word i) := by
    rw [hf.dir hi']
    exact hd
  have hpte2 : ∀ i' j', UserDir i' → j' < 1024 → pteAt s2 i' j'
      = if i' = i ∧ j' = j then entry7 (f * 4096) else pteAt s i' j' := by
    intro i' j' hi'' hj'
    rw [hf.paging.pteAt_storePte hi' hd1 hj hw2 hi'' hj', hf.pte_eq hi'' hj']
  have hself : pteAt s2 i j = entry7 (f * 4096) := by
    rw [hpte2 i j hi' hj, if_pos ⟨rfl, rfl⟩]
  have hnt : NotTable s2 f := by
    have hn := hpg2.page_notTable hi' hj (by rw [hself]; exact present_entry7 f)
      (by rw [hself, frame_entry7]; exact hf.main)
    rwa [hself, frame_entry7] at hn
  have hdc := s2.copyPage_dataChange (frame (pteAt s i j) * 4096) f
  refine ⟨hpg2.dataChange hdc hnt, ?_, ?_, ?_, .inr ⟨hslow, f, hf.main, hf.refs, ?_⟩, ?_⟩
  · intro k hk
    rw [hdc.out k (by omega), hw2, Mem.store_word, hf.dir hi', if_neg (by omega), hf.low hk]
  · rw [hdc.high, hh2]
  · intro i' j' hi'' hj' hne
    rw [hdc.pte_eq hnt hi'' hj', hpte2 i' j' hi'' hj', if_neg hne]
  · rw [hdc.pte_eq hnt hi' hj, hself]
  · intro i' j' k hi'' hj' hk
    by_cases hij : i' = i ∧ j' = j
    · obtain ⟨rfl, rfl⟩ := hij
      -- the fresh page holds the old page's longs
      have hpt : pteAt (s2.copyPage (frame (pteAt s i' j') * 4096)
          (f * 4096)) i' j' = entry7 (f * 4096) := by
        rw [hdc.pte_eq hnt hi' hj, hself]
      rw [pageWord_of_present (by rw [hpt]; exact present_entry7 f), pageWord_of_present hp,
        hpt, frame_entry7, s2.copyPage_word hk, hw2, s₁.store_other hj hk, hf.out]
      · omega
      · rw [hf.dir hi']
        exact fun hc => h.page_ne_table hi' hj hp hi' hd hc.symm
    · have hne2 : pteAt s2 i' j' = pteAt s i' j' := by
        rw [hpte2 i' j' hi'' hj', if_neg hij]
      rw [hdc.view hnt hi'' hj' hk, hf.paging.pageWord_storePte hi' hd1 hj
        hw2 hi'' hj' hk hij, hf.view hi'' hj' hk]
      intro hp'
      rw [hne2] at hp' ⊢
      exact hf.ne_page hi'' hj' hp'

/-- `un_wp_page` on a present slot. -/
theorem Paging.unWp_of_unWpPage (hu : unWpPage (frame (s.word i) * 1024 + j) s = .ok s')
    : UnWp lo hi H s i j s' := by
  have he : s.word (frame (s.word i) * 1024 + j) = pteAt s i j :=
    (pteAt_of_present (dir_present_of_pte hp)).symm
  unfold unWpPage at hu
  simp only [he, lowMem_le_pageAddr, mapNr_pageAddr] at hu
  split at hu
  · rename_i hfast
    cases hu
    exact h.unWp_fast hi' hj hp hfast.1 hfast.2
  · rename_i hslow
    split at hu
    · cases hu
    · rename_i page s₁ hg
      cases hu
      exact h.unWp_slow hi' hj hp hslow hg

end

end

-- ======== a new page table

/-- The entry does not map frame 0, the page directory itself — which
the first task's children do, read-only, with the rest of the low
640 kB. -/
def OffDir (e : Nat) : Prop := present e → frame e ≠ 0

/-- A fresh page entered in the absent directory entry `i`: an empty
page table, and nobody's view changes, except of the directory. -/
structure TableAdded (lo hi : Nat) (H : Finset Nat) (s : Mem) (i : Nat) (s' : Mem) : Prop where
  paging : Paging lo hi H s'
  dir : present (s'.word i)
  pte : ∀ i' j, UserDir i' → j < 1024 → pteAt s' i' j = pteAt s i' j
  low : ∀ k, k < 256 * 1024 → k ≠ i → s'.word k = s.word k
  high : s'.highMemory = s.highMemory
  map : s'.memMap = Function.update s.memMap (frame (s'.word i) - 256) 1
  held : ∀ f ∈ H, ∀ k, k < 1024 → s'.word (f * 1024 + k) = s.word (f * 1024 + k)
  view : ∀ i' j k, UserDir i' → j < 1024 → k < 1024 →
    OffDir (pteAt s i' j) → pageWord s' i' j k = pageWord s i' j k

/-- An absent directory entry has no entries behind it. -/
theorem pteAt_of_absent (ha : ¬ present (s.word i)) : pteAt s i j = 0 := by
  unfold pteAt
  rw [if_neg ha]

theorem Paging.tableAdded (h : Paging lo hi H s) (hi' : UserDir i) (ha : ¬ present (s.word i))
    (hg : getFreePage s = some (page, s₁)) : TableAdded lo hi H s i (s₁.store i (entry7 page))
      ∧ page = frame ((s₁.store i (entry7 page)).word i) * 4096 := by
  obtain ⟨f, hf⟩ := h.fresh_of_getFreePage hg
  have hfge := h.main_ge hf.main
  rw [hf.addr]
  have ha1 : ¬ present (s₁.word i) := by
    rw [hf.dir hi']
    exact ha
  have hz : ∀ k, k < 1024 → ¬ present (s₁.word (f * 1024 + k)) := by
    intro k hk
    rw [hf.zero k hk]
    exact not_present_zero
  have hself : (s₁.store i (entry7 (f * 4096))).word i = entry7 (f * 4096) := by
    rw [Mem.store_word, if_pos rfl]
  have hpte : ∀ i' j, UserDir i' → j < 1024 →
      pteAt (s₁.store i (entry7 (f * 4096))) i' j = pteAt s i' j := by
    intro i' j hi'' hj
    by_cases hii : i' = i
    · subst hii
      rw [Paging.pteAt_installTable hi' hfge rfl j, hf.zero j hj, pteAt_of_absent ha]
    · rw [hf.paging.pteAt_storeDir hi' rfl hi'' hii j, hf.pte_eq hi'' hj]
  refine ⟨⟨?_, ?_, hpte, ?_, hf.high, ?_, ?_, ?_⟩, ?_⟩
  · have : Paging lo hi ((insert f H).erase f) (s₁.store i (entry7 (f * 4096))) :=
      hf.paging.installTable hi' ha1 (Finset.mem_insert_self f H) hz rfl rfl
    rwa [Finset.erase_insert hf.notHeld] at this
  · rw [hself]
    exact present_entry7 f
  · intro k hk hne
    rw [Mem.store_word, if_neg hne, hf.low hk]
  · rw [hself, frame_entry7, Mem.store_memMap, hf.map]
  · intro g hgH k hk
    have hgge := h.main_ge (h.held g hgH).1
    have hgf : g ≠ f := by
      rintro rfl
      exact hf.notHeld hgH
    have hlt := hi'.2
    rw [Mem.store_word, if_neg (by omega), hf.out _ (by omega)]
  · intro i' j k hi'' hj hk hnz
    refine pageWord_congr (hpte i' j hi'' hj) fun hp => ?_
    have hne := hf.ne_page hi'' hj hp
    have hnz := hnz hp
    have hlt := hi'.2
    rw [Mem.store_word, if_neg (by omega), hf.out _ (by omega)]
  · rw [hself, frame_entry7]

-- ======== a new page

/-- The specification of `put_page` with the held frame `f` at an
address whose slot `(i, j)` is absent. -/
structure PagePut (lo hi : Nat) (H : Finset Nat) (s : Mem) (i j f : Nat) (s' : Mem) : Prop where
  paging : Paging lo hi (H.erase f) s'
  self : pteAt s' i j = entry7 (f * 4096)
  other : ∀ i' j', UserDir i' → j' < 1024 → ¬ (i' = i ∧ j' = j) → pteAt s' i' j' = pteAt s i' j'
  low : ∀ k, k < 256 * 1024 → k ≠ i → s'.word k = s.word k
  high : s'.highMemory = s.highMemory
  map : ∀ k, s'.memMap k ≤ max 1 (s.memMap k)
  content : ∀ k, k < 1024 → s'.word (f * 1024 + k) = s.word (f * 1024 + k)
  view : ∀ i' j' k, UserDir i' → j' < 1024 → k < 1024 →
    ¬ (i' = i ∧ j' = j) → OffDir (pteAt s i' j') → pageWord s' i' j' k = pageWord s i' j' k

/-- `put_page` into a table that is there. -/
theorem Paging.pagePut_present (h : Paging lo hi H s) {f : Nat}
    (hi' : UserDir i) (hd : present (s.word i)) (hj : j < 1024)
    (ha : ¬ present (pteAt s i j)) (hf : f ∈ H) : PagePut lo hi H s i j f
      (s.store (frame (s.word i) * 1024 + j) (entry7 (f * 4096))) := by
  have htge := h.main_ge (h.table i hi' hd).1
  have hpte := fun i' j' (hi'' : UserDir i') (hj' : j' < 1024) =>
    h.pteAt_storePte (e := entry7 (f * 4096)) hi' hd hj rfl hi'' hj'
  refine ⟨h.enterHeld hi' hd hj hf rfl (fun g _ => ?_) fun _ _ _ _ => rfl, ?_, ?_, ?_, rfl,
    fun k => le_max_right 1 _, ?_, ?_⟩
  · rw [entryTarget_of_absent ha]
    rfl
  · rw [hpte i j hi' hj, if_pos ⟨rfl, rfl⟩]
  · intro i' j' hi'' hj' hne
    rw [hpte i' j' hi'' hj', if_neg hne]
  · intro k hk _
    rw [Mem.store_word, if_neg (by omega)]
  · intro k hk
    exact s.store_other hj hk fun hc => h.held_ne_table hf hi' hd hc.symm
  · intro i' j' k hi'' hj' hk hne _
    exact h.pageWord_storePte hi' hd hj rfl hi'' hj' hk hne

section

variable (h : Paging lo hi H s) (hi' : UserDir (dirNr address))
variable (ha : ¬ present (pteAt s (dirNr address) (pageNr address)))
include h hi' ha

/-- `put_page`. -/
theorem Paging.pagePut_of_putPage {f : Nat}
        (hf : f ∈ H) (hput : putPage (f * 4096) address s = some s') :
    PagePut lo hi H s (dirNr address) (pageNr address) f s' := by
  have hj : pageNr address < 1024 := Nat.mod_lt _ (by omega)
  unfold putPage at hput
  simp only [tablePtr_eq] at hput
  split at hput
  · rename_i hd
    cases hput
    exact h.pagePut_present hi' hd hj ha hf
  · rename_i hd
    split at hput
    · cases hput
    · rename_i page s₁ hg
      cases hput
      obtain ⟨ht, hpage⟩ := h.tableAdded hi' hd hg
      generalize s₁.store (dirNr address) (entry7 page) = s2 at ht hpage
      have habs : ¬ present (pteAt s2 (dirNr address) (pageNr address)) := by
        rw [ht.pte _ _ hi' hj]
        exact ha
      have hptr : page / 4 + pageNr address
          = frame (s2.word (dirNr address)) * 1024 + pageNr address := by
        omega
      rw [hptr]
      have hp := ht.paging.pagePut_present hi' ht.dir hj habs hf
      refine ⟨hp.paging, hp.self, ?_, ?_, ?_, ?_, ?_, ?_⟩
      · intro i' j' hi'' hj' hne
        rw [hp.other i' j' hi'' hj' hne, ht.pte i' j' hi'' hj']
      · intro k hk hne
        rw [hp.low k hk hne, ht.low k hk hne]
      · rw [hp.high, ht.high]
      · intro k
        have hk := hp.map k
        rw [ht.map, Function.update_apply] at hk
        split at hk <;> omega
      · intro k hk
        rw [hp.content k hk, ht.held f hf k hk]
      · intro i' j' k hi'' hj' hk hne hnz
        rw [hp.view i' j' k hi'' hj' hk hne (by rw [ht.pte i' j' hi'' hj']; exact hnz),
          ht.view i' j' k hi'' hj' hk hnz]

/-- `get_empty_page`: a fresh page, put in place. -/
theorem Paging.pagePut_of_getEmptyPage
        (hg : getEmptyPage address s = .ok s') : ∃ page f s₁, Fresh lo hi H s page s₁ f
      ∧ PagePut lo hi (insert f H) s₁ (dirNr address) (pageNr address) f s'
      ∧ Paging lo hi H s' := by
  have hj : pageNr address < 1024 := Nat.mod_lt _ (by omega)
  unfold getEmptyPage at hg
  split at hg
  · cases hg
  rename_i page s₁ hfree
  obtain ⟨f, hf⟩ := h.fresh_of_getFreePage hfree
  rw [hf.addr] at hg
  split at hg
  · rename_i s2 hput
    cases hg
    have hp := hf.paging.pagePut_of_putPage hi'
      (by rw [hf.pte_eq hi' hj]; exact ha) (Finset.mem_insert_self f H) hput
    have hpg := hp.paging
    rw [Finset.erase_insert hf.notHeld] at hpg
    exact ⟨page, f, s₁, hf, hp, hpg⟩
  · cases hfr : freePage (f * 4096) s₁ with
    | error t | ok s2 =>
      rw [hfr] at hg
      cases hg

end

end LearnLinux.Mm
