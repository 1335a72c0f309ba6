/-
The page-table invariant and the single stores that keep it.

# Slots

A reference to a page frame sits in a SLOT: the slot `(i, j)` with
`j < 1024` is entry `j` of the page table that directory entry `i`
points at, and `(i, 1024)` is directory entry `i` itself, which refers
to its page table. The four kernel tables of head.s map all of memory
one to one and are never counted, so the user slots start at directory
entry 4. `target s x` is the frame slot `x` refers to.

# The invariant

`Paging lo hi H s`: the frames `lo .. hi - 1` are main memory, their
`mem_map` counts are exact, every page table is referred to by its own
directory entry and nothing else, and a writable entry is the only
reference to its frame. `H` is the set of frames that a routine in
progress has taken from `get_free_page` and not yet entered anywhere:
each carries one count with no reference to show for it.

# Method

Every routine of mm/memory.c changes one slot at a time, so the file
proves the invariant for the three kinds of single store — into a page
table (`Paging.storePte`), into the directory (`Paging.installTable`,
`Paging.removeTable`), into a page that is neither
(`Paging.storeData`) — and the routines compose these.
-/
import LearnLinux.Lib.Fallible
import LearnLinux.Lib.Refs
import LearnLinux.Mm.Demand

namespace LearnLinux.Mm

open Function (update update_apply)
open Lib

-- ======== entry arithmetic

@[simp] theorem present_clearW {e : Nat} : present (clearW e) ↔ present e := by
  unfold present clearW
  split <;> omega

@[simp] theorem frame_clearW (e : Nat) : frame (clearW e) = frame e := by
  unfold frame clearW
  split <;> omega

theorem not_writable_clearW (e : Nat) : ¬ writable (clearW e) := by
  unfold writable clearW
  split <;> omega

@[simp] theorem dirty_clearW {e : Nat} : dirty (clearW e) ↔ dirty e := by
  unfold dirty clearW
  split <;> omega

/-- An entry that has at most lost W. -/
theorem kept_of_clearW {e e' : Nat} (h : e' = e ∨ e' = clearW e) :
    (present e' ↔ present e) ∧ (dirty e' ↔ dirty e) ∧ frame e' = frame e := by
  rcases h with rfl | rfl
  · exact ⟨Iff.rfl, Iff.rfl, rfl⟩
  · exact ⟨present_clearW, dirty_clearW, frame_clearW e⟩

@[simp] theorem present_setW {e : Nat} : present (setW e) ↔ present e := by
  unfold present setW
  split <;> omega

@[simp] theorem frame_setW (e : Nat) : frame (setW e) = frame e := by
  unfold frame setW
  split <;> omega

theorem writable_setW (e : Nat) : writable (setW e) := by
  unfold writable setW
  split <;> omega

@[simp] theorem present_setDirty {e : Nat} : present (setDirty e) ↔ present e := by
  unfold present setDirty
  split <;> omega

@[simp] theorem frame_setDirty (e : Nat) : frame (setDirty e) = frame e := by
  unfold frame setDirty
  split <;> omega

@[simp] theorem writable_setDirty {e : Nat} : writable (setDirty e) ↔ writable e := by
  unfold writable setDirty
  split <;> omega

theorem dirty_setDirty (e : Nat) : dirty (setDirty e) := by
  unfold dirty setDirty
  split <;> omega

@[simp] theorem present_entry7 (f : Nat) : present (entry7 (f * 4096)) := by
  unfold present entry7
  omega

@[simp] theorem frame_entry7 (f : Nat) : frame (entry7 (f * 4096)) = f := by
  unfold frame entry7
  omega

theorem writable_entry7 (f : Nat) : writable (entry7 (f * 4096)) := by
  unfold writable entry7
  omega

theorem not_dirty_entry7 (f : Nat) : ¬ dirty (entry7 (f * 4096)) := by
  unfold dirty entry7
  omega

@[simp] theorem not_present_zero : ¬ present 0 := by decide

theorem tablePtr_eq (e : Nat) : tablePtr e = frame e * 1024 := rfl

theorem pageAddr_eq (e : Nat) : pageAddr e = frame e * 4096 := rfl

variable {e : Nat}

/-- A page address counts in main memory when its frame is past the
first megabyte. -/
theorem lowMem_le_pageAddr : lowMem ≤ pageAddr e ↔ 256 ≤ frame e := by
  unfold lowMem pageAddr frame
  omega

@[simp] theorem mapNr_pageAddr : mapNr (pageAddr e) = frame e - 256 := by
  unfold mapNr pageAddr lowMem frame
  omega

/-- `this_page > LOW_MEM` reads the whole entry, flags included: for a
present entry it is the frame test. -/
theorem lowMem_lt_of_present (he : present e) : lowMem < e ↔ 256 ≤ frame e := by
  unfold lowMem frame
  unfold present at he
  omega

theorem mapNr_entry : mapNr e = frame e - 256 := by
  unfold mapNr frame lowMem
  omega

-- ======== slots

/-- Entry `j` of the page table of directory entry `i`; an absent table
reads as absent entries. -/
def pteAt (s : Mem) (i j : Nat) : Nat :=
  if present (s.word i) then s.word (tablePtr (s.word i) + j) else 0

/-- The slots that references are counted over. -/
@[irreducible] def userSlots : Finset (Nat × Nat) :=
  Finset.Ico 4 1024 ×ˢ Finset.range 1025

/-- The frame an entry refers to. -/
def entryTarget (e : Nat) : Option Nat :=
  if present e then some (frame e) else none

/-- The frame a slot refers to. -/
def target (s : Mem) (x : Nat × Nat) : Option Nat :=
  if x.2 = 1024 then entryTarget (s.word x.1) else entryTarget (pteAt s x.1 x.2)

/-- References to frame `f` over all user slots. -/
def frameRefs (s : Mem) (f : Nat) : Nat := refs userSlots (target s) f

variable {f : Nat}

theorem entryTarget_eq_some : entryTarget e = some f ↔ present e ∧ frame e = f := by
  unfold entryTarget
  split <;> simp_all

theorem entryTarget_zero : entryTarget 0 = none := by decide

theorem entryTarget_of_present (he : present e) :
    entryTarget e = some (frame e) := entryTarget_eq_some.mpr ⟨he, rfl⟩

theorem entryTarget_of_absent (he : ¬ present e) : entryTarget e = none := by
  unfold entryTarget
  rw [if_neg he]

/-- A directory entry that user slots hang off. -/
def UserDir (i : Nat) : Prop := 4 ≤ i ∧ i < 1024

variable {i j : Nat}

theorem mem_userSlots_page (hi : UserDir i) (hj : j < 1024) : (i, j) ∈ userSlots := by
  unfold userSlots
  unfold UserDir at hi
  simp only [Finset.mem_product, Finset.mem_Ico, Finset.mem_range]
  omega

theorem mem_userSlots_table (hi : UserDir i) : (i, 1024) ∈ userSlots := by
  unfold userSlots
  unfold UserDir at hi
  simp only [Finset.mem_product, Finset.mem_Ico, Finset.mem_range]
  omega

variable {x : Nat × Nat}

theorem mem_userSlots (hx : x ∈ userSlots) : UserDir x.1 ∧ (x.2 < 1024 ∨ x.2 = 1024) := by
  unfold userSlots at hx
  unfold UserDir
  simp only [Finset.mem_product, Finset.mem_Ico, Finset.mem_range] at hx
  omega

theorem target_page (s : Mem) (hj : j < 1024) : target s (i, j) = entryTarget (pteAt s i j) := by
  unfold target
  rw [if_neg (by simp; omega)]

theorem target_table (s : Mem) : target s (i, 1024) = entryTarget (s.word i) := by
  unfold target
  rw [if_pos rfl]

variable {s : Mem}

theorem pteAt_of_present (hp : present (s.word i)) : pteAt s i j = s.word (frame (s.word i) * 1024 + j) := by
  unfold pteAt
  rw [if_pos hp]
  rfl

theorem dir_present_of_pte (h : present (pteAt s i j)) : present (s.word i) := by
  by_contra hn
  unfold pteAt at h
  rw [if_neg hn] at h
  exact not_present_zero h

-- ======== store algebra

theorem Mem.store_word (s : Mem) (p e k : Nat) :
    (s.store p e).word k = if k = p then e else s.word k :=
  update_apply ..

@[simp] theorem Mem.store_memMap (s : Mem) (p e : Nat) : (s.store p e).memMap = s.memMap := rfl

theorem Mem.incMap_memMap (s : Mem) (i k : Nat) : (s.incMap i).memMap k
      = if k = i then (s.memMap i + 1) % 256 else s.memMap k :=
  update_apply ..

theorem Mem.decMap_memMap (s : Mem) (i k : Nat) : (s.decMap i).memMap k
      = if k = i then (s.memMap i + 255) % 256 else s.memMap k :=
  update_apply ..

variable {s' : Mem}

/-- Entries are read off the directory and the tables only. -/
theorem pteAt_congr (hdir : s'.word i = s.word i)
    (htab : present (s.word i) → s'.word (frame (s.word i) * 1024 + j)
        = s.word (frame (s.word i) * 1024 + j)) : pteAt s' i j = pteAt s i j := by
  unfold pteAt
  rw [hdir]
  split
  · exact htab ‹_›
  · rfl

/-- Counts are read off the entries only. -/
theorem frameRefs_congr (hdir : ∀ i, UserDir i → s'.word i = s.word i)
    (hpte : ∀ i j, UserDir i → j < 1024 → pteAt s' i j = pteAt s i j)
    (f : Nat) : frameRefs s' f = frameRefs s f := by
  refine refs_congr fun x hx => ?_
  obtain ⟨hi, hj⟩ := mem_userSlots hx
  obtain ⟨i, j⟩ := x
  rcases hj with hj | rfl
  · rw [target_page _ hj, target_page _ hj, hpte i j hi hj]
  · rw [target_table, target_table, hdir i hi]

/-- The counts of references do not read `mem_map`. -/
theorem pteAt_of_word (hw : s'.word = s.word) : pteAt s' i j = pteAt s i j := by
  unfold pteAt
  rw [hw]

-- ======== the invariant

/-- `f` is a frame of main memory. -/
def InMain (lo hi f : Nat) : Prop := lo ≤ f ∧ f < hi

instance (lo hi f : Nat) : Decidable (InMain lo hi f) :=
  inferInstanceAs (Decidable (lo ≤ f ∧ f < hi))

/-- The page-table invariant (module doc). -/
structure Paging (lo hi : Nat) (H : Finset Nat) (s : Mem) : Prop where
  bounds : 256 ≤ lo ∧ hi ≤ 4096
  byte : ∀ f, InMain lo hi f → s.memMap (f - 256) < 256
  count : ∀ f, InMain lo hi f → s.memMap (f - 256) = frameRefs s f + (if f ∈ H then 1 else 0)
  off : ∀ f, 256 ≤ f → f < 4096 → ¬ InMain lo hi f → s.memMap (f - 256) ≠ 0
  table : ∀ i, UserDir i → present (s.word i) →
    InMain lo hi (frame (s.word i)) ∧ frameRefs s (frame (s.word i)) = 1
  page : ∀ i j, UserDir i → j < 1024 → present (pteAt s i j) →
    frame (pteAt s i j) < 256 ∨ InMain lo hi (frame (pteAt s i j))
  sole : ∀ i j, UserDir i → j < 1024 → present (pteAt s i j) → writable (pteAt s i j) →
    InMain lo hi (frame (pteAt s i j)) ∧ frameRefs s (frame (pteAt s i j)) = 1
  held : ∀ f ∈ H, InMain lo hi f ∧ frameRefs s f = 0

variable {lo hi i' g page : Nat} {H H' : Finset Nat} {s : Mem}

theorem frameRefs_table_pos (hi' : UserDir i)
    (hp : present (s.word i)) : 0 < frameRefs s (frame (s.word i)) :=
  refs_pos (mem_userSlots_table hi') (by rw [target_table, entryTarget_of_present hp])

theorem frameRefs_page_pos (hi' : UserDir i) (hj : j < 1024)
    (hp : present (pteAt s i j)) : 0 < frameRefs s (frame (pteAt s i j)) :=
  refs_pos (mem_userSlots_page hi' hj) (by rw [target_page s hj, entryTarget_of_present hp])

/-- A frame with one reference has one referring slot. -/
theorem frameRefs_one_unique (h1 : frameRefs s f = 1)
    {y : Nat × Nat} (hx : x ∈ userSlots) (hy : y ∈ userSlots)
    (hfx : target s x = some f) (hfy : target s y = some f) : x = y :=
  refs_one_unique h1 hx hy hfx hfy

section

variable (h : Paging lo hi H s)
include h

/-- Two directory entries never share a page table. -/
theorem Paging.table_inj
    (hi' : UserDir i) (hi'' : UserDir i') (hp : present (s.word i)) (hp' : present (s.word i'))
    (hf : frame (s.word i) = frame (s.word i')) : i = i' := by
  have hx := frameRefs_one_unique (h.table i hi' hp).2
    (mem_userSlots_table hi') (mem_userSlots_table hi'')
    (by rw [target_table, entryTarget_of_present hp])
    (by rw [target_table, entryTarget_of_present hp', hf])
  exact congrArg Prod.fst hx

/-- A page table is never mapped as a page. -/
theorem Paging.page_ne_table (hi' : UserDir i) (hj : j < 1024) (hp : present (pteAt s i j))
    (hi'' : UserDir i') (hp' : present (s.word i')) : frame (pteAt s i j) ≠ frame (s.word i') := by
  intro hf
  have hx := frameRefs_one_unique (h.table i' hi'' hp').2
    (mem_userSlots_page hi' hj) (mem_userSlots_table hi'')
    (by rw [target_page s hj, entryTarget_of_present hp, hf])
    (by rw [target_table, entryTarget_of_present hp'])
  have hj' : j = 1024 := congrArg Prod.snd hx
  omega

/-- A held frame is no page table. -/
theorem Paging.held_ne_table
    (hf : f ∈ H) (hi' : UserDir i) (hp : present (s.word i)) : f ≠ frame (s.word i) := by
  intro hfe
  have h0 := (h.held f hf).2
  have hpos := frameRefs_table_pos hi' hp
  rw [← hfe] at hpos
  omega

/-- A held frame is not mapped. -/
theorem Paging.held_ne_page (hf : f ∈ H) (hi' : UserDir i) (hj : j < 1024)
    (hp : present (pteAt s i j)) : f ≠ frame (pteAt s i j) := by
  intro hfe
  have h0 := (h.held f hf).2
  have hpos := frameRefs_page_pos hi' hj hp
  rw [← hfe] at hpos
  omega

/-- Main memory starts past the first megabyte. -/
theorem Paging.main_ge (hf : InMain lo hi f) : 256 ≤ f := le_trans h.bounds.1 hf.1

/-- A mapped frame past the first megabyte is in main memory. -/
theorem Paging.main_of_ge (hi' : UserDir i) (hj : j < 1024) (hp : present (pteAt s i j))
    (hge : 256 ≤ frame (pteAt s i j)) : InMain lo hi (frame (pteAt s i j)) :=
  (h.page i j hi' hj hp).resolve_left (by omega)

/-- A count of one, exactly: the sole reference, and not held. -/
theorem Paging.count_eq_one
    (hf : InMain lo hi f) (hr : frameRefs s f = 1) : s.memMap (f - 256) = 1 := by
  rw [h.count f hf, hr, if_neg]
  intro hH
  have := (h.held f hH).2
  omega

-- ======== a store into a page table

section

variable (hi' : UserDir i) (hp : present (s.word i)) (hj : j < 1024)
  (hw : s'.word = (s.store (frame (s.word i) * 1024 + j) e).word)
include hi' hp hj hw

/-- A store into a page table changes the entry it names and no
other. -/
theorem Paging.pteAt_storePte {j' : Nat} (hi'' : UserDir i') (hj' : j' < 1024) :
    pteAt s' i' j' = if i' = i ∧ j' = j then e else pteAt s i' j' := by
  have hge := h.main_ge (h.table i hi' hp).1
  have hdir : s'.word i' = s.word i' := by
    rw [hw, Mem.store_word, if_neg]
    have := hi''.2
    omega
  unfold pteAt
  rw [hdir]
  by_cases hp' : present (s.word i')
  · rw [if_pos hp', if_pos hp', hw, Mem.store_word, tablePtr_eq]
    by_cases hii : i' = i
    · subst hii
      by_cases hjj : j' = j
      · subst hjj
        rw [if_pos rfl, if_pos ⟨rfl, rfl⟩]
      · rw [if_neg (by omega), if_neg (by simp [hjj])]
    · -- the tables are different frames, so the longs are too
      have hne : frame (s.word i') ≠ frame (s.word i) := fun hf =>
        hii (h.table_inj hi'' hi' hp' hp hf)
      rw [if_neg (by omega), if_neg (by simp [hii])]
  · rw [if_neg hp', if_neg hp']
    rw [if_neg]
    rintro ⟨rfl, -⟩
    exact hp' hp

/-- The count change of a store into a page table: the frame the entry
named loses one, the frame it names now gains one. -/
theorem Paging.frameRefs_storePte (f : Nat) : frameRefs s' f
        + (if entryTarget (pteAt s i j) = some f then 1 else 0)
      = frameRefs s f + (if entryTarget e = some f then 1 else 0) := by
  have hge := h.main_ge (h.table i hi' hp).1
  have hself := h.pteAt_storePte hi' hp hj hw hi' hj
  rw [if_pos ⟨rfl, rfl⟩] at hself
  have hswap := refs_swap (f := f) (t := target s) (u := target s') (mem_userSlots_page hi' hj) (by
      intro y hy hne
      obtain ⟨hy1, hy2⟩ := mem_userSlots hy
      obtain ⟨i', j'⟩ := y
      rcases hy2 with hj' | rfl
      · rw [target_page _ hj', target_page _ hj', h.pteAt_storePte hi' hp hj hw hy1 hj', if_neg]
        rintro ⟨rfl, rfl⟩
        exact hne rfl
      · rw [target_table, target_table, hw, Mem.store_word, if_neg]
        have := hy1.2
        omega)
  rw [target_page _ hj, target_page _ hj, hself] at hswap
  exact hswap

/-- A store of `e` into slot `(i, j)` keeps the invariant when the
counts follow the references and `e` is a reference the slot may
hold: a new frame is not held, not a page table and not writable
elsewhere, and a writable `e` is alone. The frames of `H` that the
store enters leave `H`. -/
theorem Paging.storePte (hH : H' ⊆ H) (hcount : ∀ f, InMain lo hi f → s'.memMap (f - 256)
          + (if entryTarget (pteAt s i j) = some f then 1 else 0) + (if f ∈ H then 1 else 0)
        = s.memMap (f - 256) + (if entryTarget e = some f then 1 else 0)
          + (if f ∈ H' then 1 else 0)) (hbyte : ∀ f, InMain lo hi f → s'.memMap (f - 256) < 256)
    (hoff : ∀ f, 256 ≤ f → f < 4096 → ¬ InMain lo hi f → s'.memMap (f - 256) = s.memMap (f - 256))
    (hpage : present e → frame e < 256 ∨ InMain lo hi (frame e))
    (hnew : present e → entryTarget (pteAt s i j) ≠ some (frame e) → frame e ∉ H'
        ∧ (∀ i', UserDir i' → present (s.word i') → frame e ≠ frame (s.word i'))
        ∧ (∀ i' j', UserDir i' → j' < 1024 → ¬ (i' = i ∧ j' = j) →
            present (pteAt s i' j') → writable (pteAt s i' j') → frame (pteAt s i' j') ≠ frame e))
    (hsole : present e → writable e → InMain lo hi (frame e) ∧ frameRefs s (frame e)
          = if entryTarget (pteAt s i j) = some (frame e) then 1 else 0) : Paging lo hi H' s' := by
  have hge := h.main_ge (h.table i hi' hp).1
  -- the new state's entries and counts, read off the old ones
  have hdir : ∀ i', UserDir i' → s'.word i' = s.word i' := by
    intro i' hi''
    rw [hw, Mem.store_word, if_neg]
    have := hi''.2
    omega
  have hpte := fun i' j' (hi'' : UserDir i') (hj' : j' < 1024) =>
    h.pteAt_storePte hi' hp hj hw hi'' hj'
  have hrefs := h.frameRefs_storePte hi' hp hj hw
  have hslot : ∀ f, entryTarget (pteAt s i j) = some f →
      target s (i, j) = some f := fun f hf => by rw [target_page s hj, hf]
  refine ⟨h.bounds, hbyte, ?_, ?_, ?_, ?_, ?_, ?_⟩
  · intro f hf
    have h1 := hrefs f
    have h2 := hcount f hf
    have h3 := h.count f hf
    omega
  · intro f hf1 hf2 hf3
    rw [hoff f hf1 hf2 hf3]
    exact h.off f hf1 hf2 hf3
  · intro i' hi'' hp'
    rw [hdir i' hi''] at hp' ⊢
    obtain ⟨hin, h1⟩ := h.table i' hi'' hp'
    refine ⟨hin, ?_⟩
    have hr := hrefs (frame (s.word i'))
    have hold : entryTarget (pteAt s i j) ≠ some (frame (s.word i')) := by
      intro hof
      obtain ⟨hpo, hfo⟩ := entryTarget_eq_some.mp hof
      exact h.page_ne_table hi' hj hpo hi'' hp' hfo
    have hnw : entryTarget e ≠ some (frame (s.word i')) := by
      intro hef
      obtain ⟨hpe, hfe⟩ := entryTarget_eq_some.mp hef
      exact (hnew hpe (by rw [hfe]; exact hold)).2.1 i' hi'' hp' hfe
    rw [if_neg hold, if_neg hnw] at hr
    omega
  · intro i' j' hi'' hj' hp'
    rw [hpte i' j' hi'' hj'] at hp' ⊢
    split at hp'
    · rename_i hij
      rw [if_pos hij]
      exact hpage hp'
    · rename_i hij
      rw [if_neg hij]
      exact h.page i' j' hi'' hj' hp'
  · intro i' j' hi'' hj' hp' hw'
    rw [hpte i' j' hi'' hj'] at hp' hw' ⊢
    split at hp'
    · rename_i hij
      rw [if_pos hij] at hw' ⊢
      obtain ⟨hin, h1⟩ := hsole hp' hw'
      refine ⟨hin, ?_⟩
      have hr := hrefs (frame e)
      rw [if_pos (entryTarget_of_present hp')] at hr
      omega
    · rename_i hij
      rw [if_neg hij] at hw' ⊢
      obtain ⟨hin, h1⟩ := h.sole i' j' hi'' hj' hp' hw'
      refine ⟨hin, ?_⟩
      have hr := hrefs (frame (pteAt s i' j'))
      have hold : entryTarget (pteAt s i j) ≠ some (frame (pteAt s i' j')) := by
        intro hof
        have hx := frameRefs_one_unique h1 (mem_userSlots_page hi'' hj') (mem_userSlots_page hi' hj)
          (by rw [target_page s hj', entryTarget_of_present hp']) (hslot _ hof)
        exact hij ⟨congrArg Prod.fst hx, congrArg Prod.snd hx⟩
      have hnw : entryTarget e ≠ some (frame (pteAt s i' j')) := by
        intro hef
        obtain ⟨hpe, hfe⟩ := entryTarget_eq_some.mp hef
        exact (hnew hpe (by rw [hfe]; exact hold)).2.2 i' j' hi'' hj' hij hp' hw' hfe.symm
      rw [if_neg hold, if_neg hnw] at hr
      omega
  · intro f hf
    obtain ⟨hin, h0⟩ := h.held f (hH hf)
    refine ⟨hin, ?_⟩
    have hr := hrefs f
    have hold : entryTarget (pteAt s i j) ≠ some f := by
      intro hof
      obtain ⟨hpo, hfo⟩ := entryTarget_eq_some.mp hof
      exact h.held_ne_page (hH hf) hi' hj hpo hfo.symm
    have hnw : entryTarget e ≠ some f := by
      intro hef
      obtain ⟨hpe, hfe⟩ := entryTarget_eq_some.mp hef
      have := (hnew hpe (by rw [hfe]; exact hold)).1
      rw [hfe] at this
      exact this hf
    rw [if_neg hold, if_neg hnw] at hr
    omega

end

-- ======== a store into the directory

/-- A store into the directory leaves the entries of every other table
alone. -/
theorem Paging.pteAt_storeDir (hi' : UserDir i) (hw : s'.word = (s.store i e).word)
    (hi'' : UserDir i') (hne : i' ≠ i) (j' : Nat) : pteAt s' i' j' = pteAt s i' j' := by
  refine pteAt_congr ?_ fun hp => ?_
  · rw [hw, Mem.store_word, if_neg hne]
  · have hge := h.main_ge (h.table i' hi'' hp).1
    have hlt := hi'.2
    rw [hw, Mem.store_word, if_neg (by omega)]

end

/-- The new table is a page without present entries. -/
theorem Paging.pteAt_installTable (hi' : UserDir i) (hge : 256 ≤ f)
    (hw : s'.word = (s.store i (entry7 (f * 4096))).word) (j' : Nat) :
    pteAt s' i j' = s.word (f * 1024 + j') := by
  have hdir : s'.word i = entry7 (f * 4096) := by
    rw [hw, Mem.store_word, if_pos rfl]
  rw [pteAt_of_present (by rw [hdir]; exact present_entry7 f), hdir,
    frame_entry7, hw, Mem.store_word, if_neg]
  have := hi'.2
  omega

section

variable (h : Paging lo hi H s) (hi' : UserDir i)
include h hi'

/-- The count change of a store into a directory entry whose table is
empty before and after. -/
theorem Paging.frameRefs_storeDir (hw : s'.word = (s.store i e).word)
    (hz : ∀ j, j < 1024 → ¬ present (pteAt s i j))
    (hz' : ∀ j, j < 1024 → ¬ present (pteAt s' i j)) (g : Nat) :
    frameRefs s' g + (if entryTarget (s.word i) = some g then 1 else 0)
      = frameRefs s g + (if entryTarget e = some g then 1 else 0) := by
  have hswap := refs_swap (f := g) (t := target s) (u := target s') (mem_userSlots_table hi') (by
      intro y hy hne
      obtain ⟨hy1, hy2⟩ := mem_userSlots hy
      obtain ⟨i', j'⟩ := y
      rcases hy2 with hj' | rfl
      · rw [target_page _ hj', target_page _ hj']
        by_cases hii : i' = i
        · subst hii
          rw [entryTarget_of_absent (hz j' hj'), entryTarget_of_absent (hz' j' hj')]
        · rw [h.pteAt_storeDir hi' hw hy1 hii j']
      · rw [target_table, target_table, hw, Mem.store_word, if_neg]
        intro hii
        exact hne (by rw [hii]))
  rw [target_table, target_table, hw, Mem.store_word, if_pos rfl] at hswap
  exact hswap

/-- A store of `e` into a directory entry whose table is empty before and
after keeps the invariant when the counts follow the references and a
table that `e` enters leaves the held frames. -/
theorem Paging.storeDir (hw : s'.word = (s.store i e).word) (hH : H' ⊆ H)
    (hz : ∀ j, j < 1024 → ¬ present (pteAt s i j))
    (hz' : ∀ j, j < 1024 → ¬ present (pteAt s' i j)) (hnew : present e → frame e ∈ H ∧ frame e ∉ H')
    (hcount : ∀ f, InMain lo hi f → s'.memMap (f - 256)
          + (if entryTarget (s.word i) = some f then 1 else 0) + (if f ∈ H then 1 else 0)
        = s.memMap (f - 256) + (if entryTarget e = some f then 1 else 0)
          + (if f ∈ H' then 1 else 0)) (hbyte : ∀ f, InMain lo hi f → s'.memMap (f - 256) < 256)
    (hoff : ∀ f, 256 ≤ f → f < 4096 → ¬ InMain lo hi f → s'.memMap (f - 256) = s.memMap (f - 256)) :
    Paging lo hi H' s' := by
  have hrefs := h.frameRefs_storeDir hi' hw hz hz'
  have hdir : ∀ i', s'.word i' = if i' = i then e else s.word i' := fun i' => by
    rw [hw, Mem.store_word]
  -- a frame that is neither the old table nor the new one
  have hsame : ∀ f, (present (s.word i) → f ≠ frame (s.word i)) →
      (present e → f ≠ frame e) → frameRefs s' f = frameRefs s f := by
    intro f hold hnw
    have hr := hrefs f
    rw [if_neg, if_neg] at hr
    · exact hr
    · exact fun hc => hnw (entryTarget_eq_some.mp hc).1 (entryTarget_eq_some.mp hc).2.symm
    · exact fun hc => hold (entryTarget_eq_some.mp hc).1 (entryTarget_eq_some.mp hc).2.symm
  refine ⟨h.bounds, hbyte, ?_, ?_, ?_, ?_, ?_, ?_⟩
  · intro f hf
    have h1 := hrefs f
    have h2 := hcount f hf
    have h3 := h.count f hf
    omega
  · intro f hf1 hf2 hf3
    rw [hoff f hf1 hf2 hf3]
    exact h.off f hf1 hf2 hf3
  · intro i' hi'' hp'
    rw [hdir] at hp' ⊢
    by_cases hii : i' = i
    · rw [if_pos hii] at hp' ⊢
      obtain ⟨hin, h0⟩ := h.held _ (hnew hp').1
      have hr := hrefs (frame e)
      rw [if_pos (entryTarget_of_present hp'), if_neg fun hc =>
        h.held_ne_table (hnew hp').1 hi' (entryTarget_eq_some.mp hc).1
          (entryTarget_eq_some.mp hc).2.symm] at hr
      exact ⟨hin, by omega⟩
    · rw [if_neg hii] at hp' ⊢
      rw [hsame _ (fun hp hc => hii (h.table_inj hi'' hi' hp' hp hc)) fun he hc =>
        h.held_ne_table (hnew he).1 hi'' hp' hc.symm]
      exact h.table i' hi'' hp'
  · intro i' j' hi'' hj' hp'
    by_cases hii : i' = i
    · subst hii
      exact absurd hp' (hz' j' hj')
    · rw [h.pteAt_storeDir hi' hw hi'' hii j'] at hp' ⊢
      exact h.page i' j' hi'' hj' hp'
  · intro i' j' hi'' hj' hp' hw'
    by_cases hii : i' = i
    · subst hii
      exact absurd hp' (hz' j' hj')
    · rw [h.pteAt_storeDir hi' hw hi'' hii j'] at hp' hw' ⊢
      rw [hsame _ (fun hp => h.page_ne_table hi'' hj' hp' hi' hp) fun he hc =>
        h.held_ne_page (hnew he).1 hi'' hj' hp' hc.symm]
      exact h.sole i' j' hi'' hj' hp' hw'
  · intro f hf
    rw [hsame f (fun hp => h.held_ne_table (hH hf) hi' hp) fun he hc => (hnew he).2 (hc ▸ hf)]
    exact h.held f (hH hf)

/-- Entering a held, empty page in an absent directory entry keeps the
invariant: the page leaves `H` and becomes a page table. -/
theorem Paging.installTable (ha : ¬ present (s.word i)) (hf : f ∈ H)
    (hz : ∀ k, k < 1024 → ¬ present (s.word (f * 1024 + k)))
    (hw : s'.word = (s.store i (entry7 (f * 4096))).word)
    (hm : s'.memMap = s.memMap) : Paging lo hi (H.erase f) s' := by
  have hge := h.main_ge (h.held f hf).1
  refine h.storeDir hi' hw (Finset.erase_subset f H) (fun j _ hp => ha (dir_present_of_pte hp))
    (fun j hj => ?_) (fun _ => ?_) (fun g hg => ?_) (by rw [hm]; exact h.byte)
    fun g _ _ _ => by rw [hm]
  · rw [Paging.pteAt_installTable hi' hge hw j]
    exact hz j hj
  · rw [frame_entry7]
    exact ⟨hf, Finset.notMem_erase f H⟩
  · rw [hm, entryTarget_of_absent ha, entryTarget_of_present (present_entry7 f), frame_entry7]
    by_cases hgf : f = g
    · subst hgf
      simp [hf]
    · simp [hgf, Ne.symm hgf]

/-- Clearing the directory entry of an empty page table keeps the
invariant, with one count less for the table's page. -/
theorem Paging.removeTable (hp : present (s.word i))
    (hz : ∀ j, j < 1024 → ¬ present (pteAt s i j)) (hw : s'.word = (s.store i 0).word)
    (hcount : ∀ f, InMain lo hi f → s'.memMap (f - 256)
      + (if f = frame (s.word i) then 1 else 0) = s.memMap (f - 256))
    (hoff : ∀ f, 256 ≤ f → f < 4096 → ¬ InMain lo hi f → s'.memMap (f - 256) = s.memMap (f - 256)) :
    Paging lo hi H s' := by
  have habs : ¬ present (s'.word i) := by
    rw [hw, Mem.store_word, if_pos rfl]
    exact not_present_zero
  refine h.storeDir hi' hw (Finset.Subset.refl H) hz (fun j _ hp' => habs (dir_present_of_pte hp'))
    (fun hc => absurd hc not_present_zero) (fun g hg => ?_) (fun g hg => ?_) hoff
  · rw [entryTarget_of_present hp, entryTarget_zero, ← hcount g hg]
    simp [eq_comm]
  · have hc := hcount g hg
    have hb := h.byte g hg
    omega

end

-- ======== stores that no table sees

/-- A change of the counts against the held frames, where directory and
tables stay: taking a page from the allocator or giving one back. -/
theorem Paging.recount (h : Paging lo hi H s) (hdir : ∀ i, UserDir i → s'.word i = s.word i)
    (hpte : ∀ i j, UserDir i → j < 1024 → pteAt s' i j = pteAt s i j)
    (hcount : ∀ f, InMain lo hi f → s'.memMap (f - 256) + (if f ∈ H then 1 else 0)
        = s.memMap (f - 256) + (if f ∈ H' then 1 else 0))
    (hbyte : ∀ f, InMain lo hi f → s'.memMap (f - 256) < 256)
    (hoff : ∀ f, 256 ≤ f → f < 4096 → ¬ InMain lo hi f → s'.memMap (f - 256) ≠ 0)
    (hheld : ∀ f ∈ H', InMain lo hi f ∧ frameRefs s f = 0) : Paging lo hi H' s' := by
  have hrefs := frameRefs_congr hdir hpte
  refine ⟨h.bounds, hbyte, ?_, hoff, ?_, ?_, ?_, ?_⟩
  · intro f hf
    have h1 := hcount f hf
    have h2 := h.count f hf
    rw [hrefs]
    omega
  · intro i hi' hp
    rw [hdir i hi'] at hp ⊢
    rw [hrefs]
    exact h.table i hi' hp
  · intro i j hi' hj hp
    rw [hpte i j hi' hj] at hp ⊢
    exact h.page i j hi' hj hp
  · intro i j hi' hj hp hwr
    rw [hpte i j hi' hj] at hp hwr ⊢
    rw [hrefs]
    exact h.sole i j hi' hj hp hwr
  · intro f hf
    rw [hrefs]
    exact hheld f hf

/-- The invariant reads the directory, the tables and the counts. -/
theorem Paging.congr (h : Paging lo hi H s) (hdir : ∀ i, UserDir i → s'.word i = s.word i)
    (htab : ∀ i j, UserDir i → present (s.word i) → j < 1024 → s'.word (frame (s.word i) * 1024 + j)
        = s.word (frame (s.word i) * 1024 + j)) (hm : s'.memMap = s.memMap) : Paging lo hi H s' :=
  h.recount hdir (fun i j hi' hj => pteAt_congr (hdir i hi') fun hp => htab i j hi' hp hj)
    (fun f _ => by rw [hm]) (by rw [hm]; exact h.byte) (by rw [hm]; exact h.off) h.held

/-- A change of longs inside one page that is neither the directory nor
a page table. -/
structure DataChange (g : Nat) (s s' : Mem) : Prop where
  out : ∀ k, k / 1024 ≠ g → s'.word k = s.word k
  map : s'.memMap = s.memMap
  high : s'.highMemory = s.highMemory

/-- No directory entry points at page `g`, and `g` is not the directory
itself. -/
def NotTable (s : Mem) (g : Nat) : Prop :=
  g ≠ 0 ∧ ∀ i, UserDir i → present (s.word i) → frame (s.word i) ≠ g

theorem DataChange.dir (hc : DataChange g s s')
    (hg : g ≠ 0) (hi' : UserDir i) : s'.word i = s.word i := by
  refine hc.out i ?_
  have := hi'.2
  omega

theorem DataChange.pte_eq (hc : DataChange g s s')
    (hg : NotTable s g) (hi' : UserDir i) (hj : j < 1024) : pteAt s' i j = pteAt s i j := by
  refine pteAt_congr (hc.dir hg.1 hi') fun hp => hc.out _ ?_
  have := hg.2 i hi' hp
  omega

theorem Paging.dataChange (h : Paging lo hi H s)
    (hc : DataChange g s s') (hg : NotTable s g) : Paging lo hi H s' := by
  refine h.congr (fun i hi' => hc.dir hg.1 hi') (fun i j hi' hp hj => ?_) hc.map
  refine hc.out _ ?_
  have := hg.2 i hi' hp
  omega

/-- A held page is no page table. -/
theorem Paging.held_notTable (h : Paging lo hi H s) (hf : f ∈ H) : NotTable s f := by
  have hge := h.main_ge (h.held f hf).1
  refine ⟨by omega, fun i hi' hp hc => ?_⟩
  exact h.held_ne_table hf hi' hp hc.symm

/-- A mapped page of main memory is no page table. -/
theorem Paging.page_notTable (h : Paging lo hi H s)
    (hi' : UserDir i) (hj : j < 1024) (hp : present (pteAt s i j))
    (hm : InMain lo hi (frame (pteAt s i j))) : NotTable s (frame (pteAt s i j)) := by
  have hge := h.main_ge hm
  refine ⟨by omega, fun i' hi'' hp' hc => ?_⟩
  exact h.page_ne_table hi' hj hp hi'' hp' hc.symm

-- ======== allocation

/-- What the scan finds: a free page, in range. -/
theorem scanFree_some {m : Nat → Nat} {n : Nat} (h : scanFree m n = some i) : i < n ∧ m i = 0 := by
  induction n with
  | zero => cases h
  | succ n ih =>
    simp only [scanFree] at h
    split at h
    · rename_i h0
      cases h
      exact ⟨by omega, h0⟩
    · obtain ⟨hlt, h0⟩ := ih h
      exact ⟨by omega, h0⟩

/-- `get_free_page`, when it succeeds: a cleared page of main memory
that nothing refers to, held by the caller. -/
structure Fresh (lo hi : Nat) (H : Finset Nat) (s : Mem) (page : Nat)
    (s' : Mem) (f : Nat) : Prop where
  addr : page = f * 4096
  main : InMain lo hi f
  notHeld : f ∉ H
  refs : frameRefs s f = 0
  notTable : NotTable s f
  out : ∀ k, k / 1024 ≠ f → s'.word k = s.word k
  zero : ∀ k, k < 1024 → s'.word (f * 1024 + k) = 0
  map : s'.memMap = update s.memMap (f - 256) 1
  high : s'.highMemory = s.highMemory
  paging : Paging lo hi (insert f H) s'

/-- Clearing a page is a change inside that page. -/
theorem Mem.clearPage_dataChange (s : Mem) (f : Nat) : DataChange f s (s.clearPage (f * 4096)) := by
  refine ⟨fun k hk => ?_, rfl, rfl⟩
  unfold Mem.clearPage
  rw [Nat.mul_div_cancel _ (by omega)]
  exact if_neg hk

theorem Mem.clearPage_word (s : Mem) {k : Nat} (hk : k < 1024) :
    (s.clearPage (f * 4096)).word (f * 1024 + k) = 0 := by
  unfold Mem.clearPage
  rw [Nat.mul_div_cancel _ (by omega)]
  exact if_pos (by omega)

/-- `get_free_page` by frame: some frame with count zero is marked used
and cleared. -/
theorem getFreePage_eq (hg : getFreePage s = some (page, s')) :
    ∃ f, 256 ≤ f ∧ f < 4096 ∧ s.memMap (f - 256) = 0 ∧ page = f * 4096
      ∧ s' = ({ s with
          memMap := update s.memMap (f - 256) 1 } : Mem).clearPage (f * 4096) := by
  unfold getFreePage at hg
  split at hg
  · cases hg
  rename_i i hscan
  obtain ⟨hlt, h0⟩ := scanFree_some hscan
  have hpage : i * 4096 + lowMem = (i + 256) * 4096 := by
    unfold lowMem
    omega
  simp only [hpage, Option.some.injEq, Prod.mk.injEq] at hg
  obtain ⟨rfl, rfl⟩ := hg
  unfold pagingPages at hlt
  refine ⟨i + 256, by omega, by omega, ?_, rfl, ?_⟩
  · rw [Nat.add_sub_cancel]
    exact h0
  · rw [Nat.add_sub_cancel]

/-- The specification of `get_free_page`. -/
theorem Paging.fresh_of_getFreePage (h : Paging lo hi H s)
    (hg : getFreePage s = some (page, s')) : ∃ f, Fresh lo hi H s page s' f := by
  obtain ⟨f, hge, hlt, h0, rfl, rfl⟩ := getFreePage_eq hg
  -- a count of zero inside `mem_map` is a page of main memory
  have hmain : InMain lo hi f := by
    by_contra hn
    exact h.off f hge hlt hn h0
  have hc := h.count f hmain
  rw [h0] at hc
  have hr : frameRefs s f = 0 := by omega
  have hnH : f ∉ H := by
    intro hH
    rw [if_pos hH] at hc
    omega
  have hnt : NotTable s f := by
    refine ⟨by omega, fun i' hi' hp he => ?_⟩
    have hpos := frameRefs_table_pos hi' hp
    rw [he] at hpos
    omega
  generalize hs1 : (Mem.mk s.word (update s.memMap (f - 256) 1) s.highMemory) = s1
  have hw1 : s1.word = s.word := by rw [← hs1]
  have hm1 : s1.memMap = update s.memMap (f - 256) 1 := by
    rw [← hs1]
  have hh1 : s1.highMemory = s.highMemory := by rw [← hs1]
  have hdc := s1.clearPage_dataChange f
  have hnt1 : NotTable s1 f := by
    unfold NotTable
    rw [hw1]
    exact hnt
  have hp1 : Paging lo hi (insert f H) s1 := by
    refine h.recount (fun i _ => by rw [hw1]) (fun i j _ _ => pteAt_of_word hw1) ?_ ?_ ?_ ?_
    · intro g hgm
      have hge' := h.main_ge hgm
      rw [hm1, update_apply]
      by_cases hgf : g = f
      · subst hgf
        simp [hnH, h0]
      · rw [if_neg (by omega)]
        simp [hgf]
    · intro g hgm
      rw [hm1, update_apply]
      split
      · omega
      · exact h.byte g hgm
    · intro g hg1 hg2 hg3
      have hne : g ≠ f := by
        rintro rfl
        exact hg3 hmain
      rw [hm1, update_apply, if_neg (by omega)]
      exact h.off g hg1 hg2 hg3
    · intro g hgm
      rcases Finset.mem_insert.mp hgm with rfl | hgm
      · exact ⟨hmain, hr⟩
      · exact h.held g hgm
  refine ⟨f, rfl, hmain, hnH, hr, hnt, ?_, ?_, ?_, ?_, ?_⟩
  · intro k hk
    rw [hdc.out k hk, hw1]
  · intro k hk
    exact s1.clearPage_word hk
  · rw [hdc.map, hm1]
  · rw [hdc.high, hh1]
  · exact hp1.dataChange hdc hnt1

end LearnLinux.Mm
