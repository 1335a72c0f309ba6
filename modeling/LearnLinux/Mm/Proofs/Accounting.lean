/-
Frame accounting, over every run of the memory manager.

# The bound on references

`mem_map` counts in a byte, so the count is exact only while no frame
has more than 255 references. Nothing in the code checks that. What
keeps it true is where sharing can put a page: `copy_page_tables` and
`try_to_share` both copy an entry to the SAME offset of another task's
64 Mb. So all the entries that map a frame of main memory sit at one
offset (`Home`), at most one per address space, and there are 64
address spaces.

`Home` is kept by every operation for the same reason, stated once in
`home_of_origin`: after a step each entry either has an origin, an
entry of the state before at the same offset with the same frame, or
maps a frame that was free and now has this one reference.
-/
import LearnLinux.Mm.Proofs.Demand
import LearnLinux.Mm.Proofs.ForkRefines
import LearnLinux.Mm.Proofs.Free

namespace LearnLinux.Mm

open Lib

variable {lo hi f i j i' cur address n size p c : Nat} {s s' : Mem} {T : Tasks} {current : Task}
variable {r : Int} {o : MmOp} {t : Trap}

-- ======== one home each

/-- Entries that map the same frame of main memory sit at the same
offset of their address spaces. -/
def Home (lo hi : Nat) (s : Mem) : Prop :=
  ∀ i j i' j', UserDir i → j < 1024 → UserDir i' → j' < 1024 →
    present (pteAt s i j) → present (pteAt s i' j') → InMain lo hi (frame (pteAt s i j)) →
    frame (pteAt s i j) = frame (pteAt s i' j') → i % 16 = i' % 16 ∧ j = j'

/-- Where an entry of `s'` comes from: an entry of `s` at the same
offset with the same frame, or a free frame. -/
def Origin (s s' : Mem) (i j : Nat) : Prop :=
  (∃ i₀, UserDir i₀ ∧ i₀ % 16 = i % 16 ∧ present (pteAt s i₀ j)
      ∧ frame (pteAt s i₀ j) = frame (pteAt s' i j)) ∨ frameRefs s (frame (pteAt s' i j)) = 0
      ∧ frameRefs s' (frame (pteAt s' i j)) = 1

theorem Home.of_origin (hh : Home lo hi s)
    (ho : ∀ i j, UserDir i → j < 1024 → present (pteAt s' i j) →
      InMain lo hi (frame (pteAt s' i j)) → Origin s s' i j) : Home lo hi s' := by
  intro i j i' j' hi' hj hi'' hj' hp hp' hin hfr
  -- a frame with one reference has one slot
  have hone : frameRefs s' (frame (pteAt s' i j)) = 1 → i % 16 = i' % 16 ∧ j = j' := by
    intro h1
    have := frameRefs_one_unique h1 (mem_userSlots_page hi' hj) (mem_userSlots_page hi'' hj')
      (by rw [target_page _ hj, entryTarget_of_present hp])
      (by rw [target_page _ hj', entryTarget_of_present hp', hfr])
    obtain ⟨rfl, rfl⟩ := Prod.mk.inj this
    exact ⟨rfl, rfl⟩
  rcases ho i j hi' hj hp hin with ⟨i0, hu, hm, hpo, hfo⟩ | ⟨-, h1⟩
  · rcases ho i' j' hi'' hj' hp' (by rw [← hfr]; exact hin) with
      ⟨i1, hu', hm', hpo', hfo'⟩ | ⟨-, h1⟩
    · have := hh i0 j i1 j' hu hj hu' hj' hpo hpo' (by rw [hfo]; exact hin) (by rw [hfo, hfo', hfr])
      omega
    · rw [← hfr] at h1
      exact hone h1
  · exact hone h1

/-- At most one reference per address space. -/
theorem Paging.refs_le_of_home (h : Paging lo hi ∅ s) (hh : Home lo hi s)
    (hf : InMain lo hi f) : frameRefs s f ≤ 64 := by
  refine refs_le_of_injOn (fun x => x.1 / 16) ?_ ?_
  · intro x hx _
    have := (mem_userSlots hx).1.2
    omega
  · intro x hx y hy hfx hfy hxy
    obtain ⟨hix, hjx⟩ := mem_userSlots hx
    obtain ⟨hiy, hjy⟩ := mem_userSlots hy
    obtain ⟨i, j⟩ := x
    obtain ⟨i', j'⟩ := y
    simp only at hix hjx hiy hjy hxy
    -- a page table has a single reference anyway
    have htab : ∀ {a : Nat}, UserDir a → entryTarget (s.word a) = some f → frameRefs s f = 1 := by
      intro a ha hta
      obtain ⟨hp, rfl⟩ := entryTarget_eq_some.mp hta
      exact (h.table a ha hp).2
    rcases hjx with hj | rfl
    · rcases hjy with hj' | rfl
      · rw [target_page _ hj] at hfx
        rw [target_page _ hj'] at hfy
        obtain ⟨hp, hfr⟩ := entryTarget_eq_some.mp hfx
        obtain ⟨hp', hfr'⟩ := entryTarget_eq_some.mp hfy
        have := hh i j i' j' hix hj hiy hj' hp hp' (by rw [hfr]; exact hf) (by rw [hfr, hfr'])
        rw [Prod.mk.injEq]
        omega
      · rw [target_table] at hfy
        exact frameRefs_one_unique (htab hiy hfy) hx hy hfx (by rw [target_table]; exact hfy)
    · rw [target_table] at hfx
      exact frameRefs_one_unique (htab hix hfx) hx hy (by rw [target_table]; exact hfx) hfy

-- ======== the invariant

/-- What every run keeps: the page tables are well formed with exact
counts, the kernel's part of them is as at boot, and every frame has
one home. -/
structure Acct (lo hi : Nat) (s : Mem) : Prop where
  paging : Paging lo hi ∅ s
  high : s.highMemory = hi * 4096
  kernelDir : ∀ i, i < 4 → s.word i = entry7 ((i + 1) * 4096)
  kernelTable : ∀ k, k < 4096 → s.word (1024 + k) = entry7 (k * 4096)
  home : Home lo hi s

/-- The invariant after a step that changes user directory entries and
main memory only. -/
theorem Acct.of_step (ha : Acct lo hi s) (hp : Paging lo hi ∅ s')
    (hhigh : s'.highMemory = s.highMemory)
    (hlow : ∀ k, k < 256 * 1024 → ¬ UserDir k → s'.word k = s.word k)
    (ho : ∀ i j, UserDir i → j < 1024 → present (pteAt s' i j) →
      InMain lo hi (frame (pteAt s' i j)) → Origin s s' i j) : Acct lo hi s' := by
  refine ⟨hp, by rw [hhigh, ha.high], ?_, ?_, ha.home.of_origin ho⟩
  · intro i hi'
    rw [hlow i (by omega) (fun hc => by have := hc.1; omega), ha.kernelDir i hi']
  · intro k hk
    rw [hlow _ (by omega) (fun hc => by have := hc.2; omega), ha.kernelTable k hk]

/-- An unchanged entry is its own origin. -/
theorem origin_of_eq (hi' : UserDir i)
    (he : pteAt s' i j = pteAt s i j) (hp : present (pteAt s' i j)) : Origin s s' i j := by
  refine .inl ⟨i, hi', rfl, ?_, ?_⟩
  · rw [← he]
    exact hp
  · rw [he]

/-- An entry `page | 7` of a page that was free: its frame's one
reference. -/
theorem origin_of_fresh (hpg : Paging lo hi ∅ s')
    (hi' : UserDir i) (hj : j < 1024) (h0 : frameRefs s f = 0)
    (he : pteAt s' i j = entry7 (f * 4096)) : Origin s s' i j := by
  have hsole := hpg.sole i j hi' hj (by rw [he]; exact present_entry7 f)
    (by rw [he]; exact writable_entry7 f)
  rw [he, frame_entry7] at hsole
  refine .inr ?_
  rw [he, frame_entry7]
  exact ⟨h0, hsole.2⟩

/-- The counts leave room for another reference. -/
theorem Acct.count_le (ha : Acct lo hi s) (hf : InMain lo hi f) : s.memMap (f - 256) ≤ 64 := by
  rw [ha.paging.count f hf, if_neg (Finset.notMem_empty f), Nat.add_zero]
  exact ha.paging.refs_le_of_home ha.home hf

theorem Acct.room (ha : Acct lo hi s) : Room lo hi s := by
  intro f hf
  have := ha.count_le hf
  omega

/-- The kernel's 16 Mb are present and writable throughout, so an
address that faults is a user address. -/
theorem Acct.userAddr (ha : Acct lo hi s) {a : Nat} (hlt : a < 2 ^ 32)
    (hf : ¬ (present (entryOf s a) ∧ writable (entryOf s a))) : UserAddr a := by
  refine ⟨?_, hlt⟩
  by_contra hn
  apply hf
  have hd : dirNr a < 4 := by
    unfold dirNr
    omega
  have hj := pageNr_lt a
  have hdir := ha.kernelDir _ hd
  have he : entryOf s a = entry7 ((dirNr a * 1024 + pageNr a) * 4096) := by
    rw [entryOf_eq, pteAt_of_present (by rw [hdir]; exact present_entry7 _), hdir,
      frame_entry7, show (dirNr a + 1) * 1024 + pageNr a
        = 1024 + (dirNr a * 1024 + pageNr a) by omega, ha.kernelTable _ (by omega)]
  rw [he]
  exact ⟨present_entry7 _, writable_entry7 _⟩

-- ======== one operation

/-- A fresh page put in place. -/
theorem Acct.of_pagePut (ha : Acct lo hi s) {page : Nat}
    {s1 s2 : Mem} (hi' : UserDir i) (hj : j < 1024)
    (hf : Fresh lo hi ∅ s page s1 f) (hd : DataChange f s1 s2)
    (hp : PagePut lo hi {f} s2 i j f s') : Acct lo hi s' := by
  have hpg : Paging lo hi ∅ s' := by
    have := hp.paging
    rwa [Finset.erase_singleton] at this
  have hge := ha.paging.main_ge hf.main
  have hnt := hf.paging.held_notTable (Finset.mem_insert_self f ∅)
  refine ha.of_step hpg ?_ ?_ ?_
  · rw [hp.high, hd.high, hf.high]
  · intro k hk hu
    rw [hp.low k hk (fun hc => hu (by rw [hc]; exact hi')), hd.out k (by omega), hf.low hk]
  · intro a b hua hb hpr _
    by_cases hab : a = i ∧ b = j
    · obtain ⟨rfl, rfl⟩ := hab
      exact origin_of_fresh hpg hi' hj hf.refs hp.self
    · refine origin_of_eq hua ?_ hpr
      rw [hp.other a b hua hb hab, hd.pte_eq hnt hua hb, hf.pte_eq hua hb]

theorem DataChange.refl (f : Nat) (s : Mem) : DataChange f s s :=
  ⟨fun _ _ => rfl, rfl, rfl⟩

section

variable (ha : Acct lo hi s)
include ha

/-- `un_wp_page`. -/
theorem Acct.of_unWp (hi' : UserDir i)
    (hj : j < 1024) (hp : present (pteAt s i j)) (hu : UnWp lo hi ∅ s i j s') : Acct lo hi s' := by
  refine ha.of_step hu.paging hu.high (fun k hk _ => hu.low k hk) ?_
  intro a b hua hb hpr _
  by_cases hab : a = i ∧ b = j
  · obtain ⟨rfl, rfl⟩ := hab
    rcases hu.self with ⟨-, -, he⟩ | ⟨-, f, -, h0, he⟩
    · refine .inl ⟨a, hua, rfl, hp, ?_⟩
      rw [he, frame_setW]
    · exact origin_of_fresh hu.paging hi' hj h0 he
  · exact origin_of_eq hua (hu.other a b hua hb hab) hpr

/-- A store through a sole reference. -/
theorem Acct.of_stored {off v : Nat}
    (hp : present (pteAt s i j)) (hst : Stored lo hi ∅ s i j off v s') : Acct lo hi s' := by
  refine ha.of_step hst.paging hst.high (fun k hk _ => hst.low k hk) ?_
  intro a b hua hb hpr _
  by_cases hab : a = i ∧ b = j
  · obtain ⟨rfl, rfl⟩ := hab
    refine .inl ⟨_, hua, rfl, hp, ?_⟩
    rw [hst.self, frame_setDirty]
  · exact origin_of_eq hua (hst.other a b hua hb hab) hpr

/-- A share at offset `address`: both entries sit at that offset. -/
theorem Acct.of_shareHit (hi' : UserDir i) (hj : j < 1024) (hi'' : UserDir i')
    (hmod : i % 16 = i' % 16) (hs : ShareHit lo hi s i j i' s') : Acct lo hi s' := by
  obtain ⟨hp, -, -, s1, hcase, hsh⟩ := hs
  have hk := ha.paging.tableKept hi'' hcase
  have hlow1 : ∀ k, k < 256 * 1024 → ¬ UserDir k → s1.word k = s.word k := by
    intro k hk' hu
    rcases hcase with ⟨-, rfl⟩ | ⟨-, ht⟩
    · rfl
    · exact ht.low k hk' fun hc => hu (by rw [hc]; exact hi'')
  have hhigh1 : s1.highMemory = s.highMemory := by
    rcases hcase with ⟨-, rfl⟩ | ⟨-, ht⟩
    · rfl
    · exact ht.high
  have hpte := hk.pte i j hi' hj
  refine ha.of_step hsh.paging (by rw [hsh.high, hhigh1]) ?_ ?_
  · intro k hk' hu
    rw [hsh.low k hk', hlow1 k hk' hu]
  · intro a b hua hb hpr _
    by_cases hsrc : a = i ∧ b = j
    · obtain ⟨rfl, rfl⟩ := hsrc
      refine .inl ⟨a, hua, rfl, hp, ?_⟩
      rw [hsh.src, frame_clearW, hpte]
    by_cases hdst : a = i' ∧ b = j
    · obtain ⟨rfl, rfl⟩ := hdst
      refine .inl ⟨i, hi', hmod, hp, ?_⟩
      rw [hsh.dst, frame_clearW, hpte]
    · refine origin_of_eq hua ?_ hpr
      rw [hsh.other a b hua hb hsrc hdst, hk.pte a b hua hb]

/-- `do_no_page`. -/
theorem Acct.of_noPage (hT : TaskSpaces T) (hcur : cur < nrTasks)
    (htask : T.task cur = some current) (haddr : UserAddr address)
    (hn : NoPage lo hi T cur current address s s') : Acct lo hi s' := by
  have hj := pageNr_lt address
  cases hn with
  | empty _ hf hp =>
    exact ha.of_pagePut haddr.dir hj hf (DataChange.refl _ _) hp
  | loaded _ _ _ hf hd _ hp => exact ha.of_pagePut haddr.dir hj hf hd hp
  | shared hx hin _ hsw =>
    obtain ⟨hlt, -, hdir, -⟩ := hT.fault_slots hcur htask haddr.2 hin
    have hhit := hsw.hit
    have hlt : dirNr (faultOffset current address) < 16 := by
      unfold taskSize at hlt
      unfold dirNr
      omega
    have h1 := hsw.pos
    have h2 : _ < 64 := hsw.lt
    rw [hdir] at hhit
    refine ha.of_shareHit ⟨by omega, by omega⟩ (pageNr_lt _) haddr.dir ?_ hhit
    omega

/-- `copy_page_tables` between user ranges of two tasks. -/
theorem Acct.of_dirsCopied {iF iT : Nat} (hF : 4 ≤ iF) (hF' : iF + n ≤ 1024) (hT : 4 ≤ iT)
    (hT' : iT + n ≤ 1024) (hmod : iF % 16 = iT % 16)
    (hd : DirsCopied lo hi ∅ s iF iT n s') : Acct lo hi s' := by
  refine ha.of_step hd.paging hd.high ?_ ?_
  · intro k hk hu
    exact hd.low k hk fun hc => hu ⟨by omega, by omega⟩
  intro a b hua hb hpr _
  by_cases hdst : iT ≤ a ∧ a < iT + n
  · -- the child's entry: its origin is the parent's
    obtain ⟨d, rfl⟩ := Nat.exists_eq_add_of_le hdst.1
    have he := hd.dst d b (by omega) hb
    by_cases hps : present (pteAt s (iF + d) b)
    · rw [if_pos hps] at he
      refine .inl ⟨iF + d, ⟨by omega, by omega⟩, by omega, hps, ?_⟩
      rw [he, frame_clearW]
    · rw [if_neg hps] at he
      rw [he] at hpr
      exact absurd hpr not_present_zero
  by_cases hsrc : iF ≤ a ∧ a < iF + n
  · obtain ⟨d, rfl⟩ := Nat.exists_eq_add_of_le hsrc.1
    obtain ⟨hp, -, hf⟩ := kept_of_clearW (hd.src d b (by omega) hb)
    exact .inl ⟨iF + d, hua, rfl, hp.mp hpr, hf.symm⟩
  · exact origin_of_eq hua (hd.other a b hua hb hsrc hdst) hpr

/-- The first fork: the child's entries map low pages only. -/
theorem Acct.of_firstFork (hi'' : UserDir i') (hd : FirstFork lo hi ∅ s i' s') : Acct lo hi s' := by
  refine ha.of_step hd.paging hd.high ?_ ?_
  · intro k hk hu
    exact hd.low k hk fun hc => hu (by rw [hc]; exact hi'')
  intro a b hua hb hpr hin
  by_cases hai : a = i'
  · subst hai
    have := hd.dst b hb hpr
    have := ha.paging.main_ge hin
    omega
  · exact origin_of_eq hua (hd.other a b hua hb hai) hpr

/-- `free_page_tables`. -/
theorem Acct.of_dirsFreed (hi' : 4 ≤ i)
    (hn : i + n ≤ 1024) (hd : DirsFreed lo hi ∅ s i n s') : Acct lo hi s' := by
  refine ha.of_step hd.paging hd.high ?_ ?_
  · intro k hk hu
    exact hd.low k hk fun hc => hu ⟨by omega, by omega⟩
  intro a b hua hb hpr _
  by_cases hai : i ≤ a ∧ a < i + n
  · exact absurd (dir_present_of_pte hpr) (hd.gone a hai.1 hai.2)
  · exact origin_of_eq hua (hd.other a b hua hb hai) hpr

end

-- ======== one step

theorem dirCount_le (h : size ≤ taskSize) : dirCount size ≤ 16 := by
  unfold taskSize at h
  unfold dirCount
  omega

theorem ranges_of_tasks (hp : p < nrTasks)
    (hc : c < nrTasks) (hp0 : p ≠ 0) (hc0 : c ≠ 0) (hne : p ≠ c) (hs : size ≤ taskSize) :
    Ranges (p * taskSize) (c * taskSize) (dirCount size) := by
  have := dirCount_le hs
  unfold nrTasks at hp hc
  unfold taskSize
  constructor <;> omega

/-- `copy_page_tables` as `copy_mem` calls it: for the first task one
table at most, for another the tables of its range. -/
theorem Acct.copied_cases (ha : Acct lo hi s) (hr : (MmOp.copyPageTables p c size).ready s)
    (hcopy : copyPageTables (p * taskSize) (c * taskSize) size s = .ok (r, s')) :
    p = 0 ∧ (s' = s ∨ FirstFork lo hi ∅ s (16 * c) s') ∨ p ≠ 0 ∧ ∃ m, m ≤ 16 ∧
      (r = 0 → m = dirCount size) ∧ DirsCopied lo hi ∅ s (16 * p) (16 * c) m s' := by
  obtain ⟨hp, hc, hc0, hne, hs, hp0⟩ := hr
  have hle := dirCount_le hs
  have hp16 := dirNr_task hp
  have hc16 := dirNr_task hc
  have hplt : p < 64 := hp
  have hclt : c < 64 := hc
  by_cases h0 : p = 0
  · subst h0
    rw [Nat.zero_mul] at hcopy
    have hone : dirCount size ≤ 1 := by
      unfold dirCount
      omega
    have hff := ha.paging.firstFork (fun k hk => ha.kernelTable k (by omega))
      (ha.kernelDir 0 (by omega)) (by rw [hc16]; exact ⟨by omega, by omega⟩) hone hcopy
    rw [hc16] at hff
    exact .inl ⟨rfl, hff⟩
  · obtain ⟨-, -, m, hm, hr, hd⟩ := ha.paging.dirsCopied_of_copyPageTables
      (ranges_of_tasks hp hc h0 hc0 hne hs) (by
        intro f hf
        have h1 := ha.count_le hf
        have h2 := ha.paging.rectRefs_le_map (i := dirNr (p * taskSize))
          (n := dirCount size) (by omega) (by omega) hf
        omega)
      hcopy
    rw [hp16, hc16] at hd
    exact .inr ⟨h0, m, by omega, hr, hd⟩

theorem Acct.of_copyPageTables (ha : Acct lo hi s) (hr : (MmOp.copyPageTables p c size).ready s)
    (hcopy : copyPageTables (p * taskSize) (c * taskSize) size s = .ok (r, s')) :
    Acct lo hi s' := by
  have hcase := ha.copied_cases hr hcopy
  obtain ⟨hp, hc, hc0, -⟩ := hr
  unfold nrTasks at hp hc
  rcases hcase with ⟨-, rfl | hff⟩ | ⟨h0, m, hm, -, hd⟩
  · exact ha
  · exact ha.of_firstFork ⟨by omega, by omega⟩ hff
  · exact ha.of_dirsCopied (by omega) (by omega) (by omega) (by omega) (by omega) hd

/-- `free_page_tables` as `release` calls it. -/
theorem Acct.freePageTables_ok (ha : Acct lo hi s) {t : Nat}
    (ht : t < nrTasks) (ht0 : t ≠ 0) (hs : size ≤ taskSize) :
    ∃ s', freePageTables (t * taskSize) size s = .ok s'
      ∧ DirsFreed lo hi ∅ s (16 * t) (dirCount size) s' := by
  have hle := dirCount_le hs
  have h16 := dirNr_task ht
  have htlt : t < 64 := ht
  rw [← h16]
  refine ha.paging.freePageTables_user ha.high ?_ ?_ ?_ ?_
  all_goals
    unfold taskSize
    omega

/-- Every operation keeps the invariant. -/
theorem Acct.step (ha : Acct lo hi s) (hr : o.ready s)
    (hs : o.step s = some s') : Acct lo hi s' := by
  have hexec := ok_of_toOption hs
  cases o with
  | getEmptyPage address =>
    obtain ⟨hlt, habs⟩ := hr
    have hu := ha.userAddr hlt fun hc => habs hc.1
    obtain ⟨page, f, s1, hf, hp, -⟩ :=
      ha.paging.pagePut_of_getEmptyPage hu.dir habs hexec
    exact ha.of_pagePut hu.dir (pageNr_lt _) hf (DataChange.refl _ _) hp
  | doNoPage T cur current address =>
    obtain ⟨hT, hcur, htask, hlt, habs⟩ := hr
    have hu := ha.userAddr hlt fun hc => habs hc.1
    exact ha.of_noPage hT hcur htask hu
      (ha.paging.noPage_of_doNoPage hT hcur htask hlt hu.dir habs ha.room hexec)
  | copyPageTables p c size =>
    obtain ⟨⟨r, s1⟩, hcopy, hret⟩ := bind_eq_ok hexec
    cases hret
    exact ha.of_copyPageTables hr hcopy
  | unWpPage address =>
    obtain ⟨hlt, hp, hw⟩ := hr
    have hu := ha.userAddr hlt fun hc => hw hc.2
    exact ha.of_unWp hu.dir (pageNr_lt _) hp
      (ha.paging.unWp_of_unWpPage hu.dir (pageNr_lt _) hp hexec)
  | freePageTables t size =>
    obtain ⟨ht, ht0, hsz⟩ := hr
    have htlt : t < 64 := ht
    have hle := dirCount_le hsz
    obtain ⟨s1, hs1, hd⟩ := ha.freePageTables_ok ht ht0 hsz
    obtain rfl : s1 = s' := Except.ok.inj (hs1.symm.trans hexec)
    exact ha.of_dirsFreed (by omega) (by omega) hd

-- ======== what free_page sees

/-- A page that has been taken and not yet entered can be given back. -/
theorem freePage_held (h : Paging lo hi {f} s) (hhigh : s.highMemory = hi * 4096) :
    freePage (f * 4096) s = .ok (s.decMap (f - 256)) := by
  have hmem := Finset.mem_singleton_self f
  have hin := (h.held f hmem).1
  have hc := h.count f hin
  rw [if_pos hmem] at hc
  exact freePage_main h hhigh hin (by omega)

/-- `get_empty_page` fails for want of memory only. -/
theorem Acct.getEmptyPage_error (ha : Acct lo hi s)
    (hg : getEmptyPage address s = .error t) : t = .oom := by
  unfold getEmptyPage at hg
  split at hg
  · cases hg
    rfl
  rename_i page s1 hfree
  obtain ⟨f, hf⟩ := ha.paging.fresh_of_getFreePage hfree
  split at hg
  · cases hg
  · rw [hf.addr, freePage_held hf.paging (by rw [hf.high, ha.high])] at hg
    cases hg
    rfl

/-- The panics that are not `free_page`'s. -/
def NotFreePanic (t : Trap) : Prop :=
  t ≠ .panic "trying to free free page"

theorem notFreePanic_oom : NotFreePanic .oom := by
  unfold NotFreePanic
  decide

theorem tryToShare_error {p : Task}
    (ht : tryToShare address current p s = .error t) : NotFreePanic t := by
  unfold tryToShare at ht
  simp only at ht
  split at ht
  · split at ht
    · split at ht
      · cases ht
      · rcases bind_eq_error ht with ht | ⟨s1, -, ht⟩
        · unfold ensureTable at ht
          split at ht
          · cases ht
          · split at ht
            · cases ht
              exact notFreePanic_oom
            · cases ht
        · rcases bind_eq_error ht with ht | ⟨s2, -, ht⟩
          · unfold shareInto at ht
            split at ht
            · cases ht
              unfold NotFreePanic
              decide
            · cases ht
          · cases ht
    · cases ht
  · cases ht

theorem shareLoop_error :
    ∀ {n : Nat} {s : Mem}, shareLoop T cur current address n s = .error t → NotFreePanic t := by
  intro n
  induction n with
  | zero =>
    intro s hl
    cases hl
  | succ n ih =>
    intro s hl
    rw [shareLoop] at hl
    split at hl
    · exact ih hl
    · split at hl
      · exact ih hl
      · rcases bind_eq_error hl with hl | ⟨⟨b, s1⟩, -, hl⟩
        · exact tryToShare_error hl
        · simp only at hl
          split at hl
          · cases hl
          · exact ih hl

/-- `do_no_page` never has `free_page` free a free page. -/
theorem Acct.doNoPage_error (ha : Acct lo hi s) (hT : TaskSpaces T)
    (hcur : cur < nrTasks) (htask : T.task cur = some current) (haddr : UserAddr address)
    (hd : doNoPage T cur current address s = .error t) : NotFreePanic t := by
  have hempty : getEmptyPage (pageAddr address) s = .error t → NotFreePanic t := by
    intro hg
    rw [ha.getEmptyPage_error hg]
    exact notFreePanic_oom
  unfold doNoPage at hd
  simp only at hd
  split at hd
  · exact hempty hd
  rename_i x hx
  split at hd
  · exact hempty hd
  rename_i hlt
  obtain ⟨hlt64, hal, hdir, -⟩ := hT.fault_slots hcur htask haddr.2 (not_le.mp hlt)
  rcases bind_eq_error hd with hd | ⟨⟨b, s1⟩, hshare, hgo⟩
  · unfold sharePage at hd
    split at hd
    · cases hd
    · split at hd
      · cases hd
      · exact shareLoop_error hd
  have hcase := ha.paging.sharePage_cases hT hcur (hT.base cur current hcur htask) hlt64
    (by rw [hdir]; exact haddr.dir) ha.room hx hshare
  rcases hcase with ⟨rfl, rfl, -⟩ | ⟨rfl, -⟩
  · simp only [Bool.false_eq_true, if_false] at hgo
    rcases getFreePage_error hgo with rfl | ⟨page, s2, hfree, hgo⟩
    · exact notFreePanic_oom
    obtain ⟨f, hf⟩ := ha.paging.fresh_of_getFreePage hfree
    rw [hf.addr] at hgo
    obtain ⟨hdata, -⟩ := loadPage_spec hf.zero hal (not_le.mp hlt)
    have hpg2 := hf.paging.dataChange hdata (hf.paging.held_notTable (Finset.mem_insert_self f ∅))
    generalize loadPage T x (faultOffset current address)
      current.endData (f * 4096) s2 = s3 at hgo hdata hpg2
    split at hgo
    · cases hgo
    · rw [freePage_held hpg2 (by rw [hdata.high, hf.high, ha.high])] at hgo
      cases hgo
      exact notFreePanic_oom
  · cases hgo

theorem copyDirs_error {nr : Nat} :
    ∀ {n i i' : Nat} {s : Mem}, copyDirs nr n i i' s = .error t → NotFreePanic t := by
  intro n
  induction n with
  | zero =>
    intro i i' s hc
    cases hc
  | succ n ih =>
    intro i i' s hc
    simp only [copyDirs] at hc
    split at hc
    · cases hc
      unfold NotFreePanic
      decide
    · split at hc
      · split at hc
        · cases hc
        · exact ih hc
      · exact ih hc

/-- No operation has `free_page` free a free page. -/
theorem Acct.exec_error (ha : Acct lo hi s) (hr : o.ready s)
    (he : o.exec s = .error t) : NotFreePanic t := by
  cases o with
  | getEmptyPage address =>
    rw [ha.getEmptyPage_error he]
    exact notFreePanic_oom
  | doNoPage T cur current address =>
    obtain ⟨hT, hcur, htask, hlt, habs⟩ := hr
    exact ha.doNoPage_error hT hcur htask (ha.userAddr hlt fun hc => habs hc.1) he
  | copyPageTables p c size =>
    rcases bind_eq_error he with he | ⟨a, -, he⟩
    · unfold copyPageTables at he
      split at he
      · cases he
        unfold NotFreePanic
        decide
      · exact copyDirs_error he
    · cases he
  | unWpPage address =>
    change unWpPage _ s = .error t at he
    unfold unWpPage at he
    simp only at he
    split at he
    · cases he
    · split at he
      · cases he
        exact notFreePanic_oom
      · cases he
  | freePageTables task size =>
    obtain ⟨ht, ht0, hsz⟩ := hr
    obtain ⟨s1, hs1, -⟩ := ha.freePageTables_ok ht ht0 hsz
    have hcon := hs1.symm.trans he
    cases hcon

/-- The invariant at boot. -/
theorem acct_bootMem {startMem endMem : Nat} (hb : MemBounds startMem endMem) : Acct (startMem / 4096) (endMem / 4096) (bootMem startMem endMem s) := by
  refine ⟨paging_bootMem hb s, ?_, ?_, ?_, ?_⟩
  · show endMem = endMem / 4096 * 4096
    have := hb.endAligned
    omega
  · intro i hi'
    show setupPaging s.word i = _
    unfold setupPaging
    rw [if_pos hi']
  · intro k hk
    show setupPaging s.word (1024 + k) = _
    unfold setupPaging
    rw [if_neg (by omega), if_neg (by omega), if_pos (by omega), Nat.add_sub_cancel_left]
  · intro i j i' j' hi' _ _ _ hp
    rw [bootMem_pteAt hi'] at hp
    exact absurd hp not_present_zero

-- ======== the runs

/-- `f` holds a page table of the page directory. -/
def IsTable (s : Mem) (f : Nat) : Prop :=
  ∃ i, UserDir i ∧ present (s.word i) ∧ frame (s.word i) = f

instance (s : Mem) (f : Nat) : Decidable (IsTable s f) :=
  decidable_of_iff (∃ i, i < 1024 ∧ 4 ≤ i ∧ present (s.word i) ∧ frame (s.word i) = f)
    ⟨fun ⟨i, h1, h2, h3⟩ => ⟨i, ⟨h2, h1⟩, h3⟩, fun ⟨i, h1, h2⟩ => ⟨i, h1.2, h1.1, h2⟩⟩

/-- Present page-table entries that point at `f`, over all user page
tables. -/
def pteRefs (s : Mem) (f : Nat) : Nat := rectRefs s 4 1020 f

/-- The directory's own slots. -/
@[irreducible] def dirSlots : Finset (Nat × Nat) :=
  Finset.Ico 4 1024 ×ˢ {1024}

theorem mem_dirSlots {x : Nat × Nat} : x ∈ dirSlots ↔ UserDir x.1 ∧ x.2 = 1024 := by
  unfold dirSlots UserDir
  rw [Finset.mem_product, Finset.mem_Ico, Finset.mem_singleton]

theorem userSlots_eq : userSlots = rectSlots 4 1020 ∪ dirSlots := by
  ext x
  unfold userSlots
  rw [Finset.mem_union, mem_rectSlots, mem_dirSlots, Finset.mem_product,
    Finset.mem_Ico, Finset.mem_range]
  unfold UserDir
  omega

/-- The directory refers to a frame once or not at all. -/
theorem Paging.dirSlots_refs (h : Paging lo hi ∅ s) :
    refs dirSlots (target s) f = if IsTable s f then 1 else 0 := by
  split
  · rename_i ht
    obtain ⟨i, hi', hp, rfl⟩ := ht
    rw [← Finset.card_singleton (i, 1024)]
    refine refs_eq_card fun x => ?_
    rw [Finset.mem_singleton, mem_dirSlots]
    obtain ⟨a, b⟩ := x
    simp only [Prod.mk.injEq]
    constructor
    · rintro ⟨rfl, rfl⟩
      rw [target_table, entryTarget_of_present hp]
      exact ⟨⟨hi', rfl⟩, rfl⟩
    · rintro ⟨⟨ha, rfl⟩, hxf⟩
      rw [target_table] at hxf
      obtain ⟨hpa, hfa⟩ := entryTarget_eq_some.mp hxf
      exact ⟨h.table_inj ha hi' hpa hp hfa, rfl⟩
  · rename_i ht
    rw [refs_eq_zero_iff]
    intro x hx hxf
    obtain ⟨a, b⟩ := x
    obtain ⟨ha, hb⟩ := mem_dirSlots.mp hx
    simp only at ha hb
    subst hb
    rw [target_table] at hxf
    obtain ⟨hpa, hfa⟩ := entryTarget_eq_some.mp hxf
    exact ht ⟨a, ha, hpa, hfa⟩

/-- References are page-table entries, and the directory's one to a
page table. -/
theorem Paging.frameRefs_eq (h : Paging lo hi ∅ s) :
    frameRefs s f = pteRefs s f + (if IsTable s f then 1 else 0) := by
  have hdis : Disjoint (rectSlots 4 1020) dirSlots := by
    rw [Finset.disjoint_left]
    intro x hx hx'
    rw [mem_rectSlots] at hx
    rw [mem_dirSlots] at hx'
    omega
  unfold frameRefs pteRefs rectRefs
  rw [userSlots_eq, refs_union hdis, h.dirSlots_refs]

/-- Every state a run of the memory manager reaches from `mem_init`
accounts for its frames: counts are exact, free frames unreferenced,
writable entries sole, and `free_page` never frees a free page. -/
theorem frame_accounting {startMem endMem : Nat}
    (hb : MemBounds startMem endMem) (s₀ : Mem) {ops : List MmOp}
    (hready : Meets MmOp.step MmOp.ready ops (bootMem startMem endMem s₀))
    (hrun : runOps MmOp.step ops (bootMem startMem endMem s₀) = some s) :
    (∀ f, startMem / 4096 ≤ f → f < endMem / 4096 → s.memMap (f - 256)
            = pteRefs s f + (if IsTable s f then 1 else 0)
          ∧ (s.memMap (f - 256) = 0 → pteRefs s f = 0 ∧ ¬ IsTable s f))
      ∧ (∀ a, UserAddr a → present (entryOf s a) → writable (entryOf s a) →
          startMem ≤ pageAddr (entryOf s a) ∧ pageAddr (entryOf s a) < endMem
            ∧ s.memMap (mapNr (pageAddr (entryOf s a))) = 1) ∧ ∀ o : MmOp, o.ready s →
          o.exec s ≠ .error (.panic "trying to free free page") := by
  have ha : Acct (startMem / 4096) (endMem / 4096) s :=
    runOps_invariant (fun o s s' ha hr hs => ha.step hr hs) hready hrun (acct_bootMem hb)
  refine ⟨fun f h1 h2 => ?_, fun a hu hp hw => ?_, fun o hr he => ?_⟩
  · have hc := ha.paging.count f ⟨h1, h2⟩
    rw [if_neg (Finset.notMem_empty f), ha.paging.frameRefs_eq, Nat.add_zero] at hc
    refine ⟨hc, fun h0 => ?_⟩
    rw [hc] at h0
    split at h0
    · omega
    · exact ⟨by omega, ‹_›⟩
  · obtain ⟨hin, h1⟩ := ha.paging.sole _ _ hu.dir (pageNr_lt a) hp hw
    have hm := ha.paging.count_eq_one hin h1
    have hs := hb.startAligned
    have hl := hin.1
    have hh := hin.2
    rw [entryOf_eq, mapNr_pageAddr, pageAddr_eq]
    exact ⟨by omega, by omega, hm⟩
  · exact ha.exec_error hr he rfl

/-- A page for task 1, then a fork: the page is counted twice. -/
theorem frame_accounting_fork : ∃ s : Mem,
    runOps MmOp.step [.getEmptyPage 0x4000000, .copyPageTables 1 2 4096]
        (bootMem 0x400000 0x1000000 ⟨fun _ => 0, fun _ => 0, 0⟩) = some s
      ∧ s.memMap (4095 - 256) = 2 ∧ pteRefs s 4095 + (if IsTable s 4095 then 1 else 0) = 2 := by
  refine exists_run (fun s => s.memMap (4095 - 256) = 2) (by decide +kernel) fun s hrun hmap => ?_
  have hb : MemBounds 0x400000 0x1000000 := by
    constructor <;> decide
  have hready : Meets MmOp.step MmOp.ready [.getEmptyPage 0x4000000, .copyPageTables 1 2 4096]
      (bootMem 0x400000 0x1000000 ⟨fun _ => 0, fun _ => 0, 0⟩) := by
    refine ⟨⟨by decide, ?_⟩, fun s1 _ => ⟨?_, fun s2 _ => trivial⟩⟩
    · rw [entryOf_eq, bootMem_pteAt ⟨by decide, by decide⟩]
      exact not_present_zero
    · exact ⟨by decide, by decide, by decide, by decide, by decide, by decide⟩
  have hacc := (frame_accounting hb _ hready hrun).1 4095 (by decide) (by decide)
  exact ⟨hmap, by rw [← hacc.1, hmap]⟩

end LearnLinux.Mm
