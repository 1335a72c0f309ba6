/-
The kernel allocator never hands out overlapping memory.

`Lists` relates the three kinds of lists to each other and to the objects
in use: the chains, the free descriptors and, for each descriptor on a
chain, the free blocks of its page. The blocks of a page are those in use
and those on its free list, each once. From that everything else follows:
a block on a free list is in no use, and it overlaps no other block of its
page nor of another one.

The changes are taken one by one: descriptors are made (`Lists.init`), a
page gets a descriptor (`Lists.add`), a block is taken (`Lists.take`) and
given back (`Lists.put`), a page without blocks in use loses its
descriptor (`Lists.drop`).
-/
import LearnLinux.Mm.Malloc

namespace LearnLinux.Malloc

open Function (update update_self update_of_ne)
open Lib (Walk walk_append cells mem_cells cells_nodup
  threadTo_of_notMem walk_threadTo runOps Meets runOps_invariant exists_checked)

-- ======== the blocks

/-- The blocks of a page. -/
def blocks (i : Dir) (p : Nat) : List Nat :=
  cells (size i) (PAGE_SIZE / size i - 1) p

theorem size_pos : ∀ i : Dir, 0 < size i := by decide

/-- The last block ends where the page does. -/
theorem blocks_fit : ∀ i : Dir, (PAGE_SIZE / size i - 1) * size i + size i = PAGE_SIZE := by decide

theorem number_of_blocks : ∀ i : Dir, PAGE_SIZE / size i - 1 + 1 ≤ 256 := by
  decide

theorem length_blocks (i : Dir) (p : Nat) : (blocks i p).length ≤ 256 := by
  rw [blocks, cells, List.length_map, List.length_range]
  exact number_of_blocks i

variable {p a : Nat}

theorem pageOf_eq (hp : p % PAGE_SIZE = 0) (ha : p ≤ a)
    (ha' : a < p + PAGE_SIZE) : pageOf a = p := by
  simp only [pageOf, PAGE_SIZE] at *
  omega

variable {i : Dir}

/-- A block lies inside its page. -/
theorem mem_blocks (h : a ∈ blocks i p) : p ≤ a ∧ a + size i ≤ p + PAGE_SIZE := by
  obtain ⟨k, hk, rfl⟩ := mem_cells.mp h
  have hle := Nat.mul_le_mul_right (size i) hk
  have hfit := blocks_fit i
  omega

theorem pageOf_block (hp : p % PAGE_SIZE = 0) (h : a ∈ blocks i p) : pageOf a = p := by
  have ha := mem_blocks h
  have hs := size_pos i
  exact pageOf_eq hp ha.1 (by omega)

/-- Two blocks of a page do not overlap. -/
theorem blocks_apart {b : Nat} (ha : a ∈ blocks i p)
    (hb : b ∈ blocks i p) (hne : a ≠ b) : a + size i ≤ b ∨ b + size i ≤ a := by
  obtain ⟨k, -, rfl⟩ := mem_cells.mp ha
  obtain ⟨m, -, rfl⟩ := mem_cells.mp hb
  rcases Nat.lt_trichotomy k m with h | rfl | h
  · have := Nat.mul_le_mul_right (size i) (Nat.succ_le_of_lt h)
    rw [Nat.succ_mul] at this
    exact .inl (by omega)
  · exact absurd rfl hne
  · have := Nat.mul_le_mul_right (size i) (Nat.succ_le_of_lt h)
    rw [Nat.succ_mul] at this
    exact .inr (by omega)

/-- The descriptors of a page. -/
def descs (q : Nat) : List Nat :=
  cells DESC_SIZE (PAGE_SIZE / DESC_SIZE - 1) q

theorem mem_descs {q d : Nat} (h : d ∈ descs q) : q ≤ d ∧ d < q + PAGE_SIZE := by
  obtain ⟨k, hk, rfl⟩ := mem_cells.mp h
  simp only [PAGE_SIZE, DESC_SIZE] at *
  omega

-- ======== the invariant

/-- The objects in use on a page. -/
def liveIn (live : List (Nat × Nat)) (p : Nat) : List Nat :=
  (live.map Prod.fst).filter fun a => pageOf a = p

/-- The chains are `c`, the free descriptors `f`, and the free blocks of
the page of a descriptor `l`. -/
structure Lists (s : System) (c : Dir → List Nat) (f : List Nat) (l : Nat → List Nat) : Prop where
  chain : ∀ i, Walk s.kernel.next (s.kernel.chain i) (c i) 0
  frees : Walk s.kernel.next s.kernel.freeBucketDesc f 0
  chain_nodup : ∀ i, (c i).Nodup
  frees_nodup : f.Nodup
  apart : ∀ {i j d}, d ∈ c i → d ∈ c j → i = j
  not_free : ∀ {i d}, d ∈ c i → d ∉ f
  descs : ∀ d, (d ∈ f ∨ ∃ i, d ∈ c i) ↔ ∃ q ∈ s.descPages, d ∈ descs q
  pages : ∀ p, p ∈ s.used ↔ p ∈ s.descPages ∨ ∃ i, ∃ d ∈ c i, s.kernel.page d = p
  not_desc : ∀ {i d}, d ∈ c i → s.kernel.page d ∉ s.descPages
  page_inj : ∀ {i j d e}, d ∈ c i → e ∈ c j → s.kernel.page d = s.kernel.page e → d = e
  used_nodup : s.used.Nodup
  aligned : ∀ p ∈ s.used, p ≠ 0 ∧ p % PAGE_SIZE = 0
  size : ∀ {i d}, d ∈ c i → s.kernel.bucketSize d = size i
  free : ∀ {i d}, d ∈ c i → Walk s.kernel.mem (s.kernel.freeptr d) (l d) 0
  blocks : ∀ {i d}, d ∈ c i → (l d ++ liveIn s.live (s.kernel.page d)).Perm
      (blocks i (s.kernel.page d))
  count : ∀ {i d}, d ∈ c i → s.kernel.refcnt d = (liveIn s.live (s.kernel.page d)).length
  live : ∀ x ∈ s.live, ∃ i, ∃ d ∈ c i, s.kernel.page d = pageOf x.1 ∧ x.2 = Malloc.size i

variable {s : System} {c : Dir → List Nat} {f l₁ l₂ : List Nat} {live : List (Nat × Nat)}
variable {n obj len : Nat}
variable {k : Kernel} {sz : Int}
  {l : Nat → List Nat} {i j : Dir} {d e p q a : Nat}

theorem mem_liveIn : a ∈ liveIn live p ↔ (∃ n, (a, n) ∈ live) ∧ pageOf a = p := by
  simp [liveIn]

section

variable (h : Lists s c f l)
include h

theorem Lists.page_used (hd : d ∈ c i) : s.kernel.page d ∈ s.used :=
  (h.pages _).mpr (.inr ⟨i, d, hd, rfl⟩)

theorem Lists.page_aligned (hd : d ∈ c i) : s.kernel.page d ≠ 0 ∧ s.kernel.page d % PAGE_SIZE = 0 :=
  h.aligned _ (h.page_used hd)

theorem Lists.desc_ne_zero (hd : d ∈ f ∨ ∃ i, d ∈ c i) : d ≠ 0 := by
  obtain ⟨q, hq, hdq⟩ := (h.descs d).mp hd
  have h0 := (h.aligned q ((h.pages q).mpr (.inl hq))).1
  have := (mem_descs hdq).1
  omega

/-- The blocks of a page are different ones, free or in use. -/
theorem Lists.blocks_nodup (hd : d ∈ c i) : (l d ++ liveIn s.live (s.kernel.page d)).Nodup :=
  (h.blocks hd).nodup_iff.mpr (cells_nodup (size_pos i) ..)

theorem Lists.length_liveIn (hd : d ∈ c i) : (liveIn s.live (s.kernel.page d)).length ≤ 256 := by
  have hl := (h.blocks hd).length_eq
  have := length_blocks i (s.kernel.page d)
  rw [List.length_append] at hl
  omega

/-- A free block is one of the page. -/
theorem Lists.mem_free (hd : d ∈ c i) (ha : a ∈ l d) : a ∈ Malloc.blocks i (s.kernel.page d) :=
  (h.blocks hd).mem_iff.mp (List.mem_append_left _ ha)

theorem Lists.mem_live (hd : d ∈ c i)
    (ha : a ∈ liveIn s.live (s.kernel.page d)) : a ∈ Malloc.blocks i (s.kernel.page d) :=
  (h.blocks hd).mem_iff.mp (List.mem_append_right _ ha)

/-- The descriptor of the page that an object is on. -/
theorem Lists.live_desc (ha : (a, n) ∈ s.live) : ∃ i, ∃ d ∈ c i, s.kernel.page d = pageOf a
      ∧ n = Malloc.size i ∧ a ∈ Malloc.blocks i (s.kernel.page d) := by
  obtain ⟨i, d, hd, hp, hn⟩ := h.live _ ha
  refine ⟨i, d, hd, hp, hn, h.mem_live hd ?_⟩
  exact mem_liveIn.mpr ⟨⟨n, ha⟩, hp.symm⟩

/-- On a page that is not in use there are no objects. -/
theorem Lists.liveIn_fresh (hp : p ∉ s.used) : liveIn s.live p = [] := by
  rw [List.eq_nil_iff_forall_not_mem]
  intro a ha
  obtain ⟨⟨n, hn⟩, rfl⟩ := mem_liveIn.mp ha
  obtain ⟨i, d, hd, hpd, -⟩ := h.live_desc hn
  exact hp (hpd ▸ h.page_used hd)

end

-- ======== the changes

/-- The chains with one descriptor more. -/
theorem mem_chained : e ∈ update c i (d :: c i) j ↔ j = i ∧ e = d ∨ e ∈ c j := by
  rcases eq_or_ne j i with rfl | hj
  · rw [update_self, List.mem_cons]
    simp
  · rw [update_of_ne hj]
    simp [hj]

/-- The chains with one descriptor less. -/
theorem Lists.mem_unchained (h : Lists s c f l) (hc : c i = l₁ ++ d :: l₂) :
    e ∈ update c i (l₁ ++ l₂) j ↔ e ∈ c j ∧ e ≠ d := by
  have hnd := h.chain_nodup i
  rw [hc, List.nodup_middle, List.nodup_cons] at hnd
  rcases eq_or_ne j i with rfl | hj
  · rw [update_self, hc]
    constructor
    · intro he
      refine ⟨?_, ?_⟩
      · rcases List.mem_append.mp he with he | he
        · exact List.mem_append_left _ he
        · exact List.mem_append_right _ (List.mem_cons_of_mem d he)
      · rintro rfl
        exact hnd.1 he
    · rintro ⟨he, hed⟩
      rcases List.mem_append.mp he with he | he
      · exact List.mem_append_left _ he
      · exact List.mem_append_right _ ((List.mem_cons.mp he).resolve_left hed)
  · rw [update_of_ne hj]
    refine (and_iff_left_of_imp ?_).symm
    rintro he rfl
    exact hj (h.apart he (by simp [hc]))

/-- A page is made into free descriptors. -/
theorem Lists.init (h : Lists s c [] l) (hq : Fresh s q) : Lists { s with
      kernel := initBucketDesc s.kernel q
      used := q :: s.used
      descPages := q :: s.descPages } c (Malloc.descs q) l := by
  obtain ⟨hq0, hq4, hqu⟩ := hq
  -- the descriptors there are stand on other pages
  have hold : ∀ {i d}, d ∈ c i → d ∉ Malloc.descs q := by
    intro i d hd hdq
    obtain ⟨q', hq', hdq'⟩ := (h.descs d).mp (.inr ⟨i, hd⟩)
    have hu := (h.pages q').mpr (.inl hq')
    have h1 := mem_descs hdq
    have h2 := mem_descs hdq'
    have h3 := pageOf_eq hq4 h1.1 h1.2
    have h4 := pageOf_eq (h.aligned q' hu).2 h2.1 h2.2
    rw [h3] at h4
    exact hqu (h4 ▸ hu)
  have hfree : s.kernel.freeBucketDesc = 0 := h.frees
  refine ⟨fun i => ?_, ?_, h.chain_nodup, cells_nodup (by decide) ..,
    h.apart, hold, fun d => ?_, fun p => ?_, fun hd => ?_, h.page_inj,
    List.nodup_cons.mpr ⟨hqu, h.used_nodup⟩, fun p hp => ?_, h.size, h.free,
    h.blocks, h.count, h.live⟩
  · exact (h.chain i).congr fun d hd => threadTo_of_notMem (hold hd)
  · have hw := walk_threadTo (n := DESC_SIZE) (by decide)
      (PAGE_SIZE / DESC_SIZE - 1) q s.kernel.freeBucketDesc s.kernel.next
    rw [hfree] at hw
    simp only [initBucketDesc, hfree]
    exact hw
  · have hd := h.descs d
    simp only [List.not_mem_nil, false_or] at hd
    simp only [List.mem_cons, exists_eq_or_imp, hd]
  · simp only [List.mem_cons, h.pages p, or_assoc]
    rfl
  · rw [List.mem_cons, not_or]
    refine ⟨?_, h.not_desc hd⟩
    rintro heq
    exact hqu (heq ▸ h.page_used hd)
  · rcases List.mem_cons.mp hp with rfl | hp
    · exact ⟨hq0, hq4⟩
    · exact h.aligned p hp

/-- A free descriptor is given a page. -/
theorem Lists.add (h : Lists s c (d :: f) l) (hp : Fresh s p) :
    s.kernel.freeBucketDesc = d ∧ Lists { s with
      kernel := newBucket s.kernel i p
      used := p :: s.used } (update c i (d :: c i)) f
      (update l d (Malloc.blocks i p)) := by
  obtain ⟨hp0, hp4, hpu⟩ := hp
  have hdf : s.kernel.freeBucketDesc = d := h.frees.1
  have hnf := List.nodup_cons.mp h.frees_nodup
  have hdc : ∀ {j}, d ∉ c j := fun hd => h.not_free hd (List.mem_cons_self ..)
  have hne : ∀ {j e}, e ∈ c j → e ≠ d := by
    rintro j e he rfl
    exact hdc he
  have hpage : ∀ {j e}, e ∈ c j → s.kernel.page e ≠ p := by
    rintro j e he rfl
    exact hpu (h.page_used he)
  -- the free blocks of other pages are not touched
  have hother : ∀ {j e x}, e ∈ c j → x ∈ l e → x ∉ Malloc.blocks i p := by
    intro j e x he hx hxp
    have h1 := pageOf_block (h.page_aligned he).2 (h.mem_free he hx)
    have h2 := pageOf_block hp4 hxp
    exact hpage he (h1.symm.trans h2)
  refine ⟨hdf, ?_⟩
  subst hdf
  simp only [newBucket]
  refine ⟨fun j => ?_, ?_, fun j => ?_, hnf.2, fun {j j' e} he he' => ?_,
    fun {j e} he => ?_, fun e => ?_, fun x => ?_, fun {j e} he => ?_,
    fun {j j' e e'} he he' => ?_, List.nodup_cons.mpr ⟨hpu, h.used_nodup⟩,
    fun x hx => ?_, fun {j e} he => ?_, fun {j e} he => ?_,
    fun {j e} he => ?_, fun {j e} he => ?_, fun x hx => ?_⟩
  · dsimp only
    rcases eq_or_ne j i with rfl | hj
    · rw [update_self, update_self]
      refine ⟨rfl, ?_⟩
      rw [update_self]
      exact (h.chain j).congr fun e he => update_of_ne (hne he) ..
    · rw [update_of_ne hj, update_of_ne hj]
      exact (h.chain j).congr fun e he => update_of_ne (hne he) ..
  · refine h.frees.2.congr fun e he => update_of_ne ?_ ..
    rintro rfl
    exact hnf.1 he
  · rcases eq_or_ne j i with rfl | hj
    · rw [update_self]
      exact List.nodup_cons.mpr ⟨hdc, h.chain_nodup j⟩
    · rw [update_of_ne hj]
      exact h.chain_nodup j
  · rcases mem_chained.mp he with ⟨hj, hd⟩ | hm <;> rcases mem_chained.mp he' with ⟨hj', hd'⟩ | hm'
    · rw [hj, hj']
    · exact absurd hd (hne hm')
    · exact absurd hd' (hne hm)
    · exact h.apart hm hm'
  · rcases mem_chained.mp he with ⟨-, rfl⟩ | he
    · exact hnf.1
    · exact fun hf => h.not_free he (List.mem_cons_of_mem _ hf)
  · rw [← h.descs e, List.mem_cons]
    constructor
    · rintro (hf | ⟨j, he⟩)
      · exact .inl (.inr hf)
      · rcases mem_chained.mp he with ⟨-, rfl⟩ | he
        · exact .inl (.inl rfl)
        · exact .inr ⟨j, he⟩
    · rintro ((rfl | hf) | ⟨j, he⟩)
      · exact .inr ⟨i, mem_chained.mpr (.inl ⟨rfl, rfl⟩)⟩
      · exact .inl hf
      · exact .inr ⟨j, mem_chained.mpr (.inr he)⟩
  · dsimp only
    rw [List.mem_cons, h.pages x]
    constructor
    · rintro (rfl | hx | ⟨j, e, he, hx⟩)
      · exact .inr ⟨i, _, mem_chained.mpr (.inl ⟨rfl, rfl⟩), update_self ..⟩
      · exact .inl hx
      · refine .inr ⟨j, e, mem_chained.mpr (.inr he), ?_⟩
        rw [update_of_ne (hne he)]
        exact hx
    · rintro (hx | ⟨j, e, he, hx⟩)
      · exact .inr (.inl hx)
      · rcases mem_chained.mp he with ⟨-, rfl⟩ | he
        · rw [update_self] at hx
          exact .inl hx.symm
        · rw [update_of_ne (hne he)] at hx
          exact .inr (.inr ⟨j, e, he, hx⟩)
  · dsimp only
    rcases mem_chained.mp he with ⟨-, rfl⟩ | he
    · rw [update_self]
      exact fun hpd => hpu ((h.pages p).mpr (.inl hpd))
    · rw [update_of_ne (hne he)]
      exact h.not_desc he
  · dsimp only
    rcases mem_chained.mp he with ⟨-, hd⟩ | he <;> rcases mem_chained.mp he' with ⟨-, hd'⟩ | he'
    · exact fun _ => hd.trans hd'.symm
    · rw [hd, update_self, update_of_ne (hne he')]
      exact fun hx => absurd hx.symm (hpage he')
    · rw [hd', update_self, update_of_ne (hne he)]
      exact fun hx => absurd hx (hpage he)
    · rw [update_of_ne (hne he), update_of_ne (hne he')]
      exact h.page_inj he he'
  · rcases List.mem_cons.mp hx with rfl | hx
    · exact ⟨hp0, hp4⟩
    · exact h.aligned x hx
  · dsimp only
    rcases mem_chained.mp he with ⟨rfl, rfl⟩ | he
    · rw [update_self]
    · rw [update_of_ne (hne he)]
      exact h.size he
  · dsimp only
    rcases mem_chained.mp he with ⟨rfl, rfl⟩ | he
    · rw [update_self, update_self]
      exact walk_threadTo (size_pos j) ..
    · rw [update_of_ne (hne he), update_of_ne (hne he)]
      exact (h.free he).congr fun x hx => threadTo_of_notMem (hother he hx)
  · dsimp only
    rcases mem_chained.mp he with ⟨rfl, rfl⟩ | he
    · rw [update_self, update_self, h.liveIn_fresh hpu, List.append_nil]
    · rw [update_of_ne (hne he), update_of_ne (hne he)]
      exact h.blocks he
  · dsimp only
    rcases mem_chained.mp he with ⟨rfl, rfl⟩ | he
    · rw [update_self, update_self, h.liveIn_fresh hpu]
      rfl
    · rw [update_of_ne (hne he), update_of_ne (hne he)]
      exact h.count he
  · obtain ⟨j, e, he, hx'⟩ := h.live x hx
    refine ⟨j, e, mem_chained.mpr (.inr he), ?_⟩
    dsimp only
    rw [update_of_ne (hne he)]
    exact hx'

theorem liveIn_cons (x : Nat × Nat) : liveIn (x :: live) p
      = if pageOf x.1 = p then x.1 :: liveIn live p else liveIn live p := by
  simp only [liveIn, List.map_cons, List.filter_cons, decide_eq_true_eq]

/-- What changes when only the free blocks and the objects of the page of
one descriptor change. -/
theorem Lists.onePage (h : Lists s c f l) (hd : d ∈ c i)
    {b : List Nat} {ret : Nat} (hchain : k.chain = s.kernel.chain)
    (hfbd : k.freeBucketDesc = s.kernel.freeBucketDesc)
    (hpage : k.page = s.kernel.page) (hnext : k.next = s.kernel.next)
    (hsize : k.bucketSize = s.kernel.bucketSize)
    (hfp : ∀ e, e ≠ d → k.freeptr e = s.kernel.freeptr e)
    (href : ∀ e, e ≠ d → k.refcnt e = s.kernel.refcnt e)
    (hmem : ∀ x, pageOf x ≠ s.kernel.page d → k.mem x = s.kernel.mem x)
    (hfree : Walk k.mem (k.freeptr d) b 0)
    (hlive : ∀ p, p ≠ s.kernel.page d → liveIn live p = liveIn s.live p)
    (hblocks : (b ++ liveIn live (s.kernel.page d)).Perm (Malloc.blocks i (s.kernel.page d)))
    (hcount : k.refcnt d = (liveIn live (s.kernel.page d)).length)
    (hsizes : ∀ x ∈ live, x ∈ s.live ∨ x.2 = Malloc.size i ∧ pageOf x.1 = s.kernel.page d) :
    Lists { s with kernel := k, live := live, ret := ret } c f (update l d b) := by
  have hne : ∀ {j e}, e ∈ c j → e ≠ d → s.kernel.page e ≠ s.kernel.page d :=
    fun he hed hp => hed (h.page_inj he hd hp)
  refine ⟨fun j => ?_, ?_, h.chain_nodup, h.frees_nodup, h.apart,
    h.not_free, h.descs, fun x => ?_, fun he => ?_, fun he he' => ?_,
    h.used_nodup, h.aligned, fun he => ?_, fun {j e} he => ?_,
    fun {j e} he => ?_, fun {j e} he => ?_, fun x hx => ?_⟩
  · simpa only [hchain, hnext] using h.chain j
  · simpa only [hfbd, hnext] using h.frees
  · simpa only [hpage] using h.pages x
  · simpa only [hpage] using h.not_desc he
  · simpa only [hpage] using h.page_inj he he'
  · simpa only [hsize] using h.size he
  · rcases eq_or_ne e d with rfl | hed
    · rw [update_self]
      exact hfree
    · rw [update_of_ne hed, hfp e hed]
      refine (h.free he).congr fun x hx => hmem x ?_
      rw [pageOf_block (h.page_aligned he).2 (h.mem_free he hx)]
      exact hne he hed
  · rw [hpage]
    rcases eq_or_ne e d with rfl | hed
    · rw [update_self, h.apart he hd]
      exact hblocks
    · rw [update_of_ne hed, hlive _ (hne he hed)]
      exact h.blocks he
  · dsimp only
    rw [hpage]
    rcases eq_or_ne e d with rfl | hed
    · exact hcount
    · rw [href e hed, hlive _ (hne he hed)]
      exact h.count he
  · rw [hpage]
    rcases hsizes x hx with hx | ⟨hn, hp⟩
    · exact h.live x hx
    · exact ⟨i, d, hd, hp.symm, hn⟩

/-- A free block is taken. -/
theorem Lists.take (h : Lists s c f l) (hd : d ∈ c i) (hfree : s.kernel.freeptr d ≠ 0) :
    ∃ b, l d = s.kernel.freeptr d :: b ∧ Lists (takeBlock s i d) c f (update l d b) := by
  have hw := h.free hd
  cases hl : l d with
  | nil =>
    rw [hl] at hw
    exact absurd hw hfree
  | cons r b =>
    rw [hl] at hw
    obtain ⟨hr, hw⟩ := hw
    have hmem : r ∈ l d := by
      rw [hl]
      exact List.mem_cons_self ..
    have hpr : pageOf r = s.kernel.page d :=
      pageOf_block (h.page_aligned hd).2 (h.mem_free hd hmem)
    have hlen := h.length_liveIn hd
    refine ⟨b, by rw [hr], h.onePage hd rfl rfl rfl rfl rfl
      (fun e he => update_of_ne he ..)
      (fun e he => update_of_ne he ..) (fun x _ => rfl) ?_
      (fun p hp => ?_) ?_ ?_ fun x hx => ?_⟩
    · dsimp only
      rw [update_self, hr]
      exact hw
    · rw [liveIn_cons, hr, if_neg (fun h => hp (h.symm.trans hpr))]
    · rw [liveIn_cons, hr, if_pos hpr]
      have hb := h.blocks hd
      rw [hl] at hb
      exact List.perm_middle.trans hb
    · dsimp only
      rw [liveIn_cons, hr, if_pos hpr, update_self, h.count hd, List.length_cons]
      omega
    · rcases List.mem_cons.mp hx with rfl | hx
      · refine .inr ⟨rfl, ?_⟩
        rw [hr]
        exact hpr
      · exact .inl hx

theorem liveIn_filter :
    liveIn (live.filter fun x => x.1 != obj) p = (liveIn live p).filter fun a => a != obj := by
  have hm : (live.filter fun x => x.1 != obj).map Prod.fst
      = (live.map Prod.fst).filter fun a => a != obj := by
    rw [List.filter_map]
    rfl
  rw [liveIn, hm, liveIn, List.filter_comm]

/-- A block is given back. -/
theorem Lists.put (h : Lists s c f l) (hd : d ∈ c i) (ho : obj ∈ liveIn s.live (s.kernel.page d)) :
    Lists { s with
      kernel := putBlock s.kernel d obj
      live := s.live.filter fun x => x.1 != obj } c f
      (update l d (obj :: l d)) := by
  have hpo : pageOf obj = s.kernel.page d := (mem_liveIn.mp ho).2
  have hnd := h.blocks_nodup hd
  rw [List.nodup_append] at hnd
  have hfree : obj ∉ l d := fun hl => hnd.2.2 obj hl obj ho rfl
  have hlen := h.length_liveIn hd
  have hpos := List.length_pos_of_mem ho
  have herase : (liveIn s.live (s.kernel.page d)).filter (· != obj)
      = (liveIn s.live (s.kernel.page d)).erase obj :=
    (hnd.2.1.erase_eq_filter obj).symm
  refine h.onePage hd rfl rfl rfl rfl rfl (fun e he => update_of_ne he ..)
    (fun e he => update_of_ne he .. ) (fun x hx => ?_) ?_
    (fun p hp => ?_) ?_ ?_ fun x hx => .inl (List.mem_filter.mp hx).1
  · refine update_of_ne ?_ ..
    rintro rfl
    exact hx hpo
  · simp only [putBlock, update_self]
    refine ⟨rfl, ?_⟩
    rw [update_self]
    refine (h.free hd).congr fun x hx => update_of_ne ?_ ..
    rintro rfl
    exact hfree hx
  · rw [liveIn_filter, List.filter_eq_self]
    intro a ha
    have : a ≠ obj := by
      rintro rfl
      exact hp ((mem_liveIn.mp ha).2.symm.trans hpo)
    simpa using this
  · rw [liveIn_filter, herase]
    refine List.Perm.trans ?_ (h.blocks hd)
    refine List.perm_middle.symm.trans ?_
    exact (List.perm_cons_erase ho).symm.append_left (l d)
  · rw [liveIn_filter, herase, List.length_erase_of_mem ho]
    simp only [putBlock, update_self]
    rw [h.count hd]
    omega

/-- The descriptor `d` is out of the chain of `i`. -/
structure Unlinked (k k' : Kernel) (i : Dir) (l₁ l₂ : List Nat) : Prop where
  chain : Walk k'.next (k'.chain i) (l₁ ++ l₂) 0
  others : ∀ j, j ≠ i → k'.chain j = k.chain j
  next : ∀ x, x ∉ l₁ → k'.next x = k.next x
  frees : k'.freeBucketDesc = k.freeBucketDesc
  page : k'.page = k.page
  freeptr : k'.freeptr = k.freeptr
  refcnt : k'.refcnt = k.refcnt
  bucketSize : k'.bucketSize = k.bucketSize
  mem : k'.mem = k.mem

/-- A page without objects is given back, and its descriptor is free. -/
theorem Lists.drop (h : Lists s c f l)
    (hc : c i = l₁ ++ d :: l₂) (hnone : liveIn s.live (s.kernel.page d) = [])
    (hk : Unlinked s.kernel k i l₁ l₂) :
    Lists { s with
      kernel := freeDesc k d
      used := s.used.erase (k.page d) } (update c i (l₁ ++ l₂))
      (d :: f) l := by
  have hd : d ∈ c i := by
    rw [hc]
    exact List.mem_append_right _ (List.mem_cons_self ..)
  have hnd := h.chain_nodup i
  rw [hc, List.nodup_middle, List.nodup_cons] at hnd
  have hmem : ∀ {j e}, e ∈ update c i (l₁ ++ l₂) j ↔ e ∈ c j ∧ e ≠ d := h.mem_unchained hc
  have hne : ∀ {j e}, e ∈ c j → e ≠ d → s.kernel.page e ≠ s.kernel.page d :=
    fun he hed hp => hed (h.page_inj he hd hp)
  have hl1 : ∀ {x}, x ∈ l₁ → x ∈ c i := fun hx => by
    rw [hc]
    exact List.mem_append_left _ hx
  have hfd : d ∉ f := h.not_free hd
  refine ⟨fun j => ?_, ?_, fun j => ?_, List.nodup_cons.mpr ⟨hfd,
    h.frees_nodup⟩, fun he he' => h.apart (hmem.mp he).1 (hmem.mp he').1,
    fun {j e} he => ?_, fun e => ?_, fun x => ?_, fun he => ?_,
    fun he he' => ?_, h.used_nodup.erase _,
    fun x hx => h.aligned x (List.mem_of_mem_erase hx), fun he => ?_,
    fun he => ?_, fun he => ?_, fun he => ?_, fun x hx => ?_⟩
  · simp only [freeDesc]
    rcases eq_or_ne j i with rfl | hj
    · rw [update_self]
      refine hk.chain.congr fun x hx => update_of_ne ?_ ..
      rintro rfl
      exact hnd.1 hx
    · rw [update_of_ne hj, hk.others j hj]
      refine (h.chain j).congr fun x hx => ?_
      have hxd : x ≠ d := by
        rintro rfl
        exact hj (h.apart hx hd)
      rw [update_of_ne hxd]
      exact hk.next x fun hx' => hj (h.apart hx (hl1 hx'))
  · simp only [freeDesc]
    refine ⟨rfl, ?_⟩
    rw [update_self, hk.frees]
    refine h.frees.congr fun x hx => ?_
    have hxd : x ≠ d := by
      rintro rfl
      exact hfd hx
    rw [update_of_ne hxd]
    exact hk.next x fun hx' => h.not_free (hl1 hx') hx
  · rcases eq_or_ne j i with rfl | hj
    · rw [update_self]
      exact hnd.2
    · rw [update_of_ne hj]
      exact h.chain_nodup j
  · rw [List.mem_cons, not_or]
    exact ⟨(hmem.mp he).2, h.not_free (hmem.mp he).1⟩
  · rw [← h.descs e, List.mem_cons]
    constructor
    · rintro ((rfl | hf) | ⟨j, he⟩)
      · exact .inr ⟨i, hd⟩
      · exact .inl hf
      · exact .inr ⟨j, (hmem.mp he).1⟩
    · rintro (hf | ⟨j, he⟩)
      · exact .inl (.inr hf)
      · rcases eq_or_ne e d with rfl | hed
        · exact .inl (.inl rfl)
        · exact .inr ⟨j, hmem.mpr ⟨he, hed⟩⟩
  · simp only [freeDesc, hk.page]
    rw [h.used_nodup.mem_erase_iff, h.pages x]
    constructor
    · rintro ⟨hx, hx' | ⟨j, e, he, rfl⟩⟩
      · exact .inl hx'
      · refine .inr ⟨j, e, hmem.mpr ⟨he, ?_⟩, rfl⟩
        rintro rfl
        exact hx rfl
    · rintro (hx | ⟨j, e, he, rfl⟩)
      · refine ⟨?_, .inl hx⟩
        rintro rfl
        exact h.not_desc hd hx
      · exact ⟨hne (hmem.mp he).1 (hmem.mp he).2, .inr ⟨j, e, (hmem.mp he).1, rfl⟩⟩
  · simpa only [freeDesc, hk.page] using h.not_desc (hmem.mp he).1
  · simpa only [freeDesc, hk.page] using h.page_inj (hmem.mp he).1 (hmem.mp he').1
  · simpa only [freeDesc, hk.bucketSize] using h.size (hmem.mp he).1
  · simpa only [freeDesc, hk.mem, hk.freeptr] using h.free (hmem.mp he).1
  · simpa only [freeDesc, hk.page] using h.blocks (hmem.mp he).1
  · simpa only [freeDesc, hk.page, hk.refcnt] using h.count (hmem.mp he).1
  · obtain ⟨j, e, he, hp, hn⟩ := h.live x hx
    refine ⟨j, e, hmem.mpr ⟨he, ?_⟩, ?_, hn⟩
    · rintro rfl
      have : x.1 ∈ liveIn s.live (s.kernel.page e) :=
        mem_liveIn.mpr ⟨⟨x.2, hx⟩, hp.symm⟩
      rw [hnone] at this
      exact absurd this (List.not_mem_nil)
    · simpa only [freeDesc, hk.page] using hp

-- ======== the searches

theorem Lists.chain_length (h : Lists s c f l) (i : Dir) : (c i).length ≤ s.used.length := by
  have hnd : ((c i).map s.kernel.page).Nodup := by
    refine List.Nodup.map_on (fun d hd e he hp => ?_) (h.chain_nodup i)
    exact h.page_inj hd he hp
  have hsub : (c i).map s.kernel.page ⊆ s.used := by
    intro p hp
    obtain ⟨d, hd, rfl⟩ := List.mem_map.mp hp
    exact h.page_used hd
  have hle := (hnd.subperm hsub).length_le
  rwa [List.length_map] at hle

/-- The search of `malloc` ends, at a descriptor with a free block if there
is one. -/
theorem findFree_spec (hw : Walk k.next a l₁ 0) (h0 : ∀ d ∈ l₁, d ≠ 0) (hn : l₁.length ≤ n) :
    (∃ d ∈ l₁, k.freeptr d ≠ 0 ∧ findFree k (n + 1) a = some d)
      ∨ findFree k (n + 1) a = some 0 := by
  induction l₁ generalizing n a with
  | nil => exact .inr (if_pos hw)
  | cons d l ih =>
    obtain ⟨rfl, hw⟩ := hw
    obtain ⟨ha, h0⟩ := List.forall_mem_cons.mp h0
    obtain ⟨n, rfl⟩ := Nat.exists_eq_add_of_le' hn
    rw [findFree, if_neg ha]
    split
    · rename_i hf
      exact .inl ⟨a, List.mem_cons_self .., hf, rfl⟩
    · rcases ih hw h0 (Nat.le_add_left ..) with ⟨d, hd, hf, he⟩ | he
      · exact .inl ⟨d, List.mem_cons_of_mem a hd, hf, he⟩
      · exact .inr he

/-- No descriptor of the chain has the page. -/
theorem findPage_none {prev : Nat} (hw : Walk k.next a l₁ 0)
    (h0 : ∀ d ∈ l₁, d ≠ 0 ∧ k.page d ≠ p) (hn : l₁.length ≤ n) :
    findPage k p (n + 1) prev a = some none := by
  induction l₁ generalizing n a prev with
  | nil => exact if_pos hw
  | cons d l ih =>
    obtain ⟨rfl, hw⟩ := hw
    obtain ⟨⟨ha, hp⟩, h0⟩ := List.forall_mem_cons.mp h0
    obtain ⟨n, rfl⟩ := Nat.exists_eq_add_of_le' hn
    rw [findPage, if_neg ha, if_neg hp]
    exact ih hw h0 (Nat.le_add_left ..)

/-- The first descriptor with the page is found, and the one before it. -/
theorem findPage_some {prev : Nat} (hw : Walk k.next a (l₁ ++ d :: l₂) 0)
    (h0 : ∀ e ∈ l₁, e ≠ 0 ∧ k.page e ≠ p) (hd : d ≠ 0) (hp : k.page d = p) (hn : l₁.length ≤ n) :
    findPage k p (n + 1) prev a = some (some (l₁.getLastD prev, d)) := by
  induction l₁ generalizing n a prev with
  | nil =>
    obtain ⟨rfl, -⟩ := hw
    rw [findPage, if_neg hd, if_pos hp, List.getLastD_nil]
  | cons e l ih =>
    obtain ⟨rfl, hw⟩ := hw
    obtain ⟨⟨ha, hpa⟩, h0⟩ := List.forall_mem_cons.mp h0
    obtain ⟨n, rfl⟩ := Nat.exists_eq_add_of_le' hn
    rw [findPage, if_neg ha, if_neg hpa, List.getLastD_cons]
    exact ih hw h0 (Nat.le_add_left ..)

/-- The search of `free_s` comes to the only entry whose chain has a
descriptor of the page. -/
theorem findDir_spec {x : Nat × Nat}
    (hi : findPage k p n 0 (k.chain i) = some (some x)) (hsz : sz ≤ size i)
    (hj : ∀ j, j ≠ i → findPage k p n 0 (k.chain j) = some none) :
    ∀ {is : List Dir}, i ∈ is → findDir k p n sz is = some (i, x) := by
  intro is
  induction is with
  | nil => exact fun h => absurd h (List.not_mem_nil)
  | cons j is ih =>
    intro hm
    rcases eq_or_ne j i with rfl | hne
    · rw [findDir, if_neg (Int.not_lt.mpr hsz), hi]
    · have hm' := (List.mem_cons.mp hm).resolve_left hne.symm
      rw [findDir]
      split
      · exact ih hm'
      · rw [hj j hne]
        exact ih hm'

/-- The predecessor that was found is still the right one. -/
theorem checkPrev_spec (hw : Walk k.next (k.chain i) (l₁ ++ d :: l₂) 0) (h0 : ∀ e ∈ l₁, e ≠ 0) :
    checkPrev k i d n (l₁.getLastD 0) = some (l₁.getLastD 0) := by
  rcases List.eq_nil_or_concat l₁ with rfl | ⟨l0, e, rfl⟩
  · have hd : k.chain i = d := hw.1
    rw [checkPrev, if_neg]
    simp [hd]
  · have he : e ≠ 0 := h0 e (by simp)
    rw [List.concat_eq_append, List.append_assoc] at hw
    obtain ⟨x, -, -, hd, -⟩ := walk_append.mp hw
    rw [checkPrev, if_neg]
    simp [he, hd]

theorem unlink_spec (hw : Walk k.next (k.chain i) (l₁ ++ d :: l₂) 0)
    (hnd : (l₁ ++ d :: l₂).Nodup) (h0 : ∀ e ∈ l₁, e ≠ 0) :
    ∃ k', unlink k i d (l₁.getLastD 0) = some k' ∧ Unlinked k k' i l₁ l₂ := by
  rcases List.eq_nil_or_concat l₁ with rfl | ⟨l0, e, rfl⟩
  · obtain ⟨hd, hw⟩ := hw
    refine ⟨{ k with chain := update k.chain i (k.next d) }, ?_,
      ⟨?_, fun j hj => update_of_ne hj .., fun x _ => rfl, rfl, rfl, rfl, rfl, rfl, rfl⟩⟩
    · simp [unlink, hd]
    · dsimp only
      rw [update_self]
      exact hw
  · have he : e ≠ 0 := h0 e (by simp)
    rw [List.concat_eq_append] at hw hnd ⊢
    rw [List.append_assoc] at hw hnd
    have hmid : (e :: (l0 ++ d :: l₂)).Nodup := List.nodup_middle.mp hnd
    rw [List.nodup_cons] at hmid
    have hne : ∀ x ∈ l0 ++ d :: l₂, x ≠ e := by
      rintro x hx rfl
      exact hmid.1 hx
    refine ⟨{ k with next := update k.next e (k.next d) }, ?_,
      ⟨?_, fun j _ => rfl, fun x hx => update_of_ne ?_ .., rfl, rfl, rfl, rfl, rfl, rfl⟩⟩
    · simp [unlink, he]
    · rw [List.append_assoc]
      refine Walk.remove hw (update_self ..)
        (fun x hx => update_of_ne (hne x ?_) ..)
        (fun x hx => update_of_ne (hne x ?_) ..)
      · exact List.mem_append_left _ hx
      · exact List.mem_append_right _ (List.mem_cons_of_mem d hx)
    · rintro rfl
      exact hx (by simp)

-- ======== the calls

/-- Every descriptor on a chain has an object on its page. -/
def Busy (s : System) (c : Dir → List Nat) : Prop :=
  ∀ i, ∀ d ∈ c i, liveIn s.live (s.kernel.page d) ≠ []

/-- A call of `malloc` returns a block of the smallest size that will do,
inside a page, where nothing else is. -/
structure Allocates (s s' : System) (len : Nat) : Prop where
  size : ∃ i, s'.live = (s'.ret, Malloc.size i) :: s.live ∧ len ≤ Malloc.size i
    ∧ (∀ j, len ≤ Malloc.size j → Malloc.size i ≤ Malloc.size j) ∧ pageOf s'.ret ≤ s'.ret
    ∧ s'.ret + Malloc.size i ≤ pageOf s'.ret + PAGE_SIZE
    ∧ (∀ x ∈ s.live, s'.ret + Malloc.size i ≤ x.1 ∨ x.1 + x.2 ≤ s'.ret) ∧ ∀ q ∈ s'.descPages,
      s'.ret + Malloc.size i ≤ q ∨ q + PAGE_SIZE ≤ s'.ret
  pages : s.used ⊆ s'.used

/-- A call of `free_s` makes the object free, and gives a page back if it
was the last one on it. -/
structure Frees (s s' : System) (obj : Nat) : Prop where
  live : s'.live = s.live.filter fun x => x.1 != obj
  pages : ∀ p ∈ s.used, p ∉ s'.used ↔ p = pageOf obj ∧ liveIn s'.live p = []

theorem dirFor_spec (h : len ≤ 4096) : ∃ i, dirFor len = some i
    ∧ len ≤ size i ∧ ∀ j, len ≤ size j → size i ≤ size j := by
  cases hd : dirFor len with
  | none =>
    have h8 := List.find?_eq_none.mp hd 8 (List.mem_finRange 8)
    rw [decide_eq_true_eq] at h8
    exact absurd h h8
  | some i =>
    have hi := List.find?_some hd
    rw [decide_eq_true_eq] at hi
    refine ⟨i, rfl, hi, fun j hj => ?_⟩
    obtain ⟨-, as, bs, heq, has⟩ := List.find?_eq_some_iff_append.mp hd
    have hsorted : (List.finRange 9).Pairwise fun a b =>
      size a ≤ size b := by decide
    rw [heq, List.pairwise_append] at hsorted
    have hm := List.mem_finRange j
    rw [heq] at hm
    rcases List.mem_append.mp hm with hm | hm
    · have := has j hm
      simp at this
      omega
    · rcases List.mem_cons.mp hm with rfl | hm
      · exact Nat.le_refl _
      · exact (List.pairwise_cons.mp hsorted.2.1).1 j hm

/-- A block that is free overlaps no object and no descriptor. -/
theorem Lists.free_apart (h : Lists s c f l) (hd : d ∈ c i) (ha : a ∈ l d) :
    (∀ x ∈ s.live, a + Malloc.size i ≤ x.1 ∨ x.1 + x.2 ≤ a)
    ∧ ∀ q ∈ s.descPages, a + Malloc.size i ≤ q ∨ q + PAGE_SIZE ≤ a := by
  have hb := h.mem_free hd ha
  have hin := mem_blocks hb
  have hal := (h.page_aligned hd).2
  -- different pages are a page apart
  have hpages : ∀ p, p % PAGE_SIZE = 0 → p ≠ s.kernel.page d →
      s.kernel.page d + PAGE_SIZE ≤ p ∨ p + PAGE_SIZE ≤ s.kernel.page d := by
    intro p hp hne
    simp only [PAGE_SIZE] at *
    omega
  refine ⟨fun x hx => ?_, fun q hq => ?_⟩
  · obtain ⟨j, e, he, hp, hn, hxb⟩ := h.live_desc hx
    rcases eq_or_ne e d with rfl | hed
    · obtain rfl := h.apart he hd
      rw [hn]
      refine blocks_apart hb hxb ?_
      rintro rfl
      have hnd := h.blocks_nodup hd
      rw [List.nodup_append] at hnd
      exact hnd.2.2 _ ha _ (mem_liveIn.mpr ⟨⟨x.2, hx⟩, hp.symm⟩) rfl
    · have hxin := mem_blocks hxb
      rcases hpages _ (h.page_aligned he).2 (fun heq => hed (h.page_inj he hd heq)) with h' | h'
      · exact .inl (by omega)
      · exact .inr (by omega)
  · have hqu := (h.pages q).mpr (.inl hq)
    rcases hpages q (h.aligned q hqu).2 (fun heq => h.not_desc hd (heq ▸ hq)) with h' | h'
    · exact .inl (by omega)
    · exact .inr (by omega)

/-- What a call of `malloc` does when it has found its page. -/
theorem Lists.allocates (h : Lists s c f l) (hd : d ∈ c i)
    (hb : ∀ j, ∀ e ∈ c j, e ≠ d → liveIn s.live (s.kernel.page e) ≠ [])
    (hfree : s.kernel.freeptr d ≠ 0) (hlen : len ≤ Malloc.size i)
    (hmin : ∀ j, len ≤ Malloc.size j → Malloc.size i ≤ Malloc.size j) :
    ∃ l', Lists (takeBlock s i d) c f l' ∧ Busy (takeBlock s i d) c
      ∧ Allocates s (takeBlock s i d) len := by
  obtain ⟨b, hl, h'⟩ := h.take hd hfree
  have hm : s.kernel.freeptr d ∈ l d := by
    rw [hl]
    exact List.mem_cons_self ..
  have hin := mem_blocks (h.mem_free hd hm)
  have hp := pageOf_block (h.page_aligned hd).2 (h.mem_free hd hm)
  obtain ⟨h1, h2⟩ := h.free_apart hd hm
  refine ⟨_, h', fun j e he => ?_, ⟨⟨i, rfl, hlen, hmin, ?_, ?_, h1, h2⟩, fun _ hx => hx⟩⟩
  · show liveIn ((s.kernel.freeptr d, Malloc.size i) :: s.live) (s.kernel.page e) ≠ []
    rw [liveIn_cons]
    split
    · exact List.cons_ne_nil _ _
    · rename_i hne
      refine hb j e he ?_
      rintro rfl
      exact hne hp
  · show pageOf (s.kernel.freeptr d) ≤ s.kernel.freeptr d
    rw [hp]
    exact hin.1
  · show s.kernel.freeptr d + Malloc.size i ≤ pageOf (s.kernel.freeptr d) + PAGE_SIZE
    rw [hp]
    exact hin.2

/-- The system after a page for blocks has been added. -/
def withBucket (s : System) (i : Dir) (p : Nat) : System :=
  { s with kernel := newBucket s.kernel i p, used := p :: s.used }

/-- What a call of `malloc` does when it has made a new page. -/
theorem Lists.allocates_new (h : Lists s c (d :: f) l) (hb : Busy s c)
    (hp : Fresh s p) (hlen : len ≤ Malloc.size i)
    (hmin : ∀ j, len ≤ Malloc.size j → Malloc.size i ≤ Malloc.size j) :
    ∃ s' c' l', takeBlock (withBucket s i p) i ((withBucket s i p).kernel.chain i) = s'
      ∧ Lists s' c' f l' ∧ Busy s' c' ∧ Allocates s s' len := by
  obtain ⟨hd, h2⟩ := h.add hp
  have hch : (withBucket s i p).kernel.chain i = d := by
    simp [withBucket, newBucket, hd]
  have hmem : d ∈ update c i (d :: c i) i := by
    rw [update_self]
    exact List.mem_cons_self ..
  have hfp : (withBucket s i p).kernel.freeptr d ≠ 0 := by
    simp only [withBucket, newBucket, hd, update_self]
    exact hp.1
  have hbusy : ∀ j, ∀ e ∈ update c i (d :: c i) j, e ≠ d →
      liveIn (withBucket s i p).live ((withBucket s i p).kernel.page e) ≠ [] := by
    intro j e he hne
    simp only [withBucket, newBucket, hd, update_of_ne hne]
    exact hb j e ((mem_chained.mp he).resolve_left fun h => hne h.2)
  rw [hch]
  obtain ⟨l', h3, h4, h5⟩ := Lists.allocates h2 hmem hbusy hfp hlen hmin
  exact ⟨_, _, l', rfl, h3, h4, h5.size, fun x hx => h5.pages (List.mem_cons_of_mem p hx)⟩

/-- `malloc` finds a page with a free block, or makes one. -/
theorem malloc_spec (h : Lists s c f l) (hb : Busy s c) (hok : Ok (.malloc len q p) s) :
    ∃ s' c' f' l', malloc s len [q, p] = some s' ∧ Lists s' c' f' l'
      ∧ Busy s' c' ∧ Allocates s s' len := by
  obtain ⟨hlen, hq, hp, hqp⟩ := hok
  obtain ⟨i, hi, hle, hmin⟩ := dirFor_spec hlen
  rw [malloc, hi, Option.bind_some]
  have hnz : ∀ d ∈ c i, d ≠ 0 :=
    fun d hd => h.desc_ne_zero (.inr ⟨i, hd⟩)
  rcases findFree_spec (h.chain i) hnz (h.chain_length i) with
    ⟨d, hd, hf, he⟩ | he
  · rw [he, Option.bind_some, if_pos (hnz d hd)]
    obtain ⟨l', h1, h2, h3⟩ := h.allocates hd (fun j e he _ => hb j e he) hf hle hmin
    exact ⟨_, c, f, l', rfl, h1, h2, h3⟩
  · rw [he, Option.bind_some, if_neg (by simp)]
    cases f with
    | nil =>
      -- the first page is for descriptors, the second one for blocks
      have h0 : s.kernel.freeBucketDesc = 0 := h.frees
      have hinit := h.init hq
      have hcons : Malloc.descs q = q :: cells DESC_SIZE
          (PAGE_SIZE / DESC_SIZE - 2) (q + DESC_SIZE) :=
        Lib.cells_succ ..
      rw [hcons] at hinit
      have hp' : p ∉ q :: s.used := by
        rw [List.mem_cons, not_or]
        exact ⟨hqp.symm, hp.2.2⟩
      obtain ⟨s', c', l', hs, h1, h2, h3⟩ := hinit.allocates_new hb ⟨hp.1, hp.2.1, hp'⟩ hle hmin
      rw [withDesc, if_neg (by simp [h0]), Option.bind_some]
      exact ⟨s', c', _, l', congrArg some hs, h1, h2, h3.size,
        fun x hx => h3.pages (List.mem_cons_of_mem q hx)⟩
    | cons d f =>
      have h0 : s.kernel.freeBucketDesc ≠ 0 := by
        rw [h.frees.1]
        exact h.desc_ne_zero (.inl (List.mem_cons_self ..))
      obtain ⟨s', c', l', hs, h1, h2, h3⟩ := h.allocates_new hb hq hle hmin
      rw [withDesc, if_pos h0, Option.bind_some]
      exact ⟨s', c', f, l', congrArg some hs, h1, h2, h3⟩

/-- `free_s` finds the page of an object. -/
theorem freeS_spec (h : Lists s c f l) (hb : Busy s c) (hok : Ok (.freeS obj sz) s) :
    ∃ s' c' f' l', freeS s obj sz = some s' ∧ Lists s' c' f' l' ∧ Busy s' c' ∧ Frees s s' obj := by
  obtain ⟨⟨_, n⟩, hx, rfl, hsz⟩ := hok
  rename_i obj
  obtain ⟨i, d, hd, hp, hn, -⟩ := h.live_desc hx
  have hlive : obj ∈ liveIn s.live (s.kernel.page d) :=
    mem_liveIn.mpr ⟨⟨n, hx⟩, hp.symm⟩
  obtain ⟨l₁, l₂, hc⟩ := List.append_of_mem hd
  have hw := h.chain i
  have hlen := h.chain_length i
  have hnd := h.chain_nodup i
  rw [hc] at hw hlen hnd
  have hnz : ∀ {j e}, e ∈ c j → e ≠ 0 :=
    fun he => h.desc_ne_zero (.inr ⟨_, he⟩)
  have hl1 : ∀ e ∈ l₁, e ≠ 0 := fun e he => hnz (by
    rw [hc]
    exact List.mem_append_left _ he)
  have hfind : findDir s.kernel (pageOf obj) (s.used.length + 1) sz
      (List.finRange 9) = some (i, l₁.getLastD 0, d) := by
    refine findDir_spec ?_ (hn ▸ hsz) (fun j hj => ?_) (List.mem_finRange i)
    · refine findPage_some hw (fun e he => ⟨hl1 e he, ?_⟩) (hnz hd) hp ?_
      · intro hpe
        have hec : e ∈ c i := by
          rw [hc]
          exact List.mem_append_left _ he
        obtain rfl := h.page_inj hec hd (hpe.trans hp.symm)
        rw [List.nodup_append] at hnd
        exact hnd.2.2 _ he _ (List.mem_cons_self ..) rfl
      · rw [List.length_append] at hlen
        omega
    · refine findPage_none (h.chain j) (fun e he => ⟨hnz he, ?_⟩) (h.chain_length j)
      intro hpe
      obtain rfl := h.page_inj he hd (hpe.trans hp.symm)
      exact hj (h.apart he hd)
  have hput := h.put hd hlive
  have hcount := hput.count hd
  have hpd : (putBlock s.kernel d obj).page = s.kernel.page := rfl
  -- the objects on other pages are still there
  have hbusy : ∀ j, ∀ e ∈ c j, e ≠ d →
      liveIn (s.live.filter fun x => x.1 != obj) (s.kernel.page e) ≠ [] := by
    intro j e he hne
    rw [liveIn_filter, List.filter_eq_self.mpr]
    · exact hb j e he
    · intro a ha
      have hao : a ≠ obj := by
        rintro rfl
        refine hne (h.page_inj he hd ?_)
        rw [hp, ← (mem_liveIn.mp ha).2]
      simpa using hao
  rw [freeS, hfind, Option.bind_some]
  dsimp only
  split
  · rename_i hz
    have hnone : liveIn (s.live.filter fun x => x.1 != obj) (s.kernel.page d) = [] :=
      List.length_eq_zero_iff.mp (hcount.symm.trans hz)
    obtain ⟨k', hk', hun⟩ := unlink_spec (k := putBlock s.kernel d obj) hw hnd hl1
    rw [checkPrev_spec (k := putBlock s.kernel d obj) hw hl1,
      Option.bind_some, hk', Option.map_some]
    have hdrop := hput.drop hc hnone hun
    refine ⟨_, _, _, _, rfl, hdrop, fun j e he => ?_, rfl, fun x hx => ?_⟩
    · have he' := (h.mem_unchained hc).mp he
      simp only [freeDesc, hun.page, hpd]
      exact hbusy j e he'.1 he'.2
    · simp only [hun.page, hpd, hp]
      rw [h.used_nodup.mem_erase_iff, not_and_or, not_not]
      refine ⟨fun hx' => ?_, fun hx' => .inl hx'.1⟩
      have hxp := hx'.resolve_right (fun hn => hn hx)
      refine ⟨hxp, ?_⟩
      rw [hxp, ← hp]
      exact hnone
  · rename_i hz
    have hsome : liveIn (s.live.filter fun x => x.1 != obj) (s.kernel.page d) ≠ [] := by
      intro hnil
      refine hz (hcount.trans ?_)
      exact List.length_eq_zero_iff.mpr hnil
    refine ⟨_, c, f, _, rfl, hput, fun j e he => ?_, rfl, fun x hx => ?_⟩
    · rcases eq_or_ne e d with rfl | hne
      · exact hsome
      · exact hbusy j e he hne
    · refine iff_of_false (fun hn => hn hx) ?_
      rintro ⟨rfl, hnil⟩
      rw [← hp] at hnil
      exact hsome hnil

/-- What the owner of an object writes is on no free list. -/
theorem Lists.write {v : Nat} (h : Lists s c f l)
    (hok : Ok (.write a v) s) : Lists { s with
      kernel := { s.kernel with mem := update s.kernel.mem a v } }
      c f l := by
  obtain ⟨x, hx, hle, hlt⟩ := hok
  refine ⟨h.chain, h.frees, h.chain_nodup, h.frees_nodup, h.apart,
    h.not_free, h.descs, h.pages, h.not_desc, h.page_inj, h.used_nodup,
    h.aligned, h.size, fun {i d} hd => ?_, h.blocks, h.count, h.live⟩
  refine (h.free hd).congr fun b hb => update_of_ne ?_ ..
  rintro rfl
  have := (h.free_apart hd hb).1 x hx
  have hs := size_pos i
  omega

/-- The invariant of the runs. -/
def Inv (s : System) : Prop :=
  ∃ c f l, Lists s c f l ∧ Busy s c

theorem Inv.step {o : Op} {s' : System} (h : Inv s) (hok : Ok o s)
    (hs : step o s = some s') : Inv s' := by
  obtain ⟨c, f, l, hl, hb⟩ := h
  cases o with
  | malloc len q p =>
    obtain ⟨s1, c', f', l', h1, h2, h3, -⟩ := malloc_spec hl hb hok
    have hs' : malloc s len [q, p] = some s' := hs
    rw [hs'] at h1
    cases h1
    exact ⟨c', f', l', h2, h3⟩
  | freeS obj sz =>
    obtain ⟨s1, c', f', l', h1, h2, h3, -⟩ := freeS_spec hl hb hok
    have hs' : freeS s obj sz = some s' := hs
    rw [hs'] at h1
    cases h1
    exact ⟨c', f', l', h2, h3⟩
  | write a v =>
    cases hs
    exact ⟨c, f, l, hl.write hok, hb⟩

theorem inv_boot : Inv System.boot := by
  refine ⟨fun _ => [], [], fun _ => [], ⟨fun _ => rfl, rfl,
    fun _ => List.nodup_nil, List.nodup_nil, ?_, ?_, fun d => ?_,
    fun p => ?_, ?_, ?_, List.nodup_nil, ?_, ?_, ?_, ?_, ?_, ?_⟩, ?_⟩
  all_goals simp [System.boot, Busy]

/-- In every run in which callers and `get_free_page` do what they should:
the lists are in order, and the next call returns. `malloc` returns memory
that is in no other use, and `free_s` gives back a page with its last
object. -/
theorem malloc_sound {os : List Op} (hok : Meets step Ok os System.boot)
    (h : runOps step os System.boot = some s) : (∃ c f l, Lists s c f l ∧ Busy s c)
    ∧ (∀ len q p, Ok (.malloc len q p) s →
      ∃ s', step (.malloc len q p) s = some s' ∧ Allocates s s' len)
    ∧ ∀ obj sz, Ok (.freeS obj sz) s → ∃ s', step (.freeS obj sz) s = some s' ∧ Frees s s' obj := by
  obtain ⟨c, f, l, hl, hb⟩ : Inv s := runOps_invariant
    (fun o s s' hI hg hs => Inv.step hI hg hs) hok h inv_boot
  refine ⟨⟨c, f, l, hl, hb⟩, fun len q p hm => ?_, fun obj sz hm => ?_⟩
  · obtain ⟨s', -, -, -, h1, -, -, h2⟩ := malloc_spec hl hb hm
    exact ⟨s', h1, h2⟩
  · obtain ⟨s', -, -, -, h1, -, -, h2⟩ := freeS_spec hl hb hm
    exact ⟨s', h1, h2⟩

/-- Two objects of 2000 bytes share a page, one of 100 has its own. The
first page goes when both are free, one of them given with its size. -/
theorem malloc_sound_pages : ∃ s, runOps step
      [.malloc 2000 0x1000 0x2000, .malloc 100 0x3000 0x4000,
        .malloc 2000 0x5000 0x6000, .write 0x2804 7,
        .freeS 0x2000 2000, .freeS 0x2800 0] System.boot = some s
    ∧ s.used = [0x3000, 0x1000] ∧ s.live = [(0x3000, 128)] ∧ ∃ c f l, Lists s c f l ∧ Busy s c := by
  exact exists_checked Ok (fun s => s.used = [0x3000, 0x1000] ∧ s.live = [(0x3000, 128)])
    (by decide +kernel) fun s hok h hv => ⟨hv.1, hv.2, (malloc_sound hok h).1⟩

end LearnLinux.Malloc
