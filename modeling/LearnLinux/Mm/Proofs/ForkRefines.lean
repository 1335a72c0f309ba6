/-
Copy-on-write fork refines an eager copy.

The abstract fork gives each side its own bytes (`Eager`, Access.lean).
The machine's fork only shares pages, and every store after it goes
through the write-protect fault; `refines_eager_copy` says no run of
stores by the two sides, in any order, can tell the difference. The
simulation relation is that every offset of either range reads as the
abstract side does, and one store keeps it by `userWrite_spec`.

# The counts are bytes

`mem_map` is an array of unsigned chars and `copy_page_tables` does not
look at what it increments. A frame whose references reach 256 counts
as free, the next write fault takes it from under its owners, and the
refinement is lost: `fork_count_wraps` is such a state. The theorem
therefore asks that the copy leaves every count below 256. The kernel's
own runs have at most 64 references to a frame (Accounting.lean), so
they always have the room.
-/
import LearnLinux.Lib.Run
import LearnLinux.Mm.Proofs.Access
import LearnLinux.Mm.Proofs.Boot
import LearnLinux.Mm.Proofs.Fork

namespace LearnLinux.Mm

open Lib

variable {lo hi base off n i : Nat} {s s₁ s₂ : Mem} {src dst size : Nat} {H : Finset Nat}
variable {w : Write}

-- ======== ranges

/-- The two ranges of a fork: `n` directory entries each, both in user
space, not overlapping. -/
structure Ranges (src dst n : Nat) : Prop where
  srcUser : 0x1000000 ≤ src
  dstUser : 0x1000000 ≤ dst
  srcEnd : src + n * 0x400000 ≤ 2 ^ 32
  dstEnd : dst + n * 0x400000 ≤ 2 ^ 32
  apart : src + n * 0x400000 ≤ dst ∨ dst + n * 0x400000 ≤ src

/-- Translation inside an aligned range. -/
theorem dirNr_add (hb : base % 0x400000 = 0)
    (hend : base + n * 0x400000 ≤ 2 ^ 32) (hoff : off < n * 0x400000) :
    dirNr (base + off) = dirNr base + off / 0x400000 := by
  unfold dirNr
  omega

theorem pageNr_add (hb : base % 0x400000 = 0) (off : Nat) : pageNr (base + off) = pageNr off := by
  unfold pageNr
  omega

section

variable (h : Ranges src dst n) (hoff : off < n * 0x400000)
include h hoff

theorem Ranges.srcAddr : UserAddr (src + off) := by
  have := h.srcUser
  have := h.srcEnd
  exact ⟨by omega, by omega⟩

theorem Ranges.dstAddr : UserAddr (dst + off) := by
  have := h.dstUser
  have := h.dstEnd
  exact ⟨by omega, by omega⟩

theorem Ranges.baseAddr (side : Side) : UserAddr (side.base src dst + off) := by
  cases side with
  | parent => exact h.srcAddr hoff
  | child => exact h.dstAddr hoff

/-- The two ranges never meet: an address fixes its side. -/
theorem Ranges.base_inj {off' : Nat} {side side' : Side} (hoff' : off' < n * 0x400000) :
    side.base src dst + off = side'.base src dst + off' ↔ side = side' ∧ off = off' := by
  have := h.apart
  cases side <;> cases side' <;> simp [Side.base] <;> omega

end

-- ======== the fork

/-- `copy_page_tables` between two user ranges. -/
theorem Paging.dirsCopied_of_copyPageTables {r : Int}
    (h : Paging lo hi H s) (hr : Ranges src dst (dirCount size))
    (hroom : ∀ f, InMain lo hi f → s.memMap (f - 256)
      + rectRefs s (dirNr src) (dirCount size) f < 256)
    (hfork : copyPageTables src dst size s = .ok (r, s₁)) : src % 0x400000 = 0 ∧ dst % 0x400000 = 0
      ∧ ∃ m, m ≤ dirCount size ∧ (r = 0 → m = dirCount size)
        ∧ DirsCopied lo hi H s (dirNr src) (dirNr dst) m s₁ := by
  obtain ⟨hsu, hdu, hse, hde, hap⟩ := hr
  unfold copyPageTables at hfork
  split at hfork
  · cases hfork
  rename_i hal
  have hsal : src % 0x400000 = 0 := by omega
  have hdal : dst % 0x400000 = 0 := by omega
  rw [if_neg (by omega)] at hfork
  refine ⟨hsal, hdal, ?_⟩
  -- an empty range has no directory entries to look at
  by_cases hn : dirCount size = 0
  · rw [hn] at hfork
    cases hfork
    rw [hn]
    exact ⟨0, le_refl _, fun _ => rfl, h.dirsCopied_zero⟩
  · have hs : dirNr src = src / 0x400000 := by
      unfold dirNr
      omega
    have hd : dirNr dst = dst / 0x400000 := by
      unfold dirNr
      omega
    exact copyDirs_user _ _ _ s r s₁ h (by omega) (by omega) (by omega)
      (by omega) (by omega) hroom hfork

/-- Right after the fork both sides read alike, and the parent reads
what it read before. -/
theorem DirsCopied.reads (h : DirsCopied lo hi H s (dirNr src) (dirNr dst) n s₁)
    (hr : Ranges src dst n) (hsal : src % 0x400000 = 0)
    (hdal : dst % 0x400000 = 0) (hoff : off < n * 0x400000) :
    userRead s₁ (dst + off) = userRead s₁ (src + off) ∧ (OffDir (entryOf s (src + off)) →
        userRead s₁ (src + off) = userRead s (src + off)) := by
  have hds := dirNr_add hsal hr.srcEnd hoff
  have hdd := dirNr_add hdal hr.dstEnd hoff
  have hps := pageNr_add hsal off
  have hpd := pageNr_add hdal off
  have hlt : off / 0x400000 < n := by omega
  have h4 : (dst + off) % 4096 = (src + off) % 4096 := by omega
  have h4' : (dst + off) % 4 = (src + off) % 4 := by omega
  constructor
  · rw [userRead_eq, userRead_eq, hds, hdd, hps, hpd, h4, h4', h.copy hlt (pageNr_lt off)]
  · intro hod
    refine userRead_congr (h.view _ _ _ (hr.srcAddr hoff).dir (pageNr_lt _) (by omega) ?_ hod)
    have := hr.apart
    have := hr.srcEnd
    have := hr.dstEnd
    rw [hds]
    unfold dirNr
    omega

-- ======== the refinement

/-- One store, machine against eager copy. -/
theorem write_simulates (hr : Ranges src dst n)
    (hw : w.offset < n * 0x400000) {m : Eager} (h : Paging lo hi ∅ s)
    (hR : ∀ side off, off < n * 0x400000 → userRead s (side.base src dst + off) = m side off)
    (hstep : w.step src dst s = some s₁) : Paging lo hi ∅ s₁ ∧ ∀ side off, off < n * 0x400000 →
      userRead s₁ (side.base src dst + off) = m.write w side off := by
  obtain ⟨hpg, hread⟩ := userWrite_spec h (hr.baseAddr hw w.side) hstep
  refine ⟨hpg, fun side off hoff => ?_⟩
  rw [hread _ (hr.baseAddr hoff side), hR side off hoff]
  unfold Eager.write
  by_cases hc : side = w.side ∧ off = w.offset
  · rw [if_pos hc, if_pos ((hr.base_inj hoff hw).mpr hc)]
  · rw [if_neg hc, if_neg fun he => hc ((hr.base_inj hoff hw).mp he)]

/-- A store by one side shows at no address outside the two ranges. -/
theorem write_outside (hr : Ranges src dst n) (hw : w.offset < n * 0x400000) (h : Paging lo hi ∅ s)
    (hstep : w.step src dst s = some s₁) {a : Nat} (ha : UserAddr a)
    (hns : ¬ (src ≤ a ∧ a < src + n * 0x400000)) (hnd : ¬ (dst ≤ a ∧ a < dst + n * 0x400000)) :
    userRead s₁ a = userRead s a := by
  rw [(userWrite_spec h (hr.baseAddr hw w.side) hstep).2 a ha, if_neg]
  intro hc
  cases hside : w.side <;> rw [hside] at hc <;> simp only [Side.base] at hc <;> omega

/-- Fork, then any interleaving of stores by the two sides: at every
offset each side reads what the eager copy holds for it, no other
address space notices, and the fork itself changed nothing the parent
reads (its own view of the page directory apart). -/
theorem refines_eager_copy {ws : List Write} (h : Paging lo hi ∅ s)
    (hr : Ranges src dst (dirCount size)) (hroom : ∀ f, InMain lo hi f → s.memMap (f - 256)
      + rectRefs s (dirNr src) (dirCount size) f < 256)
    (hfork : copyPageTables src dst size s = .ok (0, s₁))
    (hws : ∀ w ∈ ws, w.offset < dirCount size * 0x400000)
    (hrun : runOps (Write.step src dst) ws s₁ = some s₂) : (∀ off, off < dirCount size * 0x400000 →
        OffDir (entryOf s (src + off)) → userRead s₁ (src + off) = userRead s (src + off))
      ∧ (∀ side off, off < dirCount size * 0x400000 → userRead s₂ (side.base src dst + off)
            = ws.foldl Eager.write (Eager.ofFork s₁ src) side off) ∧ ∀ a, UserAddr a →
          ¬ (src ≤ a ∧ a < src + dirCount size * 0x400000) →
          ¬ (dst ≤ a ∧ a < dst + dirCount size * 0x400000) → userRead s₂ a = userRead s₁ a := by
  obtain ⟨hsal, hdal, m, -, hm, hd⟩ :=
    h.dirsCopied_of_copyPageTables hr hroom hfork
  obtain rfl := hm rfl
  have hreads := fun off (hoff : off < dirCount size * 0x400000) =>
    hd.reads hr hsal hdal hoff
  refine ⟨fun off hoff => (hreads off hoff).2, ?_, ?_⟩
  · -- the simulation, started from the state the fork left
    have hstart : Paging lo hi ∅ s₁ ∧ ∀ side off, off < dirCount size * 0x400000 →
        userRead s₁ (side.base src dst + off) = Eager.ofFork s₁ src side off := by
      refine ⟨hd.paging, fun side off hoff => ?_⟩
      cases side with
      | parent => rfl
      | child => exact (hreads off hoff).1
    have hsim := runOps_sim (R := fun s (m : Eager) => Paging lo hi ∅ s ∧ ∀ side off,
        off < dirCount size * 0x400000 → userRead s (side.base src dst + off) = m side off)
      (fun w s s' m hw hR hs => write_simulates hr hw hR.1 hR.2 hs) hws hrun hstart
    exact hsim.2
  · intro a ha hns hnd
    have hinv := runOps_invariant (I := fun s => Paging lo hi ∅ s ∧ userRead s a = userRead s₁ a)
      (fun w s s' hI hw hs => ⟨(userWrite_spec hI.1 (hr.baseAddr hw w.side) hs).1,
        (write_outside hr hw hI.1 hs ha hns hnd).trans hI.2⟩)
      (meets_of_forall (fun w hw _ => hws w hw) s₁) hrun ⟨hd.paging, rfl⟩
    exact hinv.2

/-- A first page at 64 Mb, a fork to 128 Mb, a store by the child and
one by the parent. -/
def firstPage : Option (Mem × Mem × Mem) := do
  let s ← (getEmptyPage 0x4000000 (bootMem 0x400000 0x1000000 ⟨fun _ => 0, fun _ => 0, 0⟩)).toOption
  let (r, s₁) ← (copyPageTables 0x4000000 0x8000000 4096 s).toOption
  if r = 0 then
    let s₂ ← runOps (Write.step 0x4000000 0x8000000) [⟨.child, 3, 7⟩, ⟨.parent, 3, 9⟩] s₁
    some (s, s₁, s₂)
  else none

theorem firstPage_isSome : firstPage.isSome := by decide +kernel

theorem firstPage_eq_some {s s₁ s₂ : Mem} (h : firstPage = some (s, s₁, s₂)) :
    getEmptyPage 0x4000000 (bootMem 0x400000 0x1000000 ⟨fun _ => 0, fun _ => 0, 0⟩) = .ok s
      ∧ copyPageTables 0x4000000 0x8000000 4096 s = .ok (0, s₁)
      ∧ runOps (Write.step 0x4000000 0x8000000) [⟨.child, 3, 7⟩, ⟨.parent, 3, 9⟩] s₁ = some s₂ := by
  unfold firstPage at h
  obtain ⟨s', hs, h⟩ := Option.bind_eq_some_iff.mp h
  obtain ⟨⟨r, s1'⟩, hf, h⟩ := Option.bind_eq_some_iff.mp h
  obtain ⟨hr, h⟩ := Option.ite_none_right_eq_some.mp h
  obtain ⟨s2', hrun, h⟩ := Option.bind_eq_some_iff.mp h
  cases h
  subst hr
  exact ⟨ok_of_toOption hs, ok_of_toOption hf, hrun⟩

/-- The fork of `firstPage`: the two stores land apart. -/
theorem refines_eager_copy_firstPage : ∃ s s₁ s₂ : Mem, Paging 0x400 0x1000 ∅ s
      ∧ copyPageTables 0x4000000 0x8000000 4096 s = .ok (0, s₁)
      ∧ runOps (Write.step 0x4000000 0x8000000) [⟨.child, 3, 7⟩, ⟨.parent, 3, 9⟩] s₁ = some s₂
      ∧ userRead s₂ (0x4000000 + 3) = some 9 ∧ userRead s₂ (0x8000000 + 3) = some 7 := by
  obtain ⟨⟨s, s₁, s₂⟩, hx⟩ := Option.isSome_iff_exists.mp firstPage_isSome
  obtain ⟨hs, hfork, hrun⟩ := firstPage_eq_some hx
  have hb : MemBounds 0x400000 0x1000000 := by
    constructor <;> decide
  have hboot := paging_bootMem hb ⟨fun _ => 0, fun _ => 0, 0⟩
  have huser : UserDir (dirNr 0x4000000) := ⟨by decide, by decide⟩
  obtain ⟨page, f, s0, hfr, hput, hpg⟩ := hboot.pagePut_of_getEmptyPage huser
    (by rw [bootMem_pteAt huser]; exact not_present_zero) hs
  have hr : Ranges 0x4000000 0x8000000 (dirCount 4096) := by
    constructor <;> decide
  have hroom : ∀ f, InMain 0x400 0x1000 f → s.memMap (f - 256)
      + rectRefs s (dirNr 0x4000000) (dirCount 4096) f < 256 := by
    intro g hg
    -- one page and its table: no count is above one
    have h1 : s.memMap (g - 256) ≤ 1 := by
      have := hput.map (g - 256)
      rw [hfr.map, Function.update_apply,
        bootMem_map hb _ (by have := hg.1; omega) hg.2, if_pos hg] at this
      split at this <;> omega
    have h2 := hpg.rectRefs_le_map (i := dirNr 0x4000000)
      (n := dirCount 4096) (by decide) (by decide) hg
    omega
  have hmain := refines_eager_copy hpg hr hroom hfork (by decide) hrun
  refine ⟨s, s₁, s₂, hpg, hfork, hrun, ?_, ?_⟩
  · exact hmain.2.1 .parent 3 (by decide)
  · exact hmain.2.1 .child 3 (by decide)

-- ======== a count that wraps

/-- A page with 255 references: 254 from the task at 192 Mb and one,
read-only like the others, from the task at 64 Mb. -/
def crowded : Mem where
  word k :=
    if k = 16 then entry7 (4094 * 4096)
    else if k = 48 then entry7 (4093 * 4096)
    else if k = 4094 * 1024 then 4095 * 4096 + 5
    else if 4093 * 1024 ≤ k ∧ k < 4093 * 1024 + 254 then 4095 * 4096 + 5
    else if k / 1024 = 4095 then 42
    else 0
  memMap i :=
    if i = 4095 - 256 then 255
    else if i = 4094 - 256 ∨ i = 4093 - 256 then 1
    else if i = 4092 - 256 then 0
    else usedCount
  highMemory := 4096 * 4096

theorem crowded_dir (hi : UserDir i) : crowded.word i = if i = 16 then entry7 (4094 * 4096)
      else if i = 48 then entry7 (4093 * 4096) else 0 := by
  have := hi.2
  unfold crowded
  simp only
  repeat' split
  all_goals omega

theorem crowded_pte {j : Nat} (hi : UserDir i) (hj : j < 1024) :
    pteAt crowded i j = if i = 16 ∧ j = 0 ∨ i = 48 ∧ j < 254 then
      4095 * 4096 + 5 else 0 := by
  unfold pteAt
  rw [crowded_dir hi]
  by_cases h16 : i = 16
  · rw [if_pos h16, if_pos (present_entry7 4094), tablePtr_eq, frame_entry7]
    unfold crowded
    simp only
    repeat' split
    all_goals omega
  rw [if_neg h16]
  by_cases h48 : i = 48
  · rw [if_pos h48, if_pos (present_entry7 4093), tablePtr_eq, frame_entry7]
    unfold crowded
    simp only
    repeat' split
    all_goals omega
  rw [if_neg h48, if_neg not_present_zero, if_neg (by omega)]

theorem crowded_target {x : Nat × Nat} (hx : x ∈ userSlots) : target crowded x
      = if x = (16, 1024) then some 4094
        else if x = (48, 1024) then some 4093
        else if x = (16, 0) ∨ x.1 = 48 ∧ x.2 < 254 then some 4095
        else none := by
  obtain ⟨hi, hj⟩ := mem_userSlots hx
  obtain ⟨i, j⟩ := x
  simp only [Prod.mk.injEq]
  rcases hj with hj | hj
  · simp only at hi hj
    have h1 : ¬ (i = 16 ∧ j = 1024) := by omega
    have h2 : ¬ (i = 48 ∧ j = 1024) := by omega
    rw [target_page _ hj, crowded_pte hi hj]
    simp only [h1, h2, if_false]
    split
    · decide
    · exact entryTarget_zero
  · simp only at hi hj
    subst hj
    rw [target_table, crowded_dir hi]
    by_cases h16 : i = 16
    · simp only [h16, if_true, and_self]
      decide
    by_cases h48 : i = 48
    · simp only [h48, if_true, and_self]
      decide
    · simp only [h16, h48, if_false, false_and, or_self]
      exact entryTarget_zero

/-- The counts of `crowded` are exact. -/
theorem crowded_refs {f : Nat} (hf : InMain 4092 4096 f) :
    frameRefs crowded f = crowded.memMap (f - 256) := by
  have hcases : f = 4092 ∨ f = 4093 ∨ f = 4094 ∨ f = 4095 := by
    unfold InMain at hf
    omega
  have hcard : ∀ T : Finset (Nat × Nat), (∀ x ∈ T, x ∈ userSlots) →
      (∀ x ∈ userSlots, x ∈ T ↔ target crowded x = some f) → frameRefs crowded f = T.card := by
    intro T hsub hT
    refine refs_eq_card fun x => ⟨fun hx => ?_, fun hx => ?_⟩
    · exact ⟨hsub x hx, (hT x (hsub x hx)).mp hx⟩
    · exact (hT x hx.1).mpr hx.2
  rcases hcases with rfl | rfl | rfl | rfl
  · rw [hcard ∅ (by simp)]
    · decide
    · intro x hx
      rw [crowded_target hx]
      repeat' split
      all_goals simp
  · rw [hcard {(48, 1024)}]
    · decide
    · intro x hx
      rw [Finset.mem_singleton.mp hx]
      exact mem_userSlots_table ⟨by omega, by omega⟩
    · intro x hx
      rw [crowded_target hx, Finset.mem_singleton]
      repeat' split
      all_goals simp_all
  · rw [hcard {(16, 1024)}]
    · decide
    · intro x hx
      rw [Finset.mem_singleton.mp hx]
      exact mem_userSlots_table ⟨by omega, by omega⟩
    · intro x hx
      rw [crowded_target hx, Finset.mem_singleton]
      repeat' split
      all_goals simp_all
  · rw [hcard (insert (16, 0) ({48} ×ˢ Finset.range 254))]
    · rw [Finset.card_insert_of_notMem (by simp), Finset.card_product,
        Finset.card_singleton, Finset.card_range]
      decide
    · intro x hx
      rw [Finset.mem_insert, Finset.mem_product, Finset.mem_singleton, Finset.mem_range] at hx
      obtain ⟨i, j⟩ := x
      simp only [Prod.mk.injEq] at hx
      exact mem_userSlots_page ⟨by omega, by omega⟩ (by omega)
    · intro x hx
      rw [crowded_target hx, Finset.mem_insert, Finset.mem_product,
        Finset.mem_singleton, Finset.mem_range]
      obtain ⟨i, j⟩ := x
      simp only [Prod.mk.injEq]
      repeat' split
      all_goals simp
      all_goals omega

/-- `crowded` is a state the refinement starts from, but for the
room. -/
theorem paging_crowded : Paging 4092 4096 ∅ crowded := by
  have hpte : ∀ {i j : Nat}, UserDir i → j < 1024 →
      present (pteAt crowded i j) → pteAt crowded i j = 4095 * 4096 + 5 := by
    intro i j hi hj hp
    rw [crowded_pte hi hj] at hp ⊢
    split at hp
    · rw [if_pos ‹_›]
    · exact absurd hp not_present_zero
  refine ⟨⟨by omega, by omega⟩, ?_, ?_, ?_, ?_, ?_, ?_, ?_⟩
  · intro f _
    unfold crowded usedCount
    simp only
    repeat' split
    all_goals omega
  · intro f hf
    rw [crowded_refs hf, if_neg (Finset.notMem_empty f), Nat.add_zero]
  · intro f h1 h2 hn
    unfold InMain at hn
    unfold crowded usedCount
    simp only
    repeat' split
    all_goals omega
  · intro i hi hp
    rw [crowded_dir hi] at hp ⊢
    split at hp
    · rw [if_pos ‹_›, frame_entry7, crowded_refs (by decide)]
      decide
    · rw [if_neg ‹_›]
      split at hp
      · rw [if_pos ‹_›, frame_entry7, crowded_refs (by decide)]
        decide
      · exact absurd hp not_present_zero
  · intro i j hi hj hp
    rw [hpte hi hj hp]
    exact .inr (by decide)
  · intro i j hi hj hp hw
    rw [hpte hi hj hp] at hw
    exact absurd hw (by decide)
  · intro f hf
    exact absurd hf (Finset.notMem_empty f)

/-- The fork of `crowded` and a store of 7 by the parent. -/
def crowdedFork : Option (Mem × Mem) := do
  let (r, s₁) ← (copyPageTables 0x4000000 0x8000000 4096 crowded).toOption
  if r = 0 then
    let s₂ ← runOps (Write.step 0x4000000 0x8000000) [⟨.parent, 0, 7⟩] s₁
    some (s₁, s₂)
  else none

/-- The 256th reference reads as a free page: the write fault hands the
parent its own page again, and the child reads the parent's 7 where it
read 42. -/
theorem crowdedFork_reads : (crowdedFork.map fun x =>
  (userRead x.1 0x4000000, userRead x.2 0x8000000)) = some (some 42, some 7) := by decide +kernel

/-- Without room in the counts the refinement fails: exact counts and
sole writable entries alone do not carry it. -/
theorem fork_count_wraps : ¬ ∀ (lo hi : Nat) (s s₁ s₂ : Mem)
    (src dst size : Nat) (ws : List Write), Paging lo hi ∅ s → Ranges src dst (dirCount size) →
      copyPageTables src dst size s = .ok (0, s₁) →
      (∀ w ∈ ws, w.offset < dirCount size * 0x400000) →
      runOps (Write.step src dst) ws s₁ = some s₂ → ∀ side off, off < dirCount size * 0x400000 →
        userRead s₂ (side.base src dst + off)
          = ws.foldl Eager.write (Eager.ofFork s₁ src) side off := by
  intro hall
  obtain ⟨⟨s₁, s₂⟩, hx, hreads⟩ :=
    Option.map_eq_some_iff.mp crowdedFork_reads
  obtain ⟨h42, h7⟩ := Prod.mk.inj hreads
  unfold crowdedFork at hx
  obtain ⟨⟨r, s1'⟩, hf, hx⟩ := Option.bind_eq_some_iff.mp hx
  obtain ⟨hr, hx⟩ := Option.ite_none_right_eq_some.mp hx
  obtain ⟨s2', hrun, hx⟩ := Option.bind_eq_some_iff.mp hx
  cases hx
  subst hr
  have hchild := hall 4092 4096 crowded s₁ s₂ 0x4000000 0x8000000 4096
    [⟨.parent, 0, 7⟩] paging_crowded (by constructor <;> decide)
    (ok_of_toOption hf) (by decide) hrun .child 0 (by decide)
  have hEager : userRead s₂ 0x8000000 = userRead s₁ 0x4000000 := hchild
  simp only at h42 h7
  rw [h42, h7] at hEager
  exact absurd hEager (by decide)

end LearnLinux.Mm
