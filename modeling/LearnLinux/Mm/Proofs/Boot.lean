/-
The page tables at boot.

After `setup_paging` and `mem_init` no user directory entry is present,
every frame of main memory is free, and every other frame of `mem_map`
is marked used: the invariant holds with nothing referred to.
-/
import LearnLinux.Mm.Proofs.Paging

namespace LearnLinux.Mm

open Lib

variable {s : Mem}

/-- What main.c passes to `mem_init`: page-aligned bounds of main
memory between 1 Mb and 16 Mb. -/
structure MemBounds (startMem endMem : Nat) : Prop where
  startAligned : startMem % 4096 = 0
  endAligned : endMem % 4096 = 0
  low : lowMem ≤ startMem
  le : startMem ≤ endMem
  high : endMem ≤ 0x1000000

/-- Memory when `mem_init` has returned. -/
def bootMem (startMem endMem : Nat) (s : Mem) : Mem :=
  memInit startMem endMem { s with word := setupPaging s.word }

theorem clearMap_apply (n i : Nat) (m : Nat → Nat) (k : Nat) :
    clearMap n i m k = if i ≤ k ∧ k < i + n then 0 else m k := by
  induction n generalizing i m with
  | zero =>
    rw [if_neg (by omega)]
    rfl
  | succ n ih =>
    rw [clearMap, ih, Function.update_apply]
    by_cases hk : k = i
    · rw [if_neg (by omega), if_pos hk, if_pos (by omega)]
    · rw [if_neg hk]
      by_cases hk' : i + 1 ≤ k ∧ k < i + 1 + n
      · rw [if_pos hk', if_pos (by omega)]
      · rw [if_neg hk', if_neg (by omega)]

variable {startMem endMem i : Nat}

theorem bootMem_dir (hi : UserDir i) : (bootMem startMem endMem s).word i = 0 := by
  have h1 := hi.1
  have h2 := hi.2
  show setupPaging s.word i = 0
  unfold setupPaging
  rw [if_neg (by omega), if_pos h2]

theorem bootMem_pteAt (hi : UserDir i) (j : Nat) : pteAt (bootMem startMem endMem s) i j = 0 := by
  unfold pteAt
  rw [bootMem_dir hi, if_neg not_present_zero]

theorem bootMem_refs (f : Nat) : frameRefs (bootMem startMem endMem s) f = 0 := by
  unfold frameRefs
  rw [refs_eq_zero_iff]
  intro x hx
  obtain ⟨hi, hj⟩ := mem_userSlots hx
  obtain ⟨i, j⟩ := x
  rcases hj with hj | rfl
  · rw [target_page _ hj, bootMem_pteAt hi, entryTarget_zero]
    exact fun hc => nomatch hc
  · rw [target_table, bootMem_dir hi, entryTarget_zero]
    exact fun hc => nomatch hc

theorem bootMem_map (hb : MemBounds startMem endMem) (s : Mem) {f : Nat}
    (h1 : 256 ≤ f) (h2 : f < 4096) : (bootMem startMem endMem s).memMap (f - 256)
      = if InMain (startMem / 4096) (endMem / 4096) f then 0
        else usedCount := by
  obtain ⟨hs, he, hlow, hle, hhigh⟩ := hb
  have hlow' : 256 ≤ startMem / 4096 := by
    unfold lowMem at hlow
    omega
  have hmap : mapNr startMem = startMem / 4096 - 256 := by
    unfold mapNr lowMem
    omega
  show clearMap _ _ _ _ = _
  rw [clearMap_apply, hmap]
  by_cases hin : InMain (startMem / 4096) (endMem / 4096) f
  · rw [if_pos hin, if_pos]
    unfold InMain at hin
    omega
  · rw [if_neg hin, if_neg, if_pos]
    · unfold pagingPages
      omega
    · unfold InMain at hin
      omega

/-- The invariant at boot. -/
theorem paging_bootMem (hb : MemBounds startMem endMem) (s : Mem) :
    Paging (startMem / 4096) (endMem / 4096) ∅ (bootMem startMem endMem s) := by
  have hlow : 256 ≤ startMem / 4096 := by
    have := hb.low
    unfold lowMem at this
    omega
  have hhigh := hb.high
  have hfree : ∀ f, InMain (startMem / 4096) (endMem / 4096) f →
      (bootMem startMem endMem s).memMap (f - 256) = 0 := by
    intro f hf
    have h1 := hf.1
    have h2 := hf.2
    rw [bootMem_map hb s (by omega) (by omega), if_pos hf]
  refine ⟨⟨hlow, by omega⟩, ?_, ?_, ?_, ?_, ?_, ?_, ?_⟩
  · intro f hf
    rw [hfree f hf]
    omega
  · intro f hf
    rw [hfree f hf, bootMem_refs, if_neg (Finset.notMem_empty f)]
  · intro f h1 h2 hn
    rw [bootMem_map hb s h1 h2, if_neg hn]
    decide
  · intro i hi hp
    rw [bootMem_dir hi] at hp
    exact absurd hp not_present_zero
  · intro i j hi _ hp
    rw [bootMem_pteAt hi] at hp
    exact absurd hp not_present_zero
  · intro i j hi _ hp
    rw [bootMem_pteAt hi] at hp
    exact absurd hp not_present_zero
  · intro f hf
    exact absurd hf (Finset.notMem_empty f)

end LearnLinux.Mm
