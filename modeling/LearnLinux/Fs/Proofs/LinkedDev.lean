/-
Devices with one directory, the root, and one more inode that has `m`
names in it. For every `m` up to 255, as many as the byte of a link count
can say, such a device is a good one.
-/
import LearnLinux.Fs.Proofs.Lookup

namespace LearnLinux.Fs

open Lib

/-- The blocks of a root directory with `m` names besides `.` and `..`. -/
def rootBlocks (m : Nat) : Nat := (m + 65) / 64

/-- Block `z` of the root: its first entries are `.` and `..`, and the
others name inode 2. The names are made of the block and the index. -/
def rootBlock (z : Nat) : Block := fun off =>
  let k := off / 16
  if off % 16 = 0 then if z = 1 ∧ k < 2 then 1 else 2
  else if off % 16 = 1 then 0
  else if z = 1 ∧ k < 2 then if off % 16 - 2 ≤ k then 46 else 0
  else if off % 16 = 2 then UInt8.ofNat (96 + z)
  else if off % 16 = 3 then UInt8.ofNat (64 + k)
  else 0

/-- The zones: the blocks of the root come first, and two are free. -/
def linkedVol (m : Nat) (I : Inode) : Vol where
  firstdatazone := 1
  nzones := rootBlocks m + 3
  zmap i := if i = 0 then
    some fun j => j ≤ rootBlocks m ∨ rootBlocks m + 3 ≤ j else none
  inode i := if i = 1 then
      ⟨.dir, 16 * (m + 2), fun k => if k < rootBlocks m then k + 1 else 0⟩
    else if i = 2 then I else .blank
  data z := if 1 ≤ z ∧ z ≤ rootBlocks m then rootBlock z else Block.zero
  disk _ := Block.zero
  held _ := 0

/-- The device, on which a task has the root as its root and working
directory. -/
def linkedDev (m ninodes : Nat) (I : Inode) : Dev where
  vol := linkedVol m I
  ninodes := ninodes
  imap i := if i = 0 then some fun j => j ≤ 2 else none
  nlinks i := if i = 1 then 2 else if i = 2 then m else 0
  count i := if i = 1 then 1 else 0

/-- The superuser, at the root. -/
def rootCaller : Caller := ⟨1, 1, true, fun _ _ => true, fun _ _ => false⟩

/-- An empty file. -/
def Inode.emptyFile : Inode := ⟨.reg, 0, fun _ => 0⟩

variable {m k : Nat} {I : Inode}

/-- An inode without zones. -/
def Inode.Zoneless (I : Inode) : Prop := ∀ k, I.zone k = 0

/-- All the zones there are. -/
theorem linkedVol_zoneAt (hI : I.Zoneless) (hm : m ≤ 255) {p : ZPath}
    (hp : Counts (linkedVol m I) p) (h0 : (linkedVol m I).zoneAt p ≠ 0) :
    ∃ k, k < rootBlocks m ∧ p = .root (1, k) := by
  have hB : rootBlocks m ≤ 5 := by
    unfold rootBlocks
    omega
  induction p with
  | root q =>
    obtain ⟨i, k⟩ := q
    have h : ((linkedVol m I).inode i).zone k ≠ 0 := h0
    unfold linkedVol at h
    simp only at h
    split at h
    · rename_i hi
      simp only at h
      split at h
      · rename_i hk
        exact ⟨k, hk, by rw [hi]⟩
      · exact absurd rfl h
    · split at h
      · exact absurd (hI k) h
      · exact absurd rfl h
  | child q j ih =>
    obtain ⟨k, hk, rfl⟩ := ih (counts_parent q j hp) (Path.at_of_child h0)
    have := hp.2.1
    omega

theorem linkedVol_zone (hk : k < rootBlocks m) : (linkedVol m I).zoneAt (.root (1, k)) = k + 1 := by
  exact if_pos hk

theorem sound_linkedVol (hI : I.Zoneless) (hm : m ≤ 255) : Sound (linkedVol m I) := by
  have hB : rootBlocks m ≤ 5 := by
    unfold rootBlocks
    omega
  refine ⟨⟨?_, ?_, ?_⟩, ⟨?_, ?_⟩⟩
  · show rootBlocks m + 3 < 2 ^ 16
    omega
  · unfold Vol.bit linkedVol
    simp
  · intro t _ hsome hge
    have hdiv : t / 8192 = 0 := by
      by_contra hne
      simp [linkedVol, hne] at hsome
    have hge' : rootBlocks m + 3 ≤ t + 1 - 1 := hge
    unfold Vol.bit linkedVol
    simp only [hdiv, if_true]
    exact decide_eq_true (.inr (by omega))
  · intro p hp h0
    obtain ⟨k, hk, rfl⟩ := linkedVol_zoneAt hI hm hp h0
    rw [linkedVol_zone hk]
    refine ⟨?_, ?_, ?_⟩
    · show 1 ≤ k + 1
      omega
    · show k + 1 < rootBlocks m + 3
      omega
    · have hdiv : (k + 1 + 1 - 1) / 8192 = 0 := by omega
      unfold Vol.Marked Vol.bit linkedVol
      simp only [hdiv, if_true]
      exact decide_eq_true (.inl (by omega))
  · intro p q hp hq h0 hpq
    obtain ⟨k, hk, rfl⟩ := linkedVol_zoneAt hI hm hp h0
    obtain ⟨l, hl, rfl⟩ := linkedVol_zoneAt hI hm hq (by rw [← hpq]; exact h0)
    rw [linkedVol_zone hk, linkedVol_zone hl] at hpq
    rw [show k = l by omega]

/-- The entries of the root. -/
theorem linkedVol_dirSlot (hm : m ≤ 255) {i : Nat} (hi : i < m + 2) :
    (linkedVol m I).dirSlot 1 i = if i < 2 then 1 else 2 := by
  have hb : i / dirEntriesPerBlock < rootBlocks m := by
    unfold dirEntriesPerBlock rootBlocks
    omega
  have hB : rootBlocks m ≤ 5 := by
    unfold rootBlocks
    omega
  have hpath : slotPath 1 i = .root (1, i / dirEntriesPerBlock) := by
    unfold slotPath blockPath
    rw [if_pos (Nat.lt_of_lt_of_le hb (by omega))]
  have hz : (linkedVol m I).zoneAt (slotPath 1 i) = i / dirEntriesPerBlock + 1 := by
    rw [hpath, linkedVol_zone hb]
  rw [dirSlot_of_block hz (Nat.succ_ne_zero _)]
  have hdata : (linkedVol m I).data (i / dirEntriesPerBlock + 1)
      = rootBlock (i / dirEntriesPerBlock + 1) := if_pos ⟨Nat.succ_pos _, hb⟩
  rw [hdata]
  unfold Block.inodeNr Block.entry rootBlock
  have h1 : 2 * (8 * (i % dirEntriesPerBlock)) % 16 = 0 := by omega
  have h2 : (2 * (8 * (i % dirEntriesPerBlock)) + 1) % 16 = 1 := by omega
  have h3 : 2 * (8 * (i % dirEntriesPerBlock)) / 16 = i % dirEntriesPerBlock := by omega
  simp only [h1, h2, h3, if_true]
  unfold dirEntriesPerBlock at *
  by_cases hi2 : i < 2
  · rw [if_pos (by omega), if_pos hi2, if_neg (by omega)]
    rfl
  · rw [if_neg (by omega), if_neg hi2, if_neg (by omega)]
    rfl

theorem linkedDev_live (hk : 2 ≤ k) (n : Nat) :
    (linkedDev m k I).live n = true ↔ n = 1 ∨ n = 2 := by
  rw [live_iff]
  constructor
  · rintro ⟨⟨hlow, -⟩, hbit⟩
    unfold Dev.inodeBit linkedDev at hbit
    simp only at hbit
    by_cases hdiv : n / 8192 = 0
    · rw [if_pos hdiv] at hbit
      have := of_decide_eq_true hbit
      omega
    · rw [if_neg hdiv] at hbit
      cases hbit
  · intro hn
    have hdiv : n / 8192 = 0 := by omega
    refine ⟨⟨by omega, ?_⟩, ?_⟩
    · show n ≤ k
      omega
    · unfold Dev.inodeBit linkedDev
      simp only [hdiv, if_true]
      exact decide_eq_true (by omega)

section

variable (hm : m ≤ 255) (hk : 2 ≤ k) (hI : I.mode = .dir → I.size = 0)
include hm hk hI

/-- All the names there are. -/
theorem linkedDev_names (x : Nat × Nat) (n : Nat) :
    (linkedDev m k I).names x = some n ↔ x.1 = 1 ∧ x.2 < m + 2 ∧ n = if x.2 < 2 then 1 else 2 := by
  rw [names_eq_some]
  have hroot : (linkedDev m k I).vol.inode 1 = ⟨.dir, 16 * (m + 2),
      fun k => if k < rootBlocks m then k + 1 else 0⟩ := rfl
  constructor
  · rintro ⟨⟨hl, hmode, hsize, -⟩, hslot⟩
    rcases (linkedDev_live hk _).mp hl with h1 | h2
    · rw [h1] at hsize hslot
      have hsize : 16 * (x.2 + 1) ≤ 16 * (m + 2) := hsize
      have hlt : x.2 < m + 2 := by omega
      exact ⟨h1, hlt, hslot.symm.trans (linkedVol_dirSlot hm hlt)⟩
    · have h2' : (linkedDev m k I).vol.inode 2 = I := rfl
      rw [h2, h2'] at hmode hsize
      rw [hI hmode] at hsize
      omega
  · rintro ⟨h1, hlt, hn⟩
    have hslot := linkedVol_dirSlot (I := I) hm hlt
    refine ⟨⟨(linkedDev_live hk _).mpr (.inl h1), ?_, ?_, ?_⟩, ?_⟩
    · rw [h1, hroot]
    · rw [h1, hroot]
      show 16 * (x.2 + 1) ≤ 16 * (m + 2)
      omega
    · rw [h1]
      show (linkedVol m I).dirSlot 1 x.2 ≠ 0
      rw [hslot]
      split
      · omega
      · omega
    · rw [h1, hn]
      exact hslot

theorem linkedDev_honest : (linkedDev m k I).Honest := by
  have hnames := linkedDev_names hm hk hI
  have hin : ∀ i, i < m + 2 → (1, i) ∈ entries := by
    intro i hi
    unfold entries
    rw [Finset.mem_product, Finset.mem_range, Finset.mem_range]
    refine ⟨by omega, ?_⟩
    unfold maxEntries maxBlocks dirEntriesPerBlock
    omega
  refine ⟨fun n hn => ?_, fun x n hx => ?_, fun x n hx => ?_⟩
  · show (if n = 1 then 2 else if n = 2 then m else 0) = refs entries (linkedDev m k I).names n
    rcases (linkedDev_live hk n).mp hn with rfl | rfl
    · rw [refs_eq_card (T := (Finset.range 2).image fun i => (1, i))]
      · rw [Finset.card_image_of_injective _ fun a b hab =>
          (Prod.mk.inj hab).2, Finset.card_range]
        rfl
      · intro x
        rw [Finset.mem_image, hnames]
        constructor
        · rintro ⟨i, hi, rfl⟩
          have hi := Finset.mem_range.mp hi
          exact ⟨hin i (by omega), rfl, by omega, (if_pos hi).symm⟩
        · rintro ⟨-, h1, -, hn⟩
          split at hn
          · rename_i hx
            exact ⟨x.2, Finset.mem_range.mpr hx, Prod.ext h1.symm rfl⟩
          · omega
    · rw [refs_eq_card (T := (Finset.range m).image fun i => (1, i + 2))]
      · rw [Finset.card_image_of_injective _ fun a b hab => by
          have := (Prod.mk.inj hab).2
          omega, Finset.card_range]
        rfl
      · intro x
        rw [Finset.mem_image, hnames]
        constructor
        · rintro ⟨i, hi, rfl⟩
          have hi := Finset.mem_range.mp hi
          exact ⟨hin _ (by omega), rfl, by omega, (if_neg (by omega)).symm⟩
        · rintro ⟨-, h1, hlt, hn⟩
          split at hn
          · omega
          · rename_i hx
            exact ⟨x.2 - 2, Finset.mem_range.mpr (by omega),
              Prod.ext h1.symm (by show x.2 - 2 + 2 = x.2; omega)⟩
  · obtain ⟨-, -, hn⟩ := (hnames x n).mp hx
    refine (linkedDev_live hk n).mpr ?_
    split at hn
    · exact .inl hn
    · exact .inr hn
  · obtain ⟨h1, hlt, -⟩ := (hnames x n).mp hx
    rw [show x = (1, x.2) from Prod.ext h1 rfl]
    exact hin _ hlt

/-- With one name, inode 2 may be a directory that has no block, as
`sys_mknod` makes them. -/
theorem linkedDev_tree (hone : I.mode = .dir → m = 1) :
    Tree (fun n => ((linkedDev m k I).vol.inode n).mode = .dir) (linkedDev m k I).names := by
  have hnames := linkedDev_names hm hk hI
  refine ⟨?_, ?_, ?_, ?_, ?_⟩
  · exact (hnames _ _).mpr ⟨rfl, by omega, (if_pos (by omega)).symm⟩
  · intro x hx hc
    obtain ⟨-, -, h1⟩ := (hnames _ _).mp hc
    rw [if_neg (by omega)] at h1
    omega
  · intro x n hx
    obtain ⟨h1, -, -⟩ := (hnames _ _).mp hx
    rw [h1]
    refine ⟨(hnames _ _).mpr ⟨rfl, by omega, (if_pos (by omega)).symm⟩, ?_⟩
    rw [(hnames (1, 1) 1).mpr ⟨rfl, by omega, (if_pos (by omega)).symm⟩]
    exact nofun
  · intro x y n hd hx hy hnx hny
    obtain ⟨hx1, hxl, hxn⟩ := (hnames _ _).mp hnx
    obtain ⟨hy1, hyl, -⟩ := (hnames _ _).mp hny
    rw [if_neg (by omega)] at hxn
    rw [hxn] at hd
    have := hone hd
    exact Prod.ext (by rw [hx1, hy1]) (by omega)
  · intro n p hn hp
    exact absurd ((hnames _ _).mp hp).1 hn

end

theorem good_linkedDev (hI : I.Zoneless) (hm : m ≤ 255) (hm0 : m ≠ 0)
    (hk : 2 ≤ k) (hshort : k < 2 ^ 16) (hsize : I.mode = .dir → I.size = 0)
    (hone : I.mode = .dir → m = 1) : Good (linkedDev m k I) := by
  have hlive := fun n => linkedDev_live (m := m) (I := I) hk n
  have hnames := linkedDev_names hm hk hsize
  have hroot : (linkedDev m k I).vol.inode 1 = ⟨.dir, 16 * (m + 2),
      fun k => if k < rootBlocks m then k + 1 else 0⟩ := rfl
  have htwo : (linkedDev m k I).vol.inode 2 = I := rfl
  have hhonest := linkedDev_honest hm hk hsize
  refine ⟨⟨sound_linkedVol hI hm, by show 0 < 1; omega, hshort, rfl, ?_, ?_,
    ?_⟩, hhonest, linkedDev_tree hm hk hsize hone, ?_, ?_, ?_, ?_⟩
  · intro n hn
    have h12 : n ≠ 1 ∧ n ≠ 2 := by
      constructor
      · rintro rfl
        rw [(hlive 1).mpr (.inl rfl)] at hn
        cases hn
      · rintro rfl
        rw [(hlive 2).mpr (.inr rfl)] at hn
        cases hn
    have hin : (linkedDev m k I).vol.inode n = .blank :=
      (if_neg h12.1).trans (if_neg h12.2)
    refine ⟨by rw [hin]; rfl, if_neg h12.1, ?_⟩
    exact (if_neg h12.1).trans (if_neg h12.2)
  · intro n hn hd
    rcases (hlive n).mp hn with rfl | rfl
    · rw [hroot]
      show 16 * (m + 2) ≤ _
      unfold maxEntries maxBlocks dirEntriesPerBlock
      omega
    · rw [htwo] at hd ⊢
      rw [hsize hd]
      omega
  · intro x n hx
    refine ⟨hhonest.alive x n hx, ?_⟩
    have : 0 < (linkedDev m k I).nlinks n := hhonest.links_pos hx
    omega
  · intro n
    show (if n = 1 then 2 else if n = 2 then m else 0) < 256
    split
    · omega
    · split
      · omega
      · omega
  · intro n hn hd
    rcases (hlive n).mp hn with rfl | rfl
    · rw [hroot]
      show 16 * (m + 2) % 16 = 0
      omega
    · rw [htwo] at hd ⊢
      rw [hsize hd]
  · intro n hn hd h0
    rcases (hlive n).mp hn with rfl | rfl
    · rw [(hnames (1, 0) 1).mpr ⟨rfl, by omega, (if_pos (by omega)).symm⟩]
      exact nofun
    · exact absurd (hI 0) h0
  · intro n hn h0
    rcases (hlive n).mp hn with rfl | rfl
    · have h0 : (2 : Nat) = 0 := h0
      omega
    · exact absurd h0 hm0

end LearnLinux.Fs
