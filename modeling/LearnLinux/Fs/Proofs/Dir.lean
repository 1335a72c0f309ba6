/-
Directories as arrays of slots: what a change of the zones, of an inode or
of a directory block does to `dirSlot`.

`Kept v v' n` is the frame that all the directory routines are stated with:
inode `n` and all its blocks are as before. `Touches v dir v'` says that
only directory `dir` was written, with no zone of it lost, and then
`Opened` and `Entered` say what `add_entry` and the assignment after it did
to the slots of `dir`.
-/
import LearnLinux.Fs.Proofs.Grow

namespace LearnLinux.Fs

open Function (update update_self update_of_ne)
open Lib

variable {v v' v₁ : Vol} {dir n ino i j z : Nat} {p : ZPath} {name : Name} {r : Option (Nat × Nat)}

-- ======== the frame

structure Kept (v v' : Vol) (n : Nat) : Prop where
  inode : v'.inode n = v.inode n
  zones : ∀ p, Counts v p → p.base.1 = n → v'.zoneAt p = v.zoneAt p
  bytes : ∀ p, Counts v p → p.base.1 = n → Leaf p → ∀ off, v'.byteAt p off = v.byteAt p off

theorem Kept.refl (v : Vol) (n : Nat) : Kept v v n :=
  ⟨rfl, fun _ _ _ => rfl, fun _ _ _ _ _ => rfl⟩

theorem Kept.counts (h : Kept v v' n) (hp : p.base.1 = n) : Counts v' p ↔ Counts v p :=
  counts_mode (by rw [hp, h.inode])

theorem Kept.trans (h : Kept v v₁ n) (h' : Kept v₁ v' n) : Kept v v' n where
  inode := h'.inode.trans h.inode
  zones p hp hn :=
    (h'.zones p ((h.counts hn).mpr hp) hn).trans (h.zones p hp hn)
  bytes p hp hn hl off := (h'.bytes p ((h.counts hn).mpr hp) hn hl off).trans
    (h.bytes p hp hn hl off)

theorem Grown.kept (h : Grown v ino v') (hn : n ≠ ino) : Kept v v' n where
  inode := h.others n hn
  zones p hp hb := h.zones p hp (by rw [hb]; exact hn)
  bytes p hp _ hl off := h.ext.bytes p hp hl off

theorem Truncated.keeps (h : Truncated v ino v') (hn : n ≠ ino) : Kept v v' n where
  inode := h.others n hn
  zones p hp hb := (h.kept p hp (by rw [hb]; exact hn)).1
  bytes p hp hb _ off := by
    obtain ⟨hz, hd⟩ := h.kept p hp (by rw [hb]; exact hn)
    exact byteAt_congr hz hd

/-- The data of a block in use by another inode. -/
theorem Sound.setData_kept (h : Sound v) (hp : Counts v p)
    (hleaf : Leaf p) (h0 : v.zoneAt p ≠ 0) (b : Block)
    (hn : n ≠ p.base.1) : Kept v (v.setData (v.zoneAt p) b) n where
  inode := rfl
  zones q hq _ := h.zoneAt_setData hp hleaf b q hq
  bytes q hq hb _ off := by
    rw [(h.setData hp hleaf h0 b).2 q hq off, if_neg]
    rintro rfl
    exact hn hb.symm

-- ======== directory blocks

theorem Block.inodeNr_setInodeNr (b : Block) (k m j : Nat) : (b.setInodeNr k m).inodeNr j
      = if j = k then m % 2 ^ 16 else b.inodeNr j := by
  unfold Block.inodeNr Block.setInodeNr
  rw [Block.entry_setEntry]
  by_cases hjk : j = k
  · rw [if_pos hjk, if_pos (by rw [hjk])]
  · rw [if_neg hjk, if_neg (by omega)]

/-- Bytes stored inside the name of an entry leave the numbers alone. -/
theorem Block.inodeNr_put (b : Block) {k off : Nat} {bs : List UInt8}
    (hlo : 16 * k + 2 ≤ off) (hhi : off + bs.length ≤ 16 * k + 16) :
    (b.put off bs).inodeNr j = b.inodeNr j := by
  unfold Block.inodeNr Block.entry Block.put
  rw [if_neg (by omega), if_neg (by omega)]

theorem Block.inodeNr_putName (b : Block) (k : Nat) :
    (b.putName k name).inodeNr j = b.inodeNr j := by
  refine b.inodeNr_put (Nat.le_refl _) ?_
  rw [List.length_map, List.length_range, NAME_LEN]

-- ======== slots of directories

/-- A block of an index within the limit. -/
theorem entryBlock_lt (hi : i < maxEntries) : i / dirEntriesPerBlock < maxBlocks :=
  Nat.div_lt_of_lt_mul (by
    rw [Nat.mul_comm]
    exact hi)

/-- The path to the block of entry `i`. -/
abbrev slotPath (dir i : Nat) : ZPath :=
  blockPath dir (i / dirEntriesPerBlock)

theorem counts_slotPath (hf : v.IsFile dir) (hi : i < maxEntries) : Counts v (slotPath dir i) :=
  counts_blockPath hf (entryBlock_lt hi)

theorem leaf_slotPath (dir i : Nat) : Leaf (slotPath dir i) :=
  leaf_blockPath

theorem slotPath_zero : slotPath dir 0 = .root (dir, 0) := rfl

theorem slotPath_inj {m : Nat} (h : slotPath dir i = slotPath m j) :
    dir = m ∧ i / dirEntriesPerBlock = j / dirEntriesPerBlock :=
  blockPath_inj h

theorem dirSlot_of_block (hz : v.zoneAt (slotPath dir i) = z) (h0 : z ≠ 0) :
    v.dirSlot dir i = (v.data z).inodeNr (i % dirEntriesPerBlock) := by
  unfold Vol.dirSlot
  have hb : v.byteAt (slotPath dir i) = v.data z := by
    funext off
    unfold Vol.byteAt
    rw [hz, if_neg h0]
  rw [hb]

theorem dirSlot_congr (h : ∀ off, v'.byteAt (slotPath dir i) off
      = v.byteAt (slotPath dir i) off) : v'.dirSlot dir i = v.dirSlot dir i := by
  unfold Vol.dirSlot
  rw [show v'.byteAt (slotPath dir i) = v.byteAt (slotPath dir i) from
    funext h]

theorem Kept.dirSlot (h : Kept v v' n) (hf : v.IsFile n)
    (hi : i < maxEntries) : v'.dirSlot n i = v.dirSlot n i :=
  dirSlot_congr (h.bytes _ (counts_slotPath hf hi) base_blockPath (leaf_slotPath _ _))

theorem Extends.dirSlot (h : Extends v v') (hf : v.IsFile n)
    (hi : i < maxEntries) : v'.dirSlot n i = v.dirSlot n i :=
  dirSlot_congr (h.bytes _ (counts_slotPath hf hi) (leaf_slotPath _ _))

/-- A directory block is replaced. -/
theorem Sound.dirSlot_setData (h : Sound v) (hf : v.IsFile dir)
    (hi : i < maxEntries) (hj : j < maxEntries)
    (hz : v.zoneAt (slotPath dir i) = z) (h0 : z ≠ 0) (b : Block) : (v.setData z b).dirSlot dir j
      = if j / dirEntriesPerBlock = i / dirEntriesPerBlock then
          b.inodeNr (j % dirEntriesPerBlock) else v.dirSlot dir j := by
  subst hz
  have hbytes := (h.setData (counts_slotPath hf hi) (leaf_slotPath _ _) h0
    b).2 (slotPath dir j) (counts_slotPath hf hj)
  split
  · rename_i hji
    have hp : slotPath dir j = slotPath dir i := by
      unfold slotPath
      rw [hji]
    unfold Vol.dirSlot
    rw [show (v.setData _ b).byteAt (slotPath dir j) = b from funext fun off =>
      (hbytes off).trans (if_pos hp)]
  · rename_i hji
    refine dirSlot_congr fun off => ?_
    rw [hbytes off, if_neg fun hp => hji (slotPath_inj hp).2]

/-- Two entries of one block. -/
theorem entry_eq (hd : j / dirEntriesPerBlock = i / dirEntriesPerBlock)
    (hm : j % dirEntriesPerBlock = i % dirEntriesPerBlock) : j = i := by
  unfold dirEntriesPerBlock at hd hm
  omega

-- ======== only one directory is written

structure Touches (v : Vol) (dir : Nat) (v' : Vol) : Prop where
  sound : Sound v'
  kept : ∀ n, n ≠ dir → Kept v v' n
  mode : (v'.inode dir).mode = (v.inode dir).mode
  zones : ∀ p, Counts v p → v.zoneAt p ≠ 0 → v'.zoneAt p = v.zoneAt p
  first : v'.firstdatazone = v.firstdatazone

theorem Touches.refl (h : Sound v) (dir : Nat) : Touches v dir v :=
  ⟨h, fun n _ => .refl v n, rfl, fun _ _ _ => rfl, rfl⟩

theorem Touches.modes (h : Touches v dir v') (m : Nat) : (v'.inode m).mode = (v.inode m).mode := by
  by_cases hm : m = dir
  · rw [hm]
    exact h.mode
  · rw [(h.kept m hm).inode]

theorem Touches.isFile (h : Touches v dir v') (m : Nat) : v'.IsFile m ↔ v.IsFile m :=
  isFile_congr (h.modes m)

theorem Touches.trans (h : Touches v dir v₁) (h' : Touches v₁ dir v') : Touches v dir v' where
  sound := h'.sound
  kept n hn := (h.kept n hn).trans (h'.kept n hn)
  mode := h'.mode.trans h.mode
  zones p hp h0 := by
    have h1 := h.zones p hp h0
    rw [h'.zones p ((counts_congr h.modes p).mpr hp) (by rw [h1]; exact h0), h1]
  first := h'.first.trans h.first

theorem Grown.touches (h : Grown v dir v') : Touches v dir v' where
  sound := h.ext.sound
  kept _ hn := h.kept hn
  mode := h.ext.mode dir
  zones := h.ext.keeps
  first := h.first

theorem Sound.touches_setData (h : Sound v) (hf : v.IsFile dir)
    (hi : i < maxEntries) (hz : v.zoneAt (slotPath dir i) = z) (h0 : z ≠ 0)
    (b : Block) : Touches v dir (v.setData z b) := by
  subst hz
  have hp := counts_slotPath hf hi
  have hl := leaf_slotPath dir i
  refine ⟨(h.setData hp hl h0 b).1, fun n hn => ?_, rfl,
    fun p hp' _ => h.zoneAt_setData hp hl b p hp', rfl⟩
  exact h.setData_kept hp hl h0 b (by rw [base_blockPath]; exact hn)

-- ------------------------------------------------------------- its size

theorem setSize_forest (dir s : Nat) :
    (v.setInode dir { v.inode dir with size := s }).forest = v.forest := by
  unfold Vol.forest
  congr 1
  funext k
  show (update v.inode dir _ k.1).zone k.2 = _
  by_cases hk : k.1 = dir
  · rw [hk, update_self]
  · rw [update_of_ne hk]

theorem setSize_zoneAt (dir s : Nat) (p : ZPath) :
    (v.setInode dir { v.inode dir with size := s }).zoneAt p = v.zoneAt p := by
  unfold Vol.zoneAt
  rw [setSize_forest]

theorem setSize_byteAt (v : Vol) (dir s : Nat) (p : ZPath) (off : Nat) :
    (v.setInode dir { v.inode dir with size := s }).byteAt p off = v.byteAt p off :=
  byteAt_congr (setSize_zoneAt dir s p) fun _ => rfl

theorem setSize_mode (v : Vol) (dir s m : Nat) :
    ((v.setInode dir { v.inode dir with size := s }).inode m).mode = (v.inode m).mode := by
  show (update v.inode dir _ m).mode = _
  by_cases hm : m = dir
  · rw [hm, update_self]
  · rw [update_of_ne hm]

theorem Sound.touches_setSize (h : Sound v) (dir s : Nat) :
    Touches v dir (v.setInode dir { v.inode dir with size := s }) := by
  have hcount := counts_congr (setSize_mode v dir s)
  exact ⟨h.congr rfl rfl (fun _ hs => hs) (fun _ ht _ => ht)
      fun p hp _ => ⟨(hcount p).mp hp, setSize_zoneAt dir s p⟩,
    fun n hn => ⟨update_of_ne hn _ _, fun p _ _ => setSize_zoneAt dir s p,
      fun p _ _ _ off => setSize_byteAt v dir s p off⟩,
    setSize_mode v dir s dir, fun p _ _ => setSize_zoneAt dir s p, rfl⟩

section

variable (h : Sound v) (hf : v.IsFile dir) (hi : i < maxEntries)
  (hz : v.zoneAt (slotPath dir i) = z) (h0 : z ≠ 0)
include h hf hi hz h0

theorem Sound.setDirEntry (hn : n < 2 ^ 16) :
    Touches v dir (v.setDirEntry z i n) ∧ ∀ j, j < maxEntries → (v.setDirEntry z i n).dirSlot dir j
        = if j = i then n else v.dirSlot dir j := by
  refine ⟨h.touches_setData hf hi hz h0 _, fun j hj => ?_⟩
  unfold Vol.setDirEntry
  rw [h.dirSlot_setData hf hi hj hz h0]
  by_cases hji : j = i
  · rw [if_pos (by rw [hji]), if_pos hji, hji, Block.inodeNr_setInodeNr,
      if_pos rfl, Nat.mod_eq_of_lt hn]
  · rw [if_neg hji]
    split
    · rename_i hd
      rw [Block.inodeNr_setInodeNr, if_neg fun hm => hji (entry_eq hd hm), dirSlot_of_block _ h0]
      unfold slotPath
      rw [hd]
      exact hz
    · rfl

-- ======== add_entry

/-- A new last entry is free. -/
theorem Sound.extendDir :
    Touches v dir (Fs.extendDir dir z i v) ∧ ((Fs.extendDir dir z i v).inode dir).size
        = (if (v.inode dir).size ≤ 16 * i then 16 * (i + 1)
          else (v.inode dir).size)
      ∧ (∀ p, Counts v p → (Fs.extendDir dir z i v).zoneAt p = v.zoneAt p)
      ∧ ∀ j, j < maxEntries → (Fs.extendDir dir z i v).dirSlot dir j
        = if j = i ∧ (v.inode dir).size ≤ 16 * i then 0
          else v.dirSlot dir j := by
  unfold Fs.extendDir
  split
  · rename_i hs
    obtain ⟨ht, hslot⟩ := h.setDirEntry (n := 0) hf hi hz h0 (by omega)
    have ht' := ht.sound.touches_setSize dir (16 * (i + 1))
    refine ⟨ht.trans ht', ?_, ?_, ?_⟩
    · show (update v.inode dir _ dir).size = _
      rw [update_self]
    · intro p hp
      refine (setSize_zoneAt dir _ p).trans ?_
      rw [← hz]
      exact h.zoneAt_setData (counts_slotPath hf hi) (leaf_slotPath _ _) _ p hp
    · intro j hj
      have hset := hslot j hj
      refine (dirSlot_congr fun off =>
        setSize_byteAt (v.setDirEntry z i 0) dir _ _ off).trans ?_
      rw [hset]
      by_cases hji : j = i
      · rw [if_pos hji, if_pos ⟨hji, hs⟩]
      · rw [if_neg hji, if_neg fun hc => hji hc.1]
  · rename_i hs
    exact ⟨.refl h dir, rfl, fun _ _ => rfl, fun j _ => (if_neg fun hc => hs hc.2).symm⟩

/-- Where `add_entry` has found room: entry `i`, in block `z`. All entries
before it are within the old size. -/
structure Opened (v : Vol) (dir z i : Nat) (v' : Vol) : Prop where
  touches : Touches v dir v'
  block : v'.zoneAt (slotPath dir i) = z
  pos : z ≠ 0
  bound : i < maxEntries
  edge : i = 0 ∨ 16 * (i - 1) < (v.inode dir).size
  size : (v'.inode dir).size = if (v.inode dir).size ≤ 16 * i then
    16 * (i + 1) else (v.inode dir).size
  was : 16 * i < (v.inode dir).size → v.dirSlot dir i = 0
  slots : ∀ j, j < maxEntries → j ≠ i → v'.dirSlot dir j = v.dirSlot dir j

/-- One round of `add_entry` in a block that is there: the entry is taken,
or it was in use and nothing has changed. -/
theorem Sound.addRound (hedge : i = 0 ∨ 16 * (i - 1) < (v.inode dir).size) (name : Name) :
    let w := Fs.extendDir dir z i v
    let k := i % dirEntriesPerBlock
    ((w.data z).inodeNr k = 0 → Opened v dir z i (w.setData z ((w.data z).putName k name))) ∧
    ((w.data z).inodeNr k ≠ 0 → w = v ∧ 16 * i < (v.inode dir).size) := by
  intro w k
  obtain ⟨ht, hsize, hat, hslot⟩ := h.extendDir hf hi hz h0
  have hfw := (ht.isFile dir).mpr hf
  have hzw : w.zoneAt (slotPath dir i) = z := by
    rw [hat _ (counts_slotPath hf hi), hz]
  have hnr : w.dirSlot dir i = (w.data z).inodeNr k := dirSlot_of_block hzw h0
  have hput := fun b => ht.sound.touches_setData hfw hi hzw h0 b
  constructor
  · intro hfree
    refine ⟨ht.trans (hput _), ?_, h0, hi, hedge, hsize, ?_, ?_⟩
    · have := ht.sound.zoneAt_setData (counts_slotPath hfw hi)
        (leaf_slotPath _ _) ((w.data z).putName k name) _ (counts_slotPath hfw hi)
      rw [hzw] at this
      exact this
    · intro hlt
      have := hslot i hi
      rw [if_neg fun hc => by omega] at this
      rw [← this, hnr, hfree]
    · intro j hj hji
      have hsame := hslot j hj
      rw [if_neg fun hc => hji hc.1] at hsame
      rw [ht.sound.dirSlot_setData hfw hi hj hzw h0]
      split
      · rename_i hd
        rw [Block.inodeNr_putName, ← hsame, dirSlot_of_block _ h0]
        unfold slotPath
        rw [hd]
        exact hzw
      · exact hsame
  · intro hused
    have hlt : ¬ (v.inode dir).size ≤ 16 * i := by
      intro hs
      have := hslot i hi
      rw [if_pos ⟨rfl, hs⟩, hnr] at this
      exact hused this
    refine ⟨?_, by omega⟩
    show Fs.extendDir dir z i v = v
    unfold Fs.extendDir
    rw [if_neg hlt]

end

/-- What is opened in a directory that has got blocks. -/
theorem Grown.opened (hg : Grown v dir v₁) (hf : v.IsFile dir) (ho : Opened v₁ dir z i v') :
    Opened v dir z i v' where
  touches := hg.touches.trans ho.touches
  block := ho.block
  pos := ho.pos
  bound := ho.bound
  edge := hg.ext.size dir ▸ ho.edge
  size := hg.ext.size dir ▸ ho.size
  was hlt := (hg.ext.dirSlot hf ho.bound).symm.trans (ho.was (by rw [hg.ext.size]; exact hlt))
  slots j hj hji := (ho.slots j hj hji).trans (hg.ext.dirSlot hf hj)

/-- The next entry is in the same block. -/
theorem slotPath_succ (hc : ¬ (i + 1 ≠ 0 ∧ (i + 1) % dirEntriesPerBlock = 0)) :
    slotPath dir (i + 1) = slotPath dir i := by
  unfold slotPath
  congr 1
  unfold dirEntriesPerBlock at hc ⊢
  omega

/-- The block of an entry, with what it took to get it. -/
theorem Sound.nextBlock {y : Nat} (h : Sound v) (hfirst : 0 < v.firstdatazone)
    (hf : v.IsFile dir) (hi : i < maxEntries)
    (hz : ¬ (i ≠ 0 ∧ i % dirEntriesPerBlock = 0) → v.zoneAt (slotPath dir i) = z ∧ z ≠ 0)
    (hy : Fs.nextBlock dir z i v = .ok (y, v₁)) :
    Grown v dir v₁ ∧ y = v₁.zoneAt (slotPath dir i) := by
  unfold Fs.nextBlock at hy
  split at hy
  · have hb := entryBlock_lt hi
    exact ⟨h.innerBmap_grown hfirst hf hb hy, (h.innerBmap hf hb hy).2⟩
  · rename_i hc
    cases hy
    exact ⟨.refl h dir, (hz hc).1.symm⟩

/-- The loop of `add_entry`, when it returns. It finds an entry, or a block
that is not there and cannot be made. -/
theorem Sound.addLoop : ∀ {m z i : Nat} {v : Vol} {r : Option (Nat × Nat)}, Sound v →
      0 < v.firstdatazone → v.IsFile dir → (v.inode dir).size ≤ 16 * maxEntries →
      (¬ (i ≠ 0 ∧ i % dirEntriesPerBlock = 0) → v.zoneAt (slotPath dir i) = z ∧ z ≠ 0) →
      (i = 0 ∨ 16 * (i - 1) < (v.inode dir).size) → (v.inode dir).size / 16 + 2 ≤ m + i →
      Fs.addLoop dir name m z i v = .ok (r, v') → (r = none ∧ Grown v dir v'
        ∧ ∃ b, b < maxBlocks ∧ v'.zoneAt (blockPath dir b) = 0)
      ∨ ∃ z' k, r = some (z', k) ∧ Opened v dir z' k v' := by
  intro m
  induction m with
  | zero =>
    -- the size ends the loop before the count does
    intro z i v r h hfirst hf hs hz hedge hm hgo
    omega
  | succ m ih =>
    intro z i v r h hfirst hf hs hz hedge hm hgo
    obtain ⟨⟨y, v₁⟩, hy, hgo⟩ := bind_eq_ok hgo
    have hi : i < maxEntries := by
      unfold Fs.nextBlock at hy
      unfold maxEntries maxBlocks dirEntriesPerBlock at *
      split at hy
      · by_contra hge
        unfold createBlock Fs.innerBmap at hy
        rw [if_pos (by unfold maxBlocks; omega)] at hy
        cases hy
      · omega
    obtain ⟨hg, rfl⟩ := h.nextBlock hfirst hf hi hz hy
    have hsize := hg.ext.size dir
    have hf1 := (isFile_congr (hg.ext.mode dir)).mpr hf
    simp only at hgo
    by_cases h0 : v₁.zoneAt (slotPath dir i) = 0
    · rw [if_pos h0] at hgo
      cases hgo
      exact .inl ⟨rfl, hg, _, entryBlock_lt hi, h0⟩
    rw [if_neg h0] at hgo
    have hround := hg.ext.sound.addRound hf1 hi rfl h0 (by rw [hsize]; exact hedge) name
    simp only at hround
    split at hgo
    · rename_i hfree
      cases hgo
      exact .inr ⟨_, i, rfl, hg.opened hf (hround.1 hfree)⟩
    · rename_i hused
      obtain ⟨hw, hlt⟩ := hround.2 hused
      rw [hw] at hgo
      rw [hsize] at hlt
      have hnext := ih hg.ext.sound
        (by rw [hg.first]; exact hfirst) hf1 (by rw [hsize]; exact hs)
        (fun hc => ⟨congrArg v₁.zoneAt (slotPath_succ hc), h0⟩)
        (by rw [hsize]; exact .inr hlt) (by rw [hsize]; omega) hgo
      rcases hnext with ⟨rfl, hg', hb⟩ | ⟨z', k, rfl, ho⟩
      · exact .inl ⟨rfl, hg.trans hg', hb⟩
      · exact .inr ⟨z', k, rfl, hg.opened hf ho⟩

/-- `add_entry` found no room: the directory may have new blocks, but not
its first. -/
structure NoRoom (v : Vol) (dir : Nat) (v' : Vol) : Prop where
  grown : Grown v dir v'
  head : (v'.inode dir).zone 0 ≠ 0 → (v.inode dir).zone 0 ≠ 0

theorem NoRoom.refl (h : Sound v) (dir : Nat) : NoRoom v dir v :=
  ⟨.refl h dir, fun h0 => h0⟩

/-- `add_entry`, when it returns: there is no room, or an entry was
found. -/
theorem Sound.addEntry (h : Sound v) (hfirst : 0 < v.firstdatazone)
    (hf : v.IsFile dir) (hs : (v.inode dir).size ≤ 16 * maxEntries)
    (hgo : Fs.addEntry dir name v = .ok (r, v')) :
    (r = none ∧ NoRoom v dir v') ∨ ∃ z i, r = some (z, i) ∧ (v.inode dir).zone 0 ≠ 0
        ∧ Opened v dir z i v' := by
  unfold Fs.addEntry at hgo
  split at hgo
  · cases hgo
    exact .inl ⟨rfl, .refl h dir⟩
  split at hgo
  · cases hgo
    exact .inl ⟨rfl, .refl h dir⟩
  rename_i h0
  rcases h.addLoop hfirst hf hs (fun _ => ⟨by rw [slotPath_zero]; rfl, h0⟩)
    (.inl rfl) (Nat.le_refl _) hgo with ⟨hr, hg, -⟩ | ⟨z, i, hr, ho⟩
  · exact .inl ⟨hr, hg, fun _ => h0⟩
  · exact .inr ⟨z, i, hr, h0, ho⟩

theorem extendDir_held (dir z i : Nat) (v : Vol) : (Fs.extendDir dir z i v).held = v.held := by
  unfold Fs.extendDir
  split
  · rfl
  · rfl

theorem nextBlock_held {y : Nat} (h : nextBlock dir z i v = .ok (y, v')) : v'.held = v.held := by
  unfold nextBlock at h
  split at h
  · exact innerBmap_held h
  · cases h
    rfl

theorem addLoop_held : ∀ {m z i : Nat} {v : Vol} {r : Option (Nat × Nat)},
      Fs.addLoop dir name m z i v = .ok (r, v') → v'.held = v.held := by
  intro m
  induction m with
  | zero =>
    intro z i v r h
    cases h
    rfl
  | succ m ih =>
    intro z i v r h
    obtain ⟨⟨y, v₁⟩, hy, hgo⟩ := bind_eq_ok h
    have h1 := nextBlock_held hy
    have h2 := (extendDir_held dir y i v₁).trans h1
    simp only at hgo
    split at hgo
    · cases hgo
      exact h1
    split at hgo
    · cases hgo
      exact h2
    · exact (ih hgo).trans h2

theorem addEntry_held (h : Fs.addEntry dir name v = .ok (r, v')) : v'.held = v.held := by
  unfold Fs.addEntry at h
  split at h
  · cases h
    rfl
  split at h
  · cases h
    rfl
  · exact addLoop_held h

-- ------------------------------------------------- the entry is filled in

/-- Entry `i` of the directory is set to `n`. -/
structure Entered (v : Vol) (dir i n : Nat) (v' : Vol) : Prop where
  touches : Touches v dir v'
  bound : i < maxEntries
  edge : i = 0 ∨ 16 * (i - 1) < (v.inode dir).size
  size : (v'.inode dir).size = if (v.inode dir).size ≤ 16 * i then
    16 * (i + 1) else (v.inode dir).size
  slots : ∀ j, j < maxEntries → v'.dirSlot dir j = if j = i then n else v.dirSlot dir j

/-- What `add_entry` has found is filled in. -/
theorem Opened.entered (h : Opened v dir z i v') (hf : v.IsFile dir) (hn : n < 2 ^ 16) :
    Entered v dir i n (v'.setDirEntry z i n) := by
  obtain ⟨ht, hslot⟩ := h.touches.sound.setDirEntry
    ((h.touches.isFile dir).mpr hf) h.bound h.block h.pos hn
  refine ⟨h.touches.trans ht, h.bound, h.edge, h.size, fun j hj => ?_⟩
  rw [hslot j hj]
  by_cases hji : j = i
  · rw [if_pos hji, if_pos hji]
  · rw [if_neg hji, if_neg hji, h.slots j hj hji]

-- ======== a new inode

/-- What a path leads to depends on its own inode. -/
theorem zoneAt_congr_inode (v v' : Vol) (hd : v'.data = v.data) :
    ∀ {p : ZPath}, v'.inode p.base.1 = v.inode p.base.1 → v'.zoneAt p = v.zoneAt p := by
  intro p
  induction p with
  | root k =>
    intro h
    show (v'.inode k.1).zone k.2 = (v.inode k.1).zone k.2
    rw [show v'.inode k.1 = v.inode k.1 from h]
  | child p i ih =>
    intro h
    have hp : v'.zoneAt p = v.zoneAt p := ih h
    by_cases h0 : v.zoneAt p = 0
    · rw [zoneAt_child_zero i h0, zoneAt_child_zero i (hp.trans h0)]
    · rw [zoneAt_child h0, zoneAt_child (by rw [hp]; exact h0), hp, hd]

theorem zoneAt_of_blank (hb : ∀ k, (v.inode n).zone k = 0) :
    ∀ {p : ZPath}, p.base.1 = n → v.zoneAt p = 0 := by
  intro p
  induction p with
  | root k =>
    rintro rfl
    exact hb k.2
  | child p i ih =>
    intro h
    exact zoneAt_child_zero i (ih h)

/-- An inode is overwritten with one that has no zones, or whose zones are
none: a device keeps its number there. -/
theorem Sound.setInode (h : Sound v) {I : Inode} (hI : I.mode ≠ .other → ∀ k, I.zone k = 0) :
    Sound (v.setInode n I) ∧ ∀ m, m ≠ n → Kept v (v.setInode n I) m := by
  have hself : (v.setInode n I).inode n = I := update_self ..
  have hother : ∀ m, m ≠ n → (v.setInode n I).inode m = v.inode m :=
    fun m hm => update_of_ne hm _ _
  have hat : ∀ p : ZPath, p.base.1 ≠ n → (v.setInode n I).zoneAt p = v.zoneAt p := fun p hp =>
    zoneAt_congr_inode v (v.setInode n I) rfl (hother _ hp)
  have hcount : ∀ p : ZPath, p.base.1 ≠ n → (Counts (v.setInode n I) p ↔ Counts v p) := fun p hp =>
    counts_mode (by rw [hother _ hp])
  -- a path of the inode itself leads nowhere
  have hnone : ∀ p, Counts (v.setInode n I) p → (v.setInode n I).zoneAt p ≠ 0 → p.base.1 ≠ n := by
    intro p hp h0 hb
    refine h0 (zoneAt_of_blank (fun k => ?_) hb)
    rw [hself]
    refine hI (fun hm => ?_) k
    have hfile : (v.setInode n I).IsFile p.base.1 := by
      match p, hp with
      | .root _, hp => exact hp.1
      | .child (.root _) _, hp => exact hp.1
      | .child (.child (.root _) _) _, hp => exact hp.1
    rw [hb, Vol.IsFile, hself] at hfile
    exact hfile hm
  refine ⟨h.congr rfl rfl (fun _ hs => hs) (fun _ ht _ => ht) fun p hp h0 => ?_, fun m hm => ?_⟩
  · have hb := hnone p hp h0
    exact ⟨(hcount p hb).mp hp, hat p hb⟩
  · have hat' : ∀ p : ZPath, p.base.1 = m → (v.setInode n I).zoneAt p = v.zoneAt p :=
      fun p hb => hat p (by rw [hb]; exact hm)
    exact ⟨hother m hm, fun p _ hb => hat' p hb,
      fun p _ hb _ off => byteAt_congr (hat' p hb) fun _ => rfl⟩

/-- The block of a new directory, where it was empty. -/
theorem inodeNr_dotBlock (hn : n < 2 ^ 16) (hdir : dir < 2 ^ 16) :
    (dotBlock Block.zero n dir).inodeNr 0 = n ∧ (dotBlock Block.zero n dir).inodeNr 1 = dir := by
  unfold dotBlock
  have hput : ∀ (b : Block) j, (b.put 18 [46, 46, 0]).inodeNr j = b.inodeNr j :=
    fun b j => b.inodeNr_put (k := 1) (by omega) (by simp)
  have hput' : ∀ (b : Block) j, (b.put 2 [46, 0]).inodeNr j = b.inodeNr j :=
    fun b j => b.inodeNr_put (k := 0) (by omega) (by simp)
  constructor
  · rw [hput, Block.inodeNr_setInodeNr, if_neg (by omega), hput',
      Block.inodeNr_setInodeNr, if_pos rfl, Nat.mod_eq_of_lt hn]
  · rw [hput, Block.inodeNr_setInodeNr, if_pos rfl, Nat.mod_eq_of_lt hdir]

/-- `sys_mkdir` stores a block that is ready, as its only zone, into an
inode that has none. -/
theorem mkdirVol_eq : mkdirVol v z n dir = ((v.setInode n ⟨.dir, 32, fun _ => 0⟩).setZone n 0
      z).setData z (dotBlock (v.data z) n dir) := by
  have hinode : (mkdirVol v z n dir).inode
      = ((v.setInode n ⟨.dir, 32, fun _ => 0⟩).setZone n 0 z).inode := by
    funext m
    by_cases hm : m = n
    · subst hm
      rw [setZone_self]
      simp [mkdirVol, Vol.setInode, Vol.setData]
    · rw [setZone_others hm]
      show (update (update v.inode n _) n _ m) = update v.inode n _ m
      rw [update_of_ne hm, update_of_ne hm, update_of_ne hm]
  show Vol.mk _ _ _ (mkdirVol v z n dir).inode _ _ _ = _
  rw [hinode]
  rfl

theorem Sound.mkdirVol (h : Sound v) (hr : Ready v z)
    (hn : n < 2 ^ 16) (hdir : dir < 2 ^ 16) : Sound (Fs.mkdirVol v z n dir)
      ∧ (∀ m, m ≠ n → Kept v (Fs.mkdirVol v z n dir) m) ∧ (Fs.mkdirVol v z n dir).inode n
        = ⟨.dir, 32, fun k => if k = 0 then z else 0⟩ ∧ (Fs.mkdirVol v z n dir).dirSlot n 0 = n
      ∧ (Fs.mkdirVol v z n dir).dirSlot n 1 = dir := by
  rw [mkdirVol_eq]
  obtain ⟨h1, hk1⟩ := h.setInode (I := ⟨.dir, 32, fun _ => 0⟩) fun _ _ => rfl
  generalize hv1 : v.setInode n ⟨.dir, 32, fun _ => 0⟩ = v₁ at h1 hk1 ⊢
  have hin : v₁.inode n = ⟨.dir, 32, fun _ => 0⟩ := by
    rw [← hv1]
    exact update_self ..
  have hfile : v₁.IsFile n := by
    unfold Vol.IsFile
    rw [hin]
    exact nofun
  have hp : Counts v₁ (.root (n, 0)) := ⟨hfile, by omega⟩
  have hempty : v₁.zoneAt (.root (n, 0)) = 0 := by
    rw [zoneAt_root, hin]
  -- the block is not reached from the other inodes, and the new one has none
  have hr1 : Ready v₁ z := by
    refine ⟨hr.pos, ?_, ?_, ?_, ?_, ?_⟩
    · rw [← hv1]
      exact hr.low
    · rw [← hv1]
      exact hr.high
    · rw [← hv1]
      exact hr.marked
    · rw [← hv1]
      exact hr.empty
    · intro p hp' h0
      by_cases hb : p.base.1 = n
      · exact absurd (zoneAt_of_blank (fun k => by rw [hin]) hb) h0
      · have hk := hk1 _ hb
        have hp0 := (hk.counts rfl).mp hp'
        rw [hk.zones p hp0 rfl] at h0 ⊢
        exact hr.unreached p hp0 h0
  have hs := slotSet_setZone v₁ n 0 z
  have hat := hs.zoneAt h1 hr1 hp trivial hempty
  have hx := hs.extends h1 hr1 hp trivial hempty
  generalize hv2 : v₁.setZone n 0 z = v2 at hs hat hx ⊢
  have hz : v2.zoneAt (.root (n, 0)) = z := (hat _ hp).1 rfl
  have hin2 : v2.inode n = ⟨.dir, 32, fun k => if k = 0 then z else 0⟩ := by
    rw [← hv2, setZone_self, hin]
  have hp2 : Counts v2 (.root (n, 0)) := (counts_congr hx.mode _).mpr hp
  have hfile2 : v2.IsFile n := hp2.1
  have hk2 : ∀ m, m ≠ n → Kept v₁ v2 m := by
    intro m hm
    refine ⟨?_, fun p hp' hb => (hat p hp').2 ?_, fun p hp' _ hl off => hx.bytes p hp' hl off⟩
    · rw [← hv2, setZone_others hm]
    · rintro rfl
      exact hm hb.symm
  have hdata : v.data z = Block.zero := hr.empty
  have hz0 : v2.zoneAt (slotPath n 0) = z := hz
  have hmax : 1 < maxEntries := by decide
  have hslot := fun j hj => hx.sound.dirSlot_setData hfile2 (j := j)
    (by omega) hj hz0 hr.pos (dotBlock (v.data z) n dir)
  obtain ⟨hd0, hd1⟩ := inodeNr_dotBlock hn hdir
  refine ⟨?_, ?_, hin2, ?_, ?_⟩
  · rw [← hz]
    exact (hx.sound.setData hp2 (by exact (by omega : 0 < 7)) (by rw [hz]; exact hr.pos) _).1
  · intro m hm
    refine ((hk1 m hm).trans (hk2 m hm)).trans ?_
    have := hx.sound.setData_kept hp2 (by exact (by omega : 0 < 7))
      (by rw [hz]; exact hr.pos) (dotBlock (v.data z) n dir) hm
    rw [hz] at this
    exact this
  · rw [hslot 0 (by omega), if_pos rfl, hdata]
    exact hd0
  · rw [hslot 1 hmax, if_pos (by decide), hdata]
    exact hd1

end LearnLinux.Fs
