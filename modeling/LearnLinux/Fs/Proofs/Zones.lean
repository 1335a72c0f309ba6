/-
The zone allocator keeps a mounted file system consistent.

An allocation is two changes: `new_block` marks a block that was not
marked — so no path reaches it — and clears it, and the caller then
stores its number into a slot that held 0. The first moves no path, by
the frame rule of the forest, and the second moves one, by its store
rule. `Extends` is what the callers need of both: the file system is
consistent, no zone has moved, and no byte of a file reads
differently.
-/
import LearnLinux.Fs.Consistent

namespace LearnLinux.Fs

open Lib

variable {v v' : Vol} {t z i ino k block : Nat} {e : Panic} {p q : ZPath} {create : Bool}

-- ======== blocks and bits

@[simp] theorem Block.entry_zero : Block.zero.entry i = 0 := rfl

theorem Block.entry_setEntry (b : Block) (i z j : Nat) : (b.setEntry i z).entry j
      = if j = i then z % 2 ^ 16 else b.entry j := by
  unfold Block.entry Block.setEntry
  by_cases h : j = i
  · subst h
    rw [if_pos rfl, if_neg (by omega), if_pos rfl, if_pos rfl,
      UInt8.toNat_ofNat', UInt8.toNat_ofNat']
    omega
  · rw [if_neg (by omega), if_neg (by omega), if_neg (by omega), if_neg (by omega), if_neg h]

theorem Vol.bit_setBit (h : (v.zmap (t / 8192)).isSome) (b : Bool)
    (s : Nat) : (v.setBit t b).bit s = if s = t then b else v.bit s := by
  obtain ⟨bits, hbits⟩ := Option.isSome_iff_exists.mp h
  unfold Vol.bit Vol.setBit
  by_cases hd : s / 8192 = t / 8192
  · simp only [hd, if_true, hbits, Option.map_some]
    by_cases hs : s = t
    · rw [if_pos hs, if_pos (by rw [hs])]
    · rw [if_neg hs, if_neg (by omega)]
  · simp only [hd, if_false]
    rw [if_neg fun hs => hd (by rw [hs])]

theorem Vol.isSome_of_bit (h : v.bit t = true) : (v.zmap (t / 8192)).isSome := by
  unfold Vol.bit at h
  split at h
  · cases h
  · rename_i bits hbits
    rw [hbits]
    rfl

theorem Vol.setBit_isSome (v : Vol) (b : Bool) :
    ((v.setBit t b).zmap i).isSome = (v.zmap i).isSome := by
  unfold Vol.setBit
  simp only
  split
  · exact Option.isSome_map
  · rfl

-- ======== scans

/-- `find_first_zero`: what it stops at is a zero bit, and the first. -/
theorem zeroFrom_spec (bits : Nat → Bool) : ∀ n j,
    (zeroFrom bits n j < j + n → bits (zeroFrom bits n j) = false) ∧
      ∀ k, j ≤ k → k < j + n → bits k = false → zeroFrom bits n j ≤ k := by
  intro n
  induction n with
  | zero => exact fun j => ⟨fun h => absurd h (Nat.lt_irrefl _), fun k hk hk' => by omega⟩
  | succ n ih =>
    intro j
    obtain ⟨hz, hfirst⟩ := ih (j + 1)
    unfold zeroFrom
    split
    · rename_i hb
      refine ⟨fun h => hz (by omega), fun k hk hk' hbit => hfirst k ?_ (by omega) hbit⟩
      rcases Nat.lt_or_eq_of_le hk with hk | rfl
      · exact hk
      · rw [hb] at hbit
        cases hbit
    · rename_i hb
      exact ⟨fun _ => Bool.eq_false_iff.mpr hb, fun k hk _ _ => hk⟩

/-- The scan of `new_block`: what it finds is a zero bit of a map block
that is there, and the first one. -/
theorem scanZmap_spec {zmap : Nat → Option (Nat → Bool)} : ∀ {n i : Nat},
    (∀ a b, scanZmap zmap n i = some (a, b) →
      a < i + n ∧ b < 8192 ∧ ∃ bits, zmap a = some bits ∧ bits b = false) ∧
    ∀ k j bits, i ≤ k → k < i + n → j < 8192 → zmap k = some bits → bits j = false →
      ∃ a b, scanZmap zmap n i = some (a, b) ∧ b + a * 8192 ≤ j + k * 8192 := by
  intro n
  induction n with
  | zero => exact ⟨nofun, fun k j bits hk hk' => absurd hk' (by omega)⟩
  | succ n ih =>
    intro i
    obtain ⟨hspec, hfirst⟩ := ih
    -- the block is skipped: it has no zero bit, or is not there
    have hskip : (∀ bits, zmap i = some bits → ¬ findFirstZero bits < 8192) →
        scanZmap zmap (n + 1) i = scanZmap zmap n (i + 1) := by
      intro hno
      rw [scanZmap]
      split
      · rfl
      · rename_i bits hbits
        exact if_neg (hno bits hbits)
    by_cases hhit : ∃ bits, zmap i = some bits ∧ findFirstZero bits < 8192
    · obtain ⟨bits, hbits, hlt⟩ := hhit
      have hscan : scanZmap zmap (n + 1) i = some (i, findFirstZero bits) := by
        simp only [scanZmap, hbits, if_pos hlt]
      obtain ⟨hz, hleast⟩ := zeroFrom_spec bits 8192 0
      rw [hscan]
      refine ⟨fun a b h => ?_, fun k j bits' hk hk' hj hb hbit => ⟨_, _, rfl, ?_⟩⟩
      · cases h
        exact ⟨by omega, hlt, bits, hbits, hz (by rw [Nat.zero_add]; exact hlt)⟩
      · rcases Nat.lt_or_eq_of_le hk with hk | rfl
        · omega
        · rw [hbits] at hb
          cases hb
          have : findFirstZero bits ≤ j := hleast j (Nat.zero_le j) (by omega) hbit
          omega
    · rw [hskip fun bits hb hlt => hhit ⟨bits, hb, hlt⟩]
      refine ⟨fun a b h => ?_, fun k j bits hk hk' hj hb hbit => ?_⟩
      · obtain ⟨ha, hb⟩ := hspec a b h
        exact ⟨by omega, hb⟩
      · rcases Nat.lt_or_eq_of_le hk with hk | rfl
        · exact hfirst k j bits hk (by omega) hj hb hbit
        · have : findFirstZero bits ≤ j := (zeroFrom_spec bits 8192 0).2 j (by omega) (by omega) hbit
          exact absurd ⟨bits, hb, by omega⟩ hhit

/-- The bit that `new_block` takes. -/
def Vol.firstClear (v : Vol) : Option Nat :=
  (scanZmap v.zmap 8 0).map fun p => p.2 + p.1 * 8192

theorem Vol.firstClear_spec {s : Nat} (h : v.firstClear = some s) :
    v.bit s = false ∧ (v.zmap (s / 8192)).isSome ∧ s < 8 * 8192 := by
  obtain ⟨⟨a, b⟩, hscan, rfl⟩ := Option.map_eq_some_iff.mp h
  obtain ⟨ha, hb, bits, hbits, hzero⟩ := scanZmap_spec.1 a b hscan
  have hdiv : (b + a * 8192) / 8192 = a := by omega
  have hmod : (b + a * 8192) % 8192 = b := by omega
  unfold Vol.bit
  rw [hdiv, hbits, hmod]
  exact ⟨hzero, rfl, by omega⟩

/-- It is the first clear bit of the maps that are there. -/
theorem Vol.firstClear_least (ht : t < 8 * 8192) (hsome : (v.zmap (t / 8192)).isSome)
    (hbit : v.bit t = false) : ∃ s, v.firstClear = some s ∧ s ≤ t := by
  obtain ⟨bits, hbits⟩ := Option.isSome_iff_exists.mp hsome
  unfold Vol.bit at hbit
  rw [hbits] at hbit
  obtain ⟨a, b, hscan, hle⟩ := (scanZmap_spec (n := 8)).2 (t / 8192) (t % 8192) bits
    (Nat.zero_le _) (by omega) (by omega) hbits hbit
  refine ⟨b + a * 8192, ?_, by omega⟩
  unfold Vol.firstClear
  rw [hscan]
  rfl

-- ======== new_block

/-- Block `z`, free before, has been marked and cleared. -/
structure Fresh (v : Vol) (z : Nat) (v' : Vol) : Prop where
  low : v.firstdatazone ≤ z
  high : z < v.nzones
  free : ¬ v.Marked z
  map : (v.zmap ((z + 1 - v.firstdatazone) / 8192)).isSome
  eq : v' = (v.setBit (z + 1 - v.firstdatazone) true).setData z Block.zero

/-- `new_block`, by the bit it takes. The bit that is taken was clear. -/
theorem newBlock_eq : newBlock v =
    match v.firstClear with
    | none => .ok (0, v)
    | some t =>
      if v.nzones ≤ t + v.firstdatazone - 1 then .ok (0, v.setBit t true)
      else if v.held (t + v.firstdatazone - 1) ≠ 0 then .error .count
      else .ok (t + v.firstdatazone - 1,
        (v.setBit t true).setData (t + v.firstdatazone - 1) Block.zero) := by
  cases hscan : scanZmap v.zmap 8 0 with
  | none => simp only [newBlock, Vol.firstClear, hscan, Option.map_none]
  | some p =>
    have hclear : v.firstClear = some (p.2 + p.1 * 8192) := by
      rw [Vol.firstClear, hscan]
      rfl
    simp only [newBlock, hscan, hclear, (Vol.firstClear_spec hclear).1]
    rfl

/-- On a mounted device the bit stands for a block, and is not bit 0. -/
theorem Mounted.firstClear (hm : Mounted v) (h : v.firstClear = some t) :
    t + v.firstdatazone - 1 < v.nzones ∧ 1 ≤ t := by
  obtain ⟨hbit, hsome, hlt⟩ := Vol.firstClear_spec h
  refine ⟨Nat.not_le.mp fun hge => ?_, Nat.one_le_iff_ne_zero.mpr ?_⟩
  · rw [hm.tail t hlt hsome hge] at hbit
    cases hbit
  · rintro rfl
    rw [hm.zero] at hbit
    cases hbit

/-- A block is fresh if its bit was the first clear one. -/
theorem fresh_of_firstClear (h : v.firstClear = some t) (h1 : 1 ≤ t)
    (hlt : t + v.firstdatazone - 1 < v.nzones) : Fresh v (t + v.firstdatazone - 1)
      ((v.setBit t true).setData (t + v.firstdatazone - 1) Block.zero) := by
  obtain ⟨hbit, hsome, -⟩ := Vol.firstClear_spec h
  have ht : t + v.firstdatazone - 1 + 1 - v.firstdatazone = t := by omega
  refine ⟨by omega, hlt, ?_, by rw [ht]; exact hsome, by rw [ht]⟩
  unfold Vol.Marked
  rw [ht, hbit]
  exact Bool.false_ne_true

/-- `new_block`, when it returns: nothing, on a full disk, or a fresh
block. -/
theorem newBlock_cases (hm : Mounted v)
    (h : newBlock v = .ok (z, v')) : (z = 0 ∧ v' = v) ∨ Fresh v z v' := by
  rw [newBlock_eq] at h
  split at h
  · cases h
    exact .inl ⟨rfl, rfl⟩
  · rename_i t ht
    obtain ⟨hlt, h1⟩ := hm.firstClear ht
    rw [if_neg (Nat.not_le.mpr hlt)] at h
    split at h
    · cases h
    · cases h
      exact .inr (fresh_of_firstClear ht h1 hlt)

/-- The one panic of `new_block`: somebody has the buffer of the free
block. -/
theorem newBlock_error (h : newBlock v = .error e) : e = .count := by
  rw [newBlock_eq] at h
  split at h
  · cases h
  · split at h
    · cases h
    · split at h
      · cases h
        rfl
      · cases h

/-- Either a block is taken that was free, its bit set and its contents
cleared, or nothing has changed and there is no free block. -/
def AllOrNothing (v : Vol) : Prop :=
  ∃ z v', newBlock v = .ok (z, v') ∧ (z ≠ 0 ∧ Fresh v z v' ∨
    z = 0 ∧ v' = v ∧ ∀ t, t < 8 * 8192 → (v.zmap (t / 8192)).isSome →
      t + v.firstdatazone - 1 < v.nzones → v.bit t = true)

/-- `new_block` does so if and only if the first clear bit, if there is one,
stands for a block of the device (and not for block 0) whose buffer nobody
has: the range is checked when the bit is set already. -/
theorem newBlock_allOrNothing_iff (h0 : v.bit 0 = true) : AllOrNothing v ↔
    ∀ t, v.firstClear = some t → 0 < t + v.firstdatazone - 1 ∧
      t + v.firstdatazone - 1 < v.nzones ∧ v.held (t + v.firstdatazone - 1) = 0 := by
  unfold AllOrNothing
  rw [newBlock_eq]
  cases hclear : v.firstClear with
  | none =>
    refine iff_of_true ⟨0, v, rfl, .inr ⟨rfl, rfl, fun t ht hsome _ => ?_⟩⟩ fun t ht => by cases ht
    by_contra hbit
    obtain ⟨s, hs, -⟩ := Vol.firstClear_least ht hsome (Bool.eq_false_iff.mpr hbit)
    rw [hclear] at hs
    cases hs
  | some t =>
    obtain ⟨hbit, hsome, hlt⟩ := Vol.firstClear_spec hclear
    have h1 : 1 ≤ t := by
      refine Nat.one_le_iff_ne_zero.mpr ?_
      rintro rfl
      rw [h0] at hbit
      cases hbit
    -- the bit is set, so something has changed
    have hset : ∀ w : Vol, w.zmap = (v.setBit t true).zmap → w ≠ v := by
      intro w hw hc
      have hsame : w.bit t = (v.setBit t true).bit t := by
        unfold Vol.bit
        rw [hw]
      rw [hc, hbit, Vol.bit_setBit hsome, if_pos rfl] at hsame
      cases hsame
    simp only [Option.some.injEq, forall_eq']
    by_cases hn : v.nzones ≤ t + v.firstdatazone - 1
    · rw [if_pos hn]
      refine iff_of_false ?_ fun hc => absurd hc.2.1 (Nat.not_lt.mpr hn)
      rintro ⟨z, v', h, ⟨hz, -⟩ | ⟨-, hv, -⟩⟩
      · cases h
        exact hz rfl
      · cases h
        exact hset _ rfl hv
    · rw [if_neg hn]
      by_cases hheld : v.held (t + v.firstdatazone - 1) = 0
      · rw [if_neg (not_not.mpr hheld)]
        constructor
        · rintro ⟨z, v', h, ⟨hz, -⟩ | ⟨-, hv, -⟩⟩
          · cases h
            exact ⟨Nat.pos_of_ne_zero hz, Nat.not_le.mp hn, hheld⟩
          · cases h
            exact absurd hv (hset _ rfl)
        · rintro ⟨hpos, hz, -⟩
          exact ⟨_, _, rfl, .inl ⟨Nat.ne_of_gt hpos, fresh_of_firstClear hclear h1 hz⟩⟩
      · rw [if_pos hheld]
        refine iff_of_false ?_ fun hc => hheld hc.2.2
        rintro ⟨z, v', h, -⟩
        cases h

/-- A device with ten blocks, of which the first seven are no data blocks:
the bits below `used` are set. -/
def tenBlocks (used : Nat) : Vol where
  firstdatazone := 7
  nzones := 10
  zmap i := if i = 0 then some fun j => j < used else none
  inode _ := ⟨.other, 0, fun _ => 0⟩
  data _ := Block.zero
  disk _ := Block.zero
  held _ := 0

/-- Bit 3 stands for block 9, the last. -/
theorem newBlock_allOrNothing_iff_last : (tenBlocks 3).bit 0 = true ∧ AllOrNothing (tenBlocks 3) := by
  refine ⟨rfl, (newBlock_allOrNothing_iff rfl).mpr fun t ht => ?_⟩
  cases (show (tenBlocks 3).firstClear = some 3 by decide).symm.trans ht
  decide

/-- On a full device bit 4 is set for a block that is not there. -/
theorem newBlock_full_sets_bit : newBlock (tenBlocks 4) = .ok (0, (tenBlocks 4).setBit 4 true) ∧
    ¬ AllOrNothing (tenBlocks 4) := by
  have hclear : (tenBlocks 4).firstClear = some 4 := by decide
  have hnew : newBlock (tenBlocks 4) = .ok (0, (tenBlocks 4).setBit 4 true) := by
    rw [newBlock_eq, hclear]
    rfl
  refine ⟨hnew, ?_⟩
  rintro ⟨z, v', h, ⟨hz, -⟩ | ⟨-, hv, -⟩⟩
  · rw [hnew] at h
    cases h
    exact hz rfl
  · rw [hnew] at h
    cases h
    have : ((tenBlocks 4).setBit 4 true).bit 4 = (tenBlocks 4).bit 4 := by rw [hv]
    cases this

-- ======== the forest

theorem counts_parent : ParentClosed (Counts v) := by
  intro p i hp
  match p with
  | .root (ino, k) =>
    obtain ⟨hf, hk, -⟩ := hp
    exact ⟨hf, by omega⟩
  | .child (.root (ino, k)) j =>
    obtain ⟨hf, hk, hj, -⟩ := hp
    exact ⟨hf, .inr hk, hj⟩
  | .child (.child _ _) _ => exact hp.elim

theorem isFile_congr (h : (v'.inode ino).mode = (v.inode ino).mode) :
    v'.IsFile ino ↔ v.IsFile ino := by
  unfold Vol.IsFile
  rw [h]

/-- The paths of an inode count by its mode alone. -/
theorem counts_mode (h : (v'.inode p.base.1).mode = (v.inode p.base.1).mode) :
    Counts v' p ↔ Counts v p := by
  have hfile := isFile_congr h
  match p with
  | .root (ino, k) => exact and_congr_left' hfile
  | .child (.root (ino, k)) i => exact and_congr_left' hfile
  | .child (.child (.root (ino, k)) i) j => exact and_congr_left' hfile
  | .child (.child (.child _ _) _) _ => exact Iff.rfl

theorem counts_congr (h : ∀ ino, (v'.inode ino).mode = (v.inode ino).mode)
    (p : ZPath) : Counts v' p ↔ Counts v p :=
  counts_mode (h _)

/-- A path into a block of zone numbers: the block is not a data
block. -/
theorem Counts.not_leaf (h : Counts v (p.child i)) : ¬ Leaf p := by
  match p with
  | .root (ino, k) =>
    obtain ⟨-, hk, -⟩ := h
    exact fun (hl : k < 7) => by omega
  | .child (.root (ino, k)) j =>
    obtain ⟨-, hk, -⟩ := h
    exact fun (hl : k = 7) => by omega
  | .child (.child _ _) _ => exact h.elim

theorem Consistent.separate (h : Consistent v) : Separate (Counts v) v.forest :=
  h.once

/-- A file system stays sound if its paths lead where they led or nowhere,
and no bit is cleared but of a block whose path is gone. -/
theorem Sound.congr (h : Sound v) (hfirst : v'.firstdatazone = v.firstdatazone)
    (hn : v'.nzones = v.nzones) (hsome : ∀ i, (v'.zmap i).isSome → (v.zmap i).isSome)
    (hbit : ∀ t, v.bit t = true → (∀ p, Counts v p → v.zoneAt p ≠ 0 → v'.zoneAt p = 0 →
      v.zoneAt p + 1 - v.firstdatazone ≠ t) → v'.bit t = true)
    (hat : ∀ p, Counts v' p → v'.zoneAt p ≠ 0 → Counts v p ∧ v'.zoneAt p = v.zoneAt p) :
    Sound v' := by
  have hzone := h.consistent.zone
  refine ⟨⟨?_, hbit 0 h.mounted.zero fun p hp h0 _ => ?_, fun t ht hs hge => ?_⟩,
    fun p hp h0 => ?_, fun p q hp hq h0 hpq => ?_⟩
  · rw [hn]
    exact h.mounted.short
  · have := (hzone p hp h0).1
    omega
  · rw [hfirst, hn] at hge
    refine hbit t (h.mounted.tail t ht (hsome _ hs) hge) fun p hp h0 _ => ?_
    have := hzone p hp h0
    omega
  · obtain ⟨hc, he⟩ := hat p hp h0
    rw [he] at h0 ⊢
    obtain ⟨hlo, hhi, hm⟩ := hzone p hc h0
    unfold Vol.Marked
    rw [hfirst, hn]
    refine ⟨hlo, hhi, hbit _ hm fun q hq hq0 hgone ht => h0 ?_⟩
    have := hzone q hq hq0
    rw [← he, h.consistent.once p q hc hq h0 (by omega), hgone]
  · obtain ⟨hc, he⟩ := hat p hp h0
    obtain ⟨hc', he'⟩ := hat q hq (hpq ▸ h0)
    rw [he] at h0 hpq
    rw [he'] at hpq
    exact h.consistent.once p q hc hc' h0 hpq

theorem byteAt_congr {off : Nat} (hz : v'.zoneAt p = v.zoneAt p)
    (hd : v.zoneAt p ≠ 0 → v'.data (v.zoneAt p) = v.data (v.zoneAt p)) :
    v'.byteAt p off = v.byteAt p off := by
  unfold Vol.byteAt
  rw [hz]
  split
  · rfl
  · rename_i h0
    rw [hd h0]

-- ======== extension

/-- No zone has moved, and no byte of a file reads differently. -/
structure Extends (v v' : Vol) : Prop where
  sound : Sound v'
  mode : ∀ ino, (v'.inode ino).mode = (v.inode ino).mode
  size : ∀ ino, (v'.inode ino).size = (v.inode ino).size
  keeps : ∀ p, Counts v p → v.zoneAt p ≠ 0 → v'.zoneAt p = v.zoneAt p
  bytes : ∀ p, Counts v p → Leaf p → ∀ off, v'.byteAt p off = v.byteAt p off

theorem Extends.refl (h : Sound v) : Extends v v :=
  ⟨h, fun _ => rfl, fun _ => rfl, fun _ _ _ => rfl, fun _ _ _ _ => rfl⟩

theorem Extends.trans {v1 : Vol} (h : Extends v v1) (h' : Extends v1 v') : Extends v v' where
  sound := h'.sound
  mode ino := (h'.mode ino).trans (h.mode ino)
  size ino := (h'.size ino).trans (h.size ino)
  keeps p hp h0 := by
    have hk := h.keeps p hp h0
    rw [h'.keeps p ((counts_congr h.mode p).mpr hp) (by rw [hk]; exact h0), hk]
  bytes p hp hl off := by
    rw [h'.bytes p ((counts_congr h.mode p).mpr hp) hl, h.bytes p hp hl]

/-- References and the device's own copies are not part of what files
are. -/
theorem Extends.of_same (h : Sound v)
    (hfirst : v'.firstdatazone = v.firstdatazone) (hn : v'.nzones = v.nzones) (hz : v'.zmap = v.zmap)
    (hi : v'.inode = v.inode) (hd : v'.data = v.data) : Extends v v' := by
  obtain ⟨f, n, z, i, d, disk, held⟩ := v
  obtain ⟨f', n', z', i', d', disk', held'⟩ := v'
  obtain rfl : f' = f := hfirst
  obtain rfl : n' = n := hn
  obtain rfl : z' = z := hz
  obtain rfl : i' = i := hi
  obtain rfl : d' = d := hd
  exact ⟨⟨⟨h.mounted.short, h.mounted.zero, h.mounted.tail⟩,
      ⟨h.consistent.zone, h.consistent.once⟩⟩,
    fun _ => rfl, fun _ => rfl, fun _ _ _ => rfl, fun _ _ _ _ => rfl⟩

-- ======== a fresh block

/-- No path reaches a block that was free. -/
theorem Fresh.unreached (h : Consistent v) (hf : Fresh v z v')
    (hp : Counts v p) (h0 : v.zoneAt p ≠ 0) : v.zoneAt p ≠ z := by
  intro hz
  have hm := (h.zone p hp h0).2.2
  rw [hz] at hm
  exact hf.free hm

section

variable (hf : Fresh v z v')
include hf

theorem Fresh.data_ne {n : Nat} (hn : n ≠ z) : v'.data n = v.data n := by
  rw [hf.eq]
  exact if_neg hn

theorem Fresh.data_self : v'.data z = Block.zero := by
  rw [hf.eq]
  exact if_pos rfl

theorem Fresh.kept : v'.firstdatazone = v.firstdatazone
    ∧ v'.nzones = v.nzones ∧ v'.inode = v.inode := by
  rw [hf.eq]
  exact ⟨rfl, rfl, rfl⟩

theorem Fresh.bit (t : Nat) : v'.bit t = if t = z + 1 - v.firstdatazone then true else v.bit t := by
  rw [hf.eq]
  exact Vol.bit_setBit hf.map true t

end

/-- Marking and clearing it moves no path. -/
theorem Fresh.zoneAt (h : Consistent v) (hf : Fresh v z v')
    (hp : Counts v p) : v'.zoneAt p = v.zoneAt p := by
  refine Path.at_congr counts_parent (fun k _ => ?_) (fun q i hq h0 => ?_) p hp
  · rw [hf.eq]
    rfl
  · have hne := hf.unreached h (counts_parent q i hq) h0
    show (v'.data (v.zoneAt q)).entry i = (v.data (v.zoneAt q)).entry i
    rw [hf.data_ne hne]

theorem Fresh.extends (h : Sound v) (hf : Fresh v z v') : Extends v v' := by
  obtain ⟨hfirst, hn, hin⟩ := hf.kept
  have hmode : ∀ ino, (v'.inode ino).mode = (v.inode ino).mode := fun ino => by rw [hin]
  have hat := fun p (hp : Counts v p) => hf.zoneAt h.consistent hp
  refine ⟨h.congr hfirst hn (fun i hsome => ?_) (fun t ht _ => ?_) (fun p hp _ => ?_), hmode,
    fun ino => by rw [hin], fun p hp _ => hat p hp, fun p hp _ off => ?_⟩
  · rw [hf.eq] at hsome
    exact (Vol.setBit_isSome _ _).symm.trans hsome
  · rw [hf.bit, ht, ite_self]
  · have hp := (counts_congr hmode p).mp hp
    exact ⟨hp, hat p hp⟩
  · exact byteAt_congr (hat p hp) fun h0 => hf.data_ne (hf.unreached h.consistent hp h0)

-- ======== its number

/-- Block `z` is marked, empty and reached by no path: it is about to be
stored. -/
structure Ready (v : Vol) (z : Nat) : Prop where
  pos : z ≠ 0
  low : v.firstdatazone ≤ z
  high : z < v.nzones
  marked : v.Marked z
  empty : v.data z = Block.zero
  unreached : ∀ p, Counts v p → v.zoneAt p ≠ 0 → v.zoneAt p ≠ z

theorem Ready.entries (hr : Ready v z) (i : Nat) : v.forest.ent z i = 0 := by
  show (v.data z).entry i = 0
  rw [hr.empty, Block.entry_zero]

theorem Fresh.ready (h : Sound v) (hf : Fresh v z v') (hz : z ≠ 0) : Ready v' z := by
  obtain ⟨hfirst, hn, -⟩ := hf.kept
  have hx := hf.extends h
  refine ⟨hz, ?_, ?_, ?_, hf.data_self, ?_⟩
  · rw [hfirst]
    exact hf.low
  · rw [hn]
    exact hf.high
  · unfold Vol.Marked
    rw [hfirst, hf.bit, if_pos rfl]
  · intro p hp h0
    rw [counts_congr hx.mode] at hp
    rw [hf.zoneAt h.consistent hp] at h0 ⊢
    exact hf.unreached h.consistent hp h0

/-- The number of a ready block stored into the empty slot at the end of
`p`. -/
structure SlotSet (v : Vol) (p : ZPath) (z : Nat) (v' : Vol) : Prop where
  first : v'.firstdatazone = v.firstdatazone
  nzones : v'.nzones = v.nzones
  zmap : v'.zmap = v.zmap
  mode : ∀ ino, (v'.inode ino).mode = (v.inode ino).mode
  size : ∀ ino, (v'.inode ino).size = (v.inode ino).size
  stored : StoredAt v.forest z v'.forest p
  data : ∀ n, (∀ q i, p = .child q i → n ≠ v.zoneAt q) → v'.data n = v.data n

section

variable (hs : SlotSet v p z v') (h : Sound v) (hr : Ready v z) (hp : Counts v p)
  (hslot : HasSlot v.forest p) (hempty : v.zoneAt p = 0)
include hs h hr hp hslot hempty

theorem SlotSet.zoneAt : ∀ q, Counts v q →
      (q = p → v'.zoneAt q = z) ∧ (q ≠ p → v'.zoneAt q = v.zoneAt q) :=
  Path.at_store counts_parent hp hslot hr.unreached hr.entries hs.stored
    h.consistent.separate hempty

theorem SlotSet.extends : Extends v v' := by
  have hat := hs.zoneAt h hr hp hslot hempty
  have hcount := counts_congr hs.mode
  have hbit : ∀ t, v'.bit t = v.bit t := by
    intro t
    unfold Vol.bit
    rw [hs.zmap]
  have hsep : Separate (Counts v) v'.forest :=
    Separate.store counts_parent hp hslot hr.unreached hr.entries hs.stored
      h.consistent.separate hempty
  refine ⟨⟨⟨?_, ?_, ?_⟩, ⟨?_, ?_⟩⟩, hs.mode, hs.size, ?_, ?_⟩
  · rw [hs.nzones]
    exact h.mounted.short
  · rw [hbit]
    exact h.mounted.zero
  · intro t ht hsome hge
    rw [hs.zmap] at hsome
    rw [hs.first, hs.nzones] at hge
    rw [hbit]
    exact h.mounted.tail t ht hsome hge
  · intro q hq h0
    rw [hcount] at hq
    unfold Vol.Marked
    rw [hs.first, hs.nzones, hbit]
    by_cases hqp : q = p
    · rw [(hat q hq).1 hqp]
      exact ⟨hr.low, hr.high, hr.marked⟩
    · rw [(hat q hq).2 hqp] at h0 ⊢
      exact h.consistent.zone q hq h0
  · intro q r hq hr'
    rw [hcount] at hq hr'
    exact hsep q r hq hr'
  · intro q hq h0
    refine (hat q hq).2 ?_
    rintro rfl
    exact h0 hempty
  · intro q hq hl off
    by_cases hqp : q = p
    · -- a hole becomes a block of zeros
      subst hqp
      unfold Vol.byteAt
      rw [(hat q hq).1 rfl, if_neg hr.pos, hempty, if_pos rfl, hs.data z, hr.empty]
      · rfl
      · rintro r i rfl
        exact (hr.unreached r (counts_parent r i hq) hslot).symm
    · refine byteAt_congr ((hat q hq).2 hqp) fun h0 => hs.data _ ?_
      -- the block stored into is not a data block
      rintro r i rfl hqr
      obtain rfl := h.consistent.once q r hq (counts_parent r i hp) h0 hqr
      exact hp.not_leaf hl

end

-- ======== one slot of _bmap

theorem zoneAt_root : v.zoneAt (.root (ino, k)) = (v.inode ino).zone k := rfl

theorem zoneAt_child {e : Nat} (h0 : v.zoneAt q ≠ 0) :
    v.zoneAt (q.child e) = (v.data (v.zoneAt q)).entry e :=
  Path.at_child h0

theorem zoneAt_child_zero (e : Nat) (h0 : v.zoneAt q = 0) : v.zoneAt (q.child e) = 0 :=
  Path.at_child_of_zero h0

/-- `i_zone[k] = z`, as a store into the forest. -/
theorem slotSet_setZone (v : Vol) (ino k z : Nat) :
    SlotSet v (.root (ino, k)) z (v.setZone ino k z) := by
  have hmode : ∀ i, ((v.setZone ino k z).inode i).mode = (v.inode i).mode
      ∧ ((v.setZone ino k z).inode i).size = (v.inode i).size := by
    intro i
    unfold Vol.setZone
    simp only
    split
    · exact ⟨rfl, rfl⟩
    · exact ⟨rfl, rfl⟩
  have hroot : ∀ i l, ((v.setZone ino k z).inode i).zone l
      = if i = ino ∧ l = k then z else (v.inode i).zone l := by
    intro i l
    unfold Vol.setZone
    simp only
    by_cases hi : i = ino
    · by_cases hl : l = k
      · simp only [hi, hl, if_true, and_self]
      · simp only [hi, hl, if_true, if_false, and_false]
    · simp only [hi, if_false, false_and]
  refine ⟨rfl, rfl, rfl, fun i => (hmode i).1, fun i => (hmode i).2,
    ⟨?_, ?_, fun _ _ => rfl⟩, fun _ _ => rfl⟩
  · show ((v.setZone ino k z).inode ino).zone k = z
    rw [hroot, if_pos ⟨rfl, rfl⟩]
  · intro k' hk'
    show ((v.setZone ino k z).inode k'.1).zone k'.2 = _
    rw [hroot, if_neg]
    · rfl
    · rintro ⟨h1, h2⟩
      exact hk' (Prod.ext h1 h2)

/-- Entry `e` of the block at `q` set to `z`, as a store into the
forest. -/
theorem slotSet_setEntry (v : Vol) (q : ZPath) (e z : Nat) (hz : z < 2 ^ 16) :
    SlotSet v (q.child e) z (v.setData (v.zoneAt q) ((v.data (v.zoneAt q)).setEntry e z)) := by
  have hdata : ∀ n, (v.setData (v.zoneAt q) ((v.data (v.zoneAt q)).setEntry e z)).data n
        = if n = v.zoneAt q then (v.data (v.zoneAt q)).setEntry e z
          else v.data n := fun n => rfl
  refine ⟨rfl, rfl, rfl, fun _ => rfl, fun _ => rfl, ⟨?_, fun _ => rfl, ?_⟩, fun n hn => ?_⟩
  · show ((v.setData _ _).data (v.zoneAt q)).entry e = z
    rw [hdata, if_pos rfl, Block.entry_setEntry, if_pos rfl, Nat.mod_eq_of_lt hz]
  · intro n j hne
    show ((v.setData _ _).data n).entry j = (v.data n).entry j
    rw [hdata]
    by_cases hn : n = v.zoneAt q
    · rw [if_pos hn, Block.entry_setEntry, if_neg fun hj => hne ⟨hn, hj⟩, hn]
    · rw [if_neg hn]
  · rw [hdata, if_neg (hn q e rfl)]

/-- On a full disk 0 is stored over 0. -/
theorem setZone_zero (h0 : (v.inode ino).zone k = 0) : (v.setZone ino k 0).inode = v.inode := by
  funext i
  unfold Vol.setZone
  simp only
  split
  · rename_i hi
    subst hi
    congr 1
    funext l
    split
    · rename_i hl
      rw [hl, h0]
    · rfl
  · rfl

/-- A fresh block, or none: 0 counts as none. -/
theorem Sound.newBlock (h : Sound v) (hnew : newBlock v = .ok (z, v')) :
    Extends v v' ∧ v'.inode = v.inode ∧ z < 2 ^ 16 ∧ (z ≠ 0 → Ready v' z)
      ∧ ∀ p, Counts v p → v'.zoneAt p = v.zoneAt p := by
  rcases newBlock_cases h.mounted hnew with ⟨rfl, rfl⟩ | hf
  · exact ⟨Extends.refl h, rfl, by omega, fun hz => absurd rfl hz, fun _ _ => rfl⟩
  · have hhigh := hf.high
    have hshort := h.mounted.short
    exact ⟨hf.extends h, hf.kept.2.2, by omega, hf.ready h, fun p hp => hf.zoneAt h.consistent hp⟩

/-- `i_zone[k]`, with or without allocation. -/
theorem Sound.zoneOrNew (h : Sound v)
    (hp : Counts v (.root (ino, k))) (hz : zoneOrNew create ino k v = .ok (z, v')) :
    Extends v v' ∧ z = v'.zoneAt (.root (ino, k)) := by
  unfold Fs.zoneOrNew at hz
  split at hz
  · rename_i hc
    obtain ⟨⟨y, v1⟩, hnew, hgo⟩ := bind_eq_ok hz
    cases hgo
    refine ⟨?_, rfl⟩
    obtain ⟨hx, hin, hlt, hready, -⟩ := h.newBlock hnew
    have hempty : (v1.inode ino).zone k = 0 := by
      rw [hin]
      exact hc.2
    rw [Nat.mod_eq_of_lt hlt]
    by_cases hy : y = 0
    · subst hy
      exact hx.trans (Extends.of_same hx.sound rfl rfl rfl (setZone_zero hempty) rfl)
    · exact hx.trans ((slotSet_setZone v1 ino k y).extends hx.sound
        (hready hy) ((counts_congr hx.mode _).mpr hp) trivial hempty)
  · cases hz
    exact ⟨Extends.refl h, rfl⟩

theorem Extends.hold (h : Sound v) (n : Nat) : Extends v (v.hold n) :=
  Extends.of_same h rfl rfl rfl rfl rfl

theorem Extends.brelse (h : Sound v) (n : Nat) : Extends v (v.brelse n) :=
  Extends.of_same h rfl rfl rfl rfl rfl

/-- Entry `e` of the block at `q`, with or without allocation. -/
theorem Sound.entryOrNew (h : Sound v) {e : Nat} (hp : Counts v (q.child e)) (hq : v.zoneAt q ≠ 0)
    (hz : entryOrNew create (v.zoneAt q) e v = .ok (z, v')) :
    Extends v v' ∧ z = v'.zoneAt (q.child e) := by
  unfold Fs.entryOrNew at hz
  split at hz
  · rename_i hc
    obtain ⟨⟨y, v1⟩, hnew, hgo⟩ := bind_eq_ok hz
    have hh := Extends.hold h (v.zoneAt q)
    obtain ⟨hx, hin, hlt, hready, hsame⟩ := hh.sound.newBlock hnew
    have hq1 : v1.zoneAt q = v.zoneAt q :=
      hsame q (counts_parent q e hp)
    have hempty : v1.zoneAt (q.child e) = 0 := by
      rw [hsame _ hp]
      exact (zoneAt_child hq).trans hc.2
    have hx1 := hh.trans hx
    simp only at hgo
    rw [← hq1] at hgo
    split at hgo
    · rename_i hy
      cases hgo
      have hp1 := (counts_congr hx1.mode _).mpr hp
      have hs := slotSet_setEntry v1 q e z hlt
      rw [← hq1] at hq
      have hx2 := hs.extends hx1.sound (hready hy) hp1 hq hempty
      refine ⟨(hx1.trans hx2).trans (Extends.brelse hx2.sound _), ?_⟩
      exact ((hs.zoneAt hx1.sound (hready hy) hp1 hq hempty _ hp1).1 rfl).symm
    · rename_i hy
      cases hgo
      exact ⟨hx1.trans (Extends.brelse hx1.sound _), hempty.symm⟩
  · cases hz
    exact ⟨Extends.refl h, (zoneAt_child hq).symm⟩

-- ======== _bmap

theorem counts_blockPath (hf : v.IsFile ino)
    (hb : block < maxBlocks) : Counts v (blockPath ino block) := by
  unfold maxBlocks at hb
  unfold blockPath
  split
  · exact ⟨hf, by omega⟩
  · split
    · exact ⟨hf, .inl rfl, by omega⟩
    · exact ⟨hf, rfl, by omega, by omega⟩

theorem leaf_blockPath : Leaf (blockPath ino block) := by
  unfold blockPath
  split
  · rename_i h
    exact h
  · split
    · exact rfl
    · exact trivial

theorem base_blockPath : (blockPath ino block).base.1 = ino := by
  unfold blockPath
  split
  · rfl
  · split <;> rfl

/-- `_bmap` along a path: the slot at its end, allocated when it is asked for
and not there. -/
def pathOrNew (create : Bool) : ZPath → Vol → Except Panic (Nat × Vol)
  | .root (ino, k), v => Fs.zoneOrNew create ino k v
  | .child q e, v => do
    let (t, v) ← pathOrNew create q v
    if t = 0 then .ok (0, v) else Fs.entryOrNew create t e v

theorem innerBmap_eq (hb : block < maxBlocks) :
    innerBmap create ino block v = pathOrNew create (blockPath ino block) v := by
  unfold Fs.innerBmap blockPath
  rw [if_neg (Nat.not_le.mpr hb)]
  split
  · rfl
  split
  · rfl
  simp only [pathOrNew]
  cases Fs.zoneOrNew create ino 8 v with
  | error e => rfl
  | ok a =>
    by_cases h0 : a.1 = 0
    · simp [h0, bind, Except.bind]
    · simp [h0, bind, Except.bind]

theorem Sound.pathOrNew {p : ZPath} (h : Sound v) (hp : Counts v p)
    (hz : pathOrNew create p v = .ok (z, v')) : Extends v v' ∧ z = v'.zoneAt p := by
  induction p generalizing z v' with
  | root x => exact h.zoneOrNew hp hz
  | child q e ih =>
    obtain ⟨⟨t, v1⟩, ht, hgo⟩ := bind_eq_ok hz
    obtain ⟨hx, rfl⟩ := ih (counts_parent q e hp) ht
    simp only at hgo
    split at hgo
    · rename_i h0
      cases hgo
      exact ⟨hx, (zoneAt_child_zero _ h0).symm⟩
    · rename_i h0
      obtain ⟨hx', hz'⟩ := hx.sound.entryOrNew ((counts_congr hx.mode _).mpr hp) h0 hgo
      exact ⟨hx.trans hx', hz'⟩

/-- `_bmap`: what it returns is the zone at the end of the block's path,
0 if it is not there or could not be made. -/
theorem Sound.innerBmap (h : Sound v)
    (hf : v.IsFile ino) (hb : block < maxBlocks) (hz : innerBmap create ino block v = .ok (z, v')) :
    Extends v v' ∧ z = v'.zoneAt (blockPath ino block) := by
  rw [innerBmap_eq hb] at hz
  exact h.pathOrNew (counts_blockPath hf hb) hz

-- ======== panics

theorem zoneOrNew_error (hz : zoneOrNew create ino k v = .error e) : e = .count := by
  unfold zoneOrNew at hz
  split at hz
  · rcases bind_eq_error hz with hnew | ⟨x, -, hgo⟩
    · exact newBlock_error hnew
    · cases hgo
  · cases hz

theorem entryOrNew_error (hz : entryOrNew create t i v = .error e) : e = .count := by
  unfold entryOrNew at hz
  split at hz
  · rcases bind_eq_error hz with hnew | ⟨⟨y, v1⟩, -, hgo⟩
    · exact newBlock_error hnew
    · simp only at hgo
      split at hgo
      · cases hgo
      · cases hgo
  · cases hz

/-- `_bmap`, below the limit, panics only in `new_block`, when somebody has
the buffer of a free block. -/
theorem innerBmap_error (hb : block < maxBlocks)
    (hz : innerBmap create ino block v = .error e) : e = .count := by
  rw [innerBmap_eq hb] at hz
  generalize blockPath ino block = p at hz
  induction p generalizing e with
  | root x => exact zoneOrNew_error hz
  | child q i ih =>
    rcases bind_eq_error hz with hz | ⟨⟨t, v1⟩, -, hgo⟩
    · exact ih hz
    · simp only at hgo
      split at hgo
      · cases hgo
      · exact entryOrNew_error hgo

end LearnLinux.Fs
