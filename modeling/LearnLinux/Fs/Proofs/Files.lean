/-
Regular files are sparse byte arrays.

A round of `file_write` allocates, which changes no byte of any file
(`Extends`), then stores into one data block, which is on one path only.
So a round is a write of its bytes in the sense of `WriteSpec`, and
writes that follow each other add up. A round of `file_read` reads the
block at the end of the path `_bmap` takes.
-/
import LearnLinux.Fs.Files
import LearnLinux.Fs.Proofs.Truncate

namespace LearnLinux.Fs

open Lib

variable {v v' v₁ : Vol} {c off ino pos n block : Nat} {p : ZPath} {bs : List UInt8}

-- ======== addresses

/-- The three depths of a block's path. -/
theorem blockPath_cases (i b : Nat) : (b < 7 ∧ blockPath i b = .root (i, b))
      ∨ (7 ≤ b ∧ b < 519 ∧ blockPath i b = .child (.root (i, 7)) (b - 7))
      ∨ (519 ≤ b ∧ blockPath i b = .child (.child (.root (i, 8)) ((b - 7 - 512) / 512))
        ((b - 7 - 512) % 512)) := by
  unfold blockPath
  by_cases h7 : b < 7
  · exact .inl ⟨h7, if_pos h7⟩
  rw [if_neg h7]
  by_cases h512 : b - 7 < 512
  · exact .inr (.inl ⟨by omega, by omega, if_pos h512⟩)
  · exact .inr (.inr ⟨by omega, if_neg h512⟩)

/-- Different blocks of files have different paths. -/
theorem blockPath_inj {i j b : Nat} (h : blockPath i b = blockPath j c) : i = j ∧ b = c := by
  rcases blockPath_cases i b with ⟨hb, he⟩ | ⟨hb, hb', he⟩ | ⟨hb, he⟩
    <;> rcases blockPath_cases j c with ⟨hc, he'⟩ | ⟨hc, hc', he'⟩ | ⟨hc, he'⟩ <;> rw [he, he'] at h
    <;> simp only [Path.child.injEq, Path.root.injEq, Prod.mk.injEq, reduceCtorEq, false_and] at h
  · exact h
  · exact ⟨h.1.1, by omega⟩
  · exact ⟨h.1.1.1, by omega⟩

/-- An offset below the limit is in a block that `_bmap` takes. -/
theorem block_lt (h : off < maxSize) : off / blockSize < maxBlocks := by
  unfold maxSize blockSize at h
  unfold blockSize
  omega

-- ======== the data block

/-- Contents stored into the data block at the end of `p` move no
path. -/
theorem Sound.zoneAt_setData (h : Sound v) (hp : Counts v p) (hleaf : Leaf p) (b : Block) :
    ∀ q, Counts v q → (v.setData (v.zoneAt p) b).zoneAt q = v.zoneAt q := by
  refine Path.at_congr counts_parent (fun k _ => rfl) fun q i hq hq0 => ?_
  show ((v.setData (v.zoneAt p) b).data (v.zoneAt q)).entry i = (v.data (v.zoneAt q)).entry i
  have hdata : ∀ n, (v.setData (v.zoneAt p) b).data n
      = if n = v.zoneAt p then b else v.data n := fun n => rfl
  rw [hdata, if_neg]
  -- a block of zone numbers is not a data block
  intro hqp
  have := h.consistent.once q p (counts_parent q i hq) hp hq0 hqp
  rw [this] at hq
  exact hq.not_leaf hleaf

/-- Nor do they change another data block. -/
theorem Sound.setData (h : Sound v) (hp : Counts v p)
    (hleaf : Leaf p) (h0 : v.zoneAt p ≠ 0) (b : Block) : Sound (v.setData (v.zoneAt p) b)
      ∧ ∀ q, Counts v q → ∀ off, (v.setData (v.zoneAt p) b).byteAt q off
        = if q = p then b off else v.byteAt q off := by
  have hdata : ∀ n, (v.setData (v.zoneAt p) b).data n
      = if n = v.zoneAt p then b else v.data n := fun n => rfl
  have hat := h.zoneAt_setData hp hleaf b
  refine ⟨h.congr rfl rfl (fun _ hs => hs) (fun _ ht _ => ht) fun q hq _ => ⟨hq, hat q hq⟩,
    fun q hq off => ?_⟩
  by_cases hqp : q = p
  · subst hqp
    unfold Vol.byteAt
    rw [hat q hq, hdata, if_neg h0, if_pos rfl, if_pos rfl]
  · rw [if_neg hqp]
    refine byteAt_congr (hat q hq) fun hq0 => ?_
    rw [hdata, if_neg]
    exact fun hc => hqp (h.consistent.once q p hq hp hq0 hc)

-- ======== the size

theorem growTo_inode (v : Vol) (ino pos i : Nat) :
    ((v.growTo ino pos).inode i).mode = (v.inode i).mode
      ∧ ((v.growTo ino pos).inode i).zone = (v.inode i).zone ∧ ((v.growTo ino pos).inode i).size
        = if i = ino then max (v.inode ino).size pos
          else (v.inode i).size := by
  unfold Vol.growTo
  simp only
  split
  · rename_i hc
    refine ⟨rfl, rfl, ?_⟩
    rw [if_pos hc.1, ← hc.1]
    exact (Nat.max_eq_right (Nat.le_of_lt hc.2)).symm
  · rename_i hc
    refine ⟨rfl, rfl, ?_⟩
    by_cases hi : i = ino
    · rw [if_pos hi, ← hi, Nat.max_eq_left]
      exact Nat.not_lt.mp fun hlt => hc ⟨hi, hlt⟩
    · rw [if_neg hi]

/-- The size is no part of the zone forest. -/
theorem growTo_zoneAt : (v.growTo ino pos).zoneAt p = v.zoneAt p := by
  unfold Vol.zoneAt Vol.forest
  congr 2
  funext k
  rw [(growTo_inode v ino pos k.1).2.1]

theorem Sound.growTo (h : Sound v) (ino pos : Nat) : Sound (v.growTo ino pos) := by
  have hcount := counts_congr fun i => (growTo_inode v ino pos i).1
  exact h.congr rfl rfl (fun _ hs => hs) (fun _ ht _ => ht)
    fun p hp _ => ⟨(hcount p).mp hp, growTo_zoneAt⟩

theorem growTo_byteAt : (v.growTo ino pos).byteAt p off = v.byteAt p off :=
  byteAt_congr growTo_zoneAt fun _ => rfl

-- ======== writes

/-- A write of nothing. -/
theorem WriteSpec.zero (hx : Extends v v') (ino pos : Nat)
    (bs : List UInt8) : WriteSpec v ino pos 0 bs v' := by
  refine ⟨fun i => ?_, Nat.zero_le _, fun i off hi hoff => ?_, fun i => ?_⟩
  · exact isFile_congr (hx.mode i)
  · rw [if_neg (by omega)]
    exact hx.bytes _ (counts_blockPath hi (block_lt hoff)) leaf_blockPath _
  · rw [if_neg (by omega)]
    exact hx.size i

/-- Two writes, the second where the first ended. -/
theorem WriteSpec.append (hc : 0 < c) (h : WriteSpec v ino pos c bs v₁)
    (h' : WriteSpec v₁ ino (pos + c) n (bs.drop c) v') : WriteSpec v ino pos (c + n) bs v' := by
  refine ⟨fun i => (h'.files i).trans (h.files i), ?_, ?_, ?_⟩
  · have h1 := h.le
    have h2 := h'.le
    rw [List.length_drop] at h2
    omega
  · intro i off hi hoff
    rw [h'.bytes i off ((h.files i).mpr hi) hoff, h.bytes i off hi hoff]
    by_cases hin : i = ino
    · simp only [hin, true_and]
      by_cases h1 : pos + c ≤ off ∧ off < pos + c + n
      · rw [if_pos h1, if_pos (by omega), List.getD_eq_getElem?_getD,
          List.getD_eq_getElem?_getD, List.getElem?_drop,
          show c + (off - (pos + c)) = off - pos by omega]
      · rw [if_neg h1]
        by_cases h2 : pos ≤ off ∧ off < pos + c
        · rw [if_pos h2, if_pos (by omega)]
        · rw [if_neg h2, if_neg (by omega)]
    · rw [if_neg fun hh => hin hh.1, if_neg fun hh => hin hh.1, if_neg fun hh => hin hh.1]
  · intro i
    rw [h'.size i, h.size i, h.size ino]
    by_cases hin : i = ino
    · subst hin
      have hcn : 0 < c + n := by omega
      by_cases hn : 0 < n
      · simp only [hc, hn, hcn, and_self, if_true]
        omega
      · simp only [hc, hn, hcn, and_self, and_false, if_true, if_false]
        omega
    · rw [if_neg fun hh => hin hh.1, if_neg fun hh => hin hh.1, if_neg fun hh => hin hh.1]

/-- What a block holds after a store, by offset in the file. -/
theorem put_offset {b : Block} (hlen : c ≤ bs.length) (hsame : off / blockSize = pos / blockSize) :
    b.put (pos % blockSize) (bs.take c) (off % blockSize)
      = if pos ≤ off ∧ off < pos + c then bs.getD (off - pos) 0
        else b (off % blockSize) := by
  unfold Block.put
  rw [List.length_take, Nat.min_eq_left hlen]
  unfold blockSize at *
  by_cases h : pos ≤ off ∧ off < pos + c
  · rw [if_pos h, if_pos (by omega), List.getD_eq_getElem?_getD,
      List.getD_eq_getElem?_getD, List.getElem?_take_of_lt (by omega),
      show off % 1024 - pos % 1024 = off - pos by omega]
  · rw [if_neg h, if_neg (by omega)]

/-- One round of `file_write` that found its block. -/
theorem Sound.writeRound (h : Sound v) (hfile : v.IsFile ino) (hpos : pos < maxSize)
    (hz : createBlock ino (pos / blockSize) v = .ok (block, v₁)) (hb : block ≠ 0) (hc0 : 0 < c)
    (hc : c ≤ blockSize - pos % blockSize) (hlen : c ≤ bs.length) :
    Sound ((v₁.growTo ino (pos + c)).setData block
        (((v₁.growTo ino (pos + c)).data block).put (pos % blockSize) (bs.take c)))
      ∧ WriteSpec v ino pos c bs ((v₁.growTo ino (pos + c)).setData block
        (((v₁.growTo ino (pos + c)).data block).put (pos % blockSize) (bs.take c))) := by
  have hlt := block_lt hpos
  obtain ⟨hx, rfl⟩ := h.innerBmap hfile hlt hz
  have hp := counts_blockPath hfile hlt
  have hgrow := growTo_inode v₁ ino (pos + c)
  have hat : (v₁.growTo ino (pos + c)).zoneAt (blockPath ino (pos / blockSize))
      = v₁.zoneAt (blockPath ino (pos / blockSize)) := growTo_zoneAt
  have hcount : ∀ q, Counts v q → Counts (v₁.growTo ino (pos + c)) q := by
    intro q hq
    rw [counts_congr fun i => (hgrow i).1, counts_congr hx.mode]
    exact hq
  obtain ⟨hs, hbytes⟩ := (hx.sound.growTo ino (pos + c)).setData
    (hcount _ hp) leaf_blockPath (by rw [hat]; exact hb)
    (((v₁.growTo ino (pos + c)).data (v₁.zoneAt
      (blockPath ino (pos / blockSize)))).put (pos % blockSize) (bs.take c))
  rw [hat] at hs hbytes
  refine ⟨hs, ⟨fun i => ?_, hlen, fun i off hi hoff => ?_, fun i => ?_⟩⟩
  · unfold Vol.IsFile
    show ((v₁.growTo ino (pos + c)).inode i).mode ≠ .other ↔ _
    rw [(hgrow i).1, hx.mode i]
  · have hq := counts_blockPath hi (block_lt hoff)
    have hold := hx.bytes _ hq leaf_blockPath (off % blockSize)
    unfold Vol.fileByte
    rw [hbytes _ (hcount _ hq), growTo_byteAt, hold]
    by_cases hsame : i = ino ∧ off / blockSize = pos / blockSize
    · obtain ⟨rfl, hblk⟩ := hsame
      rw [if_pos (by rw [hblk]), put_offset hlen hblk]
      simp only [true_and]
      by_cases hin : pos ≤ off ∧ off < pos + c
      · rw [if_pos hin, if_pos hin]
      · rw [if_neg hin, if_neg hin, ← hold, hblk]
        unfold Vol.byteAt
        rw [if_neg hb]
        rfl
    · rw [if_neg fun he => hsame (blockPath_inj he), if_neg]
      rintro ⟨rfl, h1, h2⟩
      refine hsame ⟨rfl, ?_⟩
      unfold blockSize at hc ⊢
      omega
  · show ((v₁.growTo ino (pos + c)).inode i).size = _
    rw [(hgrow i).2.2, hx.size, hx.size]
    by_cases hi : i = ino
    · rw [if_pos hi, if_pos ⟨hi, hc0⟩]
    · rw [if_neg hi, if_neg fun hh => hi hh.1]

/-- The loop of `file_write`. -/
theorem Sound.writeLoop : ∀ {n pos : Nat} {bs : List UInt8} {v : Vol} {i : Nat}, Sound v →
      v.IsFile ino → pos + bs.length ≤ maxSize → writeLoop ino n pos bs v = .ok (i, v') →
      Sound v' ∧ WriteSpec v ino pos i bs v' := by
  intro n
  induction n with
  | zero =>
    intro pos bs v i h _ _ hw
    cases hw
    exact ⟨h, WriteSpec.zero (Extends.refl h) ino pos bs⟩
  | succ n ih =>
    intro pos bs v i h hfile hlim hw
    unfold Fs.writeLoop at hw
    split at hw
    · cases hw
      exact ⟨h, WriteSpec.zero (Extends.refl h) ino pos bs⟩
    · rename_i hne
      have hlen : 0 < bs.length := List.length_pos_iff.mpr hne
      have hpos : pos < maxSize := by omega
      obtain ⟨⟨block, v₁⟩, hz, hgo⟩ := bind_eq_ok hw
      simp only at hgo
      split at hgo
      · cases hgo
        have hx := (h.innerBmap hfile (block_lt hpos) hz).1
        exact ⟨hx.sound, WriteSpec.zero hx ino pos bs⟩
      · rename_i hb
        have hmod : pos % blockSize < blockSize :=
          Nat.mod_lt _ (by unfold blockSize; omega)
        obtain ⟨c, hc⟩ : ∃ c, c = min (blockSize - pos % blockSize) bs.length := ⟨_, rfl⟩
        rw [← hc] at hgo
        obtain ⟨hs, hspec⟩ := h.writeRound hfile hpos hz hb
          (by omega) (by omega) (by omega : c ≤ bs.length)
        obtain ⟨⟨j, v2⟩, hrest, hend⟩ := bind_eq_ok hgo
        cases hend
        obtain ⟨hs', hspec'⟩ := ih hs ((hspec.files ino).mpr hfile)
          (by rw [List.length_drop]; omega) hrest
        exact ⟨hs', hspec.append (by omega) hspec'⟩

/-- `file_write`: a write, and the file pointer behind it. -/
theorem Sound.fileWrite (h : Sound v) {filp filp' : Filp}
    (hfile : v.IsFile ino) (hlim : writePos ino filp v + bs.length ≤ maxSize)
    (hw : fileWrite ino filp bs v = .ok (n, filp', v')) :
    Sound v' ∧ WriteSpec v ino (writePos ino filp v) n bs v' := by
  obtain ⟨⟨i, v₁⟩, hl, hgo⟩ := bind_eq_ok hw
  cases hgo
  exact Sound.writeLoop h hfile hlim hl

-- ======== reads

theorem pathOrNew_false : pathOrNew false p v = .ok (v.zoneAt p, v) := by
  induction p with
  | root x => rfl
  | child q e ih =>
    rw [pathOrNew, bind_of_ok ih]
    by_cases h0 : v.zoneAt q = 0
    · rw [zoneAt_child_zero _ h0]
      exact if_pos h0
    · rw [zoneAt_child h0]
      exact if_neg h0

/-- `bmap`, which allocates nothing: the zone at the end of the path. -/
theorem bmap_eq (hb : block < maxBlocks) :
    bmap ino block v = .ok (v.zoneAt (blockPath ino block), v) := by
  rw [bmap, innerBmap_eq hb, pathOrNew_false]

/-- The loop of `file_read`: the bytes of the range, in order. -/
theorem readLoop_eq : ∀ {n pos left : Nat}, left ≤ n → pos + left ≤ maxSize →
      readLoop ino v n pos left = .ok ((List.range left).map fun k =>
        v.fileByte ino (pos + k)) := by
  intro n
  induction n with
  | zero =>
    intro pos left hn _
    obtain rfl : left = 0 := by omega
    rfl
  | succ n ih =>
    intro pos left hn hlim
    unfold readLoop
    by_cases h0 : left = 0
    · rw [if_pos h0, h0]
      rfl
    have hpos : pos < maxSize := by omega
    have hmod : pos % blockSize < blockSize :=
      Nat.mod_lt _ (by unfold blockSize; omega)
    rw [if_neg h0, bind_of_ok (bmap_eq (block_lt hpos))]
    simp only
    obtain ⟨c, hc⟩ : ∃ c, c = min (blockSize - pos % blockSize) left :=
      ⟨_, rfl⟩
    rw [← hc, bind_of_ok (ih (by omega) (by omega))]
    congr 1
    rw [show left = c + (left - c) by omega, List.range_add, List.map_append,
      show c + (left - c) - c = left - c by omega, List.map_map]
    congr 1
    · -- the bytes of one block
      refine List.map_congr_left fun k hk => ?_
      rw [List.mem_range] at hk
      have hdiv : (pos + k) / blockSize = pos / blockSize := by
        unfold blockSize at *
        omega
      have hoff : (pos + k) % blockSize = pos % blockSize + k := by
        unfold blockSize at *
        omega
      unfold Vol.fileByte Vol.byteAt
      rw [hdiv, hoff]
    · refine List.map_congr_left fun k _ => ?_
      rw [Function.comp_apply, Nat.add_assoc]

/-- The cut at the end of the file. -/
theorem clipCount_eq {count size : Nat} (hc : count < 2 ^ 31)
    (hp : pos < maxSize) (hs : size < 2 ^ 32) :
    clipCount count pos size = min count (size - pos) := by
  unfold maxSize maxBlocks blockSize at hp
  unfold clipCount
  split
  · split <;> omega
  · omega

variable {ino : Nat}

/-- `sys_read` of a file returns the bytes of the array, up to its
end. -/
theorem FilesOk.sysRead (h : FilesOk v) {count : Nat} {filp : Filp}
    (hr : (FileOp.read ino filp count).ready v) :
    sysRead ino filp count v = .ok ((List.range (min count
        ((v.inode ino).size - filp.pos))).map fun k =>
          v.fileByte ino (filp.pos + k), ⟨filp.append, filp.pos
            + min count ((v.inode ino).size - filp.pos)⟩) := by
  obtain ⟨-, hcount, hpos, hlim⟩ := hr
  unfold Fs.sysRead
  rw [clipCount_eq hcount hpos (h.long ino)]
  simp only
  by_cases h0 : min count ((v.inode ino).size - filp.pos) = 0
  · rw [if_pos h0, h0]
    rfl
  · rw [if_neg h0]
    unfold fileRead
    rw [bind_of_ok (readLoop_eq (Nat.le_refl _) hlim)]
    simp only [List.length_map, List.length_range]

-- ======== runs

/-- No byte of a file has changed, nor any size: nothing that is asked
of files has. -/
theorem FilesOk.extends (h : FilesOk v) (hz : ZeroPastEnd v)
    (hx : Extends v v') : FilesOk v' ∧ ZeroPastEnd v' := by
  refine ⟨⟨hx.sound, fun ino => ?_⟩, fun ino off hf hsize hoff => ?_⟩
  · rw [hx.size ino]
    exact h.long ino
  · rw [hx.size ino] at hsize
    rw [isFile_congr (hx.mode ino)] at hf
    unfold Vol.fileByte
    rw [hx.bytes _ (counts_blockPath hf (block_lt hoff)) leaf_blockPath]
    exact hz ino off hf hsize hoff

theorem isFile_of_reg (h : (v.inode ino).mode = .reg) : v.IsFile ino := by
  unfold Vol.IsFile
  rw [h]
  exact nofun

/-- A write leaves zeros past the new end. -/
theorem FilesOk.write (h : FilesOk v) (hz : ZeroPastEnd v) {pos n : Nat}
    {bs : List UInt8} (hlim : pos + bs.length ≤ maxSize) (hs : Sound v')
    (hw : WriteSpec v ino pos n bs v') : FilesOk v' ∧ ZeroPastEnd v' := by
  have hn := hw.le
  refine ⟨⟨hs, fun i => ?_⟩, fun i off hf hsize hoff => ?_⟩
  · rw [hw.size i]
    have h1 := h.long ino
    have h2 := h.long i
    unfold maxSize maxBlocks blockSize at hlim
    split <;> omega
  · rw [hw.files i] at hf
    rw [hw.size i] at hsize
    rw [hw.bytes i off hf hoff]
    by_cases hi : i = ino ∧ 0 < n
    · rw [if_pos hi] at hsize
      rw [if_neg (by omega)]
      exact hz i off hf (by rw [hi.1]; omega) hoff
    · rw [if_neg hi] at hsize
      rw [if_neg (by omega)]
      exact hz i off hf hsize hoff

theorem FilesOk.step (h : FilesOk v) (hz : ZeroPastEnd v) {o : FileOp}
    (hr : o.ready v) (hs : o.step v = some v') : FilesOk v' ∧ ZeroPastEnd v' := by
  have hok := ok_of_toOption hs
  cases o with
  | write ino filp bs =>
    obtain ⟨⟨n, filp', v₁⟩, hw, hgo⟩ := bind_eq_ok hok
    cases hgo
    obtain ⟨hs', hspec⟩ := h.sound.fileWrite (isFile_of_reg hr.1) hr.2 hw
    exact h.write hz hr.2 hs' hspec
  | read ino filp count =>
    obtain ⟨x, -, hgo⟩ := bind_eq_ok hok
    cases hgo
    exact ⟨h, hz⟩
  | writeBack n | setHeld n c =>
    cases hok
    refine h.extends hz ?_
    exact Extends.of_same h.sound rfl rfl rfl rfl rfl

/-- Regular files are sparse byte arrays, in every state a run of reads
and writes reaches: a write of which `n` bytes were taken changes those
bytes of that file and its size, and nothing else; bytes it exposes
between the old end and its start are 0; and a read returns the bytes of
the array up to its end. -/
theorem files_are_sparse_arrays {v₀ : Vol} {ops : List FileOp}
    (h₀ : FilesOk v₀) (hz₀ : ZeroPastEnd v₀) (hready : Meets FileOp.step FileOp.ready ops v₀)
    (hrun : runOps FileOp.step ops v₀ = some v) :
    (∀ ino filp bs n filp' v', (FileOp.write ino filp bs).ready v →
      fileWrite ino filp bs v = .ok (n, filp', v') → WriteSpec v ino (writePos ino filp v) n bs v'
        ∧ ∀ off, (v.inode ino).size ≤ off → off < writePos ino filp v → v'.fileByte ino off = 0)
    ∧ ∀ ino filp count, (FileOp.read ino filp count).ready v →
      ∃ filp', sysRead ino filp count v = .ok ((List.range (min count
        ((v.inode ino).size - filp.pos))).map (fun k =>
          v.fileByte ino (filp.pos + k)), filp') := by
  have hinv : FilesOk v ∧ ZeroPastEnd v :=
    runOps_invariant (I := fun v => FilesOk v ∧ ZeroPastEnd v)
      (fun _ _ _ h hr hs => h.1.step h.2 hr hs) hready hrun ⟨h₀, hz₀⟩
  obtain ⟨h, hz⟩ := hinv
  refine ⟨fun ino filp bs n filp' v' hr hw => ?_, fun ino filp count hr => ⟨_, h.sysRead hr⟩⟩
  have hfile := isFile_of_reg hr.1
  obtain ⟨-, hspec⟩ := h.sound.fileWrite hfile hr.2 hw
  refine ⟨hspec, fun off hsize hoff => ?_⟩
  have hmax : off < maxSize := by
    have := hr.2
    omega
  rw [hspec.bytes ino off hfile hmax, if_neg (by omega)]
  exact hz ino off hfile hsize hmax

theorem filesOk_emptyVol : FilesOk emptyVol ∧ ZeroPastEnd emptyVol := by
  refine ⟨⟨sound_emptyVol, fun _ => Nat.two_pow_pos 32⟩, fun ino off _ _ _ => ?_⟩
  exact if_pos emptyVol_zoneAt

/-- Two bytes written at 5, then seven read from 0. -/
theorem files_are_sparse_arrays_hole : ∃ v,
    runOps FileOp.step [.write 1 ⟨false, 5⟩ [3, 4]] emptyVol = some v
      ∧ ∃ filp', sysRead 1 ⟨false, 0⟩ 7 v
        = .ok ((List.range 7).map (fun k => v.fileByte 1 (0 + k)), filp') := by
  refine exists_run (fun v => (v.inode 1).size = 7 ∧ (v.inode 1).mode = .reg) (by decide +kernel)
    fun v hv hx => ?_
  obtain ⟨hsize, hmode⟩ := hx
  have hready : Meets FileOp.step FileOp.ready [.write 1 ⟨false, 5⟩ [3, 4]]
      emptyVol := ⟨⟨rfl, by decide⟩, fun _ _ => trivial⟩
  obtain ⟨-, hread⟩ := files_are_sparse_arrays filesOk_emptyVol.1 filesOk_emptyVol.2 hready hv
  obtain ⟨filp', hr⟩ := hread 1 ⟨false, 0⟩ 7 ⟨isFile_of_reg hmode,
    by decide, by decide, by rw [hsize]; decide⟩
  rw [hsize] at hr
  exact ⟨filp', hr⟩

-- ======== stale tails

/-- A file of one byte in a block that is all 7s. -/
def staleVol : Vol :=
  { emptyVol with
    zmap := fun i => if i = 0 then some fun j => j ≤ 1 ∨ 11 ≤ j else none
    inode := fun i => ⟨if i = 1 then .reg else .other, if i = 1 then 1 else 0,
      fun k => if i = 1 ∧ k = 0 then 10 else 0⟩
    data := fun n => if n = 10 then fun _ => 7 else Block.zero }

/-- Its one zone. -/
theorem staleVol_zoneAt {p : ZPath} (hp : Counts staleVol p)
    (h0 : staleVol.zoneAt p ≠ 0) : p = .root (1, 0) := by
  induction p with
  | root k =>
    obtain ⟨i, k⟩ := k
    have h : (if i = 1 ∧ k = 0 then 10 else 0) ≠ 0 := h0
    split at h
    · rename_i hik
      rw [hik.1, hik.2]
    · exact absurd rfl h
  | child q j ih =>
    have hq := ih (counts_parent q j hp) (Path.at_of_child h0)
    subst hq
    have := hp.2.1
    omega

theorem filesOk_staleVol : FilesOk staleVol := by
  refine ⟨⟨⟨by decide, by decide, fun t _ hsome hge => ?_⟩, ⟨?_, ?_⟩⟩, fun ino => ?_⟩
  · have hdiv : t / 8192 = 0 := by
      by_contra hne
      simp [staleVol, hne] at hsome
    have hge' : 20 ≤ t + 10 - 1 := hge
    unfold Vol.bit staleVol
    simp only [hdiv, if_true]
    exact decide_eq_true (.inr (by omega))
  · intro p hp h0
    rw [staleVol_zoneAt hp h0]
    exact ⟨by decide, by decide, rfl⟩
  · intro p q hp hq h0 hpq
    rw [staleVol_zoneAt hp h0, staleVol_zoneAt hq (by rw [← hpq]; exact h0)]
  · show (if ino = 1 then 1 else 0) < 2 ^ 32
    split <;> omega

/-- On a file system that is consistent and no more, a write past the
end exposes what the last block held. -/
theorem write_exposes_stale : ¬ ∀ (v : Vol) (ino : Nat) (filp : Filp)
    (bs : List UInt8) (n : Nat) (filp' : Filp) (v' : Vol), FilesOk v →
      (FileOp.write ino filp bs).ready v → fileWrite ino filp bs v = .ok (n, filp', v') →
      ∀ off, (v.inode ino).size ≤ off → off < writePos ino filp v → v'.fileByte ino off = 0 := by
  intro hall
  have hsome : ((fileWrite 1 ⟨false, 10⟩ [9] staleVol).toOption.map fun x =>
    x.2.2.fileByte 1 5) = some 7 := by decide +kernel
  obtain ⟨⟨n, filp', v'⟩, hw, h7⟩ := Option.map_eq_some_iff.mp hsome
  have h0 := hall staleVol 1 ⟨false, 10⟩ [9] n filp' v' filesOk_staleVol
    ⟨rfl, by decide⟩ (ok_of_toOption hw) 5 (by decide) (by decide)
  simp only at h7
  rw [h0] at h7
  exact absurd h7 (by decide)

-- ======== positions

theorem writeLoop_below : ∀ {n pos : Nat} {bs : List UInt8} {v : Vol},
    pos + bs.length ≤ maxSize →
    writeLoop ino n pos bs v ≠ .error .tooBig ∧
      ∀ i v', writeLoop ino n pos bs v = .ok (i, v') → i ≤ bs.length := by
  intro n
  induction n with
  | zero =>
    intro pos bs v _
    refine ⟨nofun, fun i v' h => ?_⟩
    cases h
    exact Nat.zero_le _
  | succ n ih =>
    intro pos bs v hlim
    unfold writeLoop
    split
    · refine ⟨nofun, fun i v' h => ?_⟩
      cases h
      exact Nat.zero_le _
    rename_i hbs
    have hlen := List.length_pos_iff.mpr hbs
    generalize hc : min (blockSize - pos % blockSize) bs.length = c
    have hrest : (bs.drop c).length = bs.length - c := List.length_drop
    constructor
    · intro h
      rcases bind_eq_error h with h | ⟨⟨block, v₁⟩, -, h⟩
      · cases innerBmap_error (block_lt (by omega)) h
      · simp only at h
        split at h
        · cases h
        · rcases bind_eq_error h with h | ⟨⟨i, v2⟩, -, h⟩
          · exact (ih (by omega)).1 h
          · cases h
    · intro i v' h
      obtain ⟨⟨block, v₁⟩, -, h⟩ := bind_eq_ok h
      simp only at h
      split at h
      · cases h
        exact Nat.zero_le _
      · obtain ⟨⟨j, v2⟩, hj, h⟩ := bind_eq_ok h
        cases h
        have := (ih (by omega)).2 j _ hj
        omega

theorem sysLseek_pos (size : Nat) (hp : filp.pos < 2 ^ 31) (offset : Int32) (origin : Nat) :
    (sysLseek size filp offset origin).2.pos < 2 ^ 31 := by
  have hseek : ∀ tmp : Int, tmp < 2 ^ 31 → (if tmp < 0 then ((-22 : Int), filp)
      else (tmp, { filp with pos := tmp.toNat })).2.pos < 2 ^ 31 := by
    intro tmp htmp
    split
    · exact hp
    · show tmp.toNat < 2 ^ 31
      omega
  have hmod : ∀ x : Int, Int.bmod x (2 ^ 32) < 2 ^ 31 := fun x => by
    have := Int.bmod_lt (x := x) (m := 2 ^ 32) (by decide)
    omega
  match origin with
  | 0 => exact hseek _ offset.toInt_lt
  | 1 => exact hseek _ (hmod _)
  | 2 => exact hseek _ (hmod _)
  | _ + 3 => exact hp

/-- A call on bytes below the limit does not panic there, and leaves a
position that is not negative. -/
theorem SeekOp.exec_below {o : SeekOp} (hp : filp.pos < 2 ^ 31) (hb : o.Below ino (filp, v)) :
    o.exec ino (filp, v) ≠ .error .tooBig ∧
      ∀ s', o.exec ino (filp, v) = .ok s' → s'.1.pos < 2 ^ 31 := by
  have hmax : maxSize < 2 ^ 31 := by decide
  cases o with
  | lseek offset origin =>
    refine ⟨nofun, fun s' h => ?_⟩
    cases h
    exact sysLseek_pos _ hp offset origin
  | read count =>
    have hlim : filp.pos + clipCount count.toInt.toNat filp.pos (v.inode ino).size ≤ maxSize := hb
    have hread : ∃ bs filp', sysRead ino filp count.toInt.toNat v = .ok (bs, filp') ∧
        filp'.pos < 2 ^ 31 := by
      unfold sysRead
      simp only
      split
      · exact ⟨[], filp, rfl, hp⟩
      · refine ⟨_, _, bind_of_ok (readLoop_eq (Nat.le_refl _) hlim), ?_⟩
        simp only [List.length_map, List.length_range]
        omega
    obtain ⟨bs, filp', hr, hpos⟩ := hread
    unfold SeekOp.exec
    simp only [hr]
    refine ⟨nofun, fun s' h => ?_⟩
    cases h
    exact hpos
  | write bs =>
    have hlim : writePos ino filp v + bs.length ≤ maxSize := hb
    obtain ⟨hne, hle⟩ := writeLoop_below hlim
    constructor
    · intro h
      rcases bind_eq_error h with h | ⟨_, -, h⟩
      · rcases bind_eq_error h with h | ⟨_, -, h⟩
        · exact hne h
        · cases h
      · cases h
    · intro s' h
      obtain ⟨_, hw, h⟩ := bind_eq_ok h
      obtain ⟨⟨i, v₁⟩, hl, hw⟩ := bind_eq_ok hw
      cases hw
      cases h
      have := hle i v₁ hl
      split
      · exact hp
      · show writePos ino filp v + i < 2 ^ 31
        omega

/-- In a run of calls on bytes below the limit the position stays
non-negative, and no call reaches the panics of `_bmap`. -/
theorem positions_below {append : Bool} {os₁ os₂ : List SeekOp} {o : SeekOp} {s : Filp × Vol}
    (hm : Meets (SeekOp.step ino) (SeekOp.Below ino) (os₁ ++ o :: os₂) (⟨append, 0⟩, v))
    (hrun : runOps (SeekOp.step ino) os₁ (⟨append, 0⟩, v) = some s) :
    s.1.pos < 2 ^ 31 ∧ o.exec ino s ≠ .error .tooBig := by
  have hs : s.1.pos < 2 ^ 31 := runOps_invariant
    (fun o s s' hs hg h => (SeekOp.exec_below hs hg).2 s' (ok_of_toOption h))
    hm.of_append hrun (by decide : (0 : Nat) < 2 ^ 31)
  exact ⟨hs, (SeekOp.exec_below hs (hm.next hrun)).1⟩

theorem positions_below_hole : ∃ s, runOps (SeekOp.step 1) [.lseek 5 0] (⟨false, 0⟩, emptyVol)
      = some s ∧ s.1.pos < 2 ^ 31 ∧ (SeekOp.write [1]).exec 1 s ≠ .error .tooBig := by
  have hm : Meets (SeekOp.step 1) (SeekOp.Below 1) ([.lseek 5 0] ++ .write [1] :: [])
      (⟨false, 0⟩, emptyVol) := by
    refine ⟨trivial, fun s h => ?_⟩
    cases h
    exact ⟨(by decide : 5 + 1 ≤ maxSize), fun _ _ => trivial⟩
  exact ⟨(⟨false, 5⟩, emptyVol), rfl, positions_below hm rfl⟩

/-- The largest position there is, and a write of one byte. -/
theorem far_write_panics : ∃ s, runOps (SeekOp.step 1) [.lseek 2147483647 0]
      (⟨false, 0⟩, emptyVol) = some s ∧ (SeekOp.write [0]).exec 1 s = .error .tooBig :=
  ⟨(⟨false, 2147483647⟩, emptyVol), rfl, rfl⟩

end LearnLinux.Fs
