/-
What the routines on buffers and inodes hold, from their first line to
their last (`Fs/Machine.lean`).

A routine that only calls others is gone through with the rules of `Runs`.
Where the references depend on what a state says (a count that is tested,
an inode that the table does not have), the routine is opened in a state.
-/
import LearnLinux.Fs.Proofs.Buffer
import LearnLinux.Fs.Proofs.View

namespace LearnLinux.Kernel

open LearnLinux.Lib
open LearnLinux.InodeTable (Slot NR_SUPER ROOT_INO)
open Logic.Runs

variable {n : Nat} {α : Type} {L : Logic n} {h : Holdings n} {fuel : Nat} {R : α → Holdings n}
variable {dev nr : UInt16} {block : UInt32} {s : Machine n}
variable {g : UInt16 → UInt32 → K n (Option (Fin n))} {c : Buffer.Cache n} {b : Fin n} {j e : Slot}
variable {f : Int → K n Unit}

-- ======== buffers

/-- The stops that are allowed in any state. -/
def Halt.plain : Halt → Bool
  | .restarts | .panic .writeInodeDev => false
  | _ => true

theorem Logic.Io.allows (io : L.Io) {e : Halt} {v : View n} (he : e.plain = true) : L.err e v := by
  apply io.err
  · rintro rfl
    contradiction
  · rintro rfl
    contradiction

theorem Logic.Io.fails (io : L.Io) {e : Halt} (he : e.plain = true) :
    L.Runs h (throw e : K n α) R :=
  stop fun _ _ => io.allows he

theorem waitOnBuffer_runs : L.Runs h (waitOnBuffer b) fun _ => h := by
  intro s hs
  unfold waitOnBuffer
  simp only [wp_bind, wp_get]
  split
  · have hv : (s.setHead b fun h' =>
      { h' with lock := false, uptodate := s.io s.ticks }).view = s.view :=
      view_setHead s b fun _ => rfl
    rw [wp_set]
    change L.inv h (s.setHead b fun h' =>
      { h' with lock := false, uptodate := s.io s.ticks }).view
    rw [hv]
    exact hs
  · exact hs

theorem view_transfer (write : Bool) : (s.transfer write b).view = s.view := by
  have hv : (s.setHead b fun h' =>
    { h' with dirt := false, uptodate := s.io s.ticks }).view = s.view :=
    view_setHead s b fun _ => rfl
  exact hv

theorem llRwBlock_runs {write : Bool} : L.Runs h (llRwBlock write b) fun _ => h := by
  apply look
  intro s
  refine both (seq waitOnBuffer_runs ?_) (ret rfl)
  intro s hs
  simp only [wp_bind, wp_get]
  generalize (if write then (s.head b).dirt else !(s.head b).uptodate) = c
  cases c with
  | false => exact hs
  | true =>
    change L.inv h (s.transfer write b).view
    rw [view_transfer]
    exact hs

/-- `find_buffer` changes nothing. -/
theorem findBuffer_wp (io : L.Io) : L.Wp (findBuffer dev block) (fun _ s' => s' = s) s := by
  unfold findBuffer
  simp only [wp_bind, wp_get]
  cases Buffer.findBuffer s.cache dev block with
  | ok r => rfl
  | error p => exact io.allows rfl

theorem findBuffer_runs (io : L.Io) : L.Runs h (findBuffer dev block) fun _ => h := by
  intro s hs
  refine (findBuffer_wp io).imp fun r s' hs' => ?_
  rw [hs']
  exact hs

/-- What a routine has when it returns a buffer, or none. -/
def withBuf (h : Holdings n) : Option (Fin n) → Holdings n
  | none => h
  | some b => .buf b ::ₘ h

theorem getHashTable_runs (io : L.Io) : L.Runs h (getHashTable dev block) (withBuf h) := by
  refine orNone (findBuffer_runs io) (ret rfl) fun b => ?_
  refine seq (change fun s hs => ?_) (seq waitOnBuffer_runs (ret rfl))
  rw [view_inc]
  exact io.getBuf hs

theorem scan_runs (io : L.Io) : L.Runs h (scan (n := n)) fun _ => h := by
  apply look
  intro s
  cases Buffer.scan s.cache with
  | ok r => exact ret rfl
  | error p => exact io.fails rfl

theorem brelse_runs (io : L.Io) (bh : Option (Fin n)) :
    L.Runs (withBuf h bh) (brelse bh) fun _ => h := by
  cases bh with
  | none => exact ret rfl
  | some b =>
    apply seq waitOnBuffer_runs
    intro s hs
    simp only [wp_bind, wp_get]
    split
    · exact io.allows rfl
    · rename_i hc
      rw [wp_set, view_dec]
      exact io.putBuf hs hc

/-- `brelse` of a buffer that is held. -/
theorem release_runs (io : L.Io) : L.Runs (.buf b ::ₘ h) (brelse (some b)) fun _ => h :=
  brelse_runs io (some b)

theorem syncBuffers_runs (dev : UInt16) : L.Runs h (syncBuffers (n := n) dev) fun _ => h := by
  apply each
  intro b
  apply look
  intro s
  refine both (seq waitOnBuffer_runs ?_) (ret rfl)
  apply look
  intro s
  exact both llRwBlock_runs (ret rfl)

/-- A `getblk` that returns a buffer, with a reference to it. -/
def Getblk (L : Logic n) (g : UInt16 → UInt32 → K n (Fin n)) : Prop :=
  ∀ h dev block, L.Runs h (g dev block) fun b => .buf b ::ₘ h

/-- A `bread` that returns a buffer with a reference, or none. -/
def Bread (L : Logic n) (g : UInt16 → UInt32 → K n (Option (Fin n))) :
    Prop :=
  ∀ h dev block, L.Runs h (g dev block) (withBuf h)

theorem breadBy_runs (io : L.Io) {g : UInt16 → UInt32 → K n (Fin n)}
    (hg : Getblk L g) : Bread L (breadBy g) := by
  intro h dev block
  apply andThen (hg h dev block)
  intro b
  apply look
  intro s
  refine both (ret rfl) (seq llRwBlock_runs ?_)
  apply seq waitOnBuffer_runs
  apply look
  intro s
  exact both (ret rfl) (last (release_runs io))

-- ======== write_inode

theorem getSuper_runs (io : L.Io) (dev : UInt16) : L.Runs h (getSuper (n := n) dev) fun _ => h := by
  apply look
  intro s
  cases superOf s.mnt dev with
  | none => exact ret rfl
  | some i => exact both (io.fails rfl) (ret rfl)

/-- `get_super` in a state: it changes nothing. -/
theorem getSuper_wp (io : L.Io)
    {Q : Option (Fin NR_SUPER) → Machine n → Prop} (hn : superOf s.mnt dev = none → Q none s)
    (hi : ∀ i, superOf s.mnt dev = some i → Q (some i) s) : L.Wp (getSuper dev) Q s := by
  unfold getSuper
  simp only [wp_bind, wp_get]
  cases ho : superOf s.mnt dev with
  | none => exact hn ho
  | some i =>
    simp only
    split
    · exact io.allows rfl
    · exact hi i ho

theorem waitOnInode_runs (io : L.Io) (j : Slot) : L.Runs h (waitOnInode (n := n) j) fun _ => h := by
  apply look
  intro s
  exact both (io.fails rfl) (ret rfl)

theorem lockInode_runs (io : L.Io) (j : Slot) : L.Runs h (lockInode (n := n) j) fun _ => h := by
  exact seq (waitOnInode_runs io j) (same fun _ => rfl)

theorem unlockInode_runs (j : Slot) : L.Runs h (unlockInode (n := n) j) fun _ => h := by
  exact same fun _ => rfl

theorem writeInode_runs (io : L.Io) (hg : Bread L g) : L.Runs h (writeInode g j) fun _ => h := by
  apply seq (lockInode_runs io j)
  intro s hs
  simp only [wp_bind, wp_get]
  split
  · exact unlockInode_runs j s hs
  · rename_i hd
    obtain ⟨hd, hdev⟩ := not_or.mp hd
    rw [wp_bind]
    apply getSuper_wp io
    · intro hn
      exact io.writeInodeDev hs (Bool.eq_true_of_not_eq_false hd) hdev hn
    · intro i _
      simp only
      refine andThen (hg h _ _) (fun r => ?_) s hs
      cases r with
      | none => exact io.fails rfl
      | some b =>
        refine seq (same fun _ => rfl) (seq (same fun s => view_setHead s b fun _ => rfl) ?_)
        refine seq (change fun s hs => ?_) (seq (release_runs io) (unlockInode_runs j))
        exact io.clean hs

theorem syncInodes_runs (io : L.Io) (hg : Bread L g) : L.Runs h (syncInodes g) fun _ => h := by
  apply each
  intro j
  apply seq (waitOnInode_runs io j)
  apply look
  intro s
  exact both (writeInode_runs io hg) (ret rfl)

theorem syncDevBy_runs (io : L.Io) (hg : Bread L g) : L.Runs h (syncDevBy g dev) fun _ => h := by
  exact seq (syncBuffers_runs dev) (seq (syncInodes_runs io hg) (syncBuffers_runs dev))

-- ======== getblk

/-- A buffer that was free when it was chosen, and is clean now, is free
still. -/
theorem cleaned_wp (io : L.Io) {sync : UInt16 → K n Unit}
    (hsync : ∀ dev, L.Runs h (sync dev) fun _ => h) :
    ∀ (f : Nat) {s : Machine n}, L.inv h s.view → s.view.cnt b = 0 →
      L.Wp (cleaned sync b f) (fun r s' =>
        L.inv h s'.view ∧ (r = true → s'.view.cnt b = 0)) s := by
  intro f
  induction f with
  | zero =>
    intro s _ _
    exact io.allows rfl
  | succ f ih =>
    intro s hs hc
    unfold cleaned
    simp only [wp_bind, wp_get]
    split
    · rw [wp_bind]
      refine (hsync _ s hs).imp fun _ s1 hs1 => ?_
      rw [wp_bind]
      refine (waitOnBuffer_runs s1 hs1).imp fun _ s2 hs2 => ?_
      simp only [wp_bind, wp_get]
      split
      · rename_i hc2
        exact ih hs2 hc2
      · exact ⟨hs2, fun hf => absurd hf (by decide)⟩
    · exact ⟨hs, fun _ => hc⟩

/-- The lists change, the heads do not. -/
theorem removeFromQueues_head {c' : Buffer.Cache n}
    (hr : Buffer.removeFromQueues c b = .ok c') : c'.head = c.head := by
  unfold Buffer.removeFromQueues at hr
  simp only at hr
  by_cases hf : c.prevFree b = none ∨ c.nextFree b = none
  · split at hr <;> cases hr
  · split at hr
    · injection hr with hr
      rw [← hr]
      split <;> rfl
    · injection hr with hr
      rw [← hr]
      split <;> rfl

theorem view_recycle (hc : s.view.cnt b = 0) (hr : Buffer.recycle s.cache dev block b = .ok c) :
    ({ s with cache := c }).view = s.view.setCnt b (s.view.cnt b + 1) := by
  obtain ⟨c1, h1, h2⟩ := bind_eq_ok hr
  have hh := removeFromQueues_head h1
  injection h2 with h2
  subst h2
  rw [hc]
  apply view_cache
  · rw [Buffer.insertIntoQueues_head.1]
    simp [Buffer.Cache.setHead, hh, Buffer.Cache.claim]
  · intro b' hb
    rw [Buffer.insertIntoQueues_head.1]
    simp [Buffer.Cache.setHead, hh, Buffer.Cache.claim, hb, Machine.head]

theorem recycle_wp (io : L.Io) (hs : L.inv h s.view) (hc : s.view.cnt b = 0) :
    L.Wp (recycle dev block b) (fun _ s' => L.inv (.buf b ::ₘ h) s'.view) s := by
  unfold recycle
  simp only [wp_bind, wp_get]
  cases hr : Buffer.recycle s.cache dev block b with
  | error p => exact io.allows rfl
  | ok c =>
    rw [wp_set, view_recycle hc hr]
    exact io.getBuf hs

theorem getblk_runs (io : L.Io) : ∀ f, Getblk L (getblk f) := by
  intro f
  induction f with
  | zero =>
    intro h dev block
    exact io.fails rfl
  | succ f ih =>
    intro h dev block
    apply andThen (getHashTable_runs io)
    intro r
    cases r with
    | some b => exact ret rfl
    | none =>
      refine orNone (scan_runs io) (io.fails rfl) fun b => ?_
      apply seq waitOnBuffer_runs
      intro s hs
      simp only [wp_bind, wp_get]
      split
      · rename_i hc
        rw [wp_bind]
        have hsync : ∀ dev, L.Runs h (syncDevBy (breadBy (getblk f)) dev) fun _ => h :=
          fun dev => syncDevBy_runs io (breadBy_runs io ih)
        refine (cleaned_wp io hsync f hs hc).imp fun r s1 hs1 => ?_
        cases r with
        | false => exact ih h dev block s1 hs1.1
        | true =>
          refine wp_bind.mpr ?_
          refine (findBuffer_wp io).imp fun r s2 hs2 => ?_
          cases r with
          | some _ => exact ih h dev block s2 (hs2 ▸ hs1.1)
          | none =>
            refine wp_bind.mpr (recycle_wp io (hs2 ▸ hs1.1) (hs2 ▸ hs1.2 rfl))
      · exact ih h dev block s hs

theorem bread_runs (io : L.Io) : Bread L (bread fuel) :=
  breadBy_runs io (getblk_runs io fuel)

theorem syncDev_runs (io : L.Io) (dev : UInt16) : L.Runs h (syncDev (n := n) fuel dev) fun _ => h :=
  syncDevBy_runs io (bread_runs io)

-- ======== bitmap.c

/-- The bit of a map is changed in its buffer only. -/
theorem markBit_wp {t : Nat} {c : Bool} :
    L.Wp (markBit b t c) (fun _ s' => s'.view = s.view) s := by
  unfold markBit
  simp only [wp_bind, wp_modify]
  exact view_setHead (s.setData b _) b fun _ => rfl

theorem markBit_runs {t : Nat} {c : Bool} : L.Runs h (markBit b t c) fun _ => h := by
  intro s hs
  refine markBit_wp.imp fun _ s' hs' => ?_
  rw [hs']
  exact hs

theorem clearZone_runs (io : L.Io) (i : Fin NR_SUPER) (t : Nat) :
    L.Runs h (clearZone (n := n) i t) fun _ => h := by
  apply look
  intro s
  cases (s.super i).zmap (t / 8192) with
  | none => exact io.fails rfl
  | some b => exact both markBit_runs (io.fails rfl)

theorem freeBlock_runs (io : L.Io) (dev : UInt16) (block : Int) :
    L.Runs h (freeBlock (n := n) dev block) fun _ => h := by
  refine orNone (getSuper_runs io dev) (io.fails rfl) fun i => ?_
  apply look
  intro s
  refine both (io.fails rfl) ?_
  apply andThen (getHashTable_runs io)
  intro r
  cases r with
  | none => exact clearZone_runs io i _
  | some b =>
    apply look
    intro s'
    apply both
    · refine seq (same fun s => view_setHead s b fun _ => rfl) ?_
      exact seq (release_runs io) (clearZone_runs io i _)
    · exact change fun s hs => io.busy hs

theorem newBlock_runs (io : L.Io) (dev : UInt16) :
    L.Runs h (newBlock (n := n) fuel dev) fun _ => h := by
  refine orNone (getSuper_runs io dev) (io.fails rfl) fun i => ?_
  apply look
  intro s
  cases s.freeBit (s.super i).zmap with
  | none => exact ret rfl
  | some kj =>
    simp only
    cases (s.super i).zmap kj.1 with
    | none => exact ret rfl
    | some m =>
      refine both (io.fails rfl) ?_
      apply seq markBit_runs
      refine both (ret rfl) ?_
      apply andThen (getblk_runs io fuel h dev _)
      intro b
      apply look
      intro s'
      refine both ?_ (io.fails rfl)
      refine seq (same fun _ => rfl) ?_
      refine seq (same fun s => view_setHead s b fun _ => rfl) ?_
      exact last (release_runs io)

-- ======== _bmap, truncate

theorem zoneOrNew_runs (io : L.Io) (create : Bool) (hj : .ino j ∈ h) (k : Nat) :
    L.Runs h (zoneOrNew (n := n) fuel create j k) fun _ => h := by
  apply look
  intro s
  refine both ?_ (ret rfl)
  apply andThen (newBlock_runs io _)
  intro z
  refine seq (same fun _ => rfl) (both (ret rfl) ?_)
  exact seq (change fun s hs => io.dirty hs hj) (ret rfl)

theorem entryOrNew_runs (io : L.Io) (create : Bool) (dev : UInt16) (block : UInt32) (e : Nat) :
    L.Runs h (entryOrNew (n := n) fuel create dev block e) fun _ => h := by
  refine orNone (bread_runs io h dev block) (ret rfl) fun b => ?_
  apply look
  intro s
  refine both ?_ (last (release_runs io))
  apply andThen (newBlock_runs io _)
  intro i
  refine both (last (release_runs io)) ?_
  refine seq (same fun _ => rfl) ?_
  refine seq (same fun s => view_setHead s b fun _ => rfl) ?_
  exact last (release_runs io)

theorem innerBmap_runs (io : L.Io) (create : Bool) (hj : .ino j ∈ h) (block : Nat) :
    L.Runs h (innerBmap (n := n) fuel create j block) fun _ => h := by
  refine both (io.fails rfl) (both ?_ (both ?_ ?_))
  · exact andThen (zoneOrNew_runs io create hj _) fun _ => ret rfl
  · apply andThen (zoneOrNew_runs io create hj _)
    intro z
    refine both (ret rfl) (look fun s => ?_)
    exact entryOrNew_runs io create _ _ _
  · apply andThen (zoneOrNew_runs io create hj _)
    intro z
    refine both (ret rfl) (look fun s => ?_)
    apply andThen (entryOrNew_runs io create _ _ _)
    intro i
    refine both (ret rfl) (look fun s => ?_)
    exact entryOrNew_runs io create _ _ _

theorem bmap_runs (io : L.Io) (hj : .ino j ∈ h) (block : Nat) :
    L.Runs h (bmap (n := n) fuel j block) fun _ => h :=
  innerBmap_runs io false hj block

theorem createBlock_runs (io : L.Io) (hj : .ino j ∈ h) (block : Nat) :
    L.Runs h (createBlock (n := n) fuel j block) fun _ => h :=
  innerBmap_runs io true hj block

theorem freeEntries_runs (hf : ∀ h p, L.Runs h (f p) fun _ => h) :
    L.Runs h (freeEntries f b) fun _ => h := by
  refine upTo (fun i => ?_) 512 0
  apply look
  intro s
  exact both (ret rfl) (hf _ _)

theorem freeTree_runs (io : L.Io) (hf : ∀ h p, L.Runs h (f p) fun _ => h) {block : Int} :
    L.Runs h (freeTree fuel f dev block) fun _ => h := by
  refine both (ret rfl) ?_
  refine orNone (bread_runs io h dev _) (freeBlock_runs io dev block) fun b => ?_
  apply seq (freeEntries_runs hf)
  exact seq (release_runs io) (freeBlock_runs io dev block)

theorem freeDirect_runs (io : L.Io) (j : Slot) : L.Runs h (freeDirect (n := n) j) fun _ => h := by
  refine upTo (fun i => ?_) 7 0
  apply look
  intro s
  exact both (ret rfl) (seq (freeBlock_runs io _ _) (same fun _ => rfl))

theorem truncate_runs (io : L.Io) (hj : .ino j ∈ h) :
    L.Runs h (truncate (n := n) fuel j) fun _ => h := by
  have hind : ∀ dev h p, L.Runs h (freeInd fuel dev p) fun _ => h :=
    fun dev h p => freeTree_runs io (fun _ _ => freeBlock_runs io dev _)
  apply look
  intro s
  refine both (seq (freeDirect_runs io j) ?_) (ret rfl)
  refine look fun s => seq (hind _ h _) (look fun s => ?_)
  refine seq (freeTree_runs io (hind _)) (seq (same fun _ => rfl) ?_)
  exact seq (same fun _ => rfl) (change fun s hs => io.dirty hs hj)

-- ======== iput

theorem eq_one_of_not_lt {c : UInt16} (h0 : c ≠ 0) (h1 : ¬ 1 < c) : c = 1 := by
  apply UInt16.toNat_inj.mp
  have h2 : c.toNat ≠ 0 := fun hc => h0 (UInt16.toNat_inj.mp hc)
  rw [UInt16.lt_iff_toNat_lt] at h1
  change ¬ 1 < c.toNat at h1
  change c.toNat = 1
  omega

/-- The last reference to an inode without links. -/
theorem freeInode_wp (put : L.Put) (hs : L.inv (.ino j ::ₘ h) s.view) (hc : (s.ino j).count = 1) :
    L.Wp (freeInode j) (fun _ s' => L.inv h s'.view) s := by
  unfold freeInode
  simp only [wp_bind, wp_get]
  split
  · exact put.wipe hs hc
  split
  · exact put.allows rfl
  split
  · exact put.allows rfl
  rw [wp_bind]
  apply getSuper_wp put.toIo
  · intro _
    exact put.allows rfl
  intro i _
  simp only
  split
  · exact put.allows rfl
  cases (s.super i).imap ((s.ino j).num.toNat / 8192) with
  | none => exact put.allows rfl
  | some b =>
    rw [wp_bind]
    refine markBit_wp.imp fun _ s' hs' => ?_
    rw [wp_modify, view_wipe, hs']
    exact put.wipe hs hc

/-- Reading and writing blocks leaves the counts alone. -/
theorem Logic.Io.sameBut (io : L.Io) {x : K n α}
    (hx : ∀ {L : Logic n}, L.Io → L.Runs h x R) (hs : L.inv h s.view) :
    L.Wp x (fun a s' => L.inv (R a) s'.view ∧ s.view.SameBut s'.view) s :=
  (hx io).with (hx frame_io) hs (View.SameBut.refl s.view)

theorem iputRepeat_wp (put : L.Put) : ∀ (f : Nat) {s : Machine n},
    L.inv (.ino j ::ₘ h) s.view → (s.ino j).count ≠ 0 →
      L.Wp (iputRepeat fuel j f) (fun _ s' => L.inv h s'.view) s := by
  have hj : (.ino j : Ref n) ∈ (.ino j ::ₘ h : Holdings n) :=
    Multiset.mem_cons_self _ _
  intro f
  induction f with
  | zero =>
    intro s _ _
    exact put.allows rfl
  | succ f ih =>
    intro s hs hc
    unfold iputRepeat
    simp only [wp_bind, wp_get]
    split
    · rename_i h1
      exact put.drop hs hc (.inl h1)
    split
    · rename_i h1 _
      have hc1 := eq_one_of_not_lt hc h1
      rw [wp_bind]
      refine (put.sameBut (fun io => truncate_runs io hj) hs).imp fun _ s' hs' => ?_
      apply freeInode_wp put hs'.1
      exact (hs'.2.count j).trans hc1
    split
    · rw [wp_bind]
      refine (put.sameBut (fun io => writeInode_runs io (bread_runs io)) hs).imp fun _ s' hs' => ?_
      rw [wp_bind]
      refine (put.sameBut (fun io => waitOnInode_runs io j) hs'.1).imp fun _ s'' hs'' => ?_
      apply ih hs''.1
      intro h0
      exact hc (((hs''.2.count j).trans (hs'.2.count j)).symm.trans h0)
    · rename_i hd
      exact put.drop hs hc (.inr (.inl (Bool.eq_false_of_not_eq_true hd)))

theorem iput_runs (put : L.Put) :
    L.Runs (.ino j ::ₘ h) (iput (n := n) fuel (some j)) fun _ => h := by
  apply seq (waitOnInode_runs put.toIo j)
  intro s hs
  simp only [wp_bind, wp_get]
  split
  · exact put.allows rfl
  rename_i hc
  split
  · rename_i hp
    split
    · rename_i h1
      exact put.drop hs hc (.inl h1)
    · rename_i h1
      exact put.unpipe hs (eq_one_of_not_lt hc h1) hp
  rename_i hp
  split
  · rename_i hd
    exact put.drop hs hc (.inr (.inr ⟨hd, Bool.eq_false_of_not_eq_true hp⟩))
  split
  · rw [wp_bind]
    refine (put.sameBut (fun io => syncDev_runs io _) hs).imp fun _ s' hs' => ?_
    rw [wp_bind]
    refine (put.sameBut (fun io => waitOnInode_runs io j) hs'.1).imp fun _ s'' hs'' => ?_
    apply iputRepeat_wp put fuel hs''.1
    intro h0
    exact hc (((hs''.2.count j).trans (hs'.2.count j)).symm.trans h0)
  · exact iputRepeat_wp put fuel hs hc

-- ======== iget

theorem writeOut_runs (io : L.Io) (j : Slot) : ∀ f,
    L.Runs h (writeOut (n := n) fuel j f) fun _ => h := by
  intro f
  induction f with
  | zero => exact io.fails rfl
  | succ f ih =>
    apply look
    intro s
    refine both (seq (writeInode_runs io (bread_runs io)) ?_) (ret rfl)
    exact seq (waitOnInode_runs io j) ih

theorem emptyInode_wp (hL : L.Get) : ∀ (f : Nat) {s : Machine n},
    L.inv h s.view → L.Wp (emptyInode fuel f) (fun e s' =>
      L.inv (.blank e ::ₘ h) s'.view ∧ s'.ino e = .blank 1) s := by
  intro f
  induction f with
  | zero =>
    intro s _
    exact hL.allows rfl
  | succ f ih =>
    intro s hs
    unfold emptyInode
    simp only [wp_bind, wp_get, wp_set]
    cases s.emptySlot.2 with
    | none => exact hL.allows rfl
    | some j =>
      simp only [wp_bind]
      have hs' : L.inv h ({ s with lastInode := s.emptySlot.1 }).view := hs
      refine (waitOnInode_runs hL.toIo j _ hs').imp fun _ s1 hs1 => ?_
      refine (writeOut_runs hL.toIo j fuel s1 hs1).imp fun _ s2 hs2 => ?_
      simp only [wp_get]
      split
      · rename_i hc
        simp only [wp_bind, wp_set, wp_pure]
        refine ⟨hL.empty hs2 hc, ?_⟩
        simp [Machine.wipe, Machine.setLock, Machine.setIno]
      · exact ih hs2

theorem getEmptyInode_wp (hL : L.Get) (hs : L.inv h s.view) : L.Wp (getEmptyInode fuel) (fun e s' =>
  L.inv (.blank e ::ₘ h) s'.view ∧ s'.ino e = .blank 1) s :=
  emptyInode_wp hL fuel hs

/-- `iput` of a slot that was not used. -/
theorem iput_blank_wp (hL : L.Get) (hs : L.inv (.blank e ::ₘ h) s.view) (he : s.ino e = .blank 1) :
    L.Wp (iput fuel (some e)) (fun _ s' => L.inv h s'.view) s := by
  unfold iput
  unfold waitOnInode
  simp only [wp_bind, wp_get]
  split
  · exact hL.allows rfl
  · simp only [wp_pure, he]
    exact hL.unblank hs he

/-- `read_inode` of an inode that has just got its number: there is a
super block. -/
theorem readInode_wp (hL : L.Get) (hs : L.inv (.blank e ::ₘ h) s.view) (he : s.ino e = .blank 1)
    (hno : ∀ k, ¬ ((s.ino k).dev = dev ∧ (s.ino k).num = nr)) :
    L.Wp (readInode fuel e) (fun _ s' => L.inv (.ino e ::ₘ h) s'.view)
      (s.setIno e ((s.ino e).setName dev nr)) := by
  have hdev : ∀ l, (((s.setIno e ((s.ino e).setName dev nr)).setLock e l).ino e).dev = dev := by
    intro l
    simp [Machine.setLock, Machine.setIno, MInode.setName]
  unfold readInode lockInode waitOnInode
  simp only [wp_bind, wp_get]
  split
  · exact hL.allows rfl
  · simp only [wp_pure, wp_modify]
    apply getSuper_wp hL.toIo
    · intro _
      exact hL.allows rfl
    · intro i hi
      rw [hdev] at hi
      change superOf s.mnt dev = some i at hi
      have hn : L.inv (.ino e ::ₘ h) (s.setIno e ((s.ino e).setName dev nr)).view := by
        apply hL.name hs he hno
        intro ho
        change superOf s.mnt dev = none at ho
        rw [ho] at hi
        cases hi
      refine andThen (bread_runs hL.toIo _ _ _) (fun r => ?_) _ hn
      cases r with
      | none => exact hL.fails rfl
      | some b =>
        refine seq (same fun _ => rfl) ?_
        exact seq (release_runs hL.toIo) (unlockInode_runs e)

theorem lookup_none (hl : s.lookup dev nr = none) (k : Slot) :
    ¬ ((s.ino k).dev = dev ∧ (s.ino k).num = nr) := by
  have hk := List.find?_eq_none.mp hl k (List.mem_finRange k)
  simpa using hk

theorem lookup_some (hl : s.lookup dev nr = some j) : (s.ino j).dev = dev ∧ (s.ino j).num = nr := by
  have hj := List.find?_some hl
  simpa using hj

theorem mountedOn_none (hm : s.mountedOn j = none) (i : Fin NR_SUPER) :
    (s.mnt i).imount ≠ some j := by
  have hi := List.find?_eq_none.mp hm i (List.mem_finRange i)
  simpa using hi

theorem mountedOn_some {i : Fin NR_SUPER}
    (hm : s.mountedOn j = some i) : (s.mnt i).imount = some j := by
  have hi := List.find?_some hm
  simpa using hi

theorem take_ino_ne (hj : e ≠ j) : (s.take j).ino e = s.ino e := by
  unfold Machine.take
  split <;> simp [Machine.note, Machine.setIno, hj]

theorem take_mnt : (s.take j).mnt = s.mnt := by
  unfold Machine.take
  split <;> rfl

theorem take_mount (s : Machine n) (j : Slot) : ((s.take j).ino j).mount = (s.ino j).mount ∧
      ((s.take j).ino j).num = (s.ino j).num := by
  unfold Machine.take
  split <;> simp [Machine.note, Machine.setIno, MInode.setCount]

/-- The device that the loop of `iget` looks for is none without a
number, or it is mounted. -/
def Machine.Sought (s : Machine n) (dev nr : UInt16) : Prop :=
  dev ≠ 0 ∨ nr = ROOT_INO ∧ ∃ i k, (s.mnt i).imount = some k ∧ (s.mnt i).dev = dev

theorem Machine.Sought.ne (hd : s.Sought dev nr) (he : s.ino e = .blank 1)
    (hj : s.lookup dev nr = some j) : e ≠ j := by
  intro hej
  obtain ⟨hdev, hnum⟩ := lookup_some hj
  rw [← hej, he] at hdev hnum
  rcases hd with hd | ⟨hd, _⟩
  · exact hd hdev.symm
  · rw [hd] at hnum
    cases hnum

theorem Machine.Sought.known
    (hd : s.Sought dev nr) (hj : s.lookup dev nr = some j) : s.view.Known j := by
  obtain ⟨hdev, -⟩ := lookup_some hj
  rcases hd with hd | ⟨-, i, k, hi, hk⟩
  · exact .inl fun h0 => hd (hdev ▸ h0)
  · exact .inr (.inr (.inr (.inr ⟨i, k, hi, hk.trans hdev.symm⟩)))

theorem igetScan_wp (hL : L.Get) : ∀ (r : Nat) {s : Machine n}
    {dev nr : UInt16}, L.inv (.blank e ::ₘ h) s.view → s.ino e = .blank 1 →
      s.Sought dev nr → (r = 0 → nr = ROOT_INO) → L.Wp (igetScan fuel e r dev nr)
        (fun j s' => L.inv (.ino j ::ₘ h) s'.view) s := by
  intro r
  induction r using Nat.strongRecOn with
  | ind r ih =>
    intro s dev nr hs he hd hr
    unfold igetScan
    simp only [wp_bind, wp_get]
    cases hl : s.lookup dev nr with
    | none =>
      simp only [wp_bind, wp_set, wp_pure]
      exact readInode_wp hL hs he (lookup_none hl)
    | some j =>
      have hej := hd.ne he hl
      have ht : L.inv (.ino j ::ₘ .blank e ::ₘ h) (s.take j).view := by
        rw [view_take]
        exact hL.take hs (hd.known hl)
      have hte : (s.take j).ino e = .blank 1 :=
        (take_ino_ne hej).trans he
      have htm := take_mount s j
      unfold waitOnInode
      simp only [wp_bind, wp_get]
      split
      · exact hL.allows rfl
      simp only [wp_pure, wp_modify]
      split
      · rename_i hm
        cases ho : s.mountedOn j with
        | none =>
          simp only [wp_bind, wp_modify]
          have hno : ∀ i, ((s.take j).mnt i).imount ≠ some j := by
            intro i
            rw [take_mnt]
            exact mountedOn_none ho i
          have hn := hL.noSb ht (htm.1.trans hm) hno
          rw [Multiset.cons_swap] at hn
          exact iput_blank_wp hL hn hte
        | some i =>
          cases r with
          | zero =>
            refine hL.restarts ht (htm.1.trans hm) ?_
            exact htm.2.trans ((lookup_some hl).2.trans (hr rfl))
          | succ r =>
            simp only [wp_bind]
            refine ((iput_runs hL.toPut).with
              (iput_runs (h := 0) (aside_put e (s.take j).mnt)) ht
              ⟨by simp [hej], hte, rfl⟩).imp fun _ s' hs' => ?_
            obtain ⟨hs', -, he', hm'⟩ := hs'
            refine ih r (Nat.lt_succ_self r) hs' he' (.inr ⟨rfl, i, j, ?_, rfl⟩) fun _ => rfl
            change s'.mnt = (s.take j).mnt at hm'
            rw [hm', take_mnt]
            exact mountedOn_some ho
      · simp only [wp_bind]
        rw [Multiset.cons_swap] at ht
        exact iput_blank_wp hL ht hte

theorem iget_runs (hL : L.Get) (dev nr : UInt16) :
    L.Runs h (iget (n := n) fuel dev nr) fun j => .ino j ::ₘ h := by
  unfold iget
  intro s hs
  split
  · exact hL.allows rfl
  · rename_i hd
    refine wp_bind.mpr ?_
    refine (getEmptyInode_wp hL hs).imp fun e s' hs' => ?_
    exact igetScan_wp hL (fuel + 1) hs'.1 hs'.2 (.inl hd)
      fun h0 => absurd h0 (Nat.succ_ne_zero fuel)

/-- What a routine has when it returns an inode, or none. -/
def withIno (h : Holdings n) : Option Slot → Holdings n
  | none => h
  | some j => .ino j ::ₘ h

theorem newInode_runs (hL : L.Make) (dev : UInt16) :
    L.Runs h (newInode (n := n) fuel dev) (withIno h) := by
  intro s hs
  refine wp_bind.mpr ?_
  refine (getEmptyInode_wp hL.toGet hs).imp fun e s1 hs1 => ?_
  rw [wp_bind]
  apply getSuper_wp hL.toIo
  · intro _
    exact hL.allows rfl
  intro i hi
  simp only [wp_bind, wp_get]
  cases s1.freeBit (s1.super i).imap with
  | none =>
    simp only [wp_bind, wp_pure]
    exact iput_blank_wp hL.toGet hs1.1 hs1.2
  | some kt =>
    simp only
    split
    · simp only [wp_bind, wp_pure]
      exact iput_blank_wp hL.toGet hs1.1 hs1.2
    cases (s1.super i).imap kt.1 with
    | none => exact hL.allows rfl
    | some b =>
      simp only
      split
      · exact hL.allows rfl
      simp only [wp_bind]
      refine markBit_wp.imp fun _ s2 hs2 => ?_
      have he : s2.ino e = .blank 1 :=
        (congrFun (congrArg View.ino hs2) e).trans hs1.2
      simp only [wp_modify, wp_pure]
      change L.inv (.ino e ::ₘ h) (s2.view.setIno e
        ((((s2.ino e).setCount 1).setName dev _).setDirt true))
      rw [he]
      refine hL.make (hs2 ▸ hs1.1) he fun ho => ?_
      rw [hs2] at ho
      exact Option.some_ne_none i (hi.symm.trans ho)

end LearnLinux.Kernel
