/-
The calls that create: `open_namei` with `O_CREAT`, `sys_mknod` and
`sys_mkdir`.

Up to the point where the new inode is entered in its directory, all that
has happened is the inode itself, and the undoing of that is exact: with
`iput` of an inode that has no link and no zones the state is the old one,
but for the zones that `add_entry` has given to the directory. `Makes` says
this of a call, whatever it returns.

`sys_mkdir` alone has a block to give back, and gives it back twice: once
by hand and once through `iput`, whose `truncate` finds it still in
`i_zone[0]`. The second time is a panic.
-/
import LearnLinux.Fs.Proofs.Lookup

namespace LearnLinux.Fs

open Function (update update_self update_of_ne update_idem update_comm)
open Lib

variable {d : Dev} {c : Caller} {dir n m z : Nat} {v w : Vol} {name : Name} {I : Inode}

-- ======== a free inode

structure Free (d : Dev) (n : Nat) : Prop where
  low : 1 ≤ n
  high : n ≤ d.ninodes
  bit : d.inodeBit n = false
  map : (d.imap (n / 8192)).isSome

theorem Free.not_live (h : Free d n) : d.live n = false := by
  rw [← Bool.not_eq_true, live_iff]
  intro hc
  rw [h.bit] at hc
  cases hc.2

theorem Free.ne_of_live (h : Free d n) (hm : d.live m = true) : n ≠ m := by
  rintro rfl
  rw [h.not_live] at hm
  cases hm

/-- What the creation of inode `n` leaves besides the zones, when the
creator has dropped its reference. -/
def Dev.made (d : Dev) (n : Nat) : Dev :=
  (d.setInodeBit n true).setLinks n 1

/-- An inode that `truncate` leaves alone. -/
def Inode.Bare (I : Inode) : Prop :=
  I.mode = .other ∨ (I.size = 0 ∧ ∀ k, I.zone k = 0)

/-- A bare inode is stored. -/
theorem Sound.setBare (h : Sound v) {I : Inode} (hI : I.Bare) (n : Nat) :
    Sound (v.setInode n I) ∧ ∀ m, m ≠ n → Kept v (v.setInode n I) m :=
  h.setInode fun hm => (hI.resolve_left hm).2

theorem Sound.setBlank (h : Sound v) (n : Nat) :
    Sound (v.setInode n .blank) ∧ ∀ m, m ≠ n → Kept v (v.setInode n .blank) m :=
  h.setBare (.inl rfl) n

theorem setZone_bare {k : Nat} (h : (v.inode n).zone k = 0) : v.setZone n k 0 = v := by
  have := setZone_zero h
  show Vol.mk _ _ _ (v.setZone n k 0).inode _ _ _ = v
  rw [this]

theorem truncate_bare (h : (v.inode n).Bare) : truncate n v = .ok v := by
  unfold truncate
  split
  · rfl
  · rename_i hm
    obtain ⟨hs, hz⟩ := h.resolve_left hm
    have hdirect : freeDirect n v = .ok v := by
      have hloop : ∃ v', freeDirect n v = .ok v' ∧ v' = v :=
        forLoop_ok (I := fun _ s => s = v) rfl (by
          intro i s _ hs
          refine ⟨s, if_neg (not_not.mpr ?_), hs⟩
          rw [hs]
          exact hz i)
      obtain ⟨v', hv', rfl⟩ := hloop
      exact hv'
    have hind : freeInd 0 v = .ok v := rfl
    have hdind : freeDind 0 v = .ok v := rfl
    rw [bind_of_ok hdirect, hz 7, bind_of_ok hind, hz 8, bind_of_ok hdind]
    unfold Vol.emptied
    rw [setZone_bare (hz 7), setZone_bare (hz 8)]
    congr 1
    show Vol.mk _ _ _ (fun i => if i = n then _ else v.inode i) _ _ _ = v
    have : (fun i => if i = n then { v.inode i with size := 0 }
        else v.inode i) = v.inode := by
      funext i
      split
      · rename_i hi
        rw [hi, ← hs]
      · rfl
    rw [this]

theorem setInode_setInode (I J : Inode) : (v.setInode n I).setInode n J = v.setInode n J := by
  unfold Vol.setInode
  rw [update_idem]

theorem setInodeBit_undo (h : Free d n) : (d.setInodeBit n true).setInodeBit n false = d := by
  have hmap : ((d.setInodeBit n true).setInodeBit n false).imap = d.imap := by
    obtain ⟨bits, hbits⟩ := Option.isSome_iff_exists.mp h.map
    funext i
    unfold Dev.setInodeBit
    simp only
    by_cases hi : i = n / 8192
    · rw [if_pos hi, if_pos hi, hi, hbits]
      simp only [Option.map_some]
      congr 1
      funext j
      by_cases hj : j = n % 8192
      · rw [if_pos hj, hj]
        have hbit := h.bit
        unfold Dev.inodeBit at hbit
        rw [hbits] at hbit
        exact hbit.symm
      · rw [if_neg hj, if_neg hj]
    · rw [if_neg hi, if_neg hi]
  show Dev.mk _ _ ((d.setInodeBit n true).setInodeBit n false).imap _ _ = d
  rw [hmap]
  rfl

theorem fresh_iget (hne : n ≠ dir) : (iget d dir).fresh n = iget (d.fresh n) dir := by
  unfold iget Dev.fresh Dev.setLinks Dev.setCount
  congr 1
  show update (update d.count dir _) n 1
    = update (update d.count n 1) dir (update d.count n 1 dir + 1)
  rw [update_of_ne hne.symm, update_comm hne]

/-- The reference of the creator is dropped. -/
theorem iput_made (hc : d.count n = 0) :
    iput ((d.fresh n).setVol w) n = .ok ((d.made n).setVol w) := by
  have hcount : ((d.fresh n).setVol w).count n = 1 :=
    update_self ..
  have hlinks : ((d.fresh n).setVol w).nlinks n = 1 :=
    update_self ..
  rw [iput_drop (.inr ⟨by omega, by omega⟩), hcount]
  congr 1
  show Dev.mk _ _ _ _ (update (update d.count n 1) n 0) = Dev.mk _ _ _ _ d.count
  rw [update_idem, Function.update_eq_self_iff.mpr hc.symm]
  rfl

/-- The new inode goes away again, without a trace. -/
theorem iput_undone (hf : Free d n) (hc : d.count n = 0)
    (hl : d.nlinks n = 0) (hb : (w.inode n).Bare) : iput (((d.fresh n).setVol w).setLinks n 0) n
      = .ok (d.setVol (w.setInode n .blank)) := by
  generalize he : ((d.fresh n).setVol w).setLinks n 0 = e
  have hcount : e.count n = 1 := by
    rw [← he]
    exact update_self ..
  have hlinks : e.nlinks n = 0 := by
    rw [← he]
    exact update_self ..
  have hvol : e.vol = w := by rw [← he]; rfl
  have himap : e.imap = (d.setInodeBit n true).imap := by rw [← he]; rfl
  have hninodes : e.ninodes = d.ninodes := by rw [← he]; rfl
  unfold iput
  rw [if_neg (by omega), if_neg (by omega), if_pos hlinks, hvol]
  rw [truncate_bare hb]
  have hsome : ((e.setVol w).imap (n / 8192)).isSome := by
    show (e.imap (n / 8192)).isSome
    rw [himap]
    unfold Dev.setInodeBit
    simp only [if_true, Option.isSome_map]
    exact hf.map
  show freeInode (e.setVol w) n = _
  rw [freeInode_eq (d := e.setVol w) hlinks hf.low
    (by show n ≤ e.ninodes; rw [hninodes]; exact hf.high) hsome]
  congr 1
  have hbits : (e.setVol w).setInodeBit n false
      = ((((d.setInodeBit n true).setInodeBit n false).setVol w).setLinks n 0).setCount n 1 := by
    rw [← he]
    show Dev.mk _ _ _ _ _ = Dev.mk _ _ _ _ _
    congr 1
    exact update_idem ..
  rw [hbits, setInodeBit_undo hf]
  show Dev.mk _ _ _ (update d.nlinks n (0 % 256)) (update (update d.count n 1) n 0) = _
  have hnlinks : update d.nlinks n (0 % 256) = d.nlinks :=
    Function.update_eq_self_iff.mpr hl.symm
  have hcounts : update d.count n 0 = d.count :=
    Function.update_eq_self_iff.mpr hc.symm
  rw [update_idem, hnlinks, hcounts]
  rfl

-- ======== the new inode is entered

theorem enter_error {p : Panic} (h : addEntry dir name d.vol = .error p) :
    enter d dir n name = .error (.vol p) := by
  unfold enter
  rw [h]
  rfl

theorem enter_full (h : addEntry dir name d.vol = .ok (none, w)) :
    enter d dir n name = .ok (false, d.setVol w) := by
  unfold enter
  rw [h]
  rfl

theorem enter_done {i : Nat} (h : addEntry dir name d.vol = .ok (some (z, i), w)) :
    enter d dir n name = .ok (true, d.setVol (w.setDirEntry z i n)) := by
  unfold enter
  rw [h]
  rfl

/-- A call enters the inode `I`, which it has made, under the number `n`:
it panics with `add_entry`, it undoes what it did, or it is done. -/
structure Makes {α : Type} (d : Dev) (dir n : Nat) (I : Inode) (name : Name)
    (bad good : α) (done : Dev) (x : Except Crash (α × Dev)) : Prop where
  bare : I.Bare
  crash : ∀ p, addEntry dir name (d.vol.setInode n I) = .error p → x = .error (.vol p)
  full : ∀ w, addEntry dir name (d.vol.setInode n I) = .ok (none, w) →
    x = .ok (bad, d.setVol (w.setInode n .blank))
  made : ∀ z i w, addEntry dir name (d.vol.setInode n I) = .ok (some (z, i), w) →
    x = .ok (good, done.setVol (w.setDirEntry z i n))

/-- The inode of a creation that found no room is as it was made. -/
theorem Readable.full_bare (h : Readable d) (hdir : IsDir d dir) (hf : Free d n) (hI : I.Bare)
    (hadd : addEntry dir name (d.vol.setInode n I) = .ok (none, w)) :
    NoRoom (d.vol.setInode n I) dir w ∧ (w.inode n).Bare := by
  have hne := hf.ne_of_live hdir.live
  have hs := h.sound.setBare hI n
  have hin : (d.vol.setInode n I).inode dir = d.vol.inode dir :=
    update_of_ne hne.symm _ _
  rcases hs.1.addEntry h.first (isFile_of_dir (by rw [hin]; exact hdir.mode))
    (by rw [hin]; exact h.size dir hdir.live hdir.mode) hadd with
    ⟨-, hg⟩ | ⟨z, i, hc, -⟩
  · refine ⟨hg, ?_⟩
    rw [hg.grown.others n hne]
    show (update d.vol.inode n I n).Bare
    rw [update_self]
    exact hI
  · cases hc

/-- The zones `w` hold the directories of the device, entry by entry. -/
structure Alike (d : Dev) (w : Vol) : Prop where
  sound : Sound w
  first : w.firstdatazone = d.vol.firstdatazone
  mode : ∀ m, (w.inode m).mode = (d.vol.inode m).mode
  size : ∀ m, d.live m = true → (d.vol.inode m).mode = .dir →
    (w.inode m).size = (d.vol.inode m).size
  head : ∀ m, d.live m = true → (d.vol.inode m).mode = .dir →
    (w.inode m).zone 0 ≠ 0 → (d.vol.inode m).zone 0 ≠ 0
  slots : ∀ m, d.live m = true → (d.vol.inode m).mode = .dir →
    ∀ i, i < maxEntries → w.dirSlot m i = d.vol.dirSlot m i

theorem Readable.names_alike (h : Readable d) (ha : Alike d w) : (d.setVol w).names = d.names := by
  funext x
  by_cases hx : d.live x.1 = true ∧ (d.vol.inode x.1).mode = .dir
  · refine names_congr rfl (ha.mode x.1) (ha.size x.1 hx.1 hx.2)
      fun hm hs hl => ha.slots x.1 hl hm x.2 ?_
    have := h.size x.1 hl hm
    omega
  · rw [names_eq_none, names_eq_none]
    · exact fun hc => hx ⟨hc.1, hc.2.1⟩
    · refine fun hc => hx ⟨hc.1, ?_⟩
      rw [← ha.mode]
      exact hc.2.1

/-- Only the inode `n`, which is no directory, has changed. -/
theorem alike_of_kept (hs : Sound w) (hfirst : w.firstdatazone = d.vol.firstdatazone)
    (hk : ∀ m, m ≠ n → Kept d.vol w m) (hn : (d.vol.inode n).mode ≠ .dir)
    (hw : (w.inode n).mode = (d.vol.inode n).mode) : Alike d w := by
  have hne : ∀ m, (d.vol.inode m).mode = .dir → m ≠ n := by
    rintro m hm rfl
    exact hn hm
  refine ⟨hs, hfirst, fun m => ?_, fun m _ hm => ?_, fun m _ hm h0 => ?_, fun m _ hm i hi => ?_⟩
  · by_cases hmn : m = n
    · rw [hmn, hw]
    · rw [(hk m hmn).inode]
  · rw [(hk m (hne m hm)).inode]
  · rw [(hk m (hne m hm)).inode] at h0
    exact h0
  · exact (hk m (hne m hm)).dirSlot (isFile_of_dir hm) hi

/-- There was no room for another entry in a directory. -/
theorem NoRoom.alike (hg : NoRoom d.vol dir w) : Alike d w := by
  refine ⟨hg.grown.ext.sound, hg.grown.first, hg.grown.ext.mode, fun m _ _ => hg.grown.ext.size m,
    fun m _ _ h0 => ?_, fun m _ hm i hi => hg.grown.ext.dirSlot (isFile_of_dir hm) hi⟩
  by_cases hmd : m = dir
  · rw [hmd] at h0 ⊢
    exact hg.head h0
  · rw [hg.grown.others m hmd] at h0
    exact h0

/-- A creation that found no room. -/
theorem Readable.full_alike (h : Readable d) (hdir : IsDir d dir)
    (hf : Free d n) (hI : I.Bare) (hg : NoRoom (d.vol.setInode n I) dir w) :
    Alike d (w.setInode n .blank) := by
  have hne := hf.ne_of_live hdir.live
  obtain ⟨hs1, hk1⟩ := h.sound.setBare hI n
  obtain ⟨hs2, hk2⟩ := hg.grown.ext.sound.setBlank n
  have hother : (d.vol.inode n).mode = .other := (h.unused n hf.not_live).1
  have hlive : ∀ {m}, d.live m = true → m ≠ n := fun hm =>
    (hf.ne_of_live hm).symm
  refine ⟨hs2, hg.grown.first, fun m => ?_, fun m hl _ => ?_,
    fun m hl _ h0 => ?_, fun m hl hm i hi => ?_⟩
  · by_cases hm : m = n
    · rw [hm, hother]
      show (update w.inode n .blank n).mode = _
      rw [update_self]
      rfl
    · rw [(hk2 m hm).inode, hg.grown.ext.mode, (hk1 m hm).inode]
  · rw [(hk2 m (hlive hl)).inode, hg.grown.ext.size, (hk1 m (hlive hl)).inode]
  · rw [(hk2 m (hlive hl)).inode] at h0
    rw [← (hk1 m (hlive hl)).inode]
    by_cases hmd : m = dir
    · rw [hmd] at h0 ⊢
      exact hg.head h0
    · rw [hg.grown.others m hmd] at h0
      exact h0
  · have hv := (hk1 m (hlive hl)).inode
    have hfile : (d.vol.setInode n I).IsFile m :=
      isFile_of_dir (by rw [hv]; exact hm)
    have hfile' : w.IsFile m :=
      isFile_of_dir (by rw [hg.grown.ext.mode, hv]; exact hm)
    exact ((hk2 m (hlive hl)).dirSlot hfile' hi).trans ((hg.grown.ext.dirSlot hfile hi).trans
        ((hk1 m (hlive hl)).dirSlot (isFile_of_dir hm) hi))

theorem fresh_setInode (hne : n ≠ dir) : ((iget d dir).fresh n).setInode n I
      = iget ((d.fresh n).setVol (d.vol.setInode n I)) dir := by
  rw [fresh_iget hne]
  show (iget (d.fresh n) dir).setVol ((d.vol.setInode n .blank).setInode n I) = _
  rw [setInode_setInode]
  rfl

theorem iput_parent (hdir : IsDir d dir) (hne : n ≠ dir) :
    iput (iget ((d.fresh n).setVol w) dir) dir = .ok ((d.fresh n).setVol w) := by
  refine iput_iget (.inr ?_)
  show update d.nlinks n 1 dir ≠ 0
  rw [update_of_ne hne.symm]
  exact hdir.linked

-- ------------------------------------------------------------- sys_mknod

theorem nodInode_bare (mode : Mode) (dev : Option Nat) : (nodInode mode dev).Bare := by
  by_cases hm : mode = .other
  · exact .inl hm
  · exact .inr ⟨rfl, fun k => if_neg fun hc => hm hc.2⟩

theorem Readable.free_facts (h : Readable d) (hf : Free d n) : d.count n = 0 ∧ d.nlinks n = 0 :=
  (h.unused n hf.not_live).2

/-- `new_inode` for a directory that was just got. -/
theorem Readable.madeInode (h : Readable d) : newInode (iget d dir) = .ok (none, iget d dir) ∨
      ∃ n, newInode (iget d dir) = .ok (some n, (iget d dir).fresh n) ∧ Free d n := by
  rcases newInode_cases (d := iget d dir) h.zero with hnew | ⟨n, hnew, hlow, hhigh, hbit, hmap⟩
  · exact .inl hnew
  · exact .inr ⟨n, hnew, hlow, hhigh, hbit, hmap⟩

theorem Readable.sysMknod (h : Readable d) (hroot : d.count c.root ≠ 0)
    (hpwd : d.count c.pwd ≠ 0) (pathname : Name) (mode : Mode) (dev : Option Nat) :
    (∃ code, Fs.sysMknod d c pathname mode dev = .ok (code, d) ∧ code < 0) ∨
    ∃ dir name n, IsDir d dir ∧ Free d n
      ∧ Fs.dirNamei d c pathname = .ok (some (dir, name), iget d dir)
      ∧ Makes d dir n (nodInode mode dev) name (-ENOSPC) 0 (d.made n)
        (Fs.sysMknod d c pathname mode dev) := by
  generalize hx : Fs.sysMknod d c pathname mode dev = x
  unfold Fs.sysMknod at hx
  split at hx
  · exact .inl ⟨_, hx.symm, by decide⟩
  rcases h.parent hroot hpwd pathname with
    ⟨code, hp, hc⟩ | ⟨dir, name, e, hp, hdir, -, hnamei⟩
  · rw [bind_of_ok hp] at hx
    exact .inl ⟨code, hx.symm, hc⟩
  rw [bind_of_ok hp] at hx
  cases e with
  | some i =>
    exact .inl ⟨-EEXIST, hx.symm.trans (bind_of_ok hdir.iput), by decide⟩
  | none =>
    have hx : (newInode (iget d dir) >>= _) = x := hx
    rcases h.madeInode with hnew | ⟨n, hnew, hf⟩ <;> rw [bind_of_ok hnew] at hx
    · exact .inl ⟨-ENOSPC, hx.symm.trans (bind_of_ok hdir.iput), by decide⟩
    have hne := hf.ne_of_live hdir.live
    obtain ⟨hcount, hlinks⟩ := h.free_facts hf
    have hx : (enter (((iget d dir).fresh n).setInode n _) dir n name >>= _) = x := hx
    rw [fresh_setInode hne] at hx
    rw [← hx]
    refine .inr ⟨dir, name, n, hdir, hf, hnamei, nodInode_bare mode dev, ?_, ?_, ?_⟩
    · intro p hadd
      rw [enter_error hadd]
      rfl
    · intro w hadd
      obtain ⟨hg, hbare⟩ := h.full_bare hdir hf (nodInode_bare mode dev) hadd
      rw [bind_of_ok (enter_full hadd)]
      show (Fs.iput (iget ((d.fresh n).setVol w) dir) dir >>= _) = _
      rw [bind_of_ok (iput_parent hdir hne), bind_of_ok (iput_undone hf hcount hlinks hbare)]
    · intro z i w hadd
      rw [bind_of_ok (enter_done hadd)]
      show putBoth (iget ((d.fresh n).setVol (w.setDirEntry z i n)) dir) dir n 0 = _
      unfold putBoth
      rw [bind_of_ok (iput_parent hdir hne), bind_of_ok (iput_made hcount)]

-- ------------------------------------------------------------ open_namei

/-- How `open_namei` ends: with an error and no change, as a creation, or
with a reference to an inode that was there, and is truncated if so
asked. -/
theorem Readable.openNamei (h : Readable d) (hroot : d.count c.root ≠ 0)
    (hpwd : d.count c.pwd ≠ 0) (pathname : Name) (flags : OpenFlags) :
    (∃ code, Fs.openNamei d c pathname flags = .ok (.error code, d) ∧ code < 0) ∨
    (∃ dir name n, IsDir d dir ∧ Free d n
      ∧ Fs.dirNamei d c pathname = .ok (some (dir, name), iget d dir)
      ∧ Makes d dir n ⟨.reg, 0, fun _ => 0⟩ name (.error (-ENOSPC)) (.ok n)
        ((d.made n).setCount n 1) (Fs.openNamei d c pathname flags)) ∨
    ∃ m v, Fs.openNamei d c pathname flags = .ok (.ok m, (iget d m).setVol v)
      ∧ d.live m = true ∧ d.nlinks m ≠ 0
      ∧ (v = d.vol ∨ (flags.trunc = true ∧ (d.vol.inode m).mode ≠ .dir
        ∧ truncate m d.vol = .ok v)) := by
  generalize hx : Fs.openNamei d c pathname flags = x
  unfold Fs.openNamei at hx
  rcases h.dirNamei hroot hpwd pathname with hr | ⟨dir, name, hr, hdir⟩
  · rw [bind_of_ok hr] at hx
    exact .inl ⟨_, hx.symm, by decide⟩
  rw [bind_of_ok hr] at hx
  by_cases hname : name = []
  · simp only [if_pos hname] at hx
    split at hx
    · exact .inr (.inr ⟨dir, d.vol, hx.symm, hdir.live, hdir.linked, .inl rfl⟩)
    · rw [bind_of_ok hdir.iput] at hx
      exact .inl ⟨_, hx.symm, by decide⟩
  simp only [if_neg hname] at hx
  obtain ⟨e, he, hspec⟩ := h.findEntry hdir c name
  rw [bind_of_ok he] at hx
  cases e with
  | none =>
    have hx : openNew (iget d dir) c dir name flags = x := hx
    unfold openNew at hx
    split at hx
    · rw [bind_of_ok hdir.iput] at hx
      exact .inl ⟨_, hx.symm, by decide⟩
    split at hx
    · rw [bind_of_ok hdir.iput] at hx
      exact .inl ⟨_, hx.symm, by decide⟩
    rcases h.madeInode with hnew | ⟨n, hnew, hf⟩ <;> rw [bind_of_ok hnew] at hx
    · exact .inl ⟨-ENOSPC, hx.symm.trans (bind_of_ok hdir.iput), by decide⟩
    have hne := hf.ne_of_live hdir.live
    obtain ⟨hcount, hlinks⟩ := h.free_facts hf
    have hbare : Inode.Bare ⟨.reg, 0, fun _ => 0⟩ :=
      .inr ⟨rfl, fun _ => rfl⟩
    have hx : (enter (((iget d dir).fresh n).setInode n _) dir n name >>= _) = x := hx
    rw [fresh_setInode hne] at hx
    rw [← hx]
    refine .inr (.inl ⟨dir, name, n, hdir, hf, hr, hbare, ?_, ?_, ?_⟩)
    · intro p hadd
      rw [enter_error hadd]
      rfl
    · intro w hadd
      obtain ⟨hg, hb⟩ := h.full_bare hdir hf hbare hadd
      rw [bind_of_ok (enter_full hadd)]
      -- the inode goes first, while the directory is still held
      have hf' : Free (iget d dir) n := ⟨hf.low, hf.high, hf.bit, hf.map⟩
      have hundo := iput_undone hf' (show update d.count dir _ n = 0 by
        rw [update_of_ne hne]; exact hcount) hlinks hb
      rw [fresh_iget hne] at hundo
      have hone : (iget ((d.fresh n).setVol w) dir).nlinks n = 1 :=
        update_self ..
      show (Fs.iput ((iget ((d.fresh n).setVol w) dir).setLinks n
        ((iget ((d.fresh n).setVol w) dir).nlinks n - 1)) n >>= _) = _
      rw [hone]
      refine (bind_of_ok hundo).trans ?_
      exact (bind_of_ok (iput_iget (d := d.setVol (w.setInode n .blank))
        (.inr hdir.linked))).trans rfl
    · intro z i w hadd
      rw [bind_of_ok (enter_done hadd)]
      exact (bind_of_ok (iput_parent hdir hne)).trans rfl
  | some i =>
    obtain ⟨-, hino, hnamed⟩ := hspec i rfl
    have hback := iput_iget (.inr hnamed.2)
    have hx : openOld (iget d dir) c dir i flags = x := hx
    unfold openOld at hx
    rw [bind_of_ok hino, bind_of_ok hdir.iput] at hx
    split at hx
    · exact .inl ⟨_, hx.symm, by decide⟩
    simp only at hx
    split at hx
    · exact .inl ⟨-EPERM, hx.symm.trans (bind_of_ok hback), by decide⟩
    rename_i hok
    split at hx
    · rename_i htrunc
      have hmode : (d.vol.inode (d.vol.dirSlot dir i)).mode ≠ .dir := by
        intro hm
        refine hok (.inl ⟨hm, ?_⟩)
        unfold OpenFlags.access
        split
        · omega
        · rename_i hc
          exact fun h0 => hc ⟨htrunc, h0⟩
      have htr : ∃ v, truncate (d.vol.dirSlot dir i) d.vol = .ok v := by
        by_cases hfile : d.vol.IsFile (d.vol.dirSlot dir i)
        · obtain ⟨v, hv, -⟩ := h.sound.truncate hfile
          exact ⟨v, hv⟩
        · exact ⟨_, truncate_bare (.inl (not_not.mp hfile))⟩
      obtain ⟨v, hv⟩ := htr
      refine .inr (.inr ⟨d.vol.dirSlot dir i, v, ?_, hnamed.1, hnamed.2, .inr ⟨htrunc, hmode, hv⟩⟩)
      have hon : onVol (truncate (d.vol.dirSlot dir i)
          (iget d (d.vol.dirSlot dir i)).vol) = .ok v := by
        show onVol (truncate _ d.vol) = _
        rw [hv]
        rfl
      exact hx.symm.trans (bind_of_ok hon)
    · exact .inr (.inr ⟨d.vol.dirSlot dir i, d.vol, hx.symm, hnamed.1, hnamed.2, .inl rfl⟩)

-- ------------------------------------------------------------- sys_mkdir

/-- The device besides its zones while `sys_mkdir` enters directory `n`. -/
def Dev.fresh2 (d : Dev) (n : Nat) : Dev := (d.fresh n).setLinks n 2

/-- How `sys_mkdir` goes on from its new inode `n`. -/
structure MakesDir (d : Dev) (dir n : Nat) (name : Name) (x : Except Crash (Int × Dev)) : Prop where
  crash : ∀ p, newBlock (d.vol.setInode n .blank) = .error p → x = .error (.vol p)
  noBlock : ∀ v, newBlock (d.vol.setInode n .blank) = .ok (0, v) →
    x = .ok (-ENOSPC, d.setVol (v.setInode n .blank))
  crash' : ∀ z v p, newBlock (d.vol.setInode n .blank) = .ok (z, v) →
    z ≠ 0 → addEntry dir name (mkdirVol v z n dir) = .error p → x = .error (.vol p)
  full : ∀ z v w, newBlock (d.vol.setInode n .blank) = .ok (z, v) →
    z ≠ 0 → addEntry dir name (mkdirVol v z n dir) = .ok (none, w) →
    x = onVol (freeBlock z w) >>= fun u =>
      iput (((d.fresh2 n).setVol u).setLinks n 0) n >>= fun d =>
        .ok (-ENOSPC, d)
  made : ∀ z v b i w, newBlock (d.vol.setInode n .blank) = .ok (z, v) →
    z ≠ 0 → addEntry dir name (mkdirVol v z n dir) = .ok (some (b, i), w) →
    x = putBoth ((iget ((d.fresh2 n).setVol (w.setDirEntry b i n))
      dir).setLinks dir (d.nlinks dir + 1)) dir n 0

theorem fresh2_nlinks (hne : n ≠ dir) : (d.fresh2 n).nlinks dir = d.nlinks dir := by
  show update (update d.nlinks n _) n _ dir = _
  rw [update_of_ne hne.symm, update_of_ne hne.symm]

theorem Readable.mkdirIn (h : Readable d) (hdir : IsDir d dir) (hf : Free d n)
    (hnew : newInode (iget d dir) = .ok (some n, (iget d dir).fresh n)) :
    MakesDir d dir n name (Fs.mkdirIn (iget d dir) dir name) := by
  have hne := hf.ne_of_live hdir.live
  obtain ⟨hcount, hlinks⟩ := h.free_facts hf
  have hblank := h.sound.setBlank n
  have hlt : ∀ {z v}, newBlock (d.vol.setInode n .blank) = .ok (z, v) → z % 2 ^ 16 = z := fun hb =>
    Nat.mod_eq_of_lt (hblank.1.newBlock hb).2.2.1
  have hx : Fs.mkdirIn (iget d dir) dir name = mkdirBlock (iget (d.fresh n) dir) dir n name := by
    rw [← fresh_iget hne]
    exact bind_of_ok hnew
  rw [hx]
  have hon : ∀ {r}, newBlock (d.vol.setInode n .blank) = .ok r →
      onVol (newBlock (iget (d.fresh n) dir).vol) = .ok r := by
    intro r hb
    show onVol (newBlock (d.vol.setInode n .blank)) = .ok r
    rw [hb]
    rfl
  -- once there is a block, the state is that of an entry to be made
  have hgo : ∀ {z v}, newBlock (d.vol.setInode n .blank) = .ok (z, v) →
      z ≠ 0 → mkdirBlock (iget (d.fresh n) dir) dir n name
        = mkdirEnter (iget ((d.fresh2 n).setVol (mkdirVol v z n dir)) dir) dir n z name := by
    intro z v hb h0
    unfold mkdirBlock
    rw [bind_of_ok (hon hb)]
    simp only [hlt hb]
    rw [if_neg h0]
    rfl
  refine ⟨?_, ?_, ?_, ?_, ?_⟩
  · intro p hb
    show (onVol (newBlock (d.vol.setInode n .blank)) >>= _) = _
    rw [hb]
    rfl
  · intro v hb
    unfold mkdirBlock
    rw [bind_of_ok (hon hb)]
    simp only [hlt hb]
    rw [if_pos trivial]
    generalize hw : v.setInode n ⟨.other, 32, fun _ => 0⟩ = w
    have hbare : (w.inode n).Bare := by
      rw [← hw]
      refine .inl ?_
      show (update v.inode n _ n).mode = _
      rw [update_self]
    have hone : ((d.fresh n).setVol w).nlinks n - 1 = 0 := by
      show update d.nlinks n _ n - 1 = 0
      rw [update_self]
    have hundo := iput_undone hf hcount hlinks hbare
    show (Fs.iput (iget ((d.fresh n).setVol (v.setInode n _)) dir) dir >>= _) = _
    rw [hw]
    refine (bind_of_ok (iput_parent hdir hne)).trans ?_
    rw [hone, bind_of_ok hundo, ← hw, setInode_setInode]
  · intro z v p hb h0 hadd
    rw [hgo hb h0]
    unfold mkdirEnter
    rw [enter_error hadd]
    rfl
  · intro z v w hb h0 hadd
    rw [hgo hb h0]
    unfold mkdirEnter
    rw [bind_of_ok (enter_full hadd)]
    have hput : Fs.iput (iget ((d.fresh2 n).setVol w) dir) dir = .ok ((d.fresh2 n).setVol w) :=
      iput_iget (.inr (by
        show (d.fresh2 n).nlinks dir ≠ 0
        rw [fresh2_nlinks hne]
        exact hdir.linked))
    exact bind_of_ok hput
  · intro z v b i w hb h0 hadd
    rw [hgo hb h0]
    unfold mkdirEnter
    rw [bind_of_ok (enter_done hadd), ← fresh2_nlinks hne]
    rfl

theorem Readable.sysMkdir (h : Readable d) (hroot : d.count c.root ≠ 0)
    (hpwd : d.count c.pwd ≠ 0) (pathname : Name) :
    (∃ code, Fs.sysMkdir d c pathname = .ok (code, d) ∧ code < 0 ∧ ∀ dir name d1 n d2,
        Fs.parent d c pathname = .ok (.ok (dir, name, none), d1) →
        newInode d1 ≠ .ok (some n, d2) ∨ c.suser = false) ∨
    c.suser = true ∧ ∃ dir name n, IsDir d dir ∧ Free d n
      ∧ Fs.dirNamei d c pathname = .ok (some (dir, name), iget d dir)
      ∧ Fs.parent d c pathname = .ok (.ok (dir, name, none), iget d dir)
      ∧ newInode (iget d dir) = .ok (some n, (iget d dir).fresh n)
      ∧ MakesDir d dir n name (Fs.sysMkdir d c pathname) := by
  generalize hx : Fs.sysMkdir d c pathname = x
  unfold Fs.sysMkdir at hx
  split at hx
  · rename_i hs
    exact .inl ⟨_, hx.symm, by decide, fun _ _ _ _ _ _ => .inr hs⟩
  rename_i hsuser
  rcases h.parent hroot hpwd pathname with
    ⟨code, hp, hc⟩ | ⟨dir, name, e, hp, hdir, -, hnamei⟩
  · rw [bind_of_ok hp] at hx
    refine .inl ⟨code, hx.symm, hc, fun _ _ _ _ _ hp' => ?_⟩
    rw [hp] at hp'
    cases hp'
  rw [bind_of_ok hp] at hx
  cases e with
  | some i =>
    refine .inl ⟨_, hx.symm.trans (bind_of_ok hdir.iput), by decide, fun _ _ _ _ _ hp' => ?_⟩
    rw [hp] at hp'
    cases hp'
  | none =>
    have hx : Fs.mkdirIn (iget d dir) dir name = x := hx
    rcases h.madeInode with hnew | ⟨n, hnew, hf⟩
    · unfold Fs.mkdirIn at hx
      rw [bind_of_ok hnew] at hx
      refine .inl ⟨_, hx.symm.trans (bind_of_ok hdir.iput), by decide, fun _ _ _ _ _ hp' => ?_⟩
      rw [hp] at hp'
      cases hp'
      rw [hnew]
      exact .inl nofun
    · rw [← hx]
      exact .inr ⟨(Bool.not_eq_false _).mp hsuser, dir, name, n, hdir, hf,
        hnamei, hp, hnew, h.mkdirIn hdir hf hnew⟩

/-- What `sys_mkdir` has when it comes to `add_entry`. -/
structure NewDir (v : Vol) (dir n z : Nat) (w : Vol) : Prop where
  sound : Sound w
  kept : ∀ m, m ≠ n → Kept v w m
  inode : w.inode n = ⟨.dir, 32, fun k => if k = 0 then z else 0⟩
  self : w.dirSlot n 0 = n
  parent : w.dirSlot n 1 = dir
  first : w.firstdatazone = v.firstdatazone
  held : w.held = v.held

theorem Readable.mkdirVol (h : Readable d) (hdir : IsDir d dir) (hf : Free d n)
    (hb : newBlock (d.vol.setInode n .blank) = .ok (z, v)) (h0 : z ≠ 0) :
    NewDir d.vol dir n z (Fs.mkdirVol v z n dir) := by
  have hshort := h.short
  have hn : n < 2 ^ 16 := by
    have := hf.high
    omega
  have hd : dir < 2 ^ 16 := by
    have := (live_iff.mp hdir.live).1.2
    omega
  obtain ⟨hs, hk⟩ := h.sound.setBlank n
  obtain ⟨hx, hin, -, hready, hsame⟩ := hs.newBlock hb
  have hfirst : v.firstdatazone = d.vol.firstdatazone := by
    rcases newBlock_cases hs.mounted hb with ⟨rfl, -⟩ | hfresh
    · exact absurd rfl h0
    · rw [hfresh.eq]
      rfl
  obtain ⟨hw, hkw, hiw, hs0, hs1⟩ := hx.sound.mkdirVol (hready h0) hn hd
  have hheld := newBlock_held hb
  refine ⟨hw, fun m hm => ?_, hiw, hs0, hs1, hfirst, hheld⟩
  have hkv : Kept (d.vol.setInode n .blank) v m :=
    ⟨by rw [hin], fun p hp _ => hsame p hp, fun p hp _ hl off => hx.bytes p hp hl off⟩
  exact ((hk m hm).trans hkv).trans (hkw m hm)

/-- `add_entry` of the new directory, when it returns. -/
theorem NewDir.addEntry (hp : NewDir d.vol dir n z v) (h : Readable d) (hdir : IsDir d dir)
    (hne : n ≠ dir) {r : Option (Nat × Nat)} (hadd : Fs.addEntry dir name v = .ok (r, w)) :
    (r = none ∧ NoRoom v dir w) ∨ ∃ b i, r = some (b, i) ∧ (v.inode dir).zone 0 ≠ 0
        ∧ Opened v dir b i w := by
  have hin := (hp.kept dir hne.symm).inode
  exact hp.sound.addEntry (by rw [hp.first]; exact h.first)
    (isFile_of_dir (by rw [hin]; exact hdir.mode))
    (by rw [hin]; exact h.size dir hdir.live hdir.mode) hadd

-- ======== add_entry returns

/-- A file has fewer blocks than there are zones. -/
theorem Sound.blocks_lt (h : Sound v) (hf : v.IsFile dir) (hm : m ≤ maxBlocks)
    (hz : ∀ b, b < m → v.zoneAt (blockPath dir b) ≠ 0) : m < maxBlocks := by
  have hle : (Finset.range m).card ≤ (Finset.range v.nzones).card := by
    refine Finset.card_le_card_of_injOn (fun b => v.zoneAt (blockPath dir b))
      (fun b hb => ?_) fun a ha b hb hab => ?_
    · have hb := Finset.mem_range.mp (Finset.mem_coe.mp hb)
      exact Finset.mem_coe.mpr (Finset.mem_range.mpr (h.consistent.zone _
        (counts_blockPath hf (by omega)) (hz b hb)).2.1)
    · have ha := Finset.mem_range.mp (Finset.mem_coe.mp ha)
      have hb := Finset.mem_range.mp (Finset.mem_coe.mp hb)
      exact (blockPath_inj (h.consistent.once _ _
        (counts_blockPath hf (by omega)) (counts_blockPath hf (by omega)) (hz a ha) hab)).2
  rw [Finset.card_range, Finset.card_range] at hle
  have := h.mounted.short
  unfold maxBlocks
  omega

theorem Sound.addLoop_quiet : ∀ {m z i : Nat} {v : Vol}, Sound v → 0 < v.firstdatazone → v.Quiet →
      v.IsFile dir → (v.inode dir).size ≤ 16 * maxEntries →
      (¬ (i ≠ 0 ∧ i % dirEntriesPerBlock = 0) → v.zoneAt (slotPath dir i) = z ∧ z ≠ 0) → (i = 0 ∨ 16 * (i - 1) < (v.inode dir).size) →
      (∀ b, dirEntriesPerBlock * b < i → v.zoneAt (blockPath dir b) ≠ 0) →
      ∃ r w, Fs.addLoop dir name m z i v = .ok (r, w) := by
  intro m
  induction m with
  | zero => exact fun _ _ _ _ _ _ _ _ => ⟨none, _, rfl⟩
  | succ m ih =>
    intro z i v h hfirst hq hf hs hz hedge hfull
    have hi : i < maxEntries := by
      by_cases hc : i ≠ 0 ∧ i % dirEntriesPerBlock = 0
      · have hb : i / dirEntriesPerBlock < maxBlocks := by
          refine h.blocks_lt hf ?_ fun b hb => hfull b ?_
          · unfold maxEntries maxBlocks dirEntriesPerBlock at *
            omega
          · unfold dirEntriesPerBlock at hb hc ⊢
            omega
        unfold maxEntries
        unfold dirEntriesPerBlock at hb ⊢
        omega
      · unfold maxEntries maxBlocks dirEntriesPerBlock at *
        omega
    obtain ⟨y, v1, hy⟩ : ∃ y v1, Fs.nextBlock dir z i v = .ok (y, v1) := by
      unfold Fs.nextBlock
      split
      · exact h.innerBmap_quiet hq hf (entryBlock_lt hi)
      · exact ⟨z, v, rfl⟩
    obtain ⟨hg, rfl⟩ := h.nextBlock hfirst hf hi hz hy
    have hx := hg.ext
    have hq1 := hq.of_held (nextBlock_held hy)
    have hf1 := (isFile_congr (hx.mode dir)).mpr hf
    unfold Fs.addLoop
    rw [bind_of_ok hy]
    simp only
    by_cases h0 : v1.zoneAt (slotPath dir i) = 0
    · rw [if_pos h0]
      exact ⟨_, _, rfl⟩
    rw [if_neg h0]
    have hround := (hx.sound.addRound hf1 hi rfl h0 (by rw [hx.size]; exact hedge) name).2
    split
    · exact ⟨_, _, rfl⟩
    · rename_i hused
      obtain ⟨hw, hlt⟩ := hround hused
      rw [hw]
      refine ih hx.sound (hg.first ▸ hfirst) hq1 hf1 (by rw [hx.size]; exact hs)
        (fun hc => ⟨congrArg v1.zoneAt (slotPath_succ hc), h0⟩) (.inr hlt) fun b hb => ?_
      by_cases hbi : dirEntriesPerBlock * b < i
      · have hb' : b < maxBlocks := by
          unfold maxEntries at hi
          unfold dirEntriesPerBlock at hi hbi
          omega
        rw [hx.keeps _ (counts_blockPath hf hb') (hfull b hbi)]
        exact hfull b hbi
      · -- the block of the entry itself
        have : b = i / dirEntriesPerBlock := by
          unfold dirEntriesPerBlock at hb hbi ⊢
          omega
        rw [this]
        exact h0

/-- While no buffer is held, `add_entry` does not panic. -/
theorem Sound.addEntry_quiet (h : Sound v) (hfirst : 0 < v.firstdatazone) (hq : v.Quiet)
    (hf : v.IsFile dir) (hs : (v.inode dir).size ≤ 16 * maxEntries) :
    ∃ r w, Fs.addEntry dir name v = .ok (r, w) := by
  unfold Fs.addEntry
  split
  · exact ⟨_, _, rfl⟩
  split
  · exact ⟨_, _, rfl⟩
  rename_i h0
  exact h.addLoop_quiet hfirst hq hf hs (fun _ => ⟨by rw [slotPath_zero]; rfl, h0⟩)
    (.inl rfl) fun b hb => by
      omega

end LearnLinux.Fs
