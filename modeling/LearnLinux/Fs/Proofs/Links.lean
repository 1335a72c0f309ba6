/-
Link counts, over whole runs.

`Change` says once what a call can have done to the names by the time it
returns: nothing, blocks for a directory that still has no room, a new
inode with its name, a link made or taken away, a directory made or
removed. That a good device stays good is read off these cases, and so is
the one way in which it does not: a count that stands at 255 and goes up
is 0. `open_namei` also takes a reference, and may truncate a file.
-/
import LearnLinux.Fs.Proofs.Good
import LearnLinux.Fs.Proofs.RollBack

namespace LearnLinux.Fs

open Function (update update_self update_of_ne update_apply update_idem update_comm)
open Lib

variable {d d' : Dev} {c : Caller} {dir n i k : Nat} {v w : Vol} {up : Option Nat}
variable {pathname name : Name}
variable {code : Int}

-- ======== two references

theorem iget_comm (a b : Nat) : iget (iget d a) b = iget (iget d b) a := by
  by_cases hab : a = b
  · rw [hab]
  · unfold iget Dev.setCount
    congr 1
    show update (update d.count a _) b (update d.count a _ b + 1)
      = update (update d.count b _) a (update d.count b _ a + 1)
    rw [update_of_ne (Ne.symm hab), update_of_ne hab, update_comm hab]

/-- Two references that were taken are dropped again. -/
theorem putBoth_iget {a b : Nat} (ha : 0 < d.count a ∨ d.nlinks a ≠ 0)
    (hb : 0 < d.count b ∨ d.nlinks b ≠ 0) (code : Int) :
    putBoth (iget (iget d b) a) a b code = .ok (code, d) := by
  have hfirst : iput (iget (iget d b) a) a = .ok (iget d b) := by
    refine iput_iget (ha.imp (fun h => ?_) fun h => h)
    show 0 < update d.count b (d.count b + 1) a
    rw [update_apply]
    split
    · omega
    · exact h
  unfold putBoth
  rw [bind_of_ok hfirst, bind_of_ok (iput_iget hb)]

/-- A reference to another inode does not matter to `iput`. -/
theorem iput_frame (hne : n ≠ dir) (h : iput d n = .ok d') :
    iput (iget d dir) n = .ok (iget d' dir) := by
  have hc : (iget d dir).count n = d.count n :=
    update_of_ne hne _ _
  have hset : ∀ a, (iget d dir).setCount n a = iget (d.setCount n a) dir := by
    intro a
    unfold iget Dev.setCount
    congr 1
    show update (update d.count dir _) n a
      = update (update d.count n a) dir (update d.count n a dir + 1)
    rw [update_of_ne hne.symm, update_comm hne]
  unfold iput at h ⊢
  rw [hc]
  split at h
  · cases h
  rename_i h0
  rw [if_neg h0]
  split at h
  · rename_i h1
    cases h
    rw [if_pos h1, hset]
  rename_i h1
  rw [if_neg h1]
  split at h
  · rename_i hl
    obtain ⟨u, hu, hgo⟩ := bind_eq_ok h
    refine (if_pos hl).trans ((bind_of_ok hu).trans ?_)
    unfold freeInode at hgo ⊢
    split at hgo
    · cases hgo
    rename_i h2
    split at hgo
    · cases hgo
    rename_i h3
    split at hgo
    · cases hgo
    rename_i h4
    cases hgo
    refine (if_neg h2).trans ((if_neg h3).trans ((if_neg h4).trans ?_))
    congr 1
    show Dev.mk _ _ _ _ ((iget d dir).setCount n 0).count = _
    rw [hset]
    rfl
  · rename_i hl
    cases h
    exact (if_neg hl).trans (by rw [hset])

theorem freed_iget : (iget d n).freed n v = d.freed n v := by
  show Dev.mk _ _ _ _ (update (update d.count n _) n 0) = _
  rw [update_idem]
  rfl

-- ======== what calls do

/-- The device when an entry is cleared and its inode has a link less. -/
def Dev.unlinked (d : Dev) (dir i n : Nat) : Dev :=
  (d.setVol (d.vol.setDirEntry (d.vol.zoneAt (slotPath dir i)) i 0)).setLinks n (d.nlinks n - 1)

/-- What a call can have done to the names when it returns; `up` is the
inode that was there before and has a link more. -/
inductive Change (d : Dev) : Option Nat → Dev → Prop
  | same : Change d none d
  | full {dir n : Nat} {I : Inode} {w : Vol} (isDir : IsDir d dir) (free : Free d n) (bare : I.Bare)
      (noRoom : NoRoom (d.vol.setInode n I) dir w) : Change d none (d.setVol (w.setInode n .blank))
  | fullLink {dir : Nat} {w : Vol} (isDir : IsDir d dir) (noRoom : NoRoom d.vol dir w) :
      Change d none (d.setVol w)
  | created {dir n z i : Nat} {I : Inode} {w : Vol}
      (isDir : IsDir d dir) (free : Free d n) (bare : I.Bare) (zone : (d.vol.inode dir).zone 0 ≠ 0)
      (opened : Opened (d.vol.setInode n I) dir z i w) :
      Change d none ((d.made n).setVol (w.setDirEntry z i n))
  | linked {dir n z i : Nat} {w : Vol} {d' : Dev} (isDir : IsDir d dir) (live : d.live n = true)
      (named : d.nlinks n ≠ 0) (mode : (d.vol.inode n).mode ≠ .dir)
      (zone : (d.vol.inode dir).zone 0 ≠ 0) (opened : Opened d.vol dir z i w)
      (put : iput ((iget (d.setVol (w.setDirEntry z i n)) n).setLinks n
        (d.nlinks n + 1)) n = .ok d') : Change d (some n) d'
  | unlinked {dir i n : Nat} {d' : Dev} (isDir : IsDir d dir) (entry : HasEntry d dir i)
      (slot : d.vol.dirSlot dir i = n) (mode : (d.vol.inode n).mode ≠ .dir)
      (put : iput (iget (d.unlinked dir i n) n) n = .ok d') : Change d none d'
  | madeDir {dir n z b i : Nat} {v w : Vol} {d' : Dev} (isDir : IsDir d dir) (free : Free d n)
      (zone : (d.vol.inode dir).zone 0 ≠ 0)
      (new : NewDir d.vol dir n z v) (opened : Opened v dir b i w)
      (put : putBoth ((iget ((d.fresh2 n).setVol (w.setDirEntry b i n))
        dir).setLinks dir (d.nlinks dir + 1)) dir n 0 = .ok (0, d')) : Change d (some dir) d'
  | removedDir {dir i n : Nat} {v : Vol} (removable : Removable d dir i n) (unused : d.count n = 0)
      (trunc : truncate n (d.unlinkedDir dir i n).vol = .ok v) :
      Change d none ((d.unlinkedDir dir i n).freed n v)

/-- A call that returns the device it was given has changed nothing. -/
theorem Change.back {x : Except Crash (Int × Dev)} {code' : Int} (hx : x = .ok (code, d'))
    (h : x = .ok (code', d)) : Change d none d' := by
  rw [h] at hx
  cases hx
  exact .same

-- ======== good stays good

theorem Good.mode_one (h : Good d) : (d.vol.inode 1).mode = .dir :=
  (names_eq_some.mp h.tree.root).1.2.1

/-- Where the parent's count has room, `sys_mkdir` drops its two
references. -/
theorem putBoth_madeDir (hc : d.count n = 0) (hne : n ≠ dir)
    (hl : (d.nlinks dir + 1) % 256 ≠ 0) :
    putBoth ((iget ((d.fresh2 n).setVol w) dir).setLinks dir
      (d.nlinks dir + 1)) dir n 0 = .ok (0, (d.madeDir n dir).setVol w) := by
  generalize he : ((d.fresh2 n).setVol w).setLinks dir (d.nlinks dir + 1) = e
  have hfirst : iput (iget e dir) dir = .ok e := by
    refine iput_iget (.inr ?_)
    rw [← he]
    show update _ dir _ dir ≠ 0
    rw [update_self]
    exact hl
  have hcount : e.count n = 1 := by
    rw [← he]
    exact update_self ..
  have hlinks : e.nlinks n = 2 := by
    rw [← he]
    show update (update _ n _) dir _ n = _
    rw [update_of_ne hne, update_self]
  have hsecond : iput e n = .ok ((d.madeDir n dir).setVol w) := by
    rw [iput_drop (.inr ⟨by omega, by omega⟩), hcount, ← he]
    congr 1
    show Dev.mk _ _ _ (update (update (update
        d.nlinks n _) n _) dir _) (update (update d.count n 1) n 0)
      = Dev.mk _ _ _ (update (update d.nlinks n _) dir _) d.count
    have hcounts : update d.count n 0 = d.count :=
      Function.update_eq_self_iff.mpr hc.symm
    rw [update_idem, update_idem, hcounts]
    rfl
  show putBoth (iget (((d.fresh2 n).setVol w).setLinks dir _) dir) dir n 0 = _
  rw [he]
  unfold putBoth
  rw [bind_of_ok hfirst, bind_of_ok hsecond]

/-- Where the count has room, `sys_link` drops its reference. -/
theorem iput_linked (hl : (d.nlinks n + 1) % 256 ≠ 0) :
    iput ((iget (d.setVol w) n).setLinks n (d.nlinks n + 1)) n
      = .ok ((d.setVol w).setLinks n (d.nlinks n + 1)) := by
  refine iput_iget (d := (d.setVol w).setLinks n (d.nlinks n + 1)) (.inr ?_)
  show update d.nlinks n _ n ≠ 0
  rw [update_self]
  exact hl

/-- While it is still referred to, a file may lose its last name. -/
theorem Good.unlinked (h : Good d) (hdir : IsDir d dir)
    (he : HasEntry d dir i) (hn : d.vol.dirSlot dir i = n) (hmode : (d.vol.inode n).mode ≠ .dir) :
    Good (Fs.iget (d.unlinked dir i n) n) := by
  have hlive : d.live n = true := by
    refine h.honest.alive (dir, i) n ?_
    show d.names (dir, i) = some n
    rw [hdir.names he, hn]
  refine (h.iget hlive).unlink ⟨hdir.live, hdir.mode, hdir.linked⟩
    ⟨he.size, he.bound, he.block, he.used⟩ hn hmode ?_
  show 0 < update d.count n (d.count n + 1) n
  rw [update_self]
  omega

/-- The step lemma: unless a count of 255 goes up. -/
theorem Good.change (h : Good d) (hx : Change d up d')
    (hup : ∀ n, up = some n → d.nlinks n ≠ 255) : Good d' := by
  cases hx with
  | same => exact h
  | full isDir free bare noRoom =>
    exact h.revol (h.readable.full_alike isDir free bare noRoom)
  | fullLink isDir noRoom => exact h.revol noRoom.alike
  | created isDir free bare zone opened =>
    exact h.created isDir free bare zone opened
  | @linked dir n z i w d' isDir live named mode zone opened put =>
    have h255 := hup n rfl
    have hn1 : n ≠ 1 := by
      rintro rfl
      exact mode h.mode_one
    have hne : n ≠ dir := by
      rintro rfl
      exact mode isDir.mode
    have hlink := h.link isDir zone live (fun hm => absurd hm mode) hn1 hne
      h255 (opened.entered isDir.isFile (h.readable.live_lt live)) opened.free_name
    have hbyte := h.byte n
    rw [iput_linked (by omega)] at put
    cases put
    exact hlink
  | unlinked isDir entry slot mode put =>
    exact ((h.unlinked isDir entry slot mode).iput put).1
  | @madeDir dir n z b i v w d' isDir free zone new opened put =>
    have h255 := hup dir rfl
    have hbyte := h.byte dir
    have hne := free.ne_of_live isDir.live
    have hk : Kept d.vol (d.setVol v).vol dir := new.kept dir hne.symm
    have hin : v.inode dir = _ := hk.inode
    rw [putBoth_madeDir (h.readable.free_facts free).1 hne (by omega)] at put
    cases put
    refine h.mkdir isDir free zone h255 new (opened.entered
      (isFile_of_dir (by rw [hin]; exact isDir.mode)) (free.lt h.readable)) ?_
    rw [← h.fit.names_kept hk rfl i]
    exact opened.free_name
  | removedDir removable unused trunc => exact h.rmdir removable trunc

-- ======== a count runs over

theorem iput_kept (hs : Sound d.vol) (hlive : d.live n = true) (h : iput d n = .ok d') :
    d'.nlinks = d.nlinks ∧ ∀ m, m ≠ n → Kept d.vol d'.vol m ∧ d'.live m = d.live m := by
  rcases iput_cases h with ⟨-, rfl⟩ | ⟨-, -, u, hu, rfl⟩
  · exact ⟨rfl, fun m _ => ⟨.refl _ m, rfl⟩⟩
  · obtain ⟨hs', hk, -⟩ := hs.truncate_kept hu
    have hk' := (hs'.setBlank n).2
    refine ⟨rfl, fun m hm => ⟨(hk m hm).trans (hk' m hm), ?_⟩⟩
    rw [Dev.freed_live hlive, if_neg hm]

theorem names_of_kept {x : Nat × Nat} (h : d.names x = some k)
    (hlive : d'.live x.1 = d.live x.1) (hk : Kept d.vol d'.vol x.1)
    (hb : x.2 < maxEntries) : d'.names x = some k := by
  obtain ⟨⟨hl, hm, hs, hu⟩, hslot⟩ := names_eq_some.mp h
  have hsame := hk.dirSlot (isFile_of_dir hm) hb
  refine names_eq_some.mpr ⟨⟨?_, ?_, ?_, ?_⟩, hsame.trans hslot⟩
  · rw [hlive]
    exact hl
  · rw [hk.inode]
    exact hm
  · rw [hk.inode]
    exact hs
  · rw [hsame]
    exact hu

/-- A count of 255 that goes up is 0, while the inode has its names. -/
theorem Change.overflow (h : Good d) {m : Nat}
    (hx : Change d up d') (hup : up = some m) (h255 : d.nlinks m = 255) : ¬ d'.Honest := by
  -- an entry that names what has no links
  suffices hbad : ∃ x, d'.names x = some m ∧ d'.nlinks m = 0 by
    obtain ⟨x, hxn, hl⟩ := hbad
    intro hh
    have hpos : 0 < d'.nlinks m := hh.links_pos hxn
    omega
  cases hx with
  | same => cases hup
  | full => cases hup
  | fullLink => cases hup
  | created => cases hup
  | unlinked => cases hup
  | removedDir => cases hup
  | @linked dir n z i w d' isDir live named mode zone opened put =>
    obtain rfl : n = m := Option.some.inj hup
    have hE := opened.entered isDir.isFile (h.readable.live_lt live)
    have hne : dir ≠ n := by
      rintro rfl
      exact mode isDir.mode
    have hn0 : n ≠ 0 := by
      have := (live_iff.mp live).1
      omega
    generalize he : (iget (d.setVol (w.setDirEntry z i n)) n).setLinks n (d.nlinks n + 1) = e at put
    have hvol : e.vol = w.setDirEntry z i n := by rw [← he]; rfl
    have hlive : e.live = d.live := by rw [← he]; rfl
    have hlinks : e.nlinks n = 0 := by
      rw [← he]
      show update d.nlinks n ((d.nlinks n + 1) % 256) n = 0
      rw [update_self, h255]
    rw [← hvol] at hE
    have hname : e.names (dir, i) = some n := by
      rw [h.entered_names isDir hE hlive, update_self, if_neg hn0]
    obtain ⟨hl, hk⟩ := iput_kept hE.touches.sound (by rw [hlive]; exact live) put
    refine ⟨(dir, i), ?_, by rw [hl]; exact hlinks⟩
    exact names_of_kept hname (hk dir hne).2 (hk dir hne).1 hE.bound
  | @madeDir dir n z b i v w d' isDir free zone new opened put =>
    obtain rfl : dir = m := Option.some.inj hup
    have hne := free.ne_of_live isDir.live
    have hk := new.kept dir hne.symm
    have hE := opened.entered (isFile_of_dir (by rw [hk.inode]; exact isDir.mode))
      (free.lt h.readable)
    have hnames := h.madeDir_names isDir free new hE
    generalize he : (iget ((d.fresh2 n).setVol (w.setDirEntry b i n))
      dir).setLinks dir (d.nlinks dir + 1) = e at put
    have hdotdot : e.names (n, 1) = some dir := by
      rw [← he]
      show ((d.madeDir n dir).setVol (w.setDirEntry b i n)).names (n, 1) = _
      rw [hnames, update_self]
    have hlinks : e.nlinks dir = 0 ∧ e.nlinks n = 2 := by
      rw [← he]
      refine ⟨?_, ?_⟩
      · show update (d.fresh2 n).nlinks dir ((d.nlinks dir + 1) % 256) dir = 0
        rw [update_self, h255]
      · show update (update _ n _) dir _ n = 2
        rw [update_of_ne hne, update_self]
    have hlive : e.live dir = true := by
      rw [← he]
      refine (d.made_live free dir).trans ?_
      rw [if_neg hne.symm]
      exact isDir.live
    have hsound : Sound e.vol := by
      rw [← he]
      exact hE.touches.sound
    obtain ⟨e1, h1, put⟩ := bind_eq_ok put
    obtain ⟨e2, h2, put⟩ := bind_eq_ok put
    cases put
    obtain ⟨hl, hk1⟩ := iput_kept hsound hlive h1
    have hdotdot1 : e1.names (n, 1) = some dir := by
      exact names_of_kept hdotdot (hk1 n hne).2 (hk1 n hne).1 (dot_lt Nat.one_lt_two)
    rcases iput_cases h2 with ⟨-, rfl⟩ | ⟨-, h0, -⟩
    · refine ⟨(n, 1), hdotdot1, ?_⟩
      show e1.nlinks dir = 0
      rw [hl]
      exact hlinks.1
    · rw [hl, hlinks.2] at h0
      cases h0

-- ======== the calls

theorem parent_ok {r : Except Int (Nat × Name × Option Nat) × Dev}
    (h : parent d c pathname = .ok r) : d.count c.root ≠ 0 ∧ d.count c.pwd ≠ 0 := by
  obtain ⟨r', hr, -⟩ := bind_eq_ok h
  exact dirNamei_ok hr

/-- What a creation of a file has done. -/
theorem Makes.change {α : Type} {bad good : α} {I : Inode}
    {x : Except Crash (α × Dev)} {r : α × Dev} (h : Good d) (hdir : IsDir d dir) (hf : Free d n)
    (hm : Makes d dir n I name bad good ((d.made n).setCount n k) x) (hx : x = .ok r) :
    (r.1 = bad ∧ Change d none r.2) ∨ r.1 = good ∧ ∃ e, Change d none e
      ∧ e.live n = true ∧ e.count n = 0 ∧ r.2 = e.setCount n k := by
  have hne := hf.ne_of_live hdir.live
  cases hadd : addEntry dir name (d.vol.setInode n I) with
  | error p =>
    rw [hm.crash p hadd] at hx
    cases hx
  | ok a =>
    obtain ⟨o, w⟩ := a
    obtain ⟨hs, hk⟩ := h.readable.sound.setBare hm.bare n
    have hin := (hk dir hne.symm).inode
    rcases hs.addEntry h.readable.first
      (isFile_of_dir (by rw [hin]; exact hdir.mode))
      (by rw [hin]; exact h.readable.size dir hdir.live hdir.mode) hadd with
      ⟨rfl, hg⟩ | ⟨z, i, rfl, hz, ho⟩
    · rw [hm.full w hadd] at hx
      cases hx
      exact .inl ⟨rfl, .full hdir hf hm.bare hg⟩
    · rw [hm.made z i w hadd] at hx
      cases hx
      rw [hin] at hz
      refine .inr ⟨rfl, _, .created hdir hf hm.bare hz ho, ?_, (h.readable.free_facts hf).1, rfl⟩
      exact (d.made_live hf n).trans (if_pos rfl)

theorem Good.sysMknod (h : Good d) {mode : Mode} {dev : Option Nat}
    (hx : Fs.sysMknod d c pathname mode dev = .ok (code, d')) : Change d none d' := by
  by_cases hs : c.suser = false
  · unfold Fs.sysMknod at hx
    rw [if_pos hs] at hx
    cases hx
    exact .same
  have hrefs : d.count c.root ≠ 0 ∧ d.count c.pwd ≠ 0 := by
    unfold Fs.sysMknod at hx
    rw [if_neg hs] at hx
    obtain ⟨r, hr, -⟩ := bind_eq_ok hx
    exact parent_ok hr
  rcases h.readable.sysMknod hrefs.1 hrefs.2 pathname mode dev with
    ⟨code', hx', -⟩ | ⟨dir, name, n, hdir, hf, -, hm⟩
  · exact .back hx hx'
  · have hcount : (d.made n).setCount n 0 = d.made n := by
      have h0 := (h.readable.free_facts hf).1
      rw [← h0]
      exact setCount_self
    rw [← hcount] at hm
    rcases hm.change h hdir hf hx with ⟨-, hch⟩ | ⟨-, e, hch, -, hc, he⟩
    · exact hch
    · rw [← hc, setCount_self] at he
      have he : d' = e := he
      rw [he]
      exact hch

/-- `open_namei`: with an error nothing is held; otherwise there is one
reference more, to an inode that was there, is new, or was truncated. -/
theorem Good.openNamei (h : Good d) {flags : OpenFlags} {r : Except Int Nat}
    (hx : Fs.openNamei d c pathname flags = .ok (r, d')) :
    ((∃ code, r = .error code) ∧ Change d none d') ∨
    ∃ m e, r = .ok m ∧ d' = Fs.iget e m ∧ e.live m = true ∧
      (Change d none e ∨ flags.trunc = true ∧ d.nlinks m ≠ 0 ∧
        (d.vol.inode m).mode ≠ .dir ∧ ∃ v, truncate m d.vol = .ok v ∧ e = d.setVol v) := by
  have hrefs : d.count c.root ≠ 0 ∧ d.count c.pwd ≠ 0 := by
    obtain ⟨r', hr, -⟩ := bind_eq_ok hx
    exact dirNamei_ok hr
  rcases h.readable.openNamei hrefs.1 hrefs.2 pathname flags with
    ⟨code, hx', -⟩ | ⟨dir, name, n, hdir, hf, -, hm⟩ | ⟨m, v, hx', hlive, hl, hv⟩
  · rw [hx] at hx'
    cases hx'
    exact .inl ⟨⟨code, rfl⟩, .same⟩
  · rcases hm.change h hdir hf hx with ⟨hr, hch⟩ | ⟨hr, e, hch, hl, hc, he⟩
    · exact .inl ⟨⟨_, hr⟩, hch⟩
    · refine .inr ⟨n, e, hr, ?_, hl, .inl hch⟩
      unfold Fs.iget
      rw [hc]
      exact he
  · rw [hx] at hx'
    cases hx'
    refine .inr ⟨m, d.setVol v, rfl, rfl, hlive, ?_⟩
    rcases hv with rfl | ⟨htrunc, hmode, hv⟩
    · exact .inl .same
    · exact .inr ⟨htrunc, hl, hmode, v, hv, rfl⟩

/-- A file is truncated. -/
theorem Good.truncated (h : Good d) (hmode : (d.vol.inode n).mode ≠ .dir)
    (ht : truncate n d.vol = .ok v) : Good (d.setVol v) := by
  obtain ⟨hs, hk, hfirst, hsame⟩ := h.readable.sound.truncate_kept ht
  exact h.revol (alike_of_kept hs hfirst hk hmode hsame)

/-- `sys_mkdir`: with an error no count has gone up, and otherwise that of
the directory the new one is in. -/
theorem Good.sysMkdir (h : Good d) (hx : Fs.sysMkdir d c pathname = .ok (code, d')) :
    (code < 0 ∧ Change d none d') ∨ code = 0 ∧ ∃ dir name,
      Fs.parent d c pathname = .ok (.ok (dir, name, none), Fs.iget d dir)
        ∧ Change d (some dir) d' := by
  by_cases hs : c.suser = false
  · unfold Fs.sysMkdir at hx
    rw [if_pos hs] at hx
    cases hx
    exact .inl ⟨by decide, .same⟩
  have hrefs : d.count c.root ≠ 0 ∧ d.count c.pwd ≠ 0 := by
    unfold Fs.sysMkdir at hx
    rw [if_neg hs] at hx
    obtain ⟨r, hr, -⟩ := bind_eq_ok hx
    exact parent_ok hr
  rcases h.readable.sysMkdir hrefs.1 hrefs.2 pathname with
    ⟨code', hx', hc, -⟩ | ⟨-, dir, name, n, hdir, hf, -, hparent, -, hm⟩
  · rw [hx] at hx'
    cases hx'
    exact .inl ⟨hc, .same⟩
  have hne := hf.ne_of_live hdir.live
  have hblank := h.readable.sound.setBlank n
  cases hb : newBlock (d.vol.setInode n .blank) with
  | error p =>
    rw [hm.crash p hb] at hx
    cases hx
  | ok a =>
    obtain ⟨z, v⟩ := a
    by_cases h0 : z = 0
    · subst h0
      rw [hm.noBlock v hb] at hx
      cases hx
      obtain rfl := newBlock_zero hblank.1 h.readable.first hb
      exact .inl ⟨by decide, .full hdir hf (.inl rfl) (.refl hblank.1 dir)⟩
    have hp := h.readable.mkdirVol hdir hf hb h0
    have hin := (hp.kept dir hne.symm).inode
    cases hadd : addEntry dir name (Fs.mkdirVol v z n dir) with
    | error p =>
      rw [hm.crash' z v p hb h0 hadd] at hx
      cases hx
    | ok a =>
      obtain ⟨o, w⟩ := a
      rcases hp.addEntry h.readable hdir hne hadd with ⟨rfl, -⟩ | ⟨b, i, rfl, hz, ho⟩
      · -- the call panics
        rw [hm.stuck h.readable hdir hf hb h0 hadd] at hx
        cases hx
      · rw [hm.made z v b i w hb h0 hadd] at hx
        have hcode : code = 0 := by
          obtain ⟨e1, -, hx⟩ := bind_eq_ok hx
          obtain ⟨e2, -, hx⟩ := bind_eq_ok hx
          cases hx
          rfl
        subst hcode
        rw [hin] at hz
        exact .inr ⟨rfl, dir, name, hparent, .madeDir hdir hf hz hp ho hx⟩

/-- The inode of an entry that was found. -/
theorem Good.entry_inode (h : Good d) (hdir : IsDir d dir) (he : HasEntry d dir i) :
    d.live (d.vol.dirSlot dir i) = true ∧ d.nlinks (d.vol.dirSlot dir i) ≠ 0 :=
  h.readable.named _ _ (hdir.names he)

theorem HasEntry.inodeNr (h : HasEntry d dir i) :
    ((Fs.iget d dir).vol.data ((Fs.iget d dir).vol.zoneAt (slotPath dir i))).inodeNr
      (i % dirEntriesPerBlock) = d.vol.dirSlot dir i :=
  (dirSlot_of_block rfl h.block).symm

theorem Good.unlinkAt (h : Good d) (hdir : IsDir d dir) (he : HasEntry d dir i)
    (hx : Fs.unlinkAt (Fs.iget d dir) c dir i = .ok (code, d')) : Change d none d' := by
  obtain ⟨hlive, hl⟩ := h.entry_inode hdir he
  unfold Fs.unlinkAt at hx
  rw [bind_of_ok (entryBlock_eq he.bound)] at hx
  simp only [he.inodeNr] at hx
  generalize hn : d.vol.dirSlot dir i = n at *
  have hback : putBoth (Fs.iget (Fs.iget d dir) n) n dir (-EPERM) = .ok (-EPERM, d) :=
    putBoth_iget (.inr hl) (.inr hdir.linked) _
  split at hx
  · rw [iget_comm] at hx
    exact .back hx (putBoth_iget (.inr hdir.linked) (.inr hl) _)
  split at hx
  · exact .back hx hback
  rename_i hmode
  have hne : n ≠ dir := by
    rintro rfl
    exact hmode hdir.mode
  have hl0 : (Fs.iget (Fs.iget d dir) n).nlinks n ≠ 0 := hl
  rw [if_neg hl0] at hx
  -- what is left is to drop the file, and then the directory
  have hput : ∃ e, Fs.iput (Fs.iget (d.unlinked dir i n) n) n = .ok e := by
    have hE := he.cleared h.readable.sound hdir.isFile
    refine iput_returns hE.touches.sound hlive ?_
    show update d.count n (d.count n + 1) n ≠ 0
    rw [update_self]
    omega
  obtain ⟨e, he'⟩ := hput
  have hx : putBoth (Fs.iget (Fs.iget (d.unlinked dir i n) dir) n) n dir 0 = .ok (code, d') := hx
  have hlast : Fs.iput (Fs.iget e dir) dir = .ok e := by
    refine iput_iget (.inr ?_)
    have hkeep : e.nlinks dir = (d.unlinked dir i n).nlinks dir := by
      rcases iput_cases he' with ⟨-, rfl⟩ | ⟨-, -, u, -, rfl⟩
      · rfl
      · rfl
    rw [hkeep]
    show update d.nlinks n _ dir ≠ 0
    rw [update_of_ne hne.symm]
    exact hdir.linked
  rw [iget_comm] at hx
  unfold putBoth at hx
  rw [bind_of_ok (iput_frame hne he'), bind_of_ok hlast] at hx
  cases hx
  exact .unlinked hdir he hn hmode he'

theorem Good.sysUnlink (h : Good d)
    (hx : Fs.sysUnlink d c pathname = .ok (code, d')) : Change d none d' := by
  have hrefs : d.count c.root ≠ 0 ∧ d.count c.pwd ≠ 0 := by
    obtain ⟨r, hr, -⟩ := bind_eq_ok hx
    exact parent_ok hr
  unfold Fs.sysUnlink at hx
  rcases h.readable.parent hrefs.1 hrefs.2 pathname with
    ⟨code', hp, -⟩ | ⟨dir, name, e, hp, hdir, hspec, -⟩
  · exact .back hx (bind_of_ok hp)
  rw [bind_of_ok hp] at hx
  cases e with
  | none => exact .back hx (bind_of_ok hdir.iput)
  | some i => exact h.unlinkAt hdir (hspec i rfl) hx

-- -------------------------------------------------------------- sys_rmdir

theorem emptyLoop_true {ino : Nat} : ∀ {m i : Nat}, i + m ≤ maxEntries →
    emptyLoop d ino m i = .ok true → ∀ j, i ≤ j → j < i + m → d.vol.dirSlot ino j = 0 := by
  intro m
  induction m with
  | zero =>
    intro i _ _ j hij hj
    omega
  | succ m ih =>
    intro i hb h j hij hj
    unfold emptyLoop at h
    rw [bind_of_ok (entryBlock_eq (by omega))] at h
    split at h
    · cases h
    rename_i h0
    split at h
    · cases h
    rename_i hfree
    by_cases hji : j = i
    · rw [hji, dirSlot_of_block rfl h0]
      exact not_not.mp hfree
    · exact ih (by omega) h j (by omega) (by omega)

/-- `empty_dir`: the first entry is the directory itself, the second is
used, and the others are free. -/
theorem emptyDir_true (hs : (d.vol.inode n).size ≤ 16 * maxEntries) (h : emptyDir d n = .ok true) :
    16 ≤ (d.vol.inode n).size ∧ d.vol.dirSlot n 0 = n ∧
      ∀ j, 2 ≤ j → 16 * (j + 1) ≤ (d.vol.inode n).size → d.vol.dirSlot n j = 0 := by
  unfold emptyDir at h
  simp only at h
  split at h
  · cases h
  rename_i hlen
  split at h
  · cases h
  rename_i hdots
  have hz : (d.vol.inode n).zone 0 ≠ 0 := fun hc => hlen (.inr hc)
  refine ⟨by omega, ?_, fun j hj hjs => ?_⟩
  · rw [dirSlot_of_block (slotPath_zero ▸ rfl) hz]
    exact not_not.mp fun hc => hdots (.inl hc)
  · exact emptyLoop_true (by omega) h j hj (by omega)

theorem Good.rmdirAt (h : Good d) (hdir : IsDir d dir) (he : HasEntry d dir i)
    (hx : Fs.rmdirAt (Fs.iget d dir) c dir i = .ok (code, d')) : Change d none d' := by
  obtain ⟨hlive, hl⟩ := h.entry_inode hdir he
  unfold Fs.rmdirAt at hx
  rw [bind_of_ok (entryBlock_eq he.bound)] at hx
  simp only [he.inodeNr] at hx
  generalize hn : d.vol.dirSlot dir i = n at *
  have hback : ∀ code, putBoth (Fs.iget (Fs.iget d dir) n) n dir code = .ok (code, d) :=
    putBoth_iget (.inr hl) (.inr hdir.linked)
  have hback' : ∀ code, putBoth (Fs.iget (Fs.iget d dir) n) dir n code = .ok (code, d) := by
    rw [iget_comm]
    exact putBoth_iget (.inr hdir.linked) (.inr hl)
  split at hx
  · exact .back hx (hback' _)
  split at hx
  · exact .back hx (hback' _)
  rename_i hcount
  split at hx
  · exact .back hx (hback _)
  rename_i hne
  split at hx
  · exact .back hx (hback _)
  rename_i hmode
  have hmode : (d.vol.inode n).mode = .dir := not_not.mp hmode
  have hunused : d.count n = 0 := by
    have hc : (Fs.iget (Fs.iget d dir) n).count n = d.count n + 1 := by
      show update (Fs.iget d dir).count n ((Fs.iget d dir).count n + 1) n = _
      rw [update_self]
      exact congrArg (· + 1) (update_of_ne hne _ _)
    omega
  obtain ⟨empty, hempty, hx⟩ := bind_eq_ok hx
  split at hx
  · exact .back hx (hback _)
  rename_i htrue
  rw [Bool.not_eq_false] at htrue
  rw [htrue] at hempty
  obtain ⟨h16, hself, hfree⟩ := emptyDir_true
    (d := Fs.iget (Fs.iget d dir) n) (h.readable.size n hlive hmode) hempty
  have hself : d.vol.dirSlot n 0 = n := hself
  have hn0 : n ≠ 0 := by
    have := (live_iff.mp hlive).1
    omega
  have hr : Removable d dir i n := by
    refine ⟨hdir, he, hn, hmode, hne, ?_, fun j hj => ?_⟩
    · have hdot : d.names (n, 0) = some n :=
        names_eq_some.mpr ⟨⟨hlive, hmode, h16, by rw [hself]; exact hn0⟩, hself⟩
      rw [hdot]
      exact nofun
    · exact names_eq_none fun hc => hc.2.2.2 (hfree j hj hc.2.2.1)
  obtain ⟨-, hld⟩ := h.rmdir_links hr
  have hbyte := h.byte dir
  -- the directory keeps a name, and `n` goes
  have hx : putBoth (Fs.iget (Fs.iget (d.unlinkedDir dir i n) dir) n) dir n 0 = .ok (code, d') := by
    refine Eq.trans ?_ hx
    show putBoth _ dir n 0 = putBoth ((((Fs.iget (Fs.iget d dir) n).setVol
      _).setLinks n 0).setLinks dir (update d.nlinks n 0 dir + 255)) dir n 0
    rw [update_of_ne (Ne.symm hne)]
    rfl
  have hfirst : Fs.iput (Fs.iget (Fs.iget (d.unlinkedDir dir i n) n) dir) dir
      = .ok (Fs.iget (d.unlinkedDir dir i n) n) := by
    refine iput_iget (.inr ?_)
    show update (update d.nlinks n 0) dir ((d.nlinks dir + 255) % 256) dir ≠ 0
    rw [update_self]
    omega
  have hE := he.cleared h.readable.sound hdir.isFile
  have hc1 : (Fs.iget (d.unlinkedDir dir i n) n).count n = 1 := by
    show update d.count n (d.count n + 1) n = 1
    rw [update_self, hunused]
  have hl0 : (Fs.iget (d.unlinkedDir dir i n) n).nlinks n = 0 := by
    show update (update d.nlinks n _) dir _ n = 0
    rw [update_of_ne hne, update_self]
  obtain ⟨e, he'⟩ := iput_returns
    (d := Fs.iget (d.unlinkedDir dir i n) n) hE.touches.sound hlive (by omega)
  rw [iget_comm] at hx
  unfold putBoth at hx
  rw [bind_of_ok hfirst, bind_of_ok he'] at hx
  cases hx
  rcases iput_cases he' with ⟨hc, -⟩ | ⟨-, -, u, hu, rfl⟩
  · omega
  · rw [freed_iget]
    exact .removedDir hr hunused hu

theorem Good.sysRmdir (h : Good d)
    (hx : Fs.sysRmdir d c pathname = .ok (code, d')) : Change d none d' := by
  unfold Fs.sysRmdir at hx
  split at hx
  · cases hx
    exact .same
  have hrefs : d.count c.root ≠ 0 ∧ d.count c.pwd ≠ 0 := by
    obtain ⟨r, hr, -⟩ := bind_eq_ok hx
    exact parent_ok hr
  rcases h.readable.parent hrefs.1 hrefs.2 pathname with
    ⟨code', hp, -⟩ | ⟨dir, name, e, hp, hdir, hspec, -⟩
  · exact .back hx (bind_of_ok hp)
  rw [bind_of_ok hp] at hx
  cases e with
  | none => exact .back hx (bind_of_ok hdir.iput)
  | some i => exact h.rmdirAt hdir (hspec i rfl) hx

-- --------------------------------------------------------------- sys_link

theorem Good.linkIn (h : Good d) (hlive : d.live n = true)
    (hl : d.nlinks n ≠ 0) (hmode : (d.vol.inode n).mode ≠ .dir) (hdir : IsDir d dir)
    (hx : Fs.linkIn (Fs.iget (Fs.iget d n) dir) c n dir name = .ok (code, d')) :
    (code < 0 ∧ Change d none d') ∨ code = 0 ∧ Change d (some n) d' := by
  have hback : ∀ code w, putBoth ((Fs.iget (Fs.iget d n) dir).setVol w) dir n
      code = .ok (code, d.setVol w) := fun code w =>
    putBoth_iget (d := d.setVol w) (.inr hdir.linked) (.inr hl) code
  unfold Fs.linkIn at hx
  split at hx
  · rw [iget_comm, putBoth_iget (.inr hl) (.inr hdir.linked)] at hx
    cases hx
    exact .inl ⟨by decide, .same⟩
  split at hx
  · have hx := (hback (-EACCES) d.vol).symm.trans hx
    cases hx
    exact .inl ⟨by decide, .same⟩
  obtain ⟨e, hfind, hx⟩ := bind_eq_ok hx
  cases e with
  | some i =>
    have hx := (hback (-EEXIST) d.vol).symm.trans hx
    cases hx
    exact .inl ⟨by decide, .same⟩
  | none =>
    obtain ⟨r, hr, hx⟩ := bind_eq_ok hx
    cases hadd : addEntry dir name d.vol with
    | error p =>
      rw [enter_error (d := Fs.iget (Fs.iget d n) dir) hadd] at hr
      cases hr
    | ok a =>
      obtain ⟨o, w⟩ := a
      rcases h.readable.sound.addEntry h.readable.first hdir.isFile
        (h.readable.size dir hdir.live hdir.mode) hadd with
        ⟨rfl, hg⟩ | ⟨z, i, rfl, hz, ho⟩
      · rw [enter_full (d := Fs.iget (Fs.iget d n) dir) hadd] at hr
        cases hr
        have hx := (hback (-ENOSPC) w).symm.trans hx
        cases hx
        exact .inl ⟨by decide, .fullLink hdir hg⟩
      · rw [enter_done (d := Fs.iget (Fs.iget d n) dir) hadd] at hr
        cases hr
        have hput : Fs.iput (Fs.iget (Fs.iget (d.setVol (w.setDirEntry z i n)) n) dir) dir
            = .ok (Fs.iget (d.setVol (w.setDirEntry z i n)) n) :=
          iput_iget (.inr hdir.linked)
        have hx := (bind_of_ok hput).symm.trans hx
        obtain ⟨e2, h2, hx⟩ := bind_eq_ok hx
        cases hx
        exact .inr ⟨rfl, .linked hdir hlive hl hmode hz ho h2⟩

/-- `sys_link`: with an error no count has gone up, and otherwise that of
the inode the old name leads to. -/
theorem Good.sysLink (h : Good d) {oldname newname : Name}
    (hx : Fs.sysLink d c oldname newname = .ok (code, d')) :
    (code < 0 ∧ Change d none d') ∨ code = 0 ∧ ∃ n, Fs.namei d c oldname = .ok (some n, Fs.iget d n)
        ∧ Change d (some n) d' := by
  have hrefs : d.count c.root ≠ 0 ∧ d.count c.pwd ≠ 0 := by
    obtain ⟨r, hr, -⟩ := bind_eq_ok hx
    obtain ⟨r', hr', -⟩ := bind_eq_ok hr
    exact dirNamei_ok hr'
  unfold Fs.sysLink at hx
  rcases h.readable.namei hrefs.1 hrefs.2 oldname with
    hr | ⟨n, hr, hlive, hl⟩
  · rw [bind_of_ok hr] at hx
    cases hx
    exact .inl ⟨by decide, .same⟩
  rw [bind_of_ok hr] at hx
  have hput : Fs.iput (Fs.iget d n) n = .ok d := iput_iget (.inr hl)
  simp only at hx
  split at hx
  · rw [bind_of_ok hput] at hx
    cases hx
    exact .inl ⟨by decide, .same⟩
  rename_i hmode
  obtain ⟨r, hr', hx⟩ := bind_eq_ok hx
  obtain ⟨hroot, hpwd⟩ := dirNamei_ok hr'
  rcases (h.iget hlive).readable.dirNamei hroot hpwd newname with
    hr'' | ⟨dir, name, hr'', hdir⟩
  · rw [hr''] at hr'
    cases hr'
    have hx := (bind_of_ok hput).symm.trans hx
    cases hx
    exact .inl ⟨by decide, .same⟩
  · rw [hr''] at hr'
    cases hr'
    rcases h.linkIn hlive hl hmode ⟨hdir.live, hdir.mode, hdir.linked⟩ hx with
      hfail | ⟨hc, hch⟩
    · exact .inl hfail
    · exact .inr ⟨hc, n, hr, hch⟩

-- ======== the runs

/-- What a call has done to the names, and that it fits exactly if no count
of 255 has gone up. -/
theorem Good.exec (h : Good d) {o : LinkOp} (hs : o.step d = some d') :
    (o.Fits d ∧ Good d') ∨ ∃ n, Change d (some n) d' ∧ (o.Fits d ↔ d.nlinks n ≠ 255) := by
  have hgood : ∀ {e}, Change d none e → Good e := fun hch =>
    h.change hch fun n hc => by cases hc
  have hx := ok_of_toOption hs
  cases o with
  | openNamei c pathname flags =>
    obtain ⟨⟨r, e⟩, hr, hx⟩ := bind_eq_ok hx
    cases hx
    refine .inl ⟨trivial, ?_⟩
    rcases h.openNamei hr with
      ⟨-, hch⟩ | ⟨m, e, -, rfl, hl, hch | ⟨-, -, hmode, v, hv, rfl⟩⟩
    · exact hgood hch
    · exact (hgood hch).iget hl
    · exact (h.truncated hmode hv).iget hl
  | sysMknod c pathname mode dev =>
    obtain ⟨⟨r, e⟩, hr, hx⟩ := bind_eq_ok hx
    cases hx
    exact .inl ⟨trivial, hgood (h.sysMknod hr)⟩
  | sysMkdir c pathname =>
    obtain ⟨⟨code, e⟩, hr, hx⟩ := bind_eq_ok hx
    cases hx
    rcases h.sysMkdir hr with ⟨hc, hch⟩ | ⟨rfl, dir, name, hp, hch⟩
    · refine .inl ⟨fun dir name d1 d2 _ h0 => ?_, hgood hch⟩
      rw [hr] at h0
      cases h0
      omega
    · refine .inr ⟨dir, hch, fun hfit => hfit dir name _ _ hp hr, ?_⟩
      intro h255 dir' name' d1 d2 hp' _
      rw [hp] at hp'
      cases hp'
      exact h255
  | sysRmdir c pathname =>
    obtain ⟨⟨r, e⟩, hr, hx⟩ := bind_eq_ok hx
    cases hx
    exact .inl ⟨trivial, hgood (h.sysRmdir hr)⟩
  | sysUnlink c pathname =>
    obtain ⟨⟨r, e⟩, hr, hx⟩ := bind_eq_ok hx
    cases hx
    exact .inl ⟨trivial, hgood (h.sysUnlink hr)⟩
  | sysLink c oldname newname =>
    obtain ⟨⟨code, e⟩, hr, hx⟩ := bind_eq_ok hx
    cases hx
    rcases h.sysLink hr with ⟨hc, hch⟩ | ⟨rfl, n, hp, hch⟩
    · refine .inl ⟨fun n d1 d2 _ h0 => ?_, hgood hch⟩
      rw [hr] at h0
      cases h0
      omega
    · refine .inr ⟨n, hch, fun hfit => hfit n _ _ hp hr, ?_⟩
      intro h255 m d1 d2 hp' _
      rw [hp] at hp'
      cases hp'
      exact h255
  | iput ino => exact .inl ⟨trivial, (h.iput hx).1⟩

theorem Good.step (h : Good d) {o : LinkOp} (hfit : o.Fits d)
    (hs : o.step d = some d') : Good d' := by
  rcases h.exec hs with ⟨-, hg⟩ | ⟨n, hch, hiff⟩
  · exact hg
  · refine h.change hch fun m hm => ?_
    cases hm
    exact hiff.mp hfit

theorem fits_of_honest (h : Good d) {o : LinkOp} (hs : o.step d = some d')
    (hh : d'.Honest) : o.Fits d := by
  rcases h.exec hs with ⟨hfit, -⟩ | ⟨n, hch, hiff⟩
  · exact hfit
  · exact hiff.mpr fun h255 => hch.overflow h rfl h255 hh

/-- In a run of calls from a good device, the count of links of every
allocated inode is the number of directory entries that name it and
whatever an entry names is allocated, in every state the run goes through,
exactly if no link to an inode, and no directory in a directory, is made
where there are 255 links already. -/
theorem link_counts_honest_iff (h : Good d) {ops : List LinkOp}
    (hrun : runOps LinkOp.step ops d = some d') : Meets LinkOp.step LinkOp.Fits ops d ↔
      ∀ ops₁ ops₂ e, ops = ops₁ ++ ops₂ → runOps LinkOp.step ops₁ d = some e → e.Honest :=
  meets_iff_states (fun _ _ _ hg hfit hs => hg.step hfit hs)
    (fun _ hg => hg.honest) (fun _ _ _ hg hs hh => fits_of_honest hg hs hh) hrun h

/-- A file gets a second name and loses the first, and a directory comes
and goes. -/
def someCalls : List LinkOp :=
  [.sysLink rootCaller [97, 66] [120], .sysUnlink rootCaller [97, 66],
    .sysMkdir rootCaller [121], .sysRmdir rootCaller [121]]

theorem link_counts_honest_iff_calls : ∃ d',
    runOps LinkOp.step someCalls (linkedDev 1 5 .emptyFile) = some d' ∧
      (Meets LinkOp.step LinkOp.Fits someCalls (linkedDev 1 5 .emptyFile) ↔
        ∀ ops₁ ops₂ e, someCalls = ops₁ ++ ops₂ →
          runOps LinkOp.step ops₁ (linkedDev 1 5 .emptyFile) = some e →
          e.Honest) := by
  have hgood : Good (linkedDev 1 5 .emptyFile) :=
    good_linkedDev (fun _ => rfl) (by omega) (by omega) (by omega) (by omega)
      nofun nofun
  exact exists_run (fun _ => True) (by decide +kernel) fun d' hd' _ =>
    link_counts_honest_iff hgood hd'

/-- A file with 255 names gets one more: its count is 0, and `iput` frees
it. -/
theorem link_to_255_frees_named_inode : ¬ ∀ (d d' : Dev)
    (ops : List LinkOp), Good d → runOps LinkOp.step ops d = some d' →
      d'.Honest := by
  intro hall
  have hgood : Good (linkedDev 255 2 .emptyFile) :=
    good_linkedDev (fun _ => rfl) (by omega) (by omega) (by omega) (by omega)
      nofun nofun
  have hbad : ∃ d', runOps LinkOp.step [.sysLink rootCaller [97, 66] [120]]
      (linkedDev 255 2 .emptyFile) = some d' ∧ true = false :=
    exists_run (fun d' => d'.names (1, 257) = some 2 ∧ d'.live 2 = false) (by decide +kernel)
      fun d' hd' hx => ((hall _ d' _ hgood hd').alive _ _ hx.1).symm.trans hx.2
  simp at hbad

end LearnLinux.Fs
