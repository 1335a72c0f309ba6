/-
An open file outlives its name.

Two counts decide about an inode. That of its links is looked after by the
link graph (`Good`); that of its references is at least the number of open
entries of the file table that hold it (`OpenInv.refs`), so that no inode
of an open file is ever out of use. What a call does to the names leaves
the zones of every inode that stays in use where they are (`Stays`), and
the bytes of every file.
-/
import LearnLinux.Fs.OpenFiles
import LearnLinux.Fs.Proofs.FileTable
import LearnLinux.Fs.Proofs.Links

namespace LearnLinux.Fs

open Function (update update_self update_of_ne update_apply update_idem update_eq_self)
open Lib

variable {d d' : Dev} {c : Caller} {dir n m : Nat} {v v₁ v' w : Vol} {up : Option Nat}

-- ======== what stays

/-- A file that is kept reads as before. -/
theorem Kept.readLoop (h : Kept v v' n) (hf : v.IsFile n) :
    ∀ k pos left, readLoop n v' k pos left = readLoop n v k pos left := by
  intro k
  induction k with
  | zero => exact fun _ _ => rfl
  | succ k ih =>
    intro pos left
    unfold Fs.readLoop
    split
    · rfl
    by_cases hb : pos / blockSize < maxBlocks
    · have hc := counts_blockPath hf hb
      have hz := h.zones _ hc base_blockPath
      have hbytes := h.bytes _ hc base_blockPath leaf_blockPath
      have hdata : ∀ off, (if v.zoneAt (blockPath n (pos / blockSize)) = 0
          then 0 else v'.data (v.zoneAt (blockPath n (pos / blockSize))) off)
          = if v.zoneAt (blockPath n (pos / blockSize)) = 0 then 0
            else v.data (v.zoneAt (blockPath n (pos / blockSize))) off := by
        intro off
        have := hbytes off
        unfold Vol.byteAt at this
        rw [hz] at this
        exact this
      rw [bind_of_ok (bmap_eq hb), bind_of_ok (bmap_eq hb)]
      simp only [hz, hdata, ih]
    · have hbig : ∀ u : Vol, bmap n (pos / blockSize) u = .error .tooBig :=
        fun u => if_pos (Nat.not_lt.mp hb)
      rw [hbig, hbig]
      rfl

theorem Kept.sysRead (h : Kept v v' n) (hf : v.IsFile n) (filp : Filp)
    (count : Nat) : sysRead n filp count v' = sysRead n filp count v := by
  unfold Fs.sysRead
  simp only [h.inode]
  split
  · rfl
  · unfold fileRead
    rw [h.readLoop hf]

/-- An inode that stays: its zones are not given to others, and unless it
is a directory nothing about it changes. -/
structure Stays (v v' : Vol) (n : Nat) : Prop where
  mode : (v'.inode n).mode = (v.inode n).mode
  zones : ∀ p, Counts v p → p.base.1 = n → v.zoneAt p ≠ 0 → v'.zoneAt p = v.zoneAt p
  kept : (v.inode n).mode ≠ .dir → Kept v v' n

theorem Kept.stays (h : Kept v v' n) : Stays v v' n :=
  ⟨by rw [h.inode], fun p hp hb _ => h.zones p hp hb, fun _ => h⟩

theorem Stays.trans (h : Stays v v₁ n) (h' : Stays v₁ v' n) : Stays v v' n where
  mode := h'.mode.trans h.mode
  zones p hp hb h0 := by
    have h1 := h.zones p hp hb h0
    have hc : Counts v₁ p := (counts_mode (by rw [hb, h.mode])).mpr hp
    rw [h'.zones p hc hb (by rw [h1]; exact h0), h1]
  kept hm := (h.kept hm).trans (h'.kept (by rw [h.mode]; exact hm))

theorem Touches.stays (h : Touches v dir v') (hdir : (v.inode dir).mode = .dir)
    (n : Nat) : Stays v v' n := by
  refine ⟨h.modes n, fun p hp _ h0 => h.zones p hp h0, fun hm => h.kept n ?_⟩
  rintro rfl
  exact hm hdir

/-- `iput`, as far as an inode goes that stays in use. -/
theorem Good.iput_stays (h : Good d) (hput : Fs.iput d n = .ok d')
    (hm : d'.live m = true) : Stays d.vol d'.vol m := by
  obtain ⟨-, -, -, -, hk, -, hself⟩ := h.iput hput
  by_cases hmn : m = n
  · rcases hself with ⟨-, hvol⟩ | ⟨hdead, -⟩
    · rw [hvol]
      exact (Kept.refl _ m).stays
    · rw [hmn, hdead] at hm
      cases hm
  · exact (hk m hmn).stays

/-- A reference that is taken and dropped. -/
theorem update_back (f : Nat → Nat) :
    update (update f n (f n + 1)) n (update f n (f n + 1) n - 1) = f := by
  rw [update_idem, update_self, Nat.add_sub_cancel, update_eq_self]

/-- Whatever a call does to the names, no reference is taken or dropped for
good, and an inode that was in use and still is stays. -/
theorem Change.stays (h : Good d) (hx : Change d up d')
    (hup : ∀ k, up = some k → d.nlinks k ≠ 255) : d'.count = d.count ∧
      ∀ m, d.live m = true → d'.live m = true → Stays d.vol d'.vol m := by
  cases hx with
  | same => exact ⟨rfl, fun m _ _ => (Kept.refl _ m).stays⟩
  | @full dir n I w isDir free bare noRoom =>
    refine ⟨rfl, fun m hm _ => ?_⟩
    have hmn : m ≠ n := (free.ne_of_live hm).symm
    have hne := free.ne_of_live isDir.live
    have hk1 := (h.readable.sound.setBare bare n).2
    have hk2 := (noRoom.grown.ext.sound.setBlank n).2
    have ht := noRoom.grown.touches.stays (by rw [(hk1 dir hne.symm).inode]; exact isDir.mode) m
    exact ((hk1 m hmn).stays.trans ht).trans (hk2 m hmn).stays
  | fullLink isDir noRoom => exact ⟨rfl, fun m _ _ => noRoom.grown.touches.stays isDir.mode m⟩
  | @created dir n z i I w isDir free bare zone opened =>
    refine ⟨rfl, fun m hm _ => ?_⟩
    have hmn : m ≠ n := (free.ne_of_live hm).symm
    have hne := free.ne_of_live isDir.live
    have hk := (h.readable.sound.setBare bare n).2
    have hmode : ((d.vol.setInode n I).inode dir).mode = .dir := by
      rw [(hk dir hne.symm).inode]
      exact isDir.mode
    have hE := opened.entered (isFile_of_dir hmode) (free.lt h.readable)
    exact (hk m hmn).stays.trans (hE.touches.stays hmode m)
  | @linked dir n z i w d' isDir live named mode zone opened put =>
    have hE := opened.entered isDir.isFile (h.readable.live_lt live)
    have h255 := hup n rfl
    have hbyte := h.byte n
    rw [iput_linked (by omega)] at put
    cases put
    exact ⟨rfl, fun m _ _ => hE.touches.stays isDir.mode m⟩
  | @unlinked dir i n d' isDir entry slot mode put =>
    have hE := entry.cleared h.readable.sound isDir.isFile
    have hu := h.unlinked isDir entry slot mode
    exact ⟨(hu.iput put).2.2.2.1.trans (update_back d.count), fun m _ hm' =>
      (hE.touches.stays isDir.mode m).trans (hu.iput_stays put hm')⟩
  | @madeDir dir n z b i v w d' isDir free zone new opened put =>
    have h255 := hup dir rfl
    have hbyte := h.byte dir
    have hne := free.ne_of_live isDir.live
    have hmode : (v.inode dir).mode = .dir := by
      rw [(new.kept dir hne.symm).inode]
      exact isDir.mode
    have hE := opened.entered (isFile_of_dir hmode) (free.lt h.readable)
    rw [putBoth_madeDir (h.readable.free_facts free).1 hne (by omega)] at put
    cases put
    exact ⟨rfl, fun m hm _ => (new.kept m (free.ne_of_live hm).symm).stays.trans
      (hE.touches.stays hmode m)⟩
  | @removedDir dir i n v removable unused trunc =>
    refine ⟨Function.update_eq_self_iff.mpr unused.symm, fun m _ hm' => ?_⟩
    have hE := removable.holds.cleared h.readable.sound removable.isDir.isFile
    have hlive := h.honest.alive _ _ removable.name
    have hmn : m ≠ n := by
      rintro rfl
      rw [Dev.freed_live (d := d.unlinkedDir dir i m) hlive, if_pos rfl] at hm'
      cases hm'
    obtain ⟨hs, hk, -⟩ := hE.touches.sound.truncate_kept trunc
    have hk' := (hs.setBlank n).2
    exact (hE.touches.stays removable.isDir.mode m).trans ((hk m hmn).trans (hk' m hmn)).stays

-- ======== the file table

section Table

open FileTable

variable {s s' : OpenSys} {t f fd : Nat} {p q : Task} {o : Op} {x x' : System}

/-- A task is where it was, or in another place, but not in `open_namei`
with the entry. -/
theorem reserved_update (ht : s.table.task t = some p)
    (htask : s'.table.task = update s.table.task t (some q))
    (hp : ∀ fd, p.phase ≠ .opening fd f)
    (hq : ∀ fd, q.phase ≠ .opening fd f) : s'.Reserved f ↔ s.Reserved f := by
  unfold OpenSys.Reserved
  rw [htask]
  constructor
  · rintro ⟨u, r, fd, hu, hr⟩
    rcases update_cases hu with ⟨-, ⟨⟩⟩ | ⟨-, hu⟩
    · exact absurd hr (hq fd)
    · exact ⟨u, r, fd, hu, hr⟩
  · rintro ⟨u, r, fd, hu, hr⟩
    refine ⟨u, r, fd, ?_, hr⟩
    rw [update_of_ne]
    · exact hu
    · rintro rfl
      rw [ht] at hu
      cases hu
      exact hp fd hr

theorem inodeOf_unused (h : (s.table.file f).fCount = 0) : s.inodeOf f = none :=
  if_neg fun hc => by omega

theorem inodeOf_reserved (h : s.Reserved f) : s.inodeOf f = none :=
  if_neg fun hc => hc.2 h

theorem inodeOf_eq_some {i : Nat} : s.inodeOf f = some i ↔
    (0 < (s.table.file f).fCount ∧ ¬ s.Reserved f) ∧ (s.table.file f).fInode = i := by
  unfold OpenSys.inodeOf
  split
  · rename_i h
    rw [Option.some_inj]
    exact (and_iff_right h).symm
  · rename_i h
    exact iff_of_false nofun fun hc => h hc.1

theorem inodeOf_congr (hr : s'.Reserved f ↔ s.Reserved f)
    (hc : 0 < (s'.table.file f).fCount ↔ 0 < (s.table.file f).fCount)
    (hi : (s'.table.file f).fInode = (s.table.file f).fInode) : s'.inodeOf f = s.inodeOf f := by
  refine Option.ext fun k => ?_
  rw [inodeOf_eq_some, inodeOf_eq_some, hc, hr, hi]

/-- A reserved entry belongs to the task that is in `open_namei` with
it. -/
theorem not_reserved (hi : FileTable.Inv s.table)
    (ht : s.table.task t = some p) (hph : ∀ fd, p.phase ≠ .opening fd f)
    (hfd : fd < NR_OPEN) (hf : p.filp fd = some f) : ¬ s.Reserved f := by
  rintro ⟨u, r, fd', hu, hr⟩
  obtain ⟨hfd', hf', hone⟩ := hi.opening hu hr
  have hut := hi.sole hu hfd' hf' hone ht hfd hf
  rw [hut, hu] at ht
  cases ht
  exact hph fd' hr

-- --------------------------------------------------------------- the steps

/-- The calls that a task makes in user code. -/
def UserOp : Op → Prop
  | .openBegin _ | .close _ _ | .dupfd _ _ _ | .fork _ _ _ => True
  | _ => False

theorem act_user (ho : UserOp o) (h : act x t p o = some x') : p.phase = .user := by
  cases o with
  | openBegin | close | dupfd | fork =>
    cases hph : p.phase with
    | user => rfl
    | _ => simp [act, hph] at h
  | _ => cases ho

theorem step_user (ho : UserOp o) (h : FileTable.step o x = some x') :
    ∃ p, x.task o.task = some p ∧ p.phase = .user
      ∧ act { x with iput := none } o.task p o = some x' := by
  unfold FileTable.step at h
  split at h
  · rename_i r hr
    exact ⟨r, hr, act_user ho h, h⟩
  · cases h

/-- The user code of a task is not in `open_namei`. -/
theorem user_ne_opening (hph : p.phase = .user) (fd g : Nat) : p.phase ≠ .opening fd g := by
  rw [hph]
  exact nofun

/-- A task in user code that goes on in user code, and no entry comes into
use or goes out of it. -/
theorem inodeOf_same (ht : s.table.task t = some p) (hph : p.phase = .user)
    (htask : s'.table.task = update s.table.task t (some q)) (hq : q.phase = .user)
    (hc : ∀ g, 0 < (s'.table.file g).fCount ↔ 0 < (s.table.file g).fCount)
    (hin : ∀ g, (s'.table.file g).fInode = (s.table.file g).fInode) : s'.inodeOf = s.inodeOf :=
  funext fun g => inodeOf_congr (reserved_update ht htask
    (fun fd => user_ne_opening hph fd g) fun fd => user_ne_opening hq fd g) (hc g) (hin g)

/-- The same where no entry changes. -/
theorem inodeOf_same_file (ht : s.table.task t = some p) (hph : p.phase = .user)
    (htask : s'.table.task = update s.table.task t (some q)) (hq : q.phase = .user)
    (hfile : s'.table.file = s.table.file) :
    s'.inodeOf = s.inodeOf ∧ ∀ g, 0 < (s'.table.file g).fCount → 0 < (s.table.file g).fCount := by
  refine ⟨inodeOf_same ht hph htask hq (fun g => ?_) fun g => ?_, fun g hg => ?_⟩
  · rw [hfile]
  · rw [hfile]
  · rwa [hfile] at hg

theorem openBegin_file (h : FileTable.step (.openBegin t) s.table = some s'.table) :
    s'.inodeOf = s.inodeOf ∧ ∀ g, 0 < (s'.table.file g).fCount →
        0 < (s.table.file g).fCount ∨ g < NR_FILE := by
  obtain ⟨p, hp, hph, hact⟩ := step_user (o := .openBegin t) trivial h
  simp only [act, hph, Option.some.injEq] at hact
  have hp : s.table.task t = some p := hp
  unfold openBegin at hact
  split at hact
  · have htask : s'.table.task = update s.table.task t (some p) := by
      rw [← hact, ← hp, update_eq_self]
    exact (inodeOf_same_file hp hph htask hph (by rw [← hact])).imp_right
      fun h g hg => .inl (h g hg)
  rename_i fd hfd
  simp only at hact
  split at hact
  · exact (inodeOf_same_file (q := p.keepOnExec fd) hp hph (by rw [← hact]; rfl) hph
      (by rw [← hact]; rfl)).imp_right fun h g hg => .inl (h g hg)
  rename_i f hf
  have hzero : (s.table.file f).fCount = 0 := by
    have := List.find?_some hf
    simpa using this
  have hlt : f < NR_FILE :=
    List.mem_range.mp (List.mem_of_find?_eq_some hf)
  have htask : s'.table.task = update s.table.task t
      (some { (p.keepOnExec fd).setFilp fd (some f) with
        phase := .opening fd f }) := by
    rw [← hact]
    rfl
  have hother : ∀ g, g ≠ f → s'.table.file g = s.table.file g := by
    intro g hg
    rw [← hact]
    exact update_of_ne hg _ _
  refine ⟨funext fun g => ?_, fun g hg => ?_⟩
  · by_cases hgf : g = f
    · rw [hgf, inodeOf_unused hzero]
      refine inodeOf_reserved ⟨t, { (p.keepOnExec fd).setFilp fd (some f) with
        phase := .opening fd f }, fd, ?_, rfl⟩
      rw [htask, update_self]
    · refine inodeOf_congr (reserved_update hp htask
        (fun fd => user_ne_opening hph fd g) fun fd' hc => ?_)
        (by rw [hother g hgf]) (by rw [hother g hgf])
      cases hc
      exact hgf rfl
  · by_cases hgf : g = f
    · exact .inr (hgf ▸ hlt)
    · rw [hother g hgf] at hg
      exact .inl hg

/-- What an entry holds after `sys_open`. -/
def opened : FileTable.Opened → Option Nat
  | .inode i => some i
  | _ => none

theorem openEnd_file (hi : FileTable.Inv s.table) {r : FileTable.Opened}
    (h : FileTable.step (.openEnd t r) s.table = some s'.table) :
    ∃ f, s.inodeOf f = none ∧ 0 < (s.table.file f).fCount
      ∧ s'.inodeOf = update s.inodeOf f (opened r) ∧ ∀ g, 0 < (s'.table.file g).fCount →
        0 < (s.table.file g).fCount := by
  unfold FileTable.step at h
  split at h
  swap
  · cases h
  rename_i p hp
  cases hph : p.phase with
  | opening fd f =>
    simp only [act, hph, Option.some.injEq] at h
    obtain ⟨hfd, hf, hone⟩ := hi.opening hp hph
    have hres : s.Reserved f := ⟨t, p, fd, hp, hph⟩
    have htask : ∃ q : Task, s'.table.task = update s.table.task t (some q) ∧ q.phase = .user := by
      rw [← h]
      cases r with
      | error code | noTty | inode i => exact ⟨_, rfl, rfl⟩
    obtain ⟨q, htask, hq⟩ := htask
    have hother : ∀ g, g ≠ f → s'.table.file g = s.table.file g := by
      intro g hg
      rw [← h]
      cases r with
      | error code | noTty => exact update_of_ne hg _ _
      | inode i =>
        refine (update_of_ne hg _ _).trans ?_
        exact update_of_ne hg _ _
    refine ⟨f, inodeOf_reserved hres, by omega, funext fun g => ?_, fun g hg => ?_⟩
    · by_cases hgf : g = f
      · subst hgf
        rw [update_self]
        -- nobody else is in `open_namei` with the entry
        have hfree : ¬ s'.Reserved g := by
          rintro ⟨u, r', fd', hu, hr'⟩
          rw [htask] at hu
          rcases update_cases hu with ⟨-, ⟨⟩⟩ | ⟨hut, hu⟩
          · exact user_ne_opening hq _ _ hr'
          · obtain ⟨hfd', hf', -⟩ := hi.opening hu hr'
            exact hut (hi.sole hp hfd hf hone hu hfd' hf')
        cases r with
        | error code | noTty =>
          refine inodeOf_unused ?_
          rw [← h]
          show (update s.table.file g _ g).fCount = 0
          rw [update_self]
        | inode i =>
          refine inodeOf_eq_some.mpr ⟨⟨?_, hfree⟩, ?_⟩
          · rw [← h]
            show 0 < (((System.setCount _ g 1).setInode g i).file g).fCount
            rw [setInode_count, setCount_count, if_pos rfl]
            decide
          · rw [← h]
            show (update (System.setCount _ g 1).file g _ g).fInode = i
            rw [update_self]
      · rw [update_of_ne hgf]
        refine inodeOf_congr (reserved_update hp htask (fun fd' hc => ?_)
          fun fd' => user_ne_opening hq fd' g) (by rw [hother g hgf]) (by rw [hother g hgf])
        rw [hph] at hc
        cases hc
        exact hgf rfl
    · by_cases hgf : g = f
      · rw [hgf]
        omega
      · rw [hother g hgf] at hg
        exact hg
  | _ => simp [act, hph] at h

theorem close_file (hi : FileTable.Inv s.table)
    (h : FileTable.step (.close t fd) s.table = some s'.table) :
    (∀ g, 0 < (s'.table.file g).fCount → 0 < (s.table.file g).fCount) ∧
    (s'.table.iput = none → s'.inodeOf = s.inodeOf) ∧
    ∀ f i, s'.table.iput = some (f, i) → s.inodeOf f = some i
      ∧ s'.inodeOf = update s.inodeOf f none := by
  have hi' := (step_spec hi h).1
  obtain ⟨p, hp, hph, hact⟩ := step_user (o := .close t fd) trivial h
  have hp : s.table.task t = some p := hp
  simp only [act, hph, Option.some.injEq] at hact
  obtain ⟨hclean, hputs, q, hq, hnone⟩ := sysClose_spec hi.forget hp rfl rfl fd
  have hin := sysClose_inode (s := { s.table with iput := none }) (t := t) (p := p) fd
  have hact : (sysClose { s.table with iput := none } t p fd).2 = s'.table := hact
  rw [hact] at hclean hputs hq hin
  have htask : s'.table.task = update s.table.task t (some q) :=
    hq.task
  have hle : ∀ g, 0 < (s'.table.file g).fCount → 0 < (s.table.file g).fCount := by
    intro g hg
    obtain ⟨u, r, fd', hu, hfd', hr⟩ := hi'.pos_iff.mp hg
    rw [htask] at hu
    rcases update_cases hu with ⟨-, ⟨⟩⟩ | ⟨-, hu⟩
    · by_cases hff : fd' = fd
      · rw [hff] at hfd' hr
        rw [hnone hfd'] at hr
        cases hr
      · rw [hq.others fd' hff] at hr
        exact hi.pos_iff.mpr ⟨t, p, fd', hp, hfd', hr⟩
    · exact hi.pos_iff.mpr ⟨u, r, fd', hu, hfd', hr⟩
  have hres : ∀ g, s'.Reserved g ↔ s.Reserved g := fun g =>
    reserved_update hp htask (fun fd => user_ne_opening hph fd g) fun fd =>
      user_ne_opening (hq.phase.trans hph) fd g
  -- an entry that goes out of use is the one that is put
  have hgone : ∀ g, 0 < (s.table.file g).fCount → ¬ 0 < (s'.table.file g).fCount →
      s'.table.iput = some (g, (s.table.file g).fInode) := fun g hg hg' =>
    (hputs g _).mpr ⟨rfl, hg, by omega⟩
  refine ⟨hle, fun hno => funext fun g => ?_, fun f i hf => ?_⟩
  · refine inodeOf_congr (hres g) ⟨hle g, fun hg => ?_⟩ (hin g)
    by_contra hg'
    rw [hgone g hg hg'] at hno
    cases hno
  · obtain ⟨rfl, hpos, hzero⟩ := (hputs f i).mp hf
    have href : ∃ fd < NR_OPEN, p.filp fd = some f := by
      rcases hclean.moved f with hc | hc | hc
      · rw [hzero] at hc
        omega
      · omega
      · exact hc
    obtain ⟨fd', hfd', hfd''⟩ := href
    refine ⟨inodeOf_eq_some.mpr ⟨⟨hpos, not_reserved hi hp
      (fun fd => user_ne_opening hph fd f) hfd' hfd''⟩, rfl⟩, funext fun g => ?_⟩
    by_cases hgf : g = f
    · rw [hgf, update_self]
      exact inodeOf_unused hzero
    · rw [update_of_ne hgf]
      refine inodeOf_congr (hres g) ⟨hle g, fun hg => ?_⟩ (hin g)
      by_contra hg'
      rw [hgone g hg hg'] at hf
      exact hgf (Prod.mk.inj (Option.some.inj hf)).1

theorem dupfd_file (hi : FileTable.Inv s.table) {arg : Nat}
    (h : FileTable.step (.dupfd t fd arg) s.table = some s'.table) :
    s'.inodeOf = s.inodeOf ∧ ∀ g, 0 < (s'.table.file g).fCount → 0 < (s.table.file g).fCount := by
  have hi' := (step_spec hi h).1
  obtain ⟨p, hp, hph, hact⟩ := step_user (o := .dupfd t fd arg) trivial h
  simp only [act, hph, Option.some.injEq] at hact
  have hsame : ({ s.table with iput := none } : System).setTask t p
      = s'.table → s'.inodeOf = s.inodeOf ∧ ∀ g, 0 < (s'.table.file g).fCount →
          0 < (s.table.file g).fCount := by
    intro he
    exact inodeOf_same_file hp hph (by rw [← he]; rfl) hph (by rw [← he]; rfl)
  unfold dupfd at hact
  split at hact
  · exact hsame hact
  rename_i hfd
  split at hact
  · exact hsame hact
  rename_i f hf
  split at hact
  · exact hsame hact
  split at hact
  · exact hsame hact
  rename_i a ha
  have htask : s'.table.task = update s.table.task t
      (some ((p.keepOnExec a).setFilp a (some f))) := by
    rw [← hact]
    rfl
  have hother : ∀ g, g ≠ f → s'.table.file g = s.table.file g := by
    intro g hg
    rw [← hact]
    exact update_of_ne hg _ _
  have hold : 0 < (s.table.file f).fCount :=
    hi.pos_iff.mpr ⟨t, p, fd, hp, Nat.not_le.mp hfd, hf⟩
  have hnew : 0 < (s'.table.file f).fCount := by
    refine hi'.pos_iff.mpr ⟨t, (p.keepOnExec a).setFilp a (some f), a, ?_, (freeFd_spec ha).1, ?_⟩
    · rw [htask, update_self]
    · exact update_self ..
  refine ⟨inodeOf_same hp hph htask hph (fun g => ?_) fun g => ?_, fun g hg => ?_⟩
  · by_cases hgf : g = f
    · rw [hgf]
      exact iff_of_true hnew hold
    · rw [hother g hgf]
  · rw [← hact]
    exact setCount_inode
  · by_cases hgf : g = f
    · rw [hgf]
      exact hold
    · rw [hother g hgf] at hg
      exact hg

theorem fork_file (hi : FileTable.Inv s.table) {nr : Nat}
    (h : FileTable.step (.fork t nr true) s.table = some s'.table) :
    s'.inodeOf = s.inodeOf ∧ ∀ g, 0 < (s'.table.file g).fCount → 0 < (s.table.file g).fCount := by
  have hi' := (step_spec hi h).1
  obtain ⟨p, hp, hph, hact⟩ := step_user (o := .fork t nr true) trivial h
  simp only [act, hph] at hact
  split at hact
  swap
  · cases hact
  rename_i hnr
  have hfree : s.table.task nr = none := Option.isNone_iff_eq_none.mp hnr.2
  have hact : copyProcess { s.table with iput := none } p nr = s'.table :=
    Option.some.inj hact
  have htask : s'.table.task = update s.table.task nr (some p) := by
    rw [← hact]
    exact (forkLoop_task _).1
  have hback : ∀ g, 0 < (s'.table.file g).fCount → 0 < (s.table.file g).fCount := by
    intro g hg
    obtain ⟨u, r, fd, hu, hfd, hr⟩ := hi'.pos_iff.mp hg
    rw [htask] at hu
    rcases update_cases hu with ⟨-, ⟨⟩⟩ | ⟨-, hu⟩
    · exact hi.pos_iff.mpr ⟨t, p, fd, hp, hfd, hr⟩
    · exact hi.pos_iff.mpr ⟨u, r, fd, hu, hfd, hr⟩
  have hstay : ∀ {u r}, s.table.task u = some r → s'.table.task u = some r := by
    intro u r hu
    rw [htask, update_of_ne]
    · exact hu
    · rintro rfl
      rw [hfree] at hu
      cases hu
  refine ⟨funext fun g => inodeOf_congr ⟨?_, ?_⟩ ⟨hback g, fun hg => ?_⟩ ?_, hback⟩
  · rintro ⟨u, r, fd, hu, hr⟩
    rw [htask] at hu
    rcases update_cases hu with ⟨-, ⟨⟩⟩ | ⟨-, hu⟩
    · exact absurd hr (user_ne_opening hph _ _)
    · exact ⟨u, r, fd, hu, hr⟩
  · rintro ⟨u, r, fd, hu, hr⟩
    exact ⟨u, r, fd, hstay hu, hr⟩
  · obtain ⟨u, r, fd, hu, hfd, hr⟩ := hi.pos_iff.mp hg
    exact hi'.pos_iff.mpr ⟨u, r, fd, hstay hu, hfd, hr⟩
  · rw [← hact]
    exact forkLoop_inode _

end Table

-- ======== the invariant

section Run

variable {s s' : OpenSys} {o : OpenOp} {t : Nat} {pathname : Name} {flags : OpenFlags}

/-- Every open file has its reference, in a good device. -/
structure OpenInv (s : OpenSys) : Prop where
  good : Good s.dev
  table : FileTable.Inv s.table
  small : ∀ f, 0 < (s.table.file f).fCount → f < FileTable.NR_FILE
  refs : ∀ k, Lib.refs (Finset.range FileTable.NR_FILE) s.inodeOf k ≤ s.dev.count k

theorem OpenSys.Started.inv (h : s.Started) : OpenInv s := by
  refine ⟨h.good, ⟨h.table.count, fun t p ht => (h.user t p ht).1,
    fun t p ht => ?_, h.table.calm⟩, h.small, h.refs⟩
  unfold FileTable.PhaseOk
  rw [(h.user t p ht).2]
  trivial

theorem OpenInv.alive (h : OpenInv s) : s.Alive := by
  refine ⟨fun f k hf => ?_, fun k => ⟨fun hl => ?_, fun hp => ?_⟩⟩
  · have hpos : 0 < Lib.refs (Finset.range FileTable.NR_FILE) s.inodeOf k :=
      refs_pos (Finset.mem_range.mpr (h.small f (inodeOf_eq_some.mp hf).1.1)) hf
    have := h.refs k
    exact h.good.readable.live_of_count (by omega)
  · by_contra hno
    have := h.good.held k hl (by omega)
    omega
  · by_contra hl
    rw [Bool.not_eq_true] at hl
    have := (h.good.readable.unused k hl).2
    omega

/-- A step that leaves the file table's inodes as they are, and takes no
reference away. -/
theorem OpenInv.keep (h : OpenInv s) (hg : Good s'.dev)
    (ht : FileTable.Inv s'.table) (hin : s'.inodeOf = s.inodeOf)
    (hsmall : ∀ g, 0 < (s'.table.file g).fCount →
      0 < (s.table.file g).fCount ∨ g < FileTable.NR_FILE)
    (hc : ∀ k, s.dev.count k ≤ s'.dev.count k) : OpenInv s' := by
  refine ⟨hg, ht, fun g hg => (hsmall g hg).elim (h.small g) id, fun k => ?_⟩
  rw [hin]
  exact (h.refs k).trans (hc k)

/-- A step on the file table. -/
theorem onTable_cases {o : FileTable.Op} (h : s.onTable o = some s') :
    FileTable.step o s.table = some s'.table ∧ s'.dev = s.dev := by
  obtain ⟨tb, ht, he⟩ := Option.bind_eq_some_iff.mp h
  cases he
  exact ⟨ht, rfl⟩

theorem foldl_iget (h : Good d) : ∀ {l : List Nat},
    (∀ k ∈ l, d.count k ≠ 0) → Good (l.foldl Fs.iget d)
      ∧ (∀ k, d.count k ≤ (l.foldl Fs.iget d).count k) ∧ (l.foldl Fs.iget d).vol = d.vol
      ∧ (l.foldl Fs.iget d).live = d.live := by
  intro l
  induction l generalizing d with
  | nil => exact fun _ => ⟨h, fun _ => Nat.le_refl _, rfl, rfl⟩
  | cons a l ih =>
    intro hl
    have hstep : ∀ k, d.count k ≤ (Fs.iget d a).count k := by
      intro k
      show _ ≤ update d.count a (d.count a + 1) k
      rw [update_apply]
      split
      · rename_i hk
        rw [hk]
        omega
      · exact Nat.le_refl _
    have ha := hl a (List.mem_cons_self ..)
    obtain ⟨hg, hc, hv, hlive⟩ := ih (h.iget (h.readable.live_of_count ha)) fun k hk => by
        have := hstep k
        have := hl k (List.mem_cons_of_mem a hk)
        omega
    exact ⟨hg, fun k => (hstep k).trans (hc k), hv, hlive⟩

-- --------------------------------------------------------------- the steps

/-- What a step has to do: the invariant is kept, and the inodes that stay
in use stay, unless one with a name is opened with `O_TRUNC`. -/
def Upholds (o : OpenOp) (s s' : OpenSys) : Prop :=
  OpenInv s' ∧ ∀ k, s.dev.live k = true → s'.dev.live k = true →
    (o.Truncates s k ∧ s.dev.nlinks k ≠ 0) ∨ Stays s.dev.vol s'.dev.vol k

/-- A step of the file table that puts no inode. -/
theorem OpenInv.onTable (h : OpenInv s) {p : FileTable.Op}
    (hs : s.onTable p = some s') (hin : s'.inodeOf = s.inodeOf)
    (hsmall : ∀ g, 0 < (s'.table.file g).fCount →
      0 < (s.table.file g).fCount ∨ g < FileTable.NR_FILE) : Upholds o s s' := by
  obtain ⟨ht, hd⟩ := onTable_cases hs
  refine ⟨h.keep (by rw [hd]; exact h.good)
    (FileTable.step_spec h.table ht).1 hin hsmall (fun k => by rw [hd]), fun k _ _ => .inr ?_⟩
  rw [hd]
  exact (Kept.refl _ k).stays

/-- A change of the names. -/
theorem OpenInv.onDev (h : OpenInv s) {up : Option Nat}
    (hx : Change s.dev up d') (hup : ∀ k, up = some k → s.dev.nlinks k ≠ 255) :
    Upholds o s { s with dev := d' } := by
  obtain ⟨hc, hst⟩ := hx.stays h.good hup
  exact ⟨h.keep (h.good.change hx hup) h.table rfl (fun g hg => .inl hg)
    (fun k => by rw [hc]), fun k hk hk' => .inr (hst k hk hk')⟩

theorem onDev_cases {r : Except Crash (Int × Dev)} (h : s.onDev r = some s') :
    ∃ code e, r = .ok (code, e) ∧ s' = { s with dev := e } := by
  unfold OpenSys.onDev at h
  split at h
  · rename_i code e
    cases h
    exact ⟨code, e, rfl, rfl⟩
  · cases h

theorem OpenInv.fork (h : OpenInv s) {nr : Nat} {inodes : List Nat}
    (hs : s.fork t nr inodes = some s') : Upholds (.fork t nr inodes) s s' := by
  unfold OpenSys.fork at hs
  split at hs
  swap
  · cases hs
  rename_i hheld
  obtain ⟨ht, hd⟩ := onTable_cases hs
  obtain ⟨hg, hc, hv, -⟩ := foldl_iget h.good hheld
  obtain ⟨hin, hsmall⟩ := fork_file h.table ht
  refine ⟨h.keep (by rw [hd]; exact hg) (FileTable.step_spec h.table ht).1 hin
    (fun g hg => .inl (hsmall g hg)) (fun k => by rw [hd]; exact hc k), fun k _ _ => .inr ?_⟩
  rw [hd, hv]
  exact (Kept.refl _ k).stays

theorem OpenInv.close (h : OpenInv s) {fd : Nat}
    (hs : s.close t fd = some s') : Upholds (.close t fd) s s' := by
  obtain ⟨tb, ht, hs⟩ := Option.bind_eq_some_iff.mp hs
  have hi := (FileTable.step_spec h.table ht).1
  split at hs
  · rename_i hput
    cases hs
    obtain ⟨hle, hsame, -⟩ := close_file h.table
      (show _ = some ({ s with table := tb } : OpenSys).table from ht)
    exact ⟨h.keep h.good hi (hsame hput) (fun g hg => .inl (hle g hg))
      fun k => Nat.le_refl _, fun k _ _ => .inr (Kept.refl _ k).stays⟩
  · rename_i f i hput
    obtain ⟨e, he, hs⟩ := Option.bind_eq_some_iff.mp hs
    cases hs
    have he := ok_of_toOption he
    obtain ⟨hle, -, hgone⟩ := close_file h.table (show _ = some (OpenSys.mk tb e).table from ht)
    obtain ⟨hf, hin⟩ := hgone f i hput
    obtain ⟨hg, -, -, hc, -⟩ := h.good.iput he
    refine ⟨⟨hg, hi, fun g hg => h.small g (hle g hg), fun k => ?_⟩,
      fun k _ hk' => .inr (h.good.iput_stays he hk')⟩
    -- the entry gives up the reference that `iput` drops
    have hlt := h.small f (inodeOf_eq_some.mp hf).1.1
    have hrefs := h.refs k
    rw [refs_taken (Finset.mem_range.mpr hlt) (update_self ..) hf
      fun g _ hgf => (update_of_ne hgf ..).symm, ← hin] at hrefs
    rw [hc, update_apply]
    split at hrefs
    · rename_i hki
      rw [if_pos hki, ← hki]
      omega
    · rename_i hki
      rw [if_neg hki]
      exact hrefs

/-- A successful `open_namei`. -/
theorem Good.opened (h : Good d) (hx : Fs.openNamei d c pathname flags = .ok (.ok n, d')) :
    ∃ e, d' = Fs.iget e n ∧ e.live n = true ∧ Good e ∧ e.count = d.count ∧
      ∀ k, d.live k = true → e.live k = true → (flags.trunc = true ∧ k = n ∧ d.nlinks n ≠ 0)
          ∨ Stays d.vol e.vol k := by
  rcases h.openNamei hx with ⟨⟨code, hc⟩, -⟩ | ⟨m, e, hr, rfl, hl, hch⟩
  · cases hc
  cases hr
  refine ⟨e, rfl, hl, ?_⟩
  rcases hch with hch | ⟨htrunc, hnl, hmode, v, hv, rfl⟩
  · have hup : ∀ k, (none : Option Nat) = some k → d.nlinks k ≠ 255 :=
      fun k hc => by cases hc
    obtain ⟨hc, hst⟩ := hch.stays h hup
    exact ⟨h.change hch hup, hc, fun k hk hk' => .inr (hst k hk hk')⟩
  · refine ⟨h.truncated hmode hv, rfl, fun k _ _ => ?_⟩
    by_cases hkn : k = n
    · exact .inl ⟨htrunc, hkn, hnl⟩
    · exact .inr ((h.readable.sound.truncate_kept hv).2.1 k hkn).stays

theorem OpenInv.openEnd (h : OpenInv s)
    {noTty : Bool} (hs : s.openEnd t c pathname flags noTty = some s') :
    Upholds (.openEnd t c pathname flags noTty) s s' := by
  unfold OpenSys.openEnd at hs
  split at hs
  · cases hs
  · -- the entry is given back, and nothing is held
    rename_i code e hx
    obtain ⟨ht, hd⟩ := onTable_cases hs
    rcases h.good.openNamei hx with ⟨-, hch⟩ | ⟨m, e, hr, -⟩
    swap
    · cases hr
    obtain ⟨f, hf, -, hin, hsmall⟩ := openEnd_file h.table ht
    obtain ⟨hinv, hst⟩ := h.onDev hch fun k hc => by cases hc
    refine ⟨hinv.keep (by rw [hd]; exact hinv.good)
      (FileTable.step_spec h.table ht).1 ?_
      (fun g hg => .inl (hsmall g hg)) (fun k => by rw [hd]), ?_⟩
    · rw [hin]
      exact Function.update_eq_self_iff.mpr hf.symm
    · rw [hd]
      exact hst
  rename_i n e' hx
  obtain ⟨e, rfl, hlive, hg, hc, hst⟩ := h.good.opened hx
  have hstays : ∀ k, s.dev.live k = true → e.live k = true →
      ((OpenOp.openEnd t c pathname flags noTty).Truncates s k ∧
        s.dev.nlinks k ≠ 0) ∨ Stays s.dev.vol e.vol k := by
    intro k hk hk'
    rcases hst k hk hk' with ⟨htrunc, rfl, hnl⟩ | hst
    · exact .inl ⟨⟨htrunc, _, hx⟩, hnl⟩
    · exact .inr hst
  split at hs
  · -- the terminal is refused, and the inode is put again
    obtain ⟨e2, he2, hs⟩ := Option.bind_eq_some_iff.mp hs
    have he2 := ok_of_toOption he2
    obtain ⟨ht, hd⟩ := onTable_cases hs
    have hgi := hg.iget hlive
    obtain ⟨hg2, -, -, hc2, -, hl2, -⟩ := hgi.iput he2
    have hcount : e2.count = s.dev.count := hc2.trans ((update_back e.count).trans hc)
    obtain ⟨f, hf, -, hin, hsmall⟩ := openEnd_file h.table ht
    refine ⟨h.keep (by rw [hd]; exact hg2) (FileTable.step_spec h.table ht).1 ?_
      (fun g hg => .inl (hsmall g hg)) (fun k => by rw [hd, hcount]), fun k hk hk' => ?_⟩
    · rw [hin]
      exact Function.update_eq_self_iff.mpr hf.symm
    · rw [hd] at hk' ⊢
      have hke : e.live k = true := by
        by_cases hkn : k = n
        · rw [hkn]
          exact hlive
        · rw [hl2 k hkn] at hk'
          exact hk'
      exact (hstays k hk hke).imp_right fun hst =>
        hst.trans (hgi.iput_stays he2 hk')
  · obtain ⟨ht, hd⟩ := onTable_cases hs
    obtain ⟨f, hf, hpos, hin, hsmall⟩ := openEnd_file h.table ht
    refine ⟨⟨by rw [hd]; exact hg.iget hlive,
      (FileTable.step_spec h.table ht).1, fun g hg => h.small g (hsmall g hg),
      fun k => ?_⟩, fun k hk hk' => ?_⟩
    · -- the entry takes on the reference that `open_namei` took
      have hrefs := h.refs k
      rw [hin, opened, refs_taken (Finset.mem_range.mpr (h.small f hpos)) hf (update_self ..)
        fun g _ hgf => update_of_ne hgf .., hd]
      show _ ≤ update e.count n (e.count n + 1) k
      rw [update_apply, hc]
      split
      · rename_i hkn
        rw [← hkn]
        omega
      · exact hrefs
    · rw [hd] at hk' ⊢
      exact hstays k hk hk'

/-- The step lemma. -/
theorem OpenInv.step (h : OpenInv s) (hfit : o.Fits s)
    (hs : o.step s = some s') : Upholds o s s' := by
  cases o with
  | openBegin t =>
    obtain ⟨hin, hsmall⟩ := openBegin_file (onTable_cases hs).1
    exact h.onTable hs hin hsmall
  | openEnd t c pathname flags noTty => exact h.openEnd hs
  | close t fd => exact h.close hs
  | dupfd t fd arg =>
    obtain ⟨hin, hsmall⟩ := dupfd_file h.table (onTable_cases hs).1
    exact h.onTable hs hin fun g hg => .inl (hsmall g hg)
  | fork t nr inodes => exact h.fork hs
  | sysUnlink c pathname =>
    obtain ⟨code, e, hr, rfl⟩ := onDev_cases hs
    exact h.onDev (h.good.sysUnlink hr) fun k hc => by cases hc
  | sysLink c oldname newname =>
    obtain ⟨code, e, hr, rfl⟩ := onDev_cases hs
    rcases h.good.sysLink hr with ⟨-, hch⟩ | ⟨rfl, n, hp, hch⟩
    · exact h.onDev hch fun k hc => by cases hc
    · refine h.onDev hch fun k hk => ?_
      cases hk
      exact hfit n _ _ hp hr

-- ======== the result

end Run

end LearnLinux.Fs
