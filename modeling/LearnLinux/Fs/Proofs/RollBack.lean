/-
Creations that fail leave nothing behind, with one exception: `sys_mkdir`
that has its inode and its block but finds no room for the name. There
`free_block` is called twice for one block, and the kernel panics.
-/
import LearnLinux.Fs.Proofs.Creation
import LearnLinux.Fs.Proofs.LinkedDev

namespace LearnLinux.Fs

open Function (update update_self update_of_ne)
open Lib

variable {d d' : Dev} {c : Caller} {dir n z : Nat} {v w : Vol} {I : Inode} {pathname name : Name}

-- ======== rolled back

theorem Restored.refl (d : Dev) (c : Caller) (pathname : Name) : Restored d c pathname d :=
  ⟨rfl, rfl, rfl, rfl, fun _ hz => hz, fun _ hz => .inl hz⟩

/-- What a creation that found no room leaves. -/
theorem Readable.restored (h : Readable d) (hdir : IsDir d dir) (hf : Free d n) (hI : I.Bare)
    (hg : NoRoom (d.vol.setInode n I) dir w)
    (hnamei : Fs.dirNamei d c pathname = .ok (some (dir, name), iget d dir)) :
    Restored d c pathname (d.setVol (w.setInode n .blank)) := by
  have hne := hf.ne_of_live hdir.live
  have hk := (hg.grown.ext.sound.setBlank n).2
  refine ⟨rfl, h.names_alike (h.full_alike hdir hf hI hg), rfl, rfl, hg.grown.marks, fun z hz => ?_⟩
  rcases hg.grown.new z hz with hz | ⟨p, hp, hb, hat, h0⟩
  · exact .inl hz
  · have hk := hk _ (show p.base.1 ≠ n by rw [hb]; exact hne.symm)
    have hpw := (counts_congr hg.grown.ext.mode p).mpr hp
    refine .inr ⟨dir, name, _, p, hnamei, (hk.counts rfl).mpr hpw, hb, ?_, h0⟩
    exact (hk.zones p hpw rfl).trans hat

theorem Makes.rollsBack {α : Type} {bad good : α} {done : Dev}
    {x : Except Crash (α × Dev)} (h : Readable d)
    (hq : d.vol.Quiet) (hdir : IsDir d dir) (hf : Free d n)
    (hnamei : Fs.dirNamei d c pathname = .ok (some (dir, name), iget d dir))
    (hm : Makes d dir n I name bad good done x) :
    (∃ d', x = .ok (bad, d') ∧ Restored d c pathname d') ∨ ∃ d', x = .ok (good, d') := by
  have hne := hf.ne_of_live hdir.live
  obtain ⟨hs, hk⟩ := h.sound.setBare hm.bare n
  have hin := (hk dir hne.symm).inode
  obtain ⟨r, w, hadd⟩ := hs.addEntry_quiet h.first hq (isFile_of_dir (by rw [hin]; exact hdir.mode))
    (by rw [hin]; exact h.size dir hdir.live hdir.mode)
  cases r with
  | none =>
    refine .inl ⟨_, hm.full w hadd, ?_⟩
    exact h.restored hdir hf hm.bare (h.full_bare hdir hf hm.bare hadd).1 hnamei
  | some r => exact .inr ⟨_, hm.made r.1 r.2 w hadd⟩

-- ======== sys_mkdir

/-- A block with the number in `i_zone[0]` of a directory whose bit is
clear: `truncate` panics. -/
theorem truncate_cleared (hmode : (v.inode n).mode = .dir)
    (hzone : (v.inode n).zone 0 = z) (h0 : z ≠ 0)
    (hlow : v.firstdatazone ≤ z) (hhigh : z < v.nzones) (hheld : v.held z = 0) (hm : ¬ v.Marked z) :
    truncate n v = .error .bitCleared := by
  have hfree : freeBlock z v = .error .bitCleared := by
    unfold freeBlock
    rw [if_neg (by omega), if_neg (not_not.mpr hheld)]
    exact if_neg hm
  have hdirect : freeDirect n v = .error .bitCleared := by
    unfold freeDirect forLoop forFrom
    rw [hzone, if_pos h0, hfree]
    rfl
  unfold truncate
  rw [if_neg (by rw [hmode]; exact nofun), hdirect]
  rfl

theorem freeBlock_marked (hheld : v.held z = 0)
    (hlow : v.firstdatazone ≤ z) (hhigh : z < v.nzones) (hm : v.Marked z) :
    ∃ u, freeBlock z v = .ok u ∧ u.inode = v.inode
      ∧ u.firstdatazone = v.firstdatazone ∧ u.nzones = v.nzones
      ∧ u.held = v.held ∧ ¬ u.Marked z := by
  refine ⟨(v.setData z (v.disk z)).setBit (z + 1 - v.firstdatazone) false,
    ?_, rfl, rfl, rfl, rfl, ?_⟩
  · unfold freeBlock
    rw [if_neg (by omega), if_neg (not_not.mpr hheld)]
    exact if_pos hm
  · have hbit := Vol.bit_setBit (v := v.setData z (v.disk z))
      (Vol.isSome_of_bit hm) false (z + 1 - v.firstdatazone)
    rw [if_pos rfl] at hbit
    show ¬ ((v.setData z (v.disk z)).setBit (z + 1 - v.firstdatazone)
      false).bit (z + 1 - v.firstdatazone) = true
    rw [hbit]
    exact Bool.false_ne_true

/-- `sys_mkdir` that finds no room for the name gives its block back
twice. -/
theorem MakesDir.stuck {x : Except Crash (Int × Dev)}
    (h : Readable d) (hdir : IsDir d dir) (hf : Free d n) (hm : MakesDir d dir n name x)
    (hb : newBlock (d.vol.setInode n .blank) = .ok (z, v)) (h0 : z ≠ 0)
    (hadd : addEntry dir name (Fs.mkdirVol v z n dir) = .ok (none, w)) :
    x = .error (.vol .bitCleared) := by
  have hne := hf.ne_of_live hdir.live
  have hp := h.mkdirVol hdir hf hb h0
  -- the block was given out, so nobody holds its buffer
  have hheld : w.held z = 0 := by
    rw [addEntry_held hadd, hp.held]
    exact newBlock_not_held (v := d.vol.setInode n .blank) hb h0
  rcases hp.addEntry h hdir hne hadd with ⟨-, hg⟩ | ⟨b, i, hc, -⟩
  swap
  · cases hc
  -- the block is still the first zone of the new directory
  have hin : w.inode n = ⟨.dir, 32, fun k => if k = 0 then z else 0⟩ := by
    rw [hg.grown.others n hne, hp.inode]
  have hzone : w.zoneAt (.root (n, 0)) = z := by
    rw [zoneAt_root, hin]
    rfl
  have hc : Counts w (.root (n, 0)) :=
    ⟨isFile_of_dir (by rw [hin]), by omega⟩
  obtain ⟨hlow, hhigh, hmark⟩ := hg.grown.ext.sound.consistent.zone _ hc (by rw [hzone]; exact h0)
  rw [hzone] at hlow hhigh hmark
  obtain ⟨u, hu, huin, hu1, hu2, huh, hum⟩ :=
    freeBlock_marked hheld hlow hhigh hmark
  have htr : truncate n u = .error .bitCleared :=
    truncate_cleared (by rw [huin, hin]) (by rw [huin, hin]; rfl) h0
      (by rw [hu1]; exact hlow) (by rw [hu2]; exact hhigh) (by rw [huh]; exact hheld) hum
  have hon : onVol (freeBlock z w) = .ok u := by
    rw [hu]
    rfl
  rw [hm.full z v w hb h0 hadd, bind_of_ok hon]
  have hcount : (((d.fresh2 n).setVol u).setLinks n 0).count n = 1 :=
    update_self ..
  have hlinks : (((d.fresh2 n).setVol u).setLinks n 0).nlinks n = 0 :=
    update_self ..
  unfold iput
  rw [if_neg (by omega), if_neg (by omega), if_pos hlinks]
  show ((onVol (truncate n u) >>= _) >>= _) = _
  rw [htr]
  rfl

/-- `sys_mkdir` that has entered its directory returns 0, even where the
count of its parent runs over. -/
theorem mkdir_returns (hdir : IsDir d dir) (hf : Free d n) (hs : Sound w) (a : Nat) :
    ∃ d', putBoth ((iget ((d.fresh2 n).setVol w) dir).setLinks dir a) dir n 0 = .ok (0, d') := by
  have hne := hf.ne_of_live hdir.live
  generalize he : (iget ((d.fresh2 n).setVol w) dir).setLinks dir a = e
  have hcount : e.count dir ≠ 0 := by
    rw [← he]
    show update _ dir _ dir ≠ 0
    rw [update_self]
    omega
  have hlive : e.live dir = true := by
    obtain ⟨hr, hbit⟩ := live_iff.mp hdir.live
    refine live_iff.mpr ⟨by rw [← he]; exact hr, ?_⟩
    rw [← he]
    show (d.setInodeBit n true).inodeBit dir = true
    rw [Dev.inodeBit_setInodeBit hf.map, if_neg hne.symm]
    exact hbit
  obtain ⟨e1, h1⟩ := iput_returns (by rw [← he]; exact hs) hlive hcount
  have hn : e.count n = 1 ∧ e.nlinks n = 2 := by
    rw [← he]
    refine ⟨?_, ?_⟩
    · show update (update d.count n 1) dir _ n = 1
      rw [update_of_ne hne, update_self]
    · show update (update _ n _) dir _ n = 2
      rw [update_of_ne hne, update_self]
  have hn1 : e1.count n = 1 ∧ e1.nlinks n = 2 := by
    rcases iput_cases h1 with ⟨-, rfl⟩ | ⟨-, -, u, -, rfl⟩
    · refine ⟨?_, hn.2⟩
      show update e.count dir _ n = 1
      rw [update_of_ne hne]
      exact hn.1
    · refine ⟨?_, hn.2⟩
      show update e.count dir _ n = 1
      rw [update_of_ne hne]
      exact hn.1
  unfold putBoth
  rw [bind_of_ok h1, bind_of_ok (iput_drop (.inr ⟨by omega, by omega⟩))]
  exact ⟨_, rfl⟩

-- ======== the result

/-- A creation that returns an error has created nothing; `sys_mkdir`
panics where it should do so, exactly when it gets stuck. -/
theorem failed_creation_rolls_back_iff (h : Readable d)
    (hq : d.vol.Quiet) (hroot : d.count c.root ≠ 0)
    (hpwd : d.count c.pwd ≠ 0) (o : Creation) (pathname : Name) :
    RollsBack d c pathname (o.exec d c pathname) ↔ ¬ o.Stuck d c pathname := by
  have hrefl : ∀ {code : Int}, RollsBack d c pathname (.ok (code, d)) :=
    fun _ => .refl d c pathname
  cases o with
  | openNamei flags =>
    refine iff_of_true ?_ fun hc => by cases hc.1
    show RollsBack d c pathname (Fs.openNamei d c pathname { flags with creat := true } >>= _)
    rcases h.openNamei hroot hpwd pathname { flags with creat := true } with
      ⟨code, hx, hc⟩ | ⟨dir, name, n, hdir, hf, hnamei, hm⟩ | ⟨m, v, hx, -⟩
    · rw [bind_of_ok hx]
      exact hrefl
    · rcases hm.rollsBack h hq hdir hf hnamei with ⟨d', hx, hr⟩ | ⟨d', hx⟩
      · rw [bind_of_ok hx]
        exact fun _ => hr
      · rw [bind_of_ok hx]
        exact fun hc => absurd hc (by omega)
    · rw [bind_of_ok hx]
      exact fun hc => absurd hc (by omega)
  | sysMknod mode dev =>
    refine iff_of_true ?_ fun hc => by cases hc.1
    show RollsBack d c pathname (Fs.sysMknod d c pathname mode dev)
    rcases h.sysMknod hroot hpwd pathname mode dev with
      ⟨code, hx, hc⟩ | ⟨dir, name, n, hdir, hf, hnamei, hm⟩
    · rw [hx]
      exact hrefl
    · rcases hm.rollsBack h hq hdir hf hnamei with ⟨d', hx, hr⟩ | ⟨d', hx⟩
      · rw [hx]
        exact fun _ => hr
      · rw [hx]
        exact fun hc => absurd hc (by omega)
  | sysMkdir =>
    show RollsBack d c pathname (Fs.sysMkdir d c pathname) ↔ _
    rcases h.sysMkdir hroot hpwd pathname with
      ⟨code, hx, hc, hnot⟩ | ⟨hsu, dir, name, n, hdir, hf, hnamei, hparent, hnew, hm⟩
    · rw [hx]
      refine iff_of_true hrefl ?_
      rintro ⟨-, hsu, dir, name, d1, n, d2, z, v, w, hp, hnew, -⟩
      rcases hnot dir name d1 n d2 hp with hno | hno
      · exact hno hnew
      · rw [hsu] at hno
        cases hno
    -- the pieces of a call that gets stuck are those of this call
    have hstuck : (Creation.sysMkdir).Stuck d c pathname ↔
        ∃ z v w, newBlock (d.vol.setInode n .blank) = .ok (z, v) ∧ z ≠ 0
          ∧ addEntry dir name (Fs.mkdirVol v z n dir) = .ok (none, w) := by
      constructor
      · rintro ⟨-, -, dir', name', d1, n', d2, z, v, w, hp, hnew', hb, h0, hadd⟩
        rw [hparent] at hp
        cases hp
        rw [hnew] at hnew'
        cases hnew'
        exact ⟨z, v, w, hb, h0, hadd⟩
      · rintro ⟨z, v, w, hb, h0, hadd⟩
        exact ⟨rfl, hsu, dir, name, _, n, _, z, v, w, hparent, hnew, hb, h0, hadd⟩
    rw [hstuck]
    have hne := hf.ne_of_live hdir.live
    have hbl := h.sound.setBlank n
    obtain ⟨z, v, hb⟩ := newBlock_returns hbl.1.mounted fun z hz =>
      absurd (hq z) hz
    by_cases h0 : z = 0
    · subst h0
      refine iff_of_true ?_ ?_
      · rw [hm.noBlock v hb]
        obtain rfl := newBlock_zero hbl.1 h.first hb
        exact fun _ => h.restored hdir hf (.inl rfl) (.refl hbl.1 dir) hnamei
      · rintro ⟨z, v', w, hb', h0, -⟩
        rw [hb] at hb'
        cases hb'
        exact h0 rfl
    · have hp := h.mkdirVol hdir hf hb h0
      have hin := (hp.kept dir hne.symm).inode
      have hfile := isFile_of_dir (by rw [hin]; exact hdir.mode)
      obtain ⟨r, w, hadd⟩ := hp.sound.addEntry_quiet (hp.first ▸ h.first)
        (fun m => by rw [hp.held]; exact hq m) hfile (by rw [hin]; exact h.size dir hdir.live hdir.mode)
      cases r with
      | none =>
        refine iff_of_false ?_ (not_not.mpr ⟨z, v, w, hb, h0, hadd⟩)
        rw [hm.stuck h hdir hf hb h0 hadd]
        exact fun hc => hc
      | some r =>
        refine iff_of_true ?_ ?_
        · rcases hp.addEntry h hdir hne hadd with ⟨hc, -⟩ | ⟨b, i, hr, -, ho⟩
          · cases hc
          cases hr
          have hent := ho.entered (n := n) hfile (by have := hf.high; have := h.short; omega)
          obtain ⟨d', hd'⟩ := mkdir_returns hdir hf hent.touches.sound (d.nlinks dir + 1)
          rw [hm.made z v b i w hb h0 hadd, hd']
          exact fun hc => absurd hc (by omega)
        · rintro ⟨z', v', w', hb', h0', hadd'⟩
          rw [hb] at hb'
          cases hb'
          rw [hadd] at hadd'
          cases hadd'

/-- With no inode left, `mknod("x")` returns `-ENOSPC`. -/
theorem failed_creation_rolls_back_iff_mknod : ∃ d',
    Fs.sysMknod (linkedDev 1 2 .emptyFile) rootCaller [120] .reg none = .ok (-ENOSPC, d')
      ∧ Restored (linkedDev 1 2 .emptyFile) rootCaller [120] d' := by
  have hgood : Good (linkedDev 1 2 .emptyFile) :=
    good_linkedDev (fun _ => rfl) (by omega) (by omega) (by omega) (by omega)
      (fun _ => rfl) fun _ => rfl
  have hback := (failed_creation_rolls_back_iff (c := rootCaller)
    hgood.readable (fun _ => rfl) (by decide) (by decide)
    (.sysMknod .reg none) [120]).mpr fun hc => by cases hc.1
  have hx : (Fs.sysMknod (linkedDev 1 2 .emptyFile) rootCaller [120] .reg none).toOption.map Prod.fst
      = some (-ENOSPC) := by decide +kernel
  obtain ⟨⟨code, d'⟩, hx, hcode⟩ := Option.map_eq_some_iff.mp hx
  obtain rfl : code = -ENOSPC := hcode
  have hx : Creation.exec (.sysMknod .reg none) _ rootCaller [120] = _ := ok_of_toOption hx
  rw [hx] at hback
  exact ⟨d', hx, hback (by decide)⟩

/-- In a directory made by `sys_mknod`, which has no block, `mkdir` panics:
the path is `aB/x`, and `aB` is that directory. -/
theorem stuck_mkdir_panics : ¬ ∀ (d : Dev) (c : Caller) (o : Creation)
    (pathname : Name), Good d → d.vol.Quiet → d.count c.root ≠ 0 →
      d.count c.pwd ≠ 0 → RollsBack d c pathname (o.exec d c pathname) := by
  intro hall
  have hgood : Good (linkedDev 1 5 ⟨.dir, 0, fun _ => 0⟩) :=
    good_linkedDev (fun _ => rfl) (by omega) (by omega) (by omega) (by omega)
      (fun _ => rfl) fun _ => rfl
  have hback := hall _ rootCaller .sysMkdir [97, 66, 47, 120] hgood
    (fun _ => rfl) (by decide) (by decide)
  have hx : (Creation.exec .sysMkdir (linkedDev 1 5 ⟨.dir, 0, fun _ => 0⟩) rootCaller
      [97, 66, 47, 120]).toOption.isNone := by
    decide +kernel
  generalize Creation.exec .sysMkdir _ rootCaller [97, 66, 47, 120] = x at hx hback
  cases x with
  | error p => exact hback
  | ok r => cases hx

end LearnLinux.Fs
