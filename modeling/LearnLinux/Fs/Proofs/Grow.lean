/-
What `create_block` does to everything else. The results on zones say that
a file system stays sound and that no data is lost; here is what is left of
the other inodes, and which zones are taken.

`Grown v ino v'` is a call of `create_block` for inode `ino`: another inode
is untouched, down to its zones, and a zone that was free and is marked now
hangs on `ino`. While no buffer is held, the call returns.
-/
import LearnLinux.Fs.Proofs.Files
import LearnLinux.Fs.Links

namespace LearnLinux.Fs

open Lib

variable {v v' v₁ : Vol} {ino z k e block t : Nat} {create : Bool} {q : ZPath}

-- ======== growing a file

structure Grown (v : Vol) (ino : Nat) (v' : Vol) : Prop where
  ext : Extends v v'
  first : v'.firstdatazone = v.firstdatazone
  others : ∀ i, i ≠ ino → v'.inode i = v.inode i
  zones : ∀ p, Counts v p → p.base.1 ≠ ino → v'.zoneAt p = v.zoneAt p
  marks : ∀ z, v.Marked z → v'.Marked z
  new : ∀ z, v'.Marked z → v.Marked z ∨ ∃ p, Counts v p ∧ p.base.1 = ino ∧ v'.zoneAt p = z ∧ z ≠ 0

theorem Grown.of_same (h : Sound v) (ino : Nat) (hfirst : v'.firstdatazone = v.firstdatazone)
    (hn : v'.nzones = v.nzones) (hz : v'.zmap = v.zmap)
    (hi : v'.inode = v.inode) (hd : v'.data = v.data) : Grown v ino v' := by
  have hforest : v'.forest = v.forest := by
    unfold Vol.forest
    rw [hi, hd]
  have hmark : ∀ z, v'.Marked z ↔ v.Marked z := by
    intro z
    unfold Vol.Marked Vol.bit
    rw [hfirst, hz]
  refine ⟨Extends.of_same h hfirst hn hz hi hd, hfirst, ?_, ?_, ?_, ?_⟩
  · intro i _
    rw [hi]
  · intro p _ _
    unfold Vol.zoneAt
    rw [hforest]
  · exact fun z => (hmark z).mpr
  · exact fun z hz => .inl ((hmark z).mp hz)

theorem Grown.refl (h : Sound v) (ino : Nat) : Grown v ino v :=
  .of_same h ino rfl rfl rfl rfl rfl

theorem Grown.trans (h : Grown v ino v₁) (h' : Grown v₁ ino v') : Grown v ino v' where
  ext := h.ext.trans h'.ext
  first := h'.first.trans h.first
  others i hi := (h'.others i hi).trans (h.others i hi)
  zones p hp hne := (h'.zones p ((counts_congr h.ext.mode p).mpr hp) hne).trans (h.zones p hp hne)
  marks z hz := h'.marks z (h.marks z hz)
  new z hz := by
    rcases h'.new z hz with hz1 | ⟨p, hp, hb, hat, h0⟩
    · rcases h.new z hz1 with hz0 | ⟨p, hp, hb, hat, h0⟩
      · exact .inl hz0
      · refine .inr ⟨p, hp, hb, ?_, h0⟩
        rw [h'.ext.keeps p ((counts_congr h.ext.mode p).mpr hp) (by rw [hat]; exact h0), hat]
    · exact .inr ⟨p, (counts_congr h.ext.mode p).mp hp, hb, hat, h0⟩

/-- Where there is no data below block 1, 0 means that nothing was
allocated. -/
theorem newBlock_zero (h : Sound v) (hf : 0 < v.firstdatazone)
    (hnew : newBlock v = .ok (0, v')) : v' = v := by
  rcases newBlock_cases h.mounted hnew with ⟨-, rfl⟩ | hfresh
  · rfl
  · have := hfresh.low
    omega

/-- A new block, stored into an empty slot of a file. -/
theorem Sound.stored (h : Sound v) {v2 : Vol} {p : ZPath}
    (hnew : Fs.newBlock v = .ok (z, v₁)) (hz : z ≠ 0) (hp : Counts v p)
    (hslot : HasSlot v₁.forest p) (hempty : v.zoneAt p = 0) (hs : SlotSet v₁ p z v2)
    (hin : ∀ i, i ≠ p.base.1 → v2.inode i = v₁.inode i) : Grown v p.base.1 v2 := by
  obtain ⟨hx, hino, hlt, hready, hsame⟩ := h.newBlock hnew
  have hp1 := (counts_congr hx.mode p).mpr hp
  have hempty1 : v₁.zoneAt p = 0 := by rw [hsame p hp, hempty]
  have hat := hs.zoneAt hx.sound (hready hz) hp1 hslot hempty1
  rcases newBlock_cases h.mounted hnew with ⟨hc, -⟩ | hfresh
  · exact absurd hc hz
  have hfirst : v₁.firstdatazone = v.firstdatazone := by
    rw [hfresh.eq]
    rfl
  have hbit : ∀ t, v2.bit t = if t = z + 1 - v.firstdatazone then true else v.bit t := by
    intro t
    rw [← hfresh.bit]
    unfold Vol.bit
    rw [hs.zmap]
  have hmark : ∀ w, v2.Marked w ↔ w + 1 - v.firstdatazone
      = z + 1 - v.firstdatazone ∨ v.Marked w := by
    intro w
    unfold Vol.Marked
    rw [hs.first, hfirst, hbit]
    split
    · rename_i hw
      exact iff_of_true rfl (.inl hw)
    · rename_i hw
      exact (or_iff_right hw).symm
  refine ⟨hx.trans (hs.extends hx.sound (hready hz) hp1 hslot hempty1),
    hs.first.trans hfirst, ?_, ?_, ?_, ?_⟩
  · intro i hi
    rw [hin i hi, hino]
  · intro q hq hne
    have hqp : q ≠ p := by
      rintro rfl
      exact hne rfl
    rw [(hat q ((counts_congr hx.mode q).mpr hq)).2 hqp, hsame q hq]
  · exact fun w hw => (hmark w).mpr (.inr hw)
  · intro w hw
    rcases (hmark w).mp hw with hw | hw
    · have hlow := hfresh.low
      obtain rfl : w = z := by omega
      exact .inr ⟨p, hp, rfl, (hat p hp1).1 rfl, hz⟩
    · exact .inl hw

section

variable (h : Sound v) (hf : 0 < v.firstdatazone)
include h hf

theorem Sound.zoneOrNew_grown (hp : Counts v (.root (ino, k)))
    (hz : Fs.zoneOrNew create ino k v = .ok (z, v')) : Grown v ino v' := by
  unfold Fs.zoneOrNew at hz
  split at hz
  · rename_i hc
    obtain ⟨⟨y, v₁⟩, hnew, hgo⟩ := bind_eq_ok hz
    cases hgo
    obtain ⟨-, -, hlt, -⟩ := h.newBlock hnew
    rw [Nat.mod_eq_of_lt hlt]
    by_cases hy : y = 0
    · subst hy
      obtain rfl := newBlock_zero h hf hnew
      exact .of_same h ino rfl rfl rfl (setZone_zero hc.2) rfl
    · exact h.stored hnew hy hp trivial hc.2 (slotSet_setZone v₁ ino k y)
        fun i hi => setZone_others hi
  · cases hz
    exact .refl h ino

theorem Sound.entryOrNew_grown (hp : Counts v (q.child e)) (hq : v.zoneAt q ≠ 0)
    (hz : Fs.entryOrNew create (v.zoneAt q) e v = .ok (z, v')) : Grown v q.base.1 v' := by
  unfold Fs.entryOrNew at hz
  split at hz
  · rename_i hc
    obtain ⟨⟨y, v₁⟩, hnew, hgo⟩ := bind_eq_ok hz
    have hh := Extends.hold h (v.zoneAt q)
    have hg : Grown v q.base.1 (v.hold (v.zoneAt q)) :=
      .of_same h _ rfl rfl rfl rfl rfl
    obtain ⟨hx, -, hlt, -, hsame⟩ := hh.sound.newBlock hnew
    have hq1 : v₁.zoneAt q = v.zoneAt q :=
      hsame q (counts_parent q e hp)
    simp only at hgo
    split at hgo
    · rename_i hy
      cases hgo
      rw [← hq1]
      have hempty : (v.hold (v.zoneAt q)).zoneAt (q.child e) = 0 :=
        (zoneAt_child hq).trans hc.2
      have hst := hh.sound.stored hnew hy ((counts_congr hh.mode _).mpr hp)
        (show v₁.zoneAt q ≠ 0 by rw [hq1]; exact hq) hempty
        (slotSet_setEntry v₁ q e z hlt) fun i _ => rfl
      exact (hg.trans hst).trans (.of_same hst.ext.sound _ rfl rfl rfl rfl rfl)
    · rename_i hy
      obtain rfl : y = 0 := not_not.mp hy
      obtain rfl := newBlock_zero hh.sound hf hnew
      cases hgo
      exact hg.trans (.of_same hg.ext.sound _ rfl rfl rfl rfl rfl)
  · cases hz
    exact .refl h _

theorem Sound.pathOrNew_grown {p : ZPath} (hp : Counts v p)
    (hz : Fs.pathOrNew create p v = .ok (z, v')) : Grown v p.base.1 v' := by
  induction p generalizing z v' with
  | root x => exact h.zoneOrNew_grown hf hp hz
  | child q e ih =>
    obtain ⟨⟨t, v₁⟩, ht, hgo⟩ := bind_eq_ok hz
    have hq := counts_parent q e hp
    have hg := ih hq ht
    obtain ⟨-, rfl⟩ := h.pathOrNew hq ht
    simp only at hgo
    split at hgo
    · cases hgo
      exact hg
    · rename_i h0
      exact hg.trans (hg.ext.sound.entryOrNew_grown
        (by rw [hg.first]; exact hf) ((counts_congr hg.ext.mode _).mpr hp) h0 hgo)

/-- `create_block` and `bmap`. -/
theorem Sound.innerBmap_grown (hfile : v.IsFile ino) (hb : block < maxBlocks)
    (hz : Fs.innerBmap create ino block v = .ok (z, v')) : Grown v ino v' := by
  rw [innerBmap_eq hb] at hz
  have hg := h.pathOrNew_grown hf (counts_blockPath hfile hb) hz
  rwa [base_blockPath] at hg

end

-- ======== buffers are held

theorem newBlock_held (h : newBlock v = .ok (z, v')) : v'.held = v.held := by
  rw [newBlock_eq] at h
  split at h
  · cases h
    rfl
  · split at h
    · cases h
      rfl
    · split at h
      · cases h
      · cases h
        rfl

theorem newBlock_not_held (h : newBlock v = .ok (z, v')) (h0 : z ≠ 0) : v.held z = 0 := by
  rw [newBlock_eq] at h
  split at h
  · cases h
    exact absurd rfl h0
  · split at h
    · cases h
      exact absurd rfl h0
    · split at h
      · cases h
      · rename_i hc
        cases h
        exact not_not.mp hc

theorem zoneOrNew_held (h : zoneOrNew create ino k v = .ok (z, v')) : v'.held = v.held := by
  unfold zoneOrNew at h
  split at h
  · obtain ⟨⟨y, v₁⟩, hnew, hgo⟩ := bind_eq_ok h
    have hheld := newBlock_held hnew
    cases hgo
    exact hheld
  · cases h
    rfl

/-- A buffer that was held is released. -/
theorem held_brelse (h : v'.held = (v.hold t).held) : (v'.brelse t).held = v.held := by
  funext m
  show (if m = t then v'.held m - 1 else v'.held m) = v.held m
  rw [h]
  show (if m = t then (if m = t then v.held m + 1 else v.held m) - 1
    else if m = t then v.held m + 1 else v.held m) = v.held m
  split
  · omega
  · rfl

theorem entryOrNew_held (h : entryOrNew create t e v = .ok (z, v')) : v'.held = v.held := by
  unfold entryOrNew at h
  split at h
  · obtain ⟨⟨y, v₁⟩, hnew, hgo⟩ := bind_eq_ok h
    have hheld := newBlock_held hnew
    simp only at hgo
    split at hgo
    · cases hgo
      exact held_brelse hheld
    · cases hgo
      exact held_brelse hheld
  · cases h
    rfl

theorem pathOrNew_held {p : ZPath} (h : pathOrNew create p v = .ok (z, v')) : v'.held = v.held := by
  induction p generalizing z v' with
  | root x => exact zoneOrNew_held h
  | child q e ih =>
    obtain ⟨⟨t, v₁⟩, ht, hgo⟩ := bind_eq_ok h
    simp only at hgo
    split at hgo
    · cases hgo
      exact ih ht
    · exact (entryOrNew_held hgo).trans (ih ht)

theorem innerBmap_held (h : innerBmap create ino block v = .ok (z, v')) : v'.held = v.held := by
  by_cases hb : block < maxBlocks
  · rw [innerBmap_eq hb] at h
    exact pathOrNew_held h
  · rw [innerBmap, if_pos (Nat.not_lt.mp hb)] at h
    cases h

/-- A buffer that is held is one of a marked block: then `new_block` does
not get it. -/
theorem newBlock_returns (h : Mounted v) (hheld : ∀ z, v.held z ≠ 0 → v.Marked z) :
    ∃ z v', newBlock v = .ok (z, v') := by
  rw [newBlock_eq]
  split
  · exact ⟨0, v, rfl⟩
  · rename_i t ht
    obtain ⟨hlt, h1⟩ := h.firstClear ht
    rw [if_neg (Nat.not_le.mpr hlt), if_neg]
    · exact ⟨_, _, rfl⟩
    · exact fun hc => (fresh_of_firstClear ht h1 hlt).free (hheld _ hc)

theorem zoneOrNew_quiet (h : Sound v) (hq : v.Quiet) : ∃ z v', zoneOrNew create ino k v = .ok (z, v') := by
  unfold zoneOrNew
  split
  · obtain ⟨y, v₁, hnew⟩ :=
      newBlock_returns h.mounted fun z hz => absurd (hq z) hz
    exact ⟨_, _, bind_of_ok hnew⟩
  · exact ⟨_, _, rfl⟩

theorem entryOrNew_quiet (h : Sound v) (hq : v.Quiet)
    (hp : Counts v (q.child e)) (h0 : v.zoneAt q ≠ 0) :
    ∃ z v', entryOrNew create (v.zoneAt q) e v = .ok (z, v') := by
  unfold entryOrNew
  split
  · obtain ⟨y, v₁, hnew⟩ := newBlock_returns
      (Extends.hold h (v.zoneAt q)).sound.mounted (fun z hz => by
        -- the only buffer held is that of the table itself
        by_cases hzt : z = v.zoneAt q
        · rw [hzt]
          exact (h.consistent.zone q (counts_parent q e hp) h0).2.2
        · exact absurd (hq z) (by
            have : (v.hold (v.zoneAt q)).held z = v.held z := if_neg hzt
            rw [← this]
            exact hz))
    by_cases hy : y ≠ 0
    · exact ⟨y, _, (bind_of_ok hnew).trans (if_pos hy)⟩
    · exact ⟨0, _, (bind_of_ok hnew).trans (if_neg hy)⟩
  · exact ⟨_, _, rfl⟩

theorem Vol.Quiet.of_held (hq : v.Quiet) (h : v'.held = v.held) : v'.Quiet := fun n => by
  rw [h]
  exact hq n

theorem Sound.pathOrNew_quiet (h : Sound v) (hq : v.Quiet) {p : ZPath}
    (hp : Counts v p) : ∃ z v', Fs.pathOrNew create p v = .ok (z, v') := by
  induction p with
  | root x => exact zoneOrNew_quiet h hq
  | child q e ih =>
    have hpar := counts_parent q e hp
    obtain ⟨t, v₁, ht⟩ := ih hpar
    have hq1 := hq.of_held (pathOrNew_held ht)
    obtain ⟨hx, rfl⟩ := h.pathOrNew hpar ht
    rw [Fs.pathOrNew, bind_of_ok ht]
    by_cases h0 : v₁.zoneAt q = 0
    · exact ⟨0, v₁, if_pos h0⟩
    · obtain ⟨z, v2, hz⟩ := entryOrNew_quiet hx.sound hq1 ((counts_congr hx.mode _).mpr hp) h0
      exact ⟨z, v2, (if_neg h0).trans hz⟩

theorem Sound.innerBmap_quiet (h : Sound v) (hq : v.Quiet)
    (hfile : v.IsFile ino) (hb : block < maxBlocks) :
    ∃ z v', Fs.innerBmap create ino block v = .ok (z, v') := by
  rw [innerBmap_eq hb]
  exact h.pathOrNew_quiet hq (counts_blockPath hfile hb)

end LearnLinux.Fs
