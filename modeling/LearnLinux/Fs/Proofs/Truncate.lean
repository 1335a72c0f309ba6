/-
`truncate` frees each zone of a file once.

While it runs the file system is not consistent: blocks are freed that
the inode still names, and only the last assignments cut them off. What
holds throughout is relative to the state at the start. `Freed` says
that outside the zones of the paths done so far, block contents and bits
are those of the start; since no zone is reached twice, every path still
to be done finds its block unread and its bit set. The done paths grow
by whole subtrees: an indirect block goes after its entries.
-/
import LearnLinux.Fs.Proofs.Zones

namespace LearnLinux.Fs

open Lib

variable {v₀ v v' : Vol} {done : ZPath → Prop} {p q : ZPath} {f : Nat → Vol → Except Panic Vol}
variable {ino i : Nat} {o : ZoneOp}

-- ======== freed

/-- The zones of the paths in `done` have been freed, and only those. -/
structure Freed (v₀ : Vol) (done : ZPath → Prop) (v : Vol) : Prop where
  counts : ∀ p, done p → Counts v₀ p
  first : v.firstdatazone = v₀.firstdatazone
  nzones : v.nzones = v₀.nzones
  map : ∀ i, (v.zmap i).isSome = (v₀.zmap i).isSome
  data : ∀ n, (∀ p, done p → v₀.zoneAt p ≠ n) → v.data n = v₀.data n
  bit : ∀ t, (∀ p, done p → v₀.zoneAt p ≠ 0 →
    v₀.zoneAt p + 1 - v₀.firstdatazone ≠ t) → v.bit t = v₀.bit t

theorem Freed.refl (v : Vol) : Freed v (fun _ => False) v :=
  ⟨fun _ h => h.elim, rfl, rfl, fun _ => rfl, fun _ _ => rfl, fun _ _ => rfl⟩

/-- More paths may be called done. -/
theorem Freed.mono (hf : Freed v₀ done v) {more : ZPath → Prop}
    (hle : ∀ p, done p → more p) (hc : ∀ p, more p → Counts v₀ p) : Freed v₀ more v :=
  ⟨hc, hf.first, hf.nzones, hf.map, fun n hn => hf.data n fun p hp => hn p (hle p hp),
    fun t ht => hf.bit t fun p hp => ht p (hle p hp)⟩

/-- Neither references nor inodes matter. -/
theorem Freed.of_same (hf : Freed v₀ done v)
    (h1 : v'.firstdatazone = v.firstdatazone) (h2 : v'.nzones = v.nzones)
    (h3 : v'.zmap = v.zmap) (h4 : v'.data = v.data) : Freed v₀ done v' := by
  refine ⟨hf.counts, h1.trans hf.first, h2.trans hf.nzones, ?_, ?_, ?_⟩
  · intro i
    rw [h3]
    exact hf.map i
  · intro n hn
    rw [h4]
    exact hf.data n hn
  · intro t ht
    unfold Vol.bit
    rw [h3]
    exact hf.bit t ht

/-- Zones of different paths have different bits. -/
theorem Sound.bit_ne (h : Sound v) (hp : Counts v p)
    (hq : Counts v q) (hp0 : v.zoneAt p ≠ 0) (hq0 : v.zoneAt q ≠ 0) (hne : p ≠ q) :
    v.zoneAt p + 1 - v.firstdatazone ≠ v.zoneAt q + 1 - v.firstdatazone := by
  intro hbit
  have h2 := (h.consistent.zone q hq hq0).1
  exact hne (h.consistent.once p q hp hq hp0 (by omega))

/-- `free_block` of a zone that has not been freed yet. -/
theorem Freed.freeBlock (h₀ : Sound v₀) (hf : Freed v₀ done v)
    (hp : Counts v₀ p) (h0 : v₀.zoneAt p ≠ 0) (hnot : ¬ done p) :
    ∃ v', freeBlock (v₀.zoneAt p) v = .ok v' ∧ v'.inode = v.inode
      ∧ Freed v₀ (fun r => done r ∨ r = p) v' := by
  obtain ⟨hlow, hhigh, hmark⟩ := h₀.consistent.zone p hp h0
  have hcounts : ∀ r, done r ∨ r = p → Counts v₀ r := by
    rintro r (hr | rfl)
    · exact hf.counts r hr
    · exact hp
  have hbit : v.bit (v₀.zoneAt p + 1 - v₀.firstdatazone) = true := by
    rw [hf.bit]
    · exact hmark
    · intro q hq hq0
      refine h₀.bit_ne (hf.counts q hq) hp hq0 h0 ?_
      rintro rfl
      exact hnot hq
  unfold Fs.freeBlock
  rw [hf.first, hf.nzones, if_neg (by omega)]
  split
  · refine ⟨_, rfl, rfl, ?_⟩
    exact (hf.mono (fun r => .inl) hcounts).of_same rfl rfl rfl rfl
  · have hsome := Vol.isSome_of_bit hbit
    simp only
    rw [if_pos]
    · refine ⟨_, rfl, rfl, hcounts, hf.first, hf.nzones, ?_, ?_, ?_⟩
      · intro i
        rw [Vol.setBit_isSome]
        exact hf.map i
      · intro n hn
        show (if n = v₀.zoneAt p then _ else v.data n) = _
        rw [if_neg fun hc => hn p (.inr rfl) hc.symm]
        exact hf.data n fun q hq => hn q (.inl hq)
      · intro t ht
        rw [Vol.bit_setBit]
        · rw [if_neg]
          · exact hf.bit t fun q hq => ht q (.inl hq)
          · show ¬ t = v₀.zoneAt p + 1 - v.firstdatazone
            rw [hf.first]
            exact fun hc => ht p (.inr rfl) h0 hc.symm
        · show (v.zmap ((_ + 1 - v.firstdatazone) / 8192)).isSome
          rw [hf.first]
          exact hsome
    · show v.bit (v₀.zoneAt p + 1 - v.firstdatazone) = true
      rw [hf.first]
      exact hbit

-- ======== subtrees

/-- `f` frees the subtree of `p`, wherever `truncate` has got to, as
long as it is not begun. -/
def Frees (v₀ : Vol) (f : Nat → Vol → Except Panic Vol) (p : ZPath) : Prop :=
  ∀ (done : ZPath → Prop) (v : Vol), Freed v₀ done v → v₀.zoneAt p ≠ 0 →
    (∀ r, p.Under r → ¬ done r) → ∃ v', f (v₀.zoneAt p) v = .ok v' ∧ v'.inode = v.inode
      ∧ Freed v₀ (fun r => done r ∨ (Counts v₀ r ∧ p.Under r)) v'

/-- A data block is its own subtree. -/
theorem frees_freeBlock (h₀ : Sound v₀) (hp : Counts v₀ p)
    (hleaf : ∀ i, ¬ Counts v₀ (p.child i)) : Frees v₀ freeBlock p := by
  intro done v hf h0 hnot
  obtain ⟨v', hv', hin, hf'⟩ := hf.freeBlock h₀ hp h0 (hnot p p.under_self)
  refine ⟨v', hv', hin, hf'.mono ?_ ?_⟩
  · rintro r (hr | rfl)
    · exact .inl hr
    · exact .inr ⟨hp, r.under_self⟩
  · rintro r (hr | hr)
    · exact hf.counts r hr
    · exact hr.1

/-- The loop over the entries of the block at `q`. -/
theorem Freed.freeEntries
    (hf : Freed v₀ done v) (h0 : v₀.zoneAt q ≠ 0) (hsub : ∀ i, i < 512 → Frees v₀ f (q.child i))
    (hnot : ∀ r, q.Under r → ¬ done r) : ∃ v', freeEntries f (v₀.data (v₀.zoneAt q)) v = .ok v'
      ∧ v'.inode = v.inode ∧ Freed v₀ (fun r => done r
          ∨ ∃ i, i < 512 ∧ Counts v₀ r ∧ (q.child i).Under r) v' := by
  have hentry : ∀ i, (v₀.data (v₀.zoneAt q)).entry i
      = v₀.zoneAt (q.child i) := fun i => (zoneAt_child h0).symm
  -- after `n` rounds the subtrees of the first `n` entries are done
  have hloop := forLoop_ok (n := 512)
    (f := fun i w => if (v₀.data (v₀.zoneAt q)).entry i ≠ 0 then
      f ((v₀.data (v₀.zoneAt q)).entry i) w else .ok w)
    (I := fun n w => w.inode = v.inode ∧ Freed v₀ (fun r => done r
      ∨ ∃ i, i < n ∧ Counts v₀ r ∧ (q.child i).Under r) w)
    ⟨rfl, hf.mono (fun r => .inl) (by
      rintro r (hr | ⟨i, hi, -⟩)
      · exact hf.counts r hr
      · omega)⟩ ?_
  · obtain ⟨v', hv', hin, hf'⟩ := hloop
    exact ⟨v', hv', hin, hf'⟩
  intro n w hn ⟨hin, hw⟩
  have hnext : ∀ r, (done r ∨ ∃ i, i < n + 1 ∧ Counts v₀ r
      ∧ (q.child i).Under r) → Counts v₀ r := by
    rintro r (hr | ⟨i, -, hr, -⟩)
    · exact hf.counts r hr
    · exact hr
  by_cases hz : v₀.zoneAt (q.child n) = 0
  · refine ⟨w, if_neg (by rw [hentry, hz]; exact fun h => h rfl), hin, hw.mono ?_ hnext⟩
    rintro r (hr | ⟨i, hi, hr⟩)
    · exact .inl hr
    · exact .inr ⟨i, by omega, hr⟩
  · obtain ⟨v', hv', hin', hf'⟩ := hsub n hn _ w hw hz (by
      rintro r hr (hd | ⟨i, hi, -, hr'⟩)
      · exact hnot r (Path.under_iff.mpr (.inr ⟨n, hr⟩)) hd
      · have := hr.child_inj hr'
        omega)
    refine ⟨v', ?_, hin'.trans hin, hf'.mono ?_ hnext⟩
    · rw [hentry, if_pos hz]
      exact hv'
    · rintro r ((hr | ⟨i, hi, hr⟩) | ⟨hc, hr⟩)
      · exact .inl hr
      · exact .inr ⟨i, by omega, hr⟩
      · exact .inr ⟨n, by omega, hc, hr⟩

/-- `free_ind` and `free_dind`: the entries' subtrees, then the block. -/
theorem frees_freeTree (h₀ : Sound v₀)
    (hq : Counts v₀ q) (hbound : ∀ i r, Counts v₀ r → (q.child i).Under r → i < 512)
    (hsub : ∀ i, i < 512 → Frees v₀ f (q.child i)) : Frees v₀ (freeTree f) q := by
  intro done v hf h0 hnot
  have hdata : v.data (v₀.zoneAt q) = v₀.data (v₀.zoneAt q) := by
    refine hf.data _ fun r hr hc => ?_
    have hrq := h₀.consistent.once r q (hf.counts r hr) hq (by rw [hc]; exact h0) hc
    rw [hrq] at hr
    exact hnot q q.under_self hr
  have hhold : Freed v₀ done (v.hold (v₀.zoneAt q)) :=
    hf.of_same rfl rfl rfl rfl
  obtain ⟨v1, hv1, hin1, hf1⟩ := hhold.freeEntries h0 hsub hnot
  have hrel : Freed v₀ _ (v1.brelse (v₀.zoneAt q)) :=
    hf1.of_same rfl rfl rfl rfl
  obtain ⟨v2, hv2, hin2, hf2⟩ := hrel.freeBlock h₀ hq h0 (by
    rintro (hd | ⟨i, -, -, hr⟩)
    · exact hnot q q.under_self hd
    · exact q.not_under_child hr)
  refine ⟨v2, ?_, hin2.trans hin1, hf2.mono ?_ ?_⟩
  · unfold freeTree
    rw [if_neg h0, hdata, bind_of_ok hv1]
    exact hv2
  · rintro r ((hr | ⟨i, -, hc, hr⟩) | rfl)
    · exact .inl hr
    · exact .inr ⟨hc, Path.under_iff.mpr (.inr ⟨i, hr⟩)⟩
    · exact .inr ⟨hq, r.under_self⟩
  · rintro r (hr | hr)
    · exact hf.counts r hr
    · exact hr.1

-- ======== direct zones

/-- The first `n` zones of the inode have been cleared, and nothing else
of any inode has changed. -/
structure Cut (v₀ : Vol) (ino n : Nat) (v : Vol) : Prop where
  others : ∀ i, i ≠ ino → v.inode i = v₀.inode i
  mode : (v.inode ino).mode = (v₀.inode ino).mode
  zone : ∀ k, (v.inode ino).zone k = if k < n then 0 else (v₀.inode ino).zone k

theorem setZone_others {k z : Nat} (hi : i ≠ ino) : (v.setZone ino k z).inode i = v.inode i :=
  if_neg hi

theorem setZone_self (ino k z : Nat) : (v.setZone ino k z).inode ino = { v.inode ino with
      zone := fun l => if l = k then z else (v.inode ino).zone l } :=
  if_pos rfl

/-- One more zone cleared. -/
theorem Cut.setZone {n : Nat} (hc : Cut v₀ ino n v) : Cut v₀ ino (n + 1) (v.setZone ino n 0) := by
  refine ⟨fun i hi => ?_, ?_, fun k => ?_⟩
  · rw [setZone_others hi, hc.others i hi]
  · rw [setZone_self]
    exact hc.mode
  · rw [setZone_self]
    show (if k = n then 0 else (v.inode ino).zone k) = _
    rw [hc.zone k]
    by_cases hk : k = n
    · rw [if_pos hk, if_pos (by omega)]
    · rw [if_neg hk]
      by_cases hlt : k < n
      · rw [if_pos hlt, if_pos (by omega)]
      · rw [if_neg hlt, if_neg (by omega)]

/-- The loop over `i_zone[0..6]`. -/
theorem Sound.freeDirect (h₀ : Sound v₀) (hfile : v₀.IsFile ino) :
    ∃ v', freeDirect ino v₀ = .ok v' ∧ Cut v₀ ino 7 v'
      ∧ Freed v₀ (fun r => ∃ k, k < 7 ∧ r = .root (ino, k)) v' := by
  refine forLoop_ok (I := fun n w => Cut v₀ ino n w
    ∧ Freed v₀ (fun r => ∃ k, k < n ∧ r = .root (ino, k)) w) ?_ ?_
  · refine ⟨⟨fun _ _ => rfl, rfl, fun k => (if_neg (by omega)).symm⟩,
      (Freed.refl v₀).mono (fun _ h => h.elim) ?_⟩
    rintro r ⟨k, hk, -⟩
    omega
  · intro n w hn ⟨hc, hf⟩
    have hcounts : ∀ r, (∃ k, k < n + 1 ∧ r = Path.root (ino, k)) → Counts v₀ r := by
      rintro r ⟨k, hk, rfl⟩
      exact ⟨hfile, by omega⟩
    have hz : (w.inode ino).zone n = v₀.zoneAt (.root (ino, n)) := by
      rw [hc.zone n, if_neg (by omega), zoneAt_root]
    by_cases h0 : v₀.zoneAt (.root (ino, n)) = 0
    · refine ⟨w, if_neg (by rw [hz, h0]; exact fun h => h rfl), ?_, hf.mono ?_ hcounts⟩
      · refine ⟨hc.others, hc.mode, fun k => ?_⟩
        rw [hc.zone k]
        by_cases hk : k = n
        · rw [if_neg (by omega), if_pos (by omega), hk]
          exact h0
        · by_cases hlt : k < n
          · rw [if_pos hlt, if_pos (by omega)]
          · rw [if_neg hlt, if_neg (by omega)]
      · rintro r ⟨k, hk, rfl⟩
        exact ⟨k, by omega, rfl⟩
    · obtain ⟨v', hv', hin, hf'⟩ := hf.freeBlock h₀ (hcounts _ ⟨n, by omega, rfl⟩) h0 (by
          rintro ⟨k, hk, hr⟩
          cases hr
          omega)
      refine ⟨v'.setZone ino n 0, ?_, ?_, ?_⟩
      · rw [if_pos (by rw [hz]; exact h0), hz, bind_of_ok hv']
      · refine Cut.setZone ⟨fun i hi => ?_, ?_, fun k => ?_⟩
        · rw [hin, hc.others i hi]
        · rw [hin, hc.mode]
        · rw [hin, hc.zone k]
      · refine (hf'.mono ?_ hcounts).of_same rfl rfl rfl rfl
        rintro r (⟨k, hk, rfl⟩ | rfl)
        · exact ⟨k, by omega, rfl⟩
        · exact ⟨n, by omega, rfl⟩

-- ======== the whole file

/-- A path that counts passes through entries below 512. -/
theorem Counts.index_lt : ∀ {r : ZPath}, Counts v r → (q.child i).Under r → i < 512 := by
  intro r
  induction r with
  | root k =>
    intro _ hu
    cases (hu : Path.root k = q.child i)
  | child r j ih =>
    rintro hc (hu | hu)
    · cases hu
      match q, hc with
      | .root (ino, k), hc => exact hc.2.2
      | .child (.root (ino, k)) a, hc => exact hc.2.2.2
    · exact ih (counts_parent r j hc) hu

/-- `free_ind` of a block whose entries are data blocks. -/
theorem frees_freeInd (h0 : Sound v₀) (hq : Counts v₀ q)
    (hc : ∀ i, i < 512 → Counts v₀ (q.child i)) (hleaf : ∀ i j, ¬ Counts v₀ ((q.child i).child j)) :
    Frees v₀ freeInd q :=
  frees_freeTree h0 hq (fun _ _ hr hu => hr.index_lt hu)
    fun i hi => frees_freeBlock h0 (hc i hi) (hleaf i)

theorem frees_ind (h0 : Sound v₀) (hfile : v₀.IsFile ino) : Frees v₀ freeInd (.root (ino, 7)) := by
  refine frees_freeInd h0 ⟨hfile, by omega⟩ (fun i hi => ⟨hfile, .inl rfl, hi⟩) fun i j hc => ?_
  have := hc.2.1
  omega

theorem frees_dind (h0 : Sound v₀) (hfile : v₀.IsFile ino) :
    Frees v₀ freeDind (.root (ino, 8)) := by
  refine frees_freeTree h0 ⟨hfile, by omega⟩ (fun _ _ hr hu => hr.index_lt hu) fun i hi => ?_
  exact frees_freeInd h0 ⟨hfile, .inr rfl, hi⟩ (fun j hj => ⟨hfile, rfl, hi, hj⟩) fun j l hc => hc

/-- `Frees` at a path whose zone may be 0: there is nothing to do. -/
theorem Frees.run
    (hfr : Frees v₀ (freeTree f) p) (hf : Freed v₀ done v) (hnot : ∀ r, p.Under r → ¬ done r) :
    ∃ v', freeTree f (v₀.zoneAt p) v = .ok v' ∧ v'.inode = v.inode
      ∧ Freed v₀ (fun r => done r ∨ (Counts v₀ r ∧ p.Under r)) v' := by
  by_cases h0 : v₀.zoneAt p = 0
  · refine ⟨v, if_pos h0, rfl, hf.mono (fun r => .inl) ?_⟩
    rintro r (hr | hr)
    · exact hf.counts r hr
    · exact hr.1
  · exact hfr done v hf h0 hnot

/-- What `truncate` leaves: a file with no zones, and every other file
where it was. -/
structure Truncated (v₀ : Vol) (ino : Nat) (v : Vol) : Prop where
  sound : Sound v
  others : ∀ i, i ≠ ino → v.inode i = v₀.inode i
  size : (v.inode ino).size = 0
  empty : ∀ p, Counts v₀ p → p.base.1 = ino → v.zoneAt p = 0
  kept : ∀ p, Counts v₀ p → p.base.1 ≠ ino → v.zoneAt p = v₀.zoneAt p
    ∧ (v₀.zoneAt p ≠ 0 → v.data (v₀.zoneAt p) = v₀.data (v₀.zoneAt p))

/-- The three parts of `truncate`, before the last assignments: all of
the file's zones are freed, and the inode has lost its direct ones. -/
theorem Sound.truncate_zones (h0 : Sound v₀) (hfile : v₀.IsFile ino) :
    ∃ v, truncate ino v₀ = .ok (v.emptied ino) ∧ Cut v₀ ino 7 v
      ∧ Freed v₀ (fun r => Counts v₀ r ∧ r.base.1 = ino) v := by
  obtain ⟨v1, hv1, hc1, hf1⟩ := h0.freeDirect hfile
  have h7 : (v1.inode ino).zone 7 = v₀.zoneAt (.root (ino, 7)) := by
    rw [hc1.zone 7, if_neg (by omega), zoneAt_root]
  obtain ⟨v2, (hv2 : freeInd _ _ = _), hin2, hf2⟩ :=
      (frees_ind h0 hfile).run hf1 (by
    rintro r hr ⟨k, hk, rfl⟩
    have := congrArg Prod.snd (Path.under_root.mp hr)
    simp only [Path.base] at this
    omega)
  have h8 : (v2.inode ino).zone 8 = v₀.zoneAt (.root (ino, 8)) := by
    rw [hin2, hc1.zone 8, if_neg (by omega), zoneAt_root]
  obtain ⟨v3, (hv3 : freeDind _ _ = _), hin3, hf3⟩ :=
      (frees_dind h0 hfile).run hf2 (by
    rintro r hr (⟨k, hk, rfl⟩ | ⟨-, hr'⟩)
    · have := congrArg Prod.snd (Path.under_root.mp hr)
      simp only [Path.base] at this
      omega
    · rw [Path.under_root] at hr hr'
      rw [hr] at hr'
      cases hr')
  have hin : v3.inode = v1.inode := hin3.trans hin2
  refine ⟨v3, ?_, ⟨fun i hi => ?_, ?_, fun k => ?_⟩, hf3.mono ?_ ?_⟩
  · unfold truncate
    rw [if_neg hfile, bind_of_ok hv1, h7, bind_of_ok hv2, h8, bind_of_ok hv3]
  · rw [hin, hc1.others i hi]
  · rw [hin, hc1.mode]
  · rw [hin, hc1.zone k]
  · rintro r ((⟨k, hk, rfl⟩ | ⟨hc, hr⟩) | ⟨hc, hr⟩)
    · exact ⟨⟨hfile, by omega⟩, rfl⟩
    · exact ⟨hc, by rw [Path.under_root.mp hr]⟩
    · exact ⟨hc, by rw [Path.under_root.mp hr]⟩
  · rintro r ⟨hc, -⟩
    exact hc

theorem emptied_others (hi : i ≠ ino) : (v.emptied ino).inode i = v.inode i := by
  unfold Vol.emptied
  simp only
  rw [if_neg hi, setZone_others hi, setZone_others hi]

theorem emptied_self : (v.emptied ino).inode ino = { v.inode ino with
      size := 0
      zone := fun l => if l = 8 then 0 else if l = 7 then 0
        else (v.inode ino).zone l } := by
  unfold Vol.emptied
  simp only [if_true]
  rw [setZone_self, setZone_self]

/-- Cutting the freed file off makes the file system consistent
again. -/
theorem Sound.truncated (h₀ : Sound v₀) (hc : Cut v₀ ino 7 v)
    (hf : Freed v₀ (fun r => Counts v₀ r ∧ r.base.1 = ino) v) :
    Truncated v₀ ino (v.emptied ino) := by
  have hmode : ∀ i, ((v.emptied ino).inode i).mode = (v₀.inode i).mode := by
    intro i
    by_cases hi : i = ino
    · subst hi
      rw [emptied_self]
      exact hc.mode
    · rw [emptied_others hi, hc.others i hi]
  have hcount := counts_congr hmode
  -- the file itself: no zone is left
  have hempty : ∀ p, Counts v₀ p → p.base.1 = ino → (v.emptied ino).zoneAt p = 0 := by
    intro p
    induction p with
    | root k =>
      obtain ⟨i, k⟩ := k
      intro hp hb
      obtain rfl : i = ino := hb
      rw [zoneAt_root, emptied_self]
      have hk := hp.2
      show (if k = 8 then 0 else if k = 7 then 0
        else (v.inode i).zone k) = 0
      split
      · rfl
      · split
        · rfl
        · rw [hc.zone k, if_pos (by omega)]
    | child p i ih =>
      intro hp hb
      exact zoneAt_child_zero i (ih (counts_parent p i hp) hb)
  -- a block of another file is none of the freed ones
  have hdata : ∀ p, Counts v₀ p → p.base.1 ≠ ino → v₀.zoneAt p ≠ 0 →
      v.data (v₀.zoneAt p) = v₀.data (v₀.zoneAt p) := by
    intro p hp hb h0
    refine hf.data _ fun r hr heq => hb ?_
    rw [h₀.consistent.once p r hp hr.1 h0 heq.symm]
    exact hr.2
  have hkept : ∀ p, Counts v₀ p → p.base.1 ≠ ino → (v.emptied ino).zoneAt p = v₀.zoneAt p := by
    intro p hp hb
    refine Path.at_congr (L := fun r => Counts v₀ r ∧ r.base.1 ≠ ino)
      (fun q i hq => ⟨counts_parent q i hq.1, hq.2⟩) ?_ ?_ p ⟨hp, hb⟩
    · rintro ⟨i, k⟩ ⟨-, (hi : i ≠ ino)⟩
      show ((v.emptied ino).inode i).zone k = (v₀.inode i).zone k
      rw [emptied_others hi, hc.others i hi]
    · intro q i hq h0
      show (v.data (v₀.zoneAt q)).entry i = (v₀.data (v₀.zoneAt q)).entry i
      rw [hdata q (counts_parent q i hq.1) hq.2 h0]
  refine ⟨h₀.congr hf.first hf.nzones (fun i hs => (hf.map i).symm.trans hs) (fun t ht hno => ?_)
    (fun p hp h0 => ?_), ?_, ?_, hempty, fun p hp hb => ⟨hkept p hp hb, hdata p hp hb⟩⟩
  · -- a bit that is cleared was that of a block of the file
    exact (hf.bit t fun p hp h0 => hno p hp.1 h0 (hempty p hp.1 hp.2)).trans ht
  · rw [hcount] at hp
    by_cases hb : p.base.1 = ino
    · exact absurd (hempty p hp hb) h0
    · exact ⟨hp, hkept p hp hb⟩
  · intro i hi
    rw [emptied_others hi, hc.others i hi]
  · rw [emptied_self]

/-- `truncate` of a file returns, and the file system is consistent. -/
theorem Sound.truncate (h0 : Sound v₀) (hfile : v₀.IsFile ino) :
    ∃ v, truncate ino v₀ = .ok v ∧ Truncated v₀ ino v := by
  obtain ⟨v, hv, hc, hf⟩ := h0.truncate_zones hfile
  exact ⟨v.emptied ino, hv, h0.truncated hc hf⟩

-- ======== runs

/-- One operation. -/
theorem Sound.step (h : Sound v) (hr : o.ready v) (hs : o.step v = some v') : Sound v' := by
  have hok := ok_of_toOption hs
  cases o with
  | createBlock ino block =>
    obtain ⟨⟨z, v1⟩, hz, hgo⟩ := bind_eq_ok hok
    cases hgo
    exact (h.innerBmap hr.1 hr.2 hz).1.sound
  | truncate ino =>
    by_cases hfile : v.IsFile ino
    · obtain ⟨v1, hv1, ht⟩ := h.truncate hfile
      cases hv1.symm.trans hok
      exact ht.sound
    · obtain rfl : v = v' :=
        Except.ok.inj ((if_pos (not_not.mp hfile)).symm.trans hok)
      exact h
  | writeBack n | setHeld n c =>
    cases hok
    refine Extends.sound (v := v) ?_
    exact Extends.of_same h rfl rfl rfl rfl rfl

/-- The one panic there is. -/
theorem Sound.exec_error (h : Sound v) {e : Panic}
    (hr : o.ready v) (he : o.exec v = .error e) : e = .count := by
  cases o with
  | createBlock ino block =>
    rcases bind_eq_error he with hz | ⟨x, -, hgo⟩
    · exact innerBmap_error hr.2 hz
    · cases hgo
  | truncate ino =>
    by_cases hfile : v.IsFile ino
    · obtain ⟨v1, hv1, -⟩ := h.truncate hfile
      cases hv1.symm.trans he
    · cases (if_pos (not_not.mp hfile)).symm.trans he
  | writeBack n | setHeld n c => cases he

/-- Zone allocation is exact: whatever is allocated and truncated, and
whatever the cache does in between, the file system stays consistent,
and `free_block` never finds a bit cleared or a block outside the data
zone. -/
theorem zone_allocation {ops : List ZoneOp} (h₀ : Sound v₀)
    (hready : Meets ZoneOp.step ZoneOp.ready ops v₀) (hrun : runOps ZoneOp.step ops v₀ = some v) :
    Consistent v ∧ ∀ o : ZoneOp, o.ready v →
      o.exec v ≠ .error .bitCleared ∧ o.exec v ≠ .error .notInDatazone := by
  have h : Sound v :=
    runOps_invariant (fun _ _ _ h hr hs => h.step hr hs) hready hrun h₀
  refine ⟨h.consistent, fun o hr => ⟨fun he => ?_, fun he => ?_⟩⟩
  · cases h.exec_error hr he
  · cases h.exec_error hr he

/-- Ten data zones, one empty file. -/
def emptyVol : Vol where
  firstdatazone := 10
  nzones := 20
  zmap i := if i = 0 then some fun j => j = 0 ∨ 11 ≤ j else none
  inode i := ⟨if i = 1 then .reg else .other, 0, fun _ => 0⟩
  data _ := Block.zero
  disk _ := Block.zero
  held _ := 0

theorem emptyVol_zoneAt : emptyVol.zoneAt p = 0 := by
  induction p with
  | root k => rfl
  | child p i ih => exact zoneAt_child_zero i ih

theorem sound_emptyVol : Sound emptyVol := by
  refine ⟨⟨by decide, by decide, fun t _ hsome hge => ?_⟩,
    ⟨fun p _ h0 => absurd emptyVol_zoneAt h0, fun p q _ _ h0 => absurd emptyVol_zoneAt h0⟩⟩
  have hdiv : t / 8192 = 0 := by
    by_contra hne
    simp [emptyVol, hne] at hsome
  have hge' : 20 ≤ t + 10 - 1 := hge
  unfold Vol.bit emptyVol
  simp only [hdiv, if_true]
  exact decide_eq_true (.inr (by omega))

/-- A direct zone, an indirect block with one zone, and all of it
truncated. -/
theorem zone_allocation_file : ∃ v,
    runOps ZoneOp.step [.createBlock 1 0, .createBlock 1 7, .truncate 1]
        emptyVol = some v ∧ Consistent v := by
  have hfile : ∀ w : Vol, (w.inode 1).mode = .reg → w.IsFile 1 := by
    intro w hw
    unfold Vol.IsFile
    rw [hw]
    decide
  have hready : Meets ZoneOp.step ZoneOp.ready
      [.createBlock 1 0, .createBlock 1 7, .truncate 1] emptyVol := by
    refine ⟨⟨hfile _ rfl, by decide⟩, fun v1 h1 =>
      ⟨⟨hfile _ ?_, by decide⟩, fun v2 _ => ⟨trivial, fun _ _ => trivial⟩⟩⟩
    obtain ⟨⟨z, w⟩, hz, hgo⟩ := bind_eq_ok (ok_of_toOption h1)
    cases hgo
    exact (sound_emptyVol.innerBmap (hfile _ rfl) (by decide) hz).1.mode 1
  exact exists_run (fun _ => True) (by decide +kernel) fun v hv _ =>
    (zone_allocation sound_emptyVol hready hv).1

end LearnLinux.Fs
