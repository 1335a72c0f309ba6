/-
Names are looked up without a trace: `dir_namei` and `namei` take and drop
references along the way, and in the end they hold one more reference, to
what they return, or the state is the one they began with.

What makes this so is that a reference is dropped harmlessly where the
inode has a name or another reference, and an inode that is found in a
directory has a name.
-/
import LearnLinux.Fs.Proofs.Dir

namespace LearnLinux.Fs

open Lib

variable {d d' : Dev} {c : Caller} {dir n i : Nat} {x : Nat × Nat}

-- ======== the inode map

/-- The inode map in the place of the zone map: its bits are read, set and
searched in the same way. -/
def Dev.inodeMap (d : Dev) : Vol := { d.vol with zmap := d.imap }

theorem Dev.inodeBit_setInodeBit (h : (d.imap (n / 8192)).isSome) (b : Bool) (m : Nat) :
    (d.setInodeBit n b).inodeBit m = if m = n then b else d.inodeBit m :=
  Vol.bit_setBit (v := d.inodeMap) h b m

theorem live_iff : d.live n = true ↔ (1 ≤ n ∧ n ≤ d.ninodes) ∧ d.inodeBit n = true := by
  unfold Dev.live
  rw [Bool.and_eq_true, decide_eq_true_iff]

theorem isSome_of_inodeBit (h : d.inodeBit n = true) : (d.imap (n / 8192)).isSome :=
  Vol.isSome_of_bit (v := d.inodeMap) h

/-- `new_inode`: nothing, or an inode that was free. -/
theorem newInode_cases (hz : d.inodeBit 0 = true) : newInode d = .ok (none, d) ∨
      ∃ n, newInode d = .ok (some n, d.fresh n) ∧ 1 ≤ n ∧ n ≤ d.ninodes
        ∧ d.inodeBit n = false ∧ (d.imap (n / 8192)).isSome := by
  unfold newInode
  split
  · exact .inl rfl
  · rename_i a b hscan
    have hclear : d.inodeMap.firstClear = some (b + a * 8192) := congrArg (Option.map _) hscan
    obtain ⟨hbit, hmap, -⟩ := Vol.firstClear_spec hclear
    have hbit : d.inodeBit (b + a * 8192) = false := hbit
    split
    · exact .inl rfl
    · rename_i hle
      rw [if_neg (by rw [hbit]; exact Bool.false_ne_true)]
      refine .inr ⟨_, rfl, ?_, by omega, hbit, hmap⟩
      by_contra h0
      rw [show b + a * 8192 = 0 by omega, hz] at hbit
      cases hbit

-- ======== references

theorem setCount_setCount (a b : Nat) : (d.setCount n a).setCount n b = d.setCount n b := by
  unfold Dev.setCount
  rw [Function.update_idem]

theorem setCount_self : d.setCount n (d.count n) = d := by
  unfold Dev.setCount
  rw [Function.update_eq_self]

/-- A reference is dropped, and the inode stays. -/
theorem iput_drop (h : 1 < d.count n ∨ (d.count n ≠ 0 ∧ d.nlinks n ≠ 0)) :
    iput d n = .ok (d.setCount n (d.count n - 1)) := by
  unfold iput
  rw [if_neg (by omega)]
  split
  · rfl
  · rw [if_neg (by omega)]

/-- A reference that was taken is dropped again. -/
theorem iput_iget (h : 0 < d.count n ∨ d.nlinks n ≠ 0) : iput (iget d n) n = .ok d := by
  have hc : (iget d n).count n = d.count n + 1 := Function.update_self ..
  rw [iput_drop]
  · rw [hc, Nat.add_sub_cancel]
    unfold iget
    rw [setCount_setCount, setCount_self]
  · rw [hc]
    rcases h with h | h
    · exact .inl (by omega)
    · exact .inr ⟨by omega, h⟩

/-- The inode is truncated and freed. -/
def Dev.freed (d : Dev) (n : Nat) (v : Vol) : Dev :=
  (((d.setVol v).setInodeBit n false).setCount n 0).setInode n .blank

/-- What `iput` does: it drops a reference, or it frees the inode. -/
theorem iput_cases (h : iput d n = .ok d') : (1 < d.count n ∨ (d.count n ≠ 0 ∧ d.nlinks n ≠ 0))
      ∧ d' = d.setCount n (d.count n - 1) ∨
    d.count n = 1 ∧ d.nlinks n = 0 ∧ ∃ v, truncate n d.vol = .ok v ∧ d' = d.freed n v := by
  unfold iput at h
  split at h
  · cases h
  rename_i h0
  split at h
  · rename_i h1
    cases h
    exact .inl ⟨.inl h1, rfl⟩
  rename_i h1
  split at h
  · rename_i hl
    obtain ⟨v, hv, hgo⟩ := bind_eq_ok h
    refine .inr ⟨by omega, hl, v, ?_, ?_⟩
    · unfold onVol at hv
      split at hv
      · rename_i a ha
        cases hv
        exact ha
      · cases hv
    · unfold freeInode at hgo
      split at hgo
      · cases hgo
      split at hgo
      · cases hgo
      split at hgo
      · cases hgo
      cases hgo
      rfl
  · rename_i hl
    cases h
    exact .inl ⟨.inr ⟨h0, hl⟩, rfl⟩

theorem freeInode_eq (hl : d.nlinks n = 0) (hlow : 1 ≤ n)
    (hhigh : n ≤ d.ninodes) (hmap : (d.imap (n / 8192)).isSome) :
    freeInode d n = .ok (((d.setInodeBit n false).setCount n 0).setInode n .blank) := by
  unfold freeInode
  rw [if_neg (not_not.mpr hl), if_neg (by omega), if_neg]
  rw [Option.isNone_iff_eq_none, ← Option.not_isSome_iff_eq_none]
  exact not_not.mpr hmap

/-- An inode that is allocated and referred to can be put. -/
theorem iput_returns (hs : Sound d.vol) (hlive : d.live n = true)
    (hc : d.count n ≠ 0) : ∃ d', iput d n = .ok d' := by
  by_cases hd : 1 < d.count n ∨ (d.count n ≠ 0 ∧ d.nlinks n ≠ 0)
  · exact ⟨_, iput_drop hd⟩
  have hl : d.nlinks n = 0 := by
    by_contra hl
    exact hd (.inr ⟨hc, hl⟩)
  have htr : ∃ v, truncate n d.vol = .ok v := by
    by_cases hfile : d.vol.IsFile n
    · obtain ⟨v, hv, -⟩ := hs.truncate hfile
      exact ⟨v, hv⟩
    · exact ⟨d.vol, if_pos (not_not.mp hfile)⟩
  obtain ⟨v, hv⟩ := htr
  obtain ⟨hrange, hbit⟩ := live_iff.mp hlive
  have hmap : ((d.setVol v).imap (n / 8192)).isSome := isSome_of_inodeBit hbit
  refine ⟨d.freed n v, ?_⟩
  unfold iput
  rw [if_neg hc, if_neg fun h1 => hd (.inl h1), if_pos hl, hv]
  exact freeInode_eq hl hrange.1 hrange.2 hmap

theorem Dev.freed_live (hlive : d.live n = true) (v : Vol) (m : Nat) :
    (d.freed n v).live m = if m = n then false else d.live m := by
  obtain ⟨-, hbit⟩ := live_iff.mp hlive
  have hset : (d.freed n v).inodeBit m = if m = n then false else d.inodeBit m :=
    Dev.inodeBit_setInodeBit (isSome_of_inodeBit hbit) false m
  unfold Dev.live
  rw [hset]
  show (decide (1 ≤ m ∧ m ≤ d.ninodes) && _) = _
  by_cases hm : m = n
  · rw [if_pos hm, if_pos hm, Bool.and_false]
  · rw [if_neg hm, if_neg hm]

-- ======== entries

theorem names_eq_some : d.names x = some n ↔ d.Lists x ∧ d.vol.dirSlot x.1 x.2 = n := by
  unfold Dev.names
  split
  · rename_i h
    rw [Option.some_inj]
    exact (and_iff_right h).symm
  · rename_i h
    exact iff_of_false (by simp) fun hc => h hc.1

theorem isFile_of_dir {v : Vol} (h : (v.inode n).mode = .dir) : v.IsFile n := by
  unfold Vol.IsFile
  rw [h]
  exact nofun

theorem names_eq_none (h : ¬ d.Lists x) : d.names x = none :=
  if_neg h

theorem names_dead (h : d.live x.1 = false) : d.names x = none := by
  refine names_eq_none fun hc => ?_
  have := hc.1
  rw [h] at this
  cases this

/-- An entry of a directory whose size and slots are as before. -/
theorem names_congr (hlive : d'.live x.1 = d.live x.1)
    (hmode : (d'.vol.inode x.1).mode = (d.vol.inode x.1).mode)
    (hsize : (d'.vol.inode x.1).size = (d.vol.inode x.1).size)
    (hslot : (d.vol.inode x.1).mode = .dir →
      16 * (x.2 + 1) ≤ (d.vol.inode x.1).size → d.live x.1 = true →
      d'.vol.dirSlot x.1 x.2 = d.vol.dirSlot x.1 x.2) : d'.names x = d.names x := by
  by_cases hm : d.live x.1 = true ∧ (d.vol.inode x.1).mode = .dir
      ∧ 16 * (x.2 + 1) ≤ (d.vol.inode x.1).size
  · have hs := hslot hm.2.1 hm.2.2 hm.1
    refine Option.ext fun k => ?_
    rw [names_eq_some, names_eq_some]
    unfold Dev.Lists
    rw [hlive, hmode, hsize, hs]
  · rw [names_eq_none, names_eq_none]
    · exact fun hc => hm ⟨hc.1, hc.2.1, hc.2.2.1⟩
    · unfold Dev.Lists
      rw [hlive, hmode, hsize]
      exact fun hc => hm ⟨hc.1, hc.2.1, hc.2.2.1⟩

theorem Readable.names_kept (h : Readable d)
    (hlive : d'.live x.1 = d.live x.1) (hk : Kept d.vol d'.vol x.1) : d'.names x = d.names x := by
  refine names_congr hlive (by rw [hk.inode]) (by rw [hk.inode])
    fun hm hs hl => hk.dirSlot (isFile_of_dir hm) ?_
  have := h.size x.1 hl hm
  omega

theorem entryBlock_eq (hi : i < maxEntries) :
    entryBlock d dir i = .ok (d.vol.zoneAt (slotPath dir i)) := by
  unfold entryBlock
  split
  · rename_i h
    have h0 : i / dirEntriesPerBlock = 0 := Nat.div_eq_of_lt h
    unfold slotPath
    rw [h0]
    rfl
  · rw [bmap_eq (entryBlock_lt hi)]
    rfl

/-- An entry that is there, in a block. -/
structure HasEntry (d : Dev) (dir i : Nat) : Prop where
  size : 16 * (i + 1) ≤ (d.vol.inode dir).size
  bound : i < maxEntries
  block : d.vol.zoneAt (slotPath dir i) ≠ 0
  used : d.vol.dirSlot dir i ≠ 0

theorem findLoop_spec (name : Name) : ∀ m i, i + m ≤ maxEntries →
      ∃ r, findLoop d dir name m i = .ok r ∧ ∀ k, r = some k →
        k < i + m ∧ d.vol.zoneAt (slotPath dir k) ≠ 0 ∧ d.vol.dirSlot dir k ≠ 0 := by
  intro m
  induction m with
  | zero => exact fun _ _ => ⟨none, rfl, fun k hk => by cases hk⟩
  | succ m ih =>
    intro i hm
    unfold findLoop
    rw [bind_of_ok (entryBlock_eq (by omega))]
    split
    · rename_i hc
      refine ⟨_, rfl, fun k hk => ?_⟩
      cases hk
      refine ⟨by omega, hc.1, ?_⟩
      rw [dirSlot_of_block rfl hc.1]
      exact hc.2.1
    · obtain ⟨r, hr, hspec⟩ := ih (i + 1) (by omega)
      refine ⟨r, hr, fun k hk => ?_⟩
      obtain ⟨hlt, hz, hs⟩ := hspec k hk
      exact ⟨by omega, hz, hs⟩

/-- `find_entry` finds entries of the directory. -/
theorem findEntry_spec (hs : (d.vol.inode dir).size ≤ 16 * maxEntries)
    (name : Name) : ∃ r, findEntry d c dir name = .ok r ∧ ∀ i, r = some i → HasEntry d dir i := by
  unfold findEntry
  split
  · exact ⟨none, rfl, fun i hi => by cases hi⟩
  split
  · exact ⟨none, rfl, fun i hi => by cases hi⟩
  obtain ⟨r, hr, hspec⟩ := findLoop_spec (lookedUp c dir name)
    ((d.vol.inode dir).size / 16) 0 (by omega)
  refine ⟨r, hr, fun i hi => ?_⟩
  obtain ⟨hlt, hz, hu⟩ := hspec i hi
  exact ⟨by omega, by omega, hz, hu⟩

theorem HasEntry.entryInode (h : HasEntry d dir i) :
    entryInode d dir i = .ok (d.vol.dirSlot dir i) := by
  unfold Fs.entryInode
  rw [bind_of_ok (entryBlock_eq h.bound), dirSlot_of_block rfl h.block]

/-- A directory that the caller has reached: it is allocated and has a
name. -/
structure IsDir (d : Dev) (dir : Nat) : Prop where
  live : d.live dir = true
  mode : (d.vol.inode dir).mode = .dir
  linked : d.nlinks dir ≠ 0

theorem IsDir.isFile (h : IsDir d dir) : d.vol.IsFile dir :=
  isFile_of_dir h.mode

theorem IsDir.names (h : IsDir d dir) (hh : HasEntry d dir i) :
    d.names (dir, i) = some (d.vol.dirSlot dir i) :=
  names_eq_some.mpr ⟨⟨h.live, h.mode, hh.size, hh.used⟩, rfl⟩

/-- The directory that was just got is put. -/
theorem IsDir.iput (h : IsDir d dir) : Fs.iput (iget d dir) dir = .ok d :=
  iput_iget (.inr h.linked)

/-- `find_entry` in a directory that was just got finds an inode in use,
or nothing. -/
theorem Readable.findEntry (h : Readable d) (hdir : IsDir d dir) (c : Caller) (name : Name) :
    ∃ r, Fs.findEntry (iget d dir) c dir name = .ok r ∧ ∀ i, r = some i → HasEntry d dir i
      ∧ entryInode (iget d dir) dir i = .ok (d.vol.dirSlot dir i)
      ∧ d.live (d.vol.dirSlot dir i) = true ∧ d.nlinks (d.vol.dirSlot dir i) ≠ 0 := by
  obtain ⟨r, hr, hspec⟩ := findEntry_spec (d := iget d dir) (h.size dir hdir.live hdir.mode) name
  refine ⟨r, hr, fun i hi => ?_⟩
  obtain ⟨h1, h2, h3, h4⟩ := hspec i hi
  have hh : HasEntry d dir i := ⟨h1, h2, h3, h4⟩
  exact ⟨hh, (hspec i hi).entryInode, h.named _ _ (hdir.names hh)⟩

-- ======== pathnames

/-- How a lookup of a directory ends: with nothing, or with a reference to
a directory. -/
def Found (d : Dev) (r : Except Crash (Option (Nat × Name) × Dev)) : Prop :=
  r = .ok (none, d) ∨ ∃ dir name, r = .ok (some (dir, name), iget d dir) ∧ IsDir d dir

theorem Readable.walk (h : Readable d) :
    ∀ {names : List Name} {ino : Nat}, names ≠ [] → d.live ino = true →
      (0 < d.count ino ∨ d.nlinks ino ≠ 0) → Found d (Fs.walk c names ino (iget d ino)) := by
  intro names
  induction names with
  | nil => exact fun h0 => absurd rfl h0
  | cons name rest ih =>
    intro ino _ hlive href
    unfold Fs.walk
    by_cases hbad : (d.vol.inode ino).mode ≠ .dir ∨ permission d c ino MAY_EXEC = false
    · refine .inl ((if_pos hbad).trans ?_)
      rw [bind_of_ok (iput_iget href)]
    have hdir : IsDir d ino := by
      refine ⟨hlive, not_not.mp fun hm => hbad (.inl hm), fun h0 => ?_⟩
      refine hbad (.inr ?_)
      unfold permission
      rw [if_pos h0]
    have hgo : ∀ a b : Except Crash (Option (Nat × Name) × Dev),
        (if ((iget d ino).vol.inode ino).mode ≠ .dir
          ∨ permission (iget d ino) c ino MAY_EXEC = false then a else b)
          = b := fun a b => if_neg hbad
    rw [hgo]
    by_cases hrest : rest = []
    · exact .inr ⟨ino, name, if_pos hrest, hdir⟩
    rw [if_neg hrest]
    obtain ⟨r, hr, hspec⟩ := h.findEntry hdir c name
    rw [bind_of_ok hr]
    cases r with
    | none =>
      refine .inl ?_
      rw [bind_of_ok (iput_iget href)]
    | some i =>
      obtain ⟨-, hino, hnamed⟩ := hspec i rfl
      show Found d (Fs.entryInode (iget d ino) ino i >>= _)
      rw [bind_of_ok hino, bind_of_ok (iput_iget href)]
      exact ih hrest hnamed.1 (.inr hnamed.2)

theorem Readable.live_of_count (h : Readable d) (hc : d.count n ≠ 0) : d.live n = true := by
  by_contra hl
  rw [Bool.not_eq_true] at hl
  exact hc (h.unused n hl).2.1

/-- `dir_namei`, for a task whose root and working directory are in
core. -/
theorem Readable.dirNamei (h : Readable d) (hroot : d.count c.root ≠ 0)
    (hpwd : d.count c.pwd ≠ 0) (pathname : Name) : Found d (Fs.dirNamei d c pathname) := by
  unfold Fs.dirNamei
  rw [if_neg hroot, if_neg hpwd]
  split
  · exact .inl rfl
  · exact h.walk (List.splitOn_ne_nil _ _) (h.live_of_count hroot) (.inl (by omega))
  · exact h.walk (List.splitOn_ne_nil _ _) (h.live_of_count hpwd) (.inl (by omega))

theorem dirNamei_ok {pathname : Name} {r : Option (Nat × Name) × Dev}
    (h : dirNamei d c pathname = .ok r) : d.count c.root ≠ 0 ∧ d.count c.pwd ≠ 0 := by
  unfold dirNamei at h
  split at h
  · cases h
  · rename_i h1
    split at h
    · cases h
    · rename_i h2
      exact ⟨h1, h2⟩

/-- What `parent` finds: an error, or a directory and what stands there
under the name. -/
theorem Readable.parent (h : Readable d) (hroot : d.count c.root ≠ 0)
    (hpwd : d.count c.pwd ≠ 0) (pathname : Name) :
    (∃ code, Fs.parent d c pathname = .ok (.error code, d) ∧ code < 0) ∨
    ∃ dir name e, Fs.parent d c pathname = .ok (.ok (dir, name, e), iget d dir)
      ∧ IsDir d dir ∧ (∀ i, e = some i → HasEntry d dir i)
      ∧ Fs.dirNamei d c pathname = .ok (some (dir, name), iget d dir) := by
  unfold Fs.parent
  rcases h.dirNamei hroot hpwd pathname with hr | ⟨dir, name, hr, hdir⟩
  · rw [bind_of_ok hr]
    exact .inl ⟨_, rfl, by decide⟩
  · rw [bind_of_ok hr]
    simp only
    split
    · rw [bind_of_ok hdir.iput]
      exact .inl ⟨_, rfl, by decide⟩
    · split
      · rw [bind_of_ok hdir.iput]
        exact .inl ⟨_, rfl, by decide⟩
      · obtain ⟨e, he, hspec⟩ := h.findEntry hdir c name
        rw [bind_of_ok he]
        exact .inr ⟨dir, name, e, rfl, hdir, fun i hi => (hspec i hi).1, hr⟩

/-- `namei`: nothing, or a reference to an inode in use. -/
theorem Readable.namei (h : Readable d) (hroot : d.count c.root ≠ 0)
    (hpwd : d.count c.pwd ≠ 0) (pathname : Name) : Fs.namei d c pathname = .ok (none, d) ∨
    ∃ n, Fs.namei d c pathname = .ok (some n, iget d n) ∧ d.live n = true ∧ d.nlinks n ≠ 0 := by
  unfold Fs.namei
  rcases h.dirNamei hroot hpwd pathname with hr | ⟨dir, name, hr, hdir⟩
  · rw [bind_of_ok hr]
    exact .inl rfl
  · rw [bind_of_ok hr]
    simp only
    split
    · exact .inr ⟨dir, rfl, hdir.live, hdir.linked⟩
    · obtain ⟨e, he, hspec⟩ := h.findEntry hdir c name
      rw [bind_of_ok he]
      cases e with
      | none =>
        refine .inl ?_
        rw [bind_of_ok hdir.iput]
      | some i =>
        obtain ⟨-, hino, hnamed⟩ := hspec i rfl
        refine .inr ⟨d.vol.dirSlot dir i, ?_, hnamed⟩
        show (Fs.entryInode (iget d dir) dir i >>= _) = _
        rw [bind_of_ok hino, bind_of_ok hdir.iput]

end LearnLinux.Fs
