/-
The table of the in-core inodes holds an inode at most once, and counts
its references.

A step runs through several of the routines, and in the middle of it the
references of the running task are not those of any `Pc`. `Good s t r` is
the invariant for that: the counts are right if the task `t` is taken to
have the references `r`. Each routine has one lemma, which says what
references it is to be entered with; a step is the routines one after the
other.

That no inode is in the table twice is a matter of one place, the end of
the loop of `iget`: since the loop last started no other task has run, and
no slot matched.
-/
import LearnLinux.Fs.InodeTable

namespace LearnLinux.InodeTable

open Function (update update_self update_of_ne update_eq_self)
open Lib (sum_swap runOps Meets runOps_invariant exists_checked)

variable {τ : Type} [DecidableEq τ] [Fintype τ]

/-- No two slots have the same inode. -/
def Unique (f : Slot → MInode) : Prop :=
  ∀ i j, (f i).dev ≠ 0 → (f i).dev = (f j).dev → (f i).num = (f j).num → i = j

/-- Handed out were inodes without references and unwritten changes. -/
def HandedFree (l : List MInode) : Prop :=
  ∀ m ∈ l, m.count = 0 ∧ m.dirt = false

/-- The references, if the task `t` has `r`. -/
def total (s : System τ) (t : τ) (r : Slot → Nat) (j : Slot) : Nat :=
  s.held j + ∑ t', update (fun t' => (s.pc t').refs) t r t' j

/-- A task on its way across a mount point gets to a device. -/
def After.Ok (s : System τ) : After → Prop
  | .cross _ sb => s.sDev sb ≠ 0
  | _ => True

def Writer.Ok (s : System τ) (j : Slot) : Writer → Prop
  | .empty dev _ => dev ≠ 0
  | .put k => (s.inode j).dev ≠ 0 ∧ k.Ok s
  | .sync i k _ => (s.inode i).dev ≠ 0 ∧ k.Ok s

/-- Devices are not 0: the one that is looked for, and that of an inode
whose last reference may be about to go. -/
def Pc.Ok (s : System τ) : Pc → Prop
  | .user | .readLock _ | .reading _ => True
  | .emptyWait dev _ _ | .emptyAgain dev _ | .scanWait dev _ _ _ => dev ≠ 0
  | .cross _ sb => s.sDev sb ≠ 0
  | .putWait _ k => k.Ok s
  | .putRepeat j k | .sync j k _ | .truncating j k =>
    (s.inode j).dev ≠ 0 ∧ k.Ok s
  | .writeLock j w | .writing j w => w.Ok s j

/-- The invariant, if the task `t` has the references `r`. -/
structure Good (s : System τ) (t : τ) (r : Slot → Nat) : Prop where
  count : ∀ j, (s.inode j).count.toNat = total s t r j
  unique : Unique s.inode
  handed : HandedFree s.handed
  others : ∀ t', t' ≠ t → (s.pc t').Ok s
  mounted : ∀ sb, s.sImount sb ≠ none → s.sDev sb ≠ 0

structure Inv (s : System τ) : Prop where
  count : ∀ j, (s.inode j).count.toNat = references s j
  unique : Unique s.inode
  handed : HandedFree s.handed
  tasks : ∀ t, (s.pc t).Ok s
  mounted : ∀ sb, s.sImount sb ≠ none → s.sDev sb ≠ 0

variable {s s' : System τ} {t : τ} {r : Slot → Nat} {j e i l : Slot} {p : Pc} {f : Slot → MInode}
variable {n : Nat} {o : Option Slot}
  {k : After} {w : Writer} {dev nr : UInt16} {m : MInode}
variable {last : Slot}

-- ======== references

theorem total_add (r r' : Slot → Nat) : total s t (r + r') j = total s t r j + r' j := by
  have h := sum_swap (f := fun t' => update (fun t' => (s.pc t').refs) t (r + r') t' j)
    (g := fun t' => update (fun t' => (s.pc t').refs) t r t' j) t (fun t' ht => by
      rw [update_of_ne ht, update_of_ne ht])
  simp only [update_self, Pi.add_apply] at h
  unfold total
  omega

theorem total_pc (s : System τ) (t : τ) (j : Slot) :
    total s t (s.pc t).refs j = references s j := by
  rw [total, references, update_eq_self]

theorem references_go : references (go s t p) j = total s t p.refs j := by
  rw [total, references]
  refine congrArg (s.held j + ·) (Finset.sum_congr rfl fun t' _ => ?_)
  rcases eq_or_ne t' t with rfl | ht
  · simp [go]
  · simp [go, ht]

theorem one_self : one j j = 1 :=
  if_pos rfl

theorem one_of_ne (h : i ≠ j) : one j i = 0 :=
  if_neg h

/-- What one task has is part of the total. -/
theorem refs_le_total (s : System τ) (t : τ) (r : Slot → Nat) {t' : τ}
    (ht : t' ≠ t) (j : Slot) : r j + (s.pc t').refs j ≤ total s t r j := by
  have h1 : total s t r j = total s t (fun _ => 0) j + r j := by
    rw [← total_add]
    refine congrArg (total s t · j) (funext fun i => ?_)
    exact (Nat.zero_add _).symm
  have h2 : (s.pc t').refs j ≤ total s t (fun _ => 0) j := by
    have h := Finset.single_le_sum (f := fun x => update (fun t' => (s.pc t').refs) t
        (fun _ => 0) x j) (fun x _ => Nat.zero_le _) (Finset.mem_univ t')
    rw [update_of_ne ht] at h
    exact h.trans (Nat.le_add_left _ _)
  omega

theorem Inv.good (h : Inv s) (t : τ) : Good s t (s.pc t).refs :=
  ⟨fun j => (h.count j).trans (total_pc s t j).symm, h.unique, h.handed,
    fun t' _ => h.tasks t', h.mounted⟩

/-- The task stops, with the references that it has there. -/
theorem Good.go (h : Good s t p.refs) (hp : p.Ok s) : Inv (go s t p) := by
  refine ⟨fun j => (h.count j).trans (references_go).symm, h.unique,
    h.handed, fun t' => ?_, h.mounted⟩
  have hok : ∀ q : Pc, q.Ok s → q.Ok (InodeTable.go s t p) := fun q hq => hq
  rcases eq_or_ne t' t with rfl | ht
  · simpa only [InodeTable.go, update_self] using hok p hp
  · simpa only [InodeTable.go, update_of_ne ht] using hok _ (h.others t' ht)

omit [DecidableEq τ] in
theorem references_hold : references (hold s j) i = references s i + one j i := by
  rcases eq_or_ne i j with rfl | h
  · rw [one_self]
    simp only [references, hold, update_self]
    omega
  · rw [one_of_ne h]
    simp only [references, hold, update_of_ne h, Nat.add_zero]

/-- The reference that the task had is its caller's. -/
theorem Good.hold (h : Good s t (one j)) : Inv (hold (InodeTable.go s t .user) j) := by
  refine ⟨fun i => ?_, h.unique, h.handed, fun t' => ?_, h.mounted⟩
  · rw [references_hold, references_go, ← total_add]
    refine (h.count i).trans (congrArg (total s t · i) (funext fun x => ?_))
    exact (Nat.zero_add _).symm
  · rcases eq_or_ne t' t with rfl | ht
    · simp only [InodeTable.hold, InodeTable.go, update_self]
      trivial
    · have hpc : (InodeTable.hold (InodeTable.go s t .user) j).pc t' = s.pc t' := update_of_ne ht ..
      rw [hpc]
      exact h.others t' ht

-- ======== the slots

/-- An inode that stays what it is, or becomes none. -/
theorem Unique.set (h : Unique f)
    (hm : m.dev = 0 ∨ m.dev = (f j).dev ∧ m.num = (f j).num) : Unique (update f j m) := by
  have hid : ∀ x, (update f j m x).dev ≠ 0 → (update f j m x).dev = (f x).dev
      ∧ (update f j m x).num = (f x).num := by
    intro x hx
    rcases eq_or_ne x j with rfl | hxj
    · rw [update_self] at hx ⊢
      exact hm.resolve_left hx
    · rw [update_of_ne hxj]
      exact ⟨rfl, rfl⟩
  intro x y hx hd hn
  obtain ⟨hxd, hxn⟩ := hid x hx
  obtain ⟨hyd, hyn⟩ := hid y (hd ▸ hx)
  refine h x y ?_ ?_ ?_
  · rwa [← hxd]
  · rw [← hxd, ← hyd, hd]
  · rw [← hxn, ← hyn, hn]

/-- A slot gets an inode that no slot has. -/
theorem Unique.assign (h : Unique f)
    (hm : ∀ x, ¬((f x).dev = m.dev ∧ (f x).num = m.num)) : Unique (update f j m) := by
  intro x y hx hd hn
  rcases eq_or_ne x j with rfl | hxj
  · rcases eq_or_ne y x with rfl | hyx
    · rfl
    · rw [update_self, update_of_ne hyx] at hd hn
      exact absurd ⟨hd.symm, hn.symm⟩ (hm y)
  · rw [update_of_ne hxj] at hx hd hn
    rcases eq_or_ne y j with rfl | hyj
    · rw [update_self] at hd hn
      exact absurd ⟨hd, hn⟩ (hm x)
    · rw [update_of_ne hyj] at hd hn
      exact h x y hx hd hn

omit [DecidableEq τ] [Fintype τ] in
/-- What a task relies on: the devices of the mounted super blocks, and
those of the inodes that it refers to. -/
theorem Pc.Ok.mono (h : p.Ok s) (hsb : ∀ x, s.sDev x ≠ 0 → s'.sDev x ≠ 0)
    (hi : ∀ x, (s.inode x).dev ≠ 0 → p.refs x ≠ 0 → (s'.inode x).dev ≠ 0) : p.Ok s' := by
  have hone : ∀ (x : Slot) (f : Slot → Nat), (one x + f) x ≠ 0 := by
    intro x f
    rw [Pi.add_apply, one_self]
    omega
  have hk : ∀ k : After, k.Ok s → k.Ok s' := by
    intro k hk
    cases k with
    | ret | found _ => trivial
    | cross e x => exact hsb x hk
  cases p with
  | user | readLock _ | reading _ | emptyWait _ _ _ | emptyAgain _ _ | scanWait _ _ _ _ => exact h
  | cross e x => exact hsb x h
  | putWait j k => exact hk k h
  | putRepeat x k | sync x k n | truncating x k => exact ⟨hi x h.1 (hone x _), hk k h.2⟩
  | writeLock x w | writing x w =>
    cases w with
    | empty dev nr => exact h
    | put k => exact ⟨hi x h.1 (hone x _), hk k h.2⟩
    | sync y k n => exact ⟨hi y h.1 (hone y _), hk k h.2⟩

omit [DecidableEq τ] [Fintype τ] in
/-- An inode may lose its device when the task has no reference to it. -/
theorem Pc.Ok.set (h : p.Ok s) (hm : (s.inode j).dev ≠ 0 → m.dev ≠ 0 ∨ p.refs j = 0) :
    p.Ok (setInode s j m) := by
  refine h.mono (fun x hx => hx) fun x hx hr => ?_
  rcases eq_or_ne x j with rfl | hxj
  · simp only [setInode, update_self]
    exact (hm hx).resolve_right hr
  · simpa only [setInode, update_of_ne hxj] using hx

omit [DecidableEq τ] [Fintype τ] in
/-- The counts after a store, if the new one is right. -/
theorem count_set {R R' : Slot → Nat} (h : ∀ x, (s.inode x).count.toNat = R x)
    (hj : m.count.toNat = R' j) (hne : ∀ x, x ≠ j → R' x = R x) (x : Slot) :
    ((setInode s j m).inode x).count.toNat = R' x := by
  rcases eq_or_ne x j with rfl | hx
  · simpa only [setInode, update_self] using hj
  · simpa only [setInode, update_of_ne hx, hne x hx] using h x

theorem total_one : total s t (r + one j) j = total s t r j + 1 := by
  rw [total_add, one_self]

theorem total_one_ne (h : i ≠ j) : total s t (r + one j) i = total s t r i := by
  rw [total_add, one_of_ne h, Nat.add_zero]

/-- A change that touches neither the name nor the count. -/
theorem Good.set (h : Good s t r) (hc : m.count = (s.inode j).count)
    (hd : m.dev = (s.inode j).dev) (hn : m.num = (s.inode j).num) : Good (setInode s j m) t r :=
  ⟨count_set h.count (hc ▸ h.count j) fun _ _ => rfl, h.unique.set (.inr ⟨hd, hn⟩), h.handed,
    fun t' ht => (h.others t' ht).set fun hj => .inl (hd ▸ hj), h.mounted⟩

theorem toNat_incr {c : UInt16} (h : c.toNat < 65535) : (c + 1).toNat = c.toNat + 1 := by
  rw [UInt16.toNat_add, Nat.mod_eq_of_lt]
  · rfl
  · show _ + 1 < 65536
    omega

theorem Good.incr (h : Good s t r) (hlt : total s t r i < 65535) :
    Good (incr s i) t (r + one i) := by
  refine ⟨count_set h.count ?_ fun x hx => total_one_ne hx,
    h.unique.set (.inr ⟨rfl, rfl⟩), h.handed, fun t' ht => (h.others t' ht).set .inl, h.mounted⟩
  rw [← h.count i] at hlt
  show ((s.inode i).count + 1).toNat = total s t (r + one i) i
  rw [total_one, ← h.count i, toNat_incr hlt]

/-- The count of an inode without the reference that the task has. -/
theorem Good.count_rest (h : Good s t (one j + r)) :
    (s.inode j).count.toNat = total s t r j + 1 := by
  rw [h.count j, add_comm (one j) r, total_one]

theorem Good.decr (h : Good s t (one j + r)) : Good (decr s j) t r := by
  have hc := h.count_rest
  rw [add_comm (one j)] at h
  refine ⟨count_set h.count ?_ fun x hx => (total_one_ne hx).symm,
    h.unique.set (.inr ⟨rfl, rfl⟩), h.handed, fun t' ht => (h.others t' ht).set .inl, h.mounted⟩
  rw [UInt16.toNat_sub_of_le, hc]
  · rfl
  · rw [UInt16.le_iff_toNat_le, hc]
    exact Nat.le_add_left ..

/-- The last reference goes, and the inode with it. -/
theorem Good.clear (h : Good s t (one j + r))
    (hc : (s.inode j).count.toNat ≤ 1) : Good (setInode s j .zero) t r := by
  rw [h.count_rest] at hc
  rw [add_comm (one j)] at h
  refine ⟨count_set h.count ?_ fun x hx => (total_one_ne hx).symm, h.unique.set (.inl rfl),
    h.handed, fun t' ht => (h.others t' ht).set fun _ => .inr ?_, h.mounted⟩
  · exact (Nat.le_zero.mp (Nat.le_of_succ_le_succ hc)).symm
  · have hle := refs_le_total s t (r + one j) ht j
    rw [total_one, Pi.add_apply, one_self] at hle
    omega

/-- A free inode without changes is handed out, and is its taker's. -/
theorem Good.handOut (h : Good s t r) (hc : (s.inode j).count = 0) (hd : (s.inode j).dirt = false) :
    Good (handOut s j) t (r + one j) := by
  have h0 : total s t r j = 0 := by
    rw [← h.count j, hc]
    rfl
  refine ⟨count_set h.count ?_ fun x hx => total_one_ne hx, h.unique.set (.inl rfl),
    fun m hm => ?_, fun t' ht => ?_, h.mounted⟩
  · show 1 = total s t (r + one j) j
    rw [total_one, h0]
  · rcases List.mem_append.mp hm with hm | hm
    · exact h.handed m hm
    · rw [List.mem_singleton.mp hm]
      exact ⟨hc, hd⟩
  · refine (h.others t' ht).set fun _ => .inr ?_
    have hle := refs_le_total s t r ht j
    omega

-- ======== iput

theorem Good.after (h : Good s t k.refs) (hk : k.Ok s) : Inv (after s t k) := by
  cases k with
  | ret => exact Good.go h trivial
  | found i => exact h.hold
  | cross e sb => exact Good.go h hk

theorem Good.written (h : Good s t (w.refs j)) (hw : w.Ok s j) : Inv (written s t j w) := by
  cases w with
  | empty dev nr => exact Good.go h hw
  | put k => exact Good.go h hw
  | sync i k next => exact Good.go h hw

omit [DecidableEq τ] [Fintype τ] in
/-- A change of another field does not matter to a writer. -/
theorem Writer.Ok.set (hw : w.Ok s j) (hd : m.dev = (s.inode i).dev) : w.Ok (setInode s i m) j :=
  Pc.Ok.set (p := .writing j w) hw fun hi => .inl (hd ▸ hi)

theorem Good.writeLocked (h : Good s t (w.refs j)) (hw : w.Ok s j)
    (hs : writeLocked s t j w = some s') : Inv s' := by
  unfold InodeTable.writeLocked at hs
  split at hs
  · cases hs
    exact h.written hw
  · obtain ⟨-, -, rfl⟩ := Option.map_eq_some_iff.mp hs
    exact Good.go (h.set rfl rfl rfl) (hw.set rfl)

theorem Good.writeInode (h : Good s t (w.refs j)) (hw : w.Ok s j)
    (hs : writeInode s t j w = some s') : Inv s' := by
  unfold InodeTable.writeInode at hs
  split at hs
  · cases hs
    exact Good.go h hw
  · exact h.writeLocked hw hs

section

variable (h : Good s t (one j + k.refs)) (hk : k.Ok s)
include h hk

theorem Good.putRepeat (hd : (s.inode j).dev ≠ 0) (hs : putRepeat s t j k = some s') : Inv s' := by
  unfold InodeTable.putRepeat at hs
  split at hs
  · cases hs
    exact h.decr.after hk
  · split at hs
    · cases hs
      exact Good.go h ⟨hd, hk⟩
    · split at hs
      · exact Good.writeInode (w := .put k) h ⟨hd, hk⟩ hs
      · cases hs
        exact h.decr.after hk

theorem Good.putBody (hs : putBody s t j k = some s') : Inv s' := by
  unfold InodeTable.putBody at hs
  split at hs
  · cases hs
  · split at hs
    · cases hs
      exact h.decr.after hk
    · rename_i hd
      split at hs
      · cases hs
        exact Good.go h ⟨hd, hk⟩
      · exact h.putRepeat hk hd hs

theorem Good.iput (hs : iput s t j k = some s') : Inv s' := by
  unfold InodeTable.iput at hs
  split at hs
  · cases hs
    exact Good.go h hk
  · exact h.putBody hk hs

theorem Good.freeInode (hd : (s.inode j).dev ≠ 0) (hs : freeInode s t j k = some s') : Inv s' := by
  unfold InodeTable.freeInode at hs
  rw [if_neg hd] at hs
  split at hs
  · cases hs
  · rename_i hc
    split at hs
    · cases hs
    · split at hs
      · cases hs
      · obtain ⟨-, -, rfl⟩ := Option.map_eq_some_iff.mp hs
        rw [UInt16.lt_iff_toNat_lt] at hc
        exact (h.clear (Nat.not_lt.mp hc)).after hk

theorem Good.syncInodes {next : Nat}
    (hd : (s.inode j).dev ≠ 0) (hs : syncInodes s t j k next = some s') : Inv s' := by
  unfold InodeTable.syncInodes at hs
  split at hs
  · split at hs
    · cases hs
    · split at hs
      · exact Good.writeInode (w := .sync j k (next + 1)) h ⟨hd, hk⟩ hs
      · cases hs
        exact Good.go h ⟨hd, hk⟩
  · cases hs
    exact Good.go h ⟨hd, hk⟩

end

-- ======== iget

theorem Good.readLocked (h : Good s t (one e)) (hs : readLocked s t e = some s') : Inv s' := by
  obtain ⟨-, -, rfl⟩ := Option.map_eq_some_iff.mp hs
  exact Good.go (h.set rfl rfl rfl) trivial

theorem Good.readInode (h : Good s t (one e)) (hs : readInode s t e = some s') : Inv s' := by
  unfold InodeTable.readInode at hs
  split at hs
  · cases hs
    exact Good.go h trivial
  · exact h.readLocked hs

theorem Good.readDone (h : Good s t (one e)) (isBlk : Bool)
    (nlinks : UInt8) : Inv (readDone s t e isBlk nlinks) := by
  have h' : Good (setInode s e { s.inode e with
      isBlk := isBlk, nlinks := nlinks, lock := false }) t (one e) :=
    h.set rfl rfl rfl
  exact h'.hold

theorem Good.foundInode (h : Good s t (one e)) (hlt : total s t (one e) i < 65535)
    (hs : foundInode s t e i = some s') : Inv s' := by
  have hi := h.incr hlt
  unfold InodeTable.foundInode at hs
  split at hs
  · split at hs
    · exact Good.iput (k := .found i) hi trivial hs
    · rename_i sb hsb
      rw [add_comm (one e)] at hi
      refine Good.iput hi ?_ hs
      have himount := List.find?_some hsb
      refine h.mounted sb ?_
      rw [of_decide_eq_true himount]
      exact Option.some_ne_none i
  · exact Good.iput (k := .found i) hi trivial hs

omit [DecidableEq τ] [Fintype τ] in
theorem lookup_none (h : lookup s dev nr = none) (x : Slot) :
    ¬((s.inode x).dev = dev ∧ (s.inode x).num = nr) := by
  have := List.find?_eq_none.mp h x (List.mem_finRange x)
  simpa using this

/-- The loop of `iget`: if it gets to its end, no slot has the inode. -/
theorem Good.scan (h : Good s t (one e)) (hdev : dev ≠ 0) (hlow : ∀ j, total s t (one e) j < 65535)
    (hs : scan s t dev nr e = some s') : Inv s' := by
  unfold InodeTable.scan at hs
  split at hs
  · split at hs
    · cases hs
      exact Good.go h hdev
    · exact h.foundInode (hlow _) hs
  · rename_i hl
    exact Good.readInode (s := setInode s e { s.inode e with dev := dev, num := nr })
      ⟨count_set h.count (h.count e) fun _ _ => rfl, h.unique.assign (lookup_none hl), h.handed,
        fun t' ht => (h.others t' ht).set fun _ => .inl hdev, h.mounted⟩ hs

theorem Good.emptyBody (h : Good s t fun _ => 0) (hdev : dev ≠ 0)
    (hlow : ∀ j, total s t (fun _ => 0) j < 65535)
    (hs : emptyBody s t dev nr j = some s') : Inv s' := by
  unfold InodeTable.emptyBody at hs
  split at hs
  · exact Good.writeInode (w := .empty dev nr) h hdev hs
  · rename_i hd
    split at hs
    · cases hs
      exact Good.go h hdev
    · rename_i hc
      rw [ne_eq, not_not] at hc
      have h' := h.handOut hc (Bool.eq_false_iff.mpr hd)
      have hz : ((fun _ => 0) + one j : Slot → Nat) = one j :=
        funext fun x => Nat.zero_add _
      rw [hz] at h'
      refine h'.scan hdev (fun x => ?_) hs
      have hx : total (InodeTable.handOut s j) t (one j) x
          = total s t (fun _ => 0) x + one j x := by
        rw [← total_add, hz]
        rfl
      rw [hx]
      rcases eq_or_ne x j with rfl | hxj
      · rw [one_self, ← h.count x, hc]
        decide
      · rw [one_of_ne hxj]
        exact hlow x

theorem Good.getEmpty (h : Good s t fun _ => 0) (hdev : dev ≠ 0)
    (hlow : ∀ j, total s t (fun _ => 0) j < 65535)
    (hs : getEmpty s t dev nr = some s') : Inv s' := by
  unfold InodeTable.getEmpty at hs
  dsimp only at hs
  obtain ⟨j, -, hs⟩ := Option.bind_eq_some_iff.mp hs
  have h' : Good { s with lastInode :=
      (search s.inode NR_INODE s.lastInode none).1 } t fun _ => 0 :=
    ⟨h.count, h.unique, h.handed, h.others, h.mounted⟩
  split at hs
  · cases hs
    exact Good.go h' hdev
  · exact h'.emptyBody hdev hlow hs

-- ======== steps

theorem Inv.resume {isBlk : Bool} {nlinks : UInt8} (h : Inv s) (hlow : ∀ j, references s j < 65535)
    (hs : resume s t isBlk nlinks = some s') : Inv s' := by
  have hg := h.good t
  have hp := h.tasks t
  have hl : ∀ j, total s t (s.pc t).refs j < 65535 := fun j => by
    rw [total_pc]
    exact hlow j
  unfold InodeTable.resume at hs
  split at hs <;> rename_i hpc <;> rw [hpc] at hg hp hl
  · cases hs
  · split at hs
    · cases hs
    · exact Good.emptyBody hg hp hl hs
  · exact Good.getEmpty hg hp hl hs
  · split at hs
    · cases hs
    · split at hs
      · exact Good.foundInode hg (hl _) hs
      · exact Good.scan hg hp hl hs
  · exact Good.scan hg hp hl hs
  · split at hs
    · cases hs
    · exact Good.readLocked hg hs
  · cases hs
    exact Good.readDone hg isBlk nlinks
  · split at hs
    · cases hs
    · exact Good.putBody hg hp hs
  · split at hs
    · cases hs
    · exact Good.putRepeat hg hp.2 hp.1 hs
  · exact Good.syncInodes hg hp.2 hp.1 hs
  · exact Good.freeInode hg hp.2 hp.1 hs
  · split at hs
    · cases hs
    · exact Good.writeLocked hg hp hs
  · cases hs
    exact Good.written (hg.set rfl rfl rfl) (Writer.Ok.set hp rfl)

omit [DecidableEq τ] in
/-- The rest of the kernel changes an inode. -/
theorem Inv.set (h : Inv s) (hc : m.count = (s.inode j).count)
    (hd : m.dev = (s.inode j).dev) (hn : m.num = (s.inode j).num) : Inv (setInode s j m) := by
  refine ⟨count_set h.count (hc ▸ h.count j) fun _ _ => rfl, h.unique.set (.inr ⟨hd, hn⟩),
    h.handed, fun t => (h.tasks t).set fun hj => .inl (hd ▸ hj), h.mounted⟩

omit [DecidableEq τ] in
theorem Inv.dup (h : Inv s) (hlt : references s j < 65535) : Inv (hold (incr s j) j) := by
  refine ⟨count_set h.count ?_ fun x hx => ?_, h.unique.set (.inr ⟨rfl, rfl⟩), h.handed,
    fun t => (h.tasks t).set .inl, h.mounted⟩
  · rw [← h.count j] at hlt
    rw [references_hold, one_self]
    exact (toNat_incr hlt).trans (congrArg (· + 1) (h.count j))
  · rw [references_hold, one_of_ne hx]
    rfl

omit [DecidableEq τ] in
theorem Inv.setSuper (h : Inv s) (sb : Fin NR_SUPER)
    (imount : Option Slot) (hdev : dev ≠ 0) : Inv { s with
      sDev := update s.sDev sb dev
      sImount := update s.sImount sb imount } := by
  have hsb : ∀ x, s.sDev x ≠ 0 → update s.sDev sb dev x ≠ 0 := by
    intro x hx
    rcases eq_or_ne x sb with rfl | hne
    · rwa [update_self]
    · rwa [update_of_ne hne]
  refine ⟨h.count, h.unique, h.handed, fun t => (h.tasks t).mono hsb fun _ hx _ => hx,
    fun x hx => ?_⟩
  rcases eq_or_ne x sb with rfl | hne
  · simpa only [update_self] using hdev
  · simp only [update_of_ne hne] at hx ⊢
    exact h.mounted x hx

/-- No inode has so many references that the next one would not fit into
`i_count`. -/
def Few (_ : Op τ) (s : System τ) : Prop :=
  ∀ j, references s j < 65535

instance (o : Op τ) (s : System τ) : Decidable (Few o s) :=
  inferInstanceAs (Decidable (∀ _, _))

theorem Inv.step {o : Op τ} (h : Inv s) (hf : Few o s) (hs : step o s = some s') : Inv s' := by
  cases o with
  | iget t dev nr =>
    unfold InodeTable.step at hs
    dsimp only at hs
    split at hs
    · rename_i hp
      obtain ⟨hdev, hs⟩ := Option.ite_none_left_eq_some.mp hs
      have hg := h.good t
      have hl := fun j => total_pc s t j
      rw [hp] at hg hl
      refine Good.getEmpty hg hdev (fun j => ?_) hs
      exact (hl j).trans_lt (hf j)
    · cases hs
  | iput t j =>
    unfold InodeTable.step at hs
    dsimp only at hs
    obtain ⟨hp, hs⟩ := Option.ite_none_right_eq_some.mp hs
    have hg := h.good t
    rw [hp.1] at hg
    refine Good.iput (s := { s with
        held := update s.held j (s.held j - 1) }) (k := .ret)
      ⟨fun x => ?_, hg.unique, hg.handed, hg.others, hg.mounted⟩
      trivial hs
    refine (hg.count x).trans ?_
    rw [show After.refs .ret = Pc.refs .user from rfl, add_comm (one j), total_add]
    unfold total
    dsimp only
    rcases eq_or_ne x j with rfl | hx
    · rw [update_self, one_self]
      omega
    · rw [update_of_ne hx, one_of_ne hx, Nat.add_zero]
  | dup j =>
    unfold InodeTable.step at hs
    dsimp only at hs
    split at hs
    · cases hs
      exact h.dup (hf j)
    · cases hs
  | resume t isBlk nlinks => exact h.resume hf hs
  | change j isBlk nlinks mount | setDirty j =>
    cases hs
    exact h.set rfl rfl rfl
  | setSuper sb dev imount =>
    unfold InodeTable.step at hs
    dsimp only at hs
    split at hs
    · cases hs
    · rename_i hdev
      cases hs
      exact h.setSuper sb imount hdev

omit [DecidableEq τ] in
theorem inv_boot : Inv (System.boot τ) := by
  refine ⟨fun j => ?_, fun i j hi => absurd rfl hi, fun m hm => ?_,
    fun t => trivial, fun sb hsb => absurd rfl hsb⟩
  · simp only [references, System.boot, Pc.refs, Finset.sum_const_zero]
    rfl
  · cases hm

/-- In every run in which no inode gets 65536 references, no inode is in
the table twice, the counts are the numbers of references, and what
`get_empty_inode` hands out is free and has been written. -/
theorem inode_table_once {os : List (Op τ)} (hf : Meets step Few os (System.boot τ))
    (h : runOps step os (System.boot τ) = some s) :
    Unique s.inode ∧ (∀ j, (s.inode j).count.toNat = references s j) ∧ HandedFree s.handed := by
  have hI := runOps_invariant (fun o s s' hI hg hs => Inv.step hI hg hs) hf h inv_boot
  exact ⟨hI.unique, hI.count, hI.handed⟩

/-- Two tasks want one inode. The second comes while the first one reads it,
and waits; both get the same slot. One puts it again, changed, while the
other still has it. -/
theorem inode_table_once_shared : ∃ s : System Bool, runOps step
      [.setSuper 0 0x301 none, .iget true 0x301 7, .iget false 0x301 7,
        .resume true false 1, .resume false false 0, .setDirty 1,
        .iput true 1] (System.boot Bool) = some s ∧ references s 1 = 1
    ∧ Unique s.inode ∧ (∀ j, (s.inode j).count.toNat = references s j) ∧ HandedFree s.handed := by
  exact exists_checked Few (references · 1 = 1) (by decide +kernel)
    fun s hf h hr => ⟨hr, inode_table_once hf h⟩

-- ======== too many references

/-- The inode 7 is in slot 1 and has `n` references, and the other slots
are free. -/
def crowd (n : Nat) (last : Slot) : System Unit where
  inode := update (fun _ => .zero) 1
    ⟨false, 1, 0x301, 7, UInt16.ofNat n, false, false, false⟩
  lastInode := last
  sDev := update (fun _ => 0) 0 0x301
  sImount := update (fun _ => none) 0 none
  pc := fun _ => .user
  held := update (fun _ => 0) 1 n
  handed := List.replicate n .zero

theorem inode_crowd_of_ne {last : Slot} (hj : j ≠ 1) : (crowd n last).inode j = .zero := by
  simp [crowd, hj]

theorem lookup_eq {τ : Type} {s : System τ} (hu : Unique s.inode) (hd : (s.inode i).dev ≠ 0) :
    lookup s (s.inode i).dev (s.inode i).num = some i := by
  cases hl : lookup s (s.inode i).dev (s.inode i).num with
  | none => exact absurd ⟨rfl, rfl⟩ (lookup_none hl i)
  | some j =>
    have hj := List.find?_some hl
    rw [decide_eq_true_eq] at hj
    rw [hu i j hd hj.1.symm hj.2.symm]

theorem search_hit {k : Nat} (hc : (f (l + 1)).count = 0)
    (hd : (f (l + 1)).dirt = false) (hl : (f (l + 1)).lock = false) :
    search f (k + 1) l o = (l + 1, some (l + 1)) := by
  simp [search, hc, hd, hl]

theorem search_miss {k : Nat} (hc : (f (l + 1)).count ≠ 0) :
    search f (k + 1) l o = search f k (l + 1) o := by
  simp [search, hc]

/-- As long as the count is not 0, a free slot other than 1 is found. -/
theorem search_crowd (h0 : UInt16.ofNat n ≠ 0) :
    ∃ e, e ≠ 1 ∧ search (crowd n last).inode NR_INODE last none = (e, some e) := by
  have hfree : ∀ {k : Nat} {l : Slot}, l + 1 ≠ 1 →
      search (crowd n last).inode (k + 1) l none = (l + 1, some (l + 1)) := by
    intro k l hl
    refine search_hit ?_ ?_ ?_ <;> rw [inode_crowd_of_ne hl] <;> rfl
  rcases eq_or_ne (last + 1) 1 with hl | hl
  · refine ⟨1 + 1, by decide, ?_⟩
    have h1 : ((crowd n last).inode (last + 1)).count ≠ 0 := by
      rw [hl]
      simpa [crowd] using h0
    refine (search_miss h1).trans ?_
    rw [hl]
    exact hfree (by decide)
  · exact ⟨last + 1, hl, hfree hl⟩

theorem unique_crowd : Unique (crowd n last).inode := by
  intro x y hx hd _
  have h1 : ∀ z, ((crowd n last).inode z).dev ≠ 0 → z = 1 := by
    intro z hz
    by_contra hne
    rw [inode_crowd_of_ne hne] at hz
    exact hz rfl
  rw [h1 x hx, h1 y (hd ▸ hx)]

theorem references_crowd : references (crowd n last) 1 = n := by
  simp [references, crowd, Pc.refs]

/-- One more `iget`: it hands out a free slot, finds the inode in slot 1,
and puts the free slot back. -/
theorem iget_crowd (h0 : UInt16.ofNat n ≠ 0) :
    ∃ e, step (.iget () 0x301 7) (crowd n last) = some (crowd (n + 1) e) := by
  obtain ⟨e, he, hs⟩ := search_crowd h0
  refine ⟨e, ?_⟩
  have hfree : (crowd n e).inode e = .zero := inode_crowd_of_ne he
  have h1 : (handOut (crowd n e) e).inode 1 = (crowd n e).inode 1 :=
    update_of_ne he.symm ..
  have hlook : lookup (handOut (crowd n e) e) 0x301 7 = some 1 := by
    have hu : Unique (handOut (crowd n e) e).inode :=
      unique_crowd.set (.inl rfl)
    have hl := lookup_eq (i := 1) hu
    rw [h1] at hl
    exact hl (by simp [crowd])
  have hstart : step (.iget () 0x301 7) (crowd n last)
      = scan (handOut (crowd n e) e) () 0x301 7 e := by
    have hpc : (crowd n last).pc () = .user := rfl
    have hdev : (0x301 : UInt16) ≠ 0 := by decide
    have hl : search (crowd n last).inode NR_INODE (crowd n last).lastInode none = (e, some e) := hs
    rw [step, if_pos hpc, iget, if_neg hdev, getEmpty, hl]
    show (if ((crowd n e).inode e).lock then _
      else emptyBody (crowd n e) () 0x301 7 e) = _
    rw [hfree, emptyBody, hfree]
    rfl
  have hfound : scan (handOut (crowd n e) e) () 0x301 7 e
      = iput (incr (handOut (crowd n e) e) 1) () e (.found 1) := by
    rw [scan, hlook]
    dsimp only
    rw [h1, foundInode, h1]
    simp [crowd]
  have he' : (incr (handOut (crowd n e) e) 1).inode e = { MInode.zero with count := 1 } := by
    simp [incr, setInode, handOut, he]
  have hput : iput (incr (handOut (crowd n e) e) 1) () e (.found 1)
      = some (hold (go (decr (incr (handOut (crowd n e) e) 1) e) () .user) 1) := by
    rw [iput, he', putBody, he']
    rfl
  rw [hstart, hfound, hput]
  refine congrArg some ?_
  have hheld : update (crowd n e).held 1 ((crowd n e).held 1 + 1) = (crowd (n + 1) e).held := by
    simp [crowd]
  have hpc : update (crowd n e).pc () .user = (crowd (n + 1) e).pc := rfl
  have hhanded : (crowd n e).handed ++ [(crowd n e).inode e] = (crowd (n + 1) e).handed := by
    rw [hfree]
    exact List.replicate_succ'.symm
  have hinode : (decr (incr (handOut (crowd n e) e) 1) e).inode = (crowd (n + 1) e).inode := by
    funext x
    rcases eq_or_ne x e with rfl | hxe
    · rw [inode_crowd_of_ne he]
      simp only [decr, setInode, update_self, he']
      rfl
    · rcases eq_or_ne x 1 with rfl | hx1
      · simp [decr, incr, handOut, setInode, hxe, crowd]
      · rw [inode_crowd_of_ne hx1]
        simp [decr, incr, handOut, setInode, hxe, hx1, crowd]
  rw [System.mk.injEq]
  exact ⟨hinode, rfl, rfl, rfl, hpc, hheld, hhanded⟩

/-- The first `iget` reads the inode into slot 1. -/
theorem first_iget : runOps step [.setSuper 0 0x301 none,
      .iget () 0x301 7, .resume () false 1] (System.boot Unit) = some (crowd 1 1) := by
  let s1 : System Unit := { System.boot Unit with
    sDev := update (fun _ => 0) 0 0x301
    sImount := update (fun _ => none) 0 none }
  let s2 := setInode (handOut { s1 with lastInode := 1 } 1) 1
    { MInode.zero with count := 1, dev := 0x301, num := 7 }
  let s3 := go (setInode s2 1 { s2.inode 1 with lock := true }) () (.reading 1)
  have h1 : step (.setSuper 0 0x301 none) (System.boot Unit) = some s1 := rfl
  have h2 : step (.iget () 0x301 7) s1 = some s3 := rfl
  have h3 : step (.resume () false 1) s3 = some (readDone s3 () 1 false 1) :=
    rfl
  have h4 : readDone s3 () 1 false 1 = crowd 1 1 := by
    unfold readDone hold go
    rw [crowd, System.mk.injEq]
    refine ⟨?_, rfl, rfl, rfl, rfl, ?_, rfl⟩
    · funext x
      rcases eq_or_ne x 1 with rfl | hx
      · rfl
      · simp [s3, s2, s1, go, setInode, handOut, System.boot, hx]
    · rfl
  rw [runOps, h1, Option.bind_some, runOps, h2, Option.bind_some, runOps, h3, h4]
  rfl

/-- With the 65536th reference the count is 0. -/
theorem too_many_references : ∃ os s, runOps step os (System.boot Unit) = some s
      ∧ (s.inode 1).count = 0 ∧ references s 1 = 65536 := by
  have hrun : ∀ k, k < 65536 → ∃ last, runOps step (List.replicate k (.iget () 0x301 7)) (crowd 1 1)
        = some (crowd (k + 1) last) := by
    intro k
    induction k with
    | zero => exact fun _ => ⟨1, rfl⟩
    | succ k ih =>
      intro hk
      obtain ⟨last, hl⟩ := ih (by omega)
      have h0 : UInt16.ofNat (k + 1) ≠ 0 := by
        intro h
        have := congrArg UInt16.toNat h
        rw [UInt16.toNat_ofNat'] at this
        simp at this
        omega
      obtain ⟨e, he⟩ := iget_crowd h0
      refine ⟨e, ?_⟩
      rw [List.replicate_succ', Lib.runOps_append, hl, Option.bind_some, runOps, he]
      rfl
  obtain ⟨last, hl⟩ := hrun 65535 (by omega)
  refine ⟨[.setSuper 0 0x301 none, .iget () 0x301 7, .resume () false 1]
    ++ List.replicate 65535 (.iget () 0x301 7), crowd 65536 last, ?_, rfl, ?_⟩
  · rw [Lib.runOps_append, first_iget, Option.bind_some, hl]
  · exact references_crowd

end LearnLinux.InodeTable
