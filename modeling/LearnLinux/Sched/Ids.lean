/-
The user and group ids of a task, and the calls of `kernel/sys.c` that
change them.

The ids are unsigned shorts and the arguments ints: an id is widened to be
compared with an argument, and an argument is cut when it is stored. The
user half puts the real id back when the effective one is refused, the
group half does not: for a task that is not the superuser's the first
assignment there has stored what was there.
-/
import Mathlib

namespace LearnLinux.Sys

structure Ids where
  uid : BitVec 16
  euid : BitVec 16
  suid : BitVec 16
  gid : BitVec 16
  egid : BitVec 16
  sgid : BitVec 16
  deriving DecidableEq

def EPERM : Int := 1

def suser (c : Ids) : Bool := c.euid = 0

/-- The comparison of an id with an argument. -/
def same (id : BitVec 16) (arg : BitVec 32) : Bool := id.setWidth 32 = arg

def sysSetregid (rgid egid : BitVec 32) (c : Ids) : Int × Ids :=
  if 0 < rgid.toInt ∧ !(same c.gid rgid || suser c) then (-EPERM, c)
  else
    let c := if 0 < rgid.toInt then { c with gid := rgid.setWidth 16 } else c
    if 0 < egid.toInt then
      if same c.gid egid || same c.egid egid || same c.sgid egid || suser c then
        (0, { c with egid := egid.setWidth 16 })
      else (-EPERM, c)
    else (0, c)

def sysSetgid (gid : BitVec 32) (c : Ids) : Int × Ids := sysSetregid gid gid c

def sysSetreuid (ruid euid : BitVec 32) (c : Ids) : Int × Ids :=
  let oldRuid := c.uid
  if 0 < ruid.toInt ∧ !(same c.euid ruid || same oldRuid ruid || suser c) then (-EPERM, c)
  else
    let c := if 0 < ruid.toInt then { c with uid := ruid.setWidth 16 } else c
    if 0 < euid.toInt then
      if same oldRuid euid || same c.euid euid || suser c then
        (0, { c with euid := euid.setWidth 16 })
      else (-EPERM, { c with uid := oldRuid })
    else (0, c)

def sysSetuid (uid : BitVec 32) (c : Ids) : Int × Ids := sysSetreuid uid uid c

inductive Call where
  | setregid (rgid egid : BitVec 32)
  | setgid (gid : BitVec 32)
  | setreuid (ruid euid : BitVec 32)
  | setuid (uid : BitVec 32)

def Call.exec : Call → Ids → Int × Ids
  | .setregid rgid egid => sysSetregid rgid egid
  | .setgid gid => sysSetgid gid
  | .setreuid ruid euid => sysSetreuid ruid euid
  | .setuid uid => sysSetuid uid

/-- The ids after the calls, one after the other. -/
def run (calls : List Call) (c : Ids) : Ids := calls.foldl (fun c o => (o.exec c).2) c

-- ======== one call

/-- What a task that is not the superuser's may become. -/
structure Within (c c' : Ids) : Prop where
  euid_ne : c'.euid ≠ 0
  users : ({c'.uid, c'.euid} : Set (BitVec 16)) ⊆ {c.uid, c.euid}
  groups : ({c'.gid, c'.egid, c'.sgid} : Set (BitVec 16)) ⊆ {c.gid, c.egid, c.sgid}

/-- A call of such a task: the ids it ends with, and that a refusal changes
none. -/
def Keeps (c : Ids) (r : Int × Ids) : Prop :=
  Within c r.2 ∧ (r.1 = -EPERM → r.2 = c)

theorem Within.refl {c : Ids} (h : c.euid ≠ 0) : Within c c :=
  ⟨h, subset_rfl, subset_rfl⟩

/-- An argument that compares equal is stored as the id it is equal to. -/
theorem setWidth_of_same {id : BitVec 16} {arg : BitVec 32} (h : same id arg = true) :
    arg.setWidth 16 = id := by
  rw [← of_decide_eq_true h]
  simp

theorem ne_zero_of_same {id : BitVec 16} {arg : BitVec 32} (h : same id arg = true)
    (hpos : 0 < arg.toInt) : id ≠ 0 := by
  rintro rfl
  rw [← of_decide_eq_true h] at hpos
  exact absurd hpos (by decide)

theorem keeps_setregid {c : Ids} (h : c.euid ≠ 0) (rgid egid : BitVec 32) :
    Keeps c (sysSetregid rgid egid c) := by
  have hs : suser c = false := decide_eq_false h
  unfold sysSetregid
  split
  · exact ⟨.refl h, fun _ => rfl⟩
  rename_i hr
  have hgid : (if 0 < rgid.toInt then { c with gid := rgid.setWidth 16 } else c) = c := by
    split
    · rename_i hpos
      rw [show rgid.setWidth 16 = c.gid from setWidth_of_same (by simpa [hpos, hs] using hr)]
    · rfl
  rw [hgid]
  dsimp only
  split
  · split
    · rename_i hid
      refine ⟨⟨h, subset_rfl, ?_⟩, nofun⟩
      rw [hs, Bool.or_false, Bool.or_eq_true, Bool.or_eq_true] at hid
      rcases hid with (hid | hid) | hid <;> simp [setWidth_of_same hid, Set.insert_subset_iff]
    · exact ⟨.refl h, fun _ => rfl⟩
  · exact ⟨.refl h, fun _ => rfl⟩

theorem keeps_setreuid {c : Ids} (h : c.euid ≠ 0) (ruid euid : BitVec 32) :
    Keeps c (sysSetreuid ruid euid c) := by
  have hs : suser c = false := decide_eq_false h
  unfold sysSetreuid
  dsimp only
  split
  · exact ⟨.refl h, fun _ => rfl⟩
  rename_i hr
  obtain ⟨u, hu, huid⟩ : ∃ u, (u = c.uid ∨ u = c.euid) ∧
      (if 0 < ruid.toInt then { c with uid := ruid.setWidth 16 } else c) = { c with uid := u } := by
    split
    · rename_i hpos
      refine ⟨_, ?_, rfl⟩
      rw [not_and, hs, Bool.or_false, Bool.not_eq_true', Bool.not_eq_false, Bool.or_eq_true] at hr
      exact (hr hpos).symm.imp setWidth_of_same setWidth_of_same
    · exact ⟨c.uid, .inl rfl, rfl⟩
  rw [huid]
  split
  · rename_i hpos
    split
    · rename_i hid
      have hs' : suser { c with uid := u } = false := hs
      rw [hs', Bool.or_false, Bool.or_eq_true] at hid
      rcases hid with hid | hid <;>
      exact ⟨⟨(setWidth_of_same hid).trans_ne (ne_zero_of_same hid hpos),
        by simp [setWidth_of_same hid, Set.insert_subset_iff, hu], subset_rfl⟩, nofun⟩
    · exact ⟨.refl h, fun _ => rfl⟩
  · exact ⟨⟨h, by simp [Set.insert_subset_iff, hu], subset_rfl⟩, nofun⟩

theorem Call.keeps (o : Call) {c : Ids} (h : c.euid ≠ 0) : Keeps c (o.exec c) := by
  cases o with
  | setregid rgid egid => exact keeps_setregid h rgid egid
  | setgid gid => exact keeps_setregid h gid gid
  | setreuid ruid euid => exact keeps_setreuid h ruid euid
  | setuid uid => exact keeps_setreuid h uid uid

-- ======== the calls

theorem within_run {c : Ids} (h : c.euid ≠ 0) (calls : List Call) : Within c (run calls c) := by
  induction calls generalizing c with
  | nil => exact .refl h
  | cons o calls ih =>
    have hw := (o.keeps h).1
    have hrest := ih hw.euid_ne
    exact ⟨hrest.euid_ne, hrest.users.trans hw.users, hrest.groups.trans hw.groups⟩

/-- Whatever a task without privilege calls, with any arguments: its user
ids are among those it had, its group ids among its three, and a call that
is refused changes nothing. -/
theorem ids_give_no_privilege {c : Ids} (h : c.euid ≠ 0) (calls : List Call) :
    ({(run calls c).uid, (run calls c).euid} : Set (BitVec 16)) ⊆ {c.uid, c.euid} ∧
    ({(run calls c).gid, (run calls c).egid} : Set (BitVec 16)) ⊆ {c.gid, c.egid, c.sgid} ∧
    ∀ o : Call, (o.exec (run calls c)).1 = -EPERM → (o.exec (run calls c)).2 = run calls c := by
  have hw := within_run h calls
  refine ⟨hw.users, ?_, fun o => (o.keeps hw.euid_ne).2⟩
  exact (Set.insert_subset_insert (by simp)).trans hw.groups

/-- A set-user-id program swaps its ids, and is refused the superuser's. -/
theorem ids_give_no_privilege_swap : ∃ c : Ids,
    run [.setreuid 5 7, .setuid 65541] ⟨7, 5, 5, 3, 3, 3⟩ = c ∧ (c.uid, c.euid) = (5, 7) ∧
    ({c.uid, c.euid} : Set (BitVec 16)) ⊆ {7, 5} :=
  ⟨_, rfl, by decide, (ids_give_no_privilege (c := ⟨7, 5, 5, 3, 3, 3⟩) (by decide)
    [.setreuid 5 7, .setuid 65541]).1⟩

end LearnLinux.Sys
