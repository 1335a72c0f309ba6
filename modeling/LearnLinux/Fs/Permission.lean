/-
Who may do what with an inode. The rule is coded twice: in `permission`
(fs/namei.c) for the effective ids, and in `sys_access` (fs/open.c), from
where `namei` has found the inode, for the real ones. `sys_access` shifts
the mode by 6 for the group too, so it looks at the owner's bits there.
-/
import Mathlib

namespace LearnLinux.Fs.Permission

/-- The ids of `current`. -/
structure Ids where
  uid : Nat
  euid : Nat
  gid : Nat
  egid : Nat

/-- The parts of an `m_inode` that count here. -/
structure Inode where
  mode : Nat
  uid : Nat
  gid : Nat
  dev : Nat
  nlinks : Nat

def EACCES : Int := 13

def permission (current : Ids) (inode : Inode) (mask : Nat) : Nat :=
  let mode :=
    if current.euid = inode.uid then inode.mode >>> 6
    else if current.egid = inode.gid then inode.mode >>> 3
    else inode.mode
  -- special case: not even root can read/write a deleted file
  if inode.dev ≠ 0 ∧ inode.nlinks = 0 then 0
  else if mode &&& mask &&& 7 = mask ∨ current.euid = 0 then 1
  else 0

def sysAccess (current : Ids) (inode : Inode) (mode : Nat) : Int :=
  let mode := mode &&& 7
  let iMode := inode.mode &&& 0o777
  let res :=
    if current.uid = inode.uid then iMode >>> 6
    else if current.gid = inode.gid then iMode >>> 6
    else iMode
  if res &&& 7 &&& mode = mode then 0
  else if current.uid = 0 ∧ (mode &&& 1 = 0 ∨ iMode &&& 0o111 ≠ 0) then 0
  else -EACCES

/-- The last three bits of `mode` grant all that `mask` asks for. -/
def Grants (mode mask : Nat) : Prop := mode &&& (mask &&& 7) = mask &&& 7

variable {current : Ids} {inode : Inode} {mask : Nat}

/-- `permission` looks at the bits of the owner, the group or the others. -/
theorem permission_eq_one_iff (hroot : current.euid ≠ 0) (hlink : inode.nlinks ≠ 0) :
    permission current inode (mask &&& 7) = 1 ↔
      Grants (if current.euid = inode.uid then inode.mode >>> 6
        else if current.egid = inode.gid then inode.mode >>> 3 else inode.mode) mask := by
  unfold permission Grants
  simp only [hroot, hlink, and_false, if_false, or_false, Nat.and_assoc, Nat.and_self]
  split <;> simp_all

/-- `sys_access` looks at those of the owner, for the group too, or at
those of the others. -/
theorem sysAccess_eq_zero_iff (hroot : current.uid ≠ 0) :
    sysAccess current inode mask = 0 ↔
      Grants (if current.uid = inode.uid ∨ current.gid = inode.gid then inode.mode >>> 6
        else inode.mode) mask := by
  have hshift : (inode.mode &&& 0o777) >>> 6 = inode.mode >>> 6 &&& 7 :=
    Nat.shiftRight_and_distrib
  have h7 : 7 &&& (mask &&& 7) = mask &&& 7 := Nat.and_left_comm ..
  unfold sysAccess Grants
  simp only [hroot, false_and, if_false]
  by_cases ho : current.uid = inode.uid <;> by_cases hg : current.gid = inode.gid <;>
    simp [ho, hg, hshift, h7, EACCES, Nat.and_assoc]

/-- For a process that is not the super-user and whose effective ids are
its real ones, the two agree on a linked inode exactly if, where it is in
the group and not the owner, the owner's bits and the group's grant the
mask alike. -/
theorem sysAccess_iff_permission_iff (hu : current.uid = current.euid)
    (hg : current.gid = current.egid) (hroot : current.uid ≠ 0) (hlink : inode.nlinks ≠ 0) :
    (sysAccess current inode mask = 0 ↔ permission current inode (mask &&& 7) = 1) ↔
      (current.uid ≠ inode.uid → current.gid = inode.gid →
        (Grants (inode.mode >>> 6) mask ↔ Grants (inode.mode >>> 3) mask)) := by
  rw [sysAccess_eq_zero_iff hroot, permission_eq_one_iff (hu ▸ hroot) hlink, ← hu, ← hg]
  by_cases ho : current.uid = inode.uid
  · simp [ho]
  by_cases hgr : current.gid = inode.gid <;> simp [ho, hgr]

/-- The owner may write; for the owner both say so. -/
theorem sysAccess_iff_permission_iff_owner :
    sysAccess ⟨5, 5, 1, 1⟩ ⟨0o644, 5, 1, 1, 1⟩ 2 = 0 ↔
      permission ⟨5, 5, 1, 1⟩ ⟨0o644, 5, 1, 1, 1⟩ (2 &&& 7) = 1 :=
  (sysAccess_iff_permission_iff rfl rfl (by decide) (by decide)).mpr fun h => absurd rfl h

/-- A member of the group may not write what its owner may: `sys_access`
says it may. -/
theorem sysAccess_group_as_owner :
    sysAccess ⟨6, 6, 1, 1⟩ ⟨0o644, 5, 1, 1, 1⟩ 2 = 0 ∧
      permission ⟨6, 6, 1, 1⟩ ⟨0o644, 5, 1, 1, 1⟩ (2 &&& 7) = 0 := by
  decide

end LearnLinux.Fs.Permission
