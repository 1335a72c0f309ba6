/-
What it is for a mounted file system to be consistent, and the runs of
the zone allocator.

The zones of all files are ONE forest: the root slots are the
`i_zone[k]` of every inode, the entries are those of the indirect
blocks. A path counts when the block map can take it: a direct zone, the
indirect block and its 512 entries, the double indirect block, its 512
tables and their 512 entries. The indirect blocks themselves are on
paths that count, so they are zones like any other.
-/
import LearnLinux.Lib.Forest
import LearnLinux.Lib.Run
import LearnLinux.Fs.Zones

namespace LearnLinux.Fs

open Lib

/-- A path of the block map: inode and `i_zone` index, then entry
indices. -/
abbrev ZPath := Path (Nat × Nat) Nat

/-- The zone numbers of all inodes, as one forest. -/
def Vol.forest (v : Vol) : Forest (Nat × Nat) Nat where
  root k := (v.inode k.1).zone k.2
  ent n i := (v.data n).entry i

/-- The zone number at the end of a path. -/
def Vol.zoneAt (v : Vol) (p : ZPath) : Nat := p.at v.forest

/-- A regular file or a directory: its `i_zone` holds zone numbers. -/
def Vol.IsFile (v : Vol) (ino : Nat) : Prop := (v.inode ino).mode ≠ .other

/-- The paths of the block map. -/
def Counts (v : Vol) : ZPath → Prop
  | .root (ino, k) => v.IsFile ino ∧ k < 9
  | .child (.root (ino, k)) i => v.IsFile ino ∧ (k = 7 ∨ k = 8) ∧ i < 512
  | .child (.child (.root (ino, k)) i) j =>
    v.IsFile ino ∧ k = 8 ∧ i < 512 ∧ j < 512
  | .child (.child (.child _ _) _) _ => False

/-- The path `_bmap` takes to block `block` of a file. -/
def blockPath (ino block : Nat) : ZPath :=
  if block < 7 then .root (ino, block)
  else if block - 7 < 512 then .child (.root (ino, 7)) (block - 7)
  else .child (.child (.root (ino, 8)) ((block - 7 - 512) / 512)) ((block - 7 - 512) % 512)

/-- Where the data blocks are: the paths that end. -/
def Leaf : ZPath → Prop
  | .root (_, k) => k < 7
  | .child (.root (_, k)) _ => k = 7
  | .child (.child _ _) _ => True

/-- Byte `off` of the data block at the end of a path, 0 in a hole. -/
def Vol.byteAt (v : Vol) (p : ZPath) (off : Nat) : UInt8 :=
  if v.zoneAt p = 0 then 0 else v.data (v.zoneAt p) off

/-- The bit of block `z` is set. -/
def Vol.Marked (v : Vol) (z : Nat) : Prop :=
  v.bit (z + 1 - v.firstdatazone) = true

/-- Every zone number reachable from a file lies in the data zone, has
its bit set, and is reached once. -/
structure Consistent (v : Vol) : Prop where
  zone : ∀ p, Counts v p → v.zoneAt p ≠ 0 → v.firstdatazone ≤ v.zoneAt p ∧ v.zoneAt p < v.nzones
      ∧ v.Marked (v.zoneAt p)
  once : ∀ p q, Counts v p → Counts v q → v.zoneAt p ≠ 0 → v.zoneAt p = v.zoneAt q → p = q

/-- What mounting leaves: `s_nzones` is a short, `read_super` has set
bit 0, and the bits beyond `s_nzones` are set. -/
structure Mounted (v : Vol) : Prop where
  short : v.nzones < 2 ^ 16
  zero : v.bit 0 = true
  tail : ∀ t, t < 8 * 8192 → (v.zmap (t / 8192)).isSome →
    v.nzones ≤ t + v.firstdatazone - 1 → v.bit t = true

/-- A mounted, consistent file system. -/
structure Sound (v : Vol) : Prop where
  mounted : Mounted v
  consistent : Consistent v

-- ======== runs

/-- What happens to a mounted device: the two calls, and between them
what other tasks do to its buffers — write one back, take and drop
references. -/
inductive ZoneOp where
  | createBlock (ino block : Nat)
  | truncate (ino : Nat)
  | writeBack (n : Nat)
  | setHeld (n c : Nat)

def ZoneOp.exec : ZoneOp → Vol → Except Panic Vol
  | .createBlock ino block, v => do
    let (_, v) ← Fs.createBlock ino block v
    .ok v
  | .truncate ino, v => Fs.truncate ino v
  | .writeBack n, v =>
    .ok { v with disk := fun m => if m = n then v.data n else v.disk m }
  | .setHeld n c, v =>
    .ok { v with held := fun m => if m = n then c else v.held m }

/-- `create_block` is called on files, for blocks below the limit. -/
def ZoneOp.ready : ZoneOp → Vol → Prop
  | .createBlock ino block, v => v.IsFile ino ∧ block < maxBlocks
  | .truncate _, _ => True
  | .writeBack _, _ => True
  | .setHeld _ _, _ => True

def ZoneOp.step (o : ZoneOp) (v : Vol) : Option Vol := (o.exec v).toOption

end LearnLinux.Fs
