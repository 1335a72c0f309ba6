/-
Reading the super block of a device (`read_super` of fs/super.c), from
the free slot it has found on, and what fs/bitmap.c does with the maps.

A buffer is named by its block. `s_imap` and `s_zmap` are the buffers
read into them, in order: the entries behind those are NULL. A read may
fail and the next read of the same block succeed, so whether one does is
given for each entry it is to fill. A store past the eighth entry ends
the run, for `s_imap[8]` is `s_zmap[0]` and `s_zmap[8]` is `s_dev`.
-/
import Mathlib

namespace LearnLinux.Fs.Super

/-- SUPER_MAGIC. -/
def superMagic : Nat := 0x137F

/-- I_MAP_SLOTS and Z_MAP_SLOTS. -/
def mapSlots : Nat := 8

/-- The parts of `d_super_block` that are looked at here. -/
structure DSuperBlock where
  ninodes : Nat
  nzones : Nat
  imapBlocks : Nat
  zmapBlocks : Nat
  firstdatazone : Nat
  magic : Nat

/-- Which calls of `bread` get their block: the super block, the one for
`s_imap[i]` and the one for `s_zmap[i]`. -/
structure Disk where
  super : Bool
  imap : Nat → Bool
  zmap : Nat → Bool

/-- A filled slot of `super_block`. -/
structure SuperBlock where
  d : DSuperBlock
  imap : List Nat
  zmap : List Nat

/-- The loop that reads `n` more map blocks, from `block` on. `none` is a
store past the array: it is made whether or not the read succeeds. -/
def readMaps (bread : Nat → Bool) : Nat → Nat → List Nat → Option (List Nat)
  | 0, _, m => some m
  | n + 1, block, m =>
    if m.length = mapSlots then none
    else if bread m.length then readMaps bread n (block + 1) (m ++ [block])
    else some m

/-- What `read_super` comes to. A slot given up has an `s_dev`, and the
buffers it still holds. -/
inductive Outcome where
  | overrun
  | nullMap
  | failed (sDev : Nat) (held : List Nat)
  | returned (s : SuperBlock)

/-- `read_super` on a device whose block 1 holds `d`. -/
def readSuper (disk : Disk) (d : DSuperBlock) : Outcome :=
  if !disk.super then .failed 0 []
  else if d.magic ≠ superMagic then .failed 0 []
  else match readMaps disk.imap d.imapBlocks 2 [] with
    | none => .overrun
    | some im =>
      match readMaps disk.zmap d.zmapBlocks (2 + im.length) [] with
      | none => .overrun
      | some zm =>
        if 2 + im.length + zm.length ≠ 2 + d.imapBlocks + d.zmapBlocks then
          -- brelse of every entry of both arrays
          .failed 0 ((im ++ zm).diff (im.take mapSlots ++ zm.take mapSlots))
        else if im = [] ∨ zm = [] then .nullMap
        else .returned ⟨d, im, zm⟩

/-- The map `free_block` looks at for a zone that is in range. -/
def SuperBlock.freeBlockMap (s : SuperBlock) (zone : Nat) : Option Nat :=
  s.zmap[(zone + 1 - s.d.firstdatazone) / 8192]?

/-- The map `free_inode` looks at for an inode that is in range. -/
def SuperBlock.freeInodeMap (s : SuperBlock) (num : Nat) : Option Nat :=
  s.imap[num / 8192]?

/-- The map at which the search of `new_block` and `new_inode` stops:
the first that is there and, as `find_first_zero` has it, not full. -/
def newMap (zero : Nat → Bool) (m : List Nat) : Option Nat :=
  (List.range mapSlots).find? fun i => m[i]?.any zero

/-- The maps are there for whatever bitmap.c does with this slot. -/
def SuperBlock.Mapped (s : SuperBlock) : Prop :=
  (∀ zone, s.d.firstdatazone ≤ zone → zone < s.d.nzones → s.freeBlockMap zone ≠ none) ∧
  (∀ num, 1 ≤ num → num ≤ s.d.ninodes → s.freeInodeMap num ≠ none) ∧
  ∀ zero i, (newMap zero s.zmap = some i → s.zmap[i]? ≠ none) ∧
    (newMap zero s.imap = some i → s.imap[i]? ≠ none)

/-- No store past the arrays, no map missed, nothing left behind. -/
def Outcome.Safe : Outcome → Prop
  | .overrun => False
  | .nullMap => False
  | .failed sDev held => sDev = 0 ∧ held = []
  | .returned s => s.Mapped

end LearnLinux.Fs.Super
