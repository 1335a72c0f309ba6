/-
User-mode accesses through the page tables.

The processor's part of paging: a linear address is translated through
the directory and a page table; a store through an entry without W
faults, and page.s hands the fault to `do_wp_page`, after which the
instruction is restarted and the store succeeds. A store sets the
dirty bit of its entry. The accessed bit, which nothing in the source
reads, is left out, and so is what happens on a not-present page:
`do_no_page` (Demand.lean) is not an access, so here such an access
has no result.
-/
import LearnLinux.Mm.Memory

namespace LearnLinux.Mm

/-- The entry that maps linear address `a`, when its directory entry is
present. -/
def entryOf (s : Mem) (a : Nat) : Nat :=
  if present (s.word (dirNr a)) then s.word (tableEntryOf s a) else 0

/-- The physical address behind linear address `a`. -/
def physAddr (s : Mem) (a : Nat) : Nat := pageAddr (entryOf s a) + a % 4096

/-- A load from linear address `a`. -/
def userRead (s : Mem) (a : Nat) : Option Nat :=
  if present (entryOf s a) then some (s.byte (physAddr s a)) else none

/-- The part of a store after the protection check: the dirty bit, then
the byte. -/
def userPut (a b : Nat) (s : Mem) : Mem :=
  let s := s.store (tableEntryOf s a) (setDirty (entryOf s a))
  s.storeByte (physAddr s a) b

/-- A store of byte `b` to linear address `a`, with the write-protect
fault taken when the entry lacks W. -/
def userWrite (a b : Nat) (s : Mem) : Option Mem :=
  if present (entryOf s a) then
    if writable (entryOf s a) then some (userPut a b s)
    else match doWpPage a s with
      | .error _ => none
      | .ok s => some (userPut a b s)
  else none

-- ======== the two sides

/-- The two address spaces of a fork. -/
inductive Side where
  | parent
  | child
  deriving Repr, DecidableEq

/-- Where a side's range starts. -/
def Side.base (src dst : Nat) : Side → Nat
  | .parent => src
  | .child => dst

/-- A store by one side, at an offset into its range. -/
structure Write where
  side : Side
  offset : Nat
  value : Nat
  deriving Repr, DecidableEq

/-- The store as the machine does it. -/
def Write.step (src dst : Nat) (w : Write) (s : Mem) : Option Mem :=
  userWrite (w.side.base src dst + w.offset) w.value s

-- ======== the eager copy

/-- What the two sides would read if fork had copied every page: each
side its own bytes. -/
abbrev Eager := Side → Nat → Option Nat

/-- A store under the eager copy: the byte of one side. -/
def Eager.write (m : Eager) (w : Write) : Eager := fun side off =>
  if side = w.side ∧ off = w.offset then some (w.value % 256)
  else m side off

/-- Right after the eager copy: both sides read what the parent
reads. -/
def Eager.ofFork (s : Mem) (src : Nat) : Eager := fun _ off =>
  userRead s (src + off)

end LearnLinux.Mm
