/-
The page-table code of mm/memory.c, over physical memory.

# The memory

Physical memory is a function from LONG numbers to longs: `word k` is
the 32-bit long at byte address `4 * k`, so an `unsigned long *` of
the source is a plain number here, pointer increments are `+ 1`, page
`f` (byte address `f << 12`) is the longs `f * 1024 + k`, and the page
directory, which head.s puts at address 0, is the longs `0 .. 1023`.
Page tables are pages like any other: nothing in the type keeps a
store to a data page from hitting a page table, as nothing in the
machine does.

Entries are numbers, and the flag tests are the source's masks read
arithmetically: `1 & e` is `e % 2`, `0xfffff000 & e` is
`e / 4096 * 4096`, `e & ~2` takes away 2 when bit 1 is set. `mem_map`
is an array of unsigned chars, so its `++` and `--` are modulo 256.

# Failures

`panic` and `oom()` (which ends in `do_exit`) do not return, so the
functions that can reach them are in `Except Trap`. `get_free_page`
returns 0 when no page is free; that is `none` here. The `printk`
diagnostics of `put_page` have no effect on the state and are left
out.
-/
import Mathlib

namespace LearnLinux.Mm

open Function (update)

-- ======== the machine

/-- What stops a routine that does not return: a kernel panic with its
message, or `oom()`, which kills the current task. -/
inductive Trap where
  | panic (msg : String)
  | oom
  deriving Repr, DecidableEq

/-- Physical memory by longs, the `mem_map` of page-use counts and the
end of memory. -/
structure Mem where
  word : Nat → Nat
  memMap : Nat → Nat
  highMemory : Nat

/-- `LOW_MEM`: the first megabyte is never allocated or counted. -/
def lowMem : Nat := 0x100000

/-- `PAGING_PAGES`: 15 Mb of pages above `LOW_MEM`. -/
def pagingPages : Nat := 15 * 1024 * 1024 / 4096

/-- `USED`: the count of a page that is not the allocator's. -/
def usedCount : Nat := 100

/-- `MAP_NR(addr)`. -/
def mapNr (addr : Nat) : Nat := (addr - lowMem) / 4096

-- ======== entries

/-- `1 & e`. -/
def present (e : Nat) : Prop := e % 2 = 1

instance : DecidablePred present := fun e =>
  inferInstanceAs (Decidable (e % 2 = 1))

/-- `2 & e`. -/
def writable (e : Nat) : Prop := e / 2 % 2 = 1

instance : DecidablePred writable := fun e =>
  inferInstanceAs (Decidable (e / 2 % 2 = 1))

/-- `0x40 & e`: set by the processor when it stores through `e`. -/
def dirty (e : Nat) : Prop := e / 64 % 2 = 1

instance : DecidablePred dirty := fun e =>
  inferInstanceAs (Decidable (e / 64 % 2 = 1))

/-- The page number of an entry, `e >> 12`. -/
def frame (e : Nat) : Nat := e / 4096

/-- `0xfffff000 & e`. -/
def pageAddr (e : Nat) : Nat := e / 4096 * 4096

/-- `0xfffff000 & e`, as an `unsigned long *`. -/
def tablePtr (e : Nat) : Nat := e / 4096 * 1024

/-- `e & ~2`. -/
def clearW (e : Nat) : Nat := if e / 2 % 2 = 1 then e - 2 else e

/-- `e | 2`. -/
def setW (e : Nat) : Nat := if e / 2 % 2 = 1 then e else e + 2

/-- `e | 0x40`. -/
def setDirty (e : Nat) : Nat := if e / 64 % 2 = 1 then e else e + 64

/-- `page | 7` for a page address: present, writable, user. -/
def entry7 (page : Nat) : Nat := page + 7

/-- The directory slot of a linear address, `(address>>20) & 0xffc` as
an `unsigned long *`. -/
def dirNr (address : Nat) : Nat := address / 0x400000 % 1024

/-- The page-table slot of a linear address,
`(address>>12) & 0x3ff`. -/
def pageNr (address : Nat) : Nat := address / 4096 % 1024

-- ======== stores

/-- `*p = e`. -/
def Mem.store (s : Mem) (p e : Nat) : Mem :=
  { s with word := update s.word p e }

/-- `mem_map[i]++`, on an unsigned char. -/
def Mem.incMap (s : Mem) (i : Nat) : Mem :=
  { s with memMap := update s.memMap i ((s.memMap i + 1) % 256) }

/-- `mem_map[i]--`, on an unsigned char. -/
def Mem.decMap (s : Mem) (i : Nat) : Mem :=
  { s with memMap := update s.memMap i ((s.memMap i + 255) % 256) }

/-- Byte `k` of a long, little-endian. -/
def byteOf (w k : Nat) : Nat := w / 256 ^ k % 256

/-- The long `w` with byte `k` replaced by `b`. -/
def setByteOf (w k b : Nat) : Nat :=
  w - byteOf w k * 256 ^ k + b % 256 * 256 ^ k

/-- The byte at physical address `a`. -/
def Mem.byte (s : Mem) (a : Nat) : Nat := byteOf (s.word (a / 4)) (a % 4)

/-- `*(char *) a = b`. -/
def Mem.storeByte (s : Mem) (a b : Nat) : Mem :=
  s.store (a / 4) (setByteOf (s.word (a / 4)) (a % 4) b)

/-- `copy_page(from,to)`: 1024 longs, `from` and `to` page
addresses. -/
def Mem.copyPage (s : Mem) (src dst : Nat) : Mem :=
  { s with word := fun k =>
    if k / 1024 = dst / 4096 then s.word (src / 4096 * 1024 + k % 1024)
    else s.word k }

/-- The `rep ; stosl` of `get_free_page`: a page of zeros. -/
def Mem.clearPage (s : Mem) (page : Nat) : Mem :=
  { s with word := fun k => if k / 1024 = page / 4096 then 0 else s.word k }

-- ======== page allocation

/-- The `repne ; scasb` of `get_free_page`: the last of the first `n`
bytes of `mem_map` that is zero. -/
def scanFree (memMap : Nat → Nat) : Nat → Option Nat
  | 0 => none
  | n + 1 => if memMap n = 0 then some n else scanFree memMap n

/-- `get_free_page()`: the address of the last free page, marked used
and cleared, or `none` for the source's 0. -/
def getFreePage (s : Mem) : Option (Nat × Mem) :=
  match scanFree s.memMap pagingPages with
  | none => none
  | some i =>
    let page := i * 4096 + lowMem
    some (page, { s with memMap := update s.memMap i 1 }.clearPage page)

/-- `free_page(addr)`. -/
def freePage (addr : Nat) (s : Mem) : Except Trap Mem :=
  if addr < lowMem then .ok s
  else if s.highMemory ≤ addr then
    .error (.panic "trying to free nonexistent page")
  else if s.memMap (mapNr addr) = 0 then
    .error (.panic "trying to free free page")
  else .ok (s.decMap (mapNr addr))

/-- The inner loop of `free_page_tables`: `n` entries from `p` on are
freed and cleared. -/
def freePtes : Nat → Nat → Mem → Except Trap Mem
  | 0, _, s => .ok s
  | n + 1, p, s => do
    let s ← if present (s.word p) then freePage (pageAddr (s.word p)) s
      else .ok s
    freePtes n (p + 1) (s.store p 0)

/-- The outer loop of `free_page_tables`: `n` directory entries from
`dir` on. -/
def freeDirs : Nat → Nat → Mem → Except Trap Mem
  | 0, _, s => .ok s
  | n + 1, dir, s =>
    if present (s.word dir) then do
      let s ← freePtes 1024 (tablePtr (s.word dir)) s
      let s ← freePage (pageAddr (s.word dir)) s
      freeDirs n (dir + 1) (s.store dir 0)
    else freeDirs n (dir + 1) s

/-- `size = (size + 0x3fffff) >> 22` in 32-bit arithmetic: how many
directory entries a range of `size` bytes takes. -/
def dirCount (size : Nat) : Nat := (size + 0x3fffff) % 2 ^ 32 / 0x400000

/-- `free_page_tables(from,size)`. -/
def freePageTables (src size : Nat) (s : Mem) : Except Trap Mem :=
  if src % 0x400000 ≠ 0 then
    .error (.panic "free_page_tables called with wrong alignment")
  else if src = 0 then
    .error (.panic "Trying to free up swapper memory space")
  else freeDirs (dirCount size) (dirNr src) s

-- ======== fork

/-- The inner loop of `copy_page_tables`: `n` entries, every present
one copied read-only; a page above `LOW_MEM` also loses its W bit in
the source table and gains a count. -/
def copyPtes : Nat → Nat → Nat → Mem → Mem
  | 0, _, _, s => s
  | n + 1, fromPt, toPt, s =>
    let thisPage := s.word fromPt
    if present thisPage then
      let thisPage := clearW thisPage
      let s := s.store toPt thisPage
      let s := if lowMem < thisPage then
          (s.store fromPt thisPage).incMap (mapNr thisPage)
        else s
      copyPtes n (fromPt + 1) (toPt + 1) s
    else copyPtes n (fromPt + 1) (toPt + 1) s

/-- The outer loop of `copy_page_tables`; `nr` is 0xA0 for the first
fork, which copies 640 kB of kernel space, and 1024 otherwise. The
returned number is the source's return value. -/
def copyDirs (nr : Nat) : Nat → Nat → Nat → Mem → Except Trap (Int × Mem)
  | 0, _, _, s => .ok (0, s)
  | n + 1, fromDir, toDir, s =>
    if present (s.word toDir) then
      .error (.panic "copy_page_tables: already exist")
    else if present (s.word fromDir) then
      let fromPt := tablePtr (s.word fromDir)
      match getFreePage s with
      | none => .ok (-1, s)
      | some (page, s) =>
        copyDirs nr n (fromDir + 1) (toDir + 1)
          (copyPtes nr fromPt (page / 4) (s.store toDir (entry7 page)))
    else copyDirs nr n (fromDir + 1) (toDir + 1) s

/-- `copy_page_tables(from,to,size)`. -/
def copyPageTables (src dst size : Nat) (s : Mem) : Except Trap (Int × Mem) :=
  if src % 0x400000 ≠ 0 ∨ dst % 0x400000 ≠ 0 then
    .error (.panic "copy_page_tables called with wrong alignment")
  else copyDirs (if src = 0 then 0xA0 else 1024) (dirCount size) (dirNr src) (dirNr dst) s

-- ======== mapping and write faults

/-- `put_page(page,address)`; `none` is the source's 0. -/
def putPage (page address : Nat) (s : Mem) : Option Mem :=
  let dir := dirNr address
  if present (s.word dir) then
    some (s.store (tablePtr (s.word dir) + pageNr address) (entry7 page))
  else
    match getFreePage s with
    | none => none
    | some (tmp, s) =>
      some ((s.store dir (entry7 tmp)).store (tmp / 4 + pageNr address) (entry7 page))

/-- `un_wp_page(table_entry)`: a sole owner gets its W bit back, any
other gets a copy of the page. -/
def unWpPage (tableEntry : Nat) (s : Mem) : Except Trap Mem :=
  let oldPage := pageAddr (s.word tableEntry)
  if lowMem ≤ oldPage ∧ s.memMap (mapNr oldPage) = 1 then
    .ok (s.store tableEntry (setW (s.word tableEntry)))
  else
    match getFreePage s with
    | none => .error .oom
    | some (newPage, s) =>
      let s := if lowMem ≤ oldPage then s.decMap (mapNr oldPage) else s
      .ok ((s.store tableEntry (entry7 newPage)).copyPage oldPage newPage)

/-- The `unsigned long *` that `do_wp_page` and `write_verify` compute
for a linear address. -/
def tableEntryOf (s : Mem) (address : Nat) : Nat :=
  tablePtr (s.word (dirNr address)) + pageNr address

/-- `do_wp_page(error_code,address)`. -/
def doWpPage (address : Nat) (s : Mem) : Except Trap Mem :=
  unWpPage (tableEntryOf s address) s

/-- `write_verify(address)`. -/
def writeVerify (address : Nat) (s : Mem) : Except Trap Mem :=
  if present (s.word (dirNr address)) then
    if present (s.word (tableEntryOf s address)) ∧ ¬ writable (s.word (tableEntryOf s address)) then
      unWpPage (tableEntryOf s address) s
    else .ok s
  else .ok s

/-- `get_empty_page(address)`. -/
def getEmptyPage (address : Nat) (s : Mem) : Except Trap Mem :=
  match getFreePage s with
  | none => .error .oom
  | some (tmp, s) =>
    match putPage tmp address s with
    | some s => .ok s
    | none => do
      let _ ← freePage tmp s
      .error .oom

-- ======== boot

/-- `setup_paging` of head.s: the directory at 0 points at the four
kernel tables behind it, which map the first 16 Mb one to one; every
entry is present, writable, user. -/
def setupPaging (w : Nat → Nat) : Nat → Nat := fun k =>
  if k < 4 then entry7 ((k + 1) * 4096)
  else if k < 1024 then 0
  else if k < 5 * 1024 then entry7 ((k - 1024) * 4096)
  else w k

/-- The second loop of `mem_init`: `n` counts from `i` on are
cleared. -/
def clearMap : Nat → Nat → (Nat → Nat) → Nat → Nat
  | 0, _, m => m
  | n + 1, i, m => clearMap n (i + 1) (update m i 0)

/-- `mem_init(start_mem,end_mem)`. -/
def memInit (startMem endMem : Nat) (s : Mem) : Mem :=
  { s with
    highMemory := endMem
    memMap := clearMap ((endMem - startMem) / 4096) (mapNr startMem)
      fun i => if i < pagingPages then usedCount else s.memMap i }

end LearnLinux.Mm
