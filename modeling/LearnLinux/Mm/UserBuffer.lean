/-
System calls that store into a user buffer (kernel/fork.c
`verify_area`, and the stores of `sys_read` and `sys_pipe`).

`sys_read` verifies the whole buffer first and then hands out at most
`count` bytes, in order, with `put_fs_byte`, whatever it reads from.
`sys_pipe` stores its two descriptors with `put_fs_long` and verifies
nothing. A `put_fs_long` is four byte stores here.

The kernel runs with the W bits unchecked, so a store to a present page
always goes through; one to a page that is not present faults first.
-/
import LearnLinux.Mm.System

namespace LearnLinux.Mm

/-- The loop of `verify_area`: `n` pages from `start` on. -/
def verifyLoop : Nat → Nat → Mem → Except Trap Mem
  | 0, _, s => .ok s
  | n + 1, start, s => do
    let s ← writeVerify start s
    verifyLoop n (start + 4096) s

/-- `verify_area(addr,size)` in a data segment that starts at `base`. -/
def verifyArea (base addr size : Nat) (s : Mem) : Except Trap Mem :=
  verifyLoop ((size + addr % 4096 + 4095) / 4096) (base + pageAddr addr) s

/-- The loop of `verify_area` as it runs in 32 bits, `size` an `int` and
`start` an `unsigned long`: the addresses it hands to `write_verify`. -/
def verifyPages (size : Int) (start : Nat) : List Nat :=
  if 0 < size then start :: verifyPages (size - 4096) ((start + 4096) % 2 ^ 32) else []
termination_by size.toNat

/-- The same from the head of `verify_area(addr,size)` on, where the offset
in the page is added to `size`. -/
def verifiedPages (base addr : Nat) (size : Int) : List Nat :=
  verifyPages (Int.bmod (size + (addr % 4096 : Nat)) (2 ^ 32)) ((base + pageAddr addr) % 2 ^ 32)

/-- `verify_area(addr,size)` in 32 bits; `verifyArea` is the same for a
buffer inside the segment, where nothing wraps. -/
def verifyArea32 (base addr : Nat) (size : Int) (s : Mem) : Except Trap Mem :=
  (verifiedPages base addr size).foldlM (fun s a => writeVerify a s) s

/-- The page of a kernel store to linear address `a`, faulted in when it
is not there. -/
def touch (T : Tasks) (cur : Nat) (current : Task) (a : Nat) (s : Mem) : Except Trap Mem :=
  if present (entryOf s a) then .ok s else doNoPage T cur current a s

/-- `put_fs_byte` of the bytes `bs` from linear address `a` on. -/
def putFsBytes (T : Tasks) (cur : Nat) (current : Task) : Nat → List Nat → Mem → Except Trap Mem
  | _, [], s => .ok s
  | a, b :: bs, s => do
    let s ← touch T cur current a s
    putFsBytes T cur current (a + 1) bs (userPut a b s)

/-- The frame behind linear address `a` is in main memory and has
`mem_map` 1. -/
def SoleAt (s : Mem) (a : Nat) : Prop :=
  lowMem ≤ pageAddr (entryOf s a) ∧ s.memMap (mapNr (pageAddr (entryOf s a))) = 1

instance (s : Mem) (a : Nat) : Decidable (SoleAt s a) :=
  inferInstanceAs (Decidable (_ ∧ _))

/-- The bytes of a long. -/
def longBytes (w : Nat) : List Nat :=
  [byteOf w 0, byteOf w 1, byteOf w 2, byteOf w 3]

/-- The stores of `sys_read(fd,buf,count)` by task `cur`, when what is
read is `bs`. -/
def sysRead (T : Tasks) (cur : Nat) (current : Task) (buf count : Nat)
    (bs : List Nat) (s : Mem) : Except Trap Mem := do
  let s ← verifyArea current.startCode buf count s
  putFsBytes T cur current (current.startCode + buf) bs s

/-- `share_page` would take the page of task `n` for offset `tmp`. -/
def Candidate (T : Tasks) (cur : Nat) (current : Task) (tmp : Nat) (s : Mem) (n : Nat) : Prop :=
  n ≠ cur ∧ ∃ p, T.task n = some p ∧ p.executable = current.executable
    ∧ present (entryOf s (n * taskSize + tmp)) ∧ ¬ dirty (entryOf s (n * taskSize + tmp))
    ∧ lowMem ≤ pageAddr (entryOf s (n * taskSize + tmp))

/-- A not-present fault at linear address `a` would be served by
sharing. -/
def Shareable (T : Tasks) (cur : Nat) (current : Task) (a : Nat) (s : Mem) :
    Prop :=
  (∃ x, current.executable = some x ∧ 2 ≤ T.iCount x) ∧ faultOffset current a < current.endData
    ∧ ∃ n, 1 ≤ n ∧ n < nrTasks ∧ Candidate T cur current (faultOffset current a) s n

/-- What decides whether a store to `a` will find `mem_map` 1, as the
page stands before the call: present and sole, or absent and not to be
shared. -/
def StoreSafe (T : Tasks) (cur : Nat) (current : Task) (s : Mem) (a : Nat) :
    Prop :=
  (present (entryOf s a) → SoleAt s a) ∧ (¬ present (entryOf s a) → ¬ Shareable T cur current a s)

/-- The page of linear address `a` is there and write-protected. -/
def Protected (s : Mem) (a : Nat) : Prop :=
  present (entryOf s a) ∧ ¬ writable (entryOf s a)

/-- The linear address of byte `k` of a buffer of task `cur`. -/
def bufferAddr (cur addr k : Nat) : Nat :=
  (cur * taskSize + addr + k) % 2 ^ 32

/-- Every page that holds a byte of the buffer is verified. -/
def CoversBuffer (cur addr size : Nat) : Prop :=
  ∀ k, k < size → pageAddr (bufferAddr cur addr k) ∈ verifiedPages (cur * taskSize) addr size

end LearnLinux.Mm
