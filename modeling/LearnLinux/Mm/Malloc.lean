/-
The kernel allocator (`lib/malloc.c`).

A page is divided into blocks of one size. Each such page has a
descriptor, which is on the chain of its size in `bucket_dir`, and whose
`freeptr` is the head of a list of the free blocks; the links of that
list are stored in the blocks themselves. The descriptors stand in pages
of their own and are linked from `free_bucket_desc` when they are not in
use.

Addresses are numbers, and NULL is 0. A descriptor is named by its
address; each field is a function of it. `mem` holds the pointers that
are stored in blocks. That the pages of the descriptors are none of the
pages of blocks is proved, so it is no restriction that a store through
one is not seen through the other.

`get_free_page` is a parameter of a call: the pages that it returns there,
in order.
-/
import LearnLinux.Lib.Links
import LearnLinux.Lib.Run

namespace LearnLinux.Malloc

open Function (update)
open Lib (threadTo)

def PAGE_SIZE : Nat := 4096

/-- `sizeof(struct bucket_desc)`. -/
def DESC_SIZE : Nat := 16

/-- An entry of `bucket_dir`, other than the marker at its end. -/
abbrev Dir := Fin 9

/-- The sizes in `bucket_dir`. -/
def size (i : Dir) : Nat :=
  [16, 32, 64, 128, 256, 512, 1024, 2048, 4096].getD i 0

structure Kernel where
  /-- The chains of `bucket_dir`. -/
  chain : Dir → Nat
  freeBucketDesc : Nat
  -- the fields of `struct bucket_desc`
  page : Nat → Nat
  next : Nat → Nat
  freeptr : Nat → Nat
  refcnt : Nat → Nat
  bucketSize : Nat → Nat
  /-- The pointers stored in the blocks. -/
  mem : Nat → Nat

/-- The allocator, with what has been asked of it: the pages it has from
`get_free_page` and has not given back, those of them that hold
descriptors, the objects that are in use with the size they have, and what
the last `malloc` returned. -/
structure System where
  kernel : Kernel
  used : List Nat
  descPages : List Nat
  live : List (Nat × Nat)
  ret : Nat

-- ======== malloc

/-- `init_bucket_desc`, with a page from `get_free_page`. -/
def initBucketDesc (k : Kernel) (first : Nat) : Kernel :=
  { k with
    next := threadTo DESC_SIZE (PAGE_SIZE / DESC_SIZE - 1) first
      k.freeBucketDesc k.next
    freeBucketDesc := first }

/-- The entry of `bucket_dir` for a request. -/
def dirFor (len : Nat) : Option Dir :=
  (List.finRange 9).find? fun i => len ≤ size i

/-- The search for a descriptor with a free block. A chain is no longer
than there are pages in use (`findFree_spec`). -/
def findFree (k : Kernel) : Nat → Nat → Option Nat
  | 0, _ => none
  | n + 1, d =>
    if d = 0 then some 0
    else if k.freeptr d ≠ 0 then some d
    else findFree k n (k.next d)

/-- A descriptor is taken from the free ones and the page `cp` divided into
blocks. -/
def newBucket (k : Kernel) (i : Dir) (cp : Nat) : Kernel :=
  let d := k.freeBucketDesc
  { chain := update k.chain i d
    freeBucketDesc := k.next d
    page := update k.page d cp
    next := update k.next d (k.chain i)
    freeptr := update k.freeptr d cp
    refcnt := update k.refcnt d 0
    bucketSize := update k.bucketSize d (size i)
    mem := threadTo (size i) (PAGE_SIZE / size i - 1) cp 0 k.mem }

/-- The first free block of the page of `d` is the result. -/
def takeBlock (s : System) (i : Dir) (d : Nat) : System :=
  let retval := s.kernel.freeptr d
  { s with
    kernel := { s.kernel with
      freeptr := update s.kernel.freeptr d (s.kernel.mem retval)
      refcnt := update s.kernel.refcnt d ((s.kernel.refcnt d + 1) % 65536) }
    live := (retval, size i) :: s.live
    ret := retval }

/-- There is a free descriptor, or a page for more of them. -/
def withDesc (s : System) (pages : List Nat) : Option (System × List Nat) :=
  if s.kernel.freeBucketDesc ≠ 0 then some (s, pages)
  else
    match pages with
    | [] => none
    | q :: pages =>
      some ({ s with
        kernel := initBucketDesc s.kernel q
        used := q :: s.used
        descPages := q :: s.descPages }, pages)

/-- A new page of blocks. -/
def addBucket (s : System) (i : Dir) : List Nat → Option System
  | [] => none
  | p :: _ =>
    some { s with
      kernel := newBucket s.kernel i p
      used := p :: s.used }

/-- `malloc`. -/
def malloc (s : System) (len : Nat) (pages : List Nat) : Option System :=
  (dirFor len).bind fun i =>
    (findFree s.kernel (s.used.length + 1) (s.kernel.chain i)).bind fun d =>
      if d ≠ 0 then some (takeBlock s i d)
      else
        (withDesc s pages).bind fun x =>
          (addBucket x.1 i x.2).map fun s => takeBlock s i (s.kernel.chain i)

-- ======== free_s

/-- The page of an address. -/
def pageOf (a : Nat) : Nat := a / PAGE_SIZE * PAGE_SIZE

/-- The search along a chain for the descriptor of a page, with the one
before it. -/
def findPage (k : Kernel) (p : Nat) : Nat → Nat → Nat → Option (Option (Nat × Nat))
  | 0, _, _ => none
  | n + 1, prev, d =>
    if d = 0 then some none
    else if k.page d = p then some (some (prev, d))
    else findPage k p n d (k.next d)

/-- The search through `bucket_dir`. -/
def findDir (k : Kernel) (p : Nat) (n : Nat) (sz : Int) : List Dir → Option (Dir × Nat × Nat)
  | [] => none
  | i :: is =>
    if (size i : Int) < sz then findDir k p n sz is
    else
      match findPage k p n 0 (k.chain i) with
      | none => none
      | some none => findDir k p n sz is
      | some (some (prev, d)) => some (i, prev, d)

/-- `for (prev = bdir->chain; prev; prev = prev->next)`. -/
def findPrev (k : Kernel) (d : Nat) : Nat → Nat → Option Nat
  | 0, _ => none
  | n + 1, prev =>
    if prev = 0 then some 0
    else if k.next prev = d then some prev
    else findPrev k d n (k.next prev)

/-- `prev` may have changed since it was found. -/
def checkPrev (k : Kernel) (i : Dir) (d n prev : Nat) : Option Nat :=
  if prev ≠ 0 ∧ k.next prev ≠ d ∨ prev = 0 ∧ k.chain i ≠ d then
    findPrev k d n (k.chain i)
  else some prev

/-- The descriptor `d` leaves its chain. -/
def unlink (k : Kernel) (i : Dir) (d prev : Nat) : Option Kernel :=
  if prev ≠ 0 then
    some { k with next := update k.next prev (k.next d) }
  else if k.chain i ≠ d then none
  else some { k with chain := update k.chain i (k.next d) }

/-- The object is the first free block of the page of `d`. -/
def putBlock (k : Kernel) (d obj : Nat) : Kernel :=
  { k with
    mem := update k.mem obj (k.freeptr d)
    freeptr := update k.freeptr d obj
    refcnt := update k.refcnt d ((k.refcnt d + 65535) % 65536) }

/-- `bdesc->next = free_bucket_desc; free_bucket_desc = bdesc`. -/
def freeDesc (k : Kernel) (d : Nat) : Kernel :=
  { k with
    next := update k.next d k.freeBucketDesc
    freeBucketDesc := d }

/-- `free_s`. -/
def freeS (s : System) (obj : Nat) (sz : Int) : Option System :=
  let n := s.used.length + 1
  (findDir s.kernel (pageOf obj) n sz (List.finRange 9)).bind fun (i, prev, d) =>
    let k := putBlock s.kernel d obj
    let live := s.live.filter fun x => x.1 != obj
    if k.refcnt d = 0 then
      (checkPrev k i d n prev).bind fun prev =>
        (unlink k i d prev).map fun k =>
          { s with
            kernel := freeDesc k d
            -- `free_page`
            used := s.used.erase (k.page d)
            live := live }
    else some { s with kernel := k, live := live }

-- ======== steps

inductive Op where
  /-- `get_free_page` returns `q` first, and then `p`. -/
  | malloc (len q p : Nat)
  | freeS (obj : Nat) (sz : Int)
  /-- The owner of an object writes to it. -/
  | write (a v : Nat)

def step : Op → System → Option System
  | .malloc len q p, s => malloc s len [q, p]
  | .freeS obj sz, s => freeS s obj sz
  | .write a v, s =>
    some { s with
      kernel := { s.kernel with mem := update s.kernel.mem a v } }

/-- Nothing has been allocated. -/
def System.boot : System where
  kernel :=
    { chain := fun _ => 0
      freeBucketDesc := 0
      page := fun _ => 0
      next := fun _ => 0
      freeptr := fun _ => 0
      refcnt := fun _ => 0
      bucketSize := fun _ => 0
      mem := fun _ => 0 }
  used := []
  descPages := []
  live := []
  ret := 0

/-- A page that `get_free_page` may return. -/
def Fresh (s : System) (p : Nat) : Prop :=
  p ≠ 0 ∧ p % PAGE_SIZE = 0 ∧ p ∉ s.used

instance (s : System) (p : Nat) : Decidable (Fresh s p) :=
  inferInstanceAs (Decidable (_ ∧ _))

/-- What callers are to keep to, and `get_free_page`: a size that there is
a bucket for, two pages that are not in use, objects that are, with a size
that is not too large, and writes to objects only. -/
def Ok : Op → System → Prop
  | .malloc len q p, s => len ≤ 4096 ∧ Fresh s q ∧ Fresh s p ∧ q ≠ p
  | .freeS obj sz, s => ∃ x ∈ s.live, x.1 = obj ∧ sz ≤ x.2
  | .write a _, s => ∃ x ∈ s.live, x.1 ≤ a ∧ a < x.1 + x.2

instance (o : Op) (s : System) : Decidable (Ok o s) :=
  match o with
  | .malloc _ _ _ => inferInstanceAs (Decidable (_ ∧ _))
  | .freeS _ _ => inferInstanceAs (Decidable (∃ _ ∈ _, _))
  | .write _ _ => inferInstanceAs (Decidable (∃ _ ∈ _, _))

end LearnLinux.Malloc
