/-
`do_execve` (fs/exec.c), over the physical memory of Mm/Memory.lean.

# The argument block

Strings are pushed downwards, from the end of a 128 kB area, into pages
that are taken when the first byte falls into them; `page[]` has their
addresses. `change_ldt` maps them at the top of the 64 Mb data segment
and `create_tables` finds the strings again by scanning.

The strings come from memory that nothing stores to meanwhile, so a
string is its characters here, and the switching of fs that says which
segment it is read from is left out; `count` is the length of the list.

# What the file system does

Of namei, bread, iput and brelse only their effect on the two counts is
kept: a successful namei or bread takes one reference, iput and brelse
give one back. What they find is the `Disk`, which may answer the two
passes of the `#!` restart differently, and may fail in either.

# What does not return

An index outside `page[]` reads and writes kernel memory that is none of
the block's; from there on nothing is known (`Halt.wild`). An access
behind the segment limit is a fault (`Halt.limit`). The traps of mm/ are
those of Mm/Memory.lean.
-/
import LearnLinux.Mm.UserBuffer

namespace LearnLinux.Exec

open Function (update)
open Mm

def MAX_ARG_PAGES : Nat := 32

def PAGE_SIZE : Nat := 4096

def NR_OPEN : Nat := 20

def ENOENT : Int := 2

def ENOEXEC : Int := 8

def ENOMEM : Int := 12

def EACCES : Int := 13

/-- A string of C: characters that are not NUL. -/
structure Str where
  chars : List UInt8
  noNul : 0 ∉ chars
  deriving DecidableEq

/-- The characters with the terminator. -/
def Str.bytes (s : Str) : List UInt8 := s.chars ++ [0]

/-- What stops a routine that does not return. -/
inductive Halt where
  | wild (index : Nat)
  | trap (t : Trap)
  | limit
  deriving DecidableEq

-- ======== copy_strings

/-- `page[]` and the memory its pages are in. -/
structure Block where
  page : Nat → Nat
  mem : Mem

/-- The variables of `copy_strings` and the block it fills. -/
structure Copy where
  p : UInt32
  offset : Int
  pag : Nat
  block : Block

/-- How `copy_strings` ends early: it returns 0, or it has left
`page[]`. -/
inductive Stop where
  | nomem (b : Block)
  | wild (index : Nat)

/-- The page at `page[i]`, taken when it is not there. -/
def Block.pageFor (i : Nat) (b : Block) : Except Stop (Nat × Block) :=
  if MAX_ARG_PAGES ≤ i then .error (.wild i)
  else if b.page i ≠ 0 then .ok (b.page i, b)
  else match getFreePage b.mem with
    | none => .error (.nomem b)
    | some (pag, mem) => .ok (pag, ⟨update b.page i pag, mem⟩)

/-- `*(pag + offset) = c`. -/
def Block.putChar (pag offset : Nat) (c : UInt8) (b : Block) : Block :=
  { b with mem := b.mem.storeByte (pag + offset) c.toNat }

/-- One turn of the `while (len)` loop. -/
def Copy.push (k : Copy) (c : UInt8) : Except Stop Copy :=
  let p := k.p - 1
  let offset := k.offset - 1
  if offset < 0 then do
    let (pag, b) ← k.block.pageFor (p.toNat / PAGE_SIZE)
    let offset := p.toNat % PAGE_SIZE
    .ok ⟨p, offset, pag, b.putChar pag offset c⟩
  else .ok ⟨p, offset, k.pag, k.block.putChar k.pag offset.toNat c⟩

/-- One turn of the `while (argc-- > 0)` loop. The difference under test
is one of unsigned longs. -/
def Copy.string (k : Copy) (s : Str) : Except Stop Copy :=
  if k.p - UInt32.ofNat s.bytes.length < 0 then .error (.nomem k.block)
  else s.bytes.reverse.foldlM Copy.push k

/-- `copy_strings(argc,argv,page,p,..)`: the new `p`. -/
def copyStrings (argv : List Str) (p : UInt32) (b : Block) : Except Halt (UInt32 × Block) :=
  if p = 0 then .ok (0, b)
  else match argv.reverse.foldlM Copy.string ⟨p, 0, 0, b⟩ with
    | .ok k => .ok (k.p, k.block)
    | .error (.nomem b) => .ok (0, b)
    | .error (.wild i) => .error (.wild i)

/-- The calls that copy one list of strings each, in their order. -/
def copyAll : List (List Str) → UInt32 → Block → Except Halt (UInt32 × Block)
  | [], p, b => .ok (p, b)
  | c :: cs, p, b => do
    let (p, b) ← copyStrings c p b
    copyAll cs p b

/-- `PAGE_SIZE*MAX_ARG_PAGES-4`. -/
def argTop : Nat := PAGE_SIZE * MAX_ARG_PAGES - 4

/-- `page[]` cleared. -/
def emptyBlock (mem : Mem) : Block := ⟨fun _ => 0, mem⟩

-- ======== change_ldt, create_tables

/-- The data segment of a program. -/
def dataLimit : Nat := 0x4000000

/-- The loop of `change_ldt`: the pages `page[n - 1]`, .., `page[0]`, each
one page below the last. What `put_page` returns is not looked at. -/
def putPages (page : Nat → Nat) : Nat → Nat → Mem → Mem
  | 0, _, s => s
  | i + 1, dataBase, s =>
    let dataBase := (dataBase + 2 ^ 32 - PAGE_SIZE) % 2 ^ 32
    if page i ≠ 0 then
      putPages page i dataBase ((putPage (page i) dataBase s).getD s)
    else putPages page i dataBase s

/-- The code limit that `change_ldt` sets. -/
def codeLimitFor (textSize : Nat) : Nat :=
  (textSize + PAGE_SIZE - 1) % 2 ^ 32 / 4096 * 4096

section Access

variable (T : Tasks) (cur : Nat) (current : Task)

/-- `put_fs_long(w,addr)`. -/
def putFsLong (w addr : Nat) (s : Mem) : Except Halt Mem :=
  if dataLimit < addr + 4 then .error .limit
  else match putFsBytes T cur current (current.startCode + addr) (longBytes w) s with
    | .ok s => .ok s
    | .error t => .error (.trap t)

/-- `get_fs_byte(addr)`. -/
def getFsByte (addr : Nat) (s : Mem) : Except Halt (Nat × Mem) :=
  if dataLimit ≤ addr then .error .limit
  else match touch T cur current (current.startCode + addr) s with
    | .ok s => .ok (((userRead s (current.startCode + addr)).getD 0), s)
    | .error t => .error (.trap t)

/-- `while (get_fs_byte(p++)) ;`, with `n` bytes left in the segment. -/
def skipString : Nat → Nat → Mem → Except Halt (Nat × Mem)
  | 0, _, _ => .error .limit
  | n + 1, p, s => do
    let (c, s) ← getFsByte T cur current p s
    if c = 0 then .ok (p + 1, s) else skipString n (p + 1) s

/-- The loop that fills one pointer table at `tab`, and its end. -/
def fillTable : Nat → Nat → Nat → Mem → Except Halt (Nat × Mem)
  | 0, p, tab, s => do
    let s ← putFsLong T cur current 0 tab s
    .ok (p, s)
  | n + 1, p, tab, s => do
    let s ← putFsLong T cur current p tab s
    let (p, s) ← skipString T cur current (dataLimit - p) p s
    fillTable n p (tab + 4) s

/-- `create_tables(p,argc,envc)`: the new stack pointer. -/
def createTables (p argc envc : Nat) (s : Mem) : Except Halt (Nat × Mem) := do
  let envp := p / 4 * 4 - 4 * (envc + 1)
  let argv := envp - 4 * (argc + 1)
  let sp := argv - 12
  let s ← putFsLong T cur current envp (sp + 8) s
  let s ← putFsLong T cur current argv (sp + 4) s
  let s ← putFsLong T cur current argc sp s
  let (p, s) ← fillTable T cur current argc p argv s
  let (_, s) ← fillTable T cur current envc p envp s
  .ok (sp, s)

/-- From `free_page_tables` to `create_tables`: the old pages go, the
argument pages are mapped, the tables are made. The two limits are the
old ones. -/
def buildStack (codeLimit oldLimit argc envc : Nat) (p : UInt32)
    (b : Block) : Except Halt (Nat × Mem) :=
  let base := current.startCode
  match freePageTables base codeLimit b.mem with
  | .error t => .error (.trap t)
  | .ok s => match freePageTables base oldLimit s with
    | .error t => .error (.trap t)
    | .ok s =>
      let s := putPages b.page MAX_ARG_PAGES (base + dataLimit) s
      createTables T cur current (p.toNat + dataLimit - MAX_ARG_PAGES * PAGE_SIZE) argc envc s

end Access

-- ======== the script line

def isBlank (c : UInt8) : Bool := c = 32 || c = 9

/-- A part of a string. -/
def Str.part (s : Str) (l : List UInt8) (h : l.Sublist s.chars) : Str :=
  ⟨l, fun h0 => s.noNul (h.subset h0)⟩

def Str.takeWhile (f : UInt8 → Bool) (s : Str) : Str :=
  s.part (s.chars.takeWhile f) (List.takeWhile_sublist f)

def Str.dropWhile (f : UInt8 → Bool) (s : Str) : Str :=
  s.part (s.chars.dropWhile f) (List.dropWhile_sublist f)

def Str.tail (s : Str) : Str := s.part s.chars.tail (List.tail_sublist _)

/-- What is behind the last slash. -/
def Str.baseName (s : Str) : Str :=
  s.part (s.chars.reverse.takeWhile (· ≠ 47)).reverse (by
    have h := (List.takeWhile_sublist (l := s.chars.reverse) fun c => decide (c ≠ 47)).reverse
    rwa [List.reverse_reverse] at h)

/-- The path, the name and the argument that a `#!` line gives. -/
structure Interp where
  interp : Str
  iName : Str
  iArg : Option Str

/-- `buf`: the block from its third byte on, up to a NUL. -/
def scriptBuf (data : List UInt8) : Str where
  chars := ((data.drop 2).take 1022).takeWhile (· ≠ 0)
  noNul := by
    intro h
    have := List.all_takeWhile (l := (data.drop 2).take 1022) (p := fun c => decide (c ≠ 0))
    rw [List.all_eq_true] at this
    simpa using this 0 h

/-- The parsing of the line; `none` where no interpreter is found. -/
def parseInterp (data : List UInt8) : Option Interp :=
  let buf := scriptBuf data
  if 10 ∉ buf.chars then none
  else
    let cp := (buf.takeWhile (· ≠ 10)).dropWhile isBlank
    if cp.chars = [] then none
    else
      let interp := cp.takeWhile fun c => !isBlank c
      let rest := cp.dropWhile fun c => !isBlank c
      some ⟨interp, interp.baseName,
        if rest.chars = [] then none else some rest.tail⟩

-- ======== the caller

/-- What `do_execve` reads of an inode. -/
structure Inode where
  mode : Nat
  uid : Nat
  gid : Nat
  size : UInt32
  zone : Nat

/-- The fields of `current` that `do_execve` sets. -/
structure Proc where
  executable : Option Nat
  handler : Fin 32 → BitVec 32
  filp : Fin NR_OPEN → Option Nat
  closeOnExec : BitVec 32
  euid : Nat
  egid : Nat
  codeLimit : Nat
  dataLimit : Nat
  endCode : UInt32
  endData : UInt32
  brk : UInt32
  startStack : Nat
  usedMath : Bool

/-- Memory, the caller, and the counts of inodes, buffers and files. -/
structure Sys where
  mem : Mem
  proc : Proc
  iCount : Nat → Nat
  bCount : Nat → Nat
  fCount : Nat → Nat
  mathOwner : Option Nat

/-- What the file system answers, and the tasks beside the caller. The
flag says which pass asks. -/
structure Disk where
  nr : Nat
  namei : Bool → Str → Option Nat
  inode : Nat → Inode
  bread : Bool → Nat → Option (List UInt8)
  task : Nat → Option Task
  fileBlock : Nat → Nat → Option (Nat → Nat)

/-- Memory as a routine has left it. -/
def Sys.setMem (s : Sys) (m : Mem) : Sys := { s with mem := m }

/-- `iput(inode)`. -/
def Sys.iput (s : Sys) (i : Nat) : Sys :=
  { s with iCount := update s.iCount i (s.iCount i - 1) }

/-- The reference that `namei` returns. -/
def Sys.iget (s : Sys) (i : Nat) : Sys :=
  { s with iCount := update s.iCount i (s.iCount i + 1) }

/-- The buffer that `bread` returns. -/
def Sys.bget (s : Sys) (b : Nat) : Sys :=
  { s with bCount := update s.bCount b (s.bCount b + 1) }

/-- `brelse(bh)`. -/
def Sys.brelse (s : Sys) (b : Nat) : Sys :=
  { s with bCount := update s.bCount b (s.bCount b - 1) }

/-- `sys_close(i)`, as far as the descriptor and its count go. -/
def Sys.close (s : Sys) (i : Fin NR_OPEN) : Sys :=
  match s.proc.filp i with
  | none => s
  | some f => { s with
      proc := { s.proc with filp := update s.proc.filp i none }
      fCount := update s.fCount f (s.fCount f - 1) }

variable (D : Disk)

/-- Where the caller's 64 Mb start. -/
def Disk.base : Nat := D.nr * taskSize

/-- The caller, as the fault handlers see it. -/
def Sys.current (s : Sys) : Task :=
  ⟨D.base, s.proc.endData.toNat, s.proc.executable⟩

/-- The task table, as the fault handlers see it. -/
def Sys.tasks (s : Sys) : Tasks where
  task n := if n = D.nr then some (s.current D) else D.task n
  iCount := s.iCount
  fileBlock := D.fileBlock

-- ======== do_execve

/-- What a call of `do_execve` returns. A program that is started gets
its stack pointer in `eip[3]`. -/
inductive Outcome where
  | failed (retval : Int) (s : Sys)
  | started (sp : Nat) (s : Sys)

def Outcome.retval : Outcome → Int
  | .failed retval _ => retval
  | .started _ _ => 0

abbrev Result := Except Halt Outcome

/-- The loop at `exec_error1`: `page[i]`, .., `page[i + n - 1]`. -/
def freePages (page : Nat → Nat) : Nat → Nat → Mem → Except Halt Mem
  | 0, _, s => .ok s
  | n + 1, i, s =>
    match freePage (page i) s with
    | .ok s => freePages page n (i + 1) s
    | .error t => .error (.trap t)

def execError1 (retval : Int) (page : Nat → Nat) (s : Sys) : Result := do
  let mem ← freePages page MAX_ARG_PAGES 0 s.mem
  .ok (.failed retval (s.setMem mem))

def execError2 (retval : Int) (inode : Nat) (page : Nat → Nat) (s : Sys) :
    Result :=
  execError1 retval page (s.iput inode)

/-- `S_ISREG(mode)`. -/
def isReg (mode : Nat) : Bool := mode &&& 0o170000 = 0o100000

/-- The `i & 1` test, and the one of the superuser. -/
def mayExec (p : Proc) (n : Inode) : Bool :=
  let i := if p.euid = n.uid then n.mode >>> 6
    else if p.egid = n.gid then n.mode >>> 3 else n.mode
  i % 2 = 1 || n.mode &&& 0o111 ≠ 0 && p.euid = 0

/-- The id that a set-id bit gives. -/
def newId (mode bit owner old : Nat) : Nat :=
  if mode &&& bit ≠ 0 then owner else old

/-- `struct exec`. -/
structure Header where
  magic : UInt32
  text : UInt32
  data : UInt32
  bss : UInt32
  syms : UInt32
  entry : UInt32
  trsize : UInt32
  drsize : UInt32

/-- The long at byte `k`. -/
def longAt (data : List UInt8) (k : Nat) : UInt32 :=
  let b i := (data.getD (k + i) 0).toNat
  UInt32.ofNat (b 0 + 256 * b 1 + 65536 * b 2 + 16777216 * b 3)

def readHeader (data : List UInt8) : Header where
  magic := longAt data 0
  text := longAt data 4
  data := longAt data 8
  bss := longAt data 12
  syms := longAt data 16
  entry := longAt data 20
  trsize := longAt data 24
  drsize := longAt data 28

def ZMAGIC : UInt32 := 0o413

/-- `N_TXTOFF(ex)`. -/
def txtOff (ex : Header) : UInt32 := if ex.magic = ZMAGIC then 1024 else 32

/-- The tests of the header, in the arithmetic of unsigned longs. -/
def badHeader (ex : Header) (size : UInt32) : Bool :=
  ex.magic ≠ ZMAGIC || ex.trsize ≠ 0 || ex.drsize ≠ 0 ||
  ex.text + ex.data + ex.bss > 0x3000000 ||
  size < ex.text + ex.data + ex.syms + txtOff ex || txtOff ex ≠ 1024

/-- What is live at `restart_interp`. -/
structure Locals where
  inode : Nat
  argc : Int
  envc : Int
  p : UInt32
  page : Nat → Nat

/-- The zeros behind the data, up to the end of its page. -/
def clearRest (s : Sys) (i : Nat) (mem : Mem) : Except Halt Mem :=
  if dataLimit < i + (4096 - i % 4096) % 4096 then .error .limit
  else match putFsBytes (s.tasks D) D.nr (s.current D) (D.base + i)
      (List.replicate ((4096 - i % 4096) % 4096) 0) mem with
    | .ok mem => .ok mem
    | .error t => .error (.trap t)

/-- The caller with the old program's handlers and files gone, up to
`free_page_tables`. -/
def Sys.shed (s : Sys) (inode : Nat) : Sys :=
  let s := match s.proc.executable with
    | some x => s.iput x
    | none => s
  let s := { s with proc := { s.proc with
    executable := some inode, handler := fun _ => 0 } }
  let s := (List.finRange NR_OPEN).foldl (fun s i =>
    if s.proc.closeOnExec.getLsbD i then s.close i else s) s
  { s with proc := { s.proc with closeOnExec := 0 } }

/-- The fields set behind `create_tables`. -/
def Sys.enter (s : Sys) (ex : Header) (sp euid egid : Nat) : Sys :=
  { s with proc := { s.proc with
      endCode := ex.text
      endData := ex.data + ex.text
      brk := ex.bss + (ex.data + ex.text)
      startStack := sp / 4096 * 4096
      euid := euid
      egid := egid } }

/-- From the point of no return on. -/
def pointOfNoReturn (r : Locals) (ex : Header) (euid egid : Nat) (s : Sys) :
    Result := do
  let s := s.shed r.inode
  let (sp, mem) ← buildStack (s.tasks D) D.nr (s.current D) s.proc.codeLimit
    s.proc.dataLimit r.argc.toNat r.envc.toNat r.p ⟨r.page, s.mem⟩
  let s := { s with
    mathOwner := if s.mathOwner = some D.nr then none else s.mathOwner
    proc := { s.proc with
      usedMath := false
      codeLimit := codeLimitFor ex.text.toNat
      dataLimit := dataLimit } }
  let s := s.enter ex sp euid egid
  let mem ← clearRest D s (ex.text + ex.data).toNat mem
  .ok (.started sp (s.setMem mem))

/-- From the header on, when it is no script's. The strings of a script
have been copied. -/
def loadImage (shBang : Bool) (argv envp : List Str) (data : List UInt8)
    (r : Locals) (s : Sys) : Result :=
  let n := D.inode r.inode
  let ex := readHeader data
  let euid := newId n.mode 0o4000 n.uid s.proc.euid
  let egid := newId n.mode 0o2000 n.gid s.proc.egid
  if badHeader ex n.size then execError2 (-ENOEXEC) r.inode r.page s
  else if shBang then pointOfNoReturn D r ex euid egid s
  else do
    let (p, b) ← copyAll [envp, argv] r.p ⟨r.page, s.mem⟩
    let s := s.setMem b.mem
    if p = 0 then execError2 (-ENOMEM) r.inode b.page s
    else pointOfNoReturn D { r with p := p, page := b.page } ex euid egid s

/-- The first two characters are `#!`. -/
def isScript (data : List UInt8) : Bool :=
  data.getD 0 0 = 35 && data.getD 1 0 = 33

/-- From `restart_interp` on; `interpret` is what a script does, which is
nothing any more once `sh_bang` is set. -/
def restartInterp (interpret : Option (List UInt8 → Locals → Sys → Result))
    (argv envp : List Str) (r : Locals) (s : Sys) : Result :=
  let shBang := interpret.isNone
  let n := D.inode r.inode
  if !isReg n.mode then execError2 (-EACCES) r.inode r.page s
  else if !mayExec s.proc n then execError2 (-ENOEXEC) r.inode r.page s
  else match D.bread shBang r.inode with
    | none => execError2 (-EACCES) r.inode r.page s
    | some data =>
      let s := s.bget n.zone
      match interpret, isScript data with
      | some script, true => script data r s
      | _, _ => loadImage D shBang argv envp data r (s.brelse n.zone)

/-- The calls of `copy_strings` for a script. -/
def scriptCalls (filename : Str) (argv envp : List Str) (it : Interp) : List (List Str) :=
  [envp, argv.tail, [filename]] ++ it.iArg.toList.map (fun a => [a]) ++ [[it.iName]]

/-- The `#!` interpretation. -/
def interpretScript (filename : Str) (argv envp : List Str)
    (data : List UInt8) (r : Locals) (s : Sys) : Result :=
  let s := (s.brelse (D.inode r.inode).zone).iput r.inode
  match parseInterp data with
  | none => execError1 (-ENOEXEC) r.page s
  | some it => do
    let (p, b) ← copyAll (scriptCalls filename argv envp it) r.p ⟨r.page, s.mem⟩
    let argc := r.argc - 1
    let argc := argc + 1
    let argc := if it.iArg.isSome then argc + 1 else argc
    let argc := argc + 1
    let s := s.setMem b.mem
    if p = 0 then execError1 (-ENOMEM) b.page s
    else match D.namei true it.interp with
      | none => execError1 (-ENOENT) b.page s
      | some inode =>
        restartInterp D none argv envp ⟨inode, argc, r.envc, p, b.page⟩ (s.iget inode)

/-- `do_execve(..,filename,argv,envp)`. -/
def doExecve (filename : Str) (argv envp : List Str) (s : Sys) : Result :=
  match D.namei false filename with
  | none => .ok (.failed (-ENOENT) s)
  | some inode =>
    restartInterp D (some (interpretScript D filename argv envp)) argv envp
      ⟨inode, argv.length, envp.length, UInt32.ofNat argTop, fun _ => 0⟩ (s.iget inode)

end LearnLinux.Exec
