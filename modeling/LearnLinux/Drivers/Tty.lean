/-
The terminal lines (`kernel/chr_drv/tty_io.c`, with `con_write`, `rs_write`
and the interrupt routines): three rings of characters for a line, and the
routines that move characters between them.

`con_write` and `copy_to_cooked` call each other: the echo of an input
character is written at once, and what is written may contain the query
ESC Z, whose answer is put into the input and cooked on the spot. So the
routines are a machine with a stack of frames, each frame the point where
one activation of a routine stands. A step is one test or one access to a
ring; an interrupt may come between any two steps.

A ring records what the code does not see: `overrun` and `underrun` say
that a character was put into it while it was full, or taken while it was
empty, and `grown` counts how often the number of its characters went up,
which is how a frame knows whether its test of FULL is out of date.

The lines do not share data, apart from `cr_flag`, which is static in
`tty_write`.
-/
import LearnLinux.Drivers.Console

namespace LearnLinux.Tty

open Function (update)
open Console

-- ======== the rings

/-- `tty_queue`. The indices are taken `& (TTY_BUF_SIZE-1)`, ten bits. -/
structure Queue where
  head : BitVec 10
  tail : BitVec 10
  buf : BitVec 10 → Int
  overrun : Bool
  underrun : Bool
  grown : Nat

namespace Queue

variable (q : Queue)

def isEmpty : Bool := q.head == q.tail

/-- `LEFT`. -/
def left : Nat := (q.tail - q.head - 1).toNat

def isFull : Bool := q.left == 0

/-- `CHARS`. -/
def chars : Nat := (q.head - q.tail).toNat

/-- `LAST`. -/
def last : Int := q.buf (q.head - 1)

/-- `PUTCH`. -/
def put (c : Int) : Queue :=
  { q with
    buf := update q.buf q.head c
    head := q.head + 1
    overrun := q.overrun || q.isFull
    grown := q.grown + 1 }

/-- The character that `GETCH` takes. -/
def first : Int := q.buf q.tail

/-- `GETCH`. An empty ring is full of old characters behind it. -/
def get : Queue :=
  { q with
    tail := q.tail + 1
    underrun := q.underrun || q.isEmpty
    grown := if q.isEmpty then q.grown + 1 else q.grown }

/-- `DEC(head)`. -/
def dec : Queue :=
  { q with
    head := q.head - 1
    grown := if q.isEmpty then q.grown + 1 else q.grown }

def putAll (cs : List Int) : Queue := cs.foldl put q

/-- `put_queue`, with `trial` the ring as it would be with the characters
stored so far: at the first character without room everything is discarded.
What was stored in free cells stays there. -/
def offer (trial : Queue) : List Int → Queue
  | [] => trial
  | c :: cs =>
    if trial.isFull then
      { q with buf := update trial.buf trial.head c }
    else offer (trial.put c) cs

/-- What is in the ring, in the order in which it will be taken. -/
def contents : List Int :=
  (List.range q.chars).map fun i => q.buf (q.tail + BitVec.ofNat 10 i)

end Queue

-- ======== the line

/-- The flags and characters of `termios` that are used here. -/
structure Termios where
  icrnl : Bool
  igncr : Bool
  inlcr : Bool
  iuclc : Bool
  opost : Bool
  onlcr : Bool
  ocrnl : Bool
  onlret : Bool
  olcuc : Bool
  icanon : Bool
  isig : Bool
  echo : Bool
  echoctl : Bool
  vintr : UInt8
  vquit : UInt8
  verase : UInt8
  vkill : UInt8
  veof : UInt8
  vstart : UInt8
  vstop : UInt8

/-- `tty->write`. -/
inductive WriteRoutine where
  | conWrite
  | rsWrite
  deriving DecidableEq

structure TtyStruct where
  termios : Termios
  stopped : Bool
  write : WriteRoutine
  readQ : Queue
  writeQ : Queue
  secondary : Queue
  data : UInt32
  crFlag : Bool
  con : Con

/-- What `isupper` and `islower` find for a negative character: the bytes
before the table `_ctype`. -/
structure Outside where
  upper : Int → Bool
  lower : Int → Bool

variable (g : Screen) (o : Outside) (tty : TtyStruct)

/-- A character of `c_cc`, an `unsigned char`. -/
def cc (b : UInt8) : Int := b.toNat

def isupper (c : Int) : Bool :=
  if c < -1 then o.upper c else 65 ≤ c && c ≤ 90

def islower (c : Int) : Bool :=
  if c < -1 then o.lower c else 97 ≤ c && c ≤ 122

def tolower (c : Int) : Int := if isupper o c then c + 32 else c

/-- `toupper`, stored into a `char` again. -/
def toupper (c : Int) : Int :=
  if islower o c then (if c - 32 < -128 then c - 32 + 256 else c - 32) else c

-- ======== the input character

/-- What `copy_to_cooked` does with a character. -/
inductive Cooked where
  | drop
  | kill
  | erase
  | stop (stopped : Bool)
  | keep (c : Int)
  deriving DecidableEq

/-- The translations of CR and NL; `none` is the `continue` of IGNCR. -/
def translate (t : Termios) (c : Int) : Option Int :=
  if c = 13 then
    if t.icrnl then some 10 else if t.igncr then none else some c
  else if c = 10 ∧ t.inlcr then some 13
  else some c

/-- The tests for special characters, in the order of the source. -/
def special (t : Termios) (c : Int) : Cooked :=
  if t.icanon ∧ c = cc t.vkill then .kill
  else if t.icanon ∧ c = cc t.verase then .erase
  else if t.icanon ∧ c = cc t.vstop then .stop true
  else if t.icanon ∧ c = cc t.vstart then .stop false
  else if t.isig ∧ c = cc t.vintr then .drop
  else if t.isig ∧ c = cc t.vquit then .drop
  else .keep c

def cook (t : Termios) (c : Int) : Cooked :=
  match translate t c with
  | none => .drop
  | some c => special t (if t.iuclc then tolower o c else c)

/-- There is no character of this line left to rub out. -/
def lineStart : Bool :=
  tty.secondary.isEmpty || tty.secondary.last == 10 || tty.secondary.last == cc tty.termios.veof

/-- The echo of a character that is rubbed out. -/
def rubOut : List Int := if tty.secondary.last < 32 then [127, 127] else [127]

/-- The echo of a character that is kept. -/
def echoOf (t : Termios) (c : Int) : List Int :=
  if c = 10 then [10, 13]
  else if c < 32 then (if t.echoctl then [94, c + 64] else [])
  else [c]

/-- The answer to a query. -/
def RESPONSE : List Int := [27, 91, 63, 49, 59, 50, 99]

-- ======== the frames

/-- What follows an echo in `copy_to_cooked`. The `seen` of a `store` is
the `grown` of `secondary` when it was tested. -/
inductive After where
  | store (c : Int) (seen : Nat)
  | erase
  | kill
  deriving DecidableEq

inductive Frame where
  /-- `while (nr--)` of `con_write`. -/
  | conWrite (nr : Nat)
  | respond
  /-- `copy_to_cooked`: at the test of its loop, behind it, at the loop that
  kills a line, at an echo, and behind the echo. -/
  | cooked
  | fetch (seen : Nat)
  | killLine
  | echo (cs : List Int) (next : After)
  | after (next : After)
  /-- `tty_write`: at its loop, asleep in `sleep_if_full`, at the inner
  loop and behind its test. -/
  | ttyWrite (buf : List Int)
  | sleeping (buf : List Int)
  | fill (buf : List Int)
  | take (c : Int) (buf : List Int) (seen : Nat)
  deriving DecidableEq

/-- `tty->write(tty)`. The transmit interrupt is on after `rs_write`. -/
def callWrite : List Frame :=
  match tty.write with
  | .conWrite => [.conWrite tty.writeQ.chars]
  | .rsWrite => []

/-- One round of `con_write`. -/
def consume (nr : Nat) : TtyStruct × List Frame :=
  let r := conChar g tty.con (cc tty.termios.verase) tty.writeQ.first
  ({ tty with writeQ := tty.writeQ.get, con := r.1 },
    if r.2 then [.respond, .conWrite nr] else [.conWrite nr])

/-- The echo, if there is one, and what follows it. -/
def echoing (cs : List Int) (next : After) : Frame :=
  if tty.termios.echo then .echo cs next else .after next

/-- One round of `copy_to_cooked`, behind its test. -/
def fetched (seen : Nat) : TtyStruct × List Frame :=
  let c := tty.readQ.first
  let tty := { tty with readQ := tty.readQ.get }
  match cook o tty.termios c with
  | .drop => (tty, [.cooked])
  | .kill => (tty, [.killLine])
  | .erase =>
    if lineStart tty then (tty, [.cooked])
    else (tty, [echoing tty (rubOut tty) .erase])
  | .stop b => ({ tty with stopped := b }, [.cooked])
  | .keep c =>
    let data :=
      if c = 10 ∨ c = cc tty.termios.veof then tty.data + 1 else tty.data
    ({ tty with data := data }, [echoing tty (echoOf tty.termios c) (.store c seen)])

def continued : After → TtyStruct × List Frame
  | .store c _ =>
    ({ tty with secondary := tty.secondary.put c }, [.cooked])
  | .erase => ({ tty with secondary := tty.secondary.dec }, [.cooked])
  | .kill => ({ tty with secondary := tty.secondary.dec }, [.killLine])

/-- OCRNL and ONLRET. -/
def translateOut (t : Termios) (c : Int) : Int :=
  if t.opost then
    if c = 13 ∧ t.ocrnl then 10 else if c = 10 ∧ t.onlret then 13 else c
  else c

/-- OLCUC. -/
def raise (t : Termios) (c : Int) : Int :=
  if t.opost ∧ t.olcuc then toupper o c else c

/-- A round of the inner loop of `tty_write`. A newline that needs a CR
stays in the buffer. -/
def written (c : Int) (buf : List Int) : TtyStruct × List Frame :=
  let t := tty.termios
  let c₁ := translateOut t c
  if t.opost ∧ c₁ = 10 ∧ tty.crFlag = false ∧ t.onlcr then
    ({ tty with crFlag := true, writeQ := tty.writeQ.put 13 }, [.fill (c :: buf)])
  else
    ({ tty with crFlag := false, writeQ := tty.writeQ.put (raise o t c₁) }, [.fill buf])

/-- One step of a routine: the line, and the frames that take the place of
its frame. `none` is a process that sleeps. -/
def stepFrame : Frame → Option (TtyStruct × List Frame)
  | .conWrite 0 => some (tty, [])
  | .conWrite (nr + 1) => some (consume g tty nr)
  | .respond =>
    some ({ tty with readQ := tty.readQ.putAll RESPONSE }, [.cooked])
  | .cooked =>
    if tty.readQ.isEmpty || tty.secondary.isFull then some (tty, [])
    else some (tty, [.fetch tty.secondary.grown])
  | .fetch seen => some (fetched o tty seen)
  | .killLine =>
    if lineStart tty then some (tty, [.cooked])
    else some (tty, [echoing tty (rubOut tty) .kill])
  | .echo (c :: cs) next =>
    some ({ tty with writeQ := tty.writeQ.put c }, [.echo cs next])
  | .echo [] next => some (tty, callWrite tty ++ [.after next])
  | .after next => some (continued tty next)
  | .ttyWrite [] => some (tty, [])
  | .ttyWrite (c :: buf) =>
    if tty.writeQ.isFull then some (tty, [.sleeping (c :: buf)])
    else some (tty, [.fill (c :: buf)])
  | .sleeping buf =>
    if tty.writeQ.left < 128 then none else some (tty, [.fill buf])
  | .fill [] => some (tty, callWrite tty)
  | .fill (c :: buf) =>
    if tty.writeQ.isFull then
      some (tty, callWrite tty ++ [.ttyWrite (c :: buf)])
    else some (tty, [.take c buf tty.writeQ.grown])
  | .take c buf _ => some (written o tty c buf)

/-- A line and the activations that are going on, the innermost first. -/
structure Call where
  tty : TtyStruct
  stack : List Frame

/-- The innermost activation takes a step. -/
def step (s : Call) : Option Call :=
  match s.stack with
  | [] => none
  | f :: rest =>
    (stepFrame g o s.tty f).map fun r => ⟨r.1, r.2 ++ rest⟩

/-- `con_write(tty)` is called. -/
def conWrite : Call := ⟨tty, [.conWrite tty.writeQ.chars]⟩

-- ======== the interleavings

/-- A line with all activations on it: one stack for each process, with the
interrupts that came while it ran on top. -/
structure Line (τ : Type) where
  tty : TtyStruct
  stack : τ → List Frame

/-- What happens next on a line. -/
inductive Op (τ : Type) where
  /-- The innermost activation in `t` takes a step. -/
  | run (t : τ)
  /-- `read_char` or `put_queue` in an interrupt of `t`, which goes on to
  `do_tty_interrupt`. -/
  | input (t : τ) (cs : List Int)
  /-- `write_char`, in a transmit interrupt. -/
  | writeChar
  /-- `tty_write` is called. -/
  | ttyWrite (t : τ) (buf : List Int)
  /-- A signal ends the `tty_write` of `t`, at its loop or in its sleep. -/
  | signal (t : τ)
  /-- `tty_read` takes a character. -/
  | ttyRead
  | setTermios (termios : Termios)
  /-- A `tty_write` on another line. -/
  | otherLine (crFlag : Bool)

variable {τ : Type} [DecidableEq τ]

/-- Any process may go on at any time; the kernel makes use of it only where
one sleeps, is interrupted or ends. -/
def lineStep (op : Op τ) (s : Line τ) : Option (Line τ) :=
  match op with
  | .run t =>
    (step g o ⟨s.tty, s.stack t⟩).map fun r =>
      ⟨r.tty, update s.stack t r.stack⟩
  | .input t cs =>
    some ⟨{ s.tty with readQ := s.tty.readQ.offer s.tty.readQ cs },
        update s.stack t (.cooked :: s.stack t)⟩
  | .writeChar =>
    if s.tty.writeQ.isEmpty then some s
    else some { s with tty := { s.tty with writeQ := s.tty.writeQ.get } }
  | .ttyWrite t buf =>
    if s.stack t = [] then
      some { s with stack := update s.stack t [.ttyWrite buf] }
    else none
  | .signal t =>
    match s.stack t with
    | .ttyWrite _ :: rest =>
      some { s with stack := update s.stack t rest }
    | .sleeping _ :: rest =>
      some { s with stack := update s.stack t rest }
    | _ => none
  | .ttyRead =>
    if s.tty.secondary.isEmpty then none
    else
      let c := s.tty.secondary.first
      let data :=
        if c = cc s.tty.termios.veof ∨ c = 10 then s.tty.data - 1
        else s.tty.data
      some { s with
        tty := { s.tty with
          secondary := s.tty.secondary.get, data := data } }
  | .setTermios t => some { s with tty := { s.tty with termios := t } }
  | .otherLine b => some { s with tty := { s.tty with crFlag := b } }

def emptyQueue : Queue := ⟨0, 0, fun _ => 0, false, false, 0⟩

/-- A line of `tty_table` at boot, whatever its `termios`. -/
def boot (w : WriteRoutine) (t : Termios) (con : Con) : Line τ :=
  ⟨⟨t, false, w, emptyQueue, emptyQueue, emptyQueue, 0, false, con⟩, fun _ => []⟩

-- ======== tty_read, while nothing else changes the line

/-- The character taken at the head of the ring, and what is left. -/
def TtyStruct.getch (tty : TtyStruct) : TtyStruct :=
  let c := tty.secondary.first
  { tty with
    secondary := tty.secondary.get
    data := if c = cc tty.termios.veof ∨ c = 10 then tty.data - 1 else tty.data }

/-- The inner loop, for `nr` characters more: those that are delivered, and
the line. -/
def readChars : Nat → TtyStruct → List Int × TtyStruct
  | 0, tty => ([], tty)
  | nr + 1, tty =>
    let c := tty.secondary.first
    if c = cc tty.termios.veof ∧ tty.termios.icanon = true then ([], tty.getch)
    else if nr = 0 ∨ tty.getch.secondary.isEmpty = true then ([c], tty.getch)
    else
      let r := readChars nr tty.getch
      (c :: r.1, r.2)

/-- How a call ends as long as no signal comes and nobody else touches the
line: with what it delivers, or waiting for more behind what it delivered. -/
inductive ReadEnd where
  | returns (cs : List Int) (tty : TtyStruct)
  | waits (cs : List Int) (tty : TtyStruct)

/-- `tty_read`. With ICANON the inner loop has delivered something, or has
returned. -/
def ttyRead (vmin vtime nr : Nat) (tty : TtyStruct) : ReadEnd :=
  let minimum := min (if vtime ≠ 0 ∧ vmin = 0 then 1 else vmin) nr
  if nr = 0 then .returns [] tty
  else if tty.secondary.isEmpty = true ∨
      tty.termios.icanon = true ∧ tty.data = 0 ∧ 20 < tty.secondary.left then .waits [] tty
  else
    let r := readChars nr tty
    if tty.termios.icanon = true ∨ minimum ≤ r.1.length then .returns r.1 r.2
    else .waits r.1 r.2

end LearnLinux.Tty
