/-
The console (`kernel/chr_drv/console.c`): what one character written to it
does to the screen and to the cursor.

The video memory is a function from addresses to 16-bit words, a character
and its attribute; next to it stands the list of the addresses that were
ever stored to. The string instructions of the i386 are loops of such
stores, upwards or downwards, which move two words at a time.

The cursor is kept three times, as `pos` and as `x` and `y`. The numbers of
an escape sequence are `unsigned long` and wrap; what is computed from them
goes through `gotoxy`, which checks it.

A character is a `char`, so it is negative from 128 on. The call of
`respond` at ESC Z is not made here: `conChar` says whether it is due.
-/
import Mathlib

namespace LearnLinux.Console

inductive VideoType where
  | MDA
  | CGA
  | EGAM
  | EGAC
  deriving DecidableEq

/-- What is fixed at boot: the type of the display, `video_num_columns` and
`video_num_lines`. -/
structure Screen where
  videoType : VideoType
  cols : Nat
  lines : Nat

/-- `video_mem_start`. -/
def VideoType.memStart : VideoType → Nat
  | .MDA | .EGAM => 0xb0000
  | .CGA | .EGAC => 0xb8000

/-- `video_mem_end`. -/
def VideoType.memEnd : VideoType → Nat
  | .MDA => 0xb2000
  | .EGAM => 0xb8000
  | .CGA => 0xba000
  | .EGAC => 0xbc000

def VideoType.isEga : VideoType → Bool
  | .MDA | .CGA => false
  | .EGAM | .EGAC => true

/-- `display_desc`. -/
def VideoType.desc : VideoType → List Char
  | .MDA => ['*', 'M', 'D', 'A']
  | .EGAM => ['E', 'G', 'A', 'm']
  | .CGA => ['*', 'C', 'G', 'A']
  | .EGAC => ['E', 'G', 'A', 'c']

def Screen.memStart (g : Screen) : Nat := g.videoType.memStart

def Screen.memEnd (g : Screen) : Nat := g.videoType.memEnd

/-- `video_size_row`. -/
def Screen.row (g : Screen) : Nat := g.cols * 2

/-- `video_erase_char`. -/
def eraseChar : Nat := 0x0720

def NPAR : Nat := 16

/-- The values of `state`. The value 4 is left again at once. -/
inductive Esc where
  | normal
  | esc
  | bracket
  | params
  deriving DecidableEq

structure Video where
  mem : Nat → Nat
  stores : List Nat

structure Con where
  video : Video
  origin : Nat
  scrEnd : Nat
  pos : Nat
  x : Nat
  y : Nat
  top : Nat
  bottom : Nat
  state : Esc
  npar : Nat
  par : Nat → Nat
  ques : Bool
  attr : Nat
  savedX : Nat
  savedY : Nat

-- ======== the stores

def store (v : Video) (a w : Nat) : Video :=
  ⟨Function.update v.mem a w, a :: v.stores⟩

/-- `cld; rep movsl`. -/
def movsl : Nat → Nat → Nat → Video → Video
  | 0, _, _, v => v
  | n + 1, src, dst, v =>
    movsl n (src + 4) (dst + 4) (store (store v dst (v.mem src)) (dst + 2) (v.mem (src + 2)))

/-- `std; rep movsl`. -/
def movslDown : Nat → Nat → Nat → Video → Video
  | 0, _, _, v => v
  | n + 1, src, dst, v =>
    movslDown n (src - 4) (dst - 4) (store (store v dst (v.mem src)) (dst + 2) (v.mem (src + 2)))

/-- `cld; rep stosw`. -/
def stosw : Nat → Nat → Nat → Video → Video
  | 0, _, _, v => v
  | n + 1, dst, w, v => stosw n (dst + 2) w (store v dst w)

/-- `std; rep stosw`. -/
def stoswDown : Nat → Nat → Nat → Video → Video
  | 0, _, _, v => v
  | n + 1, dst, w, v => stoswDown n (dst - 2) w (store v dst w)

/-- The loop of `insert_char`. -/
def insertLoop : Nat → Nat → Nat → Video → Video
  | 0, _, _, v => v
  | n + 1, p, old, v => insertLoop n (p + 2) (v.mem p) (store v p old)

/-- The loop of `delete_char`, and the store behind it. -/
def deleteLoop : Nat → Nat → Video → Video
  | 0, p, v => store v p eraseChar
  | n + 1, p, v => deleteLoop n (p + 2) (store v p (v.mem (p + 2)))

-- ======== the screen

variable (g : Screen) (s : Con)

def gotoxy (newX newY : Nat) : Con :=
  if newX > g.cols ∨ newY ≥ g.lines then s
  else { s with
    x := newX, y := newY, pos := s.origin + newY * g.row + newX * 2 }

/-- The lines of the scroll region move up by one, in memory. -/
def scrollRegion : Con :=
  let n := (s.bottom - s.top - 1) * g.cols / 2
  let dst := s.origin + g.row * s.top
  let v := movsl n (s.origin + g.row * (s.top + 1)) dst s.video
  { s with video := stosw g.cols (dst + 4 * n) eraseChar v }

/-- The whole screen moves up by one line on an EGA: the origin moves down
in the video memory, and at its end everything is copied to its start. -/
def scrollOrigin : Con :=
  let origin := s.origin + g.row
  let pos := s.pos + g.row
  let scrEnd := s.scrEnd + g.row
  if scrEnd > g.memEnd then
    let n := (g.lines - 1) * g.cols / 2
    let v := movsl n origin g.memStart s.video
    { s with
      video := stosw g.cols (g.memStart + 4 * n) eraseChar v
      scrEnd := scrEnd - (origin - g.memStart)
      pos := pos - (origin - g.memStart)
      origin := g.memStart }
  else
    { s with
      video := stosw g.cols (scrEnd - g.row) eraseChar s.video
      scrEnd := scrEnd
      pos := pos
      origin := origin }

def scrup : Con :=
  if g.videoType.isEga then
    if s.top = 0 ∧ s.bottom = g.lines then scrollOrigin g s
    else scrollRegion g s
  else scrollRegion g s

/-- `scrdown`; it is the same for all displays. -/
def scrdown : Con :=
  let n := (s.bottom - s.top - 1) * g.cols / 2
  let dst := s.origin + g.row * s.bottom - 4
  let v := movslDown n (s.origin + g.row * (s.bottom - 1) - 4) dst s.video
  { s with video := stoswDown g.cols (dst - 4 * n + 2) eraseChar v }

def lf : Con :=
  if s.y + 1 < s.bottom then { s with y := s.y + 1, pos := s.pos + g.row }
  else scrup g s

def ri : Con :=
  if s.y > s.top then { s with y := s.y - 1, pos := s.pos - g.row }
  else scrdown g s

def cr : Con := { s with pos := s.pos - s.x * 2, x := 0 }

def del : Con :=
  if s.x ≠ 0 then
    { s with
      pos := s.pos - 2
      x := s.x - 1
      video := store s.video (s.pos - 2) eraseChar }
  else s

def csiJ (par : Nat) : Con :=
  match par with
  | 0 =>
    { s with
      video := stosw ((s.scrEnd - s.pos) / 2) s.pos eraseChar s.video }
  | 1 =>
    { s with
      video := stosw ((s.pos - s.origin) / 2) s.origin eraseChar s.video }
  | 2 =>
    { s with
      video := stosw (g.cols * g.lines) s.origin eraseChar s.video }
  | _ => s

def csiK (par : Nat) : Con :=
  match par with
  | 0 =>
    if s.x ≥ g.cols then s
    else { s with video := stosw (g.cols - s.x) s.pos eraseChar s.video }
  | 1 =>
    let count := if s.x < g.cols then s.x else g.cols
    { s with video := stosw count (s.pos - s.x * 2) eraseChar s.video }
  | 2 => { s with video := stosw g.cols (s.pos - s.x * 2) eraseChar s.video }
  | _ => s

/-- The attribute for one parameter of `csi_m`. -/
def attrFor (attr par : Nat) : Nat :=
  match par with
  | 0 => 0x07
  | 1 => 0x0f
  | 4 => 0x0f
  | 7 => 0x70
  | 27 => 0x07
  | _ => attr

def csiM : Con :=
  { s with
    attr := (List.range (s.npar + 1)).foldl (fun a i => attrFor a (s.par i)) s.attr }

def insertChar : Con :=
  { s with video := insertLoop (g.cols - s.x) s.pos eraseChar s.video }

def deleteChar : Con :=
  if s.x ≥ g.cols then s
  else { s with video := deleteLoop (g.cols - s.x - 1) s.pos s.video }

/-- `insert_line` and `delete_line` scroll the lines from the cursor on. -/
def fromCursor (scroll : Screen → Con → Con) : Con :=
  let t := scroll g { s with top := s.y, bottom := g.lines }
  { t with top := s.top, bottom := s.bottom }

def insertLine : Con := fromCursor g s scrdown

def deleteLine : Con := fromCursor g s scrup

/-- `while (nr--)`, for a number that is at least 1 and at most `most`. -/
def times (most nr : Nat) (f : Con → Con) : Con :=
  f^[if nr > most then most else if nr = 0 then 1 else nr] s

def csiAt (nr : Nat) : Con := times s g.cols nr (insertChar g)

def csiL (nr : Nat) : Con := times s g.lines nr (insertLine g)

def csiP (nr : Nat) : Con := times s g.cols nr (deleteChar g)

def csiMLines (nr : Nat) : Con := times s g.lines nr (deleteLine g)

def saveCur : Con := { s with savedX := s.x, savedY := s.y }

def restoreCur : Con := gotoxy g s s.savedX s.savedY

-- ======== the sequences

/-- The arithmetic of `unsigned long`. -/
def add32 (a b : Nat) : Nat := (a + b) % 2 ^ 32

def sub32 (a b : Nat) : Nat := (a + (2 ^ 32 - b % 2 ^ 32)) % 2 ^ 32

def setPar (i v : Nat) : Con :=
  { s with par := Function.update s.par i v }

/-- `if (par[i]) par[i]--`. -/
def decPar (i : Nat) : Con :=
  if s.par i ≠ 0 then setPar s i (s.par i - 1) else s

/-- `if (!par[0]) par[0]++`. -/
def incPar : Con := if s.par 0 = 0 then setPar s 0 1 else s

def ch (c : Char) : Int := c.toNat

/-- `case 'r'`. -/
def setRegion : Con :=
  let s := decPar s 0
  let s := if s.par 1 = 0 then setPar s 1 g.lines else s
  if s.par 0 < s.par 1 ∧ s.par 1 ≤ g.lines then
    { s with top := s.par 0, bottom := s.par 1 }
  else s

/-- `switch(c)` in `case 4`. -/
def command (c : Int) : Con :=
  -- 96 is the grave accent
  if c = ch 'G' ∨ c = 96 then
    let s := decPar s 0
    gotoxy g s (s.par 0) s.y
  else if c = ch 'A' then
    let s := incPar s
    gotoxy g s s.x (sub32 s.y (s.par 0))
  else if c = ch 'B' ∨ c = ch 'e' then
    let s := incPar s
    gotoxy g s s.x (add32 s.y (s.par 0))
  else if c = ch 'C' ∨ c = ch 'a' then
    let s := incPar s
    gotoxy g s (add32 s.x (s.par 0)) s.y
  else if c = ch 'D' then
    let s := incPar s
    gotoxy g s (sub32 s.x (s.par 0)) s.y
  else if c = ch 'E' then
    let s := incPar s
    gotoxy g s 0 (add32 s.y (s.par 0))
  else if c = ch 'F' then
    let s := incPar s
    gotoxy g s 0 (sub32 s.y (s.par 0))
  else if c = ch 'd' then
    let s := decPar s 0
    gotoxy g s s.x (s.par 0)
  else if c = ch 'H' ∨ c = ch 'f' then
    let s := decPar (decPar s 0) 1
    gotoxy g s (s.par 1) (s.par 0)
  else if c = ch 'J' then csiJ g s (s.par 0)
  else if c = ch 'K' then csiK g s (s.par 0)
  else if c = ch 'L' then csiL g s (s.par 0)
  else if c = ch 'M' then csiMLines g s (s.par 0)
  else if c = ch 'P' then csiP g s (s.par 0)
  else if c = ch '@' then csiAt g s (s.par 0)
  else if c = ch 'm' then csiM s
  else if c = ch 'r' then setRegion g s
  else if c = ch 's' then saveCur s
  else if c = ch 'u' then restoreCur g s
  else s

/-- `case 4`: the letter at the end of a sequence. -/
def csi (c : Int) : Con := command g { s with state := .normal } c

/-- `case 3`: the parameters of a sequence. -/
def params (c : Int) : Con :=
  if c = ch ';' ∧ s.npar < NPAR - 1 then { s with npar := s.npar + 1 }
  else if ch '0' ≤ c ∧ c ≤ ch '9' then
    setPar s s.npar ((10 * s.par s.npar + (c - ch '0').toNat) % 2 ^ 32)
  else csi g s c

/-- `case 2`: behind ESC [. -/
def bracket (c : Int) : Con :=
  let s := { s with
    par := fun _ => 0, npar := 0, state := .params, ques := c = ch '?' }
  if c = ch '?' then s else params g s c

/-- `case 1`: behind ESC. It is `x` that is compared with '7' and '8'. -/
def escape (c : Int) : Con × Bool :=
  let s := { s with state := .normal }
  if c = ch '[' then ({ s with state := .bracket }, false)
  else if c = ch 'E' then (gotoxy g s 0 (s.y + 1), false)
  else if c = ch 'M' then (ri g s, false)
  else if c = ch 'D' then (lf g s, false)
  else if c = ch 'Z' then (s, true)
  else if (s.x : Int) = ch '7' then (saveCur s, false)
  else if (s.x : Int) = ch '8' then (restoreCur g s, false)
  else (s, false)

/-- The cursor is behind the last column: it goes to the next line. -/
def wrap : Con :=
  lf g { s with x := s.x - g.cols, pos := s.pos - g.row }

/-- A character that is shown. -/
def putChar (c : Int) : Con :=
  let s := if s.x ≥ g.cols then wrap g s else s
  { s with
    video := store s.video s.pos (s.attr * 256 + c.toNat)
    pos := s.pos + 2
    x := s.x + 1 }

def tab : Con :=
  let c := 8 - s.x % 8
  let s := { s with x := s.x + c, pos := s.pos + c * 2 }
  if s.x > g.cols then wrap g s else s

/-- `case 0`. -/
def normal (erase c : Int) : Con :=
  if 31 < c ∧ c < 127 then putChar g s c
  else if c = 27 then { s with state := .esc }
  else if c = 10 ∨ c = 11 ∨ c = 12 then lf g s
  else if c = 13 then cr s
  else if c = erase then del s
  else if c = 8 then
    if s.x ≠ 0 then { s with x := s.x - 1, pos := s.pos - 2 } else s
  else if c = 9 then tab g s
  else s

/-- One round of the loop of `con_write`, and whether it calls `respond`.
`erase` is `ERASE_CHAR(tty)`. -/
def conChar (erase c : Int) : Con × Bool :=
  match s.state with
  | .normal => (normal g s erase c, false)
  | .esc => escape g s c
  | .bracket => (bracket g s c, false)
  | .params => (params g s c, false)

-- ======== con_init

/-- The kind of display is written at the end of the first line, without
touching the attributes. -/
def showDesc : List Char → Nat → Video → Video
  | [], _, v => v
  | c :: cs, p, v =>
    showDesc cs (p + 2) (store v p (v.mem p / 256 * 256 + c.toNat))

/-- `con_init`, with the cursor where the boot code has left it. -/
def conInit (mem : Nat → Nat) (origX origY : Nat) : Con :=
  gotoxy g
    { video := showDesc g.videoType.desc (g.memStart + g.row - 8) ⟨mem, []⟩
      origin := g.memStart
      scrEnd := g.memStart + g.lines * g.row
      pos := 0
      x := 0
      y := 0
      top := 0
      bottom := g.lines
      state := .normal
      npar := 0
      par := fun _ => 0
      ques := false
      attr := 0x07
      savedX := 0
      savedY := 0 } origX origY

/-- A character of the stream, as a `char`. -/
def toChar (b : UInt8) : Int :=
  if b.toNat < 128 then b.toNat else (b.toNat : Int) - 256

/-- A stream of bytes goes through `con_write`, each with the `ERASE_CHAR`
of that time. With echo off a `respond` leaves the console alone. -/
def feed (bs : List (UInt8 × Int)) : Con :=
  bs.foldl (fun s b => (conChar g s b.2 (toChar b.1)).1) s

end LearnLinux.Console
