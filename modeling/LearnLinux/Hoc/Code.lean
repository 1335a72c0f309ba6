/-
The arguments and the divisions of hoc6: `getarg` and the six instructions
of `code.c` that divide.

An instruction returns or stops: by `execerror`, or by a division by zero.
The stack is addressed by a signed index, for an argument may be looked for
outside of it. Doubles are rational numbers, and a double is cut to a long
before `%`.
-/
import LearnLinux.Lib.Wp

namespace LearnLinux.Hoc

open Function (update)
open LearnLinux.Lib

-- ======== the machine

/-- A union: the member that is not in use is arbitrary. -/
structure Datum where
  val : ℚ
  sym : String

inductive SymType where
  | VAR | UNDEF | other
  deriving DecidableEq

structure Symbol where
  type : SymType
  val : ℚ

structure Frame where
  sp : String
  argn : Int
  nargs : BitVec 32

structure Machine where
  stack : Int → Datum
  stackp : Nat
  symbol : String → Symbol
  fp : Frame

inductive Stop where
  | execerror (s t : String)
  | dividesByZero
  deriving DecidableEq

abbrev Code := Prog Stop Machine

def NSTACK : Nat := 256

def push (d : Datum) : Code Unit := do
  let m ← get
  if NSTACK ≤ m.stackp then throw (.execerror "stack too deep" "")
  set { m with stack := update m.stack m.stackp d, stackp := m.stackp + 1 }

def Machine.top (m : Machine) : Datum := m.stack (m.stackp - 1)

def Machine.drop (m : Machine) : Machine := { m with stackp := m.stackp - 1 }

def pop : Code Datum := do
  let m ← get
  if m.stackp = 0 then throw (.execerror "stack underflow" "")
  set m.drop
  pure m.top

variable {err : Stop → Machine → Prop} {m : Machine} {nargs : BitVec 32}

theorem wp_pop {Q : Datum → Machine → Prop} : Wp err pop Q m ↔
    if m.stackp = 0 then err (.execerror "stack underflow" "") m
    else Q m.top m.drop := by
  unfold pop
  simp only [wp_bind, wp_get, wp_ite, wp_throw, wp_pure, wp_set]

/-- The frame of a call of `sp` with `n` arguments, the last of them on top
of the stack. -/
def call (sp : String) (stackp n : Nat) : Frame := ⟨sp, stackp - 1, BitVec.ofNat 32 n⟩

/-- The index of the argument that the operand of an instruction names. -/
def getarg (nargs : BitVec 32) : Code Int := do
  let fp := (← get).fp
  if fp.nargs.toInt < nargs.toInt then throw (.execerror fp.sp "not enough arguments")
  pure (fp.argn + (nargs - fp.nargs).toInt)

-- ======== the arguments

/-- The digits after a `$`: `n = 10 * n + c - '0'`. -/
def readArg (n : BitVec 32) : List Char → BitVec 32
  | [] => n
  | c :: fin => if c.isDigit then readArg (10 * n + BitVec.ofNat 32 c.toNat - 48) fin else n

/-- The token for a `$` with what follows it. -/
def yylexArg (fin : List Char) : Except String (BitVec 32) :=
  if readArg 0 fin = 0 then .error "strange $..." else .ok (readArg 0 fin)

/-- The number that the digits stand for. -/
def decimal (n : Nat) : List Char → Nat
  | [] => n
  | c :: fin => if c.isDigit then decimal (10 * n + (c.toNat - 48)) fin else n

theorem readArg_eq (n : Nat) (fin : List Char) :
    readArg (BitVec.ofNat 32 n) fin = BitVec.ofNat 32 (decimal n fin) := by
  induction fin generalizing n with
  | nil => rfl
  | cons c fin ih =>
    rw [readArg, decimal]
    split
    · rename_i hc
      have h48 : 48 ≤ c.toNat := by
        simp only [Char.isDigit, Bool.and_eq_true, decide_eq_true_eq] at hc
        exact hc.1
      rw [← ih]
      congr 1
      apply BitVec.eq_of_toNat_eq
      simp
      omega
    · rfl

/-- The value of the operand, as an `int`. -/
theorem toInt_decimal (n : Nat) : (BitVec.ofNat 32 n).toInt
    = if n % 2 ^ 32 < 2 ^ 31 then (n % 2 ^ 32 : Int) else n % 2 ^ 32 - 2 ^ 32 := by
  rw [BitVec.toInt_eq_toNat_cond, BitVec.toNat_ofNat]
  split <;> split <;> omega

/-- `getarg` raises the error, or returns one of the cells from `sp - n` to
`sp - 1`. -/
def InFrame (nargs : BitVec 32) (sp n : Nat) (m : Machine) : Prop :=
  Wp (fun e _ => e = .execerror m.fp.sp "not enough arguments") (getarg nargs)
    (fun a _ => (sp : Int) - n ≤ a ∧ a < sp) m

/-- For every token that is accepted and every call: `getarg` keeps to the
cells of the arguments exactly if the number, cut to 32 bits, is positive
as an `int`. -/
theorem getarg_in_frame_iff (fin : List Char) {f : String} {sp n : Nat}
    (htok : yylexArg fin = .ok nargs) (hfp : m.fp = call f sp n) (hn : n ≤ sp)
    (hs : sp ≤ NSTACK) : InFrame nargs sp n m ↔ decimal 0 fin % 2 ^ 32 < 2 ^ 31 := by
  have hread : readArg 0 fin = _ := readArg_eq 0 fin
  rw [yylexArg, hread] at htok
  split at htok
  · cases htok
  rename_i h0
  cases htok
  have hpos : decimal 0 fin % 2 ^ 32 ≠ 0 := fun h => h0 (BitVec.eq_of_toNat_eq h)
  unfold NSTACK at hs
  have hsmall : n % 2 ^ 32 < 2 ^ 31 := by omega
  simp only [InFrame, getarg, wp_bind, wp_get, wp_ite, wp_throw, wp_pure, hfp, call,
    BitVec.toInt_sub, toInt_decimal, if_pos hsmall]
  by_cases hlt : decimal 0 fin % 2 ^ 32 < 2 ^ 31
  · simp only [hlt, if_true, iff_true]
    split
    · trivial
    · rw [Int.bmod_eq_of_le (by omega) (by omega)]
      omega
  · simp only [hlt, if_false, iff_false]
    rw [if_neg (by omega), Int.bmod_def]
    split <;> omega

/-- A call of `f` with two arguments, above another value. -/
def twoArgs : Machine := ⟨fun _ => ⟨0, ""⟩, 3, fun _ => ⟨.UNDEF, 0⟩, call "f" 3 2⟩

theorem getarg_in_frame_iff_second : InFrame 2 3 2 twoArgs :=
  (getarg_in_frame_iff ['2'] (by decide) rfl (by decide) (by decide)).mpr (by decide)

/-- `$4294967295` is the argument -1 of every call. -/
theorem getarg_before_frame : ¬ ∀ (fin : List Char) (nargs : BitVec 32) (f : String) (sp n : Nat)
    (m : Machine), yylexArg fin = .ok nargs → m.fp = call f sp n → n ≤ sp → sp ≤ NSTACK →
      InFrame nargs sp n m := by
  intro hall
  have h := hall "4294967295".toList (-1) "f" 3 2 twoArgs (by decide) rfl (by decide) (by decide)
  simp [InFrame, getarg, twoArgs, call] at h

-- ======== the divisions

/-- A double as a long; what does not fit becomes the least long. -/
def toLong (x : ℚ) : Int :=
  let n := x.num.tdiv x.den
  if -2 ^ 63 ≤ n ∧ n < 2 ^ 63 then n else -2 ^ 63

/-- An operation, and the divisors that are 0 to it. -/
structure Operation where
  zero : ℚ → Bool
  value : ℚ → ℚ → ℚ

def divide : Operation := ⟨fun y => y = 0, fun x y => x / y⟩

/-- `%` of longs, made a double again. -/
def modulo : Operation := ⟨fun y => toLong y = 0, fun x y => (toLong x).tmod (toLong y)⟩

def Operation.apply (op : Operation) (x y : ℚ) : Code ℚ :=
  if op.zero y then throw .dividesByZero else pure (op.value x y)

/-- The operators of two values. -/
def binary (op : Operation) : Code Unit := do
  let d2 ← pop
  if d2.val = 0 then throw (.execerror "division by zero" "")
  let d1 ← pop
  let v ← op.apply d1.val d2.val
  push { d1 with val := v }

def divop : Code Unit := binary divide

def mod : Code Unit := binary modulo

/-- The assignments to a variable. -/
def assignOp (op : Operation) : Code Unit := do
  let d1 ← pop
  let d2 ← pop
  let s := (← get).symbol d1.sym
  if s.type ≠ .VAR ∧ s.type ≠ .UNDEF then
    throw (.execerror "assignment to non-variable" d1.sym)
  let v ← op.apply s.val d2.val
  modify fun m => { m with symbol := update m.symbol d1.sym ⟨.VAR, v⟩ }
  push { d2 with val := v }

def diveq : Code Unit := assignOp divide

def modeq : Code Unit := assignOp modulo

/-- The assignments to an argument. -/
def argAssignOp (op : Operation) (nargs : BitVec 32) : Code Unit := do
  let d ← pop
  let x ← getarg nargs
  let v ← op.apply ((← get).stack x).val d.val
  modify fun m => { m with stack := update m.stack x { m.stack x with val := v } }
  push { d with val := v }

def argdiveq : BitVec 32 → Code Unit := argAssignOp divide

def argmodeq : BitVec 32 → Code Unit := argAssignOp modulo

/-- There is no division by zero, and the error for one comes before any
change of a variable or an argument. -/
def Guarded (x : Code Unit) (m : Machine) : Prop :=
  Wp (fun e m' => e ≠ .dividesByZero ∧ (e = .execerror "division by zero" "" →
    m'.symbol = m.symbol ∧ m'.stack = m.stack)) x (fun _ _ => True) m

/-- There are two values, the upper one names what can be assigned to. -/
def Machine.Assigns (m : Machine) : Prop :=
  2 ≤ m.stackp ∧ (m.symbol m.top.sym).type ≠ .other

/-- There is a value, and the argument. -/
def Machine.HasArg (m : Machine) (nargs : BitVec 32) : Prop :=
  1 ≤ m.stackp ∧ nargs.toInt ≤ m.fp.nargs.toInt

variable {op : Operation}

theorem two_le : 2 ≤ m.stackp ↔ m.stackp ≠ 0 ∧ m.stackp - 1 ≠ 0 := by omega

theorem guarded_binary : Guarded (binary op) m ↔
    (2 ≤ m.stackp → m.top.val ≠ 0 → op.zero m.top.val = false) := by
  simp [Guarded, binary, wp_pop, push, Operation.apply, Machine.drop, two_le]
  tauto

theorem guarded_assignOp :
    Guarded (assignOp op) m ↔ (m.Assigns → op.zero m.drop.top.val = false) := by
  have ht : ∀ t : SymType, t ≠ .other ↔ (t ≠ .VAR → t = .UNDEF) := by
    intro t
    cases t <;> simp
  simp [Guarded, assignOp, wp_pop, push, Operation.apply, Machine.Assigns, Machine.drop, two_le, ht]

theorem guarded_argAssignOp : Guarded (argAssignOp op nargs) m ↔
    (m.HasArg nargs → op.zero m.top.val = false) := by
  simp [Guarded, argAssignOp, wp_pop, push, Operation.apply, getarg, Machine.HasArg, Machine.drop,
    Nat.one_le_iff_ne_zero]

/-- In every state, the instructions are guarded where they do not divide
by zero: `divop` is, `mod` is not from a number that is cut to 0, and the
others test nothing. -/
theorem divisions_guarded_iff (m : Machine) (nargs : BitVec 32) :
    Guarded divop m ∧
    (Guarded mod m ↔ ¬ (2 ≤ m.stackp ∧ m.top.val ≠ 0 ∧ toLong m.top.val = 0)) ∧
    (Guarded diveq m ↔ ¬ (m.Assigns ∧ m.drop.top.val = 0)) ∧
    (Guarded modeq m ↔ ¬ (m.Assigns ∧ toLong m.drop.top.val = 0)) ∧
    (Guarded (argdiveq nargs) m ↔ ¬ (m.HasArg nargs ∧ m.top.val = 0)) ∧
    (Guarded (argmodeq nargs) m ↔ ¬ (m.HasArg nargs ∧ toLong m.top.val = 0)) := by
  simp only [divop, mod, guarded_binary, diveq, modeq, guarded_assignOp, argdiveq, argmodeq,
    guarded_argAssignOp, divide, modulo, decide_eq_false_iff_not, not_and]
  simp

/-- `0.5 % 0.5`. -/
theorem mod_by_half : ¬ ∀ m : Machine, Guarded mod m := by
  intro hall
  have h := guarded_binary.mp (hall { twoArgs with stack := fun _ => ⟨1 / 2, ""⟩ })
  exact absurd (h (by decide) (by decide +kernel)) (by decide +kernel)

end LearnLinux.Hoc
