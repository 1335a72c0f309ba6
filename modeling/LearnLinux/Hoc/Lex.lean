/-
The operators and the arguments of hoc6, as `yylex` reads them.

`fin` is what is left of the input. `getc` at its end returns EOF, and an
`ungetc` of EOF does nothing, so the end stays where it is.
-/
import Mathlib

namespace LearnLinux.Hoc

/-- The tokens of the operators; a character stands for itself. -/
inductive Token where
  | char (c : Char)
  | INC | ADDEQ | DEC | SUBEQ | MULEQ | DIVEQ | MODEQ
  | GE | GT | LE | LT | EQ | NE | NOT | OR | AND
  deriving DecidableEq

/-- `follow(expect,ifyes,ifno)`, and what it leaves of the input. -/
def follow (expect : Char) (ifyes ifno : Token) : List Char → Token × List Char
  | [] => (ifno, [])
  | c :: fin => if c = expect then (ifyes, fin) else (ifno, c :: fin)

/-- The `switch` at the end of `yylex`, for the operators: `c` has been
read. The argument of the outer `follow` is evaluated first. -/
def yylex (c : Char) (fin : List Char) : Token × List Char :=
  match c with
  | '+' => let (ifno, fin) := follow '=' .ADDEQ (.char '+') fin; follow '+' .INC ifno fin
  | '-' => let (ifno, fin) := follow '=' .SUBEQ (.char '-') fin; follow '-' .DEC ifno fin
  | '*' => follow '=' .MULEQ (.char '*') fin
  | '/' => follow '=' .DIVEQ (.char '/') fin
  | '%' => follow '=' .MODEQ (.char '%') fin
  | '>' => follow '=' .GE .GT fin
  | '<' => follow '=' .LE .LT fin
  | '=' => follow '=' .EQ (.char '=') fin
  | '!' => follow '=' .NE .NOT fin
  | '|' => follow '|' .OR (.char '|') fin
  | '&' => follow '&' .AND (.char '&') fin
  | c => (.char c, fin)

-- ======== longest match

def operators : List (List Char × Token) :=
  [(['+'], .char '+'), (['+', '+'], .INC), (['+', '='], .ADDEQ),
    (['-'], .char '-'), (['-', '-'], .DEC), (['-', '='], .SUBEQ),
    (['*'], .char '*'), (['*', '='], .MULEQ), (['/'], .char '/'), (['/', '='], .DIVEQ),
    (['%'], .char '%'), (['%', '='], .MODEQ), (['>'], .GT), (['>', '='], .GE),
    (['<'], .LT), (['<', '='], .LE), (['='], .char '='), (['=', '='], .EQ),
    (['!'], .NOT), (['!', '='], .NE), (['|'], .char '|'), (['|', '|'], .OR),
    (['&'], .char '&'), (['&', '&'], .AND)]

def operatorChars : List Char := ['+', '-', '*', '/', '%', '>', '<', '=', '!', '|', '&']

/-- The token and the rest are those of the longest operator that the input
starts with. -/
def LongestMatch (input : List Char) (r : Token × List Char) : Prop :=
  ∃ op ∈ operators, input = op.1 ++ r.2 ∧ r.1 = op.2 ∧
    ∀ op' ∈ operators, op'.1 <+: input → op'.1.length ≤ op.1.length

theorem length_operator : ∀ op ∈ operators, op.1.length ≤ 2 := by decide

variable {c d e : Char} {t y n : Token} {fin : List Char}

theorem longest_two (h : ([c, d], t) ∈ operators) : LongestMatch (c :: d :: fin) (t, fin) :=
  ⟨_, h, rfl, rfl, fun op hop _ => length_operator op hop⟩

/-- A single character, when no operator goes on with what follows. -/
theorem longest_one (h : ([c], t) ∈ operators)
    (hno : ∀ op ∈ operators, op.1.head? = some c → op.1 = [c] ∨ ¬ op.1.tail <+: fin) :
    LongestMatch (c :: fin) (t, fin) := by
  refine ⟨_, h, rfl, rfl, fun op hop hpre => ?_⟩
  cases hop' : op.1 with
  | nil => exact Nat.zero_le _
  | cons a l =>
    rw [hop', List.cons_prefix_cons] at hpre
    obtain ⟨rfl, hl⟩ := hpre
    rcases hno op hop (by rw [hop']; rfl) with h1 | h1
    · rw [← hop', h1]
    · rw [hop'] at h1
      exact absurd hl h1

/-- One call of `follow` is enough for an operator with one longer form. -/
theorem longest_follow (h2 : ([c, e], y) ∈ operators) (h1 : ([c], n) ∈ operators)
    (honly : ∀ op ∈ operators, op.1.head? = some c → op.1 = [c] ∨ op.1 = [c, e]) :
    LongestMatch (c :: fin) (follow e y n fin) := by
  have hone : ¬ [e] <+: fin → LongestMatch (c :: fin) (n, fin) := fun he =>
    longest_one h1 fun op hop hc => (honly op hop hc).imp_right fun h => by rw [h]; exact he
  cases fin with
  | nil => exact hone (by simp)
  | cons d fin =>
    by_cases hd : d = e
    · subst hd
      rw [follow, if_pos rfl]
      exact longest_two h2
    · rw [follow, if_neg hd]
      exact hone (by simpa [eq_comm] using hd)

/-- Two calls, for one with two: the inner one takes a `=` for good. -/
theorem longest_follow_follow (hc : c ≠ '=') (h3 : ([c, c], y) ∈ operators)
    (h2 : ([c, '='], t) ∈ operators) (h1 : ([c], n) ∈ operators) (honly : ∀ op ∈ operators,
      op.1.head? = some c → op.1 = [c] ∨ op.1 = [c, c] ∨ op.1 = [c, '=']) :
    LongestMatch (c :: fin) (follow c y (follow '=' t n fin).1 (follow '=' t n fin).2) ↔
      ¬ ['=', c] <+: fin := by
  cases fin with
  | nil => exact iff_of_true (longest_one h1 fun op hop hc =>
      (honly op hop hc).imp_right fun h => by rcases h with h | h <;> simp [h]) (by simp)
  | cons d fin =>
    by_cases hd : d = '='
    · subst hd
      rw [follow, if_pos rfl]
      cases fin with
      | nil => exact iff_of_true (longest_two h2) (by simp)
      | cons e fin =>
        by_cases he : e = c
        · -- three characters are taken
          subst he
          simp only [follow, if_true]
          refine iff_of_false ?_ (by simp)
          rintro ⟨op, hop, hin, -⟩
          have h₁ := length_operator op hop
          have h₂ := congrArg List.length hin
          simp only [List.length_cons, List.length_append] at h₂
          omega
        · rw [follow, if_neg he]
          exact iff_of_true (longest_two h2) (by simpa [eq_comm] using he)
    · rw [follow, if_neg hd]
      refine iff_of_true ?_ (by simp [Ne.symm hd])
      by_cases hdc : d = c
      · subst hdc
        rw [follow, if_pos rfl]
        exact longest_two h3
      · rw [follow, if_neg hdc]
        refine longest_one h1 fun op hop hc => (honly op hop hc).imp_right fun h => ?_
        rcases h with h | h
        · simpa [h] using Ne.symm hdc
        · simpa [h] using Ne.symm hd

/-- At every operator character and for every continuation: the token is
the longest one, and the rest is left, unless the input is `+=+..` or
`-=-..`. -/
theorem operator_longest_iff (c : Char) (hc : c ∈ operatorChars) (fin : List Char) :
    LongestMatch (c :: fin) (yylex c fin) ↔ ¬ ((c = '+' ∨ c = '-') ∧ ['=', c] <+: fin) := by
  simp only [operatorChars, List.mem_cons, List.not_mem_nil, or_false] at hc
  rcases hc with rfl | rfl | rfl | rfl | rfl | rfl | rfl | rfl | rfl | rfl | rfl
  · rw [and_iff_right (Or.inl rfl)]
    exact longest_follow_follow (by decide) (by decide) (by decide) (by decide) (by decide)
  · rw [and_iff_right (Or.inr rfl)]
    exact longest_follow_follow (by decide) (by decide) (by decide) (by decide) (by decide)
  all_goals
    exact iff_of_true (longest_follow (by decide) (by decide) (by decide)) fun h =>
      absurd h.1 (by decide)

theorem operator_longest_iff_inc : yylex '+' ['+', '='] = (.INC, ['=']) ∧
    LongestMatch ['+', '+', '='] (yylex '+' ['+', '=']) :=
  ⟨rfl, (operator_longest_iff '+' (by decide) ['+', '=']).mpr (by decide)⟩

/-- Of `a+=+1` the lexer makes the tokens of `a++1`. -/
theorem addeq_swallowed : yylex '+' ['=', '+', '1'] = (.INC, ['1']) ∧
    ¬ LongestMatch ['+', '=', '+', '1'] (yylex '+' ['=', '+', '1']) := by
  refine ⟨rfl, ?_⟩
  rintro ⟨op, hop, hin, -⟩
  have hall : ∀ op ∈ operators, ['+', '=', '+', '1'] ≠ op.1 ++ ['1'] := by decide
  exact hall op hop hin

end LearnLinux.Hoc
