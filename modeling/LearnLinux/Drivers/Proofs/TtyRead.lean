/-
Canonical reads: how many characters of the ring one `tty_read` takes.

With ICANON a read should end at the end of a line, and what stands behind
the last end of a line is not input yet: the user can still erase it. The
count `data` only decides whether a read may begin. The inner loop then goes
on to an EOF character, to the end of the ring or to the end of the request
(`reach`); a newline does not stop it. So a read stays within the line
(`canonical_read_one_line_iff`) if there is none to read, if the first line
is ended by EOF, or if the request or the ring ends with it.
-/
import LearnLinux.Drivers.Proofs.Tty

namespace LearnLinux.Tty

open Console Lib Queue

variable {tty : TtyStruct} {eof : Int} {cs : List Int} {nr : Nat}

-- ======== what should be read

/-- The characters of the first line with its end; none if it has no end
yet. -/
def lineLength (eof : Int) : List Int → Nat
  | [] => 0
  | c :: cs =>
    if c = eof ∨ c = 10 then 1
    else if lineLength eof cs = 0 then 0
    else lineLength eof cs + 1

/-- The line that the next read should be about. -/
def TtyStruct.lineLength (tty : TtyStruct) : Nat :=
  Tty.lineLength (cc tty.termios.veof) tty.secondary.contents

/-- A read delivers a beginning of the first line, and what follows the
line is still in the ring. -/
def ReadEnd.InLine (tty : TtyStruct) : ReadEnd → Prop
  | .returns cs tty' | .waits cs tty' =>
    cs <+: tty.secondary.contents.take tty.lineLength ∧
      tty.secondary.contents.drop tty.lineLength <:+ tty'.secondary.contents

-- ======== what is read

/-- The characters that the inner loop takes from the ring. -/
def reach (eof : Int) : Nat → List Int → Nat
  | 0, _ | _, [] => 0
  | nr + 1, c :: cs => if c = eof then 1 else reach eof nr cs + 1

theorem reach_le_length (eof : Int) (nr : Nat) (cs : List Int) : reach eof nr cs ≤ cs.length := by
  induction nr, cs using reach.induct eof with
  | case1 cs | case2 nr | case3 nr cs => simp [reach]
  | case4 nr c cs hc ih =>
    simp only [reach, if_neg hc, List.length_cons]
    omega

theorem reach_eq_zero (h : nr = 0 ∨ cs = []) : reach eof nr cs = 0 := by
  rcases h with rfl | rfl
  · simp [reach]
  · cases nr <;> rfl

theorem reach_pos (hnr : 0 < nr) (hcs : cs ≠ []) : 0 < reach eof nr cs := by
  cases nr with
  | zero => exact absurd hnr (Nat.lt_irrefl 0)
  | succ nr =>
    cases cs with
    | nil => exact absurd rfl hcs
    | cons c cs =>
      simp only [reach]
      split <;> omega

/-- The inner loop takes characters up to the `reach`, and delivers of them
what stands before an EOF character. -/
theorem readChars_spec (nr : Nat) (hcanon : tty.termios.icanon = true)
    (h : 0 < tty.secondary.chars) :
    (readChars nr tty).1 <+:
        tty.secondary.contents.take (reach (cc tty.termios.veof) nr tty.secondary.contents) ∧
      (readChars nr tty).2.secondary.contents =
        tty.secondary.contents.drop (reach (cc tty.termios.veof) nr tty.secondary.contents) := by
  induction nr generalizing tty with
  | zero => simp [readChars, reach]
  | succ nr ih =>
    rw [contents_get h]
    simp only [readChars, reach, hcanon, and_true]
    by_cases heof : tty.secondary.first = cc tty.termios.veof
    · rw [if_pos heof, if_pos heof]
      exact ⟨List.nil_prefix, rfl⟩
    rw [if_neg heof, if_neg heof, List.take_succ_cons, List.drop_succ_cons]
    by_cases hend : nr = 0 ∨ tty.getch.secondary.isEmpty = true
    · have hz : reach (cc tty.termios.veof) nr tty.secondary.get.contents = 0 :=
        reach_eq_zero (hend.imp_right fun he => contents_eq_nil (isEmpty_iff.1 he))
      rw [if_pos hend, hz]
      exact ⟨List.prefix_rfl, rfl⟩
    · rw [if_neg hend]
      have hpos : 0 < tty.getch.secondary.chars :=
        isEmpty_eq_false_iff.1 (Bool.not_eq_true _ ▸ (not_or.1 hend).2)
      have hcanon' : tty.getch.termios.icanon = true := hcanon
      obtain ⟨hcs, hrest⟩ := ih hcanon' hpos
      exact ⟨List.cons_prefix_cons.2 ⟨rfl, hcs⟩, hrest⟩

-- ======== how far it gets

/-- The loop stays in the line if the request or the ring ends with the
line, or if the line is ended by EOF. -/
theorem reach_le_lineLength_iff (hnr : 0 < nr) (hcs : cs ≠ []) :
    reach eof nr cs ≤ lineLength eof cs ↔
      nr ≤ lineLength eof cs ∨ cs.length ≤ lineLength eof cs ∨
        (cs.take (lineLength eof cs)).getLast? = some eof := by
  induction cs generalizing nr with
  | nil => exact absurd rfl hcs
  | cons c cs ih =>
    obtain ⟨nr, rfl⟩ := Nat.exists_eq_add_one_of_ne_zero (Nat.ne_of_gt hnr)
    simp only [reach, lineLength]
    by_cases heof : c = eof
    · simp [heof]
    rw [if_neg heof]
    by_cases hnl : c = 10
    · -- The loop goes on behind the newline, if it can.
      have hz : reach eof nr cs ≤ 0 ↔ nr = 0 ∨ cs = [] := by
        refine ⟨fun h => ?_, fun h => Nat.le_of_eq (reach_eq_zero h)⟩
        by_contra hne
        obtain ⟨hn, hc⟩ := not_or.1 hne
        exact Nat.not_lt.2 h (reach_pos (Nat.pos_of_ne_zero hn) hc)
      have h10 : ¬ (10 : Int) = eof := hnl ▸ heof
      simpa [hnl, h10] using hz
    rw [if_neg (not_or.2 ⟨heof, hnl⟩)]
    by_cases hline : lineLength eof cs = 0
    · simp [hline]
    rw [if_neg hline, List.take_succ_cons]
    have hcs : cs ≠ [] := fun h => hline (h ▸ rfl)
    have htake : cs.take (lineLength eof cs) ≠ [] := fun h =>
      (List.take_eq_nil_iff.1 h).elim hline hcs
    rw [List.getLast?_cons_of_ne_nil htake, List.length_cons, Nat.add_le_add_iff_right, Nat.add_le_add_iff_right,
      Nat.add_le_add_iff_right]
    rcases Nat.eq_zero_or_pos nr with rfl | hpos
    · simp [reach]
    · exact ih hpos hcs

-- ======== the reads of a line

theorem inLine_waits : ReadEnd.InLine tty (.waits [] tty) :=
  ⟨List.nil_prefix, List.drop_suffix _ _⟩

theorem inLine_readChars (hcanon : tty.termios.icanon = true)
    (h : 0 < tty.secondary.chars) :
    ReadEnd.InLine tty (.returns (readChars nr tty).1 (readChars nr tty).2) ↔
      reach (cc tty.termios.veof) nr tty.secondary.contents ≤ tty.lineLength := by
  obtain ⟨hcs, hrest⟩ := readChars_spec nr hcanon h
  have hle := reach_le_length (cc tty.termios.veof) nr tty.secondary.contents
  simp only [ReadEnd.InLine, hrest]
  constructor
  · intro ⟨_, hsuf⟩
    have hlen := hsuf.length_le
    simp only [List.length_drop] at hlen
    omega
  · intro hk
    exact ⟨hcs.trans (List.take_prefix_take_left hk), List.drop_suffix_drop_left _ hk⟩

/-- With ICANON and room for more than 20 characters, a read delivers only
characters of the first line, and takes nothing behind it, exactly if no end
of a line is counted, or the ring or the request ends with the line, or the
line is ended by EOF. -/
theorem canonical_read_in_line_iff (vmin vtime : Nat) (hcanon : tty.termios.icanon = true)
    (hleft : 20 < tty.secondary.left) (hnr : 0 < nr) :
    (ttyRead vmin vtime nr tty).InLine tty ↔
      tty.data = 0 ∨ nr ≤ tty.lineLength ∨
        tty.secondary.contents.length ≤ tty.lineLength ∨
        (tty.secondary.contents.take tty.lineLength).getLast? = some (cc tty.termios.veof) := by
  simp only [ttyRead, if_neg (Nat.ne_of_gt hnr), hcanon, hleft, true_and, and_true, true_or,
    if_true]
  by_cases hdata : tty.data = 0
  · simp only [hdata, or_true, if_true, true_or, iff_true]
    exact inLine_waits
  cases hempty : tty.secondary.isEmpty with
  | true =>
    have hnil : tty.secondary.contents = [] := contents_eq_nil (isEmpty_iff.1 hempty)
    simp only [true_or, if_true, hnil, List.length_nil, Nat.zero_le, or_true, iff_true]
    exact inLine_waits
  | false =>
    have hpos := isEmpty_eq_false_iff.1 hempty
    have hne : tty.secondary.contents ≠ [] := by
      rw [← List.length_pos_iff, length_contents]
      exact hpos
    simp only [hdata, Bool.false_eq_true, or_self, if_false, false_or]
    rw [inLine_readChars hcanon hpos]
    exact reach_le_lineLength_iff hnr hne

/-- A canonical line without echo. -/
def cooked : Line Unit :=
  boot .rsWrite { rawEcho with icanon := true, echo := false }
    (conInit display (fun _ => 0) 0 0)

/-- The user types a line, and the first character of the next one. -/
def typing : List (Op Unit) :=
  .input () [97, 10, 98] :: List.replicate 10 (.run ())

/-- The line then: what a read of ten characters would take, and what it
should take. -/
theorem typed : ∃ s, runOps (lineStep display blank) typing cooked = some s ∧
    s.tty.termios.icanon = true ∧ 20 < s.tty.secondary.left ∧
    s.tty.secondary.contents = [97, 10, 98] ∧ s.tty.lineLength = 2 ∧
    ∃ tty, ttyRead 1 0 10 s.tty = .returns [97, 10, 98] tty := by
  have hrun : (runOps (lineStep display blank) typing cooked).map (fun s =>
    (s.tty.secondary.contents, s.tty.data, s.tty.lineLength, s.tty.termios.icanon,
      (readChars 10 s.tty).1)) = some ([97, 10, 98], 1, 2, true, [97, 10, 98]) := by
    decide +kernel
  obtain ⟨s, hs, hall⟩ := Option.map_eq_some_iff.1 hrun
  simp only [Prod.mk.injEq] at hall
  obtain ⟨hcs, hdata, hline, hcanon, hread⟩ := hall
  have hchars : s.tty.secondary.chars = 3 := by
    rw [← length_contents, hcs]
    rfl
  have hempty : s.tty.secondary.isEmpty = false := isEmpty_eq_false_iff.2 (by omega)
  have hleft := s.tty.secondary.left_add_chars
  refine ⟨s, hs, hcanon, by omega, hcs, hline, (readChars 10 s.tty).2, ?_⟩
  simp [ttyRead, hcanon, hempty, hdata, hread]

/-- A read for two characters gets the line. -/
theorem canonical_read_in_line_iff_typed :
    ∃ s, runOps (lineStep display blank) typing cooked = some s ∧
      s.tty.secondary.contents = [97, 10, 98] ∧ (ttyRead 1 0 2 s.tty).InLine s.tty := by
  obtain ⟨s, hs, hcanon, hleft, hcs, hline, _⟩ := typed
  refine ⟨s, hs, hcs, (canonical_read_in_line_iff 1 0 hcanon hleft Nat.two_pos).2 ?_⟩
  exact .inr (.inl (Nat.le_of_eq hline.symm))

/-- A read for ten characters delivers the line, and the character behind it
that the user could still erase. -/
theorem read_passes_newline : ∃ s, runOps (lineStep display blank) typing cooked = some s ∧
      s.tty.termios.icanon = true ∧ 20 < s.tty.secondary.left ∧
      s.tty.secondary.contents = [97, 10, 98] ∧
      (∃ tty, ttyRead 1 0 10 s.tty = .returns [97, 10, 98] tty) ∧
      ¬ (ttyRead 1 0 10 s.tty).InLine s.tty := by
  obtain ⟨s, hs, hcanon, hleft, hcs, hline, tty, hread⟩ := typed
  refine ⟨s, hs, hcanon, hleft, hcs, ⟨tty, hread⟩, fun h => ?_⟩
  rw [hread, ReadEnd.InLine, hcs, hline] at h
  exact absurd h.1 (by decide)

end LearnLinux.Tty
