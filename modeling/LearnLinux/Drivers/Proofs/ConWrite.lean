/-
What `con_write` takes out of `write_q`.

`con_write` counts the characters once, at its start. A query in the stream
calls `copy_to_cooked` from inside its loop, and if that echoes anything, a
second `con_write` empties the ring under the first one, which then takes
characters that are not there.

# The measure

The two routines call each other, but not for ever. A query uses up an ESC:
one that is in `write_q`, that the parser has just met, or that is the echo
of a character in `read_q` (`supply`). The reply brings no such character.
Between two queries a round of `copy_to_cooked` takes a character out of
`read_q`, and a round of the loop that kills a line one out of `secondary`.

`Ends E` is the rule that carries the argument: the activation comes to its
end, or, if `E` allows it, `write_q` is underrun on the way. With `E` false
this is the proof that nothing goes wrong, with `E` true it is the proof
that something does.
-/
import LearnLinux.Drivers.Proofs.Parser
import LearnLinux.Drivers.Proofs.Tty

namespace LearnLinux.Tty

open Console Queue

variable {con : Con}

-- ======== the queries

/-- The queries that `con_write` meets in a stream. -/
def queries (g : Screen) (erase : Int) : Con → List Int → Nat
  | _, [] => 0
  | con, c :: cs =>
    (if (conChar g con erase c).2 then 1 else 0) + queries g erase (conChar g con erase c).1 cs

/-- The queries before the last character of `write_q`. -/
def earlyQueries (g : Screen) (tty : TtyStruct) : Nat :=
  queries g (cc tty.termios.verase) tty.con tty.writeQ.contents.dropLast

-- ======== the rule

/-- The machine gets from one state to another. -/
def Reaches (g : Screen) (o : Outside) : Call → Call → Prop :=
  Relation.ReflTransGen fun s s' => step g o s = some s'

/-- The activations `u` come to their end, whatever stands below them, or
`write_q` is underrun, if that is allowed. -/
def Ends (g : Screen) (o : Outside) (E : Prop) (tty : TtyStruct)
    (u : List Frame) (P : TtyStruct → Prop) : Prop :=
  ∀ rest, (∃ tty', Reaches g o ⟨tty, u ++ rest⟩ ⟨tty', rest⟩ ∧ P tty') ∨
    E ∧ ∃ s, Reaches g o ⟨tty, u ++ rest⟩ s ∧ s.tty.writeQ.underrun = true

variable {g : Screen} {o : Outside} {E : Prop} {tty tty' : TtyStruct} {c : Int}
  {f : Frame} {u v : List Frame} {P Q : TtyStruct → Prop}

theorem Ends.done (h : P tty) : Ends g o E tty [] P :=
  fun _ => .inl ⟨tty, .refl, h⟩

theorem step_cons {rest : List Frame} (h : stepFrame g o tty f = some (tty', v)) :
    step g o ⟨tty, f :: rest⟩ = some ⟨tty', v ++ rest⟩ := by
  simp only [step, h, Option.map_some]

theorem Ends.step (h : stepFrame g o tty f = some (tty', v))
    (hk : Ends g o E tty' (v ++ u) P) : Ends g o E tty (f :: u) P := by
  intro rest
  have hs : Tty.step g o ⟨tty, f :: (u ++ rest)⟩ = some ⟨tty', v ++ u ++ rest⟩ := by
    rw [step_cons h, List.append_assoc]
  rcases hk rest with ⟨tty'', hr, hp⟩ | ⟨hE, s, hr, hu⟩
  · exact .inl ⟨tty'', .head hs hr, hp⟩
  · exact .inr ⟨hE, s, .head hs hr, hu⟩

theorem Ends.underrun (hE : E) (h : tty.writeQ.underrun = true) : Ends g o E tty u P :=
  fun rest => .inr ⟨hE, ⟨tty, u ++ rest⟩, .refl, h⟩

theorem Ends.mono (h : Ends g o E tty u P) (hPQ : ∀ tty', P tty' → Q tty') :
    Ends g o E tty u Q := by
  intro rest
  rcases h rest with ⟨tty', hr, hp⟩ | hu
  · exact .inl ⟨tty', hr, hPQ tty' hp⟩
  · exact .inr hu

theorem Ends.seq (h : Ends g o E tty u P) (hk : ∀ tty', P tty' → Ends g o E tty' v Q) :
    Ends g o E tty (u ++ v) Q := by
  intro rest
  rw [List.append_assoc]
  rcases h (v ++ rest) with ⟨tty', hr, hp⟩ | hu
  · rcases hk tty' hp rest with ⟨tty'', hr', hq⟩ | ⟨hE, s, hr', hu⟩
    · exact .inl ⟨tty'', hr.trans hr', hq⟩
    · exact .inr ⟨hE, s, hr.trans hr', hu⟩
  · exact .inr hu

-- ======== the supply

/-- The echo of this character is an ESC. -/
def escapes (o : Outside) (t : Termios) (c : Int) : Bool :=
  cook o t c = .keep (-37)

/-- What queries can still be made of. -/
def supply (o : Outside) (tty : TtyStruct) : Nat :=
  tty.writeQ.contents.countP (· == 27) + (if tty.con.state = .esc then 1 else 0) +
    tty.readQ.contents.countP (escapes o tty.termios)

/-- The line after a round of `con_write`. -/
def drawn (g : Screen) (tty : TtyStruct) : TtyStruct :=
  { tty with
    writeQ := tty.writeQ.get
    con := (conChar g tty.con (cc tty.termios.verase) tty.writeQ.first).1 }

@[simp] theorem drawn_termios : (drawn g tty).termios = tty.termios := by
  simp only [drawn]

@[simp] theorem drawn_write : (drawn g tty).write = tty.write := by
  simp only [drawn]

@[simp] theorem drawn_readQ : (drawn g tty).readQ = tty.readQ := by
  simp only [drawn]

@[simp] theorem drawn_writeQ : (drawn g tty).writeQ = tty.writeQ.get := by
  simp only [drawn]

@[simp] theorem drawn_secondary : (drawn g tty).secondary = tty.secondary := by
  simp only [drawn]

/-- The next character of `write_q` is a query. -/
def asked (g : Screen) (tty : TtyStruct) : Bool :=
  (conChar g tty.con (cc tty.termios.verase) tty.writeQ.first).2

theorem stepFrame_conWrite (nr : Nat) : stepFrame g o tty (.conWrite (nr + 1)) = some (drawn g tty,
        if asked g tty then [.respond, .conWrite nr] else [.conWrite nr]) :=
  rfl

theorem supply_drawn (h : 0 < tty.writeQ.chars) : supply o (drawn g tty) ≤ supply o tty := by
  unfold supply drawn
  dsimp only
  rw [contents_get h, List.countP_cons]
  by_cases hs : (conChar g tty.con (cc tty.termios.verase) tty.writeQ.first).1.state = .esc
  · obtain ⟨hn, hc⟩ := state_of_conChar_esc g tty.con hs
    rw [if_pos hs, hn, hc]
    simp
  · rw [if_neg hs]
    omega

theorem supply_asked (h : 0 < tty.writeQ.chars) (hq : asked g tty = true) :
    supply o (drawn g tty) + 1 ≤ supply o tty := by
  obtain ⟨hs, hc⟩ := of_conChar_query g tty.con hq
  have hne : (conChar g tty.con (cc tty.termios.verase) tty.writeQ.first).1.state ≠ .esc := by
    intro h'
    have := (state_of_conChar_esc g tty.con h').1
    rw [hs] at this
    cases this
  unfold supply drawn
  dsimp only
  rw [contents_get h, List.countP_cons, if_neg hne, if_pos hs]
  omega

theorem cook_response (t : Termios) (h : c ∈ RESPONSE) : escapes o t c = false := by
  unfold escapes
  rw [decide_eq_false_iff_not]
  have hsp : ∀ d, special t d = .keep (-37) → d = -37 := by
    intro d hd
    unfold special at hd
    split_ifs at hd
    exact Cooked.keep.inj hd
  have hlow : tolower o c = c ∧ translate t c = some c ∧ c ≠ -37 := by
    simp only [RESPONSE, List.mem_cons, List.not_mem_nil, or_false] at h
    rcases h with rfl | rfl | rfl | rfl | rfl | rfl | rfl <;> simp [tolower, isupper, translate]
  intro hk
  rw [cook, hlow.2.1] at hk
  dsimp only at hk
  rw [hlow.1, ite_self] at hk
  exact hlow.2.2 (hsp c hk)

/-- The reply brings nothing to make a query of. -/
theorem supply_respond :
    supply o { tty with readQ := tty.readQ.putAll RESPONSE } ≤ supply o tty := by
  have h := countP_putAll_le (escapes o tty.termios) tty.readQ RESPONSE
  have h0 : RESPONSE.countP (escapes o tty.termios) = 0 := by
    rw [List.countP_eq_zero]
    intro c hc
    rw [cook_response tty.termios hc]
    exact Bool.false_ne_true
  unfold supply
  dsimp only
  omega

theorem supply_put (tty : TtyStruct) (c : Int) : supply o { tty with writeQ := tty.writeQ.put c } ≤
      supply o tty + if c == 27 then 1 else 0 := by
  have h := countP_put_le (· == 27) tty.writeQ c
  unfold supply
  dsimp only at h ⊢
  omega

theorem supply_get (h : 0 < tty.readQ.chars) : supply o { tty with readQ := tty.readQ.get } +
      (if escapes o tty.termios tty.readQ.first then 1 else 0) = supply o tty := by
  unfold supply
  dsimp only
  rw [contents_get h, List.countP_cons]
  omega

theorem countP_echoOf (t : Termios) (c : Int) :
    (echoOf t c).countP (· == 27) ≤ if c = -37 then 1 else 0 := by
  unfold echoOf
  split
  · simp
  · split
    · rename_i hlt
      split
      · by_cases h : c = -37
        · simp [h]
        · have hne : c + 64 ≠ 27 := by omega
          simp [h, hne]
      · exact Nat.zero_le _
    · rename_i hge
      have hne : c ≠ 27 := by omega
      simp [hne]

theorem countP_rubOut (tty : TtyStruct) : (rubOut tty).countP (· == 27) = 0 := by
  unfold rubOut
  split <;> rfl

-- ======== the first con_write

/-- What stays as it is along a call on the console. -/
structure Good (t : Termios) (tty : TtyStruct) : Prop where
  termios : tty.termios = t
  write : tty.write = .conWrite
  sound : tty.writeQ.underrun = false

/-- What `copy_to_cooked` leaves, with a supply of at most `n`. -/
structure Out (o : Outside) (t : Termios) (n : Nat) (tty tty' : TtyStruct) : Prop where
  good : Good t tty'
  supply_le : supply o tty' ≤ n
  writeQ : tty'.writeQ = tty.writeQ ∨ t.echo = true ∧ tty'.writeQ.chars = 0

/-- What a `con_write` leaves. -/
structure Drained (o : Outside) (t : Termios) (n : Nat) (tty tty' : TtyStruct) : Prop where
  good : Good t tty'
  chars : tty'.writeQ.chars = 0
  supply : supply o tty' < n ∨ supply o tty' ≤ n ∧
    tty'.readQ = tty.readQ ∧ tty'.secondary = tty.secondary

/-- Nothing goes wrong in a `copy_to_cooked` that is called here. -/
def Alone (E : Prop) (t : Termios) (tty : TtyStruct) : Prop :=
  E ∨ t.echo = false ∨ tty.writeQ.chars = 0

/-- Calls of `copy_to_cooked` with a supply of at most `m` end. -/
def CookedEnds (g : Screen) (o : Outside) (E : Prop) (t : Termios) (m : Nat) : Prop :=
  ∀ tty, Good t tty → supply o tty ≤ m → Alone E t tty → Ends g o E tty [.cooked] (Out o t m tty)

variable {t : Termios} {n k w : Nat} {cs : List Int} {next : After}

theorem Good.drawn (h : Good t tty) (hc : 0 < tty.writeQ.chars) : Good t (drawn g tty) where
  termios := by rw [drawn_termios, h.termios]
  write := by rw [drawn_write, h.write]
  sound := by
    rw [drawn_writeQ]
    show (tty.writeQ.underrun || tty.writeQ.isEmpty) = false
    rw [h.sound, isEmpty_eq_false_iff.2 hc]
    rfl

theorem drawn_chars (h : tty.writeQ.chars = k + 1) : (drawn g tty).writeQ.chars = k := by
  have hget := chars_get (q := tty.writeQ) (by omega)
  rw [drawn_writeQ]
  exact Nat.succ.inj (hget.trans h)

/-- The early queries, one character further. -/
theorem earlyQueries_drawn (h : 1 < tty.writeQ.chars) : earlyQueries g tty =
      (if asked g tty then 1 else 0) + earlyQueries g (drawn g tty) := by
  have hne : tty.writeQ.get.contents ≠ [] := by
    intro hnil
    have hget := chars_get (q := tty.writeQ) (by omega)
    have hlen := length_contents tty.writeQ.get
    rw [hnil, List.length_nil] at hlen
    omega
  unfold earlyQueries
  rw [contents_get (show 0 < tty.writeQ.chars by omega), List.dropLast_cons_of_ne_nil hne]
  rfl

/-- GETCH with nothing there. -/
theorem Ends.empty (hE : E) (h : tty.writeQ.chars = 0) :
    Ends g o E tty (.conWrite (k + 1) :: u) P := by
  refine Ends.step (stepFrame_conWrite k) (Ends.underrun hE ?_)
  show (tty.writeQ.underrun || tty.writeQ.isEmpty) = true
  rw [isEmpty_iff.2 h, Bool.or_true]

/-- A query is answered: the rest of `con_write` finds `write_q` as it was,
or empty. -/
theorem respond_ends (ih : CookedEnds g o E t n) (hg : Good t tty)
    (hs : supply o tty ≤ n) (ha : Alone E t tty) : Ends g o E tty [.respond] (Out o t n tty) := by
  refine Ends.step rfl ?_
  have hg' : Good t { tty with readQ := tty.readQ.putAll RESPONSE } :=
    ⟨hg.termios, hg.write, hg.sound⟩
  have hs' : supply o { tty with readQ := tty.readQ.putAll RESPONSE } ≤ n :=
    Nat.le_trans supply_respond hs
  have ha' : Alone E t { tty with readQ := tty.readQ.putAll RESPONSE } := by
    exact ha
  exact (ih _ hg' hs' ha').mono fun _ h => ⟨h.good, h.supply_le, h.writeQ⟩

theorem earlyQueries_eq_zero (h : tty.writeQ.chars ≤ 1) : earlyQueries g tty = 0 := by
  have hnil : tty.writeQ.contents.dropLast = [] := by
    rw [← List.length_eq_zero_iff, List.length_dropLast, length_contents]
    omega
  rw [earlyQueries, hnil]
  rfl

theorem conWrite_ends (ih : ∀ m < n, CookedEnds g o E t m)
    (hg : Good t tty) (hs : supply o tty ≤ n) (hk : tty.writeQ.chars = k)
    (ha : E ∨ t.echo = false ∨ earlyQueries g tty = 0) :
    Ends g o E tty [.conWrite k] (Drained o t n tty) := by
  induction k generalizing n tty with
  | zero => exact Ends.step rfl (Ends.done ⟨hg, hk, .inr ⟨hs, rfl, rfl⟩⟩)
  | succ k ihk =>
    have hpos : 0 < tty.writeQ.chars := by omega
    have hk' := drawn_chars (g := g) hk
    have hg' := hg.drawn (g := g) hpos
    refine Ends.step (stepFrame_conWrite k) ?_
    cases hq : asked g tty with
    | false =>
      have hs' := supply_drawn (g := g) (o := o) hpos
      have hrest : E ∨ t.echo = false ∨ earlyQueries g (drawn g tty) = 0 := by
        refine ha.imp_right (Or.imp_right fun h0 => ?_)
        by_cases hk0 : k = 0
        · exact earlyQueries_eq_zero (by omega)
        · rw [earlyQueries_drawn (by omega), hq] at h0
          exact (Nat.zero_add _).symm.trans h0
      have h1 := ihk ih hg' (Nat.le_trans hs' hs) hk' hrest
      refine h1.mono fun _ h => ⟨h.good, h.chars, ?_⟩
      rw [← drawn_readQ (g := g), ← drawn_secondary (g := g)]
      exact h.supply
    | true =>
      have hs' := supply_asked (o := o) hpos hq
      obtain ⟨m, rfl⟩ : ∃ m, n = m + 1 := ⟨n - 1, by omega⟩
      -- a query that is not the last character is an early one
      have hmid : E ∨ t.echo = false ∨ k = 0 := by
        refine ha.imp_right (Or.imp_right fun h0 => ?_)
        by_contra hk0
        rw [earlyQueries_drawn (by omega), hq, if_pos rfl] at h0
        omega
      have hal : Alone E t (drawn g tty) :=
        hmid.imp_right (Or.imp_right fun hk0 => hk'.trans hk0)
      have hresp := respond_ends (ih m (Nat.lt_succ_self m)) hg' (by omega) hal
      refine Ends.seq (v := [.conWrite k]) hresp fun tty1 h1 => ?_
      -- the rest of the loop, with a smaller supply
      have hdrain : tty1.writeQ.chars = k →
          Ends g o E tty1 [.conWrite k] (Drained o t (m + 1) tty) := by
        intro hc
        have h2 := ihk (fun i hi => ih i (by omega)) h1.good
          h1.supply_le hc (hmid.imp_right (Or.imp_right fun hk0 =>
            earlyQueries_eq_zero (by omega)))
        refine h2.mono fun tty2 hd => ⟨hd.good, hd.chars, .inl ?_⟩
        rcases hd.supply with hlt | hle
        · omega
        · omega
      rcases h1.writeQ with hw | ⟨he, h0⟩
      · exact hdrain (by rw [hw, hk'])
      · rcases hmid with hE | he' | hk0
        · cases k with
          | zero => exact hdrain h0
          | succ k => exact Ends.empty hE h0
        · rw [he] at he'
          cases he'
        · exact hdrain (h0.trans hk0.symm)

-- ======== copy_to_cooked

/-- The echo is put into `write_q` and written; then the activation goes on
with an empty `write_q`. -/
theorem echo_ends (ih : ∀ m < n, CookedEnds g o E t m)
    (hg : Good t tty) (hs : supply o tty + cs.countP (· == 27) ≤ n)
    (ha : E ∨ tty.writeQ.chars + cs.length ≤ 1023 ∧ queries g (cc t.verase) tty.con
        (tty.writeQ.contents ++ cs).dropLast = 0) (hafter : ∀ tty', Drained o t n tty tty' →
      Ends g o E tty' [.after next] P) : Ends g o E tty [.echo cs next] P := by
  induction cs generalizing tty with
  | nil =>
    have hcall : callWrite tty = [.conWrite tty.writeQ.chars] := by
      rw [callWrite, hg.write]
    refine Ends.step (v := [.conWrite tty.writeQ.chars, .after next])
      (by rw [stepFrame, hcall]; rfl) ?_
    have hw := conWrite_ends ih hg (by simpa using hs) rfl (ha.imp_right fun h => .inr (by
        rw [earlyQueries, hg.termios]
        simpa using h.2))
    exact Ends.seq (v := [.after next]) hw hafter
  | cons c cs ihc =>
    rw [List.countP_cons] at hs
    rw [List.length_cons] at ha
    refine Ends.step rfl ?_
    have hput := supply_put (o := o) tty c
    apply ihc
    · exact ⟨hg.termios, hg.write, hg.sound⟩
    · omega
    · refine ha.imp_right fun h => ?_
      rw [chars_put (by omega), contents_put (by omega), List.append_assoc]
      exact ⟨by omega, h.2⟩
    · intro tty' h
      exact hafter tty' ⟨h.good, h.chars, h.supply⟩

/-- One character that is not a 'Z' is no query. -/
theorem queries_singleton {e : Int} (h : c ≠ 90) : queries g e con [c] = 0 := by
  have hq : (conChar g con e c).2 = false := by
    rw [← Bool.not_eq_true]
    intro hq
    exact h (of_conChar_query g con hq).2
  simp [queries, hq]

/-- An echo has at most two characters, the first of them not a 'Z'. -/
theorem queries_echoOf (c e : Int) :
    (echoOf t c).length ≤ 2 ∧ queries g e con (echoOf t c).dropLast = 0 := by
  unfold echoOf
  split_ifs
  · exact ⟨by decide, queries_singleton (by decide)⟩
  · exact ⟨by simp, queries_singleton (by decide)⟩
  · exact ⟨by decide, rfl⟩
  · exact ⟨by simp, rfl⟩

theorem queries_rubOut (e : Int) :
    (rubOut tty).length ≤ 2 ∧ queries g e con (rubOut tty).dropLast = 0 := by
  unfold rubOut
  split
  · exact ⟨by decide, queries_singleton (by decide)⟩
  · exact ⟨by decide, rfl⟩

/-- The loops of `copy_to_cooked`. -/
inductive Loop : Frame → Prop where
  | cooked : Loop .cooked
  | killLine : Loop .killLine

/-- What a round of these loops uses up, if it meets no query. -/
def weight (tty : TtyStruct) (f : Frame) : Nat :=
  2 * tty.readQ.chars + if f = .killLine then 1 else 0

/-- The loops end for every line that comes before this one: with a smaller
supply, or with the same and less to do. -/
structure Before (g : Screen) (o : Outside) (E : Prop) (t : Termios) (n w k : Nat) : Prop where
  supply : ∀ m < n, ∀ {tty f}, Loop f → Good t tty → supply o tty ≤ m →
    Alone E t tty → Ends g o E tty [f] (Out o t m tty)
  round : ∀ {tty f}, Loop f → Good t tty → Tty.supply o tty ≤ n →
    weight tty f < w ∨ weight tty f ≤ w ∧ tty.secondary.chars < k →
    Alone E t tty → Ends g o E tty [f] (Out o t n tty)

/-- The loops go on from a line whose `write_q` is as it was or empty. -/
theorem Before.resume (h : Before g o E t n w k) (hf : Loop f)
    (ha : Alone E t tty) (hg : Good t tty') (hs : Tty.supply o tty' ≤ n)
    (hless : Tty.supply o tty' < n ∨ weight tty' f < w ∨
      weight tty' f ≤ w ∧ tty'.secondary.chars < k)
    (hw : tty'.writeQ = tty.writeQ ∨ t.echo = true ∧ tty'.writeQ.chars = 0) :
    Ends g o E tty' [f] (Out o t n tty) := by
  have ha' : Alone E t tty' := by
    rcases hw with hw | ⟨-, h0⟩
    · unfold Alone
      rw [hw]
      exact ha
    · exact .inr (.inr h0)
  have hout : ∀ m ≤ n, ∀ tty'', Out o t m tty' tty'' → Out o t n tty tty'' := by
    intro m hm tty'' h2
    refine ⟨h2.good, Nat.le_trans h2.supply_le hm, ?_⟩
    rcases h2.writeQ with hw2 | h0
    · rcases hw with hw | ⟨he, h0⟩
      · exact .inl (hw2.trans hw)
      · exact .inr ⟨he, by rw [hw2, h0]⟩
    · exact .inr h0
  rcases hless with hlt | hless
  · exact (h.supply _ hlt hf hg (Nat.le_refl _) ha').mono (hout _ (Nat.le_of_lt hlt))
  · exact (h.round hf hg hs hless ha').mono (hout n (Nat.le_refl n))

/-- The loop that goes on after an echo. -/
def loopOf : After → Frame
  | .kill => .killLine
  | _ => .cooked

theorem loop_loopOf (next : After) : Loop (loopOf next) := by
  cases next with
  | store c seen | erase => exact .cooked
  | kill => exact .killLine

/-- What follows an echo changes `secondary` only. -/
theorem continued_eq (next : After) (tty : TtyStruct) : ∃ q, continued tty next =
      ({ tty with secondary := q }, [loopOf next]) ∧ (next = .kill → 0 < tty.secondary.chars →
          q.chars + 1 = tty.secondary.chars) := by
  cases next with
  | store c seen | erase => exact ⟨_, rfl, nofun⟩
  | kill => exact ⟨_, rfl, fun _ => chars_dec⟩

/-- A character is echoed, if ECHO is set, and then kept or rubbed out;
`tty₀` is the line at the start of the loop. -/
theorem echoing_ends {tty0 : TtyStruct} (h : Before g o E t n w k) (ha : Alone E t tty0)
    (hg : Good t tty) (hw : tty.writeQ = tty0.writeQ)
    (hs : Tty.supply o tty + cs.countP (· == 27) ≤ n) (hcs : cs.length ≤ 2 ∧
      queries g (cc t.verase) tty.con cs.dropLast = 0) (hless : weight tty (loopOf next) < w ∨
      weight tty (loopOf next) ≤ w ∧ next = .kill ∧
        0 < tty.secondary.chars ∧ tty.secondary.chars ≤ k) :
    Ends g o E tty [echoing tty cs next] (Out o t n tty0) := by
  have hcont : ∀ tty', Good t tty' → Tty.supply o tty' ≤ n →
      (Tty.supply o tty' < n ∨ tty'.readQ = tty.readQ ∧ tty'.secondary = tty.secondary) →
      (tty'.writeQ = tty0.writeQ ∨ t.echo = true ∧ tty'.writeQ.chars = 0) →
      Ends g o E tty' [.after next] (Out o t n tty0) := by
    intro tty' hg' hs' hsame hw'
    obtain ⟨q, hq, hdec⟩ := continued_eq next tty'
    refine Ends.step (congrArg some hq) ?_
    refine h.resume (loop_loopOf next) ha ⟨hg'.termios, hg'.write, hg'.sound⟩ hs' ?_ hw'
    refine hsame.imp_right fun ⟨hr, hsec⟩ => ?_
    have hwt : weight { tty' with secondary := q } (loopOf next) = weight tty (loopOf next) := by
      simp only [weight, hr]
    rw [hwt]
    refine hless.imp_right fun ⟨hle, hkill, hpos, hk⟩ => ⟨hle, ?_⟩
    rw [hsec] at hdec
    have heq := hdec hkill hpos
    show q.chars < k
    omega
  unfold echoing
  split
  · rename_i he
    rw [hg.termios] at he
    refine echo_ends (fun m hm tty' hg' hs' ha' =>
      h.supply m hm .cooked hg' hs' ha') hg hs ?_ fun tty' hd => ?_
    · refine ha.imp_right fun ha => ?_
      rcases ha with he' | h0
      · rw [he] at he'
        cases he'
      · rw [← hw] at h0
        rw [h0, contents_eq_nil h0]
        exact ⟨by omega, hcs.2⟩
    · refine hcont tty' hd.good ?_ ?_ (.inr ⟨he, hd.chars⟩)
      · rcases hd.supply with hlt | hle
        · exact Nat.le_of_lt hlt
        · exact hle.1
      · exact hd.supply.imp_right fun h => h.2
  · exact hcont tty hg (by omega) (.inr ⟨rfl, rfl⟩) (.inl hw)

/-- There is something to rub out. -/
theorem chars_of_lineStart (h : lineStart tty = false) : 0 < tty.secondary.chars := by
  unfold lineStart at h
  rw [Bool.or_eq_false_iff, Bool.or_eq_false_iff] at h
  exact isEmpty_eq_false_iff.1 h.1.1

/-- A round of the loop that kills a line. -/
theorem killLine_round (h : Before g o E t n w k) (hg : Good t tty) (hs : Tty.supply o tty ≤ n)
    (hwt : weight tty .killLine ≤ w) (hk : tty.secondary.chars ≤ k)
    (ha : Alone E t tty) : Ends g o E tty [.killLine] (Out o t n tty) := by
  cases hl : lineStart tty with
  | true =>
    have hstep : stepFrame g o tty .killLine = some (tty, [.cooked]) := by
      rw [stepFrame, hl]
      rfl
    refine Ends.step hstep ?_
    refine h.resume .cooked ha hg hs (.inr (.inl ?_)) (.inl rfl)
    simp only [weight, reduceIte, reduceCtorEq] at hwt ⊢
    omega
  | false =>
    have hstep : stepFrame g o tty .killLine = some (tty, [echoing tty (rubOut tty) .kill]) := by
      rw [stepFrame, hl]
      rfl
    refine Ends.step hstep ?_
    have hrub := countP_rubOut tty
    refine echoing_ends h ha hg rfl (by omega) (queries_rubOut _) (.inr ⟨hwt, rfl, ?_, hk⟩)
    exact chars_of_lineStart hl

/-- The line with the next character of `read_q` taken. -/
def taken (tty : TtyStruct) : TtyStruct :=
  { tty with readQ := tty.readQ.get }

/-- What a round of `copy_to_cooked` does behind its test: the character is
swallowed, the line is killed, a character is erased, or one is kept. -/
theorem Ends.fetch {seen : Nat} {P : TtyStruct → Prop}
    (hcooked : ∀ b, cook o tty.termios tty.readQ.first = .drop ∨
      cook o tty.termios tty.readQ.first = .stop b ∨
      cook o tty.termios tty.readQ.first = .erase ∧ lineStart (taken tty) = true →
      Ends g o E { taken tty with stopped := b } [.cooked] P)
    (hkill : cook o tty.termios tty.readQ.first = .kill → Ends g o E (taken tty) [.killLine] P)
    (herase : cook o tty.termios tty.readQ.first = .erase → lineStart (taken tty) = false →
      Ends g o E (taken tty) [echoing (taken tty) (rubOut (taken tty)) .erase] P)
    (hkeep : ∀ c d, cook o tty.termios tty.readQ.first = .keep c →
      Ends g o E { taken tty with data := d }
        [echoing { taken tty with data := d } (echoOf tty.termios c) (.store c seen)] P) :
    Ends g o E tty [.fetch seen] P := by
  suffices h : Ends g o E (fetched o tty seen).1 (fetched o tty seen).2 P by
    refine Ends.step rfl ?_
    rwa [List.append_nil]
  unfold fetched
  dsimp only
  cases hc : cook o tty.termios tty.readQ.first with
  | drop => exact hcooked tty.stopped (.inl hc)
  | stop b => exact hcooked b (.inr (.inl hc))
  | kill => exact hkill hc
  | erase =>
    cases hl : lineStart (taken tty) with
    | true =>
      simp only [show lineStart { tty with readQ := tty.readQ.get } = true from hl, if_true]
      exact hcooked tty.stopped (.inr (.inr ⟨hc, hl⟩))
    | false =>
      simp only [show lineStart { tty with readQ := tty.readQ.get } = false from hl,
        Bool.false_eq_true, if_false]
      exact herase hc hl
  | keep c => exact hkeep c _ hc

/-- A round of `copy_to_cooked`, behind its test. -/
theorem fetch_round {seen : Nat} (h : Before g o E t n w k)
    (hg : Good t tty) (hs : Tty.supply o tty ≤ n)
    (hwt : weight tty .cooked ≤ w) (hr : 0 < tty.readQ.chars) (ha : Alone E t tty) :
    Ends g o E tty [.fetch seen] (Out o t n tty) := by
  have hg' : Good t (taken tty) := ⟨hg.termios, hg.write, hg.sound⟩
  have hs' : Tty.supply o (taken tty) + _ = _ := supply_get hr
  have hget : (taken tty).readQ.chars + 1 = tty.readQ.chars := chars_get hr
  have hcooked : weight (taken tty) .cooked < w := by
    simp only [weight, reduceCtorEq, reduceIte] at hwt ⊢
    omega
  have hkill : weight (taken tty) .killLine < w := by
    simp only [weight, reduceCtorEq, reduceIte] at hwt ⊢
    omega
  have hle : Tty.supply o (taken tty) ≤ n := by omega
  refine Ends.fetch (fun b _ => ?_) (fun _ => ?_) (fun _ hl => ?_) fun c d hc => ?_
  · exact h.resume .cooked ha ⟨hg.termios, hg.write, hg.sound⟩ hle (.inr (.inl hcooked)) (.inl rfl)
  · exact h.resume .killLine ha hg' hle (.inr (.inl hkill)) (.inl rfl)
  · have hrub := countP_rubOut (taken tty)
    exact echoing_ends h ha hg' rfl (by omega) (queries_rubOut _) (.inl hcooked)
  · -- an ESC in the echo is one that `read_q` had
    have hesc := countP_echoOf t c
    have hin : escapes o tty.termios tty.readQ.first = decide (c = -37) := by
      rw [escapes, hc, decide_eq_decide]
      exact ⟨Cooked.keep.inj, congrArg _⟩
    rw [hin] at hs'
    have hsup : Tty.supply o (taken tty) + (echoOf t c).countP (· == 27) ≤ n := by
      by_cases h37 : c = -37
      · simp only [h37, if_true, decide_true] at hs' hesc ⊢
        omega
      · simp only [h37, if_false, decide_false, Bool.false_eq_true] at hs' hesc ⊢
        omega
    rw [hg.termios]
    exact echoing_ends h ha ⟨hg.termios, hg.write, hg.sound⟩ rfl hsup (queries_echoOf c _)
      (.inl hcooked)

/-- `copy_to_cooked` comes to its end, from each of its loops. -/
theorem loop_ends (n w k : Nat) {tty : TtyStruct} {f : Frame} (hf : Loop f)
    (hg : Good t tty) (hs : supply o tty ≤ n) (hw : weight tty f ≤ w)
    (hk : tty.secondary.chars ≤ k) (ha : Alone E t tty) : Ends g o E tty [f] (Out o t n tty) := by
  -- by the supply, then by `read_q`, then by `secondary`
  induction n using Nat.strongRecOn generalizing w k tty f with
  | ind n ihn =>
  induction w using Nat.strongRecOn generalizing k tty f with
  | ind w ihw =>
  induction k using Nat.strongRecOn generalizing tty f with
  | ind k ihk =>
  have hbefore : Before g o E t n w k :=
    { supply := fun m hm _ _ hf hg hs ha =>
      ihn m hm _ _ hf hg hs (Nat.le_refl _) (Nat.le_refl _) ha
      round := by
        intro tty f hf hg hs hless ha
        rcases hless with hlt | ⟨hle, hlt⟩
        · exact ihw _ hlt _ hf hg hs (Nat.le_refl _) (Nat.le_refl _) ha
        · exact ihk _ hlt hf hg hs hle (Nat.le_refl _) ha }
  cases hf with
  | killLine => exact killLine_round hbefore hg hs hw hk ha
  | cooked =>
    cases htest : tty.readQ.isEmpty || tty.secondary.isFull with
    | true =>
      have hstep : stepFrame g o tty .cooked = some (tty, []) := by
        rw [stepFrame, htest]
        rfl
      exact Ends.step hstep (Ends.done ⟨hg, hs, .inl rfl⟩)
    | false =>
      have hstep : stepFrame g o tty .cooked = some (tty, [.fetch tty.secondary.grown]) := by
        rw [stepFrame, htest]
        rfl
      have hr := isEmpty_eq_false_iff.1 (Bool.or_eq_false_iff.1 htest).1
      exact Ends.step hstep (fetch_round hbefore hg hs hw hr ha)

theorem cookedEnds (m : Nat) : CookedEnds g o E t m :=
  fun _ hg hs ha =>
    loop_ends m _ _ .cooked hg hs (Nat.le_refl _) (Nat.le_refl _) ha

end LearnLinux.Tty
