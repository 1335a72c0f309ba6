/-
When `con_write` takes only what is in `write_q`.

A query at the end of the stream does no harm: the rings of the nested calls
are empty when they start. A query before the end is answered while the rest
of the stream still waits, and the first echo, of the reply or of anything
that was in `read_q`, writes that rest too. So all depends on whether
`copy_to_cooked` has anything to echo there. It is silent if ECHO is off or
`secondary` is full, and otherwise only if it swallows every character that
it finds (`cooked_quiet`); one that it does not swallow empties `write_q`
(`cooked_loud`).
-/
import LearnLinux.Drivers.Proofs.ConWrite

namespace LearnLinux.Tty

open Console Queue

variable {g : Screen} {o : Outside} {E : Prop} {tty tty' : TtyStruct} {seen k : Nat} {s s' : Call}
  {f : Frame} {P : TtyStruct → Prop} {t : Termios}

-- ======== the condition

/-- A character of `read_q` that `copy_to_cooked` swallows without a word,
with ECHO set. -/
def quiet (o : Outside) (tty : TtyStruct) (c : Int) : Bool :=
  match cook o tty.termios c with
  | .drop => true
  | .stop _ => true
  | .kill => lineStart tty
  | .erase => lineStart tty
  | .keep _ => false

/-- No query before the last character of `write_q` leads to an echo: ECHO
is off, `secondary` is full, there is no such query, or `copy_to_cooked`
swallows all it finds, at the first query what was in `read_q` too. -/
def Calm (g : Screen) (o : Outside) (tty : TtyStruct) : Prop :=
  tty.termios.echo = false ∨ tty.secondary.isFull = true ∨ earlyQueries g tty = 0 ∨
    (tty.readQ.putAll RESPONSE).contents.all (quiet o tty) = true ∧
      (2 ≤ earlyQueries g tty → RESPONSE.all (quiet o tty) = true)

-- ======== quiet and loud

/-- `copy_to_cooked` finds a character. -/
theorem stepFrame_cooked (hr : 0 < tty.readQ.chars) (hfull : tty.secondary.isFull = false) :
    stepFrame g o tty .cooked = some (tty, [.fetch tty.secondary.grown]) := by
  rw [stepFrame, isEmpty_eq_false_iff.2 hr, hfull]
  rfl

/-- A character is swallowed. -/
theorem fetch_quiet (hq : quiet o tty tty.readQ.first = true)
    (h : ∀ b, Ends g o E { tty with readQ := tty.readQ.get, stopped := b } [.cooked] P) :
    Ends g o E tty [.fetch seen] P := by
  unfold quiet at hq
  refine Ends.fetch (fun b _ => h b) (fun hc => ?_) (fun hc hl => ?_) fun c d hc => ?_
  · rw [hc] at hq
    have hstart : stepFrame g o (taken tty) .killLine = some (taken tty, [.cooked]) := by
      rw [stepFrame, show lineStart (taken tty) = true from hq]
      rfl
    exact Ends.step hstart (h tty.stopped)
  · rw [hc] at hq
    cases hq.symm.trans hl
  · rw [hc] at hq
    cases hq

/-- What is left when all of `read_q` was swallowed. -/
structure Swallowed (t : Termios) (tty tty' : TtyStruct) : Prop where
  good : Good t tty'
  writeQ : tty'.writeQ = tty.writeQ
  con : tty'.con = tty.con
  secondary : tty'.secondary = tty.secondary
  readQ : tty'.readQ.chars = 0

theorem cooked_quiet (hg : Good t tty) (hfull : tty.secondary.isFull = false)
    (hq : tty.readQ.contents.all (quiet o tty) = true) :
    Ends g o E tty [.cooked] (Swallowed t tty) := by
  induction hr : tty.readQ.chars generalizing tty with
  | zero =>
    have hstep : stepFrame g o tty .cooked = some (tty, []) := by
      rw [stepFrame, isEmpty_iff.2 hr]
      rfl
    exact Ends.step hstep (Ends.done ⟨hg, rfl, rfl, rfl, hr⟩)
  | succ r ih =>
    have hpos : 0 < tty.readQ.chars := by omega
    have hget := chars_get hpos
    rw [contents_get hpos, List.all_cons, Bool.and_eq_true] at hq
    refine Ends.step (stepFrame_cooked hpos hfull) ?_
    refine fetch_quiet hq.1 fun b => ?_
    have hg1 : Good t { tty with readQ := tty.readQ.get, stopped := b } :=
      ⟨hg.termios, hg.write, hg.sound⟩
    have h1 := ih hg1 hfull hq.2 (by dsimp only; omega)
    exact h1.mono fun _ h =>
      ⟨h.good, h.writeQ, h.con, h.secondary, h.readQ⟩

/-- An echo empties `write_q`. -/
theorem echo_loud {cs : List Int} {next : After} (hE : E) (he : t.echo = true) (hg : Good t tty) :
    Ends g o E tty [echoing tty cs next] (fun tty' => tty'.writeQ.chars = 0) := by
  have hecho : echoing tty cs next = .echo cs next := by
    rw [echoing, hg.termios, he]
    rfl
  rw [hecho]
  refine echo_ends (fun m _ => cookedEnds m) hg (Nat.le_refl _) (.inl hE) fun tty1 hd => ?_
  obtain ⟨q, hq, -⟩ := continued_eq next tty1
  refine Ends.step (congrArg some hq) ?_
  have hg1 : Good t { tty1 with secondary := q } :=
    ⟨hd.good.termios, hd.good.write, hd.good.sound⟩
  have hgo := loop_ends (o := o) (g := g) _ _ _ (loop_loopOf next) hg1
    (Nat.le_refl _) (Nat.le_refl _) (Nat.le_refl _) (.inl hE)
  refine hgo.mono fun tty2 h2 => ?_
  rcases h2.writeQ with hw | ⟨-, h0⟩
  · rw [hw]
    exact hd.chars
  · exact h0

/-- A character that is not swallowed leaves `write_q` empty in the end. -/
theorem fetch_loud (hE : E) (he : t.echo = true)
    (hg : Good t tty) (hq : quiet o tty tty.readQ.first = false) :
    Ends g o E tty [.fetch seen] (fun tty' => tty'.writeQ.chars = 0) := by
  have hg' : Good t (taken tty) := ⟨hg.termios, hg.write, hg.sound⟩
  unfold quiet at hq
  refine Ends.fetch (fun b hc => ?_) (fun hc => ?_) (fun _ _ => echo_loud hE he hg') fun c d _ => ?_
  · rcases hc with hc | hc | ⟨hc, hl⟩
    · rw [hc] at hq
      cases hq
    · rw [hc] at hq
      cases hq
    · rw [hc] at hq
      cases hq.symm.trans hl
  · rw [hc] at hq
    have hkill : stepFrame g o (taken tty) .killLine =
        some (taken tty, [echoing (taken tty) (rubOut (taken tty)) .kill]) := by
      rw [stepFrame, show lineStart (taken tty) = false from hq]
      rfl
    exact Ends.step hkill (echo_loud hE he hg')
  · exact echo_loud hE he ⟨hg.termios, hg.write, hg.sound⟩

theorem cooked_loud (hE : E) (he : t.echo = true) (hg : Good t tty)
    (hfull : tty.secondary.isFull = false) (hq : tty.readQ.contents.all (quiet o tty) = false) :
    Ends g o E tty [.cooked] (fun tty' => tty'.writeQ.chars = 0) := by
  induction hr : tty.readQ.chars generalizing tty with
  | zero =>
    rw [contents_eq_nil hr] at hq
    cases hq
  | succ r ih =>
    have hpos : 0 < tty.readQ.chars := by omega
    have hget := chars_get hpos
    refine Ends.step (stepFrame_cooked hpos hfull) ?_
    cases hfirst : quiet o tty tty.readQ.first with
    | false => exact fetch_loud hE he hg hfirst
    | true =>
      rw [contents_get hpos, List.all_cons, hfirst, Bool.true_and] at hq
      exact fetch_quiet hfirst fun b =>
        ih ⟨hg.termios, hg.write, hg.sound⟩ hfull hq (by dsimp only; omega)

-- ======== the whole con_write

/-- The line after a query, with the reply in `read_q`. -/
def replied (g : Screen) (tty : TtyStruct) : TtyStruct :=
  { tty with
    writeQ := tty.writeQ.get
    con := (conChar g tty.con (cc tty.termios.verase) tty.writeQ.first).1
    readQ := tty.readQ.putAll RESPONSE }

@[simp] theorem replied_termios : (replied g tty).termios = tty.termios := by
  simp only [replied]

@[simp] theorem replied_write : (replied g tty).write = tty.write := by
  simp only [replied]

@[simp] theorem replied_readQ : (replied g tty).readQ = tty.readQ.putAll RESPONSE := by
  simp only [replied]

@[simp] theorem replied_writeQ : (replied g tty).writeQ = (drawn g tty).writeQ := by
  simp only [replied, drawn]

@[simp] theorem replied_con : (replied g tty).con = (drawn g tty).con := by
  simp only [replied, drawn]

@[simp] theorem replied_secondary : (replied g tty).secondary = tty.secondary := by
  simp only [replied]

theorem stepFrame_respond : stepFrame g o (drawn g tty) .respond =
      some (replied g tty, [.cooked]) := by
  simp only [stepFrame, replied, drawn]

theorem Good.replied (h : Good t tty) (hc : 0 < tty.writeQ.chars) : Good t (replied g tty) where
  termios := by rw [replied_termios, h.termios]
  write := by rw [replied_write, h.write]
  sound := by
    rw [replied_writeQ]
    exact (h.drawn hc).sound

/-- What is swallowed depends on the settings and on `secondary` only. -/
theorem quiet_congr (ht : tty'.termios = tty.termios)
    (hs : tty'.secondary = tty.secondary) : quiet o tty' = quiet o tty := by
  funext c
  simp only [quiet, lineStart, ht, hs]

theorem quiet_drawn : quiet o (drawn g tty) = quiet o tty :=
  quiet_congr drawn_termios drawn_secondary

theorem quiet_replied : quiet o (replied g tty) = quiet o tty :=
  quiet_congr replied_termios replied_secondary

theorem earlyQueries_replied : earlyQueries g (replied g tty) = earlyQueries g (drawn g tty) := by
  simp only [earlyQueries, replied_termios, replied_con, replied_writeQ, drawn_termios]

/-- A character that asks for nothing. -/
theorem calm_drawn (hmany : 1 < tty.writeQ.chars) (hq : asked g tty = false) :
    Calm g o (drawn g tty) ↔ Calm g o tty := by
  have hearly := earlyQueries_drawn (g := g) hmany
  rw [hq] at hearly
  have hsame : earlyQueries g tty = earlyQueries g (drawn g tty) :=
    hearly.trans (Nat.zero_add _)
  simp only [Calm, drawn_termios, drawn_secondary, drawn_readQ, quiet_drawn, hsame]

/-- Once all was swallowed, the next reply decides. -/
theorem Swallowed.calm_iff (h : Swallowed t tty tty') (hg : Good t tty) (he : t.echo = true)
    (hfull : tty.secondary.isFull = false) :
    Calm g o tty' ↔ (earlyQueries g tty ≠ 0 → RESPONSE.all (quiet o tty) = true) := by
  have hearly : earlyQueries g tty' = earlyQueries g tty := by
    simp only [earlyQueries, h.good.termios, hg.termios, h.con, h.writeQ]
  have hquiet : quiet o tty' = quiet o tty :=
    quiet_congr (h.good.termios.trans hg.termios.symm) h.secondary
  have hlen : tty'.readQ.chars + RESPONSE.length ≤ 1023 := by
    rw [h.readQ]
    decide
  rw [Calm, h.good.termios, he, h.secondary, hfull, hearly, hquiet, contents_putAll hlen,
    contents_eq_nil h.readQ, List.nil_append]
  simp only [Bool.true_eq_false, Bool.false_eq_true, false_or]
  tauto

/-- Everything is written, and nothing else was taken. -/
def Finished (t : Termios) (tty : TtyStruct) : Prop :=
  Good t tty ∧ tty.writeQ.chars = 0

/-- Without echo, or without an early query, nothing can go wrong. -/
theorem plain_ends (hg : Good t tty) (hk : tty.writeQ.chars = k)
    (h : t.echo = false ∨ earlyQueries g tty = 0) :
    Ends g o False tty [.conWrite k] (Finished t) := by
  have hw : Ends g o False tty [.conWrite k] (Drained o t (supply o tty) tty) :=
    conWrite_ends (fun m _ => cookedEnds m) hg (Nat.le_refl _) hk (.inr h)
  exact hw.mono fun _ hd => ⟨hd.good, hd.chars⟩

/-- A line that is calm although it echoes and has an early query. -/
theorem Calm.quiet (h : Calm g o tty) (he : tty.termios.echo = true)
    (hfull : tty.secondary.isFull = false) (h0 : earlyQueries g tty ≠ 0) :
    (tty.readQ.putAll RESPONSE).contents.all (quiet o tty) = true ∧
      (2 ≤ earlyQueries g tty → RESPONSE.all (Tty.quiet o tty) = true) := by
  rcases h with he' | hf | h0' | h
  · rw [he] at he'
    cases he'
  · rw [hfull] at hf
    cases hf
  · exact absurd h0' h0
  · exact h

theorem calm_ends (hg : Good t tty) (hk : tty.writeQ.chars = k) (hcalm : Calm g o tty) :
    Ends g o False tty [.conWrite k] (Finished t) := by
  induction k generalizing tty with
  | zero => exact plain_ends hg hk (.inr (earlyQueries_eq_zero (by omega)))
  | succ k ih =>
    by_cases hplain : t.echo = false ∨ earlyQueries g tty = 0
    · exact plain_ends hg hk hplain
    rw [not_or, Bool.not_eq_false] at hplain
    have hmany : 1 < tty.writeQ.chars := by
      by_contra hle
      exact hplain.2 (earlyQueries_eq_zero (by omega))
    have hpos : 0 < tty.writeQ.chars := by omega
    have hk1 := drawn_chars (g := g) hk
    have hearly := earlyQueries_drawn (g := g) hmany
    refine Ends.step (stepFrame_conWrite k) ?_
    cases hq : asked g tty with
    | false => exact ih (hg.drawn hpos) hk1 ((calm_drawn hmany hq).2 hcalm)
    | true =>
      have hg2 : Good t (replied g tty) := hg.replied hpos
      have hk2 : (replied g tty).writeQ.chars = k := by
        rw [replied_writeQ, hk1]
      refine Ends.step stepFrame_respond ?_
      cases hfull : (replied g tty).secondary.isFull with
      | true =>
        have hstop : stepFrame g o (replied g tty) .cooked = some (replied g tty, []) := by
          simp only [stepFrame, hfull, Bool.or_true, if_true]
        exact Ends.step hstop (ih hg2 hk2 (.inr (.inl hfull)))
      | false =>
        obtain ⟨hall, h2⟩ := hcalm.quiet (by rw [hg.termios]; exact hplain.1) hfull hplain.2
        have hswallow : Ends g o False (replied g tty) [.cooked] (Swallowed t (replied g tty)) := by
          apply cooked_quiet hg2 hfull
          rw [quiet_replied, replied_readQ, hall]
        refine Ends.seq hswallow fun tty3 h3 => ?_
        refine ih h3.good (h3.writeQ ▸ hk2) ((h3.calm_iff hg2 hplain.1 hfull).2 ?_)
        rw [quiet_replied, earlyQueries_replied]
        rw [hq, if_pos rfl] at hearly
        intro h0
        exact h2 (by omega)

/-- A line that is not calm: it echoes, and has an early query whose reply,
or what else is cooked with it, is not swallowed. -/
theorem loud_ends (hg : Good t tty) (hk : tty.writeQ.chars = k) (hloud : ¬ Calm g o tty) :
    Ends g o True tty [.conWrite k] (fun _ => False) := by
  induction k generalizing tty with
  | zero =>
    exact absurd (.inr (.inr (.inl (earlyQueries_eq_zero (by omega))))) hloud
  | succ k ih =>
    have hmany : 1 < tty.writeQ.chars := by
      by_contra hle
      exact hloud (.inr (.inr (.inl (earlyQueries_eq_zero (by omega)))))
    have hpos : 0 < tty.writeQ.chars := by omega
    have hk1 := drawn_chars (g := g) hk
    refine Ends.step (stepFrame_conWrite k) ?_
    cases hq : asked g tty with
    | false => exact ih (hg.drawn hpos) hk1 (mt (calm_drawn hmany hq).1 hloud)
    | true =>
      have hearly := earlyQueries_drawn (g := g) hmany
      rw [hq, if_pos rfl] at hearly
      obtain ⟨he, hloud⟩ := not_or.1 hloud
      obtain ⟨hfull, hloud⟩ := not_or.1 hloud
      obtain ⟨-, hloud⟩ := not_or.1 hloud
      rw [Bool.not_eq_false, hg.termios] at he
      have hg2 : Good t (replied g tty) := hg.replied hpos
      have hfull2 : (replied g tty).secondary.isFull = false := Bool.not_eq_true _ ▸ hfull
      refine Ends.step stepFrame_respond ?_
      cases hall : (replied g tty).readQ.contents.all (quiet o (replied g tty)) with
      | false =>
        -- the echo empties `write_q` under the rest of this loop
        have hloud2 := cooked_loud (g := g) trivial he hg2 hfull2 hall
        refine Ends.seq hloud2 fun tty3 h3 => ?_
        obtain ⟨j, rfl⟩ : ∃ j, k = j + 1 := ⟨k - 1, by omega⟩
        exact Ends.empty trivial h3
      | true =>
        have hswallow : Ends g o True (replied g tty) [.cooked] (Swallowed t (replied g tty)) :=
          cooked_quiet hg2 hfull2 hall
        refine Ends.seq hswallow fun tty3 h3 => ?_
        have hk3 : tty3.writeQ.chars = k := by
          rw [h3.writeQ, replied_writeQ, hk1]
        -- so it is a later reply that is not swallowed
        refine ih h3.good hk3 fun hcalm => hloud ?_
        rw [h3.calm_iff hg2 he hfull2, earlyQueries_replied, quiet_replied] at hcalm
        rw [quiet_replied, replied_readQ] at hall
        exact ⟨hall, fun h2 => hcalm (by omega)⟩

-- ======== the result

theorem fetched_writeQ : (fetched o tty seen).1.writeQ = tty.writeQ := by
  unfold fetched
  dsimp only
  split
  · rfl
  · rfl
  · split <;> rfl
  · rfl
  · rfl

theorem continued_writeQ (next : After) : (continued tty next).1.writeQ = tty.writeQ := by
  cases next <;> rfl

/-- An underrun is not forgotten. -/
theorem underrun_stepFrame {r : TtyStruct × List Frame}
    (h : stepFrame g o tty f = some r) (hu : tty.writeQ.underrun = true) :
    r.1.writeQ.underrun = true := by
  cases f with
  | conWrite nr =>
    cases nr with
    | zero => cases h; exact hu
    | succ nr =>
      rw [stepFrame_conWrite] at h
      cases h
      rw [drawn_writeQ]
      show (tty.writeQ.underrun || tty.writeQ.isEmpty) = true
      rw [hu, Bool.true_or]
  | respond => cases h; exact hu
  | cooked | killLine =>
    rw [stepFrame] at h
    split at h <;> cases h <;> exact hu
  | fetch seen =>
    cases h
    rw [fetched_writeQ, hu]
  | echo cs next =>
    cases cs with
    | nil | cons c cs => cases h; exact hu
  | after next =>
    cases h
    rw [continued_writeQ, hu]
  | ttyWrite buf | fill buf =>
    cases buf with
    | nil => cases h; exact hu
    | cons c buf =>
      rw [stepFrame] at h
      split at h <;> cases h <;> exact hu
  | sleeping buf =>
    rw [stepFrame] at h
    split at h
    · cases h
    · cases h
      exact hu
  | take c buf seen =>
    cases h
    unfold written
    dsimp only
    split <;> exact hu

theorem underrun_reaches (h : Reaches g o s s')
    (hu : s.tty.writeQ.underrun = true) : s'.tty.writeQ.underrun = true := by
  induction h with
  | refl => exact hu
  | tail _ hstep ih =>
    obtain ⟨f, rest, p, -, hp, rfl⟩ := step_eq_some hstep
    exact underrun_stepFrame hp ih

/-- A call that has come to its end goes nowhere from there, so it has gone
through every state that can be reached. -/
theorem reaches_end {tty : TtyStruct}
    (hend : Reaches g o s ⟨tty, []⟩) (h : Reaches g o s s') : Reaches g o s' ⟨tty, []⟩ := by
  have hunique : Relator.RightUnique (fun s s' : Call => step g o s = some s') := by
    intro a b c hb hc
    rw [hb] at hc
    exact Option.some.inj hc
  rcases Relation.ReflTransGen.total_of_right_unique hunique h hend with
    h | h
  · exact h
  · rcases Relation.ReflTransGen.cases_head h with rfl | ⟨s1, hs1, -⟩
    · exact .refl
    · cases hs1

/-- `con_write` takes only what is in `write_q`, whatever is in the rings and
however the line is set, if and only if no query before the last character
leads to an echo; and then it comes to its end and takes all of it. -/
theorem con_write_takes_iff (g : Screen) (o : Outside) (tty : TtyStruct)
    (hw : tty.write = .conWrite) (hu : tty.writeQ.underrun = false) :
    ((∀ s, Reaches g o (conWrite tty) s → s.tty.writeQ.underrun = false) ↔ Calm g o tty) ∧
      (Calm g o tty → ∃ tty', Reaches g o (conWrite tty) ⟨tty', []⟩ ∧ tty'.writeQ.chars = 0) := by
  have hg : Good tty.termios tty := ⟨rfl, hw, hu⟩
  have hend : Calm g o tty → ∃ tty', Reaches g o (conWrite tty) ⟨tty', []⟩ ∧
      Finished tty.termios tty' := by
    intro hcalm
    rcases calm_ends hg rfl hcalm [] with h | ⟨hfalse, -⟩
    · exact h
    · exact hfalse.elim
  refine ⟨⟨fun hall => ?_, fun hcalm s hs => ?_⟩, fun hcalm => ?_⟩
  · by_contra hloud
    rcases loud_ends hg rfl hloud [] with ⟨_, -, hfalse⟩ | ⟨-, s, hs, hlost⟩
    · exact hfalse
    · rw [hall s hs] at hlost
      cases hlost
  · obtain ⟨tty', hr, hfin⟩ := hend hcalm
    rw [← Bool.not_eq_true]
    intro hlost
    have := underrun_reaches (reaches_end hr hs) hlost
    rw [hfin.1.sound] at this
    cases this
  · obtain ⟨tty', hr, hfin⟩ := hend hcalm
    exact ⟨tty', hr, hfin.2⟩

instance (g : Screen) (o : Outside) (tty : TtyStruct) : Decidable (Calm g o tty) := by
  unfold Calm
  infer_instance

/-- The settings of the console in `tty_table`. -/
def consoleTermios : Termios :=
  ⟨true, false, false, false, true, true, false, false, false, true, true,
    true, true, 3, 28, 127, 21, 4, 17, 19⟩

/-- The console with these characters to be written. -/
def console (cs : List Int) : TtyStruct :=
  ⟨consoleTermios, false, .conWrite, emptyQueue, emptyQueue.putAll cs,
    emptyQueue, 0, false, conInit display (fun _ => 0) 0 0⟩

/-- A query at the end of the stream is answered and echoed without harm. -/
theorem con_write_takes_iff_query : Calm display blank (console [104, 105, 27, 90]) ∧
      ∃ tty', Reaches display blank (conWrite (console [104, 105, 27, 90])) ⟨tty', []⟩ ∧
        tty'.writeQ.chars = 0 := by
  have hcalm : Calm display blank (console [104, 105, 27, 90]) := by
    decide +kernel
  exact ⟨hcalm, (con_write_takes_iff display blank _ rfl rfl).2 hcalm⟩

/-- One more character behind the query, and `con_write` takes a character
that is not there. -/
theorem query_underruns_write_queue :
    ∃ s, Reaches display blank (conWrite (console [27, 90, 65])) s ∧
      s.tty.writeQ.underrun = true := by
  have hloud : ¬ Calm display blank (console [27, 90, 65]) := by
    decide +kernel
  have hg : Good consoleTermios (console [27, 90, 65]) := ⟨rfl, rfl, rfl⟩
  rcases loud_ends hg rfl hloud [] with ⟨_, -, hfalse⟩ | ⟨-, h⟩
  · exact hfalse.elim
  · exact h

end LearnLinux.Tty
