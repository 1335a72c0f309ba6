/-
The escape sequences of the console, without the screen.

What a character does to `state` is all that the rest of the terminal
driver depends on: the drawing routines leave it alone, ESC is the only way
into `esc`, and a query is a 'Z' that is met there.
-/
import LearnLinux.Drivers.Console

namespace LearnLinux.Console

variable (g : Screen) (s : Con) {erase c : Int}
variable {n : Nat}

@[simp] theorem gotoxy_state (a b : Nat) : (gotoxy g s a b).state = s.state := by
  unfold gotoxy
  split <;> rfl

@[simp] theorem scrup_state : (scrup g s).state = s.state := by
  unfold scrup scrollOrigin scrollRegion
  dsimp only
  split_ifs <;> rfl

@[simp] theorem lf_state : (lf g s).state = s.state := by
  unfold lf
  split
  · rfl
  · exact scrup_state g s

@[simp] theorem ri_state : (ri g s).state = s.state := by
  unfold ri
  split <;> rfl

@[simp] theorem cr_state : (cr s).state = s.state := rfl

@[simp] theorem del_state : (del s).state = s.state := by
  unfold del
  split <;> rfl

@[simp] theorem csiJ_state : (csiJ g s n).state = s.state := by
  unfold csiJ
  split <;> rfl

@[simp] theorem csiK_state : (csiK g s n).state = s.state := by
  unfold csiK
  split
  · split <;> rfl
  · rfl
  · rfl
  · rfl

/-- The repeated commands leave the state alone if each round does. -/
theorem times_state {f : Con → Con} (hf : ∀ t, (f t).state = t.state)
    (most nr : Nat) : (times s most nr f).state = s.state := by
  unfold times
  generalize (if nr > most then most else if nr = 0 then 1 else nr) = n
  induction n generalizing s with
  | zero => rfl
  | succ n ih => exact (ih (f s)).trans (hf s)

@[simp] theorem csiAt_state : (csiAt g s n).state = s.state :=
  times_state s (f := insertChar g) (fun _ => rfl) _ _

@[simp] theorem csiL_state : (csiL g s n).state = s.state :=
  times_state s (f := insertLine g) (fun _ => rfl) _ _

@[simp] theorem csiP_state : (csiP g s n).state = s.state := by
  refine times_state s (fun t => ?_) _ _
  unfold deleteChar
  split <;> rfl

@[simp] theorem csiMLines_state : (csiMLines g s n).state = s.state :=
  times_state s (f := deleteLine g) (fun _ => scrup_state g _) _ _

@[simp] theorem decPar_state (i : Nat) : (decPar s i).state = s.state := by
  unfold decPar
  split <;> rfl

@[simp] theorem incPar_state : (incPar s).state = s.state := by
  unfold incPar
  split <;> rfl

@[simp] theorem setRegion_state : (setRegion g s).state = s.state := by
  unfold setRegion
  dsimp only
  split_ifs <;> exact decPar_state s 0

@[simp] theorem wrap_state : (wrap g s).state = s.state := lf_state g _

@[simp] theorem tab_state : (tab g s).state = s.state := by
  unfold tab
  dsimp only
  split
  · exact wrap_state g _
  · rfl

@[simp] theorem putChar_state : (putChar g s c).state = s.state := by
  unfold putChar
  split
  · exact wrap_state g s
  · rfl

theorem command_state (c : Int) : (command g s c).state = s.state := by
  unfold command
  simp only [apply_ite Con.state, gotoxy_state, decPar_state, incPar_state,
    csiJ_state, csiK_state, csiL_state, csiMLines_state, csiP_state,
    csiAt_state, setRegion_state, csiM, saveCur, restoreCur, ite_self]

theorem params_state (c : Int) :
    (params g s c).state = s.state ∨ (params g s c).state = .normal := by
  unfold params
  split_ifs
  · exact .inl rfl
  · exact .inl rfl
  · exact .inr (command_state g _ c)

theorem escape_state (c : Int) : (escape g s c).1.state ≠ .esc := by
  unfold escape
  dsimp only
  split_ifs <;> simp [saveCur, restoreCur]

theorem normal_state (erase c : Int) (h : c ≠ 27) : (normal g s erase c).state = s.state := by
  unfold normal
  simp only [h, if_false, apply_ite Con.state, putChar_state, lf_state,
    cr_state, del_state, tab_state, ite_self]

/-- ESC is the only way into `esc`. -/
theorem state_of_conChar_esc (h : (conChar g s erase c).1.state = .esc) :
    s.state = .normal ∧ c = 27 := by
  unfold conChar at h
  cases hs : s.state with
  | normal =>
    refine ⟨rfl, ?_⟩
    by_contra hc
    rw [hs] at h
    rw [normal_state g s erase c hc, hs] at h
    cases h
  | esc =>
    rw [hs] at h
    exact absurd h (escape_state g s c)
  | bracket =>
    rw [hs] at h
    dsimp only [bracket] at h
    split at h
    · cases h
    · rcases params_state g _ c with hp | hp <;> rw [hp] at h <;> cases h
  | params =>
    rw [hs] at h
    rcases params_state g s c with hp | hp
    · rw [hp, hs] at h
      cases h
    · rw [hp] at h
      cases h

/-- A query is a 'Z' behind an ESC. -/
theorem of_conChar_query (h : (conChar g s erase c).2 = true) : s.state = .esc ∧ c = 90 := by
  unfold conChar at h
  cases hs : s.state with
  | normal | bracket | params => rw [hs] at h; cases h
  | esc =>
    rw [hs] at h
    dsimp only [escape] at h
    split_ifs at h with h1 h2 h3 h4 h5
    exact ⟨rfl, h5⟩

end LearnLinux.Console
