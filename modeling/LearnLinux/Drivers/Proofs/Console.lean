/-
The console stays inside the video memory, and its three cursors agree.

The invariant `Inv` ties `pos` to `x`, `y` and the origin, keeps the cursor
and the scroll region on the screen and the screen in the video memory, and
says that every store so far went into that memory. A cursor may stand
behind the last column, at `x = cols`; then `pos` is the start of the next
line, or the end of the screen, and nothing is stored there: `putChar`
wraps first, `csiK`, `insertChar` and `deleteChar` do nothing.

The scrolls copy two words at a time, so a line has to be an even number of
words. The tab stops are eight columns apart and the tab wraps once, so the
screen may not be narrower than four columns: with two, a tab from the first
column leaves the cursor in column 6.
-/
import LearnLinux.Drivers.Console

namespace LearnLinux.Console

/-- A word at `a` lies in the video memory. -/
def Within (g : Screen) (a : Nat) : Prop :=
  g.memStart ≤ a ∧ a + 2 ≤ g.memEnd

/-- Everything stored so far went into the video memory. -/
def Confined (g : Screen) (v : Video) : Prop := ∀ a ∈ v.stores, Within g a

variable {g : Screen} {s : Con} {v : Video} {a : Nat}
variable {dst n p w : Nat}

-- ======== the loops

section

variable (hv : Confined g v)
include hv

theorem confined_store (h : Within g a) : Confined g (store v a w) := by
  intro b hb
  rcases List.mem_cons.1 hb with rfl | hb
  · exact h
  · exact hv b hb

theorem confined_movsl (n src dst : Nat) (hlo : g.memStart ≤ dst) (hhi : dst + 4 * n ≤ g.memEnd)
    : Confined g (movsl n src dst v) := by
  induction n generalizing src dst v with
  | zero => exact hv
  | succ n ih =>
    apply ih
    · apply confined_store
      · exact confined_store hv ⟨hlo, by omega⟩
      · exact ⟨by omega, by omega⟩
    · omega
    · omega

theorem confined_movslDown (n src dst : Nat) (hlo : g.memStart + 4 * n ≤ dst + 4)
    (hhi : dst + 4 ≤ g.memEnd) :
    Confined g (movslDown n src dst v) := by
  induction n generalizing src dst v with
  | zero => exact hv
  | succ n ih =>
    apply ih
    · apply confined_store
      · exact confined_store hv ⟨by omega, by omega⟩
      · exact ⟨by omega, by omega⟩
    · omega
    · omega

theorem confined_stosw (hlo : g.memStart ≤ dst) (hhi : dst + 2 * n ≤ g.memEnd)
    : Confined g (stosw n dst w v) := by
  induction n generalizing dst v with
  | zero => exact hv
  | succ n ih =>
    apply ih
    · exact confined_store hv ⟨hlo, by omega⟩
    · omega
    · omega

theorem confined_stoswDown (hlo : g.memStart + 2 * n ≤ dst + 2) (hhi : dst + 2 ≤ g.memEnd) :
    Confined g (stoswDown n dst w v) := by
  induction n generalizing dst v with
  | zero => exact hv
  | succ n ih =>
    apply ih
    · exact confined_store hv ⟨by omega, hhi⟩
    · omega
    · omega

theorem confined_insertLoop (n p old : Nat) (hlo : g.memStart ≤ p) (hhi : p + 2 * n ≤ g.memEnd)
    : Confined g (insertLoop n p old v) := by
  induction n generalizing p old v with
  | zero => exact hv
  | succ n ih =>
    apply ih
    · exact confined_store hv ⟨hlo, by omega⟩
    · omega
    · omega

theorem confined_deleteLoop (hlo : g.memStart ≤ p) (hhi : p + 2 * n + 2 ≤ g.memEnd)
    : Confined g (deleteLoop n p v) := by
  induction n generalizing p v with
  | zero => exact confined_store hv ⟨hlo, by omega⟩
  | succ n ih =>
    apply ih
    · exact confined_store hv ⟨hlo, by omega⟩
    · omega
    · omega

theorem confined_showDesc (cs : List Char) (hlo : g.memStart ≤ p)
    (hhi : p + 2 * cs.length ≤ g.memEnd) : Confined g (showDesc cs p v) := by
  induction cs generalizing p v with
  | nil => exact hv
  | cons c cs ih =>
    rw [List.length_cons] at hhi
    apply ih
    · exact confined_store hv ⟨hlo, by omega⟩
    · omega
    · omega

end

-- ======== the invariant

/-- What is asked of the display: whole double words in a line, and the
screen fits into the video memory. -/
structure Fits (g : Screen) : Prop where
  even : g.cols % 2 = 0
  four : 4 ≤ g.cols
  room : g.memStart + g.lines * g.row ≤ g.memEnd

structure Inv (g : Screen) (s : Con) : Prop where
  x_le : s.x ≤ g.cols
  y_lt : s.y < g.lines
  region : s.top < s.bottom
  bottom_le : s.bottom ≤ g.lines
  npar_lt : s.npar < NPAR
  origin_ge : g.memStart ≤ s.origin
  scrEnd_eq : s.scrEnd = s.origin + g.lines * g.row
  scrEnd_le : s.scrEnd ≤ g.memEnd
  pos_eq : s.pos = s.origin + s.y * g.row + 2 * s.x
  stores : Confined g s.video

theorem lines_mul_row_le {g : Screen} {y : Nat} (h : y < g.lines) :
    y * g.row + g.row ≤ g.lines * g.row := by
  rw [← Nat.succ_mul]
  exact Nat.mul_le_mul_right _ h

/-- The line of the cursor lies on the screen. -/
theorem Inv.line_le (h : Inv g s) : s.origin + s.y * g.row + g.row ≤ g.memEnd := by
  have hy := lines_mul_row_le h.y_lt
  have he := h.scrEnd_le
  rw [h.scrEnd_eq] at he
  omega

/-- `k` lines are moved in pairs of words. -/
theorem four_mul_half (hg : Fits g) (k : Nat) : 4 * (k * g.cols / 2) = k * g.row := by
  obtain ⟨m, hm⟩ := Nat.dvd_of_mod_eq_zero hg.even
  rw [Screen.row, hm, Nat.mul_left_comm, Nat.mul_div_cancel_left _ (by decide)]
  ring

section

variable (h : Inv g s)
include h

/-- The lines above, in and below the scroll region. -/
theorem region_mul_row : g.row * s.top + (s.bottom - s.top - 1) * g.row + g.row =
        g.row * s.bottom ∧ s.origin + g.row * s.bottom ≤ g.memEnd := by
  constructor
  · obtain ⟨d, hd⟩ := Nat.exists_eq_add_of_lt h.region
    rw [hd, show s.top + d + 1 - s.top - 1 = d by omega]
    ring
  · have hb : g.row * s.bottom ≤ g.lines * g.row := by
      rw [Nat.mul_comm]
      exact Nat.mul_le_mul_right _ h.bottom_le
    have he := h.scrEnd_le
    rw [h.scrEnd_eq] at he
    omega

-- ======== changes that keep it

theorem Inv.video (hv : Confined g v) : Inv g { s with video := v } := { h with stores := hv }

theorem Inv.state (e : Esc) : Inv g { s with state := e } :=
  { h with }

theorem Inv.setPar (i n : Nat) : Inv g (setPar s i n) :=
  { h with }

theorem Inv.decPar (i : Nat) : Inv g (decPar s i) := by
  unfold Console.decPar
  split
  · exact h.setPar i _
  · exact h

theorem Inv.incPar : Inv g (incPar s) := by
  unfold Console.incPar
  split
  · exact h.setPar 0 1
  · exact h

theorem Inv.gotoxy (a b : Nat) : Inv g (gotoxy g s a b) := by
  unfold Console.gotoxy
  split
  · exact h
  · rename_i hab
    refine { h with x_le := ?_, y_lt := ?_, pos_eq := ?_ }
    · show a ≤ g.cols
      omega
    · show b < g.lines
      omega
    · show s.origin + b * g.row + a * 2 = s.origin + b * g.row + 2 * a
      omega

theorem Inv.saveCur : Inv g (saveCur s) := { h with }

theorem Inv.restoreCur : Inv g (restoreCur g s) :=
  h.gotoxy _ _

end

-- ======== the scrolls

theorem Inv.scrollRegion (hg : Fits g) (h : Inv g s) : Inv g (scrollRegion g s) := by
  obtain ⟨hrow, hend⟩ := region_mul_row h
  have hn := four_mul_half hg (s.bottom - s.top - 1)
  have ho := h.origin_ge
  have hr : g.row = g.cols * 2 := rfl
  apply h.video
  apply confined_stosw
  · apply confined_movsl
    · exact h.stores
    · omega
    · omega
  · omega
  · omega

/-- The origin moves, and the cursor and the end of the screen with it. -/
theorem Inv.moveOrigin (h : Inv g s) {o : Nat} (hlo : g.memStart ≤ o)
    (hhi : o + g.lines * g.row ≤ g.memEnd) (hv : Confined g v) :
    Inv g { s with
      video := v
      scrEnd := o + g.lines * g.row
      pos := o + s.y * g.row + 2 * s.x
      origin := o } :=
  { h with
    origin_ge := hlo, scrEnd_eq := rfl, scrEnd_le := hhi, pos_eq := rfl
    stores := hv }

section

variable (hg : Fits g) (h : Inv g s)
include hg h

theorem Inv.scrollOrigin : Inv g (scrollOrigin g s) := by
  have ho := h.origin_ge
  have hp := h.pos_eq
  have he := h.scrEnd_eq
  have hroom := hg.room
  have hr : g.row = g.cols * 2 := rfl
  unfold Console.scrollOrigin
  dsimp only
  split
  · -- the copy: the screen is at the start of the memory again
    have hn := four_mul_half hg (g.lines - 1)
    have hlast : (g.lines - 1) * g.row + g.row = g.lines * g.row := by
      rw [← Nat.succ_mul, Nat.succ_eq_add_one,
        Nat.sub_add_cancel (Nat.lt_of_le_of_lt (Nat.zero_le _) h.y_lt)]
    have hv : Confined g (stosw g.cols (g.memStart + 4 * ((g.lines - 1) * g.cols / 2)) eraseChar
        (movsl ((g.lines - 1) * g.cols / 2) (s.origin + g.row) g.memStart s.video)) := by
      apply confined_stosw
      · apply confined_movsl
        · exact h.stores
        · exact le_refl _
        · omega
      · omega
      · omega
    have hnew := h.moveOrigin (le_refl _) hroom hv
    rw [show s.scrEnd + g.row - (s.origin + g.row - g.memStart) =
        g.memStart + g.lines * g.row by omega,
      show s.pos + g.row - (s.origin + g.row - g.memStart) =
        g.memStart + s.y * g.row + 2 * s.x by omega]
    exact hnew
  · rename_i hfit
    have hv : Confined g (stosw g.cols (s.scrEnd + g.row - g.row) eraseChar s.video) := by
      apply confined_stosw
      · exact h.stores
      · omega
      · omega
    have hnew := h.moveOrigin (o := s.origin + g.row) (by omega) (by omega) hv
    rw [show s.scrEnd + g.row = s.origin + g.row + g.lines * g.row by omega,
      show s.pos + g.row = s.origin + g.row + s.y * g.row + 2 * s.x by omega]
    rw [show s.scrEnd + g.row = s.origin + g.row + g.lines * g.row by omega] at hnew
    exact hnew

theorem Inv.scrup : Inv g (scrup g s) := by
  unfold Console.scrup
  split
  · split
    · exact h.scrollOrigin hg
    · exact h.scrollRegion hg
  · exact h.scrollRegion hg

theorem Inv.scrdown : Inv g (scrdown g s) := by
  obtain ⟨hrow, hend⟩ := region_mul_row h
  have hn := four_mul_half hg (s.bottom - s.top - 1)
  have ho := h.origin_ge
  have hr : g.row = g.cols * 2 := rfl
  have hfour := hg.four
  apply h.video
  apply confined_stoswDown
  · apply confined_movslDown
    · exact h.stores
    · omega
    · omega
  · omega
  · omega

theorem Inv.lf : Inv g (lf g s) := by
  have hp := h.pos_eq
  have hb := h.bottom_le
  unfold Console.lf
  split
  · refine { h with y_lt := ?_, pos_eq := ?_ }
    · show s.y + 1 < g.lines
      omega
    · show s.pos + g.row = s.origin + (s.y + 1) * g.row + 2 * s.x
      rw [Nat.succ_mul]
      omega
  · exact h.scrup hg

theorem Inv.ri : Inv g (ri g s) := by
  have hp := h.pos_eq
  have hy := h.y_lt
  unfold Console.ri
  split
  · rename_i htop
    refine { h with y_lt := ?_, pos_eq := ?_ }
    · show s.y - 1 < g.lines
      omega
    · show s.pos - g.row = s.origin + (s.y - 1) * g.row + 2 * s.x
      have hmul : s.y * g.row = (s.y - 1) * g.row + g.row := by
        rw [← Nat.succ_mul]
        congr 1
        omega
      omega
  · exact h.scrdown hg

end

section

variable (h : Inv g s)
include h

/-- The cursor moves inside its line. -/
theorem Inv.inLine (ha : a ≤ g.cols) :
    Inv g { s with x := a, pos := s.origin + s.y * g.row + 2 * a } :=
  { h with x_le := ha, pos_eq := rfl }

theorem Inv.cr : Inv g (cr s) := by
  have hp := h.pos_eq
  have hnew := h.inLine (Nat.zero_le g.cols)
  unfold Console.cr
  rw [show s.pos - s.x * 2 = s.origin + s.y * g.row + 2 * 0 by omega]
  exact hnew

/-- The cursor goes back by one column, as in `del` and at a backspace. -/
theorem Inv.back (hx : s.x ≠ 0) : Inv g { s with x := s.x - 1, pos := s.pos - 2 } := by
  have hp := h.pos_eq
  have hle := h.x_le
  have hnew := h.inLine (a := s.x - 1) (by omega)
  rw [show s.pos - 2 = s.origin + s.y * g.row + 2 * (s.x - 1) by omega]
  exact hnew

theorem Inv.del : Inv g (del s) := by
  have hp := h.pos_eq
  have hle := h.x_le
  have ho := h.origin_ge
  have hl := h.line_le
  have hr : g.row = g.cols * 2 := rfl
  unfold Console.del
  split
  · rename_i hx
    apply (h.back hx).video
    exact confined_store h.stores ⟨by omega, by omega⟩
  · exact h

-- ======== the erasures

theorem Inv.csiJ (par : Nat) : Inv g (csiJ g s par) := by
  have hp := h.pos_eq
  have ho := h.origin_ge
  have he := h.scrEnd_eq
  have hle := h.scrEnd_le
  have hr : g.row = g.cols * 2 := rfl
  have hl := h.line_le
  have hx := h.x_le
  unfold Console.csiJ
  split
  · apply h.video
    exact confined_stosw h.stores (by omega) (by omega)
  · apply h.video
    exact confined_stosw h.stores (by omega) (by omega)
  · have hall : 2 * (g.cols * g.lines) = g.lines * g.row := by
      rw [hr]
      ring
    apply h.video
    exact confined_stosw h.stores (by omega) (by omega)
  · exact h

theorem Inv.csiK (par : Nat) : Inv g (csiK g s par) := by
  have hp := h.pos_eq
  have ho := h.origin_ge
  have hr : g.row = g.cols * 2 := rfl
  have hl := h.line_le
  unfold Console.csiK
  split
  · split
    · exact h
    · apply h.video
      exact confined_stosw h.stores (by omega) (by omega)
  · apply h.video
    apply confined_stosw
    · exact h.stores
    · omega
    · split <;> omega
  · apply h.video
    exact confined_stosw h.stores (by omega) (by omega)
  · exact h

theorem Inv.csiM : Inv g (csiM s) := { h with }

-- ======== insertions and deletions

theorem Inv.insertChar : Inv g (insertChar g s) := by
  have hp := h.pos_eq
  have ho := h.origin_ge
  have hr : g.row = g.cols * 2 := rfl
  have hl := h.line_le
  have hx := h.x_le
  apply h.video
  exact confined_insertLoop h.stores _ _ _ (by omega) (by omega)

theorem Inv.deleteChar : Inv g (deleteChar g s) := by
  have hp := h.pos_eq
  have ho := h.origin_ge
  have hr : g.row = g.cols * 2 := rfl
  have hl := h.line_le
  unfold Console.deleteChar
  split
  · exact h
  · apply h.video
    exact confined_deleteLoop h.stores (by omega) (by omega)

/-- A scroll of the lines from the cursor on; the region is set back. -/
theorem Inv.fromCursor {f : Screen → Con → Con} (hf : ∀ t, Inv g t → Inv g (f g t))
    : Inv g (fromCursor g s f) :=
  have hs : Inv g { s with top := s.y, bottom := g.lines } :=
    { h with region := h.y_lt, bottom_le := le_refl _ }
  { hf _ hs with region := h.region, bottom_le := h.bottom_le }

theorem Inv.insertLine (hg : Fits g) : Inv g (insertLine g s) :=
  h.fromCursor fun _ ht => ht.scrdown hg

theorem Inv.deleteLine (hg : Fits g) : Inv g (deleteLine g s) :=
  h.fromCursor fun _ ht => ht.scrup hg

theorem Inv.times (most nr : Nat) {f : Con → Con} (hf : ∀ t, Inv g t → Inv g (f t))
    : Inv g (times s most nr f) :=
  Function.Iterate.rec (Inv g) h hf _

end

-- ======== the sequences

theorem Inv.ite {p : Prop} [Decidable p] {a b : Con} (ha : Inv g a)
    (hb : Inv g b) : Inv g (if p then a else b) := by
  split
  · exact ha
  · exact hb

theorem Inv.setRegion (h : Inv g s) : Inv g (setRegion g s) := by
  have hpar : ∀ t : Con, Inv g t → Inv g (if t.par 0 < t.par 1 ∧ t.par 1 ≤ g.lines then
        { t with top := t.par 0, bottom := t.par 1 }
      else t) := by
    intro t ht
    split
    · rename_i hr
      exact { ht with region := hr.1, bottom_le := hr.2 }
    · exact ht
  apply hpar
  apply Inv.ite
  · exact (h.decPar 0).setPar 1 _
  · exact h.decPar 0

theorem Inv.command (hg : Fits g) (hs : Inv g s) (c : Int) : Inv g (command g s c) := by
  apply Inv.ite ((hs.decPar 0).gotoxy _ _)
  apply Inv.ite (hs.incPar.gotoxy _ _)
  apply Inv.ite (hs.incPar.gotoxy _ _)
  apply Inv.ite (hs.incPar.gotoxy _ _)
  apply Inv.ite (hs.incPar.gotoxy _ _)
  apply Inv.ite (hs.incPar.gotoxy _ _)
  apply Inv.ite (hs.incPar.gotoxy _ _)
  apply Inv.ite ((hs.decPar 0).gotoxy _ _)
  apply Inv.ite (((hs.decPar 0).decPar 1).gotoxy _ _)
  apply Inv.ite (hs.csiJ _)
  apply Inv.ite (hs.csiK _)
  apply Inv.ite (hs.times _ _ fun _ ht => ht.insertLine hg)
  apply Inv.ite (hs.times _ _ fun _ ht => ht.deleteLine hg)
  apply Inv.ite (hs.times _ _ fun _ ht => ht.deleteChar)
  apply Inv.ite (hs.times _ _ fun _ ht => ht.insertChar)
  apply Inv.ite hs.csiM
  apply Inv.ite hs.setRegion
  apply Inv.ite hs.saveCur
  apply Inv.ite hs.restoreCur
  exact hs

section

variable (hg : Fits g) (h : Inv g s)
include hg h

theorem Inv.csi (c : Int) : Inv g (csi g s c) :=
  (h.state .normal).command hg c

theorem Inv.params (c : Int) : Inv g (params g s c) := by
  unfold Console.params
  split_ifs with hsemi hdigit
  · have hn : s.npar + 1 < NPAR := by
      omega
    exact { h with npar_lt := hn }
  · exact h.setPar _ _
  · exact h.csi hg c

theorem Inv.bracket (c : Int) : Inv g (bracket g s c) := by
  have hs : Inv g { s with
      par := fun _ => 0, npar := 0, state := .params, ques := c = ch '?' } :=
    { h with npar_lt := Nat.zero_lt_succ _ }
  unfold Console.bracket
  split
  · exact hs
  · exact hs.params hg c

theorem Inv.escape (c : Int) : Inv g (escape g s c).1 := by
  have hs := h.state .normal
  unfold Console.escape
  dsimp only
  split_ifs
  · exact h.state .bracket
  · exact hs.gotoxy _ _
  · exact hs.ri hg
  · exact hs.lf hg
  · exact hs
  · exact hs.saveCur
  · exact hs.restoreCur
  · exact hs

/-- The wrap, from a cursor that has left the line by less than a line. -/
theorem Inv.wrap (hlo : g.cols ≤ a) (hhi : a ≤ 2 * g.cols) :
    Inv g (wrap g { s with x := a, pos := s.origin + s.y * g.row + 2 * a }) := by
  have hr : g.row = g.cols * 2 := rfl
  have hnew := (h.inLine (a := a - g.cols) (by omega)).lf hg
  unfold Console.wrap
  rw [show s.origin + s.y * g.row + 2 * a - g.row =
    s.origin + s.y * g.row + 2 * (a - g.cols) by omega]
  exact hnew

end

/-- A line feed keeps the column. -/
theorem lf_x : (lf g s).x = s.x := by
  unfold lf scrup scrollOrigin scrollRegion
  dsimp only
  split_ifs <;> rfl

section

variable (hg : Fits g) (h : Inv g s)
include hg h

theorem Inv.putChar (c : Int) : Inv g (putChar g s c) := by
  -- behind the wrap the cursor stands in a column of the screen
  have hroom : ∀ t : Con, Inv g t → t.x < g.cols → Inv g { t with
      video := store t.video t.pos (t.attr * 256 + c.toNat)
      pos := t.pos + 2
      x := t.x + 1 } := by
    intro t ht hx
    have hp := ht.pos_eq
    have ho := ht.origin_ge
    have hl := ht.line_le
    have hr : g.row = g.cols * 2 := rfl
    refine { ht with x_le := hx, pos_eq := ?_, stores := ?_ }
    · show t.pos + 2 = t.origin + t.y * g.row + 2 * (t.x + 1)
      omega
    · exact confined_store ht.stores ⟨by omega, by omega⟩
  unfold Console.putChar
  split
  · rename_i hx
    have hle := h.x_le
    have hfour := hg.four
    have hw := h.wrap hg hx (by omega)
    rw [← h.pos_eq] at hw
    refine hroom _ hw ?_
    rw [Console.wrap, lf_x]
    show s.x - g.cols < g.cols
    omega
  · rename_i hx
    exact hroom s h (by omega)

theorem Inv.tab : Inv g (tab g s) := by
  have hp := h.pos_eq
  have hx := h.x_le
  have hfour := hg.four
  unfold Console.tab
  dsimp only
  rw [show s.pos + (8 - s.x % 8) * 2 = s.origin + s.y * g.row + 2 * (s.x + (8 - s.x % 8)) by omega]
  split
  · exact h.wrap hg (by omega) (by omega)
  · exact h.inLine (by omega)

theorem Inv.normal (erase c : Int) : Inv g (normal g s erase c) := by
  apply Inv.ite (h.putChar hg c)
  apply Inv.ite (h.state .esc)
  apply Inv.ite (h.lf hg)
  apply Inv.ite h.cr
  apply Inv.ite h.del
  apply Inv.ite
  · split
    · rename_i hx
      exact h.back hx
    · exact h
  · exact Inv.ite (h.tab hg) h

-- ======== the streams

theorem Inv.conChar (erase c : Int) : Inv g (conChar g s erase c).1 := by
  unfold Console.conChar
  cases s.state with
  | normal => exact h.normal hg erase c
  | esc => exact h.escape hg c
  | bracket => exact h.bracket hg c
  | params => exact h.params hg c

theorem Inv.feed (bs : List (UInt8 × Int)) : Inv g (feed g s bs) := by
  induction bs generalizing s with
  | nil => exact h
  | cons b bs ih => exact ih (h.conChar hg b.2 (toChar b.1))

end

theorem desc_length (t : VideoType) : t.desc.length = 4 := by
  cases t <;> rfl

theorem inv_conInit (hg : Fits g) (mem : Nat → Nat) {ox oy : Nat}
    (hx : ox < g.cols) (hy : oy < g.lines) : Inv g (conInit g mem ox oy) := by
  have hroom := hg.room
  have hfour := hg.four
  have hr : g.row = g.cols * 2 := rfl
  have hl := lines_mul_row_le hy
  unfold conInit Console.gotoxy
  rw [if_neg (by omega)]
  refine ⟨Nat.le_of_lt hx, hy, Nat.lt_of_le_of_lt (Nat.zero_le _) hy,
    le_refl _, Nat.zero_lt_succ _, le_refl _, rfl, hroom, ?_, ?_⟩
  · rw [Nat.mul_comm ox]
  · apply confined_showDesc
    · intro a ha
      cases ha
    · omega
    · rw [desc_length]
      omega

/-- On a display with an even number, at least four, of columns whose screen
fits into the video memory, every stream of bytes keeps the cursor, the
scroll region and the parameter count in their bounds and `pos` in step with
`x` and `y`, and nothing is ever stored outside the video memory. -/
theorem console_inside (g : Screen) (heven : g.cols % 2 = 0) (hfour : 4 ≤ g.cols)
    (hroom : g.lines * g.cols * 2 ≤ g.memEnd - g.memStart)
    (mem : Nat → Nat) (ox oy : Nat) (hx : ox < g.cols) (hy : oy < g.lines)
    (bs : List (UInt8 × Int)) : Inv g (feed g (conInit g mem ox oy) bs) := by
  have hpos : 1 ≤ g.lines * g.cols :=
    Nat.mul_pos (Nat.lt_of_le_of_lt (Nat.zero_le _) hy) (by omega)
  have hrow : g.lines * g.row = g.lines * g.cols * 2 :=
    (Nat.mul_assoc _ _ _).symm
  exact (inv_conInit ⟨heven, hfour, by omega⟩ mem hx hy).feed ⟨heven, hfour, by omega⟩ bs

/-- The 25 lines of 80 columns of a colour EGA meet all of this. -/
theorem console_inside_ega : ∃ g : Screen, g.cols = 80 ∧ ∀ bs : List (UInt8 × Int),
      Inv g (feed g (conInit g (fun _ => eraseChar) 0 0) bs) :=
  ⟨⟨.EGAC, 80, 25⟩, rfl, fun bs =>
    console_inside ⟨.EGAC, 80, 25⟩ (by decide) (by decide) (by decide)
      (fun _ => eraseChar) 0 0 (by decide) (by decide) bs⟩

/-- On a screen of two columns a tab leaves the cursor in column 6. -/
theorem narrow_screen_tab :
    ∃ g : Screen, g.cols = 2 ∧ g.lines * g.cols * 2 ≤ g.memEnd - g.memStart ∧
      ¬ (feed g (conInit g (fun _ => eraseChar) 0 0) [(9, 127)]).x ≤
        g.cols :=
  ⟨⟨.EGAC, 2, 25⟩, rfl, by decide, by decide⟩

end LearnLinux.Console
