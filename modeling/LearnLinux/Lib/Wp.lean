/-
What a program does, for programs that keep a state and may stop with an
error: `Wp err x Q s` says that `x`, started in the state `s`, either
returns a result and a state that `Q` holds of, or stops with an error and
a state that `err` holds of.

There is one rule for each way to make a program, an equivalence, so that
a goal about a whole program is turned into goals about its parts. Two
facts about one run of one program are one fact (`Wp.and`).
-/
import Mathlib

namespace LearnLinux.Lib

variable {ε σ α β : Type}

/-- A program: a state passed along, and errors. -/
abbrev Prog (ε σ α : Type) := ExceptT ε (StateM σ) α

/-- The result of a program, and the state it ends in. -/
def Prog.exec (x : Prog ε σ α) (s : σ) : Except ε α × σ :=
  StateT.run (ExceptT.run x) s

/-- `for (i = start; m > 0; i++, m--) f(i)`. -/
def forUp (f : Nat → Prog ε σ PUnit) : Nat → Nat → Prog ε σ PUnit
  | 0, _ => pure ⟨⟩
  | m + 1, i => do
    f i
    forUp f m (i + 1)

def Wp (err : ε → σ → Prop) (x : Prog ε σ α) (Q : α → σ → Prop) (s : σ) :
    Prop :=
  match x.exec s with
  | (.ok a, s') => Q a s'
  | (.error e, s') => err e s'

variable {err err' : ε → σ → Prop} {x : Prog ε σ α} {s s : σ} {Q Q' : α → σ → Prop} {I : σ → Prop}

-- ======== the rules

@[simp] theorem wp_pure {a : α} {Q : α → σ → Prop} :
    Wp err (pure a : Prog ε σ α) Q s ↔ Q a s := Iff.rfl

@[simp] theorem wp_bind {f : α → Prog ε σ β} {Q : β → σ → Prop} :
    Wp err (x >>= f) Q s ↔ Wp err x (fun a s' => Wp err (f a) Q s') s := by
  have hb : (x >>= f).exec s = (match x.exec s with
      | (.ok a, s') => (f a).exec s'
      | (.error e, s') => (.error e, s')) := by
    change ((ExceptT.bindCont f) (x s).1) (x s).2 = _
    change _ = (match x s with
      | (.ok a, s') => f a s'
      | (.error e, s') => (.error e, s'))
    rcases x s with ⟨_ | _, _⟩ <;> rfl
  unfold Wp
  rw [hb]
  rcases x.exec s with ⟨_ | _, _⟩ <;> rfl

@[simp] theorem wp_get {Q : σ → σ → Prop} : Wp err (get : Prog ε σ σ) Q s ↔ Q s s := Iff.rfl

@[simp] theorem wp_set {s' : σ} {Q : PUnit → σ → Prop} :
    Wp err (set s' : Prog ε σ PUnit) Q s ↔ Q ⟨⟩ s' := Iff.rfl

@[simp] theorem wp_modify {f : σ → σ} {Q : PUnit → σ → Prop} :
    Wp err (modify f : Prog ε σ PUnit) Q s ↔ Q ⟨⟩ (f s) := Iff.rfl

@[simp] theorem wp_throw {e : ε} : Wp err (throw e : Prog ε σ α) Q s ↔ err e s := Iff.rfl

@[simp] theorem wp_ite {c : Prop} [Decidable c] {y : Prog ε σ α} :
    Wp err (if c then x else y) Q s ↔ if c then Wp err x Q s else Wp err y Q s := by
  split <;> rfl

-- ======== consequence

theorem Wp.imp (h : Wp err x Q s) (hQ : ∀ a s', Q a s' → Q' a s') : Wp err x Q' s := by
  unfold Wp at h ⊢
  rcases hr : x.exec s with ⟨_ | a, s'⟩
  · rw [hr] at h
    exact h
  · rw [hr] at h
    exact hQ a s' h

/-- Two facts about the same run. -/
theorem Wp.and (h : Wp err x Q s)
    (h' : Wp err' x Q' s) : Wp err x (fun a s' => Q a s' ∧ Q' a s') s := by
  unfold Wp at h h' ⊢
  rcases hr : x.exec s with ⟨_ | a, s'⟩
  · rw [hr] at h
    exact h
  · rw [hr] at h h'
    exact ⟨h, h'⟩

/-- A program that returned. -/
theorem Wp.ok (h : Wp err x Q s) {a : α} {s' : σ} (hr : x.exec s = (.ok a, s')) : Q a s' := by
  unfold Wp at h
  rw [hr] at h
  exact h

-- ======== loops

/-- A loop over a list: what every round keeps. -/
theorem wp_forM {f : α → Prog ε σ PUnit}
    (hstep : ∀ a s, I s → Wp err (f a) (fun _ s' => I s') s) (l : List α)
    (hs : I s) : Wp err (l.forM f) (fun _ s' => I s') s := by
  induction l generalizing s with
  | nil => exact hs
  | cons a l ih =>
    change Wp err (f a >>= fun _ => l.forM f) _ s
    rw [wp_bind]
    exact (hstep a s hs).imp fun _ s' hs' => ih hs'

/-- A counted loop: what every round keeps. -/
theorem wp_forUp {f : Nat → Prog ε σ PUnit}
    (hstep : ∀ i s, I s → Wp err (f i) (fun _ s' => I s') s) (m i : Nat)
    (hs : I s) : Wp err (forUp f m i) (fun _ s' => I s') s := by
  induction m generalizing i s with
  | zero => exact hs
  | succ m ih =>
    rw [forUp, wp_bind]
    exact (hstep i s hs).imp fun _ s' hs' => ih (i + 1) hs'

end LearnLinux.Lib
