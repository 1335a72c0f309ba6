/-
Runs of a partial step function, with the two rules every later result
about runs goes through: an invariant kept by each step is kept by the
run, and a step-by-step simulation is a simulation of runs.

A step may fail (`none`): the run ends there without a result, which
is how a kernel routine that does not return is read. The invariant
rule takes a side condition on each step, `Meets`, so that a property
that holds only of well-behaved runs is stated with the same rule.
-/
import Mathlib

namespace LearnLinux.Lib

variable {σ τ ι : Type*}

/-- An entry of a table in which one has been set. -/
theorem update_cases {α β : Type*} [DecidableEq α] {f : α → β} {a x : α} {b y : β}
    (h : Function.update f a b x = y) : x = a ∧ b = y ∨ x ≠ a ∧ f x = y := by
  rcases eq_or_ne x a with rfl | hne
  · exact .inl ⟨rfl, (Function.update_self ..).symm.trans h⟩
  · exact .inr ⟨hne, (Function.update_of_ne hne ..).symm.trans h⟩

/-- The operations `os`, one after the other. -/
def runOps (step : ι → σ → Option σ) : List ι → σ → Option σ
  | [], s => some s
  | o :: os, s => (step o s).bind (runOps step os)

/-- Every step of the run meets the condition `good` in the state it
starts from. -/
def Meets (step : ι → σ → Option σ) (good : ι → σ → Prop) : List ι → σ → Prop
  | [], _ => True
  | o :: os, s =>
    good o s ∧ ∀ s', step o s = some s' → Meets step good os s'

/-- The run that checks the condition as it goes, to evaluate concrete
runs with. -/
def runChecked (step : ι → σ → Option σ) (good : ι → σ → Prop)
    [∀ o s, Decidable (good o s)] : List ι → σ → Option σ
  | [], s => some s
  | o :: os, s =>
    if good o s then (step o s).bind (runChecked step good os) else none

variable {step : ι → σ → Option σ} {os : List ι} {s s' : σ} {good : ι → σ → Prop} {I : σ → Prop}

theorem runOps_cons {o : ι} (h : runOps step (o :: os) s = some s') :
    ∃ s1, step o s = some s1 ∧ runOps step os s1 = some s' := by
  rw [runOps, Option.bind_eq_some_iff] at h
  exact h

/-- Runs compose. -/
theorem runOps_append (os os' : List ι) (s : σ) : runOps step (os ++ os') s
      = (runOps step os s).bind (runOps step os') := by
  induction os generalizing s with
  | nil => rfl
  | cons o os ih =>
    rw [List.cons_append, runOps, runOps, Option.bind_assoc]
    exact congrArg _ (funext fun s1 => ih s1)

/-- The invariant rule, for runs whose steps all meet `good`. -/
theorem runOps_invariant (hstep : ∀ o s s', I s → good o s → step o s = some s' → I s') :
    ∀ {os : List ι} {s s' : σ}, Meets step good os s → runOps step os s = some s' → I s → I s' := by
  intro os
  induction os with
  | nil =>
    intro s s' _ h hs
    cases h
    exact hs
  | cons o os ih =>
    intro s s' hm h hs
    obtain ⟨s1, h1, h2⟩ := runOps_cons h
    exact ih (hm.2 s1 h1) h2 (hstep o s s1 hs hm.1 h1)

/-- A condition on the operations alone is met along every run of
them. -/
theorem meets_of_forall (h : ∀ o ∈ os, ∀ s, good o s) (s : σ) : Meets step good os s := by
  induction os generalizing s with
  | nil => trivial
  | cons o os ih =>
    exact ⟨h o (List.mem_cons_self ..) s, fun s' _ =>
      ih (fun o' ho' => h o' (List.mem_cons_of_mem o ho')) s'⟩

/-- The steps of the first part of a run meet what all of them meet. -/
theorem Meets.of_append {os' : List ι}
    (h : Meets step good (os ++ os') s) : Meets step good os s := by
  induction os generalizing s with
  | nil => trivial
  | cons o os ih => exact ⟨h.1, fun s' hs' => ih (h.2 s' hs')⟩

/-- The step after the first part of a run meets it too. -/
theorem Meets.next {o : ι} {os' : List ι} (h : Meets step good (os ++ o :: os') s)
    (hrun : runOps step os s = some s') : good o s' := by
  induction os generalizing s with
  | nil =>
    cases hrun
    exact h.1
  | cons o' os ih =>
    obtain ⟨s1, h1, h2⟩ := runOps_cons hrun
    exact ih (h.2 s1 h1) h2

/-- The rule for a condition that is exactly right: the steps that meet it
keep the invariant `I`, and with it `P`; a step that does not meet it
breaks `P`. Then a run meets the condition if and only if `P` holds in
every state it goes through. -/
theorem meets_iff_states {P : σ → Prop}
    (hstep : ∀ o s s', I s → good o s → step o s = some s' → I s') (hP : ∀ s, I s → P s)
    (hbad : ∀ o s s', I s → step o s = some s' → P s' → good o s) :
    ∀ {os : List ι} {s s' : σ}, runOps step os s = some s' → I s →
      (Meets step good os s ↔ ∀ os1 os2 s1, os = os1 ++ os2 →
        runOps step os1 s = some s1 → P s1) := by
  intro os s s' h hs
  constructor
  · rintro hm os1 os2 s1 rfl h1
    exact hP s1 (runOps_invariant hstep hm.of_append h1 hs)
  · intro hall
    induction os generalizing s with
    | nil => trivial
    | cons o os ih =>
      obtain ⟨s1, h1, h2⟩ := runOps_cons h
      have hg : good o s := by
        refine hbad o s s1 hs h1 (hall [o] os s1 rfl ?_)
        rw [runOps, h1]
        rfl
      refine ⟨hg, fun s2 hs2 => ?_⟩
      rw [h1] at hs2
      cases hs2
      refine ih h2 (hstep o s s1 hs hg h1) fun os1 os2 s3 hos hs3 => ?_
      refine hall (o :: os1) os2 s3 (by rw [hos, List.cons_append]) ?_
      rw [runOps, h1]
      exact hs3

/-- A run meets a condition if each of its steps does, in the state it is
taken in. -/
theorem meets_iff : ∀ {os : List ι} {s s' : σ}, runOps step os s = some s' →
      (Meets step good os s ↔ ∀ os1 o os2 s1, os = os1 ++ o :: os2 →
        runOps step os1 s = some s1 → good o s1) := by
  intro os
  induction os with
  | nil =>
    intro s s' _
    refine iff_of_true trivial fun os1 o os2 _ hos => ?_
    exact absurd hos (by simp)
  | cons o os ih =>
    intro s s' h
    obtain ⟨s1, h1, h2⟩ := runOps_cons h
    constructor
    · rintro ⟨hg, hm⟩ os1 o' os2 s2 hos hs2
      cases os1 with
      | nil =>
        obtain ⟨rfl, -⟩ := List.cons.inj hos
        cases hs2
        exact hg
      | cons o'' os1 =>
        obtain ⟨rfl, hos'⟩ := List.cons.inj hos
        obtain ⟨s3, h3, h4⟩ := runOps_cons hs2
        rw [h1] at h3
        cases h3
        exact (ih h2).mp (hm s1 h1) os1 o' os2 s2 hos' h4
    · intro hall
      refine ⟨hall [] o os s rfl rfl, fun s2 hs2 => ?_⟩
      rw [h1] at hs2
      cases hs2
      refine (ih h2).mpr fun os1 o' os2 s2 hos hs2 => ?_
      refine hall (o :: os1) o' os2 s2 (by rw [hos, List.cons_append]) ?_
      rw [runOps, h1]
      exact hs2

/-- An invariant that needs no condition on the steps. -/
theorem runOps_invariant_all (hstep : ∀ o s s', I s → step o s = some s' → I s')
    (h : runOps step os s = some s') (hs : I s) : I s' := by
  have hm : Meets step (fun _ _ => True) os s :=
    meets_of_forall (fun _ _ _ => trivial) s
  exact runOps_invariant (fun o s s' hI _ hs' => hstep o s s' hI hs') hm h hs

theorem runChecked_eq_some [∀ o s, Decidable (good o s)] :
    ∀ {os : List ι} {s s' : σ}, runChecked step good os s = some s' →
      Meets step good os s ∧ runOps step os s = some s' := by
  intro os
  induction os with
  | nil =>
    intro s s' h
    exact ⟨trivial, h⟩
  | cons o os ih =>
    intro s s' h
    obtain ⟨hg, h⟩ := Option.ite_none_right_eq_some.mp h
    obtain ⟨s1, h1, h2⟩ := Option.bind_eq_some_iff.mp h
    obtain ⟨hm, hr⟩ := ih h2
    refine ⟨⟨hg, fun s2 h3 => ?_⟩, ?_⟩
    · rw [h1] at h3
      cases h3
      exact hm
    · rw [runOps, h1]
      exact hr

variable {Q : σ → Prop}

/-- A run that is evaluated, as far as what its end is asked for. -/
theorem exists_run (P : σ → Prop) [DecidablePred P] (h : (runOps step os s).any (P ·) = true)
    (hQ : ∀ s', runOps step os s = some s' → P s' → Q s') :
    ∃ s', runOps step os s = some s' ∧ Q s' := by
  obtain ⟨s', hs, hP⟩ := (Option.any_eq_true ..).mp h
  exact ⟨s', hs, hQ s' hs (of_decide_eq_true hP)⟩

/-- The same of a run whose steps all meet a condition. -/
theorem exists_checked (good : ι → σ → Prop) [∀ o s, Decidable (good o s)] (P : σ → Prop)
    [DecidablePred P] (h : (runChecked step good os s).any (P ·) = true)
    (hQ : ∀ s', Meets step good os s → runOps step os s = some s' → P s' → Q s') :
    ∃ s', runOps step os s = some s' ∧ Q s' := by
  obtain ⟨s', hs, hP⟩ := (Option.any_eq_true ..).mp h
  obtain ⟨hm, hrun⟩ := runChecked_eq_some hs
  exact ⟨s', hrun, hQ s' hm hrun (of_decide_eq_true hP)⟩

/-- The simulation rule: `R` kept by each step and its abstract
counterpart is kept by the run and the fold. -/
theorem runOps_sim {R : σ → τ → Prop} {astep : τ → ι → τ} {P : ι → Prop}
    (hstep : ∀ o s s' t, P o → R s t → step o s = some s' → R s' (astep t o)) :
    ∀ {os : List ι} {s s' : σ} {t : τ}, (∀ o ∈ os, P o) →
      runOps step os s = some s' → R s t → R s' (os.foldl astep t) := by
  intro os
  induction os with
  | nil =>
    intro s s' t _ h hR
    cases h
    exact hR
  | cons o os ih =>
    intro s s' t hP h hR
    obtain ⟨s1, h1, h2⟩ := runOps_cons h
    exact ih (fun o' ho' => hP o' (List.mem_cons_of_mem o ho')) h2
      (hstep o s s1 t (hP o (List.mem_cons_self ..)) hR h1)

end LearnLinux.Lib
