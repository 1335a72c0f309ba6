/-
What `sys_kill` does to the table.

Each loop is described over a list of slots that falls, so that a slot is
met once and what the loop has done so far does not touch the slots that
are left. From the two descriptions the result follows branch by branch.
-/
import LearnLinux.Sched.Kill

namespace LearnLinux.Kill

open Function (update)

variable {c : Caller} {sig pid : Int} {p : Task} {q : Fin NR_TASKS} {priv : Bool} {t : Table}
variable {sel : Task → Bool}

-- ======== one signal

/-- Sending a signal changes nothing just where it is pending. -/
theorem Task.send_eq_self (h1 : 1 ≤ sig) (h2 : sig ≤ 32) : p.send sig = p ↔ p.Pending sig := by
  obtain ⟨k, hk⟩ : ∃ k : Nat, sig.toNat = k + 1 := ⟨sig.toNat - 1, by omega⟩
  have hlt : k < 32 := by omega
  have hsig : p.send sig = p ↔ p.signal ||| Signal.bit (k + 1) = p.signal := by
    simp only [Task.send, hk]
    constructor
    · intro h
      exact congrArg Task.signal h
    · intro h
      rw [h]
  rw [hsig]
  simp only [Task.Pending, hk, Nat.add_sub_cancel, Signal.bit]
  constructor
  · intro h
    rw [← h]
    simp [hlt]
  · intro h
    apply BitVec.eq_of_getLsbD_eq
    intro i hi
    by_cases hik : i = k
    · subst hik
      simp [h]
    · have : ¬ (i < k) → i - k ≠ 0 := by omega
      simp only [BitVec.getLsbD_or, BitVec.getLsbD_shiftLeft, hi]
      by_cases hlt' : i < k
      · simp [hlt']
      · simp [hlt', this hlt']

/-- Two choices of whom to send to differ only where the signal is not
pending. -/
theorem Task.ite_send_eq (h1 : 1 ≤ sig) (h2 : sig ≤ 32) (A B : Prop) [Decidable A] [Decidable B] :
    (if A then p.send sig else p) = (if B then p.send sig else p) ↔
      (¬ p.Pending sig → (A ↔ B)) := by
  have hs := Task.send_eq_self (p := p) h1 h2
  by_cases hA : A <;> by_cases hB : B <;> simp [hA, hB, ← hs, eq_comm]

/-- The signal reaches the task in the slot, if it may be signalled;
otherwise an error is returned and the table stays. -/
theorem sendSig_spec (h1 : 1 ≤ sig) (h2 : sig ≤ 32) (c : Caller) (priv : Bool) (a : Fin NR_TASKS)
    (t : Table) : ∃ err t', sendSig c sig a priv t = (err, t') ∧
      (err = 0 ↔ ∃ p ∈ t a, priv = true ∨ c.may p = true) ∧ ∀ q, t' q = (t q).map fun p =>
        if q = a ∧ (priv = true ∨ c.may p = true) then p.send sig else p := by
  have hr : ¬ (sig < 1 ∨ 32 < sig) := by omega
  unfold sendSig
  cases hp : t a with
  | none =>
    refine ⟨-EINVAL, t, rfl, by simp [EINVAL], fun q => ?_⟩
    by_cases hqa : q = a
    · rw [hqa, hp]
      rfl
    · simp [hqa]
  | some p =>
    simp only [hr, if_false]
    by_cases hm : (priv || c.may p) = true
    · refine ⟨0, update t a (some (p.send sig)), if_pos hm, by simpa using hm, fun q => ?_⟩
      by_cases hqa : q = a
      · subst hqa
        simp [hp, Bool.or_eq_true .. ▸ hm]
      · simp [hqa]
    · refine ⟨-EPERM, t, if_neg hm, by simpa [EPERM] using hm, fun q => ?_⟩
      by_cases hqa : q = a
      · subst hqa
        simp [hp, Bool.or_eq_true .. ▸ hm]
      · simp [hqa]

-- ======== the loops

section

variable (h1 : 1 ≤ sig) (h2 : sig ≤ 32) (qs : List (Fin NR_TASKS))
include h1 h2 qs

/-- A loop over `qs` sends to the selected tasks in `qs` that may be
signalled. -/
theorem sendTo_table : ∀ (r : Int) (t : Table), qs.Pairwise (· > ·) → ∀ q,
      (sendTo c sig priv sel qs r t).2 q = (t q).map fun p =>
        if q ∈ qs ∧ sel p = true ∧ (priv = true ∨ c.may p = true) then
          p.send sig else p := by
  induction qs with
  | nil =>
    intro r t _ q
    simp [sendTo]
  | cons a qs ih =>
    intro r t hs q
    have ha : a ∉ qs := fun h => lt_irrefl a (List.rel_of_pairwise_cons hs h)
    rw [sendTo]
    by_cases hsel : (t a).any sel = true
    · obtain ⟨err, t', heq, -, ht⟩ := sendSig_spec h1 h2 c priv a t
      rw [if_pos hsel, heq]
      rw [ih _ _ hs.of_cons q, ht, Option.map_map]
      apply Option.map_congr
      intro p hp
      by_cases hqa : q = a
      · subst hqa
        have hpsel : sel p = true := by simpa [show t q = some p from hp] using hsel
        simp [ha, hpsel]
      · simp [hqa]
    · rw [if_neg hsel, ih _ _ hs.of_cons q]
      apply Option.map_congr
      intro p hp
      by_cases hqa : q = a
      · subst hqa
        have hpsel : ¬ sel p = true := by simpa [show t q = some p from hp] using hsel
        simp [hpsel]
      · simp [hqa]

/-- A loop returns 0 just when every selected task may be signalled. -/
theorem sendTo_ret : ∀ (r : Int) (t : Table), qs.Pairwise (· > ·) →
      ((sendTo c sig priv sel qs r t).1 = 0 ↔ r = 0 ∧ ∀ q ∈ qs, ∀ p ∈ t q,
        sel p = true → priv = true ∨ c.may p = true) := by
  induction qs with
  | nil =>
    intro r t _
    simp [sendTo]
  | cons a qs ih =>
    intro r t hs
    have ha : a ∉ qs := fun h => lt_irrefl a (List.rel_of_pairwise_cons hs h)
    rw [sendTo, List.forall_mem_cons]
    by_cases hsel : (t a).any sel = true
    · obtain ⟨err, t', heq, herr, ht⟩ := sendSig_spec h1 h2 c priv a t
      obtain ⟨p, hp, hpsel⟩ : ∃ p, t a = some p ∧ sel p = true := by
        simpa [Option.any_eq_true] using hsel
      have hrest : ∀ q ∈ qs, t' q = t q := by
        intro q hq
        have hqa : q ≠ a := fun h => ha (h ▸ hq)
        simp [ht, hqa]
      rw [if_pos hsel, heq]
      rw [ih _ _ hs.of_cons, forall₂_congr fun q hq => by rw [hrest q hq]]
      by_cases h0 : err = 0 <;> simp_all
    · have hno : ∀ p ∈ t a, sel p = true → priv = true ∨ c.may p = true := by
        intro p hp hpsel
        exact absurd (by simp [show t a = some p from hp, hpsel]) hsel
      rw [if_neg hsel, ih _ _ hs.of_cons]
      exact and_congr_right fun _ => (and_iff_right hno).symm

/-- The loop for pid -1 sends to the first task of `qs` that may be
signalled, and from there on to the group only. -/
theorem sendAll_table : ∀ (r : Int) (t : Table), qs.Pairwise (· > ·) → ∀ q,
      (sendAll c pid sig qs r t).2 q = (t q).map fun p =>
        if q ∈ qs ∧ c.may p = true ∧ ((∃ q' ∈ qs, q < q' ∧ Open c t q') → p.pgrp = -pid) then
          p.send sig else p := by
  induction qs with
  | nil =>
    intro r t _ q
    simp [sendAll]
  | cons a qs ih =>
    intro r t hs q
    have hlt : ∀ q ∈ qs, q < a := fun q h => List.rel_of_pairwise_cons hs h
    have ha : a ∉ qs := fun h => lt_irrefl a (hlt a h)
    obtain ⟨err, t', heq, herr, ht⟩ := sendSig_spec h1 h2 c false a t
    simp only [Bool.false_eq_true, false_or] at herr ht
    rw [sendAll, heq]
    dsimp only
    by_cases hopen : Open c t a
    · rw [if_pos (herr.mpr hopen), sendTo_table h1 h2 _ _ _ hs.of_cons q, ht, Option.map_map]
      apply Option.map_congr
      intro p hp
      by_cases hqa : q = a
      · subst hqa
        have hnone : ¬ ∃ q' ∈ q :: qs, q < q' ∧ Open c t q' := by
          rintro ⟨q', hq', hlt', -⟩
          rcases List.mem_cons.mp hq' with rfl | hq'
          · exact lt_irrefl _ hlt'
          · exact lt_asymm hlt' (hlt q' hq')
        simp only [Function.comp_apply, ha, hnone, List.mem_cons_self, false_and, if_false,
          true_and, false_implies, and_true]
      · have hsome : q ∈ qs → ∃ q' ∈ a :: qs, q < q' ∧ Open c t q' :=
          fun h => ⟨a, List.mem_cons_self, hlt q h, hopen⟩
        simp only [Function.comp_apply, hqa, false_and, if_false]
        apply if_congr _ rfl rfl
        constructor
        · intro h
          exact ⟨List.mem_cons_of_mem a h.1, by simpa using h.2.2, fun _ => by simpa using h.2.1⟩
        · intro h
          have hq : q ∈ qs := List.mem_of_ne_of_mem hqa h.1
          exact ⟨hq, by simpa using h.2.2 (hsome hq), .inr h.2.1⟩
    · have hsame : t' = t := by
        funext q
        rw [ht]
        cases hp : t q <;> grind [Open]
      rw [if_neg (mt herr.mp hopen), hsame, ih _ _ hs.of_cons q]
      apply Option.map_congr
      intro p hp
      by_cases hqa : q = a
      · subst hqa
        have : c.may p = false := by
          simpa using fun hm => hopen ⟨p, hp, hm⟩
        simp [this]
      · simp only [List.mem_cons, hqa, false_or, exists_eq_or_imp, hopen, and_false]

/-- An error is kept. -/
theorem sendAll_ret_ne :
    ∀ (r : Int) (t : Table), qs.Pairwise (· > ·) → r ≠ 0 → (sendAll c pid sig qs r t).1 ≠ 0 := by
  induction qs with
  | nil =>
    intro r t _ hr
    exact hr
  | cons a qs ih =>
    intro r t hs hr
    rw [sendAll]
    dsimp only
    split
    · intro h
      exact hr ((sendTo_ret h1 h2 qs r _ hs.of_cons).mp h).1
    · exact ih _ _ hs.of_cons (by assumption)

end

/-- Where every task may be signalled, the loop for pid -1 returns 0 just
when the first slot is taken. -/
theorem sendAll_ret (h1 : 1 ≤ sig) (h2 : sig ≤ 32) {a : Fin NR_TASKS}
    {qs : List (Fin NR_TASKS)} (hs : (a :: qs).Pairwise (· > ·))
    (hall : ∀ q ∈ a :: qs, ∀ p ∈ t q, c.may p = true) :
    (sendAll c pid sig (a :: qs) 0 t).1 = 0 ↔ (t a).isSome := by
  have ha : a ∉ qs := fun h => lt_irrefl a (List.rel_of_pairwise_cons hs h)
  obtain ⟨err, t', heq, herr, ht⟩ := sendSig_spec h1 h2 c false a t
  rw [sendAll, heq]
  dsimp only
  cases hp : t a with
  | none =>
    have hne : err ≠ 0 := by simp [herr, hp]
    rw [if_neg hne]
    simpa using sendAll_ret_ne h1 h2 qs err t' hs.of_cons hne
  | some p =>
    have hm := hall a List.mem_cons_self p hp
    rw [if_pos (herr.mpr ⟨p, hp, .inr hm⟩), sendTo_ret h1 h2 _ _ _ hs.of_cons]
    simp only [true_and, Option.isSome_some, iff_true]
    intro q hq p' hp' _
    have hqa : q ≠ a := fun h => ha (h ▸ hq)
    simp only [ht, hqa, false_and, if_false, Option.map_id'] at hp'
    exact .inr (hall q (List.mem_cons_of_mem a hq) p' hp')

-- ======== the call

theorem slots_pairwise : slots.Pairwise (· > ·) := by decide +kernel

theorem mem_slots : ∀ q, q ∈ slots ↔ q ≠ 0 := by decide +kernel

theorem slots_eq : slots = Fin.last 63 :: slots.tail := by decide +kernel

/-- Two ways to change the tasks of a table agree where they agree on each
task. -/
theorem map_eq_iff {f g : Fin NR_TASKS → Task → Task} :
    (∀ q, (t q).map (f q) = (t q).map (g q)) ↔ ∀ q, ∀ p ∈ t q, f q p = g q p := by
  apply forall_congr'
  intro q
  cases t q <;> simp

/-- Where the code sends to the tasks of `S`, the table is the wanted one
just when `S` and the wanted tasks differ by pending ones only. -/
theorem table_iff {S : Fin NR_TASKS → Task → Prop}
    [∀ q p, Decidable (S q p)] (h1 : 1 ≤ sig) (h2 : sig ≤ 32)
    (hcode : ∀ q, (sysKill c pid sig t).2 q = (t q).map fun p =>
      if q ≠ 0 ∧ S q p then p.send sig else p) :
    (∀ q, (sysKill c pid sig t).2 q = (t q).map fun p =>
      if q ≠ 0 ∧ Addressed c pid p ∧ Permitted c pid p then p.send sig
      else p) ↔
    ∀ q ≠ 0, ∀ p ∈ t q, ¬ p.Pending sig → (S q p ↔ Addressed c pid p ∧ Permitted c pid p) := by
  simp only [hcode]
  rw [map_eq_iff]
  apply forall_congr'
  intro q
  simp only [Task.ite_send_eq h1 h2]
  constructor
  · intro h hq p hp hn
    have := h p hp hn
    simpa only [ne_eq, hq, not_false_eq_true, true_and] using this
  · intro h p hp hn
    by_cases hq : q = 0
    · simp [hq]
    · simpa only [ne_eq, hq, not_false_eq_true, true_and] using h hq p hp hn

/-- A loop over all slots, against the tasks it should reach. -/
theorem right_of_loop (h1 : 1 ≤ sig) (h2 : sig ≤ 32)
    (hcode : sysKill c pid sig t = sendTo c sig priv sel slots 0 t)
    (hper : ∀ p, Permitted c pid p ↔ priv = true ∨ c.may p = true) : Right c pid sig t ↔
      (∀ q ≠ 0, ∀ p ∈ t q, ¬ p.Pending sig → (sel p = true ∧ Permitted c pid p ↔
          Addressed c pid p ∧ Permitted c pid p)) ∧
      ((∀ q ≠ 0, ∀ p ∈ t q, Addressed c pid p → Permitted c pid p) →
        ∀ q ≠ 0, ∀ p ∈ t q, sel p = true → Permitted c pid p) := by
  have htab : ∀ q, (sysKill c pid sig t).2 q = (t q).map fun p =>
    if q ≠ 0 ∧ (sel p = true ∧ Permitted c pid p) then p.send sig
    else p := by
    intro q
    rw [hcode, sendTo_table h1 h2 _ _ _ slots_pairwise]
    simp only [mem_slots, hper]
  have hret : (sysKill c pid sig t).1 = 0 ↔
      ∀ q ≠ 0, ∀ p ∈ t q, sel p = true → Permitted c pid p := by
    rw [hcode, sendTo_ret h1 h2 _ _ _ slots_pairwise]
    simp only [mem_slots, hper, true_and]
  rw [← table_iff h1 h2 htab, ← hret]
  constructor
  · intro h
    exact ⟨h.table, h.ret⟩
  · intro h
    exact ⟨h.1, h.2⟩

section

variable (h1 : 1 ≤ sig) (h2 : sig ≤ 32)
include h1 h2

theorem right_zero : Right c 0 sig t ↔ Reached c 0 sig t := by
  have hper : ∀ p, Permitted c 0 p := fun p => .inl rfl
  rw [right_of_loop h1 h2 rfl (by simp [hper])]
  simp only [hper, and_true, implies_true, decide_eq_true_eq, Reached, if_true, Addressed]

theorem right_pos (hpid : 0 < pid) : Right c pid sig t := by
  have h0 : pid ≠ 0 := by omega
  have hcode : sysKill c pid sig t = sendTo c sig false (fun p => p.pid = pid) slots 0 t := by
    simp only [sysKill, h0, hpid, if_false, if_true]
  rw [right_of_loop h1 h2 hcode (by simp [Permitted, h0])]
  simp only [Addressed, h0, hpid, if_false, if_true, decide_eq_true_eq]
  exact ⟨fun _ _ _ _ _ => trivial, fun h => h⟩

theorem right_all : Right c (-1) sig t ↔ Reached c (-1) sig t := by
  have hcode : sysKill c (-1) sig t = sendAll c (-1) sig slots 0 t := rfl
  have hadd : ∀ p, Addressed c (-1) p := fun p => by simp [Addressed]
  have hper : ∀ p, Permitted c (-1) p ↔ c.may p = true := by
    simp [Permitted]
  have hgt : ∀ q q' : Fin NR_TASKS, q < q' → q' ∈ slots := by
    intro q q' h
    rw [mem_slots]
    exact Fin.ne_of_gt (lt_of_le_of_lt (Fin.zero_le q) h)
  have htab : ∀ q, (sysKill c (-1) sig t).2 q = (t q).map fun p =>
    if q ≠ 0 ∧ (c.may p = true ∧ ((∃ q', q < q' ∧ Open c t q') → p.pgrp = 1)) then p.send sig
    else p := by
    intro q
    rw [hcode, sendAll_table h1 h2 _ _ _ slots_pairwise]
    apply Option.map_congr
    intro p _
    apply if_congr _ rfl rfl
    have hex : (∃ q' ∈ slots, q < q' ∧ Open c t q') ↔ ∃ q', q < q' ∧ Open c t q' := by
      constructor
      · intro ⟨q', _, h⟩
        exact ⟨q', h⟩
      · intro ⟨q', h⟩
        exact ⟨q', hgt q q' h.1, h⟩
    rw [mem_slots, hex, Int.neg_neg]
  have hret : (∀ q ≠ 0, ∀ p ∈ t q, c.may p = true) →
      ((sysKill c (-1) sig t).1 = 0 ↔ (t (Fin.last 63)).isSome) := by
    intro hall
    rw [hcode, slots_eq]
    apply sendAll_ret h1 h2
    · rw [← slots_eq]
      exact slots_pairwise
    · intro q hq
      rw [← slots_eq, mem_slots] at hq
      exact hall q hq
  have htable := table_iff h1 h2 htab
  simp only [hadd, hper, true_and] at htable
  have hreach : Reached c (-1) sig t ↔ (∀ q ≠ 0, ∀ p ∈ t q, ¬ p.Pending sig → (c.may p = true ∧
        ((∃ q', q < q' ∧ Open c t q') → p.pgrp = 1) ↔ c.may p = true)) ∧
      ((∀ q ≠ 0, ∀ p ∈ t q, c.may p = true) → (sysKill c (-1) sig t).1 = 0) := by
    simp only [Reached]
    apply and_congr
    · constructor
      · intro h q hq p hp hn
        exact ⟨fun h' => h'.1, fun h' => ⟨h', fun he => h q hq p hp h' he hn⟩⟩
      · intro h q hq p hp hm he hn
        exact ((h q hq p hp hn).mpr hm).2 he
    · constructor
      · intro h hall
        exact (hret hall).mpr (h hall)
      · intro h hall
        exact (hret hall).mp (h hall)
  rw [hreach, ← htable]
  constructor
  · intro h
    refine ⟨?_, ?_⟩
    · intro q
      simpa only [hadd, hper, true_and] using h.table q
    · simpa only [hadd, hper, true_implies] using h.ret
  · intro h
    refine ⟨?_, ?_⟩
    · intro q
      simpa only [hadd, hper, true_and] using h.1 q
    · simpa only [hadd, hper, true_implies] using h.2

theorem right_group (hpid : pid < -1) : Right c pid sig t ↔ Reached c pid sig t := by
  have h0 : pid ≠ 0 := by omega
  have h' : ¬ 0 < pid := by omega
  have hm1 : pid ≠ -1 := by omega
  have hcode : sysKill c pid sig t = (0, t) := by
    simp only [sysKill, h0, h', hm1, if_false]
  have htab : ∀ q, (sysKill c pid sig t).2 q = (t q).map fun p =>
    if q ≠ 0 ∧ False then p.send sig else p := by
    intro q
    simp [hcode]
  have htable := table_iff h1 h2 htab
  have hright : Right c pid sig t ↔ ∀ q, (sysKill c pid sig t).2 q =
      (t q).map fun p => if q ≠ 0 ∧ Addressed c pid p ∧ Permitted c pid p then
        p.send sig else p := by
    constructor
    · intro h
      exact h.table
    · intro h
      exact ⟨h, fun _ => by rw [hcode]⟩
  rw [hright, htable]
  simp only [Reached, h0, h', hm1, if_false, Addressed, Permitted, false_or, false_iff, not_and]
  constructor
  · intro h q hq p hp hg hm
    by_contra hn
    exact h q hq p hp hn hg hm
  · intro h q hq p hp hn hg hm
    exact hn (h q hq p hp hg hm)

end

/-- `sys_kill` signals exactly the addressed tasks just when the table is
one of those on which its branches reach them. -/
theorem signals_exactly_iff (c : Caller) (pid sig : Int) (t : Table)
    (h1 : 1 ≤ sig) (h2 : sig ≤ 32) : Right c pid sig t ↔ Reached c pid sig t := by
  rcases lt_trichotomy pid 0 with hneg | rfl | hpos
  · by_cases hm1 : pid = -1
    · subst hm1
      exact right_all h1 h2
    · exact right_group h1 h2 (by omega)
  · exact right_zero h1 h2
  · have : Reached c pid sig t := by
      simp [Reached, hpos, show pid ≠ 0 by omega]
    exact iff_of_true (right_pos h1 h2 hpos) this

/-- Two tasks of group 5 that the caller owns. -/
def pair : Table := fun q =>
  if q = 1 ∨ q = 2 then some ⟨q.val, 5, 100, 0⟩ else none

/-- The task with pid 2 is signalled and it alone. -/
theorem signals_exactly_iff_pid : Right ⟨2, 5, 100⟩ 2 15 pair ∧ Reached ⟨2, 5, 100⟩ 2 15 pair := by
  have h : Reached ⟨2, 5, 100⟩ 2 15 pair := by simp [Reached]
  exact ⟨(signals_exactly_iff ⟨2, 5, 100⟩ 2 15 pair (by decide) (by decide)).mpr h, h⟩

/-- The group of the two tasks is addressed by `-5`: nothing happens, and
0 is returned. -/
theorem group_not_signalled : ¬ Right ⟨2, 5, 100⟩ (-5) 15 pair := by
  intro h
  exact absurd (h.table 1) (by decide)

end LearnLinux.Kill
