/-
Doubly linked lists in link fields.

The links are two functions, `next` and `prev`, from cells to pointers (a
pointer is a cell or NULL). `Seg` is a stretch of a list: the cells it
goes through, with the pointers it comes from and goes on to. A list that
ends in NULL (`Chain`) and a ring (`Ring`) are two ways to close a
stretch, so the surgery on both rests on the same two lemmas: the last
cell of a stretch may be given another successor (`Seg.retarget`), and
the first one another predecessor (`Seg.repoint`).

`Table` is an array of chains that share the link fields, as the buckets
of a hash table do.

A singly linked list is a `Walk`: its pointers are cells themselves, one
of which stands for NULL.
-/
import Mathlib

namespace LearnLinux.Lib

open Function (update update_self update_of_ne)

variable {α β ι : Type*}

-- ======== stretches

/-- The stretch from `h` through the cells of the list to `e`, with `p`
before the first cell and `q` the last one. -/
def Seg (next prev : α → Option α) : Option α → Option α → List α → Option α → Option α → Prop
  | p, h, [], q, e => p = q ∧ h = e
  | p, h, a :: l, q, e =>
    h = some a ∧ prev a = p ∧ Seg next prev (some a) (next a) l q e

variable {next prev next' prev' : α → Option α} {p h q e : Option α} {l l' xs ys : List α} {a : α}

theorem seg_append : Seg next prev p h (l ++ l') q e ↔
    ∃ m n, Seg next prev p h l m n ∧ Seg next prev m n l' q e := by
  induction l generalizing p h with
  | nil =>
    constructor
    · intro hs
      exact ⟨p, h, ⟨rfl, rfl⟩, hs⟩
    · rintro ⟨m, n, ⟨rfl, rfl⟩, hs⟩
      exact hs
  | cons a l ih =>
    constructor
    · rintro ⟨hh, hp, hs⟩
      obtain ⟨m, n, hl, hl'⟩ := ih.mp hs
      exact ⟨m, n, ⟨hh, hp, hl⟩, hl'⟩
    · rintro ⟨m, n, ⟨hh, hp, hl⟩, hl'⟩
      exact ⟨hh, hp, ih.mpr ⟨m, n, hl, hl'⟩⟩

/-- Only the links of its own cells matter to a stretch. -/
theorem Seg.congr (hs : Seg next prev p h l q e) (hn : ∀ a ∈ l, next' a = next a)
    (hp : ∀ a ∈ l, prev' a = prev a) : Seg next' prev' p h l q e := by
  induction l generalizing p h with
  | nil => exact hs
  | cons a l ih =>
    obtain ⟨hh, hpa, hs⟩ := hs
    refine ⟨hh, (hp a (List.mem_cons_self ..)).trans hpa, ?_⟩
    rw [hn a (List.mem_cons_self ..)]
    exact ih hs (fun b hb => hn b (List.mem_cons_of_mem a hb))
      (fun b hb => hp b (List.mem_cons_of_mem a hb))

/-- The last cell of a stretch, the one before it if it is empty. -/
theorem Seg.last_eq (hs : Seg next prev p h l q e) : q = (l.getLast?.or p) := by
  induction l generalizing p h with
  | nil => exact hs.1.symm
  | cons a l ih =>
    rw [ih hs.2.2]
    cases hl : l.getLast? with
    | none =>
      rw [List.getLast?_eq_none_iff.mp hl]
      rfl
    | some b =>
      rw [List.getLast?_cons, hl]
      rfl

/-- A stretch that does not end in NULL does not start with it. -/
theorem Seg.head_some (hs : Seg next prev p h l q (some a)) : ∃ b, h = some b := by
  cases l with
  | nil => exact ⟨a, hs.2⟩
  | cons b l => exact ⟨b, hs.1⟩

/-- One that ends in NULL starts with its first cell. -/
theorem Seg.head_mem (hs : Seg next prev p h l q none) (hh : h = some a) : a ∈ l ∧ prev a = p := by
  cases l with
  | nil => exact absurd (hh.symm.trans hs.2) nofun
  | cons b l =>
    obtain rfl := Option.some.inj (hh.symm.trans hs.1)
    exact ⟨List.mem_cons_self .., hs.2.1⟩

/-- A list that ends in NULL. -/
def Chain (next prev : α → Option α) (h : Option α) (l : List α) : Prop :=
  ∃ q, Seg next prev none h l q none

theorem Chain.congr (hc : Chain next prev h l) (hn : ∀ a ∈ l, next' a = next a)
    (hp : ∀ a ∈ l, prev' a = prev a) : Chain next' prev' h l := by
  obtain ⟨q, hs⟩ := hc
  exact ⟨q, hs.congr hn hp⟩

/-- A ring: after its last cell the list starts again. -/
def Ring (next prev : α → Option α) (h : Option α) (l : List α) : Prop :=
  ∃ q, Seg next prev q h l q h

/-- The first cell of a ring that is not empty. -/
theorem Ring.first (hr : Ring next prev h (a :: l)) : h = some a := by
  obtain ⟨q, hs⟩ := hr
  exact hs.1

/-- A ring can be read from any of its cells. -/
theorem Ring.rotate {b : α} (hr : Ring next prev h (xs ++ b :: ys)) :
    Ring next prev (some b) (b :: ys ++ xs) := by
  obtain ⟨q, hs⟩ := hr
  obtain ⟨m, n, hl, hr⟩ := seg_append.mp hs
  obtain rfl := hr.1
  exact ⟨m, seg_append.mpr ⟨q, h, hr, hl⟩⟩

-- ======== singly linked

/-- The walk from `a` through the cells of the list to `e`. -/
def Walk (next : α → α) : α → List α → α → Prop
  | a, [], e => a = e
  | a, b :: l, e => a = b ∧ Walk next (next b) l e

variable {f f' : α → α} {a b c : α} {n k x : Nat}

theorem walk_append : Walk f a (l ++ l') b ↔ ∃ c, Walk f a l c ∧ Walk f c l' b := by
  induction l generalizing a with
  | nil =>
    constructor
    · exact fun h => ⟨a, rfl, h⟩
    · rintro ⟨c, rfl, h⟩
      exact h
  | cons x l ih =>
    constructor
    · rintro ⟨rfl, h⟩
      obtain ⟨c, hl, hl'⟩ := ih.mp h
      exact ⟨c, ⟨rfl, hl⟩, hl'⟩
    · rintro ⟨c, ⟨rfl, hl⟩, hl'⟩
      exact ⟨rfl, ih.mpr ⟨c, hl, hl'⟩⟩

theorem Walk.congr (h : Walk f a l b) (heq : ∀ x ∈ l, f' x = f x) : Walk f' a l b := by
  induction l generalizing a with
  | nil => exact h
  | cons x l ih =>
    refine ⟨h.1, ?_⟩
    rw [heq x (List.mem_cons_self ..)]
    exact ih h.2 fun y hy => heq y (List.mem_cons_of_mem x hy)

/-- The cell `b` is put behind the cell `c`. -/
theorem Walk.insert {e : α} (h : Walk f a (l ++ c :: l') e) (hc : f' c = b)
    (hb : f' b = f c) (hl : ∀ x ∈ l, f' x = f x)
    (hl' : ∀ x ∈ l', f' x = f x) : Walk f' a (l ++ c :: b :: l') e := by
  obtain ⟨d, h1, rfl, h2⟩ := walk_append.mp h
  refine walk_append.mpr ⟨d, h1.congr hl, rfl, hc, ?_⟩
  rw [hb]
  exact h2.congr hl'

/-- The cell `b` behind the cell `c` is taken out. -/
theorem Walk.remove {e : α} (h : Walk f a (l ++ c :: b :: l') e) (hc : f' c = f b)
    (hl : ∀ x ∈ l, f' x = f x) (hl' : ∀ x ∈ l', f' x = f x) : Walk f' a (l ++ c :: l') e := by
  obtain ⟨d, h1, rfl, hd, h2⟩ := walk_append.mp h
  refine walk_append.mpr ⟨d, h1.congr hl, rfl, ?_⟩
  rw [hc]
  exact h2.congr hl'

/-- The cells `a, a + n, a + 2 * n, ...` of a stretch of memory, `k + 1` of
them. -/
def cells (n k a : Nat) : List Nat :=
  (List.range (k + 1)).map fun i => a + i * n

theorem mem_cells {a : Nat} : x ∈ cells n k a ↔ ∃ i ≤ k, x = a + i * n := by
  simp only [cells, List.mem_map, List.mem_range, Nat.lt_succ_iff]
  exact exists_congr fun i => and_congr_right fun _ => eq_comm

theorem cells_succ (n k a : Nat) : cells n (k + 1) a = a :: cells n k (a + n) := by
  rw [cells, List.range_succ_eq_map, List.map_cons, List.map_map, Nat.zero_mul, Nat.add_zero]
  refine congrArg (a :: ·) (List.map_congr_left fun i _ => ?_)
  rw [Function.comp_apply, Nat.succ_mul]
  omega

theorem cells_nodup (hn : 0 < n) (k a : Nat) : (cells n k a).Nodup := by
  refine List.Nodup.map (fun i j hij => ?_) List.nodup_range
  exact Nat.eq_of_mul_eq_mul_right hn (Nat.add_left_cancel hij)

/-- Each of the first `k` cells is made to point to the next one. -/
def thread (n : Nat) : Nat → Nat → (Nat → Nat) → Nat → Nat
  | 0, _, f => f
  | k + 1, a, f => thread n k (a + n) (update f a (a + n))

/-- The cells threaded, with the pointer `e` in the last one. -/
def threadTo (n k a e : Nat) (f : Nat → Nat) : Nat → Nat :=
  update (thread n k a f) (a + k * n) e

theorem threadTo_succ (n k a e : Nat) (f : Nat → Nat) : threadTo n (k + 1) a e f
      = threadTo n k (a + n) e (update f a (a + n)) := by
  rw [threadTo, threadTo, thread, Nat.succ_mul]
  congr 1
  omega

theorem threadTo_of_notMem {a e : Nat} {f : Nat → Nat}
    (h : x ∉ cells n k a) : threadTo n k a e f x = f x := by
  induction k generalizing a f with
  | zero =>
    refine update_of_ne ?_ ..
    rintro rfl
    exact h (mem_cells.mpr ⟨0, Nat.le_refl 0, rfl⟩)
  | succ k ih =>
    rw [cells_succ, List.mem_cons, not_or] at h
    rw [threadTo_succ, ih h.2, update_of_ne h.1]

theorem walk_threadTo (hn : 0 < n) (k a e : Nat)
    (f : Nat → Nat) : Walk (threadTo n k a e f) a (cells n k a) e := by
  induction k generalizing a f with
  | zero =>
    rw [show cells n 0 a = [a] by simp [cells]]
    refine ⟨rfl, ?_⟩
    simp [threadTo, Walk]
  | succ k ih =>
    rw [cells_succ, threadTo_succ]
    refine ⟨rfl, ?_⟩
    have ha : a ∉ cells n k (a + n) := by
      intro h
      obtain ⟨i, -, hi⟩ := mem_cells.mp h
      omega
    rw [threadTo_of_notMem ha, update_self]
    exact ih ..

/-- Different cells of an array are no more than it has. -/
theorem length_le_of_lt {l : List Nat} (hnd : l.Nodup) (h : ∀ x ∈ l, x < n) : l.length ≤ n := by
  have hsub : l ⊆ List.range n := fun x hx => List.mem_range.mpr (h x hx)
  simpa using (hnd.subperm hsub).length_le

-- ======== stores

variable [DecidableEq α]

/-- A store through a pointer; through NULL it changes no cell. -/
def setAt (x : Option α) (v : β) (f : α → β) : α → β :=
  match x with
  | none => f
  | some a => update f a v

theorem setAt_of_ne {x : Option α} {v : β} {f : α → β} (h : x ≠ some a) : setAt x v f a = f a := by
  cases x with
  | none => rfl
  | some b =>
    refine update_of_ne ?_ v f
    rintro rfl
    exact h rfl

/-- The end of a non-empty stretch is moved by one store. -/
theorem Seg.retarget {e' : Option α} (hs : Seg next prev p h l q e) (hne : l ≠ []) (hnd : l.Nodup) :
    Seg (setAt q e' next) prev p h l q e' := by
  obtain ⟨l', a, rfl⟩ := List.eq_nil_or_concat l |>.resolve_left hne
  rw [List.concat_eq_append] at *
  obtain ⟨m, n, hl', hn, hm, hq, -⟩ := seg_append.mp hs
  obtain rfl := hq
  have ha : a ∉ l' := fun ha =>
    (List.nodup_append.mp hnd).2.2 a ha a (List.mem_cons_self ..) rfl
  refine seg_append.mpr ⟨m, n, hl'.congr (fun b hb => ?_) fun b _ => rfl,
    hn, hm, rfl, update_self ..⟩
  refine setAt_of_ne fun hab => ?_
  cases hab
  exact ha hb

/-- The start of a non-empty stretch is moved by one store. -/
theorem Seg.repoint {p' : Option α} (hs : Seg next prev p h l q e) (hne : l ≠ []) (hnd : l.Nodup) :
    Seg next (setAt h p' prev) p' h l q e := by
  cases l with
  | nil => exact absurd rfl hne
  | cons a l =>
    obtain ⟨rfl, -, hs⟩ := hs
    refine ⟨rfl, update_self .., hs.congr (fun b _ => rfl) fun b hb => setAt_of_ne fun hab => ?_⟩
    cases hab
    exact (List.nodup_cons.mp hnd).1 hb

-- ======== chains

/-- A cell put in front. -/
theorem Chain.push (hc : Chain next prev h l) (hnd : (a :: l).Nodup) :
    Chain (update next a h) (setAt h (some a) (update prev a none)) (some a) (a :: l) := by
  obtain ⟨q, hs⟩ := hc
  obtain ⟨ha, hl⟩ := List.nodup_cons.mp hnd
  have hha : h ≠ some a := fun hh => ha (hs.head_mem hh).1
  have hs' : Seg (update next a h) (update prev a none) none h l q none := by
    refine hs.congr (fun b hb => ?_) fun b hb => ?_ <;>
    · refine update_of_ne ?_ _ _
      rintro rfl
      exact ha hb
  have hfront : ∃ q', Seg (update next a h)
      (setAt h (some a) (update prev a none)) (some a) h l q'
      none := by
    cases l with
    | nil =>
      obtain ⟨-, rfl⟩ := hs
      exact ⟨some a, rfl, rfl⟩
    | cons b l => exact ⟨q, hs'.repoint (List.cons_ne_nil _ _) hl⟩
  obtain ⟨q', hq'⟩ := hfront
  refine ⟨q', rfl, ?_, ?_⟩
  · rw [setAt_of_ne hha, update_self]
  · rwa [update_self]

/-- A cell taken out: its neighbours, or the start of the list, are linked
past it. -/
theorem Chain.unlink {b : α}
    (hc : Chain next prev h (xs ++ b :: ys)) (hnd : (xs ++ b :: ys).Nodup) :
    Chain (setAt (prev b) (next b) next) (setAt (next b) (prev b) prev)
      (if h = some b then next b else h) (xs ++ ys) := by
  obtain ⟨q, hs⟩ := hc
  obtain ⟨hxs, hbys, hdisj⟩ := List.nodup_append.mp hnd
  obtain ⟨hb, hys⟩ := List.nodup_cons.mp hbys
  obtain ⟨m, n, hleft, rfl, hpb, hright⟩ := seg_append.mp hs
  -- the successor of the cell is not before it, nor its predecessor after
  have hnext : ∀ a ∈ xs, next b ≠ some a := by
    intro a ha hna
    exact hdisj a ha a (List.mem_cons_of_mem _ (hright.head_mem hna).1) rfl
  have hprev : ∀ a ∈ ys, prev b ≠ some a := by
    intro a ha hpa
    rw [hpb, hleft.last_eq, Option.or_none] at hpa
    exact hdisj a (List.mem_of_getLast? hpa) a (List.mem_cons_of_mem b ha) rfl
  have hleft' : Seg (setAt (prev b) (next b) next) (setAt (next b) (prev b) prev) none
      (if h = some b then next b else h) xs m (next b) := by
    cases xs with
    | nil =>
      obtain ⟨rfl, rfl⟩ := hleft
      exact ⟨rfl, if_pos rfl⟩
    | cons a xs =>
      have hh : h ≠ some b := by
        intro hh
        obtain rfl := Option.some.inj (hh.symm.trans hleft.1)
        exact hdisj b (List.mem_cons_self ..) b (List.mem_cons_self ..) rfl
      rw [if_neg hh, hpb]
      exact (hleft.retarget (List.cons_ne_nil _ _) hxs).congr
        (fun _ _ => rfl) fun c hc => setAt_of_ne (hnext c hc)
  have hright' : ∃ q', Seg (setAt (prev b) (next b) next)
      (setAt (next b) (prev b) prev) m (next b) ys q' none := by
    cases ys with
    | nil => exact ⟨m, rfl, hright.2⟩
    | cons c ys =>
      refine ⟨q, ?_⟩
      rw [← hpb]
      exact (hright.repoint (List.cons_ne_nil _ _) hys).congr
        (fun a ha => setAt_of_ne (hprev a ha)) fun _ _ => rfl
  obtain ⟨q', hq'⟩ := hright'
  exact ⟨q', seg_append.mpr ⟨m, next b, hleft', hq'⟩⟩

-- ======== tables

/-- Chains that share the link fields: bucket `i` holds the cells with
`key` `i`, and a cell in no bucket has no links. -/
structure Table (next prev : α → Option α) (table : ι → Option α) (key : α → Option ι) : Prop where
  chains : ∀ i, ∃ l : List α, l.Nodup ∧ Chain next prev (table i) l ∧ ∀ a, a ∈ l ↔ key a = some i
  loose : ∀ a, key a = none → next a = none ∧ prev a = none

variable {table : ι → Option α} {key : α → Option ι}

section

omit [DecidableEq α]

variable {a : α}

/-- The first cell of a bucket is in it. -/
theorem Table.head_mem (ht : Table next prev table key) {i : ι}
    (h : table i = some a) : key a = some i := by
  obtain ⟨l, -, ⟨q, hs⟩, hmem⟩ := ht.chains i
  exact (hmem a).mp (hs.head_mem h).1

/-- A bucket that has a cell has a first one. -/
theorem Table.head_ne_none (ht : Table next prev table key) {i : ι} :
    table i ≠ none ↔ ∃ a, key a = some i := by
  constructor
  · intro h
    obtain ⟨a, ha⟩ := Option.ne_none_iff_exists'.mp h
    exact ⟨a, ht.head_mem ha⟩
  · rintro ⟨a, ha⟩ h
    obtain ⟨l, -, ⟨q, hs⟩, hmem⟩ := ht.chains i
    cases l with
    | nil => exact absurd ((hmem a).mpr ha) List.not_mem_nil
    | cons b l => exact absurd (h.symm.trans hs.1) nofun

/-- A cell's links stay in its bucket, and the next cell points back. -/
theorem Table.next_mem (ht : Table next prev table key) {b : α}
    (h : next a = some b) : key b = key a ∧ prev b = some a := by
  cases hk : key a with
  | none => exact absurd (h.symm.trans (ht.loose a hk).1) nofun
  | some i =>
    obtain ⟨l, -, ⟨q, hs⟩, hmem⟩ := ht.chains i
    obtain ⟨xs, ys, rfl⟩ := List.append_of_mem ((hmem a).mpr hk)
    obtain ⟨m, n, -, -, -, hs⟩ := seg_append.mp hs
    obtain ⟨hb, hp⟩ := hs.head_mem h
    exact ⟨(hmem b).mp (List.mem_append_right _ (List.mem_cons_of_mem _ hb)), hp⟩

theorem Table.prev_mem (ht : Table next prev table key) {b : α}
    (h : prev a = some b) : key b = key a := by
  cases hk : key a with
  | none => exact absurd (h.symm.trans (ht.loose a hk).2) nofun
  | some i =>
    obtain ⟨l, -, ⟨q, hs⟩, hmem⟩ := ht.chains i
    obtain ⟨xs, ys, rfl⟩ := List.append_of_mem ((hmem a).mpr hk)
    obtain ⟨m, n, hl, -, hp, -⟩ := seg_append.mp hs
    rw [← hmem]
    rw [h, hl.last_eq, Option.or_none] at hp
    exact List.mem_append_left _ (List.mem_of_getLast? hp.symm)

end

variable [DecidableEq ι] {f : α}

/-- A cell taken out of its bucket, if it is in one, and its links
cleared. `i` is the bucket the caller looks at. -/
theorem Table.drop (ht : Table next prev table key) {b : α} {i : ι}
    (hi : key b = some i ∨ key b = none) :
    Table (update (setAt (prev b) (next b) next) b none)
      (update (setAt (next b) (prev b) prev) b none)
      (if table i = some b then update table i (next b) else table)
      (update key b none) := by
  have hnext : ∀ a, a ≠ b → key a ≠ key b → setAt (prev b) (next b) next a = next a := by
    intro a _ hk
    exact setAt_of_ne fun hp => hk (ht.prev_mem hp)
  have hprev : ∀ a, a ≠ b → key a ≠ key b → setAt (next b) (prev b) prev a = prev a := by
    intro a _ hk
    exact setAt_of_ne fun hn => hk (ht.next_mem hn).1
  refine ⟨fun j => ?_, fun a ha => ?_⟩
  · obtain ⟨l, hnd, hc, hmem⟩ := ht.chains j
    by_cases hj : key b = some j
    · -- the bucket of the cell
      obtain rfl : j = i := by
        rcases hi with hi | hi
        · exact Option.some.inj (hj.symm.trans hi)
        · exact absurd (hj.symm.trans hi) nofun
      obtain ⟨xs, ys, rfl⟩ := List.append_of_mem ((hmem b).mpr hj)
      have hsub : (xs ++ ys).Sublist (xs ++ b :: ys) :=
        List.Sublist.append_left (List.sublist_cons_self b ys) xs
      have hb : b ∉ xs ++ ys := by
        intro hb
        have := List.nodup_middle.mp hnd
        exact (List.nodup_cons.mp this).1 hb
      refine ⟨xs ++ ys, hnd.sublist hsub, ?_, fun a => ?_⟩
      · have htable : (if table j = some b then
            update table j (next b) else table) j
            = if table j = some b then next b else table j := by
          split
          · exact update_self ..
          · rfl
        rw [htable]
        refine (hc.unlink hnd).congr (fun a ha => ?_) fun a ha => ?_ <;>
        · refine update_of_ne ?_ _ _
          rintro rfl
          exact hb ha
      · by_cases hab : a = b
        · subst hab
          simp [hb]
        · rw [update_of_ne hab, ← hmem]
          simp [hab]
    · -- another bucket: no store touches its cells
      have hbl : ∀ a ∈ l, a ≠ b := by
        rintro a ha rfl
        exact hj ((hmem a).mp ha)
      have hkl : ∀ a ∈ l, key a ≠ key b := by
        intro a ha hk
        exact hj (hk.symm.trans ((hmem a).mp ha))
      have htable : (if table i = some b then
          update table i (next b) else table) j = table j := by
        split
        · rename_i htb
          refine update_of_ne ?_ _ _
          rintro rfl
          exact hj (ht.head_mem htb)
        · rfl
      refine ⟨l, hnd, ?_, fun a => ?_⟩
      · rw [htable]
        refine hc.congr (fun a ha => ?_) fun a ha => ?_
        · rw [update_of_ne (hbl a ha)]
          exact hnext a (hbl a ha) (hkl a ha)
        · rw [update_of_ne (hbl a ha)]
          exact hprev a (hbl a ha) (hkl a ha)
      · by_cases hab : a = b
        · subst hab
          simp [hmem, hj]
        · rw [update_of_ne hab, hmem]
  · by_cases hab : a = b
    · subst hab
      exact ⟨update_self .., update_self ..⟩
    · rw [update_of_ne hab] at ha
      rw [update_of_ne hab, update_of_ne hab]
      by_cases hk : key b = none
      · obtain ⟨hn, hp⟩ := ht.loose b hk
        rw [hn, hp]
        exact ht.loose a ha
      · have hne : key a ≠ key b := fun hab' => hk (hab'.symm.trans ha)
        rw [hnext a hab hne, hprev a hab hne]
        exact ht.loose a ha

/-- A cell that is in no bucket put in front of one. -/
theorem Table.push (ht : Table next prev table key) {b : α} (i : ι) (hb : key b = none) :
    Table (update next b (table i))
      (setAt (table i) (some b) prev) (update table i (some b))
      (update key b (some i)) := by
  have hpb : update prev b none = prev :=
    Function.update_eq_self_iff.mpr (ht.loose b hb).2.symm
  refine ⟨fun j => ?_, fun a ha => ?_⟩
  · obtain ⟨l, hnd, hc, hmem⟩ := ht.chains j
    have hbl : b ∉ l := fun hbl =>
      absurd (((hmem b).mp hbl).symm.trans hb) nofun
    by_cases hj : j = i
    · subst hj
      refine ⟨b :: l, List.nodup_cons.mpr ⟨hbl, hnd⟩, ?_, fun a => ?_⟩
      · rw [update_self]
        have := hc.push (List.nodup_cons.mpr ⟨hbl, hnd⟩)
        rwa [hpb] at this
      · by_cases hab : a = b
        · subst hab
          simp
        · rw [update_of_ne hab, List.mem_cons, hmem]
          simp [hab]
    · refine ⟨l, hnd, ?_, fun a => ?_⟩
      · rw [update_of_ne hj]
        refine hc.congr (fun a ha => ?_) fun a ha => ?_
        · refine update_of_ne ?_ _ _
          rintro rfl
          exact hbl ha
        · refine setAt_of_ne fun hia => hj ?_
          exact Option.some.inj (((hmem a).mp ha).symm.trans (ht.head_mem hia))
      · by_cases hab : a = b
        · subst hab
          simp [hbl, Ne.symm hj]
        · rw [update_of_ne hab, hmem]
  · have hab : a ≠ b := by
      rintro rfl
      rw [update_self] at ha
      cases ha
    rw [update_of_ne hab] at ha
    rw [update_of_ne hab, setAt_of_ne]
    · exact ht.loose a ha
    · intro hia
      exact absurd ((ht.head_mem hia).symm.trans ha) nofun

-- ======== rings

/-- The first cell taken out of a ring of several. -/
theorem Ring.unlink {b : α} (hr : Ring next prev (some b) (b :: l)) (hne : l ≠ [])
    (hnd : (b :: l).Nodup) : Ring (setAt (prev b) (next b) next) (setAt (next b) (prev b) prev)
      (next b) l := by
  obtain ⟨q, -, rfl, hs⟩ := hr
  have hl := (List.nodup_cons.mp hnd).2
  exact ⟨prev b, (hs.retarget hne hl).repoint hne hl⟩

/-- A cell put at the end of a ring, before its first cell `f`. -/
theorem Ring.append {b : α} (hr : Ring next prev (some f) l) (hne : l ≠ [])
    (hnd : (b :: l).Nodup) : Ring (setAt (prev f) (some b) (update next b (some f)))
      (setAt (some f) (some b) (update prev b (prev f))) (some f) (l ++ [b]) := by
  obtain ⟨q, hs⟩ := hr
  obtain ⟨hb, hl⟩ := List.nodup_cons.mp hnd
  have hpf : prev f = q := by
    cases l with
    | nil => exact absurd rfl hne
    | cons a l =>
      obtain rfl := Option.some.inj hs.1
      exact hs.2.1
  have hfb : f ≠ b := by
    rintro rfl
    cases l with
    | nil => exact absurd rfl hne
    | cons a l =>
      obtain rfl := Option.some.inj hs.1
      exact hb (List.mem_cons_self ..)
  have hqb : q ≠ some b := by
    rintro rfl
    have hlast := hs.last_eq
    cases hg : l.getLast? with
    | none => exact hne (List.getLast?_eq_none_iff.mp hg)
    | some c =>
      rw [hg, Option.some_or] at hlast
      cases hlast
      exact hb (List.mem_of_getLast? hg)
  have hs' : Seg (update next b (some f)) (update prev b (prev f)) q (some f) l q (some f) := by
    refine hs.congr (fun a ha => ?_) fun a ha => ?_ <;>
    · refine update_of_ne ?_ _ _
      rintro rfl
      exact hb ha
  rw [hpf] at hs' ⊢
  refine ⟨some b, seg_append.mpr ⟨q, some b,
    (hs'.retarget hne hl).repoint hne hl, rfl, ?_, rfl, ?_⟩⟩
  · rw [setAt_of_ne (fun hfb' => hfb (Option.some.inj hfb')), update_self]
  · rw [setAt_of_ne hqb, update_self]

/-- A cell of a ring taken out and put at the end, where the ring starts at
`f`, or at the cell after it if that is the one taken out. The stores are
those of the code, one after the other. -/
theorem Ring.requeue {b : α} (hr : Ring next prev (some f) l) (hnd : l.Nodup) (hb : b ∈ l) :
    ∃ g l', (if f = b then next b else some f) = some g ∧ l'.Perm l ∧
      Ring (setAt (update (setAt (next b) (prev b) prev) b
          (setAt (next b) (prev b) prev g) g) (some b)
          (update (setAt (prev b) (next b) next) b (some g))) (setAt (some g) (some b)
          (update (setAt (next b) (prev b) prev) b
            (setAt (next b) (prev b) prev g))) (some g) l' := by
  obtain ⟨xs, ys, rfl⟩ := List.append_of_mem hb
  have hrot : Ring next prev (some b) (b :: (ys ++ xs)) := hr.rotate
  have hperm : (b :: ys ++ xs).Perm (xs ++ b :: ys) :=
    List.perm_append_comm
  have hnd' : (b :: (ys ++ xs)).Nodup := hperm.nodup_iff.mpr hnd
  by_cases hne : ys ++ xs = []
  · -- the only cell: every link is its own
    obtain ⟨rfl, rfl⟩ := List.append_eq_nil_iff.mp hne
    obtain ⟨q, hf, hp, hq, hn⟩ := hr
    cases hf
    subst hq
    refine ⟨f, [f], by rw [if_pos rfl, hn], List.Perm.refl _, some f, rfl, update_self .., rfl, ?_⟩
    rw [hn, hp]
    simp [setAt]
  · have hun := Ring.unlink hrot hne hnd'
    -- the ring without the cell, read from where it now starts
    obtain ⟨g, l', hg, hl', hring⟩ : ∃ g l',
        (if f = b then next b else some f) = some g ∧ l'.Perm (ys ++ xs) ∧
        Ring (setAt (prev b) (next b) next) (setAt (next b) (prev b) prev) (some g) l' := by
      cases xs with
      | nil =>
        obtain rfl := Option.some.inj hr.first
        rw [List.append_nil] at hun hne
        cases ys with
        | nil => exact absurd rfl hne
        | cons g ys =>
          have hg := hun.first
          refine ⟨g, g :: ys, by rw [if_pos rfl, hg], ?_, ?_⟩
          · rw [List.append_nil]
          · rwa [← hg]
      | cons a xs =>
        obtain rfl := Option.some.inj hr.first
        have hfb : f ≠ b := by
          rintro rfl
          simp at hnd
        exact ⟨f, f :: xs ++ ys, if_neg hfb, List.perm_append_comm, Ring.rotate hun⟩
    have hmem : b ∉ l' := fun hbl =>
      (List.nodup_cons.mp hnd').1 (hl'.subset hbl)
    have hne' : l' ≠ [] := by
      rintro rfl
      exact hne (List.Perm.nil_eq hl').symm
    have hndl : (b :: l').Nodup :=
      List.nodup_cons.mpr ⟨hmem, hl'.nodup_iff.mpr (List.nodup_cons.mp hnd').2⟩
    have hgb : g ≠ b := by
      rintro rfl
      cases l' with
      | nil => exact hne' rfl
      | cons a l' =>
        obtain rfl := Option.some.inj hring.first
        exact hmem (List.mem_cons_self ..)
    refine ⟨g, l' ++ [b], hg, ?_, ?_⟩
    · refine (List.perm_append_comm.trans (hl'.cons b)).trans ?_
      exact hperm
    · rw [update_of_ne hgb]
      exact hring.append hne' hndl

end LearnLinux.Lib
