/-
What keeps a device good. The changes of the link graph that the calls are
made of are matched by changes of the device: a reference taken or dropped,
an entry filled in or cleared, an inode that comes into use or goes.

The tree of directories is treated apart, as a property of the names: an
entry after `..` may come or go (`Tree.link`, `Tree.unlink`), and the two
dots of a directory come and go together (`Tree.adopt`, `Tree.disown`).
-/
import LearnLinux.Fs.Proofs.Creation

namespace LearnLinux.Fs

open Function (update update_self update_of_ne update_apply update_idem)
open Lib

-- ======== the tree

section Tree

variable {D D' : Nat → Prop} {names : Nat × Nat → Option Nat}
variable {x : Nat × Nat} {n p : Nat} {o : Option Nat}

theorem ne_of_fst {a b i j : Nat} (h : a ≠ b) : (a, i) ≠ (b, j) :=
  fun hc => h (Prod.mk.inj hc).1

theorem ne_of_snd {a b i j : Nat} (h : i ≠ j) : (a, i) ≠ (b, j) :=
  fun hc => h (Prod.mk.inj hc).2

section

variable (h : Tree D names)
include h

/-- An entry after the dots is set. What it names now is no directory, or
has no other name; what it named before has no `..` of its own. -/
theorem Tree.setName (hx : 2 ≤ x.2) (hold : ∀ m, names x = some m → names (m, 1) = none)
    (hnew : ∀ k, o = some k → k ≠ 1 ∧ (names (x.1, 0) = some x.1 ∧ names (x.1, 1) ≠ none)
      ∧ (D' k → ∀ y, names y ≠ some k)) (hD : ∀ m, o ≠ some m → D' m → D m) :
    Tree D' (update names x o) := by
  have hsmall : ∀ m i, i < 2 → update names x o (m, i) = names (m, i) := by
    intro m i hi
    refine update_of_ne ?_ _ _
    rintro rfl
    exact absurd hx (by show ¬ 2 ≤ i; omega)
  refine ⟨?_, ?_, ?_, ?_, ?_⟩
  · rw [hsmall 1 1 (by omega)]
    exact h.root
  · intro y hy hc
    rcases update_cases hc with ⟨-, hc⟩ | ⟨-, hc⟩
    · exact (hnew 1 hc).1 rfl
    · exact h.top y hy hc
  · intro y k hy
    rw [hsmall y.1 0 (by omega), hsmall y.1 1 (by omega)]
    rcases update_cases hy with ⟨rfl, ho⟩ | ⟨-, hy⟩
    · exact (hnew k ho).2.1
    · exact h.dots y k hy
  · intro y z k hk hy hz hyk hzk
    by_cases hko : o = some k
    · -- the new name is the only one
      have hat : ∀ {y}, update names x o y = some k → y = x := by
        intro y hc
        rcases update_cases hc with ⟨hyx, -⟩ | ⟨-, hc⟩
        · exact hyx
        · exact absurd hc ((hnew k hko).2.2 hk y)
      rw [hat hyk, hat hzk]
    · have hat : ∀ {y}, update names x o y = some k → names y = some k := by
        intro y hc
        rcases update_cases hc with ⟨-, hc⟩ | ⟨-, hc⟩
        · exact absurd hc hko
        · exact hc
      exact h.once y z k (hD k hko hk) hy hz (hat hyk) (hat hzk)
  · intro m q hm hq
    rw [hsmall m 1 (by omega)] at hq
    obtain ⟨i, hi, hqi⟩ := h.parent m q hm hq
    refine ⟨i, hi, ?_⟩
    rw [update_of_ne]
    · exact hqi
    · -- the entry that was set is not the one that names `m`
      rintro rfl
      rw [hold m hqi] at hq
      cases hq

/-- A name is added to a directory. -/
theorem Tree.link (hx : 2 ≤ x.2) (hfree : names x = none) (hn : n ≠ 1)
    (hdots : names (x.1, 0) = some x.1 ∧ names (x.1, 1) ≠ none)
    (hone : D' n → ∀ y, names y ≠ some n) (hD : ∀ m, m ≠ n → D' m → D m) :
    Tree D' (update names x (some n)) := by
  refine h.setName hx (fun m hm => ?_) (fun k hk => ?_) fun m hm => hD m fun hc => hm (by rw [hc])
  · rw [hfree] at hm
    cases hm
  · cases hk
    exact ⟨hn, hdots, hone⟩

/-- A name is taken away, of what has no `..` of its own. -/
theorem Tree.unlink (hx : 2 ≤ x.2) (hxn : names x = some n) (hno : names (n, 1) = none) :
    Tree D (update names x none) := by
  refine h.setName hx (fun m hm => ?_) (fun k hk => by cases hk) fun _ _ hm => hm
  rw [hxn] at hm
  cases hm
  exact hno

/-- The two dots of a directory with nothing else in it are set. -/
theorem Tree.setDots {o' : Option Nat} (hn : n ≠ 1) (hempty : ∀ j, 2 ≤ j → names (n, j) = none)
    (hdots : ∀ k, o = some k ∨ o' = some k → o = some n ∧ o' ≠ none)
    (hname : ∀ q, o' = some q → ∃ i, 2 ≤ i ∧ names (q, i) = some n) :
    Tree D (update (update names (n, 0) o) (n, 1) o') := by
  generalize he : update (update names (n, 0) o) (n, 1) o' = names'
  have h1 : names' (n, 1) = o' := by rw [← he, update_self]
  have h0 : names' (n, 0) = o := by
    rw [← he, update_of_ne (fun hc => by cases hc), update_self]
  have hother : ∀ {y : Nat × Nat}, y.1 ≠ n ∨ 2 ≤ y.2 → names' y = names y := by
    rintro ⟨m, j⟩ hy
    rw [← he, update_of_ne, update_of_ne]
    all_goals
      rintro hc
      cases hc
      exact hy.elim (fun hc => hc rfl) fun hc => absurd hc (by show ¬ 2 ≤ _; omega)
  refine ⟨?_, ?_, ?_, ?_, ?_⟩
  · rw [hother (.inl (by show 1 ≠ n; omega))]
    exact h.root
  · intro y hy hc
    rw [hother (.inr hy)] at hc
    exact h.top y hy hc
  · rintro ⟨m, j⟩ k hy
    by_cases hmn : m = n
    · subst hmn
      rw [h0, h1]
      match j, hy with
      | 0, hy => exact hdots k (.inl (by rw [← h0]; exact hy))
      | 1, hy => exact hdots k (.inr (by rw [← h1]; exact hy))
      | j + 2, hy =>
        rw [hother (.inr (Nat.le_add_left 2 j)), hempty _ (Nat.le_add_left 2 j)] at hy
        cases hy
    · rw [hother (.inl hmn)] at hy
      have hd := h.dots _ k hy
      rw [hother (.inl hmn), hother (.inl hmn)]
      exact hd
  · intro y z k hk hy hz hyk hzk
    rw [hother (.inr hy)] at hyk
    rw [hother (.inr hz)] at hzk
    exact h.once y z k hk hy hz hyk hzk
  · intro m q hm hq
    have hold : ∃ i, 2 ≤ i ∧ names (q, i) = some m := by
      by_cases hmn : m = n
      · subst hmn
        exact hname q (by rw [← h1]; exact hq)
      · rw [hother (.inl hmn)] at hq
        exact h.parent m q hm hq
    obtain ⟨i, hi, hqi⟩ := hold
    exact ⟨i, hi, by rw [hother (.inr hi)]; exact hqi⟩

/-- A directory that has its name gets its dots. -/
theorem Tree.adopt {i : Nat} (hi : 2 ≤ i)
    (hname : names (p, i) = some n) (hn : n ≠ 1) (hempty : ∀ j, names (n, j) = none) :
    Tree D (update (update names (n, 0) (some n)) (n, 1) (some p)) :=
  h.setDots hn (fun j _ => hempty j) (fun _ _ => ⟨rfl, Option.some_ne_none p⟩)
    fun q hq => ⟨i, hi, by rw [← Option.some.inj hq]; exact hname⟩

/-- A directory that has nothing else loses its dots. -/
theorem Tree.disown (hn : n ≠ 1) (hempty : ∀ j, 2 ≤ j → names (n, j) = none) :
    Tree D (update (update names (n, 0) none) (n, 1) none) :=
  h.setDots hn hempty (fun _ hk => by rcases hk with hk | hk <;> cases hk) fun _ hq => by cases hq

/-- An entry stands after the dots, or is a `.`, or a `..`. -/
theorem Tree.cases (hx : names x = some n) : 2 ≤ x.2 ∨ (x.2 = 0 ∧ n = x.1)
    ∨ (x.2 = 1 ∧ ((x.1 = 1 ∧ n = 1) ∨ ∃ i, 2 ≤ i ∧ names (n, i) = some x.1)) := by
  by_cases h2 : 2 ≤ x.2
  · exact .inl h2
  have h01 : x.2 = 0 ∨ x.2 = 1 := by omega
  rcases h01 with h0 | h1
  · have hdot := (h.dots x n hx).1
    rw [show x = (x.1, 0) from Prod.ext rfl h0, hdot] at hx
    exact .inr (.inl ⟨h0, (Option.some.inj hx).symm⟩)
  · rw [show x = (x.1, 1) from Prod.ext rfl h1] at hx
    refine .inr (.inr ⟨h1, ?_⟩)
    by_cases hroot : x.1 = 1
    · rw [hroot, h.root] at hx
      exact .inl ⟨hroot, (Option.some.inj hx).symm⟩
    · exact .inr (h.parent x.1 n hroot hx)

theorem Tree.mono (hD : ∀ m, D' m → D m) : Tree D' names :=
  ⟨h.root, h.top, h.dots, fun x y k hk => h.once x y k (hD k hk), h.parent⟩

/-- An entry that is free stands after the dots. -/
theorem Tree.free_late (hd : names (x.1, 0) ≠ none) (hfree : names x = none) :
    2 ≤ x.2 ∧ names (x.1, 0) = some x.1 ∧ names (x.1, 1) ≠ none := by
  obtain ⟨k, hk⟩ := Option.ne_none_iff_exists'.mp hd
  have hdots := h.dots (x.1, 0) k hk
  refine ⟨?_, hdots⟩
  by_contra hlt
  have h01 : x.2 = 0 ∨ x.2 = 1 := by omega
  rcases h01 with h0 | h1
  · rw [show x = (x.1, 0) from Prod.ext rfl h0] at hfree
    exact hd hfree
  · rw [show x = (x.1, 1) from Prod.ext rfl h1] at hfree
    exact hdots.2 hfree

end

end Tree

-- ======== one inode at a time

variable {d d' : Dev} {dir n m a i z : Nat} {v w : Vol} {x : Nat × Nat} {I : Inode}

/-- What a good device is at one inode. -/
structure Fit (d : Dev) (m : Nat) : Prop where
  unused : d.live m = false → (d.vol.inode m).mode = .other ∧ d.count m = 0 ∧ d.nlinks m = 0
  size : d.live m = true → (d.vol.inode m).mode = .dir →
    (d.vol.inode m).size ≤ 16 * maxEntries ∧ (d.vol.inode m).size % 16 = 0
  listed : d.live m = true → (d.vol.inode m).mode = .dir →
    (d.vol.inode m).zone 0 ≠ 0 → d.names (m, 0) ≠ none
  byte : d.nlinks m < 256
  held : d.live m = true → d.nlinks m = 0 → 0 < d.count m

theorem Good.fit (h : Good d) : Fit d m :=
  ⟨h.readable.unused m, fun hl hm => ⟨h.readable.size m hl hm,
    h.aligned m hl hm⟩, h.listed m, h.byte m, h.held m⟩

theorem good_of_fit {g : LinkGraph (Nat × Nat) Nat} (hs : Sound d.vol)
    (hfirst : 0 < d.vol.firstdatazone) (hshort : d.ninodes < 2 ^ 16) (hzero : d.inodeBit 0 = true)
    (hg : d.graph = g) (hh : g.Honest entries)
    (ht : Tree (fun n => (d.vol.inode n).mode = .dir) g.names) (hf : ∀ m, Fit d m) : Good d := by
  subst hg
  refine ⟨⟨hs, hfirst, hshort, hzero, fun m => (hf m).unused,
    fun m hl hm => ((hf m).size hl hm).1, fun x m hx => ?_⟩, hh, ht,
    fun m => (hf m).byte, fun m hl hm => ((hf m).size hl hm).2,
    fun m => (hf m).listed, fun m => (hf m).held⟩
  have : 0 < d.nlinks m := hh.links_pos hx
  exact ⟨hh.alive x m hx, by omega⟩

theorem Fit.names_kept (h : Fit d m) (hk : Kept d.vol d'.vol m)
    (hlive : d'.live m = d.live m) (i : Nat) : d'.names (m, i) = d.names (m, i) := by
  refine names_congr hlive (by rw [hk.inode]) (by rw [hk.inode])
    fun hm hs hl => hk.dirSlot (isFile_of_dir hm) ?_
  have := (h.size hl hm).1
  have : 16 * (i + 1) ≤ (d.vol.inode m).size := hs
  omega

/-- An inode that nothing has touched. -/
theorem Fit.kept (h : Fit d m) (hk : Kept d.vol d'.vol m)
    (hlive : d'.live m = d.live m) (hl : d'.nlinks m = d.nlinks m)
    (hc : d'.count m = d.count m) : Fit d' m := by
  have hn := h.names_kept hk hlive 0
  obtain ⟨h1, h2, h3, h4, h5⟩ := h
  refine ⟨?_, ?_, ?_, ?_, ?_⟩
  · rw [hlive, hk.inode, hc, hl]
    exact h1
  · rw [hlive, hk.inode]
    exact h2
  · rw [hlive, hk.inode, hn]
    exact h3
  · rw [hl]
    exact h4
  · rw [hlive, hl, hc]
    exact h5

theorem Fit.of_dead (hl : d.live m = false) (hm : (d.vol.inode m).mode = .other)
    (hc : d.count m = 0) (h0 : d.nlinks m = 0) : Fit d m := by
  refine ⟨fun _ => ⟨hm, hc, h0⟩, fun h => ?_, fun h => ?_, by omega, fun h => ?_⟩
  all_goals
    rw [hl] at h
    cases h

theorem mem_entries (h1 : x.1 < 2 ^ 16) (h2 : x.2 < maxEntries) : x ∈ entries := by
  unfold entries
  rw [Finset.mem_product, Finset.mem_range, Finset.mem_range]
  exact ⟨h1, h2⟩

theorem Readable.live_lt (h : Readable d) (hl : d.live n = true) : n < 2 ^ 16 := by
  have h1 := (live_iff.mp hl).1.2
  have h2 := h.short
  omega

theorem Free.lt (hf : Free d n) (h : Readable d) : n < 2 ^ 16 := by
  have h1 := hf.high
  have h2 := h.short
  omega

/-- There is room for the dots. -/
theorem dot_lt {j : Nat} (h : j < 2) : j < maxEntries := by
  unfold maxEntries maxBlocks dirEntriesPerBlock
  omega

theorem Readable.zero_set (h : Readable d) (hf : Free d n) :
    (d.setInodeBit n true).inodeBit 0 = true := by
  rw [Dev.inodeBit_setInodeBit hf.map, if_neg (by have := hf.low; omega)]
  exact h.zero

theorem Readable.zero_unset (h : Readable d) (hl : d.live n = true) :
    (d.setInodeBit n false).inodeBit 0 = true := by
  obtain ⟨⟨hlow, -⟩, hbit⟩ := live_iff.mp hl
  rw [Dev.inodeBit_setInodeBit (isSome_of_inodeBit hbit), if_neg (by omega)]
  exact h.zero

-- ======== references

/-- References come and go; what is out of use has none, and what has no
name has one. -/
theorem Good.recount (h : Good d) (f : Nat → Nat) (hdead : ∀ m, d.live m = false → f m = 0)
    (hheld : ∀ m, d.live m = true → d.nlinks m = 0 → 0 < f m) : Good { d with count := f } := by
  refine good_of_fit h.readable.sound h.readable.first h.readable.short
    h.readable.zero rfl h.honest h.tree fun m => ?_
  obtain ⟨h1, h2, h3, h4, h5⟩ := h.fit
  exact ⟨fun hl => ⟨(h1 hl).1, hdead m hl, (h1 hl).2.2⟩, h2, h3, h4, hheld m⟩

theorem Good.setCount (h : Good d) (hlive : d.live n = true)
    (ha : d.nlinks n = 0 → 0 < a) : Good (d.setCount n a) := by
  refine h.recount _ (fun m hm => ?_) fun m hm h0 => ?_
  · rw [update_of_ne]
    · exact (h.readable.unused m hm).2.1
    · rintro rfl
      rw [hlive] at hm
      cases hm
  · rw [update_apply]
    split
    · rename_i hmn
      exact ha (by rw [← hmn]; exact h0)
    · exact h.held m hm h0

theorem Good.iget (h : Good d) (hlive : d.live n = true) : Good (Fs.iget d n) :=
  h.setCount hlive fun _ => by omega

/-- An inode without a name lists nothing. -/
theorem Good.no_entries (h : Good d) (hl : d.nlinks n = 0) : d.names (n, i) = none := by
  by_contra hne
  obtain ⟨k, hk⟩ := Option.ne_none_iff_exists'.mp hne
  have := h.honest.links_pos (h.tree.dots (n, i) k hk).1
  have : 0 < d.nlinks n := this
  omega

/-- `truncate`, of any inode. -/
theorem Sound.truncate_kept (h : Sound v) (ht : Fs.truncate n v = .ok w) :
    Sound w ∧ (∀ m, m ≠ n → Kept v w m) ∧ w.firstdatazone = v.firstdatazone
      ∧ (w.inode n).mode = (v.inode n).mode := by
  by_cases hf : v.IsFile n
  · obtain ⟨w', hw', htr⟩ := h.truncate hf
    rw [ht] at hw'
    cases hw'
    obtain ⟨u, hu, hcut, hfreed⟩ := h.truncate_zones hf
    rw [ht] at hu
    cases hu
    refine ⟨htr.sound, fun m hm => htr.keeps hm, hfreed.first, ?_⟩
    rw [emptied_self]
    exact hcut.mode
  · rw [truncate_bare (.inl (not_not.mp hf))] at ht
    cases ht
    exact ⟨h, fun m _ => .refl v m, rfl, rfl⟩

/-- The volume when inode `n` has gone out of use. -/
theorem Sound.freed (h : Sound d.vol) (hv : Fs.truncate n d.vol = .ok v) :
    Sound (d.freed n v).vol ∧ (∀ m, m ≠ n → Kept d.vol (d.freed n v).vol m)
      ∧ (d.freed n v).vol.firstdatazone = d.vol.firstdatazone
      ∧ ∀ m, ((d.freed n v).vol.inode m).mode = .dir → (d.vol.inode m).mode = .dir := by
  obtain ⟨hs, hk, hfirst, -⟩ := h.truncate_kept hv
  obtain ⟨hs', hk'⟩ := hs.setBlank n
  refine ⟨hs', fun m hm => (hk m hm).trans (hk' m hm), hfirst, fun m hm => ?_⟩
  by_cases hmn : m = n
  · rw [hmn, show (d.freed n v).vol.inode n = .blank from update_self ..] at hm
    cases hm
  · rw [show (d.freed n v).vol.inode m = _ from ((hk m hmn).trans (hk' m hmn)).inode] at hm
    exact hm

/-- An inode without names goes out of use. -/
theorem Good.freed (h : Good d) (hlive : d.live n = true)
    (hl : d.nlinks n = 0) (hv : truncate n d.vol = .ok v) :
    Good (d.freed n v) ∧ (d.freed n v).names = d.names
      ∧ ∀ m, m ≠ n → Kept d.vol (d.freed n v).vol m := by
  obtain ⟨hs, hkept, hfirst, hmode⟩ := h.readable.sound.freed hv
  have hlive' := Dev.freed_live hlive v
  have hnames : (d.freed n v).names = d.names := by
    funext x
    by_cases hx : x.1 = n
    · rw [names_dead (by rw [hx, hlive', if_pos rfl]),
        show x = (n, x.2) from Prod.ext hx rfl, h.no_entries hl]
    · exact h.readable.names_kept (by rw [hlive', if_neg hx]) (hkept _ hx)
  have hself : (d.freed n v).vol.inode n = .blank := update_self ..
  refine ⟨good_of_fit hs (by rw [hfirst]; exact h.readable.first) h.readable.short
    (h.readable.zero_unset hlive) (g := d.graph.retire n) ?_
    (h.honest.retire fun x hx => ?_) (h.tree.mono hmode) fun m => ?_, hnames, hkept⟩
  · refine LinkGraph.ext (funext fun m => ?_) hnames rfl
    exact (hlive' m).trans (d.graph.retire_live n m).symm
  · have : 0 < d.nlinks n := h.honest.links_pos hx
    omega
  · by_cases hmn : m = n
    · subst hmn
      exact .of_dead (by rw [hlive', if_pos rfl]) (by rw [hself]; rfl) (update_self ..) hl
    · exact h.fit.kept (hkept m hmn) (by rw [hlive', if_neg hmn]) rfl (update_of_ne hmn _ _)

/-- A reference is dropped. -/
theorem Good.iput (h : Good d) (hput : Fs.iput d n = .ok d') :
    Good d' ∧ d'.names = d.names ∧ d'.nlinks = d.nlinks
      ∧ d'.count = update d.count n (d.count n - 1) ∧ (∀ m, m ≠ n → Kept d.vol d'.vol m)
      ∧ (∀ m, m ≠ n → d'.live m = d.live m) ∧ ((d'.live n = true ∧ d'.vol = d.vol) ∨
        (d'.live n = false ∧ d.count n = 1 ∧ d.nlinks n = 0)) := by
  rcases iput_cases hput with ⟨hc, rfl⟩ | ⟨hc, hl, v, hv, rfl⟩
  · have hl := h.readable.live_of_count (n := n) (by omega)
    refine ⟨h.setCount hl fun h0 => by omega, rfl, rfl, rfl,
      fun m _ => .refl _ m, fun _ _ => rfl, .inl ⟨hl, rfl⟩⟩
  · have hlv := h.readable.live_of_count (n := n) (by omega)
    obtain ⟨hg, hn, hk⟩ := h.freed hlv hl hv
    refine ⟨hg, hn, rfl, ?_, hk, fun m hm => ?_, .inr ⟨?_, hc, hl⟩⟩
    · show update d.count n 0 = _
      rw [hc]
    · rw [Dev.freed_live hlv, if_neg hm]
    · rw [Dev.freed_live hlv, if_pos rfl]

-- ======== entries

/-- The names of a directory in which an entry was set. -/
theorem entered_names (hdir : IsDir d dir)
    (hE : Entered d.vol dir i n d'.vol) (hlive : d'.live dir = d.live dir)
    (hs : (d.vol.inode dir).size ≤ 16 * maxEntries)
    (ha : (d.vol.inode dir).size % 16 = 0) (j : Nat) :
    d'.names (dir, j) = if j = i then if n = 0 then none else some n
      else d.names (dir, j) := by
  have hmode : (d'.vol.inode dir).mode = .dir := by
    rw [hE.touches.mode]
    exact hdir.mode
  have hedge := hE.edge
  have hsize := hE.size
  by_cases hji : j = i
  · rw [if_pos hji, hji]
    have hslot := hE.slots i hE.bound
    rw [if_pos rfl] at hslot
    split
    · rename_i h0
      refine names_eq_none fun hc => hc.2.2.2 ?_
      rw [hslot, h0]
    · rename_i h0
      refine names_eq_some.mpr ⟨⟨?_, hmode, ?_, ?_⟩, hslot⟩
      · rw [hlive]
        exact hdir.live
      · rw [hsize]
        split
        · exact Nat.le_refl _
        · omega
      · rw [hslot]
        exact h0
  · rw [if_neg hji]
    have hin : 16 * (j + 1) ≤ (d'.vol.inode dir).size ↔ 16 * (j + 1) ≤ (d.vol.inode dir).size := by
      rw [hsize]
      split
      · omega
      · exact Iff.rfl
    by_cases hj : 16 * (j + 1) ≤ (d.vol.inode dir).size
    · have hslot := hE.slots j (by omega)
      rw [if_neg hji] at hslot
      refine Option.ext fun k => ?_
      rw [names_eq_some, names_eq_some]
      unfold Dev.Lists
      rw [hlive, hE.touches.mode, hin, hslot]
    · rw [names_eq_none (d := d) fun hc => hj hc.2.2.1]
      exact names_eq_none fun hc => hj (hin.mp hc.2.2.1)

/-- What the directory is after that. -/
theorem entered_fit (hfit : Fit d dir) (hdir : IsDir d dir)
    (hE : Entered d.vol dir i n d'.vol) (hlive : d'.live dir = d.live dir)
    (h0 : d'.names (dir, 0) ≠ none) (hb : d'.nlinks dir < 256)
    (hl : d'.nlinks dir ≠ 0) : Fit d' dir := by
  obtain ⟨hs, ha⟩ := hfit.size hdir.live hdir.mode
  refine ⟨fun hc => ?_, fun _ _ => ?_, fun _ _ _ => h0, hb, fun _ hc => absurd hc hl⟩
  · rw [hlive, hdir.live] at hc
    cases hc
  · have hbound := hE.bound
    rw [hE.size]
    split
    · omega
    · exact ⟨hs, ha⟩

/-- The whole of the names, when entry `i` of `dir` was set and no other
directory was touched. -/
theorem Good.entered_names (h : Good d) (hdir : IsDir d dir)
    (hE : Entered d.vol dir i n d'.vol) (hlive : d'.live = d.live) :
    d'.names = update d.names (dir, i) (if n = 0 then none else some n) := by
  funext x
  rw [update_apply]
  by_cases hx : x.1 = dir
  · rw [show x = (dir, x.2) from Prod.ext hx rfl, Fs.entered_names hdir hE (by rw [hlive])
        (h.readable.size dir hdir.live hdir.mode) (h.aligned dir hdir.live hdir.mode)]
    by_cases hi : x.2 = i
    · rw [if_pos hi, hi, if_pos rfl]
    · rw [if_neg hi, if_neg (ne_of_snd hi)]
  · rw [if_neg fun hc => hx (by rw [hc])]
    exact h.readable.names_kept (by rw [hlive]) (hE.touches.kept _ hx)

theorem Opened.free_name (ho : Opened d.vol dir z i v) : d.names (dir, i) = none := by
  refine names_eq_none fun hc => hc.2.2.2 (ho.was ?_)
  have : 16 * (i + 1) ≤ (d.vol.inode dir).size := hc.2.2.1
  omega

/-- Entry `i` of `dir`, after the dots, is set to `k`, and inode `n` has
`a` links now. The graph and the tree have to be right; the rest is. -/
theorem Good.setName (h : Good d) (hdir : IsDir d dir) {k : Nat}
    {o : Option Nat} (hE : Entered d.vol dir i k w)
    (ho : o = if k = 0 then none else some k) (hi : 2 ≤ i)
    (h0 : d.names (dir, 0) ≠ none) (hn : d.live n = true) (hne : n ≠ dir)
    (ha : a < 256) (hheld : a = 0 → 0 < d.count n)
    (hh : LinkGraph.Honest ⟨d.live, update d.names (dir, i) o,
      update d.nlinks n a⟩ entries) (ht : Tree (fun m => (d.vol.inode m).mode = .dir)
      (update d.names (dir, i) o)) : Good ((d.setVol w).setLinks n a) := by
  generalize he : (d.setVol w).setLinks n a = e
  have hvol : e.vol = w := by rw [← he]; rfl
  have hlive : e.live = d.live := by rw [← he]; rfl
  have hcount : e.count = d.count := by rw [← he]; rfl
  have hlinks : e.nlinks = update d.nlinks n a := by
    rw [← he]
    show update d.nlinks n (a % 256) = _
    rw [Nat.mod_eq_of_lt ha]
  rw [← hvol] at hE
  have hnames : e.names = update d.names (dir, i) o := by
    rw [h.entered_names hdir hE hlive, ho]
  have hdir0 : e.names (dir, 0) ≠ none := by
    rw [hnames, update_of_ne (ne_of_snd (by omega))]
    exact h0
  refine good_of_fit hE.touches.sound ?_ ?_ ?_ (by exact LinkGraph.ext hlive hnames hlinks) hh
    (ht.mono fun m hm => ?_) fun m => ?_
  · rw [hE.touches.first]
    exact h.readable.first
  · rw [← he]
    exact h.readable.short
  · rw [← he]
    exact h.readable.zero
  · rw [hE.touches.modes] at hm
    exact hm
  · by_cases hmd : m = dir
    · subst hmd
      refine entered_fit h.fit hdir hE (by rw [hlive]) hdir0 ?_ ?_
      · rw [hlinks, update_of_ne hne.symm]
        exact h.byte m
      · rw [hlinks, update_of_ne hne.symm]
        exact hdir.linked
    · by_cases hmn : m = n
      · subst hmn
        have hk := hE.touches.kept m hmd
        obtain ⟨h1, h2, h3, h4, h5⟩ := h.fit
        have hm0 := h.fit.names_kept hk (by rw [hlive]) 0
        have hl : e.nlinks m = a := by
          rw [hlinks, update_self]
        refine ⟨fun hc => ?_, ?_, ?_, by omega, fun _ hc => ?_⟩
        · rw [hlive, hn] at hc
          cases hc
        · rw [hlive, hk.inode]
          exact h2
        · rw [hlive, hk.inode, hm0]
          exact h3
        · rw [hcount]
          exact hheld (by omega)
      · exact h.fit.kept (hE.touches.kept m hmd) (by rw [hlive])
          (by rw [hlinks, update_of_ne hmn]) (by rw [hcount])

/-- A link to an inode is made. -/
theorem Good.link (h : Good d) (hdir : IsDir d dir)
    (hz : (d.vol.inode dir).zone 0 ≠ 0) (hn : d.live n = true)
    (hone : (d.vol.inode n).mode = .dir → ∀ y, d.names y ≠ some n)
    (hn1 : n ≠ 1) (hne : n ≠ dir) (h255 : d.nlinks n ≠ 255)
    (hE : Entered d.vol dir i n w) (hfree : d.names (dir, i) = none) :
    Good ((d.setVol w).setLinks n (d.nlinks n + 1)) := by
  have hlisted := h.listed dir hdir.live hdir.mode hz
  have hlate := h.tree.free_late hlisted hfree
  have hn0 : n ≠ 0 := by
    have := (live_iff.mp hn).1.1
    omega
  have hbyte := h.byte n
  refine h.setName hdir hE (if_neg hn0).symm hlate.1 hlisted hn
    hne (by omega) (fun hc => by omega) ?_ ?_
  · exact h.honest.bind (mem_entries (h.readable.live_lt hdir.live) hE.bound) hfree hn
  · exact h.tree.link hlate.1 hfree hn1 hlate.2 hone fun _ _ hm => hm

/-- Entries of the two dots name directories. -/
theorem Good.late (h : Good d) (hx : d.names x = some n)
    (hmode : (d.vol.inode n).mode ≠ .dir) : 2 ≤ x.2 := by
  have hself := (names_eq_some.mp (h.tree.dots x n hx).1).1.2.1
  rcases h.tree.cases hx with hlate | ⟨-, rfl⟩ | ⟨-, ⟨hroot, rfl⟩ | ⟨i, -, hi⟩⟩
  · exact hlate
  · exact absurd hself hmode
  · rw [hroot] at hself
    exact absurd hself hmode
  · exact absurd (names_eq_some.mp hi).1.2.1 hmode

/-- An entry is cleared. -/
theorem HasEntry.cleared (h : HasEntry d dir i) (hs : Sound d.vol) (hf : d.vol.IsFile dir) :
    Entered d.vol dir i 0 (d.vol.setDirEntry (d.vol.zoneAt (slotPath dir i)) i 0) := by
  obtain ⟨ht, hslots⟩ := hs.setDirEntry (n := 0) hf h.bound rfl h.block (by omega)
  have hsize := h.size
  exact ⟨ht, h.bound, .inr (by omega), (if_neg (by omega)).symm, hslots⟩

/-- A link to a file is taken away; the caller still holds the file. -/
theorem Good.unlink (h : Good d) (hdir : IsDir d dir)
    (hh : HasEntry d dir i) (hn : d.vol.dirSlot dir i = n)
    (hmode : (d.vol.inode n).mode ≠ .dir) (hc : 0 < d.count n) :
    Good ((d.setVol (d.vol.setDirEntry (d.vol.zoneAt (slotPath dir i)) i
      0)).setLinks n (d.nlinks n - 1)) := by
  have hname : d.names (dir, i) = some n := by
    rw [hdir.names hh, hn]
  have hlate := h.late hname hmode
  have hlive := h.honest.alive _ _ hname
  have hlisted : d.names (dir, 0) ≠ none := by
    rw [(h.tree.dots _ _ hname).1]
    exact nofun
  have hne : n ≠ dir := by
    rintro rfl
    exact hmode hdir.mode
  have hbyte := h.byte n
  refine h.setName hdir (hh.cleared h.readable.sound hdir.isFile)
    rfl hlate hlisted hlive hne (by omega) (fun _ => hc) ?_ ?_
  · exact h.honest.unbind hname
  · exact h.tree.unlink hlate hname (names_eq_none fun hc => hmode hc.2.1)

-- ======== inodes come and go

theorem Dev.made_live (hf : Free d n) (m : Nat) :
    (d.made n).live m = if m = n then true else d.live m := by
  have hset : (d.made n).inodeBit m = if m = n then true else d.inodeBit m :=
    Dev.inodeBit_setInodeBit hf.map true m
  unfold Dev.live
  rw [hset]
  show (decide (1 ≤ m ∧ m ≤ d.ninodes) && _) = _
  by_cases hm : m = n
  · rw [if_pos hm, if_pos hm, Bool.and_true]
    have := hf.low
    have := hf.high
    exact decide_eq_true (by omega)
  · rw [if_neg hm, if_neg hm]

theorem Good.ne_one (h : Good d) (hf : Free d n) : n ≠ 1 := by
  have hroot := h.honest.alive _ _ h.tree.root
  exact hf.ne_of_live hroot

/-- The new inode, referred to and not named yet. -/
def Dev.enrolled (d : Dev) (n : Nat) (I : Inode) : Dev :=
  (((d.made n).setLinks n 0).setCount n 1).setInode n I

theorem Dev.enrolled_live (hf : Free d n) (m : Nat) :
    (d.enrolled n I).live m = if m = n then true else d.live m :=
  d.made_live hf m

theorem Dev.enrolled_nlinks : (d.enrolled n I).nlinks = update d.nlinks n 0 := by
  show update (update d.nlinks n _) n _ = _
  rw [update_idem]

theorem Good.enrolled (h : Good d) (hf : Free d n)
    (hI : I.mode ≠ .other → I.size = 0 ∧ ∀ k, I.zone k = 0) :
    Good (d.enrolled n I) ∧ (d.enrolled n I).names = d.names := by
  have hlive := d.enrolled_live (I := I) hf
  have hlinks := d.enrolled_nlinks (n := n) (I := I)
  obtain ⟨hs, hk⟩ := h.readable.sound.setInode fun hm =>
    (hI hm).2
  have hcount : (d.enrolled n I).count = update d.count n 1 := rfl
  have hself : (d.enrolled n I).vol.inode n = I := update_self ..
  have hnames : (d.enrolled n I).names = d.names := by
    funext x
    by_cases hx : x.1 = n
    · rw [names_dead (d := d) (by rw [hx]; exact hf.not_live)]
      refine names_eq_none fun hc => ?_
      have hm := hc.2.1
      have hsz := hc.2.2.1
      rw [hx, hself] at hm hsz
      have := (hI (by rw [hm]; exact nofun)).1
      omega
    · exact h.readable.names_kept (by rw [hlive, if_neg hx]) (hk _ hx)
  refine ⟨good_of_fit (g := d.graph.enroll n) hs h.readable.first h.readable.short
    (h.readable.zero_set hf) ?_ (h.honest.enroll hf.not_live) ?_ fun m => ?_, hnames⟩
  · refine LinkGraph.ext (funext fun m => ?_) hnames hlinks
    exact (hlive m).trans (d.graph.enroll_live n m).symm
  · refine ⟨h.tree.root, h.tree.top, h.tree.dots, fun x y k hd hx hy hxk => ?_, h.tree.parent⟩
    have hkn : k ≠ n := (hf.ne_of_live (h.honest.alive x k hxk)).symm
    rw [show (d.enrolled n I).vol.inode k = _ from (hk k hkn).inode] at hd
    exact h.tree.once x y k hd hx hy hxk
  · by_cases hmn : m = n
    · subst hmn
      have hl : (d.enrolled m I).live m = true := by
        rw [hlive, if_pos rfl]
      refine ⟨fun hc => ?_, fun _ hm => ?_, fun _ hm h0 => ?_, ?_, ?_⟩
      · rw [hl] at hc
        cases hc
      · rw [hself] at hm ⊢
        rw [(hI (by rw [hm]; exact nofun)).1]
        omega
      · rw [hself] at hm h0
        exact absurd ((hI (by rw [hm]; exact nofun)).2 0) h0
      · rw [hlinks, update_self]
        omega
      · intro _ _
        rw [hcount, update_self]
        omega
    · exact h.fit.kept (hk m hmn) (by rw [hlive, if_neg hmn])
        (by rw [hlinks, update_of_ne hmn]) (by rw [hcount, update_of_ne hmn])

/-- The directories are as before, entry by entry. -/
theorem Good.revol (h : Good d) (ha : Alike d w) : Good (d.setVol w) := by
  have hn := h.readable.names_alike ha
  refine good_of_fit ha.sound ?_ h.readable.short h.readable.zero
    (by exact LinkGraph.ext rfl hn rfl) h.honest (h.tree.mono fun m hm => ?_) fun m => ?_
  · show 0 < w.firstdatazone
    rw [ha.first]
    exact h.readable.first
  · rw [← ha.mode]
    exact hm
  · obtain ⟨h1, h2, h3, h4, h5⟩ := h.fit
    have hmode : ((d.setVol w).vol.inode m).mode = (d.vol.inode m).mode :=
      ha.mode m
    refine ⟨?_, fun hl hm => ?_, fun hl hm h0 => ?_, h4, h5⟩
    · rw [hmode]
      exact h1
    · rw [hmode] at hm
      rw [show ((d.setVol w).vol.inode m).size = _ from ha.size m hl hm]
      exact h2 hl hm
    · rw [hmode] at hm
      rw [hn]
      exact h3 hl hm (ha.head m hl hm h0)

section

variable (h : Good d) (hdir : IsDir d dir) (hf : Free d n)
include h hdir hf

/-- A new inode has its name. -/
theorem Good.created (hI : I.Bare) (hz : (d.vol.inode dir).zone 0 ≠ 0)
    (ho : Opened (d.vol.setInode n I) dir z i w) :
    Good ((d.made n).setVol (w.setDirEntry z i n)) := by
  have hne := hf.ne_of_live hdir.live
  obtain ⟨he, hnames⟩ := h.enrolled hf fun hm => hI.resolve_left hm
  have hlive := d.enrolled_live (I := I) hf
  have hlinks := d.enrolled_nlinks (n := n) (I := I)
  have hin : (d.enrolled n I).vol.inode dir = d.vol.inode dir :=
    update_of_ne hne.symm _ _
  have hdir' : IsDir (d.enrolled n I) dir := by
    refine ⟨?_, ?_, ?_⟩
    · rw [hlive, if_neg hne.symm]
      exact hdir.live
    · rw [hin]
      exact hdir.mode
    · rw [hlinks, update_of_ne hne.symm]
      exact hdir.linked
  have hn0 : (d.enrolled n I).nlinks n = 0 := by
    rw [hlinks, update_self]
  have hlink := he.link hdir' (by rw [hin]; exact hz) (by rw [hlive, if_pos rfl]) (fun _ y hy => by
    rw [hnames] at hy
    exact hf.ne_of_live (h.honest.alive y n hy) rfl)
    (h.ne_one hf) hne (by omega) (ho.entered hdir'.isFile (hf.lt h.readable))
    (ho.free_name)
  have hcount := hlink.setCount (a := 0) ((hlive n).trans (if_pos rfl)) (fun hc => by
    have : update _ n _ n = 0 := hc
    rw [update_self, hn0] at this
    cases this)
  have heq : ((((d.enrolled n I).setVol (w.setDirEntry z i n)).setLinks n
      ((d.enrolled n I).nlinks n + 1)).setCount n 0) = (d.made n).setVol (w.setDirEntry z i n) := by
    have h0 : update d.count n 0 = d.count :=
      Function.update_eq_self_iff.mpr (h.readable.free_facts hf).1.symm
    rw [hn0]
    show Dev.mk _ _ _ (update (d.enrolled n I).nlinks n _)
      (update (update d.count n 1) n 0) = Dev.mk _ _ _ _ _
    rw [hlinks, update_idem, update_idem, h0]
    rfl
  rw [← heq]
  exact hcount

-- ======== directories

/-- What is on the device when `sys_mkdir` has made directory `n` in `dir`
and dropped its references. -/
def Dev.madeDir (d : Dev) (n dir : Nat) : Dev :=
  ((d.setInodeBit n true).setLinks n 2).setLinks dir (d.nlinks dir + 1)

omit h hf in
theorem IsDir.kept (hk : Kept d.vol v dir) : IsDir (d.setVol v) dir :=
  ⟨hdir.live, by rw [← hdir.mode]; exact congrArg _ hk.inode, hdir.linked⟩

theorem Good.madeDir_names (hN : NewDir d.vol dir n z v) (hE : Entered v dir i n w) :
    ((d.madeDir n dir).setVol w).names = update (update (update d.names (dir, i)
        (some n)) (n, 0) (some n)) (n, 1) (some dir) := by
  generalize he : (d.madeDir n dir).setVol w = e
  have hlive : ∀ m, e.live m = if m = n then true else d.live m := by
    rw [← he]
    exact d.made_live hf
  have hvol : e.vol = w := by rw [← he]; rfl
  rw [← hvol] at hE
  have hne := hf.ne_of_live hdir.live
  have hn0 : n ≠ 0 := by
    have := hf.low
    omega
  have hdir0 : dir ≠ 0 := by
    have := (live_iff.mp hdir.live).1
    omega
  have hk : Kept d.vol (d.setVol v).vol dir := hN.kept dir hne.symm
  have hfit := h.fit.kept hk rfl rfl rfl
  have hdir' : IsDir (d.setVol v) dir := hdir.kept hk
  have hsize := hfit.size hdir'.live hdir'.mode
  have hin : e.vol.inode n = ⟨.dir, 32, fun k => if k = 0 then z else 0⟩ := by
    rw [(hE.touches.kept n hne).inode, hN.inode]
  have hfile : v.IsFile n := isFile_of_dir (by rw [hN.inode])
  have hslot : ∀ j, j < 2 → e.vol.dirSlot n j = v.dirSlot n j := fun j hj =>
    (hE.touches.kept n hne).dirSlot hfile (dot_lt hj)
  have hdot : ∀ j k, j < 2 → k ≠ 0 → v.dirSlot n j = k → e.names (n, j) = some k := by
    intro j k hj hk0 hjk
    have hs : e.vol.dirSlot n j = k := (hslot j hj).trans hjk
    refine names_eq_some.mpr ⟨⟨?_, ?_, ?_, ?_⟩, hs⟩
    · rw [hlive, if_pos rfl]
    · rw [hin]
    · rw [hin]
      show 16 * (j + 1) ≤ 32
      omega
    · rw [hs]
      exact hk0
  funext ⟨m, j⟩
  by_cases hmn : m = n
  · subst hmn
    by_cases h1 : j = 1
    · subst h1
      rw [update_self]
      exact hdot 1 dir (by omega) hdir0 hN.parent
    by_cases h0 : j = 0
    · subst h0
      rw [update_of_ne (ne_of_snd h1), update_self]
      exact hdot 0 m (by omega) hn0 hN.self
    · rw [update_of_ne (ne_of_snd h1), update_of_ne (ne_of_snd h0), update_of_ne (ne_of_fst hne),
        names_dead (d := d) hf.not_live]
      refine names_eq_none fun hc => ?_
      have : 16 * (j + 1) ≤ (e.vol.inode m).size := hc.2.2.1
      rw [hin] at this
      have : 16 * (j + 1) ≤ 32 := this
      omega
  · rw [update_of_ne (ne_of_fst hmn), update_of_ne (ne_of_fst hmn)]
    by_cases hmd : m = dir
    · subst hmd
      rw [Fs.entered_names hdir' hE (by rw [hlive, if_neg hmn]; rfl) hsize.1 hsize.2,
        h.fit.names_kept hk rfl, if_neg hn0, update_apply]
      by_cases hji : j = i
      · rw [if_pos hji, if_pos (by rw [hji])]
      · rw [if_neg hji, if_neg (ne_of_snd hji)]
    · rw [update_of_ne (ne_of_fst hmd)]
      exact h.fit.names_kept ((hN.kept m hmn).trans (hE.touches.kept m hmd))
        (by rw [hlive, if_neg hmn]) j

theorem Good.mkdir (hz : (d.vol.inode dir).zone 0 ≠ 0) (h255 : d.nlinks dir ≠ 255)
    (hN : NewDir d.vol dir n z v) (hE : Entered v dir i n w) (hfree : d.names (dir, i) = none)
    : Good ((d.madeDir n dir).setVol w) := by
  have hnames := h.madeDir_names hdir hf hN hE
  have hlive : ∀ m, ((d.madeDir n dir).setVol w).live m
      = if m = n then true else d.live m := d.made_live hf
  have hne := hf.ne_of_live hdir.live
  have hbyte := h.byte dir
  have hlinks : ((d.madeDir n dir).setVol w).nlinks
      = update (update d.nlinks n 2) dir (d.nlinks dir + 1) := by
    show update (update d.nlinks n 2) dir ((d.nlinks dir + 1) % 256) = _
    rw [Nat.mod_eq_of_lt (by omega)]
  have hlate := h.tree.free_late (h.listed dir hdir.live hdir.mode hz) hfree
  have hn1 := h.ne_one hf
  have hdead := hf.not_live
  have hempty : ∀ j, update d.names (dir, i) (some n) (n, j) = none := by
    intro j
    rw [update_of_ne (ne_of_fst hne)]
    exact names_dead hdead
  have hin : w.inode n = ⟨.dir, 32, fun k => if k = 0 then z else 0⟩ := by
    rw [(hE.touches.kept n hne).inode, hN.inode]
  have hmode : ∀ m, m ≠ n → (w.inode m).mode = .dir → (d.vol.inode m).mode = .dir := by
    intro m hmn hm
    rw [hE.touches.modes, (hN.kept m hmn).inode] at hm
    exact hm
  refine good_of_fit hE.touches.sound ?_ h.readable.short (h.readable.zero_set hf)
    (g := (((d.graph.enroll n).bind (dir, i) n).bind (n, 0) n).bind (n, 1) dir) ?_ ?_ ?_ fun m => ?_
  · show 0 < w.firstdatazone
    rw [hE.touches.first, hN.first]
    exact h.readable.first
  · refine LinkGraph.ext (funext fun m => ?_) hnames ?_
    · exact (hlive m).trans (d.graph.enroll_live n m).symm
    · rw [show ((d.madeDir n dir).setVol w).graph.links = _ from hlinks]
      funext m
      simp only [LinkGraph.bind_links, LinkGraph.enroll_links,
        update_apply, if_neg hne.symm, if_true]
      by_cases hmd : m = dir
      · rw [if_pos hmd, if_pos hmd]
        rfl
      · rw [if_neg hmd, if_neg hmd]
        by_cases hmn : m = n
        · rw [if_pos hmn, if_pos hmn]
        · rw [if_neg hmn, if_neg hmn, if_neg hmn, if_neg hmn]
          rfl
  · -- the three names of the new directory, one after the other
    have hdirlt := h.readable.live_lt hdir.live
    have hnlt := hf.lt h.readable
    have hnlive : (d.graph.enroll n).live n = true := by
      rw [LinkGraph.enroll_live, if_pos rfl]
    have hdirlive : (d.graph.enroll n).live dir = true := by
      rw [LinkGraph.enroll_live, if_neg hne.symm]
      exact hdir.live
    have h1 := (h.honest.enroll hdead).bind (mem_entries hdirlt hE.bound) hfree hnlive
    have h2 := h1.bind (mem_entries hnlt (dot_lt Nat.two_pos)) (hempty 0) hnlive
    refine h2.bind (mem_entries hnlt (dot_lt Nat.one_lt_two)) ?_ hdirlive
    rw [LinkGraph.bind_names, if_neg nofun]
    exact hempty 1
  · refine Tree.adopt ?_ hlate.1 (update_self ..) hn1 hempty
    refine h.tree.link hlate.1 hfree hn1 hlate.2 (fun _ y hy => ?_) hmode
    exact hf.ne_of_live (h.honest.alive y n hy) rfl
  · by_cases hmn : m = n
    · subst hmn
      have hl : ((d.madeDir m dir).setVol w).live m = true := by
        rw [hlive, if_pos rfl]
      have hl2 : ((d.madeDir m dir).setVol w).nlinks m = 2 := by
        rw [hlinks, update_of_ne hne, update_self]
      have hsz : (((d.madeDir m dir).setVol w).vol.inode m).size = 32 := by
        rw [show ((d.madeDir m dir).setVol w).vol.inode m = _ from hin]
      refine ⟨fun hc => ?_, fun _ _ => ?_, fun _ _ _ => ?_, by omega, fun _ hc => by omega⟩
      · rw [hl] at hc
        cases hc
      · rw [hsz]
        unfold maxEntries maxBlocks dirEntriesPerBlock
        omega
      · rw [hnames, update_of_ne (fun hc => by cases hc), update_self]
        exact nofun
    have hlm : ((d.madeDir n dir).setVol w).live m = d.live m := by
      rw [hlive, if_neg hmn]
    have hfit : Fit (d.setVol v) m :=
      h.fit.kept (hN.kept m hmn) rfl rfl rfl
    by_cases hmd : m = dir
    · subst hmd
      have hlm' : ((d.madeDir n m).setVol w).nlinks m = d.nlinks m + 1 := by
        rw [hlinks, update_self]
      refine entered_fit hfit (hdir.kept (hN.kept m hmn)) hE hlm ?_ (by omega) (by omega)
      rw [hnames, update_of_ne (ne_of_fst hmn), update_of_ne (ne_of_fst hmn),
        update_of_ne (ne_of_snd (by have := hlate.1; omega))]
      exact h.listed m hdir.live hdir.mode hz
    · refine hfit.kept (hE.touches.kept m hmd) hlm ?_ rfl
      rw [hlinks, update_of_ne hmd, update_of_ne hmn]
      rfl

end

/-- A directory `n` with nothing in it but its dots, and the entry that
names it. -/
structure Removable (d : Dev) (dir i n : Nat) : Prop where
  isDir : IsDir d dir
  holds : HasEntry d dir i
  slot : d.vol.dirSlot dir i = n
  mode : (d.vol.inode n).mode = .dir
  other : n ≠ dir
  dot : d.names (n, 0) ≠ none
  empty : ∀ j, 2 ≤ j → d.names (n, j) = none

theorem Removable.name (hr : Removable d dir i n) : d.names (dir, i) = some n := by
  rw [hr.isDir.names hr.holds, hr.slot]

section

variable (h : Good d) (hr : Removable d dir i n)
include h hr

/-- The entry is after the dots, the directory is not the root, and its
`..` is the directory it is in. -/
theorem Good.removable : 2 ≤ i ∧ n ≠ 1 ∧ d.names (n, 0) = some n ∧ d.names (n, 1) = some dir := by
  have hname := hr.name
  have hi : 2 ≤ i := by
    rcases h.tree.cases hname with hi | ⟨-, hc⟩ | ⟨-, ⟨hroot, hc⟩ | ⟨j, hj, hnj⟩⟩
    · exact hi
    · exact absurd hc hr.other
    · exact absurd (hc.trans hroot.symm) hr.other
    · rw [hr.empty j hj] at hnj
      cases hnj
  have hn1 : n ≠ 1 := by
    rintro rfl
    exact h.tree.top _ hi hname
  obtain ⟨k, hk⟩ := Option.ne_none_iff_exists'.mp hr.dot
  have hself := h.tree.dots _ _ hk
  obtain ⟨q, hq⟩ := Option.ne_none_iff_exists'.mp hself.2
  obtain ⟨j, hj, hqj⟩ := h.tree.parent n q hn1 hq
  have hsame := h.tree.once _ _ n hr.mode hj hi hqj hname
  refine ⟨hi, hn1, hself.1, ?_⟩
  rw [← (Prod.mk.inj hsame).1]
  exact hq

/-- The links without those of a removed directory. -/
abbrev rmdirGraph (d : Dev) (dir i n : Nat) : LinkGraph (Nat × Nat) Nat :=
  ((d.graph.unbind (n, 0) n).unbind (n, 1) dir).unbind (dir, i) n

theorem Good.rmdir_graph :
    (rmdirGraph d dir i n).Honest entries ∧ ∀ x, (rmdirGraph d dir i n).names x ≠ some n := by
  obtain ⟨hi, hn1, h0, h1⟩ := h.removable hr
  refine ⟨?_, fun x hx => ?_⟩
  · refine LinkGraph.Honest.unbind (LinkGraph.Honest.unbind (h.honest.unbind h0) ?_) ?_
    · rw [LinkGraph.unbind_names, if_neg nofun]
      exact h1
    · rw [LinkGraph.unbind_names, LinkGraph.unbind_names,
        if_neg (ne_of_fst hr.other.symm),
        if_neg (ne_of_fst hr.other.symm)]
      exact hr.name
  · obtain ⟨hxd, hx⟩ := LinkGraph.of_unbind_names hx
    obtain ⟨-, hx⟩ := LinkGraph.of_unbind_names hx
    obtain ⟨hx0, hx⟩ := LinkGraph.of_unbind_names hx
    rcases h.tree.cases hx with hx2 | ⟨hj, hn⟩ | ⟨-, ⟨-, hn⟩ | ⟨j, hj, hnj⟩⟩
    · exact hxd (h.tree.once _ _ n hr.mode hx2 hi hx hr.name)
    · exact hx0 (Prod.ext hn.symm hj)
    · exact hn1 hn
    · rw [hr.empty j hj] at hnj
      cases hnj

/-- The removed directory has no links but those two, and the other one
more than that. -/
theorem Good.rmdir_links : d.nlinks n ≤ 2 ∧ 2 ≤ d.nlinks dir := by
  obtain ⟨hi, -, h0, -⟩ := h.removable hr
  obtain ⟨hh, hno⟩ := h.rmdir_graph hr
  have hzero := hh.count n (h.honest.alive _ _ h0)
  rw [refs_eq_zero_iff.mpr fun x _ => hno x] at hzero
  have hpos := hh.links_pos (x := (dir, 0)) (by
    simp only [LinkGraph.unbind_names]
    rw [if_neg (ne_of_snd (by omega)), if_neg (ne_of_fst hr.other.symm),
      if_neg (ne_of_fst hr.other.symm)]
    exact (h.tree.dots _ _ hr.name).1)
  simp only [LinkGraph.unbind_links, if_neg hr.other, if_neg hr.other.symm, if_true] at hzero hpos
  have hn : d.nlinks n - 1 - 1 = 0 := hzero
  have hdir : 0 < d.nlinks dir - 1 := hpos
  omega

/-- The device when `sys_rmdir` has cleared the entry and set the
counts. -/
def Dev.unlinkedDir (d : Dev) (dir i n : Nat) : Dev :=
  ((d.setVol (d.vol.setDirEntry (d.vol.zoneAt (slotPath dir i)) i
    0)).setLinks n 0).setLinks dir (d.nlinks dir + 255)

theorem Good.rmdir (hv : truncate n (d.unlinkedDir dir i n).vol = .ok v) :
    Good ((d.unlinkedDir dir i n).freed n v) := by
  obtain ⟨hi, hn1, h0, h1⟩ := h.removable hr
  obtain ⟨hh, hno⟩ := h.rmdir_graph hr
  obtain ⟨hl2, hld⟩ := h.rmdir_links hr
  have hdir := hr.isDir
  have hlive : d.live n = true := h.honest.alive _ _ h0
  have hbyte := h.byte dir
  generalize hx : d.unlinkedDir dir i n = x at hv ⊢
  have hxlinks : x.nlinks = update (update d.nlinks n 0) dir (d.nlinks dir - 1) := by
    rw [← hx]
    show update (update d.nlinks n _) dir ((d.nlinks dir + 255) % 256) = _
    rw [show (d.nlinks dir + 255) % 256 = d.nlinks dir - 1 by omega]
  have hxlive : x.live = d.live := by rw [← hx]; rfl
  have hxcount : x.count = d.count := by rw [← hx]; rfl
  have hE : Entered d.vol dir i 0 x.vol := by
    rw [← hx]
    exact hr.holds.cleared h.readable.sound hdir.isFile
  have hxnames := h.entered_names hdir hE hxlive
  obtain ⟨hs, hkept, hfirst, hmode⟩ := hE.touches.sound.freed hv
  have hlive' : ∀ m, (x.freed n v).live m = if m = n then false else d.live m := by
    rw [← hxlive]
    exact Dev.freed_live (by rw [hxlive]; exact hlive) v
  have hdot : x.names (dir, 0) = some dir := by
    rw [hxnames, update_of_ne (ne_of_snd (by omega))]
    exact (h.tree.dots _ _ hr.name).1
  have hfit : ∀ m, m ≠ n → Fit x m := by
    intro m hmn
    by_cases hmd : m = dir
    · rw [hmd]
      refine entered_fit h.fit hdir hE (by rw [hxlive]) ?_ ?_ ?_
      · rw [hdot]
        exact nofun
      · rw [hxlinks, update_self]
        omega
      · rw [hxlinks, update_self]
        omega
    · refine h.fit.kept (hE.touches.kept m hmd) (by rw [hxlive]) ?_ (by rw [hxcount])
      rw [hxlinks, update_of_ne hmd, update_of_ne hmn]
  have hnames : (x.freed n v).names = (rmdirGraph d dir i n).names := by
    funext ⟨m, j⟩
    simp only [LinkGraph.unbind_names]
    by_cases hmn : m = n
    · subst hmn
      rw [names_dead (by rw [hlive', if_pos rfl]), if_neg (ne_of_fst hr.other)]
      split
      · rfl
      · rename_i hj1
        split
        · rfl
        · rename_i hj0
          refine (hr.empty j ?_).symm
          have hj1 : j ≠ 1 := fun hc => hj1 (by rw [hc])
          have hj0 : j ≠ 0 := fun hc => hj0 (by rw [hc])
          omega
    · rw [(hfit m hmn).names_kept (hkept m hmn)
        (by rw [hlive', if_neg hmn, hxlive]), hxnames, update_apply,
        if_neg (ne_of_fst hmn),
        if_neg (ne_of_fst hmn)]
      rfl
  have hself : (x.freed n v).vol.inode n = .blank := update_self ..
  refine good_of_fit hs ?_ ?_ ?_ (g := (rmdirGraph d dir i n).retire n) ?_ (hh.retire hno) ?_
    fun m => ?_
  · rw [hfirst, hE.touches.first]
    exact h.readable.first
  · rw [← hx]
    exact h.readable.short
  · rw [← hx]
    exact h.readable.zero_unset hlive
  · refine LinkGraph.ext (funext fun m => ?_) hnames (funext fun m => ?_)
    · exact (hlive' m).trans (LinkGraph.retire_live (rmdirGraph d dir i n) n m).symm
    · show x.nlinks m = (rmdirGraph d dir i n).links m
      rw [hxlinks]
      simp only [LinkGraph.unbind_links, update_apply, if_neg hr.other, if_true]
      by_cases hmd : m = dir
      · rw [if_pos hmd, hmd, if_neg hr.other.symm, if_pos rfl, if_neg hr.other.symm]
        rfl
      · rw [if_neg hmd, if_neg hmd]
        by_cases hmn : m = n
        · rw [if_pos hmn, if_pos hmn]
          show 0 = d.nlinks n - 1 - 1
          omega
        · rw [if_neg hmn, if_neg hmn, if_neg hmn]
          rfl
  · refine Tree.mono (Tree.unlink (h.tree.disown hn1 hr.empty) hi
      ?_ (update_self ..)) fun m hm => by rw [← hE.touches.modes]; exact hmode m hm
    simp only [LinkGraph.unbind_names]
    rw [if_neg (ne_of_fst hr.other.symm), if_neg (ne_of_fst hr.other.symm)]
    exact hr.name
  · by_cases hmn : m = n
    · subst hmn
      refine .of_dead (by rw [hlive', if_pos rfl]) (by rw [hself]; rfl) (update_self ..) ?_
      show x.nlinks m = 0
      rw [hxlinks, update_of_ne hr.other, update_self]
    · exact (hfit m hmn).kept (hkept m hmn) (by rw [hlive', if_neg hmn, hxlive]) rfl
        (update_of_ne hmn _ _)

end

end LearnLinux.Fs
