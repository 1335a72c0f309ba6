/-
What `copy_strings` leaves in the argument pages.

`Block.Ok` ties `page[]` to the memory: its pages are held frames of the
page-table invariant, each used once, and nothing else of the memory has
changed since the block was empty. `Copied` says how a run of pushes
ends: with the bytes in place, for want of a page, or outside `page[]`.
Both loops of `copy_strings` are runs of pushes, so that it is enough to
look at one push.
-/
import LearnLinux.Fs.Exec
import LearnLinux.Mm.Proofs.UserBuffer

namespace LearnLinux.Exec

open Function (update update_self update_of_ne update_apply)
open Mm Lib

variable {lo hi : Nat} {s₀ : Mem} {b : Block} {bs cs : List UInt8} {k : Copy} {p : UInt32}

-- ======== pages and their bytes

/-- The frames that `page[]` holds. -/
def heldFrames (page : Nat → Nat) : Finset Nat :=
  ((Finset.range MAX_ARG_PAGES).filter fun i => page i ≠ 0).image fun i => page i / 4096

/-- The byte at place `q` of the argument area. -/
def Block.byteAt (b : Block) (q : Nat) : Nat :=
  b.mem.byte (b.page (q / 4096) + q % 4096)

/-- The block holds its pages, and the memory `s₀` is otherwise as it
was. -/
structure Block.Ok (lo hi : Nat) (s₀ : Mem) (b : Block) : Prop where
  paging : Paging lo hi (heldFrames b.page) b.mem
  addr : ∀ i, i < MAX_ARG_PAGES → b.page i = b.page i / 4096 * 4096
  inj : ∀ i j, i < MAX_ARG_PAGES → j < MAX_ARG_PAGES → b.page i ≠ 0 → b.page i = b.page j → i = j
  out : ∀ k, k / 1024 ∉ heldFrames b.page → b.mem.word k = s₀.word k
  map : ∀ k, b.mem.memMap k =
    if k + 256 ∈ heldFrames b.page then 1 else s₀.memMap k
  was : ∀ f ∈ heldFrames b.page, s₀.memMap (f - 256) = 0
  high : b.mem.highMemory = s₀.highMemory

theorem mem_heldFrames {page : Nat → Nat} {f : Nat} : f ∈ heldFrames page ↔
      ∃ i, i < MAX_ARG_PAGES ∧ page i ≠ 0 ∧ page i / 4096 = f := by
  unfold heldFrames
  simp only [Finset.mem_image, Finset.mem_filter, Finset.mem_range, and_assoc]

theorem heldFrames_empty : heldFrames (fun _ => 0) = ∅ := by
  apply Finset.eq_empty_of_forall_notMem
  intro f hf
  obtain ⟨i, -, h0, -⟩ := mem_heldFrames.mp hf
  exact h0 rfl

theorem emptyBlock_ok (h : Paging lo hi ∅ s₀) : (emptyBlock s₀).Ok lo hi s₀ := by
  have he : heldFrames (emptyBlock s₀).page = ∅ := heldFrames_empty
  refine ⟨?_, ?_, ?_, ?_, ?_, ?_, rfl⟩
  · rw [he]
    exact h
  · intro i _
    simp [emptyBlock]
  · intro i j _ _ h0
    exact absurd rfl h0
  · intro k _
    rfl
  · intro k
    rw [he]
    simp [emptyBlock]
  · intro f hf
    rw [he] at hf
    exact absurd hf (Finset.notMem_empty f)

section Pages

variable {b : Block} {page : Nat → Nat} {i q : Nat}

theorem page_mem_heldFrames
    (hi' : i < MAX_ARG_PAGES) (hp : page i ≠ 0) : page i / 4096 ∈ heldFrames page :=
  mem_heldFrames.mpr ⟨i, hi', hp, rfl⟩

/-- Different places have their bytes at different addresses. -/
theorem Block.Ok.place_inj (h : b.Ok lo hi s₀) {q' : Nat}
    (hq : q < 131072) (hq' : q' < 131072) (hp : b.page (q / 4096) ≠ 0)
    (he : b.page (q / 4096) + q % 4096 = b.page (q' / 4096) + q' % 4096) : q = q' := by
  have hi' : q / 4096 < MAX_ARG_PAGES := by
    unfold MAX_ARG_PAGES
    omega
  have hj : q' / 4096 < MAX_ARG_PAGES := by
    unfold MAX_ARG_PAGES
    omega
  have ha := h.addr _ hi'
  have ha' := h.addr _ hj
  have hpage : b.page (q / 4096) = b.page (q' / 4096) := by omega
  have := h.inj _ _ hi' hj hp hpage
  omega

/-- The page at `page[i]`: there, or taken, or not to be had. -/
inductive PageFor (lo hi : Nat) (s₀ : Mem) (i : Nat) (b : Block) :
    Except Stop (Nat × Block) → Prop where
  | ok {pag : Nat} {b' : Block} (hok : b'.Ok lo hi s₀) (hpag : b'.page i = pag) (hne : pag ≠ 0)
      (hpage : ∀ j, b.page j ≠ 0 → b'.page j = b.page j)
      (hkeep : ∀ q, q < 131072 → b.page (q / 4096) ≠ 0 →
        b'.byteAt q = b.byteAt q) : PageFor lo hi s₀ i b (.ok (pag, b'))
  | nomem (h0 : b.page i = 0) (hfree : getFreePage b.mem = none) :
      PageFor lo hi s₀ i b (.error (.nomem b))

/-- A byte depends on its long only. -/
theorem byte_congr {m m' : Mem} {a : Nat}
    (h : m'.word (a / 4) = m.word (a / 4)) : m'.byte a = m.byte a := by
  unfold Mem.byte
  rw [h]

theorem heldFrames_update {f : Nat}
    (hi' : i < MAX_ARG_PAGES) (h0 : page i = 0) (hf : f * 4096 ≠ 0) :
    heldFrames (update page i (f * 4096)) = insert f (heldFrames page) := by
  ext g
  rw [Finset.mem_insert, mem_heldFrames, mem_heldFrames]
  constructor
  · rintro ⟨j, hj, hne, rfl⟩
    by_cases hji : j = i
    · subst hji
      rw [update_self]
      left
      omega
    · rw [update_of_ne hji] at hne ⊢
      exact .inr ⟨j, hj, hne, rfl⟩
  · rintro (rfl | ⟨j, hj, hne, rfl⟩)
    · refine ⟨i, hi', ?_, ?_⟩
      · rwa [update_self]
      · rw [update_self]
        omega
    · have hji : j ≠ i := by
        rintro rfl
        exact hne h0
      refine ⟨j, hj, ?_, ?_⟩
      · rwa [update_of_ne hji]
      · rw [update_of_ne hji]

theorem Block.Ok.pageFor (h : b.Ok lo hi s₀)
    (hi' : i < MAX_ARG_PAGES) : PageFor lo hi s₀ i b (b.pageFor i) := by
  unfold Block.pageFor
  rw [if_neg (by omega)]
  by_cases hp : b.page i = 0
  · rw [if_neg (by simpa using hp)]
    cases hg : getFreePage b.mem with
    | none => exact .nomem hp hg
    | some x =>
      obtain ⟨pag, m⟩ := x
      obtain ⟨f, hf⟩ := h.paging.fresh_of_getFreePage hg
      have hge := h.paging.main_ge hf.main
      have hf0 : f * 4096 ≠ 0 := by omega
      have hpag := hf.addr
      subst hpag
      have hup := heldFrames_update hi' hp hf0
      have hnew : ∀ j, j < MAX_ARG_PAGES → b.page j ≠ 0 → b.page j ≠ f * 4096 := by
        intro j hj hne he
        apply hf.notHeld
        have := page_mem_heldFrames hj hne
        rw [he, Nat.mul_div_cancel _ (by omega)] at this
        exact this
      refine .ok ?_ (update_self _ _ _) hf0 ?_ ?_
      · refine ⟨?_, ?_, ?_, ?_, ?_, ?_, ?_⟩
        · rw [hup]
          exact hf.paging
        · intro j hj
          by_cases hji : j = i
          · subst hji
            simp only [update_self]
            omega
          · simp only [update_of_ne hji]
            exact h.addr j hj
        · intro j j' hj hj' hne he
          by_cases hji : j = i <;> by_cases hji' : j' = i
          · rw [hji, hji']
          · subst hji
            simp only [update_self, update_of_ne hji'] at he
            have hne' : b.page j' ≠ 0 := by omega
            exact absurd he.symm (hnew j' hj' hne')
          · subst hji'
            simp only [update_self, update_of_ne hji] at he hne
            exact absurd he (hnew j hj hne)
          · simp only [update_of_ne hji, update_of_ne hji'] at he hne
            exact h.inj j j' hj hj' hne he
        · intro k hk
          rw [hup, Finset.mem_insert, not_or] at hk
          rw [hf.out k hk.1]
          exact h.out k hk.2
        · intro k
          rw [hf.map, update_apply, hup, h.map k]
          by_cases hkf : k + 256 = f
          · rw [if_pos (by omega), if_pos (by simp [hkf])]
          · rw [if_neg (by omega)]
            simp [Finset.mem_insert, hkf]
        · intro g hg'
          rw [hup, Finset.mem_insert] at hg'
          rcases hg' with rfl | hg'
          · obtain ⟨f', hge', -, h0', hpage, -⟩ := getFreePage_eq hg
            have hff : g = f' := by omega
            have hmap := h.map (g - 256)
            rw [if_neg (by
              rw [Nat.sub_add_cancel (by omega)]
              exact hf.notHeld)] at hmap
            rw [← hmap, hff]
            exact h0'
          · exact h.was g hg'
        · rw [hf.high]
          exact h.high
      · intro j hne
        apply update_of_ne
        rintro rfl
        exact hne hp
      · intro q hq hne
        have hqi : q / 4096 ≠ i := by
          intro he
          rw [he] at hne
          exact hne hp
        have hlt : q / 4096 < MAX_ARG_PAGES := by
          unfold MAX_ARG_PAGES
          omega
        have ha := h.addr _ hlt
        have hn := hnew _ hlt hne
        unfold Block.byteAt
        simp only [update_of_ne hqi]
        apply byte_congr
        apply hf.out
        omega
  · rw [if_pos hp]
    exact .ok h rfl hp (fun _ _ => rfl) fun _ _ _ => rfl

/-- A byte stored in a page of the block. -/
theorem Block.Ok.putChar (h : b.Ok lo hi s₀) (hq : q < 131072)
    (hp : b.page (q / 4096) ≠ 0) (c : UInt8) :
    (b.putChar (b.page (q / 4096)) (q % 4096) c).Ok lo hi s₀ ∧
      ∀ q', q' < 131072 → b.page (q' / 4096) ≠ 0 →
        (b.putChar (b.page (q / 4096)) (q % 4096) c).byteAt q' =
          if q' = q then c.toNat else b.byteAt q' := by
  have hi' : q / 4096 < MAX_ARG_PAGES := by
    unfold MAX_ARG_PAGES
    omega
  have ha := h.addr _ hi'
  have hheld := page_mem_heldFrames hi' hp
  have hdc := b.mem.storeByte_dataChange (a := b.page (q / 4096) + q % 4096)
    (f := b.page (q / 4096) / 4096) c.toNat (by omega)
  refine ⟨⟨?_, h.addr, h.inj, ?_, ?_, h.was, ?_⟩, ?_⟩
  · exact h.paging.dataChange hdc (h.paging.held_notTable hheld)
  · intro k hk
    have hne : k / 1024 ≠ b.page (q / 4096) / 4096 := by
      intro he
      rw [he] at hk
      exact hk hheld
    exact (hdc.out k hne).trans (h.out k hk)
  · intro k
    exact (congrFun hdc.map k).trans (h.map k)
  · exact hdc.high.trans h.high
  · intro q' hq' hp'
    unfold Block.byteAt Block.putChar
    simp only [Mem.byte_storeByte]
    have hc : c.toNat % 256 = c.toNat := Nat.mod_eq_of_lt c.toNat_lt
    by_cases hqq : q' = q
    · subst hqq
      rw [if_pos rfl, if_pos rfl, hc]
    · rw [if_neg, if_neg hqq]
      intro he
      exact hqq (h.place_inj hq' hq hp' he)

end Pages

-- ======== one push

/-- Where the next byte goes is known: a page boundary has been reached,
or `pag` and `offset` are those of `p`. -/
def Copy.Aimed (k : Copy) : Prop :=
  k.offset = 0 ∨ k.offset = (k.p.toNat % 4096 : Nat) ∧
    k.pag = k.block.page (k.p.toNat / 4096) ∧ k.pag ≠ 0

/-- Every place from `p` to the top has its page. -/
def Block.Filled (b : Block) (p : Nat) : Prop :=
  ∀ q, p ≤ q → q < argTop → b.page (q / 4096) ≠ 0

/-- A block that has been filled down to `p`. -/
structure Block.DownTo (lo hi : Nat) (s₀ : Mem) (p : Nat) (b : Block) : Prop where
  ok : b.Ok lo hi s₀
  filled : b.Filled p
  le : p ≤ argTop

/-- From `b` to `b'` the bytes `bs` have been pushed, in front of what is
at `p` and above. -/
structure Pushed (p : Nat) (b : Block) (bs : List UInt8) (p' : Nat) (b' : Block) : Prop where
  pos : p' + bs.length = p
  page : ∀ i, b.page i ≠ 0 → b'.page i = b.page i
  bytes : ∀ j c, bs[j]? = some c → b'.byteAt (p' + j) = c.toNat
  keep : ∀ q, p ≤ q → q < 131072 → b.page (q / 4096) ≠ 0 → b'.byteAt q = b.byteAt q

theorem Pushed.refl (p : Nat) (b : Block) : Pushed p b [] p b :=
  ⟨rfl, fun _ _ => rfl, fun _ _ h => by simp at h, fun _ _ _ _ => rfl⟩

theorem Pushed.trans {p p' p'' : Nat} {b' b'' : Block}
    (h : Pushed p b bs p' b') (hd : b'.DownTo lo hi s₀ p')
    (htop : p ≤ argTop) (h' : Pushed p' b' cs p'' b'') : Pushed p b (cs ++ bs) p'' b'' := by
  have h1 := h.pos
  have h2 := h'.pos
  refine ⟨?_, ?_, ?_, ?_⟩
  · rw [List.length_append]
    omega
  · intro i hi'
    rw [h'.page i (by rw [h.page i hi']; exact hi'), h.page i hi']
  · intro j c hj
    by_cases hlt : j < cs.length
    · rw [List.getElem?_append_left hlt] at hj
      exact h'.bytes j c hj
    · rw [List.getElem?_append_right (by omega)] at hj
      have hlen : j - cs.length < bs.length := by
        by_contra hn
        rw [List.getElem?_eq_none (by omega)] at hj
        cases hj
      have hplace : p'' + j = p' + (j - cs.length) := by omega
      have hle : argTop ≤ 131072 := by decide
      rw [hplace, h'.keep _ (by omega) (by omega) (hd.filled _ (by omega) (by omega))]
      exact h.bytes _ c hj
  · intro q hq hlt hp
    rw [h'.keep q (by omega) hlt (by rw [h.page _ hp]; exact hp)]
    exact h.keep q hq hlt hp

/-- No page is to be had for an entry that needs one. -/
def Block.Starved (b : Block) : Prop :=
  getFreePage b.mem = none ∧ ∃ i, i < MAX_ARG_PAGES ∧ b.page i = 0

/-- How a run of pushes that should add `bs` ends. -/
inductive Copied (lo hi : Nat) (s₀ : Mem) (k : Copy) (bs : List UInt8) :
    Except Stop Copy → Prop where
  | done {k' : Copy} (hd : k'.block.DownTo lo hi s₀ k'.p.toNat) (haim : k'.Aimed)
      (hpush : Pushed k.p.toNat k.block bs k'.p.toNat k'.block) : Copied lo hi s₀ k bs (.ok k')
  | nomem {b : Block} (hok : b.Ok lo hi s₀) (hno : b.Starved) :
      Copied lo hi s₀ k bs (.error (.nomem b))
  | wild {b : Block} {i : Nat} (hok : b.Ok lo hi s₀) (hfull : b.Filled 0)
      (hlt : k.p.toNat < bs.length) : Copied lo hi s₀ k bs (.error (.wild i))

theorem Copied.bind {x : Except Stop Copy}
    {f : Copy → Except Stop Copy} (hk : k.p.toNat ≤ argTop) (hx : Copied lo hi s₀ k bs x)
    (hf : ∀ k', k'.block.DownTo lo hi s₀ k'.p.toNat → k'.Aimed → Copied lo hi s₀ k' cs (f k')) :
    Copied lo hi s₀ k (cs ++ bs) (x >>= f) := by
  cases hx with
  | nomem hok hno => exact .nomem hok hno
  | wild hok hfull hlt =>
    refine .wild hok hfull ?_
    rw [List.length_append]
    omega
  | @done k' hd haim hpush =>
    show Copied lo hi s₀ k (cs ++ bs) (f k')
    have hy := hf k' hd haim
    generalize f k' = y at hy ⊢
    cases hy with
    | done hd' haim' hpush' =>
      exact .done hd' haim' (hpush.trans hd hk hpush')
    | nomem hok hno => exact .nomem hok hno
    | wild hok hfull hlt =>
      refine .wild hok hfull ?_
      have := hpush.pos
      rw [List.length_append]
      omega

/-- One step down. -/
theorem toNat_pred (hp : p ≠ 0) : (p - 1).toNat + 1 = p.toNat := by
  have h0 : p.toNat ≠ 0 := by
    intro h
    apply hp
    exact UInt32.toNat_inj.mp h
  rw [UInt32.toNat_sub_of_le]
  · have : (1 : UInt32).toNat = 1 := rfl
    omega
  · rw [UInt32.le_iff_toNat_le]
    have : (1 : UInt32).toNat = 1 := rfl
    omega

/-- The byte goes to the place below `p`, into the page that is there. -/
theorem copied_putChar {c : UInt8} (hp : k.p ≠ 0)
    (htop : k.p.toNat ≤ argTop) (hok : b.Ok lo hi s₀) (hfill : k.block.Filled k.p.toNat)
    (hne : b.page ((k.p - 1).toNat / 4096) ≠ 0)
    (hpage : ∀ j, k.block.page j ≠ 0 → b.page j = k.block.page j)
    (hkeep : ∀ q, q < 131072 → k.block.page (q / 4096) ≠ 0 → b.byteAt q = k.block.byteAt q) :
    Copied lo hi s₀ k [c] (.ok ⟨k.p - 1, ((k.p - 1).toNat % 4096 : Nat),
      b.page ((k.p - 1).toNat / 4096), b.putChar (b.page ((k.p - 1).toNat / 4096))
        ((k.p - 1).toNat % 4096) c⟩) := by
  have hpred := toNat_pred hp
  have hle : argTop ≤ 131072 := by decide
  obtain ⟨hok', hbyte⟩ := hok.putChar (by omega) hne c
  have hle' : (k.p - 1).toNat ≤ argTop := by omega
  refine .done ⟨hok', ?_, hle'⟩ ?_ ⟨?_, ?_, ?_, ?_⟩
  · intro q hq hlt
    show b.page (q / 4096) ≠ 0
    by_cases hqp : q = (k.p - 1).toNat
    · rw [hqp]
      exact hne
    · have := hfill q (by simp only at hq; omega) hlt
      rw [hpage _ this]
      exact this
  · exact .inr ⟨rfl, rfl, hne⟩
  · exact hpred
  · intro i hi'
    exact hpage i hi'
  · intro j d hj
    obtain ⟨rfl, rfl⟩ : j = 0 ∧ c = d := by
      cases j <;> simp at hj
      exact ⟨rfl, hj⟩
    rw [Nat.add_zero, hbyte _ (by omega) hne, if_pos rfl]
  · intro q hq hlt hp'
    rw [hbyte q hlt (by rw [hpage _ hp']; exact hp'), if_neg (by omega)]
    exact hkeep q hlt hp'

/-- One push. -/
theorem Copy.push_copied (hd : k.block.DownTo lo hi s₀ k.p.toNat)
    (haim : k.Aimed) (c : UInt8) : Copied lo hi s₀ k [c] (k.push c) := by
  have hle : argTop < 131072 := by decide
  unfold Copy.push
  by_cases hp : k.p = 0
  · -- the place below 0 is in no page
    have hoff : k.offset = 0 := by
      rcases haim with h | ⟨h, -⟩
      · exact h
      · rw [hp] at h
        simpa using h
    have hpred : (k.p - 1).toNat = 4294967295 := by
      rw [hp]
      decide
    have hfull : k.block.Filled 0 := by
      have := hd.filled
      rwa [hp] at this
    simp only [hoff, hpred]
    rw [if_pos (by decide)]
    unfold Block.pageFor
    rw [if_pos (by decide)]
    refine .wild hd.ok hfull ?_
    rw [hp]
    exact Nat.zero_lt_one
  · have hpred := toNat_pred hp
    have htop := hd.le
    have hi' : (k.p - 1).toNat / 4096 < MAX_ARG_PAGES := by
      unfold MAX_ARG_PAGES
      omega
    dsimp only
    split
    · unfold PAGE_SIZE
      have hpf := hd.ok.pageFor hi'
      generalize k.block.pageFor ((k.p - 1).toNat / 4096) = x at hpf ⊢
      cases hpf with
      | nomem h0 hfree => exact .nomem hd.ok ⟨hfree, _, hi', h0⟩
      | ok hok hpag hne hpage hkeep =>
        subst hpag
        exact copied_putChar hp htop hok hd.filled hne hpage hkeep
    · rename_i hoff
      -- still inside the page of `p`
      obtain ⟨ho, hpag, hne⟩ : k.offset = (k.p.toNat % 4096 : Nat) ∧
          k.pag = k.block.page (k.p.toNat / 4096) ∧ k.pag ≠ 0 := by
        rcases haim with h | h
        · omega
        · exact h
      have hdiv : k.p.toNat / 4096 = (k.p - 1).toNat / 4096 := by omega
      have hmod : k.offset - 1 = ((k.p - 1).toNat % 4096 : Nat) := by omega
      rw [hmod, Int.toNat_natCast, hpag, hdiv]
      rw [hpag, hdiv] at hne
      exact copied_putChar hp htop hd.ok hd.filled hne (fun _ _ => rfl) fun _ _ _ => rfl

-- ======== the loops

/-- A loop over a list from its end adds what its turns add, in the order
of the list. -/
theorem copied_foldlM {α : Type} {f : Copy → α → Except Stop Copy} {g : α → List UInt8}
    (hf : ∀ k a, k.block.DownTo lo hi s₀ k.p.toNat → k.Aimed →
      Copied lo hi s₀ k (g a) (f k a)) (l : List α) :
    ∀ k, k.block.DownTo lo hi s₀ k.p.toNat → k.Aimed →
      Copied lo hi s₀ k (l.flatMap g) (l.reverse.foldlM f k) := by
  induction l with
  | nil =>
    intro k hd haim
    exact .done hd haim (Pushed.refl _ _)
  | cons a l ih =>
    intro k hd haim
    rw [List.reverse_cons, List.foldlM_append, List.flatMap_cons]
    refine (ih k hd haim).bind hd.le ?_
    intro k' hd' haim'
    simp only [List.foldlM_cons, List.foldlM_nil, bind_pure]
    exact hf k' a hd' haim'

theorem Copy.string_copied (hd : k.block.DownTo lo hi s₀ k.p.toNat)
    (haim : k.Aimed) (s : Str) : Copied lo hi s₀ k s.bytes (k.string s) := by
  unfold Copy.string
  -- an unsigned difference is not below 0
  rw [if_neg (UInt32.not_lt_zero)]
  have := copied_foldlM (fun k c hd haim => Copy.push_copied hd haim c) s.bytes k hd haim
  rwa [List.flatMap_singleton'] at this

/-- The bytes that a list of strings takes. -/
def flat (l : List Str) : List UInt8 := l.flatMap Str.bytes

/-- How one call of `copy_strings` ends. -/
inductive CallDone (lo hi : Nat) (s₀ : Mem) (bs : List UInt8) (p : UInt32)
    (b : Block) : Except Halt (UInt32 × Block) → Prop where
  | done {p' : UInt32} {b' : Block} (hne : p ≠ 0) (hd : b'.DownTo lo hi s₀ p'.toNat)
      (hpush : Pushed p.toNat b bs p'.toNat b') : CallDone lo hi s₀ bs p b (.ok (p', b'))
  | empty (h0 : p = 0) : CallDone lo hi s₀ bs p b (.ok (0, b))
  | nomem {b' : Block} (hok : b'.Ok lo hi s₀) (hno : b'.Starved) :
      CallDone lo hi s₀ bs p b (.ok (0, b'))
  | wild {b' : Block} {i : Nat} (hne : p ≠ 0) (hok : b'.Ok lo hi s₀)
      (hfull : b'.Filled 0) (hlt : p.toNat < bs.length) :
      CallDone lo hi s₀ bs p b (.error (.wild i))

theorem copyStrings_done (argv : List Str) (hd : b.DownTo lo hi s₀ p.toNat) :
    CallDone lo hi s₀ (flat argv) p b (copyStrings argv p b) := by
  unfold copyStrings
  split
  · exact .empty (by assumption)
  · rename_i hne
    have hx := copied_foldlM
      (fun k s hd haim => Copy.string_copied hd haim s) argv ⟨p, 0, 0, b⟩ hd (.inl rfl)
    generalize argv.reverse.foldlM Copy.string ⟨p, 0, 0, b⟩ = x at hx ⊢
    cases hx with
    | done hd' _ hpush => exact .done hne hd' hpush
    | nomem hok hno => exact .nomem hok hno
    | wild hok hfull hlt => exact .wild hne hok hfull hlt

-- ======== all the calls

/-- A call finds less room than its strings take. That there is none left
at all is noticed. -/
def Overruns : List (List Str) → Nat → Prop
  | [], _ => False
  | c :: cs, p => p ≠ 0 ∧ (p < (flat c).length ∨ Overruns cs (p - (flat c).length))

instance decidableOverruns : ∀ (cs : List (List Str)) (p : Nat), Decidable (Overruns cs p)
  | [], _ => inferInstanceAs (Decidable False)
  | c :: cs, p =>
    have := decidableOverruns cs (p - (flat c).length)
    inferInstanceAs (Decidable (_ ∧ _))

/-- The strings of all the calls as they lie in the area: a later call's
are below. -/
def laid : List (List Str) → List Str
  | [] => []
  | c :: cs => laid cs ++ c

/-- How the calls end together. -/
inductive CallsDone (lo hi : Nat) (s₀ : Mem) (cs : List (List Str))
    (p : UInt32) (b : Block) : Except Halt (UInt32 × Block) → Prop where
  | done {p' : UInt32} {b' : Block} (hne : p' ≠ 0) (hd : b'.DownTo lo hi s₀ p'.toNat)
      (hpush : Pushed p.toNat b (flat (laid cs)) p'.toNat b') :
      CallsDone lo hi s₀ cs p b (.ok (p', b'))
  | refused {b' : Block} (hok : b'.Ok lo hi s₀) (hwhy : b'.Starved ∨
        p.toNat ≤ (flat (laid cs)).length ∧ ¬ Overruns cs p.toNat) :
      CallsDone lo hi s₀ cs p b (.ok (0, b'))
  | wild {b' : Block} {i : Nat} (hok : b'.Ok lo hi s₀)
      (hfull : b'.Filled 0) (hover : Overruns cs p.toNat) :
      CallsDone lo hi s₀ cs p b (.error (.wild i))

theorem flat_append (l l' : List Str) : flat (l ++ l') = flat l ++ flat l' :=
  List.flatMap_append

theorem toNat_ne_zero (hp : p ≠ 0) : p.toNat ≠ 0 :=
  fun h => hp (UInt32.toNat_inj.mp h)

/-- With `p` 0 nothing more happens. -/
theorem copyAll_zero (cs : List (List Str)) : copyAll cs 0 b = .ok (0, b) := by
  induction cs with
  | nil => rfl
  | cons c cs ih => exact ih

theorem copyAll_done (cs : List (List Str)) :
    ∀ (p : UInt32) (b : Block), b.DownTo lo hi s₀ p.toNat →
      CallsDone lo hi s₀ cs p b (copyAll cs p b) := by
  induction cs with
  | nil =>
    intro p b hd
    by_cases hp : p = 0
    · subst hp
      exact .refused hd.ok (.inr ⟨Nat.zero_le _, fun h => h⟩)
    · exact .done hp hd (Pushed.refl _ _)
  | cons c cs ih =>
    intro p b hd
    have hc := copyStrings_done c hd
    unfold copyAll
    generalize copyStrings c p b = x at hc ⊢
    cases hc with
    | empty h0 =>
      subst h0
      show CallsDone lo hi s₀ (c :: cs) 0 b (copyAll cs 0 b)
      rw [copyAll_zero]
      exact .refused hd.ok (.inr ⟨Nat.zero_le _, fun h => h.1 rfl⟩)
    | @nomem b' hok hno =>
      show CallsDone lo hi s₀ (c :: cs) p b (copyAll cs 0 b')
      rw [copyAll_zero]
      exact .refused hok (.inl hno)
    | wild hne hok hfull hlt =>
      exact .wild hok hfull ⟨toNat_ne_zero hne, .inl hlt⟩
    | @done p' b' hne hd' hpush =>
      show CallsDone lo hi s₀ (c :: cs) p b (copyAll cs p' b')
      have hpos := hpush.pos
      have hsub : p.toNat - (flat c).length = p'.toNat := by omega
      have hrest := ih p' b' hd'
      generalize copyAll cs p' b' = y at hrest ⊢
      cases hrest with
      | done hne' hd'' hpush' =>
        refine .done hne' hd'' ?_
        rw [laid, flat_append]
        exact hpush.trans hd' hd.le hpush'
      | refused hok hwhy =>
        refine .refused hok (hwhy.imp id ?_)
        intro ⟨hle, hno⟩
        refine ⟨?_, ?_⟩
        · rw [laid, flat_append, List.length_append]
          omega
        · rintro ⟨-, hlt | hov⟩
          · omega
          · rw [hsub] at hov
            exact hno hov
      | wild hok hfull hover =>
        refine .wild hok hfull ⟨toNat_ne_zero hne, .inr ?_⟩
        rw [hsub]
        exact hover

/-- Strings that fit do not overrun. -/
theorem not_overruns {cs : List (List Str)} :
    ∀ {p : Nat}, (flat (laid cs)).length ≤ p → ¬ Overruns cs p := by
  induction cs with
  | nil =>
    intro p _ h
    exact h
  | cons c cs ih =>
    intro p hlt hov
    rw [laid, flat_append, List.length_append] at hlt
    rcases hov.2 with h | h
    · omega
    · exact ih (by omega) h

-- ======== how many are free

/-- The pages that `get_free_page` can still give. -/
def freeCount (m : Mem) : Nat :=
  ((Finset.range pagingPages).filter fun k => m.memMap k = 0).card

theorem scanFree_none {m : Nat → Nat} {n : Nat} (h : scanFree m n = none) :
    ∀ k, k < n → m k ≠ 0 := by
  induction n with
  | zero =>
    intro k hk
    omega
  | succ n ih =>
    simp only [scanFree] at h
    split at h
    · cases h
    · rename_i h0
      intro k hk
      rcases Nat.lt_succ_iff_lt_or_eq.mp hk with hk | rfl
      · exact ih h k hk
      · exact h0

theorem freeCount_of_none {m : Mem} (h : getFreePage m = none) : freeCount m = 0 := by
  unfold getFreePage at h
  split at h
  · rename_i hscan
    unfold freeCount
    rw [Finset.card_eq_zero, Finset.filter_eq_empty_iff]
    intro k hk
    exact scanFree_none hscan k (Finset.mem_range.mp hk)
  · cases h

/-- The free pages are those that were free without those that are
held. -/
theorem Block.Ok.freeCount_add (h : b.Ok lo hi s₀) :
    freeCount b.mem + (heldFrames b.page).card = freeCount s₀ := by
  have hge : ∀ f ∈ heldFrames b.page, 256 ≤ f ∧ f < 4096 := by
    intro f hf
    have hm := (h.paging.held f hf).1
    have h1 := h.paging.main_ge hm
    have h2 := h.paging.bounds.2
    exact ⟨h1, by have := hm.2; omega⟩
  have hcard : ((heldFrames b.page).image fun f => f - 256).card = (heldFrames b.page).card := by
    apply Finset.card_image_of_injOn
    intro f hf g hg he
    have h1 := hge f hf
    have h2 := hge g hg
    simp only at he
    omega
  have hpaging : ∀ f ∈ heldFrames b.page, f - 256 < pagingPages := by
    intro f hf
    have := hge f hf
    unfold pagingPages
    omega
  unfold freeCount
  generalize pagingPages = n at hpaging ⊢
  rw [← hcard, ← Finset.card_union_of_disjoint]
  · congr 1
    ext k
    simp only [Finset.mem_union, Finset.mem_filter, Finset.mem_range, Finset.mem_image]
    rw [h.map k]
    constructor
    · rintro (⟨hk, h0⟩ | ⟨f, hf, rfl⟩)
      · split at h0
        · omega
        · exact ⟨hk, h0⟩
      · exact ⟨hpaging f hf, h.was f hf⟩
    · intro ⟨hk, h0⟩
      by_cases hheld : k + 256 ∈ heldFrames b.page
      · exact .inr ⟨k + 256, hheld, by omega⟩
      · exact .inl ⟨hk, by rw [if_neg hheld]; exact h0⟩
  · rw [Finset.disjoint_left]
    intro k hk himg
    obtain ⟨f, hf, rfl⟩ := Finset.mem_image.mp himg
    have h1 := hge f hf
    have h2 := (Finset.mem_filter.mp hk).2
    have hheld : f - 256 + 256 ∈ heldFrames b.page := by
      rw [Nat.sub_add_cancel h1.1]
      exact hf
    rw [h.map, if_pos hheld] at h2
    exact absurd h2 Nat.one_ne_zero

theorem Block.Ok.card_held (h : b.Ok lo hi s₀) : (heldFrames b.page).card =
      ((Finset.range MAX_ARG_PAGES).filter fun i => b.page i ≠ 0).card := by
  apply Finset.card_image_of_injOn
  intro i hi' j hj he
  have h1 := Finset.mem_filter.mp hi'
  have h2 := Finset.mem_filter.mp hj
  have hi'' := Finset.mem_range.mp h1.1
  have hj'' := Finset.mem_range.mp h2.1
  have ha := h.addr i hi''
  have ha' := h.addr j hj''
  simp only at he
  exact h.inj i j hi'' hj'' h1.2 (by omega)

/-- A block that cannot get a page had fewer than 32. -/
theorem Block.Starved.lt (h : b.Ok lo hi s₀) (hno : b.Starved) : freeCount s₀ < MAX_ARG_PAGES := by
  obtain ⟨hg, i, hi', h0⟩ := hno
  have hadd := h.freeCount_add
  rw [freeCount_of_none hg, h.card_held] at hadd
  have hlt : ((Finset.range MAX_ARG_PAGES).filter
      fun i => b.page i ≠ 0).card < (Finset.range MAX_ARG_PAGES).card := by
    apply Finset.card_lt_card
    rw [Finset.ssubset_iff_of_subset (Finset.filter_subset _ _)]
    exact ⟨i, Finset.mem_range.mpr hi', fun hm => (Finset.mem_filter.mp hm).2 h0⟩
  rw [Finset.card_range] at hlt
  omega

/-- A full block has taken 32. -/
theorem Block.Filled.le (h : b.Ok lo hi s₀)
    (hfull : b.Filled 0) : MAX_ARG_PAGES ≤ freeCount s₀ := by
  have hadd := h.freeCount_add
  have hall : (Finset.range MAX_ARG_PAGES).filter (fun i => b.page i ≠ 0) =
      Finset.range MAX_ARG_PAGES := by
    apply Finset.filter_true_of_mem
    intro i hi'
    have hlt := Finset.mem_range.mp hi'
    unfold MAX_ARG_PAGES at hlt
    have := hfull (i * 4096) (Nat.zero_le _) (by
      unfold argTop PAGE_SIZE MAX_ARG_PAGES
      omega)
    rwa [Nat.mul_div_cancel _ (by omega)] at this
  rw [h.card_held, hall, Finset.card_range] at hadd
  omega

end LearnLinux.Exec
