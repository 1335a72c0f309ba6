/-
The buffer lists stay whole, and `getblk` takes only free heads.

Every stretch of a task (from a call or a sleep to the next sleep or the
return) is described by `Ran`: the lists are whole at its end, the counts
have changed by the references the task took and dropped, and at most one
head was given another block, one with count 0, unlocked and clean. What
the run keeps is then read off: integrity with no further condition, and
with fair callers that `b_count` is the number of references.
-/
import LearnLinux.Fs.Buffer

namespace LearnLinux.Buffer

open Function (update update_self update_of_ne update_eq_self)
open LearnLinux.Lib

variable {n : Nat} {c c' : Cache n} {dev : UInt16} {block : UInt32}
variable {bh f b : Fin n} {k : Caller} {p q : Option (Fin n)} {l : List (Fin n)} {fuel : Nat}
variable {now : Now n} {own : Fin n → Nat} {r : Cache n × Now n}

-- ======== the stores

/-- A store of the value that is read afterwards. -/
theorem setAt_self {α β : Type*} [DecidableEq α] (x : Option α)
    (f : α → β) (a : α) : setAt x (f a) f a = f a := by
  by_cases hx : x = some a
  · subst hx
    exact update_self ..
  · exact setAt_of_ne hx

/-- `remove_from_queues` where the free list is whole. -/
theorem removeFromQueues_ok {p q : Fin n} (hp : c.prevFree bh = some p)
    (hq : c.nextFree bh = some q) (hf : c.freeList = some f) :
    ∃ c', removeFromQueues c bh = .ok c' ∧ c'.head = c.head ∧ c'.taken = c.taken ∧
      c'.prev = setAt (c.next bh) (c.prev bh) c.prev ∧
      c'.next = setAt (c.prev bh) (c.next bh) c.next ∧
      c'.hashTable = (if c.hashTable (c.bucket bh) = some bh then
        update c.hashTable (c.bucket bh) (c.next bh)
        else c.hashTable) ∧
      c'.nextFree = setAt (c.prevFree bh) (c.nextFree bh) c.nextFree ∧
      c'.prevFree = setAt (c.nextFree bh) (c.prevFree bh) c.prevFree ∧
      c'.freeList = (if f = bh then c.nextFree bh else some f) := by
  have hnot : ¬ (c.prevFree bh = none ∨ c.nextFree bh = none) := by
    rw [hp, hq]
    simp
  simp only [removeFromQueues, setAt_self, Cache.bucket] at hnot ⊢
  by_cases hh : c.hashTable (hashfn (c.head bh).dev (c.head bh).blocknr) = some bh <;>
  by_cases hfb : f = bh <;>
  simp [hh, hfb, hf, hnot]

/-- `insert_into_queues` on the free list. -/
theorem insertIntoQueues_free {g : Fin n} (hg : c.freeList = some g) :
    (insertIntoQueues c bh).nextFree = setAt
        (update c.prevFree bh (c.prevFree g) g) (some bh)
        (update c.nextFree bh (some g)) ∧
      (insertIntoQueues c bh).prevFree = setAt (some g) (some bh)
        (update c.prevFree bh (c.prevFree g)) ∧
      (insertIntoQueues c bh).freeList = some g := by
  by_cases hd : (c.head bh).dev = 0 <;>
  simp [insertIntoQueues, hd, hg]

theorem insertIntoQueues_head : (insertIntoQueues c bh).head = c.head ∧
      (insertIntoQueues c bh).taken = c.taken := by
  by_cases hd : (c.head bh).dev = 0 <;>
  simp [insertIntoQueues, hd]

/-- `insert_into_queues` on the hash queues: the head is taken for loose,
and put into its bucket if it has a device. -/
theorem insertIntoQueues_table {key : Fin n → Option Nat}
    (ht : Table (update c.next bh none) (update c.prev bh none) c.hashTable key)
    (hkey : key bh = none) : Table (insertIntoQueues c bh).next (insertIntoQueues c bh).prev
      (insertIntoQueues c bh).hashTable (update key bh (c.key bh)) := by
  unfold Cache.key
  by_cases hd : (c.head bh).dev = 0
  · rw [if_pos hd, ← hkey, update_eq_self]
    simpa [insertIntoQueues, hd] using ht
  · rw [if_neg hd]
    have hpush := ht.push (c.bucket bh) hkey
    simpa [insertIntoQueues, hd, Cache.bucket] using hpush

/-- Only the lists and the blocks of the heads matter to integrity. -/
theorem Integrity.of_same (hi : Integrity c) (hhead : ∀ b, (c'.head b).dev = (c.head b).dev ∧
      (c'.head b).blocknr = (c.head b).blocknr)
    (hnext : c'.next = c.next) (hprev : c'.prev = c.prev)
    (hnf : c'.nextFree = c.nextFree) (hpf : c'.prevFree = c.prevFree)
    (hht : c'.hashTable = c.hashTable) (hfl : c'.freeList = c.freeList) : Integrity c' := by
  refine ⟨?_, ?_, fun a b hd hab hbb => ?_⟩
  · rw [hnf, hpf, hfl]
    exact hi.free
  · rw [hnext, hprev, hht]
    have hkey : c'.key = c.key := by
      funext b
      unfold Cache.key Cache.bucket
      rw [(hhead b).1, (hhead b).2]
    rw [hkey]
    exact hi.hash
  · rw [(hhead a).1] at hd hab
    rw [(hhead b).1] at hab
    rw [(hhead a).2, (hhead b).2] at hbb
    exact hi.unique a b hd hab hbb

@[simp] theorem setHead_self (f : Head → Head) : (c.setHead bh f).head bh = f (c.head bh) :=
  update_self ..

theorem setHead_ne (f : Head → Head) (h : b ≠ bh) : (c.setHead bh f).head b = c.head b :=
  update_of_ne h ..

/-- A change of a head that leaves it its block. -/
theorem setHead_block (c : Cache n) (bh : Fin n) {f : Head → Head}
    (hf : ∀ h, (f h).dev = h.dev ∧ (f h).blocknr = h.blocknr) (b : Fin n) :
    ((c.setHead bh f).head b).dev = (c.head b).dev ∧
      ((c.setHead bh f).head b).blocknr = (c.head b).blocknr := by
  by_cases hb : b = bh
  · subst hb
    rw [setHead_self]
    exact hf _
  · rw [setHead_ne f hb]
    exact ⟨rfl, rfl⟩

theorem Integrity.setHead (hi : Integrity c) {f : Head → Head}
    (hf : ∀ h, (f h).dev = h.dev ∧ (f h).blocknr = h.blocknr) : Integrity (c.setHead bh f) :=
  hi.of_same (setHead_block _ _ hf) rfl rfl rfl rfl rfl rfl

/-- The first head of the free list. -/
theorem Integrity.first (hi : Integrity c) (bh : Fin n) :
    ∃ f p q, c.freeList = some f ∧ c.prevFree bh = some p ∧ c.nextFree bh = some q := by
  obtain ⟨l, -, -, hall, hr⟩ := hi.free
  obtain ⟨xs, ys, rfl⟩ := List.append_of_mem (hall bh)
  obtain ⟨m, -, hp, hs⟩ := hr.rotate
  have hf : ∃ f, c.freeList = some f := by
    cases xs with
    | nil => exact ⟨bh, hr.first⟩
    | cons a xs => exact ⟨a, hr.first⟩
  obtain ⟨f, hf⟩ := hf
  obtain ⟨q, hq⟩ := hs.head_some
  have hm : ∃ p, m = some p := by
    rw [hs.last_eq]
    cases (ys.append xs).getLast? with
    | none => exact ⟨bh, rfl⟩
    | some a => exact ⟨a, rfl⟩
  obtain ⟨p, hm⟩ := hm
  exact ⟨f, p, q, hf, hp.trans hm, hq⟩

/-- What `getblk` makes of the head it takes. -/
def Head.fresh (h : Head) (dev : UInt16) (block : UInt32) : Head :=
  ⟨dev, block, 1, h.lock, false, false⟩

/-- The head off the hash queues and the free list: nothing is NULL there,
and `insert_into_queues` makes the free list one ring again. -/
theorem detached_ok (hi : Integrity c) : ∃ c' g, detached c dev block bh = .ok c' ∧
      recycle c dev block bh = .ok (insertIntoQueues c' bh) ∧
      c'.head = update c.head bh ((c.head bh).fresh dev block) ∧
      c'.taken = (bh, c.head bh) :: c.taken ∧ c'.freeList = some g ∧ (∀ b, c'.prevFree b ≠ none) ∧
      Table (update c'.next bh none) (update c'.prev bh none) c'.hashTable (update c.key bh none) ∧
      ∃ l : List (Fin n), l ≠ [] ∧ l.Nodup ∧ (∀ b, b ∈ l) ∧ Ring (insertIntoQueues c' bh).nextFree
        (insertIntoQueues c' bh).prevFree (insertIntoQueues c' bh).freeList l := by
  obtain ⟨f, p, q, hf, hp, hq⟩ := hi.first bh
  obtain ⟨l, -, hnd, hall, hr⟩ := hi.free
  rw [hf] at hr
  obtain ⟨g, l', hg, hperm, hring⟩ := hr.requeue hnd (hall bh)
  have hdrop := hi.hash.drop (by
    by_cases hd : (c.head bh).dev = 0
    · exact .inr (if_pos hd)
    · exact .inl (if_neg hd))
  have hbucket : (c.claim bh).bucket bh = c.bucket bh := by
    simp [Cache.claim, Cache.bucket]
  obtain ⟨c2, hrem, hhead, htaken, hprev, hnext, htable, hnf, hpf, hfl⟩ :=
    removeFromQueues_ok (c := c.claim bh) hp hq hf
  rw [hbucket] at htable
  obtain ⟨c3, hc3⟩ : ∃ c3, c3 = c2.setHead bh fun h =>
    { h with dev := dev, blocknr := block } := ⟨_, rfl⟩
  have hfl3 : c3.freeList = some g := by
    rw [hc3]
    exact hfl.trans hg
  obtain ⟨hnf', hpf', hfl'⟩ := insertIntoQueues_free hfl3
  have hne : l' ≠ [] := by
    rintro rfl
    exact absurd (hperm.mem_iff.mpr (hall bh)) List.not_mem_nil
  refine ⟨c3, g, ?_, ?_, ?_, ?_, hfl3, fun b => ?_, ?_, l', hne, hperm.nodup_iff.mpr hnd,
    fun b => hperm.mem_iff.mpr (hall b), ?_⟩
  · rw [detached, hrem, hc3]
    rfl
  · rw [recycle, hrem, hc3]
    rfl
  · rw [hc3, Cache.setHead, hhead]
    simp [Cache.claim, Cache.setHead, Head.fresh]
  · rw [hc3]
    exact htaken
  · obtain ⟨-, p', -, -, hp', -⟩ := hi.first b
    rw [hc3]
    show c2.prevFree b ≠ none
    rw [hpf]
    show setAt (c.nextFree bh) (c.prevFree bh) c.prevFree b ≠ none
    by_cases hb : c.nextFree bh = some b
    · simp [hb, setAt, hp]
    · simp [setAt_of_ne hb, hp']
  · rw [hc3]
    show Table (update c2.next bh none) (update c2.prev bh none) c2.hashTable _
    rw [hnext, hprev, htable]
    exact hdrop
  · rw [hnf', hpf', hfl', hc3]
    show Ring (setAt (update c2.prevFree bh (c2.prevFree g) g)
      (some bh) (update c2.nextFree bh (some g))) (setAt (some g) (some bh)
        (update c2.prevFree bh (c2.prevFree g))) (some g) l'
    rw [hnf, hpf]
    exact hring

/-- The table after `insert_into_queues`. -/
theorem detached_table (hhead : c'.head = update c.head bh h)
    (ht : Table (update c'.next bh none) (update c'.prev bh none) c'.hashTable
      (update c.key bh none)) : Table (insertIntoQueues c' bh).next (insertIntoQueues c' bh).prev
      (insertIntoQueues c' bh).hashTable (insertIntoQueues c' bh).key := by
  have hkey : (insertIntoQueues c' bh).key = update (update c.key bh none) bh (c'.key bh) := by
    funext b
    unfold Cache.key Cache.bucket
    rw [insertIntoQueues_head.1]
    by_cases hb : b = bh
    · subst hb
      rw [update_self]
    · rw [hhead, update_of_ne hb, update_of_ne hb, update_of_ne hb]
  rw [hkey]
  exact insertIntoQueues_table ht (update_self ..)

/-- A head may be given a block that no head has: the lists are whole
again, with the head last on the free list and first in its bucket. -/
theorem recycle_ok (hi : Integrity c) (hnew : dev ≠ 0 → ∀ b, (c.head b).dev = dev →
      (c.head b).blocknr ≠ block) : ∃ c', recycle c dev block bh = .ok c' ∧ Integrity c' ∧
      c'.head = update c.head bh ((c.head bh).fresh dev block) ∧
      c'.taken = (bh, c.head bh) :: c.taken := by
  obtain ⟨c3, -, -, hrec, hhead3, htaken, -, -, htable, hring⟩ := detached_ok hi
  obtain ⟨hhead', htaken'⟩ := insertIntoQueues_head
  refine ⟨_, hrec, ⟨hring, detached_table hhead3 htable, ?_⟩, hhead'.trans hhead3,
    htaken'.trans htaken⟩
  -- the new block was nobody's, and the others keep theirs
  intro a b hd hab hbb
  rw [hhead', hhead3] at hd hab hbb
  by_cases ha : a = bh
  · by_cases hb : b = bh
    · exact ha.trans hb.symm
    · subst ha
      rw [update_self] at hd hab hbb
      rw [update_of_ne hb] at hab hbb
      exact absurd hbb.symm (hnew hd b hab.symm)
  · rw [update_of_ne ha] at hd hab hbb
    by_cases hb : b = bh
    · subst hb
      rw [update_self] at hab hbb
      have hdev : dev ≠ 0 := by
        intro h0
        exact hd (hab.trans h0)
      exact absurd hbb (hnew hdev a hab)
    · rw [update_of_ne hb] at hab hbb
      exact hi.unique a b hd hab hbb

-- ======== the walks

/-- The walk of `find_buffer` along a chain. -/
theorem findFrom_eq (dev : UInt16) (block : UInt32) {h : Option (Fin n)}
    (hs : Seg c.next c.prev p h l q none) (hlen : l.length ≤ fuel) :
    findFrom c dev block fuel h = .ok (l.find? fun b =>
      (c.head b).dev = dev ∧ (c.head b).blocknr = block) := by
  induction l generalizing p h fuel with
  | nil =>
    obtain rfl := hs.2
    cases fuel <;> rfl
  | cons a l ih =>
    obtain ⟨rfl, -, hs⟩ := hs
    cases fuel with
    | zero => exact absurd hlen (Nat.not_succ_le_zero _)
    | succ fuel =>
      rw [findFrom, List.find?_cons]
      by_cases hm : (c.head a).dev = dev ∧ (c.head a).blocknr = block
      · simp [hm]
      · simpa [hm] using ih hs (Nat.le_of_succ_le_succ hlen)

/-- `find_buffer` finds the head of a block, if there is one. -/
theorem findBuffer_spec (hi : Integrity c) : (findBuffer c dev block = .ok none ∧ (dev ≠ 0 → ∀ b,
      (c.head b).dev = dev → (c.head b).blocknr ≠ block)) ∨
    ∃ b, findBuffer c dev block = .ok (some b) ∧
      (c.head b).dev = dev ∧ (c.head b).blocknr = block := by
  obtain ⟨l, hnd, ⟨q, hs⟩, hmem⟩ := hi.hash.chains (hashfn dev block)
  have hlen : l.length ≤ n := by
    simpa using hnd.length_le_card
  have hfind := findFrom_eq dev block hs hlen
  cases hl : l.find? fun b =>
    (c.head b).dev = dev ∧ (c.head b).blocknr = block with
  | none =>
    rw [hl] at hfind
    refine .inl ⟨hfind, fun hd b hb hbb => ?_⟩
    have hbl : b ∈ l := by
      rw [hmem]
      unfold Cache.key Cache.bucket
      rw [hb, hbb, if_neg hd]
    have := List.find?_eq_none.mp hl b hbl
    simp [hb, hbb] at this
  | some b =>
    rw [hl] at hfind
    exact .inr ⟨b, hfind, by simpa using List.find?_some hl⟩

/-- The best head so far is free. -/
theorem better_free {P : Prop} [Decidable P] {a b : Fin n} {best : Option (Fin n)}
    (hbest : ∀ b ∈ best, (c.head b).count = 0)
    (hb : b ∈ if (c.head a).count = 0 ∧ P then some a else best) : (c.head b).count = 0 := by
  split at hb
  · rename_i hbetter
    cases hb
    exact hbetter.1
  · exact hbest b hb

/-- The scan of the free list ends, with a head of count 0 if any. -/
theorem scanFrom_ok {a : Fin n} {best : Option (Fin n)}
    (hs : Seg c.nextFree c.prevFree p (some a) (a :: l) q (some f))
    (hf : c.freeList = some f) (hfl : f ∉ l) (hlen : l.length < fuel)
    (hbest : ∀ b ∈ best, (c.head b).count = 0) : ∃ r, scanFrom c fuel a best = .ok r ∧
      ∀ b ∈ r, (c.head b).count = 0 := by
  induction l generalizing p a fuel best with
  | nil =>
    obtain ⟨k, rfl⟩ := Nat.exists_eq_succ_of_ne_zero (Nat.ne_of_gt hlen)
    obtain ⟨-, -, -, hn⟩ := hs
    simp only [scanFrom, hn, hf]
    split
    · exact ⟨_, rfl, fun b => better_free hbest⟩
    · exact ⟨_, rfl, fun b => better_free hbest⟩
  | cons a' l ih =>
    obtain ⟨k, rfl⟩ := Nat.exists_eq_succ_of_ne_zero
      (Nat.ne_of_gt (Nat.lt_of_le_of_lt (Nat.zero_le _) hlen))
    obtain ⟨-, -, hs⟩ := hs
    have hn := hs.1
    have hne : f ≠ a' := fun hfa =>
      hfl (hfa ▸ List.mem_cons_self ..)
    rw [hn] at hs
    simp only [scanFrom, hn, hf, Option.some.injEq, if_neg hne]
    split
    · exact ⟨_, rfl, fun b => better_free hbest⟩
    · exact ih hs (fun hfl' => hfl (List.mem_cons_of_mem _ hfl'))
        (Nat.lt_of_succ_lt_succ hlen) fun b => better_free hbest

theorem scan_ok (hi : Integrity c) : ∃ r, scan c = .ok r ∧ ∀ b ∈ r, (c.head b).count = 0 := by
  obtain ⟨l, hne, hnd, hall, hr⟩ := hi.free
  cases l with
  | nil => exact absurd rfl hne
  | cons f l =>
    have hf := hr.first
    obtain ⟨q, hs⟩ := hr
    rw [hf] at hs
    unfold scan
    rw [hf]
    refine scanFrom_ok hs hf (List.nodup_cons.mp hnd).1 ?_ nofun
    have := hnd.length_le_card
    simp at this
    omega

-- ======== the stretches

/-- The references a task has at the end of a stretch, through its place or
through what it got. -/
def Now.refs (bh : Fin n) : Now n → Nat
  | .asleep a => a.refs bh
  | .returned b => if b = some bh then 1 else 0

/-- What a stretch of a task does that started from `c` with the
references `own`. -/
structure Ran (c : Cache n) (own : Fin n → Nat) (r : Cache n × Now n) : Prop where
  integrity : Integrity r.1
  count : ∀ b, (r.1.head b).count + UInt8.ofNat (own b)
    = (c.head b).count + UInt8.ofNat (r.2.refs b)
  /-- It gives at most one head another block, a free one. -/
  taken : (r.1.taken = c.taken ∧ ∀ b, (r.1.head b).dev = (c.head b).dev ∧
      (r.1.head b).blocknr = (c.head b).blocknr) ∨
    ∃ bh h, r.1.taken = (bh, h) :: c.taken ∧ h.count = 0 ∧ h.lock = false ∧ h.dirt = false ∧
      h.dev = (c.head bh).dev ∧ h.blocknr = (c.head bh).blocknr ∧
      (c.head bh).count = UInt8.ofNat (own bh) ∧ ∀ b, b ≠ bh → (r.1.head b).dev = (c.head b).dev ∧
        (r.1.head b).blocknr = (c.head b).blocknr

/-- How a stretch may end: as `Ran` says, or in the panic of `brelse`. -/
def Ends (c : Cache n) (own : Fin n → Nat) : Except Panic (Cache n × Now n) → Prop
  | .ok r => Ran c own r
  | .error e => e = .freeFree

/-- The reference to one head. -/
def single (bh b : Fin n) : Nat := if bh = b then 1 else 0

/-- A stretch that does nothing. -/
theorem ran_same (hi : Integrity c) (hown : ∀ b, now.refs b = own b) : Ran c own (c, now) :=
  ⟨hi, fun b => by rw [hown b], .inl ⟨rfl, fun b => ⟨rfl, rfl⟩⟩⟩

/-- A stretch that only changes one head, and leaves it its block. -/
theorem ran_setHead (hi : Integrity c) {f : Head → Head}
    (hf : ∀ h, (f h).dev = h.dev ∧ (f h).blocknr = h.blocknr)
    (hcount : ∀ b, ((c.setHead bh f).head b).count + UInt8.ofNat (own b)
      = (c.head b).count + UInt8.ofNat (now.refs b)) : Ran c own (c.setHead bh f, now) :=
  ⟨hi.setHead hf, hcount, .inl ⟨rfl, setHead_block _ _ hf⟩⟩

/-- A head is found and its count raised. -/
theorem ran_inc (hi : Integrity c) (hnow : ∀ b, now.refs b = single bh b) :
    Ran c (fun _ => 0) (c.inc bh, now) := by
  refine ran_setHead hi (fun h => ⟨rfl, rfl⟩) fun b => ?_
  rw [hnow]
  by_cases hb : b = bh
  · subst hb
    simp [single]
  · rw [setHead_ne _ hb]
    simp [single, Ne.symm hb]

/-- A head with a reference of the task is released. -/
theorem ran_dec (hi : Integrity c) : Ran c (single bh) (c.dec bh, .returned none) := by
  refine ran_setHead hi (fun h => ⟨rfl, rfl⟩) fun b => ?_
  by_cases hb : b = bh
  · subst hb
    simp [single, Now.refs]
  · rw [setHead_ne _ hb]
    simp [single, Now.refs, Ne.symm hb]

/-- A stretch that starts by dropping the task's reference. -/
theorem Ran.of_dec (hr : Ran (c.dec bh) (fun _ => 0) r) : Ran c (single bh) r := by
  have hhead : ∀ b, ((c.dec bh).head b).dev = (c.head b).dev ∧
      ((c.dec bh).head b).blocknr = (c.head b).blocknr ∧
      ((c.dec bh).head b).count + UInt8.ofNat (single bh b) = (c.head b).count := by
    intro b
    by_cases hb : b = bh
    · subst hb
      simp [Cache.dec, single]
    · rw [Cache.dec, setHead_ne _ hb]
      simp [single, Ne.symm hb]
  refine ⟨hr.integrity, fun b => ?_, ?_⟩
  · have h1 : (r.1.head b).count + 0 = _ := hr.count b
    grind
  · rcases hr.taken with ⟨ht, hsame⟩ | ⟨b, h, ht, h0, hl, hd, hdev, hblk, hc, hother⟩
    · refine .inl ⟨ht, fun b => ?_⟩
      rw [← (hhead b).1, ← (hhead b).2.1]
      exact hsame b
    · refine .inr ⟨b, h, ht, h0, hl, hd, hdev.trans (hhead b).1,
        hblk.trans (hhead b).2.1, ?_, fun b' hb' => ?_⟩
      · rw [← (hhead b).2.2, hc]
        simp
      · rw [← (hhead b').1, ← (hhead b').2.1]
        exact hother b' hb'

theorem Ends.of_dec {r : Except Panic (Cache n × Now n)}
    (hr : Ends (c.dec bh) (fun _ => 0) r) : Ends c (single bh) r := by
  cases r with
  | ok r => exact Ran.of_dec hr
  | error e => exact hr

/-- Whoever wanted the head, its reference is the one just taken. -/
theorem Ran.finish (hr : Ran c own (c', .returned (some bh))) (k : Caller) :
    Ran c own (finish k bh c') := by
  unfold Buffer.finish
  split
  · have hi' : Integrity c' := hr.integrity
    refine ⟨?_, fun b => ?_, ?_⟩
    · exact Integrity.setHead (f := fun h =>
        { h with lock := true, dirt := false }) hi' fun h => ⟨rfl, rfl⟩
    · have hcount := hr.count b
      by_cases hb : b = bh
      · subst hb
        simpa [Now.refs, At.refs] using hcount
      · simp only [setHead_ne _ hb]
        simpa [Now.refs, At.refs] using hcount
    · have hsame := setHead_block c' bh
        (f := fun h => { h with lock := true, dirt := false }) fun h => ⟨rfl, rfl⟩
      rcases hr.taken with ⟨ht, hs⟩ | ⟨b, h, ht, h0, hl, hd, hdev, hblk, hc, hother⟩
      · refine .inl ⟨ht, fun b => ?_⟩
        rw [(hsame b).1, (hsame b).2]
        exact hs b
      · refine .inr ⟨b, h, ht, h0, hl, hd, hdev, hblk, hc, fun b' hb' => ?_⟩
        rw [(hsame b').1, (hsame b').2]
        exact hother b' hb'
  · exact hr

section

variable (hi : Integrity c)
include hi

/-- `get_hash_table` finds the block and takes a reference, or there is no
head of the block. -/
theorem getHashTable_spec :
    (getHashTable k dev block c = .ok none ∧ findBuffer c dev block = .ok none) ∨
    ∃ r, getHashTable k dev block c = .ok (some r) ∧ Ran c (fun _ => 0) r := by
  rcases findBuffer_spec hi with ⟨hf, -⟩ | ⟨b, hf, -⟩
  · refine .inl ⟨?_, hf⟩
    unfold getHashTable
    rw [hf]
    rfl
  · right
    unfold getHashTable
    rw [hf]
    by_cases hl : ((c.inc b).head b).lock = true
    · refine ⟨(c.inc b, .asleep (.lookup k dev block b)), ?_, ran_inc hi fun b' => rfl⟩
      exact if_pos hl
    · refine ⟨finish k b (c.inc b), ?_, Ran.finish (ran_inc hi fun b' => ?_) k⟩
      · exact if_neg hl
      · simp [Now.refs, single]

/-- `getblk` takes a head over. -/
theorem recycle_ran (hcount : (c.head bh).count = 0) (hlock : (c.head bh).lock = false)
    (hdirt : (c.head bh).dirt = false) (hfind : findBuffer c dev block = .ok none) : ∃ r, (do
      let c ← recycle c dev block bh
      pure (finish k bh c) : Except Panic (Cache n × Now n)) = .ok r ∧
      Ran c (fun _ => 0) r := by
  have hnew : dev ≠ 0 → ∀ b, (c.head b).dev = dev → (c.head b).blocknr ≠ block := by
    rcases findBuffer_spec hi with ⟨-, hnew⟩ | ⟨b, hf, -⟩
    · exact hnew
    · rw [hfind] at hf
      cases hf
  obtain ⟨c', hrec, hi', hhead, htaken⟩ := recycle_ok hi hnew
  refine ⟨finish k bh c', by rw [hrec]; rfl, Ran.finish ⟨hi', fun b => ?_,
    .inr ⟨bh, c.head bh, htaken, hcount, hlock, hdirt, rfl, rfl, hcount, fun b hb => ?_⟩⟩ k⟩
  · rw [hhead]
    by_cases hb : b = bh
    · subst hb
      simp [Head.fresh, Now.refs, hcount]
    · rw [update_of_ne hb]
      simp [Now.refs, Ne.symm hb]
  · rw [hhead, update_of_ne hb]
    exact ⟨rfl, rfl⟩

/-- `getblk` from `repeat` comes to a sleep or to the return in its first
round: it has just seen that the block has no head and that the one it
chose is free. -/
theorem getblk_ends (f : Nat) : Ends c (fun _ => 0) (getblk k dev block (f + 1) c) := by
  unfold getblk
  rcases getHashTable_spec hi with ⟨ht, hfind⟩ | ⟨r, ht, hr⟩
  · obtain ⟨b?, hscan, hcount⟩ := scan_ok hi
    rw [ht]
    rw [hscan]
    cases b? with
    | none => exact ran_same hi fun b => rfl
    | some bh =>
      have h0 := hcount bh rfl
      show Ends c _ (if (c.head bh).lock then
        pure (c, .asleep (.chosen k dev block bh))
        else afterWait (getblk k dev block f) k dev block bh c)
      split
      · exact ran_same hi fun b => rfl
      · rename_i hlock
        unfold afterWait
        rw [if_neg (not_not.mpr h0)]
        split
        · exact ran_same hi fun b => rfl
        · rename_i hdirt
          obtain ⟨r, hrec, hr⟩ := recycle_ran hi h0
            (Bool.eq_false_iff.mpr hlock) (Bool.eq_false_iff.mpr hdirt) hfind
          rw [hfind]
          rw [hrec]
          exact hr
  · rw [ht]
    exact hr

/-- `getblk` after a wait: the head may have been taken, dirtied, or the
block may have got a head in the meantime. -/
theorem afterWait_ends (hlock : (c.head bh).lock = false) : Ends c (fun _ => 0)
      (afterWait (getblk k dev block 1) k dev block bh c) := by
  unfold afterWait
  split
  · exact getblk_ends hi 0
  · rename_i hcount
    split
    · exact ran_same hi fun b => rfl
    · rename_i hdirt
      rcases findBuffer_spec hi with ⟨hf, -⟩ | ⟨b, hf, -⟩
      · obtain ⟨r, hrec, hr⟩ := recycle_ran hi (not_not.mp hcount) hlock
          (Bool.eq_false_iff.mpr hdirt) hf
        rw [hf]
        rw [hrec]
        exact hr
      · rw [hf]
        exact getblk_ends hi 0

theorem release_ends : Ends c (single bh) (release bh c) := by
  unfold release
  split
  · rfl
  · exact ran_dec hi

/-- Every stretch that goes on from a sleep. -/
theorem resume_ends (a : At n) : Ends c (fun b => a.refs b) (resume c a) := by
  cases a with
  | lookup k dev block bh =>
    simp only [resume]
    split
    · exact ran_same hi fun b => rfl
    · split
      · refine Ran.finish (ran_same hi fun b => ?_) k
        simp [Now.refs, At.refs]
      · have hi' : Integrity (c.dec bh) := hi.setHead fun h => ⟨rfl, rfl⟩
        split
        · refine Ends.of_dec ?_
          rcases getHashTable_spec hi' with
            ⟨ht, -⟩ | ⟨r, ht, hr⟩
          · rw [ht]
            exact ran_same hi' fun b => rfl
          · rw [ht]
            exact hr
        · exact Ends.of_dec (getblk_ends hi' 0)
  | noBuffer k dev block => exact getblk_ends hi 0
  | chosen k dev block bh | syncing k dev block bh | synced k dev block bh =>
    simp only [resume]
    split
    · exact ran_same hi fun b => rfl
    · rename_i hlock
      exact afterWait_ends hi (Bool.eq_false_iff.mpr hlock)
  | reading bh =>
    simp only [resume]
    split
    · exact ran_same hi fun b => rfl
    · split
      · refine ran_same hi fun b => ?_
        simp [Now.refs, At.refs]
      · exact release_ends hi
  | releasing bh =>
    simp only [resume]
    split
    · exact ran_same hi fun b => rfl
    · exact release_ends hi

/-- The reference a call starts with: `brelse` uses up its caller's. -/
def Call.refs (b : Fin n) : Call n → Nat
  | .brelse bh => single bh b
  | _ => 0

/-- Every stretch that starts a call. -/
theorem start_ends (what : Call n) : Ends c (fun b => what.refs b) (start c what) := by
  cases what with
  | getHashTable dev block =>
    simp only [start]
    rcases getHashTable_spec hi with
      ⟨ht, -⟩ | ⟨r, ht, hr⟩
    · rw [ht]
      exact ran_same hi fun b => rfl
    · rw [ht]
      exact hr
  | getblk dev block => exact getblk_ends hi 0
  | bread dev block => exact getblk_ends hi 0
  | brelse bh => exact resume_ends hi (.releasing bh)

end

/-- `brelse` takes nothing over. -/
theorem start_brelse_taken (h : start c (.brelse bh) = .ok r) : r.1.taken = c.taken := by
  simp only [start, resume, release] at h
  split at h
  · cases h
    rfl
  · split at h
    · cases h
    · cases h
      rfl

/-- The heads a stretch renames are those it takes over. -/
theorem Ran.renamed (hr : Ran c own r) (hb : Renamed c r.1 b) :
    ∃ h, r.1.taken = (b, h) :: c.taken ∧ h.count = 0 ∧ h.lock = false ∧
      h.dirt = false ∧ h.dev = (c.head b).dev ∧ h.blocknr = (c.head b).blocknr ∧
      (c.head b).count = UInt8.ofNat (own b) := by
  have hsame : ∀ b', ((r.1.head b').dev = (c.head b').dev ∧
      (r.1.head b').blocknr = (c.head b').blocknr) → b' ≠ b := by
    rintro b' ⟨hd, hk⟩ rfl
    rcases hb with hb | hb
    · exact hb hd
    · exact hb hk
  rcases hr.taken with ⟨-, hs⟩ | ⟨b', h, ht, h0, hl, hd, hdev, hblk, hc, hother⟩
  · exact absurd rfl (hsame b (hs b))
  · by_cases hbb : b = b'
    · subst hbb
      exact ⟨h, ht, h0, hl, hd, hdev, hblk, hc⟩
    · exact absurd rfl (hsame b (hother b hbb))

-- ======== the runs

variable {T : Type} [DecidableEq T] {s s' : Sys n T} {o : Op n T} {t : Task n}

-- ======== the references

theorem Task.settle_refs (held : List (Fin n)) (now : Now n) (b : Fin n) :
    (Task.settle held now).refs b = held.count b + now.refs b := by
  cases now with
  | asleep a => rfl
  | returned bh =>
    cases bh with
    | none => simp [Task.settle, Task.refs, Now.refs]
    | some b' =>
      by_cases hb : b' = b
      · subst hb
        simp [Task.settle, Task.refs, Now.refs]
      · simp [Task.settle, Task.refs, Now.refs, hb]

/-- What a task has before a call that it may make. -/
theorem Task.call_refs {what : Call n} (hp : t.place = none)
    (hfair : ∀ bh, what = .brelse bh → bh ∈ t.held) (b : Fin n) :
    t.refs b = (what.keeps t.held).count b + what.refs b := by
  unfold Task.refs
  rw [hp]
  cases what with
  | getHashTable dev block | getblk dev block | bread dev block => rfl
  | brelse bh =>
    have hmem := hfair bh rfl
    by_cases hb : bh = b
    · subst hb
      have hpos := List.count_pos_iff.mpr hmem
      simp only [Call.keeps, Call.refs, single, List.count_erase_self, Option.elim_none, if_true]
      omega
    · simp [Call.keeps, Call.refs, single, hb, List.count_erase_of_ne (Ne.symm hb)]

theorem Task.resume_refs {a : At n} (hp : t.place = some a)
    (b : Fin n) : t.refs b = t.held.count b + a.refs b := by
  unfold Task.refs
  rw [hp]
  rfl

theorem At.refs_le (a : At n) : a.refs b ≤ 1 := by
  cases a <;> simp only [At.refs] <;> first | omega | (split <;> omega)

/-- What a step does: nothing, a stretch of a task, which releases only what
the task holds if the step is fair, or a change of flags. -/
inductive Did (o : Op n T) (s : Sys n T) : Sys n T → Prop where
  | nothing : Did o s s
  | stretch (t : T) (held : List (Fin n)) (own : Fin n → Nat) (r : Cache n × Now n)
      (ran : Ran s.cache own r)
      (fair : (∀ t bh, o = .call t (.brelse bh) → (s.task t).place = none →
        bh ∈ (s.task t).held) → ∀ b, (s.task t).refs b = held.count b + own b)
      (takes : r.1.taken ≠ s.cache.taken → ∀ b, own b ≤ 1 ∧
        (s.task t).refs b = (s.task t).held.count b + own b) : Did o s (s.settle t held r)
  | flags (bh : Fin n) (f : Head → Head)
      (same : ∀ h, (f h).dev = h.dev ∧ (f h).blocknr = h.blocknr ∧ (f h).count = h.count) :
      Did o s { s with cache := s.cache.setHead bh f }

/-- How a step may end: as `Did` says, or in the panic of `brelse`. -/
def Ended (o : Op n T) (s : Sys n T) : Except Panic (Sys n T) → Prop
  | .ok s' => Did o s s'
  | .error e => e = .freeFree

theorem exec_ended (hi : Integrity s.cache) (o : Op n T) : Ended o s (exec o s) := by
  cases o with
  | call t what =>
    cases hp : (s.task t).place with
    | some a =>
      simp only [exec, hp]
      exact .nothing
    | none =>
      have hends := start_ends hi what
      simp only [exec, hp]
      cases hst : start s.cache what with
      | error e =>
        rw [hst] at hends
        exact hends
      | ok r =>
        rw [hst] at hends
        refine .stretch t _ _ r hends (fun hfair => Task.call_refs hp fun bh hw =>
          hfair t bh (by rw [hw]) hp) fun ht b => ?_
        have hown : what.refs b = 0 := by
          cases what with
          | brelse bh => exact absurd (start_brelse_taken hst) ht
          | getHashTable | getblk | bread => rfl
        refine ⟨by omega, ?_⟩
        rw [hown, Task.refs, hp]
        rfl
  | resume t =>
    cases hp : (s.task t).place with
    | none =>
      simp only [exec, hp]
      exact .nothing
    | some a =>
      have hends := resume_ends hi a
      simp only [exec, hp]
      cases hst : resume s.cache a with
      | error e =>
        rw [hst] at hends
        exact hends
      | ok r =>
        rw [hst] at hends
        exact .stretch t _ _ r hends (fun _ => Task.resume_refs hp) fun _ b =>
          ⟨a.refs_le, Task.resume_refs hp b⟩
  | io bh lock dirt uptodate => exact .flags bh _ fun h => ⟨rfl, rfl, rfl⟩

section

variable (hi : Integrity s.cache) (h : step o s = some s')
include hi h

theorem did : Did o s s' := by
  have he := exec_ended hi o
  unfold step at h
  cases hx : exec o s with
  | error e =>
    rw [hx] at h
    cases h
  | ok r =>
    rw [hx] at h he
    cases h
    exact he

/-- Every step keeps the lists whole. -/
theorem Integrity.step : Integrity s'.cache := by
  cases did hi h with
  | nothing => exact hi
  | stretch t held own r ran => exact ran.integrity
  | flags bh f same => exact hi.setHead fun h => ⟨(same h).1, (same h).2.1⟩

/-- Every head that a step renames is one it takes over, and a free one. -/
theorem step_renamed (hb : Renamed s.cache s'.cache b) :
    ∃ h, s'.cache.taken = (b, h) :: s.cache.taken ∧ h.count = 0 ∧
      h.lock = false ∧ h.dirt = false ∧ h.dev = (s.cache.head b).dev ∧
      h.blocknr = (s.cache.head b).blocknr := by
  cases did hi h with
  | nothing =>
    rcases hb with hb | hb
    · exact absurd rfl hb
    · exact absurd rfl hb
  | stretch t held own r ran =>
    obtain ⟨h, ht, h0, hl, hd, hdev, hblk, -⟩ := ran.renamed hb
    exact ⟨h, ht, h0, hl, hd, hdev, hblk⟩
  | flags bh f same =>
    have hsame := setHead_block s.cache bh (fun h => ⟨(same h).1, (same h).2.1⟩) b
    rcases hb with hb | hb
    · exact absurd hsame.1 hb
    · exact absurd hsame.2 hb

end

variable [Fintype T]

/-- Only the references of the task that ran change. -/
theorem settle_refs (s : Sys n T) (t : T) (held : List (Fin n)) (r : Cache n × Now n) (b : Fin n) :
    (s.settle t held r).refs b + (s.task t).refs b = s.refs b + (held.count b + r.2.refs b) := by
  have hself : ((s.settle t held r).task t).refs b = held.count b + r.2.refs b := by
    show (update s.task t _ t).refs b = _
    rw [update_self, Task.settle_refs]
  rw [← hself]
  refine sum_swap (g := fun u => (s.task u).refs b) t fun u hu => ?_
  show (update s.task t _ u).refs b = _
  rw [update_of_ne hu]

/-- The counts are the numbers of references, as far as a byte holds
them. -/
def Counted (s : Sys n T) : Prop :=
  ∀ b, (s.cache.head b).count = UInt8.ofNat (s.refs b)

/-- A stretch keeps the counts right. -/
theorem Counted.settle (hc : Counted s) {t : T} {held : List (Fin n)} (hr : Ran s.cache own r)
    (hheld : ∀ b, (s.task t).refs b = held.count b + own b) : Counted (s.settle t held r) := by
  intro b
  have h1 := hr.count b
  have h2 := hc b
  have h3 := congrArg UInt8.ofNat (settle_refs s t held r b)
  rw [hheld b] at h3
  simp only [UInt8.ofNat_add] at h3
  show (r.1.head b).count = _
  grind

/-- Fair steps keep the counts right. -/
theorem Counted.step (hi : Integrity s.cache) (hc : Counted s)
    (hfair : Fair o s) (h : step o s = some s') : Counted s' := by
  cases did hi h with
  | nothing => exact hc
  | stretch t held own r ran fair => exact hc.settle ran (fair hfair.1)
  | flags bh f same =>
    intro b
    refine Eq.trans ?_ (hc b)
    by_cases hb : b = bh
    · subst hb
      simp [(same _).2.2]
    · simp [setHead_ne f hb]

omit [DecidableEq T] in
/-- A head that is taken over has no reference but the one the task itself
drops in the stretch. -/
theorem Counted.refs_eq (hc : Counted s) {own : Nat}
    (hle : s.refs b ≤ 255) (hown : own ≤ 1) (hcount : (s.cache.head b).count = UInt8.ofNat own) :
    s.refs b = own := by
  rw [hc b] at hcount
  have := congrArg UInt8.toNat hcount
  simp only [UInt8.toNat_ofNat'] at this
  omega

theorem held_count_le (s : Sys n T) (t u : T) (b : Fin n) (htu : t ≠ u) :
    (s.task t).refs b + (s.task u).refs b ≤ s.refs b := by
  unfold Sys.refs
  rw [← Finset.add_sum_erase _ _ (Finset.mem_univ t), ← Finset.add_sum_erase _ _
      (Finset.mem_erase.mpr ⟨Ne.symm htu, Finset.mem_univ u⟩)]
  omega

omit [DecidableEq T] in
theorem task_refs_le (s : Sys n T) (t : T) (b : Fin n) : (s.task t).refs b ≤ s.refs b :=
  Finset.single_le_sum (f := fun t => (s.task t).refs b)
    (fun _ _ => Nat.zero_le _) (Finset.mem_univ t)

/-- Where the only references are the `own` ones of a task that holds
nothing else, nobody holds the head. -/
theorem nobody_holds {t : T} {own : Nat} (hrefs : s.refs b = own)
    (htask : (s.task t).refs b = (s.task t).held.count b + own) : ∀ u, b ∉ (s.task u).held := by
  intro u hu
  have hpos := List.count_pos_iff.mpr hu
  by_cases htu : t = u
  · subst htu
    have := task_refs_le s t b
    omega
  · have := held_count_le s t u b htu
    have hu' : (s.task u).held.count b ≤ (s.task u).refs b :=
      Nat.le_add_right _ _
    omega

/-- In a fair step no head is renamed that a task holds. -/
theorem step_not_held (hi : Integrity s.cache) (hc : Counted s)
    (hfair : Fair o s) (h : step o s = some s')
    (hb : Renamed s.cache s'.cache b) : ∀ t, b ∉ (s.task t).held := by
  obtain ⟨hd, htaken, -⟩ := step_renamed hi h hb
  cases did hi h with
  | nothing | flags => exact absurd htaken (List.cons_ne_self _ _).symm
  | stretch t held own r ran _ takes =>
    obtain ⟨h', htk, -, -, -, -, -, hcount⟩ := ran.renamed hb
    obtain ⟨hown, htask⟩ := takes (by rw [htk]; exact List.cons_ne_self _ _) b
    exact nobody_holds (hc.refs_eq (hfair.2 b) hown hcount) htask

-- ======== the start

theorem ofNat_succ (n k : Nat) : Fin.ofNat (n + 1) (k + 1) = Fin.ofNat (n + 1) k + 1 := by
  ext
  simp [Fin.ofNat, Fin.val_add]

/-- `buffer_init` links the heads one after the other. -/
theorem bufferInit_seg {n : Nat} (blocknr : Fin (n + 1) → UInt32) (i m : Nat) :
    Seg (bufferInit blocknr).nextFree (bufferInit blocknr).prevFree
      (some (Fin.ofNat (n + 1) i - 1)) (some (Fin.ofNat (n + 1) i))
      ((List.range' i m).map (Fin.ofNat (n + 1))) (some (Fin.ofNat (n + 1) (i + m) - 1))
      (some (Fin.ofNat (n + 1) (i + m))) := by
  induction m generalizing i with
  | zero => exact ⟨rfl, rfl⟩
  | succ m ih =>
    rw [List.range'_succ, List.map_cons]
    refine ⟨rfl, rfl, ?_⟩
    have hrest := ih (i + 1)
    rw [ofNat_succ, Nat.add_right_comm, Nat.add_assoc] at hrest
    rw [show Fin.ofNat (n + 1) i + 1 - 1 = Fin.ofNat (n + 1) i by
      grind] at hrest
    exact hrest

/-- The lists of `buffer_init` are whole. -/
theorem integrity_bufferInit {n : Nat} (blocknr : Fin (n + 1) → UInt32) :
    Integrity (bufferInit blocknr) where
  free := by
    have hall : ∀ bh : Fin (n + 1), bh ∈ (List.range' 0 (n + 1)).map (Fin.ofNat (n + 1)) := by
      intro bh
      refine List.mem_map.mpr ⟨bh.val, ?_, by simp⟩
      simp [List.mem_range'_1, bh.isLt]
    refine ⟨(List.range' 0 (n + 1)).map (Fin.ofNat (n + 1)),
      List.ne_nil_of_mem (hall 0), ?_, hall, some (Fin.ofNat (n + 1) 0 - 1), ?_⟩
    · refine List.Nodup.map_on ?_ List.nodup_range'
      intro i hi j hj hij
      have := congrArg Fin.val hij
      simp only [Fin.val_ofNat, List.mem_range'_1] at this hi hj
      rwa [Nat.mod_eq_of_lt (by omega), Nat.mod_eq_of_lt (by omega)] at this
    · have hs := bufferInit_seg blocknr 0 (n + 1)
      have hwrap : Fin.ofNat (n + 1) (0 + (n + 1)) = Fin.ofNat (n + 1) 0 := by
        ext
        simp
      rw [hwrap] at hs
      exact hs
  hash := ⟨fun i => ⟨[], List.nodup_nil, ⟨none, rfl, rfl⟩, fun a => by
    simp [Cache.key, bufferInit]⟩, fun a _ => ⟨rfl, rfl⟩⟩
  unique a b hd := absurd rfl hd

omit [DecidableEq T] in
theorem counted_init {n : Nat} (blocknr : Fin (n + 1) → UInt32) : Counted (Sys.init T blocknr) := by
  intro b
  simp [Sys.init, bufferInit, Sys.refs, Task.refs]

-- ======== the result

/-- From `buffer_init` on, in every state that any interleaving of calls
and I/O reaches: the lists are whole; no walk along them is lost and the
only panic is that of `brelse`; a step gives a head another block only
when its count is 0 and it is unlocked and clean at that moment; and where
callers release only what they hold and no head ever has more than 255
references, nobody holds a head that is given another block. -/
theorem buffer_cache_integrity {n : Nat} {blocknr : Fin (n + 1) → UInt32}
    {os : List (Op (n + 1) T)} {s : Sys (n + 1) T}
    (h : runOps step os (Sys.init T blocknr) = some s) : Integrity s.cache ∧
    (∀ o e, exec o s = .error e → e = .freeFree) ∧
    (∀ o s' b, step o s = some s' → Renamed s.cache s'.cache b →
      ∃ h, s'.cache.taken = (b, h) :: s.cache.taken ∧ h.count = 0 ∧
        h.lock = false ∧ h.dirt = false ∧ h.dev = (s.cache.head b).dev ∧
        h.blocknr = (s.cache.head b).blocknr) ∧
    (Meets step Fair os (Sys.init T blocknr) → ∀ o s' b, Fair o s →
      step o s = some s' → Renamed s.cache s'.cache b → ∀ t, b ∉ (s.task t).held) := by
  have hi : Integrity s.cache :=
    runOps_invariant_all (I := fun s => Integrity s.cache)
      (fun _ _ _ hs hstep => hs.step hstep) h (integrity_bufferInit blocknr)
  refine ⟨hi, fun o e he => ?_, fun o s' b hstep hb =>
    step_renamed hi hstep hb, fun hm o s' b hfair hstep hb => ?_⟩
  · have hends := exec_ended hi o
    rw [he] at hends
    exact hends
  · have hc := runOps_invariant (I := fun s => Integrity s.cache ∧ Counted s)
      (fun _ _ _ hs hg hstep => ⟨hs.1.step hstep, hs.2.step hs.1 hg hstep⟩)
      hm h ⟨integrity_bufferInit blocknr, counted_init blocknr⟩
    exact step_not_held hi hc.2 hfair hstep hb

/-- With two heads: block 7 of device 1 is got and released, and block 8
takes the other head over. -/
theorem buffer_cache_integrity_two : ∃ s, runOps step [.call () (.getblk 1 7), .call () (.brelse 0),
      .call () (.getblk 1 8)] (Sys.init (n := 1) Unit fun _ => 0) = some s ∧
    (s.cache.head 0).blocknr = 7 ∧ (s.cache.head 1).blocknr = 8 ∧ Integrity s.cache := by
  exact exists_run (fun s => (s.cache.head 0).blocknr = 7 ∧ (s.cache.head 1).blocknr = 8)
    (by decide +kernel) fun s h hv => ⟨hv.1, hv.2, (buffer_cache_integrity h).1⟩

/-- One head, got 256 times: `b_count` is 0 again, and the next block takes
the head away from all its users, though nobody ever released it. -/
theorem referenced_head_renamed : ¬ ∀ (os : List (Op 1 Unit))
    (o : Op 1 Unit) (s s' : Sys 1 Unit) (b : Fin 1),
    (∀ o' ∈ o :: os, ∀ t bh, o' ≠ .call t (.brelse bh)) →
    runOps step os (Sys.init Unit fun _ => 0) = some s →
    step o s = some s' → Renamed s.cache s'.cache b → ∀ t, b ∉ (s.task t).held := by
  intro hall
  have heval : ((runOps step (List.replicate 256 (.call () (.getblk 1 1)))
      (Sys.init (n := 0) Unit fun _ => 0)).bind fun s =>
        (step (.call () (.getblk 1 2)) s).map fun s' =>
          ((s.cache.head 0).blocknr, (s'.cache.head 0).blocknr, decide (0 ∈ (s.task ()).held)))
      = some (1, 2, true) := by decide +kernel
  obtain ⟨s, hrun, heval⟩ := Option.bind_eq_some_iff.mp heval
  obtain ⟨s', hstep, heq⟩ := Option.map_eq_some_iff.mp heval
  simp only [Prod.mk.injEq, decide_eq_true_eq] at heq
  refine hall _ _ s s' 0 ?_ hrun hstep ?_ () heq.2.2
  · intro o' ho' t bh
    rcases List.mem_cons.mp ho' with rfl | ho'
    · nofun
    · rw [List.eq_of_mem_replicate ho']
      nofun
  · right
    rw [heq.1, heq.2.1]
    decide

-- ======== what an insertion stores through

theorem insertStores_heads {g : Fin n} (hfl : c.freeList = some g)
    (hprev : ∀ b, c.prevFree b ≠ none) : (∀ p ∈ insertStores c bh, p ≠ none) ↔
      (c.head bh).dev = 0 ∨ c.hashTable (c.bucket bh) ≠ none := by
  have hlast : update c.prevFree bh (c.prevFree g) g ≠ none := by
    by_cases hg : g = bh
    · subst hg
      rw [update_self]
      exact hprev g
    · rw [update_of_ne hg]
      exact hprev g
  by_cases hd : (c.head bh).dev = 0 <;>
  simp [insertStores, hd, hfl, hlast]

omit [Fintype T] in
/-- The insertion of `getblk` for any block and any head, in every state
that is reached from `buffer_init` (where `get_hash_table` has just given a
head up, with its count lowered): all stores go to heads just when the
block has no device or another head is in its hash chain; and in any case
the head after a head points back to it. -/
theorem insert_stores_iff_chained {n : Nat} {blocknr : Fin (n + 1) → UInt32}
    {os : List (Op (n + 1) T)} {s : Sys (n + 1) T}
    (h : runOps step os (Sys.init T blocknr) = some s) {c : Cache (n + 1)}
    (hc : c = s.cache ∨ ∃ b, c = s.cache.dec b) (dev : UInt16) (block : UInt32)
    (bh : Fin (n + 1)) : ∃ c', detached c dev block bh = .ok c' ∧
      recycle c dev block bh = .ok (insertIntoQueues c' bh) ∧
      ((∀ p ∈ insertStores c' bh, p ≠ none) ↔
        dev = 0 ∨ ∃ b, b ≠ bh ∧ c.key b = some (hashfn dev block)) ∧
      ∀ a b, (insertIntoQueues c' bh).next a = some b →
        (insertIntoQueues c' bh).prev b = some a := by
  have hs : Integrity s.cache :=
    runOps_invariant_all (I := fun s => Integrity s.cache)
      (fun _ _ _ hs hstep => hs.step hstep) h (integrity_bufferInit blocknr)
  have hi : Integrity c := by
    rcases hc with rfl | ⟨b, rfl⟩
    · exact hs
    · exact hs.setHead fun _ => ⟨rfl, rfl⟩
  obtain ⟨c', g, hdet, hrec, hhead, -, hfl, hprev, htable, -⟩ := detached_ok hi
  refine ⟨c', hdet, hrec, ?_, fun a b hab => ((detached_table hhead htable).next_mem hab).2⟩
  rw [insertStores_heads hfl hprev, htable.head_ne_none, Cache.bucket, hhead, update_self]
  refine or_congr Iff.rfl (exists_congr fun b => ?_)
  by_cases hb : b = bh
  · subst hb
    simp
  · simp [hb, Head.fresh]

/-- Block 312 of device 1 comes into the chain of block 7. -/
theorem insert_stores_iff_chained_second : ∃ s, runOps step [.call () (.getblk 1 7)]
      (Sys.init (n := 1) Unit fun _ => 0) = some s ∧
    ∃ c', detached s.cache 1 312 1 = .ok c' ∧ ∀ p ∈ insertStores c' 1, p ≠ none := by
  have hrun : ∃ s, runOps step [.call () (.getblk 1 7)] (Sys.init (n := 1) Unit fun _ => 0)
      = some s ∧ s.cache.key 0 = some (hashfn 1 312) := ⟨_, rfl, by decide⟩
  obtain ⟨s, h, hkey⟩ := hrun
  obtain ⟨c', hdet, -, hiff, -⟩ := insert_stores_iff_chained h (.inl rfl) 1 312 1
  exact ⟨s, h, c', hdet, hiff.mpr (.inr ⟨0, by decide, hkey⟩)⟩

/-- The first `getblk` after `buffer_init` finds an empty chain and stores
through its NULL. -/
theorem first_insert_stores_null : ¬ ∀ (dev : UInt16) (block : UInt32) (bh : Fin 1)
    (c' : Cache 1), detached (bufferInit fun _ => 0) dev block bh = .ok c' →
    start (bufferInit fun _ => 0) (.getblk dev block)
      = .ok (insertIntoQueues c' bh, .returned (some bh)) →
    ∀ p ∈ insertStores c' bh, p ≠ none := by
  intro hall
  exact hall 1 7 0 _ rfl rfl none (by decide) rfl

end LearnLinux.Buffer
