/-
Not-present faults keep the page tables well formed.

`do_no_page` ends in one of three ways: an empty page, a page shared
with another task that runs the same executable, or a fresh page read
from the file. `NoPage` names them; each is a composition of steps
specified before (`Fresh`, `TableAdded`, `PagePut`, `Shared`).
-/
import LearnLinux.Mm.System
import LearnLinux.Mm.Proofs.Access
import LearnLinux.Mm.Proofs.Share

namespace LearnLinux.Mm

open Lib

variable {lo hi i j i' address n cur x f a b : Nat} {s s' s : Mem} {current : Task} {T : Tasks}
variable {k : Nat → Mem → Except Trap Mem}

-- ======== sharing

/-- A share that took place: slot `(i, j)` was present, clean and in
main memory, the other side got a page table if it had none, and the
page is now in both tables, read-only. -/
structure ShareHit (lo hi : Nat) (s : Mem) (i j i' : Nat) (s' : Mem) : Prop where
  mapped : present (pteAt s i j)
  clean : ¬ dirty (pteAt s i j)
  main : InMain lo hi (frame (pteAt s i j))
  steps : ∃ s₁, (present (s.word i') ∧ s₁ = s ∨ ¬ present (s.word i') ∧ TableAdded lo hi ∅ s i' s₁)
    ∧ Shared lo hi ∅ s₁ i j i' j s'

/-- Room for one more reference to every frame. -/
def Room (lo hi : Nat) (s : Mem) : Prop :=
  ∀ f, InMain lo hi f → s.memMap (f - 256) + 1 < 256

/-- The table step of `try_to_share`. -/
theorem Paging.ensureTable_cases (h : Paging lo hi ∅ s)
    (hi' : UserDir i) (ht : ensureTable i s = .ok s') : present (s.word i) ∧ s' = s
      ∨ ¬ present (s.word i) ∧ TableAdded lo hi ∅ s i s' := by
  unfold ensureTable at ht
  split at ht
  · rename_i hd
    cases ht
    exact .inl ⟨hd, rfl⟩
  · rename_i ha
    split at ht
    · cases ht
    · rename_i hg
      cases ht
      exact .inr ⟨ha, (h.tableAdded hi' ha hg).1⟩

/-- What having the page table in place leaves as it was. -/
structure TableKept (lo hi : Nat) (s : Mem) (i : Nat) (s' : Mem) : Prop where
  paging : Paging lo hi ∅ s'
  there : present (s'.word i)
  dirs : ∀ a, UserDir a → a ≠ i → s'.word a = s.word a
  pte : ∀ a b, UserDir a → b < 1024 → pteAt s' a b = pteAt s a b
  map : ∀ a b, UserDir a → b < 1024 → present (pteAt s' a b) → InMain lo hi (frame (pteAt s' a b)) →
    s'.memMap (frame (pteAt s' a b) - 256) = s.memMap (frame (pteAt s' a b) - 256)

theorem Paging.tableKept (h : Paging lo hi ∅ s) (hi' : UserDir i) (hc : present (s.word i) ∧ s' = s
      ∨ ¬ present (s.word i) ∧ TableAdded lo hi ∅ s i s') : TableKept lo hi s i s' := by
  rcases hc with ⟨hd, rfl⟩ | ⟨-, ht⟩
  · exact ⟨h, hd, fun a _ _ => rfl, fun a b _ _ => rfl, fun a b _ _ _ _ => rfl⟩
  · refine ⟨ht.paging, ht.dir, fun a ha hne => ?_, ht.pte, ?_⟩
    · exact ht.low a (by have := ha.2; omega) hne
    · intro a b ha hb hp hin
      -- the only count that moved is the table's own
      have hne := ht.paging.page_ne_table ha hb hp hi' ht.dir
      have h1 := ht.paging.main_ge hin
      have h2 := ht.paging.main_ge (ht.paging.table i hi' ht.dir).1
      rw [ht.map, Function.update_apply, if_neg (by omega)]

/-- The sharing step of `try_to_share`, the page table of the current
task being there. -/
theorem Paging.shared_of_shareInto (h : Paging lo hi ∅ s)
    (hi' : UserDir i) (hj : j < 1024) (hi'' : UserDir i')
    (hp : present (pteAt s i j)) (hge : 256 ≤ frame (pteAt s i j)) (hd' : present (s.word i'))
    (hroom : s.memMap (frame (pteAt s i j) - 256) + 1 < 256)
    (ht : shareInto (frame (s.word i) * 1024 + j)
      (frame (s.word i') * 1024 + j) (frame (pteAt s i j) - 256) s = .ok s') :
    Shared lo hi ∅ s i j i' j s' := by
  have hd := dir_present_of_pte hp
  have hto : s.word (frame (s.word i') * 1024 + j) = pteAt s i' j :=
    (pteAt_of_present hd').symm
  have hfrom : s.word (frame (s.word i) * 1024 + j) = pteAt s i j :=
    (pteAt_of_present hd).symm
  unfold shareInto at ht
  rw [hto, hfrom] at ht
  split at ht
  · cases ht
  · rename_i ha
    simp only [Mem.store_word, if_true] at ht
    cases ht
    exact h.share hi' hj hp hge hi'' hj hd' ha hroom rfl rfl rfl

/-- `try_to_share`: nothing, or a share. -/
theorem Paging.tryToShare_cases (h : Paging lo hi ∅ s) {p : Task} {b : Bool}
    (hi' : UserDir (dirNr address + dirNr p.startCode))
    (hi'' : UserDir (dirNr address + dirNr current.startCode))
    (hne : dirNr p.startCode ≠ dirNr current.startCode) (hroom : Room lo hi s)
    (ht : tryToShare address current p s = .ok (b, s')) : b = false ∧ s' = s ∨ b = true
      ∧ ShareHit lo hi s (dirNr address + dirNr p.startCode)
        (pageNr address) (dirNr address + dirNr current.startCode) s' := by
  have hj : pageNr address < 1024 := Nat.mod_lt _ (by omega)
  unfold tryToShare at ht
  generalize hfrom : dirNr address + dirNr p.startCode = i at hi' ht ⊢
  generalize hto : dirNr address + dirNr current.startCode = i' at hi'' ht ⊢
  have hii : i ≠ i' := by
    omega
  generalize pageNr address = j at hj ht ⊢
  simp only [tablePtr_eq] at ht
  split at ht
  · rename_i hd
    have he : s.word (frame (s.word i) * 1024 + j) = pteAt s i j :=
      (pteAt_of_present hd).symm
    simp only [he] at ht
    split at ht
    · rename_i hclean
      obtain ⟨hp, hcl⟩ := hclean
      split at ht
      · cases ht
        exact .inl ⟨rfl, rfl⟩
      · rename_i hrange
        have hge : 256 ≤ frame (pteAt s i j) :=
          lowMem_le_pageAddr.mp (by omega)
        have hin := h.main_of_ge hi' hj hp hge
        obtain ⟨s1, hs1, ht⟩ := bind_eq_ok ht
        obtain ⟨s2, hs2, ht⟩ := bind_eq_ok ht
        cases ht
        have hcase := h.ensureTable_cases hi'' hs1
        refine .inr ⟨rfl, hp, hcl, hin, s1, hcase, ?_⟩
        have hk := h.tableKept hi'' hcase
        have hdi := hk.dirs i hi' hii
        have hpte := hk.pte i j hi' hj
        rw [mapNr_pageAddr, ← hpte, ← hdi] at hs2
        rw [← hpte] at hp hge hin
        refine hk.paging.shared_of_shareInto hi' hj hi'' hp hge hk.there ?_ hs2
        rw [hk.map i j hi' hj hp hin, hpte]
        rw [hpte] at hin
        exact hroom _ hin
    · cases ht
      exact .inl ⟨rfl, rfl⟩
  · cases ht
    exact .inl ⟨rfl, rfl⟩

theorem dirNr_task (hn : n < nrTasks) : dirNr (n * taskSize) = 16 * n := by
  unfold nrTasks at hn
  unfold dirNr taskSize
  omega

/-- A share by task `cur` at offset `address` with task `n`, which runs
the same executable. -/
structure SharedWith (lo hi : Nat) (T : Tasks) (cur : Nat) (current : Task)
    (address : Nat) (s : Mem) (n : Nat) (p : Task) (s' : Mem) : Prop where
  pos : 1 ≤ n
  lt : n < nrTasks
  other : n ≠ cur
  task : T.task n = some p
  same : p.executable = current.executable
  hit : ShareHit lo hi s (dirNr address + 16 * n) (pageNr address) (dirNr address + 16 * cur) s'

/-- Every task up to `n` that runs the same executable has been tried,
and passed over. -/
def PassedOver (T : Tasks) (cur : Nat) (current : Task) (address : Nat)
    (s : Mem) (n : Nat) : Prop :=
  ∀ m p, 1 ≤ m → m ≤ n → m ≠ cur → T.task m = some p → p.executable = current.executable →
    tryToShare address current p s = .ok (false, s)

theorem PassedOver.succ (h : PassedOver T cur current address s n)
    (hn : ∀ p, n + 1 ≠ cur → T.task (n + 1) = some p → p.executable = current.executable →
      tryToShare address current p s = .ok (false, s)) :
    PassedOver T cur current address s (n + 1) := by
  intro m p h1 hle hne hp hexec
  rcases Nat.le_succ_iff.mp hle with hle | rfl
  · exact h m p h1 hle hne hp hexec
  · exact hn p hne hp hexec

section

variable (h : Paging lo hi ∅ s) (hT : TaskSpaces T) (hcur : cur < nrTasks)
variable (hbase : current.startCode = cur * taskSize)
include h hT hcur hbase

/-- The loop of `share_page`: it stops at the first share, and until
then nothing has changed. -/
theorem Paging.shareLoop_cases (haddr : address < taskSize)
    (hi' : UserDir (dirNr address + 16 * cur)) (hroom : Room lo hi s) :
    ∀ {n : Nat} {b : Bool}, n < nrTasks → shareLoop T cur current address n s = .ok (b, s') →
      b = false ∧ s' = s ∧ PassedOver T cur current address s n ∨ b = true
        ∧ ∃ m p, SharedWith lo hi T cur current address s m p s' := by
  intro n
  induction n with
  | zero =>
    intro b _ hl
    cases hl
    refine .inl ⟨rfl, rfl, fun m p h1 h0 => ?_⟩
    omega
  | succ n ih =>
    intro b hn hl
    -- what the tasks below `n + 1` say, once `n + 1` is passed over
    have hnext : (∀ p, n + 1 ≠ cur → T.task (n + 1) = some p → p.executable = current.executable →
          tryToShare address current p s = .ok (false, s)) →
        shareLoop T cur current address n s = .ok (b, s') →
        b = false ∧ s' = s ∧ PassedOver T cur current address s (n + 1) ∨ b = true
          ∧ ∃ m p, SharedWith lo hi T cur current address s m p s' := by
      intro hpass hgo
      rcases ih (by omega) hgo with ⟨hb, hs, hn⟩ | hhit
      · exact .inl ⟨hb, hs, hn.succ hpass⟩
      · exact .inr hhit
    rw [shareLoop] at hl
    split at hl
    · rename_i hnone
      refine hnext (fun p _ hp => ?_) hl
      rw [hnone] at hp
      cases hp
    · rename_i p hp
      split at hl
      · rename_i hskip
        refine hnext (fun p' hne hp' hexec => ?_) hl
        rw [hp] at hp'
        cases hp'
        exact absurd hskip (not_or.mpr ⟨hne, not_not.mpr hexec⟩)
      · rename_i hsame
        obtain ⟨hother, hexec⟩ := not_or.mp hsame
        obtain ⟨⟨b1, s1⟩, ht, hgo⟩ := bind_eq_ok hl
        have hp16 : dirNr p.startCode = 16 * (n + 1) := by
          rw [hT.base _ _ hn hp, dirNr_task hn]
        have hc16 : dirNr current.startCode = 16 * cur := by
          rw [hbase, dirNr_task hcur]
        have hlow : dirNr address < 16 := by
          unfold dirNr
          unfold taskSize at haddr
          omega
        have hn' : n + 1 < 64 := hn
        have hcase := h.tryToShare_cases (by rw [hp16]; exact ⟨by omega, by omega⟩)
          (by rw [hc16]; exact hi') (by omega) hroom ht
        rw [hp16, hc16] at hcase
        rcases hcase with ⟨rfl, rfl⟩ | ⟨rfl, hhit⟩
        · refine hnext (fun p' _ hp' _ => ?_) hgo
          rw [hp] at hp'
          cases hp'
          exact ht
        · cases hgo
          exact .inr ⟨rfl, n + 1, p, by omega, hn, hother, hp, not_not.mp hexec, hhit⟩

/-- `share_page`: nothing, or a share with a task that runs the same
executable. -/
theorem Paging.sharePage_cases {b : Bool}     (haddr : address < taskSize)
    (hi' : UserDir (dirNr address + 16 * cur)) (hroom : Room lo hi s)
    (hx : current.executable = some x)
    (hs : sharePage T cur current address s = .ok (b, s')) : b = false ∧ s' = s ∧ (2 ≤ T.iCount x →
        PassedOver T cur current address s (nrTasks - 1)) ∨ b = true ∧ 2 ≤ T.iCount x
        ∧ ∃ m p, SharedWith lo hi T cur current address s m p s' := by
  unfold sharePage at hs
  simp only [hx] at hs
  split at hs
  · rename_i hcount
    cases hs
    exact .inl ⟨rfl, rfl, fun hc => absurd hcount (not_lt.mpr hc)⟩
  · rename_i hcount
    rcases h.shareLoop_cases hT hcur hbase haddr hi' hroom
      (by unfold nrTasks; omega) hs with ⟨hb, hs, hp⟩ | ⟨hb, hhit⟩
    · exact .inl ⟨hb, hs, fun _ => hp⟩
    · exact .inr ⟨hb, not_lt.mp hcount, hhit⟩

end

-- ======== demand loading

/-- Byte `a` of the executable image as the loader lays it out: file
bytes behind the header block up to the end of data, zeros past it
(and where the file has no block). -/
def imageByte (T : Tasks) (x endData a : Nat) : Nat :=
  if a < endData then
    match T.fileBlock x (1 + a / 1024) with
    | some d => byteOf (d (a % 1024 / 4)) (a % 4)
    | none => 0
  else 0

theorem Mem.byte_storeByte (s : Mem) (a b a' : Nat) :
    (s.storeByte a b).byte a' = if a' = a then b % 256 else s.byte a' := by
  unfold Mem.byte Mem.storeByte
  rw [Mem.store_word]
  by_cases h4 : a' / 4 = a / 4
  · rw [if_pos h4, byteOf_setByteOf (by omega) (by omega), h4]
    by_cases hb : a' % 4 = a % 4
    · rw [if_pos hb, if_pos (by omega)]
    · rw [if_neg hb, if_neg (by omega)]
  · rw [if_neg h4, if_neg (by omega)]

/-- The clearing loop: `n` bytes below `a` are zero, inside one page. -/
theorem clearTail_spec : ∀ (n a : Nat) (s : Mem), f * 4096 + n ≤ a → a ≤ f * 4096 + 4096 →
      DataChange f s (clearTail n a s) ∧ ∀ a', (clearTail n a s).byte a'
          = if a - n ≤ a' ∧ a' < a then 0 else s.byte a' := by
  intro n
  induction n with
  | zero =>
    intro a s _ _
    refine ⟨⟨fun k _ => rfl, rfl, rfl⟩, fun a' => ?_⟩
    rw [if_neg (by omega)]
    rfl
  | succ n ih =>
    intro a s h1 h2
    obtain ⟨hc, hb⟩ := ih (a - 1) (s.storeByte (a - 1) 0) (by omega) (by omega)
    have hc0 := s.storeByte_dataChange 0 (by omega : (a - 1) / 4096 = f)
    refine ⟨⟨fun k hk => ?_, ?_, ?_⟩, fun a' => ?_⟩
    · rw [clearTail, hc.out k hk, hc0.out k hk]
    · rw [clearTail, hc.map, hc0.map]
    · rw [clearTail, hc.high, hc0.high]
    · rw [clearTail, hb, Mem.byte_storeByte]
      by_cases ha : a' = a - 1
      · rw [if_neg (by omega), if_pos ha, if_pos (by omega)]
      · rw [if_neg ha]
        by_cases hr : a - 1 - n ≤ a' ∧ a' < a - 1
        · rw [if_pos hr, if_pos (by omega)]
        · rw [if_neg hr, if_neg (by omega)]

theorem breadPage_dataChange (f : Nat) (blk : Nat → Option (Nat → Nat))
    (s : Mem) : DataChange f s (breadPage (f * 4096) blk s) := by
  refine ⟨fun k hk => ?_, rfl, rfl⟩
  unfold breadPage
  rw [Nat.mul_div_cancel _ (by omega)]
  exact if_neg hk

/-- `bread_page` over a cleared page. -/
theorem breadPage_byte (blk : Nat → Option (Nat → Nat))
    (hz : ∀ k, k < 1024 → s.word (f * 1024 + k) = 0) {off : Nat} (hoff : off < 4096) :
    (breadPage (f * 4096) blk s).byte (f * 4096 + off) = match blk (off / 1024) with
        | some d => byteOf (d (off % 1024 / 4)) (off % 4)
        | none => 0 := by
  -- where the byte lies: its page, its block, its long
  obtain ⟨hf, hq, hw⟩ : (f * 1024 + off / 4) / 1024 = f
      ∧ (f * 1024 + off / 4) % 1024 / 256 = off / 1024
      ∧ (f * 1024 + off / 4) % 256 = off % 1024 / 4 := by
    omega
  obtain ⟨h4, h4', hpg⟩ : (f * 4096 + off) / 4 = f * 1024 + off / 4
      ∧ (f * 4096 + off) % 4 = off % 4 ∧ f * 4096 / 4096 = f := by
    clear hf hq hw
    omega
  unfold Mem.byte breadPage
  rw [h4, h4', hpg]
  simp only [hf, if_true, hq, hw]
  cases blk (off / 1024) with
  | some d => rfl
  | none =>
    simp only [hz (off / 4) (by omega)]
    unfold byteOf
    simp

/-- The two steps that fill a fresh page: every byte is the image's. -/
theorem loadPage_spec {endData tmp : Nat} (hz : ∀ k, k < 1024 → s.word (f * 1024 + k) = 0)
    (htmp : tmp % 4096 = 0) (hend : tmp < endData) :
    DataChange f s (loadPage T x tmp endData (f * 4096) s) ∧ ∀ off, off < 4096 →
        (loadPage T x tmp endData (f * 4096) s).byte (f * 4096 + off)
          = imageByte T x endData (tmp + off) := by
  unfold loadPage
  obtain ⟨hc, hb⟩ := clearTail_spec (f := f) (tmp + 4096 - endData) (f * 4096 + 4096)
    (breadPage (f * 4096) (fun i => T.fileBlock x (1 + tmp / 1024 + i)) s) (by omega) (by omega)
  have hc0 := breadPage_dataChange f (fun i => T.fileBlock x (1 + tmp / 1024 + i)) s
  refine ⟨⟨fun k hk => ?_, ?_, ?_⟩, fun off hoff => ?_⟩
  · rw [hc.out k hk, hc0.out k hk]
  · rw [hc.map, hc0.map]
  · rw [hc.high, hc0.high]
  · rw [hb, breadPage_byte _ hz hoff]
    unfold imageByte
    by_cases hlt : tmp + off < endData
    · rw [if_neg (by omega), if_pos hlt,
        show (tmp + off) / 1024 = tmp / 1024 + off / 1024 by omega,
        show (tmp + off) % 1024 / 4 = off % 1024 / 4 by omega,
        show (tmp + off) % 4 = off % 4 by omega, Nat.add_assoc]
    · rw [if_pos (by omega), if_neg hlt]

-- ======== do_no_page

/-- `get_free_page`, with out-of-memory when it returns 0. -/
theorem getFreePage_bind {s' : Mem} (h : (match getFreePage s with
      | none => .error .oom
      | some (page, s) => k page s) = Except.ok s') :
    ∃ page s1, getFreePage s = some (page, s1) ∧ k page s1 = .ok s' := by
  cases hg : getFreePage s with
  | none =>
    rw [hg] at h
    cases h
  | some x =>
    rw [hg] at h
    exact ⟨x.1, x.2, rfl, h⟩

theorem getFreePage_error {t : Trap} (h : (match getFreePage s with
      | none => .error .oom
      | some (page, s) => k page s) = Except.error t) :
    t = .oom ∨ ∃ page s1, getFreePage s = some (page, s1) ∧ k page s1 = .error t := by
  cases hg : getFreePage s with
  | none =>
    rw [hg] at h
    cases h
    exact .inl rfl
  | some x =>
    rw [hg] at h
    exact .inr ⟨x.1, x.2, rfl, h⟩

/-- The ways `do_no_page` ends when it returns. -/
inductive NoPage (lo hi : Nat) (T : Tasks) (cur : Nat) (current : Task)
    (address : Nat) (s : Mem) (s' : Mem) : Prop where
  | empty {page f : Nat} {s₁ : Mem} (hout : current.executable = none
        ∨ current.endData ≤ faultOffset current address) (hfresh : Fresh lo hi ∅ s page s₁ f)
      (hput : PagePut lo hi {f} s₁ (dirNr address) (pageNr address) f s') :
      NoPage lo hi T cur current address s s'
  | shared {x n : Nat} {p : Task} (hx : current.executable = some x)
      (hin : faultOffset current address < current.endData) (hcount : 2 ≤ T.iCount x)
      (hshare : SharedWith lo hi T cur current (faultOffset current address)
        s n p s') : NoPage lo hi T cur current address s s'
  | loaded {x page f : Nat} {s₁ s₂ : Mem} (hx : current.executable = some x)
      (hin : faultOffset current address < current.endData)
      (hnone : 2 ≤ T.iCount x → PassedOver T cur current
        (faultOffset current address) s (nrTasks - 1))
      (hfresh : Fresh lo hi ∅ s page s₁ f) (hdata : DataChange f s₁ s₂)
      (hbytes : ∀ off, off < 4096 → s₂.byte (f * 4096 + off) = imageByte T x current.endData
          (faultOffset current address + off))
      (hput : PagePut lo hi {f} s₂ (dirNr address) (pageNr address) f s') :
      NoPage lo hi T cur current address s s'

theorem dirNr_pageAddr : dirNr (pageAddr a) = dirNr a := by
  unfold dirNr pageAddr
  omega

theorem pageNr_pageAddr : pageNr (pageAddr a) = pageNr a := by
  unfold pageNr pageAddr
  omega

/-- Where a fault offset below the end of data lies: inside the task's
64 Mb, in its own slots, displaced by the task's base. -/
theorem TaskSpaces.fault_slots (hT : TaskSpaces T) (hcur : cur < nrTasks)
    (htask : T.task cur = some current) (haddr : address < 2 ^ 32)
    (hin : faultOffset current address < current.endData) :
    faultOffset current address < taskSize ∧ faultOffset current address % 4096 = 0
      ∧ dirNr (faultOffset current address) + 16 * cur = dirNr address
      ∧ pageNr (faultOffset current address) = pageNr address ∧ pageAddr address
        = cur * taskSize + faultOffset current address := by
  have hends := hT.ends cur current hcur htask
  unfold faultOffset at *
  rw [hT.base cur current hcur htask] at *
  unfold nrTasks at hcur
  unfold taskSize at *
  unfold dirNr pageNr
  unfold pageAddr at *
  omega

/-- `do_no_page`, when it returns. -/
theorem Paging.noPage_of_doNoPage (h : Paging lo hi ∅ s) (hT : TaskSpaces T)
    (hcur : cur < nrTasks) (htask : T.task cur = some current)
    (haddr : address < 2 ^ 32) (hi' : UserDir (dirNr address))
    (habs : ¬ present (pteAt s (dirNr address) (pageNr address))) (hroom : Room lo hi s)
    (hd : doNoPage T cur current address s = .ok s') : NoPage lo hi T cur current address s s' := by
  have hempty : getEmptyPage (pageAddr address) s = .ok s' → (current.executable = none
        ∨ current.endData ≤ faultOffset current address) →
      NoPage lo hi T cur current address s s' := by
    intro hg hout
    obtain ⟨page, f, s1, hf, hp, -⟩ := h.pagePut_of_getEmptyPage (by rw [dirNr_pageAddr]; exact hi')
      (by rw [dirNr_pageAddr, pageNr_pageAddr]; exact habs) hg
    rw [dirNr_pageAddr, pageNr_pageAddr] at hp
    exact .empty hout hf hp
  unfold doNoPage at hd
  simp only at hd
  split at hd
  · rename_i hx
    exact hempty hd (.inl hx)
  rename_i x hx
  split at hd
  · rename_i hge
    exact hempty hd (.inr hge)
  rename_i hlt
  have hin : faultOffset current address < current.endData :=
    not_le.mp hlt
  obtain ⟨hlt64, hal, hdir, -⟩ := hT.fault_slots hcur htask haddr hin
  obtain ⟨⟨b, s1⟩, hshare, hgo⟩ := bind_eq_ok hd
  have hcase := h.sharePage_cases hT hcur (hT.base cur current hcur htask) hlt64
    (by rw [hdir]; exact hi') hroom hx hshare
  rcases hcase with ⟨rfl, rfl, hnone⟩ | ⟨rfl, hcount, n, p, hsw⟩
  · simp only [Bool.false_eq_true, if_false] at hgo
    obtain ⟨page, s2, hfree, hgo⟩ := getFreePage_bind hgo
    obtain ⟨f, hf⟩ := h.fresh_of_getFreePage hfree
    rw [hf.addr] at hgo
    obtain ⟨hdata, hbytes⟩ := loadPage_spec hf.zero hal hin
    have hpg2 := hf.paging.dataChange hdata (hf.paging.held_notTable (Finset.mem_insert_self f ∅))
    generalize loadPage T x (faultOffset current address) current.endData
      (f * 4096) s2 = s3 at hgo hdata hbytes hpg2
    split at hgo
    · rename_i s4 hput
      cases hgo
      have hpp := hpg2.pagePut_of_putPage (by rw [dirNr_pageAddr]; exact hi') (by
          rw [dirNr_pageAddr, pageNr_pageAddr, hdata.pte_eq (hf.paging.held_notTable
              (Finset.mem_insert_self f ∅)) hi' (pageNr_lt address),
            hf.pte_eq hi' (pageNr_lt address)]
          exact habs)
        (Finset.mem_insert_self f ∅) hput
      rw [dirNr_pageAddr, pageNr_pageAddr] at hpp
      exact .loaded hx hin hnone hf hdata hbytes hpp
    · obtain ⟨s4, -, hgo⟩ := bind_eq_ok hgo
      cases hgo
  · cases hgo
    exact .shared hx hin hcount hsw

-- ======== what a fault leaves

/-- Slot `(a, b)` keeps its frame, its dirty bit and its contents: at
most W is gone. -/
def SlotKept (s s' : Mem) (a b : Nat) : Prop :=
  (pteAt s' a b = pteAt s a b ∨ pteAt s' a b = clearW (pteAt s a b)) ∧
    (OffDir (pteAt s a b) → ∀ k, k < 1024 → pageWord s' a b k = pageWord s a b k)

/-- A fresh page put in place, as other slots see it. -/
theorem PagePut.others {page : Nat} {s1 s2 : Mem}
    (hf : Fresh lo hi ∅ s page s1 f) (hd : DataChange f s1 s2)
    (hp : PagePut lo hi {f} s2 i j f s') (ha : UserDir a)
    (hb : b < 1024) (hne : ¬ (a = i ∧ b = j)) : SlotKept s s' a b := by
  have hnt := hf.paging.held_notTable (Finset.mem_insert_self f ∅)
  have hpte2 : pteAt s2 a b = pteAt s a b := by
    rw [hd.pte_eq hnt ha hb, hf.pte_eq ha hb]
  refine ⟨.inl (by rw [hp.other a b ha hb hne, hpte2]), fun hoff k hk => ?_⟩
  rw [hp.view a b k ha hb hk hne (by rw [hpte2]; exact hoff),
    hd.view hnt ha hb hk ?_, hf.view ha hb hk]
  intro hpr
  rw [hf.pte_eq ha hb] at hpr ⊢
  exact hf.ne_page ha hb hpr

/-- The slot a share fills: the source's entry without W. -/
theorem ShareHit.filled (h : Paging lo hi ∅ s)
    (hs : ShareHit lo hi s i j i' s') (hi' : UserDir i) (hj : j < 1024)
    (hi'' : UserDir i') : pteAt s' i' j = clearW (pteAt s i j) := by
  obtain ⟨-, -, -, s1, hcase, hsh⟩ := hs
  rw [hsh.dst, (h.tableKept hi'' hcase).pte i j hi' hj]

/-- A share, as seen by every slot but the one it fills. -/
theorem ShareHit.others (h : Paging lo hi ∅ s) (hs : ShareHit lo hi s i j i' s') (hi'' : UserDir i')
    (ha : UserDir a) (hb : b < 1024) (hne : ¬ (a = i' ∧ b = j)) : SlotKept s s' a b := by
  obtain ⟨-, -, -, s1, hcase, hsh⟩ := hs
  have hk := h.tableKept hi'' hcase
  constructor
  · by_cases hab : a = i ∧ b = j
    · obtain ⟨rfl, rfl⟩ := hab
      rw [hsh.src, hk.pte a b ha hb]
      exact .inr rfl
    · rw [hsh.other a b ha hb hab hne, hk.pte a b ha hb]
      exact .inl rfl
  · intro hoff k hk'
    rw [hsh.view a b k ha hb hk' hne]
    rcases hcase with ⟨-, rfl⟩ | ⟨-, ht⟩
    · rfl
    · exact ht.view a b k ha hb hk' hoff

/-- Every slot but the faulting one keeps its frame, its dirty bit and
its contents. -/
theorem NoPage.others (h : Paging lo hi ∅ s) (hT : TaskSpaces T)
    (hcur : cur < nrTasks) (htask : T.task cur = some current) (haddr : UserAddr address)
    (hn : NoPage lo hi T cur current address s s') (ha : UserDir a) (hb : b < 1024)
    (hne : ¬ (a = dirNr address ∧ b = pageNr address)) : SlotKept s s' a b := by
  cases hn with
  | empty _ hf hp => exact PagePut.others hf ⟨fun _ _ => rfl, rfl, rfl⟩ hp ha hb hne
  | loaded _ _ _ hf hd _ hp => exact PagePut.others hf hd hp ha hb hne
  | shared hx hin _ hsw =>
    obtain ⟨-, -, hdir, hpg, -⟩ := hT.fault_slots hcur htask haddr.2 hin
    have hhit := hsw.hit
    rw [hdir, hpg] at hhit
    exact hhit.others h haddr.dir ha hb hne

end LearnLinux.Mm
