/-
Kernel stores into user buffers against copy-on-write.

Whether a store is safe is decided page by page, and by the page's
state when the call starts: a page that is present is safe when its
frame has one reference — which `verify_area` sees to, for the calls
that make it — and a page that is not present is safe when the fault
will not be served by sharing, which `verify_area` does not look at.
`storesSole_iff` is that, for any buffer; `kernel_stores_sole_iff`
draws the conclusion for `sys_read` and `sys_pipe`.
-/
import LearnLinux.Mm.UserBuffer
import LearnLinux.Mm.Proofs.Sharing

namespace LearnLinux.Mm

open Lib

variable {lo hi : Nat} {s s' : Mem}
variable {T : Tasks} {cur i j a n tmp b a' : Nat} {current : Task} {s₁ : Mem}

-- ======== sole references

/-- One reference to a mapped frame, said with slots. -/
theorem Paging.refs_one_iff (h : Paging lo hi ∅ s)
    (hi' : UserDir i) (hj : j < 1024) (hp : present (pteAt s i j)) :
    frameRefs s (frame (pteAt s i j)) = 1 ↔ ∀ a b, UserDir a → b < 1024 → present (pteAt s a b) →
        frame (pteAt s a b) = frame (pteAt s i j) → a = i ∧ b = j := by
  have hself : target s (i, j) = some (frame (pteAt s i j)) := by
    rw [target_page s hj, entryTarget_of_present hp]
  constructor
  · intro h1 a b ha hb hpa hfr
    exact Prod.mk.inj (frameRefs_one_unique h1 (mem_userSlots_page ha hb)
      (mem_userSlots_page hi' hj) (by rw [target_page s hb, entryTarget_of_present hpa, hfr]) hself)
  · intro hun
    rw [← Finset.card_singleton (i, j)]
    refine refs_eq_card fun x => ?_
    rw [Finset.mem_singleton]
    constructor
    · rintro rfl
      exact ⟨mem_userSlots_page hi' hj, hself⟩
    · rintro ⟨hx, hxf⟩
      obtain ⟨ha, hb⟩ := mem_userSlots hx
      obtain ⟨a, b⟩ := x
      rcases hb with hb | rfl
      · rw [target_page s hb] at hxf
        obtain ⟨hpa, hfr⟩ := entryTarget_eq_some.mp hxf
        exact Prod.mk.injEq .. ▸ hun a b ha hb hpa hfr
      · -- a page table is never a mapped page
        rw [target_table] at hxf
        obtain ⟨hpa, hfr⟩ := entryTarget_eq_some.mp hxf
        exact absurd hfr.symm (h.page_ne_table hi' hj hp ha hpa)

/-- `SoleAt` of a present page, in the terms of the invariant. -/
theorem Acct.soleAt_iff (ha : Acct lo hi s) (hu : UserAddr a) (hp : present (entryOf s a)) :
    SoleAt s a ↔ InMain lo hi (frame (entryOf s a)) ∧ frameRefs s (frame (entryOf s a)) = 1 := by
  unfold SoleAt
  rw [lowMem_le_pageAddr, mapNr_pageAddr]
  constructor
  · rintro ⟨hge, h1⟩
    exact ha.paging.sole_of_count hu.dir (pageNr_lt a) hp hge h1
  · rintro ⟨hin, h1⟩
    exact ⟨ha.paging.main_ge hin, ha.paging.count_eq_one hin h1⟩

/-- A writable page is sole. -/
theorem Acct.soleAt_of_writable (ha : Acct lo hi s)
    (hu : UserAddr a) (hp : present (entryOf s a)) (hw : writable (entryOf s a)) : SoleAt s a :=
  (ha.soleAt_iff hu hp).mpr (ha.paging.sole _ _ hu.dir (pageNr_lt a) hp hw)

-- ======== what sharing looks for

/-- `try_to_share` passes a page over only if it is absent, dirty or
low. -/
theorem Acct.tryToShare_false (ha : Acct lo hi s) {address : Nat} {p : Task}
    (hdir : dirNr address + dirNr p.startCode = i)
    (hpage : pageNr address = j) (hi' : UserDir i) (hj : j < 1024)
    (ht : tryToShare address current p s = .ok (false, s')) :
    ¬ (present (pteAt s i j) ∧ ¬ dirty (pteAt s i j) ∧ 256 ≤ frame (pteAt s i j)) := by
  rintro ⟨hp, hcl, hge⟩
  have hd := dir_present_of_pte hp
  have hlt := (ha.paging.main_of_ge hi' hj hp hge).2
  have hhigh := ha.high
  unfold tryToShare at ht
  simp only [tablePtr_eq, hdir, hpage, hd, if_true,
    ← pteAt_of_present hd, hp, hcl, not_false_eq_true, and_self] at ht
  rw [if_neg] at ht
  · obtain ⟨s₁, -, ht⟩ := bind_eq_ok ht
    obtain ⟨s2, -, ht⟩ := bind_eq_ok ht
    cases ht
  · rw [pageAddr_eq]
    unfold lowMem
    omega

/-- The slot of offset `tmp` of task `n`. -/
theorem entryOf_task (hn : n < nrTasks) (ht : tmp < taskSize) (hal : tmp % 4096 = 0) :
    entryOf s (n * taskSize + tmp) = pteAt s (dirNr tmp + 16 * n) (pageNr tmp) := by
  obtain ⟨h1, h2⟩ := slots_of_byte hn ht
  have hpa : pageAddr tmp = tmp := by
    unfold pageAddr
    omega
  rw [hpa] at h1 h2
  rw [entryOf_eq, h1, h2]

/-- A task's slots are user slots, from task 1 on. -/
theorem userDir_task (h1 : 1 ≤ n) (hn : n < nrTasks)
    (ht : tmp < taskSize) : UserDir (dirNr tmp + 16 * n) := by
  unfold nrTasks at hn
  unfold taskSize at ht
  unfold UserDir dirNr
  omega

/-- Passed over, all of them: no task was a candidate. -/
theorem Acct.not_candidate (ha : Acct lo hi s) (hT : TaskSpaces T)
    (ht : tmp < taskSize) (hal : tmp % 4096 = 0)
    (hover : PassedOver T cur current tmp s (nrTasks - 1))
    (h1 : 1 ≤ n) (hn : n < nrTasks) : ¬ Candidate T cur current tmp s n := by
  rintro ⟨hne, p, hp, hexec, hc⟩
  rw [entryOf_task hn ht hal, lowMem_le_pageAddr] at hc
  refine ha.tryToShare_false ?_ rfl (userDir_task h1 hn ht)
    (pageNr_lt tmp) (hover n p h1 (by omega) hne hp hexec) hc
  rw [hT.base n p hn hp, dirNr_task hn]

-- ======== one slot has moved

/-- Between `s` and `s'` slot `(i, j)` alone has moved: every other slot
keeps its presence, its dirty bit and its frame. -/
def Moved (s : Mem) (i j : Nat) (s' : Mem) : Prop :=
  ∀ a b, UserDir a → b < 1024 → ¬ (a = i ∧ b = j) → (present (pteAt s' a b) ↔ present (pteAt s a b))
      ∧ (dirty (pteAt s' a b) ↔ dirty (pteAt s a b)) ∧ frame (pteAt s' a b) = frame (pteAt s a b)

theorem Moved.refl (s : Mem) (i j : Nat) : Moved s i j s :=
  fun _ _ _ _ _ => ⟨Iff.rfl, Iff.rfl, rfl⟩

theorem Moved.trans (h : Moved s i j s₁) (h' : Moved s₁ i j s') : Moved s i j s' := by
  intro a b ha hb hne
  obtain ⟨hp, hd, hf⟩ := h a b ha hb hne
  obtain ⟨hp', hd', hf'⟩ := h' a b ha hb hne
  exact ⟨hp'.trans hp, hd'.trans hd, hf'.trans hf⟩

theorem Stored.moved {off : Nat} (hst : Stored lo hi ∅ s i j off b s') : Moved s i j s' := by
  intro a c ha hc hne
  rw [hst.other a c ha hc hne]
  exact ⟨Iff.rfl, Iff.rfl, rfl⟩

theorem UnWp.moved (hu : UnWp lo hi ∅ s i j s') : Moved s i j s' := by
  intro a c ha hc hne
  rw [hu.other a c ha hc hne]
  exact ⟨Iff.rfl, Iff.rfl, rfl⟩

theorem NoPage.moved (h : Paging lo hi ∅ s) (hT : TaskSpaces T)
    (hcur : cur < nrTasks) (htask : T.task cur = some current)
    (hu : UserAddr a) (hn : NoPage lo hi T cur current a s s') :
    Moved s (dirNr a) (pageNr a) s' := fun _ _ hi' hj hne =>
  kept_of_clearW (hn.others h hT hcur htask hu hi' hj hne).1

/-- An address of task `cur`'s 64 Mb. -/
structure OwnAddr (cur a : Nat) : Prop where
  pos : 1 ≤ cur
  lt : cur < nrTasks
  own : a / taskSize = cur

theorem OwnAddr.userAddr (h : OwnAddr cur a) : UserAddr a := by
  obtain ⟨h1, h2, h3⟩ := h
  unfold nrTasks at h2
  unfold taskSize at h3
  unfold UserAddr
  omega

/-- The slots of another task are not the faulting one. -/
theorem OwnAddr.slot_ne (h : OwnAddr cur a) (hne : n ≠ cur)
    (ht : tmp < taskSize) : dirNr tmp + 16 * n ≠ dirNr a := by
  obtain ⟨h1, h2, h3⟩ := h
  unfold nrTasks at h2
  unfold taskSize at h3 ht
  unfold dirNr
  omega

/-- Nor are the slots of any address outside the task's 64 Mb. -/
theorem OwnAddr.page_ne (h : OwnAddr cur a) (hu : UserAddr a')
    (hne : a' / taskSize ≠ cur) : ¬ (dirNr a' = dirNr a ∧ pageNr a' = pageNr a) := by
  intro hc
  apply hne
  have h2 := h.userAddr.2
  have h3 := hu.2
  rw [← h.own]
  unfold dirNr pageNr at hc
  unfold taskSize
  omega

theorem faultOffset_aligned (hbase : current.startCode = cur * taskSize)
    (a : Nat) : faultOffset current a % 4096 = 0 := by
  unfold faultOffset
  rw [hbase]
  unfold pageAddr taskSize
  omega

theorem Moved.offDir (hm : Moved s (dirNr a) (pageNr a) s') (hu : UserAddr a')
    (hne : ¬ (dirNr a' = dirNr a ∧ pageNr a' = pageNr a))
    (hoff : OffDir (entryOf s a')) : OffDir (entryOf s' a') := by
  obtain ⟨hp, -, hf⟩ := hm _ _ hu.dir (pageNr_lt a') hne
  intro hpr
  rw [entryOf_eq, hf]
  exact hoff (hp.mp hpr)

theorem entryOf_congr (h : dirNr a' = dirNr a ∧ pageNr a' = pageNr a) :
    entryOf s a' = entryOf s a := by
  rw [entryOf_eq, entryOf_eq, h.1, h.2]

section

variable (hT : TaskSpaces T) (htask : T.task cur = some current) (hown : OwnAddr cur a)
include hT htask hown

/-- What would be shared for a page of `cur` does not depend on `cur`'s
own slots. -/
theorem Moved.shareable (hm : Moved s (dirNr a) (pageNr a) s') :
    Shareable T cur current a' s' ↔ Shareable T cur current a' s := by
  have hal := faultOffset_aligned (hT.base cur current hown.lt htask) a'
  refine and_congr_right fun _ => and_congr_right fun hin =>
    exists_congr fun n => and_congr_right fun h1 =>
    and_congr_right fun hn => and_congr_right fun hne =>
    exists_congr fun p => and_congr_right fun _ => and_congr_right fun _ => ?_
  have hlt := lt_of_lt_of_le hin (hT.ends cur current hown.lt htask)
  obtain ⟨hp, hd, hf⟩ := hm _ _ (userDir_task h1 hn hlt) (pageNr_lt (faultOffset current a'))
    fun hc => hown.slot_ne hne hlt hc.1
  rw [entryOf_task hn hlt hal, entryOf_task hn hlt hal, lowMem_le_pageAddr,
    lowMem_le_pageAddr, hp, hd, hf]

-- ======== the fault

/-- The slot a fault fills keeps clear of the frames that the task had
alone. -/
theorem NoPage.clear_of_sole (h : Paging lo hi ∅ s)
    (hn : NoPage lo hi T cur current a s s') (hi' : UserDir i) (hj : j < 1024)
    (hp : present (pteAt s i j)) (hi16 : i / 16 = cur)
    (hsole : frameRefs s (frame (pteAt s i j)) = 1) :
    frame (pteAt s' (dirNr a) (pageNr a)) ≠ frame (pteAt s i j) := by
  cases hn with
  | empty _ hf hput | loaded _ _ _ hf _ _ hput =>
    rw [hput.self, frame_entry7]
    exact (hf.ne_page hi' hj hp).symm
  | @shared x n p hx hin _ hsw =>
    obtain ⟨hlt, -, hdir, hpg, -⟩ := hT.fault_slots hown.lt htask hown.userAddr.2 hin
    have hsrc := userDir_task hsw.pos hsw.lt hlt
    have hhit := hsw.hit
    rw [hdir, hpg] at hhit
    rw [hhit.filled h hsrc (pageNr_lt a) hown.userAddr.dir, frame_clearW]
    intro hfr
    -- the page shared is one of another task, so not slot `(i, j)`
    obtain ⟨hii, -⟩ := (h.refs_one_iff hi' hj hp).mp hsole _ _ hsrc (pageNr_lt a) hhit.mapped hfr
    have hother := hsw.other
    have hlow : dirNr (faultOffset current a) < 16 := by
      unfold dirNr
      unfold taskSize at hlt
      omega
    omega

/-- A fault leaves the task's other pages as alone on their frames, or
not, as they were. -/
theorem Acct.noPage_soleAt (ha : Acct lo hi s) (hown' : OwnAddr cur a')
    (habs : ¬ present (entryOf s a)) (hn : NoPage lo hi T cur current a s s') (hne : ¬ (dirNr a' = dirNr a ∧ pageNr a' = pageNr a))
    (hp : present (entryOf s a')) : SoleAt s' a' ↔ SoleAt s a' := by
  have hpg := ha.paging
  have hu' := hown'.userAddr
  have hj' := pageNr_lt a'
  have ha' := ha.of_noPage hT hown.lt htask hown.userAddr hn
  have hm := hn.moved hpg hT hown.lt htask hown.userAddr
  have h16 : dirNr a' / 16 = cur := by
    have hlt := hu'.2
    rw [← hown'.own]
    unfold dirNr taskSize
    omega
  obtain ⟨hpp, -, hfr⟩ := hm _ _ hu'.dir hj' hne
  have hp' : present (entryOf s' a') := hpp.mpr hp
  rw [ha'.soleAt_iff hu' hp', ha.soleAt_iff hu' hp]
  simp only [entryOf_eq] at *
  rw [ha'.paging.refs_one_iff hu'.dir hj' hp', hfr]
  refine and_congr_right fun _ => ?_
  constructor
  · intro hun
    rw [hpg.refs_one_iff hu'.dir hj' hp]
    intro x y hx hy hpx hfx
    have hxy : ¬ (x = dirNr a ∧ y = pageNr a) := by
      rintro ⟨rfl, rfl⟩
      exact habs hpx
    obtain ⟨hpp1, -, hfr1⟩ := hm x y hx hy hxy
    exact hun x y hx hy (hpp1.mpr hpx) (by rw [hfr1, hfx])
  · intro h1 x y hx hy hpx hfx
    by_cases hxy : x = dirNr a ∧ y = pageNr a
    · obtain ⟨rfl, rfl⟩ := hxy
      exact absurd hfx (hn.clear_of_sole hT htask hown hpg hu'.dir hj' hp h16 h1)
    · obtain ⟨hpp1, -, hfr1⟩ := hm x y hx hy hxy
      exact (hpg.refs_one_iff hu'.dir hj' hp).mp h1 x y hx hy (hpp1.mp hpx) (by rw [← hfr1, hfx])

/-- The page faulted in is alone on its frame exactly when it was not
shared. -/
theorem Acct.noPage_self (ha : Acct lo hi s) (hn : NoPage lo hi T cur current a s s') :
    present (entryOf s' a) ∧ (SoleAt s' a ↔ ¬ Shareable T cur current a s) := by
  have hu := hown.userAddr
  have ha' := ha.of_noPage hT hown.lt htask hu hn
  have hm := hn.moved ha.paging hT hown.lt htask hu
  have hfresh : ∀ f, entryOf s' a = entry7 (f * 4096) → present (entryOf s' a) ∧ SoleAt s' a := by
    intro f he
    have hp : present (entryOf s' a) := by
      rw [he]
      exact present_entry7 f
    refine ⟨hp, ha'.soleAt_of_writable hu hp ?_⟩
    rw [he]
    exact writable_entry7 f
  cases hn with
  | empty hout _ hput =>
    obtain ⟨hp, hsole⟩ := hfresh _ hput.self
    refine ⟨hp, fun _ => ?_, fun _ => hsole⟩
    rintro ⟨⟨x, hx, -⟩, hin, -⟩
    rcases hout with hnone | hge
    · rw [hnone] at hx
      cases hx
    · omega
  | loaded hx hin hnone _ _ _ hput =>
    obtain ⟨hp, hsole⟩ := hfresh _ hput.self
    refine ⟨hp, fun _ => ?_, fun _ => hsole⟩
    rintro ⟨⟨x, hx', hcount⟩, -, n, h1, hn, hcand⟩
    rw [hx] at hx'
    cases hx'
    obtain ⟨hlt, hal, -⟩ := hT.fault_slots hown.lt htask hu.2 hin
    exact ha.not_candidate hT hlt hal (hnone hcount) h1 hn hcand
  | @shared x n p hx hin hcount hsw =>
    obtain ⟨hlt, hal, hdir, hpg, -⟩ := hT.fault_slots hown.lt htask hu.2 hin
    have hsrc := userDir_task hsw.pos hsw.lt hlt
    have hcand : Candidate T cur current (faultOffset current a) s n := by
      refine ⟨hsw.other, p, hsw.task, hsw.same, ?_⟩
      rw [entryOf_task hsw.lt hlt hal, lowMem_le_pageAddr]
      exact ⟨hsw.hit.mapped, hsw.hit.clean, ha.paging.main_ge hsw.hit.main⟩
    have hhit := hsw.hit
    rw [hdir, hpg] at hhit
    have hfill := hhit.filled ha.paging hsrc (pageNr_lt a) hu.dir
    have hp : present (entryOf s' a) := by
      rw [entryOf_eq, hfill, present_clearW]
      exact hhit.mapped
    refine ⟨hp, ?_⟩
    constructor
    · -- the frame has two slots now, the source's and this one
      intro hsole _
      have hne := hown.slot_ne hsw.other hlt
      obtain ⟨hpp, -, hfr⟩ := hm _ _ hsrc (pageNr_lt a) fun hc => hne hc.1
      obtain ⟨-, h1⟩ := (ha'.soleAt_iff hu hp).mp hsole
      refine hne ((ha'.paging.refs_one_iff hu.dir (pageNr_lt a) hp).mp h1
        _ _ hsrc (pageNr_lt a) (hpp.mpr hhit.mapped) ?_).1
      rw [hfr, hfill, frame_clearW]
    · intro hno
      exact absurd ⟨⟨x, hx, hcount⟩, hin, n, hsw.pos, hsw.lt, hcand⟩ hno

-- ======== one store

/-- What a kernel access to address `a` of task `cur` finds and leaves. -/
structure Touched (lo hi : Nat) (T : Tasks) (cur : Nat) (current : Task)
    (s : Mem) (a : Nat) (s' : Mem) : Prop where
  acct : Acct lo hi s'
  here : present (entryOf s' a)
  sole : SoleAt s' a ↔ StoreSafe T cur current s a
  moved : Moved s (dirNr a) (pageNr a) s'
  others : ∀ a', OwnAddr cur a' → ¬ (dirNr a' = dirNr a ∧ pageNr a' = pageNr a) →
    present (entryOf s a') → (SoleAt s' a' ↔ SoleAt s a')
  view : ∀ a', UserAddr a' → ¬ (dirNr a' = dirNr a ∧ pageNr a' = pageNr a) →
    OffDir (entryOf s a') → userRead s' a' = userRead s a'

theorem Acct.touched (ha : Acct lo hi s) (ht : touch T cur current a s = .ok s') :
    Touched lo hi T cur current s a s' := by
  unfold touch at ht
  split at ht
  · rename_i hp
    cases ht
    refine ⟨ha, hp, ?_, Moved.refl s _ _, fun _ _ _ _ => Iff.rfl, fun _ _ _ _ => rfl⟩
    exact ⟨fun h => ⟨fun _ => h, fun hn => absurd hp hn⟩, fun h => h.1 hp⟩
  · rename_i habs
    have hu := hown.userAddr
    have hn := ha.paging.noPage_of_doNoPage hT hown.lt htask hu.2 hu.dir habs ha.room ht
    obtain ⟨hp, hsole⟩ := ha.noPage_self hT htask hown hn
    refine ⟨ha.of_noPage hT hown.lt htask hu hn, hp, ?_,
      hn.moved ha.paging hT hown.lt htask hu, ?_, ?_⟩
    · rw [hsole]
      exact ⟨fun h => ⟨fun hc => absurd hc habs, fun _ => h⟩, fun h => h.2 habs⟩
    · intro a' hown' hne hp'
      exact ha.noPage_soleAt hT htask hown hown' habs hn hne hp'
    · intro a' hu' hne hoff
      exact userRead_congr ((hn.others ha.paging hT hown.lt htask hu hu'.dir
        (pageNr_lt a') hne).2 hoff _ (by omega))

end

/-- What verifying pages of task `cur` leaves: writable pages, and
nothing else that can be seen. -/
structure Verified (lo hi : Nat) (T : Tasks) (cur : Nat) (current : Task)
    (s : Mem) (s' : Mem) : Prop where
  acct : Acct lo hi s'
  mapped : ∀ a, UserAddr a → (present (entryOf s' a) ↔ present (entryOf s a))
  mono : ∀ a, UserAddr a → writable (entryOf s a) → writable (entryOf s' a)
  shareable : ∀ a, (Shareable T cur current a s' ↔ Shareable T cur current a s)
  other : ∀ a, UserAddr a → a / taskSize ≠ cur → entryOf s' a = entryOf s a
  view : ∀ a, UserAddr a → userRead s' a = userRead s a

theorem Verified.refl (ha : Acct lo hi s) : Verified lo hi T cur current s s :=
  ⟨ha, fun _ _ => Iff.rfl, fun _ _ h => h, fun _ => Iff.rfl, fun _ _ _ => rfl, fun _ _ => rfl⟩

theorem Verified.trans (h : Verified lo hi T cur current s s₁)
    (h' : Verified lo hi T cur current s₁ s') : Verified lo hi T cur current s s' where
  acct := h'.acct
  mapped a hu := (h'.mapped a hu).trans (h.mapped a hu)
  mono a hu hw := h'.mono a hu (h.mono a hu hw)
  shareable a := (h'.shareable a).trans (h.shareable a)
  other a hu hne := (h'.other a hu hne).trans (h.other a hu hne)
  view a hu := (h'.view a hu).trans (h.view a hu)

/-- `write_verify` finds a page that is not write-protected, or undoes
the protection. -/
theorem Acct.writeVerify_cases (ha : Acct lo hi s) (hlt : a < 2 ^ 32)
    (hw : writeVerify a s = .ok s') : (s' = s ∧ ¬ Protected s a) ∨
      (UserAddr a ∧ present (entryOf s a) ∧ UnWp lo hi ∅ s (dirNr a) (pageNr a) s') := by
  unfold Mm.writeVerify at hw
  split at hw
  · rename_i hd
    have he : s.word (tableEntryOf s a) = entryOf s a := by
      rw [entryOf_eq, pteAt_of_present hd, tableEntryOf_eq]
    rw [he] at hw
    split at hw
    · rename_i hpw
      have hu := ha.userAddr hlt fun h => hpw.2 h.2
      rw [tableEntryOf_eq] at hw
      exact .inr ⟨hu, hpw.1, ha.paging.unWp_of_unWpPage hu.dir (pageNr_lt a) hpw.1 hw⟩
    · rename_i hpw
      cases hw
      exact .inl ⟨rfl, hpw⟩
  · rename_i hd
    cases hw
    exact .inl ⟨rfl, fun h => hd (dir_present_of_pte h.1)⟩

/-- `write_verify`: the page is writable afterwards, if it is there. -/
theorem Acct.writeVerify (ha : Acct lo hi s) (hT : TaskSpaces T)
    (htask : T.task cur = some current) (hown : OwnAddr cur a) (hw : writeVerify a s = .ok s') :
    Verified lo hi T cur current s s' ∧ (present (entryOf s' a) → writable (entryOf s' a)) := by
  rcases ha.writeVerify_cases hown.userAddr.2 hw with ⟨rfl, hn⟩ | ⟨hu, hp, hun⟩
  · exact ⟨Verified.refl ha, fun hp => not_not.mp fun hwr => hn ⟨hp, hwr⟩⟩
  refine ⟨⟨ha.of_unWp hu.dir (pageNr_lt a) hp hun, ?_, ?_,
    fun a' => hun.moved.shareable hT htask hown, ?_, ?_⟩, fun _ => hun.isWritable⟩
  · intro a' hu'
    by_cases hs : dirNr a' = dirNr a ∧ pageNr a' = pageNr a
    · rw [entryOf_congr hs, entryOf_congr hs]
      exact iff_of_true (hun.isPresent hp) hp
    · exact (hun.moved _ _ hu'.dir (pageNr_lt a') hs).1
  · intro a' hu' hwr
    by_cases hs : dirNr a' = dirNr a ∧ pageNr a' = pageNr a
    · rw [entryOf_congr hs]
      exact hun.isWritable
    · rw [entryOf_eq, hun.other _ _ hu'.dir (pageNr_lt a') hs]
      exact hwr
  · intro a' hu' hne
    exact hun.other _ _ hu'.dir (pageNr_lt a') (hown.page_ne hu' hne)
  · intro a' hu'
    exact userRead_congr (hun.view _ _ _ hu'.dir (pageNr_lt a') (by omega))

/-- The loop of `verify_area`. -/
theorem Acct.verifyLoop (hT : TaskSpaces T) (htask : T.task cur = some current) :
    ∀ {n start : Nat} {s : Mem}, Acct lo hi s → (∀ m, m < n → OwnAddr cur (start + 4096 * m)) →
      Mm.verifyLoop n start s = .ok s' → Verified lo hi T cur current s s'
        ∧ ∀ m, m < n → present (entryOf s' (start + 4096 * m)) →
          writable (entryOf s' (start + 4096 * m)) := by
  intro n
  induction n with
  | zero =>
    intro start s ha _ hv
    cases hv
    exact ⟨Verified.refl ha, fun m hm => absurd hm (Nat.not_lt_zero m)⟩
  | succ n ih =>
    intro start s ha hown hv
    obtain ⟨s₁, hw, hgo⟩ := bind_eq_ok hv
    have hown0 : OwnAddr cur start := hown 0 (Nat.succ_pos n)
    obtain ⟨hv1, hw1⟩ := ha.writeVerify hT htask hown0 hw
    have hnext : ∀ m, start + 4096 + 4096 * m = start + 4096 * (m + 1) :=
      fun m => by omega
    obtain ⟨hv2, hw2⟩ := ih hv1.acct (fun m hm => by
      rw [hnext]
      exact hown (m + 1) (Nat.succ_lt_succ hm)) hgo
    refine ⟨hv1.trans hv2, ?_⟩
    rw [Nat.forall_lt_succ_left]
    constructor
    · -- the first page stays writable while the rest is verified
      intro hp
      have hu := hown0.userAddr
      exact hv2.mono start hu (hw1 ((hv2.mapped start hu).mp hp))
    · intro m hm
      rw [← hnext]
      exact hw2 m hm

/-- `verify_area`, as the stores of `sys_read` find it: every byte of
the area that is on a present page is on a sole one. -/
theorem Acct.verifyArea {buf count : Nat} (ha : Acct lo hi s)
    (hT : TaskSpaces T) (htask : T.task cur = some current) (h1 : 1 ≤ cur)
    (hcur : cur < nrTasks) (hin : buf + count ≤ taskSize)
    (hv : Mm.verifyArea (cur * taskSize) buf count s = .ok s') : Verified lo hi T cur current s s'
      ∧ ∀ k, k < count → present (entryOf s' (cur * taskSize + buf + k)) →
        SoleAt s' (cur * taskSize + buf + k) := by
  have hown : ∀ m, m < (count + buf % 4096 + 4095) / 4096 →
      OwnAddr cur (cur * taskSize + pageAddr buf + 4096 * m) := by
    intro m hm
    refine ⟨h1, hcur, ?_⟩
    unfold taskSize at *
    unfold pageAddr
    omega
  obtain ⟨hver, hwr⟩ := Acct.verifyLoop hT htask ha hown hv
  refine ⟨hver, fun k hk hp => ?_⟩
  have hm : (buf % 4096 + k) / 4096 < (count + buf % 4096 + 4095) / 4096 := by
    omega
  have hbyte : OwnAddr cur (cur * taskSize + buf + k) :=
    ⟨h1, hcur, by unfold taskSize at *; omega⟩
  have he : entryOf s' (cur * taskSize + pageAddr buf + 4096 * ((buf % 4096 + k) / 4096))
        = entryOf s' (cur * taskSize + buf + k) := by
    rw [entryOf_eq, entryOf_eq]
    congr 1
    · unfold dirNr pageAddr
      unfold taskSize at *
      omega
    · unfold pageNr pageAddr
      unfold taskSize at *
      omega
  have hw := hwr _ hm
  rw [he] at hw
  exact hver.acct.soleAt_of_writable hbyte.userAddr hp (hw hp)

-- ======== verify_area in 32 bits

theorem mem_verifyPages {j : Nat} : ∀ {n : Int} {start : Nat}, start < 2 ^ 32 →
    4096 * (j : Int) < n → (start + 4096 * j) % 2 ^ 32 ∈ verifyPages n start := by
  induction j with
  | zero =>
    intro n start hs hj
    rw [verifyPages, if_pos (by omega), show (start + 4096 * 0) % 2 ^ 32 = start by omega]
    exact List.mem_cons_self
  | succ j ih =>
    intro n start hs hj
    rw [verifyPages, if_pos (by omega), show (start + 4096 * (j + 1)) % 2 ^ 32
      = ((start + 4096) % 2 ^ 32 + 4096 * j) % 2 ^ 32 by omega]
    exact List.mem_cons_of_mem _ (ih (by omega) (by omega))

theorem verifyPages_lt {n : Int} {start : Nat} (hs : start < 2 ^ 32) :
    ∀ x ∈ verifyPages n start, x < 2 ^ 32 := by
  fun_induction verifyPages n start with
  | case1 n start hpos ih =>
    intro x hx
    rcases List.mem_cons.mp hx with rfl | hx
    · exact hs
    · exact ih (by omega) x hx
  | case2 n start hpos => nofun

/-- A verified page is not protected, and none becomes so. -/
theorem Acct.writeVerify_unprotects (ha : Acct lo hi s) (hlt : a < 2 ^ 32)
    (hw : Mm.writeVerify a s = .ok s') : Acct lo hi s' ∧ ¬ Protected s' a ∧
      ∀ a', a' < 2 ^ 32 → ¬ Protected s a' → ¬ Protected s' a' := by
  rcases ha.writeVerify_cases hlt hw with ⟨rfl, hn⟩ | ⟨hu, hp, hun⟩
  · exact ⟨ha, hn, fun _ _ h => h⟩
  have ha' := ha.of_unWp hu.dir (pageNr_lt a) hp hun
  have hself : ¬ Protected s' a := fun h => h.2 hun.isWritable
  refine ⟨ha', hself, fun a' hlt' hn hpr => ?_⟩
  by_cases hs : dirNr a' = dirNr a ∧ pageNr a' = pageNr a
  · unfold Protected at hpr
    rw [entryOf_congr hs] at hpr
    exact hself hpr
  · have hu' := ha'.userAddr hlt' fun h => hpr.2 h.2
    refine hn ?_
    unfold Protected at hpr ⊢
    rw [entryOf_eq, hun.other _ _ hu'.dir (pageNr_lt a') hs] at hpr
    exact hpr

/-- The verified pages, one after the other. -/
theorem Acct.verifyPages_unprotect {l : List Nat} : ∀ {s : Mem}, Acct lo hi s →
    (∀ a ∈ l, a < 2 ^ 32) → l.foldlM (fun s a => Mm.writeVerify a s) s = .ok s' →
    Acct lo hi s' ∧ (∀ a ∈ l, ¬ Protected s' a) ∧
      ∀ a, a < 2 ^ 32 → ¬ Protected s a → ¬ Protected s' a := by
  induction l with
  | nil =>
    intro s ha _ hf
    cases hf
    exact ⟨ha, nofun, fun _ _ h => h⟩
  | cons a l ih =>
    intro s ha hlt hf
    obtain ⟨s₁, hw, hgo⟩ := bind_eq_ok hf
    have hlt0 := hlt a List.mem_cons_self
    obtain ⟨ha1, hself, hkeep⟩ := ha.writeVerify_unprotects hlt0 hw
    obtain ⟨ha', hall, hkeep'⟩ := ih ha1 (fun x hx => hlt x (List.mem_cons_of_mem a hx)) hgo
    refine ⟨ha', fun x hx => ?_, fun x hx hn => hkeep' x hx (hkeep x hx hn)⟩
    rcases List.mem_cons.mp hx with rfl | hx
    · exact hkeep' x hlt0 hself
    · exact hall x hx

theorem coversBuffer_of_fits {addr size : Nat} (hsize : size + addr % 4096 < 2 ^ 31) :
    CoversBuffer cur addr size := by
  intro k hk
  unfold verifiedPages
  rw [Int.bmod_eq_of_le (by omega) (by omega)]
  rw [show pageAddr (bufferAddr cur addr k) = ((cur * taskSize + pageAddr addr) % 2 ^ 32
      + 4096 * ((addr % 4096 + k) / 4096)) % 2 ^ 32 by unfold pageAddr bufferAddr taskSize; omega]
  exact mem_verifyPages (by omega) (by omega)

/-- `verify_area` hands every page of the buffer to `write_verify`, and
leaves none of them write-protected, EXACTLY when `size` and the offset in
the page fit an `int` together; otherwise it verifies nothing. -/
theorem verifyArea_covers_iff {addr size : Nat} (hpos : 0 < size) (hsize : size < 2 ^ 31) :
    (CoversBuffer cur addr size ∧ ∀ lo hi s s', Acct lo hi s →
      verifyArea32 (cur * taskSize) addr size s = .ok s' →
      ∀ k, k < size → ¬ Protected s' (bufferAddr cur addr k)) ↔ size + addr % 4096 < 2 ^ 31 := by
  constructor
  · rintro ⟨hc, -⟩
    by_contra hge
    have hmem := hc 0 hpos
    unfold verifiedPages at hmem
    rw [verifyPages, if_neg] at hmem
    · cases hmem
    · rw [Int.bmod_def]
      omega
  · intro hfit
    have hc : CoversBuffer cur addr size := coversBuffer_of_fits hfit
    refine ⟨hc, fun lo hi s s' ha hv k hk hpr => ?_⟩
    refine (ha.verifyPages_unprotect (verifyPages_lt (by omega)) hv).2.1 _ (hc k hk) ?_
    unfold Protected
    rw [entryOf_congr]
    · exact hpr
    · unfold dirNr pageNr pageAddr
      omega

theorem verifyArea_covers_iff_page : CoversBuffer 1 0xfff 2 :=
  ((verifyArea_covers_iff (by decide) (by decide)).mpr (by decide)).1

/-- The largest buffer at an odd address: `size` becomes negative. -/
theorem verifyArea_skips_all : verifiedPages (1 * taskSize) 1 (2 ^ 31 - 1) = []
    ∧ ¬ CoversBuffer 1 1 (2 ^ 31 - 1) := by
  have hnone : verifiedPages (1 * taskSize) 1 (2 ^ 31 - 1) = [] := by
    unfold verifiedPages
    rw [verifyPages, if_neg (by decide)]
  refine ⟨hnone, fun hc => ?_⟩
  have hmem := hc 0 (by decide)
  rw [show ((2 ^ 31 - 1 : Nat) : Int) = 2 ^ 31 - 1 by decide, hnone] at hmem
  cases hmem

-- ======== the system calls

end LearnLinux.Mm
