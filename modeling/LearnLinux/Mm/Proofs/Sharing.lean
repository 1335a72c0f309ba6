/-
Demand sharing and the pages it shares.

`try_to_share` takes "clean" to mean "as loaded". The invariant under
which that is right is `Pristine`: a present, clean, unmarked page of
an executable reads as the executable's image. Every step keeps it as
long as the steps are careful — no fault shares a laundered page, no
kernel store writes a page with other references — and then every page
`do_no_page` maps is the image (`noPage_maps_image`).

Without care it fails. `un_wp_page` enters its copy as `new_page | 7`,
so a modified page becomes clean by being copied; a system call that
verifies a buffer and then stores nothing leaves it so, and the next
fault of another task shares the modification
(`laundered_page_is_shared`).
-/
import LearnLinux.Mm.Sharing
import LearnLinux.Mm.Proofs.Accounting

namespace LearnLinux.Mm

open Lib

variable {lo hi n b x a v w cur c pr size : Nat} {s s' : Sys} {T : Tasks} {p q : Task} {m m' : Mem}

-- ======== the invariant

/-- What the task table keeps. -/
structure TablesOk (T : Tasks) : Prop where
  spaces : TaskSpaces T
  image : ∀ n p m q, T.task n = some p → T.task m = some q →
    p.executable = q.executable → p.executable ≠ none → p.endData = q.endData
  first : ∀ p, T.task 0 = some p → p.executable = none

/-- The page behind linear address `a` may be shared: present, clean,
not laundered. -/
def Clean (s : Sys) (a : Nat) : Prop :=
  present (entryOf s.mem a) ∧ ¬ dirty (entryOf s.mem a) ∧ s.laundered (dirNr a) (pageNr a) = false

/-- Byte `b` of task `n`, which runs `x`: in a page that holds part of
the image. -/
structure ImageByte (T : Tasks) (n : Nat) (p : Task) (x b : Nat) : Prop where
  lt : n < nrTasks
  task : T.task n = some p
  exec : p.executable = some x
  inside : b < taskSize
  loaded : pageAddr b < p.endData

/-- The invariant of careful runs. -/
structure Pristine (lo hi : Nat) (s : Sys) : Prop where
  acct : Acct lo hi s.mem
  tables : TablesOk s.tasks
  main : ∀ n p x b, ImageByte s.tasks n p x b → present (entryOf s.mem (n * taskSize + b)) →
    InMain lo hi (frame (entryOf s.mem (n * taskSize + b)))
  clean : ∀ n p x b, ImageByte s.tasks n p x b → Clean s (n * taskSize + b) →
    userRead s.mem (n * taskSize + b) = some (imageByte s.tasks x p.endData b)

/-- A byte of a task that runs an executable is at a user address. -/
theorem ImageByte.userAddr (hT : TablesOk T)
    (h : ImageByte T n p x b) : UserAddr (n * taskSize + b) := by
  have hn : n ≠ 0 := by
    rintro rfl
    have := hT.first p h.task
    rw [h.exec] at this
    cases this
  have h1 : n < 64 := h.lt
  have h2 := h.inside
  unfold taskSize at *
  exact ⟨by omega, by omega⟩

/-- The slots of byte `b` of task `n`. -/
theorem slots_of_byte (hn : n < nrTasks) (hb : b < taskSize) :
    dirNr (n * taskSize + b) = dirNr (pageAddr b) + 16 * n
      ∧ pageNr (n * taskSize + b) = pageNr (pageAddr b) := by
  unfold nrTasks at hn
  unfold taskSize at *
  unfold dirNr pageNr pageAddr
  omega

theorem dirNr_pageAddr_lt (hb : b < taskSize) : dirNr (pageAddr b) < 16 := by
  unfold taskSize at hb
  unfold dirNr pageAddr
  omega

theorem pageAddr_idem : pageAddr (pageAddr b) = pageAddr b := by
  unfold pageAddr
  omega

theorem pageAddr_lt_task (hb : b < taskSize) : pageAddr b < taskSize := by
  unfold pageAddr
  omega

/-- Two addresses with the same slots lie in the same page. -/
theorem samePage_of_slots (hn : n < nrTasks) (hb : b < taskSize) (ha : a < 2 ^ 32)
    (h1 : dirNr (n * taskSize + b) = dirNr a) (h2 : pageNr (n * taskSize + b) = pageNr a) :
    pageAddr a = n * taskSize + pageAddr b := by
  unfold nrTasks at hn
  unfold taskSize at *
  unfold dirNr at h1
  unfold pageNr at h2
  unfold pageAddr
  omega

/-- What the invariant asks of a byte `v` of an image, at address `a`. -/
def ByteOk (lo hi : Nat) (s : Sys) (a v : Nat) : Prop :=
  InMain lo hi (frame (entryOf s.mem a)) ∧ (Clean s a → userRead s.mem a = some v)

theorem Pristine.of_bytes (ha : Acct lo hi s.mem) (hT : TablesOk s.tasks)
    (h : ∀ n p x b, ImageByte s.tasks n p x b → present (entryOf s.mem (n * taskSize + b)) →
      ByteOk lo hi s (n * taskSize + b) (imageByte s.tasks x p.endData b)) : Pristine lo hi s :=
  ⟨ha, hT, fun n p x b hb hp => (h n p x b hb hp).1, fun n p x b hb hc => (h n p x b hb hc.1).2 hc⟩

section

variable (hs : Pristine lo hi s) (hb : ImageByte s.tasks n p x b)
include hs hb

theorem Pristine.byteOk (hp : present (entryOf s.mem (n * taskSize + b))) :
    ByteOk lo hi s (n * taskSize + b) (imageByte s.tasks x p.endData b) :=
  ⟨hs.main n p x b hb hp, hs.clean n p x b hb⟩

/-- The page of an image byte is no page directory. -/
theorem Pristine.offDir : OffDir (entryOf s.mem (n * taskSize + b)) := by
  intro hp
  have := hs.acct.paging.main_ge (hs.main n p x b hb hp)
  omega

/-- The part of a step that does not concern the byte: its slot and its
mark stay. -/
theorem Pristine.kept
    (hk : SlotKept s.mem s'.mem (dirNr (n * taskSize + b)) (pageNr (n * taskSize + b)))
    (hmark : s'.laundered (dirNr (n * taskSize + b)) (pageNr (n * taskSize + b))
      = s.laundered (dirNr (n * taskSize + b)) (pageNr (n * taskSize + b)))
    (hp : present (entryOf s'.mem (n * taskSize + b))) :
    ByteOk lo hi s' (n * taskSize + b) (imageByte s.tasks x p.endData b) := by
  have h := hs.byteOk hb
  have hread := userRead_congr (hk.2 (hs.offDir hb) _ (by omega))
  obtain ⟨hpp, hd, hf⟩ := kept_of_clearW hk.1
  unfold ByteOk Clean at h ⊢
  rw [hread, hmark, entryOf_eq, hpp, hd, hf]
  exact h (hpp.mp hp)

end

-- ======== write protection

/-- `un_wp_page`: a copy of a dirty page is marked, any other keeps its
contents and its reading. -/
theorem Pristine.unWp (hs : Pristine lo hi s) (hw : UserAddr w)
    (hp : present (entryOf s.mem w)) (hu : s.unWp w = some s') : Pristine lo hi s' := by
  unfold Sys.unWp at hu
  split at hu
  · cases hu
  rename_i m hdo
  cases hu
  have hun := hs.acct.paging.unWp_of_unWpPage hw.dir (pageNr_lt w) hp hdo
  refine Pristine.of_bytes (hs.acct.of_unWp hw.dir (pageNr_lt w) hp hun) hs.tables ?_
  intro n p x b hb hpr
  have hua := hb.userAddr hs.tables
  have hread : userRead m (n * taskSize + b) = userRead s.mem (n * taskSize + b) :=
    userRead_congr (hun.view _ _ _ hua.dir (pageNr_lt _) (by omega))
  by_cases hslot : dirNr (n * taskSize + b) = dirNr w ∧ pageNr (n * taskSize + b) = pageNr w
  · have heq : ∀ m : Mem, entryOf m (n * taskSize + b) = entryOf m w := by
      intro m
      rw [entryOf_eq, entryOf_eq, hslot.1, hslot.2]
    constructor
    · rw [heq]
      rcases hun.self with ⟨-, -, he⟩ | ⟨-, f, hin, -, he⟩
      · rw [entryOf_eq, he, frame_setW, ← entryOf_eq, ← heq]
        exact hs.main n p x b hb (by rw [heq]; exact hp)
      · rw [entryOf_eq, he, frame_entry7]
        exact hin
    · rintro ⟨-, hcl, hmark⟩
      rw [heq] at hcl
      -- a dirty entry that became clean would carry the mark
      have hold : ¬ dirty (entryOf s.mem w) := by
        intro hd
        have : (true : Bool) = false := by
          rw [← hmark]
          exact (if_pos ⟨hslot.1, hslot.2, hd, hcl⟩).symm
        cases this
      have hmark0 : s.laundered (dirNr (n * taskSize + b)) (pageNr (n * taskSize + b)) = false := by
        rw [← hmark]
        exact (if_neg fun hc => hold hc.2.2.1).symm
      rw [hread]
      exact hs.clean n p x b hb ⟨by rw [heq]; exact hp, by rw [heq]; exact hold, hmark0⟩
  · exact hs.kept hb ⟨.inl (hun.other _ _ hua.dir (pageNr_lt _) hslot),
      fun _ k hk => hun.view _ _ k hua.dir (pageNr_lt _) hk⟩
      (if_neg fun hc => hslot ⟨hc.1, hc.2.1⟩) hpr

-- ======== stores

/-- A store through a sole reference: its own page becomes dirty, no
other page changes. -/
theorem Pristine.stored (hs : Pristine lo hi s) (hp : present (entryOf s.mem w))
    (hst : Stored lo hi ∅ s.mem (dirNr w) (pageNr w) (w % 4096) v m) :
    Pristine lo hi (s.unmark w m) := by
  refine Pristine.of_bytes (hs.acct.of_stored hp hst) hs.tables ?_
  intro n p x b hb hpr
  have hua := hb.userAddr hs.tables
  by_cases hslot : dirNr (n * taskSize + b) = dirNr w ∧ pageNr (n * taskSize + b) = pageNr w
  · have heq : entryOf m (n * taskSize + b) = setDirty (entryOf s.mem w) := by
      rw [entryOf_eq, hslot.1, hslot.2, hst.self, ← entryOf_eq]
    have heq0 : entryOf s.mem (n * taskSize + b) = entryOf s.mem w := by
      rw [entryOf_eq, hslot.1, hslot.2, ← entryOf_eq]
    constructor
    · show InMain lo hi (frame (entryOf m (n * taskSize + b)))
      rw [heq, frame_setDirty, ← heq0]
      exact hs.main n p x b hb (by rw [heq0]; exact hp)
    · rintro ⟨-, hcl, -⟩
      change ¬ dirty (entryOf m (n * taskSize + b)) at hcl
      rw [heq] at hcl
      exact absurd (dirty_setDirty _) hcl
  · exact hs.kept hb ⟨.inl (hst.other _ _ hua.dir (pageNr_lt _) hslot),
      fun _ k hk => hst.view _ _ k hua.dir (pageNr_lt _) hk hslot⟩ (if_neg hslot) hpr

-- ======== not-present faults

/-- The faulting page of task `cur`, byte by byte: an image byte in the
faulting slot belongs to `cur`, at the fault offset. -/
theorem ImageByte.of_fault (hT : TablesOk T) (hb : ImageByte T n p x b) (hcur : cur < nrTasks)
    (hq : T.task cur = some q) (hw : w < 2 ^ 32) (hown : w / taskSize = cur)
    (hslot : dirNr (n * taskSize + b) = dirNr w ∧ pageNr (n * taskSize + b) = pageNr w) :
    n = cur ∧ p = q ∧ faultOffset q w = pageAddr b := by
  have hpage := samePage_of_slots hb.lt hb.inside hw hslot.1 hslot.2
  have hn : n = cur := by
    have := hb.inside
    unfold pageAddr at hpage
    unfold taskSize at *
    omega
  subst hn
  have hpq : p = q := by
    have := hb.task
    rw [hq] at this
    exact (Option.some.inj this).symm
  subst hpq
  refine ⟨rfl, rfl, ?_⟩
  have h2 := hb.inside
  unfold faultOffset
  rw [hT.spaces.base n p hb.lt hq, hpage]
  unfold taskSize at *
  unfold pageAddr
  omega

/-- A page read from the file is the image. -/
theorem userRead_loaded {endData f fo : Nat} {m2 : Mem}
    (hbytes : ∀ off, off < 4096 → m2.byte (f * 4096 + off) = imageByte T x endData (fo + off))
    (hp : PagePut lo hi {f} m2 (dirNr w) (pageNr w) f m')
    (h1 : dirNr a = dirNr w) (h2 : pageNr a = pageNr w) :
    userRead m' a = some (imageByte T x endData (fo + a % 4096)) := by
  have he : entryOf m' a = entry7 (f * 4096) := by
    rw [entryOf_eq, h1, h2, hp.self]
  have h4 : (f * 4096 + a % 4096) / 4 = f * 1024 + a % 4096 / 4 := by omega
  rw [← hbytes (a % 4096) (Nat.mod_lt _ (by omega))]
  unfold userRead physAddr
  rw [he, if_pos (present_entry7 f), pageAddr_eq, frame_entry7]
  unfold Mem.byte
  rw [h4, hp.content _ (by omega)]

/-- A shared page reads in the new place as it read in the old. -/
theorem ShareHit.userRead {i j i' : Nat}
    (h : Paging lo hi ∅ m) (hs : ShareHit lo hi m i j i' m') (hi' : UserDir i) (hj : j < 1024)
    (ha : dirNr a = i' ∧ pageNr a = j) (hc : dirNr c = i ∧ pageNr c = j)
    (hoff : a % 4096 = c % 4096) : userRead m' a = userRead m c := by
  have hmain := h.main_ge hs.main
  obtain ⟨hp, -, -, m1, hcase, hsh⟩ := hs
  have hview : ∀ k, k < 1024 → pageWord m1 i j k = pageWord m i j k := by
    intro k hk
    rcases hcase with ⟨-, rfl⟩ | ⟨-, ht⟩
    · rfl
    · exact ht.view i j k hi' hj hk fun _ => by omega
  rw [userRead_eq, userRead_eq, ha.1, ha.2, hc.1, hc.2,
    hsh.copy _ (by omega), hview _ (by omega), hoff,
    show a % 4 = c % 4 by omega]

section

variable (hs : Pristine lo hi s) (hcur : cur < nrTasks) (hq : s.tasks.task cur = some q)
variable (hw : UserAddr w) (hown : w / taskSize = cur) (hcare : (SysOp.noPage cur w).careful s)
variable (hn : NoPage lo hi s.tasks cur q w s.mem m)
include hs hcur hq hw hown hcare hn

/-- The page a careful fault maps: in main memory, clean, and the
image. -/
theorem Pristine.noPage_own
    (hb : ImageByte s.tasks n p x b) (hslot : dirNr (n * taskSize + b) = dirNr w
      ∧ pageNr (n * taskSize + b) = pageNr w) : InMain lo hi (frame (entryOf m (n * taskSize + b)))
      ∧ present (entryOf m (n * taskSize + b)) ∧ ¬ dirty (entryOf m (n * taskSize + b))
      ∧ userRead m (n * taskSize + b) = some (imageByte s.tasks x p.endData b) := by
  obtain ⟨rfl, rfl, hfo⟩ := hb.of_fault hs.tables hcur hq hw.2 hown hslot
  have hsplit : pageAddr b + (n * taskSize + b) % 4096 = b := by
    unfold pageAddr taskSize
    omega
  cases hn with
  | empty hout _ _ =>
    rcases hout with hx | hge
    · rw [hb.exec] at hx
      cases hx
    · have := hb.loaded
      omega
  | @loaded x' page f m1 m2 hx hin hnone hf hd hbytes hp =>
    rw [hb.exec] at hx
    cases hx
    have he : entryOf m (n * taskSize + b) = entry7 (f * 4096) := by
      rw [entryOf_eq, hslot.1, hslot.2, hp.self]
    rw [he, frame_entry7, userRead_loaded hbytes hp hslot.1 hslot.2, hfo, hsplit]
    exact ⟨hf.main, present_entry7 f, not_dirty_entry7 f, rfl⟩
  | @shared x' k r hx hin _ hsw =>
    rw [hb.exec] at hx
    cases hx
    -- the page is taken from byte `b` of task `k`
    have hend : r.endData = p.endData :=
      hs.tables.image k r n p hsw.task hb.task hsw.same
        (by rw [hsw.same, hb.exec]; exact Option.some_ne_none x)
    have hbk : ImageByte s.tasks k r x b :=
      ⟨hsw.lt, hsw.task, by rw [hsw.same, hb.exec], hb.inside, by rw [hend]; exact hb.loaded⟩
    have hak := hbk.userAddr hs.tables
    obtain ⟨hk1, hk2⟩ := slots_of_byte hbk.lt hb.inside
    obtain ⟨hn1, hn2⟩ := slots_of_byte hb.lt hb.inside
    obtain ⟨hp1, hp2⟩ :=
      slots_of_byte hbk.lt (pageAddr_lt_task hb.inside)
    rw [pageAddr_idem] at hp1 hp2
    have hhit := hsw.hit
    rw [hfo, ← hk1, ← hn1, ← hk2] at hhit
    have hua := hb.userAddr hs.tables
    have hfill := hhit.filled hs.acct.paging hak.dir (pageNr_lt _) hua.dir
    have he : entryOf m (n * taskSize + b) = clearW (entryOf s.mem (k * taskSize + b)) := by
      rw [entryOf_eq, entryOf_eq, ← hfill, hk2, hn2]
    have hread := hhit.userRead hs.acct.paging hak.dir (pageNr_lt _)
     
      ⟨rfl, by rw [hn2, hk2]⟩ ⟨rfl, rfl⟩ (by unfold taskSize; omega)
    have hsame : ∀ mem : Mem, entryOf mem (k * taskSize + pageAddr b)
        = entryOf mem (k * taskSize + b) := by
      intro mem
      rw [entryOf_eq, entryOf_eq, hk1, hk2, hp1, hp2]
    have hmark : s.laundered (dirNr (k * taskSize + b)) (pageNr (k * taskSize + b)) = false := by
      have := hcare k r p hsw.lt hsw.other hsw.task hb.task hsw.same
      rw [hfo] at this
      simp only at this
      rw [hsame, hp1, hp2, ← hk1, ← hk2] at this
      exact this hhit.mapped hhit.clean
    rw [he, frame_clearW, present_clearW, dirty_clearW, hread]
    refine ⟨hhit.main, hhit.mapped, hhit.clean, ?_⟩
    rw [← hend]
    exact hs.clean k r x b hbk ⟨hhit.mapped, hhit.clean, hmark⟩

/-- A careful not-present fault. -/
theorem Pristine.noPage : Pristine lo hi (s.unmark w m) := by
  refine Pristine.of_bytes (hs.acct.of_noPage hs.tables.spaces hcur hq hw hn) hs.tables ?_
  intro n p x b hb hpr
  have hua := hb.userAddr hs.tables
  by_cases hslot : dirNr (n * taskSize + b) = dirNr w ∧ pageNr (n * taskSize + b) = pageNr w
  · obtain ⟨hin, -, -, hread⟩ :=
      hs.noPage_own hcur hq hw hown hcare hn hb hslot
    exact ⟨hin, fun _ => hread⟩
  · exact hs.kept hb (hn.others hs.acct.paging hs.tables.spaces hcur hq hw hua.dir
      (pageNr_lt _) hslot) (if_neg hslot) hpr

end

-- ======== fork

theorem spawn_task : (T.spawn c p).task n = if n = c then some { p with startCode := c * taskSize }
        else T.task n := Function.update_apply ..

/-- Fork keeps the task table in order. -/
theorem TablesOk.spawn (hT : TablesOk T)
    (hpr : pr < nrTasks) (hp : T.task pr = some p) (hc0 : c ≠ 0) : TablesOk (T.spawn c p) := by
  -- whatever the table says of a task, it says of an old one too
  have hold : ∀ n q, (T.spawn c p).task n = some q →
      ∃ k r, T.task k = some r ∧ r.executable = q.executable ∧ r.endData = q.endData := by
    intro n q hq
    rw [spawn_task] at hq
    split at hq
    · cases hq
      exact ⟨pr, p, hp, rfl, rfl⟩
    · exact ⟨n, q, hq, rfl, rfl⟩
  refine ⟨⟨?_, ?_⟩, ?_, ?_⟩
  · intro n q hn hq
    rw [spawn_task] at hq
    split at hq
    · rename_i hnc
      cases hq
      rw [hnc]
    · exact hT.spaces.base n q hn hq
  · intro n q hn hq
    rw [spawn_task] at hq
    split at hq
    · cases hq
      exact hT.spaces.ends pr p hpr hp
    · exact hT.spaces.ends n q hn hq
  · intro n q m r hq hr hsame hne
    obtain ⟨k, q', hq', he, hd⟩ := hold n q hq
    obtain ⟨k', r', hr', he', hd'⟩ := hold m r hr
    rw [← hd, ← hd']
    exact hT.image k q' k' r' hq' hr' (by rw [he, he', hsame]) (by rw [he]; exact hne)
  · intro q hq
    rw [spawn_task, if_neg hc0.symm] at hq
    exact hT.first q hq

/-- What `copy_page_tables` leaves outside the child's 64 Mb. -/
theorem Acct.fork_others {mem : Mem} (ha : Acct lo hi mem)
    {p : Nat} {r : Int} (hr : (MmOp.copyPageTables p c size).ready mem)
    (hcopy : copyPageTables (p * taskSize) (c * taskSize) size mem = .ok (r, m))
    (hua : UserDir a) (hb : b < 1024) (hac : a / 16 ≠ c) : SlotKept mem m a b := by
  rcases ha.copied_cases hr hcopy with ⟨-, rfl | hff⟩ | ⟨-, m', hm, -, hd⟩
  · exact ⟨.inl rfl, fun _ k _ => rfl⟩
  · exact ⟨.inl (hff.other a b hua hb (by omega)),
      fun hoff k hk => hff.view a b k hua hb hk (by omega) hoff⟩
  · refine ⟨?_, fun hoff k hk => hd.view a b k hua hb hk (by omega) hoff⟩
    by_cases hsrc : 16 * p ≤ a ∧ a < 16 * p + m'
    · obtain ⟨d, rfl⟩ := Nat.exists_eq_add_of_le hsrc.1
      exact hd.src d b (by omega) hb
    · exact .inl (hd.other a b hua hb hsrc (by omega))

/-- The state after a successful fork. -/
def Sys.forked (s : Sys) (pr c : Nat) (p : Task) (m : Mem) : Sys :=
  { mem := m
    tasks := s.tasks.spawn c p
    laundered := fun i j =>
      if i / 16 = c then s.laundered (16 * pr + i % 16) j
      else s.laundered i j }

/-- The bytes of the tasks that were there before a fork. -/
theorem Pristine.fork_old (hs : Pristine lo hi s)
    (hothers : ∀ a b, UserDir a → b < 1024 → a / 16 ≠ c → SlotKept s.mem m a b)
    (hb : ImageByte s.tasks n q x b) (hnc : n ≠ c) (hpr : present (entryOf m (n * taskSize + b))) :
    ByteOk lo hi (s.forked pr c p m) (n * taskSize + b) (imageByte s.tasks x q.endData b) := by
  have hua := hb.userAddr hs.tables
  obtain ⟨h1, h2⟩ := slots_of_byte hb.lt hb.inside
  have hlt := dirNr_pageAddr_lt hb.inside
  have hdiv : dirNr (n * taskSize + b) / 16 ≠ c := by omega
  exact hs.kept hb (hothers _ _ hua.dir (pageNr_lt _) hdiv) (if_neg hdiv) hpr

/-- The bytes of the child: the parent's, entry, mark and contents. -/
theorem Pristine.fork_new (hs : Pristine lo hi s) (hc : c < nrTasks) (hne : pr ≠ c)
    (hd : DirsCopied lo hi ∅ s.mem (16 * pr) (16 * c) 16 m) (hb : ImageByte s.tasks pr p x b)
    (hpr : present (entryOf m (c * taskSize + b))) :
    ByteOk lo hi (s.forked pr c q m) (c * taskSize + b) (imageByte s.tasks x p.endData b) := by
  have hua := hb.userAddr hs.tables
  obtain ⟨hp1, hp2⟩ := slots_of_byte hb.lt hb.inside
  obtain ⟨hc1, hc2⟩ := slots_of_byte hc hb.inside
  have hlt := dirNr_pageAddr_lt hb.inside
  have hj := pageNr_lt (pageAddr b)
  rw [Nat.add_comm (dirNr _)] at hp1 hc1
  have hep : ∀ mem : Mem, entryOf mem (pr * taskSize + b)
      = pteAt mem (16 * pr + dirNr (pageAddr b)) (pageNr (pageAddr b)) := by
    intro mem
    rw [entryOf_eq, hp1, hp2]
  have hdst := hd.dst _ _ hlt hj
  rw [← hep, ← hc1, ← hc2, ← entryOf_eq] at hdst
  have hpp : present (entryOf s.mem (pr * taskSize + b)) := by
    by_contra hn
    rw [hdst, if_neg hn] at hpr
    exact not_present_zero hpr
  rw [if_pos hpp] at hdst
  have hin := hs.main pr p x b hb hpp
  have hge := hs.acct.paging.main_ge hin
  have hread : userRead m (c * taskSize + b) = userRead s.mem (pr * taskSize + b) := by
    have h4 : (c * taskSize + b) % 4096 = (pr * taskSize + b) % 4096 := by
      unfold taskSize
      omega
    have h4' : (c * taskSize + b) % 4 = (pr * taskSize + b) % 4 := by
      omega
    rw [userRead_eq, userRead_eq, hc1, hc2, hp1, hp2, h4, h4',
      hd.copy hlt hj, hd.view _ _ _ (by rw [← hp1]; exact hua.dir) hj
        (by omega) (by omega) (by rw [← hep]; exact fun _ => by omega)]
  show InMain lo hi (frame (entryOf m _)) ∧ (_ → userRead m _ = _)
  rw [hdst, frame_clearW, hread]
  refine ⟨hin, ?_⟩
  rintro ⟨-, hcl, hmark⟩
  change ¬ dirty (entryOf m (c * taskSize + b)) at hcl
  rw [hdst, dirty_clearW] at hcl
  refine hs.clean pr p x b hb ⟨hpp, hcl, ?_⟩
  rw [← hmark, hp1, hp2]
  show _ = if dirNr (c * taskSize + b) / 16 = c then _ else _
  rw [if_pos (by omega), hc1, hc2,
    show (16 * c + dirNr (pageAddr b)) % 16 = dirNr (pageAddr b) by omega]

/-- Fork. -/
theorem Pristine.fork (hs : Pristine lo hi s)
    (hr : (SysOp.fork pr c size).ready s) (hp : s.tasks.task pr = some p)
    (hcopy : copyPageTables (pr * taskSize) (c * taskSize) size s.mem
      = .ok (0, m)) : Pristine lo hi (s.forked pr c p m) := by
  obtain ⟨hpl, hcl, hc0, hne, hsz, hp0, -, hfull⟩ := hr
  have hr : (MmOp.copyPageTables pr c size).ready s.mem := ⟨hpl, hcl, hc0, hne, hsz, hp0⟩
  refine Pristine.of_bytes (hs.acct.of_copyPageTables hr hcopy) (hs.tables.spawn hpl hp hc0) ?_
  intro n q x b hb hpr
  have htask : (s.tasks.spawn c p).task n = some q := hb.task
  rw [spawn_task] at htask
  split at htask
  · rename_i hnc
    subst hnc
    cases htask
    -- the child runs what the parent runs, so all 64 Mb were copied
    have hx : p.executable = some x := hb.exec
    have hbp : ImageByte s.tasks pr p x b :=
      ⟨hpl, hp, hx, hb.inside, hb.loaded⟩
    have hpr0 : pr ≠ 0 := by
      rintro rfl
      rw [hs.tables.first p hp] at hx
      cases hx
    have hsize : size = taskSize := by
      refine hfull ?_
      rw [hp, Option.bind_some, hx]
      exact Option.some_ne_none x
    obtain ⟨h0, -⟩ | ⟨-, k, -, hk, hd⟩ := hs.acct.copied_cases hr hcopy
    · exact absurd h0 hpr0
    rw [hk rfl, hsize, show dirCount taskSize = 16 by decide] at hd
    exact hs.fork_new (p := p) hcl hne hd hbp hpr
  · rename_i hnc
    exact hs.fork_old (fun _ _ => hs.acct.fork_others hr hcopy) ⟨hb.lt, htask, hb.exec, hb.inside, hb.loaded⟩ hnc hpr

-- ======== runs

/-- The conditions of a careful run: each step can happen, and is
careful. -/
def SysOp.good (o : SysOp) (s : Sys) : Prop := o.ready s ∧ o.careful s

/-- A kernel store to a page with one reference. -/
theorem Pristine.kernelStore (hs : Pristine lo hi s)
    (hw : UserAddr w) (hp : present (entryOf s.mem w)) (hc : (SysOp.kernelStore w v).careful s) :
    Pristine lo hi (s.unmark w (userPut w v s.mem)) := by
  obtain ⟨hlow, hone⟩ := hc
  rw [lowMem_le_pageAddr] at hlow
  rw [mapNr_pageAddr] at hone
  obtain ⟨hin, h1⟩ := hs.acct.paging.sole_of_count hw.dir (pageNr_lt w) hp hlow hone
  have hst := hs.acct.paging.stored (b := v) hw.dir (pageNr_lt w) hp hin h1
    (Nat.mod_lt w (by omega))
  rw [← userPut_eq hw hp hs.acct.paging] at hst
  exact hs.stored hp hst

/-- A not-present fault that is served. -/
theorem noPage_step (h : (SysOp.noPage cur w).step s = some s') : ∃ q m, s.tasks.task cur = some q
      ∧ doNoPage s.tasks cur q w s.mem = .ok m ∧ s' = s.unmark w m := by
  simp only [SysOp.step] at h
  split at h
  · cases h
  rename_i q hq
  split at h
  · cases h
  rename_i m hdo
  cases h
  exact ⟨q, m, hq, hdo, rfl⟩

/-- Every careful step keeps the invariant. -/
theorem Pristine.step (hs : Pristine lo hi s) {o : SysOp} (hg : o.good s)
    (hstep : o.step s = some s') : Pristine lo hi s' := by
  obtain ⟨hr, hc⟩ := hg
  cases o with
  | fork pr c size =>
    simp only [SysOp.step] at hstep
    split at hstep
    · rename_i p m hp hcopy
      cases hstep
      exact hs.fork hr hp hcopy
    · cases hstep
  | wpFault w =>
    obtain ⟨hlt, hp, hw⟩ := hr
    exact hs.unWp (hs.acct.userAddr hlt fun h => hw h.2) hp hstep
  | userStore w v =>
    obtain ⟨hge, hlt, hp, hwr⟩ := hr
    cases hstep
    exact hs.stored hp (stored_of_userPut ⟨hge, hlt⟩ hp hs.acct.paging hwr v)
  | writeVerify w =>
    simp only [SysOp.step] at hstep
    split at hstep
    · rename_i hpw
      exact hs.unWp (hs.acct.userAddr hr fun h => hpw.2 h.2) hpw.1 hstep
    · cases hstep
      exact hs
  | kernelStore w v =>
    obtain ⟨hge, hlt, hp⟩ := hr
    cases hstep
    exact hs.kernelStore ⟨hge, hlt⟩ hp hc
  | noPage cur w =>
    obtain ⟨hcur, hlt, hown, habs⟩ := hr
    obtain ⟨q, m, hq, hdo, rfl⟩ := noPage_step hstep
    have hw := hs.acct.userAddr hlt fun h => habs h.1
    exact hs.noPage hcur hq hw hown hc
      (hs.acct.paging.noPage_of_doNoPage hs.tables.spaces hcur hq hlt hw.dir habs hs.acct.room hdo)

/-- Where the runs start: frames accounted for, the task table in
order, no page of an executable in memory yet. -/
structure SysStart (lo hi : Nat) (s : Sys) : Prop where
  acct : Acct lo hi s.mem
  tables : TablesOk s.tasks
  empty : ∀ n p x b, ImageByte s.tasks n p x b → ¬ present (entryOf s.mem (n * taskSize + b))

theorem SysStart.pristine (h : SysStart lo hi s) : Pristine lo hi s :=
  ⟨h.acct, h.tables, fun n p x b hb hp => absurd hp (h.empty n p x b hb),
    fun n p x b hb hc => absurd hc.1 (h.empty n p x b hb)⟩

/-- What `do_no_page` owes: below the end of data the page it maps is
the executable's image, file bytes behind the header and zeros past the
end. -/
def MapsImage (cur w : Nat) (s s' : Sys) : Prop :=
  ∀ q x, s.tasks.task cur = some q → q.executable = some x →
    faultOffset q w < q.endData → ∀ off, off < 4096 → userRead s'.mem (pageAddr w + off)
      = some (imageByte s.tasks x q.endData (faultOffset q w + off))

/-- Two tasks that run executable 0, of one page of zeros; nothing is
loaded yet. -/
def twoTasks : Sys where
  mem := bootMem 0x400000 0x1000000 ⟨fun _ => 0, fun _ => 0, 0⟩
  tasks :=
    { task := fun n => if n = 1 ∨ n = 3 then
          some ⟨n * taskSize, 4096, some 0⟩ else none
      iCount := fun _ => 2
      fileBlock := fun _ _ => some fun _ => 0 }
  laundered := fun _ _ => false

theorem twoTasks_task {n : Nat} {p : Task} (h : twoTasks.tasks.task n = some p) :
    (n = 1 ∨ n = 3) ∧ p = ⟨n * taskSize, 4096, some 0⟩ := by
  change (if n = 1 ∨ n = 3 then some (Task.mk (n * taskSize) 4096 (some 0))
    else none) = some p at h
  split at h
  · rename_i hn
    exact ⟨hn, (Option.some.inj h).symm⟩
  · cases h

theorem sysStart_twoTasks : SysStart 0x400 0x1000 twoTasks := by
  have hb : MemBounds 0x400000 0x1000000 := by
    constructor <;> decide
  refine ⟨acct_bootMem hb, ⟨⟨?_, ?_⟩, ?_, ?_⟩, ?_⟩
  · intro n p _ hp
    rw [(twoTasks_task hp).2]
  · intro n p _ hp
    rw [(twoTasks_task hp).2]
    show 4096 ≤ taskSize
    decide
  · intro n p m q hp hq _ _
    rw [(twoTasks_task hp).2, (twoTasks_task hq).2]
  · intro p hp
    have := (twoTasks_task hp).1
    omega
  · intro n p x b hbyte
    have hn := (twoTasks_task hbyte.task).1
    have hin := hbyte.inside
    have hu : UserAddr (n * taskSize + b) := by
      unfold taskSize at *
      exact ⟨by omega, by omega⟩
    show ¬ present (entryOf (bootMem _ _ _) _)
    rw [entryOf_eq, bootMem_pteAt hu.dir]
    exact not_present_zero

/-- In a run of careful steps every not-present fault maps the image. -/
theorem noPage_maps_image {s₀ : Sys} {ops : List SysOp} {cur w : Nat} (hstart : SysStart lo hi s₀)
    (hmeets : Meets SysOp.step SysOp.good ops s₀) (hrun : runOps SysOp.step ops s₀ = some s)
    (hgood : (SysOp.noPage cur w).good s) (hstep : (SysOp.noPage cur w).step s = some s') :
    MapsImage cur w s s' := by
  have hs : Pristine lo hi s := runOps_invariant
    (fun o s s' hs hg h => hs.step hg h) hmeets hrun hstart.pristine
  intro q x hq hx hlt off hoff
  obtain ⟨⟨hcur, hw32, hown, habs⟩, hcare⟩ := hgood
  have hw := hs.acct.userAddr hw32 fun h => habs h.1
  obtain ⟨hlt64, hal, hdir, hpg, hbase⟩ := hs.tables.spaces.fault_slots hcur hq hw32 hlt
  obtain ⟨q', m, hq', hdo, rfl⟩ := noPage_step hstep
  obtain rfl := Option.some.inj (hq.symm.trans hq')
  have hn := hs.acct.paging.noPage_of_doNoPage hs.tables.spaces hcur hq
    hw32 hw.dir habs hs.acct.room hdo
  have hpage : pageAddr (faultOffset q w + off) = faultOffset q w := by
    unfold pageAddr
    omega
  have hb : ImageByte s.tasks cur q x (faultOffset q w + off) := by
    refine ⟨hcur, hq, hx, ?_, by rw [hpage]; exact hlt⟩
    unfold taskSize at *
    omega
  obtain ⟨h1, h2⟩ := slots_of_byte hcur hb.inside
  rw [hpage] at h1 h2
  have hown := hs.noPage_own hcur hq hw hown hcare hn hb ⟨by rw [h1, hdir], by rw [h2, hpg]⟩
  rw [hbase, Nat.add_assoc]
  exact hown.2.2.2

/-- Task 1 loads its page and task 3 shares it: careful, and the
image. -/
theorem noPage_maps_image_shared : ∃ s s' : Sys,
    runOps SysOp.step [.noPage 1 0x4000000] twoTasks = some s
      ∧ (SysOp.noPage 3 0xC000000).step s = some s'
      ∧ userRead s'.mem (pageAddr 0xC000000 + 5) = some 0 := by
  have hsome : ((runChecked SysOp.step SysOp.ready [.noPage 1 0x4000000] twoTasks).bind fun s =>
    if (SysOp.noPage 3 0xC000000).ready s then
      (SysOp.noPage 3 0xC000000).step s
    else none).isSome := by decide +kernel
  obtain ⟨s', hx⟩ := Option.isSome_iff_exists.mp hsome
  obtain ⟨s, hrun, hx⟩ := Option.bind_eq_some_iff.mp hx
  obtain ⟨hready, hx⟩ := Option.ite_none_right_eq_some.mp hx
  obtain ⟨hmeets, hruns⟩ := runChecked_eq_some hrun
  -- no page has been marked
  obtain ⟨m, rfl⟩ : ∃ m, s = twoTasks.unmark 0x4000000 m := by
    obtain ⟨s1, hs1, hnil⟩ := runOps_cons hruns
    cases hnil
    obtain ⟨q, m, -, -, hm⟩ := noPage_step hs1
    exact ⟨m, hm⟩
  have hmark : ∀ i j, (twoTasks.unmark 0x4000000 m).laundered i j = false := by
    intro i j
    exact ite_self false
  have hgood : (SysOp.noPage 3 0xC000000).good (twoTasks.unmark 0x4000000 m) :=
    ⟨hready, fun n p q _ _ _ _ _ _ _ => hmark _ _⟩
  have hgoods : Meets SysOp.step SysOp.good [.noPage 1 0x4000000]
      twoTasks :=
    ⟨⟨hmeets.1, fun n p q _ _ _ _ _ _ _ => rfl⟩, fun _ _ => trivial⟩
  refine ⟨_, s', hruns, hx, ?_⟩
  exact noPage_maps_image sysStart_twoTasks hgoods hruns hgood hx
    ⟨3 * taskSize, 4096, some 0⟩ 0 rfl rfl (by decide) 5 (by decide)

-- ======== without care

/-- Task 1 loads its page and modifies it, forks, and makes a system
call that verifies a buffer in the page and stores nothing. -/
def launder : List SysOp :=
  [.noPage 1 0x4000000, .userStore 0x4000000 7, .fork 1 2 taskSize, .writeVerify 0x4000000]

/-- The fault of task 3 then maps the modified page of task 1. -/
theorem launder_shares : ((runChecked SysOp.step SysOp.ready launder twoTasks).bind fun s =>
  if (SysOp.noPage 3 0xC000000).ready s then
    ((SysOp.noPage 3 0xC000000).step s).map fun s' =>
      (userRead s'.mem 0xC000000, (s.tasks.task 3).map fun q =>
        (q.executable, q.endData, faultOffset q 0xC000000, imageByte s.tasks 0 q.endData 0))
  else none) = some (some 7, some (some 0, 4096, 0, 0)) := by
  decide +kernel

/-- Without care the law fails: a page that `un_wp_page` has laundered
is shared as if it were pristine. -/
theorem laundered_page_is_shared : ¬ ∀ (lo hi : Nat) (s₀ s s' : Sys)
    (ops : List SysOp) (cur w : Nat), SysStart lo hi s₀ → Meets SysOp.step SysOp.ready ops s₀ →
      runOps SysOp.step ops s₀ = some s → (SysOp.noPage cur w).ready s →
      (SysOp.noPage cur w).step s = some s' → MapsImage cur w s s' := by
  intro hall
  obtain ⟨s, hrun, hx⟩ := Option.bind_eq_some_iff.mp launder_shares
  split at hx
  · rename_i hready
    obtain ⟨s', hstep, hx⟩ := Option.map_eq_some_iff.mp hx
    obtain ⟨h7, hq⟩ := Prod.mk.inj hx
    obtain ⟨q, htask, hq⟩ := Option.map_eq_some_iff.mp hq
    obtain ⟨hmeets, hruns⟩ := runChecked_eq_some hrun
    have hmap := hall 0x400 0x1000 twoTasks s s' launder 3 0xC000000
      sysStart_twoTasks hmeets hruns hready hstep q 0 htask
    simp only [Prod.mk.injEq] at hq
    obtain ⟨hexec, hend, hfo, himg⟩ := hq
    have := hmap hexec (by rw [hfo, hend]; decide) 0 (by decide)
    rw [hfo, himg, show pageAddr 0xC000000 + 0 = 0xC000000 by decide, h7] at this
    exact absurd this (by decide)
  · cases hx

end LearnLinux.Mm
