/-
Every call gives back the references it took: the count of each inode is
what it was, plus one for an inode that is handed out, and the count of
each buffer is what it was unless `free_block` or `empty_dir` forgot a
`brelse` or made one too many.

The logic counts: the count of an inode is the one before the call plus
the references the call holds, in the 16 bits of `i_count`. For a buffer,
in 8 bits, the missing releases stand on the side of the references, and
the extra ones on the side of the count.
-/
import LearnLinux.Fs.Proofs.Names

namespace LearnLinux.Kernel

open Function (update update_self update_of_ne)
open LearnLinux.Lib
open LearnLinux.InodeTable (Slot)
open Logic.Runs

variable {n : Nat} {h h' : Holdings n} {v : View n}

-- ======== inodes

/-- The counts of the inodes, starting from `c`. -/
def Slots (c : Slot → UInt16) (h : Holdings n) (v : View n) : Prop :=
  ∀ j, (v.ino j).count = c j + UInt16.ofNat (refsTo h j)

variable {c : Slot → UInt16} {j : Slot} {m : MInode}

/-- One slot changes, and with it the references to it. -/
theorem Slots.setIno (hv : Slots c h v)
    (hm : m.count = c j + UInt16.ofNat (refsTo h' j)) (ho : ∀ k, k ≠ j → refsTo h' k = refsTo h k) :
    Slots c h' (v.setIno j m) := by
  intro k
  by_cases hk : k = j
  · subst hk
    simpa [View.setIno] using hm
  · rw [ho k hk, ← hv k]
    simp [View.setIno, hk]

/-- A slot keeps its count and its references. -/
theorem Slots.keep (hv : Slots c h v) (hm : m.count = (v.ino j).count)
    (ho : ∀ k, refsTo h' k = refsTo h k) : Slots c h' (v.setIno j m) := by
  refine hv.setIno ?_ fun k _ => ho k
  rw [hm, hv j, ho j]

/-- A reference more, and a count more. -/
theorem Slots.more (hv : Slots c h v) (hm : m.count = (v.ino j).count + 1)
    (ho : ∀ k, refsTo h' k = refsTo h k + if k = j then 1 else 0) : Slots c h' (v.setIno j m) := by
  refine hv.setIno ?_ fun k hk => ?_
  · rw [hm, hv j, ho j, if_pos rfl, UInt16.ofNat_add, UInt16.add_assoc]
    rfl
  · rw [ho k, if_neg hk, Nat.add_zero]

/-- A reference less, and a count less. -/
theorem Slots.less (hv : Slots c h v) (hm : m.count = (v.ino j).count - 1)
    (ho : ∀ k, refsTo h k = refsTo h' k + if k = j then 1 else 0) : Slots c h' (v.setIno j m) := by
  refine hv.setIno ?_ fun k hk => ?_
  · rw [hm, hv j, ho j, if_pos rfl, UInt16.ofNat_add, ← UInt16.add_assoc]
    exact UInt16.add_sub_cancel _ _
  · rw [ho k, if_neg hk, Nat.add_zero]

-- ======== buffers

def View.missing (v : View n) (b : Fin n) : Nat :=
  v.trace.count (.busy b) + v.trace.count (.badDirectory b)

def View.extra (v : View n) (b : Fin n) : Nat := v.trace.count (.hole b)

/-- The counts of the buffers, starting from `c`. -/
def Bufs (c : Fin n → UInt8) (h : Holdings n) (v : View n) : Prop :=
  ∀ b, v.cnt b + UInt8.ofNat (v.extra b) = c b + UInt8.ofNat (h.count (.buf b) + v.missing b)

variable {d : Fin n → UInt8} {v' : View n} {b : Fin n}

/-- What is not about buffers. -/
theorem Bufs.congr (hv : Bufs d h v) (hc : v'.cnt = v.cnt)
    (ht : ∀ b, v'.extra b = v.extra b ∧ v'.missing b = v.missing b)
    (hh : ∀ b, h'.count (.buf b) = h.count (.buf b)) : Bufs d h' v' := by
  intro b
  rw [hc, (ht b).1, (ht b).2, hh b]
  exact hv b

/-- One buffer changes. -/
theorem Bufs.set (hv : Bufs d h v) (b : Fin n) (hb : v'.cnt b + UInt8.ofNat (v'.extra b)
      = d b + UInt8.ofNat (h'.count (.buf b) + v'.missing b))
    (ho : ∀ b', b' ≠ b → v'.cnt b' = v.cnt b' ∧ v'.extra b' = v.extra b' ∧
      v'.missing b' = v.missing b' ∧ h'.count (.buf b') = h.count (.buf b')) : Bufs d h' v' := by
  intro b'
  by_cases hbb : b' = b
  · subst hbb
    exact hb
  · obtain ⟨hc, he, hm, hh⟩ := ho b' hbb
    rw [hc, he, hm, hh]
    exact hv b'

theorem Bufs.get (hv : Bufs d h v) (b : Fin n) :
    Bufs d (.buf b ::ₘ h) (v.setCnt b (v.cnt b + 1)) := by
  apply hv.set b
  · have hb := hv b
    change update v.cnt b (v.cnt b + 1) b + UInt8.ofNat (v.extra b)
      = d b + UInt8.ofNat (Multiset.count _ _ + v.missing b)
    rw [update_self, Multiset.count_cons_self]
    simp only [UInt8.ofNat_add] at hb ⊢
    grind
  · intro b' hb
    refine ⟨update_of_ne hb _ _, rfl, rfl, ?_⟩
    simp [hb]

theorem Bufs.put (hv : Bufs d (.buf b ::ₘ h) v) : Bufs d h (v.setCnt b (v.cnt b - 1)) := by
  apply hv.set b
  · have hb := hv b
    rw [Multiset.count_cons_self] at hb
    change update v.cnt b (v.cnt b - 1) b + UInt8.ofNat (v.extra b)
      = d b + UInt8.ofNat (h.count _ + v.missing b)
    rw [update_self]
    simp only [UInt8.ofNat_add] at hb ⊢
    grind
  · intro b' hb
    refine ⟨update_of_ne hb _ _, rfl, rfl, ?_⟩
    simp [hb]

/-- A release is missing. -/
theorem Bufs.miss (hv : Bufs d (.buf b ::ₘ h) v) {x : Note n}
    (hx : x = .busy b ∨ x = .badDirectory b) : Bufs d h (v.note x) := by
  have hcount : ∀ b', (v.note x).extra b' = v.extra b' ∧ (v.note x).missing b'
        = v.missing b' + if b = b' then 1 else 0 := by
    intro b'
    rcases hx with rfl | rfl
    · simp [View.extra, View.missing, View.note, List.count_cons]
      omega
    · simp [View.extra, View.missing, View.note, List.count_cons]
      omega
  apply hv.set b
  · have hb := hv b
    rw [Multiset.count_cons_self] at hb
    rw [(hcount b).1, (hcount b).2, if_pos rfl]
    change v.cnt b + _ = _
    simp only [UInt8.ofNat_add] at hb ⊢
    grind
  · intro b' hb
    refine ⟨rfl, (hcount b').1, ?_, by simp [hb]⟩
    rw [(hcount b').2, if_neg (Ne.symm hb), Nat.add_zero]

/-- A release is made once more. -/
theorem Bufs.hole (hv : Bufs d h v) (b : Fin n) : Bufs d (.buf b ::ₘ h) (v.note (.hole b)) := by
  have hcount : ∀ b', (v.note (.hole b)).missing b' = v.missing b' ∧ (v.note (.hole b)).extra b'
        = v.extra b' + if b = b' then 1 else 0 := by
    intro b'
    simp [View.extra, View.missing, View.note, List.count_cons]
  apply hv.set b
  · have hb := hv b
    rw [(hcount b).1, (hcount b).2, if_pos rfl, Multiset.count_cons_self]
    change v.cnt b + _ = _
    simp only [UInt8.ofNat_add] at hb ⊢
    grind
  · intro b' hb
    refine ⟨rfl, ?_, (hcount b').1, by simp [hb]⟩
    rw [(hcount b').2, if_neg (Ne.symm hb), Nat.add_zero]

-- ======== the logic

def counting (c : Slot → UInt16) (d : Fin n → UInt8) : Logic n where
  inv h v := Slots c h v ∧ Bufs d h v
  err _ _ := True

theorem bufs_setIno (hv : Bufs d h v)
    (hh : ∀ b, h'.count (.buf b) = h.count (.buf b)) : Bufs d h' (v.setIno j m) :=
  hv.congr rfl (fun _ => ⟨rfl, rfl⟩) hh

theorem Slots.congr (hv : Slots c h v) (hi : v'.ino = v.ino)
    (ho : ∀ k, refsTo h' k = refsTo h k) : Slots c h' v' := by
  intro j
  rw [hi, ho]
  exact hv j

theorem counting_make : (counting c d).Make where
  err _ _ := trivial
  getBuf hv := ⟨hv.1.congr rfl (refsTo_buf _), hv.2.get _⟩
  putBuf hv _ := ⟨hv.1.congr rfl fun k => (refsTo_buf _ k).symm, hv.2.put⟩
  clean hv := ⟨hv.1.keep rfl fun _ => rfl, bufs_setIno hv.2 fun _ => rfl⟩
  dirty hv _ :=
    ⟨hv.1.keep rfl fun _ => rfl, bufs_setIno hv.2 fun _ => rfl⟩
  busy hv := ⟨hv.1.congr rfl fun k => (refsTo_buf _ k).symm, hv.2.miss (.inl rfl)⟩
  badDirectory hv := ⟨hv.1.congr rfl fun k => (refsTo_buf _ k).symm, hv.2.miss (.inr rfl)⟩
  hole hv := ⟨hv.1.congr rfl (refsTo_buf _), hv.2.hole _⟩
  writeInodeDev _ _ _ _ := trivial
  drop hv _ _ := ⟨hv.1.less rfl (refsTo_ino _), bufs_setIno hv.2 fun _ => by simp⟩
  unpipe hv h1 _ := ⟨hv.1.less (by rw [h1]; rfl) (refsTo_ino _), bufs_setIno hv.2 fun _ => by simp⟩
  wipe hv h1 := ⟨hv.1.less (by rw [h1]; rfl) (refsTo_ino _), bufs_setIno hv.2 fun _ => by simp⟩
  take := by
    intro h v j hv _
    have ht : (counting c d).inv (.ino j ::ₘ h)
        (v.setIno j ((v.ino j).setCount ((v.ino j).count + 1))) :=
      ⟨hv.1.more rfl (refsTo_ino _), bufs_setIno hv.2 fun _ => by simp⟩
    unfold View.take
    split
    · refine ⟨ht.1, ht.2.congr rfl (fun b => ?_) fun _ => rfl⟩
      simp [View.extra, View.missing, View.note, View.setIno]
    · exact ht
  empty hv h0 := ⟨hv.1.more (by rw [h0]; rfl) (refsTo_blank _), bufs_setIno hv.2 fun _ => by simp⟩
  unblank hv _ := ⟨hv.1.less rfl (refsTo_blank _), bufs_setIno hv.2 fun _ => by simp⟩
  name hv _ _ _ := ⟨hv.1.keep rfl fun k => by rw [refsTo_ino, refsTo_blank],
    bufs_setIno hv.2 fun _ => by simp⟩
  noSb := by
    intro h v k hv _ _
    refine ⟨hv.1, hv.2.congr rfl (fun b => ?_) fun _ => rfl⟩
    simp [View.extra, View.missing, View.note]
  restarts _ _ _ := trivial
  make := by
    intro h v e dev nr hv he _
    refine ⟨hv.1.keep ?_ fun k => ?_, bufs_setIno hv.2 fun _ => by simp⟩
    · rw [he]
      rfl
    · rw [refsTo_ino, refsTo_blank]

-- ======== the calls

/-- What the caller of `truncate` holds. -/
def Call.own : Call → Holdings n
  | .truncate j => {.ino j}
  | _ => 0

theorem Call.run_runs {L : Logic n} (hL : L.Make) {fuel : Nat} (o : Call) :
    L.Runs o.own (o.run fuel) (withIno o.own) := by
  cases o with
  | mknod filename mode dev =>
    exact andThen (sysMknod_runs hL filename mode dev) fun _ => ret rfl
  | mkdir pathname mode =>
    exact andThen (sysMkdir_runs hL pathname mode) fun _ => ret rfl
  | rmdir pathname =>
    exact andThen (sysRmdir_runs hL.toGet pathname) fun _ => ret rfl
  | unlink pathname =>
    exact andThen (sysUnlink_runs hL.toGet pathname) fun _ => ret rfl
  | link oldname newname =>
    exact andThen (sysLink_runs hL.toGet oldname newname) fun _ => ret rfl
  | openNamei pathname flag mode =>
    exact andThen (openNamei_runs hL pathname flag mode) fun _ => ret rfl
  | truncate j =>
    exact seq (truncate_runs hL.toIo (Multiset.mem_singleton_self _)) (ret rfl)
  | freeBlock dev block =>
    exact seq (freeBlock_runs hL.toIo dev block) (ret rfl)

theorem Call.own_buf (o : Call) (r : Option Slot) : (withIno o.own r).count (.buf b) = 0 := by
  cases r <;> cases o <;> simp [withIno, Call.own]

theorem ofNat_eq_iff (a b : Nat) : UInt8.ofNat a = UInt8.ofNat b ↔ a % 256 = b % 256 := by
  rw [← UInt8.toNat_inj, UInt8.toNat_ofNat', UInt8.toNat_ofNat']

/-- A call that returns has given back every reference to an inode but the
one it hands out; to a buffer, if and only if the releases it left out are
as many as those it made once more, for the 8 bits of a count. -/
theorem references_returned_iff {fuel : Nat} (o : Call) {s s' : Machine n}
    {r : Option Slot} (hr : o.exec fuel s = (.ok r, s')) : (∀ j, (s'.ino j).count
      = (s.ino j).count + if r = some j then 1 else 0) ∧
    ((∀ b, (s'.head b).count = (s.head b).count) ↔ ∀ b, s'.missing b % 256 = s'.extra b % 256) := by
  -- the references of the caller of `truncate` were there before
  let c : Slot → UInt16 := fun j =>
    (s.ino j).count - UInt16.ofNat (refsTo (o.own : Holdings n) j)
  let d : Fin n → UInt8 := fun b => (s.head b).count
  have hstart : (counting c d).inv o.own ({ s with trace := [] } : Machine n).view := by
    constructor
    · intro j
      exact (UInt16.sub_add_cancel _ _).symm
    · intro b
      have hb : Multiset.count (.buf b) (o.own : Holdings n) = 0 :=
        o.own_buf none
      rw [hb]
      rfl
  have hend := (o.run_runs counting_make _ hstart).ok hr
  refine ⟨fun j => ?_, forall_congr' fun b => ?_⟩
  · have hj := hend.1 j
    change (s'.ino j).count = _ at hj
    rw [hj]
    cases r with
    | none =>
      change (s.ino j).count - UInt16.ofNat (refsTo o.own j)
        + UInt16.ofNat (refsTo o.own j) = (s.ino j).count + 0
      rw [UInt16.sub_add_cancel, UInt16.add_zero]
    | some k =>
      change (s.ino j).count - _ + UInt16.ofNat (refsTo (.ino k ::ₘ _) j) = _
      rw [refsTo_ino, UInt16.ofNat_add, ← UInt16.add_assoc, UInt16.sub_add_cancel]
      by_cases hk : j = k
      · rw [if_pos hk, if_pos (by rw [hk])]
        rfl
      · rw [if_neg hk, if_neg fun h => hk (Option.some.inj h).symm]
        rfl
  · have hb := hend.2 b
    rw [Call.own_buf, Nat.zero_add] at hb
    change (s'.head b).count + UInt8.ofNat (s'.extra b)
      = (s.head b).count + UInt8.ofNat (s'.missing b) at hb
    rw [← ofNat_eq_iff]
    constructor
    · intro he
      rw [he] at hb
      exact ((UInt8.add_right_inj _).mp hb).symm
    · intro he
      rw [he] at hb
      exact (UInt8.add_left_inj _).mp hb

-- ======== two small runs

/-- A machine with two buffers: the map of the zones of device 1 is in the
first one, and its block 5 in the second, which `users` have. -/
def cachedBlock (users : UInt8) : Machine 2 where
  cache :=
    { head := fun b => if b = 0 then ⟨1, 3, 1, false, false, true⟩
        else ⟨1, 5, users, false, false, true⟩
      next := fun _ => none
      prev := fun _ => none
      nextFree := fun b => if b = 0 then some 1 else some 0
      prevFree := fun b => if b = 0 then some 1 else some 0
      hashTable := fun k => if k = 4 then some 1 else if k = 2 then some 0
        else none
      freeList := some 0
      taken := [] }
  data _ _ := 255
  disk _ _ _ := 0
  driver _ := true
  io _ := true
  ticks := 0
  dinode _ := .zero
  ino _ := .blank 0
  lock _ := false
  lastInode := 0
  super _ := ⟨10, 10, 1, 1, 4, SUPER_MAGIC, fun _ => none, fun k =>
    if k = 0 then some 0 else none⟩
  mnt i := ⟨if i = 0 then 1 else 0, none, none⟩
  slock _ := false
  rootDev := 1
  root := none
  pwd := none
  task := ⟨0, 0, 0⟩
  trace := []

theorem references_returned_iff_free : ∃ s' : Machine 2,
    Call.exec 1 (.freeBlock 1 5) (cachedBlock 0) = (.ok none, s') ∧
    (∀ b, (s'.head b).count = ((cachedBlock 0).head b).count) := by
  have hr : (Call.exec 1 (.freeBlock 1 5) (cachedBlock 0)).1 = .ok none := by
    decide +kernel
  refine ⟨(Call.exec 1 (.freeBlock 1 5) (cachedBlock 0)).2, Prod.ext hr rfl, ?_⟩
  refine (references_returned_iff (.freeBlock 1 5) (Prod.ext hr rfl)).2.mpr ?_
  decide +kernel

/-- A block is freed while a task has its buffer: the call returns with
one reference more. -/
theorem busy_block_not_released : ¬ ∀ (o : Call) (s s' : Machine 2)
    (r : Option Slot), o.exec 1 s = (.ok r, s') → ∀ b, (s'.head b).count = (s.head b).count := by
  intro hall
  have hr : (Call.exec 1 (.freeBlock 1 5) (cachedBlock 1)).1 = .ok none := by
    decide +kernel
  have hb := hall (.freeBlock 1 5) (cachedBlock 1) _ none (Prod.ext hr rfl) 1
  revert hb
  decide +kernel

end LearnLinux.Kernel
