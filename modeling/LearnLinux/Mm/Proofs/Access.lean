/-
A user store changes one byte of one address space.

`userWrite_spec` is the whole content of copy-on-write for a single
store: under the invariant, of ALL the user linear addresses only the
one stored to reads differently afterwards. The write-protect fault is
`UnWp` (Faults.lean), which changes no view; after it the entry is
writable, so its frame has a single reference, and the byte that goes
into the frame shows nowhere else.
-/
import LearnLinux.Mm.Access
import LearnLinux.Mm.Proofs.Faults

namespace LearnLinux.Mm

open Lib

variable {lo hi a a' i j off b : Nat} {H : Finset Nat} {s s' : Mem}

-- ======== bytes

/-- Long arithmetic of a byte store: the other bytes of the long
stay. -/
theorem byteOf_setByteOf {w b : Nat} {k k' : Nat} (hk : k < 4) (hk' : k' < 4) :
    byteOf (setByteOf w k b) k' = if k' = k then b % 256 else byteOf w k' := by
  unfold byteOf setByteOf byteOf
  have : k = 0 ∨ k = 1 ∨ k = 2 ∨ k = 3 := by omega
  have : k' = 0 ∨ k' = 1 ∨ k' = 2 ∨ k' = 3 := by omega
  rcases ‹k = 0 ∨ _› with rfl | rfl | rfl | rfl <;>
    rcases ‹k' = 0 ∨ _› with rfl | rfl | rfl | rfl <;> simp <;> omega

-- ======== translation

theorem entryOf_eq : entryOf s a = pteAt s (dirNr a) (pageNr a) := rfl

theorem pageNr_lt (a : Nat) : pageNr a < 1024 := Nat.mod_lt _ (by omega)

/-- A load is the view of the page, byte by byte. -/
theorem userRead_eq : userRead s a = (pageWord s (dirNr a) (pageNr a) (a % 4096 / 4)).map
      fun w => byteOf w (a % 4) := by
  unfold userRead pageWord
  rw [entryOf_eq]
  split
  · have h1 : (frame (pteAt s (dirNr a) (pageNr a)) * 4096 + a % 4096) / 4
        = frame (pteAt s (dirNr a) (pageNr a)) * 1024 + a % 4096 / 4 := by
      omega
    have h2 : (frame (pteAt s (dirNr a) (pageNr a)) * 4096 + a % 4096) % 4 = a % 4 := by
      omega
    unfold Mem.byte physAddr
    rw [entryOf_eq, pageAddr_eq, h1, h2]
    rfl
  · rfl

theorem userRead_congr (h : pageWord s' (dirNr a) (pageNr a) (a % 4096 / 4)
      = pageWord s (dirNr a) (pageNr a) (a % 4096 / 4)) : userRead s' a = userRead s a := by
  rw [userRead_eq, userRead_eq, h]

/-- A linear address of user space. -/
def UserAddr (a : Nat) : Prop := 0x1000000 ≤ a ∧ a < 2 ^ 32

theorem UserAddr.dir (ha : UserAddr a) : UserDir (dirNr a) := by
  unfold UserAddr at ha
  unfold UserDir dirNr
  omega

/-- An address is its directory slot, its page slot and its offset. -/
theorem addr_ext (ha : a < 2 ^ 32) (ha' : a' < 2 ^ 32)
    (h1 : dirNr a = dirNr a') (h2 : pageNr a = pageNr a') (h3 : a % 4096 = a' % 4096) : a = a' := by
  unfold dirNr at h1
  unfold pageNr at h2
  omega

-- ======== the store

/-- The dirty bit of the present slot `(i, j)` has been set. -/
structure Dirtied (lo hi : Nat) (H : Finset Nat) (s : Mem) (i j : Nat) (s' : Mem) : Prop where
  paging : Paging lo hi H s'
  self : pteAt s' i j = setDirty (pteAt s i j)
  other : ∀ i' j', UserDir i' → j' < 1024 → ¬ (i' = i ∧ j' = j) → pteAt s' i' j' = pteAt s i' j'
  low : ∀ k, k < 256 * 1024 → s'.word k = s.word k
  map : s'.memMap = s.memMap
  high : s'.highMemory = s.highMemory
  view : ∀ i' j' k, UserDir i' → j' < 1024 → k < 1024 → pageWord s' i' j' k = pageWord s i' j' k

theorem Paging.dirtied (h : Paging lo hi H s)
    (hi' : UserDir i) (hj : j < 1024) (hp : present (pteAt s i j)) :
    Dirtied lo hi H s i j (s.store (frame (s.word i) * 1024 + j) (setDirty (pteAt s i j))) := by
  have hr := h.reflagged hi' hj hp (present_setDirty.mpr hp) (frame_setDirty _) fun hwr => by
    rw [frame_setDirty]
    exact h.sole i j hi' hj hp (writable_setDirty.mp hwr)
  exact ⟨hr.paging, hr.self, hr.other, hr.low, rfl, rfl, hr.view⟩

/-- A byte stored into page `f` stays inside page `f`. -/
theorem Mem.storeByte_dataChange (s : Mem) {f : Nat} (b : Nat)
    (ha : a / 4096 = f) : DataChange f s (s.storeByte a b) := by
  refine ⟨fun k hk => ?_, rfl, rfl⟩
  unfold Mem.storeByte
  rw [Mem.store_word, if_neg (by omega)]

/-- What a store through the present slot `(i, j)` did: byte `off` of
its page is `b`, and slots on other frames read as before. -/
structure Put (lo hi : Nat) (H : Finset Nat) (s : Mem) (i j off b : Nat) (s' : Mem) : Prop where
  paging : Paging lo hi H s'
  self : pteAt s' i j = setDirty (pteAt s i j)
  other : ∀ i' j', UserDir i' → j' < 1024 → ¬ (i' = i ∧ j' = j) → pteAt s' i' j' = pteAt s i' j'
  low : ∀ k, k < 256 * 1024 → s'.word k = s.word k
  map : s'.memMap = s.memMap
  high : s'.highMemory = s.highMemory
  byte : ∀ k, k < 1024 → pageWord s' i j k = (pageWord s i j k).map fun w =>
    if k = off / 4 then setByteOf w (off % 4) b else w
  view : ∀ i' j' k, UserDir i' → j' < 1024 → k < 1024 → ¬ (i' = i ∧ j' = j) →
    (present (pteAt s i' j') → frame (pteAt s i' j') ≠ frame (pteAt s i j)) →
    pageWord s' i' j' k = pageWord s i' j' k

/-- The store, when the slot's frame is in main memory. -/
theorem Paging.put (h : Paging lo hi H s)
    (hi' : UserDir i) (hj : j < 1024) (hp : present (pteAt s i j))
    (hin : InMain lo hi (frame (pteAt s i j))) (hoff : off < 4096) : Put lo hi H s i j off b
      ((s.store (frame (s.word i) * 1024 + j) (setDirty (pteAt s i j))).storeByte
          (frame (pteAt s i j) * 4096 + off) b) := by
  have hd := h.dirtied hi' hj hp
  generalize s.store (frame (s.word i) * 1024 + j) (setDirty (pteAt s i j)) = s1 at hd
  have hge := h.main_ge hin
  have hf1 : frame (pteAt s1 i j) = frame (pteAt s i j) := by
    rw [hd.self, frame_setDirty]
  have hp1 : present (pteAt s1 i j) := by
    rw [hd.self, present_setDirty]
    exact hp
  have hnt : NotTable s1 (frame (pteAt s i j)) := by
    rw [← hf1] at hin ⊢
    exact hd.paging.page_notTable hi' hj hp1 hin
  have hc := s1.storeByte_dataChange b (by omega : (frame (pteAt s i j) * 4096 + off) / 4096
      = frame (pteAt s i j))
  refine ⟨hd.paging.dataChange hc hnt, ?_, ?_, ?_, ?_, ?_, ?_, ?_⟩
  · rw [hc.pte_eq hnt hi' hj, hd.self]
  · intro i' j' hi'' hj' hne
    rw [hc.pte_eq hnt hi'' hj', hd.other i' j' hi'' hj' hne]
  · intro k hk
    rw [hc.out k (by omega), hd.low k hk]
  · rw [hc.map, hd.map]
  · rw [hc.high, hd.high]
  · intro k hk
    rw [← hd.view i j k hi' hj hk, pageWord_of_present hp1,
      pageWord_of_present (by rw [hc.pte_eq hnt hi' hj]; exact hp1),
      hc.pte_eq hnt hi' hj, hf1, Option.map_some]
    unfold Mem.storeByte
    have h4 : (frame (pteAt s i j) * 4096 + off) / 4
        = frame (pteAt s i j) * 1024 + off / 4 := by omega
    have h4' : (frame (pteAt s i j) * 4096 + off) % 4 = off % 4 := by omega
    rw [Mem.store_word, h4, h4']
    by_cases hk' : k = off / 4
    · rw [if_pos (by omega), if_pos hk', hk']
    · rw [if_neg (by omega), if_neg hk']
  · intro i' j' k hi'' hj' hk hne hfr
    rw [← hd.view i' j' k hi'' hj' hk]
    refine hc.view hnt hi'' hj' hk ?_
    rw [hd.other i' j' hi'' hj' hne]
    exact hfr

/-- What a store through the writable slot `(i, j)` did: byte `off` of
its page is `b`, nothing else reads differently. -/
structure Stored (lo hi : Nat) (H : Finset Nat) (s : Mem) (i j off b : Nat) (s' : Mem) : Prop where
  paging : Paging lo hi H s'
  self : pteAt s' i j = setDirty (pteAt s i j)
  other : ∀ i' j', UserDir i' → j' < 1024 → ¬ (i' = i ∧ j' = j) → pteAt s' i' j' = pteAt s i' j'
  low : ∀ k, k < 256 * 1024 → s'.word k = s.word k
  map : s'.memMap = s.memMap
  high : s'.highMemory = s.highMemory
  byte : ∀ k, k < 1024 → pageWord s' i j k = (pageWord s i j k).map fun w =>
    if k = off / 4 then setByteOf w (off % 4) b else w
  view : ∀ i' j' k, UserDir i' → j' < 1024 → k < 1024 →
    ¬ (i' = i ∧ j' = j) → pageWord s' i' j' k = pageWord s i' j' k

/-- The store, when the slot's frame has no other reference. -/
theorem Paging.stored (h : Paging lo hi H s)
    (hi' : UserDir i) (hj : j < 1024) (hp : present (pteAt s i j))
    (hin : InMain lo hi (frame (pteAt s i j)))
    (h1 : frameRefs s (frame (pteAt s i j)) = 1) (hoff : off < 4096) : Stored lo hi H s i j off b
      ((s.store (frame (s.word i) * 1024 + j) (setDirty (pteAt s i j))).storeByte
          (frame (pteAt s i j) * 4096 + off) b) := by
  have hput := h.put (b := b) hi' hj hp hin hoff
  refine ⟨hput.paging, hput.self, hput.other, hput.low, hput.map, hput.high, hput.byte, ?_⟩
  intro i' j' k hi'' hj' hk hne
  refine hput.view i' j' k hi'' hj' hk hne fun hp' hfr => hne ?_
  -- a second slot on the frame would be a second reference
  have := frameRefs_one_unique h1 (mem_userSlots_page hi'' hj') (mem_userSlots_page hi' hj)
    (by rw [target_page s hj', entryTarget_of_present hp', hfr])
    (by rw [target_page s hj, entryTarget_of_present hp])
  exact Prod.mk.inj this

theorem tableEntryOf_eq : tableEntryOf s a = frame (s.word (dirNr a)) * 1024 + pageNr a := rfl

section

variable (ha : UserAddr a) (hp : present (entryOf s a))
include ha hp

/-- The dirty bit does not move the entry, so `userPut` stores where the
entry pointed. -/
theorem userPut_eq (h : Paging lo hi H s) : userPut a b s
      = (s.store (frame (s.word (dirNr a)) * 1024 + pageNr a)
          (setDirty (pteAt s (dirNr a) (pageNr a)))).storeByte
        (frame (pteAt s (dirNr a) (pageNr a)) * 4096 + a % 4096) b := by
  have hd := h.dirtied ha.dir (pageNr_lt a) hp
  unfold userPut physAddr
  simp only [tableEntryOf_eq, entryOf_eq, pageAddr_eq, hd.self, frame_setDirty]

/-- `userPut` through a writable entry. -/
theorem stored_of_userPut (h : Paging lo hi H s) (hwr : writable (entryOf s a)) (b : Nat) :
    Stored lo hi H s (dirNr a) (pageNr a) (a % 4096) b (userPut a b s) := by
  obtain ⟨hin, h1⟩ := h.sole _ _ ha.dir (pageNr_lt a) hp hwr
  rw [userPut_eq ha hp h]
  exact h.stored ha.dir (pageNr_lt a) hp hin h1 (Nat.mod_lt _ (by omega))

/-- A store seen by loads: one address, where the page of the other
address shows nothing else. -/
theorem userRead_put (hbyte : ∀ k, k < 1024 → pageWord s' (dirNr a) (pageNr a) k =
      (pageWord s (dirNr a) (pageNr a) k).map fun w =>
        if k = a % 4096 / 4 then setByteOf w (a % 4096 % 4) b else w) (ha' : UserAddr a')
    (hview : ¬ (dirNr a' = dirNr a ∧ pageNr a' = pageNr a) → userRead s' a' = userRead s a') :
    userRead s' a' = if a' = a then some (b % 256) else userRead s a' := by
  by_cases hslot : dirNr a' = dirNr a ∧ pageNr a' = pageNr a
  · obtain ⟨hdir, hpage⟩ := hslot
    have h4 : a' % 4096 / 4 < 1024 := by omega
    rw [userRead_eq, userRead_eq, hdir, hpage, hbyte _ h4,
      pageWord_of_present hp, Option.map_some, Option.map_some, Option.map_some]
    by_cases hk : a' % 4096 / 4 = a % 4096 / 4
    · -- the same long: byte against byte
      rw [if_pos hk, byteOf_setByteOf (by omega) (by omega)]
      by_cases hb : a' % 4 = a % 4096 % 4
      · rw [if_pos hb, if_pos (addr_ext ha'.2 ha.2 hdir hpage (by omega))]
      · rw [if_neg hb, if_neg (by omega)]
    · rw [if_neg hk, if_neg (by omega)]
  · rw [if_neg fun hc => hslot (by rw [hc]; exact ⟨rfl, rfl⟩)]
    exact hview hslot

theorem Stored.userRead (hs : Stored lo hi H s (dirNr a) (pageNr a) (a % 4096) b s')
    (ha' : UserAddr a') :
    userRead s' a' = if a' = a then some (b % 256) else userRead s a' :=
  userRead_put ha hp hs.byte ha' fun hslot =>
    userRead_congr (hs.view _ _ _ ha'.dir (pageNr_lt a') (by omega) hslot)

end

/-- A user store: the fault, if the entry lacks W, and then the put
through a writable entry. -/
theorem userWrite_cases (h : Paging lo hi H s) (ha : UserAddr a) (hw : userWrite a b s = some s') :
    present (entryOf s a) ∧ ∃ s1, s' = userPut a b s1
      ∧ present (entryOf s1 a) ∧ writable (entryOf s1 a)
      ∧ (s1 = s ∨ UnWp lo hi H s (dirNr a) (pageNr a) s1) := by
  obtain ⟨hp, hw⟩ := Option.ite_none_right_eq_some.mp hw
  split at hw
  · rename_i hwr
    cases hw
    exact ⟨hp, s, rfl, hp, hwr, .inl rfl⟩
  · split at hw
    · cases hw
    · rename_i s1 hu
      cases hw
      have hun := h.unWp_of_unWpPage ha.dir (pageNr_lt a) hp hu
      exact ⟨hp, s1, rfl, hun.isPresent hp, hun.isWritable, .inr hun⟩

/-- Copy-on-write in one statement: of all user addresses, a store by
any task changes what is read at the address stored to, and there
only. -/
theorem userWrite_spec (h : Paging lo hi H s) (ha : UserAddr a) (hw : userWrite a b s = some s') :
    Paging lo hi H s' ∧ ∀ a', UserAddr a' → userRead s' a' = if a' = a then some (b % 256)
        else userRead s a' := by
  obtain ⟨-, s1, rfl, hp1, hwr1, hs1⟩ := userWrite_cases h ha hw
  rcases hs1 with rfl | hun
  · have hst := stored_of_userPut ha hp1 h hwr1 b
    exact ⟨hst.paging, fun a' ha' => hst.userRead ha hp1 ha'⟩
  · have hst := stored_of_userPut ha hp1 hun.paging hwr1 b
    refine ⟨hst.paging, fun a' ha' => ?_⟩
    rw [hst.userRead ha hp1 ha', userRead_congr (hun.view _ _ _ ha'.dir (pageNr_lt a') (by omega))]

end LearnLinux.Mm
