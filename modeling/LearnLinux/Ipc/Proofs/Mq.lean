/-
The two lists of a message queue.

`Wf q F L` says that the free list goes through the slots `F` and the list
of messages through the slots `L`, and that these together are all slots.
The slots lie apart from each other and from `mqh_head`, so a store into
one of them is a store into no other: with that, `insert` and `take` are
the surgery on the two lists that they look like. On top of it, the
messages on the list are sorted and stable, and what `take` returns is
the oldest message of the highest priority.
-/
import LearnLinux.Ipc.Mq
import LearnLinux.Lib.Links

set_option linter.unusedSectionVars false

namespace LearnLinux.Mq

open LearnLinux.Lib

-- ======== the slots

/-- The offsets of the slots. -/
def slots (maxmsg msgsize : Nat) : List Nat :=
  (List.range maxmsg).map fun i => sizeofHdr + i * stride msgsize

theorem le_MSGSIZE (i : Nat) : i ≤ MSGSIZE i := by
  unfold MSGSIZE
  omega

theorem mem_slots {maxmsg msgsize x : Nat} : x ∈ slots maxmsg msgsize ↔
    ∃ i < maxmsg, x = sizeofHdr + i * stride msgsize := by
  simp only [slots, List.mem_map, List.mem_range]
  constructor
  · rintro ⟨i, hi, rfl⟩
    exact ⟨i, hi, rfl⟩
  · rintro ⟨i, hi, rfl⟩
    exact ⟨i, hi, rfl⟩

theorem stride_pos {msgsize : Nat} : 0 < stride msgsize :=
  Nat.lt_of_lt_of_le (by decide : 0 < sizeofMsgHdr) (Nat.le_add_right ..)

theorem slots_nodup {maxmsg msgsize : Nat} : (slots maxmsg msgsize).Nodup := by
  refine List.nodup_range.map fun i j hij => ?_
  have : i * stride msgsize = j * stride msgsize := by
    simpa using hij
  exact Nat.eq_of_mul_eq_mul_right stride_pos this

variable {maxmsg msgsize x y : Nat}

/-- A slot lies behind the header and inside the file. -/
theorem slot_bounds (hx : x ∈ slots maxmsg msgsize) : sizeofHdr ≤ x ∧
    x + stride msgsize ≤ filesize maxmsg msgsize := by
  obtain ⟨i, hi, rfl⟩ := mem_slots.mp hx
  have h : (i + 1) * stride msgsize ≤ maxmsg * stride msgsize :=
    Nat.mul_le_mul_right _ hi
  rw [Nat.add_mul, Nat.one_mul] at h
  unfold filesize
  omega

/-- Two slots do not overlap. -/
theorem slots_apart (hx : x ∈ slots maxmsg msgsize) (hy : y ∈ slots maxmsg msgsize) (hne : x ≠ y) :
    x + stride msgsize ≤ y ∨ y + stride msgsize ≤ x := by
  obtain ⟨i, -, rfl⟩ := mem_slots.mp hx
  obtain ⟨j, -, rfl⟩ := mem_slots.mp hy
  rcases Nat.lt_trichotomy i j with h | rfl | h
  · have := Nat.mul_le_mul_right (stride msgsize) (Nat.succ_le_of_lt h)
    rw [Nat.succ_mul] at this
    omega
  · exact absurd rfl hne
  · have := Nat.mul_le_mul_right (stride msgsize) (Nat.succ_le_of_lt h)
    rw [Nat.succ_mul] at this
    omega

/-- The parts of a slot, and where `mqh_head` is. -/
theorem layout (msgsize : Nat) : headOff + 8 ≤ sizeofHdr ∧
    lenOff = 8 ∧ prioOff = 16 ∧ sizeofMsgHdr = 24 ∧ 24 + msgsize ≤ stride msgsize := by
  have := le_MSGSIZE msgsize
  refine ⟨by decide, rfl, rfl, rfl, ?_⟩
  unfold stride sizeofMsgHdr
  omega

-- ======== the accesses

variable {mem mem' : Nat → UInt8} {v : Nat}

theorem msgNext_setNext (hv : v < 2 ^ 64) : msgNext (setNext mem x v) x = v :=
  load_store_self (by omega)

theorem msgNext_congr (h : ∀ z, x ≤ z → z < x + 8 → mem' z = mem z) :
    msgNext mem' x = msgNext mem x := by
  unfold msgNext load
  rw [peek_congr h]

/-- A message is in the bytes of its slot behind `msg_next`. -/
theorem msgAt_congr (hlen : msgLen mem x ≤ msgsize)
    (h : ∀ z, x + 8 ≤ z → z < x + stride msgsize → mem' z = mem z) :
    msgAt mem' x = msgAt mem x ∧ msgLen mem' x = msgLen mem x := by
  obtain ⟨-, h1, h2, h3, h4⟩ := layout msgsize
  have hl : msgLen mem' x = msgLen mem x := by
    unfold msgLen load
    rw [peek_congr fun z hz hz' => h z (by omega) (by omega)]
  refine ⟨?_, hl⟩
  unfold msgAt msgPrio load
  rw [hl, peek_congr fun z hz hz' => h z (by omega) (by omega),
    peek_congr fun z hz hz' => h z (by omega) (by omega)]

theorem setNext_outside {z : Nat} (h : z < x ∨ x + 8 ≤ z) : setNext mem x v z = mem z :=
  poke_of_outside (by rwa [encode_length])

-- ======== the invariant

/-- The free list goes through the slots `F`, the list of messages through
the slots `L`. -/
structure Wf (q : Queue) (F L : List Nat) : Prop where
  bound : filesize q.maxmsg q.msgsize ≤ LONG_MAX
  cover : (F ++ L).Perm (slots q.maxmsg q.msgsize)
  free : Walk (msgNext q.mem) q.free F 0
  msgs : Walk (msgNext q.mem) (msgNext q.mem headOff) L 0
  count : q.curmsgs = L.length
  fits : ∀ x ∈ L, msgLen q.mem x ≤ q.msgsize

variable {q : Queue} {F L : List Nat} {m : Msg} {f st : Nat} {next : Nat → Nat}

theorem Wf.mem_slots_iff (h : Wf q F L) {x : Nat} :
    x ∈ slots q.maxmsg q.msgsize ↔ x ∈ F ∨ x ∈ L := by
  rw [← h.cover.mem_iff, List.mem_append]

theorem Wf.nodup (h : Wf q F L) : (F ++ L).Nodup :=
  h.cover.nodup_iff.mpr slots_nodup

theorem Wf.length (h : Wf q F L) : F.length + L.length = q.maxmsg := by
  have := h.cover.length_eq
  simpa [slots] using this

/-- The messages on the list, first one first. -/
def contents (q : Queue) (L : List Nat) : List Msg := L.map (msgAt q.mem)

-- ======== insertion

/-- The loop of `mymq_send` stops behind the messages of no smaller
priority, and links the new one in there. -/
theorem insertLoop_spec (prio : UInt32) : ∀ (fuel : Nat) {L : List Nat} {index : Nat} (p : Nat),
      Walk (msgNext mem) index L 0 → (∀ x ∈ L, x ≠ 0) → L.length < fuel →
      ∃ L1 L2 mem', L = L1 ++ L2 ∧ insertLoop prio f fuel mem index p = some mem' ∧
        (∀ x ∈ L1, prio ≤ msgPrio mem x) ∧ (∀ x, L2.head? = some x → msgPrio mem x < prio) ∧
        (mem' = setNext (setNext mem f (L2.headD 0)) (L1.getLastD p) f ∨
          mem' = setNext (setNext mem (L1.getLastD p) f) f (L2.headD 0)) := by
  intro fuel
  induction fuel with
  | zero => exact fun _ _ _ hlt => absurd hlt (Nat.not_lt_zero _)
  | succ fuel ih =>
    intro L index p hpath hne hlt
    cases L with
    | nil =>
      obtain rfl : index = 0 := hpath
      refine ⟨[], [], _, rfl, ?_, nofun, nofun, .inr rfl⟩
      rw [insertLoop, if_neg (not_not.mpr rfl)]
      rfl
    | cons x L =>
      obtain ⟨rfl, hpath⟩ := hpath
      have hx : index ≠ 0 := hne index (List.mem_cons_self ..)
      by_cases hprio : prio > msgPrio mem index
      · refine ⟨[], index :: L, _, rfl, ?_, nofun, ?_, .inl rfl⟩
        · rw [insertLoop, if_pos hx, if_pos hprio]
          rfl
        · intro x hxe
          cases hxe
          exact hprio
      · obtain ⟨L1, L2, mem', rfl, hrun, hge, hlt', hmem⟩ := ih index hpath
          (fun y hy => hne y (List.mem_cons_of_mem index hy)) (Nat.lt_of_succ_lt_succ hlt)
        refine ⟨index :: L1, L2, mem', rfl, ?_, ?_, hlt', ?_⟩
        · rw [insertLoop, if_pos hx, if_neg hprio]
          exact hrun
        · intro y hy
          rcases List.mem_cons.mp hy with rfl | hy
          · exact UInt32.not_lt.mp hprio
          · exact hge y hy
        · rw [List.getLastD_cons]
          exact hmem

/-- A message that is written into a slot is there, and nothing else has
changed. -/
theorem fill_spec (hlen : m.text.length ≤ msgsize)
    (hsize : msgsize < 2 ^ 63) :
    (∀ z, z < f + 8 ∨ f + stride msgsize ≤ z → fill f m mem z = mem z) ∧
    msgAt (fill f m mem) f = m ∧ msgLen (fill f m mem) f = m.text.length := by
  obtain ⟨-, h1, h2, h3, h4⟩ := layout msgsize
  have hl : msgLen (fill f m mem) f = m.text.length := by
    unfold msgLen fill
    rw [load_poke_of_disjoint (by omega), load_store_self (by omega)]
  have hp : msgPrio (fill f m mem) f = m.prio := by
    unfold msgPrio fill
    rw [load_poke_of_disjoint (by omega), load_store_of_disjoint (by omega),
      load_store_self (Nat.lt_of_lt_of_eq m.prio.toNat_lt (by decide))]
    exact UInt32.ofNat_toNat
  refine ⟨fun z hz => ?_, ?_, hl⟩
  · unfold fill store
    rw [poke_of_outside (by omega), poke_of_outside (by rw [encode_length]; omega),
      poke_of_outside (by rw [encode_length]; omega)]
  · unfold msgAt
    rw [hl, hp]
    unfold fill
    rw [peek_poke_self]

/-- The two stores that link a slot in behind `p`. -/
theorem splice_spec {p b : Nat} (hfp : f + 8 ≤ p ∨ p + 8 ≤ f) (hf : f < 2 ^ 64) (hb : b < 2 ^ 64)
    (h : mem' = setNext (setNext mem f b) p f ∨ mem' = setNext (setNext mem p f) f b) :
    msgNext mem' p = f ∧ msgNext mem' f = b ∧
    ∀ z, (z < f ∨ f + 8 ≤ z) → (z < p ∨ p + 8 ≤ z) → mem' z = mem z := by
  rcases h with rfl | rfl
  · refine ⟨msgNext_setNext hf, ?_, fun z hzf hzp => ?_⟩
    · rw [msgNext_congr fun z hz hz' => setNext_outside (by omega), msgNext_setNext hb]
    · rw [setNext_outside hzp, setNext_outside hzf]
  · refine ⟨?_, msgNext_setNext hb, fun z hzf hzp => ?_⟩
    · rw [msgNext_congr fun z hz hz' => setNext_outside (by omega), msgNext_setNext hf]
    · rw [setNext_outside hzf, setNext_outside hzp]

/-- The cells of the list of messages: `mqh_head` and the slots. Two of
them lie apart. -/
theorem cells_apart (hx : x = headOff ∨ x ∈ slots maxmsg msgsize)
    (hy : y = headOff ∨ y ∈ slots maxmsg msgsize) (hne : x ≠ y) : x + 8 ≤ y ∨ y + 8 ≤ x := by
  obtain ⟨h1, -, -, -, h4⟩ := layout msgsize
  rcases hx with rfl | hx
  · rcases hy with rfl | hy
    · exact absurd rfl hne
    · have := (slot_bounds hy).1
      omega
  · rcases hy with rfl | hy
    · have := (slot_bounds hx).1
      omega
    · have := slots_apart hx hy hne
      omega

/-- A message is not in the links of the lists. -/
theorem slot_apart_cell (hx : x ∈ slots maxmsg msgsize)
    (hy : y = headOff ∨ y ∈ slots maxmsg msgsize) : x + stride msgsize ≤ y ∨ y + 8 ≤ x + 8 := by
  obtain ⟨h1, -, -, -, h4⟩ := layout msgsize
  rcases hy with rfl | hy
  · have := (slot_bounds hx).1
    omega
  · by_cases hxy : x = y
    · omega
    · have := slots_apart hx hy hxy
      omega

/-- The last cell before the place, with the cells before it. -/
theorem exists_split_last {h : Nat} : ∃ l, h :: L = l ++ [L.getLastD h] := by
  rcases List.eq_nil_or_concat L with rfl | ⟨l, p, rfl⟩
  · exact ⟨[], rfl⟩
  · exact ⟨h :: l, by simp⟩

theorem walk_headD {a : Nat} (h : Walk next a L 0) : a = L.headD 0 := by
  cases L with
  | nil => exact h
  | cons x L => exact h.1

theorem Wf.slot_of_free (h : Wf q F L) (hx : x ∈ F) :
    x ∈ slots q.maxmsg q.msgsize := h.mem_slots_iff.mpr (.inl hx)

theorem Wf.slot_of_msgs (h : Wf q F L) (hx : x ∈ L) :
    x ∈ slots q.maxmsg q.msgsize := h.mem_slots_iff.mpr (.inr hx)

theorem Wf.ne_of_free (h : Wf q F L) (hx : x ∈ F) (hy : y ∈ L) : x ≠ y :=
  (List.nodup_append.mp h.nodup).2.2 x hx y hy

/-- The offsets are far below the range of a `long`. -/
theorem Wf.slot_lt (h : Wf q F L) (hx : x ∈ slots q.maxmsg q.msgsize) :
    sizeofHdr ≤ x ∧ x < 2 ^ 63 ∧ q.msgsize < 2 ^ 63 := by
  have hbound := h.bound
  unfold LONG_MAX at hbound
  have hs := slot_bounds hx
  obtain ⟨-, -, -, -, h4⟩ := layout q.msgsize
  omega

/-- What is written into a free slot changes neither of the lists. -/
theorem Wf.fill (h : Wf q F L) (hf : f ∈ F) (hlen : m.text.length ≤ q.msgsize) :
    Wf { q with mem := fill f m q.mem } F L ∧
    contents { q with mem := fill f m q.mem } L = contents q L ∧ msgAt (fill f m q.mem) f = m ∧
    msgLen (fill f m q.mem) f = m.text.length := by
  obtain ⟨hl1, -, -, -, hl4⟩ := layout q.msgsize
  have hfs := h.slot_of_free hf
  obtain ⟨hfge, -, hsize⟩ := h.slot_lt hfs
  obtain ⟨hout, hmsg, hmlen⟩ := fill_spec hlen hsize
  have hnext : ∀ x, x = headOff ∨ x ∈ slots q.maxmsg q.msgsize →
      msgNext (Mq.fill f m q.mem) x = msgNext q.mem x := by
    intro x hx
    refine msgNext_congr fun z hz hz' => hout z ?_
    by_cases hxf : x = f
    · omega
    · rcases hx with rfl | hx
      · omega
      · have := slots_apart hx hfs hxf
        omega
  have hkeep : ∀ x ∈ L, msgAt (Mq.fill f m q.mem) x = msgAt q.mem x ∧
      msgLen (Mq.fill f m q.mem) x = msgLen q.mem x := by
    intro x hx
    have := slots_apart (h.slot_of_msgs hx) hfs (h.ne_of_free hf hx).symm
    exact msgAt_congr (h.fits x hx) fun z hz hz' => hout z (by omega)
  refine ⟨⟨h.bound, h.cover, ?_, ?_, h.count, ?_⟩, ?_, hmsg, hmlen⟩
  · exact h.free.congr fun x hx => hnext x (.inr (h.slot_of_free hx))
  · rw [hnext headOff (.inl rfl)]
    exact h.msgs.congr fun x hx => hnext x (.inr (h.slot_of_msgs hx))
  · intro x hx
    rw [(hkeep x hx).2]
    exact h.fits x hx
  · exact List.map_congr_left fun x hx => (hkeep x hx).1

/-- The first free slot is linked into the list of messages, behind the
slots `L₁`. -/
theorem Wf.splice {F L1 L2 : List Nat}
    (h : Wf q (f :: F) (L1 ++ L2)) (hfit : msgLen q.mem f ≤ q.msgsize)
    (hmem : mem' = setNext (setNext q.mem f (L2.headD 0)) (L1.getLastD headOff) f ∨
      mem' = setNext (setNext q.mem (L1.getLastD headOff) f) f (L2.headD 0)) :
    Wf { q with free := msgNext q.mem f, mem := mem'
                curmsgs := q.curmsgs + 1 } F (L1 ++ f :: L2) ∧
    ∀ x ∈ L1 ++ f :: L2, msgAt mem' x = msgAt q.mem x := by
  obtain ⟨hl1, -, -, -, hl4⟩ := layout q.msgsize
  have hf : f ∈ f :: F := List.mem_cons_self ..
  have hfs := h.slot_of_free hf
  obtain ⟨hfge, hflt, -⟩ := h.slot_lt hfs
  -- The cells of the list, up to the place and behind it.
  obtain ⟨l, hl⟩ := exists_split_last
  generalize L1.getLastD headOff = p at hl hmem
  have hcells : l ++ p :: L2 = headOff :: (L1 ++ L2) := by
    have := congrArg (· ++ L2) hl
    simpa using this.symm
  have hcell : ∀ x ∈ l ++ p :: L2, (x = headOff ∨ x ∈ slots q.maxmsg q.msgsize) ∧ x ≠ f := by
    intro x hx
    rw [hcells] at hx
    rcases List.mem_cons.mp hx with rfl | hx
    · exact ⟨.inl rfl, by omega⟩
    · exact ⟨.inr (h.slot_of_msgs hx), (h.ne_of_free hf hx).symm⟩
  obtain ⟨hpc, hpf⟩ := hcell p (List.mem_append_right l (List.mem_cons_self ..))
  have hnd : (l ++ p :: L2).Nodup := by
    rw [hcells]
    refine List.nodup_cons.mpr ⟨fun hx => ?_, (List.nodup_append.mp h.nodup).2.1⟩
    have := (h.slot_lt (h.slot_of_msgs hx)).1
    omega
  obtain ⟨-, hndp, hndlp⟩ := List.nodup_append.mp hnd
  have hb : L2.headD 0 < 2 ^ 64 := by
    cases L2 with
    | nil => exact Nat.two_pow_pos 64
    | cons b L2 =>
      have := (h.slot_lt (h.slot_of_msgs (List.mem_append_right L1 (List.mem_cons_self ..)))).2.1
      show b < 2 ^ 64
      omega
  -- What the two stores do.
  obtain ⟨hnp, hnf, hout⟩ := splice_spec (cells_apart (.inr hfs) hpc hpf.symm) (by omega) hb hmem
  have hnext : ∀ x, x = headOff ∨ x ∈ slots q.maxmsg q.msgsize → x ≠ f →
      x ≠ p → msgNext mem' x = msgNext q.mem x := by
    intro x hx hxf hxp
    have h1 := cells_apart hx (.inr hfs) hxf
    have h2 := cells_apart hx hpc hxp
    exact msgNext_congr fun z hz hz' => hout z (by omega) (by omega)
  have hkeep : ∀ x ∈ slots q.maxmsg q.msgsize,
      msgLen q.mem x ≤ q.msgsize → msgAt mem' x = msgAt q.mem x ∧
        msgLen mem' x = msgLen q.mem x := by
    intro x hx hxl
    have h1 := slot_apart_cell hx (.inr hfs)
    have h2 := slot_apart_cell hx hpc
    exact msgAt_congr hxl fun z hz hz' => hout z (by omega) (by omega)
  have hslot : ∀ x ∈ L1 ++ f :: L2, x ∈ slots q.maxmsg q.msgsize ∧ msgLen q.mem x ≤ q.msgsize := by
    intro x hx
    rcases List.mem_append.mp hx with hx | hx
    · have hxL := List.mem_append_left L2 hx
      exact ⟨h.slot_of_msgs hxL, h.fits x hxL⟩
    · rcases List.mem_cons.mp hx with rfl | hx
      · exact ⟨hfs, hfit⟩
      · have hxL := List.mem_append_right L1 hx
        exact ⟨h.slot_of_msgs hxL, h.fits x hxL⟩
  -- The list of messages.
  have hwalk : Walk (msgNext q.mem) headOff (l ++ p :: L2) 0 := by
    rw [hcells]
    exact ⟨rfl, h.msgs⟩
  have hnp1 : msgNext q.mem p = L2.headD 0 := by
    obtain ⟨c, -, rfl, hw⟩ := walk_append.mp hwalk
    exact walk_headD hw
  have hwalk2 : Walk (msgNext mem') headOff (l ++ p :: f :: L2) 0 := by
    refine hwalk.insert hnp (hnf.trans hnp1.symm) (fun x hx => ?_) fun x hx => ?_
    · obtain ⟨hxc, hxf⟩ := hcell x (List.mem_append_left _ hx)
      exact hnext x hxc hxf (hndlp x hx p (List.mem_cons_self ..))
    · obtain ⟨hxc, hxf⟩ := hcell x (List.mem_append_right l (List.mem_cons_of_mem p hx))
      refine hnext x hxc hxf ?_
      rintro rfl
      exact (List.nodup_cons.mp hndp).1 hx
  have hcells2 : l ++ p :: f :: L2 = headOff :: (L1 ++ f :: L2) := by
    have := congrArg (· ++ f :: L2) hl
    simpa using this.symm
  rw [hcells2] at hwalk2
  refine ⟨⟨h.bound, ?_, ?_, hwalk2.2, ?_, ?_⟩, fun x hx =>
    (hkeep x (hslot x hx).1 (hslot x hx).2).1⟩
  · refine List.Perm.trans ?_ h.cover
    rw [List.cons_append, ← List.append_assoc, ← List.append_assoc]
    exact List.perm_middle
  · -- The rest of the free list is not touched.
    refine h.free.2.congr fun x hx => ?_
    have hxF := List.mem_cons_of_mem f hx
    refine hnext x (.inr (h.slot_of_free hxF)) ?_ ?_
    · rintro rfl
      exact (List.nodup_cons.mp (List.nodup_append.mp h.nodup).1).1 hx
    · rintro rfl
      have hxc : x ∈ headOff :: (L1 ++ L2) := by
        rw [← hcells]
        exact List.mem_append_right l (List.mem_cons_self ..)
      rcases List.mem_cons.mp hxc with hxh | hxL
      · have := (h.slot_lt (h.slot_of_free hxF)).1
        omega
      · exact h.ne_of_free hxF hxL rfl
  · rw [h.count]
    simp only [List.length_append, List.length_cons]
    omega
  · intro x hx
    obtain ⟨hxs, hxl⟩ := hslot x hx
    rw [(hkeep x hxs hxl).2]
    exact hxl

/-- A message is put behind those of no smaller priority. -/
theorem Wf.insert (h : Wf q F L) (hroom : q.curmsgs < q.maxmsg)
    (hlen : m.text.length ≤ q.msgsize) : ∃ q' F' L' M1 M2, insert m q = some q' ∧ Wf q' F' L' ∧
      contents q L = M1 ++ M2 ∧ contents q' L' = M1 ++ m :: M2 ∧ (∀ a ∈ M1, m.prio ≤ a.prio) ∧
      ∀ a, M2.head? = some a → a.prio < m.prio := by
  have hcount := h.count
  have hlength := h.length
  cases F with
  | nil =>
    rw [List.length_nil] at hlength
    omega
  | cons f F =>
    have hf : f ∈ f :: F := List.mem_cons_self ..
    obtain ⟨hfill, hsame, hmsg, hmlen⟩ := h.fill hf hlen
    have hnz : ∀ x ∈ slots q.maxmsg q.msgsize, x ≠ 0 := by
      intro x hx
      have h1 := (h.slot_lt hx).1
      have h2 : 0 < sizeofHdr := by decide
      omega
    obtain ⟨L1, L2, mem', rfl, hloop, hge, hlt, hmem'⟩ :=
      insertLoop_spec m.prio (q.maxmsg + 1) headOff hfill.msgs
        (fun x hx => hnz x (h.slot_of_msgs hx)) (by omega)
    obtain ⟨hwf, hkeep⟩ := hfill.splice (by
      rw [hmlen]
      exact hlen) hmem'
    have hrun : Mq.insert m q = some { q with
        free := msgNext (Mq.fill f m q.mem) f
        mem := mem'
        curmsgs := q.curmsgs + 1 } := by
      unfold Mq.insert
      rw [h.free.1, if_neg (hnz f (h.slot_of_free hf))]
      simp only [hloop, Option.map_some]
    have hsame' := List.map_inj_left.mp hsame
    have hcont : (L1 ++ f :: L2).map (msgAt mem') = contents q L1 ++ m :: contents q L2 := by
      rw [List.map_congr_left hkeep, List.map_append, List.map_cons]
      rw [List.map_congr_left fun x hx =>
        hsame' x (List.mem_append_left L2 hx),
        List.map_congr_left fun x hx =>
          hsame' x (List.mem_append_right L1 hx)]
      exact congrArg _ (congrArg (· :: _) hmsg)
    refine ⟨_, F, L1 ++ f :: L2, contents q L1, contents q L2, hrun, hwf,
      List.map_append .., hcont, ?_, ?_⟩
    · intro a ha
      obtain ⟨x, hx, rfl⟩ := List.mem_map.mp ha
      rw [← hsame' x (List.mem_append_left L2 hx)]
      exact hge x hx
    · intro a ha
      cases L2 with
      | nil => cases ha
      | cons x L2 =>
        cases ha
        rw [← hsame' x (List.mem_append_right L1 (List.mem_cons_self ..))]
        exact hlt x rfl

-- ======== removal

/-- The first message is taken off. -/
theorem Wf.take (h : Wf q F (f :: L)) :
    ∃ q', take q = some (msgAt q.mem f, q') ∧ Wf q' (f :: F) L ∧ contents q' L = contents q L := by
  obtain ⟨hl1, -, -, -, hl4⟩ := layout q.msgsize
  have hf : f ∈ f :: L := List.mem_cons_self ..
  have hfs := h.slot_of_msgs hf
  obtain ⟨hfge, hflt, -⟩ := h.slot_lt hfs
  obtain ⟨hhead, hwalk⟩ := h.msgs
  have hfree : q.free < 2 ^ 64 := by
    rw [walk_headD h.free]
    cases F with
    | nil => exact Nat.two_pow_pos 64
    | cons b F =>
      have := (h.slot_lt (h.slot_of_free (List.mem_cons_self ..))).2.1
      show b < 2 ^ 64
      omega
  have hnext : msgNext q.mem f < 2 ^ 64 := by
    rw [walk_headD hwalk]
    cases L with
    | nil => exact Nat.two_pow_pos 64
    | cons b L =>
      have := (h.slot_lt (h.slot_of_msgs (List.mem_cons_of_mem f (List.mem_cons_self ..)))).2.1
      show b < 2 ^ 64
      omega
  obtain ⟨mem1, hmem1⟩ : ∃ mem1, mem1 = setNext q.mem headOff (msgNext q.mem f) := ⟨_, rfl⟩
  have hout1 : ∀ z, z < headOff ∨ headOff + 8 ≤ z → mem1 z = q.mem z := by
    intro z hz
    rw [hmem1, setNext_outside hz]
  obtain ⟨mem2, hmem2⟩ : ∃ mem2, mem2 = setNext mem1 f q.free := ⟨_, rfl⟩
  have hout2 : ∀ z, z < f ∨ f + 8 ≤ z → mem2 z = mem1 z := by
    intro z hz
    rw [hmem2, setNext_outside hz]
  have hcell : ∀ x ∈ slots q.maxmsg q.msgsize, x ≠ f → msgNext mem2 x = msgNext q.mem x := by
    intro x hx hxf
    have h1 := cells_apart (.inr hx) (.inr hfs) hxf
    have h2 := (slot_bounds hx).1
    refine msgNext_congr fun z hz hz' => ?_
    rw [hout2 z (by omega), hout1 z (by omega)]
  have hkeep : ∀ x ∈ f :: L, msgAt mem2 x = msgAt q.mem x ∧ msgLen mem2 x = msgLen q.mem x := by
    intro x hx
    have hxs := h.slot_of_msgs hx
    have h1 := slot_apart_cell hxs (.inr hfs)
    have h2 := (slot_bounds hxs).1
    refine msgAt_congr (h.fits x hx) fun z hz hz' => ?_
    rw [hout2 z (by omega), hout1 z (by omega)]
  have hmsg : msgAt mem1 f = msgAt q.mem f :=
    (msgAt_congr (h.fits f hf) fun z hz hz' => hout1 z (by omega)).1
  have hndL : f ∉ L :=
    (List.nodup_cons.mp (List.nodup_append.mp h.nodup).2.1).1
  have hrun : Mq.take q = some (msgAt q.mem f, { q with
      free := f
      mem := mem2
      curmsgs := q.curmsgs - 1 }) := by
    have hnz : ¬ f = 0 := by omega
    simp only [Mq.take, hhead, if_neg hnz, ← hmem1, ← hmem2, hmsg]
  refine ⟨_, hrun, ⟨h.bound, ?_, ?_, ?_, ?_, ?_⟩, ?_⟩
  · exact List.perm_middle.symm.trans h.cover
  · refine ⟨rfl, ?_⟩
    rw [hmem2, msgNext_setNext hfree, ← hmem2]
    exact h.free.congr fun x hx =>
      hcell x (h.slot_of_free hx) (h.ne_of_free hx hf)
  · have hh : msgNext mem2 headOff = msgNext q.mem f := by
      rw [msgNext_congr fun z hz hz' => hout2 z (by omega), hmem1, msgNext_setNext hnext]
    rw [hh]
    refine hwalk.congr fun x hx => hcell x (h.slot_of_msgs (List.mem_cons_of_mem f hx)) ?_
    rintro rfl
    exact hndL hx
  · show q.curmsgs - 1 = L.length
    rw [h.count, List.length_cons]
    omega
  · intro x hx
    rw [(hkeep x (List.mem_cons_of_mem f hx)).2]
    exact h.fits x (List.mem_cons_of_mem f hx)
  · exact List.map_congr_left fun x hx =>
      (hkeep x (List.mem_cons_of_mem f hx)).1

-- ======== mymq_open

/-- The loop of `mymq_open` links each slot to the next one. -/
theorem linkSlots_spec (hst : 8 ≤ st) : ∀ {n i index last : Nat} {mem : Nat → UInt8},
      linkSlots st n i index mem = some (last, mem') → index + n * st < 2 ^ 64 →
      last = index + n * st ∧ (∀ j < n, msgNext mem' (index + j * st) = index + (j + 1) * st) ∧
      ∀ z, z < index → mem' z = mem z := by
  intro n
  induction n with
  | zero =>
    intro i index last mem h _
    obtain ⟨rfl, rfl⟩ := Prod.mk.inj (Option.some.inj h)
    refine ⟨by omega, fun j hj => absurd hj (Nat.not_lt_zero j), fun _ _ => rfl⟩
  | succ n ih =>
    intro i index last mem h hlt
    rw [Nat.succ_mul] at hlt
    obtain ⟨-, h⟩ := Option.ite_none_left_eq_some.mp h
    obtain ⟨hlast, hlinks, hout⟩ := ih h (by omega)
    refine ⟨by rw [hlast, Nat.succ_mul]; omega, fun j hj => ?_, fun z hz => ?_⟩
    · cases j with
      | zero =>
        rw [Nat.zero_mul, Nat.add_zero, Nat.zero_add, Nat.one_mul,
          msgNext_congr fun z hz hz' => hout z (by omega), msgNext_setNext (by omega)]
      | succ j =>
        have := hlinks j (by omega)
        simp only [Nat.add_one_mul] at this ⊢
        rw [show index + (j * st + st) = index + st + j * st by omega, this]
        omega
    · rw [hout z (by omega), setNext_outside (by omega)]

/-- Slots that are linked one to the next make a list. -/
theorem walk_slots : ∀ {n base : Nat},
      (∀ j < n, next (base + j * st) = base + (j + 1) * st) → next (base + n * st) = 0 →
      Walk next base ((List.range (n + 1)).map fun j => base + j * st) 0 := by
  intro n
  induction n with
  | zero =>
    intro base _ hlast
    rw [Nat.zero_mul, Nat.add_zero] at hlast
    refine ⟨?_, ?_⟩
    · show base = base + 0 * st
      omega
    · show next (base + 0 * st) = 0
      rw [Nat.zero_mul, Nat.add_zero, hlast]
  | succ n ih =>
    intro base hlinks hlast
    rw [List.range_succ_eq_map, List.map_cons, List.map_map]
    have hfun : ((fun j => base + j * st) ∘ Nat.succ) = fun j => base + st + j * st := by
      funext j
      show base + (j + 1) * st = _
      rw [Nat.succ_mul]
      omega
    rw [hfun]
    refine ⟨by omega, ?_⟩
    have h0 := hlinks 0 (by omega)
    rw [Nat.zero_mul, Nat.zero_add, Nat.one_mul] at h0
    rw [Nat.zero_mul, h0]
    refine ih (fun j hj => ?_) ?_
    · have := hlinks (j + 1) (by omega)
      rw [Nat.succ_mul] at this
      rw [show base + st + j * st = base + (j * st + st) by omega, this, Nat.succ_mul, Nat.succ_mul]
      omega
    · rw [Nat.succ_mul] at hlast
      rw [show base + st + n * st = base + (n * st + st) by omega, hlast]

theorem exists_linkSlots : ∀ {n i index : Nat} {mem : Nat → UInt8}, i + n ≤ INT_MAX →
      ∃ r, linkSlots st n i index mem = some r := by
  intro n
  induction n with
  | zero => exact fun _ => ⟨_, rfl⟩
  | succ n ih =>
    intro i index mem hle
    rw [linkSlots, if_neg (by omega)]
    exact ih (by omega)

/-- `mymq_open` makes a queue for every pair of positive attributes for
which the size of the file and the counter of its loop do not overflow. -/
theorem exists_mymqOpen (hmax : 0 < maxmsg) (hsize : 0 < msgsize)
    (hfile : filesize maxmsg msgsize ≤ LONG_MAX) (hint : maxmsg - 1 ≤ INT_MAX) :
    ∃ q, mymqOpen maxmsg msgsize = some q := by
  unfold mymqOpen
  rw [if_neg (by omega), if_neg (Nat.not_lt.mpr hfile)]
  obtain ⟨r, hr⟩ : ∃ r, linkSlots (stride msgsize) (maxmsg - 1) 0 sizeofHdr
      (setNext (fun _ => 0) headOff 0) = some r := exists_linkSlots (by omega)
  rw [hr]
  exact ⟨_, rfl⟩

/-- All slots of a new queue are free. -/
theorem wf_mymqOpen (h : mymqOpen maxmsg msgsize = some q) :
    Wf q (slots maxmsg msgsize) [] ∧ q.maxmsg = maxmsg ∧
      q.msgsize = msgsize ∧ 0 < maxmsg ∧ q.nwait = 0 ∧ q.pid = 0 := by
  obtain ⟨hpos, h⟩ := Option.ite_none_left_eq_some.mp h
  rw [not_or] at hpos
  obtain ⟨hbound, h⟩ := Option.ite_none_left_eq_some.mp h
  obtain ⟨⟨last, mem1⟩, hloop, rfl⟩ := Option.map_eq_some_iff.mp h
  obtain ⟨hl1, -, -, -, hl4⟩ := layout msgsize
  have hb : filesize maxmsg msgsize ≤ 2 ^ 63 - 1 :=
    Nat.le_of_not_lt hbound
  obtain ⟨n, rfl⟩ : ∃ n, maxmsg = n + 1 := ⟨maxmsg - 1, by omega⟩
  have hfile : filesize (n + 1) msgsize = sizeofHdr + n * stride msgsize + stride msgsize := by
    unfold filesize
    rw [Nat.add_one_mul]
    omega
  obtain ⟨hlast, hlinks, hout⟩ := linkSlots_spec (n := n) (by omega) hloop (by omega)
  have hmem : ∀ z, z < last ∨ last + 8 ≤ z →
      setNext mem1 last 0 z = mem1 z := fun z hz => setNext_outside hz
  refine ⟨⟨Nat.le_of_not_lt hbound, by rw [List.append_nil], ?_, ?_, rfl,
    nofun⟩, rfl, rfl, Nat.succ_pos n, rfl, rfl⟩
  · refine walk_slots (fun j hj => ?_) ?_
    · have hjn : (j + 1) * stride msgsize ≤ n * stride msgsize :=
        Nat.mul_le_mul_right _ hj
      rw [Nat.add_one_mul] at hjn
      have hlt : sizeofHdr + j * stride msgsize + 8 ≤ last := by omega
      rw [msgNext_congr fun z hz hz' =>
        hmem z (.inl (Nat.lt_of_lt_of_le hz' hlt)), hlinks j hj]
    · rw [← hlast]
      exact msgNext_setNext (by omega)
  · show msgNext (setNext mem1 last 0) headOff = 0
    rw [msgNext_congr fun z hz hz' => hmem z (by omega),
      msgNext_congr fun z hz hz' => hout z (by omega), msgNext_setNext (by omega)]

end LearnLinux.Mq
