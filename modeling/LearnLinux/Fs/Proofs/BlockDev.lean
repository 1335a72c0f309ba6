/-
When raw writes are read back.

Blocks do not interfere: what a step does to another block is at most to
give this one a buffer (`Spared`). So each block has its own short
story, from the round that stores into it to the round that fetches it.
A partial store has read the block first, and its bytes are SAFE from
then on: in an up-to-date buffer, or on the device. A full store into a
buffer that is not up to date leaves its bytes PENDING: dirty, but not
up to date, so that the next read throws them away; a write-back in time
makes them safe. `raw_read_back_iff` puts the blocks together.
-/
import LearnLinux.Fs.BlockDev

namespace LearnLinux.Fs

variable {c c' : Cache} {n m off : Nat} {o : BlockOp} {b : Buf} {bs : List UInt8} {d : Block}
variable {B hist A C : List BlockOp} {L : List Piece} {p : Piece}

-- ======== flags

/-- Nothing has happened to block `n`, except that it may have been
given a buffer. -/
structure Spared (n : Nat) (c c' : Cache) : Prop where
  buf : c'.buf n = c.buf n ∨ c'.buf n = some (c.bufOf n)
  dev : c'.dev n = c.dev n
  junk : c'.junk = c.junk

theorem Spared.refl (n : Nat) (c : Cache) : Spared n c c :=
  ⟨.inl rfl, rfl, rfl⟩

theorem Spared.bufOf (h : Spared n c c') : c'.bufOf n = c.bufOf n := by
  unfold Cache.bufOf
  rcases h.buf with hb | hb
  · rw [hb, h.junk]
  · rw [hb]
    rfl

theorem Spared.trans {c1 : Cache} (h : Spared n c c1) (h' : Spared n c1 c') : Spared n c c' := by
  refine ⟨?_, h'.dev.trans h.dev, h'.junk.trans h.junk⟩
  rcases h'.buf with hb | hb
  · rw [hb]
    exact h.buf
  · rw [hb, h.bufOf]
    exact .inr rfl

theorem setBuf_self (b : Option Buf) : (c.setBuf n b).buf n = b :=
  if_pos rfl

theorem setBuf_ne (hm : n ≠ m) (b : Option Buf) : (c.setBuf m b).buf n = c.buf n :=
  if_neg hm

theorem spared_setBuf (hm : n ≠ m) (b : Option Buf) : Spared n c (c.setBuf m b) :=
  ⟨.inl (setBuf_ne hm b), rfl, rfl⟩

theorem spared_getblk (n m : Nat) (c : Cache) : Spared n c (getblk m c) := by
  by_cases hm : n = m
  · subst hm
    exact ⟨.inr (setBuf_self _), rfl, rfl⟩
  · exact spared_setBuf hm _

theorem spared_llRead (hm : n ≠ m ∨ (c.bufOf m).uptodate = true) : Spared n c (llRead m c) := by
  unfold llRead
  split
  · exact Spared.refl n c
  · rename_i hu
    exact spared_setBuf (hm.resolve_right hu) _

theorem spared_readAhead {first : Nat} (next : Nat)
    (hm : n ≠ first ∨ (c.bufOf first).uptodate = true) : Spared n c (readAhead first next c) := by
  have hg := spared_getblk n next c
  unfold readAhead
  simp only
  split
  · exact hg
  · refine hg.trans (spared_llRead ?_)
    rw [(spared_getblk first next c).bufOf]
    exact hm

theorem spared_breada (hm : n ≠ m) : Spared n c (breada m c) := by
  exact ((spared_getblk n m c).trans (spared_llRead (.inl hm))).trans
    ((spared_readAhead _ (.inl hm)).trans (spared_readAhead _ (.inl hm)))

/-- The buffer `breada` returns: the one there was, if it was up to
date, and otherwise the block as the device has it. -/
def readBuf (c : Cache) (n : Nat) : Buf :=
  if (c.bufOf n).uptodate then c.bufOf n else ⟨c.dev n, true, false⟩

theorem readBuf_uptodate : (readBuf c n).uptodate = true := by
  unfold readBuf
  split
  · assumption
  · rfl

theorem breada_self : (breada n c).bufOf n = readBuf c n ∧ (breada n c).dev n = c.dev n := by
  have hg := spared_getblk n n c
  have hl : (llRead n (getblk n c)).bufOf n = readBuf c n
      ∧ (llRead n (getblk n c)).dev n = c.dev n := by
    unfold llRead readBuf
    rw [hg.bufOf]
    split
    · exact ⟨hg.bufOf, hg.dev⟩
    · refine ⟨?_, hg.dev⟩
      unfold Cache.bufOf
      rw [setBuf_self]
      exact congrArg (fun b => (⟨b, true, false⟩ : Buf)) hg.dev
  unfold breada
  have h1 : Spared n (llRead n (getblk n c)) _ :=
    spared_readAhead (n + 1) (.inr (by
      rw [hl.1]; exact readBuf_uptodate))
  have h2 : Spared n (readAhead n (n + 1) (llRead n (getblk n c))) _ :=
    spared_readAhead (n + 2) (.inr (by
      rw [h1.bufOf, hl.1]; exact readBuf_uptodate))
  exact ⟨by rw [h2.bufOf, h1.bufOf, hl.1], by rw [h2.dev, h1.dev, hl.2]⟩

-- ======== other blocks

/-- The block a step is for. -/
def BlockOp.block : BlockOp → Nat
  | .store n _ _ => n
  | .fetch n _ _ => n
  | .writeBack n => n
  | .evict n => n

/-- A step for another block. -/
theorem spared_exec (ho : n ≠ o.block) : Spared n c (o.exec c) := by
  cases o with
  | store m off bs =>
    have hb : Spared n c (storeBuf m bs c) := by
      unfold storeBuf
      split
      · exact spared_getblk n m c
      · exact spared_breada ho
    exact hb.trans (spared_setBuf ho _)
  | fetch m off chars => exact spared_breada ho
  | writeBack m =>
    simp only [BlockOp.exec]
    split
    · split
      · exact ⟨.inl (if_neg ho), if_neg ho, rfl⟩
      · exact Spared.refl n c
    · exact Spared.refl n c
  | evict m =>
    simp only [BlockOp.exec]
    split
    · split
      · exact Spared.refl n c
      · exact spared_setBuf ho _
    · exact Spared.refl n c

-- ======== safe, pending

/-- The bytes `bs` stand at `off` in a block. -/
def Holds (b : Block) (off : Nat) (bs : List UInt8) : Prop :=
  ∀ k, k < bs.length → b (off + k) = bs.getD k 0

/-- Whatever the cache does, the next read of the block gets `bs`. -/
structure Safe (c : Cache) (n off : Nat) (bs : List UInt8) : Prop where
  here : (c.bufOf n).uptodate = true → Holds (c.bufOf n).data off bs
  there : (c.bufOf n).dirt = false → Holds (c.dev n) off bs
  clean : (c.bufOf n).uptodate = false → (c.bufOf n).dirt = false

/-- The bytes `bs` are in a buffer that is dirty and not up to date, and
the device holds `d`. -/
structure Pending (c : Cache) (n : Nat) (bs : List UInt8) (d : Block) : Prop where
  buf : ∃ b, c.buf n = some b ∧ b.uptodate = false ∧ b.dirt = true ∧ Holds b.data 0 bs
  dev : c.dev n = d

/-- A step that is no round of block `n`. -/
def BlockOp.Quiet (n : Nat) : BlockOp → Prop
  | .store m _ _ => n ≠ m
  | .fetch m _ _ => n ≠ m
  | _ => True

theorem bufOf_some (h : c.buf n = some b) : c.bufOf n = b := by
  unfold Cache.bufOf
  rw [h]
  rfl

theorem Safe.spared (h : Safe c n off bs) (hs : Spared n c c') : Safe c' n off bs := by
  refine ⟨?_, ?_, ?_⟩
  · rw [hs.bufOf]
    exact h.here
  · rw [hs.bufOf, hs.dev]
    exact h.there
  · rw [hs.bufOf]
    exact h.clean

/-- Block `n` has just been written back with contents `b`. -/
def Cache.written (c : Cache) (n : Nat) (b : Block) : Cache :=
  { c with
    dev := fun m => if m = n then b else c.dev m
    buf := fun m => if m = n then some ⟨b, true, false⟩ else c.buf m }

theorem exec_writeBack (hb : c.buf n = some b) (hd : b.dirt = true) :
    (BlockOp.writeBack n).exec c = c.written n b.data := by
  simp only [BlockOp.exec, hb, hd, if_true]
  rfl

theorem safe_written {b : Block} (h : Holds b off bs) : Safe (c.written n b) n off bs := by
  have hbuf : (c.written n b).bufOf n = ⟨b, true, false⟩ :=
    bufOf_some (if_pos rfl)
  have hdev : (c.written n b).dev n = b := if_pos rfl
  refine ⟨fun _ => ?_, fun _ => ?_, fun hu => ?_⟩
  · rw [hbuf]
    exact h
  · rw [hdev]
    exact h
  · rw [hbuf] at hu
    cases hu

theorem Safe.writeBack (h : Safe c n off bs) : Safe ((BlockOp.writeBack n).exec c) n off bs := by
  cases hb : c.buf n with
  | none =>
    simp only [BlockOp.exec, hb]
    exact h
  | some b =>
    have hbo := bufOf_some hb
    by_cases hd : b.dirt = true
    · -- a dirty buffer is up to date, so it holds the bytes
      rw [exec_writeBack hb hd]
      refine safe_written ?_
      rw [← hbo]
      refine h.here ?_
      by_contra hu
      have := h.clean (Bool.eq_false_iff.mpr hu)
      rw [hbo, hd] at this
      cases this
    · simp only [BlockOp.exec, hb, hd]
      exact h

theorem Safe.evict (h : Safe c n off bs) : Safe ((BlockOp.evict n).exec c) n off bs := by
  simp only [BlockOp.exec]
  split
  · rename_i b hb
    split
    · exact h
    · rename_i hd
      have hdev := h.there (by
        rw [bufOf_some hb]; exact Bool.eq_false_iff.mpr hd)
      have hnew : (c.setBuf n none).bufOf n = ⟨c.junk n, false, false⟩ := by
        unfold Cache.bufOf
        rw [setBuf_self]
        rfl
      refine ⟨fun hu => ?_, fun _ => hdev, fun _ => ?_⟩
      · rw [hnew] at hu
        cases hu
      · rw [hnew]
  · exact h

theorem Safe.step (h : Safe c n off bs) (ho : o.Quiet n) : Safe (o.exec c) n off bs := by
  by_cases hb : n = o.block
  · cases o with
    | store m _ _ | fetch m _ _ => exact absurd hb ho
    | writeBack m =>
      obtain rfl : n = m := hb
      exact h.writeBack
    | evict m =>
      obtain rfl : n = m := hb
      exact h.evict
  · exact h.spared (spared_exec hb)

theorem Safe.after : ∀ {os : List BlockOp} {c : Cache}, Safe c n off bs →
      (∀ o ∈ os, o.Quiet n) → Safe (c.after os) n off bs := by
  intro os
  induction os with
  | nil =>
    intro c h _
    exact h
  | cons o os ih =>
    intro c h ho
    exact ih (h.step (ho o (List.mem_cons_self ..)))
      fun o' ho' => ho o' (List.mem_cons_of_mem o ho')

/-- What a read of a safe block puts. -/
theorem Safe.put (h : Safe c n off bs) : (BlockOp.fetch n off bs.length).put c = bs := by
  have hread : Holds (readBuf c n).data off bs := by
    unfold readBuf
    split
    · rename_i hu
      exact h.here hu
    · rename_i hu
      exact h.there (h.clean (Bool.eq_false_iff.mpr hu))
  refine List.ext_getElem (by simp [BlockOp.put]) fun k h1 h2 => ?_
  simp only [BlockOp.put, List.getElem_map, List.getElem_range]
  rw [breada_self.1, hread k h2]
  exact List.getD_eq_getElem bs 0 h2

theorem Pending.quiet (h : Pending c n bs d)
    (ho : o.Quiet n) (hw : o ≠ .writeBack n) : Pending (o.exec c) n bs d := by
  obtain ⟨⟨b, hb, hu, hd, hh⟩, hdev⟩ := h
  by_cases hob : n = o.block
  · cases o with
    | store m _ _ | fetch m _ _ => exact absurd hob ho
    | writeBack m =>
      obtain rfl : n = m := hob
      exact absurd rfl hw
    | evict m =>
      obtain rfl : n = m := hob
      -- a dirty buffer is not given away
      simp only [BlockOp.exec, hb, hd, if_true]
      exact ⟨⟨b, hb, hu, hd, hh⟩, hdev⟩
  · have hs := spared_exec (c := c) hob
    refine ⟨⟨b, ?_, hu, hd, hh⟩, hs.dev.trans hdev⟩
    rcases hs.buf with he | he
    · rw [he, hb]
    · rw [he, bufOf_some hb]

theorem Pending.writeBack (h : Pending c n bs d) : Safe ((BlockOp.writeBack n).exec c) n 0 bs := by
  obtain ⟨⟨b, hb, -, hd, hh⟩, -⟩ := h
  rw [exec_writeBack hb hd]
  exact safe_written hh

/-- Pending bytes, after a while: safe if they were written back, and
pending still if not. -/
theorem Pending.after :
    ∀ {os : List BlockOp} {c : Cache}, Pending c n bs d → (∀ o ∈ os, o.Quiet n) →
      (.writeBack n ∈ os → Safe (c.after os) n 0 bs)
        ∧ (.writeBack n ∉ os → Pending (c.after os) n bs d) := by
  intro os
  induction os with
  | nil =>
    intro c h _
    exact ⟨fun hm => absurd hm (List.not_mem_nil), fun _ => h⟩
  | cons o os ih =>
    intro c h ho
    have ho1 := ho o (List.mem_cons_self ..)
    have hos : ∀ o' ∈ os, o'.Quiet n :=
      fun o' ho' => ho o' (List.mem_cons_of_mem o ho')
    by_cases hw : o = .writeBack n
    · subst hw
      refine ⟨fun _ => h.writeBack.after hos, fun hn => ?_⟩
      exact absurd (List.mem_cons_self ..) hn
    · obtain ⟨h1, h2⟩ := ih (h.quiet ho1 hw) hos
      refine ⟨fun hm => h1 ?_, fun hn => h2 ?_⟩
      · rcases List.mem_cons.mp hm with he | hm
        · exact absurd he.symm hw
        · exact hm
      · exact fun hm => hn (List.mem_cons_of_mem o hm)

-- ======== the stores

theorem holds_put (b : Block) : Holds (b.put off bs) off bs := by
  intro k hk
  unfold Block.put
  rw [if_pos (by omega), Nat.add_sub_cancel_left]

theorem exec_store (c : Cache) (n off : Nat) (bs : List UInt8) :
    ((BlockOp.store n off bs).exec c).buf n = some ⟨((storeBuf n bs c).bufOf n).data.put off bs,
          ((storeBuf n bs c).bufOf n).uptodate, true⟩
      ∧ ((BlockOp.store n off bs).exec c).dev n = (storeBuf n bs c).dev n :=
  ⟨setBuf_self _, rfl⟩

/-- Stored into an up-to-date buffer, the bytes are safe. -/
theorem safe_store (hu : ((storeBuf n bs c).bufOf n).uptodate = true) :
    Safe ((BlockOp.store n off bs).exec c) n off bs := by
  have hbuf := bufOf_some (exec_store c n off bs).1
  refine ⟨fun _ => ?_, fun hd => ?_, fun hu' => ?_⟩
  · rw [hbuf]
    exact holds_put _
  · rw [hbuf] at hd
    cases hd
  · rw [hbuf] at hu'
    exact absurd (hu.symm.trans hu') Bool.true_eq_false.mp

/-- A partial store has read the block. -/
theorem safe_store_within (hlen : bs.length ≠ blockSize) :
    Safe ((BlockOp.store n off bs).exec c) n off bs := by
  refine safe_store ?_
  unfold storeBuf
  rw [if_neg hlen, breada_self.1]
  exact readBuf_uptodate

theorem storeBuf_full (hlen : bs.length = blockSize) :
    (storeBuf n bs c).bufOf n = c.bufOf n ∧ (storeBuf n bs c).dev n = c.dev n := by
  have hg := spared_getblk n n c
  unfold storeBuf
  rw [if_pos hlen]
  exact ⟨hg.bufOf, hg.dev⟩

/-- A full store into a buffer that is not up to date. -/
theorem pending_store_full (hlen : bs.length = blockSize) (hu : (c.bufOf n).uptodate = false) :
    Pending ((BlockOp.store n 0 bs).exec c) n bs (c.dev n) := by
  obtain ⟨hb, hd⟩ := storeBuf_full hlen
  obtain ⟨hbuf, hdev⟩ := exec_store c n 0 bs
  refine ⟨⟨_, hbuf, ?_, rfl, holds_put _⟩, hdev.trans hd⟩
  rw [hb]
  exact hu

/-- One block's story: what the read puts is what was stored, unless the
store was of a full block and nothing made it last. -/
theorem put_of_story (hfull : bs.length = blockSize → off = 0) (hB : ∀ o ∈ B, o.Quiet n) :
    (BlockOp.fetch n off bs.length).put (((BlockOp.store n off bs).exec c).after B) = bs
      ↔ (bs.length = blockSize → (c.bufOf n).uptodate = true ∨ .writeBack n ∈ B
        ∨ ∀ k, k < blockSize → c.dev n k = bs.getD k 0) := by
  by_cases hlen : bs.length = blockSize
  swap
  · refine iff_of_true ?_ fun h => absurd h hlen
    exact ((safe_store_within hlen).after hB).put
  obtain rfl := hfull hlen
  by_cases hu : (c.bufOf n).uptodate = true
  · refine iff_of_true ?_ fun _ => .inl hu
    refine (Safe.after (safe_store ?_) hB).put
    rw [(storeBuf_full hlen).1]
    exact hu
  have hu' := Bool.eq_false_iff.mpr hu
  obtain ⟨h1, h2⟩ := (pending_store_full hlen hu').after hB
  by_cases hw : .writeBack n ∈ B
  · exact iff_of_true (h1 hw).put fun _ => .inr (.inl hw)
  · -- the read throws the bytes away and takes the device's
    obtain ⟨⟨b, hb, hbu, -, -⟩, hdev⟩ := h2 hw
    generalize ((BlockOp.store n 0 bs).exec c).after B = c1 at hb hdev
    have hread : ∀ k, ((breada n c1).bufOf n).data (0 + k) = c.dev n k := by
      intro k
      rw [breada_self.1, Nat.zero_add]
      unfold readBuf
      rw [bufOf_some hb, hbu, ← hdev]
      rfl
    have hput : (BlockOp.fetch n 0 bs.length).put c1
        = (List.range bs.length).map fun k => c.dev n k :=
      List.map_congr_left fun k _ => hread k
    rw [hput]
    constructor
    · intro heq _
      refine .inr (.inr fun k hk => ?_)
      rw [← hlen] at hk
      rw [List.getD_eq_getElem bs 0 hk, ← List.getElem_of_eq heq
        (by rw [List.length_map, List.length_range]; exact hk),
        List.getElem_map, List.getElem_range]
    · intro h
      rcases h hlen with h | h | h
      · exact absurd h hu
      · exact absurd h hw
      · refine List.ext_getElem (by simp) fun k h1 h2 => ?_
        rw [List.getElem_map, List.getElem_range, h k (by omega)]
        exact List.getD_eq_getElem bs 0 h2

-- ======== the rounds

/-- What one round is about: a block, an offset, the bytes. -/
structure Piece where
  n : Nat
  off : Nat
  bs : List UInt8

def Piece.toStore (p : Piece) : BlockOp := .store p.n p.off p.bs

def Piece.toFetch (p : Piece) : BlockOp := .fetch p.n p.off p.bs.length

/-- The pieces that both loops go through. -/
def pieces : Nat → Nat → Nat → List UInt8 → List Piece
  | 0, _, _, _ => []
  | fuel + 1, block, offset, buf =>
    if buf = [] then []
    else
      let chars := min (blockSize - offset) buf.length
      ⟨block, offset, buf.take chars⟩ :: pieces fuel (block + 1) 0 (buf.drop chars)

theorem writeRounds_eq : ∀ fuel block offset buf, writeRounds fuel block offset buf
      = (pieces fuel block offset buf).map Piece.toStore := by
  intro fuel
  induction fuel with
  | zero =>
    intro block offset buf
    rfl
  | succ fuel ih =>
    intro block offset buf
    unfold writeRounds pieces
    split
    · rfl
    · simp only [List.map_cons]
      rw [ih]
      rfl

theorem readRounds_eq : ∀ fuel block offset buf, readRounds fuel block offset buf.length
      = (pieces fuel block offset buf).map Piece.toFetch := by
  intro fuel
  induction fuel with
  | zero =>
    intro block offset buf
    rfl
  | succ fuel ih =>
    intro block offset buf
    unfold readRounds pieces
    by_cases hb : buf = []
    · rw [if_pos (by rw [hb]; rfl), if_pos hb]
      rfl
    · rw [if_neg fun h => hb (List.length_eq_zero_iff.mp h), if_neg hb]
      simp only [List.map_cons]
      rw [← ih, List.length_drop]
      unfold Piece.toFetch
      rw [List.length_take]
      congr 2
      omega

/-- Each piece lies in its block, and the blocks follow each other. -/
theorem pieces_spec : ∀ fuel block offset buf, offset < blockSize →
    (∀ p ∈ pieces fuel block offset buf, block ≤ p.n ∧ (p.bs.length = blockSize → p.off = 0))
    ∧ ((pieces fuel block offset buf).map Piece.n).Nodup := by
  intro fuel
  induction fuel with
  | zero =>
    intro block offset buf _
    exact ⟨fun p hp => absurd hp List.not_mem_nil, List.nodup_nil⟩
  | succ fuel ih =>
    intro block offset buf hoff
    unfold pieces
    split
    · exact ⟨fun p hp => absurd hp List.not_mem_nil, List.nodup_nil⟩
    · obtain ⟨h1, h2⟩ := ih (block + 1) 0 (buf.drop
        (min (blockSize - offset) buf.length)) (by unfold blockSize; omega)
      constructor
      · intro p hp
        rcases List.mem_cons.mp hp with rfl | hp
        · refine ⟨Nat.le_refl _, fun hl => ?_⟩
          simp only [List.length_take] at hl ⊢
          omega
        · exact ⟨Nat.le_of_succ_le (h1 p hp).1, (h1 p hp).2⟩
      · rw [List.map_cons, List.nodup_cons]
        refine ⟨fun hm => ?_, h2⟩
        obtain ⟨p, hp, hn⟩ := List.mem_map.mp hm
        have hle : block + 1 ≤ p.n := (h1 p hp).1
        rw [hn] at hle
        exact absurd hle (Nat.not_succ_le_self block)

/-- The pieces are all of the buffer. -/
theorem pieces_flatten : ∀ fuel block offset buf, offset < blockSize → buf.length ≤ fuel →
    ((pieces fuel block offset buf).map Piece.bs).flatten = buf := by
  intro fuel
  induction fuel with
  | zero =>
    intro block offset buf _ hlen
    rw [List.length_eq_zero_iff.mp (Nat.le_zero.mp hlen)]
    rfl
  | succ fuel ih =>
    intro block offset buf hoff hlen
    unfold pieces
    split
    · rename_i hb
      rw [hb]
      rfl
    · rename_i hb
      rw [List.map_cons, List.flatten_cons, ih]
      · exact List.take_append_drop _ buf
      · omega
      · rw [List.length_drop]
        omega

-- ======== whole runs

theorem after_append (c : Cache) (A B : List BlockOp) : c.after (A ++ B) = (c.after A).after B := by
  induction A generalizing c with
  | nil => rfl
  | cons o A ih => exact ih (o.exec c)

def BlockOp.isFetch : BlockOp → Bool
  | .fetch _ _ _ => true
  | _ => false

/-- All bytes are put right exactly when each round puts its own
right. -/
theorem bytesPut_iff : ∀ {hist : List BlockOp} {c : Cache} {L : List Piece},
    (L.map Piece.n).Nodup → hist.filter BlockOp.isFetch = L.map Piece.toFetch →
    (bytesPut hist c = (L.map Piece.bs).flatten ↔ ∀ p ∈ L, ∀ A C,
      hist = A ++ p.toFetch :: C → p.toFetch.put (c.after A) = p.bs) := by
  intro hist
  induction hist with
  | nil =>
    intro c L _ hL
    obtain rfl : L = [] := List.map_eq_nil_iff.mp hL.symm
    exact iff_of_true rfl fun p hp => absurd hp List.not_mem_nil
  | cons o hist ih =>
    intro c L hnd hL
    unfold bytesPut
    by_cases hf : o.isFetch = true
    · rw [List.filter_cons_of_pos hf] at hL
      cases L with
      | nil => cases hL
      | cons q L =>
        rw [List.map_cons, List.cons.injEq] at hL
        obtain ⟨rfl, hL⟩ := hL
        rw [List.map_cons, List.nodup_cons] at hnd
        obtain ⟨hnot, hnd⟩ := hnd
        have hlen : (q.toFetch.put c).length = q.bs.length := by
          unfold Piece.toFetch BlockOp.put
          rw [List.length_map, List.length_range]
        rw [List.map_cons, List.flatten_cons]
        have hsplit : q.toFetch.put c ++ bytesPut hist (q.toFetch.exec c)
            = q.bs ++ (L.map Piece.bs).flatten
            ↔ q.toFetch.put c = q.bs ∧ bytesPut hist (q.toFetch.exec c)
              = (L.map Piece.bs).flatten :=
          ⟨fun h => List.append_inj h hlen, fun h => by rw [h.1, h.2]⟩
        rw [hsplit, ih hnd hL]
        constructor
        · rintro ⟨h1, h2⟩ p hp A C hA
          cases A with
          | nil =>
            obtain ⟨heq, -⟩ := List.cons.inj hA
            have hn : q.n = p.n := (BlockOp.fetch.inj heq).1
            rcases List.mem_cons.mp hp with rfl | hp
            · exact h1
            · exact absurd (hn ▸ List.mem_map_of_mem hp) hnot
          | cons o' A =>
            obtain ⟨rfl, hA'⟩ := List.cons.inj hA
            rcases List.mem_cons.mp hp with rfl | hp
            · -- its round is not in the rest of the history
              have hmem : p.toFetch ∈ L.map Piece.toFetch := by
                rw [← hL, List.mem_filter]
                refine ⟨?_, rfl⟩
                rw [hA']
                exact List.mem_append_right A (List.mem_cons_self ..)
              obtain ⟨r, hr, heq⟩ := List.mem_map.mp hmem
              have hn : r.n = p.n := (BlockOp.fetch.inj heq).1
              exact absurd (hn ▸ List.mem_map_of_mem hr) hnot
            · exact h2 p hp A C hA'
        · intro h
          refine ⟨h q (List.mem_cons_self ..) [] hist rfl, fun p hp A C hA => ?_⟩
          exact h p (List.mem_cons_of_mem q hp) (q.toFetch :: A) C (by rw [hA]; rfl)
    · rw [List.filter_cons_of_neg hf] at hL
      have hput : o.put c = [] := by
        cases o with
        | fetch n off chars => exact absurd rfl hf
        | store n off bs | writeBack n | evict n => rfl
      rw [hput, List.nil_append, ih hnd hL]
      constructor
      · intro h p hp A C hA
        cases A with
        | nil =>
          obtain ⟨rfl, -⟩ := List.cons.inj hA
          exact absurd rfl hf
        | cons o' A =>
          obtain ⟨rfl, hA'⟩ := List.cons.inj hA
          exact h p hp A C hA'
      · intro h p hp A C hA
        exact h p hp (o :: A) C (by rw [hA]; rfl)

/-- The rounds of a write and a read are all different. -/
theorem rounds_nodup (hnd : (L.map Piece.n).Nodup) :
    (L.map Piece.toStore ++ L.map Piece.toFetch).Nodup := by
  refine List.Nodup.append (List.Nodup.of_map BlockOp.block ?_)
    (List.Nodup.of_map BlockOp.block ?_) ?_
  · rw [List.map_map]
    exact hnd
  · rw [List.map_map]
    exact hnd
  · intro o hs hf
    obtain ⟨p, -, rfl⟩ := List.mem_map.mp hs
    obtain ⟨q, -, hq⟩ := List.mem_map.mp hf
    cases hq

/-- Between a block's two rounds there is no other round of it. -/
theorem quiet_between (hnd : (L.map Piece.n).Nodup) (hrounds : hist.filter BlockOp.isRound
      = L.map Piece.toStore ++ L.map Piece.toFetch) (hp : p ∈ L)
    (hsplit : hist = A ++ p.toStore :: (B ++ p.toFetch :: C)) : ∀ o ∈ B, o.Quiet p.n := by
  intro o ho
  have hnodup := rounds_nodup hnd
  rw [← hrounds, hsplit, List.filter_append, List.filter_cons_of_pos rfl,
    List.filter_append, List.filter_cons_of_pos rfl] at hnodup
  obtain ⟨-, hnodup, -⟩ := List.nodup_append.mp hnodup
  obtain ⟨hnos, hnodup⟩ := List.nodup_cons.mp hnodup
  obtain ⟨-, -, hdisj⟩ := List.nodup_append.mp hnodup
  -- a round of the same block would be one of its two rounds
  have hround : o.isRound = true → o ∈ L.map Piece.toStore ++ L.map Piece.toFetch := by
    intro hr
    rw [← hrounds, List.mem_filter, hsplit]
    exact ⟨List.mem_append_right A (List.mem_cons_of_mem _ (List.mem_append_left _ ho)), hr⟩
  have hinB : o.isRound = true → o ∈ B.filter BlockOp.isRound :=
    fun hr => List.mem_filter.mpr ⟨ho, hr⟩
  have hinj := List.inj_on_of_nodup_map hnd
  cases o with
  | writeBack m | evict m => trivial
  | store m off bs =>
    rintro rfl
    rcases List.mem_append.mp (hround rfl) with hm | hm
    · obtain ⟨q, hq, heq⟩ := List.mem_map.mp hm
      obtain rfl := hinj hq hp (BlockOp.store.inj heq).1
      rw [← heq] at hinB
      exact hnos (List.mem_append_left _ (hinB rfl))
    · obtain ⟨q, -, heq⟩ := List.mem_map.mp hm
      cases heq
  | fetch m off chars =>
    rintro rfl
    rcases List.mem_append.mp (hround rfl) with hm | hm
    · obtain ⟨q, -, heq⟩ := List.mem_map.mp hm
      cases heq
    · obtain ⟨q, hq, heq⟩ := List.mem_map.mp hm
      obtain rfl := hinj hq hp (BlockOp.fetch.inj heq).1
      rw [← heq] at hinB
      exact hdisj _ (hinB rfl) _ (List.mem_cons_self ..) rfl

/-- The write comes before the read. -/
theorem store_before (hrounds : hist.filter BlockOp.isRound
      = L.map Piece.toStore ++ L.map Piece.toFetch) (hp : p ∈ L)
    (hsplit : hist = A ++ p.toFetch :: C) : ∃ A1 B, A = A1 ++ p.toStore :: B := by
  rw [hsplit, List.filter_append, List.filter_cons_of_pos rfl] at hrounds
  have hsub : p.toStore ∈ A.filter BlockOp.isRound := by
    have hstore : p.toStore ∈ L.map Piece.toStore := List.mem_map_of_mem hp
    rcases List.append_eq_append_iff.mp hrounds with ⟨X, hX, hY⟩ | ⟨X, hX, hY⟩
    · -- the fetch would be one of the stores
      cases X with
      | nil =>
        rw [List.append_nil] at hX
        rw [← hX]
        exact hstore
      | cons x X =>
        have hmem : p.toFetch ∈ L.map Piece.toStore := by
          rw [hX, (List.cons.inj hY).1]
          exact List.mem_append_right _ (List.mem_cons_self ..)
        obtain ⟨q, -, heq⟩ := List.mem_map.mp hmem
        cases heq
    · rw [hX]
      exact List.mem_append_left _ hstore
  exact List.append_of_mem (List.mem_filter.mp hsub).1

/-- Raw writes are read back exactly when every full block that was
written LASTS: the buffer `getblk` gave for it was up to date, or it was
written back in time, or the device held the same bytes. -/
theorem raw_read_back_iff (c : Cache) {pos : Nat} {buf : List UInt8}
    {hist : List BlockOp} (h : WriteThenRead pos buf hist) :
    bytesPut hist c = buf ↔ ∀ n bs, .store n 0 bs ∈ hist →
      bs.length = blockSize → Lasts c hist n bs := by
  obtain ⟨L, hL⟩ : ∃ L, L = pieces buf.length (pos / blockSize) (pos % blockSize) buf := ⟨_, rfl⟩
  have hmod : pos % blockSize < blockSize :=
    Nat.mod_lt _ (by unfold blockSize; omega)
  obtain ⟨hspec, hnd⟩ := pieces_spec buf.length (pos / blockSize) _ buf hmod
  have hflat := pieces_flatten buf.length (pos / blockSize) _ buf hmod (Nat.le_refl _)
  have hrounds : hist.filter BlockOp.isRound = L.map Piece.toStore ++ L.map Piece.toFetch := by
    rw [h, hL, blockWrite, blockRead, writeRounds_eq, readRounds_eq]
  rw [← hL] at hspec hnd hflat
  have hfetch : hist.filter BlockOp.isFetch = L.map Piece.toFetch := by
    have heq : hist.filter BlockOp.isFetch
        = (hist.filter BlockOp.isRound).filter BlockOp.isFetch := by
      rw [List.filter_filter]
      refine List.filter_congr fun o _ => ?_
      cases o <;> rfl
    rw [heq, hrounds, List.filter_append, List.filter_eq_nil_iff.mpr fun o ho => ?_,
      List.filter_eq_self.mpr fun o ho => ?_]
    · rfl
    · obtain ⟨q, -, rfl⟩ := List.mem_map.mp ho
      rfl
    · obtain ⟨q, -, rfl⟩ := List.mem_map.mp ho
      exact Bool.false_ne_true
  -- what the read of a piece puts, in terms of its story
  have hstory : ∀ p ∈ L, ∀ A B C, hist = A ++ p.toStore :: (B ++ p.toFetch :: C) →
      (p.toFetch.put (c.after (A ++ p.toStore :: B)) = p.bs ↔
        (p.bs.length = blockSize → ((c.after A).bufOf p.n).uptodate = true ∨ .writeBack p.n ∈ B
          ∨ ∀ k, k < blockSize → (c.after A).dev p.n k = p.bs.getD k 0)) := by
    intro p hp A B C hsplit
    rw [after_append]
    exact put_of_story (hspec p hp).2 (quiet_between hnd hrounds hp hsplit)
  rw [show buf = (L.map Piece.bs).flatten from hflat.symm, bytesPut_iff hnd hfetch]
  constructor
  · intro hall n bs hmem hlen A B C hsplit
    have hin : (BlockOp.store n 0 bs) ∈ L.map Piece.toStore := by
      have : (BlockOp.store n 0 bs) ∈ hist.filter BlockOp.isRound :=
        List.mem_filter.mpr ⟨hmem, rfl⟩
      rw [hrounds] at this
      refine (List.mem_append.mp this).resolve_right fun hf => ?_
      obtain ⟨q, -, heq⟩ := List.mem_map.mp hf
      cases heq
    obtain ⟨p, hp, heq⟩ := List.mem_map.mp hin
    obtain ⟨n', off, bs'⟩ := p
    cases heq
    rw [← hlen] at hsplit
    refine (hstory _ hp A B C hsplit).mp ?_ hlen
    refine hall _ hp (A ++ BlockOp.store n' 0 bs' :: B) C ?_
    rw [hsplit, List.append_assoc]
    rfl
  · intro hall p hp A' C hsplit
    obtain ⟨A, B, rfl⟩ := store_before hrounds hp hsplit
    rw [List.append_assoc] at hsplit
    refine (hstory p hp A B C hsplit).mpr fun hlen => ?_
    have hoff := (hspec p hp).2 hlen
    obtain ⟨n, off, bs⟩ := p
    obtain rfl : off = 0 := hoff
    refine hall n bs ?_ hlen A B C ?_
    · rw [hsplit]
      exact List.mem_append_right A (List.mem_cons_self ..)
    · rw [hsplit, ← hlen]
      rfl

/-- An empty cache over a device of zeros. -/
def zeroCache : Cache := ⟨fun _ => none, fun _ => Block.zero, fun _ => Block.zero⟩

/-- A byte at 3 is read back, with the buffer written back and given
away in between. -/
theorem raw_read_back_iff_byte :
    bytesPut [.store 0 3 [5], .writeBack 0, .evict 0, .fetch 0 3 1] zeroCache = [5] := by
  refine (raw_read_back_iff zeroCache (show WriteThenRead 3 [5] _ by
    unfold WriteThenRead
    decide)).mpr ?_
  intro n bs hmem hlen
  simp only [List.mem_cons, BlockOp.store.injEq, reduceCtorEq, List.not_mem_nil, or_false] at hmem
  exact absurd hmem.2.1 (by decide)

/-- A full block of 7s written to a block that is not in the cache, and
read back as zeros. -/
theorem full_block_is_lost : ¬ ∀ (c : Cache) (pos : Nat) (buf : List UInt8)
    (hist : List BlockOp), WriteThenRead pos buf hist → bytesPut hist c = buf := by
  intro hall
  have hput := hall zeroCache 0 (List.replicate blockSize 7)
    (blockWrite 0 (List.replicate blockSize 7) ++ blockRead 0 blockSize)
    (by unfold WriteThenRead; decide +kernel)
  have hzero : (bytesPut (blockWrite 0 (List.replicate blockSize 7)
      ++ blockRead 0 blockSize) zeroCache).headD 7 = 0 := by decide +kernel
  rw [hput] at hzero
  exact absurd hzero (by decide)

end LearnLinux.Fs
