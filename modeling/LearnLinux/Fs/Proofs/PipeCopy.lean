/-
When the bytes of a pipe are published before they are copied.

Both calls advance their index first and copy afterwards. If a copy can
fault, and so sleep, in between, the other task sees the index of a
stretch that is not copied yet. Counted from the start of the stream there
are four positions: the reader has copied `C` bytes and claimed `R`, the
writer has copied `F` and claimed `W`. The tests of the calls keep `R ≤ W`
and `W < R + 4096`; nothing keeps `C ≤ F` or `F ≤ C + 4096`, which is what
the bytes depend on. The ring carries the last 4096 bytes the writer
copied in any case, so these two inequalities, at each byte, are all that
is needed.
-/
import LearnLinux.Fs.Proofs.Pipe

namespace LearnLinux.Pipe

open Lib (runOps exists_run Meets Carries)

variable {s s' : ByteSystem} {n size chars claimed R W : Nat} {k : Kind} {mem page : Nat → UInt8}
variable {o : ByteOp}

-- ======== invariant

/-- A party has copied `n` of the `claimed` bytes: its copy loop, if it is
in one, has the rest before it. -/
def LoopAt (cp : Option Copying) (n claimed : Nat) : Prop :=
  match cp with
  | none => n = claimed
  | some ⟨size, chars⟩ => n + chars = claimed ∧ ∀ i < chars, size + i = (n + i) % PAGE_SIZE

/-- A claim starts a loop. -/
theorem loopAt_claim {m : Nat} (h : n % PAGE_SIZE + m ≤ PAGE_SIZE) :
    LoopAt (some ⟨n % PAGE_SIZE, m⟩) n (n + m) :=
  ⟨rfl, fun _ hi => Lib.cell_add (by omega)⟩

/-- One byte on. -/
theorem LoopAt.next (h : LoopAt (some ⟨size, chars + 1⟩) n claimed) :
    LoopAt (some ⟨size + 1, chars⟩) (n + 1) claimed := by
  refine ⟨by have := h.1; omega, fun i hi => ?_⟩
  rw [Nat.add_assoc, Nat.add_comm 1 i, h.2 (i + 1) (by omega), Nat.add_assoc, Nat.add_comm 1 i]

theorem LoopAt.cell (h : LoopAt (some ⟨size, chars + 1⟩) n claimed) :
    size = n % PAGE_SIZE := h.2 0 (Nat.succ_pos _)

/-- What every run keeps, in order or not. -/
structure ByteInv (s : ByteSystem) (R W : Nat) : Prop where
  indices : Indices s.inode R W
  reader : LoopAt s.reader.copying s.stored.length R
  writer : LoopAt s.writer.copying s.supplied.length W
  carries : Carries PAGE_SIZE s.inode.page s.supplied
  idle : ∀ k, (s.party k).call = none → (s.party k).copying = none
  kinds : ∀ k c, (s.party k).call = some c → c.kind = k

theorem byteInv_boot : ByteInv (ByteSystem.boot page) 0 0 where
  indices := ⟨rfl, rfl, le_rfl, show 0 < 0 + PAGE_SIZE by decide⟩
  reader := rfl
  writer := rfl
  carries := Lib.carries_nil
  idle := fun k _ => by cases k <;> rfl
  kinds := fun k c h => by cases k <;> cases h

/-- A party that gets a new call, or falls asleep, or wakes, or ends its
copy loop: its position is the same. -/
theorem ByteInv.setParty (hi : ByteInv s R W) {q : Party}
    (hloop : ∀ n m, LoopAt (s.party k).copying n m → LoopAt q.copying n m)
    (hidle : q.call = none → q.copying = none) (hkind : ∀ c, q.call = some c → c.kind = k) :
    ByteInv (s.setParty k q) R W := by
  cases k with
  | read =>
    refine { hi with
      reader := hloop _ _ hi.reader
      idle := fun k => ?_
      kinds := fun k => ?_ } <;> cases k
    · exact hidle
    · exact hi.idle .write
    · exact hkind
    · exact hi.kinds .write
  | write =>
    refine { hi with
      writer := hloop _ _ hi.writer
      idle := fun k => ?_
      kinds := fun k => ?_ } <;> cases k
    · exact hi.idle .read
    · exact hidle
    · exact hi.kinds .read
    · exact hkind

/-- A round: the call returns, sleeps, or claims a stretch. -/
theorem ByteInv.round (hi : ByteInv s R W)
    (h : roundByte s k = some s') : ∃ R' W', ByteInv s' R' W' := by
  unfold roundByte at h
  dsimp only at h
  split at h
  · rename_i c hc hcp
    obtain ⟨-, h⟩ := Option.ite_none_left_eq_some.mp h
    split at h
    · cases h
      exact ⟨R, W, hi.setParty (fun _ _ hl => hcp ▸ hl) (fun _ => rfl) fun _ h => by cases h⟩
    · cases h
      exact ⟨R, W, hi.setParty (fun _ _ hl => hl) (hi.idle k) (hi.kinds k)⟩
    · rename_i p' c' size chars hr
      cases h
      have hk := hi.kinds k c hc
      unfold Pipe.round at hr
      cases k with
      | read =>
        rw [hk] at hr
        obtain ⟨n, rfl, rfl, hpage, hle, hix, hcl⟩ :=
          readRound_claims hi.indices hr
        have hpos : s.stored.length = R := by
          have := hi.reader
          rwa [show s.reader.copying = none from hcp] at this
        refine ⟨R + n, W, { hi with
          indices := hix
          reader := ?_
          carries := by rw [hcl.page]; exact hi.carries
          idle := fun k' => ?_
          kinds := fun k' c1 => ?_ }⟩
        · rw [Int.toNat_natCast, ← hpos]
          exact loopAt_claim (hpos ▸ hpage)
        · cases k' with
          | read => exact nofun
          | write => exact hi.idle .write
        · cases k' with
          | read =>
            intro h
            cases h
            rw [hcl.call]
            exact hk
          | write => exact hi.kinds .write c1
      | write =>
        rw [hk] at hr
        obtain ⟨n, rfl, rfl, hpage, hle, hix, hcl⟩ :=
          writeRound_claims hi.indices hr
        have hpos : s.supplied.length = W := by
          have := hi.writer
          rwa [show s.writer.copying = none from hcp] at this
        refine ⟨R, W + n, { hi with
          indices := hix
          writer := ?_
          carries := by rw [hcl.page]; exact hi.carries
          idle := fun k' => ?_
          kinds := fun k' c1 => ?_ }⟩
        · rw [Int.toNat_natCast, ← hpos]
          exact loopAt_claim (hpos ▸ hpage)
        · cases k' with
          | read => exact hi.idle .read
          | write => exact nofun
        · cases k' with
          | read => exact hi.kinds .read c1
          | write =>
            intro h
            cases h
            rw [hcl.call]
            exact hk
  · cases h

/-- What a pass of a copy loop does: it ends the loop, or the reader stores
the byte at its position, or the writer supplies the next one. -/
theorem copyByte_cases (h : copyByte s k mem = some s') :
    (∃ c size, (s.party k).call = some c ∧ (s.party k).copying = some ⟨size, 0⟩ ∧
      s' = s.setParty k { s.party k with copying := none }) ∨
    (∃ c size chars, k = .read ∧ s.reader.call = some c ∧
      s.reader.copying = some ⟨size, chars + 1⟩ ∧
      s' = { s.setParty .read { s.reader with
          call := some { c with buf := c.buf + 1 }
          copying := some ⟨size + 1, chars⟩ } with
        inode := s.inode.touch size
        stored := s.stored ++ [s.inode.page size] }) ∨
    (∃ c size chars, k = .write ∧ s.writer.call = some c ∧
      s.writer.copying = some ⟨size, chars + 1⟩ ∧
      s' = { s.setParty .write { s.writer with
          call := some { c with buf := c.buf + 1 }
          copying := some ⟨size + 1, chars⟩ } with
        inode := copyIn s.inode size (mem c.buf)
        supplied := s.supplied ++ [mem c.buf] }) := by
  unfold copyByte at h
  dsimp only at h
  split at h
  · rename_i c size hc hcp
    exact .inl ⟨c, size, hc, hcp, (Option.some.inj h).symm⟩
  · rename_i c size chars hc hcp
    cases k with
    | read => exact .inr (.inl ⟨c, size, chars, rfl, hc, hcp, (Option.some.inj h).symm⟩)
    | write => exact .inr (.inr ⟨c, size, chars, rfl, hc, hcp, (Option.some.inj h).symm⟩)
  · cases h

theorem ByteInv.copy (hi : ByteInv s R W) (h : copyByte s k mem = some s') : ByteInv s' R W := by
  rcases copyByte_cases h with ⟨c, size, hc, hcp, rfl⟩ |
    ⟨c, size, chars, rfl, hc, hcp, rfl⟩ | ⟨c, size, chars, rfl, hc, hcp, rfl⟩
  · refine hi.setParty (fun n m hl => ?_) (fun _ => rfl) (hi.kinds k)
    rw [hcp] at hl
    exact hl.1
  · have hl := hi.reader
    rw [hcp] at hl
    refine { hi with
      indices := ⟨hi.indices.tail, hi.indices.head, hi.indices.le, hi.indices.room⟩
      reader := ?_
      idle := fun k' => ?_
      kinds := fun k' c1 => ?_ }
    · rw [List.length_append, List.length_singleton]
      exact hl.next
    · cases k' with
      | read => exact nofun
      | write => exact hi.idle .write
    · cases k' with
      | read =>
        intro h
        cases h
        exact hi.kinds .read c hc
      | write => exact hi.kinds .write c1
  · have hl := hi.writer
    rw [hcp] at hl
    refine { hi with
      indices := ⟨hi.indices.tail, hi.indices.head, hi.indices.le, hi.indices.room⟩
      writer := ?_
      carries := ?_
      idle := fun k' => ?_
      kinds := fun k' c1 => ?_ }
    · rw [List.length_append, List.length_singleton]
      exact hl.next
    · rw [hl.cell]
      exact hi.carries.push _
    · cases k' with
      | read => exact hi.idle .read
      | write => exact nofun
    · cases k' with
      | read => exact hi.kinds .read c1
      | write =>
        intro h
        cases h
        exact hi.kinds .write c hc

theorem ByteInv.step (hi : ByteInv s R W)
    (h : byteStep o s = some s') : ∃ R' W', ByteInv s' R' W' := by
  cases o with
  | call k buf count =>
    simp only [byteStep] at h
    split at h
    · rename_i hc
      cases h
      refine ⟨R, W, hi.setParty (fun _ _ hl => ?_) (fun _ => rfl) fun c hc' => ?_⟩
      · rwa [hi.idle k hc] at hl
      · cases hc'
        rfl
    · cases h
  | round k => exact hi.round h
  | copy k mem => exact ⟨R, W, hi.copy h⟩
  | wake k =>
    simp only [byteStep] at h
    cases h
    exact ⟨R, W, hi.setParty (fun _ _ hl => hl) (hi.idle k) (hi.kinds k)⟩
  | refs iCount =>
    simp only [byteStep] at h
    cases h
    exact ⟨R, W, { hi with
      indices := ⟨hi.indices.tail, hi.indices.head, hi.indices.le, hi.indices.room⟩
      idle := fun k => by
        cases k with
        | read => exact hi.idle .read
        | write => exact hi.idle .write
      kinds := fun k => by
        cases k with
        | read => exact hi.kinds .read
        | write => exact hi.kinds .write }⟩

-- ======== in order

/-- Only a copy changes what is stored or supplied. -/
theorem setParty_stored (q : Party) : (s.setParty k q).stored = s.stored ∧
      (s.setParty k q).supplied = s.supplied := by
  cases k <;> exact ⟨rfl, rfl⟩

theorem roundByte_stored (h : roundByte s k = some s') :
    s'.stored = s.stored ∧ s'.supplied = s.supplied := by
  unfold roundByte at h
  dsimp only at h
  split at h
  · split at h
    · cases h
    · split at h <;>
      · cases h
        exact setParty_stored _
  · cases h

/-- A step other than a copy leaves both streams alone. -/
theorem byteStep_stored (ho : ∀ k mem, o ≠ .copy k mem) (h : byteStep o s = some s') :
    s'.stored = s.stored ∧ s'.supplied = s.supplied := by
  cases o with
  | call k buf count =>
    simp only [byteStep] at h
    split at h
    · cases h
      exact setParty_stored _
    · cases h
  | round k => exact roundByte_stored h
  | copy k mem => exact absurd rfl (ho k mem)
  | wake k =>
    simp only [byteStep] at h
    cases h
    exact setParty_stored _
  | refs iCount =>
    simp only [byteStep] at h
    cases h
    exact ⟨rfl, rfl⟩

/-- The byte the reader finds at its position is the writer's, when the
writer is ahead of it by no more than the ring. -/
theorem prefix_snoc {stored supplied : List UInt8}
    (hc : Carries PAGE_SIZE page supplied) (hp : stored <+: supplied)
    (hlt : stored.length < supplied.length) (hle : supplied.length ≤ stored.length + PAGE_SIZE) :
    stored ++ [page (stored.length % PAGE_SIZE)] <+: supplied := by
  have hget := hc stored.length hlt hle
  obtain ⟨rest, rfl⟩ := hp
  cases rest with
  | nil => simp at hlt
  | cons b rest =>
    rw [List.getElem?_append_right le_rfl, Nat.sub_self] at hget
    cases hget
    exact ⟨rest, by rw [List.append_assoc, List.singleton_append]⟩

theorem ByteSystem.InOrder.step (hi : ByteInv s R W) (ho : s.InOrder) (hg : InTurn o s)
    (h : byteStep o s = some s') : s'.InOrder := by
  by_cases hcopy : ∃ k mem, o = .copy k mem
  · obtain ⟨k, mem, rfl⟩ := hcopy
    rcases copyByte_cases h with ⟨c, size, -, -, rfl⟩ | ⟨c, size, chars, rfl, hc, hcp, rfl⟩ |
      ⟨c, size, chars, rfl, hc, hcp, rfl⟩
    · unfold ByteSystem.InOrder
      rw [(setParty_stored _).1, (setParty_stored _).2]
      exact ho
    · have hl := hi.reader
      rw [hcp] at hl
      have hlt := hg _ hcp (Nat.succ_pos _)
      refine ⟨?_, ?_⟩
      · rw [hl.cell]
        exact prefix_snoc hi.carries ho.1 hlt ho.2
      · show s.supplied.length ≤ (s.stored ++ [_]).length + PAGE_SIZE
        have := ho.2
        rw [List.length_append, List.length_singleton]
        omega
    · have hlt := hg _ hcp (Nat.succ_pos _)
      refine ⟨ho.1.trans (List.prefix_append _ _), ?_⟩
      show (s.supplied ++ [_]).length ≤ s.stored.length + PAGE_SIZE
      rw [List.length_append, List.length_singleton]
      omega
  · obtain ⟨h1, h2⟩ := byteStep_stored (fun k mem hk => hcopy ⟨k, mem, hk⟩) h
    unfold ByteSystem.InOrder
    rw [h1, h2]
    exact ho

/-- One byte, claimed and copied by the writer before the reader claims
it. -/
def oneByte : List ByteOp :=
  [.call .write 10 1, .round .write, .copy .write fun _ => 7,
    .copy .write fun _ => 7, .call .read 20 1, .round .read, .copy .read fun _ => 0]

/-- While the other task is not in its copy loop its two positions are one,
and the tests of the calls put every copy in turn. -/
theorem inTurn_of_undisturbed (hi : ByteInv s R W) (h : Undisturbed o s) : InTurn o s := by
  have hle := hi.indices.le
  have hroom := hi.indices.room
  have hw := hi.writer
  have hr := hi.reader
  cases o with
  | copy k mem =>
    cases k with
    | read =>
      intro cp hcp hpos
      rw [show s.writer.copying = none from h] at hw
      rw [hcp] at hr
      have hr := hr.1
      have hw : s.supplied.length = W := hw
      omega
    | write =>
      intro cp hcp hpos
      rw [show s.reader.copying = none from h] at hr
      rw [hcp] at hw
      have hw := hw.1
      have hr : s.stored.length = R := hr
      omega
  | _ => trivial

/-- Where no copy is interrupted, every byte arrives. -/
theorem inOrder_of_undisturbed {os : List ByteOp}
    (hm : Meets byteStep Undisturbed os (ByteSystem.boot page))
    (h : runOps byteStep os (ByteSystem.boot page) = some s') : s'.InOrder := by
  refine (Lib.runOps_invariant (I := fun s => (∃ R W, ByteInv s R W) ∧ s.InOrder)
    (fun o s s' hI hg hs => ?_) hm h ⟨⟨0, 0, byteInv_boot⟩, List.prefix_rfl, Nat.zero_le _⟩).2
  obtain ⟨⟨R, W, hi⟩, ho⟩ := hI
  exact ⟨hi.step hs, ho.step hi (inTurn_of_undisturbed hi hg) hs⟩

instance (o : ByteOp) (s : ByteSystem) : Decidable (Undisturbed o s) := by
  unfold Undisturbed
  split <;> infer_instance

theorem inOrder_of_undisturbed_one : ∃ s',
    runOps byteStep oneByte (ByteSystem.boot fun _ => 0) = some s' ∧ s'.stored = [7] ∧ s'.InOrder :=
  Lib.exists_checked Undisturbed (ByteSystem.stored · = [7]) (by decide +kernel)
    fun _ hm h hs => ⟨hs, inOrder_of_undisturbed hm h⟩

end LearnLinux.Pipe
