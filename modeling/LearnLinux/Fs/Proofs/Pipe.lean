/-
A pipe is a queue of bytes.

The two indices of the ring are counters of bytes modulo 4096
(`Indices`): how many have been claimed for the readers, and how many by
the writers. The tests of the two calls keep the second between the first
and the first plus 4095, so the masked difference of the indices is the
number of bytes in between, and never has to tell a full ring from an
empty one. The ring holds the last 4096 bytes of the writers' stream
(`Lib.Carries`), so what a reader finds at its index is the next byte of
the stream.
-/
import LearnLinux.Fs.Pipe

namespace LearnLinux.Pipe

open Function (update)
open Lib (runOps exists_run Carries)

variable {p p' : Inode} {R W n size : Nat} {c c' : Call} {chars : Int}

-- ======== the indices

/-- `R` bytes have been claimed for readers and `W` by writers. -/
structure Indices (p : Inode) (R W : Nat) : Prop where
  tail : p.tail = R % PAGE_SIZE
  head : p.head = W % PAGE_SIZE
  le : R ≤ W
  room : W < R + PAGE_SIZE

theorem Indices.size_eq (h : Indices p R W) : p.size = (W - R : Nat) := by
  unfold Inode.size
  rw [h.head, h.tail]
  exact Lib.cell_distance h.le h.room

/-- An index moves with its counter. -/
theorem advance_mod (h : R % PAGE_SIZE + n ≤ PAGE_SIZE) :
    advance (R % PAGE_SIZE) n = (R + n) % PAGE_SIZE := by
  unfold advance
  have hlt : R % PAGE_SIZE + n < 65536 := h.trans_lt (by decide)
  rw [← Int.natCast_add, show (65536 : Int) = ((65536 : Nat) : Int) from rfl,
    ← Int.natCast_mod, Int.toNat_natCast, Nat.mod_eq_of_lt hlt, Nat.mod_add_mod]

/-- A chunk is not empty, stays in the page and in what there is, and is no
more than was asked for. -/
theorem chunk_spec (R : Nat) (count avail : Int) (hc : 0 < count) (ha : 0 < avail) :
    ∃ n : Nat, chunk (R % PAGE_SIZE) count avail = n ∧ 0 < n ∧
      R % PAGE_SIZE + n ≤ PAGE_SIZE ∧ (n : Int) ≤ count ∧ (n : Int) ≤ avail := by
  have hlt : R % PAGE_SIZE < PAGE_SIZE := Nat.mod_lt _ (by decide)
  refine ⟨(chunk (R % PAGE_SIZE) count avail).toNat, ?_⟩
  unfold chunk
  omega

/-- A claim of `n` bytes: what is left of the call, and of the inode but
for its index. -/
structure Claimed (p : Inode) (c : Call) (p' : Inode) (c' : Call) (n : Nat) : Prop where
  pos : 0 < n
  asked : (n : Int) ≤ c.count
  call : c' = { c with count := c.count - n, done := c.done + n }
  page : p'.page = p.page
  wild : p'.wild = p.wild

theorem readRound_claims (hi : Indices p R W) (h : readRound p c = .claims p' c' size chars) :
    ∃ n : Nat, chars = n ∧ size = R % PAGE_SIZE ∧ R % PAGE_SIZE + n ≤ PAGE_SIZE ∧ R + n ≤ W ∧
      Indices p' (R + n) W ∧ Claimed p c p' c' n := by
  unfold readRound at h
  split at h
  · cases h
  · rename_i hc
    split at h
    · split at h <;> cases h
    · rename_i hs
      rw [hi.size_eq] at hs
      obtain ⟨n, hn, hpos, hpage, hcount, havail⟩ :=
        chunk_spec R c.count p.size (by omega) (by rw [hi.size_eq]; omega)
      rw [hi.size_eq] at havail
      simp only [hi.tail, hn] at h
      injection h with hp hc' hsize hchars
      subst hp hc' hsize hchars
      refine ⟨n, rfl, rfl, hpage, by omega, ?_, hpos, hcount, rfl, rfl, rfl⟩
      refine ⟨advance_mod hpage, hi.head, ?_, ?_⟩
      · omega
      · have := hi.room
        omega

theorem writeRound_claims (hi : Indices p R W) (h : writeRound p c = .claims p' c' size chars) :
    ∃ n : Nat, chars = n ∧ size = W % PAGE_SIZE ∧
      W % PAGE_SIZE + n ≤ PAGE_SIZE ∧ W + n < R + PAGE_SIZE ∧
      Indices p' R (W + n) ∧ Claimed p c p' c' n := by
  have hroom := hi.room
  have hle := hi.le
  unfold writeRound at h
  split at h
  · cases h
  · rename_i hc
    split at h
    · split at h <;> cases h
    · rename_i hs
      rw [hi.size_eq] at hs
      obtain ⟨n, hn, hpos, hpage, hcount, havail⟩ :=
        chunk_spec W c.count ((PAGE_SIZE - 1 : Int) - p.size) (by omega) (by rw [hi.size_eq]; omega)
      rw [hi.size_eq] at havail
      simp only [hi.head, hn] at h
      injection h with hp hc' hsize hchars
      subst hp hc' hsize hchars
      refine ⟨n, rfl, rfl, hpage, by omega, ?_, hpos, hcount, rfl, rfl, rfl⟩
      exact ⟨hi.tail, advance_mod hpage, by omega, by omega⟩

/-- The value a call returns, by what it has moved. -/
theorem round_returns {value : Int} {sigpipe : Bool} (h : round p c = .returns value sigpipe) :
    value = c.done ∨ (c.kind = .write ∧ value = -1 ∧ c.done = 0) := by
  unfold round at h
  cases hk : c.kind with
  | read =>
    simp only [hk, readRound] at h
    split at h
    · cases h
      exact .inl rfl
    · split at h
      · split at h
        · cases h
          exact .inl rfl
        · cases h
      · cases h
  | write =>
    simp only [hk, writeRound] at h
    split at h
    · cases h
      exact .inl rfl
    · split at h
      · split at h
        · cases h
          by_cases hd : c.done = 0
          · exact .inr ⟨rfl, by rw [if_neg (not_not.mpr hd)], hd⟩
          · exact .inl (if_pos hd)
        · cases h
      · cases h

-- ======== the copy loops

theorem touch_inPage {i : Nat} (h : i < PAGE_SIZE) : p.touch i = p := by
  unfold Inode.touch
  rw [decide_eq_false (not_le.mpr h), Bool.or_false]

/-- The copy loop of a reader that stays in the page reads it. -/
theorem copyOutLoop_eq : ∀ {size : Nat}, size + n ≤ PAGE_SIZE → copyOutLoop n size p
        = ((List.range n).map fun i => p.page (size + i), p) := by
  induction n with
  | zero => exact fun _ => rfl
  | succ n ih =>
    intro size h
    unfold copyOutLoop copyOut
    simp only [touch_inPage (show size < PAGE_SIZE by omega)]
    rw [ih (by omega), List.range_succ_eq_map, List.map_cons, List.map_map]
    refine congrArg (fun l => (p.page size :: l, p)) ?_
    refine List.map_congr_left fun i _ => ?_
    show p.page (size + 1 + i) = p.page (size + (i + 1))
    rw [Nat.add_right_comm, Nat.add_assoc]

/-- What a reader finds from its index on is the stream from its counter
on. -/
theorem range_map_page {taken : List UInt8} (hc : Carries PAGE_SIZE p.page taken)
    (hpage : R % PAGE_SIZE + n ≤ PAGE_SIZE) (hR : R + n ≤ taken.length)
    (hlast : taken.length ≤ R + PAGE_SIZE) :
    (List.range n).map (fun i => p.page (R % PAGE_SIZE + i)) = (taken.drop R).take n := by
  refine List.ext_getElem? fun i => ?_
  by_cases hi : i < n
  · rw [List.getElem?_map, List.getElem?_range hi, Option.map_some,
      List.getElem?_take_of_lt hi, List.getElem?_drop, Lib.cell_add (by omega)]
    exact (hc (R + i) (by omega) (by omega)).symm
  · rw [List.getElem?_eq_none (by simpa using hi), List.getElem?_eq_none (by simp; omega)]

/-- The copy loop of a writer puts its bytes at the end of the stream. -/
theorem copyInLoop_spec (bs : List UInt8) : ∀ (p : Inode) (stream : List UInt8) (size : Nat),
      Carries PAGE_SIZE p.page stream → size + bs.length ≤ PAGE_SIZE →
      (∀ i < bs.length, size + i = (stream.length + i) % PAGE_SIZE) →
      ∃ page', copyInLoop bs size p = { p with page := page' } ∧
        Carries PAGE_SIZE page' (stream ++ bs) := by
  induction bs with
  | nil =>
    intro p stream size hc _ _
    exact ⟨p.page, rfl, by rwa [List.append_nil]⟩
  | cons b bs ih =>
    intro p stream size hc hpage hcell
    rw [List.length_cons] at hpage hcell
    have hsize : size = stream.length % PAGE_SIZE :=
      hcell 0 (Nat.succ_pos _)
    have hin : copyIn p size b = { p with page := update p.page size b } := by
      unfold copyIn
      rw [touch_inPage (by omega)]
    have hc' : Carries PAGE_SIZE (update p.page size b) (stream ++ [b]) := hsize ▸ hc.push b
    obtain ⟨page', hp', hc''⟩ := ih (copyIn p size b) (stream ++ [b])
      (size + 1) (by rw [hin]; exact hc') (by omega) (fun i hi => by
        rw [List.length_append, List.length_singleton, Nat.add_assoc,
          Nat.add_comm 1 i, hcell (i + 1) (by omega), Nat.add_assoc, Nat.add_comm 1 i])
    refine ⟨page', ?_, ?_⟩
    · show copyInLoop bs (size + 1) (copyIn p size b) = _
      rw [hp', hin]
    · rwa [List.append_assoc] at hc''

-- ======== invariant

/-- What holds between the steps: the indices count the bytes delivered and
taken, the ring carries the stream, and the calls have counted what they
moved. -/
structure Inv (s : System) : Prop where
  indices : Indices s.inode s.delivered.length s.taken.length
  carries : Carries PAGE_SIZE s.inode.page s.taken
  order : s.delivered <+: s.taken
  inPage : s.inode.wild = false
  counted : ∀ t r, s.calls t = some r → r.call.done = r.moved.length
  honest : ∀ r ∈ s.returned, r.Honest

theorem inv_boot (page : Nat → UInt8) : Inv (System.boot page) where
  indices := ⟨rfl, rfl, le_rfl, show 0 < 0 + PAGE_SIZE by decide⟩
  carries := Lib.carries_nil
  order := List.prefix_rfl
  inPage := rfl
  counted := fun _ _ h => by cases h
  honest := fun _ h => absurd h List.not_mem_nil

variable {s s' : System} {calls : Nat → Option Running} {t : Nat} {r : Running} {mem : Nat → UInt8}

/-- A change of the calls alone. -/
theorem Inv.of_calls (hi : Inv s)
    (h : ∀ t r, calls t = some r → r.call.done = r.moved.length) : Inv { s with calls } :=
  { hi with counted := h }

theorem counted_update {r : Option Running}
    (h : ∀ u r, calls u = some r → r.call.done = r.moved.length)
    (hr : ∀ r', r = some r' → r'.call.done = r'.moved.length) :
    ∀ u r', update calls t r u = some r' → r'.call.done = r'.moved.length := by
  intro u r' hu
  rcases Lib.update_cases hu with ⟨-, hu⟩ | ⟨-, hu⟩
  · exact hr r' hu
  · exact h u r' hu

/-- A reader's chunk. -/
theorem Inv.transfer_read (hi : Inv s) (hr : s.calls t = some r) (hk : r.call.kind = .read)
    (h : readRound s.inode r.call = .claims p' c' size chars) :
    Inv (transfer s t r mem p' c' size chars.toNat) := by
  obtain ⟨n, rfl, rfl, hpage, hle, hix, hcl⟩ :=
    readRound_claims hi.indices h
  have hroom := hi.indices.room
  have hk' : c'.kind = .read := by rw [hcl.call]; exact hk
  have hbytes := range_map_page hi.carries hpage hle (by omega)
  have hout : copyOutLoop n (s.delivered.length % PAGE_SIZE) p'
      = ((s.taken.drop s.delivered.length).take n, p') := by
    rw [copyOutLoop_eq hpage, hcl.page, hbytes]
  have hlen : ((s.taken.drop s.delivered.length).take n).length = n := by
    rw [List.length_take, List.length_drop]
    omega
  unfold transfer
  simp only [Int.toNat_natCast, hk', hout]
  refine ⟨?_, ?_, ?_, ?_, ?_, hi.honest⟩
  · rw [List.length_append, hlen]
    exact hix
  · rw [hcl.page]
    exact hi.carries
  · obtain ⟨rest, hrest⟩ := hi.order
    refine ⟨rest.drop n, ?_⟩
    rw [← hrest, List.drop_left, List.append_assoc, List.take_append_drop]
  · rw [hcl.wild]
    exact hi.inPage
  · refine counted_update hi.counted fun r' hr' => ?_
    cases hr'
    rw [List.length_append, hlen, hcl.call]
    rw [hi.counted t r hr]
    rfl

/-- A writer's chunk. -/
theorem Inv.transfer_write (hi : Inv s) (hr : s.calls t = some r) (hk : r.call.kind = .write)
    (h : writeRound s.inode r.call = .claims p' c' size chars) :
    Inv (transfer s t r mem p' c' size chars.toNat) := by
  obtain ⟨n, rfl, rfl, hpage, hlt, hix, hcl⟩ :=
    writeRound_claims hi.indices h
  have hk' : c'.kind = .write := by rw [hcl.call]; exact hk
  have hlen : ((List.range n).map fun i => mem (c'.buf + i)).length = n := by
    rw [List.length_map, List.length_range]
  obtain ⟨page', hp', hc'⟩ := copyInLoop_spec
    ((List.range n).map fun i => mem (c'.buf + i)) p' s.taken
    (s.taken.length % PAGE_SIZE) (by rw [hcl.page]; exact hi.carries) (hlen.symm ▸ hpage)
    (fun i hi' => Lib.cell_add (by rw [hlen] at hi'; omega))
  unfold transfer
  simp only [Int.toNat_natCast, hk', hp']
  refine ⟨?_, hc', ?_, ?_, ?_, hi.honest⟩
  · rw [List.length_append, hlen]
    exact ⟨hix.tail, hix.head, hix.le, hix.room⟩
  · exact hi.order.trans (List.prefix_append _ _)
  · rw [hcl.wild]
    exact hi.inPage
  · refine counted_update hi.counted fun r' hr' => ?_
    cases hr'
    rw [List.length_append, hlen, hcl.call]
    rw [hi.counted t r hr]
    rfl

theorem Inv.goOn (hi : Inv s) (hr : s.calls t = some r) : Inv (Pipe.goOn s t r mem) := by
  unfold Pipe.goOn
  split
  · rename_i value sigpipe h
    refine { hi with
      counted := counted_update hi.counted fun _ h => by cases h
      honest := fun r' hr' => ?_ }
    rcases List.mem_append.mp hr' with hr' | hr'
    · exact hi.honest r' hr'
    · rw [List.mem_singleton.mp hr']
      have hd := hi.counted t r hr
      rcases round_returns h with h | ⟨hk, hv, h0⟩
      · exact .inl (h.trans hd)
      · refine .inr ⟨hk, hv, List.length_eq_zero_iff.mp ?_⟩
        rw [h0] at hd
        exact_mod_cast hd.symm
  · refine hi.of_calls (counted_update hi.counted fun r' hr' => ?_)
    cases hr'
    exact hi.counted t r hr
  · rename_i p' c' size chars h
    unfold round at h
    split at h
    · rename_i hk
      exact hi.transfer_read hr hk h
    · rename_i hk
      exact hi.transfer_write hr hk h

theorem Inv.step {o : Op} (hi : Inv s) (h : Pipe.step o s = some s') : Inv s' := by
  cases o with
  | call t kind buf count =>
    simp only [Pipe.step] at h
    split at h
    · cases h
      refine hi.of_calls (counted_update hi.counted fun r' hr' => ?_)
      cases hr'
      rfl
    · cases h
  | round t mem =>
    simp only [Pipe.step] at h
    split at h
    · rename_i r hr
      split at h
      · cases h
      · cases h
        exact hi.goOn hr
    · cases h
  | wake t =>
    simp only [Pipe.step] at h
    split at h
    · rename_i r hr
      cases h
      refine hi.of_calls (counted_update hi.counted fun r' hr' => ?_)
      cases hr'
      exact hi.counted t r hr
    · cases h
  | refs iCount =>
    simp only [Pipe.step] at h
    cases h
    exact { hi with indices :=
      ⟨hi.indices.tail, hi.indices.head, hi.indices.le, hi.indices.room⟩ }

/-- The pending bytes are the rest of the stream. -/
theorem Inv.pending_eq (hi : Inv s) : s.inode.pending = s.taken.drop s.delivered.length := by
  have hroom := hi.indices.room
  unfold Inode.pending
  rw [hi.indices.size_eq, Int.toNat_natCast]
  refine List.ext_getElem? fun i => ?_
  by_cases h : i < s.taken.length - s.delivered.length
  · rw [List.getElem?_map, List.getElem?_range h, Option.map_some,
      List.getElem?_drop, hi.indices.tail, Nat.mod_add_mod]
    exact (hi.carries _ (by omega) (by omega)).symm
  · rw [List.getElem?_eq_none (by simpa using h), List.getElem?_eq_none (by simp; omega)]

/-- A fresh pipe is a queue of bytes after any sequence of calls, chunks,
sleeps and wake-ups of any number of readers and writers. -/
theorem pipe_is_fifo {os : List Op} {page : Nat → UInt8}
    (h : runOps step os (System.boot page) = some s) : s.IsFifo := by
  have hi : Inv s := Lib.runOps_invariant_all (fun _ _ _ hI hs => hI.step hs) h (inv_boot page)
  have hle := hi.indices.le
  have hroom := hi.indices.room
  have hpre : s.delivered = s.taken.take s.delivered.length :=
    List.prefix_iff_eq_take.mp hi.order
  have hsize := hi.indices.size_eq
  refine ⟨?_, ?_, ?_, ?_, hi.inPage, hi.honest⟩
  · rw [hi.pending_eq]
    nth_rewrite 1 [hpre]
    exact List.take_append_drop _ _
  · rw [hsize]
    omega
  · rw [hsize]
    omega
  · rw [hsize]
    constructor
    · intro h0
      rw [hpre]
      exact List.take_of_length_le (by omega)
    · intro heq
      rw [heq]
      simp

/-- A writer hands over three bytes, a reader asks for two. -/
theorem pipe_is_fifo_three : ∃ s, runOps step [.call 1 .write 10 3, .round 1 (fun a => a.toUInt8),
        .call 2 .read 50 2, .round 2 (fun _ => 0), .round 2 (fun _ => 0)]
        (System.boot fun _ => 0) = some s ∧
      s.delivered = [10, 11] ∧ s.inode.pending = [12] ∧ s.IsFifo := by
  exact exists_run (fun s => s.delivered = [10, 11] ∧ s.inode.pending = [12]) (by decide +kernel)
    fun s h hv => ⟨hv.1, hv.2, pipe_is_fifo h⟩

end LearnLinux.Pipe
