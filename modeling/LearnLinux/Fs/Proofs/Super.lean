/-
When `read_super` is safe on a block with the right magic number. It
never compares `s_imap_blocks` and `s_zmap_blocks` with the eight slots
there are for each, nor with `s_ninodes` and `s_nzones`, nor with 0.
-/
import LearnLinux.Fs.Super

namespace LearnLinux.Fs.Super

variable {bread zero : Nat → Bool} {n block i : Nat} {m : List Nat}

-- ========================================================== reading the maps

/-- The loops for `n` maps end with these, or with a store too far. -/
def Filled (bread : Nat → Bool) (n : Nat) : Option (List Nat) → Prop
  | none => mapSlots < n ∧ ∀ i < mapSlots, bread i
  | some m => m.length ≤ mapSlots ∧ m.length ≤ n ∧ (m.length = n ↔ ∀ i < n, bread i) ∧
    ((∀ i < mapSlots, bread i) → n ≤ mapSlots)

/-- Induction on the maps still to read, when those before them have
been: a read that fails refutes that all of them succeed. -/
theorem filled_readMaps (hm : m.length ≤ mapSlots) (hread : ∀ i < m.length, bread i) :
    Filled bread (m.length + n) (readMaps bread n block m) := by
  induction n generalizing block m with
  | zero => exact ⟨hm, Nat.le_refl _, iff_of_true rfl hread, fun _ => hm⟩
  | succ n ih =>
    unfold readMaps
    split
    · rename_i hfull
      exact ⟨by omega, hfull ▸ hread⟩
    split
    · rename_i hb
      have hlen : m.length + (n + 1) = (m ++ [block]).length + n := by simp; omega
      rw [hlen]
      refine ih (by simp; omega) ?_
      simp only [List.length_append, List.length_singleton, Nat.lt_succ_iff_lt_or_eq]
      rintro i (hi | rfl)
      · exact hread i hi
      · exact hb
    · rename_i hb
      refine ⟨hm, by omega, ⟨by omega, fun h => ?_⟩, fun h => ?_⟩
      · exact absurd (h m.length (by omega)) hb
      · exact absurd (h m.length (by omega)) hb

theorem filled_of_nil (bread : Nat → Bool) (n block : Nat) :
    Filled bread n (readMaps bread n block []) := by
  simpa using filled_readMaps (m := []) (Nat.zero_le _) nofun

-- ============================================================ using the maps

theorem getElem?_of_newMap (h : newMap zero m = some i) : m[i]? ≠ none := by
  have h := List.find?_some h
  cases hi : m[i]? with
  | none => simp [hi] at h
  | some b => exact nofun

/-- The maps reach exactly as far as there are zones and inodes. -/
theorem mapped_iff {s : SuperBlock} (hz : 0 < s.zmap.length) (hi : 0 < s.imap.length) :
    s.Mapped ↔ s.d.nzones - s.d.firstdatazone < 8192 * s.zmap.length ∧
      s.d.ninodes < 8192 * s.imap.length := by
  unfold SuperBlock.Mapped SuperBlock.freeBlockMap SuperBlock.freeInodeMap
  simp only [ne_eq, List.getElem?_eq_none_iff, Nat.not_le]
  constructor
  · rintro ⟨hzone, hnum, -⟩
    -- the last zone and the last inode
    have hlast := hzone (s.d.nzones - 1)
    have hnlast := hnum s.d.ninodes
    omega
  · rintro ⟨hzone, hnum⟩
    refine ⟨by omega, by omega, fun zero i => ⟨fun h => ?_, fun h => ?_⟩⟩
    · simpa using getElem?_of_newMap h
    · simpa using getElem?_of_newMap h

/-- Releasing what is held leaves nothing held. -/
theorem diff_self (l : List Nat) : l.diff l = [] := by
  induction l with
  | nil => rfl
  | cons a l ih => rw [List.diff_cons, List.erase_cons_head, ih]

-- ================================================================ the result

/-- On a block with the magic number `read_super` is safe exactly if it
cannot read that block, or if neither array is to get a ninth map after
the eight reads before it succeed and the maps, when all of them can be
read, cover the zones and the inodes. -/
theorem readSuper_safe_iff (disk : Disk) (d : DSuperBlock) (hmagic : d.magic = superMagic) :
    (readSuper disk d).Safe ↔ disk.super = false ∨
      ((∀ i < mapSlots, disk.imap i) → d.imapBlocks ≤ mapSlots) ∧
      ((∀ i < mapSlots, disk.zmap i) → d.zmapBlocks ≤ mapSlots) ∧
      ((∀ i < d.imapBlocks, disk.imap i) → (∀ i < d.zmapBlocks, disk.zmap i) →
        d.nzones - d.firstdatazone < 8192 * d.zmapBlocks ∧ d.ninodes < 8192 * d.imapBlocks) := by
  unfold readSuper
  cases hsuper : disk.super with
  | false => simp [Outcome.Safe]
  | true =>
    simp only [hmagic, ne_eq, not_true, if_false, Bool.not_true, Bool.false_eq_true,
      Bool.true_eq_false, false_or]
    have him := filled_of_nil disk.imap d.imapBlocks 2
    generalize readMaps disk.imap d.imapBlocks 2 [] = im at him ⊢
    cases im with
    | none => exact ⟨False.elim, fun h => absurd (h.1 him.2) (Nat.not_le.mpr him.1)⟩
    | some im =>
      have hzm := filled_of_nil disk.zmap d.zmapBlocks (2 + im.length)
      simp only
      generalize readMaps disk.zmap d.zmapBlocks (2 + im.length) [] = zm at hzm ⊢
      cases zm with
      | none => exact ⟨False.elim, fun h => absurd (h.2.1 hzm.2) (Nat.not_le.mpr hzm.1)⟩
      | some zm =>
        obtain ⟨hi8, hile, hiall, hi⟩ := him
        obtain ⟨hz8, hzle, hzall, hz⟩ := hzm
        rw [← hiall, ← hzall, and_iff_right hi, and_iff_right hz]
        dsimp only
        split
        · -- a read failed: the arrays hold all there is to release
          rw [List.take_of_length_le hi8, List.take_of_length_le hz8]
          exact ⟨fun _ h h' => by omega, fun _ => ⟨rfl, diff_self _⟩⟩
        have hil : im.length = d.imapBlocks := by omega
        have hzl : zm.length = d.zmapBlocks := by omega
        rw [← hil, ← hzl]
        split
        · rename_i hempty
          refine ⟨False.elim, fun h => ?_⟩
          rcases hempty with rfl | rfl <;> simp at h
        · rename_i hne
          simp only [not_or, ← List.length_pos_iff] at hne
          refine (mapped_iff hne.2 hne.1).trans ?_
          simp only [true_imp_iff]

/-- Three map blocks of each kind, all readable, and as many zones and
inodes as they have bits for. -/
theorem readSuper_safe_iff_covered :
    (readSuper ⟨true, fun _ => true, fun _ => true⟩
      ⟨24575, 24676, 3, 3, 101, superMagic⟩).Safe := by
  refine (readSuper_safe_iff _ _ rfl).mpr (.inr ?_)
  decide

/-- With `s_imap_blocks` 9 and a disk that can be read, the ninth map is
stored into `s_zmap[0]`. -/
theorem readSuper_ninth_map :
    ¬ (readSuper ⟨true, fun _ => true, fun _ => true⟩
      ⟨24575, 24676, 9, 3, 101, superMagic⟩).Safe := by
  exact id

end LearnLinux.Fs.Super
