/-
What the calls on names hold, on every path through them
(`Fs/Calls.lean`).

The references are written in the order in which they were taken, the last
one first; `swap` and `rot` bring the one that is given back to the front.
-/
import LearnLinux.Fs.Proofs.Inodes

namespace LearnLinux.Kernel

open LearnLinux.Lib
open LearnLinux.InodeTable (Slot)
open LearnLinux.Fs (Block Name)
open Logic.Runs

variable {n : Nat} {L : Logic n} {h : Holdings n} {fuel : Nat} {j dir : Slot} {r : Ref n}
variable {de : Fin n × Nat} {io : L.Io} {name pathname : Name} {dev mode : UInt16} {put : L.Put}

-- ======== entries

/-- What a routine has when it returns an entry, or none. -/
def withEntry (h : Holdings n) (de : Option (Fin n × Nat)) : Holdings n :=
  withBuf h (de.map Prod.fst)

theorem store_runs (b : Fin n) (f : Block → Block) : L.Runs h (store b f) fun _ => h :=
  seq (same fun _ => rfl) (same fun s => view_setHead s b fun _ => rfl)

theorem setEntry_runs (nr : UInt16) : L.Runs h (setEntry de nr) fun _ => h :=
  store_runs de.1 _

/-- `inode->i_dirt = 1` of an inode that is held. -/
theorem dirty_runs (io : L.Io) (hj : .ino j ∈ h) :
    L.Runs h (modify fun s : Machine n => s.setDirt j true) fun _ => h :=
  change fun _ hs => io.dirty hs hj

theorem findLoop_runs (io : L.Io) (hd : .ino dir ∈ h)
    (entries : Nat) : ∀ (m i k : Nat) (bh : Option (Fin n)),
    L.Runs (withBuf h bh) (findLoop fuel dir entries name m i k bh) (withEntry h) := by
  intro m
  induction m with
  | zero =>
    intro i k bh
    exact last (brelse_runs io bh)
  | succ m ih =>
    intro i k bh
    unfold findLoop
    refine both (last (brelse_runs io bh)) ?_
    cases hb : (if k < Fs.dirEntriesPerBlock then bh else none) with
    | some b =>
      have hbh : bh = some b := by
        split at hb
        · exact hb
        · cases hb
      rw [hbh]
      apply look
      intro s
      exact both (ret rfl) (ih _ _ _)
    | none =>
      apply seq (brelse_runs io bh)
      apply andThen (bmap_runs io hd _)
      intro block
      refine both (ih _ _ none) (look fun s => ?_)
      refine orNone (bread_runs io h _ _) (ih _ _ none) fun b => ?_
      exact look fun s => both (ret rfl) (ih _ _ (some b))

theorem dotDot_runs (hL : L.Get) (name : Name) :
    L.Runs (.ino dir ::ₘ h) (dotDot (n := n) fuel dir name) fun r => .ino r.1 ::ₘ h := by
  intro s hs
  unfold dotDot
  simp only [wp_bind, wp_get]
  split
  · split
    · exact hs
    split
    · rw [wp_bind]
      apply getSuper_wp hL.toIo
      · intro _
        exact hL.allows rfl
      intro i _
      simp only
      cases hm : (s.mnt i).imount with
      | none => exact hs
      | some m =>
        simp only [wp_bind]
        refine ((iput_runs hL.toPut).with
          (iput_runs (h := 0) (frame_put s.mnt)) hs rfl).imp
          fun _ s' hs' => ?_
        rw [wp_modify, wp_pure, view_take]
        refine hL.take hs'.1 (.inr (.inr (.inr (.inl ⟨i, ?_⟩))))
        have hmnt : s'.mnt = s.mnt := hs'.2
        change (s'.mnt i).imount = some m
        rw [hmnt, hm]
    · exact hs
  · exact hs

/-- `find_entry` returns the directory it has in the end, and the entry. -/
theorem findEntry_runs (hL : L.Get) (name : Name) :
    L.Runs (.ino dir ::ₘ h) (findEntry (n := n) fuel dir name)
      fun r => withEntry (.ino r.1 ::ₘ h) r.2 := by
  unfold findEntry
  apply look
  intro s
  refine both (ret rfl) ?_
  apply andThen (dotDot_runs hL _)
  intro r
  refine look fun s => both (ret rfl) ?_
  refine orNone (bread_runs hL.toIo _ _ _) (ret rfl) fun b => ?_
  apply andThen (findLoop_runs hL.toIo (Multiset.mem_cons_self _ _) _ _ _ _ (some b))
  intro de
  exact ret rfl

theorem extendDir_runs (io : L.Io) (hd : .ino dir ∈ h) (b : Fin n) (i k : Nat) :
    L.Runs h (extendDir dir b i k) fun _ => h := by
  unfold extendDir
  refine look fun s => both ?_ (ret rfl)
  exact seq (same fun _ => rfl) (seq (same fun _ => rfl) (dirty_runs io hd))

theorem addLoop_runs (io : L.Io) (hd : .ino dir ∈ h) : ∀ (m i k : Nat) (bh : Option (Fin n)),
    L.Runs (withBuf h bh) (addLoop fuel dir name m i k bh) (withEntry h) := by
  -- the entry is looked at, at its place in the buffer
  have hentry : ∀ (b : Fin n) (i k : Nat) (x : K n (Option (Fin n × Nat))),
      L.Runs (.buf b ::ₘ h) x (withEntry h) → L.Runs (.buf b ::ₘ h) (do
        extendDir dir b i k
        let s ← get
        if (s.data b).inodeNr k = 0 then do
          store b fun d => d.putName k name
          pure (some (b, k))
        else x) (withEntry h) := by
    intro b i k x hx
    apply seq (extendDir_runs io (Multiset.mem_cons_of_mem hd) b i k)
    exact look fun s => both (seq (store_runs b _) (ret rfl)) hx
  intro m
  induction m with
  | zero =>
    intro i k bh
    exact io.fails rfl
  | succ m ih =>
    intro i k bh
    unfold addLoop
    cases hb : (if k < Fs.dirEntriesPerBlock then bh else none) with
    | some b =>
      have hbh : bh = some b := by
        split at hb
        · exact hb
        · cases hb
      rw [hbh]
      exact hentry b i k _ (ih _ _ (some b))
    | none =>
      apply seq (brelse_runs io bh)
      apply andThen (createBlock_runs io hd _)
      intro block
      refine both (ret rfl) (look fun s => ?_)
      exact orNone (bread_runs io h _ _) (ih _ _ none) fun b => hentry b i 0 _ (ih _ _ (some b))

theorem addEntry_runs (io : L.Io) (hd : .ino dir ∈ h) (name : Name) :
    L.Runs h (addEntry (n := n) fuel dir name) (withEntry h) := by
  unfold addEntry
  refine look fun s => both (ret rfl) (both (ret rfl) ?_)
  exact orNone (bread_runs io h _ _) (ret rfl) fun b => addLoop_runs io hd _ _ _ (some b)

-- ======== pathnames

/-- What `dir_namei` returns: a directory and a name, or nothing. -/
def withDir (h : Holdings n) (r : Option (Slot × Name)) : Holdings n :=
  withIno h (r.map Prod.fst)

theorem walk_runs (hL : L.Get) : ∀ (names : List Name) (j : Slot), names ≠ [] →
    L.Runs (.ino j ::ₘ h) (walk (n := n) fuel names j) (withDir h) := by
  intro names
  induction names with
  | nil =>
    intro j hn
    exact absurd rfl hn
  | cons name rest ih =>
    intro j _
    unfold walk
    refine look fun s => both ?_ (last (iput_runs hL.toPut))
    by_cases hr : rest = []
    · rw [if_pos hr]
      exact ret rfl
    · rw [if_neg hr]
      apply andThen (findEntry_runs hL name)
      intro r
      obtain ⟨j', de⟩ := r
      cases de with
      | none => exact last (iput_runs hL.toPut)
      | some de =>
        refine look fun s => seq (release_runs hL.toIo) ?_
        apply seq (iput_runs hL.toPut)
        apply andThen (iget_runs hL _ _)
        intro j''
        exact ih j'' hr

theorem splitOn_ne_nil (l : Name) (a : UInt8) : l.splitOn a ≠ [] :=
  List.splitOnP_ne_nil _ l

theorem dirNamei_runs (hL : L.Get) (pathname : Name) :
    L.Runs h (dirNamei (n := n) fuel pathname) (withDir h) := by
  intro s hs
  unfold dirNamei
  simp only [wp_bind, wp_get]
  cases hroot : s.root with
  | none => exact hL.allows rfl
  | some root =>
    simp only
    split
    · exact hL.allows rfl
    cases hpwd : s.pwd with
    | none => exact hL.allows rfl
    | some pwd =>
      simp only
      split
      · exact hL.allows rfl
      split
      · exact hs
      · simp only [wp_bind, wp_modify]
        apply walk_runs hL _ root (splitOn_ne_nil _ _)
        rw [view_take]
        exact hL.take hs (.inr (.inl hroot))
      · simp only [wp_bind, wp_modify]
        apply walk_runs hL _ pwd (splitOn_ne_nil _ _)
        rw [view_take]
        exact hL.take hs (.inr (.inr (.inl hpwd)))

theorem namei_runs (hL : L.Get) (pathname : Name) :
    L.Runs h (namei (n := n) fuel pathname) (withIno h) := by
  unfold namei
  refine orNone (dirNamei_runs hL pathname) (ret rfl) fun p => ?_
  refine both (ret rfl) ?_
  apply andThen (findEntry_runs hL p.2)
  intro r
  obtain ⟨dir, de⟩ := r
  cases de with
  | none => exact last (iput_runs hL.toPut)
  | some de =>
    refine look fun s => seq (release_runs hL.toIo) ?_
    apply seq (iput_runs hL.toPut)
    apply andThen (iget_runs hL _ _)
    intro j
    exact seq (dirty_runs hL.toIo (Multiset.mem_cons_self _ _)) (ret rfl)

-- ======== open_namei

theorem head_mem : r ∈ (r ::ₘ h : Holdings n) :=
  Multiset.mem_cons_self _ _

theorem second_mem {r' : Ref n} : r ∈ (r' ::ₘ r ::ₘ h : Holdings n) :=
  Multiset.mem_cons_of_mem head_mem

/-- What `open_namei` hands out. -/
def withRes (h : Holdings n) (r : Int × Option Slot) : Holdings n :=
  withIno h r.2

theorem openNew_runs (hL : L.Make) (name : Name) (mode : UInt16) :
    L.Runs (.ino dir ::ₘ h) (openNew (n := n) fuel dir name mode) (withRes h) := by
  unfold openNew
  apply look
  intro s
  refine orNone (newInode_runs hL _) (last (iput_runs hL.toPut)) fun j => ?_
  refine seq (same fun _ => rfl) (seq (dirty_runs hL.toIo head_mem) ?_)
  apply andThen (addEntry_runs hL.toIo second_mem name)
  intro de
  cases de with
  | none =>
    refine seq (same fun _ => rfl) (seq (iput_runs hL.toPut) ?_)
    exact last (iput_runs hL.toPut)
  | some de =>
    refine look fun s => seq (setEntry_runs _) ?_
    apply seq (release_runs hL.toIo)
    exact swap (last (iput_runs hL.toPut))

theorem openOld_runs (hL : L.Get) (dev inr : UInt16) (flag : Nat) :
    L.Runs h (openOld (n := n) fuel dev inr flag) (withRes h) := by
  unfold openOld
  refine both (ret rfl) ?_
  apply andThen (iget_runs hL dev inr)
  intro j
  refine look fun s => both (last (iput_runs hL.toPut)) ?_
  exact both (last (truncate_runs hL.toIo head_mem)) (ret rfl)

theorem openNamei_runs (hL : L.Make) (pathname : Name) (flag : Nat) (mode : UInt16) :
    L.Runs h (openNamei (n := n) fuel pathname flag mode) (withRes h) := by
  unfold openNamei
  apply look
  intro s
  refine orNone (dirNamei_runs hL.toGet pathname) (ret rfl) fun p => ?_
  refine both (both (ret rfl) (last (iput_runs hL.toPut))) ?_
  apply andThen (findEntry_runs hL.toGet p.2)
  intro r
  obtain ⟨dir, de⟩ := r
  cases de with
  | none =>
    refine both (last (iput_runs hL.toPut)) ?_
    refine look fun s => both (openNew_runs hL _ _) ?_
    exact last (iput_runs hL.toPut)
  | some de =>
    refine look fun s => seq (release_runs hL.toIo) ?_
    exact seq (iput_runs hL.toPut) (openOld_runs hL.toGet _ _ _)

-- ======== mknod and mkdir

theorem mknodNew_runs (put : L.Put) (name : Name) (mode dev : UInt16) :
    L.Runs (.ino j ::ₘ .ino dir ::ₘ h) (mknodNew (n := n) fuel dir j name mode dev) fun _ => h := by
  have hzone : ∀ s : Machine n, (if S_ISBLK mode || S_ISCHR mode then
      s.setZone j 0 dev else s).view = s.view := by
    intro s
    split <;> rfl
  unfold mknodNew
  refine seq (same fun _ => rfl) (seq (same hzone) ?_)
  apply seq (dirty_runs put.toIo head_mem)
  apply andThen (addEntry_runs put.toIo second_mem name)
  intro de
  cases de with
  | none =>
    refine swap (seq (iput_runs put) (seq (same fun _ => rfl) ?_))
    exact last (iput_runs put)
  | some de =>
    refine look fun s => seq (setEntry_runs _) ?_
    refine rot (seq (iput_runs put) (swap ?_))
    apply seq (iput_runs put)
    exact last (release_runs put.toIo)

theorem create_runs (hL : L.Make) {f : Slot → Slot → Name → K n Int}
    (hf : ∀ dir j name, L.Runs (.ino j ::ₘ .ino dir ::ₘ h) (f dir j name) fun _ => h) :
    L.Runs h (create fuel pathname f) fun _ => h := by
  unfold create
  refine look fun s => both ?_ (ret rfl)
  refine orNone (dirNamei_runs hL.toGet pathname) (ret rfl) fun p => ?_
  have hput : ∀ e : Int, L.Runs (.ino p.1 ::ₘ h) (do
      iput fuel (some p.1)
      pure e) fun _ => h :=
    fun e => last (iput_runs hL.toPut)
  refine look fun s => both (hput _) (both ?_ (hput _))
  apply andThen (findEntry_runs hL.toGet p.2)
  intro r
  obtain ⟨dir, de⟩ := r
  cases de with
  | some de =>
    apply seq (release_runs hL.toIo)
    exact last (iput_runs hL.toPut)
  | none =>
    refine look fun s => andThen (newInode_runs hL _) fun r => ?_
    cases r with
    | none => exact last (iput_runs hL.toPut)
    | some j => exact hf dir j p.2

theorem sysMknod_runs (hL : L.Make) (filename : Name) (mode dev : UInt16) :
    L.Runs h (sysMknod (n := n) fuel filename mode dev) fun _ => h :=
  create_runs hL fun _ _ name =>
    mknodNew_runs hL.toPut name mode dev

theorem mkdirName_runs (put : L.Put) (name : Name) (mode : UInt16) :
    L.Runs (.ino j ::ₘ .ino dir ::ₘ h) (mkdirName (n := n) fuel dir j name mode) fun _ => h := by
  unfold mkdirName
  refine seq (same fun _ => rfl) (seq (dirty_runs put.toIo head_mem) ?_)
  apply andThen (addEntry_runs put.toIo second_mem name)
  intro de
  cases de with
  | none =>
    refine swap (seq (iput_runs put) (look fun s => ?_))
    apply seq (freeBlock_runs put.toIo _ _)
    refine seq (same fun _ => rfl) ?_
    exact last (iput_runs put)
  | some de =>
    refine look fun s => seq (setEntry_runs _) ?_
    refine rot (seq (same fun _ => rfl) ?_)
    apply seq (dirty_runs put.toIo head_mem)
    refine seq (iput_runs put) (swap ?_)
    apply seq (iput_runs put)
    exact last (release_runs put.toIo)

theorem mkdirNew_runs (put : L.Put) (name : Name) (mode : UInt16) :
    L.Runs (.ino j ::ₘ .ino dir ::ₘ h) (mkdirNew (n := n) fuel dir j name mode) fun _ => h := by
  unfold mkdirNew
  refine seq (same fun _ => rfl) (seq (dirty_runs put.toIo head_mem) ?_)
  refine look fun s => andThen (newBlock_runs put.toIo _) fun z => ?_
  refine seq (same fun _ => rfl) (both ?_ ?_)
  · refine swap (seq (iput_runs put) (seq (same fun _ => rfl) ?_))
    exact last (iput_runs put)
  · refine seq (dirty_runs put.toIo head_mem) (look fun s => ?_)
    apply andThen (bread_runs put.toIo _ _ _)
    intro r
    cases r with
    | none =>
      refine swap (seq (iput_runs put) (look fun s => ?_))
      apply seq (freeBlock_runs put.toIo _ _)
      refine seq (same fun _ => rfl) ?_
      exact last (iput_runs put)
    | some b =>
      refine look fun s => seq (store_runs b _) (seq (same fun _ => rfl) ?_)
      exact seq (release_runs put.toIo) (mkdirName_runs put name mode)

theorem sysMkdir_runs (hL : L.Make) (pathname : Name) (mode : UInt16) :
    L.Runs h (sysMkdir (n := n) fuel pathname mode) fun _ => h :=
  create_runs hL fun _ _ name =>
    mkdirNew_runs hL.toPut name mode

-- ======== rmdir and unlink

/-- Behind a hole the buffer that `empty_dir` has released counts as held
again: that is what the note stands for. -/
theorem emptyLoop_runs (io : L.Io) (hj : .ino j ∈ h) (len : Nat) : ∀ (m nr k : Nat) (b : Fin n),
      L.Runs (.buf b ::ₘ h) (emptyLoop fuel j len m nr k b) fun _ => h := by
  intro m
  induction m with
  | zero =>
    intro nr k b
    exact last (release_runs io)
  | succ m ih =>
    intro nr k b
    have hrel : ∀ (b : Fin n) (r : Bool), L.Runs (.buf b ::ₘ h) (do
        brelse (some b)
        pure r) fun _ => h :=
      fun b r => last (release_runs io)
    unfold emptyLoop
    refine both (hrel b _) (both (look fun s => both (ih _ _ b) (hrel b _))
      (seq (release_runs io) ?_))
    apply andThen (bmap_runs io hj _)
    intro block
    apply both
    · exact seq (change fun _ hs => io.hole hs) (ih _ _ b)
    · refine look fun s => andThen (bread_runs io h _ _) fun r => ?_
      cases r with
      | none => exact ret rfl
      | some b' => exact look fun s => both (ih _ _ b') (hrel b' _)

theorem emptyDir_runs (io : L.Io) (hj : .ino j ∈ h) :
    L.Runs h (emptyDir (n := n) fuel j) fun _ => h := by
  unfold emptyDir
  refine look fun s => both (ret rfl) ?_
  refine orNone (bread_runs io h _ _) (ret rfl) fun b => ?_
  refine look fun s => both ?_ (emptyLoop_runs io hj _ _ _ _ b)
  exact seq (change fun _ hs => io.badDirectory hs) (ret rfl)

theorem remove_runs (hL : L.Get) {f : Slot → Fin n × Nat → Slot → K n Int}
    (hf : ∀ dir de j, L.Runs (.ino j ::ₘ .buf de.1 ::ₘ .ino dir ::ₘ h) (f dir de j) fun _ => h) :
    L.Runs h (remove fuel pathname f) fun _ => h := by
  unfold remove
  refine orNone (dirNamei_runs hL pathname) (ret rfl) fun p => ?_
  have hput : ∀ e : Int, L.Runs (.ino p.1 ::ₘ h) (do
      iput fuel (some p.1)
      pure e) fun _ => h :=
    fun e => last (iput_runs hL.toPut)
  refine look fun s => both (hput _) (both ?_ (hput _))
  apply andThen (findEntry_runs hL p.2)
  intro r
  obtain ⟨dir, de⟩ := r
  cases de with
  | none => exact last (iput_runs hL.toPut)
  | some de =>
    refine look fun s => andThen (iget_runs hL _ _) fun j => ?_
    exact hf dir de j

theorem giveUp_runs (put : L.Put) (j j' : Slot) (err : Int) :
    L.Runs (.ino j ::ₘ .ino j' ::ₘ .buf de.1 ::ₘ h) (giveUp fuel j j' de err) fun _ => h := by
  unfold giveUp
  apply seq (iput_runs put)
  apply seq (iput_runs put)
  exact last (release_runs put.toIo)

theorem rmdirInode_runs (put : L.Put) :
    L.Runs (.ino j ::ₘ .buf de.1 ::ₘ .ino dir ::ₘ h) (rmdirInode fuel dir de j) fun _ => h := by
  have hdir : ∀ e, L.Runs (.ino j ::ₘ .buf de.1 ::ₘ .ino dir ::ₘ h)
      (giveUp fuel dir j de e) fun _ => h :=
    fun e => rot (giveUp_runs put dir j e)
  have hj : ∀ e, L.Runs (.ino j ::ₘ .buf de.1 ::ₘ .ino dir ::ₘ h)
      (giveUp fuel j dir de e) fun _ => h :=
    fun e => rot (swap (giveUp_runs put j dir e))
  unfold rmdirInode
  refine look fun s => both (hdir _) (both (hdir _) (both (hj _) (both ?_ (hj _))))
  apply andThen (emptyDir_runs put.toIo head_mem)
  intro r
  cases r with
  | false => exact hj _
  | true =>
    apply seq (setEntry_runs _)
    refine swap (seq (release_runs put.toIo) ?_)
    refine seq (same fun _ => rfl) (seq (dirty_runs put.toIo head_mem) ?_)
    refine seq (same fun _ => rfl) (seq (dirty_runs put.toIo second_mem) ?_)
    refine swap (seq (iput_runs put) ?_)
    exact last (iput_runs put)

theorem sysRmdir_runs (hL : L.Get) (pathname : Name) :
    L.Runs h (sysRmdir (n := n) fuel pathname) fun _ => h := by
  unfold sysRmdir
  refine look fun s => both ?_ (ret rfl)
  exact remove_runs hL fun dir de j =>
    rmdirInode_runs hL.toPut

theorem unlinkInode_runs (put : L.Put) :
    L.Runs (.ino j ::ₘ .buf de.1 ::ₘ .ino dir ::ₘ h) (unlinkInode fuel dir de j) fun _ => h := by
  unfold unlinkInode
  refine look fun s => both (rot (giveUp_runs put dir j _))
    (both (rot (swap (giveUp_runs put j dir _))) ?_)
  refine seq (same fun _ => rfl) (seq (setEntry_runs _) ?_)
  refine swap (seq (release_runs put.toIo) ?_)
  refine seq (same fun _ => rfl) (seq (dirty_runs put.toIo head_mem) ?_)
  apply seq (iput_runs put)
  exact last (iput_runs put)

theorem sysUnlink_runs (hL : L.Get) (pathname : Name) :
    L.Runs h (sysUnlink (n := n) fuel pathname) fun _ => h :=
  remove_runs hL fun _ _ _ => unlinkInode_runs hL.toPut

-- ======== link

theorem linkInode_runs (hL : L.Get) (old dir : Slot) (name : Name) :
    L.Runs (.ino dir ::ₘ .ino old ::ₘ h) (linkInode (n := n) fuel old dir name) fun _ => h := by
  -- most ways out put the directory first
  have hout : ∀ (dir : Slot) (e : Int), L.Runs (.ino dir ::ₘ .ino old ::ₘ h) (do
        iput fuel (some dir)
        iput fuel (some old)
        pure e) fun _ => h :=
    fun dir e => seq (iput_runs hL.toPut) (last (iput_runs hL.toPut))
  unfold linkInode
  refine look fun s => both ?_ (both (hout dir _) (both ?_ (hout dir _)))
  · refine swap (seq (iput_runs hL.toPut) ?_)
    exact last (iput_runs hL.toPut)
  · apply andThen (findEntry_runs hL name)
    intro r
    obtain ⟨dir, de⟩ := r
    cases de with
    | some de => exact seq (release_runs hL.toIo) (hout dir _)
    | none =>
      refine orNone (addEntry_runs hL.toIo head_mem name) (hout dir _) fun de => ?_
      refine look fun s => seq (setEntry_runs _) ?_
      apply seq (release_runs hL.toIo)
      refine seq (iput_runs hL.toPut) (seq (same fun _ => rfl) ?_)
      apply seq (dirty_runs hL.toIo head_mem)
      exact last (iput_runs hL.toPut)

theorem sysLink_runs (hL : L.Get) (oldname newname : Name) :
    L.Runs h (sysLink (n := n) fuel oldname newname) fun _ => h := by
  unfold sysLink
  refine orNone (namei_runs hL oldname) (ret rfl) fun old => ?_
  refine look fun s => both (last (iput_runs hL.toPut)) ?_
  apply andThen (dirNamei_runs hL newname)
  intro r
  cases r with
  | none => exact last (iput_runs hL.toPut)
  | some p => exact linkInode_runs hL old p.1 p.2

end LearnLinux.Kernel
